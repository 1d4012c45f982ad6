import JyyOs.Uproc.PageList

/-!
How the calls of the module can stop: one lemma for every function that takes a lock, asks
pmm->alloc or asserts.
-/
namespace Uproc

open Hoare LinkedList

variable {s : Kernel} {e : Stop}

theorem stop_unless_error {c : Prop} [Decidable c] {e' : Stop} :
    (stopUnless c e').run s = .error e ↔ ¬c ∧ e = e' := by
  unfold stopUnless
  split
  · rename_i h
    simp only [pure_error, h, not_true_eq_false, false_and]
  · rename_i h
    simp only [throw_error, h, not_false_eq_true, true_and]

theorem run_if_error {c : Prop} [Decidable c] {x : Kern Unit} :
    (runIf c x).run s = .error e ↔ c ∧ x.run s = .error e := by
  unfold runIf
  split
  · rename_i h
    simp only [h, true_and]
  · rename_i h
    simp only [pure_error, h, false_and]

theorem spin_lock_error {l : LockId} :
    (spinLock l).run s = .error e ↔ s.locks l = true ∧ e = .deadlock := by
  simp only [spinLock, bind_error, get_ok, get_error, set_error, stop_unless_error, and_false,
    exists_false, or_false, false_or]
  constructor
  · rintro ⟨_, _, ⟨rfl, rfl⟩, held, rfl⟩
    exact ⟨by simpa using held, rfl⟩
  · rintro ⟨held, rfl⟩
    exact ⟨s, s, ⟨rfl, rfl⟩, by simp [held], rfl⟩

theorem spin_unlock_error {l : LockId} :
    (spinUnlock l).run s = .error e ↔ s.locks l = false ∧ e = .panic := by
  simp only [spinUnlock, bind_error, get_ok, get_error, set_error, stop_unless_error, and_false,
    exists_false, or_false, false_or]
  constructor
  · rintro ⟨_, _, ⟨rfl, rfl⟩, held, rfl⟩
    exact ⟨by simpa using held, rfl⟩
  · rintro ⟨free, rfl⟩
    exact ⟨s, s, ⟨rfl, rfl⟩, by simp [free], rfl⟩

theorem get_task_error {t : Nat} : (getTask t).run s = .error e ↔ False := by
  simp only [getTask, bind_error, get_error, pure_error, and_false, exists_false, or_false]

theorem choose_error : choose.run s = .error e ↔ s.choices = [] ∧ e = .infeasible := by
  simp only [choose, bind_error, get_ok, get_error, false_or]
  constructor
  · rintro ⟨_, _, ⟨rfl, rfl⟩, h⟩
    split at h
    · rename_i none
      exact ⟨none, throw_error.mp h⟩
    · simp only [bind_error, set_error, pure_error, and_false, exists_false, or_false] at h
  · rintro ⟨none, rfl⟩
    refine ⟨s, s, ⟨rfl, rfl⟩, ?_⟩
    rw [none]
    rfl

theorem alloc_page_error (h : allocPage.run s = .error e) : e = .infeasible := by
  simp only [allocPage, bind_error, choose_error, choose_ok, get_ok, get_error, false_or] at h
  rcases h with ⟨_, rfl⟩ | ⟨pa, _, _, _, _, ⟨rfl, rfl⟩, h⟩
  · rfl
  · split at h
    · exact (pure_error.mp h).elim
    · simp only [bind_error, stop_unless_error, set_error, pure_error, and_false, exists_false,
        or_false] at h
      exact h.2

theorem alloc_node_error (h : allocNode.run s = .error e) :
    e = .infeasible ∨ e = .null ∧ ∃ rest, s.choices = 0 :: rest := by
  simp only [allocNode, bind_error, choose_error, choose_ok, get_ok, get_error, stop_unless_error,
    stop_unless_ok, set_error, pure_error, and_false, exists_false, or_false, false_or] at h
  rcases h with ⟨_, rfl⟩ | ⟨p, _, ⟨rest, chosen, rfl⟩, _, _, ⟨rfl, rfl⟩,
    ⟨null, rfl⟩ | ⟨_, _, _, _, rfl⟩⟩
  · exact .inl rfl
  · rw [not_not.mp null] at chosen
    exact .inr ⟨rfl, rest, chosen⟩
  · exact .inl rfl

def Allocable (s : Kernel) (pa : Nat) : Prop :=
  pa ≠ 0 → s.frameUsed pa = false ∧ pa % pgsize = 0

theorem alloc_page_served {pa : Nat} {rest : List Nat} (chosen : s.choices = pa :: rest)
    (free : Allocable s pa) (h : allocPage.run s = .error e) : False := by
  simp only [allocPage, bind_error, choose_error, choose_ok, get_ok, get_error, false_or] at h
  rcases h with ⟨none, _⟩ | ⟨pa', _, ⟨rest', chosen', rfl⟩, _, _, ⟨rfl, rfl⟩, h⟩
  · rw [chosen] at none
    cases none
  · rw [chosen] at chosen'
    cases chosen'
    split at h
    · exact (pure_error.mp h).elim
    · rename_i real
      simp only [bind_error, stop_unless_error, set_error, pure_error, and_false, exists_false,
        or_false] at h
      exact h.1 (free real)

theorem alloc_node_served {p : Nat} {rest : List Nat} (chosen : s.choices = p :: rest)
    (real : p ≠ 0) (unused : s.nodeUsed p = false) (h : allocNode.run s = .error e) : False := by
  simp only [allocNode, bind_error, choose_error, choose_ok, get_ok, get_error, stop_unless_error,
    stop_unless_ok, set_error, pure_error, and_false, exists_false, or_false, false_or] at h
  rcases h with ⟨none, _⟩ | ⟨p', _, ⟨rest', chosen', rfl⟩, _, _, ⟨rfl, rfl⟩,
    ⟨null, _⟩ | ⟨_, _, _, used, _⟩⟩
  · rw [chosen] at none
    cases none
  · rw [chosen] at chosen'
    cases chosen'
    exact null real
  · rw [chosen] at chosen'
    cases chosen'
    exact used unused

theorem get_cow_cnt_error {pa : Nat} (free : s.locks .cow = false)
    (h : (getCowCnt pa).run s = .error e) : False := by
  simp only [getCowCnt, bind_error, spin_lock_error, spin_lock_ok, get_ok, get_error,
    spin_unlock_error, pure_error, and_false, exists_false, or_false, false_or] at h
  rcases h with ⟨held, _⟩ | ⟨_, _, ⟨_, rfl⟩, _, _, ⟨rfl, rfl⟩, open_again, _⟩
  · simp [free] at held
  · simp at open_again

theorem dec_cow_cnt_error {pa : Nat} (free : s.locks .cow = false)
    (h : (decCowCnt pa).run s = .error e) : False := by
  simp only [decCowCnt, bind_error, spin_lock_error, spin_lock_ok, modify_ok, modify_error,
    spin_unlock_error, false_or] at h
  rcases h with ⟨held, _⟩ | ⟨_, _, ⟨_, rfl⟩, _, _, rfl, open_again, _⟩
  · simp [free] at held
  · simp [Kernel.setCow] at open_again

theorem inc_cow_cnt_error {pa : Nat} (free : s.locks .cow = false)
    (h : (incCowCnt pa).run s = .error e) : False := by
  simp only [incCowCnt, bind_error, spin_lock_error, spin_lock_ok, modify_ok, modify_error,
    spin_unlock_error, false_or] at h
  rcases h with ⟨held, _⟩ | ⟨_, _, ⟨_, rfl⟩, _, _, rfl, open_again, _⟩
  · simp [free] at held
  · simp [Kernel.setCow] at open_again

theorem free_page_error {pa : Nat} (h : (freePage pa).run s = .error e) : False := by
  simp only [freePage, bind_error, get_error, set_error, and_false, exists_false, or_false] at h

theorem find_mapped_page_loop_error {va fuel cur : Nat} {list : List Nat}
    (linked : Linked (nextOf s) 0 cur list) (enough : list.length < fuel)
    (h : (findMappedPageLoop va fuel cur).run s = .error e) : False := by
  induction fuel generalizing list cur with
  | zero => exact absurd enough (Nat.not_lt_zero _)
  | succ fuel ih =>
    rw [findMappedPageLoop] at h
    by_cases ended : cur = 0
    · rw [if_pos ended] at h
      exact (pure_error.mp h).elim
    · rw [if_neg ended] at h
      obtain ⟨rest, rfl, later⟩ := linked_head linked ended
      simp only [bind_error, get_ok, get_error, false_or] at h
      obtain ⟨_, _, ⟨rfl, rfl⟩, h⟩ := h
      split at h
      · exact (pure_error.mp h).elim
      · exact ih later (Nat.lt_of_succ_lt_succ enough) h

theorem find_mapped_page_error {t va : Nat} {list : List Nat}
    (linked : Linked (nextOf s) 0 (headOf s t) list) (enough : list.length < s.rounds)
    (h : (findMappedPage t va).run s = .error e) : False := by
  simp only [findMappedPage, bind_error, get_ok, get_error, false_or] at h
  obtain ⟨_, _, ⟨rfl, rfl⟩, h⟩ := h
  exact find_mapped_page_loop_error linked enough h

section Mapping

/-- A prot that permits something is not turned into the flags of an unmapping. -/
theorem convert_given {prot : Nat} (bits : prot &&& protRead ≠ 0 ∨ prot &&& protWrite ≠ 0) :
    convertMmapProtToVmProt prot ≠ mmapNone := by
  have given : prot ≠ protNone := by
    rintro rfl
    revert bits
    decide
  unfold convertMmapProtToVmProt
  by_cases read : prot &&& protRead = 0 <;> by_cases write : prot &&& protWrite = 0 <;>
    simp_all [mmapRead, mmapWrite, mmapNone]

theorem map_none_error {t va pa : Nat} (page : UserPage va) (aligned : pa = roundDown pa)
    (mapped : (s.tasks t).entry va ≠ none) (h : (map t va pa mmapNone).run s = .error e) :
    False := by
  simp only [map, bind_error, stop_unless_error, stop_unless_ok, get_ok, get_error, set_error,
    if_true, and_false, exists_false, or_false, false_or] at h
  rcases h with ⟨out, _⟩ | ⟨_, _, ⟨_, rfl⟩, ⟨unaligned, _⟩ | ⟨_, _, ⟨_, rfl⟩, _, _,
    ⟨rfl, rfl⟩, absent, _⟩⟩
  · exact out page.1
  · exact unaligned ⟨page.2, aligned⟩
  · exact absent (Option.isSome_iff_ne_none.mpr mapped)

theorem map_present_error {t va pa prot : Nat} (page : UserPage va) (aligned : pa = roundDown pa)
    (given : prot ≠ mmapNone) (absent : (s.tasks t).entry va = none)
    (h : (map t va pa prot).run s = .error e) : False := by
  simp only [map, bind_error, stop_unless_error, stop_unless_ok, get_ok, get_error, set_error,
    if_neg given, and_false, exists_false, or_false, false_or] at h
  rcases h with ⟨out, _⟩ | ⟨_, _, ⟨_, rfl⟩, ⟨unaligned, _⟩ | ⟨_, _, ⟨_, rfl⟩, _, _,
    ⟨rfl, rfl⟩, mapped, _⟩⟩
  · exact out page.1
  · exact unaligned ⟨page.2, aligned⟩
  · exact mapped (Option.isNone_iff_eq_none.mpr absent)

theorem delete_map_page_loop_error {t va fuel prev cur : Nat} {after : List Nat}
    (linked : Linked (nextOf s) 0 cur after) (listed : va ∈ after.map (vaOf s))
    (enough : after.length ≤ fuel)
    (h : (deleteMapPageLoop t va fuel prev cur).run s = .error e) : False := by
  induction fuel generalizing after prev cur with
  | zero =>
    rw [List.eq_nil_of_length_eq_zero (Nat.le_zero.mp enough)] at listed
    cases listed
  | succ fuel ih =>
    cases after with
    | nil => cases listed
    | cons x rest =>
      obtain ⟨rfl, real, later⟩ := linked
      rw [deleteMapPageLoop, if_neg real] at h
      simp only [bind_error, get_ok, get_error, false_or] at h
      obtain ⟨_, _, ⟨rfl, rfl⟩, h⟩ := h
      split at h
      · simp only [unlinkMapPage, freeNode, bind_error, modify_error, get_error, set_error,
          and_false, exists_false, or_false] at h
      · rename_i elsewhere
        rw [List.map_cons, List.mem_cons] at listed
        rw [List.length_cons] at enough
        have behind := listed.resolve_left fun here => elsewhere here.symm
        exact ih later behind (Nat.le_of_succ_le_succ enough) h

theorem pgunmap_error {t va : Nat} {list : List Nat} (holds : Holds s t list)
    (listed : va ∈ list.map (vaOf s)) (enough : list.length ≤ s.rounds)
    (h : (pgunmap t va).run s = .error e) : False := by
  simp only [pgunmap, deleteMapPage, bind_error, bind_ok, get_ok, get_error, false_or] at h
  rcases h with ⟨_, _, ⟨rfl, rfl⟩, walk⟩ | ⟨_, mid, ⟨_, _, ⟨rfl, rfl⟩, walk⟩, h⟩
  · exact delete_map_page_loop_error holds.linked listed enough walk
  · obtain ⟨p, mem, rfl⟩ := List.mem_map.mp listed
    obtain ⟨left, q, right, _, _, m, unlink, rfl⟩ := delete_map_page_loop_ok [] holds.linked walk
    refine map_none_error (holds.page p mem) rfl ?_ h
    obtain ⟨w, present⟩ := holds.present p mem
    have table : (m.tasks t).table = (s.tasks t).table := by
      rw [unlink_map_page_ok unlink]
      simp
    have kept : (m.tasks t).entry (vaOf s p) = some ⟨paOf s p, w⟩ := by
      rw [Task.entry, table]
      exact present
    change (m.tasks t).entry (vaOf s p) ≠ none
    rw [kept]
    exact Option.some_ne_none _

theorem pgmap_error {t va pa prot : Nat} {cowCnt : Bool} (page : UserPage va)
    (aligned : pa = roundDown pa) (given : convertMmapProtToVmProt prot ≠ mmapNone)
    (free : cowCnt = true → s.locks .cow = false) (absent : (s.tasks t).entry va = none)
    (h : (pgmap t va pa prot cowCnt).run s = .error e) : allocNode.run s = .error e := by
  simp only [pgmap, newMappedPage, insertMapPage, bind_error, bind_ok, modify_ok, modify_error,
    pure_ok, pure_error, and_false, exists_false, or_false, false_or] at h
  rcases h with alloc | ⟨node, _, ⟨_, m, alloc, _, _, rfl, rfl, rfl⟩, h⟩
  · exact alloc
  · obtain ⟨rest, chosen, real, fresh, rfl⟩ := alloc_node_ok alloc
    rcases h with count | ⟨_, counted, count, _, _, rfl, h⟩
    · obtain ⟨counts, failed⟩ := run_if_error.mp count
      exact (inc_cow_cnt_error (by exact free counts) failed).elim
    · refine (map_present_error page aligned given ?_ h).elim
      rcases run_if_ok.mp count with ⟨_, count⟩ | ⟨_, rfl⟩
      · rw [inc_cow_cnt_ok count]
        simpa [Kernel.setCow, Kernel.setNode, Kernel.setTask, Task.entry] using absent
      · simpa [Kernel.setNode, Kernel.setTask, Task.entry] using absent

end Mapping

end Uproc
