import JyyOs.Uproc.Refs
import JyyOs.Uproc.Stops
import Mathlib.Data.List.Perm.Basic

/-!
fork_cow_mapping relinks the list it walks, and the node of a moved page may be handed out
again: the walk then starts over behind the head. It ends all the same and misses no page.
-/
namespace Uproc

open Hoare LinkedList

/-- The list holds the pages of `t`, every page lies in a readable area, and pages pmm->alloc
    may return have no negative count. -/
structure CowReady (s : Kernel) (t : Nat) (list : List Nat) : Prop where
  holds : Holds s t list
  sorted : (s.tasks t).vmAreas.Pairwise fun a b => a.vmEnd ≤ b.vmStart
  readable : ∀ x ∈ list, ∃ a ∈ (s.tasks t).vmAreas,
    Covers a (vaOf s x) ∧ a.vmProt &&& protRead ≠ 0
  unmapped : ∀ pa, Allocable s pa → 0 ≤ s.cowTable (cowIndex pa)
  vme_free : s.locks (.vme t) = false
  cow_free : s.locks .cow = false

/-- The page of node `x` is one fork_cow_mapping has to move. -/
def pending (s : Kernel) (t x : Nat) : Bool :=
  s.cowTable (cowIndex (paOf s x)) == 0 &&
    (findVmeNode (s.tasks t).vmAreas (vaOf s x) (u64 (vaOf s x + pgsize))).any
      fun vma => decide (PrivateWritable vma)

/-- Every page of `t` in a private writable area has a count. -/
def EveryPageCounted (s : Kernel) (t : Nat) (list : List Nat) : Prop :=
  ∀ x ∈ list, ∀ a ∈ (s.tasks t).vmAreas, Covers a (vaOf s x) → PrivateWritable a →
    s.cowTable (cowIndex (paOf s x)) ≠ 0

structure CowLoop (s : Kernel) (t cur : Nat) (left ahead : List Nat) : Prop where
  ready : CowReady s t (left ++ ahead)
  rounds : (left ++ ahead).length ≤ s.rounds
  linked : Linked (nextOf s) 0 cur ahead
  behind : ∀ x ∈ left, pending s t x = false

/-- What is ahead, and one pass over the list for each page still to move. -/
def cowMeasure (s : Kernel) (t : Nat) (left ahead : List Nat) : Nat :=
  ahead.length + (left ++ ahead).countP (pending s t) * (left ++ ahead).length

variable {s s' : Kernel} {u : Unit} {e : Stop} {t cur x : Nat} {left rest ahead list : List Nat}

theorem CowReady.found (ready : CowReady s t list) (mem : x ∈ list) :
    ∃ vma, findVmeNode (s.tasks t).vmAreas (vaOf s x) (u64 (vaOf s x + pgsize)) = some vma ∧
      vma.vmProt &&& protRead ≠ 0 := by
  obtain ⟨a, ha, covers, readable⟩ := ready.readable x mem
  refine ⟨a, ?_, readable⟩
  rw [page_end (ready.holds.page x mem)]
  exact find_vme_covering ready.sorted ha covers

theorem CowReady.counted (ready : CowReady s t list)
    (done : ∀ x ∈ list, pending s t x = false) : EveryPageCounted s t list := by
  intro x mem a ha covers writable alone
  have found := find_vme_covering ready.sorted ha covers
  rw [← page_end (ready.holds.page x mem)] at found
  have left_over := done x mem
  simp [pending, alone, found, writable] at left_over

/-- Without the write permission a readable area still maps its pages. -/
theorem convert_readable {prot : Nat} (readable : prot &&& protRead ≠ 0) :
    convertMmapProtToVmProt (prot &&& (255 - protWrite)) ≠ mmapNone := by
  have kept : prot &&& (255 - protWrite) &&& protRead = prot &&& protRead := by
    rw [Nat.and_assoc]
    rfl
  apply convert_given
  rw [kept]
  exact .inl readable

section Taken

variable {pa : Nat} {choices : List Nat}

theorem locks_taken : (s.pageTaken pa choices).locks = s.locks := by
  unfold Kernel.pageTaken
  split <;> rfl

theorem rounds_taken : (s.pageTaken pa choices).rounds = s.rounds := by
  unfold Kernel.pageTaken
  split <;> rfl

theorem allocable_taken {pa' : Nat} (free : Allocable (s.pageTaken pa choices) pa') :
    Allocable s pa' := by
  intro real
  obtain ⟨unused, aligned⟩ := free real
  exact ⟨(frame_taken unused).1, aligned⟩

theorem pending_taken : pending (s.pageTaken pa choices) t = pending s t := by
  funext x
  simp [pending, paOf, vaOf]

theorem CowReady.taken (ready : CowReady s t list) (pa : Nat) (choices : List Nat) :
    CowReady (s.pageTaken pa choices) t list := by
  constructor
  · exact ready.holds.taken pa choices
  · rw [tasks_taken]
    exact ready.sorted
  · intro x mem
    rw [tasks_taken, vaOf, nodes_taken]
    exact ready.readable x mem
  · intro pa' free
    rw [cow_taken]
    exact ready.unmapped pa' (allocable_taken free)
  · rw [locks_taken]
    exact ready.vme_free
  · rw [locks_taken]
    exact ready.cow_free

end Taken

section Renewed

variable {pa p : Nat} {vma : VmArea} {choices : List Nat}

theorem cow_table_renewed : (s.renewed t left x pa p vma choices).cowTable =
    Function.update s.cowTable (cowIndex pa) (s.cowTable (cowIndex pa) + 1) := by
  simp [Kernel.renewed, Kernel.mapped, Kernel.unmapped]

theorem locks_renewed : (s.renewed t left x pa p vma choices).locks = s.locks := by
  have taken : (s.pageTaken pa (p :: choices)).locks = s.locks := locks_taken
  exact taken

theorem rounds_renewed : (s.renewed t left x pa p vma choices).rounds = s.rounds := by
  have taken : (s.pageTaken pa (p :: choices)).rounds = s.rounds := rounds_taken
  exact taken

theorem cow_renewed_le (i : Nat) :
    s.cowTable i ≤ (s.renewed t left x pa p vma choices).cowTable i := by
  rw [cow_table_renewed]
  by_cases here : i = cowIndex pa
  · subst here
    have more : s.cowTable (cowIndex pa) ≤ s.cowTable (cowIndex pa) + 1 := by omega
    exact Int.le_trans more (Int.le_of_eq (Function.update_self (cowIndex pa) _ s.cowTable).symm)
  · exact Int.le_of_eq (Function.update_of_ne here _ s.cowTable).symm

theorem vas_renewed (apart : ∀ y ∈ left ++ rest, y ≠ p) :
    ((p :: (left ++ rest)).map (vaOf (s.renewed t left x pa p vma choices))).Perm
      ((left ++ x :: rest).map (vaOf s)) := by
  have kept : (left ++ rest).map (vaOf (s.renewed t left x pa p vma choices)) =
      (left ++ rest).map (vaOf s) :=
    List.map_congr_left fun y mem => (node_renewed (apart y mem)).2
  rw [List.map_cons, node_renewed_here.2, kept, List.map_append, List.map_append, List.map_cons]
  exact List.perm_middle.symm

theorem CowReady.renewed (ready : CowReady s t (left ++ x :: rest)) (real : p ≠ 0)
    (fresh : p = x ∨ s.nodeUsed p = false) :
    CowReady (s.renewed t left x pa p vma choices) t (p :: (left ++ rest)) := by
  have apart := node_apart ready.holds fresh
  constructor
  · exact ready.holds.renewed pa vma choices real fresh
  · rw [areas_renewed]
    exact ready.sorted
  · rw [areas_renewed]
    refine List.forall_mem_cons.mpr ⟨?_, fun y mem => ?_⟩
    · rw [node_renewed_here.2]
      exact ready.readable x (by simp)
    · rw [(node_renewed (apart y mem)).2]
      exact ready.readable y (mem_of_mem_left rfl mem)
  · intro pa' free
    have taken : Allocable (s.pageTaken pa (p :: choices)) pa' := free
    have before := allocable_taken taken
    exact Int.le_trans (ready.unmapped pa' before) (cow_renewed_le _)
  · rw [locks_renewed]
    exact ready.vme_free
  · rw [locks_renewed]
    exact ready.cow_free

theorem pending_renewed_here (counts : 0 ≤ s.cowTable (cowIndex pa)) :
    pending (s.renewed t left x pa p vma choices) t p = false := by
  have counted : s.cowTable (cowIndex pa) + 1 ≠ 0 := by omega
  simp [pending, node_renewed_here.1, cow_table_renewed, counted]

theorem pending_renewed_other {y : Nat} (other : y ≠ p)
    (counts : 0 ≤ s.cowTable (cowIndex pa))
    (left_over : pending (s.renewed t left x pa p vma choices) t y = true) :
    pending s t y = true := by
  simp only [pending, (node_renewed other).1, (node_renewed other).2, areas_renewed,
    Bool.and_eq_true, beq_iff_eq] at left_over ⊢
  refine ⟨?_, left_over.2⟩
  have alone := left_over.1
  rw [cow_table_renewed] at alone
  by_cases same : cowIndex (paOf s y) = cowIndex pa
  · rw [same, Function.update_self] at alone
    omega
  · rwa [Function.update_of_ne same] at alone

end Renewed

section Round

theorem CowLoop.pass (loop : CowLoop s t x left (x :: rest)) (done : pending s t x = false) :
    CowLoop s t (nextOf s x) (left ++ [x]) rest := by
  have whole : (left ++ [x]) ++ rest = left ++ x :: rest := by simp
  constructor
  · rw [whole]
    exact loop.ready
  · rw [whole]
    exact loop.rounds
  · exact loop.linked.2.2
  · intro y mem
    rcases List.mem_append.mp mem with mem | mem
    · exact loop.behind y mem
    · rw [List.mem_singleton.mp mem]
      exact done

theorem measure_pass :
    cowMeasure s t (left ++ [x]) rest < cowMeasure s t left (x :: rest) := by
  have whole : (left ++ [x]) ++ rest = left ++ x :: rest := by simp
  simp only [cowMeasure, whole, List.length_cons]
  omega

theorem CowLoop.taken (loop : CowLoop s t cur left ahead) (pa : Nat) (choices : List Nat) :
    CowLoop (s.pageTaken pa choices) t cur left ahead := by
  constructor
  · exact loop.ready.taken pa choices
  · rw [rounds_taken]
    exact loop.rounds
  · exact linked_congr loop.linked fun y _ => by simp [nextOf]
  · rw [pending_taken]
    exact loop.behind

theorem measure_taken (pa : Nat) (choices : List Nat) :
    cowMeasure (s.pageTaken pa choices) t left ahead = cowMeasure s t left ahead := by
  rw [cowMeasure, pending_taken, cowMeasure]

section Moved

variable {pa p : Nat} {vma : VmArea} {choices : List Nat}

/-- A moved page is behind the walk, also when its node is used again. -/
theorem CowLoop.move (loop : CowLoop s t x left (x :: rest)) (vma : VmArea) (choices : List Nat)
    (free : Allocable s pa) (real : p ≠ 0) (fresh : p = x ∨ s.nodeUsed p = false) :
    ∃ left' ahead', left' ++ ahead' = p :: (left ++ rest) ∧
      CowLoop (s.renewed t left x pa p vma choices) t
        (nextOf (s.renewed t left x pa p vma choices) x) left' ahead' := by
  have ready := loop.ready
  have counts := ready.unmapped pa free
  have next := renewed_next ready.holds pa vma choices real fresh
  have rounds : (p :: (left ++ rest)).length ≤ s.rounds := by
    have before := loop.rounds
    simp only [List.length_append, List.length_cons] at before ⊢
    omega
  have here : pending (s.renewed t left x pa p vma choices) t p = false :=
    pending_renewed_here counts
  have kept : (s.renewed t left x pa p vma choices).rounds = s.rounds := rounds_renewed
  rw [← kept] at rounds
  by_cases reused : p = x
  · rw [if_pos reused] at next
    refine ⟨[p], left ++ rest, rfl, ready.renewed real fresh, rounds, next, fun y mem => ?_⟩
    rw [List.mem_singleton.mp mem]
    exact here
  · rw [if_neg reused] at next
    refine ⟨p :: left, rest, rfl, ready.renewed real fresh, rounds, next, fun y mem => ?_⟩
    rcases List.mem_cons.mp mem with rfl | mem
    · exact here
    · have other : y ≠ p := node_apart ready.holds fresh y (List.mem_append_left _ mem)
      rw [← Bool.not_eq_true]
      intro left_over
      have before := pending_renewed_other other counts left_over
      rw [loop.behind y mem] at before
      cases before

/-- The pages still to move are fewer, which pays for starting over. -/
theorem measure_move {left' ahead' : List Nat} (ready : CowReady s t (left ++ x :: rest))
    (free : Allocable s pa) (fresh : p = x ∨ s.nodeUsed p = false)
    (moves : pending s t x = true) (whole : left' ++ ahead' = p :: (left ++ rest)) :
    cowMeasure (s.renewed t left x pa p vma choices) t left' ahead' <
      cowMeasure s t left (x :: rest) := by
  have counts := ready.unmapped pa free
  have fewer : (left ++ rest).countP (pending (s.renewed t left x pa p vma choices) t) ≤
      (left ++ rest).countP (pending s t) := by
    refine List.countP_mono_left fun y mem left_over => ?_
    exact pending_renewed_other (node_apart ready.holds fresh y mem) counts left_over
  have after : (p :: (left ++ rest)).countP (pending (s.renewed t left x pa p vma choices) t) =
      (left ++ rest).countP (pending (s.renewed t left x pa p vma choices) t) := by
    rw [List.countP_cons_of_neg]
    rw [pending_renewed_here counts]
    exact Bool.false_ne_true
  have before : (left ++ x :: rest).countP (pending s t) =
      (left ++ rest).countP (pending s t) + 1 := by
    rw [List.countP_append, List.countP_cons_of_pos moves, List.countP_append, Nat.add_assoc]
  have short : ahead'.length ≤ (left ++ rest).length + 1 := by
    have same := congrArg List.length whole
    simp only [List.length_append, List.length_cons] at same ⊢
    omega
  have size : (left ++ x :: rest).length = (left ++ rest).length + 1 := by
    simp only [List.length_append, List.length_cons]
    omega
  simp only [cowMeasure, whole, after, before, size, List.length_cons]
  have bound := Nat.mul_le_mul_right ((left ++ rest).length + 1) fewer
  rw [Nat.succ_mul ((left ++ rest).countP (pending s t))]
  omega

end Moved

theorem pending_iff {vma : VmArea}
    (found : findVmeNode (s.tasks t).vmAreas (vaOf s x) (u64 (vaOf s x + pgsize)) = some vma) :
    pending s t x = true ↔ s.cowTable (cowIndex (paOf s x)) = 0 ∧ PrivateWritable vma := by
  simp [pending, found]

theorem cow_round (loop : CowLoop s t x left (x :: rest))
    (h : (forkCowPage t x).run s = .ok (u, s')) :
    ∃ left' ahead', CowLoop s' t (nextOf s' x) left' ahead' ∧
      ((left' ++ ahead').map (vaOf s')).Perm ((left ++ x :: rest).map (vaOf s)) ∧
      cowMeasure s' t left' ahead' < cowMeasure s t left (x :: rest) ∧
      s'.locks = s.locks ∧ ∀ c ∈ s'.choices, c ∈ s.choices := by
  have whole : (left ++ [x]) ++ rest = left ++ x :: rest := by simp
  rcases fork_cow_page_ok loop.ready.holds List.mem_append_cons_self h with
    ⟨counted, rfl⟩ | ⟨alone, pa, choices, vma, chosen, free, found,
      ⟨closed, rfl⟩ | ⟨writable, left', right, p, choices', split, rfl, real, fresh, rfl⟩⟩
  · have done : pending s t x = false := by simp [pending, counted]
    refine ⟨left ++ [x], rest, loop.pass done, ?_, measure_pass, rfl, fun _ mem => mem⟩
    rw [whole]
  · have done : pending (s.pageTaken pa choices) t x = false := by
      rw [pending_taken, ← Bool.not_eq_true, pending_iff found]
      exact fun both => closed both.2
    refine ⟨left ++ [x], rest, (loop.taken pa choices).pass done, ?_, ?_, locks_taken, ?_⟩
    · have vas : vaOf (s.pageTaken pa choices) = vaOf s := by
        funext y
        simp [vaOf]
      rw [whole, vas]
    · rw [measure_taken]
      exact measure_pass
    · rw [choices_taken, chosen]
      exact fun c mem => List.mem_cons_of_mem _ mem
  · obtain ⟨rfl, rfl⟩ := loop.ready.holds.split_unique rfl split
    obtain ⟨before, ahead', same, later⟩ := loop.move vma choices' free real fresh
    have moves := (pending_iff found).mpr ⟨alone, writable⟩
    refine ⟨before, ahead', later, ?_, measure_move loop.ready free fresh moves same,
      locks_renewed, ?_⟩
    · rw [same]
      exact vas_renewed (node_apart loop.ready.holds fresh)
    · rw [chosen]
      exact fun c mem => List.mem_cons_of_mem _ (List.mem_cons_of_mem _ mem)

theorem cow_round_error (loop : CowLoop s t x left (x :: rest))
    (h : (forkCowPage t x).run s = .error e) : e = .infeasible ∨ e = .null ∧ 0 ∈ s.choices := by
  have ready := loop.ready
  have cow_free := ready.cow_free
  simp only [forkCowPage, bind_error, get_ok, get_error, false_or] at h
  obtain ⟨_, _, ⟨rfl, rfl⟩, count | ⟨cnt, _, count, h⟩⟩ := h
  · exact (get_cow_cnt_error cow_free count).elim
  obtain ⟨_, _, rfl⟩ := get_cow_cnt_ok.mp count
  split at h
  · simp only [bind_error, spin_lock_ok, spin_lock_error, get_task_ok, get_task_error,
      spin_unlock_ok, spin_unlock_error, false_or] at h
    rcases h with alloc | ⟨pa, _, alloc, ⟨held, _⟩ | ⟨_, _, ⟨free, rfl⟩, _, _, ⟨rfl, rfl⟩,
      ⟨open_again, _⟩ | ⟨_, _, ⟨_, rfl⟩, h⟩⟩⟩
    · exact .inl (alloc_page_error alloc)
    · obtain ⟨choices, _, rfl, _⟩ := alloc_page_ok alloc
      rw [locks_taken, ready.vme_free] at held
      cases held
    · rw [set_lock_locks, Function.update_self] at open_again
      cases open_again
    · rw [set_lock_back free] at h
      obtain ⟨choices, chosen, rfl, page_fresh⟩ := alloc_page_ok alloc
      have tasks : ((s.pageTaken pa choices).setLock (.vme t) true).tasks = s.tasks :=
        tasks_taken ..
      obtain ⟨vma, found, readable⟩ := ready.found List.mem_append_cons_self
      have same : findVmeNode (((s.pageTaken pa choices).setLock (.vme t) true).tasks t).vmAreas
          (s.nodes x).va (u64 ((s.nodes x).va + pgsize)) = some vma := by
        rw [tasks]
        exact found
      rw [same] at h
      simp only at h
      split at h
      · have taken := (loop.taken pa choices).ready.holds
        have va : vaOf (s.pageTaken pa choices) x = vaOf s x := by simp [vaOf]
        have listed : (s.nodes x).va ∈ (left ++ x :: rest).map (vaOf (s.pageTaken pa choices)) :=
          List.mem_map.mpr ⟨x, List.mem_append_cons_self, va⟩
        rcases bind_error.mp h with unmap | ⟨_, _, unmap, map⟩
        · exact (pgunmap_error taken listed (loop.taken pa choices).rounds unmap).elim
        · obtain ⟨left', q, right, split, _, rfl⟩ := pgunmap_ok unmap taken.linked
          have aligned : pa = roundDown pa := by
            by_cases null : pa = 0
            · rw [null]
              rfl
            · have := (page_fresh null).2
              simp only [roundDown, pgsize] at this ⊢
              omega
          have cow : ((s.pageTaken pa choices).unmapped t (s.nodes x).va (left'.getLastD 0)
              q).locks .cow = false := by
            change (s.pageTaken pa choices).locks .cow = false
            rw [locks_taken]
            exact cow_free
          have node := pgmap_error (ready.holds.page x List.mem_append_cons_self) aligned
            (convert_readable readable) (fun _ => cow) entry_unmapped_here map
          refine (alloc_node_error node).imp id ?_
          rintro ⟨null, later, served⟩
          refine ⟨null, ?_⟩
          have left_over : (s.pageTaken pa choices).choices = 0 :: later := served
          rw [choices_taken] at left_over
          rw [chosen, left_over]
          simp
      · exact (pure_error.mp h).elim
  · exact (pure_error.mp h).elim

end Round

section Run

theorem fork_cow_loop {fuel : Nat} (loop : CowLoop s t cur left ahead)
    (enough : cowMeasure s t left ahead < fuel) :
    (∀ u s', (forkCowMappingLoop t fuel cur).run s = .ok (u, s') →
      ∃ list', CowReady s' t list' ∧
        (list'.map (vaOf s')).Perm ((left ++ ahead).map (vaOf s)) ∧
        (∀ x ∈ list', pending s' t x = false) ∧ s'.locks = s.locks) ∧
      ∀ e, (forkCowMappingLoop t fuel cur).run s = .error e →
        e = .infeasible ∨ e = .null ∧ 0 ∈ s.choices := by
  induction fuel generalizing s cur left ahead with
  | zero => exact absurd enough (Nat.not_lt_zero _)
  | succ fuel ih =>
    rw [forkCowMappingLoop]
    by_cases ended : cur = 0
    · rw [if_pos ended]
      have none : ahead = [] := by
        cases ahead with
        | nil => rfl
        | cons x rest => exact absurd (loop.linked.1.symm.trans ended) loop.linked.2.1
      subst none
      refine ⟨fun u s' h => ?_, fun e h => (pure_error.mp h).elim⟩
      obtain ⟨_, rfl⟩ := pure_ok.mp h
      refine ⟨left ++ [], loop.ready, .refl _, ?_, rfl⟩
      rw [List.append_nil]
      exact loop.behind
    · rw [if_neg ended]
      obtain ⟨rest, rfl, _⟩ := linked_head loop.linked ended
      constructor
      · intro u s' h
        simp only [bind_ok, get_ok] at h
        obtain ⟨_, mid, round, _, _, ⟨rfl, rfl⟩, h⟩ := h
        obtain ⟨left', ahead', later, vas, nearer, locks, _⟩ := cow_round loop round
        obtain ⟨list', ready, vas', done, locks'⟩ :=
          (ih later (Nat.lt_of_lt_of_le nearer (Nat.le_of_lt_succ enough))).1 u s' h
        exact ⟨list', ready, vas'.trans vas, done, locks'.trans locks⟩
      · intro e h
        simp only [bind_error, get_ok, get_error, false_or] at h
        rcases h with failed | ⟨_, mid, round, _, _, ⟨rfl, rfl⟩, h⟩
        · exact cow_round_error loop failed
        · obtain ⟨left', ahead', later, _, nearer, _, choices⟩ := cow_round loop round
          have stops :=
            (ih later (Nat.lt_of_lt_of_le nearer (Nat.le_of_lt_succ enough))).2 e h
          rcases stops with infeasible | ⟨null, served⟩
          · exact .inl infeasible
          · exact .inr ⟨null, choices 0 served⟩

theorem CowReady.locked (ready : CowReady s t list) (held : Bool) :
    CowReady (s.setLock (.mp t) held) t list := by
  have same := same_set_lock s (.mp t) held
  constructor
  · exact ready.holds.congr (fun _ _ => rfl) (fun _ _ => rfl) rfl rfl
  · exact ready.sorted
  · exact ready.readable
  · exact ready.unmapped
  · rw [set_lock_locks, Function.update_of_ne (by simp)]
    exact ready.vme_free
  · rw [set_lock_locks, Function.update_of_ne (by simp)]
    exact ready.cow_free

/-- fork_cow_mapping ends in the order of the square of the list, whatever pmm->alloc returns,
    and then every page in a private writable area has a count. It stops only without M_PAGE. -/
theorem fork_cow_mapping_covers (ready : CowReady s t list) (free : s.locks (.mp t) = false)
    (enough : list.length * (list.length + 1) < s.rounds) :
    (∀ u s', (forkCowMapping t).run s = .ok (u, s') →
      ∃ list', Holds s' t list' ∧ (list'.map (vaOf s')).Perm (list.map (vaOf s)) ∧
        EveryPageCounted s' t list') ∧
      ∀ e, (forkCowMapping t).run s = .error e →
        e = .infeasible ∨ e = .null ∧ 0 ∈ s.choices := by
  have few : cowMeasure (s.setLock (.mp t) true) t [] list < s.rounds := by
    refine Nat.lt_of_le_of_lt ?_ enough
    rw [cowMeasure, List.nil_append, Nat.mul_succ, Nat.add_comm]
    exact Nat.add_le_add_right (Nat.mul_le_mul_right _ List.countP_le_length) _
  have loop : CowLoop (s.setLock (.mp t) true) t (headOf s t) [] list := by
    have locked := ready.locked true
    refine ⟨locked, ?_, locked.holds.linked, by simp⟩
    have small : list.length ≤ list.length * (list.length + 1) :=
      Nat.le_mul_of_pos_right _ (Nat.succ_pos _)
    exact Nat.le_of_lt (Nat.lt_of_le_of_lt small enough)
  obtain ⟨ends, stops⟩ := fork_cow_loop loop few
  constructor
  · intro u s' h
    simp only [forkCowMapping, bind_ok, spin_lock_ok, get_ok, spin_unlock_ok] at h
    obtain ⟨_, _, ⟨_, rfl⟩, _, _, ⟨rfl, rfl⟩, _, mid, walk, _, rfl⟩ := h
    obtain ⟨list', ready', vas, done, _⟩ := ends _ _ walk
    exact ⟨list', (ready'.locked false).holds, vas, ready'.counted done⟩
  · intro e h
    simp only [forkCowMapping, bind_error, spin_lock_error, spin_lock_ok, get_ok, get_error,
      spin_unlock_error, false_or] at h
    rcases h with ⟨held, _⟩ | ⟨_, _, ⟨_, rfl⟩, _, _, ⟨rfl, rfl⟩, walk | ⟨_, mid, walk, open_again, _⟩⟩
    · rw [free] at held
      cases held
    · exact stops e walk
    · obtain ⟨_, _, _, _, locks⟩ := ends _ _ walk
      rw [locks, set_lock_locks, Function.update_self] at open_again
      cases open_again

def writableArea : VmArea := ⟨areaStart, areaStart + 0x2000, protRead ||| protWrite, mapPrivate⟩

def onePage : Kernel :=
  let s := uprocInit (fun _ => ⟨0, 0, 0⟩) (fun _ _ => 0) []
  ({ s with rounds := 3, frameUsed := fun pa => pa == 0x5000 }.withAreas 1 [writableArea]).mapped 1
    areaStart 0x5000 (protRead ||| protWrite) 3 false [0x6000, 3]

theorem one_page_ready : CowReady onePage 1 [3] := by
  have page : UserPage areaStart := ⟨by decide, rfl⟩
  have areas : (onePage.tasks 1).vmAreas = [writableArea] := rfl
  constructor
  · refine Holds.mapped ?_ page List.not_mem_nil (by decide) rfl
    refine ⟨rfl, List.nodup_nil, by simp, by simp, by simp, fun va _ mapped => ?_⟩
    simp [Kernel.withAreas, uprocInit, noTask, Task.entry] at mapped
  · rw [areas]
    exact List.pairwise_singleton ..
  · intro x mem
    rw [List.mem_singleton.mp mem, areas]
    exact ⟨writableArea, List.mem_singleton_self _, ⟨by decide, by decide⟩, by decide⟩
  · intro pa _
    exact Int.le_refl 0
  · rfl
  · rfl

theorem fork_cow_mapping_covers_one_page :
    (∀ u s', (forkCowMapping 1).run onePage = .ok (u, s') →
      ∃ list', Holds s' 1 list' ∧ (list'.map (vaOf s')).Perm ([3].map (vaOf onePage)) ∧
        EveryPageCounted s' 1 list') ∧
      ∀ e, (forkCowMapping 1).run onePage = .error e →
        e = .infeasible ∨ e = .null ∧ 0 ∈ onePage.choices :=
  fork_cow_mapping_covers one_page_ready rfl (by decide)

/-- The node of the moved page is used again and the walk still ends. -/
example : ((forkCowMapping 1).run onePage).isOk = true := by decide +kernel

end Run

end Uproc
