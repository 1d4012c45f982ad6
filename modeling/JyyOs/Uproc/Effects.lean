import JyyOs.Uproc.Process

/-!
What each call of the module does when it returns: one inversion lemma for every function that
later proofs follow.
-/
namespace Uproc

open Hoare

variable {s s' : Kernel} {u : Unit}

section Fields

@[simp] theorem set_lock_back {l : LockId} (free : s.locks l = false) :
    (s.setLock l true).setLock l false = s := by
  simp only [Kernel.setLock, Function.update_idem]
  rw [← free, Function.update_eq_self]

@[simp] theorem set_lock_locks (l : LockId) (held : Bool) :
    (s.setLock l held).locks = Function.update s.locks l held := rfl

@[simp] theorem set_cow_table (i : Nat) (cnt : Int) :
    (s.setCow i cnt).cowTable = Function.update s.cowTable i cnt := rfl

@[simp] theorem set_node_nodes (p : Nat) (page : MPage) :
    (s.setNode p page).nodes = Function.update s.nodes p page := rfl

@[simp] theorem set_task_tasks (t : Nat) (task : Task) :
    (s.setTask t task).tasks = Function.update s.tasks t task := rfl

end Fields

theorem stop_unless_ok {c : Prop} [Decidable c] {e : Stop} :
    (stopUnless c e).run s = .ok (u, s') ↔ c ∧ s = s' := by
  unfold stopUnless
  split
  · rename_i h
    simp only [pure_ok, h, true_and]
  · rename_i h
    simp only [throw_ok, h, false_and]

theorem run_if_ok {c : Prop} [Decidable c] {x : Kern Unit} :
    (runIf c x).run s = .ok (u, s') ↔ (c ∧ x.run s = .ok (u, s')) ∨ (¬c ∧ s = s') := by
  unfold runIf
  split
  · rename_i h
    simp only [h, true_and, not_true_eq_false, false_and, or_false]
  · rename_i h
    simp only [pure_ok, h, true_and, false_and, not_false_eq_true, false_or]

theorem spin_lock_ok {l : LockId} :
    (spinLock l).run s = .ok (u, s') ↔ s.locks l = false ∧ s' = s.setLock l true := by
  simp only [spinLock, bind_ok, get_ok, set_ok, stop_unless_ok]
  constructor
  · rintro ⟨_, _, ⟨rfl, rfl⟩, _, _, ⟨free, rfl⟩, rfl⟩
    exact ⟨free, rfl⟩
  · rintro ⟨free, rfl⟩
    exact ⟨s, s, ⟨rfl, rfl⟩, (), s, ⟨free, rfl⟩, rfl⟩

theorem spin_unlock_ok {l : LockId} :
    (spinUnlock l).run s = .ok (u, s') ↔ s.locks l = true ∧ s' = s.setLock l false := by
  simp only [spinUnlock, bind_ok, get_ok, set_ok, stop_unless_ok]
  constructor
  · rintro ⟨_, _, ⟨rfl, rfl⟩, _, _, ⟨held, rfl⟩, rfl⟩
    exact ⟨held, rfl⟩
  · rintro ⟨held, rfl⟩
    exact ⟨s, s, ⟨rfl, rfl⟩, (), s, ⟨held, rfl⟩, rfl⟩

theorem get_task_ok {t : Nat} {task : Task} :
    (getTask t).run s = .ok (task, s') ↔ task = s.tasks t ∧ s = s' := by
  simp only [getTask, bind_ok, get_ok, pure_ok]
  constructor
  · rintro ⟨_, _, ⟨rfl, rfl⟩, rfl, rfl⟩
    exact ⟨rfl, rfl⟩
  · rintro ⟨rfl, rfl⟩
    exact ⟨_, _, ⟨rfl, rfl⟩, rfl, rfl⟩

theorem choose_ok {c : Nat} :
    choose.run s = .ok (c, s') ↔
      ∃ rest, s.choices = c :: rest ∧ s' = { s with choices := rest } := by
  simp only [choose, bind_ok, get_ok]
  constructor
  · rintro ⟨_, _, ⟨rfl, rfl⟩, h⟩
    split at h
    · exact (throw_ok.mp h).elim
    · rename_i chosen rest same
      simp only [bind_ok, set_ok, pure_ok] at h
      obtain ⟨_, _, rfl, rfl, rfl⟩ := h
      exact ⟨rest, same, rfl⟩
  · rintro ⟨rest, same, rfl⟩
    refine ⟨s, s, ⟨rfl, rfl⟩, ?_⟩
    rw [same]
    rfl

def Kernel.pageTaken (s : Kernel) (pa : Nat) (rest : List Nat) : Kernel :=
  if pa = 0 then { s with choices := rest }
  else { s with choices := rest, frameUsed := Function.update s.frameUsed pa true }

theorem alloc_page_ok {pa : Nat} (h : allocPage.run s = .ok (pa, s')) :
    ∃ rest, s.choices = pa :: rest ∧ s' = s.pageTaken pa rest ∧
      (pa ≠ 0 → s.frameUsed pa = false ∧ pa % pgsize = 0) := by
  simp only [allocPage, bind_ok, choose_ok, get_ok] at h
  obtain ⟨c, _, ⟨rest, chosen, rfl⟩, _, _, ⟨rfl, rfl⟩, h⟩ := h
  by_cases null : c = 0
  · rw [if_pos null] at h
    obtain ⟨rfl, rfl⟩ := pure_ok.mp h
    exact ⟨rest, null ▸ chosen, by rw [Kernel.pageTaken, if_pos rfl], fun h => absurd rfl h⟩
  · rw [if_neg null] at h
    simp only [bind_ok, stop_unless_ok, set_ok, pure_ok] at h
    obtain ⟨_, _, ⟨fresh, rfl⟩, _, _, rfl, rfl, rfl⟩ := h
    exact ⟨rest, chosen, by rw [Kernel.pageTaken, if_neg null], fun _ => fresh⟩

theorem free_page_ok {pa : Nat} (h : (freePage pa).run s = .ok (u, s')) :
    s' = { s with frameUsed := Function.update s.frameUsed pa false, freed := pa :: s.freed } := by
  simp only [freePage, bind_ok, get_ok, set_ok] at h
  obtain ⟨_, _, ⟨rfl, rfl⟩, rfl⟩ := h
  rfl

theorem alloc_node_ok {p : Nat} (h : allocNode.run s = .ok (p, s')) :
    ∃ rest, s.choices = p :: rest ∧ p ≠ 0 ∧ s.nodeUsed p = false ∧
      s' = { s with choices := rest, nodeUsed := Function.update s.nodeUsed p true } := by
  simp only [allocNode, bind_ok, choose_ok, get_ok, stop_unless_ok, set_ok, pure_ok] at h
  obtain ⟨c, _, ⟨rest, chosen, rfl⟩, _, _, ⟨rfl, rfl⟩, _, _, ⟨real, rfl⟩, _, _, ⟨fresh, rfl⟩,
    _, _, rfl, rfl, rfl⟩ := h
  exact ⟨rest, chosen, real, fresh, rfl⟩

theorem free_node_ok {p : Nat} (h : (freeNode p).run s = .ok (u, s')) :
    s' = { s with nodeUsed := Function.update s.nodeUsed p false } := by
  simp only [freeNode, bind_ok, get_ok, set_ok] at h
  obtain ⟨_, _, ⟨rfl, rfl⟩, rfl⟩ := h
  rfl

theorem alloc_task_ok {t : Nat} (h : allocTask.run s = .ok (t, s')) :
    ∃ rest, s.choices = t :: rest ∧ t ≠ 0 ∧ s.taskUsed t = false ∧
      s' = { s with choices := rest, taskUsed := Function.update s.taskUsed t true } := by
  simp only [allocTask, bind_ok, choose_ok, get_ok, stop_unless_ok, set_ok, pure_ok] at h
  obtain ⟨c, _, ⟨rest, chosen, rfl⟩, _, _, ⟨rfl, rfl⟩, _, _, ⟨real, rfl⟩, _, _, ⟨fresh, rfl⟩,
    _, _, rfl, rfl, rfl⟩ := h
  exact ⟨rest, chosen, real, fresh, rfl⟩

theorem get_cow_cnt_ok {pa : Nat} {cnt : Int} :
    (getCowCnt pa).run s = .ok (cnt, s') ↔
      s.locks .cow = false ∧ cnt = s.cowTable (cowIndex pa) ∧ s = s' := by
  simp only [getCowCnt, bind_ok, spin_lock_ok, get_ok, spin_unlock_ok, pure_ok]
  constructor
  · rintro ⟨_, _, ⟨free, rfl⟩, _, _, ⟨rfl, rfl⟩, _, _, ⟨_, rfl⟩, rfl, rfl⟩
    exact ⟨free, rfl, (set_lock_back free).symm⟩
  · rintro ⟨free, rfl, rfl⟩
    exact ⟨(), _, ⟨free, rfl⟩, _, _, ⟨rfl, rfl⟩, (), _, ⟨by simp, rfl⟩, rfl,
      set_lock_back free⟩

theorem inc_cow_cnt_ok {pa : Nat} (h : (incCowCnt pa).run s = .ok (u, s')) :
    s' = s.setCow (cowIndex pa) (s.cowTable (cowIndex pa) + 1) := by
  simp only [incCowCnt, bind_ok, spin_lock_ok, modify_ok, spin_unlock_ok] at h
  obtain ⟨_, _, ⟨free, rfl⟩, _, _, rfl, _, rfl⟩ := h
  exact set_lock_back (s := s.setCow (cowIndex pa) (s.cowTable (cowIndex pa) + 1)) free

theorem dec_cow_cnt_ok {pa : Nat} (h : (decCowCnt pa).run s = .ok (u, s')) :
    s' = s.setCow (cowIndex pa) (s.cowTable (cowIndex pa) - 1) := by
  simp only [decCowCnt, bind_ok, spin_lock_ok, modify_ok, spin_unlock_ok] at h
  obtain ⟨_, _, ⟨free, rfl⟩, _, _, rfl, _, rfl⟩ := h
  exact set_lock_back (s := s.setCow (cowIndex pa) (s.cowTable (cowIndex pa) - 1)) free

theorem map_present_ok {t va pa prot : Nat} (given : prot ≠ mmapNone)
    (h : (map t va pa prot).run s = .ok (u, s')) :
    InArea va ∧ va = roundDown va ∧ pa = roundDown pa ∧ (s.tasks t).entry va = none ∧
      s' = s.setTask t
        ((s.tasks t).setEntry va (some ⟨pa, prot &&& mmapWrite ≠ 0⟩)) := by
  simp only [map, bind_ok, stop_unless_ok, get_ok, if_neg given, set_ok] at h
  obtain ⟨_, _, ⟨area, rfl⟩, _, _, ⟨⟨va_aligned, pa_aligned⟩, rfl⟩, _, _, ⟨rfl, rfl⟩, _, _,
    ⟨absent, rfl⟩, rfl⟩ := h
  exact ⟨area, va_aligned, pa_aligned, Option.isNone_iff_eq_none.mp absent, rfl⟩

theorem map_none_ok {t va pa : Nat} (h : (map t va pa mmapNone).run s = .ok (u, s')) :
    InArea va ∧ va = roundDown va ∧ (s.tasks t).entry va ≠ none ∧
      s' = s.setTask t ((s.tasks t).setEntry va none) := by
  simp only [map, bind_ok, stop_unless_ok, get_ok, set_ok, if_true] at h
  obtain ⟨_, _, ⟨area, rfl⟩, _, _, ⟨⟨va_aligned, _⟩, rfl⟩, _, _, ⟨rfl, rfl⟩, _, _,
    ⟨present, rfl⟩, rfl⟩ := h
  exact ⟨area, va_aligned, Option.isSome_iff_ne_none.mp present, rfl⟩

end Uproc
