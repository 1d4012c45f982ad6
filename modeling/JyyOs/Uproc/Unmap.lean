import JyyOs.Uproc.Mirror

/-!
What kmmap with MAP_UNMAP does to the areas of a task: nothing, on any path.
-/
namespace Uproc

open Hoare LinkedList PartialRun

section Areas

variable {s s' : Kernel} {u : Unit} {t : Nat}

def SameAreas (s s' : Kernel) : Prop := ∀ t, (s'.tasks t).vmAreas = (s.tasks t).vmAreas

theorem SameAreas.trans {a b c : Kernel} (h : SameAreas a b) (h' : SameAreas b c) :
    SameAreas a c := fun t => (h' t).trans (h t)

theorem same_areas_set_task (task : Task) (areas : task.vmAreas = (s.tasks t).vmAreas) :
    SameAreas s (s.setTask t task) := by
  intro t'
  by_cases here : t' = t
  · subst here
    simpa using areas
  · simp [Function.update_of_ne here]

theorem find_mapped_page_loop_same {va fuel cur p : Nat}
    (h : (findMappedPageLoop va fuel cur).run s = .ok (p, s')) : s = s' := by
  induction fuel generalizing cur with
  | zero => exact (throw_ok.mp h).elim
  | succ fuel ih =>
    rw [findMappedPageLoop] at h
    split at h
    · exact (pure_ok.mp h).2
    · simp only [bind_ok, get_ok] at h
      obtain ⟨_, _, ⟨rfl, rfl⟩, h⟩ := h
      split at h
      · exact (pure_ok.mp h).2
      · exact ih h

theorem delete_map_page_loop_areas {va fuel prev cur : Nat}
    (h : (deleteMapPageLoop t va fuel prev cur).run s = .ok (u, s')) : SameAreas s s' := by
  induction fuel generalizing prev cur with
  | zero => exact (throw_ok.mp h).elim
  | succ fuel ih =>
    rw [deleteMapPageLoop] at h
    split at h
    · exact (throw_ok.mp h).elim
    · simp only [bind_ok, get_ok] at h
      obtain ⟨_, _, ⟨rfl, rfl⟩, h⟩ := h
      split at h
      · simp only [bind_ok] at h
        obtain ⟨_, mid, unlink, free⟩ := h
        rw [free_node_ok free, unlink_map_page_ok unlink]
        exact same_areas_set_task { s.tasks t with mappedPageHead := _ } rfl
      · exact ih h

theorem pgunmap_areas {va : Nat} (h : (pgunmap t va).run s = .ok (u, s')) : SameAreas s s' := by
  simp only [pgunmap, deleteMapPage, bind_ok, get_ok] at h
  obtain ⟨_, m, ⟨_, _, ⟨rfl, rfl⟩, walk⟩, unmap⟩ := h
  obtain ⟨_, _, _, rfl⟩ := map_none_ok unmap
  exact (delete_map_page_loop_areas walk).trans (same_areas_set_task _ rfl)

theorem delete_mapping_loop_areas {hi fuel cur : Nat}
    (h : (deleteMappingLoop t hi fuel cur).run s = .ok (u, s')) : SameAreas s s' := by
  induction fuel generalizing s cur with
  | zero => exact (throw_ok.mp h).elim
  | succ fuel ih =>
    rw [deleteMappingLoop] at h
    split at h
    · simp only [findMappedPage, bind_ok, get_ok] at h
      obtain ⟨_, _, ⟨_, _, ⟨rfl, rfl⟩, find⟩, _, m, unmap, later⟩ := h
      obtain rfl := find_mapped_page_loop_same find
      rcases run_if_ok.mp unmap with ⟨_, unmap⟩ | ⟨_, rfl⟩
      · exact (pgunmap_areas unmap).trans (ih later)
      · exact ih later
    · obtain ⟨_, rfl⟩ := pure_ok.mp h
      exact fun _ => rfl

theorem kmunmap_areas {r addr : Nat} {length prot : Int}
    (h : (kmmap t addr length prot mapUnmap).run s = .ok (r, s')) : SameAreas s s' := by
  simp only [kmmap, if_true, kmunmap, bind_ok, stop_unless_ok, spin_lock_ok, get_task_ok,
    spin_unlock_ok] at h
  obtain ⟨_, _, ⟨_, rfl⟩, _, _, ⟨_, rfl⟩, _, _, ⟨_, rfl⟩, _, _, ⟨_, rfl⟩, _, _, ⟨_, rfl⟩, _, _,
    ⟨_, rfl⟩, h⟩ := h
  split at h
  · simp only [deleteMapping, bind_ok, spin_lock_ok, spin_unlock_ok, get_ok, pure_ok] at h
    obtain ⟨_, _, ⟨_, rfl⟩, _, _, ⟨_, _, ⟨rfl, rfl⟩, walk⟩, _, _, ⟨_, rfl⟩, _, rfl⟩ := h
    exact fun t' => delete_mapping_loop_areas walk t'
  · obtain ⟨_, rfl⟩ := pure_ok.mp h
    exact fun _ => rfl

end Areas

section Removed

def rangeEnd (addr : Nat) (length : Int) : Nat :=
  (addr + length.toNat + (pgsize - 1)) / pgsize * pgsize

def InRange (addr : Nat) (length : Int) (va : Nat) : Prop :=
  roundDown addr ≤ va ∧ va < rangeEnd addr length

def CoveredAs (s : Kernel) (t va prot flags : Nat) : Prop :=
  ∃ a ∈ (s.tasks t).vmAreas, InVma a va ∧ a.vmProt = prot ∧ a.vmFlags = flags

def MappedIn (s : Kernel) (t addr : Nat) (length : Int) (pa : Nat) : Prop :=
  ∃ va, UserPage va ∧ InRange addr length va ∧ ∃ w, (s.tasks t).entry va = some ⟨pa, w⟩

/-- What the comment above kmmap says of unmap. -/
structure RangeRemoved (s s' : Kernel) (t addr : Nat) (length : Int) : Prop where
  unlisted : ∀ list, Linked (nextOf s') 0 (headOf s' t) list → ∀ p ∈ list,
    ¬InRange addr length (vaOf s' p)
  absent : ∀ va, UserPage va → InRange addr length va → (s'.tasks t).entry va = none
  uncovered : ∀ a ∈ (s'.tasks t).vmAreas, ∀ va, InRange addr length va → ¬InVma a va
  listKept : ∀ list list', Linked (nextOf s) 0 (headOf s t) list →
    Linked (nextOf s') 0 (headOf s' t) list' → ∀ va pa, ¬InRange addr length va →
      ((∃ p ∈ list', vaOf s' p = va ∧ paOf s' p = pa) ↔
        ∃ p ∈ list, vaOf s p = va ∧ paOf s p = pa)
  entriesKept : ∀ va, UserPage va → ¬InRange addr length va →
    (s'.tasks t).entry va = (s.tasks t).entry va
  areasKept : ∀ va prot flags, ¬InRange addr length va →
    (CoveredAs s' t va prot flags ↔ CoveredAs s t va prot flags)
  givenBack : ∀ pa, MappedIn s t addr length pa →
    (∀ t' ∈ s'.live, ∀ va w, UserPage va → (s'.tasks t').entry va ≠ some ⟨pa, w⟩) → pa ∈ s'.freed

theorem addr_in_range {addr : Nat} {length : Int} (positive : 0 < length) :
    InRange addr length addr := by
  have size : pgsize = 4096 := rfl
  simp only [InRange, roundDown, rangeEnd, size]
  omega

theorem unmapped_range_covered {s s' : Kernel} {r t addr : Nat} {length prot : Int} {a : VmArea}
    (ha : a ∈ (s.tasks t).vmAreas)
    (inside : a.vmStart ≤ roundDown addr ∧ rangeEnd addr length ≤ a.vmEnd)
    (positive : 0 < length) (h : (kmmap t addr length prot mapUnmap).run s = .ok (r, s')) :
    ¬RangeRemoved s s' t addr length := by
  intro removed
  have here : InRange addr length addr := addr_in_range positive
  refine removed.uncovered a ?_ addr here ?_
  · rw [kmunmap_areas h]
    exact ha
  · exact ⟨Nat.le_trans inside.1 here.1, Nat.lt_of_lt_of_le here.2 inside.2⟩

theorem kmmap_positive {s s' : Kernel} {r t addr : Nat} {length prot flags : Int}
    (h : (kmmap t addr length prot flags).run s = .ok (r, s')) : 0 < length := by
  simp only [kmmap, bind_ok, stop_unless_ok] at h
  obtain ⟨_, _, _, _, _, ⟨positive, _⟩, _⟩ := h
  exact positive

/-- No call with MAP_UNMAP on a range inside an area removes the range. -/
theorem unmap_never_removes_range {s s' : Kernel} {r t addr : Nat} {length : Int} {a : VmArea}
    (ha : a ∈ (s.tasks t).vmAreas)
    (inside : a.vmStart ≤ roundDown addr ∧ rangeEnd addr length ≤ a.vmEnd)
    (h : (kmmap t addr length protNone mapUnmap).run s = .ok (r, s')) :
    ¬RangeRemoved s s' t addr length :=
  unmapped_range_covered ha inside (kmmap_positive h) h

def twoPageArea : VmArea := ⟨areaStart, areaStart + 2 * pgsize, protRead ||| protWrite, mapPrivate⟩

def twoPages : Kernel :=
  { uprocInit (fun _ => ⟨0, 0, 0⟩) (fun _ _ => 0) [] with
    tasks := fun _ => { noTask with vmAreas := [twoPageArea] }, live := [1], rounds := 3 }

theorem unmap_never_removes_first_page :
    ∃ s', (kmmap 1 areaStart 100 protNone mapUnmap).run twoPages = .ok (0, s') ∧
      ¬RangeRemoved twoPages s' 1 areaStart 100 :=
  ⟨_, rfl, unmap_never_removes_range (a := twoPageArea) (r := 0) (by simp [twoPages])
    (by decide) rfl⟩

/-- After a fault and the unmapping of its page the area is there and the page is not given
    back. -/
theorem faulted_page_not_given_back :
    ∃ s s' r, run step (uprocInit (fun _ => ⟨0, 0, 0⟩) (fun _ _ => 0) [])
        [⟨.create, [1], 9⟩, ⟨.pageFault 1 0x100000001234, [0x5000, 100], 9⟩] = some s ∧
      (kmmap 1 0x100000001000 100 protNone mapUnmap).run s = .ok (r, s') ∧ s'.freed = [] ∧
      ¬RangeRemoved s s' 1 0x100000001000 100 := by
  have ends : ((run step (uprocInit (fun _ => ⟨0, 0, 0⟩) (fun _ _ => 0) [])
      [⟨.create, [1], 9⟩, ⟨.pageFault 1 0x100000001234, [0x5000, 100], 9⟩]).map fun s =>
        ((s.tasks 1).vmAreas, ((kmmap 1 0x100000001000 100 protNone mapUnmap).run s).toOption.map
          fun p => p.2.freed)) =
      some ([⟨0x100000001000, 0x100000002000, 6, 2⟩], some []) := by
    decide +kernel
  obtain ⟨s, ran, ends⟩ := Option.map_eq_some_iff.mp ends
  obtain ⟨areas, calls⟩ := Prod.mk.inj ends
  obtain ⟨⟨r, s'⟩, called, freed⟩ := Option.map_eq_some_iff.mp calls
  have covered : ⟨0x100000001000, 0x100000002000, 6, 2⟩ ∈ (s.tasks 1).vmAreas := by simp [areas]
  cases call : (kmmap 1 0x100000001000 100 protNone mapUnmap).run s with
  | error e =>
    rw [call] at called
    cases called
  | ok p =>
    rw [call] at called
    cases called
    exact ⟨s, s', r, ran, call, freed, unmapped_range_covered covered (by decide) (by decide) call⟩

end Removed

end Uproc
