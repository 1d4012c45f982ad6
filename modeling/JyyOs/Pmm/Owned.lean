import JyyOs.Pmm.BbmaSpec

/-!
The blocks handed out by all trees together: they lie in the data area, are aligned and
pairwise apart, and an allocation adds exactly one block to them, a free removes one.
-/
namespace Tbma
open BuddyTree

def Owned (g : Globals) (shape : Nat → Buddy 12) (x : Nat × Nat) : Prop :=
  ∃ t, TreeIndex g t ∧ x ∈ blocks 12 (windowOf g t) (shape t)

variable {g : Globals} {shape : Nat → Buddy 12} {x y : Nat × Nat}

theorem mem_gap_value : memGap = 2 ^ (12 + 12) := by rw [memGap, Nat.one_shiftLeft]

theorem windows_apart {t u : Nat} (ht : TreeIndex g t) (hu : TreeIndex g u) (other : t ≠ u) :
    windowOf g t + memGap ≤ windowOf g u ∨ windowOf g u + memGap ≤ windowOf g t := by
  have first := ht.1
  have first' := hu.1
  unfold windowOf
  rcases Nat.lt_or_gt_of_ne other with before | after
  · have := Nat.mul_le_mul_right memGap (show t - 1 + 1 ≤ u - 1 by omega)
    rw [Nat.add_mul] at this
    omega
  · have := Nat.mul_le_mul_right memGap (show u - 1 + 1 ≤ t - 1 by omega)
    rw [Nat.add_mul] at this
    omega

theorem blocks_of_trees_apart {t u : Nat} {b c : Buddy 12} (ht : TreeIndex g t)
    (hu : TreeIndex g u) (other : t ≠ u) (hx : x ∈ blocks 12 (windowOf g t) b)
    (hy : y ∈ blocks 12 (windowOf g u) c) : Apart x y := by
  have left := block_bounds b hx
  have right := block_bounds c hy
  have gap := mem_gap_value
  rcases windows_apart ht hu other with before | after
  · exact Or.inl (by omega)
  · exact Or.inr (by omega)

theorem owned_apart (hx : Owned g shape x) (hy : Owned g shape y) (other : x ≠ y) :
    Apart x y := by
  obtain ⟨t, ht, inT⟩ := hx
  obtain ⟨u, hu, inU⟩ := hy
  by_cases same : t = u
  · subst same
    exact (blocks_apart (shape t) _).forall inT inU other
  · exact blocks_of_trees_apart ht hu same inT inU

structure InArea (g : Globals) (x : Nat × Nat) : Prop where
  size : 12 ≤ x.2 ∧ x.2 ≤ 24
  aligned : 2 ^ x.2 ∣ x.1
  lower : g.beginAllocAddr ≤ x.1
  upper : x.1 + 2 ^ x.2 ≤ g.beginAllocAddr + g.treeNum * memGap

theorem owned_in_area (laid : Laid g) (hx : Owned g shape x) : InArea g x := by
  obtain ⟨t, ht, inT⟩ := hx
  have bounds := block_bounds _ inT
  have size := block_size_bounds _ inT
  have gap := mem_gap_value
  have window : 2 ^ (12 + 12) ∣ windowOf g t := gap ▸ window_aligned laid t
  have last := Nat.mul_le_mul_right memGap (show t - 1 + 1 ≤ g.treeNum by
    have := ht.1
    have := ht.2
    omega)
  rw [Nat.add_mul] at last
  have place : windowOf g t = g.beginAllocAddr + (t - 1) * memGap := rfl
  exact ⟨size, block_aligned _ window inT, by omega, by omega⟩

theorem owned_gain (shape : Nat → Buddy 12) {t : Nat} {b c : Buddy 12} (ht : TreeIndex g t)
    (gain : (blocks 12 (windowOf g t) b).Perm (x :: blocks 12 (windowOf g t) c)) :
    (∀ y, Owned g (Function.update shape t b) y ↔
        y = x ∨ Owned g (Function.update shape t c) y) ∧
      ¬ Owned g (Function.update shape t c) x := by
  constructor
  · intro y
    constructor
    · rintro ⟨u, hu, inU⟩
      by_cases same : u = t
      · subst same
        rw [Function.update_self] at inU
        rcases List.mem_cons.mp (gain.mem_iff.mp inU) with rfl | inside
        · exact Or.inl rfl
        · exact Or.inr ⟨u, hu, by rwa [Function.update_self]⟩
      · rw [Function.update_of_ne same] at inU
        exact Or.inr ⟨u, hu, by rwa [Function.update_of_ne same]⟩
    · rintro (rfl | ⟨u, hu, inU⟩)
      · refine ⟨t, ht, ?_⟩
        rw [Function.update_self]
        exact gain.mem_iff.mpr List.mem_cons_self
      · refine ⟨u, hu, ?_⟩
        by_cases same : u = t
        · subst same
          rw [Function.update_self] at inU ⊢
          exact gain.mem_iff.mpr (List.mem_cons_of_mem _ inU)
        · rwa [Function.update_of_ne same] at inU ⊢
  · rintro ⟨u, hu, inU⟩
    by_cases same : u = t
    · subst same
      rw [Function.update_self] at inU
      have once := gain.nodup_iff.mp (blocks_nodup b _)
      exact (List.nodup_cons.mp once).1 inU
    · rw [Function.update_of_ne same] at inU
      have here := gain.mem_iff.mpr (List.mem_cons_self (a := x))
      exact apart_ne (blocks_of_trees_apart hu ht same inU here) rfl

end Tbma
