import Mathlib.Algebra.BigOperators.Group.List.Basic
import Mathlib.Algebra.Ring.Nat
import Mathlib.Data.List.Nodup

/-!
Owners that hold lists of references, and how many references an object has among all of them.
-/
namespace Sharers

variable {Owner Object : Type} [DecidableEq Object]

def sharers (owners : List Owner) (held : Owner → List Object) (a : Object) : Nat :=
  (owners.map fun i => (held i).count a).sum

variable {owners : List Owner} {held held' : Owner → List Object} {i : Owner} {a : Object}

theorem sharers_split [DecidableEq Owner] (mem : i ∈ owners) :
    sharers owners held a = (held i).count a + sharers (owners.erase i) held a := by
  have perm := (List.perm_cons_erase mem).map fun i => (held i).count a
  simpa [sharers] using perm.sum_eq

theorem sharers_congr (same : ∀ j ∈ owners, (held' j).count a = (held j).count a) :
    sharers owners held' a = sharers owners held a := by
  rw [sharers, sharers, List.map_congr_left same]

theorem sharers_changed [DecidableEq Owner] (mem : i ∈ owners) (nodup : owners.Nodup)
    (same : ∀ j ∈ owners, j ≠ i → (held' j).count a = (held j).count a) :
    sharers owners held' a + (held i).count a = sharers owners held a + (held' i).count a := by
  have others : sharers (owners.erase i) held' a = sharers (owners.erase i) held a :=
    sharers_congr fun j hj => by
      rw [nodup.mem_erase_iff] at hj
      exact same j hj.2 hj.1
  have before : sharers owners held a = _ := sharers_split mem
  have after : sharers owners held' a = _ := sharers_split mem
  omega

theorem sharers_new (none : held' i = [])
    (same : ∀ j ∈ owners, (held' j).count a = (held j).count a) :
    sharers (i :: owners) held' a = sharers owners held a := by
  have first : sharers (i :: owners) held' a = (held' i).count a + sharers owners held' a :=
    List.sum_cons ..
  rw [first, none, List.count_nil, Nat.zero_add, sharers_congr same]

theorem sharers_pos : 0 < sharers owners held a ↔ ∃ i ∈ owners, a ∈ held i := by
  induction owners with
  | nil => simp [sharers]
  | cons j rest ih =>
    have first : sharers (j :: rest) held a = (held j).count a + sharers rest held a :=
      List.sum_cons ..
    have here := List.count_pos_iff (a := a) (l := held j)
    rw [first, List.exists_mem_cons_iff, ← ih, ← here]
    omega

theorem sharers_zero : sharers owners held a = 0 ↔ ∀ i ∈ owners, a ∉ held i := by
  have pos : 0 < sharers owners held a ↔ _ := sharers_pos
  constructor
  · intro none i mem held_here
    have := pos.mpr ⟨i, mem, held_here⟩
    omega
  · intro none
    by_contra some
    obtain ⟨i, mem, held_here⟩ := pos.mp (Nat.pos_of_ne_zero some)
    exact none i mem held_here

theorem sharers_alone [DecidableEq Owner] (mem : i ∈ owners) (nodup : owners.Nodup)
    (others : ∀ j ∈ owners, j ≠ i → a ∉ held j) : sharers owners held a = (held i).count a := by
  have rest : sharers (owners.erase i) held a = 0 := sharers_zero.mpr fun j hj => by
    rw [nodup.mem_erase_iff] at hj
    exact others j hj.2 hj.1
  rw [sharers_split mem, rest, Nat.add_zero]

theorem sharers_two [DecidableEq Owner] (mem : i ∈ owners) {j : Owner} (mem' : j ∈ owners)
    (ne : j ≠ i) (here : a ∈ held i) (there : a ∈ held j) : 2 ≤ sharers owners held a := by
  have rest : 0 < sharers (owners.erase i) held a :=
    sharers_pos.mpr ⟨j, (List.mem_erase_of_ne ne).mpr mem', there⟩
  have first := List.count_pos_iff.mpr here
  rw [sharers_split mem]
  omega

theorem sharers_twice [DecidableEq Owner] {Name : Type} {names : List Name} {of : Name → Object}
    {x y : Name} (mem : i ∈ owners) (list : held i = names.map of) (hx : x ∈ names)
    (hy : y ∈ names) (ne : y ≠ x) (same : of y = of x) : 2 ≤ sharers owners held (of x) := by
  obtain ⟨left, right, split⟩ := List.append_of_mem hx
  have other : y ∈ left ++ right := by
    rw [split] at hy
    simp only [List.mem_append, List.mem_cons] at hy ⊢
    rcases hy with before | here | after
    · exact Or.inl before
    · exact absurd here ne
    · exact Or.inr after
  have twice : 0 < ((left ++ right).map of).count (of x) :=
    List.count_pos_iff.mpr (List.mem_map.mpr ⟨y, other, same⟩)
  have count : (names.map of).count (of x) = ((left ++ right).map of).count (of x) + 1 := by
    rw [split]
    simp only [List.map_append, List.map_cons, List.count_append, List.count_cons_self]
    omega
  rw [sharers_split mem, list, count]
  omega

end Sharers
