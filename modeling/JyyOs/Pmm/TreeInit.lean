import JyyOs.Pmm.TreeRefine

/-!
initialize_tree writes the size of its level into every node, which represents the free tree.
-/
namespace Tbma
open BuddyTree

theorem fill_level_outside {mem : Mem} {tree first count size x : Nat}
    (outside : ∀ j, first ≤ j → j < first + count → x ≠ tree + j) :
    fillLevel mem tree first count size x = mem x := by
  unfold fillLevel
  induction count generalizing mem first with
  | zero => rfl
  | succ count ih =>
    rw [List.range'_succ, List.foldl_cons, ih]
    · exact Function.update_of_ne (outside first (Nat.le_refl _) (by omega)) ..
    · intro j lower upper
      exact outside j (by omega) (by omega)

theorem fill_level_inside {mem : Mem} {tree first count size j : Nat}
    (lower : first ≤ j) (upper : j < first + count) :
    fillLevel mem tree first count size (tree + j) = size := by
  unfold fillLevel
  induction count generalizing mem first with
  | zero => omega
  | succ count ih =>
    rw [List.range'_succ, List.foldl_cons]
    by_cases head : j = first
    · subst head
      have rest : fillLevel (Function.update mem (tree + j) size) tree (j + 1) count size
          (tree + j) = Function.update mem (tree + j) size (tree + j) :=
        fill_level_outside fun k lower upper => by omega
      unfold fillLevel at rest
      rw [rest, Function.update_self]
    · exact ih (by omega) (by omega)

theorem initialize_level_eq (tree : Nat) (mem : Mem) {n : Nat} (small : n ≤ 12) :
    initializeLevel tree mem n = fillLevel mem tree (2 ^ n) (2 ^ n) (24 - n) := by
  interval_cases n <;> rfl

theorem initialize_levels_spec (mem : Mem) (tree : Nat) {n : Nat} (small : n ≤ 13) :
    (∀ j, 0 < j → j < 2 ^ n →
      (List.range n).foldl (initializeLevel tree) mem (tree + j) = 24 - j.log2) ∧
    ∀ x, (∀ j, 0 < j → j < 2 ^ n → x ≠ tree + j) →
      (List.range n).foldl (initializeLevel tree) mem x = mem x := by
  induction n with
  | zero => exact ⟨fun j pos top => by omega, fun x _ => rfl⟩
  | succ n ih =>
    obtain ⟨inside, outside⟩ := ih (by omega)
    rw [List.range_succ, List.foldl_append, List.foldl_cons, List.foldl_nil,
      initialize_level_eq tree _ (by omega), Nat.pow_succ]
    constructor
    · intro j pos top
      by_cases old : j < 2 ^ n
      · rw [fill_level_outside fun k above _ => by omega]
        exact inside j pos old
      · rw [fill_level_inside (by omega) (by omega)]
        have log : j.log2 = n := (Nat.log2_eq_iff (by omega)).mpr ⟨by omega, by omega⟩
        rw [log]
    · intro x far
      have positive : 0 < 2 ^ n := Nat.two_pow_pos n
      rw [fill_level_outside fun k above below => far k (by omega) (by omega)]
      exact outside x fun j pos top => far j pos (by omega)

theorem initialize_tree_spec (mem : Mem) (tree : Nat) :
    (∀ j, 0 < j → j < 8192 → initializeTree mem tree (tree + j) = 24 - j.log2) ∧
      ∀ x, (∀ j, 0 < j → j < 8192 → x ≠ tree + j) → initializeTree mem tree x = mem x :=
  initialize_levels_spec mem tree (Nat.le_refl 13)

theorem placed_level {g : Globals} {tree d i addr : Nat} (placed : Placed g tree d i addr) :
    i.log2 = 12 - d := by
  have first := placed.first
  have last := placed.last
  have pos : 0 < 2 ^ (12 - d) := Nat.two_pow_pos _
  refine (Nat.log2_eq_iff (by omega)).mpr ⟨first, ?_⟩
  rw [Nat.pow_succ]
  omega

theorem full_of_levels {g : Globals} {mem : Mem} {tree d i addr : Nat}
    (placed : Placed g tree d i addr)
    (levels : ∀ j, 0 < j → j < 8192 → mem (tree + j) = 24 - j.log2) : Full mem tree d i := by
  induction d generalizing i addr with
  | zero =>
    have bound := in_sub_bound placed (in_sub_self _ i)
    have level := placed_level placed
    have value := levels i bound.1 bound.2
    show mem (tree + i) = 12
    omega
  | succ d ih =>
    have bound := in_sub_bound placed (in_sub_self _ i)
    have level := placed_level placed
    have height := placed.height
    have value := levels i bound.1 bound.2
    obtain ⟨left, right⟩ := placed_children placed
    exact ⟨by omega, ih left, ih right⟩

end Tbma
