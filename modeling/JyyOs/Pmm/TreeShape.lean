import JyyOs.Pmm.Tree
import JyyOs.Library.BuddyTree
import Mathlib.Tactic.IntervalCases

/-!
What a node array says about allocation. A node array represents a buddy tree of
height `d` (level size `12 + d`); allocation and free act on it as `Take` and `Give`.
Summaries of split nodes are only bounded here, they need not be exact.
-/
namespace Tbma
open BuddyTree

def Full (mem : Mem) (tree : Nat) : Nat → Nat → Prop
  | 0, i => mem (tree + i) = 12
  | d + 1, i => mem (tree + i) = 12 + (d + 1) ∧ Full mem tree d (leftChild i) ∧
      Full mem tree d (rightChild i)

def ChildrenFull (mem : Mem) (tree : Nat) : Nat → Nat → Prop
  | 0, _ => True
  | d + 1, i => Full mem tree d (leftChild i) ∧ Full mem tree d (rightChild i)

/-- The summary of a split node is GET_DEPARTED or the larger summary of its children. -/
def Summary (value left right : Nat) : Prop :=
  value = 1 ∨ 12 ≤ value ∧ value = max left right

def Rep (mem : Mem) (tree : Nat) : {d : Nat} → Nat → Buddy d → Prop
  | d, i, .free => Full mem tree d i
  | d, i, .used => mem (tree + i) = 0 ∧ ChildrenFull mem tree d i
  | _, i, .split l r => Rep mem tree (leftChild i) l ∧ Rep mem tree (rightChild i) r ∧
      ¬ (l = .free ∧ r = .free) ∧
      Summary (mem (tree + i)) (mem (tree + leftChild i)) (mem (tree + rightChild i))

@[simp] theorem rep_free_iff {mem : Mem} {tree d i : Nat} :
    Rep mem tree i (.free : Buddy d) ↔ Full mem tree d i := by simp only [Rep]

@[simp] theorem rep_used_iff {mem : Mem} {tree d i : Nat} :
    Rep mem tree i (.used : Buddy d) ↔ mem (tree + i) = 0 ∧ ChildrenFull mem tree d i := by
  simp only [Rep]

def InSub : Nat → Nat → Nat → Prop
  | 0, i, j => j = i
  | d + 1, i, j => j = i ∨ InSub d (leftChild i) j ∨ InSub d (rightChild i) j

def windowStart (g : Globals) (tree : Nat) : Nat :=
  g.beginAllocAddr + (tree - g.realStartAddr) / 8192 * 2 ^ 24

structure Placed (g : Globals) (tree d i addr : Nat) : Prop where
  height : d ≤ 12
  first : 2 ^ (12 - d) ≤ i
  last : i < 2 * 2 ^ (12 - d)
  address : addr = windowStart g tree + (i - 2 ^ (12 - d)) * 2 ^ (12 + d)

theorem full_value {mem : Mem} {tree d i : Nat} (full : Full mem tree d i) :
    mem (tree + i) = 12 + d := by
  cases d with
  | zero => exact full
  | succ d => exact full.1

theorem full_children {mem : Mem} {tree d i : Nat} (full : Full mem tree d i) :
    ChildrenFull mem tree d i := by
  cases d with
  | zero => trivial
  | succ d => exact full.2

theorem full_of_children {mem : Mem} {tree d i : Nat} (value : mem (tree + i) = 12 + d)
    (children : ChildrenFull mem tree d i) : Full mem tree d i := by
  cases d with
  | zero => exact value
  | succ d => exact ⟨value, children⟩

theorem in_sub_self (d i : Nat) : InSub d i i := by
  cases d with
  | zero => rfl
  | succ d => exact Or.inl rfl

/-- A node of the subtree is `i` followed by at most `d` branch bits. -/
theorem in_sub_iff (d i j : Nat) :
    InSub d i j ↔ ∃ e, e ≤ d ∧ j / 2 ^ e = i := by
  induction d generalizing i with
  | zero => simp [InSub, eq_comm]
  | succ d ih =>
    simp only [InSub, ih, leftChild, rightChild]
    constructor
    · rintro (rfl | ⟨e, bound, eq⟩ | ⟨e, bound, eq⟩)
      · exact ⟨0, by omega, by simp⟩
      · exact ⟨e + 1, by omega, by rw [Nat.pow_succ, ← Nat.div_div_eq_div_mul, eq]; omega⟩
      · exact ⟨e + 1, by omega, by rw [Nat.pow_succ, ← Nat.div_div_eq_div_mul, eq]; omega⟩
    · rintro ⟨e, bound, eq⟩
      cases e with
      | zero => exact Or.inl (by simpa using eq)
      | succ e =>
        rw [Nat.pow_succ, ← Nat.div_div_eq_div_mul] at eq
        by_cases even : j / 2 ^ e = i * 2
        · exact Or.inr (Or.inl ⟨e, by omega, even⟩)
        · exact Or.inr (Or.inr ⟨e, by omega, by omega⟩)

theorem in_sub_root {j : Nat} (pos : 0 < j) (top : j < 8192) : InSub 12 1 j := by
  refine (in_sub_iff 12 1 j).mpr ⟨j.log2, ?_, ?_⟩
  · have := (Nat.log2_lt (by omega)).mpr (show j < 2 ^ 13 from top)
    omega
  · have bounds := (Nat.log2_eq_iff (by omega)).mp (Eq.refl j.log2)
    refine Nat.div_eq_of_lt_le (by omega) ?_
    have := bounds.2
    rw [Nat.pow_succ] at this
    omega

theorem in_sub_left {d i j : Nat} (h : InSub d (leftChild i) j) : InSub (d + 1) i j :=
  Or.inr (Or.inl h)

theorem in_sub_right {d i j : Nat} (h : InSub d (rightChild i) j) : InSub (d + 1) i j :=
  Or.inr (Or.inr h)

theorem in_sub_le {d i j : Nat} (h : InSub d i j) : i ≤ j := by
  obtain ⟨e, _, eq⟩ := (in_sub_iff d i j).mp h
  rw [← eq]
  exact Nat.div_le_self _ _

theorem sub_trees_disjoint {d i j : Nat} (pos : 0 < i) (left : InSub d (leftChild i) j) :
    ¬ InSub d (rightChild i) j := by
  intro right
  obtain ⟨e, _, le⟩ := (in_sub_iff d _ j).mp left
  obtain ⟨f, _, re⟩ := (in_sub_iff d _ j).mp right
  simp only [leftChild, rightChild] at le re
  rcases Nat.lt_trichotomy e f with lt | same | lt
  · obtain ⟨n, rfl⟩ := Nat.exists_eq_add_of_lt lt
    rw [Nat.add_assoc, Nat.pow_add, ← Nat.div_div_eq_div_mul, le] at re
    have := Nat.div_le_self (i * 2) (2 ^ (n + 1))
    omega
  · subst same
    omega
  · obtain ⟨n, rfl⟩ := Nat.exists_eq_add_of_lt lt
    rw [Nat.add_assoc, Nat.pow_add, ← Nat.div_div_eq_div_mul, re, Nat.pow_succ,
      Nat.mul_comm (2 ^ n) 2, ← Nat.div_div_eq_div_mul] at le
    have := Nat.div_le_self ((i * 2 + 1) / 2) (2 ^ n)
    omega

theorem child_not_root {d i : Nat} (pos : 0 < i) :
    ¬ InSub d (leftChild i) i ∧ ¬ InSub d (rightChild i) i := by
  refine ⟨fun h => ?_, fun h => ?_⟩
  · have := in_sub_le h
    simp only [leftChild] at this
    omega
  · have := in_sub_le h
    simp only [rightChild] at this
    omega

theorem helper_power {d : Nat} (height : d ≤ 12) :
    calculateAddrHelper.getD (s16M - (12 + d)) 0 = 2 ^ (12 - d) := by
  interval_cases d <;> rfl

theorem convert_placed {g : Globals} {tree d i addr : Nat} (placed : Placed g tree d i addr) :
    convertIndexToAddr g tree i (12 + d) = some addr := by
  obtain ⟨height, _, last, address⟩ := placed
  have nodes : 2 ^ (12 - d) ≤ 4096 := Nat.pow_le_pow_right (by decide) (by omega : 12 - d ≤ 12)
  have inRange : i ≤ 8192 ∧ 12 + d ≠ 25 := by
    constructor <;> omega
  rw [convertIndexToAddr, if_pos inRange, helper_power height, address, windowStart]
  simp only [Nat.shiftLeft_eq]

theorem placed_children {g : Globals} {tree d i addr : Nat}
    (placed : Placed g tree (d + 1) i addr) :
    Placed g tree d (leftChild i) addr ∧
      Placed g tree d (rightChild i) (addr + 2 ^ (12 + d)) := by
  obtain ⟨height, first, last, address⟩ := placed
  have level : 2 ^ (12 - d) = 2 ^ (12 - (d + 1)) * 2 := by
    rw [← Nat.pow_succ]; congr 1; omega
  have half : 2 ^ (12 + (d + 1)) = 2 ^ (12 + d) * 2 := by rw [← Nat.add_assoc, Nat.pow_succ]
  obtain ⟨n, rfl⟩ := Nat.exists_eq_add_of_le first
  rw [Nat.add_sub_cancel_left, half] at address
  refine ⟨⟨by omega, ?_, ?_, ?_⟩, ⟨by omega, ?_, ?_, ?_⟩⟩
  all_goals simp only [leftChild, rightChild, level]
  · omega
  · omega
  · rw [address, show (2 ^ (12 - (d + 1)) + n) * 2 - 2 ^ (12 - (d + 1)) * 2 = n * 2 by omega]
    ring
  · omega
  · omega
  · rw [address,
      show (2 ^ (12 - (d + 1)) + n) * 2 + 1 - 2 ^ (12 - (d + 1)) * 2 = n * 2 + 1 by omega]
    ring

theorem placed_root (g : Globals) (tree : Nat) :
    Placed g tree 12 1 (windowStart g tree) := by
  constructor <;> simp

theorem placed_unique {g : Globals} {tree d i j addr : Nat} (first : Placed g tree d i addr)
    (second : Placed g tree d j addr) : i = j := by
  have pos : 0 < 2 ^ (12 + d) := Nat.two_pow_pos _
  have same := first.address.symm.trans second.address
  have offset : i - 2 ^ (12 - d) = j - 2 ^ (12 - d) :=
    Nat.eq_of_mul_eq_mul_right pos (Nat.add_left_cancel same)
  have := first.first
  have := second.first
  omega

theorem in_sub_bound {g : Globals} {tree d i addr j : Nat} (placed : Placed g tree d i addr)
    (sub : InSub d i j) : 0 < j ∧ j < 8192 := by
  have pos : 0 < 2 ^ (12 - d) := Nat.two_pow_pos _
  have first := placed.first
  have least := in_sub_le sub
  obtain ⟨e, bound, eq⟩ := (in_sub_iff d i j).mp sub
  refine ⟨by omega, ?_⟩
  have top : i + 1 ≤ 2 ^ (13 - d) := by
    have last := placed.last
    have : 2 ^ (13 - d) = 2 * 2 ^ (12 - d) := by
      have height := placed.height
      rw [Nat.mul_comm, ← Nat.pow_succ]; congr 1; omega
    omega
  have below : j < (i + 1) * 2 ^ e := by
    rw [← Nat.div_lt_iff_lt_mul (Nat.two_pow_pos _), eq]; omega
  calc j < (i + 1) * 2 ^ e := below
    _ ≤ 2 ^ (13 - d) * 2 ^ d := Nat.mul_le_mul top (Nat.pow_le_pow_right (by decide) bound)
    _ = 8192 := by
      have height := placed.height
      rw [← Nat.pow_add, show 13 - d + d = 13 by omega]

end Tbma
