import Mathlib.Data.List.GetD
import Mathlib.Algebra.Order.Ring.Int
import Mathlib.Tactic.Ring
import Mathlib.Tactic.Linarith

/-!
plcs.c: the table Tworker fills row by row, and its cells by diagonals. `a` and `b` are the
strings A and B.
-/
namespace Plcs

def maxN : Nat := 10000

def maxThread : Nat := 20

abbrev Grid := Int → Int → Int

def Grid.set (g : Grid) (x y v : Int) : Grid :=
  fun x' y' => if x' = x ∧ y' = y then v else g x' y'

def Grid.at (g : Grid) (x y : Int) : Int := if 0 ≤ x ∧ 0 ≤ y then g x y else 0

def max3 (x y z : Int) : Int := max (max x y) z

def same (a b : List UInt8) (i j : Int) : Int :=
  if a.getD i.toNat 0 = b.getD j.toNat 0 then 1 else 0

section Serial

variable (a b : List UInt8)

def tworkerRow (i : Int) : Nat → Int → Grid → Grid
  | 0, _, dp => dp
  | left + 1, j, dp =>
    let skipA := dp.at (i - 1) j
    let skipB := dp.at i (j - 1)
    let takeBoth := dp.at (i - 1) (j - 1) + same a b i j
    tworkerRow i left (j + 1) (dp.set i j (max3 skipA skipB takeBoth))

def tworkerRows : Nat → Int → Grid → Grid
  | 0, _, dp => dp
  | left + 1, i, dp => tworkerRows left (i + 1) (tworkerRow a b i b.length 0 dp)

def tworker : Grid := tworkerRows a b a.length 0 fun _ _ => 0

/-- The cell of row `x` and column `y` follows from its neighbours. -/
def Follows (dp : Grid) (x y : Int) : Prop :=
  dp x y = max3 (dp.at (x - 1) y) (dp.at x (y - 1)) (dp.at (x - 1) (y - 1) + same a b x y)

structure Filled (dp : Grid) (i j : Int) : Prop where
  follows : ∀ x y : Int, 0 ≤ x → 0 ≤ y → y < b.length → x < i ∨ x = i ∧ y < j → Follows a b dp x y
  zero : ∀ x y : Int, ¬(0 ≤ x ∧ 0 ≤ y ∧ y < b.length ∧ (x < i ∨ x = i ∧ y < j)) → dp x y = 0

variable {a b} {dp : Grid} {i j : Int}

theorem set_here (dp : Grid) (x y v : Int) : dp.set x y v x y = v := if_pos ⟨rfl, rfl⟩

theorem set_other {x y x' y' v : Int} (other : ¬(x' = x ∧ y' = y)) :
    dp.set x y v x' y' = dp x' y' := if_neg other

theorem at_set_other {x y x' y' v : Int} (other : ¬(x' = x ∧ y' = y)) :
    (dp.set x y v).at x' y' = dp.at x' y' := by
  rw [Grid.at, Grid.at, set_other other]

theorem filled_cell (filled : Filled a b dp i j) (row : 0 ≤ i) (low : 0 ≤ j) (high : j < b.length) :
    Filled a b (dp.set i j (max3 (dp.at (i - 1) j) (dp.at i (j - 1))
      (dp.at (i - 1) (j - 1) + same a b i j))) i (j + 1) := by
  constructor
  · intro x y top left right before
    by_cases here : x = i ∧ y = j
    · obtain ⟨rfl, rfl⟩ := here
      rw [Follows, set_here, at_set_other (by omega), at_set_other (by omega),
        at_set_other (by omega)]
    · have follows := filled.follows x y top left right (by omega)
      rwa [Follows, set_other here, at_set_other (by omega), at_set_other (by omega),
        at_set_other (by omega)]
  · intro x y outside
    rw [set_other (by omega)]
    exact filled.zero x y (by omega)

theorem tworker_row_filled (left : Nat) (filled : Filled a b dp i j) (row : 0 ≤ i) (low : 0 ≤ j)
    (upto : j + left = b.length) : Filled a b (tworkerRow a b i left j dp) i b.length := by
  induction left generalizing j dp with
  | zero =>
    have last : j = b.length := by omega
    rw [← last]
    exact filled
  | succ left ih => exact ih (filled_cell filled row low (by omega)) (by omega) (by omega)

theorem filled_row (filled : Filled a b dp i b.length) : Filled a b dp (i + 1) 0 := by
  constructor
  · intro x y top left right before
    exact filled.follows x y top left right (by omega)
  · intro x y outside
    exact filled.zero x y (by omega)

theorem tworker_rows_filled (left : Nat) (filled : Filled a b dp i 0) (row : 0 ≤ i) :
    Filled a b (tworkerRows a b left i dp) (i + left) 0 := by
  induction left generalizing i dp with
  | zero =>
    rw [Nat.cast_zero, Int.add_zero]
    exact filled
  | succ left ih =>
    have next := tworker_row_filled b.length filled row (Int.le_refl 0) (Int.zero_add _)
    have rows := ih (filled_row next) (by omega)
    have total : i + 1 + (left : Int) = i + ((left + 1 : Nat) : Int) := by omega
    rwa [total] at rows

theorem tworker_filled (a b : List UInt8) : Filled a b (tworker a b) a.length 0 := by
  have empty : Filled a b (fun _ _ => 0) 0 0 := by
    constructor
    · intro x y top left right before
      omega
    · intro x y outside
      rfl
  have rows := tworker_rows_filled a.length empty (Int.le_refl 0)
  rwa [Int.zero_add] at rows

end Serial

section Diagonals

variable (a b : List UInt8)

def OnDiagonal (x y : Int) : Prop := 0 ≤ y ∧ y < a.length ∧ 0 ≤ x - y ∧ x - y < b.length

instance (x y : Int) : Decidable (OnDiagonal a b x y) := instDecidableAnd

/-- What dp_cache[x][y] ends as: row `y` of diagonal `x` of the table. -/
def finalCell : Grid := fun x y => tworker a b y (x - y)

variable {a b} {x y : Int}

theorem final_cell_zero (outside : ¬OnDiagonal a b x y) : finalCell a b x y = 0 := by
  unfold OnDiagonal at outside
  exact (tworker_filled a b).zero y (x - y) (by omega)

theorem final_cell_follows (inside : OnDiagonal a b x y) : finalCell a b x y =
    max3 ((finalCell a b).at (x - 1) y) ((finalCell a b).at (x - 1) (y - 1))
      ((finalCell a b).at (x - 2) (y - 1) + same a b y (x - y)) := by
  obtain ⟨top, bottom, left, right⟩ := inside
  have follows := (tworker_filled a b).follows y (x - y) top left right (by omega)
  have column : x - 1 - y = x - y - 1 := by omega
  have row : x - 1 - (y - 1) = x - y := by omega
  have both : x - 2 - (y - 1) = x - y - 1 := by omega
  have outside : ∀ i j : Int, i < 0 ∨ j < 0 → tworker a b i j = 0 := by
    intro i j negative
    exact (tworker_filled a b).zero i j (by omega)
  have before : ∀ i j u v : Int, u - v = j → v = i →
      (finalCell a b).at u v = (tworker a b).at i j := by
    rintro i j u v rfl rfl
    unfold Grid.at finalCell
    by_cases first : 0 ≤ v ∧ 0 ≤ u - v
    · rw [if_pos first, if_pos (by omega)]
    · rw [if_neg first]
      split
      · exact outside v (u - v) (by omega)
      · rfl
  rw [finalCell, follows, before y (x - y - 1) (x - 1) y column rfl,
    before (y - 1) (x - y) (x - 1) (y - 1) row rfl,
    before (y - 1) (x - y - 1) (x - 2) (y - 1) both rfl, max3, max3, max_comm ((tworker a b).at _ _)]

end Diagonals

end Plcs
