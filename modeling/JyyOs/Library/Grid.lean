import Mathlib.Logic.Function.Basic
import Mathlib.Data.Nat.Init

/-!
Rectangles in a memory of rows: `h` rows of `w` cells, each row `stride` cells behind the last.
-/
namespace Grid

variable {α : Type}

def fillRow (mem : Nat → α) (base w : Nat) (f : Nat → α) : Nat → α :=
  (List.range w).foldl (fun mem i => Function.update mem (base + i) (f i)) mem

def fillRect (mem : Nat → α) (base stride w h : Nat) (f : Nat → Nat → α) : Nat → α :=
  (List.range h).foldl (fun mem j => fillRow mem (base + j * stride) w (f j)) mem

variable {mem : Nat → α} {base stride w h k : Nat}

theorem fill_row_succ (f : Nat → α) : fillRow mem base (w + 1) f =
    Function.update (fillRow mem base w f) (base + w) (f w) := by
  rw [fillRow, fillRow, List.range_succ, List.foldl_append]
  rfl

theorem fill_row_outside (f : Nat → α) (outside : ∀ i < w, k ≠ base + i) :
    fillRow mem base w f k = mem k := by
  induction w with
  | zero => rfl
  | succ w ih =>
    rw [fill_row_succ, Function.update_of_ne (outside w (Nat.lt_succ_self w))]
    exact ih fun i less => outside i (Nat.lt_succ_of_lt less)

theorem fill_row_inside (f : Nat → α) {i : Nat} (inside : i < w) :
    fillRow mem base w f (base + i) = f i := by
  induction w with
  | zero => exact absurd inside (Nat.not_lt_zero i)
  | succ w ih =>
    rw [fill_row_succ]
    by_cases last : i = w
    · rw [last, Function.update_self]
    · rw [Function.update_of_ne (by omega)]
      exact ih (by omega)

theorem fill_rect_succ (f : Nat → Nat → α) : fillRect mem base stride w (h + 1) f =
    fillRow (fillRect mem base stride w h f) (base + h * stride) w (f h) := by
  rw [fillRect, fillRect, List.range_succ, List.foldl_append]
  rfl

theorem fill_rect_outside (f : Nat → Nat → α)
    (outside : ∀ j < h, ∀ i < w, k ≠ base + j * stride + i) :
    fillRect mem base stride w h f k = mem k := by
  induction h with
  | zero => rfl
  | succ h ih =>
    rw [fill_rect_succ, fill_row_outside _ (outside h (Nat.lt_succ_self h))]
    exact ih fun j less => outside j (Nat.lt_succ_of_lt less)

theorem fill_rect_inside (f : Nat → Nat → α) (narrow : w ≤ stride) {i j : Nat} (column : i < w)
    (row : j < h) : fillRect mem base stride w h f (base + j * stride + i) = f j i := by
  induction h with
  | zero => exact absurd row (Nat.not_lt_zero j)
  | succ h ih =>
    rw [fill_rect_succ]
    by_cases last : j = h
    · rw [last]
      exact fill_row_inside _ column
    · have above : j + 1 ≤ h := by omega
      have whole := Nat.mul_le_mul_right stride above
      rw [Nat.succ_mul] at whole
      rw [fill_row_outside _ fun i' _ => by omega]
      exact ih (by omega)

end Grid
