import Mathlib.Algebra.Group.Nat.Defs

/-!
Copying a range between two memories, as memcpy does, over any type of cells.
-/
namespace ByteCopy

variable {α : Type}

/-- `n` cells of `src` from `b` on, copied over `dst` from `a` on. -/
def copy (dst : Nat → α) (a : Nat) (src : Nat → α) (b n : Nat) : Nat → α :=
  fun i => if a ≤ i ∧ i < a + n then src (b + (i - a)) else dst i

variable {dst src : Nat → α} {a b n : Nat}

theorem copy_inside {i : Nat} (low : a ≤ i) (high : i < a + n) :
    copy dst a src b n i = src (b + (i - a)) :=
  if_pos ⟨low, high⟩

theorem copy_outside {i : Nat} (out : i < a ∨ a + n ≤ i) : copy dst a src b n i = dst i := by
  apply if_neg
  omega

theorem copy_at {i : Nat} (inside : i < n) : copy dst a src b n (a + i) = src (b + i) := by
  rw [copy_inside (Nat.le_add_right a i) (Nat.add_lt_add_left inside a), Nat.add_sub_cancel_left]

theorem copy_none : copy dst a src b 0 = dst := by
  funext i
  exact copy_outside (by omega)

theorem copy_copy (m : Nat) :
    copy (copy dst a src b n) (a + n) src (b + n) m = copy dst a src b (n + m) := by
  funext i
  by_cases low : a ≤ i
  · by_cases first : i < a + n
    · rw [copy_outside (.inl first), copy_inside low first, copy_inside low (by omega)]
    · by_cases second : i < a + n + m
      · rw [copy_inside (by omega) second, copy_inside low (by omega)]
        congr 1
        omega
      · rw [copy_outside (by omega), copy_outside (by omega), copy_outside (by omega)]
  · rw [copy_outside (by omega), copy_outside (by omega), copy_outside (by omega)]

theorem copy_back {out : Nat → α} (c : Nat) :
    copy out c (copy dst a src b n) a n = copy out c src b n := by
  funext i
  by_cases inside : c ≤ i ∧ i < c + n
  · rw [copy_inside inside.1 inside.2, copy_inside inside.1 inside.2, copy_at (by omega)]
  · rw [copy_outside (by omega), copy_outside (by omega)]

theorem copy_through {out mid : Nat → α} (c : Nat) {r m : Nat} (inside : r + n ≤ m) :
    copy out c (copy mid 0 src b m) r n = copy out c src (b + r) n := by
  funext i
  by_cases here : c ≤ i ∧ i < c + n
  · rw [copy_inside here.1 here.2, copy_inside here.1 here.2, copy_inside (by omega) (by omega)]
    congr 1
    omega
  · rw [copy_outside (by omega), copy_outside (by omega)]

theorem copy_patched {mid : Nat → α} {r m : Nat} (inside : r + n ≤ m)
    (holds : ∀ i, i < m → i < r ∨ r + n ≤ i → mid i = dst (a + i)) :
    copy dst a (copy mid r src b n) 0 m = copy dst (a + r) src b n := by
  funext i
  by_cases block : a ≤ i ∧ i < a + m
  · have back : a + (i - a) = i := by omega
    rw [copy_inside block.1 block.2, Nat.zero_add]
    by_cases patched : r ≤ i - a ∧ i - a < r + n
    · rw [copy_inside patched.1 patched.2, copy_inside (by omega) (by omega)]
      congr 1
      omega
    · rw [copy_outside (by omega), copy_outside (by omega), holds _ (by omega) (by omega), back]
  · rw [copy_outside (by omega), copy_outside (by omega)]

end ByteCopy
