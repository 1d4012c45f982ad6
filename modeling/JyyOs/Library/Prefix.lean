import Mathlib.Data.List.Perm.Basic
import Mathlib.Data.List.Range
import Mathlib.Logic.Function.Basic

/-!
An array with a counter, as the list of its first `n` entries. Entries are added at the end
and removed by moving the last one into the hole.
-/
namespace Prefix

variable {α : Type}

def firstN (f : Nat → α) (n : Nat) : List α := (List.range n).map f

@[simp] theorem first_zero (f : Nat → α) : firstN f 0 = [] := rfl

theorem first_succ (f : Nat → α) (n : Nat) : firstN f (n + 1) = firstN f n ++ [f n] := by
  simp [firstN, List.range_succ]

theorem first_length (f : Nat → α) (n : Nat) : (firstN f n).length = n := by
  simp [firstN]

theorem first_congr {f g : Nat → α} {n : Nat} (same : ∀ i, i < n → f i = g i) :
    firstN f n = firstN g n :=
  List.map_congr_left fun i h => same i (List.mem_range.mp h)

theorem first_push (f : Nat → α) (n : Nat) (x : α) :
    firstN (Function.update f n x) (n + 1) = firstN f n ++ [x] := by
  rw [first_succ, Function.update_self]
  congr 1
  exact first_congr fun i h => Function.update_of_ne (Nat.ne_of_lt h) ..

theorem first_update_perm (f : Nat → α) {n k : Nat} (bound : k < n) (x : α) :
    (f k :: firstN (Function.update f k x) n).Perm (x :: firstN f n) := by
  induction n with
  | zero => omega
  | succ n ih =>
    rw [first_succ, first_succ]
    by_cases last : k = n
    · subst last
      rw [Function.update_self]
      have rest : firstN (Function.update f k x) k = firstN f k :=
        first_congr fun i h => Function.update_of_ne (Nat.ne_of_lt h) ..
      rw [rest]
      refine (List.Perm.cons _ (List.perm_append_singleton _ _)).trans ?_
      refine (List.Perm.swap _ _ _).trans (List.Perm.cons _ ?_)
      exact (List.perm_append_singleton _ _).symm
    · rw [Function.update_of_ne (Ne.symm last)]
      have := (ih (by omega)).append_right [f n]
      simpa using this

theorem first_swap_remove (f : Nat → α) {n k : Nat} (bound : k < n + 1) :
    (firstN f (n + 1)).Perm (f k :: firstN (Function.update f k (f n)) n) := by
  by_cases last : k = n
  · subst last
    rw [Function.update_eq_self, first_succ]
    exact List.perm_append_singleton _ _
  · have moved := first_update_perm f (show k < n by omega) (f n)
    rw [first_succ]
    exact (List.perm_append_singleton _ _).trans moved.symm

end Prefix
