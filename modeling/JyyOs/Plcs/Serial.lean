import JyyOs.Library.Subsequence
import JyyOs.Plcs.Diagonals

/-!
What Tworker computes: the cell of row `i` and column `j` is the length of the longest common
subsequence of A[0..i] and B[0..j].
-/
namespace Plcs

open Subsequence

def tworkerCall (a b : List UInt8) (id : Nat) (dp : Grid) (result : Int) : Grid × Int :=
  if id ≠ 1 then (dp, result)
  else
    let dp := tworkerRows a b a.length 0 dp
    (dp, dp (a.length - 1) (b.length - 1))

variable {a b : List UInt8}

theorem same_cell {i j : Nat} (row : i < a.length) (column : j < b.length) :
    same a b i j = ((if a[i] = b[j] then 1 else 0 : Nat) : Int) := by
  rw [same, Int.toNat_natCast, Int.toNat_natCast, List.getD_eq_getElem _ _ row,
    List.getD_eq_getElem _ _ column]
  split <;> rfl

/-- The table in front of row `i` and column `j`, by induction on both. -/
theorem table_longest (i j : Nat) (rows : i ≤ a.length) (columns : j ≤ b.length) :
    ∃ n : Nat, (tworker a b).at (i - 1) (j - 1) = n ∧ Longest (a.take i) (b.take j) n := by
  induction i generalizing j with
  | zero => exact ⟨0, if_neg (by omega), longest_nil_left _⟩
  | succ i above =>
    induction j with
    | zero =>
      rw [List.take_zero]
      exact ⟨0, if_neg (by omega), longest_nil_right _⟩
    | succ j left =>
      have row : i < a.length := rows
      have column : j < b.length := columns
      obtain ⟨p, cell_p, skip_a⟩ := above (j + 1) (by omega) columns
      obtain ⟨q, cell_q, skip_b⟩ := left (by omega)
      obtain ⟨r, cell_r, take_both⟩ := above j (by omega) (by omega)
      have follows := (tworker_filled a b).follows i j (by omega) (by omega) (by omega) (by omega)
      rw [← List.take_append_getElem row] at skip_b ⊢
      rw [← List.take_append_getElem column] at skip_a ⊢
      refine ⟨_, ?_, longest_snoc skip_a skip_b take_both⟩
      have last : ∀ k : Nat, ((k + 1 : Nat) : Int) - 1 = k := by
        intro k
        omega
      rw [last] at cell_p cell_q
      rw [last, last, Grid.at, if_pos (by omega), follows, cell_p, cell_q, cell_r,
        same_cell row column, max3]
      push_cast
      rfl

theorem table_cell_longest {i j : Nat} (row : i < a.length) (column : j < b.length) :
    ∃ n : Nat, tworker a b i j = n ∧ Longest (a.take (i + 1)) (b.take (j + 1)) n := by
  obtain ⟨n, cell, longest⟩ := table_longest (i + 1) (j + 1) row column
  refine ⟨n, ?_, longest⟩
  rwa [Grid.at, if_pos (by omega), Nat.cast_succ, Nat.cast_succ, add_sub_cancel_right,
    add_sub_cancel_right] at cell

/-- Tworker computes the longest common subsequence of the strings and of their prefixes. -/
theorem tworker_computes_lcs (a b : List UInt8) :
    (∀ i j : Nat, i < a.length → j < b.length →
      ∃ n : Nat, (tworkerCall a b 1 (fun _ _ => 0) 0).1 i j = n ∧
        Longest (a.take (i + 1)) (b.take (j + 1)) n) ∧
      ∃ n : Nat, (tworkerCall a b 1 (fun _ _ => 0) 0).2 = n ∧ Longest a b n := by
  refine ⟨fun i j row column => table_cell_longest row column, ?_⟩
  obtain ⟨n, cell, longest⟩ := table_longest a.length b.length (Nat.le_refl _) (Nat.le_refl _)
  rw [List.take_length, List.take_length] at longest
  refine ⟨n, ?_, longest⟩
  have result : (tworkerCall a b 1 (fun _ _ => 0) 0).2 =
      tworker a b (a.length - 1) (b.length - 1) := rfl
  rw [result, ← cell, Grid.at]
  split
  · rfl
  · rename_i outside
    exact (tworker_filled a b).zero _ _ (by omega)

example : (tworkerCall [98, 97, 97, 98] [97, 98, 97] 1 (fun _ _ => 0) 0).2 = 2 := by decide

end Plcs
