import Mathlib.Logic.Function.Basic
import Mathlib.Data.List.Basic

/-!
Multi-level tables indexed by a path of slots. Storing an entry creates the tables that are
missing on its path.
-/
namespace Radix

inductive Table (α : Type) where
  | absent
  | entry (a : α)
  | table (slot : Nat → Table α)

variable {α : Type}

def lookup : Table α → List Nat → Option α
  | .entry a, [] => some a
  | .table slot, i :: path => lookup (slot i) path
  | _, _ => none

def store : Table α → List Nat → Option α → Table α
  | _, [], none => .absent
  | _, [], some a => .entry a
  | .table slot, i :: path, v => .table (Function.update slot i (store (slot i) path v))
  | _, i :: path, v => .table (Function.update (fun _ => .absent) i (store .absent path v))

@[simp] theorem lookup_absent (path : List Nat) :
    lookup (.absent : Table α) path = none := by
  cases path <;> rfl

@[simp] theorem lookup_store (t : Table α) (path : List Nat) (v : Option α) :
    lookup (store t path v) path = v := by
  induction path generalizing t with
  | nil => cases v <;> cases t <;> rfl
  | cons i path ih => cases t <;> simp [store, lookup, ih]

theorem lookup_store_other (t : Table α) {path path' : List Nat} (v : Option α)
    (same_depth : path'.length = path.length) (ne : path' ≠ path) :
    lookup (store t path v) path' = lookup t path' := by
  induction path generalizing t path' with
  | nil => exact absurd (List.eq_nil_of_length_eq_zero same_depth) ne
  | cons i path ih =>
    cases path' with
    | nil => simp at same_depth
    | cons j path' =>
      have depth : path'.length = path.length := by simpa using same_depth
      by_cases here : j = i
      · subst here
        have rest : path' ≠ path := fun h => ne (by rw [h])
        cases t <;> simp [store, lookup, ih _ depth rest]
      · cases t <;> simp [store, lookup, Function.update_of_ne here]

end Radix
