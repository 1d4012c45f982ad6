/-!
Programs that may stop with a fault. The `_ok` and `_error` lemmas take a sequence apart, and
`Stops E x` says that `x` stops with a fault of `E` only.
-/
namespace Faults

variable {ε α β : Type} {x : Except ε α} {f : α → Except ε β} {E : ε → Prop}

theorem bind_ok {b : β} : (x >>= f) = .ok b ↔ ∃ a, x = .ok a ∧ f a = .ok b := by
  cases x with
  | error e => simp [bind, Except.bind]
  | ok a => simp [bind, Except.bind]

theorem bind_error {e : ε} : (x >>= f) = .error e ↔
    x = .error e ∨ ∃ a, x = .ok a ∧ f a = .error e := by
  cases x with
  | error e' => simp [bind, Except.bind]
  | ok a => simp [bind, Except.bind]

def Stops (E : ε → Prop) (x : Except ε α) : Prop := ∀ e, x = .error e → E e

theorem stops_ok (a : α) : Stops E (.ok a : Except ε α) := by
  intro e stopped
  cases stopped

theorem stops_pure (a : α) : Stops E (pure a : Except ε α) := stops_ok a

theorem stops_error {e : ε} (here : E e) : Stops E (.error e : Except ε α) := by
  intro e' stopped
  cases stopped
  exact here

theorem stops_bind (first : Stops E x) (next : ∀ a, x = .ok a → Stops E (f a)) :
    Stops E (x >>= f) := by
  intro e stopped
  rcases bind_error.mp stopped with here | ⟨a, ran, there⟩
  · exact first e here
  · exact next a ran e there

theorem stops_ite {c : Prop} [Decidable c] {y z : Except ε α} (yes : c → Stops E y)
    (no : ¬c → Stops E z) : Stops E (if c then y else z) := by
  by_cases holds : c
  · rw [if_pos holds]
    exact yes holds
  · rw [if_neg holds]
    exact no holds

theorem stops_return {c : Prop} [Decidable c] (a : α) {z : Except ε α} (no : ¬c → Stops E z) :
    Stops E (if c then pure a else z) :=
  stops_ite (fun _ => stops_pure a) no

end Faults
