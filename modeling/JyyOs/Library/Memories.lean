import JyyOs.Library.PartialRun
import Mathlib.Data.Set.Basic
import Mathlib.Logic.Function.Basic

/-!
The memory of several owners as each of them sees it. A place holds bytes or is not there, and
between two accesses nothing moves but what is stored.
-/
namespace Memories

open PartialRun

variable {Owner Place Byte : Type}

abbrev Memory (Owner Place Byte : Type) := Owner → Place → Option (Nat → Byte)

inductive Happening (Owner Place Byte : Type) where
  | nothing
  | appears (o : Owner) (k : Place) (bytes : Nat → Byte)
  | vanish (o : Owner) (gone : Set Place)
  | forks (parent child : Owner)
  | stores (sharers : Set (Owner × Place)) (offset : Nat) (byte : Byte)

/-- A place appears once, and a child starts without places. -/
def Possible (m : Memory Owner Place Byte) : Happening Owner Place Byte → Prop
  | .nothing | .vanish _ _ | .stores _ _ _ => True
  | .appears o k _ => m o k = none
  | .forks _ child => ∀ k, m child k = none

open Classical in
noncomputable def changed (m : Memory Owner Place Byte) :
    Happening Owner Place Byte → Memory Owner Place Byte
  | .nothing => m
  | .appears o k bytes => fun o' k' => if o' = o ∧ k' = k then some bytes else m o' k'
  | .vanish o gone => fun o' k' => if o' = o ∧ k' ∈ gone then none else m o' k'
  | .forks parent child => fun o' k' => if o' = child then m parent k' else m o' k'
  | .stores sharers offset byte => fun o' k' =>
    if (o', k') ∈ sharers then (m o' k').map fun bytes => Function.update bytes offset byte
    else m o' k'

open Classical in
noncomputable def happen (m : Memory Owner Place Byte) (h : Happening Owner Place Byte) :
    Option (Memory Owner Place Byte) :=
  if Possible m h then some (changed m h) else none

def Loses (o : Owner) (k : Place) : Happening Owner Place Byte → Prop
  | .vanish o' gone => o' = o ∧ k ∈ gone
  | _ => False

open Classical in
noncomputable def stored (o : Owner) (k : Place) (bytes : Nat → Byte) :
    Happening Owner Place Byte → Nat → Byte
  | .stores sharers offset byte =>
    if (o, k) ∈ sharers then Function.update bytes offset byte else bytes
  | _ => bytes

section Steps

variable {m m' : Memory Owner Place Byte} {h : Happening Owner Place Byte} {o : Owner} {k : Place}
  {bytes : Nat → Byte}

theorem happen_eq_some : happen m h = some m' ↔ Possible m h ∧ m' = changed m h := by
  unfold happen
  split
  case isTrue possible =>
    constructor
    · intro same
      exact ⟨possible, (Option.some.inj same).symm⟩
    · intro both
      rw [both.2]
  case isFalse impossible =>
    constructor
    · intro same
      cases same
    · intro both
      exact absurd both.1 impossible

theorem happen_holds (happened : happen m h = some m') (here : m o k = some bytes)
    (kept : ¬Loses o k h) : m' o k = some (stored o k bytes h) := by
  obtain ⟨possible, rfl⟩ := happen_eq_some.mp happened
  cases h with
  | nothing => exact here
  | appears o' k' new =>
    by_cases same : o = o' ∧ k = k'
    · obtain ⟨rfl, rfl⟩ := same
      have none_ : m o k = none := possible
      rw [none_] at here
      cases here
    · simp only [changed, if_neg same]
      exact here
  | vanish o' gone =>
    have apart : ¬(o = o' ∧ k ∈ gone) := fun same => kept ⟨same.1.symm, same.2⟩
    simp only [changed, if_neg apart]
    exact here
  | forks parent child =>
    by_cases same : o = child
    · rw [same, possible k] at here
      cases here
    · simp only [changed, if_neg same]
      exact here
  | stores sharers offset byte =>
    simp only [changed, stored]
    split
    · rw [here]
      rfl
    · exact here

end Steps

end Memories
