import Mathlib.Logic.Function.Basic
import Mathlib.Data.List.Basic
import Mathlib.Data.Nat.ModEq

/-!
Queues in a ring of `n` cells: the cells from `front` up to `rear`, past the last cell and on
from the first one, hold a list. What the operations at both ends do to the list.
-/
namespace Ring

variable {α : Type}

structure Holds (n : Nat) (cells : Nat → α) (front rear : Nat) (list : List α) : Prop where
  front_in : front < n
  rear_at : rear = (front + list.length) % n
  room : list.length < n
  cell : ∀ i (h : i < list.length), cells ((front + i) % n) = list[i]

def contents (n : Nat) (cells : Nat → α) (front rear : Nat) : List α :=
  (List.range ((rear + n - front) % n)).map fun i => cells ((front + i) % n)

variable {n front rear : Nat} {cells : Nat → α} {list : List α}

theorem offsets_apart {i j : Nat} (hi : i < n) (hj : j < n)
    (same : (front + i) % n = (front + j) % n) : i = j := by
  have mod : i % n = j % n := Nat.ModEq.add_left_cancel' front same
  rwa [Nat.mod_eq_of_lt hi, Nat.mod_eq_of_lt hj] at mod

theorem holds_empty (cells : Nat → α) (inside : front < n) : Holds n cells front front [] :=
  ⟨inside, (Nat.mod_eq_of_lt inside).symm, by simp only [List.length_nil]; omega, nofun⟩

theorem holds_rear (holds : Holds n cells front rear list) : rear < n := by
  have positive : 0 < n := Nat.zero_lt_of_lt holds.front_in
  rw [holds.rear_at]
  exact Nat.mod_lt _ positive

theorem holds_distance (holds : Holds n cells front rear list) :
    (rear + n - front) % n = list.length := by
  have inside := holds.front_in
  have room := holds.room
  rw [holds.rear_at]
  rcases Nat.lt_or_ge (front + list.length) n with small | wrapped
  · rw [Nat.mod_eq_of_lt small]
    have sum : front + list.length + n - front = list.length + n := by omega
    rw [sum, Nat.add_mod_right, Nat.mod_eq_of_lt room]
  · rw [Nat.mod_eq_sub_mod wrapped, Nat.mod_eq_of_lt (a := front + list.length - n) (by omega)]
    have sum : front + list.length - n + n - front = list.length := by omega
    rw [sum, Nat.mod_eq_of_lt room]

theorem holds_contents (holds : Holds n cells front rear list) :
    contents n cells front rear = list := by
  rw [contents, holds_distance holds]
  refine List.ext_getElem (by simp) fun i _ h => ?_
  rw [List.getElem_map, List.getElem_range]
  exact holds.cell i h

theorem holds_empty_iff (holds : Holds n cells front rear list) : rear = front ↔ list = [] := by
  have inside := holds.front_in
  have room := holds.room
  constructor
  · intro same
    have distance := holds_distance holds
    have sum : rear + n - front = n := by omega
    rw [sum, Nat.mod_self] at distance
    exact List.eq_nil_of_length_eq_zero distance.symm
  · rintro rfl
    rw [holds.rear_at]
    exact Nat.mod_eq_of_lt inside

theorem holds_congr {cells' : Nat → α} (holds : Holds n cells front rear list)
    (same : ∀ i, i < list.length → cells' ((front + i) % n) = cells ((front + i) % n)) :
    Holds n cells' front rear list :=
  ⟨holds.front_in, holds.rear_at, holds.room, fun i h => (same i h).trans (holds.cell i h)⟩

theorem holds_update {k : Nat} (holds : Holds n cells front rear list) (outside : list.length ≤ k)
    (inside : k < n) (x : α) :
    Holds n (Function.update cells ((front + k) % n) x) front rear list := by
  refine holds_congr holds fun i h => Function.update_of_ne (fun same => ?_) ..
  have := offsets_apart (Nat.lt_trans h holds.room) inside same
  omega

theorem holds_push (holds : Holds n cells front rear list) (room : list.length + 1 < n) (x : α) :
    Holds n (Function.update cells rear x) front ((rear + 1) % n) (list ++ [x]) := by
  have here := holds.rear_at
  refine ⟨holds.front_in, ?_, ?_, fun i h => ?_⟩
  · rw [here, Nat.mod_add_mod, List.length_append, List.length_singleton, Nat.add_assoc]
  · rwa [List.length_append, List.length_singleton]
  · rw [List.length_append, List.length_singleton] at h
    by_cases last : i = list.length
    · subst last
      rw [← here, Function.update_self, List.getElem_concat_length rfl]
    · have old : i < list.length := by omega
      rw [Function.update_of_ne, holds.cell i old, List.getElem_append_left old]
      rw [here]
      exact fun same => last (offsets_apart (Nat.lt_trans old holds.room) holds.room same)

theorem holds_pop {x : α} (holds : Holds n cells front rear (x :: list)) :
    cells front = x ∧ Holds n cells ((front + 1) % n) rear list := by
  have first := holds.cell 0 (Nat.succ_pos _)
  rw [Nat.add_zero, Nat.mod_eq_of_lt holds.front_in, List.getElem_cons_zero] at first
  have room := holds.room
  rw [List.length_cons] at room
  refine ⟨first, Nat.mod_lt _ (by omega), ?_, by omega, fun i h => ?_⟩
  · rw [holds.rear_at, List.length_cons, Nat.mod_add_mod, Nat.add_assoc, Nat.add_comm 1]
  · have next := holds.cell (i + 1) (Nat.succ_lt_succ h)
    rw [List.getElem_cons_succ] at next
    rw [Nat.mod_add_mod, Nat.add_assoc, Nat.add_comm 1]
    exact next

theorem holds_pop_back {x : α} (holds : Holds n cells front rear (list ++ [x])) :
    cells ((rear + n - 1) % n) = x ∧ Holds n cells front ((rear + n - 1) % n) list := by
  have room := holds.room
  rw [List.length_append, List.length_singleton] at room
  have before : (rear + n - 1) % n = (front + list.length) % n := by
    have here := holds.rear_at
    rw [List.length_append, List.length_singleton] at here
    have step : rear + n - 1 = rear + (n - 1) := by omega
    have total : front + (list.length + 1) + (n - 1) = front + list.length + n := by omega
    rw [step, here, Nat.mod_add_mod, total, Nat.add_mod_right]
  refine ⟨?_, holds.front_in, before, by omega, fun i h => ?_⟩
  · have last := holds.cell list.length (by simp)
    rwa [List.getElem_concat_length rfl, ← before] at last
  · have old := holds.cell i (by simp only [List.length_append, List.length_singleton]; omega)
    rwa [List.getElem_append_left h] at old

end Ring
