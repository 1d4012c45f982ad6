import Mathlib.Logic.Function.Basic
import Mathlib.Data.List.Basic

/-!
Singly linked lists threaded through a memory of scalars: each node keeps the address of the
next one at a fixed offset, and 0 ends the list.
-/
namespace LinkedList

def Linked (mem : Nat → Nat) (off : Nat) : Nat → List Nat → Prop
  | a, [] => a = 0
  | a, x :: rest => a = x ∧ x ≠ 0 ∧ Linked mem off (mem (x + off)) rest

variable {mem mem' : Nat → Nat} {off a : Nat} {list : List Nat}

theorem linked_congr (linked : Linked mem off a list)
    (same : ∀ x ∈ list, mem' (x + off) = mem (x + off)) : Linked mem' off a list := by
  induction list generalizing a with
  | nil => exact linked
  | cons x rest ih =>
    obtain ⟨here, real, later⟩ := linked
    refine ⟨here, real, ?_⟩
    rw [same x List.mem_cons_self]
    exact ih later fun y h => same y (List.mem_cons_of_mem _ h)

theorem linked_unique {list' : List Nat} (linked : Linked mem off a list)
    (linked' : Linked mem off a list') : list = list' := by
  induction list generalizing a list' with
  | nil =>
    cases list' with
    | nil => rfl
    | cons y rest' => exact absurd (linked'.1.symm.trans linked) linked'.2.1
  | cons x rest ih =>
    cases list' with
    | nil => exact absurd (linked.1.symm.trans linked') linked.2.1
    | cons y rest' =>
      obtain rfl := linked.1.symm.trans linked'.1
      rw [ih linked.2.2 linked'.2.2]

theorem linked_head (linked : Linked mem off a list) (real : a ≠ 0) :
    ∃ rest, list = a :: rest ∧ Linked mem off (mem (a + off)) rest := by
  cases list with
  | nil => exact absurd linked real
  | cons x rest =>
    obtain ⟨rfl, _, later⟩ := linked
    exact ⟨rest, rfl, later⟩

theorem linked_real (linked : Linked mem off a list) : ∀ x ∈ list, x ≠ 0 := by
  induction list generalizing a with
  | nil => simp
  | cons x rest ih => exact List.forall_mem_cons.mpr ⟨linked.2.1, ih linked.2.2⟩

theorem linked_push (linked : Linked mem off a list) {x : Nat} (real : x ≠ 0)
    (fresh : x ∉ list) : Linked (Function.update mem (x + off) a) off x (x :: list) := by
  refine ⟨rfl, real, ?_⟩
  rw [Function.update_self]
  refine linked_congr linked fun y h => Function.update_of_ne ?_ ..
  intro same
  have : y = x := by omega
  exact fresh (this ▸ h)

theorem linked_unlink {before after : List Nat} {p x : Nat}
    (linked : Linked mem off a (before ++ p :: x :: after))
    (nodup : (before ++ p :: x :: after).Nodup) :
    Linked (Function.update mem (p + off) (mem (x + off))) off a (before ++ p :: after) := by
  induction before generalizing a with
  | nil =>
    obtain ⟨here, real, rfl_x, _, later⟩ := linked
    refine ⟨here, real, ?_⟩
    rw [Function.update_self]
    refine linked_congr later fun y h => Function.update_of_ne ?_ ..
    have apart : y ≠ p := by
      rintro rfl
      exact (List.nodup_cons.mp nodup).1 (List.mem_cons_of_mem _ h)
    omega
  | cons y before ih =>
    obtain ⟨here, real, later⟩ := linked
    obtain ⟨y_new, nodup⟩ := List.nodup_cons.mp nodup
    refine ⟨here, real, ?_⟩
    have apart : y ≠ p := by
      rintro rfl
      exact y_new (by simp)
    rw [Function.update_of_ne (by omega)]
    exact ih later nodup

theorem linked_after {before after : List Nat} {p : Nat}
    (linked : Linked mem off a (before ++ p :: after)) :
    Linked mem off p (p :: after) := by
  induction before generalizing a with
  | nil => exact ⟨rfl, linked.2⟩
  | cons y before ih => exact ih linked.2.2

theorem linked_insert {before after : List Nat} {p x : Nat}
    (linked : Linked mem off a (before ++ p :: after)) (nodup : (before ++ p :: after).Nodup)
    (real : x ≠ 0) (fresh : x ∉ before ++ p :: after) (next : mem (x + off) = mem (p + off)) :
    Linked (Function.update mem (p + off) x) off a (before ++ p :: x :: after) := by
  induction before generalizing a with
  | nil =>
    obtain ⟨here, p_real, later⟩ := linked
    have apart : x ≠ p := fun same => fresh (same ▸ List.mem_cons_self)
    refine ⟨here, p_real, ?_⟩
    rw [Function.update_self]
    refine ⟨rfl, real, ?_⟩
    rw [Function.update_of_ne (by omega), next]
    refine linked_congr later fun y h => Function.update_of_ne ?_ ..
    have other : y ≠ p := by
      rintro rfl
      exact (List.nodup_cons.mp nodup).1 h
    omega
  | cons y before ih =>
    obtain ⟨here, y_real, later⟩ := linked
    obtain ⟨y_new, nodup⟩ := List.nodup_cons.mp nodup
    have apart : y ≠ p := by
      rintro rfl
      exact y_new (by simp)
    refine ⟨here, y_real, ?_⟩
    rw [Function.update_of_ne (by omega)]
    exact ih later nodup fun inside => fresh (List.mem_cons_of_mem _ inside)

theorem linked_enqueue {front : List Nat} {last x : Nat}
    (linked : Linked mem off a (front ++ [last])) (nodup : (front ++ [last]).Nodup)
    (real : x ≠ 0) (fresh : x ∉ front ++ [last]) (ends : mem (x + off) = 0) :
    Linked (Function.update mem (last + off) x) off a (front ++ [last, x]) := by
  have stop : mem (last + off) = 0 := (linked_after linked).2.2
  exact linked_insert linked nodup real fresh (ends.trans stop.symm)

end LinkedList
