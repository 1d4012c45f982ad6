import Mathlib.Data.List.Basic
import Mathlib.Order.MinMax

/-!
Common subsequences of two lists. The longest ones of two lists with one more element each
follow from those of the three pairs of shorter lists.
-/
namespace Subsequence

variable {α : Type}

def Common (l m c : List α) : Prop := c.Sublist l ∧ c.Sublist m

def Longest (l m : List α) (n : Nat) : Prop :=
  (∃ c, Common l m c ∧ c.length = n) ∧ ∀ c, Common l m c → c.length ≤ n

variable {l m : List α} {x y : α} {n p q r : Nat}

theorem longest_nil_left (m : List α) : Longest [] m 0 := by
  refine ⟨⟨[], ⟨List.nil_sublist _, List.nil_sublist _⟩, rfl⟩, fun c common => ?_⟩
  exact common.1.length_le

theorem longest_nil_right (l : List α) : Longest l [] 0 := by
  refine ⟨⟨[], ⟨List.nil_sublist _, List.nil_sublist _⟩, rfl⟩, fun c common => ?_⟩
  exact common.2.length_le

theorem sublist_snoc {c : List α} (sub : c.Sublist (l ++ [x])) :
    c.Sublist l ∨ ∃ d, d.Sublist l ∧ c = d ++ [x] := by
  obtain ⟨d, e, rfl, inside, last⟩ := List.sublist_append_iff.mp sub
  rcases List.sublist_singleton.mp last with rfl | rfl
  · rw [List.append_nil]
    exact .inl inside
  · exact .inr ⟨d, inside, rfl⟩

theorem common_snoc {c : List α} (common : Common (l ++ [x]) (m ++ [y]) c) :
    Common l (m ++ [y]) c ∨ Common (l ++ [x]) m c ∨
      ∃ d, Common l m d ∧ x = y ∧ c.length = d.length + 1 := by
  obtain ⟨left, right⟩ := common
  rcases sublist_snoc left with inside | ⟨d, inside, rfl⟩
  · exact .inl ⟨inside, right⟩
  · rcases sublist_snoc right with inside' | ⟨e, inside', both⟩
    · exact .inr (.inl ⟨left, inside'⟩)
    · obtain ⟨rfl, last⟩ := List.append_inj' both rfl
      cases last
      exact .inr (.inr ⟨d, ⟨inside, inside'⟩, rfl, List.length_append⟩)

theorem common_grow {c : List α} (common : Common l m c) : Common (l ++ [x]) (m ++ [y]) c :=
  ⟨List.sublist_append_of_sublist_left common.1, List.sublist_append_of_sublist_left common.2⟩

theorem longest_snoc [DecidableEq α] (skip_left : Longest l (m ++ [y]) p)
    (skip_right : Longest (l ++ [x]) m q) (both : Longest l m r) :
    Longest (l ++ [x]) (m ++ [y]) (max (max p q) (r + if x = y then 1 else 0)) := by
  constructor
  · obtain ⟨⟨c, common, length⟩, _⟩ := skip_left
    obtain ⟨⟨d, common', length'⟩, _⟩ := skip_right
    obtain ⟨⟨e, common'', length''⟩, _⟩ := both
    rcases max_choice (max p q) (r + if x = y then 1 else 0) with choice | choice
    · rw [choice]
      rcases max_choice p q with choice' | choice'
      · rw [choice']
        exact ⟨c, ⟨List.sublist_append_of_sublist_left common.1, common.2⟩, length⟩
      · rw [choice']
        exact ⟨d, ⟨common'.1, List.sublist_append_of_sublist_left common'.2⟩, length'⟩
    · rw [choice]
      by_cases same : x = y
      · subst same
        refine ⟨e ++ [x], ⟨common''.1.append (List.Sublist.refl _),
          common''.2.append (List.Sublist.refl _)⟩, ?_⟩
        rw [if_pos rfl, List.length_append, length'']
        rfl
      · rw [if_neg same]
        exact ⟨e, common_grow common'', length''⟩
  · intro c common
    rcases common_snoc common with inside | inside | ⟨d, inside, same, length⟩
    · have upper := skip_left.2 c inside
      omega
    · have upper := skip_right.2 c inside
      omega
    · have upper := both.2 d inside
      rw [if_pos same]
      omega

end Subsequence
