import Mathlib.Order.Lattice

/-!
First fit among intervals that are sorted and apart. A region that starts at `p` ends at
`reach p`; the search starts again behind every interval that is in its way.
-/
namespace FirstFit

variable {ι α : Type} [LinearOrder α] (lo hi : ι → α)

def Apart (taken : List ι) (p stop : α) : Prop := ∀ a ∈ taken, stop ≤ lo a ∨ hi a ≤ p

structure Sorted (taken : List ι) : Prop where
  nonempty : ∀ a ∈ taken, lo a < hi a
  ordered : taken.Pairwise fun a b => hi a ≤ lo b

def search (reach : α → α) : List ι → α → α
  | [], p => p
  | a :: rest, p =>
    if reach p ≤ lo a then p
    else if hi a ≤ p then search reach rest p
    else search reach rest (hi a)

variable {lo hi} {reach : α → α} {taken : List ι}

theorem Sorted.tail {a : ι} (sorted : Sorted lo hi (a :: taken)) : Sorted lo hi taken :=
  ⟨fun b hb => sorted.nonempty b (List.mem_cons_of_mem _ hb),
    (List.pairwise_cons.mp sorted.ordered).2⟩

theorem apart_nil (p stop : α) : Apart lo hi [] p stop := fun _ h => absurd h List.not_mem_nil

theorem search_after (p : α) : p ≤ search lo hi reach taken p := by
  induction taken generalizing p with
  | nil => exact le_refl p
  | cons a rest ih =>
    rw [search]
    split
    · exact le_refl p
    · split
      · exact ih p
      · rename_i blocked
        exact le_trans (le_of_lt (not_le.mp blocked)) (ih (hi a))

theorem search_apart (sorted : Sorted lo hi taken) (p : α) :
    Apart lo hi taken (search lo hi reach taken p) (reach (search lo hi reach taken p)) := by
  induction taken generalizing p with
  | nil => exact apart_nil _ _
  | cons a rest ih =>
    have gaps := (List.pairwise_cons.mp sorted.ordered).1
    intro b hb
    rw [search]
    split
    · rename_i before
      rcases List.mem_cons.mp hb with rfl | later
      · exact .inl before
      · have nonempty := sorted.nonempty a List.mem_cons_self
        exact .inl (le_trans before (le_trans (le_of_lt nonempty) (gaps b later)))
    · split
      · rename_i behind
        rcases List.mem_cons.mp hb with rfl | later
        · exact .inr (le_trans behind (search_after p))
        · exact ih sorted.tail p b later
      · rcases List.mem_cons.mp hb with rfl | later
        · exact .inr (search_after (hi b))
        · exact ih sorted.tail (hi a) b later

/-- No region at or after the first address that is apart from all intervals starts earlier. -/
theorem search_lowest (mono : ∀ p q, p ≤ q → reach p ≤ reach q) {p q : α} (after : p ≤ q)
    (apart : Apart lo hi taken q (reach q)) : search lo hi reach taken p ≤ q := by
  induction taken generalizing p with
  | nil => exact after
  | cons a rest ih =>
    have later : Apart lo hi rest q (reach q) := fun b hb => apart b (List.mem_cons_of_mem _ hb)
    rw [search]
    split
    · exact after
    · rename_i overlaps
      split
      · exact ih after later
      · have reaches := lt_of_lt_of_le (not_le.mp overlaps) (mono p q after)
        have behind := (apart a List.mem_cons_self).resolve_left (not_le.mpr reaches)
        exact ih behind later

end FirstFit
