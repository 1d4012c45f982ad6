import JyyOs.Uproc.VmaList
import JyyOs.Library.LinkedList

/-!
find_vme_node on a list of areas sorted by address: it returns the only area that contains the
range, or NULL where there is none.
-/
namespace VmaList

open Uproc LinkedList

variable {s : AreaHeap} {a b cur fuel : Nat} {ps : List Nat}

def Contains (s : AreaHeap) (a b p : Nat) : Prop :=
  (s.area p).vmStart ≤ a ∧ b ≤ (s.area p).vmEnd

/-- Along the list every area ends before the next ones begin. -/
def SortedAreas (s : AreaHeap) (ps : List Nat) : Prop :=
  ps.Pairwise fun p q => (s.area p).vmEnd ≤ (s.area q).vmStart

/-- The node is the one area of the list that contains the range, or NULL and there is none. -/
def Exact (s : AreaHeap) (a b : Nat) (ps : List Nat) (found : Nat) : Prop :=
  (found ∈ ps ∧ Contains s a b found ∧ ∀ p ∈ ps, Contains s a b p → p = found) ∨
    (found = 0 ∧ ∀ p ∈ ps, ¬Contains s a b p)

theorem none_behind {p : Nat} (before : ∀ q ∈ ps, (s.area p).vmEnd ≤ (s.area q).vmStart)
    (beyond : a < (s.area p).vmEnd) : ∀ q ∈ ps, ¬Contains s a b q := by
  intro q hq contains
  have gap := before q hq
  have lower := contains.1
  omega

theorem exact_here (range : a < b) (before : ∀ q ∈ ps, (s.area cur).vmEnd ≤ (s.area q).vmStart)
    (contains : Contains s a b cur) : Exact s a b (cur :: ps) cur := by
  refine .inl ⟨List.mem_cons_self, contains, fun p hp here => ?_⟩
  rcases List.mem_cons.mp hp with rfl | later
  · rfl
  · have beyond : a < (s.area cur).vmEnd := Nat.lt_of_lt_of_le range contains.2
    exact absurd here (none_behind before beyond p later)

theorem exact_behind {found : Nat} (uncovered : ¬Contains s a b cur)
    (later : Exact s a b ps found) : Exact s a b (cur :: ps) found := by
  rcases later with ⟨mem, contains, only⟩ | ⟨null, absent⟩
  · refine .inl ⟨List.mem_cons_of_mem _ mem, contains, fun p hp here => ?_⟩
    rcases List.mem_cons.mp hp with rfl | hp
    · exact absurd here uncovered
    · exact only p hp here
  · refine .inr ⟨null, fun p hp => ?_⟩
    rcases List.mem_cons.mp hp with rfl | hp
    · exact uncovered
    · exact absent p hp

theorem find_walk_exact (linked : Linked s.vmNext 0 cur ps) (sorted : SortedAreas s ps)
    (range : a < b) (enough : ps.length < fuel) :
    ∃ found, findWalk s a b fuel cur = some found ∧ Exact s a b ps found := by
  induction ps generalizing cur fuel with
  | nil =>
    obtain ⟨fuel, rfl⟩ := Nat.exists_eq_succ_of_ne_zero (Nat.ne_of_gt enough)
    have ended : cur = 0 := linked
    refine ⟨0, ?_, .inr ⟨rfl, by simp⟩⟩
    rw [findWalk, if_pos ended]
  | cons p rest ih =>
    obtain ⟨rfl, real, later⟩ := linked
    obtain ⟨before, sorted⟩ := List.pairwise_cons.mp sorted
    rw [List.length_cons] at enough
    obtain ⟨fuel, rfl⟩ := Nat.exists_eq_succ_of_ne_zero (show fuel ≠ 0 by omega)
    rw [findWalk, if_neg real]
    split
    · rename_i contains
      exact ⟨cur, rfl, exact_here range before contains⟩
    · rename_i uncovered
      split
      · obtain ⟨found, walked, exact⟩ := ih later sorted (show rest.length < fuel by omega)
        exact ⟨found, walked, exact_behind uncovered exact⟩
      · rename_i beyond
        refine ⟨0, rfl, .inr ⟨rfl, fun q hq => ?_⟩⟩
        rcases List.mem_cons.mp hq with rfl | hq
        · exact uncovered
        · exact none_behind before (by omega) q hq

/-- On a sorted list find_vme_node returns the one area that contains the range, else NULL. -/
theorem find_vme_node_exact {t : Nat} (linked : Linked s.vmNext 0 (s.head t) ps)
    (sorted : SortedAreas s ps) (range : a < b) (enough : ps.length < s.rounds) :
    ∃ found, (findVmeNode t a b).run s = .ok (found, s) ∧ Exact s a b ps found := by
  obtain ⟨found, walked, exact⟩ := find_walk_exact linked sorted range enough
  refine ⟨found, ?_, exact⟩
  unfold findVmeNode
  have read : (orStop (findWalk s a b s.rounds (s.head t)) .endless).run s = .ok (found, s) := by
    rw [walked]
    rfl
  exact read

def touchingAreas : AreaHeap :=
  { emptyHeap (fun p => if p = 1 then ⟨0x1000, 0x3000, 0, 0⟩ else ⟨0x3000, 0x4000, 0, 0⟩)
      (fun p => if p = 1 then 2 else 0) (fun _ => 0) (fun _ => 1) (fun _ => 2) with rounds := 3 }

/-- A range across the border of two areas is in none of them. -/
theorem find_vme_node_exact_across_border :
    ∃ found, (findVmeNode 7 0x2000 0x3001).run touchingAreas = .ok (found, touchingAreas) ∧
      Exact touchingAreas 0x2000 0x3001 [1, 2] found :=
  find_vme_node_exact (by simp [Linked, touchingAreas, emptyHeap])
    (by simp [SortedAreas, touchingAreas, emptyHeap]) (by decide) (by decide)

end VmaList
