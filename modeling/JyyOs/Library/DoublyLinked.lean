import Mathlib.Logic.Function.Basic
import Mathlib.Data.List.Induction
import Mathlib.Data.List.Nodup

/-!
Doubly linked lists ended by 0. The head of a list counts as what follows 0 and its tail as what
precedes 0, so that an insertion at either end is an insertion between two nodes.
-/
namespace DoublyLinked

def Links (next prev : Nat → Nat) : List Nat → Prop
  | x :: y :: rest => next x = y ∧ prev y = x ∧ Links next prev (y :: rest)
  | _ => True

structure Ring (next prev : Nat → Nat) (list : List Nat) : Prop where
  links : Links next prev (0 :: (list ++ [0]))
  nodup : list.Nodup
  real : 0 ∉ list

variable {next prev next' prev' : Nat → Nat} {list : List Nat}

theorem links_append {front back : List Nat} {x : Nat} :
    Links next prev (front ++ x :: back) ↔
      Links next prev (front ++ [x]) ∧ Links next prev (x :: back) := by
  induction front with
  | nil => simp [Links]
  | cons a front ih =>
    cases front with
    | nil => simp [Links, and_assoc]
    | cons b front =>
      simp only [List.cons_append, Links] at ih ⊢
      rw [ih, and_assoc, and_assoc]

theorem links_congr (links : Links next prev list)
    (same_next : ∀ x ∈ list.dropLast, next' x = next x)
    (same_prev : ∀ x ∈ list.tail, prev' x = prev x) : Links next' prev' list := by
  induction list with
  | nil => trivial
  | cons x rest ih =>
    cases rest with
    | nil => trivial
    | cons y rest =>
      obtain ⟨forth, back, later⟩ := links
      refine ⟨?_, ?_, ih later ?_ ?_⟩
      · rw [same_next x List.mem_cons_self, forth]
      · rw [same_prev y List.mem_cons_self, back]
      · exact fun z hz => same_next z (List.mem_cons_of_mem _ hz)
      · exact fun z hz => same_prev z (List.mem_cons_of_mem _ hz)

theorem links_next {x : Nat} {rest : List Nat} (links : Links next prev (x :: (rest ++ [0]))) :
    next x = rest.headD 0 ∧ Links next prev (rest ++ [0]) := by
  cases rest with
  | nil => exact ⟨links.1, links.2.2⟩
  | cons y rest => exact ⟨links.1, links.2.2⟩

theorem links_prev {front back : List Nat} {x : Nat}
    (links : Links next prev (0 :: (front ++ x :: back))) : prev x = front.getLastD 0 := by
  induction front using List.reverseRecOn with
  | nil => exact links.2.1
  | append_singleton front y =>
    rw [List.append_assoc, ← List.cons_append] at links
    have pair := (links_append.mp links).2
    rw [List.getLastD_concat]
    exact pair.2.1

theorem ring_empty (head : next 0 = 0) (tail : prev 0 = 0) : Ring next prev [] :=
  ⟨⟨head, tail, trivial⟩, List.nodup_nil, List.not_mem_nil⟩

theorem ring_head (ring : Ring next prev list) : next 0 = list.headD 0 :=
  (links_next ring.links).1

theorem ring_tail (ring : Ring next prev list) : prev 0 = list.getLastD 0 :=
  links_prev (show Links next prev (0 :: (list ++ 0 :: [])) from ring.links)

theorem links_unique {x : Nat} {rest rest' : List Nat}
    (links : Links next prev (x :: (rest ++ [0]))) (links' : Links next prev' (x :: (rest' ++ [0])))
    (real : 0 ∉ rest) (real' : 0 ∉ rest') : rest = rest' := by
  induction rest generalizing x rest' with
  | nil =>
    cases rest' with
    | nil => rfl
    | cons y rest' => exact absurd (links.1.symm.trans links'.1 ▸ List.mem_cons_self) real'
  | cons y rest ih =>
    cases rest' with
    | nil => exact absurd (links'.1.symm.trans links.1 ▸ List.mem_cons_self) real
    | cons y' rest' =>
      obtain rfl := links.1.symm.trans links'.1
      rw [ih links.2.2 links'.2.2 (fun h => real (List.mem_cons_of_mem _ h))
        fun h => real' (List.mem_cons_of_mem _ h)]

theorem ring_congr (ring : Ring next prev list) (same_head : next' 0 = next 0)
    (same_tail : prev' 0 = prev 0) (same_next : ∀ x ∈ list, next' x = next x)
    (same_prev : ∀ x ∈ list, prev' x = prev x) : Ring next' prev' list := by
  refine ⟨links_congr ring.links ?_ ?_, ring.nodup, ring.real⟩
  · intro x hx
    rw [← List.cons_append, List.dropLast_concat] at hx
    rcases List.mem_cons.mp hx with rfl | inside
    · exact same_head
    · exact same_next x inside
  · intro x hx
    rcases List.mem_append.mp hx with inside | last
    · exact same_prev x inside
    · rw [List.mem_singleton] at last
      exact last ▸ same_tail

theorem links_insert {front back : List Nat} {x p z : Nat}
    (links : Links next prev (front ++ x :: z :: back)) (forth : next' x = p) (back_p : prev' p = x)
    (forth_p : next' p = z) (back_z : prev' z = p)
    (same_next : ∀ y ∈ front ++ (z :: back).dropLast, next' y = next y)
    (same_prev : ∀ y ∈ (front ++ [x]).tail ++ back, prev' y = prev y) :
    Links next' prev' (front ++ x :: p :: z :: back) := by
  obtain ⟨before, pair⟩ := links_append.mp links
  refine links_append.mpr ⟨links_congr before ?_ ?_, forth, back_p, forth_p, back_z, ?_⟩
  · intro y hy
    rw [List.dropLast_concat] at hy
    exact same_next y (List.mem_append_left _ hy)
  · exact fun y hy => same_prev y (List.mem_append_left _ hy)
  · refine links_congr pair.2.2 ?_ ?_
    · exact fun y hy => same_next y (List.mem_append_right _ hy)
    · exact fun y hy => same_prev y (List.mem_append_right _ hy)

theorem split_last (front : List Nat) : ∃ init, 0 :: front = init ++ [front.getLastD 0] := by
  induction front using List.reverseRecOn with
  | nil => exact ⟨[], rfl⟩
  | append_singleton front y =>
    rw [List.getLastD_concat]
    exact ⟨0 :: front, rfl⟩

theorem split_head (back : List Nat) : ∃ rest, back ++ [0] = back.headD 0 :: rest := by
  cases back with
  | nil => exact ⟨[], rfl⟩
  | cons y rest => exact ⟨rest ++ [0], rfl⟩

theorem beside {front back : List Nat} {a y : Nat} (nodup : (front ++ a :: back).Nodup)
    (hy : y ∈ front ++ back) : y ∈ front ++ a :: back ∧ y ≠ a := by
  obtain ⟨new, _⟩ := List.nodup_cons.mp (List.nodup_middle.mp nodup)
  refine ⟨?_, fun same => new (same ▸ hy)⟩
  rw [List.mem_append, List.mem_cons]
  rcases List.mem_append.mp hy with left | right
  · exact .inl left
  · exact .inr (.inr right)

theorem ring_insert {front back : List Nat} {p : Nat} (ring : Ring next prev (front ++ back))
    (real : p ≠ 0) (fresh : p ∉ front ++ back) (forth : next' (front.getLastD 0) = p)
    (back_p : prev' p = front.getLastD 0) (forth_p : next' p = back.headD 0)
    (back_z : prev' (back.headD 0) = p)
    (same_next : ∀ y, y ≠ p → y ≠ front.getLastD 0 → next' y = next y)
    (same_prev : ∀ y, y ≠ p → y ≠ back.headD 0 → prev' y = prev y) :
    Ring next' prev' (front ++ p :: back) := by
  obtain ⟨init, before⟩ := split_last front
  obtain ⟨rest, after⟩ := split_head back
  obtain ⟨links, nodup, zero⟩ := ring
  have opened : 0 :: (front ++ back) = init ++ front.getLastD 0 :: back := by
    rw [← List.cons_append, before, List.append_assoc]
    rfl
  have closed : front ++ back ++ [0] = front ++ back.headD 0 :: rest := by
    rw [List.append_assoc, after]
  have ahead := opened ▸ List.nodup_cons.mpr ⟨zero, nodup⟩
  have behind : (front ++ back.headD 0 :: rest).Nodup := by
    rw [← closed]
    exact List.nodup_append_comm.mp (List.nodup_cons.mpr ⟨zero, nodup⟩)
  have whole : Links next prev (init ++ front.getLastD 0 :: back.headD 0 :: rest) := by
    have shape : 0 :: (front ++ back ++ [0]) = init ++ front.getLastD 0 :: back.headD 0 :: rest := by
      rw [← after, List.append_assoc, ← List.cons_append, before, List.append_assoc]
      rfl
    exact shape ▸ links
  have joined := links_insert whole forth back_p forth_p back_z ?_ ?_
  · refine ⟨?_, ?_, ?_⟩
    · have shape : 0 :: (front ++ p :: back ++ [0]) =
          init ++ front.getLastD 0 :: p :: back.headD 0 :: rest := by
        rw [← after, List.append_assoc, ← List.cons_append, before, List.append_assoc]
        rfl
      exact shape ▸ joined
    · exact List.nodup_middle.mpr (List.nodup_cons.mpr ⟨fresh, nodup⟩)
    · intro inside
      rcases List.mem_append.mp inside with left | right
      · exact zero (List.mem_append_left _ left)
      · rcases List.mem_cons.mp right with same | right
        · exact real same.symm
        · exact zero (List.mem_append_right _ right)
  · intro y hy
    rw [← after, List.dropLast_concat] at hy
    obtain ⟨inside, away⟩ := beside ahead hy
    rw [← opened] at inside
    refine same_next y ?_ away
    rintro rfl
    rcases List.mem_cons.mp inside with zero | inside
    · exact real zero
    · exact fresh inside
  · intro y hy
    rw [← before, List.tail_cons] at hy
    obtain ⟨inside, away⟩ := beside behind hy
    rw [← closed] at inside
    refine same_prev y ?_ away
    rintro rfl
    rcases List.mem_append.mp inside with inside | zero
    · exact fresh inside
    · exact real (List.mem_singleton.mp zero)

end DoublyLinked
