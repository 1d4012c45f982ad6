import Mathlib.Logic.Function.Basic
import Mathlib.Data.List.Basic
import Mathlib.Data.List.Nodup
import Mathlib.Data.List.Perm.Basic

/-!
Tables of words that link to further tables, all of them pages of one memory. The pages below a
root, the words at the ends of the paths, and what a change to one page does to them.
-/
namespace TableTree

variable {Word : Type}

abbrev Mem (Word : Type) := Nat → Nat → Word

def setWord (mem : Mem Word) (p i : Nat) (w : Word) : Mem Word :=
  Function.update mem p (Function.update (mem p) i w)

@[simp] theorem set_word_here (mem : Mem Word) (p i : Nat) (w : Word) :
    setWord mem p i w p i = w := by
  simp [setWord]

theorem set_word_slot {mem : Mem Word} {p i j : Nat} {w : Word} (ne : j ≠ i) :
    setWord mem p i w p j = mem p j := by
  simp [setWord, ne]

theorem set_word_page {mem : Mem Word} {p q i : Nat} {w : Word} (ne : q ≠ p) :
    setWord mem p i w q = mem q := by
  simp [setWord, ne]

section Shape

variable (next : Word → Option Nat) (slots : Nat)

/-- The tables below `p`, which has `d` further levels. -/
def tables (mem : Mem Word) : Nat → Nat → List Nat
  | 0, p => [p]
  | d + 1, p =>
    p :: (List.range slots).flatMap fun i => ((next (mem p i)).map (tables mem d)).getD []

def branch (mem : Mem Word) (d p i : Nat) : List Nat :=
  ((next (mem p i)).map (tables next slots mem d)).getD []

def walk (mem : Mem Word) : List Nat → Nat → Option Nat
  | [], p => some p
  | i :: path, p => (next (mem p i)).bind (walk mem path)

/-- The word at the end of a path, `empty` where a table is missing. -/
def entry (empty : Word) (mem : Mem Word) (p : Nat) (path : List Nat) (last : Nat) : Word :=
  ((walk next mem path p).map fun q => mem q last).getD empty

/-- Every word below `p` meets `ok` of its level and its slot. -/
def All (ok : Nat → Nat → Word → Prop) (mem : Mem Word) : Nat → Nat → Prop
  | 0, p => ∀ i < slots, ok 0 i (mem p i)
  | d + 1, p => ∀ i < slots, ok (d + 1) i (mem p i) ∧
      ∀ q, next (mem p i) = some q → All ok mem d q

def Inside (d : Nat) (path : List Nat) : Prop := path.length = d ∧ ∀ i ∈ path, i < slots

end Shape

variable {next : Word → Option Nat} {slots : Nat} {mem mem' : Mem Word} {d p q i : Nat}
  {path path' : List Nat} {empty w : Word} {ok : Nat → Nat → Word → Prop}

theorem inside_cons : Inside slots (d + 1) (i :: path) ↔ i < slots ∧ Inside slots d path := by
  simp only [Inside, List.length_cons, List.mem_cons, forall_eq_or_imp, Nat.add_right_cancel_iff]
  exact and_left_comm

theorem inside_zero (inside : Inside slots 0 path) : path = [] :=
  List.length_eq_zero_iff.mp inside.1

theorem inside_succ (inside : Inside slots (d + 1) path) :
    ∃ i rest, path = i :: rest ∧ i < slots ∧ Inside slots d rest := by
  cases path with
  | nil => cases inside.1
  | cons i rest => exact ⟨i, rest, rfl, inside_cons.mp inside⟩

theorem tables_root : p ∈ tables next slots mem d p := by
  cases d <;> simp [tables]

theorem tables_succ : tables next slots mem (d + 1) p =
    p :: (List.range slots).flatMap (branch next slots mem d p) := rfl

theorem mem_tables_succ : q ∈ tables next slots mem (d + 1) p ↔
    q = p ∨ ∃ i < slots, ∃ c, next (mem p i) = some c ∧ q ∈ tables next slots mem d c := by
  simp only [tables, List.mem_cons, List.mem_flatMap, List.mem_range]
  refine or_congr_right (exists_congr fun i => and_congr_right fun _ => ?_)
  cases next (mem p i) <;> simp

theorem child_inside {c : Nat} (inside : i < slots) (link : next (mem p i) = some c)
    (mem_q : q ∈ tables next slots mem d c) : q ∈ tables next slots mem (d + 1) p :=
  mem_tables_succ.mpr (.inr ⟨i, inside, c, link, mem_q⟩)

theorem tables_congr (same : ∀ q ∈ tables next slots mem d p, mem' q = mem q) :
    tables next slots mem' d p = tables next slots mem d p := by
  induction d generalizing p with
  | zero => rfl
  | succ d ih =>
    simp only [tables, same p tables_root]
    congr 1
    refine List.flatMap_congr fun i hi => ?_
    cases link : next (mem p i) with
    | none => rfl
    | some c =>
      exact ih fun q hq => same q (child_inside (List.mem_range.mp hi) link hq)

theorem walk_congr (same : ∀ q ∈ tables next slots mem d p, mem' q = mem q)
    (inside : Inside slots d path) : walk next mem' path p = walk next mem path p := by
  induction d generalizing p path with
  | zero =>
    rw [inside_zero inside]
    rfl
  | succ d ih =>
    obtain ⟨i, rest, rfl, here, inside⟩ := inside_succ inside
    simp only [walk, same p tables_root]
    cases link : next (mem p i) with
    | none => rfl
    | some c => exact ih (fun q hq => same q (child_inside here link hq)) inside

theorem walk_mem (inside : Inside slots d path) (reached : walk next mem path p = some q) :
    q ∈ tables next slots mem d p := by
  induction d generalizing p path with
  | zero =>
    rw [inside_zero inside, walk] at reached
    cases reached
    exact tables_root
  | succ d ih =>
    obtain ⟨i, rest, rfl, here, inside⟩ := inside_succ inside
    obtain ⟨c, link, reached⟩ := Option.bind_eq_some_iff.mp reached
    exact child_inside here link (ih inside reached)

theorem entry_congr {last : Nat} (same : ∀ q ∈ tables next slots mem d p, mem' q = mem q)
    (inside : Inside slots d path) :
    entry next empty mem' p path last = entry next empty mem p path last := by
  rw [entry, entry, walk_congr same inside]
  cases reached : walk next mem path p with
  | none => rfl
  | some q => simp only [Option.map_some, Option.getD_some, same q (walk_mem inside reached)]

theorem all_congr (same : ∀ q ∈ tables next slots mem d p, mem' q = mem q)
    (all : All next slots ok mem d p) : All next slots ok mem' d p := by
  induction d generalizing p with
  | zero =>
    intro i hi
    rw [same p tables_root]
    exact all i hi
  | succ d ih =>
    intro i hi
    obtain ⟨here, below⟩ := all i hi
    rw [same p tables_root]
    refine ⟨here, fun c link => ?_⟩
    exact ih (fun q hq => same q (child_inside hi link hq)) (below c link)

section Distinct

variable {c : Nat}

theorem children_apart {j b : Nat} (nodup : (tables next slots mem (d + 1) p).Nodup)
    (hi : i < slots) (hj : j < slots) (ne : i ≠ j) (left : next (mem p i) = some b)
    (right : next (mem p j) = some c) (at_left : q ∈ tables next slots mem d b) :
    q ∉ tables next slots mem d c := by
  have apart := (List.nodup_flatMap.mp (List.nodup_cons.mp nodup).2).2
  have distinct := (List.pairwise_iff_getElem.mp apart)
  intro at_right
  have both : ∀ {i j : Nat}, i < j → j < slots →
      List.Disjoint (((next (mem p i)).map (tables next slots mem d)).getD [])
        (((next (mem p j)).map (tables next slots mem d)).getD []) := by
    intro i j less bound
    have := distinct i j (by simpa using Nat.lt_trans less bound) (by simpa using bound) less
    simpa using this
  rcases Nat.lt_or_gt_of_ne ne with less | less
  · refine both less hj ?_ ?_ (a := q)
    · simpa [left] using at_left
    · simpa [right] using at_right
  · refine both less hi ?_ ?_ (a := q)
    · simpa [right] using at_right
    · simpa [left] using at_left

theorem root_apart (nodup : (tables next slots mem (d + 1) p).Nodup) (here : i < slots)
    (link : next (mem p i) = some c) : p ∉ tables next slots mem d c := by
  intro below
  refine (List.nodup_cons.mp nodup).1 (List.mem_flatMap.mpr ⟨i, List.mem_range.mpr here, ?_⟩)
  simpa [link] using below

theorem child_nodup (nodup : (tables next slots mem (d + 1) p).Nodup) (here : i < slots)
    (link : next (mem p i) = some c) : (tables next slots mem d c).Nodup := by
  have each := (List.nodup_flatMap.mp (List.nodup_cons.mp nodup).2).1
  simpa [link] using each i (List.mem_range.mpr here)

end Distinct

section Change

theorem flat_map_grown {f g : Nat → List Nat} {l new : List Nat} (nodup : l.Nodup) (mem_i : i ∈ l)
    (grown : (g i).Perm (f i ++ new)) (rest : ∀ j ∈ l, j ≠ i → g j = f j) :
    (l.flatMap g).Perm (l.flatMap f ++ new) := by
  induction l with
  | nil => cases mem_i
  | cons a l ih =>
    obtain ⟨fresh, nodup⟩ := List.nodup_cons.mp nodup
    simp only [List.flatMap_cons]
    rcases List.mem_cons.mp mem_i with rfl | later
    · have same : l.flatMap g = l.flatMap f :=
        List.flatMap_congr fun j hj => rest j (List.mem_cons_of_mem _ hj) fun eq => fresh (eq ▸ hj)
      rw [same]
      refine (grown.append_right _).trans ?_
      rw [List.append_assoc, List.append_assoc]
      exact List.Perm.append_left _ List.perm_append_comm
    · have here : g a = f a :=
        rest a List.mem_cons_self fun eq => fresh (eq ▸ later)
      rw [here, List.append_assoc]
      exact List.Perm.append_left _
        (ih nodup later fun j hj => rest j (List.mem_cons_of_mem _ hj))

/-- The tables below `p` gain the pages `new`, and nothing else is written. -/
structure Grows (next : Word → Option Nat) (slots : Nat) (ok : Nat → Nat → Word → Prop)
    (empty : Word) (mem mem' : Mem Word) (d p : Nat) (new : List Nat) : Prop where
  tables : (tables next slots mem' d p).Perm (tables next slots mem d p ++ new)
  frame : ∀ q, q ∉ TableTree.tables next slots mem d p → q ∉ new → mem' q = mem q
  entries : ∀ path last, Inside slots d path → last < slots →
    entry next empty mem' p path last = entry next empty mem p path last
  all : All next slots ok mem d p → All next slots ok mem' d p

variable {new new' : List Nat} {c : Nat} {mem'' : Mem Word}

theorem Grows.refl : Grows next slots ok empty mem mem d p [] where
  tables := by rw [List.append_nil]
  frame := fun _ _ _ => rfl
  entries := fun _ _ _ _ => rfl
  all := id

theorem Grows.trans (first : Grows next slots ok empty mem mem' d p new)
    (second : Grows next slots ok empty mem' mem'' d p new') :
    Grows next slots ok empty mem mem'' d p (new ++ new') where
  tables := by
    rw [← List.append_assoc]
    exact second.tables.trans (first.tables.append_right new')
  frame := by
    intro q out fresh
    rw [List.mem_append, not_or] at fresh
    rw [second.frame q ?_ fresh.2, first.frame q out fresh.1]
    rw [first.tables.mem_iff, List.mem_append, not_or]
    exact ⟨out, fresh.1⟩
  entries := fun path last inside small =>
    (second.entries path last inside small).trans (first.entries path last inside small)
  all := second.all ∘ first.all

theorem Grows.elsewhere (grows : Grows next slots ok empty mem mem' d c new)
    (nodup : (TableTree.tables next slots mem (d + 1) p).Nodup)
    (fresh : ∀ q ∈ new, q ∉ TableTree.tables next slots mem (d + 1) p) (here : i < slots)
    (link : next (mem p i) = some c) : mem' p = mem p ∧
      ∀ j b, j < slots → j ≠ i → next (mem p j) = some b →
        ∀ q ∈ TableTree.tables next slots mem d b, mem' q = mem q := by
  refine ⟨grows.frame p (root_apart nodup here link) fun new => fresh p new tables_root, ?_⟩
  intro j b inside ne other q below
  exact grows.frame q (children_apart nodup inside here ne other link below)
    fun new => fresh q new (child_inside inside other below)

theorem Grows.lift (grows : Grows next slots ok empty mem mem' d c new)
    (nodup : (TableTree.tables next slots mem (d + 1) p).Nodup)
    (fresh : ∀ q ∈ new, q ∉ TableTree.tables next slots mem (d + 1) p) (here : i < slots)
    (link : next (mem p i) = some c) : Grows next slots ok empty mem mem' (d + 1) p new := by
  obtain ⟨root, others⟩ := grows.elsewhere nodup fresh here link
  refine ⟨?_, ?_, ?_, ?_⟩
  · simp only [TableTree.tables, root, List.cons_append]
    refine List.Perm.cons p ?_
    refine flat_map_grown List.nodup_range (List.mem_range.mpr here) ?_ ?_
    · simpa only [link, Option.map_some, Option.getD_some] using grows.tables
    · intro j inside ne
      cases other : next (mem p j) with
      | none => rfl
      | some b => exact tables_congr (others j b (List.mem_range.mp inside) ne other)
  · intro q out
    exact grows.frame q fun below => out (child_inside here link below)
  · intro path last inside small
    obtain ⟨j, rest, rfl, inside_j, inside⟩ := inside_succ inside
    by_cases same : j = i
    · subst same
      have below := grows.entries rest last inside small
      simpa only [entry, walk, root, link, Option.bind_some] using below
    · simp only [entry, walk, root]
      cases other : next (mem p j) with
      | none => rfl
      | some b => exact entry_congr (others j b inside_j same other) inside
  · intro all j inside
    obtain ⟨word, below⟩ := all j inside
    rw [root]
    refine ⟨word, fun b other => ?_⟩
    by_cases same : j = i
    · subst same
      rw [link] at other
      cases other
      exact grows.all (below c link)
    · exact all_congr (others j b inside same other) (below b other)

theorem tables_unlinked (unlinked : ∀ j < slots, next (mem q j) = none) :
    tables next slots mem d q = [q] := by
  cases d with
  | zero => rfl
  | succ d =>
    have none_below : ∀ j ∈ List.range slots, branch next slots mem d q j = [] := by
      intro j inside
      rw [branch, unlinked j (List.mem_range.mp inside)]
      rfl
    rw [tables_succ, List.flatMap_eq_nil_iff.mpr none_below]

theorem entry_blank {last : Nat} (blank : ∀ j < slots, mem q j = empty) (ends : next empty = none)
    (inside : Inside slots d path) (small : last < slots) :
    entry next empty mem q path last = empty := by
  cases path with
  | nil => exact blank last small
  | cons j rest =>
    have here : j < slots := inside.2 j List.mem_cons_self
    simp [entry, walk, blank j here, ends]

theorem all_blank (blank : ∀ j < slots, mem q j = empty) (ends : next empty = none)
    (fine : ∀ level < d + 1, ∀ j < slots, ok level j empty) : All next slots ok mem d q := by
  cases d with
  | zero =>
    intro j inside
    rw [blank j inside]
    exact fine 0 (by omega) j inside
  | succ d =>
    intro j inside
    rw [blank j inside]
    refine ⟨fine (d + 1) (by omega) j inside, fun b link => ?_⟩
    rw [ends] at link
    cases link

theorem Grows.link {mem₁ : Mem Word} (nodup : (TableTree.tables next slots mem (d + 1) p).Nodup)
    (here : i < slots) (free : next (mem p i) = none)
    (fresh : q ∉ TableTree.tables next slots mem (d + 1) p) (same : ∀ r, r ≠ q → mem₁ r = mem r)
    (blank : ∀ j < slots, mem₁ q j = empty) (ends : next empty = none) (link : next w = some q)
    (word : ok (d + 1) i w) (fine : ∀ level < d + 1, ∀ j < slots, ok level j empty) :
    Grows next slots ok empty mem (setWord mem₁ p i w) (d + 1) p [q] := by
  have distinct : q ≠ p := fun eq => fresh (eq ▸ tables_root)
  have blank' : ∀ j < slots, setWord mem₁ p i w q j = empty := by
    intro j inside
    rw [set_word_page distinct]
    exact blank j inside
  have slot : ∀ j, j ≠ i → setWord mem₁ p i w p j = mem p j := by
    intro j ne
    rw [set_word_slot ne, same p distinct.symm]
  have others : ∀ j b, j < slots → next (mem p j) = some b →
      ∀ r ∈ TableTree.tables next slots mem d b, setWord mem₁ p i w r = mem r := by
    intro j b inside other r below
    have ne : r ≠ p := fun eq => root_apart nodup inside other (eq ▸ below)
    rw [set_word_page ne]
    exact same r fun eq => fresh (eq ▸ child_inside inside other below)
  refine ⟨?_, ?_, ?_, ?_⟩
  · simp only [TableTree.tables, List.cons_append]
    refine List.Perm.cons p ?_
    refine flat_map_grown List.nodup_range (List.mem_range.mpr here) ?_ ?_
    · simp only [set_word_here, link, free, Option.map_some, Option.map_none, Option.getD_some,
        Option.getD_none, tables_unlinked fun j small => (blank' j small).symm ▸ ends]
      exact List.Perm.refl _
    · intro j inside ne
      rw [slot j ne]
      cases other : next (mem p j) with
      | none => rfl
      | some b => exact tables_congr (others j b (List.mem_range.mp inside) other)
  · intro r out new
    have ne : r ≠ p := fun eq => out (eq ▸ tables_root)
    rw [set_word_page ne, same r fun eq => new (List.mem_singleton.mpr eq)]
  · intro path last inside small
    obtain ⟨j, rest, rfl, inside_j, inside⟩ := inside_succ inside
    by_cases at_slot : j = i
    · subst at_slot
      have below := entry_blank blank' ends inside small
      simpa only [entry, walk, set_word_here, link, free, Option.bind_some, Option.bind_none,
        Option.map_none, Option.getD_none] using below
    · simp only [entry, walk, slot j at_slot]
      cases other : next (mem p j) with
      | none => rfl
      | some b => exact entry_congr (others j b inside_j other) inside
  · intro all j inside
    obtain ⟨old, below⟩ := all j inside
    by_cases at_slot : j = i
    · subst at_slot
      rw [set_word_here]
      refine ⟨word, fun b chosen => ?_⟩
      rw [link] at chosen
      cases chosen
      exact all_blank blank' ends fine
    · rw [slot j at_slot]
      exact ⟨old, fun b other => all_congr (others j b inside other) (below b other)⟩

/-- The word at the end of one path is written, and nothing else below `p` changes. -/
structure Stores (next : Word → Option Nat) (slots : Nat) (ok : Nat → Nat → Word → Prop)
    (empty : Word) (mem mem' : Mem Word) (d p : Nat) (path : List Nat) (last : Nat) (w : Word) :
    Prop where
  tables : tables next slots mem' d p = tables next slots mem d p
  here : entry next empty mem' p path last = w
  entries : ∀ path' last', Inside slots d path' → last' < slots → ¬(path' = path ∧ last' = last) →
    entry next empty mem' p path' last' = entry next empty mem p path' last'
  all : ok 0 last w → All next slots ok mem d p → All next slots ok mem' d p

theorem stores_word {last : Nat} (nodup : (TableTree.tables next slots mem d p).Nodup)
    (inside : Inside slots d path) (reached : walk next mem path p = some q) :
    Stores next slots ok empty mem (setWord mem q last w) d p path last w := by
  induction d generalizing p path with
  | zero =>
    obtain rfl := inside_zero inside
    cases reached
    refine ⟨rfl, by simp [entry, walk], ?_, ?_⟩
    · intro path' last' inside' small other
      obtain rfl := inside_zero inside'
      have ne : last' ≠ last := fun eq => other ⟨rfl, eq⟩
      simp [entry, walk, set_word_slot ne]
    · intro word all j small
      by_cases same : j = last
      · subst same
        rw [set_word_here]
        exact word
      · rw [set_word_slot same]
        exact all j small
  | succ d ih =>
    obtain ⟨i, rest, rfl, here, inside⟩ := inside_succ inside
    obtain ⟨c, link, reached⟩ := Option.bind_eq_some_iff.mp reached
    have stores := ih (child_nodup nodup here link) inside reached
    have below := walk_mem inside reached
    have root : setWord mem q last w p = mem p :=
      set_word_page fun eq => root_apart nodup here link (eq ▸ below)
    have others : ∀ j b, j < slots → j ≠ i → next (mem p j) = some b →
        ∀ r ∈ TableTree.tables next slots mem d b, setWord mem q last w r = mem r :=
      fun j b small ne other r at_r => set_word_page fun eq =>
        children_apart nodup here small ne.symm link other below (eq ▸ at_r)
    refine ⟨?_, ?_, ?_, ?_⟩
    · simp only [TableTree.tables, root]
      congr 1
      refine List.flatMap_congr fun j hj => ?_
      cases other : next (mem p j) with
      | none => rfl
      | some b =>
        by_cases same : j = i
        · subst same
          rw [link] at other
          cases other
          exact stores.tables
        · exact tables_congr (others j b (List.mem_range.mp hj) same other)
    · simpa only [entry, walk, root, link, Option.bind_some] using stores.here
    · intro path' last' inside' small other
      obtain ⟨j, rest', rfl, inside_j, inside'⟩ := inside_succ inside'
      by_cases same : j = i
      · subst same
        have kept := stores.entries rest' last' inside' small fun eq => other ⟨by rw [eq.1], eq.2⟩
        simpa only [entry, walk, root, link, Option.bind_some] using kept
      · simp only [entry, walk, root]
        cases chosen : next (mem p j) with
        | none => rfl
        | some b => exact entry_congr (others j b inside_j same chosen) inside'
    · intro word all j small
      obtain ⟨old, later⟩ := all j small
      rw [root]
      refine ⟨old, fun b chosen => ?_⟩
      by_cases same : j = i
      · subst same
        rw [link] at chosen
        cases chosen
        exact stores.all word (later c link)
      · exact all_congr (others j b small same chosen) (later b chosen)

end Change

end TableTree
