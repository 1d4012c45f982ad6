import JyyOs.Uproc.VmaList
import JyyOs.Uproc.Placed

/-!
What the functions on VME_AREA nodes do to the lists of the tasks: they compute what the
functions of Uproc.Vma compute on the areas of the nodes, in list order.
-/
namespace VmaList

open Hoare Uproc DoublyLinked

/-- vm_next with vm_area_head behind NULL, and vm_prev with vm_area_tail before it. -/
def AreaHeap.forth (s : AreaHeap) (t : Nat) : Nat → Nat := Function.update s.vmNext 0 (s.head t)

def AreaHeap.back (s : AreaHeap) (t : Nat) : Nat → Nat := Function.update s.vmPrev 0 (s.tail t)

/-- The list of `t` has the nodes `ps`: following vm_next from vm_area_head visits them and ends
    at NULL, vm_prev leads back, and vm_area_tail is the last one. -/
structure Holds (s : AreaHeap) (t : Nat) (ps : List Nat) : Prop where
  ring : Ring (s.forth t) (s.back t) ps
  used : ∀ p ∈ ps, s.used p = true

abbrev areasOf (s : AreaHeap) (ps : List Nat) : List VmArea := ps.map s.area

@[simp] theorem areas_of_nil (s : AreaHeap) : areasOf s [] = [] := rfl

@[simp] theorem areas_of_cons (s : AreaHeap) (p : Nat) (ps : List Nat) :
    areasOf s (p :: ps) = s.area p :: areasOf s ps := rfl

@[simp] theorem areas_of_append (s : AreaHeap) (ps qs : List Nat) :
    areasOf s (ps ++ qs) = areasOf s ps ++ areasOf s qs := List.map_append

variable {s s' : AreaHeap} {t : Nat} {ps : List Nat} {u : Unit}

section Lists

theorem forth_null : s.forth t 0 = s.head t := Function.update_self ..

theorem forth_real {p : Nat} (real : p ≠ 0) : s.forth t p = s.vmNext p :=
  Function.update_of_ne real ..

theorem back_null : s.back t 0 = s.tail t := Function.update_self ..

theorem back_real {p : Nat} (real : p ≠ 0) : s.back t p = s.vmPrev p :=
  Function.update_of_ne real ..

theorem Holds.real (holds : Holds s t ps) : ∀ p ∈ ps, p ≠ 0 :=
  fun _ hp null => holds.ring.real (null ▸ hp)

theorem Holds.head (holds : Holds s t ps) : s.head t = ps.headD 0 := by
  have same := ring_head holds.ring
  rwa [forth_null] at same

theorem Holds.tail (holds : Holds s t ps) : s.tail t = ps.getLastD 0 := by
  have same := ring_tail holds.ring
  rwa [back_null] at same

theorem Holds.head_null (holds : Holds s t ps) : s.head t = 0 ↔ ps = [] := by
  rw [holds.head]
  cases ps with
  | nil => exact ⟨fun _ => rfl, fun _ => rfl⟩
  | cons p rest =>
    refine ⟨fun null => ?_, nofun⟩
    exact absurd (null ▸ List.mem_cons_self) holds.ring.real

theorem Holds.congr (holds : Holds s t ps) (head : s'.head t = s.head t)
    (tail : s'.tail t = s.tail t) (next : ∀ p ∈ ps, s'.vmNext p = s.vmNext p)
    (prev : ∀ p ∈ ps, s'.vmPrev p = s.vmPrev p) (used : ∀ p ∈ ps, s'.used p = s.used p) :
    Holds s' t ps := by
  refine ⟨ring_congr holds.ring ?_ ?_ ?_ ?_, fun p hp => (used p hp).trans (holds.used p hp)⟩
  · rw [forth_null, forth_null, head]
  · rw [back_null, back_null, tail]
  · intro p hp
    rw [forth_real (holds.real p hp), forth_real (holds.real p hp), next p hp]
  · intro p hp
    rw [back_real (holds.real p hp), back_real (holds.real p hp), prev p hp]

theorem holds_unique {ps' : List Nat} (holds : Holds s t ps) (holds' : Holds s t ps') :
    ps = ps' :=
  links_unique holds.ring.links holds'.ring.links holds.ring.real holds'.ring.real

end Lists

section Walks

variable {rest : List Nat}

theorem walk_head {p : Nat} (links : Links (s.forth t) (s.back t) (p :: rest ++ [0]))
    (real : 0 ∉ p :: rest) :
    p ≠ 0 ∧ s.vmNext p = rest.headD 0 ∧ Links (s.forth t) (s.back t) (rest ++ [0]) ∧ 0 ∉ rest := by
  rw [List.mem_cons, not_or] at real
  obtain ⟨follows, later⟩ := links_next links
  refine ⟨Ne.symm real.1, ?_, later, real.2⟩
  rwa [forth_real (Ne.symm real.1)] at follows

theorem suitable_walk {length : Int} (links : Links (s.forth t) (s.back t) (rest ++ [0]))
    (real : 0 ∉ rest) (fuel addr stop : Nat) :
    suitableWalk s length fuel (rest.headD 0) addr stop =
        some (suitableLoop length (areasOf s rest) addr stop) ∨
      suitableWalk s length fuel (rest.headD 0) addr stop = none ∧ fuel ≤ rest.length := by
  induction rest generalizing fuel addr stop with
  | nil =>
    cases fuel with
    | zero => exact .inr ⟨rfl, Nat.le_refl 0⟩
    | succ fuel => exact .inl rfl
  | cons p rest ih =>
    cases fuel with
    | zero => exact .inr ⟨rfl, Nat.zero_le _⟩
    | succ fuel =>
      obtain ⟨p_real, follows, later, rest_real⟩ := walk_head links real
      simp only [List.headD_cons, suitableWalk, if_neg p_real, List.map_cons, suitableLoop, follows]
      split
      · exact .inl rfl
      · split
        · refine (ih later rest_real fuel addr stop).imp_right fun gave => ⟨gave.1, ?_⟩
          exact Nat.succ_le_succ gave.2
        · refine (ih later rest_real fuel _ _).imp_right fun gave => ⟨gave.1, ?_⟩
          exact Nat.succ_le_succ gave.2

theorem find_walk {fuel addr stop found : Nat}
    (links : Links (s.forth t) (s.back t) (rest ++ [0])) (real : 0 ∉ rest)
    (walked : findWalk s addr stop fuel (rest.headD 0) = some found) :
    found = 0 → Uproc.findVmeNode (areasOf s rest) addr stop = none := by
  induction rest generalizing fuel with
  | nil => exact fun _ => rfl
  | cons p rest ih =>
    cases fuel with
    | zero => cases walked
    | succ fuel =>
      obtain ⟨p_real, follows, later, rest_real⟩ := walk_head links real
      simp only [List.headD_cons, findWalk, if_neg p_real, follows] at walked
      simp only [List.map_cons, Uproc.findVmeNode]
      intro null
      split at walked
      · cases walked
        exact absurd null p_real
      · rename_i uncovered
        rw [if_neg uncovered]
        split at walked
        · rename_i behind
          rw [if_pos behind]
          exact ih later rest_real walked null
        · rename_i ahead
          rw [if_neg ahead]

theorem insert_walk (new : VmArea) (fuel : Nat)
    (links : Links (s.forth t) (s.back t) (rest ++ [0])) (real : 0 ∉ rest) :
    (∃ front back, rest = front ++ back ∧
        insertWalk s new fuel (rest.headD 0) = some (some (back.headD 0)) ∧
        Uproc.insertVmeNode (areasOf s rest) new =
          some (areasOf s front ++ new :: areasOf s back)) ∨
      insertWalk s new fuel (rest.headD 0) = some none ∧
        Uproc.insertVmeNode (areasOf s rest) new = none ∨
      insertWalk s new fuel (rest.headD 0) = none ∧ fuel ≤ rest.length := by
  induction rest generalizing fuel with
  | nil =>
    cases fuel with
    | zero => exact .inr (.inr ⟨rfl, Nat.le_refl 0⟩)
    | succ fuel => exact .inl ⟨[], [], rfl, rfl, rfl⟩
  | cons p rest ih =>
    cases fuel with
    | zero => exact .inr (.inr ⟨rfl, Nat.zero_le _⟩)
    | succ fuel =>
      obtain ⟨p_real, follows, later, rest_real⟩ := walk_head links real
      simp only [List.headD_cons, insertWalk, if_neg p_real, List.map_cons, Uproc.insertVmeNode,
        follows]
      split
      · exact .inl ⟨[], p :: rest, rfl, rfl, rfl⟩
      · split
        · rcases ih fuel later rest_real with
            ⟨front, back, rfl, stops, inserted⟩ | ⟨stops, refused⟩ | ⟨gave, short⟩
          · refine .inl ⟨p :: front, back, rfl, stops, ?_⟩
            rw [inserted]
            rfl
          · refine .inr (.inl ⟨stops, ?_⟩)
            rw [refused]
            rfl
          · exact .inr (.inr ⟨gave, Nat.succ_le_succ short⟩)
        · exact .inr (.inl ⟨rfl, rfl⟩)

end Walks

section Calls

variable {p addr : Nat} {length prot flags : Int}

theorem stop_unless_ok {c : Prop} [Decidable c] {e : Stop} :
    (stopUnless c e).run s = .ok (u, s') ↔ c ∧ s = s' := by
  unfold stopUnless
  split
  · rename_i h
    simp only [pure_ok, h, true_and]
  · rename_i h
    simp only [throw_ok, h, false_and]

theorem or_stop_ok {α : Type} {x : Option α} {e : Stop} {a : α} :
    (orStop x e).run s = .ok (a, s') ↔ x = some a ∧ s = s' := by
  cases x with
  | none => simp only [orStop, throw_ok, reduceCtorEq, false_and]
  | some b => rw [orStop, pure_ok, Option.some.injEq, @eq_comm _ a b]

def AreaHeap.taken (s : AreaHeap) (p : Nat) (rest : List Nat) : AreaHeap :=
  { s with choices := rest, used := Function.update s.used p true }

theorem alloc_vme_ok :
    allocVme.run s = .ok (p, s') ↔
      ∃ rest, s.choices = p :: rest ∧ s.used p = false ∧ s' = s.taken p rest := by
  simp only [allocVme, bind_ok, get_ok]
  constructor
  · rintro ⟨_, _, ⟨rfl, rfl⟩, h⟩
    split at h
    · exact (throw_ok.mp h).elim
    · rename_i node rest same
      simp only [bind_ok, stop_unless_ok, set_ok, pure_ok] at h
      obtain ⟨_, _, ⟨fresh, rfl⟩, _, _, rfl, rfl, rfl⟩ := h
      exact ⟨rest, same, fresh, rfl⟩
  · rintro ⟨rest, same, fresh, rfl⟩
    refine ⟨s, s, ⟨rfl, rfl⟩, ?_⟩
    rw [same]
    simp only [bind_ok, stop_unless_ok, set_ok, pure_ok]
    exact ⟨(), s, ⟨fresh, rfl⟩, ⟨⟩, _, rfl, trivial, rfl⟩

theorem get_suitable_addr_ok (holds : Holds s t ps) {start r : Nat}
    (h : (getSuitableAddr t start length).run s = .ok (r, s')) :
    s = s' ∧ Uproc.getSuitableAddr (areasOf s ps) start length = some r := by
  simp only [getSuitableAddr, bind_ok, get_ok] at h
  obtain ⟨_, _, ⟨rfl, rfl⟩, h⟩ := h
  split at h
  · rename_i null
    obtain ⟨rfl, rfl⟩ := pure_ok.mp h
    rw [holds.head_null.mp null]
    exact ⟨rfl, rfl⟩
  · rename_i some_area
    simp only [bind_ok, or_stop_ok, stop_unless_ok, pure_ok] at h
    obtain ⟨⟨_, stop⟩, _, ⟨walked, rfl⟩, _, _, ⟨inside, rfl⟩, rfl, rfl⟩ := h
    rw [holds.head] at walked
    rcases suitable_walk (links_next holds.ring.links).2 holds.ring.real s.rounds start
        (roundUp (addLength start length)) with found | ⟨gave, _⟩
    · rw [walked, Option.some.injEq] at found
      have areas : areasOf s ps ≠ [] := fun none =>
        some_area (holds.head_null.mpr (List.map_eq_nil_iff.mp none))
      refine ⟨rfl, ?_⟩
      rw [Uproc.getSuitableAddr, if_neg areas, ← found]
      exact if_pos inside
    · rw [walked] at gave
      cases gave

theorem get_suitable_addr_runs (holds : Holds s t ps) (enough : ps.length < s.rounds)
    {start r : Nat} (found : Uproc.getSuitableAddr (areasOf s ps) start length = some r) :
    (getSuitableAddr t start length).run s = .ok (r, s) := by
  simp only [getSuitableAddr, bind_ok, get_ok]
  refine ⟨s, s, ⟨rfl, rfl⟩, ?_⟩
  unfold Uproc.getSuitableAddr at found
  split at found
  · rename_i no_area
    rw [if_pos (holds.head_null.mpr (List.map_eq_nil_iff.mp no_area))]
    exact pure_ok.mpr ⟨(Option.some.inj found).symm, rfl⟩
  · rename_i some_area
    have real : s.head t ≠ 0 := fun null =>
      some_area (List.map_eq_nil_iff.mpr (holds.head_null.mp null))
    rw [if_neg real]
    simp only [bind_ok, or_stop_ok, stop_unless_ok, pure_ok]
    obtain ⟨inside, same⟩ := Option.ite_none_right_eq_some.mp found
    rcases suitable_walk (links_next holds.ring.links).2 holds.ring.real s.rounds start
        (roundUp (addLength start length)) with walked | ⟨_, short⟩
    · rw [← holds.head] at walked
      exact ⟨_, s, ⟨walked, rfl⟩, (), s, ⟨inside, rfl⟩, (Option.some.inj same).symm, rfl⟩
    · exact absurd enough (Nat.not_lt.mpr short)

theorem Holds.taken (holds : Holds s t ps) (fresh : s.used p = false) (rest : List Nat) :
    Holds (s.taken p rest) t ps ∧ p ∉ ps := by
  have away : p ∉ ps := fun hp => by
    rw [holds.used p hp] at fresh
    cases fresh
  refine ⟨holds.congr rfl rfl (fun _ _ => rfl) (fun _ _ => rfl) fun q hq => ?_, away⟩
  exact Function.update_of_ne (ne_of_mem_of_not_mem hq away) ..

theorem new_vme_node_ok (holds : Holds s t ps)
    (h : (newVmeNode t addr length prot flags).run s = .ok (p, s')) :
    ∃ rest node, s.choices = p :: rest ∧ p ≠ 0 ∧ s.used p = false ∧
      Uproc.newVmeNode (areasOf s ps) addr length prot flags = some node ∧
      s' = (s.taken p rest).setNode p node := by
  simp only [newVmeNode, bind_ok, alloc_vme_ok, stop_unless_ok, modify_ok, pure_ok] at h
  obtain ⟨_, _, ⟨rest, chosen, fresh, rfl⟩, start, _, search, _, _, ⟨real, rfl⟩, _, _, rfl, rfl,
    rfl⟩ := h
  obtain ⟨rfl, found⟩ := get_suitable_addr_ok (holds.taken fresh rest).1 search
  exact ⟨rest, _, chosen, real, fresh, new_vme_node_at found, rfl⟩

theorem new_vme_node_runs (holds : Holds s t ps) (enough : ps.length < s.rounds)
    {rest : List Nat} {node : VmArea} (chosen : s.choices = p :: rest) (real : p ≠ 0)
    (fresh : s.used p = false)
    (new : Uproc.newVmeNode (areasOf s ps) addr length prot flags = some node) :
    (newVmeNode t addr length prot flags).run s =
      .ok (p, (s.taken p rest).setNode p node) := by
  obtain ⟨found, shape⟩ := new_vme_node_found new
  have search := get_suitable_addr_runs (s := s.taken p rest) (holds.taken fresh rest).1 enough found
  simp only [newVmeNode, bind_ok, alloc_vme_ok, stop_unless_ok, modify_ok, pure_ok]
  refine ⟨p, _, ⟨rest, chosen, fresh, rfl⟩, _, _, search, (), _, ⟨real, rfl⟩, ⟨⟩, _, rfl, rfl, ?_⟩
  rw [← shape]

end Calls

section Insert

variable {p : Nat} {front back : List Nat}

/-- The node `p` joined the list of `t`; nothing but the links around it changed. -/
structure Inserted (s : AreaHeap) (t p : Nat) (front back : List Nat) (s' : AreaHeap) : Prop where
  holds : Holds s' t (front ++ p :: back)
  next : ∀ q, q ≠ p → q ∉ front ++ back → s'.vmNext q = s.vmNext q
  prev : ∀ q, q ≠ p → q ∉ front ++ back → s'.vmPrev q = s.vmPrev q
  head : ∀ t', t' ≠ t → s'.head t' = s.head t'
  tail : ∀ t', t' ≠ t → s'.tail t' = s.tail t'
  area : s'.area = s.area
  used : s'.used = s.used
  live : s'.live = s.live
  choices : s'.choices = s.choices
  rounds : s'.rounds = s.rounds
  refused : s'.refused = s.refused

structure Apart (s : AreaHeap) (p : Nat) (ps : List Nat) : Prop where
  real : p ≠ 0
  fresh : p ∉ ps
  used : s.used p = true
  next : s.vmNext p = 0
  prev : s.vmPrev p = 0

theorem used_joined (holds : Holds s t (front ++ back)) (apart : Apart s p (front ++ back)) :
    ∀ q ∈ front ++ p :: back, s.used q = true := by
  intro q hq
  rcases List.mem_append.mp hq with left | right
  · exact holds.used q (List.mem_append_left _ left)
  · rcases List.mem_cons.mp right with rfl | right
    · exact apart.used
    · exact holds.used q (List.mem_append_right _ right)

theorem first_inserted (holds : Holds s t []) (apart : Apart s p []) :
    Inserted s t p [] [] (s.first t p) := by
  have whole : Holds s t ([] ++ []) := holds
  have joined := used_joined whole apart
  refine ⟨⟨ring_insert whole.ring apart.real apart.fresh ?_ ?_ ?_ ?_ ?_ ?_, joined⟩, fun _ _ _ => rfl, fun _ _ _ => rfl, ?_, ?_, rfl, rfl, rfl, rfl, rfl, rfl⟩
  · exact forth_null.trans (Function.update_self ..)
  · exact (back_real apart.real).trans apart.prev
  · exact (forth_real apart.real).trans apart.next
  · exact back_null.trans (Function.update_self ..)
  · intro q _ real
    exact (forth_real real).trans (forth_real (s := s) real).symm
  · intro q _ real
    exact (back_real real).trans (back_real (s := s) real).symm
  · exact fun t' other => Function.update_of_ne other ..
  · exact fun t' other => Function.update_of_ne other ..

theorem last_mem (some_node : front ≠ []) : front.getLastD 0 ∈ front := by
  rw [List.getLastD_eq_getLast?, List.getLast?_eq_some_getLast some_node]
  exact List.getLast_mem some_node

theorem append_inserted (holds : Holds s t front) (apart : Apart s p front)
    (some_node : front ≠ []) : Inserted s t p front [] (s.append t p) := by
  have tail := holds.tail
  have last := last_mem some_node
  rw [← tail] at last
  have real := holds.real _ last
  have other : p ≠ s.tail t := fun same => apart.fresh (same ▸ last)
  have whole : Holds s t (front ++ []) := by rwa [List.append_nil]
  have new : Apart s p (front ++ []) := by rwa [List.append_nil]
  have joined := used_joined whole new
  refine ⟨⟨ring_insert whole.ring new.real new.fresh ?_ ?_ ?_ ?_ ?_ ?_, joined⟩,
    ?_, ?_, fun _ _ => rfl, ?_, rfl, rfl, rfl, rfl, rfl, rfl⟩
  · rw [← tail, forth_real real]
    exact Function.update_self ..
  · rw [← tail, back_real apart.real]
    exact Function.update_self ..
  · rw [forth_real apart.real]
    exact (Function.update_of_ne other ..).trans apart.next
  · exact back_null.trans (Function.update_self ..)
  · intro q _ away
    rw [← tail] at away
    by_cases null : q = 0
    · rw [null, forth_null, forth_null]
      rfl
    · rw [forth_real null, forth_real null]
      exact Function.update_of_ne away ..
  · intro q new q_real
    rw [List.headD_nil] at q_real
    rw [back_real q_real, back_real q_real]
    exact Function.update_of_ne new ..
  · intro q _ away
    rw [List.append_nil] at away
    exact Function.update_of_ne (Ne.symm (ne_of_mem_of_not_mem last away)) ..
  · exact fun q new _ => Function.update_of_ne new ..
  · exact fun t' other => Function.update_of_ne other ..

theorem put_before_forth (cur : Nat) (real : p ≠ 0) (q : Nat) :
    (s.putBefore t p cur).forth t q =
      if q = p then cur else if q = s.vmPrev cur then p else s.forth t q := by
  by_cases null : q = 0
  · rw [null, forth_null, if_neg (Ne.symm real)]
    by_cases first : s.vmPrev cur = 0
    · simp only [AreaHeap.putBefore, if_pos first, if_pos first.symm, Function.update_self]
    · simp only [AreaHeap.putBefore, if_neg first, if_neg (Ne.symm first), forth_null]
  · rw [forth_real null, forth_real null]
    by_cases new : q = p
    · rw [if_pos new, new]
      exact Function.update_self ..
    · rw [if_neg new]
      refine (Function.update_of_ne new ..).trans ?_
      by_cases first : s.vmPrev cur = 0
      · rw [if_pos first, if_neg (first ▸ null)]
      · rw [if_neg first, Function.update_apply]

theorem put_before_inserted {cur : Nat} (holds : Holds s t (front ++ cur :: back))
    (apart : Apart s p (front ++ cur :: back)) :
    Inserted s t p front (cur :: back) (s.putBefore t p cur) := by
  have cur_in : cur ∈ front ++ cur :: back := List.mem_append_right _ List.mem_cons_self
  have cur_real := holds.real cur cur_in
  have cur_other : p ≠ cur := fun same => apart.fresh (same ▸ cur_in)
  have prev : s.vmPrev cur = front.getLastD 0 := by
    have links : Links (s.forth t) (s.back t) (0 :: (front ++ cur :: (back ++ [0]))) := by
      simpa only [List.append_assoc, List.cons_append] using holds.ring.links
    have same := links_prev links
    rwa [back_real cur_real] at same
  have prev_in : s.vmPrev cur ≠ 0 → s.vmPrev cur ∈ front := by
    rw [prev]
    intro real
    exact last_mem fun none => real (none ▸ rfl)
  have prev_other : p ≠ s.vmPrev cur := by
    intro same
    exact apart.fresh (same ▸ List.mem_append_left _ (prev_in (same ▸ apart.real)))
  have forth := put_before_forth (s := s) (t := t) cur apart.real
  have joined := used_joined holds apart
  refine ⟨⟨ring_insert holds.ring apart.real apart.fresh ?_ ?_ ?_ ?_ ?_ ?_, joined⟩,
    ?_, ?_, ?_, fun _ _ => rfl, rfl, rfl, rfl, rfl, rfl, rfl⟩
  · rw [← prev, forth, if_neg (Ne.symm prev_other), if_pos rfl]
  · rw [← prev, back_real apart.real]
    exact (Function.update_of_ne cur_other ..).trans (Function.update_self ..)
  · rw [forth, if_pos rfl]
    rfl
  · rw [List.headD_cons, back_real cur_real]
    exact Function.update_self ..
  · intro q new away
    rw [← prev] at away
    rw [forth, if_neg new, if_neg away]
  · intro q new away
    rw [List.headD_cons] at away
    by_cases null : q = 0
    · rw [null, back_null, back_null]
      rfl
    · rw [back_real null, back_real null]
      exact (Function.update_of_ne away ..).trans (Function.update_of_ne new ..)
  · intro q new away
    refine (Function.update_of_ne new ..).trans ?_
    split
    · rfl
    · rename_i real
      refine Function.update_of_ne (fun same => away ?_) ..
      exact same ▸ List.mem_append_left _ (prev_in real)
  · intro q new away
    have other : q ≠ cur := fun same => away (same ▸ cur_in)
    exact (Function.update_of_ne other ..).trans (Function.update_of_ne new ..)
  · intro t' other
    show (if s.vmPrev cur = 0 then Function.update s.head t p else s.head) t' = s.head t'
    split
    · exact Function.update_of_ne other ..
    · rfl

theorem insert_vme_node_ok {b : Bool} (holds : Holds s t ps) (apart : Apart s p ps)
    (h : (insertVmeNode t p).run s = .ok (b, s')) :
    (b = false ∧ Uproc.insertVmeNode (areasOf s ps) (s.area p) = none ∧
        s' = { s with refused := true }) ∨
      b = true ∧ ∃ front back, ps = front ++ back ∧
        Uproc.insertVmeNode (areasOf s ps) (s.area p) =
          some (areasOf s (front ++ p :: back)) ∧ Inserted s t p front back s' := by
  simp only [insertVmeNode, bind_ok, get_ok] at h
  obtain ⟨_, _, ⟨rfl, rfl⟩, h⟩ := h
  split at h
  · rename_i null
    simp only [bind_ok, set_ok, pure_ok] at h
    obtain ⟨_, _, rfl, rfl, rfl⟩ := h
    obtain rfl := holds.head_null.mp null
    exact .inr ⟨rfl, [], [], rfl, rfl, first_inserted holds apart⟩
  · rename_i some_area
    simp only [bind_ok, or_stop_ok] at h
    obtain ⟨slot, _, ⟨walked, rfl⟩, h⟩ := h
    rw [holds.head] at walked
    rcases insert_walk (s.area p) s.rounds (links_next holds.ring.links).2 holds.ring.real with
      ⟨front, back, shape, stops, inserted⟩ | ⟨stops, refused⟩ | ⟨gave, _⟩
    · subst shape
      rw [walked] at stops
      cases stops
      simp only [bind_ok, set_ok, pure_ok] at h
      obtain ⟨_, _, rfl, rfl, rfl⟩ := h
      refine .inr ⟨rfl, front, back, rfl, ?_, ?_⟩
      · rw [inserted, areas_of_append, areas_of_cons]
      · cases back with
        | nil =>
          rw [List.append_nil] at holds apart
          have some_node : front ≠ [] := fun none => some_area (holds.head_null.mpr none)
          exact append_inserted holds apart some_node
        | cons cur back =>
          have real := holds.real cur (List.mem_append_right _ List.mem_cons_self)
          rw [List.headD_cons, if_neg real]
          exact put_before_inserted holds apart
    · rw [walked] at stops
      cases stops
      simp only [bind_ok, set_ok, pure_ok] at h
      obtain ⟨_, _, rfl, rfl, rfl⟩ := h
      exact .inl ⟨rfl, refused, rfl⟩
    · rw [walked] at gave
      cases gave

theorem insert_vme_node_runs (holds : Holds s t ps) (enough : ps.length < s.rounds) :
    ∃ b s', (insertVmeNode t p).run s = .ok (b, s') := by
  simp only [insertVmeNode, bind_ok, get_ok]
  by_cases null : s.head t = 0
  · exact ⟨true, _, s, s, ⟨rfl, rfl⟩, by rw [if_pos null]; rfl⟩
  · have walks : ∃ slot, insertWalk s (s.area p) s.rounds (s.head t) = some slot := by
      rw [holds.head]
      rcases insert_walk (s.area p) s.rounds (links_next holds.ring.links).2 holds.ring.real with
        ⟨_, _, _, stops, _⟩ | ⟨stops, _⟩ | ⟨_, short⟩
      · exact ⟨_, stops⟩
      · exact ⟨_, stops⟩
      · exact absurd enough (Nat.not_lt.mpr short)
    obtain ⟨slot, walked⟩ := walks
    cases slot with
    | none => exact ⟨false, _, s, s, ⟨rfl, rfl⟩, by rw [if_neg null, walked]; rfl⟩
    | some cur => exact ⟨true, _, s, s, ⟨rfl, rfl⟩, by rw [if_neg null, walked]; rfl⟩

end Insert

section Added

variable {p addr : Nat} {length prot flags : Int} {node : VmArea} {ps' : List Nat}

structure Added (s : AreaHeap) (t p : Nat) (node : VmArea) (ps ps' : List Nat) (s' : AreaHeap) :
    Prop where
  holds : Holds s' t ps'
  real : p ≠ 0
  fresh : s.used p = false
  area : s'.area = Function.update s.area p node
  used : s'.used = Function.update s.used p true
  next : ∀ q, q ≠ p → q ∉ ps → s'.vmNext q = s.vmNext q
  prev : ∀ q, q ≠ p → q ∉ ps → s'.vmPrev q = s.vmPrev q
  head : ∀ t', t' ≠ t → s'.head t' = s.head t'
  tail : ∀ t', t' ≠ t → s'.tail t' = s.tail t'
  live : s'.live = s.live
  rounds : s'.rounds = s.rounds
  choices : s.choices = p :: s'.choices

inductive Joined (s : AreaHeap) (p : Nat) (node : VmArea) (ps ps' : List Nat) (s' : AreaHeap) :
    Bool → Prop
  | inserted {front back : List Nat} (before : ps = front ++ back)
      (after : ps' = front ++ p :: back) (kept : s'.refused = s.refused)
      (areas : Uproc.insertVmeNode (areasOf s ps) node = some (areasOf s' ps')) :
      Joined s p node ps ps' s' true
  | refused (same : ps' = ps) (noted : s'.refused = true)
      (areas : Uproc.insertVmeNode (areasOf s ps) node = none) : Joined s p node ps ps' s' false

structure Extends (s : AreaHeap) (t : Nat) (ps : List Nat) (s' : AreaHeap) : Prop where
  used : ∀ q, s.used q = true → s'.used q = true
  area : ∀ q, s.used q = true → s'.area q = s.area q
  next : ∀ q, s.used q = true → q ∉ ps → s'.vmNext q = s.vmNext q
  prev : ∀ q, s.used q = true → q ∉ ps → s'.vmPrev q = s.vmPrev q
  head : ∀ t', t' ≠ t → s'.head t' = s.head t'
  tail : ∀ t', t' ≠ t → s'.tail t' = s.tail t'
  live : s'.live = s.live
  rounds : s'.rounds = s.rounds

theorem Extends.areas {qs : List Nat} (ext : Extends s t ps s') (used : ∀ q ∈ qs, s.used q = true) :
    areasOf s' qs = areasOf s qs :=
  List.map_congr_left fun q hq => ext.area q (used q hq)

theorem Extends.other {t' : Nat} {qs : List Nat} (ext : Extends s t ps s') (holds : Holds s t' qs)
    (other : t' ≠ t) (apart : ∀ q ∈ qs, q ∉ ps) : Holds s' t' qs := by
  refine holds.congr (ext.head t' other) (ext.tail t' other) ?_ ?_ ?_
  · exact fun q hq => ext.next q (holds.used q hq) (apart q hq)
  · exact fun q hq => ext.prev q (holds.used q hq) (apart q hq)
  · exact fun q hq => (ext.used q (holds.used q hq)).trans (holds.used q hq).symm

theorem Extends.trans {mid : AreaHeap} {qs : List Nat} (first : Extends s t ps mid)
    (later : Extends mid t qs s') (new : ∀ q, s.used q = true → q ∉ ps → q ∉ qs) :
    Extends s t ps s' := by
  refine ⟨fun q h => later.used q (first.used q h), ?_, ?_, ?_, ?_, ?_, ?_, ?_⟩
  · exact fun q h => (later.area q (first.used q h)).trans (first.area q h)
  · exact fun q h away => (later.next q (first.used q h) (new q h away)).trans (first.next q h away)
  · exact fun q h away => (later.prev q (first.used q h) (new q h away)).trans (first.prev q h away)
  · exact fun t' other => (later.head t' other).trans (first.head t' other)
  · exact fun t' other => (later.tail t' other).trans (first.tail t' other)
  · exact later.live.trans first.live
  · exact later.rounds.trans first.rounds

theorem Added.extends (added : Added s t p node ps ps' s') : Extends s t ps s' := by
  have new : ∀ q, s.used q = true → q ≠ p := by
    rintro q used rfl
    rw [added.fresh] at used
    cases used
  refine ⟨?_, ?_, fun q used away => added.next q (new q used) away,
    fun q used away => added.prev q (new q used) away, added.head, added.tail, added.live,
    added.rounds⟩
  · intro q used
    rw [added.used]
    exact (Function.update_of_ne (new q used) ..).trans used
  · intro q used
    rw [added.area]
    exact Function.update_of_ne (new q used) ..

theorem node_made (holds : Holds s t ps) (real : p ≠ 0) (fresh : s.used p = false)
    (rest : List Nat) (node : VmArea) :
    Holds ((s.taken p rest).setNode p node) t ps ∧
      Apart ((s.taken p rest).setNode p node) p ps ∧
      areasOf ((s.taken p rest).setNode p node) ps = areasOf s ps := by
  obtain ⟨taken, away⟩ := holds.taken fresh rest
  have other : ∀ q ∈ ps, q ≠ p := fun q hq => ne_of_mem_of_not_mem hq away
  refine ⟨taken.congr rfl rfl ?_ ?_ fun _ _ => rfl,
    ⟨real, away, Function.update_self .., Function.update_self .., Function.update_self ..⟩, ?_⟩
  · exact fun q hq => Function.update_of_ne (other q hq) ..
  · exact fun q hq => Function.update_of_ne (other q hq) ..
  · exact List.map_congr_left fun q hq => Function.update_of_ne (other q hq) ..

theorem node_added {mid : AreaHeap} {b : Bool} (holds : Holds s t ps)
    (new : (newVmeNode t addr length prot flags).run s = .ok (p, mid))
    (insert : (insertVmeNode t p).run mid = .ok (b, s')) :
    ∃ node ps', Uproc.newVmeNode (areasOf s ps) addr length prot flags = some node ∧
      Added s t p node ps ps' s' ∧ Joined s p node ps ps' s' b := by
  obtain ⟨rest, node, chosen, real, fresh, placed, rfl⟩ := new_vme_node_ok holds new
  obtain ⟨holds_mid, apart, kept⟩ := node_made holds real fresh rest node
  have own : ((s.taken p rest).setNode p node).area p = node := Function.update_self ..
  have next : ∀ q, q ≠ p → ((s.taken p rest).setNode p node).vmNext q = s.vmNext q :=
    fun q other => Function.update_of_ne other ..
  have prev : ∀ q, q ≠ p → ((s.taken p rest).setNode p node).vmPrev q = s.vmPrev q :=
    fun q other => Function.update_of_ne other ..
  rcases insert_vme_node_ok holds_mid apart insert with
    ⟨rfl, refused, rfl⟩ | ⟨rfl, front, back, shape, areas, joined⟩
  · rw [kept, own] at refused
    refine ⟨node, ps, placed, ⟨?_, real, fresh, rfl, rfl, ?_, ?_, fun _ _ => rfl, fun _ _ => rfl,
      rfl, rfl, chosen⟩, .refused rfl rfl refused⟩
    · exact holds_mid.congr rfl rfl (fun _ _ => rfl) (fun _ _ => rfl) fun _ _ => rfl
    · exact fun q new _ => next q new
    · exact fun q new _ => prev q new
  · rw [kept, own] at areas
    subst shape
    refine ⟨node, front ++ p :: back, placed, ⟨joined.holds, real, fresh, joined.area,
      joined.used, ?_, ?_, joined.head, joined.tail, joined.live, joined.rounds, ?_⟩,
      .inserted rfl rfl joined.refused ?_⟩
    · exact fun q new away => (joined.next q new away).trans (next q new)
    · exact fun q new away => (joined.prev q new away).trans (prev q new)
    · rw [joined.choices]
      exact chosen
    · rw [areas, areasOf, areasOf, joined.area]

theorem node_runs {rest : List Nat} (holds : Holds s t ps) (enough : ps.length < s.rounds)
    (chosen : s.choices = p :: rest) (real : p ≠ 0) (fresh : s.used p = false)
    (new : Uproc.newVmeNode (areasOf s ps) addr length prot flags = some node) :
    ∃ mid b s', (newVmeNode t addr length prot flags).run s = .ok (p, mid) ∧
      (insertVmeNode t p).run mid = .ok (b, s') := by
  have made := new_vme_node_runs holds enough chosen real fresh new
  obtain ⟨b, s', inserts⟩ := insert_vme_node_runs (p := p) (node_made holds real fresh rest node).1
    enough
  exact ⟨_, b, s', made, inserts⟩

end Added

end VmaList
