import JyyOs.Uproc.VmaRefine

/-!
fork_copying_vme_pages on nodes: round by round it does to the list of the child what copyAreas
does to its areas.
-/
namespace VmaList

open Hoare Uproc DoublyLinked

def AreaHeap.withTail (s : AreaHeap) (t p : Nat) : AreaHeap :=
  { s with tail := Function.update s.tail t p }

variable {s s' : AreaHeap} {t c : Nat} {ps qs done rest : List Nat} {u : Unit}

section Round

variable {p : Nat}

theorem Holds.next (holds : Holds s t (done ++ p :: rest)) : p ≠ 0 ∧ s.vmNext p = rest.headD 0 := by
  have real := holds.real p (List.mem_append_right _ List.mem_cons_self)
  have links : Links (s.forth t) (s.back t) ((0 :: done) ++ p :: (rest ++ [0])) := by
    simpa only [List.append_assoc, List.cons_append] using holds.ring.links
  have follows := (links_next (links_append.mp links).2).1
  rw [forth_real real] at follows
  exact ⟨real, follows⟩

theorem Holds.at_tail (holds : Holds s t (done ++ p :: rest)) : p = s.tail t ↔ rest = [] := by
  rw [holds.tail]
  constructor
  · intro last
    rcases List.eq_nil_or_concat rest with none | ⟨init, q, rfl⟩
    · exact none
    · rw [List.concat_eq_append, ← List.cons_append, ← List.append_assoc,
        List.getLastD_concat] at last
      have once := (List.nodup_cons.mp (List.nodup_middle.mp holds.ring.nodup)).1
      rw [last] at once
      exact absurd (List.mem_append_right _ (by simp)) once
  · rintro rfl
    rw [List.getLastD_concat]

theorem joined_first {node : VmArea} {ps' : List Nat} {b : Bool} (joined : Joined s p node [] ps' s' b) :
    ps' = [p] := by
  cases joined with
  | inserted before after _ _ =>
    obtain ⟨rfl, rfl⟩ := List.append_eq_nil_iff.mp before.symm
    exact after
  | refused _ _ areas => cases areas

/-- The assignments to the ends of the new list: the first does nothing, the second comes last. -/
theorem with_ends {n : Nat} {node : VmArea} {qs' : List Nat} {m : AreaHeap} {b isHead : Bool}
    (added : Added s c n node qs qs' m) (joined : Joined s n node qs qs' m b)
    (kept : Holds m t (done ++ p :: rest)) (first : isHead = true → qs = []) :
    m.withEnds t c p n isHead = if rest = [] then m.withTail c n else m := by
  have head : (if isHead = true then Function.update m.head c n else m.head) = m.head := by
    split
    · rename_i start
      obtain rfl := first start
      have only := added.holds.head
      rw [joined_first joined, List.headD_cons] at only
      rw [← only, Function.update_eq_self]
    · rfl
  simp only [AreaHeap.withEnds, head, kept.at_tail]
  split
  · rfl
  · rfl

theorem copy_round {fuel : Nat} {isHead : Bool} (parent : Holds s t (done ++ p :: rest))
    (child : Holds s c qs) (other : c ≠ t) (apart : ∀ q ∈ qs, q ∉ done ++ p :: rest)
    (first : isHead = true → qs = [])
    (h : (copyLoop t c (fuel + 1) p isHead).run s = .ok (u, s')) :
    ∃ n node qs' m b, Uproc.newVmeNode (areasOf s qs) (s.area p).vmStart
        (toInt32 (((s.area p).vmEnd : Int) - (s.area p).vmStart)) (s.area p).vmProt
        (s.area p).vmFlags = some node ∧ Added s c n node qs qs' m ∧ Joined s n node qs qs' m b ∧
      Holds m t (done ++ p :: rest) ∧
      (copyLoop t c fuel (rest.headD 0) false).run (if rest = [] then m.withTail c n else m) =
        .ok (u, s') := by
  obtain ⟨real, _⟩ := parent.next
  simp only [copyLoop, if_neg real, bind_ok, get_ok, modify_ok] at h
  obtain ⟨_, _, ⟨rfl, rfl⟩, n, _, new, b, m, insert, _, _, rfl, _, _, ⟨rfl, rfl⟩, later⟩ := h
  obtain ⟨node, qs', placed, added, joined⟩ := node_added child new insert
  have kept : Holds m t (done ++ p :: rest) :=
    added.extends.other parent (Ne.symm other) fun q hq inside => apart q inside hq
  have follows : (m.withEnds t c p n isHead).vmNext p = rest.headD 0 := kept.next.2
  rw [follows, with_ends added joined kept first] at later
  exact ⟨n, node, qs', m, b, placed, added, joined, kept, later⟩

theorem copy_round_runs {fuel n : Nat} {isHead b : Bool} {mid m : AreaHeap} {node : VmArea}
    {qs' : List Nat} (parent : Holds s t (done ++ p :: rest))
    (first : isHead = true → qs = [])
    (new : (newVmeNode c (s.area p).vmStart
      (toInt32 (((s.area p).vmEnd : Int) - (s.area p).vmStart)) (s.area p).vmProt
      (s.area p).vmFlags).run s = .ok (n, mid))
    (insert : (insertVmeNode c n).run mid = .ok (b, m)) (added : Added s c n node qs qs' m)
    (joined : Joined s n node qs qs' m b) (kept : Holds m t (done ++ p :: rest))
    (later : (copyLoop t c fuel (rest.headD 0) false).run
      (if rest = [] then m.withTail c n else m) = .ok (u, s')) :
    (copyLoop t c (fuel + 1) p isHead).run s = .ok (u, s') := by
  obtain ⟨real, _⟩ := parent.next
  have follows : (m.withEnds t c p n isHead).vmNext p = rest.headD 0 := kept.next.2
  rw [← with_ends added joined kept first, ← follows] at later
  simp only [copyLoop, if_neg real, bind_ok, get_ok, modify_ok]
  exact ⟨s, s, ⟨rfl, rfl⟩, n, mid, new, b, m, insert, ⟨⟩, _, rfl, _, _, ⟨rfl, rfl⟩, later⟩

end Round

section Loop

theorem rest_used {p : Nat} (parent : Holds s t (done ++ p :: rest)) :
    ∀ q ∈ rest, s.used q = true := by
  intro q hq
  refine parent.used q ?_
  rw [List.mem_append, List.mem_cons]
  exact .inr (.inr hq)

theorem joined_mem {p : Nat} {node : VmArea} {ps' : List Nat} {b : Bool}
    (joined : Joined s p node ps ps' s' b) : ∀ q ∈ ps', q = p ∨ q ∈ ps := by
  intro q hq
  cases joined with
  | inserted before after _ _ =>
    rw [after, List.mem_append, List.mem_cons] at hq
    rw [before, List.mem_append]
    tauto
  | refused same _ _ => exact .inr (same ▸ hq)

theorem copy_ends {fuel : Nat} {isHead : Bool} (h : (copyLoop t c fuel 0 isHead).run s = .ok (u, s')) :
    s = s' := by
  cases fuel with
  | zero => exact (throw_ok.mp h).elim
  | succ fuel => exact (pure_ok.mp h).2

theorem round_apart {p n : Nat} {node : VmArea} {qs' : List Nat} {m : AreaHeap} {b : Bool}
    (parent : Holds s t (done ++ p :: rest)) (apart : ∀ q ∈ qs, q ∉ done ++ p :: rest)
    (added : Added s c n node qs qs' m) (joined : Joined s n node qs qs' m b)
    (kept : Holds m t (done ++ p :: rest)) :
    Holds m t ((done ++ [p]) ++ rest) ∧ ∀ q ∈ qs', q ∉ (done ++ [p]) ++ rest := by
  rw [List.append_assoc]
  refine ⟨kept, fun q hq => ?_⟩
  rcases joined_mem joined q hq with rfl | old
  · intro inside
    have used := parent.used q inside
    rw [added.fresh] at used
    cases used
  · exact apart q old

/-- The list of the child, up to its vm_area_tail, is what copyAreas computes. -/
theorem copy_refines {fuel : Nat} {isHead : Bool} (parent : Holds s t (done ++ rest))
    (child : Holds s c qs) (other : c ≠ t) (apart : ∀ q ∈ qs, q ∉ done ++ rest)
    (first : isHead = true → qs = [])
    (h : (copyLoop t c fuel (rest.headD 0) isHead).run s = .ok (u, s')) :
    ∃ qs' all tail, copyAreas (areasOf s qs) (areasOf s rest) = some (areasOf s' qs', all) ∧
      Holds (s'.withTail c tail) c qs' := by
  induction rest generalizing s qs done fuel isHead with
  | nil =>
    obtain rfl := copy_ends h
    refine ⟨qs, true, s.tail c, rfl, ?_⟩
    rw [AreaHeap.withTail, Function.update_eq_self]
    exact child
  | cons p rest ih =>
    cases fuel with
    | zero => exact (throw_ok.mp h).elim
    | succ fuel =>
      obtain ⟨n, node, qs₁, m, b, placed, added, joined, kept, later⟩ :=
        copy_round parent child other apart first h
      have copied : ∃ qs' all tail,
          copyAreas (areasOf m qs₁) (areasOf s rest) = some (areasOf s' qs', all) ∧
            Holds (s'.withTail c tail) c qs' := by
        cases rest with
        | nil =>
          obtain rfl := copy_ends later
          refine ⟨qs₁, true, m.tail c, rfl, ?_⟩
          rw [if_pos rfl, AreaHeap.withTail, AreaHeap.withTail, Function.update_idem,
            Function.update_eq_self]
          exact added.holds
        | cons p' rest =>
          rw [if_neg (List.cons_ne_nil _ _)] at later
          rw [← added.extends.areas (rest_used parent)]
          obtain ⟨parent', apart'⟩ := round_apart parent apart added joined kept
          have started : false = true → qs₁ = [] := nofun
          exact ih parent' added.holds apart' started later
      obtain ⟨qs', all, tail, copied, holds⟩ := copied
      have step : ∃ all', copyAreas (areasOf s qs) (areasOf s (p :: rest)) =
          some (areasOf s' qs', all') := by
        rw [areas_of_cons, copyAreas, placed]
        cases joined with
        | inserted before after kept areas =>
          simp only [areas]
          exact ⟨all, copied⟩
        | refused same noted areas =>
          subst same
          rw [added.extends.areas child.used] at copied
          simp only [areas, copied]
          exact ⟨false, rfl⟩
      obtain ⟨all', step⟩ := step
      exact ⟨qs', all', tail, step, holds⟩

theorem joined_last {n : Nat} {node : VmArea} {qs' : List Nat} {b : Bool}
    (child : Holds s t qs) (added : Added s t n node qs qs' s') (joined : Joined s n node qs qs' s' b)
    (before : ∀ a ∈ areasOf s qs, a.vmEnd ≤ node.vmStart)
    (nonempty : ∀ a ∈ areasOf s qs, a.vmStart < a.vmEnd) (new : node.vmStart < node.vmEnd) :
    qs' = qs ++ [n] ∧ s'.refused = s.refused ∧ areasOf s' (qs ++ [n]) = areasOf s qs ++ [node] := by
  have last := insert_vme_last before nonempty new
  cases joined with
  | refused _ _ areas =>
    rw [last] at areas
    cases areas
  | @inserted front back shape after kept areas =>
    rw [last, Option.some.injEq] at areas
    subst shape
    cases back with
    | nil =>
      rw [List.append_nil] at areas ⊢
      exact ⟨after, kept, after ▸ areas.symm⟩
    | cons q back =>
      have own : s'.area n = node := by
        rw [added.area, Function.update_self]
      have old := added.extends.areas child.used
      rw [after, ← old, areas_of_append, areas_of_append, List.append_assoc,
        List.append_cancel_left_eq, areas_of_cons, areas_of_cons, own, List.cons_append,
        List.cons.injEq] at areas
      have behind := before (s'.area q) (by rw [← old]; simp)
      have some_bytes := nonempty (s'.area q) (by rw [← old]; simp)
      rw [areas.1] at behind some_bytes
      omega

/-- The areas `areas` of the parent are still to be copied behind those of the child. -/
structure Ready (s : AreaHeap) (qs : List Nat) (areas : List VmArea) : Prop where
  placed : AreasPlaced (areasOf s qs ++ areas)
  short : ∀ a ∈ areas, a.vmEnd - a.vmStart < 2 ^ 31
  inside : qs ≠ [] → ∀ a ∈ areas.head?, a.vmEnd ≤ areaEnd
  below : ∀ a ∈ areas.tail, a.vmEnd ≤ areaEnd

theorem Ready.fits {cur : VmArea} {areas : List VmArea} (ready : Ready s qs (cur :: areas)) :
    areasOf s qs = [] ∨ cur.vmEnd ≤ areaEnd := by
  by_cases none : qs = []
  · exact .inl (none ▸ rfl)
  · exact .inr (ready.inside none cur rfl)

theorem Ready.copied {cur node : VmArea} {areas : List VmArea} {n : Nat} {qs' : List Nat} {b : Bool}
    (ready : Ready s qs (cur :: areas)) (child : Holds s c qs)
    (new : Uproc.newVmeNode (areasOf s qs) cur.vmStart
      (toInt32 ((cur.vmEnd : Int) - cur.vmStart)) cur.vmProt cur.vmFlags = some node)
    (added : Added s c n node qs qs' s') (joined : Joined s n node qs qs' s' b) :
    qs' = qs ++ [n] ∧ s'.refused = s.refused ∧ areasOf s' (qs ++ [n]) = areasOf s qs ++ [cur] ∧
      Ready s' (qs ++ [n]) areas ∧ s'.withTail c n = s' := by
  obtain ⟨before, nonempty, cur_placed, rest_placed⟩ := placed_middle ready.placed
  rw [copy_short before cur_placed (ready.short cur List.mem_cons_self),
    if_pos (ready.fits)] at new
  cases new
  obtain ⟨rfl, refused, areas⟩ := joined_last child added joined before nonempty
    cur_placed.nonempty
  refine ⟨rfl, refused, areas, ⟨?_, ?_, ?_, ?_⟩, ?_⟩
  · rw [areas]
    exact rest_placed
  · exact fun a ha => ready.short a (List.mem_cons_of_mem _ ha)
  · exact fun _ a ha => ready.below a (List.mem_of_mem_head? ha)
  · exact fun a ha => ready.below a (List.mem_of_mem_tail ha)
  · have tail : s'.tail c = n := by
      rw [added.holds.tail, List.getLastD_concat]
    rw [AreaHeap.withTail, ← tail, Function.update_eq_self]

theorem copy_copies {fuel : Nat} {isHead : Bool} (parent : Holds s t (done ++ rest))
    (child : Holds s c qs) (other : c ≠ t) (apart : ∀ q ∈ qs, q ∉ done ++ rest)
    (first : isHead = true → qs = []) (ready : Ready s qs (areasOf s rest))
    (h : (copyLoop t c fuel (rest.headD 0) isHead).run s = .ok (u, s')) :
    ∃ ns, Holds s' c (qs ++ ns) ∧ areasOf s' (qs ++ ns) = areasOf s qs ++ areasOf s rest ∧
      Extends s c qs s' ∧ s'.refused = s.refused ∧ ∀ n ∈ ns, s.used n = false := by
  induction rest generalizing s qs done fuel isHead with
  | nil =>
    obtain rfl := copy_ends h
    refine ⟨[], ?_, ?_, ?_, rfl, nofun⟩
    · rwa [List.append_nil]
    · rw [List.append_nil, areas_of_nil, List.append_nil]
    · exact ⟨fun _ h => h, fun _ _ => rfl, fun _ _ _ => rfl, fun _ _ _ => rfl, fun _ _ => rfl,
        fun _ _ => rfl, rfl, rfl⟩
  | cons p rest ih =>
    cases fuel with
    | zero => exact (throw_ok.mp h).elim
    | succ fuel =>
      obtain ⟨n, node, qs₁, m, b, new, added, joined, kept, later⟩ :=
        copy_round parent child other apart first h
      obtain ⟨rfl, refused, areas, ready', ends⟩ := ready.copied child new added joined
      have same := added.extends.areas (rest_used parent)
      rw [ends, ite_self] at later
      obtain ⟨parent', apart'⟩ := round_apart parent apart added joined kept
      have started : false = true → qs ++ [n] = [] := nofun
      obtain ⟨ns, holds, copied, ext, unrefused, fresh⟩ := ih parent' added.holds apart' started
        (same.symm ▸ ready') later
      rw [List.append_assoc] at holds copied
      refine ⟨n :: ns, holds, ?_, ?_, unrefused.trans refused, ?_⟩
      · rw [List.singleton_append] at copied
        rw [copied, areas, same, List.append_assoc]
        rfl
      · refine added.extends.trans ext fun q used away inside => ?_
        rcases List.mem_append.mp inside with old | new
        · exact away old
        · rw [List.mem_singleton.mp new, added.fresh] at used
          cases used
      · intro q hq
        rcases List.mem_cons.mp hq with rfl | hq
        · exact added.fresh
        · exact Bool.eq_false_iff.mpr fun used =>
            Bool.eq_false_iff.mp (fresh q hq) (added.extends.used q used)

def Supplies (s : AreaHeap) (n : Nat) : Prop :=
  ∃ given more, s.choices = given ++ more ∧ given.length = n ∧ given.Nodup ∧
    ∀ p ∈ given, p ≠ 0 ∧ s.used p = false

theorem copy_runs {fuel : Nat} {isHead : Bool} (parent : Holds s t (done ++ rest))
    (child : Holds s c qs) (other : c ≠ t) (apart : ∀ q ∈ qs, q ∉ done ++ rest)
    (first : isHead = true → qs = []) (ready : Ready s qs (areasOf s rest))
    (supplies : Supplies s rest.length) (enough : qs.length + rest.length < s.rounds)
    (rounds : rest.length < fuel) :
    ∃ s', (copyLoop t c fuel (rest.headD 0) isHead).run s = .ok ((), s') := by
  obtain ⟨fuel, rfl⟩ := Nat.exists_eq_add_one_of_ne_zero (Nat.ne_of_gt (Nat.zero_lt_of_lt rounds))
  induction rest generalizing s qs done fuel isHead with
  | nil => exact ⟨s, rfl⟩
  | cons p rest ih =>
    obtain ⟨given, more, chosen, count, nodup, unused⟩ := supplies
    cases given with
    | nil => cases count
    | cons n given =>
      obtain ⟨n_new, nodup⟩ := List.nodup_cons.mp nodup
      obtain ⟨real, fresh⟩ := unused n List.mem_cons_self
      obtain ⟨before, _, cur_placed, _⟩ := placed_middle ready.placed
      have found := copy_short before cur_placed (ready.short _ List.mem_cons_self)
      rw [if_pos ready.fits] at found
      obtain ⟨mid, b, m, new, insert⟩ := node_runs child (Nat.lt_of_le_of_lt
        (Nat.le_add_right _ _) enough) chosen real fresh found
      obtain ⟨node, qs₁, placed, added, joined⟩ := node_added child new insert
      obtain ⟨rfl, refused, areas, ready', ends⟩ := ready.copied child placed added joined
      have kept : Holds m t (done ++ p :: rest) :=
        added.extends.other parent (Ne.symm other) fun q hq inside => apart q inside hq
      have same := added.extends.areas (rest_used parent)
      obtain ⟨parent', apart'⟩ := round_apart parent apart added joined kept
      have started : false = true → qs ++ [n] = [] := nofun
      have next : Supplies m rest.length := by
        refine ⟨given, more, ?_, Nat.succ.inj count, nodup, fun q hq => ?_⟩
        · have shape := added.choices
          rw [chosen] at shape
          exact (List.cons.inj shape).2.symm
        · obtain ⟨q_real, q_unused⟩ := unused q (List.mem_cons_of_mem _ hq)
          refine ⟨q_real, ?_⟩
          rw [added.used]
          exact (Function.update_of_ne (ne_of_mem_of_not_mem hq n_new) ..).trans q_unused
      obtain ⟨fuel, rfl⟩ := Nat.exists_eq_add_one_of_ne_zero
        (Nat.ne_of_gt (Nat.zero_lt_of_lt (Nat.lt_of_succ_lt_succ rounds)))
      obtain ⟨s', later⟩ := ih parent' added.holds apart' started (same.symm ▸ ready') next (by
        rw [added.rounds, List.length_append, List.length_singleton]
        rw [List.length_cons] at enough
        omega) fuel (Nat.lt_of_succ_lt_succ rounds)
      refine ⟨s', copy_round_runs parent first new insert added joined kept ?_⟩
      rw [ends, ite_self]
      exact later

end Loop

end VmaList
