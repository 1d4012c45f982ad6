import JyyOs.Uproc.VmaRun

/-!
When fork copies every area: lists kmmap built from hints in the user area, with any lengths.
-/
namespace VmaList

open Hoare PartialRun Uproc DoublyLinked

variable {s s' : AreaHeap} {t c : Nat} {ps : List Nat} {lists : Nat → List Nat} {u : Unit}

/-- uproc_create, and kmmap of any length with a hint in the user area. -/
def BuiltByMmap (_ : AreaHeap) (e : Event) : Prop :=
  match e.call with
  | .create _ => True
  | .kmmap _ addr length _ flags => flags ≠ mapUnmap ∧ InArea addr ∧ length < 2 ^ 31
  | _ => False

/-- fork_copying_vme_pages returns, and the list of the child, well linked, has the areas of the
    parent. -/
def ForkCopies (s : AreaHeap) (t c : Nat) : Prop :=
  ∀ ps choices rounds, Holds s t ps →
    Supplies { s with choices := choices, rounds := rounds } ps.length → ps.length < rounds →
    ∃ s' qs, (forkCopyingVmePages t c).run { s with choices := choices, rounds := rounds } =
        .ok ((), s') ∧ Holds s' c qs ∧ areasOf s' qs = areasOf s ps

section Built

/-- Only finitely many nodes are in use. -/
def Room (s : AreaHeap) : Prop := ∃ bound, ∀ p, bound ≤ p → s.used p = false

theorem Room.taken {p : Nat} (room : Room s) (used : s'.used = Function.update s.used p true) :
    Room s' := by
  obtain ⟨bound, free⟩ := room
  refine ⟨max bound (p + 1), fun q above => ?_⟩
  rw [used]
  have other : q ≠ p := by omega
  exact (Function.update_of_ne other ..).trans (free q (by omega))

theorem Room.supplies (room : Room s) (n : Nat) :
    ∃ choices, ∀ rounds, Supplies { s with choices := choices, rounds := rounds } n := by
  obtain ⟨bound, free⟩ := room
  refine ⟨List.range' (bound + 1) n, fun rounds => ⟨List.range' (bound + 1) n, [], ?_, ?_, ?_, ?_⟩⟩
  · rw [List.append_nil]
  · exact List.length_range'
  · exact List.nodup_range'
  · intro p hp
    have above := (List.mem_range'_1.mp hp).1
    exact ⟨by omega, free p (by omega)⟩

theorem built_step {e : Event} (tidy : Tidy s lists) (room : Room s) (built : BuiltByMmap s e)
    (taken : step s e = some s') : (∃ lists', Tidy s' lists') ∧ Room s' := by
  simp only [step] at taken
  split at taken
  · rename_i u m ran
    cases taken
    have begun := tidy.begun e
    simp only [BuiltByMmap] at built
    cases call : e.call with
    | create c =>
      rw [call] at ran
      obtain ⟨new, rfl⟩ := uproc_create_ok ran
      exact ⟨⟨_, begun.created new⟩, room⟩
    | kmmap t addr length prot flags =>
      rw [call] at ran built
      obtain ⟨maps, hint, int⟩ := built
      obtain ⟨live, _, ran⟩ := on_live_ok ran
      obtain ⟨_, p, _, _, _, added, _⟩ := kmmap_added (begun.holds t live) maps ran
      obtain ⟨_, _, _, tidy', _⟩ := mmap_step begun live maps hint int ran
      exact ⟨⟨_, tidy'⟩, room.taken added.used⟩
    | pageFault t ref thePage =>
      rw [call] at built
      exact built.elim
    | fork t c =>
      rw [call] at built
      exact built.elim
  · cases taken

theorem built_run (area : Nat → VmArea) (vmNext vmPrev head tail : Nat → Nat)
    {events : List Event}
    (built : EachStep step BuiltByMmap (emptyHeap area vmNext vmPrev head tail) events)
    (ran : run step (emptyHeap area vmNext vmPrev head tail) events = some s) :
    (∃ lists, Tidy s lists) ∧ Room s := by
  have start : (∃ lists, Tidy (emptyHeap area vmNext vmPrev head tail) lists) ∧
      Room (emptyHeap area vmNext vmPrev head tail) := ⟨⟨_, empty_tidy ..⟩, 0, fun _ _ => rfl⟩
  have kept := run_of_each_step (I := fun s => (∃ lists, Tidy s lists) ∧ Room s)
    (P := fun s => (∃ lists, Tidy s lists) ∧ Room s) (R := fun _ _ => True)
    (fun s e s' inv built taken => by
      obtain ⟨⟨lists, tidy⟩, room⟩ := inv
      have next := built_step tidy room built taken
      exact ⟨next, next, trivial⟩) events start start built
  exact throughout_of_run (P := fun s => (∃ lists, Tidy s lists) ∧ Room s) kept.1 ran

end Built

section Copies

theorem ready_of_copyable (placed : AreasPlaced (areasOf s ps)) (copyable : Copyable (areasOf s ps)) :
    Ready s [] (areasOf s ps) :=
  ⟨placed, copyable.1, fun some_node => absurd rfl some_node, copyable.2⟩

theorem fork_ok (holds : Holds s t ps) :
    (forkCopyingVmePages t c).run s = .ok (u, s') ↔
      (ps = [] ∧ s' = s.noAreas c) ∨
        (ps ≠ [] ∧ (copyLoop t c s.rounds (ps.headD 0) true).run s = .ok (u, s')) := by
  simp only [forkCopyingVmePages, bind_ok, get_ok]
  constructor
  · rintro ⟨_, _, ⟨rfl, rfl⟩, h⟩
    split at h
    · rename_i null
      exact .inl ⟨holds.head_null.mp null, set_ok.mp h⟩
    · rename_i real
      exact .inr ⟨fun none => real (holds.head_null.mpr none), holds.head ▸ h⟩
  · rintro (⟨none, same⟩ | ⟨some_node, h⟩)
    · refine ⟨s, s, ⟨rfl, rfl⟩, ?_⟩
      rw [if_pos (holds.head_null.mpr none)]
      exact set_ok.mpr same
    · refine ⟨s, s, ⟨rfl, rfl⟩, ?_⟩
      rw [if_neg fun null => some_node (holds.head_null.mp null), holds.head]
      exact h

theorem copies_of_copyable (holds : Holds s t ps) (child : Holds s c []) (other : c ≠ t)
    (placed : AreasPlaced (areasOf s ps)) (copyable : Copyable (areasOf s ps))
    (supplies : Supplies s ps.length) (enough : ps.length < s.rounds) :
    ∃ s' qs, (forkCopyingVmePages t c).run s = .ok ((), s') ∧ Holds s' c qs ∧
      areasOf s' qs = areasOf s ps := by
  by_cases none : ps = []
  · refine ⟨s.noAreas c, [], (fork_ok holds).mpr (.inl ⟨none, rfl⟩), ⟨ring_empty ?_ ?_, nofun⟩, ?_⟩
    · exact forth_null.trans (Function.update_self ..)
    · exact back_null.trans (Function.update_self ..)
    · rw [none]
      rfl
  · have whole : Holds s t ([] ++ ps) := holds
    have ready := ready_of_copyable placed copyable
    obtain ⟨s', ran⟩ := copy_runs whole child other nofun (fun _ : true = true => rfl) ready supplies
      (by rw [List.length_nil, Nat.zero_add]; exact enough) enough
    obtain ⟨ns, copy, areas, _⟩ := copy_copies whole child other nofun (fun _ => rfl) ready ran
    exact ⟨s', ns, (fork_ok holds).mpr (.inr ⟨none, ran⟩), copy, areas⟩

theorem copyable_of_copies (holds : Holds s t ps) (child : Holds s c []) (other : c ≠ t)
    (placed : AreasPlaced (areasOf s ps)) {qs : List Nat}
    (ran : (forkCopyingVmePages t c).run s = .ok ((), s')) (copy : Holds s' c qs)
    (same : areasOf s' qs = areasOf s ps) : Copyable (areasOf s ps) := by
  rcases (fork_ok holds).mp ran with ⟨rfl, _⟩ | ⟨_, ran⟩
  · exact ⟨nofun, nofun⟩
  · have whole : Holds s t ([] ++ ps) := holds
    obtain ⟨qs', all, tail, copied, fixed⟩ := copy_refines whole child other nofun (fun _ => rfl) ran
    have shape : qs = qs' :=
      links_unique copy.ring.links fixed.ring.links copy.ring.real fixed.ring.real
    rw [← shape, same] at copied
    exact (copy_areas_iff placed).mp ⟨all, copied⟩

/-- From a list built by kmmap, fork copies every area exactly when no area is 2^31 bytes long
    and no area but the first ends behind the user area. -/
theorem fork_copies_iff (area : Nat → VmArea) (vmNext vmPrev head tail : Nat → Nat)
    (events : List Event)
    (built : EachStep step BuiltByMmap (emptyHeap area vmNext vmPrev head tail) events)
    (ran : run step (emptyHeap area vmNext vmPrev head tail) events = some s) (parent : t ∈ s.live)
    (child : c ∈ s.live) (other : c ≠ t) (empty : s.head c = 0) :
    ForkCopies s t c ↔ ∀ ps, Holds s t ps → Copyable (areasOf s ps) := by
  obtain ⟨⟨lists, tidy⟩, room⟩ := built_run area vmNext vmPrev head tail built ran
  have none := (tidy.holds c child).head_null.mp empty
  have child_holds := tidy.holds c child
  rw [none] at child_holds
  constructor
  · intro copies ps holds
    obtain rfl := holds_unique holds (tidy.holds t parent)
    obtain ⟨choices, supplies⟩ := room.supplies (lists t).length
    obtain ⟨s', qs, ran, copy, same⟩ := copies (lists t) choices ((lists t).length + 1) holds
      (supplies _) (Nat.lt_succ_self _)
    exact copyable_of_copies (s := { s with choices := choices, rounds := (lists t).length + 1 })
      ⟨holds.ring, holds.used⟩ ⟨child_holds.ring, child_holds.used⟩ other (tidy.placed t parent) ran
      copy same
  · intro copyable ps choices rounds holds supplies enough
    have placed := tidy.placed t parent
    rw [← holds_unique holds (tidy.holds t parent)] at placed
    exact copies_of_copyable (s := { s with choices := choices, rounds := rounds })
      ⟨holds.ring, holds.used⟩ ⟨child_holds.ring, child_holds.used⟩ other placed (copyable ps holds)
      supplies enough

theorem holds_single {p : Nat} (holds : Holds s t ps) (head : s.head t = p) (real : p ≠ 0)
    (ends : s.vmNext p = 0) : ps = [p] := by
  cases ps with
  | nil => exact absurd (head.symm.trans holds.head) real
  | cons q rest =>
    obtain rfl : p = q := head.symm.trans holds.head
    have whole : Holds s t ([] ++ p :: rest) := holds
    have follows := whole.next.2
    cases rest with
    | nil => rfl
    | cons q rest =>
      rw [ends] at follows
      exact absurd follows.symm (holds.real q (by simp))

def arbitraryHeap : AreaHeap :=
  emptyHeap (fun _ => ⟨1, 2, 3, 4⟩) (fun _ => 5) (fun _ => 6) (fun _ => 7) (fun _ => 8)

def oneRegion (length : Int) : List Event :=
  [⟨.create 1, [], 9⟩, ⟨.kmmap 1 areaStart length 6 2, [10], 9⟩, ⟨.create 2, [], 9⟩]

theorem one_region_built {length : Int} (int : length < 2 ^ 31) :
    EachStep step BuiltByMmap arbitraryHeap (oneRegion length) :=
  fun _ _ => ⟨trivial, fun _ _ => ⟨⟨by decide, by decide, int⟩, fun _ _ => ⟨trivial, trivial⟩⟩⟩

theorem fork_copies_one_region :
    ∃ s, run step arbitraryHeap (oneRegion 100) = some s ∧ ForkCopies s 1 2 := by
  have ends : (run step arbitraryHeap (oneRegion 100)).map
      (fun s => (s.live, s.head 2, s.head 1, s.vmNext 10, s.area 10)) =
        some ([2, 1], 0, 10, 0, ⟨areaStart, areaStart + 4096, 6, 2⟩) := by
    decide +kernel
  obtain ⟨s, ran, facts⟩ := Option.map_eq_some_iff.mp ends
  simp only [Prod.mk.injEq] at facts
  obtain ⟨live, empty, head, last, area⟩ := facts
  refine ⟨s, ran, (fork_copies_iff _ _ _ _ _ _ (one_region_built (by decide)) ran (by simp [live])
    (by simp [live]) (by decide) empty).mpr fun ps holds => ?_⟩
  rw [holds_single holds head (by decide) last, areas_of_cons, area]
  exact ⟨by simp, nofun⟩

/-- A region of INT_MAX bytes is not copied. -/
theorem fork_loses_largest_region :
    ∃ s, run step arbitraryHeap (oneRegion (2 ^ 31 - 1)) = some s ∧
      EachStep step BuiltByMmap arbitraryHeap (oneRegion (2 ^ 31 - 1)) ∧ 1 ∈ s.live ∧ 2 ∈ s.live ∧
      s.head 2 = 0 ∧ ¬ForkCopies s 1 2 := by
  have ends : (run step arbitraryHeap (oneRegion (2 ^ 31 - 1))).map
      (fun s => (s.live, s.head 2, s.head 1, s.vmNext 10, s.area 10, s.used 11)) =
        some ([2, 1], 0, 10, 0, ⟨areaStart, areaStart + 2 ^ 31, 6, 2⟩, false) := by
    decide +kernel
  obtain ⟨s, ran, facts⟩ := Option.map_eq_some_iff.mp ends
  simp only [Prod.mk.injEq] at facts
  obtain ⟨live, empty, head, last, area, fresh⟩ := facts
  have built : EachStep step BuiltByMmap arbitraryHeap (oneRegion (2 ^ 31 - 1)) :=
    one_region_built (by decide)
  have parent : 1 ∈ s.live := by simp [live]
  have child : 2 ∈ s.live := by simp [live]
  obtain ⟨⟨lists, tidy⟩, _⟩ := built_run _ _ _ _ _ built ran
  have holds := tidy.holds 1 parent
  have only := holds_single holds head (by decide) last
  have child_holds := tidy.holds 2 child
  rw [child_holds.head_null.mp empty] at child_holds
  refine ⟨s, ran, built, parent, child, empty, fun copies => ?_⟩
  obtain ⟨s', qs, copied, copy, same⟩ := copies (lists 1) [11] 2 holds
    ⟨[11], [], rfl, by rw [only]; rfl, by decide, by simpa using fresh⟩ (by rw [only]; decide)
  have copyable := copyable_of_copies (s := { s with choices := [11], rounds := 2 })
    ⟨holds.ring, holds.used⟩ ⟨child_holds.ring, child_holds.used⟩ (by decide) (tidy.placed 1 parent)
    copied copy same
  rw [only] at copyable
  have short := copyable.1 (s.area 10) List.mem_cons_self
  rw [area] at short
  exact absurd short (by decide)

end Copies

end VmaList
