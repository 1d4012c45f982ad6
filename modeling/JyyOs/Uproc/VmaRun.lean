import JyyOs.Uproc.VmaCopy

/-!
Runs of kmmap, page_fault and fork over the area lists of all processes.
-/
namespace VmaList

open Hoare PartialRun Uproc DoublyLinked

variable {s s' : AreaHeap} {t c : Nat} {ps : List Nat} {lists : Nat → List Nat} {u : Unit}

section Panic

variable {α β : Type}

def Quiet (x : Areas α) : Prop := ∀ s, x.run s ≠ .error .mmapFailed

theorem quiet_bind {x : Areas α} {f : α → Areas β} (first : Quiet x) (rest : ∀ a, Quiet (f a)) :
    Quiet (x >>= f) := by
  intro s h
  rcases bind_error.mp h with failed | ⟨a, mid, _, later⟩
  · exact first s failed
  · exact rest a mid later

theorem quiet_pure (a : α) : Quiet (pure a) := fun _ => nofun

theorem quiet_get : Quiet (get : Areas AreaHeap) := fun _ => nofun

theorem quiet_set (t : AreaHeap) : Quiet (set t : Areas PUnit) := fun _ => nofun

theorem quiet_modify (f : AreaHeap → AreaHeap) : Quiet (modify f : Areas PUnit) := fun _ => nofun

theorem quiet_throw {e : Stop} (other : e ≠ .mmapFailed) : Quiet (throw e : Areas α) := by
  intro s h
  cases h
  exact other rfl

theorem quiet_stop {p : Prop} [Decidable p] {e : Stop} (other : e ≠ .mmapFailed) :
    Quiet (stopUnless p e) := by
  unfold stopUnless
  split
  · exact quiet_pure ()
  · exact quiet_throw other

theorem quiet_or {x : Option α} {e : Stop} (other : e ≠ .mmapFailed) : Quiet (orStop x e) := by
  cases x with
  | none => exact quiet_throw other
  | some a => exact quiet_pure a

theorem alloc_vme_quiet : Quiet allocVme := by
  refine quiet_bind quiet_get fun s => ?_
  split
  · exact quiet_throw (by decide)
  · exact quiet_bind (quiet_stop (by decide)) fun _ => quiet_bind (quiet_set _) fun _ => quiet_pure _

theorem get_suitable_addr_quiet (t start : Nat) (length : Int) :
    Quiet (getSuitableAddr t start length) := by
  refine quiet_bind quiet_get fun s => ?_
  split
  · exact quiet_pure _
  · exact quiet_bind (quiet_or (by decide)) fun _ => quiet_bind (quiet_stop (by decide)) fun _ => quiet_pure _

theorem new_vme_node_quiet (t addr : Nat) (length prot flags : Int) :
    Quiet (newVmeNode t addr length prot flags) := by
  refine quiet_bind alloc_vme_quiet fun node => ?_
  refine quiet_bind (get_suitable_addr_quiet _ _ _) fun start => ?_
  exact quiet_bind (quiet_stop (by decide)) fun _ => quiet_bind (quiet_modify _) fun _ => quiet_pure _

theorem insert_vme_node_quiet (t p : Nat) : Quiet (insertVmeNode t p) := by
  refine quiet_bind quiet_get fun s => ?_
  split
  · exact quiet_bind (quiet_set _) fun _ => quiet_pure _
  · refine quiet_bind (quiet_or (by decide)) fun slot => ?_
    split
    · exact quiet_bind (quiet_set _) fun _ => quiet_pure _
    · exact quiet_bind (quiet_set _) fun _ => quiet_pure _

theorem find_vme_node_quiet (t addr stop : Nat) : Quiet (findVmeNode t addr stop) :=
  quiet_bind quiet_get fun _ => quiet_or (by decide)

theorem copy_loop_quiet (fuel cur : Nat) (isHead : Bool) : Quiet (copyLoop t c fuel cur isHead) := by
  induction fuel generalizing cur isHead with
  | zero => exact quiet_throw (by decide)
  | succ fuel ih =>
    unfold copyLoop
    split
    · exact quiet_pure _
    · refine quiet_bind quiet_get fun s => quiet_bind (new_vme_node_quiet _ _ _ _ _) fun n => ?_
      refine quiet_bind (insert_vme_node_quiet _ _) fun _ => ?_
      exact quiet_bind (quiet_modify _) fun _ => quiet_bind quiet_get fun _ => ih _ _

theorem fork_quiet : Quiet (forkCopyingVmePages t c) := by
  refine quiet_bind quiet_get fun s => ?_
  split
  · exact quiet_set _
  · exact copy_loop_quiet _ _ _

theorem create_quiet : Quiet (uprocCreate c) :=
  quiet_bind quiet_get fun _ => quiet_bind (quiet_stop (by decide)) fun _ => quiet_set _

/-- kmmap panics only where insert_vme_node refuses the node new_vme_node made. -/
theorem kmmap_panics {addr : Nat} {length prot flags : Int}
    (h : (kmmap t addr length prot flags).run s = .error .mmapFailed) :
    flags ≠ mapUnmap ∧ 0 < length ∧ ∃ p mid m,
      (newVmeNode t addr length prot flags).run s = .ok (p, mid) ∧
      (insertVmeNode t p).run mid = .ok (false, m) := by
  rcases bind_error.mp h with failed | ⟨_, _, passed, h⟩
  · exact (quiet_stop (by decide) s failed).elim
  obtain ⟨_, rfl⟩ := stop_unless_ok.mp passed
  rcases bind_error.mp h with failed | ⟨_, _, passed, h⟩
  · exact (quiet_stop (by decide) s failed).elim
  obtain ⟨positive, rfl⟩ := stop_unless_ok.mp passed
  split at h
  · refine (quiet_bind (quiet_stop (by decide)) (fun _ => ?_) s h).elim
    exact quiet_bind (find_vme_node_quiet _ _ _) fun _ => quiet_pure _
  · rename_i maps
    refine ⟨maps, positive, ?_⟩
    rcases bind_error.mp h with failed | ⟨p, mid, new, h⟩
    · exact (new_vme_node_quiet _ _ _ _ _ s failed).elim
    rcases bind_error.mp h with failed | ⟨b, m, insert, h⟩
    · exact (insert_vme_node_quiet _ _ mid failed).elim
    refine ⟨p, mid, m, new, ?_⟩
    cases b with
    | false => exact insert
    | true => exact (quiet_bind quiet_get (fun _ => quiet_pure _) m h).elim

end Panic

section Calls

variable {addr r : Nat} {length prot flags : Int}

theorem kmmap_added (holds : Holds s t ps) (maps : flags ≠ mapUnmap)
    (h : (kmmap t addr length prot flags).run s = .ok (r, s')) :
    0 < length ∧ ∃ p node ps',
      Uproc.newVmeNode (areasOf s ps) addr length prot flags = some node ∧
      Added s t p node ps ps' s' ∧ Joined s p node ps ps' s' true := by
  simp only [kmmap, bind_ok, stop_unless_ok, if_neg maps, get_ok, pure_ok] at h
  obtain ⟨_, _, ⟨_, rfl⟩, _, _, ⟨positive, rfl⟩, p, mid, new, b, m, insert, _, _, ⟨success, rfl⟩, _,
    _, ⟨rfl, rfl⟩, _, rfl⟩ := h
  subst success
  obtain ⟨node, ps', placed, added, joined⟩ := node_added holds new insert
  exact ⟨positive, p, node, ps', placed, added, joined⟩

theorem find_vme_node_ok {stop : Nat} (holds : Holds s t ps)
    (h : (findVmeNode t addr stop).run s = .ok (r, s')) :
    s = s' ∧ (r = 0 → Uproc.findVmeNode (areasOf s ps) addr stop = none) := by
  simp only [findVmeNode, bind_ok, get_ok, or_stop_ok] at h
  obtain ⟨_, _, ⟨rfl, rfl⟩, walked, rfl⟩ := h
  rw [holds.head] at walked
  exact ⟨rfl, find_walk (links_next holds.ring.links).2 holds.ring.real walked⟩

end Calls

section Tidy

/-- The lists of all processes share no node, and their areas are sorted, disjoint and aligned. -/
structure Tidy (s : AreaHeap) (lists : Nat → List Nat) : Prop where
  holds : ∀ t ∈ s.live, Holds s t (lists t)
  apart : ∀ t ∈ s.live, ∀ t' ∈ s.live, t ≠ t' → ∀ q ∈ lists t, q ∉ lists t'
  placed : ∀ t ∈ s.live, AreasPlaced (areasOf s (lists t))
  refused : s.refused = false

def Kept (s : AreaHeap) (lists : Nat → List Nat) (s' : AreaHeap) (lists' : Nat → List Nat) : Prop :=
  ∀ t ∈ s.live, t ∈ s'.live ∧ (lists t).Sublist (lists' t) ∧ ∀ p ∈ lists t, s'.area p = s.area p

theorem Tidy.extended {ps' : List Nat} (tidy : Tidy s lists) (live : t ∈ s.live)
    (ext : Extends s t (lists t) s') (holds : Holds s' t ps')
    (fresh : ∀ q ∈ ps', q ∈ lists t ∨ s.used q = false) (placed : AreasPlaced (areasOf s' ps'))
    (refused : s'.refused = false) : Tidy s' (Function.update lists t ps') := by
  have away : ∀ t' ∈ s.live, t' ≠ t → ∀ q ∈ ps', q ∉ lists t' := by
    intro t' live' other q hq inside
    rcases fresh q hq with old | unused
    · exact tidy.apart t live t' live' (Ne.symm other) q old inside
    · rw [(tidy.holds t' live').used q inside] at unused
      cases unused
  constructor
  · intro t' live'
    rw [ext.live] at live'
    by_cases here : t' = t
    · rw [here, Function.update_self]
      exact holds
    · rw [Function.update_of_ne here]
      exact ext.other (tidy.holds t' live') here (tidy.apart t' live' t live here)
  · intro t₁ h₁ t₂ h₂ ne q hq
    rw [ext.live] at h₁ h₂
    by_cases here₁ : t₁ = t
    · subst here₁
      rw [Function.update_self] at hq
      rw [Function.update_of_ne (Ne.symm ne)]
      exact away t₂ h₂ (Ne.symm ne) q hq
    · rw [Function.update_of_ne here₁] at hq
      by_cases here₂ : t₂ = t
      · subst here₂
        rw [Function.update_self]
        exact fun inside => away t₁ h₁ here₁ q inside hq
      · rw [Function.update_of_ne here₂]
        exact tidy.apart t₁ h₁ t₂ h₂ ne q hq
  · intro t' live'
    rw [ext.live] at live'
    by_cases here : t' = t
    · rw [here, Function.update_self]
      exact placed
    · rw [Function.update_of_ne here, ext.areas (tidy.holds t' live').used]
      exact tidy.placed t' live'
  · exact refused

theorem kept_extended {ps' : List Nat} (tidy : Tidy s lists) (ext : Extends s t (lists t) s')
    (grows : (lists t).Sublist ps') : Kept s lists s' (Function.update lists t ps') := by
  intro t' live'
  refine ⟨ext.live ▸ live', ?_, fun p hp => ext.area p ((tidy.holds t' live').used p hp)⟩
  by_cases here : t' = t
  · rw [here, Function.update_self]
    exact grows
  · rw [Function.update_of_ne here]

theorem Tidy.created (tidy : Tidy s lists) (new : c ∉ s.live) :
    Tidy { s.noAreas c with live := c :: s.live } (Function.update lists c []) := by
  have other : ∀ t ∈ s.live, t ≠ c := fun t live same => new (same ▸ live)
  constructor
  · intro t live
    rcases List.mem_cons.mp live with rfl | live
    · rw [Function.update_self]
      refine ⟨ring_empty ?_ ?_, nofun⟩
      · exact forth_null.trans (Function.update_self ..)
      · exact back_null.trans (Function.update_self ..)
    · rw [Function.update_of_ne (other t live)]
      refine (tidy.holds t live).congr ?_ ?_ (fun _ _ => rfl) (fun _ _ => rfl) fun _ _ => rfl
      · exact Function.update_of_ne (other t live) ..
      · exact Function.update_of_ne (other t live) ..
  · intro t₁ h₁ t₂ h₂ ne q hq
    rcases List.mem_cons.mp h₁ with rfl | h₁
    · rw [Function.update_self] at hq
      cases hq
    · rw [Function.update_of_ne (other t₁ h₁)] at hq
      rcases List.mem_cons.mp h₂ with rfl | h₂
      · rw [Function.update_self]
        exact List.not_mem_nil
      · rw [Function.update_of_ne (other t₂ h₂)]
        exact tidy.apart t₁ h₁ t₂ h₂ ne q hq
  · intro t live
    rcases List.mem_cons.mp live with rfl | live
    · rw [Function.update_self]
      exact ⟨nofun, List.Pairwise.nil⟩
    · rw [Function.update_of_ne (other t live)]
      exact tidy.placed t live
  · exact tidy.refused

theorem kept_created (new : c ∉ s.live) :
    Kept s lists { s.noAreas c with live := c :: s.live } (Function.update lists c []) := by
  intro t live
  have other : t ≠ c := fun same => new (same ▸ live)
  rw [Function.update_of_ne other]
  exact ⟨List.mem_cons_of_mem _ live, List.Sublist.refl _, fun _ _ => rfl⟩

theorem Tidy.added {p : Nat} {node : VmArea} {ps' : List Nat} (tidy : Tidy s lists)
    (live : t ∈ s.live) (added : Added s t p node (lists t) ps' s')
    (joined : Joined s p node (lists t) ps' s' true) (placed : AreaPlaced node) :
    Tidy s' (Function.update lists t ps') ∧ Kept s lists s' (Function.update lists t ps') := by
  cases joined with
  | @inserted front back before after kept areas =>
    have grows : (lists t).Sublist ps' := by
      rw [before, after]
      exact List.Sublist.append_left (List.sublist_cons_self ..) _
    refine ⟨tidy.extended live added.extends added.holds ?_ ?_ (kept.trans tidy.refused),
      kept_extended tidy added.extends grows⟩
    · intro q hq
      rcases joined_mem (.inserted before after kept areas) q hq with rfl | old
      · exact .inr added.fresh
      · exact .inl old
    · exact insert_placed areas (tidy.placed t live) placed

end Tidy

section Steps

variable {addr r : Nat} {length prot flags : Int}

def Inside (s : AreaHeap) (lists : Nat → List Nat) : Prop :=
  ∀ t ∈ s.live, ∀ a ∈ areasOf s (lists t), a.vmEnd ≤ areaEnd

theorem kept_refl : Kept s lists s lists :=
  fun _ live => ⟨live, List.Sublist.refl _, fun _ _ => rfl⟩

theorem Kept.trans {mid : AreaHeap} {lists₁ lists₂ : Nat → List Nat}
    (first : Kept s lists mid lists₁) (later : Kept mid lists₁ s' lists₂) :
    Kept s lists s' lists₂ := by
  intro t ht
  obtain ⟨live₁, sub₁, areas₁⟩ := first t ht
  obtain ⟨live₂, sub₂, areas₂⟩ := later t live₁
  exact ⟨live₂, sub₁.trans sub₂, fun p hp => (areas₂ p (sub₁.subset hp)).trans (areas₁ p hp)⟩

theorem Inside.extended {ps' : List Nat} (inside : Inside s lists)
    (kept : Kept s lists s' (Function.update lists t ps')) (live : s'.live = s.live)
    (new : ∀ q ∈ ps', q ∈ lists t ∨ (s'.area q).vmEnd ≤ areaEnd) :
    Inside s' (Function.update lists t ps') := by
  intro t' ht' a ha
  rw [live] at ht'
  obtain ⟨q, hq, rfl⟩ := List.mem_map.mp ha
  have old : q ∈ lists t' → (s'.area q).vmEnd ≤ areaEnd := fun hq => by
    rw [(kept t' ht').2.2 q hq]
    exact inside t' ht' _ (List.mem_map_of_mem hq)
  by_cases here : t' = t
  · rw [here, Function.update_self] at hq
    rcases new q hq with listed | below
    · exact old (here ▸ listed)
    · exact below
  · rw [Function.update_of_ne here] at hq
    exact old hq

theorem mmap_step (tidy : Tidy s lists) (live : t ∈ s.live) (maps : flags ≠ mapUnmap)
    (hint : InArea addr) (int : length < 2 ^ 31)
    (h : (kmmap t addr length prot flags).run s = .ok (r, s')) :
    ∃ node ps', Uproc.newVmeNode (areasOf s (lists t)) addr length prot flags = some node ∧
      Tidy s' (Function.update lists t ps') ∧ Kept s lists s' (Function.update lists t ps') ∧
      s'.live = s.live ∧ (∀ q ∈ ps', q ∈ lists t ∨ s'.area q = node) ∧
      node.vmEnd = regionEnd length node.vmStart ∧
      (areasOf s (lists t) ≠ [] → node.vmEnd ≤ areaEnd) := by
  obtain ⟨positive, p, node, ps', new, added, joined⟩ := kmmap_added (tidy.holds t live) maps h
  obtain ⟨placed, _, ends, inside⟩ := hint_placed (tidy.placed t live) hint positive int new
  obtain ⟨tidy', kept⟩ := tidy.added live added joined placed
  refine ⟨node, ps', new, tidy', kept, added.live, fun q hq => ?_, ends, inside⟩
  rcases joined_mem joined q hq with rfl | old
  · right
    rw [added.area, Function.update_self]
  · exact .inl old

theorem fault_step {ref thePage : Nat} (tidy : Tidy s lists) (inside : Inside s lists)
    (live : t ∈ s.live) (h : (pageFault t ref thePage).run s = .ok (u, s')) :
    ∃ ps', Tidy s' (Function.update lists t ps') ∧ Inside s' (Function.update lists t ps') ∧
      Kept s lists s' (Function.update lists t ps') ∧ ∀ q ∈ ps', q ∈ lists t ∨
        ((s'.area q).vmStart = roundDown ref ∧ (s'.area q).vmEnd = roundDown ref + pgsize) := by
  have unchanged : s = s' → ∃ ps', Tidy s' (Function.update lists t ps') ∧
      Inside s' (Function.update lists t ps') ∧ Kept s lists s' (Function.update lists t ps') ∧
      ∀ q ∈ ps', q ∈ lists t ∨ ((s'.area q).vmStart = roundDown ref ∧
        (s'.area q).vmEnd = roundDown ref + pgsize) := by
    rintro rfl
    refine ⟨lists t, ?_⟩
    rw [Function.update_eq_self]
    exact ⟨tidy, inside, kept_refl, fun q hq => .inl hq⟩
  simp only [pageFault] at h
  split at h
  · rename_i area
    obtain ⟨vma, mid, find, h⟩ := bind_ok.mp h
    obtain ⟨rfl, outside⟩ := find_vme_node_ok (tidy.holds t live) find
    split at h
    · rename_i new
      obtain ⟨_, _, mmap, h⟩ := bind_ok.mp h
      obtain ⟨_, rfl⟩ := pure_ok.mp h
      have page : UserPage (roundDown ref) := ⟨area, by simp only [roundDown, pgsize]; omega⟩
      obtain ⟨node, ps', placed, tidy', kept, same_live, added, _⟩ :=
        mmap_step tidy live (by decide) area (by decide) mmap
      have uncovered := outside new.2
      rw [page_end page] at uncovered
      obtain ⟨start, stop⟩ := page_placed (tidy.placed t live) page uncovered placed
      have upper := (user_page_bounds page).2.1
      refine ⟨ps', tidy', inside.extended kept same_live ?_, kept, ?_⟩
      · exact fun q hq => (added q hq).imp_right fun own => by
          rw [own, stop]
          exact upper
      · exact fun q hq => (added q hq).imp_right fun own => by
          rw [own]
          exact ⟨start, stop⟩
    · exact unchanged (pure_ok.mp h).2
  · exact unchanged (pure_ok.mp h).2

theorem fork_step (tidy : Tidy s lists) (live : t ∈ s.live) (new : c ∉ s.live)
    (copyable : Copyable (areasOf s (lists t)))
    (h : (forkCopyingVmePages t c).run { s.noAreas c with live := c :: s.live } = .ok (u, s')) :
    ∃ ns, Tidy s' (Function.update lists c ns) ∧ Kept s lists s' (Function.update lists c ns) ∧
      s'.live = c :: s.live ∧ areasOf s' ns = areasOf s (lists t) := by
  have created := tidy.created new
  have kept : Kept s lists _ _ := kept_created new
  have other : t ≠ c := fun same => new (same ▸ live)
  have live' : t ∈ c :: s.live := List.mem_cons_of_mem _ live
  have parent := created.holds t live'
  have child := created.holds c List.mem_cons_self
  rw [Function.update_of_ne other] at parent
  rw [Function.update_self] at child
  simp only [forkCopyingVmePages, bind_ok, get_ok] at h
  obtain ⟨_, _, ⟨rfl, rfl⟩, h⟩ := h
  split at h
  · rename_i null
    have none := parent.head_null.mp null
    obtain rfl := set_ok.mp h
    refine ⟨[], ?_, ?_, rfl, ?_⟩
    · simpa only [AreaHeap.noAreas, Function.update_idem] using created
    · exact kept
    · rw [none]
      rfl
  · rw [parent.head] at h
    have whole : Holds { s.noAreas c with live := c :: s.live } t ([] ++ lists t) := parent
    obtain ⟨ns, holds, areas, ext, refused, fresh⟩ := copy_copies whole child
      (Ne.symm other) nofun (fun _ => rfl)
      ⟨tidy.placed t live, copyable.1, fun some_node => absurd rfl some_node, copyable.2⟩ h
    have none : Function.update lists c [] c = [] := Function.update_self ..
    rw [List.nil_append] at holds areas
    rw [← none] at ext
    have sub : (Function.update lists c [] c).Sublist ns := by
      rw [none]
      exact List.nil_sublist ns
    have grown := created.extended List.mem_cons_self ext holds (fun q hq => .inr (fresh q hq))
      (areas ▸ tidy.placed t live) (refused.trans tidy.refused)
    have later := kept_extended created ext sub
    rw [Function.update_idem] at grown later
    exact ⟨ns, grown, kept.trans later, ext.live, areas⟩

end Steps

section WellFormed

/-- The calls the areas are made for: regions inside the user area, and forks of processes
    whose areas are shorter than 2^31. -/
def Allowed (s : AreaHeap) (e : Event) : Prop :=
  match e.call with
  | .create _ => True
  | .pageFault _ _ _ => True
  | .kmmap t addr length _ flags => flags ≠ mapUnmap ∧ InArea addr ∧ length < 2 ^ 31 ∧
    (s.head t = 0 → regionEnd length (roundUp addr) ≤ areaEnd)
  | .fork t _ => ∀ ps, Holds s t ps → ∀ a ∈ areasOf s ps, a.vmEnd - a.vmStart < 2 ^ 31

/-- Every process has a finite doubly linked list of areas that are sorted, disjoint, non-empty,
    page aligned and inside the user area. -/
def WellFormed (s : AreaHeap) : Prop :=
  ∀ t ∈ s.live, ∃ ps, Holds s t ps ∧ AreasWithin (areasOf s ps)

def NeverFails (s : AreaHeap) : Prop :=
  ∀ e, Allowed s e → (perform e.call).run (s.begun e) ≠ .error .mmapFailed

/-- Every earlier area is kept, and an area page_fault made is the page of the fault. -/
def AreasKept (s : AreaHeap) (e : Event) : Prop :=
  ∀ s', step s e = some s' → ∀ t ∈ s.live, ∀ ps, Holds s t ps → ∃ ps', Holds s' t ps' ∧
    ps.Sublist ps' ∧ (∀ p ∈ ps, s'.area p = s.area p) ∧
    ∀ ref thePage, e.call = .pageFault t ref thePage → ∀ p ∈ ps', p ∈ ps ∨
      ((s'.area p).vmStart = roundDown ref ∧ (s'.area p).vmEnd = roundDown ref + pgsize)

theorem on_live_ok {α : Type} {x : Areas α} (h : (onLive t x).run s = .ok (u, s')) :
    t ∈ s.live ∧ ∃ a, x.run s = .ok (a, s') := by
  simp only [onLive, bind_ok, get_ok, stop_unless_ok, pure_ok] at h
  obtain ⟨_, _, ⟨rfl, rfl⟩, _, _, ⟨live, rfl⟩, a, _, ran, _, rfl⟩ := h
  exact ⟨live, a, ran⟩

theorem uproc_create_ok (h : (uprocCreate c).run s = .ok (u, s')) :
    c ∉ s.live ∧ s' = { s.noAreas c with live := c :: s.live } := by
  simp only [uprocCreate, bind_ok, get_ok, stop_unless_ok, set_ok] at h
  obtain ⟨_, _, ⟨rfl, rfl⟩, _, _, ⟨⟨_, new⟩, rfl⟩, rfl⟩ := h
  exact ⟨new, rfl⟩

theorem Tidy.begun (tidy : Tidy s lists) (e : Event) : Tidy (s.begun e) lists :=
  ⟨fun t live => ⟨(tidy.holds t live).ring, (tidy.holds t live).used⟩, tidy.apart, tidy.placed,
    tidy.refused⟩

theorem step_tidy {e : Event} (tidy : Tidy s lists) (inside : Inside s lists)
    (allowed : Allowed s e) (taken : step s e = some s') :
    ∃ lists', Tidy s' lists' ∧ Inside s' lists' ∧ Kept s lists s' lists' ∧
      ∀ t ∈ s.live, ∀ ref thePage, e.call = .pageFault t ref thePage → ∀ p ∈ lists' t,
        p ∈ lists t ∨ ((s'.area p).vmStart = roundDown ref ∧
          (s'.area p).vmEnd = roundDown ref + pgsize) := by
  simp only [step] at taken
  split at taken
  · rename_i u m ran
    cases taken
    have begun := tidy.begun e
    simp only [Allowed] at allowed
    cases call : e.call with
    | create c =>
      rw [call] at ran
      obtain ⟨new, rfl⟩ := uproc_create_ok ran
      refine ⟨_, begun.created new, ?_, kept_created (s := s.begun e) new, nofun⟩
      intro t live a ha
      rcases List.mem_cons.mp live with rfl | live
      · rw [Function.update_self] at ha
        cases ha
      · have other : t ≠ c := fun same => new (same ▸ live)
        rw [Function.update_of_ne other] at ha
        exact inside t live a ha
    | kmmap t addr length prot flags =>
      rw [call] at ran allowed
      obtain ⟨maps, hint, int, fits⟩ := allowed
      obtain ⟨live, _, ran⟩ := on_live_ok ran
      obtain ⟨node, ps', placed, tidy', kept, same_live, added, ends, below⟩ :=
        mmap_step begun live maps hint int ran
      have node_in : node.vmEnd ≤ areaEnd := by
        by_cases none : areasOf s (lists t) = []
        · have empty := List.map_eq_nil_iff.mp none
          have null := (tidy.holds t live).head_null.mpr empty
          have new : Uproc.newVmeNode (areasOf s (lists t)) addr length prot flags = some node :=
            placed
          rw [none] at new
          have start := (new_vme_node_found new).1
          rw [ends, ← Option.some.inj start]
          exact fits null
        · exact below none
      refine ⟨_, tidy', Inside.extended (s := s.begun e) inside kept same_live ?_, kept, nofun⟩
      exact fun q hq => (added q hq).imp_right fun own => by
        rw [own]
        exact node_in
    | pageFault t ref thePage =>
      rw [call] at ran
      obtain ⟨live, _, ran⟩ := on_live_ok ran
      obtain ⟨ps', tidy', inside', kept, added⟩ := fault_step begun inside live ran
      refine ⟨_, tidy', inside', kept, ?_⟩
      rintro t' _ ref' thePage' same p hp
      cases same
      rw [Function.update_self] at hp
      exact added p hp
    | fork t c =>
      rw [call] at ran allowed
      obtain ⟨live, _, ran⟩ := on_live_ok ran
      obtain ⟨_, _, create, ran⟩ := bind_ok.mp ran
      obtain ⟨new, rfl⟩ := uproc_create_ok create
      have copyable : Copyable (areasOf (s.begun e) (lists t)) :=
        ⟨allowed (lists t) (tidy.holds t live), fun a ha =>
          inside t live a (List.mem_of_mem_tail ha)⟩
      obtain ⟨ns, tidy', kept, same_live, areas⟩ := fork_step begun live new copyable ran
      refine ⟨_, tidy', ?_, kept, nofun⟩
      intro t' live' a ha
      rw [same_live] at live'
      rcases List.mem_cons.mp live' with rfl | live'
      · rw [Function.update_self, areas] at ha
        exact inside t live a ha
      · have other : t' ≠ c := fun same => new (same ▸ live')
        rw [Function.update_of_ne other] at ha
        obtain ⟨q, hq, rfl⟩ := List.mem_map.mp ha
        have own := (kept t' live').2.2 q hq
        rw [own]
        exact inside t' live' _ (List.mem_map_of_mem hq)
  · cases taken

theorem tidy_never_fails (tidy : Tidy s lists) : NeverFails s := by
  intro e allowed failed
  have begun := tidy.begun e
  have panics : ∀ t addr length prot flags, t ∈ s.live → InArea addr → length < 2 ^ 31 →
      (kmmap t addr length prot flags).run (s.begun e) ≠ .error .mmapFailed := by
    intro t addr length prot flags live hint int failed
    obtain ⟨_, positive, p, mid, m, new, insert⟩ := kmmap_panics failed
    obtain ⟨node, ps', placed, _, joined⟩ := node_added (begun.holds t live) new insert
    obtain ⟨_, apart, _⟩ := hint_placed (begun.placed t live) hint positive int placed
    obtain ⟨areas, inserted⟩ := insert_vme_apart apart
    cases joined with
    | refused _ _ none =>
      rw [inserted] at none
      cases none
  have lives : ∀ {α : Type} {t : Nat} {x : Areas α},
      (onLive t x).run (s.begun e) = .error .mmapFailed →
      t ∈ s.live ∧ x.run (s.begun e) = .error .mmapFailed := by
    intro α t x failed
    rcases bind_error.mp failed with failed | ⟨_, _, got, failed⟩
    · exact (quiet_get _ failed).elim
    obtain ⟨rfl, rfl⟩ := get_ok.mp got
    rcases bind_error.mp failed with failed | ⟨_, _, passed, failed⟩
    · exact (quiet_stop (by decide) _ failed).elim
    obtain ⟨live, rfl⟩ := stop_unless_ok.mp passed
    rcases bind_error.mp failed with failed | ⟨_, _, _, failed⟩
    · exact ⟨live, failed⟩
    · exact (quiet_pure _ _ failed).elim
  simp only [Allowed] at allowed
  cases call : e.call with
  | create c =>
    rw [call] at failed
    exact create_quiet _ failed
  | kmmap t addr length prot flags =>
    rw [call] at failed allowed
    obtain ⟨live, failed⟩ := lives failed
    exact panics t addr length prot flags live allowed.2.1 allowed.2.2.1 failed
  | pageFault t ref thePage =>
    rw [call] at failed
    obtain ⟨live, failed⟩ := lives failed
    simp only [pageFault] at failed
    split at failed
    · rename_i area
      rcases bind_error.mp failed with failed | ⟨vma, _, found, failed⟩
      · exact find_vme_node_quiet _ _ _ _ failed
      obtain ⟨rfl, _⟩ := find_vme_node_ok (begun.holds t live) found
      split at failed
      · rcases bind_error.mp failed with failed | ⟨_, _, _, failed⟩
        · exact panics t _ _ _ _ live area (by decide) failed
        · exact quiet_pure _ _ failed
      · exact quiet_pure _ _ failed
    · exact quiet_pure _ _ failed
  | fork t c =>
    rw [call] at failed
    obtain ⟨_, failed⟩ := lives failed
    exact quiet_bind create_quiet (fun _ => fork_quiet) _ failed

theorem tidy_well_formed (tidy : Tidy s lists) (inside : Inside s lists) : WellFormed s := by
  intro t live
  refine ⟨lists t, tidy.holds t live, fun a ha => ?_, (tidy.placed t live).sorted⟩
  have placed := (tidy.placed t live).each a ha
  exact ⟨placed.start_aligned, placed.end_aligned, placed.above, placed.nonempty,
    inside t live a ha⟩

theorem empty_tidy (area : Nat → VmArea) (vmNext vmPrev head tail : Nat → Nat) :
    Tidy (emptyHeap area vmNext vmPrev head tail) fun _ => [] :=
  ⟨nofun, nofun, nofun, rfl⟩

/-- In every run of allowed calls the lists are well formed, insert_vme_node never refuses a node,
    the panic of kmmap is out of reach and every area stays as it was made. -/
theorem area_lists_well_formed (area : Nat → VmArea) (vmNext vmPrev head tail : Nat → Nat)
    (events : List Event)
    (allowed : EachStep step Allowed (emptyHeap area vmNext vmPrev head tail) events) :
    Throughout step (fun s => WellFormed s ∧ s.refused = false ∧ NeverFails s)
        (emptyHeap area vmNext vmPrev head tail) events ∧
      EachStep step AreasKept (emptyHeap area vmNext vmPrev head tail) events := by
  have start := empty_tidy area vmNext vmPrev head tail
  refine run_of_each_step (I := fun s => ∃ lists, Tidy s lists ∧ Inside s lists) ?_ events
    ⟨_, start, nofun⟩ ⟨tidy_well_formed start nofun, rfl, tidy_never_fails start⟩ allowed
  rintro s e s' ⟨lists, tidy, inside⟩ allowed taken
  obtain ⟨lists', tidy', inside', kept, page⟩ := step_tidy tidy inside allowed taken
  refine ⟨⟨lists', tidy', inside'⟩, ⟨tidy_well_formed tidy' inside', tidy'.refused,
    tidy_never_fails tidy'⟩, ?_⟩
  intro s'' again t live ps holds
  rw [taken] at again
  cases again
  obtain rfl := holds_unique holds (tidy.holds t live)
  obtain ⟨live', sub, areas⟩ := kept t live
  exact ⟨lists' t, tidy'.holds t live', sub, areas, page t live⟩

theorem area_lists_well_formed_fault :
    Throughout step (fun s => WellFormed s ∧ s.refused = false ∧ NeverFails s)
        (emptyHeap (fun _ => ⟨1, 2, 3, 4⟩) (fun _ => 5) (fun _ => 6) (fun _ => 7) (fun _ => 8))
        [⟨.create 1, [], 9⟩, ⟨.kmmap 1 areaStart 100 6 2, [10], 9⟩,
          ⟨.pageFault 1 (areaStart + 0x5678) 0, [11], 9⟩] ∧
      EachStep step AreasKept
        (emptyHeap (fun _ => ⟨1, 2, 3, 4⟩) (fun _ => 5) (fun _ => 6) (fun _ => 7) (fun _ => 8))
        [⟨.create 1, [], 9⟩, ⟨.kmmap 1 areaStart 100 6 2, [10], 9⟩,
          ⟨.pageFault 1 (areaStart + 0x5678) 0, [11], 9⟩] := by
  refine area_lists_well_formed _ _ _ _ _ _ fun s₁ _ => ⟨trivial, fun s₂ _ => ⟨?_, fun s₃ _ =>
    ⟨trivial, trivial⟩⟩⟩
  exact ⟨by decide, by decide, by decide, fun _ => by decide⟩

end WellFormed

end VmaList
