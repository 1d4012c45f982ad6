import JyyOs.Uproc.Apart
import JyyOs.Uproc.FreshPage
import JyyOs.Uproc.Placed

/-!
What parent and child read after kfork, and what a store of one of them changes for the others.
-/
namespace Uproc

open Hoare PartialRun LinkedList Sharers

def bytesAt (s : Kernel) (t va : Nat) : Option (Nat → Nat) :=
  ((s.tasks t).entry va).map fun e => s.phys e.pa

/-- Runs in which no process exits. -/
def memStep (s : Kernel) (e : Event) : Option Kernel :=
  match e.call with
  | .destroyMappedPages _ => none
  | .create | .pageFault _ _ | .kmmap _ _ _ _ _ | .kfork _ | .userStore _ _ _ => step s e

/-- After kfork the parent and the child read what the parent read before. -/
def ForkPreserves (s : Kernel) (e : Event) : Prop :=
  ∀ t s', e.call = .kfork t → memStep s e = some s' → ∃ c, c ∉ s.live ∧ s'.live = c :: s.live ∧
    ∀ addr byte, s.readByte t addr = some byte →
      s'.readByte t addr = some byte ∧ s'.readByte c addr = some byte

/-- A store to a page of a MAP_PRIVATE area, or the page_fault it runs into, changes nothing that
    another process reads. -/
def StoreIsolated (s : Kernel) (e : Event) : Prop :=
  ∀ t addr byte vma s', e.call = .userStore t addr byte →
    findVmeNode (s.tasks t).vmAreas (roundDown addr) (u64 (roundDown addr + pgsize)) = some vma →
    vma.vmFlags &&& mapPrivate ≠ 0 → memStep s e = some s' →
    ∀ o ∈ s.live, o ≠ t → ∀ addr', s'.readByte o addr' = s.readByte o addr'

section Condition

/-- A private region that new_vme_node makes covers no writable page with another entry. -/
def PlacesApart (s : Kernel) (t addr : Nat) (length prot flags : Int) : Prop :=
  ∀ node, newVmeNode (s.tasks t).vmAreas addr length prot flags = some node →
    node.vmFlags &&& mapPrivate ≠ 0 → ∀ q, OnList s t q → Covers node (vaOf s q) →
      (s.tasks t).entry (vaOf s q) = some ⟨paOf s q, true⟩ → ¬Shared s q

/-- page_fault maps page 0 at most once, places its area apart, and takes the last count of a
    page only when no other entry is left. -/
structure FaultApart (s : Kernel) (e : Event) (t ref : Nat) : Prop where
  null : e.choices.head? = some 0 → NullUnmapped s
  places : findVmeNode (s.tasks t).vmAreas (roundDown ref) (roundDown ref + pgsize) = none →
    PlacesApart s t (roundDown ref) pgsize (protRead ||| protWrite : Nat) mapPrivate
  counted : ∀ q, OnList s t q → vaOf s q = roundDown ref → cowOf s (paOf s q) = 1 → ¬Shared s q

/-- The page of `q` may be shared with a child: neither the parent nor the child can store to it
    where its area is MAP_PRIVATE. -/
structure ForksGuarded (s : Kernel) (t q : Nat) : Prop where
  guarded : Guarded s t q
  parent : ∀ vma, findVmeNode (s.tasks t).vmAreas (vaOf s q) (vaOf s q + pgsize) = some vma →
    vma.vmProt &&& protWrite ≠ 0 → vma.vmFlags &&& mapPrivate = 0
  child : ∀ vma, findVmeNode (s.tasks t).vmAreas (vaOf s q) (vaOf s q + pgsize) = some vma →
    vma.vmProt &&& protWrite ≠ 0 → ∀ areas all,
      copyAreas [] (s.tasks t).vmAreas = some (areas, all) →
      ∀ copy, findVmeNode areas (vaOf s q) (vaOf s q + pgsize) = some copy →
        copy.vmFlags &&& mapPrivate = 0

/-- The calls that leave no private page with two entries open to stores. -/
def KeepsApart (s : Kernel) (e : Event) : Prop :=
  match e.call with
  | .create => True
  | .pageFault t ref => InArea (roundDown ref) → FaultApart s e t ref
  | .userStore t ref _ =>
    (∀ pa, (s.tasks t).translate ref ≠ some ⟨pa, true⟩) → InArea (roundDown ref) →
      FaultApart s e t ref
  | .kmmap t addr length prot flags => flags ≠ mapUnmap → PlacesApart s t addr length prot flags
  | .kfork t => ∀ q, OnList s t q → ForksGuarded s t q
  | .destroyMappedPages _ => True

end Condition

section Fork

variable {s s' : Kernel} {lists lists' : Nat → List Nat} {t c : Nat} {ahead : List Nat}

theorem ApartInv.created {choices : List Nat} (inv : ApartInv s lists)
    (unused : s.taskUsed c = false) :
    ApartInv ({ s with
      choices := choices, taskUsed := Function.update s.taskUsed c true }.created c)
      (Function.update lists c []) := by
  have dead : c ∉ s.live := fun live => by
    rw [inv.owned.taskUsed c live] at unused
    cases unused
  have same : ∀ x, refs ({ s with
      choices := choices, taskUsed := Function.update s.taskUsed c true }.created c)
      (Function.update lists c []) x = refs s lists x := fun x => refs_created dead rfl rfl
  have old : ∀ t p, t ∈ c :: s.live → p ∈ Function.update lists c [] t →
      t ≠ c ∧ t ∈ s.live ∧ p ∈ lists t := by
    intro t p live hp
    rcases List.mem_cons.mp live with rfl | live
    · rw [Function.update_self] at hp
      cases hp
    · have other : t ≠ c := fun same => dead (same ▸ live)
      rw [Function.update_of_ne other] at hp
      exact ⟨other, live, hp⟩
  refine ⟨inv.owned.created unused, fun t live p hp => ?_, fun pa real free => ?_,
    fun t live p hp shared => ?_⟩
  · obtain ⟨_, live', mem⟩ := old t p live hp
    exact inv.aligned t live' p mem
  · rw [same]
    exact inv.unused pa real free
  · obtain ⟨other, live', mem⟩ := old t p live hp
    rw [same] at shared
    refine (inv.guarded t live' p mem shared).congr rfl rfl ?_ fun _ vma found => ?_
    · simp [Kernel.created, Kernel.setLock, Function.update_of_ne other]
    · left
      simpa [Kernel.created, Kernel.setLock, Function.update_of_ne other] using found

theorem ApartInv.copy_walk (walk : CopyWalk t c s lists ahead s' lists') (inv : ApartInv s lists)
    (live : t ∈ s.live) (child : c ∈ s.live) (other : t ≠ c)
    (guarded : ∀ q ∈ lists t, Guarded s t q)
    (copied : ∀ q ∈ lists t, ∀ vma,
      findVmeNode (s.tasks t).vmAreas (vaOf s q) (vaOf s q + pgsize) = some vma →
      vma.vmProt &&& protWrite ≠ 0 → ∀ copy,
      findVmeNode (s.tasks c).vmAreas (vaOf s q) (vaOf s q + pgsize) = some copy →
      copy.vmFlags &&& mapPrivate = 0) : ApartInv s' lists' := by
  induction walk with
  | done => exact inv
  | @page s _ lists _ rest choices x p vma mem new found chosen real fresh _ ih =>
    have page := (inv.owned.holds t live).page x mem
    rw [page_end page] at found
    have named : ∀ t' ∈ s.live, ∀ q ∈ lists t', paOf s q = paOf s x → Guarded s t' q := by
      intro t' live' q hq same
      by_cases here : t' = t
      · subst here
        exact guarded q hq
      · refine inv.guarded t' live' q hq ?_
        exact sharers_two live' live (Ne.symm here) (List.mem_map.mpr ⟨q, hq, rfl⟩)
          (List.mem_map.mpr ⟨x, mem, same.symm⟩)
    have next : ApartInv (s.mapped c (vaOf s x) (paOf s x) vma.vmProt p true choices)
        (Function.update lists c (p :: lists c)) :=
      inv.mapped child page new real fresh (inv.aligned t live x mem) (inv.frame_used live mem)
        (fun _ => copied x mem vma found) named
    have old : ∀ q ∈ lists t,
        (s.mapped c (vaOf s x) (paOf s x) vma.vmProt p true choices).nodes q = s.nodes q :=
      fun q hq => nodes_mapped_used ((inv.owned.holds t live).used q hq) fresh
    have vas : ∀ q ∈ lists t,
        vaOf (s.mapped c (vaOf s x) (paOf s x) vma.vmProt p true choices) q = vaOf s q :=
      fun q hq => congrArg MPage.va (old q hq)
    refine ih next live child (fun q hq => ?_) fun q hq vma found writes copy there => ?_
    all_goals rw [Function.update_of_ne other] at hq
    · refine (guarded q hq).congr (vas q hq) (congrArg MPage.pa (old q hq))
        (by rw [task_mapped_other other]) fun _ vma found => ?_
      rw [areas_mapped] at found
      exact .inl found
    · rw [areas_mapped, vas q hq] at found there
      exact copied q hq vma found writes copy there

theorem copy_walk_entries (walk : CopyWalk t c s lists ahead s' lists') (owned : Owned s lists)
    (live : t ∈ s.live) (child : c ∈ s.live) (other : t ≠ c) (inside : ∀ x ∈ ahead, x ∈ lists t) :
    s'.live = s.live ∧ s'.phys = s.phys ∧ (∀ t', t' ≠ c → s'.tasks t' = s.tasks t') ∧
      (∀ va e, UserPage va → (s.tasks c).entry va = some e → (s'.tasks c).entry va = some e) ∧
      ∀ x ∈ ahead, ∃ w, (s'.tasks c).entry (vaOf s x) = some ⟨paOf s x, w⟩ := by
  induction walk with
  | done => exact ⟨rfl, rfl, fun _ _ => rfl, fun _ _ _ found => found, by simp⟩
  | @page s _ lists _ rest choices x p vma mem new found chosen real fresh _ ih =>
    have holds := owned.holds t live
    have page := holds.page x mem
    have next : Owned (s.mapped c (vaOf s x) (paOf s x) vma.vmProt p true choices)
        (Function.update lists c (p :: lists c)) := owned.mapped child page new real fresh
    have own : Function.update lists c (p :: lists c) t = lists t := Function.update_of_ne other ..
    obtain ⟨lives, phys, tasks, kept, copied⟩ := ih next live child fun y hy => by
      rw [own]
      exact inside y (List.mem_cons_of_mem _ hy)
    refine ⟨lives, phys, fun t' ne => (tasks t' ne).trans (task_mapped_other ne), ?_,
      fun y hy => ?_⟩
    · intro va e page' before
      refine kept va e page' ?_
      have elsewhere : va ≠ vaOf s x := by
        rintro rfl
        rw [(owned.holds c child).absent page' new] at before
        cases before
      rw [entry_mapped_other page page' elsewhere]
      exact before
    · rcases List.mem_cons.mp hy with rfl | hy
      · exact ⟨_, kept _ _ page entry_mapped_here⟩
      · obtain ⟨w, there⟩ := copied y hy
        have used := holds.used y (inside y (List.mem_cons_of_mem _ hy))
        have old : (s.mapped c (vaOf s x) (paOf s x) vma.vmProt p true choices).nodes y =
            s.nodes y := nodes_mapped_used used fresh
        have va : vaOf (s.mapped c (vaOf s x) (paOf s x) vma.vmProt p true choices) y = vaOf s y :=
          congrArg MPage.va old
        have pa : paOf (s.mapped c (vaOf s x) (paOf s x) vma.vmProt p true choices) y = paOf s y :=
          congrArg MPage.pa old
        rw [va, pa] at there
        exact ⟨w, there⟩

theorem fork_before_copy {s₁ s₂ s₃ s₄ : Kernel} {lists₂ lists₄ : Nat → List Nat}
    {choices : List Nat} {areas : List VmArea}
    (effect : ForkEffect t c s lists s₁ s₂ s₃ s₄ s' lists₂ lists₄ choices areas)
    (inv : ApartInv s lists) (live : t ∈ s.live) (closed : ∀ q ∈ lists t, Closed s t q) :
    ApartInv s₃ lists₂ ∧ lists₂ = Function.update lists c [] ∧ t ≠ c ∧ s₃.live = c :: s.live ∧
      s₃.nodes = s.nodes ∧ s₃.phys = s.phys ∧
      (∀ t', t' ≠ c → (s₃.tasks t').table = (s.tasks t').table ∧
        (s₃.tasks t').vmAreas = (s.tasks t').vmAreas) ∧ (s₃.tasks c).vmAreas = areas := by
  have made := effect.created.apart (inv.created effect.unused)
  have live₁ : s₁.live = c :: s.live := effect.created.live
  have other : t ≠ c := by
    rintro rfl
    have := effect.unused
    rw [inv.owned.taskUsed t live] at this
    cases this
  have tables₁ : ∀ t', t' ≠ c → (s₁.tasks t').table = (s.tasks t').table := by
    intro t' ne
    rw [effect.created.tables]
    simp [Kernel.created, Kernel.setLock, Function.update_of_ne ne]
  have areas₁ : ∀ t', t' ≠ c → (s₁.tasks t').vmAreas = (s.tasks t').vmAreas := by
    intro t' ne
    rw [effect.created.areas]
    simp [Kernel.created, Kernel.setLock, Function.update_of_ne ne]
  have own : Function.update lists c [] t = lists t := Function.update_of_ne other ..
  have closed₁ : ∀ q ∈ lists t, Closed s₁ t q := by
    intro q hq
    have cow : ∀ x, cowOf s₁ x = cowOf s x := fun x => by
      rw [cowOf, effect.created.cowTable]
      rfl
    have vas : vaOf s₁ = vaOf s := effect.created.vaOf
    have pas : paOf s₁ = paOf s := effect.created.paOf
    rw [Closed, cow, vas, pas, areas₁ t other]
    exact closed q hq
  obtain ⟨rfl, choices', frames, rfl, grows, _⟩ := cow_walk_closed effect.cow closed₁
  have walked : ApartInv { s₁ with choices := choices', frameUsed := frames }
      (Function.update lists c []) := by
    refine made.congr (made.owned.congr rfl rfl rfl rfl (fun _ => rfl) fun _ => rfl) rfl rfl rfl
      (fun pa free => ?_) (fun _ _ => rfl) fun _ _ => rfl
    by_contra used
    have after := grows pa (by simpa using used)
    exact absurd (after.symm.trans free) (by decide)
  have given : ApartInv (({ s₁ with choices := choices', frameUsed := frames } :
      Kernel).withAreas c areas) (Function.update lists c []) :=
    walked.givenAreas (Function.update_self c [] lists)
  have copied := effect.areas_copied
  refine ⟨copied.apart given, rfl, other, copied.live.trans live₁,
    copied.nodes.trans effect.created.nodes, copied.phys.trans effect.created.phys,
    fun t' ne => ⟨?_, ?_⟩, ?_⟩
  · rw [copied.tables, ← tables₁ t' ne]
    simp [Kernel.withAreas, Function.update_of_ne ne]
  · rw [copied.areas, areas_with_areas_other ne, ← areas₁ t' ne]
  · rw [copied.areas, areas_with_areas]

theorem ForksGuarded.closed {q : Nat} (ready : ForksGuarded s t q) (page : UserPage (vaOf s q)) :
    Closed s t q := by
  refine .inr fun vma found writable => writable.2 (ready.parent vma ?_ writable.1)
  rwa [page_end page] at found

theorem ApartInv.fork {s₁ s₂ s₃ s₄ : Kernel} {lists₂ lists₄ : Nat → List Nat}
    {choices : List Nat} {areas : List VmArea}
    (effect : ForkEffect t c s lists s₁ s₂ s₃ s₄ s' lists₂ lists₄ choices areas)
    (inv : ApartInv s lists) (live : t ∈ s.live) (ready : ∀ q ∈ lists t, ForksGuarded s t q)
    {all : Bool} (copied : copyAreas [] (s.tasks t).vmAreas = some (areas, all)) :
    ApartInv s' lists₄ ∧ c ∉ s.live ∧ s'.live = c :: s.live ∧
      ∀ va bytes, UserPage va → bytesAt s t va = some bytes →
        bytesAt s' t va = some bytes ∧ bytesAt s' c va = some bytes := by
  have holds := inv.owned.holds t live
  obtain ⟨inv₃, rfl, other, live₃, nodes, phys, tasks, child_areas⟩ :=
    fork_before_copy effect inv live fun q hq => (ready q hq).closed (holds.page q hq)
  have own : Function.update lists c [] t = lists t := Function.update_of_ne other ..
  have vas : vaOf s₃ = vaOf s := by
    funext q
    simp only [vaOf, nodes]
  have pas : paOf s₃ = paOf s := pa_of_nodes nodes
  have parent : t ∈ s₃.live := by
    rw [live₃]
    exact List.mem_cons_of_mem _ live
  have child : c ∈ s₃.live := by
    rw [live₃]
    exact List.mem_cons_self
  have walk := effect.copied
  rw [own] at walk
  have after : ApartInv s₄ lists₄ := by
    refine inv₃.copy_walk walk parent child other (fun q hq => ?_)
      fun q hq vma found writes copy there => ?_
    all_goals rw [own] at hq
    · refine (ready q hq).guarded.congr (by rw [vas]) (by rw [pas])
        (by rw [Task.entry, (tasks t other).1, Task.entry]) fun _ vma found => ?_
      rw [(tasks t other).2] at found
      exact .inl found
    · rw [(tasks t other).2, vas] at found
      rw [child_areas, vas] at there
      exact (ready q hq).child vma found writes areas all copied copy there
  obtain ⟨live₄, phys₄, tasks₄, _, entries⟩ :=
    copy_walk_entries walk inv₃.owned parent child other fun x hx => by rwa [own]
  have same := effect.finished
  have dead : c ∉ s.live := fun h => by
    have := effect.unused
    rw [inv.owned.taskUsed c h] at this
    cases this
  refine ⟨same.apart after, dead, same.live.trans (live₄.trans live₃), fun va bytes page read => ?_⟩
  have memory : s'.phys = s.phys := same.phys.trans (phys₄.trans phys)
  obtain ⟨e, found, rfl⟩ := Option.map_eq_some_iff.mp read
  obtain ⟨q, hq, rfl⟩ := List.mem_map.mp (holds.listed va page (by simp [found]))
  obtain ⟨w, here⟩ := holds.present q hq
  rw [found] at here
  cases here
  constructor
  · have table : (s'.tasks t).table = (s.tasks t).table := by
      rw [same.tables, tasks₄ t other, (tasks t other).1]
    rw [bytesAt, Task.entry, table, ← Task.entry, found, memory]
    rfl
  · obtain ⟨w', copy⟩ := entries q hq
    rw [vas, pas] at copy
    rw [bytesAt, same.entry, copy, memory]
    rfl

theorem read_byte_page {addr : Nat} : s.readByte t addr =
    if InArea addr then (bytesAt s t (roundDown addr)).map fun bytes => bytes (addr % pgsize)
    else none := by
  rw [Kernel.readByte, Task.translate, bytesAt]
  split
  · rw [Option.map_map]
    rfl
  · rfl

end Fork

section Step

variable {s s' : Kernel} {e : Event} {lists lists' : Nat → List Nat} {t c : Nat}

theorem ApartInv.begun (inv : ApartInv s lists) (e : Event) (t : Nat) :
    ApartInv (s.begun e t) lists :=
  inv.congr (inv.owned.begun e t) rfl rfl rfl (fun _ free => free) (fun _ _ => rfl) fun _ _ => rfl

theorem step_fork (called : e.call = .kfork t) (taken : step s e = some s') :
    t ∈ s.live ∧ ∃ r, (kfork t).run (s.begun e t) = .ok (r, s') := by
  simp only [step] at taken
  split at taken
  · rename_i ran
    cases taken
    rw [called] at ran
    exact on_live_ok ran
  · cases taken

theorem fork_copying_loop_copies {u : Unit} {ahead : List VmArea}
    (h : (forkCopyingVmePagesLoop c ahead).run s = .ok (u, s')) :
    ∃ all, copyAreas (s.tasks c).vmAreas ahead = some ((s'.tasks c).vmAreas, all) := by
  induction ahead generalizing s with
  | nil =>
    obtain ⟨_, rfl⟩ := pure_ok.mp h
    exact ⟨true, rfl⟩
  | cons cur next ih =>
    simp only [forkCopyingVmePagesLoop, bind_ok] at h
    obtain ⟨node, _, place, success, _, insert, h⟩ := h
    obtain ⟨placed, rfl⟩ := new_area_ok place
    rw [copyAreas, placed]
    rcases insert_area_ok insert with ⟨overlaps, _, rfl⟩ | ⟨areas, inserted, _, rfl⟩
    · obtain ⟨all, copied⟩ := ih h
      refine ⟨false, ?_⟩
      simp only [overlaps, copied, Option.map_some]
    · obtain ⟨all, copied⟩ := ih h
      rw [areas_with_areas] at copied
      refine ⟨all, ?_⟩
      simp only [inserted, copied]

theorem fork_copying_vme_pages_copies {u : Unit} (empty : (s.tasks c).vmAreas = [])
    (h : (forkCopyingVmePages t c).run s = .ok (u, s')) :
    ∃ all, copyAreas [] (s.tasks t).vmAreas = some ((s'.tasks c).vmAreas, all) := by
  simp only [forkCopyingVmePages, bind_ok, get_ok] at h
  obtain ⟨_, _, ⟨rfl, rfl⟩, h⟩ := h
  split at h
  · rename_i none
    obtain rfl := set_ok.mp h
    refine ⟨true, ?_⟩
    rw [none]
    simp [copyAreas]
  · simp only [bind_ok, spin_lock_ok, spin_unlock_ok] at h
    obtain ⟨_, _, ⟨_, rfl⟩, _, _, loop, _, rfl⟩ := h
    obtain ⟨all, copied⟩ := fork_copying_loop_copies loop
    have child : ((s.setLock (.vme t) true).tasks c).vmAreas = [] := empty
    rw [child] at copied
    exact ⟨all, copied⟩

theorem apart_step_fork (inv : ApartInv s lists) (called : e.call = .kfork t)
    (ready : ∀ q, OnList s t q → ForksGuarded s t q) (taken : step s e = some s') :
    ∃ c lists', ApartInv s' lists' ∧ c ∉ s.live ∧ s'.live = c :: s.live ∧
      ∀ addr byte, s.readByte t addr = some byte →
        s'.readByte t addr = some byte ∧ s'.readByte c addr = some byte := by
  obtain ⟨live, r, ran⟩ := step_fork called taken
  have begun := inv.begun e t
  obtain ⟨c, _, _, _, _, _, lists₄, _, areas, effect, m, m', u, copy, empty, parent, made⟩ :=
    kfork_areas_ok begun.owned live ran
  obtain ⟨all, copied⟩ := fork_copying_vme_pages_copies empty copy
  rw [parent, made] at copied
  have guards : ∀ q ∈ lists t, ForksGuarded (s.begun e t) t q := fun q hq =>
    have here := ready q ((inv.owned.on_list live).mpr hq)
    ⟨here.guarded, here.parent, here.child⟩
  obtain ⟨inv', dead, live', reads⟩ := begun.fork effect live guards copied
  refine ⟨c, lists₄, inv', dead, live', fun addr byte read => ?_⟩
  rw [read_byte_page] at read
  split at read
  · rename_i area
    obtain ⟨bytes, page, here⟩ := Option.map_eq_some_iff.mp read
    obtain ⟨parent, child⟩ := reads _ bytes (area_page area) page
    rw [read_byte_page, read_byte_page, if_pos area, if_pos area, parent, child]
    exact ⟨congrArg some here, congrArg some here⟩
  · cases read

theorem fault_bytes {o va va' pa : Nat} {rest : List Nat}
    (effect : FaultEffect t va pa rest s lists s' lists') (ne : o ≠ t)
    (unnamed : InArea va → ∀ e, (s.tasks o).entry va' = some e → e.pa ≠ pa)
    (listed : ∀ q ∈ lists t, UserPage (vaOf s q)) : bytesAt s' o va' = bytesAt s o va' := by
  have kept : ∀ {m : Kernel} {bytes : Nat → Nat}, InArea va →
      (m.tasks o).entry va' = (s.tasks o).entry va' →
      m.phys = Function.update s.phys pa bytes → bytesAt m o va' = bytesAt s o va' := by
    intro m bytes area entry phys
    rw [bytesAt, bytesAt, entry]
    cases found : (s.tasks o).entry va' with
    | none => rfl
    | some e => simp only [Option.map_some, phys, Function.update_of_ne (unnamed area e found)]
  have written : ∀ bytes, (s.fresh pa rest bytes).phys = Function.update s.phys pa bytes := by
    intro bytes
    rw [Kernel.fresh, Kernel.written, phys_taken]
  cases effect with
  | outside _ same =>
    rw [bytesAt, same.entry, same.phys, phys_taken, tasks_taken, bytesAt]
  | newArea page _ _ _ _ _ _ _ same =>
    refine kept page.1 ?_ (same.phys.trans (written _))
    rw [same.entry, task_mapped_other ne, Kernel.withAreas, Kernel.setTask]
    simp only [Function.update_of_ne ne, tasks_fresh]
  | newPage page _ _ _ _ _ same =>
    refine kept page.1 ?_ (same.phys.trans (written _))
    rw [same.entry, task_mapped_other ne, tasks_fresh]
  | @copied m _ bytes vma left right q p rest' split here _ _ _ _ _ moved same =>
    subst moved
    subst here
    refine kept (listed q (by simp [split])).1 ?_ (same.phys.trans (written bytes))
    have tasks : ∀ (m : Kernel) (o : Nat), (m.dropped o).tasks = m.tasks := fun _ _ => rfl
    rw [same.entry, tasks, task_mapped_other ne, task_unmapped_other ne, tasks_fresh]

theorem other_entry {o va q : Nat} (inv : ApartInv s lists) (live : t ∈ s.live)
    (mem : q ∈ lists t) (hidden : ¬Guarded s t q) (other : o ∈ s.live) (ne : o ≠ t)
    (page : UserPage va) (e : Pte) (found : (s.tasks o).entry va = some e) :
    e.pa ≠ paOf s q := by
  intro same
  have holds := inv.owned.holds o other
  obtain ⟨q', mem', rfl⟩ := List.mem_map.mp (holds.listed va page (by simp [found]))
  obtain ⟨w, here⟩ := holds.present q' mem'
  rw [found] at here
  cases here
  exact hidden (inv.guarded t live q mem (sharers_two live other ne
    (List.mem_map.mpr ⟨q, mem, rfl⟩) (List.mem_map.mpr ⟨q', mem', same⟩)))

theorem ApartInv.unnamed_entry {o va pa : Nat} (inv : ApartInv s lists) (other : o ∈ s.live)
    (page_fresh : pa ≠ 0 → s.frameUsed pa = false ∧ pa % pgsize = 0)
    (null : pa = 0 → refs s lists 0 = 0) (page : UserPage va) (e : Pte)
    (found : (s.tasks o).entry va = some e) : e.pa ≠ pa := by
  have holds := inv.owned.holds o other
  obtain ⟨q, mem, rfl⟩ := List.mem_map.mp (holds.listed va page (by simp [found]))
  obtain ⟨w, here⟩ := holds.present q mem
  rw [found] at here
  cases here
  exact (inv.unnamed page_fresh null).2.2 o other q mem

theorem FaultApart.null_refs {ref pa : Nat} {rest : List Nat} (owned : Owned s lists)
    (keeps : FaultApart s e t ref) (chosen : e.choices = pa :: rest) (null : pa = 0) :
    refs s lists 0 = 0 :=
  owned.null_refs (keeps.null (by rw [chosen, null]; rfl))

theorem apart_step_fault {ref pa : Nat} {rest : List Nat} {lists' : Nat → List Nat}
    (inv : ApartInv s lists) (live : t ∈ s.live) (chosen : e.choices = pa :: rest)
    (page_fresh : pa ≠ 0 → s.frameUsed pa = false ∧ pa % pgsize = 0)
    (effect : FaultEffect t (roundDown ref) pa rest (s.begun e t) lists s' lists')
    (keeps : InArea (roundDown ref) → FaultApart s e t ref) : ApartInv s' lists' := by
  have alone : ∀ q ∈ lists t, ¬Shared s q → refs s lists (paOf s q) < 2 := fun q mem apart => by
    rw [refs_alone inv.owned live mem apart]
    exact Nat.one_lt_two
  have on_list : ∀ q ∈ lists t, OnList s t q := fun q mem => (inv.owned.on_list live).mpr mem
  have null : InArea (roundDown ref) → pa = 0 → refs s lists 0 = 0 := fun area =>
    (keeps area).null_refs inv.owned chosen
  refine (inv.begun e t).fault effect live page_fresh null (fun q mem here last => ?_)
    fun area unfound node placed hidden q mem covers writable => ?_
  · have area : InArea (roundDown ref) := here ▸ ((inv.owned.holds t live).page q mem).1
    exact alone q mem ((keeps area).counted q (on_list q mem) here last)
  · exact alone q mem ((keeps area).places unfound node placed hidden q (on_list q mem) covers
      writable)

theorem apart_step (inv : ApartInv s lists) (keeps : KeepsApart s e)
    (taken : memStep s e = some s') : ∃ lists', ApartInv s' lists' := by
  have stepped : step s e = some s' := by
    rw [memStep] at taken
    split at taken
    · cases taken
    all_goals exact taken
  obtain ⟨lists', effect⟩ := step_effect inv.owned stepped
  cases effect with
  | create called unused same => exact ⟨_, same.apart ((inv.begun e s.currentTask).created unused)⟩
  | @fault _ t ref pa rest _ called live chosen page_fresh effect =>
    rcases called with called | ⟨byte, called⟩ <;> simp only [KeepsApart, called] at keeps
    · exact ⟨lists', apart_step_fault inv live chosen page_fresh effect keeps⟩
    · by_cases hit : ∃ pa, (s.tasks t).translate ref = some ⟨pa, true⟩
      · obtain ⟨pa', hit⟩ := hit
        have stored := step_store_hit called hit stepped
        subst stored
        exact ⟨lists, inv.congr (inv.owned.congr rfl rfl rfl rfl (fun _ => rfl) fun _ => rfl) rfl
          rfl rfl (fun _ free => free) (fun _ _ => rfl) fun _ _ => rfl⟩
      · have missed : ∀ pa, (s.tasks t).translate ref ≠ some ⟨pa, true⟩ := fun pa found =>
          hit ⟨pa, found⟩
        exact ⟨lists', apart_step_fault inv live chosen page_fresh effect (keeps missed)⟩
  | @mmap _ t addr length prot flags _ called live effect =>
    simp only [KeepsApart, called] at keeps
    cases effect with
    | @area _ node areas maps _ placed inserted same =>
      refine ⟨lists, same.apart ((inv.begun e t).withAreas inserted
        fun _ hidden q mem covers writable => ?_)⟩
      have one := refs_alone inv.owned live mem
        (keeps maps node placed hidden q ((inv.owned.on_list live).mpr mem) covers writable)
      have kept : refs (s.begun e t) lists (paOf (s.begun e t) q) = refs s lists (paOf s q) := rfl
      omega
    | outside _ same => exact ⟨lists, same.apart (inv.begun e t)⟩
    | pages _ before gone after =>
      exact ⟨lists', after.apart ((before.apart (inv.begun e t)).unmaps gone (before.live ▸ live))⟩
  | @fork _ _ _ _ _ t _ _ _ _ _ called _ _ =>
    simp only [KeepsApart, called] at keeps
    obtain ⟨_, lists', inv', _⟩ := apart_step_fork inv called keeps stepped
    exact ⟨lists', inv'⟩
  | destroy called live walk =>
    simp only [memStep, called] at taken
    cases taken
  | @store t _ _ _ called live found =>
    exact ⟨lists, (inv.begun e t).congr (inv.owned.congr rfl rfl rfl rfl (fun _ => rfl)
      fun _ => rfl) rfl rfl rfl (fun _ free => free) (fun _ _ => rfl) fun _ _ => rfl⟩

theorem fork_preserves (inv : ApartInv s lists) (keeps : KeepsApart s e) : ForkPreserves s e := by
  intro t s' called taken
  simp only [memStep, called] at taken
  simp only [KeepsApart, called] at keeps
  obtain ⟨c, _, _, dead, live, reads⟩ := apart_step_fork inv called keeps taken
  exact ⟨c, dead, live, reads⟩

theorem stored_bytes {o addr byte pa va : Nat} {vma : VmArea} (inv : ApartInv s lists)
    (live : t ∈ s.live) (hit : (s.tasks t).translate addr = some ⟨pa, true⟩)
    (found : findVmeNode (s.tasks t).vmAreas (roundDown addr) (u64 (roundDown addr + pgsize)) =
      some vma) (hidden : vma.vmFlags &&& mapPrivate ≠ 0) (other : o ∈ s.live) (ne : o ≠ t)
    (page : UserPage va) :
    bytesAt ((s.begun e t).written pa (Function.update (s.phys pa) (addr % pgsize) byte)) o va =
      bytesAt s o va := by
  rw [Task.translate] at hit
  split at hit
  · rename_i area
    have here := area_page area
    have holds := inv.owned.holds t live
    obtain ⟨q, mem, at_addr⟩ := List.mem_map.mp (holds.listed _ here (by simp [hit]))
    obtain ⟨w, entry⟩ := holds.present q mem
    rw [at_addr, hit] at entry
    cases entry
    have exposed : ¬Guarded s t q := fun guarded => by
      rw [page_end here, ← at_addr] at found
      exact hidden (guarded (at_addr ▸ hit) vma found)
    rw [bytesAt, bytesAt]
    refine Option.map_congr fun e' there => ?_
    have away := other_entry inv live mem exposed other ne page e' there
    exact Function.update_of_ne away ..
  · cases hit

theorem store_isolated (inv : ApartInv s lists) (keeps : KeepsApart s e) : StoreIsolated s e := by
  intro t addr byte vma s' called found hidden taken o other ne addr'
  simp only [memStep, called] at taken
  simp only [KeepsApart, called] at keeps
  rw [read_byte_page, read_byte_page]
  by_cases area : InArea addr'
  · rw [if_pos area, if_pos area]
    have page := area_page area
    suffices same : bytesAt s' o (roundDown addr') = bytesAt s o (roundDown addr') by rw [same]
    obtain ⟨lists', effect⟩ := step_effect inv.owned taken
    cases effect with
    | create called' _ _ | mmap called' _ _ | fork called' _ _ | destroy called' _ _ =>
      rw [called] at called'
      cases called'
    | fault called' live chosen page_fresh effect =>
      rcases called' with called' | ⟨_, called'⟩ <;> rw [called] at called' <;> cases called'
      by_cases hit : ∃ pa, (s.tasks t).translate addr = some ⟨pa, true⟩
      · obtain ⟨pa', hit⟩ := hit
        have stored := step_store_hit called hit taken
        subst stored
        exact stored_bytes inv live hit found hidden other ne page
      · have meets := keeps fun pa found => hit ⟨pa, found⟩
        have kept : bytesAt s' o (roundDown addr') = bytesAt (s.begun e t) o (roundDown addr') :=
          fault_bytes effect ne (fun here => inv.unnamed_entry other page_fresh
            ((meets here).null_refs inv.owned chosen) page) (inv.owned.holds t live).page
        exact kept
    | store called' live hit =>
      rw [called] at called'
      cases called'
      exact stored_bytes inv live hit found hidden other ne page
  · rw [if_neg area, if_neg area]

end Step

section Run

theorem apart_start (nodes : Nat → MPage) (phys : Nat → Nat → Nat) (initCode : List Nat) :
    ApartInv (uprocInit nodes phys initCode) fun _ => [] := by
  refine ⟨⟨?_, ?_, ?_, List.nodup_nil⟩, ?_, fun _ _ _ => ⟨rfl, fun _ => rfl⟩, ?_⟩ <;>
    intro t live <;> cases live

/-- Along every run whose calls keep private pages apart, kfork preserves what the processes read
    and no store to a private page is visible to another process. -/
theorem fork_isolates (nodes : Nat → MPage) (phys : Nat → Nat → Nat) (initCode : List Nat)
    (events : List Event)
    (keeps : EachStep memStep KeepsApart (uprocInit nodes phys initCode) events) :
    EachStep memStep (fun s e => ForkPreserves s e ∧ StoreIsolated s e)
      (uprocInit nodes phys initCode) events := by
  have start : ∃ lists, ApartInv (uprocInit nodes phys initCode) lists :=
    ⟨_, apart_start nodes phys initCode⟩
  exact each_step_of_each_step (fun s e s' (inv : ∃ lists, ApartInv s lists) meets taken =>
    ⟨apart_step inv.choose_spec meets taken, fork_preserves inv.choose_spec meets,
      store_isolated inv.choose_spec meets⟩) events start keeps

/-- A fork shares a page of a read-only private region; the parent then stores to its heap. -/
def privateRegion : List Event :=
  [⟨.create, [1], 9⟩, ⟨.kmmap 1 0x100000009000 100 protRead mapPrivate, [], 9⟩,
    ⟨.pageFault 1 0x100000009008, [0x5000, 100], 9⟩, ⟨.kfork 1, [2, 0x6000, 101], 9⟩,
    ⟨.userStore 1 0x100000020008 7, [0x7000, 102], 9⟩, ⟨.userStore 1 0x100000020008 7, [], 9⟩]

def privateArea : VmArea := ⟨0x100000009000, 0x10000000a000, protRead, mapPrivate⟩

variable {s : Kernel}

theorem private_region_empty (ran : run memStep emptyKernel (privateRegion.take 1) = some s)
    {q : Nat} : ¬OnList s 1 q := by
  have computed : (run memStep emptyKernel (privateRegion.take 1)).map (headOf · 1) = some 0 := by
    decide +kernel
  have head := run_facts computed ran
  intro hq
  have mem : q ∈ [] := hq.mem head
  cases mem

theorem private_region_faults (ran : run memStep emptyKernel (privateRegion.take 2) = some s) :
    FaultApart s ⟨.pageFault 1 0x100000009008, [0x5000, 100], 9⟩ 1 0x100000009008 := by
  have computed : (run memStep emptyKernel (privateRegion.take 2)).map (fun s =>
      (headOf s 1, findVmeNode (s.tasks 1).vmAreas (roundDown 0x100000009008)
        (roundDown 0x100000009008 + pgsize))) = some (0, some privateArea) := by decide +kernel
  have facts := run_facts computed ran
  obtain ⟨head, found⟩ := Prod.mk.inj facts
  refine ⟨fun null => absurd null (by decide), fun none => ?_, fun q hq => ?_⟩
  · rw [found] at none
    cases none
  · have mem : q ∈ [] := hq.mem head
    cases mem

theorem private_region_guarded (ran : run memStep emptyKernel (privateRegion.take 3) = some s) :
    ∀ q, OnList s 1 q → ForksGuarded s 1 q := by
  have list : (run memStep emptyKernel (privateRegion.take 3)).map (fun s =>
      (headOf s 1, nextOf s 100, (s.tasks 1).vmAreas)) = some (100, 0, [privateArea]) := by
    decide +kernel
  have page : (run memStep emptyKernel (privateRegion.take 3)).map (fun s =>
      (vaOf s 100, paOf s 100, (s.tasks 1).entry 0x100000009000)) =
      some (0x100000009000, 0x5000, some ⟨0x5000, false⟩) := by
    decide +kernel
  have facts := run_facts list ran
  obtain ⟨head, tail⟩ := Prod.mk.inj facts
  obtain ⟨next, areas⟩ := Prod.mk.inj tail
  have facts := run_facts page ran
  obtain ⟨va, tail⟩ := Prod.mk.inj facts
  obtain ⟨pa, entry⟩ := Prod.mk.inj tail
  intro q hq
  have mem : q ∈ [100] := hq.mem ⟨head, by decide, next⟩
  rw [List.mem_singleton] at mem
  subst mem
  have found : findVmeNode [privateArea] (vaOf s 100) (vaOf s 100 + pgsize) = some privateArea := by
    rw [va]
    decide +kernel
  rw [← areas] at found
  refine ⟨fun writable => ?_, fun vma here writes => ?_, fun vma here writes => ?_⟩
  · rw [va, pa, entry] at writable
    cases writable
  all_goals
    rw [found] at here
    cases here
    exact absurd (by decide) writes

theorem private_region_stores (ran : run memStep emptyKernel (privateRegion.take 4) = some s) :
    FaultApart s ⟨.userStore 1 0x100000020008 7, [0x7000, 102], 9⟩ 1 0x100000020008 := by
  have list : (run memStep emptyKernel (privateRegion.take 4)).map (fun s =>
      (headOf s 1, nextOf s 100)) = some (100, 0) := by
    decide +kernel
  have page : (run memStep emptyKernel (privateRegion.take 4)).map (fun s =>
      (vaOf s 100, paOf s 100, (s.tasks 1).entry 0x100000009000)) =
      some (0x100000009000, 0x5000, some ⟨0x5000, false⟩) := by
    decide +kernel
  have facts := run_facts list ran
  obtain ⟨head, next⟩ := Prod.mk.inj facts
  have facts := run_facts page ran
  obtain ⟨va, tail⟩ := Prod.mk.inj facts
  obtain ⟨pa, entry⟩ := Prod.mk.inj tail
  have only : ∀ q, OnList s 1 q → q = 100 := fun q hq =>
    List.mem_singleton.mp (hq.mem ⟨head, by decide, next⟩)
  refine ⟨fun null => absurd null (by decide), fun _ node _ _ q hq _ writable => ?_,
    fun q hq here => ?_⟩
  · obtain rfl := only q hq
    rw [va, pa, entry] at writable
    cases writable
  · obtain rfl := only q hq
    rw [va] at here
    exact absurd here (by decide)

theorem private_region_stored (ran : run memStep emptyKernel (privateRegion.take 5) = some s) :
    (s.tasks 1).translate 0x100000020008 = some ⟨0x7000, true⟩ := by
  have computed : (run memStep emptyKernel (privateRegion.take 5)).map (fun s =>
      (s.tasks 1).translate 0x100000020008) = some (some ⟨0x7000, true⟩) := by decide +kernel
  have facts := run_facts computed ran
  exact facts

theorem private_region_keeps_apart : EachStep memStep KeepsApart emptyKernel privateRegion := by
  intro s₁ taken₁
  have ran₁ : run memStep emptyKernel (privateRegion.take 1) = some s₁ := by
    simp only [privateRegion, List.take, run, taken₁]
  refine ⟨trivial, fun s₂ taken₂ => ⟨fun _ _ _ _ q hq => absurd hq (private_region_empty ran₁),
    fun s₃ taken₃ => ?_⟩⟩
  have ran₂ : run memStep emptyKernel (privateRegion.take 2) = some s₂ := by
    simp only [privateRegion, List.take, run, taken₁, taken₂]
  have ran₃ : run memStep emptyKernel (privateRegion.take 3) = some s₃ := by
    simp only [privateRegion, List.take, run, taken₁, taken₂, taken₃]
  refine ⟨fun _ => private_region_faults ran₂, fun s₄ taken₄ => ⟨private_region_guarded ran₃,
    fun s₅ taken₅ => ?_⟩⟩
  have ran₄ : run memStep emptyKernel (privateRegion.take 4) = some s₄ := by
    simp only [privateRegion, List.take, run, taken₁, taken₂, taken₃, taken₄]
  have ran₅ : run memStep emptyKernel (privateRegion.take 5) = some s₅ := by
    simp only [privateRegion, List.take, run, taken₁, taken₂, taken₃, taken₄, taken₅]
  exact ⟨fun _ _ => private_region_stores ran₄, fun s₆ _ =>
    ⟨fun missed => absurd (private_region_stored ran₅) (missed 0x7000), trivial⟩⟩

theorem fork_isolates_private_region : (run memStep emptyKernel privateRegion).isSome = true ∧
    EachStep memStep (fun s e => ForkPreserves s e ∧ StoreIsolated s e) emptyKernel privateRegion :=
  ⟨by decide +kernel, fork_isolates _ _ _ _ private_region_keeps_apart⟩

def writtenHeap : List Event :=
  [⟨.create, [1], 9⟩, ⟨.pageFault 1 0x100000001234, [0x5000, 100], 9⟩,
    ⟨.userStore 1 0x100000001234 7, [], 9⟩, ⟨.kfork 1, [2, 0x6000, 100, 101], 9⟩]

/-- fork_cow_mapping gives the parent a page without the bytes of the old one. -/
theorem written_byte_lost :
    ¬EachStep memStep (fun s e => ForkPreserves s e ∧ StoreIsolated s e) emptyKernel
      writtenHeap := by
  intro each
  have ends : ((run memStep emptyKernel (writtenHeap.take 3)).map fun s =>
      (s.readByte 1 0x100000001234, (memStep s ⟨.kfork 1, [2, 0x6000, 100, 101], 9⟩).map fun s' =>
        s'.readByte 1 0x100000001234)) = some (some 7, some (some 0)) := by
    decide +kernel
  obtain ⟨s, ran, ends⟩ := Option.map_eq_some_iff.mp ends
  obtain ⟨before, after⟩ := Prod.mk.inj ends
  obtain ⟨s', forked, lost⟩ := Option.map_eq_some_iff.mp after
  have split : writtenHeap = writtenHeap.take 3 ++ [⟨.kfork 1, [2, 0x6000, 100, 101], 9⟩] := rfl
  rw [split] at each
  obtain ⟨here, _⟩ := each_step_after each ran s' forked
  obtain ⟨_, _, _, reads⟩ := here.1 1 s' rfl forked
  have kept := (reads _ _ before).1
  rw [lost] at kept
  cases kept

end Run

end Uproc
