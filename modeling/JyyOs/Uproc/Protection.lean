import JyyOs.Uproc.Refs
import JyyOs.Uproc.Stops

/-!
page_fault never looks at the cause of the fault. It enforces the protection of an area on the
accesses that are permitted, and there only.
-/
namespace Uproc

open Hoare LinkedList PartialRun

inductive Access where
  | read
  | write
  deriving DecidableEq, Repr

def Permits (vma : VmArea) : Access → Prop
  | .read => vma.vmProt &&& protRead ≠ 0
  | .write => vma.vmProt &&& protWrite ≠ 0

instance (vma : VmArea) (access : Access) : Decidable (Permits vma access) := by
  cases access <;> exact inferInstanceAs (Decidable (_ ≠ _))

/-- A present page can be read; map asks for PTE_P and PTE_U whatever the protection. -/
def Passes (pte : Option Pte) : Access → Prop
  | .read => pte ≠ none
  | .write => ∃ pa, pte = some ⟨pa, true⟩

structure Untouched (s s' : Kernel) : Prop where
  tables : ∀ t, (s'.tasks t).table = (s.tasks t).table
  frames : s'.frameUsed = s.frameUsed
  counts : s'.cowTable = s.cowTable

/-- page_fault returns, a permitted access passes afterwards, any other changes nothing. -/
def Enforces (s : Kernel) (ref : Nat) (vma : VmArea) (access : Access) : Prop :=
  ∃ u s', (pageFault ref).run s = .ok (u, s') ∧
    (Permits vma access → Passes ((s'.tasks s.currentTask).translate ref) access) ∧
    (¬Permits vma access → Untouched s s')

/-- page_fault gets a page, an M_PAGE and its locks, and the page is not mapped to NULL. -/
structure Provided (s : Kernel) (t va pa p : Nat) : Prop where
  node : p ≠ 0
  vme_free : s.locks (.vme t) = false
  mp_free : s.locks (.mp t) = false
  page : pa ≠ 0 ∨ ((s.tasks t).entry va = none ∧ va ≠ areaStart)
  shared : ∀ pte, (s.tasks t).entry va = some pte → pte.pa ≠ 0 ∧ s.locks .cow = false

variable {s s' : Kernel} {u : Unit} {e : Stop} {t va ref pa p : Nat} {vma : VmArea}
  {access : Access} {list rest : List Nat} {bytes : Nat → Nat}

theorem permits_bits (permits : Permits vma access) :
    vma.vmProt &&& protRead ≠ 0 ∨ vma.vmProt &&& protWrite ≠ 0 := by
  cases access with
  | read => exact .inl permits
  | write => exact .inr permits

theorem passes_mapped (permits : Permits vma access) :
    Passes (some ⟨pa, decide (vma.vmProt &&& protWrite ≠ 0)⟩) access := by
  cases access with
  | read => exact Option.some_ne_none _
  | write =>
    have writable : vma.vmProt &&& protWrite ≠ 0 := permits
    exact ⟨pa, by rw [decide_eq_true writable]⟩

section Locks

theorem locks_fresh (bytes : Nat → Nat) : (s.fresh pa rest bytes).locks = s.locks := by
  unfold Kernel.fresh Kernel.written Kernel.pageTaken
  split <;> rfl

theorem rounds_fresh (bytes : Nat → Nat) : (s.fresh pa rest bytes).rounds = s.rounds := by
  unfold Kernel.fresh Kernel.written Kernel.pageTaken
  split <;> rfl

theorem copy_init_code_real (h : (copyInitCode va pa).run s = .ok (u, s'))
    (first : va = areaStart) : pa ≠ 0 := by
  simp only [copyInitCode, bind_ok, get_ok, if_pos first] at h
  obtain ⟨_, _, ⟨rfl, rfl⟩, h⟩ := h
  exact (copy_page_ok h).1

theorem copy_init_code_error (real : va = areaStart → pa ≠ 0)
    (h : (copyInitCode va pa).run s = .error e) : False := by
  simp only [copyInitCode, bind_error, get_ok, get_error, false_or] at h
  obtain ⟨_, _, ⟨rfl, rfl⟩, h⟩ := h
  split at h
  · rename_i first
    simp only [copyPage, bind_error, stop_unless_error, modify_error, and_false, exists_false,
      or_false] at h
    exact h.1 (real first)
  · exact (pure_error.mp h).elim

end Locks

section Branches

theorem fault_new_page_needs (holds : Holds s t list) (page : UserPage va)
    (new : va ∉ list.map (vaOf s)) (h : (faultNewPage t va pa vma).run s = .ok (u, s')) :
    s.locks (.mp t) = false ∧ ∀ p rest, s.choices = p :: rest → p ≠ 0 := by
  have free : s.locks (.mp t) = false := by
    simp only [faultNewPage, bind_ok, spin_lock_ok] at h
    obtain ⟨_, _, ⟨free, _⟩, _⟩ := h
    exact free
  obtain ⟨p', rest', chosen, real, _⟩ := fault_new_page_ok holds page new h
  refine ⟨free, fun p rest chosen' => ?_⟩
  rw [chosen] at chosen'
  cases chosen'
  exact real

theorem fault_new_page_error (holds : Holds s t list) (page : UserPage va)
    (new : va ∉ list.map (vaOf s)) (aligned : pa = roundDown pa)
    (given : convertMmapProtToVmProt vma.vmProt ≠ mmapNone) (mp_free : s.locks (.mp t) = false)
    (vme_held : s.locks (.vme t) = true) (chosen : s.choices = p :: rest) (real : p ≠ 0)
    (unused : s.nodeUsed p = false) (h : (faultNewPage t va pa vma).run s = .error e) :
    False := by
  have absent : ((s.setLock (.mp t) true).tasks t).entry va = none := holds.absent page new
  simp only [faultNewPage, bind_error, spin_lock_error, spin_lock_ok, spin_unlock_error,
    spin_unlock_ok] at h
  rcases h with ⟨held, _⟩ | ⟨_, _, ⟨_, rfl⟩, map | ⟨_, mid, map, h⟩⟩
  · rw [mp_free] at held
    cases held
  · have failed := pgmap_error page aligned given (by rintro ⟨⟩) absent map
    exact alloc_node_served (s := s.setLock (.mp t) true) chosen real unused failed
  · obtain ⟨node, rest', _, _, _, _, rfl⟩ := pgmap_ok absent map
    have locks : ((s.setLock (.mp t) true).mapped t va pa vma.vmProt node false rest').locks =
        Function.update s.locks (.mp t) true := rfl
    rcases h with ⟨open_again, _⟩ | ⟨_, _, ⟨_, rfl⟩, open_again, _⟩
    · rw [locks, Function.update_self] at open_again
      cases open_again
    · rw [set_lock_locks, locks, Function.update_of_ne (by simp), Function.update_of_ne (by simp),
        vme_held] at open_again
      cases open_again

theorem locks_dropped (pa : Nat) : (s.dropped pa).locks = s.locks := rfl

theorem fault_copy_needs (holds : Holds s t list) {q : Nat} (mem : q ∈ list)
    (here : vaOf s q = va) (h : (faultCopy t va pa q (some vma)).run s = .ok (u, s')) :
    s.locks (.mp t) = false ∧ pa ≠ 0 ∧ paOf s q ≠ 0 ∧ s.locks .cow = false ∧
      ∀ p rest, s.choices = p :: rest → p ≠ 0 := by
  obtain ⟨m, area, left, right, p', rest', _, _, chosen, real, _, filled, _⟩ :=
    fault_copy_ok holds mem here h
  simp only [faultCopy, bind_ok, spin_lock_ok, get_ok, stop_unless_ok, get_cow_cnt_ok,
    spin_unlock_ok] at h
  obtain ⟨_, _, ⟨free, rfl⟩, _, _, ⟨rfl, rfl⟩, _, _, ⟨old, rfl⟩, _, _, copy, _, mid, unmap, _, m',
    map, _, _, ⟨_, rfl⟩, _, _, ⟨rfl, rfl⟩, _, _, dec, _, _, ⟨cow, _⟩, _⟩ := h
  obtain ⟨_, rfl⟩ := copy_page_ok copy
  obtain ⟨left', q', right', _, _, rfl⟩ := pgunmap_ok unmap holds.linked
  obtain ⟨node, rest'', _, _, _, _, rfl⟩ := pgmap_ok entry_unmapped_here map
  rw [dec_cow_cnt_ok dec] at cow
  refine ⟨free, filled, old, ?_, fun p rest chosen' => ?_⟩
  · have locks : Function.update (Function.update s.locks (.mp t) true) (.mp t) false .cow =
        false := cow
    rwa [Function.update_of_ne (by simp), Function.update_of_ne (by simp)] at locks
  · rw [chosen] at chosen'
    cases chosen'
    exact real

theorem fault_copy_error (holds : Holds s t list) {q : Nat} (mem : q ∈ list)
    (here : vaOf s q = va) (enough : list.length ≤ s.rounds) (filled : pa ≠ 0)
    (aligned : pa = roundDown pa) (old : paOf s q ≠ 0)
    (given : convertMmapProtToVmProt vma.vmProt ≠ mmapNone) (mp_free : s.locks (.mp t) = false)
    (cow_free : s.locks .cow = false) (vme_held : s.locks (.vme t) = true)
    (chosen : s.choices = p :: rest) (real : p ≠ 0) (unused : p = q ∨ s.nodeUsed p = false)
    (h : (faultCopy t va pa q (some vma)).run s = .error e) : False := by
  have page : UserPage va := here ▸ holds.page q mem
  have listed : va ∈ list.map (vaOf s) := List.mem_map.mpr ⟨q, mem, here⟩
  simp only [faultCopy, bind_error, spin_lock_error, spin_lock_ok, get_ok, get_error,
    stop_unless_ok, stop_unless_error, spin_unlock_error, spin_unlock_ok, false_or] at h
  rcases h with ⟨held, _⟩ | ⟨_, _, ⟨_, rfl⟩, _, _, ⟨rfl, rfl⟩, ⟨null, _⟩ | ⟨_, _, ⟨_, rfl⟩,
    copy | ⟨_, m, copy, unmap | ⟨_, m', unmap, map | ⟨_, m'', map, h⟩⟩⟩⟩⟩
  · rw [mp_free] at held
    cases held
  · exact null old
  · simp only [copyPage, bind_error, stop_unless_error, modify_error, and_false, exists_false,
      or_false] at copy
    exact copy.1 filled
  · obtain ⟨_, rfl⟩ := copy_page_ok copy
    have holds' : Holds ((s.setLock (.mp t) true).written pa (s.phys (paOf s q))) t list :=
      holds.congr (fun _ _ => rfl) (fun _ _ => rfl) rfl rfl
    exact pgunmap_error holds' listed enough unmap
  all_goals
    obtain ⟨_, rfl⟩ := copy_page_ok copy
    obtain ⟨left, q', right, split, at_va, rfl⟩ := pgunmap_ok unmap holds.linked
    obtain rfl : q' = q := holds.unique (by simp [split]) mem (at_va.trans here.symm)
  · have failed := pgmap_error page aligned given (by rintro ⟨⟩)
      entry_unmapped_here map
    refine alloc_node_served (by exact chosen) real ?_ failed
    exact unused_unmapped unused
  · obtain ⟨node, rest', _, _, _, _, rfl⟩ := pgmap_ok entry_unmapped_here map
    have mp_held : Function.update s.locks (.mp t) true (.mp t) = true := Function.update_self ..
    have after : Function.update (Function.update s.locks (.mp t) true) (.mp t) false = s.locks := by
      rw [Function.update_idem, ← mp_free, Function.update_eq_self]
    rcases h with ⟨open_again, _⟩ | ⟨_, _, ⟨_, rfl⟩, _, m, ⟨_, same⟩, h⟩
    · exact Bool.false_ne_true (open_again.symm.trans mp_held)
    have locks : m.locks = s.locks := by
      rw [← same]
      exact after
    rw [← locks] at cow_free vme_held
    rcases h with dec | ⟨_, m', dec, count | ⟨_, _, count, release | ⟨_, _, release, open_again, _⟩⟩⟩
    · exact dec_cow_cnt_error cow_free dec
    · rw [dec_cow_cnt_ok dec] at count
      exact get_cow_cnt_error (by exact cow_free) count
    · exact free_page_error (run_if_error.mp release).2
    · rw [drop_cow_ok dec count release, locks_dropped, vme_held] at open_again
      cases open_again

end Branches

section Fault

structure Searching (s m : Kernel) (t : Nat) (rest : List Nat) : Prop where
  nodes : m.nodes = s.nodes
  nodeUsed : m.nodeUsed = s.nodeUsed
  tasks : m.tasks = s.tasks
  choices : m.choices = rest
  rounds : m.rounds = s.rounds
  locks : m.locks = Function.update s.locks (.vme t) true

theorem searching_fresh (pa : Nat) (rest : List Nat) (bytes : Nat → Nat) :
    Searching s ((s.fresh pa rest bytes).setLock (.vme t) true) t rest := by
  constructor
  · exact nodes_taken ..
  · exact node_used_taken ..
  · exact tasks_taken ..
  · exact choices_taken ..
  · exact rounds_fresh bytes
  · rw [set_lock_locks, locks_fresh]

section Searching

variable {m : Kernel}

theorem Searching.holds (searching : Searching s m t rest) (holds : Holds s t list) :
    Holds m t list := by
  apply holds.congr
  · intro q _
    rw [searching.nodes]
  · intro q _
    rw [searching.nodeUsed]
  · rw [headOf, searching.tasks, headOf]
  · rw [searching.tasks]

theorem Searching.vas (searching : Searching s m t rest) : vaOf m = vaOf s := by
  funext q
  rw [vaOf, searching.nodes, vaOf]

theorem Searching.lock_other (searching : Searching s m t rest) {l : LockId}
    (other : l ≠ .vme t) : m.locks l = s.locks l := by
  rw [searching.locks, Function.update_of_ne other]

theorem Searching.vme_held (searching : Searching s m t rest) : m.locks (.vme t) = true := by
  rw [searching.locks, Function.update_self]

end Searching

theorem page_fault_needs (holds : Holds s s.currentTask list) (area : InArea ref)
    (found : findVmeNode (s.tasks s.currentTask).vmAreas (roundDown ref)
      (roundDown ref + pgsize) = some vma) (chosen : s.choices = pa :: p :: rest)
    (h : (pageFault ref).run s = .ok (u, s')) :
    Provided s s.currentTask (roundDown ref) pa p := by
  have page := area_page area
  simp only [pageFault, bind_ok, get_ok] at h
  obtain ⟨_, _, ⟨rfl, rfl⟩, pa', _, alloc, h⟩ := h
  obtain ⟨rest', chosen', rfl, _⟩ := alloc_page_ok alloc
  rw [chosen] at chosen'
  cases chosen'
  rw [if_pos page.1] at h
  simp only [bind_ok, spin_lock_ok, get_task_ok, page_end page] at h
  obtain ⟨_, _, init, _, m, ⟨vme_free, locked⟩, q, _, find, _, _, ⟨rfl, rfl⟩, h⟩ := h
  have first := copy_init_code_real init
  obtain ⟨bytes, rfl⟩ := copy_init_code_ok init
  have searching : Searching s m s.currentTask (p :: rest) := locked ▸ searching_fresh ..
  rw [locks_fresh] at vme_free
  have holds' := searching.holds holds
  obtain ⟨rfl, ⟨rfl, new⟩ | ⟨mem, here⟩⟩ := find_mapped_page_ok holds'.linked find
  · rw [if_pos rfl, searching.tasks, found] at h
    obtain ⟨mp_free, node⟩ := fault_new_page_needs holds' page new h
    rw [searching.lock_other (by simp)] at mp_free
    have absent := holds.absent page (searching.vas ▸ new)
    refine ⟨node p rest searching.choices, vme_free, mp_free, ?_, fun pte present => ?_⟩
    · by_cases null : pa = 0
      · exact .inr ⟨absent, fun start => first start null⟩
      · exact .inl null
    · rw [absent] at present
      cases present
  · rw [if_neg (linked_real holds'.linked _ mem), searching.tasks, found] at h
    obtain ⟨mp_free, filled, old, cow_free, node⟩ := fault_copy_needs holds' mem here h
    rw [searching.lock_other (by simp)] at mp_free cow_free
    refine ⟨node p rest searching.choices, vme_free, mp_free, .inl filled, fun pte present => ?_⟩
    obtain ⟨w, mapped⟩ := holds.present q mem
    rw [searching.vas] at here
    rw [here, present] at mapped
    cases mapped
    rw [paOf, searching.nodes] at old
    exact ⟨old, cow_free⟩

theorem page_fault_error (holds : Holds s s.currentTask list) (area : InArea ref)
    (found : findVmeNode (s.tasks s.currentTask).vmAreas (roundDown ref)
      (roundDown ref + pgsize) = some vma) (chosen : s.choices = pa :: p :: rest)
    (free : Allocable s pa)
    (served : p ≠ 0 → s.nodeUsed p = false ∨ p ∈ list ∧ vaOf s p = roundDown ref)
    (enough : list.length < s.rounds) (permits : Permits vma access)
    (provided : Provided s s.currentTask (roundDown ref) pa p)
    (h : (pageFault ref).run s = .error e) : False := by
  have page := area_page area
  have given := convert_given (permits_bits permits)
  have aligned : pa = roundDown pa := by
    by_cases null : pa = 0
    · rw [null]
      rfl
    · have := (free null).2
      simp only [roundDown, pgsize] at this ⊢
      omega
  have node := served provided.node
  simp only [pageFault, bind_error, get_ok, get_error, false_or] at h
  obtain ⟨_, _, ⟨rfl, rfl⟩, alloc | ⟨pa', _, alloc, h⟩⟩ := h
  · exact alloc_page_served chosen free alloc
  obtain ⟨rest', chosen', rfl, _⟩ := alloc_page_ok alloc
  rw [chosen] at chosen'
  cases chosen'
  rw [if_pos page.1] at h
  simp only [bind_error, spin_lock_ok, spin_lock_error, get_task_ok, get_task_error, false_or,
    page_end page] at h
  rcases h with init | ⟨_, _, init, h⟩
  · refine copy_init_code_error (fun start => ?_) init
    exact provided.page.resolve_right fun unmapped => unmapped.2 start
  obtain ⟨bytes, rfl⟩ := copy_init_code_ok init
  rw [locks_fresh] at h
  rcases h with ⟨held, _⟩ | ⟨_, m, ⟨_, locked⟩, h⟩
  · rw [provided.vme_free] at held
    cases held
  have searching : Searching s m s.currentTask (p :: rest) := locked ▸ searching_fresh ..
  have holds' := searching.holds holds
  have mp_free := (searching.lock_other (by simp)).trans provided.mp_free
  rcases h with find | ⟨q, _, find, _, _, ⟨rfl, rfl⟩, h⟩
  · exact find_mapped_page_error holds'.linked (by rw [searching.rounds]; exact enough) find
  obtain ⟨rfl, ⟨rfl, new⟩ | ⟨mem, here⟩⟩ := find_mapped_page_ok holds'.linked find
  · rw [if_pos rfl, searching.tasks, found] at h
    have unused : m.nodeUsed p = false := by
      rw [searching.nodeUsed]
      refine node.resolve_right ?_
      rintro ⟨mem, here⟩
      refine new ?_
      rw [searching.vas]
      exact List.mem_map.mpr ⟨p, mem, here⟩
    exact fault_new_page_error holds' page new aligned given mp_free searching.vme_held
      searching.choices provided.node unused h
  · rw [if_neg (linked_real holds'.linked _ mem), searching.tasks, found] at h
    have here' : vaOf s q = roundDown ref := searching.vas ▸ here
    obtain ⟨w, mapped⟩ := holds.present q mem
    rw [here'] at mapped
    obtain ⟨old, cow_free⟩ := provided.shared _ mapped
    have filled : pa ≠ 0 := provided.page.resolve_right fun unmapped => by
      rw [mapped] at unmapped
      cases unmapped.1
    have unused : p = q ∨ m.nodeUsed p = false := by
      rw [searching.nodeUsed]
      refine node.symm.imp_left ?_
      rintro ⟨mem', at_va⟩
      exact holds.unique mem' mem (at_va.trans here'.symm)
    refine fault_copy_error holds' mem here ?_ filled aligned ?_ given mp_free ?_
      searching.vme_held searching.choices provided.node unused h
    · rw [searching.rounds]
      exact Nat.le_of_lt enough
    · rw [paOf, searching.nodes]
      exact old
    · rw [searching.lock_other (by simp)]
      exact cow_free

end Fault

section Enforcement

theorem page_fault_changes {lists : Nat → List Nat} (owned : Owned s lists)
    (live : s.currentTask ∈ s.live) (area : InArea ref)
    (found : findVmeNode (s.tasks s.currentTask).vmAreas (roundDown ref)
      (roundDown ref + pgsize) = some vma) (h : (pageFault ref).run s = .ok (u, s')) :
    ¬Untouched s s' ∧ ∃ pa, (s'.tasks s.currentTask).entry (roundDown ref) =
      some ⟨pa, vma.vmProt &&& protWrite ≠ 0⟩ := by
  have page := area_page area
  obtain ⟨pa, rest, lists', chosen, _, effect⟩ := page_fault_ok owned live h
  cases effect with
  | outside out _ => exact absurd page.1 out
  | newArea _ _ unfound _ _ _ _ _ _ =>
    rw [found] at unfound
    cases unfound
  | newPage _ new found' _ _ _ same =>
    rw [found] at found'
    cases found'
    have mapped : (s'.tasks s.currentTask).entry (roundDown ref) = some ⟨pa, _⟩ :=
      (same.entry ..).trans entry_mapped_here
    refine ⟨fun untouched => ?_, pa, mapped⟩
    have absent := (owned.holds _ live).absent page new
    rw [Task.entry, untouched.tables] at mapped
    cases absent.symm.trans mapped
  | @copied m _ bytes _ left right q p rest' split here found' chosen' _ _ _ moved same =>
    rw [found] at found'
    cases found'
    have mapped : (s'.tasks s.currentTask).entry (roundDown ref) =
        some ⟨pa, vma.vmProt &&& protWrite ≠ 0⟩ := by
      rw [same.entry]
      change (m.tasks s.currentTask).entry (roundDown ref) = _
      rw [moved]
      exact entry_mapped_here
    refine ⟨fun untouched => ?_, pa, mapped⟩
    have before : m.cowTable = s.cowTable := by
      rw [moved]
      exact cow_taken ..
    have after : (m.dropped (paOf m q)).cowTable (cowIndex (paOf m q)) =
        m.cowTable (cowIndex (paOf m q)) - 1 := Function.update_self ..
    rw [← same.cowTable, untouched.counts, before] at after
    omega

theorem enforces_iff {lists : Nat → List Nat} (owned : Owned s lists)
    (live : s.currentTask ∈ s.live) (area : InArea ref)
    (found : findVmeNode (s.tasks s.currentTask).vmAreas (roundDown ref)
      (roundDown ref + pgsize) = some vma) (chosen : s.choices = pa :: p :: rest)
    (free : Allocable s pa)
    (served : p ≠ 0 → s.nodeUsed p = false ∨
      p ∈ lists s.currentTask ∧ vaOf s p = roundDown ref)
    (enough : (lists s.currentTask).length < s.rounds) :
    Enforces s ref vma access ↔
      Permits vma access ∧ Provided s s.currentTask (roundDown ref) pa p := by
  have holds := owned.holds _ live
  constructor
  · rintro ⟨u, s', ran, _, untouched⟩
    obtain ⟨changed, _⟩ := page_fault_changes owned live area found ran
    refine ⟨?_, page_fault_needs holds area found chosen ran⟩
    by_contra forbidden
    exact changed (untouched forbidden)
  · rintro ⟨permits, provided⟩
    cases ran : (pageFault ref).run s with
    | error e =>
      exact (page_fault_error holds area found chosen free served enough permits provided ran).elim
    | ok end_state =>
      obtain ⟨u, s'⟩ := end_state
      obtain ⟨_, pa, mapped⟩ := page_fault_changes owned live area found ran
      refine ⟨u, s', ran, fun _ => ?_, fun forbidden => absurd permits forbidden⟩
      rw [Task.translate, if_pos area, mapped]
      exact passes_mapped permits

/-- page_fault enforces the protection of an area exactly on the accesses that are permitted,
    as long as pmm->alloc and the locks let it run. -/
theorem page_fault_enforces_iff {nodes : Nat → MPage} {phys : Nat → Nat → Nat}
    {initCode : List Nat} {events : List Event} {s : Kernel}
    (ran : run step (uprocInit nodes phys initCode) events = some s) {t ref : Nat} {vma : VmArea}
    (live : t ∈ s.live) (area : InArea ref)
    (found : findVmeNode (s.tasks t).vmAreas (roundDown ref) (roundDown ref + pgsize) =
      some vma) (access : Access) :
    ∃ list, Holds s t list ∧ ∀ (e : Event) (pa p : Nat) (rest : List Nat),
      e.choices = pa :: p :: rest → Allocable s pa →
      (p ≠ 0 → s.nodeUsed p = false ∨ p ∈ list ∧ vaOf s p = roundDown ref) →
      list.length < e.rounds →
      (Enforces (s.begun e t) ref vma access ↔
        Permits vma access ∧ Provided s t (roundDown ref) pa p) := by
  obtain ⟨lists, owned⟩ := owned_run ran
  refine ⟨lists t, owned.holds t live, fun e pa p rest chosen free served enough => ?_⟩
  have begun : Enforces (s.begun e t) ref vma access ↔
      Permits vma access ∧ Provided (s.begun e t) t (roundDown ref) pa p :=
    enforces_iff (owned.begun e t) live area found chosen free served enough
  exact begun.trans ⟨fun ⟨permits, h⟩ => ⟨permits, h.1, h.2, h.3, h.4, h.5⟩,
    fun ⟨permits, h⟩ => ⟨permits, h.1, h.2, h.3, h.4, h.5⟩⟩

end Enforcement

section Runs

/-- Process 1 maps a page without any permission and one it may only read. -/
def guardedAreas : List Event :=
  [⟨.create, [1], 9⟩, ⟨.kmmap 1 0x100000005000 100 (protNone : Nat) 1, [], 9⟩,
    ⟨.kmmap 1 0x100000006000 100 (protRead : Nat) 1, [], 9⟩]

def noneArea : VmArea := ⟨0x100000005000, 0x100000006000, protNone, 1⟩

def readArea : VmArea := ⟨0x100000006000, 0x100000007000, protRead, 1⟩

def outcome (x : Kern Unit) (s : Kernel) : Option Stop :=
  match x.run s with
  | .ok _ => none
  | .error e => some e

theorem guarded_areas_end : ((run step emptyKernel guardedAreas).map fun s =>
    (s.live, (s.tasks 1).vmAreas, headOf s 1, s.nodeUsed 100, s.frameUsed 0x5000)) =
    some ([1], [noneArea, readArea], 0, false, false) := by
  decide +kernel

/-- Reading the readable page. -/
theorem page_fault_enforces_read :
    ∃ s, run step emptyKernel guardedAreas = some s ∧
      (Enforces (s.begun ⟨.pageFault 1 0x100000006008, [0x5000, 100], 9⟩ 1) 0x100000006008
        readArea .read ↔
        Permits readArea .read ∧ Provided s 1 (roundDown 0x100000006008) 0x5000 100) := by
  obtain ⟨s, ran, ends⟩ := Option.map_eq_some_iff.mp guarded_areas_end
  obtain ⟨live, ends⟩ := Prod.mk.inj ends
  obtain ⟨areas, ends⟩ := Prod.mk.inj ends
  obtain ⟨head, ends⟩ := Prod.mk.inj ends
  obtain ⟨node, frame⟩ := Prod.mk.inj ends
  have found : findVmeNode (s.tasks 1).vmAreas (roundDown 0x100000006008)
      (roundDown 0x100000006008 + pgsize) = some readArea := by
    rw [areas]
    decide
  obtain ⟨list, holds, enforces⟩ :=
    page_fault_enforces_iff ran (by rw [live]; simp) (by decide) found .read
  have nothing : list = [] := by
    have linked := holds.linked
    rw [head] at linked
    cases list with
    | nil => rfl
    | cons x rest => exact absurd linked.1.symm linked.2.1
  refine ⟨s, ran, enforces _ 0x5000 100 [] rfl (fun _ => ⟨frame, rfl⟩) (fun _ => .inl node) ?_⟩
  rw [nothing]
  exact Nat.succ_pos 8

/-- A read of the page without any permission stops the kernel at an assertion of map. -/
theorem guarded_page_panics :
    ∃ s, run step emptyKernel guardedAreas = some s ∧
      findVmeNode (s.tasks 1).vmAreas (roundDown 0x100000005008)
        (roundDown 0x100000005008 + pgsize) = some noneArea ∧
      (pageFault 0x100000005008).run
        (s.begun ⟨.pageFault 1 0x100000005008, [0x5000, 100], 9⟩ 1) = .error .panic ∧
      ¬Enforces (s.begun ⟨.pageFault 1 0x100000005008, [0x5000, 100], 9⟩ 1) 0x100000005008
        noneArea .read := by
  have ends : ((run step emptyKernel guardedAreas).map fun s => ((s.tasks 1).vmAreas,
      outcome (pageFault 0x100000005008)
        (s.begun ⟨.pageFault 1 0x100000005008, [0x5000, 100], 9⟩ 1))) =
      some ([noneArea, readArea], some .panic) := by
    decide +kernel
  obtain ⟨s, ran, ends⟩ := Option.map_eq_some_iff.mp ends
  obtain ⟨areas, stops⟩ := Prod.mk.inj ends
  have found : findVmeNode (s.tasks 1).vmAreas (roundDown 0x100000005008)
      (roundDown 0x100000005008 + pgsize) = some noneArea := by
    rw [areas]
    decide
  have panics : (pageFault 0x100000005008).run
      (s.begun ⟨.pageFault 1 0x100000005008, [0x5000, 100], 9⟩ 1) = .error .panic := by
    unfold outcome at stops
    split at stops
    · cases stops
    · rename_i e failed
      cases stops
      exact failed
  refine ⟨s, ran, found, panics, ?_⟩
  rintro ⟨u, s', returned, _⟩
  rw [panics] at returned
  cases returned

end Runs

end Uproc
