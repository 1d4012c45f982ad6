import JyyOs.Uproc.Refs

/-!
What a process can read of a page that page_fault maps where nothing was mapped. The three ways
of page_fault fill a page with the code of init only, so two states that differ in memory which
is not allocated are told apart by the page.
-/
namespace Uproc

open Hoare PartialRun LinkedList

def Kernel.over (phys : Nat → Nat → Nat) (s : Kernel) : Kernel := { s with phys := phys }

def Kernel.readByte (s : Kernel) (t addr : Nat) : Option Nat :=
  ((s.tasks t).translate addr).map fun pte => s.phys pte.pa (addr % pgsize)

/-- The allocated pages hold the same bytes. NULL is no page. -/
def SameAllocated (s : Kernel) (phys : Nat → Nat → Nat) : Prop :=
  ∀ pa, pa ≠ 0 → s.frameUsed pa = true → phys pa = s.phys pa

/-- After the call the page `va` of `t` reads the same, whatever was in memory not allocated. -/
def LeaksNothing (s : Kernel) (e : Event) (t va : Nat) : Prop :=
  ∀ phys, SameAllocated s phys → ∀ s₁ s₂, step s e = some s₁ →
    step (s.over phys) e = some s₂ → ∀ i < pgsize,
      s₂.readByte t (va + i) = s₁.readByte t (va + i)

/-- The page comes with every byte set: it is the first one, and the code of init fills it. -/
def FilledByCode (s : Kernel) (va : Nat) : Prop := va = areaStart ∧ pgsize ≤ s.initCode.length

instance (s : Kernel) (va : Nat) : Decidable (FilledByCode s va) :=
  inferInstanceAs (Decidable (_ ∧ _))

section Blind

/-- Programs that neither read nor write the bytes of pages. -/
def Blind {α : Type} (x : Kern α) : Prop := ∀ phys, Commutes (Kernel.over phys) x

theorem blind_bind {α β : Type} {x : Kern α} {k : α → Kern β} (first : Blind x)
    (rest : ∀ a, Blind (k a)) : Blind (x >>= k) := by
  intro phys
  exact commutes_bind (first phys) fun a => rest a phys

theorem blind_pure {α : Type} (a : α) : Blind (pure a : Kern α) := fun _ => commutes_pure a

theorem blind_modify {f : Kernel → Kernel} (same : ∀ phys s, f (s.over phys) = (f s).over phys) :
    Blind (modify f) := fun phys => commutes_modify (same phys)

theorem blind_stop_unless {c : Prop} [Decidable c] {e : Stop} : Blind (stopUnless c e) := by
  intro phys
  unfold stopUnless
  exact commutes_ite (fun _ => commutes_pure ()) fun _ => commutes_throw e

theorem blind_run_if {c : Prop} [Decidable c] {x : Kern Unit} (h : Blind x) :
    Blind (runIf c x) := by
  intro phys
  unfold runIf
  exact commutes_ite (fun _ => h phys) fun _ => commutes_pure ()

theorem blind_spin_lock (l : LockId) : Blind (spinLock l) := by
  intro phys s u s' h
  obtain ⟨free, rfl⟩ := spin_lock_ok.mp h
  exact spin_lock_ok.mpr ⟨free, rfl⟩

theorem blind_spin_unlock (l : LockId) : Blind (spinUnlock l) := by
  intro phys s u s' h
  obtain ⟨held, rfl⟩ := spin_unlock_ok.mp h
  exact spin_unlock_ok.mpr ⟨held, rfl⟩

theorem blind_get_task (t : Nat) : Blind (getTask t) := by
  intro phys s task s' h
  obtain ⟨rfl, rfl⟩ := get_task_ok.mp h
  exact get_task_ok.mpr ⟨rfl, rfl⟩

/-- A read of the state, a check of what was read, and a change of other fields. -/
theorem blind_update {c : Kernel → Prop} [DecidablePred c] {e : Stop} {f : Kernel → Kernel}
    (same_check : ∀ phys s, c (s.over phys) ↔ c s)
    (same : ∀ phys s, f (s.over phys) = (f s).over phys) :
    Blind (do let s ← get; stopUnless (c s) e; set (f s)) := by
  intro phys s u s' h
  simp only [bind_ok, get_ok, stop_unless_ok, set_ok] at h ⊢
  obtain ⟨_, _, ⟨rfl, rfl⟩, _, _, ⟨check, rfl⟩, rfl⟩ := h
  exact ⟨_, _, ⟨rfl, rfl⟩, (), _, ⟨(same_check phys s).mpr check, rfl⟩, (same phys s).symm⟩

theorem blind_alloc_page : Blind allocPage := by
  intro phys s pa s' h
  simp only [allocPage, bind_ok, choose_ok, get_ok] at h ⊢
  obtain ⟨c, _, ⟨rest, chosen, rfl⟩, _, _, ⟨rfl, rfl⟩, h⟩ := h
  refine ⟨c, _, ⟨rest, chosen, rfl⟩, _, _, ⟨rfl, rfl⟩, ?_⟩
  split at h
  · rename_i null
    rw [if_pos null]
    obtain ⟨rfl, rfl⟩ := pure_ok.mp h
    exact pure_ok.mpr ⟨rfl, rfl⟩
  · rename_i real
    rw [if_neg real]
    simp only [bind_ok, stop_unless_ok, set_ok, pure_ok] at h ⊢
    obtain ⟨_, _, ⟨fresh, rfl⟩, _, _, rfl, rfl, rfl⟩ := h
    exact ⟨(), _, ⟨fresh, rfl⟩, ⟨⟩, _, rfl, rfl, rfl⟩

theorem blind_alloc_node : Blind allocNode := by
  intro phys s p s' h
  simp only [allocNode, bind_ok, choose_ok, get_ok, stop_unless_ok, set_ok, pure_ok] at h ⊢
  obtain ⟨c, _, ⟨rest, chosen, rfl⟩, _, _, ⟨rfl, rfl⟩, _, _, ⟨real, rfl⟩, _, _, ⟨fresh, rfl⟩,
    _, _, rfl, rfl, rfl⟩ := h
  exact ⟨_, _, ⟨rest, chosen, rfl⟩, _, _, ⟨rfl, rfl⟩, (), _, ⟨real, rfl⟩, (), _, ⟨fresh, rfl⟩,
    ⟨⟩, _, rfl, rfl, rfl⟩

theorem blind_inc_cow_cnt {pa : Nat} : Blind (incCowCnt pa) := by
  unfold incCowCnt
  apply blind_bind (blind_spin_lock _)
  intro _
  apply blind_bind (blind_modify fun _ _ => rfl)
  intro _
  exact blind_spin_unlock _

theorem blind_map {t va pa prot : Nat} : Blind (map t va pa prot) := by
  unfold map
  apply blind_bind blind_stop_unless
  intro _
  apply blind_bind blind_stop_unless
  intro _
  by_cases unmaps : prot = mmapNone
  · simp only [unmaps, if_true]
    exact blind_update (c := fun s => ((s.tasks t).entry va).isSome)
      (f := fun s => s.setTask t ((s.tasks t).setEntry va none)) (fun _ _ => Iff.rfl) fun _ _ => rfl
  · simp only [unmaps, if_false]
    exact blind_update (c := fun s => ((s.tasks t).entry va).isNone)
      (f := fun s => s.setTask t ((s.tasks t).setEntry va (some ⟨pa, prot &&& mmapWrite ≠ 0⟩)))
      (fun _ _ => Iff.rfl) fun _ _ => rfl

theorem blind_pgmap {t va pa prot : Nat} {cowCnt : Bool} : Blind (pgmap t va pa prot cowCnt) := by
  unfold pgmap newMappedPage insertMapPage
  apply blind_bind
  · apply blind_bind blind_alloc_node
    intro p
    apply blind_bind (blind_modify fun _ _ => rfl)
    intro _
    exact blind_pure p
  · intro p
    apply blind_bind (blind_run_if blind_inc_cow_cnt)
    intro _
    apply blind_bind (blind_modify fun _ _ => rfl)
    intro _
    exact blind_map

theorem blind_find_mapped_page {t va : Nat} : Blind (findMappedPage t va) := by
  have walk : ∀ fuel cur, Blind (findMappedPageLoop va fuel cur) := by
    intro fuel
    induction fuel with
    | zero => exact fun _ _ => commutes_throw _
    | succ fuel ih =>
      intro cur phys
      rw [findMappedPageLoop]
      apply commutes_ite
      · intro _
        exact commutes_pure 0
      · intro _
        apply commutes_get
        · intro s
          rfl
        · intro s
          exact commutes_ite (fun _ => commutes_pure cur) fun _ => ih _ phys
  intro phys
  apply commutes_get
  · intro s
    rfl
  · intro s
    exact walk _ _ phys

theorem blind_new_area {t addr : Nat} {length prot flags : Int} :
    Blind (newArea t addr length prot flags) := by
  apply blind_bind (blind_get_task t)
  intro task
  split
  · exact fun _ => commutes_throw _
  · exact blind_pure _

theorem blind_insert_area {t : Nat} {node : VmArea} : Blind (insertArea t node) := by
  intro phys s success s' h
  simp only [insertArea, bind_ok, get_ok] at h ⊢
  obtain ⟨_, _, ⟨rfl, rfl⟩, h⟩ := h
  refine ⟨_, _, ⟨rfl, rfl⟩, ?_⟩
  have same : ((s.over phys).tasks t).vmAreas = (s.tasks t).vmAreas := rfl
  rw [same]
  split at h
  · obtain ⟨rfl, rfl⟩ := pure_ok.mp h
    exact pure_ok.mpr ⟨rfl, rfl⟩
  · simp only [bind_ok, set_ok, pure_ok] at h ⊢
    obtain ⟨_, _, rfl, rfl, rfl⟩ := h
    exact ⟨⟨⟩, _, rfl, rfl, rfl⟩

theorem blind_kmmap_private {t addr : Nat} {length prot : Int} :
    Blind (kmmap t addr length prot mapPrivate) := by
  have maps : ¬((mapPrivate : Nat) : Int) = mapUnmap := by decide
  unfold kmmap
  simp only [if_neg maps]
  apply blind_bind blind_stop_unless
  intro _
  apply blind_bind blind_stop_unless
  intro _
  apply blind_bind blind_new_area
  intro node
  apply blind_bind (blind_spin_lock _)
  intro _
  apply blind_bind blind_insert_area
  intro success
  apply blind_bind blind_stop_unless
  intro _
  apply blind_bind (blind_spin_unlock _)
  intro _
  exact blind_pure _

theorem blind_fault_new_page {t va pa : Nat} {vma : VmArea} :
    Blind (faultNewPage t va pa vma) := by
  apply blind_bind (blind_spin_lock _)
  intro _
  apply blind_bind blind_pgmap
  intro _
  apply blind_bind (blind_spin_unlock _)
  intro _
  exact blind_spin_unlock _

theorem blind_fault_new_area {t va pa : Nat} : Blind (faultNewArea t va pa) := by
  apply blind_bind (blind_spin_unlock _)
  intro _
  apply blind_bind blind_kmmap_private
  intro _
  apply blind_bind (blind_spin_lock _)
  intro _
  apply blind_bind blind_pgmap
  intro _
  exact blind_spin_unlock _

end Blind

section Fault

variable {s s' : Kernel} {t va pa ref : Nat} {rest : List Nat} {u : Unit}

def filled (initCode : List Nat) (va pa : Nat) (phys : Nat → Nat → Nat) : Nat → Nat → Nat :=
  if va = areaStart then Function.update phys pa fun i => initCode.getD i (phys pa i) else phys

theorem over_own (s : Kernel) : s.over s.phys = s := rfl

theorem copy_init_code_over (phys : Nat → Nat → Nat)
    (h : (copyInitCode va pa).run s = .ok (u, s')) :
    (copyInitCode va pa).run (s.over phys) = .ok (u, s'.over (filled s.initCode va pa phys)) := by
  unfold copyInitCode filled at *
  simp only [bind_ok, get_ok] at h ⊢
  obtain ⟨_, _, ⟨rfl, rfl⟩, h⟩ := h
  refine ⟨_, _, ⟨rfl, rfl⟩, ?_⟩
  split at h
  · rename_i first
    rw [if_pos first, if_pos first]
    unfold copyPage at *
    simp only [bind_ok, stop_unless_ok, modify_ok] at h ⊢
    obtain ⟨_, _, ⟨real, rfl⟩, rfl⟩ := h
    exact ⟨(), _, ⟨real, rfl⟩, rfl⟩
  · rename_i later
    rw [if_neg later, if_neg later]
    obtain ⟨_, rfl⟩ := pure_ok.mp h
    rfl

structure Renders (s s' : Kernel) (ref pa : Nat) : Prop where
  fresh : pa ≠ 0 → s.frameUsed pa = false
  mapped : ∃ w, (s'.tasks s.currentTask).entry (roundDown ref) = some ⟨pa, w⟩
  again : ∀ phys, (pageFault ref).run (s.over phys) =
    .ok ((), s'.over (filled s.initCode (roundDown ref) pa phys))

theorem fault_effect_maps {s s' : Kernel} {lists lists' : Nat → List Nat} {t va pa : Nat}
    {rest : List Nat} (holds : Holds s t (lists t)) (area : InArea va)
    (unmapped : (s.tasks t).entry va = none)
    (effect : FaultEffect t va pa rest s lists s' lists') :
    ∃ w, (s'.tasks t).entry va = some ⟨pa, w⟩ := by
  cases effect with
  | outside out _ => exact absurd area out
  | newArea _ _ _ _ _ _ _ _ same =>
    rw [same.entry]
    exact ⟨_, entry_mapped_here⟩
  | newPage _ _ _ _ _ _ same =>
    rw [same.entry]
    exact ⟨_, entry_mapped_here⟩
  | @copied _ _ _ _ _ _ q _ _ split here =>
    obtain ⟨w, present⟩ := holds.present q (by simp [split])
    rw [here, unmapped] at present
    cases present

theorem fault_renders {lists : Nat → List Nat} (owned : Owned s lists)
    (live : s.currentTask ∈ s.live) (area : InArea (roundDown ref))
    (unmapped : (s.tasks s.currentTask).entry (roundDown ref) = none)
    (h : (pageFault ref).run s = .ok (u, s')) : ∃ pa, Renders s s' ref pa := by
  obtain ⟨pa, rest, lists', chosen, page_fresh, effect⟩ := page_fault_ok owned live h
  refine ⟨pa, fun real => (page_fresh real).1,
    fault_effect_maps (owned.holds _ live) area unmapped effect, fun phys => ?_⟩
  unfold pageFault at *
  simp only [bind_ok, get_ok, if_pos area] at h ⊢
  obtain ⟨_, _, ⟨rfl, rfl⟩, pa', taken, alloc, _, mid, init, _, locked, lock, thePage, found, find,
    task, _, read, h⟩ := h
  have same_page : pa' = pa := by
    obtain ⟨_, chosen', _⟩ := alloc_page_ok alloc
    rw [chosen] at chosen'
    cases chosen'
    rfl
  subst same_page
  have unlisted : thePage = 0 := by
    obtain ⟨rest', _, rfl, _⟩ := alloc_page_ok alloc
    obtain ⟨bytes, rfl⟩ := copy_init_code_ok init
    obtain ⟨_, rfl⟩ := spin_lock_ok.mp lock
    have owned' := (same_set_lock (s.fresh pa' rest' bytes) (.vme s.currentTask) true).owned
      (owned.fresh pa' rest' bytes)
    have live' : s.currentTask ∈ (s.fresh pa' rest' bytes).live := by
      rw [live_fresh]
      exact live
    have holds := owned'.holds s.currentTask live'
    obtain ⟨_, ⟨null, _⟩ | ⟨mem, here⟩⟩ := find_mapped_page_ok holds.linked find
    · exact null
    · obtain ⟨w, present⟩ := holds.present thePage mem
      have absent : ((s.fresh pa' rest' bytes).tasks s.currentTask).entry (roundDown ref) = none := by
        rw [tasks_fresh]
        exact unmapped
      rw [here] at present
      cases absent.symm.trans present
  have code : taken.initCode = s.initCode := by
    obtain ⟨rest', _, rfl, _⟩ := alloc_page_ok alloc
    unfold Kernel.pageTaken
    split <;> rfl
  rw [if_pos unlisted] at h
  refine ⟨_, _, ⟨rfl, rfl⟩, pa', _, blind_alloc_page phys _ _ _ alloc, (), _,
    copy_init_code_over phys init, (), _, blind_spin_lock _ _ _ _ _ lock, thePage, _,
    blind_find_mapped_page _ _ _ _ find, task, _, blind_get_task _ _ _ _ _ read, ?_⟩
  rw [if_pos unlisted, code]
  split at h
  · exact blind_fault_new_area _ _ _ _ h
  · exact blind_fault_new_page _ _ _ _ h

theorem Renders.bytes {pa : Nat} (renders : Renders s s' ref pa)
    (h : (pageFault ref).run s = .ok (u, s')) :
    s'.phys = filled s.initCode (roundDown ref) pa s.phys := by
  have again := renders.again s.phys
  rw [over_own, h] at again
  simp only [Except.ok.injEq, Prod.mk.injEq, true_and] at again
  rw [again]
  rfl

end Fault

section Reads

variable {s s' : Kernel} {t va pa i : Nat} {initCode : List Nat} {phys : Nat → Nat → Nat}

theorem read_page {w : Bool} (page : UserPage va) (mapped : (s.tasks t).entry va = some ⟨pa, w⟩)
    (inside : i < pgsize) : s.readByte t (va + i) = some (s.phys pa i) := by
  obtain ⟨lower, upper, aligned⟩ := user_page_bounds page
  have size : pgsize = 4096 := rfl
  have start : roundDown (va + i) = va := by
    simp only [roundDown, pgsize, Aligned] at *
    omega
  have offset : (va + i) % pgsize = i := by
    simp only [pgsize, Aligned] at *
    omega
  have area : InArea (va + i) := by
    constructor <;> omega
  unfold Kernel.readByte Task.translate
  rw [if_pos area, start, mapped, offset]
  rfl

theorem filled_uncovered (short : va = areaStart → initCode.length ≤ i) :
    filled initCode va pa phys pa i = phys pa i := by
  unfold filled
  split
  · rename_i first
    rw [Function.update_self, List.getD_eq_getElem?_getD, List.getElem?_eq_none (short first),
      Option.getD_none]
  · rfl

theorem filled_covered (first : va = areaStart) (inside : i < initCode.length) :
    filled initCode va pa phys pa i = initCode[i] := by
  unfold filled
  rw [if_pos first, Function.update_self, List.getD_eq_getElem?_getD,
    List.getElem?_eq_getElem inside, Option.getD_some]

end Reads

section Step

variable {s s' : Kernel} {e : Event} {t ref : Nat}

theorem step_fault (called : e.call = .pageFault t ref) (taken : step s e = some s') :
    t ∈ s.live ∧ ∃ u, (pageFault ref).run (s.begun e t) = .ok (u, s') := by
  simp only [step] at taken
  split at taken
  · rename_i ran
    cases taken
    rw [called] at ran
    exact on_live_ok ran
  · cases taken

theorem step_of_fault {u : Unit} (called : e.call = .pageFault t ref) (live : t ∈ s.live)
    (ran : (pageFault ref).run (s.begun e t) = .ok (u, s')) : step s e = some s' := by
  have performed : (perform e.call).run
      { s with choices := e.choices, rounds := e.rounds, freed := [] } = .ok ((), s') := by
    rw [called]
    simp only [perform, onLive, bind_ok, get_ok, stop_unless_ok, set_ok, pure_ok]
    exact ⟨_, _, ⟨rfl, rfl⟩, (), _, ⟨live, rfl⟩, ⟨⟩, _, rfl, u, s', ran, trivial, rfl⟩
  simp only [step, performed]

theorem fault_over {pa : Nat} (called : e.call = .pageFault t ref)
    (live : t ∈ s.live) (renders : Renders (s.begun e t) s' ref pa) (phys : Nat → Nat → Nat) :
    step (s.over phys) e = some (s'.over (filled s.initCode (roundDown ref) pa phys)) :=
  step_of_fault called live (renders.again phys)

end Step

/-- A page that page_fault maps shows nothing of memory that was not allocated exactly when the
    code of init fills it. -/
theorem fresh_page_leaks_nothing_iff {nodes : Nat → MPage} {phys : Nat → Nat → Nat}
    {initCode : List Nat} {events : List Event} {s s' : Kernel} {e : Event} {t ref : Nat}
    (ran : run step (uprocInit nodes phys initCode) events = some s)
    (called : e.call = .pageFault t ref) (area : InArea (roundDown ref))
    (unmapped : (s.tasks t).entry (roundDown ref) = none) (returned : step s e = some s') :
    LeaksNothing s e t (roundDown ref) ↔ FilledByCode s (roundDown ref) := by
  obtain ⟨lists, owned⟩ := owned_run ran
  obtain ⟨live, u, faulted⟩ := step_fault called returned
  obtain ⟨pa, renders⟩ := fault_renders (owned.begun e t) live area unmapped faulted
  have again := fault_over called live renders
  have bytes : s'.phys = filled s.initCode (roundDown ref) pa s.phys := renders.bytes faulted
  have page : UserPage (roundDown ref) := ⟨area, by simp only [roundDown, pgsize]; omega⟩
  obtain ⟨w, mapped⟩ := renders.mapped
  have own : ∀ i < pgsize, s'.readByte t (roundDown ref + i) =
      some (filled s.initCode (roundDown ref) pa s.phys pa i) := by
    intro i inside
    rw [← bytes]
    exact read_page page mapped inside
  have shown : ∀ phys, ∀ i < pgsize, (s'.over phys).readByte t (roundDown ref + i) =
      some (phys pa i) := fun _ _ inside => read_page page mapped inside
  constructor
  · intro leaks
    by_contra unfilled
    obtain ⟨i, inside, short⟩ : ∃ i < pgsize, roundDown ref = areaStart → s.initCode.length ≤ i := by
      by_cases first : roundDown ref = areaStart
      · refine ⟨s.initCode.length, ?_, fun _ => Nat.le_refl _⟩
        by_contra long
        exact unfilled ⟨first, by omega⟩
      · exact ⟨0, by decide, fun here => absurd here first⟩
    have other : ∃ byte, byte ≠ s.phys pa i := by
      by_cases zero : s.phys pa i = 0
      · exact ⟨1, by omega⟩
      · exact ⟨0, Ne.symm zero⟩
    obtain ⟨byte, differs⟩ := other
    have same : SameAllocated s
        (Function.update s.phys pa (Function.update (s.phys pa) i byte)) := by
      intro x real used
      apply Function.update_of_ne
      rintro rfl
      have free : s.frameUsed x = false := renders.fresh real
      rw [free] at used
      cases used
    have reads := leaks _ same _ _ returned (again _) i inside
    rw [shown _ i inside, own i inside, filled_uncovered short, filled_uncovered short,
      Function.update_self, Function.update_self] at reads
    exact differs (Option.some.inj reads)
  · rintro ⟨first, long⟩ phys' _ s₁ s₂ taken taken₂ i inside
    rw [returned] at taken
    cases taken
    rw [again] at taken₂
    cases taken₂
    have inside' : i < s.initCode.length := Nat.lt_of_lt_of_le inside long
    rw [shown _ i inside, own i inside, filled_covered first inside', filled_covered first inside']

/-- The first fault of the first process, away from the code of init. -/
theorem fresh_page_leaks_nothing_first_fault :
    ∃ s, run step emptyKernel [⟨.create, [1], 9⟩] = some s ∧
      (LeaksNothing s ⟨.pageFault 1 0x100000001234, [0x5000, 100], 9⟩ 1
        (roundDown 0x100000001234) ↔ FilledByCode s (roundDown 0x100000001234)) := by
  have ends : ((run step emptyKernel [⟨.create, [1], 9⟩]).map fun s =>
      ((s.tasks 1).entry (roundDown 0x100000001234),
        (step s ⟨.pageFault 1 0x100000001234, [0x5000, 100], 9⟩).isSome)) = some (none, true) := by
    decide +kernel
  obtain ⟨s, ran, ends⟩ := Option.map_eq_some_iff.mp ends
  obtain ⟨unmapped, returns⟩ := Prod.mk.inj ends
  obtain ⟨s', returned⟩ := Option.isSome_iff_exists.mp returns
  exact ⟨s, ran, fresh_page_leaks_nothing_iff ran rfl (by decide) unmapped returned⟩

/-- Process 1 writes to a shared page, whose count runs out at the end of its child. -/
def reusedPage : List Event :=
  [⟨.create, [1], 9⟩, ⟨.kmmap 1 0x100000005000 100 (protRead ||| protWrite : Nat) 1, [], 9⟩,
    ⟨.pageFault 1 0x100000005000, [0x5000, 100], 9⟩, ⟨.userStore 1 0x100000005008 42, [], 9⟩,
    ⟨.kfork 1, [2, 0x6000, 101], 9⟩, ⟨.destroyMappedPages 2, [], 9⟩, ⟨.create, [3], 9⟩]

/-- Process 3 takes its first fault and reads what process 1 wrote. -/
theorem fresh_page_shows_other_process :
    ∃ s s₁, run step emptyKernel reusedPage = some s ∧
      (s.tasks 3).entry 0x100000009000 = none ∧
      step s ⟨.pageFault 3 0x100000009000, [0x5000, 102], 9⟩ = some s₁ ∧
      s₁.readByte 3 0x100000009008 = some 42 ∧
      ¬LeaksNothing s ⟨.pageFault 3 0x100000009000, [0x5000, 102], 9⟩ 3 0x100000009000 := by
  have ends : ((run step emptyKernel reusedPage).map fun s =>
      ((s.tasks 3).entry 0x100000009000, s.frameUsed 0x5000,
        (step s ⟨.pageFault 3 0x100000009000, [0x5000, 102], 9⟩).map
          (·.readByte 3 0x100000009008),
        (step (s.over (Function.update s.phys 0x5000 fun _ => 0))
          ⟨.pageFault 3 0x100000009000, [0x5000, 102], 9⟩).map
          (·.readByte 3 0x100000009008))) = some (none, false, some (some 42), some (some 0)) := by
    decide +kernel
  obtain ⟨s, ran, ends⟩ := Option.map_eq_some_iff.mp ends
  obtain ⟨unmapped, ends⟩ := Prod.mk.inj ends
  obtain ⟨free, ends⟩ := Prod.mk.inj ends
  obtain ⟨reads, cleared⟩ := Prod.mk.inj ends
  obtain ⟨s₁, returned, reads⟩ := Option.map_eq_some_iff.mp reads
  obtain ⟨s₂, returned₂, cleared⟩ := Option.map_eq_some_iff.mp cleared
  refine ⟨s, s₁, ran, unmapped, returned, reads, fun leaks => ?_⟩
  have same : SameAllocated s (Function.update s.phys 0x5000 fun _ => 0) := by
    intro pa _ used
    apply Function.update_of_ne
    rintro rfl
    rw [free] at used
    cases used
  have shown := leaks _ same s₁ s₂ returned returned₂ 8 (by decide)
  rw [reads, cleared] at shown
  cases shown

end Uproc
