import JyyOs.Library.Memories
import JyyOs.Uproc.Isolation

/-!
The memory that user code finds through its page table: every process has one of its own, which a
call changes only where and how that process asked.
-/
namespace Uproc

open Hoare PartialRun LinkedList Sharers Memories

variable {s s' : Kernel} {e : Event} {lists lists' : Nat → List Nat} {t o va pa : Nat}
  {rest : List Nat}

section Meaning

instance (va : Nat) : Decidable (UserPage va) := inferInstanceAs (Decidable (_ ∧ _))

def memoryOf (s : Kernel) : Memory Nat Nat Nat := fun t va =>
  if t ∈ s.live ∧ UserPage va then bytesAt s t va else none

def StoreHits (s : Kernel) (t addr : Nat) : Prop :=
  ∃ pa, (s.tasks t).translate addr = some ⟨pa, true⟩

def InPrivateArea (s : Kernel) (t addr : Nat) : Prop :=
  ∃ vma, findVmeNode (s.tasks t).vmAreas (roundDown addr) (u64 (roundDown addr + pgsize)) =
    some vma ∧ vma.vmFlags &&& mapPrivate ≠ 0

def FaultMeans (t ref : Nat) (h : Happening Nat Nat Nat) : Prop :=
  h = .nothing ∨ ∃ bytes, h = .appears t (roundDown ref) bytes

def StoreMeans (s : Kernel) (t addr byte : Nat) (h : Happening Nat Nat Nat) : Prop :=
  ∃ sharers, h = .stores sharers (addr % pgsize) byte ∧ (t, roundDown addr) ∈ sharers ∧
    (InPrivateArea s t addr → ∀ x ∈ sharers, x = (t, roundDown addr))

def Means (s : Kernel) (e : Event) (h : Happening Nat Nat Nat) : Prop :=
  match e.call with
  | .create => h = .nothing
  | .pageFault t ref => FaultMeans t ref h
  | .kmmap t addr length _ flags => h = .nothing ∨ flags = mapUnmap ∧ ∃ gone, h = .vanish t gone ∧
      ∀ va ∈ gone, roundDown addr ≤ va ∧ va < roundUp (addLength addr length)
  | .kfork t => ∃ child, h = .forks t child
  | .userStore t addr byte =>
    (StoreHits s t addr ∧ StoreMeans s t addr byte h) ∨ (¬StoreHits s t addr ∧ FaultMeans t addr h)
  | .destroyMappedPages _ => False

end Meaning

section Frames

theorem memory_of_live (live : t ∈ s.live) (page : UserPage va) :
    memoryOf s t va = bytesAt s t va := by
  unfold memoryOf
  rw [if_pos ⟨live, page⟩]

theorem memory_same (live : s'.live = s.live)
    (bytes : ∀ t ∈ s.live, ∀ va, UserPage va → bytesAt s' t va = bytesAt s t va) :
    memoryOf s' = memoryOf s := by
  funext t va
  unfold memoryOf
  rw [live]
  split
  case isTrue here => exact bytes t here.1 va here.2
  case isFalse => rfl

theorem SameMemory.bytes (same : SameMemory s s') : bytesAt s' t va = bytesAt s t va := by
  unfold bytesAt
  rw [same.entry, same.phys]

theorem SameMemory.memory (same : SameMemory s s') : memoryOf s' = memoryOf s := by
  apply memory_same same.live
  intro t live va page
  exact same.bytes

theorem bytes_elsewhere {bytes : Nat → Nat} (entry : (s'.tasks o).entry va = (s.tasks o).entry va)
    (phys : s'.phys = Function.update s.phys pa bytes)
    (unnamed : ∀ e, (s.tasks o).entry va = some e → e.pa ≠ pa) :
    bytesAt s' o va = bytesAt s o va := by
  unfold bytesAt
  rw [entry]
  cases found : (s.tasks o).entry va with
  | none => rfl
  | some e => simp only [Option.map_some, phys, Function.update_of_ne (unnamed e found)]

theorem phys_fresh {bytes : Nat → Nat} :
    (s.fresh pa rest bytes).phys = Function.update s.phys pa bytes := by
  rw [Kernel.fresh, Kernel.written, phys_taken]

theorem fault_keeps_own {k : Nat} (effect : FaultEffect t va pa rest s lists s' lists')
    (holds : Holds s t (lists t)) (page' : UserPage k) (ne : k ≠ va)
    (unnamed : InArea va → ∀ e, (s.tasks t).entry k = some e → e.pa ≠ pa) :
    bytesAt s' t k = bytesAt s t k := by
  cases effect with
  | outside _ same =>
    rw [same.bytes, bytesAt, bytesAt, phys_taken, tasks_taken]
  | newArea page _ _ _ _ _ _ _ same =>
    apply bytes_elsewhere _ (same.phys.trans phys_fresh) (unnamed page.1)
    rw [same.entry, entry_mapped_other page page' ne]
    simp [Kernel.withAreas, Task.entry]
  | newPage page _ _ _ _ _ same =>
    apply bytes_elsewhere _ (same.phys.trans phys_fresh) (unnamed page.1)
    rw [same.entry, entry_mapped_other page page' ne, tasks_fresh]
  | @copied m _ bytes vma left right q p rest' split here _ _ _ _ _ moved same =>
    have page : UserPage va := here ▸ holds.page q (by simp [split])
    have tasks : ∀ (m : Kernel) (o : Nat), (m.dropped o).tasks = m.tasks := fun _ _ => rfl
    subst moved
    have entry : (s'.tasks t).entry k = (s.tasks t).entry k := by
      rw [same.entry, tasks, entry_mapped_other page page' ne, entry_unmapped_other page page' ne,
        tasks_fresh]
    have phys : s'.phys = Function.update s.phys pa bytes := same.phys.trans phys_fresh
    exact bytes_elsewhere entry phys (unnamed page.1)

theorem fault_copies {u : Unit} {ref : Nat} (owned : Owned s lists)
    (live : s.currentTask ∈ s.live) (h : (pageFault ref).run s = .ok (u, s'))
    (mapped : roundDown ref ∈ (lists s.currentTask).map (vaOf s))
    (unnamed : ∀ pa, s.choices.head? = some pa → InArea (roundDown ref) →
      ∀ e, (s.tasks s.currentTask).entry (roundDown ref) = some e → e.pa ≠ pa) :
    bytesAt s' s.currentTask (roundDown ref) = bytesAt s s.currentTask (roundDown ref) := by
  simp only [pageFault, bind_ok, get_ok] at h
  obtain ⟨_, _, ⟨rfl, rfl⟩, pa, _, alloc, h⟩ := h
  obtain ⟨rest, chosen, rfl, page_fresh⟩ := alloc_page_ok alloc
  split at h
  · rename_i area
    have page : UserPage (roundDown ref) := ⟨area, by simp only [roundDown, pgsize]; omega⟩
    simp only [bind_ok, spin_lock_ok, get_task_ok, page_end page] at h
    obtain ⟨_, _, init, _, _, ⟨_, rfl⟩, thePage, _, find, _, _, ⟨rfl, rfl⟩, h⟩ := h
    obtain ⟨bytes, rfl⟩ := copy_init_code_ok init
    have locked := same_set_lock (s.fresh pa rest bytes) (.vme s.currentTask) true
    have nodes : (s.fresh pa rest bytes).nodes = s.nodes := nodes_taken ..
    have vas : vaOf (s.fresh pa rest bytes) = vaOf s := by
      funext p
      simp only [vaOf, nodes]
    have pas : paOf (s.fresh pa rest bytes) = paOf s := by
      funext p
      simp only [paOf, nodes]
    have live' : s.currentTask ∈ (s.fresh pa rest bytes).live := by
      rw [Kernel.fresh, Kernel.written, live_taken]
      exact live
    have holds := (locked.owned (owned.fresh pa rest bytes)).holds s.currentTask live'
    obtain ⟨rfl, ⟨rfl, new⟩ | ⟨mem, here⟩⟩ := find_mapped_page_ok holds.linked find
    · rw [locked.vaOf, vas] at new
      exact absurd mapped new
    · rw [if_neg (linked_real holds.linked _ mem)] at h
      obtain ⟨m, vma, left, right, p, rest', -, -, -, -, -, filled, rfl, same⟩ :=
        fault_copy_ok holds mem here h
      rw [locked.vaOf, vas] at here
      obtain ⟨w, entry⟩ := (owned.holds s.currentTask live).present thePage mem
      rw [here] at entry
      have old := unnamed pa (by rw [chosen]; rfl) area _ entry
      have copied : ((s.fresh pa rest bytes).setLock (.vme s.currentTask) true).phys
          (paOf ((s.fresh pa rest bytes).setLock (.vme s.currentTask) true) thePage) =
          s.phys (paOf s thePage) := by
        rw [locked.paOf, pas, locked.phys, phys_fresh, Function.update_of_ne old]
      have tasks : ∀ (m : Kernel) (o : Nat), (m.dropped o).tasks = m.tasks := fun _ _ => rfl
      rw [same.bytes, bytesAt, tasks, entry_mapped_here, bytesAt, entry, copied]
      simp [Kernel.dropped, Kernel.mapped, Kernel.unmapped, Kernel.written]
  · obtain ⟨_, rfl⟩ := pure_ok.mp h
    rw [bytesAt, bytesAt, phys_taken, tasks_taken]

theorem fault_live (effect : FaultEffect t va pa rest s lists s' lists') : s'.live = s.live := by
  cases effect with
  | outside _ same => rw [same.live, live_taken]
  | newArea _ _ _ _ _ _ _ _ same =>
    exact same.live.trans (live_taken ..)
  | newPage _ _ _ _ _ _ same =>
    exact same.live.trans (live_taken ..)
  | copied _ _ _ _ _ _ _ moved same =>
    subst moved
    exact same.live.trans (live_taken ..)

end Frames

section Fault

/-- No page that a process can read lies in the frame that page_fault is given. -/
def FrameUnnamed (s : Kernel) (pa : Nat) : Prop :=
  ∀ o ∈ s.live, ∀ va, UserPage va → ∀ e, (s.tasks o).entry va = some e → e.pa ≠ pa

theorem fault_memory {ref : Nat} (owned : Owned s lists) (live : t ∈ s.live)
    (effect : FaultEffect t (roundDown ref) pa rest s lists s' lists')
    (unnamed : InArea (roundDown ref) → FrameUnnamed s pa)
    (copies : roundDown ref ∈ (lists t).map (vaOf s) →
      bytesAt s' t (roundDown ref) = bytesAt s t (roundDown ref)) :
    ∃ h, FaultMeans t ref h ∧ happen (memoryOf s) h = some (memoryOf s') := by
  have holds := owned.holds t live
  have same_live := fault_live effect
  have others : ∀ o ∈ s.live, ∀ k, UserPage k → ¬(o = t ∧ k = roundDown ref) →
      bytesAt s' o k = bytesAt s o k := by
    intro o olive k page apart
    by_cases mine : o = t
    · subst mine
      exact fault_keeps_own effect holds page (fun same => apart ⟨rfl, same⟩)
        fun area => unnamed area o olive k page
    · exact fault_bytes effect mine (fun area => unnamed area o olive k page) holds.page
  by_cases new : UserPage (roundDown ref) ∧ bytesAt s t (roundDown ref) = none ∧
      bytesAt s' t (roundDown ref) ≠ none
  · obtain ⟨page, absent, present⟩ := new
    obtain ⟨bytes, there⟩ := Option.ne_none_iff_exists'.mp present
    refine ⟨.appears t (roundDown ref) bytes, Or.inr ⟨bytes, rfl⟩, ?_⟩
    rw [happen_eq_some]
    constructor
    · exact (memory_of_live live page).trans absent
    · funext o k
      unfold memoryOf
      simp only [changed, same_live]
      by_cases here : o = t ∧ k = roundDown ref
      · obtain ⟨rfl, rfl⟩ := here
        rw [if_pos ⟨live, page⟩, there, if_pos ⟨rfl, rfl⟩]
      · rw [if_neg here]
        split
        case isTrue inside => exact others o inside.1 k inside.2 here
        case isFalse => rfl
  · refine ⟨.nothing, Or.inl rfl, ?_⟩
    rw [happen_eq_some]
    refine ⟨trivial, ?_⟩
    apply memory_same same_live
    intro o olive k page
    by_cases here : o = t ∧ k = roundDown ref
    · obtain ⟨rfl, rfl⟩ := here
      by_cases mapped : roundDown ref ∈ (lists o).map (vaOf s)
      · exact copies mapped
      · have absent : bytesAt s o (roundDown ref) = none := by
          unfold bytesAt
          rw [holds.absent page mapped]
          rfl
        rw [absent]
        by_contra present
        exact new ⟨page, absent, present⟩
    · exact others o olive k page here

theorem step_faults {ref : Nat} (called : e.call = .pageFault t ref ∨
      (∃ byte, e.call = .userStore t ref byte) ∧ ¬StoreHits s t ref)
    (taken : step s e = some s') :
    t ∈ s.live ∧ ∃ u, (pageFault ref).run (s.begun e t) = .ok (u, s') := by
  simp only [step] at taken
  split at taken
  · rename_i ran
    cases taken
    rcases called with called | stored
    · rw [called] at ran
      exact on_live_ok ran
    · obtain ⟨byte, called⟩ := stored.1
      rw [called] at ran
      obtain ⟨live, u, ran⟩ := on_live_ok ran
      simp only [userStore, bind_ok, get_ok] at ran
      obtain ⟨_, _, ⟨rfl, rfl⟩, ran⟩ := ran
      split at ran
      · rename_i pa hit
        exact absurd ⟨pa, hit⟩ stored.2
      · exact ⟨live, u, ran⟩
  · cases taken

theorem fault_step_memory {ref : Nat} (inv : ApartInv s lists)
    (called : e.call = .pageFault t ref ∨
      (∃ byte, e.call = .userStore t ref byte) ∧ ¬StoreHits s t ref)
    (keeps : InArea (roundDown ref) → FaultApart s e t ref) (taken : step s e = some s') :
    ∃ h, FaultMeans t ref h ∧ happen (memoryOf s) h = some (memoryOf s') := by
  obtain ⟨live, u, ran⟩ := step_faults called taken
  have owned := inv.owned.begun e t
  obtain ⟨pa, rest, lists', chosen, page_fresh, effect⟩ := page_fault_ok owned live ran
  have unnamed : InArea (roundDown ref) → FrameUnnamed (s.begun e t) pa := by
    intro area o olive k page entry found
    exact inv.unnamed_entry olive page_fresh
      ((keeps area).null_refs inv.owned chosen) page entry found
  have copies : roundDown ref ∈ (lists t).map (vaOf s) →
      bytesAt s' t (roundDown ref) = bytesAt (s.begun e t) t (roundDown ref) := by
    intro mapped
    refine fault_copies owned live ran mapped fun pa' first area entry found => ?_
    have page : UserPage (roundDown ref) := ⟨area, by simp only [roundDown, pgsize]; omega⟩
    rw [chosen] at first
    cases first
    exact unnamed area t live _ page entry found
  have happened := fault_memory owned live effect unnamed copies
  exact happened

end Fault

section Create

theorem created_memory {c : Nat} (dead : c ∉ s.live) : memoryOf (s.created c) = memoryOf s := by
  funext o k
  by_cases here : o = c
  · subst here
    have before : memoryOf s o k = none := by
      unfold memoryOf
      rw [if_neg fun both => dead both.1]
    have empty : bytesAt (s.created o) o k = none := by
      simp [bytesAt, Kernel.created, Task.entry, createdTask]
    rw [before]
    unfold memoryOf
    rw [empty]
    split <;> rfl
  · have live : (s.created c).live = c :: s.live := rfl
    have bytes : bytesAt (s.created c) o k = bytesAt s o k := by
      simp [bytesAt, Kernel.created, Kernel.setTask, Kernel.setLock, Function.update_of_ne here]
    unfold memoryOf
    rw [bytes]
    simp only [live, List.mem_cons, here, false_or]

end Create

section Unmap

variable {lo hi : Nat}

theorem unmaps_bytes (walk : Unmaps t lo hi s lists s' lists') (owned : Owned s lists)
    (live : t ∈ s.live) : s'.live = s.live ∧ ∀ o k, UserPage k →
      bytesAt s' o k = bytesAt s o k ∨ o = t ∧ lo ≤ k ∧ k < hi ∧ bytesAt s' o k = none := by
  induction walk with
  | done => exact ⟨rfl, fun _ _ _ => Or.inl rfl⟩
  | @page s s' lists lists' left right q split inside later ih =>
    have page := (owned.holds t live).page q (by simp [split])
    obtain ⟨same_live, kept⟩ := ih (owned.unmapped live split) live
    refine ⟨same_live, fun o k page' => ?_⟩
    have phys : (s.unmapped t (vaOf s q) (left.getLastD 0) q).phys = s.phys := rfl
    by_cases here : o = t ∧ k = vaOf s q
    · obtain ⟨rfl, rfl⟩ := here
      have gone : bytesAt (s.unmapped o (vaOf s q) (left.getLastD 0) q) o (vaOf s q) = none := by
        rw [bytesAt, entry_unmapped_here]
        rfl
      rcases kept o (vaOf s q) page' with same | lost
      · exact Or.inr ⟨rfl, inside.1, inside.2, same.trans gone⟩
      · exact Or.inr lost
    · have before : bytesAt (s.unmapped t (vaOf s q) (left.getLastD 0) q) o k = bytesAt s o k := by
        unfold bytesAt
        rw [phys]
        by_cases mine : o = t
        · subst mine
          rw [entry_unmapped_other page page' fun same => here ⟨rfl, same⟩]
        · rw [task_unmapped_other mine]
      rw [← before]
      exact kept o k page'

theorem unmaps_memory (walk : Unmaps t lo hi s lists s' lists') (owned : Owned s lists)
    (live : t ∈ s.live) : ∃ gone, (∀ va ∈ gone, lo ≤ va ∧ va < hi) ∧
      happen (memoryOf s) (.vanish t gone) = some (memoryOf s') := by
  obtain ⟨same_live, kept⟩ := unmaps_bytes walk owned live
  refine ⟨{k | (lo ≤ k ∧ k < hi) ∧ bytesAt s' t k = none}, fun va mem => mem.1, ?_⟩
  rw [happen_eq_some]
  refine ⟨trivial, ?_⟩
  funext o k
  unfold memoryOf
  simp only [changed, same_live, Set.mem_ofPred_eq]
  split
  case isTrue inside =>
    split
    case isTrue lost =>
      rw [lost.1]
      exact lost.2.2
    case isFalse stays =>
      rcases kept o k inside.2 with same | lost
      · exact same
      · exact absurd ⟨lost.1, ⟨lost.2.1, lost.2.2.1⟩, lost.1 ▸ lost.2.2.2⟩ stays
  case isFalse => split <;> rfl

end Unmap

section Fork

variable {c : Nat} {ahead : List Nat}

theorem copy_walk_only (walk : CopyWalk t c s lists ahead s' lists') (owned : Owned s lists)
    (live : t ∈ s.live) (child : c ∈ s.live) (other : t ≠ c) (inside : ∀ x ∈ ahead, x ∈ lists t)
    {k : Nat} (page' : UserPage k) (away : k ∉ ahead.map (vaOf s)) :
    (s'.tasks c).entry k = (s.tasks c).entry k := by
  induction walk with
  | done => rfl
  | @page s _ lists _ rest choices x p vma mem new found chosen real fresh _ ih =>
    have holds := owned.holds t live
    have page := holds.page x mem
    have next : Owned (s.mapped c (vaOf s x) (paOf s x) vma.vmProt p true choices)
        (Function.update lists c (p :: lists c)) := owned.mapped child page new real fresh
    have own : Function.update lists c (p :: lists c) t = lists t := Function.update_of_ne other ..
    have vas : ∀ y ∈ rest,
        vaOf (s.mapped c (vaOf s x) (paOf s x) vma.vmProt p true choices) y = vaOf s y :=
      fun y hy => congrArg MPage.va
        (nodes_mapped_used (holds.used y (inside y (List.mem_cons_of_mem _ hy))) fresh)
    rw [List.map_cons, List.mem_cons, not_or] at away
    rw [ih next live child (fun y hy => by rw [own]; exact inside y (List.mem_cons_of_mem _ hy))
      (by rw [List.map_congr_left vas]; exact away.2), entry_mapped_other page page' away.1]

theorem fork_memory {s₁ s₂ s₃ s₄ : Kernel} {lists₂ lists₄ : Nat → List Nat}
    {choices : List Nat} {areas : List VmArea}
    (effect : ForkEffect t c s lists s₁ s₂ s₃ s₄ s' lists₂ lists₄ choices areas)
    (inv : ApartInv s lists) (live : t ∈ s.live) (ready : ∀ q ∈ lists t, ForksGuarded s t q) :
    happen (memoryOf s) (.forks t c) = some (memoryOf s') := by
  have holds := inv.owned.holds t live
  have dead : c ∉ s.live := by
    intro h
    have unused := effect.unused
    rw [inv.owned.taskUsed c h] at unused
    cases unused
  obtain ⟨inv₃, rfl, other, live₃, nodes, phys, tasks, -⟩ :=
    fork_before_copy effect inv live fun q hq => (ready q hq).closed (holds.page q hq)
  have own : Function.update lists c [] t = lists t := Function.update_of_ne other ..
  have vas : vaOf s₃ = vaOf s := by
    funext q
    simp only [vaOf, nodes]
  have parent : t ∈ s₃.live := by
    rw [live₃]
    exact List.mem_cons_of_mem _ live
  have child : c ∈ s₃.live := by
    rw [live₃]
    exact List.mem_cons_self
  have walk := effect.copied
  rw [own] at walk
  have inside : ∀ x ∈ lists t, x ∈ Function.update lists c [] t := fun x hx => by rwa [own]
  obtain ⟨live₄, phys₄, tasks₄, _, entries⟩ :=
    copy_walk_entries walk inv₃.owned parent child other inside
  have same := effect.finished
  have memory : s'.phys = s.phys := same.phys.trans (phys₄.trans phys)
  have others : ∀ o, o ≠ c → ∀ k, bytesAt s' o k = bytesAt s o k := by
    intro o ne k
    have table : (s'.tasks o).table = (s.tasks o).table := by
      rw [same.tables, tasks₄ o ne, (tasks o ne).1]
    unfold bytesAt Task.entry
    rw [table, memory]
  have copies : ∀ k, UserPage k → bytesAt s' c k = bytesAt s t k := by
    intro k page
    unfold bytesAt
    rw [memory, same.entry]
    by_cases mapped : k ∈ (lists t).map (vaOf s)
    · obtain ⟨x, hx, rfl⟩ := List.mem_map.mp mapped
      obtain ⟨w, there⟩ := entries x hx
      obtain ⟨w', here⟩ := holds.present x hx
      rw [vas, pa_of_nodes nodes] at there
      rw [there, here]
      rfl
    · have empty : (s₃.tasks c).entry k = none := by
        refine (inv₃.owned.holds c child).absent page ?_
        rw [Function.update_self]
        exact List.not_mem_nil
      rw [copy_walk_only walk inv₃.owned parent child other inside page (by rwa [vas]), empty,
        holds.absent page mapped]
  rw [happen_eq_some]
  constructor
  · intro k
    unfold memoryOf
    rw [if_neg fun both => dead both.1]
  · have live' : s'.live = c :: s.live := same.live.trans (live₄.trans live₃)
    funext o k
    unfold memoryOf
    simp only [changed, live', List.mem_cons]
    by_cases here : o = c
    · subst here
      simp only [true_or, true_and, if_true, live]
      split
      case isTrue page => exact copies k page
      case isFalse => rfl
    · simp only [here, false_or, if_false]
      split
      case isTrue => exact others o here k
      case isFalse => rfl

end Fork

section Store

variable {addr : Nat}

def pagesIn (s : Kernel) (pa : Nat) : Set (Nat × Nat) :=
  {x | x.1 ∈ s.live ∧ UserPage x.2 ∧ ∃ w, (s.tasks x.1).entry x.2 = some ⟨pa, w⟩}

/-- A page open to stores in a private area is the only one in its frame. -/
theorem private_alone (inv : ApartInv s lists) (live : t ∈ s.live)
    (hit : (s.tasks t).translate addr = some ⟨pa, true⟩) (hidden : InPrivateArea s t addr) :
    ∀ x ∈ pagesIn s pa, x = (t, roundDown addr) := by
  obtain ⟨vma, found, flag⟩ := hidden
  rw [Task.translate] at hit
  split at hit
  · rename_i area
    have here := area_page area
    have holds := inv.owned.holds t live
    obtain ⟨q, mem, at_addr⟩ := List.mem_map.mp (holds.listed _ here (by simp [hit]))
    obtain ⟨w, entry⟩ := holds.present q mem
    rw [at_addr, hit] at entry
    have frame : paOf s q = pa := congrArg Pte.pa (Option.some.inj entry).symm
    have exposed : ¬Guarded s t q := by
      intro guarded
      rw [page_end here, ← at_addr] at found
      rw [← at_addr, ← frame] at hit
      exact flag (guarded hit vma found)
    intro x inside
    obtain ⟨olive, page, w', there⟩ := inside
    by_cases mine : x.1 = t
    · rw [mine] at there
      obtain ⟨q', mem', at_x⟩ := List.mem_map.mp (holds.listed _ page (by simp [there]))
      obtain ⟨w'', entry'⟩ := holds.present q' mem'
      rw [at_x, there] at entry'
      have frame' : paOf s q' = paOf s q :=
        (congrArg Pte.pa (Option.some.inj entry')).symm.trans frame.symm
      by_cases same : q' = q
      · subst same
        exact Prod.ext mine (at_x.symm.trans at_addr)
      · exact absurd (inv.guarded t live q mem (sharers_twice live rfl mem mem' same frame')) exposed
    · exact absurd frame.symm (other_entry inv live mem exposed olive mine page _ there)
  · cases hit

theorem store_memory (e : Event) (byte : Nat) (inv : ApartInv s lists) (live : t ∈ s.live)
    (hit : (s.tasks t).translate addr = some ⟨pa, true⟩) :
    ∃ h, StoreMeans s t addr byte h ∧ happen (memoryOf s) h = some (memoryOf ((s.begun e t).written pa
      (Function.update (s.phys pa) (addr % pgsize) byte))) := by
  refine ⟨.stores (pagesIn s pa) (addr % pgsize) byte, ⟨_, rfl, ?_, private_alone inv live hit⟩, ?_⟩
  · rw [Task.translate] at hit
    split at hit
    · rename_i area
      exact ⟨live, area_page area, true, hit⟩
    · cases hit
  · rw [happen_eq_some]
    refine ⟨trivial, ?_⟩
    funext o k
    have same_entry : (((s.begun e t).written pa
        (Function.update (s.phys pa) (addr % pgsize) byte)).tasks o).entry k =
        (s.tasks o).entry k := rfl
    have phys : ((s.begun e t).written pa
        (Function.update (s.phys pa) (addr % pgsize) byte)).phys =
        Function.update s.phys pa (Function.update (s.phys pa) (addr % pgsize) byte) := rfl
    have same_live : ((s.begun e t).written pa
        (Function.update (s.phys pa) (addr % pgsize) byte)).live = s.live := rfl
    unfold memoryOf bytesAt
    simp only [changed, same_live, same_entry, phys]
    by_cases inside : o ∈ s.live ∧ UserPage k
    · rw [if_pos inside]
      cases found : (s.tasks o).entry k with
      | none =>
        rw [if_pos inside]
        split <;> rfl
      | some e' =>
        rw [if_pos inside]
        by_cases frame : e'.pa = pa
        · have member : (o, k) ∈ pagesIn s pa := by
            refine ⟨inside.1, inside.2, e'.writable, ?_⟩
            rw [found, ← frame]
          rw [if_pos member]
          simp only [Option.map_some, frame, Function.update_self]
        · have apart : (o, k) ∉ pagesIn s pa := by
            rintro ⟨_, _, w, there⟩
            rw [found] at there
            exact frame (congrArg Pte.pa (Option.some.inj there))
          rw [if_neg apart]
          simp only [Option.map_some, Function.update_of_ne frame]
    · rw [if_neg inside, if_neg inside]
      split <;> rfl

end Store

section Run

theorem mem_step_steps (taken : memStep s e = some s') : step s e = some s' := by
  unfold memStep at taken
  split at taken
  · cases taken
  all_goals exact taken

theorem mmap_memory {addr : Nat} {length prot flags : Int}
    (effect : MmapEffect t addr length prot flags s lists s' lists') (owned : Owned s lists)
    (live : t ∈ s.live) :
    ∃ h, (h = .nothing ∨ flags = mapUnmap ∧ ∃ gone, h = .vanish t gone ∧
      ∀ va ∈ gone, roundDown addr ≤ va ∧ va < roundUp (addLength addr length)) ∧
      happen (memoryOf s) h = some (memoryOf s') := by
  have nothing : memoryOf s' = memoryOf s → happen (memoryOf s) .nothing = some (memoryOf s') := by
    intro same
    rw [happen_eq_some]
    exact ⟨trivial, same⟩
  cases effect with
  | @area _ node areas maps _ placed inserted same =>
    have kept : memoryOf (s.withAreas t areas) = memoryOf s := by
      have same_live : (s.withAreas t areas).live = s.live := rfl
      apply memory_same same_live
      intro o olive k page
      have entry : ((s.withAreas t areas).tasks o).entry k = (s.tasks o).entry k := by
        by_cases mine : o = t
        · subst mine
          simp [Kernel.withAreas, Task.entry]
        · simp [Kernel.withAreas, Function.update_of_ne mine]
      unfold bytesAt
      rw [entry]
      rfl
    exact ⟨.nothing, Or.inl rfl, nothing (same.memory.trans kept)⟩
  | outside _ same => exact ⟨.nothing, Or.inl rfl, nothing same.memory⟩
  | @pages s₁ s₂ _ _ unmaps before gone after =>
    obtain ⟨places, inside, happened⟩ :=
      unmaps_memory gone (before.owned owned) (before.live ▸ live)
    refine ⟨.vanish t places, Or.inr ⟨unmaps, places, rfl, inside⟩, ?_⟩
    rw [after.memory, ← before.memory]
    exact happened

theorem memory_step (inv : ApartInv s lists) (keeps : KeepsApart s e)
    (taken : memStep s e = some s') :
    ∃ h, Means s e h ∧ happen (memoryOf s) h = some (memoryOf s') := by
  have stepped := mem_step_steps taken
  obtain ⟨lists', effect⟩ := step_effect inv.owned stepped
  cases effect with
  | @create _ c choices called unused same =>
    have dead : c ∉ s.live := by
      intro live
      rw [inv.owned.taskUsed c live] at unused
      cases unused
    refine ⟨.nothing, by simp only [Means, called], ?_⟩
    rw [happen_eq_some]
    exact ⟨trivial, same.memory.trans (created_memory dead)⟩
  | @fault _ t ref pa rest _ called live chosen page_fresh effect =>
    rcases called with called | ⟨byte, called⟩
    · simp only [KeepsApart, called] at keeps
      obtain ⟨h, means, happened⟩ := fault_step_memory inv (Or.inl called) keeps stepped
      exact ⟨h, by simpa only [Means, called] using means, happened⟩
    · simp only [KeepsApart, called] at keeps
      by_cases hit : StoreHits s t ref
      · obtain ⟨pa', hit⟩ := hit
        have stored := step_store_hit called hit stepped
        obtain ⟨h, means, happened⟩ := store_memory e byte inv live hit
        refine ⟨h, ?_, by rw [stored]; exact happened⟩
        simp only [Means, called]
        exact Or.inl ⟨⟨pa', hit⟩, means⟩
      · have missed : ∀ pa, (s.tasks t).translate ref ≠ some ⟨pa, true⟩ :=
          fun pa found => hit ⟨pa, found⟩
        obtain ⟨h, means, happened⟩ :=
          fault_step_memory inv (Or.inr ⟨⟨byte, called⟩, hit⟩) (keeps missed) stepped
        refine ⟨h, ?_, happened⟩
        simp only [Means, called]
        exact Or.inr ⟨hit, means⟩
  | @mmap _ t addr length prot flags _ called live effect =>
    obtain ⟨h, means, happened⟩ := mmap_memory effect (inv.owned.begun e t) live
    exact ⟨h, by simpa only [Means, called] using means, happened⟩
  | @fork _ _ _ _ _ t c _ _ _ _ called live effect =>
    simp only [KeepsApart, called] at keeps
    have guards : ∀ q ∈ lists t, ForksGuarded (s.begun e t) t q := by
      intro q hq
      have here := keeps q ((inv.owned.on_list live).mpr hq)
      exact ⟨here.guarded, here.parent, here.child⟩
    have happened := fork_memory effect (inv.begun e t) live guards
    exact ⟨.forks t c, by simp only [Means, called]; exact ⟨c, rfl⟩, happened⟩
  | destroy called live walk =>
    simp only [memStep, called] at taken
    cases taken
  | @store t addr byte pa called live found =>
    obtain ⟨h, means, happened⟩ := store_memory e byte inv live found
    refine ⟨h, ?_, happened⟩
    simp only [Means, called]
    exact Or.inl ⟨⟨pa, found⟩, means⟩

variable (nodes : Nat → MPage) (phys : Nat → Nat → Nat) (initCode : List Nat)

theorem first_memory : memoryOf (uprocInit nodes phys initCode) = fun _ _ => none := by
  funext t va
  unfold memoryOf
  rw [if_neg]
  intro both
  cases both.1

/-- Behind page tables, copied pages and counts, every process has a memory of its own. -/
theorem memories_refined {events : List Event}
    (keeps : EachStep memStep KeepsApart (uprocInit nodes phys initCode) events)
    (ran : run memStep (uprocInit nodes phys initCode) events = some s) :
    ∃ happenings, Labelled memStep Means (uprocInit nodes phys initCode) events happenings ∧
      run happen (fun _ _ => none) happenings = some (memoryOf s) := by
  have start : ∃ lists, ApartInv (uprocInit nodes phys initCode) lists :=
    ⟨_, apart_start nodes phys initCode⟩
  rw [← first_memory nodes phys initCode]
  have kept : ∀ s e s', (∃ lists, ApartInv s lists) → KeepsApart s e → memStep s e = some s' →
      (∃ lists, ApartInv s' lists) ∧
        ∃ h, Means s e h ∧ happen (memoryOf s) h = some (memoryOf s') := by
    intro s e s' inv meets taken
    obtain ⟨lists, apart⟩ := inv
    exact ⟨apart_step apart meets taken, memory_step apart meets taken⟩
  exact run_simulated kept start keeps ran

theorem memories_refined_private_region : ∃ s happenings,
    run memStep emptyKernel privateRegion = some s ∧
      Labelled memStep Means emptyKernel privateRegion happenings ∧
      run happen (fun _ _ => none) happenings = some (memoryOf s) := by
  have ends : (run memStep emptyKernel privateRegion).isSome = true := by decide +kernel
  obtain ⟨s, ran⟩ := Option.isSome_iff_exists.mp ends
  obtain ⟨happenings, labelled, happened⟩ :=
    memories_refined _ _ _ private_region_keeps_apart ran
  exact ⟨s, happenings, ran, labelled, happened⟩

end Run

section Bytes

def storedBytes (s : Kernel) (t va : Nat) (bytes : Nat → Nat) (e : Event) : Nat → Nat :=
  match e.call with
  | .userStore o addr byte =>
    match (s.tasks o).translate addr with
    | some ⟨_, true⟩ =>
      if o = t ∧ roundDown addr = va then Function.update bytes (addr % pgsize) byte else bytes
    | _ => bytes
  | _ => bytes

def writtenBytes (t va : Nat) : Kernel → List Event → (Nat → Nat) → Nat → Nat
  | _, [], bytes => bytes
  | s, e :: rest, bytes =>
    match memStep s e with
    | none => bytes
    | some s' => writtenBytes t va s' rest (storedBytes s t va bytes e)

/-- The call does not unmap the page `va` of `t`, and does not store through a shared area. -/
structure Undisturbed (t va : Nat) (s : Kernel) (e : Event) : Prop where
  mapped : ∀ addr length prot, e.call = .kmmap t addr length prot mapUnmap →
    ¬(roundDown addr ≤ va ∧ va < roundUp (addLength addr length))
  hidden : ∀ o addr byte, e.call = .userStore o addr byte → ¬(o = t ∧ roundDown addr = va) →
    InPrivateArea s o addr

theorem fault_means_nothing (o : Nat) (bytes : Nat → Nat) {ref : Nat}
    {h : Happening Nat Nat Nat} (means : FaultMeans t ref h) (k : Nat) : ¬Loses o k h ∧ stored o k bytes h = bytes := by
  rcases means with rfl | ⟨_, rfl⟩
  · exact ⟨id, rfl⟩
  · exact ⟨id, rfl⟩

theorem means_undisturbed (bytes : Nat → Nat) {h : Happening Nat Nat Nat} (means : Means s e h)
    (calm : Undisturbed t va s e) :
    ¬Loses t va h ∧ stored t va bytes h = storedBytes s t va bytes e := by
  cases called : e.call with
  | create =>
    simp only [Means, called] at means
    subst means
    exact ⟨id, by simp only [storedBytes, called]; rfl⟩
  | pageFault t' ref =>
    simp only [Means, called] at means
    simp only [storedBytes, called]
    exact fault_means_nothing t bytes means va
  | kmmap t' addr length prot flags =>
    simp only [Means, called] at means
    simp only [storedBytes, called]
    rcases means with rfl | ⟨unmaps, gone, rfl, inside⟩
    · exact ⟨id, rfl⟩
    · refine ⟨?_, rfl⟩
      rintro ⟨rfl, mem⟩
      subst unmaps
      exact calm.mapped addr length prot called (inside va mem)
  | kfork t' =>
    simp only [Means, called] at means
    obtain ⟨child, rfl⟩ := means
    exact ⟨id, by simp only [storedBytes, called]; rfl⟩
  | userStore o addr byte =>
    simp only [Means, called] at means
    simp only [storedBytes, called]
    rcases means with ⟨⟨pa, hit⟩, sharers, rfl, mem, alone⟩ | ⟨missed, means⟩
    · refine ⟨id, ?_⟩
      rw [hit]
      simp only [stored]
      by_cases mine : o = t ∧ roundDown addr = va
      · rw [if_pos mine, if_pos (mine.1 ▸ mine.2 ▸ mem)]
      · rw [if_neg mine, if_neg]
        intro shared
        have same := alone (calm.hidden o addr byte called mine) _ shared
        exact mine ⟨(congrArg Prod.fst same).symm, (congrArg Prod.snd same).symm⟩
    · have faulted := fault_means_nothing t bytes means va
      refine ⟨faulted.1, ?_⟩
      split
      case h_1 pa hit => exact absurd ⟨pa, hit⟩ missed
      case h_2 => exact faulted.2
  | destroyMappedPages t' =>
    simp only [Means, called] at means

theorem run_bytes {events : List Event} {bytes : Nat → Nat} (inv : ∃ lists, ApartInv s lists)
    (keeps : EachStep memStep KeepsApart s events)
    (calm : EachStep memStep (Undisturbed t va) s events)
    (here : memoryOf s t va = some bytes) (ran : run memStep s events = some s') :
    memoryOf s' t va = some (writtenBytes t va s events bytes) := by
  induction events generalizing s bytes with
  | nil =>
    cases ran
    exact here
  | cons e rest ih =>
    cases taken : memStep s e with
    | none => simp [run, taken] at ran
    | some next =>
      obtain ⟨lists, apart⟩ := inv
      obtain ⟨meets, keeps'⟩ := keeps next taken
      obtain ⟨quiet, calm'⟩ := calm next taken
      obtain ⟨h, means, happened⟩ := memory_step apart meets taken
      obtain ⟨kept, same⟩ := means_undisturbed bytes means quiet
      have there := happen_holds happened here kept
      rw [same] at there
      simp only [writtenBytes, taken]
      exact ih (apart_step apart meets taken) keeps' calm' there (by simpa [run, taken] using ran)

/-- A process reads what it stored last, whatever the others and the kernel do. -/
theorem bytes_stay (nodes : Nat → MPage) (phys : Nat → Nat → Nat) (initCode : List Nat)
    {before after : List Event} {bytes : Nat → Nat}
    (keeps : EachStep memStep KeepsApart (uprocInit nodes phys initCode) (before ++ after))
    (reached : run memStep (uprocInit nodes phys initCode) before = some s)
    (ran : run memStep s after = some s') (live : t ∈ s.live) (page : UserPage va)
    (here : bytesAt s t va = some bytes) (calm : EachStep memStep (Undisturbed t va) s after) :
    bytesAt s' t va = some (writtenBytes t va s after bytes) := by
  have start : ∃ lists, ApartInv (uprocInit nodes phys initCode) lists :=
    ⟨_, apart_start nodes phys initCode⟩
  have protects : ∀ s e s', (∃ lists, ApartInv s lists) → KeepsApart s e →
      memStep s e = some s' → ∃ lists, ApartInv s' lists := by
    rintro s e s' ⟨lists, apart⟩ meets taken
    exact apart_step apart meets taken
  have throughout : Throughout memStep (fun s => ∃ lists, ApartInv s lists)
      (uprocInit nodes phys initCode) before :=
    throughout_of_each_step protects before start (each_step_front keeps)
  have inv := throughout_of_run throughout reached
  have there := run_bytes inv (each_step_after keeps reached) calm
    ((memory_of_live live page).trans here) ran
  unfold memoryOf at there
  split at there
  · exact there
  · cases there

theorem private_region_calm :
    EachStep memStep (Undisturbed 1 0x100000020000) s (privateRegion.drop 5) := by
  intro s' taken
  refine ⟨⟨fun addr length prot called => ?_, fun o addr byte called other => ?_⟩, trivial⟩
  · cases called
  · cases called
    exact absurd ⟨rfl, by decide⟩ other

theorem bytes_stay_in_private_region : ∃ s s' bytes,
    run memStep emptyKernel (privateRegion.take 5) = some s ∧
      run memStep s (privateRegion.drop 5) = some s' ∧
      bytesAt s 1 0x100000020000 = some bytes ∧
      bytesAt s' 1 0x100000020000 =
        some (writtenBytes 1 0x100000020000 s (privateRegion.drop 5) bytes) := by
  have ends : (run memStep emptyKernel (privateRegion.take 5)).map (fun s =>
      (decide (1 ∈ s.live), (s.tasks 1).entry 0x100000020000,
        (run memStep s (privateRegion.drop 5)).isSome)) =
      some (true, some ⟨0x7000, true⟩, true) := by decide +kernel
  obtain ⟨s, ran, facts⟩ := Option.map_eq_some_iff.mp ends
  obtain ⟨live, tail⟩ := Prod.mk.inj facts
  obtain ⟨entry, later⟩ := Prod.mk.inj tail
  obtain ⟨s', ran'⟩ := Option.isSome_iff_exists.mp later
  have here : bytesAt s 1 0x100000020000 = some (s.phys 0x7000) := by
    unfold bytesAt
    rw [entry]
    rfl
  have whole : privateRegion.take 5 ++ privateRegion.drop 5 = privateRegion := rfl
  refine ⟨s, s', _, ran, ran', here, ?_⟩
  exact bytes_stay _ _ _ (whole ▸ private_region_keeps_apart) ran ran' (of_decide_eq_true live)
    (by decide) here private_region_calm

end Bytes

end Uproc
