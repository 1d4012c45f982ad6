import JyyOs.Uproc.LockDiscipline
import JyyOs.Uproc.Pids
import JyyOs.Uproc.Placed
import JyyOs.Uproc.Stops

/-!
Lock discipline of kmmap, page_fault, kfork and kexit: the first two keep it in every state.
kfork leaves mp_lock held when its task has no mapped page, and destroy_task locks vme_lock
a second time.
-/
namespace Uproc

open Hoare LinkedList

variable {L : LockId → Bool} {s s' : Kernel} {u : Unit} {task : Nat}

section Fault

theorem turns_copy_init_code {va pa : Nat} : Turns L L (copyInitCode va pa) :=
  turns_get fun _ _ => turns_ite turns_copy_page (turns_pure _)

theorem unlocked_again {l : LockId} (free : L l = false) :
    Turns (Function.update L l true) L (spinUnlock l) := by
  have opens : Turns (Function.update L l true) (Function.update (Function.update L l true) l false)
      (spinUnlock l) := turns_unlock
  rwa [relock free] at opens

theorem turns_fault_new_area {va pa : Nat} (vme : L (.vme task) = false)
    (mp : L (.mp task) = false) (cow : L .cow = false) :
    Turns (Function.update L (.vme task) true) L (faultNewArea task va pa) := by
  refine turns_bind (unlocked_again vme) fun _ => turns_bind (turns_kmmap vme mp) fun _ => ?_
  refine turns_bind (turns_lock mp) fun _ => turns_bind (turns_pgmap ?_) fun _ => unlocked_again mp
  rw [Function.update_of_ne (by simp)]
  exact cow

theorem turns_fault_new_page {va pa : Nat} {vma : VmArea} (vme : L (.vme task) = false)
    (mp : L (.mp task) = false) (cow : L .cow = false) :
    Turns (Function.update L (.vme task) true) L (faultNewPage task va pa vma) := by
  have mp' : Function.update L (.vme task) true (.mp task) = false := by
    rw [Function.update_of_ne (by simp)]
    exact mp
  refine turns_bind (turns_lock mp') fun _ => turns_bind (turns_pgmap ?_) fun _ => ?_
  · rw [Function.update_of_ne (by simp), Function.update_of_ne (by simp)]
    exact cow
  · exact turns_bind (unlocked_again mp') fun _ => unlocked_again vme

theorem turns_fault_copy {va pa thePage : Nat} {vma : Option VmArea} (vme : L (.vme task) = false)
    (mp : L (.mp task) = false) (cow : L .cow = false) :
    Turns (Function.update L (.vme task) true) L (faultCopy task va pa thePage vma) := by
  have mp' : Function.update L (.vme task) true (.mp task) = false := by
    rw [Function.update_of_ne (by simp)]
    exact mp
  have cow' : Function.update L (.vme task) true .cow = false := by
    rw [Function.update_of_ne (by simp)]
    exact cow
  refine turns_bind (turns_lock mp') fun _ => turns_get fun s _ => ?_
  refine turns_bind (turns_stop_unless (by decide)) fun _ => ?_
  refine turns_bind turns_copy_page fun _ => turns_bind turns_pgunmap fun _ => ?_
  split
  · exact turns_throw (by decide)
  · refine turns_bind (turns_pgmap ?_) fun _ => turns_bind (unlocked_again mp') fun _ => ?_
    · rw [Function.update_of_ne (by simp)]
      exact cow'
    · refine turns_get fun s _ => turns_bind (turns_dec_cow_cnt cow') fun _ => ?_
      refine turns_bind (turns_get_cow_cnt cow') fun _ => ?_
      exact turns_bind (turns_run_if turns_free_page) fun _ => unlocked_again vme

theorem turns_page_fault {ref : Nat} (none_held : ∀ l, L l = false) :
    Turns L L (pageFault ref) := by
  refine turns_get fun s _ => turns_bind turns_alloc_page fun pa => turns_ite ?_ (turns_pure _)
  refine turns_bind turns_copy_init_code fun _ => turns_bind (turns_lock (none_held _)) fun _ => ?_
  refine turns_bind turns_find_mapped_page fun thePage => turns_bind turns_get_task fun t => ?_
  refine turns_ite ?_ (turns_fault_copy (none_held _) (none_held _) (none_held _))
  split
  · exact turns_fault_new_area (none_held _) (none_held _) (none_held _)
  · exact turns_fault_new_page (none_held _) (none_held _) (none_held _)

end Fault

section Fork

theorem turns_fork_cow_page {cur : Nat} (vme : L (.vme task) = false) (cow : L .cow = false) :
    Turns L L (forkCowPage task cur) := by
  refine turns_get fun s _ => turns_bind (turns_get_cow_cnt cow) fun cnt => ?_
  refine turns_ite ?_ (turns_pure _)
  refine turns_bind turns_alloc_page fun pa => turns_bind (turns_lock vme) fun _ => ?_
  refine turns_bind turns_get_task fun t => turns_bind (unlocked_again vme) fun _ => ?_
  split
  · exact turns_throw (by decide)
  · exact turns_ite (turns_bind turns_pgunmap fun _ => turns_pgmap cow) (turns_pure _)

theorem turns_fork_cow_loop {fuel cur : Nat} (vme : L (.vme task) = false) (cow : L .cow = false) :
    Turns L L (forkCowMappingLoop task fuel cur) := by
  induction fuel generalizing cur with
  | zero => exact turns_throw (by decide)
  | succ fuel ih =>
    refine turns_ite (turns_pure _) (turns_bind (turns_fork_cow_page vme cow) fun _ => ?_)
    exact turns_get fun s _ => ih

theorem turns_fork_cow_mapping (none_held : ∀ l, L l = false) : Turns L L (forkCowMapping task) := by
  refine turns_bind (turns_lock (none_held _)) fun _ => turns_get fun s _ => ?_
  refine turns_bind (turns_fork_cow_loop ?_ ?_) fun _ => unlocked_again (none_held _)
  · rw [Function.update_of_ne (by simp)]
    exact none_held _
  · rw [Function.update_of_ne (by simp)]
    exact none_held _

theorem turns_fork_copy_page {newTask cur : Nat} (vme : L (.vme task) = false)
    (cow : L .cow = false) : Turns L L (forkCopyPage task newTask cur) := by
  refine turns_bind (turns_lock vme) fun _ => turns_get fun s _ => ?_
  dsimp only
  split
  · exact turns_throw (by decide)
  · refine turns_bind (turns_pgmap ?_) fun _ => unlocked_again vme
    rw [Function.update_of_ne (by simp)]
    exact cow

theorem turns_fork_coppying_loop {newTask fuel cur : Nat} (vme : L (.vme task) = false)
    (cow : L .cow = false) : Turns L L (forkCoppyingLoop task newTask fuel cur) := by
  induction fuel generalizing cur with
  | zero => exact turns_throw (by decide)
  | succ fuel ih =>
    refine turns_ite (turns_pure _) (turns_bind (turns_fork_copy_page vme cow) fun _ => ?_)
    exact turns_get fun s _ => ih

def HasPage (task : Nat) (s : Kernel) : Prop := headOf s task ≠ 0

theorem map_heads {t va pa prot : Nat} (h : (map t va pa prot).run s = .ok (u, s')) (c : Nat) :
    headOf s' c = headOf s c := by
  simp only [map, bind_ok, stop_unless_ok, get_ok] at h
  obtain ⟨_, _, ⟨_, rfl⟩, _, _, ⟨_, rfl⟩, _, _, ⟨rfl, rfl⟩, h⟩ := h
  split at h
  all_goals
    simp only [bind_ok, stop_unless_ok, set_ok] at h
    obtain ⟨_, _, ⟨_, rfl⟩, rfl⟩ := h
    by_cases here : c = t
    · subst here
      simp [headOf, Kernel.setTask, Task.setEntry]
    · simp [headOf, Kernel.setTask, here]

theorem pgmap_has_page {va pa prot : Nat} {cowCnt : Bool}
    (h : (pgmap task va pa prot cowCnt).run s = .ok (u, s')) : HasPage task s' := by
  simp only [pgmap, newMappedPage, insertMapPage, bind_ok, modify_ok, pure_ok] at h
  obtain ⟨node, _, ⟨_, _, alloc, _, _, rfl, rfl, rfl⟩, _, counted, _, _, _, rfl, h⟩ := h
  obtain ⟨_, _, real, _⟩ := alloc_node_ok alloc
  rw [HasPage, map_heads h]
  simp [headOf, Kernel.setTask, real]

theorem fork_cow_page_keeps {cur : Nat} (mapped : HasPage task s)
    (h : (forkCowPage task cur).run s = .ok (u, s')) : HasPage task s' := by
  simp only [forkCowPage, bind_ok, get_ok, get_cow_cnt_ok] at h
  obtain ⟨_, _, ⟨rfl, rfl⟩, _, _, ⟨_, _, rfl⟩, h⟩ := h
  split at h
  · simp only [bind_ok, spin_lock_ok, spin_unlock_ok, get_task_ok] at h
    obtain ⟨pa, _, alloc, _, _, ⟨_, rfl⟩, _, _, ⟨rfl, rfl⟩, _, _, ⟨_, rfl⟩, h⟩ := h
    obtain ⟨choices, _, rfl, _⟩ := alloc_page_ok alloc
    have kept : HasPage task (((s.pageTaken pa choices).setLock (.vme task) true).setLock
        (.vme task) false) := by
      change headOf (s.pageTaken pa choices) task ≠ 0
      rw [headOf, tasks_taken]
      exact mapped
    split at h
    · exact (throw_ok.mp h).elim
    · split at h
      · obtain ⟨_, _, _, map⟩ := bind_ok.mp h
        exact pgmap_has_page map
      · obtain ⟨_, rfl⟩ := pure_ok.mp h
        exact kept
  · obtain ⟨_, rfl⟩ := pure_ok.mp h
    exact mapped

theorem fork_cow_loop_keeps {fuel cur : Nat} (mapped : HasPage task s)
    (h : (forkCowMappingLoop task fuel cur).run s = .ok (u, s')) : HasPage task s' := by
  induction fuel generalizing s cur with
  | zero => exact (throw_ok.mp h).elim
  | succ fuel ih =>
    rw [forkCowMappingLoop] at h
    split at h
    · obtain ⟨_, rfl⟩ := pure_ok.mp h
      exact mapped
    · simp only [bind_ok, get_ok] at h
      obtain ⟨_, _, page, _, _, ⟨rfl, rfl⟩, h⟩ := h
      exact ih (fork_cow_page_keeps mapped page) h

theorem fork_cow_mapping_keeps (mapped : HasPage task s)
    (h : (forkCowMapping task).run s = .ok (u, s')) : HasPage task s' := by
  simp only [forkCowMapping, bind_ok, spin_lock_ok, spin_unlock_ok, get_ok] at h
  obtain ⟨_, _, ⟨_, rfl⟩, _, _, ⟨rfl, rfl⟩, _, _, loop, _, rfl⟩ := h
  have entered : HasPage task (s.setLock (.mp task) true) := mapped
  have left := fork_cow_loop_keeps entered loop
  exact left

theorem fork_copying_keeps {newTask : Nat} (other : newTask ≠ task) (mapped : HasPage task s)
    (h : (forkCopyingVmePages task newTask).run s = .ok (u, s')) : HasPage task s' := by
  simp only [forkCopyingVmePages, bind_ok, get_ok] at h
  obtain ⟨_, _, ⟨rfl, rfl⟩, h⟩ := h
  split at h
  · obtain rfl := set_ok.mp h
    simpa [HasPage, headOf, Kernel.setTask, other.symm] using mapped
  · simp only [bind_ok, spin_lock_ok, spin_unlock_ok] at h
    obtain ⟨_, _, ⟨_, rfl⟩, _, _, loop, _, rfl⟩ := h
    obtain ⟨areas, rfl, _⟩ := fork_copying_loop_ok loop
    simpa [HasPage, headOf, Kernel.setTask, Kernel.setLock, Kernel.withAreas, other.symm]
      using mapped

/-- With a mapped page the loop is entered, and mp_lock unlocked behind it. -/
theorem fork_coppying_spec {newTask : Nat} (none_held : ∀ l, L l = false) :
    Spec (fun s => s.locks = L ∧ HasPage task s) (forkCoppyingNewMappedPages task newTask)
      (fun _ s => s.locks = L) (· ≠ .deadlock) := by
  have locks : Spec (fun s => s.locks = L ∧ HasPage task s) (spinLock (.mp task))
      (fun _ s => s.locks = Function.update L (.mp task) true ∧ HasPage task s) (· ≠ .deadlock) := by
    refine spec_and (turns_lock (none_held _)) fun s _ s' mapped h => ?_
    obtain ⟨_, rfl⟩ := spin_lock_ok.mp h
    exact mapped
  refine spec_bind locks fun _ => spec_bind spec_get fun s => ?_
  refine spec_ite (fun none => ?_) fun _ => ?_
  · rintro s' ⟨rfl, _, mapped⟩
    exact absurd none mapped
  · refine spec_weaken (P := fun s => s.locks = Function.update L (.mp task) true) ?_
      (fun s' h => h.2.1) fun _ _ h => h
    refine turns_bind (turns_fork_coppying_loop ?_ ?_) fun _ => unlocked_again (none_held _)
    · rw [Function.update_of_ne (by simp)]
      exact none_held _
    · rw [Function.update_of_ne (by simp)]
      exact none_held _

theorem turns_get_pid (pid : L .pid = false) : Turns L L getPid := by
  refine turns_bind (turns_lock pid) fun _ => turns_get fun s locks => turns_ite ?_ ?_
  · exact turns_bind (unlocked_again pid) fun _ => turns_pure _
  · exact turns_bind (turns_set locks) fun _ => turns_bind (unlocked_again pid) fun _ => turns_pure _

theorem turns_kfork_enter {newTask : Nat} (pid : L .pid = false) (init : L .taskInit = false) :
    Turns L L (kforkEnter newTask) := by
  have new : Turns L L newPid := by
    refine turns_get fun s locks => turns_ite (turns_get_pid pid) ?_
    exact turns_bind (turns_set locks) fun _ => turns_pure _
  refine turns_bind new fun id => turns_bind (turns_modify fun _ => rfl) fun _ => ?_
  exact turns_section init (turns_modify fun _ => rfl) (turns_pure _)

theorem created_locks {c : Nat} (locks : s.locks = Function.update L .taskInit true)
    (none_held : ∀ l, L l = false) : (s.created c).locks = s.locks := by
  funext l
  have kept : ∀ l', l' ≠ .taskInit → s.locks l' = false := by
    intro l' other
    rw [locks, Function.update_of_ne other]
    exact none_held l'
  simp only [Kernel.created, Kernel.setTask, Kernel.setLock, Function.update_apply]
  split
  · rename_i mp
    rw [mp]
    exact (kept _ (by simp)).symm
  · split
    · rename_i vme
      rw [vme]
      exact (kept _ (by simp)).symm
    · rfl

theorem turns_uproc_create {c : Nat} (none_held : ∀ l, L l = false) : Turns L L (uprocCreate c) := by
  refine turns_bind (turns_lock (none_held _)) fun _ => turns_bind ?_ fun _ =>
    unlocked_again (none_held _)
  exact spec_modify _ fun s locks => (created_locks locks none_held).trans locks

theorem kfork_spec (none_held : ∀ l, L l = false) :
    Spec (fun s => s.locks = L ∧ HasPage task s ∧ s.taskUsed task = true) (kfork task)
      (fun _ s => s.locks = L) (· ≠ .deadlock) := by
  have alloc : Spec (fun s => s.locks = L ∧ HasPage task s ∧ s.taskUsed task = true) allocTask
      (fun c s => s.locks = L ∧ HasPage task s ∧ c ≠ task) (· ≠ .deadlock) := by
    refine spec_and turns_alloc_task fun s c s' mapped h => ?_
    obtain ⟨rest, _, _, fresh, rfl⟩ := alloc_task_ok h
    refine ⟨mapped.1, ?_⟩
    rintro rfl
    rw [mapped.2] at fresh
    cases fresh
  refine spec_bind alloc fun c => ?_
  have create : Spec (fun s => s.locks = L ∧ HasPage task s ∧ c ≠ task) (uprocCreate c)
      (fun _ s => s.locks = L ∧ HasPage task s ∧ c ≠ task) (· ≠ .deadlock) := by
    refine spec_and (turns_uproc_create none_held) fun s _ s' mapped h => ?_
    obtain ⟨mapped, other⟩ := mapped
    refine ⟨?_, other⟩
    simp only [uprocCreate, bind_ok, modify_ok, spin_lock_ok, spin_unlock_ok] at h
    obtain ⟨_, _, ⟨_, rfl⟩, _, _, rfl, _, rfl⟩ := h
    simpa [HasPage, headOf, Kernel.created, Kernel.setTask, Kernel.setLock, other.symm]
      using mapped
  refine spec_bind create fun _ => ?_
  have cow : Spec (fun s => s.locks = L ∧ HasPage task s ∧ c ≠ task) (forkCowMapping task)
      (fun _ s => s.locks = L ∧ HasPage task s ∧ c ≠ task) (· ≠ .deadlock) :=
    spec_and (turns_fork_cow_mapping none_held) fun s _ s' mapped h =>
      ⟨fork_cow_mapping_keeps mapped.1 h, mapped.2⟩
  refine spec_bind cow fun _ => ?_
  have copy : Spec (fun s => s.locks = L ∧ HasPage task s ∧ c ≠ task)
      (forkCopyingVmePages task c) (fun _ s => s.locks = L ∧ HasPage task s) (· ≠ .deadlock) :=
    spec_and (turns_fork_copying_vme_pages (none_held _)) fun s _ s' mapped h =>
      fork_copying_keeps mapped.2 mapped.1 h
  refine spec_bind copy fun _ => spec_bind (fork_coppying_spec none_held) fun _ => ?_
  exact turns_bind (turns_modify fun _ => rfl) fun _ =>
    turns_kfork_enter (none_held _) (none_held _)

/-- kfork may return with mp_lock held, but locks nothing twice. -/
theorem kfork_never_deadlocks (none_held : ∀ l, L l = false) :
    Spec (fun s => s.locks = L) (kfork task) (fun _ _ => True) (· ≠ .deadlock) := by
  have pages : ∀ c, Spec (fun s => s.locks = L) (forkCoppyingNewMappedPages task c)
      (fun _ s => s.locks .pid = false ∧ s.locks .taskInit = false) (· ≠ .deadlock) := by
    intro c
    refine spec_bind (turns_lock (none_held _)) fun _ => spec_bind spec_get fun s => ?_
    have apart : ∀ {m : Kernel}, m.locks = Function.update L (.mp task) true →
        m.locks .pid = false ∧ m.locks .taskInit = false := by
      intro m locks
      rw [locks, Function.update_of_ne (by simp), Function.update_of_ne (by simp)]
      exact ⟨none_held _, none_held _⟩
    refine spec_ite (fun _ => ?_) fun _ => ?_
    · rintro _ ⟨rfl, locks⟩
      refine ⟨fun _ s' h => ?_, fun e h => (set_error.mp h).elim⟩
      rw [set_ok.mp h]
      exact apart locks
    · refine spec_weaken (P := fun s => s.locks = Function.update L (.mp task) true)
        (Q := fun _ s => s.locks = L) ?_ (fun s' h => h.2) fun _ s' h => ?_
      · refine turns_bind (turns_fork_coppying_loop ?_ ?_) fun _ => unlocked_again (none_held _)
        · rw [Function.update_of_ne (by simp)]
          exact none_held _
        · rw [Function.update_of_ne (by simp)]
          exact none_held _
      · rw [h]
        exact ⟨none_held _, none_held _⟩
  refine spec_bind turns_alloc_task fun c => spec_bind (turns_uproc_create none_held) fun _ => ?_
  refine spec_bind (turns_fork_cow_mapping none_held) fun _ => ?_
  refine spec_bind (turns_fork_copying_vme_pages (none_held _)) fun _ => ?_
  refine spec_bind (pages c) fun _ s ⟨pid, init⟩ => ?_
  have ends : Turns s.locks s.locks (do
      modify fun s => s.setTask c { s.tasks c with ppid := (s.tasks task).pid }
      kforkEnter c) :=
    turns_bind (turns_modify fun _ => rfl) fun _ => turns_kfork_enter pid init
  exact ⟨fun _ _ _ => trivial, (ends s rfl).2⟩

end Fork

section Leak

structure Childless (s : Kernel) (L : LockId → Bool) (task c : Nat) (areas : List VmArea) :
    Prop where
  locks : s.locks = L
  rounds : 0 < s.rounds
  head : headOf s task = 0
  areas : (s.tasks task).vmAreas = areas
  other : c ≠ task
  fresh : (s.tasks c).vmAreas = []

variable {c : Nat} {areas out : List VmArea} {all : Bool}

theorem Childless.setLock (childless : Childless s L task c areas) (l : LockId) (held : Bool) :
    Childless (s.setLock l held) (Function.update L l held) task c areas :=
  ⟨by rw [set_lock_locks, childless.locks], childless.rounds, childless.head, childless.areas,
    childless.other, childless.fresh⟩

theorem Childless.again {l : LockId} (free : L l = false)
    (childless : Childless s (Function.update L l true) task c areas) :
    Childless (s.setLock l false) L task c areas := by
  have opened := childless.setLock l false
  rwa [relock free] at opened

theorem lock_runs {l : LockId} (free : s.locks l = false) :
    (spinLock l).run s = .ok ((), s.setLock l true) :=
  spin_lock_ok.mpr ⟨free, rfl⟩

theorem unlock_runs {l : LockId} (held : s.locks l = true) :
    (spinUnlock l).run s = .ok ((), s.setLock l false) :=
  spin_unlock_ok.mpr ⟨held, rfl⟩

theorem created_childless (none_held : ∀ l, L l = false) (locks : s.locks = L)
    (rounds : 0 < s.rounds) (head : headOf s task = 0) (other : c ≠ task) :
    Ends (s = ·) (uprocCreate c) fun _ s' => Childless s' L task c (s.tasks task).vmAreas := by
  rintro _ rfl
  let m := s.setLock .taskInit true
  have locked : m.locks = Function.update L .taskInit true := by
    rw [set_lock_locks, locks]
  have kept : (m.created c).locks = Function.update L .taskInit true :=
    (created_locks locked none_held).trans locked
  have held : (m.created c).locks .taskInit = true := by
    rw [kept, Function.update_self]
  refine ⟨(), (m.created c).setLock .taskInit false, ?_, ?_⟩
  · simp only [uprocCreate, bind_ok, modify_ok]
    exact ⟨(), m, lock_runs (by rw [locks]; exact none_held _), ⟨⟩, _, rfl, unlock_runs held⟩
  · have made : Childless (m.created c) (Function.update L .taskInit true) task c
        (s.tasks task).vmAreas := by
      refine ⟨kept, rounds, ?_, ?_, other, ?_⟩
      · simpa [headOf, Kernel.created, Kernel.setTask, Kernel.setLock, m, other.symm] using head
      · simp [Kernel.created, Kernel.setTask, Kernel.setLock, m, other.symm]
      · simp [Kernel.created, Kernel.setTask, createdTask]
    exact made.again (none_held _)

theorem fork_cow_childless (none_held : ∀ l, L l = false) :
    Ends (fun s => Childless s L task c areas) (forkCowMapping task)
      fun _ s => Childless s L task c areas := by
  intro s childless
  have locked := childless.setLock (.mp task) true
  refine ⟨(), (s.setLock (.mp task) true).setLock (.mp task) false, ?_,
    locked.again (none_held _)⟩
  simp only [forkCowMapping, bind_ok, get_ok]
  refine ⟨(), _, lock_runs (by rw [childless.locks]; exact none_held _), _, _, ⟨rfl, rfl⟩, (), _, ?_,
    unlock_runs (by simp [Kernel.setLock])⟩
  obtain ⟨fuel, fuel_eq⟩ := Nat.exists_eq_add_one_of_ne_zero (Nat.ne_of_gt locked.rounds)
  have head : ((s.setLock (.mp task) true).tasks task).mappedPageHead = 0 := locked.head
  rw [fuel_eq, head, forkCowMappingLoop, if_pos rfl]
  rfl

theorem copy_loop_runs {child ahead : List VmArea} (own : (s.tasks c).vmAreas = child)
    (copied : copyAreas child ahead = some (out, all)) :
    (forkCopyingVmePagesLoop c ahead).run s = .ok ((), s.withAreas c out) := by
  induction ahead generalizing s child all with
  | nil =>
    cases copied
    rw [← own, with_areas_same]
    rfl
  | cons cur next ih =>
    rw [copyAreas] at copied
    split at copied
    · cases copied
    · rename_i node placed
      rw [← own] at placed
      simp only [forkCopyingVmePagesLoop, bind_ok]
      split at copied
      · rename_i child' inserted
        rw [← own] at inserted
        have rest := ih (s := s.withAreas c child') (areas_with_areas ..) copied
        rw [with_areas_again] at rest
        exact ⟨node, s, new_area_runs placed, true, _, insert_area_runs inserted, rest⟩
      · rename_i overlaps
        obtain ⟨⟨out', all'⟩, later, same⟩ := Option.map_eq_some_iff.mp copied
        cases same
        refine ⟨node, s, new_area_runs placed, false, s, ?_, ih own later⟩
        simp only [insertArea, bind_ok, get_ok]
        refine ⟨s, s, ⟨rfl, rfl⟩, ?_⟩
        rw [own, overlaps]
        rfl

theorem fork_copying_childless (none_held : ∀ l, L l = false)
    (copied : copyAreas [] areas = some (out, all)) :
    Ends (fun s => Childless s L task c areas) (forkCopyingVmePages task c)
      fun _ s => s.locks = L ∧ headOf s task = 0 := by
  intro s childless
  simp only [forkCopyingVmePages, bind_ok, get_ok]
  by_cases none_left : (s.tasks task).vmAreas = []
  · refine ⟨(), s.withAreas c [], ⟨s, s, ⟨rfl, rfl⟩, ?_⟩, childless.locks, ?_⟩
    · rw [if_pos none_left]
      rfl
    · simpa [headOf, Kernel.withAreas, Kernel.setTask, childless.other.symm] using childless.head
  · have locked := childless.setLock (.vme task) true
    have loop := copy_loop_runs locked.fresh copied
    have held : ((s.setLock (.vme task) true).withAreas c out).locks (.vme task) = true := by
      simp [Kernel.withAreas, Kernel.setTask, Kernel.setLock]
    refine ⟨(), ((s.setLock (.vme task) true).withAreas c out).setLock (.vme task) false, ?_, ?_, ?_⟩
    · refine ⟨s, s, ⟨rfl, rfl⟩, ?_⟩
      rw [if_neg none_left, childless.areas]
      simp only [bind_ok]
      exact ⟨(), _, lock_runs (by rw [childless.locks]; exact none_held _), (), _, loop,
        unlock_runs held⟩
    · exact (locked.again (none_held _)).locks
    · simpa [headOf, Kernel.withAreas, Kernel.setTask, Kernel.setLock, childless.other.symm]
        using childless.head

theorem fork_coppying_leaves (none_held : ∀ l, L l = false) :
    Ends (fun s => s.locks = L ∧ headOf s task = 0) (forkCoppyingNewMappedPages task c)
      fun _ s => s.locks = Function.update L (.mp task) true := by
  rintro s ⟨locks, head⟩
  let m := s.setLock (.mp task) true
  have empty : (m.tasks task).mappedPageHead = 0 := head
  simp only [forkCoppyingNewMappedPages, bind_ok, get_ok]
  refine ⟨(), m.setTask c { m.tasks c with mappedPageHead := 0 },
    ⟨(), m, lock_runs (by rw [locks]; exact none_held _), m, m, ⟨rfl, rfl⟩, ?_⟩, ?_⟩
  · rw [if_pos empty]
    rfl
  · rw [← locks]
    rfl

theorem new_pid_ends (none_held : ∀ l, L l = false) :
    Ends (fun s => s.locks = Function.update L (.mp task) true) newPid
      fun _ s => s.locks = Function.update L (.mp task) true := by
  refine ends_get fun s locks => ?_
  have free : s.locks .pid = false := by
    rw [locks, Function.update_of_ne (by simp)]
    exact none_held _
  rintro _ rfl
  have held : (s.setLock .pid true).locks .pid = true := by simp
  split
  · simp only [getPid, bind_ok, get_ok]
    by_cases empty : s.pHead = 0
    · have empty' : (s.setLock .pid true).pHead = 0 := empty
      refine ⟨0, s, ⟨(), _, lock_runs free, _, _, ⟨rfl, rfl⟩, ?_⟩, locks⟩
      rw [if_pos empty']
      simp only [bind_ok, pure_ok, true_and]
      exact ⟨(), _, unlock_runs held, set_lock_back free⟩
    · have some_pid : ¬(s.setLock .pid true).pHead = 0 := empty
      refine ⟨pidOf s s.pHead, s.dequeued, ⟨(), _, lock_runs free, _, _, ⟨rfl, rfl⟩, ?_⟩, locks⟩
      rw [if_neg some_pid]
      simp only [bind_ok, set_ok, pure_ok]
      exact ⟨⟨⟩, _, rfl, (), _, unlock_runs held, rfl, set_lock_back (s := s.dequeued) free⟩
  · exact ⟨_, _, rfl, locks⟩

theorem kfork_enter_ends (none_held : ∀ l, L l = false) :
    Ends (fun s => s.locks = Function.update L (.mp task) true) (kforkEnter c)
      fun _ s => s.locks = Function.update L (.mp task) true := by
  refine ends_bind (new_pid_ends none_held) fun id => ?_
  refine ends_bind (R := fun _ s => s.locks = Function.update L (.mp task) true)
    (ends_modify fun s locks => locks) fun _ s locks => ?_
  have free : s.locks .taskInit = false := by
    rw [locks, Function.update_of_ne (by simp)]
    exact none_held _
  simp only [bind_ok, modify_ok, pure_ok]
  refine ⟨id, { s with taskList := Function.update s.taskList id c }, ⟨(), _, lock_runs free, ⟨⟩, _,
    rfl, (), _, unlock_runs (by simp [Kernel.setLock]), rfl, ?_⟩, locks⟩
  exact set_lock_back (s := { s with taskList := Function.update s.taskList id c }) free

theorem kfork_leaves_lock (none_held : ∀ l, s.locks l = false) (used : s.taskUsed task = true)
    (head : headOf s task = 0) (copied : copyAreas [] (s.tasks task).vmAreas = some (out, all))
    (real : c ≠ 0) (fresh : s.taskUsed c = false) :
    ∃ r s', (kfork task).run { s with choices := [c], rounds := 1 } = .ok (r, s') ∧
      s'.locks (.mp task) = true := by
  have other : c ≠ task := by
    rintro rfl
    rw [used] at fresh
    cases fresh
  let m : Kernel := { s with choices := [], rounds := 1, taskUsed := Function.update s.taskUsed c true }
  have alloc : allocTask.run { s with choices := [c], rounds := 1 } = .ok (c, m) := by
    simp only [allocTask, bind_ok, choose_ok, get_ok, stop_unless_ok, set_ok, pure_ok]
    exact ⟨c, _, ⟨[], rfl, rfl⟩, _, _, ⟨rfl, rfl⟩, (), _, ⟨real, rfl⟩, (), _, ⟨fresh, rfl⟩, ⟨⟩, _,
      rfl, rfl, rfl⟩
  have rest : Ends (m = ·) (do
      uprocCreate c
      forkCowMapping task
      forkCopyingVmePages task c
      forkCoppyingNewMappedPages task c
      modify fun s => s.setTask c { s.tasks c with ppid := (s.tasks task).pid }
      kforkEnter c) fun _ s' => s'.locks = Function.update s.locks (.mp task) true := by
    have created := created_childless (s := m) none_held rfl Nat.zero_lt_one head other
    refine ends_bind created fun _ => ends_bind (fork_cow_childless none_held) fun _ => ?_
    refine ends_bind (fork_copying_childless none_held copied) fun _ => ?_
    refine ends_bind (fork_coppying_leaves none_held) fun _ => ?_
    exact ends_bind (R := fun _ m => m.locks = Function.update s.locks (.mp task) true)
      (ends_modify fun _ locks => locks) fun _ => kfork_enter_ends none_held
  obtain ⟨r, s', ran, locks⟩ := rest m rfl
  refine ⟨r, s', ?_, ?_⟩
  · rw [kfork, bind_ok]
    exact ⟨c, m, alloc, ran⟩
  · rw [locks, Function.update_self]

theorem copy_loop_some {ahead : List VmArea}
    (h : (forkCopyingVmePagesLoop c ahead).run s = .ok (u, s')) :
    copyAreas (s.tasks c).vmAreas ahead ≠ none := by
  induction ahead generalizing s with
  | nil => exact Option.some_ne_none _
  | cons cur next ih =>
    simp only [forkCopyingVmePagesLoop, bind_ok] at h
    obtain ⟨node, _, place, success, _, insert, h⟩ := h
    obtain ⟨placed, rfl⟩ := new_area_ok place
    rw [copyAreas, placed]
    rcases insert_area_ok insert with ⟨overlaps, _, rfl⟩ | ⟨areas, inserted, _, rfl⟩
    · simp only [overlaps]
      intro none
      exact ih h (Option.map_eq_none_iff.mp none)
    · simp only [inserted]
      have rest := ih h
      rwa [areas_with_areas] at rest

theorem created_empty (other : c ≠ task) (h : (uprocCreate c).run s = .ok (u, s')) :
    headOf s' task = headOf s task ∧ (s'.tasks task).vmAreas = (s.tasks task).vmAreas ∧
      (s'.tasks c).vmAreas = [] := by
  simp only [uprocCreate, bind_ok, modify_ok, spin_lock_ok, spin_unlock_ok] at h
  obtain ⟨_, _, ⟨_, rfl⟩, _, _, rfl, _, rfl⟩ := h
  simp [headOf, Kernel.created, Kernel.setTask, Kernel.setLock, createdTask, other.symm]

theorem fork_cow_empty (head : headOf s task = 0)
    (h : (forkCowMapping task).run s = .ok (u, s')) : s'.tasks = s.tasks := by
  simp only [forkCowMapping, bind_ok, spin_lock_ok, spin_unlock_ok, get_ok] at h
  obtain ⟨_, _, ⟨_, rfl⟩, _, _, ⟨rfl, rfl⟩, _, _, loop, _, rfl⟩ := h
  have empty : ((s.setLock (.mp task) true).tasks task).mappedPageHead = 0 := head
  rw [empty] at loop
  cases fuel : (s.setLock (.mp task) true).rounds with
  | zero =>
    rw [fuel] at loop
    exact (throw_ok.mp loop).elim
  | succ rounds =>
    rw [fuel, forkCowMappingLoop, if_pos rfl] at loop
    obtain ⟨_, rfl⟩ := pure_ok.mp loop
    rfl

theorem kfork_empty_ok {r : Nat} (used : s.taskUsed task = true) (head : headOf s task = 0)
    (h : (kfork task).run s = .ok (r, s')) :
    (∃ c, c ≠ 0 ∧ s.taskUsed c = false) ∧ copyAreas [] (s.tasks task).vmAreas ≠ none := by
  simp only [kfork, bind_ok] at h
  obtain ⟨c, _, alloc, _, _, create, _, _, cow, _, _, copy, _⟩ := h
  obtain ⟨rest, _, real, fresh, rfl⟩ := alloc_task_ok alloc
  refine ⟨⟨c, real, fresh⟩, ?_⟩
  have other : c ≠ task := by
    rintro rfl
    rw [used] at fresh
    cases fresh
  obtain ⟨made, areas, fresh_areas⟩ := created_empty other create
  have mapped := fork_cow_empty (made.trans head) cow
  rw [← areas, ← mapped, ← fresh_areas, ← mapped]
  simp only [forkCopyingVmePages, bind_ok, get_ok] at copy
  obtain ⟨_, _, ⟨rfl, rfl⟩, copy⟩ := copy
  split at copy
  · rename_i nothing
    rw [nothing]
    exact Option.some_ne_none _
  · simp only [bind_ok, spin_lock_ok] at copy
    obtain ⟨_, _, ⟨_, rfl⟩, _, _, loop, _⟩ := copy
    have some_areas := copy_loop_some loop
    exact some_areas

end Leak

end Uproc
