import JyyOs.Uproc.Effects

/-!
Which spinlocks the calls of the process module hold when they return, and which of them lock
a lock they already hold.
-/
namespace Uproc

open Hoare

variable {α β : Type} {L L' M : LockId → Bool}

/-- From the locks `L` every return leaves the locks `L'`, and no held lock is locked. -/
def Turns (L L' : LockId → Bool) (x : Kern α) : Prop :=
  Spec (fun s => s.locks = L) x (fun _ s => s.locks = L') (· ≠ .deadlock)

section Rules

theorem turns_pure (a : α) : Turns L L (pure a) :=
  spec_pure a fun _ h => h

theorem turns_throw {e : Stop} (h : e ≠ .deadlock) : Turns L L' (throw e : Kern α) :=
  spec_throw e h

theorem turns_bind {x : Kern α} {f : α → Kern β} (first : Turns L M x)
    (rest : ∀ a, Turns M L' (f a)) : Turns L L' (x >>= f) :=
  spec_bind first rest

theorem turns_get {f : Kernel → Kern β} (rest : ∀ s, s.locks = L → Turns L L' (f s)) :
    Turns L L' (get >>= f) := by
  refine spec_bind spec_get fun s => ?_
  intro s' ⟨same, locks⟩
  subst same
  exact rest s' locks s' locks

theorem turns_set {t : Kernel} (locks : t.locks = L') : Turns L L' (set t : Kern PUnit) := by
  intro s _
  refine ⟨fun _ s' h => ?_, fun e h => nomatch h⟩
  rw [set_ok.mp h]
  exact locks

theorem turns_modify {f : Kernel → Kernel} (locks : ∀ s, (f s).locks = s.locks) :
    Turns L L (modify f : Kern PUnit) :=
  spec_modify f fun s h => (locks s).trans h

theorem turns_ite {c : Prop} [Decidable c] {x y : Kern α} (yes : Turns L L' x)
    (no : Turns L L' y) : Turns L L' (if c then x else y) :=
  spec_ite (fun _ => yes) fun _ => no

theorem turns_stop_unless {c : Prop} [Decidable c] {e : Stop} (h : e ≠ .deadlock) :
    Turns L L (stopUnless c e) :=
  turns_ite (turns_pure _) (turns_throw h)

theorem turns_run_if {c : Prop} [Decidable c] {x : Kern Unit} (h : Turns L L x) :
    Turns L L (runIf c x) :=
  turns_ite h (turns_pure _)

theorem turns_lock {l : LockId} (free : L l = false) :
    Turns L (Function.update L l true) (spinLock l) := by
  refine turns_get fun s locks => ?_
  have runs : s.locks l = false := by rw [locks]; exact free
  rw [stopUnless, if_pos runs]
  refine turns_bind (turns_pure _) fun _ => turns_set ?_
  simp [Kernel.setLock, locks]

theorem turns_unlock {l : LockId} : Turns L (Function.update L l false) (spinUnlock l) := by
  refine turns_get fun s locks => ?_
  refine turns_bind (turns_stop_unless (by decide)) fun _ => turns_set ?_
  simp [Kernel.setLock, locks]

theorem relock {l : LockId} (free : L l = false) :
    Function.update (Function.update L l true) l false = L := by
  rw [Function.update_idem, ← free, Function.update_eq_self]

theorem turns_section {l : LockId} {x : Kern α} {f : Kern β} (free : L l = false)
    (body : Turns (Function.update L l true) (Function.update L l true) x)
    (rest : Turns L L' f) :
    Turns L L' (do spinLock l; let _ ← x; spinUnlock l; f) := by
  refine turns_bind (turns_lock free) fun _ => turns_bind body fun _ => ?_
  refine turns_bind turns_unlock fun _ => ?_
  rw [relock free]
  exact rest

end Rules

section Primitives

theorem turns_choose : Turns L L choose := by
  refine turns_get fun s locks => ?_
  split
  · exact turns_throw (by decide)
  · exact turns_bind (turns_set locks) fun _ => turns_pure _

theorem turns_get_task {t : Nat} : Turns L L (getTask t) :=
  turns_get fun _ _ => turns_pure _

theorem turns_alloc_page : Turns L L allocPage := by
  refine turns_bind turns_choose fun pa => turns_get fun s locks => ?_
  refine turns_ite (turns_pure _) (turns_bind (turns_stop_unless (by decide)) fun _ => ?_)
  exact turns_bind (turns_set locks) fun _ => turns_pure _

theorem turns_alloc_node : Turns L L allocNode := by
  refine turns_bind turns_choose fun pa => turns_get fun s locks => ?_
  refine turns_bind (turns_stop_unless (by decide)) fun _ => ?_
  refine turns_bind (turns_stop_unless (by decide)) fun _ => ?_
  exact turns_bind (turns_set locks) fun _ => turns_pure _

theorem turns_alloc_task : Turns L L allocTask := by
  refine turns_bind turns_choose fun pa => turns_get fun s locks => ?_
  refine turns_bind (turns_stop_unless (by decide)) fun _ => ?_
  refine turns_bind (turns_stop_unless (by decide)) fun _ => ?_
  exact turns_bind (turns_set locks) fun _ => turns_pure _

theorem turns_free_page {pa : Nat} : Turns L L (freePage pa) :=
  turns_get fun _ locks => turns_set locks

theorem turns_free_node {p : Nat} : Turns L L (freeNode p) :=
  turns_get fun _ locks => turns_set locks

theorem turns_map {t va pa prot : Nat} : Turns L L (map t va pa prot) := by
  refine turns_bind (turns_stop_unless (by decide)) fun _ => ?_
  refine turns_bind (turns_stop_unless (by decide)) fun _ => turns_get fun s locks => ?_
  refine turns_ite ?_ ?_
  · exact turns_bind (turns_stop_unless (by decide)) fun _ => turns_set locks
  · exact turns_bind (turns_stop_unless (by decide)) fun _ => turns_set locks

theorem turns_get_cow_cnt {pa : Nat} (free : L .cow = false) : Turns L L (getCowCnt pa) := by
  refine turns_bind (turns_lock free) fun _ => turns_get fun s _ => ?_
  refine turns_bind turns_unlock fun _ => ?_
  rw [relock free]
  exact turns_pure _

theorem turns_inc_cow_cnt {pa : Nat} (free : L .cow = false) : Turns L L (incCowCnt pa) := by
  refine turns_bind (turns_lock free) fun _ => ?_
  refine turns_bind (turns_modify fun _ => rfl) fun _ => ?_
  have := turns_unlock (L := Function.update L .cow true) (l := .cow)
  rwa [relock free] at this

theorem turns_dec_cow_cnt {pa : Nat} (free : L .cow = false) : Turns L L (decCowCnt pa) := by
  refine turns_bind (turns_lock free) fun _ => ?_
  refine turns_bind (turns_modify fun _ => rfl) fun _ => ?_
  have := turns_unlock (L := Function.update L .cow true) (l := .cow)
  rwa [relock free] at this

end Primitives

section MappedPages

theorem turns_new_mapped_page {va pa : Nat} : Turns L L (newMappedPage va pa) := by
  refine turns_bind turns_alloc_node fun _ => ?_
  exact turns_bind (turns_modify fun _ => rfl) fun _ => turns_pure _

theorem turns_insert_map_page {task pg : Nat} : Turns L L (insertMapPage task pg) :=
  turns_modify fun _ => rfl

theorem turns_unlink_map_page {task prev next : Nat} : Turns L L (unlinkMapPage task prev next) :=
  turns_modify fun s => by
    dsimp only
    split <;> rfl

theorem turns_delete_map_page_loop {task va fuel prev cur : Nat} :
    Turns L L (deleteMapPageLoop task va fuel prev cur) := by
  induction fuel generalizing prev cur with
  | zero => exact turns_throw (by decide)
  | succ fuel ih =>
    refine turns_ite (turns_throw (by decide)) (turns_get fun s _ => turns_ite ?_ ih)
    exact turns_bind turns_unlink_map_page fun _ => turns_free_node

theorem turns_find_mapped_page_loop {va fuel cur : Nat} :
    Turns L L (findMappedPageLoop va fuel cur) := by
  induction fuel generalizing cur with
  | zero => exact turns_throw (by decide)
  | succ fuel ih =>
    exact turns_ite (turns_pure _) (turns_get fun s _ => turns_ite (turns_pure _) ih)

theorem turns_find_mapped_page {task va : Nat} : Turns L L (findMappedPage task va) :=
  turns_get fun _ _ => turns_find_mapped_page_loop

theorem turns_pgmap {task va pa prot : Nat} {cowCnt : Bool} (free : L .cow = false) :
    Turns L L (pgmap task va pa prot cowCnt) := by
  refine turns_bind turns_new_mapped_page fun _ => ?_
  refine turns_bind (turns_run_if (turns_inc_cow_cnt free)) fun _ => ?_
  exact turns_bind turns_insert_map_page fun _ => turns_map

theorem turns_pgunmap {task va : Nat} : Turns L L (pgunmap task va) :=
  turns_bind (turns_get fun _ _ => turns_delete_map_page_loop) fun _ => turns_map

theorem turns_delete_mapping_loop {task endAddr fuel cur : Nat} :
    Turns L L (deleteMappingLoop task endAddr fuel cur) := by
  induction fuel generalizing cur with
  | zero => exact turns_throw (by decide)
  | succ fuel ih =>
    refine turns_ite (turns_bind turns_find_mapped_page fun _ => ?_) (turns_pure _)
    exact turns_bind (turns_run_if turns_pgunmap) fun _ => ih

theorem turns_copy_page {pa : Nat} {bytes : Nat → Nat} : Turns L L (copyPage pa bytes) :=
  turns_bind (turns_stop_unless (by decide)) fun _ => turns_modify fun _ => rfl

theorem turns_destroy_mapped_pages_loop {fuel cur : Nat} (free : L .cow = false) :
    Turns L L (destroyMappedPagesLoop fuel cur) := by
  induction fuel generalizing cur with
  | zero => exact turns_throw (by decide)
  | succ fuel ih =>
    refine turns_ite (turns_pure _) (turns_get fun s _ => ?_)
    refine turns_bind (turns_dec_cow_cnt free) fun _ => ?_
    refine turns_bind (turns_get_cow_cnt free) fun _ => ?_
    refine turns_bind (turns_run_if turns_free_page) fun _ => ?_
    exact turns_bind (turns_free_node) fun _ => ih

end MappedPages

section Areas

theorem turns_new_area {task addr : Nat} {length prot flags : Int} :
    Turns L L (newArea task addr length prot flags) := by
  refine turns_bind turns_get_task fun t => ?_
  split
  · exact turns_throw (by decide)
  · exact turns_pure _

theorem turns_insert_area {task : Nat} {node : VmArea} : Turns L L (insertArea task node) := by
  refine turns_get fun s locks => ?_
  dsimp only
  split
  · exact turns_pure _
  · exact turns_bind (turns_set locks) fun _ => turns_pure _

theorem turns_kmunmap {task addr : Nat} {length prot : Int} (vme : L (.vme task) = false)
    (mp : L (.mp task) = false) : Turns L L (kmunmap task addr length prot) := by
  refine turns_bind (turns_stop_unless (by decide)) fun _ => ?_
  refine turns_bind (turns_lock vme) fun _ => turns_bind turns_get_task fun t => ?_
  refine turns_bind turns_unlock fun _ => ?_
  rw [relock vme]
  refine turns_ite ?_ (turns_pure _)
  exact turns_section mp (turns_get fun _ _ => turns_delete_mapping_loop) (turns_pure _)

theorem turns_kmmap {task addr : Nat} {length prot flags : Int} (vme : L (.vme task) = false)
    (mp : L (.mp task) = false) : Turns L L (kmmap task addr length prot flags) := by
  refine turns_bind (turns_stop_unless (by decide)) fun _ => ?_
  refine turns_bind (turns_stop_unless (by decide)) fun _ => ?_
  refine turns_ite (turns_kmunmap vme mp) ?_
  refine turns_bind turns_new_area fun node => turns_bind (turns_lock vme) fun _ => ?_
  refine turns_bind turns_insert_area fun _ => ?_
  refine turns_bind (turns_stop_unless (by decide)) fun _ => ?_
  refine turns_bind turns_unlock fun _ => ?_
  rw [relock vme]
  exact turns_pure _

theorem turns_fork_copying_loop {newTask : Nat} {areas : List VmArea} :
    Turns L L (forkCopyingVmePagesLoop newTask areas) := by
  induction areas with
  | nil => exact turns_pure _
  | cons cur next ih =>
    refine turns_bind turns_new_area fun _ => ?_
    exact turns_bind turns_insert_area fun _ => ih

theorem turns_fork_copying_vme_pages {task newTask : Nat} (vme : L (.vme task) = false) :
    Turns L L (forkCopyingVmePages task newTask) := by
  refine turns_get fun s locks => turns_ite (turns_set locks) ?_
  refine turns_bind (turns_lock vme) fun _ => ?_
  refine turns_bind turns_fork_copying_loop fun _ => ?_
  have := turns_unlock (L := Function.update L (.vme task) true) (l := .vme task)
  rwa [relock vme] at this

end Areas

end Uproc
