import JyyOs.Uproc.Areas

/-!
What a returning page_fault, kmmap, kfork and destroy_mapped_pages did to the memory of the
processes, as relations that the invariants of the module are proved along.
-/
namespace Uproc

open Hoare LinkedList

structure SameMemory (s s' : Kernel) : Prop where
  nodes : s'.nodes = s.nodes
  nodeUsed : s'.nodeUsed = s.nodeUsed
  frameUsed : s'.frameUsed = s.frameUsed
  phys : s'.phys = s.phys
  cowTable : s'.cowTable = s.cowTable
  live : s'.live = s.live
  taskUsed : s'.taskUsed = s.taskUsed
  freed : s'.freed = s.freed
  choices : s'.choices = s.choices
  areas : ∀ t, (s'.tasks t).vmAreas = (s.tasks t).vmAreas
  heads : ∀ t, headOf s' t = headOf s t
  tables : ∀ t, (s'.tasks t).table = (s.tasks t).table

theorem SameMemory.refl (s : Kernel) : SameMemory s s :=
  ⟨rfl, rfl, rfl, rfl, rfl, rfl, rfl, rfl, rfl, fun _ => rfl, fun _ => rfl, fun _ => rfl⟩

theorem SameMemory.trans {a b c : Kernel} (h : SameMemory a b) (h' : SameMemory b c) :
    SameMemory a c :=
  ⟨h'.nodes.trans h.nodes, h'.nodeUsed.trans h.nodeUsed, h'.frameUsed.trans h.frameUsed,
    h'.phys.trans h.phys, h'.cowTable.trans h.cowTable, h'.live.trans h.live,
    h'.taskUsed.trans h.taskUsed, h'.freed.trans h.freed, h'.choices.trans h.choices,
    fun t => (h'.areas t).trans (h.areas t), fun t => (h'.heads t).trans (h.heads t),
    fun t => (h'.tables t).trans (h.tables t)⟩

theorem same_set_lock (s : Kernel) (l : LockId) (held : Bool) :
    SameMemory s (s.setLock l held) :=
  ⟨rfl, rfl, rfl, rfl, rfl, rfl, rfl, rfl, rfl, fun _ => rfl, fun _ => rfl, fun _ => rfl⟩

theorem same_set_task (s : Kernel) (t : Nat) (task : Task)
    (areas : task.vmAreas = (s.tasks t).vmAreas) (head : task.mappedPageHead = headOf s t)
    (table : task.table = (s.tasks t).table) : SameMemory s (s.setTask t task) := by
  have tasks : ∀ t', t' ≠ t → (s.setTask t task).tasks t' = s.tasks t' :=
    fun t' ne => Function.update_of_ne ne ..
  refine ⟨rfl, rfl, rfl, rfl, rfl, rfl, rfl, rfl, rfl, fun t' => ?_, fun t' => ?_, fun t' => ?_⟩ <;>
    by_cases here : t' = t
  · subst here
    simpa [Kernel.setTask] using areas
  · rw [tasks t' here]
  · subst here
    simpa [Kernel.setTask, headOf] using head
  · rw [headOf, tasks t' here, headOf]
  · subst here
    simpa [Kernel.setTask] using table
  · rw [tasks t' here]

theorem SameMemory.owned {s s' : Kernel} {lists : Nat → List Nat} (same : SameMemory s s')
    (owned : Owned s lists) : Owned s' lists :=
  owned.congr same.nodes same.nodeUsed same.live same.taskUsed same.heads same.tables

theorem SameMemory.entry {a b : Kernel} (h : SameMemory a b) (t va : Nat) :
    (b.tasks t).entry va = (a.tasks t).entry va := by
  rw [Task.entry, h.tables t, Task.entry]

theorem SameMemory.vaOf {a b : Kernel} (h : SameMemory a b) : vaOf b = vaOf a := by
  funext p
  simp only [Uproc.vaOf, h.nodes]

theorem SameMemory.paOf {a b : Kernel} (h : SameMemory a b) : paOf b = paOf a := by
  funext p
  simp only [Uproc.paOf, h.nodes]

theorem SameMemory.mapped {a b : Kernel} (h : SameMemory a b) (t va pa prot node : Nat)
    (cowCnt : Bool) (rest : List Nat) :
    SameMemory (a.mapped t va pa prot node cowCnt rest)
      (b.mapped t va pa prot node cowCnt rest) := by
  refine ⟨?_, ?_, h.frameUsed, h.phys, ?_, h.live, h.taskUsed, h.freed, rfl, fun t' => ?_,
    fun t' => ?_, fun t' => ?_⟩
  · simp only [Kernel.mapped, h.nodes, h.heads]
  · simp only [Kernel.mapped, h.nodeUsed]
  · simp only [Kernel.mapped, h.cowTable]
  · rw [areas_mapped, areas_mapped, h.areas]
  · by_cases here : t' = t
    · subst here
      rw [headOf, task_mapped_here, headOf, task_mapped_here]
      rfl
    · rw [headOf, task_mapped_other here, headOf, task_mapped_other here]
      exact h.heads t'
  · by_cases here : t' = t
    · subst here
      rw [task_mapped_here, task_mapped_here]
      simp only [Task.setEntry, h.tables]
    · rw [task_mapped_other here, task_mapped_other here, h.tables]

theorem SameMemory.unmapped {a b : Kernel} (h : SameMemory a b) (t va prev q : Nat) :
    SameMemory (a.unmapped t va prev q) (b.unmapped t va prev q) := by
  have links : nextOf b = nextOf a := by
    funext p
    simp only [nextOf, h.nodes]
  refine ⟨?_, ?_, h.frameUsed, h.phys, h.cowTable, h.live, h.taskUsed, h.freed, h.choices,
    fun t' => ?_, fun t' => ?_, fun t' => ?_⟩
  · simp only [Kernel.unmapped, h.nodes, links]
  · simp only [Kernel.unmapped, h.nodeUsed]
  · rw [areas_unmapped, areas_unmapped, h.areas]
  · by_cases here : t' = t
    · subst here
      have head := h.heads t'
      simp only [headOf, task_unmapped_here, Task.setEntry, links] at head ⊢
      rw [head]
    · rw [headOf, task_unmapped_other here, headOf, task_unmapped_other here]
      exact h.heads t'
  · by_cases here : t' = t
    · subst here
      rw [task_unmapped_here, task_unmapped_here]
      simp only [Task.setEntry, h.tables]
    · rw [task_unmapped_other here, task_unmapped_other here, h.tables]

def Kernel.withAreas (s : Kernel) (t : Nat) (areas : List VmArea) : Kernel :=
  s.setTask t { s.tasks t with vmAreas := areas }

theorem SameMemory.withAreas {a b : Kernel} (h : SameMemory a b) (t : Nat)
    (areas : List VmArea) : SameMemory (a.withAreas t areas) (b.withAreas t areas) := by
  refine ⟨h.nodes, h.nodeUsed, h.frameUsed, h.phys, h.cowTable, h.live, h.taskUsed, h.freed,
    h.choices, fun t' => ?_, fun t' => ?_, fun t' => ?_⟩ <;> by_cases here : t' = t
  · subst here
    simp [Kernel.withAreas]
  · simpa [Kernel.withAreas, Function.update_of_ne here] using h.areas t'
  · subst here
    simpa [Kernel.withAreas, headOf] using h.heads t'
  · simpa [Kernel.withAreas, headOf, Function.update_of_ne here] using h.heads t'
  · subst here
    simpa [Kernel.withAreas] using h.tables t'
  · simpa [Kernel.withAreas, Function.update_of_ne here] using h.tables t'

theorem Owned.withAreas {s : Kernel} {lists : Nat → List Nat} (owned : Owned s lists) (t : Nat)
    (areas : List VmArea) : Owned (s.withAreas t areas) lists := by
  refine owned.congr rfl rfl rfl rfl (fun t' => ?_) fun t' => ?_ <;> by_cases here : t' = t
  · subst here
    simp [Kernel.withAreas, headOf]
  · simp [Kernel.withAreas, headOf, Function.update_of_ne here]
  · subst here
    simp [Kernel.withAreas]
  · simp [Kernel.withAreas, Function.update_of_ne here]

def Kernel.written (s : Kernel) (pa : Nat) (bytes : Nat → Nat) : Kernel :=
  { s with phys := Function.update s.phys pa bytes }

def Kernel.fresh (s : Kernel) (pa : Nat) (rest : List Nat) (bytes : Nat → Nat) : Kernel :=
  (s.pageTaken pa rest).written pa bytes

def Kernel.dropped (s : Kernel) (pa : Nat) : Kernel :=
  let cnt := s.cowTable (cowIndex pa) - 1
  { s with
    cowTable := Function.update s.cowTable (cowIndex pa) cnt
    frameUsed := if cnt = 0 then Function.update s.frameUsed pa false else s.frameUsed
    freed := if cnt = 0 then pa :: s.freed else s.freed }

theorem SameMemory.dropped {a b : Kernel} (h : SameMemory a b) (pa : Nat) :
    SameMemory (a.dropped pa) (b.dropped pa) := by
  refine ⟨h.nodes, h.nodeUsed, ?_, h.phys, ?_, h.live, h.taskUsed, ?_, h.choices, h.areas,
    h.heads, h.tables⟩
  · simp only [Kernel.dropped, h.frameUsed, h.cowTable]
  · simp only [Kernel.dropped, h.cowTable]
  · simp only [Kernel.dropped, h.freed, h.cowTable]

section Areas

theorem new_area_ok {s s' : Kernel} {t addr : Nat} {length prot flags : Int} {node : VmArea}
    (h : (newArea t addr length prot flags).run s = .ok (node, s')) :
    newVmeNode (s.tasks t).vmAreas addr length prot flags = some node ∧ s = s' := by
  simp only [newArea, bind_ok, get_task_ok] at h
  obtain ⟨_, _, ⟨rfl, rfl⟩, h⟩ := h
  split at h
  · exact (throw_ok.mp h).elim
  · rename_i found
    obtain ⟨rfl, rfl⟩ := pure_ok.mp h
    exact ⟨found, rfl⟩

theorem insert_area_ok {s s' : Kernel} {t : Nat} {node : VmArea} {success : Bool}
    (h : (insertArea t node).run s = .ok (success, s')) :
    (insertVmeNode (s.tasks t).vmAreas node = none ∧ success = false ∧ s = s') ∨
      ∃ areas, insertVmeNode (s.tasks t).vmAreas node = some areas ∧ success = true ∧
        s' = s.withAreas t areas := by
  simp only [insertArea, bind_ok, get_ok] at h
  obtain ⟨_, _, ⟨rfl, rfl⟩, h⟩ := h
  split at h
  · rename_i overlaps
    obtain ⟨rfl, rfl⟩ := pure_ok.mp h
    exact .inl ⟨overlaps, rfl, rfl⟩
  · rename_i areas inserted
    simp only [bind_ok, set_ok, pure_ok] at h
    obtain ⟨_, _, rfl, rfl, rfl⟩ := h
    exact .inr ⟨areas, inserted, rfl, rfl⟩

end Areas

section Find

theorem find_mapped_page_loop_ok {s s' : Kernel} {va fuel cur p : Nat} {list : List Nat}
    (linked : Linked (nextOf s) 0 cur list)
    (h : (findMappedPageLoop va fuel cur).run s = .ok (p, s')) :
    s = s' ∧ ((p = 0 ∧ va ∉ list.map (vaOf s)) ∨ (p ∈ list ∧ vaOf s p = va)) := by
  induction fuel generalizing cur list with
  | zero => exact (throw_ok.mp h).elim
  | succ fuel ih =>
    rw [findMappedPageLoop] at h
    by_cases ended : cur = 0
    · rw [if_pos ended] at h
      obtain ⟨rfl, rfl⟩ := pure_ok.mp h
      cases list with
      | nil => exact ⟨rfl, .inl ⟨rfl, by simp⟩⟩
      | cons x rest => exact absurd (linked.1.symm.trans ended) linked.2.1
    · rw [if_neg ended] at h
      obtain ⟨rest, rfl, later⟩ := linked_head linked ended
      simp only [bind_ok, get_ok] at h
      obtain ⟨_, _, ⟨rfl, rfl⟩, h⟩ := h
      split at h
      · rename_i here
        obtain ⟨rfl, rfl⟩ := pure_ok.mp h
        exact ⟨rfl, .inr ⟨List.mem_cons_self, here⟩⟩
      · rename_i elsewhere
        obtain ⟨rfl, found⟩ := ih later h
        refine ⟨rfl, found.imp (fun ⟨null, new⟩ => ⟨null, ?_⟩)
          fun ⟨mem, here⟩ => ⟨List.mem_cons_of_mem _ mem, here⟩⟩
        rw [List.map_cons, List.mem_cons]
        exact fun same => same.elim (fun same => elsewhere same.symm) new

theorem find_mapped_page_ok {s s' : Kernel} {t va p : Nat} {list : List Nat}
    (linked : Linked (nextOf s) 0 (headOf s t) list)
    (h : (findMappedPage t va).run s = .ok (p, s')) :
    s = s' ∧ ((p = 0 ∧ va ∉ list.map (vaOf s)) ∨ (p ∈ list ∧ vaOf s p = va)) := by
  simp only [findMappedPage, bind_ok, get_ok] at h
  obtain ⟨_, _, ⟨rfl, rfl⟩, h⟩ := h
  exact find_mapped_page_loop_ok linked h

end Find

section Unmaps

inductive Unmaps (t lo hi : Nat) : Kernel → (Nat → List Nat) → Kernel → (Nat → List Nat) → Prop
  | done (s : Kernel) (lists : Nat → List Nat) : Unmaps t lo hi s lists s lists
  | page {s s' : Kernel} {lists lists' : Nat → List Nat} {left right : List Nat} {q : Nat}
      (split : lists t = left ++ q :: right) (inside : lo ≤ vaOf s q ∧ vaOf s q < hi)
      (later : Unmaps t lo hi (s.unmapped t (vaOf s q) (left.getLastD 0) q)
        (Function.update lists t (left ++ right)) s' lists') : Unmaps t lo hi s lists s' lists'

theorem delete_mapping_loop_ok {s s' : Kernel} {u : Unit} {t lo hi fuel cur : Nat}
    {lists : Nat → List Nat} (owned : Owned s lists) (live : t ∈ s.live) (lower : lo ≤ cur)
    (h : (deleteMappingLoop t hi fuel cur).run s = .ok (u, s')) :
    ∃ lists', Unmaps t lo hi s lists s' lists' := by
  induction fuel generalizing s cur lists with
  | zero => exact (throw_ok.mp h).elim
  | succ fuel ih =>
    rw [deleteMappingLoop] at h
    split at h
    · rename_i upper
      simp only [bind_ok] at h
      obtain ⟨pg, _, find, _, _, unmap, h⟩ := h
      obtain ⟨rfl, found⟩ := find_mapped_page_ok (owned.holds t live).linked find
      rcases run_if_ok.mp unmap with ⟨real, unmap⟩ | ⟨_, rfl⟩
      · obtain ⟨left, q, right, split, here, rfl⟩ :=
          pgunmap_ok unmap (owned.holds t live).linked
        subst here
        obtain ⟨lists', later⟩ := ih (owned.unmapped live split) live (Nat.le_add_right_of_le lower) h
        exact ⟨lists', .page split ⟨lower, upper⟩ later⟩
      · exact ih owned live (Nat.le_add_right_of_le lower) h
    · obtain ⟨_, rfl⟩ := pure_ok.mp h
      exact ⟨lists, .done ..⟩

end Unmaps

section Kmmap

inductive MmapEffect (t addr : Nat) (length prot flags : Int) (s : Kernel)
    (lists : Nat → List Nat) : Kernel → (Nat → List Nat) → Prop
  | area {s' : Kernel} {node : VmArea} {areas : List VmArea} (maps : flags ≠ mapUnmap)
      (positive : 0 < length)
      (placed : newVmeNode (s.tasks t).vmAreas addr length prot flags = some node)
      (inserted : insertVmeNode (s.tasks t).vmAreas node = some areas)
      (same : SameMemory (s.withAreas t areas) s') : MmapEffect t addr length prot flags s lists s' lists
  | outside {s' : Kernel} (unmaps : flags = mapUnmap) (same : SameMemory s s') :
      MmapEffect t addr length prot flags s lists s' lists
  | pages {s₁ s₂ s' : Kernel} {lists' : Nat → List Nat} (unmaps : flags = mapUnmap)
      (before : SameMemory s s₁)
      (gone : Unmaps t (roundDown addr) (roundUp (addLength addr length)) s₁ lists s₂ lists')
      (after : SameMemory s₂ s') : MmapEffect t addr length prot flags s lists s' lists'

theorem kmmap_ok {s s' : Kernel} {r t addr : Nat} {length prot flags : Int}
    {lists : Nat → List Nat} (owned : Owned s lists) (live : t ∈ s.live)
    (h : (kmmap t addr length prot flags).run s = .ok (r, s')) :
    ∃ lists', MmapEffect t addr length prot flags s lists s' lists' := by
  simp only [kmmap, bind_ok, stop_unless_ok] at h
  obtain ⟨_, _, ⟨_, rfl⟩, _, _, ⟨positive, rfl⟩, h⟩ := h
  split at h
  · rename_i unmaps
    simp only [kmunmap, bind_ok, stop_unless_ok, spin_lock_ok, get_task_ok, spin_unlock_ok] at h
    obtain ⟨_, _, ⟨_, rfl⟩, _, _, ⟨free, rfl⟩, _, _, ⟨rfl, rfl⟩, _, _, ⟨_, rfl⟩, h⟩ := h
    rw [set_lock_back free] at h
    split at h
    · simp only [bind_ok, spin_lock_ok, deleteMapping, get_ok, spin_unlock_ok, pure_ok] at h
      obtain ⟨_, _, ⟨_, rfl⟩, _, gone, ⟨_, _, ⟨rfl, rfl⟩, walk⟩, _, _, ⟨_, rfl⟩, _, rfl⟩ := h
      obtain ⟨lists', unmapped⟩ :=
        delete_mapping_loop_ok ((same_set_lock ..).owned owned) live (Nat.le_refl _) walk
      exact ⟨lists', .pages unmaps (same_set_lock ..) unmapped (same_set_lock ..)⟩
    · obtain ⟨_, rfl⟩ := pure_ok.mp h
      exact ⟨lists, .outside unmaps (SameMemory.refl _)⟩
  · rename_i maps
    simp only [bind_ok, spin_lock_ok, stop_unless_ok, spin_unlock_ok, pure_ok] at h
    obtain ⟨node, _, place, _, _, ⟨_, rfl⟩, success, _, insert, _, _, ⟨rfl, rfl⟩, _, _,
      ⟨_, rfl⟩, _, rfl⟩ := h
    obtain ⟨placed, rfl⟩ := new_area_ok place
    rcases insert_area_ok insert with ⟨_, failed, _⟩ | ⟨areas, inserted, _, rfl⟩
    · cases failed
    · refine ⟨lists, .area maps positive placed inserted ?_⟩
      exact ⟨rfl, rfl, rfl, rfl, rfl, rfl, rfl, rfl, rfl, fun _ => rfl, fun _ => rfl, fun _ => rfl⟩

end Kmmap

section Fault

/-- page_fault: the page `pa` was allocated, then one of its four ways. -/
inductive FaultEffect (t va pa : Nat) (rest : List Nat) (s : Kernel) (lists : Nat → List Nat) :
    Kernel → (Nat → List Nat) → Prop
  | outside {s' : Kernel} (out : ¬InArea va) (same : SameMemory (s.pageTaken pa rest) s') :
      FaultEffect t va pa rest s lists s' lists
  | newArea {s' : Kernel} {bytes : Nat → Nat} {node : VmArea} {areas : List VmArea} {p : Nat}
      {rest' : List Nat} (page : UserPage va) (new : va ∉ (lists t).map (vaOf s))
      (unfound : findVmeNode (s.tasks t).vmAreas va (va + pgsize) = none)
      (placed : newVmeNode (s.tasks t).vmAreas va pgsize (protRead ||| protWrite : Nat)
        mapPrivate = some node)
      (inserted : insertVmeNode (s.tasks t).vmAreas node = some areas)
      (chosen : rest = p :: rest') (real : p ≠ 0) (fresh : s.nodeUsed p = false)
      (same : SameMemory (((s.fresh pa rest bytes).withAreas t areas).mapped t va pa
        (protRead ||| protWrite) p false rest') s') :
      FaultEffect t va pa rest s lists s' (Function.update lists t (p :: lists t))
  | newPage {s' : Kernel} {bytes : Nat → Nat} {vma : VmArea} {p : Nat} {rest' : List Nat}
      (page : UserPage va) (new : va ∉ (lists t).map (vaOf s))
      (found : findVmeNode (s.tasks t).vmAreas va (va + pgsize) = some vma)
      (chosen : rest = p :: rest') (real : p ≠ 0) (fresh : s.nodeUsed p = false)
      (same : SameMemory ((s.fresh pa rest bytes).mapped t va pa vma.vmProt p false rest') s') :
      FaultEffect t va pa rest s lists s' (Function.update lists t (p :: lists t))
  | copied {m s' : Kernel} {bytes : Nat → Nat} {vma : VmArea} {left right : List Nat}
      {q p : Nat} {rest' : List Nat} (split : lists t = left ++ q :: right)
      (here : vaOf s q = va)
      (found : findVmeNode (s.tasks t).vmAreas va (va + pgsize) = some vma)
      (chosen : rest = p :: rest') (real : p ≠ 0) (fresh : p = q ∨ s.nodeUsed p = false)
      (filled : pa ≠ 0)
      (moved : m = ((s.fresh pa rest bytes).unmapped t va (left.getLastD 0) q).mapped t va pa
        vma.vmProt p false rest')
      (same : SameMemory (m.dropped (paOf m q)) s') :
      FaultEffect t va pa rest s lists s'
        (Function.update lists t (p :: (left ++ right)))

theorem fresh_same_bytes (s : Kernel) (pa : Nat) (rest : List Nat) :
    s.fresh pa rest (s.phys pa) = s.pageTaken pa rest := by
  unfold Kernel.fresh Kernel.written Kernel.pageTaken
  split <;> simp

theorem copy_page_ok {s s' : Kernel} {u : Unit} {pa : Nat} {bytes : Nat → Nat}
    (h : (copyPage pa bytes).run s = .ok (u, s')) :
    pa ≠ 0 ∧ s' = s.written pa bytes := by
  simp only [copyPage, bind_ok, stop_unless_ok, modify_ok] at h
  obtain ⟨_, _, ⟨real, rfl⟩, rfl⟩ := h
  exact ⟨real, rfl⟩

theorem copy_init_code_ok {s s' : Kernel} {u : Unit} {va pa : Nat} {rest : List Nat}
    (h : (copyInitCode va pa).run (s.pageTaken pa rest) = .ok (u, s')) :
    ∃ bytes, s' = s.fresh pa rest bytes := by
  simp only [copyInitCode, bind_ok, get_ok] at h
  obtain ⟨_, _, ⟨rfl, rfl⟩, h⟩ := h
  split at h
  · obtain ⟨_, rfl⟩ := copy_page_ok h
    exact ⟨_, rfl⟩
  · obtain ⟨_, rfl⟩ := pure_ok.mp h
    exact ⟨_, (fresh_same_bytes s pa rest).symm⟩

theorem drop_cow_ok {s s' m m' : Kernel} {u u' : Unit} {pa : Nat} {cnt : Int}
    (dec : (decCowCnt pa).run s = .ok (u, m)) (count : (getCowCnt pa).run m = .ok (cnt, m'))
    (free : (runIf (cnt = 0) (freePage pa)).run m' = .ok (u', s')) : s' = s.dropped pa := by
  obtain rfl := dec_cow_cnt_ok dec
  obtain ⟨_, rfl, rfl⟩ := get_cow_cnt_ok.mp count
  rcases run_if_ok.mp free with ⟨last, free⟩ | ⟨more, rfl⟩
  · rw [free_page_ok free]
    simp only [set_cow_table, Function.update_self] at last
    simp [Kernel.dropped, Kernel.setCow, last]
  · simp only [set_cow_table, Function.update_self] at more
    simp [Kernel.dropped, Kernel.setCow, more]

section Branches

variable {s s' : Kernel} {u : Unit} {t va pa : Nat} {rest : List Nat} {bytes : Nat → Nat}
  {lists : Nat → List Nat}

theorem fault_new_page_ok {vma : VmArea} {list : List Nat} (holds : Holds s t list)
    (page : UserPage va) (new : va ∉ list.map (vaOf s))
    (h : (faultNewPage t va pa vma).run s = .ok (u, s')) :
    ∃ p rest', s.choices = p :: rest' ∧ p ≠ 0 ∧ s.nodeUsed p = false ∧
      SameMemory (s.mapped t va pa vma.vmProt p false rest') s' := by
  simp only [faultNewPage, bind_ok, spin_lock_ok, spin_unlock_ok] at h
  obtain ⟨_, _, ⟨_, rfl⟩, _, _, mapped, _, _, ⟨_, rfl⟩, _, rfl⟩ := h
  have absent : ((s.setLock (.mp t) true).tasks t).entry va = none := holds.absent page new
  obtain ⟨p, rest', chosen, real, fresh, _, rfl⟩ := pgmap_ok absent mapped
  refine ⟨p, rest', chosen, real, fresh, ?_⟩
  exact ((same_set_lock ..).mapped ..).trans ((same_set_lock ..).trans (same_set_lock ..))

theorem fault_new_area_ok (owned : Owned s lists) (live : t ∈ s.live)
    (page : UserPage va) (new : va ∉ (lists t).map (vaOf s))
    (h : (faultNewArea t va pa).run s = .ok (u, s')) :
    ∃ node areas p rest', newVmeNode (s.tasks t).vmAreas va pgsize
        (protRead ||| protWrite : Nat) mapPrivate = some node ∧
      insertVmeNode (s.tasks t).vmAreas node = some areas ∧ s.choices = p :: rest' ∧ p ≠ 0 ∧
      s.nodeUsed p = false ∧ SameMemory ((s.withAreas t areas).mapped t va pa
        (protRead ||| protWrite) p false rest') s' := by
  simp only [faultNewArea, bind_ok, spin_lock_ok, spin_unlock_ok] at h
  obtain ⟨_, _, ⟨_, rfl⟩, _, mid, mmap, _, _, ⟨_, rfl⟩, _, _, mapped, _, rfl⟩ := h
  have unlocked : SameMemory s (s.setLock (.vme t) false) := same_set_lock ..
  obtain ⟨lists', effect⟩ := kmmap_ok (unlocked.owned owned) live mmap
  cases effect with
  | outside unmaps _ => cases unmaps
  | pages unmaps _ _ _ => cases unmaps
  | @area _ node areas _ _ placed inserted same =>
    have before : SameMemory (s.withAreas t areas) (mid.setLock (.mp t) true) :=
      (same_set_lock (s.withAreas t areas) (.vme t) false).trans
        (same.trans (same_set_lock ..))
    have holds := (owned.withAreas t areas).holds t live
    have absent : ((mid.setLock (.mp t) true).tasks t).entry va = none := by
      rw [before.entry]
      exact holds.absent page new
    obtain ⟨p, rest', chosen, real, fresh, _, rfl⟩ := pgmap_ok absent mapped
    rw [before.choices] at chosen
    rw [before.nodeUsed] at fresh
    exact ⟨node, areas, p, rest', placed, inserted, chosen, real, fresh,
      (before.mapped ..).trans (same_set_lock ..)⟩

theorem fault_copy_ok {vma : Option VmArea} {list : List Nat} {thePage : Nat}
    (holds : Holds s t list) (mem : thePage ∈ list) (here : vaOf s thePage = va)
    (h : (faultCopy t va pa thePage vma).run s = .ok (u, s')) :
    ∃ m area left right p rest', vma = some area ∧ list = left ++ thePage :: right ∧
      s.choices = p :: rest' ∧ p ≠ 0 ∧ (p = thePage ∨ s.nodeUsed p = false) ∧ pa ≠ 0 ∧
      m = ((s.written pa (s.phys (paOf s thePage))).unmapped t va (left.getLastD 0)
        thePage).mapped t va pa area.vmProt p false rest' ∧
      SameMemory (m.dropped (paOf m thePage)) s' := by
  simp only [faultCopy, bind_ok, spin_lock_ok, get_ok, stop_unless_ok] at h
  obtain ⟨_, _, ⟨_, rfl⟩, _, _, ⟨rfl, rfl⟩, _, _, ⟨_, rfl⟩, _, _, copy, _, mid, unmap, h⟩ := h
  obtain ⟨filled, rfl⟩ := copy_page_ok copy
  obtain ⟨left, q, right, rfl, at_va, rfl⟩ := pgunmap_ok unmap holds.linked
  obtain rfl : q = thePage := holds.unique (by simp) mem (at_va.trans here.symm)
  cases vma with
  | none => exact (throw_ok.mp h).elim
  | some area =>
    simp only [bind_ok, spin_unlock_ok, get_ok] at h
    obtain ⟨_, mapped, map, _, _, ⟨_, rfl⟩, _, _, ⟨rfl, rfl⟩, _, _, dec, _, _, count, _, _,
      free, _, rfl⟩ := h
    obtain rfl := drop_cow_ok dec count free
    obtain ⟨p, rest', chosen, real, fresh, _, rfl⟩ := pgmap_ok entry_unmapped_here map
    refine ⟨_, area, left, right, p, rest', rfl, rfl, chosen, real, ?_, filled, rfl, ?_⟩
    · by_cases reused : p = q
      · exact .inl reused
      · exact .inr ((Function.update_of_ne reused ..).symm.trans fresh)
    · refine SameMemory.trans ?_ (same_set_lock (Kernel.dropped _ _) _ _)
      refine SameMemory.dropped ?_ _
      exact ⟨rfl, rfl, rfl, rfl, rfl, rfl, rfl, rfl, rfl, fun _ => rfl, fun _ => rfl,
        fun _ => rfl⟩

end Branches

section Frame

variable (s : Kernel) (pa : Nat) (rest : List Nat) (bytes : Nat → Nat)

@[simp] theorem tasks_taken : (s.pageTaken pa rest).tasks = s.tasks := by
  unfold Kernel.pageTaken
  split <;> rfl

@[simp] theorem nodes_taken : (s.pageTaken pa rest).nodes = s.nodes := by
  unfold Kernel.pageTaken
  split <;> rfl

@[simp] theorem node_used_taken : (s.pageTaken pa rest).nodeUsed = s.nodeUsed := by
  unfold Kernel.pageTaken
  split <;> rfl

@[simp] theorem live_taken : (s.pageTaken pa rest).live = s.live := by
  unfold Kernel.pageTaken
  split <;> rfl

@[simp] theorem task_used_taken : (s.pageTaken pa rest).taskUsed = s.taskUsed := by
  unfold Kernel.pageTaken
  split <;> rfl

@[simp] theorem choices_taken : (s.pageTaken pa rest).choices = rest := by
  unfold Kernel.pageTaken
  split <;> rfl

@[simp] theorem cow_taken : (s.pageTaken pa rest).cowTable = s.cowTable := by
  unfold Kernel.pageTaken
  split <;> rfl

@[simp] theorem phys_taken : (s.pageTaken pa rest).phys = s.phys := by
  unfold Kernel.pageTaken
  split <;> rfl

@[simp] theorem freed_taken : (s.pageTaken pa rest).freed = s.freed := by
  unfold Kernel.pageTaken
  split <;> rfl

theorem Holds.taken {s : Kernel} {t : Nat} {list : List Nat} (holds : Holds s t list) (pa : Nat)
    (rest : List Nat) : Holds (s.pageTaken pa rest) t list :=
  holds.congr (fun p _ => by simp) (fun p _ => by simp) (by simp [headOf]) (by simp)

theorem Owned.taken {s : Kernel} {lists : Nat → List Nat} (owned : Owned s lists) (pa : Nat)
    (rest : List Nat) : Owned (s.pageTaken pa rest) lists :=
  owned.congr (by simp) (by simp) (by simp) (by simp) (fun t => by simp [headOf])
    fun t => by simp

theorem Owned.fresh {s : Kernel} {lists : Nat → List Nat} (owned : Owned s lists) (pa : Nat)
    (rest : List Nat) (bytes : Nat → Nat) : Owned (s.fresh pa rest bytes) lists :=
  (owned.taken pa rest).congr rfl rfl rfl rfl (fun _ => rfl) fun _ => rfl

end Frame

theorem page_fault_ok {s s' : Kernel} {u : Unit} {ref : Nat} {lists : Nat → List Nat}
    (owned : Owned s lists) (live : s.currentTask ∈ s.live)
    (h : (pageFault ref).run s = .ok (u, s')) :
    ∃ pa rest lists', s.choices = pa :: rest ∧
      (pa ≠ 0 → s.frameUsed pa = false ∧ pa % pgsize = 0) ∧
      FaultEffect s.currentTask (roundDown ref) pa rest s lists s' lists' := by
  simp only [pageFault, bind_ok, get_ok] at h
  obtain ⟨_, _, ⟨rfl, rfl⟩, pa, _, alloc, h⟩ := h
  obtain ⟨rest, chosen, rfl, page_fresh⟩ := alloc_page_ok alloc
  refine ⟨pa, rest, ?_⟩
  split at h
  · rename_i area
    have page : UserPage (roundDown ref) := ⟨area, by simp only [roundDown, pgsize]; omega⟩
    simp only [bind_ok, spin_lock_ok, get_task_ok, page_end page] at h
    obtain ⟨_, _, init, _, _, ⟨_, rfl⟩, thePage, _, find, _, _, ⟨rfl, rfl⟩, h⟩ := h
    obtain ⟨bytes, rfl⟩ := copy_init_code_ok init
    have locked := same_set_lock (s.fresh pa rest bytes) (.vme s.currentTask) true
    have tasks : (s.fresh pa rest bytes).tasks = s.tasks := tasks_taken ..
    have nodes : (s.fresh pa rest bytes).nodes = s.nodes := nodes_taken ..
    have used : (s.fresh pa rest bytes).nodeUsed = s.nodeUsed := node_used_taken ..
    have left_over : (s.fresh pa rest bytes).choices = rest := choices_taken ..
    have vas : vaOf (s.fresh pa rest bytes) = vaOf s := by
      funext p
      simp only [vaOf, nodes]
    have owned' := owned.fresh pa rest bytes
    have live' : s.currentTask ∈ (s.fresh pa rest bytes).live := by
      rw [Kernel.fresh, Kernel.written, live_taken]
      exact live
    have holds := (locked.owned owned').holds s.currentTask live'
    obtain ⟨rfl, ⟨rfl, new⟩ | ⟨mem, here⟩⟩ := find_mapped_page_ok holds.linked find
    · rw [if_pos rfl] at h
      have new' : roundDown ref ∉ (lists s.currentTask).map (vaOf s) := vas ▸ new
      split at h
      · rename_i unfound
        obtain ⟨node, areas, p, rest', placed, inserted, chosen', real, fresh, same⟩ :=
          fault_new_area_ok (locked.owned owned') live' page new h
        exact ⟨_, chosen, page_fresh, .newArea page new' (by rw [← tasks]; exact unfound)
          (by rw [← tasks]; exact placed) (by rw [← tasks]; exact inserted)
          (left_over.symm.trans chosen') real (by rw [← used]; exact fresh)
          (((same_set_lock ((s.fresh pa rest bytes).withAreas _ areas) _ _).mapped ..).trans
            same)⟩
      · rename_i vma found
        obtain ⟨p, rest', chosen', real, fresh, same⟩ := fault_new_page_ok holds page new h
        exact ⟨_, chosen, page_fresh, .newPage page new' (by rw [← tasks]; exact found)
          (left_over.symm.trans chosen') real (by rw [← used]; exact fresh)
          ((locked.mapped ..).trans same)⟩
    · rw [if_neg (linked_real holds.linked _ mem)] at h
      obtain ⟨m, area, left, right, p, rest', found, split, chosen', real, fresh, filled, rfl,
        same⟩ := fault_copy_ok holds mem here h
      generalize ((s.fresh pa rest bytes).setLock (.vme s.currentTask) true).phys _ = copy at same
      have rewritten : (s.fresh pa rest bytes).written pa copy = s.fresh pa rest copy := by
        simp only [Kernel.fresh, Kernel.written, Function.update_idem]
      have locked' : SameMemory (s.fresh pa rest copy)
          (((s.fresh pa rest bytes).setLock (.vme s.currentTask) true).written pa copy) := by
        rw [← rewritten]
        exact same_set_lock ((s.fresh pa rest bytes).written pa copy) _ true
      have moved := (locked'.unmapped s.currentTask (roundDown ref) (left.getLastD 0)
        thePage).mapped s.currentTask (roundDown ref) pa area.vmProt p false rest'
      rw [moved.paOf] at same
      exact ⟨_, chosen, page_fresh, .copied split (vas ▸ here) (by rw [← tasks]; exact found)
        (left_over.symm.trans chosen') real (by rw [← used]; exact fresh) filled rfl
        ((moved.dropped _).trans same)⟩
  · rename_i out
    obtain ⟨_, rfl⟩ := pure_ok.mp h
    exact ⟨lists, chosen, page_fresh, .outside out (SameMemory.refl _)⟩

end Fault

section CowWalk

def PrivateWritable (vma : VmArea) : Prop :=
  vma.vmProt &&& protWrite ≠ 0 ∧ vma.vmFlags &&& mapPrivate ≠ 0

instance (vma : VmArea) : Decidable (PrivateWritable vma) :=
  inferInstanceAs (Decidable (_ ∧ _))

/-- The page of node `x` in `t` moved to `pa`, listed by node `p` at the head. -/
def Kernel.renewed (s : Kernel) (t : Nat) (left : List Nat) (x pa p : Nat) (vma : VmArea)
    (choices : List Nat) : Kernel :=
  ((s.pageTaken pa (p :: choices)).unmapped t (vaOf s x) (left.getLastD 0) x).mapped t (vaOf s x)
    pa (vma.vmProt &&& (255 - protWrite)) p true choices

/-- The walk of fork_cow_mapping; its list argument is what the walk still has ahead. When the
    node of a moved page is handed out again, the walk starts over behind the head. -/
inductive CowWalk (t : Nat) :
    Kernel → (Nat → List Nat) → List Nat → Kernel → (Nat → List Nat) → Prop
  | done (s : Kernel) (lists : Nat → List Nat) : CowWalk t s lists [] s lists
  | shared {s s' : Kernel} {lists lists' : Nat → List Nat} {left rest : List Nat} {x : Nat}
      (split : lists t = left ++ x :: rest) (counted : s.cowTable (cowIndex (paOf s x)) ≠ 0)
      (later : CowWalk t s lists rest s' lists') : CowWalk t s lists (x :: rest) s' lists'
  | kept {s s' : Kernel} {lists lists' : Nat → List Nat} {left rest choices : List Nat}
      {x pa : Nat} {vma : VmArea} (split : lists t = left ++ x :: rest)
      (alone : s.cowTable (cowIndex (paOf s x)) = 0) (chosen : s.choices = pa :: choices)
      (page_fresh : pa ≠ 0 → s.frameUsed pa = false ∧ pa % pgsize = 0)
      (found : findVmeNode (s.tasks t).vmAreas (vaOf s x) (u64 (vaOf s x + pgsize)) = some vma)
      (closed : ¬PrivateWritable vma)
      (later : CowWalk t (s.pageTaken pa choices) lists rest s' lists') :
      CowWalk t s lists (x :: rest) s' lists'
  | renewed {s s' : Kernel} {lists lists' : Nat → List Nat} {left rest choices : List Nat}
      {x pa p : Nat} {vma : VmArea} (split : lists t = left ++ x :: rest)
      (alone : s.cowTable (cowIndex (paOf s x)) = 0) (chosen : s.choices = pa :: p :: choices)
      (page_fresh : pa ≠ 0 → s.frameUsed pa = false ∧ pa % pgsize = 0)
      (found : findVmeNode (s.tasks t).vmAreas (vaOf s x) (u64 (vaOf s x + pgsize)) = some vma)
      (writable : PrivateWritable vma) (real : p ≠ 0) (fresh : p = x ∨ s.nodeUsed p = false)
      (later : CowWalk t (s.renewed t left x pa p vma choices)
        (Function.update lists t (p :: (left ++ rest)))
        (if p = x then left ++ rest else rest) s' lists') :
      CowWalk t s lists (x :: rest) s' lists'

theorem Owned.renewed {s : Kernel} {lists : Nat → List Nat} {t x p : Nat}
    {left rest : List Nat} (owned : Owned s lists) (pa : Nat) (vma : VmArea)
    (choices : List Nat) (live : t ∈ s.live) (split : lists t = left ++ x :: rest) (real : p ≠ 0)
    (fresh : p = x ∨ s.nodeUsed p = false) :
    Owned (s.renewed t left x pa p vma choices)
      (Function.update lists t (p :: (left ++ rest))) := by
  have va : vaOf (s.pageTaken pa (p :: choices)) x = vaOf s x := by simp [vaOf]
  have live' : t ∈ (s.pageTaken pa (p :: choices)).live := by
    rw [live_taken]
    exact live
  have unused : p = x ∨ (s.pageTaken pa (p :: choices)).nodeUsed p = false := by
    rw [node_used_taken]
    exact fresh
  rw [Kernel.renewed, ← va]
  exact (owned.taken pa (p :: choices)).replaced live' split real unused

theorem Holds.renewed {s : Kernel} {t x p : Nat} {left rest : List Nat}
    (holds : Holds s t (left ++ x :: rest)) (pa : Nat) (vma : VmArea) (choices : List Nat)
    (real : p ≠ 0) (fresh : p = x ∨ s.nodeUsed p = false) :
    Holds (s.renewed t left x pa p vma choices) t (p :: (left ++ rest)) := by
  have va : vaOf (s.pageTaken pa (p :: choices)) x = vaOf s x := by simp [vaOf]
  have unused : p = x ∨ (s.pageTaken pa (p :: choices)).nodeUsed p = false := by
    rw [node_used_taken]
    exact fresh
  rw [Kernel.renewed, ← va]
  exact (holds.taken pa (p :: choices)).replaced real unused

theorem fork_cow_page_ok {s s' : Kernel} {u : Unit} {t x : Nat} {list : List Nat}
    (holds : Holds s t list) (mem : x ∈ list)
    (h : (forkCowPage t x).run s = .ok (u, s')) :
    (s.cowTable (cowIndex (paOf s x)) ≠ 0 ∧ s = s') ∨
    (s.cowTable (cowIndex (paOf s x)) = 0 ∧ ∃ pa rest vma, s.choices = pa :: rest ∧
      (pa ≠ 0 → s.frameUsed pa = false ∧ pa % pgsize = 0) ∧
      findVmeNode (s.tasks t).vmAreas (vaOf s x) (u64 (vaOf s x + pgsize)) = some vma ∧
      ((¬PrivateWritable vma ∧ s' = s.pageTaken pa rest) ∨
        (PrivateWritable vma ∧ ∃ left right p choices, list = left ++ x :: right ∧
          rest = p :: choices ∧ p ≠ 0 ∧ (p = x ∨ s.nodeUsed p = false) ∧
          s' = s.renewed t left x pa p vma choices))) := by
  simp only [forkCowPage, bind_ok, get_ok, get_cow_cnt_ok] at h
  obtain ⟨_, _, ⟨rfl, rfl⟩, cnt, _, ⟨_, rfl, rfl⟩, h⟩ := h
  split at h
  · rename_i alone
    refine .inr ⟨alone, ?_⟩
    simp only [bind_ok, spin_lock_ok, get_task_ok, spin_unlock_ok] at h
    obtain ⟨pa, _, alloc, _, _, ⟨free, rfl⟩, _, _, ⟨rfl, rfl⟩, _, _, ⟨_, rfl⟩, h⟩ := h
    rw [set_lock_back free] at h
    obtain ⟨rest, chosen, rfl, page_fresh⟩ := alloc_page_ok alloc
    have tasks : ((s.pageTaken pa rest).setLock (.vme t) true).tasks = s.tasks := tasks_taken ..
    rw [tasks] at h
    split at h
    · exact (throw_ok.mp h).elim
    · rename_i vma found
      refine ⟨pa, rest, vma, chosen, page_fresh, found, ?_⟩
      split at h
      · rename_i writable
        refine .inr ⟨writable, ?_⟩
        simp only [bind_ok] at h
        obtain ⟨_, _, unmap, map⟩ := h
        have taken := holds.taken pa rest
        obtain ⟨left, q, right, rfl, here, rfl⟩ := pgunmap_ok unmap taken.linked
        obtain rfl : q = x := taken.unique (by simp) mem (here.trans (by simp [vaOf]))
        obtain ⟨p, choices, chosen', real, fresh, _, rfl⟩ := pgmap_ok entry_unmapped_here map
        obtain rfl : rest = p :: choices := (choices_taken s pa rest).symm.trans chosen'
        refine ⟨left, right, p, choices, rfl, rfl, real, ?_, rfl⟩
        by_cases reused : p = q
        · exact .inl reused
        · refine .inr ?_
          rw [← node_used_taken s pa (p :: choices)]
          exact (Function.update_of_ne reused ..).symm.trans fresh
      · rename_i closed
        exact .inl ⟨closed, (pure_ok.mp h).2.symm⟩
  · rename_i counted
    exact .inl ⟨counted, (pure_ok.mp h).2⟩

theorem renewed_next {s : Kernel} {t x p : Nat} {left rest : List Nat}
    (holds : Holds s t (left ++ x :: rest)) (pa : Nat) (vma : VmArea) (choices : List Nat)
    (real : p ≠ 0) (fresh : p = x ∨ s.nodeUsed p = false) :
    Linked (nextOf (s.renewed t left x pa p vma choices)) 0
      (nextOf (s.renewed t left x pa p vma choices) x)
      (if p = x then left ++ rest else rest) := by
  by_cases reused : p = x
  · subst reused
    rw [if_pos rfl]
    exact (holds.renewed pa vma choices real fresh).linked.2.2
  · rw [if_neg reused]
    have nodup := holds.nodup
    have x_real := linked_real holds.linked x (by simp)
    -- neither `x` nor a node behind it is the predecessor of `x` or the node handed out
    have kept : ∀ y ∈ x :: rest, (s.renewed t left x pa p vma choices).nodes y = s.nodes y := by
      intro y hy
      have y_used : s.nodeUsed y = true := holds.used y (List.mem_append_right _ hy)
      have y_real := linked_real holds.linked y (List.mem_append_right _ hy)
      have ne_p : y ≠ p := by
        rintro rfl
        rw [fresh.resolve_left reused] at y_used
        cases y_used
      have ne_prev : y ≠ left.getLastD 0 := by
        rcases List.eq_nil_or_concat left with rfl | ⟨before, prev, rfl⟩
        · exact y_real
        · rw [List.concat_eq_append, List.getLastD_concat]
          rintro rfl
          rw [List.concat_eq_append, List.append_assoc] at nodup
          have := (List.nodup_append.mp nodup).2.1
          exact (List.nodup_cons.mp this).1 hy
      rw [Kernel.renewed, nodes_mapped_other ne_p, nodes_unmapped_other ne_prev, nodes_taken]
    have tail := (linked_after holds.linked).2.2
    have next : nextOf (s.renewed t left x pa p vma choices) x = nextOf s x := by
      simp only [nextOf, kept x List.mem_cons_self]
    rw [next]
    refine linked_congr tail fun y hy => ?_
    simp only [nextOf, Nat.add_zero, kept y (List.mem_cons_of_mem _ hy)]

theorem fork_cow_loop_ok {s s' : Kernel} {u : Unit} {t fuel cur : Nat}
    {lists : Nat → List Nat} {left ahead : List Nat} (owned : Owned s lists)
    (live : t ∈ s.live) (split : lists t = left ++ ahead)
    (linked : Linked (nextOf s) 0 cur ahead)
    (h : (forkCowMappingLoop t fuel cur).run s = .ok (u, s')) :
    ∃ lists', CowWalk t s lists ahead s' lists' := by
  induction fuel generalizing s lists left ahead cur with
  | zero => exact (throw_ok.mp h).elim
  | succ fuel ih =>
    rw [forkCowMappingLoop] at h
    by_cases ended : cur = 0
    · rw [if_pos ended] at h
      obtain ⟨_, rfl⟩ := pure_ok.mp h
      cases ahead with
      | nil => exact ⟨lists, .done ..⟩
      | cons x rest => exact absurd (linked.1.symm.trans ended) linked.2.1
    · rw [if_neg ended] at h
      obtain ⟨rest, rfl, later⟩ := linked_head linked ended
      simp only [bind_ok, get_ok] at h
      obtain ⟨_, mid, page, _, _, ⟨rfl, rfl⟩, h⟩ := h
      have mem : cur ∈ lists t := by simp [split]
      have behind : lists t = (left ++ [cur]) ++ rest := by simp [split]
      rcases fork_cow_page_ok (owned.holds t live) mem page with
        ⟨counted, rfl⟩ | ⟨alone, pa, choices, vma, chosen, page_fresh, found,
          ⟨closed, rfl⟩ | ⟨writable, left', right, p, rest', split', rfl, real, fresh, rfl⟩⟩
      · obtain ⟨lists', walk⟩ := ih owned live behind later h
        exact ⟨lists', .shared split counted walk⟩
      · have live' : t ∈ (s.pageTaken pa choices).live := by
          rw [live_taken]
          exact live
        have later' : Linked (nextOf (s.pageTaken pa choices)) 0
            ((s.pageTaken pa choices).nodes cur).next rest := by
          rw [nodes_taken]
          exact linked_congr later fun y _ => by simp [nextOf]
        obtain ⟨lists', walk⟩ := ih (owned.taken pa choices) live' behind later' h
        exact ⟨lists', .kept split alone chosen page_fresh found closed walk⟩
      · have live' : t ∈ (s.renewed t left' cur pa p vma rest').live := by
          simpa [Kernel.renewed, Kernel.mapped, Kernel.unmapped] using live
        have holds := owned.holds t live
        have next := renewed_next (split' ▸ holds) pa vma rest' real fresh
        obtain rfl := (holds.split_unique split split').2
        have here : ∃ before, Function.update lists t (p :: (left' ++ rest)) t =
            before ++ (if p = cur then left' ++ rest else rest) := by
          rw [Function.update_self]
          split
          · exact ⟨[p], rfl⟩
          · exact ⟨p :: left', rfl⟩
        obtain ⟨before, here⟩ := here
        obtain ⟨lists', walk⟩ := ih (owned.renewed pa vma rest' live split' real fresh) live' here next h
        exact ⟨lists', .renewed split' alone chosen page_fresh found writable real fresh walk⟩

theorem fork_cow_mapping_ok {s s' : Kernel} {u : Unit} {t : Nat} {lists : Nat → List Nat}
    (owned : Owned s lists) (live : t ∈ s.live)
    (h : (forkCowMapping t).run s = .ok (u, s')) :
    ∃ s₁ s₂ lists', SameMemory s s₁ ∧ CowWalk t s₁ lists (lists t) s₂ lists' ∧
      SameMemory s₂ s' := by
  simp only [forkCowMapping, bind_ok, spin_lock_ok, get_ok, spin_unlock_ok] at h
  obtain ⟨_, _, ⟨_, rfl⟩, _, _, ⟨rfl, rfl⟩, _, _, walk, _, rfl⟩ := h
  have owned' := (same_set_lock s (.mp t) true).owned owned
  obtain ⟨lists', walked⟩ :=
    fork_cow_loop_ok owned' live (List.nil_append _).symm (owned'.holds t live).linked walk
  exact ⟨_, _, lists', same_set_lock .., walked, same_set_lock ..⟩

end CowWalk

section CopyAreas

@[simp] theorem areas_with_areas (s : Kernel) (t : Nat) (areas : List VmArea) :
    ((s.withAreas t areas).tasks t).vmAreas = areas := by simp [Kernel.withAreas]

theorem with_areas_again (s : Kernel) (t : Nat) (areas areas' : List VmArea) :
    (s.withAreas t areas).withAreas t areas' = s.withAreas t areas' := by
  simp [Kernel.withAreas, Kernel.setTask]

theorem with_areas_same (s : Kernel) (t : Nat) :
    s.withAreas t (s.tasks t).vmAreas = s := by simp [Kernel.withAreas, Kernel.setTask]

theorem fork_copying_loop_ok {s s' : Kernel} {u : Unit} {c : Nat} {ahead : List VmArea}
    (h : (forkCopyingVmePagesLoop c ahead).run s = .ok (u, s')) :
    ∃ areas, s' = s.withAreas c areas ∧
      (AreasFit ((s.tasks c).vmAreas ++ ahead) → areas = (s.tasks c).vmAreas ++ ahead) := by
  induction ahead generalizing s with
  | nil =>
    obtain ⟨_, rfl⟩ := pure_ok.mp h
    exact ⟨_, (with_areas_same s c).symm, fun _ => (List.append_nil _).symm⟩
  | cons cur next ih =>
    simp only [forkCopyingVmePagesLoop, bind_ok] at h
    obtain ⟨node, _, place, success, _, insert, h⟩ := h
    obtain ⟨placed, rfl⟩ := new_area_ok place
    have appended : AreasFit ((s.tasks c).vmAreas ++ cur :: next) →
        insertVmeNode (s.tasks c).vmAreas node = some ((s.tasks c).vmAreas ++ [cur]) := by
      intro ok
      have cur_ok := ok.each cur (by simp)
      have before : ∀ a ∈ (s.tasks c).vmAreas, a.vmEnd ≤ cur.vmStart := fun a ha =>
        (List.pairwise_append.mp ok.sorted).2.2 a ha cur List.mem_cons_self
      rw [new_vme_node_copy before cur_ok] at placed
      cases placed
      exact insert_vme_last before
        (fun a ha => (ok.each a (List.mem_append_left _ ha)).nonempty) cur_ok.nonempty
    rcases insert_area_ok insert with ⟨overlaps, _, rfl⟩ | ⟨areas, inserted, _, rfl⟩
    · obtain ⟨areas, rfl, _⟩ := ih h
      refine ⟨areas, rfl, fun ok => ?_⟩
      rw [appended ok] at overlaps
      cases overlaps
    · obtain ⟨areas', rfl, copied⟩ := ih h
      refine ⟨areas', with_areas_again .., fun ok => ?_⟩
      have same : areas = (s.tasks c).vmAreas ++ [cur] :=
        Option.some.inj (inserted.symm.trans (appended ok))
      rw [areas_with_areas, same, List.append_assoc] at copied
      exact copied ok

theorem fork_copying_vme_pages_ok {s s' : Kernel} {u : Unit} {t c : Nat}
    (empty : (s.tasks c).vmAreas = [])
    (h : (forkCopyingVmePages t c).run s = .ok (u, s')) :
    ∃ areas, SameMemory (s.withAreas c areas) s' ∧
      (AreasFit (s.tasks t).vmAreas → areas = (s.tasks t).vmAreas) := by
  simp only [forkCopyingVmePages, bind_ok, get_ok] at h
  obtain ⟨_, _, ⟨rfl, rfl⟩, h⟩ := h
  split at h
  · rename_i none
    obtain rfl := set_ok.mp h
    exact ⟨[], SameMemory.refl _, fun _ => none.symm⟩
  · simp only [bind_ok, spin_lock_ok, spin_unlock_ok] at h
    obtain ⟨_, _, ⟨_, rfl⟩, _, _, loop, _, rfl⟩ := h
    obtain ⟨areas, rfl, copied⟩ := fork_copying_loop_ok loop
    refine ⟨areas, ?_, fun ok => ?_⟩
    · exact (same_set_lock (s.withAreas c areas) (.vme t) true).trans (same_set_lock ..)
    · have child : ((s.setLock (.vme t) true).tasks c).vmAreas = [] := empty
      rw [child, List.nil_append] at copied
      exact copied ok

end CopyAreas

section CopyWalk

inductive CopyWalk (t c : Nat) :
    Kernel → (Nat → List Nat) → List Nat → Kernel → (Nat → List Nat) → Prop
  | done (s : Kernel) (lists : Nat → List Nat) : CopyWalk t c s lists [] s lists
  | page {s s' : Kernel} {lists lists' : Nat → List Nat} {rest choices : List Nat} {x p : Nat}
      {vma : VmArea} (mem : x ∈ lists t) (new : vaOf s x ∉ (lists c).map (vaOf s))
      (found : findVmeNode (s.tasks t).vmAreas (vaOf s x) (u64 (vaOf s x + pgsize)) = some vma)
      (chosen : s.choices = p :: choices) (real : p ≠ 0) (fresh : s.nodeUsed p = false)
      (later : CopyWalk t c (s.mapped c (vaOf s x) (paOf s x) vma.vmProt p true choices)
        (Function.update lists c (p :: lists c)) rest s' lists') :
      CopyWalk t c s lists (x :: rest) s' lists'

theorem fork_copy_page_ok {s s' : Kernel} {u : Unit} {t c x : Nat} {list : List Nat}
    (holds : Holds s c list) (page : UserPage (vaOf s x)) (new : vaOf s x ∉ list.map (vaOf s))
    (h : (forkCopyPage t c x).run s = .ok (u, s')) :
    ∃ vma p choices,
      findVmeNode (s.tasks t).vmAreas (vaOf s x) (u64 (vaOf s x + pgsize)) = some vma ∧
      s.choices = p :: choices ∧ p ≠ 0 ∧ s.nodeUsed p = false ∧
      s' = s.mapped c (vaOf s x) (paOf s x) vma.vmProt p true choices := by
  simp only [forkCopyPage, bind_ok, spin_lock_ok, get_ok] at h
  obtain ⟨_, _, ⟨free, rfl⟩, _, _, ⟨rfl, rfl⟩, h⟩ := h
  split at h
  · exact (throw_ok.mp h).elim
  · rename_i vma found
    simp only [bind_ok, spin_unlock_ok] at h
    obtain ⟨_, _, map, _, rfl⟩ := h
    have absent : ((s.setLock (.vme t) true).tasks c).entry (vaOf s x) = none :=
      holds.absent page new
    obtain ⟨p, choices, chosen, real, fresh, _, rfl⟩ := pgmap_ok absent map
    refine ⟨vma, p, choices, found, chosen, real, fresh, ?_⟩
    exact set_lock_back
      (s := s.mapped c (vaOf s x) (paOf s x) vma.vmProt p true choices) free

theorem fork_coppying_loop_ok {s s' : Kernel} {u : Unit} {t c fuel cur : Nat}
    {lists : Nat → List Nat} (left : List Nat) {ahead : List Nat} (owned : Owned s lists)
    (live : t ∈ s.live) (child : c ∈ s.live) (other : c ≠ t)
    (split : lists t = left ++ ahead) (linked : Linked (nextOf s) 0 cur ahead)
    (copied : (lists c).map (vaOf s) = (left.map (vaOf s)).reverse)
    (h : (forkCoppyingLoop t c fuel cur).run s = .ok (u, s')) :
    ∃ lists', CopyWalk t c s lists ahead s' lists' := by
  induction fuel generalizing s lists left ahead cur with
  | zero => exact (throw_ok.mp h).elim
  | succ fuel ih =>
    rw [forkCoppyingLoop] at h
    by_cases ended : cur = 0
    · rw [if_pos ended] at h
      obtain ⟨_, rfl⟩ := pure_ok.mp h
      cases ahead with
      | nil => exact ⟨lists, .done ..⟩
      | cons x rest => exact absurd (linked.1.symm.trans ended) linked.2.1
    · rw [if_neg ended] at h
      obtain ⟨rest, rfl, later⟩ := linked_head linked ended
      simp only [bind_ok, get_ok] at h
      obtain ⟨_, mid, copy, _, _, ⟨rfl, rfl⟩, h⟩ := h
      have holds := owned.holds t live
      have mem : cur ∈ lists t := by simp [split]
      have new : vaOf s cur ∉ (lists c).map (vaOf s) := by
        have distinct := holds.distinct
        rw [split, List.map_append, List.map_cons, List.nodup_middle] at distinct
        rw [copied, List.mem_reverse]
        exact fun back => (List.nodup_cons.mp distinct).1 (List.mem_append_left _ back)
      obtain ⟨vma, p, choices, found, chosen, real, fresh, rfl⟩ :=
        fork_copy_page_ok (owned.holds c child) (holds.page cur mem) new copy
      have mapped : Owned (s.mapped c (vaOf s cur) (paOf s cur) vma.vmProt p true choices) _ :=
        owned.mapped child (holds.page cur mem) new real fresh
      have behind : Function.update lists c (p :: lists c) t = (left ++ [cur]) ++ rest := by
        rw [Function.update_of_ne (Ne.symm other), split]
        simp
      have used : ∀ y ∈ left ++ cur :: rest, s.nodeUsed y = true := split ▸ holds.used
      have used_left : ∀ y ∈ left ++ [cur], s.nodeUsed y = true := fun y hy =>
        used y (by simp only [List.mem_append, List.mem_cons] at hy ⊢; tauto)
      have next : Linked (nextOf (s.mapped c (vaOf s cur) (paOf s cur) vma.vmProt p true
          choices)) 0 ((s.mapped c (vaOf s cur) (paOf s cur) vma.vmProt p true choices).nodes
          cur).next rest := by
        rw [nodes_mapped_used (used cur (by simp)) fresh]
        refine linked_congr later fun y hy => ?_
        simp only [nextOf, Nat.add_zero, nodes_mapped_used (used y (by simp [hy])) fresh]
      have copied' : (Function.update lists c (p :: lists c) c).map (vaOf (s.mapped c (vaOf s cur)
          (paOf s cur) vma.vmProt p true choices)) = ((left ++ [cur]).map (vaOf (s.mapped c
          (vaOf s cur) (paOf s cur) vma.vmProt p true choices))).reverse := by
        rw [Function.update_self, List.map_cons, vas_mapped (owned.holds c child).used fresh,
          vas_mapped used_left fresh, copied, List.map_append, List.reverse_append]
        simp [vaOf]
      obtain ⟨lists', walk⟩ := ih (left ++ [cur]) mapped live child behind next copied' h
      exact ⟨lists', .page mem new found chosen real fresh walk⟩

theorem fork_coppying_ok {s s' : Kernel} {u : Unit} {t c : Nat} {lists : Nat → List Nat}
    (owned : Owned s lists) (live : t ∈ s.live) (child : c ∈ s.live) (other : c ≠ t)
    (empty : lists c = []) (h : (forkCoppyingNewMappedPages t c).run s = .ok (u, s')) :
    ∃ s₁ s₂ lists', SameMemory s s₁ ∧ CopyWalk t c s₁ lists (lists t) s₂ lists' ∧
      SameMemory s₂ s' := by
  simp only [forkCoppyingNewMappedPages, bind_ok, spin_lock_ok, get_ok] at h
  obtain ⟨_, _, ⟨_, rfl⟩, _, _, ⟨rfl, rfl⟩, h⟩ := h
  have owned' := (same_set_lock s (.mp t) true).owned owned
  have linked := (owned'.holds t live).linked
  split at h
  · rename_i none
    obtain rfl := set_ok.mp h
    have nothing : lists t = [] := by
      cases list : lists t with
      | nil => rfl
      | cons x rest =>
        rw [list] at linked
        exact absurd (linked.1.symm.trans none) linked.2.1
    have childless := (owned.holds c child).linked
    rw [empty] at childless
    rw [nothing]
    exact ⟨_, _, lists, same_set_lock .., .done .., same_set_task _ _ _ rfl childless.symm rfl⟩
  · simp only [bind_ok, spin_unlock_ok] at h
    obtain ⟨_, _, walk, _, rfl⟩ := h
    obtain ⟨lists', walked⟩ := fork_coppying_loop_ok [] owned' live child other
      (List.nil_append _).symm linked (by simp [empty]) walk
    exact ⟨_, _, lists', same_set_lock .., walked, same_set_lock ..⟩

end CopyWalk

section Fork

theorem same_kfork_enter {s s' : Kernel} {c r : Nat}
    (h : (kforkEnter c).run s = .ok (r, s')) : SameMemory s s' := by
  have pids : ∀ {m m' : Kernel} {r : Nat}, newPid.run m = .ok (r, m') → SameMemory m m' := by
    intro m m' r h
    simp only [newPid, bind_ok, get_ok] at h
    obtain ⟨_, _, ⟨rfl, rfl⟩, h⟩ := h
    split at h
    · simp only [getPid, bind_ok, spin_lock_ok, get_ok] at h
      obtain ⟨_, _, ⟨_, rfl⟩, _, _, ⟨rfl, rfl⟩, h⟩ := h
      split at h
      · simp only [bind_ok, spin_unlock_ok, pure_ok] at h
        obtain ⟨_, _, ⟨_, rfl⟩, _, rfl⟩ := h
        exact (same_set_lock ..).trans (same_set_lock ..)
      · simp only [bind_ok, set_ok, spin_unlock_ok, pure_ok] at h
        obtain ⟨_, _, rfl, _, _, ⟨_, rfl⟩, _, rfl⟩ := h
        exact ⟨rfl, rfl, rfl, rfl, rfl, rfl, rfl, rfl, rfl, fun _ => rfl, fun _ => rfl,
          fun _ => rfl⟩
    · simp only [bind_ok, set_ok, pure_ok] at h
      obtain ⟨_, _, rfl, _, rfl⟩ := h
      exact ⟨rfl, rfl, rfl, rfl, rfl, rfl, rfl, rfl, rfl, fun _ => rfl, fun _ => rfl,
        fun _ => rfl⟩
  simp only [kforkEnter, bind_ok, modify_ok, spin_lock_ok, spin_unlock_ok, pure_ok] at h
  obtain ⟨id, mid, new, _, _, rfl, _, _, ⟨_, rfl⟩, _, _, rfl, _, _, ⟨_, rfl⟩, _, rfl⟩ := h
  refine (pids new).trans ((same_set_task mid c { mid.tasks c with pid := id } rfl rfl rfl).trans ?_)
  exact ⟨rfl, rfl, rfl, rfl, rfl, rfl, rfl, rfl, rfl, fun _ => rfl, fun _ => rfl, fun _ => rfl⟩

structure ForkEffect (t c : Nat) (s : Kernel) (lists : Nat → List Nat) (s₁ s₂ s₃ s₄ s' : Kernel)
    (lists₂ lists₄ : Nat → List Nat) (choices : List Nat) (areas : List VmArea) : Prop where
  chosen : s.choices = c :: choices
  real : c ≠ 0
  unused : s.taskUsed c = false
  created : SameMemory
    ({ s with choices := choices, taskUsed := Function.update s.taskUsed c true }.created c) s₁
  cow : CowWalk t s₁ (Function.update lists c []) (lists t) s₂ lists₂
  areas_copied : SameMemory (s₂.withAreas c areas) s₃
  areas_same : AreasOk (s.tasks t).vmAreas → areas = (s.tasks t).vmAreas
  copied : CopyWalk t c s₃ lists₂ (lists₂ t) s₄ lists₄
  finished : SameMemory s₄ s'

theorem Owned.created {s : Kernel} {lists : Nat → List Nat} {c : Nat} {choices : List Nat}
    (owned : Owned s lists) (unused : s.taskUsed c = false) :
    Owned ({ s with
      choices := choices, taskUsed := Function.update s.taskUsed c true }.created c)
      (Function.update lists c []) := by
  have dead : c ∉ s.live := fun live => by
    rw [owned.taskUsed c live] at unused
    cases unused
  have other : ∀ t ∈ s.live, t ≠ c := fun t live same => dead (same ▸ live)
  constructor
  · intro t live
    rcases List.mem_cons.mp live with rfl | live
    · rw [Function.update_self]
      refine ⟨?_, List.nodup_nil, by simp, by simp, by simp, fun va _ mapped => ?_⟩
      · simp [Linked, headOf, Kernel.created, createdTask]
      · simp [Kernel.created, createdTask, Task.entry] at mapped
    · rw [Function.update_of_ne (other t live)]
      refine (owned.holds t live).congr (fun _ _ => rfl) (fun _ _ => rfl) ?_ ?_ <;>
        simp [Kernel.created, Kernel.setLock, headOf, Function.update_of_ne (other t live)]
  · intro t live t' live' ne p hp
    rcases List.mem_cons.mp live with rfl | live
    · rw [Function.update_self] at hp
      cases hp
    · rcases List.mem_cons.mp live' with rfl | live'
      · rw [Function.update_self]
        exact List.not_mem_nil
      · rw [Function.update_of_ne (other t live)] at hp
        rw [Function.update_of_ne (other t' live')]
        exact owned.apart t live t' live' ne p hp
  · intro t live
    rcases List.mem_cons.mp live with rfl | live
    · exact Function.update_self ..
    · exact (Function.update_of_ne (other t live) ..).trans (owned.taskUsed t live)
  · exact List.nodup_cons.mpr ⟨dead, owned.nodup⟩

theorem live_cow_walk {t : Nat} {s s' : Kernel} {lists lists' : Nat → List Nat}
    {ahead : List Nat} (walk : CowWalk t s lists ahead s' lists') : s'.live = s.live := by
  induction walk with
  | done => rfl
  | shared _ _ _ ih => exact ih
  | kept _ _ _ _ _ _ _ ih => rw [ih, live_taken]
  | renewed _ _ _ _ _ _ _ _ _ ih =>
    rw [ih]
    simp [Kernel.renewed, Kernel.mapped, Kernel.unmapped]

theorem owned_cow_walk {t : Nat} {s s' : Kernel} {lists lists' : Nat → List Nat}
    {ahead : List Nat} (walk : CowWalk t s lists ahead s' lists') (live : t ∈ s.live)
    (owned : Owned s lists) : Owned s' lists' ∧ (∀ t', t' ≠ t → lists' t' = lists t') ∧
      ∀ t', (s'.tasks t').vmAreas = (s.tasks t').vmAreas := by
  induction walk with
  | done => exact ⟨owned, fun _ _ => rfl, fun _ => rfl⟩
  | shared _ _ _ ih => exact ih live owned
  | kept _ _ _ _ _ _ _ ih =>
    obtain ⟨owned', others, areas⟩ := ih (by rw [live_taken]; exact live) (owned.taken ..)
    refine ⟨owned', others, fun t' => ?_⟩
    rw [areas, tasks_taken]
  | @renewed s s' lists lists' left rest choices x pa p vma split alone chosen page_fresh found
      writable real fresh later ih =>
    have live' : t ∈ (s.renewed t left x pa p vma choices).live := by
      simpa [Kernel.renewed, Kernel.mapped, Kernel.unmapped] using live
    obtain ⟨owned', others, areas⟩ :=
      ih live' (owned.renewed pa vma choices live split real fresh)
    refine ⟨owned', fun t' ne => ?_, fun t' => ?_⟩
    · rw [others t' ne, Function.update_of_ne ne]
    · rw [areas, Kernel.renewed, areas_mapped, areas_unmapped, tasks_taken]

theorem owned_copy_walk {t c : Nat} {s s' : Kernel} {lists lists' : Nat → List Nat}
    {ahead : List Nat} (walk : CopyWalk t c s lists ahead s' lists') (live : t ∈ s.live)
    (child : c ∈ s.live) (owned : Owned s lists) :
    Owned s' lists' ∧ (∀ t', t' ≠ c → lists' t' = lists t') ∧
      ∀ t', (s'.tasks t').vmAreas = (s.tasks t').vmAreas := by
  induction walk with
  | done => exact ⟨owned, fun _ _ => rfl, fun _ => rfl⟩
  | page mem new _ _ real fresh _ ih =>
    have page := (owned.holds t live).page _ mem
    obtain ⟨owned', others, areas⟩ := ih live child (owned.mapped child page new real fresh)
    refine ⟨owned', fun t' ne => ?_, fun t' => ?_⟩
    · rw [others t' ne, Function.update_of_ne ne]
    · rw [areas, areas_mapped]

theorem uproc_create_ok {s s' : Kernel} {u : Unit} {c : Nat}
    (h : (uprocCreate c).run s = .ok (u, s')) : SameMemory (s.created c) s' := by
  simp only [uprocCreate, bind_ok, modify_ok, spin_lock_ok, spin_unlock_ok] at h
  obtain ⟨_, _, ⟨_, rfl⟩, _, _, rfl, _, rfl⟩ := h
  exact ⟨rfl, rfl, rfl, rfl, rfl, rfl, rfl, rfl, rfl, fun _ => rfl, fun _ => rfl, fun _ => rfl⟩

/-- kfork as a `ForkEffect`, and the run of fork_copying_vme_pages that made the child's areas. -/
theorem kfork_areas_ok {s s' : Kernel} {t r : Nat} {lists : Nat → List Nat}
    (owned : Owned s lists) (live : t ∈ s.live) (h : (kfork t).run s = .ok (r, s')) :
    ∃ c s₁ s₂ s₃ s₄ lists₂ lists₄ choices areas,
      ForkEffect t c s lists s₁ s₂ s₃ s₄ s' lists₂ lists₄ choices areas ∧
        ∃ m m' u, (forkCopyingVmePages t c).run m = .ok (u, m') ∧ (m.tasks c).vmAreas = [] ∧
          (m.tasks t).vmAreas = (s.tasks t).vmAreas ∧ (m'.tasks c).vmAreas = areas := by
  simp only [kfork, bind_ok, modify_ok] at h
  obtain ⟨c, _, alloc, _, made, create, _, m₁, cow, _, m₂, copy_areas, _, m₃, copy_pages, _, _,
    rfl, enter⟩ := h
  obtain ⟨choices, chosen, real, unused, rfl⟩ := alloc_task_ok alloc
  have other : c ≠ t := by
    rintro rfl
    rw [owned.taskUsed c live] at unused
    cases unused
  have created := uproc_create_ok create
  have owned_made := created.owned (owned.created unused)
  have live_made : made.live = c :: s.live := created.live
  have parent : t ∈ made.live := by
    rw [live_made]
    exact List.mem_cons_of_mem _ live
  obtain ⟨s₁, s₂, lists₂, before, walk, after⟩ := fork_cow_mapping_ok owned_made parent cow
  have live₁ : s₁.live = made.live := before.live
  obtain ⟨owned₂, others, areas₂⟩ :=
    owned_cow_walk walk (live₁ ▸ parent) (before.owned owned_made)
  have live₂ : m₁.live = made.live := (after.live.trans (live_cow_walk walk)).trans live₁
  have areas_m₁ : ∀ t', (m₁.tasks t').vmAreas = (made.tasks t').vmAreas := fun t' =>
    (after.areas t').trans ((areas₂ t').trans (before.areas t'))
  have child_areas : (m₁.tasks c).vmAreas = [] := by
    rw [areas_m₁, created.areas]
    simp [Kernel.created, createdTask]
  have parent_areas : (m₁.tasks t).vmAreas = (s.tasks t).vmAreas := by
    rw [areas_m₁, created.areas]
    simp [Kernel.created, Kernel.setLock, Function.update_of_ne (Ne.symm other)]
  obtain ⟨areas, copied, same⟩ := fork_copying_vme_pages_ok child_areas copy_areas
  have owned_m₂ := copied.owned ((after.owned owned₂).withAreas c areas)
  have live_m₂ : m₂.live = made.live := copied.live.trans live₂
  have none : lists₂ c = [] := by
    rw [others c other, Function.update_self]
  obtain ⟨s₃, s₄, lists₄, start, pages, stop⟩ := fork_coppying_ok owned_m₂ (live_m₂ ▸ parent)
    (by rw [live_m₂, live_made]; exact List.mem_cons_self) other none copy_pages
  rw [Function.update_of_ne (Ne.symm other)] at walk
  refine ⟨c, s₁, s₂, s₃, s₄, lists₂, lists₄, choices, areas, ⟨chosen, real, unused,
    created.trans before, walk, ((after.withAreas c areas).trans copied).trans start,
    fun ok => (same (by rw [parent_areas]; exact ok.fit)).trans parent_areas, pages,
    stop.trans ((same_set_task m₃ c { m₃.tasks c with ppid := (m₃.tasks t).pid } rfl rfl
      rfl).trans (same_kfork_enter enter))⟩,
    _, _, _, copy_areas, child_areas, parent_areas, ?_⟩
  rw [copied.areas, areas_with_areas]

theorem kfork_ok {s s' : Kernel} {t r : Nat} {lists : Nat → List Nat} (owned : Owned s lists)
    (live : t ∈ s.live) (h : (kfork t).run s = .ok (r, s')) :
    ∃ c s₁ s₂ s₃ s₄ lists₂ lists₄ choices areas,
      ForkEffect t c s lists s₁ s₂ s₃ s₄ s' lists₂ lists₄ choices areas := by
  obtain ⟨c, s₁, s₂, s₃, s₄, lists₂, lists₄, choices, areas, effect, _⟩ :=
    kfork_areas_ok owned live h
  exact ⟨c, s₁, s₂, s₃, s₄, lists₂, lists₄, choices, areas, effect⟩

end Fork

section Destroy

inductive DestroyWalk : Kernel → List Nat → Kernel → Prop
  | done (s : Kernel) : DestroyWalk s [] s
  | page {s s' : Kernel} {rest : List Nat} {x : Nat}
      (later : DestroyWalk { s.dropped (paOf s x) with
        nodeUsed := Function.update s.nodeUsed x false } rest s') :
      DestroyWalk s (x :: rest) s'

theorem destroy_loop_ok {s s' : Kernel} {u : Unit} {fuel cur : Nat} {list : List Nat}
    (linked : Linked (nextOf s) 0 cur list)
    (h : (destroyMappedPagesLoop fuel cur).run s = .ok (u, s')) : DestroyWalk s list s' := by
  induction fuel generalizing s cur list with
  | zero => exact (throw_ok.mp h).elim
  | succ fuel ih =>
    rw [destroyMappedPagesLoop] at h
    by_cases ended : cur = 0
    · rw [if_pos ended] at h
      obtain ⟨_, rfl⟩ := pure_ok.mp h
      cases list with
      | nil => exact .done _
      | cons x rest => exact absurd (linked.1.symm.trans ended) linked.2.1
    · rw [if_neg ended] at h
      obtain ⟨rest, rfl, later⟩ := linked_head linked ended
      simp only [bind_ok, get_ok] at h
      obtain ⟨_, _, ⟨rfl, rfl⟩, _, _, dec, _, _, count, _, _, free, _, _, node, h⟩ := h
      obtain rfl := drop_cow_ok dec count free
      obtain rfl := free_node_ok node
      refine .page (ih ?_ h)
      exact linked_congr later fun _ _ => rfl

theorem destroy_mapped_pages_ok {s s' : Kernel} {u : Unit} {t : Nat} {list : List Nat}
    (linked : Linked (nextOf s) 0 (headOf s t) list)
    (h : (destroyMappedPages t).run s = .ok (u, s')) : DestroyWalk s list s' := by
  simp only [destroyMappedPages, bind_ok, get_ok] at h
  obtain ⟨_, _, ⟨rfl, rfl⟩, h⟩ := h
  exact destroy_loop_ok linked h

end Destroy

end Uproc
