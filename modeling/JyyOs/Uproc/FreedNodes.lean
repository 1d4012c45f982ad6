import JyyOs.Library.Freed
import JyyOs.Uproc.CowFork
import JyyOs.Uproc.Pids

/-!
get_pid, delete_map_page, fork_cow_mapping, page_fault and destroy_mapped_pages once more, with a
note of the PID_Q and M_PAGE nodes they have given back, and what they read of them.
-/
namespace Uproc

open Hoare Freed LinkedList PartialRun

inductive NodeId where
  | page (p : Nat)
  | pid (p : Nat)
  deriving DecidableEq

namespace Nodes

abbrev Kern := Watch Kernel NodeId Stop

section Code

def readPage (p : Nat) : Nodes.Kern MPage := readNode (fun s => s.nodes p) (.page p)

def readPid (p : Nat) : Nodes.Kern PidNode := readNode (fun s => s.pidNodes p) (.pid p)

def freePid (p : Nat) : Uproc.Kern Unit :=
  modify fun s => { s with pidUsed := Function.update s.pidUsed p false }

def setHead (next : Nat) : Uproc.Kern Unit :=
  modify fun s => { s with pHead := next, pTail := if next = 0 then 0 else s.pTail }

def getPid : Nodes.Kern Nat := do
  plain (spinLock .pid)
  let s ← plain get
  if s.pHead = 0 then
    plain (spinUnlock .pid)
    return 0
  else
    let id ← readPid s.pHead
    noteFree (freePid s.pHead) (.pid s.pHead)
    let head ← readPid s.pHead
    plain (setHead head.next)
    plain (spinUnlock .pid)
    return id.pid

def deleteMapPageLoop (task va : Nat) : Nat → Nat → Nat → Nodes.Kern Unit
  | 0, _, _ => throw (.stop .endless)
  | fuel + 1, prev, cur =>
    if cur = 0 then throw (.stop .panic)
    else do
      let page ← readPage cur
      if page.va = va then
        plain (unlinkMapPage task prev page.next)
        noteFree (freeNode cur) (.page cur)
      else deleteMapPageLoop task va fuel cur page.next

def deleteMapPage (task va : Nat) : Nodes.Kern Unit := do
  let s ← plain get
  deleteMapPageLoop task va s.rounds 0 (s.tasks task).mappedPageHead

def findMappedPageLoop (va : Nat) : Nat → Nat → Nodes.Kern Nat
  | 0, _ => throw (.stop .endless)
  | fuel + 1, cur =>
    if cur = 0 then return 0
    else do
      let page ← readPage cur
      if page.va = va then return cur
      else findMappedPageLoop va fuel page.next

def findMappedPage (task va : Nat) : Nodes.Kern Nat := do
  let s ← plain get
  findMappedPageLoop va s.rounds (s.tasks task).mappedPageHead

def pgunmap (task va : Nat) : Nodes.Kern Unit := do
  deleteMapPage task va
  plain (map task va 0 mmapNone)

def forkCowPage (task cur : Nat) : Nodes.Kern Unit := do
  let page ← readPage cur
  let cnt ← plain (getCowCnt page.pa)
  if cnt = 0 then
    let page ← readPage cur
    let pa ← plain allocPage
    plain (spinLock (.vme task))
    let t ← plain (getTask task)
    plain (spinUnlock (.vme task))
    match findVmeNode t.vmAreas page.va (u64 (page.va + pgsize)) with
    | none => throw (.stop .null)
    | some vma =>
      if vma.vmProt &&& protWrite ≠ 0 ∧ vma.vmFlags &&& mapPrivate ≠ 0 then
        pgunmap task page.va
        plain (pgmap task page.va pa (vma.vmProt &&& (255 - protWrite)) true)
      else return
  else return

def forkCowMappingLoop (task : Nat) : Nat → Nat → Nodes.Kern Unit
  | 0, _ => throw (.stop .endless)
  | fuel + 1, cur =>
    if cur = 0 then return
    else do
      forkCowPage task cur
      let page ← readPage cur
      forkCowMappingLoop task fuel page.next

def forkCowMapping (task : Nat) : Nodes.Kern Unit := do
  plain (spinLock (.mp task))
  let s ← plain get
  forkCowMappingLoop task s.rounds (s.tasks task).mappedPageHead
  plain (spinUnlock (.mp task))

def destroyMappedPagesLoop : Nat → Nat → Nodes.Kern Unit
  | 0, _ => throw (.stop .endless)
  | fuel + 1, cur =>
    if cur = 0 then return
    else do
      let page ← readPage cur
      plain (decCowCnt page.pa)
      let page' ← readPage cur
      let cnt ← plain (getCowCnt page'.pa)
      let page' ← readPage cur
      plain (runIf (cnt = 0) (freePage page'.pa))
      noteFree (freeNode cur) (.page cur)
      destroyMappedPagesLoop fuel page.next

def destroyMappedPages (task : Nat) : Nodes.Kern Unit := do
  let s ← plain get
  destroyMappedPagesLoop s.rounds (s.tasks task).mappedPageHead

def dropPage (task thePage : Nat) : Nodes.Kern Unit := do
  let page ← readPage thePage
  plain (decCowCnt page.pa)
  let page ← readPage thePage
  let cnt ← plain (getCowCnt page.pa)
  let page ← readPage thePage
  plain (runIf (cnt = 0) (freePage page.pa))
  plain (spinUnlock (.vme task))

def faultCopy (task va pa thePage : Nat) (vma : Option VmArea) : Nodes.Kern Unit := do
  plain (spinLock (.mp task))
  let page ← readPage thePage
  plain (stopUnless (page.pa ≠ 0) .null)
  let s ← plain get
  plain (copyPage pa (s.phys page.pa))
  pgunmap task va
  match vma with
  | none => throw (.stop .null)
  | some vma =>
    plain (pgmap task va pa vma.vmProt false)
    plain (spinUnlock (.mp task))
    dropPage task thePage

def pageFault (ref : Nat) : Nodes.Kern Unit := do
  let s ← plain get
  let task := s.currentTask
  let pa ← plain allocPage
  let va := roundDown ref
  if InArea va then
    plain (copyInitCode va pa)
    plain (spinLock (.vme task))
    let thePage ← findMappedPage task va
    let t ← plain (getTask task)
    let vma := findVmeNode t.vmAreas va (u64 (va + pgsize))
    if thePage = 0 then
      match vma with
      | none => plain (faultNewArea task va pa)
      | some vma => plain (faultNewPage task va pa vma)
    else faultCopy task va pa thePage vma
  else return

end Code

section Agreement

variable {task va : Nat} {w : Noted Kernel NodeId}

theorem follows_get_pid : Follows getPid Uproc.getPid w := by
  refine follows_bind (follows_plain _ w) fun _ w1 _ => ?_
  refine follows_bind (follows_plain get w1) fun s w2 read => ?_
  obtain ⟨_, same, rfl⟩ := plain_ok.mp read
  obtain ⟨rfl, rfl⟩ := get_ok.mp same
  refine follows_ite (fun _ => ?_) fun _ => ?_
  · exact follows_bind (follows_plain _ _) fun _ _ _ => follows_pure _ _
  · exact follows_read fun _ => follows_freed (free_then_read rfl)

theorem follows_delete_loop (fuel prev cur : Nat) (w : Noted Kernel NodeId) :
    Follows (deleteMapPageLoop task va fuel prev cur)
      (Uproc.deleteMapPageLoop task va fuel prev cur) w := by
  induction fuel generalizing prev cur w with
  | zero => exact follows_throw _ w
  | succ fuel ih =>
    refine follows_ite (fun _ => follows_throw _ w) fun _ => ?_
    refine follows_read fun _ => follows_get ?_
    refine follows_ite (fun _ => ?_) fun _ => ih cur _ w
    exact follows_bind (follows_plain _ w) fun _ w1 _ => follows_free _ _ w1

theorem follows_delete_map_page : Follows (deleteMapPage task va) (Uproc.deleteMapPage task va) w :=
  follows_bind (follows_plain get w) fun _ w1 _ => follows_delete_loop _ 0 _ w1

theorem follows_find_loop (fuel cur : Nat) (w : Noted Kernel NodeId) :
    Follows (findMappedPageLoop va fuel cur) (Uproc.findMappedPageLoop va fuel cur) w := by
  induction fuel generalizing cur w with
  | zero => exact follows_throw _ w
  | succ fuel ih =>
    refine follows_ite (fun _ => follows_pure _ w) fun _ => ?_
    refine follows_read fun _ => follows_get ?_
    exact follows_ite (fun _ => follows_pure _ w) fun _ => ih _ w

theorem follows_find_mapped_page :
    Follows (findMappedPage task va) (Uproc.findMappedPage task va) w :=
  follows_bind (follows_plain get w) fun _ w1 _ => follows_find_loop _ _ w1

theorem follows_pgunmap : Follows (pgunmap task va) (Uproc.pgunmap task va) w :=
  follows_bind follows_delete_map_page fun _ w1 _ => follows_plain _ w1

theorem follows_fork_cow_page {cur : Nat} :
    Follows (forkCowPage task cur) (Uproc.forkCowPage task cur) w := by
  refine follows_read fun _ => follows_get ?_
  refine follows_bind (follows_plain _ w) fun cnt w1 counted => ?_
  obtain ⟨_, ran, rfl⟩ := plain_ok.mp counted
  obtain ⟨_, _, rfl⟩ := get_cow_cnt_ok.mp ran
  refine follows_ite (fun _ => follows_read fun _ => ?_) fun _ => follows_pure _ _
  refine follows_bind (follows_plain _ _) fun pa w2 _ => ?_
  refine follows_bind (follows_plain _ w2) fun _ w3 _ => ?_
  refine follows_bind (follows_plain _ w3) fun t w4 _ => ?_
  refine follows_bind (follows_plain _ w4) fun _ w5 _ => ?_
  generalize findVmeNode t.vmAreas _ _ = found
  cases found with
  | none => exact follows_throw _ w5
  | some vma =>
    refine follows_ite (fun _ => ?_) fun _ => follows_pure _ w5
    exact follows_bind follows_pgunmap fun _ w6 _ => follows_plain _ w6

theorem follows_fork_cow_loop (fuel cur : Nat) (w : Noted Kernel NodeId) :
    Follows (forkCowMappingLoop task fuel cur) (Uproc.forkCowMappingLoop task fuel cur) w := by
  induction fuel generalizing cur w with
  | zero => exact follows_throw _ w
  | succ fuel ih =>
    refine follows_ite (fun _ => follows_pure _ w) fun _ => ?_
    refine follows_bind follows_fork_cow_page fun _ w1 _ => ?_
    exact follows_read fun _ => follows_get (ih _ w1)

theorem follows_fork_cow_mapping :
    Follows (forkCowMapping task) (Uproc.forkCowMapping task) w := by
  refine follows_bind (follows_plain _ w) fun _ w1 _ => ?_
  refine follows_bind (follows_plain get w1) fun s w2 _ => ?_
  exact follows_bind (follows_fork_cow_loop _ _ w2) fun _ w3 _ => follows_plain _ w3

theorem follows_destroy_loop (fuel cur : Nat) (w : Noted Kernel NodeId) :
    Follows (destroyMappedPagesLoop fuel cur) (Uproc.destroyMappedPagesLoop fuel cur) w := by
  induction fuel generalizing cur w with
  | zero => exact follows_throw _ w
  | succ fuel ih =>
    refine follows_ite (fun _ => follows_pure _ w) fun _ => ?_
    refine follows_read fun _ => follows_get ?_
    refine follows_bind (follows_plain _ w) fun _ w1 dropped => ?_
    obtain ⟨_, ran, rfl⟩ := plain_ok.mp dropped
    obtain rfl := dec_cow_cnt_ok ran
    refine follows_read fun _ => ?_
    refine follows_bind (follows_plain _ _) fun cnt w2 counted => ?_
    obtain ⟨_, ran, rfl⟩ := plain_ok.mp counted
    obtain ⟨_, _, rfl⟩ := get_cow_cnt_ok.mp ran
    refine follows_read fun _ => ?_
    refine follows_bind (follows_plain _ _) fun _ w3 _ => ?_
    exact follows_bind (follows_free _ _ w3) fun _ w4 _ => ih _ w4

theorem follows_destroy_mapped_pages :
    Follows (destroyMappedPages task) (Uproc.destroyMappedPages task) w :=
  follows_bind (follows_plain get w) fun _ w1 _ => follows_destroy_loop _ _ w1

theorem follows_drop_page {thePage : Nat} :
    Follows (dropPage task thePage) (do
      let s ← get
      decCowCnt (s.nodes thePage).pa
      let cnt ← getCowCnt (s.nodes thePage).pa
      runIf (cnt = 0) (freePage (s.nodes thePage).pa)
      spinUnlock (.vme task)) w := by
  refine follows_read fun _ => follows_get ?_
  refine follows_bind (follows_plain _ w) fun _ w1 dropped => ?_
  obtain ⟨_, ran, rfl⟩ := plain_ok.mp dropped
  obtain rfl := dec_cow_cnt_ok ran
  refine follows_read fun _ => ?_
  refine follows_bind (follows_plain _ _) fun cnt w2 counted => ?_
  obtain ⟨_, ran, rfl⟩ := plain_ok.mp counted
  obtain ⟨_, _, rfl⟩ := get_cow_cnt_ok.mp ran
  refine follows_read fun _ => ?_
  exact follows_bind (follows_plain _ _) fun _ w3 _ => follows_plain _ w3

theorem follows_fault_copy {pa thePage : Nat} {vma : Option VmArea} :
    Follows (faultCopy task va pa thePage vma) (Uproc.faultCopy task va pa thePage vma) w := by
  refine follows_bind (follows_plain _ w) fun _ w1 _ => ?_
  refine follows_read fun _ => follows_get ?_
  refine follows_bind (follows_plain _ w1) fun _ w2 checked => ?_
  obtain ⟨_, ran, rfl⟩ := plain_ok.mp checked
  obtain ⟨_, rfl⟩ := stop_unless_ok.mp ran
  refine follows_look (follows_bind (follows_plain _ _) fun _ w3 _ => ?_)
  refine follows_bind follows_pgunmap fun _ w4 _ => ?_
  cases vma with
  | none => exact follows_throw _ w4
  | some vma =>
    refine follows_bind (follows_plain _ w4) fun _ w5 _ => ?_
    exact follows_bind (follows_plain _ w5) fun _ w6 _ => follows_drop_page

theorem follows_page_fault {ref : Nat} : Follows (pageFault ref) (Uproc.pageFault ref) w := by
  refine follows_bind (follows_plain get w) fun s w1 _ => ?_
  refine follows_bind (follows_plain _ w1) fun pa w2 _ => ?_
  refine follows_ite (fun _ => ?_) fun _ => follows_pure _ w2
  refine follows_bind (follows_plain _ w2) fun _ w3 _ => ?_
  refine follows_bind (follows_plain _ w3) fun _ w4 _ => ?_
  refine follows_bind follows_find_mapped_page fun thePage w5 _ => ?_
  refine follows_bind (follows_plain _ w5) fun t w6 _ => ?_
  refine follows_ite (fun _ => ?_) fun _ => follows_fault_copy
  generalize findVmeNode t.vmAreas _ _ = found
  cases found with
  | none => exact follows_plain _ w6
  | some vma => exact follows_plain _ w6

end Agreement

section Reads

variable {s : Kernel} {t va fuel prev cur x : Nat} {list ahead : List Nat}

structure Unmoved (s : Kernel) (t : Nat) (w : Noted Kernel NodeId) : Prop where
  gone : w.gone = []
  nodes : w.state.nodes = s.nodes
  task : w.state.tasks t = s.tasks t
  counts : w.state.cowTable = s.cowTable

theorem Unmoved.there {w : Noted Kernel NodeId} (unmoved : Unmoved s t w) (id : NodeId) :
    id ∉ w.gone := by
  rw [unmoved.gone]
  exact List.not_mem_nil

theorem delete_loop_reads (linked : Linked (nextOf s) 0 cur ahead) :
    Spec (Unmoved s t) (deleteMapPageLoop t va fuel prev cur)
      (fun _ w => ∃ q ∈ ahead, vaOf s q = va ∧ w.gone = [.page q]) (· ≠ .freed) := by
  induction fuel generalizing prev cur ahead with
  | zero => exact spec_throw _ nofun
  | succ fuel ih =>
    refine spec_ite (fun _ => spec_throw _ nofun) fun real => ?_
    obtain ⟨rest, rfl, later⟩ := linked_head linked real
    refine spec_read (fun w unmoved => unmoved.there _) (s.nodes cur)
      (fun w unmoved => congrFun unmoved.nodes cur) ?_
    refine spec_ite (fun here => ?_) fun _ => ?_
    · refine spec_bind (R := fun _ w => w.gone = []) (spec_plain nofun fun _ _ _ unmoved _ =>
        unmoved.gone) fun _ => spec_note_free nofun fun w _ none_gone _ => ?_
      exact ⟨cur, List.mem_cons_self, here, by rw [none_gone]⟩
    · refine spec_weaken (ih later) (fun _ unmoved => unmoved) fun _ w ⟨q, mem, at_va, gone⟩ => ?_
      exact ⟨q, List.mem_cons_of_mem _ mem, at_va, gone⟩

theorem pgunmap_reads (holds : Holds s t list) : Spec (Unmoved s t) (pgunmap t va)
    (fun _ w => ∃ q ∈ list, vaOf s q = va ∧ w.gone = [.page q]) (· ≠ .freed) := by
  refine spec_bind (R := fun _ w => ∃ q ∈ list, vaOf s q = va ∧ w.gone = [.page q]) ?_
    fun _ => spec_plain nofun fun _ _ _ freed _ => freed
  intro w unmoved
  have linked : Linked (nextOf s) 0 (w.state.tasks t).mappedPageHead list := by
    rw [unmoved.task]
    exact holds.linked
  exact delete_loop_reads linked w unmoved

theorem unmoved_lock {l : LockId} {E : Fault Stop → Prop} (stops : ∀ e, E (.stop e)) :
    Spec (Unmoved s t) (plain (spinLock l)) (fun _ => Unmoved s t) E := by
  refine spec_plain stops fun w _ s' unmoved ran => ?_
  obtain ⟨_, rfl⟩ := spin_lock_ok.mp ran
  exact ⟨unmoved.gone, unmoved.nodes, unmoved.task, unmoved.counts⟩

theorem unmoved_unlock {l : LockId} {E : Fault Stop → Prop} (stops : ∀ e, E (.stop e)) :
    Spec (Unmoved s t) (plain (spinUnlock l)) (fun _ => Unmoved s t) E := by
  refine spec_plain stops fun w _ s' unmoved ran => ?_
  obtain ⟨_, rfl⟩ := spin_unlock_ok.mp ran
  exact ⟨unmoved.gone, unmoved.nodes, unmoved.task, unmoved.counts⟩

theorem unmoved_alloc_page {E : Fault Stop → Prop} (stops : ∀ e, E (.stop e)) :
    Spec (Unmoved s t) (plain allocPage) (fun _ => Unmoved s t) E := by
  refine spec_plain stops fun w pa s' unmoved ran => ?_
  obtain ⟨rest, _, rfl, _⟩ := alloc_page_ok ran
  exact ⟨unmoved.gone, (nodes_taken ..).trans unmoved.nodes,
    (congrFun (tasks_taken ..) t).trans unmoved.task, (cow_taken ..).trans unmoved.counts⟩

theorem unmoved_get_task {E : Fault Stop → Prop} (stops : ∀ e, E (.stop e)) :
    Spec (Unmoved s t) (plain (getTask t))
      (fun task w => Unmoved s t w ∧ task = s.tasks t) E := by
  refine spec_plain stops fun w task s' unmoved ran => ?_
  obtain ⟨rfl, rfl⟩ := get_task_ok.mp ran
  exact ⟨unmoved, unmoved.task⟩

theorem fork_cow_page_reads (holds : Holds s t list) (mem : x ∈ list) :
    Spec (Unmoved s t) (forkCowPage t x)
      (fun _ w => pending s t x = true ∧ w.gone = [.page x] ∨
        pending s t x = false ∧ Unmoved s t w) (· ≠ .freed) := by
  refine spec_read (fun w unmoved => unmoved.there _) (s.nodes x)
    (fun w unmoved => congrFun unmoved.nodes x) ?_
  refine spec_bind (R := fun cnt w => Unmoved s t w ∧ cnt = s.cowTable (cowIndex (paOf s x)))
    (spec_plain nofun fun w cnt s' unmoved ran => ?_) fun cnt => spec_given fun counted => ?_
  · obtain ⟨_, rfl, rfl⟩ := get_cow_cnt_ok.mp ran
    exact ⟨unmoved, congrFun unmoved.counts _⟩
  · subst counted
    refine spec_ite (fun alone => ?_) fun shared => spec_pure _ fun w unmoved => .inr ⟨?_, unmoved⟩
    · refine spec_read (fun w unmoved => unmoved.there _) (s.nodes x)
        (fun w unmoved => congrFun unmoved.nodes x) ?_
      refine spec_bind (unmoved_alloc_page nofun) fun pa => ?_
      refine spec_bind (unmoved_lock nofun) fun _ => ?_
      refine spec_bind (unmoved_get_task nofun) fun task => spec_given fun same => ?_
      refine spec_bind (unmoved_unlock nofun) fun _ => ?_
      subst same
      cases found : findVmeNode (s.tasks t).vmAreas (s.nodes x).va
          (u64 ((s.nodes x).va + pgsize)) with
      | none => exact spec_throw _ nofun
      | some vma =>
        have decides : pending s t x = decide (PrivateWritable vma) := by
          simp [pending, alone, vaOf, found]
        refine spec_ite (fun writable => ?_) fun closed => ?_
        · refine spec_bind (pgunmap_reads holds) fun _ => spec_plain nofun ?_
          rintro w _ s' ⟨q, inside, at_va, gone⟩ _
          obtain rfl := holds.unique inside mem at_va
          exact .inl ⟨decides.trans (decide_eq_true writable), gone⟩
        · exact spec_pure _ fun w unmoved =>
            .inr ⟨decides.trans (decide_eq_false closed), unmoved⟩
    · simp [pending, shared]

theorem fork_cow_loop_reads (holds : Holds s t list) (inside : ∀ x ∈ ahead, x ∈ list)
    (linked : Linked (nextOf s) 0 cur ahead) :
    Spec (Unmoved s t) (forkCowMappingLoop t fuel cur)
      (fun _ _ => ∀ x ∈ ahead, pending s t x = false)
      (fun f => f = .freed → ∃ x ∈ ahead, pending s t x = true) := by
  induction fuel generalizing cur ahead with
  | zero => exact spec_throw _ nofun
  | succ fuel ih =>
    refine spec_ite (fun ended => spec_pure _ fun _ _ => ?_) fun real => ?_
    · cases ahead with
      | nil => exact fun x mem => absurd mem List.not_mem_nil
      | cons x rest => exact absurd (linked.1.symm.trans ended) linked.2.1
    · obtain ⟨rest, rfl, later⟩ := linked_head linked real
      have walk := ih (fun x mem => inside x (List.mem_cons_of_mem _ mem)) later
      refine spec_bind (spec_unread (fork_cow_page_reads holds (inside cur List.mem_cons_self)))
        fun _ => ?_
      cases moved : pending s t cur with
      | true =>
        refine spec_read_freed (fun w moves => ?_) fun _ => ⟨cur, List.mem_cons_self, moved⟩
        rcases moves with ⟨_, gone⟩ | ⟨stays, _⟩
        · rw [gone]
          exact List.mem_singleton_self _
        · cases stays
      | false =>
        have stays : ∀ w : Noted Kernel NodeId, (false = true ∧ w.gone = [.page cur] ∨
            false = false ∧ Unmoved s t w) → Unmoved s t w := by
          rintro w (⟨moves, _⟩ | ⟨_, unmoved⟩)
          · cases moves
          · exact unmoved
        refine spec_read (fun w page => (stays w page).there _) (s.nodes cur)
          (fun w page => congrFun (stays w page).nodes cur) ?_
        refine spec_stops (spec_weaken walk stays fun _ _ none_pending x mem => ?_)
          fun f found freed => ?_
        · rcases List.mem_cons.mp mem with rfl | mem
          · exact moved
          · exact none_pending x mem
        · obtain ⟨x, mem, pends⟩ := found freed
          exact ⟨x, List.mem_cons_of_mem _ mem, pends⟩

theorem fork_cow_mapping_reads (holds : Holds s t list) :
    Spec (Unmoved s t) (forkCowMapping t) (fun _ _ => ∀ x ∈ list, pending s t x = false)
      (fun f => f = .freed → ∃ x ∈ list, pending s t x = true) := by
  refine spec_bind (unmoved_lock nofun) fun _ => ?_
  refine spec_bind (R := fun k w => Unmoved s t w ∧ (k.tasks t).mappedPageHead = headOf s t)
    (spec_plain nofun fun w k s' unmoved ran => ?_) fun k => spec_given fun head => ?_
  · obtain ⟨rfl, rfl⟩ := get_ok.mp ran
    exact ⟨unmoved, by rw [unmoved.task]; rfl⟩
  · rw [head]
    exact spec_bind (fork_cow_loop_reads holds (fun _ mem => mem) holds.linked) fun _ =>
      spec_plain nofun fun _ _ _ none_pending _ => none_pending

structure Ahead (s : Kernel) (ahead : List Nat) (w : Noted Kernel NodeId) : Prop where
  nodes : w.state.nodes = s.nodes
  there : ∀ x ∈ ahead, NodeId.page x ∉ w.gone

theorem destroy_loop_reads (linked : Linked (nextOf s) 0 cur ahead) (once : ahead.Nodup) :
    Spec (Ahead s ahead) (destroyMappedPagesLoop fuel cur) (fun _ _ => True) (· ≠ .freed) := by
  induction fuel generalizing cur ahead with
  | zero => exact spec_throw _ nofun
  | succ fuel ih =>
    refine spec_ite (fun _ => spec_pure _ fun _ _ => trivial) fun real => ?_
    obtain ⟨rest, rfl, later⟩ := linked_head linked real
    obtain ⟨other, once'⟩ := List.nodup_cons.mp once
    have there : ∀ w, Ahead s (cur :: rest) w → NodeId.page cur ∉ w.gone :=
      fun w ahead => ahead.there cur List.mem_cons_self
    have known : ∀ w, Ahead s (cur :: rest) w → w.state.nodes cur = s.nodes cur :=
      fun w ahead => congrFun ahead.nodes cur
    refine spec_read there (s.nodes cur) known ?_
    refine spec_bind (R := fun _ => Ahead s (cur :: rest)) (spec_plain nofun ?_) fun _ => ?_
    · intro w _ s' ahead ran
      rw [dec_cow_cnt_ok ran]
      exact ⟨ahead.nodes, ahead.there⟩
    · refine spec_read there (s.nodes cur) known ?_
      refine spec_bind (R := fun _ => Ahead s (cur :: rest)) (spec_plain nofun ?_) fun cnt => ?_
      · intro w _ s' ahead ran
        obtain ⟨_, _, rfl⟩ := get_cow_cnt_ok.mp ran
        exact ahead
      · refine spec_read there (s.nodes cur) known ?_
        refine spec_bind (R := fun _ => Ahead s (cur :: rest)) (spec_plain nofun ?_) fun _ => ?_
        · intro w _ s' ahead ran
          rcases run_if_ok.mp ran with ⟨_, freed⟩ | ⟨_, rfl⟩
          · rw [free_page_ok freed]
            exact ⟨ahead.nodes, ahead.there⟩
          · exact ahead
        · refine spec_bind (R := fun _ => Ahead s rest) (spec_note_free nofun ?_) fun _ =>
            ih later once'
          intro w s' ahead ran
          rw [free_node_ok ran]
          refine ⟨ahead.nodes, fun x mem freed => ?_⟩
          rcases List.mem_cons.mp freed with same | freed
          · cases same
            exact other mem
          · exact ahead.there x (List.mem_cons_of_mem _ mem) freed

theorem destroy_mapped_pages_reads (holds : Holds s t list) :
    Spec (Unmoved s t) (destroyMappedPages t) (fun _ _ => True) (· ≠ .freed) := by
  refine spec_bind (R := fun k w => Unmoved s t w ∧ (k.tasks t).mappedPageHead = headOf s t)
    (spec_plain nofun fun w k s' unmoved ran => ?_) fun k => spec_given fun head => ?_
  · obtain ⟨rfl, rfl⟩ := get_ok.mp ran
    exact ⟨unmoved, by rw [unmoved.task]; rfl⟩
  · rw [head]
    exact spec_weaken (destroy_loop_reads holds.linked holds.nodup)
      (fun w unmoved => ⟨unmoved.nodes, fun _ _ => unmoved.there _⟩) fun _ _ _ => trivial

theorem find_loop_reads (linked : Linked (nextOf s) 0 cur ahead) :
    Spec (Unmoved s t) (findMappedPageLoop va fuel cur)
      (fun p w => Unmoved s t w ∧ (p = 0 ∧ va ∉ ahead.map (vaOf s) ∨ p ∈ ahead ∧ vaOf s p = va))
      (· ≠ .freed) := by
  induction fuel generalizing cur ahead with
  | zero => exact spec_throw _ nofun
  | succ fuel ih =>
    refine spec_ite (fun ended => spec_pure _ fun w unmoved => ⟨unmoved, .inl ⟨rfl, ?_⟩⟩)
      fun real => ?_
    · cases ahead with
      | nil => exact List.not_mem_nil
      | cons x rest => exact absurd (linked.1.symm.trans ended) linked.2.1
    · obtain ⟨rest, rfl, later⟩ := linked_head linked real
      refine spec_read (fun w unmoved => unmoved.there _) (s.nodes cur)
        (fun w unmoved => congrFun unmoved.nodes cur) ?_
      refine spec_ite (fun here => spec_pure _ fun w unmoved => ?_) fun elsewhere => ?_
      · exact ⟨unmoved, .inr ⟨List.mem_cons_self, here⟩⟩
      · refine spec_weaken (ih later) (fun _ unmoved => unmoved) fun p w ⟨unmoved, found⟩ => ?_
        refine ⟨unmoved, found.imp (fun ⟨null, new⟩ => ⟨null, ?_⟩)
          fun ⟨mem, here⟩ => ⟨List.mem_cons_of_mem _ mem, here⟩⟩
        rw [List.map_cons, List.mem_cons]
        exact fun same => same.elim (fun same => elsewhere same.symm) new

theorem find_mapped_page_reads (holds : Holds s t list) :
    Spec (Unmoved s t) (findMappedPage t va)
      (fun p w => Unmoved s t w ∧ (p = 0 ∧ va ∉ list.map (vaOf s) ∨ p ∈ list ∧ vaOf s p = va))
      (· ≠ .freed) := by
  refine spec_bind (R := fun k w => Unmoved s t w ∧ (k.tasks t).mappedPageHead = headOf s t)
    (spec_plain nofun fun w k s' unmoved ran => ?_) fun k => spec_given fun head => ?_
  · obtain ⟨rfl, rfl⟩ := get_ok.mp ran
    exact ⟨unmoved, by rw [unmoved.task]; rfl⟩
  · rw [head]
    exact find_loop_reads holds.linked

theorem fault_copy_reads {pa thePage : Nat} {vma : Option VmArea} (holds : Holds s t list)
    (mem : thePage ∈ list) (here : vaOf s thePage = va) {E : Fault Stop → Prop}
    (stops : ∀ f, E f) : Spec (Unmoved s t) (faultCopy t va pa thePage vma) (fun _ _ => False) E := by
  refine spec_bind (unmoved_lock fun _ => stops _) fun _ => ?_
  refine spec_read (fun w unmoved => unmoved.there _) (s.nodes thePage)
    (fun w unmoved => congrFun unmoved.nodes thePage) ?_
  refine spec_bind (R := fun _ => Unmoved s t) (spec_plain (fun _ => stops _) ?_) fun _ => ?_
  · intro w _ s' unmoved ran
    obtain ⟨_, rfl⟩ := stop_unless_ok.mp ran
    exact unmoved
  refine spec_bind (R := fun _ => Unmoved s t) (spec_plain (fun _ => stops _) ?_) fun k => ?_
  · intro w _ s' unmoved ran
    obtain ⟨_, rfl⟩ := get_ok.mp ran
    exact unmoved
  refine spec_bind (R := fun _ => Unmoved s t) (spec_plain (fun _ => stops _) ?_) fun _ => ?_
  · intro w _ s' unmoved ran
    obtain ⟨_, rfl⟩ := copy_page_ok ran
    exact ⟨unmoved.gone, unmoved.nodes, unmoved.task, unmoved.counts⟩
  have freed : Spec (Unmoved s t) (pgunmap t va) (fun _ w => w.gone = [.page thePage]) E := by
    refine spec_stops (spec_weaken (pgunmap_reads holds) (fun _ unmoved => unmoved) ?_)
      fun f _ => stops f
    rintro _ w ⟨q, inside, at_va, gone⟩
    obtain rfl := holds.unique inside mem (at_va.trans here.symm)
    exact gone
  refine spec_bind freed fun _ => ?_
  cases vma with
  | none => exact spec_throw _ (stops _)
  | some vma =>
    refine spec_bind (R := fun _ w => w.gone = [.page thePage])
      (spec_plain (fun _ => stops _) fun _ _ _ gone _ => gone) fun _ => ?_
    refine spec_bind (R := fun _ w => w.gone = [.page thePage])
      (spec_plain (fun _ => stops _) fun _ _ _ gone _ => gone) fun _ => ?_
    refine spec_read_freed (fun w gone => ?_) (stops _)
    rw [gone]
    exact List.mem_singleton_self _

/-- page_fault returns without a read of a freed node only when the page is not mapped. -/
theorem page_fault_reads {ref : Nat} (holds : Holds s s.currentTask list) :
    Spec (· = ⟨s, []⟩) (pageFault ref) (fun _ _ => roundDown ref ∉ list.map (vaOf s))
      (fun f => f = .freed → roundDown ref ∈ list.map (vaOf s)) := by
  refine spec_bind (R := fun k w => Unmoved s s.currentTask w ∧ k = s)
    (spec_plain nofun fun w k s' start ran => ?_) fun k => spec_given fun same => ?_
  · subst start
    obtain ⟨rfl, rfl⟩ := get_ok.mp ran
    exact ⟨⟨rfl, rfl, rfl, rfl⟩, rfl⟩
  subst same
  refine spec_bind (unmoved_alloc_page nofun) fun pa => ?_
  refine spec_ite (fun area => ?_) fun out => spec_pure _ fun w _ mem => ?_
  · refine spec_bind (R := fun _ => Unmoved k k.currentTask) (spec_plain nofun ?_) fun _ => ?_
    · intro w _ s' unmoved ran
      simp only [copyInitCode, bind_ok, get_ok] at ran
      obtain ⟨_, _, ⟨rfl, rfl⟩, ran⟩ := ran
      split at ran
      · obtain ⟨_, rfl⟩ := copy_page_ok ran
        exact ⟨unmoved.gone, unmoved.nodes, unmoved.task, unmoved.counts⟩
      · obtain ⟨_, rfl⟩ := pure_ok.mp ran
        exact unmoved
    refine spec_bind (unmoved_lock nofun) fun _ => ?_
    refine spec_bind (spec_unread (find_mapped_page_reads holds)) fun thePage =>
      spec_given fun found => ?_
    refine spec_bind (unmoved_get_task nofun) fun task => spec_given fun _ => ?_
    refine spec_ite (fun null => ?_) fun real => ?_
    · have new : roundDown ref ∉ list.map (vaOf k) := by
        rcases found with ⟨_, new⟩ | ⟨mem, _⟩
        · exact new
        · exact absurd null (linked_real holds.linked _ mem)
      split
      · exact spec_plain nofun fun _ _ _ _ _ => new
      · exact spec_plain nofun fun _ _ _ _ _ => new
    · obtain ⟨mem, here⟩ := found.resolve_left fun absent => real absent.1
      exact spec_weaken (fault_copy_reads holds mem here fun f _ => List.mem_map.mpr
        ⟨thePage, mem, here⟩) (fun _ unmoved => unmoved) fun _ _ never => never.elim
  · obtain ⟨p, inside, at_ref⟩ := List.mem_map.mp mem
    have page := holds.page p inside
    rw [at_ref] at page
    exact out page.1

theorem delete_map_page_reads (holds : Holds s t list) :
    Spec (Unmoved s t) (deleteMapPage t va) (fun _ _ => True) (· ≠ .freed) := by
  refine spec_bind (R := fun k w => Unmoved s t w ∧ (k.tasks t).mappedPageHead = headOf s t)
    (spec_plain nofun fun w k s' unmoved ran => ?_) fun k => spec_given fun head => ?_
  · obtain ⟨rfl, rfl⟩ := get_ok.mp ran
    exact ⟨unmoved, by rw [unmoved.task]; rfl⟩
  · rw [head]
    exact spec_weaken (delete_loop_reads holds.linked) (fun _ unmoved => unmoved)
      fun _ _ _ => trivial

theorem get_pid_reads :
    Spec (· = ⟨s, []⟩) getPid (fun _ _ => s.pHead = 0) (fun f => f = .freed → s.pHead ≠ 0) := by
  refine spec_bind (R := fun _ w => w.gone = [] ∧ w.state.pHead = s.pHead ∧
      w.state.pidNodes = s.pidNodes) (spec_plain nofun fun w _ s' start ran => ?_) fun _ => ?_
  · subst start
    obtain ⟨_, rfl⟩ := spin_lock_ok.mp ran
    exact ⟨rfl, rfl, rfl⟩
  refine spec_bind (R := fun k w => (w.gone = [] ∧ w.state.pidNodes = s.pidNodes) ∧
      k.pHead = s.pHead) (spec_plain nofun fun w k s' start ran => ?_) fun k =>
      spec_given fun head => ?_
  · obtain ⟨rfl, rfl⟩ := get_ok.mp ran
    obtain ⟨none_gone, head, nodes⟩ := start
    exact ⟨⟨none_gone, nodes⟩, head⟩
  rw [head]
  refine spec_ite (fun empty => ?_) fun some_pid => ?_
  · refine spec_bind (R := fun _ _ => True) (spec_plain nofun fun _ _ _ _ _ => trivial) fun _ => ?_
    exact spec_pure _ fun _ _ => empty
  · refine spec_read ?_ (s.pidNodes s.pHead) (fun w start => congrFun start.2 _) ?_
    · rintro w ⟨none_gone, _⟩
      rw [none_gone]
      exact List.not_mem_nil
    · refine spec_bind (R := fun _ w => NodeId.pid s.pHead ∈ w.gone)
        (spec_note_free nofun fun w s' _ _ => List.mem_cons_self) fun _ => ?_
      exact spec_read_freed (fun w gone => gone) fun _ => some_pid

end Reads

section Calls

def kforkBegin : Uproc.Kern Unit := do
  let newTask ← allocTask
  uprocCreate newTask

/-- The functions that free nodes, for some task, fork_cow_mapping as kfork calls it. -/
inductive NodeCall where
  | getPid
  | deleteMapPage (va : Nat)
  | forkCowMapping
  | pageFault (ref : Nat)
  | destroyMappedPages

def NodeCall.perform (t : Nat) : NodeCall → Uproc.Kern Unit
  | .getPid => discard Uproc.getPid
  | .deleteMapPage va => Uproc.deleteMapPage t va
  | .forkCowMapping => do
    kforkBegin
    Uproc.forkCowMapping t
  | .pageFault ref => Uproc.pageFault ref
  | .destroyMappedPages => Uproc.destroyMappedPages t

def NodeCall.noted (t : Nat) : NodeCall → Nodes.Kern Unit
  | .getPid => discard Nodes.getPid
  | .deleteMapPage va => Nodes.deleteMapPage t va
  | .forkCowMapping => do
    plain kforkBegin
    Nodes.forkCowMapping t
  | .pageFault ref => Nodes.pageFault ref
  | .destroyMappedPages => Nodes.destroyMappedPages t

/-- The call reads a field of a node it has passed to pmm->free. -/
def ReadsFreed (s : Kernel) (t : Nat) (call : NodeCall) : Prop :=
  (call.noted t).run ⟨s, []⟩ = .error .freed

def CountsMapped (s : Kernel) (t : Nat) : NodeCall → Prop
  | .pageFault ref => ∀ list, Linked (nextOf s) 0 (headOf s t) list → ∀ x ∈ list,
      vaOf s x = roundDown ref → ∀ u s', (Uproc.pageFault ref).run s = .ok (u, s') →
        s'.cowTable = Function.update s.cowTable (cowIndex (paOf s x))
          (s.cowTable (cowIndex (paOf s x)) - 1)
  | .getPid | .deleteMapPage _ | .forkCowMapping | .destroyMappedPages => True

structure NodesSound (s : Kernel) (t : Nat) (call : NodeCall) : Prop where
  reads : ¬ ReadsFreed s t call
  counts : CountsMapped s t call

/-- The call frees a node it goes on to read: a stored pid, a page that fork_cow_mapping moves, or
    a page that is mapped already. -/
def FreesEarly (s : Kernel) (t : Nat) : NodeCall → Prop
  | .getPid => s.pHead ≠ 0
  | .forkCowMapping =>
    ∃ list, Linked (nextOf s) 0 (headOf s t) list ∧ ∃ x ∈ list, pending s t x = true
  | .pageFault ref =>
    ∃ list, Linked (nextOf s) 0 (headOf s t) list ∧ roundDown ref ∈ list.map (vaOf s)
  | .deleteMapPage _ | .destroyMappedPages => False

def Returns (s : Kernel) (t : Nat) (call : NodeCall) : Prop :=
  ∃ u s', (call.perform t).run s = .ok (u, s')

variable {s s' : Kernel} {t : Nat} {list : List Nat}

theorem follows_node_call (t : Nat) (call : NodeCall) (w : Noted Kernel NodeId) :
    Follows (call.noted t) (call.perform t) w := by
  cases call with
  | getPid => exact follows_bind follows_get_pid fun _ w1 _ => follows_pure _ w1
  | deleteMapPage va => exact follows_delete_map_page
  | forkCowMapping =>
    exact follows_bind (follows_plain _ w) fun _ w1 _ => follows_fork_cow_mapping
  | pageFault ref => exact follows_page_fault
  | destroyMappedPages => exact follows_destroy_mapped_pages

theorem frees_early_fork (holds : Holds s t list) :
    FreesEarly s t .forkCowMapping ↔ ∃ x ∈ list, pending s t x = true := by
  constructor
  · rintro ⟨list', linked, pends⟩
    rwa [linked_unique linked holds.linked] at pends
  · exact fun pends => ⟨list, holds.linked, pends⟩

theorem frees_early_fault {ref : Nat} (holds : Holds s t list) :
    FreesEarly s t (.pageFault ref) ↔ roundDown ref ∈ list.map (vaOf s) := by
  constructor
  · rintro ⟨list', linked, mapped⟩
    rwa [linked_unique linked holds.linked] at mapped
  · exact fun mapped => ⟨list, holds.linked, mapped⟩

theorem spec_discard {α : Type} {x : Nodes.Kern α} {P Q : Noted Kernel NodeId → Prop}
    {E : Fault Stop → Prop} (spec : Spec P x (fun _ => Q) E) :
    Spec P (discard x) (fun _ => Q) E :=
  spec_bind spec fun _ => spec_pure _ fun _ post => post

theorem unmoved_kfork_begin (used : s.taskUsed t = true) {E : Fault Stop → Prop}
    (stops : ∀ e, E (.stop e)) :
    Spec (· = ⟨s, []⟩) (plain kforkBegin) (fun _ => Unmoved s t) E := by
  refine spec_plain stops fun w _ s' start ran => ?_
  subst start
  simp only [kforkBegin, uprocCreate, bind_ok, spin_lock_ok, modify_ok, spin_unlock_ok] at ran
  obtain ⟨c, _, alloc, _, _, ⟨_, rfl⟩, _, _, rfl, _, rfl⟩ := ran
  obtain ⟨rest, _, _, unused, rfl⟩ := alloc_task_ok alloc
  have other : t ≠ c := by
    rintro rfl
    rw [used] at unused
    cases unused
  exact ⟨rfl, rfl, Function.update_of_ne other .., rfl⟩

/-- A call that returns without a read of a freed node does not free early, and one with such a
    read does. -/
theorem node_call_reads (holds : Holds s s.currentTask list)
    (used : s.taskUsed s.currentTask = true) (call : NodeCall) :
    Spec (· = ⟨s, []⟩) (call.noted s.currentTask) (fun _ _ => ¬ FreesEarly s s.currentTask call)
      (fun f => f = .freed → FreesEarly s s.currentTask call) := by
  have start : ∀ w : Noted Kernel NodeId, w = ⟨s, []⟩ → Unmoved s s.currentTask w := by
    rintro w rfl
    exact ⟨rfl, rfl, rfl, rfl⟩
  cases call with
  | getPid => exact spec_discard (spec_weaken get_pid_reads (fun _ w => w) fun _ _ none_stored =>
      not_not.mpr none_stored)
  | deleteMapPage va =>
    exact spec_weaken (spec_unread (delete_map_page_reads holds)) start fun _ _ _ => id
  | forkCowMapping =>
    refine spec_bind (unmoved_kfork_begin used nofun) fun _ => ?_
    refine spec_stops (spec_weaken (fork_cow_mapping_reads holds) (fun _ w => w)
      fun _ _ none_pending => ?_) fun f found freed => (frees_early_fork holds).mpr (found freed)
    rw [frees_early_fork holds]
    rintro ⟨x, mem, pends⟩
    rw [none_pending x mem] at pends
    cases pends
  | pageFault ref =>
    refine spec_stops (spec_weaken (page_fault_reads holds) (fun _ w => w) fun _ _ new => ?_)
      fun f found freed => (frees_early_fault holds).mpr (found freed)
    rwa [frees_early_fault holds]
  | destroyMappedPages =>
    exact spec_weaken (spec_unread (destroy_mapped_pages_reads holds)) start fun _ _ _ => id

theorem nodes_sound_of_late (holds : Holds s s.currentTask list)
    (used : s.taskUsed s.currentTask = true) {call : NodeCall}
    (late : ¬ FreesEarly s s.currentTask call) : NodesSound s s.currentTask call := by
  refine ⟨fun freed => ?_, ?_⟩
  · exact late ((node_call_reads holds used call _ rfl).2 _ freed rfl)
  · cases call with
    | pageFault ref =>
      intro list' linked x mem here
      exact absurd ⟨list', linked, List.mem_map.mpr ⟨x, mem, here⟩⟩ late
    | getPid | deleteMapPage | forkCowMapping | destroyMappedPages => trivial

theorem late_of_nodes_sound (holds : Holds s s.currentTask list)
    (used : s.taskUsed s.currentTask = true) {call : NodeCall}
    (returns : Returns s s.currentTask call) (sound : NodesSound s s.currentTask call) :
    ¬ FreesEarly s s.currentTask call := by
  obtain ⟨u, s', ran⟩ := returns
  have follows := follows_node_call s.currentTask call ⟨s, []⟩
  cases noted : (call.noted s.currentTask).run ⟨s, []⟩ with
  | ok p => exact (node_call_reads holds used call _ rfl).1 p.1 p.2 noted
  | error f =>
    cases f with
    | freed => exact absurd noted sound.reads
    | stop e =>
      have stops := follows_stop follows noted
      rw [ran] at stops
      cases stops

end Calls

section Runs

inductive NodeEvent where
  | call (e : Event)
  | storePid (pid : Nat) (choices : List Nat)

def nodeStep (s : Kernel) : NodeEvent → Option Kernel
  | .call e => step s e
  | .storePid pid choices =>
    match (storePid pid).run { s with choices := choices } with
    | .ok (_, s') => some s'
    | .error _ => none

variable {s s' : Kernel} {lists : Nat → List Nat}

theorem owned_node_step {e : NodeEvent} (owned : Owned s lists) (taken : nodeStep s e = some s') :
    ∃ lists', Owned s' lists' := by
  cases e with
  | call e => exact owned_step owned taken
  | storePid pid choices =>
    rw [nodeStep] at taken
    split at taken
    · rename_i u k ran
      cases taken
      obtain ⟨n, rest, _, _, _, rfl⟩ := store_pid_ok ran
      exact ⟨lists, owned.congr rfl rfl rfl rfl (fun _ => rfl) fun _ => rfl⟩
    · cases taken

/-- In every state of a run a call that does not free early is sound, and one that returns is sound
    only then. -/
theorem nodes_sound_iff_late (nodes : Nat → MPage) (phys : Nat → Nat → Nat) (initCode : List Nat)
    (events : List NodeEvent) : Throughout nodeStep (fun s => ∀ e, ∀ t ∈ s.live, ∀ call,
      (¬ FreesEarly (s.begun e t) t call → NodesSound (s.begun e t) t call) ∧
        (Returns (s.begun e t) t call →
          (NodesSound (s.begun e t) t call ↔ ¬ FreesEarly (s.begun e t) t call)))
      (uprocInit nodes phys initCode) events := by
  have preserved : ∀ s e s', (∃ lists, Owned s lists) → nodeStep s e = some s' →
      ∃ lists, Owned s' lists := by
    rintro s e s' ⟨lists, owned⟩ taken
    exact owned_node_step owned taken
  refine throughout_of_invariant preserved ?_ events ?_
  · rintro s ⟨lists, owned⟩ e t live call
    have begun := owned.begun e t
    have holds : Holds (s.begun e t) t (lists t) := begun.holds t live
    have used : (s.begun e t).taskUsed t = true := begun.taskUsed t live
    have late : ¬ FreesEarly (s.begun e t) t call → NodesSound (s.begun e t) t call :=
      fun late => nodes_sound_of_late holds used late
    exact ⟨late, fun returns => ⟨late_of_nodes_sound holds used returns, late⟩⟩
  · refine ⟨fun _ => [], ?_, ?_, ?_, List.nodup_nil⟩ <;> intro t live <;> cases live

def writtenPage : List NodeEvent :=
  [.call ⟨.create, [1], 9⟩, .call ⟨.pageFault 1 0x100000001234, [0x5000, 100], 9⟩]

def forkEvent : Event := ⟨.kfork 1, [2, 0x6000, 100], 9⟩

instance decidableReadsFreed (s : Kernel) (t : Nat) (call : NodeCall) :
    Decidable (ReadsFreed s t call) :=
  match ran : (call.noted t).run ⟨s, []⟩ with
  | .error .freed => isTrue ran
  | .ok _ => isFalse fun reads => by
    rw [ReadsFreed, ran] at reads
    cases reads
  | .error (.stop _) => isFalse fun reads => by
    rw [ReadsFreed, ran] at reads
    cases reads

/-- fork_cow_mapping reads `next` of the node pgunmap has freed. -/
theorem moved_node_read :
    ¬ Throughout nodeStep (fun s => ∀ e, ∀ t ∈ s.live, ∀ call, NodesSound (s.begun e t) t call)
      emptyKernel writtenPage := by
  intro sound
  have ends : ((run nodeStep emptyKernel writtenPage).map fun s =>
      (s.live, decide (ReadsFreed (s.begun forkEvent 1) 1 .forkCowMapping))) =
      some ([1], true) := by
    decide +kernel
  obtain ⟨s, ran, ends⟩ := Option.map_eq_some_iff.mp ends
  obtain ⟨live, reads⟩ := Prod.mk.inj ends
  have live : 1 ∈ s.live := by
    rw [live]
    exact List.mem_singleton_self 1
  exact (throughout_of_run sound ran forkEvent 1 live .forkCowMapping).reads (of_decide_eq_true reads)

end Runs

end Nodes

end Uproc
