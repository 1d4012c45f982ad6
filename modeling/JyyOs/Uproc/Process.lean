import JyyOs.Uproc.Pages
import JyyOs.Library.PartialRun

/-!
uproc.c: process ids, uproc_create, kfork and kexit, and runs of the module's calls. An event
carries what its environment does: the results of pmm->alloc and rand().
-/
namespace Uproc

open Hoare

/-- slab_free writes to the first word, `pid`; `next` is read from the freed node. -/
def getPid : Kern Nat := do
  spinLock .pid
  let s ← get
  if s.pHead = 0 then
    spinUnlock .pid
    return 0
  else
    let node := s.pidNodes s.pHead
    set { s with
      pidUsed := Function.update s.pidUsed s.pHead false
      pHead := node.next
      pTail := if node.next = 0 then 0 else s.pTail }
    spinUnlock .pid
    return node.pid

def enqueuePid (newNode : Nat) : Kern Unit := do
  let s ← get
  if s.pHead = 0 then
    stopUnless (s.pTail = 0) .panic
    set { s with pHead := newNode, pTail := newNode }
  else
    let nodes := Function.update s.pidNodes s.pTail { s.pidNodes s.pTail with next := newNode }
    set { s with pidNodes := nodes, pTail := newNode }

def storePid (pid : Nat) : Kern Unit := do
  spinLock .pid
  let newNode ← allocPidNode
  modify fun s => { s with pidNodes := Function.update s.pidNodes newNode ⟨pid, 0⟩ }
  enqueuePid newNode
  spinUnlock .pid

def maxTask : Nat := 32768

def newPid : Kern Nat := do
  let s ← get
  if s.taskCnt = maxTask then getPid
  else
    set { s with taskCnt := s.taskCnt + 1 }
    return s.taskCnt

def createdTask (old : Task) : Task :=
  { vmAreas := [], mappedPageHead := 0, table := .absent, waitSem := old.waitSem
    ppid := 0, pid := 0, retstate := 0, block := false, killed := false }

def Kernel.created (s : Kernel) (t : Nat) : Kernel :=
  let s := (s.setLock (.vme t) false).setLock (.mp t) false
  { s.setTask t (createdTask (s.tasks t)) with live := t :: s.live }

def uprocCreate (t : Nat) : Kern Unit := do
  spinLock .taskInit
  modify fun s => s.created t
  spinUnlock .taskInit

/-- kfork from new_pid on. -/
def kforkEnter (newTask : Nat) : Kern Nat := do
  let newId ← newPid
  modify fun s => s.setTask newTask { s.tasks newTask with pid := newId }
  spinLock .taskInit
  modify fun s => { s with taskList := Function.update s.taskList newId newTask }
  spinUnlock .taskInit
  return newId

def kfork (task : Nat) : Kern Nat := do
  let newTask ← allocTask
  uprocCreate newTask
  forkCowMapping task
  forkCopyingVmePages task newTask
  forkCoppyingNewMappedPages task newTask
  modify fun s => s.setTask newTask { s.tasks newTask with ppid := (s.tasks task).pid }
  kforkEnter newTask

/-- The wake-up of kmt_sem_signal: the waiter picked by rand(), its slot taken by the last. -/
def wakeOne (t : Nat) : Kern Unit := do
  let r ← choose
  modify fun s =>
    let sem := (s.tasks t).waitSem
    let i := r % sem.taskList.length
    let woken := sem.taskList.getD i 0
    let left := (sem.taskList.set i (sem.taskList.getLastD 0)).dropLast
    let s := s.setTask t { s.tasks t with waitSem := { sem with taskList := left } }
    s.setTask woken { s.tasks woken with block := false }

def semSignal (t : Nat) : Kern Unit := do
  spinLock (.waitSem t)
  let s ← get
  let sem := (s.tasks t).waitSem
  let resource := sem.resource + 1
  set (s.setTask t { s.tasks t with waitSem := { sem with resource := resource } })
  runIf (resource ≤ 0 ∧ sem.taskList ≠ []) (wakeOne t)
  spinUnlock (.waitSem t)

/-- The loop of kexit over task_list, with the task found or the last one looked at. -/
def fatherLoop (ppid : Nat) (status : Int) : Nat → Nat → Nat → Kern Nat
  | 0, _, father => return father
  | left + 1, i, _ => do
    let s ← get
    let father := s.taskList i
    stopUnless (father ≠ 0) .null
    if (s.tasks father).pid = ppid then
      set (s.setTask father { s.tasks father with retstate := status })
      return father
    else fatherLoop ppid status left (i + 1) father

def notifyFather (task : Nat) (status : Int) : Kern Unit := do
  let t ← getTask task
  if t.ppid ≠ 0 then
    let father ← fatherLoop t.ppid status (maxTask - 1) 1 0
    semSignal father
  else return

def destroyVmeArea (task : Nat) : Kern Unit :=
  modify fun s => s.setTask task { s.tasks task with vmAreas := [] }

def unprotect (task : Nat) : Kern Unit :=
  modify fun s => s.setTask task { s.tasks task with table := .absent }

def destroyTask (task : Nat) : Kern Unit := do
  spinLock (.vme task)
  destroyMappedPages task
  destroyVmeArea task
  unprotect task
  spinLock (.vme task)

def kmtTeardown : Kern Unit := do
  spinLock .taskInit
  spinUnlock .taskInit

def freeTask (task : Nat) : Kern Unit :=
  modify fun s => { s with taskUsed := Function.update s.taskUsed task false }

def markKilled : Kern Unit :=
  modify fun s => s.setTask s.currentTask { s.tasks s.currentTask with killed := true }

def kexit (task : Nat) (status : Int) : Kern Int := do
  markKilled
  notifyFather task status
  let t ← getTask task
  storePid t.pid
  destroyTask task
  kmtTeardown
  freeTask task
  return status

def Task.translate (task : Task) (addr : Nat) : Option Pte :=
  if InArea addr then task.entry (roundDown addr) else none

/-- A store of user code: through its page table, or into page_fault. -/
def userStore (task addr byte : Nat) : Kern Unit := do
  let s ← get
  match (s.tasks task).translate addr with
  | some ⟨pa, true⟩ =>
    let page := Function.update (s.phys pa) (addr % pgsize) byte
    set { s with phys := Function.update s.phys pa page }
  | _ => pageFault addr

inductive Call where
  | create
  | pageFault (task ref : Nat)
  | kmmap (task addr : Nat) (length prot flags : Int)
  | kfork (task : Nat)
  | destroyMappedPages (task : Nat)
  | userStore (task addr byte : Nat)

structure Event where
  call : Call
  choices : List Nat
  rounds : Nat

def newProcess : Kern Unit := do
  let t ← allocTask
  uprocCreate t

def onLive {α : Type} (task : Nat) (x : Kern α) : Kern Unit := do
  let s ← get
  stopUnless (task ∈ s.live) .infeasible
  set { s with currentTask := task }
  let _ ← x

def leave (task : Nat) : Kern Unit :=
  modify fun s => { s with live := s.live.erase task }

def perform : Call → Kern Unit
  | .create => newProcess
  | .pageFault task ref => onLive task (pageFault ref)
  | .kmmap task addr length prot flags => onLive task (kmmap task addr length prot flags)
  | .kfork task => onLive task (kfork task)
  | .destroyMappedPages task => onLive task do
    destroyMappedPages task
    leave task
  | .userStore task addr byte => onLive task (userStore task addr byte)

def step (s : Kernel) (e : Event) : Option Kernel :=
  let s := { s with choices := e.choices, rounds := e.rounds, freed := [] }
  match (perform e.call).run s with
  | .ok (_, s') => some s'
  | .error _ => none

def noTask : Task :=
  { vmAreas := [], mappedPageHead := 0, table := .absent, waitSem := ⟨0, []⟩
    ppid := 0, pid := 0, retstate := 0, block := false, killed := false }

/-- uproc_init before it creates the first process, on arbitrary memory. -/
def uprocInit (nodes : Nat → MPage) (phys : Nat → Nat → Nat) (initCode : List Nat) : Kernel :=
  { tasks := fun _ => noTask
    taskUsed := fun _ => false
    nodes := nodes
    nodeUsed := fun _ => false
    frameUsed := fun _ => false
    phys := phys
    cowTable := fun _ => 0
    locks := fun _ => false
    taskList := fun _ => 0
    taskCnt := 1
    pidNodes := fun _ => ⟨0, 0⟩
    pidUsed := fun _ => false
    pHead := 0
    pTail := 0
    currentTask := 0
    initCode := initCode
    choices := []
    rounds := 0
    live := []
    freed := [] }

end Uproc
