import JyyOs.Library.Hoare
import JyyOs.Library.Radix
import Mathlib.Logic.Function.Basic
import Mathlib.Algebra.Group.Int.Defs
import Mathlib.Algebra.Group.Nat.Defs

/-!
The state of uproc.c and what its functions call: the spinlocks the CPU holds, the objects of
pmm->alloc, the page tables of vme.c and cow_table. Tasks, M_PAGE and PID_Q nodes and page
frames are addresses of their own kind, 0 is NULL. What pmm->alloc and rand() return is read from
`choices`, a walk of a list gives up after `rounds` nodes. A page may be NULL; where the code goes
on to use a NULL task_t, M_PAGE or PID_Q node the run ends as `Stop.null`, although the kernel maps
page 0 and would run on. Areas, AddrSpaces and page tables are always allocated. `live` are the
tasks with mapped pages of their own, `freed` the pages a call gave back.
-/
namespace Uproc

open Hoare Radix

/-- How a call ends without returning. `endless` and `infeasible` say that `rounds` or
    `choices` describe no execution of the code. -/
inductive Stop where
  | panic
  | null
  | deadlock
  | endless
  | infeasible
  deriving DecidableEq, Repr

inductive LockId where
  | vme (task : Nat)
  | mp (task : Nat)
  | waitSem (task : Nat)
  | cow
  | pid
  | taskInit
  deriving DecidableEq, Repr

structure VmArea where
  vmStart : Nat
  vmEnd : Nat
  vmProt : Nat
  vmFlags : Nat
  deriving DecidableEq, Repr

structure MPage where
  va : Nat
  pa : Nat
  next : Nat

structure PidNode where
  pid : Nat
  next : Nat

structure Pte where
  pa : Nat
  writable : Bool
  deriving DecidableEq, Repr

structure Sem where
  resource : Int
  taskList : List Nat

structure Task where
  vmAreas : List VmArea
  mappedPageHead : Nat
  table : Table Pte
  waitSem : Sem
  ppid : Nat
  pid : Nat
  retstate : Int
  block : Bool
  killed : Bool

structure Kernel where
  tasks : Nat → Task
  taskUsed : Nat → Bool
  nodes : Nat → MPage
  nodeUsed : Nat → Bool
  frameUsed : Nat → Bool
  phys : Nat → Nat → Nat
  cowTable : Nat → Int
  locks : LockId → Bool
  taskList : Nat → Nat
  taskCnt : Nat
  pidNodes : Nat → PidNode
  pidUsed : Nat → Bool
  pHead : Nat
  pTail : Nat
  currentTask : Nat
  initCode : List Nat
  choices : List Nat
  rounds : Nat
  live : List Nat
  freed : List Nat

abbrev Kern := Prog Kernel Stop

def Kernel.setTask (s : Kernel) (t : Nat) (task : Task) : Kernel :=
  { s with tasks := Function.update s.tasks t task }

def Kernel.setNode (s : Kernel) (p : Nat) (page : MPage) : Kernel :=
  { s with nodes := Function.update s.nodes p page }

def Kernel.setLock (s : Kernel) (l : LockId) (held : Bool) : Kernel :=
  { s with locks := Function.update s.locks l held }

def Kernel.setCow (s : Kernel) (i : Nat) (cnt : Int) : Kernel :=
  { s with cowTable := Function.update s.cowTable i cnt }

def stopUnless (c : Prop) [Decidable c] (e : Stop) : Kern Unit :=
  if c then pure () else throw e

def runIf (c : Prop) [Decidable c] (x : Kern Unit) : Kern Unit :=
  if c then x else pure ()

def getTask (t : Nat) : Kern Task := do
  let s ← get
  return s.tasks t

def spinLock (l : LockId) : Kern Unit := do
  let s ← get
  stopUnless (s.locks l = false) .deadlock
  set (s.setLock l true)

def spinUnlock (l : LockId) : Kern Unit := do
  let s ← get
  stopUnless (s.locks l = true) .panic
  set (s.setLock l false)

def choose : Kern Nat := do
  let s ← get
  match s.choices with
  | [] => throw .infeasible
  | c :: rest =>
    set { s with choices := rest }
    return c

def pgsize : Nat := 4096

/-- pmm->alloc of a page: NULL or an aligned page that is not in use. -/
def allocPage : Kern Nat := do
  let pa ← choose
  let s ← get
  if pa = 0 then return 0
  else
    stopUnless (s.frameUsed pa = false ∧ pa % pgsize = 0) .infeasible
    set { s with frameUsed := Function.update s.frameUsed pa true }
    return pa

def freePage (pa : Nat) : Kern Unit := do
  let s ← get
  set { s with frameUsed := Function.update s.frameUsed pa false, freed := pa :: s.freed }

/-- pmm->alloc of an M_PAGE; its caller writes to it at once. -/
def allocNode : Kern Nat := do
  let p ← choose
  let s ← get
  stopUnless (p ≠ 0) .null
  stopUnless (s.nodeUsed p = false) .infeasible
  set { s with nodeUsed := Function.update s.nodeUsed p true }
  return p

/-- slab_free links the block through its first word, `as`, and leaves the other fields. -/
def freeNode (p : Nat) : Kern Unit := do
  let s ← get
  set { s with nodeUsed := Function.update s.nodeUsed p false }

def allocTask : Kern Nat := do
  let t ← choose
  let s ← get
  stopUnless (t ≠ 0) .null
  stopUnless (s.taskUsed t = false) .infeasible
  set { s with taskUsed := Function.update s.taskUsed t true }
  return t

def allocPidNode : Kern Nat := do
  let p ← choose
  let s ← get
  stopUnless (p ≠ 0) .null
  stopUnless (s.pidUsed p = false) .infeasible
  set { s with pidUsed := Function.update s.pidUsed p true }
  return p

def u64 (n : Nat) : Nat := n % 2 ^ 64

def addLength (addr : Nat) (length : Int) : Nat := (((addr : Int) + length) % 2 ^ 64).toNat

def toInt32 (n : Int) : Int := (n + 2 ^ 31) % 2 ^ 32 - 2 ^ 31

def roundDown (a : Nat) : Nat := a / pgsize * pgsize

def roundUp (a : Nat) : Nat := u64 (a + (pgsize - 1)) / pgsize * pgsize

def areaStart : Nat := 0x100000000000
def areaEnd : Nat := 0x108000000000

def InArea (va : Nat) : Prop := areaStart ≤ va ∧ va < areaEnd

instance (va : Nat) : Decidable (InArea va) := inferInstanceAs (Decidable (_ ∧ _))

def mmapNone : Nat := 0
def mmapRead : Nat := 1
def mmapWrite : Nat := 2

def ptPath (va : Nat) : List Nat :=
  [(va &&& 0xff8000000000) >>> 39, (va &&& 0x007fc0000000) >>> 30,
    (va &&& 0x00003fe00000) >>> 21, (va &&& 0x0000001ff000) >>> 12]

def Task.entry (task : Task) (va : Nat) : Option Pte := lookup task.table (ptPath va)

def Task.setEntry (task : Task) (va : Nat) (e : Option Pte) : Task :=
  { task with table := store task.table (ptPath va) e }

/-- map of vme.c; pgallocz panics when no page is left for a table. -/
def map (t va pa prot : Nat) : Kern Unit := do
  stopUnless (InArea va) .panic
  stopUnless (va = roundDown va ∧ pa = roundDown pa) .panic
  let s ← get
  let task := s.tasks t
  if prot = mmapNone then
    stopUnless ((task.entry va).isSome) .panic
    set (s.setTask t (task.setEntry va none))
  else
    stopUnless ((task.entry va).isNone) .panic
    set (s.setTask t (task.setEntry va (some ⟨pa, prot &&& mmapWrite ≠ 0⟩)))

def cowIndex (pa : Nat) : Nat := roundDown pa / pgsize

def getCowCnt (pa : Nat) : Kern Int := do
  spinLock .cow
  let s ← get
  let ret := s.cowTable (cowIndex pa)
  spinUnlock .cow
  return ret

def incCowCnt (pa : Nat) : Kern Unit := do
  spinLock .cow
  modify fun s => s.setCow (cowIndex pa) (s.cowTable (cowIndex pa) + 1)
  spinUnlock .cow

def decCowCnt (pa : Nat) : Kern Unit := do
  spinLock .cow
  modify fun s => s.setCow (cowIndex pa) (s.cowTable (cowIndex pa) - 1)
  spinUnlock .cow

end Uproc
