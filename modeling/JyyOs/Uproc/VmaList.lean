import JyyOs.Uproc.Mmap
import JyyOs.Library.DoublyLinked

/-!
The areas of a task as uproc.c keeps them: VME_AREA nodes in memory, one function for each field,
linked both ways, 0 is NULL. What pmm->alloc returns is read from `choices`, a walk gives up
after `rounds` nodes; both stand for any environment. `refused` records that insert_vme_node
returned false. The locks and the mapped pages are those of Uproc.Pages.
-/
namespace VmaList

open Hoare PartialRun Uproc

/-- `mmapFailed` is the panic of kmmap, `assertion` an assert; `endless` and `infeasible` say that
    `rounds` or `choices` describe no execution. -/
inductive Stop where
  | mmapFailed
  | assertion
  | null
  | endless
  | infeasible
  deriving DecidableEq, Repr

structure AreaHeap where
  area : Nat → VmArea
  vmNext : Nat → Nat
  vmPrev : Nat → Nat
  used : Nat → Bool
  head : Nat → Nat
  tail : Nat → Nat
  live : List Nat
  choices : List Nat
  rounds : Nat
  refused : Bool

abbrev Areas := Prog AreaHeap Stop

def stopUnless (c : Prop) [Decidable c] (e : Stop) : Areas Unit :=
  if c then pure () else throw e

def orStop {α : Type} (x : Option α) (e : Stop) : Areas α :=
  match x with
  | some a => pure a
  | none => throw e

def allocVme : Areas Nat := do
  let s ← get
  match s.choices with
  | [] => throw .infeasible
  | node :: rest =>
    stopUnless (s.used node = false) .infeasible
    set { s with choices := rest, used := Function.update s.used node true }
    return node

def suitableWalk (s : AreaHeap) (length : Int) : Nat → Nat → Nat → Nat → Option (Nat × Nat)
  | 0, _, _, _ => none
  | fuel + 1, cur, addr, endAddr =>
    if cur = 0 then some (addr, endAddr)
    else if endAddr ≤ (s.area cur).vmStart then some (addr, endAddr)
    else if (s.area cur).vmEnd ≤ addr then suitableWalk s length fuel (s.vmNext cur) addr endAddr
    else suitableWalk s length fuel (s.vmNext cur) (s.area cur).vmEnd
      (roundUp (addLength (s.area cur).vmEnd length))

def getSuitableAddr (task startAddr : Nat) (length : Int) : Areas Nat := do
  let s ← get
  if s.head task = 0 then return startAddr
  else
    let (addr, endAddr) ← orStop (suitableWalk s length s.rounds (s.head task) startAddr
      (roundUp (addLength startAddr length))) .endless
    stopUnless (endAddr ≤ areaEnd) .assertion
    return addr

def AreaHeap.setNode (s : AreaHeap) (node : Nat) (area : VmArea) : AreaHeap :=
  { s with
    area := Function.update s.area node area
    vmNext := Function.update s.vmNext node 0
    vmPrev := Function.update s.vmPrev node 0 }

def newVmeNode (task addr : Nat) (length prot flags : Int) : Areas Nat := do
  let node ← allocVme
  let rightAddr ← getSuitableAddr task (roundUp addr) length
  stopUnless (node ≠ 0) .null
  modify fun s => s.setNode node
    { vmStart := rightAddr
      vmEnd := roundUp (addLength rightAddr length)
      vmProt := (prot % 256).toNat
      vmFlags := (flags % 256).toNat }
  return node

/-- The loop of insert_vme_node: `none` where it returns false, else the node it stops at. -/
def insertWalk (s : AreaHeap) (new : VmArea) : Nat → Nat → Option (Option Nat)
  | 0, _ => none
  | fuel + 1, cur =>
    if cur = 0 then some (some 0)
    else if new.vmEnd ≤ (s.area cur).vmStart then some (some cur)
    else if (s.area cur).vmEnd ≤ new.vmStart then insertWalk s new fuel (s.vmNext cur)
    else some none

def AreaHeap.first (s : AreaHeap) (task node : Nat) : AreaHeap :=
  { s with
    head := Function.update s.head task node
    tail := Function.update s.tail task node }

def AreaHeap.append (s : AreaHeap) (task node : Nat) : AreaHeap :=
  { s with
    vmNext := Function.update s.vmNext (s.tail task) node
    vmPrev := Function.update s.vmPrev node (s.tail task)
    tail := Function.update s.tail task node }

def AreaHeap.putBefore (s : AreaHeap) (task node cur : Nat) : AreaHeap :=
  let prev := s.vmPrev cur
  let next := if prev = 0 then s.vmNext else Function.update s.vmNext prev node
  { s with
    head := if prev = 0 then Function.update s.head task node else s.head
    vmPrev := Function.update (Function.update s.vmPrev node prev) cur node
    vmNext := Function.update next node cur }

def insertVmeNode (task node : Nat) : Areas Bool := do
  let s ← get
  if s.head task = 0 then
    set (s.first task node)
    return true
  else
    let slot ← orStop (insertWalk s (s.area node) s.rounds (s.head task)) .endless
    match slot with
    | none =>
      set { s with refused := true }
      return false
    | some cur =>
      set (if cur = 0 then s.append task node else s.putBefore task node cur)
      return true

/-- find_vme_node, 0 where it returns NULL. -/
def findWalk (s : AreaHeap) (addr endAddr : Nat) : Nat → Nat → Option Nat
  | 0, _ => none
  | fuel + 1, cur =>
    if cur = 0 then some 0
    else if (s.area cur).vmStart ≤ addr ∧ endAddr ≤ (s.area cur).vmEnd then some cur
    else if (s.area cur).vmEnd ≤ addr then findWalk s addr endAddr fuel (s.vmNext cur)
    else some 0

def findVmeNode (task addr endAddr : Nat) : Areas Nat := do
  let s ← get
  orStop (findWalk s addr endAddr s.rounds (s.head task)) .endless

/-- Its MAP_UNMAP half leaves the areas as they are. -/
def kmmap (task addr : Nat) (length prot flags : Int) : Areas Nat := do
  stopUnless (task ≠ 0) .assertion
  stopUnless (0 < length) .assertion
  if flags = mapUnmap then
    stopUnless (prot = protNone) .assertion
    let _ ← findVmeNode task (roundDown addr) (roundUp (addLength addr length))
    return 0
  else
    let node ← newVmeNode task addr length prot flags
    let success ← insertVmeNode task node
    stopUnless (success = true) .mmapFailed
    let s ← get
    return (s.area node).vmStart

/-- What page_fault does to the areas; `thePage` is what find_mapped_page returned. -/
def pageFault (task ref thePage : Nat) : Areas Unit := do
  let va := roundDown ref
  if InArea va then
    let vma ← findVmeNode task va (u64 (va + pgsize))
    if thePage = 0 ∧ vma = 0 then
      let _ ← kmmap task va pgsize (protRead ||| protWrite : Nat) mapPrivate
      return
    else return
  else return

def AreaHeap.withEnds (s : AreaHeap) (task newTask cur newCur : Nat) (isHead : Bool) : AreaHeap :=
  { s with
    head := if isHead then Function.update s.head newTask newCur else s.head
    tail := if cur = s.tail task then Function.update s.tail newTask newCur else s.tail }

def copyLoop (task newTask : Nat) : Nat → Nat → Bool → Areas Unit
  | 0, _, _ => throw .endless
  | fuel + 1, cur, isHead =>
    if cur = 0 then return
    else do
      let s ← get
      let old := s.area cur
      let length := toInt32 ((old.vmEnd : Int) - old.vmStart)
      let newCur ← newVmeNode newTask old.vmStart length old.vmProt old.vmFlags
      let _ ← insertVmeNode newTask newCur
      modify fun s => s.withEnds task newTask cur newCur isHead
      let s ← get
      copyLoop task newTask fuel (s.vmNext cur) false

def AreaHeap.noAreas (s : AreaHeap) (task : Nat) : AreaHeap :=
  { s with head := Function.update s.head task 0, tail := Function.update s.tail task 0 }

def forkCopyingVmePages (task newTask : Nat) : Areas Unit := do
  let s ← get
  if s.head task = 0 then set (s.noAreas newTask)
  else copyLoop task newTask s.rounds (s.head task) true

def uprocCreate (task : Nat) : Areas Unit := do
  let s ← get
  stopUnless (task ≠ 0 ∧ task ∉ s.live) .infeasible
  set { s.noAreas task with live := task :: s.live }

inductive Call where
  | create (task : Nat)
  | kmmap (task addr : Nat) (length prot flags : Int)
  | pageFault (task ref thePage : Nat)
  | fork (task newTask : Nat)

structure Event where
  call : Call
  choices : List Nat
  rounds : Nat

def onLive {α : Type} (task : Nat) (x : Areas α) : Areas Unit := do
  let s ← get
  stopUnless (task ∈ s.live) .infeasible
  let _ ← x

def perform : Call → Areas Unit
  | .create task => uprocCreate task
  | .kmmap task addr length prot flags => onLive task (kmmap task addr length prot flags)
  | .pageFault task ref thePage => onLive task (pageFault task ref thePage)
  | .fork task newTask => onLive task do
    uprocCreate newTask
    forkCopyingVmePages task newTask

def AreaHeap.begun (s : AreaHeap) (e : Event) : AreaHeap :=
  { s with choices := e.choices, rounds := e.rounds }

def step (s : AreaHeap) (e : Event) : Option AreaHeap :=
  match (perform e.call).run (s.begun e) with
  | .ok (_, s') => some s'
  | .error _ => none

def emptyHeap (area : Nat → VmArea) (vmNext vmPrev head tail : Nat → Nat) : AreaHeap :=
  { area := area
    vmNext := vmNext
    vmPrev := vmPrev
    used := fun _ => false
    head := head
    tail := tail
    live := []
    choices := []
    rounds := 0
    refused := false }

end VmaList
