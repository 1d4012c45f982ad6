import JyyOs.Pmm.TreeInit

/-!
tbma.c above the single tree: the trees of the heap, their locks, bbma_init, bbma_alloc and
bbma_free. A lock that is never released again, a failed assertion and a NULL dereference
are all `none`: the call does not return.
-/
namespace Tbma

structure Pmm where
  mem : Mem
  g : Globals
  treeLocks : Nat → Nat
  cpuOwnArea : Nat → Nat → Nat

def determineBbmaSize (size : Nat) : Nat :=
  if size ≤ 2 ^ s4K then s4K
  else if size ≤ 2 ^ s8K then s8K
  else if size ≤ 2 ^ s16K then s16K
  else if size ≤ 2 ^ s32K then s32K
  else if size ≤ 2 ^ s64K then s64K
  else if size ≤ 2 ^ s128K then s128K
  else if size ≤ 2 ^ s256K then s256K
  else if size ≤ 2 ^ s512K then s512K
  else if size ≤ 2 ^ s1M then s1M
  else if size ≤ 2 ^ s2M then s2M
  else if size ≤ 2 ^ s4M then s4M
  else if size ≤ 2 ^ s8M then s8M
  else if size ≤ 2 ^ s16M then s16M
  else bbmaRefuse

def alignTo (n align : Nat) : Nat :=
  let alignNumber := 1 <<< align
  if n % alignNumber = 0 then n else n / alignNumber * alignNumber + alignNumber

def isAlignTo (ptr align : Nat) : Bool := ptr % (1 <<< align) == 0

def spinUnlock (locks : Nat → Nat) (i : Nat) : Nat → Nat := Function.update locks i 0

/-- Each round tries the lock and keeps it only on the tree it returns. -/
def findAvailableIn (bbmaSize : Nat) : List Nat → Pmm → Option Nat × Pmm
  | [], p => (none, p)
  | i :: rest, p =>
    let free := p.treeLocks i = 0
    let p := { p with treeLocks := Function.update p.treeLocks i 1 }
    if free then
      if p.mem (p.g.allTrees i + 1) < bbmaSize then
        findAvailableIn bbmaSize rest { p with treeLocks := spinUnlock p.treeLocks i }
      else (some i, p)
    else findAvailableIn bbmaSize rest p

/-- `none` is the index -1. -/
def findAvailableTree (p : Pmm) (bbmaSize : Nat) : Option Nat × Pmm :=
  findAvailableIn bbmaSize (List.range' 1 p.g.treeNum) p

def findTheFreeSpaceInBbmaSystem (p : Pmm) (bbmaSize : Nat) : Option (Nat × Pmm) :=
  if bbmaSize = bbmaRefuse then none
  else
    match findAvailableTree p bbmaSize with
    | (none, p) => some (0, p)
    | (some treeIndex, p) =>
      if p.g.treeNum < treeIndex then none
      else
        let tree := p.g.allTrees treeIndex
        if tree = 0 then some (0, p)
        else if p.mem (tree + 1) < bbmaSize then none
        else
          match getTheFreeSpaceInTree p.g p.mem tree 1 s16M bbmaSize with
          | none => none
          | some (theSpace, mem) =>
            some (theSpace, { p with mem := mem, treeLocks := spinUnlock p.treeLocks treeIndex })

def bbmaAlloc (p : Pmm) (size : Nat) : Option (Nat × Pmm) :=
  let bbmaSize := determineBbmaSize size
  if bbmaSize = bbmaRefuse then some (0, p)
  else
    match findTheFreeSpaceInBbmaSystem p bbmaSize with
    | none => none
    | some (ptr, p) => if isAlignTo ptr bbmaSize then some (ptr, p) else none

def determineWhichTree (g : Globals) (ptr : Nat) : Option Nat :=
  if g.beginAllocAddr < ptr then
    let memBegin := ptr / 2 ^ s16M * 2 ^ s16M
    some ((memBegin - g.beginAllocAddr) / 2 ^ s16M + 1)
  else none

def bbmaFree (p : Pmm) (ptr : Nat) : Option Pmm :=
  if ptr = 0 then some p
  else
    match determineWhichTree p.g ptr with
    | none => none
    | some treeIndex =>
      let tree := p.g.allTrees treeIndex
      if tree = 0 then none
      else if p.treeLocks treeIndex ≠ 0 then none
      else
        let locks := Function.update p.treeLocks treeIndex 1
        match freeTreePtr p.g p.mem tree 1 ptr s16M with
        | none => none
        | some mem => some { p with mem := mem, treeLocks := spinUnlock locks treeIndex }

def memGap : Nat := 1 <<< s16M

/-- The while loop of bbma_init: one round for each whole window below `stop`. Every round
    moves `curMemAddr` up, so `stop` rounds are more than enough. -/
def bbmaInitLoop (stop : Nat) : Nat → Mem → (Nat → Nat) → Nat → Nat → Nat →
    Mem × (Nat → Nat) × Nat
  | 0, mem, allTrees, _, _, treeCnt => (mem, allTrees, treeCnt)
  | rounds + 1, mem, allTrees, curTreeAddr, curMemAddr, treeCnt =>
    if curMemAddr + memGap ≤ stop then
      bbmaInitLoop stop rounds (initializeTree mem curTreeAddr)
        (Function.update allTrees treeCnt curTreeAddr) (curTreeAddr + 8192)
        (curMemAddr + memGap) (treeCnt + 1)
    else (mem, allTrees, treeCnt)

/-- bbma_init on zero-initialised static variables. -/
def bbmaInit (mem : Mem) (start stop : Nat) : Mem × Globals :=
  let beginAllocAddr := start + memGap
  let loop := bbmaInitLoop stop stop mem (fun _ => 0) start beginAllocAddr 1
  (loop.1, ⟨start, beginAllocAddr, loop.2.2 - 1, loop.2.1⟩)

/-- The heap the machine hands to the kernel: [start, stop) with at most MAX_TREE windows. -/
structure HeapRange where
  start : Nat
  stop : Nat
  positive : 0 < start
  machine : stop < 2 ^ 32
  windows : (stop - (alignTo start s16M + memGap)) / memGap ≤ maxTree

end Tbma
