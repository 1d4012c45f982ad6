import JyyOs.Pmm.Bbma

/-!
slab.c and pmm.c. A SLAB_STICK keeps its lock at +0, its free block list at +8, the next
page at +16 and its free block count at +24, and takes 32 bytes; a free block keeps the next
one at +0. The lock word of a page is whatever its memory held: the kernel never sets it up.
-/
namespace Tbma

abbrev s32B : Nat := 5
abbrev s64B : Nat := 6
abbrev s128B : Nat := 7
abbrev s256B : Nat := 8
abbrev s512B : Nat := 9
abbrev s1KB : Nat := 10
abbrev s2KB : Nat := 11
abbrev slabRefuse : Nat := 12
abbrev slabNum : Nat := 7
abbrev cpuFindSlabOffset : Nat := 5
abbrev slabRequestSpace : Nat := 4096
abbrev slabStickSize : Nat := 32
abbrev freeBlockList : Nat := 8
abbrev nextSlabStick : Nat := 16
abbrev slabFreeSpace : Nat := 24

def determineSlabSize (size : Nat) : Nat :=
  if size ≤ 32 then s32B
  else if size ≤ 64 then s64B
  else if size ≤ 128 then s128B
  else if size ≤ 256 then s256B
  else if size ≤ 512 then s512B
  else if size ≤ 1024 then s1KB
  else if size ≤ 2048 then s2KB
  else slabRefuse

/-- The while loop over the pages of a CPU; a taken page is returned with its lock held. -/
def avaliablePageLoop : Nat → Mem → Nat → Option (Nat × Mem)
  | 0, _, _ => none
  | fuel + 1, mem, freeSpace =>
    if freeSpace = 0 then some (0, mem)
    else if mem freeSpace ≠ 0 then none
    else
      let mem := Function.update mem freeSpace 1
      if mem (freeSpace + slabFreeSpace) = 0 then
        let next := mem (freeSpace + nextSlabStick)
        avaliablePageLoop fuel (Function.update mem freeSpace 0) next
      else some (freeSpace, mem)

/-- No CPU has more pages than the trees have 4KiB blocks. -/
def findTheAvaliablePageInSlabAndLock (p : Pmm) (cpuNum slabSize : Nat) : Option (Nat × Mem) :=
  avaliablePageLoop (p.g.treeNum * 4096 + 1) p.mem
    (p.cpuOwnArea cpuNum (slabSize - cpuFindSlabOffset))

def findTheFreeSpaceInSlab (p : Pmm) (cpuNum slabSize : Nat) : Option (Nat × Pmm) :=
  match findTheAvaliablePageInSlabAndLock p cpuNum slabSize with
  | none => none
  | some (freeSpace, mem) =>
    if freeSpace = 0 then some (0, { p with mem := mem })
    else if mem (freeSpace + slabFreeSpace) = 0 then none
    else if mem (freeSpace + freeBlockList) = 0 then none
    else
      let avaliableSlabBlock := mem (freeSpace + freeBlockList)
      let mem := Function.update mem (freeSpace + freeBlockList) (mem avaliableSlabBlock)
      let mem := Function.update mem (freeSpace + slabFreeSpace)
        (mem (freeSpace + slabFreeSpace) - 1)
      some (avaliableSlabBlock, { p with mem := Function.update mem freeSpace 0 })

def initializeBlocks (slabPage slabSize : Nat) : Nat → Nat → Mem → Mem
  | 0, _, mem => mem
  | count + 1, addr, mem =>
    let mem := Function.update mem addr (mem (slabPage + freeBlockList))
    let mem := Function.update mem (slabPage + freeBlockList) addr
    initializeBlocks slabPage slabSize count (addr + 1 <<< slabSize) mem

def initializeASlabNewPage (mem : Mem) (slabSize slabPage : Nat) : Option Mem :=
  if ¬ isAlignTo slabPage 12 ∨ s2KB < slabSize then none
  else
    let slabStick := alignTo slabStickSize slabSize
    if 1 <<< s2KB < slabStick then none
    else
      let space := (slabRequestSpace - slabStick) >>> slabSize
      let mem := Function.update mem (slabPage + slabFreeSpace) space
      let mem := Function.update mem (slabPage + freeBlockList) 0
      some (initializeBlocks slabPage slabSize space (slabPage + slabStick) mem)

def updateOwnArea (area : Nat → Nat → Nat) (cpuNum i page : Nat) : Nat → Nat → Nat :=
  Function.update area cpuNum (Function.update (area cpuNum) i page)

def requestASlabFromBbma (p : Pmm) (cpuNum slabSize : Nat) : Option (Nat × Pmm) :=
  match bbmaAlloc p slabRequestSpace with
  | none => none
  | some (slabAddr, p) =>
    if slabAddr % slabRequestSpace ≠ 0 then none
    else if slabAddr = 0 then some (0, p)
    else
      let i := slabSize - cpuFindSlabOffset
      let mem := Function.update p.mem (slabAddr + nextSlabStick) (p.cpuOwnArea cpuNum i)
      let area := updateOwnArea p.cpuOwnArea cpuNum i slabAddr
      match initializeASlabNewPage mem slabSize slabAddr with
      | none => none
      | some mem => findTheFreeSpaceInSlab { p with mem := mem, cpuOwnArea := area } cpuNum slabSize

def slabAlloc (p : Pmm) (cpuNum size : Nat) : Option (Nat × Pmm) :=
  if size = 0 then some (0, p)
  else
    let slabSize := determineSlabSize size
    if slabSize = slabRefuse then bbmaAlloc p size
    else
      match findTheFreeSpaceInSlab p cpuNum slabSize with
      | none => none
      | some (addr, p) =>
        if ¬ isAlignTo addr slabSize then none
        else if addr = 0 then
          match requestASlabFromBbma p cpuNum slabSize with
          | none => none
          | some (addr, p) => if isAlignTo addr slabSize then some (addr, p) else none
        else some (addr, p)

def slabAlignTo4kb (ptr : Nat) : Nat := ptr / 4096 * 4096

def slabFree (p : Pmm) (ptr : Nat) : Option Pmm :=
  if ptr % slabRequestSpace = 0 then none
  else
    let slabStick := slabAlignTo4kb ptr
    if p.mem slabStick ≠ 0 then none
    else
      let mem := Function.update p.mem slabStick 1
      let mem := Function.update mem ptr (mem (slabStick + freeBlockList))
      let mem := Function.update mem (slabStick + freeBlockList) ptr
      let mem := Function.update mem (slabStick + slabFreeSpace)
        (mem (slabStick + slabFreeSpace) + 1)
      some { p with mem := Function.update mem slabStick 0 }

/-- initialize_a_cpu_slab_area for the sizes `i`, `i + 1`, …; the block of each request is
    dropped. -/
def initializeACpuSlabArea (cpuNum : Nat) : List Nat → Pmm → Option Pmm
  | [], p => some p
  | i :: rest, p =>
    match requestASlabFromBbma p cpuNum (i + cpuFindSlabOffset) with
    | none => none
    | some (_, p) => initializeACpuSlabArea cpuNum rest p

def slabInit : List Nat → Pmm → Option Pmm
  | [], p => some p
  | cpu :: rest, p =>
    match initializeACpuSlabArea cpu (List.range slabNum) p with
    | none => none
    | some p => slabInit rest p

def kalloc (p : Pmm) (cpuNum size : Nat) : Option (Nat × Pmm) := slabAlloc p cpuNum size

def kfree (p : Pmm) (ptr : Nat) : Option Pmm :=
  if isAlignTo ptr 12 then bbmaFree p ptr else slabFree p ptr

def pmmInit (heap : HeapRange) (cpuCount : Nat) (mem : Mem) : Option Pmm :=
  let init := bbmaInit mem (alignTo heap.start s16M) heap.stop
  slabInit (List.range cpuCount) ⟨init.1, init.2, fun _ => 0, fun _ _ => 0⟩

end Tbma
