import Mathlib.Logic.Function.Basic
import Mathlib.Data.List.Basic

/-!
tbma.c: the node array of one buddy tree and the two recursive functions on it.
Memory holds scalars, each kept at its own address; the heap of the machine ends
below 2^32 and its start is positive, so addresses are plain Nat and 0 is NULL.
A failed assertion is `none`. MAX_NODE is written as its value, 8192.
-/
namespace Tbma

abbrev Mem := Nat → Nat

/- BLOCK_SIZE_ and the node states of cbma.h. -/
abbrev s4K : Nat := 12
abbrev s8K : Nat := 13
abbrev s16K : Nat := 14
abbrev s32K : Nat := 15
abbrev s64K : Nat := 16
abbrev s128K : Nat := 17
abbrev s256K : Nat := 18
abbrev s512K : Nat := 19
abbrev s1M : Nat := 20
abbrev s2M : Nat := 21
abbrev s4M : Nat := 22
abbrev s8M : Nat := 23
abbrev s16M : Nat := 24
abbrev bbmaRefuse : Nat := 25
abbrev fullUsed : Nat := 0
abbrev getDeparted : Nat := 1
abbrev maxTree : Nat := 32

def calculateAddrHelper : List Nat :=
  [1, 2, 4, 8, 16, 32, 64, 128, 256, 512, 1024, 2048, 4096]

/-- The file-scope variables that bbma_init sets; `allTrees` is indexed from 1. -/
structure Globals where
  realStartAddr : Nat
  beginAllocAddr : Nat
  treeNum : Nat
  allTrees : Nat → Nat

def leftChild (index : Nat) : Nat := index * 2
def rightChild (index : Nat) : Nat := index * 2 + 1

def convertIndexToAddr (g : Globals) (tree index curSize : Nat) : Option Nat :=
  if index ≤ 8192 ∧ curSize ≠ bbmaRefuse then
    let treeOffset := tree - g.realStartAddr
    let treeGap := treeOffset / 8192
    let memOffset := treeGap <<< s16M
    let realMemStart := g.beginAllocAddr + memOffset
    let nodeOffset := index - calculateAddrHelper.getD (s16M - curSize) 0
    let memNodeOffset := nodeOffset <<< curSize
    some (realMemStart + memNodeOffset)
  else none

/-- `tree[index]` is the cell at address `tree + index`. -/
def getTheFreeSpaceInTree (g : Globals) (mem : Mem) (tree index curSize reqSize : Nat) :
    Option (Nat × Mem) :=
  if reqSize = bbmaRefuse ∨ curSize < reqSize ∨ curSize < mem (tree + index) ∨
      mem (tree + index) < reqSize then none
  else if mem (tree + index) < reqSize then some (0, mem)
  else if curSize = reqSize then
    if mem (tree + index) = reqSize then
      match convertIndexToAddr g tree index curSize with
      | none => none
      | some ptr => some (ptr, Function.update mem (tree + index) fullUsed)
    else some (0, mem)
  else
    match curSize with
    | 0 => none
    | childSize + 1 =>
      let down := if reqSize ≤ mem (tree + leftChild index) then leftChild index
        else rightChild index
      match getTheFreeSpaceInTree g mem tree down childSize reqSize with
      | none => none
      | some (ptr, mem) =>
        if ptr ≠ 0 then
          if mem (tree + index) = reqSize then
            some (ptr, Function.update mem (tree + index) getDeparted)
          else
            let left := mem (tree + leftChild index)
            let right := mem (tree + rightChild index)
            some (ptr, Function.update mem (tree + index) (if right ≤ left then left else right))
        else some (ptr, mem)

def freeTreePtr (g : Globals) (mem : Mem) (tree index ptr curSize : Nat) : Option Mem :=
  if 8192 < index ∨ curSize < mem (tree + index) then none
  else
    match convertIndexToAddr g tree index curSize with
    | none => none
    | some curAddr =>
      if ptr < curAddr then none
      else if curAddr = ptr ∧ mem (tree + index) = fullUsed then
        some (Function.update mem (tree + index) curSize)
      else
        match curSize with
        | 0 => none
        | childSize + 1 =>
          let down := if curAddr = ptr then leftChild index
            else if ptr < curAddr + 1 <<< childSize then leftChild index
            else rightChild index
          match freeTreePtr g mem tree down ptr childSize with
          | none => none
          | some mem =>
            let left := mem (tree + leftChild index)
            let right := mem (tree + rightChild index)
            let value := if left = childSize ∧ right = childSize then childSize + 1
              else if right ≤ left then left else right
            if value = getDeparted ∨ value = fullUsed then none
            else some (Function.update mem (tree + index) value)

def fillLevel (mem : Mem) (tree first count size : Nat) : Mem :=
  (List.range' first count).foldl (fun mem i => Function.update mem (tree + i) size) mem

/-- Round `i` of the outer loop; `cur_size` has been decremented `i` times. -/
def initializeLevel (tree : Nat) (mem : Mem) (i : Nat) : Mem :=
  let curStand := calculateAddrHelper.getD i 0
  let nextStand := if i = 12 then 8192 else calculateAddrHelper.getD (i + 1) 0
  fillLevel mem tree curStand (nextStand - curStand) (s16M - i)

def initializeTree (mem : Mem) (tree : Nat) : Mem :=
  (List.range 13).foldl (initializeLevel tree) mem

end Tbma
