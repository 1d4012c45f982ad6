import JyyOs.Pmm.Trees
import JyyOs.Library.PartialRun

/-!
Runs of tree operations: allocations from a root whose summary covers the request, and frees
of live blocks. `live t` records the blocks handed out of tree `t` as (address, log size).
-/
namespace Tbma
open BuddyTree PartialRun

structure TreesState where
  mem : Mem
  live : Nat → List (Nat × Nat)

inductive TreeOp where
  | alloc (t req : Nat)
  | free (t ptr size : Nat)

/-- Blocks are looked up by address and size. -/
instance blockLawful : LawfulBEq (Nat × Nat) := inferInstance

def treeStep (g : Globals) (s : TreesState) : TreeOp → Option TreesState
  | .alloc t req =>
    if 1 ≤ t ∧ t ≤ g.treeNum ∧ s4K ≤ req ∧ req ≤ s16M ∧ req ≤ s.mem (g.allTrees t + 1) then
      match getTheFreeSpaceInTree g s.mem (g.allTrees t) 1 s16M req with
      | none => none
      | some (ptr, mem) =>
        if ptr = 0 then none
        else some ⟨mem, Function.update s.live t ((ptr, req) :: s.live t)⟩
    else none
  | .free t ptr size =>
    if 1 ≤ t ∧ t ≤ g.treeNum ∧ (ptr, size) ∈ s.live t then
      match freeTreePtr g s.mem (g.allTrees t) 1 ptr s16M with
      | none => none
      | some mem => some ⟨mem, Function.update s.live t ((s.live t).erase (ptr, size))⟩
    else none

def bootTrees (mem : Mem) : TreesState := ⟨mem, fun _ => []⟩

/-- The node arrays represent trees whose used blocks are exactly the live ones. -/
structure TreeInv (g : Globals) (s : TreesState) (shape : Nat → Buddy 12) : Prop where
  trees : Trees g s.mem shape
  live : ∀ t, TreeIndex g t → (s.live t).Perm (blocks 12 (windowOf g t) (shape t))

variable {g : Globals} {s s' : TreesState} {shape : Nat → Buddy 12}

theorem boot_trees_inv {mem : Mem} (trees : Trees g mem fun _ => .free) :
    TreeInv g (bootTrees mem) fun _ => .free :=
  ⟨trees, fun _ _ => by simp [bootTrees, blocks]⟩

theorem live_update {t : Nat} {b : Buddy 12} {list : List (Nat × Nat)}
    (live : ∀ u, TreeIndex g u → (s.live u).Perm (blocks 12 (windowOf g u) (shape u)))
    (here : list.Perm (blocks 12 (windowOf g t) b)) (u : Nat) (valid : TreeIndex g u) :
    (Function.update s.live t list u).Perm
      (blocks 12 (windowOf g u) (Function.update shape t b u)) := by
  by_cases same : u = t
  · subst same
    rw [Function.update_self, Function.update_self]
    exact here
  · rw [Function.update_of_ne same, Function.update_of_ne same]
    exact live u valid

theorem alloc_step_cases (laid : Laid g) (inv : TreeInv g s shape) {t req : Nat}
    (taken : treeStep g s (.alloc t req) = some s') :
    TreeIndex g t ∧ 12 ≤ req ∧ req ≤ s.mem (g.allTrees t + 1) ∧
      ∃ a b', Taken g (g.allTrees t) s.mem 1 (windowOf g t) req (shape t) a s'.mem b' ∧
        s'.live = Function.update s.live t ((a, req) :: s.live t) ∧
        TreeInv g s' (Function.update shape t b') := by
  simp only [treeStep] at taken
  split at taken
  · rename_i guard
    obtain ⟨first, last, real, _, enough⟩ := guard
    have valid : TreeIndex g t := ⟨first, last⟩
    obtain ⟨a, mem', b', effect, trees⟩ := alloc_in_trees laid valid inv.trees real enough
    have run := effect.run
    simp only [s16M, show (12 : Nat) + 12 = 24 from rfl] at run taken
    rw [run] at taken
    have found : a ≠ 0 := by
      have := take_address effect.take
      have := window_positive laid t
      omega
    simp only [found, ↓reduceIte, Option.some.injEq] at taken
    subst taken
    refine ⟨valid, real, enough, a, b', effect, rfl, trees, live_update inv.live ?_⟩
    exact ((inv.live t valid).cons _).trans (take_blocks effect.take).symm
  · simp at taken

theorem free_step_cases (laid : Laid g) (inv : TreeInv g s shape) {t ptr size : Nat}
    (taken : treeStep g s (.free t ptr size) = some s') :
    TreeIndex g t ∧ (ptr, size) ∈ s.live t ∧
      ∃ b', Given g (g.allTrees t) s.mem 1 (windowOf g t) size (shape t) ptr s'.mem b' ∧
        s'.live = Function.update s.live t ((s.live t).erase (ptr, size)) ∧
        TreeInv g s' (Function.update shape t b') := by
  simp only [treeStep] at taken
  split at taken
  · rename_i guard
    obtain ⟨first, last, live⟩ := guard
    have valid : TreeIndex g t := ⟨first, last⟩
    have block := (inv.live t valid).mem_iff.mp live
    obtain ⟨mem', b', effect, trees⟩ := free_in_trees laid valid inv.trees block
    have run := effect.run
    simp only [s16M, show (12 : Nat) + 12 = 24 from rfl] at run taken
    rw [run] at taken
    simp only [Option.some.injEq] at taken
    subst taken
    refine ⟨valid, live, b', effect, rfl, trees, live_update inv.live ?_⟩
    have perm := (inv.live t valid).trans (give_blocks effect.give)
    simpa using perm.erase (ptr, size)
  · simp at taken

theorem tree_step_inv (laid : Laid g) {op : TreeOp} (inv : ∃ shape, TreeInv g s shape)
    (taken : treeStep g s op = some s') : ∃ shape, TreeInv g s' shape := by
  obtain ⟨shape, inv⟩ := inv
  cases op with
  | alloc t req =>
    obtain ⟨_, _, _, a, b', _, _, after⟩ := alloc_step_cases laid inv taken
    exact ⟨_, after⟩
  | free t ptr size =>
    obtain ⟨_, _, b', _, _, after⟩ := free_step_cases laid inv taken
    exact ⟨_, after⟩

end Tbma
