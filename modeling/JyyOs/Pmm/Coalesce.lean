import JyyOs.Pmm.TreeRun

/-!
Runs of tree operations from bbma_init: no assertion of the two recursive functions fails, and
a tree whose blocks are all returned shows the values initialize_tree wrote.
-/
namespace Tbma
open BuddyTree PartialRun

variable {g : Globals} {mem : Mem} {tree : Nat}

theorem full_in_sub {d i addr j : Nat} (placed : Placed g tree d i addr)
    (full : Full mem tree d i) (inside : InSub d i j) : mem (tree + j) = 24 - j.log2 := by
  induction d generalizing i addr with
  | zero =>
    obtain rfl : j = i := inside
    have level := placed_level placed
    have value : mem (tree + j) = 12 := full
    omega
  | succ d ih =>
    obtain ⟨left, right⟩ := placed_children placed
    obtain ⟨value, fullLeft, fullRight⟩ := full
    rcases inside with rfl | inLeft | inRight
    · have level := placed_level placed
      have height := placed.height
      omega
    · exact ih left fullLeft inLeft
    · exact ih right fullRight inRight

theorem empty_tree_initial {s : TreesState} {shape : Nat → Buddy 12} (laid : Laid g)
    (inv : TreeInv g s shape) {t : Nat} (valid : TreeIndex g t) (empty : s.live t = [])
    (before : Mem) {j : Nat} (pos : 1 ≤ j) (top : j ≤ 8191) :
    s.mem (g.allTrees t + j) = initializeTree before (g.allTrees t) (g.allTrees t + j) := by
  have rep := inv.trees t valid
  have none : blocks 12 (windowOf g t) (shape t) = [] := by
    have perm := inv.live t valid
    rw [empty] at perm
    exact perm.nil_eq.symm
  have free := (blocks_empty_iff (shape t) _ (rep_normal rep)).mp none
  rw [free, rep_free_iff] at rep
  rw [(initialize_tree_spec before (g.allTrees t)).1 j pos (by omega)]
  exact full_in_sub (root_placed laid valid) rep (in_sub_root pos (by omega))

/-- What holds between the operations: the next one trips no assertion, and returned trees are
    as new. -/
structure Coalesces (g : Globals) (s : TreesState) : Prop where
  allocates : ∀ t req, TreeIndex g t → s4K ≤ req → req ≤ s16M → req ≤ s.mem (g.allTrees t + 1) →
    ∃ ptr mem, getTheFreeSpaceInTree g s.mem (g.allTrees t) 1 s16M req = some (ptr, mem) ∧ ptr ≠ 0
  frees : ∀ t ptr size, TreeIndex g t → (ptr, size) ∈ s.live t →
    ∃ mem, freeTreePtr g s.mem (g.allTrees t) 1 ptr s16M = some mem
  restored : ∀ t, TreeIndex g t → s.live t = [] → ∀ before j, 1 ≤ j → j ≤ 8191 →
    s.mem (g.allTrees t + j) = initializeTree before (g.allTrees t) (g.allTrees t + j)

theorem coalesces_of_inv {s : TreesState} {shape : Nat → Buddy 12} (laid : Laid g)
    (inv : TreeInv g s shape) : Coalesces g s := by
  refine ⟨fun t req valid real _ enough => ?_, fun t ptr size valid live => ?_,
    fun t valid empty before j pos top => empty_tree_initial laid inv valid empty before pos top⟩
  · obtain ⟨a, mem', b', taken, _⟩ := alloc_in_trees laid valid inv.trees real enough
    refine ⟨a, mem', taken.run, ?_⟩
    have := take_address taken.take
    have := window_positive laid t
    omega
  · have block := (inv.live t valid).mem_iff.mp live
    obtain ⟨mem', b', given, _⟩ := free_in_trees laid valid inv.trees block
    exact ⟨mem', given.run⟩

/-- Whatever blocks are taken and returned, in any order. -/
theorem trees_coalesce_throughout (heap : HeapRange) (mem : Mem) (ops : List TreeOp) :
    let init := bbmaInit mem (alignTo heap.start s16M) heap.stop
    Throughout (treeStep init.2) (Coalesces init.2) (bootTrees init.1) ops := by
  intro init
  obtain ⟨laid, trees⟩ := heap_init_spec heap mem
  have preserved : ∀ s op s', (∃ shape, TreeInv init.2 s shape) →
      treeStep init.2 s op = some s' → ∃ shape, TreeInv init.2 s' shape :=
    fun s op s' inv taken => tree_step_inv laid inv taken
  exact throughout_of_invariant preserved (fun s ⟨shape, inv⟩ => coalesces_of_inv laid inv) ops
    ⟨_, boot_trees_inv trees⟩

end Tbma
