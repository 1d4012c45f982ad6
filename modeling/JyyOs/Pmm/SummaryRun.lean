import JyyOs.Pmm.Summary
import JyyOs.Pmm.BbmaSpec

/-!
Exact summaries over whole runs from bbma_init: they hold throughout exactly when no
allocation marks a node GET_DEPARTED whose other child still shows a free block, and they
are what lets bbma_alloc find every block that is there.
-/
namespace Tbma
open BuddyTree PartialRun

variable {g : Globals} {s s' : TreesState} {shape : Nat → Buddy 12}

theorem window_of_block (laid : Laid g) (t : Nat) : 2 ^ (12 + 12) ∣ windowOf g t := by
  have := window_aligned laid t
  rwa [memGap, Nat.one_shiftLeft] at this

theorem local_of_perm {live : List (Nat × Nat)} {d addr : Nat} {b : Buddy d}
    (perm : live.Perm (blocks 12 addr b)) : Local live addr b :=
  ⟨fun _ h => perm.mem_iff.mpr h, fun _ h => Or.inl (perm.mem_iff.mp h)⟩

theorem summaries_exact_iff_precise (laid : Laid g) (inv : TreeInv g s shape) :
    SummariesExact g s ↔ ∀ t, TreeIndex g t → Precise s.mem (g.allTrees t) 1 (shape t) := by
  refine forall_congr' fun t => forall_congr' fun valid => ?_
  rw [← precise_iff (root_placed laid valid) (window_of_block laid t)
    (local_of_perm (inv.live t valid)) (inv.trees t valid)]
  constructor
  · intro all j inside
    have bound := in_sub_bound (root_placed laid valid) inside
    exact all j bound.1 bound.2
  · exact fun all j pos top => all j (in_sub_root pos top)

theorem precise_update (laid : Laid g) {t : Nat} {b : Buddy 12} {mem' : Mem}
    (valid : TreeIndex g t) (frame : Frame s.mem mem' (g.allTrees t) 12 1)
    (before : ∀ u, TreeIndex g u → Precise s.mem (g.allTrees u) 1 (shape u)) :
    (∀ u, TreeIndex g u → Precise mem' (g.allTrees u) 1 (Function.update shape t b u)) ↔
      Precise mem' (g.allTrees t) 1 b := by
  constructor
  · intro all
    have here := all t valid
    rwa [Function.update_self] at here
  · intro here u hu
    by_cases same : u = t
    · subst same
      rwa [Function.update_self]
    · rw [Function.update_of_ne same]
      refine (precise_congr fun j inside => frame _ fun k inside' eq => ?_).mpr (before u hu)
      have top := (in_sub_bound (root_placed laid hu) inside).2
      have top' := (in_sub_bound (root_placed laid valid) inside').2
      exact same (node_arrays_disjoint laid hu valid top top' eq).1

theorem exact_step (laid : Laid g) {op : TreeOp} (inv : TreeInv g s shape)
    (exact_ : SummariesExact g s) (taken : treeStep g s op = some s') :
    SummariesExact g s' ↔ StepDeparts g s op := by
  have precise := (summaries_exact_iff_precise laid inv).mp exact_
  cases op with
  | alloc t req =>
    obtain ⟨valid, real, enough, a, b', effect, _, after⟩ := alloc_step_cases laid inv taken
    rw [summaries_exact_iff_precise laid after, precise_update laid valid effect.frame precise]
    exact taken_precise (root_placed laid valid) (window_positive laid t) (inv.trees t valid) real
      enough (precise t valid) effect
  | free t ptr size =>
    obtain ⟨valid, live, b', effect, _, after⟩ := free_step_cases laid inv taken
    rw [summaries_exact_iff_precise laid after, precise_update laid valid effect.frame precise]
    simp only [StepDeparts, iff_true]
    exact given_precise (root_placed laid valid) (inv.trees t valid)
      ((inv.live t valid).mem_iff.mp live) (precise t valid) effect

theorem room_not_covered {live : List (Nat × Nat)} {addr size k : Nat}
    (room : Room live addr size k) :
    ∀ x ∈ live, ¬ (x.1 ≤ addr ∧ addr + 2 ^ size ≤ x.1 + 2 ^ x.2) := by
  obtain ⟨a, _, lower, upper, apart⟩ := room
  intro x mem ⟨below, above⟩
  have away := apart x mem
  have pos : 0 < 2 ^ k := Nat.two_pow_pos k
  simp only [Apart] at away
  omega

theorem no_loss_of_exact (laid : Laid g) (inv : TreeInv g s shape)
    (exact_ : SummariesExact g s) : NoLoss g s := by
  rintro p size mem rfl free positive small ⟨t, valid, room⟩
  obtain ⟨real, _⟩ := determine_bbma_size_spec small
  have root := (exact_at_placed (root_placed laid valid)).mp (exact_ t valid 1 (by decide) (by decide))
  have shown := (root (room_not_covered room) _ real).mpr room
  rw [← mem] at shown
  rcases bbma_alloc_spec laid (mem ▸ inv.trees) free size with ⟨_, none_left⟩ |
    ⟨u, a, mem', b', allocated⟩
  · have := none_left small t valid
    omega
  · refine ⟨a, _, allocated.run, ?_⟩
    have := take_address allocated.taken.take
    have := window_positive laid u
    omega

/-- Allocations and frees on the trees of bbma_init, in any order. -/
theorem summaries_exact_throughout_iff (heap : HeapRange) (mem : Mem) (ops : List TreeOp) :
    let init := bbmaInit mem (alignTo heap.start s16M) heap.stop
    Throughout (treeStep init.2) (fun s => SummariesExact init.2 s ∧ NoLoss init.2 s)
        (bootTrees init.1) ops ↔
      EachStep (treeStep init.2) (StepDeparts init.2) (bootTrees init.1) ops := by
  intro init
  obtain ⟨laid, trees⟩ := heap_init_spec heap mem
  have preserved : ∀ s op s', (∃ shape, TreeInv init.2 s shape) →
      treeStep init.2 s op = some s' → ∃ shape, TreeInv init.2 s' shape :=
    fun s op s' inv taken => tree_step_inv laid inv taken
  have inv := boot_trees_inv trees
  refine throughout_iff_each_step preserved ?_ ops ⟨_, inv⟩ ?_
  · rintro s op s' ⟨shape, inv⟩ ⟨exact_, _⟩ taken
    obtain ⟨shape', inv'⟩ := tree_step_inv laid ⟨shape, inv⟩ taken
    rw [← exact_step laid inv exact_ taken]
    exact ⟨fun h => h.1, fun h => ⟨h, no_loss_of_exact laid inv' h⟩⟩
  · have start : SummariesExact init.2 (bootTrees init.1) := by
      rw [summaries_exact_iff_precise laid inv]
      intro t _
      simp only [Precise]
    exact ⟨start, no_loss_of_exact laid inv start⟩

def oneWindow : HeapRange := ⟨2 ^ 24, 3 * 2 ^ 24, by decide, by decide, by decide⟩

def freshNodes (tree : Nat) : Mem :=
  fun x => if tree < x ∧ x < tree + 8192 then 24 - (x - tree).log2 else 0

def oneTree : Globals := ⟨2 ^ 24, 2 ^ 25, 1, Function.update (fun _ => 0) 1 (2 ^ 24)⟩

theorem initialize_fresh_nodes (tree : Nat) :
    initializeTree (freshNodes tree) tree = freshNodes tree := by
  obtain ⟨inside, outside⟩ := initialize_tree_spec (freshNodes tree) tree
  funext x
  by_cases node : tree < x ∧ x < tree + 8192
  · have level := inside (x - tree) (by omega) (by omega)
    rw [show tree + (x - tree) = x by omega] at level
    rw [level, freshNodes, if_pos node]
  · exact outside x fun j pos top same => node (by omega)

theorem init_one_window :
    bbmaInit (freshNodes (2 ^ 24)) (alignTo oneWindow.start s16M) oneWindow.stop =
      (freshNodes (2 ^ 24), oneTree) := by
  have start : alignTo oneWindow.start s16M = 2 ^ 24 := by decide
  have rounds : ∀ n, bbmaInitLoop (3 * 2 ^ 24) (n + 2) (freshNodes (2 ^ 24)) (fun _ => 0) (2 ^ 24)
      (2 ^ 24 + memGap) 1 =
        (freshNodes (2 ^ 24), Function.update (fun _ => 0) 1 (2 ^ 24), 2) := by
    intro n
    rw [bbmaInitLoop, if_pos (by decide), initialize_fresh_nodes, bbmaInitLoop,
      if_neg (by decide)]
  have loop := rounds (3 * 2 ^ 24 - 2)
  rw [show 3 * 2 ^ 24 - 2 + 2 = 3 * 2 ^ 24 by decide] at loop
  rw [start, bbmaInit, show oneWindow.stop = 3 * 2 ^ 24 from rfl, loop]
  rfl

def twoAllocs : List TreeOp := [.alloc 1 12, .alloc 1 13]

/-- A 4KiB block and then an 8KiB block: node 1024 shows GET_DEPARTED while the buddy of the
    first block is free. -/
theorem departed_node_hides_block :
    ¬ Throughout (treeStep (bbmaInit (freshNodes (2 ^ 24)) (alignTo oneWindow.start s16M)
          oneWindow.stop).2)
        (fun s => SummariesExact (bbmaInit (freshNodes (2 ^ 24)) (alignTo oneWindow.start s16M)
          oneWindow.stop).2 s ∧
          NoLoss (bbmaInit (freshNodes (2 ^ 24)) (alignTo oneWindow.start s16M)
            oneWindow.stop).2 s)
        (bootTrees (bbmaInit (freshNodes (2 ^ 24)) (alignTo oneWindow.start s16M)
          oneWindow.stop).1) twoAllocs := by
  rw [init_one_window]
  intro all
  have ran : (run (treeStep oneTree) (bootTrees (freshNodes (2 ^ 24))) twoAllocs).isSome := by
    decide +kernel
  obtain ⟨s, final⟩ := Option.isSome_iff_exists.mp ran
  have facts : ((run (treeStep oneTree) (bootTrees (freshNodes (2 ^ 24))) twoAllocs).map
      fun s => (s.mem (2 ^ 24 + 1024), s.live 1)) =
        some (1, [(2 ^ 25 + 2 ^ 13, 13), (2 ^ 25, 12)]) := by
    decide +kernel
  rw [final, Option.map_some, Option.some.injEq, Prod.mk.injEq] at facts
  have exact_ := (throughout_of_run all final).1 1 ⟨by decide, by decide⟩ 1024 (by decide)
    (by decide) (2 ^ 25) (by decide +kernel)
  have tree : oneTree.allTrees 1 = 2 ^ 24 := by decide +kernel
  have log : (1024 : Nat).log2 = 10 := by decide +kernel
  rw [facts.2, tree, log, facts.1] at exact_
  have shown := exact_ (by decide) 12 (by decide)
  have room : Room [(2 ^ 25 + 2 ^ 13, 13), (2 ^ 25, 12)] (2 ^ 25) (24 - 10) 12 :=
    ⟨2 ^ 25 + 2 ^ 12, by decide, by decide, by decide, by simp [Apart]⟩
  exact absurd (shown.mpr room) (by decide)

end Tbma
