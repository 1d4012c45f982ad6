import JyyOs.Pmm.Bbma

/-!
All trees of the heap together. bbma_init lays the node arrays out one after the other at
the start of the heap; an operation on one tree leaves the arrays of the others alone.
-/
namespace Tbma
open BuddyTree

structure Laid (g : Globals) : Prop where
  positive : 0 < g.realStartAddr
  aligned : memGap ∣ g.realStartAddr
  area : g.beginAllocAddr = g.realStartAddr + memGap
  few : g.treeNum ≤ 32
  arrays : ∀ t, 1 ≤ t → t ≤ g.treeNum → g.allTrees t = g.realStartAddr + (t - 1) * 8192

def TreeIndex (g : Globals) (t : Nat) : Prop := 1 ≤ t ∧ t ≤ g.treeNum

def NodeCell (g : Globals) (x : Nat) : Prop :=
  ∃ t j, TreeIndex g t ∧ 0 < j ∧ j < 8192 ∧ x = g.allTrees t + j

def windowOf (g : Globals) (t : Nat) : Nat := g.beginAllocAddr + (t - 1) * memGap

def Trees (g : Globals) (mem : Mem) (shape : Nat → Buddy 12) : Prop :=
  ∀ t, TreeIndex g t → Rep mem (g.allTrees t) 1 (shape t)

theorem align_to_spec (n align : Nat) :
    2 ^ align ∣ alignTo n align ∧ n ≤ alignTo n align ∧ alignTo n align < n + 2 ^ align := by
  have pos : 0 < 2 ^ align := Nat.two_pow_pos align
  have division := Nat.div_add_mod n (2 ^ align)
  have small := Nat.mod_lt n pos
  simp only [alignTo, Nat.one_shiftLeft]
  split
  · rename_i exact
    exact ⟨Nat.dvd_of_mod_eq_zero exact, Nat.le_refl _, by omega⟩
  · rw [Nat.mul_comm] at division
    refine ⟨Nat.dvd_add (Nat.dvd_mul_left _ _) (Nat.dvd_refl _), by omega, by omega⟩

theorem window_of_tree {g : Globals} (laid : Laid g) {t : Nat} (valid : TreeIndex g t) :
    windowStart g (g.allTrees t) = windowOf g t := by
  unfold windowStart windowOf
  rw [laid.arrays t valid.1 valid.2, Nat.add_sub_cancel_left, Nat.mul_div_cancel _ (by decide)]
  rfl

theorem window_aligned {g : Globals} (laid : Laid g) (t : Nat) : memGap ∣ windowOf g t := by
  unfold windowOf
  rw [laid.area]
  exact Nat.dvd_add (Nat.dvd_add laid.aligned (Nat.dvd_refl _)) (Nat.dvd_mul_left _ _)

theorem root_placed {g : Globals} (laid : Laid g) {t : Nat} (valid : TreeIndex g t) :
    Placed g (g.allTrees t) 12 1 (windowOf g t) :=
  window_of_tree laid valid ▸ placed_root g (g.allTrees t)

theorem window_positive {g : Globals} (laid : Laid g) (t : Nat) : 0 < windowOf g t := by
  have area := laid.area
  have positive := laid.positive
  unfold windowOf
  omega

theorem node_arrays_disjoint {g : Globals} (laid : Laid g) {t u j k : Nat}
    (ht : TreeIndex g t) (hu : TreeIndex g u) (jTop : j < 8192) (kTop : k < 8192)
    (same : g.allTrees t + j = g.allTrees u + k) : t = u ∧ j = k := by
  rw [laid.arrays t ht.1 ht.2, laid.arrays u hu.1 hu.2] at same
  have := ht.1
  have := hu.1
  omega

theorem node_cell_below {g : Globals} (laid : Laid g) {x : Nat} (cell : NodeCell g x) :
    g.realStartAddr < x ∧ x < g.beginAllocAddr := by
  obtain ⟨t, j, valid, pos, top, rfl⟩ := cell
  rw [laid.arrays t valid.1 valid.2]
  have few := laid.few
  have area := laid.area
  have last := valid.2
  have room : 32 * 8192 ≤ memGap := by decide
  omega

theorem trees_update {g : Globals} (laid : Laid g) {mem mem' : Mem} {shape : Nat → Buddy 12}
    {t : Nat} {b : Buddy 12} (valid : TreeIndex g t) (trees : Trees g mem shape)
    (rep : Rep mem' (g.allTrees t) 1 b) (frame : Frame mem mem' (g.allTrees t) 12 1) :
    Trees g mem' (Function.update shape t b) := by
  intro u hu
  by_cases same : u = t
  · subst same
    rw [Function.update_self]
    exact rep
  · rw [Function.update_of_ne same]
    refine rep_congr (by decide) (fun j inside => frame _ fun k inside' eq => ?_) (trees u hu)
    have top := (in_sub_bound (root_placed laid hu) inside).2
    have top' := (in_sub_bound (root_placed laid valid) inside').2
    exact same (node_arrays_disjoint laid hu valid top top' eq).1

theorem frame_outside {g : Globals} (laid : Laid g) {mem mem' : Mem} {t : Nat}
    (valid : TreeIndex g t) (frame : Frame mem mem' (g.allTrees t) 12 1) {x : Nat}
    (outside : ¬ NodeCell g x) : mem' x = mem x := by
  refine frame x fun j inside eq => outside ⟨t, j, valid, ?_⟩
  have bound := in_sub_bound (root_placed laid valid) inside
  exact ⟨bound.1, bound.2, eq⟩

theorem trees_congr {g : Globals} (laid : Laid g) {mem mem' : Mem} {shape : Nat → Buddy 12}
    (trees : Trees g mem shape) (same : ∀ x, NodeCell g x → mem' x = mem x) :
    Trees g mem' shape := by
  intro t valid
  refine rep_congr (by decide) (fun j inside => same _ ⟨t, j, valid, ?_⟩) (trees t valid)
  have bound := in_sub_bound (root_placed laid valid) inside
  exact ⟨bound.1, bound.2, rfl⟩

theorem alloc_in_trees {g : Globals} (laid : Laid g) {mem : Mem} {shape : Nat → Buddy 12}
    {t req : Nat} (valid : TreeIndex g t) (trees : Trees g mem shape) (real : 12 ≤ req)
    (enough : req ≤ mem (g.allTrees t + 1)) :
    ∃ a mem' b', Taken g (g.allTrees t) mem 1 (windowOf g t) req (shape t) a mem' b' ∧
      Trees g mem' (Function.update shape t b') := by
  obtain ⟨a, mem', b', taken⟩ := get_refines_take (shape t) (root_placed laid valid)
    (window_positive laid t) (trees t valid) real enough
  exact ⟨a, mem', b', taken, trees_update laid valid trees taken.rep taken.frame⟩

theorem free_in_trees {g : Globals} (laid : Laid g) {mem : Mem} {shape : Nat → Buddy 12}
    {t a k : Nat} (valid : TreeIndex g t) (trees : Trees g mem shape)
    (live : (a, k) ∈ blocks 12 (windowOf g t) (shape t)) :
    ∃ mem' b', Given g (g.allTrees t) mem 1 (windowOf g t) k (shape t) a mem' b' ∧
      Trees g mem' (Function.update shape t b') := by
  obtain ⟨mem', b', given⟩ := free_refines_give (shape t) (root_placed laid valid)
    (trees t valid) live
  exact ⟨mem', b', given, trees_update laid valid trees given.rep given.frame⟩

structure InitRounds (mem : Mem) (allTrees : Nat → Nat) (curTreeAddr treeCnt n : Nat)
    (result : Mem × (Nat → Nat) × Nat) : Prop where
  count : result.2.2 = treeCnt + n
  arrays : ∀ i, i < n → result.2.1 (treeCnt + i) = curTreeAddr + i * 8192
  older : ∀ t, t < treeCnt → result.2.1 t = allTrees t
  levels : ∀ i j, i < n → 0 < j → j < 8192 →
    result.1 (curTreeAddr + i * 8192 + j) = 24 - j.log2
  below : ∀ x, x ≤ curTreeAddr → result.1 x = mem x

theorem bbma_init_loop_spec {stop n fuel : Nat} (mem : Mem) (allTrees : Nat → Nat)
    (curTreeAddr curMemAddr treeCnt : Nat) (rounds : (stop - curMemAddr) / memGap = n)
    (enough : n ≤ fuel) :
    InitRounds mem allTrees curTreeAddr treeCnt n
      (bbmaInitLoop stop fuel mem allTrees curTreeAddr curMemAddr treeCnt) := by
  have gap : 0 < memGap := by decide
  induction n generalizing fuel mem allTrees curTreeAddr curMemAddr treeCnt with
  | zero =>
    have small : stop - curMemAddr < memGap := by
      rcases Nat.div_eq_zero_iff.mp rounds with zero | small
      · omega
      · exact small
    have stays : bbmaInitLoop stop fuel mem allTrees curTreeAddr curMemAddr treeCnt =
        (mem, allTrees, treeCnt) := by
      cases fuel with
      | zero => rfl
      | succ fuel => rw [bbmaInitLoop, if_neg (by omega)]
    rw [stays]
    exact ⟨rfl, fun i h => by omega, fun _ _ => rfl, fun i j h => by omega, fun _ _ => rfl⟩
  | succ n ih =>
    have more : memGap ≤ stop - curMemAddr := by
      rcases Nat.lt_or_ge (stop - curMemAddr) memGap with small | large
      · rw [Nat.div_eq_of_lt small] at rounds
        omega
      · exact large
    have next : (stop - (curMemAddr + memGap)) / memGap = n := by
      rw [Nat.div_eq_sub_div gap more] at rounds
      rw [Nat.sub_add_eq]
      omega
    obtain ⟨fuel, rfl⟩ := Nat.exists_eq_add_of_lt (Nat.lt_of_lt_of_le (Nat.succ_pos n) enough)
    rw [Nat.zero_add, bbmaInitLoop, if_pos (by omega)]
    obtain ⟨count, arrays, older, levels, below⟩ := ih (initializeTree mem curTreeAddr)
      (Function.update allTrees treeCnt curTreeAddr) (curTreeAddr + 8192)
      (curMemAddr + memGap) (treeCnt + 1) next (show n ≤ fuel by omega)
    refine ⟨by rw [count]; omega, ?_, ?_, ?_, ?_⟩
    · intro i bound
      cases i with
      | zero =>
        rw [show treeCnt + 0 = treeCnt by omega, older treeCnt (by omega), Function.update_self]
        omega
      | succ i =>
        rw [show treeCnt + (i + 1) = treeCnt + 1 + i by omega, arrays i (by omega)]
        omega
    · intro t before
      rw [older t (by omega), Function.update_of_ne (by omega)]
    · intro i j bound pos top
      cases i with
      | zero =>
        rw [show curTreeAddr + 0 * 8192 + j = curTreeAddr + j by omega, below _ (by omega)]
        exact (initialize_tree_spec mem curTreeAddr).1 j pos top
      | succ i =>
        rw [show curTreeAddr + (i + 1) * 8192 + j = curTreeAddr + 8192 + i * 8192 + j by omega]
        exact levels i j (by omega) pos top
    · intro x before
      rw [below x (by omega)]
      exact (initialize_tree_spec mem curTreeAddr).2 x fun j pos _ => by omega

theorem laid_of_rounds {mem : Mem} {allTrees : Nat → Nat} {start n : Nat}
    {result : Mem × (Nat → Nat) × Nat} (positive : 0 < start) (aligned : memGap ∣ start)
    (few : n ≤ 32) (loop : InitRounds mem allTrees start 1 n result) :
    Laid ⟨start, start + memGap, result.2.2 - 1, result.2.1⟩ ∧
      Trees ⟨start, start + memGap, result.2.2 - 1, result.2.1⟩ result.1 (fun _ => .free) ∧
      result.2.2 - 1 = n := by
  have trees : result.2.2 - 1 = n := by
    have := loop.count
    omega
  have laid : Laid ⟨start, start + memGap, result.2.2 - 1, result.2.1⟩ := by
    refine ⟨positive, aligned, rfl, trees ▸ few, fun t first last => ?_⟩
    have array := loop.arrays (t - 1) (by simp only at last; omega)
    rwa [show 1 + (t - 1) = t by omega] at array
  refine ⟨laid, fun t valid => ?_, trees⟩
  refine rep_free_iff.mpr (full_of_levels (root_placed laid valid) fun j pos top => ?_)
  have first : 1 ≤ t := valid.1
  have last : t ≤ result.2.2 - 1 := valid.2
  rw [laid.arrays t valid.1 valid.2]
  exact loop.levels (t - 1) j (by omega) pos top

theorem bbma_init_spec (mem : Mem) (start stop : Nat) (positive : 0 < start)
    (aligned : memGap ∣ start) (windows : (stop - (start + memGap)) / memGap ≤ 32) :
    Laid (bbmaInit mem start stop).2 ∧
      Trees (bbmaInit mem start stop).2 (bbmaInit mem start stop).1 (fun _ => .free) ∧
      (bbmaInit mem start stop).2.treeNum = (stop - (start + memGap)) / memGap ∧
      (bbmaInit mem start stop).2.realStartAddr = start := by
  have loop := bbma_init_loop_spec mem (fun _ => 0) start (start + memGap) 1
    (Eq.refl ((stop - (start + memGap)) / memGap))
    (Nat.le_trans (Nat.div_le_self _ _) (Nat.sub_le stop _))
  obtain ⟨laid, trees, count⟩ := laid_of_rounds positive aligned windows loop
  exact ⟨laid, trees, count, rfl⟩

/-- pmm_init aligns the heap start before it calls bbma_init. -/
theorem heap_init_spec (heap : HeapRange) (mem : Mem) :
    Laid (bbmaInit mem (alignTo heap.start s16M) heap.stop).2 ∧
      Trees (bbmaInit mem (alignTo heap.start s16M) heap.stop).2
        (bbmaInit mem (alignTo heap.start s16M) heap.stop).1 (fun _ => .free) := by
  have spec := align_to_spec heap.start s16M
  have aligned : memGap ∣ alignTo heap.start s16M := by
    rw [memGap, Nat.one_shiftLeft]
    exact spec.1
  obtain ⟨laid, trees, _, _⟩ := bbma_init_spec mem (alignTo heap.start s16M) heap.stop
    (Nat.lt_of_lt_of_le heap.positive spec.2.1) aligned heap.windows
  exact ⟨laid, trees⟩

end Tbma
