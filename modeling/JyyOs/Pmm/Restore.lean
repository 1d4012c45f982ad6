import JyyOs.Pmm.SummaryRun

/-!
A free right after an allocation on the same tree restores every node. The search passes exact
summaries only, and the free recomputes just these.
-/
namespace Tbma
open BuddyTree PartialRun

variable {g : Globals} {tree : Nat}

/-- A node the search passes shows what a free makes of its children. -/
theorem coalesced_restores {mem : Mem} {d i req : Nat} {b : Buddy (d + 1)}
    (rep : Rep mem tree i b) (real : 12 ≤ req) (enough : req ≤ mem (tree + i)) :
    coalesced mem tree i (12 + d) = mem (tree + i) := by
  unfold coalesced
  cases b with
  | free =>
    obtain ⟨value, left, right⟩ := rep_free_iff.mp rep
    rw [if_pos ⟨full_value left, full_value right⟩, value]
    rfl
  | used =>
    have value := (rep_used_iff.mp rep).1
    omega
  | split l r =>
    obtain ⟨left, right, proper, summary⟩ := rep
    rw [if_neg fun both => proper ⟨rep_free left both.1, rep_free right both.2⟩]
    rcases summary with value | ⟨_, value⟩
    · omega
    · exact value.symm

def SameNodes (mem mem' : Mem) (tree d i : Nat) : Prop :=
  ∀ j, InSub d i j → mem' (tree + j) = mem (tree + j)

theorem same_nodes_here {mem mem' : Mem} {d i : Nat} (root : mem' (tree + i) = mem (tree + i))
    (left : SameNodes mem mem' tree d (leftChild i))
    (right : SameNodes mem mem' tree d (rightChild i)) : SameNodes mem mem' tree (d + 1) i := by
  rintro j (rfl | inLeft | inRight)
  · exact root
  · exact left j inLeft
  · exact right j inRight

theorem same_nodes_update {mem : Mem} {d i value : Nat} (pos : 0 < i) :
    SameNodes mem (Function.update mem (tree + i) value) tree d (leftChild i) ∧
      SameNodes mem (Function.update mem (tree + i) value) tree d (rightChild i) := by
  have outside := child_not_root (d := d) pos
  constructor
  · intro j inside
    have apart : j ≠ i := fun e => outside.1 (e ▸ inside)
    exact Function.update_of_ne (by omega) ..
  · intro j inside
    have apart : j ≠ i := fun e => outside.2 (e ▸ inside)
    exact Function.update_of_ne (by omega) ..

theorem same_nodes_trans {mem mem1 mem2 : Mem} {d i : Nat} (first : SameNodes mem mem1 tree d i)
    (second : SameNodes mem1 mem2 tree d i) : SameNodes mem mem2 tree d i :=
  fun j inside => (second j inside).trans (first j inside)

theorem restored_above {mem memB : Mem} {d i : Nat} (pos : 0 < i)
    (left : SameNodes mem memB tree d (leftChild i))
    (right : SameNodes mem memB tree d (rightChild i))
    (shown : coalesced mem tree i (12 + d) = mem (tree + i)) :
    SameNodes mem (Function.update memB (tree + i) (coalesced memB tree i (12 + d))) tree (d + 1)
      i := by
  obtain ⟨keepsLeft, keepsRight⟩ := same_nodes_update pos
  apply same_nodes_here
  · rw [Function.update_self, ← shown, coalesced, coalesced, left _ (in_sub_self _ _),
      right _ (in_sub_self _ _)]
  · exact same_nodes_trans left keepsLeft
  · exact same_nodes_trans right keepsRight

theorem taken_same_address {mem mem1 mem2 : Mem} {d i addr req a1 a2 : Nat} {b b1 b2 : Buddy d}
    (first : Taken g tree mem i addr req b a1 mem1 b1)
    (second : Taken g tree mem i addr req b a2 mem2 b2) : a1 = a2 := by
  have run := first.run.symm.trans second.run
  exact (Prod.mk.inj (Option.some.inj run)).1

theorem restores_here {d : Nat} {b' bB : Buddy d} {mem mem' memA memB : Mem} {i addr a : Nat}
    (placed : Placed g tree d i addr) (full : Full mem tree d i)
    (taken : Taken g tree mem i addr (12 + d) (.free : Buddy d) a mem' b')
    (same : SameNodes mem' memA tree d i)
    (given : Given g tree memA i addr (12 + d) b' a memB bB) : SameNodes mem memB tree d i := by
  have pos : 0 < i := Nat.lt_of_lt_of_le (Nat.two_pow_pos _) placed.first
  have here := taken_here placed full
  obtain rfl := taken_same_address taken here
  obtain ⟨rfl, rfl⟩ := taken_unique taken here
  have back := given_here placed (rep_congr pos same here.rep)
  obtain ⟨rfl, rfl⟩ := given_unique given back
  intro j inside
  by_cases root : j = i
  · subst root
    rw [Function.update_self, full_value full]
  · have apart : tree + j ≠ tree + i := by omega
    rw [Function.update_of_ne apart, same j inside, Function.update_of_ne apart]

theorem given_restores {d : Nat} {b b' bB : Buddy d} {mem mem' memA memB : Mem}
    {i addr a req : Nat} (placed : Placed g tree d i addr) (notNull : 0 < addr)
    (rep : Rep mem tree i b) (real : 12 ≤ req) (enough : req ≤ mem (tree + i))
    (taken : Taken g tree mem i addr req b a mem' b') (same : SameNodes mem' memA tree d i)
    (given : Given g tree memA i addr req b' a memB bB) : SameNodes mem memB tree d i := by
  induction d generalizing mem mem' memA memB i addr a with
  | zero =>
    have atMost := (rep_value rep).1
    have size : req = 12 + 0 := by omega
    have isFree := rep_free rep (by omega)
    subst isFree size
    exact restores_here placed (rep_free_iff.mp rep) taken same given
  | succ d ih =>
    have atMost := (rep_value rep).1
    have pos : 0 < i := Nat.lt_of_lt_of_le (Nat.two_pow_pos _) placed.first
    by_cases whole : req = 12 + (d + 1)
    · have isFree := rep_free rep (by omega)
      subst isFree whole
      exact restores_here placed (rep_free_iff.mp rep) taken same given
    · have below : req ≤ 12 + d := by omega
      obtain ⟨l, r, left, right, halves, value⟩ := open_node rep real enough
      obtain ⟨placedLeft, placedRight⟩ := placed_children placed
      have outside := child_not_root (d := d) pos
      have shown := coalesced_restores rep real enough
      by_cases goLeft : req ≤ mem (tree + leftChild i)
      · obtain ⟨a1, mem1, l', inner⟩ := get_refines_take l placedLeft notNull left real goLeft
        have outer := taken_left placed notNull rep right halves value real below enough goLeft inner
        obtain rfl := taken_same_address taken outer
        obtain ⟨rfl, rfl⟩ := taken_unique taken outer
        have repA := rep_congr pos same outer.rep
        have inLeft := (take_blocks inner.take).mem_iff.mpr List.mem_cons_self
        obtain ⟨memB1, bB1, back⟩ := free_refines_give l' placedLeft repA.1 inLeft
        obtain ⟨rfl, rfl⟩ := given_unique given (given_left placed repA inLeft back)
        have sameLeft : SameNodes mem1 memA tree d (leftChild i) :=
          same_nodes_trans (same_nodes_update pos).1 fun j inside => same j (in_sub_left inside)
        have sameRight : SameNodes mem1 memA tree d (rightChild i) :=
          same_nodes_trans (same_nodes_update pos).2 fun j inside => same j (in_sub_right inside)
        have takenRight : SameNodes mem mem1 tree d (rightChild i) :=
          fun j inside => frame_node inner.frame fun h => sub_trees_disjoint pos h inside
        have backRight : SameNodes memA memB1 tree d (rightChild i) :=
          fun j inside => frame_node back.frame fun h => sub_trees_disjoint pos h inside
        have restored := ih placedLeft notNull left goLeft inner sameLeft back
        exact restored_above pos restored
          (same_nodes_trans takenRight (same_nodes_trans sameRight backRight)) shown
      · have goRight : req ≤ mem (tree + rightChild i) := by omega
        have notNull' : 0 < addr + 2 ^ (12 + d) := Nat.add_pos_left notNull _
        obtain ⟨a1, mem1, r', inner⟩ := get_refines_take r placedRight notNull' right real goRight
        have outer := taken_right placed rep left halves value below enough goLeft inner
        obtain rfl := taken_same_address taken outer
        obtain ⟨rfl, rfl⟩ := taken_unique taken outer
        have repA := rep_congr pos same outer.rep
        have inRight := (take_blocks inner.take).mem_iff.mpr List.mem_cons_self
        obtain ⟨memB1, bB1, back⟩ := free_refines_give r' placedRight repA.2.1 inRight
        obtain ⟨rfl, rfl⟩ := given_unique given (given_right placed repA inRight back)
        have sameLeft : SameNodes mem1 memA tree d (leftChild i) :=
          same_nodes_trans (same_nodes_update pos).1 fun j inside => same j (in_sub_left inside)
        have sameRight : SameNodes mem1 memA tree d (rightChild i) :=
          same_nodes_trans (same_nodes_update pos).2 fun j inside => same j (in_sub_right inside)
        have takenLeft : SameNodes mem mem1 tree d (leftChild i) :=
          fun j inside => frame_node inner.frame fun h => sub_trees_disjoint pos inside h
        have backLeft : SameNodes memA memB1 tree d (leftChild i) :=
          fun j inside => frame_node back.frame fun h => sub_trees_disjoint pos inside h
        have restored := ih placedRight notNull' right goRight inner sameRight back
        exact restored_above pos (same_nodes_trans takenLeft (same_nodes_trans sameLeft backLeft))
          restored shown

/-- A root whose summary covers the request hands out a block, and its free leaves the memory as
    it was before. -/
theorem get_then_free {b : Buddy 12} {mem : Mem} {addr req : Nat} (placed : Placed g tree 12 1 addr)
    (notNull : 0 < addr) (rep : Rep mem tree 1 b) (real : 12 ≤ req)
    (enough : req ≤ mem (tree + 1)) :
    ∃ p mem', getTheFreeSpaceInTree g mem tree 1 s16M req = some (p, mem') ∧ p ≠ 0 ∧
      freeTreePtr g mem' tree 1 p s16M = some mem := by
  obtain ⟨p, mem', b', taken⟩ := get_refines_take b placed notNull rep real enough
  have live := (take_blocks taken.take).mem_iff.mpr List.mem_cons_self
  obtain ⟨mem'', b'', given⟩ := free_refines_give b' placed taken.rep live
  have restored := given_restores placed notNull rep real enough taken (fun _ _ => rfl) given
  have whole : mem'' = mem := by
    funext x
    by_cases node : ∃ j, InSub 12 1 j ∧ x = tree + j
    · obtain ⟨j, inside, rfl⟩ := node
      exact restored j inside
    · have outside : ∀ j, InSub 12 1 j → x ≠ tree + j := fun j inside same => node ⟨j, inside, same⟩
      exact (given.frame x outside).trans (taken.frame x outside)
  have real_ := take_address taken.take
  exact ⟨p, mem', taken.run, by omega, whole ▸ given.run⟩

/-- In every state that allocations and frees of live blocks lead to, an allocation a root
    summary covers succeeds, and freeing its block at once restores every node. -/
theorem alloc_then_free_restores (heap : HeapRange) (mem : Mem) (ops : List TreeOp)
    {s : TreesState} {t req : Nat}
    (ran : run (treeStep (bbmaInit mem (alignTo heap.start s16M) heap.stop).2)
      (bootTrees (bbmaInit mem (alignTo heap.start s16M) heap.stop).1) ops = some s)
    (valid : TreeIndex (bbmaInit mem (alignTo heap.start s16M) heap.stop).2 t) (real : s4K ≤ req)
    (enough : req ≤ s.mem ((bbmaInit mem (alignTo heap.start s16M) heap.stop).2.allTrees t + 1)) :
    let g := (bbmaInit mem (alignTo heap.start s16M) heap.stop).2
    ∃ p mem', getTheFreeSpaceInTree g s.mem (g.allTrees t) 1 s16M req = some (p, mem') ∧ p ≠ 0 ∧
      freeTreePtr g mem' (g.allTrees t) 1 p s16M = some s.mem := by
  intro g
  obtain ⟨laid, trees⟩ := heap_init_spec heap mem
  have preserved : ∀ s op s', (∃ shape, TreeInv g s shape) → treeStep g s op = some s' →
      ∃ shape, TreeInv g s' shape := fun s op s' inv taken => tree_step_inv laid inv taken
  obtain ⟨shape, inv⟩ := run_invariant preserved ⟨_, boot_trees_inv trees⟩ ran
  exact get_then_free (root_placed laid valid) (window_positive laid t) (inv.trees t valid) real
    enough

/-- A 4KiB block next to a node that shows GET_DEPARTED. -/
theorem alloc_then_free_restores_departed :
    ∃ s p mem', run (treeStep oneTree) (bootTrees (freshNodes (2 ^ 24))) twoAllocs = some s ∧
      s.mem (2 ^ 24 + 1024) = getDeparted ∧
      getTheFreeSpaceInTree oneTree s.mem (2 ^ 24) 1 s16M s4K = some (p, mem') ∧
      freeTreePtr oneTree mem' (2 ^ 24) 1 p s16M = some s.mem := by
  have facts : ((run (treeStep oneTree) (bootTrees (freshNodes (2 ^ 24))) twoAllocs).map
      fun s => (s.mem (2 ^ 24 + 1024), s.mem (2 ^ 24 + 1))) = some (1, 23) := by
    decide +kernel
  obtain ⟨s, ran, values⟩ := Option.map_eq_some_iff.mp facts
  obtain ⟨departed_, root⟩ := Prod.mk.inj values
  have booted := init_one_window
  have tree : oneTree.allTrees 1 = 2 ^ 24 := by decide +kernel
  have valid : TreeIndex (bbmaInit (freshNodes (2 ^ 24)) (alignTo oneWindow.start s16M)
      oneWindow.stop).2 1 := by
    rw [booted]
    exact ⟨by decide, by decide⟩
  have restores := alloc_then_free_restores oneWindow (freshNodes (2 ^ 24)) twoAllocs
    (by rw [booted]; exact ran) valid (Nat.le_refl s4K)
  rw [booted] at restores
  obtain ⟨p, mem', got, _, back⟩ := restores (by rw [tree, root]; decide)
  exact ⟨s, p, mem', ran, departed_, by rw [← tree]; exact got, by rw [← tree]; exact back⟩

end Tbma
