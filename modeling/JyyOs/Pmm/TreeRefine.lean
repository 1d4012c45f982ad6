import JyyOs.Pmm.TreeShape

/-!
The two recursive functions of tbma.c act on the represented tree as `Take` and `Give`,
trip no assertion on the way, and write only the nodes of the subtree they were called on.
-/
namespace Tbma
open BuddyTree

variable {g : Globals} {tree : Nat}

/-- `mem'` differs from `mem` at most in the nodes of the subtree of `i`. -/
def Frame (mem mem' : Mem) (tree d i : Nat) : Prop :=
  ∀ x, (∀ j, InSub d i j → x ≠ tree + j) → mem' x = mem x

theorem frame_node {mem mem' : Mem} {d i j : Nat} (frame : Frame mem mem' tree d i)
    (outside : ¬ InSub d i j) : mem' (tree + j) = mem (tree + j) := by
  apply frame
  intro k inside same
  have : j = k := by omega
  exact outside (this ▸ inside)

theorem frame_update {mem mem' : Mem} {d i : Nat} {value : Nat}
    (frame : Frame mem mem' tree d i) :
    Frame mem (Function.update mem' (tree + i) value) tree d i := by
  intro x outside
  rw [Function.update_of_ne (outside i (in_sub_self d i))]
  exact frame x outside

theorem frame_left {mem mem' : Mem} {d i : Nat} (frame : Frame mem mem' tree d (leftChild i)) :
    Frame mem mem' tree (d + 1) i :=
  fun x outside => frame x fun j inside => outside j (in_sub_left inside)

theorem frame_right {mem mem' : Mem} {d i : Nat} (frame : Frame mem mem' tree d (rightChild i)) :
    Frame mem mem' tree (d + 1) i :=
  fun x outside => frame x fun j inside => outside j (in_sub_right inside)

theorem full_congr {mem mem' : Mem} {d i : Nat}
    (same : ∀ j, InSub d i j → mem' (tree + j) = mem (tree + j)) (full : Full mem tree d i) :
    Full mem' tree d i := by
  induction d generalizing i with
  | zero => exact (same i rfl).trans full
  | succ d ih =>
    exact ⟨(same i (Or.inl rfl)).trans full.1, ih (fun j h => same j (in_sub_left h)) full.2.1,
      ih (fun j h => same j (in_sub_right h)) full.2.2⟩

theorem children_full_congr {mem mem' : Mem} {d i : Nat}
    (same : ∀ j, InSub d i j → j ≠ i → mem' (tree + j) = mem (tree + j)) (pos : 0 < i)
    (full : ChildrenFull mem tree d i) : ChildrenFull mem' tree d i := by
  cases d with
  | zero => trivial
  | succ d =>
    have notRoot := child_not_root (d := d) pos
    exact ⟨full_congr (fun j h => same j (in_sub_left h) (fun e => notRoot.1 (e ▸ h))) full.1,
      full_congr (fun j h => same j (in_sub_right h) (fun e => notRoot.2 (e ▸ h))) full.2⟩

theorem rep_congr {mem mem' : Mem} {d i : Nat} {b : Buddy d} (pos : 0 < i)
    (same : ∀ j, InSub d i j → mem' (tree + j) = mem (tree + j)) (rep : Rep mem tree i b) :
    Rep mem' tree i b := by
  induction b generalizing i with
  | free => exact rep_free_iff.mpr (full_congr same (rep_free_iff.mp rep))
  | used =>
    obtain ⟨value, children⟩ := rep_used_iff.mp rep
    exact rep_used_iff.mpr ⟨(same i (in_sub_self _ i)).trans value,
      children_full_congr (fun j h _ => same j h) pos children⟩
  | split l r hl hr =>
    have left : 0 < leftChild i := by simp only [leftChild]; omega
    have right : 0 < rightChild i := by simp only [rightChild]; omega
    refine ⟨hl left (fun j h => same j (in_sub_left h)) rep.1,
      hr right (fun j h => same j (in_sub_right h)) rep.2.1, rep.2.2.1, ?_⟩
    rw [same i (in_sub_self _ i), same _ (in_sub_left (in_sub_self _ _)),
      same _ (in_sub_right (in_sub_self _ _))]
    exact rep.2.2.2

theorem rep_normal {mem : Mem} {d i : Nat} {b : Buddy d} (rep : Rep mem tree i b) :
    Normal b := by
  induction b generalizing i with
  | free => trivial
  | used => trivial
  | split l r hl hr => exact ⟨hl rep.1, hr rep.2.1, rep.2.2.1⟩

theorem rep_value {mem : Mem} {d i : Nat} {b : Buddy d} (rep : Rep mem tree i b) :
    mem (tree + i) ≤ 12 + d ∧ (mem (tree + i) = 12 + d ↔ b = .free) ∧
      (mem (tree + i) = 0 ↔ b = .used) := by
  induction b generalizing i with
  | free =>
    have value := full_value (rep_free_iff.mp rep)
    simp [value]
  | used =>
    have value := (rep_used_iff.mp rep).1
    simp [value]
    omega
  | split l r hl hr =>
    have left := (hl rep.1).1
    have right := (hr rep.2.1).1
    simp only [reduceCtorEq, iff_false]
    rcases rep.2.2.2 with value | ⟨least, value⟩
    · omega
    · omega

theorem rep_free {mem : Mem} {d i : Nat} {b : Buddy d} (rep : Rep mem tree i b)
    (value : mem (tree + i) = 12 + d) : b = .free := (rep_value rep).2.1.mp value

theorem get_here {mem : Mem} {i addr req : Nat} (small : req ≠ 25)
    (value : mem (tree + i) = req) (convert : convertIndexToAddr g tree i req = some addr) :
    getTheFreeSpaceInTree g mem tree i req req =
      some (addr, Function.update mem (tree + i) 0) := by
  rw [getTheFreeSpaceInTree.eq_def]
  simp [value, convert, small]

def departed (mem : Mem) (tree i req : Nat) : Nat :=
  if mem (tree + i) = req then 1
  else max (mem (tree + leftChild i)) (mem (tree + rightChild i))

theorem get_down {mem mem' : Mem} {i ptr req childSize : Nat} (small : req ≠ 25)
    (below : req ≤ childSize) (enough : req ≤ mem (tree + i))
    (atMost : mem (tree + i) ≤ childSize + 1) (found : ptr ≠ 0)
    (inner : getTheFreeSpaceInTree g mem tree
      (if req ≤ mem (tree + leftChild i) then leftChild i else rightChild i) childSize req =
        some (ptr, mem')) :
    getTheFreeSpaceInTree g mem tree i (childSize + 1) req =
      some (ptr, Function.update mem' (tree + i) (departed mem' tree i req)) := by
  have passes : ¬ (req = 25 ∨ childSize + 1 < req ∨ childSize + 1 < mem (tree + i) ∨
      mem (tree + i) < req) := by omega
  have real : ¬ mem (tree + i) < req := by omega
  have above : childSize + 1 ≠ req := by omega
  rw [getTheFreeSpaceInTree.eq_def, if_neg passes, if_neg real, if_neg above]
  simp only [inner]
  rw [if_pos found]
  unfold departed
  split
  · rfl
  · rw [max_def_lt]
    split <;> split <;> first | rfl | omega

theorem open_node {mem : Mem} {d i req : Nat} {b : Buddy (d + 1)} (rep : Rep mem tree i b)
    (real : 12 ≤ req) (enough : req ≤ mem (tree + i)) :
    ∃ l r, Rep mem tree (leftChild i) l ∧ Rep mem tree (rightChild i) r ∧
      (b = .split l r ∨ b = .free ∧ l = .free ∧ r = .free) ∧
      (mem (tree + i) = max (mem (tree + leftChild i)) (mem (tree + rightChild i)) ∨
        mem (tree + leftChild i) = 12 + d ∧ mem (tree + rightChild i) = 12 + d) := by
  cases b with
  | free =>
    obtain ⟨_, left, right⟩ := rep_free_iff.mp rep
    exact ⟨.free, .free, rep_free_iff.mpr left, rep_free_iff.mpr right, Or.inr ⟨rfl, rfl, rfl⟩,
      Or.inr ⟨full_value left, full_value right⟩⟩
  | used =>
    have value := (rep_used_iff.mp rep).1
    omega
  | split l r =>
    obtain ⟨left, right, _, summary⟩ := rep
    refine ⟨l, r, left, right, Or.inl rfl, Or.inl ?_⟩
    rcases summary with value | ⟨_, value⟩
    · omega
    · exact value

theorem take_from_left {d addr a req : Nat} {b : Buddy (d + 1)} {l l' r : Buddy d}
    (halves : b = .split l r ∨ b = .free ∧ l = .free ∧ r = .free)
    (take : Take 12 req addr l a l') : Take 12 req addr b a (.split l' r) := by
  rcases halves with rfl | ⟨rfl, rfl, rfl⟩
  · exact Take.left take
  · exact Take.openLeft take

theorem take_from_right {d addr a req : Nat} {b : Buddy (d + 1)} {l r r' : Buddy d}
    (halves : b = .split l r ∨ b = .free ∧ l = .free ∧ r = .free)
    (take : Take 12 req (addr + 2 ^ (12 + d)) r a r') :
    Take 12 req addr b a (.split l r') := by
  rcases halves with rfl | ⟨rfl, rfl, rfl⟩
  · exact Take.right take
  · exact Take.openRight take

theorem take_address {d addr a req : Nat} {b b' : Buddy d} (take : Take 12 req addr b a b') :
    addr ≤ a := by
  have mem := (take_blocks take).mem_iff.mpr List.mem_cons_self
  exact (block_bounds b' mem).1

/-- The effect of one descent of `getTheFreeSpaceInTree`. A request below the old summary
    leaves a real summary behind, a request equal to it never does. -/
structure Taken (g : Globals) (tree : Nat) {d : Nat} (mem : Mem) (i addr req : Nat)
    (b : Buddy d) (a : Nat) (mem' : Mem) (b' : Buddy d) : Prop where
  run : getTheFreeSpaceInTree g mem tree i (12 + d) req = some (a, mem')
  take : Take 12 req addr b a b'
  rep : Rep mem' tree i b'
  frame : Frame mem mem' tree d i
  rest : req < mem (tree + i) → 12 ≤ mem' (tree + i)
  least : mem (tree + i) = req → mem' (tree + i) ≤ 1

theorem taken_here {mem : Mem} {d i addr : Nat} (placed : Placed g tree d i addr)
    (full : Full mem tree d i) :
    Taken g tree mem i addr (12 + d) (.free : Buddy d) addr
      (Function.update mem (tree + i) 0) .used := by
  have value := full_value full
  have height := placed.height
  have pos : 0 < i := Nat.lt_of_lt_of_le (Nat.two_pow_pos _) placed.first
  refine ⟨get_here (by omega) value (convert_placed placed), Take.here rfl, ?_, ?_, ?_, ?_⟩
  · refine rep_used_iff.mpr ⟨Function.update_self .., ?_⟩
    refine children_full_congr (fun j _ other => ?_) pos (full_children full)
    exact Function.update_of_ne (by omega) ..
  · exact frame_update fun x _ => rfl
  · omega
  · rw [Function.update_self]
    omega

theorem departed_summary {mem mem' : Mem} {i req : Nat}
    (same : mem' (tree + i) = mem (tree + i))
    (remains : req < mem (tree + i) →
      12 ≤ max (mem' (tree + leftChild i)) (mem' (tree + rightChild i)))
    (enough : req ≤ mem (tree + i)) :
    Summary (departed mem' tree i req) (mem' (tree + leftChild i)) (mem' (tree + rightChild i)) ∧
      (req < mem (tree + i) → 12 ≤ departed mem' tree i req) := by
  unfold departed Summary
  rw [same]
  split
  · exact ⟨Or.inl rfl, by omega⟩
  · have := remains (by omega)
    exact ⟨Or.inr ⟨this, rfl⟩, fun _ => this⟩

/-- Writing node `i` itself keeps what the two subtrees below it represent. -/
theorem rep_split_update {mem : Mem} {d i value : Nat} {l r : Buddy d} (pos : 0 < i)
    (left : Rep mem tree (leftChild i) l) (right : Rep mem tree (rightChild i) r)
    (proper : ¬ (l = .free ∧ r = .free))
    (summary : Summary value (mem (tree + leftChild i)) (mem (tree + rightChild i))) :
    Rep (Function.update mem (tree + i) value) tree i (.split l r) := by
  have outside := child_not_root (d := d) pos
  have leftSame : ∀ j, InSub d (leftChild i) j →
      Function.update mem (tree + i) value (tree + j) = mem (tree + j) := by
    intro j inside
    have : j ≠ i := fun e => outside.1 (e ▸ inside)
    exact Function.update_of_ne (by omega) ..
  have rightSame : ∀ j, InSub d (rightChild i) j →
      Function.update mem (tree + i) value (tree + j) = mem (tree + j) := by
    intro j inside
    have : j ≠ i := fun e => outside.2 (e ▸ inside)
    exact Function.update_of_ne (by omega) ..
  refine ⟨rep_congr (by simp only [leftChild]; omega) leftSame left,
    rep_congr (by simp only [rightChild]; omega) rightSame right, proper, ?_⟩
  rw [leftSame _ (in_sub_self _ _), rightSame _ (in_sub_self _ _), Function.update_self]
  exact summary

theorem taken_left {mem mem1 : Mem} {d i addr a req : Nat} {b : Buddy (d + 1)} {l l' r : Buddy d}
    (placed : Placed g tree (d + 1) i addr) (notNull : 0 < addr) (rep : Rep mem tree i b)
    (right : Rep mem tree (rightChild i) r)
    (halves : b = .split l r ∨ b = .free ∧ l = .free ∧ r = .free)
    (value : mem (tree + i) = max (mem (tree + leftChild i)) (mem (tree + rightChild i)) ∨
      mem (tree + leftChild i) = 12 + d ∧ mem (tree + rightChild i) = 12 + d)
    (real : 12 ≤ req) (below : req ≤ 12 + d) (enough : req ≤ mem (tree + i))
    (goLeft : req ≤ mem (tree + leftChild i))
    (taken : Taken g tree mem (leftChild i) addr req l a mem1 l') :
    Taken g tree mem i addr req b a
      (Function.update mem1 (tree + i) (departed mem1 tree i req)) (.split l' r) := by
  have atMost := (rep_value rep).1
  have height := placed.height
  have pos : 0 < i := Nat.lt_of_lt_of_le (Nat.two_pow_pos _) placed.first
  have outside := child_not_root (d := d) pos
  have found : a ≠ 0 := by have := take_address taken.take; omega
  have rightSame : ∀ j, InSub d (rightChild i) j → mem1 (tree + j) = mem (tree + j) :=
    fun j inside => frame_node taken.frame fun h => sub_trees_disjoint pos h inside
  have same := frame_node taken.frame outside.1
  have rest := taken.rest
  have rightValue := rightSame _ (in_sub_self _ _)
  obtain ⟨summary, rest'⟩ := departed_summary same (by omega) enough
  refine ⟨?_, take_from_left halves taken.take, ?_, frame_update (frame_left taken.frame), ?_, ?_⟩
  · refine get_down (by omega) below enough atMost found ?_
    rw [if_pos goLeft]
    exact taken.run
  · exact rep_split_update pos taken.rep
      (rep_congr (by simp only [rightChild]; omega) rightSame right)
      (fun h => take_not_free taken.take h.1) summary
  · rw [Function.update_self]
    exact rest'
  · intro equal
    rw [Function.update_self, departed, same, if_pos equal]

theorem taken_right {mem mem1 : Mem} {d i addr a req : Nat} {b : Buddy (d + 1)}
    {l r r' : Buddy d}
    (placed : Placed g tree (d + 1) i addr) (rep : Rep mem tree i b)
    (left : Rep mem tree (leftChild i) l)
    (halves : b = .split l r ∨ b = .free ∧ l = .free ∧ r = .free)
    (value : mem (tree + i) = max (mem (tree + leftChild i)) (mem (tree + rightChild i)) ∨
      mem (tree + leftChild i) = 12 + d ∧ mem (tree + rightChild i) = 12 + d)
    (below : req ≤ 12 + d) (enough : req ≤ mem (tree + i))
    (goRight : ¬ req ≤ mem (tree + leftChild i))
    (taken : Taken g tree mem (rightChild i) (addr + 2 ^ (12 + d)) req r a mem1 r') :
    Taken g tree mem i addr req b a
      (Function.update mem1 (tree + i) (departed mem1 tree i req)) (.split l r') := by
  have atMost := (rep_value rep).1
  have height := placed.height
  have pos : 0 < i := Nat.lt_of_lt_of_le (Nat.two_pow_pos _) placed.first
  have outside := child_not_root (d := d) pos
  have half : 0 < 2 ^ (12 + d) := Nat.two_pow_pos _
  have found : a ≠ 0 := by have := take_address taken.take; omega
  have leftSame : ∀ j, InSub d (leftChild i) j → mem1 (tree + j) = mem (tree + j) :=
    fun j inside => frame_node taken.frame fun h => sub_trees_disjoint pos inside h
  have same := frame_node taken.frame outside.2
  have rest := taken.rest
  obtain ⟨summary, rest'⟩ := departed_summary same (by omega) enough
  refine ⟨?_, take_from_right halves taken.take, ?_, frame_update (frame_right taken.frame),
    ?_, ?_⟩
  · refine get_down (by omega) below enough atMost found ?_
    rw [if_neg goRight]
    exact taken.run
  · exact rep_split_update pos
      (rep_congr (by simp only [leftChild]; omega) leftSame left) taken.rep
      (fun h => take_not_free taken.take h.2) summary
  · rw [Function.update_self]
    exact rest'
  · intro equal
    rw [Function.update_self, departed, same, if_pos equal]

theorem get_refines_take {d : Nat} (b : Buddy d) {mem : Mem} {i addr req : Nat}
    (placed : Placed g tree d i addr) (notNull : 0 < addr) (rep : Rep mem tree i b)
    (real : 12 ≤ req) (enough : req ≤ mem (tree + i)) :
    ∃ a mem' b', Taken g tree mem i addr req b a mem' b' := by
  induction d generalizing mem i addr with
  | zero =>
    have atMost := (rep_value rep).1
    have size : req = 12 + 0 := by omega
    have isFree := rep_free rep (by omega)
    subst isFree size
    exact ⟨_, _, _, taken_here placed (rep_free_iff.mp rep)⟩
  | succ d ih =>
    have atMost := (rep_value rep).1
    by_cases whole : req = 12 + (d + 1)
    · have isFree := rep_free rep (by omega)
      subst isFree whole
      exact ⟨_, _, _, taken_here placed (rep_free_iff.mp rep)⟩
    · have below : req ≤ 12 + d := by omega
      obtain ⟨l, r, left, right, halves, value⟩ := open_node rep real enough
      obtain ⟨placedLeft, placedRight⟩ := placed_children placed
      by_cases goLeft : req ≤ mem (tree + leftChild i)
      · obtain ⟨a, mem1, l', taken⟩ := ih l placedLeft notNull left goLeft
        exact ⟨a, _, _, taken_left placed notNull rep right halves value real below enough goLeft
          taken⟩
      · have goRight : req ≤ mem (tree + rightChild i) := by omega
        have notNull' : 0 < addr + 2 ^ (12 + d) := Nat.add_pos_left notNull _
        obtain ⟨a, mem1, r', taken⟩ := ih r placedRight notNull' right goRight
        exact ⟨a, _, _, taken_right placed rep left halves value below enough goLeft taken⟩

theorem rep_unique {mem : Mem} {d i : Nat} {b b' : Buddy d} (rep : Rep mem tree i b)
    (rep' : Rep mem tree i b') : b = b' := by
  induction b generalizing i with
  | free => exact (rep_free rep' ((rep_value rep).2.1.mpr rfl)).symm
  | used => exact ((rep_value rep').2.2.mp ((rep_value rep).2.2.mpr rfl)).symm
  | split l r hl hr =>
    have notFree := (rep_value rep).2.1
    have notUsed := (rep_value rep).2.2
    cases b' with
    | free => exact absurd (notFree.mp ((rep_value rep').2.1.mpr rfl)) (by simp)
    | used => exact absurd (notUsed.mp ((rep_value rep').2.2.mpr rfl)) (by simp)
    | split l' r' => rw [hl rep.1 rep'.1, hr rep.2.1 rep'.2.1]

theorem taken_unique {mem mem1 mem2 : Mem} {d i addr req a1 a2 : Nat} {b b1 b2 : Buddy d}
    (first : Taken g tree mem i addr req b a1 mem1 b1)
    (second : Taken g tree mem i addr req b a2 mem2 b2) : mem1 = mem2 ∧ b1 = b2 := by
  have run := first.run.symm.trans second.run
  simp only [Option.some.injEq, Prod.mk.injEq] at run
  obtain ⟨rfl, rfl⟩ := run
  exact ⟨rfl, rep_unique first.rep second.rep⟩

def coalesced (mem : Mem) (tree i childSize : Nat) : Nat :=
  if mem (tree + leftChild i) = childSize ∧ mem (tree + rightChild i) = childSize then
    childSize + 1
  else max (mem (tree + leftChild i)) (mem (tree + rightChild i))

theorem free_here {mem : Mem} {i addr curSize : Nat} (inRange : i ≤ 8192)
    (value : mem (tree + i) = 0) (convert : convertIndexToAddr g tree i curSize = some addr) :
    freeTreePtr g mem tree i addr curSize = some (Function.update mem (tree + i) curSize) := by
  have passes : ¬ (8192 < i ∨ curSize < mem (tree + i)) := by omega
  rw [freeTreePtr.eq_def, if_neg passes]
  simp [convert, value]

theorem free_down {mem mem' : Mem} {i addr ptr childSize : Nat} (inRange : i ≤ 8192)
    (atMost : mem (tree + i) ≤ childSize + 1) (value : mem (tree + i) ≠ 0)
    (convert : convertIndexToAddr g tree i (childSize + 1) = some addr) (inside : addr ≤ ptr)
    (inner : freeTreePtr g mem tree
      (if ptr < addr + 2 ^ childSize then leftChild i else rightChild i) ptr childSize = some mem')
    (remains : 2 ≤ coalesced mem' tree i childSize) :
    freeTreePtr g mem tree i ptr (childSize + 1) =
      some (Function.update mem' (tree + i) (coalesced mem' tree i childSize)) := by
  have passes : ¬ (8192 < i ∨ childSize + 1 < mem (tree + i)) := by omega
  have order : ¬ ptr < addr := by omega
  have notHere : ¬ (addr = ptr ∧ mem (tree + i) = 0) := fun h => value h.2
  have pos : 0 < 2 ^ childSize := Nat.two_pow_pos _
  have down : (if addr = ptr then leftChild i
      else if ptr < addr + 1 <<< childSize then leftChild i else rightChild i) =
      if ptr < addr + 2 ^ childSize then leftChild i else rightChild i := by
    rw [Nat.one_shiftLeft]
    split
    · rw [if_pos (by omega)]
    · rfl
  have larger : (if mem' (tree + rightChild i) ≤ mem' (tree + leftChild i) then
      mem' (tree + leftChild i) else mem' (tree + rightChild i)) =
      max (mem' (tree + leftChild i)) (mem' (tree + rightChild i)) := by
    rw [max_def_lt]
    split <;> split <;> first | rfl | omega
  have real : ¬ (coalesced mem' tree i childSize = 1 ∨ coalesced mem' tree i childSize = 0) := by
    omega
  rw [freeTreePtr.eq_def, if_neg passes]
  simp only [convert, if_neg order, if_neg notHere, down, inner, larger]
  exact if_neg real

structure Given (g : Globals) (tree : Nat) {d : Nat} (mem : Mem) (i addr k : Nat)
    (b : Buddy d) (a : Nat) (mem' : Mem) (b' : Buddy d) : Prop where
  run : freeTreePtr g mem tree i a (12 + d) = some mem'
  give : Give 12 k addr b a b'
  rep : Rep mem' tree i b'
  frame : Frame mem mem' tree d i
  real : 12 ≤ mem' (tree + i)

theorem rep_join_update {mem : Mem} {d i : Nat} {l r : Buddy d} (pos : 0 < i)
    (left : Rep mem tree (leftChild i) l) (right : Rep mem tree (rightChild i) r)
    (remains : 12 ≤ mem (tree + leftChild i) ∨ 12 ≤ mem (tree + rightChild i)) :
    Rep (Function.update mem (tree + i) (coalesced mem tree i (12 + d))) tree i (join l r) ∧
      12 ≤ coalesced mem tree i (12 + d) := by
  have outside := child_not_root (d := d) pos
  have leftValue := (rep_value left).2.1
  have rightValue := (rep_value right).2.1
  unfold coalesced
  by_cases bothFree : mem (tree + leftChild i) = 12 + d ∧ mem (tree + rightChild i) = 12 + d
  · obtain rfl := leftValue.mp bothFree.1
    obtain rfl := rightValue.mp bothFree.2
    rw [if_pos bothFree]
    refine ⟨rep_free_iff.mpr (full_of_children (Function.update_self ..) ?_), by omega⟩
    refine children_full_congr (fun j _ other => Function.update_of_ne (by omega) ..) pos ?_
    exact ⟨rep_free_iff.mp left, rep_free_iff.mp right⟩
  · have proper : ¬ (l = .free ∧ r = .free) := fun h =>
      bothFree ⟨leftValue.mpr h.1, rightValue.mpr h.2⟩
    rw [if_neg bothFree]
    have split : join l r = .split l r := by
      cases l <;> cases r <;> simp_all [join]
    rw [split]
    exact ⟨rep_split_update pos left right proper (Or.inr ⟨by omega, rfl⟩), by omega⟩

theorem given_left {mem mem1 : Mem} {d i addr a k : Nat} {l l' r : Buddy d}
    (placed : Placed g tree (d + 1) i addr) (rep : Rep mem tree i (.split l r))
    (inLeft : (a, k) ∈ blocks 12 addr l)
    (given : Given g tree mem (leftChild i) addr k l a mem1 l') :
    Given g tree mem i addr k (.split l r) a
      (Function.update mem1 (tree + i) (coalesced mem1 tree i (12 + d))) (join l' r) := by
  have pos : 0 < i := Nat.lt_of_lt_of_le (Nat.two_pow_pos _) placed.first
  have bound := (in_sub_bound placed (in_sub_self (d + 1) i)).2
  have value : mem (tree + i) ≠ 0 := fun h => by simpa using (rep_value rep).2.2.mp h
  have size : 0 < 2 ^ k := Nat.two_pow_pos _
  have inside := block_bounds l inLeft
  have rightSame : ∀ j, InSub d (rightChild i) j → mem1 (tree + j) = mem (tree + j) :=
    fun j inside => frame_node given.frame fun h => sub_trees_disjoint pos h inside
  have goLeft : a < addr + 2 ^ (12 + d) := by
    have upper : a + 2 ^ k ≤ addr + 2 ^ (12 + d) := inside.2
    omega
  obtain ⟨joined, remains⟩ := rep_join_update pos given.rep
    (rep_congr (by simp only [rightChild]; omega) rightSame rep.2.1) (Or.inl given.real)
  refine ⟨?_, Give.left given.give, joined, frame_update (frame_left given.frame), ?_⟩
  · refine free_down (by omega) (rep_value rep).1 value (convert_placed placed) inside.1 ?_
      (Nat.le_trans (by decide) remains)
    exact (if_pos goLeft).symm ▸ given.run
  · rw [Function.update_self]
    exact remains

theorem given_right {mem mem1 : Mem} {d i addr a k : Nat} {l r r' : Buddy d}
    (placed : Placed g tree (d + 1) i addr) (rep : Rep mem tree i (.split l r))
    (inRight : (a, k) ∈ blocks 12 (addr + 2 ^ (12 + d)) r)
    (given : Given g tree mem (rightChild i) (addr + 2 ^ (12 + d)) k r a mem1 r') :
    Given g tree mem i addr k (.split l r) a
      (Function.update mem1 (tree + i) (coalesced mem1 tree i (12 + d))) (join l r') := by
  have pos : 0 < i := Nat.lt_of_lt_of_le (Nat.two_pow_pos _) placed.first
  have bound := (in_sub_bound placed (in_sub_self (d + 1) i)).2
  have value : mem (tree + i) ≠ 0 := fun h => by simpa using (rep_value rep).2.2.mp h
  have inside : addr + 2 ^ (12 + d) ≤ a := (block_bounds r inRight).1
  have leftSame : ∀ j, InSub d (leftChild i) j → mem1 (tree + j) = mem (tree + j) :=
    fun j inside => frame_node given.frame fun h => sub_trees_disjoint pos inside h
  have goRight : ¬ a < addr + 2 ^ (12 + d) := by omega
  obtain ⟨joined, remains⟩ := rep_join_update pos
    (rep_congr (by simp only [leftChild]; omega) leftSame rep.1) given.rep (Or.inr given.real)
  refine ⟨?_, Give.right given.give, joined, frame_update (frame_right given.frame), ?_⟩
  · refine free_down (by omega) (rep_value rep).1 value (convert_placed placed)
      (Nat.le_trans (Nat.le_add_right _ _) inside) ?_ (Nat.le_trans (by decide) remains)
    exact (if_neg goRight).symm ▸ given.run
  · rw [Function.update_self]
    exact remains

theorem given_here {mem : Mem} {d i addr : Nat} (placed : Placed g tree d i addr)
    (rep : Rep mem tree i (.used : Buddy d)) :
    Given g tree mem i addr (12 + d) (.used : Buddy d) addr
      (Function.update mem (tree + i) (12 + d)) .free := by
  obtain ⟨value, children⟩ := rep_used_iff.mp rep
  have pos : 0 < i := Nat.lt_of_lt_of_le (Nat.two_pow_pos _) placed.first
  have bound := (in_sub_bound placed (in_sub_self d i)).2
  refine ⟨free_here (by omega) value (convert_placed placed), Give.here rfl, ?_, ?_, ?_⟩
  · refine rep_free_iff.mpr (full_of_children (Function.update_self ..) ?_)
    exact children_full_congr (fun j _ other => Function.update_of_ne (by omega) ..) pos children
  · exact frame_update fun x _ => rfl
  · rw [Function.update_self]; omega

theorem free_refines_give {d : Nat} (b : Buddy d) {mem : Mem} {i addr a k : Nat}
    (placed : Placed g tree d i addr) (rep : Rep mem tree i b)
    (live : (a, k) ∈ blocks 12 addr b) :
    ∃ mem' b', Given g tree mem i addr k b a mem' b' := by
  induction b generalizing mem i addr with
  | free => simp [blocks] at live
  | used =>
    simp only [blocks, List.mem_singleton, Prod.mk.injEq] at live
    obtain ⟨rfl, rfl⟩ := live
    exact ⟨_, _, given_here placed rep⟩
  | split l r hl hr =>
    obtain ⟨placedLeft, placedRight⟩ := placed_children placed
    simp only [blocks, List.mem_append] at live
    rcases live with inLeft | inRight
    · obtain ⟨mem1, l', given⟩ := hl placedLeft rep.1 inLeft
      exact ⟨_, _, given_left placed rep inLeft given⟩
    · obtain ⟨mem1, r', given⟩ := hr placedRight rep.2.1 inRight
      exact ⟨_, _, given_right placed rep inRight given⟩

theorem given_unique {mem mem1 mem2 : Mem} {d i addr k a : Nat} {b b1 b2 : Buddy d}
    (first : Given g tree mem i addr k b a mem1 b1)
    (second : Given g tree mem i addr k b a mem2 b2) : mem1 = mem2 ∧ b1 = b2 := by
  have run := first.run.symm.trans second.run
  simp only [Option.some.injEq] at run
  subst run
  exact ⟨rfl, rep_unique first.rep second.rep⟩

end Tbma
