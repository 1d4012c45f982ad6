import JyyOs.Pmm.PmmRun

/-!
Trees that hand out nothing but 4KiB pages fill up from the left: pmm_init and any number of
page allocations after it take the pages of the windows one by one.
-/
namespace Tbma
open BuddyTree LinkedList PartialRun

variable {g : Globals} {tree : Nat}

/-- The nodes below `i` after the first `n` pages of the subtree were handed out in order. -/
def PagesFilled (mem : Mem) (tree : Nat) : Nat → Nat → Nat → Prop
  | 0, i, n => mem (tree + i) = if n = 0 then 12 else 0
  | d + 1, i, n =>
    if n = 0 then Full mem tree (d + 1) i
    else PagesFilled mem tree d (leftChild i) (min n (2 ^ d)) ∧
      PagesFilled mem tree d (rightChild i) (n - 2 ^ d) ∧
      mem (tree + i) = if 2 ^ (d + 1) ≤ n then 1
        else max (mem (tree + leftChild i)) (mem (tree + rightChild i))

section Tree

variable {mem mem' : Mem} {d i n addr : Nat}

theorem filled_none : PagesFilled mem tree d i 0 ↔ Full mem tree d i := by
  cases d with
  | zero => simp [PagesFilled, Full]
  | succ d => simp [PagesFilled]

theorem filled_halves (filled : PagesFilled mem tree (d + 1) i n) :
    PagesFilled mem tree d (leftChild i) (min n (2 ^ d)) ∧
      PagesFilled mem tree d (rightChild i) (n - 2 ^ d) := by
  by_cases none : n = 0
  · subst none
    obtain ⟨_, left, right⟩ := filled_none.mp filled
    rw [Nat.zero_min, Nat.zero_sub]
    exact ⟨filled_none.mpr left, filled_none.mpr right⟩
  · rw [PagesFilled, if_neg none] at filled
    exact ⟨filled.1, filled.2.1⟩

theorem filled_congr (same : ∀ j, InSub d i j → mem' (tree + j) = mem (tree + j))
    (filled : PagesFilled mem tree d i n) : PagesFilled mem' tree d i n := by
  induction d generalizing i n with
  | zero => exact (same i rfl).trans filled
  | succ d ih =>
    by_cases none : n = 0
    · subst none
      exact filled_none.mpr (full_congr same (filled_none.mp filled))
    · rw [PagesFilled, if_neg none] at filled ⊢
      obtain ⟨left, right, value⟩ := filled
      refine ⟨ih (fun j h => same j (in_sub_left h)) left,
        ih (fun j h => same j (in_sub_right h)) right, ?_⟩
      rw [same i (in_sub_self _ _), same _ (in_sub_left (in_sub_self _ _)),
        same _ (in_sub_right (in_sub_self _ _))]
      exact value

/-- What a node shows: at least 12 while a page is left, and 12 just for the last one. -/
structure Shows (value d n : Nat) : Prop where
  most : value ≤ 12 + d
  least : n < 2 ^ d → 12 ≤ value
  last : n < 2 ^ d → (value = 12 ↔ n + 1 = 2 ^ d)
  gone : 2 ^ d ≤ n → value ≤ 1

theorem filled_shows (filled : PagesFilled mem tree d i n) : Shows (mem (tree + i)) d n := by
  induction d generalizing i n with
  | zero =>
    rw [PagesFilled] at filled
    by_cases none : n = 0
    · rw [if_pos none] at filled
      constructor <;> omega
    · rw [if_neg none] at filled
      constructor <;> omega
  | succ d ih =>
    have two : 2 ^ (d + 1) = 2 * 2 ^ d := Nat.pow_succ'
    have pos : 0 < 2 ^ d := Nat.two_pow_pos d
    by_cases none : n = 0
    · subst none
      have value := full_value (filled_none.mp filled)
      constructor <;> omega
    · have right_free : n ≤ 2 ^ d → mem (tree + rightChild i) = 12 + d := by
        intro small
        have right := (filled_halves filled).2
        rw [Nat.sub_eq_zero_of_le small] at right
        exact full_value (filled_none.mp right)
      obtain ⟨left, right⟩ := filled_halves filled
      obtain ⟨lm, ll, ls, lg⟩ := ih left
      obtain ⟨rm, rl, rs, rg⟩ := ih right
      rw [PagesFilled, if_neg none] at filled
      have value := filled.2.2
      by_cases full : 2 ^ (d + 1) ≤ n
      · rw [if_pos full] at value
        constructor <;> omega
      · rw [if_neg full] at value
        have height : d = 0 → 2 ^ d = 1 := by
          rintro rfl
          rfl
        constructor <;> omega

structure PageTaken (g : Globals) (tree : Nat) (mem mem' : Mem) (d i addr n : Nat) : Prop where
  run : getTheFreeSpaceInTree g mem tree i (12 + d) 12 = some (addr + n * 4096, mem')
  filled : PagesFilled mem' tree d i (n + 1)
  frame : Frame mem mem' tree d i

theorem page_taken_here (placed : Placed g tree 0 i addr) (filled : PagesFilled mem tree 0 i 0) :
    PageTaken g tree mem (Function.update mem (tree + i) 0) 0 i addr 0 := by
  refine ⟨?_, ?_, frame_update fun _ _ => rfl⟩
  · rw [Nat.zero_mul, Nat.add_zero]
    exact get_here (by decide) filled (convert_placed placed)
  · exact Function.update_self ..

/-- The page above which `mem1` shows the halves after the search came back. -/
theorem filled_above {mem1 : Mem} (pos : 0 < i)
    (left : PagesFilled mem1 tree d (leftChild i) (min (n + 1) (2 ^ d)))
    (right : PagesFilled mem1 tree d (rightChild i) (n + 1 - 2 ^ d))
    (shown : mem1 (tree + i) = 12 ↔ n + 1 = 2 ^ (d + 1)) (room : n < 2 ^ (d + 1)) :
    PagesFilled (Function.update mem1 (tree + i) (departed mem1 tree i 12)) tree (d + 1) i (n + 1) := by
  have outside := child_not_root (d := d) pos
  have keeps : ∀ j, j ≠ i →
      Function.update mem1 (tree + i) (departed mem1 tree i 12) (tree + j) = mem1 (tree + j) :=
    fun j other => Function.update_of_ne (by omega) ..
  have keepsLeft : ∀ j, InSub d (leftChild i) j →
      Function.update mem1 (tree + i) (departed mem1 tree i 12) (tree + j) = mem1 (tree + j) :=
    fun j inside => keeps j fun e => outside.1 (e ▸ inside)
  have keepsRight : ∀ j, InSub d (rightChild i) j →
      Function.update mem1 (tree + i) (departed mem1 tree i 12) (tree + j) = mem1 (tree + j) :=
    fun j inside => keeps j fun e => outside.2 (e ▸ inside)
  rw [PagesFilled, if_neg (Nat.succ_ne_zero n)]
  refine ⟨filled_congr keepsLeft left, filled_congr keepsRight right, ?_⟩
  rw [Function.update_self, keepsLeft _ (in_sub_self _ _), keepsRight _ (in_sub_self _ _), departed]
  by_cases last : n + 1 = 2 ^ (d + 1)
  · rw [if_pos (shown.mpr last), if_pos (Nat.le_of_eq last.symm)]
  · have below : ¬2 ^ (d + 1) ≤ n + 1 := by omega
    rw [if_neg (fun h => last (shown.mp h)), if_neg below]

theorem filled_take (placed : Placed g tree d i addr) (notNull : 0 < addr)
    (filled : PagesFilled mem tree d i n) (room : n < 2 ^ d) :
    ∃ mem', PageTaken g tree mem mem' d i addr n := by
  induction d generalizing mem i addr n with
  | zero =>
    obtain rfl : n = 0 := by
      simp only [Nat.pow_zero] at room
      omega
    exact ⟨_, page_taken_here placed filled⟩
  | succ d ih =>
    have two : 2 ^ (d + 1) = 2 * 2 ^ d := Nat.pow_succ'
    have pos : 0 < i := Nat.lt_of_lt_of_le (Nat.two_pow_pos _) placed.first
    have outside := child_not_root (d := d) pos
    obtain ⟨placedLeft, placedRight⟩ := placed_children placed
    obtain ⟨left, right⟩ := filled_halves filled
    have shows := filled_shows filled
    have showsLeft := filled_shows left
    have enough := shows.least room
    have most := shows.most
    have shown := shows.last room
    by_cases goLeft : n < 2 ^ d
    · rw [Nat.min_eq_left (Nat.le_of_lt goLeft)] at left showsLeft
      obtain ⟨mem1, taken⟩ := ih placedLeft notNull left goLeft
      have same := frame_node taken.frame outside.1
      have rightSame : ∀ j, InSub d (rightChild i) j → mem1 (tree + j) = mem (tree + j) :=
        fun j inside => frame_node taken.frame fun h => sub_trees_disjoint pos h inside
      refine ⟨Function.update mem1 (tree + i) (departed mem1 tree i 12), ?_, ?_,
        frame_update (frame_left taken.frame)⟩
      · refine get_down (by decide) (Nat.le_add_right _ _) enough most (by omega) ?_
        rw [if_pos (showsLeft.least goLeft)]
        exact taken.run
      · refine filled_above pos ?_ ?_ (same ▸ shown) room
        · rw [Nat.min_eq_left goLeft]
          exact taken.filled
        · rw [Nat.sub_eq_zero_of_le goLeft]
          rw [Nat.sub_eq_zero_of_le (Nat.le_of_lt goLeft)] at right
          exact filled_congr rightSame right
    · have before : 2 ^ d ≤ n := Nat.le_of_not_lt goLeft
      have size : 2 ^ (12 + d) = 2 ^ d * 4096 := by rw [Nat.pow_add, Nat.mul_comm]
      rw [Nat.min_eq_right before] at left showsLeft
      have notNull' : 0 < addr + 2 ^ (12 + d) := Nat.add_pos_left notNull _
      obtain ⟨mem1, taken⟩ := ih placedRight notNull' right (by omega)
      have same := frame_node taken.frame outside.2
      have leftSame : ∀ j, InSub d (leftChild i) j → mem1 (tree + j) = mem (tree + j) :=
        fun j inside => frame_node taken.frame fun h => sub_trees_disjoint pos inside h
      have place : addr + 2 ^ (12 + d) + (n - 2 ^ d) * 4096 = addr + n * 4096 := by
        rw [size, Nat.sub_mul]
        have := Nat.mul_le_mul_right 4096 before
        omega
      refine ⟨Function.update mem1 (tree + i) (departed mem1 tree i 12), ?_, ?_,
        frame_update (frame_right taken.frame)⟩
      · refine get_down (by decide) (Nat.le_add_right _ _) enough most (by omega) ?_
        have gone := showsLeft.gone (Nat.le_refl _)
        rw [if_neg (by omega), ← place]
        exact taken.run
      · refine filled_above pos ?_ ?_ (same ▸ shown) room
        · rw [Nat.min_eq_right (Nat.le_succ_of_le before)]
          exact filled_congr leftSame left
        · rw [Nat.succ_sub before]
          exact taken.filled

end Tree

theorem find_available_first {c t : Nat} {front rest : List Nat} {p : Pmm}
    (free : ∀ u ∈ front, p.treeLocks u = 0) (here : p.treeLocks t = 0)
    (small : ∀ u ∈ front, p.mem (p.g.allTrees u + 1) < c)
    (enough : c ≤ p.mem (p.g.allTrees t + 1)) :
    findAvailableIn c (front ++ t :: rest) p =
      (some t, { p with treeLocks := Function.update p.treeLocks t 1 }) := by
  induction front with
  | nil => rw [List.nil_append, findAvailableIn, if_pos here, if_neg (Nat.not_lt.mpr enough)]
  | cons u front ih =>
    have first := free u List.mem_cons_self
    rw [List.cons_append, findAvailableIn, if_pos first, if_pos (small u List.mem_cons_self),
      unlock_after_lock first]
    exact ih (fun v h => free v (List.mem_cons_of_mem _ h))
      fun v h => small v (List.mem_cons_of_mem _ h)

def HeapFilled (p : Pmm) (n : Nat) : Prop :=
  ∀ t, TreeIndex p.g t →
    PagesFilled p.mem (p.g.allTrees t) 12 1 (min (n - (t - 1) * 4096) 4096)

section Heap

variable {p p' : Pmm} {n : Nat}

theorem heap_filled_congr (laid : Laid p.g) (globals : p'.g = p.g)
    (same : ∀ x, NodeCell p.g x → p'.mem x = p.mem x) (filled : HeapFilled p n) :
    HeapFilled p' n := by
  intro t valid
  rw [globals] at valid ⊢
  refine filled_congr (fun j inside => same _ ⟨t, j, valid, ?_⟩) (filled t valid)
  have bound := in_sub_bound (root_placed laid valid) inside
  exact ⟨bound.1, bound.2, rfl⟩

theorem page_tree_found (free : LocksFree p) (filled : HeapFilled p n)
    (room : n < p.g.treeNum * 4096) :
    findAvailableTree p 12 = (some (n / 4096 + 1),
      { p with treeLocks := Function.update p.treeLocks (n / 4096 + 1) 1 }) := by
  have split : List.range' 1 p.g.treeNum =
      List.range' 1 (n / 4096) ++ (n / 4096 + 1) ::
        List.range' (n / 4096 + 2) (p.g.treeNum - n / 4096 - 1) := by
    have tail : (n / 4096 + 1) :: List.range' (n / 4096 + 2) (p.g.treeNum - n / 4096 - 1) =
        List.range' (1 + n / 4096) (p.g.treeNum - n / 4096) := by
      have more : p.g.treeNum - n / 4096 = p.g.treeNum - n / 4096 - 1 + 1 := by omega
      rw [more, List.range'_succ, Nat.add_comm 1, Nat.add_sub_cancel]
    rw [tail, List.range'_append_1]
    congr
    omega
  have earlier : ∀ u ∈ List.range' 1 (n / 4096), TreeIndex p.g u ∧ u * 4096 ≤ n := by
    intro u h
    rw [List.mem_range'_1] at h
    exact ⟨⟨h.1, by omega⟩, by omega⟩
  have valid : TreeIndex p.g (n / 4096 + 1) := ⟨by omega, by omega⟩
  rw [findAvailableTree, split]
  refine find_available_first (fun u h => free u (earlier u h).1) (free _ valid) ?_ ?_
  · intro u h
    obtain ⟨validU, before⟩ := earlier u h
    have full := filled u validU
    have first : 1 ≤ u := validU.1
    have all : 4096 ≤ n - (u - 1) * 4096 := by omega
    rw [Nat.min_eq_right all] at full
    exact Nat.lt_of_le_of_lt ((filled_shows full).gone (Nat.le_refl _)) (by decide)
  · have shown := filled_shows (filled _ valid)
    refine shown.least ?_
    simp only [Nat.reducePow]
    omega

structure NextPage (p : Pmm) (n : Nat) (mem' : Mem) : Prop where
  run : bbmaAlloc p 4096 = some (p.g.beginAllocAddr + n * 4096, { p with mem := mem' })
  filled : HeapFilled { p with mem := mem' } (n + 1)

theorem next_page (laid : Laid p.g) (free : LocksFree p) (filled : HeapFilled p n)
    (room : n < p.g.treeNum * 4096) : ∃ mem', NextPage p n mem' := by
  have valid : TreeIndex p.g (n / 4096 + 1) := ⟨by omega, by omega⟩
  have found := page_tree_found free filled room
  have own := filled _ valid
  have count : min (n - (n / 4096 + 1 - 1) * 4096) 4096 = n % 4096 := by omega
  rw [count] at own
  have inside : n % 4096 < 2 ^ 12 := Nat.mod_lt _ (by decide)
  have enough := (filled_shows own).least inside
  obtain ⟨mem', taken⟩ :=
    filled_take (root_placed laid valid) (window_positive laid _) own inside
  have place : windowOf p.g (n / 4096 + 1) + n % 4096 * 4096 = p.g.beginAllocAddr + n * 4096 := by
    have gap : memGap = 4096 * 4096 := rfl
    rw [windowOf, gap, Nat.add_sub_cancel]
    omega
  have get := taken.run
  rw [place, show 12 + 12 = 24 from rfl] at get
  refine ⟨mem', ?_, fun u validU => ?_⟩
  · have accepted : determineBbmaSize 4096 = 12 := by decide
    have stored : p.g.allTrees (n / 4096 + 1) ≠ 0 := by
      have := laid.positive
      rw [laid.arrays _ valid.1 valid.2]
      omega
    have aligned : isAlignTo (p.g.beginAllocAddr + n * 4096) 12 = true := by
      have begin_ : 4096 ∣ p.g.beginAllocAddr := by
        rw [laid.area, mem_gap_value]
        refine Nat.dvd_add (Nat.dvd_trans ?_ laid.aligned) (by decide)
        rw [mem_gap_value]
        decide
      have whole := Nat.mod_eq_zero_of_dvd (Nat.dvd_add begin_ (Nat.dvd_mul_left 4096 n))
      rw [isAlignTo, Nat.one_shiftLeft, show 2 ^ 12 = 4096 from rfl, whole]
      rfl
    simp only [bbmaAlloc, findTheFreeSpaceInBbmaSystem, accepted, found, get, aligned, stored,
      Nat.not_lt.mpr valid.2, Nat.not_lt.mpr enough, unlock_after_lock (free _ valid), ↓reduceIte,
      show ¬ 12 = bbmaRefuse by decide]
  · by_cases same : u = n / 4096 + 1
    · subst same
      have next : min (n + 1 - (n / 4096 + 1 - 1) * 4096) 4096 = n % 4096 + 1 := by omega
      rw [next]
      exact taken.filled
    · have unchanged : min (n + 1 - (u - 1) * 4096) 4096 = min (n - (u - 1) * 4096) 4096 := by
        have first : 1 ≤ u := validU.1
        omega
      rw [unchanged]
      refine filled_congr (fun j inside => taken.frame _ fun k inside' e => ?_) (filled u validU)
      have top := (in_sub_bound (root_placed laid validU) inside).2
      have top' := (in_sub_bound (root_placed laid valid) inside').2
      exact same (node_arrays_disjoint laid validU valid top top' e).1

end Heap

section Boot

variable {p p' p1 p2 : Pmm} {gh : Ghost} {n cpu : Nat}

theorem with_new_page_below {a k : Nat} (least : 5 ≤ k) (most : k ≤ 11) (aligned : a % 4096 = 0)
    (alloc : bbmaAlloc p slabRequestSpace = some (a, p1)) (paged : withNewPage p cpu k = some p2)
    {x : Nat} (below : x < a) : p2.mem x = p1.mem x := by
  obtain ⟨mem', _, initialized, _, _, same⟩ := initialize_page_spec
    (Function.update p1.mem (a + nextSlabStick) (p1.cpuOwnArea cpu (k - cpuFindSlabOffset)))
    aligned least most
  simp only [withNewPage, alloc, initialized, Option.some.injEq] at paged
  rw [← paged]
  refine (same x (Or.inl below)).trans (Function.update_of_ne ?_ ..)
  simp only [nextSlabStick]
  omega

theorem free_space_nodes {k r : Nat} {live : List (Nat × Nat)} (inv : PmmInv p gh live)
    (least : 5 ≤ k) (ran : findTheFreeSpaceInSlab p cpu k = some (r, p')) {x : Nat}
    (node : NodeCell p.g x) : p'.mem x = p.mem x := by
  rcases find_free_space_cases inv least ran with ⟨_, rfl⟩ | ⟨a, _, page, _, _, rfl⟩
  · rfl
  · have above := page_above_nodes inv page node
    simp only at above
    have count : x ≠ a + slabFreeSpace := by
      simp only [slabFreeSpace]
      omega
    have head : x ≠ a + freeBlockList := by
      simp only [freeBlockList]
      omega
    simp only [takenBlock]
    rw [Function.update_of_ne count, Function.update_of_ne head]

theorem request_filled {i r : Nat} (bound : i < slabNum) (inv : PmmInv p gh [])
    (filled : HeapFilled p n) (room : n < p.g.treeNum * 4096)
    (call : requestASlabFromBbma p cpu (i + cpuFindSlabOffset) = some (r, p')) :
    HeapFilled p' (n + 1) := by
  simp only [slabNum] at bound
  have least : 5 ≤ i + cpuFindSlabOffset := Nat.le_add_left _ _
  have most : i + cpuFindSlabOffset ≤ 11 := by
    simp only [cpuFindSlabOffset]
    omega
  obtain ⟨mem', next⟩ := next_page inv.laid inv.locks filled room
  have positive := inv.laid.positive
  have area := inv.laid.area
  rcases request_a_slab_cases inv least most call with
    ⟨none_left, _⟩ | ⟨a, p1, p2, gh2, alloc, paged, search, inv2, page, _, globals⟩
  · have null := next.run.symm.trans none_left
    simp only [Option.some.injEq, Prod.mk.injEq] at null
    omega
  · have taken := next.run.symm.trans alloc
    simp only [Option.some.injEq, Prod.mk.injEq] at taken
    obtain ⟨rfl, rfl⟩ := taken
    have aligned := Nat.mod_eq_zero_of_dvd (page_aligned inv2 page)
    refine heap_filled_congr inv2.laid (find_free_space_inv inv2 least search).globals
      (fun x => free_space_nodes inv2 least search) ?_
    refine heap_filled_congr (p := { p with mem := mem' }) inv.laid globals (fun x node => ?_)
      next.filled
    refine with_new_page_below least most aligned alloc paged ?_
    have := (node_cell_below inv.laid node).2
    omega

theorem cpu_slab_area_filled {sizes : List Nat} (small : ∀ i ∈ sizes, i < slabNum)
    (inv : PmmInv p gh []) (filled : HeapFilled p n)
    (room : n + sizes.length ≤ p.g.treeNum * 4096)
    (ran : initializeACpuSlabArea cpu sizes p = some p') : HeapFilled p' (n + sizes.length) := by
  induction sizes generalizing p gh n with
  | nil =>
    simp only [initializeACpuSlabArea, Option.some.injEq] at ran
    exact ran ▸ filled
  | cons i rest ih =>
    rw [List.length_cons] at room ⊢
    have bound := small i List.mem_cons_self
    simp only [initializeACpuSlabArea] at ran
    cases call : requestASlabFromBbma p cpu (i + cpuFindSlabOffset) with
    | none => simp [call] at ran
    | some result =>
      simp only [call] at ran
      obtain ⟨gh1, inv1, _, globals⟩ := request_dropped_inv bound inv call
      have later := ih (fun j h => small j (List.mem_cons_of_mem _ h)) inv1
        (request_filled bound inv filled (by omega) call) (by rw [globals]; omega) ran
      have sum : n + (rest.length + 1) = n + 1 + rest.length := by omega
      exact sum ▸ later

theorem slab_init_filled {cpus : List Nat} (inv : PmmInv p gh []) (filled : HeapFilled p n)
    (room : n + slabNum * cpus.length ≤ p.g.treeNum * 4096) (ran : slabInit cpus p = some p') :
    HeapFilled p' (n + slabNum * cpus.length) := by
  induction cpus generalizing p gh n with
  | nil =>
    simp only [slabInit, Option.some.injEq] at ran
    exact ran ▸ filled
  | cons cpu rest ih =>
    rw [List.length_cons, Nat.mul_succ] at room ⊢
    simp only [slabInit] at ran
    cases call : initializeACpuSlabArea cpu (List.range slabNum) p with
    | none => simp [call] at ran
    | some p1 =>
      simp only [call] at ran
      have small : ∀ i ∈ List.range slabNum, i < slabNum := fun i h => List.mem_range.mp h
      obtain ⟨gh1, inv1, _, globals⟩ := cpu_slab_area_inv small inv call
      have first := cpu_slab_area_filled small inv filled (by rw [List.length_range]; omega) call
      rw [List.length_range] at first
      have later := ih inv1 first (by rw [globals]; omega) ran
      have sum : n + (slabNum * rest.length + slabNum) = n + slabNum + slabNum * rest.length := by
        omega
      exact sum ▸ later

theorem pmm_init_filled {heap : HeapRange} {cpuCount : Nat} {mem : Mem}
    (room : slabNum * cpuCount ≤ p.g.treeNum * 4096)
    (booted : pmmInit heap cpuCount mem = some p) : HeapFilled p (slabNum * cpuCount) := by
  have inv := boot_inv heap mem
  obtain ⟨_, _, _, globals⟩ := slab_init_inv inv booted
  rw [globals] at room
  have start : HeapFilled ⟨(bbmaInit mem (alignTo heap.start s16M) heap.stop).1,
      (bbmaInit mem (alignTo heap.start s16M) heap.stop).2, fun _ => 0, fun _ _ => 0⟩ 0 := by
    intro t valid
    rw [Nat.zero_sub, Nat.zero_min]
    exact filled_none.mpr (rep_free_iff.mp (inv.trees t valid))
  have ran := slab_init_filled inv start (by rw [List.length_range, Nat.zero_add]; exact room) booted
  rwa [List.length_range, Nat.zero_add] at ran

end Boot

section Run

variable {s : PmmState} {n : Nat}

structure PageStep (s s' : PmmState) (n : Nat) : Prop where
  step : pmmStep s (.kalloc 0 4096) = some s'
  live : (s.p.g.beginAllocAddr + n * 4096, 4096) ∈ s'.live
  globals : s'.p.g = s.p.g
  free : LocksFree s'.p
  filled : HeapFilled s'.p (n + 1)

theorem page_step (laid : Laid s.p.g) (free : LocksFree s.p) (filled : HeapFilled s.p n)
    (room : n < s.p.g.treeNum * 4096) : ∃ s', PageStep s s' n := by
  obtain ⟨mem', next⟩ := next_page laid free filled room
  have real : s.p.g.beginAllocAddr + n * 4096 ≠ 0 := by
    have := laid.positive
    have := laid.area
    omega
  have call : kalloc s.p 0 4096 =
      some (s.p.g.beginAllocAddr + n * 4096, { s.p with mem := mem' }) := next.run
  have step : pmmStep s (.kalloc 0 4096) = some ⟨{ s.p with mem := mem' },
      (s.p.g.beginAllocAddr + n * 4096, 4096) :: s.live⟩ := by
    simp only [pmmStep, call, if_neg real]
  exact ⟨_, step, List.mem_cons_self, rfl, free, next.filled⟩

theorem page_run_reaches (more : Nat) (laid : Laid s.p.g) (free : LocksFree s.p)
    (filled : HeapFilled s.p n) (room : n + more < s.p.g.treeNum * 4096) :
    ∃ s', run pmmStep s (List.replicate (more + 1) (.kalloc 0 4096)) = some s' ∧
      (s.p.g.beginAllocAddr + (n + more) * 4096, 4096) ∈ s'.live := by
  induction more generalizing s n with
  | zero =>
    obtain ⟨s', taken⟩ := page_step laid free filled room
    exact ⟨s', by simp only [List.replicate, run, taken.step], taken.live⟩
  | succ more ih =>
    obtain ⟨s1, taken⟩ := page_step laid free filled (by omega)
    have globals := taken.globals
    obtain ⟨s', ran, live⟩ := ih (globals ▸ laid) taken.free taken.filled (by rw [globals]; omega)
    have place : n + 1 + more = n + (more + 1) := by omega
    rw [globals, place] at live
    refine ⟨s', ?_, live⟩
    rw [List.replicate_succ, run, taken.step]
    exact ran

end Run

end Tbma
