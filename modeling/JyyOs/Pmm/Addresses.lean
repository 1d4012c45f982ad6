import JyyOs.Pmm.Layout
import JyyOs.Pmm.BbmaSpec
import JyyOs.Pmm.TreeRun
import Mathlib.Data.Set.Function

/-!
Node numbers and addresses: allocation turns the one into the other, free goes the way back down
from the root.
-/
namespace Tbma
open BuddyTree PartialRun

def levelNodes (size : Nat) : Set Nat :=
  {i | calculateAddrHelper.getD (s16M - size) 0 ≤ i ∧ i < 2 * calculateAddrHelper.getD (s16M - size) 0}

def windowBlocks (g : Globals) (t size : Nat) : Set Nat :=
  {a | 2 ^ size ∣ a ∧ windowOf g t ≤ a ∧ a < windowOf g t + memGap}

def freeVisits (g : Globals) (mem : Mem) (tree ptr : Nat) : Nat → Nat → List Nat
  | curSize, index =>
    index ::
      if 8192 < index ∨ curSize < mem (tree + index) then []
      else
        match convertIndexToAddr g tree index curSize with
        | none => []
        | some curAddr =>
          if ptr < curAddr then []
          else if curAddr = ptr ∧ mem (tree + index) = fullUsed then []
          else
            match curSize with
            | 0 => []
            | childSize + 1 => freeVisits g mem tree ptr childSize
              (if curAddr = ptr then leftChild index
                else if ptr < curAddr + 1 <<< childSize then leftChild index
                else rightChild index)

/-- No node holds more than the size of its level, as freeTreePtr asserts. -/
def LevelBounds (mem : Mem) (tree : Nat) : Prop :=
  ∀ size, s4K ≤ size → size ≤ s16M → ∀ i ∈ levelNodes size, mem (tree + i) ≤ size

/-- The descent to `addr` comes through node `i`, unless a node above it that starts at `addr` is
    in use. -/
def Reaches (g : Globals) (mem : Mem) (tree size i addr : Nat) : Prop :=
  i ∈ freeVisits g mem tree addr s16M 1 ∨
    ∃ above, size < above ∧ above ≤ s16M ∧
      i / 2 ^ (above - size) ∈ freeVisits g mem tree addr s16M 1 ∧
      convertIndexToAddr g tree (i / 2 ^ (above - size)) above = some addr ∧
      mem (tree + i / 2 ^ (above - size)) = fullUsed

structure OneToOne (g : Globals) (t : Nat) : Prop where
  bijective : ∀ size, s4K ≤ size → size ≤ s16M →
    Set.BijOn (fun i => convertIndexToAddr g (g.allTrees t) i size) (levelNodes size)
      (Set.image some (windowBlocks g t size))
  children : ∀ size i addr, s4K ≤ size → size < s16M → i ∈ levelNodes (size + 1) →
    convertIndexToAddr g (g.allTrees t) i (size + 1) = some addr →
      leftChild i ∈ levelNodes size ∧ rightChild i ∈ levelNodes size ∧
      convertIndexToAddr g (g.allTrees t) (leftChild i) size = some addr ∧
      convertIndexToAddr g (g.allTrees t) (rightChild i) size = some (addr + 2 ^ size)
  determined : ∀ ptr, g.beginAllocAddr < ptr → windowOf g t ≤ ptr → ptr < windowOf g t + memGap →
    determineWhichTree g ptr = some t
  descends : ∀ mem, LevelBounds mem (g.allTrees t) → ∀ size i addr, s4K ≤ size → size ≤ s16M →
    i ∈ levelNodes size → convertIndexToAddr g (g.allTrees t) i size = some addr →
      Reaches g mem (g.allTrees t) size i addr

section Levels

variable {g : Globals} {tree : Nat}

theorem level_nodes_iff {d i : Nat} (height : d ≤ 12) :
    i ∈ levelNodes (12 + d) ↔ 2 ^ (12 - d) ≤ i ∧ i < 2 * 2 ^ (12 - d) := by
  rw [← helper_power height]
  exact Iff.rfl

theorem level_height {size : Nat} (least : 12 ≤ size) (most : size ≤ 24) :
    ∃ d, size = 12 + d ∧ d ≤ 12 := ⟨size - 12, by omega, by omega⟩

theorem level_root {d i : Nat} (first : 2 ^ (12 - d) ≤ i) (last : i < 2 * 2 ^ (12 - d)) :
    i / 2 ^ (12 - d) = 1 :=
  Nat.div_eq_of_lt_le (by rw [Nat.one_mul]; exact first) last

theorem level_placed {d i : Nat} (g : Globals) (tree : Nat) (height : d ≤ 12)
    (node : i ∈ levelNodes (12 + d)) : ∃ addr, Placed g tree d i addr := by
  obtain ⟨first, last⟩ := (level_nodes_iff height).mp node
  exact ⟨_, height, first, last, rfl⟩

theorem placed_node {d i addr : Nat} (placed : Placed g tree d i addr) :
    i ∈ levelNodes (12 + d) :=
  (level_nodes_iff placed.height).mpr ⟨placed.first, placed.last⟩

theorem placed_of_address {d i addr : Nat} (height : d ≤ 12) (node : i ∈ levelNodes (12 + d))
    (convert : convertIndexToAddr g tree i (12 + d) = some addr) : Placed g tree d i addr := by
  obtain ⟨a, placed⟩ := level_placed g tree height node
  obtain rfl : a = addr := Option.some.inj ((convert_placed placed).symm.trans convert)
  exact placed

theorem window_levels {d : Nat} (height : d ≤ 12) : 2 ^ (12 - d) * 2 ^ (12 + d) = memGap := by
  have gap : memGap = 2 ^ 24 := rfl
  rw [gap, ← Nat.pow_add]
  congr 1
  omega

theorem placed_block (laid : Laid g) {t d i addr : Nat} (valid : TreeIndex g t)
    (placed : Placed g (g.allTrees t) d i addr) : addr ∈ windowBlocks g t (12 + d) := by
  obtain ⟨height, first, last, address⟩ := placed
  rw [window_of_tree laid valid] at address
  have whole := window_levels height
  have aligned : 2 ^ (12 + d) ∣ windowOf g t :=
    Nat.dvd_trans (whole ▸ Nat.dvd_mul_left _ _) (window_aligned laid t)
  have inside : (i - 2 ^ (12 - d)) * 2 ^ (12 + d) < memGap := by
    rw [← whole]
    exact Nat.mul_lt_mul_of_pos_right (by omega) (Nat.two_pow_pos _)
  rw [address]
  exact ⟨Nat.dvd_add aligned (Nat.dvd_mul_left _ _), Nat.le_add_right _ _, by omega⟩

theorem block_placed (laid : Laid g) {t d addr : Nat} (valid : TreeIndex g t) (height : d ≤ 12)
    (block : addr ∈ windowBlocks g t (12 + d)) : ∃ i, Placed g (g.allTrees t) d i addr := by
  obtain ⟨aligned, lower, upper⟩ := block
  have whole := window_levels height
  have window : 2 ^ (12 + d) ∣ windowOf g t :=
    Nat.dvd_trans (whole ▸ Nat.dvd_mul_left _ _) (window_aligned laid t)
  obtain ⟨k, offset⟩ := (Nat.dvd_sub aligned window)
  have small : k < 2 ^ (12 - d) := by
    have below : 2 ^ (12 + d) * k < 2 ^ (12 + d) * 2 ^ (12 - d) := by
      rw [Nat.mul_comm _ (2 ^ (12 - d)), whole]
      omega
    exact Nat.lt_of_mul_lt_mul_left below
  refine ⟨2 ^ (12 - d) + k, height, Nat.le_add_right _ _, by omega, ?_⟩
  rw [window_of_tree laid valid, Nat.add_sub_cancel_left, Nat.mul_comm k]
  omega

theorem level_bijective (laid : Laid g) {t d : Nat} (valid : TreeIndex g t) (height : d ≤ 12) :
    Set.BijOn (fun i => convertIndexToAddr g (g.allTrees t) i (12 + d)) (levelNodes (12 + d))
      (Set.image some (windowBlocks g t (12 + d))) := by
  refine ⟨fun i node => ?_, fun i node j node' same => ?_, fun value block => ?_⟩
  · obtain ⟨addr, placed⟩ := level_placed g (g.allTrees t) height node
    exact ⟨addr, placed_block laid valid placed, (convert_placed placed).symm⟩
  · obtain ⟨addr, placed⟩ := level_placed g (g.allTrees t) height node
    have convert : convertIndexToAddr g (g.allTrees t) j (12 + d) = some addr :=
      same.symm.trans (convert_placed placed)
    exact placed_unique placed (placed_of_address height node' convert)
  · obtain ⟨addr, inside, rfl⟩ := block
    obtain ⟨i, placed⟩ := block_placed laid valid height inside
    exact ⟨i, placed_node placed, convert_placed placed⟩

theorem child_above {i j k : Nat} (above : i / 2 ^ (k + 1) = j) :
    i / 2 ^ k = leftChild j ∨ i / 2 ^ k = rightChild j := by
  rw [Nat.pow_succ, ← Nat.div_div_eq_div_mul] at above
  unfold leftChild rightChild
  omega

theorem placed_inside {d e i j a addr : Nat} (placed : Placed g tree d j addr)
    (below : Placed g tree e i a) (lower : e ≤ d) (above : i / 2 ^ (d - e) = j) :
    addr ≤ a ∧ a + 2 ^ (12 + e) ≤ addr + 2 ^ (12 + d) := by
  induction d generalizing j addr with
  | zero =>
    obtain rfl : e = 0 := Nat.le_zero.mp lower
    obtain rfl : i = j := by simpa using above
    obtain rfl : a = addr := Option.some.inj
      ((convert_placed below).symm.trans (convert_placed placed))
    exact ⟨Nat.le_refl _, Nat.le_refl _⟩
  | succ d ih =>
    rcases Nat.lt_or_eq_of_le lower with lower | rfl
    · obtain ⟨left, right⟩ := placed_children placed
      have halves := power_halves 12 d
      have half : 0 < 2 ^ (12 + d) := Nat.two_pow_pos _
      have step : d + 1 - e = d - e + 1 := by omega
      rw [step] at above
      rcases child_above above with child | child
      · obtain ⟨start, stop⟩ := ih left (by omega) child
        exact ⟨start, by omega⟩
      · obtain ⟨start, stop⟩ := ih right (by omega) child
        exact ⟨by omega, by omega⟩
    · obtain rfl : i = j := by simpa using above
      obtain rfl : a = addr := Option.some.inj
        ((convert_placed below).symm.trans (convert_placed placed))
      exact ⟨Nat.le_refl _, Nat.le_refl _⟩

end Levels

section Descent

variable {g : Globals} {mem : Mem} {tree : Nat}

theorem visits_self (ptr curSize index : Nat) : index ∈ freeVisits g mem tree ptr curSize index := by
  rw [freeVisits.eq_def]
  exact List.mem_cons_self

theorem visits_child {ptr childSize index curAddr : Nat}
    (fine : ¬ (8192 < index ∨ childSize + 1 < mem (tree + index)))
    (convert : convertIndexToAddr g tree index (childSize + 1) = some curAddr)
    (lower : ¬ ptr < curAddr) (goes : ¬ (curAddr = ptr ∧ mem (tree + index) = fullUsed)) :
    freeVisits g mem tree ptr (childSize + 1) index = index :: freeVisits g mem tree ptr childSize
      (if curAddr = ptr then leftChild index
        else if ptr < curAddr + 1 <<< childSize then leftChild index else rightChild index) := by
  rw [freeVisits.eq_def]
  simp only [convert, if_neg fine, if_neg lower, if_neg goes]

theorem visits_down {d j addr ptr : Nat} (placed : Placed g tree (d + 1) j addr)
    (bounds : LevelBounds mem tree) (lower : addr ≤ ptr)
    (goes : ¬ (addr = ptr ∧ mem (tree + j) = fullUsed)) :
    freeVisits g mem tree ptr (12 + (d + 1)) j = j :: freeVisits g mem tree ptr (12 + d)
      (if ptr < addr + 2 ^ (12 + d) then leftChild j else rightChild j) := by
  have height := placed.height
  have value := bounds (12 + (d + 1)) (Nat.le_add_right _ _) (Nat.add_le_add_left height 12) j
    (placed_node placed)
  have nodes := in_sub_bound placed (in_sub_self _ _)
  have half : 0 < 2 ^ (12 + d) := Nat.two_pow_pos _
  have down : (if addr = ptr then leftChild j
      else if ptr < addr + 1 <<< (12 + d) then leftChild j else rightChild j) =
      if ptr < addr + 2 ^ (12 + d) then leftChild j else rightChild j := by
    rw [Nat.one_shiftLeft]
    by_cases here : addr = ptr
    · rw [if_pos here, if_pos (by omega)]
    · rw [if_neg here]
  have fine : ¬ (8192 < j ∨ 12 + (d + 1) < mem (tree + j)) := by omega
  rw [← down]
  exact visits_child fine (convert_placed placed) (Nat.not_lt.mpr lower) goes

/-- By induction on the height of the node the descent is at. -/
theorem descent_passes {d e i j a addr : Nat} (placed : Placed g tree d j addr)
    (below : Placed g tree e i a) (lower : e ≤ d) (above : i / 2 ^ (d - e) = j)
    (bounds : LevelBounds mem tree) : i ∈ freeVisits g mem tree a (12 + d) j ∨
      ∃ f, e < f ∧ f ≤ d ∧ i / 2 ^ (f - e) ∈ freeVisits g mem tree a (12 + d) j ∧
        Placed g tree f (i / 2 ^ (f - e)) a ∧ mem (tree + i / 2 ^ (f - e)) = fullUsed := by
  induction d generalizing j addr with
  | zero =>
    obtain rfl : e = 0 := Nat.le_zero.mp lower
    obtain rfl : i = j := by simpa using above
    exact .inl (visits_self ..)
  | succ d ih =>
    rcases Nat.lt_or_eq_of_le lower with deeper | rfl
    · obtain ⟨start, _⟩ := placed_inside placed below lower above
      by_cases stops : addr = a ∧ mem (tree + j) = fullUsed
      · obtain ⟨rfl, used⟩ := stops
        refine .inr ⟨d + 1, deeper, Nat.le_refl _, ?_⟩
        rw [above]
        exact ⟨visits_self .., placed, used⟩
      · rw [visits_down placed bounds start stops]
        have step : d + 1 - e = d - e + 1 := by omega
        obtain ⟨left, right⟩ := placed_children placed
        have goes : ∃ child addr', Placed g tree d child addr' ∧ i / 2 ^ (d - e) = child ∧
            (if a < addr + 2 ^ (12 + d) then leftChild j else rightChild j) = child := by
          have size : 0 < 2 ^ (12 + e) := Nat.two_pow_pos _
          rcases child_above (step ▸ above) with child | child
          · have inside := (placed_inside left below (by omega) child).2
            exact ⟨_, _, left, child, if_pos (by omega)⟩
          · have inside := (placed_inside right below (by omega) child).1
            exact ⟨_, _, right, child, if_neg (by omega)⟩
        obtain ⟨child, addr', placed', above', down⟩ := goes
        rw [down]
        rcases ih placed' (by omega) above' with visited | ⟨f, higher, most, visited, stop⟩
        · exact .inl (List.mem_cons_of_mem _ visited)
        · exact .inr ⟨f, higher, by omega, List.mem_cons_of_mem _ visited, stop⟩
    · obtain rfl : i = j := by simpa using above
      exact .inl (visits_self ..)

theorem free_writes_visited {ptr curSize index : Nat} {mem' : Mem}
    (freed : freeTreePtr g mem tree index ptr curSize = some mem') {x : Nat}
    (written : mem' x ≠ mem x) : ∃ j ∈ freeVisits g mem tree ptr curSize index, x = tree + j := by
  by_contra unseen
  push Not at unseen
  induction curSize generalizing index mem' with
  | zero =>
    have here := unseen index (visits_self ..)
    rw [freeTreePtr.eq_def] at freed
    split at freed
    · cases freed
    · split at freed
      · cases freed
      · split at freed
        · cases freed
        · split at freed
          · cases freed
            exact written (Function.update_of_ne here ..)
          · cases freed
  | succ curSize ih =>
    have here := unseen index (visits_self ..)
    rw [freeTreePtr.eq_def] at freed
    split at freed
    · cases freed
    · rename_i fine
      cases convert : convertIndexToAddr g tree index (curSize + 1) with
      | none => simp [convert] at freed
      | some curAddr =>
        simp only [convert] at freed
        split at freed
        · cases freed
        · rename_i lower
          split at freed
          · cases freed
            exact written (Function.update_of_ne here ..)
          · rename_i goes
            rw [visits_child fine convert lower goes] at unseen
            split at freed
            · cases freed
            · rename_i below inner
              -- the value the node gets does not matter
              generalize (if below (tree + leftChild index) = curSize ∧
                below (tree + rightChild index) = curSize then curSize + 1
                else if below (tree + rightChild index) ≤ below (tree + leftChild index) then
                  below (tree + leftChild index) else below (tree + rightChild index)) = value
                at freed
              split at freed
              · cases freed
              · cases freed
                rw [Function.update_of_ne here] at written
                exact ih inner written fun j visited => unseen j (List.mem_cons_of_mem _ visited)

end Descent

section Laid

variable {g : Globals} {t : Nat}

theorem one_to_one_of_laid (laid : Laid g) (valid : TreeIndex g t) : OneToOne g t := by
  constructor
  · intro size least most
    obtain ⟨d, rfl, height⟩ := level_height least most
    exact level_bijective laid valid height
  · intro size i addr least most node convert
    obtain ⟨d, rfl, _⟩ := level_height least (Nat.le_of_lt most)
    have height : d + 1 ≤ 12 := Nat.lt_of_add_lt_add_left most
    obtain ⟨left, right⟩ := placed_children (placed_of_address height node convert)
    exact ⟨placed_node left, placed_node right, convert_placed left, convert_placed right⟩
  · intro ptr above lower upper
    rw [determine_which_tree_window laid valid lower upper, if_pos above]
  · intro mem bounds size i addr least most node convert
    obtain ⟨d, rfl, height⟩ := level_height least most
    have below := placed_of_address height node convert
    rcases descent_passes (root_placed laid valid) below height
      (level_root below.first below.last) bounds with
      visited | ⟨f, higher, most, visited, placed, used⟩
    · exact .inl visited
    · have gap : 12 + f - (12 + d) = f - d := by omega
      refine .inr ⟨12 + f, by omega, Nat.add_le_add_left most 12, ?_⟩
      rw [gap]
      exact ⟨visited, convert_placed placed, used⟩

theorem rep_children {mem : Mem} {tree d i : Nat} {b : Buddy (d + 1)} (rep : Rep mem tree i b) :
    ∃ l r : Buddy d, Rep mem tree (leftChild i) l ∧ Rep mem tree (rightChild i) r := by
  cases b with
  | free =>
    obtain ⟨_, left, right⟩ := rep_free_iff.mp rep
    exact ⟨.free, .free, rep_free_iff.mpr left, rep_free_iff.mpr right⟩
  | used =>
    obtain ⟨_, left, right⟩ := rep_used_iff.mp rep
    exact ⟨.free, .free, rep_free_iff.mpr left, rep_free_iff.mpr right⟩
  | split l r => exact ⟨l, r, rep.1, rep.2.1⟩

theorem rep_bounds {mem : Mem} {tree d e i j : Nat} {b : Buddy d} (rep : Rep mem tree i b)
    (lower : e ≤ d) (above : j / 2 ^ (d - e) = i) : mem (tree + j) ≤ 12 + e := by
  induction d generalizing i with
  | zero =>
    obtain rfl : e = 0 := Nat.le_zero.mp lower
    obtain rfl : j = i := by simpa using above
    exact (rep_value rep).1
  | succ d ih =>
    rcases Nat.lt_or_eq_of_le lower with lower | rfl
    · obtain ⟨l, r, left, right⟩ := rep_children rep
      have step : d + 1 - e = d - e + 1 := by omega
      rcases child_above (step ▸ above) with child | child
      · exact ih left (by omega) child
      · exact ih right (by omega) child
    · obtain rfl : j = i := by simpa using above
      exact (rep_value rep).1

theorem tree_bounds {mem : Mem} {shape : Nat → Buddy 12} (trees : Trees g mem shape)
    (valid : TreeIndex g t) : LevelBounds mem (g.allTrees t) := by
  intro size least most i node
  obtain ⟨d, rfl, height⟩ := level_height least most
  obtain ⟨first, last⟩ := (level_nodes_iff height).mp node
  exact rep_bounds (trees t valid) height (level_root first last)

end Laid

section Init

variable {start stop rounds : Nat} {mem mem' : Mem} {allTrees : Nat → Nat} {g : Globals}

theorem init_from_laid (positive : 0 < start) (aligned : memGap ∣ start)
    (room : start + 2 * memGap < 2 ^ 64)
    (ran : bbmaInitFrom mem allTrees start stop rounds = some (mem', g))
    (few : g.treeNum ≤ maxTree) : Laid g ∧ Trees g mem' fun _ => .free := by
  have last : stop + memGap < 2 ^ 64 := by
    refine Nat.lt_of_not_le fun large => ?_
    rw [bbmaInitFrom, init_rounds_endless rounds mem allTrees start _ 1 large
      (gap_aligned (Nat.dvd_add aligned (Nat.dvd_refl _)))] at ran
    cases ran
  have count : (stop - (start + memGap)) / memGap < stop + 1 :=
    Nat.lt_succ_of_le (Nat.le_trans (Nat.div_le_self _ _) (Nat.sub_le _ _))
  have exact_run := init_rounds_exact mem allTrees start (start + memGap) 1 last (by omega)
    (by omega) rfl count
  have loop := bbma_init_loop_spec mem allTrees start (start + memGap) 1
    (Eq.refl ((stop - (start + memGap)) / memGap)) (Nat.le_of_lt count)
  obtain ⟨result, returned, made⟩ := Option.map_eq_some_iff.mp ran
  rw [uintptr_small (by omega)] at returned made
  rw [← init_rounds_unique returned exact_run] at loop
  cases made
  have trees : result.2.2 - 1 = (stop - (start + memGap)) / memGap := by
    rw [loop.count, Nat.add_sub_cancel_left]
  obtain ⟨laid, free, _⟩ := laid_of_rounds positive aligned (trees ▸ few) loop
  exact ⟨laid, free⟩

/-- After bbma_init the trees, their nodes and the addresses of the heap correspond, and stay so
    whatever blocks are taken and returned. -/
theorem indices_match_addresses (positive : 0 < start) (aligned : memGap ∣ start)
    (room : start + 2 * memGap < 2 ^ 64)
    (ran : bbmaInitFrom mem allTrees start stop rounds = some (mem', g))
    (few : g.treeNum ≤ maxTree) : (∀ t, TreeIndex g t → OneToOne g t) ∧
      ∀ ops, Throughout (treeStep g) (fun s => ∀ t, TreeIndex g t →
        LevelBounds s.mem (g.allTrees t)) (bootTrees mem') ops := by
  obtain ⟨laid, trees⟩ := init_from_laid positive aligned room ran few
  refine ⟨fun t valid => one_to_one_of_laid laid valid, fun ops => ?_⟩
  have preserved : ∀ s op s', (∃ shape, TreeInv g s shape) → treeStep g s op = some s' →
      ∃ shape, TreeInv g s' shape := fun s op s' inv taken => tree_step_inv laid inv taken
  exact throughout_of_invariant preserved
    (fun s ⟨shape, inv⟩ t valid => tree_bounds inv.trees valid) ops ⟨_, boot_trees_inv trees⟩

/-- A heap of 112MiB has six trees. -/
theorem indices_match_small_heap : ∃ mem' g,
    bbmaInitFrom (fun _ => 0) (fun _ => 0) 0x1000000 0x8000000 7 = some (mem', g) ∧
      g.treeNum = 6 ∧ (∀ t, TreeIndex g t → OneToOne g t) ∧
      ∀ ops, Throughout (treeStep g) (fun s => ∀ t, TreeIndex g t →
        LevelBounds s.mem (g.allTrees t)) (bootTrees mem') ops := by
  obtain ⟨mem', g, ran, six⟩ : ∃ mem' g,
      bbmaInitFrom (fun _ => 0) (fun _ => 0) 0x1000000 0x8000000 7 = some (mem', g) ∧
        g.treeNum = 6 := ⟨_, _, rfl, rfl⟩
  exact ⟨mem', g, ran, six, indices_match_addresses (by decide) (by decide) (by decide) ran
    (by rw [six]; decide)⟩

end Init

end Tbma
