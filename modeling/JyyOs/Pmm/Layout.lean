import JyyOs.Pmm.Trees

/-!
bbma_init with the pointer arithmetic of the machine: what it writes for a heap at any address.
A loop that never ends is `none` for every number of rounds.
-/
namespace Tbma

def uintptr (n : Nat) : Nat := n % 2 ^ 64

def bbmaInitRounds (stop : Nat) : Nat → Mem → (Nat → Nat) → Nat → Nat → Nat →
    Option (Mem × (Nat → Nat) × Nat)
  | 0, _, _, _, _, _ => none
  | rounds + 1, mem, allTrees, curTreeAddr, curMemAddr, treeCnt =>
    if uintptr (curMemAddr + memGap) ≤ stop then
      bbmaInitRounds stop rounds (initializeTree mem curTreeAddr)
        (Function.update allTrees treeCnt curTreeAddr) (uintptr (curTreeAddr + 8192))
        (uintptr (curMemAddr + memGap)) (treeCnt + 1)
    else some (mem, allTrees, treeCnt)

/-- bbma_init on an all_trees table with any contents. -/
def bbmaInitFrom (mem : Mem) (allTrees : Nat → Nat) (start stop rounds : Nat) :
    Option (Mem × Globals) :=
  (bbmaInitRounds stop rounds mem allTrees start (uintptr (start + memGap)) 1).map fun result =>
    (result.1, ⟨start, uintptr (start + memGap), result.2.2 - 1, result.2.1⟩)

/-- The heap after bbma_init: no entry of all_trees outside 1..MAX_TREE was written, the node arrays
    are disjoint and end before the data, the windows tile a prefix of the data area, and every node
    holds the size of its level. -/
structure LaidOut (allTrees : Nat → Nat) (start stop : Nat) (mem : Mem) (g : Globals) : Prop where
  indices : ∀ t, t < 1 ∨ maxTree < t → g.allTrees t = allTrees t
  inside : ∀ t, TreeIndex g t → start ≤ g.allTrees t ∧ g.allTrees t + 8192 ≤ g.beginAllocAddr
  apart : ∀ t u, TreeIndex g t → TreeIndex g u → t < u → g.allTrees t + 8192 ≤ g.allTrees u
  windows : ∀ t, TreeIndex g t → windowStart g (g.allTrees t) = g.beginAllocAddr + (t - 1) * memGap ∧
    windowStart g (g.allTrees t) + memGap ≤ stop
  levels : ∀ t, TreeIndex g t → ∀ level, level < 13 → ∀ j, 2 ^ level ≤ j → j < 2 ^ (level + 1) →
    mem (g.allTrees t + j) = s16M - level

/-- bbma_init returns and lays the heap out, whatever memory and all_trees held. -/
def LaysOut (start stop : Nat) : Prop :=
  ∀ mem allTrees, ∃ rounds mem' g, bbmaInitFrom mem allTrees start stop rounds = some (mem', g) ∧
    LaidOut allTrees start stop mem' g

/-- At most MAX_TREE windows lie behind the first 16MiB of the heap, and no address wraps around. -/
def FewWindows (start stop : Nat) : Prop :=
  stop + memGap < 2 ^ 64 ∧
    (start + 2 * memGap < 2 ^ 64 ∧ (stop - (start + memGap)) / memGap ≤ maxTree ∨
      start + memGap = 2 ^ 64 ∧ stop < memGap)

instance (start stop : Nat) : Decidable (FewWindows start stop) :=
  inferInstanceAs (Decidable (_ ∧ _))

section Rounds

variable {stop : Nat}

theorem uintptr_small {n : Nat} (small : n < 2 ^ 64) : uintptr n = n := Nat.mod_eq_of_lt small

theorem gap_aligned {n : Nat} (aligned : memGap ∣ n) : memGap ∣ uintptr n := by
  have gap : memGap = 16777216 := rfl
  rw [gap] at aligned ⊢
  unfold uintptr
  omega

theorem gap_bound {n : Nat} (aligned : memGap ∣ n) (small : n < 2 ^ 64) : n + memGap ≤ 2 ^ 64 := by
  have gap : memGap = 16777216 := rfl
  rw [gap] at aligned ⊢
  omega

theorem windows_none {a : Nat} (count : (stop - a) / memGap = 0) : stop < a + memGap := by
  have gap : memGap = 16777216 := rfl
  rw [gap] at count ⊢
  omega

theorem windows_more {a rounds : Nat} (count : (stop - a) / memGap = rounds + 1) :
    a + memGap ≤ stop ∧ (stop - (a + memGap)) / memGap = rounds := by
  have gap : memGap = 16777216 := rfl
  rw [gap] at count ⊢
  omega

/-- Below the last 16MiB of the address space the machine computes as the naturals do. -/
theorem init_rounds_exact {rounds fuel : Nat} (mem : Mem) (allTrees : Nat → Nat)
    (curTreeAddr curMemAddr treeCnt : Nat) (last : stop + memGap < 2 ^ 64)
    (small : curMemAddr + memGap < 2 ^ 64) (behind : curTreeAddr ≤ curMemAddr)
    (count : (stop - curMemAddr) / memGap = rounds) (enough : rounds < fuel) :
    bbmaInitRounds stop fuel mem allTrees curTreeAddr curMemAddr treeCnt =
      some (bbmaInitLoop stop fuel mem allTrees curTreeAddr curMemAddr treeCnt) := by
  have gap : memGap = 16777216 := rfl
  induction rounds generalizing fuel mem allTrees curTreeAddr curMemAddr treeCnt with
  | zero =>
    obtain ⟨fuel, rfl⟩ := Nat.exists_eq_add_one_of_ne_zero (Nat.ne_of_gt enough)
    have done : ¬ curMemAddr + memGap ≤ stop := Nat.not_le_of_lt (windows_none count)
    rw [bbmaInitRounds, bbmaInitLoop, uintptr_small small, if_neg done, if_neg done]
  | succ rounds ih =>
    obtain ⟨fuel, rfl⟩ := Nat.exists_eq_add_one_of_ne_zero (Nat.ne_of_gt (Nat.zero_lt_of_lt enough))
    obtain ⟨more, left⟩ := windows_more count
    rw [bbmaInitRounds, bbmaInitLoop, uintptr_small small, if_pos more, if_pos more,
      uintptr_small (by omega)]
    exact ih _ _ _ _ _ (by omega) (by omega) left (by omega)

/-- With the heap's end in the last 16MiB every sum is below it. -/
theorem init_rounds_endless (fuel : Nat) (mem : Mem) (allTrees : Nat → Nat)
    (curTreeAddr curMemAddr treeCnt : Nat) (last : 2 ^ 64 ≤ stop + memGap)
    (aligned : memGap ∣ curMemAddr) :
    bbmaInitRounds stop fuel mem allTrees curTreeAddr curMemAddr treeCnt = none := by
  induction fuel generalizing mem allTrees curTreeAddr curMemAddr treeCnt with
  | zero => rfl
  | succ fuel ih =>
    have next : memGap ∣ uintptr (curMemAddr + memGap) :=
      gap_aligned (Nat.dvd_add aligned (Nat.dvd_refl _))
    have bound := gap_bound next (Nat.mod_lt _ (by decide))
    rw [bbmaInitRounds, if_pos (by omega)]
    exact ih _ _ _ _ _ next

theorem init_rounds_grow {fuel treeCnt curTreeAddr curMemAddr : Nat} {mem : Mem}
    {allTrees : Nat → Nat} {result : Mem × (Nat → Nat) × Nat}
    (ran : bbmaInitRounds stop fuel mem allTrees curTreeAddr curMemAddr treeCnt = some result) :
    treeCnt ≤ result.2.2 ∧ ∀ t, t < treeCnt → result.2.1 t = allTrees t := by
  induction fuel generalizing mem allTrees curTreeAddr curMemAddr treeCnt with
  | zero => cases ran
  | succ fuel ih =>
    rw [bbmaInitRounds] at ran
    split at ran
    · obtain ⟨grown, older⟩ := ih ran
      refine ⟨by omega, fun t before => ?_⟩
      rw [older t (by omega), Function.update_of_ne (by omega)]
    · cases ran
      exact ⟨Nat.le_refl _, fun _ _ => rfl⟩

theorem init_rounds_unique {fuel fuel' treeCnt curTreeAddr curMemAddr : Nat} {mem : Mem}
    {allTrees : Nat → Nat} {result result' : Mem × (Nat → Nat) × Nat}
    (ran : bbmaInitRounds stop fuel mem allTrees curTreeAddr curMemAddr treeCnt = some result)
    (ran' : bbmaInitRounds stop fuel' mem allTrees curTreeAddr curMemAddr treeCnt = some result') :
    result = result' := by
  induction fuel generalizing fuel' mem allTrees curTreeAddr curMemAddr treeCnt with
  | zero => cases ran
  | succ fuel ih =>
    cases fuel' with
    | zero => cases ran'
    | succ fuel' =>
      rw [bbmaInitRounds] at ran ran'
      split at ran
      · rename_i more
        rw [if_pos more] at ran'
        exact ih ran ran'
      · rename_i done
        rw [if_neg done] at ran'
        exact Option.some.inj (ran.symm.trans ran')

end Rounds

section Layout

variable {start stop : Nat}

theorem first_round {rounds : Nat} {mem : Mem} {allTrees : Nat → Nat} {mem' : Mem} {g : Globals}
    (enters : uintptr (uintptr (start + memGap) + memGap) ≤ stop)
    (ran : bbmaInitFrom mem allTrees start stop rounds = some (mem', g)) :
    TreeIndex g 1 ∧ g.beginAllocAddr = uintptr (start + memGap) ∧ g.allTrees 1 = start := by
  obtain ⟨result, returned, made⟩ := Option.map_eq_some_iff.mp ran
  cases rounds with
  | zero => cases returned
  | succ rounds =>
    rw [bbmaInitRounds, if_pos enters] at returned
    obtain ⟨grown, older⟩ := init_rounds_grow returned
    have first := older 1 (by decide)
    rw [Function.update_self] at first
    cases made
    refine ⟨⟨Nat.le_refl 1, ?_⟩, rfl, first⟩
    simp only
    omega

theorem init_loop_later {fuel n treeCnt curTreeAddr curMemAddr : Nat} {mem : Mem}
    {allTrees : Nat → Nat} {result : Mem × (Nat → Nat) × Nat}
    (count : (stop - curMemAddr) / memGap = n)
    (ran : bbmaInitLoop stop fuel mem allTrees curTreeAddr curMemAddr treeCnt = result) :
    ∀ t, treeCnt + n ≤ t → result.2.1 t = allTrees t := by
  induction fuel generalizing n mem allTrees curTreeAddr curMemAddr treeCnt with
  | zero =>
    rw [bbmaInitLoop] at ran
    rw [← ran]
    exact fun _ _ => rfl
  | succ fuel ih =>
    intro t behind
    by_cases more : curMemAddr + memGap ≤ stop
    · rw [bbmaInitLoop, if_pos more] at ran
      cases n with
      | zero => exact absurd more (Nat.not_le_of_lt (windows_none count))
      | succ n =>
        obtain ⟨_, left⟩ := windows_more count
        rw [ih left ran t (by omega), Function.update_of_ne (by omega)]
    · rw [bbmaInitLoop, if_neg more] at ran
      rw [← ran]

theorem window_start_nth {g : Globals} {tree k : Nat} (nth : tree = g.realStartAddr + k * 8192) :
    windowStart g tree = g.beginAllocAddr + k * memGap := by
  have gap : memGap = 2 ^ 24 := rfl
  rw [windowStart, nth, Nat.add_sub_cancel_left, Nat.mul_div_cancel _ (by decide), gap]

theorem laid_out_of_arrays {allTrees : Nat → Nat} {mem : Mem} {g : Globals} {n : Nat}
    (real : g.realStartAddr = start) (area : g.beginAllocAddr = start + memGap)
    (trees : g.treeNum = n) (few : n ≤ maxTree)
    (tiled : start + memGap + n * memGap ≤ stop ∨ n = 0)
    (arrays : ∀ t, 1 ≤ t → t ≤ n → g.allTrees t = start + (t - 1) * 8192)
    (untouched : ∀ t, t < 1 ∨ 1 + n ≤ t → g.allTrees t = allTrees t)
    (levels : ∀ i j, i < n → 0 < j → j < 8192 → mem (start + i * 8192 + j) = 24 - j.log2) :
    LaidOut allTrees start stop mem g := by
  have room : maxTree * 8192 ≤ memGap := by decide
  have index : ∀ t, TreeIndex g t → 1 ≤ t ∧ t ≤ n := fun t valid => trees ▸ valid
  constructor
  · intro t outside
    exact untouched t (by omega)
  · intro t valid
    obtain ⟨lower, upper⟩ := index t valid
    have array := arrays t lower upper
    omega
  · intro t u validT validU before
    obtain ⟨lowerT, upperT⟩ := index t validT
    obtain ⟨lowerU, upperU⟩ := index u validU
    have arrayT := arrays t lowerT upperT
    have arrayU := arrays u lowerU upperU
    clear tiled room
    have step : t - 1 + 1 ≤ u - 1 := by omega
    have spaced : (t - 1 + 1) * 8192 ≤ (u - 1) * 8192 := Nat.mul_le_mul_right _ step
    omega
  · intro t valid
    obtain ⟨lower, upper⟩ := index t valid
    have window : windowStart g (g.allTrees t) = g.beginAllocAddr + (t - 1) * memGap := by
      refine window_start_nth ?_
      rw [real]
      exact arrays t lower upper
    have whole : (t - 1) * memGap + memGap ≤ n * memGap := by
      rw [← Nat.succ_mul]
      exact Nat.mul_le_mul_right _ (by omega)
    refine ⟨window, ?_⟩
    rw [window, area]
    omega
  · intro t valid level small j above below
    obtain ⟨lower, upper⟩ := index t valid
    have positive : 0 < 2 ^ level := Nat.two_pow_pos level
    have top : 2 ^ (level + 1) ≤ 2 ^ 13 := Nat.pow_le_pow_right (by decide) (by omega)
    have log : j.log2 = level := (Nat.log2_eq_iff (by omega)).mpr ⟨above, below⟩
    rw [arrays t lower upper, levels (t - 1) j (by omega) (by omega) (by omega), log]

theorem laid_out_of_few (few : (stop - (start + memGap)) / memGap ≤ maxTree)
    (first : start + 2 * memGap < 2 ^ 64) (last : stop + memGap < 2 ^ 64) : LaysOut start stop := by
  intro mem allTrees
  have count : (stop - (start + memGap)) / memGap < stop + 1 :=
    Nat.lt_succ_of_le (Nat.le_trans (Nat.div_le_self _ _) (Nat.sub_le _ _))
  have exact_run := init_rounds_exact mem allTrees start (start + memGap) 1 last (by omega)
    (by omega) rfl count
  have spec := bbma_init_loop_spec mem allTrees start (start + memGap) 1
    (Eq.refl ((stop - (start + memGap)) / memGap)) (Nat.le_of_lt count)
  have tiled : start + memGap + (stop - (start + memGap)) / memGap * memGap ≤ stop ∨
      (stop - (start + memGap)) / memGap = 0 := by
    have whole := Nat.div_mul_le_self (stop - (start + memGap)) memGap
    by_cases none_left : (stop - (start + memGap)) / memGap = 0
    · exact .inr none_left
    · have positive : 0 < (stop - (start + memGap)) / memGap * memGap :=
        Nat.mul_pos (Nat.pos_of_ne_zero none_left) (by decide)
      omega
  obtain ⟨result, ran⟩ : ∃ result,
    bbmaInitLoop stop (stop + 1) mem allTrees start (start + memGap) 1 = result := ⟨_, rfl⟩
  have later := init_loop_later rfl ran
  rw [ran] at exact_run spec
  -- only the specification of the loop is used below
  generalize (stop - (start + memGap)) / memGap = n at few spec tiled later
  have trees : result.2.2 - 1 = n := by
    rw [spec.count]
    omega
  have arrays : ∀ t, 1 ≤ t → t ≤ n → result.2.1 t = start + (t - 1) * 8192 := by
    intro t lower upper
    have array := spec.arrays (t - 1) (by omega)
    rwa [Nat.add_sub_cancel' lower] at array
  have untouched : ∀ t, t < 1 ∨ 1 + n ≤ t → result.2.1 t = allTrees t := by
    rintro t (before | behind)
    · exact spec.older t before
    · exact later t behind
  refine ⟨stop + 1, result.1, ⟨start, start + memGap, result.2.2 - 1, result.2.1⟩, ?_,
    laid_out_of_arrays rfl rfl trees few tiled arrays untouched spec.levels⟩
  rw [bbmaInitFrom, uintptr_small (by omega), exact_run, Option.map_some]

/-- A 33rd window is written past the end of all_trees. -/
theorem few_of_laid_out {rounds : Nat} {mem mem' : Mem} {g : Globals}
    (first : start + 2 * memGap < 2 ^ 64) (last : stop + memGap < 2 ^ 64)
    (ran : bbmaInitFrom mem (fun _ => start + 32 * 8192 + 1) start stop rounds = some (mem', g))
    (laid : LaidOut (fun _ => start + 32 * 8192 + 1) start stop mem' g) :
    (stop - (start + memGap)) / memGap ≤ maxTree := by
  refine Nat.le_of_not_lt fun many => ?_
  have count : (stop - (start + memGap)) / memGap < stop + 1 :=
    Nat.lt_succ_of_le (Nat.le_trans (Nat.div_le_self _ _) (Nat.sub_le _ _))
  have exact_run := init_rounds_exact mem (fun _ => start + 32 * 8192 + 1) start (start + memGap) 1
    last (by omega) (by omega) rfl count
  have spec := bbma_init_loop_spec mem (fun _ => start + 32 * 8192 + 1) start (start + memGap) 1
    (Eq.refl ((stop - (start + memGap)) / memGap)) (Nat.le_of_lt count)
  obtain ⟨result, returned, made⟩ := Option.map_eq_some_iff.mp ran
  rw [uintptr_small (by omega)] at returned
  rw [← init_rounds_unique returned exact_run] at spec
  have written := spec.arrays 32 many
  have kept := laid.indices 33 (.inr (by decide))
  cases made
  have same : start + 32 * 8192 = start + 32 * 8192 + 1 := written.symm.trans kept
  omega

theorem no_first_round {rounds : Nat} {mem mem' : Mem} {allTrees : Nat → Nat} {g : Globals}
    (ran : bbmaInitFrom mem allTrees start stop rounds = some (mem', g))
    (laid : LaidOut allTrees start stop mem' g)
    (wrapped : uintptr (start + memGap) ≤ start ∨ stop < uintptr (start + memGap) + memGap) :
    stop < uintptr (uintptr (start + memGap) + memGap) := by
  refine Nat.lt_of_not_le fun enters => ?_
  obtain ⟨index, area, array⟩ := first_round enters ran
  have inside := (laid.inside 1 index).2
  obtain ⟨window, ends⟩ := laid.windows 1 index
  rw [window, area, Nat.sub_self, Nat.zero_mul, Nat.add_zero] at ends
  rw [array, area] at inside
  omega

/-- bbma_init lays the heap out exactly when MAX_TREE trees are enough. -/
theorem bbma_init_lays_out_iff (start stop : Nat) (aligned : memGap ∣ start)
    (inside : start < 2 ^ 64) : LaysOut start stop ↔ FewWindows start stop := by
  constructor
  · intro lays
    obtain ⟨rounds, mem, g, ran, laid⟩ := lays (fun _ => 0) fun _ => start + 32 * 8192 + 1
    have last : stop + memGap < 2 ^ 64 := by
      refine Nat.lt_of_not_le fun large => ?_
      have endless := init_rounds_endless rounds (fun _ => 0) (fun _ => start + 32 * 8192 + 1) start
        (uintptr (start + memGap)) 1 large (gap_aligned (Nat.dvd_add aligned (Nat.dvd_refl _)))
      rw [bbmaInitFrom, endless] at ran
      cases ran
    refine ⟨last, ?_⟩
    have room := gap_bound aligned inside
    rcases Nat.lt_or_eq_of_le room with below | top
    · have next := gap_bound (Nat.dvd_add aligned (Nat.dvd_refl _)) below
      rcases Nat.lt_or_eq_of_le next with first | last_window
      · have first : start + 2 * memGap < 2 ^ 64 := by omega
        exact .inl ⟨first, few_of_laid_out first last ran laid⟩
      · have stays := no_first_round ran laid (.inr (by rw [uintptr_small below]; omega))
        rw [uintptr_small below, last_window, uintptr, Nat.mod_self] at stays
        cases stays
    · have wraps : uintptr (start + memGap) = 0 := by
        rw [top, uintptr, Nat.mod_self]
      have stays := no_first_round ran laid (.inl (by rw [wraps]; exact Nat.zero_le _))
      rw [wraps, Nat.zero_add, uintptr_small (by decide)] at stays
      exact .inr ⟨top, stays⟩
  · rintro ⟨last, ⟨first, few⟩ | ⟨top, short⟩⟩
    · exact laid_out_of_few few first last
    · intro mem allTrees
      have wraps : uintptr (start + memGap) = 0 := by
        rw [top, uintptr, Nat.mod_self]
      have done : ¬ uintptr (0 + memGap) ≤ stop := by
        rw [Nat.zero_add, uintptr_small (by decide)]
        exact Nat.not_le_of_lt short
      have none_valid : ∀ t, ¬ TreeIndex ⟨start, uintptr (start + memGap), 0, allTrees⟩ t :=
        fun t valid => absurd (Nat.le_trans valid.1 valid.2) (Nat.not_succ_le_zero 0)
      refine ⟨1, mem, ⟨start, uintptr (start + memGap), 0, allTrees⟩, ?_, fun _ _ => rfl, ?_, ?_, ?_, ?_⟩
      · rw [bbmaInitFrom, wraps, bbmaInitRounds, if_neg done]
        rfl
      · exact fun t valid => absurd valid (none_valid t)
      · exact fun t _ valid => absurd valid (none_valid t)
      · exact fun t valid => absurd valid (none_valid t)
      · exact fun t valid => absurd valid (none_valid t)

theorem bbma_init_lays_out_small_heap : LaysOut 0x1000000 0x8000000 :=
  (bbma_init_lays_out_iff 0x1000000 0x8000000 (by decide) (by decide)).mpr (by decide)

/-- A machine with 1GiB of memory has 62 windows. -/
theorem large_heap_overruns_all_trees : ¬ LaysOut 0x1000000 0x40000000 := by
  intro lays
  obtain ⟨rounds, mem, g, ran, laid⟩ := lays (fun _ => 0) fun _ => 0x1000000 + 32 * 8192 + 1
  have few := few_of_laid_out (by decide) (by decide) ran laid
  exact absurd few (by decide)

end Layout

end Tbma
