import JyyOs.Pmm.PageFill
import JyyOs.Uproc.Refs

/-!
cow_table has an entry for each page of the heap's length, but is indexed by the absolute
number of a page. The last page of the last window tells whether the two fit.
-/
namespace Uproc

open Tbma PartialRun

/-- MAX_CPU of x86.h; the boot code panics on more processors. -/
def maxCpu : Nat := 8

/-- The entries uproc_init allocates for cow_table. -/
def pmsize (heap : HeapRange) : Nat := u64 (heap.stop + 2 ^ 64 - heap.start) >>> 12

/-- Some run of allocations and frees after pmm_init hands out a block of one page at `pa`. -/
def Returnable (p : Pmm) (pa : Nat) : Prop :=
  ∃ ops s, run pmmStep ⟨p, []⟩ ops = some s ∧ (pa, pgsize) ∈ s.live

structure CowTableCovers (heap : HeapRange) (p : Pmm) : Prop where
  inside : ∀ pa, Returnable p pa → cowIndex pa < pmsize heap
  distinct : ∀ pa pb, Returnable p pa → Returnable p pb → pa ≠ pb → cowIndex pa ≠ cowIndex pb

variable {heap : HeapRange} {cpuCount pa : Nat} {mem : Mem} {p : Pmm}

theorem pmm_step_globals {s s' : PmmState} {op : PmmOp}
    (inv : ∃ gh, PmmInv s.p gh (s.live.map blockOf)) (taken : pmmStep s op = some s') :
    s'.p.g = s.p.g := by
  obtain ⟨gh, inv⟩ := inv
  cases op with
  | kalloc cpu size =>
    cases call : kalloc s.p cpu size with
    | none => simp [pmmStep, call] at taken
    | some result =>
      simp only [pmmStep, call, Option.some.injEq] at taken
      rw [← taken]
      exact (kalloc_inv inv call).globals
  | kfree ptr size =>
    simp only [pmmStep] at taken
    split at taken
    · rename_i block
      cases call : kfree s.p ptr with
      | none => simp [call] at taken
      | some p' =>
        simp only [call, Option.some.injEq] at taken
        rw [← taken]
        obtain ⟨_, _, globals⟩ := kfree_inv (live_perm inv (live_erase block)) call
        exact globals
    · cases taken
  | store ptr size content =>
    simp only [pmmStep] at taken
    split at taken
    · cases taken
      rfl
    · cases taken

theorem returnable_bounds (booted : pmmInit heap cpuCount mem = some p)
    (returned : Returnable p pa) : pa % pgsize = 0 ∧ p.g.beginAllocAddr ≤ pa ∧
      pa + 4096 ≤ p.g.beginAllocAddr + p.g.treeNum * memGap := by
  obtain ⟨ops, s, ran, live⟩ := returned
  obtain ⟨gh, inv, _⟩ := slab_init_inv (boot_inv heap mem) booted
  have preserved : ∀ s op s',
      ((∃ gh, PmmInv s.p gh (s.live.map blockOf)) ∧ s.p.g = p.g) → pmmStep s op = some s' →
        (∃ gh, PmmInv s'.p gh (s'.live.map blockOf)) ∧ s'.p.g = p.g :=
    fun s op s' before taken =>
      ⟨pmm_step_inv before.1 taken, (pmm_step_globals before.1 taken).trans before.2⟩
  obtain ⟨⟨gh', inv'⟩, globals⟩ := run_invariant preserved ⟨⟨gh, inv⟩, rfl⟩ ran
  have safe := safe_of_inv inv'
  have class' : sizeClass pgsize = 12 := by decide
  have aligned := safe.aligned _ live
  obtain ⟨lower, upper⟩ := safe.inside _ live
  rw [class'] at aligned upper
  rw [globals] at lower upper
  exact ⟨Nat.mod_eq_zero_of_dvd aligned, lower, upper⟩

structure Windows (heap : HeapRange) (p : Pmm) : Prop where
  laid : Laid p.g
  free : LocksFree p
  start : ∃ q, alignTo heap.start s16M = memGap * q
  area : p.g.beginAllocAddr = alignTo heap.start s16M + memGap
  count : p.g.treeNum = (heap.stop - (alignTo heap.start s16M + memGap)) / memGap

theorem pmm_init_windows (booted : pmmInit heap cpuCount mem = some p) : Windows heap p := by
  obtain ⟨gh, inv, _, globals⟩ := slab_init_inv (boot_inv heap mem) booted
  have spec := align_to_spec heap.start s16M
  have aligned : memGap ∣ alignTo heap.start s16M := by
    rw [memGap, Nat.one_shiftLeft]
    exact spec.1
  obtain ⟨laid, _, count, start⟩ := bbma_init_spec mem (alignTo heap.start s16M) heap.stop
    (Nat.lt_of_lt_of_le heap.positive spec.2.1) aligned heap.windows
  have area := laid.area
  rw [start] at area
  refine ⟨inv.laid, inv.locks, aligned, ?_, ?_⟩
  · rw [globals]
    exact area
  · rw [globals]
    exact count

theorem pmsize_value (ordered : heap.start ≤ heap.stop) :
    pmsize heap = (heap.stop - heap.start) / 4096 := by
  have machine := heap.machine
  rw [pmsize, Nat.shiftRight_eq_div_pow, u64]
  omega

theorem cow_index_value (pa : Nat) : cowIndex pa = pa / 4096 := by
  simp only [cowIndex, roundDown, pgsize]
  omega

/-- cow_table covers the pages exactly when there are none, or when the heap starts no later
    than the bytes behind the last window are long. -/
theorem cow_table_covers_iff (heap : HeapRange) (cpuCount : Nat) (mem : Mem) {p : Pmm}
    (few : cpuCount ≤ maxCpu) (booted : pmmInit heap cpuCount mem = some p) :
    CowTableCovers heap p ↔
      heap.stop < alignTo heap.start s16M + 2 * memGap ∨ heap.start ≤ heap.stop % memGap := by
  have windows := pmm_init_windows booted
  obtain ⟨q, start⟩ := windows.start
  have area := windows.area
  have count := windows.count
  have later := (align_to_spec heap.start s16M).2.1
  have gap : memGap = 16777216 := rfl
  rw [start] at area count later ⊢
  rw [gap] at area count later ⊢
  constructor
  · intro covers
    by_contra fails
    have room : 1 ≤ p.g.treeNum := by omega
    simp only [maxCpu] at few
    have filled := pmm_init_filled (by simp only [slabNum]; omega) booted
    obtain ⟨s, ran, live⟩ := page_run_reaches (s := ⟨p, []⟩)
      (p.g.treeNum * 4096 - 1 - slabNum * cpuCount) windows.laid windows.free filled
      (by simp only [slabNum]; omega)
    have last := covers.inside _ ⟨_, s, ran, live⟩
    rw [cow_index_value, pmsize_value (by omega)] at last
    simp only [slabNum] at last
    omega
  · intro fits
    refine ⟨fun pa returned => ?_, fun pa pb first second other same => other ?_⟩
    · obtain ⟨_, lower, upper⟩ := returnable_bounds booted returned
      rw [gap] at upper
      rw [cow_index_value, pmsize_value (by omega)]
      omega
    · have alignedA := (returnable_bounds booted first).1
      have alignedB := (returnable_bounds booted second).1
      exact cow_index_injective alignedA alignedB same

theorem one_window_boots : ∃ p, pmmInit oneWindow 1 (freshNodes (2 ^ 24)) = some p ∧
    ∃ s, run pmmStep ⟨p, []⟩ [.kalloc 0 pgsize] = some s ∧ s.live = [(2 ^ 25 + 0x7000, pgsize)] := by
  have boot : pmmInit oneWindow 1 (freshNodes (2 ^ 24)) =
      slabInit (List.range 1) ⟨freshNodes (2 ^ 24), oneTree, fun _ => 0, fun _ _ => 0⟩ := by
    rw [pmmInit, init_one_window]
  have returned : ((slabInit (List.range 1)
      ⟨freshNodes (2 ^ 24), oneTree, fun _ => 0, fun _ _ => 0⟩).bind fun p =>
        (run pmmStep ⟨p, []⟩ [.kalloc 0 pgsize]).map fun s => s.live) =
          some [(2 ^ 25 + 0x7000, pgsize)] := by
    decide +kernel
  obtain ⟨p, init, rest⟩ := Option.bind_eq_some_iff.mp returned
  exact ⟨p, boot.trans init, Option.map_eq_some_iff.mp rest⟩

/-- A heap that ends with its window leaves the last page without an entry. -/
theorem cow_table_covers_one_window :
    ∃ p, pmmInit oneWindow 1 (freshNodes (2 ^ 24)) = some p ∧ ¬ CowTableCovers oneWindow p := by
  obtain ⟨p, booted, _⟩ := one_window_boots
  refine ⟨p, booted, fun covers => ?_⟩
  have fits := (cow_table_covers_iff oneWindow 1 (freshNodes (2 ^ 24)) (by decide) booted).mp covers
  exact absurd fits (by decide)

/-- The heap [16MiB, 48MiB) has 8192 entries, and its first page has the index 8199. -/
theorem first_page_without_entry :
    ∃ p pa, pmmInit oneWindow 1 (freshNodes (2 ^ 24)) = some p ∧ Returnable p pa ∧
      pmsize oneWindow = 8192 ∧ cowIndex pa = 8199 ∧ ¬ CowTableCovers oneWindow p := by
  obtain ⟨p, booted, s, ran, live⟩ := one_window_boots
  have returned : Returnable p (2 ^ 25 + 0x7000) := by
    refine ⟨_, s, ran, ?_⟩
    rw [live]
    exact List.mem_cons_self
  refine ⟨p, _, booted, returned, by decide, by decide, fun covers => ?_⟩
  exact absurd (covers.inside _ returned) (by decide)

end Uproc
