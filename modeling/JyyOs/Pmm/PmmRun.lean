import JyyOs.Pmm.PmmOps
import JyyOs.Pmm.SummaryRun

/-!
Runs of kalloc and kfree from pmm_init, with the holders of live blocks storing whatever they
like into them. `live` records address and requested size of each block.
-/
namespace Tbma
open BuddyTree LinkedList PartialRun

structure PmmState where
  p : Pmm
  live : List (Nat × Nat)

inductive PmmOp where
  | kalloc (cpu size : Nat)
  | kfree (ptr size : Nat)
  | store (ptr size : Nat) (content : Mem)

def pmmStep (s : PmmState) : PmmOp → Option PmmState
  | .kalloc cpu size =>
    match kalloc s.p cpu size with
    | none => none
    | some (ptr, p) => some ⟨p, if ptr = 0 then s.live else (ptr, size) :: s.live⟩
  | .kfree ptr size =>
    if (ptr, size) ∈ s.live then
      match kfree s.p ptr with
      | none => none
      | some p => some ⟨p, s.live.erase (ptr, size)⟩
    else none
  | .store ptr size content =>
    if (ptr, size) ∈ s.live then
      some { s with p := { s.p with mem := fun x =>
        if ptr ≤ x ∧ x < ptr + 2 ^ sizeClass size then content x else s.p.mem x } }
    else none

/-- A live allocation with the full size class it was rounded up to. -/
def blockOf (x : Nat × Nat) : Nat × Nat := (x.1, sizeClass x.2)

def Clear (x : Nat × Nat) (start stop : Nat) : Prop := x.1 + 2 ^ x.2 ≤ start ∨ stop ≤ x.1

/-- What the allocator promises about the live allocations. -/
structure PmmSafe (s : PmmState) : Prop where
  apart : (s.live.map blockOf).Pairwise Apart
  inside : ∀ x ∈ s.live, s.p.g.beginAllocAddr ≤ x.1 ∧
    x.1 + 2 ^ sizeClass x.2 ≤ s.p.g.beginAllocAddr + s.p.g.treeNum * memGap
  nodes : ∀ x ∈ s.live, ∀ t, TreeIndex s.p.g t →
    Clear (blockOf x) (s.p.g.allTrees t) (s.p.g.allTrees t + 8192)
  sticks : ∀ x ∈ s.live, ∀ cpu i pages, Linked s.p.mem nextSlabStick (s.p.cpuOwnArea cpu i) pages →
    ∀ a ∈ pages, Clear (blockOf x) a (a + slabStickSize)
  aligned : ∀ x ∈ s.live, 2 ^ sizeClass x.2 ∣ x.1
  smallest : ∀ x ∈ s.live, 5 ≤ sizeClass x.2 ∧ sizeClass x.2 ≤ 24 ∧ x.2 ≤ 2 ^ sizeClass x.2 ∧
    ∀ k, 5 ≤ k → x.2 ≤ 2 ^ k → sizeClass x.2 ≤ k

variable {p p' : Pmm} {gh : Ghost} {live : List (Nat × Nat)}

theorem block_home {g : Globals} {x : Nat × Nat} (pages : ∀ y ∈ gh.pages, SlabPage p.mem g gh y)
    (block : LiveBlock g gh x) :
    ∃ y, Owned g gh.shape y ∧ y.1 ≤ x.1 ∧ x.1 + 2 ^ x.2 ≤ y.1 + 2 ^ y.2 ∧
      (y = x ∧ x.1 ∉ gh.pages.map Prod.fst ∨
        y.2 = 12 ∧ (y.1, x.2) ∈ gh.pages ∧ SlotOf y.1 x.2 x.1) := by
  rcases block with ⟨a, page, slot, _⟩ | ⟨owned, notPage⟩
  · exact ⟨(a, 12), (pages _ page).owned, (slot_inside slot).1, slot.upper,
      Or.inr ⟨rfl, page, slot⟩⟩
  · exact ⟨x, owned, Nat.le_refl _, Nat.le_refl _, Or.inl ⟨rfl, notPage⟩⟩

theorem live_apart (inv : PmmInv p gh live) : live.Pairwise Apart := by
  have distinct : live.Pairwise fun x y => x.1 ≠ y.1 := List.pairwise_map.mp inv.liveOnce
  refine distinct.imp_of_mem fun {x y} hx hy other => ?_
  obtain ⟨u, ownedU, lowU, topU, roleU⟩ := block_home inv.pages (inv.liveBlocks x hx)
  obtain ⟨v, ownedV, lowV, topV, roleV⟩ := block_home inv.pages (inv.liveBlocks y hy)
  by_cases same : u = v
  · subst same
    rcases roleU with ⟨rfl, notPage⟩ | ⟨_, pageU, slotU⟩
    · rcases roleV with ⟨rfl, _⟩ | ⟨_, pageV, _⟩
      · exact absurd rfl other
      · exact absurd (List.mem_map_of_mem pageV) notPage
    · rcases roleV with ⟨rfl, notPage⟩ | ⟨_, pageV, slotV⟩
      · exact absurd (List.mem_map_of_mem pageU) notPage
      · have class' := page_class inv pageU pageV
        have apart : Apart (x.1, x.2) (y.1, x.2) :=
          aligned_apart slotU.aligned (class' ▸ slotV.aligned) other
        simp only [Apart, class'] at apart
        simp only [Apart, class']
        exact apart
  · have apart := owned_apart ownedU ownedV same
    simp only [Apart] at apart ⊢
    omega

theorem live_clear_of_stick (inv : PmmInv p gh live) {x : Nat × Nat} (block : x ∈ live) {a k : Nat}
    (page : (a, k) ∈ gh.pages) : Clear x a (a + slabStickSize) := by
  obtain ⟨y, owned, low, top, role⟩ := block_home inv.pages (inv.liveBlocks x block)
  have before := inv.pages _ page
  simp only [Clear, slabStickSize]
  by_cases same : y = (a, 12)
  · rcases role with ⟨rfl, notPage⟩ | ⟨_, inPages, slot⟩
    · rw [same] at notPage
      exact absurd (List.mem_map_of_mem page) notPage
    · have large := class_at_least (inv.pages _ inPages).least
      have lower := slot.lower
      rw [same] at lower
      simp only at large lower
      omega
  · have apart : y.1 + 2 ^ y.2 ≤ a ∨ a + 4096 ≤ y.1 := owned_apart owned before.owned same
    omega

theorem live_in_area (inv : PmmInv p gh live) {x : Nat × Nat} (block : x ∈ live) :
    x.2 ≤ 24 ∧ p.g.beginAllocAddr ≤ x.1 ∧
      x.1 + 2 ^ x.2 ≤ p.g.beginAllocAddr + p.g.treeNum * memGap := by
  obtain ⟨y, owned, low, top, role⟩ := block_home inv.pages (inv.liveBlocks x block)
  have area := owned_in_area inv.laid owned
  have lower := area.lower
  have upper := area.upper
  refine ⟨?_, by omega, by omega⟩
  rcases role with ⟨rfl, _⟩ | ⟨_, page, _⟩
  · exact area.size.2
  · have := (inv.pages _ page).most
    simp only at this
    omega

theorem live_aligned (inv : PmmInv p gh live) {x : Nat × Nat} (block : x ∈ live) :
    2 ^ x.2 ∣ x.1 := by
  rcases inv.liveBlocks x block with ⟨_, _, slot, _⟩ | ⟨owned, _⟩
  · exact slot.aligned
  · exact (owned_in_area inv.laid owned).aligned

theorem safe_of_inv {s : PmmState} (inv : PmmInv s.p gh (s.live.map blockOf)) : PmmSafe s := by
  have inside : ∀ x ∈ s.live, blockOf x ∈ s.live.map blockOf := fun x h => List.mem_map_of_mem h
  refine ⟨live_apart inv, fun x h => (live_in_area inv (inside x h)).2, fun x h t valid => ?_,
    fun x h cpu i pages linked a mem => ?_, fun x h => live_aligned inv (inside x h),
    fun x h => ?_⟩
  · have lower := (live_in_area inv (inside x h)).2.1
    have below := (node_cell_below inv.laid ⟨t, 8191, valid, by decide, by decide, rfl⟩).2
    simp only [Clear]
    omega
  · have chain := inv.chains cpu i
    have same := linked_unique linked chain.linked
    exact live_clear_of_stick inv (inside x h) (chain.pages a (same ▸ mem))
  · have most := (live_in_area inv (inside x h)).1
    have fits : x.2 ≤ 2 ^ 24 := by
      by_contra large
      have refused : sizeClass x.2 = 25 := by
        rw [sizeClass, if_neg (by omega), determine_bbma_size_refuse (by omega)]
      simp only [blockOf] at most
      omega
    exact size_class_spec fits

theorem live_erase {live : List (Nat × Nat)} {x : Nat × Nat} (block : x ∈ live) :
    (live.map blockOf).Perm (blockOf x :: (live.erase x).map blockOf) :=
  (List.perm_cons_erase block).map blockOf

theorem pmm_step_inv {s s' : PmmState} {op : PmmOp}
    (inv : ∃ gh, PmmInv s.p gh (s.live.map blockOf)) (taken : pmmStep s op = some s') :
    ∃ gh, PmmInv s'.p gh (s'.live.map blockOf) := by
  obtain ⟨gh, inv⟩ := inv
  cases op with
  | kalloc cpu size =>
    cases call : kalloc s.p cpu size with
    | none => simp [pmmStep, call] at taken
    | some result =>
      obtain ⟨ptr, p'⟩ := result
      simp only [pmmStep, call, Option.some.injEq] at taken
      subst taken
      obtain ⟨gh', granted, _⟩ := (kalloc_inv inv call).inv
      refine ⟨gh', ?_⟩
      simp only [grant] at granted
      by_cases null : ptr = 0
      · simpa only [if_pos null] using granted
      · simpa only [if_neg null, List.map_cons, blockOf] using granted
  | kfree ptr size =>
    simp only [pmmStep] at taken
    split at taken
    · rename_i block
      cases call : kfree s.p ptr with
      | none => simp [call] at taken
      | some p' =>
        simp only [call, Option.some.injEq] at taken
        subst taken
        obtain ⟨gh', inv', _⟩ := kfree_inv (live_perm inv (live_erase block)) call
        exact ⟨gh', inv'⟩
    · simp at taken
  | store ptr size content =>
    simp only [pmmStep] at taken
    split at taken
    · rename_i block
      simp only [Option.some.injEq] at taken
      subst taken
      refine ⟨gh, inv_mem_congr inv fun c cell => if_neg fun inside => ?_⟩
      have clear := block_avoids_metadata inv (List.mem_map_of_mem (f := blockOf) block) cell
      simp only [blockOf] at clear
      omega
    · simp at taken

theorem boot_inv (heap : HeapRange) (mem : Mem) :
    PmmInv ⟨(bbmaInit mem (alignTo heap.start s16M) heap.stop).1,
        (bbmaInit mem (alignTo heap.start s16M) heap.stop).2, fun _ => 0, fun _ _ => 0⟩
      ⟨fun _ => .free, [], fun _ => [], fun _ _ => []⟩ [] := by
  obtain ⟨laid, trees⟩ := heap_init_spec heap mem
  exact ⟨laid, trees, fun _ _ => rfl, by simp, by simp, fun cpu i => ⟨rfl, by simp, by simp⟩,
    by simp, by simp⟩

theorem request_dropped_inv {cpu i r : Nat} (bound : i < slabNum) (inv : PmmInv p gh [])
    (call : requestASlabFromBbma p cpu (i + cpuFindSlabOffset) = some (r, p')) :
    ∃ gh', PmmInv p' gh' [] ∧ Carries p p' gh gh' ∧ p'.g = p.g := by
  simp only [slabNum] at bound
  have granted := request_a_slab_inv inv (by simp only [cpuFindSlabOffset]; omega)
    (by simp only [cpuFindSlabOffset]; omega) call
  obtain ⟨gh', inv', carries⟩ := granted.inv
  refine ⟨gh', ?_, carries, granted.globals⟩
  unfold grant at inv'
  split at inv'
  · exact inv'
  · exact live_forget inv'

theorem cpu_slab_area_inv {cpu : Nat} {sizes : List Nat} (small : ∀ i ∈ sizes, i < slabNum)
    (inv : PmmInv p gh []) (ran : initializeACpuSlabArea cpu sizes p = some p') :
    ∃ gh', PmmInv p' gh' [] ∧ Carries p p' gh gh' ∧ p'.g = p.g := by
  induction sizes generalizing p gh with
  | nil =>
    simp only [initializeACpuSlabArea, Option.some.injEq] at ran
    exact ran ▸ ⟨gh, inv, carries_refl p gh, rfl⟩
  | cons i rest ih =>
    simp only [initializeACpuSlabArea] at ran
    cases call : requestASlabFromBbma p cpu (i + cpuFindSlabOffset) with
    | none => simp [call] at ran
    | some result =>
      simp only [call] at ran
      obtain ⟨gh1, inv1, carries1, globals1⟩ :=
        request_dropped_inv (small i List.mem_cons_self) inv call
      obtain ⟨gh2, inv2, carries2, globals2⟩ :=
        ih (fun j h => small j (List.mem_cons_of_mem _ h)) inv1 ran
      exact ⟨gh2, inv2, carries_trans carries1 carries2, globals2.trans globals1⟩

theorem slab_init_inv {cpus : List Nat} (inv : PmmInv p gh []) (ran : slabInit cpus p = some p') :
    ∃ gh', PmmInv p' gh' [] ∧ Carries p p' gh gh' ∧ p'.g = p.g := by
  induction cpus generalizing p gh with
  | nil =>
    simp only [slabInit, Option.some.injEq] at ran
    exact ran ▸ ⟨gh, inv, carries_refl p gh, rfl⟩
  | cons cpu rest ih =>
    simp only [slabInit] at ran
    cases call : initializeACpuSlabArea cpu (List.range slabNum) p with
    | none => simp [call] at ran
    | some p1 =>
      simp only [call] at ran
      obtain ⟨gh1, inv1, carries1, globals1⟩ :=
        cpu_slab_area_inv (fun i h => List.mem_range.mp h) inv call
      obtain ⟨gh2, inv2, carries2, globals2⟩ := ih inv1 ran
      exact ⟨gh2, inv2, carries_trans carries1 carries2, globals2.trans globals1⟩

/-- Whatever is allocated, freed and stored after pmm_init, on any CPUs, the live
    allocations stay apart from each other and from the allocator's own data. -/
theorem kalloc_kfree_safe (heap : HeapRange) (cpuCount : Nat) (mem : Mem) (ops : List PmmOp)
    {p : Pmm} {s : PmmState} (booted : pmmInit heap cpuCount mem = some p)
    (ran : run pmmStep ⟨p, []⟩ ops = some s) : PmmSafe s := by
  obtain ⟨gh0, inv0, _⟩ := slab_init_inv (boot_inv heap mem) booted
  have start : ∃ gh, PmmInv p gh [] := ⟨gh0, inv0⟩
  have preserved : ∀ s op s', (∃ gh, PmmInv s.p gh (s.live.map blockOf)) →
      pmmStep s op = some s' → ∃ gh, PmmInv s'.p gh (s'.live.map blockOf) :=
    fun s op s' inv taken => pmm_step_inv inv taken
  obtain ⟨gh, inv⟩ := run_invariant preserved start ran
  exact safe_of_inv inv

def mixedOps : List PmmOp :=
  [.kalloc 0 100, .kalloc 0 5000, .store (2 ^ 25 + 0x2F00) 100 (fun _ => 7), .kalloc 0 128,
    .kfree (2 ^ 25 + 0x8000) 5000, .kalloc 0 2048]

/-- One CPU on a heap of one window: blocks from a slab page, from the tree, and a free. -/
theorem mixed_ops_safe :
    ∃ p s, pmmInit oneWindow 1 (freshNodes (2 ^ 24)) = some p ∧
      run pmmStep ⟨p, []⟩ mixedOps = some s ∧ s.live.length = 3 ∧ PmmSafe s := by
  have boot : pmmInit oneWindow 1 (freshNodes (2 ^ 24)) =
      slabInit (List.range 1) ⟨freshNodes (2 ^ 24), oneTree, fun _ => 0, fun _ _ => 0⟩ := by
    rw [pmmInit, init_one_window]
  have lengths : ((slabInit (List.range 1)
      ⟨freshNodes (2 ^ 24), oneTree, fun _ => 0, fun _ _ => 0⟩).bind fun p =>
        (run pmmStep ⟨p, []⟩ mixedOps).map fun s => s.live.length) = some 3 := by
    decide +kernel
  obtain ⟨p, init, rest⟩ := Option.bind_eq_some_iff.mp lengths
  obtain ⟨s, ran, three⟩ := Option.map_eq_some_iff.mp rest
  exact ⟨p, s, boot.trans init, ran, three,
    kalloc_kfree_safe oneWindow 1 (freshNodes (2 ^ 24)) mixedOps (boot.trans init) ran⟩

end Tbma
