import JyyOs.Pmm.Homes

/-!
Runs of kalloc and kfree that remember where each live block was taken from. kfree of a live
block finds that place again, and afterwards just this block is allocatable.
-/
namespace Tbma
open BuddyTree LinkedList PartialRun

/-- `x`, as (address, class), is a block the node arrays show as handed out. -/
def TreeBlock (p : Pmm) (x : Nat × Nat) : Prop :=
  ∃ t, TreeIndex p.g t ∧ ∃ shape : Buddy 12, Rep p.mem (p.g.allTrees t) 1 shape ∧
    x ∈ blocks 12 (windowOf p.g t) shape

def SlabBlock (p : Pmm) (a : Nat) (x : Nat × Nat) : Prop :=
  SlotOf a x.2 x.1 ∧ ∃ cpu i pages, Linked p.mem nextSlabStick (p.cpuOwnArea cpu i) pages ∧
    a ∈ pages ∧ x.2 = i + cpuFindSlabOffset

def Listed (p : Pmm) (a s : Nat) : Prop :=
  ∃ slots, Linked p.mem 0 (p.mem (a + freeBlockList)) slots ∧
    p.mem (a + slabFreeSpace) = slots.length ∧ s ∈ slots

def HandedOut (p : Pmm) (x : Nat × Nat) : Prop :=
  TreeBlock p x ∨ ∃ a, SlabBlock p a x ∧ ¬Listed p a x.1

def Allocatable (p : Pmm) (x : Nat × Nat) : Prop :=
  (∃ a, SlabBlock p a x ∧ Listed p a x.1) ∨
    ∃ t, TreeIndex p.g t ∧ 12 ≤ x.2 ∧ 2 ^ x.2 ∣ x.1 ∧ windowOf p.g t ≤ x.1 ∧
      x.1 + 2 ^ x.2 ≤ windowOf p.g t + memGap ∧ ∀ y, TreeBlock p y → Apart x y

section Ghosts

variable {p : Pmm} {gh : Ghost} {live : List (Nat × Nat)} {x : Nat × Nat}

theorem tree_block_iff (inv : PmmInv p gh live) : TreeBlock p x ↔ Owned p.g gh.shape x := by
  constructor
  · rintro ⟨t, valid, shape, rep, inside⟩
    exact ⟨t, valid, rep_unique rep (inv.trees t valid) ▸ inside⟩
  · rintro ⟨t, valid, inside⟩
    exact ⟨t, valid, gh.shape t, inv.trees t valid, inside⟩

theorem slab_block_iff (inv : PmmInv p gh live) (settled : Settled p gh) {a : Nat} :
    SlabBlock p a x ↔ (a, x.2) ∈ gh.pages ∧ SlotOf a x.2 x.1 := by
  constructor
  · rintro ⟨slot, cpu, i, pages, linked, inside, class'⟩
    have chain := inv.chains cpu i
    rw [linked_unique linked chain.linked] at inside
    exact ⟨class' ▸ chain.pages a inside, slot⟩
  · rintro ⟨page, slot⟩
    obtain ⟨cpu, listed⟩ := settled.listed _ page
    have least := (inv.pages _ page).least
    refine ⟨slot, cpu, _, _, (inv.chains cpu _).linked, listed, ?_⟩
    simp only [cpuFindSlabOffset] at least ⊢
    omega

theorem listed_iff (inv : PmmInv p gh live) {a k s : Nat} (page : (a, k) ∈ gh.pages) :
    Listed p a s ↔ s ∈ gh.slots a := by
  have list := (inv.pages _ page).list
  constructor
  · rintro ⟨slots, linked, _, inside⟩
    exact linked_unique linked list.list ▸ inside
  · exact fun inside => ⟨gh.slots a, list.list, list.count, inside⟩

theorem handed_out_iff (inv : PmmInv p gh live) (settled : Settled p gh) :
    HandedOut p x ↔ Owned p.g gh.shape x ∨
      ∃ a, ((a, x.2) ∈ gh.pages ∧ SlotOf a x.2 x.1) ∧ x.1 ∉ gh.slots a := by
  rw [HandedOut, tree_block_iff inv]
  refine or_congr Iff.rfl (exists_congr fun a => ?_)
  rw [slab_block_iff inv settled]
  refine and_congr_right fun ⟨page, _⟩ => ?_
  rw [listed_iff inv page]

end Ghosts

section Free

variable {p : Pmm} {gh : Ghost} {live : List (Nat × Nat)} {x : Nat × Nat}

structure Returned (p p' : Pmm) (gh gh' : Ghost) (live : List (Nat × Nat)) (x : Nat × Nat) :
    Prop where
  run : kfree p x.1 = some p'
  inv : PmmInv p' gh' live
  settled : Settled p' gh'
  globals : p'.g = p.g
  pages : gh'.pages = gh.pages
  before : HandedOut p x
  after : Allocatable p' x
  others : ∀ y, HandedOut p' y ↔ HandedOut p y ∧ y ≠ x

theorem slab_returned (inv : PmmInv p gh (x :: live)) (settled : Settled p gh) {a : Nat}
    (page : (a, x.2) ∈ gh.pages) (slot : SlotOf a x.2 x.1) (absent : x.1 ∉ gh.slots a) :
    ∃ p' gh', Returned p p' gh gh' live x := by
  obtain ⟨_, mem', run, inv', locks⟩ :=
    slab_free_returns inv page slot absent (settled.locks _ page)
  have settled' : Settled { p with mem := mem' }
      { gh with slots := Function.update gh.slots a (x.1 :: gh.slots a) } :=
    have carries : Carries p { p with mem := mem' } gh
        { gh with slots := Function.update gh.slots a (x.1 :: gh.slots a) } :=
      carries_same rfl rfl locks
    carries.settled settled
  refine ⟨_, _, ?_, inv', settled', rfl, rfl, ?_, ?_, fun y => ?_⟩
  · rw [kfree, slot_not_aligned inv page slot]
    exact run
  · exact (handed_out_iff inv settled).mpr (.inr ⟨a, ⟨page, slot⟩, absent⟩)
  · refine .inl ⟨a, (slab_block_iff inv' settled').mpr ⟨page, slot⟩, ?_⟩
    rw [listed_iff inv' page]
    simp only [Function.update_self, List.mem_cons_self]
  · have small := (inv.pages _ page).most
    rw [handed_out_iff inv' settled', handed_out_iff inv settled]
    dsimp only
    constructor
    · rintro (owned | ⟨b, ⟨page', slot'⟩, absent'⟩)
      · refine ⟨.inl owned, ?_⟩
        rintro rfl
        have := (owned_in_area inv.laid owned).size.1
        simp only at small
        omega
      · by_cases here : b = a
        · subst here
          rw [Function.update_self, List.mem_cons, not_or] at absent'
          exact ⟨.inr ⟨b, ⟨page', slot'⟩, absent'.2⟩, fun same => absent'.1 (same ▸ rfl)⟩
        · rw [Function.update_of_ne here] at absent'
          refine ⟨.inr ⟨b, ⟨page', slot'⟩, absent'⟩, ?_⟩
          rintro rfl
          exact here (slot_in_one_page inv page' page (slot_inside slot') (slot_inside slot))
    · rintro ⟨owned | ⟨b, ⟨page', slot'⟩, absent'⟩, other⟩
      · exact .inl owned
      · refine .inr ⟨b, ⟨page', slot'⟩, ?_⟩
        by_cases here : b = a
        · subst here
          rw [Function.update_self, List.mem_cons, not_or]
          have class' := page_class inv page' page
          exact ⟨fun same => other (Prod.ext same class'), absent'⟩
        · rwa [Function.update_of_ne here]

theorem bbma_free_returns (laid : Laid p.g) (trees : Trees p.g p.mem gh.shape)
    (locks : LocksFree p) {t ptr k : Nat} (valid : TreeIndex p.g t)
    (block : (ptr, k) ∈ blocks 12 (windowOf p.g t) (gh.shape t))
    (after : p.g.beginAllocAddr < ptr) :
    ∃ mem' b', Given p.g (p.g.allTrees t) p.mem 1 (windowOf p.g t) k (gh.shape t) ptr mem' b' ∧
      Trees p.g mem' (Function.update gh.shape t b') ∧
      bbmaFree p ptr = some { p with mem := mem' } := by
  have bounds := block_bounds _ block
  have size : 0 < 2 ^ k := Nat.two_pow_pos _
  have gap := mem_gap_value
  simp only at bounds
  have which := determine_which_tree_window laid valid bounds.1 (by omega)
  rw [if_pos after] at which
  obtain ⟨mem', b', given, trees'⟩ := free_in_trees laid valid trees block
  have give := given.run
  rw [show (12 : Nat) + 12 = s16M from rfl] at give
  have stored : p.g.allTrees t ≠ 0 := by
    have := laid.positive
    rw [laid.arrays t valid.1 valid.2]
    omega
  refine ⟨mem', b', given, trees', ?_⟩
  simp only [bbmaFree, which, stored, locks t valid, give, show ptr ≠ 0 by omega, ne_eq,
    not_true_eq_false, ↓reduceIte, unlock_after_lock (locks t valid)]

theorem buddy_returned (inv : PmmInv p gh (x :: live)) (settled : Settled p gh)
    (owned : Owned p.g gh.shape x) (notPage : x.1 ∉ gh.pages.map Prod.fst)
    (first : p.g.beginAllocAddr ∈ gh.pages.map Prod.fst) :
    ∃ p' gh', Returned p p' gh gh' live x := by
  have area := owned_in_area inv.laid owned
  have even := owned_block_aligned inv.laid owned
  have after : p.g.beginAllocAddr < x.1 := by
    have lower := area.lower
    have other : x.1 ≠ p.g.beginAllocAddr := fun same => notPage (same ▸ first)
    omega
  have handed : HandedOut p x := .inl ((tree_block_iff inv).mpr owned)
  obtain ⟨t, valid, block⟩ := owned
  obtain ⟨mem', b', given, trees', run⟩ :=
    bbma_free_returns inv.laid inv.trees inv.locks valid block after
  have inv' := buddy_given_inv inv valid notPage given trees'
  have settled' : Settled { p with mem := mem' }
      { gh with shape := Function.update gh.shape t b' } := by
    refine Carries.settled ?_ settled
    refine carries_same rfl rfl fun y page => ?_
    exact frame_outside inv.laid valid given.frame (page_not_node inv page (Nat.le_refl _))
  obtain ⟨gained, gone⟩ := owned_gain gh.shape valid (give_blocks given.give)
  rw [Function.update_eq_self] at gained
  refine ⟨_, _, ?_, inv', settled', rfl, rfl, handed, .inr ⟨t, valid, area.size.1, area.aligned,
    (block_bounds _ block).1, ?_, fun y tree => ?_⟩, fun y => ?_⟩
  · rw [kfree, even]
    exact run
  · have := (block_bounds _ block).2
    rw [mem_gap_value]
    exact this
  · have owned' := (tree_block_iff inv').mp tree
    refine owned_apart ((gained x).mpr (.inl rfl)) ((gained y).mpr (.inr owned')) ?_
    rintro rfl
    exact gone owned'
  · rw [handed_out_iff inv' settled', handed_out_iff inv settled]
    have large := area.size.1
    have split := gained y
    constructor
    · rintro (owned | ⟨b, ⟨page, slot⟩, absent⟩)
      · exact ⟨.inl (split.mpr (.inr owned)), fun same => gone (same ▸ owned)⟩
      · refine ⟨.inr ⟨b, ⟨page, slot⟩, absent⟩, ?_⟩
        rintro rfl
        have := (inv.pages _ page).most
        simp only at this
        omega
    · rintro ⟨owned | slab, other⟩
      · exact .inl ((split.mp owned).resolve_left other)
      · exact .inr slab

theorem kfree_returned (inv : PmmInv p gh (x :: live)) (settled : Settled p gh)
    (first : p.g.beginAllocAddr ∈ gh.pages.map Prod.fst) :
    ∃ p' gh', Returned p p' gh gh' live x := by
  rcases inv.liveBlocks x List.mem_cons_self with ⟨a, page, slot, absent⟩ | ⟨owned, notPage⟩
  · exact slab_returned inv settled page slot absent
  · exact buddy_returned inv settled owned notPage first

end Free

section Boot

variable {p p' : Pmm} {gh : Ghost}

theorem full_taken_node {g : Globals} {mem : Mem} {tree d i addr req : Nat}
    (placed : Placed g tree d i addr) (full : Full mem tree d i) (real : 12 ≤ req)
    (fits : req ≤ 12 + d) :
    Placed g tree (req - 12) (takenNode mem tree req (12 + d) i) addr := by
  induction d generalizing i with
  | zero =>
    obtain rfl : req = 12 := by omega
    rw [takenNode, if_pos rfl]
    exact placed
  | succ d ih =>
    rw [← Nat.add_assoc, takenNode]
    by_cases whole : req = 12 + (d + 1)
    · subst whole
      rw [if_pos (by omega), Nat.add_sub_cancel_left]
      exact placed
    · have left := full_value full.2.1
      rw [if_neg (by omega), if_pos (by omega)]
      exact ih (placed_children placed).1 full.2.1 (by omega)

theorem first_page (laid : Laid p.g) (trees : Trees p.g p.mem fun _ => .free)
    (locks : LocksFree p) (some_tree : 0 < p.g.treeNum) :
    ∃ p1, bbmaAlloc p slabRequestSpace = some (p.g.beginAllocAddr, p1) := by
  have valid : TreeIndex p.g 1 := ⟨Nat.le_refl _, some_tree⟩
  have full := rep_free_iff.mp (trees 1 valid)
  have root : p.mem (p.g.allTrees 1 + 1) = 24 := full_value full
  have class' : determineBbmaSize slabRequestSpace = 12 := by decide
  obtain ⟨a, mem', b', taken, _⟩ :=
    alloc_in_trees laid valid trees (Nat.le_refl 12) (by rw [root]; decide)
  have placed := taken_node .free (root_placed laid valid) (window_positive laid 1)
    (trees 1 valid) (Nat.le_refl 12) (by rw [root]; decide) taken
  have start : a = p.g.beginAllocAddr := by
    have := full_taken_node (root_placed laid valid) full (Nat.le_refl 12) (by decide)
    rw [placed.address, ← this.address, windowOf]
    simp
  obtain ⟨n, more⟩ := Nat.exists_eq_add_of_lt some_tree
  have get := taken.run
  rw [show (12 : Nat) + 12 = s16M from rfl, start] at get
  have area := laid.area
  have positive := laid.positive
  have stored : p.g.allTrees 1 ≠ 0 := by
    rw [laid.arrays 1 valid.1 valid.2]
    omega
  have aligned : isAlignTo p.g.beginAllocAddr 12 = true := by
    have := taken_aligned laid taken
    rw [start] at this
    rw [isAlignTo, Nat.one_shiftLeft, Nat.mod_eq_zero_of_dvd this]
    rfl
  have search : findAvailableTree p 12 =
      (some 1, { p with treeLocks := Function.update p.treeLocks 1 1 }) := by
    rw [findAvailableTree, more, Nat.zero_add, List.range'_succ, findAvailableIn,
      if_pos (locks 1 valid), if_neg (by rw [root]; decide)]
  refine ⟨{ p with mem := mem', treeLocks := spinUnlock (Function.update p.treeLocks 1 1) 1 }, ?_⟩
  simp [bbmaAlloc, class', findTheFreeSpaceInBbmaSystem, search, get, stored, root, aligned,
    Nat.not_lt.mpr valid.2]

theorem slab_init_first {cpus : List Nat} (some_cpu : cpus ≠ []) (inv : PmmInv p gh [])
    (trees : Trees p.g p.mem fun _ => .free) (some_tree : 0 < p.g.treeNum)
    (settled : Settled p gh) (ran : slabInit cpus p = some p') :
    ∃ gh', PmmInv p' gh' [] ∧ Settled p' gh' ∧ p'.g = p.g ∧
      p'.g.beginAllocAddr ∈ gh'.pages.map Prod.fst := by
  cases cpus with
  | nil => exact absurd rfl some_cpu
  | cons cpu rest =>
    simp only [slabInit, show List.range slabNum = 0 :: List.range' 1 6 by decide,
      initializeACpuSlabArea, Nat.zero_add] at ran
    cases call : requestASlabFromBbma p cpu cpuFindSlabOffset with
    | none => simp [call] at ran
    | some result =>
      obtain ⟨r, p1⟩ := result
      simp only [call] at ran
      obtain ⟨p0, alloc⟩ := first_page inv.laid trees inv.locks some_tree
      have positive := inv.laid.positive
      have area := inv.laid.area
      rcases request_a_slab_cases inv (by decide) (by decide) call with
        ⟨null, _⟩ | ⟨a, _, p2, gh2, alloc', _, search, inv2, page, carries, globals⟩
      · rw [alloc] at null
        simp only [Option.some.injEq, Prod.mk.injEq] at null
        omega
      · rw [alloc, Option.some.injEq, Prod.mk.injEq] at alloc'
        obtain ⟨rfl, _⟩ := alloc'
        have granted := find_free_space_inv inv2 (by decide) search
        obtain ⟨gh3, inv3, carries3⟩ := granted.inv
        have inv3 : PmmInv p1 gh3 [] := by
          unfold grant at inv3
          split at inv3
          · exact inv3
          · exact live_forget inv3
        cases area_ran : initializeACpuSlabArea cpu (List.range' 1 6) p1 with
        | none => simp [area_ran] at ran
        | some p3 =>
          simp only [area_ran] at ran
          obtain ⟨gh4, inv4, carries4, globals4⟩ := cpu_slab_area_inv
            (fun i h => by
              have := List.mem_range'_1.mp h
              simp only [slabNum]
              omega) inv3 area_ran
          obtain ⟨gh5, inv5, carries5, globals5⟩ := slab_init_inv inv4 ran
          have all := carries_trans carries (carries_trans carries3 (carries_trans carries4 carries5))
          have same : p'.g = p.g :=
            globals5.trans (globals4.trans (granted.globals.trans globals))
          have later := carries_trans carries3 (carries_trans carries4 carries5)
          refine ⟨gh5, inv5, all.settled settled, same, ?_⟩
          rw [same]
          exact List.mem_map.mpr ⟨_, later.pages page, rfl⟩

end Boot

section Run

/-- A run with the place each live block was taken from, recorded when kalloc returned it. -/
structure HomedState where
  s : PmmState
  home : Nat → Option Home

def recordHome (hs : HomedState) : PmmOp → Nat → Option Home
  | .kalloc cpu size =>
    match kalloc hs.s.p cpu size with
    | some (ptr, _) => Function.update hs.home ptr (kallocHome hs.s.p cpu size)
    | none => hs.home
  | _ => hs.home

def homedStep (hs : HomedState) (op : PmmOp) : Option HomedState :=
  (pmmStep hs.s op).map fun s => ⟨s, recordHome hs op⟩

/-- What kfree of the live allocation `x`, as (address, size), would do now. -/
structure KfreeUndoes (hs : HomedState) (x : Nat × Nat) : Prop where
  dispatch : isAlignTo x.1 12 = true ↔ 2048 < x.2
  home : ∃ h, hs.home x.1 = some h ∧ kfreeHome hs.s.p x.1 = some h
  masks : isAlignTo x.1 12 = false → slabAlignTo4kb x.1 % slabRequestSpace = 0 ∧
    slabAlignTo4kb x.1 < x.1 ∧ x.1 - slabAlignTo4kb x.1 < 1 <<< 12
  others_live : ∀ y ∈ hs.s.live, HandedOut hs.s.p (blockOf y)
  returns : ∃ p', kfree hs.s.p x.1 = some p' ∧ Allocatable p' (blockOf x) ∧
    ∀ y, HandedOut p' y ↔ HandedOut hs.s.p y ∧ y ≠ blockOf x

structure HomedInv (hs : HomedState) (gh : Ghost) : Prop where
  inv : PmmInv hs.s.p gh (hs.s.live.map blockOf)
  settled : Settled hs.s.p gh
  first : hs.s.p.g.beginAllocAddr ∈ gh.pages.map Prod.fst
  homes : ∀ x ∈ hs.s.live, ∃ h, hs.home x.1 = some h ∧ HomeOf hs.s.p.g (blockOf x) h

variable {hs hs' : HomedState} {gh : Ghost}

theorem homed_kalloc {cpu size ptr : Nat} {p' : Pmm} (inv : HomedInv hs gh)
    (call : kalloc hs.s.p cpu size = some (ptr, p')) :
    ∃ gh', HomedInv ⟨⟨p', if ptr = 0 then hs.s.live else (ptr, size) :: hs.s.live⟩,
      Function.update hs.home ptr (kallocHome hs.s.p cpu size)⟩ gh' := by
  have result := kalloc_inv inv.inv call
  obtain ⟨gh', granted, carries⟩ := result.inv
  have globals := result.globals
  have first : p'.g.beginAllocAddr ∈ gh'.pages.map Prod.fst := by
    obtain ⟨x, page, start⟩ := List.mem_map.mp inv.first
    rw [globals]
    exact List.mem_map.mpr ⟨x, carries.pages page, start⟩
  have positive : ∀ x ∈ hs.s.live, x.1 ≠ 0 := by
    intro x live
    have lower : hs.s.p.g.beginAllocAddr ≤ x.1 :=
      (live_in_area inv.inv (List.mem_map_of_mem (f := blockOf) live)).2.1
    have := inv.inv.laid.positive
    have := inv.inv.laid.area
    omega
  by_cases null : ptr = 0
  · simp only [grant, if_pos null] at granted ⊢
    refine ⟨gh', granted, carries.settled inv.settled, first, fun x live => ?_⟩
    obtain ⟨h, home, here⟩ := inv.homes x live
    exact ⟨h, (Function.update_of_ne (null ▸ positive x live) ..).trans home, globals ▸ here⟩
  · simp only [grant, if_neg null] at granted ⊢
    refine ⟨gh', granted, carries.settled inv.settled, first, fun x live => ?_⟩
    have once := (List.nodup_cons.mp granted.liveOnce).1
    rcases List.mem_cons.mp live with rfl | live
    · obtain ⟨h, home, here⟩ := kalloc_home inv.inv null call
      exact ⟨h, (Function.update_self ..).trans home, globals ▸ here⟩
    · obtain ⟨h, home, here⟩ := inv.homes x live
      have other : x.1 ≠ ptr := fun same => once (by
        rw [List.map_map]
        exact List.mem_map.mpr ⟨x, live, same⟩)
      exact ⟨h, (Function.update_of_ne other ..).trans home, globals ▸ here⟩

theorem homed_kfree {x : Nat × Nat} {p' : Pmm} (inv : HomedInv hs gh) (block : x ∈ hs.s.live)
    (call : kfree hs.s.p x.1 = some p') :
    ∃ gh', HomedInv ⟨⟨p', hs.s.live.erase x⟩, hs.home⟩ gh' := by
  have here : blockOf x = (x.1, sizeClass x.2) := rfl
  obtain ⟨q, gh', returned⟩ :=
    kfree_returned (live_perm inv.inv (live_erase block)) inv.settled inv.first
  have run := returned.run
  rw [here] at run
  obtain rfl : p' = q := Option.some.inj (call.symm.trans run)
  refine ⟨gh', returned.inv, returned.settled, ?_, fun y live => ?_⟩
  · show p'.g.beginAllocAddr ∈ _
    rw [returned.globals, returned.pages]
    exact inv.first
  · obtain ⟨h, home, there⟩ := inv.homes y (List.mem_of_mem_erase live)
    exact ⟨h, home, returned.globals ▸ there⟩

def storeBlock (mem content : Mem) (x : Nat × Nat) : Mem := fun c =>
  if x.1 ≤ c ∧ c < x.1 + 2 ^ sizeClass x.2 then content c else mem c

theorem homed_store {x : Nat × Nat} (inv : HomedInv hs gh) (block : x ∈ hs.s.live)
    (content : Mem) :
    HomedInv ⟨⟨{ hs.s.p with mem := storeBlock hs.s.p.mem content x }, hs.s.live⟩, hs.home⟩
      gh := by
  have here : (x.1, sizeClass x.2) ∈ hs.s.live.map blockOf := List.mem_map.mpr ⟨x, block, rfl⟩
  refine ⟨inv_mem_congr inv.inv fun c cell => if_neg fun inside => ?_, ⟨fun y page => ?_,
    inv.settled.listed⟩, inv.first, inv.homes⟩
  · have clear := block_avoids_metadata inv.inv here cell
    simp only at clear
    omega
  · have clear := live_clear_of_stick inv.inv here page
    simp only [Clear, slabStickSize] at clear
    exact (if_neg (by omega)).trans (inv.settled.locks y page)

theorem homed_step {op : PmmOp} (inv : ∃ gh, HomedInv hs gh)
    (taken : homedStep hs op = some hs') : ∃ gh, HomedInv hs' gh := by
  obtain ⟨gh, inv⟩ := inv
  obtain ⟨s', stepped, rfl⟩ := Option.map_eq_some_iff.mp taken
  cases op with
  | kalloc cpu size =>
    cases call : kalloc hs.s.p cpu size with
    | none => simp [pmmStep, call] at stepped
    | some result =>
      simp only [pmmStep, call, Option.some.injEq] at stepped
      subst stepped
      simp only [recordHome, call]
      exact homed_kalloc inv call
  | kfree ptr size =>
    simp only [pmmStep] at stepped
    split at stepped
    · rename_i block
      cases call : kfree hs.s.p ptr with
      | none => simp [call] at stepped
      | some p' =>
        simp only [call, Option.some.injEq] at stepped
        subst stepped
        exact homed_kfree inv block call
    · cases stepped
  | store ptr size content =>
    simp only [pmmStep] at stepped
    split at stepped
    · rename_i block
      cases stepped
      exact ⟨gh, homed_store inv block content⟩
    · cases stepped

theorem live_block_handed_out (inv : HomedInv hs gh) {y : Nat × Nat} (block : y ∈ hs.s.live) :
    HandedOut hs.s.p (blockOf y) := by
  rw [handed_out_iff inv.inv inv.settled]
  rcases inv.inv.liveBlocks _ (List.mem_map_of_mem (f := blockOf) block) with
    ⟨a, page, slot, absent⟩ | ⟨owned, _⟩
  · exact .inr ⟨a, ⟨page, slot⟩, absent⟩
  · exact .inl owned

theorem undoes_of_inv (inv : HomedInv hs gh) {x : Nat × Nat} (block : x ∈ hs.s.live) :
    KfreeUndoes hs x := by
  have here : blockOf x ∈ hs.s.live.map blockOf := List.mem_map_of_mem block
  obtain ⟨p', gh', returned⟩ :=
    kfree_returned (live_perm inv.inv (live_erase block)) inv.settled inv.first
  have fits : x.2 ≤ 2 ^ 24 := by
    by_contra large
    have most := (live_in_area inv.inv here).1
    have refused : sizeClass x.2 = 25 := by
      rw [sizeClass, if_neg (by omega), determine_bbma_size_refuse (by omega)]
    simp only [blockOf] at most
    omega
  have class' : sizeClass x.2 ≤ 11 ↔ x.2 ≤ 2048 := by
    obtain ⟨_, _, holds, least⟩ := size_class_spec fits
    constructor
    · intro small
      have : 2 ^ sizeClass x.2 ≤ 2 ^ 11 := Nat.pow_le_pow_right (by decide) small
      omega
    · exact fun small => least 11 (by decide) small
  have dispatch : isAlignTo x.1 12 = true ↔ 2048 < x.2 := by
    rcases inv.inv.liveBlocks _ here with ⟨a, page, slot, _⟩ | ⟨owned, _⟩
    · have small := (inv.inv.pages _ page).most
      simp only [blockOf] at slot small
      rw [slot_not_aligned inv.inv page slot]
      simpa using class'.mp small
    · have large := (owned_in_area inv.inv.laid owned).size.1
      have even := owned_block_aligned inv.inv.laid owned
      simp only [blockOf] at large even
      rw [even]
      simp only [true_iff]
      omega
  have notStart : (blockOf x).1 ≠ hs.s.p.g.beginAllocAddr := by
    intro start
    obtain ⟨y, page, first⟩ := List.mem_map.mp inv.first
    have clear := live_clear_of_stick inv.inv here page
    have pos : 0 < 2 ^ (blockOf x).2 := Nat.two_pow_pos _
    simp only [Clear, slabStickSize] at clear
    omega
  refine ⟨dispatch, ?_, fun odd => ?_, fun y live => live_block_handed_out inv live,
    p', returned.run, returned.after, returned.others⟩
  · obtain ⟨h, home, mine⟩ := inv.homes x block
    obtain ⟨h', back, yours⟩ := kfree_home inv.inv here notStart
    refine ⟨h, home, ?_⟩
    rw [home_unique mine yours]
    exact back
  · rw [isAlignTo, Nat.one_shiftLeft] at odd
    simp only [Nat.reducePow, beq_eq_false_iff_ne, ne_eq] at odd
    simp only [slabAlignTo4kb, slabRequestSpace, Nat.one_shiftLeft]
    omega

/-- After any kallocs, kfrees and stores since pmm_init, on any CPUs, kfree of any live
    allocation would undo it. -/
theorem kfree_undoes_kalloc (heap : HeapRange) (cpuCount : Nat) (mem : Mem) (ops : List PmmOp)
    {p : Pmm} {hs : HomedState} (some_cpu : 0 < cpuCount)
    (some_tree : 0 < (bbmaInit mem (alignTo heap.start s16M) heap.stop).2.treeNum)
    (booted : pmmInit heap cpuCount mem = some p)
    (ran : run homedStep ⟨⟨p, []⟩, fun _ => none⟩ ops = some hs) :
    ∀ x ∈ hs.s.live, KfreeUndoes hs x := by
  have trees := (heap_init_spec heap mem).2
  have cpus : List.range cpuCount ≠ [] := by
    rw [Ne, List.range_eq_nil]
    omega
  obtain ⟨gh, inv, settled, _, first⟩ := slab_init_first cpus (boot_inv heap mem) trees some_tree
    ⟨by simp, by simp⟩ booted
  have start : ∃ gh, HomedInv ⟨⟨p, []⟩, fun _ => none⟩ gh := ⟨gh, inv, settled, first, by simp⟩
  have preserved : ∀ hs op hs', (∃ gh, HomedInv hs gh) → homedStep hs op = some hs' →
      ∃ gh, HomedInv hs' gh := fun hs op hs' inv taken => homed_step inv taken
  obtain ⟨gh', inv'⟩ := run_invariant preserved start ran
  exact fun x block => undoes_of_inv inv' block

/-- The blocks of a small run on one CPU and one window. -/
theorem kfree_undoes_mixed_ops :
    ∃ p hs, pmmInit oneWindow 1 (freshNodes (2 ^ 24)) = some p ∧
      run homedStep ⟨⟨p, []⟩, fun _ => none⟩ mixedOps = some hs ∧ hs.s.live.length = 3 ∧
      ∀ x ∈ hs.s.live, KfreeUndoes hs x := by
  have boot : pmmInit oneWindow 1 (freshNodes (2 ^ 24)) =
      slabInit (List.range 1) ⟨freshNodes (2 ^ 24), oneTree, fun _ => 0, fun _ _ => 0⟩ := by
    rw [pmmInit, init_one_window]
  have lengths : ((slabInit (List.range 1)
      ⟨freshNodes (2 ^ 24), oneTree, fun _ => 0, fun _ _ => 0⟩).bind fun p =>
        (run homedStep ⟨⟨p, []⟩, fun _ => none⟩ mixedOps).map fun hs => hs.s.live.length) =
          some 3 := by
    decide +kernel
  obtain ⟨p, init, rest⟩ := Option.bind_eq_some_iff.mp lengths
  obtain ⟨hs, ran, three⟩ := Option.map_eq_some_iff.mp rest
  exact ⟨p, hs, boot.trans init, ran, three,
    kfree_undoes_kalloc oneWindow 1 (freshNodes (2 ^ 24)) mixedOps (by decide)
      (by rw [init_one_window]; decide) (boot.trans init) ran⟩

end Run

end Tbma
