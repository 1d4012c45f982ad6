import JyyOs.Pmm.PmmInv

/-!
kalloc and kfree keep the allocator's invariant. A result that is not NULL is a block no live
block, slab page or free list knew of before.
-/
namespace Tbma
open BuddyTree LinkedList

variable {p p' : Pmm} {gh : Ghost} {live : List (Nat × Nat)}

theorem owned_gained {shape : Nat → Buddy 12} {g : Globals} {t : Nat} {b : Buddy 12}
    {x : Nat × Nat} (valid : TreeIndex g t)
    (gain : (blocks 12 (windowOf g t) b).Perm (x :: blocks 12 (windowOf g t) (shape t))) :
    (∀ y, Owned g (Function.update shape t b) y ↔ y = x ∨ Owned g shape y) ∧
      ¬ Owned g shape x := by
  have gained := owned_gain shape valid gain
  rwa [Function.update_eq_self] at gained

theorem gained_fresh {shape : Nat → Buddy 12} {g : Globals} {t : Nat} {b : Buddy 12} {a c : Nat}
    (valid : TreeIndex g t)
    (gain : (blocks 12 (windowOf g t) b).Perm ((a, c) :: blocks 12 (windowOf g t) (shape t)))
    (k : Nat) : ¬ Owned g shape (a, k) := by
  obtain ⟨gained, absent⟩ := owned_gained valid gain
  intro old
  by_cases same : k = c
  · exact absent (same ▸ old)
  · have apart := owned_apart ((gained (a, k)).mpr (Or.inr old)) ((gained (a, c)).mpr (Or.inl rfl))
      fun h => same (Prod.mk.inj h).2
    have left : 0 < 2 ^ k := Nat.two_pow_pos k
    have right : 0 < 2 ^ c := Nat.two_pow_pos c
    simp only [Apart] at apart
    omega

/-- Addresses the allocator has not given a role yet. -/
def Fresh (gh : Ghost) (live : List (Nat × Nat)) (a : Nat) : Prop :=
  a ∉ gh.pages.map Prod.fst ∧ a ∉ live.map Prod.fst

/-- Page locks are free, and every page is on the list of a CPU. -/
structure Settled (p : Pmm) (gh : Ghost) : Prop where
  locks : ∀ x ∈ gh.pages, p.mem x.1 = 0
  listed : ∀ x ∈ gh.pages, ∃ cpu, x.1 ∈ gh.chains cpu (x.2 - cpuFindSlabOffset)

structure Carries (p p' : Pmm) (gh gh' : Ghost) : Prop where
  pages : gh.pages ⊆ gh'.pages
  settled : Settled p gh → Settled p' gh'

theorem carries_refl (p : Pmm) (gh : Ghost) : Carries p p gh gh :=
  ⟨fun _ h => h, fun h => h⟩

theorem carries_trans {q : Pmm} {gh1 gh2 : Ghost} (first : Carries p p' gh gh1)
    (second : Carries p' q gh1 gh2) : Carries p q gh gh2 :=
  ⟨fun _ h => second.pages (first.pages h), fun h => second.settled (first.settled h)⟩

theorem carries_same {gh' : Ghost} (pages : gh'.pages = gh.pages) (chains : gh'.chains = gh.chains)
    (locks : ∀ x ∈ gh.pages, p'.mem x.1 = p.mem x.1) : Carries p p' gh gh' := by
  refine ⟨fun x h => pages ▸ h, fun settled => ⟨fun x h => ?_, ?_⟩⟩
  · rw [pages] at h
    exact (locks x h).trans (settled.locks x h)
  · rw [pages, chains]
    exact settled.listed

theorem page_not_node (inv : PmmInv p gh live) {x : Nat × Nat} (page : x ∈ gh.pages) {cell : Nat}
    (above : x.1 ≤ cell) : ¬ NodeCell p.g cell := by
  intro node
  have := page_above_nodes inv page node
  omega

theorem taken_block_inv (inv : PmmInv p gh live) {req t a : Nat} {mem' : Mem} {b' : Buddy 12}
    (valid : TreeIndex p.g t)
    (taken : Taken p.g (p.g.allTrees t) p.mem 1 (windowOf p.g t) req (gh.shape t) a mem' b')
    (trees : Trees p.g mem' (Function.update gh.shape t b')) :
    PmmInv { p with mem := mem' } { gh with shape := Function.update gh.shape t b' } live ∧
      Owned p.g (Function.update gh.shape t b') (a, req) ∧ Fresh gh live a := by
  have gain := take_blocks taken.take
  obtain ⟨gained, _⟩ := owned_gained valid gain
  have notOwned := gained_fresh valid gain
  have same : ∀ x, ¬ NodeCell p.g x → mem' x = p.mem x := fun x outside =>
    frame_outside inv.laid valid taken.frame outside
  refine ⟨{ inv with trees := trees, pages := ?_, chains := ?_, liveBlocks := ?_ },
    (gained _).mpr (Or.inl rfl), ?_, ?_⟩
  · intro x page
    have before := inv.pages x page
    refine ⟨(gained _).mpr (Or.inr before.owned), before.least, before.most, ?_⟩
    refine slot_list_congr before.list (same _ ?_) (same _ ?_) fun s h => same _ ?_
    · exact page_not_node inv page (Nat.le_add_right _ _)
    · exact page_not_node inv page (Nat.le_add_right _ _)
    · have := (before.list.inside s h).lower
      exact page_not_node inv page (Nat.le_trans (Nat.le_add_right _ _) this)
  · intro cpu i
    have before := inv.chains cpu i
    refine ⟨linked_congr before.linked fun b h => same _ ?_, before.once, before.pages⟩
    exact page_not_node inv (before.pages b h) (Nat.le_add_right _ _)
  · intro x h
    rcases inv.liveBlocks x h with slab | ⟨owned, notPage⟩
    · exact Or.inl slab
    · exact Or.inr ⟨(gained _).mpr (Or.inr owned), notPage⟩
  · intro page
    obtain ⟨x, inside, rfl⟩ := List.mem_map.mp page
    exact notOwned 12 (inv.pages x inside).owned
  · intro block
    obtain ⟨x, inside, rfl⟩ := List.mem_map.mp block
    rcases inv.liveBlocks x inside with ⟨b, page, slot, _⟩ | ⟨owned, _⟩
    · have lower := slot.lower
      have upper := slot.upper
      have pos : 0 < 2 ^ x.2 := Nat.two_pow_pos _
      have apart := owned_apart ((gained (b, 12)).mpr (Or.inr (inv.pages _ page).owned))
        ((gained _).mpr (Or.inl rfl)) fun h => by
          have := (Prod.mk.inj h).1
          omega
      have pos' : 0 < 2 ^ req := Nat.two_pow_pos _
      have page_ : b + 4096 ≤ x.1 ∨ x.1 + 2 ^ req ≤ b := apart
      omega
    · exact notOwned x.2 owned

theorem bbma_alloc_inv (inv : PmmInv p gh live) {size r : Nat}
    (ran : bbmaAlloc p size = some (r, p')) :
    r = 0 ∧ p' = p ∨ ∃ t b', PmmInv p' { gh with shape := Function.update gh.shape t b' } live ∧
      Owned p'.g (Function.update gh.shape t b') (r, determineBbmaSize size) ∧
      Fresh gh live r ∧ p'.g = p.g ∧
      Carries p p' gh { gh with shape := Function.update gh.shape t b' } := by
  rcases bbma_alloc_spec inv.laid inv.trees inv.locks size with ⟨run, _⟩ |
    ⟨t, a, mem', b', allocated⟩
  · rw [run, Option.some.injEq, Prod.mk.injEq] at ran
    exact Or.inl ⟨ran.1.symm, ran.2.symm⟩
  · have run := allocated.run
    rw [run, Option.some.injEq, Prod.mk.injEq] at ran
    obtain ⟨rfl, rfl⟩ := ran
    obtain ⟨inv', owned, fresh⟩ :=
      taken_block_inv inv allocated.tree allocated.taken allocated.trees
    refine Or.inr ⟨t, b', inv', owned, fresh, rfl, carries_same rfl rfl fun x page => ?_⟩
    exact frame_outside inv.laid allocated.tree allocated.taken.frame
      (page_not_node inv page (Nat.le_refl _))

def Ghost.addPage (gh : Ghost) (cpu a k : Nat) (slots : List Nat) : Ghost :=
  { gh with
    pages := (a, k) :: gh.pages
    slots := Function.update gh.slots a slots
    chains := Function.update gh.chains cpu (Function.update (gh.chains cpu)
      (k - cpuFindSlabOffset) (a :: gh.chains cpu (k - cpuFindSlabOffset))) }

theorem new_page_inv (inv : PmmInv p gh live) {a k cpu : Nat} {mem' : Mem} {slots : List Nat}
    (owned : Owned p.g gh.shape (a, 12)) (fresh : Fresh gh live a) (least : 5 ≤ k)
    (most : k ≤ 11) (list : SlotList mem' a k slots)
    (same : ∀ x, x < a ∨ a + 4096 ≤ x → mem' x = p.mem x)
    (next : mem' (a + nextSlabStick) = p.cpuOwnArea cpu (k - cpuFindSlabOffset)) :
    PmmInv { p with mem := mem', cpuOwnArea :=
        updateOwnArea p.cpuOwnArea cpu (k - cpuFindSlabOffset) a }
      (gh.addPage cpu a k slots) live := by
  have area := owned_in_area inv.laid owned
  have lower : p.g.beginAllocAddr ≤ a := area.lower
  have apart : ∀ x ∈ gh.pages, x.1 ≠ a ∧ (x.1 + 4096 ≤ a ∨ a + 4096 ≤ x.1) := by
    intro x page
    have other : x.1 ≠ a := fun h => fresh.1 (h ▸ List.mem_map_of_mem page)
    have away : Apart (x.1, 12) (a, 12) :=
      owned_apart (inv.pages x page).owned owned fun h => other (Prod.mk.inj h).1
    exact ⟨other, away⟩
  refine { inv with trees := ?_, pages := ?_, pagesOnce := ?_, chains := ?_, liveBlocks := ?_ }
  · refine trees_congr inv.laid inv.trees fun x node => same x (Or.inl ?_)
    have := (node_cell_below inv.laid node).2
    omega
  · refine List.forall_mem_cons.mpr ⟨⟨owned, least, most, ?_⟩, fun x page => ?_⟩
    · simpa only [Ghost.addPage, Function.update_self] using list
    · have before := inv.pages x page
      obtain ⟨other, away⟩ := apart x page
      have large := class_at_least before.least
      refine ⟨before.owned, before.least, before.most, ?_⟩
      simp only [Ghost.addPage, Function.update_of_ne other]
      refine slot_list_congr before.list (same _ ?_) (same _ ?_) fun s h => same _ ?_
      · simp only [freeBlockList]; omega
      · simp only [slabFreeSpace]; omega
      · have slot := before.list.inside s h
        have := slot.lower
        have := slot.upper
        omega
  · exact List.nodup_cons.mpr ⟨fresh.1, inv.pagesOnce⟩
  · intro c i
    have before := inv.chains c i
    have kept : Chain mem' (gh.addPage cpu a k slots) (p.cpuOwnArea c i) i (gh.chains c i) := by
      refine ⟨linked_congr before.linked fun b h => same _ ?_, before.once, fun b h =>
        List.mem_cons_of_mem _ (before.pages b h)⟩
      have := (apart _ (before.pages b h)).2
      simp only [nextSlabStick]
      omega
    by_cases here : c = cpu
    · subst here
      by_cases index : i = k - cpuFindSlabOffset
      · subst index
        simp only [updateOwnArea, Ghost.addPage, Function.update_self]
        have class' : k - cpuFindSlabOffset + cpuFindSlabOffset = k := by
          simp only [cpuFindSlabOffset]; omega
        refine ⟨⟨rfl, ?_, next ▸ kept.linked⟩, List.nodup_cons.mpr ⟨fun h => ?_, before.once⟩,
          List.forall_mem_cons.mpr ⟨?_, kept.pages⟩⟩
        · have := inv.laid.positive
          have := inv.laid.area
          omega
        · exact (apart _ (before.pages a h)).1 rfl
        · rw [class']
          exact List.mem_cons_self
      · simpa only [updateOwnArea, Ghost.addPage, Function.update_self, Function.update_of_ne index] using kept
    · simpa only [updateOwnArea, Ghost.addPage, Function.update_of_ne here] using kept
  · intro x h
    rcases inv.liveBlocks x h with ⟨b, page, slot, absent⟩ | ⟨owned', notPage⟩
    · refine Or.inl ⟨b, List.mem_cons_of_mem _ page, slot, ?_⟩
      simpa only [Ghost.addPage, Function.update_of_ne (apart _ page).1] using absent
    · refine Or.inr ⟨owned', fun inside => ?_⟩
      rcases List.mem_cons.mp inside with here | old
      · have here : x.1 = a := here
        exact fresh.2 (here ▸ List.mem_map_of_mem h)
      · exact notPage old

theorem new_page_carries (inv : PmmInv p gh live) {a k cpu : Nat} {mem' : Mem} {slots : List Nat}
    (owned : Owned p.g gh.shape (a, 12)) (fresh : Fresh gh live a)
    (same : ∀ x, x < a ∨ a + 4096 ≤ x → mem' x = p.mem x) (unlocked : mem' a = 0) :
    Carries p
      { p with
        mem := mem'
        cpuOwnArea := updateOwnArea p.cpuOwnArea cpu (k - cpuFindSlabOffset) a }
      gh (gh.addPage cpu a k slots) := by
  refine ⟨fun x h => List.mem_cons_of_mem _ h, fun settled => ⟨?_, ?_⟩⟩
  · refine List.forall_mem_cons.mpr ⟨unlocked, fun x page => ?_⟩
    have other : x.1 ≠ a := fun h => fresh.1 (h ▸ List.mem_map_of_mem page)
    have away : x.1 + 4096 ≤ a ∨ a + 4096 ≤ x.1 :=
      owned_apart (inv.pages x page).owned owned fun h => other (Prod.mk.inj h).1
    exact (same x.1 (by omega)).trans (settled.locks x page)
  · refine List.forall_mem_cons.mpr ⟨⟨cpu, ?_⟩, fun x page => ?_⟩
    · simp only [Ghost.addPage, Function.update_self]
      exact List.mem_cons_self
    · obtain ⟨c, listed⟩ := settled.listed x page
      refine ⟨c, ?_⟩
      by_cases here : c = cpu
      · subst here
        by_cases index : x.2 - cpuFindSlabOffset = k - cpuFindSlabOffset
        · rw [index] at listed ⊢
          simp only [Ghost.addPage, Function.update_self]
          exact List.mem_cons_of_mem _ listed
        · simpa only [Ghost.addPage, Function.update_self, Function.update_of_ne index] using listed
      · simpa only [Ghost.addPage, Function.update_of_ne here] using listed

theorem avaliable_page_head {fuel start found : Nat} {mem mem' : Mem} (real : start ≠ 0)
    (ran : avaliablePageLoop fuel mem start = some (found, mem')) : mem start = 0 := by
  cases fuel with
  | zero => cases ran
  | succ fuel =>
    rw [avaliablePageLoop, if_neg real] at ran
    split at ran
    · cases ran
    · omega

theorem chain_length (inv : PmmInv p gh live) (cpu i : Nat) :
    (gh.chains cpu i).length < p.g.treeNum * 4096 + 1 := by
  have chain := inv.chains cpu i
  have inside : gh.chains cpu i ⊆
      (List.range (p.g.treeNum * 4096)).map fun q => p.g.beginAllocAddr + q * 4096 := by
    intro a h
    have area := page_in_area inv (chain.pages a h)
    have start : 4096 ∣ p.g.beginAllocAddr := by
      rw [inv.laid.area, mem_gap_value]
      refine Nat.dvd_add (Nat.dvd_trans ?_ inv.laid.aligned) (by decide)
      rw [mem_gap_value]
      decide
    have aligned : 4096 ∣ a := area.aligned
    have lower : p.g.beginAllocAddr ≤ a := area.lower
    have upper : a + 4096 ≤ p.g.beginAllocAddr + p.g.treeNum * memGap := area.upper
    have gap : p.g.treeNum * memGap = p.g.treeNum * 4096 * 4096 := by
      rw [show memGap = 4096 * 4096 by decide, Nat.mul_assoc]
    refine List.mem_map.mpr ⟨(a - p.g.beginAllocAddr) / 4096, List.mem_range.mpr ?_, ?_⟩
    · omega
    · omega
  have short := (List.subperm_of_subset chain.once inside).length_le
  rw [List.length_map, List.length_range] at short
  omega

/-- The live list after an allocation call: NULL adds nothing. -/
def grant (r k : Nat) (live : List (Nat × Nat)) : List (Nat × Nat) :=
  if r = 0 then live else (r, k) :: live

theorem slot_in_one_page (inv : PmmInv p gh live) {a b k l s : Nat} (hx : (a, k) ∈ gh.pages)
    (hy : (b, l) ∈ gh.pages) (inA : a ≤ s ∧ s < a + 4096) (inB : b ≤ s ∧ s < b + 4096) :
    a = b := by
  by_contra other
  have apart : a + 4096 ≤ b ∨ b + 4096 ≤ a := pages_apart inv hx hy other
  omega

theorem slot_inside {a k s : Nat} (slot : SlotOf a k s) : a ≤ s ∧ s < a + 4096 := by
  have lower := slot.lower
  have upper := slot.upper
  have pos : 0 < 2 ^ k := Nat.two_pow_pos k
  omega

theorem listed_not_live (inv : PmmInv p gh live) {a k s : Nat} (page : (a, k) ∈ gh.pages)
    (listed : s ∈ gh.slots a) : s ∉ live.map Prod.fst := by
  intro block
  obtain ⟨x, inside, rfl⟩ := List.mem_map.mp block
  have slot := (inv.pages _ page).list.inside _ listed
  have inPage := slot_inside slot
  have lower := slot.lower
  have large := class_at_least (inv.pages _ page).least
  simp only at lower large
  rcases inv.liveBlocks x inside with ⟨b, page', slot', absent⟩ | ⟨owned, notPage⟩
  · have same := slot_in_one_page inv page page' inPage (slot_inside slot')
    exact absent (same ▸ listed)
  · have apart := owned_apart owned (inv.pages _ page).owned fun h => by
      have : x.1 = a := (Prod.mk.inj h).1
      omega
    have pos : 0 < 2 ^ x.2 := Nat.two_pow_pos _
    have away : x.1 + 2 ^ x.2 ≤ a ∨ a + 4096 ≤ x.1 := apart
    omega

theorem unlock_page {mem : Mem} {a v w : Nat} (unlocked : mem a = 0) :
    Function.update (Function.update (Function.update (Function.update mem a 1)
        (a + freeBlockList) v) (a + slabFreeSpace) w) a 0 =
      Function.update (Function.update mem (a + freeBlockList) v) (a + slabFreeSpace) w := by
  funext x
  by_cases lock : x = a
  · subst lock
    rw [Function.update_self, Function.update_of_ne (by simp only [slabFreeSpace]; omega),
      Function.update_of_ne (by simp only [freeBlockList]; omega), unlocked]
  · simp only [Function.update_apply, if_neg lock]

structure Granted (p p' : Pmm) (gh : Ghost) (r k : Nat) (live : List (Nat × Nat)) : Prop where
  inv : ∃ gh', PmmInv p' gh' (grant r k live) ∧ Carries p p' gh gh'
  aligned : 2 ^ k ∣ r
  globals : p'.g = p.g

theorem granted_null (k : Nat) (inv : PmmInv p gh live) : Granted p p gh 0 k live :=
  ⟨⟨gh, inv, carries_refl p gh⟩, Nat.dvd_zero _, rfl⟩

theorem granted_block {gh' : Ghost} {r k : Nat} (real : r ≠ 0)
    (inv : PmmInv p' gh' ((r, k) :: live)) (carries : Carries p p' gh gh') (aligned : 2 ^ k ∣ r)
    (globals : p'.g = p.g) : Granted p p' gh r k live := by
  refine ⟨⟨gh', ?_, carries⟩, aligned, globals⟩
  rwa [grant, if_neg real]

theorem granted_trans {q : Pmm} {gh0 : Ghost} {r k : Nat} (granted : Granted p p' gh r k live)
    (carries : Carries q p gh0 gh) (globals : p.g = q.g) : Granted q p' gh0 r k live := by
  obtain ⟨gh', inv, later⟩ := granted.inv
  exact ⟨⟨gh', inv, carries_trans carries later⟩, granted.aligned, granted.globals.trans globals⟩

def takenBlock (mem : Mem) (a : Nat) : Mem :=
  Function.update (Function.update mem (a + freeBlockList) (mem (mem (a + freeBlockList))))
    (a + slabFreeSpace) (mem (a + slabFreeSpace) - 1)

structure BlockTaken (p : Pmm) (gh : Ghost) (live : List (Nat × Nat)) (a k s : Nat)
    (rest : List Nat) : Prop where
  head : gh.slots a = s :: rest
  inv : PmmInv { p with mem := takenBlock p.mem a }
    { gh with slots := Function.update gh.slots a rest } ((s, k) :: live)
  slot : SlotOf a k s
  locks : ∀ y ∈ gh.pages, takenBlock p.mem a y.1 = p.mem y.1

theorem take_block_inv (inv : PmmInv p gh live) {a k : Nat} (page : (a, k) ∈ gh.pages)
    (stored : p.mem (a + freeBlockList) ≠ 0) :
    ∃ rest, BlockTaken p gh live a k (p.mem (a + freeBlockList)) rest := by
  have before := inv.pages _ page
  obtain ⟨rest, taken⟩ := take_slot before.least before.list stored
  have listed : p.mem (a + freeBlockList) ∈ gh.slots a := by
    rw [taken.head]
    exact List.mem_cons_self
  have slot := before.list.inside _ listed
  have once := (List.nodup_cons.mp (taken.head ▸ before.list.once)).1
  have updated := inv_update_page inv page taken.list
    (fun x h => taken.same x (by simp only [freeBlockList]; omega)
      (by simp only [slabFreeSpace]; omega))
    (taken.same _ (by simp only [nextSlabStick, freeBlockList]; omega)
      (by simp only [nextSlabStick, slabFreeSpace]; omega))
    (fun s h => Or.inl (taken.head ▸ List.mem_cons_of_mem _ h))
  refine ⟨rest, taken.head, live_add updated (Or.inl ⟨a, page, slot, ?_⟩)
    (listed_not_live inv page listed), slot, fun y other => ?_⟩
  · simpa only [Function.update_self] using once
  · have here := page_aligned inv page
    have there := page_aligned inv other
    exact taken.same _ (by simp only [freeBlockList] at here ⊢; omega)
      (by simp only [slabFreeSpace] at here ⊢; omega)

/-- A search that returned found no page, or took the first block of one. -/
theorem find_free_space_cases (inv : PmmInv p gh live) {cpu k r : Nat} (least : 5 ≤ k)
    (ran : findTheFreeSpaceInSlab p cpu k = some (r, p')) :
    r = 0 ∧ p' = p ∨ ∃ a rest, (a, k) ∈ gh.pages ∧ r ≠ 0 ∧ BlockTaken p gh live a k r rest ∧
      p' = { p with mem := takenBlock p.mem a } := by
  have chain := inv.chains cpu (k - cpuFindSlabOffset)
  have class' : k - cpuFindSlabOffset + cpuFindSlabOffset = k := by
    simp only [cpuFindSlabOffset]; omega
  unfold findTheFreeSpaceInSlab at ran
  cases search : findTheAvaliablePageInSlabAndLock p cpu k with
  | none => simp [search] at ran
  | some result =>
    obtain ⟨a, mem1⟩ := result
    rcases avaliable_page_spec _ chain.linked (chain_length inv _ _) search with
      ⟨rfl, rfl⟩ | ⟨inChain, real, unlocked, _, rfl⟩
    · simp only [search, ↓reduceIte, Option.some.injEq, Prod.mk.injEq] at ran
      exact Or.inl ⟨ran.1.symm, ran.2.symm⟩
    · have page := chain.pages a inChain
      rw [class'] at page
      have before := inv.pages _ page
      have large := class_at_least least
      have head : Function.update p.mem a 1 (a + freeBlockList) = p.mem (a + freeBlockList) :=
        Function.update_of_ne (by simp only [freeBlockList]; omega) ..
      have count : Function.update p.mem a 1 (a + slabFreeSpace) = p.mem (a + slabFreeSpace) :=
        Function.update_of_ne (by simp only [slabFreeSpace]; omega) ..
      simp only [search, if_neg real, head, count] at ran
      split at ran
      · simp at ran
      · split at ran
        · simp at ran
        · rename_i stored
          obtain ⟨rest, taken⟩ := take_block_inv inv page stored
          have lower := taken.slot.lower
          have next : Function.update p.mem a 1 (p.mem (a + freeBlockList)) =
              p.mem (p.mem (a + freeBlockList)) := Function.update_of_ne (by omega) ..
          have counted : Function.update (Function.update p.mem a 1) (a + freeBlockList)
              (p.mem (p.mem (a + freeBlockList))) (a + slabFreeSpace) =
                p.mem (a + slabFreeSpace) := by
            rw [Function.update_of_ne (by simp only [slabFreeSpace, freeBlockList]; omega), count]
          simp only [next, counted, unlock_page unlocked, Option.some.injEq,
            Prod.mk.injEq] at ran
          obtain ⟨rfl, rfl⟩ := ran
          exact Or.inr ⟨a, rest, page, stored, taken, rfl⟩

theorem find_free_space_inv (inv : PmmInv p gh live) {cpu k r : Nat} (least : 5 ≤ k)
    (ran : findTheFreeSpaceInSlab p cpu k = some (r, p')) : Granted p p' gh r k live := by
  rcases find_free_space_cases inv least ran with ⟨rfl, rfl⟩ | ⟨a, rest, page, real, taken, rfl⟩
  · exact granted_null k inv
  · exact granted_block real taken.inv (carries_same rfl rfl taken.locks) taken.slot.aligned rfl

/-- request_a_slab_from_bbma up to its search: the new page is the first of the CPU's pages. -/
def withNewPage (p : Pmm) (cpuNum slabSize : Nat) : Option Pmm :=
  match bbmaAlloc p slabRequestSpace with
  | none => none
  | some (slabAddr, p) =>
    let i := slabSize - cpuFindSlabOffset
    let mem := Function.update p.mem (slabAddr + nextSlabStick) (p.cpuOwnArea cpuNum i)
    match initializeASlabNewPage mem slabSize slabAddr with
    | none => none
    | some mem =>
      some { p with mem := mem, cpuOwnArea := updateOwnArea p.cpuOwnArea cpuNum i slabAddr }

theorem request_a_slab_cases (inv : PmmInv p gh live) {cpu k r : Nat} (least : 5 ≤ k)
    (most : k ≤ 11) (ran : requestASlabFromBbma p cpu k = some (r, p')) :
    bbmaAlloc p slabRequestSpace = some (0, p) ∧ r = 0 ∧ p' = p ∨
      ∃ a p1 p2 gh2, bbmaAlloc p slabRequestSpace = some (a, p1) ∧
        withNewPage p cpu k = some p2 ∧ findTheFreeSpaceInSlab p2 cpu k = some (r, p') ∧
        PmmInv p2 gh2 live ∧ (a, k) ∈ gh2.pages ∧ Carries p p2 gh gh2 ∧ p2.g = p.g := by
  unfold requestASlabFromBbma at ran
  cases alloc : bbmaAlloc p slabRequestSpace with
  | none => simp [alloc] at ran
  | some result =>
    obtain ⟨a, p1⟩ := result
    rcases bbma_alloc_inv inv alloc with
      ⟨rfl, rfl⟩ | ⟨t, b', inv', owned, fresh, globals, carries⟩
    · simp only [alloc, Nat.zero_mod, ne_eq, not_true_eq_false, ↓reduceIte, Option.some.injEq,
        Prod.mk.injEq] at ran
      exact Or.inl ⟨rfl, ran.1.symm, ran.2.symm⟩
    · have area := owned_in_area inv'.laid owned
      have aligned : a % 4096 = 0 := Nat.mod_eq_zero_of_dvd area.aligned
      have real : a ≠ 0 := by
        have lower : p1.g.beginAllocAddr ≤ a := area.lower
        have := inv'.laid.positive
        have := inv'.laid.area
        omega
      simp only [alloc, slabRequestSpace, aligned, ne_eq, not_true_eq_false, ↓reduceIte, real] at ran
      obtain ⟨mem', slots, filled, list, next, same⟩ := initialize_page_spec
        (Function.update p1.mem (a + nextSlabStick) (p1.cpuOwnArea cpu (k - cpuFindSlabOffset)))
        aligned least most
      rw [filled] at ran
      rw [Function.update_self] at next
      have outside : ∀ x, x < a ∨ a + 4096 ≤ x → mem' x = p1.mem x := fun x h => by
        rw [same x h, Function.update_of_ne (by simp only [nextSlabStick]; omega)]
      have paged := new_page_inv inv' owned fresh least most list outside next
      have unlocked : mem' a = 0 := by
        simp only [findTheFreeSpaceInSlab, findTheAvaliablePageInSlabAndLock] at ran
        split at ran
        · cases ran
        · rename_i search
          simp only [updateOwnArea, Function.update_self] at search
          exact avaliable_page_head real search
      refine Or.inr ⟨a, p1, _, _, rfl, ?_, ran, paged, List.mem_cons_self,
        carries_trans carries (new_page_carries inv' owned fresh outside unlocked), globals⟩
      simp only [withNewPage, alloc, filled]

theorem request_a_slab_inv (inv : PmmInv p gh live) {cpu k r : Nat} (least : 5 ≤ k) (most : k ≤ 11)
    (ran : requestASlabFromBbma p cpu k = some (r, p')) : Granted p p' gh r k live := by
  rcases request_a_slab_cases inv least most ran with
    ⟨_, rfl, rfl⟩ | ⟨a, p1, p2, gh2, _, _, search, paged, _, carries, globals⟩
  · exact granted_null k inv
  · exact granted_trans (find_free_space_inv paged least search) carries globals

theorem determine_slab_size_spec {size : Nat} (small : size ≤ 2048) :
    5 ≤ determineSlabSize size ∧ determineSlabSize size ≤ 11 ∧
      size ≤ 2 ^ determineSlabSize size ∧
      ∀ k, 5 ≤ k → size ≤ 2 ^ k → determineSlabSize size ≤ k := by
  generalize result : determineSlabSize size = c
  unfold determineSlabSize at result
  repeat' split at result
  all_goals subst result
  · exact ⟨by decide, by decide, by omega, fun k least _ => least⟩
  iterate 6
    · exact ⟨by decide, by decide, by omega,
        fun k _ inside => class_least (Nat.lt_of_not_le (by assumption)) inside⟩

theorem determine_slab_size_refuse {size : Nat} (large : 2048 < size) :
    determineSlabSize size = slabRefuse := by
  unfold determineSlabSize
  repeat' split
  all_goals first | rfl | omega

/-- The class kalloc rounds a size up to, as a log size. -/
def sizeClass (size : Nat) : Nat :=
  if size ≤ 2048 then determineSlabSize size else determineBbmaSize size

theorem size_class_spec {size : Nat} (fits : size ≤ 2 ^ 24) :
    5 ≤ sizeClass size ∧ sizeClass size ≤ 24 ∧ size ≤ 2 ^ sizeClass size ∧
      ∀ k, 5 ≤ k → size ≤ 2 ^ k → sizeClass size ≤ k := by
  unfold sizeClass
  split
  · rename_i small
    obtain ⟨least, most, inside, smallest⟩ := determine_slab_size_spec small
    exact ⟨least, by omega, inside, smallest⟩
  · rename_i large
    obtain ⟨least, most, inside, smallest⟩ := determine_bbma_size_spec fits
    refine ⟨by omega, most, inside, fun k _ holds => smallest k ?_ holds⟩
    exact class_least (by simp only [Nat.reduceSub, Nat.reducePow]; omega) holds

theorem kalloc_inv (inv : PmmInv p gh live) {cpu size r : Nat}
    (ran : kalloc p cpu size = some (r, p')) : Granted p p' gh r (sizeClass size) live := by
  unfold kalloc slabAlloc at ran
  split at ran
  · simp only [Option.some.injEq, Prod.mk.injEq] at ran
    rw [← ran.1, ← ran.2]
    exact granted_null _ inv
  · by_cases small : size ≤ 2048
    · obtain ⟨least, most, _⟩ := determine_slab_size_spec small
      rw [sizeClass, if_pos small]
      simp only [show determineSlabSize size ≠ slabRefuse by simp only [slabRefuse]; omega,
        ↓reduceIte] at ran
      cases first : findTheFreeSpaceInSlab p cpu (determineSlabSize size) with
      | none => simp [first] at ran
      | some result =>
        obtain ⟨addr, p1⟩ := result
        have found := find_free_space_inv inv least first
        simp only [first] at ran
        split at ran
        · simp at ran
        · split at ran
          · rename_i null
            obtain ⟨gh1, inv1, carries⟩ := found.inv
            rw [grant, if_pos null] at inv1
            cases second : requestASlabFromBbma p1 cpu (determineSlabSize size) with
            | none => simp [second] at ran
            | some result =>
              obtain ⟨addr', p2⟩ := result
              have requested := request_a_slab_inv inv1 least most second
              simp only [second] at ran
              split at ran
              · simp only [Option.some.injEq, Prod.mk.injEq] at ran
                rw [← ran.1, ← ran.2]
                exact granted_trans requested carries found.globals
              · simp at ran
          · simp only [Option.some.injEq, Prod.mk.injEq] at ran
            rw [← ran.1, ← ran.2]
            exact found
    · rw [sizeClass, if_neg small]
      simp only [determine_slab_size_refuse (Nat.lt_of_not_le small), ↓reduceIte] at ran
      rcases bbma_alloc_inv inv ran with
        ⟨rfl, rfl⟩ | ⟨t, b', inv', owned, fresh, globals, carries⟩
      · exact granted_null _ inv
      · have area := owned_in_area inv'.laid owned
        have real : r ≠ 0 := by
          have lower : p'.g.beginAllocAddr ≤ r := area.lower
          have := inv'.laid.positive
          have := inv'.laid.area
          omega
        exact granted_block real (live_add inv' (Or.inr ⟨owned, fresh.1⟩) fresh.2) carries
          area.aligned globals

theorem unlock_returned {mem : Mem} {a s v w : Nat} (unlocked : mem a = 0) (other : s ≠ a) :
    Function.update (Function.update (Function.update (Function.update (Function.update mem a 1)
        s v) (a + freeBlockList) s) (a + slabFreeSpace) w) a 0 =
      Function.update (Function.update (Function.update mem s v) (a + freeBlockList) s)
        (a + slabFreeSpace) w := by
  funext x
  by_cases lock : x = a
  · subst lock
    rw [Function.update_self, Function.update_of_ne (by simp only [slabFreeSpace]; omega),
      Function.update_of_ne (by simp only [freeBlockList]; omega),
      Function.update_of_ne other.symm, unlocked]
  · simp only [Function.update_apply, if_neg lock]

theorem slab_free_returns {x : Nat × Nat} (inv : PmmInv p gh (x :: live)) {a : Nat}
    (page : (a, x.2) ∈ gh.pages) (slot : SlotOf a x.2 x.1) (absent : x.1 ∉ gh.slots a)
    (unlocked : p.mem a = 0) :
    slabAlignTo4kb x.1 = a ∧ ∃ mem', slabFree p x.1 = some { p with mem := mem' } ∧
      PmmInv { p with mem := mem' }
        { gh with slots := Function.update gh.slots a (x.1 :: gh.slots a) } live ∧
      ∀ y ∈ gh.pages, mem' y.1 = p.mem y.1 := by
  have before := inv.pages _ page
  have large := class_at_least before.least
  have lower := slot.lower
  have upper := slot.upper
  simp only at large
  have aligned : a % 4096 = 0 := Nat.mod_eq_zero_of_dvd (page_aligned inv page)
  have stick : slabAlignTo4kb x.1 = a := by
    unfold slabAlignTo4kb
    omega
  refine ⟨stick, ?_⟩
  have list := return_slot before.least before.list slot absent
  have kept : ∀ s ∈ x.1 :: gh.slots a, s ∈ gh.slots a ∨ s ∉ live.map Prod.fst := by
    refine List.forall_mem_cons.mpr ⟨Or.inr (List.nodup_cons.mp inv.liveOnce).1, ?_⟩
    exact fun s h => Or.inl h
  refine ⟨_, ?_, inv_update_page (live_forget inv) page list (fun c outside => ?_) ?_ kept,
    fun y other => ?_⟩
  · have head : Function.update p.mem a 1 (a + 8) = p.mem (a + 8) :=
      Function.update_of_ne (by omega) ..
    have count : Function.update (Function.update (Function.update p.mem a 1) x.1
        (p.mem (a + 8))) (a + 8) x.1 (a + 24) = p.mem (a + 24) := by
      rw [Function.update_of_ne (by omega), Function.update_of_ne (by omega),
        Function.update_of_ne (by omega)]
    rw [slabFree, if_neg (by simp only [slabRequestSpace]; omega), stick]
    simp only [slabFreeSpace, freeBlockList, unlocked, ne_eq, not_true_eq_false, ↓reduceIte]
    rw [head, count, unlock_returned unlocked (by omega)]
  · simp only [freeBlockList, slabFreeSpace]
    rw [Function.update_of_ne (by omega), Function.update_of_ne (by omega),
      Function.update_of_ne (by omega)]
  · simp only [freeBlockList, slabFreeSpace, nextSlabStick]
    rw [Function.update_of_ne (by omega), Function.update_of_ne (by omega),
      Function.update_of_ne (by omega)]
  · have := page_aligned inv other
    simp only [freeBlockList, slabFreeSpace]
    rw [Function.update_of_ne (by omega), Function.update_of_ne (by omega),
      Function.update_of_ne (by omega)]

theorem slab_free_inv {x : Nat × Nat} (inv : PmmInv p gh (x :: live)) {a : Nat}
    (page : (a, x.2) ∈ gh.pages) (slot : SlotOf a x.2 x.1) (absent : x.1 ∉ gh.slots a)
    (ran : slabFree p x.1 = some p') : ∃ gh', PmmInv p' gh' live ∧ p'.g = p.g := by
  by_cases unlocked : p.mem a = 0
  · obtain ⟨_, mem', run, inv', _⟩ := slab_free_returns inv page slot absent unlocked
    rw [run, Option.some.injEq] at ran
    exact ran ▸ ⟨_, inv', rfl⟩
  · have lower := slot.lower
    have upper := slot.upper
    have large := class_at_least (inv.pages _ page).least
    have aligned := page_aligned inv page
    simp only at large aligned
    have stick : slabAlignTo4kb x.1 = a := by
      unfold slabAlignTo4kb
      omega
    simp [slabFree, stick, unlocked] at ran

theorem buddy_given_inv {x : Nat × Nat} (inv : PmmInv p gh (x :: live)) {t : Nat}
    (valid : TreeIndex p.g t) (notPage : x.1 ∉ gh.pages.map Prod.fst) {mem' : Mem}
    {b' : Buddy 12}
    (given : Given p.g (p.g.allTrees t) p.mem 1 (windowOf p.g t) x.2 (gh.shape t) x.1 mem' b')
    (trees' : Trees p.g mem' (Function.update gh.shape t b')) :
    PmmInv { p with mem := mem' } { gh with shape := Function.update gh.shape t b' } live := by
  obtain ⟨gained, _⟩ := owned_gain gh.shape valid (give_blocks given.give)
  rw [Function.update_eq_self] at gained
  have same : ∀ c, ¬ NodeCell p.g c → mem' c = p.mem c := fun c outside =>
    frame_outside inv.laid valid given.frame outside
  have stays : ∀ y, y ≠ x → Owned p.g gh.shape y →
      Owned p.g (Function.update gh.shape t b') y := fun y other old =>
    ((gained y).mp old).resolve_left other
  refine { live_forget inv with trees := trees', pages := ?_, chains := ?_, liveBlocks := ?_ }
  · intro y page
    have before := inv.pages y page
    have other : (y.1, 12) ≠ x := fun h => by
      have start : y.1 = x.1 := by rw [← h]
      exact notPage (start ▸ List.mem_map_of_mem page)
    refine ⟨stays _ other before.owned, before.least, before.most, ?_⟩
    refine slot_list_congr before.list (same _ ?_) (same _ ?_) fun s h => same _ ?_
    · exact page_not_node inv page (Nat.le_add_right _ _)
    · exact page_not_node inv page (Nat.le_add_right _ _)
    · exact page_not_node inv page (slot_inside (before.list.inside s h)).1
  · intro cpu i
    have before := inv.chains cpu i
    refine ⟨linked_congr before.linked fun b h => same _ ?_, before.once, before.pages⟩
    exact page_not_node inv (before.pages b h) (Nat.le_add_right _ _)
  · intro y h
    rcases inv.liveBlocks y (List.mem_cons_of_mem _ h) with slab | ⟨old, notPage'⟩
    · exact Or.inl slab
    · have other : y ≠ x := fun e =>
        (List.nodup_cons.mp inv.liveOnce).1 (e ▸ List.mem_map_of_mem h)
      exact Or.inr ⟨stays y other old, notPage'⟩

theorem buddy_free_inv {x : Nat × Nat} (inv : PmmInv p gh (x :: live))
    (owned : Owned p.g gh.shape x) (notPage : x.1 ∉ gh.pages.map Prod.fst)
    (ran : bbmaFree p x.1 = some p') : ∃ gh', PmmInv p' gh' live ∧ p'.g = p.g := by
  obtain ⟨t, valid, block⟩ := owned
  obtain ⟨mem', b', given, trees', _, rfl⟩ := bbma_free_spec inv.laid inv.trees valid block ran
  exact ⟨_, buddy_given_inv inv valid notPage given trees', rfl⟩

/-- Slab blocks are never aligned to 4KiB, blocks of the trees always are. -/
theorem slot_not_aligned (inv : PmmInv p gh live) {a k s : Nat} (page : (a, k) ∈ gh.pages)
    (slot : SlotOf a k s) : isAlignTo s 12 = false := by
  have inside := slot_inside slot
  have large := class_at_least (inv.pages _ page).least
  have lower := slot.lower
  simp only at large
  have aligned : a % 4096 = 0 := Nat.mod_eq_zero_of_dvd (page_aligned inv page)
  rw [isAlignTo, Nat.one_shiftLeft]
  simp only [Nat.reducePow, beq_eq_false_iff_ne, ne_eq]
  omega

theorem owned_block_aligned (laid : Laid p.g) {x : Nat × Nat} (owned : Owned p.g gh.shape x) :
    isAlignTo x.1 12 = true := by
  have area := owned_in_area laid owned
  have aligned : 2 ^ 12 ∣ x.1 := Nat.dvd_trans (Nat.pow_dvd_pow 2 area.size.1) area.aligned
  rw [isAlignTo, Nat.one_shiftLeft, Nat.mod_eq_zero_of_dvd aligned]
  rfl

theorem kfree_inv {x : Nat × Nat} (inv : PmmInv p gh (x :: live))
    (ran : kfree p x.1 = some p') : ∃ gh', PmmInv p' gh' live ∧ p'.g = p.g := by
  unfold kfree at ran
  rcases inv.liveBlocks x List.mem_cons_self with ⟨a, page, slot, absent⟩ | ⟨owned, notPage⟩
  · rw [slot_not_aligned inv page slot] at ran
    exact slab_free_inv inv page slot absent ran
  · rw [owned_block_aligned inv.laid owned] at ran
    exact buddy_free_inv inv owned notPage ran

/-- No cell the allocator reads lies in a live block. -/
theorem block_avoids_metadata (inv : PmmInv p gh live) {x : Nat × Nat} (block : x ∈ live)
    {c : Nat} (cell : Metadata p.g gh c) : c < x.1 ∨ x.1 + 2 ^ x.2 ≤ c := by
  have inPage : ∀ a k, (a, k) ∈ gh.pages → (c = a + freeBlockList ∨ c = a + nextSlabStick ∨
      c = a + slabFreeSpace ∨ c ∈ gh.slots a) → a ≤ c ∧ c < a + 4096 := by
    rintro a k page (rfl | rfl | rfl | listed)
    · simp only [freeBlockList]; omega
    · simp only [nextSlabStick]; omega
    · simp only [slabFreeSpace]; omega
    · exact slot_inside ((inv.pages _ page).list.inside c listed)
  rcases inv.liveBlocks x block with ⟨b, page, slot, absent⟩ | ⟨owned, notPage⟩
  · have lower := slot.lower
    have upper := slot.upper
    have large := class_at_least (inv.pages _ page).least
    simp only at large
    rcases cell with node | ⟨a, k, other, role⟩
    · have := page_above_nodes inv page node
      simp only at this
      omega
    · have inside := inPage a k other role
      by_cases here : a = b
      · subst here
        obtain rfl : k = x.2 := page_class inv other page
        rcases role with rfl | rfl | rfl | listed
        · simp only [freeBlockList]; omega
        · simp only [nextSlabStick]; omega
        · simp only [slabFreeSpace]; omega
        · have distinct : c ≠ x.1 := fun h => absent (h ▸ listed)
          have slot' := (inv.pages _ other).list.inside c listed
          have apart : c + 2 ^ x.2 ≤ x.1 ∨ x.1 + 2 ^ x.2 ≤ c :=
            aligned_apart slot'.aligned slot.aligned distinct
          omega
      · have apart := pages_apart inv other page here
        simp only at apart
        omega
  · have area := owned_in_area inv.laid owned
    rcases cell with node | ⟨a, k, other, role⟩
    · have := (node_cell_below inv.laid node).2
      have lower := area.lower
      omega
    · have inside := inPage a k other role
      have distinct : (a, 12) ≠ x := fun h => by
        have start : a = x.1 := congrArg Prod.fst h
        exact notPage (start ▸ List.mem_map_of_mem other)
      have apart : a + 4096 ≤ x.1 ∨ x.1 + 2 ^ x.2 ≤ a :=
        owned_apart (inv.pages _ other).owned owned distinct
      omega

end Tbma
