import JyyOs.Pmm.SlabSections

/-!
What a new slab page takes over from the block it is made of: linking and initialising the page
leaves the word of its lock, and the first search of the page spins on what it holds.
-/
namespace Tbma

open LinkedList

/-- request_a_slab_from_bbma with the block it got, up to its last call. -/
def linkNewPage (p : Pmm) (cpuNum slabSize slabAddr : Nat) : Option Pmm :=
  let i := slabSize - cpuFindSlabOffset
  let mem := Function.update p.mem (slabAddr + nextSlabStick) (p.cpuOwnArea cpuNum i)
  match initializeASlabNewPage mem slabSize slabAddr with
  | none => none
  | some mem => some { p with mem := mem, cpuOwnArea := updateOwnArea p.cpuOwnArea cpuNum i slabAddr }

/-- After the page `slabAddr` of the request is linked its lock is free, the search of the CPU takes
    the lock of this page at once, and slab_alloc returns a block. -/
structure NewPageWorks (p q : Pmm) (cpuNum size slabAddr : Nat) : Prop where
  lock : ∃ linked, linkNewPage q cpuNum (determineSlabSize size) slabAddr = some linked ∧
    linked.mem slabAddr = 0 ∧
    findTheAvaliablePageInSlabAndLock linked cpuNum (determineSlabSize size) =
      some (slabAddr, Function.update linked.mem slabAddr 1)
  block : ∃ ptr r, slabAlloc p cpuNum size = some (ptr, r) ∧ ptr ≠ 0

variable {p q : Pmm} {cpuNum size k a : Nat}

theorem request_link (got : bbmaAlloc p slabRequestSpace = some (a, q)) (real : a ≠ 0)
    (aligned : a % slabRequestSpace = 0) :
    requestASlabFromBbma p cpuNum k =
      (linkNewPage q cpuNum k a).bind fun linked => findTheFreeSpaceInSlab linked cpuNum k := by
  rw [requestASlabFromBbma, got]
  simp only [aligned, ne_eq, not_true_eq_false, if_false, if_neg real, linkNewPage]
  cases initializeASlabNewPage (Function.update q.mem (a + nextSlabStick)
    (q.cpuOwnArea cpuNum (k - cpuFindSlabOffset))) k a <;> rfl

theorem bbma_alloc_aligned (got : bbmaAlloc p slabRequestSpace = some (a, q)) :
    a % slabRequestSpace = 0 := by
  have least : determineBbmaSize slabRequestSpace = s4K := by decide
  simp only [bbmaAlloc, least] at got
  rw [if_neg (by decide)] at got
  split at got
  · cases got
  · split at got
    · rename_i aligned
      cases got
      exact of_decide_eq_true aligned
    · cases got

theorem initialize_page_lock {mem mem' : Mem} (least : 5 ≤ k) (most : k ≤ 11)
    (ran : initializeASlabNewPage mem k a = some mem') : mem' a = mem a := by
  have size := class_at_least least
  unfold initializeASlabNewPage at ran
  rw [stick_size least most] at ran
  dsimp only at ran
  split at ran
  · cases ran
  · split at ran
    · cases ran
    · cases ran
      rw [initialize_blocks_keeps _ _ _ (by simp only [freeBlockList]; omega) (by omega),
        Function.update_of_ne (by simp only [freeBlockList]; omega),
        Function.update_of_ne (by simp only [slabFreeSpace]; omega)]

structure PageLinked (q linked : Pmm) (cpuNum k a : Nat) (slots : List Nat) : Prop where
  ran : linkNewPage q cpuNum k a = some linked
  lock : linked.mem a = q.mem a
  head : linked.cpuOwnArea cpuNum (k - cpuFindSlabOffset) = a
  list : SlotList linked.mem a k slots
  open_ : linked.mem (a + slabFreeSpace) ≠ 0

theorem page_linked (least : 5 ≤ k) (most : k ≤ 11) (aligned : a % slabRequestSpace = 0) :
    ∃ linked slots, PageLinked q linked cpuNum k a slots := by
  obtain ⟨mem, slots, ran, list, _⟩ := initialize_page_spec
    (Function.update q.mem (a + nextSlabStick) (q.cpuOwnArea cpuNum (k - cpuFindSlabOffset)))
    aligned least most
  refine ⟨_, slots, by rw [linkNewPage, ran], ?_, ?_, list, ?_⟩
  · have lock := initialize_page_lock least most ran
    rwa [Function.update_of_ne (by simp only [nextSlabStick]; omega)] at lock
  · simp only [updateOwnArea, Function.update_self]
  · have count := initialize_page_count least most ran
    have some_block : 0 < slabCapacity k := by
      interval_cases k <;> decide
    simp only
    omega

theorem search_new_page {linked : Pmm} {slots : List Nat} (real : a ≠ 0)
    (link : PageLinked q linked cpuNum k a slots) :
    findTheAvaliablePageInSlabAndLock linked cpuNum k =
      if q.mem a = 0 then some (a, Function.update linked.mem a 1) else none := by
  have open_ : Function.update linked.mem a 1 (a + slabFreeSpace) ≠ 0 := by
    rw [Function.update_of_ne (by simp only [slabFreeSpace]; omega)]
    exact link.open_
  rw [findTheAvaliablePageInSlabAndLock, link.head, avaliablePageLoop, if_neg real]
  by_cases free : q.mem a = 0
  · rw [if_pos free, if_neg (by rw [link.lock]; exact not_not.mpr free), if_neg open_]
  · rw [if_neg free, if_pos (by rw [link.lock]; exact free)]

theorem take_new_page {linked : Pmm} {slots : List Nat} (real : a ≠ 0)
    (link : PageLinked q linked cpuNum k a slots) (free : q.mem a = 0) :
    ∃ ptr r, findTheFreeSpaceInSlab linked cpuNum k = some (ptr, r) ∧ ptr ≠ 0 ∧
      isAlignTo ptr k = true := by
  have header : Function.update linked.mem a 1 (a + freeBlockList) =
      linked.mem (a + freeBlockList) := Function.update_of_ne (by simp only [freeBlockList]; omega) ..
  have count : Function.update linked.mem a 1 (a + slabFreeSpace) =
      linked.mem (a + slabFreeSpace) := Function.update_of_ne (by simp only [slabFreeSpace]; omega) ..
  have list := link.list
  obtain ⟨block, rest, rfl⟩ : ∃ block rest, slots = block :: rest := by
    cases slots with
    | nil => exact absurd list.count link.open_
    | cons block rest => exact ⟨block, rest, rfl⟩
  have first : linked.mem (a + freeBlockList) = block := list.list.1
  have some_block : block ≠ 0 := list.list.2.1
  have slot := list.inside block List.mem_cons_self
  have taken : ∃ r, findTheFreeSpaceInSlab linked cpuNum k = some (block, r) := by
    rw [findTheFreeSpaceInSlab, search_new_page real link, if_pos free]
    simp only [if_neg real, header, count, if_neg link.open_, first, if_neg some_block]
    exact ⟨_, rfl⟩
  obtain ⟨r, taken⟩ := taken
  refine ⟨block, r, taken, some_block, ?_⟩
  rw [isAlignTo, Nat.one_shiftLeft, Nat.mod_eq_zero_of_dvd slot.aligned]
  rfl

/-- A new slab page works exactly when the first word of its block was zero. -/
theorem new_page_works_iff (positive : size ≠ 0) (slab : determineSlabSize size ≠ slabRefuse)
    {p₁ : Pmm} (full : findTheFreeSpaceInSlab p cpuNum (determineSlabSize size) = some (0, p₁))
    (got : bbmaAlloc p₁ slabRequestSpace = some (a, q)) (real : a ≠ 0) :
    NewPageWorks p q cpuNum size a ↔ q.mem a = 0 := by
  have small : size ≤ 2048 := by
    refine Nat.le_of_not_lt fun large => slab ?_
    simp only [determineSlabSize]
    rw [if_neg (by omega), if_neg (by omega), if_neg (by omega), if_neg (by omega),
      if_neg (by omega), if_neg (by omega), if_neg (by omega)]
  obtain ⟨least, most, _⟩ := determine_slab_size_spec small
  have aligned := bbma_alloc_aligned got
  obtain ⟨linked, slots, link⟩ : ∃ linked slots,
    PageLinked q linked cpuNum (determineSlabSize size) a slots := page_linked least most aligned
  have search := search_new_page real link
  constructor
  · rintro ⟨⟨linked', ran, lock, _⟩, _⟩
    rw [link.ran] at ran
    cases ran
    rw [← link.lock]
    exact lock
  · intro free
    refine ⟨⟨linked, link.ran, link.lock.trans free, ?_⟩, ?_⟩
    · rw [search, if_pos free]
    · obtain ⟨ptr, r, taken, some_block, fits⟩ := take_new_page real link free
      refine ⟨ptr, r, ?_, some_block⟩
      have zero : isAlignTo 0 (determineSlabSize size) = true := by
        rw [isAlignTo, Nat.zero_mod]
        rfl
      rw [slabAlloc, if_neg positive]
      simp only [if_neg slab, full, zero, not_true_eq_false, if_false, if_true,
        request_link got real aligned, link.ran, Option.bind_some, taken, fits]

/-- A heap of one window, where the first block was used before and keeps `word` at its start. -/
def recycledHeap (word : Nat) : Pmm :=
  ⟨Function.update (freshNodes (2 ^ 24)) (2 ^ 25) word, oneTree, fun _ => 0, fun _ _ => 0⟩

theorem recycled_heap_full (word : Nat) :
    findTheFreeSpaceInSlab (recycledHeap word) 0 (determineSlabSize 100) =
      some (0, recycledHeap word) := rfl

theorem recycled_heap_block {word : Nat} (known : word ∈ [0, 7]) :
    ∃ q, bbmaAlloc (recycledHeap word) slabRequestSpace = some (2 ^ 25, q) ∧ q.mem (2 ^ 25) = word := by
  have computed : ∀ word ∈ [0, 7], (bbmaAlloc (recycledHeap word) slabRequestSpace).map
      (fun r => (r.1, r.2.mem (2 ^ 25))) = some (2 ^ 25, word) := by
    decide +kernel
  obtain ⟨⟨ptr, q⟩, got, same⟩ := Option.map_eq_some_iff.mp (computed word known)
  cases same
  exact ⟨q, got, rfl⟩

theorem new_page_works_zeroed_block :
    ∃ q, bbmaAlloc (recycledHeap 0) slabRequestSpace = some (2 ^ 25, q) ∧
      NewPageWorks (recycledHeap 0) q 0 100 (2 ^ 25) := by
  obtain ⟨q, got, zero⟩ := recycled_heap_block (show 0 ∈ [0, 7] by decide)
  exact ⟨q, got, (new_page_works_iff (by decide) (by decide) (recycled_heap_full 0) got
    (by decide)).mpr zero⟩

/-- After another owner left a word other than 0 the first search of the new page never ends. -/
theorem stale_word_locks_new_page :
    ∃ q, bbmaAlloc (recycledHeap 7) slabRequestSpace = some (2 ^ 25, q) ∧
      ¬ NewPageWorks (recycledHeap 7) q 0 100 (2 ^ 25) := by
  obtain ⟨q, got, stale⟩ := recycled_heap_block (show 7 ∈ [0, 7] by decide)
  refine ⟨q, got, fun works => ?_⟩
  obtain ⟨linked, ran, lock, _⟩ := works.lock
  obtain ⟨linked', slots, link⟩ : ∃ linked slots,
    PageLinked q linked 0 (determineSlabSize 100) (2 ^ 25) slots :=
      page_linked (by decide) (by decide) (by decide)
  rw [link.ran] at ran
  cases ran
  rw [link.lock, stale] at lock
  cases lock

end Tbma
