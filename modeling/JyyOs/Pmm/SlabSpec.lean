import JyyOs.Pmm.Slab
import JyyOs.Pmm.Owned
import JyyOs.Library.LinkedList

/-!
One slab page in memory: the free blocks listed in its header, how a fresh page is filled,
and what taking a block and returning one does to the list.
-/
namespace Tbma
open LinkedList

structure SlotOf (a k s : Nat) : Prop where
  lower : a + 2 ^ k ≤ s
  upper : s + 2 ^ k ≤ a + 4096
  aligned : 2 ^ k ∣ s

structure SlotList (mem : Mem) (a k : Nat) (slots : List Nat) : Prop where
  list : Linked mem 0 (mem (a + freeBlockList)) slots
  count : mem (a + slabFreeSpace) = slots.length
  once : slots.Nodup
  inside : ∀ s ∈ slots, SlotOf a k s

variable {mem mem' : Mem} {a k : Nat} {slots : List Nat}

theorem class_at_least {k : Nat} (least : 5 ≤ k) : 32 ≤ 2 ^ k :=
  Nat.pow_le_pow_right (by decide : 0 < 2) least

theorem slot_list_congr (list : SlotList mem a k slots)
    (header : mem' (a + freeBlockList) = mem (a + freeBlockList))
    (count : mem' (a + slabFreeSpace) = mem (a + slabFreeSpace))
    (same : ∀ s ∈ slots, mem' s = mem s) : SlotList mem' a k slots :=
  ⟨header ▸ linked_congr list.list fun s h => same s h, count.trans list.count, list.once,
    list.inside⟩

theorem stick_size {k : Nat} (least : 5 ≤ k) (most : k ≤ 11) :
    alignTo slabStickSize k = 2 ^ k := by
  interval_cases k <;> decide

theorem slab_space {k : Nat} (least : 5 ≤ k) (most : k ≤ 11) :
    2 ^ k + ((4096 - 2 ^ k) >>> k) * 2 ^ k = 4096 := by
  interval_cases k <;> decide

structure Filled (mem mem' : Mem) (a k count addr : Nat) (slots slots' : List Nat) : Prop where
  list : Linked mem' 0 (mem' (a + freeBlockList)) slots'
  once : slots'.Nodup
  length : slots'.length = slots.length + count
  found : ∀ s ∈ slots', s ∈ slots ∨ ∃ j, j < count ∧ s = addr + j * 2 ^ k
  outside : ∀ x, x ≠ a + freeBlockList → (x < addr ∨ addr + count * 2 ^ k ≤ x) → mem' x = mem x

theorem initialize_blocks_spec (count addr : Nat) (mem : Mem) (slots : List Nat)
    (least : 5 ≤ k) (linked : Linked mem 0 (mem (a + freeBlockList)) slots) (once : slots.Nodup)
    (before : ∀ s ∈ slots, a + 32 ≤ s ∧ s < addr) (start : a + 32 ≤ addr) :
    ∃ slots', Filled mem (initializeBlocks a k count addr mem) a k count addr slots slots' := by
  have size := class_at_least least
  induction count generalizing addr mem slots with
  | zero => exact ⟨slots, linked, once, rfl, fun s h => Or.inl h, fun _ _ _ => rfl⟩
  | succ count ih =>
    have fresh : addr ∉ slots := fun h => by
      have := before addr h
      omega
    have pushed := linked_push linked (show addr ≠ 0 by omega) fresh
    rw [Nat.add_zero] at pushed
    rw [initializeBlocks, Nat.one_shiftLeft]
    generalize stored : Function.update (Function.update mem addr (mem (a + freeBlockList)))
      (a + freeBlockList) addr = mem1
    have header : mem1 (a + freeBlockList) = addr := by rw [← stored, Function.update_self]
    have same : ∀ x, x ≠ addr → x ≠ a + freeBlockList → mem1 x = mem x := fun x h h' => by
      rw [← stored, Function.update_of_ne h', Function.update_of_ne h]
    have linked1 : Linked mem1 0 (mem1 (a + freeBlockList)) (addr :: slots) := by
      rw [header]
      refine linked_congr pushed fun x inside => ?_
      have : a + 32 ≤ x := by
        rcases List.mem_cons.mp inside with rfl | old
        · exact start
        · exact (before x old).1
      rw [← stored]
      exact Function.update_of_ne (by simp only [freeBlockList]; omega) ..
    have before1 : ∀ s ∈ addr :: slots, a + 32 ≤ s ∧ s < addr + 2 ^ k := by
      refine List.forall_mem_cons.mpr ⟨by omega, fun s h => ?_⟩
      have := before s h
      omega
    obtain ⟨slots', filled⟩ := ih (addr + 2 ^ k) mem1 (addr :: slots) linked1
      (List.nodup_cons.mpr ⟨fresh, once⟩) before1 (by omega)
    refine ⟨slots', filled.list, filled.once, ?_, fun s h => ?_, fun x h beyond => ?_⟩
    · rw [filled.length, List.length_cons]
      omega
    · rcases filled.found s h with old | ⟨j, bound, rfl⟩
      · rcases List.mem_cons.mp old with rfl | older
        · exact Or.inr ⟨0, by omega, by omega⟩
        · exact Or.inl older
      · exact Or.inr ⟨j + 1, by omega, by rw [Nat.add_mul]; omega⟩
    · rw [Nat.add_mul] at beyond
      rw [filled.outside x h (by omega), same x (by omega) h]

theorem initialize_page_spec (mem : Mem) (aligned : a % 4096 = 0) (least : 5 ≤ k)
    (most : k ≤ 11) :
    ∃ mem' slots, initializeASlabNewPage mem k a = some mem' ∧ SlotList mem' a k slots ∧
      mem' (a + nextSlabStick) = mem (a + nextSlabStick) ∧
      ∀ x, (x < a ∨ a + 4096 ≤ x) → mem' x = mem x := by
  have size := class_at_least least
  have small : 2 ^ k ≤ 2 ^ 11 := Nat.pow_le_pow_right (by decide) most
  have space := slab_space least most
  have accepted : isAlignTo a 12 = true := by
    rw [isAlignTo, Nat.one_shiftLeft]
    simpa using aligned
  generalize header : Function.update (Function.update mem (a + slabFreeSpace)
    ((4096 - 2 ^ k) >>> k)) (a + freeBlockList) 0 = mem1
  have empty : Linked mem1 0 (mem1 (a + freeBlockList)) [] := by
    rw [← header, Function.update_self]
    rfl
  obtain ⟨slots, filled⟩ := initialize_blocks_spec ((4096 - 2 ^ k) >>> k) (a + 2 ^ k) mem1 []
    least empty List.nodup_nil (by simp) (by omega)
  have counted : mem1 (a + slabFreeSpace) = (4096 - 2 ^ k) >>> k := by
    rw [← header, Function.update_of_ne (by simp only [slabFreeSpace, freeBlockList]; omega),
      Function.update_self]
  refine ⟨_, slots, ?_, ⟨filled.list, ?_, filled.once, fun s h => ?_⟩, ?_, fun x beyond => ?_⟩
  · rw [initializeASlabNewPage, stick_size least most, if_neg (by simp [accepted]; omega),
      if_neg (by rw [Nat.one_shiftLeft]; exact Nat.not_lt.mpr small), ← header]
  · rw [filled.outside _ (by simp only [slabFreeSpace, freeBlockList]; omega)
      (Or.inl (by simp only [slabFreeSpace]; omega)), counted, filled.length]
    simp
  · rcases filled.found s h with old | ⟨j, bound, rfl⟩
    · simp at old
    · have fits := Nat.mul_le_mul_right (2 ^ k) (show j + 1 ≤ (4096 - 2 ^ k) >>> k by omega)
      rw [Nat.add_mul] at fits
      have page : 2 ^ k ∣ a := Nat.dvd_trans (Nat.pow_dvd_pow 2 (show k ≤ 12 by omega))
        (Nat.dvd_of_mod_eq_zero aligned)
      exact ⟨by omega, by omega, Nat.dvd_add (Nat.dvd_add page (Nat.dvd_refl _))
        (Nat.dvd_mul_left _ _)⟩
  · rw [filled.outside _ (by simp only [nextSlabStick, freeBlockList]; omega)
      (Or.inl (by simp only [nextSlabStick]; omega)), ← header,
      Function.update_of_ne (by simp only [nextSlabStick, freeBlockList]; omega),
      Function.update_of_ne (by simp only [nextSlabStick, slabFreeSpace]; omega)]
  · rw [filled.outside x (by simp only [freeBlockList]; omega) (by omega), ← header,
      Function.update_of_ne (by simp only [freeBlockList]; omega),
      Function.update_of_ne (by simp only [slabFreeSpace]; omega)]

/-- The page whose header has a block on its list, or 0 when every page is full. Holding the
    lock of a page only shows while the list is edited. -/
theorem avaliable_page_spec (fuel : Nat) {start : Nat} {pages : List Nat}
    (linked : Linked mem nextSlabStick start pages) (enough : pages.length < fuel)
    {found : Nat} (ran : avaliablePageLoop fuel mem start = some (found, mem')) :
    found = 0 ∧ mem' = mem ∨
      found ∈ pages ∧ found ≠ 0 ∧ mem found = 0 ∧ mem (found + slabFreeSpace) ≠ 0 ∧
        mem' = Function.update mem found 1 := by
  induction pages generalizing fuel start with
  | nil =>
    obtain ⟨fuel, rfl⟩ := Nat.exists_eq_add_of_lt enough
    obtain rfl : start = 0 := linked
    simp only [avaliablePageLoop, ↓reduceIte, Option.some.injEq, Prod.mk.injEq] at ran
    exact Or.inl ⟨ran.1.symm, ran.2.symm⟩
  | cons x rest ih =>
    obtain ⟨fuel, rfl⟩ := Nat.exists_eq_add_of_lt enough
    obtain ⟨rfl, real, later⟩ := linked
    rw [avaliablePageLoop, if_neg real] at ran
    split at ran
    · simp at ran
    · rename_i unlocked
      have unlocked : mem start = 0 := by omega
      have restored : Function.update (Function.update mem start 1) start 0 = mem := by
        rw [Function.update_idem, ← unlocked, Function.update_eq_self]
      simp only [restored, slabFreeSpace, nextSlabStick,
        Function.update_of_ne (show start + 24 ≠ start by omega),
        Function.update_of_ne (show start + 16 ≠ start by omega)] at ran
      split at ran
      · rcases ih _ later (by simp only [List.length_cons]; omega) ran with
          none_left | ⟨mem, more⟩
        · exact Or.inl none_left
        · exact Or.inr ⟨List.mem_cons_of_mem _ mem, more⟩
      · rename_i open_
        simp only [Option.some.injEq, Prod.mk.injEq] at ran
        obtain ⟨rfl, rfl⟩ := ran
        exact Or.inr ⟨List.mem_cons_self, real, unlocked, open_, rfl⟩

/-- The bound on the loop is not what ends it: any larger one gives the same search. -/
theorem avaliable_page_fuel (fuel fuel' : Nat) {mem : Mem} {start : Nat} {pages : List Nat}
    (linked : Linked mem nextSlabStick start pages) (enough : pages.length < fuel)
    (enough' : pages.length < fuel') :
    avaliablePageLoop fuel mem start = avaliablePageLoop fuel' mem start := by
  induction pages generalizing fuel fuel' start with
  | nil =>
    obtain ⟨fuel, rfl⟩ := Nat.exists_eq_add_of_lt enough
    obtain ⟨fuel', rfl⟩ := Nat.exists_eq_add_of_lt enough'
    obtain rfl : start = 0 := linked
    simp only [avaliablePageLoop, ↓reduceIte]
  | cons x rest ih =>
    obtain ⟨fuel, rfl⟩ := Nat.exists_eq_add_of_lt enough
    obtain ⟨fuel', rfl⟩ := Nat.exists_eq_add_of_lt enough'
    obtain ⟨rfl, real, later⟩ := linked
    simp only [avaliablePageLoop, if_neg real]
    split
    · rfl
    · rename_i unlocked
      have unlocked : mem start = 0 := by omega
      have restored : Function.update (Function.update mem start 1) start 0 = mem := by
        rw [Function.update_idem, ← unlocked, Function.update_eq_self]
      simp only [restored, nextSlabStick,
        Function.update_of_ne (show start + 16 ≠ start by omega)]
      split
      · exact ih _ _ later (by simp only [List.length_cons]; omega)
          (by simp only [List.length_cons]; omega)
      · rfl

structure SlotTaken (mem mem' : Mem) (a k s : Nat) (slots rest : List Nat) : Prop where
  head : slots = s :: rest
  list : SlotList mem' a k rest
  same : ∀ x, x ≠ a + freeBlockList → x ≠ a + slabFreeSpace → mem' x = mem x

theorem take_slot (least : 5 ≤ k) (list : SlotList mem a k slots)
    (real : mem (a + freeBlockList) ≠ 0) :
    ∃ rest, SlotTaken mem (Function.update (Function.update mem (a + freeBlockList)
        (mem (mem (a + freeBlockList)))) (a + slabFreeSpace) (mem (a + slabFreeSpace) - 1)) a k
      (mem (a + freeBlockList)) slots rest := by
  have size := class_at_least least
  obtain ⟨rest, rfl, later⟩ := linked_head list.list real
  have once := List.nodup_cons.mp list.once
  refine ⟨rest, rfl, ⟨?_, ?_, once.2, fun s h => list.inside s (List.mem_cons_of_mem _ h)⟩, ?_⟩
  · rw [Function.update_of_ne (by simp only [freeBlockList, slabFreeSpace]; omega),
      Function.update_self]
    refine linked_congr later fun s h => ?_
    have := (list.inside s (List.mem_cons_of_mem _ h)).lower
    rw [Function.update_of_ne (by simp only [slabFreeSpace]; omega),
      Function.update_of_ne (by simp only [freeBlockList]; omega)]
  · rw [Function.update_self, list.count, List.length_cons]
    omega
  · intro x h h'
    rw [Function.update_of_ne h', Function.update_of_ne h]

theorem return_slot {s : Nat} (least : 5 ≤ k) (list : SlotList mem a k slots)
    (slot : SlotOf a k s) (fresh : s ∉ slots) :
    SlotList (Function.update (Function.update (Function.update mem s (mem (a + freeBlockList)))
      (a + freeBlockList) s) (a + slabFreeSpace) (mem (a + slabFreeSpace) + 1)) a k
      (s :: slots) := by
  have size := class_at_least least
  have lower := slot.lower
  have pushed := linked_push list.list (show s ≠ 0 by omega) fresh
  rw [Nat.add_zero] at pushed
  refine ⟨?_, ?_, List.nodup_cons.mpr ⟨fresh, list.once⟩,
    List.forall_mem_cons.mpr ⟨slot, list.inside⟩⟩
  · rw [Function.update_of_ne (by simp only [freeBlockList, slabFreeSpace]; omega),
      Function.update_self]
    refine linked_congr pushed fun x h => ?_
    have : a + 32 ≤ x := by
      rcases List.mem_cons.mp h with rfl | old
      · omega
      · have := (list.inside x old).lower
        omega
    rw [Function.update_of_ne (by simp only [slabFreeSpace]; omega),
      Function.update_of_ne (by simp only [freeBlockList]; omega)]
  · rw [Function.update_self, list.count, List.length_cons]

end Tbma
