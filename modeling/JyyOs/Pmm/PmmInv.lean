import JyyOs.Pmm.SlabSpec
import Mathlib.Data.List.Nodup

/-!
The invariant of the physical allocator. Every slab page is a 4KiB block handed out by the
trees; a live block is either such a block of the trees that is no slab page, or a block of
a slab page that its free list does not mention.
-/
namespace Tbma
open BuddyTree LinkedList

/-- What memory does not say by itself: the trees, the slab pages with their classes, the
    free blocks of each page and the pages of each CPU and class. -/
structure Ghost where
  shape : Nat → Buddy 12
  pages : List (Nat × Nat)
  slots : Nat → List Nat
  chains : Nat → Nat → List Nat

def LiveBlock (g : Globals) (gh : Ghost) (x : Nat × Nat) : Prop :=
  (∃ a, (a, x.2) ∈ gh.pages ∧ SlotOf a x.2 x.1 ∧ x.1 ∉ gh.slots a) ∨
    Owned g gh.shape x ∧ x.1 ∉ gh.pages.map Prod.fst

structure SlabPage (mem : Mem) (g : Globals) (gh : Ghost) (x : Nat × Nat) : Prop where
  owned : Owned g gh.shape (x.1, 12)
  least : 5 ≤ x.2
  most : x.2 ≤ 11
  list : SlotList mem x.1 x.2 (gh.slots x.1)

structure Chain (mem : Mem) (gh : Ghost) (start i : Nat) (list : List Nat) : Prop where
  linked : Linked mem nextSlabStick start list
  once : list.Nodup
  pages : ∀ a ∈ list, (a, i + cpuFindSlabOffset) ∈ gh.pages

structure PmmInv (p : Pmm) (gh : Ghost) (live : List (Nat × Nat)) : Prop where
  laid : Laid p.g
  trees : Trees p.g p.mem gh.shape
  locks : LocksFree p
  pages : ∀ x ∈ gh.pages, SlabPage p.mem p.g gh x
  pagesOnce : (gh.pages.map Prod.fst).Nodup
  chains : ∀ cpu i, Chain p.mem gh (p.cpuOwnArea cpu i) i (gh.chains cpu i)
  liveBlocks : ∀ x ∈ live, LiveBlock p.g gh x
  liveOnce : (live.map Prod.fst).Nodup

variable {p : Pmm} {gh : Ghost} {live : List (Nat × Nat)}

theorem page_in_area (inv : PmmInv p gh live) {x : Nat × Nat} (page : x ∈ gh.pages) :
    InArea p.g (x.1, 12) := owned_in_area inv.laid (inv.pages x page).owned

theorem page_aligned (inv : PmmInv p gh live) {x : Nat × Nat} (page : x ∈ gh.pages) :
    4096 ∣ x.1 := (page_in_area inv page).aligned

theorem pages_apart (inv : PmmInv p gh live) {x y : Nat × Nat} (hx : x ∈ gh.pages)
    (hy : y ∈ gh.pages) (other : x.1 ≠ y.1) : x.1 + 4096 ≤ y.1 ∨ y.1 + 4096 ≤ x.1 := by
  have apart : Apart (x.1, 12) (y.1, 12) := owned_apart (inv.pages x hx).owned
    (inv.pages y hy).owned fun h => other (Prod.mk.inj h).1
  exact apart

theorem page_class (inv : PmmInv p gh live) {a k k' : Nat} (hx : (a, k) ∈ gh.pages)
    (hy : (a, k') ∈ gh.pages) : k = k' := by
  have same := List.inj_on_of_nodup_map inv.pagesOnce hx hy rfl
  exact (Prod.mk.inj same).2

theorem page_above_nodes (inv : PmmInv p gh live) {x : Nat × Nat} (page : x ∈ gh.pages)
    {cell : Nat} (node : NodeCell p.g cell) : cell < x.1 := by
  have below := (node_cell_below inv.laid node).2
  have lower := (page_in_area inv page).lower
  simp only at lower
  omega

theorem live_forget {x : Nat × Nat} (inv : PmmInv p gh (x :: live)) : PmmInv p gh live :=
  { inv with
    liveBlocks := fun y h => inv.liveBlocks y (List.mem_cons_of_mem _ h)
    liveOnce := (List.nodup_cons.mp inv.liveOnce).2 }

theorem live_perm {live' : List (Nat × Nat)} (inv : PmmInv p gh live) (perm : live.Perm live') :
    PmmInv p gh live' :=
  { inv with
    liveBlocks := fun y h => inv.liveBlocks y (perm.mem_iff.mpr h)
    liveOnce := (perm.map Prod.fst).nodup_iff.mp inv.liveOnce }

theorem live_add {x : Nat × Nat} (inv : PmmInv p gh live) (block : LiveBlock p.g gh x)
    (fresh : x.1 ∉ live.map Prod.fst) : PmmInv p gh (x :: live) :=
  { inv with
    liveBlocks := List.forall_mem_cons.mpr ⟨block, inv.liveBlocks⟩
    liveOnce := List.nodup_cons.mpr ⟨fresh, inv.liveOnce⟩ }

/-- The cells the allocator itself reads. -/
def Metadata (g : Globals) (gh : Ghost) (x : Nat) : Prop :=
  NodeCell g x ∨ ∃ a k, (a, k) ∈ gh.pages ∧ (x = a + freeBlockList ∨ x = a + nextSlabStick ∨
    x = a + slabFreeSpace ∨ x ∈ gh.slots a)

theorem inv_mem_congr (inv : PmmInv p gh live) {mem' : Mem}
    (same : ∀ x, Metadata p.g gh x → mem' x = p.mem x) :
    PmmInv { p with mem := mem' } gh live := by
  refine { inv with trees := ?_, pages := ?_, chains := ?_ }
  · exact trees_congr inv.laid inv.trees fun x node => same x (Or.inl node)
  · intro x page
    have before := inv.pages x page
    have cell : ∀ c, (c = x.1 + freeBlockList ∨ c = x.1 + nextSlabStick ∨
        c = x.1 + slabFreeSpace ∨ c ∈ gh.slots x.1) → mem' c = p.mem c :=
      fun c h => same c (Or.inr ⟨x.1, x.2, page, h⟩)
    refine { before with list := ?_ }
    exact slot_list_congr before.list (cell _ (by simp)) (cell _ (by simp))
      fun s h => cell s (by simp [h])
  · intro cpu i
    have before := inv.chains cpu i
    refine { before with linked := ?_ }
    exact linked_congr before.linked fun a h =>
      same _ (Or.inr ⟨a, _, before.pages a h, by simp⟩)

theorem inv_update_page (inv : PmmInv p gh live) {mem' : Mem} {a k : Nat} {slots : List Nat}
    (page : (a, k) ∈ gh.pages) (list : SlotList mem' a k slots)
    (same : ∀ x, x < a ∨ a + 4096 ≤ x → mem' x = p.mem x)
    (next : mem' (a + nextSlabStick) = p.mem (a + nextSlabStick))
    (kept : ∀ s ∈ slots, s ∈ gh.slots a ∨ s ∉ live.map Prod.fst) :
    PmmInv { p with mem := mem' } { gh with slots := Function.update gh.slots a slots } live := by
  refine { inv with trees := ?_, pages := ?_, chains := ?_, liveBlocks := ?_ }
  · refine trees_congr inv.laid inv.trees fun x node => same x (Or.inl ?_)
    exact page_above_nodes inv page node
  · intro x other
    have before := inv.pages x other
    refine ⟨before.owned, before.least, before.most, ?_⟩
    by_cases here : x.1 = a
    · have class' : x.2 = k := by
        subst here
        exact page_class inv other page
      simp only [here, class', Function.update_self]
      exact list
    · simp only [Function.update_of_ne here]
      have apart := pages_apart inv other page here
      simp only at apart
      have large := class_at_least before.least
      refine slot_list_congr before.list (same _ ?_) (same _ ?_) fun s h => same _ ?_
      · simp only [freeBlockList]; omega
      · simp only [slabFreeSpace]; omega
      · have slot := before.list.inside s h
        have := slot.lower
        have := slot.upper
        omega
  · intro cpu i
    have before := inv.chains cpu i
    refine { before with linked := linked_congr before.linked fun b h => ?_ }
    by_cases here : b = a
    · subst here
      exact next
    · have apart := pages_apart inv (before.pages b h) page here
      simp only at apart
      exact same _ (by simp only [nextSlabStick]; omega)
  · intro x h
    rcases inv.liveBlocks x h with ⟨b, pageOf, slot, absent⟩ | buddy
    · refine Or.inl ⟨b, pageOf, slot, fun inside => absent ?_⟩
      by_cases here : b = a
      · subst here
        simp only [Function.update_self] at inside
        rcases kept _ inside with old | gone
        · exact old
        · exact absurd (List.mem_map_of_mem h) gone
      · simpa only [Function.update_of_ne here] using inside
    · exact Or.inr buddy

end Tbma
