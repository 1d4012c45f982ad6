import JyyOs.Pmm.Trees

/-!
bbma_alloc and bbma_free with every tree lock free: an allocation takes a block of its size
class from the first tree whose root shows one, or changes nothing and returns NULL.
-/
namespace Tbma
open BuddyTree

theorem class_least {size c k : Nat} (larger : 2 ^ (c - 1) < size) (fits : size ≤ 2 ^ k) :
    c ≤ k := by
  have grows : 2 ^ (c - 1) < 2 ^ k := by omega
  have := (Nat.pow_lt_pow_iff_right Nat.one_lt_two).mp grows
  omega

/-- `c` is the class of `size`: the smallest from 12 to 24 that holds it, or 25 for none. -/
def SizeClass (size c : Nat) : Prop :=
  c = 12 ∧ size ≤ 2 ^ 12 ∨
    13 ≤ c ∧ c ≤ 24 ∧ 2 ^ (c - 1) < size ∧ size ≤ 2 ^ c ∨ c = 25 ∧ 2 ^ 24 < size

theorem size_class_branch {size c rest : Nat} (least : 13 ≤ c) (most : c ≤ 24)
    (larger : 2 ^ (c - 1) < size) (next : 2 ^ c < size → SizeClass size rest) :
    SizeClass size (if size ≤ 2 ^ c then c else rest) := by
  by_cases fits : size ≤ 2 ^ c
  · rw [if_pos fits]
    exact Or.inr (Or.inl ⟨least, most, larger, fits⟩)
  · rw [if_neg fits]
    exact next (Nat.lt_of_not_le fits)

theorem determine_bbma_size_class (size : Nat) : SizeClass size (determineBbmaSize size) := by
  unfold determineBbmaSize
  by_cases smallest : size ≤ 2 ^ s4K
  · rw [if_pos smallest]
    exact Or.inl ⟨rfl, smallest⟩
  · rw [if_neg smallest]
    have above : 2 ^ 12 < size := Nat.lt_of_not_le smallest
    iterate 12
      refine size_class_branch (by decide) (by decide) above fun above => ?_
    exact Or.inr (Or.inr ⟨rfl, above⟩)

theorem determine_bbma_size_spec {size : Nat} (fits : size ≤ 2 ^ 24) :
    12 ≤ determineBbmaSize size ∧ determineBbmaSize size ≤ 24 ∧
      size ≤ 2 ^ determineBbmaSize size ∧
      ∀ k, 12 ≤ k → size ≤ 2 ^ k → determineBbmaSize size ≤ k := by
  rcases determine_bbma_size_class size with ⟨value, inside⟩ | ⟨least, most, larger, inside⟩ |
    ⟨_, large⟩
  · rw [value]
    exact ⟨Nat.le_refl _, by decide, inside, fun k real _ => real⟩
  · exact ⟨by omega, most, inside, fun k _ fits => class_least larger fits⟩
  · omega

theorem determine_bbma_size_refuse {size : Nat} (large : 2 ^ 24 < size) :
    determineBbmaSize size = 25 := by
  rcases determine_bbma_size_class size with ⟨_, inside⟩ | ⟨_, most, _, inside⟩ | ⟨value, _⟩
  · omega
  · have : 2 ^ determineBbmaSize size ≤ 2 ^ 24 := Nat.pow_le_pow_right (by decide) most
    omega
  · exact value

def LocksFree (p : Pmm) : Prop := ∀ t, TreeIndex p.g t → p.treeLocks t = 0

theorem unlock_after_lock {locks : Nat → Nat} {i : Nat} (free : locks i = 0) :
    spinUnlock (Function.update locks i 1) i = locks := by
  unfold spinUnlock
  rw [Function.update_idem, ← free, Function.update_eq_self]

theorem find_available_in_spec (c : Nat) (list : List Nat) (p : Pmm)
    (free : ∀ t ∈ list, p.treeLocks t = 0) :
    findAvailableIn c list p = (none, p) ∧ (∀ t ∈ list, p.mem (p.g.allTrees t + 1) < c) ∨
      ∃ t ∈ list, c ≤ p.mem (p.g.allTrees t + 1) ∧
        findAvailableIn c list p =
          (some t, { p with treeLocks := Function.update p.treeLocks t 1 }) := by
  induction list with
  | nil => exact Or.inl ⟨rfl, by simp⟩
  | cons i rest ih =>
    have here := free i List.mem_cons_self
    have later := ih fun t h => free t (List.mem_cons_of_mem _ h)
    rw [findAvailableIn, if_pos here]
    by_cases small : p.mem (p.g.allTrees i + 1) < c
    · rw [if_pos small, unlock_after_lock here]
      rcases later with ⟨run, all⟩ | ⟨t, mem, enough, run⟩
      · exact Or.inl ⟨run, List.forall_mem_cons.mpr ⟨small, all⟩⟩
      · exact Or.inr ⟨t, List.mem_cons_of_mem _ mem, enough, run⟩
    · rw [if_neg small]
      exact Or.inr ⟨i, List.mem_cons_self, by omega, rfl⟩

theorem tree_index_range {g : Globals} {t : Nat} :
    t ∈ List.range' 1 g.treeNum ↔ TreeIndex g t := by
  simp only [List.mem_range'_1, TreeIndex]
  omega

theorem taken_aligned {g : Globals} (laid : Laid g) {t req a : Nat} {mem mem' : Mem}
    {b b' : Buddy 12} (taken : Taken g (g.allTrees t) mem 1 (windowOf g t) req b a mem' b') :
    2 ^ req ∣ a := by
  have live := (take_blocks taken.take).mem_iff.mpr List.mem_cons_self
  have window : 2 ^ (12 + 12) ∣ windowOf g t := by
    have := window_aligned laid t
    rwa [memGap, Nat.one_shiftLeft] at this
  exact block_aligned b' window live

variable {p : Pmm} {shape : Nat → Buddy 12} {size : Nat}

structure Allocated (p : Pmm) (shape : Nat → Buddy 12) (size t a : Nat) (mem' : Mem)
    (b' : Buddy 12) : Prop where
  tree : TreeIndex p.g t
  fits : size ≤ 2 ^ 24
  run : bbmaAlloc p size = some (a, { p with mem := mem' })
  taken : Taken p.g (p.g.allTrees t) p.mem 1 (windowOf p.g t) (determineBbmaSize size) (shape t) a
    mem' b'
  trees : Trees p.g mem' (Function.update shape t b')

theorem bbma_alloc_spec (laid : Laid p.g) (trees : Trees p.g p.mem shape) (free : LocksFree p)
    (size : Nat) :
    bbmaAlloc p size = some (0, p) ∧ (size ≤ 2 ^ 24 → ∀ t, TreeIndex p.g t →
        p.mem (p.g.allTrees t + 1) < determineBbmaSize size) ∨
      ∃ t a mem' b', Allocated p shape size t a mem' b' := by
  by_cases fits : size ≤ 2 ^ 24
  · obtain ⟨real, small, _, _⟩ := determine_bbma_size_spec fits
    have accepted : determineBbmaSize size ≠ 25 := by omega
    have search := find_available_in_spec (determineBbmaSize size) (List.range' 1 p.g.treeNum) p
      fun t h => free t (tree_index_range.mp h)
    rcases search with ⟨run, none_left⟩ | ⟨t, mem, enough, run⟩
    · refine Or.inl ⟨?_, fun _ t valid => none_left t (tree_index_range.mpr valid)⟩
      simp [bbmaAlloc, findTheFreeSpaceInBbmaSystem, findAvailableTree, accepted, run, isAlignTo]
    · have valid := tree_index_range.mp mem
      obtain ⟨a, mem', b', taken, trees'⟩ := alloc_in_trees laid valid trees real enough
      refine Or.inr ⟨t, a, mem', b', valid, fits, ?_, taken, trees'⟩
      have get := taken.run
      rw [show (12 : Nat) + 12 = 24 from rfl] at get
      have aligned : isAlignTo a (determineBbmaSize size) = true := by
        have := Nat.mod_eq_zero_of_dvd (taken_aligned laid taken)
        rw [isAlignTo, Nat.one_shiftLeft, this]
        rfl
      have last := valid.2
      have stored : p.g.allTrees t ≠ 0 := by
        have := laid.positive
        rw [laid.arrays t valid.1 valid.2]
        omega
      simp only [bbmaAlloc, findTheFreeSpaceInBbmaSystem, findAvailableTree, accepted, run, get,
        aligned, stored, Nat.not_lt.mpr last, Nat.not_lt.mpr enough,
        unlock_after_lock (free t valid), ↓reduceIte]
  · refine Or.inl ⟨?_, fun h => absurd h fits⟩
    simp [bbmaAlloc, determine_bbma_size_refuse (Nat.lt_of_not_le fits)]

theorem determine_which_tree_window {g : Globals} (laid : Laid g) {t ptr : Nat}
    (valid : TreeIndex g t) (lower : windowOf g t ≤ ptr) (upper : ptr < windowOf g t + memGap) :
    determineWhichTree g ptr = if g.beginAllocAddr < ptr then some t else none := by
  unfold determineWhichTree
  have gap : 2 ^ 24 = memGap := by rw [memGap, Nat.one_shiftLeft]
  have positive : 0 < memGap := by decide
  obtain ⟨q, window⟩ := window_aligned laid t
  have quotient : ptr / memGap = q := by
    refine Nat.div_eq_of_lt_le ?_ ?_
    · rw [Nat.mul_comm]; omega
    · rw [Nat.add_mul, Nat.mul_comm q]; omega
  have offset : windowOf g t - g.beginAllocAddr = (t - 1) * memGap := by
    unfold windowOf; omega
  have first := valid.1
  have index : (q * memGap - g.beginAllocAddr) / memGap + 1 = t := by
    rw [Nat.mul_comm q, ← window, offset, Nat.mul_div_cancel _ positive]
    omega
  simp only [gap, quotient, index]

theorem bbma_free_spec (laid : Laid p.g) (trees : Trees p.g p.mem shape) {p' : Pmm}
    {t ptr k : Nat} (valid : TreeIndex p.g t)
    (live : (ptr, k) ∈ blocks 12 (windowOf p.g t) (shape t)) (run : bbmaFree p ptr = some p') :
    ∃ mem' b', Given p.g (p.g.allTrees t) p.mem 1 (windowOf p.g t) k (shape t) ptr mem' b' ∧
      Trees p.g mem' (Function.update shape t b') ∧ p.treeLocks t = 0 ∧
      p' = { p with mem := mem' } := by
  have bounds := block_bounds _ live
  have size : 0 < 2 ^ k := Nat.two_pow_pos _
  have gap : 2 ^ (12 + 12) = memGap := by rw [memGap, Nat.one_shiftLeft]
  have notNull := window_positive laid t
  have found := determine_which_tree_window laid valid bounds.1 (by
    have := bounds.2
    rw [gap] at this
    simp only at this
    omega)
  obtain ⟨mem', b', given, trees'⟩ := free_in_trees laid valid trees live
  have give := given.run
  rw [show (12 : Nat) + 12 = 24 from rfl] at give
  rw [bbmaFree, if_neg (by have := bounds.1; simp only at this; omega), found] at run
  by_cases after : p.g.beginAllocAddr < ptr
  · simp only [if_pos after, give] at run
    split at run
    · simp at run
    · split at run
      · simp at run
      · rename_i unlocked
        have unlocked : p.treeLocks t = 0 := by omega
        rw [unlock_after_lock unlocked, Option.some.injEq] at run
        exact ⟨mem', b', given, trees', unlocked, run.symm⟩
  · simp [if_neg after] at run

end Tbma
