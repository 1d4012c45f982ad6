import Mathlib.Data.List.Perm.Basic
import Mathlib.Data.List.Pairwise
import Mathlib.Tactic.Ring
import Mathlib.Tactic.Linarith

/-!
Binary buddy trees over a power-of-two range. A tree of height `d` covers
`2 ^ (m + d)` units, where `2 ^ m` is the smallest block. The shape alone says
which blocks are allocated; no stored summary is part of it.
-/
namespace BuddyTree

inductive Buddy : Nat → Type where
  | free {d : Nat} : Buddy d
  | used {d : Nat} : Buddy d
  | split {d : Nat} : Buddy d → Buddy d → Buddy (d + 1)

/-- A split node is never a free node in disguise. -/
def Normal : {d : Nat} → Buddy d → Prop
  | _, .free => True
  | _, .used => True
  | _, .split l r => Normal l ∧ Normal r ∧ ¬ (l = .free ∧ r = .free)

/-- Allocated blocks as pairs (offset, log size), from left to right. -/
def blocks (m : Nat) : {d : Nat} → Nat → Buddy d → List (Nat × Nat)
  | _, _, .free => []
  | d, off, .used => [(off, m + d)]
  | _, off, .split (d := d) l r => blocks m off l ++ blocks m (off + 2 ^ (m + d)) r

def Apart (x y : Nat × Nat) : Prop := x.1 + 2 ^ x.2 ≤ y.1 ∨ y.1 + 2 ^ y.2 ≤ x.1

theorem apart_symm {x y : Nat × Nat} (h : Apart x y) : Apart y x := Or.symm h

instance : Std.Symm Apart := ⟨fun _ _ h => apart_symm h⟩

theorem apart_ne {x y : Nat × Nat} (h : Apart x y) : x ≠ y := by
  intro same
  subst same
  have pos : 0 < 2 ^ x.2 := Nat.two_pow_pos _
  simp only [Apart, or_self] at h
  omega

theorem aligned_apart {k a b : Nat} (ha : 2 ^ k ∣ a) (hb : 2 ^ k ∣ b) (other : a ≠ b) :
    Apart (a, k) (b, k) := by
  obtain ⟨q, rfl⟩ := ha
  obtain ⟨n, rfl⟩ := hb
  have distinct : q ≠ n := fun h => other (h ▸ rfl)
  rcases Nat.lt_or_gt_of_ne distinct with before | after
  · exact Or.inl (by rw [← Nat.mul_succ]; exact Nat.mul_le_mul_left _ before)
  · exact Or.inr (by rw [← Nat.mul_succ]; exact Nat.mul_le_mul_left _ after)

theorem power_halves (m d : Nat) : 2 ^ (m + (d + 1)) = 2 ^ (m + d) + 2 ^ (m + d) := by
  rw [← Nat.add_assoc, Nat.pow_succ]
  omega

theorem block_bounds {m d : Nat} (b : Buddy d) {off : Nat} {x : Nat × Nat}
    (mem : x ∈ blocks m off b) : off ≤ x.1 ∧ x.1 + 2 ^ x.2 ≤ off + 2 ^ (m + d) := by
  induction b generalizing off with
  | free => simp [blocks] at mem
  | used =>
    simp only [blocks, List.mem_singleton] at mem
    subst mem
    exact ⟨Nat.le_refl _, Nat.le_refl _⟩
  | @split d l r hl hr =>
    simp only [blocks, List.mem_append] at mem
    have halves := power_halves m d
    have pos : 0 < 2 ^ (m + d) := Nat.two_pow_pos _
    rcases mem with left | right
    · have := hl left
      omega
    · have := hr right
      omega

theorem block_size_bounds {m d : Nat} (b : Buddy d) {off : Nat} {x : Nat × Nat}
    (mem : x ∈ blocks m off b) : m ≤ x.2 ∧ x.2 ≤ m + d := by
  induction b generalizing off with
  | free => simp [blocks] at mem
  | used =>
    simp only [blocks, List.mem_singleton] at mem
    subst mem
    exact ⟨Nat.le_add_right _ _, Nat.le_refl _⟩
  | split l r hl hr =>
    simp only [blocks, List.mem_append] at mem
    rcases mem with left | right
    · have := hl left
      omega
    · have := hr right
      omega

theorem block_aligned {m d : Nat} (b : Buddy d) {off : Nat} {x : Nat × Nat}
    (aligned : 2 ^ (m + d) ∣ off) (mem : x ∈ blocks m off b) : 2 ^ x.2 ∣ x.1 := by
  induction b generalizing off with
  | free => simp [blocks] at mem
  | used =>
    simp only [blocks, List.mem_singleton] at mem
    subst mem
    exact aligned
  | @split d l r hl hr =>
    have half : 2 ^ (m + d) ∣ off :=
      Nat.dvd_trans (Nat.pow_dvd_pow 2 (by omega)) aligned
    simp only [blocks, List.mem_append] at mem
    rcases mem with left | right
    · exact hl half left
    · exact hr (Nat.dvd_add half (Nat.dvd_refl _)) right

theorem blocks_apart {m d : Nat} (b : Buddy d) (off : Nat) :
    (blocks m off b).Pairwise Apart := by
  induction b generalizing off with
  | free => simp [blocks]
  | used => simp [blocks]
  | @split d l r hl hr =>
    refine List.pairwise_append.mpr ⟨hl off, hr _, ?_⟩
    intro x hx y hy
    have left := block_bounds l hx
    have right := block_bounds r hy
    exact Or.inl (by omega)

theorem blocks_nodup {m d : Nat} (b : Buddy d) (off : Nat) : (blocks m off b).Nodup :=
  (blocks_apart b off).imp apart_ne

/-- Full coalescing: only the free tree holds no block. -/
theorem blocks_empty_iff {m d : Nat} (b : Buddy d) (off : Nat) (normal : Normal b) :
    blocks m off b = [] ↔ b = .free := by
  induction b generalizing off with
  | free => simp [blocks]
  | used => simp [blocks]
  | split l r hl hr =>
    obtain ⟨nl, nr, proper⟩ := normal
    simp only [blocks, List.append_eq_nil_iff, reduceCtorEq, iff_false]
    rintro ⟨left, right⟩
    exact proper ⟨(hl off nl).mp left, (hr _ nr).mp right⟩

/-- `Take m k off b a b'`: a free block of log size `k` at offset `a` of `b` is handed out.
    A larger free block is opened, and its other half stays free. -/
inductive Take (m k : Nat) : {d : Nat} → Nat → Buddy d → Nat → Buddy d → Prop where
  | here {d off : Nat} (size : k = m + d) : Take m k off (.free : Buddy d) off .used
  | openLeft {d off a : Nat} {l : Buddy d} (inner : Take m k off .free a l) :
      Take m k off (.free : Buddy (d + 1)) a (.split l .free)
  | openRight {d off a : Nat} {r : Buddy d} (inner : Take m k (off + 2 ^ (m + d)) .free a r) :
      Take m k off (.free : Buddy (d + 1)) a (.split .free r)
  | left {d off a : Nat} {l l' r : Buddy d} (inner : Take m k off l a l') :
      Take m k off (.split l r) a (.split l' r)
  | right {d off a : Nat} {l r r' : Buddy d} (inner : Take m k (off + 2 ^ (m + d)) r a r') :
      Take m k off (.split l r) a (.split l r')

theorem take_blocks {m k d off a : Nat} {b b' : Buddy d} (take : Take m k off b a b') :
    (blocks m off b').Perm ((a, k) :: blocks m off b) := by
  induction take with
  | here size => simp [blocks, size]
  | openLeft inner ih => simpa [blocks] using ih
  | openRight inner ih => simpa [blocks] using ih
  | left inner ih => simpa [blocks] using ih.append_right _
  | right inner ih =>
    simp only [blocks]
    exact (ih.append_left _).trans List.perm_middle

theorem take_not_free {m k d off a : Nat} {b b' : Buddy d} (take : Take m k off b a b') :
    b' ≠ .free := by
  cases take <;> simp

/-- Two halves put back together: free buddies coalesce. -/
def join {d : Nat} : Buddy d → Buddy d → Buddy (d + 1)
  | .free, .free => .free
  | l, r => .split l r

/-- `Give m k off b a b'`: the allocated block of log size `k` at offset `a` is returned and
    every pair of free buddies above it coalesces. -/
inductive Give (m k : Nat) : {d : Nat} → Nat → Buddy d → Nat → Buddy d → Prop where
  | here {d off : Nat} (size : k = m + d) : Give m k off (.used : Buddy d) off .free
  | left {d off a : Nat} {l l' r : Buddy d} (inner : Give m k off l a l') :
      Give m k off (.split l r) a (join l' r)
  | right {d off a : Nat} {l r r' : Buddy d} (inner : Give m k (off + 2 ^ (m + d)) r a r') :
      Give m k off (.split l r) a (join l r')

theorem join_blocks {m d : Nat} (off : Nat) (l r : Buddy d) :
    blocks m off (join l r) = blocks m off (.split l r) := by
  cases l <;> cases r <;> simp [join, blocks]

theorem give_blocks {m k d off a : Nat} {b b' : Buddy d} (give : Give m k off b a b') :
    (blocks m off b).Perm ((a, k) :: blocks m off b') := by
  induction give with
  | here size => simp [blocks, size]
  | left inner ih =>
    rw [join_blocks]
    simpa [blocks] using ih.append_right _
  | right inner ih =>
    rw [join_blocks]
    simp only [blocks]
    exact (ih.append_left _).trans List.perm_middle

def best (m : Nat) : {d : Nat} → Buddy d → Nat
  | d, .free => m + d
  | _, .used => 0
  | _, .split l r => max (best m l) (best m r)

def Room (live : List (Nat × Nat)) (off size k : Nat) : Prop :=
  ∃ a, 2 ^ k ∣ a ∧ off ≤ a ∧ a + 2 ^ k ≤ off + 2 ^ size ∧ ∀ x ∈ live, Apart (a, k) x

theorem size_inside {off a k size : Nat} (lower : off ≤ a)
    (upper : a + 2 ^ k ≤ off + 2 ^ size) : k ≤ size := by
  have smaller : 2 ^ k ≤ 2 ^ size := by omega
  exact (Nat.pow_le_pow_iff_right Nat.one_lt_two).mp smaller

theorem block_of_normal_split {m d : Nat} {l r : Buddy d} (off : Nat)
    (normal : Normal (.split l r)) : ∃ x, x ∈ blocks m off (.split l r) := by
  cases list : blocks m off (.split l r) with
  | nil =>
    have := (blocks_empty_iff _ off normal).mp list
    simp at this
  | cons x rest => exact ⟨x, List.mem_cons_self⟩

/-- Aligned blocks are nested or apart: inside a node they lie in one half or fill it. -/
theorem aligned_in_half {m d off a k : Nat} (aligned : 2 ^ (m + d) ∣ off) (multiple : 2 ^ k ∣ a)
    (lower : off ≤ a) (upper : a + 2 ^ k ≤ off + 2 ^ (m + (d + 1))) :
    k = m + (d + 1) ∧ a = off ∨ a + 2 ^ k ≤ off + 2 ^ (m + d) ∨ off + 2 ^ (m + d) ≤ a := by
  have halves := power_halves m d
  by_cases whole : k = m + (d + 1)
  · subst whole
    exact Or.inl ⟨rfl, by omega⟩
  · have small : k ≤ m + d := by
      have := size_inside lower upper
      omega
    have middle : 2 ^ k ∣ off + 2 ^ (m + d) :=
      Nat.dvd_trans (Nat.pow_dvd_pow 2 small) (Nat.dvd_add aligned (Nat.dvd_refl _))
    obtain ⟨q, rfl⟩ := multiple
    obtain ⟨n, eq⟩ := middle
    rw [eq]
    rcases Nat.lt_or_ge q n with before | after
    · exact Or.inr (Or.inl (by rw [← Nat.mul_succ]; exact Nat.mul_le_mul_left _ before))
    · exact Or.inr (Or.inr (Nat.mul_le_mul_left _ after))

theorem room_iff {m d : Nat} (b : Buddy d) {off k : Nat} (normal : Normal b) (real : m ≤ k)
    (posLeaf : 0 < m) (aligned : 2 ^ (m + d) ∣ off) :
    k ≤ best m b ↔ Room (blocks m off b) off (m + d) k := by
  induction b generalizing off with
  | free =>
    constructor
    · intro fits
      have larger : 2 ^ k ≤ 2 ^ (m + _) := Nat.pow_le_pow_right (by decide) fits
      exact ⟨off, Nat.dvd_trans (Nat.pow_dvd_pow 2 fits) aligned, Nat.le_refl _,
        Nat.add_le_add_left larger off, by simp [blocks]⟩
    · rintro ⟨a, _, lower, upper, _⟩
      exact size_inside lower upper
  | used =>
    constructor
    · intro fits
      simp only [best] at fits
      omega
    · rintro ⟨a, _, lower, upper, apart⟩
      have away := apart _ (by simp only [blocks, List.mem_singleton]; rfl)
      have pos : 0 < 2 ^ k := Nat.two_pow_pos k
      simp only [Apart] at away
      omega
  | @split d l r hl hr =>
    have half : 2 ^ (m + d) ∣ off := Nat.dvd_trans (Nat.pow_dvd_pow 2 (by omega)) aligned
    have halves := power_halves m d
    have left : k ≤ best m l ↔ Room (blocks m off l) off (m + d) k := hl normal.1 half
    have right : k ≤ best m r ↔
        Room (blocks m (off + 2 ^ (m + d)) r) (off + 2 ^ (m + d)) (m + d) k :=
      hr normal.2.1 (Nat.dvd_add half (Nat.dvd_refl _))
    simp only [best, le_max_iff, left, right]
    constructor
    · rintro (⟨a, multiple, lower, upper, apart⟩ | ⟨a, multiple, lower, upper, apart⟩)
      · refine ⟨a, multiple, lower, by omega, fun x mem => ?_⟩
        rcases List.mem_append.mp mem with inLeft | inRight
        · exact apart x inLeft
        · have := block_bounds r inRight
          exact Or.inl (by simp only; omega)
      · refine ⟨a, multiple, by omega, by omega, fun x mem => ?_⟩
        rcases List.mem_append.mp mem with inLeft | inRight
        · have := block_bounds l inLeft
          exact Or.inr (by simp only; omega)
        · exact apart x inRight
    · rintro ⟨a, multiple, lower, upper, apart⟩
      rcases aligned_in_half half multiple lower upper with ⟨rfl, rfl⟩ | inLeft | inRight
      · obtain ⟨x, mem⟩ := block_of_normal_split (m := m) a normal
        have away := apart x mem
        have inside := block_bounds _ mem
        have pos : 0 < 2 ^ x.2 := Nat.two_pow_pos _
        simp only [Apart] at away
        omega
      · exact Or.inl ⟨a, multiple, lower, inLeft,
          fun x mem => apart x (List.mem_append_left _ mem)⟩
      · exact Or.inr ⟨a, multiple, inRight, by omega,
          fun x mem => apart x (List.mem_append_right _ mem)⟩

end BuddyTree
