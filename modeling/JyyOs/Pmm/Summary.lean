import JyyOs.Pmm.TreeRun

/-!
Exact summaries. A node outside the allocated blocks is exact when it shows the largest
wholly free aligned block of its subtree. Frees keep every summary exact; an allocation
does so only when no node it marks GET_DEPARTED still has a free block on its other side.
-/
namespace Tbma
open BuddyTree PartialRun

/-- Node `i` shows the log size of the largest aligned block of its subtree that is wholly
    free, and a value below S_4K when there is none. -/
def ExactAt (g : Globals) (mem : Mem) (tree : Nat) (live : List (Nat × Nat)) (i : Nat) : Prop :=
  ∀ addr, convertIndexToAddr g tree i (24 - i.log2) = some addr →
    (∀ x ∈ live, ¬ (x.1 ≤ addr ∧ addr + 2 ^ (24 - i.log2) ≤ x.1 + 2 ^ x.2)) →
    ∀ k, 12 ≤ k → (k ≤ mem (tree + i) ↔ Room live addr (24 - i.log2) k)

def SummariesExact (g : Globals) (s : TreesState) : Prop :=
  ∀ t, TreeIndex g t → ∀ i, 0 < i → i < 8192 → ExactAt g s.mem (g.allTrees t) (s.live t) i

/-- On the way to the block it hands out, an allocation marks a node GET_DEPARTED only when
    the child it does not enter shows no free block. -/
def DepartsExactly (mem : Mem) (tree : Nat) : Nat → Nat → Nat → Prop
  | 0, _, _ => True
  | d + 1, i, req =>
    12 + (d + 1) = req ∨
      if req ≤ mem (tree + leftChild i) then
        (mem (tree + i) = req → mem (tree + rightChild i) < 12) ∧
          DepartsExactly mem tree d (leftChild i) req
      else
        (mem (tree + i) = req → mem (tree + leftChild i) < 12) ∧
          DepartsExactly mem tree d (rightChild i) req

/-- The condition on one step: frees are unrestricted. -/
def StepDeparts (g : Globals) (s : TreesState) : TreeOp → Prop
  | .alloc t req => DepartsExactly s.mem (g.allTrees t) 12 1 req
  | .free _ _ _ => True

/-- With every tree lock free, `bbmaAlloc` serves each request that some tree has room for. -/
def NoLoss (g : Globals) (s : TreesState) : Prop :=
  ∀ (p : Pmm) (size : Nat), p.mem = s.mem → p.g = g → (∀ t, TreeIndex g t → p.treeLocks t = 0) →
    1 ≤ size → size ≤ 2 ^ 24 →
    (∃ t, TreeIndex g t ∧ Room (s.live t) (windowOf g t) 24 (determineBbmaSize size)) →
    ∃ ptr p', bbmaAlloc p size = some (ptr, p') ∧ ptr ≠ 0

variable {g : Globals} {tree : Nat}

/-- Exactness along the represented tree, allocated blocks left out. -/
def Precise (mem : Mem) (tree : Nat) : {d : Nat} → Nat → Buddy d → Prop
  | _, _, .free => True
  | _, _, .used => True
  | _, i, .split l r =>
    (∀ k, 12 ≤ k → (k ≤ mem (tree + i) ↔ k ≤ best 12 (Buddy.split l r))) ∧
      Precise mem tree (leftChild i) l ∧ Precise mem tree (rightChild i) r

theorem sub_placed {d i addr j : Nat} (placed : Placed g tree d i addr) (inside : InSub d i j) :
    ∃ e a, Placed g tree e j a ∧ addr ≤ a ∧ a + 2 ^ (12 + e) ≤ addr + 2 ^ (12 + d) := by
  induction d generalizing i addr with
  | zero =>
    cases inside
    exact ⟨0, addr, placed, Nat.le_refl _, Nat.le_refl _⟩
  | succ d ih =>
    obtain ⟨left, right⟩ := placed_children placed
    have halves := power_halves 12 d
    have half : 0 < 2 ^ (12 + d) := Nat.two_pow_pos _
    rcases inside with rfl | inLeft | inRight
    · exact ⟨d + 1, addr, placed, Nat.le_refl _, Nat.le_refl _⟩
    · obtain ⟨e, a, here, lower, upper⟩ := ih left inLeft
      exact ⟨e, a, here, lower, by omega⟩
    · obtain ⟨e, a, here, lower, upper⟩ := ih right inRight
      exact ⟨e, a, here, by omega, by omega⟩

theorem exact_at_placed {mem : Mem} {live : List (Nat × Nat)} {d i addr : Nat}
    (placed : Placed g tree d i addr) :
    ExactAt g mem tree live i ↔
      ((∀ x ∈ live, ¬ (x.1 ≤ addr ∧ addr + 2 ^ (12 + d) ≤ x.1 + 2 ^ x.2)) →
        ∀ k, 12 ≤ k → (k ≤ mem (tree + i) ↔ Room live addr (12 + d) k)) := by
  have level := placed_level placed
  have height := placed.height
  have size : 24 - i.log2 = 12 + d := by omega
  unfold ExactAt
  rw [size]
  constructor
  · intro h
    exact h addr (convert_placed placed)
  · intro h a convert
    rw [convert_placed placed, Option.some.injEq] at convert
    exact convert ▸ h

def Local (live : List (Nat × Nat)) {d : Nat} (addr : Nat) (b : Buddy d) : Prop :=
  (∀ x ∈ blocks 12 addr b, x ∈ live) ∧
    ∀ x ∈ live, x ∈ blocks 12 addr b ∨ Apart x (addr, 12 + d)

theorem apart_shrink {x : Nat × Nat} {a k addr size : Nat} (apart : Apart x (addr, size))
    (lower : addr ≤ a) (upper : a + 2 ^ k ≤ addr + 2 ^ size) : Apart (a, k) x := by
  simp only [Apart] at apart ⊢
  omega

theorem local_room {live : List (Nat × Nat)} {d addr k : Nat} {b : Buddy d}
    (loc : Local live addr b) :
    Room live addr (12 + d) k ↔ Room (blocks 12 addr b) addr (12 + d) k := by
  constructor
  · rintro ⟨a, multiple, lower, upper, apart⟩
    exact ⟨a, multiple, lower, upper, fun x mem => apart x (loc.1 x mem)⟩
  · rintro ⟨a, multiple, lower, upper, apart⟩
    refine ⟨a, multiple, lower, upper, fun x mem => ?_⟩
    rcases loc.2 x mem with here | away
    · exact apart x here
    · exact apart_shrink away lower upper

theorem local_children {live : List (Nat × Nat)} {d addr : Nat} {l r : Buddy d}
    (loc : Local live addr (.split l r)) :
    Local live addr l ∧ Local live (addr + 2 ^ (12 + d)) r := by
  have halves := power_halves 12 d
  have half : 0 < 2 ^ (12 + d) := Nat.two_pow_pos _
  refine ⟨⟨fun x mem => loc.1 x (List.mem_append_left _ mem), fun x mem => ?_⟩,
    ⟨fun x mem => loc.1 x (List.mem_append_right _ mem), fun x mem => ?_⟩⟩
  all_goals
    have pos : 0 < 2 ^ x.2 := Nat.two_pow_pos _
    rcases loc.2 x mem with here | away
  · rcases List.mem_append.mp here with inLeft | inRight
    · exact Or.inl inLeft
    · have := block_bounds r inRight
      exact Or.inr (by simp only [Apart]; omega)
  · simp only [Apart] at away
    exact Or.inr (by simp only [Apart]; omega)
  · rcases List.mem_append.mp here with inLeft | inRight
    · have := block_bounds l inLeft
      exact Or.inr (by simp only [Apart]; omega)
    · exact Or.inl inRight
  · simp only [Apart] at away
    exact Or.inr (by simp only [Apart]; omega)

theorem not_covered {live : List (Nat × Nat)} {d addr : Nat} {b : Buddy d}
    (loc : Local live addr b) (open_ : b ≠ .used) :
    ∀ x ∈ live, ¬ (x.1 ≤ addr ∧ addr + 2 ^ (12 + d) ≤ x.1 + 2 ^ x.2) := by
  intro x mem ⟨lower, upper⟩
  have pos : 0 < 2 ^ (12 + d) := Nat.two_pow_pos _
  rcases loc.2 x mem with here | away
  · cases b with
    | free => simp [blocks] at here
    | used => exact open_ rfl
    | @split d l r =>
      have halves := power_halves 12 d
      have half : 0 < 2 ^ (12 + d) := Nat.two_pow_pos _
      rcases List.mem_append.mp here with inLeft | inRight
      · have := block_bounds l inLeft
        omega
      · have := block_bounds r inRight
        omega
  · simp only [Apart] at away
    omega

theorem free_room {live : List (Nat × Nat)} {d addr k : Nat} (aligned : 2 ^ (12 + d) ∣ addr)
    (loc : Local live addr (.free : Buddy d)) (real : 12 ≤ k) :
    k ≤ 12 + d ↔ Room live addr (12 + d) k := by
  rw [local_room loc]
  simpa [best] using room_iff (.free : Buddy d) (by simp [BuddyTree.Normal]) real (by decide) aligned

theorem full_exact {mem : Mem} {live : List (Nat × Nat)} {d i addr : Nat}
    (placed : Placed g tree d i addr) (aligned : 2 ^ (12 + d) ∣ addr)
    (loc : Local live addr (.free : Buddy d)) (full : Full mem tree d i) :
    ∀ j, InSub d i j → ExactAt g mem tree live j := by
  induction d generalizing i addr with
  | zero =>
    intro j inside
    cases inside
    rw [exact_at_placed placed]
    intro _ k real
    rw [full_value full]
    exact free_room aligned loc real
  | succ d ih =>
    obtain ⟨left, right⟩ := placed_children placed
    have half : 2 ^ (12 + d) ∣ addr := Nat.dvd_trans (Nat.pow_dvd_pow 2 (by omega)) aligned
    have open_ : Local live addr (.split (.free : Buddy d) .free) := by
      simpa [Local, blocks] using loc
    obtain ⟨localLeft, localRight⟩ := local_children open_
    intro j inside
    rcases inside with rfl | inLeft | inRight
    · rw [exact_at_placed placed]
      intro _ k real
      rw [full_value full]
      exact free_room aligned loc real
    · exact ih left half localLeft full.2.1 j inLeft
    · exact ih right (Nat.dvd_add half (Nat.dvd_refl _)) localRight full.2.2 j inRight

theorem precise_iff {mem : Mem} {live : List (Nat × Nat)} {d i addr : Nat} {b : Buddy d}
    (placed : Placed g tree d i addr) (aligned : 2 ^ (12 + d) ∣ addr)
    (loc : Local live addr b) (rep : Rep mem tree i b) :
    (∀ j, InSub d i j → ExactAt g mem tree live j) ↔ Precise mem tree i b := by
  induction b generalizing i addr with
  | free =>
    simp only [Precise, iff_true]
    exact full_exact placed aligned loc (rep_free_iff.mp rep)
  | @used d =>
    simp only [Precise, iff_true]
    intro j inside
    obtain ⟨e, a, here, lower, upper⟩ := sub_placed placed inside
    rw [exact_at_placed here]
    intro outside
    have used := loc.1 (addr, 12 + d) (by simp [blocks])
    exact absurd ⟨lower, upper⟩ (outside _ used)
  | @split d l r hl hr =>
    obtain ⟨left, right⟩ := placed_children placed
    have half : 2 ^ (12 + d) ∣ addr := Nat.dvd_trans (Nat.pow_dvd_pow 2 (by omega)) aligned
    obtain ⟨localLeft, localRight⟩ := local_children loc
    have onLeft := hl left half localLeft rep.1
    have onRight := hr right (Nat.dvd_add half (Nat.dvd_refl _)) localRight rep.2.1
    have root : ExactAt g mem tree live i ↔
        ∀ k, 12 ≤ k → (k ≤ mem (tree + i) ↔ k ≤ best 12 (Buddy.split l r)) := by
      rw [exact_at_placed placed]
      have outside := not_covered loc (by simp)
      constructor
      · intro exact_ k real
        rw [exact_ outside k real, local_room loc,
          ← room_iff _ (rep_normal rep) real (by decide) aligned]
      · intro precise _ k real
        rw [precise k real, local_room loc,
          ← room_iff _ (rep_normal rep) real (by decide) aligned]
    rw [Precise, ← root, ← onLeft, ← onRight]
    constructor
    · intro all
      exact ⟨all i (Or.inl rfl), fun j h => all j (in_sub_left h),
        fun j h => all j (in_sub_right h)⟩
    · rintro ⟨here, inLeft, inRight⟩ j (rfl | h | h)
      · exact here
      · exact inLeft j h
      · exact inRight j h

theorem precise_value {mem : Mem} {d i : Nat} {b : Buddy d} (rep : Rep mem tree i b)
    (precise : Precise mem tree i b) (k : Nat) (real : 12 ≤ k) :
    k ≤ mem (tree + i) ↔ k ≤ best 12 b := by
  cases b with
  | free => rw [full_value (rep_free_iff.mp rep), best]
  | used => rw [(rep_used_iff.mp rep).1, best]
  | split l r => exact precise.1 k real

theorem precise_congr {mem mem' : Mem} {d i : Nat} {b : Buddy d}
    (same : ∀ j, InSub d i j → mem' (tree + j) = mem (tree + j)) :
    Precise mem' tree i b ↔ Precise mem tree i b := by
  induction b generalizing i with
  | free => simp only [Precise]
  | used => simp only [Precise]
  | split l r hl hr =>
    rw [Precise, Precise, hl fun j h => same j (in_sub_left h),
      hr fun j h => same j (in_sub_right h), same i (in_sub_self _ i)]

/-- Both halves of a node that can serve a smaller request are precise when the node is. -/
theorem precise_halves {mem : Mem} {d i : Nat} {b : Buddy (d + 1)} {l r : Buddy d}
    (halves : b = .split l r ∨ b = .free ∧ l = .free ∧ r = .free)
    (precise : Precise mem tree i b) :
    Precise mem tree (leftChild i) l ∧ Precise mem tree (rightChild i) r := by
  rcases halves with rfl | ⟨rfl, rfl, rfl⟩
  · exact ⟨precise.2.1, precise.2.2⟩
  · simp [Precise]

theorem departed_precise {mem : Mem} {d i req : Nat} {l r : Buddy d}
    (left : ∀ k, 12 ≤ k → (k ≤ mem (tree + leftChild i) ↔ k ≤ best 12 l))
    (right : ∀ k, 12 ≤ k → (k ≤ mem (tree + rightChild i) ↔ k ≤ best 12 r)) :
    (∀ k, 12 ≤ k → (k ≤ departed mem tree i req ↔ k ≤ best 12 (Buddy.split l r))) ↔
      (mem (tree + i) = req →
        mem (tree + leftChild i) < 12 ∧ mem (tree + rightChild i) < 12) := by
  have onLeft := left 12 (Nat.le_refl _)
  have onRight := right 12 (Nat.le_refl _)
  unfold departed
  constructor
  · intro precise equal
    have none_left := precise 12 (Nat.le_refl _)
    simp only [if_pos equal, best, le_max_iff] at none_left
    omega
  · intro none_left k real
    split
    · rename_i equal
      have := none_left equal
      have := left k real
      have := right k real
      simp only [best, le_max_iff]
      omega
    · simp only [best, le_max_iff, left k real, right k real]

theorem precise_split_update {mem : Mem} {d i value : Nat} {l r : Buddy d} (pos : 0 < i) :
    Precise (Function.update mem (tree + i) value) tree i (.split l r) ↔
      (∀ k, 12 ≤ k → (k ≤ value ↔ k ≤ best 12 (Buddy.split l r))) ∧
        Precise mem tree (leftChild i) l ∧ Precise mem tree (rightChild i) r := by
  have outside := child_not_root (d := d) pos
  have left : Precise (Function.update mem (tree + i) value) tree (leftChild i) l ↔
      Precise mem tree (leftChild i) l := by
    refine precise_congr fun j inside => ?_
    have : j ≠ i := fun e => outside.1 (e ▸ inside)
    exact Function.update_of_ne (by omega) ..
  have right : Precise (Function.update mem (tree + i) value) tree (rightChild i) r ↔
      Precise mem tree (rightChild i) r := by
    refine precise_congr fun j inside => ?_
    have : j ≠ i := fun e => outside.2 (e ▸ inside)
    exact Function.update_of_ne (by omega) ..
  rw [Precise, Function.update_self, left, right]

theorem taken_precise {d : Nat} {b b' : Buddy d} {mem mem' : Mem} {i addr a req : Nat}
    (placed : Placed g tree d i addr) (notNull : 0 < addr) (rep : Rep mem tree i b)
    (real : 12 ≤ req) (enough : req ≤ mem (tree + i)) (precise : Precise mem tree i b)
    (taken : Taken g tree mem i addr req b a mem' b') :
    Precise mem' tree i b' ↔ DepartsExactly mem tree d i req := by
  induction d generalizing mem mem' i addr a with
  | zero =>
    have atMost := (rep_value rep).1
    have size : req = 12 + 0 := by omega
    have isFree := rep_free rep (by omega)
    subst isFree size
    obtain ⟨rfl, rfl⟩ := taken_unique taken (taken_here placed (rep_free_iff.mp rep))
    simp [Precise, DepartsExactly]
  | succ d ih =>
    have atMost := (rep_value rep).1
    have pos : 0 < i := Nat.lt_of_lt_of_le (Nat.two_pow_pos _) placed.first
    by_cases whole : req = 12 + (d + 1)
    · have isFree := rep_free rep (by omega)
      subst isFree whole
      obtain ⟨rfl, rfl⟩ := taken_unique taken (taken_here placed (rep_free_iff.mp rep))
      simp [Precise, DepartsExactly]
    · have below : req ≤ 12 + d := by omega
      obtain ⟨l, r, left, right, halves, value⟩ := open_node rep real enough
      obtain ⟨preciseLeft, preciseRight⟩ := precise_halves halves precise
      obtain ⟨placedLeft, placedRight⟩ := placed_children placed
      have outside := child_not_root (d := d) pos
      rw [DepartsExactly, or_iff_right (fun h => whole h.symm)]
      by_cases goLeft : req ≤ mem (tree + leftChild i)
      · obtain ⟨a1, mem1, l', inner⟩ := get_refines_take l placedLeft notNull left real goLeft
        obtain ⟨rfl, rfl⟩ := taken_unique taken
          (taken_left placed notNull rep right halves value real below enough goLeft inner)
        have rightSame : ∀ j, InSub d (rightChild i) j → mem1 (tree + j) = mem (tree + j) :=
          fun j inside => frame_node inner.frame fun h => sub_trees_disjoint pos h inside
        have same := frame_node inner.frame outside.1
        have least := inner.least
        have later := ih placedLeft notNull left goLeft preciseLeft inner
        have rightValue := rightSame _ (in_sub_self _ _)
        have rightRep := rep_congr (by simp only [rightChild]; omega) rightSame right
        rw [if_pos goLeft, ← later, precise_split_update pos]
        constructor
        · rintro ⟨shown, onLeft, onRight⟩
          refine ⟨fun equal => ?_, onLeft⟩
          have := (departed_precise (precise_value inner.rep onLeft)
            (precise_value rightRep onRight)).mp shown (same.trans equal)
          omega
        · rintro ⟨departs, onLeft⟩
          have onRight := (precise_congr rightSame).mpr preciseRight
          refine ⟨(departed_precise (precise_value inner.rep onLeft)
            (precise_value rightRep onRight)).mpr fun equal => ?_, onLeft, onRight⟩
          have equal' := same.symm.trans equal
          have := departs equal'
          omega
      · have goRight : req ≤ mem (tree + rightChild i) := by omega
        have notNull' : 0 < addr + 2 ^ (12 + d) := Nat.add_pos_left notNull _
        obtain ⟨a1, mem1, r', inner⟩ := get_refines_take r placedRight notNull' right real goRight
        obtain ⟨rfl, rfl⟩ := taken_unique taken
          (taken_right placed rep left halves value below enough goLeft inner)
        have leftSame : ∀ j, InSub d (leftChild i) j → mem1 (tree + j) = mem (tree + j) :=
          fun j inside => frame_node inner.frame fun h => sub_trees_disjoint pos inside h
        have same := frame_node inner.frame outside.2
        have least := inner.least
        have later := ih placedRight notNull' right goRight preciseRight inner
        have leftValue := leftSame _ (in_sub_self _ _)
        have leftRep := rep_congr (by simp only [leftChild]; omega) leftSame left
        rw [if_neg goLeft, ← later, precise_split_update pos]
        constructor
        · rintro ⟨shown, onLeft, onRight⟩
          refine ⟨fun equal => ?_, onRight⟩
          have := (departed_precise (precise_value leftRep onLeft)
            (precise_value inner.rep onRight)).mp shown (same.trans equal)
          omega
        · rintro ⟨departs, onRight⟩
          have onLeft := (precise_congr leftSame).mpr preciseLeft
          refine ⟨(departed_precise (precise_value leftRep onLeft)
            (precise_value inner.rep onRight)).mpr fun equal => ?_, onLeft, onRight⟩
          have equal' := same.symm.trans equal
          have := departs equal'
          omega

theorem coalesced_precise {mem : Mem} {d i : Nat} {l r : Buddy d} (pos : 0 < i)
    (left : Rep mem tree (leftChild i) l) (right : Rep mem tree (rightChild i) r)
    (onLeft : Precise mem tree (leftChild i) l) (onRight : Precise mem tree (rightChild i) r) :
    Precise (Function.update mem (tree + i) (coalesced mem tree i (12 + d))) tree i
      (join l r) := by
  by_cases bothFree : l = .free ∧ r = .free
  · obtain ⟨rfl, rfl⟩ := bothFree
    simp only [join, Precise]
  · have split : join l r = .split l r := by
      cases l <;> cases r <;> simp_all [join]
    have notBoth : ¬ (mem (tree + leftChild i) = 12 + d ∧ mem (tree + rightChild i) = 12 + d) :=
      fun h => bothFree ⟨rep_free left h.1, rep_free right h.2⟩
    rw [split, precise_split_update pos, coalesced, if_neg notBoth]
    refine ⟨fun k real => ?_, onLeft, onRight⟩
    simp only [best, le_max_iff, precise_value left onLeft k real,
      precise_value right onRight k real]

/-- A free recomputes every summary above the block, so exactness survives. -/
theorem given_precise {d : Nat} {b b' : Buddy d} {mem mem' : Mem} {i addr a k : Nat}
    (placed : Placed g tree d i addr) (rep : Rep mem tree i b)
    (live : (a, k) ∈ blocks 12 addr b) (precise : Precise mem tree i b)
    (given : Given g tree mem i addr k b a mem' b') : Precise mem' tree i b' := by
  induction b generalizing mem mem' i addr with
  | free => simp [blocks] at live
  | used =>
    simp only [blocks, List.mem_singleton, Prod.mk.injEq] at live
    obtain ⟨rfl, rfl⟩ := live
    obtain ⟨rfl, rfl⟩ := given_unique given (given_here placed rep)
    simp only [Precise]
  | @split d l r hl hr =>
    have pos : 0 < i := Nat.lt_of_lt_of_le (Nat.two_pow_pos _) placed.first
    obtain ⟨placedLeft, placedRight⟩ := placed_children placed
    simp only [blocks, List.mem_append] at live
    rcases live with inLeft | inRight
    · obtain ⟨mem1, l', inner⟩ := free_refines_give l placedLeft rep.1 inLeft
      obtain ⟨rfl, rfl⟩ := given_unique given (given_left placed rep inLeft inner)
      have rightSame : ∀ j, InSub d (rightChild i) j → mem1 (tree + j) = mem (tree + j) :=
        fun j inside => frame_node inner.frame fun h => sub_trees_disjoint pos h inside
      exact coalesced_precise pos inner.rep
        (rep_congr (by simp only [rightChild]; omega) rightSame rep.2.1)
        (hl placedLeft rep.1 inLeft precise.2.1 inner) ((precise_congr rightSame).mpr precise.2.2)
    · obtain ⟨mem1, r', inner⟩ := free_refines_give r placedRight rep.2.1 inRight
      obtain ⟨rfl, rfl⟩ := given_unique given (given_right placed rep inRight inner)
      have leftSame : ∀ j, InSub d (leftChild i) j → mem1 (tree + j) = mem (tree + j) :=
        fun j inside => frame_node inner.frame fun h => sub_trees_disjoint pos inside h
      exact coalesced_precise pos
        (rep_congr (by simp only [leftChild]; omega) leftSame rep.1) inner.rep
        ((precise_congr leftSame).mpr precise.2.1) (hr placedRight rep.2.1 inRight precise.2.2 inner)

end Tbma
