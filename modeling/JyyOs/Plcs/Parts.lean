import JyyOs.Plcs.Diagonals
import Mathlib.Data.List.Chain

/-!
How main splits the diagonals of the table among the threads. The entries stored for a round cut
its diagonal into parts of nearly the same size.
-/
namespace Plcs

section Parts

structure Part where
  startCol : Int
  startRow : Int
  endRow : Int
  deriving DecidableEq

def noPart : Part := ⟨0, 0, 0⟩

/-- The loop of main over the threads of a round, `left` of them to go. -/
def partLoop (diagonalEndRow blockSize : Int) : Nat → Int → Int → Int → List Part
  | 0, _, _, _ => []
  | left + 1, remainPart, startRow, startCol =>
    let threadBlockSize := if remainPart > 0 then blockSize + 1 else blockSize
    let remainPart := if remainPart > 0 then remainPart - 1 else remainPart
    let endRow := startRow + threadBlockSize - 1
    let endRow := if endRow > diagonalEndRow then diagonalEndRow else endRow
    ⟨startCol, startRow, endRow⟩ ::
      partLoop diagonalEndRow blockSize left remainPart (endRow + 1)
        (startCol - (endRow - startRow) - 1)

def partsOf (n m t round : Int) : List Part :=
  let diagonalStartCol := if round < m then round else m - 1
  let diagonalStartRow := if round < m then 0 else round - m + 1
  let diagonalEndRow := if round < n then round else n - 1
  let diagonalSize := diagonalEndRow - diagonalStartRow + 1
  if diagonalSize < t then
    partLoop diagonalEndRow 1 diagonalSize.toNat 0 diagonalStartRow diagonalStartCol
  else
    partLoop diagonalEndRow (Int.tdiv diagonalSize t) t.toNat (Int.tmod diagonalSize t)
      diagonalStartRow diagonalStartCol

def needThreadNum (n m t round : Int) : Int :=
  let diagonalStartRow := if round < m then 0 else round - m + 1
  let diagonalEndRow := if round < n then round else n - 1
  let diagonalSize := diagonalEndRow - diagonalStartRow + 1
  if diagonalSize < t then diagonalSize else t

def threadTodoList (n m t round : Int) (id : Nat) : Part :=
  if id = 0 then noPart else (partsOf n m t round).getD (id - 1) noPart

structure Splits (parts : List Part) (startRow endRow sum : Int) : Prop where
  inside : ∀ p ∈ parts, startRow ≤ p.startRow ∧ p.startRow ≤ p.endRow ∧ p.endRow ≤ endRow ∧
    p.startRow + p.startCol = sum
  covers : ∀ y, startRow ≤ y → y ≤ endRow → ∃ p ∈ parts, p.startRow ≤ y ∧ y ≤ p.endRow

def Tiles : Int → List Part → Int → Prop
  | startRow, [], endRow => startRow = endRow + 1
  | startRow, p :: rest, endRow =>
    p.startRow = startRow ∧ p.startRow ≤ p.endRow ∧ Tiles (p.endRow + 1) rest endRow

variable {parts : List Part} {startRow endRow : Int}

theorem tiles_inside (tiles : Tiles startRow parts endRow) :
    startRow ≤ endRow + 1 ∧ ∀ p ∈ parts, startRow ≤ p.startRow ∧ p.startRow ≤ p.endRow ∧
      p.endRow ≤ endRow := by
  induction parts generalizing startRow with
  | nil =>
    have last : startRow = endRow + 1 := tiles
    exact ⟨Int.le_of_eq last, fun p mem => absurd mem List.not_mem_nil⟩
  | cons q rest ih =>
    obtain ⟨first, rows, later⟩ := tiles
    obtain ⟨stop, inside⟩ := ih later
    refine ⟨by omega, fun p mem => ?_⟩
    rcases List.mem_cons.mp mem with rfl | mem
    · exact ⟨by omega, rows, by omega⟩
    · obtain ⟨start, rows', stop'⟩ := inside p mem
      exact ⟨by omega, rows', stop'⟩

theorem tiles_cover (tiles : Tiles startRow parts endRow) {y : Int} (low : startRow ≤ y)
    (high : y ≤ endRow) : ∃ p ∈ parts, p.startRow ≤ y ∧ y ≤ p.endRow := by
  induction parts generalizing startRow with
  | nil =>
    have last : startRow = endRow + 1 := tiles
    omega
  | cons q rest ih =>
    obtain ⟨first, _, later⟩ := tiles
    by_cases here : y ≤ q.endRow
    · exact ⟨q, List.mem_cons_self, by omega, here⟩
    · obtain ⟨p, mem, inside⟩ := ih later (by omega)
      exact ⟨p, List.mem_cons_of_mem _ mem, inside⟩

theorem tiles_disjoint (tiles : Tiles startRow parts endRow) :
    parts.Pairwise fun p q => p.endRow < q.startRow := by
  induction parts generalizing startRow with
  | nil => exact List.Pairwise.nil
  | cons p rest ih =>
    obtain ⟨_, _, later⟩ := tiles
    refine List.Pairwise.cons (fun q mem => ?_) (ih later)
    have start := ((tiles_inside later).2 q mem).1
    omega

theorem tiles_consecutive (tiles : Tiles startRow parts endRow) :
    parts.IsChain fun p q => q.startRow = p.endRow + 1 := by
  induction parts generalizing startRow with
  | nil => exact List.IsChain.nil
  | cons p rest ih =>
    obtain ⟨_, _, later⟩ := tiles
    cases rest with
    | nil => exact List.IsChain.singleton p
    | cons q rest => exact List.IsChain.cons_cons later.1 (ih later)

/-- What the loop stores for a diagonal: sizes of one block, or one more. -/
structure Stored (parts : List Part) (startRow endRow sum blockSize : Int) : Prop where
  tiles : Tiles startRow parts endRow
  sum : ∀ p ∈ parts, p.startRow + p.startCol = sum
  size : ∀ p ∈ parts, blockSize ≤ p.endRow - p.startRow + 1 ∧ p.endRow - p.startRow ≤ blockSize

theorem Stored.splits {sum blockSize : Int} (stored : Stored parts startRow endRow sum blockSize) :
    Splits parts startRow endRow sum where
  inside := fun p mem => by
    obtain ⟨start, rows, stop⟩ := (tiles_inside stored.tiles).2 p mem
    exact ⟨start, rows, stop, stored.sum p mem⟩
  covers := fun _ low high => tiles_cover stored.tiles low high

theorem part_loop_stored {blockSize : Int} (some_row : 1 ≤ blockSize) (left : Nat)
    (startCol : Int) {remainPart : Int} (rest : 0 ≤ remainPart) (few : remainPart ≤ left)
    (rows : endRow - startRow + 1 = left * blockSize + remainPart) :
    (partLoop endRow blockSize left remainPart startRow startCol).length = left ∧
      Stored (partLoop endRow blockSize left remainPart startRow startCol) startRow endRow
        (startRow + startCol) blockSize := by
  induction left generalizing startCol remainPart startRow with
  | zero =>
    simp only [Nat.cast_zero, Int.zero_mul] at rows few
    refine ⟨rfl, ?_, fun p mem => absurd mem List.not_mem_nil, fun p mem =>
      absurd mem List.not_mem_nil⟩
    rw [partLoop, Tiles]
    omega
  | succ left ih =>
    have parts : ((left + 1 : Nat) : Int) * blockSize = left * blockSize + blockSize := by
      push_cast
      ring
    have others : 0 ≤ (left : Int) * blockSize := Int.mul_nonneg (by omega) (by omega)
    rw [parts] at rows
    obtain ⟨size, size_eq⟩ : ∃ size, size = if remainPart > 0 then blockSize + 1 else blockSize :=
      ⟨_, rfl⟩
    obtain ⟨rest', rest_eq⟩ : ∃ r, r = if remainPart > 0 then remainPart - 1 else remainPart :=
      ⟨_, rfl⟩
    have values : size = blockSize + 1 ∧ rest' = remainPart - 1 ∧ 0 < remainPart ∨
        size = blockSize ∧ rest' = remainPart ∧ remainPart = 0 := by
      by_cases more : remainPart > 0
      · rw [if_pos more] at size_eq rest_eq
        exact .inl ⟨size_eq, rest_eq, more⟩
      · rw [if_neg more] at size_eq rest_eq
        exact .inr ⟨size_eq, rest_eq, by omega⟩
    have whole : ¬startRow + size - 1 > endRow := by omega
    have first : startRow ≤ startRow + size - 1 := by omega
    have sizes : blockSize ≤ startRow + size - 1 - startRow + 1 ∧
        startRow + size - 1 - startRow ≤ blockSize := by omega
    have rows' : endRow - (startRow + size - 1 + 1) + 1 = left * blockSize + rest' := by omega
    obtain ⟨length, stored⟩ := ih (startCol - (startRow + size - 1 - startRow) - 1)
      (by omega) (by omega) rows'
    have sum : startRow + size - 1 + 1 + (startCol - (startRow + size - 1 - startRow) - 1) =
        startRow + startCol := by omega
    rw [sum] at stored
    simp only [partLoop, ← size_eq, ← rest_eq, if_neg whole]
    refine ⟨by rw [List.length_cons, length], ⟨rfl, first, stored.tiles⟩, fun p mem => ?_,
      fun p mem => ?_⟩
    · rcases List.mem_cons.mp mem with rfl | mem
      · rfl
      · exact stored.sum p mem
    · rcases List.mem_cons.mp mem with rfl | mem
      · exact sizes
      · exact stored.size p mem

end Parts

section Todo

structure Job where
  a : List UInt8
  b : List UInt8
  t : Nat
  some_a : 1 ≤ a.length
  small_a : a.length ≤ maxN
  some_b : 1 ≤ b.length
  small_b : b.length ≤ maxN
  threads : 2 ≤ t
  few : t < maxThread

variable (job : Job)

def Job.rounds : Nat := job.a.length + job.b.length - 1

def Job.part (round id : Nat) : Part :=
  threadTodoList job.a.length job.b.length job.t round id

def Job.parts (round : Nat) : List Part := partsOf job.a.length job.b.length job.t round

def Idle (p : Part) (id : Nat) : Prop :=
  p.startCol = p.startRow ∧ p.startCol = p.endRow ∧ p.startCol = 0 ∧ id ≠ 1

instance (p : Part) (id : Nat) : Decidable (Idle p id) := instDecidableAnd

def Job.Mine (round id : Nat) (y : Int) : Prop :=
  ¬Idle (job.part round id) id ∧ (job.part round id).startRow ≤ y ∧ y ≤ (job.part round id).endRow

variable {job} {round id : Nat}

theorem round_known (known : round < job.rounds) : round + 1 < job.a.length + job.b.length := by
  unfold Job.rounds at known
  omega

theorem parts_of_stored (known : round < job.rounds) : ∃ startRow endRow blockSize : Int,
    Stored (job.parts round) startRow endRow round blockSize ∧
      ((job.parts round).length : Int) =
        needThreadNum job.a.length job.b.length job.t round ∧
      ((job.parts round).length : Int) = min (endRow - startRow + 1) job.t ∧
      1 ≤ endRow - startRow + 1 ∧ (round = 0 → endRow - startRow + 1 = 1) ∧
      ∀ y, startRow ≤ y ∧ y ≤ endRow ↔ OnDiagonal job.a job.b round y := by
  have range := round_known known
  have some_a := job.some_a
  have some_b := job.some_b
  have threads := job.threads
  obtain ⟨startCol, startCol_eq⟩ : ∃ c : Int,
    c = if (round : Int) < job.b.length then (round : Int) else job.b.length - 1 := ⟨_, rfl⟩
  obtain ⟨startRow, startRow_eq⟩ : ∃ c : Int,
    c = if (round : Int) < job.b.length then 0 else (round : Int) - job.b.length + 1 := ⟨_, rfl⟩
  obtain ⟨endRow, endRow_eq⟩ : ∃ c : Int,
    c = if (round : Int) < job.a.length then (round : Int) else job.a.length - 1 := ⟨_, rfl⟩
  have sum : startRow + startCol = round := by
    rw [startRow_eq, startCol_eq]
    split <;> omega
  have rows : ∀ y, startRow ≤ y ∧ y ≤ endRow ↔ OnDiagonal job.a job.b round y := by
    intro y
    unfold OnDiagonal
    rw [startRow_eq, endRow_eq]
    split <;> split <;> omega
  have size : 1 ≤ endRow - startRow + 1 := by
    rw [startRow_eq, endRow_eq]
    split <;> split <;> omega
  have first : round = 0 → endRow - startRow + 1 = 1 := by
    intro zero
    rw [startRow_eq, endRow_eq, zero]
    split <;> split <;> omega
  simp only [Job.parts, partsOf, needThreadNum, ← startCol_eq, ← startRow_eq, ← endRow_eq]
  by_cases few : endRow - startRow + 1 < job.t
  · rw [if_pos few, if_pos few]
    have count : ((endRow - startRow + 1).toNat : Int) = endRow - startRow + 1 :=
      Int.toNat_of_nonneg (by omega)
    obtain ⟨length, stored⟩ := part_loop_stored (Int.le_refl 1) (endRow - startRow + 1).toNat
      startCol (Int.le_refl 0) (by omega) (by rw [count, Int.mul_one, Int.add_zero])
    rw [sum] at stored
    rw [length]
    exact ⟨startRow, endRow, 1, stored, count, by omega, size, first, rows⟩
  · rw [if_neg few, if_neg few]
    have positive : (0 : Int) < job.t := by omega
    have nonneg : 0 ≤ endRow - startRow + 1 := by omega
    have parts := Int.mul_tdiv_add_tmod (endRow - startRow + 1) job.t
    have rest := Int.tmod_nonneg (job.t : Int) nonneg
    have below := Int.tmod_lt_of_pos (endRow - startRow + 1) positive
    have block : 1 ≤ Int.tdiv (endRow - startRow + 1) job.t := by
      by_contra none
      have nothing : Int.tdiv (endRow - startRow + 1) job.t ≤ 0 := by omega
      have product := Int.mul_nonpos_of_nonneg_of_nonpos (Int.le_of_lt positive) nothing
      omega
    have rows' : endRow - startRow + 1 = ((job.t : Int).toNat : Int) *
        Int.tdiv (endRow - startRow + 1) job.t + Int.tmod (endRow - startRow + 1) job.t := by
      rw [Int.toNat_natCast]
      omega
    obtain ⟨length, stored⟩ :=
      part_loop_stored block (job.t : Int).toNat startCol rest (by omega) rows'
    rw [sum] at stored
    rw [length, Int.toNat_natCast]
    exact ⟨startRow, endRow, _, stored, rfl, by omega, size, first, rows⟩

theorem parts_of_splits (known : round < job.rounds) :
    (job.parts round).length ≤ job.t ∧ 1 ≤ (job.parts round).length ∧
      (round = 0 → (job.parts round).length = 1) ∧
      ∃ startRow endRow : Int, Splits (job.parts round) startRow endRow round ∧
        ∀ y, startRow ≤ y ∧ y ≤ endRow ↔ OnDiagonal job.a job.b round y := by
  obtain ⟨startRow, endRow, _, stored, _, length, some_row, first, rows⟩ := parts_of_stored known
  have threads := job.threads
  refine ⟨by omega, by omega, fun zero => ?_, startRow, endRow, stored.splits, rows⟩
  have one := first zero
  omega

theorem part_listed (known : round < job.rounds) (real : 1 ≤ id) :
    Idle (job.part round id) id ∧ (job.part round id).startRow ≤ (job.part round id).endRow ∨
      ¬Idle (job.part round id) id ∧ job.part round id ∈ job.parts round := by
  obtain ⟨_, some_part, first, startRow, endRow, splits, _⟩ := parts_of_splits known
  rw [Job.part, threadTodoList, if_neg (by omega), ← Job.parts]
  by_cases stored : id - 1 < (job.parts round).length
  · rw [List.getD_eq_getElem _ _ stored]
    have mem := List.getElem_mem stored
    refine .inr ⟨?_, mem⟩
    rintro ⟨row, _, zero, other⟩
    have sum := (splits.inside _ mem).2.2.2
    have length := first (by omega)
    omega
  · rw [List.getD_eq_default _ _ (Nat.le_of_not_lt stored)]
    exact .inl ⟨⟨rfl, rfl, rfl, by omega⟩, Int.le_refl 0⟩

theorem part_ordered (known : round < job.rounds) (real : 1 ≤ id) :
    (job.part round id).startRow ≤ (job.part round id).endRow := by
  obtain ⟨_, _, _, startRow, endRow, splits, _⟩ := parts_of_splits known
  rcases part_listed known real with ⟨_, ordered⟩ | ⟨_, mem⟩
  · exact ordered
  · exact (splits.inside _ mem).2.1

theorem mine_inside (known : round < job.rounds) (real : 1 ≤ id) {y : Int}
    (mine : job.Mine round id y) : OnDiagonal job.a job.b round y ∧
      (job.part round id).startRow + (job.part round id).startCol = round := by
  obtain ⟨_, _, _, startRow, endRow, splits, rows⟩ := parts_of_splits known
  obtain ⟨busy, low, high⟩ := mine
  rcases part_listed known real with ⟨idle, _⟩ | ⟨_, mem⟩
  · exact absurd idle busy
  · obtain ⟨start, _, stop, sum⟩ := splits.inside _ mem
    exact ⟨(rows y).mp ⟨by omega, by omega⟩, sum⟩

theorem mine_covers (known : round < job.rounds) {y : Int}
    (cell : OnDiagonal job.a job.b round y) : ∃ id, 1 ≤ id ∧ id ≤ job.t ∧ job.Mine round id y := by
  obtain ⟨few, _, first, startRow, endRow, splits, rows⟩ := parts_of_splits known
  obtain ⟨low, high⟩ := (rows y).mpr cell
  obtain ⟨p, mem, inside⟩ := splits.covers y low high
  obtain ⟨i, stored, here⟩ := List.mem_iff_getElem.mp mem
  have entry : job.part round (i + 1) = p := by
    rw [Job.part, threadTodoList, if_neg (Nat.succ_ne_zero i), Nat.add_sub_cancel, ← Job.parts,
      List.getD_eq_getElem _ _ stored, here]
  refine ⟨i + 1, by omega, by omega, ?_, entry ▸ inside⟩
  rintro ⟨row, _, zero, other⟩
  rw [entry] at row zero
  have sum := (splits.inside p mem).2.2.2
  have length := first (by omega)
  omega

theorem part_entry (real : 1 ≤ id) : job.part round id = (job.parts round).getD (id - 1) noPart := by
  rw [Job.part, threadTodoList, if_neg (by omega)]
  rfl

theorem part_mem (real : 1 ≤ id) (stored : id ≤ (job.parts round).length) :
    job.part round id ∈ job.parts round := by
  rw [part_entry real, List.getD_eq_getElem _ _ (by omega)]
  exact List.getElem_mem ..

end Todo

section Partition

/-- The entries of threads 1 to need_thread_num split the diagonal of the round evenly; the others
    are left zero. -/
structure ExactPartition (job : Job) (round : Nat) (need : Nat) : Prop where
  count : (need : Int) = needThreadNum job.a.length job.b.length job.t round
  some_thread : 1 ≤ need
  threads : need ≤ job.t
  nonempty : ∀ id, 1 ≤ id → id ≤ need → (job.part round id).startRow ≤ (job.part round id).endRow
  disjoint : ∀ id id', 1 ≤ id → id < id' → id' ≤ need →
    (job.part round id).endRow < (job.part round id').startRow
  consecutive : ∀ id, 1 ≤ id → id < need →
    (job.part round (id + 1)).startRow = (job.part round id).endRow + 1
  rows : ∀ y : Int, (∃ id, 1 ≤ id ∧ id ≤ need ∧ (job.part round id).startRow ≤ y ∧
    y ≤ (job.part round id).endRow) ↔ OnDiagonal job.a job.b round y
  sum : ∀ id, 1 ≤ id → id ≤ need →
    (job.part round id).startRow + (job.part round id).startCol = round
  sizes : ∀ id id', 1 ≤ id → id ≤ need → 1 ≤ id' → id' ≤ need →
    (job.part round id).endRow - (job.part round id).startRow ≤
      (job.part round id').endRow - (job.part round id').startRow + 1
  working : ∀ id, 2 ≤ id → id ≤ need → job.part round id ≠ noPart
  idle : ∀ id, need < id → job.part round id = noPart

variable {job : Job} {round : Nat}

theorem main_partitions_diagonal (known : round < job.rounds) :
    ExactPartition job round (job.parts round).length := by
  obtain ⟨startRow, endRow, blockSize, stored, count, length, some_row, first, rows⟩ :=
    parts_of_stored known
  have threads := job.threads
  have inside := (tiles_inside stored.tiles).2
  constructor
  · exact count
  · omega
  · omega
  · intro id real listed
    exact (inside _ (part_mem real listed)).2.1
  · intro id id' real before listed
    rw [part_entry real, part_entry (by omega), List.getD_eq_getElem _ _ (by omega),
      List.getD_eq_getElem _ _ (by omega)]
    exact List.pairwise_iff_getElem.mp (tiles_disjoint stored.tiles) _ _ (by omega) (by omega)
      (by omega)
  · intro id real before
    have next : id + 1 - 1 = id - 1 + 1 := by omega
    rw [part_entry real, part_entry (by omega), next, List.getD_eq_getElem _ _ (by omega),
      List.getD_eq_getElem _ _ (by omega)]
    exact (tiles_consecutive stored.tiles).getElem (id - 1) (by omega)
  · intro y
    rw [← rows y]
    constructor
    · rintro ⟨id, real, listed, low, high⟩
      obtain ⟨start, _, stop⟩ := inside _ (part_mem real listed)
      exact ⟨by omega, by omega⟩
    · rintro ⟨low, high⟩
      obtain ⟨p, mem, here⟩ := tiles_cover stored.tiles low high
      obtain ⟨i, below, entry⟩ := List.mem_iff_getElem.mp mem
      refine ⟨i + 1, by omega, by omega, ?_⟩
      rwa [part_entry (by omega), Nat.add_sub_cancel, List.getD_eq_getElem _ _ below, entry]
  · intro id real listed
    exact stored.sum _ (part_mem real listed)
  · intro id id' real listed real' listed'
    have upper := (stored.size _ (part_mem real listed)).2
    have lower := (stored.size _ (part_mem real' listed')).1
    omega
  · intro id other listed zero
    have sum := stored.sum _ (part_mem (by omega) listed)
    rw [zero] at sum
    have first_round : (0 : Int) + 0 = round := sum
    have one := first (by omega)
    omega
  · intro id behind
    rw [part_entry (by omega), List.getD_eq_default _ _ (by omega)]

/-- Five and four letters, three threads: four rows in parts of two, one and one. -/
def unevenJob : Job :=
  ⟨[97, 98, 99, 100, 101], [97, 98, 99, 100], 3, by decide, by decide, by decide, by decide,
    by decide, by decide⟩

theorem main_partitions_uneven : unevenJob.parts 3 = [⟨3, 0, 1⟩, ⟨1, 2, 2⟩, ⟨0, 3, 3⟩] ∧
    ExactPartition unevenJob 3 (unevenJob.parts 3).length :=
  ⟨by decide, main_partitions_diagonal (by decide)⟩

end Partition

end Plcs
