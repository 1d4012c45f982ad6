import JyyOs.Library.ByteCopy
import Mathlib.Data.Int.Basic

/-!
dev_sd.c: byte-granular reads and writes of a block device. AM_DISK_BLKIO moves the named block,
blk_read and blk_write return once the disk is ready. A missing disk, a block the disk does not
have and an access outside sd->buf are `none`. Blocks are never empty, so nothing divides by zero.
-/
namespace DevSd
open ByteCopy

structure Sd where
  blkcnt : Nat
  blksz : Nat
  buf : Nat → UInt8

structure Disk where
  sd : Sd
  bytes : Nat → UInt8

def toUint32 (n : Int) : Nat := (n % 4294967296).toNat

def toInt (n : Nat) : Int := ((n : Int) + 2147483648) % 4294967296 - 2147483648

/-- ROUNDDOWN, with the mask computed in uint32_t. -/
def roundDown (a : Int) (sz : Nat) : Nat :=
  (a % 18446744073709551616).toNat &&& (4294967295 - toUint32 (sz - 1))

def blkRead (d : Disk) (blkno : Nat) : Option Disk :=
  if blkno < d.sd.blkcnt then
    some { d with
      sd := { d.sd with buf := copy d.sd.buf 0 d.bytes (blkno * d.sd.blksz) d.sd.blksz } }
  else none

def blkWrite (d : Disk) (blkno : Nat) : Option Disk :=
  if blkno < d.sd.blkcnt then
    some { d with bytes := copy d.bytes (blkno * d.sd.blksz) d.sd.buf 0 d.sd.blksz }
  else none

def InBuf (sd : Sd) (first : Int) (n : Nat) : Prop := 0 ≤ first ∧ first + n ≤ sd.blksz

instance (sd : Sd) (first : Int) (n : Nat) : Decidable (InBuf sd first n) := by
  unfold InBuf
  infer_instance

def chunk (sd : Sd) (st : Nat) (offset : Int) (pos : Nat) (count : Int) : Nat :=
  let n := toUint32 (sd.blksz - (offset - st))
  if n > toUint32 (count - pos) then toUint32 (count - pos) else n

def sdReadLoop (count : Int) :
    Nat → Disk → Nat → Int → Nat → (Nat → UInt8) → Option (Int × (Nat → UInt8) × Disk)
  | 0, _, _, _, _, _ => none
  | rounds + 1, d, st, offset, pos, buf =>
    if pos < toUint32 count then
      let n := chunk d.sd st offset pos count
      match blkRead d (st / d.sd.blksz) with
      | none => none
      | some d =>
        if InBuf d.sd (offset - st) n then
          let buf := copy buf pos d.sd.buf (offset - st).toNat n
          let pos := toUint32 (pos + n)
          let offset := toInt (toUint32 (st + d.sd.blksz))
          sdReadLoop count rounds d (toUint32 offset) offset pos buf
        else none
    else some (toInt pos, buf, d)

def sdRead (rounds : Nat) (dev : Option Disk) (offset : Int) (buf : Nat → UInt8) (count : Int) :
    Option (Int × (Nat → UInt8) × Disk) :=
  match dev with
  | none => none
  | some d => sdReadLoop count rounds d (roundDown offset d.sd.blksz) offset 0 buf

def writeBlock (d : Disk) (st : Nat) (offset : Int) (buf : Nat → UInt8) (pos n : Nat) :
    Option Disk :=
  match if n < d.sd.blksz then blkRead d (st / d.sd.blksz) else some d with
  | none => none
  | some d =>
    if InBuf d.sd (offset - st) n then
      blkWrite { d with sd := { d.sd with buf := copy d.sd.buf (offset - st).toNat buf pos n } }
        (st / d.sd.blksz)
    else none

def sdWriteLoop (count : Int) (buf : Nat → UInt8) :
    Nat → Disk → Nat → Int → Nat → Option (Int × Disk)
  | 0, _, _, _, _ => none
  | rounds + 1, d, st, offset, pos =>
    if pos < toUint32 count then
      let n := chunk d.sd st offset pos count
      match writeBlock d st offset buf pos n with
      | none => none
      | some d =>
        let pos := toUint32 (pos + n)
        let offset := toInt (toUint32 (st + d.sd.blksz))
        sdWriteLoop count buf rounds d (toUint32 offset) offset pos
    else some (toInt pos, d)

def sdWrite (rounds : Nat) (dev : Option Disk) (offset : Int) (buf : Nat → UInt8) (count : Int) :
    Option (Int × Disk) :=
  match dev with
  | none => none
  | some d => sdWriteLoop count buf rounds d (roundDown offset d.sd.blksz) offset 0

/-- The geometry of a disk of `2 ^ k`-byte blocks, in uint32_t. -/
structure Geometry (sd : Sd) (k : Nat) : Prop where
  blksz : sd.blksz = 2 ^ k
  fits : k < 32

variable {d d' : Disk} {buf : Nat → UInt8} {k : Nat}

theorem mask_eq (small : k < 32) : 4294967295 - (2 ^ k - 1) = 2 ^ k * (2 ^ (32 - k) - 1) := by
  have split : 2 ^ k * 2 ^ (32 - k) = 4294967296 := by
    rw [← Nat.pow_add, Nat.add_sub_cancel' (Nat.le_of_lt small)]
  have pos := Nat.two_pow_pos k
  rw [Nat.mul_sub, split]
  omega

theorem and_mask {a : Nat} (small : k < 32) (fits : a < 4294967296) :
    a &&& (2 ^ k * (2 ^ (32 - k) - 1)) = a / 2 ^ k * 2 ^ k := by
  apply Nat.eq_of_testBit_eq
  intro i
  rw [Nat.testBit_and, Nat.testBit_two_pow_mul, Nat.testBit_two_pow_sub_one,
    Nat.testBit_mul_two_pow, Nat.testBit_div_two_pow]
  by_cases low : k ≤ i
  · by_cases high : i < 32
    · have inside : i - k < 32 - k := by omega
      simp [low, inside]
    · have above : a < 2 ^ i := by
        have more : 2 ^ 32 ≤ 2 ^ i := Nat.pow_le_pow_right (by decide) (by omega)
        omega
      simp [low, Nat.testBit_lt_two_pow above]
  · simp [low]

theorem round_down_eq {sd : Sd} (geometry : Geometry sd k) {a : Nat} (fits : a < 2147483648) :
    roundDown a sd.blksz = a / sd.blksz * sd.blksz := by
  have low : ((a : Int) % 18446744073709551616).toNat = a := by omega
  have pos := Nat.two_pow_pos k
  have block : 2 ^ k < 4294967296 := by
    have less := Nat.pow_lt_pow_right (by decide : 1 < 2) geometry.fits
    omega
  have mask : toUint32 (((2 ^ k : Nat) : Int) - 1) = 2 ^ k - 1 := by
    unfold toUint32
    omega
  rw [roundDown, geometry.blksz, mask, low, mask_eq geometry.fits]
  exact and_mask geometry.fits (by omega)

theorem chunk_eq {sd : Sd} {cur pos count : Nat} (block : sd.blksz < 4294967296)
    (pos' : 0 < sd.blksz) (more : pos < count) (fits : count < 2147483648) :
    chunk sd (cur / sd.blksz * sd.blksz) cur pos count =
      min (sd.blksz - cur % sd.blksz) (count - pos) := by
  have within := Nat.mod_lt cur pos'
  have split := Nat.div_add_mod' cur sd.blksz
  generalize cur / sd.blksz * sd.blksz = st at *
  generalize cur % sd.blksz = rest at *
  have first : toUint32 (sd.blksz - ((cur : Int) - st)) = sd.blksz - rest := by
    unfold toUint32
    omega
  have left : toUint32 ((count : Int) - pos) = count - pos := by
    unfold toUint32
    omega
  simp only [chunk, first, left]
  split
  · omega
  · omega

theorem next_block {sz cur pos count n : Nat} (positive : 0 < sz)
    (moved : n = min (sz - cur % sz) (count - pos)) (more : pos + n < count)
    (below : cur + (count - pos) < 2147483648) :
    toInt (toUint32 (((cur / sz * sz : Nat) : Int) + sz)) = (cur + n : Nat) ∧
      cur + n = (cur + n) / sz * sz := by
  have within := Nat.mod_lt cur positive
  have split := Nat.div_add_mod' cur sz
  have whole : n = sz - cur % sz := by omega
  have next : cur + n = (cur / sz + 1) * sz := by
    rw [Nat.add_mul, Nat.one_mul]
    omega
  refine ⟨?_, ?_⟩
  · rw [Nat.add_mul, Nat.one_mul] at next
    generalize cur / sz * sz = st at *
    unfold toInt toUint32
    omega
  · rw [next, Nat.mul_div_cancel _ positive]

def SameDevice (d d' : Disk) : Prop := d'.sd.blkcnt = d.sd.blkcnt ∧ d'.sd.blksz = d.sd.blksz

theorem SameDevice.refl (d : Disk) : SameDevice d d := ⟨rfl, rfl⟩

theorem SameDevice.trans {d m d' : Disk} (first : SameDevice d m) (second : SameDevice m d') :
    SameDevice d d' :=
  ⟨second.1.trans first.1, second.2.trans first.2⟩

structure OneBlock (d : Disk) (cur n : Nat) : Prop where
  block : cur / d.sd.blksz < d.sd.blkcnt
  inside : cur % d.sd.blksz + n ≤ d.sd.blksz
  positive : 0 < d.sd.blksz

theorem one_block {cur n count pos : Nat} (positive : 0 < d.sd.blksz)
    (moved : n = min (d.sd.blksz - cur % d.sd.blksz) (count - pos)) (more : pos < count)
    (inside : cur + (count - pos) ≤ d.sd.blksz * d.sd.blkcnt) : OneBlock d cur n := by
  have within := Nat.mod_lt cur positive
  exact ⟨Nat.div_lt_of_lt_mul (by omega), by omega, positive⟩

theorem OneBlock.start {cur n : Nat} (one : OneBlock d cur n) :
    cur / d.sd.blksz * d.sd.blksz / d.sd.blksz = cur / d.sd.blksz :=
  Nat.mul_div_cancel _ one.positive

theorem block_first (d : Disk) (cur : Nat) :
    (cur : Int) - (cur / d.sd.blksz * d.sd.blksz : Nat) = (cur % d.sd.blksz : Nat) := by
  have split := Nat.div_add_mod' cur d.sd.blksz
  generalize cur / d.sd.blksz * d.sd.blksz = st at *
  omega

theorem OneBlock.in_buf {cur n : Nat} (one : OneBlock d cur n) {sd : Sd}
    (same : sd.blksz = d.sd.blksz) : InBuf sd (cur % d.sd.blksz : Nat) n := by
  have inside := one.inside
  unfold InBuf
  rw [same]
  omega

theorem write_block {cur n : Nat} (one : OneBlock d cur n) (buf : Nat → UInt8) (pos : Nat) :
    ∃ d', writeBlock d (cur / d.sd.blksz * d.sd.blksz) cur buf pos n = some d' ∧
      SameDevice d d' ∧ d'.bytes = copy d.bytes cur buf pos n := by
  have split := Nat.div_add_mod' cur d.sd.blksz
  have written : ∀ m : Disk, m.sd.blksz = d.sd.blksz → m.sd.blkcnt = d.sd.blkcnt →
      m.bytes = d.bytes →
      (∀ i, i < d.sd.blksz → i < cur % d.sd.blksz ∨ cur % d.sd.blksz + n ≤ i →
        m.sd.buf i = d.bytes (cur / d.sd.blksz * d.sd.blksz + i)) →
      ∃ d', blkWrite ⟨⟨m.sd.blkcnt, m.sd.blksz, copy m.sd.buf (cur % d.sd.blksz) buf pos n⟩,
          m.bytes⟩ (cur / d.sd.blksz) = some d' ∧
        SameDevice d d' ∧ d'.bytes = copy d.bytes cur buf pos n := by
    intro m sz cnt bytes holds
    refine ⟨_, if_pos (cnt ▸ one.block), ⟨cnt, sz⟩, ?_⟩
    simp only [sz, bytes]
    rw [copy_patched one.inside holds, split]
  unfold writeBlock
  rw [one.start, block_first]
  by_cases part : n < d.sd.blksz
  · rw [if_pos part, blkRead, if_pos one.block]
    simp only [one.in_buf, if_true, Int.toNat_natCast, one.start]
    let read := copy d.sd.buf 0 d.bytes (cur / d.sd.blksz * d.sd.blksz) d.sd.blksz
    have holds : ∀ i, i < d.sd.blksz →
        read i = d.bytes (cur / d.sd.blksz * d.sd.blksz + i) := by
      intro i inside
      exact (copy_inside (Nat.zero_le i) (by omega)).trans (by rw [Nat.sub_zero])
    exact written ⟨⟨d.sd.blkcnt, d.sd.blksz, read⟩, d.bytes⟩ rfl rfl rfl
      fun i inside _ => holds i inside
  · have inside := one.inside
    rw [if_neg part]
    simp only [one.in_buf, if_true, Int.toNat_natCast, one.start]
    exact written d rfl rfl rfl fun i _ _ => by omega

theorem to_int_small {n : Nat} (small : n < 2147483648) : toInt n = n := by
  unfold toInt
  omega

theorem to_uint32_small {n : Nat} (small : n < 4294967296) : toUint32 n = n := by
  unfold toUint32
  omega

structure Here (d : Disk) (cur pos count st : Nat) (offset : Int) : Prop where
  upto : pos ≤ count
  below : cur + (count - pos) < 2147483648
  fits : count < 2147483648
  inside : cur + (count - pos) ≤ d.sd.blksz * d.sd.blkcnt
  place : pos < count → offset = cur ∧ st = cur / d.sd.blksz * d.sd.blksz

variable {cur pos count st : Nat} {offset : Int}

theorem here_next (geometry : Geometry d.sd k) (here : Here d cur pos count st offset)
    (more : pos < count) :
    ∃ n, 0 < n ∧ pos + n ≤ count ∧ chunk d.sd st offset pos count = n ∧ OneBlock d cur n ∧
      toUint32 (pos + n) = pos + n ∧
      ∀ d', SameDevice d d' → Here d' (cur + n) (pos + n) count
        (toUint32 (toInt (toUint32 (st + d'.sd.blksz)))) (toInt (toUint32 (st + d'.sd.blksz))) := by
  have positive : 0 < d.sd.blksz := by
    rw [geometry.blksz]
    exact Nat.two_pow_pos k
  have block : d.sd.blksz < 4294967296 := by
    have less := Nat.pow_lt_pow_right (by decide : 1 < 2) geometry.fits
    rw [geometry.blksz]
    omega
  obtain ⟨rfl, rfl⟩ := here.place more
  have within := Nat.mod_lt cur positive
  have fits := here.fits
  have below := here.below
  refine ⟨_, ?_, ?_, chunk_eq block positive more fits, one_block positive rfl more here.inside,
    to_uint32_small ?_, fun d' same => ⟨?_, ?_, fits, ?_, fun left => ?_⟩⟩
  · omega
  · omega
  · omega
  · omega
  · omega
  · rw [same.1, same.2]
    have inside := here.inside
    omega
  · obtain ⟨next, start⟩ := next_block positive rfl left below
    rw [same.2, next]
    refine ⟨rfl, ?_⟩
    rw [← start]
    exact to_uint32_small (by omega)

theorem sd_write_loop (geometry : Geometry d.sd k) (here : Here d cur pos count st offset)
    {rounds : Nat} (enough : count - pos < rounds) :
    ∃ d', sdWriteLoop count buf rounds d st offset pos = some ((count : Int), d') ∧ SameDevice d d' ∧
      d'.bytes = copy d.bytes cur buf pos (count - pos) := by
  induction rounds generalizing d cur pos st offset with
  | zero => omega
  | succ rounds ih =>
    unfold sdWriteLoop
    rw [to_uint32_small (by have := here.fits; omega)]
    by_cases more : pos < count
    · obtain ⟨n, some_bytes, upto, size, one, sum, next⟩ := here_next geometry here more
      obtain ⟨d1, wrote, same, bytes⟩ := write_block one buf pos
      obtain ⟨rfl, rfl⟩ := here.place more
      have geometry1 : Geometry d1.sd k := ⟨same.2.trans geometry.blksz, geometry.fits⟩
      obtain ⟨d', ran, same', bytes'⟩ := ih geometry1 (next d1 same) (by omega)
      refine ⟨d', ?_, same.trans same', ?_⟩
      · simp only [if_pos more, size, wrote, sum]
        exact ran
      · have left : count - pos = n + (count - (pos + n)) := by omega
        rw [bytes', bytes, left]
        exact copy_copy _
    · have done : pos = count := Nat.le_antisymm here.upto (Nat.le_of_not_lt more)
      subst done
      refine ⟨d, ?_, .refl d, ?_⟩
      · rw [if_neg more, to_int_small here.fits]
      · rw [Nat.sub_self, copy_none]

theorem sd_read_loop (buf : Nat → UInt8) (geometry : Geometry d.sd k) (here : Here d cur pos count st offset)
    {rounds : Nat} (enough : count - pos < rounds) :
    ∃ d', sdReadLoop count rounds d st offset pos buf =
        some ((count : Int), copy buf pos d.bytes cur (count - pos), d') ∧
      SameDevice d d' ∧ d'.bytes = d.bytes := by
  induction rounds generalizing d cur pos st offset buf with
  | zero => omega
  | succ rounds ih =>
    unfold sdReadLoop
    rw [to_uint32_small (by have := here.fits; omega)]
    by_cases more : pos < count
    · obtain ⟨n, some_bytes, upto, size, one, sum, next⟩ := here_next geometry here more
      obtain ⟨rfl, rfl⟩ := here.place more
      have split := Nat.div_add_mod' cur d.sd.blksz
      let d1 : Disk := ⟨⟨d.sd.blkcnt, d.sd.blksz,
        copy d.sd.buf 0 d.bytes (cur / d.sd.blksz * d.sd.blksz) d.sd.blksz⟩, d.bytes⟩
      have same : SameDevice d d1 := .refl d
      have geometry1 : Geometry d1.sd k := ⟨geometry.blksz, geometry.fits⟩
      have moved : copy buf pos d1.sd.buf (cur % d.sd.blksz) n = copy buf pos d.bytes cur n := by
        have through : copy buf pos d1.sd.buf (cur % d.sd.blksz) n =
            copy buf pos d.bytes (cur / d.sd.blksz * d.sd.blksz + cur % d.sd.blksz) n :=
          copy_through pos one.inside
        rwa [split] at through
      obtain ⟨d', ran, same', bytes'⟩ := ih (copy buf pos d.bytes cur n) geometry1
        (next d1 same) (by omega)
      refine ⟨d', ?_, same.trans same', bytes'⟩
      have left : count - pos = n + (count - (pos + n)) := by omega
      have whole : copy (copy buf pos d.bytes cur n) (pos + n) d.bytes (cur + n)
          (count - (pos + n)) = copy buf pos d.bytes cur (n + (count - (pos + n))) := copy_copy _
      simp only [if_pos more, size, blkRead, one.start, if_pos one.block, block_first, one.in_buf,
        if_true, Int.toNat_natCast, sum]
      rw [left, ← whole, ← moved]
      rw [← moved] at ran
      exact ran
    · have done : pos = count := Nat.le_antisymm here.upto (Nat.le_of_not_lt more)
      subst done
      refine ⟨d, ?_, .refl d, rfl⟩
      rw [if_neg more, to_int_small here.fits, Nat.sub_self, copy_none]

theorem here_start (geometry : Geometry d.sd k) {offset count : Nat}
    (inside : offset + count ≤ d.sd.blksz * d.sd.blkcnt) (below : offset + count < 2147483648) :
    Here d offset 0 count (roundDown offset d.sd.blksz) offset := by
  refine ⟨Nat.zero_le _, by omega, by omega, by omega, fun _ => ⟨rfl, ?_⟩⟩
  exact round_down_eq geometry (by omega)

theorem sd_write_exact (geometry : Geometry d.sd k) {offset count rounds : Nat}
    (inside : offset + count ≤ d.sd.blksz * d.sd.blkcnt) (below : offset + count < 2147483648)
    (enough : count < rounds) (buf : Nat → UInt8) :
    ∃ d', sdWrite rounds (some d) offset buf count = some ((count : Int), d') ∧ SameDevice d d' ∧
      d'.bytes = copy d.bytes offset buf 0 count :=
  sd_write_loop geometry (here_start geometry inside below) enough

theorem sd_read_exact (geometry : Geometry d.sd k) {offset count rounds : Nat}
    (inside : offset + count ≤ d.sd.blksz * d.sd.blkcnt) (below : offset + count < 2147483648)
    (enough : count < rounds) (buf : Nat → UInt8) :
    ∃ d', sdRead rounds (some d) offset buf count =
        some ((count : Int), copy buf 0 d.bytes offset count, d') ∧
      SameDevice d d' ∧ d'.bytes = d.bytes :=
  sd_read_loop buf geometry (here_start geometry inside below) enough

/-- A write changes exactly the bytes of its range, a read returns exactly them, and a read after
    a write returns what was written. -/
theorem sd_access_exact {d : Disk} {k offset count rounds : Nat} (geometry : Geometry d.sd k)
    (inside : offset + count ≤ d.sd.blksz * d.sd.blkcnt) (below : offset + count < 2 ^ 31)
    (enough : count < rounds) (buf out : Nat → UInt8) :
    (∃ d', sdWrite rounds (some d) offset buf count = some ((count : Int), d') ∧
      (∀ i, i < count → d'.bytes (offset + i) = buf i) ∧
      (∀ a, a < offset ∨ offset + count ≤ a → d'.bytes a = d.bytes a) ∧
      ∃ back d'', sdRead rounds (some d') offset out count = some ((count : Int), back, d'') ∧
        ∀ i, i < count → back i = buf i) ∧
    ∃ got d', sdRead rounds (some d) offset out count = some ((count : Int), got, d') ∧
      (∀ i, i < count → got i = d.bytes (offset + i)) ∧ (∀ i, count ≤ i → got i = out i) ∧
      d'.bytes = d.bytes := by
  constructor
  · obtain ⟨d', wrote, same, bytes⟩ := sd_write_exact geometry inside below enough buf
    have geometry' : Geometry d'.sd k := ⟨same.2.trans geometry.blksz, geometry.fits⟩
    have inside' : offset + count ≤ d'.sd.blksz * d'.sd.blkcnt := by
      rw [same.1, same.2]
      exact inside
    obtain ⟨d'', read, _, _⟩ := sd_read_exact geometry' inside' below enough out
    refine ⟨d', wrote, fun i within => ?_, fun a out_ => ?_, _, d'', read, fun i within => ?_⟩
    · rw [bytes, copy_at within, Nat.zero_add]
    · rw [bytes, copy_outside out_]
    · rw [bytes, copy_back, copy_inside (Nat.zero_le i) (by omega)]
      simp
  · obtain ⟨d', read, _, bytes⟩ := sd_read_exact geometry inside below enough out
    refine ⟨_, d', read, fun i within => ?_, fun i beyond => ?_, bytes⟩
    · rw [copy_inside (Nat.zero_le i) (by omega), Nat.sub_zero]
    · exact copy_outside (by omega)

/-- Six bytes across three blocks of four bytes. -/
theorem sd_access_exact_three_blocks :
    let d : Disk := ⟨⟨4, 4, fun _ => 0⟩, fun a => UInt8.ofNat a⟩
    ∃ d', sdWrite 7 (some d) 3 (fun i => UInt8.ofNat (100 + i)) 6 = some (6, d') ∧
      d'.bytes 3 = 100 ∧ d'.bytes 8 = 105 ∧ d'.bytes 2 = 2 ∧ d'.bytes 9 = 9 := by
  intro d
  obtain ⟨⟨d', wrote, written, kept, _⟩, _⟩ :=
    sd_access_exact (⟨rfl, by decide⟩ : Geometry d.sd 2) (by decide : 3 + 6 ≤ 4 * 4)
      (by decide) (by decide : 6 < 7) (fun i => UInt8.ofNat (100 + i)) fun _ => 0
  exact ⟨d', wrote, written 0 (by decide), written 5 (by decide), kept 2 (by decide),
    kept 9 (by decide)⟩

end DevSd
