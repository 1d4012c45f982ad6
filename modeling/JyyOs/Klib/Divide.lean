import JyyOs.Klib.Int64

/-!
The division loop of int64.c divides: the registers hold the quotient and the remainder of the
bits already taken, with the last digit of the quotient still in the carry.
-/
namespace Int64

open LongDivision

variable {n d : Udwords} {x : Registers} {number sr q : Nat}

section Words

theorem all_toNat (x : Udwords) : x.all.toNat = x.high.toNat * 2 ^ 32 + x.low.toNat := by
  unfold Udwords.all
  rw [BitVec.toNat_append, ← Nat.shiftLeft_add_eq_or_of_lt x.low.isLt, Nat.shiftLeft_eq]

theorem all_mk (high low : BitVec 32) :
    (Udwords.mk high low).all.toNat = high.toNat * 2 ^ 32 + low.toNat :=
  all_toNat ⟨high, low⟩

theorem zero_toNat : (0 : BitVec 32).toNat = 0 := rfl

theorem all_zero : d.all = 0 ↔ d.high = 0 ∧ d.low = 0 := by
  constructor
  · intro zero
    have number := congrArg BitVec.toNat zero
    rw [all_toNat] at number
    have none_ : (0 : BitVec 64).toNat = 0 := rfl
    constructor
    · apply BitVec.eq_of_toNat_eq
      rw [zero_toNat]
      omega
    · apply BitVec.eq_of_toNat_eq
      rw [zero_toNat]
      omega
  · intro zero
    unfold Udwords.all
    rw [zero.1, zero.2]
    rfl

theorem word_positive {x : BitVec 32} (real : x ≠ 0) : 0 < x.toNat := by
  apply Nat.pos_of_ne_zero
  intro zero
  exact real (BitVec.eq_of_toNat_eq zero)

theorem ofAll_all (a : BitVec 64) : (Udwords.ofAll a).all = a := by
  unfold Udwords.all Udwords.ofAll
  apply BitVec.eq_of_toNat_eq
  rw [BitVec.toNat_append, ← Nat.shiftLeft_add_eq_or_of_lt (BitVec.isLt _), Nat.shiftLeft_eq,
    BitVec.extractLsb'_toNat, BitVec.toNat_setWidth, Nat.shiftRight_eq_div_pow]
  have small := a.isLt
  omega

theorem shl_toNat (x : BitVec 32) {k : Nat} (small : k ≤ 32) :
    (x <<< (32 - k)).toNat = x.toNat % 2 ^ k * 2 ^ (32 - k) := by
  have split : 2 ^ 32 = 2 ^ k * 2 ^ (32 - k) := by
    rw [← Nat.pow_add, Nat.add_sub_cancel' small]
  rw [BitVec.toNat_shiftLeft, Nat.shiftLeft_eq, split, Nat.mul_mod_mul_right]

theorem shr_toNat (x : BitVec 32) (k : Nat) : (x >>> k).toNat = x.toNat / 2 ^ k := by
  rw [BitVec.toNat_ushiftRight, Nat.shiftRight_eq_div_pow]

theorem funnel_parts (x y : BitVec 32) {k : Nat} (small : k ≤ 32) :
    ((x <<< (32 - k)) ||| (y >>> k)).toNat
      = x.toNat % 2 ^ k * 2 ^ (32 - k) + y.toNat / 2 ^ k := by
  have below : y.toNat / 2 ^ k < 2 ^ (32 - k) := by
    rw [Nat.div_lt_iff_lt_mul (Nat.two_pow_pos k), ← Nat.pow_add, Nat.sub_add_cancel small]
    exact y.isLt
  rw [BitVec.toNat_or, shl_toNat x small, shr_toNat, ← Nat.shiftLeft_eq,
    ← Nat.shiftLeft_add_eq_or_of_lt below]

theorem double_shift (h l : Nat) {k : Nat} (small : k ≤ 32) :
    (h * 2 ^ 32 + l) / 2 ^ k = h / 2 ^ k * 2 ^ 32 + (h % 2 ^ k * 2 ^ (32 - k) + l / 2 ^ k) := by
  have split : 2 ^ 32 = 2 ^ k * 2 ^ (32 - k) := by
    rw [← Nat.pow_add, Nat.add_sub_cancel' small]
  have whole : h * 2 ^ (32 - k) = h / 2 ^ k * 2 ^ 32 + h % 2 ^ k * 2 ^ (32 - k) := by
    rw [split, ← Nat.mul_assoc, ← Nat.add_mul, Nat.div_add_mod']
  have shifted : h * 2 ^ 32 = 2 ^ k * (h * 2 ^ (32 - k)) := by
    rw [split]
    exact Nat.mul_left_comm ..
  rw [shifted, Nat.mul_add_div (Nat.two_pow_pos k), whole, Nat.add_assoc]

theorem funnel_toNat (x y : BitVec 32) {k : Nat} (small : k ≤ 32) :
    ((x <<< (32 - k)) ||| (y >>> k)).toNat = (x.toNat * 2 ^ 32 + y.toNat) / 2 ^ k % 2 ^ 32 := by
  have fits := BitVec.isLt ((x <<< (32 - k)) ||| (y >>> k))
  rw [double_shift _ _ small, Nat.mul_add_mod_self_right, ← funnel_parts x y small,
    Nat.mod_eq_of_lt fits]

theorem shift_in_toNat {w : Nat} (x c : BitVec (w + 1)) (bit : c.toNat ≤ 1) :
    ((x <<< 1) ||| c).toNat = (2 * x.toNat + c.toNat) % 2 ^ (w + 1) := by
  have below : c.toNat < 2 ^ 1 := by omega
  have halves : 2 ^ (w + 1) = 2 ^ w * 2 ^ 1 := Nat.pow_succ 2 w
  have shifted : x.toNat <<< 1 % 2 ^ (w + 1) = (x.toNat % 2 ^ w) <<< 1 := by
    rw [Nat.shiftLeft_eq, Nat.shiftLeft_eq, halves, Nat.mul_mod_mul_right]
  rw [BitVec.toNat_or, BitVec.toNat_shiftLeft, shifted, ← Nat.shiftLeft_add_eq_or_of_lt below,
    Nat.shiftLeft_eq, halves, Nat.mul_comm (2 ^ w), Nat.pow_one, Nat.mod_mul]
  have lower : (2 * x.toNat + c.toNat) % 2 = c.toNat := by omega
  have upper : (2 * x.toNat + c.toNat) / 2 = x.toNat := by omega
  rw [lower, upper]
  omega

theorem shift_clear {x : BitVec 64} (clear : x.toNat < 2 ^ 63) : x >>> 63 = 0 := by
  apply BitVec.eq_of_toNat_eq
  rw [BitVec.toNat_ushiftRight, Nat.shiftRight_eq_div_pow, Nat.div_eq_of_lt clear]
  rfl

theorem sign_mask (x : BitVec 64) :
    x.sshiftRight 63 = if x.msb then BitVec.allOnes 64 else 0 := by
  have size := BitVec.msb_eq_decide x
  cases sign : x.msb with
  | false =>
    rw [sign] at size
    rw [BitVec.sshiftRight_eq_of_msb_false sign, shift_clear (by simpa using size.symm)]
    rfl
  | true =>
    rw [sign] at size
    have top : 2 ^ 63 ≤ x.toNat := by simpa using size.symm
    have clear : (~~~x).toNat < 2 ^ 63 := by
      rw [BitVec.toNat_not]
      omega
    rw [BitVec.sshiftRight_eq_of_msb_true sign, shift_clear clear]
    rfl

end Words

section Round

/-- The registers when the quotient of the bits above the lowest sr is q. -/
structure Working (number : Nat) (d : Udwords) (sr q : Nat) (x : Registers) : Prop where
  divides : Divides number d.all.toNat sr q x.r.all.toNat
  waiting : x.q.all.toNat = number % 2 ^ sr * 2 ^ (64 - sr) + q / 2
  carry : x.carry.toNat = q % 2
  room : q < 2 ^ (64 - sr)

/-- The subtraction in front of the mask does not overflow. -/
def MaskExact (d r : Nat) : Prop :=
  d ≤ 2 ^ 63 ∨ 2 ^ 63 ≤ r

theorem mask_digit {d r : BitVec 64} (below : r.toNat < 2 * d.toNat)
    (exact_ : MaskExact d.toNat r.toNat) :
    (d - r - 1).sshiftRight 63 = if d.toNat ≤ r.toNat then BitVec.allOnes 64 else 0 := by
  have small := d.isLt
  have small' := r.isLt
  have number : (d - r - 1).toNat = (2 ^ 65 + d.toNat - r.toNat - 1) % 2 ^ 64 := by
    rw [BitVec.toNat_sub, BitVec.toNat_sub]
    have one : (1 : BitVec 64).toNat = 1 := rfl
    omega
  have sign : (d - r - 1).msb = decide (d.toNat ≤ r.toNat) := by
    rw [BitVec.msb_eq_decide, number]
    unfold MaskExact at exact_
    apply decide_eq_decide.mpr
    omega
  rw [sign_mask, sign]
  simp only [decide_eq_true_eq]

theorem round_remainder (brought : BitVec 64) (d : BitVec 64) (below : brought.toNat < 2 * d.toNat)
    (exact_ : MaskExact d.toNat brought.toNat) :
    (brought - (d &&& (d - brought - 1).sshiftRight 63)).toNat
      = brought.toNat - d.toNat * digit d.toNat brought.toNat := by
  rw [mask_digit below exact_]
  unfold digit
  split
  case isTrue reached =>
    rw [BitVec.and_allOnes, BitVec.toNat_sub, Nat.mul_one]
    have small := brought.isLt
    have small' := d.isLt
    omega
  case isFalse low =>
    simp

theorem round_carry {brought d : BitVec 64} (below : brought.toNat < 2 * d.toNat)
    (exact_ : MaskExact d.toNat brought.toNat) :
    (((d - brought - 1).sshiftRight 63 &&& 1).setWidth 32).toNat
      = digit d.toNat brought.toNat := by
  rw [mask_digit below exact_]
  unfold digit
  split
  case isTrue reached => rfl
  case isFalse low => rfl

theorem shiftRemainder_toNat (x : Registers)
    (fits : 2 * x.r.all.toNat + x.q.all.toNat / 2 ^ 63 < 2 ^ 64) :
    (shiftRemainder x).all.toNat = 2 * x.r.all.toNat + x.q.all.toNat / 2 ^ 63 := by
  have upper := funnel_toNat x.r.high x.r.low (k := 31) (by decide)
  have lower := funnel_toNat x.r.low x.q.high (k := 31) (by decide)
  rw [all_toNat, all_toNat] at fits
  rw [all_toNat, all_toNat, all_toNat]
  unfold shiftRemainder nUwordBits
  rw [upper, lower]
  have a := x.r.high.isLt
  have b := x.r.low.isLt
  have c := x.q.high.isLt
  have e := x.q.low.isLt
  omega

theorem shiftQuotient_toNat (x : Registers) (bit : x.carry.toNat ≤ 1) :
    (shiftQuotient x).all.toNat = (2 * x.q.all.toNat + x.carry.toNat) % 2 ^ 64 := by
  have upper := funnel_toNat x.q.high x.q.low (k := 31) (by decide)
  have lower := shift_in_toNat x.q.low x.carry bit
  rw [all_toNat, all_toNat]
  unfold shiftQuotient nUwordBits
  rw [upper, lower]
  have a := x.q.high.isLt
  have b := x.q.low.isLt
  omega

/-- The dividend's waiting bits and the quotient's digits share a register. -/
theorem waiting_bits (number : Nat) {room : Nat} (split : 2 ^ sr * room = 2 ^ 63) (digits : q < room) :
    (number % 2 ^ (sr + 1) * room + q / 2) / 2 ^ 63 = number / 2 ^ sr % 2 ∧
    (2 * (number % 2 ^ (sr + 1) * room + q / 2) + q % 2) % 2 ^ 64
      = number % 2 ^ sr * (2 * room) + q := by
  have bits : number % 2 ^ (sr + 1) = number / 2 ^ sr % 2 * 2 ^ sr + number % 2 ^ sr := by
    rw [Nat.pow_succ, Nat.mod_mul, Nat.add_comm, Nat.mul_comm]
  have lower : (number % 2 ^ sr + 1) * room ≤ 2 ^ sr * room :=
    Nat.mul_le_mul_right room (Nat.mod_lt number (Nat.two_pow_pos sr))
  have top : number % 2 ^ (sr + 1) * room = number / 2 ^ sr % 2 * 2 ^ 63 + number % 2 ^ sr * room := by
    rw [bits, Nat.add_mul, Nat.mul_assoc, split]
  have twice : number % 2 ^ sr * (2 * room) = 2 * (number % 2 ^ sr * room) := Nat.mul_left_comm ..
  have bit : number / 2 ^ sr % 2 < 2 := Nat.mod_lt _ Nat.zero_lt_two
  rw [Nat.add_mul, Nat.one_mul, split] at lower
  rw [top, twice]
  generalize number / 2 ^ sr % 2 = bit_ at *
  generalize number % 2 ^ sr * room = rest at *
  constructor
  · omega
  · omega

theorem round_working (working : Working number d (sr + 1) q x) (small : number < 2 ^ 64)
    (short : sr < 64) (exact_ : MaskExact d.all.toNat (bring number sr x.r.all.toNat)) :
    Working number d sr (2 * q + digit d.all.toNat (bring number sr x.r.all.toNat)) (round d x) := by
  obtain ⟨divides, waiting, carry, room⟩ := working
  have place : 64 - sr = (64 - (sr + 1)) + 1 := by omega
  have space : 2 ^ (64 - sr) = 2 * 2 ^ (64 - (sr + 1)) := by
    rw [place, Nat.pow_succ, Nat.mul_comm]
  have split : 2 ^ sr * 2 ^ (64 - (sr + 1)) = 2 ^ 63 := by
    rw [← Nat.pow_add]
    congr 1
    omega
  obtain ⟨next, shifted⟩ := waiting_bits number split room
  rw [← waiting] at next shifted
  have bring_eq : bring number sr x.r.all.toNat = 2 * x.r.all.toNat + x.q.all.toNat / 2 ^ 63 := by
    rw [next]
    rfl
  have fits := Nat.lt_of_le_of_lt divides.bring_le small
  have below := divides.bring_lt
  have one := digit_le_one d.all.toNat (bring number sr x.r.all.toNat)
  have remainder := shiftRemainder_toNat x (bring_eq ▸ fits)
  have next_divides := divides.next
  rw [bring_eq, ← remainder] at exact_ below one next_divides ⊢
  unfold round nUdwordBits
  constructor
  · rw [ofAll_all, round_remainder _ _ below exact_]
    exact next_divides
  · rw [shiftQuotient_toNat x (by omega), carry, shifted, space]
    omega
  · rw [round_carry below exact_]
    omega
  · rw [space]
    omega

/-- The subtraction in front of the mask is exact in every round. -/
theorem exact_or_last (working : Working number d (sr + 1) q x)
    (exact_ : d.all.toNat ≤ 2 ^ 63 ∨ sr = 0 ∧ q = 0 ∧ 2 ^ 63 ≤ number) :
    MaskExact d.all.toNat (bring number sr x.r.all.toNat) := by
  cases exact_ with
  | inl low => exact Or.inl low
  | inr last =>
    obtain ⟨rfl, rfl, large⟩ := last
    have whole := working.divides.brought
    rw [Nat.pow_zero, Nat.div_one, Nat.mul_zero, Nat.zero_mul, Nat.zero_add] at whole
    exact Or.inr (whole ▸ large)

theorem rounds_working (working : Working number d sr q x) (small : number < 2 ^ 64) (short : sr ≤ 64)
    (exact_ : d.all.toNat ≤ 2 ^ 63 ∨ sr = 1 ∧ q = 0 ∧ 2 ^ 63 ≤ number) :
    Working number d 0 (number / d.all.toNat) (rounds d sr x) := by
  induction sr generalizing q x with
  | zero =>
    have same := working.divides.done.1
    exact same ▸ working
  | succ sr ih =>
    have once := exact_or_last working (exact_.imp_right fun last => ⟨by omega, last.2⟩)
    have next := round_working working small (by omega) once
    unfold rounds
    cases exact_ with
    | inl low => exact ih next (by omega) (Or.inl low)
    | inr last =>
      obtain ⟨only, -, -⟩ := last
      obtain rfl : sr = 0 := by omega
      have same := next.divides.done.1
      exact same ▸ next

end Round

section Start

theorem working_start (below : number / 2 ^ sr < d.all.toNat)
    (waiting : x.q.all.toNat = number % 2 ^ sr * 2 ^ (64 - sr))
    (taken : x.r.all.toNat = number / 2 ^ sr) (carry : x.carry = 0) :
    Working number d sr 0 x := by
  constructor
  · rw [taken]
    exact Divides.start below
  · rw [waiting, Nat.zero_div, Nat.add_zero]
  · rw [carry]
    rfl
  · exact Nat.two_pow_pos _

theorem splitLow_working (positive : 0 < sr) (small : sr < 32)
    (below : n.all.toNat / 2 ^ sr < d.all.toNat) :
    ∃ x, splitLow n sr = some x ∧ Working n.all.toNat d sr 0 x := by
  have back : 32 - sr < 32 := Nat.sub_lt (by decide) positive
  have place : 64 - sr = (32 - sr) + 32 := by omega
  have multiple : 2 ^ sr ∣ 2 ^ 32 := Nat.pow_dvd_pow 2 small.le
  have lowest : n.all.toNat % 2 ^ sr = n.low.toNat % 2 ^ sr := by
    rw [all_toNat, Nat.add_mod, Nat.mod_eq_zero_of_dvd (multiple.mul_left _), Nat.zero_add,
      Nat.mod_mod]
  let start : Registers := {
    q := ⟨n.low <<< (32 - sr), 0⟩
    r := ⟨n.high >>> sr, (n.high <<< (32 - sr)) ||| (n.low >>> sr)⟩
    carry := 0 }
  use start
  constructor
  · unfold splitLow shl shr nUwordBits
    simp only [back, small, if_true]
    rfl
  · apply working_start below
    · rw [all_mk, shl_toNat _ small.le, zero_toNat, Nat.add_zero, lowest, place, Nat.pow_add,
        Nat.mul_assoc]
    · rw [all_mk, funnel_parts _ _ small.le, shr_toNat, all_toNat, double_shift _ _ small.le]
    · rfl

theorem splitMiddle_working (below : n.all.toNat / 2 ^ 32 < d.all.toNat) :
    Working n.all.toNat d 32 0 (splitMiddle n) := by
  have small := n.low.isLt
  unfold splitMiddle
  apply working_start below
  · rw [all_mk, zero_toNat, all_toNat]
    omega
  · rw [all_mk, zero_toNat, all_toNat]
    omega
  · rfl

theorem splitHigh_working {k : Nat} (positive : 0 < k) (small : k < 32)
    (below : n.all.toNat / 2 ^ (32 + k) < d.all.toNat) :
    ∃ x, splitHigh n (32 + k) = some x ∧ Working n.all.toNat d (32 + k) 0 x := by
  have back : 32 - k < 32 := Nat.sub_lt (by decide) positive
  have place : 64 - (32 + k) = 32 - k := by omega
  have rest : 32 + k - 32 = k := by omega
  have low := n.low.isLt
  have split : 2 ^ 32 = 2 ^ k * 2 ^ (32 - k) := by
    rw [← Nat.pow_add, Nat.add_sub_cancel' small.le]
  have upper : n.all.toNat / 2 ^ 32 = n.high.toNat := by
    rw [all_toNat]
    omega
  have lower : n.all.toNat % 2 ^ 32 = n.low.toNat := by
    rw [all_toNat]
    omega
  let start : Registers := {
    q := ⟨(n.high <<< (32 - k)) ||| (n.low >>> k), n.low <<< (32 - k)⟩
    r := ⟨0, n.high >>> k⟩
    carry := 0 }
  use start
  constructor
  · unfold splitHigh shl shr nUdwordBits nUwordBits
    simp only [place, rest, back, small, if_true]
    rfl
  · apply working_start below
    · have digits : n.low.toNat * 2 ^ (32 - k)
          = n.low.toNat / 2 ^ k * 2 ^ 32 + n.low.toNat % 2 ^ k * 2 ^ (32 - k) := by
        rw [split, ← Nat.mul_assoc, ← Nat.add_mul, Nat.div_add_mod']
      rw [all_mk, funnel_parts _ _ small.le, shl_toNat _ small.le, place, Nat.pow_add,
        Nat.mod_mul, lower, upper, Nat.add_mul, Nat.add_mul, digits]
      ring
    · rw [all_mk, zero_toNat, Nat.zero_mul, Nat.zero_add, shr_toNat, Nat.pow_add,
        ← Nat.div_div_eq_div_mul, upper]
    · rfl

def answer (a b : BitVec 64) (rem : Bool) : BitVec 64 × Option (BitVec 64) :=
  (a / b, if rem then some (a % b) else none)

theorem store_some (rem : Bool) (value : BitVec 64) :
    store rem (some value) = some (if rem then some value else none) := by
  cases rem <;> rfl

theorem divideRounds_answer (working : Working n.all.toNat d sr 0 x) (short : sr ≤ 64)
    (exact_ : d.all.toNat ≤ 2 ^ 63 ∨ sr = 1 ∧ 2 ^ 63 ≤ n.all.toNat) (rem : Bool) :
    divideRounds d sr rem x = some (answer n.all d.all rem) := by
  have done := rounds_working working n.all.isLt short
    (exact_.imp_right fun last => ⟨last.1, rfl, last.2⟩)
  have remainder : (rounds d sr x).r.all = n.all % d.all := by
    apply BitVec.eq_of_toNat_eq
    rw [BitVec.toNat_umod]
    exact done.divides.done.2
  have carry : ((rounds d sr x).carry.setWidth 64).toNat = n.all.toNat / d.all.toNat % 2 := by
    rw [BitVec.toNat_setWidth, done.carry]
    omega
  have quotient : ((rounds d sr x).q.all <<< 1) ||| (rounds d sr x).carry.setWidth 64
      = n.all / d.all := by
    have bit : ((rounds d sr x).carry.setWidth 64).toNat ≤ 1 := by
      rw [carry]
      omega
    have fits := done.room
    have waiting := done.waiting
    rw [Nat.pow_zero, Nat.mod_one, Nat.zero_mul, Nat.zero_add] at waiting
    apply BitVec.eq_of_toNat_eq
    rw [shift_in_toNat _ _ bit, BitVec.toNat_udiv, carry, waiting]
    omega
  unfold divideRounds answer
  simp only [store_some, remainder, quotient, Option.bind_eq_bind, Option.bind_some]
  rfl

end Start

section Lengths

theorem builtinClz_bounds {x : BitVec 32} (real : x ≠ 0) :
    ∃ zeros, builtinClz x = some zeros ∧ zeros ≤ 31 ∧
      2 ^ (31 - zeros) ≤ x.toNat ∧ x.toNat < 2 ^ (32 - zeros) := by
  have bound := BitVec.lt_def.mp (BitVec.clz_lt_iff_ne_zero.mpr real)
  use x.clz.toNat
  constructor
  · unfold builtinClz
    rw [if_neg real]
  constructor
  · exact Nat.le_of_lt_succ bound
  · exact ⟨BitVec.two_pow_sub_clz_le_toNat_of_ne_zero (by decide) real,
      BitVec.toNat_lt_two_pow_sub_clz⟩

theorem number_bounds {a : Nat} (low : 2 ^ a ≤ n.high.toNat) (high : n.high.toNat < 2 ^ (a + 1)) :
    2 ^ (a + 32) ≤ n.all.toNat ∧ n.all.toNat < 2 ^ (a + 33) := by
  have small := n.low.isLt
  rw [all_toNat, Nat.pow_add, Nat.pow_add (n := 33)]
  rw [Nat.pow_succ] at high
  omega

theorem testBit_top {j m : Nat} (low : 2 ^ j ≤ m) (high : m < 2 ^ (j + 1)) :
    m.testBit j = true := by
  have one : m / 2 ^ j = 1 := by
    apply Nat.div_eq_of_lt_le
    · rwa [Nat.one_mul]
    · rwa [Nat.pow_succ, Nat.mul_comm] at high
  rw [Nat.testBit_eq_decide_div_mod_eq, one]
  rfl

theorem power_of_two {x : BitVec 32} (real : x ≠ 0) (single : x &&& (x - 1) = 0) :
    ∃ k, builtinCtz x = some k ∧ k ≤ 31 ∧ x.toNat = 2 ^ k := by
  obtain ⟨zeros, -, few, low, high⟩ := builtinClz_bounds real
  have place : 32 - zeros = 31 - zeros + 1 := by omega
  rw [place] at high
  have before : (x - 1).toNat = x.toNat - 1 := by
    have positive := Nat.two_pow_pos (31 - zeros)
    have small := x.isLt
    have one : (1 : BitVec 32).toNat = 1 := rfl
    rw [BitVec.toNat_sub, one]
    omega
  have power : x.toNat = 2 ^ (31 - zeros) := by
    by_contra more
    have bits := congrArg (fun y : BitVec 32 => y.toNat.testBit (31 - zeros)) single
    simp only [BitVec.toNat_and, Nat.testBit_and, before, testBit_top low high] at bits
    rw [testBit_top (by omega) (by omega)] at bits
    exact absurd bits (by simp)
  have bit := BitVec.getLsbD_true_ctz_of_ne_zero real
  rw [BitVec.getLsbD, power, Nat.testBit_two_pow] at bit
  use 31 - zeros
  constructor
  · unfold builtinCtz
    rw [if_neg real, ← of_decide_eq_true bit]
  · exact ⟨Nat.sub_le _ _, power⟩

theorem mask_below {x y : BitVec 32} {k : Nat} (power : y.toNat = 2 ^ k) :
    (x &&& (y - 1)).toNat = x.toNat % 2 ^ k := by
  have before : (y - 1).toNat = 2 ^ k - 1 := by
    have positive := Nat.two_pow_pos k
    have small := y.isLt
    have one : (1 : BitVec 32).toNat = 1 := rfl
    rw [BitVec.toNat_sub, one]
    omega
  rw [BitVec.toNat_and, before, Nat.and_two_pow_sub_one_eq_mod]

end Lengths

end Int64
