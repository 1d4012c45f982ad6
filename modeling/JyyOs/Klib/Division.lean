import JyyOs.Klib.Divide

/-!
The special cases of int64.c and the division functions: quotients and remainders of all 64-bit
numbers.
-/
namespace Int64

open LongDivision

variable {n d : Udwords}

section Cases

theorem low_word (zero : d.high = 0) : d.all = d.low.setWidth 64 := by
  apply BitVec.eq_of_toNat_eq
  rw [all_toNat, zero, zero_toNat, BitVec.toNat_setWidth]
  have small := d.low.isLt
  omega

theorem wide_toNat (x : BitVec 32) : (x.setWidth 64).toNat = x.toNat := by
  rw [BitVec.toNat_setWidth]
  have small := x.isLt
  omega

theorem low_division (x y : BitVec 32) :
    (x / y).setWidth 64 = x.setWidth 64 / y.setWidth 64 := by
  apply BitVec.eq_of_toNat_eq
  rw [wide_toNat, BitVec.toNat_udiv, BitVec.toNat_udiv, wide_toNat, wide_toNat]

theorem low_remainder (x y : BitVec 32) :
    (x % y).setWidth 64 = x.setWidth 64 % y.setWidth 64 := by
  apply BitVec.eq_of_toNat_eq
  rw [wide_toNat, BitVec.toNat_umod, BitVec.toNat_umod, wide_toNat, wide_toNat]

theorem answer_below {a b : BitVec 64} (below : a.toNat < b.toNat) (rem : Bool) :
    answer a b rem = (0, if rem then some a else none) := by
  have quotient : a / b = 0 := by
    apply BitVec.eq_of_toNat_eq
    rw [BitVec.toNat_udiv, Nat.div_eq_of_lt below]
    rfl
  have remainder : a % b = a := by
    apply BitVec.eq_of_toNat_eq
    rw [BitVec.toNat_umod, Nat.mod_eq_of_lt below]
  unfold answer
  rw [quotient, remainder]

def outcome (n d : Udwords) (rem : Bool) : Option (BitVec 64 × Option (BitVec 64)) :=
  if d.all = 0 then none else some (answer n.all d.all rem)

theorem divideLow_outcome (zero : n.high = 0) (rem : Bool) :
    divideLow n d rem = outcome n d rem := by
  unfold divideLow outcome
  by_cases narrow : d.high = 0
  · rw [if_pos narrow]
    by_cases none_ : d.low = 0
    · rw [if_pos (all_zero.mpr ⟨narrow, none_⟩)]
      unfold divide modulo
      rw [if_pos none_, if_pos none_]
      cases rem <;> rfl
    · have real : d.all ≠ 0 := fun zero => none_ (all_zero.mp zero).2
      rw [if_neg real, low_word narrow, low_word zero]
      unfold divide modulo answer
      rw [if_neg none_, if_neg none_, Option.map_some, store_some, low_remainder,
        ← low_division]
      rfl
  · have real : d.all ≠ 0 := fun zero => narrow (all_zero.mp zero).1
    have below : n.all.toNat < d.all.toNat := by
      have positive := word_positive narrow
      have small := n.low.isLt
      rw [all_toNat, all_toNat, zero, zero_toNat]
      omega
    rw [if_neg narrow, if_neg real, answer_below below, low_word zero, store_some]
    rfl

theorem unsigned_sub {a b : Nat} (small : a ≤ 31) (small' : b ≤ 31) :
    unsigned (a - b) = if b ≤ a then a - b else 2 ^ 32 + a - b := by
  unfold unsigned
  split <;> omega

theorem answer_eq {a b q r : BitVec 64} (quotient : a.toNat / b.toNat = q.toNat)
    (remainder : a.toNat % b.toNat = r.toNat) (rem : Bool) :
    answer a b rem = (q, if rem then some r else none) := by
  have left : a / b = q := by
    apply BitVec.eq_of_toNat_eq
    rw [BitVec.toNat_udiv, quotient]
  have right : a % b = r := by
    apply BitVec.eq_of_toNat_eq
    rw [BitVec.toNat_umod, remainder]
  unfold answer
  rw [left, right]

theorem divideByHigh_words (low : d.low = 0) (wide : d.high ≠ 0) (zero : n.low = 0) (rem : Bool) :
    divideByHigh n d rem = some (answer n.all d.all rem) := by
  have number : n.all.toNat = n.high.toNat * 2 ^ 32 := by
    rw [all_toNat, zero, zero_toNat, Nat.add_zero]
  have divisor : d.all.toNat = d.high.toNat * 2 ^ 32 := by
    rw [all_toNat, low, zero_toNat, Nat.add_zero]
  have quotient : n.all.toNat / d.all.toNat = ((n.high / d.high).setWidth 64).toNat := by
    rw [wide_toNat, BitVec.toNat_udiv, number, divisor, Nat.mul_div_mul_right _ _ (by decide)]
  have remainder : n.all.toNat % d.all.toNat = (Udwords.mk (n.high % d.high) 0).all.toNat := by
    rw [number, divisor, Nat.mul_mod_mul_right, all_mk, BitVec.toNat_umod, zero_toNat,
      Nat.add_zero]
  unfold divideByHigh divide modulo
  rw [if_neg wide, if_pos zero, if_neg wide, if_neg wide, Option.map_some, store_some,
    answer_eq quotient remainder]
  rfl

theorem divideByHigh_power (low : d.low = 0) (wide : d.high ≠ 0) (some_low : n.low ≠ 0)
    (single : d.high &&& (d.high - 1) = 0) (rem : Bool) :
    divideByHigh n d rem = some (answer n.all d.all rem) := by
  obtain ⟨k, zeros, few, power⟩ := power_of_two wide single
  have inside : k < nUwordBits := Nat.lt_succ_of_le few
  have small := n.low.isLt
  have number : n.all.toNat = 2 ^ 32 * n.high.toNat + n.low.toNat := by
    rw [all_toNat, Nat.mul_comm]
  have divisor : d.all.toNat = 2 ^ 32 * 2 ^ k := by
    rw [all_toNat, low, zero_toNat, Nat.add_zero, power, Nat.mul_comm]
  have word : (2 ^ 32 * n.high.toNat + n.low.toNat) / 2 ^ 32 = n.high.toNat := by omega
  have rest : (2 ^ 32 * n.high.toNat + n.low.toNat) % 2 ^ 32 = n.low.toNat := by omega
  have quotient : n.all.toNat / d.all.toNat = ((n.high >>> k).setWidth 64).toNat := by
    rw [wide_toNat, shr_toNat, number, divisor, ← Nat.div_div_eq_div_mul, word]
  have remainder : n.all.toNat % d.all.toNat
      = (Udwords.mk (n.high &&& (d.high - 1)) n.low).all.toNat := by
    rw [number, divisor, Nat.mod_mul, word, rest, all_mk, mask_below power]
    omega
  unfold divideByHigh shr
  rw [if_neg wide, if_neg some_low, if_pos single, store_some, zeros,
    answer_eq quotient remainder]
  simp only [Option.bind_eq_bind, Option.bind_some, inside, if_true]
  rfl

structure Starts (n d : Udwords) (sr : Nat) : Prop where
  below : n.all.toNat / 2 ^ sr < d.all.toNat
  short : sr ≤ 64
  masks : d.all.toNat ≤ 2 ^ 63 ∨ sr = 1 ∧ 2 ^ 63 ≤ n.all.toNat

theorem Starts.low {sr : Nat} (starts : Starts n d sr) (positive : 0 < sr) (small : sr < 32)
    (rem : Bool) :
    (splitLow n sr).bind (divideRounds d sr rem) = some (answer n.all d.all rem) := by
  obtain ⟨x, split, working⟩ := splitLow_working positive small starts.below
  rw [split, Option.bind_some]
  exact divideRounds_answer working starts.short starts.masks rem

theorem Starts.middle (starts : Starts n d 32) (rem : Bool) :
    divideRounds d 32 rem (splitMiddle n) = some (answer n.all d.all rem) := by
  have working := splitMiddle_working starts.below
  exact divideRounds_answer working starts.short starts.masks rem

theorem Starts.high {sr : Nat} (starts : Starts n d sr) (large : 32 < sr) (small : sr < 64)
    (rem : Bool) :
    (splitHigh n sr).bind (divideRounds d sr rem) = some (answer n.all d.all rem) := by
  obtain ⟨k, rfl⟩ := Nat.exists_eq_add_of_lt large
  rw [Nat.add_assoc] at starts ⊢
  obtain ⟨x, split, working⟩ := splitHigh_working (Nat.succ_pos k) (by omega) starts.below
  rw [split, Option.bind_some]
  exact divideRounds_answer working starts.short starts.masks rem

theorem leading_difference (real : n.high ≠ 0) (wide : d.high ≠ 0) :
    ∃ dZeros nZeros, builtinClz d.high = some dZeros ∧ builtinClz n.high = some nZeros ∧
      (31 < unsigned (dZeros - nZeros) → n.all.toNat < d.all.toNat) ∧
      (unsigned (dZeros - nZeros) ≤ 31 → Starts n d (unsigned (dZeros - nZeros) + 1)) ∧
      (unsigned (dZeros - nZeros) = 31 → d.high = 1) := by
  obtain ⟨dZeros, d_zeros, d_few, d_low, d_high⟩ := builtinClz_bounds wide
  obtain ⟨nZeros, n_zeros, n_few, n_low, n_high⟩ := builtinClz_bounds real
  have d_place : 32 - dZeros = 31 - dZeros + 1 := by omega
  have n_place : 32 - nZeros = 31 - nZeros + 1 := by omega
  rw [d_place] at d_high
  rw [n_place] at n_high
  obtain ⟨d_bottom, d_top⟩ := number_bounds d_low d_high
  obtain ⟨n_bottom, n_top⟩ := number_bounds n_low n_high
  use dZeros, nZeros, d_zeros, n_zeros
  rw [unsigned_sub d_few n_few]
  split
  case isFalse order =>
    have places : 31 - nZeros + 33 ≤ 31 - dZeros + 32 := by omega
    have powers := Nat.pow_le_pow_right (n := 2) (by decide) places
    exact ⟨fun _ => by omega, fun _ => by omega, fun _ => by omega⟩
  case isTrue order =>
    refine ⟨fun _ => by omega, fun _ => ?_, fun apart => ?_⟩
    · constructor
      · exact start_below n_top d_bottom (by omega)
      · omega
      · by_cases top : dZeros = 0
        · right
          obtain rfl : nZeros = 0 := by omega
          exact ⟨by omega, n_bottom⟩
        · left
          have places : 31 - dZeros + 33 ≤ 63 := by omega
          have powers := Nat.pow_le_pow_right (n := 2) (by decide) places
          omega
    · obtain rfl : dZeros = 31 := by omega
      apply BitVec.eq_of_toNat_eq
      have one : (1 : BitVec 32).toNat = 1 := rfl
      simp only [Nat.sub_self, Nat.pow_zero, Nat.zero_add, Nat.pow_one] at d_low d_high
      omega

theorem divideByHigh_outcome (real : n.high ≠ 0) (low : d.low = 0) (rem : Bool) :
    divideByHigh n d rem = outcome n d rem := by
  unfold outcome
  by_cases wide : d.high = 0
  · rw [if_pos (all_zero.mpr ⟨wide, low⟩)]
    unfold divideByHigh divide modulo
    rw [if_pos wide, if_pos low, if_pos low]
    cases rem <;> rfl
  · have divisor : d.all ≠ 0 := fun zero => wide (all_zero.mp zero).1
    rw [if_neg divisor]
    by_cases zero : n.low = 0
    · exact divideByHigh_words low wide zero rem
    · by_cases single : d.high &&& (d.high - 1) = 0
      · exact divideByHigh_power low wide zero single rem
      · obtain ⟨dZeros, nZeros, d_zeros, n_zeros, far, near, only⟩ := leading_difference real wide
        have not_last : unsigned (dZeros - nZeros) ≠ 31 := by
          intro last
          rw [only last] at single
          exact single rfl
        unfold divideByHigh
        rw [if_neg wide, if_neg zero, if_neg single, d_zeros, n_zeros]
        simp only [Option.bind_eq_bind, Option.bind_some]
        split
        case isTrue beyond =>
          have large : 31 < unsigned (dZeros - nZeros) := by
            simp only [nUwordBits] at beyond
            omega
          rw [answer_below (far large), store_some]
          rfl
        case isFalse inside =>
          have small : unsigned (dZeros - nZeros) + 1 < 32 := by
            simp only [nUwordBits] at inside
            omega
          exact (near (by omega)).low (Nat.succ_pos _) small rem

theorem divideByBoth_outcome (real : n.high ≠ 0) (wide : d.high ≠ 0) (rem : Bool) :
    divideByBoth n d rem = outcome n d rem := by
  have divisor : d.all ≠ 0 := fun zero => wide (all_zero.mp zero).1
  obtain ⟨dZeros, nZeros, d_zeros, n_zeros, far, near, only⟩ := leading_difference real wide
  unfold outcome divideByBoth
  rw [if_neg divisor, d_zeros, n_zeros]
  simp only [Option.bind_eq_bind, Option.bind_some]
  split
  case isTrue beyond =>
    simp only [nUwordBits] at beyond
    rw [answer_below (far beyond), store_some]
    rfl
  case isFalse inside =>
    simp only [nUwordBits] at inside
    have starts := near (by omega)
    split
    case isTrue last =>
      rw [last] at starts ⊢
      exact starts.middle rem
    case isFalse early =>
      simp only [nUwordBits] at early
      exact starts.low (Nat.succ_pos _) (by omega) rem

theorem low_bounds {a : Nat} (zero : d.high = 0) (low : 2 ^ a ≤ d.low.toNat) :
    2 ^ a ≤ d.all.toNat ∧ d.all.toNat ≤ 2 ^ 63 := by
  have small := d.low.isLt
  rw [all_toNat, zero, zero_toNat]
  omega

theorem divideByLow_power (narrow : d.high = 0) (some_low : d.low ≠ 0)
    (single : d.low &&& (d.low - 1) = 0) (rem : Bool) :
    divideByLow n d rem = some (answer n.all d.all rem) := by
  obtain ⟨k, zeros, few, power⟩ := power_of_two some_low single
  have divisor : d.all.toNat = 2 ^ k := by
    rw [all_toNat, narrow, zero_toNat, Nat.zero_mul, Nat.zero_add, power]
  have multiple : 2 ^ k ∣ 2 ^ 32 := Nat.pow_dvd_pow 2 (by omega)
  have remainder : n.all.toNat % d.all.toNat
      = ((n.low &&& (d.low - 1)).setWidth 64).toNat := by
    rw [wide_toNat, mask_below power, divisor, all_toNat, Nat.add_mod,
      Nat.mod_eq_zero_of_dvd (multiple.mul_left _), Nat.zero_add, Nat.mod_mod]
  unfold divideByLow
  rw [if_pos single, store_some]
  simp only [Option.bind_eq_bind, Option.bind_some]
  by_cases one : d.low = 1
  · have unit : d.all.toNat = 1 := by
      rw [all_toNat, narrow, one]
      rfl
    have quotient : n.all.toNat / d.all.toNat = n.all.toNat := by
      rw [unit, Nat.div_one]
    rw [if_pos one, answer_eq quotient remainder]
    rfl
  · have positive : 0 < k := by
      apply Nat.pos_of_ne_zero
      rintro rfl
      exact one (BitVec.eq_of_toNat_eq power)
    have inside : k < 32 := by omega
    have back : 32 - k < 32 := by omega
    have quotient : n.all.toNat / d.all.toNat
        = (Udwords.mk (n.high >>> k) ((n.high <<< (32 - k)) ||| (n.low >>> k))).all.toNat := by
      rw [divisor, all_toNat, double_shift _ _ inside.le, all_mk, funnel_parts _ _ inside.le,
        shr_toNat]
    rw [if_neg one, zeros, answer_eq quotient remainder]
    unfold shl shr nUwordBits
    simp only [Option.bind_some, inside, back, if_true]
    rfl

theorem divideByLow_outcome (real : n.high ≠ 0) (narrow : d.high = 0) (some_low : d.low ≠ 0)
    (rem : Bool) : divideByLow n d rem = outcome n d rem := by
  have divisor : d.all ≠ 0 := fun zero => some_low (all_zero.mp zero).2
  unfold outcome
  rw [if_neg divisor]
  by_cases single : d.low &&& (d.low - 1) = 0
  · exact divideByLow_power narrow some_low single rem
  · obtain ⟨dZeros, d_zeros, d_few, d_low, d_high⟩ := builtinClz_bounds some_low
    obtain ⟨nZeros, n_zeros, n_few, n_low, n_high⟩ := builtinClz_bounds real
    have n_place : 32 - nZeros = 31 - nZeros + 1 := by omega
    rw [n_place] at n_high
    have top := (number_bounds n_low n_high).2
    have bottom := low_bounds narrow d_low
    have not_last : dZeros ≠ 31 := by
      rintro rfl
      have one : d.low = 1 := by
        apply BitVec.eq_of_toNat_eq
        have unit : (1 : BitVec 32).toNat = 1 := rfl
        simp only [Nat.sub_self, Nat.pow_zero, Nat.reduceSub, Nat.pow_one] at d_low d_high
        omega
      rw [one] at single
      exact single rfl
    have place : unsigned (1 + nUwordBits + dZeros - nZeros) = 33 + dZeros - nZeros := by
      unfold unsigned nUwordBits
      omega
    have starts : Starts n d (33 + dZeros - nZeros) := by
      constructor
      · exact start_below top bottom.1 (by omega)
      · omega
      · exact Or.inl bottom.2
    unfold divideByLow
    rw [if_neg single, d_zeros, n_zeros]
    simp only [Option.bind_eq_bind, Option.bind_some, place]
    split
    case isTrue middle =>
      rw [middle] at starts ⊢
      exact starts.middle rem
    case isFalse apart =>
      simp only [nUwordBits] at apart
      split
      case isTrue small => exact starts.low (by omega) small rem
      case isFalse large =>
        simp only [nUwordBits] at large
        exact starts.high (by omega) (by omega) rem

theorem udivmoddi4_outcome (a b : BitVec 64) (rem : Bool) :
    udivmoddi4 a b rem = if b = 0 then none else some (answer a b rem) := by
  have cases_ : udivmoddi4 a b rem = outcome (Udwords.ofAll a) (Udwords.ofAll b) rem := by
    unfold udivmoddi4
    dsimp only
    split
    case isTrue zero => exact divideLow_outcome zero rem
    case isFalse real =>
      split
      case isTrue low => exact divideByHigh_outcome real low rem
      case isFalse some_low =>
        split
        case isTrue narrow => exact divideByLow_outcome real narrow some_low rem
        case isFalse wide => exact divideByBoth_outcome real wide rem
  rw [cases_]
  unfold outcome
  rw [ofAll_all, ofAll_all]

end Cases

section Functions

/-- The quotient and the remainder of two unsigned numbers; a division by zero faults. -/
theorem unsigned_division (a b : BitVec 64) :
    (b = 0 ∧ udivdi3 a b = none ∧ umoddi3 a b = none ∧
      ∀ rem, udivmoddi4 a b rem = none) ∨
    ∃ q r : BitVec 64, udivdi3 a b = some q ∧ umoddi3 a b = some r ∧
      (∀ rem, udivmoddi4 a b rem = some (q, if rem then some r else none)) ∧
      q.toNat = a.toNat / b.toNat ∧ r.toNat = a.toNat % b.toNat := by
  unfold udivdi3 umoddi3
  simp only [udivmoddi4_outcome]
  by_cases zero : b = 0
  · left
    simp only [if_pos zero]
    exact ⟨zero, rfl, rfl, fun _ => trivial⟩
  · right
    simp only [if_neg zero]
    exact ⟨a / b, a % b, rfl, rfl, fun _ => rfl, BitVec.toNat_udiv, BitVec.toNat_umod⟩

theorem negateIf_sign (x y : BitVec 64) :
    negateIf x (y.sshiftRight (nUdwordBits - 1)) = if y.msb then -x else x := by
  have ones : -BitVec.allOnes 64 = 1 := by decide
  unfold negateIf nUdwordBits
  rw [sign_mask]
  split
  case isTrue =>
    rw [BitVec.xor_allOnes, BitVec.neg_eq_not_add, BitVec.sub_eq_add_neg, ones]
    rfl
  case isFalse => simp

theorem negateIf_signs (x a b : BitVec 64) :
    negateIf x (a.sshiftRight (nUdwordBits - 1) ^^^ b.sshiftRight (nUdwordBits - 1))
      = if a.msb = b.msb then x else -x := by
  rw [← BitVec.sshiftRight_xor_distrib, negateIf_sign, BitVec.msb_xor]
  cases a.msb <;> cases b.msb <;> rfl

theorem negated_zero (b : BitVec 64) : (if b.msb then -b else b) = 0 ↔ b = 0 := by
  split
  · exact BitVec.neg_eq_zero_iff
  · exact Iff.rfl

theorem divdi3_outcome (a b : BitVec 64) :
    divdi3 a b = if b = 0 then none else some (a.sdiv b) := by
  unfold divdi3
  simp only [negateIf_sign, negateIf_signs, udivmoddi4_outcome, negated_zero]
  split
  case isTrue => rfl
  case isFalse =>
    unfold BitVec.sdiv answer
    cases a.msb <;> cases b.msb <;> rfl

theorem moddi3_outcome (a b : BitVec 64) :
    moddi3 a b = if b = 0 then none else some (a.srem b) := by
  unfold moddi3
  simp only [negateIf_sign, udivmoddi4_outcome, negated_zero]
  split
  case isTrue => rfl
  case isFalse =>
    unfold BitVec.srem answer
    cases a.msb <;> cases b.msb <;> rfl

theorem remainder_left (a b : BitVec 64) : a - a.sdiv b * b = a.srem b := by
  have rest : a.toInt - a.toInt.tdiv b.toInt * b.toInt = (a.srem b).toInt := by
    rw [BitVec.toInt_srem, Int.tmod_def, Int.mul_comm]
  apply BitVec.eq_of_toInt_eq
  rw [BitVec.toInt_sub, BitVec.toInt_mul, BitVec.toInt_sdiv, Int.sub_bmod_bmod, Int.sub_bmod,
    Int.bmod_mul_bmod, ← Int.sub_bmod, rest, BitVec.toInt_bmod_cancel]

/-- Signed division truncates towards zero and wraps around in its one overflow. -/
theorem signed_division (a b : BitVec 64) :
    (b = 0 ∧ divdi3 a b = none ∧ moddi3 a b = none ∧ divmoddi4 a b = none) ∨
    ∃ q r : BitVec 64, divdi3 a b = some q ∧ moddi3 a b = some r ∧
      divmoddi4 a b = some (q, r) ∧
      q.toInt = (a.toInt.tdiv b.toInt).bmod (2 ^ 64) ∧ r.toInt = a.toInt.tmod b.toInt := by
  unfold divmoddi4
  rw [divdi3_outcome, moddi3_outcome]
  by_cases zero : b = 0
  · left
    simp only [if_pos zero]
    exact ⟨zero, trivial, trivial, rfl⟩
  · right
    simp only [if_neg zero]
    refine ⟨a.sdiv b, a.srem b, rfl, rfl, ?_, BitVec.toInt_sdiv a b, BitVec.toInt_srem a b⟩
    rw [← remainder_left]
    rfl

end Functions

end Int64
