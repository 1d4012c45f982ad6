import JyyOs.Klib.Divide

/-!
The bit counts of int64.c halve the word until two bits are left.
-/
namespace Int64

variable {a x r : BitVec 32} {w : Nat}

section Masks

theorem high_mask {x mask : BitVec 32} {k : Nat} (bits : mask.toNat = (2 ^ k - 1) * 2 ^ k)
    (small : x.toNat < 2 ^ (k + k)) : x &&& mask = 0 ↔ x.toNat < 2 ^ k := by
  have quotient : mask.toNat / 2 ^ k = 2 ^ k - 1 := by
    rw [bits, Nat.mul_div_cancel _ (Nat.two_pow_pos k)]
  have rest : mask.toNat % 2 ^ k = 0 := by
    rw [bits, Nat.mul_mod_left]
  have upper : x.toNat / 2 ^ k < 2 ^ k := by
    rw [Nat.div_lt_iff_lt_mul (Nat.two_pow_pos k), ← Nat.pow_add]
    exact small
  have masked : (x &&& mask).toNat / 2 ^ k = x.toNat / 2 ^ k := by
    rw [BitVec.toNat_and, Nat.and_div_two_pow, quotient, Nat.and_two_pow_sub_one_eq_mod,
      Nat.mod_eq_of_lt upper]
  have nothing : (x &&& mask).toNat % 2 ^ k = 0 := by
    rw [BitVec.toNat_and, Nat.and_mod_two_pow, rest, Nat.and_zero]
  constructor
  · intro zero
    rw [zero, zero_toNat, Nat.zero_div] at masked
    exact (Nat.div_eq_zero_iff_lt (Nat.two_pow_pos k)).mp masked.symm
  · intro low
    rw [Nat.div_eq_of_lt low] at masked
    apply BitVec.eq_of_toNat_eq
    rw [← Nat.div_add_mod (x &&& mask).toNat (2 ^ k), masked, nothing]
    rfl

theorem low_mask {x mask : BitVec 32} {k : Nat} (bits : mask.toNat = 2 ^ k - 1) :
    x &&& mask = 0 ↔ x.toNat % 2 ^ k = 0 := by
  have number : (x &&& mask).toNat = x.toNat % 2 ^ k := by
    rw [BitVec.toNat_and, bits, Nat.and_two_pow_sub_one_eq_mod]
  constructor
  · intro zero
    rw [← number, zero]
    rfl
  · intro zero
    apply BitVec.eq_of_toNat_eq
    rw [number, zero]
    rfl

end Masks

section Leading

/-- The zeros in front of the word are counted in r or lie inside its lowest w bits x. -/
structure Narrowed (a : BitVec 32) (w : Nat) (x r : BitVec 32) : Prop where
  positive : 0 < x.toNat
  inside : x.toNat < 2 ^ w
  taken : ∃ below, x.toNat = a.toNat / 2 ^ below ∧ below + r.toNat + w = 32

theorem truth_shift (condition : Prop) [Decidable condition] {log : Nat} (small : log ≤ 4) :
    (truth condition <<< log).toNat = if condition then 2 ^ log else 0 := by
  unfold truth
  split
  case isTrue =>
    have power := Nat.pow_le_pow_right (n := 2) (by decide) small
    have one : (1 : BitVec 32).toNat = 1 := rfl
    rw [BitVec.toNat_shiftLeft, Nat.shiftLeft_eq, one]
    omega
  case isFalse => simp

theorem Narrowed.step (mask : BitVec 32) (log : Nat) {k : Nat}
    (narrowed : Narrowed a (k + k) x r) (bits : mask.toNat = (2 ^ k - 1) * 2 ^ k) (power : k = 2 ^ log) (small : log ≤ 4) :
    Narrowed a k (clzStep mask k log x r).1 (clzStep mask k log x r).2 := by
  obtain ⟨positive, inside, below, taken, place⟩ := narrowed
  have size := Nat.pow_le_pow_right (n := 2) (by decide) small
  have zeros : (truth (x &&& mask = 0) <<< log).toNat = if x.toNat < 2 ^ k then k else 0 := by
    rw [truth_shift _ small, ← power]
    exact if_congr (high_mask bits inside) rfl rfl
  unfold clzStep
  dsimp only
  by_cases low : x.toNat < 2 ^ k
  · rw [if_pos low] at zeros
    rw [zeros, Nat.sub_self, BitVec.ushiftRight_zero]
    refine ⟨positive, low, below, taken, ?_⟩
    rw [BitVec.toNat_add, zeros]
    omega
  · rw [if_neg low] at zeros
    rw [zeros, Nat.sub_zero]
    have reached : 2 ^ k ≤ x.toNat := Nat.le_of_not_lt low
    refine ⟨?_, ?_, below + k, ?_, ?_⟩
    · rw [shr_toNat]
      exact Nat.div_pos reached (Nat.two_pow_pos k)
    · rw [shr_toNat, Nat.div_lt_iff_lt_mul (Nat.two_pow_pos k), ← Nat.pow_add]
      exact inside
    · rw [shr_toNat, taken, Nat.div_div_eq_div_mul, Nat.pow_add]
    · rw [BitVec.toNat_add, zeros]
      omega

theorem clz_unique {w zeros : Nat} {x : BitVec w} (wide : 0 < w) (few : zeros < w)
    (low : 2 ^ (w - 1 - zeros) ≤ x.toNat) (high : x.toNat < 2 ^ (w - zeros)) :
    x.clz.toNat = zeros := by
  have real : x ≠ 0 := by
    rintro rfl
    have positive := Nat.two_pow_pos (w - 1 - zeros)
    simp at low
  have bottom := BitVec.two_pow_sub_clz_le_toNat_of_ne_zero wide real
  have top := BitVec.toNat_lt_two_pow_sub_clz (x := x)
  have bound := BitVec.lt_def.mp (BitVec.clz_lt_iff_ne_zero.mpr real)
  have first : w - 1 - zeros < w - x.clz.toNat :=
    (Nat.pow_lt_pow_iff_right (by decide)).mp (Nat.lt_of_le_of_lt low top)
  have second : w - 1 - x.clz.toNat < w - zeros :=
    (Nat.pow_lt_pow_iff_right (by decide)).mp (Nat.lt_of_le_of_lt bottom high)
  rw [BitVec.natCast_eq_ofNat, BitVec.toNat_ofNat] at bound
  have width : w % 2 ^ w = w := Nat.mod_eq_of_lt Nat.lt_two_pow_self
  omega

theorem clz_last (positive : 0 < x.toNat) (inside : x.toNat < 2 ^ 2) :
    ((2 - x) &&& -truth (x &&& 2 = 0)).toNat = if x.toNat < 2 then 1 else 0 := by
  have few : x = 1 ∨ x = 2 ∨ x = 3 := by
    have values : x.toNat = 1 ∨ x.toNat = 2 ∨ x.toNat = 3 := by omega
    exact values.imp BitVec.eq_of_toNat_eq (Or.imp BitVec.eq_of_toNat_eq BitVec.eq_of_toNat_eq)
  rcases few with rfl | rfl | rfl <;> rfl

theorem Narrowed.finish (narrowed : Narrowed a 2 x r) :
    (r + ((2 - x) &&& -truth (x &&& 2 = 0))).toNat = a.clz.toNat := by
  obtain ⟨positive, inside, below, taken, place⟩ := narrowed
  have last := clz_last positive inside
  have low : x.toNat * 2 ^ below ≤ a.toNat := by
    rw [taken]
    exact Nat.div_mul_le_self _ _
  have high : a.toNat < (x.toNat + 1) * 2 ^ below := by
    rw [taken]
    rw [Nat.mul_comm]
    exact Nat.lt_mul_div_succ _ (Nat.two_pow_pos below)
  rw [BitVec.toNat_add, last]
  symm
  split
  case isTrue one =>
    obtain small : x.toNat = 1 := by omega
    rw [small] at low high
    have count : (r.toNat + 1) % 2 ^ 32 = r.toNat + 1 := by omega
    have bottom : 32 - 1 - (r.toNat + 1) = below := by omega
    have top : 32 - (r.toNat + 1) = below + 1 := by omega
    rw [count]
    apply clz_unique (by decide) (by omega)
    · rw [bottom]
      omega
    · rw [top, Nat.pow_succ]
      omega
  case isFalse more =>
    have count : (r.toNat + 0) % 2 ^ 32 = r.toNat := by omega
    have bottom : 32 - 1 - r.toNat = below + 1 := by omega
    have top : 32 - r.toNat = below + 2 := by omega
    rw [count]
    apply clz_unique (by decide) (by omega)
    · rw [bottom, Nat.pow_succ, Nat.mul_comm]
      exact Nat.le_trans (Nat.mul_le_mul_right _ (Nat.le_of_not_lt more)) low
    · rw [top, Nat.pow_add, Nat.mul_comm]
      exact Nat.lt_of_lt_of_le high (Nat.mul_le_mul_right _ inside)

theorem clzsi2_toNat (real : a ≠ 0) : (clzsi2 a).toNat = a.clz.toNat := by
  have whole : Narrowed a (16 + 16) a 0 := by
    constructor
    · exact word_positive real
    · exact a.isLt
    · exact ⟨0, by rw [Nat.pow_zero, Nat.div_one], rfl⟩
  have half := whole.step 0xFFFF0000 4 (k := 8 + 8) rfl rfl (by decide)
  have byte := half.step 0xFF00 3 (k := 4 + 4) rfl rfl (by decide)
  have nibble := byte.step 0xF0 2 (k := 2 + 2) rfl rfl (by decide)
  have pair := nibble.step 0xC 1 (k := 2) rfl rfl (by decide)
  exact pair.finish

end Leading

section Trailing

/-- The zeros behind the word's last one are counted in r or lie in the lowest w bits of x. -/
structure Dropped (a : BitVec 32) (w : Nat) (x r : BitVec 32) : Prop where
  taken : x.toNat = a.toNat / 2 ^ r.toNat
  zeros : a.toNat % 2 ^ r.toNat = 0
  inside : x.toNat % 2 ^ w ≠ 0
  room : r.toNat + w ≤ 32

theorem Dropped.step (mask : BitVec 32) (log : Nat) {k : Nat}
    (dropped : Dropped a (k + k) x r) (bits : mask.toNat = 2 ^ k - 1) (power : k = 2 ^ log) (small : log ≤ 4) :
    Dropped a k (ctzStep mask log x r).1 (ctzStep mask log x r).2 := by
  obtain ⟨taken, zeros, inside, room⟩ := dropped
  have size := Nat.pow_le_pow_right (n := 2) (by decide) small
  have count : (truth (x &&& mask = 0) <<< log).toNat = if x.toNat % 2 ^ k = 0 then k else 0 := by
    rw [truth_shift _ small, ← power]
    exact if_congr (low_mask bits) rfl rfl
  unfold ctzStep
  dsimp only
  by_cases low : x.toNat % 2 ^ k = 0
  · rw [if_pos low] at count
    have more : (r + truth (x &&& mask = 0) <<< log).toNat = r.toNat + k := by
      rw [BitVec.toNat_add, count]
      omega
    rw [Nat.pow_add, Nat.mod_mul, low, Nat.zero_add] at inside
    constructor
    · rw [more, count, shr_toNat, taken, Nat.div_div_eq_div_mul, Nat.pow_add]
    · rw [more, Nat.pow_add, Nat.mod_mul, zeros, ← taken, low]
      omega
    · rw [count, shr_toNat]
      intro none_
      rw [none_] at inside
      exact inside (Nat.mul_zero _)
    · rw [more]
      omega
  · rw [if_neg low] at count
    have same : (r + truth (x &&& mask = 0) <<< log).toNat = r.toNat := by
      rw [BitVec.toNat_add, count]
      omega
    rw [count, BitVec.ushiftRight_zero]
    constructor
    · rw [same, taken]
    · rw [same, zeros]
    · exact low
    · rw [same]
      omega

theorem ctz_unique {w zeros : Nat} {x : BitVec w} (behind : x.toNat % 2 ^ zeros = 0)
    (one : x.toNat / 2 ^ zeros % 2 = 1) : x.ctz.toNat = zeros := by
  have real : x ≠ 0 := by
    rintro rfl
    simp at one
  have bit : x.getLsbD zeros = true := by
    rw [BitVec.getLsbD, Nat.testBit_eq_decide_div_mod_eq, one]
    rfl
  have last := BitVec.getLsbD_true_ctz_of_ne_zero real
  rcases Nat.lt_trichotomy x.ctz.toNat zeros with before | same | after
  · have clear : (x.toNat % 2 ^ zeros).testBit x.ctz.toNat = true := by
      rw [Nat.testBit_mod_two_pow, decide_eq_true before]
      exact last
    rw [behind, Nat.zero_testBit] at clear
    exact absurd clear (by decide)
  · exact same
  · rw [BitVec.getLsbD_false_of_lt_ctz after] at bit
    exact absurd bit (by decide)

theorem ctz_last (inside : x.toNat % 2 ^ 2 ≠ 0) :
    (((2 : BitVec 32) - (x &&& 3) >>> 1) &&& -truth (x &&& 3 &&& 1 = 0)).toNat
      = if x.toNat % 2 = 0 then 1 else 0 := by
  have number : (x &&& 3).toNat = x.toNat % 2 ^ 2 := Nat.and_two_pow_sub_one_eq_mod x.toNat 2
  have values : (x &&& 3).toNat = 1 ∨ (x &&& 3).toNat = 2 ∨ (x &&& 3).toNat = 3 := by omega
  have few : x &&& 3 = 1 ∨ x &&& 3 = 2 ∨ x &&& 3 = 3 :=
    values.imp BitVec.eq_of_toNat_eq (Or.imp BitVec.eq_of_toNat_eq BitVec.eq_of_toNat_eq)
  rcases few with one | two | three
  · have odd : x.toNat % 2 ≠ 0 := by
      rw [one, show (1 : BitVec 32).toNat = 1 from rfl] at number
      omega
    rw [one, if_neg odd]
    rfl
  · have even : x.toNat % 2 = 0 := by
      rw [two, show (2 : BitVec 32).toNat = 2 from rfl] at number
      omega
    rw [two, if_pos even]
    rfl
  · have odd : x.toNat % 2 ≠ 0 := by
      rw [three, show (3 : BitVec 32).toNat = 3 from rfl] at number
      omega
    rw [three, if_neg odd]
    rfl

theorem Dropped.finish (dropped : Dropped a 2 x r) :
    (r + (((2 : BitVec 32) - (x &&& 3) >>> 1) &&& -truth (x &&& 3 &&& 1 = 0))).toNat = a.ctz.toNat := by
  obtain ⟨taken, zeros, inside, room⟩ := dropped
  have last := ctz_last inside
  rw [BitVec.toNat_add, last]
  symm
  split
  case isTrue even =>
    have count : (r.toNat + 1) % 2 ^ 32 = r.toNat + 1 := by omega
    rw [count]
    apply ctz_unique
    · rw [Nat.pow_succ, Nat.mod_mul, zeros, ← taken, even, Nat.mul_zero]
    · rw [Nat.pow_succ, ← Nat.div_div_eq_div_mul, ← taken]
      omega
  case isFalse odd =>
    have count : (r.toNat + 0) % 2 ^ 32 = r.toNat := by omega
    rw [count]
    apply ctz_unique zeros
    rw [← taken]
    omega

theorem ctzsi2_toNat (real : a ≠ 0) : (ctzsi2 a).toNat = a.ctz.toNat := by
  have whole : Dropped a (16 + 16) a 0 := by
    constructor
    · rw [zero_toNat, Nat.pow_zero, Nat.div_one]
    · rw [zero_toNat, Nat.pow_zero, Nat.mod_one]
    · have positive := word_positive real
      have small := a.isLt
      omega
    · exact Nat.le_refl 32
  have half := whole.step 0xFFFF 4 (k := 8 + 8) rfl rfl (by decide)
  have byte := half.step 0xFF 3 (k := 4 + 4) rfl rfl (by decide)
  have nibble := byte.step 0xF 2 (k := 2 + 2) rfl rfl (by decide)
  have pair := nibble.step 0x3 1 (k := 2) rfl rfl (by decide)
  exact pair.finish

end Trailing

section Words

theorem choose_word (condition : Prop) [Decidable condition] (x y : BitVec 32) :
    (x &&& ~~~(-truth condition)) ||| (y &&& -truth condition)
      = if condition then y else x := by
  unfold truth
  split
  case isTrue =>
    have ones : (-1 : BitVec 32) = BitVec.allOnes 32 := by decide
    rw [ones, BitVec.not_allOnes, BitVec.and_allOnes]
    simp
  case isFalse =>
    have ones : ~~~(-0 : BitVec 32) = BitVec.allOnes 32 := by decide
    rw [ones, BitVec.and_allOnes]
    simp

theorem add_word (condition : Prop) [Decidable condition] (x : BitVec 32) (few : x.toNat < 32) :
    (x + (-truth condition &&& 32)).toNat = if condition then x.toNat + 32 else x.toNat := by
  have thirty_two : (32 : BitVec 32).toNat = 32 := rfl
  unfold truth
  split
  case isTrue =>
    have mask : (-1 : BitVec 32) &&& 32 = 32 := by decide
    rw [mask, BitVec.toNat_add, thirty_two]
    omega
  case isFalse => simp

theorem ctz_few {x : BitVec 32} (real : x ≠ 0) : x.ctz.toNat < 32 :=
  BitVec.lt_def.mp (BitVec.ctz_lt_iff_ne_zero.mpr real)

theorem clzdi2_toNat {a : BitVec 64} (real : a ≠ 0) : (clzdi2 a).toNat = a.clz.toNat := by
  have words := ofAll_all a
  unfold clzdi2
  dsimp only
  generalize Udwords.ofAll a = n at words ⊢
  subst words
  rw [choose_word]
  split
  case isTrue zero =>
    have word : n.low ≠ 0 := fun low => real (all_zero.mpr ⟨zero, low⟩)
    obtain ⟨c, count, few, low, high⟩ := builtinClz_bounds word
    rw [builtinClz, if_neg word] at count
    have counted : (clzsi2 n.low).toNat = c := (clzsi2_toNat word).trans (Option.some.inj count)
    have number : n.all.toNat = n.low.toNat := by
      rw [all_toNat, zero, zero_toNat, Nat.zero_mul, Nat.zero_add]
    rw [add_word _ _ (by omega), if_pos zero, counted]
    symm
    apply clz_unique (by decide) (by omega)
    · rw [number, show 64 - 1 - (c + 32) = 31 - c by omega]
      exact low
    · rw [number, show 64 - (c + 32) = 32 - c by omega]
      exact high
  case isFalse word =>
    obtain ⟨c, count, few, low, high⟩ := builtinClz_bounds word
    rw [builtinClz, if_neg word] at count
    have counted : (clzsi2 n.high).toNat = c := (clzsi2_toNat word).trans (Option.some.inj count)
    rw [show 32 - c = 31 - c + 1 by omega] at high
    obtain ⟨bottom, top⟩ := number_bounds low high
    rw [add_word _ _ (by omega), if_neg word, counted]
    symm
    apply clz_unique (by decide) (by omega)
    · rw [show 64 - 1 - c = 31 - c + 32 by omega]
      exact bottom
    · rw [show 64 - c = 31 - c + 33 by omega]
      exact top

theorem ctz_parts {w : Nat} {x : BitVec w} (real : x ≠ 0) :
    x.toNat % 2 ^ x.ctz.toNat = 0 ∧ x.toNat / 2 ^ x.ctz.toNat % 2 = 1 := by
  constructor
  · apply Nat.eq_of_testBit_eq
    intro i
    rw [Nat.testBit_mod_two_pow, Nat.zero_testBit]
    by_cases before : i < x.ctz.toNat
    · rw [decide_eq_true before]
      exact BitVec.getLsbD_false_of_lt_ctz before
    · rw [decide_eq_false before, Bool.false_and]
  · have last := BitVec.getLsbD_true_ctz_of_ne_zero real
    rw [BitVec.getLsbD, Nat.testBit_eq_decide_div_mod_eq] at last
    exact of_decide_eq_true last

theorem ctzdi2_toNat {a : BitVec 64} (real : a ≠ 0) : (ctzdi2 a).toNat = a.ctz.toNat := by
  have words := ofAll_all a
  unfold ctzdi2
  dsimp only
  generalize Udwords.ofAll a = n at words ⊢
  subst words
  rw [BitVec.or_comm, choose_word]
  split
  case isTrue zero =>
    have word : n.high ≠ 0 := fun high => real (all_zero.mpr ⟨high, zero⟩)
    have few := ctz_few word
    have counted := ctzsi2_toNat word
    obtain ⟨behind, one⟩ := ctz_parts word
    have number : n.all.toNat = 2 ^ 32 * n.high.toNat := by
      rw [all_toNat, zero, zero_toNat, Nat.add_zero, Nat.mul_comm]
    rw [add_word _ _ (by omega), if_pos zero, counted, Nat.add_comm]
    symm
    apply ctz_unique
    · rw [number, Nat.pow_add, Nat.mul_mod_mul_left, behind, Nat.mul_zero]
    · rw [number, Nat.pow_add, Nat.mul_div_mul_left _ _ (by decide), one]
  case isFalse word =>
    have few := ctz_few word
    have counted := ctzsi2_toNat word
    obtain ⟨behind, one⟩ := ctz_parts word
    have multiple : 2 ^ (n.low.ctz.toNat + 1) ∣ 2 ^ 32 := Nat.pow_dvd_pow 2 few
    have same : n.all.toNat % 2 ^ (n.low.ctz.toNat + 1)
        = n.low.toNat % 2 ^ (n.low.ctz.toNat + 1) := by
      rw [all_toNat, Nat.add_mod, Nat.mod_eq_zero_of_dvd (multiple.mul_left _), Nat.zero_add,
        Nat.mod_mod]
    rw [Nat.pow_succ, Nat.mod_mul, Nat.mod_mul, behind, one] at same
    have positive := Nat.two_pow_pos n.low.ctz.toNat
    have rest := Nat.mod_lt n.all.toNat positive
    have bit : n.all.toNat / 2 ^ n.low.ctz.toNat % 2 = 1 := by
      rcases Nat.mod_two_eq_zero_or_one (n.all.toNat / 2 ^ n.low.ctz.toNat) with none_ | one_
      · rw [none_] at same
        omega
      · exact one_
    rw [bit] at same
    rw [add_word _ _ (by omega), if_neg word, counted]
    symm
    apply ctz_unique
    · omega
    · exact bit

/-- The counts of leading and trailing zeros that have a word to count in. -/
theorem bit_counts {a : BitVec 64} {b : BitVec 32} (real : a ≠ 0) (word : b ≠ 0) :
    (clzdi2 a).toNat = a.clz.toNat ∧ (ctzdi2 a).toNat = a.ctz.toNat ∧
      builtinClz b = some (clzsi2 b).toNat ∧ builtinCtz b = some (ctzsi2 b).toNat := by
  refine ⟨clzdi2_toNat real, ctzdi2_toNat real, ?_, ?_⟩
  · rw [builtinClz, if_neg word, clzsi2_toNat word]
  · rw [builtinCtz, if_neg word, ctzsi2_toNat word]

theorem bit_counts_of_twelve :
    (clzdi2 12).toNat = (12 : BitVec 64).clz.toNat ∧
      (ctzdi2 12).toNat = (12 : BitVec 64).ctz.toNat ∧
      builtinClz 12 = some (clzsi2 12).toNat ∧ builtinCtz 12 = some (ctzsi2 12).toNat :=
  bit_counts (by decide) (by decide)

end Words

end Int64
