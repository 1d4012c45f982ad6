import Mathlib.Data.Nat.Basic
import Mathlib.Tactic.Ring

/-!
Long division in base two. The remainder takes the next bit of the dividend and stays below the
divisor, and the quotient gets one digit for each bit.
-/
namespace LongDivision

variable {n d s q r : Nat}

/-- The remainder with bit s of the dividend behind it. -/
def bring (n s r : Nat) : Nat :=
  2 * r + n / 2 ^ s % 2

def digit (d r : Nat) : Nat :=
  if d ≤ r then 1 else 0

/-- The quotient and the remainder of the dividend without its lowest s bits. -/
structure Divides (n d s q r : Nat) : Prop where
  parts : n / 2 ^ s = q * d + r
  small : r < d

theorem digit_le_one (d r : Nat) : digit d r ≤ 1 := by
  unfold digit
  split <;> omega

theorem upper_bits (n s : Nat) : n / 2 ^ s = 2 * (n / 2 ^ (s + 1)) + n / 2 ^ s % 2 := by
  rw [Nat.pow_succ, ← Nat.div_div_eq_div_mul]
  omega

theorem Divides.start (below : n / 2 ^ s < d) : Divides n d s 0 (n / 2 ^ s) := by
  constructor
  · rw [Nat.zero_mul, Nat.zero_add]
  · exact below

theorem Divides.brought (divides : Divides n d (s + 1) q r) :
    n / 2 ^ s = 2 * q * d + bring n s r := by
  have parts := divides.parts
  have bits := upper_bits n s
  rw [parts] at bits
  unfold bring
  rw [bits, Nat.mul_add, Nat.mul_assoc, Nat.add_assoc]
  omega

theorem Divides.bring_lt (divides : Divides n d (s + 1) q r) : bring n s r < 2 * d := by
  have small := divides.small
  have bit := Nat.mod_lt (n / 2 ^ s) (Nat.zero_lt_two)
  unfold bring
  omega

theorem Divides.bring_le (divides : Divides n d (s + 1) q r) : bring n s r ≤ n := by
  have whole := divides.brought
  have part := Nat.div_le_self n (2 ^ s)
  omega

theorem Divides.next (divides : Divides n d (s + 1) q r) :
    Divides n d s (2 * q + digit d (bring n s r))
      (bring n s r - d * digit d (bring n s r)) := by
  have whole := divides.brought
  have below := divides.bring_lt
  unfold digit
  split
  case isTrue reached =>
    constructor
    · rw [Nat.add_mul, Nat.one_mul, Nat.mul_one, whole]
      omega
    · omega
  case isFalse low =>
    constructor
    · rw [Nat.add_zero, Nat.mul_zero, Nat.sub_zero, whole]
    · omega

theorem Divides.done (divides : Divides n d 0 q r) : q = n / d ∧ r = n % d := by
  have parts : n = q * d + r := by
    have whole := divides.parts
    rwa [Nat.pow_zero, Nat.div_one] at whole
  have small := divides.small
  have positive : 0 < d := Nat.zero_lt_of_lt small
  constructor
  · rw [parts, Nat.add_comm, Nat.add_mul_div_right r q positive, Nat.div_eq_of_lt small,
      Nat.zero_add]
  · rw [parts, Nat.add_comm, Nat.add_mul_mod_self_right, Nat.mod_eq_of_lt small]

theorem start_below {a b : Nat} (top : n < 2 ^ a) (bottom : 2 ^ b ≤ d) (place : a = s + b) :
    n / 2 ^ s < d := by
  rw [Nat.div_lt_iff_lt_mul (Nat.two_pow_pos s)]
  calc n < 2 ^ (s + b) := place ▸ top
    _ = 2 ^ b * 2 ^ s := by rw [Nat.pow_add, Nat.mul_comm]
    _ ≤ d * 2 ^ s := Nat.mul_le_mul_right _ bottom

end LongDivision
