import JyyOs.Library.LongDivision
import Mathlib.Tactic.Ring

/-!
The 64-bit division and bit counting of int64.c. A shift by a whole word, a count of the zeros
of zero and a division by zero have no value.
-/
namespace Int64

structure Udwords where
  high : BitVec 32
  low : BitVec 32

namespace Udwords

def all (x : Udwords) : BitVec 64 := x.high ++ x.low

def ofAll (a : BitVec 64) : Udwords where
  high := a.extractLsb' 32 32
  low := a.setWidth 32

end Udwords

def nUwordBits : Nat := 32

def nUdwordBits : Nat := 64

def unsigned (x : Int) : Nat :=
  (x % 2 ^ 32).toNat

def shl (x : BitVec 32) (k : Nat) : Option (BitVec 32) :=
  if k < nUwordBits then some (x <<< k) else none

def shr (x : BitVec 32) (k : Nat) : Option (BitVec 32) :=
  if k < nUwordBits then some (x >>> k) else none

def divide (x y : BitVec 32) : Option (BitVec 32) :=
  if y = 0 then none else some (x / y)

def modulo (x y : BitVec 32) : Option (BitVec 32) :=
  if y = 0 then none else some (x % y)

def builtinClz (x : BitVec 32) : Option Nat :=
  if x = 0 then none else some x.clz.toNat

def builtinCtz (x : BitVec 32) : Option Nat :=
  if x = 0 then none else some x.ctz.toNat

/-- *rem = value, if the caller wants the remainder. -/
def store (rem : Bool) (value : Option (BitVec 64)) : Option (Option (BitVec 64)) :=
  if rem then value.map some else some none

structure Registers where
  q : Udwords
  r : Udwords
  carry : BitVec 32

/-- The upper half of (r:q) << 1. -/
def shiftRemainder (x : Registers) : Udwords where
  high := (x.r.high <<< 1) ||| (x.r.low >>> (nUwordBits - 1))
  low := (x.r.low <<< 1) ||| (x.q.high >>> (nUwordBits - 1))

/-- The lower half of (r:q) << 1, with the carry. -/
def shiftQuotient (x : Registers) : Udwords where
  high := (x.q.high <<< 1) ||| (x.q.low >>> (nUwordBits - 1))
  low := (x.q.low <<< 1) ||| x.carry

def round (d : Udwords) (x : Registers) : Registers :=
  let r := shiftRemainder x
  let s := (d.all - r.all - 1).sshiftRight (nUdwordBits - 1)
  { q := shiftQuotient x
    r := Udwords.ofAll (r.all - (d.all &&& s))
    carry := (s &&& 1).setWidth 32 }

def rounds (d : Udwords) : Nat → Registers → Registers
  | 0, x => x
  | sr + 1, x => rounds d sr (round d x)

/-- q = n << (64 - sr) and r = n >> sr, for 1 <= sr <= 31. -/
def splitLow (n : Udwords) (sr : Nat) : Option Registers := do
  let qHigh ← shl n.low (nUwordBits - sr)
  let rHigh ← shr n.high sr
  let up ← shl n.high (nUwordBits - sr)
  let down ← shr n.low sr
  return { q := ⟨qHigh, 0⟩, r := ⟨rHigh, up ||| down⟩, carry := 0 }

def splitMiddle (n : Udwords) : Registers where
  q := ⟨n.low, 0⟩
  r := ⟨0, n.high⟩
  carry := 0

/-- q = n << (64 - sr) and r = n >> sr, for 33 <= sr <= 63. -/
def splitHigh (n : Udwords) (sr : Nat) : Option Registers := do
  let qLow ← shl n.low (nUdwordBits - sr)
  let up ← shl n.high (nUdwordBits - sr)
  let down ← shr n.low (sr - nUwordBits)
  let rLow ← shr n.high (sr - nUwordBits)
  return { q := ⟨up ||| down, qLow⟩, r := ⟨0, rLow⟩, carry := 0 }

def divideRounds (d : Udwords) (sr : Nat) (rem : Bool) (x : Registers) :
    Option (BitVec 64 × Option (BitVec 64)) := do
  let x := rounds d sr x
  let stored ← store rem (some x.r.all)
  return ((x.q.all <<< 1) ||| x.carry.setWidth 64, stored)

/-- n.s.high == 0 -/
def divideLow (n d : Udwords) (rem : Bool) : Option (BitVec 64 × Option (BitVec 64)) := do
  if d.high = 0 then
    let stored ← store rem ((modulo n.low d.low).map (·.setWidth 64))
    let q ← divide n.low d.low
    return (q.setWidth 64, stored)
  else
    let stored ← store rem (some (n.low.setWidth 64))
    return (0, stored)

/-- n.s.high != 0 and d.s.low == 0 -/
def divideByHigh (n d : Udwords) (rem : Bool) : Option (BitVec 64 × Option (BitVec 64)) := do
  if d.high = 0 then
    let stored ← store rem ((modulo n.high d.low).map (·.setWidth 64))
    let q ← divide n.high d.low
    return (q.setWidth 64, stored)
  else if n.low = 0 then
    let stored ← store rem ((modulo n.high d.high).map fun high => Udwords.all ⟨high, 0⟩)
    let q ← divide n.high d.high
    return (q.setWidth 64, stored)
  else if d.high &&& (d.high - 1) = 0 then
    let stored ← store rem (some (Udwords.all ⟨n.high &&& (d.high - 1), n.low⟩))
    let zeros ← builtinCtz d.high
    let q ← shr n.high zeros
    return (q.setWidth 64, stored)
  else
    let dZeros ← builtinClz d.high
    let nZeros ← builtinClz n.high
    let sr := unsigned (dZeros - nZeros)
    if sr > nUwordBits - 2 then
      let stored ← store rem (some n.all)
      return (0, stored)
    else
      let x ← splitLow n (sr + 1)
      divideRounds d (sr + 1) rem x

/-- n.s.high != 0, d.s.low != 0 and d.s.high == 0 -/
def divideByLow (n d : Udwords) (rem : Bool) : Option (BitVec 64 × Option (BitVec 64)) := do
  if d.low &&& (d.low - 1) = 0 then
    let stored ← store rem (some ((n.low &&& (d.low - 1)).setWidth 64))
    if d.low = 1 then
      return (n.all, stored)
    else
      let sr ← builtinCtz d.low
      let qHigh ← shr n.high sr
      let up ← shl n.high (nUwordBits - sr)
      let down ← shr n.low sr
      return (Udwords.all ⟨qHigh, up ||| down⟩, stored)
  else
    let dZeros ← builtinClz d.low
    let nZeros ← builtinClz n.high
    let sr := unsigned (1 + nUwordBits + dZeros - nZeros)
    if sr = nUwordBits then
      divideRounds d sr rem (splitMiddle n)
    else if sr < nUwordBits then
      let x ← splitLow n sr
      divideRounds d sr rem x
    else
      let x ← splitHigh n sr
      divideRounds d sr rem x

/-- n.s.high, d.s.low and d.s.high are not 0 -/
def divideByBoth (n d : Udwords) (rem : Bool) : Option (BitVec 64 × Option (BitVec 64)) := do
  let dZeros ← builtinClz d.high
  let nZeros ← builtinClz n.high
  let sr := unsigned (dZeros - nZeros)
  if sr > nUwordBits - 1 then
    let stored ← store rem (some n.all)
    return (0, stored)
  else if sr + 1 = nUwordBits then
    divideRounds d (sr + 1) rem (splitMiddle n)
  else
    let x ← splitLow n (sr + 1)
    divideRounds d (sr + 1) rem x

def udivmoddi4 (a b : BitVec 64) (rem : Bool) : Option (BitVec 64 × Option (BitVec 64)) :=
  let n := Udwords.ofAll a
  let d := Udwords.ofAll b
  if n.high = 0 then divideLow n d rem
  else if d.low = 0 then divideByHigh n d rem
  else if d.high = 0 then divideByLow n d rem
  else divideByBoth n d rem

def udivdi3 (a b : BitVec 64) : Option (BitVec 64) := do
  let (q, _) ← udivmoddi4 a b false
  return q

def umoddi3 (a b : BitVec 64) : Option (BitVec 64) := do
  let (_, r) ← udivmoddi4 a b true
  r

/-- (x ^ s) - s: negates if s is -1. -/
def negateIf (x s : BitVec 64) : BitVec 64 :=
  (x ^^^ s) - s

def divdi3 (a b : BitVec 64) : Option (BitVec 64) := do
  let sa := a.sshiftRight (nUdwordBits - 1)
  let sb := b.sshiftRight (nUdwordBits - 1)
  let (q, _) ← udivmoddi4 (negateIf a sa) (negateIf b sb) false
  return negateIf q (sa ^^^ sb)

def divmoddi4 (a b : BitVec 64) : Option (BitVec 64 × BitVec 64) := do
  let d ← divdi3 a b
  return (d, a - d * b)

def moddi3 (a b : BitVec 64) : Option (BitVec 64) := do
  let sb := b.sshiftRight (nUdwordBits - 1)
  let sa := a.sshiftRight (nUdwordBits - 1)
  let (_, r) ← udivmoddi4 (negateIf a sa) (negateIf b sb) true
  let r ← r
  return negateIf r sa

def truth (condition : Prop) [Decidable condition] : BitVec 32 :=
  if condition then 1 else 0

def clzStep (mask : BitVec 32) (bits log : Nat) (x r : BitVec 32) : BitVec 32 × BitVec 32 :=
  let t := truth (x &&& mask = 0) <<< log
  (x >>> (bits - t.toNat), r + t)

def clzsi2 (a : BitVec 32) : BitVec 32 :=
  let (x, r) := clzStep 0xFFFF0000 16 4 a 0
  let (x, r) := clzStep 0xFF00 8 3 x r
  let (x, r) := clzStep 0xF0 4 2 x r
  let (x, r) := clzStep 0xC 2 1 x r
  r + ((2 - x) &&& -truth (x &&& 2 = 0))

def ctzStep (mask : BitVec 32) (log : Nat) (x r : BitVec 32) : BitVec 32 × BitVec 32 :=
  let t := truth (x &&& mask = 0) <<< log
  (x >>> t.toNat, r + t)

def ctzsi2 (a : BitVec 32) : BitVec 32 :=
  let (x, r) := ctzStep 0xFFFF 4 a 0
  let (x, r) := ctzStep 0xFF 3 x r
  let (x, r) := ctzStep 0xF 2 x r
  let (x, r) := ctzStep 0x3 1 x r
  let x := x &&& 3
  r + (((2 : BitVec 32) - x >>> 1) &&& -truth (x &&& 1 = 0))

def ctzdi2 (a : BitVec 64) : BitVec 32 :=
  let x := Udwords.ofAll a
  let f := -truth (x.low = 0)
  ctzsi2 ((x.high &&& f) ||| (x.low &&& ~~~f)) + (f &&& 32)

def clzdi2 (a : BitVec 64) : BitVec 32 :=
  let x := Udwords.ofAll a
  let f := -truth (x.high = 0)
  clzsi2 ((x.high &&& ~~~f) ||| (x.low &&& f)) + (f &&& 32)

end Int64
