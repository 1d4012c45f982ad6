import JyyOs.Klib.String
import Mathlib.Data.Nat.Digits.Defs

/-!
stdio.c and atoi of klib. A format is its characters up to the NUL; `none` is a read behind that
NUL, a missing argument, an argument of the wrong kind or a write outside the scratch buffer.
-/
namespace Klib

def ch (c : Char) : UInt8 := UInt8.ofNat c.toNat

inductive Arg where
  | word (v : Nat)
  | text (s : Text)

/-- An int passed as an argument, sign-extended to its slot. -/
def Arg.int (n : Int) : Arg := .word (n % 2 ^ 64).toNat

def table (d : Nat) : UInt8 := if d < 10 then UInt8.ofNat (48 + d) else UInt8.ofNat (55 + d)

/-- `*--end = b` in the scratch buffer, whose first byte is at 0. -/
def putBefore (b : UInt8) : Nat → (Nat → UInt8) → Option (Nat × (Nat → UInt8))
  | 0, _ => none
  | e + 1, s => some (e, Function.update s e b)

def itosLoop (base : Nat) : Nat → Nat → Int → (Nat → UInt8) → Option (Nat × (Nat → UInt8))
  | 0, val, length, s =>
    if (val ≠ 0 ∨ length ≠ 0) ∧ ¬(val = 0 ∧ length < 0) then none else some (0, s)
  | e + 1, val, length, s =>
    if (val ≠ 0 ∨ length ≠ 0) ∧ ¬(val = 0 ∧ length < 0) then
      itosLoop base e (val / base) (length - 1) (Function.update s e (table (val % base)))
    else some (e + 1, s)

def itos (val e base : Nat) (length : Int) (s : Nat → UInt8) : Option (Nat × (Nat → UInt8)) := do
  let (e, s) ← itosLoop base e val length (Function.update s e 0)
  if base = 16 then
    let (e, s) ← putBefore (ch 'x') e s
    putBefore (ch '0') e s
  else return (e, s)

def scratchSize : Nat := 50

/-- `for (p = ps; *p; ++p)` over the scratch buffer, with `left` of its bytes ahead. -/
def scratchText (s : Nat → UInt8) : Nat → Nat → Option (List UInt8)
  | 0, _ => none
  | left + 1, p => if s p = 0 then some [] else (scratchText s left (p + 1)).map (s p :: ·)

def itosText (val base : Nat) (length : Int) : Option (List UInt8) := do
  let (e, s) ← itos val 49 base length (Function.update (fun _ => 0) 49 0)
  scratchText s (scratchSize - e) e

def vaInt : List Arg → Option (Nat × List Arg)
  | .word v :: args => some (v % 2 ^ 32, args)
  | _ => none

def vaPtr : List Arg → Option (Nat × List Arg)
  | .word v :: args => some (v % 2 ^ 64, args)
  | _ => none

def vaText : List Arg → Option (Text × List Arg)
  | .text s :: args => some (s, args)
  | _ => none

/-- What the cases 'l', 'd' and 'u' write; `i` is unsigned, so it is never negative. -/
def intText (i : Nat) : Option (List UInt8) :=
  if i = 0 then some [ch '0']
  else if i < 0 then (itosText (2 ^ 32 - i) 10 (-1)).map (ch '-' :: ·)
  else itosText i 10 (-1)

def caseInt (args : List Arg) : Option (List UInt8 × List Arg) := do
  let (i, args) ← vaInt args
  let text ← intText i
  return (text, args)

/-- The switch of vsprintf without the case 'l': what it writes, and the arguments it leaves. -/
def switch (c : UInt8) (args : List Arg) : Option (List UInt8 × List Arg) :=
  if c = ch 'c' then do
    let (i, args) ← vaInt args
    return ([UInt8.ofNat i], args)
  else if c = ch 'd' ∨ c = ch 'u' then caseInt args
  else if c = ch 's' then do
    let (ps, args) ← vaText args
    return (ps.bytes, args)
  else if c = ch 'p' then do
    let (iptr, args) ← vaPtr args
    let text ← itosText iptr 16 8
    return (text, args)
  else return ([ch '?'], args)

def vsprintfLoop : List UInt8 → List Arg → Option (List UInt8 × List Arg)
  | [], args => some ([], args)
  | b :: fmt, args =>
    if b ≠ ch '%' then do
      let (out, rest) ← vsprintfLoop fmt args
      return (b :: out, rest)
    else
      match fmt with
      -- The NUL itself is taken for a conversion, and the loop goes on behind it.
      | [] => none
      | c :: fmt =>
        if c = ch 'l' then
          match fmt with
          | [] => none
          | _ :: fmt => do
            let (text, args) ← caseInt args
            let (out, rest) ← vsprintfLoop fmt args
            return (text ++ out, rest)
        else do
          let (text, args) ← switch c args
          let (out, rest) ← vsprintfLoop fmt args
          return (text ++ out, rest)

/-- vsprintf: what it writes in front of the NUL, what it returns, and the arguments it leaves. -/
def vsprintf (fmt : List UInt8) (args : List Arg) : Option (List UInt8 × Nat × List Arg) := do
  let (out, rest) ← vsprintfLoop fmt args
  return (out, out.length + 1, rest)

/-- The second loop of atoi. Its int wraps around. -/
def atoiLoop : List UInt8 → Int → Option Int
  | [], _ => none
  | b :: nptr, x =>
    if 48 ≤ signed b ∧ signed b ≤ 57 then
      atoiLoop nptr (Int.bmod (x * 10 + signed b - 48) (2 ^ 32))
    else some x

def atoi : List UInt8 → Option Int
  | [] => none
  | b :: nptr => if b = ch ' ' then atoi nptr else atoiLoop (b :: nptr) 0

example : (vsprintf [ch '%', ch 'd', ch '!'] [.int (-1)]).map (fun r => r.1.length) = some 11 := by
  decide +kernel

end Klib
