import JyyOs.Klib.Numbers

/-!
What vsprintf does with a whole format, and the bounds of sprintf and snprintf.
-/
namespace Klib

section Pieces

/-- %d, %u, %ld and %lu are all `int`. -/
inductive Conv where
  | char
  | int
  | text
  | pointer
  deriving DecidableEq

/-- A format in pieces; `unknown` is a '%' that begins no conversion. -/
inductive Piece where
  | text (b : UInt8)
  | conv (k : Conv)
  | unknown
  deriving DecidableEq

def conversionOf (c : UInt8) : Option Conv :=
  if c = ch 'c' then some .char
  else if c = ch 'd' ∨ c = ch 'u' then some .int
  else if c = ch 's' then some .text
  else if c = ch 'p' then some .pointer
  else none

def pieces : List UInt8 → List Piece
  | [] => []
  | b :: fmt =>
    if b ≠ ch '%' then .text b :: pieces fmt
    else
      match fmt with
      | [] => [.unknown]
      | c :: fmt =>
        if c = ch 'l' then
          match fmt with
          | [] => [.unknown]
          | m :: fmt =>
            if m = ch 'd' ∨ m = ch 'u' then .conv .int :: pieces fmt
            else .unknown :: pieces (m :: fmt)
        else
          match conversionOf c with
          | some k => .conv k :: pieces fmt
          | none => .unknown :: pieces fmt
  termination_by fmt => fmt.length

def Conv.written : Conv → Arg → Option (List UInt8)
  | .char, .word v => some [UInt8.ofNat (v % 2 ^ 32)]
  | .int, .word v => intText (v % 2 ^ 32)
  | .text, .text s => some s.bytes
  | .pointer, .word v => itosText (v % 2 ^ 64) 16 8
  | _, _ => none

/-- The text of a format: each conversion takes one argument, a '%' that begins none is a '?',
    and every other character stands for itself. -/
inductive Renders : List Piece → List Arg → List UInt8 → Prop
  | done : Renders [] [] []
  | text (b : UInt8) {ps : List Piece} {used : List Arg} {out : List UInt8}
      (rest : Renders ps used out) : Renders (.text b :: ps) used (b :: out)
  | unknown {ps : List Piece} {used : List Arg} {out : List UInt8}
      (rest : Renders ps used out) : Renders (.unknown :: ps) used (ch '?' :: out)
  | conv {k : Conv} {ps : List Piece} {arg : Arg} {used : List Arg} {text out : List UInt8}
      (written : k.written arg = some text) (rest : Renders ps used out) :
      Renders (.conv k :: ps) (arg :: used) (text ++ out)

/-- Every '%' has a character behind it that is not an 'l', or an 'l' and then a 'd' or 'u'. -/
def Complete : List UInt8 → Prop
  | [] => True
  | b :: fmt =>
    if b ≠ ch '%' then Complete fmt
    else
      match fmt with
      | [] => False
      | c :: fmt =>
        if c = ch 'l' then
          match fmt with
          | [] => False
          | m :: fmt => (m = ch 'd' ∨ m = ch 'u') ∧ Complete fmt
        else Complete fmt

end Pieces

section Steps

variable {b c m : UInt8} {fmt out text : List UInt8} {args rest used : List Arg}

def Continues (first : Option (List UInt8 × List Arg)) (fmt out : List UInt8) (rest : List Arg) :
    Prop :=
  ∃ text left later, first = some (text, left) ∧ vsprintfLoop fmt left = some (later, rest) ∧
    out = text ++ later

theorem continues_iff {first : Option (List UInt8 × List Arg)} :
    (do
      let (text, args) ← first
      let (out, rest) ← vsprintfLoop fmt args
      return (text ++ out, rest)) = some (out, rest) ↔ Continues first fmt out rest := by
  simp only [Option.bind_eq_bind, Option.pure_def, Option.bind_eq_some_iff, Option.some_inj,
    Prod.exists, Prod.mk.injEq, Continues]
  constructor
  · rintro ⟨text, left, ran, later, _, ran', rfl, rfl⟩
    exact ⟨text, left, later, ran, ran', rfl⟩
  · rintro ⟨text, left, later, ran, ran', rfl⟩
    exact ⟨text, left, ran, later, rest, ran', rfl, rfl⟩

theorem loop_text (plain : b ≠ ch '%') :
    vsprintfLoop (b :: fmt) args = some (out, rest) ↔
      ∃ later, out = b :: later ∧ vsprintfLoop fmt args = some (later, rest) := by
  rw [vsprintfLoop.eq_def]
  dsimp only
  rw [if_pos plain]
  simp only [Option.bind_eq_bind, Option.pure_def, Option.bind_eq_some_iff, Option.some_inj,
    Prod.exists, Prod.mk.injEq]
  constructor
  · rintro ⟨later, _, ran, rfl, rfl⟩
    exact ⟨later, rfl, ran⟩
  · rintro ⟨later, rfl, ran⟩
    exact ⟨later, rest, ran, rfl, rfl⟩

theorem loop_ends_inside (mark : ¬b ≠ ch '%') : vsprintfLoop [b] args = none := by
  rw [vsprintfLoop.eq_def]
  dsimp only
  rw [if_neg mark]

theorem loop_ends_behind_l (mark : ¬b ≠ ch '%') (long : c = ch 'l') :
    vsprintfLoop [b, c] args = none := by
  rw [vsprintfLoop.eq_def]
  dsimp only
  rw [if_neg mark, if_pos long]

theorem loop_long (mark : ¬b ≠ ch '%') (long : c = ch 'l') :
    vsprintfLoop (b :: c :: m :: fmt) args = some (out, rest) ↔
      Continues (caseInt args) fmt out rest := by
  rw [vsprintfLoop.eq_def]
  dsimp only
  rw [if_neg mark, if_pos long, ← continues_iff]

theorem loop_switch (mark : ¬b ≠ ch '%') (short : ¬c = ch 'l') :
    vsprintfLoop (b :: c :: fmt) args = some (out, rest) ↔
      Continues (switch c args) fmt out rest := by
  rw [vsprintfLoop.eq_def]
  dsimp only
  rw [if_neg mark, if_neg short, ← continues_iff]

theorem written_then_iff {x : Option (List UInt8)} {left : List Arg} :
    (x.bind fun text => some (text, left)) = some (text, rest) ↔ left = rest ∧ x = some text := by
  cases x with
  | none => simp
  | some written => simp [and_comm]

theorem case_int_iff : caseInt args = some (text, rest) ↔
    ∃ arg, args = arg :: rest ∧ Conv.int.written arg = some text := by
  cases args with
  | nil => simp [caseInt, vaInt]
  | cons arg args =>
    cases arg with
    | text s => simp [caseInt, vaInt, Conv.written]
    | word v => simp [caseInt, vaInt, Conv.written, written_then_iff]

theorem switch_conv {k : Conv} (conv : conversionOf c = some k) :
    switch c args = some (text, rest) ↔
      ∃ arg, args = arg :: rest ∧ k.written arg = some text := by
  unfold conversionOf at conv
  unfold switch
  split at conv
  · cases conv
    rename_i here
    rw [if_pos here]
    cases args with
    | nil => simp [vaInt]
    | cons arg args =>
      cases arg <;> simp [vaInt, Conv.written, and_comm, eq_comm]
  · rename_i not_char
    rw [if_neg not_char]
    split at conv
    · cases conv
      rename_i here
      rw [if_pos here]
      exact case_int_iff
    · rename_i not_int
      rw [if_neg not_int]
      split at conv
      · cases conv
        rename_i here
        rw [if_pos here]
        cases args with
        | nil => simp [vaText]
        | cons arg args =>
          cases arg <;> simp [vaText, Conv.written, and_comm, eq_comm]
      · rename_i not_text
        rw [if_neg not_text]
        split at conv
        · cases conv
          rename_i here
          rw [if_pos here]
          cases args with
          | nil => simp [vaPtr]
          | cons arg args =>
            cases arg with
            | text s => simp [vaPtr, Conv.written]
            | word v => simp [vaPtr, Conv.written, written_then_iff]
        · cases conv

theorem switch_unknown (none_known : conversionOf c = none) :
    switch c args = some ([ch '?'], args) := by
  unfold conversionOf at none_known
  unfold switch
  split at none_known
  · cases none_known
  · rename_i not_char
    split at none_known
    · cases none_known
    · rename_i not_int
      split at none_known
      · cases none_known
      · rename_i not_text
        split at none_known
        · cases none_known
        · rename_i not_pointer
          rw [if_neg not_char, if_neg not_int, if_neg not_text, if_neg not_pointer]
          rfl

end Steps

section Formats

variable {fmt out : List UInt8} {args rest used : List Arg}

/-- vsprintf writes what the format says, and takes one argument for each conversion. -/
def FormatsExactly (fmt : List UInt8) (args : List Arg) : Prop :=
  ∃ used rest out, args = used ++ rest ∧ Renders (pieces fmt) used out ∧
    vsprintf fmt args = some (out, out.length + 1, rest)

def Enough (fmt : List UInt8) (args : List Arg) : Prop :=
  ∃ used rest out, args = used ++ rest ∧ Renders (pieces fmt) used out

theorem vsprintf_iff : vsprintf fmt args = some (out, out.length + 1, rest) ↔
    vsprintfLoop fmt args = some (out, rest) := by
  cases ran : vsprintfLoop fmt args with
  | none => simp [vsprintf, ran]
  | some r =>
    obtain ⟨out', rest'⟩ := r
    simp only [vsprintf, ran, Option.bind_eq_bind, Option.bind_some, Option.pure_def,
      Option.some_inj, Prod.mk.injEq]
    constructor
    · rintro ⟨rfl, _, rfl⟩
      exact ⟨rfl, rfl⟩
    · rintro ⟨rfl, rfl⟩
      exact ⟨rfl, rfl, rfl⟩

theorem complete_text {b : UInt8} (plain : b ≠ ch '%') : Complete (b :: fmt) ↔ Complete fmt := by
  rw [Complete.eq_def]
  dsimp only
  rw [if_pos plain]

theorem complete_long {b m : UInt8} (mark : ¬b ≠ ch '%') :
    Complete (b :: ch 'l' :: m :: fmt) ↔ (m = ch 'd' ∨ m = ch 'u') ∧ Complete fmt := by
  rw [Complete.eq_def]
  dsimp only
  rw [if_neg mark, if_pos rfl]

theorem complete_short {b c : UInt8} (mark : ¬b ≠ ch '%') (short : ¬c = ch 'l') :
    Complete (b :: c :: fmt) ↔ Complete fmt := by
  rw [Complete.eq_def]
  dsimp only
  rw [if_neg mark, if_neg short]

theorem loop_renders (complete : Complete fmt) (renders : Renders (pieces fmt) used out) :
    vsprintfLoop fmt (used ++ rest) = some (out, rest) := by
  fun_induction pieces fmt generalizing used out with
  | case1 =>
    cases renders
    rfl
  | case2 b fmt plain ih =>
    cases renders with
    | text _ later =>
      exact (loop_text plain).mpr ⟨_, rfl, ih ((complete_text plain).mp complete) later⟩
  | case3 b mark =>
    rw [Complete.eq_def] at complete
    dsimp only at complete
    rw [if_neg mark] at complete
    exact complete.elim
  | case4 b mark =>
    rw [Complete.eq_def] at complete
    dsimp only at complete
    rw [if_neg mark, if_pos rfl] at complete
    exact complete.elim
  | case5 b mark m fmt known ih =>
    cases renders with
    | conv written later =>
      refine (loop_long mark rfl).mpr ⟨_, _, _, case_int_iff.mpr ⟨_, rfl, written⟩, ?_, rfl⟩
      exact ih ((complete_long mark).mp complete).2 later
  | case6 b mark m fmt unknown ih =>
    exact absurd ((complete_long mark).mp complete).1 unknown
  | case7 b mark c fmt short k conv ih =>
    cases renders with
    | conv written later =>
      refine (loop_switch mark short).mpr
        ⟨_, _, _, (switch_conv conv).mpr ⟨_, rfl, written⟩, ?_, rfl⟩
      exact ih ((complete_short mark short).mp complete) later
  | case8 b mark c fmt short unknown ih =>
    cases renders with
    | unknown later =>
      refine (loop_switch mark short).mpr ⟨_, _, _, switch_unknown unknown, ?_, rfl⟩
      exact ih ((complete_short mark short).mp complete) later

theorem int_written_digit {arg : Arg} {text : List UInt8}
    (written : Conv.int.written arg = some text) : ∃ d tail, d < 10 ∧ text = table d :: tail := by
  cases arg with
  | text s => cases written
  | word v =>
    have small : v % 2 ^ 32 < 2 ^ 32 := Nat.mod_lt _ (by decide)
    obtain ⟨text', written', ⟨ds, digits, below, _⟩, some_digit, _⟩ := int_text_numeral small
    obtain rfl : text = text' := Option.some.inj (written.symm.trans written')
    cases ds with
    | nil => exact absurd digits some_digit
    | cons d ds => exact ⟨d, ds.map table, below d List.mem_cons_self, digits⟩

theorem loop_complete (renders : Renders (pieces fmt) used out)
    (ran : vsprintfLoop fmt (used ++ rest) = some (out, rest)) : Complete fmt := by
  fun_induction pieces fmt generalizing used out with
  | case1 => trivial
  | case2 b fmt plain ih =>
    cases renders with
    | text _ later =>
      obtain ⟨out, same, ran⟩ := (loop_text plain).mp ran
      cases same
      exact (complete_text plain).mpr (ih later ran)
  | case3 b mark =>
    rw [loop_ends_inside mark] at ran
    cases ran
  | case4 b mark =>
    rw [loop_ends_behind_l mark rfl] at ran
    cases ran
  | case5 b mark m fmt known ih =>
    cases renders with
    | conv written later =>
      obtain ⟨text, left, out, first, ran, same⟩ := (loop_long mark rfl).mp ran
      obtain ⟨arg, taken, written'⟩ := case_int_iff.mp first
      cases taken
      obtain rfl := Option.some.inj (written.symm.trans written')
      rw [List.append_cancel_left same] at later
      exact (complete_long mark).mpr ⟨known, ih later ran⟩
  | case6 b mark m fmt unknown ih =>
    cases renders with
    | unknown later =>
      obtain ⟨text, left, out, first, _, same⟩ := (loop_long mark rfl).mp ran
      obtain ⟨arg, _, written⟩ := case_int_iff.mp first
      obtain ⟨d, tail, small, rfl⟩ := int_written_digit written
      have other : ∀ d : Fin 10, ch '?' ≠ table d := by decide
      exact absurd (List.cons.inj same).1 (other ⟨d, small⟩)
  | case7 b mark c fmt short k conv ih =>
    cases renders with
    | conv written later =>
      obtain ⟨text, left, out, first, ran, same⟩ := (loop_switch mark short).mp ran
      obtain ⟨arg, taken, written'⟩ := (switch_conv conv).mp first
      cases taken
      obtain rfl := Option.some.inj (written.symm.trans written')
      rw [List.append_cancel_left same] at later
      exact (complete_short mark short).mpr (ih later ran)
  | case8 b mark c fmt short unknown ih =>
    cases renders with
    | unknown later =>
      obtain ⟨text, left, tail, first, ran', same⟩ := (loop_switch mark short).mp ran
      rw [switch_unknown unknown] at first
      cases first
      rw [(List.cons.inj same).2] at later
      exact (complete_short mark short).mpr (ih later ran')

/-- vsprintf consumes its format exactly where no conversion is cut off by the end and an 'l'
    stands in front of 'd' or 'u' only. -/
theorem formats_exactly_iff (fmt : List UInt8) (args : List Arg) (enough : Enough fmt args) :
    FormatsExactly fmt args ↔ Complete fmt := by
  constructor
  · rintro ⟨used, rest, out, rfl, renders, ran⟩
    exact loop_complete renders (vsprintf_iff.mp ran)
  · intro complete
    obtain ⟨used, rest, out, rfl, renders⟩ := enough
    exact ⟨used, rest, out, rfl, renders, vsprintf_iff.mpr (loop_renders complete renders)⟩

def spelled (s : String) : List UInt8 := s.toList.map ch

theorem formats_exactly_one_number : FormatsExactly (spelled "n=%ld") [.word 7] := by
  have split : pieces (spelled "n=%ld") = [.text (ch 'n'), .text (ch '='), .conv .int] := by
    simp [pieces, spelled, ch]
  have seven : Conv.int.written (.word 7) = some [ch '7'] := by decide +kernel
  have renders : Renders (pieces (spelled "n=%ld")) [.word 7]
      (ch 'n' :: ch '=' :: ([ch '7'] ++ [])) := by
    rw [split]
    exact .text _ (.text _ (.conv seven .done))
  have enough : Enough (spelled "n=%ld") [.word 7] := ⟨[.word 7], [], _, rfl, renders⟩
  have complete : Complete (spelled "n=%ld") := by
    simp [Complete, spelled, ch]
  exact (formats_exactly_iff _ _ enough).mpr complete

/-- The format "100%" is read past its end, and "%lx" takes an argument. -/
theorem formats_cut_off :
    (Enough (spelled "100%") [] ∧ ¬FormatsExactly (spelled "100%") []) ∧
      Enough (spelled "%lx") [] ∧ ¬FormatsExactly (spelled "%lx") [] := by
  have cut : pieces (spelled "100%") =
      [.text (ch '1'), .text (ch '0'), .text (ch '0'), .unknown] := by
    simp [pieces, spelled, ch]
  have long : pieces (spelled "%lx") = [.unknown, .text (ch 'x')] := by
    simp [pieces, spelled, ch]
  have past : vsprintf (spelled "100%") [] = none := by decide +kernel
  have taken : vsprintf (spelled "%lx") [] = none := by decide +kernel
  have none_left {fmt : List UInt8} (ran : vsprintf fmt [] = none) :
      ¬FormatsExactly fmt [] := by
    rintro ⟨used, rest, out, same, _, exact_run⟩
    rw [ran] at exact_run
    cases exact_run
  have cut_renders : Renders (pieces (spelled "100%")) [] [ch '1', ch '0', ch '0', ch '?'] := by
    rw [cut]
    exact .text _ (.text _ (.text _ (.unknown .done)))
  have long_renders : Renders (pieces (spelled "%lx")) [] [ch '?', ch 'x'] := by
    rw [long]
    exact .unknown (.text _ .done)
  constructor
  · exact ⟨⟨[], [], _, rfl, cut_renders⟩, none_left past⟩
  · exact ⟨⟨[], [], _, rfl, long_renders⟩, none_left taken⟩

end Formats

section Bounds

def put (p : List UInt8) (i : Nat) (b : UInt8) : Option (List UInt8) :=
  if i < p.length then some (p.set i b) else none

def store (p bytes : List UInt8) : Option (List UInt8) :=
  if bytes.length ≤ p.length then some (bytes ++ p.drop bytes.length) else none

/-- strncpy, which does not stop at a NUL and puts one behind the n bytes. -/
def strncpy : List UInt8 → List UInt8 → Nat → Option (List UInt8)
  | [], _, _ => none
  | _ :: dst, _, 0 => some (0 :: dst)
  | _ :: _, [], _ + 1 => none
  | _ :: dst, b :: src, n + 1 => (strncpy dst src n).map (b :: ·)

def pbufMaxSize : Nat := 1024

def sprintf (out fmt : List UInt8) (args : List Arg) : Option (Nat × List UInt8) := do
  let (text, ret, _) ← vsprintf fmt args
  let out ← store out (text ++ [0])
  return (ret, out)

def snprintf (pbuf out : List UInt8) (n : Nat) (fmt : List UInt8) (args : List Arg) :
    Option (Nat × List UInt8 × List UInt8) := do
  let (text, ret, _) ← vsprintf fmt args
  let pbuf ← store pbuf (text ++ [0])
  let ret := if n < ret then n else ret
  if ret < pbufMaxSize then
    let out ← strncpy out pbuf ret
    let out ← put out ret 0
    return (ret, out, pbuf)
  else none

/-- A destination of n bytes is not left, and the text is in it up to n - 1 characters. -/
def SnprintfBounded (pbuf out fmt : List UInt8) (args : List Arg) (text : List UInt8) : Prop :=
  ∃ ret out' pbuf' rest, snprintf pbuf out out.length fmt args = some (ret, out', pbuf') ∧
    out' = text.take (out.length - 1) ++ 0 :: rest

def SprintfCounts (out fmt : List UInt8) (args : List Arg) (text : List UInt8) : Prop :=
  ∃ out', sprintf out fmt args = some (text.length, out')

variable {pbuf out dst src fmt text : List UInt8} {args left : List Arg} {n ret : Nat}

theorem strncpy_iff : strncpy dst src n = some out ↔
    n < dst.length ∧ n ≤ src.length ∧ out = src.take n ++ 0 :: dst.drop (n + 1) := by
  induction n generalizing dst src out with
  | zero =>
    cases dst with
    | nil => simp [strncpy]
    | cons b dst => simp [strncpy, eq_comm]
  | succ n ih =>
    cases dst with
    | nil => simp [strncpy]
    | cons a dst =>
      cases src with
      | nil => simp [strncpy]
      | cons b src =>
        simp only [strncpy, Option.map_eq_some_iff, ih, List.length_cons, List.take_succ_cons,
          List.drop_succ_cons, List.cons_append, Nat.add_lt_add_iff_right, Nat.add_le_add_iff_right]
        constructor
        · rintro ⟨tail, ⟨room, read, rfl⟩, rfl⟩
          exact ⟨room, read, rfl⟩
        · rintro ⟨room, read, rfl⟩
          exact ⟨_, ⟨room, read, rfl⟩, rfl⟩

theorem put_behind (text rest : List UInt8) (b c : UInt8) :
    put (text ++ b :: rest) text.length c = some (text ++ c :: rest) := by
  simp [put]

theorem vsprintf_returns (written : vsprintf fmt args = some (text, ret, left)) :
    ret = text.length + 1 := by
  simp only [vsprintf, Option.bind_eq_bind, Option.pure_def, Option.bind_eq_some_iff,
    Option.some_inj, Prod.exists, Prod.mk.injEq] at written
  obtain ⟨out, rest, _, rfl, rfl, _⟩ := written
  rfl

theorem snprintf_text (size : pbuf.length = pbufMaxSize)
    (written : vsprintf fmt args = some (text, ret, left)) (fits : text.length + 1 ≤ pbufMaxSize) :
    snprintf pbuf out n fmt args =
      let ret := if n < text.length + 1 then n else text.length + 1
      let pbuf := text ++ [0] ++ pbuf.drop (text.length + 1)
      if ret < pbufMaxSize then do
        let out ← strncpy out pbuf ret
        let out ← put out ret 0
        return (ret, out, pbuf)
      else none := by
  have room : (text ++ [0]).length ≤ pbuf.length := by simp [size, fits]
  have stored : store pbuf (text ++ [0]) = some (text ++ [0] ++ pbuf.drop (text.length + 1)) := by
    rw [store, if_pos room, List.length_append, List.length_singleton]
  simp only [snprintf, written, stored, vsprintf_returns written, Option.bind_eq_bind,
    Option.bind_some]

theorem snprintf_bounded (size : pbuf.length = pbufMaxSize)
    (written : vsprintf fmt args = some (text, ret, left))
    (room : text.length + 2 ≤ out.length) (small : text.length + 1 < pbufMaxSize) :
    SnprintfBounded pbuf out fmt args text := by
  have whole : ¬out.length < text.length + 1 := by omega
  have taken : (text ++ [0] ++ pbuf.drop (text.length + 1)).take (text.length + 1) =
      text ++ [0] := List.take_left' (by simp)
  have copied : strncpy out (text ++ [0] ++ pbuf.drop (text.length + 1)) (text.length + 1) =
      some (text ++ [0] ++ 0 :: out.drop (text.length + 2)) := by
    apply strncpy_iff.mpr
    rw [taken]
    refine ⟨room, ?_, rfl⟩
    simp
  have ended : put (text ++ [0] ++ 0 :: out.drop (text.length + 2)) (text.length + 1) 0 =
      some (text ++ [0] ++ 0 :: out.drop (text.length + 2)) := by
    have behind := put_behind (text ++ [0]) (out.drop (text.length + 2)) 0 0
    rwa [List.length_append, List.length_singleton] at behind
  have ran : snprintf pbuf out out.length fmt args = _ :=
    snprintf_text size written (Nat.le_of_lt small)
  dsimp only at ran
  rw [if_neg whole, if_pos small, copied] at ran
  simp only [Option.bind_eq_bind, Option.bind_some, ended, Option.pure_def] at ran
  refine ⟨_, _, _, 0 :: out.drop (text.length + 2), ran, ?_⟩
  rw [List.take_of_length_le (by omega), List.append_assoc]
  rfl

/-- snprintf keeps to its bound exactly where the text ends two bytes or more in front of it, and
    pbuf has room for one byte more than the text. The count of sprintf is never right. -/
theorem snprintf_bounded_iff (pbuf out fmt text : List UInt8) (args left : List Arg) (ret : Nat)
    (size : pbuf.length = pbufMaxSize) (written : vsprintf fmt args = some (text, ret, left))
    (fits : text.length + 1 ≤ pbufMaxSize) :
    (SnprintfBounded pbuf out fmt args text ↔
      text.length + 2 ≤ out.length ∧ text.length + 1 < pbufMaxSize) ∧
      ∀ dst, ¬SprintfCounts dst fmt args text := by
  constructor
  · constructor
    · rintro ⟨ret', out', pbuf', rest, ran, _⟩
      rw [snprintf_text size written fits] at ran
      dsimp only at ran
      generalize clamped :
        (if out.length < text.length + 1 then out.length else text.length + 1) = k at ran
      by_cases small : k < pbufMaxSize
      · rw [if_pos small] at ran
        simp only [Option.bind_eq_bind, Option.bind_eq_some_iff] at ran
        obtain ⟨copied, ran, _⟩ := ran
        have inside := (strncpy_iff.mp ran).1
        split at clamped <;> omega
      · rw [if_neg small] at ran
        cases ran
    · rintro ⟨room, small⟩
      exact snprintf_bounded size written room small
  · rintro dst ⟨out', ran⟩
    simp only [sprintf, written, vsprintf_returns written, Option.bind_eq_bind, Option.bind_some,
      Option.bind_eq_some_iff, Option.pure_def, Option.some_inj, Prod.mk.injEq] at ran
    obtain ⟨_, _, counted, _⟩ := ran
    exact absurd counted (Nat.succ_ne_self _)

theorem snprintf_bounded_tty :
    SnprintfBounded (List.replicate 1024 0) (List.replicate 8 1) (spelled "tty%d") [.word 1]
      (spelled "tty1") := by
  have text : (vsprintf (spelled "tty%d") [.word 1]).map (·.1) = some (spelled "tty1") := by
    decide +kernel
  obtain ⟨⟨out, ret, left⟩, written, same⟩ := Option.map_eq_some_iff.mp text
  dsimp only at same
  rw [same] at written
  have holds := snprintf_bounded_iff (List.replicate 1024 0) (List.replicate 8 1) _ _ _ _ _
    List.length_replicate written (by decide)
  exact holds.1.mpr (by decide)

/-- The text "tty1" in five bytes: the sixth is written. -/
theorem snprintf_writes_behind :
    ¬SnprintfBounded (List.replicate 1024 0) (List.replicate 5 1) (spelled "tty1") []
      (spelled "tty1") := by
  rintro ⟨ret, out, pbuf, rest, ran, _⟩
  have stuck : (snprintf (List.replicate 1024 0) (List.replicate 5 1) 5 (spelled "tty1") []).isNone
      := by decide +kernel
  have same : (List.replicate 5 (1 : UInt8)).length = 5 := List.length_replicate
  rw [same] at ran
  rw [ran] at stuck
  cases stuck

end Bounds

end Klib
