import JyyOs.Klib.Stdio
import Mathlib.Data.Nat.Digits.Lemmas

/-!
The numbers vsprintf writes: their digits in the scratch buffer, and atoi on them.
-/
namespace Klib

variable {base val e : Nat} {length : Int} {s : Nat → UInt8} {tail : List UInt8}

section Itos

def itosDigits (base val : Nat) (length : Int) : List Nat :=
  Nat.digits base val ++ List.replicate (length.toNat - (Nat.digits base val).length) 0

theorem itos_goes_on (val : Nat) (length : Int) :
    ((val ≠ 0 ∨ length ≠ 0) ∧ ¬(val = 0 ∧ length < 0)) ↔ (val ≠ 0 ∨ 0 < length) := by
  omega

theorem itos_digits_done (done : ¬(val ≠ 0 ∨ 0 < length)) : itosDigits base val length = [] := by
  obtain ⟨zero, short⟩ := not_or.mp done
  have none_wanted : length.toNat = 0 := Int.toNat_of_nonpos (Int.not_lt.mp short)
  rw [itosDigits, not_not.mp zero, Nat.digits_zero, none_wanted]
  rfl

theorem itos_digits_more (two : 2 ≤ base) (more : val ≠ 0 ∨ 0 < length) :
    itosDigits base val length = val % base :: itosDigits base (val / base) (length - 1) := by
  by_cases zero : val = 0
  · have wanted : 0 < length := more.resolve_left (not_not.mpr zero)
    obtain ⟨k, count⟩ : ∃ k, length.toNat = k + 1 := ⟨length.toNat - 1, by omega⟩
    have count' : (length - 1).toNat = k := by omega
    rw [itosDigits, itosDigits, zero, Nat.zero_mod, Nat.zero_div, Nat.digits_zero, count, count']
    rfl
  · rw [itosDigits, itosDigits, Nat.digits_def' two (Nat.pos_of_ne_zero zero), List.cons_append,
      List.length_cons]
    congr 3
    omega

theorem table_real {d : Nat} (small : d < 16) : table d ≠ 0 := by
  have all : ∀ d : Fin 16, table d ≠ 0 := by decide
  exact all ⟨d, small⟩

theorem scratch_text_congr {s' : Nat → UInt8} (left p : Nat) (same : ∀ i, p ≤ i → s' i = s i) :
    scratchText s' left p = scratchText s left p := by
  induction left generalizing p with
  | zero => rfl
  | succ left ih =>
    rw [scratchText, scratchText, same p (Nat.le_refl p), ih (p + 1) fun i h => same i (by omega)]

theorem scratch_text_push {b : UInt8} (real : b ≠ 0) (inside : e + 1 ≤ 49)
    (text : scratchText s (scratchSize - (e + 1)) (e + 1) = some tail) :
    scratchText (Function.update s e b) (scratchSize - e) e = some (b :: tail) := by
  have left : scratchSize - e = scratchSize - (e + 1) + 1 := by
    unfold scratchSize
    omega
  have behind : ∀ i, e + 1 ≤ i → Function.update s e b i = s i := by
    intro i later
    exact Function.update_of_ne (by omega) ..
  rw [left, scratchText, Function.update_self, if_neg real, scratch_text_congr _ _ behind, text]
  rfl

theorem itos_loop_text (two : 2 ≤ base) (digits : base ≤ 16) (inside : e ≤ 49)
    (room : (itosDigits base val length).length ≤ e)
    (text : scratchText s (scratchSize - e) e = some tail) :
    ∃ e' s', itosLoop base e val length s = some (e', s') ∧
      e' + (itosDigits base val length).length = e ∧
      scratchText s' (scratchSize - e') e' =
        some (((itosDigits base val length).map table).reverse ++ tail) := by
  induction e generalizing val length s tail with
  | zero =>
    by_cases more : val ≠ 0 ∨ 0 < length
    · rw [itos_digits_more two more] at room
      exact absurd room (Nat.not_succ_le_zero _)
    · rw [itos_digits_done more, itosLoop, if_neg ((itos_goes_on val length).not.mpr more)]
      exact ⟨0, s, rfl, rfl, text⟩
  | succ e ih =>
    by_cases more : val ≠ 0 ∨ 0 < length
    · rw [itos_digits_more two more] at room ⊢
      rw [itosLoop, if_pos ((itos_goes_on val length).mpr more)]
      have small : val % base < 16 := Nat.lt_of_lt_of_le (Nat.mod_lt val (by omega)) digits
      have pushed := scratch_text_push (table_real small) inside text
      obtain ⟨e', s', ran, place, read⟩ := ih (by omega) (Nat.le_of_succ_le_succ room) pushed
      refine ⟨e', s', ran, ?_, ?_⟩
      · rw [List.length_cons]
        omega
      · rw [read, List.map_cons, List.reverse_cons, List.append_assoc]
        rfl
    · rw [itos_digits_done more, itosLoop, if_neg ((itos_goes_on val length).not.mpr more)]
      exact ⟨e + 1, s, rfl, rfl, text⟩

theorem scratch_end (s : Nat → UInt8) :
    scratchText (Function.update s 49 0) (scratchSize - 49) 49 = some [] := by
  rw [scratchSize, scratchText, Function.update_self, if_pos rfl]

theorem itos_decimal (val : Nat) (s : Nat → UInt8)
    (room : (itosDigits 10 val (-1)).length ≤ 49) :
    ∃ e s', itos val 49 10 (-1) s = some (e, s') ∧
      scratchText s' (scratchSize - e) e =
        some ((itosDigits 10 val (-1)).map table).reverse := by
  have two : 2 ≤ 10 := by decide
  obtain ⟨e, s', ran, _, read⟩ :=
    itos_loop_text two (by decide) (Nat.le_refl 49) room (scratch_end s)
  rw [List.append_nil] at read
  refine ⟨e, s', ?_, read⟩
  simp only [itos, ran, Option.bind_eq_bind, Option.bind_some]
  rfl

theorem itos_hexadecimal (val : Nat) (s : Nat → UInt8)
    (room : (itosDigits 16 val 8).length ≤ 47) :
    ∃ e s', itos val 49 16 8 s = some (e, s') ∧
      scratchText s' (scratchSize - e) e =
        some (ch '0' :: ch 'x' :: ((itosDigits 16 val 8).map table).reverse) := by
  have two : 2 ≤ 16 := by decide
  obtain ⟨e, s', ran, place, read⟩ :=
    itos_loop_text two (by decide) (Nat.le_refl 49) (Nat.le_trans room (by decide)) (scratch_end s)
  obtain ⟨e, rfl⟩ : ∃ k, e = k + 2 := ⟨e - 2, by omega⟩
  rw [List.append_nil] at read
  have x_read := scratch_text_push (b := ch 'x') (by decide) (by omega) read
  have zero_read := scratch_text_push (b := ch '0') (by decide) (by omega) x_read
  refine ⟨e, _, ?_, zero_read⟩
  simp only [itos, ran, Option.bind_eq_bind, Option.bind_some, putBefore]
  rfl

theorem itos_digits_unpadded : itosDigits base val (-1) = Nat.digits base val := by
  have none_wanted : (-1 : Int).toNat = 0 := rfl
  rw [itosDigits, none_wanted, Nat.zero_sub, List.replicate_zero, List.append_nil]

theorem decimal_room (small : val < 2 ^ 32) : (itosDigits 10 val (-1)).length ≤ 10 := by
  have few : (Nat.digits 10 val).length ≤ 10 :=
    (Nat.digits_length_le_iff (by decide) val).mpr (Nat.lt_trans small (by decide))
  rw [itos_digits_unpadded]
  exact few

theorem hexadecimal_room (small : val < 2 ^ 64) :
    8 ≤ (itosDigits 16 val 8).length ∧ (itosDigits 16 val 8).length ≤ 16 := by
  have few : (Nat.digits 16 val).length ≤ 16 :=
    (Nat.digits_length_le_iff (by decide) val).mpr (Nat.lt_of_lt_of_le small (by decide))
  have wanted : (8 : Int).toNat = 8 := rfl
  rw [itosDigits, wanted, List.length_append, List.length_replicate]
  omega

end Itos

section Numeral

/-- `text` are digits in `base`, the most significant one first, of value `v`. -/
def Numeral (base : Nat) (text : List UInt8) (v : Nat) : Prop :=
  ∃ ds : List Nat, text = ds.map table ∧ (∀ d ∈ ds, d < base) ∧ Nat.ofDigits base ds.reverse = v

theorem itos_numeral (two : 2 ≤ base) (val : Nat) (length : Int) :
    Numeral base ((itosDigits base val length).map table).reverse val := by
  refine ⟨(itosDigits base val length).reverse, List.map_reverse.symm, ?_, ?_⟩
  · intro d mem
    rw [List.mem_reverse, itosDigits, List.mem_append] at mem
    rcases mem with digit | pad
    · exact Nat.digits_lt_base two digit
    · rw [List.eq_of_mem_replicate pad]
      exact Nat.lt_of_lt_of_le Nat.two_pos two
  · rw [List.reverse_reverse, itosDigits, Nat.ofDigits_append_replicate_zero, Nat.ofDigits_digits]

def NoLeadingZero (text : List UInt8) : Prop :=
  text ≠ [] ∧ (text.head? = some (ch '0') → text = [ch '0'])

theorem table_zero {d : Nat} (small : d < 16) : table d = ch '0' ↔ d = 0 := by
  have all : ∀ d : Fin 16, table d = ch '0' ↔ d = 0 := by decide
  have here := all ⟨d, small⟩
  rw [here, Fin.ext_iff]
  rfl

theorem int_text_numeral (small : val < 2 ^ 32) :
    ∃ text, intText val = some text ∧ Numeral 10 text val ∧ NoLeadingZero text := by
  by_cases zero : val = 0
  · subst zero
    exact ⟨[ch '0'], rfl, ⟨[0], rfl, by decide, rfl⟩, by decide, fun _ => rfl⟩
  · obtain ⟨e, s', ran, read⟩ := itos_decimal val (Function.update (fun _ => 0) 49 0)
      (Nat.le_trans (decimal_room small) (by decide))
    refine ⟨_, ?_, itos_numeral (by decide) val (-1), ?_⟩
    · rw [intText, if_neg zero, if_neg (Nat.not_lt_zero val), itosText, ran]
      exact read
    · have some_digit : Nat.digits 10 val ≠ [] := Nat.digits_ne_nil_iff_ne_zero.mpr zero
      have last : (Nat.digits 10 val).getLast some_digit ≠ 0 := Nat.getLast_digit_ne_zero 10 zero
      have small_last : (Nat.digits 10 val).getLast some_digit < 16 :=
        Nat.lt_trans (Nat.digits_lt_base (by decide) (List.getLast_mem some_digit)) (by decide)
      rw [itos_digits_unpadded]
      refine ⟨by simpa using some_digit, fun head => ?_⟩
      rw [List.head?_reverse, List.getLast?_map, List.getLast?_eq_some_getLast some_digit,
        Option.map_some, Option.some_inj, table_zero small_last] at head
      exact absurd head last

end Numeral

section Atoi

theorem signed_table {d : Nat} (small : d < 10) : signed (table d) = 48 + d := by
  have all : ∀ d : Fin 10, signed (table d) = 48 + (d.val : Int) := by decide
  exact all ⟨d, small⟩

/-- The int has the value of the digits read so far, wrapped around. -/
theorem atoi_loop_digits (ds : List Nat) (y : Nat) (rest : List UInt8) (small : ∀ d ∈ ds, d < 10) :
    atoiLoop (ds.map table ++ 0 :: rest) (Int.bmod y (2 ^ 32)) =
      some (Int.bmod (ds.foldl (fun v d => d + 10 * v) y : Nat) (2 ^ 32)) := by
  induction ds generalizing y with
  | nil =>
    have ended : ¬(48 ≤ signed 0 ∧ signed 0 ≤ 57) := by decide
    rw [List.map_nil, List.nil_append, atoiLoop, if_neg ended]
    rfl
  | cons d ds ih =>
    obtain ⟨first, later⟩ := List.forall_mem_cons.mp small
    have value := signed_table first
    have digit : 48 ≤ signed (table d) ∧ signed (table d) ≤ 57 := by omega
    have next : Int.bmod (Int.bmod y (2 ^ 32) * 10 + (48 + d) - 48) (2 ^ 32) =
        Int.bmod (d + 10 * y : Nat) (2 ^ 32) := by
      have sum : ((d + 10 * y : Nat) : Int) = (y : Int) * 10 + d := by omega
      have less (x : Int) : x * 10 + (48 + d) - 48 = x * 10 + d := by omega
      rw [sum, less, Int.add_bmod, Int.bmod_mul_bmod, ← Int.add_bmod]
    rw [List.map_cons, List.cons_append, atoiLoop, if_pos digit, value, next, List.foldl_cons]
    exact ih _ later

theorem atoi_numeral {text : List UInt8} (numeral : Numeral 10 text val) (rest : List UInt8) :
    atoi (text ++ 0 :: rest) = some (Int.bmod val (2 ^ 32)) := by
  obtain ⟨ds, rfl, small, value⟩ := numeral
  have fold : ds.foldl (fun v d => d + 10 * v) 0 = val := by
    rw [← value, Nat.ofDigits_eq_foldr, List.foldr_reverse]
    rfl
  have loop := atoi_loop_digits ds 0 rest small
  rw [fold] at loop
  cases ds with
  | nil => exact loop
  | cons d ds =>
    have digit : table d ≠ ch ' ' := by
      have all : ∀ d : Fin 10, table d ≠ ch ' ' := by decide
      exact all ⟨d, small d List.mem_cons_self⟩
    rw [List.map_cons, List.cons_append, atoi, if_neg digit]
    exact loop

end Atoi

section Formatted

theorem vsprintf_int {c : UInt8} {v : Nat} {text : List UInt8} (conv : c = ch 'd' ∨ c = ch 'u')
    (written : intText (v % 2 ^ 32) = some text) :
    vsprintf [ch '%', c] [.word v] = some (text, text.length + 1, []) := by
  have not_char : c ≠ ch 'c' := by
    rcases conv with rfl | rfl <;> decide
  have not_long : c ≠ ch 'l' := by
    rcases conv with rfl | rfl <;> decide
  simp only [vsprintf, vsprintfLoop, switch, caseInt, vaInt, ne_eq, not_true_eq_false, ↓reduceIte,
    if_neg not_char, if_neg not_long, if_pos conv, written, Option.bind_eq_bind, Option.bind_some,
    Option.pure_def, List.append_nil]

theorem vsprintf_pointer {v : Nat} {text : List UInt8}
    (written : itosText (v % 2 ^ 64) 16 8 = some text) :
    vsprintf [ch '%', ch 'p'] [.word v] = some (text, text.length + 1, []) := by
  have others : ch 'p' ≠ ch 'c' ∧ ch 'p' ≠ ch 'l' ∧ ¬(ch 'p' = ch 'd' ∨ ch 'p' = ch 'u') ∧
      ch 'p' ≠ ch 's' := by decide
  obtain ⟨not_char, not_long, not_int, not_text⟩ := others
  simp only [vsprintf, vsprintfLoop, switch, vaPtr, ne_eq, not_true_eq_false, ↓reduceIte,
    if_neg not_char, if_neg not_long, if_neg not_int, if_neg not_text, written,
    Option.bind_eq_bind, Option.bind_some, Option.pure_def, List.append_nil]

theorem slot_of_int (n : Int32) :
    (((n.toInt % 2 ^ 64).toNat % 2 ^ 32 : Nat) : Int) = n.toInt % 2 ^ 32 := by
  omega

/-- The text of an int under %d, read by atoi, is that int. -/
def ReadsBack (n : Int) : Prop :=
  ∃ text ret, vsprintf [ch '%', ch 'd'] [.int n] = some (text, ret, []) ∧
    ∀ rest, atoi (text ++ 0 :: rest) = some n

theorem reads_back (n : Int32) : ReadsBack n.toInt := by
  have low := n.le_toInt
  have high := n.toInt_lt
  have slot := slot_of_int n
  obtain ⟨text, written, numeral, _⟩ := int_text_numeral
    (Nat.mod_lt (n.toInt % 2 ^ 64).toNat (Nat.two_pow_pos 32))
  have wrapped : Int.bmod (((n.toInt % 2 ^ 64).toNat % 2 ^ 32 : Nat) : Int) (2 ^ 32) = n.toInt := by
    have whole : Int.bmod (n.toInt % 2 ^ 32) (2 ^ 32) = Int.bmod n.toInt (2 ^ 32) :=
      Int.emod_bmod n.toInt (2 ^ 32)
    rw [slot, whole]
    exact Int.bmod_eq_of_le (by omega) (by omega)
  refine ⟨text, _, vsprintf_int (.inl rfl) written, fun rest => ?_⟩
  rw [atoi_numeral numeral rest, wrapped]

/-- %d reads back through atoi. %u and %p write the digits of their argument, and _itos stays in
    the scratch buffer. -/
theorem formatted_numbers_read_back (n : Int32) (u : UInt32) (p : UInt64) (s : Nat → UInt8) :
    ReadsBack n.toInt ∧
    (∃ text ret, vsprintf [ch '%', ch 'u'] [.word u.toNat] = some (text, ret, []) ∧
      Numeral 10 text u.toNat ∧ NoLeadingZero text) ∧
    (∃ hex ret, vsprintf [ch '%', ch 'p'] [.word p.toNat] =
        some (ch '0' :: ch 'x' :: hex, ret, []) ∧
      8 ≤ hex.length ∧ Numeral 16 hex p.toNat) ∧
    itos u.toNat 49 10 (-1) s ≠ none ∧ itos p.toNat 49 16 8 s ≠ none := by
  refine ⟨reads_back n, ?_, ?_, ?_, ?_⟩
  · have same : u.toNat % 2 ^ 32 = u.toNat := Nat.mod_eq_of_lt u.toNat_lt
    obtain ⟨text, written, numeral, leading⟩ := int_text_numeral u.toNat_lt
    rw [← same] at written
    exact ⟨text, _, vsprintf_int (.inr rfl) written, numeral, leading⟩
  · have same : p.toNat % 2 ^ 64 = p.toNat := Nat.mod_eq_of_lt p.toNat_lt
    obtain ⟨enough, room⟩ := hexadecimal_room p.toNat_lt
    obtain ⟨e, s', ran, read⟩ := itos_hexadecimal p.toNat (Function.update (fun _ => 0) 49 0)
      (Nat.le_trans room (by decide))
    refine ⟨_, _, vsprintf_pointer ?_, ?_, itos_numeral (by decide) p.toNat 8⟩
    · rw [same, itosText, ran]
      exact read
    · rw [List.length_reverse, List.length_map]
      exact enough
  · intro stuck
    obtain ⟨e, s', ran, _⟩ := itos_decimal u.toNat s
      (Nat.le_trans (decimal_room u.toNat_lt) (by decide))
    rw [ran] at stuck
    cases stuck
  · intro stuck
    obtain ⟨e, s', ran, _⟩ := itos_hexadecimal p.toNat s
      (Nat.le_trans (hexadecimal_room p.toNat_lt).2 (by decide))
    rw [ran] at stuck
    cases stuck

example : ((vsprintf [ch '%', ch 'd'] [.int (-1)]).bind fun r => atoi (r.1 ++ [0])) =
    some (-1) := by
  decide +kernel

end Formatted

end Klib
