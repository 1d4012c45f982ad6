import JyyOs.Library.ByteCopy
import Mathlib.Logic.Function.Basic
import Mathlib.Data.Int.Basic

/-!
dev_tty.c: the screen of a tty. Pointers into tty->buf and tty->dirty count from their start, so
tty->end is an index too. An access outside the screen, a cursor moved in front of it and a sprite
outside tty->sp_buf are `none`. Sizes fit in an int.
-/
namespace Screen
open ByteCopy

structure Character where
  metadata : Nat
  ch : UInt8
  deriving DecidableEq

def ttyDefaultch : Character := ⟨0, 0⟩

structure Sprite where
  texture : Nat
  x : Nat
  y : Nat
  display : Nat
  z : Nat
  deriving DecidableEq

structure Tty where
  display : Nat
  lines : Nat
  columns : Nat
  size : Nat
  buf : Nat → Character
  endPos : Nat
  cursor : Nat
  dirty : Nat → Bool

def forLoop {σ : Type} (body : σ → Nat → Option σ) : Nat → σ → Option σ
  | 0, s => some s
  | n + 1, s =>
    match forLoop body n s with
    | none => none
    | some s => body s n

def setChar (tty : Tty) (i : Nat) (c : Character) : Option Tty :=
  if i < tty.size then some { tty with buf := Function.update tty.buf i c } else none

def clearLine (tty : Tty) : Option Tty :=
  forLoop (fun t i => setChar t (tty.cursor + i) ttyDefaultch) tty.columns tty

def ttyUpdScrollup (tty : Tty) : Option Tty :=
  let moveSz := tty.columns * (tty.lines - 1)
  if tty.size < tty.columns + moveSz ∨ tty.cursor < tty.columns then none
  else
    clearLine { tty with
      buf := copy tty.buf 0 tty.buf tty.columns moveSz
      dirty := copy tty.dirty 0 tty.dirty tty.columns moveSz
      cursor := tty.cursor - tty.columns }

def ttyUpdCr (tty : Tty) : Tty :=
  let x := tty.cursor % tty.columns
  { tty with cursor := tty.cursor - x }

def ttyUpdLf (tty : Tty) : Tty := { tty with cursor := tty.cursor + tty.columns }

def ttyUpdBacksp (tty : Tty) : Option Tty :=
  if 0 < tty.cursor then
    let tty := { tty with cursor := tty.cursor - 1 }
    setChar tty tty.cursor { tty.buf tty.cursor with ch := 0 }
  else some tty

def ttyUpdPutc (tty : Tty) (ch : UInt8) : Option Tty :=
  match setChar tty tty.cursor { tty.buf tty.cursor with ch := ch } with
  | none => none
  | some tty => some { tty with cursor := tty.cursor + 1 }

def ttyMark (tty : Tty) (ch : Nat) : Option Tty :=
  if ch < tty.size then some { tty with dirty := Function.update tty.dirty ch true } else none

def ttyMarkLine (tty : Tty) (ch : Nat) : Option Tty :=
  let x := ch % tty.columns
  forLoop (fun t i => ttyMark t (ch - x + i)) tty.columns tty

def ttyMarkAll (tty : Tty) : Option Tty := forLoop (fun t i => ttyMark t i) tty.size tty

def carriageReturn : UInt8 := 13
def backspace : UInt8 := 8
def newline : UInt8 := 10

def ttyPutc (tty : Tty) (ch : UInt8) : Option Tty :=
  if ch = carriageReturn then
    let tty := ttyUpdCr tty
    ttyMarkLine tty tty.cursor
  else if ch = backspace then
    match ttyUpdBacksp tty with
    | none => none
    | some tty =>
      match ttyMark tty tty.cursor with
      | none => none
      | some tty => ttyMark tty (tty.cursor + 1)
  else if ch = newline then
    let tty := ttyUpdLf (ttyUpdCr tty)
    if tty.cursor = tty.endPos then
      match ttyUpdScrollup tty with
      | none => none
      | some tty => ttyMarkAll tty
    else
      match ttyMarkLine tty (tty.cursor - tty.columns) with
      | none => none
      | some tty => ttyMarkLine tty tty.cursor
  else
    match ttyUpdPutc tty ch with
    | none => none
    | some tty =>
      if tty.cursor = tty.endPos then
        match ttyUpdScrollup tty with
        | none => none
        | some tty => ttyMarkAll tty
      else
        match ttyMark tty (tty.cursor - 1) with
        | none => none
        | some tty => ttyMark tty tty.cursor

def glyph (showCursor : Bool) (tty : Tty) (ch : Nat) : Nat :=
  if ch = tty.cursor ∧ showCursor then 0xdb else (tty.buf ch).ch.toNat

def pushSprite (tty : Tty) (sp : List Sprite) (sprite : Sprite) : Option (List Sprite) :=
  if sp.length < tty.size * 2 then some (sp ++ [sprite]) else none

/-- The two sprites of a cell; coordinates are 16 bits wide, the display 4. -/
def upper (showCursor : Bool) (tty : Tty) (ch x y : Nat) : Sprite :=
  ⟨glyph showCursor tty ch * 2 + 1, x * 8 % 65536, y * 16 % 65536, tty.display % 16, 0⟩

def lower (showCursor : Bool) (tty : Tty) (ch x y : Nat) : Sprite :=
  ⟨glyph showCursor tty ch * 2 + 2, x * 8 % 65536, (y * 16 + 8) % 65536, tty.display % 16, 0⟩

def renderCell (showCursor : Bool) (tty : Tty) (y : Nat) (at_ : Nat × List Sprite) (x : Nat) :
    Option (Nat × List Sprite) :=
  let (ch, sp) := at_
  if tty.dirty ch then
    match pushSprite tty sp (upper showCursor tty ch x y) with
    | none => none
    | some sp =>
      match pushSprite tty sp (lower showCursor tty ch x y) with
      | none => none
      | some sp => some (ch + 1, sp)
  else some (ch + 1, sp)

def ttyRender (showCursor : Bool) (tty : Tty) : Option (List Sprite × Tty) :=
  match forLoop (fun s y => forLoop (renderCell showCursor tty y) tty.columns s) tty.lines
      (0, []) with
  | none => none
  | some (_, sp) =>
    some (sp, { tty with dirty := fun i => if i < tty.size then false else tty.dirty i })

/-- tty_init up to its welcome text. -/
def ttyInit (id height width : Nat) : Tty :=
  let lines := height / 16
  let columns := width / 8
  ⟨id - 1, lines, columns, columns * lines, fun _ => ttyDefaultch, columns * lines, 0,
    fun _ => false⟩

section Loop

variable {σ : Type} {body : σ → Nat → Option σ}

/-- The rule for a loop: what holds before round `i` holds before round `i + 1`. -/
theorem for_loop_rule (P : Nat → σ → Prop) {n : Nat} {s : σ} (start : P 0 s)
    (round : ∀ i s, i < n → P i s → ∃ s', body s i = some s' ∧ P (i + 1) s') :
    ∃ s', forLoop body n s = some s' ∧ P n s' := by
  induction n with
  | zero => exact ⟨s, rfl, start⟩
  | succ n ih =>
    obtain ⟨m, ran, holds⟩ := ih fun i s less => round i s (Nat.lt_succ_of_lt less)
    obtain ⟨s', body, holds'⟩ := round n m (Nat.lt_succ_self n) holds
    refine ⟨s', ?_, holds'⟩
    unfold forLoop
    rw [ran]
    exact body

end Loop

variable {tty : Tty}

def marked (tty : Tty) (a n : Nat) : Tty :=
  { tty with dirty := fun i => if a ≤ i ∧ i < a + n then true else tty.dirty i }

theorem mark_range {a n : Nat} (inside : a + n ≤ tty.size) :
    forLoop (fun t i => ttyMark t (a + i)) n tty = some (marked tty a n) := by
  obtain ⟨s', ran, rfl⟩ : ∃ s', forLoop (fun t i => ttyMark t (a + i)) n tty = some s' ∧
      s' = marked tty a n := by
    apply for_loop_rule fun i t => t = marked tty a i
    · have none_ : (fun i => if a ≤ i ∧ i < a + 0 then true else tty.dirty i) = tty.dirty := by
        funext i
        apply if_neg
        omega
      unfold marked
      rw [none_]
    · rintro i s less rfl
      have fits : a + i < (marked tty a i).size := Nat.lt_of_lt_of_le (by omega) inside
      refine ⟨_, if_pos fits, ?_⟩
      have grown : Function.update (marked tty a i).dirty (a + i) true =
          fun j => if a ≤ j ∧ j < a + (i + 1) then true else tty.dirty j := by
        funext j
        by_cases here : j = a + i
        · subst here
          simp
        · have same : (a ≤ j ∧ j < a + i) ↔ (a ≤ j ∧ j < a + (i + 1)) := by omega
          simp only [marked, Function.update_of_ne here, same]
      rw [grown]
      rfl
  exact ran

def cleared (tty : Tty) (a n : Nat) : Tty :=
  { tty with buf := fun i => if a ≤ i ∧ i < a + n then ttyDefaultch else tty.buf i }

theorem clear_line (inside : tty.cursor + tty.columns ≤ tty.size) :
    clearLine tty = some (cleared tty tty.cursor tty.columns) := by
  obtain ⟨s', ran, rfl⟩ : ∃ s', clearLine tty = some s' ∧
      s' = cleared tty tty.cursor tty.columns := by
    apply for_loop_rule fun i t => t = cleared tty tty.cursor i
    · have none_ : (fun i => if tty.cursor ≤ i ∧ i < tty.cursor + 0 then ttyDefaultch
          else tty.buf i) = tty.buf := by
        funext i
        apply if_neg
        omega
      unfold cleared
      rw [none_]
    · rintro i s less rfl
      have fits : tty.cursor + i < (cleared tty tty.cursor i).size :=
        Nat.lt_of_lt_of_le (by omega) inside
      refine ⟨_, if_pos fits, ?_⟩
      have grown : Function.update (cleared tty tty.cursor i).buf (tty.cursor + i) ttyDefaultch =
          fun j => if tty.cursor ≤ j ∧ j < tty.cursor + (i + 1) then ttyDefaultch
            else tty.buf j := by
        funext j
        by_cases here : j = tty.cursor + i
        · subst here
          simp
        · have same : (tty.cursor ≤ j ∧ j < tty.cursor + i) ↔
              (tty.cursor ≤ j ∧ j < tty.cursor + (i + 1)) := by omega
          simp only [cleared, Function.update_of_ne here, same]
      rw [grown]
      rfl
  exact ran

theorem mark_line {ch : Nat} (inside : ch - ch % tty.columns + tty.columns ≤ tty.size) :
    ttyMarkLine tty ch = some (marked tty (ch - ch % tty.columns) tty.columns) :=
  mark_range inside

theorem mark_all : ttyMarkAll tty = some (marked tty 0 tty.size) := by
  have all : forLoop (fun t i => ttyMark t (0 + i)) tty.size tty = some (marked tty 0 tty.size) :=
    mark_range (by omega)
  simpa only [ttyMarkAll, Nat.zero_add] using all

structure Sized (rows width : Nat) (tty : Tty) : Prop where
  lines : tty.lines = rows
  columns : tty.columns = width
  size : tty.size = width * rows
  endPos : tty.endPos = width * rows

structure Put (tty tty' : Tty) (stop place : Nat) (c : Character) : Prop where
  sized : ∀ rows width, Sized rows width tty → Sized rows width tty'
  cursor : tty'.cursor = stop
  buf : tty'.buf = Function.update tty.buf place c
  dirty : ∀ i, tty'.dirty i = false →
    tty.dirty i = false ∧ i ≠ place ∧ i ≠ tty.cursor ∧ i ≠ stop

structure Scrolled (tty tty' : Tty) (place : Nat) (c : Character) : Prop where
  sized : ∀ rows width, Sized rows width tty → Sized rows width tty'
  cursor : tty'.cursor = tty.size - tty.columns
  buf : ∀ i, i < tty.size → tty'.buf i =
    if i < tty.size - tty.columns then Function.update tty.buf place c (i + tty.columns)
    else ttyDefaultch
  dirty : ∀ i, i < tty.size → tty'.dirty i = true

section Putc

variable {rows width : Nat}

theorem line_inside {c : Nat} (inside : c < width * rows) :
    c - c % width + width ≤ width * rows := by
  have line : c / width < rows := Nat.div_lt_of_lt_mul inside
  have start := Nat.div_add_mod c width
  have whole := Nat.mul_le_mul_left width (Nat.succ_le_of_lt line)
  rw [Nat.mul_succ] at whole
  omega

theorem scroll_all (m : Tty) {place : Nat} {c : Character} (sized : Sized rows width tty)
    (some_line : 1 ≤ rows) (same : ∀ rows width, Sized rows width tty → Sized rows width m)
    (buf : m.buf = Function.update tty.buf place c) (atEnd : m.cursor = m.endPos) :
    ∃ tty', (match ttyUpdScrollup m with
      | none => none
      | some tty => ttyMarkAll tty) = some tty' ∧ Scrolled tty tty' place c := by
  obtain ⟨lines, columns, size, endPos⟩ := same _ _ sized
  have line : width ≤ width * rows := Nat.le_mul_of_pos_right width some_line
  have move : width * (rows - 1) = width * rows - width := by
    rw [Nat.mul_sub, Nat.mul_one]
  have fits : ¬(m.size < m.columns + m.columns * (m.lines - 1) ∨ m.cursor < m.columns) := by
    rw [lines, columns, size, atEnd, endPos, move]
    omega
  unfold ttyUpdScrollup
  simp only [if_neg fits]
  rw [clear_line]
  · simp only [mark_all]
    refine ⟨_, rfl, fun rows' width' other => ?_, ?_, fun i inside => ?_, fun i inside => ?_⟩
    · obtain ⟨lines', columns', size', endPos'⟩ := same rows' width' other
      exact ⟨lines', columns', size', endPos'⟩
    · simp only [marked, cleared]
      rw [atEnd, endPos, columns, sized.size, sized.columns]
    · rw [sized.size] at inside
      simp only [marked, cleared]
      rw [atEnd, endPos, lines, columns, move, sized.size, sized.columns, ← buf]
      by_cases last : i < width * rows - width
      · rw [if_neg (by omega), if_pos last, copy_inside (Nat.zero_le i) (by omega),
          Nat.sub_zero, Nat.add_comm]
      · rw [if_pos (by omega), if_neg last]
    · rw [sized.size, ← size] at inside
      exact if_pos ⟨Nat.zero_le i, by rw [Nat.zero_add]; exact inside⟩
  · simp only
    rw [atEnd, endPos, columns, size]
    omega

theorem line_start (c : Nat) : (c - c % width) % width = 0 := by
  have start := Nat.div_add_mod c width
  have whole : c - c % width = width * (c / width) := by omega
  rw [whole, Nat.mul_mod_right]

theorem putc_carriage_return (sized : Sized rows width tty) (wide : 2 ≤ width)
    (inside : tty.cursor < tty.size) :
    ∃ tty', ttyPutc tty carriageReturn = some tty' ∧
      Put tty tty' (tty.cursor - tty.cursor % width) tty.cursor (tty.buf tty.cursor) := by
  obtain ⟨rfl, rfl, size, endPos⟩ := sized
  rw [size] at inside
  have fits := line_inside inside
  have within := Nat.mod_lt tty.cursor (by omega : tty.columns > 0)
  have low := Nat.mod_le tty.cursor tty.columns
  unfold ttyPutc ttyUpdCr
  simp only [if_true]
  rw [mark_line]
  · refine ⟨_, rfl, fun rows' width' other => ⟨other.1, other.2, other.3, other.4⟩, rfl, ?_,
      fun i clean => ?_⟩
    · rw [Function.update_eq_self]
      rfl
    · simp only [marked, line_start, Nat.sub_zero] at clean
      split at clean
      · simp at clean
      · exact ⟨clean, by omega, by omega, by omega⟩
  · simp only [size, line_start]
    exact fits

theorem mark_one {m : Tty} {i : Nat} (inside : i < m.size) :
    ttyMark m i = some (marked m i 1) := by
  unfold ttyMark marked
  rw [if_pos inside]
  congr 2
  funext j
  rw [Function.update_apply]
  by_cases here : j = i
  · rw [if_pos here, if_pos (by omega)]
  · rw [if_neg here, if_neg (by omega)]

theorem marked_clean {m : Tty} {a n i : Nat} (clean : (marked m a n).dirty i = false) :
    m.dirty i = false ∧ (i < a ∨ a + n ≤ i) := by
  simp only [marked] at clean
  split at clean
  · simp at clean
  · exact ⟨clean, by omega⟩

theorem putc_backspace (sized : Sized rows width tty) (some_line : 1 ≤ rows) (wide : 2 ≤ width)
    (inside : tty.cursor < tty.size) :
    ∃ tty', ttyPutc tty backspace = some tty' ∧
      Put tty tty' (tty.cursor - 1) (tty.cursor - 1)
        (if 0 < tty.cursor then { tty.buf (tty.cursor - 1) with ch := 0 }
          else tty.buf (tty.cursor - 1)) := by
  obtain ⟨rfl, rfl, size, endPos⟩ := sized
  have two : 2 ≤ tty.size := by
    rw [size]
    exact Nat.le_trans wide (Nat.le_mul_of_pos_right _ some_line)
  have other : ¬backspace = carriageReturn := by decide
  unfold ttyPutc ttyUpdBacksp
  simp only [if_neg other, if_true]
  by_cases some_cell : 0 < tty.cursor
  · have fits : tty.cursor - 1 < tty.size := by omega
    simp only [if_pos some_cell, setChar, if_pos fits]
    rw [mark_one]
    · simp only
      rw [mark_one]
      · refine ⟨_, rfl, fun rows' width' other => ⟨other.1, other.2, other.3, other.4⟩, rfl, rfl,
          fun i clean => ?_⟩
        obtain ⟨old, second⟩ := marked_clean clean
        obtain ⟨old, first⟩ := marked_clean old
        simp only [marked] at second
        exact ⟨old, by omega, by omega, by omega⟩
      · simp only [marked]
        omega
    · simp only
      omega
  · have at_start : tty.cursor = tty.cursor - 1 := by omega
    simp only [if_neg some_cell]
    rw [mark_one inside]
    simp only
    rw [mark_one]
    · refine ⟨_, rfl, fun rows' width' other => ⟨other.1, other.2, other.3, other.4⟩, at_start, ?_,
        fun i clean => ?_⟩
      · rw [Function.update_eq_self]
        rfl
      · obtain ⟨old, _⟩ := marked_clean clean
        obtain ⟨old, first⟩ := marked_clean old
        exact ⟨old, by omega, by omega, by omega⟩
    · simp only [marked]
      omega

theorem putc_newline (sized : Sized rows width tty) (some_line : 1 ≤ rows) (wide : 2 ≤ width)
    (inside : tty.cursor < tty.size) :
    ∃ tty', ttyPutc tty newline = some tty' ∧
      let stop := tty.cursor - tty.cursor % width + width
      (stop < tty.size ∧ Put tty tty' stop tty.cursor (tty.buf tty.cursor) ∨
        stop = tty.size ∧ Scrolled tty tty' tty.cursor (tty.buf tty.cursor)) := by
  have sized' := sized
  obtain ⟨rfl, rfl, size, endPos⟩ := sized
  rw [size] at inside
  have fits := line_inside inside
  have within := Nat.mod_lt tty.cursor (by omega : tty.columns > 0)
  have low := Nat.mod_le tty.cursor tty.columns
  have notReturn : ¬newline = carriageReturn := by decide
  have notBack : ¬newline = backspace := by decide
  have start : (tty.cursor - tty.cursor % tty.columns + tty.columns) % tty.columns = 0 := by
    rw [Nat.add_mod_right, line_start]
  unfold ttyPutc ttyUpdCr ttyUpdLf
  simp only [if_neg notReturn, if_neg notBack, if_true]
  by_cases atEnd : tty.cursor - tty.cursor % tty.columns + tty.columns = tty.endPos
  · obtain ⟨tty', ran, scrolled⟩ := scroll_all ⟨tty.display, tty.lines, tty.columns, tty.size,
      tty.buf, tty.endPos, tty.cursor - tty.cursor % tty.columns + tty.columns, tty.dirty⟩ sized'
      some_line (fun rows' width' other => ⟨other.1, other.2, other.3, other.4⟩)
      (Function.update_eq_self tty.cursor tty.buf).symm atEnd
    refine ⟨tty', ?_, .inr ⟨?_, scrolled⟩⟩
    · rw [if_pos atEnd]
      exact ran
    · rw [size, ← endPos]
      exact atEnd
  · rw [if_neg atEnd]
    rw [endPos] at atEnd
    have next : tty.cursor - tty.cursor % tty.columns + tty.columns < tty.columns * tty.lines := by
      omega
    have nextLine := line_inside next
    rw [start] at nextLine
    rw [mark_line]
    · simp only
      rw [mark_line]
      · refine ⟨_, rfl, .inl ⟨by rw [size]; exact next, fun rows' width' other =>
          ⟨other.1, other.2, other.3, other.4⟩, rfl, ?_, fun i clean => ?_⟩⟩
        · rw [Function.update_eq_self]
          rfl
        · obtain ⟨old, below⟩ := marked_clean clean
          obtain ⟨old, above⟩ := marked_clean old
          simp only [Nat.add_sub_cancel, line_start, marked, start] at above below
          exact ⟨old, by omega, by omega, by omega⟩
      · simp only [marked, size, start]
        exact nextLine
    · simp only [Nat.add_sub_cancel, line_start, size]
      exact fits

theorem putc_char (sized : Sized rows width tty) (some_line : 1 ≤ rows)
    (inside : tty.cursor < tty.size) {ch : UInt8} (notReturn : ch ≠ carriageReturn)
    (notBack : ch ≠ backspace) (notNewline : ch ≠ newline) :
    ∃ tty', ttyPutc tty ch = some tty' ∧
      let c := { tty.buf tty.cursor with ch := ch }
      (tty.cursor + 1 < tty.size ∧ Put tty tty' (tty.cursor + 1) tty.cursor c ∨
        tty.cursor + 1 = tty.size ∧ Scrolled tty tty' tty.cursor c) := by
  have sized' := sized
  obtain ⟨rfl, rfl, size, endPos⟩ := sized
  unfold ttyPutc ttyUpdPutc
  simp only [if_neg notReturn, if_neg notBack, if_neg notNewline, setChar, if_pos inside]
  by_cases atEnd : tty.cursor + 1 = tty.endPos
  · obtain ⟨tty', ran, scrolled⟩ := scroll_all ⟨tty.display, tty.lines, tty.columns, tty.size,
      _, tty.endPos, tty.cursor + 1, tty.dirty⟩ sized' some_line
      (fun rows' width' other => ⟨other.1, other.2, other.3, other.4⟩) rfl atEnd
    refine ⟨tty', ?_, .inr ⟨?_, scrolled⟩⟩
    · rw [if_pos atEnd]
      exact ran
    · rw [size, ← endPos]
      exact atEnd
  · rw [if_neg atEnd]
    have next : tty.cursor + 1 < tty.size := by
      rw [endPos] at atEnd
      rw [size] at inside ⊢
      omega
    rw [mark_one]
    · simp only
      rw [mark_one]
      · refine ⟨_, rfl, .inl ⟨next, fun rows' width' other =>
          ⟨other.1, other.2, other.3, other.4⟩, rfl, rfl, fun i clean => ?_⟩⟩
        obtain ⟨old, second⟩ := marked_clean clean
        obtain ⟨old, first⟩ := marked_clean old
        simp only [Nat.add_sub_cancel, marked] at first second
        exact ⟨old, by omega, by omega, by omega⟩
      · exact next
    · simp only [Nat.add_sub_cancel]
      exact inside

end Putc

section Render

variable {rows width : Nat} {showCursor : Bool}

def drawn (showCursor : Bool) (tty : Tty) (n : Nat) : List Sprite :=
  (List.range n).flatMap fun ch =>
    if tty.dirty ch then
      [upper showCursor tty ch (ch % tty.columns) (ch / tty.columns),
        lower showCursor tty ch (ch % tty.columns) (ch / tty.columns)]
    else []

theorem drawn_succ (n : Nat) : drawn showCursor tty (n + 1) = drawn showCursor tty n ++
    if tty.dirty n then
      [upper showCursor tty n (n % tty.columns) (n / tty.columns),
        lower showCursor tty n (n % tty.columns) (n / tty.columns)]
    else [] := by
  unfold drawn
  rw [List.range_succ, List.flatMap_append, List.flatMap_singleton]

theorem drawn_length (n : Nat) : (drawn showCursor tty n).length ≤ n * 2 := by
  induction n with
  | zero => exact Nat.le_refl 0
  | succ n ih =>
    rw [drawn_succ, List.length_append]
    split
    · simp only [List.length_cons, List.length_nil]
      omega
    · simp only [List.length_nil]
      omega

theorem render_cell {x y : Nat} (column : x < tty.columns)
    (inside : y * tty.columns + x < tty.size) :
    renderCell showCursor tty y (y * tty.columns + x, drawn showCursor tty (y * tty.columns + x))
        x =
      some (y * tty.columns + (x + 1), drawn showCursor tty (y * tty.columns + (x + 1))) := by
  have room : (drawn showCursor tty (y * tty.columns + x)).length ≤
      (y * tty.columns + x) * 2 := drawn_length _
  have first : (y * tty.columns + x) % tty.columns = x := by
    rw [Nat.mul_comm, Nat.mul_add_mod, Nat.mod_eq_of_lt column]
  have second : (y * tty.columns + x) / tty.columns = y := by
    rw [Nat.mul_comm, Nat.mul_add_div (by omega), Nat.div_eq_of_lt column, Nat.add_zero]
  rw [← Nat.add_assoc, drawn_succ, first, second]
  generalize drawn showCursor tty (y * tty.columns + x) = sp at *
  unfold renderCell pushSprite
  by_cases dirty : tty.dirty (y * tty.columns + x)
  · have one : sp.length < tty.size * 2 := by omega
    have two : (sp ++ [upper showCursor tty (y * tty.columns + x) x y]).length <
        tty.size * 2 := by
      rw [List.length_append, List.length_singleton]
      omega
    simp only [if_pos dirty, if_pos one, if_pos two, List.append_assoc, List.cons_append,
      List.nil_append]
  · simp only [if_neg dirty, List.append_nil]

theorem render_draws (showCursor : Bool) (sized : Sized rows width tty) :
    ttyRender showCursor tty = some (drawn showCursor tty tty.size,
        { tty with dirty := fun i => if i < tty.size then false else tty.dirty i }) ∧
      (drawn showCursor tty tty.size).length ≤ 2 * tty.size := by
  obtain ⟨rfl, rfl, size, _⟩ := sized
  obtain ⟨s', ran, rfl⟩ : ∃ s', forLoop (fun s y => forLoop (renderCell showCursor tty y)
      tty.columns s) tty.lines (0, []) = some s' ∧
      s' = (tty.lines * tty.columns, drawn showCursor tty (tty.lines * tty.columns)) := by
    apply for_loop_rule fun y s => s = (y * tty.columns, drawn showCursor tty (y * tty.columns))
    · rw [Nat.zero_mul]
      rfl
    · rintro y s line rfl
      obtain ⟨s', ran, rfl⟩ : ∃ s', forLoop (renderCell showCursor tty y) tty.columns
          (y * tty.columns, drawn showCursor tty (y * tty.columns)) = some s' ∧
          s' = (y * tty.columns + tty.columns,
            drawn showCursor tty (y * tty.columns + tty.columns)) := by
        apply for_loop_rule fun x s =>
          s = (y * tty.columns + x, drawn showCursor tty (y * tty.columns + x))
        · rfl
        · rintro x s column rfl
          have whole := Nat.mul_le_mul_right tty.columns (Nat.succ_le_of_lt line)
          rw [Nat.succ_mul, Nat.mul_comm tty.lines, ← size] at whole
          exact ⟨_, render_cell column (by omega), rfl⟩
      exact ⟨_, ran, by rw [Nat.succ_mul]⟩
  refine ⟨?_, ?_⟩
  · unfold ttyRender
    rw [ran, size, Nat.mul_comm]
  · have length : (drawn showCursor tty tty.size).length ≤ tty.size * 2 := drawn_length _
    omega

end Render

end Screen
