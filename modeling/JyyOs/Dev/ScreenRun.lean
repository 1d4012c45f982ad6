import JyyOs.Dev.Screen
import JyyOs.Library.PartialRun

/-!
The screen of a tty against a terminal that keeps the last lines of a growing text, and its dirty
marks against what was rendered last.
-/
namespace Screen
open PartialRun

/-- A text that grows at its end and the cursor in it. Column `c` of row `r` is cell
    `r * width + c`. -/
structure Text where
  cell : Nat → UInt8
  rows : Nat
  pos : Nat

namespace Text

def top (lines width : Nat) (t : Text) : Nat := (t.rows - lines) * width

def goTo (width : Nat) (t : Text) (pos : Nat) : Text :=
  { t with pos := pos, rows := max t.rows (pos / width + 1) }

/-- A backspace erases, but not above the rows that are shown. -/
def putc (lines width : Nat) (t : Text) (ch : UInt8) : Text :=
  if ch = carriageReturn then { t with pos := t.pos / width * width }
  else if ch = backspace then
    if t.top lines width < t.pos then
      { t with cell := Function.update t.cell (t.pos - 1) 0, pos := t.pos - 1 }
    else t
  else if ch = newline then t.goTo width ((t.pos / width + 1) * width)
  else goTo width { t with cell := Function.update t.cell t.pos ch } (t.pos + 1)

variable {t : Text} {width pos : Nat}

theorem go_to_inside (inside : pos < t.rows * width) : t.goTo width pos = { t with pos := pos } := by
  have row : pos / width < t.rows := Nat.div_lt_of_lt_mul (by rwa [Nat.mul_comm])
  unfold goTo
  rw [Nat.max_eq_left (Nat.succ_le_of_lt row)]

theorem go_to_end (positive : 0 < width) (atEnd : pos = t.rows * width) :
    t.goTo width pos = { t with pos := pos, rows := t.rows + 1 } := by
  have row : pos / width = t.rows := by rw [atEnd, Nat.mul_div_cancel _ positive]
  unfold goTo
  rw [row, Nat.max_eq_right (Nat.le_succ _)]

end Text

/-- The screen shows the last `rows` rows of the text. -/
structure Shows (rows width : Nat) (tty : Tty) (t : Text) : Prop where
  sized : Sized rows width tty
  enough : rows ≤ t.rows
  cursor : t.top rows width + tty.cursor = t.pos
  inside : tty.cursor < tty.size
  grid : ∀ i, i < tty.size → tty.buf i = ⟨0, t.cell (t.top rows width + i)⟩
  fresh : ∀ j, t.rows * width ≤ j → t.cell j = 0

section Refines

variable {rows width stop place : Nat} {tty tty' : Tty} {t : Text} {c : Character}

theorem Shows.last (shows_ : Shows rows width tty t) :
    t.top rows width + tty.size = t.rows * width := by
  rw [Text.top, shows_.sized.size, Nat.mul_comm width, ← Nat.add_mul,
    Nat.sub_add_cancel shows_.enough]

theorem shows_put (shows_ : Shows rows width tty t) (put : Put tty tty' stop place c)
    (placed : place < tty.size) (stays : stop < tty.size) (plain : c.metadata = 0) :
    Shows rows width tty' ⟨Function.update t.cell (t.top rows width + place) c.ch, t.rows,
      t.top rows width + stop⟩ := by
  have sized := put.sized _ _ shows_.sized
  have size : tty'.size = tty.size := sized.size.trans shows_.sized.size.symm
  have last := shows_.last
  refine ⟨sized, shows_.enough, ?_, ?_, fun i inside => ?_, fun j beyond => ?_⟩
  · rw [put.cursor]
    rfl
  · rwa [put.cursor, size]
  · rw [size] at inside
    rw [put.buf]
    by_cases here : i = place
    · subst here
      simp only [Function.update_self, Text.top, ← plain]
    · have apart : t.top rows width + i ≠ t.top rows width + place := by omega
      have old := shows_.grid i inside
      simp only [Text.top] at apart old ⊢
      rw [Function.update_of_ne here, Function.update_of_ne apart, old]
  · have apart : j ≠ t.top rows width + place := by
      simp only at beyond
      omega
    exact (Function.update_of_ne apart ..).trans (shows_.fresh j beyond)

theorem shows_scrolled (shows_ : Shows rows width tty t) (scrolled : Scrolled tty tty' place c)
    (some_line : 1 ≤ rows) (positive : 0 < width) (placed : place < tty.size)
    (plain : c.metadata = 0) :
    Shows rows width tty' ⟨Function.update t.cell (t.top rows width + place) c.ch, t.rows + 1,
      t.top rows width + tty.size⟩ := by
  have sized := scrolled.sized _ _ shows_.sized
  have size : tty'.size = tty.size := sized.size.trans shows_.sized.size.symm
  have columns := shows_.sized.columns
  have line : width ≤ tty.size := by
    rw [shows_.sized.size]
    exact Nat.le_mul_of_pos_right width some_line
  have last := shows_.last
  have moved : ∀ cell pos, Text.top rows width ⟨cell, t.rows + 1, pos⟩ =
      t.top rows width + width := by
    intro cell pos
    rw [Text.top, Text.top, Nat.sub_add_comm shows_.enough, Nat.succ_mul]
  refine ⟨sized, Nat.le_succ_of_le shows_.enough, ?_, ?_, fun i inside => ?_, fun j beyond => ?_⟩
  · rw [scrolled.cursor, columns, moved]
    simp only
    omega
  · rw [scrolled.cursor, columns, size]
    omega
  · rw [size] at inside
    rw [scrolled.buf i inside, columns, moved]
    simp only
    by_cases kept : i < tty.size - width
    · rw [if_pos kept]
      have next : t.top rows width + width + i = t.top rows width + (i + width) := by omega
      rw [next]
      by_cases here : i + width = place
      · subst here
        rw [Function.update_self, Function.update_self, ← plain]
      · have apart : t.top rows width + (i + width) ≠ t.top rows width + place := by omega
        rw [Function.update_of_ne here, Function.update_of_ne apart]
        exact shows_.grid _ (by omega)
    · rw [if_neg kept]
      have apart : t.top rows width + width + i ≠ t.top rows width + place := by omega
      rw [Function.update_of_ne apart, shows_.fresh _ (by omega)]
      rfl
  · simp only at beyond
    rw [Nat.succ_mul] at beyond
    have apart : j ≠ t.top rows width + place := by omega
    exact (Function.update_of_ne apart ..).trans (shows_.fresh j (by omega))

theorem Shows.same_cell (shows_ : Shows rows width tty t) :
    (tty.buf tty.cursor).metadata = 0 ∧
      Function.update t.cell (t.top rows width + tty.cursor) (tty.buf tty.cursor).ch = t.cell := by
  rw [shows_.grid _ shows_.inside]
  exact ⟨rfl, Function.update_eq_self ..⟩

theorem Shows.column (shows_ : Shows rows width tty t) :
    tty.cursor % width = t.pos % width := by
  rw [← shows_.cursor, Text.top, Nat.mul_comm, Nat.mul_add_mod]

theorem putc_shows (shows_ : Shows rows width tty t) (some_line : 1 ≤ rows) (wide : 2 ≤ width)
    (ch : UInt8) :
    ∃ tty', ttyPutc tty ch = some tty' ∧ Shows rows width tty' (t.putc rows width ch) := by
  have last := shows_.last
  have cursor := shows_.cursor
  have inside := shows_.inside
  have column := shows_.column
  have low := Nat.mod_le tty.cursor width
  have split := Nat.div_add_mod' t.pos width
  obtain ⟨plain, same⟩ := shows_.same_cell
  by_cases isReturn : ch = carriageReturn
  · subst isReturn
    obtain ⟨tty', ran, put⟩ := putc_carriage_return shows_.sized wide inside
    refine ⟨tty', ran, ?_⟩
    have next := shows_put shows_ put inside (by omega) plain
    have start : t.top rows width + (tty.cursor - tty.cursor % width) = t.pos / width * width := by
      omega
    rw [same, start] at next
    unfold Text.putc
    rw [if_pos rfl]
    exact next
  by_cases isBack : ch = backspace
  · subst isBack
    obtain ⟨tty', ran, put⟩ := putc_backspace shows_.sized some_line wide inside
    refine ⟨tty', ran, ?_⟩
    unfold Text.putc
    rw [if_neg isReturn, if_pos rfl]
    by_cases some_cell : 0 < tty.cursor
    · have erased : t.top rows width < t.pos := by omega
      have back : t.top rows width + (tty.cursor - 1) = t.pos - 1 := by omega
      rw [if_pos some_cell] at put
      have next := shows_put shows_ put (by omega) (by omega) (by
        rw [shows_.grid _ (by omega)])
      rw [back] at next
      rw [if_pos erased]
      exact next
    · have start : tty.cursor - 1 = tty.cursor := by omega
      rw [if_neg some_cell, start] at put
      have next := shows_put shows_ put inside inside plain
      rw [same, cursor] at next
      rw [if_neg (by omega)]
      exact next
  by_cases isNewline : ch = newline
  · subst isNewline
    obtain ⟨tty', ran, outcome⟩ := putc_newline shows_.sized some_line wide inside
    refine ⟨tty', ran, ?_⟩
    have nextRow : t.top rows width + (tty.cursor - tty.cursor % width + width) =
        (t.pos / width + 1) * width := by
      rw [Nat.succ_mul]
      omega
    unfold Text.putc
    rw [if_neg isReturn, if_neg isBack, if_pos rfl]
    rcases outcome with ⟨stays, put⟩ | ⟨atEnd, scrolled⟩
    · have next := shows_put shows_ put inside stays plain
      rw [same, nextRow] at next
      rw [Text.go_to_inside (by omega)]
      exact next
    · have next := shows_scrolled shows_ scrolled some_line (by omega) inside plain
      rw [same, ← atEnd, nextRow] at next
      rw [Text.go_to_end (by omega) (by omega)]
      exact next
  · obtain ⟨tty', ran, outcome⟩ :=
      putc_char shows_.sized some_line inside isReturn isBack isNewline
    refine ⟨tty', ran, ?_⟩
    unfold Text.putc
    rw [if_neg isReturn, if_neg isBack, if_neg isNewline]
    rcases outcome with ⟨stays, put⟩ | ⟨atEnd, scrolled⟩
    · have next := shows_put shows_ put inside stays plain
      rw [← Nat.add_assoc, cursor] at next
      rw [Text.go_to_inside (by simp only; omega)]
      exact next
    · have next := shows_scrolled shows_ scrolled some_line (by omega) inside plain
      rw [← atEnd, ← Nat.add_assoc, cursor] at next
      rw [Text.go_to_end (by omega) (by simp only; omega)]
      exact next

end Refines

section Dirty

variable {rows width stop place : Nat} {tty tty' : Tty} {c : Character} {showCursor : Bool}

/-- Every cell that shows something else than before is marked, and no mark is lost. -/
def Covers (showCursor : Bool) (tty tty' : Tty) : Prop :=
  ∀ i, i < tty'.size → tty'.dirty i = false →
    tty.dirty i = false ∧ glyph showCursor tty' i = glyph showCursor tty i

theorem covers_put (put : Put tty tty' stop place c) : Covers showCursor tty tty' := by
  intro i _ clean
  obtain ⟨old, notPlace, notCursor, notStop⟩ := put.dirty i clean
  refine ⟨old, ?_⟩
  unfold glyph
  rw [put.cursor, put.buf, Function.update_of_ne notPlace]
  simp only [notCursor, notStop, false_and, if_false]

theorem covers_all (size : tty'.size = tty.size)
    (dirty : ∀ i, i < tty.size → tty'.dirty i = true) : Covers showCursor tty tty' := by
  intro i inside clean
  rw [dirty i (size ▸ inside)] at clean
  cases clean

theorem putc_covers (showCursor : Bool) (sized : Sized rows width tty) (some_line : 1 ≤ rows) (wide : 2 ≤ width)
    (inside : tty.cursor < tty.size) (ch : UInt8) :
    ∃ tty', ttyPutc tty ch = some tty' ∧ Covers showCursor tty tty' := by
  have scrolls : ∀ {tty' place c}, Scrolled tty tty' place c → Covers showCursor tty tty' :=
    fun scrolled => covers_all ((scrolled.sized _ _ sized).size.trans sized.size.symm)
      scrolled.dirty
  by_cases isReturn : ch = carriageReturn
  · obtain ⟨tty', ran, put⟩ := putc_carriage_return sized wide inside
    exact ⟨tty', isReturn ▸ ran, covers_put put⟩
  by_cases isBack : ch = backspace
  · obtain ⟨tty', ran, put⟩ := putc_backspace sized some_line wide inside
    exact ⟨tty', isBack ▸ ran, covers_put put⟩
  by_cases isNewline : ch = newline
  · obtain ⟨tty', ran, outcome⟩ := putc_newline sized some_line wide inside
    refine ⟨tty', isNewline ▸ ran, ?_⟩
    rcases outcome with ⟨_, put⟩ | ⟨_, scrolled⟩
    · exact covers_put put
    · exact scrolls scrolled
  · obtain ⟨tty', ran, outcome⟩ := putc_char sized some_line inside isReturn isBack isNewline
    refine ⟨tty', ran, ?_⟩
    rcases outcome with ⟨_, put⟩ | ⟨_, scrolled⟩
    · exact covers_put put
    · exact scrolls scrolled

end Dirty

structure Display where
  tty : Tty
  shown : Nat → Option Nat

inductive Event where
  | putc (ch : UInt8)
  | markAll
  | render

def step (showCursor : Bool) (s : Display) : Event → Option Display
  | .putc ch => (ttyPutc s.tty ch).map fun tty => { s with tty := tty }
  | .markAll => (ttyMarkAll s.tty).map fun tty => { s with tty := tty }
  | .render => (ttyRender showCursor s.tty).map fun (_, tty) =>
      ⟨tty, fun i => if s.tty.dirty i then some (glyph showCursor s.tty i) else s.shown i⟩

def written (lines width : Nat) : Text → List Event → Text
  | t, [] => t
  | t, .putc ch :: rest => written lines width (t.putc lines width ch) rest
  | t, _ :: rest => written lines width t rest

def blankText (lines : Nat) : Text := ⟨fun _ => 0, lines, 0⟩

/-- The screen shows the text, and a cell that is not marked shows what was rendered last. -/
structure Faithful (showCursor : Bool) (rows width : Nat) (s : Display) (t : Text) : Prop where
  shows_ : Shows rows width s.tty t
  clean : ∀ i, i < s.tty.size → s.tty.dirty i = false → ∀ g, s.shown i = some g →
    g = glyph showCursor s.tty i

section Runs

variable {showCursor : Bool} {rows width : Nat} {s : Display} {t : Text}

theorem faithful_covers {tty : Tty} {t' : Text} (faithful : Faithful showCursor rows width s t)
    (shows_ : Shows rows width tty t') (covers : Covers showCursor s.tty tty) :
    Faithful showCursor rows width { s with tty := tty } t' := by
  refine ⟨shows_, fun i inside clean g shown => ?_⟩
  obtain ⟨old, same⟩ := covers i inside clean
  have size : tty.size = s.tty.size := shows_.sized.size.trans faithful.shows_.sized.size.symm
  rw [same]
  exact faithful.clean i (size ▸ inside) old g shown

theorem step_faithful (faithful : Faithful showCursor rows width s t) (some_line : 1 ≤ rows)
    (wide : 2 ≤ width) (e : Event) :
    ∃ s', step showCursor s e = some s' ∧
      Faithful showCursor rows width s' (written rows width t [e]) := by
  have shows_ := faithful.shows_
  cases e with
  | putc ch =>
    obtain ⟨tty', ran, next⟩ := putc_shows shows_ some_line wide ch
    obtain ⟨tty'', ran', covers⟩ :=
      putc_covers showCursor shows_.sized some_line wide shows_.inside ch
    obtain rfl := Option.some.inj (ran.symm.trans ran')
    refine ⟨_, ?_, faithful_covers faithful next covers⟩
    simp only [step, ran, Option.map_some]
  | markAll =>
    have next : Shows rows width (marked s.tty 0 s.tty.size) t :=
      ⟨⟨shows_.sized.1, shows_.sized.2, shows_.sized.3, shows_.sized.4⟩, shows_.enough,
        shows_.cursor, shows_.inside, shows_.grid, shows_.fresh⟩
    have covers : Covers showCursor s.tty (marked s.tty 0 s.tty.size) :=
      covers_all rfl fun i inside => if_pos ⟨Nat.zero_le i, by omega⟩
    refine ⟨_, ?_, faithful_covers faithful next covers⟩
    simp only [step, mark_all, Option.map_some]
  | render =>
    have next : ∀ dirty, Shows rows width { s.tty with dirty := dirty } t := fun dirty =>
      ⟨⟨shows_.sized.1, shows_.sized.2, shows_.sized.3, shows_.sized.4⟩, shows_.enough,
        shows_.cursor, shows_.inside, shows_.grid, shows_.fresh⟩
    have rendered : step showCursor s .render = some
        ⟨{ s.tty with dirty := fun i => if i < s.tty.size then false else s.tty.dirty i },
          fun i => if s.tty.dirty i then some (glyph showCursor s.tty i) else s.shown i⟩ := by
      simp only [step, (render_draws showCursor shows_.sized).1, Option.map_some]
    refine ⟨_, rendered, next _, fun i inside _ g shown => ?_⟩
    simp only at shown
    split at shown
    · exact (Option.some.inj shown).symm
    · rename_i clean
      exact faithful.clean i inside (by simpa using clean) g shown

theorem run_faithful (faithful : Faithful showCursor rows width s t) (some_line : 1 ≤ rows)
    (wide : 2 ≤ width) (events : List Event) :
    ∃ s', run (step showCursor) s events = some s' ∧
      Faithful showCursor rows width s' (written rows width t events) := by
  induction events generalizing s t with
  | nil => exact ⟨s, rfl, faithful⟩
  | cons e rest ih =>
    obtain ⟨m, taken, next⟩ := step_faithful faithful some_line wide e
    obtain ⟨s', ran, later⟩ := ih next
    refine ⟨s', by simp [run, taken, ran], ?_⟩
    cases e <;> exact later

theorem init_faithful (showCursor : Bool) (id height width : Nat) (tall : 1 ≤ height / 16) (wide : 2 ≤ width / 8) :
    Faithful showCursor (height / 16) (width / 8) ⟨ttyInit id height width, fun _ => none⟩
      (blankText (height / 16)) := by
  have cells : 0 < width / 8 * (height / 16) := Nat.mul_pos (by omega) tall
  have top : (blankText (height / 16)).top (height / 16) (width / 8) = 0 := by
    simp [Text.top, blankText]
  refine ⟨⟨⟨rfl, rfl, rfl, rfl⟩, Nat.le_refl _, ?_, cells, fun _ _ => rfl, fun _ _ => rfl⟩,
    fun _ _ _ g shown => ?_⟩
  · rw [top]
    rfl
  · simp at shown

end Runs

/-- No character and no rendering leaves the screen or tty->sp_buf; the grid and the cursor are
    those of the last lines of the text; a cell that shows another glyph than it was last
    rendered with is marked. -/
theorem screen_follows_text {height width : Nat} (tall : 1 ≤ height / 16) (wide : 2 ≤ width / 8)
    (showCursor : Bool) (id : Nat) (events : List Event) :
    let lines := height / 16
    let columns := width / 8
    let text := written lines columns (blankText lines) events
    ∃ s, run (step showCursor) ⟨ttyInit id height width, fun _ => none⟩ events = some s ∧
      s.tty.size = columns * lines ∧ s.tty.cursor < s.tty.size ∧
      text.top lines columns + s.tty.cursor = text.pos ∧
      (∀ i, i < s.tty.size → s.tty.buf i = ⟨0, text.cell (text.top lines columns + i)⟩) ∧
      (∀ i, i < s.tty.size → ∀ g, s.shown i = some g → g ≠ glyph showCursor s.tty i →
        s.tty.dirty i = true) ∧
      ∃ sprites tty', ttyRender showCursor s.tty = some (sprites, tty') ∧
        sprites.length ≤ 2 * s.tty.size := by
  intro lines columns text
  obtain ⟨s, ran, faithful⟩ :=
    run_faithful (init_faithful showCursor id height width tall wide) tall wide events
  have shows_ := faithful.shows_
  obtain ⟨drawn_, few⟩ := render_draws showCursor shows_.sized
  refine ⟨s, ran, shows_.sized.size, shows_.inside, shows_.cursor, shows_.grid,
    fun i inside g shown other => ?_, _, _, drawn_, few⟩
  cases dirty : s.tty.dirty i with
  | true => rfl
  | false => exact absurd (faithful.clean i inside dirty g shown) other

/-- Two characters fill a line of two cells, and the screen of one line scrolls. -/
theorem screen_follows_text_one_line :
    ∃ s, run (step true) ⟨ttyInit 1 16 16, fun _ => none⟩ [.render, .putc 65, .putc 66] =
        some s ∧
      s.tty.cursor = 0 ∧ s.tty.buf 1 = ⟨0, 0⟩ := by
  obtain ⟨s, ran, size, _, cursor, grid, _⟩ := screen_follows_text (by decide : 1 ≤ 16 / 16)
    (by decide : 2 ≤ 16 / 8) true 1 [.render, .putc 65, .putc 66]
  have text : 2 + s.tty.cursor = 2 := cursor
  refine ⟨s, ran, by omega, ?_⟩
  have inside : 1 < s.tty.size := by
    rw [size]
    decide
  exact grid 1 inside

end Screen
