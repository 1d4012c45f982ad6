import JyyOs.Dev.Input
import Mathlib.Logic.Function.Basic

/-!
dev_input.c and the keyboard of ioe.c: scan codes become key events, and a key that goes down
becomes an input event under the modifiers of input_t. `strokes` says what was typed from the
history of the keys alone.
-/
namespace Keyboard

open Input

inductive AmKey where
  | none_
  | escape | f1 | f2 | f3 | f4 | f5 | f6 | f7 | f8 | f9 | f10 | f11 | f12
  | grave | n1 | n2 | n3 | n4 | n5 | n6 | n7 | n8 | n9 | n0 | minus | equals | backspace
  | tab | q | w | e | r | t | y | u | i | o | p | leftBracket | rightBracket | backslash
  | capslock | a | s | d | f | g | h | j | k | l | semicolon | apostrophe | return_
  | lshift | z | x | c | v | b | n | m | comma | period | slash | rshift
  | lctrl | application | lalt | space | ralt | rctrl
  | up | down | left | right | insert | delete | home | end_ | pageUp | pageDown
  deriving DecidableEq

structure KeyEvent where
  keydown : Bool
  keycode : AmKey
  deriving DecidableEq

/-- An array initializer with designators, of which the last one for an index counts. -/
def designated (cells : List (Nat × AmKey)) : Nat → AmKey :=
  cells.foldl (fun lut cell => Function.update lut cell.1 cell.2) fun _ => .none_

def keylut : Nat → AmKey :=
  designated [
    (0x01, .escape), (0x02, .n1), (0x03, .n2),
    (0x04, .n3), (0x05, .n4), (0x06, .n5), (0x07, .n6),
    (0x08, .n7), (0x09, .n8), (0x0a, .n9), (0x0b, .n0),
    (0x0c, .minus), (0x0d, .equals),
    (0x0e, .backspace), (0x0f, .tab),
    (0x10, .q), (0x11, .w), (0x12, .e), (0x13, .r),
    (0x14, .t), (0x15, .y), (0x16, .u), (0x17, .i),
    (0x18, .o), (0x19, .p), (0x1a, .leftBracket),
    (0x1b, .rightBracket), (0x1c, .return_),
    (0x1d, .lctrl), (0x1e, .a), (0x1f, .s),
    (0x20, .d), (0x21, .f), (0x22, .g), (0x23, .h),
    (0x24, .j), (0x25, .k), (0x26, .l),
    (0x27, .semicolon), (0x28, .apostrophe),
    (0x29, .grave), (0x2a, .lshift),
    (0x2b, .backslash), (0x2c, .z), (0x2d, .x),
    (0x2e, .c), (0x2f, .v), (0x30, .b), (0x31, .n),
    (0x32, .m), (0x33, .comma), (0x34, .period),
    (0x35, .slash), (0x36, .rshift), (0x38, .lalt),
    (0x38, .ralt), (0x39, .space), (0x3a, .capslock),
    (0x3b, .f1), (0x3c, .f2), (0x3d, .f3),
    (0x3e, .f4), (0x3f, .f5), (0x40, .f6),
    (0x41, .f7), (0x42, .f8), (0x43, .f9),
    (0x44, .f10), (0x48, .insert),
    (0x4b, .home), (0x4d, .end_), (0x50, .delete),
    (0x57, .f11), (0x58, .f12), (0x5b, .application)]

def inputKeybrd (code : UInt8) : KeyEvent := ⟨code < 128, keylut (code &&& 0x7f).toNat⟩

def keymap : AmKey → UInt8 × UInt8
  | .n0 => (48, 41) | .n1 => (49, 33) | .n2 => (50, 64) | .n3 => (51, 35) | .n4 => (52, 36)
  | .n5 => (53, 37) | .n6 => (54, 94) | .n7 => (55, 38) | .n8 => (56, 42) | .n9 => (57, 40)
  | .a => (97, 65) | .b => (98, 66) | .c => (99, 67) | .d => (100, 68) | .e => (101, 69)
  | .f => (102, 70) | .g => (103, 71) | .h => (104, 72) | .i => (105, 73) | .j => (106, 74)
  | .k => (107, 75) | .l => (108, 76) | .m => (109, 77) | .n => (110, 78) | .o => (111, 79)
  | .p => (112, 80) | .q => (113, 81) | .r => (114, 82) | .s => (115, 83) | .t => (116, 84)
  | .u => (117, 85) | .v => (118, 86) | .w => (119, 87) | .x => (120, 88) | .y => (121, 89)
  | .z => (122, 90)
  | .grave => (96, 126)
  | .minus => (45, 95)
  | .equals => (61, 43)
  | .leftBracket => (91, 123)
  | .rightBracket => (93, 125)
  | .backslash => (92, 124)
  | .semicolon => (59, 58)
  | .apostrophe => (39, 34)
  | .return_ => (10, 10)
  | .comma => (44, 60)
  | .period => (46, 62)
  | .slash => (47, 63)
  | .space => (32, 32)
  | .backspace => (8, 8)
  | _ => (0, 0)

structure Modifiers where
  capslock : Bool
  shiftDown : Bool × Bool
  ctrlDown : Bool × Bool
  altDown : Bool × Bool
  deriving DecidableEq

def event (ctrl alt : Bool) (data : UInt8) : InputEvent := ⟨ctrl.toNat, alt.toNat, data.toNat⟩

/-- The default case of input_keydown for a key that goes down: the event it pushes, if any. -/
def keyTyped (mods : Modifiers) (key : AmKey) : Option InputEvent :=
  let ch := (keymap key).1
  if ch = 0 then none
  else
    let shift := mods.shiftDown.1 || mods.shiftDown.2
    let ctrl := mods.ctrlDown.1 || mods.ctrlDown.2
    let alt := mods.altDown.1 || mods.altDown.2
    if ctrl || alt then some (event ctrl alt ch)
    else
      let shift := if 97 ≤ ch ∧ ch ≤ 122 then shift ^^ mods.capslock else shift
      if shift then some (event false false (keymap key).2)
      else some (event false false ch)

def keyPressed (mods : Modifiers) (key : AmKey) : Modifiers × Option InputEvent :=
  match key with
  | .capslock => ({ mods with capslock := !mods.capslock }, none)
  | .lctrl => ({ mods with ctrlDown := (true, mods.ctrlDown.2) }, none)
  | .rctrl => ({ mods with ctrlDown := (mods.ctrlDown.1, true) }, none)
  | .lalt => ({ mods with altDown := (true, mods.altDown.2) }, none)
  | .ralt => ({ mods with altDown := (mods.altDown.1, true) }, none)
  | .lshift => ({ mods with shiftDown := (true, mods.shiftDown.2) }, none)
  | .rshift => ({ mods with shiftDown := (mods.shiftDown.1, true) }, none)
  | key => (mods, keyTyped mods key)

def keyReleased (mods : Modifiers) : AmKey → Modifiers
  | .lctrl => { mods with ctrlDown := (false, mods.ctrlDown.2) }
  | .rctrl => { mods with ctrlDown := (mods.ctrlDown.1, false) }
  | .lalt => { mods with altDown := (false, mods.altDown.2) }
  | .ralt => { mods with altDown := (mods.altDown.1, false) }
  | .lshift => { mods with shiftDown := (false, mods.shiftDown.2) }
  | .rshift => { mods with shiftDown := (mods.shiftDown.1, false) }
  | _ => mods

def inputKeydown (mods : Modifiers) (key : KeyEvent) : Modifiers × Option InputEvent :=
  if key.keydown then keyPressed mods key.keycode else (keyReleased mods key.keycode, none)

def noModifiers : Modifiers := ⟨false, (false, false), (false, false), (false, false)⟩

/-- The last that was heard of a key is that it went down. -/
def held (log : List KeyEvent) (key : AmKey) : Bool :=
  ((log.filter (·.keycode = key)).getLast?.map (·.keydown)).getD false

/-- Caps lock went down an odd number of times. -/
def locked (log : List KeyEvent) : Bool := log.count ⟨true, .capslock⟩ % 2 = 1

def shifted (log : List KeyEvent) : Bool := held log .lshift || held log .rshift

def controlled (log : List KeyEvent) : Bool := held log .lctrl || held log .rctrl

def alternate (log : List KeyEvent) : Bool := held log .lalt || held log .ralt

def Small (ch : UInt8) : Prop := 97 ≤ ch ∧ ch ≤ 122

instance (ch : UInt8) : Decidable (Small ch) := inferInstanceAs (Decidable (_ ∧ _))

/-- What a key types: its small letter turns into the capital one under either shift or caps lock
    but not under both, its other characters follow shift only, and with control or alt it is the
    plain character. -/
def stroke (log : List KeyEvent) (key : AmKey) : Option InputEvent :=
  if (keymap key).1 = 0 then none
  else if controlled log || alternate log then
    some (event (controlled log) (alternate log) (keymap key).1)
  else if shifted log ≠ (locked log && Small (keymap key).1) then
    some (event false false (keymap key).2)
  else some (event false false (keymap key).1)

def strokesFrom (log : List KeyEvent) : List KeyEvent → List InputEvent
  | [] => []
  | key :: rest =>
    (if key.keydown then (stroke log key.keycode).toList else []) ++ strokesFrom (log ++ [key]) rest

def strokes (log : List KeyEvent) : List InputEvent := strokesFrom [] log

structure Follows (mods : Modifiers) (log : List KeyEvent) : Prop where
  capslock : mods.capslock = locked log
  shiftDown : mods.shiftDown = (held log .lshift, held log .rshift)
  ctrlDown : mods.ctrlDown = (held log .lctrl, held log .rctrl)
  altDown : mods.altDown = (held log .lalt, held log .ralt)

section History

variable {mods : Modifiers} {log : List KeyEvent} {key : KeyEvent}

theorem held_concat (log : List KeyEvent) (key : KeyEvent) (code : AmKey) :
    held (log ++ [key]) code = if key.keycode = code then key.keydown else held log code := by
  unfold held
  by_cases same : key.keycode = code
  · simp [same]
  · simp [same]

theorem locked_concat (log : List KeyEvent) (key : KeyEvent) :
    locked (log ++ [key]) = if key = ⟨true, .capslock⟩ then !locked log else locked log := by
  unfold locked
  rw [List.count_append, List.count_singleton]
  by_cases lock : key = ⟨true, .capslock⟩
  · simp only [lock, beq_self_eq_true, if_true]
    rcases Nat.mod_two_eq_zero_or_one (log.count ⟨true, .capslock⟩) with even | odd
    · have next : (log.count ⟨true, .capslock⟩ + 1) % 2 = 1 := by omega
      simp [even, next]
    · have next : (log.count ⟨true, .capslock⟩ + 1) % 2 = 0 := by omega
      simp [odd, next]
  · simp [lock]

theorem strokes_from_concat (before log : List KeyEvent) (key : KeyEvent) :
    strokesFrom before (log ++ [key]) = strokesFrom before log ++
      (if key.keydown then (stroke (before ++ log) key.keycode).toList else []) := by
  induction log generalizing before with
  | nil => simp [strokesFrom]
  | cons first rest ih => simp [strokesFrom, ih]

theorem strokes_concat (log : List KeyEvent) (key : KeyEvent) :
    strokes (log ++ [key]) = strokes log ++
      (if key.keydown then (stroke log key.keycode).toList else []) :=
  strokes_from_concat [] log key

def modifierKeys : List AmKey := [.capslock, .lctrl, .rctrl, .lalt, .ralt, .lshift, .rshift]

theorem key_pressed_default {code : AmKey} (other : code ∉ modifierKeys) :
    keyPressed mods code = (mods, keyTyped mods code) := by
  cases code <;> first | rfl | exact absurd (by decide) other

theorem key_released_default {code : AmKey} (other : code ∉ modifierKeys) :
    keyReleased mods code = mods := by
  cases code <;> first | rfl | exact absurd (by decide) other

theorem key_typed (follows : Follows mods log) (code : AmKey) :
    keyTyped mods code = stroke log code := by
  unfold keyTyped stroke
  rw [follows.capslock, follows.shiftDown, follows.ctrlDown, follows.altDown]
  simp only [← controlled.eq_def, ← alternate.eq_def, ← shifted.eq_def]
  by_cases silent : (keymap code).1 = 0
  · rw [if_pos silent, if_pos silent]
  rw [if_neg silent, if_neg silent]
  by_cases command : (controlled log || alternate log) = true
  · rw [if_pos command, if_pos command]
  rw [if_neg command, if_neg command]
  by_cases small : Small (keymap code).1
  · have letter : 97 ≤ (keymap code).1 ∧ (keymap code).1 ≤ 122 := small
    simp [small, letter]
  · have sign : ¬ (97 ≤ (keymap code).1 ∧ (keymap code).1 ≤ 122) := small
    simp only [if_neg sign]
    simp [small]

theorem Follows.other (follows : Follows mods log) (other : key.keycode ∉ modifierKeys) :
    Follows mods (log ++ [key]) := by
  have apart : ∀ code ∈ modifierKeys, key.keycode ≠ code := by
    intro code modifier same
    exact other (same ▸ modifier)
  have unheard : ∀ code ∈ modifierKeys, held (log ++ [key]) code = held log code := by
    intro code modifier
    rw [held_concat, if_neg (apart code modifier)]
  constructor
  · rw [locked_concat, if_neg, follows.capslock]
    intro same
    exact apart .capslock (by decide) (by rw [same])
  · rw [unheard .lshift (by decide), unheard .rshift (by decide), follows.shiftDown]
  · rw [unheard .lctrl (by decide), unheard .rctrl (by decide), follows.ctrlDown]
  · rw [unheard .lalt (by decide), unheard .ralt (by decide), follows.altDown]

theorem keydown_follows (follows : Follows mods log) (key : KeyEvent) :
    Follows (inputKeydown mods key).1 (log ++ [key]) ∧
      (inputKeydown mods key).2 = if key.keydown then stroke log key.keycode else none := by
  by_cases modifier : key.keycode ∈ modifierKeys
  · obtain ⟨down, code⟩ := key
    have caps := follows.capslock
    have shift := follows.shiftDown
    have ctrl := follows.ctrlDown
    have alt := follows.altDown
    simp only [modifierKeys, List.mem_cons, List.not_mem_nil, or_false] at modifier
    cases down <;> rcases modifier with rfl | rfl | rfl | rfl | rfl | rfl | rfl <;>
      refine ⟨⟨?_, ?_, ?_, ?_⟩, rfl⟩ <;>
      simp [inputKeydown, keyPressed, keyReleased, held_concat, locked_concat, *]
  · obtain ⟨down, code⟩ := key
    cases down
    · simp only [inputKeydown, key_released_default modifier]
      exact ⟨follows.other modifier, rfl⟩
    · simp only [inputKeydown, key_pressed_default modifier, if_true]
      exact ⟨follows.other modifier, key_typed follows code⟩

theorem stroke_typed {code : AmKey} {ev : InputEvent} (typed : stroke log code = some ev) :
    ev.data ≠ 0 := by
  have both : (keymap code).1 ≠ 0 → (keymap code).2 ≠ 0 := by
    cases code <;> decide
  have signed : ∀ ch : UInt8, ch ≠ 0 → (ch.toNat : Int) ≠ 0 := by
    intro ch some_char zero
    exact some_char (UInt8.toNat_inj.mp (Int.ofNat_inj.mp zero))
  unfold stroke at typed
  split at typed
  · cases typed
  · rename_i sign
    split at typed
    · cases typed
      exact signed _ sign
    · split at typed
      · cases typed
        exact signed _ (both sign)
      · cases typed
        exact signed _ sign

end History

end Keyboard
