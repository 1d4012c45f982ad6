import JyyOs.Dev.Framebuffer
import JyyOs.Dev.ScreenRun

/-!
The two consoles on one frame buffer: tty_write of any tasks beside dev_tty_task, which switches
consoles and blinks the cursor without taking tty->lock. A step is a section under tty->lock or
fb_sem, or an access of dev_tty_task; `text` is all that was written to a console.
-/
namespace Screen

open PartialRun

/-- How far the task that holds tty->lock is in tty_render. -/
inductive Render where
  | idle
  | built (sprites : List Sprite)
  | written

/-- Where dev_tty_task is: before its first tty_mark_all, between the change of show_cursor and
    tty_mark, or between tty_mark_all and the fb_write that switches to `target`. -/
inductive Daemon where
  | starting
  | ready
  | toggled (old : Bool)
  | marked (target : Fin 2)

structure System where
  tty : Fin 2 → Tty
  render : Fin 2 → Render
  fb : Fb
  showCursor : Bool
  daemon : Daemon
  text : Fin 2 → Text

inductive SystemEvent where
  | write (id : Fin 2) (chars : List UInt8)
  | build (id : Fin 2)
  | draw (id : Fin 2)
  | clear (id : Fin 2)
  | start
  | toggle (on : Bool)
  | markCursor
  | markAll (target : Fin 2)
  | switch

def System.setTty (s : System) (id : Fin 2) (tty : Tty) : System :=
  { s with tty := Function.update s.tty id tty }

def System.setRender (s : System) (id : Fin 2) (render : Render) : System :=
  { s with render := Function.update s.render id render }

def System.setText (s : System) (id : Fin 2) (text : Text) : System :=
  { s with text := Function.update s.text id text }

def System.setDaemon (s : System) (daemon : Daemon) : System := { s with daemon }

def System.setFb (s : System) (fb : Fb) : System := { s with fb }

def ttyPuts (tty : Tty) : List UInt8 → Option Tty
  | [] => some tty
  | ch :: rest => (ttyPutc tty ch).bind fun tty => ttyPuts tty rest

def Text.puts (lines width : Nat) (t : Text) (chars : List UInt8) : Text :=
  chars.foldl (Text.putc lines width) t

def clearMarks (tty : Tty) : Tty :=
  { tty with dirty := fun i => if i < tty.size then false else tty.dirty i }

def System.console (s : System) : Fin 2 := if s.fb.current = 0 then 0 else 1

def systemStep (s : System) : SystemEvent → Option System
  | .write id chars =>
    match s.render id with
    | .idle => (ttyPuts (s.tty id) chars).map fun tty => (s.setTty id tty).setText id
        ((s.text id).puts (s.tty id).lines (s.tty id).columns chars)
    | _ => none
  | .build id =>
    match s.render id with
    | .idle => (ttyRender s.showCursor (s.tty id)).map fun (sprites, _) =>
        s.setRender id (.built sprites)
    | _ => none
  | .draw id =>
    match s.render id with
    | .built sprites => some ((s.setRender id .written).setFb (fbWriteSprites s.fb sprites))
    | _ => none
  | .clear id =>
    match s.render id with
    | .written => some ((s.setTty id (clearMarks (s.tty id))).setRender id .idle)
    | _ => none
  | .start =>
    match s.daemon with
    | .starting => (ttyMarkAll (s.tty s.console)).map fun tty =>
        (s.setTty s.console tty).setDaemon .ready
    | _ => none
  | .toggle on =>
    match s.daemon with
    | .ready => some { s with showCursor := on, daemon := .toggled s.showCursor }
    | _ => none
  | .markCursor =>
    match s.daemon with
    | .toggled _ => (ttyMark (s.tty s.console) (s.tty s.console).cursor).map fun tty =>
        (s.setTty s.console tty).setDaemon .ready
    | _ => none
  | .markAll target =>
    match s.daemon with
    | .ready =>
      if target ≠ s.console then
        (ttyMarkAll (s.tty target)).map fun tty =>
          (s.setTty target tty).setDaemon (.marked target)
      else none
    | _ => none
  | .switch =>
    match s.daemon with
    | .marked target => some ((s.setFb (fbWriteInfo s.fb (s.tty target).display)).setDaemon .ready)
    | _ => none

/-- The steps of dev_tty_task that take no lock meet no rendering of the console they are about,
    and no rendering took the marks of a console before the display switches to it. -/
def Undisturbed (s : System) : SystemEvent → Prop
  | .start | .toggle _ | .markCursor => s.render s.console = .idle
  | .switch => ∀ target, s.daemon = .marked target → s.render target = .idle ∧
      ∀ i < (s.tty target).size, (s.tty target).dirty i = true
  | _ => True

/-- The values of show_cursor since the last tty_mark of dev_tty_task. -/
def Cursor (showCursor : Bool) (daemon : Daemon) (on : Bool) : Prop :=
  on = showCursor ∨ daemon = .toggled on

/-- A cell shows its glyph, or the one it had before show_cursor changed. -/
def CellShown (font : Nat → Nat) (s : System) (daemon : Daemon) (tty : Tty) (i : Nat) : Prop :=
  ∃ on, Cursor s.showCursor daemon on ∧
    Pictured font s.fb.width tty.columns s.fb.pixels i (glyph on tty i)

/-- The invariant of the two consoles on a display of `width` times `height` pixels. -/
structure Displayed (font : Nat → Nat) (width height : Nat) (s : System) : Prop where
  sized : s.fb.width = width ∧ s.fb.height = height
  loaded : Loaded font s.fb.textures 256
  fits : ∀ id, Fits s.fb (s.tty id)
  tall : 1 ≤ s.fb.height / 16
  wide : 2 ≤ s.fb.width / 8
  display : ∀ id, (s.tty id).display = id.val
  current : s.fb.current = s.console.val
  texts : ∀ id, Shows (s.fb.height / 16) (s.fb.width / 8) (s.tty id) (s.text id)
  other : ∀ target, s.daemon = .marked target → target ≠ s.console
  owner : ∀ id sprites, s.render id = .built sprites → ∀ sp ∈ sprites, sp.display = id.val
  built : ∀ sprites, s.render s.console = .built sprites →
    sprites = drawn s.showCursor (s.tty s.console) (s.tty s.console).size
  shown : s.daemon ≠ .starting → ∀ i < (s.tty s.console).size,
    (s.tty s.console).dirty i = false ∨ s.render s.console = .written →
      CellShown font s s.daemon (s.tty s.console) i

section Display

variable {tty tty' : Tty} {ch : UInt8}

theorem set_char_display {i : Nat} {c : Character} (ran : setChar tty i c = some tty') :
    tty'.display = tty.display := by
  obtain ⟨_, same⟩ := Option.ite_none_right_eq_some.mp ran
  cases same
  rfl

theorem mark_display {i : Nat} (ran : ttyMark tty i = some tty') : tty'.display = tty.display := by
  obtain ⟨_, same⟩ := Option.ite_none_right_eq_some.mp ran
  cases same
  rfl

theorem loop_display {body : Tty → Nat → Option Tty} {n : Nat}
    (round : ∀ t i t', body t i = some t' → t'.display = t.display)
    (ran : forLoop body n tty = some tty') : tty'.display = tty.display := by
  induction n generalizing tty' with
  | zero =>
    cases ran
    rfl
  | succ n ih =>
    unfold forLoop at ran
    split at ran
    · cases ran
    · rename_i mid first
      exact (round mid n tty' ran).trans (ih first)

theorem mark_line_display {c : Nat} (ran : ttyMarkLine tty c = some tty') :
    tty'.display = tty.display :=
  loop_display (fun _ _ _ => mark_display) ran

theorem mark_all_display (ran : ttyMarkAll tty = some tty') : tty'.display = tty.display :=
  loop_display (fun _ _ _ => mark_display) ran

theorem scrollup_display (ran : ttyUpdScrollup tty = some tty') : tty'.display = tty.display := by
  obtain ⟨_, ran⟩ := Option.ite_none_left_eq_some.mp ran
  exact (loop_display (fun _ _ _ => set_char_display) ran).trans rfl

theorem backsp_display (ran : ttyUpdBacksp tty = some tty') : tty'.display = tty.display := by
  unfold ttyUpdBacksp at ran
  split at ran
  · exact (set_char_display ran).trans rfl
  · cases ran
    rfl

theorem upd_putc_display (ran : ttyUpdPutc tty ch = some tty') : tty'.display = tty.display := by
  unfold ttyUpdPutc at ran
  split at ran
  · cases ran
  · rename_i mid put
    cases ran
    have same := set_char_display put
    exact same

theorem putc_display (ran : ttyPutc tty ch = some tty') : tty'.display = tty.display := by
  unfold ttyPutc at ran
  split at ran
  · exact (mark_line_display ran).trans rfl
  split at ran
  · split at ran
    · cases ran
    · rename_i back
      split at ran
      · cases ran
      · rename_i first
        exact (mark_display ran).trans ((mark_display first).trans (backsp_display back))
  split at ran
  · simp only at ran
    split at ran
    · split at ran
      · cases ran
      · rename_i scrolled
        exact (mark_all_display ran).trans ((scrollup_display scrolled).trans rfl)
    · split at ran
      · cases ran
      · rename_i line
        exact (mark_line_display ran).trans ((mark_line_display line).trans rfl)
  · split at ran
    · cases ran
    · rename_i put
      split at ran
      · split at ran
        · cases ran
        · rename_i scrolled
          exact (mark_all_display ran).trans
            ((scrollup_display scrolled).trans (upd_putc_display put))
      · split at ran
        · cases ran
        · rename_i first
          exact (mark_display ran).trans ((mark_display first).trans (upd_putc_display put))

end Display

section Puts

variable {tty tty' tty'' : Tty} {rows width : Nat} {text : Text} {on : Bool}

theorem drawn_display {n : Nat} : ∀ sp ∈ drawn on tty n, sp.display = tty.display % 16 := by
  intro sp drawn_
  obtain ⟨ch, _, cell⟩ := List.mem_flatMap.mp drawn_
  split at cell
  · simp only [List.mem_cons, List.not_mem_nil, or_false] at cell
    rcases cell with rfl | rfl <;> rfl
  · cases cell

theorem covers_trans (size : tty''.size = tty'.size) (first : Covers on tty tty')
    (second : Covers on tty' tty'') : Covers on tty tty'' := by
  intro i inside clean
  obtain ⟨before, same⟩ := second i inside clean
  obtain ⟨old, same'⟩ := first i (size ▸ inside) before
  exact ⟨old, same.trans same'⟩

theorem puts_spec (shows_ : Shows rows width tty text) (some_line : 1 ≤ rows) (wide : 2 ≤ width)
    (chars : List UInt8) : ∃ tty', ttyPuts tty chars = some tty' ∧
      Shows rows width tty' (text.puts rows width chars) ∧ tty'.display = tty.display ∧
      ∀ on, Covers on tty tty' := by
  induction chars generalizing tty text with
  | nil => exact ⟨tty, rfl, shows_, rfl, fun on i _ clean => ⟨clean, rfl⟩⟩
  | cons ch rest ih =>
    obtain ⟨mid, ran, shown⟩ := putc_shows shows_ some_line wide ch
    have covered : ∀ on, Covers on tty mid := by
      intro on
      obtain ⟨mid', ran', covers⟩ := putc_covers on shows_.sized some_line wide shows_.inside ch
      rw [ran] at ran'
      cases ran'
      exact covers
    obtain ⟨tty', ran', shown', display, covers⟩ := ih shown
    have size : tty'.size = mid.size := shown'.sized.size.trans shown.sized.size.symm
    refine ⟨tty', ?_, shown', display.trans (putc_display ran), fun on =>
      covers_trans size (covered on) (covers on)⟩
    rw [ttyPuts, ran]
    exact ran'

end Puts

section Steps

variable {font : Nat → Nat} {width height : Nat} {s s' : System} {id : Fin 2}

theorem console_eq (current : s.fb.current = id.val) : s.console = id := by
  rw [System.console, current]
  match id with
  | 0 => rfl
  | 1 => rfl

def System.screened (s : System) (id : Fin 2) (tty : Tty) (text : Text) (daemon : Daemon) :
    System :=
  { (s.setTty id tty).setText id text with daemon }

theorem screened_here (s : System) (id : Fin 2) (tty : Tty) (text : Text) (daemon : Daemon) :
    (s.screened id tty text daemon).tty id = tty ∧
      (s.screened id tty text daemon).text id = text :=
  ⟨Function.update_self .., Function.update_self ..⟩

theorem screened_other (s : System) {c : Fin 2} (ne : c ≠ id) (tty : Tty) (text : Text)
    (daemon : Daemon) :
    (s.screened id tty text daemon).tty c = s.tty c ∧
      (s.screened id tty text daemon).text c = s.text c :=
  ⟨Function.update_of_ne ne .., Function.update_of_ne ne ..⟩

theorem Displayed.screened (d : Displayed font width height s) {tty : Tty} {text : Text}
    {daemon : Daemon}
    (shows_ : Shows (s.fb.height / 16) (s.fb.width / 8) tty text)
    (display : tty.display = (s.tty id).display)
    (other : ∀ target, daemon = .marked target → target ≠ s.console)
    (here : id = s.console → s.render s.console = .idle ∧ (daemon ≠ .starting →
      ∀ i < tty.size, tty.dirty i = false → CellShown font s daemon tty i))
    (there : id ≠ s.console → daemon ≠ .starting → s.daemon ≠ .starting ∧
      ∀ on, Cursor s.showCursor s.daemon on → Cursor s.showCursor daemon on) :
    Displayed font width height (s.screened id tty text daemon) := by
  obtain ⟨tty_here, text_here⟩ := screened_here s id tty text daemon
  have elsewhere := fun c (ne : c ≠ id) => screened_other s ne tty text daemon
  refine ⟨d.sized, d.loaded, fun c => ?_, d.tall, d.wide, fun c => ?_, d.current, fun c => ?_,
    other, d.owner, fun sprites building => ?_, fun started i inside clean => ?_⟩
  · by_cases same : c = id
    · rw [same, tty_here]
      exact ⟨shows_.sized, (d.fits id).narrow, (d.fits id).low⟩
    · rw [(elsewhere c same).1]
      exact d.fits c
  · by_cases same : c = id
    · rw [same, tty_here, display]
      exact d.display id
    · rw [(elsewhere c same).1]
      exact d.display c
  · by_cases same : c = id
    · rw [same, tty_here, text_here]
      exact shows_
    · rw [(elsewhere c same).1, (elsewhere c same).2]
      exact d.texts c
  · have ne : s.console ≠ id := by
      intro same
      have idle := (here same.symm).1
      rw [show s.render s.console = .built sprites from building] at idle
      cases idle
    have built := d.built sprites building
    rw [← (elsewhere _ ne).1] at built
    exact built
  · by_cases same : s.console = id
    · obtain ⟨idle, cells⟩ := here same.symm
      have screen : (s.screened id tty text daemon).tty s.console = tty := same ▸ tty_here
      have marks : tty.dirty i = false := by
        rcases clean with clean | written
        · exact screen ▸ clean
        · rw [show s.render s.console = .written from written] at idle
          cases idle
      have cell := cells started i (screen ▸ inside) marks
      rw [← screen] at cell
      exact cell
    · obtain ⟨running, cursors⟩ := there (Ne.symm same) started
      have screen := (elsewhere _ same).1
      obtain ⟨on, cursor, pictured⟩ := d.shown running i (screen ▸ inside) (screen ▸ clean)
      rw [← screen] at pictured
      exact ⟨on, cursors on cursor, pictured⟩

theorem Displayed.write {chars : List UInt8} (d : Displayed font width height s)
    (taken : systemStep s (.write id chars) = some s') : Displayed font width height s' := by
  simp only [systemStep] at taken
  split at taken
  · rename_i idle
    obtain ⟨tty, ran, rfl⟩ := Option.map_eq_some_iff.mp taken
    obtain ⟨tty', ran', shown, display, covers⟩ := puts_spec (d.texts id) d.tall d.wide chars
    rw [ran] at ran'
    cases ran'
    obtain ⟨lines, columns, size, _⟩ := (d.texts id).sized
    rw [lines, columns]
    refine d.screened shown display d.other (fun here => ⟨here ▸ idle, ?_⟩)
      fun _ started => ⟨started, fun _ on => on⟩
    subst here
    intro started i inside clean
    have size' : tty.size = (s.tty s.console).size := shown.sized.size.trans size.symm
    obtain ⟨on, cursor, pictured⟩ := d.shown started i (size' ▸ inside)
      (.inl (covers true i inside clean).1)
    refine ⟨on, cursor, ?_⟩
    rw [(covers on i inside clean).2, shown.sized.columns, ← columns]
    exact pictured
  · cases taken

theorem screened_same (tty : Tty) (daemon : Daemon) :
    (s.setTty id tty).setDaemon daemon = s.screened id tty (s.text id) daemon := by
  simp only [System.screened, System.setText, System.setTty, System.setDaemon,
    Function.update_eq_self]

theorem Displayed.rendered (d : Displayed font width height s) {render : Render}
    {pixels : Nat → Nat}
    (owner : ∀ sprites, render = .built sprites → ∀ sp ∈ sprites, sp.display = id.val)
    (here : id = s.console → (∀ sprites, render = .built sprites →
        sprites = drawn s.showCursor (s.tty id) (s.tty id).size) ∧
      (s.daemon ≠ .starting → ∀ i < (s.tty id).size,
        (s.tty id).dirty i = false ∨ render = .written →
          CellShown font (s.setFb { s.fb with pixels }) s.daemon (s.tty id) i))
    (there : id ≠ s.console → pixels = s.fb.pixels) :
    Displayed font width height ((s.setRender id render).setFb { s.fb with pixels }) := by
  have new : (s.setRender id render).render id = render := Function.update_self ..
  have old := fun c (ne : c ≠ id) =>
    (Function.update_of_ne ne .. : (s.setRender id render).render c = s.render c)
  refine ⟨d.sized, d.loaded, fun c => ⟨(d.fits c).sized, (d.fits c).narrow, (d.fits c).low⟩,
    d.tall, d.wide, d.display, d.current, d.texts, d.other, fun c sprites building => ?_,
    fun sprites building => ?_, fun started i inside clean => ?_⟩
  · by_cases same : c = id
    · subst same
      exact owner sprites (new.symm.trans building)
    · exact d.owner c sprites ((old c same).symm.trans building)
  · by_cases same : s.console = id
    · subst same
      exact (here rfl).1 sprites (new.symm.trans building)
    · exact d.built sprites ((old _ same).symm.trans building)
  · by_cases same : s.console = id
    · subst same
      refine (here rfl).2 started i inside (clean.imp_right fun written => ?_)
      exact new.symm.trans written
    · have kept := there (Ne.symm same)
      subst kept
      refine d.shown started i inside (clean.imp_right fun written => ?_)
      exact (old _ same).symm.trans written

theorem Displayed.build (d : Displayed font width height s)
    (taken : systemStep s (.build id) = some s') : Displayed font width height s' := by
  simp only [systemStep] at taken
  split at taken
  · obtain ⟨⟨sprites, tty⟩, ran, rfl⟩ := Option.map_eq_some_iff.mp taken
    obtain ⟨draws, _⟩ := render_draws s.showCursor (d.texts id).sized
    rw [draws] at ran
    cases ran
    have next : Displayed font width height ((s.setRender id
        (.built (drawn s.showCursor (s.tty id) (s.tty id).size))).setFb { s.fb with }) := by
      refine d.rendered ?_ ?_ fun _ => rfl
      · rintro _ ⟨⟩ sp drawn_
        rw [drawn_display sp drawn_, d.display id]
        exact Nat.mod_eq_of_lt (by omega)
      · rintro rfl
        refine ⟨?_, fun started i inside clean => d.shown started i inside (.inl ?_)⟩
        · rintro _ ⟨⟩
          rfl
        · rcases clean with clean | written
          · exact clean
          · cases written
    exact next
  · cases taken

theorem Displayed.draw (d : Displayed font width height s)
    (taken : systemStep s (.draw id) = some s') : Displayed font width height s' := by
  simp only [systemStep] at taken
  split at taken
  · rename_i sprites building
    cases taken
    by_cases here : id = s.console
    · subst here
      have display : (s.tty s.console).display % 16 = s.fb.current := by
        rw [d.display, d.current]
        exact Nat.mod_eq_of_lt (by omega)
      obtain ⟨pixels, written, cells⟩ := draw_dirty (d.fits s.console) d.loaded display
        (Nat.le_refl (s.tty s.console).size)
      rw [d.built sprites building, written]
      refine d.rendered (fun _ built => (nomatch built)) (fun _ => ⟨fun _ built => (nomatch built),
        fun started i inside _ => ?_⟩) fun other => absurd rfl other
      by_cases dirty : (s.tty s.console).dirty i = true
      · exact ⟨s.showCursor, .inl rfl, (cells i inside).1 ⟨inside, dirty⟩⟩
      · have clean : (s.tty s.console).dirty i = false := by simpa using dirty
        obtain ⟨on, cursor, pictured⟩ := d.shown started i inside (.inl clean)
        exact ⟨on, cursor, (cells i inside).2 (fun drawn_ => dirty drawn_.2) _ pictured⟩
    · have hidden : fbWriteSprites s.fb sprites = s.fb := by
        refine other_display fun sp drawn_ same => here ?_
        rw [d.owner id sprites building sp drawn_, d.current] at same
        exact Fin.ext same
      rw [hidden]
      exact d.rendered (fun _ built => (nomatch built)) (fun same => absurd same here) fun _ => rfl
  · cases taken

theorem dirty_shows {tty : Tty} {rows width : Nat} {text : Text}
    (shows_ : Shows rows width tty text) (dirty : Nat → Bool) :
    Shows rows width { tty with dirty } text :=
  ⟨⟨shows_.sized.lines, shows_.sized.columns, shows_.sized.size, shows_.sized.endPos⟩,
    shows_.enough, shows_.cursor, shows_.inside, shows_.grid, shows_.fresh⟩

theorem Displayed.clear (d : Displayed font width height s)
    (taken : systemStep s (.clear id) = some s') : Displayed font width height s' := by
  simp only [systemStep] at taken
  split at taken
  · rename_i written
    cases taken
    have next : Displayed font width height
        ((s.setRender id .idle).setFb { s.fb with pixels := s.fb.pixels }) := by
      refine d.rendered (fun _ built => (nomatch built)) ?_ fun _ => rfl
      rintro rfl
      refine ⟨fun _ built => (nomatch built), fun started i inside _ => ?_⟩
      exact d.shown started i inside (.inr written)
    have idle : Displayed font width height (s.setRender id .idle) := next
    have new : (s.setTty id (clearMarks (s.tty id))).setRender id .idle =
        (s.setRender id .idle).screened id (clearMarks (s.tty id)) (s.text id) s.daemon := by
      simp only [System.screened, System.setText, System.setTty, System.setRender,
        Function.update_eq_self]
    rw [new]
    refine idle.screened (dirty_shows (d.texts id) _) rfl d.other (fun here => ?_)
      fun _ started => ⟨started, fun _ on => on⟩
    have console : id = s.console := here
    subst console
    refine ⟨Function.update_self .., fun started i inside _ => ?_⟩
    obtain ⟨on, cursor, pictured⟩ := d.shown started i inside (.inr written)
    exact ⟨on, cursor, pictured⟩
  · cases taken

theorem marked_all {tty : Tty} {i : Nat} (inside : i < tty.size) :
    (marked tty 0 tty.size).dirty i = true :=
  if_pos ⟨Nat.zero_le i, by rwa [Nat.zero_add]⟩

theorem Displayed.start (d : Displayed font width height s) (alone : Undisturbed s .start)
    (taken : systemStep s .start = some s') : Displayed font width height s' := by
  simp only [systemStep] at taken
  split at taken
  · rw [mark_all, Option.map_some, Option.some.injEq] at taken
    rw [← taken, screened_same]
    refine d.screened (dirty_shows (d.texts _) _) rfl (fun _ marked => (nomatch marked))
      (fun _ => ⟨alone, fun _ i inside clean => ?_⟩) fun other => absurd rfl other
    have every : i < (s.tty s.console).size := inside
    rw [marked_all every] at clean
    cases clean
  · cases taken

theorem Displayed.toggle {on : Bool} (d : Displayed font width height s)
    (alone : Undisturbed s (.toggle on)) (taken : systemStep s (.toggle on) = some s') :
    Displayed font width height s' := by
  simp only [systemStep] at taken
  split at taken
  · rename_i ready
    cases taken
    refine ⟨d.sized, d.loaded, d.fits, d.tall, d.wide, d.display, d.current, d.texts,
      fun _ marked => (nomatch marked), d.owner, fun sprites building => ?_,
      fun _ i inside clean => ?_⟩
    · have idle : s.render s.console = .idle := alone
      rw [show s.render s.console = .built sprites from building] at idle
      cases idle
    · have started : s.daemon ≠ .starting := by
        rw [ready]
        exact fun starting => (nomatch starting)
      obtain ⟨old, cursor, pictured⟩ := d.shown started i inside clean
      refine ⟨old, .inr ?_, pictured⟩
      rcases cursor with same | toggled
      · rw [same]
      · rw [ready] at toggled
        cases toggled
  · cases taken

theorem Displayed.markAll {target : Fin 2} (d : Displayed font width height s)
    (taken : systemStep s (.markAll target) = some s') : Displayed font width height s' := by
  simp only [systemStep] at taken
  split at taken
  · rename_i ready
    obtain ⟨ne, taken⟩ := Option.ite_none_right_eq_some.mp taken
    rw [mark_all, Option.map_some, Option.some.injEq] at taken
    rw [← taken, screened_same]
    refine d.screened (dirty_shows (d.texts _) _) rfl ?_ (fun here => absurd here ne) fun _ _ => ?_
    · rintro _ ⟨⟩
      exact ne
    · rw [ready]
      refine ⟨fun starting => (nomatch starting), ?_⟩
      rintro on (same | toggled)
      · exact .inl same
      · cases toggled
  · cases taken

theorem Displayed.markCursor (d : Displayed font width height s) (alone : Undisturbed s .markCursor)
    (taken : systemStep s .markCursor = some s') : Displayed font width height s' := by
  simp only [systemStep] at taken
  split at taken
  · rename_i old toggled
    obtain ⟨tty, ran, rfl⟩ := Option.map_eq_some_iff.mp taken
    rw [screened_same]
    have inside := (d.texts s.console).inside
    rw [ttyMark, if_pos inside, Option.some.injEq] at ran
    rw [← ran]
    refine d.screened (dirty_shows (d.texts _) _) rfl (fun _ marked => (nomatch marked))
      (fun _ => ⟨alone, fun _ i small clean => ?_⟩) fun other => absurd rfl other
    have ne : i ≠ (s.tty s.console).cursor := by
      rintro rfl
      have here : true = false := (Function.update_self ..).symm.trans clean
      cases here
    have started : s.daemon ≠ .starting := by
      rw [toggled]
      exact fun starting => (nomatch starting)
    obtain ⟨on, _, pictured⟩ := d.shown started i small
      (.inl ((Function.update_of_ne ne ..).symm.trans clean))
    -- away from the cursor a cell shows the same glyph for both values
    refine ⟨s.showCursor, .inl rfl, ?_⟩
    have glyphs : glyph s.showCursor (s.tty s.console) i = glyph on (s.tty s.console) i := by
      simp only [glyph, ne, false_and, if_false]
    rw [← glyphs] at pictured
    exact pictured
  · cases taken

theorem Displayed.switch (d : Displayed font width height s) (alone : Undisturbed s .switch)
    (taken : systemStep s .switch = some s') : Displayed font width height s' := by
  simp only [systemStep] at taken
  split at taken
  · rename_i target waiting
    cases taken
    obtain ⟨idle, all⟩ := alone target waiting
    have moved : fbWriteInfo s.fb (s.tty target).display = { s.fb with current := target.val } := by
      rw [fbWriteInfo, d.display]
      split
      · rfl
      · rename_i same
        rw [not_not] at same
        rw [← same]
    rw [moved]
    have console : ((s.setFb { s.fb with current := target.val }).setDaemon .ready).console =
        target := console_eq rfl
    refine ⟨d.sized, d.loaded, fun c => ⟨(d.fits c).sized, (d.fits c).narrow, (d.fits c).low⟩,
      d.tall, d.wide, d.display, congrArg Fin.val console.symm, d.texts,
      fun _ marked => (nomatch marked), d.owner, fun sprites building => ?_, fun _ i inside clean => ?_⟩
    · rw [console] at building
      rw [show s.render target = .built sprites from building] at idle
      cases idle
    · rw [console] at inside clean
      rcases clean with clean | written
      · have every := all i inside
        rw [show (s.tty target).dirty i = false from clean] at every
        cases every
      · rw [show s.render target = .written from written] at idle
        cases idle
  · cases taken

theorem step_displayed {e : SystemEvent} (d : Displayed font width height s)
    (alone : Undisturbed s e) (taken : systemStep s e = some s') :
    Displayed font width height s' := by
  cases e with
  | write id chars => exact d.write taken
  | build id => exact d.build taken
  | draw id => exact d.draw taken
  | clear id => exact d.clear taken
  | start => exact d.start alone taken
  | toggle on => exact d.toggle alone taken
  | markCursor => exact d.markCursor alone taken
  | markAll target => exact d.markAll taken
  | switch => exact d.switch alone taken

end Steps

section Runs

variable {font : Nat → Nat} {width height : Nat} {s s' : System}

/-- In tty_init in front of the welcome text, which the first events write: two blank screens, the
    display on the first, the font loaded. -/
def bootSystem (font : Nat → Nat) (width height : Nat) (textures : Nat → Nat → Nat)
    (pixels : Nat → Nat) : System where
  tty := fun id => ttyInit (id + 1) height width
  render := fun _ => .idle
  fb := ⟨width, height, 0, fontLoad textures font, pixels⟩
  showCursor := true
  daemon := .starting
  text := fun _ => blankText (height / 16)

theorem boot_displayed (textures : Nat → Nat → Nat) (pixels : Nat → Nat)
    (narrow : width < 65536) (low : height < 65536) (tall : 1 ≤ height / 16)
    (wide : 2 ≤ width / 8) :
    Displayed font width height (bootSystem font width height textures pixels) := by
  have texts : ∀ id : Fin 2, Shows (height / 16) (width / 8) (ttyInit (id + 1) height width) _ :=
    fun id => (init_faithful true (id + 1) height width tall wide).shows_
  refine ⟨⟨rfl, rfl⟩, ?_, fun id => ⟨(texts id).sized, narrow, low⟩, tall, wide, fun id => rfl,
    rfl, texts, fun _ marked => (nomatch marked), fun _ _ built => (nomatch built),
    fun _ built => (nomatch built), fun started => absurd rfl started⟩
  simp only [bootSystem]
  exact font_load_loaded textures

def charsOf (id : Fin 2) : SystemEvent → List UInt8
  | .write c chars => if c = id then chars else []
  | _ => []

theorem step_text {e : SystemEvent} (d : Displayed font width height s)
    (taken : systemStep s e = some s') (id : Fin 2) :
    s'.text id = (s.text id).puts (height / 16) (width / 8) (charsOf id e) := by
  cases e with
  | write c chars =>
    simp only [systemStep] at taken
    split at taken
    · obtain ⟨tty, _, rfl⟩ := Option.map_eq_some_iff.mp taken
      by_cases same : c = id
      · subst same
        have lines : (s.tty c).lines = height / 16 := d.sized.2 ▸ (d.texts c).sized.lines
        have columns : (s.tty c).columns = width / 8 := d.sized.1 ▸ (d.texts c).sized.columns
        rw [charsOf, if_pos rfl, ← lines, ← columns]
        exact Function.update_self ..
      · rw [charsOf, if_neg same]
        exact Function.update_of_ne (Ne.symm same) ..
    · cases taken
  | build c | start | markCursor =>
    simp only [systemStep] at taken
    split at taken
    · obtain ⟨_, _, rfl⟩ := Option.map_eq_some_iff.mp taken
      rfl
    · cases taken
  | draw c | clear c | toggle on | switch =>
    simp only [systemStep] at taken
    split at taken
    · cases taken
      rfl
    · cases taken
  | markAll target =>
    simp only [systemStep] at taken
    split at taken
    · obtain ⟨_, taken⟩ := Option.ite_none_right_eq_some.mp taken
      obtain ⟨_, _, rfl⟩ := Option.map_eq_some_iff.mp taken
      rfl
    · cases taken

theorem run_displayed {events : List SystemEvent} (d : Displayed font width height s)
    (each : EachStep systemStep Undisturbed s events) (ran : run systemStep s events = some s') :
    Displayed font width height s' ∧ ∀ id, s'.text id =
      (s.text id).puts (height / 16) (width / 8) (events.flatMap (charsOf id)) := by
  induction events generalizing s with
  | nil =>
    cases ran
    exact ⟨d, fun id => rfl⟩
  | cons e rest ih =>
    cases taken : systemStep s e with
    | none => simp [run, taken] at ran
    | some next =>
      simp only [run, taken] at ran
      obtain ⟨alone, later⟩ := each next taken
      obtain ⟨d', texts⟩ := ih (step_displayed d alone taken) later ran
      refine ⟨d', fun id => ?_⟩
      rw [texts id, step_text d taken id, List.flatMap_cons]
      exact (List.foldl_append ..).symm

/-- As long as dev_tty_task is not disturbed, every cell of the displayed console that is not
    marked shows the cursor or the character of the text written to the console. -/
theorem framebuffer_shows_text (textures : Nat → Nat → Nat) (pixels : Nat → Nat)
    (narrow : width < 65536) (low : height < 65536) (tall : 1 ≤ height / 16)
    (wide : 2 ≤ width / 8) {events : List SystemEvent}
    (each : EachStep systemStep Undisturbed (bootSystem font width height textures pixels) events)
    (ran : run systemStep (bootSystem font width height textures pixels) events = some s)
    (started : s.daemon ≠ .starting) {i : Nat} (inside : i < width / 8 * (height / 16))
    (clean : (s.tty s.console).dirty i = false ∨ s.render s.console = .written)
    (steady : ∀ old, s.daemon = .toggled old → i ≠ (s.tty s.console).cursor)
    {x y : Nat} (column : x < 8) (row : y < 16) :
    let text := (blankText (height / 16)).puts (height / 16) (width / 8)
      (events.flatMap (charsOf s.console))
    let first := text.top (height / 16) (width / 8)
    s.fb.pixels (cellPixel width (width / 8) i x y) = fontPixel font
      (if first + i = text.pos ∧ s.showCursor then 0xdb else (text.cell (first + i)).toNat) x y := by
  obtain ⟨d, texts⟩ := run_displayed (boot_displayed textures pixels narrow low tall wide) each ran
  have shows_ := d.texts s.console
  rw [d.sized.1, d.sized.2, texts] at shows_
  have cell : i < (s.tty s.console).size := by
    rw [shows_.sized.size]
    exact inside
  obtain ⟨on, cursor, pictured⟩ := d.shown started i cell clean
  have same : glyph on (s.tty s.console) i = glyph s.showCursor (s.tty s.console) i := by
    rcases cursor with rfl | toggled
    · rfl
    · simp only [glyph, steady on toggled, false_and, if_false]
  have shown := pictured x column y row
  rw [d.sized.1, shows_.sized.columns, same] at shown
  intro text first
  have at_cursor : i = (s.tty s.console).cursor ↔ first + i = text.pos := by
    have place : first + (s.tty s.console).cursor = text.pos := shows_.cursor
    omega
  have glyphs : glyph s.showCursor (s.tty s.console) i = if first + i = text.pos ∧ s.showCursor
      then 0xdb else (text.cell (first + i)).toNat := by
    rw [glyph, shows_.grid i cell, if_congr (and_congr_left' at_cursor) rfl rfl]
    rfl
  rw [shown, glyphs]

def oneLetter : List SystemEvent := [.start, .write 0 [65], .build 0, .draw 0, .clear 0]

def dotFont (i : Nat) : Nat := if i = 16 * 65 then 0x80 else 0

theorem framebuffer_shows_one_letter : ∃ s, run systemStep
    (bootSystem dotFont 16 16 (fun _ _ => 0) (fun _ => 7)) oneLetter = some s ∧
      s.fb.pixels (cellPixel 16 2 0 0 0) = 0xeeeeee := by
  have computed : (run systemStep (bootSystem dotFont 16 16 (fun _ _ => 0) (fun _ => 7))
      oneLetter).map (fun s => (s.console, (s.tty s.console).dirty 0,
        match s.daemon with | .ready => true | _ => false)) = some (0, false, true) := by
    decide +kernel
  obtain ⟨s, ran, facts⟩ := Option.map_eq_some_iff.mp computed
  simp only [Prod.mk.injEq] at facts
  obtain ⟨console, clean, ready⟩ := facts
  have each : EachStep systemStep Undisturbed
      (bootSystem dotFont 16 16 (fun _ _ => 0) (fun _ => 7)) oneLetter :=
    fun _ _ => ⟨rfl, fun _ _ => ⟨trivial, fun _ _ => ⟨trivial, fun _ _ => ⟨trivial,
      fun _ _ => ⟨trivial, trivial⟩⟩⟩⟩⟩
  have shown := framebuffer_shows_text (fun _ _ => 0) (fun _ => 7) (by decide) (by decide)
    (by decide) (by decide) each ran (fun starting => by simp [starting] at ready)
    (by decide : 0 < 16 / 8 * (16 / 16)) (.inl clean)
    (fun old toggled => by simp [toggled] at ready) (by decide : 0 < 8) (by decide : 0 < 16)
  rw [console] at shown
  refine ⟨s, ran, shown.trans ?_⟩
  rw [if_neg fun both => absurd both.1 (by decide)]
  decide

end Runs

end Screen
