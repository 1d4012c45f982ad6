import JyyOs.Dev.Screen
import JyyOs.Library.Grid

/-!
dev_video.c and gpu_fbdraw of ioe.c: sprites drawn into the frame buffer. A pixel is its 24 bits.
The bytes of term_font are a parameter. fb_write to the textures has no caller and is left out.
-/
namespace Screen

open Grid

def textureW : Nat := 8
def textureH : Nat := 8

structure Fb where
  width : Nat
  height : Nat
  current : Nat
  textures : Nat → Nat → Nat
  pixels : Nat → Nat

def textureFill (tx : Nat → Nat) (top : Bool) (bits : Nat → Nat) (fg bg : Nat) : Nat → Nat :=
  fillRect tx 0 textureW textureW textureH fun y x =>
    let bitmask := if top then bits (y + textureH) else bits y
    if (bitmask >>> (7 - x)) &&& 1 ≠ 0 then fg else bg

def fontLoad (textures : Nat → Nat → Nat) (font : Nat → Nat) : Nat → Nat → Nat :=
  (List.range 256).foldl (fun tx ch =>
    let tx := Function.update tx (ch * 2 + 1)
      (textureFill (tx (ch * 2 + 1)) false (fun i => font (16 * ch + i)) 0xeeeeee 0x000000)
    Function.update tx (ch * 2 + 2)
      (textureFill (tx (ch * 2 + 2)) true (fun i => font (16 * ch + i)) 0xeeeeee 0x000000)) textures

def gpuFbdraw (width height x y : Nat) (pixels : Nat → Nat) (w h : Nat) (fb : Nat → Nat) :
    Nat → Nat :=
  let len := if width ≤ x + w then width - x else w
  (List.range h).foldl (fun fb j =>
    if y + j < height then
      fillRow fb (x + (j + y) * width) len fun i => pixels (j * w + i) % 2 ^ 24
    else fb) fb

def fbWriteInfo (fb : Fb) (current : Nat) : Fb :=
  if fb.current ≠ current then { fb with current } else fb

/-- fb_write behind SPRITE_BRK. -/
def fbWriteSprites (fb : Fb) (sprites : List Sprite) : Fb :=
  sprites.foldl (fun fb sp =>
    if 0 < sp.texture ∧ sp.display = fb.current then
      let texture := fb.textures sp.texture
      { fb with
        pixels := gpuFbdraw fb.width fb.height sp.x sp.y texture textureW textureH fb.pixels }
    else fb) fb

def fontPixel (font : Nat → Nat) (ch x y : Nat) : Nat :=
  if (font (16 * ch + y) >>> (7 - x)) &&& 1 ≠ 0 then 0xeeeeee else 0x000000

def cellPixel (width columns i x y : Nat) : Nat :=
  i % columns * 8 + x + (i / columns * 16 + y) * width

variable {font : Nat → Nat}

section Font

def Loaded (font : Nat → Nat) (textures : Nat → Nat → Nat) (n : Nat) : Prop :=
  ∀ ch < n, ∀ x < 8, ∀ y < 8, textures (ch * 2 + 1) (y * 8 + x) = fontPixel font ch x y ∧
    textures (ch * 2 + 2) (y * 8 + x) = fontPixel font ch x (y + 8)

theorem texture_fill_at (tx : Nat → Nat) (top : Bool) (bits : Nat → Nat) (fg bg : Nat) {x y : Nat}
    (column : x < 8) (row : y < 8) : textureFill tx top bits fg bg (y * 8 + x) =
      if ((if top then bits (y + 8) else bits y) >>> (7 - x)) &&& 1 ≠ 0 then fg else bg := by
  have inside : textureFill tx top bits fg bg (0 + y * 8 + x) = _ :=
    fill_rect_inside _ (Nat.le_refl 8) column row
  rw [Nat.zero_add] at inside
  exact inside

theorem font_load_loaded (textures : Nat → Nat → Nat) :
    Loaded font (fontLoad textures font) 256 := by
  rw [fontLoad]
  generalize 256 = n
  induction n with
  | zero => exact fun ch none => absurd none (Nat.not_lt_zero ch)
  | succ n ih =>
    rw [List.range_succ, List.foldl_append]
    intro ch less x column y row
    simp only [List.foldl_cons, List.foldl_nil]
    by_cases last : ch = n
    · subst last
      constructor
      · rw [Function.update_of_ne (by omega), Function.update_self,
          texture_fill_at _ _ _ _ _ column row]
        rfl
      · rw [Function.update_self, texture_fill_at _ _ _ _ _ column row]
        rfl
    · rw [Function.update_of_ne (by omega), Function.update_of_ne (by omega),
        Function.update_of_ne (by omega), Function.update_of_ne (by omega)]
      exact ih ch (by omega) x column y row

end Font

section Draw

variable {showCursor : Bool} {tty : Tty} {fb : Fb} {i j x y w h width height : Nat}

theorem gpu_fbdraw_rect (pixels px : Nat → Nat) (right : x + w ≤ width) (bottom : y + h ≤ height) :
    gpuFbdraw width height x y pixels w h px =
      fillRect px (x + y * width) width w h fun j i => pixels (j * w + i) % 2 ^ 24 := by
  have len : (if width ≤ x + w then width - x else w) = w := by
    split <;> omega
  simp only [gpuFbdraw, fillRect, len]
  induction h with
  | zero => rfl
  | succ h ih =>
    have row : y + h < height := by omega
    have start : x + (h + y) * width = x + y * width + h * width := by
      rw [Nat.add_mul]
      omega
    rw [List.range_succ, List.foldl_append, List.foldl_append, ih (by omega)]
    simp only [List.foldl_cons, List.foldl_nil, if_pos row, start]

structure Fits (fb : Fb) (tty : Tty) : Prop where
  sized : Sized (fb.height / 16) (fb.width / 8) tty
  narrow : fb.width < 65536
  low : fb.height < 65536

theorem Fits.cell (fits : Fits fb tty) (inside : i < tty.size) :
    i % tty.columns * 8 + 8 ≤ fb.width ∧ i / tty.columns * 16 + 16 ≤ fb.height := by
  obtain ⟨sized, _, _⟩ := fits
  rw [sized.size] at inside
  rw [sized.columns]
  have some_column : 0 < fb.width / 8 := Nat.pos_of_mul_pos_right (Nat.zero_lt_of_lt inside)
  have column := Nat.mod_lt i some_column
  have row := Nat.div_lt_of_lt_mul inside
  omega

theorem Fits.apart (fits : Fits fb tty) (left : i < tty.size) (right : j < tty.size)
    {a b a' b' : Nat} (column : a < 8) (row : b < 16) (column' : a' < 8) (row' : b' < 16)
    (same : cellPixel fb.width tty.columns i a b = cellPixel fb.width tty.columns j a' b') :
    i = j ∧ b = b' := by
  have first := fits.cell left
  have second := fits.cell right
  have split : ∀ x y, x < fb.width → (x + y * fb.width) % fb.width = x ∧
      (x + y * fb.width) / fb.width = y := by
    intro x y less
    rw [Nat.add_mul_mod_self_right, Nat.mod_eq_of_lt less,
      Nat.add_mul_div_right _ _ (Nat.zero_lt_of_lt less), Nat.div_eq_of_lt less, Nat.zero_add]
    exact ⟨rfl, rfl⟩
  simp only [cellPixel] at same
  have x_i := split (i % tty.columns * 8 + a) (i / tty.columns * 16 + b) (by omega)
  have x_j := split (j % tty.columns * 8 + a') (j / tty.columns * 16 + b') (by omega)
  rw [same] at x_i
  have columns : i % tty.columns * 8 + a = j % tty.columns * 8 + a' := x_i.1.symm.trans x_j.1
  have rows : i / tty.columns * 16 + b = j / tty.columns * 16 + b' := x_i.2.symm.trans x_j.2
  have same_column : i % tty.columns = j % tty.columns := by omega
  have same_row : i / tty.columns = j / tty.columns := by omega
  refine ⟨?_, by omega⟩
  rw [← Nat.div_add_mod i tty.columns, ← Nat.div_add_mod j tty.columns, same_column, same_row]

theorem glyph_small (ch : Nat) : glyph showCursor tty ch < 256 := by
  unfold glyph
  split
  · decide
  · exact (tty.buf ch).ch.toNat_lt

theorem font_pixel_small (ch x y : Nat) :
    fontPixel font ch x y % 2 ^ 24 = fontPixel font ch x y := by
  rw [fontPixel]
  split <;> rfl

def cellSprites (showCursor : Bool) (tty : Tty) (ch : Nat) : List Sprite :=
  [upper showCursor tty ch (ch % tty.columns) (ch / tty.columns),
    lower showCursor tty ch (ch % tty.columns) (ch / tty.columns)]

theorem write_sprite {sp : Sprite} (drawn : 0 < sp.texture) (here : sp.display = fb.current)
    (right : sp.x + 8 ≤ fb.width) (bottom : sp.y + 8 ≤ fb.height) :
    fbWriteSprites fb [sp] = { fb with
      pixels := fillRect fb.pixels (sp.x + sp.y * fb.width) fb.width 8 8 fun y x =>
        fb.textures sp.texture (y * 8 + x) % 2 ^ 24 } := by
  simp only [fbWriteSprites, List.foldl_cons, List.foldl_nil, if_pos (And.intro drawn here)]
  rw [textureW, textureH, gpu_fbdraw_rect _ _ right bottom]

theorem fb_write_append (sp sp' : List Sprite) :
    fbWriteSprites fb (sp ++ sp') = fbWriteSprites (fbWriteSprites fb sp) sp' :=
  List.foldl_append ..

structure HalfDrawn (fb fb' : Fb) (tty : Tty) (i b tx : Nat) : Prop where
  rest : fb' = { fb with pixels := fb'.pixels }
  inside : ∀ x < 8, ∀ y < 8, fb'.pixels (cellPixel fb.width tty.columns i x (b + y)) =
    fb.textures tx (y * 8 + x) % 2 ^ 24
  outside : ∀ k, (∀ x < 8, ∀ y < 8, k ≠ cellPixel fb.width tty.columns i x (b + y)) →
    fb'.pixels k = fb.pixels k

theorem half_drawn {sp : Sprite} {b : Nat} (fits : Fits fb tty) (inside : i < tty.size)
    (drawn : 0 < sp.texture) (here : sp.display = fb.current) (b_small : b + 8 ≤ 16)
    (x : sp.x = i % tty.columns * 8) (y : sp.y = i / tty.columns * 16 + b) :
    HalfDrawn fb (fbWriteSprites fb [sp]) tty i b sp.texture := by
  obtain ⟨right, bottom⟩ := fits.cell inside
  rw [write_sprite drawn here (by omega) (by omega)]
  have place : ∀ a c, cellPixel fb.width tty.columns i a (b + c) =
      sp.x + sp.y * fb.width + c * fb.width + a := by
    intro a c
    rw [cellPixel, x, y, ← Nat.add_assoc, Nat.add_mul _ c]
    omega
  refine ⟨rfl, fun a column c row => ?_, fun k outside => ?_⟩
  · rw [place]
    exact fill_rect_inside _ (by omega) column row
  · refine fill_rect_outside _ fun c row a column => ?_
    rw [← place]
    exact outside a column c row

def Pictured (font : Nat → Nat) (width columns : Nat) (pixels : Nat → Nat) (i g : Nat) : Prop :=
  ∀ x < 8, ∀ y < 16, pixels (cellPixel width columns i x y) = fontPixel font g x y

theorem draw_cell (showCursor : Bool) (fits : Fits fb tty) (loaded : Loaded font fb.textures 256)
    (here : tty.display % 16 = fb.current) (inside : i < tty.size) :
    ∃ pixels, fbWriteSprites fb (cellSprites showCursor tty i) = { fb with pixels } ∧
      Pictured font fb.width tty.columns pixels i (glyph showCursor tty i) ∧
      ∀ j < tty.size, j ≠ i → ∀ g, Pictured font fb.width tty.columns fb.pixels j g →
        Pictured font fb.width tty.columns pixels j g := by
  obtain ⟨right, bottom⟩ := fits.cell inside
  have narrow := fits.narrow
  have low := fits.low
  have both : cellSprites showCursor tty i = [upper showCursor tty i (i % tty.columns) _] ++
      [lower showCursor tty i (i % tty.columns) (i / tty.columns)] := rfl
  have first : HalfDrawn fb (fbWriteSprites fb [upper showCursor tty i _ _]) tty i 0 _ :=
    half_drawn fits inside (Nat.succ_pos _) here (by decide) (Nat.mod_eq_of_lt (by omega))
      (Nat.mod_eq_of_lt (by omega))
  rw [both, fb_write_append]
  generalize fbWriteSprites fb [upper showCursor tty i _ _] = mid at first
  obtain ⟨px, rfl⟩ : ∃ px, mid = { fb with pixels := px } := ⟨_, first.rest⟩
  have second : HalfDrawn { fb with pixels := px } (fbWriteSprites { fb with pixels := px }
      [lower showCursor tty i (i % tty.columns) (i / tty.columns)]) tty i 8 _ :=
    half_drawn ⟨fits.sized, narrow, low⟩ inside (Nat.succ_pos _) here (by decide)
      (Nat.mod_eq_of_lt (by omega)) (Nat.mod_eq_of_lt (by omega))
  generalize fbWriteSprites { fb with pixels := px } _ = last at second
  obtain ⟨px', rfl⟩ : ∃ px', last = { fb with pixels := px' } := ⟨_, second.rest⟩
  have texture := loaded (glyph showCursor tty i) (glyph_small i)
  refine ⟨px', rfl, fun x column y row => ?_, fun j other ne g before x column y row => ?_⟩
  · by_cases top : y < 8
    · have kept := second.outside (cellPixel fb.width tty.columns i x y)
        fun x' column' y' row' same => by
        have rows := (fits.apart inside inside column row column' (by omega) same).2
        omega
      have drawn := first.inside x column y top
      rw [Nat.zero_add] at drawn
      have half := (texture x column y top).1
      exact kept.trans (drawn.trans ((congrArg (· % 2 ^ 24) half).trans (font_pixel_small _ _ _)))
    · have bottom_row : 8 + (y - 8) = y := by omega
      have drawn := second.inside x column (y - 8) (by omega)
      rw [bottom_row] at drawn
      have half := (texture x column (y - 8) (by omega)).2
      rw [Nat.sub_add_cancel (by omega)] at half
      exact drawn.trans ((congrArg (· % 2 ^ 24) half).trans (font_pixel_small _ _ _))
  · have far : ∀ b ≤ 8, ∀ x' < 8, ∀ y' < 8, cellPixel fb.width tty.columns j x y ≠
        cellPixel fb.width tty.columns i x' (b + y') := fun b small x' column' y' row' same =>
      ne (fits.apart other inside column row column' (by omega) same).1
    have kept := second.outside _ (far 8 (by omega))
    exact kept.trans ((first.outside _ (far 0 (by omega))).trans (before x column y row))

theorem other_display {sprites : List Sprite} (other : ∀ sp ∈ sprites, sp.display ≠ fb.current) :
    fbWriteSprites fb sprites = fb := by
  induction sprites with
  | nil => rfl
  | cons sp rest ih =>
    have hidden : ¬(0 < sp.texture ∧ sp.display = fb.current) :=
      fun shown => other sp List.mem_cons_self shown.2
    rw [fbWriteSprites, List.foldl_cons, if_neg hidden]
    exact ih fun sp' later => other sp' (List.mem_cons_of_mem _ later)

/-- The sprites of the dirty cells are drawn: these cells show their glyphs, and the others what
    they showed. -/
theorem draw_dirty (fits : Fits fb tty) (loaded : Loaded font fb.textures 256)
    (here : tty.display % 16 = fb.current) {n : Nat} (some_cells : n ≤ tty.size) :
    ∃ pixels, fbWriteSprites fb (drawn showCursor tty n) = { fb with pixels } ∧
      ∀ j < tty.size, (j < n ∧ tty.dirty j = true →
          Pictured font fb.width tty.columns pixels j (glyph showCursor tty j)) ∧
        (¬(j < n ∧ tty.dirty j = true) → ∀ g,
          Pictured font fb.width tty.columns fb.pixels j g →
            Pictured font fb.width tty.columns pixels j g) := by
  induction n with
  | zero =>
    exact ⟨fb.pixels, rfl, fun j inside =>
      ⟨fun none => absurd none.1 (Nat.not_lt_zero j), fun _ _ before => before⟩⟩
  | succ n ih =>
    obtain ⟨pixels, written, before⟩ := ih (by omega)
    rw [drawn_succ, fb_write_append, written]
    by_cases dirty : tty.dirty n
    · rw [if_pos dirty]
      have mid : Fits { fb with pixels } tty := ⟨fits.sized, fits.narrow, fits.low⟩
      obtain ⟨pixels', drawn, pictured, kept⟩ := draw_cell showCursor mid loaded here
        (by omega : n < tty.size)
      refine ⟨pixels', drawn, fun j inside => ⟨?_, ?_⟩⟩
      · rintro ⟨less, marked⟩
        by_cases last : j = n
        · rw [last]
          exact pictured
        · exact kept j inside last _ ((before j inside).1 ⟨by omega, marked⟩)
      · intro clean g shown
        have ne : j ≠ n := by
          rintro rfl
          exact clean ⟨by omega, dirty⟩
        refine kept j inside ne g ((before j inside).2 ?_ g shown)
        exact fun early => clean ⟨by omega, early.2⟩
    · rw [if_neg dirty]
      refine ⟨pixels, rfl, fun j inside => ⟨?_, ?_⟩⟩
      · rintro ⟨less, marked⟩
        have ne : j ≠ n := by
          rintro rfl
          exact dirty marked
        exact (before j inside).1 ⟨by omega, marked⟩
      · exact fun clean g shown =>
          (before j inside).2 (fun early => clean ⟨by omega, early.2⟩) g shown

end Draw

end Screen
