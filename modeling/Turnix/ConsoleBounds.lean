import Turnix.Console
import Turnix.Lib.Run

/-!
# The console stays on the screen

For a font that fits the screen, and whatever is written: the cursor leaves room for a whole character below
it, no arithmetic of the console overflows, every pixel of a glyph is drawn and none is cut off, and all
accesses are in the memory of the framebuffer (`console_on_screen`). The height of the screen need not be
a multiple of the font's: after the first scroll the lines end at the lower edge.

Nothing but the address of the framebuffer can stop such a console. If it is not a multiple of four, then the
first store is refused.

What a call does is given as a function on the state (`ConsoleOp.effect`), and shown once of the code
(`ends_run`). The rest is about the function.
-/

namespace Turnix

open Lib PanicM

/-- `TextConsole::new`, with the framebuffer. -/
def Console.new (font : Psf2Font) (fb : Framebuffer) : Console :=
  ⟨font, 0, 0, 0xFFFFFF, 0x001a2a, some fb, []⟩

/-- A call of the console; there is no step after a panic. -/
def consoleStep (s : Console) (op : ConsoleOp) : Option Console := (op.run.result s).map Prod.snd

/-- The bytes of the framebuffer. -/
def Framebuffer.memory (fb : Framebuffer) : Nat := 4 * (fb.pitch * fb.height)

/-- A font that is complete and not larger than the screen, and a framebuffer of less than `2 ^ 30`
pixels. -/
structure FitsScreen (font : Psf2Font) (fb : Framebuffer) : Prop where
  width_pos : 0 < font.header.width
  height_pos : 0 < font.header.height
  width_le : font.header.width ≤ fb.width
  height_le : font.header.height ≤ fb.height
  glyphs : font.glyphs.length = font.header.length * font.header.charSize
  charSize : font.header.height * ((font.header.width + 7) / 8) ≤ font.header.charSize
  charSize_u32 : font.header.charSize < 2 ^ 32
  length_u32 : font.header.length < 2 ^ 32
  pitch : fb.width ≤ fb.pitch
  area : fb.pitch * fb.height < 2 ^ 30

/-- The pixels are aligned words of the address space. -/
structure Framebuffer.Addressable (fb : Framebuffer) : Prop where
  aligned : 4 ∣ fb.addr
  memory_lt : fb.addr + fb.memory < 2 ^ 64

/-- The cursor leaves room for a character. -/
structure CursorInside (font : Psf2Font) (fb : Framebuffer) (s : Console) : Prop where
  font_eq : s.font = font
  framebuffer_eq : s.framebuffer = some fb
  x_le : s.cursorX ≤ fb.width
  y_le : s.cursorY + font.header.height ≤ fb.height

/-- The cursor leaves room for a character, and all accesses so far are in the framebuffer. -/
structure OnScreen (font : Psf2Font) (fb : Framebuffer) (s : Console) : Prop
    extends CursorInside font fb s where
  within : ∀ a ∈ s.accesses, ∀ va, a.Touches va → fb.addr ≤ va ∧ va < fb.addr + fb.memory

/-- The cursor. -/
def Console.cursor (s : Console) : Nat × Nat := (s.cursorX, s.cursorY)

/-- The screen has to be scrolled to write a character at a position. -/
def Scrolls (font : Psf2Font) (fb : Framebuffer) (pos : Nat × Nat) (c : Char) : Prop :=
  c.toNat < font.header.length ∧ pos.1 + font.header.width > fb.width ∧
    pos.2 + 2 * font.header.height > fb.height

/-- Where a character takes the cursor, if the screen need not be scrolled for it. -/
def advance (font : Psf2Font) (fb : Framebuffer) (pos : Nat × Nat) (c : Char) : Nat × Nat :=
  if c.toNat < font.header.length then
    if pos.1 + font.header.width > fb.width then (font.header.width, pos.2 + font.header.height)
    else (pos.1 + font.header.width, pos.2)
  else pos

/-- Where `backspace` takes the cursor. -/
def retreat (font : Psf2Font) (pos : Nat × Nat) : Nat × Nat :=
  if pos.1 ≥ font.header.width then (pos.1 - font.header.width, pos.2) else pos

/-- The stores of a row of `w` pixels from `x`, `y` on. -/
def rowStores (fb : Framebuffer) (x y w : Nat) (value : Nat → Nat) : List FbAccess :=
  (List.range w).map fun col => .store (fb.addr + (y * fb.pitch + (x + col)) * 4) (value col)

/-- The stores of a rectangle of `w` times `h` pixels at `x`, `y`, row by row. -/
def rectStores (fb : Framebuffer) (x y w h : Nat) (value : Nat → Nat → Nat) : List FbAccess :=
  (List.range h).flatMap fun row => rowStores fb x (y + row) w (value row)

/-- The stores of a line of words in one colour. -/
def lineStores (start value count : Nat) : List FbAccess :=
  (List.range count).map fun i => .store (start + 4 * i) value

/-- The accesses of `scroll`: the picture moves up, and the last line is stored. -/
def scrollAccesses (fb : Framebuffer) (fontHeight background : Nat) : List FbAccess :=
  let lineSize := fb.pitch * fontHeight * 4
  let totalSize := fb.pitch * fb.height * 4
  .copy (fb.addr + lineSize) fb.addr (totalSize - lineSize) ::
    lineStores (fb.addr + (totalSize - lineSize)) background (lineSize / 4)

/-- A character with a glyph is drawn as a whole in a rectangle on the screen, after a scroll if there was
no room for it. -/
def DrawsInside (font : Psf2Font) (fb : Framebuffer) (c : Char) (s s' : Console) : Prop :=
  c ≠ '\n' → c.toNat < font.header.length →
    ∃ x y value scrolled, x + font.header.width ≤ fb.width ∧ y + font.header.height ≤ fb.height ∧
      (scrolled = [] ∨ scrolled = scrollAccesses fb font.header.height s.background) ∧
      s'.accesses = s.accesses ++ scrolled ++
        rectStores fb x y font.header.width font.header.height value

/-! ## What the calls do -/

/-- The bytes of a glyph. -/
def Psf2Font.glyph (font : Psf2Font) (c : Char) : List UInt8 :=
  (font.glyphs.drop (c.toNat * font.header.charSize)).take font.header.charSize

/-- The value stored for a pixel of a glyph. -/
def glyphValue (fb : Framebuffer) (s : Console) (glyph : List UInt8) (bytesPerLine row col : Nat) : Nat :=
  fb.encode (if (((glyph[row * bytesPerLine + col / 8]?.getD 0).toNat >>> (7 - col % 8)) &&& 1) = 1 then
    s.foreground else s.background)

/-- The state after some accesses. -/
def drawn (s : Console) (as : List FbAccess) : Console := { s with accesses := s.accesses ++ as }

/-- The state behind `newline_locked`. -/
def newlined (fb : Framebuffer) (s : Console) : Console :=
  if s.cursorY + 2 * s.font.header.height > fb.height then
    { drawn s (scrollAccesses fb s.font.header.height s.background) with
      cursorX := 0
      cursorY := fb.height - s.font.header.height }
  else { s with cursorX := 0, cursorY := s.cursorY + s.font.header.height }

/-- The state in which there is room for a character in the row. -/
def withRoom (fb : Framebuffer) (s : Console) : Console :=
  if s.cursorX + s.font.header.width > fb.width then newlined fb s else s

/-- The state behind a glyph at the cursor. -/
def placed (fb : Framebuffer) (s : Console) (c : Char) : Console :=
  { drawn s (rectStores fb s.cursorX s.cursorY s.font.header.width s.font.header.height
      (glyphValue fb s (s.font.glyph c) ((s.font.header.width + 7) / 8))) with
    cursorX := s.cursorX + s.font.header.width }

/-- The state behind `write_char`. -/
def written (fb : Framebuffer) (s : Console) (c : Char) : Console :=
  if c = '\n' then newlined fb s
  else if c.toNat < s.font.header.length then placed fb (withRoom fb s) c
  else s

/-- The state behind `backspace`. -/
def erased (fb : Framebuffer) (s : Console) : Console :=
  if s.font.header.width ≤ s.cursorX then
    { drawn s (rectStores fb (s.cursorX - s.font.header.width) s.cursorY s.font.header.width
        s.font.header.height fun _ _ => fb.encode s.background) with
      cursorX := s.cursorX - s.font.header.width }
  else s

/-- The state behind a call. -/
def ConsoleOp.effect (fb : Framebuffer) (s : Console) : ConsoleOp → Console
  | .writeChar c => written fb s c
  | .backspace => erased fb s
  | .writeStr str => str.toList.foldl (written fb) s

/-- The framebuffer reaches the end of the address space, or its address is not aligned and a store has been
refused. -/
def Stopped (fb : Framebuffer) (s : Console) : Prop :=
  2 ^ 64 ≤ fb.addr + fb.memory ∨ (¬ 4 ∣ fb.addr ∧ ∃ ptr, .misaligned ptr ∈ s.accesses)

namespace ConsoleBoundsLemmas

open ConsoleLemmas

variable {font : Psf2Font} {fb : Framebuffer} {s s' : Console}

theorem drawn_nil (s : Console) : drawn s [] = s := by
  unfold drawn
  rw [List.append_nil]

theorem drawn_drawn (s : Console) (as bs : List FbAccess) :
    drawn (drawn s as) bs = drawn s (as ++ bs) := by
  unfold drawn
  rw [List.append_assoc]

theorem rowStores_succ (x y w : Nat) (value : Nat → Nat) : rowStores fb x y (w + 1) value =
    rowStores fb x y w value ++ [.store (fb.addr + (y * fb.pitch + (x + w)) * 4) (value w)] := by
  unfold rowStores
  rw [List.range_succ, List.map_append, List.map_singleton]

theorem rectStores_succ (x y w h : Nat) (value : Nat → Nat → Nat) :
    rectStores fb x y w (h + 1) value =
      rectStores fb x y w h value ++ rowStores fb x (y + h) w (value h) := by
  unfold rectStores
  rw [List.range_succ, List.flatMap_append, List.flatMap_singleton]

theorem lineStores_succ (start value count : Nat) : lineStores start value (count + 1) =
    lineStores start value count ++ [.store (start + 4 * count) value] := by
  unfold lineStores
  rw [List.range_succ, List.map_append, List.map_singleton]

/-! ### The cursor -/

theorem advance_no_glyph {pos : Nat × Nat} {c : Char} (hc : font.header.length ≤ c.toNat) :
    advance font fb pos c = pos := if_neg (Nat.not_lt.mpr hc)

theorem advance_wraps {pos : Nat × Nat} {c : Char} (hc : c.toNat < font.header.length)
    (h : pos.1 + font.header.width > fb.width) :
    advance font fb pos c = (font.header.width, pos.2 + font.header.height) := by
  rw [advance, if_pos hc, if_pos h]

theorem advance_in_row {pos : Nat × Nat} {c : Char} (hc : c.toNat < font.header.length)
    (h : ¬ pos.1 + font.header.width > fb.width) :
    advance font fb pos c = (pos.1 + font.header.width, pos.2) := by
  rw [advance, if_pos hc, if_neg h]

theorem retreat_moves {pos : Nat × Nat} (h : font.header.width ≤ pos.1) :
    retreat font pos = (pos.1 - font.header.width, pos.2) := if_pos h

theorem retreat_stays {pos : Nat × Nat} (h : ¬ font.header.width ≤ pos.1) : retreat font pos = pos :=
  if_neg h

/-! ### Sizes -/

/-- The sizes are far below `2 ^ 32`. -/
theorem sizes_lt (h : FitsScreen font fb) :
    fb.pitch < 2 ^ 30 ∧ fb.height < 2 ^ 30 ∧ fb.width < 2 ^ 30 := by
  have hpitch : 0 < fb.pitch := Nat.lt_of_lt_of_le h.width_pos (h.width_le.trans h.pitch)
  have hheight : 0 < fb.height := Nat.lt_of_lt_of_le h.height_pos h.height_le
  have hrow : fb.pitch ≤ fb.pitch * fb.height := Nat.le_mul_of_pos_right _ hheight
  have hcolumn : fb.height ≤ fb.pitch * fb.height := Nat.le_mul_of_pos_left _ hpitch
  have harea := h.area
  have hwidth := h.pitch
  omega

theorem pixel_lt (h : FitsScreen font fb) {x y : Nat} (hx : x < fb.width) (hy : y < fb.height) :
    y * fb.pitch + x < fb.pitch * fb.height := by
  have hrows : (y + 1) * fb.pitch ≤ fb.height * fb.pitch := Nat.mul_le_mul_right _ hy
  have hpitch := h.pitch
  rw [Nat.add_mul, Nat.one_mul, Nat.mul_comm fb.height] at hrows
  omega

theorem glyph_byte_lt (h : FitsScreen font fb) {row col : Nat} (hrow : row < font.header.height)
    (hcol : col < font.header.width) :
    row * ((font.header.width + 7) / 8) + col / 8 < font.header.charSize := by
  have hlines : (row + 1) * ((font.header.width + 7) / 8) ≤
      font.header.height * ((font.header.width + 7) / 8) := Nat.mul_le_mul_right _ hrow
  have hsize := h.charSize
  rw [Nat.add_mul, Nat.one_mul] at hlines
  omega

/-! ### Drawing -/

theorem Stopped.of_wraps {n : Nat} (hn : n ≤ fb.pitch * fb.height * 4) (hover : ¬ fb.addr + n < 2 ^ 64) :
    Stopped fb s := by
  left
  unfold Framebuffer.memory
  omega

theorem Stopped.of_misaligned {n : Nat} (h : ¬ 4 ∣ fb.addr + n * 4) :
    Stopped fb (drawn s [.misaligned (fb.addr + n * 4)]) :=
  .inr ⟨by omega, _, List.mem_append_right _ (List.mem_singleton_self _)⟩

theorem ends_setPixel (h : FitsScreen font fb) {x y color : Nat} (hx : x < fb.width)
    (hy : y < fb.height) {Q : Unit → Console → Prop}
    (hQ : Q () (drawn s [.store (fb.addr + (y * fb.pitch + x) * 4) (fb.encode color)])) :
    Ends (fb.setPixel x y color) s Q (Stopped fb) := by
  have hpixel := pixel_lt h hx hy
  have harea := h.area
  unfold Framebuffer.setPixel
  rw [if_neg (by omega), ends_bind, ends_mulU32]
  refine ⟨fun _ => ?_, fun hover => absurd (by omega) hover⟩
  rw [ends_bind, ends_addU32]
  refine ⟨fun _ => ?_, fun hover => absurd (by omega) hover⟩
  rw [ends_bind, ends_checkedAdd]
  refine ⟨fun _ => ?_, Stopped.of_wraps (by omega)⟩
  rw [ends_writeVolatile]
  exact ⟨fun _ => hQ, Stopped.of_misaligned⟩

/-- The loop of `scroll` over the last line. -/
theorem ends_lineStores {start count value : Nat} (hin : start + count ≤ fb.pitch * fb.height)
    {Q : Unit → Console → Prop} (hQ : Q () (drawn s (lineStores (fb.addr + start * 4) value count))) :
    Ends (forRange (fun i => do
        let ptr ← PanicM.expect (checkedAdd (fb.addr + start * 4) (4 * i))
        writeVolatile ptr value) count 0) s Q (Stopped fb) := by
  refine (@ends_forRange _ _ (fun i s' => s' = drawn s (lineStores (fb.addr + start * 4) value i)) _ _ 0 s
    (drawn_nil s).symm fun i s' _ hi hs' => ?_).mono (fun _ s' hs' => ?_) fun _ h => h
  · subst hs'
    rw [lineStores_succ, ← drawn_drawn, ends_bind, ends_checkedAdd]
    have hptr : fb.addr + start * 4 + 4 * i = fb.addr + (start + i) * 4 := by omega
    rw [hptr]
    refine ⟨fun _ => ?_, Stopped.of_wraps (by omega)⟩
    rw [ends_writeVolatile]
    exact ⟨fun _ => rfl, Stopped.of_misaligned⟩
  · rw [hs', Nat.zero_add]
    exact hQ

theorem ends_scroll (h : FitsScreen font fb) (hfont : s.font = font) {Q : Unit → Console → Prop}
    (hQ : Q () { drawn s (scrollAccesses fb font.header.height s.background) with
      cursorY := fb.height - font.header.height }) :
    Ends (scroll fb) s Q (Stopped fb) := by
  have hle := h.height_le
  have harea := h.area
  have hline : fb.pitch * font.header.height ≤ fb.pitch * fb.height := Nat.mul_le_mul_left _ hle
  have hkept : fb.pitch * fb.height * 4 - fb.pitch * font.header.height * 4 =
      (fb.pitch * fb.height - fb.pitch * font.header.height) * 4 := (Nat.sub_mul ..).symm
  unfold scrollAccesses at hQ
  unfold scroll
  rw [ends_bind, ends_get, hfont, ends_bind, ends_mulU32]
  refine ⟨fun _ => ?_, fun hover => absurd (by omega) hover⟩
  rw [ends_bind, ends_mulU32]
  refine ⟨fun _ => ?_, fun hover => absurd (by omega) hover⟩
  rw [ends_bind, ends_checkedAdd]
  refine ⟨fun _ => ?_, Stopped.of_wraps (by omega)⟩
  rw [ends_bind, ends_ensure, decide_eq_true_iff, decide_eq_false_iff_not]
  refine ⟨fun _ => ?_, fun hover => absurd (by omega) hover⟩
  rw [ends_bind, ends_access, ends_bind, ends_checkedAdd]
  refine ⟨fun _ => ?_, Stopped.of_wraps (by omega)⟩
  dsimp only at hQ
  rw [hkept] at hQ ⊢
  rw [Nat.mul_div_cancel _ (by decide : 0 < 4)] at hQ ⊢
  rw [ends_bind]
  refine ends_lineStores (by omega) ?_
  rw [ends_bind, ends_subU32]
  refine ⟨fun _ => ?_, fun hover => absurd hle hover⟩
  unfold drawn at hQ ⊢
  dsimp only
  rw [List.append_assoc, List.singleton_append]
  exact hQ

theorem ends_newlineLocked (h : FitsScreen font fb) (hs : CursorInside font fb s) {Q : Unit → Console → Prop}
    (hQ : Q () (newlined fb s)) : Ends (newlineLocked fb) s Q (Stopped fb) := by
  obtain ⟨hpitch, hheight, hwidth⟩ := sizes_lt h
  have hle := h.height_le
  obtain ⟨rfl, hfb, -, hy⟩ := hs
  unfold newlined at hQ
  unfold newlineLocked
  rw [ends_bind]
  show Ends _ { s with cursorX := 0 } _ _
  rw [ends_bind, ends_get]
  dsimp only
  rw [ends_bind, ends_mulU32]
  refine ⟨fun _ => ?_, fun hover => absurd (by omega) hover⟩
  rw [ends_bind, ends_addU32]
  refine ⟨fun _ => ?_, fun hover => absurd (by omega) hover⟩
  by_cases hbelow : s.cursorY + 2 * s.font.header.height > fb.height
  · rw [if_pos hbelow] at hQ ⊢
    refine ends_scroll h ?_ ?_
    · rfl
    · exact hQ
  · rw [if_neg hbelow] at hQ ⊢
    rw [ends_bind, ends_addU32]
    exact ⟨fun _ => hQ, fun hover => absurd (by omega) hover⟩

/-! ### Glyphs -/

theorem ends_drawPixel (h : FitsScreen font fb) {glyph : List UInt8}
    (hglyph : glyph.length = font.header.charSize) {row col : Nat} (hrow : row < font.header.height)
    (hcol : col < font.header.width) (hx : s.cursorX + font.header.width ≤ fb.width)
    (hy : s.cursorY + font.header.height ≤ fb.height) {Q : Unit → Console → Prop}
    (hQ : Q () (drawn s [.store
      (fb.addr + ((s.cursorY + row) * fb.pitch + (s.cursorX + col)) * 4)
      (glyphValue fb s glyph ((font.header.width + 7) / 8) row col)])) :
    Ends (drawPixel fb glyph ((font.header.width + 7) / 8) row col) s Q (Stopped fb) := by
  obtain ⟨hpitch, hheight, hwidth⟩ := sizes_lt h
  have hbyte := glyph_byte_lt h hrow hcol
  have hsize := h.charSize_u32
  unfold drawPixel
  rw [ends_bind, ends_get, ends_bind, ends_mulU32]
  refine ⟨fun _ => ?_, fun hover => absurd (by omega) hover⟩
  rw [ends_bind, ends_addU32]
  refine ⟨fun _ => ?_, fun hover => absurd (by omega) hover⟩
  have hget : glyph[row * ((font.header.width + 7) / 8) + col / 8]? =
      some (glyph[row * ((font.header.width + 7) / 8) + col / 8]) := List.getElem?_eq_getElem (by omega)
  unfold glyphValue at hQ
  rw [hget] at hQ
  rw [ends_bind, ends_expect, hget]
  refine ⟨fun byte hsome => ?_, fun hnone => absurd hnone (Option.some_ne_none _)⟩
  cases hsome
  rw [ends_bind, ends_addU32]
  refine ⟨fun _ => ?_, fun hover => absurd (by omega) hover⟩
  rw [ends_bind, ends_addU32]
  refine ⟨fun _ => ?_, fun hover => absurd (by omega) hover⟩
  exact ends_setPixel h (by omega) (by omega) hQ

/-- The two loops of `write_char`: every pixel of the glyph is stored, at its place on the screen. -/
theorem ends_drawGlyph (h : FitsScreen font fb) {glyph : List UInt8}
    (hglyph : glyph.length = font.header.charSize) (hx : s.cursorX + font.header.width ≤ fb.width)
    (hy : s.cursorY + font.header.height ≤ fb.height) :
    Ends (forRange (fun row => forRange (drawPixel fb glyph ((font.header.width + 7) / 8) row)
        font.header.width 0) font.header.height 0) s
      (fun _ s' => s' = drawn s (rectStores fb s.cursorX s.cursorY font.header.width
        font.header.height (glyphValue fb s glyph ((font.header.width + 7) / 8))))
      (Stopped fb) := by
  have hrows := @ends_forRange _
    (fun row => forRange (drawPixel fb glyph ((font.header.width + 7) / 8) row) font.header.width 0)
    (fun row s' => s' = drawn s (rectStores fb s.cursorX s.cursorY font.header.width row
      (glyphValue fb s glyph ((font.header.width + 7) / 8))))
    (Stopped fb) font.header.height 0 s (drawn_nil s).symm
  rw [Nat.zero_add] at hrows
  refine hrows fun row s' _ hrow hs' => ?_
  subst hs'
  rw [rectStores_succ, ← drawn_drawn]
  generalize rectStores fb s.cursorX s.cursorY font.header.width row _ = above
  have hcols := @ends_forRange _ (drawPixel fb glyph ((font.header.width + 7) / 8) row)
    (fun col s' => s' = drawn (drawn s above) (rowStores fb s.cursorX (s.cursorY + row) col
      (glyphValue fb s glyph ((font.header.width + 7) / 8) row)))
    (Stopped fb) font.header.width 0 (drawn s above) (drawn_nil _).symm
  rw [Nat.zero_add] at hcols
  refine hcols fun col s' _ hcol hs' => ?_
  subst hs'
  rw [rowStores_succ, ← drawn_drawn]
  refine ends_drawPixel h hglyph (by omega) (by omega) ?_ ?_ ?_
  · exact hx
  · exact hy
  · rfl

/-- A character of the font has all its bytes in the glyph table. -/
theorem glyph_length (h : FitsScreen font fb) {c : Char} (hc : c.toNat < font.header.length) :
    (font.glyph c).length = font.header.charSize ∧
      c.toNat * font.header.charSize + font.header.charSize ≤ font.glyphs.length := by
  have hstop : (c.toNat + 1) * font.header.charSize ≤ font.header.length * font.header.charSize :=
    Nat.mul_le_mul_right _ hc
  rw [Nat.add_mul, Nat.one_mul, ← h.glyphs] at hstop
  refine ⟨?_, hstop⟩
  unfold Psf2Font.glyph
  rw [List.length_take, List.length_drop]
  omega

theorem ends_getGlyph (h : FitsScreen font fb) {c : Char} (hc : c.toNat < font.header.length)
    {Q : Option (List UInt8) → Console → Prop} {E : Console → Prop} (hQ : Q (some (font.glyph c)) s) :
    Ends (font.getGlyph c) s Q E := by
  obtain ⟨-, hstop⟩ := glyph_length h hc
  have htable : font.header.length * font.header.charSize ≤ 2 ^ 32 * (2 ^ 32 - 1) :=
    Nat.mul_le_mul h.length_u32.le (Nat.le_sub_one_of_lt h.charSize_u32)
  rw [← h.glyphs] at htable
  have hmul : checkedMul c.toNat font.header.charSize = some (c.toNat * font.header.charSize) :=
    if_pos (by omega)
  unfold Psf2Font.getGlyph
  rw [if_neg (by omega), hmul, ends_bind, ends_expect]
  refine ⟨fun start hstart => ?_, fun hnone => absurd hnone (Option.some_ne_none _)⟩
  cases hstart
  rw [ends_bind, ends_checkedAdd]
  refine ⟨fun _ => ?_, fun hover => absurd (by omega) hover⟩
  rw [slice_eq_ok hstop, ends_bind, ends_expect]
  refine ⟨fun glyph hglyph => ?_, fun hnone => absurd hnone (Option.some_ne_none _)⟩
  cases hglyph
  exact hQ

/-- What `write_char` does where there is room for the glyph. -/
theorem ends_placeGlyph (h : FitsScreen font fb) {c : Char} (hc : c.toNat < font.header.length)
    (hs : CursorInside font fb s) (hx : s.cursorX + font.header.width ≤ fb.width) {Q : Unit → Console → Prop}
    (hQ : Q () (placed fb s c)) :
    Ends (do
        forRange (fun row => forRange (drawPixel fb (font.glyph c) ((font.header.width + 7) / 8) row)
          font.header.width 0) font.header.height 0
        let s' ← PanicM.get
        let cursorX ← addU32 s'.cursorX font.header.width
        PanicM.modify fun s => { s with cursorX := cursorX }) s Q (Stopped fb) := by
  obtain ⟨hpitch, hheight, hwidth⟩ := sizes_lt h
  rw [ends_bind]
  refine (ends_drawGlyph h (glyph_length h hc).1 hx hs.y_le).mono (fun _ s' hs' => ?_) fun _ h => h
  subst hs'
  rw [ends_bind, ends_get, ends_bind, ends_addU32]
  refine ⟨fun _ => ?_, fun hover => absurd ?_ hover⟩
  · unfold placed at hQ
    rw [hs.font_eq] at hQ
    exact hQ
  · show s.cursorX + font.header.width < 2 ^ 32
    omega

/-! ### The cursor stays on the screen -/

theorem CursorInside.newlined (h : FitsScreen font fb) (hs : CursorInside font fb s) :
    CursorInside font fb (newlined fb s) ∧ (newlined fb s).cursorX = 0 := by
  have hle := h.height_le
  obtain ⟨rfl, hfb, -, hy⟩ := hs
  unfold Turnix.newlined
  by_cases hbelow : s.cursorY + 2 * s.font.header.height > fb.height
  · rw [if_pos hbelow]
    exact ⟨⟨rfl, hfb, Nat.zero_le _, (Nat.sub_add_cancel hle).le⟩, rfl⟩
  · rw [if_neg hbelow]
    refine ⟨⟨rfl, hfb, Nat.zero_le _, ?_⟩, rfl⟩
    show s.cursorY + s.font.header.height + s.font.header.height ≤ fb.height
    omega

theorem CursorInside.withRoom (h : FitsScreen font fb) (hs : CursorInside font fb s) :
    CursorInside font fb (withRoom fb s) ∧ (withRoom fb s).cursorX + font.header.width ≤ fb.width := by
  have hle := h.width_le
  have hfont := hs.font_eq
  unfold Turnix.withRoom
  by_cases hright : s.cursorX + s.font.header.width > fb.width
  · obtain ⟨hin, hzero⟩ := CursorInside.newlined h hs
    rw [if_pos hright, hzero]
    exact ⟨hin, by omega⟩
  · rw [if_neg hright]
    rw [hfont] at hright
    exact ⟨hs, by omega⟩

theorem CursorInside.placed (hs : CursorInside font fb s) (hx : s.cursorX + font.header.width ≤ fb.width) (c : Char) :
    CursorInside font fb (placed fb s c) := by
  obtain ⟨rfl, hfb, -, hy⟩ := hs
  exact ⟨rfl, hfb, hx, hy⟩

theorem CursorInside.written (h : FitsScreen font fb) (hs : CursorInside font fb s) (c : Char) :
    CursorInside font fb (written fb s c) := by
  unfold Turnix.written
  split
  · exact (CursorInside.newlined h hs).1
  · split
    · obtain ⟨hin, hx⟩ := CursorInside.withRoom h hs
      exact CursorInside.placed hin hx c
    · exact hs

theorem CursorInside.erased (hs : CursorInside font fb s) : CursorInside font fb (erased fb s) := by
  unfold Turnix.erased
  split
  · exact ⟨hs.font_eq, hs.framebuffer_eq, (Nat.sub_le _ _).trans hs.x_le, hs.y_le⟩
  · exact hs

theorem CursorInside.writeStr (h : FitsScreen font fb) : ∀ {cs : List Char} {s : Console},
    CursorInside font fb s → CursorInside font fb (cs.foldl (Turnix.written fb) s)
  | [], _, hs => hs
  | c :: cs, s, hs => by
    rw [List.foldl_cons]
    exact CursorInside.writeStr h (CursorInside.written h hs c)

theorem CursorInside.effect (h : FitsScreen font fb) (hs : CursorInside font fb s) (op : ConsoleOp) :
    CursorInside font fb (op.effect fb s) := by
  cases op with
  | writeChar c => exact CursorInside.written h hs c
  | backspace => exact CursorInside.erased hs
  | writeStr str => exact CursorInside.writeStr h hs

theorem written_cursor (hs : CursorInside font fb s) {c : Char} (hc : c ≠ '\n')
    (hscroll : ¬ Scrolls font fb s.cursor c) : (written fb s c).cursor = advance font fb s.cursor c := by
  obtain ⟨rfl, -, -, -⟩ := hs
  unfold written
  rw [if_neg hc]
  by_cases hlt : c.toNat < s.font.header.length
  · rw [if_pos hlt]
    unfold withRoom
    by_cases hright : s.cursorX + s.font.header.width > fb.width
    · have hroom : ¬ s.cursorY + 2 * s.font.header.height > fb.height := fun hover => hscroll ⟨hlt, hright, hover⟩
      rw [if_pos hright, newlined, if_neg hroom, advance_wraps hlt hright]
      show (0 + s.font.header.width, _) = _
      rw [Nat.zero_add]
      rfl
    · rw [if_neg hright, advance_in_row hlt hright]
      rfl
  · rw [if_neg hlt, advance_no_glyph (Nat.le_of_not_lt hlt)]

theorem erased_cursor (hs : CursorInside font fb s) : (erased fb s).cursor = retreat font s.cursor := by
  obtain ⟨rfl, -, -, -⟩ := hs
  unfold erased
  by_cases hback : s.font.header.width ≤ s.cursorX
  · rw [if_pos hback, retreat_moves hback]
    rfl
  · rw [if_neg hback, retreat_stays hback]

theorem drawsInside_written (h : FitsScreen font fb) (hs : CursorInside font fb s) (c : Char) :
    DrawsInside font fb c s (written fb s c) := by
  intro hc hlt
  obtain ⟨hin, hx⟩ := CursorInside.withRoom h hs
  obtain ⟨rfl, -, -, -⟩ := hs
  have hfont := hin.font_eq
  -- only a scroll comes before the glyph
  have hscrolled : ∃ scrolled, (scrolled = [] ∨
      scrolled = scrollAccesses fb s.font.header.height s.background) ∧
      (withRoom fb s).accesses = s.accesses ++ scrolled := by
    unfold withRoom newlined
    split
    · split
      · exact ⟨_, .inr rfl, rfl⟩
      · exact ⟨[], .inl rfl, (List.append_nil _).symm⟩
    · exact ⟨[], .inl rfl, (List.append_nil _).symm⟩
  obtain ⟨scrolled, hcases, hacc⟩ := hscrolled
  refine ⟨_, _, glyphValue fb (withRoom fb s) (s.font.glyph c) ((s.font.header.width + 7) / 8), scrolled, hx,
    hin.y_le, hcases, ?_⟩
  unfold written
  rw [if_neg hc, if_pos hlt, ← hacc]
  unfold placed
  rw [hfont]
  rfl

/-! ### The calls -/

theorem ends_withFramebuffer {f : Framebuffer → PanicM Console Unit} (hs : s.framebuffer = some fb)
    {Q : Unit → Console → Prop} {E : Console → Prop} (hf : Ends (f fb) s Q E) :
    Ends (withFramebuffer f) s Q E := by
  unfold withFramebuffer
  rw [ends_bind, ends_get, hs]
  exact hf

theorem ends_writeChar (h : FitsScreen font fb) (hs : CursorInside font fb s) {c : Char} {Q : Unit → Console → Prop}
    (hQ : Q () (written fb s c)) : Ends (writeChar c) s Q (Stopped fb) := by
  obtain ⟨hpitch, hheight, hwidth⟩ := sizes_lt h
  obtain ⟨hroom, hx⟩ := CursorInside.withRoom h hs
  have hle := h.width_le
  have hin := hs
  obtain ⟨rfl, hfb, hxs, -⟩ := hs
  unfold written at hQ
  unfold writeChar writeCharWith
  by_cases hc : c = '\n'
  · rw [if_pos hc] at hQ ⊢
    exact ends_withFramebuffer hfb (ends_newlineLocked h hin hQ)
  rw [if_neg hc] at hQ ⊢
  rw [ends_bind, ends_get, ends_bind]
  by_cases hlt : c.toNat < s.font.header.length
  · rw [if_pos hlt] at hQ
    refine ends_getGlyph h hlt ?_
    rw [ends_bind, ends_addU32]
    refine ⟨fun _ => ?_, fun hover => absurd (by omega) hover⟩
    refine ends_withFramebuffer hfb ?_
    rw [ends_bind, ends_addU32]
    refine ⟨fun _ => ?_, fun hover => absurd (by omega) hover⟩
    unfold withRoom at hQ hroom hx
    by_cases hright : s.cursorX + s.font.header.width > fb.width
    · rw [if_pos hright] at hQ hroom hx ⊢
      rw [ends_bind]
      exact ends_newlineLocked h hin (ends_placeGlyph h hlt hroom hx hQ)
    · rw [if_neg hright] at hQ hroom hx ⊢
      exact ends_placeGlyph h hlt hroom hx hQ
  · rw [if_neg hlt] at hQ
    unfold Psf2Font.getGlyph
    rw [if_pos (Nat.le_of_not_lt hlt), ends_pure]
    exact hQ

theorem ends_writeStr (h : FitsScreen font fb) : ∀ {cs : List Char} {s : Console},
    CursorInside font fb s →
      Ends (writeStr cs) s (fun _ s' => s' = cs.foldl (written fb) s) (Stopped fb)
  | [], _, _ => rfl
  | c :: cs, s, hs => by
    unfold writeStr
    rw [ends_bind]
    exact ends_writeChar h hs (ends_writeStr h (CursorInside.written h hs c))

theorem ends_drawRect (h : FitsScreen font fb) {x y color : Nat} {Q : Unit → Console → Prop}
    (hx : x + font.header.width ≤ fb.width) (hy : y + font.header.height ≤ fb.height)
    (hQ : Q () (drawn s (rectStores fb x y font.header.width font.header.height fun _ _ => fb.encode color))) :
    Ends (fb.drawRect x y font.header.width font.header.height color) s Q (Stopped fb) := by
  obtain ⟨hpitch, hheight, hwidth⟩ := sizes_lt h
  unfold Framebuffer.drawRect
  rw [ends_bind, ends_addU32]
  refine ⟨fun _ => ?_, fun hover => absurd (by omega) hover⟩
  rw [Nat.add_sub_cancel_left]
  have hrows := @ends_forRange _
    (fun i => do
      let right ← addU32 x font.header.width
      forRange (fun j => fb.setPixel j i color) (right - x) x)
    (fun i s' => s' = drawn s (rectStores fb x y font.header.width (i - y) fun _ _ => fb.encode color))
    (Stopped fb) font.header.height y s (by rw [Nat.sub_self]; exact (drawn_nil s).symm)
  refine (hrows fun i s' hi hlt hs' => ?_).mono (fun _ s' hs' => ?_) fun _ h => h
  · subst hs'
    rw [Nat.sub_add_comm hi, rectStores_succ, ← drawn_drawn, Nat.add_sub_cancel' hi]
    generalize rectStores fb x y font.header.width (i - y) _ = above
    rw [ends_bind, ends_addU32]
    refine ⟨fun _ => ?_, fun hover => absurd (by omega) hover⟩
    rw [Nat.add_sub_cancel_left]
    have hcols := @ends_forRange _ (fun j => fb.setPixel j i color)
      (fun j s' => s' = drawn (drawn s above) (rowStores fb x i (j - x) fun _ => fb.encode color))
      (Stopped fb) font.header.width x (drawn s above) (by rw [Nat.sub_self]; exact (drawn_nil _).symm)
    refine (hcols fun j s' hj hlt' hs' => ?_).mono (fun _ s' hs' => ?_) fun _ h => h
    · subst hs'
      rw [Nat.sub_add_comm hj, rowStores_succ, ← drawn_drawn, Nat.add_sub_cancel' hj]
      exact ends_setPixel h (by omega) (by omega) rfl
    · rw [hs', Nat.add_sub_cancel_left]
  · rw [hs', Nat.add_sub_cancel_left]
    exact hQ

theorem ends_backspace (h : FitsScreen font fb) (hs : CursorInside font fb s) {Q : Unit → Console → Prop}
    (hQ : Q () (erased fb s)) : Ends backspace s Q (Stopped fb) := by
  obtain ⟨rfl, hfb, hx, hy⟩ := hs
  unfold erased at hQ
  unfold backspace
  rw [ends_bind, ends_get]
  by_cases hback : s.cursorX ≥ s.font.header.width
  · rw [if_pos hback] at hQ ⊢
    rw [ends_bind]
    show Ends _ { s with cursorX := s.cursorX - s.font.header.width } _ _
    have hmoved : { s with cursorX := s.cursorX - s.font.header.width }.framebuffer = some fb := hfb
    refine ends_withFramebuffer hmoved ?_
    rw [ends_bind, ends_get]
    exact ends_drawRect h ((Nat.sub_add_cancel hback).le.trans hx) hy hQ
  · rw [if_neg hback] at hQ ⊢
    exact hQ

/-- A call has its effect, or it is stopped by the address of the framebuffer. -/
theorem ends_run (h : FitsScreen font fb) (hs : CursorInside font fb s) (op : ConsoleOp) :
    Ends op.run s (fun _ s' => s' = op.effect fb s) (Stopped fb) := by
  cases op with
  | writeChar c => exact ends_writeChar h hs rfl
  | backspace => exact ends_backspace h hs rfl
  | writeStr str => exact ends_writeStr h hs

theorem not_stopped (h : fb.Addressable) : ¬ Stopped fb s := by
  rintro (hwraps | ⟨hmisaligned, -⟩)
  · exact absurd h.memory_lt (Nat.not_lt.mpr hwraps)
  · exact hmisaligned h.aligned

theorem consoleStep_eq (h : FitsScreen font fb) (haddr : fb.Addressable) (hs : CursorInside font fb s)
    (op : ConsoleOp) : consoleStep s op = some (op.effect fb s) := by
  have htotal : Ends op.run s (fun _ s' => s' = op.effect fb s) fun _ => False :=
    (ends_run h hs op).mono (fun _ _ hs' => hs') fun _ hstopped => not_stopped haddr hstopped
  obtain ⟨a, s', hrun, rfl⟩ := htotal.total
  rw [consoleStep, hrun]
  rfl

theorem effect_of_consoleStep (h : FitsScreen font fb) (hs : CursorInside font fb s) {op : ConsoleOp}
    (hstep : consoleStep s op = some s') : s' = op.effect fb s := by
  obtain ⟨⟨⟨⟩, m⟩, hrun, hm⟩ := Option.map_eq_some_iff.mp hstep
  cases hm
  exact (ends_run h hs op).returns hrun

theorem stopped_of_consoleStep (h : FitsScreen font fb) (hs : CursorInside font fb s) {op : ConsoleOp}
    (hstep : consoleStep s op = none) : Stopped fb (op.run s).2 := by
  refine (ends_run h hs op).panics ?_
  have hnone := Option.map_eq_none_iff.mp hstep
  unfold result at hnone
  split at hnone
  · cases hnone
  · next hrun =>
    rw [hrun]
    rfl

/-! ### Runs -/

/-- Whether a call returns or panics, what it accesses is in the framebuffer. -/
theorem within_of_run (hpitch : fb.width ≤ fb.pitch) (hs : OnScreen font fb s) (op : ConsoleOp) :
    ∀ a ∈ (op.run s).2.accesses, ∀ va, a.Touches va → fb.addr ≤ va ∧ va < fb.addr + fb.memory := by
  obtain ⟨-, as, has, hissues⟩ := Ends.always (ConsoleOp.along_run op s)
  intro a ha va hva
  rw [has] at ha
  rcases List.mem_append.mp ha with ha | ha
  · exact hs.within a ha va hva
  · have htouched := touched_within hpitch ⟨a, hissues a ha fb hs.framebuffer_eq, hva⟩
    unfold Framebuffer.memory
    omega

theorem consoleStep_onScreen (h : FitsScreen font fb) {op : ConsoleOp} (hs : OnScreen font fb s)
    (hstep : consoleStep s op = some s') : OnScreen font fb s' := by
  have hcursor : CursorInside font fb s' := by
    rw [effect_of_consoleStep h hs.toCursorInside hstep]
    exact CursorInside.effect h hs.toCursorInside op
  obtain ⟨⟨⟨⟩, m⟩, hrun, hm⟩ := Option.map_eq_some_iff.mp hstep
  cases hm
  have hwithin := within_of_run h.pitch hs op
  rw [result_eq_some.mp hrun] at hwithin
  exact ⟨hcursor, hwithin⟩

theorem new_onScreen (h : FitsScreen font fb) : OnScreen font fb (.new font fb) where
  font_eq := rfl
  framebuffer_eq := rfl
  x_le := Nat.zero_le _
  y_le := by
    show 0 + font.header.height ≤ fb.height
    rw [Nat.zero_add]
    exact h.height_le
  within a ha := absurd ha List.not_mem_nil

end ConsoleBoundsLemmas

open ConsoleBoundsLemmas

/-- After any calls the cursor is on the screen with room for a character, and every byte that was accessed, also by a
call that panics, is one of the framebuffer; a character is drawn whole. If the addresses of the framebuffer are below
`2 ^ 64`, then a call panics only because it stores to an address that is not aligned; so no call panics if the address
of the framebuffer is aligned. -/
theorem console_on_screen {font : Psf2Font} {fb : Framebuffer} (h : FitsScreen font fb)
    (ops : List ConsoleOp) :
    (∀ s, run consoleStep (.new font fb) ops = some s → OnScreen font fb s ∧
      (∀ c s', consoleStep s (.writeChar c) = some s' → DrawsInside font fb c s s') ∧
      ∀ op, (∀ a ∈ (op.run s).2.accesses, ∀ va, a.Touches va → fb.addr ≤ va ∧ va < fb.addr + fb.memory) ∧
        (fb.addr + fb.memory < 2 ^ 64 → consoleStep s op = none →
          ¬ 4 ∣ fb.addr ∧ ∃ ptr, .misaligned ptr ∈ (op.run s).2.accesses)) ∧
    (fb.Addressable → ∃ s, run consoleStep (.new font fb) ops = some s) := by
  constructor
  · intro s hrun
    have hs : OnScreen font fb s :=
      run_invariant (fun _ _ _ hs hstep => consoleStep_onScreen h hs hstep) (new_onScreen h) hrun
    refine ⟨hs, fun c s' hstep => ?_, fun op => ⟨within_of_run h.pitch hs op, fun hend hnone => ?_⟩⟩
    · rw [effect_of_consoleStep h hs.toCursorInside hstep]
      exact drawsInside_written h hs.toCursorInside c
    · rcases stopped_of_consoleStep h hs.toCursorInside hnone with hwraps | hmisaligned
      · exact absurd hend (Nat.not_lt.mpr hwraps)
      · exact hmisaligned
  · intro haddr
    exact run_total (fun _ op hs => ⟨_, consoleStep_eq h haddr hs.toCursorInside op⟩)
      (fun _ _ _ hs hstep => consoleStep_onScreen h hs hstep) (new_onScreen h)

/-- A font of two glyphs, and a screen whose height is not a multiple of the font's. -/
def smallFont : Psf2Font := ⟨⟨32, 2, 8, 8, 8⟩, List.replicate 16 0x3c⟩

theorem smallFont_fits : FitsScreen smallFont smallScreen := by constructor <;> decide

theorem smallScreen_addressable : smallScreen.Addressable := by constructor <;> decide

theorem console_on_screen_small : FitsScreen smallFont smallScreen ∧
    ∃ s, run consoleStep (.new smallFont smallScreen) [.writeStr "\x01\n\x01", .backspace] = some s ∧
      OnScreen smallFont smallScreen s := by
  obtain ⟨hinside, htotal⟩ :=
    console_on_screen smallFont_fits [.writeStr "\x01\n\x01", .backspace]
  obtain ⟨s, hs⟩ := htotal smallScreen_addressable
  exact ⟨smallFont_fits, s, hs, (hinside s hs).1⟩

end Turnix
