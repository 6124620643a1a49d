import Turnix.ConsoleBounds
import Turnix.Lib.Sheet
import Turnix.Lib.Words

/-!
# What the screen shows

The console draws glyphs and moves pixels, and keeps no record of the text. Above it stands a sheet of text with as
many columns as characters fit next to each other: a character goes behind the last one, into a new line if that
one is full; backspace takes the last one back and stops at the start of the line. The screen is a window on that
sheet.

`console_shows_text`: after any calls every pixel of the framebuffer, the ones right of the last column and behind
the width of the screen included, is what the sheet has there. It also says what is seen where there is no text:
what the framebuffer showed at first, the background where a character was taken back, and the background *as it
is*, not in the pixel format of the framebuffer, in lines that `scroll` has brought in.
-/

namespace Turnix

open Lib PanicM

/-! ## Pixels -/

/-- The memory after an access. -/
def FbAccess.apply (m : Nat → UInt8) : FbAccess → Nat → UInt8
  | .store ptr value => storeWord m ptr value
  | .copy src dest count => moveBytes m src dest count
  | .misaligned _ => m

/-- The memory after some accesses. -/
def replay (m : Nat → UInt8) (as : List FbAccess) : Nat → UInt8 := as.foldl FbAccess.apply m

/-- The pixel in column `x` of row `y`. -/
def Framebuffer.pixel (fb : Framebuffer) (m : Nat → UInt8) (x y : Nat) : Nat :=
  wordAt m (fb.addr + (y * fb.pitch + x) * 4)

/-- The dot of a glyph in a row and a column. -/
def Psf2Font.dot (font : Psf2Font) (c : Char) (row col : Nat) : Bool :=
  (((font.glyph c)[row * ((font.header.width + 7) / 8) + col / 8]?.getD 0).toNat >>> (7 - col % 8)) &&& 1 = 1

/-! ## The text -/

/-- The text that a screen of that width shows with the font. -/
abbrev ScreenText (font : Psf2Font) (fb : Framebuffer) : Type := Sheet Char (fb.width / font.header.width)

variable {font : Psf2Font} {fb : Framebuffer}

/-- Write a character. One that the font does not have is left out. -/
def writeText (d : ScreenText font fb) (c : Char) : ScreenText font fb :=
  if c = '\n' then d.newline
  else if c.toNat < font.header.length then d.write c
  else d

/-- What a call of the console does to the text. -/
def textStep (d : ScreenText font fb) : ConsoleOp → ScreenText font fb
  | .writeChar c => writeText d c
  | .backspace => d.erase
  | .writeStr s => s.toList.foldl writeText d

/-- The colour of a dot of a cell; `ground` is seen where nothing was drawn. -/
def cellColor (font : Psf2Font) (fb : Framebuffer) (ground row col : Nat) : Option Char × Bool → Nat
  | (some c, _) => fb.encode (if font.dot c row col then 0xFFFFFF else 0x001a2a)
  | (none, true) => fb.encode 0x001a2a
  | (none, false) => ground

/-- What is seen on the sheet outside of the text: what the framebuffer showed at first, and the background below
that. -/
def groundColor (fb : Framebuffer) (mem : Nat → UInt8) (x row : Nat) : Nat :=
  if row < fb.height then fb.pixel mem x row else 0x001a2a

/-- The colour of the sheet in column `x` of a row. -/
def sheetColor (mem : Nat → UInt8) (d : ScreenText font fb) (x row : Nat) : Nat :=
  match lineAt font.header.height fb.height row with
  | some (n, k) =>
    cellColor font fb (groundColor fb mem x row) k (x % font.header.width)
      ((d.line n).cell (x / font.header.width))
  | none => groundColor fb mem x row

/-- The cursor stands behind the text, and the screen shows the sheet. -/
structure Shows (mem : Nat → UInt8) (d : ScreenText font fb) (s : Console) : Prop
    extends CursorInside font fb s where
  foreground : s.foreground = 0xFFFFFF
  background : s.background = 0x001a2a
  cursorX : s.cursorX = d.last.text.length * font.header.width
  cursorY : s.cursorY = lineY font.header.height fb.height d.current
  picture : ∀ x < fb.pitch, ∀ y < fb.height, fb.pixel (replay mem s.accesses) x y =
    sheetColor mem d x (scrolled font.header.height fb.height d.current + y)

namespace PictureLemmas

open ConsoleLemmas ConsoleBoundsLemmas

variable {s : Console} {m mem : Nat → UInt8} {d : ScreenText font fb}

/-! ### Accesses -/

theorem replay_append (m : Nat → UInt8) (as bs : List FbAccess) : replay m (as ++ bs) = replay (replay m as) bs :=
  List.foldl_append ..

/-- Two pixels are the same word only if they are in the same place. -/
theorem index_inj {pitch x y x' y' : Nat} (hx : x < pitch) (hx' : x' < pitch) :
    y * pitch + x = y' * pitch + x' ↔ x = x' ∧ y = y' := by
  constructor
  · intro h
    have hmod := congrArg (· % pitch) h
    have hdiv := congrArg (· / pitch) h
    simp only [Nat.mul_comm _ pitch, Nat.mul_add_mod, Nat.mul_add_div (Nat.zero_lt_of_lt hx),
      Nat.mod_eq_of_lt hx, Nat.mod_eq_of_lt hx', Nat.div_eq_of_lt hx, Nat.div_eq_of_lt hx'] at hmod hdiv
    omega
  · rintro ⟨rfl, rfl⟩
    rfl

theorem pixel_store {x y px py value : Nat} (hvalue : value < 2 ^ 32) (hx : x < fb.pitch) (hpx : px < fb.pitch) :
    fb.pixel (storeWord m (fb.addr + (y * fb.pitch + x) * 4) value) px py =
      if px = x ∧ py = y then value else fb.pixel m px py := by
  unfold Framebuffer.pixel
  rw [wordAt_storeWord hvalue]
  by_cases hsame : px = x ∧ py = y
  · rw [if_pos hsame, if_pos ((index_inj hpx hx).mpr hsame)]
  · rw [if_neg hsame, if_neg fun h => hsame ((index_inj hpx hx).mp h)]

theorem pixel_rowStores {x y w px py : Nat} {value : Nat → Nat} (hvalue : ∀ col, value col < 2 ^ 32)
    (hx : x + w ≤ fb.pitch) (hpx : px < fb.pitch) :
    fb.pixel (replay m (rowStores fb x y w value)) px py =
      if py = y ∧ x ≤ px ∧ px < x + w then value (px - x) else fb.pixel m px py := by
  induction w with
  | zero =>
    rw [if_neg (by omega)]
    rfl
  | succ w ih =>
    rw [rowStores_succ, replay_append]
    show fb.pixel (storeWord _ (fb.addr + (y * fb.pitch + (x + w)) * 4) (value w)) px py = _
    rw [pixel_store (hvalue w) (by omega) hpx, ih (by omega)]
    by_cases hnew : px = x + w ∧ py = y
    · rw [if_pos hnew, if_pos (by omega)]
      congr 1
      omega
    · rw [if_neg hnew]
      by_cases hrow : py = y ∧ x ≤ px ∧ px < x + w
      · rw [if_pos hrow, if_pos (by omega)]
      · rw [if_neg hrow, if_neg (by omega)]

/-- A rectangle is drawn, and nothing else. -/
theorem pixel_rectStores {x y w h px py : Nat} {value : Nat → Nat → Nat}
    (hvalue : ∀ row col, value row col < 2 ^ 32) (hx : x + w ≤ fb.pitch) (hpx : px < fb.pitch) :
    fb.pixel (replay m (rectStores fb x y w h value)) px py =
      if (x ≤ px ∧ px < x + w) ∧ y ≤ py ∧ py < y + h then value (py - y) (px - x) else fb.pixel m px py := by
  induction h with
  | zero =>
    rw [if_neg (by omega)]
    rfl
  | succ h ih =>
    rw [rectStores_succ, replay_append, pixel_rowStores (hvalue h) hx hpx, ih]
    by_cases hrow : py = y + h ∧ x ≤ px ∧ px < x + w
    · rw [if_pos hrow, if_pos (by omega), hrow.1, Nat.add_sub_cancel_left]
    · rw [if_neg hrow]
      by_cases habove : (x ≤ px ∧ px < x + w) ∧ y ≤ py ∧ py < y + h
      · rw [if_pos habove, if_pos (by omega)]
      · rw [if_neg habove, if_neg (by omega)]

theorem word_lineStores {base start count value j : Nat} (hvalue : value < 2 ^ 32) :
    wordAt (replay m (lineStores (base + start * 4) value count)) (base + j * 4) =
      if start ≤ j ∧ j < start + count then value else wordAt m (base + j * 4) := by
  induction count with
  | zero =>
    rw [if_neg (by omega)]
    rfl
  | succ count ih =>
    have hptr : base + start * 4 + 4 * count = base + (start + count) * 4 := by omega
    rw [lineStores_succ, replay_append, hptr]
    show wordAt (storeWord _ (base + (start + count) * 4) value) _ = _
    rw [wordAt_storeWord hvalue, ih]
    by_cases hj : j = start + count
    · rw [if_pos hj, if_pos (by omega)]
    · rw [if_neg hj]
      by_cases hrest : start ≤ j ∧ j < start + count
      · rw [if_pos hrest, if_pos (by omega)]
      · rw [if_neg hrest, if_neg (by omega)]

/-- `scroll` moves the picture up and leaves a line in the background's colour. -/
theorem pixel_scroll (h : FitsScreen font fb) {background px py : Nat}
    (hbackground : background < 2 ^ 32) (hpx : px < fb.pitch) (hpy : py < fb.height) :
    fb.pixel (replay m (scrollAccesses fb font.header.height background)) px py =
      if py + font.header.height < fb.height then fb.pixel m px (py + font.header.height) else background := by
  obtain ⟨kept, hkept⟩ := Nat.exists_eq_add_of_le h.height_le
  have hsize : fb.pitch * fb.height = fb.pitch * font.header.height + fb.pitch * kept := by
    rw [hkept, Nat.mul_add]
  have hsub : fb.pitch * fb.height * 4 - fb.pitch * font.header.height * 4 = fb.pitch * kept * 4 := by omega
  have hlines : scrollAccesses fb font.header.height background =
      .copy (fb.addr + fb.pitch * font.header.height * 4) fb.addr (fb.pitch * kept * 4) ::
        lineStores (fb.addr + fb.pitch * kept * 4) background (fb.pitch * font.header.height) := by
    unfold scrollAccesses
    dsimp only
    rw [hsub, Nat.mul_div_cancel _ (by decide)]
  have hrow : py * fb.pitch + px < (py + 1) * fb.pitch := by
    rw [Nat.add_mul, Nat.one_mul]
    omega
  rw [hlines]
  show wordAt (replay (moveBytes m (fb.addr + fb.pitch * font.header.height * 4) fb.addr (fb.pitch * kept * 4)) _)
    (fb.addr + (py * fb.pitch + px) * 4) = _
  rw [word_lineStores hbackground, wordAt_moveBytes]
  by_cases hmoved : py + font.header.height < fb.height
  · have hle : (py + 1) * fb.pitch ≤ kept * fb.pitch := Nat.mul_le_mul_right _ (by omega)
    rw [Nat.mul_comm kept] at hle
    rw [if_pos hmoved, if_neg (by omega), if_pos (by omega)]
    unfold Framebuffer.pixel
    rw [Nat.add_mul py, Nat.mul_comm font.header.height, Nat.add_right_comm]
  · have hge : kept * fb.pitch ≤ py * fb.pitch := Nat.mul_le_mul_right _ (by omega)
    have hlt : (py + 1) * fb.pitch ≤ fb.height * fb.pitch := Nat.mul_le_mul_right _ hpy
    rw [Nat.mul_comm kept] at hge
    rw [Nat.mul_comm fb.height] at hlt
    rw [if_neg hmoved, if_pos (by omega)]

/-! ### The sheet -/

theorem encode_lt (fb : Framebuffer) (isSet : Bool) :
    fb.encode (if isSet then 0xFFFFFF else 0x001a2a) < 2 ^ 32 := by
  unfold Framebuffer.encode
  cases isSet <;> split <;> decide

/-- Another cell in the last line is another rectangle on the screen. -/
theorem sheetColor_setLast (h : FitsScreen font fb) {l : TextLine Char (fb.width / font.header.width)} {col : Nat}
    {o : Option Char} (hcell : ∀ k, l.cell k = if k = col then (o, true) else d.last.cell k) (x y : Nat) :
    sheetColor mem (d.setLast l) x (scrolled font.header.height fb.height d.current + y) =
      if (col * font.header.width ≤ x ∧ x < col * font.header.width + font.header.width) ∧
          lineY font.header.height fb.height d.current ≤ y ∧
          y < lineY font.header.height fb.height d.current + font.header.height then
        cellColor font fb 0 (y - lineY font.header.height fb.height d.current) (x - col * font.header.width) (o, true)
      else sheetColor mem d x (scrolled font.header.height fb.height d.current + y) := by
  obtain ⟨htop, -⟩ := lineY_spec h.height_pos h.height_le d.current
  have hline : ∀ n k, lineAt font.header.height fb.height
      (scrolled font.header.height fb.height d.current + y) = some (n, k) ↔ k < font.header.height ∧
      scrolled font.header.height fb.height d.current + y = lineTop font.header.height fb.height n + k := fun n k =>
    lineAt_eq_some_iff h.height_pos
  unfold sheetColor
  rcases hat : lineAt font.header.height fb.height
    (scrolled font.header.height fb.height d.current + y) with _ | ⟨n, k⟩
  · rw [if_neg]
    rintro ⟨-, hlow, hhigh⟩
    have hsome := (hline d.current (y - lineY font.header.height fb.height d.current)).mpr ⟨by omega, by omega⟩
    rw [hat] at hsome
    cases hsome
  · obtain ⟨hk, hrow⟩ := (hline n k).mp hat
    dsimp only
    by_cases hn : n = d.current
    · subst hn
      have hlast : (d.setLast l).line d.current = l := d.last_setLast l
      have hy : y - lineY font.header.height fb.height d.current = k := by omega
      have hcol : x / font.header.width = col ↔
          col * font.header.width ≤ x ∧ x < col * font.header.width + font.header.width := by
        rw [Nat.div_eq_iff h.width_pos, Nat.mul_comm col]
        have := h.width_pos
        omega
      rw [hlast, hcell]
      by_cases hin : x / font.header.width = col
      · have hmod : x % font.header.width = x - x / font.header.width * font.header.width :=
          Nat.mod_eq_sub_div_mul
        rw [if_pos hin, if_pos ⟨hcol.mp hin, by omega⟩, hy, hmod, hin]
        cases o <;> rfl
      · rw [if_neg hin, if_neg fun hand => hin (hcol.mpr hand.1)]
        rfl
    · rw [Sheet.line_setLast_of_ne hn, if_neg]
      rintro ⟨-, hlow, hhigh⟩
      have hsome := (hline d.current (y - lineY font.header.height fb.height d.current)).mpr ⟨by omega, by omega⟩
      rw [hat] at hsome
      cases hsome
      exact hn rfl

theorem room_iff (h : FitsScreen font fb) (n : Nat) :
    n * font.header.width + font.header.width ≤ fb.width ↔ n < fb.width / font.header.width := by
  rw [← Nat.succ_le_iff, Nat.le_div_iff_mul_le h.width_pos, Nat.succ_mul]

/-! ### One call -/

theorem Shows.newline (h : FitsScreen font fb) (hs : Shows mem d s) : Shows mem d.newline (newlined fb s) := by
  have hlast := d.last_newline
  obtain ⟨⟨rfl, hfb, hx, hy⟩, hfg, hbg, hcx, hcy, hpic⟩ := hs
  have hpos := h.height_pos
  have hle := h.height_le
  by_cases hn : fb.height / s.font.header.height ≤ d.current + 1
  · obtain ⟨hfull, hmoved, hbelow⟩ := next_line_scrolls hpos hle hn
    have hstate : newlined fb s = { drawn s (scrollAccesses fb s.font.header.height s.background) with
        cursorX := 0
        cursorY := fb.height - s.font.header.height } := if_pos (by omega)
    rw [hstate]
    refine ⟨⟨rfl, hfb, Nat.zero_le _, (Nat.sub_add_cancel hle).le⟩, hfg, hbg, ?_, hbelow.symm, fun x hx y hy => ?_⟩
    · rw [hlast]
      exact (Nat.zero_mul _).symm
    show fb.pixel (replay mem (s.accesses ++ _)) x y = _
    rw [replay_append, pixel_scroll h (by rw [hbg]; decide) hx hy]
    by_cases hup : y + s.font.header.height < fb.height
    · rw [if_pos hup, hpic x hx _ hup]
      show _ = sheetColor mem d x (scrolled s.font.header.height fb.height (d.current + 1) + y)
      rw [hmoved]
      congr 1
      omega
    · obtain ⟨hground, hat⟩ := lineAt_below hpos hle hn hy (by omega)
      rw [if_neg hup, hbg]
      unfold sheetColor
      show _ = match lineAt _ _ (scrolled s.font.header.height fb.height (d.current + 1) + y) with
        | some (n, k) => _
        | none => _
      rw [hat]
      dsimp only
      rw [show d.newline.line (d.current + 1) = .blank from hlast, TextLine.cell_blank]
      exact (if_neg (Nat.not_lt.mpr hground)).symm
  · obtain ⟨hroom, hmoved, hbelow⟩ := next_line_in_window (Nat.lt_of_not_le hn)
    have hstate : newlined fb s = { s with cursorX := 0, cursorY := s.cursorY + s.font.header.height } :=
      if_neg (by omega)
    rw [hstate]
    refine ⟨⟨rfl, hfb, Nat.zero_le _, ?_⟩, hfg, hbg, ?_, ?_, fun x hx y hy => ?_⟩
    · show s.cursorY + s.font.header.height + s.font.header.height ≤ fb.height
      omega
    · rw [hlast]
      exact (Nat.zero_mul _).symm
    · show s.cursorY + s.font.header.height = lineY s.font.header.height fb.height (d.current + 1)
      omega
    · show _ = sheetColor mem d x (scrolled s.font.header.height fb.height (d.current + 1) + y)
      rw [hmoved]
      exact hpic x hx y hy

/-- A character where there is room for it. -/
theorem Shows.push (h : FitsScreen font fb) (hs : Shows mem d s)
    (hroom : d.last.text.length < fb.width / font.header.width) (c : Char) :
    Shows mem (d.push c) (placed fb s c) := by
  obtain ⟨⟨rfl, hfb, hx, hy⟩, hfg, hbg, hcx, hcy, hpic⟩ := hs
  have hright := (room_iff h _).mpr hroom
  have hpitch := h.pitch
  rw [Sheet.last_push hroom]
  refine ⟨⟨rfl, hfb, by rw [← hcx] at hright; exact hright, hy⟩, hfg, hbg, ?_, hcy, fun x hx y hy => ?_⟩
  · rw [Sheet.last_setLast]
    show s.cursorX + s.font.header.width = (d.last.text ++ [c]).length * s.font.header.width
    rw [List.length_append, List.length_singleton, Nat.add_mul, Nat.one_mul, hcx]
  · show fb.pixel (replay mem (s.accesses ++ _)) x y = sheetColor mem (d.setLast (d.last.push c hroom)) x
      (scrolled s.font.header.height fb.height d.current + y)
    have hvalue : ∀ row col, glyphValue fb s (s.font.glyph c) ((s.font.header.width + 7) / 8) row col =
        fb.encode (if s.font.dot c row col then 0xFFFFFF else 0x001a2a) := by
      intro row col
      unfold glyphValue Psf2Font.dot
      rw [hfg, hbg]
      simp only [decide_eq_true_eq]
    rw [replay_append, pixel_rectStores (fun row col => by rw [hvalue]; exact encode_lt fb _) (by omega) hx,
      sheetColor_setLast h (TextLine.cell_push hroom), hpic x hx y hy, hcx, hcy, hvalue]
    rfl

theorem Shows.erase (h : FitsScreen font fb) (hs : Shows mem d s) : Shows mem d.erase (erased fb s) := by
  have hwidth := h.width_pos
  have hfont := hs.font_eq
  unfold erased
  by_cases hempty : d.last.text = []
  · have hcx := hs.cursorX
    rw [hempty, List.length_nil, Nat.zero_mul] at hcx
    rw [if_neg (by rw [hfont]; omega), Sheet.erase_of_empty hempty]
    exact hs
  · obtain ⟨⟨rfl, hfb, hx, hy⟩, hfg, hbg, hcx, hcy, hpic⟩ := hs
    obtain ⟨n, hn⟩ := Nat.exists_eq_succ_of_ne_zero (List.length_pos_of_ne_nil hempty).ne'
    have hcx' : s.cursorX = n * s.font.header.width + s.font.header.width := by rw [hcx, hn, Nat.succ_mul]
    have hback : s.cursorX - s.font.header.width = n * s.font.header.width := by omega
    have hpitch := h.pitch
    rw [if_pos (by omega)]
    refine ⟨⟨rfl, hfb, (Nat.sub_le _ _).trans hx, hy⟩, hfg, hbg, ?_, hcy, fun x hx y hy => ?_⟩
    · show s.cursorX - s.font.header.width = (d.setLast d.last.erase).last.text.length * s.font.header.width
      rw [Sheet.last_setLast, hback]
      show _ = d.last.text.dropLast.length * _
      rw [List.length_dropLast, hn]
      rfl
    · show fb.pixel (replay mem (s.accesses ++ _)) x y = sheetColor mem (d.setLast d.last.erase) x
        (scrolled s.font.header.height fb.height d.current + y)
      rw [replay_append, pixel_rectStores (fun _ _ => by rw [hbg]; exact encode_lt fb false) (by omega) hx,
        sheetColor_setLast h (d.last.cell_erase hempty), hpic x hx y hy, hback, hcy, hbg, hn]
      rfl

theorem Shows.written (h : FitsScreen font fb) (hs : Shows mem d s) (c : Char) :
    Shows mem (writeText d c) (written fb s c) := by
  have hcols : 0 < fb.width / font.header.width := Nat.div_pos h.width_le h.width_pos
  have hfont := hs.font_eq
  unfold writeText Turnix.written withRoom
  rw [hfont]
  by_cases hc : c = '\n'
  · rw [if_pos hc, if_pos hc]
    exact Shows.newline h hs
  rw [if_neg hc, if_neg hc]
  by_cases hlt : c.toNat < font.header.length
  · have hroom := room_iff h d.last.text.length
    rw [← hs.cursorX] at hroom
    rw [if_pos hlt, if_pos hlt]
    unfold Sheet.write
    by_cases hfull : d.last.text.length < fb.width / font.header.width
    · rw [if_pos hfull, if_neg (by omega)]
      exact Shows.push h hs hfull c
    · rw [if_neg hfull, if_pos (by omega)]
      refine Shows.push h (Shows.newline h hs) ?_ c
      rw [Sheet.last_newline]
      exact hcols
  · rw [if_neg hlt, if_neg hlt]
    exact hs

theorem Shows.writeStr (h : FitsScreen font fb) : ∀ {cs : List Char} {d : ScreenText font fb} {s : Console},
    Shows mem d s → Shows mem (cs.foldl writeText d) (cs.foldl (Turnix.written fb) s)
  | [], _, _, hs => hs
  | c :: cs, d, s, hs => by
    rw [List.foldl_cons, List.foldl_cons]
    exact Shows.writeStr h (Shows.written h hs c)

theorem Shows.effect (h : FitsScreen font fb) (hs : Shows mem d s) (op : ConsoleOp) :
    Shows mem (textStep d op) (op.effect fb s) := by
  cases op with
  | writeChar c => exact Shows.written h hs c
  | backspace => exact Shows.erase h hs
  | writeStr str => exact Shows.writeStr h hs

theorem run_shows (h : FitsScreen font fb) (haddr : fb.Addressable) (hs : Shows mem d s) (ops : List ConsoleOp) :
    ∃ s', run consoleStep s ops = some s' ∧ Shows mem (ops.foldl textStep d) s' := by
  refine run_simulates (R := Shows mem) (fun _ _ op hs => ?_) hs
  exact ⟨_, consoleStep_eq h haddr hs.toCursorInside op, Shows.effect h hs op⟩

/-- The blank sheet, before the first call. -/
theorem new_shows (h : FitsScreen font fb) (mem : Nat → UInt8) :
    Shows mem (Sheet.blank : ScreenText font fb) (.new font fb) := by
  have hrows := rows_pos h.height_pos h.height_le
  have htop : scrolled font.header.height fb.height 0 = 0 := by
    unfold scrolled
    rw [Nat.zero_add, Nat.sub_eq_zero_of_le hrows, Nat.zero_mul]
  refine ⟨(new_onScreen h).toCursorInside, rfl, rfl, (Nat.zero_mul _).symm, ?_, fun x hx y hy => ?_⟩
  · show 0 = lineY font.header.height fb.height 0
    unfold lineY lineTop
    rw [htop, if_pos hrows, Nat.zero_mul]
  · show fb.pixel mem x y = sheetColor mem Sheet.blank x (scrolled font.header.height fb.height 0 + y)
    have hground : groundColor fb mem x y = fb.pixel mem x y := if_pos hy
    rw [htop, Nat.zero_add, ← hground]
    unfold sheetColor
    split
    · rfl
    · rfl

end PictureLemmas

open PictureLemmas ConsoleBoundsLemmas

/-- Whatever is asked of a new console with an aligned framebuffer, it does it without a panic, and then the screen
shows the text: the cursor stands behind the last character, and every pixel has the colour of the sheet in that
place. -/
theorem console_shows_text {font : Psf2Font} {fb : Framebuffer} (h : FitsScreen font fb) (haddr : fb.Addressable)
    (mem : Nat → UInt8) (ops : List ConsoleOp) :
    ∃ s, run consoleStep (.new font fb) ops = some s ∧
      Shows mem (ops.foldl textStep (Sheet.blank : ScreenText font fb)) s :=
  run_shows h haddr (new_shows h mem) ops

/-- The screen has room for two lines. -/
theorem console_shows_text_small : FitsScreen smallFont smallScreen ∧ smallScreen.Addressable ∧
    ∃ s, run consoleStep (.new smallFont smallScreen)
        [.writeStr "\x01\n\x01\n", .writeChar '\x01', .backspace] = some s ∧
      Shows (fun _ => 0) ([.writeStr "\x01\n\x01\n", .writeChar '\x01', .backspace].foldl textStep
        (Sheet.blank : ScreenText smallFont smallScreen)) s :=
  ⟨smallFont_fits, smallScreen_addressable,
    console_shows_text smallFont_fits smallScreen_addressable (fun _ => 0) _⟩

end Turnix
