import Turnix.Console
import Turnix.Elf

/-!
# The font file

`Psf2Font::new` of `drivers/video/psf.rs`, on the bytes of a file that anyone may have put on the ramdisk.

* `font_safe_iff`: the product of two header fields is computed in 32 bits before it is compared with the size
  of the file. A file whose product does not fit stops the kernel; with every other one the font that is
  accepted has all its glyphs.
* `glyph_reads_iff`: nothing compares the size of a glyph with its height and width, by which the loops of
  `write_char` index it.
-/

namespace Turnix

open Lib PanicM

/-- The magic number of a PSF2 file. -/
def psf2Magic : List UInt8 := [0x72, 0xb5, 0x4a, 0x86]

/-- The `Psf2Header` at the start of a file. -/
def Psf2Header.read (data : List UInt8) : Psf2Header where
  headerSize := leAt data 8 4
  length := leAt data 16 4
  charSize := leAt data 20 4
  height := leAt data 24 4
  width := leAt data 28 4

/-- `Psf2Font::new`. The header is read in place, from bytes that the heap has aligned. -/
def Psf2Font.new (data : List UInt8) : Except Panic (Option Psf2Font) :=
  if data.length < 32 then .ok none
  else
    let header := Psf2Header.read data
    if data.take 4 ≠ psf2Magic then .ok none
    else do
      let glyphsStart := header.headerSize
      let glyphsEnd ← add64 glyphsStart (← mul32 header.length header.charSize)
      if data.length < glyphsEnd then return none
      else return some ⟨header, ← slice data glyphsStart glyphsEnd⟩

/-- What indexing a font needs: the file is accepted or refused without a panic, and if it is accepted then
`get_glyph` gives for every character of the font its bytes in the file, and for the others nothing. -/
def SafeToIndex (data : List UInt8) : Prop :=
  ∃ r, Psf2Font.new data = .ok r ∧ ∀ font, r = some font → ∀ (c : Char) (σ : Type) (s : σ),
    (font.header.length ≤ c.toNat → font.getGlyph c s = (some none, s)) ∧
    (c.toNat < font.header.length → ∃ glyph, font.getGlyph c s = (some (some glyph), s) ∧
      glyph.length = font.header.charSize ∧
      glyph = (data.drop (font.header.headerSize + c.toNat * font.header.charSize)).take
        font.header.charSize)

namespace FontLemmas

variable {data : List UInt8} {font : Psf2Font}

theorem leAt_lt (data : List UInt8) (offset n : Nat) : leAt data offset n < 256 ^ n := by
  have hlt := fromLeBytes_lt ((data.drop offset).take n)
  have hle : ((data.drop offset).take n).length ≤ n := List.length_take_le n _
  exact Nat.lt_of_lt_of_le hlt (Nat.pow_le_pow_right (by decide) hle)

/-- A file that gets as far as the product of its fields. -/
def Recognized (data : List UInt8) : Prop := 32 ≤ data.length ∧ data.take 4 = psf2Magic

instance (data : List UInt8) : Decidable (Recognized data) := inferInstanceAs (Decidable (_ ∧ _))

theorem new_of_not_recognized (h : ¬ Recognized data) : Psf2Font.new data = .ok none := by
  unfold Psf2Font.new
  by_cases hlen : data.length < 32
  · rw [if_pos hlen]
  · rw [if_neg hlen]
    exact if_pos fun hmagic => h ⟨Nat.le_of_not_lt hlen, hmagic⟩

theorem new_overflow (h : Recognized data)
    (hover : ¬ (Psf2Header.read data).length * (Psf2Header.read data).charSize < 2 ^ 32) :
    Psf2Font.new data = .error ⟨"attempt to multiply with overflow"⟩ := by
  unfold Psf2Font.new
  rw [if_neg (Nat.not_lt.mpr h.1), if_neg (not_not_intro h.2), mul32, if_neg hover]
  rfl

/-- The font of an accepted file. -/
def fontOf (data : List UInt8) : Psf2Font :=
  let header := Psf2Header.read data
  ⟨header, (data.drop header.headerSize).take (header.length * header.charSize)⟩

/-- A product that fits decides by the size of the file alone. -/
theorem new_of_recognized (h : Recognized data)
    (hfits : (Psf2Header.read data).length * (Psf2Header.read data).charSize < 2 ^ 32) :
    Psf2Font.new data = .ok (if data.length < (Psf2Header.read data).headerSize +
      (Psf2Header.read data).length * (Psf2Header.read data).charSize then none
        else some (fontOf data)) := by
  have hstart : (Psf2Header.read data).headerSize < 2 ^ 32 := leAt_lt data 8 4
  have hsum : add64 (Psf2Header.read data).headerSize
      ((Psf2Header.read data).length * (Psf2Header.read data).charSize) = .ok
        ((Psf2Header.read data).headerSize +
          (Psf2Header.read data).length * (Psf2Header.read data).charSize) :=
    add64_eq_ok.mpr ⟨by omega, rfl⟩
  unfold Psf2Font.new
  rw [if_neg (Nat.not_lt.mpr h.1), if_neg (not_not_intro h.2), mul32, if_pos hfits]
  simp only [bind, Except.bind, hsum]
  split
  · rfl
  · next hlen =>
    rw [slice_eq_ok (Nat.le_of_not_lt hlen)]
    rfl

/-- What is known of an accepted font. -/
theorem accepted (h : Psf2Font.new data = .ok (some font)) :
    font = fontOf data ∧ (Psf2Header.read data).headerSize +
      (Psf2Header.read data).length * (Psf2Header.read data).charSize ≤ data.length := by
  by_cases hrec : Recognized data
  · by_cases hfits : (Psf2Header.read data).length * (Psf2Header.read data).charSize < 2 ^ 32
    · rw [new_of_recognized hrec hfits] at h
      split at h
      · cases h
      · next hlen =>
        cases h
        exact ⟨rfl, Nat.le_of_not_lt hlen⟩
    · rw [new_overflow hrec hfits] at h
      cases h
  · rw [new_of_not_recognized hrec] at h
    cases h

theorem getGlyph_none {σ : Type} {c : Char} (hc : font.header.length ≤ c.toNat) (s : σ) :
    font.getGlyph c s = (some none, s) := by
  unfold Psf2Font.getGlyph
  rw [if_pos hc]
  rfl

/-- The glyph of a character is a part of the glyph table, and that is a part of the file. -/
theorem getGlyph_fontOf {σ : Type} {c : Char} (hc : c.toNat < (Psf2Header.read data).length)
    (hlen : (Psf2Header.read data).headerSize +
      (Psf2Header.read data).length * (Psf2Header.read data).charSize ≤ data.length) (s : σ) :
    ∃ glyph, (fontOf data).getGlyph c s = (some (some glyph), s) ∧
      glyph.length = (Psf2Header.read data).charSize ∧
      glyph = (data.drop ((Psf2Header.read data).headerSize + c.toNat *
        (Psf2Header.read data).charSize)).take (Psf2Header.read data).charSize := by
  have hsize : (Psf2Header.read data).charSize < 2 ^ 32 := leAt_lt data 20 4
  have hlength : (Psf2Header.read data).length < 2 ^ 32 := leAt_lt data 16 4
  generalize hheader : Psf2Header.read data = header at *
  obtain ⟨headerSize, length, charSize, height, width⟩ := header
  dsimp only at *
  have hstop : (c.toNat + 1) * charSize ≤ length * charSize := Nat.mul_le_mul_right _ hc
  have htable : length * charSize ≤ 2 ^ 32 * (2 ^ 32 - 1) := Nat.mul_le_mul hlength.le (by omega)
  rw [Nat.add_mul, Nat.one_mul] at hstop
  have hglyphs : (fontOf data).glyphs = (data.drop headerSize).take (length * charSize) := by
    rw [fontOf, hheader]
  have hglyph : ((fontOf data).glyphs.drop (c.toNat * charSize)).take charSize =
      (data.drop (headerSize + c.toNat * charSize)).take charSize := by
    rw [hglyphs, List.drop_take, List.drop_drop, List.take_take, Nat.min_eq_left (by omega)]
  have hslice : slice (fontOf data).glyphs (c.toNat * charSize) (c.toNat * charSize + charSize) =
      .ok ((data.drop (headerSize + c.toNat * charSize)).take charSize) := by
    rw [slice_eq_ok, hglyph]
    rw [hglyphs, List.length_take, List.length_drop]
    omega
  have hmul : checkedMul c.toNat charSize = some (c.toNat * charSize) := if_pos (by omega)
  have hadd : checkedAdd (c.toNat * charSize) charSize = some (c.toNat * charSize + charSize) :=
    if_pos (by omega)
  have hlookup : (fontOf data).header = ⟨headerSize, length, charSize, height, width⟩ := hheader
  refine ⟨_, ?_, ?_, rfl⟩
  · unfold Psf2Font.getGlyph
    rw [hlookup]
    dsimp only
    rw [if_neg (Nat.not_le.mpr hc), hmul]
    show (PanicM.expect (checkedAdd (c.toNat * charSize) charSize) >>= fun stop =>
      PanicM.expect (slice (fontOf data).glyphs (c.toNat * charSize) stop).toOption >>= fun glyph =>
        pure (some glyph)) s = _
    rw [hadd]
    show (PanicM.expect (slice (fontOf data).glyphs (c.toNat * charSize)
      (c.toNat * charSize + charSize)).toOption >>= fun glyph => pure (some glyph)) s = _
    rw [hslice]
    rfl
  · rw [List.length_take, List.length_drop]
    omega

end FontLemmas

open FontLemmas

/-- A font file is safe to index exactly if it is too short or not marked as a font, or the size of its glyph
table is below `2 ^ 32`. -/
theorem font_safe_iff (data : List UInt8) : SafeToIndex data ↔
    data.length < 32 ∨ data.take 4 ≠ psf2Magic ∨
      leAt data 16 4 * leAt data 20 4 < 2 ^ 32 := by
  by_cases hrec : Recognized data
  · have hcond : (data.length < 32 ∨ data.take 4 ≠ psf2Magic ∨ leAt data 16 4 * leAt data 20 4 < 2 ^ 32) ↔
        (Psf2Header.read data).length * (Psf2Header.read data).charSize < 2 ^ 32 := by
      constructor
      · rintro (hlen | hmagic | hfits)
        · exact absurd hrec.1 (Nat.not_le.mpr hlen)
        · exact absurd hrec.2 hmagic
        · exact hfits
      · exact fun hfits => .inr (.inr hfits)
    rw [hcond]
    constructor
    · rintro ⟨r, hr, -⟩
      by_contra hover
      rw [new_overflow hrec hover] at hr
      cases hr
    · intro hfits
      refine ⟨_, new_of_recognized hrec hfits, fun font hfont c σ s => ?_⟩
      split at hfont
      · cases hfont
      · next hlen =>
        cases hfont
        exact ⟨fun hc => getGlyph_none hc s, fun hc => getGlyph_fontOf hc (Nat.le_of_not_lt hlen) s⟩
  · have hcond : data.length < 32 ∨ data.take 4 ≠ psf2Magic ∨
        leAt data 16 4 * leAt data 20 4 < 2 ^ 32 := by
      by_cases hlen : data.length < 32
      · exact .inl hlen
      · exact .inr (.inl fun hmagic => hrec ⟨Nat.le_of_not_lt hlen, hmagic⟩)
    refine ⟨fun _ => hcond, fun _ => ⟨none, new_of_not_recognized hrec, fun font hfont => ?_⟩⟩
    cases hfont

/-- The header of a file, with its version and its flags zero. -/
def fontHeader (headerSize length charSize height width : Nat) : List UInt8 :=
  psf2Magic ++ [0, headerSize, 0, length, charSize, height, width].flatMap (Lib.toLeBytes 4)

/-- A file of 32 bytes that announces `2 ^ 16` glyphs of `2 ^ 16` bytes. -/
theorem huge_font_overflows : ¬ SafeToIndex (fontHeader 32 0x10000 0x10000 16 8) := by
  rintro ⟨r, hr, -⟩
  have hover : Psf2Font.new (fontHeader 32 0x10000 0x10000 16 8) =
      .error ⟨"attempt to multiply with overflow"⟩ := by decide +kernel
  rw [hover] at hr
  cases hr

/-! ## Glyphs -/

/-- The body of the loops, for a glyph that is followed by zeros: all of `drawPixel` but the panic of
`glyph_vec[byte_idx]`. -/
def drawPadded (fb : Framebuffer) (glyph : List UInt8) (bytesPerLine row col : Nat) :
    PanicM Console Unit := do
  let s ← PanicM.get
  let byteIdx ← addU32 (← mulU32 row bytesPerLine) (col / 8)
  let bitIdx := 7 - col % 8
  let isSet := ((glyph[byteIdx]?.getD 0).toNat >>> bitIdx) &&& 1 = 1
  let x ← addU32 s.cursorX col
  let y ← addU32 s.cursorY row
  fb.setPixel x y (if isSet then s.foreground else s.background)

/-- The index of the byte for a pixel is below the size of the glyph, for every pixel of every character that
has a glyph; and `write_char` does what it would do if no index were out of bounds. -/
def ReadsInsideGlyph (font : Psf2Font) : Prop :=
  (∀ c : Char, c.toNat < font.header.length → ∀ row < font.header.height, ∀ col < font.header.width,
    row * ((font.header.width + 7) / 8) + col / 8 < font.header.charSize) ∧
  ∀ (c : Char) (s : Console), s.font = font → writeChar c s = writeCharWith drawPadded c s

namespace FontLemmas

variable {font : Psf2Font}

theorem drawPixel_eq {fb : Framebuffer} {glyph : List UInt8} {bytesPerLine row col : Nat}
    (h : row * bytesPerLine + col / 8 < glyph.length) :
    drawPixel fb glyph bytesPerLine row col = drawPadded fb glyph bytesPerLine row col := by
  funext s
  have hget := List.getElem?_eq_getElem h
  refine bind_congr_at fun s' _ _ => ?_
  refine bind_congr_at fun line s'' hline => ?_
  obtain ⟨-, rfl⟩ := ConsoleLemmas.mulU32_eq_some hline
  refine bind_congr_at fun byteIdx s3 hidx => ?_
  obtain ⟨-, rfl⟩ := ConsoleLemmas.addU32_eq_some hidx
  rw [hget]
  rfl

/-- The last byte of a row is directly in front of the first one of the next row. -/
theorem glyph_byte_lt_iff {height width size : Nat} :
    (∀ row < height, ∀ col < width, row * ((width + 7) / 8) + col / 8 < size) ↔
      height * ((width + 7) / 8) ≤ size := by
  constructor
  · intro h
    rcases Nat.eq_zero_or_pos height with rfl | hheight
    · rw [Nat.zero_mul]
      exact Nat.zero_le _
    rcases Nat.eq_zero_or_pos width with rfl | hwidth
    · exact (Nat.mul_zero height).le.trans (Nat.zero_le _)
    have hlast := h (height - 1) (by omega) (width - 1) (by omega)
    have hrows : (height - 1 + 1) * ((width + 7) / 8) = height * ((width + 7) / 8) := by
      rw [Nat.sub_add_cancel hheight]
    rw [Nat.add_mul, Nat.one_mul] at hrows
    omega
  · intro h row hrow col hcol
    have hrows : (row + 1) * ((width + 7) / 8) ≤ height * ((width + 7) / 8) :=
      Nat.mul_le_mul_right _ hrow
    rw [Nat.add_mul, Nat.one_mul] at hrows
    omega

/-- If every glyph has a byte for each of its pixels, `write_char` reads nothing behind them. -/
theorem writeChar_eq_padded
    (hglyph : ∀ (c : Char) (s s' : Console) (glyph : List UInt8),
      font.getGlyph c s = (some (some glyph), s') →
        ∀ row < font.header.height, ∀ col < font.header.width,
          row * ((font.header.width + 7) / 8) + col / 8 < glyph.length)
    (c : Char) {s : Console} (hs : s.font = font) : writeChar c s = writeCharWith drawPadded c s := by
  subst hs
  unfold writeChar writeCharWith
  by_cases hc : c = '\n'
  · rw [if_pos hc, if_pos hc]
  rw [if_neg hc, if_neg hc]
  refine bind_congr_at fun s₁ s₁' hget => ?_
  cases hget
  refine bind_congr_at fun o s₂ hfound => ?_
  cases o with
  | none => rfl
  | some glyph =>
    refine bind_congr_at fun sum s₃ hsum => ?_
    obtain ⟨-, rfl⟩ := ConsoleLemmas.addU32_eq_some hsum
    -- the bodies of the loops agree on the pixels of the glyph
    have hloops : ∀ fb : Framebuffer,
        forRange (fun row => forRange (drawPixel fb glyph ((s.font.header.width + 7) / 8) row)
          s.font.header.width 0) s.font.header.height 0 =
        forRange (fun row => forRange (drawPadded fb glyph ((s.font.header.width + 7) / 8) row)
          s.font.header.width 0) s.font.header.height 0 := by
      intro fb
      refine forRange_congr fun row _ hrow => forRange_congr fun col _ hcol => drawPixel_eq ?_
      exact hglyph c s s₂ glyph hfound row (by omega) col (by omega)
    simp only [hloops]

theorem glyph_length_of_accepted {data : List UInt8} (h : Psf2Font.new data = .ok (some font)) {c : Char}
    {s s' : Console} {glyph : List UInt8} (hglyph : font.getGlyph c s = (some (some glyph), s')) :
    glyph.length = font.header.charSize := by
  obtain ⟨rfl, hlen⟩ := accepted h
  by_cases hc : c.toNat < (Psf2Header.read data).length
  · obtain ⟨glyph', heq, hsize, -⟩ := getGlyph_fontOf hc hlen s
    rw [heq] at hglyph
    cases hglyph
    exact hsize
  · rw [getGlyph_none (Nat.le_of_not_lt hc)] at hglyph
    cases hglyph

end FontLemmas

/-- Drawing the characters of an accepted font stays inside their glyphs exactly if the font has no character
at all, or its glyphs are as large as its height and width need. -/
theorem glyph_reads_iff {data : List UInt8} {font : Psf2Font}
    (h : Psf2Font.new data = .ok (some font)) :
    ReadsInsideGlyph font ↔ font.header.length = 0 ∨
      font.header.height * ((font.header.width + 7) / 8) ≤ font.header.charSize := by
  constructor
  · rintro ⟨hreads, -⟩
    rcases Nat.eq_zero_or_pos font.header.length with hzero | hpos
    · exact .inl hzero
    · exact .inr (glyph_byte_lt_iff.mp (hreads '\x00' hpos))
  · rintro (hzero | hsize)
    · refine ⟨fun c hc => absurd hc (by omega), fun c s => writeChar_eq_padded ?_ c⟩
      intro c s s' glyph hglyph
      rw [getGlyph_none (by omega)] at hglyph
      cases hglyph
    · refine ⟨fun _ _ => glyph_byte_lt_iff.mpr hsize, fun c s => writeChar_eq_padded ?_ c⟩
      intro c s s' glyph hglyph
      rw [glyph_length_of_accepted h hglyph]
      exact glyph_byte_lt_iff.mpr hsize

/-- One glyph of eight rows of eight pixels, in eight bytes. -/
theorem glyph_reads_small : ∃ font,
    Psf2Font.new (fontHeader 32 1 8 8 8 ++ List.replicate 8 0x3c) = .ok (some font) ∧
    ReadsInsideGlyph font := by
  have hnew : Psf2Font.new (fontHeader 32 1 8 8 8 ++ List.replicate 8 0x3c) =
      .ok (some ⟨⟨32, 1, 8, 8, 8⟩, List.replicate 8 0x3c⟩) := by decide +kernel
  exact ⟨_, hnew, (glyph_reads_iff hnew).mpr (.inr (by decide))⟩

/-- The same glyph with only one byte: the font is accepted, and the first character that is drawn stops the
kernel behind the first row. -/
theorem short_glyph_panics : ∃ font,
    Psf2Font.new (fontHeader 32 1 1 8 8 ++ [0x3c]) = .ok (some font) ∧ ¬ ReadsInsideGlyph font ∧
    (writeChar '\x00' ⟨font, 0, 0, 0xFFFFFF, 0x001a2a, some smallScreen, []⟩).1 = none ∧
    (writeCharWith drawPadded '\x00' ⟨font, 0, 0, 0xFFFFFF, 0x001a2a, some smallScreen, []⟩).1 =
      some () := by
  refine ⟨⟨⟨32, 1, 1, 8, 8⟩, [0x3c]⟩, by decide +kernel, fun h => ?_, by decide +kernel,
    by decide +kernel⟩
  have hread := h.1 '\x00' (by decide) 1 (by decide) 0 (by decide)
  exact absurd hread (by decide)

end Turnix
