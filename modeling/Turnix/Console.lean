import Turnix.Lib.PanicM
import Turnix.Tty

/-!
# The text console

`drivers/video/mod.rs`, and the font of `drivers/video/psf.rs`. The framebuffer is accessed through raw
pointers; the accesses are recorded, and so is a store that is refused because its pointer is not aligned. Only
`set_pixel` and `scroll` make accesses, and everything that the terminal asks of the console is made of these
(`ConsoleOp.issues`).
-/

namespace Turnix

open Lib PanicM

/-! ## The font -/

/-- The fields of `Psf2Header` that are used. -/
structure Psf2Header where
  headerSize : Nat
  length : Nat
  charSize : Nat
  height : Nat
  width : Nat
deriving DecidableEq, Repr

/-- `Psf2Font`. -/
structure Psf2Font where
  header : Psf2Header
  glyphs : List UInt8
deriving DecidableEq, Repr

/-- `get_glyph`. -/
def Psf2Font.getGlyph {σ : Type} (font : Psf2Font) (c : Char) : PanicM σ (Option (List UInt8)) :=
  if c.toNat ≥ font.header.length then pure none
  else do
    let start ← PanicM.expect (checkedMul c.toNat font.header.charSize)
    let stop ← PanicM.expect (checkedAdd start font.header.charSize)
    let glyph ← PanicM.expect (slice font.glyphs start stop).toOption
    return some glyph

/-! ## State -/

/-- `Framebuffer`. `init` makes none at address 0. -/
structure Framebuffer where
  addr : Nat
  width : Nat
  height : Nat
  pitch : Nat
  format : Nat
  nonnull : addr ≠ 0
deriving DecidableEq, Repr

/-- A `write_volatile` of a `u32`, a `copy` of bytes, or a `write_volatile` that does not get to its store. -/
inductive FbAccess
  | store (ptr value : Nat)
  | copy (src dest count : Nat)
  | misaligned (ptr : Nat)
deriving DecidableEq, Repr

/-- `TextConsole` and `FRAMEBUFFER`, and a record of the accesses. -/
structure Console where
  font : Psf2Font
  cursorX : Nat
  cursorY : Nat
  foreground : Nat
  background : Nat
  framebuffer : Option Framebuffer
  accesses : List FbAccess
deriving DecidableEq, Repr

/-- `a + b`, `a * b` and `a - b` on `u32`. -/
def addU32 (a b : Nat) : PanicM Console Nat := do
  PanicM.ensure (decide (a + b < 2 ^ 32))
  return a + b

@[inherit_doc addU32]
def mulU32 (a b : Nat) : PanicM Console Nat := do
  PanicM.ensure (decide (a * b < 2 ^ 32))
  return a * b

@[inherit_doc addU32]
def subU32 (a b : Nat) : PanicM Console Nat := do
  PanicM.ensure (decide (b ≤ a))
  return a - b

/-- Make an access. -/
def access (a : FbAccess) : PanicM Console Unit :=
  .modify fun s => { s with accesses := s.accesses ++ [a] }

/-- `write_volatile`. With debug assertions it panics if the pointer is not aligned, or null, which the pointers
into a framebuffer are not. -/
def writeVolatile (ptr value : Nat) : PanicM Console Unit :=
  if 4 ∣ ptr then access (.store ptr value)
  else do
    access (.misaligned ptr)
    PanicM.fail

/-! ## `Framebuffer` -/

/-- The pixel in the format of the framebuffer: `1` is RGB, others are BGR. -/
def Framebuffer.encode (fb : Framebuffer) (color : Nat) : Nat :=
  if fb.format = 1 then color
  else
    let red := (color &&& 0x00ff0000) >>> 16
    let green := color &&& 0x0000ff00
    let blue := (color &&& 0x000000ff) <<< 16
    blue ||| green ||| red

/-- `set_pixel`. -/
def Framebuffer.setPixel (fb : Framebuffer) (x y color : Nat) : PanicM Console Unit :=
  if x ≥ fb.width ∨ y ≥ fb.height then pure ()
  else do
    let pixel ← addU32 (← mulU32 y fb.pitch) x
    let ptr ← PanicM.expect (checkedAdd fb.addr (pixel * 4))
    writeVolatile ptr (fb.encode color)

/-- `draw_rect`. -/
def Framebuffer.drawRect (fb : Framebuffer) (x y w h color : Nat) : PanicM Console Unit := do
  let bottom ← addU32 y h
  forRange (fun i => do
    let right ← addU32 x w
    forRange (fun j => fb.setPixel j i color) (right - x) x) (bottom - y) y

/-! ## `TextConsole` -/

/-- `scroll`. -/
def scroll (fb : Framebuffer) : PanicM Console Unit := do
  let s ← PanicM.get
  let fontHeight := s.font.header.height
  let lineSize := (← mulU32 fb.pitch fontHeight) * 4
  let totalSize := (← mulU32 fb.pitch fb.height) * 4
  let src ← PanicM.expect (checkedAdd fb.addr lineSize)
  PanicM.ensure (decide (lineSize ≤ totalSize))
  access (.copy src fb.addr (totalSize - lineSize))
  let lastLine ← PanicM.expect (checkedAdd fb.addr (totalSize - lineSize))
  forRange (fun i => do
    -- `add` panics too if the address does not fit
    let ptr ← PanicM.expect (checkedAdd lastLine (4 * i))
    writeVolatile ptr s.background) (lineSize / 4) 0
  let cursorY ← subU32 fb.height fontHeight
  PanicM.modify fun s => { s with cursorY := cursorY }

/-- `newline_locked`. -/
def newlineLocked (fb : Framebuffer) : PanicM Console Unit := do
  PanicM.modify fun s => { s with cursorX := 0 }
  let s ← PanicM.get
  let fontHeight := s.font.header.height
  let below ← addU32 s.cursorY (← mulU32 2 fontHeight)
  if below > fb.height then scroll fb
  else
    let cursorY ← addU32 s.cursorY fontHeight
    PanicM.modify fun s => { s with cursorY := cursorY }

/-- `if let Some(ref mut fb) = *FRAMEBUFFER.lock()`. -/
def withFramebuffer (f : Framebuffer → PanicM Console Unit) : PanicM Console Unit := do
  let s ← PanicM.get
  match s.framebuffer with
  | some fb => f fb
  | none => pure ()

/-- `newline`. -/
def newline : PanicM Console Unit := withFramebuffer newlineLocked

/-- The body of the two loops of `write_char`: the pixel of a glyph in a row and a column. -/
def drawPixel (fb : Framebuffer) (glyph : List UInt8) (bytesPerLine row col : Nat) :
    PanicM Console Unit := do
  let s ← PanicM.get
  let byteIdx ← addU32 (← mulU32 row bytesPerLine) (col / 8)
  let bitIdx := 7 - col % 8
  let byte ← PanicM.expect glyph[byteIdx]?
  let isSet := (byte.toNat >>> bitIdx) &&& 1 = 1
  let x ← addU32 s.cursorX col
  let y ← addU32 s.cursorY row
  fb.setPixel x y (if isSet then s.foreground else s.background)

/-- `write_char`, for any body of its two loops. -/
def writeCharWith (draw : Framebuffer → List UInt8 → Nat → Nat → Nat → PanicM Console Unit) (c : Char) :
    PanicM Console Unit :=
  if c = '\n' then newline
  else do
    let s ← PanicM.get
    match ← s.font.getGlyph c with
    | none => pure ()
    | some glyph =>
      let fontWidth := s.font.header.width
      let fontHeight := s.font.header.height
      let bytesPerLine := (← addU32 fontWidth 7) / 8
      withFramebuffer fun fb => do
        let right ← addU32 s.cursorX fontWidth
        if right > fb.width then newlineLocked fb
        forRange (fun row => forRange (draw fb glyph bytesPerLine row) fontWidth 0) fontHeight 0
        let s ← PanicM.get
        let cursorX ← addU32 s.cursorX fontWidth
        PanicM.modify fun s => { s with cursorX := cursorX }

/-- `write_char`. -/
def writeChar (c : Char) : PanicM Console Unit := writeCharWith drawPixel c

/-- `backspace`. -/
def backspace : PanicM Console Unit := do
  let s ← PanicM.get
  let fontWidth := s.font.header.width
  let fontHeight := s.font.header.height
  if s.cursorX ≥ fontWidth then
    PanicM.modify fun s => { s with cursorX := s.cursorX - fontWidth }
    withFramebuffer fun fb => do
      let s ← PanicM.get
      fb.drawRect s.cursorX s.cursorY fontWidth fontHeight s.background

/-- `write_str`. -/
def writeStr : List Char → PanicM Console Unit
  | [] => pure ()
  | c :: cs => do
    writeChar c
    writeStr cs

/-- What the terminal asks for. -/
def ConsoleOp.run : ConsoleOp → PanicM Console Unit
  | .writeChar c => Turnix.writeChar c
  | .backspace => Turnix.backspace
  | .writeStr s => Turnix.writeStr s.toList

/-- A framebuffer of 20 times 20 pixels. -/
def smallScreen : Framebuffer := ⟨0xE000_0000, 20, 20, 20, 1, Nat.succ_ne_zero 0xDFFF_FFFF⟩

/-! ## The addresses -/

/-- The addresses that an access reads or writes. -/
def FbAccess.Touches : FbAccess → Nat → Prop
  | .store ptr _, va => ptr ≤ va ∧ va < ptr + 4
  | .copy src dest count, va => (src ≤ va ∧ va < src + count) ∨ (dest ≤ va ∧ va < dest + count)
  | .misaligned _, _ => False

/-- The accesses that a computation adds to the record. -/
def made (x : PanicM Console Unit) (s : Console) : List FbAccess := (x s).2.accesses.drop s.accesses.length

/-- An access that `set_pixel` or `scroll` makes in some state of the console. -/
def Framebuffer.Issues (fb : Framebuffer) (a : FbAccess) : Prop :=
  ∃ s : Console, (∃ x y color, a ∈ made (fb.setPixel x y color) s) ∨ a ∈ made (scroll fb) s

/-- An address that `set_pixel` or `scroll` may touch. -/
def Framebuffer.Touched (fb : Framebuffer) (va : Nat) : Prop := ∃ a, fb.Issues a ∧ a.Touches va

/-- No pixel that can be stored, and no line to scroll. -/
def Framebuffer.Blank (fb : Framebuffer) : Prop :=
  fb.height = 0 ∨ ((fb.width = 0 ∨ ¬ 4 ∣ fb.addr) ∧ (fb.pitch = 0 ∨ 2 ^ 32 ≤ fb.pitch * fb.height))

/-- The framebuffer stays, and accesses are added for which `P` holds. -/
def Adds (P : FbAccess → Prop) (s s' : Console) : Prop :=
  s'.framebuffer = s.framebuffer ∧ ∃ as, s'.accesses = s.accesses ++ as ∧ ∀ a ∈ as, P a

/-- What is added are accesses that `set_pixel` or `scroll` makes on the framebuffer. -/
def Drawn (s s' : Console) : Prop := Adds (fun a => ∀ fb, s.framebuffer = some fb → fb.Issues a) s s'

namespace ConsoleLemmas

variable {fb : Framebuffer} {s s' s'' : Console} {E : Console → Prop} {P : FbAccess → Prop}

theorem ends_addU32 {a b : Nat} {Q : Nat → Console → Prop} : Ends (addU32 a b) s Q E ↔
    (a + b < 2 ^ 32 → Q (a + b) s) ∧ (¬ a + b < 2 ^ 32 → E s) := by
  unfold addU32
  rw [ends_bind, ends_ensure, decide_eq_true_iff, decide_eq_false_iff_not]
  exact Iff.rfl

theorem addU32_eq_some {a b c : Nat} (h : addU32 a b s = (some c, s')) : s' = s ∧ c = a + b := by
  have hends : Ends (addU32 a b) s (fun c s' => s' = s ∧ c = a + b) fun _ => True :=
    ends_addU32.mpr ⟨fun _ => ⟨rfl, rfl⟩, fun _ => trivial⟩
  exact hends.returns (result_eq_some.mpr h)

theorem ends_mulU32 {a b : Nat} {Q : Nat → Console → Prop} : Ends (mulU32 a b) s Q E ↔
    (a * b < 2 ^ 32 → Q (a * b) s) ∧ (¬ a * b < 2 ^ 32 → E s) := by
  unfold mulU32
  rw [ends_bind, ends_ensure, decide_eq_true_iff, decide_eq_false_iff_not]
  exact Iff.rfl

theorem mulU32_eq_some {a b c : Nat} (h : mulU32 a b s = (some c, s')) : s' = s ∧ c = a * b := by
  have hends : Ends (mulU32 a b) s (fun c s' => s' = s ∧ c = a * b) fun _ => True :=
    ends_mulU32.mpr ⟨fun _ => ⟨rfl, rfl⟩, fun _ => trivial⟩
  exact hends.returns (result_eq_some.mpr h)

theorem ends_subU32 {a b : Nat} {Q : Nat → Console → Prop} : Ends (subU32 a b) s Q E ↔
    (b ≤ a → Q (a - b) s) ∧ (¬ b ≤ a → E s) := by
  unfold subU32
  rw [ends_bind, ends_ensure, decide_eq_true_iff, decide_eq_false_iff_not]
  exact Iff.rfl

theorem ends_checkedAdd {a b : Nat} {Q : Nat → Console → Prop} :
    Ends (PanicM.expect (checkedAdd a b)) s Q E ↔
      (a + b < 2 ^ 64 → Q (a + b) s) ∧ (¬ a + b < 2 ^ 64 → E s) := by
  unfold checkedAdd
  by_cases h : a + b < 2 ^ 64
  · rw [if_pos h]
    exact ⟨fun hQ => ⟨fun _ => hQ, fun hover => absurd h hover⟩, fun hQ => hQ.1 h⟩
  · rw [if_neg h]
    exact ⟨fun hE => ⟨fun hlt => absurd hlt h, fun _ => hE⟩, fun hE => hE.2 h⟩

theorem ends_access {a : FbAccess} {Q : Unit → Console → Prop} :
    Ends (access a) s Q E ↔ Q () { s with accesses := s.accesses ++ [a] } := Iff.rfl

theorem ends_writeVolatile {ptr value : Nat} {Q : Unit → Console → Prop} :
    Ends (writeVolatile ptr value) s Q E ↔
      (4 ∣ ptr → Q () { s with accesses := s.accesses ++ [.store ptr value] }) ∧
      (¬ 4 ∣ ptr → E { s with accesses := s.accesses ++ [.misaligned ptr] }) := by
  unfold writeVolatile
  by_cases h : 4 ∣ ptr
  · rw [if_pos h]
    exact ⟨fun hQ => ⟨fun _ => hQ, fun hnot => absurd h hnot⟩, fun hQ => hQ.1 h⟩
  · rw [if_neg h]
    exact ⟨fun hE => ⟨fun hdvd => absurd hdvd h, fun _ => hE⟩, fun hE => hE.2 h⟩

/-! ### The record -/

theorem Adds.refl (s : Console) : Adds P s s :=
  ⟨rfl, [], (List.append_nil _).symm, fun _ h => absurd h List.not_mem_nil⟩

theorem Adds.trans (h : Adds P s s') (h' : Adds P s' s'') : Adds P s s'' := by
  obtain ⟨hfb, as, has, hP⟩ := h
  obtain ⟨hfb', as', has', hP'⟩ := h'
  refine ⟨hfb'.trans hfb, as ++ as', by rw [has', has, List.append_assoc], fun a ha => ?_⟩
  rcases List.mem_append.mp ha with ha | ha
  · exact hP a ha
  · exact hP' a ha

instance : IsPreorder Console (Adds P) where
  refl := Adds.refl
  trans _ _ _ := Adds.trans

theorem Adds.one {a : FbAccess} (h : P a) : Adds P s { s with accesses := s.accesses ++ [a] } := by
  refine ⟨rfl, [a], rfl, fun b hb => ?_⟩
  rw [List.mem_singleton.mp hb]
  exact h

theorem adds_cursor {x y : Nat} : Adds P s { s with cursorX := x, cursorY := y } :=
  ⟨rfl, [], (List.append_nil _).symm, fun _ h => absurd h List.not_mem_nil⟩

theorem along_writeVolatile {ptr value : Nat} (hstore : 4 ∣ ptr → P (.store ptr value))
    (hmisaligned : P (.misaligned ptr)) : Along (Adds P) (writeVolatile ptr value) := by
  intro s
  rw [ends_writeVolatile]
  exact ⟨fun h => Adds.one (hstore h), fun _ => Adds.one hmisaligned⟩

/-- What a computation makes is what it adds. -/
theorem adds_made {x : PanicM Console Unit} (h : Adds P s (x s).2) :
    Adds (· ∈ made x s) s (x s).2 ∧ ∀ a ∈ made x s, P a := by
  obtain ⟨hfb, as, has, hP⟩ := h
  have hmade : made x s = as := by
    unfold made
    rw [has, List.drop_left]
  rw [hmade]
  exact ⟨⟨hfb, as, has, fun _ ha => ha⟩, hP⟩

/-! ### The accesses of the two functions -/

/-- An access of `set_pixel` touches at most one pixel, and only if the framebuffer is aligned. -/
def PixelAccess (fb : Framebuffer) (a : FbAccess) : Prop :=
  ∃ x y, x < fb.width ∧ y < fb.height ∧ ∀ va, a.Touches va → 4 ∣ fb.addr ∧
    fb.addr + (y * fb.pitch + x) * 4 ≤ va ∧ va < fb.addr + (y * fb.pitch + x) * 4 + 4

/-- What `scroll` touches is in the picture, so there is one. -/
def ScrollAccess (fb : Framebuffer) (a : FbAccess) : Prop :=
  fb.pitch * fb.height < 2 ^ 32 ∧
    ∀ va, a.Touches va → fb.addr ≤ va ∧ va < fb.addr + fb.pitch * fb.height * 4

theorem setPixel_adds (x y color : Nat) (s : Console) :
    Adds (PixelAccess fb) s (fb.setPixel x y color s).2 := by
  refine Ends.always ?_
  unfold Framebuffer.setPixel
  by_cases hout : x ≥ fb.width ∨ y ≥ fb.height
  · rw [if_pos hout]
    exact Adds.refl s
  · rw [if_neg hout, ends_bind, ends_mulU32]
    refine ⟨fun _ => ?_, fun _ => Adds.refl s⟩
    rw [ends_bind, ends_addU32]
    refine ⟨fun _ => ?_, fun _ => Adds.refl s⟩
    rw [ends_bind, ends_checkedAdd]
    refine ⟨fun _ => ?_, fun _ => Adds.refl s⟩
    refine along_writeVolatile (fun hdvd => ?_) ?_ s
    · exact ⟨x, y, by omega, by omega, fun va hva => ⟨by omega, hva⟩⟩
    · exact ⟨x, y, by omega, by omega, fun va hva => hva.elim⟩

theorem scroll_adds (s : Console) : Adds (ScrollAccess fb) s (scroll fb s).2 := by
  refine Ends.always ?_
  unfold scroll
  rw [ends_bind, ends_get, ends_bind, ends_mulU32]
  refine ⟨fun _ => ?_, fun _ => Adds.refl s⟩
  rw [ends_bind, ends_mulU32]
  refine ⟨fun htotal => ?_, fun _ => Adds.refl s⟩
  rw [ends_bind, ends_checkedAdd]
  refine ⟨fun _ => ?_, fun _ => Adds.refl s⟩
  rw [ends_bind, ends_ensure, decide_eq_true_iff, decide_eq_false_iff_not]
  refine ⟨fun hle => ?_, fun _ => Adds.refl s⟩
  generalize fb.pitch * s.font.header.height = line at hle ⊢
  -- the copy, and then the stores of the loop
  have hcopy : Adds (ScrollAccess fb) s { s with accesses := s.accesses ++
      [.copy (fb.addr + line * 4) fb.addr (fb.pitch * fb.height * 4 - line * 4)] } := by
    refine Adds.one ⟨htotal, fun va hva => ?_⟩
    rcases hva with hva | hva <;> omega
  rw [ends_bind, ends_access, ends_bind, ends_checkedAdd]
  refine ⟨fun _ => ?_, fun _ => hcopy⟩
  rw [ends_bind]
  refine (@ends_forRange _ _ (fun _ => Adds (ScrollAccess fb) s) _ _ 0 _ hcopy
    fun i s' _ hi hs' => ?_).mono (fun _ s' hs' => ?_) fun _ h => h
  · rw [ends_bind, ends_checkedAdd]
    refine ⟨fun _ => ?_, fun _ => hs'⟩
    have hstore := @along_writeVolatile (ScrollAccess fb)
      (fb.addr + (fb.pitch * fb.height * 4 - line * 4) + 4 * i) s.background
      (fun _ => ⟨htotal, fun va hva => by obtain ⟨hge, hlt⟩ := hva; omega⟩) ⟨htotal, fun _ hva => hva.elim⟩ s'
    exact hstore.mono (fun _ _ h => Adds.trans hs' h) fun _ h => Adds.trans hs' h
  · rw [ends_bind, ends_subU32]
    exact ⟨fun _ => Adds.trans hs' adds_cursor, fun _ => hs'⟩

theorem issues_cases {a : FbAccess} (h : fb.Issues a) : PixelAccess fb a ∨ ScrollAccess fb a := by
  obtain ⟨s, ⟨x, y, color, ha⟩ | ha⟩ := h
  · exact .inl ((adds_made (setPixel_adds x y color s)).2 a ha)
  · exact .inr ((adds_made (scroll_adds s)).2 a ha)

theorem touched_within (hpitch : fb.width ≤ fb.pitch) {va : Nat} (h : fb.Touched va) :
    fb.addr ≤ va ∧ va < fb.addr + fb.pitch * fb.height * 4 := by
  obtain ⟨a, hissues, hva⟩ := h
  rcases issues_cases hissues with ⟨x, y, hx, hy, hpixel⟩ | ⟨-, hscroll⟩
  · obtain ⟨-, hge, hlt⟩ := hpixel va hva
    have hrows : (y + 1) * fb.pitch ≤ fb.height * fb.pitch := Nat.mul_le_mul_right _ hy
    rw [Nat.add_mul, Nat.one_mul, Nat.mul_comm fb.height] at hrows
    omega
  · exact hscroll va hva

/-- A console with an empty font, and no accesses yet. -/
def idleConsole : Console := ⟨⟨⟨0, 0, 0, 0, 0⟩, []⟩, 0, 0, 0, 0, none, []⟩

/-- `set_pixel` stores the first pixel. -/
theorem issues_first (haddr : fb.addr < 2 ^ 64) (hwidth : 0 < fb.width) (hheight : 0 < fb.height)
    (haligned : 4 ∣ fb.addr) : fb.Issues (.store fb.addr (fb.encode 0)) := by
  refine ⟨idleConsole, .inl ⟨0, 0, 0, ?_⟩⟩
  have hends : Ends (fb.setPixel 0 0 0) idleConsole
      (fun _ s' => FbAccess.store fb.addr (fb.encode 0) ∈ s'.accesses)
      fun s' => FbAccess.store fb.addr (fb.encode 0) ∈ s'.accesses := by
    unfold Framebuffer.setPixel
    rw [if_neg (by omega), ends_bind, ends_mulU32, Nat.zero_mul]
    refine ⟨fun _ => ?_, fun hover => absurd (by decide) hover⟩
    rw [ends_bind, ends_addU32]
    refine ⟨fun _ => ?_, fun hover => absurd (by decide) hover⟩
    rw [ends_bind, ends_checkedAdd]
    refine ⟨fun _ => ?_, fun hover => absurd haddr hover⟩
    rw [ends_writeVolatile]
    exact ⟨fun _ => List.mem_singleton_self _, fun hnot => absurd haligned hnot⟩
  exact hends.always

/-- `scroll` moves the picture by nothing, for a font without height. -/
theorem issues_copy (haddr : fb.addr < 2 ^ 64) (h32 : fb.pitch * fb.height < 2 ^ 32) :
    fb.Issues (.copy fb.addr fb.addr (fb.pitch * fb.height * 4)) := by
  refine ⟨idleConsole, .inr ?_⟩
  have hline : fb.pitch * idleConsole.font.header.height = 0 := Nat.mul_zero _
  have hends : Ends (scroll fb) idleConsole
      (fun _ s' => FbAccess.copy fb.addr fb.addr (fb.pitch * fb.height * 4) ∈ s'.accesses)
      fun s' => FbAccess.copy fb.addr fb.addr (fb.pitch * fb.height * 4) ∈ s'.accesses := by
    unfold scroll
    rw [ends_bind, ends_get, ends_bind, ends_mulU32, hline]
    refine ⟨fun _ => ?_, fun hover => absurd (by decide) hover⟩
    rw [ends_bind, ends_mulU32]
    refine ⟨fun _ => ?_, fun hover => absurd h32 hover⟩
    rw [ends_bind, ends_checkedAdd]
    refine ⟨fun _ => ?_, fun hover => absurd haddr hover⟩
    rw [ends_bind, ends_ensure, decide_eq_true_iff, decide_eq_false_iff_not]
    refine ⟨fun _ => ?_, fun hover => absurd (Nat.zero_le _) hover⟩
    rw [ends_bind, ends_access, ends_bind, ends_checkedAdd]
    refine ⟨fun _ => ?_, fun _ => List.mem_singleton_self _⟩
    rw [ends_bind, Nat.zero_mul, Nat.zero_div]
    unfold forRange
    rw [ends_pure, ends_bind, ends_subU32]
    exact ⟨fun _ => List.mem_singleton_self _, fun _ => List.mem_singleton_self _⟩
  exact hends.always

/-- Something is touched unless the framebuffer is blank. -/
theorem touched_iff (haddr : fb.addr < 2 ^ 64) : (∃ va, fb.Touched va) ↔ ¬ fb.Blank := by
  constructor
  · rintro ⟨va, a, hissues, hva⟩ hblank
    unfold Framebuffer.Blank at hblank
    rcases issues_cases hissues with ⟨x, y, hx, hy, hpixel⟩ | ⟨h32, hscroll⟩
    · obtain ⟨haligned, hge, hlt⟩ := hpixel va hva
      omega
    · obtain ⟨hge, hlt⟩ := hscroll va hva
      have hpos : fb.pitch * fb.height ≠ 0 := by omega
      obtain ⟨hpitch, hheight⟩ := Nat.mul_ne_zero_iff.mp hpos
      omega
  · intro hblank
    unfold Framebuffer.Blank at hblank
    rw [not_or, not_and_or, not_or, not_or, not_not, Nat.not_le] at hblank
    obtain ⟨hheight, ⟨hwidth, haligned⟩ | ⟨hpitch, h32⟩⟩ := hblank
    · exact ⟨fb.addr, _, issues_first haddr (by omega) (by omega) haligned, Nat.le_refl _, by omega⟩
    · have hpos : 0 < fb.pitch * fb.height := Nat.mul_pos (by omega) (by omega)
      exact ⟨fb.addr, _, issues_copy haddr h32, .inl ⟨Nat.le_refl _, by omega⟩⟩

/-! ### What the terminal asks for -/

theorem Drawn.refl (s : Console) : Drawn s s := Adds.refl s

theorem Drawn.trans (h : Drawn s s') (h' : Drawn s' s'') : Drawn s s'' := by
  unfold Drawn at h' ⊢
  rw [h.1] at h'
  exact Adds.trans h h'

instance : IsPreorder Console Drawn where
  refl := Drawn.refl
  trans _ _ _ := Drawn.trans

section Preorder

variable {R : Console → Console → Prop} [IsPreorder Console R]

theorem along_addU32 (a b : Nat) : Along R (addU32 a b) :=
  .bind (along_ensure _) fun _ => along_pure _

theorem along_mulU32 (a b : Nat) : Along R (mulU32 a b) :=
  .bind (along_ensure _) fun _ => along_pure _

theorem along_getGlyph (font : Psf2Font) (c : Char) : Along R (font.getGlyph c) := by
  unfold Psf2Font.getGlyph
  by_cases hc : c.toNat ≥ font.header.length
  · rw [if_pos hc]
    exact along_pure none
  · rw [if_neg hc]
    refine .bind (along_expect _) fun start => ?_
    refine .bind (along_expect _) fun stop => ?_
    exact .bind (along_expect _) fun glyph => along_pure _

end Preorder

theorem along_setPixel {x y color : Nat} : Along (Adds fb.Issues) (fb.setPixel x y color) := by
  refine along_of_always fun s => ?_
  obtain ⟨hfb, as, has, hin⟩ := (adds_made (@setPixel_adds fb x y color s)).1
  exact ⟨hfb, as, has, fun a ha => ⟨s, .inl ⟨x, y, color, hin a ha⟩⟩⟩

theorem along_scroll : Along (Adds fb.Issues) (scroll fb) := by
  refine along_of_always fun s => ?_
  obtain ⟨hfb, as, has, hin⟩ := (adds_made (@scroll_adds fb s)).1
  exact ⟨hfb, as, has, fun a ha => ⟨s, .inr (hin a ha)⟩⟩

theorem along_drawRect {x y w h color : Nat} : Along (Adds fb.Issues) (fb.drawRect x y w h color) := by
  refine .bind (along_addU32 y h) fun bottom => ?_
  refine along_forRange fun i => ?_
  refine .bind (along_addU32 x w) fun right => ?_
  exact along_forRange fun j => along_setPixel

theorem along_newlineLocked : Along (Adds fb.Issues) (newlineLocked fb) := by
  refine .bind (along_modify fun s => adds_cursor) fun _ => ?_
  refine .bind along_get fun s => ?_
  refine .bind (along_mulU32 _ _) fun twice => ?_
  refine .bind (along_addU32 _ _) fun below => ?_
  by_cases hscroll : below > fb.height
  · rw [if_pos hscroll]
    exact along_scroll
  · rw [if_neg hscroll]
    refine .bind (along_addU32 _ _) fun y => ?_
    exact along_modify fun s => adds_cursor

theorem along_drawPixel {glyph : List UInt8} {bytesPerLine row col : Nat} :
    Along (Adds fb.Issues) (drawPixel fb glyph bytesPerLine row col) := by
  refine .bind along_get fun s => ?_
  refine .bind (along_mulU32 _ _) fun line => ?_
  refine .bind (along_addU32 _ _) fun byteIdx => ?_
  refine .bind (along_expect _) fun byte => ?_
  refine .bind (along_addU32 _ _) fun x => ?_
  refine .bind (along_addU32 _ _) fun y => ?_
  exact along_setPixel

theorem along_withFramebuffer {f : Framebuffer → PanicM Console Unit}
    (hf : ∀ fb, Along (Adds fb.Issues) (f fb)) : Along Drawn (withFramebuffer f) := by
  intro s
  unfold withFramebuffer
  rw [ends_bind, ends_get]
  rcases hs : s.framebuffer with _ | fb
  · exact Drawn.refl s
  · have hdrawn : ∀ s', Adds fb.Issues s s' → Drawn s s' := by
      rintro s' ⟨hfb, as, has, hin⟩
      refine ⟨hfb, as, has, fun a ha fb' hs' => ?_⟩
      rw [hs] at hs'
      cases hs'
      exact hin a ha
    exact (hf fb s).mono (fun _ s' => hdrawn s') hdrawn

theorem along_writeChar (c : Char) : Along Drawn (writeChar c) := by
  unfold writeChar writeCharWith
  by_cases hc : c = '\n'
  · rw [if_pos hc]
    exact along_withFramebuffer fun fb => along_newlineLocked
  · rw [if_neg hc]
    refine .bind along_get fun s => ?_
    refine .bind (along_getGlyph _ c) fun o => ?_
    rcases o with _ | glyph
    · exact along_pure ()
    · refine .bind (along_addU32 _ _) fun w => ?_
      refine along_withFramebuffer fun fb => ?_
      refine .bind (along_addU32 _ _) fun right => ?_
      have hrest : Along (Adds fb.Issues) (do
          forRange (fun row => forRange (drawPixel fb glyph (w / 8) row) s.font.header.width 0)
            s.font.header.height 0
          let s' ← PanicM.get
          let cursorX ← addU32 s'.cursorX s.font.header.width
          PanicM.modify fun s => { s with cursorX := cursorX }) := by
        refine .bind (along_forRange fun row =>
          along_forRange fun col => along_drawPixel) fun _ => ?_
        refine .bind along_get fun s' => ?_
        refine .bind (along_addU32 _ _) fun x => ?_
        exact along_modify fun s => adds_cursor
      by_cases hright : right > fb.width
      · rw [if_pos hright]
        exact .bind along_newlineLocked fun _ => hrest
      · rw [if_neg hright]
        exact hrest

theorem along_backspace : Along Drawn backspace := by
  refine .bind along_get fun s => ?_
  by_cases hx : s.cursorX ≥ s.font.header.width
  · rw [if_pos hx]
    refine .bind (along_modify fun s => ?_) fun _ => ?_
    · exact ⟨rfl, [], (List.append_nil _).symm, fun _ ha => absurd ha List.not_mem_nil⟩
    · refine along_withFramebuffer fun fb => ?_
      exact .bind along_get fun s => along_drawRect
  · rw [if_neg hx]
    exact along_pure ()

theorem along_writeStr {cs : List Char} : Along Drawn (writeStr cs) := by
  induction cs with
  | nil => exact along_pure ()
  | cons c cs ih => exact .bind (along_writeChar c) fun _ => ih

theorem ConsoleOp.along_run (op : ConsoleOp) : Along Drawn op.run := by
  cases op with
  | writeChar c => exact along_writeChar c
  | backspace => exact along_backspace
  | writeStr s => exact along_writeStr

/-- The terminal makes no access but by `set_pixel` and `scroll`. -/
theorem ConsoleOp.issues (op : ConsoleOp) (hs : s.framebuffer = some fb) (hnew : s.accesses = [])
    {a : FbAccess} (ha : a ∈ (op.run s).2.accesses) : fb.Issues a := by
  obtain ⟨-, as, has, hin⟩ := Ends.always (ConsoleOp.along_run op s)
  rw [has, hnew] at ha
  exact hin a ha fb hs

end ConsoleLemmas

end Turnix
