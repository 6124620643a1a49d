import Turnix.ConsoleBounds

/-!
# The echo of the input

`Tty::handle_input` keeps the line in a buffer and asks the console to show what was typed. The two agree if
the cursor is where writing the buffer takes it, where the end of a row counts as the start of the next one.

They come apart in two ways (`erase_stops_at_row`): `backspace` does not go back to the row above, and a
character without a glyph does not move the cursor, but erasing it does. There is no other way
(`echo_agrees_iff`).
-/

namespace Turnix

open Lib PanicM

/-- `TTY` and `CONSOLE`. -/
structure Echo where
  tty : Tty
  console : Console
deriving DecidableEq

/-- `Tty::handle_input`, with a console that does what it is asked for. -/
def Echo.handleInput (s : Echo) (c : Char) : Option Echo :=
  let t := Terminal.handleInput c ⟨s.tty, some []⟩
  (run consoleStep s.console (t.console.getD [])).map fun console => ⟨t.tty, console⟩

/-- Backspace and delete. -/
def isErase (c : Char) : Bool := c = '\x08' ∨ c = '\x7f'

/-- No character fits behind the position, and `next` is the start of the next row. -/
def RowEnd (font : Psf2Font) (fb : Framebuffer) (pos next : Nat × Nat) : Prop :=
  pos.1 + font.header.width > fb.width ∧ next = (0, pos.2 + font.header.height)

/-- The positions are the same, up to the end of a row and the start of the next. -/
def SamePlace (font : Psf2Font) (fb : Framebuffer) (a b : Nat × Nat) : Prop :=
  a = b ∨ RowEnd font fb a b ∨ RowEnd font fb b a

/-- The cursor is where writing the line buffer takes it from its place in `start`. -/
def EchoAgrees (font : Psf2Font) (fb : Framebuffer) (start : Console) (s : Echo) : Prop :=
  ∃ console, consoleStep start (.writeStr s.tty.lineBuffer) = some console ∧
    SamePlace font fb s.console.cursor console.cursor

/-- The input does not end the line, and the screen is not scrolled for it. -/
def KeepsLine (font : Psf2Font) (fb : Framebuffer) (s : Echo) (c : Char) : Prop :=
  c ≠ '\n' ∧ c ≠ '\r' ∧
    (isErase c = false → isControl c = false → ¬ Scrolls font fb s.console.cursor c)

/-- If the input erases a character, then that one has a glyph exactly if the cursor is at least the width of
a character away from the left edge. -/
def ErasesWhatMoved (font : Psf2Font) (s : Echo) (c : Char) : Prop :=
  isErase c = true → ∀ d ∈ s.tty.lineBuffer.toList.getLast?,
    (d.toNat < font.header.length ↔ font.header.width ≤ s.console.cursorX)

instance (font : Psf2Font) (fb : Framebuffer) (s : Echo) (c : Char) : Decidable (KeepsLine font fb s c) :=
  inferInstanceAs (Decidable (_ ∧ _ ∧ (_ → _ → ¬ (_ ∧ _ ∧ _))))

instance (font : Psf2Font) (s : Echo) (c : Char) : Decidable (ErasesWhatMoved font s c) :=
  inferInstanceAs (Decidable (_ → ∀ d ∈ s.tty.lineBuffer.toList.getLast?, _))

/-! ## Positions -/

namespace EchoLemmas

open ConsoleBoundsLemmas

variable {font : Psf2Font} {fb : Framebuffer} {a b : Nat × Nat} {c : Char}

theorem samePlace_advance (h : FitsScreen font fb) (hab : SamePlace font fb a b) :
    SamePlace font fb (advance font fb a c) (advance font fb b c) := by
  have hle := h.width_le
  by_cases hc : c.toNat < font.header.length
  · rcases hab with rfl | ⟨hend, rfl⟩ | ⟨hend, rfl⟩
    · exact .inl rfl
    · left
      rw [advance_wraps hc hend, advance_in_row hc (by dsimp only; omega), Nat.zero_add]
    · left
      rw [advance_wraps hc hend, advance_in_row hc (by dsimp only; omega), Nat.zero_add]
  · rw [advance_no_glyph (Nat.le_of_not_lt hc), advance_no_glyph (Nat.le_of_not_lt hc)]
    exact hab

theorem not_scrolls_of_samePlace (h : FitsScreen font fb) (hab : SamePlace font fb a b)
    (hroom : a.2 + font.header.height ≤ fb.height) (ha : ¬ Scrolls font fb a c) :
    ¬ Scrolls font fb b c := by
  have hle := h.width_le
  rintro ⟨hc, hright, hdown⟩
  rcases hab with rfl | ⟨-, rfl⟩ | ⟨hend, rfl⟩
  · exact ha ⟨hc, hright, hdown⟩
  · dsimp only at hright
    omega
  · dsimp only at hroom
    omega

theorem samePlace_mk {ax ay bx bottom : Nat} : SamePlace font fb (ax, ay) (bx, bottom) ↔
    (ax = bx ∧ ay = bottom) ∨
    (ax + font.header.width > fb.width ∧ bx = 0 ∧ bottom = ay + font.header.height) ∨
    (bx + font.header.width > fb.width ∧ ax = 0 ∧ ay = bottom + font.header.height) := by
  simp only [SamePlace, RowEnd, Prod.mk.injEq]

/-- Going back moves the cursor by a character, or not at all. -/
theorem retreat_eq (font : Psf2Font) (ax ay : Nat) : ∃ x, retreat font (ax, ay) = (x, ay) ∧
    (font.header.width ≤ ax ∧ x + font.header.width = ax ∨ ax < font.header.width ∧ x = ax) := by
  by_cases hx : font.header.width ≤ ax
  · exact ⟨_, retreat_moves hx, .inl ⟨hx, Nat.sub_add_cancel hx⟩⟩
  · exact ⟨_, retreat_stays hx, .inr ⟨Nat.lt_of_not_le hx, rfl⟩⟩

/-- The cursor is at `a`, and without its last character `c` the line ends at `b`: going back agrees with
that exactly if it undoes what `c` did. -/
theorem samePlace_retreat_iff (h : FitsScreen font fb) (ha : a.1 ≤ fb.width)
    (hab : SamePlace font fb a (advance font fb b c)) :
    SamePlace font fb (retreat font a) b ↔ (c.toNat < font.header.length ↔ font.header.width ≤ a.1) := by
  have hle := h.width_le
  have hwidth := h.width_pos
  have hheight := h.height_pos
  obtain ⟨ax, ay⟩ := a
  obtain ⟨bx, bottom⟩ := b
  obtain ⟨x, hretreat, hx⟩ := retreat_eq font ax ay
  dsimp only at ha
  rw [hretreat, samePlace_mk]
  by_cases hc : c.toNat < font.header.length
  · by_cases hright : bx + font.header.width > fb.width
    · rw [advance_wraps hc hright, samePlace_mk] at hab
      omega
    · rw [advance_in_row hc hright, samePlace_mk] at hab
      omega
  · rw [advance_no_glyph (Nat.le_of_not_lt hc), samePlace_mk] at hab
    omega

/-! ## Lines -/

/-- Characters that are written from a position on without scrolling. -/
def InRows (font : Psf2Font) (fb : Framebuffer) : Nat × Nat → List Char → Prop
  | _, [] => True
  | pos, c :: cs => c ≠ '\n' ∧ ¬ Scrolls font fb pos c ∧ InRows font fb (advance font fb pos c) cs

theorem inRows_append : ∀ {cs ds : List Char} {pos : Nat × Nat}, InRows font fb pos (cs ++ ds) ↔
    InRows font fb pos cs ∧ InRows font fb (cs.foldl (advance font fb) pos) ds
  | [], _, _ => ⟨fun h => ⟨trivial, h⟩, fun h => h.2⟩
  | c :: cs, ds, pos => by
    have ih := @inRows_append cs ds (advance font fb pos c)
    simp only [List.cons_append, InRows, List.foldl_cons, ih]
    constructor
    · rintro ⟨hne, hscroll, hcs, hds⟩
      exact ⟨⟨hne, hscroll, hcs⟩, hds⟩
    · rintro ⟨⟨hne, hscroll, hcs⟩, hds⟩
      exact ⟨hne, hscroll, hcs, hds⟩

/-- `write_str` takes the cursor from character to character. -/
theorem writeStr_cursor (h : FitsScreen font fb) : ∀ {cs : List Char} {s : Console},
    CursorInside font fb s → InRows font fb s.cursor cs →
      (cs.foldl (written fb) s).cursor = cs.foldl (advance font fb) s.cursor
  | [], _, _, _ => rfl
  | c :: cs, s, hs, hrows => by
    obtain ⟨hne, hscroll, hrest⟩ := hrows
    have hcursor := written_cursor hs hne hscroll
    rw [← hcursor] at hrest
    rw [List.foldl_cons, List.foldl_cons, ← hcursor]
    exact writeStr_cursor h (CursorInside.written h hs c) hrest

/-! ## Inputs -/

/-- What an input other than a line end does. -/
theorem handleInput_cases (s : Echo) (hnl : c ≠ '\n') (hcr : c ≠ '\r') :
    -- the last character is erased
    (∃ line d, isErase c = true ∧ s.tty.lineBuffer.toList = line ++ [d] ∧
      s.handleInput c = (consoleStep s.console .backspace).map fun console =>
        ⟨⟨String.ofList line, s.tty.inputQueue⟩, console⟩) ∨
    -- there is nothing to erase, or a control character is ignored
    (s.handleInput c = some s ∧ (isErase c = true → s.tty.lineBuffer.toList = [])) ∨
    -- a character is added
    (isErase c = false ∧ isControl c = false ∧
      s.handleInput c = (consoleStep s.console (.writeChar c)).map fun console =>
        ⟨⟨s.tty.lineBuffer.push c, s.tty.inputQueue⟩, console⟩) := by
  have hline : ¬ (c = '\n' ∨ c = '\r') := fun h => h.elim hnl hcr
  have hone : ∀ (op : ConsoleOp) (tty : Tty),
      (run consoleStep s.console [op]).map (fun console => (⟨tty, console⟩ : Echo)) =
        (consoleStep s.console op).map fun console => ⟨tty, console⟩ := by
    intro op tty
    rw [run]
    cases consoleStep s.console op <;> rfl
  unfold Echo.handleInput Terminal.handleInput
  simp only [hline, ↓reduceIte]
  by_cases herase : c = '\x08' ∨ c = '\x7f'
  · have hflag : isErase c = true := decide_eq_true herase
    simp only [herase, ↓reduceIte, popChar]
    by_cases hempty : s.tty.lineBuffer = ""
    · right; left
      simp only [hempty, ↓reduceIte]
      exact ⟨rfl, fun _ => rfl⟩
    · left
      have hne : s.tty.lineBuffer.toList ≠ [] := fun hnil => hempty (String.toList_eq_nil_iff.mp hnil)
      refine ⟨s.tty.lineBuffer.toList.dropLast, s.tty.lineBuffer.toList.getLast hne, hflag,
        (List.dropLast_append_getLast hne).symm, ?_⟩
      simp only [hempty, ↓reduceIte]
      exact hone .backspace _
  · have hflag : isErase c = false := decide_eq_false herase
    simp only [herase, ↓reduceIte]
    cases hcontrol : isControl c with
    | true =>
      right; left
      exact ⟨rfl, fun h => absurd (hflag.symm.trans h) Bool.false_ne_true⟩
    | false =>
      right; right
      exact ⟨hflag, rfl, hone (.writeChar c) _⟩

/-- What holds as long as buffer and console agree. -/
structure EchoInv (font : Psf2Font) (fb : Framebuffer) (start : Console) (s : Echo) : Prop where
  inside : CursorInside font fb s.console
  rows : InRows font fb start.cursor s.tty.lineBuffer.toList
  same : SamePlace font fb s.console.cursor
    (s.tty.lineBuffer.toList.foldl (advance font fb) start.cursor)

variable {start : Console} {s s' : Echo}

theorem agrees_iff (h : FitsScreen font fb) (haddr : fb.Addressable) (hstart : CursorInside font fb start)
    (hrows : InRows font fb start.cursor s.tty.lineBuffer.toList) : EchoAgrees font fb start s ↔
      SamePlace font fb s.console.cursor
        (s.tty.lineBuffer.toList.foldl (advance font fb) start.cursor) := by
  rw [← writeStr_cursor h hstart hrows]
  unfold EchoAgrees
  rw [consoleStep_eq h haddr hstart]
  constructor
  · rintro ⟨console, hstep, hsame⟩
    cases hstep
    exact hsame
  · exact fun hsame => ⟨_, rfl, hsame⟩

/-- After an input that keeps the line the console is on the screen, the buffer can be written in rows, and the two
agree exactly if the input erased what had moved the cursor. -/
theorem handleInput_spec (h : FitsScreen font fb) (haddr : fb.Addressable)
    (hs : EchoInv font fb start s) (hc : KeepsLine font fb s c) :
    ∃ s', s.handleInput c = some s' ∧ CursorInside font fb s'.console ∧
      InRows font fb start.cursor s'.tty.lineBuffer.toList ∧
      (SamePlace font fb s'.console.cursor
        (s'.tty.lineBuffer.toList.foldl (advance font fb) start.cursor) ↔ ErasesWhatMoved font s c) := by
  obtain ⟨hnl, hcr, hquiet⟩ := hc
  obtain ⟨hin, hrows, hsame⟩ := hs
  rcases handleInput_cases s hnl hcr with ⟨line, d, herase, hline, hstep⟩ | ⟨hstep, hnothing⟩ |
    ⟨hkeep, hprint, hstep⟩
  · have hback := consoleStep_eq h haddr hin .backspace
    have hcursor : (erased fb s.console).cursor = retreat font s.console.cursor := erased_cursor hin
    rw [hline, List.foldl_append] at hsame
    have hlast : ErasesWhatMoved font s c ↔
        (d.toNat < font.header.length ↔ font.header.width ≤ s.console.cursorX) := by
      unfold ErasesWhatMoved
      rw [hline, List.getLast?_append, List.getLast?_singleton]
      constructor
      · exact fun hmoved => hmoved herase d rfl
      · intro hiff _ d' hd'
        cases Option.mem_def.mp hd'
        exact hiff
    refine ⟨_, by rw [hstep, hback]; rfl, CursorInside.erased hin, ?_, ?_⟩
    · rw [String.toList_ofList]
      rw [hline] at hrows
      exact (inRows_append.mp hrows).1
    · show SamePlace font fb (erased fb s.console).cursor _ ↔ _
      rw [hlast, hcursor, String.toList_ofList]
      exact samePlace_retreat_iff h hin.x_le hsame
  · refine ⟨s, hstep, hin, hrows, fun _ herase d hd => ?_, fun _ => hsame⟩
    rw [hnothing herase] at hd
    cases hd
  · have hscroll := hquiet hkeep hprint
    have hwrite := consoleStep_eq h haddr hin (.writeChar c)
    have hcursor : (written fb s.console c).cursor = advance font fb s.console.cursor c :=
      written_cursor hin hnl hscroll
    have hpush : (s.tty.lineBuffer.push c).toList = s.tty.lineBuffer.toList ++ [c] :=
      String.toList_push c
    refine ⟨_, by rw [hstep, hwrite]; rfl, CursorInside.written h hin c, ?_, fun _ herase => ?_, fun _ => ?_⟩
    · rw [hpush]
      exact inRows_append.mpr ⟨hrows, hnl, not_scrolls_of_samePlace h hsame hin.y_le hscroll, trivial⟩
    · rw [hkeep] at herase
      cases herase
    · show SamePlace font fb (written fb s.console c).cursor _
      rw [hcursor, hpush, List.foldl_append]
      exact samePlace_advance h hsame

/-- No input stops the console, whatever it asks for. -/
theorem handleInput_total (h : FitsScreen font fb) (haddr : fb.Addressable)
    (hin : CursorInside font fb s.console) (c : Char) :
    ∃ s', s.handleInput c = some s' ∧ CursorInside font fb s'.console := by
  have hstep : ∀ (m : Console) (op : ConsoleOp) (m' : Console), CursorInside font fb m →
      consoleStep m op = some m' → CursorInside font fb m' := by
    intro m op m' hm hop
    rw [effect_of_consoleStep h hm hop]
    exact CursorInside.effect h hm op
  obtain ⟨console, hrun⟩ := run_total (fun m op hm => ⟨_, consoleStep_eq h haddr hm op⟩) hstep hin
  exact ⟨_, by rw [Echo.handleInput, hrun]; rfl, run_invariant hstep hin hrun⟩

end EchoLemmas

open EchoLemmas

/-- For a font that fits the screen, an aligned framebuffer, and inputs that do not end the line and need no
scrolling: no input stops the kernel, and the cursor is always where writing the line buffer takes it exactly if
each character that is erased has a glyph, with the cursor at least its width away from the left edge, or has none,
with the cursor nearer to the edge than that. -/
theorem echo_agrees_iff {font : Psf2Font} {fb : Framebuffer} (h : FitsScreen font fb)
    (haddr : fb.Addressable) {start : Console} (hstart : CursorInside font fb start)
    {queue : List String} {input : List Char}
    (hinput : AllSteps Echo.handleInput (KeepsLine font fb) ⟨⟨"", queue⟩, start⟩ input) :
    (∃ s, run Echo.handleInput ⟨⟨"", queue⟩, start⟩ input = some s) ∧
    ((∀ before s, before <+: input → run Echo.handleInput ⟨⟨"", queue⟩, start⟩ before = some s →
      EchoAgrees font fb start s) ↔
    AllSteps Echo.handleInput (ErasesWhatMoved font) ⟨⟨"", queue⟩, start⟩ input) := by
  constructor
  · refine run_total (P := fun s : Echo => CursorInside font fb s.console) ?_ ?_ hstart
    · intro s c hin
      obtain ⟨s', hstep, -⟩ := handleInput_total h haddr hin c
      exact ⟨s', hstep⟩
    · intro s c s' hin hstep
      obtain ⟨s'', hstep', hin'⟩ := handleInput_total h haddr hin c
      rw [hstep] at hstep'
      cases hstep'
      exact hin'
  refine run_states_iff_of (I := EchoInv font fb start) (A := KeepsLine font fb) ?_ ?_ ?_
    ⟨hstart, trivial, .inl rfl⟩ hinput
  · intro s c s' hs hkeeps hmoved hstep
    obtain ⟨s'', hstep', hin, hrows, hsame⟩ := handleInput_spec h haddr hs hkeeps
    rw [hstep] at hstep'
    cases hstep'
    exact ⟨hin, hrows, hsame.mpr hmoved⟩
  · exact fun s hs => (agrees_iff h haddr hstart hs.rows).mpr hs.same
  · intro s c hs hkeeps hmoved
    obtain ⟨s', hstep, hin, hrows, hsame⟩ := handleInput_spec h haddr hs hkeeps
    exact ⟨s', hstep, fun hagrees => hmoved (hsame.mp ((agrees_iff h haddr hstart hrows).mp hagrees))⟩

/-- A font with the ASCII characters. -/
def asciiFont : Psf2Font := ⟨⟨32, 128, 8, 8, 8⟩, List.replicate 1024 0x3c⟩

theorem asciiFont_fits : FitsScreen asciiFont smallScreen := by
  constructor <;> decide +kernel

/-- Two characters and a backspace in the first row. -/
theorem echo_agrees_sample : ∃ s,
    run Echo.handleInput ⟨⟨"", []⟩, .new asciiFont smallScreen⟩ ['a', 'b', '\x08'] = some s ∧
    EchoAgrees asciiFont smallScreen (.new asciiFont smallScreen) s := by
  have hstart : CursorInside asciiFont smallScreen (.new asciiFont smallScreen) := by
    constructor <;> decide +kernel
  -- the line and the cursor behind each of the characters
  have hfirst : (Echo.handleInput ⟨⟨"", []⟩, .new asciiFont smallScreen⟩ 'a').map
      (fun s => (s.tty.lineBuffer, s.console.cursor)) = some ("a", (8, 0)) := by decide +kernel
  have hsecond : (run Echo.handleInput ⟨⟨"", []⟩, .new asciiFont smallScreen⟩ ['a', 'b']).map
      (fun s => (s.tty.lineBuffer, s.console.cursor)) = some ("ab", (16, 0)) := by decide +kernel
  have hkeeps : AllSteps Echo.handleInput (KeepsLine asciiFont smallScreen)
      ⟨⟨"", []⟩, .new asciiFont smallScreen⟩ ['a', 'b', '\x08'] := by
    refine ⟨by decide +kernel, fun s₁ h₁ => ⟨⟨by decide, by decide, fun _ _ => ?_⟩, fun s₂ h₂ =>
      ⟨⟨by decide, by decide, fun herase => absurd herase (by decide)⟩, fun _ _ => trivial⟩⟩⟩
    rw [h₁] at hfirst
    obtain ⟨-, hcursor⟩ := Prod.mk.inj (Option.some.inj hfirst)
    rw [hcursor]
    unfold Scrolls
    decide +kernel
  have hmoved : AllSteps Echo.handleInput (ErasesWhatMoved asciiFont)
      ⟨⟨"", []⟩, .new asciiFont smallScreen⟩ ['a', 'b', '\x08'] := by
    refine ⟨fun herase => absurd herase (by decide), fun s₁ h₁ => ⟨fun herase => absurd herase (by decide),
      fun s₂ h₂ => ⟨fun _ d hd => ?_, fun _ _ => trivial⟩⟩⟩
    rw [run_cons.mpr ⟨s₁, h₁, run_cons.mpr ⟨s₂, h₂, rfl⟩⟩] at hsecond
    obtain ⟨hline, hcursor⟩ := Prod.mk.inj (Option.some.inj hsecond)
    rw [hline] at hd
    rw [show s₂.console.cursorX = 16 from congrArg Prod.fst hcursor]
    cases hd
    decide +kernel
  obtain ⟨⟨s, hrun⟩, hagrees⟩ :=
    echo_agrees_iff asciiFont_fits smallScreen_addressable hstart hkeeps
  exact ⟨s, hrun, hagrees.mpr hmoved _ s (List.prefix_refl _) hrun⟩

/-- Two characters fit in a row. Of three, the last one is erased at the start of the second row, and erasing
the next one does not take the cursor back to the first. A character without a glyph is erased together with
the one before it on the screen, and alone in the buffer. -/
theorem erase_stops_at_row :
    (∃ s, run Echo.handleInput ⟨⟨"", []⟩, .new asciiFont smallScreen⟩ ['a', 'b', 'c', '\x08', '\x08'] =
      some s ∧ s.tty.lineBuffer = "a" ∧ s.console.cursor = (0, 8) ∧
      ¬ EchoAgrees asciiFont smallScreen (.new asciiFont smallScreen) s) ∧
    ∃ s, run Echo.handleInput ⟨⟨"", []⟩, .new asciiFont smallScreen⟩ ['a', 'é', '\x08'] = some s ∧
      s.tty.lineBuffer = "a" ∧ s.console.cursor = (0, 0) ∧
      ¬ EchoAgrees asciiFont smallScreen (.new asciiFont smallScreen) s := by
  have hwritten : (consoleStep (.new asciiFont smallScreen) (.writeStr "a")).map Console.cursor =
      some (8, 0) := by decide +kernel
  have hdisagrees : ∀ s : Echo, s.tty.lineBuffer = "a" →
      ¬ SamePlace asciiFont smallScreen s.console.cursor (8, 0) →
      ¬ EchoAgrees asciiFont smallScreen (.new asciiFont smallScreen) s := by
    rintro s hline hplace ⟨console, hconsole, hsame⟩
    rw [hline] at hconsole
    rw [hconsole] at hwritten
    have hcursor : console.cursor = (8, 0) := Option.some.inj hwritten
    rw [hcursor] at hsame
    exact hplace hsame
  have hsecond : (run Echo.handleInput ⟨⟨"", []⟩, .new asciiFont smallScreen⟩
      ['a', 'b', 'c', '\x08', '\x08']).map (fun s => (s.tty.lineBuffer, s.console.cursor)) =
        some ("a", (0, 8)) := by decide +kernel
  have hmissing : (run Echo.handleInput ⟨⟨"", []⟩, .new asciiFont smallScreen⟩ ['a', 'é', '\x08']).map
      (fun s => (s.tty.lineBuffer, s.console.cursor)) = some ("a", (0, 0)) := by decide +kernel
  obtain ⟨s, hrun, hs⟩ := Option.map_eq_some_iff.mp hsecond
  obtain ⟨s', hrun', hs'⟩ := Option.map_eq_some_iff.mp hmissing
  obtain ⟨hline, hcursor⟩ := Prod.mk.inj hs
  obtain ⟨hline', hcursor'⟩ := Prod.mk.inj hs'
  refine ⟨⟨s, hrun, hline, hcursor, hdisagrees s hline ?_⟩,
    ⟨s', hrun', hline', hcursor', hdisagrees s' hline' ?_⟩⟩
  · rw [hcursor, samePlace_mk]
    decide
  · rw [hcursor', samePlace_mk]
    decide

end Turnix
