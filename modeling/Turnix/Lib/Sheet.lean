import Mathlib.Data.BitVec
import Mathlib.Logic.Function.Basic

/-!
# Text on an endless sheet

Lines of text of at most `cols` columns, one below the other, and a window that is moved down over them. A line
takes `h` rows of dots. The lines that fit into the window at first lie at its upper edge; every later one comes in
at the lower edge, when the window moves down by one line. So if `h` does not divide the height of the window then
a strip is left free above the first line that comes in.
-/

namespace Turnix.Lib

variable {α : Type} {cols : Nat}

/-! ## Lines -/

/-- A line of text. `drawn` columns have been written to at some time; the text may have become shorter since. -/
structure TextLine (α : Type) (cols : Nat) where
  text : List α
  drawn : Nat
  text_le : text.length ≤ drawn
  drawn_le : drawn ≤ cols

namespace TextLine

def blank : TextLine α cols := ⟨[], 0, Nat.le_refl 0, Nat.zero_le cols⟩

/-- Write behind the text. -/
def push (l : TextLine α cols) (c : α) (h : l.text.length < cols) : TextLine α cols where
  text := l.text ++ [c]
  drawn := max l.drawn (l.text.length + 1)
  text_le := by
    rw [List.length_append, List.length_singleton]
    exact Nat.le_max_right _ _
  drawn_le := Nat.max_le.mpr ⟨l.drawn_le, h⟩

/-- Take the last character back. -/
def erase (l : TextLine α cols) : TextLine α cols where
  text := l.text.dropLast
  drawn := l.drawn
  text_le := by
    rw [List.length_dropLast]
    exact (Nat.sub_le _ _).trans l.text_le
  drawn_le := l.drawn_le

/-- The cell in a column: the character in it, or else whether it has been drawn. -/
def cell (l : TextLine α cols) (col : Nat) : Option α × Bool := (l.text[col]?, decide (col < l.drawn))

theorem cell_blank (col : Nat) : (blank : TextLine α cols).cell col = (none, false) := rfl

theorem cell_push {l : TextLine α cols} {c : α} (h : l.text.length < cols) (col : Nat) :
    (l.push c h).cell col = if col = l.text.length then (some c, true) else l.cell col := by
  unfold cell push
  dsimp only
  by_cases hcol : col = l.text.length
  · subst hcol
    rw [if_pos rfl, List.getElem?_concat_length, decide_eq_true (by omega)]
  · have hdrawn : (col < max l.drawn (l.text.length + 1)) ↔ col < l.drawn := by
      have := l.text_le
      omega
    rw [if_neg hcol, List.getElem?_append, decide_eq_decide.mpr hdrawn]
    by_cases hlt : col < l.text.length
    · rw [if_pos hlt]
    · rw [if_neg hlt, List.getElem?_eq_none (Nat.le_of_not_lt hlt), List.getElem?_eq_none]
      rw [List.length_singleton]
      omega

theorem cell_erase (l : TextLine α cols) (hne : l.text ≠ []) (col : Nat) :
    l.erase.cell col = if col = l.text.length - 1 then (none, true) else l.cell col := by
  have hpos := List.length_pos_of_ne_nil hne
  have hle := l.text_le
  unfold cell erase
  dsimp only
  rw [List.getElem?_dropLast]
  by_cases hcol : col = l.text.length - 1
  · rw [if_neg (by omega), if_pos hcol, decide_eq_true (by omega)]
  · rw [if_neg hcol]
    by_cases hlt : col < l.text.length - 1
    · rw [if_pos hlt]
    · rw [if_neg hlt, List.getElem?_eq_none (by omega)]

end TextLine

/-! ## Sheets -/

/-- Lines without end, written up to `current`. -/
structure Sheet (α : Type) (cols : Nat) where
  current : Nat
  line : Nat → TextLine α cols
  rest : ∀ n, current < n → line n = .blank

namespace Sheet

def blank : Sheet α cols := ⟨0, fun _ => .blank, fun _ _ => rfl⟩

/-- The line that is written. -/
def last (d : Sheet α cols) : TextLine α cols := d.line d.current

def newline (d : Sheet α cols) : Sheet α cols :=
  ⟨d.current + 1, d.line, fun n hn => d.rest n (Nat.lt_of_succ_lt hn)⟩

def setLast (d : Sheet α cols) (l : TextLine α cols) : Sheet α cols where
  current := d.current
  line := Function.update d.line d.current l
  rest n hn := by
    rw [Function.update_of_ne (Nat.ne_of_gt hn)]
    exact d.rest n hn

/-- Write behind the text of the last line, if there is room. -/
def push (c : α) (d : Sheet α cols) : Sheet α cols :=
  if h : d.last.text.length < cols then d.setLast (d.last.push c h) else d

/-- Write behind the text, in a new line if the last one is full. -/
def write (c : α) (d : Sheet α cols) : Sheet α cols :=
  if d.last.text.length < cols then d.push c else d.newline.push c

/-- Take the last character of the last line back. -/
def erase (d : Sheet α cols) : Sheet α cols := d.setLast d.last.erase

theorem last_newline (d : Sheet α cols) : d.newline.last = .blank := d.rest _ (Nat.lt_succ_self _)

theorem last_setLast (d : Sheet α cols) (l : TextLine α cols) : (d.setLast l).last = l :=
  Function.update_self ..

theorem last_push {d : Sheet α cols} {c : α} (h : d.last.text.length < cols) :
    d.push c = d.setLast (d.last.push c h) := dif_pos h

/-- There is nothing to take back in an empty line. -/
theorem erase_of_empty {d : Sheet α cols} (h : d.last.text = []) : d.erase = d := by
  have hline : d.last.erase = d.line d.current := by
    have htext : d.last.text.dropLast = (d.line d.current).text := by
      rw [h, List.dropLast_nil]
      exact h.symm
    unfold TextLine.erase
    congr 1
  unfold erase setLast
  congr 1
  rw [hline, Function.update_eq_self]

theorem line_setLast_of_ne {d : Sheet α cols} {l : TextLine α cols} {n : Nat} (hn : n ≠ d.current) :
    (d.setLast l).line n = d.line n := Function.update_of_ne hn ..

end Sheet

/-! ## The window -/

section Window

variable (h height : Nat)

/-- The row of the sheet in which a line begins. -/
def lineTop (n : Nat) : Nat := n * h + if n < height / h then 0 else height % h

/-- How far the window has moved down when line `n` is written. -/
def scrolled (n : Nat) : Nat := (n + 1 - height / h) * h

/-- The row of the window in which the line that is written begins. -/
def lineY (n : Nat) : Nat := lineTop h height n - scrolled h height n

/-- The line to which a row of the sheet belongs, and which of its rows it is. -/
def lineAt (row : Nat) : Option (Nat × Nat) :=
  if row < height / h * h then some (row / h, row % h)
  else if row < height then none
  else some ((row - height % h) / h, (row - height % h) % h)

variable {h height}

/-- There is room for another line: the window stays where it is. -/
theorem next_line_in_window {n : Nat} (hn : n + 1 < height / h) : lineY h height n + 2 * h ≤ height ∧
    scrolled h height (n + 1) = scrolled h height n ∧ lineY h height (n + 1) = lineY h height n + h := by
  have hmod := Nat.div_add_mod height h
  have hcomm := Nat.mul_comm h (height / h)
  have hline : (n + 2) * h ≤ height / h * h := Nat.mul_le_mul_right h hn
  have hsucc : (n + 1) * h = n * h + h := by rw [Nat.add_mul, Nat.one_mul]
  have htwo : (n + 2) * h = n * h + 2 * h := Nat.add_mul ..
  have hzero : scrolled h height n = 0 := by
    unfold scrolled
    rw [Nat.sub_eq_zero_of_le (by omega), Nat.zero_mul]
  have hzero' : scrolled h height (n + 1) = 0 := by
    unfold scrolled
    rw [Nat.sub_eq_zero_of_le hn, Nat.zero_mul]
  unfold lineY lineTop
  rw [hzero, hzero', if_pos hn, if_pos (by omega)]
  omega

variable (hpos : 0 < h) (hle : h ≤ height)

include hpos

theorem lineAt_lineTop {n k : Nat} (hk : k < h) : lineAt h height (lineTop h height n + k) = some (n, k) := by
  have hmod := Nat.div_add_mod height h
  unfold lineAt lineTop
  by_cases hn : n < height / h
  · have hrows : (n + 1) * h ≤ height / h * h := Nat.mul_le_mul_right h hn
    rw [Nat.add_mul, Nat.one_mul] at hrows
    rw [if_pos hn, Nat.add_zero, if_pos (by omega), Nat.mul_comm n, Nat.mul_add_div hpos, Nat.mul_add_mod,
      Nat.div_eq_of_lt hk, Nat.mod_eq_of_lt hk, Nat.add_zero]
  · have hrows : height / h * h ≤ n * h := Nat.mul_le_mul_right h (Nat.le_of_not_lt hn)
    have hcomm := Nat.mul_comm h (height / h)
    have hrow : n * h + height % h + k - height % h = h * n + k := by
      rw [Nat.mul_comm h]
      omega
    rw [if_neg hn, if_neg (by omega), if_neg (by omega), hrow, Nat.mul_add_div hpos, Nat.mul_add_mod,
      Nat.div_eq_of_lt hk, Nat.mod_eq_of_lt hk, Nat.add_zero]

/-- The rows of a line are those from its first one on, and no row belongs to two lines. -/
theorem lineAt_eq_some_iff {row n k : Nat} :
    lineAt h height row = some (n, k) ↔ k < h ∧ row = lineTop h height n + k := by
  constructor
  · intro heq
    have hmod := Nat.div_add_mod height h
    have hcomm := Nat.mul_comm h (height / h)
    unfold lineAt at heq
    split at heq
    · next hrow =>
      cases heq
      have hlt : row / h < height / h := Nat.div_lt_of_lt_mul (by rwa [Nat.mul_comm] at hrow)
      have hdiv := Nat.div_add_mod row h
      rw [Nat.mul_comm] at hdiv
      exact ⟨Nat.mod_lt row hpos, by rw [lineTop, if_pos hlt]; omega⟩
    · split at heq
      · cases heq
      · cases heq
        have hge : ¬ (row - height % h) / h < height / h := by
          rw [Nat.not_lt, Nat.le_div_iff_mul_le hpos]
          omega
        have hdiv := Nat.div_add_mod (row - height % h) h
        rw [Nat.mul_comm] at hdiv
        exact ⟨Nat.mod_lt _ hpos, by rw [lineTop, if_neg hge]; omega⟩
  · rintro ⟨hk, rfl⟩
    exact lineAt_lineTop hpos hk

include hle

theorem rows_pos : 0 < height / h := Nat.div_pos hle hpos

/-- The line that is written lies in the window. -/
theorem lineY_spec (n : Nat) : lineTop h height n = scrolled h height n + lineY h height n ∧
    lineY h height n + h ≤ height := by
  have hmod := Nat.div_add_mod height h
  have hrows := rows_pos hpos hle
  unfold lineY lineTop scrolled
  by_cases hn : n < height / h
  · have hline : (n + 1) * h ≤ height / h * h := Nat.mul_le_mul_right h hn
    have hcomm := Nat.mul_comm h (height / h)
    rw [Nat.add_mul, Nat.one_mul] at hline
    rw [if_pos hn, Nat.sub_eq_zero_of_le hn, Nat.zero_mul]
    omega
  · obtain ⟨extra, rfl⟩ := Nat.exists_eq_add_of_le (Nat.le_of_not_lt hn)
    have hcomm := Nat.mul_comm h (height / h)
    have hscroll : (height / h + extra + 1 - height / h) * h = extra * h + h := by
      rw [Nat.add_assoc, Nat.add_sub_cancel_left, Nat.add_mul, Nat.one_mul]
    have hone : h ≤ height / h * h := Nat.le_mul_of_pos_left h hrows
    rw [if_neg hn, hscroll, Nat.add_mul]
    omega

/-- There is no room for another line: the window moves down. -/
theorem next_line_scrolls {n : Nat} (hn : height / h ≤ n + 1) : height < lineY h height n + 2 * h ∧
    scrolled h height (n + 1) = scrolled h height n + h ∧ lineY h height (n + 1) = height - h := by
  have hmod := Nat.div_add_mod height h
  have hcomm := Nat.mul_comm h (height / h)
  have hlt := Nat.mod_lt height hpos
  have hrows := rows_pos hpos hle
  obtain ⟨extra, hextra⟩ := Nat.exists_eq_add_of_le hn
  have hone : h ≤ height / h * h := Nat.le_mul_of_pos_left h hrows
  have hscrolled : scrolled h height n = extra * h := by
    unfold scrolled
    rw [hextra, Nat.add_sub_cancel_left]
  have hscrolled' : scrolled h height (n + 1) = extra * h + h := by
    unfold scrolled
    rw [hextra, Nat.add_assoc, Nat.add_sub_cancel_left, Nat.add_mul, Nat.one_mul]
  have hnext : (n + 1) * h = height / h * h + extra * h := by rw [hextra, Nat.add_mul]
  have hsucc : (n + 1) * h = n * h + h := by rw [Nat.add_mul, Nat.one_mul]
  refine ⟨?_, by rw [hscrolled, hscrolled'], ?_⟩
  · unfold lineY lineTop
    rw [hscrolled]
    split
    · next hfirst =>
      have hextra' : extra = 0 := by omega
      subst hextra'
      omega
    · omega
  · unfold lineY lineTop
    rw [hscrolled', if_neg (by omega)]
    omega

/-- What comes in at the lower edge is the new line. -/
theorem lineAt_below {n y : Nat} (hn : height / h ≤ n + 1) (hy : y < height) (hlow : height - h ≤ y) :
    height ≤ scrolled h height (n + 1) + y ∧
      lineAt h height (scrolled h height (n + 1) + y) = some (n + 1, y - (height - h)) := by
  obtain ⟨-, hmoved, hnew⟩ := next_line_scrolls hpos hle hn
  obtain ⟨htop, -⟩ := lineY_spec hpos hle (n + 1)
  refine ⟨by omega, ?_⟩
  rw [lineAt_eq_some_iff hpos]
  omega

end Window

end Turnix.Lib
