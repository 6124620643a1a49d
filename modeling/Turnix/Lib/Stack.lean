import Mathlib.Data.BitVec
import Mathlib.Data.List.Basic
import Mathlib.Logic.Function.Basic

/-!
# Stacks of machine words

A memory of 64-bit words, by the addresses of the words, and a stack that grows downwards in it. A
push is refused where the stack may not be written. `pushWords_spec` says all that a sequence of
pushes does.
-/

namespace Turnix.Lib

/-- The words `ws` stand in memory from `a` on. -/
def WordsAt (mem : Nat → Nat) (a : Nat) (ws : List Nat) : Prop :=
  ∀ i w, ws[i]? = some w → mem (a + 8 * i) = w

/-- Push the words in order, the first one on top of `sp`. -/
def pushWords (ok : Nat → Bool) : List Nat → Nat → (Nat → Nat) → Option (Nat × (Nat → Nat))
  | [], sp, mem => some (sp, mem)
  | w :: ws, sp, mem =>
    if 8 ≤ sp ∧ ok (sp - 8) = true then pushWords ok ws (sp - 8) (Function.update mem (sp - 8) w)
    else none

theorem wordsAt_cons {mem : Nat → Nat} {a w : Nat} {ws : List Nat} :
    WordsAt mem a (w :: ws) ↔ mem a = w ∧ WordsAt mem (a + 8) ws := by
  constructor
  · intro h
    refine ⟨h 0 w rfl, fun i v hv => ?_⟩
    rw [show a + 8 + 8 * i = a + 8 * (i + 1) by omega]
    exact h (i + 1) v hv
  · rintro ⟨hw, hws⟩ i v hv
    cases i with
    | zero =>
      cases hv
      exact hw
    | succ i =>
      rw [show a + 8 * (i + 1) = a + 8 + 8 * i by omega]
      exact hws i v hv

theorem wordsAt_nil (mem : Nat → Nat) (a : Nat) : WordsAt mem a [] := by
  intro i w h
  cases h

theorem wordsAt_append {mem : Nat → Nat} {vs : List Nat} : ∀ {ws : List Nat} {a : Nat},
    WordsAt mem a (ws ++ vs) ↔ WordsAt mem a ws ∧ WordsAt mem (a + 8 * ws.length) vs
  | [], a => by
    rw [List.nil_append, List.length_nil, Nat.mul_zero, Nat.add_zero]
    exact ⟨fun h => ⟨wordsAt_nil mem a, h⟩, And.right⟩
  | w :: ws, a => by
    rw [List.cons_append, wordsAt_cons, wordsAt_cons, wordsAt_append, and_assoc, List.length_cons,
      show a + 8 * (ws.length + 1) = a + 8 + 8 * ws.length by omega]

theorem WordsAt.congr {mem mem' : Nat → Nat} {a : Nat} {ws : List Nat} (h : WordsAt mem a ws)
    (heq : ∀ i, i < ws.length → mem' (a + 8 * i) = mem (a + 8 * i)) : WordsAt mem' a ws := by
  intro i w hw
  obtain ⟨hi, -⟩ := List.getElem?_eq_some_iff.mp hw
  rw [heq i hi]
  exact h i w hw

/-- Pushes that are never refused need room only. -/
theorem pushWords_total : ∀ (ws : List Nat) (sp : Nat) (mem : Nat → Nat), 8 * ws.length ≤ sp →
    ∃ r, pushWords (fun _ => true) ws sp mem = some r
  | [], sp, mem, _ => ⟨(sp, mem), rfl⟩
  | w :: ws, sp, mem, h => by
    rw [List.length_cons] at h
    have hsp : 8 ≤ sp := by omega
    show ∃ r, (if 8 ≤ sp ∧ true = true then _ else none) = some r
    rw [if_pos ⟨hsp, rfl⟩]
    exact pushWords_total ws (sp - 8) _ (by omega)

/-- After the pushes the words stand on the stack, last one lowest; nothing else has changed; and
every word that was written may be written. -/
theorem pushWords_spec {ok : Nat → Bool} : ∀ {ws : List Nat} {sp sp' : Nat} {mem mem' : Nat → Nat},
    pushWords ok ws sp mem = some (sp', mem') →
      sp' + 8 * ws.length = sp ∧ WordsAt mem' sp' ws.reverse ∧
      (∀ a, (∀ i, i < ws.length → a ≠ sp' + 8 * i) → mem' a = mem a) ∧
      ∀ i, i < ws.length → ok (sp' + 8 * i) = true
  | [], sp, sp', mem, mem', h => by
    cases h
    exact ⟨rfl, wordsAt_nil _ _, fun _ _ => rfl, fun i hi => absurd hi (Nat.not_lt_zero i)⟩
  | w :: ws, sp, sp', mem, mem', h => by
    unfold pushWords at h
    split at h
    · next hok =>
      obtain ⟨hsp, hws, hsame, hwrit⟩ := pushWords_spec h
      have hlen : (w :: ws).length = ws.length + 1 := rfl
      refine ⟨by omega, ?_, fun a ha => ?_, fun i hi => ?_⟩
      · rw [List.reverse_cons, wordsAt_append, List.length_reverse, wordsAt_cons]
        refine ⟨hws, ?_, wordsAt_nil _ _⟩
        rw [hsp, hsame _ (fun i hi => by omega), Function.update_self]
      · have hlast := ha ws.length (by omega)
        rw [hsame a fun i hi => ha i (by omega), Function.update_of_ne (by omega)]
      · by_cases hlast : i < ws.length
        · exact hwrit i hlast
        · rw [show sp' + 8 * i = sp - 8 by omega]
          exact hok.2
    · cases h

end Turnix.Lib
