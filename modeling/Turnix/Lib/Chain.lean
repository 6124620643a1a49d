import Mathlib.Data.List.Nodup

/-!
# Singly linked lists

A list that is threaded through a store: each node names the next one, and the last one names none. A list that
comes to its end visits no node twice (`Chain.nodup`), and only its own nodes matter (`Chain.congr`).
-/

namespace Turnix.Lib

variable {β : Type} {next next' : β → Option β} {link : Option β} {a : β} {l l' : List β}

/-- From `link` on the nodes are those of the list, in its order. -/
inductive Chain (next : β → Option β) : Option β → List β → Prop
  | nil : Chain next none []
  | cons {a : β} {l : List β} : Chain next (next a) l → Chain next (some a) (a :: l)

theorem chain_nil_iff : Chain next link [] ↔ link = none := by
  constructor
  · intro h
    cases h
    rfl
  · rintro rfl
    exact .nil

theorem chain_cons_iff : Chain next link (a :: l) ↔ link = some a ∧ Chain next (next a) l := by
  constructor
  · intro h
    cases h with
    | cons h => exact ⟨rfl, h⟩
  · rintro ⟨rfl, h⟩
    exact .cons h

theorem Chain.congr (h : Chain next link l) (hsame : ∀ b ∈ l, next' b = next b) : Chain next' link l := by
  induction h with
  | nil => exact .nil
  | cons _ ih =>
    refine .cons ?_
    rw [hsame _ List.mem_cons_self]
    exact ih fun b hb => hsame b (List.mem_cons_of_mem _ hb)

theorem Chain.unique (h : Chain next link l) : ∀ {l'}, Chain next link l' → l = l' := by
  induction h with
  | nil =>
    intro l' h'
    cases h'
    rfl
  | cons _ ih =>
    intro l' h'
    cases h' with
    | cons h' => rw [ih h']

/-- Every node begins the rest of the list. -/
theorem Chain.rest (h : Chain next link l) : a ∈ l → ∃ l', Chain next (some a) (a :: l') ∧ l'.length < l.length := by
  induction h with
  | nil => exact fun ha => absurd ha List.not_mem_nil
  | cons h ih =>
    intro ha
    rcases List.mem_cons.mp ha with rfl | ha
    · exact ⟨_, .cons h, Nat.lt_succ_self _⟩
    · obtain ⟨l', hrest, hlt⟩ := ih ha
      exact ⟨l', hrest, Nat.lt_succ_of_lt hlt⟩

theorem Chain.nodup (h : Chain next link l) : l.Nodup := by
  induction h with
  | nil => exact List.nodup_nil
  | cons h ih =>
    refine List.nodup_cons.mpr ⟨fun ha => ?_, ih⟩
    -- the rest from the second visit on would be the whole rest
    obtain ⟨l', hrest, hlt⟩ := h.rest ha
    cases (Chain.cons h).unique hrest
    exact Nat.lt_irrefl _ hlt

end Turnix.Lib
