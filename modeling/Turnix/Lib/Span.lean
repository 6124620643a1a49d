import Mathlib.Data.BitVec
import Mathlib.Data.List.FinRange
import Mathlib.Data.List.Pairwise
import Mathlib.Data.List.Perm.Basic
import Mathlib.Logic.Function.Basic

/-!
# Spans of memory

A span is a start and a size. A list of spans is packed into an arena if its members lie in the
arena and no two of them overlap. An allocator only moves spans between its lists and replaces a span
by parts of it; the rules below say that both keep the spans packed.
-/

namespace Turnix.Lib

/-- The bytes `start .. start + size`. -/
structure Span where
  start : Nat
  size : Nat
deriving DecidableEq, Repr

namespace Span

/-- No byte is in both. -/
def Disjoint (a b : Span) : Prop := a.start + a.size ≤ b.start ∨ b.start + b.size ≤ a.start

/-- Every byte of `a` is in `b`. -/
def Within (a b : Span) : Prop := b.start ≤ a.start ∧ a.start + a.size ≤ b.start + b.size

instance (a b : Span) : Decidable (a.Disjoint b) := inferInstanceAs (Decidable (_ ∨ _))

instance (a b : Span) : Decidable (a.Within b) := inferInstanceAs (Decidable (_ ∧ _))

theorem Disjoint.symm {a b : Span} (h : a.Disjoint b) : b.Disjoint a := Or.symm h

theorem Within.refl (a : Span) : a.Within a := ⟨Nat.le_refl _, Nat.le_refl _⟩

theorem Within.trans {a b c : Span} (hab : a.Within b) (hbc : b.Within c) : a.Within c :=
  ⟨Nat.le_trans hbc.1 hab.1, Nat.le_trans hab.2 hbc.2⟩

theorem Disjoint.mono {a b a' b' : Span} (h : a.Disjoint b) (ha : a'.Within a) (hb : b'.Within b) :
    a'.Disjoint b' := by
  obtain ⟨ha1, ha2⟩ := ha
  obtain ⟨hb1, hb2⟩ := hb
  rcases h with h | h
  · left
    omega
  · right
    omega

end Span

/-- The spans lie in the arena and no two of them overlap. -/
structure Packed (arena : Span) (l : List Span) : Prop where
  separated : l.Pairwise Span.Disjoint
  inside : ∀ a ∈ l, a.Within arena

theorem Packed.perm {arena : Span} {l l' : List Span} (h : Packed arena l) (hp : l.Perm l') :
    Packed arena l' :=
  ⟨hp.pairwise h.separated fun hab => hab.symm, fun a ha => h.inside a (hp.mem_iff.mpr ha)⟩

/-- A span may be replaced by parts of it that do not overlap. -/
theorem Packed.replace {arena a : Span} {parts rest : List Span} (h : Packed arena (a :: rest))
    (hparts : parts.Pairwise Span.Disjoint) (hin : ∀ b ∈ parts, b.Within a) :
    Packed arena (parts ++ rest) := by
  obtain ⟨ha, hrest⟩ := List.pairwise_cons.mp h.separated
  constructor
  · refine List.pairwise_append.mpr ⟨hparts, hrest, ?_⟩
    intro b hb c hc
    exact (ha c hc).mono (hin b hb) (Span.Within.refl c)
  · intro b hb
    rcases List.mem_append.mp hb with hb | hb
    · exact (hin b hb).trans (h.inside a List.mem_cons_self)
    · exact h.inside b (List.mem_cons_of_mem a hb)

/-- A span may be dropped. -/
theorem Packed.tail {arena a : Span} {rest : List Span} (h : Packed arena (a :: rest)) :
    Packed arena rest :=
  ⟨(List.pairwise_cons.mp h.separated).2, fun b hb => h.inside b (List.mem_cons_of_mem a hb)⟩

/-- The bytes of all spans together. -/
def totalSize (l : List Span) : Nat := (l.map Span.size).sum

theorem totalSize_cons (a : Span) (l : List Span) : totalSize (a :: l) = a.size + totalSize l := by
  rw [totalSize, List.map_cons, List.sum_cons, totalSize]

theorem totalSize_append (l l' : List Span) : totalSize (l ++ l') = totalSize l + totalSize l' := by
  rw [totalSize, List.map_append, List.sum_append, totalSize, totalSize]

theorem totalSize_perm {l l' : List Span} (h : l.Perm l') : totalSize l = totalSize l' :=
  (h.map Span.size).sum_nat

/-- Change one of the lists a family holds: the lists together are the changed one and a rest that
stays. -/
theorem flatMap_update_perm {α : Type*} {n : Nat} (f : Fin n → List α) (i : Fin n) :
    ∃ rest, ∀ l, ((List.finRange n).flatMap (Function.update f i l)).Perm (l ++ rest) := by
  refine ⟨((List.finRange n).erase i).flatMap f, fun l => ?_⟩
  have hperm := (List.perm_cons_erase (List.mem_finRange i)).flatMap_right (Function.update f i l)
  rw [List.flatMap_cons, Function.update_self] at hperm
  have hrest : ((List.finRange n).erase i).flatMap (Function.update f i l) =
      ((List.finRange n).erase i).flatMap f := by
    refine List.flatMap_congr fun j hj => ?_
    have hne : j ≠ i := fun h =>
      (List.nodup_finRange n).not_mem_erase (h ▸ hj)
    rw [Function.update_of_ne hne]
  rwa [hrest] at hperm

end Turnix.Lib
