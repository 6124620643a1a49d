import Mathlib.Data.BitVec
import Mathlib.Logic.Basic
import Mathlib.Order.Defs.Unbundled

/-!
# Code with a state that may panic

A computation ends with a value or in a panic, and in both cases in a state: what was written before a
panic stays written. `Ends` says what holds at the two kinds of end, and the rules below derive it for a
composed computation from that of its parts.
-/

namespace Turnix.Lib

/-- A computation on `σ` that returns an `α` or panics. -/
def PanicM (σ α : Type) : Type := σ → Option α × σ

namespace PanicM

variable {σ α β : Type}

instance : Monad (PanicM σ) where
  pure a := fun s => (some a, s)
  bind x f := fun s =>
    match x s with
    | (some a, s) => f a s
    | (none, s) => (none, s)

/-- A panic. -/
def fail : PanicM σ α := fun s => (none, s)

/-- Read the state. -/
def get : PanicM σ σ := fun s => (some s, s)

/-- Change the state. -/
def modify (f : σ → σ) : PanicM σ Unit := fun s => (some (), f s)

/-- `unwrap` and `expect`. -/
def expect : Option α → PanicM σ α
  | some a => pure a
  | none => fail

/-- `assert!`. -/
def ensure (b : Bool) : PanicM σ Unit := if b then pure () else fail

/-- `for i in start..start + count`. -/
def forRange (f : Nat → PanicM σ Unit) : Nat → Nat → PanicM σ Unit
  | 0, _ => pure ()
  | count + 1, start => do
    f start
    forRange f count (start + 1)

/-- A computation on a part of the state. -/
def zoom {τ : Type} (part : σ → τ) (put : τ → σ → σ) (x : PanicM τ α) : PanicM σ α := fun s =>
  ((x (part s)).1, put (x (part s)).2 s)

/-- What the computation returns, and the state at its end. -/
def result (x : PanicM σ α) (s : σ) : Option (α × σ) :=
  match x s with
  | (some a, s') => some (a, s')
  | (none, _) => none

/-- From `s` the computation returns with `Q`, or it panics with `E`. -/
def Ends (x : PanicM σ α) (s : σ) (Q : α → σ → Prop) (E : σ → Prop) : Prop :=
  match x s with
  | (some a, s') => Q a s'
  | (none, s') => E s'

theorem ends_pure {a : α} {s : σ} {Q : α → σ → Prop} {E : σ → Prop} :
    Ends (pure a) s Q E ↔ Q a s := Iff.rfl

theorem ends_get {s : σ} {Q : σ → σ → Prop} {E : σ → Prop} : Ends get s Q E ↔ Q s s := Iff.rfl

theorem ends_bind {x : PanicM σ α} {f : α → PanicM σ β} {s : σ} {Q : β → σ → Prop}
    {E : σ → Prop} : Ends (x >>= f) s Q E ↔ Ends x s (fun a s' => Ends (f a) s' Q E) E := by
  unfold Ends
  show (match (match x s with
    | (some a, s) => f a s
    | (none, s) => (none, s) : Option β × σ) with
    | (some a, s') => Q a s'
    | (none, s') => E s') ↔ _
  rcases x s with ⟨_ | a, s'⟩ <;> exact Iff.rfl

theorem ends_expect {o : Option α} {s : σ} {Q : α → σ → Prop} {E : σ → Prop} :
    Ends (expect o) s Q E ↔ (∀ a, o = some a → Q a s) ∧ (o = none → E s) := by
  cases o with
  | none => exact ⟨fun h => ⟨nofun, fun _ => h⟩, fun h => h.2 rfl⟩
  | some a => exact ⟨fun h => ⟨fun b hb => Option.some.inj hb ▸ h, nofun⟩, fun h => h.1 a rfl⟩

theorem ends_ensure {b : Bool} {s : σ} {Q : Unit → σ → Prop} {E : σ → Prop} :
    Ends (ensure b) s Q E ↔ (b = true → Q () s) ∧ (b = false → E s) := by
  cases b with
  | true => exact ⟨fun h => ⟨fun _ => h, nofun⟩, fun h => h.1 rfl⟩
  | false => exact ⟨fun h => ⟨nofun, fun _ => h⟩, fun h => h.2 rfl⟩

theorem ends_modify {f : σ → σ} {s : σ} {Q : Unit → σ → Prop} {E : σ → Prop} :
    Ends (modify f) s Q E ↔ Q () (f s) := Iff.rfl

theorem ends_zoom {τ : Type} {part : σ → τ} {put : τ → σ → σ} {x : PanicM τ α} {s : σ} {Q : α → σ → Prop}
    {E : σ → Prop} : Ends (zoom part put x) s Q E ↔
      Ends x (part s) (fun a t => Q a (put t s)) fun t => E (put t s) := by
  unfold Ends zoom
  rcases x (part s) with ⟨_ | a, t⟩ <;> exact Iff.rfl

/-- Two continuations that agree on what the first part returns. -/
theorem bind_congr_at {x : PanicM σ α} {f g : α → PanicM σ β} {s : σ}
    (h : ∀ a s', x s = (some a, s') → f a s' = g a s') : (x >>= f) s = (x >>= g) s := by
  show (match x s with
    | (some a, s) => f a s
    | (none, s) => (none, s)) = (match x s with
    | (some a, s) => g a s
    | (none, s) => (none, s))
  rcases hx : x s with ⟨_ | a, s'⟩
  · rfl
  · exact h a s' hx

theorem forRange_congr {f g : Nat → PanicM σ Unit} : ∀ {count start : Nat},
    (∀ i, start ≤ i → i < start + count → f i = g i) → forRange f count start = forRange g count start
  | 0, _, _ => rfl
  | count + 1, start, h => by
    unfold forRange
    rw [h start (Nat.le_refl _) (by omega), forRange_congr fun i hi hlt => h i (by omega) (by omega)]

theorem Ends.mono {x : PanicM σ α} {s : σ} {Q Q' : α → σ → Prop} {E E' : σ → Prop}
    (h : Ends x s Q E) (hQ : ∀ a s', Q a s' → Q' a s') (hE : ∀ s', E s' → E' s') :
    Ends x s Q' E' := by
  unfold Ends at h ⊢
  rcases hx : x s with ⟨_ | a, s'⟩ <;> rw [hx] at h
  · exact hE s' h
  · exact hQ a s' h

theorem result_eq_some {x : PanicM σ α} {s s' : σ} {a : α} :
    x.result s = some (a, s') ↔ x s = (some a, s') := by
  unfold result
  rcases x s with ⟨_ | b, s''⟩
  · exact ⟨nofun, nofun⟩
  · constructor
    · intro h
      cases h
      rfl
    · intro h
      cases h
      rfl

/-- What holds at the return of a computation that returns. -/
theorem Ends.returns {x : PanicM σ α} {s s' : σ} {a : α} {Q : α → σ → Prop} {E : σ → Prop}
    (h : Ends x s Q E) (hx : x.result s = some (a, s')) : Q a s' := by
  unfold Ends at h
  rw [result_eq_some.mp hx] at h
  exact h

theorem Ends.with_result {x : PanicM σ α} {s : σ} {Q : α → σ → Prop} {E : σ → Prop} (h : Ends x s Q E) :
    Ends x s (fun a s' => x.result s = some (a, s') ∧ Q a s') E := by
  unfold Ends at h ⊢
  rcases hx : x s with ⟨_ | a, s'⟩ <;> rw [hx] at h
  · exact h
  · exact ⟨result_eq_some.mpr hx, h⟩

/-- What holds at the panic of a computation that panics. -/
theorem Ends.panics {x : PanicM σ α} {s : σ} {Q : α → σ → Prop} {E : σ → Prop} (h : Ends x s Q E)
    (hx : (x s).1.isNone = true) : E (x s).2 := by
  unfold Ends at h
  rcases hs : x s with ⟨_ | a, s'⟩ <;> rw [hs] at h hx
  · exact h
  · cases hx

/-- A computation that has no way to panic returns. -/
theorem Ends.total {x : PanicM σ α} {s : σ} {Q : α → σ → Prop} (h : Ends x s Q fun _ => False) :
    ∃ a s', x.result s = some (a, s') ∧ Q a s' := by
  unfold Ends at h
  rcases hx : x s with ⟨_ | a, s'⟩ <;> rw [hx] at h
  · exact h.elim
  · exact ⟨a, s', result_eq_some.mpr hx, h⟩

/-- What holds at the end, if it holds at both kinds of end. -/
theorem Ends.always {x : PanicM σ α} {s : σ} {E : σ → Prop} (h : Ends x s (fun _ => E) E) :
    E (x s).2 := by
  unfold Ends at h
  rcases hx : x s with ⟨_ | a, s'⟩ <;> rw [hx] at h <;> exact h

/-- The rule for a loop, with an invariant that is indexed by the turn. -/
theorem ends_forRange {f : Nat → PanicM σ Unit} {I : Nat → σ → Prop} {E : σ → Prop} :
    ∀ {count start : Nat} {s : σ}, I start s →
      (∀ i s, start ≤ i → i < start + count → I i s → Ends (f i) s (fun _ => I (i + 1)) E) →
      Ends (forRange f count start) s (fun _ => I (start + count)) E
  | 0, _, _, hI, _ => hI
  | count + 1, start, s, hI, hf => by
    unfold forRange
    rw [ends_bind]
    refine (hf start s (Nat.le_refl _) (by omega) hI).mono (fun _ s' hI' => ?_) fun _ h => h
    rw [show start + (count + 1) = start + 1 + count by omega]
    exact ends_forRange hI' fun i s hi hlt => hf i s (by omega) (by omega)

/-! ## What every end keeps -/

/-- Two facts about the ends of a computation. -/
theorem Ends.and {x : PanicM σ α} {s : σ} {Q Q' : α → σ → Prop} {E E' : σ → Prop}
    (h : Ends x s Q E) (h' : Ends x s Q' E') :
    Ends x s (fun a s' => Q a s' ∧ Q' a s') (fun s' => E s' ∧ E' s') := by
  unfold Ends at h h' ⊢
  rcases hx : x s with ⟨_ | a, s'⟩ <;> rw [hx] at h h' <;> exact ⟨h, h'⟩

/-- At both kinds of end the state is related to that at the start. -/
def Along (R : σ → σ → Prop) (x : PanicM σ α) : Prop := ∀ s, Ends x s (fun _ => R s) (R s)

section Along

variable {R : σ → σ → Prop} {x : PanicM σ α} {f : α → PanicM σ β}

theorem along_of_always (h : ∀ s, R s (x s).2) : Along R x := by
  intro s
  have hs := h s
  unfold Ends
  rcases hx : x s with ⟨_ | a, s'⟩ <;> rw [hx] at hs <;> exact hs

theorem along_modify {g : σ → σ} (h : ∀ s, R s (g s)) : Along R (modify g) := h

variable [IsPreorder σ R]

theorem along_pure (a : α) : Along R (pure a : PanicM σ α) := fun s => refl_of R s

theorem along_get : Along R (get : PanicM σ σ) := fun s => refl_of R s

theorem along_expect (o : Option α) : Along R (expect o : PanicM σ α) := by
  intro s
  rw [ends_expect]
  exact ⟨fun _ _ => refl_of R s, fun _ => refl_of R s⟩

theorem along_ensure (b : Bool) : Along R (ensure b : PanicM σ Unit) := by
  intro s
  rw [ends_ensure]
  exact ⟨fun _ => refl_of R s, fun _ => refl_of R s⟩

theorem Along.bind (hx : Along R x) (hf : ∀ a, Along R (f a)) : Along R (x >>= f) := by
  intro s
  rw [ends_bind]
  refine (hx s).mono (fun a s' h => ?_) fun _ h => h
  exact (hf a s').mono (fun _ _ h' => trans_of R h h') fun _ h' => trans_of R h h'

theorem along_forRange {f : Nat → PanicM σ Unit} (hf : ∀ i, Along R (f i)) {count : Nat} :
    ∀ {start : Nat}, Along R (forRange f count start) := by
  induction count with
  | zero => exact along_pure ()
  | succ count ih => exact .bind (hf _) fun _ => ih

end Along

end PanicM

end Turnix.Lib
