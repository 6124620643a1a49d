import Mathlib.Data.BitVec
import Mathlib.Data.List.Basic

/-!
# Runs of partial step functions

A system is a step function `σ → ε → Option σ`: `none` says that the event is not possible in
that state, or that the call it stands for never returns. A run feeds a list of events through
it. The rules below are the only inductions over runs in this development.
-/

namespace Turnix.Lib

variable {σ ε : Type*}

/-- Feed the events to the step function, in order. -/
def run (step : σ → ε → Option σ) : σ → List ε → Option σ
  | s, [] => some s
  | s, e :: es => (step s e).bind fun s' => run step s' es

/-- Every step of the run from `s` meets the condition `C` on the state before it and its event. -/
def AllSteps (step : σ → ε → Option σ) (C : σ → ε → Prop) : σ → List ε → Prop
  | _, [] => True
  | s, e :: es => C s e ∧ ∀ s', step s e = some s' → AllSteps step C s' es

instance (step : σ → ε → Option σ) (C : σ → ε → Prop) [∀ s e, Decidable (C s e)] :
    ∀ (s : σ) (es : List ε), Decidable (AllSteps step C s es)
  | _, [] => isTrue trivial
  | s, e :: es =>
    match hstep : step s e with
    | none =>
      decidable_of_iff (C s e) ⟨fun h => ⟨h, fun _ hm => nomatch hstep.symm.trans hm⟩, And.left⟩
    | some m =>
      have := instDecidableAllSteps step C m es
      decidable_of_iff (C s e ∧ AllSteps step C m es)
        ⟨fun h => ⟨h.1, fun _ hm => Option.some.inj (hstep.symm.trans hm) ▸ h.2⟩,
          fun h => ⟨h.1, h.2 m hstep⟩⟩

theorem run_cons {step : σ → ε → Option σ} {s s' : σ} {e : ε} {es : List ε} :
    run step s (e :: es) = some s' ↔ ∃ m, step s e = some m ∧ run step m es = some s' := by
  simp only [run, Option.bind_eq_some_iff]

/-- What every step that meets `C` keeps holds at the end of every run whose steps meet `C`. -/
theorem run_invariant_of {step : σ → ε → Option σ} {P : σ → Prop} {C : σ → ε → Prop}
    (hstep : ∀ s e s', P s → C s e → step s e = some s' → P s') :
    ∀ {es : List ε} {s s' : σ}, P s → AllSteps step C s es → run step s es = some s' → P s'
  | [], s, s', hs, _, h => by
    cases h
    exact hs
  | e :: es, s, s', hs, hC, h => by
    obtain ⟨m, hm, hrest⟩ := run_cons.mp h
    exact run_invariant_of hstep (hstep s e m hs hC.1 hm) (hC.2 m hm) hrest

theorem allSteps_congr {step : σ → ε → Option σ} {C D : σ → ε → Prop} :
    ∀ {es : List ε} {s : σ}, (∀ s, ∀ e ∈ es, C s e ↔ D s e) →
      (AllSteps step C s es ↔ AllSteps step D s es)
  | [], _, _ => Iff.rfl
  | e :: _, s, h => and_congr (h s e List.mem_cons_self) (forall₂_congr fun _ _ =>
      allSteps_congr fun m e' he' => h m e' (List.mem_cons_of_mem e he'))

theorem allSteps_true (step : σ → ε → Option σ) :
    ∀ (es : List ε) (s : σ), AllSteps step (fun _ _ => True) s es
  | [], _ => trivial
  | _ :: es, _ => ⟨trivial, fun s' _ => allSteps_true step es s'⟩

/-- What every step keeps holds at the end of every run. -/
theorem run_invariant {step : σ → ε → Option σ} {P : σ → Prop}
    (hstep : ∀ s e s', P s → step s e = some s' → P s') {es : List ε} {s s' : σ}
    (hs : P s) (h : run step s es = some s') : P s' :=
  run_invariant_of (C := fun _ _ => True) (fun s e s' hs _ h => hstep s e s' hs h) hs
    (allSteps_true step es s) h

/-- A run whose steps are all possible, as long as `P` holds, gets to its end. -/
theorem run_total {step : σ → ε → Option σ} {P : σ → Prop} (htotal : ∀ s e, P s → ∃ s', step s e = some s')
    (hstep : ∀ s e s', P s → step s e = some s' → P s') :
    ∀ {es : List ε} {s : σ}, P s → ∃ s', run step s es = some s'
  | [], s, _ => ⟨s, rfl⟩
  | e :: es, s, hs => by
    obtain ⟨m, hm⟩ := htotal s e hs
    obtain ⟨s', hrest⟩ := run_total htotal hstep (hstep s e m hs hm)
    exact ⟨s', run_cons.mpr ⟨m, hm, hrest⟩⟩

/-- A rule for two levels: if a step of the system is a step of the specification then so is a run. -/
theorem run_simulates {τ : Type*} {step : σ → ε → Option σ} {spec : τ → ε → τ} {R : τ → σ → Prop}
    (hstep : ∀ a s e, R a s → ∃ s', step s e = some s' ∧ R (spec a e) s') :
    ∀ {es : List ε} {a : τ} {s : σ}, R a s → ∃ s', run step s es = some s' ∧ R (es.foldl spec a) s'
  | [], _, s, hR => ⟨s, rfl, hR⟩
  | e :: _, a, s, hR => by
    obtain ⟨m, hm, hR'⟩ := hstep a s e hR
    obtain ⟨s', hrest, hend⟩ := run_simulates hstep hR'
    exact ⟨s', run_cons.mpr ⟨m, hm, hrest⟩, hend⟩

/-- What a run that gets to its end has done, by a relation to the steps of a specification. -/
theorem run_refines {τ : Type*} {step : σ → ε → Option σ} {spec : τ → ε → τ} {R : τ → σ → Prop} {C : ε → Prop}
    (hstep : ∀ a s e s', C e → R a s → step s e = some s' → R (spec a e) s') :
    ∀ {es : List ε} {a : τ} {s s' : σ}, (∀ e ∈ es, C e) → R a s → run step s es = some s' → R (es.foldl spec a) s'
  | [], a, s, s', _, hR, h => by
    cases h
    exact hR
  | e :: es, a, s, s', hC, hR, h => by
    obtain ⟨m, hm, hrest⟩ := run_cons.mp h
    have hrun := run_refines hstep (fun e' he' => hC e' (List.mem_cons_of_mem e he'))
      (hstep a s e m (hC e List.mem_cons_self) hR hm) hrest
    exact hrun

/-- A rule for what comes nearer with every step: `P n` says that it is `n` away, and the event `e` takes
`cost e` off that. -/
theorem run_countdown {step : σ → ε → Option σ} {P : Nat → σ → Prop} {cost : ε → Nat}
    (hstep : ∀ n s e s', P (n + cost e) s → step s e = some s' → P n s') :
    ∀ {es : List ε} {n : Nat} {s s' : σ}, P (n + (es.map cost).sum) s → run step s es = some s' → P n s'
  | [], n, s, s', hs, h => by
    cases h
    exact hs
  | e :: es, n, s, s', hs, h => by
    obtain ⟨m, hm, hrest⟩ := run_cons.mp h
    refine run_countdown hstep (hstep _ s e m ?_ hm) hrest
    rwa [List.map_cons, List.sum_cons, Nat.add_comm (cost e), ← Nat.add_assoc] at hs

/-- A rule for a quantity that no step raises: it is the same at the end of a run exactly if every step
meets the condition under which the step keeps it. -/
theorem run_conserves {step : σ → ε → Option σ} {P : σ → Prop} {C : σ → ε → Prop} {amount : σ → Nat}
    (hinv : ∀ s e s', P s → step s e = some s' → P s')
    (hstep : ∀ s e s', P s → step s e = some s' →
      amount s' ≤ amount s ∧ (amount s' = amount s ↔ C s e)) :
    ∀ {es : List ε} {s s' : σ}, P s → run step s es = some s' →
      amount s' ≤ amount s ∧ (amount s' = amount s ↔ AllSteps step C s es)
  | [], s, s', _, h => by
    cases h
    exact ⟨Nat.le_refl _, fun _ => trivial, fun _ => rfl⟩
  | e :: es, s, s', hs, h => by
    obtain ⟨m, hm, hrest⟩ := run_cons.mp h
    obtain ⟨hfirst, hsame⟩ := hstep s e m hs hm
    obtain ⟨hlater, hall⟩ := run_conserves hinv hstep (hinv s e m hs hm) hrest
    refine ⟨Nat.le_trans hlater hfirst, ?_⟩
    constructor
    · intro heq
      refine ⟨hsame.mp (by omega), fun m' hm' => ?_⟩
      rw [hm] at hm'
      cases hm'
      exact hall.mp (by omega)
    · rintro ⟨hC, hallSteps⟩
      rw [hall.mpr (hallSteps m hm), hsame.mpr hC]

/-- A rule for the states that a run whose steps meet `A` goes through: `I` holds as long as the steps meet
`C`, implies `G`, and a step that does not meet `C` leads to a state where `G` fails. -/
theorem run_states_iff_of {step : σ → ε → Option σ} {I G : σ → Prop} {A C : σ → ε → Prop}
    (hinv : ∀ s e s', I s → A s e → C s e → step s e = some s' → I s') (hgood : ∀ s, I s → G s)
    (hbad : ∀ s e, I s → A s e → ¬ C s e → ∃ s', step s e = some s' ∧ ¬ G s') :
    ∀ {es : List ε} {s : σ}, I s → AllSteps step A s es →
      ((∀ before s', before <+: es → run step s before = some s' → G s') ↔ AllSteps step C s es)
  | [], s, hs, _ => by
    refine ⟨fun _ => trivial, fun _ before s' hbefore hrun => ?_⟩
    rw [List.prefix_nil.mp hbefore] at hrun
    cases hrun
    exact hgood s hs
  | e :: es, s, hs, hA => by
    constructor
    · intro h
      have hC : C s e := by
        by_contra hnot
        obtain ⟨s', hstep, hfails⟩ := hbad s e hs hA.1 hnot
        exact hfails (h [e] s' (List.prefix_append [e] es) (run_cons.mpr ⟨s', hstep, rfl⟩))
      refine ⟨hC, fun m hm => ?_⟩
      refine (run_states_iff_of hinv hgood hbad (hinv s e m hs hA.1 hC hm) (hA.2 m hm)).mp ?_
      intro before s' hbefore hrun
      exact h (e :: before) s' ((List.prefix_cons_inj e).mpr hbefore) (run_cons.mpr ⟨m, hm, hrun⟩)
    · rintro ⟨hC, hall⟩ before s' hbefore hrun
      cases before with
      | nil =>
        cases hrun
        exact hgood s hs
      | cons e' before =>
        obtain ⟨rfl, htail⟩ := List.cons_prefix_cons.mp hbefore
        obtain ⟨m, hm, hrest⟩ := run_cons.mp hrun
        exact (run_states_iff_of hinv hgood hbad (hinv s e' m hs hA.1 hC hm) (hA.2 m hm)).mpr (hall m hm)
          before s' htail hrest

/-- The same rule for all runs. -/
theorem run_states_iff {step : σ → ε → Option σ} {I G : σ → Prop} {C : σ → ε → Prop}
    (hinv : ∀ s e s', I s → C s e → step s e = some s' → I s') (hgood : ∀ s, I s → G s)
    (hbad : ∀ s e, I s → ¬ C s e → ∃ s', step s e = some s' ∧ ¬ G s') {es : List ε} {s : σ} (hs : I s) :
    (∀ before s', before <+: es → run step s before = some s' → G s') ↔ AllSteps step C s es :=
  run_states_iff_of (A := fun _ _ => True) (fun s e s' hs _ => hinv s e s' hs) hgood
    (fun s e hs _ => hbad s e hs) hs (allSteps_true step es s)

end Turnix.Lib
