import Mathlib.Data.List.Infix

/-!
# Runs of a fallible step

A step that keeps an invariant does not fail along a run. Where each step keeps a further property
exactly when its input fits, the property holds all along a run exactly when every input fits.
-/

namespace InfiniteRicks.Library.Runs

variable {σ ι : Type} {step : σ → ι → Option σ} {Inv Good : σ → Prop} {Fits : σ → ι → Prop}

/-- What one step does: it succeeds, keeps the invariant, and keeps the property exactly when its input fits. -/
structure Steps (step : σ → ι → Option σ) (Inv Good : σ → Prop) (Fits : σ → ι → Prop) : Prop where
  next : ∀ {s}, Inv s → ∀ input, ∃ after, step s input = some after ∧ Inv after ∧ (Good s → (Good after ↔ Fits s input))

theorem foldlM_cons_eq {s next : σ} {input : ι} (stepped : step s input = some next) (rest : List ι) :
    (input :: rest).foldlM step s = rest.foldlM step next := by
  rw [List.foldlM_cons, stepped]
  rfl

/-- A run succeeds and keeps the invariant. -/
theorem Steps.run (steps : Steps step Inv Good Fits) (inputs : List ι) {s : σ} (inv : Inv s) :
    ∃ after, inputs.foldlM step s = some after ∧ Inv after := by
  induction inputs generalizing s with
  | nil => exact ⟨s, rfl, inv⟩
  | cons input rest ih =>
      obtain ⟨next, stepped, kept, -⟩ := steps.next inv input
      rw [foldlM_cons_eq stepped]
      exact ih kept

/-- The property holds in every state of a run exactly when every input fits where it is taken. -/
theorem Steps.always_iff (steps : Steps step Inv Good Fits) (inputs : List ι) {s : σ} (inv : Inv s) (good : Good s) :
    (∀ front after, front <+: inputs → front.foldlM step s = some after → Good after) ↔
      ∀ front input rest before, inputs = front ++ input :: rest → front.foldlM step s = some before →
        Fits before input := by
  induction inputs generalizing s with
  | nil =>
      refine ⟨fun _ front input rest _ shape => ?_, fun _ front after initial run => ?_⟩
      · exact absurd shape.symm (List.append_ne_nil_of_right_ne_nil _ (List.cons_ne_nil _ _))
      · rw [List.prefix_nil.mp initial] at run
        cases run
        exact good
  | cons input inputs ih =>
      obtain ⟨next, stepped, kept, step_iff⟩ := steps.next inv input
      have run_cons := foldlM_cons_eq stepped
      constructor
      · intro always
        have nextGood : Good next := always [input] next ⟨inputs, rfl⟩ (run_cons [])
        have inner := (ih kept nextGood).mp fun front after initial run =>
          always (input :: front) after (List.cons_prefix_cons.mpr ⟨rfl, initial⟩) ((run_cons front).trans run)
        intro front other rest before shape run
        cases front with
        | nil =>
            obtain ⟨rfl, rfl⟩ := List.cons.inj shape
            cases run
            exact (step_iff good).mp nextGood
        | cons first front =>
            obtain ⟨rfl, tail⟩ := List.cons.inj shape
            exact inner front other rest before tail ((run_cons front).symm.trans run)
      · intro fits
        have nextGood := (step_iff good).mpr (fits [] input inputs s rfl rfl)
        have inner := (ih kept nextGood).mpr fun front other rest before shape run =>
          fits (input :: front) other rest before (by rw [shape, List.cons_append]) ((run_cons front).trans run)
        intro front after initial run
        rcases List.prefix_cons_iff.mp initial with rfl | ⟨rest, rfl, prior⟩
        · cases run
          exact good
        · exact inner rest after prior ((run_cons rest).symm.trans run)

end InfiniteRicks.Library.Runs
