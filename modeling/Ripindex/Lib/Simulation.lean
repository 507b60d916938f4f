import Mathlib.Data.List.Induction

/-!
# Forward simulation

A machine takes steps with events. One machine refines another when every step of the first is
answered by a step of the second, or by none; then so is every run.

## Results

* `Refines.run` — what a run of the refined machine leads to.
-/

/-- States with the steps between them, each with its event. -/
structure Machine (σ ε : Type) where
  init : σ
  step : ε → σ → σ → Prop

namespace Machine

variable {σ ε τ κ : Type} {M : Machine σ ε}

/-- The runs, with their events. -/
inductive Run (M : Machine σ ε) : List ε → σ → Prop
  | init : Run M [] M.init
  | step {es : List ε} {s s' : σ} {e : ε} (h : Run M es s) (hStep : M.step e s s') :
      Run M (es ++ [e]) s'

/-- A machine with a step function. -/
def ofFun (init : τ) (apply : κ → τ → τ) : Machine τ κ where
  init := init
  step k t t' := apply k t = t'

theorem run_ofFun_iff {init : τ} {apply : κ → τ → τ} {ks : List κ} {t : τ} :
    (ofFun init apply).Run ks t ↔ ks.foldl (fun t k => apply k t) init = t := by
  constructor
  · intro h
    induction h with
    | init => rfl
    | step _ hStep ih =>
      rw [List.foldl_append, ih]
      exact hStep
  · intro h
    subst h
    induction ks using List.reverseRecOn with
    | nil => exact .init
    | append_singleton ks k ih =>
      rw [List.foldl_append]
      exact .step ih rfl

/-- Steps of `M` are answered by steps of `N`; events without a label by none. -/
structure Refines (M : Machine σ ε) (N : Machine τ κ) (label : ε → Option κ)
    (R : σ → τ → Prop) : Prop where
  init : R M.init N.init
  step : ∀ {e s s' t}, R s t → M.step e s s' →
    (∃ k t', label e = some k ∧ N.step k t t' ∧ R s' t') ∨ label e = none ∧ R s' t

/-- What one step preserves, every run does. -/
theorem Refines.run {N : Machine τ κ} {label : ε → Option κ} {R : σ → τ → Prop}
    (h : M.Refines N label R) {es : List ε} {s : σ} (hRun : M.Run es s) :
    ∃ t, N.Run (es.filterMap label) t ∧ R s t := by
  induction hRun with
  | init => exact ⟨N.init, .init, h.init⟩
  | @step es s s' e _ hStep ih =>
    obtain ⟨t, hRun, hRel⟩ := ih
    rw [List.filterMap_append]
    rcases h.step hRel hStep with ⟨k, t', hLabel, hAbstract, hRel'⟩ | ⟨hLabel, hRel'⟩
    · refine ⟨t', ?_, hRel'⟩
      rw [List.filterMap_cons_some hLabel]
      exact .step hRun hAbstract
    · refine ⟨t, ?_, hRel'⟩
      rw [List.filterMap_cons_none hLabel, List.filterMap_nil, List.append_nil]
      exact hRun

end Machine
