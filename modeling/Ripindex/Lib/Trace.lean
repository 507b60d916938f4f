import Ripindex.Lib.Prog

/-!
# Traces of programs

The operations of a program with their results, whatever machine, with whatever else acting on
it, gave them.

## Results

* `Prog.Runs.of_bind` — the trace of a sequence;
* `Prog.runs_trace` — the trace of a run against a machine.
-/

namespace Prog

variable {Op : Type} {Res : Op → Type} {α β σ : Type}

/-- An operation with its result. -/
abbrev Done (Op : Type) (Res : Op → Type) : Type := (o : Op) × Res o

/-- The program ends with the value after these operations and results. -/
inductive Runs : Prog Op Res α → List (Done Op Res) → α → Prop
  | ret (a : α) : Runs (.ret a) [] a
  | call {o : Op} {k : Res o → Prog Op Res α} {r : Res o} {tr : List (Done Op Res)} {a : α}
      (h : Runs (k r) tr a) : Runs (.call o k) (⟨o, r⟩ :: tr) a

theorem Runs.of_bind {p : Prog Op Res α} {f : α → Prog Op Res β} {tr : List (Done Op Res)} {b : β}
    (h : Runs (p >>= f) tr b) :
    ∃ a tr₁ tr₂, tr = tr₁ ++ tr₂ ∧ Runs p tr₁ a ∧ Runs (f a) tr₂ b := by
  induction p generalizing tr with
  | ret a => exact ⟨a, [], tr, rfl, .ret a, h⟩
  | call o k ih =>
    cases h with
    | @call _ _ r tr _ h =>
      obtain ⟨a, tr₁, tr₂, rfl, hFirst, hRest⟩ := ih r h
      exact ⟨a, ⟨o, r⟩ :: tr₁, tr₂, rfl, .call hFirst, hRest⟩

/-- The trace of a run against the machine `step`. -/
def trace (step : (o : Op) → σ → Res o × σ) : Prog Op Res α → σ → List (Done Op Res)
  | .ret _, _ => []
  | .call o k, s => ⟨o, (step o s).1⟩ :: (k (step o s).1).trace step (step o s).2

theorem runs_trace (step : (o : Op) → σ → Res o × σ) (p : Prog Op Res α) (s : σ) :
    Runs p (p.trace step s) (p.eval step s).1 := by
  induction p generalizing s with
  | ret a => exact .ret a
  | call o k ih => exact .call (ih _ _)

end Prog
