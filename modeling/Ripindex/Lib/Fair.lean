import Mathlib.Data.List.Induction
import Mathlib.Order.WellFounded

/-!
# Fair runs

A machine that takes a step on an event, its runs without end, in which the machine may rest,
and parties that own events.

A party is treated fairly if it takes a turn whenever one of its events stays possible. A rank
that no step raises and that every turn of the party whose turn it is lowers leads from one
predicate to another.

## Results

* `Steps.induction` — what every step keeps holds all along;
* `Unending.leadsTo` — the rank rule;
* `Unending.fairTo_ofList` — a finite run that ends in rest is a fair one.
-/

namespace Fair

variable {σ ε ι α : Type} {step : σ → ε → Option σ} {owns : ι → ε → Prop}

-- ---------------------------------------------------------------------------
-- Finite runs
-- ---------------------------------------------------------------------------

/-- From the first state to the second by these events. -/
inductive Steps (step : σ → ε → Option σ) : σ → List ε → σ → Prop
  | nil (s : σ) : Steps step s [] s
  | snoc {s s' s'' : σ} {es : List ε} {e : ε} (h : Steps step s es s')
      (hStep : step s' e = some s'') : Steps step s (es ++ [e]) s''

theorem Steps.induction {P : σ → Prop} {s s' : σ} {es : List ε} (h : Steps step s es s')
    (hInit : P s) (hStep : ∀ s e s', P s → step s e = some s' → P s') : P s' := by
  induction h with
  | nil => exact hInit
  | snoc _ hLast ih => exact hStep _ _ _ ih hLast

theorem steps_of_foldlM {s s' : σ} {es : List ε} (h : es.foldlM step s = some s') :
    Steps step s es s' := by
  induction es using List.reverseRecOn generalizing s' with
  | nil =>
    obtain rfl := Option.some.inj h
    exact .nil s
  | append_singleton es e ih =>
    rw [List.foldlM_append] at h
    obtain ⟨s₁, hFirst, hLast⟩ := Option.bind_eq_some_iff.mp h
    rw [List.foldlM_cons] at hLast
    obtain ⟨s₂, hStep, hNil⟩ := Option.bind_eq_some_iff.mp hLast
    obtain rfl := Option.some.inj hNil
    exact .snoc (ih hFirst) hStep

-- ---------------------------------------------------------------------------
-- Runs without end
-- ---------------------------------------------------------------------------

/-- A run without end; at `none` nothing happens. -/
structure Unending (step : σ → ε → Option σ) (init : σ) where
  state : Nat → σ
  event : Nat → Option ε
  starts : state 0 = init
  moves : ∀ n, (event n = none ∧ state (n + 1) = state n) ∨
    ∃ e, event n = some e ∧ step (state n) e = some (state (n + 1))

namespace Unending

variable {init : σ} (r : Unending step init)

/-- A state of a run without end is one that finitely many events reach. -/
theorem reached (n : Nat) : ∃ es, Steps step init es (r.state n) := by
  induction n with
  | zero => exact ⟨[], by rw [r.starts]; exact .nil init⟩
  | succ n ih =>
    obtain ⟨es, hSteps⟩ := ih
    rcases r.moves n with ⟨-, hSame⟩ | ⟨e, -, hStep⟩
    · exact ⟨es, by rw [hSame]; exact hSteps⟩
    · exact ⟨es ++ [e], .snoc hSteps hStep⟩

/-- The party has an event that the machine can take. -/
def Ready (step : σ → ε → Option σ) (owns : ι → ε → Prop) (i : ι) (s : σ) : Prop :=
  ∃ e s', owns i e ∧ step s e = some s'

theorem Ready.of_isSome {i : ι} {s : σ} {e : ε} (hOwns : owns i e)
    (h : (step s e).isSome = true) : Ready step owns i s := by
  obtain ⟨s', hStep⟩ := Option.isSome_iff_exists.mp h
  exact ⟨e, s', hOwns, hStep⟩

/-- A party that stays ready takes a turn. -/
def FairTo (owns : ι → ε → Prop) (i : ι) : Prop :=
  ∀ n, (∀ m, n ≤ m → Ready step owns i (r.state m)) →
    ∃ m, n ≤ m ∧ ∃ e, r.event m = some e ∧ owns i e

/-- The rank rule: where `P` holds, a step leads to `Q`, or it keeps `P` and lowers the rank, or
it keeps `P`, the rank and whose turn it is and is not that party's; and that party is ready. -/
theorem leadsTo [LT α] [WellFoundedLT α] {P Q : σ → Prop} (rank : σ → α) (turn : σ → ι)
    (hStep : ∀ s e s', P s → step s e = some s' → Q s' ∨ (P s' ∧ (rank s' < rank s ∨
      (rank s' = rank s ∧ turn s' = turn s ∧ ¬ owns (turn s) e))))
    (hReady : ∀ s, P s → Ready step owns (turn s) s) (hFair : ∀ i, r.FairTo owns i) {n : Nat}
    (hP : P (r.state n)) : ∃ m, n ≤ m ∧ Q (r.state m) := by
  -- By well-founded induction on the rank.
  induction hRank : rank (r.state n) using WellFoundedLT.induction generalizing n with
  | ind a ih =>
    subst hRank
    by_contra hNever
    have hNot (m : Nat) (hm : n ≤ m) : ¬ Q (r.state m) := fun hQ => hNever ⟨m, hm, hQ⟩
    have hNoLower (m : Nat) (hm : n ≤ m) (hP' : P (r.state m)) :
        ¬ rank (r.state m) < rank (r.state n) := by
      intro hLower
      obtain ⟨m', hm', hQ⟩ := ih _ hLower hP' rfl
      exact hNot m' (hm.trans hm') hQ
    -- Nothing changes from here on, so the party stays ready.
    have hStill (m : Nat) (hm : n ≤ m) : P (r.state m) ∧ rank (r.state m) = rank (r.state n) ∧
        turn (r.state m) = turn (r.state n) := by
      induction m, hm using Nat.le_induction with
      | base => exact ⟨hP, rfl, rfl⟩
      | succ m hm ihm =>
        obtain ⟨hP', hSame, hTurn⟩ := ihm
        rcases r.moves m with ⟨-, hRest⟩ | ⟨e, -, hMove⟩
        · rw [hRest]
          exact ⟨hP', hSame, hTurn⟩
        · rcases hStep _ _ _ hP' hMove with hQ | ⟨hP'', hLower | ⟨hSame', hTurn', -⟩⟩
          · exact absurd hQ (hNot _ (Nat.le_succ_of_le hm))
          · rw [hSame] at hLower
            exact absurd hLower (hNoLower _ (Nat.le_succ_of_le hm) hP'')
          · exact ⟨hP'', hSame'.trans hSame, hTurn'.trans hTurn⟩
    obtain ⟨m, hm, e, hEvent, hOwns⟩ := hFair (turn (r.state n)) n fun m hm => by
      rw [← (hStill m hm).2.2]
      exact hReady _ (hStill m hm).1
    obtain ⟨hP', hSame, hTurn⟩ := hStill m hm
    rcases r.moves m with ⟨hNone, -⟩ | ⟨e', hEvent', hMove⟩
    · rw [hNone] at hEvent
      cases hEvent
    · obtain rfl : e' = e := Option.some.inj (hEvent'.symm.trans hEvent)
      rcases hStep _ _ _ hP' hMove with hQ | ⟨hP'', hLower | ⟨-, -, hOther⟩⟩
      · exact hNot _ (Nat.le_succ_of_le hm) hQ
      · rw [hSame] at hLower
        exact hNoLower _ (Nat.le_succ_of_le hm) hP'' hLower
      · rw [hTurn] at hOther
        exact hOther hOwns

/-- A finite run goes on as one that rests. -/
def ofList (init : σ) (es : List ε) (h : (es.foldlM step init).isSome = true) :
    Unending step init where
  state n := ((es.take n).foldlM step init).getD init
  event n := es[n]?
  starts := rfl
  moves n := by
    rcases Nat.lt_or_ge n es.length with hLt | hGe
    · refine .inr ⟨es[n], List.getElem?_eq_getElem hLt, ?_⟩
      -- The run up to here, and the step.
      have hNext : (es.take (n + 1)).foldlM step init =
          ((es.take n).foldlM step init).bind fun s => step s es[n] := by
        rw [List.take_succ_eq_append_getElem hLt, List.foldlM_append, Option.bind_eq_bind]
        simp
      have hSome : ((es.take (n + 1)).foldlM step init).isSome = true := by
        rw [← List.take_append_drop (n + 1) es, List.foldlM_append] at h
        exact Option.isSome_of_isSome_bind h
      obtain ⟨s'', hEnd⟩ := Option.isSome_iff_exists.mp hSome
      obtain ⟨s', hHere, hStep⟩ := Option.bind_eq_some_iff.mp (hNext.symm.trans hEnd)
      rw [hHere, hEnd, Option.getD_some, Option.getD_some]
      exact hStep
    · refine .inl ⟨List.getElem?_eq_none hGe, ?_⟩
      rw [List.take_of_length_le hGe, List.take_of_length_le (Nat.le_succ_of_le hGe)]

theorem ofList_state {es : List ε} {s : σ} (hRun : es.foldlM step init = some s)
    (h : (es.foldlM step init).isSome = true) {n : Nat} (hn : es.length ≤ n) :
    (ofList init es h).state n = s := by
  show ((es.take n).foldlM step init).getD init = s
  rw [List.take_of_length_le hn, hRun, Option.getD_some]

/-- A finite run to where no party is ready is treated fairly. -/
theorem fairTo_ofList {es : List ε} {s : σ} (hRun : es.foldlM step init = some s)
    (h : (es.foldlM step init).isSome = true) (hQuiet : ∀ i, ¬ Ready step owns i s) (i : ι) :
    (ofList init es h).FairTo owns i := by
  intro n hReady
  have hAt := hReady (max n es.length) (le_max_left n _)
  rw [ofList_state hRun h (le_max_right n _)] at hAt
  exact absurd hAt (hQuiet i)

end Unending

end Fair
