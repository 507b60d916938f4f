import Ripindex.Lib.Guest

/-!
# Runs by a schedule

Where the operations have one result each, a run of a pool is given by the order in which the
processes take turns, and can be computed.

## Results

* `Pool.Run.of_turns` — the turns of a schedule are a run;
* `Pool.GuestRun.of_guestTurns` — the same with a guest.
-/

namespace Pool

variable {Op : Type} {Res : Op → Type} {σ ι W : Type}
variable (P : Pool Op Res σ ι W) [DecidableEq ι]

/-- A turn of a process: it begins its task, carries out the next operation, or ends. -/
inductive Turn (ι : Type)
  | start (i : ι)
  | op (i : ι)
  | finish (i : ι)

/-- The turn, where the operations have one result each and process `i` performs the task `task i`.
No operation is carried out in a state that `ok` excludes. -/
def turn (task : ι → W) (step : ι → (o : Op) → σ → Res o × σ) (ok : ι → σ → Bool) :
    Turn ι → P.Conf → Option P.Conf
  | .start i, c =>
    match c.procs i with
    | none =>
      some ⟨P.enter i c.state, Function.update c.procs i (some (task i, P.prog i (task i)))⟩
    | some _ => none
  | .op i, c =>
    match c.procs i with
    | some (w, .call o k) =>
      if ok i c.state then
        some ⟨(step i o c.state).2, Function.update c.procs i (some (w, k (step i o c.state).1))⟩
      else none
    | _ => none
  | .finish i, c =>
    match c.procs i with
    | some (_, .ret ()) => some ⟨c.state, Function.update c.procs i none⟩
    | _ => none

/-- All turns of a schedule. -/
def turns (task : ι → W) (step : ι → (o : Op) → σ → Res o × σ) (ok : ι → σ → Bool) :
    List (Turn ι) → P.Conf → Option P.Conf
  | [], c => some c
  | t :: ts, c => (turn P task step ok t c).bind (turns task step ok ts)

variable {P} {task : ι → W} {step : ι → (o : Op) → σ → Res o × σ} {ok : ι → σ → Bool}

/-- The processes perform their tasks. -/
def Conf.Performs (c : P.Conf) (task : ι → W) : Prop :=
  ∀ i w p, c.procs i = some (w, p) → w = task i

omit [DecidableEq ι] in
theorem Conf.performs_idle (s : σ) : (P.Idle s).Performs task := nofun

theorem Conf.Performs.update {c : P.Conf} (h : c.Performs task) (s : σ) (i : ι)
    {x : Option (W × Prog Op Res Unit)} (hx : ∀ w p, x = some (w, p) → w = task i) :
    Conf.Performs (P := P) ⟨s, Function.update c.procs i x⟩ task := by
  intro j w p hj
  replace hj : Function.update c.procs i x j = some (w, p) := hj
  by_cases hji : j = i
  · subst hji
    rw [Function.update_self] at hj
    exact hx w p hj
  · rw [Function.update_of_ne hji] at hj
    exact h j w p hj

/-- A turn is a step. -/
theorem Step.of_turn
    (hStep : ∀ i o s, ok i s = true → P.step i (task i) o s (step i o s).1 (step i o s).2)
    {t : Turn ι} {c c' : P.Conf} (hTask : c.Performs task)
    (h : P.turn task step ok t c = some c') : P.Step c c' ∧ c'.Performs task := by
  cases t with
  | start i =>
    rw [turn] at h
    rcases hProc : c.procs i with _ | x
    · rw [hProc] at h
      obtain rfl := Option.some.inj h
      refine ⟨.start i (task i) hProc, hTask.update _ i fun w p hx => ?_⟩
      exact (Prod.mk.inj (Option.some.inj hx)).1.symm
    · rw [hProc] at h
      cases h
  | op i =>
    rw [turn] at h
    rcases hProc : c.procs i with _ | ⟨w, a | ⟨o, k⟩⟩ <;> rw [hProc] at h
    · cases h
    · cases h
    · obtain rfl := hTask i w _ hProc
      change (if ok i c.state = true then some _ else none) = some c' at h
      by_cases hOk : ok i c.state = true
      · rw [if_pos hOk] at h
        obtain rfl := Option.some.inj h
        refine ⟨.op i hProc (hStep i o c.state hOk), hTask.update _ i fun w p hx => ?_⟩
        exact (Prod.mk.inj (Option.some.inj hx)).1.symm
      · rw [if_neg hOk] at h
        cases h
  | finish i =>
    rw [turn] at h
    rcases hProc : c.procs i with _ | ⟨w, ⟨⟩ | ⟨o, k⟩⟩ <;> rw [hProc] at h
    · cases h
    · obtain rfl := Option.some.inj h
      exact ⟨.finish i hProc, hTask.update _ i fun _ _ hx => nomatch hx⟩
    · cases h

/-- A schedule is a run. -/
theorem Run.of_turns
    (hStep : ∀ i o s, ok i s = true → P.step i (task i) o s (step i o s).1 (step i o s).2)
    {ts : List (Turn ι)} {c c' : P.Conf} (hTask : c.Performs task)
    (h : P.turns task step ok ts c = some c') : P.Run c c' ∧ c'.Performs task := by
  induction ts generalizing c with
  | nil =>
    obtain rfl := Option.some.inj h
    exact ⟨.refl, hTask⟩
  | cons t ts ih =>
    obtain ⟨c₁, hTurn, hRest⟩ := Option.bind_eq_some_iff.mp h
    obtain ⟨hFirst, hTask₁⟩ := Step.of_turn hStep hTask hTurn
    obtain ⟨hRun, hTask'⟩ := ih hTask₁ hRest
    exact ⟨.head hFirst hRun, hTask'⟩

-- ---------------------------------------------------------------------------
-- With a guest
-- ---------------------------------------------------------------------------

variable {α : Type} (P) in
/-- A turn of another process, or, where there is none, one of the guest `g`. -/
def guestTurn (task : ι → W) (step : ι → (o : Op) → σ → Res o × σ) (ok : ι → σ → Bool) (g : ι) :
    Option (Turn ι) → P.Guest α → Option (P.Guest α)
  | some t, x =>
    (P.turn task step ok t x.conf).bind fun c =>
      if (c.procs g).isNone then some ⟨c, x.prog⟩ else none
  | none, x =>
    match x.prog with
    | .ret _ => none
    | .call o k =>
      if ok g x.conf.state then
        some ⟨⟨(step g o x.conf.state).2, x.conf.procs⟩, k (step g o x.conf.state).1⟩
      else none

variable {α : Type} (P) in
def guestTurns (task : ι → W) (step : ι → (o : Op) → σ → Res o × σ) (ok : ι → σ → Bool) (g : ι) :
    List (Option (Turn ι)) → P.Guest α → Option (P.Guest α)
  | [], x => some x
  | t :: ts, x => (guestTurn P task step ok g t x).bind (guestTurns task step ok g ts)

variable {α : Type} {g : ι} {w : W}

theorem GuestStep.of_guestTurn
    (hStep : ∀ i o s, ok i s = true → P.step i (task i) o s (step i o s).1 (step i o s).2)
    {t : Option (Turn ι)} {x y : P.Guest α} (hTask : x.conf.Performs task)
    (h : P.guestTurn task step ok g t x = some y) :
    P.GuestStep g (task g) x y ∧ y.conf.Performs task := by
  obtain ⟨c, p⟩ := x
  cases t with
  | some t =>
    obtain ⟨c', hTurn, hRest⟩ := Option.bind_eq_some_iff.mp h
    obtain ⟨hFirst, hTask'⟩ := Step.of_turn hStep hTask hTurn
    by_cases hIdle : (c'.procs g).isNone = true
    · rw [if_pos hIdle] at hRest
      obtain rfl := Option.some.inj hRest
      exact ⟨.other hFirst (Option.isNone_iff_eq_none.mp hIdle), hTask'⟩
    · rw [if_neg hIdle] at hRest
      cases hRest
  | none =>
    rw [guestTurn] at h
    cases p with
    | ret a => cases h
    | call o k =>
      change (if ok g c.state = true then some _ else none) = some y at h
      by_cases hOk : ok g c.state = true
      · rw [if_pos hOk] at h
        obtain rfl := Option.some.inj h
        exact ⟨.op (hStep g o c.state hOk), hTask⟩
      · rw [if_neg hOk] at h
        cases h

theorem GuestRun.of_guestTurns
    (hStep : ∀ i o s, ok i s = true → P.step i (task i) o s (step i o s).1 (step i o s).2)
    {ts : List (Option (Turn ι))} {x y : P.Guest α} (hTask : x.conf.Performs task)
    (h : P.guestTurns task step ok g ts x = some y) : P.GuestRun g (task g) x y := by
  induction ts generalizing x with
  | nil =>
    obtain rfl := Option.some.inj h
    exact .refl
  | cons t ts ih =>
    obtain ⟨z, hTurn, hRest⟩ := Option.bind_eq_some_iff.mp h
    obtain ⟨hFirst, hTask'⟩ := GuestStep.of_guestTurn hStep hTask hTurn
    exact .head hFirst (ih hTask' hRest)

end Pool
