import Mathlib.Logic.Function.Basic
import Ripindex.Lib.Prog

/-!
# Programs among others

A program issues its operations one by one, and others act in between. A `Contract` says
what an operation may result in, what the others may do between two operations (`rely`)
and which operations the program may issue (`allows`). `Prog.wp` is the weakest
precondition under a contract.

A pool runs many programs. Each process performs tasks one after the other and may stop
at any point. If the programs keep to contracts in which every process allows only what
the others rely on, no operation of any run breaks its contract.

## Results

* `Prog.wp_bind`, `Prog.wp_mono` — the rules of the weakest precondition;
* `Pool.Step.soundAt` — a step of a pool, seen from the process that takes it;
* `Pool.Run.sound` — in every run of a pool the invariant holds.
-/

/-- What a program may expect of its operations and of others, and may do. -/
structure Contract (Op : Type) (Res : Op → Type) (σ : Type) where
  step : (o : Op) → σ → Res o → σ → Prop
  rely : σ → σ → Prop
  allows : Op → σ → Prop

namespace Prog

variable {Op : Type} {Res : Op → Type} {α β σ : Type}

/-- Whatever the others do, the program issues only allowed operations and ends in `Q`. -/
def wp (C : Contract Op Res σ) : Prog Op Res α → (α → σ → Prop) → σ → Prop
  | ret a, Q, s => Q a s
  | call o k, Q, s => ∀ s₁, C.rely s s₁ →
      C.allows o s₁ ∧ ∀ r s₂, C.step o s₁ r s₂ → wp C (k r) Q s₂

variable {C : Contract Op Res σ}

@[simp] theorem wp_ret {a : α} {Q : α → σ → Prop} {s : σ} :
    (ret a : Prog Op Res α).wp C Q s ↔ Q a s := Iff.rfl

theorem wp_call {o : Op} {k : Res o → Prog Op Res α} {Q : α → σ → Prop} {s : σ} :
    (call o k).wp C Q s ↔ ∀ s₁, C.rely s s₁ →
      C.allows o s₁ ∧ ∀ r s₂, C.step o s₁ r s₂ → (k r).wp C Q s₂ := Iff.rfl

theorem wp_mono {p : Prog Op Res α} {Q Q' : α → σ → Prop} {s : σ} (h : p.wp C Q s)
    (hQ : ∀ a s, Q a s → Q' a s) : p.wp C Q' s := by
  induction p generalizing s with
  | ret a => exact hQ a s h
  | call o k ih => exact fun s₁ hRely => ⟨(h s₁ hRely).1, fun r s₂ hStep =>
      ih r ((h s₁ hRely).2 r s₂ hStep)⟩

/-- A sequence: the first part ends where the second one may start. -/
theorem wp_bind {p : Prog Op Res α} {f : α → Prog Op Res β} {Q : β → σ → Prop} {s : σ}
    (h : p.wp C (fun a s => (f a).wp C Q s) s) : (p >>= f).wp C Q s := by
  induction p generalizing s with
  | ret a => exact h
  | call o k ih => exact fun s₁ hRely => ⟨(h s₁ hRely).1, fun r s₂ hStep =>
      ih r ((h s₁ hRely).2 r s₂ hStep)⟩

/-- A sequence, with an assertion in the middle. -/
theorem wp_seq {p : Prog Op Res α} {f : α → Prog Op Res β} {M : α → σ → Prop}
    {Q : β → σ → Prop} {s : σ} (h : p.wp C M s) (hf : ∀ a s, M a s → (f a).wp C Q s) :
    (p >>= f).wp C Q s :=
  wp_bind (wp_mono h hf)

/-- A program keeps to a contract that expects less and allows more. -/
theorem wp_contract {C' : Contract Op Res σ} {p : Prog Op Res α} {Q : α → σ → Prop} {s : σ}
    (hStep : ∀ o s r s', C'.step o s r s' → C.step o s r s')
    (hRely : ∀ s s', C'.rely s s' → C.rely s s') (hAllows : ∀ o s, C.allows o s → C'.allows o s)
    (h : p.wp C Q s) : p.wp C' Q s := by
  induction p generalizing s with
  | ret a => exact h
  | call o k ih =>
    intro s₁ hR
    obtain ⟨hAllow, hRest⟩ := h s₁ (hRely s s₁ hR)
    exact ⟨hAllows o s₁ hAllow, fun r s₂ hS => ih r (hRest r s₂ (hStep o s₁ r s₂ hS))⟩

/-- What others do before the program starts, when assertions survive them. -/
theorem wp_of_rely (hTrans : ∀ s s' s'', C.rely s s' → C.rely s' s'' → C.rely s s'')
    {p : Prog Op Res α} {Q : α → σ → Prop} (hQ : ∀ a s s', C.rely s s' → Q a s → Q a s')
    {s s' : σ} (h : p.wp C Q s) (hRely : C.rely s s') : p.wp C Q s' := by
  cases p with
  | ret a => exact hQ a s s' hRely h
  | call o k => exact fun s₁ hRely₁ => h s₁ (hTrans s s' s₁ hRely hRely₁)

end Prog

-- ---------------------------------------------------------------------------
-- Pools
-- ---------------------------------------------------------------------------

/-- Processes `ι` that perform tasks `W`: the program of a task, what an operation of a
process may result in, and what starting a task and stopping do to the state. -/
structure Pool (Op : Type) (Res : Op → Type) (σ ι W : Type) where
  prog : ι → W → Prog Op Res Unit
  step : ι → W → (o : Op) → σ → Res o → σ → Prop
  enter : ι → σ → σ
  stop : ι → σ → σ

namespace Pool

variable {Op : Type} {Res : Op → Type} {σ ι W : Type}

/-- The state, and for each process its task and the rest of its program. -/
structure Conf (P : Pool Op Res σ ι W) where
  state : σ
  procs : ι → Option (W × Prog Op Res Unit)

variable (P : Pool Op Res σ ι W) [DecidableEq ι]

/-- A step of one process. -/
inductive Step : P.Conf → P.Conf → Prop
  | start {c : P.Conf} (i : ι) (w : W) (hIdle : c.procs i = none) :
      Step c ⟨P.enter i c.state, Function.update c.procs i (some (w, P.prog i w))⟩
  | op {c : P.Conf} (i : ι) {w : W} {o : Op} {k : Res o → Prog Op Res Unit} {r : Res o}
      {s : σ} (hProc : c.procs i = some (w, .call o k)) (hStep : P.step i w o c.state r s) :
      Step c ⟨s, Function.update c.procs i (some (w, k r))⟩
  | finish {c : P.Conf} (i : ι) {w : W} (hProc : c.procs i = some (w, .ret ())) :
      Step c ⟨c.state, Function.update c.procs i none⟩
  | stop {c : P.Conf} (i : ι) {w : W} {p : Prog Op Res Unit}
      (hProc : c.procs i = some (w, p)) :
      Step c ⟨P.stop i c.state, Function.update c.procs i none⟩

/-- Any number of steps. -/
abbrev Run : P.Conf → P.Conf → Prop := Relation.ReflTransGen P.Step

/-- All processes are idle. -/
def Idle (s : σ) : P.Conf := ⟨s, fun _ => none⟩

/-- Contracts for the processes of a pool that fit together: between its tasks process `i`
needs `pre i`, what one process may do the others expect, and allowed steps keep `Inv`. -/
structure Fits (rely : ι → σ → σ → Prop) (allows : ι → Op → σ → Prop) (pre : ι → σ → Prop)
    (Inv : σ → Prop) : Prop where
  refl : ∀ i s, Inv s → rely i s s
  trans : ∀ i s s' s'', rely i s s' → rely i s' s'' → rely i s s''
  pre_stable : ∀ i s s', rely i s s' → pre i s → pre i s'
  task : ∀ i w s, Inv s → pre i s →
    (P.prog i w).wp ⟨P.step i w, rely i, allows i⟩ (fun _ s => pre i s) (P.enter i s)
  op : ∀ i w o s r s', Inv s → allows i o s → P.step i w o s r s' →
    Inv s' ∧ ∀ j, i ≠ j → rely j s s'
  enter : ∀ i s, Inv s → Inv (P.enter i s) ∧ ∀ j, i ≠ j → rely j s (P.enter i s)
  stop : ∀ i s, Inv s → Inv (P.stop i s) ∧ ∀ j, i ≠ j → rely j s (P.stop i s)
  stop_pre : ∀ i s, Inv s → pre i (P.stop i s)

variable {P} {rely : ι → σ → σ → Prop} {allows : ι → Op → σ → Prop} {pre : ι → σ → Prop}
  {Inv : σ → Prop}

/-- Every process keeps to its contract from here on. -/
def Sound (P : Pool Op Res σ ι W) (rely : ι → σ → σ → Prop) (allows : ι → Op → σ → Prop)
    (pre : ι → σ → Prop) (c : P.Conf) : Prop :=
  ∀ i, match c.procs i with
    | none => pre i c.state
    | some (w, p) => p.wp ⟨P.step i w, rely i, allows i⟩ (fun _ s => pre i s) c.state

omit [DecidableEq ι] in
theorem Sound.idle {s : σ} (h : ∀ i, pre i s) : Sound P rely allows pre (P.Idle s) := h

/-- Process `i` keeps to its contract from here on. -/
def SoundAt (P : Pool Op Res σ ι W) (rely : ι → σ → σ → Prop) (allows : ι → Op → σ → Prop)
    (pre : ι → σ → Prop) (c : P.Conf) (i : ι) : Prop :=
  match c.procs i with
  | none => pre i c.state
  | some (w, p) => p.wp ⟨P.step i w, rely i, allows i⟩ (fun _ s => pre i s) c.state

omit [DecidableEq ι] in
theorem Sound.soundAt {c : P.Conf} (h : Sound P rely allows pre c) (i : ι) :
    SoundAt P rely allows pre c i := h i

omit [DecidableEq ι] in
theorem SoundAt.of_idle {c : P.Conf} {i : ι} (h : SoundAt P rely allows pre c i)
    (hIdle : c.procs i = none) : pre i c.state := by
  unfold SoundAt at h
  rwa [hIdle] at h

omit [DecidableEq ι] in
/-- A process whose turn it is not sees a step the others may take. -/
theorem SoundAt.other (hFits : P.Fits rely allows pre Inv) {c c' : P.Conf} {i : ι}
    (h : SoundAt P rely allows pre c i) (hSame : c'.procs i = c.procs i)
    (hRely : rely i c.state c'.state) : SoundAt P rely allows pre c' i := by
  unfold SoundAt at h ⊢
  rw [hSame]
  rcases hProc : c.procs i with _ | ⟨w, p⟩
  · rw [hProc] at h
    exact hFits.pre_stable i _ _ hRely h
  · rw [hProc] at h
    exact Prog.wp_of_rely (hFits.trans i)
      (fun _ s s' hR hPre => hFits.pre_stable i s s' hR hPre) h hRely

/-- A step is one of a process; if that process keeps to its contract, so it does afterwards, and
the others see what they expect. -/
theorem Step.soundAt (hFits : P.Fits rely allows pre Inv) {c c' : P.Conf} (hInv : Inv c.state)
    (hStep : P.Step c c') :
    ∃ i, (c.procs i = none → c'.procs i ≠ none) ∧ (∀ j, j ≠ i → c'.procs j = c.procs j) ∧
      (SoundAt P rely allows pre c i → Inv c'.state ∧ (∀ j, i ≠ j → rely j c.state c'.state) ∧
        SoundAt P rely allows pre c' i) := by
  unfold SoundAt
  cases hStep with
  | start i w hIdle =>
    obtain ⟨hInv', hOthers⟩ := hFits.enter i c.state hInv
    refine ⟨i, by simp, fun j hj => Function.update_of_ne hj _ _, fun h => ⟨hInv', hOthers, ?_⟩⟩
    rw [hIdle] at h
    simpa using hFits.task i w _ hInv h
  | @op i w o k r s hProc hOp =>
    refine ⟨i, by simp, fun j hj => Function.update_of_ne hj _ _, fun h => ?_⟩
    rw [hProc] at h
    obtain ⟨hAllow, hRest⟩ := h c.state (hFits.refl i _ hInv)
    obtain ⟨hInv', hOthers⟩ := hFits.op i w o _ _ _ hInv hAllow hOp
    exact ⟨hInv', hOthers, by simpa using hRest _ _ hOp⟩
  | @finish i w hProc =>
    refine ⟨i, by simp [hProc], fun j hj => Function.update_of_ne hj _ _, fun h => ?_⟩
    rw [hProc] at h
    exact ⟨hInv, fun j _ => hFits.refl j _ hInv, by simpa using h⟩
  | @stop i w p hProc =>
    obtain ⟨hInv', hOthers⟩ := hFits.stop i c.state hInv
    refine ⟨i, by simp [hProc], fun j hj => Function.update_of_ne hj _ _, fun h => ?_⟩
    exact ⟨hInv', hOthers, by simpa using hFits.stop_pre i _ hInv⟩

/-- One step keeps the invariant, and every process to its contract. -/
theorem Sound.step (hFits : P.Fits rely allows pre Inv) {c c' : P.Conf} (hInv : Inv c.state)
    (h : Sound P rely allows pre c) (hStep : P.Step c c') :
    Inv c'.state ∧ Sound P rely allows pre c' := by
  obtain ⟨i, -, hSame, hSound⟩ := hStep.soundAt hFits hInv
  obtain ⟨hInv', hRely, hAt⟩ := hSound (h i)
  refine ⟨hInv', fun j => ?_⟩
  by_cases hji : j = i
  · exact hji ▸ hAt
  · exact SoundAt.other hFits (h j) (hSame j hji) (hRely j (Ne.symm hji))

/-- In every run the invariant holds, and every process keeps to its contract. -/
theorem Run.sound (hFits : P.Fits rely allows pre Inv) {s : σ} (hInv : Inv s)
    (hPre : ∀ i, pre i s) {c : P.Conf} (hRun : P.Run (P.Idle s) c) :
    Inv c.state ∧ Sound P rely allows pre c := by
  induction hRun with
  | refl => exact ⟨hInv, Sound.idle hPre⟩
  | tail _ hStep ih => exact ih.2.step hFits ih.1 hStep

-- ---------------------------------------------------------------------------
-- Fewer steps
-- ---------------------------------------------------------------------------

/-- The pool as far as its operations are issued in states as in `R`. -/
def restrict (P : Pool Op Res σ ι W) (R : σ → Op → Prop) : Pool Op Res σ ι W :=
  { P with step := fun i w o s r s' => P.step i w o s r s' ∧ R s o }

variable {R : σ → Op → Prop} {K : σ → σ → Prop}

omit [DecidableEq ι] in
theorem wp_restrict {i : ι} {w : W} {α : Type} {p : Prog Op Res α} {Q : α → σ → Prop} {s : σ}
    (h : p.wp ⟨P.step i w, rely i, allows i⟩ Q s) :
    p.wp ⟨(P.restrict R).step i w, fun s s' => rely i s s' ∧ K s s', allows i⟩ Q s :=
  Prog.wp_contract (C := ⟨P.step i w, rely i, allows i⟩) (fun _ _ _ _ hStep => hStep.1)
    (fun _ _ hR => hR.1) (fun _ _ hAllow => hAllow) h

omit [DecidableEq ι] in
/-- A process that keeps to its contract does so when the steps are fewer. -/
theorem SoundAt.restrict {c : P.Conf} {i : ι} (h : SoundAt P rely allows pre c i) :
    SoundAt (P.restrict R) (fun i s s' => rely i s s' ∧ K s s') allows pre
      ⟨c.state, c.procs⟩ i := by
  unfold SoundAt at h ⊢
  rcases hProc : c.procs i with _ | ⟨w, p⟩
  · rwa [hProc] at h
  · rw [hProc] at h
    exact wp_restrict h

omit [DecidableEq ι] in
/-- The contracts of a pool, with what its operations change as long as they are as in `R`. -/
theorem Fits.restrict (hFits : P.Fits rely allows pre Inv) (hRefl : ∀ s, K s s)
    (hTrans : ∀ i s s' s'', rely i s s' → K s s' → K s' s'' → K s s'')
    (hOp : ∀ i w o s r s', Inv s → allows i o s → P.step i w o s r s' → R s o → K s s')
    (hEnter : ∀ i s, K s (P.enter i s)) (hStop : ∀ i s, K s (P.stop i s)) :
    (P.restrict R).Fits (fun i s s' => rely i s s' ∧ K s s') allows pre Inv where
  refl := fun i s hInv => ⟨hFits.refl i s hInv, hRefl s⟩
  trans := fun i s s' s'' h h' => ⟨hFits.trans i s s' s'' h.1 h'.1, hTrans i s s' s'' h.1 h.2 h'.2⟩
  pre_stable := fun i s s' h hPre => hFits.pre_stable i s s' h.1 hPre
  task := fun i w s hInv hPre => wp_restrict (hFits.task i w s hInv hPre)
  op := fun i w o s r s' hInv hAllow hStep => by
    obtain ⟨hInv', hOthers⟩ := hFits.op i w o s r s' hInv hAllow hStep.1
    have hKept := hOp i w o s r s' hInv hAllow hStep.1 hStep.2
    exact ⟨hInv', fun j hj => ⟨hOthers j hj, hKept⟩⟩
  enter := fun i s hInv => by
    obtain ⟨hInv', hOthers⟩ := hFits.enter i s hInv
    exact ⟨hInv', fun j hj => ⟨hOthers j hj, hEnter i s⟩⟩
  stop := fun i s hInv => by
    obtain ⟨hInv', hOthers⟩ := hFits.stop i s hInv
    exact ⟨hInv', fun j hj => ⟨hOthers j hj, hStop i s⟩⟩
  stop_pre := hFits.stop_pre

-- ---------------------------------------------------------------------------
-- One process running
-- ---------------------------------------------------------------------------

/-- A process that runs for `n` operations on a deterministic machine, from states in which the
pool admits them. -/
theorem Run.evalN {i : ι} {w : W} (step : (o : Op) → σ → Res o × σ) {A : σ → Prop}
    (hStep : ∀ o s, A s → P.step i w o s (step o s).1 (step o s).2) {p : Prog Op Res Unit}
    {c : P.Conf} (hProc : c.procs i = some (w, p)) (n : Nat)
    (hA : ∀ k < n, A (p.evalN step k c.state).2) :
    ∃ c', P.Run c c' ∧ c'.state = (p.evalN step n c.state).2 ∧
      ∀ j, j ≠ i → c'.procs j = c.procs j := by
  induction n generalizing p c with
  | zero =>
    refine ⟨c, .refl, ?_, fun _ _ => rfl⟩
    cases p <;> rfl
  | succ n ih =>
    cases p with
    | ret a => exact ⟨c, .refl, rfl, fun _ _ => rfl⟩
    | call o k =>
      obtain ⟨c', hRun, hState, hOthers⟩ := @ih (k (step o c.state).1)
        ⟨(step o c.state).2, Function.update c.procs i (some (w, k (step o c.state).1))⟩
        (Function.update_self _ _ _) fun k hk => hA (k + 1) (Nat.succ_lt_succ hk)
      refine ⟨c', .head (.op i hProc (hStep o c.state (hA 0 (Nat.succ_pos n)))) hRun, hState,
        fun j hj => (hOthers j hj).trans (Function.update_of_ne hj _ _)⟩

/-- A process begins a task and runs alone for `n` operations. -/
theorem Run.alone {i : ι} {w : W} (step : (o : Op) → σ → Res o × σ) {A : σ → Prop}
    (hStep : ∀ o s, A s → P.step i w o s (step o s).1 (step o s).2) (s : σ) (n : Nat)
    (hA : ∀ k < n, A ((P.prog i w).evalN step k (P.enter i s)).2) :
    ∃ c, P.Run (P.Idle s) c ∧ c.state = ((P.prog i w).evalN step n (P.enter i s)).2 ∧
      ∀ j, j ≠ i → c.procs j = none := by
  obtain ⟨c, hRun, hState, hOthers⟩ := Run.evalN (P := P) step hStep
    (c := ⟨P.enter i s, Function.update (P.Idle s).procs i (some (w, P.prog i w))⟩)
    (Function.update_self _ _ _) n hA
  exact ⟨c, .head (.start i w rfl) hRun, hState, fun j hj => (hOthers j hj).trans
    (Function.update_of_ne hj _ _)⟩

end Pool
