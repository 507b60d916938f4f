import Ripindex.Lib.Trace
import Ripindex.Store.Update

/-!
# The watcher

`store/watcher.rs`: the schedule of `run`, between what its source reports and the calls of
`on_trigger`, and the loop that it makes with `update_index`.

## Results

* `staleness_bound` — when a trigger comes in time;
* `updates_feed_themselves` — a reconcile that found nothing to do causes the next one.
-/

namespace Ripindex

-- ---------------------------------------------------------------------------
-- The schedule
-- ---------------------------------------------------------------------------

inductive RecvOutcome
  | hint
  | overflow
  | timeout
  | closed
  deriving DecidableEq, Repr

structure WatchConfig where
  debounceMs : Nat
  periodicReconcileMs : Nat

/-- Why `on_trigger` is called: at the start, after the period, or behind a burst of hints. -/
inductive Cause
  | start
  | periodic
  | hint
  deriving DecidableEq, Repr

/-- Where `run` stands. -/
inductive Phase
  /-- In front of `on_trigger()`. -/
  | trigger (cause : Cause)
  /-- At the top of the loop, in front of `should_stop()`. -/
  | head
  /-- In `source.recv(wait)`. -/
  | waiting (wait : Nat)
  /-- In the `source.recv(cfg.debounce_ms)` of the inner loop. -/
  | absorbing
  | done
  deriving DecidableEq, Repr

structure Watch where
  phase : Phase
  now : Nat
  lastTrigger : Nat
  deriving DecidableEq, Repr

/-- What the surroundings of `run` do: `on_trigger` returns, `should_stop` answers, `recv`
returns after some time. -/
inductive Tick
  | fire (took : Nat)
  | check (stop : Bool)
  | recv (outcome : RecvOutcome) (after : Nat)
  deriving DecidableEq, Repr

namespace Watch

def start (now : Nat) : Watch := ⟨.trigger .start, now, now⟩

/-- `recv` keeps its promise: no longer than asked for, and `Timeout` only after all of it. -/
def InTime (outcome : RecvOutcome) (after timeout : Nat) : Prop :=
  after ≤ timeout ∧ (outcome = .timeout → after = timeout)

instance (outcome : RecvOutcome) (after timeout : Nat) :
    Decidable (InTime outcome after timeout) :=
  inferInstanceAs (Decidable (_ ∧ _))

/-- `run`, up to the next call that it makes. -/
def step (cfg : WatchConfig) : Watch → Tick → Option Watch
  | ⟨.trigger _, now, _⟩, .fire took => some ⟨.head, now + took, now + took⟩
  | ⟨.head, now, last⟩, .check stop =>
    if stop then some ⟨.done, now, last⟩
    else
      let elapsed := now - last
      some ⟨.waiting (cfg.periodicReconcileMs - elapsed), now, last⟩
  | ⟨.waiting wait, now, last⟩, .recv outcome after =>
    if InTime outcome after wait then
      match outcome with
      | .closed => some ⟨.done, now + after, last⟩
      | .timeout => some ⟨.trigger .periodic, now + after, last⟩
      | .hint | .overflow => some ⟨.absorbing, now + after, last⟩
    else none
  | ⟨.absorbing, now, last⟩, .recv outcome after =>
    if InTime outcome after cfg.debounceMs then
      match outcome with
      | .hint | .overflow => some ⟨.absorbing, now + after, last⟩
      | .timeout | .closed => some ⟨.trigger .hint, now + after, last⟩
    else none
  | _, _ => none

/-- How long the call that `run` is in may still take. -/
def timeout (cfg : WatchConfig) (w : Watch) : Nat :=
  match w.phase with
  | .waiting wait => wait
  | .absorbing => cfg.debounceMs
  | _ => 0

/-- Now, and as long as the call lasts, the last trigger is not too long ago. -/
def Fresh (cfg : WatchConfig) (w : Watch) : Prop :=
  ∀ after ≤ w.timeout cfg,
    w.now + after ≤ w.lastTrigger + (cfg.periodicReconcileMs + cfg.debounceMs)

/-- A hint that the inner loop absorbs comes no later than a period after the last trigger. -/
def Prompt (cfg : WatchConfig) (w : Watch) : Tick → Prop
  | .recv outcome after => w.phase = .absorbing → outcome = .hint ∨ outcome = .overflow →
    w.now + after ≤ w.lastTrigger + cfg.periodicReconcileMs
  | _ => True

/-- A run: `none` if the surroundings do what `run` does not wait for. -/
def run (cfg : WatchConfig) : Watch → List Tick → Option Watch
  | w, [] => some w
  | w, t :: ts => (step cfg w t).bind fun w' => run cfg w' ts

/-- The property holds at every point of a run. -/
def Always (cfg : WatchConfig) (P : Watch → Prop) : Watch → List Tick → Prop
  | w, [] => P w
  | w, t :: ts => P w ∧ ∀ w', step cfg w t = some w' → Always cfg P w' ts

/-- Every step of a run meets the condition. -/
def Meets (cfg : WatchConfig) (C : Watch → Tick → Prop) : Watch → List Tick → Prop
  | _, [] => True
  | w, t :: ts => ∀ w', step cfg w t = some w' → C w t ∧ Meets cfg C w' ts

-- ---------------------------------------------------------------------------
-- The bound
-- ---------------------------------------------------------------------------

/-- What is known of the time at each place of `run`. -/
def Inv (cfg : WatchConfig) (w : Watch) : Prop :=
  match w.phase with
  | .head => w.now = w.lastTrigger
  | .waiting wait => w.now = w.lastTrigger ∧ wait = cfg.periodicReconcileMs
  | .absorbing => w.now ≤ w.lastTrigger + cfg.periodicReconcileMs
  | .trigger _ | .done =>
    w.now ≤ w.lastTrigger + (cfg.periodicReconcileMs + cfg.debounceMs)

theorem inv_start (cfg : WatchConfig) (now : Nat) : Inv cfg (start now) :=
  Nat.le_add_right _ _

theorem Inv.fresh {cfg : WatchConfig} {w : Watch} (h : Inv cfg w) : Fresh cfg w := by
  intro after hAfter
  obtain ⟨phase, now, last⟩ := w
  cases phase <;> simp only [Inv, timeout] at h hAfter ⊢ <;> omega

/-- A prompt step keeps what is known. -/
theorem Inv.step {cfg : WatchConfig} {w w' : Watch} {t : Tick} (h : Inv cfg w)
    (hStep : step cfg w t = some w') (hPrompt : Prompt cfg w t) : Inv cfg w' := by
  obtain ⟨phase, now, last⟩ := w
  cases phase with
  | trigger cause =>
    cases t with
    | fire took =>
      obtain rfl := Option.some.inj hStep
      rfl
    | check stop => cases hStep
    | recv outcome after => cases hStep
  | head =>
    cases t with
    | check stop =>
      cases stop with
      | true =>
        obtain rfl := Option.some.inj hStep
        simp only [Inv] at h ⊢
        omega
      | false =>
        obtain rfl := Option.some.inj hStep
        simp only [Inv] at h ⊢
        omega
    | fire took => cases hStep
    | recv outcome after => cases hStep
  | waiting wait =>
    cases t with
    | recv outcome after =>
      simp only [Watch.step] at hStep
      split_ifs at hStep with hTime
      obtain ⟨hLe, -⟩ := hTime
      simp only [Inv] at h
      cases outcome <;> obtain rfl := Option.some.inj hStep <;> simp only [Inv] <;> omega
    | fire took => cases hStep
    | check stop => cases hStep
  | absorbing =>
    cases t with
    | recv outcome after =>
      simp only [Watch.step] at hStep
      split_ifs at hStep with hTime
      obtain ⟨hLe, -⟩ := hTime
      simp only [Inv] at h
      cases outcome with
      | hint =>
        obtain rfl := Option.some.inj hStep
        exact hPrompt rfl (.inl rfl)
      | overflow =>
        obtain rfl := Option.some.inj hStep
        exact hPrompt rfl (.inr rfl)
      | timeout =>
        obtain rfl := Option.some.inj hStep
        simp only [Inv]
        omega
      | closed =>
        obtain rfl := Option.some.inj hStep
        simp only [Inv]
        omega
    | fire took => cases hStep
    | check stop => cases hStep
  | done => cases t <;> cases hStep

/-- Absorbing a late hint, the inner loop may wait too long. -/
theorem prompt_of_fresh {cfg : WatchConfig} {w w' : Watch} {t : Tick}
    (hStep : step cfg w t = some w') (hFresh : Fresh cfg w') : Prompt cfg w t := by
  cases t with
  | recv outcome after =>
    intro hPhase hHint
    obtain ⟨phase, now, last⟩ := w
    obtain rfl : phase = .absorbing := hPhase
    simp only [Watch.step] at hStep
    split_ifs at hStep with hTime
    have hNext : w' = ⟨.absorbing, now + after, last⟩ := by
      rcases hHint with rfl | rfl
      · exact (Option.some.inj hStep).symm
      · exact (Option.some.inj hStep).symm
    subst hNext
    have hEnd := hFresh cfg.debounceMs (Nat.le_refl _)
    simp only at hEnd ⊢
    omega
  | fire took => trivial
  | check stop => trivial

theorem always_iff {cfg : WatchConfig} {w : Watch} {ts : List Tick} (h : Inv cfg w) :
    Always cfg (Fresh cfg) w ts ↔ Meets cfg (Prompt cfg) w ts := by
  induction ts generalizing w with
  | nil => exact iff_of_true h.fresh trivial
  | cons t ts ih =>
    constructor
    · rintro ⟨-, hRest⟩ w' hStep
      have hAlways := hRest w' hStep
      have hFresh : Fresh cfg w' := by
        cases ts with
        | nil => exact hAlways
        | cons _ _ => exact hAlways.1
      have hPrompt := prompt_of_fresh hStep hFresh
      exact ⟨hPrompt, (ih (h.step hStep hPrompt)).mp hAlways⟩
    · intro hMeets
      refine ⟨h.fresh, fun w' hStep => ?_⟩
      obtain ⟨hPrompt, hRest⟩ := hMeets w' hStep
      exact (ih (h.step hStep hPrompt)).mpr hRest

end Watch

/-- A trigger is at most `periodic_reconcile_ms + debounce_ms` ago at every point of a run
exactly if the debounce loop absorbs no hint later than `periodic_reconcile_ms` after the
last one. -/
theorem staleness_bound (cfg : WatchConfig) (now : Nat) (ticks : List Tick) :
    Watch.Always cfg (Watch.Fresh cfg) (Watch.start now) ticks ↔
      Watch.Meets cfg (Watch.Prompt cfg) (Watch.start now) ticks :=
  Watch.always_iff (Watch.inv_start cfg now)

namespace Watch

theorem Always.at_end {cfg : WatchConfig} {P : Watch → Prop} {w w' : Watch} {ts : List Tick}
    (h : Always cfg P w ts) (hRun : run cfg w ts = some w') : P w' := by
  induction ts generalizing w with
  | nil =>
    obtain rfl := Option.some.inj hRun
    exact h
  | cons t ts ih =>
    obtain ⟨w₁, hStep, hRest⟩ := Option.bind_eq_some_iff.mp hRun
    exact ih (h.2 w₁ hStep) hRest

/-- Hints that keep coming are absorbed for ever. -/
theorem run_hints {cfg : WatchConfig} {k : Nat} (hk : k ≤ cfg.debounceMs) (n now last : Nat) :
    run cfg ⟨.absorbing, now, last⟩ (List.replicate n (.recv .hint k)) =
      some ⟨.absorbing, now + n * k, last⟩ := by
  induction n generalizing now with
  | zero => rw [Nat.zero_mul, Nat.add_zero]; rfl
  | succ n ih =>
    have hTime : InTime .hint k cfg.debounceMs := ⟨hk, fun h => nomatch h⟩
    rw [List.replicate_succ, run, step, if_pos hTime]
    show run cfg ⟨.absorbing, now + k, last⟩ _ = _
    rw [ih, Nat.succ_mul, Nat.add_assoc, Nat.add_comm k]

end Watch

/-- The defaults of `WatchConfig`. -/
def WatchConfig.default : WatchConfig := ⟨500, 10 * 60 * 1000⟩

/-- A hint every 499 ms. -/
def steadyHints (n : Nat) : List Tick :=
  .fire 0 :: .check false :: .recv .hint 499 :: List.replicate n (.recv .hint 499)

theorem run_steadyHints (n : Nat) :
    Watch.run .default (Watch.start 0) (steadyHints n) = some ⟨.absorbing, 499 + n * 499, 0⟩ :=
  @Watch.run_hints .default 499 (by decide) n 499 0

/-- For more than ten minutes the schedule starves: the hints are absorbed, and no trigger
comes. -/
theorem steadyHints_starve :
    Watch.run .default (Watch.start 0) (steadyHints 1300) = some ⟨.absorbing, 649199, 0⟩ ∧
      ¬ Watch.Always .default (Watch.Fresh .default) (Watch.start 0) (steadyHints 1300) := by
  have hRun := run_steadyHints 1300
  refine ⟨hRun, fun hAlways => ?_⟩
  have hFresh := hAlways.at_end hRun 0 (Nat.zero_le _)
  exact absurd hFresh (by decide)

-- ---------------------------------------------------------------------------
-- What a reconcile modifies
-- ---------------------------------------------------------------------------

/-- Whether an operation with this result has modified a file below the root. `RealFs::lock`
truncates `LOCK` and writes the process id into it. -/
def FsOp.modifies : Prog.Done FsOp FsOp.Res → Bool
  | ⟨.lock, .ok ()⟩ => true
  | ⟨.create _, .ok ()⟩ => true
  | ⟨.write _ _, _⟩ => true
  | ⟨.rename _ _, .ok ()⟩ => true
  | ⟨.remove _, .ok ()⟩ => true
  | _ => false

/-- Whether an operation has put a manifest in place. -/
def FsOp.commits : Prog.Done FsOp FsOp.Res → Bool
  | ⟨.rename (.tmp .manifest) .manifest, .ok ()⟩ => true
  | _ => false

namespace FsE

/-- The trace of a sequence that succeeds. -/
theorem runs_bind_ok {α β : Type} {x : FsE α} {f : α → FsE β}
    {tr : List (Prog.Done FsOp FsOp.Res)} {b : β} (h : Prog.Runs (x >>= f).run tr (.ok b)) :
    ∃ a tr₁ tr₂, tr = tr₁ ++ tr₂ ∧ Prog.Runs x.run tr₁ (.ok a) ∧
      Prog.Runs (f a).run tr₂ (.ok b) := by
  rw [ExceptT.run_bind] at h
  obtain ⟨r, tr₁, tr₂, rfl, hFirst, hRest⟩ := Prog.Runs.of_bind h
  rcases r with e | a
  · cases hRest
  · exact ⟨a, tr₁, tr₂, rfl, hFirst, hRest⟩

end FsE

theorem lock_mem_of_takeLockPolls {n : Nat} {tr : List (Prog.Done FsOp FsOp.Res)}
    (h : Prog.Runs (takeLockPolls n).run tr (.ok ())) : ⟨.lock, .ok ()⟩ ∈ tr := by
  induction n generalizing tr with
  | zero => cases h
  | succ n ih =>
    rw [takeLockPolls] at h
    obtain ⟨r, tr₁, tr₂, rfl, hFirst, hRest⟩ := FsE.runs_bind_ok h
    rcases r with e | ⟨⟩
    · cases e with
      | wouldBlock => exact List.mem_append_right _ (ih hRest)
      | _ => cases hRest
    · refine List.mem_append_left _ ?_
      cases hFirst with
      | call hEnd =>
        cases hEnd
        exact List.mem_singleton_self _

section Feeding

variable [Platform]

/-- Whatever the file system does, a reconcile that returns an index has taken the lock. -/
theorem lock_mem_of_updateIndex {w : World} {cfg : BuildConfig} {I : Index}
    {tr : List (Prog.Done FsOp FsOp.Res)}
    (h : Prog.Runs (updateIndex w cfg).run tr (.ok I)) : ⟨.lock, .ok ()⟩ ∈ tr := by
  unfold updateIndex at h
  rcases hRoot : w.rootIsDir with _ | _
  · rw [hRoot] at h
    cases h
  rw [hRoot] at h
  obtain ⟨⟨⟩, tr₁, tr₂, rfl, -, h⟩ := FsE.runs_bind_ok h
  obtain ⟨previous, tr₃, tr₄, rfl, h, -⟩ := FsE.runs_bind_ok h
  unfold withLock at h
  obtain ⟨⟨⟩, tr₅, tr₆, rfl, hLock, -⟩ := FsE.runs_bind_ok h
  have hMem := lock_mem_of_takeLockPolls hLock
  exact List.mem_append_right _ (List.mem_append_left _ (List.mem_append_left _ hMem))

/-- One call of `update_index`, whatever the file system answers. -/
structure UpdateRun where
  world : World
  cfg : BuildConfig
  trace : List (Prog.Done FsOp FsOp.Res)
  result : Except Error Index
  runs : Prog.Runs (updateIndex world cfg).run trace result

namespace UpdateRun

/-- The plan was empty: an index is returned, and nothing was committed. -/
def FoundNothing (u : UpdateRun) : Prop :=
  (∃ I, u.result = .ok I) ∧ ∀ d ∈ u.trace, FsOp.commits d = false

/-- How many modifications the call makes below the root. -/
def modifications (u : UpdateRun) : Nat := u.trace.countP FsOp.modifies

theorem FoundNothing.modifications_pos {u : UpdateRun} (h : u.FoundNothing) :
    0 < u.modifications := by
  obtain ⟨⟨I, hOk⟩, -⟩ := h
  have hRuns := u.runs
  rw [hOk] at hRuns
  exact List.countP_pos_iff.mpr ⟨_, lock_mem_of_updateIndex hRuns, rfl⟩

/-- A call against one file system, without faults and without others. -/
def alone (world : World) (cfg : BuildConfig) (s : FsState) : UpdateRun where
  world := world
  cfg := cfg
  trace := (updateIndex world cfg).run.trace (FsOp.exec 0 false) s
  result := ((updateIndex world cfg).run.eval (FsOp.exec 0 false) s).1
  runs := Prog.runs_trace _ _ _

end UpdateRun

-- ---------------------------------------------------------------------------
-- The watcher on its own index
-- ---------------------------------------------------------------------------

/-- The watcher with the events that wait in the channel of its `NotifySource`, and the causes
of the calls so far. -/
structure Loop where
  watch : Watch
  queue : Nat
  calls : List Cause

/-- As `Tick`; a call of `on_trigger` is one of `update_index`, and other programs may modify
files below the root at any time. -/
inductive LoopTick
  | change
  | fire (took : Nat) (u : UpdateRun)
  | check (stop : Bool)
  | recv (outcome : RecvOutcome) (after : Nat)

def LoopTick.isFire : LoopTick → Bool
  | .fire _ _ => true
  | _ => false

/-- The watcher ends before it calls `on_trigger` again: `should_stop` answers true, or the
source is closed when `run` waits for the first event. A source that closes in the debounce
loop does not end it. -/
def Quits : List LoopTick → Prop
  | .change :: ts => Quits ts
  | .check stop :: ts => stop = true ∨ Quits ts
  | .recv outcome _ :: _ => outcome = .closed
  | .fire _ _ :: _ => False
  | [] => False

namespace Loop

def start (now : Nat) : Loop := ⟨Watch.start now, 0, []⟩

/-- `NotifySource::recv`: an event that waits is delivered, and only a modification makes
one. -/
def Delivers (queue : Nat) : RecvOutcome → Prop
  | .hint => 0 < queue
  | .timeout => queue = 0
  | .overflow | .closed => True

instance (queue : Nat) (outcome : RecvOutcome) : Decidable (Delivers queue outcome) := by
  cases outcome <;> unfold Delivers <;> infer_instance

def step (cfg : WatchConfig) (l : Loop) : LoopTick → Option Loop
  | .change => some { l with queue := l.queue + 1 }
  | .check stop => (l.watch.step cfg (.check stop)).map fun w => { l with watch := w }
  | .recv outcome after =>
    if Delivers l.queue outcome then
      (l.watch.step cfg (.recv outcome after)).map fun w =>
        -- A hint drains the channel.
        { l with watch := w, queue := if outcome = .hint then 0 else l.queue }
    else none
  | .fire took u =>
    match l.watch.phase with
    | .trigger cause => (l.watch.step cfg (.fire took)).map fun w =>
        ⟨w, l.queue + u.modifications, l.calls ++ [cause]⟩
    | _ => none

def run (cfg : WatchConfig) : Loop → List LoopTick → Option Loop
  | l, [] => some l
  | l, t :: ts => (step cfg l t).bind fun l' => run cfg l' ts

/-- In front of its next `source.recv(wait)`. -/
def AtTop (l : Loop) : Prop := l.watch.phase = .head ∨ ∃ wait, l.watch.phase = .waiting wait

/-- In the debounce loop, or behind it. -/
def InBurst (l : Loop) : Prop := l.watch.phase = .absorbing ∨ l.watch.phase = .trigger .hint

/-- What a `recv` of the watcher does. -/
theorem step_recv {cfg : WatchConfig} {l l' : Loop} {outcome : RecvOutcome} {after : Nat}
    (h : step cfg l (.recv outcome after) = some l') :
    Delivers l.queue outcome ∧ ∃ w, l.watch.step cfg (.recv outcome after) = some w ∧
      l' = { l with watch := w, queue := if outcome = .hint then 0 else l.queue } := by
  rw [Loop.step] at h
  by_cases hDelivers : Delivers l.queue outcome
  · rw [if_pos hDelivers] at h
    obtain ⟨w, hStep, hNext⟩ := Option.map_eq_some_iff.mp h
    exact ⟨hDelivers, w, hStep, hNext.symm⟩
  · rw [if_neg hDelivers] at h
    cases h

/-- The next call can only come from a hint: one waits, or it is being absorbed already. -/
def Fed (l : Loop) : Prop :=
  match l.watch.phase with
  | .head | .waiting _ => 0 < l.queue
  | .absorbing | .trigger .hint | .done => True
  | .trigger _ => False

/-- After a reconcile that found nothing to do, the lock file it has written waits in the
channel. -/
theorem fed_of_fire {cfg : WatchConfig} {l l' : Loop} {took : Nat} {u : UpdateRun}
    (h : step cfg l (.fire took u) = some l') (hNothing : u.FoundNothing) : l'.Fed := by
  obtain ⟨⟨phase, now, last⟩, queue, calls⟩ := l
  cases phase with
  | trigger cause =>
    obtain rfl := Option.some.inj h
    have hPos := hNothing.modifications_pos
    show 0 < queue + u.modifications
    omega
  | head => cases h
  | waiting wait => cases h
  | absorbing => cases h
  | done => cases h

omit [Platform] in
/-- While a hint waits, `recv` does not time out. -/
theorem fed_of_recv {cfg : WatchConfig} {w w' : Watch} {queue queue' : Nat}
    {calls : List Cause} {outcome : RecvOutcome} {after : Nat} (hFed : Fed ⟨w, queue, calls⟩)
    (hDelivers : Delivers queue outcome) (hStep : w.step cfg (.recv outcome after) = some w') :
    Fed ⟨w', queue', calls⟩ := by
  obtain ⟨phase, now, last⟩ := w
  cases phase with
  | waiting wait =>
    simp only [Watch.step] at hStep
    split_ifs at hStep
    cases outcome with
    | timeout =>
      have hEmpty : queue = 0 := hDelivers
      have hSome : 0 < queue := hFed
      omega
    | hint =>
      obtain rfl := Option.some.inj hStep
      trivial
    | overflow =>
      obtain rfl := Option.some.inj hStep
      trivial
    | closed =>
      obtain rfl := Option.some.inj hStep
      trivial
  | absorbing =>
    simp only [Watch.step] at hStep
    split_ifs at hStep
    cases outcome <;> obtain rfl := Option.some.inj hStep <;> trivial
  | trigger cause => cases hStep
  | head => cases hStep
  | done => cases hStep

/-- A step calls for the hint, or calls nothing and keeps what is known. -/
theorem Fed.step {cfg : WatchConfig} {l l' : Loop} {t : LoopTick} (hFed : l.Fed)
    (h : step cfg l t = some l') :
    (l'.calls = l.calls ∧ l'.Fed) ∨ l'.calls = l.calls ++ [.hint] := by
  obtain ⟨⟨phase, now, last⟩, queue, calls⟩ := l
  cases t with
  | change =>
    obtain rfl := Option.some.inj h
    refine .inl ⟨rfl, ?_⟩
    cases phase with
    | head => exact Nat.succ_pos _
    | waiting wait => exact Nat.succ_pos _
    | trigger cause => cases cause <;> exact hFed
    | absorbing => trivial
    | done => trivial
  | fire took u =>
    cases phase with
    | trigger cause =>
      obtain rfl := Option.some.inj h
      cases cause with
      | hint => exact .inr rfl
      | start => exact hFed.elim
      | periodic => exact hFed.elim
    | head => cases h
    | waiting wait => cases h
    | absorbing => cases h
    | done => cases h
  | check stop =>
    obtain ⟨w, hStep, rfl⟩ := Option.map_eq_some_iff.mp h
    cases phase with
    | head =>
      cases stop with
      | true =>
        obtain rfl := Option.some.inj hStep
        exact .inl ⟨rfl, trivial⟩
      | false =>
        obtain rfl := Option.some.inj hStep
        exact .inl ⟨rfl, hFed⟩
    | trigger cause => cases hStep
    | waiting wait => cases hStep
    | absorbing => cases hStep
    | done => cases hStep
  | recv outcome after =>
    obtain ⟨hDelivers, w, hStep, rfl⟩ := step_recv h
    exact .inl ⟨rfl, fed_of_recv hFed hDelivers hStep⟩

/-- A call of `on_trigger` and no other tick adds to the calls. -/
theorem calls_of_step {cfg : WatchConfig} {l l' : Loop} {t : LoopTick}
    (h : step cfg l t = some l') :
    (t.isFire = false ∧ l'.calls = l.calls) ∨
      (t.isFire = true ∧ ∃ cause, l'.calls = l.calls ++ [cause]) := by
  cases t with
  | change =>
    obtain rfl := Option.some.inj h
    exact .inl ⟨rfl, rfl⟩
  | check stop =>
    obtain ⟨w, -, rfl⟩ := Option.map_eq_some_iff.mp h
    exact .inl ⟨rfl, rfl⟩
  | recv outcome after =>
    obtain ⟨-, w, -, rfl⟩ := step_recv h
    exact .inl ⟨rfl, rfl⟩
  | fire took u =>
    obtain ⟨⟨phase, now, last⟩, queue, calls⟩ := l
    cases phase with
    | trigger cause =>
      obtain rfl := Option.some.inj h
      exact .inr ⟨rfl, cause, rfl⟩
    | head => cases h
    | waiting wait => cases h
    | absorbing => cases h
    | done => cases h

/-- Calls are only added, one for each call of `on_trigger` among the ticks. -/
theorem calls_of_run {cfg : WatchConfig} {l l' : Loop} {ts : List LoopTick}
    (h : run cfg l ts = some l') :
    ∃ more, l'.calls = l.calls ++ more ∧ more.length = ts.countP LoopTick.isFire := by
  induction ts generalizing l with
  | nil =>
    obtain rfl := Option.some.inj h
    exact ⟨[], (List.append_nil _).symm, rfl⟩
  | cons t ts ih =>
    obtain ⟨l₁, hStep, hRest⟩ := Option.bind_eq_some_iff.mp h
    obtain ⟨rest, hCalls, hLength⟩ := ih hRest
    rcases calls_of_step hStep with ⟨hFire, hSame⟩ | ⟨hFire, cause, hMore⟩
    · refine ⟨rest, by rw [hCalls, hSame], ?_⟩
      rw [List.countP_cons_of_neg (by simp [hFire]), hLength]
    · refine ⟨cause :: rest, by rw [hCalls, hMore, List.append_assoc]; rfl, ?_⟩
      rw [List.countP_cons_of_pos hFire, List.length_cons, hLength]

theorem run_append {cfg : WatchConfig} (l : Loop) (ts ts' : List LoopTick) :
    run cfg l (ts ++ ts') = (run cfg l ts).bind fun l' => run cfg l' ts' := by
  induction ts generalizing l with
  | nil => rfl
  | cons t ts ih =>
    rw [List.cons_append, run, run, Option.bind_assoc]
    exact congrArg (Option.bind _) (funext fun l' => ih l')

/-- `run` looks at `should_stop` behind a call. -/
theorem atTop_of_fire {cfg : WatchConfig} {l l' : Loop} {took : Nat} {u : UpdateRun}
    (h : step cfg l (.fire took u) = some l') : l'.AtTop := by
  obtain ⟨⟨phase, now, last⟩, queue, calls⟩ := l
  cases phase with
  | trigger cause =>
    obtain rfl := Option.some.inj h
    exact .inl rfl
  | head => cases h
  | waiting wait => cases h
  | absorbing => cases h
  | done => cases h

/-- In a run, the first call after that is for the hint. -/
theorem Fed.run {cfg : WatchConfig} {l l' : Loop} {ts : List LoopTick} (hFed : l.Fed)
    (h : run cfg l ts = some l') :
    (l'.calls = l.calls ∧ l'.Fed) ∨ ∃ more, l'.calls = l.calls ++ .hint :: more := by
  induction ts generalizing l with
  | nil =>
    obtain rfl := Option.some.inj h
    exact .inl ⟨rfl, hFed⟩
  | cons t ts ih =>
    obtain ⟨l₁, hStep, hRest⟩ := Option.bind_eq_some_iff.mp h
    rcases hFed.step hStep with ⟨hSame, hNext⟩ | hCall
    · rw [← hSame]
      exact ih hNext hRest
    · obtain ⟨more, hMore, -⟩ := calls_of_run hRest
      refine .inr ⟨more, ?_⟩
      rw [hMore, hCall, List.append_assoc]
      rfl

/-- No call for a hint has been added exactly if no call has. -/
theorem Fed.no_hint_iff {cfg : WatchConfig} {l l' : Loop} {ts : List LoopTick} (hFed : l.Fed)
    (h : Loop.run cfg l ts = some l') :
    (∀ c ∈ l'.calls.drop l.calls.length, c ≠ .hint) ↔ l'.calls = l.calls := by
  constructor
  · intro hNone
    rcases hFed.run h with ⟨hSame, -⟩ | ⟨more, hMore⟩
    · exact hSame
    · rw [hMore, List.drop_left] at hNone
      exact absurd rfl (hNone .hint List.mem_cons_self)
  · intro hSame c hc
    rw [hSame, List.drop_length] at hc
    cases hc

-- ---------------------------------------------------------------------------
-- How the watcher ends
-- ---------------------------------------------------------------------------

omit [Platform] in
theorem AtTop.not_done {l : Loop} (h : l.AtTop) : l.watch.phase ≠ .done := by
  rcases h with h | ⟨wait, h⟩ <;> rw [h] <;> exact fun h => nomatch h

omit [Platform] in
theorem InBurst.not_done {l : Loop} (h : l.InBurst) : l.watch.phase ≠ .done := by
  rcases h with h | h <;> rw [h] <;> exact fun h => nomatch h

/-- A watcher that has returned stays so, and calls nothing more. -/
theorem run_of_done {cfg : WatchConfig} {l l' : Loop} {ts : List LoopTick}
    (hDone : l.watch.phase = .done) (h : run cfg l ts = some l') :
    l'.watch.phase = .done ∧ l'.calls = l.calls := by
  induction ts generalizing l with
  | nil =>
    obtain rfl := Option.some.inj h
    exact ⟨hDone, rfl⟩
  | cons t ts ih =>
    obtain ⟨l₁, hStep, hRest⟩ := Option.bind_eq_some_iff.mp h
    obtain ⟨⟨phase, now, last⟩, queue, calls⟩ := l
    obtain rfl : phase = .done := hDone
    cases t with
    | change =>
      obtain rfl := Option.some.inj hStep
      exact @ih ⟨⟨.done, now, last⟩, queue + 1, calls⟩ rfl hRest
    | fire took u => cases hStep
    | check stop => cases hStep
    | recv outcome after =>
      obtain ⟨-, w, hRecv, -⟩ := step_recv hStep
      cases hRecv

/-- At the top of the loop a step stays there, ends the watcher or begins a burst; none of
them is a call. -/
theorem AtTop.step {cfg : WatchConfig} {l l' : Loop} {t : LoopTick} (ts : List LoopTick)
    (hTop : l.AtTop) (hFed : l.Fed) (h : step cfg l t = some l') :
    l'.calls = l.calls ∧
      (l'.AtTop ∧ (Quits (t :: ts) ↔ Quits ts) ∨
        l'.watch.phase = .done ∧ Quits (t :: ts) ∨
        l'.InBurst ∧ ¬ Quits (t :: ts)) := by
  obtain ⟨⟨phase, now, last⟩, queue, calls⟩ := l
  cases t with
  | change =>
    obtain rfl := Option.some.inj h
    exact ⟨rfl, .inl ⟨hTop, Iff.rfl⟩⟩
  | fire took u =>
    rcases hTop with hPhase | ⟨wait, hPhase⟩ <;> obtain rfl := hPhase <;> cases h
  | check stop =>
    rcases hTop with hPhase | ⟨wait, hPhase⟩ <;> obtain rfl := hPhase
    · cases stop with
      | true =>
        obtain rfl := Option.some.inj h
        exact ⟨rfl, .inr (.inl ⟨rfl, .inl rfl⟩)⟩
      | false =>
        obtain rfl := Option.some.inj h
        exact ⟨rfl, .inl ⟨.inr ⟨_, rfl⟩, or_iff_right (fun h => nomatch h)⟩⟩
    · cases h
  | recv outcome after =>
    obtain ⟨hDelivers, w, hStep, rfl⟩ := step_recv h
    rcases hTop with hPhase | ⟨wait, hPhase⟩ <;> obtain rfl := hPhase
    · cases hStep
    · simp only [Watch.step] at hStep
      split_ifs at hStep
      cases outcome with
      | closed =>
        obtain rfl := Option.some.inj hStep
        exact ⟨rfl, .inr (.inl ⟨rfl, rfl⟩)⟩
      | timeout =>
        -- A hint waits in the channel.
        have hEmpty : queue = 0 := hDelivers
        have hSome : 0 < queue := hFed
        omega
      | hint =>
        obtain rfl := Option.some.inj hStep
        exact ⟨rfl, .inr (.inr ⟨.inl rfl, fun h => nomatch h⟩)⟩
      | overflow =>
        obtain rfl := Option.some.inj hStep
        exact ⟨rfl, .inr (.inr ⟨.inl rfl, fun h => nomatch h⟩)⟩

/-- A burst goes on, or it ends with a call of `on_trigger`. -/
theorem InBurst.step {cfg : WatchConfig} {l l' : Loop} {t : LoopTick} (hBurst : l.InBurst)
    (h : step cfg l t = some l') :
    l'.calls = l.calls ∧ l'.InBurst ∨ l'.calls = l.calls ++ [.hint] := by
  obtain ⟨⟨phase, now, last⟩, queue, calls⟩ := l
  cases t with
  | change =>
    obtain rfl := Option.some.inj h
    exact .inl ⟨rfl, hBurst⟩
  | check stop => rcases hBurst with hPhase | hPhase <;> obtain rfl := hPhase <;> cases h
  | fire took u =>
    rcases hBurst with hPhase | hPhase <;> obtain rfl := hPhase
    · cases h
    · obtain rfl := Option.some.inj h
      exact .inr rfl
  | recv outcome after =>
    obtain ⟨-, w, hStep, rfl⟩ := step_recv h
    refine .inl ⟨rfl, ?_⟩
    rcases hBurst with hPhase | hPhase <;> obtain rfl := hPhase
    · simp only [Watch.step] at hStep
      split_ifs at hStep
      cases outcome with
      | hint | overflow =>
        obtain rfl := Option.some.inj hStep
        exact .inl rfl
      | timeout | closed =>
        obtain rfl := Option.some.inj hStep
        exact .inr rfl
    · cases hStep

/-- Nothing but the call ends a burst. -/
theorem InBurst.run {cfg : WatchConfig} {l l' : Loop} {ts : List LoopTick}
    (hBurst : l.InBurst) (h : run cfg l ts = some l') (hSame : l'.calls = l.calls) :
    l'.InBurst := by
  induction ts generalizing l with
  | nil =>
    obtain rfl := Option.some.inj h
    exact hBurst
  | cons t ts ih =>
    obtain ⟨l₁, hStep, hRest⟩ := Option.bind_eq_some_iff.mp h
    rcases hBurst.step hStep with ⟨hKeep, hNext⟩ | hCall
    · exact ih hNext hRest (by rw [hSame, hKeep])
    · obtain ⟨more, hMore, -⟩ := calls_of_run hRest
      rw [hMore, hCall] at hSame
      exact absurd (congrArg List.length hSame) (by simp)

/-- From the top of the loop the watcher returns without a call exactly if it quits. -/
theorem AtTop.quits_iff {cfg : WatchConfig} {l l' : Loop} {ts : List LoopTick}
    (hTop : l.AtTop) (hFed : l.Fed) (h : run cfg l ts = some l') :
    Quits ts ↔ l'.watch.phase = .done ∧ l'.calls = l.calls := by
  induction ts generalizing l with
  | nil =>
    obtain rfl := Option.some.inj h
    exact iff_of_false id fun ⟨hDone, _⟩ => hTop.not_done hDone
  | cons t ts ih =>
    obtain ⟨l₁, hStep, hRest⟩ := Option.bind_eq_some_iff.mp h
    obtain ⟨hKeep, hCases⟩ := hTop.step ts hFed hStep
    rw [← hKeep]
    rcases hCases with ⟨hTop₁, hQuits⟩ | ⟨hDone, hQuits⟩ | ⟨hBurst, hNot⟩
    · have hFed₁ : l₁.Fed := by
        rcases hFed.step hStep with ⟨-, hNext⟩ | hCall
        · exact hNext
        · rw [hKeep] at hCall
          exact absurd (congrArg List.length hCall) (by simp)
      exact hQuits.trans (ih hTop₁ hFed₁ hRest)
    · exact iff_of_true hQuits (run_of_done hDone hRest)
    · exact iff_of_false hNot fun ⟨hDone, hSame⟩ => (hBurst.run hRest hSame).not_done hDone

/-- One hint empties the channel, then the debounce window passes. -/
theorem exists_call_of_absorbing (cfg : WatchConfig) (u : UpdateRun) (now last queue : Nat)
    (calls : List Cause) :
    ∃ more l', Loop.run cfg ⟨⟨.absorbing, now, last⟩, queue, calls⟩ more = some l' ∧
      l'.calls = calls ++ [.hint] := by
  have hQuiet : Watch.InTime .timeout cfg.debounceMs cfg.debounceMs := ⟨le_rfl, fun _ => rfl⟩
  have hAtOnce : Watch.InTime .hint 0 cfg.debounceMs := ⟨Nat.zero_le _, fun h => nomatch h⟩
  cases queue with
  | zero =>
    refine ⟨[.recv .timeout cfg.debounceMs, .fire 0 u],
      ⟨⟨.head, now + cfg.debounceMs + 0, now + cfg.debounceMs + 0⟩, 0 + u.modifications,
        calls ++ [.hint]⟩, ?_, rfl⟩
    simp only [Loop.run, Loop.step, Watch.step, Delivers, hQuiet, if_true, Option.map_some,
      Option.bind_some]
    rfl
  | succ queue =>
    refine ⟨[.recv .hint 0, .recv .timeout cfg.debounceMs, .fire 0 u],
      ⟨⟨.head, now + 0 + cfg.debounceMs + 0, now + 0 + cfg.debounceMs + 0⟩,
        0 + u.modifications, calls ++ [.hint]⟩, ?_, rfl⟩
    simp only [Loop.run, Loop.step, Watch.step, Delivers, hQuiet, hAtOnce, Nat.succ_pos, if_true,
      Option.map_some, Option.bind_some]
    rfl

/-- A watcher that has not returned can come to the call for the hint. -/
theorem Fed.exists_call {l : Loop} (cfg : WatchConfig) (u : UpdateRun) (hFed : l.Fed)
    (hRuns : l.watch.phase ≠ .done) :
    ∃ more l', Loop.run cfg l more = some l' ∧ l'.calls = l.calls ++ [.hint] := by
  obtain ⟨⟨phase, now, last⟩, queue, calls⟩ := l
  have hBurst (now last : Nat) : ∃ more l',
      Loop.run cfg ⟨⟨.absorbing, now, last⟩, 0, calls⟩ more = some l' ∧
        l'.calls = calls ++ [.hint] :=
    exists_call_of_absorbing cfg u now last 0 calls
  cases phase with
  | trigger cause =>
    cases cause with
    | hint => exact ⟨[.fire 0 u], _, rfl, rfl⟩
    | start => exact hFed.elim
    | periodic => exact hFed.elim
  | absorbing => exact exists_call_of_absorbing cfg u now last queue calls
  | waiting wait =>
    obtain ⟨more, l', hMore, hCall⟩ := hBurst now last
    have hWaits : 0 < queue := hFed
    have hAtOnce : Watch.InTime .hint 0 wait := ⟨Nat.zero_le _, fun h => nomatch h⟩
    refine ⟨.recv .hint 0 :: more, l', ?_, hCall⟩
    rw [← hMore]
    simp only [Loop.run, Loop.step, Watch.step, Delivers, hWaits, hAtOnce, if_true,
      Option.map_some, Option.bind_some]
    rfl
  | head =>
    obtain ⟨more, l', hMore, hCall⟩ := hBurst now last
    have hWaits : 0 < queue := hFed
    have hAtOnce : Watch.InTime .hint 0 (cfg.periodicReconcileMs - (now - last)) :=
      ⟨Nat.zero_le _, fun h => nomatch h⟩
    refine ⟨.check false :: .recv .hint 0 :: more, l', ?_, hCall⟩
    rw [← hMore]
    simp only [Loop.run, Loop.step, Watch.step, Delivers, hWaits, hAtOnce, if_true,
      Bool.false_eq_true, if_false, Option.map_some, Option.bind_some]
    rfl
  | done => exact absurd rfl hRuns

end Loop

/-- After a reconcile that found nothing to do, a run is without a call of `on_trigger` for a
hint exactly if `on_trigger` is not called in it at all; and it stays so, however the run goes
on, exactly if the watcher has quit. -/
theorem updates_feed_themselves {cfg : WatchConfig} {took : Nat} {u : UpdateRun}
    {after : List LoopTick} {l l₁ l₂ : Loop} (hFire : l.step cfg (.fire took u) = some l₁)
    (hNothing : u.FoundNothing) (hAfter : Loop.run cfg l₁ after = some l₂) :
    ((∀ c ∈ l₂.calls.drop l₁.calls.length, c ≠ .hint) ↔ ∀ t ∈ after, t.isFire = false) ∧
      ((∀ more l₃, Loop.run cfg l₂ more = some l₃ →
          ∀ c ∈ l₃.calls.drop l₁.calls.length, c ≠ .hint) ↔
        Quits after) := by
  have hFed := Loop.fed_of_fire hFire hNothing
  have hTop := Loop.atTop_of_fire hFire
  constructor
  · obtain ⟨more, hCalls, hLength⟩ := Loop.calls_of_run hAfter
    rw [hFed.no_hint_iff hAfter, hCalls, List.append_right_eq_self, ← List.length_eq_zero_iff,
      hLength, List.countP_eq_zero]
    simp only [Bool.not_eq_true]
  · rw [hTop.quits_iff hFed hAfter]
    constructor
    · intro hNone
      have hSame := (hFed.no_hint_iff hAfter).mp (hNone [] l₂ rfl)
      refine ⟨by_contra fun hRuns => ?_, hSame⟩
      have hFed₂ : l₂.Fed := by
        rcases hFed.run hAfter with ⟨-, hFed₂⟩ | ⟨more, hMore⟩
        · exact hFed₂
        · rw [hMore] at hSame
          exact absurd (congrArg List.length hSame) (by simp)
      obtain ⟨more, l₃, hMore, hCall⟩ := hFed₂.exists_call cfg u hRuns
      have hDrop := hNone more l₃ hMore
      rw [hCall, hSame, List.drop_left] at hDrop
      exact hDrop .hint List.mem_cons_self rfl
    · rintro ⟨hDone, hSame⟩ more l₃ hMore c hc
      rw [(Loop.run_of_done hDone hMore).2, hSame, List.drop_length] at hc
      cases hc

end Feeding

/-- An index without segments over a root without files. -/
def idleRun [Platform] : UpdateRun :=
  UpdateRun.alone ⟨true, .ok [], fun _ => .error .notFound, fun _ => .error .notFound, 0⟩
    ⟨1, 1, 1⟩
    ⟨AList.singleton .manifest (.manifest Format.formatVersion ⟨1, 0, 0, 0, 0, 0, []⟩), none, 0⟩

theorem idleRun_foundNothing :
    let _ : Platform := .reference
    idleRun.FoundNothing := by
  intro _
  have hOk : idleRun.result.isOk = true := by decide +kernel
  have hCommits : (idleRun.trace.all fun d => !FsOp.commits d) = true := by decide +kernel
  refine ⟨?_, fun d hd => ?_⟩
  · rcases hResult : idleRun.result with e | I
    · rw [hResult] at hOk
      cases hOk
    · exact ⟨I, rfl⟩
  · simpa using List.all_eq_true.mp hCommits d hd

/-- The ticks from one reconcile to the next, when a modification waits. -/
theorem Loop.run_to_trigger [Platform] {m : Nat} (hm : 0 < m) :
    Loop.run .default ⟨⟨.head, 0, 0⟩, m, [.start]⟩
      [.check false, .recv .hint 0, .recv .timeout 500] =
      some ⟨⟨.trigger .hint, 500, 0⟩, 0, [.start]⟩ := by
  obtain ⟨k, rfl⟩ : ∃ k, m = k + 1 := ⟨m - 1, by omega⟩
  rfl

/-- Two reconciles that find nothing, from the start on. -/
theorem Loop.run_idleRun :
    let _ : Platform := .reference
    ∃ l₁ l₂, (Loop.start 0).step .default (.fire 0 idleRun) = some l₁ ∧
      Loop.run .default l₁ ([.check false, .recv .hint 0, .recv .timeout 500] ++
        [.fire 0 idleRun]) = some l₂ ∧
      l₁.calls = [.start] ∧ l₂.calls = [.start, .hint] := by
  intro _
  have hPos : 0 < 0 + idleRun.modifications := by
    rw [Nat.zero_add]
    exact idleRun_foundNothing.modifications_pos
  refine ⟨⟨⟨.head, 0, 0⟩, 0 + idleRun.modifications, [.start]⟩,
    ⟨⟨.head, 500, 500⟩, 0 + idleRun.modifications, [.start, .hint]⟩, rfl, ?_, rfl, rfl⟩
  rw [Loop.run_append, Loop.run_to_trigger hPos]
  rfl

/-- One run in which the watcher goes on, and one in which it is told to stop. -/
theorem updates_feed_themselves_idle :
    let _ : Platform := .reference
    ∃ l₁ l₂ l₂' : Loop, l₁.calls = [.start] ∧ l₂.calls = [.start, .hint] ∧
      ((∀ c ∈ l₂.calls.drop l₁.calls.length, c ≠ .hint) ↔
        ∀ t ∈ [.check false, .recv .hint 0, .recv .timeout 500] ++ [.fire 0 idleRun],
          LoopTick.isFire t = false) ∧
      Loop.run .default l₁ [.check true] = some l₂' ∧
      ∀ more l₃, Loop.run .default l₂' more = some l₃ →
        ∀ c ∈ l₃.calls.drop l₁.calls.length, c ≠ .hint := by
  intro _
  obtain ⟨l₁, l₂, hFire, hRun, hCalls₁, hCalls₂⟩ := Loop.run_idleRun
  have hStop : ∃ l₂', Loop.run .default l₁ [.check true] = some l₂' := by
    obtain rfl := Option.some.inj hFire
    exact ⟨_, rfl⟩
  obtain ⟨l₂', hStop⟩ := hStop
  exact ⟨l₁, l₂, l₂', hCalls₁, hCalls₂,
    (updates_feed_themselves hFire idleRun_foundNothing hRun).1, hStop,
    (updates_feed_themselves hFire idleRun_foundNothing hStop).2.mpr (.inl rfl)⟩

/-- Nothing else happens below the root, and the second reconcile is caused by a hint, which
the first one has made. -/
theorem idleRun_feeds :
    let _ : Platform := .reference
    idleRun.FoundNothing ∧ ∃ l₁ l₂,
      (Loop.start 0).step .default (.fire 0 idleRun) = some l₁ ∧
        Loop.run .default l₁ ([.check false, .recv .hint 0, .recv .timeout 500] ++
          [.fire 0 idleRun]) = some l₂ ∧
        ¬ ∀ c ∈ l₂.calls.drop l₁.calls.length, c ≠ .hint := by
  intro _
  obtain ⟨l₁, l₂, hFire, hRun, hCalls₁, hCalls₂⟩ := Loop.run_idleRun
  refine ⟨idleRun_foundNothing, l₁, l₂, hFire, hRun, ?_⟩
  rw [hCalls₁, hCalls₂]
  decide

end Ripindex
