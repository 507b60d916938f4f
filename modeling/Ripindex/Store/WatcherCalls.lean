import Ripindex.Store.Watcher

/-!
# The calls of the watcher

`store/watcher.rs`: `run` as the sequence of calls that it makes, whatever the source, the clock
and `should_stop` answer. The clock may show any time at any call, and the source may return
anything; the schedule of `Watch` is the case in which they keep their promises.

## Results

* `Place.Pending.run` — a hint is not forgotten before `on_trigger` is called;
* `triggers_run` — `on_trigger` is called once for each reason;
* `Watch.run_calls` — the schedule makes these calls;
* `no_hint_lost` — for runs of any length.
-/

namespace Ripindex

namespace Watcher

/-- Where `run` stands: in front of which call, with the variables it still reads. -/
inductive Place
  /-- `on_trigger()` -/
  | trigger
  /-- `clock.now_ms()`, the new `last_trigger` -/
  | stamp
  /-- `should_stop()` -/
  | head (lastTrigger : Nat)
  /-- `clock.now_ms()`, for `elapsed` -/
  | elapsed (lastTrigger : Nat)
  /-- `source.recv(wait)` -/
  | waiting (wait : Nat)
  /-- `source.recv(cfg.debounce_ms)` -/
  | absorbing
  | done
  deriving DecidableEq, Repr

/-- A call with its answer; `recvMore` is that of the inner loop. -/
inductive Event
  | onTrigger
  | nowMs (t : Nat)
  | shouldStop (stop : Bool)
  | recv (timeout : Nat) (outcome : RecvOutcome)
  | recvMore (timeout : Nat) (outcome : RecvOutcome)
  deriving DecidableEq, Repr

/-- `run`, from one call to the next. -/
def step (cfg : WatchConfig) : Place → Event → Option Place
  | .trigger, .onTrigger => some .stamp
  | .stamp, .nowMs t => some (.head t)
  | .head last, .shouldStop stop => some (if stop then .done else .elapsed last)
  | .elapsed last, .nowMs t => some (.waiting (cfg.periodicReconcileMs - (t - last)))
  | .waiting wait, .recv timeout outcome =>
    if timeout = wait then
      match outcome with
      | .closed => some .done
      | .timeout => some .trigger
      | .hint | .overflow => some .absorbing
    else none
  | .absorbing, .recvMore timeout outcome =>
    if timeout = cfg.debounceMs then
      match outcome with
      | .hint | .overflow => some .absorbing
      | .timeout | .closed => some .trigger
    else none
  | _, _ => none

/-- The calls of `run` from a place on; `none` if it does not make them. -/
def run (cfg : WatchConfig) : Place → List Event → Option Place
  | w, [] => some w
  | w, e :: es => (step cfg w e).bind fun w' => run cfg w' es

namespace Event

/-- Something was received, in the outer wait or in the inner loop. -/
def IsHint : Event → Prop
  | recv _ outcome | recvMore _ outcome => outcome = .hint ∨ outcome = .overflow
  | _ => False

/-- The inner loop ends. -/
def IsQuiet : Event → Prop
  | recvMore _ outcome => outcome = .timeout ∨ outcome = .closed
  | _ => False

/-- The outer wait times out. -/
def isPeriod : Event → Bool
  | recv _ .timeout => true
  | _ => false

/-- The outer wait ends with the first hint of a batch. -/
def isBatch : Event → Bool
  | recv _ .hint | recv _ .overflow => true
  | _ => false

end Event

namespace Place

/-- There is something to trigger for, and neither the end nor the next outer wait is reached. -/
def Pending (w : Place) : Prop := w = .absorbing ∨ w = .trigger

/-- Whether a call of `on_trigger` is due. -/
def due : Place → Nat
  | trigger | absorbing => 1
  | _ => 0

end Place

variable {cfg : WatchConfig} {w w' : Place} {e : Event} {es : List Event}

-- ---------------------------------------------------------------------------
-- One call
-- ---------------------------------------------------------------------------

/-- What a call leads to. -/
theorem step_cases (h : step cfg w e = some w') :
    (w = .trigger ∧ e = .onTrigger ∧ w' = .stamp) ∨
    (∃ t, w = .stamp ∧ e = .nowMs t ∧ w' = .head t) ∨
    (∃ last stop, w = .head last ∧ e = .shouldStop stop ∧
      w' = if stop then .done else .elapsed last) ∨
    (∃ last t, w = .elapsed last ∧ e = .nowMs t ∧
      w' = .waiting (cfg.periodicReconcileMs - (t - last))) ∨
    (∃ wait, w = .waiting wait ∧
      ((e = .recv wait .closed ∧ w' = .done) ∨ (e = .recv wait .timeout ∧ w' = .trigger) ∨
        (∃ o, (o = .hint ∨ o = .overflow) ∧ e = .recv wait o ∧ w' = .absorbing))) ∨
    (w = .absorbing ∧ ∃ o, e = .recvMore cfg.debounceMs o ∧
      (((o = .hint ∨ o = .overflow) ∧ w' = .absorbing) ∨
        ((o = .timeout ∨ o = .closed) ∧ w' = .trigger))) := by
  unfold step at h
  split at h
  · exact .inl ⟨rfl, rfl, (Option.some.inj h).symm⟩
  · exact .inr (.inl ⟨_, rfl, rfl, (Option.some.inj h).symm⟩)
  · exact .inr (.inr (.inl ⟨_, _, rfl, rfl, (Option.some.inj h).symm⟩))
  · exact .inr (.inr (.inr (.inl ⟨_, _, rfl, rfl, (Option.some.inj h).symm⟩)))
  · next wait timeout outcome =>
    split_ifs at h with hTime
    subst hTime
    refine .inr (.inr (.inr (.inr (.inl ⟨_, rfl, ?_⟩))))
    split at h <;> obtain rfl := Option.some.inj h <;> simp
  · next timeout outcome =>
    split_ifs at h with hTime
    subst hTime
    refine .inr (.inr (.inr (.inr (.inr ⟨rfl, _, rfl, ?_⟩))))
    split at h <;> obtain rfl := Option.some.inj h <;> simp
  · cases h

/-- What is received has to be triggered for. -/
theorem step_hint (h : step cfg w e = some w') (hHint : e.IsHint) : w' = .absorbing := by
  rcases step_cases h with ⟨-, rfl, -⟩ | ⟨t, -, rfl, -⟩ | ⟨last, stop, -, rfl, -⟩ |
    ⟨last, t, -, rfl, -⟩ | ⟨wait, -, ⟨rfl, -⟩ | ⟨rfl, -⟩ | ⟨o, -, -, rfl⟩⟩ |
    ⟨-, o, rfl, ⟨-, rfl⟩ | ⟨hQuiet, -⟩⟩
  all_goals first | rfl | exact hHint.elim | skip
  · rcases hHint with hEq | hEq <;> cases hEq
  · rcases hHint with hEq | hEq <;> cases hEq
  · rcases hHint with rfl | rfl <;> rcases hQuiet with hEq | hEq <;> cases hEq

/-- A quiet window ends the batch, also when it ends with the source closed. -/
theorem step_quiet (h : step cfg w e = some w') (hQuiet : e.IsQuiet) : w' = .trigger := by
  rcases step_cases h with ⟨-, rfl, -⟩ | ⟨t, -, rfl, -⟩ | ⟨last, stop, -, rfl, -⟩ |
    ⟨last, t, -, rfl, -⟩ | ⟨wait, -, ⟨rfl, -⟩ | ⟨rfl, -⟩ | ⟨o, -, rfl, -⟩⟩ |
    ⟨-, o, rfl, ⟨hHint, -⟩ | ⟨-, rfl⟩⟩
  all_goals first | rfl | exact hQuiet.elim | skip
  rcases hQuiet with rfl | rfl <;> rcases hHint with hEq | hEq <;> cases hEq

/-- The only call in front of which a trigger is due is that of `on_trigger`. -/
theorem step_trigger (h : step cfg .trigger e = some w') : e = .onTrigger := by
  rcases step_cases h with ⟨-, rfl, -⟩ | ⟨t, hEq, -⟩ | ⟨last, stop, hEq, -⟩ | ⟨last, t, hEq, -⟩ |
    ⟨wait, hEq, -⟩ | ⟨hEq, -⟩
  · rfl
  all_goals cases hEq

/-- While something is pending, the calls are that of `on_trigger` or those of the inner loop. -/
theorem Place.Pending.step (hw : w.Pending) (h : step cfg w e = some w') :
    e = .onTrigger ∨ (e.IsHint ∧ w' = .absorbing) ∨ (e.IsQuiet ∧ w' = .trigger) := by
  rcases hw with rfl | rfl
  · rcases step_cases h with ⟨hEq, -⟩ | ⟨t, hEq, -⟩ | ⟨last, stop, hEq, -⟩ | ⟨last, t, hEq, -⟩ |
      ⟨wait, hEq, -⟩ | ⟨-, o, rfl, ⟨hHint, rfl⟩ | ⟨hQuiet, rfl⟩⟩
    · cases hEq
    · cases hEq
    · cases hEq
    · cases hEq
    · cases hEq
    · exact .inr (.inl ⟨hHint, rfl⟩)
    · exact .inr (.inr ⟨hQuiet, rfl⟩)
  · exact .inl (step_trigger h)

/-- A call pays for what is due, or adds to it. -/
theorem triggers_step (h : step cfg w e = some w') :
    [e].count .onTrigger + w'.due = w.due + [e].countP Event.isPeriod +
      [e].countP Event.isBatch := by
  rcases step_cases h with ⟨rfl, rfl, rfl⟩ | ⟨t, rfl, rfl, rfl⟩ | ⟨last, stop, rfl, rfl, rfl⟩ |
    ⟨last, t, rfl, rfl, rfl⟩ | ⟨wait, rfl, ⟨rfl, rfl⟩ | ⟨rfl, rfl⟩ | ⟨o, rfl | rfl, rfl, rfl⟩⟩ |
    ⟨rfl, o, rfl, ⟨rfl | rfl, rfl⟩ | ⟨rfl | rfl, rfl⟩⟩
  case inr.inr.inl =>
    rcases stop with _ | _ <;> rfl
  all_goals rfl

-- ---------------------------------------------------------------------------
-- Runs
-- ---------------------------------------------------------------------------

theorem run_cons : run cfg w (e :: es) = some w' ↔
    ∃ v, step cfg w e = some v ∧ run cfg v es = some w' := Option.bind_eq_some_iff

theorem run_append {es₁ es₂ : List Event} : run cfg w (es₁ ++ es₂) = some w' ↔
    ∃ v, run cfg w es₁ = some v ∧ run cfg v es₂ = some w' := by
  induction es₁ generalizing w with
  | nil => simp [run]
  | cons e es ih =>
    rw [List.cons_append, run_cons]
    constructor
    · rintro ⟨v, hStep, hRest⟩
      obtain ⟨u, hFirst, hLast⟩ := ih.mp hRest
      exact ⟨u, run_cons.mpr ⟨v, hStep, hFirst⟩, hLast⟩
    · rintro ⟨u, hFirst, hLast⟩
      obtain ⟨v, hStep, hRest⟩ := run_cons.mp hFirst
      exact ⟨v, hStep, ih.mpr ⟨u, hRest, hLast⟩⟩

/-- What is pending is triggered for, or still pending. -/
theorem Place.Pending.run (hw : w.Pending) (h : run cfg w es = some w') :
    .onTrigger ∈ es ∨ w'.Pending := by
  induction es generalizing w with
  | nil =>
    obtain rfl := Option.some.inj h
    exact .inr hw
  | cons e es ih =>
    obtain ⟨v, hStep, hRest⟩ := run_cons.mp h
    rcases hw.step hStep with rfl | ⟨-, rfl⟩ | ⟨-, rfl⟩
    · exact .inl List.mem_cons_self
    · exact (ih (.inl rfl) hRest).imp_left (List.mem_cons_of_mem e)
    · exact (ih (.inr rfl) hRest).imp_left (List.mem_cons_of_mem e)

/-- The calls of `on_trigger` are counted by the reasons for them. -/
theorem triggers_run (h : run cfg w es = some w') :
    es.count .onTrigger + w'.due = w.due + es.countP Event.isPeriod +
      es.countP Event.isBatch := by
  induction es generalizing w with
  | nil =>
    obtain rfl := Option.some.inj h
    simp
  | cons e es ih =>
    obtain ⟨v, hStep, hRest⟩ := run_cons.mp h
    have hOne := triggers_step hStep
    have hMore := ih hRest
    rw [← List.singleton_append, List.count_append, List.countP_append, List.countP_append]
    omega

/-- From a place where a trigger is due the next call is that of `on_trigger`. -/
theorem run_trigger (h : run cfg .trigger es = some w') :
    es = [] ∨ ∃ rest, es = .onTrigger :: rest := by
  rcases es with _ | ⟨e, es⟩
  · exact .inl rfl
  · obtain ⟨v, hStep, -⟩ := run_cons.mp h
    obtain rfl := step_trigger hStep
    exact .inr ⟨es, rfl⟩

-- ---------------------------------------------------------------------------
-- Runs without an end
-- ---------------------------------------------------------------------------

/-- A run that goes on for ever: every call of it, and where it stands before that. -/
structure Endless (cfg : WatchConfig) (f : Nat → Event) (s : Nat → Place) : Prop where
  start : s 0 = .trigger
  step : ∀ n, step cfg (s n) (f n) = some (s (n + 1))

/-- The inner loop ends with the first answer that is no hint, and `on_trigger` is called. -/
theorem Endless.quiet {f : Nat → Event} {s : Nat → Place} (h : Endless cfg f s) {n : Nat}
    (hn : s n = .absorbing) (hNot : ¬ (f n).IsHint) :
    ∃ k, n < k ∧ f k = .onTrigger ∧ ∀ j, n ≤ j → j ≤ k → (s j).Pending := by
  have hStep := h.step n
  rcases Place.Pending.step (.inl hn) hStep with hCall | ⟨hHint, -⟩ | ⟨-, hNext⟩
  · rw [hn, hCall] at hStep
    cases hStep
  · exact absurd hHint hNot
  · have hCall := h.step (n + 1)
    rw [hNext] at hCall
    refine ⟨n + 1, Nat.lt_succ_self n, step_trigger hCall, ?_⟩
    intro j hj hj'
    obtain rfl | rfl : j = n ∨ j = n + 1 := by omega
    · exact .inl hn
    · exact .inr hNext

/-- Unless the source reports hints for ever, that answer comes. -/
theorem Endless.triggers {f : Nat → Event} {s : Nat → Place} (h : Endless cfg f s) {n d : Nat}
    (hn : s n = .absorbing) (hd : ¬ (f (n + d)).IsHint) :
    ∃ k, n < k ∧ f k = .onTrigger ∧ ∀ j, n ≤ j → j ≤ k → (s j).Pending := by
  induction d generalizing n with
  | zero => exact h.quiet hn hd
  | succ d ih =>
    by_cases hHint : (f n).IsHint
    · have hNext := step_hint (h.step n) hHint
      obtain ⟨k, hk, hCall, hAll⟩ := ih hNext (by rwa [Nat.add_right_comm, Nat.add_assoc])
      refine ⟨k, Nat.lt_of_succ_lt hk, hCall, ?_⟩
      intro j hj hj'
      rcases Nat.eq_or_lt_of_le hj with rfl | hLt
      · exact .inl hn
      · exact hAll j hLt hj'
    · exact h.quiet hn hHint

-- ---------------------------------------------------------------------------
-- No hint is lost
-- ---------------------------------------------------------------------------

/-- Whatever is received is triggered for before `run` waits again or ends, also when the source
closes in the inner loop; `on_trigger` is called at the start, after each timeout of the outer
wait and after each batch, and for nothing else. -/
theorem no_hint_lost (cfg : WatchConfig) :
    (∀ es w, run cfg .trigger es = some w →
      (∀ pre e post, es = pre ++ e :: post → e.IsHint → .onTrigger ∈ post ∨ w.Pending) ∧
      (∀ pre e post, es = pre ++ e :: post → e.IsQuiet →
        post = [] ∨ ∃ rest, post = .onTrigger :: rest) ∧
      (es = [] ∨ ∃ rest, es = .onTrigger :: rest) ∧
      es.count .onTrigger + w.due =
        1 + es.countP Event.isPeriod + es.countP Event.isBatch) ∧
    (∀ f s, Endless cfg f s → ∀ n, (f n).IsHint →
      (∃ k, n < k ∧ f k = .onTrigger ∧ ∀ j, n < j → j ≤ k → (s j).Pending) ∨
        ∀ m, n < m → (f m).IsHint) := by
  constructor
  · intro es w hRun
    refine ⟨?_, ?_, run_trigger hRun, triggers_run hRun⟩
    · rintro pre e post rfl hHint
      obtain ⟨u, -, hMore⟩ := run_append.mp hRun
      obtain ⟨v, hStep, hRest⟩ := run_cons.mp hMore
      exact Place.Pending.run (.inl (step_hint hStep hHint)) hRest
    · rintro pre e post rfl hQuiet
      obtain ⟨u, -, hMore⟩ := run_append.mp hRun
      obtain ⟨v, hStep, hRest⟩ := run_cons.mp hMore
      obtain rfl := step_quiet hStep hQuiet
      exact run_trigger hRest
  · intro f s hRun n hHint
    have hNext := step_hint (hRun.step n) hHint
    by_cases hAll : ∀ m, n < m → (f m).IsHint
    · exact .inr hAll
    · push Not at hAll
      obtain ⟨m, hm, hNot⟩ := hAll
      obtain ⟨d, rfl⟩ := Nat.exists_eq_add_of_le hm
      obtain ⟨k, hk, hCall, hPending⟩ := hRun.triggers hNext hNot
      exact .inl ⟨k, Nat.lt_of_succ_lt hk, hCall, fun j hj => hPending j hj⟩

/-- A hint, and the source closes in the inner loop. -/
def closing : List Event :=
  [.onTrigger, .nowMs 3, .shouldStop false, .nowMs 4, .recv 9 .hint, .recvMore 5 .closed,
    .onTrigger]

theorem no_hint_lost_closing : ∃ w, run ⟨5, 10⟩ .trigger closing = some w ∧
    (Event.onTrigger ∈ [Event.recvMore 5 .closed, .onTrigger] ∨ w.Pending) :=
  ⟨.stamp, rfl, ((no_hint_lost ⟨5, 10⟩).1 closing .stamp rfl).1
    [.onTrigger, .nowMs 3, .shouldStop false, .nowMs 4] (.recv 9 .hint) _ rfl (Or.inl rfl)⟩

end Watcher

-- ---------------------------------------------------------------------------
-- The schedule
-- ---------------------------------------------------------------------------

namespace Watch

open Watcher

/-- Where `run` stands when the schedule is at `w`. -/
def place (w : Watch) : Place :=
  match w.phase with
  | .trigger _ => .trigger
  | .head => .head w.lastTrigger
  | .waiting wait => .waiting wait
  | .absorbing => .absorbing
  | .done => .done

/-- The calls of one tick, with the times the clock shows. -/
def calls (cfg : WatchConfig) (w : Watch) : Tick → List Event
  | .fire took => [.onTrigger, .nowMs (w.now + took)]
  | .check true => [.shouldStop true]
  | .check false => [.shouldStop false, .nowMs w.now]
  | .recv outcome _ =>
    match w.phase with
    | .waiting wait => [.recv wait outcome]
    | _ => [.recvMore cfg.debounceMs outcome]

/-- The calls of a run of the schedule. -/
def callsOf (cfg : WatchConfig) : Watch → List Tick → List Event
  | _, [] => []
  | w, t :: ts => w.calls cfg t ++ ((step cfg w t).elim [] fun w' => callsOf cfg w' ts)

theorem step_calls {cfg : WatchConfig} {w w' : Watch} {t : Tick} (h : step cfg w t = some w') :
    Watcher.run cfg w.place (w.calls cfg t) = some w'.place := by
  unfold step at h
  split at h
  · obtain rfl := Option.some.inj h
    rfl
  · split_ifs at h with hStop <;> obtain rfl := Option.some.inj h
    · subst hStop
      rfl
    · rw [Bool.not_eq_true] at hStop
      subst hStop
      rfl
  · split_ifs at h
    split at h <;> obtain rfl := Option.some.inj h <;>
      simp [calls, place, Watcher.run, Watcher.step]
  · split_ifs at h
    split at h <;> obtain rfl := Option.some.inj h <;>
      simp [calls, place, Watcher.run, Watcher.step]
  · cases h

/-- A run of the schedule is a run of these calls. -/
theorem run_calls {cfg : WatchConfig} {w w' : Watch} {ts : List Tick}
    (h : run cfg w ts = some w') :
    Watcher.run cfg w.place (callsOf cfg w ts) = some w'.place := by
  induction ts generalizing w with
  | nil =>
    obtain rfl := Option.some.inj h
    rfl
  | cons t ts ih =>
    obtain ⟨v, hStep, hRest⟩ := Option.bind_eq_some_iff.mp h
    rw [callsOf, hStep]
    exact run_append.mpr ⟨v.place, step_calls hStep, ih hRest⟩

end Watch

end Ripindex
