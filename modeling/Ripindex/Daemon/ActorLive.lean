import Mathlib.Data.Prod.Lex
import Ripindex.Daemon.Actor

/-!
# Merges of an actor come to an end

Three parties act of their own accord: the actor, the channel with those who wait for a place,
and the prepare task. Where each is treated fairly, the message about a merge gets nearer until
it is received.

## Results

* `Sys.Pending.moves` — what an event does to a merge under way;
* `Sys.leadsTo_settled` — in a fair run the message about a merge arrives;
* `Sys.one_merge_at_a_time` — merges are one at a time, and no prepared output is lost.
-/

namespace Ripindex.Daemon.Actor

variable {P : Type}

namespace Sys

-- ---------------------------------------------------------------------------
-- Whose turn it is
-- ---------------------------------------------------------------------------

/-- The queue gets shorter before the first message about a merge. -/
theorem findIdx_eraseIdx_le {α : Type} {p : α → Bool} {l : List α} {i : Nat} {a : α}
    (hAt : l[i]? = some a) (ha : p a = false) : (l.eraseIdx i).findIdx p ≤ l.findIdx p := by
  induction l generalizing i with
  | nil => cases hAt
  | cons b l ih =>
    cases i with
    | zero =>
      obtain rfl := Option.some.inj hAt
      rw [List.eraseIdx_cons_zero, List.findIdx_cons, ha]
      exact Nat.le_succ _
    | succ i =>
      rw [List.eraseIdx_cons_succ, List.findIdx_cons, List.findIdx_cons]
      cases p b with
      | true => exact Nat.le_refl 0
      | false => exact Nat.succ_le_succ (ih hAt)

/-- How far the closure is from its end. -/
def taskRank : Task P → ℕ ×ₗ ℕ
  | .clearing => toLex (3, 0)
  | .opening => toLex (2, 0)
  | .preparing left _ => toLex (1, left)

/-- What `run` has to wait for before it receives. -/
def delay (s : Sys P) : Nat :=
  match s.actor with
  | some (_, .receiving) => if s.mailbox.isEmpty then 1 else 0
  | _ => 2

/-- How far the message about a merge is from being received: first its task, then the messages
before it. -/
def rank (s : Sys P) : ℕ ×ₗ ℕ :=
  match s.tasks with
  | t :: _ => taskRank t
  | [] => toLex (0, 3 * s.queue.findIdx Command.isReady + s.delay)

/-- Who takes steps of its own accord. -/
inductive Party
  | actor
  | channel
  | task
  deriving DecidableEq, Repr

/-- The clients' events are nobody's. -/
def Party.Owns : Party → Event P → Prop
  | .actor, .recv _ _ => True
  | .actor, .reconciled _ _ _ _ => True
  | .actor, .committed _ _ _ => True
  | .channel, .enter => True
  | .task, .task _ _ => True
  | _, _ => False

def turn (s : Sys P) : Party :=
  match s.tasks with
  | _ :: _ => .task
  | [] => if s.delay = 1 then .channel else .actor

theorem rank_of_task {s : Sys P} {t : Task P} (h : s.tasks = [t]) : s.rank = taskRank t := by
  rw [rank, h]

theorem rank_of_none {s : Sys P} (h : s.tasks = []) :
    s.rank = toLex (0, 3 * s.queue.findIdx Command.isReady + s.delay) := by
  rw [rank, h]

theorem turn_of_task {s : Sys P} {t : Task P} (h : s.tasks = [t]) : s.turn = .task := by
  rw [turn, h]

theorem turn_of_none {s : Sys P} (h : s.tasks = []) :
    s.turn = if s.delay = 1 then .channel else .actor := by
  rw [turn, h]

theorem queue_rank_lt (a : Nat) (t : Task P) : toLex (0, a) < taskRank t := by
  cases t <;> exact Prod.Lex.toLex_lt_toLex.mpr (.inl (Nat.succ_pos _))

variable [DecidableEq P] in
theorem taskRank_lt {t t' : Task P} {staging staging' : List P} {e : TaskEvent P}
    (hStep : t.step staging e = some (.inl t', staging')) : taskRank t' < taskRank t := by
  revert hStep
  fun_cases Task.step staging t e with
  | case1 kept =>
    intro hStep
    obtain rfl := Sum.inl.inj (Prod.mk.inj (Option.some.inj hStep)).1
    exact Prod.Lex.toLex_lt_toLex.mpr (.inl (by decide))
  | case3 groups =>
    intro hStep
    obtain rfl := Sum.inl.inj (Prod.mk.inj (Option.some.inj hStep)).1
    exact Prod.Lex.toLex_lt_toLex.mpr (.inl (Nat.lt_succ_self 1))
  | case6 left prepared p =>
    intro hStep
    obtain rfl := Sum.inl.inj (Prod.mk.inj (Option.some.inj hStep)).1
    exact Prod.Lex.toLex_lt_toLex.mpr (.inr ⟨rfl, Nat.lt_succ_self left⟩)
  | _ => simp

/-- A merge is under way whose message is the `k`-th. -/
structure Pending (k : Nat) (s : Sys P) : Prop where
  inv : s.Inv
  alive : s.actor.isSome = true
  before : s.finished < k
  answered : k ≤ s.started

/-- The `k`-th message about a merge has been received, or nobody receives any more. -/
def Settled (k : Nat) (s : Sys P) : Prop := s.actor = none ∨ k ≤ s.finished

theorem Pending.last {k : Nat} {s : Sys P} (h : s.Pending k) :
    s.inFlight = 1 ∧ k = s.finished + 1 := by
  have hAnswered := h.inv.answered h.alive
  have hAlone := h.inv.alone
  have hBefore := h.before
  have hk := h.answered
  omega

/-- A merge under way is a task, or a message in the queue. -/
theorem Pending.tasks {k : Nat} {s : Sys P} (h : s.Pending k) :
    (∃ t, s.tasks = [t]) ∨ (s.tasks = [] ∧ ∃ c ∈ s.queue, c.isReady = true) := by
  have hOne := h.last.1
  rw [inFlight] at hOne
  cases hTasks : s.tasks with
  | nil =>
    rw [hTasks, List.length_nil, Nat.zero_add] at hOne
    exact .inr ⟨rfl, List.countP_pos_iff.mp (by omega)⟩
  | cons t rest =>
    rw [hTasks, List.length_cons] at hOne
    have hRest : rest = [] := List.length_eq_zero_iff.mp (by omega)
    exact .inl ⟨t, by rw [hRest]⟩

theorem Pending.merging {k : Nat} {s : Sys P} {state : ActorState} {phase : Phase P}
    (h : s.Pending k) (hActor : s.actor = some (state, phase)) : state.merging = true := by
  have hFlag := h.inv.flag state phase hActor
  rw [h.last.1] at hFlag
  cases hMerging : state.merging with
  | true => rfl
  | false =>
    rw [hMerging] at hFlag
    cases hFlag

/-- What an event does to a merge under way. -/
inductive Moves (s : Sys P) (e : Event P) (s' : Sys P) : Prop
  /-- The rank falls. -/
  | closer (h : s'.rank < s.rank)
  /-- Somebody else does something else. -/
  | aside (hRank : s'.rank = s.rank) (hTurn : s'.turn = s.turn) (hOther : ¬ s.turn.Owns e)

theorem Moves.of_task {s s' : Sys P} {e : Event P} {t : Task P} (hTask : s.tasks = [t])
    (hTask' : s'.tasks = [t]) (hOther : ¬ Party.task.Owns e) : s.Moves e s' :=
  .aside (by rw [rank_of_task hTask, rank_of_task hTask'])
    (by rw [turn_of_task hTask, turn_of_task hTask']) (turn_of_task hTask ▸ hOther)

theorem Moves.of_queue {s s' : Sys P} {e : Event P} (hNone : s.tasks = []) (hNone' : s'.tasks = [])
    (hLt : 3 * s'.queue.findIdx Command.isReady + s'.delay <
      3 * s.queue.findIdx Command.isReady + s.delay) : s.Moves e s' := by
  refine .closer ?_
  rw [rank_of_none hNone, rank_of_none hNone']
  exact Prod.Lex.toLex_lt_toLex.mpr (.inr ⟨rfl, hLt⟩)

theorem Moves.of_same {s s' : Sys P} {e : Event P} (hNone : s.tasks = []) (hNone' : s'.tasks = [])
    (hIdx : s'.queue.findIdx Command.isReady = s.queue.findIdx Command.isReady)
    (hDelay : s'.delay = s.delay) (hOther : ¬ s.turn.Owns e) : s.Moves e s' :=
  .aside (by rw [rank_of_none hNone, rank_of_none hNone', hIdx, hDelay])
    (by rw [turn_of_none hNone, turn_of_none hNone', hDelay]) hOther

theorem delay_receiving {s : Sys P} {state : ActorState}
    (hActor : s.actor = some (state, .receiving)) :
    s.delay = if s.mailbox.isEmpty then 1 else 0 := by
  rw [delay, hActor]

theorem delay_busy {s : Sys P} (h : ∀ state, s.actor = some (state, .receiving) → False) :
    s.delay = 2 := by
  rw [delay]
  split
  next state hAt => exact (h state hAt).elim
  next => rfl

theorem delay_le (s : Sys P) : s.delay ≤ 2 := by
  rw [delay]
  split
  · split_ifs <;> decide
  · exact Nat.le_refl 2

/-- A client's event, as long as the message about the merge gets no further back. -/
theorem Pending.client {k : Nat} {s s' : Sys P} {e : Event P} (h : s.Pending k)
    (hActor : s'.actor = s.actor) (hTasks : s'.tasks = s.tasks) (hMailbox : s'.mailbox = s.mailbox)
    (hIdx : (∃ c ∈ s.queue, c.isReady = true) →
      s'.queue.findIdx Command.isReady ≤ s.queue.findIdx Command.isReady)
    (hOther : ∀ i : Party, ¬ i.Owns e) : s.Moves e s' := by
  have hDelay : s'.delay = s.delay := by rw [delay, delay, hActor, hMailbox]
  rcases h.tasks with ⟨t, hTask⟩ | ⟨hNone, hReady⟩
  · exact .of_task hTask (hTasks.trans hTask) (hOther .task)
  · rcases (hIdx hReady).lt_or_eq with hLt | hEq
    · exact .of_queue hNone (hTasks.trans hNone) (by omega)
    · exact .of_same hNone (hTasks.trans hNone) hEq hDelay (hOther s.turn)

/-- The channel's event: it counts where `run` waits for a message and there is none. -/
theorem Pending.enter {k : Nat} {s s' : Sys P} {c : Command P} (h : s.Pending k)
    (hActor : s'.actor = s.actor) (hTasks : s'.tasks = s.tasks)
    (hMailbox : s'.mailbox = s.mailbox ++ [c]) (hQueue : s'.queue = s.queue) :
    s.Moves .enter s' := by
  rcases h.tasks with ⟨t, hTask⟩ | ⟨hNone, -⟩
  · exact .of_task hTask (hTasks.trans hTask) not_false
  · have hNone' := hTasks.trans hNone
    by_cases hDelay : s.delay = 1
    · refine .of_queue hNone hNone' ?_
      have hDelay' : s'.delay = 0 := by
        rw [delay] at hDelay
        split at hDelay
        next state hAt => simp [delay_receiving (hActor.trans hAt), hMailbox]
        next => cases hDelay
      rw [hQueue]
      omega
    · refine .of_same hNone hNone' (by rw [hQueue]) ?_ ?_
      · rw [delay] at hDelay
        split at hDelay
        next state hAt =>
          have hNot : s.mailbox.isEmpty = false := by simpa using hDelay
          simp [delay_receiving hAt, delay_receiving (hActor.trans hAt), hMailbox, hNot]
        next hBusy => rw [delay_busy hBusy, delay_busy (hActor ▸ hBusy)]
      · rw [turn_of_none hNone, if_neg hDelay]
        exact not_false

/-- `run` goes on to wait for a message. -/
theorem Pending.ends {k : Nat} {s s' : Sys P} {e : Event P} {state state' : ActorState}
    {phase : Phase P} (h : s.Pending k) (hActor : s.actor = some (state, phase))
    (hBusy : phase ≠ .receiving) (hActor' : s'.actor = some (state', .receiving))
    (hTasks : s'.tasks = s.tasks) (hQueue : s'.queue = s.queue)
    (hOther : ¬ Party.task.Owns e) : s.Moves e s' := by
  rcases h.tasks with ⟨t, hTask⟩ | ⟨hNone, -⟩
  · exact .of_task hTask (hTasks.trans hTask) hOther
  · refine .of_queue hNone (hTasks.trans hNone) ?_
    have hDelay : s.delay = 2 := delay_busy fun state'' hAt =>
      hBusy (Prod.mk.inj (Option.some.inj (hActor.symm.trans hAt))).2
    have hDelay' : s'.delay ≤ 1 := by
      rw [delay_receiving hActor']
      split_ifs <;> decide
    rw [hQueue]
    omega

/-- `run` receives a message: the one about the merge, or one before it. -/
theorem Pending.recv {k : Nat} {s : Sys P} {state : ActorState} {c : Command P}
    {mailbox : List (Command P)} (h : s.Pending k) (hActor : s.actor = some (state, .receiving))
    (hMailbox : s.mailbox = c :: mailbox) (now : Nat) (live : LiveView) :
    ({ s with mailbox := mailbox }.handle state c now live).Settled k ∨
      s.Moves (.recv now live) ({ s with mailbox := mailbox }.handle state c now live) := by
  have hMerging := h.merging hActor
  have hOther {s' : Sys P} (hClient : c.isReady = false) (hTasks : s'.tasks = s.tasks)
      (hQueue : s'.queue = mailbox ++ s.waiting) : s.Moves (.recv now live) s' := by
    rcases h.tasks with ⟨t, hTask⟩ | ⟨hNone, -⟩
    · exact .of_task hTask (hTasks.trans hTask) not_false
    · refine .of_queue hNone (hTasks.trans hNone) ?_
      have hLe := s'.delay_le
      rw [hQueue, queue_of_recv hMailbox, List.findIdx_cons, hClient]
      simp only [cond_false]
      omega
  cases c with
  | reconcile => exact .inr (hOther rfl rfl rfl)
  | merge =>
    refine .inr (hOther rfl ?_ ?_) <;> simp [handle, startMerge, hMerging, queue]
  | mergeReady prepared planLen =>
    refine .inl (.inr ?_)
    exact h.last.2.le
  | status => exact .inr (hOther rfl rfl rfl)
  | setWatcherHealthy healthy => exact .inr (hOther rfl rfl rfl)
  | shutdown => exact .inl (.inl rfl)

section Runs

variable [DecidableEq P]

theorem Pending.moves {k : Nat} {s s' : Sys P} {e : Event P} (h : s.Pending k)
    (hStep : s.step e = some s') : s'.Settled k ∨ s.Moves e s' := by
  cases e with
  | request c =>
    simp only [step] at hStep
    split_ifs at hStep
    obtain rfl := Option.some.inj hStep
    refine .inr (h.client rfl rfl rfl (fun hReady => ?_) fun i => by cases i <;> exact not_false)
    have hQueue : ({ s with waiting := s.waiting ++ [c] } : Sys P).queue = s.queue ++ [c] := by
      simp [queue]
    rw [hQueue, List.findIdx_append, if_pos (List.findIdx_lt_length.mpr hReady)]
  | cancel i =>
    simp only [step] at hStep
    split at hStep
    next c hAt =>
      split_ifs at hStep with hClient
      obtain rfl := Option.some.inj hStep
      refine .inr (h.client rfl rfl rfl (fun _ => ?_) fun i => by cases i <;> exact not_false)
      have hQueue : ({ s with waiting := s.waiting.eraseIdx i } : Sys P).queue =
          s.queue.eraseIdx (s.mailbox.length + i) := by
        rw [queue, queue, List.eraseIdx_append_of_length_le (Nat.le_add_right _ _),
          Nat.add_sub_cancel_left]
      rw [hQueue]
      refine findIdx_eraseIdx_le (a := c) ?_ (Bool.not_eq_true _ ▸ hClient)
      rw [queue, List.getElem?_append_right (Nat.le_add_right _ _), Nat.add_sub_cancel_left, hAt]
    next => cases hStep
  | enter =>
    simp only [step] at hStep
    split at hStep
    next c waiting hWaiting =>
      split_ifs at hStep
      obtain rfl := Option.some.inj hStep
      exact .inr (h.enter rfl rfl rfl (by simp [queue, hWaiting]))
    next => cases hStep
  | recv now live =>
    simp only [step] at hStep
    split at hStep
    next state c mailbox hActor hMailbox =>
      obtain rfl := Option.some.inj hStep
      exact h.recv hActor hMailbox now live
    next => cases hStep
  | reconciled ended now elapsed live =>
    simp only [step] at hStep
    split at hStep
    next state beforeGen hActor =>
      obtain rfl := Option.some.inj hStep
      exact .inr (h.ends hActor (by rintro ⟨⟩) rfl rfl rfl not_false)
    next => cases hStep
  | committed ended gone now =>
    simp only [step] at hStep
    split at hStep
    next state prepared hActor =>
      obtain rfl := Option.some.inj hStep
      exact .inr (h.ends hActor (by rintro ⟨⟩) rfl rfl rfl not_false)
    next => cases hStep
  | task i e =>
    simp only [step] at hStep
    split at hStep
    next t hTask =>
      obtain ⟨rfl, hTasks, -⟩ := h.inv.task_alone hTask
      refine .inr (.closer ?_)
      rw [rank_of_task hTasks]
      split at hStep
      next t' staging hGoes =>
        obtain rfl := Option.some.inj hStep
        rw [rank_of_task (t := t') (by simp [hTasks])]
        exact taskRank_lt hGoes
      next prepared staging hEnds =>
        obtain rfl := Option.some.inj hStep
        rw [rank_of_none (by simp [hTasks])]
        exact queue_rank_lt _ t
      next => cases hStep
    next => cases hStep

/-- Answers are not taken back. -/
theorem replies_grow {s s' : Sys P} {e : Event P} (hStep : s.step e = some s') :
    s.replies <+: s'.replies := by
  cases e with
  | recv now live =>
    simp only [step] at hStep
    split at hStep
    next state c mailbox hActor hMailbox =>
      obtain rfl := Option.some.inj hStep
      cases c with
      | merge => exact List.prefix_append _ _
      | status => exact List.prefix_append _ _
      | _ => exact List.prefix_rfl
    next => cases hStep
  | reconciled ended now elapsed live =>
    simp only [step] at hStep
    split at hStep
    next state beforeGen hActor =>
      obtain rfl := Option.some.inj hStep
      exact List.prefix_append _ _
    next => cases hStep
  | _ =>
    simp only [step] at hStep
    split at hStep <;> (try split at hStep) <;>
      first
        | (obtain rfl := Option.some.inj hStep; exact List.prefix_rfl)
        | cases hStep

theorem started_mono {s s' : Sys P} {e : Event P} (hStep : s.step e = some s') :
    s.started ≤ s'.started :=
  (replies_grow hStep).sublist.countP_le

theorem Pending.ready {k : Nat} {s : Sys P} (h : s.Pending k) :
    Fair.Unending.Ready step Party.Owns s.turn s := by
  rcases h.tasks with ⟨t, hTask⟩ | ⟨hNone, c, hc, hReady⟩
  · rw [turn_of_task hTask]
    refine .of_isSome (e := .task 0 (.panicked "")) trivial ?_
    simp only [step, hTask, List.getElem?_cons_zero, Task.step_panicked]
    rfl
  · rw [turn_of_none hNone]
    obtain ⟨⟨state, phase⟩, hActor⟩ := Option.isSome_iff_exists.mp h.alive
    cases phase with
    | receiving =>
      rw [delay_receiving hActor]
      cases hMailbox : s.mailbox with
      | nil =>
        rw [queue, hMailbox, List.nil_append] at hc
        obtain ⟨c', waiting, hWaiting⟩ := List.exists_cons_of_ne_nil (List.ne_nil_of_mem hc)
        refine .of_isSome (e := .enter) trivial ?_
        simp [step, hWaiting, hMailbox, mailboxCapacity]
      | cons c' mailbox =>
        refine .of_isSome (e := .recv 0 default) trivial ?_
        simp only [step, hActor, hMailbox, Option.isSome_some]
    | reconciling beforeGen =>
      rw [delay_busy (by simp [hActor])]
      refine .of_isSome (e := .reconciled .ok 0 0 default) trivial ?_
      simp only [step, hActor, Option.isSome_some]
    | committing ps =>
      rw [delay_busy (by simp [hActor])]
      refine .of_isSome (e := .committed .ok [] 0) trivial ?_
      simp only [step, hActor, Option.isSome_some]

/-- Where nothing is under way, nobody has a turn. -/
theorem not_ready {s : Sys P} {state : ActorState}
    (hActor : s.actor = some (state, .receiving)) (hTasks : s.tasks = [])
    (hQueue : s.queue = []) (i : Party) : ¬ Fair.Unending.Ready step Party.Owns i s := by
  obtain ⟨hMailbox, hWaiting⟩ := List.append_eq_nil_iff.mp hQueue
  rintro ⟨e, s', hOwns, hStep⟩
  cases e with
  | request c => cases i <;> exact hOwns
  | cancel j => cases i <;> exact hOwns
  | enter => simp [step, hWaiting] at hStep
  | recv now live => simp [step, hActor, hMailbox] at hStep
  | reconciled ended now elapsed live => simp [step, hActor] at hStep
  | committed ended gone now => simp [step, hActor] at hStep
  | task j e => simp [step, hTasks] at hStep

/-- In a fair run the message about a merge arrives, unless the actor has ended. -/
theorem leadsTo_settled {staging : List P} (r : Fair.Unending step (spawn staging))
    (hFair : ∀ i : Party, r.FairTo Party.Owns i) (n : Nat) :
    ∃ m, n ≤ m ∧ (r.state m).Settled (r.state n).started := by
  have hInv (m : Nat) : (r.state m).Inv := by
    obtain ⟨es, hSteps⟩ := r.reached m
    exact .of_steps hSteps
  cases hAlive : (r.state n).actor with
  | none => exact ⟨n, le_rfl, .inl hAlive⟩
  | some actor =>
    rcases Nat.lt_or_ge (r.state n).finished (r.state n).started with hLt | hGe
    · refine r.leadsTo (P := Pending (r.state n).started) rank turn ?_ (fun _ h => h.ready) hFair
        ⟨hInv n, by rw [hAlive]; rfl, hLt, le_rfl⟩
      intro s e s' hPending hStep
      by_cases hSettled : s'.Settled (r.state n).started
      · exact .inl hSettled
      · have hNot := not_or.mp hSettled
        refine .inr ⟨⟨hPending.inv.step hStep, Option.isSome_iff_ne_none.mpr hNot.1,
          Nat.lt_of_not_le hNot.2, hPending.answered.trans (started_mono hStep)⟩, ?_⟩
        rcases hPending.moves hStep with h | ⟨h⟩ | ⟨hRank, hTurn, hOther⟩
        · exact absurd h hSettled
        · exact .inl h
        · exact .inr ⟨hRank, hTurn, hOther⟩
    · exact ⟨n, le_rfl, .inr hGe⟩

/-- For every order of messages and every timing and outcome of the prepare tasks. At any time
there is at most one prepare task or message about a merge not received; the flag is up exactly
while there is one; while `clear_staging` runs there is no such message and no commit, and what
has been prepared and not committed is in the staging directory. As many messages about merges
are received as merges were answered `started = true`, up to the one under way; and in a fair
run each is received, unless the actor ends first. -/
theorem one_merge_at_a_time (staging : List P) :
    (∀ es (s : Sys P), Fair.Steps step (spawn staging) es s →
      s.inFlight ≤ 1 ∧
      (∀ state phase, s.actor = some (state, phase) →
        (state.merging = true ↔ s.inFlight = 1)) ∧
      (.clearing ∈ s.tasks → (∀ c ∈ s.queue, c.isReady = false) ∧
        ∀ state ps, s.actor ≠ some (state, .committing ps)) ∧
      (∀ ps, s.Held ps → ps ⊆ s.staging) ∧
      s.finished ≤ s.started ∧
      (s.actor.isSome = true → s.started = s.finished + s.inFlight)) ∧
    ∀ r : Fair.Unending step (spawn staging), (∀ i : Party, r.FairTo Party.Owns i) →
      ∀ n, ∃ m, n ≤ m ∧
        ((r.state m).actor = none ∨ (r.state n).started ≤ (r.state m).finished) := by
  refine ⟨fun es s hSteps => ?_, fun r hFair n => leadsTo_settled r hFair n⟩
  have hInv := Inv.of_steps hSteps
  refine ⟨hInv.alone, fun state phase hActor => ?_, fun hClearing => ?_, hInv.held,
    le_trans (Nat.le_add_right _ _) hInv.behind, hInv.answered⟩
  · rw [hInv.flag state phase hActor]
    cases state.merging <;> decide
  · obtain ⟨i, hTask⟩ := List.getElem?_of_mem hClearing
    exact (hInv.task_alone hTask).2.2

/-- A merge of two outputs, asked for twice. -/
def twoMerges : List (Event Nat) :=
  [.request .merge, .request .merge, .enter, .recv 0 default, .task 0 (.cleared []), .enter,
    .recv 0 default, .task 0 (.opened 2), .task 0 (.prepared 1), .task 0 (.prepared 2),
    .task 0 .returned, .enter, .recv 0 default, .committed .ok [1, 2] 0]

theorem twoMerges_run : ∃ s : Sys Nat, twoMerges.foldlM step (spawn [7]) = some s ∧
    s.started = 1 ∧ s.finished = 1 ∧ s.tasks = [] ∧ s.queue = [] ∧
    ∃ state, s.actor = some (state, .receiving) :=
  ⟨_, rfl, rfl, rfl, rfl, rfl, _, rfl⟩

theorem one_merge_at_a_time_two :
    ∃ s : Sys Nat, twoMerges.foldlM step (spawn [7]) = some s ∧ s.started = 1 ∧ s.finished = 1 ∧
      s.inFlight ≤ 1 ∧ ∃ r : Fair.Unending step (spawn [7]), (∃ n, r.state n = s) ∧
        ∀ n, ∃ m, n ≤ m ∧
          ((r.state m).actor = none ∨ (r.state n).started ≤ (r.state m).finished) := by
  obtain ⟨s, hRun, hStarted, hFinished, hTasks, hQueue, state, hActor⟩ := twoMerges_run
  have hSteps := Fair.steps_of_foldlM hRun
  have hSome : (twoMerges.foldlM step (spawn [7])).isSome = true := by rw [hRun]; rfl
  exact ⟨s, hRun, hStarted, hFinished, ((one_merge_at_a_time [7]).1 _ s hSteps).1,
    .ofList (spawn [7]) twoMerges hSome, ⟨_, Fair.Unending.ofList_state hRun hSome le_rfl⟩,
    (one_merge_at_a_time [7]).2 _
      (Fair.Unending.fairTo_ofList hRun hSome (not_ready hActor hTasks hQueue))⟩

end Runs

end Sys

end Ripindex.Daemon.Actor
