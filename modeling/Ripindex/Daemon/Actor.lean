import Mathlib.Data.List.Perm.Basic
import Ripindex.Lib.Fair

/-!
# The actor of a root

`daemon/actor.rs`: the task that drains one mailbox, cut where it awaits, and the task that
`start_merge` spawns, with what the two leave in the staging directory. What the index itself
does in `update_index`, `prepare_merge` and `commit_merges` is an input, as is what
`live.snapshot()` and the clock say.

The channel holds 64 messages. A sender waits for a place, and the places go to the senders in
the order in which they called `send`.

## Results

* `Sys.Inv.step` — what every step keeps;
* `Sys.Inv.of_steps` — what holds in every state of an actor's life.
-/

namespace Ripindex.Daemon.Actor

/-- What `live.snapshot()` and `live.generation()` say. -/
structure LiveView where
  docsTotal : Nat
  docsIndexed : Nat
  segments : Nat
  onDiskBytes : Nat
  generation : Nat
  deriving DecidableEq, Inhabited, Repr

structure ReconcileOutcome where
  generation : Nat
  docs : Nat
  segments : Nat
  changed : Bool
  elapsedMs : Nat
  deriving DecidableEq, Repr

structure MergeStarted where
  started : Bool
  reason : Option String
  deriving DecidableEq, Repr

structure RootStatus where
  docs : Nat
  docsIndexed : Nat
  segments : Nat
  onDiskBytes : Nat
  generation : Nat
  lastReconcileUnixMs : Option Nat
  lastReconcileMs : Option Nat
  lastReconcileError : Option String
  mergeRunning : Bool
  lastMergeUnixMs : Option Nat
  lastMergeResult : Option String
  watcherHealthy : Bool
  deriving DecidableEq, Repr

/-- A message, of an actor whose prepared outputs are of the type `P`. -/
inductive Command (P : Type)
  | reconcile
  | merge
  | mergeReady (prepared : Except String (List P)) (planLen : Nat)
  | status
  | setWatcherHealthy (healthy : Bool)
  | shutdown

/-- What goes back through the `oneshot` of a request. -/
inductive Reply
  | reconcile (outcome : Except String ReconcileOutcome)
  | merge (started : MergeStarted)
  | status (status : RootStatus)

/-- The fields of `ActorState` that change. -/
structure ActorState where
  merging : Bool
  lastReconcile : Option (Nat × Nat × Option String)
  lastMerge : Option (Nat × String)
  watcherHealthy : Bool
  deriving DecidableEq, Repr

def ActorState.new : ActorState where
  merging := false
  lastReconcile := none
  lastMerge := none
  watcherHealthy := true

/-- Where `run` is waiting. -/
inductive Phase (P : Type)
  /-- For a message. -/
  | receiving
  /-- For `update_index`. -/
  | reconciling (beforeGen : Nat)
  /-- For `commit_merges`. -/
  | committing (prepared : List P)

/-- How `update_index` or `commit_merges` ends. -/
inductive Ended
  | ok
  | error (e : String)
  | panicked (e : String)
  deriving DecidableEq, Repr

-- ---------------------------------------------------------------------------
-- The handlers
-- ---------------------------------------------------------------------------

section Handlers

variable {P : Type}

/-- `do_reconcile` from where `update_index` has ended. -/
def doReconcile (state : ActorState) (beforeGen : Nat) (ended : Ended) (now elapsed : Nat)
    (live : LiveView) : ActorState × Except String ReconcileOutcome :=
  match ended with
  | .panicked e => (state, .error s!"reconcile task panicked: {e}")
  | .error e => ({ state with lastReconcile := some (now, elapsed, some e) }, .error e)
  | .ok => ({ state with lastReconcile := some (now, elapsed, none) }, .ok
      { generation := live.generation
        docs := live.docsTotal
        segments := live.segments
        changed := live.generation != beforeGen
        elapsedMs := elapsed })

/-- `start_merge`, and whether it spawns the task. -/
def startMerge (state : ActorState) : ActorState × Bool × MergeStarted :=
  if state.merging then
    (state, false, ⟨false, some "a merge is already running for this root"⟩)
  else ({ state with merging := true }, true, ⟨true, none⟩)

/-- The end of `finish_merge`. -/
def ActorState.merged (state : ActorState) (now : Nat) (outcome : Except String String) :
    ActorState :=
  { state with lastMerge := some (now, match outcome with
      | .ok m => m
      | .error e => s!"error: {e}") }

/-- `finish_merge` up to where it waits for `commit_merges`, if it does. -/
def finishMerge (state : ActorState) (prepared : Except String (List P)) (planLen now : Nat) :
    ActorState × Phase P :=
  let state := { state with merging := false }
  match prepared with
  | .error e => (state.merged now (.error e), .receiving)
  | .ok [] => (state.merged now
      (.ok s!"nothing to merge (planned {planLen} groups, prepared 0)"), .receiving)
  | .ok (p :: ps) => (state, .committing (p :: ps))

/-- `finish_merge` from where `commit_merges` has ended. -/
def finishCommit (state : ActorState) (n : Nat) (ended : Ended) (now : Nat) : ActorState :=
  state.merged now (match ended with
    | .ok => .ok s!"merged {n} group(s)"
    | .error e => .error e
    | .panicked e => .error s!"merge commit task panicked: {e}")

def status (state : ActorState) (live : LiveView) : RootStatus where
  docs := live.docsTotal
  docsIndexed := live.docsIndexed
  segments := live.segments
  onDiskBytes := live.onDiskBytes
  generation := live.generation
  lastReconcileUnixMs := state.lastReconcile.map fun (t, _, _) => t
  lastReconcileMs := state.lastReconcile.map fun (_, d, _) => d
  lastReconcileError := state.lastReconcile.bind fun (_, _, e) => e
  mergeRunning := state.merging
  lastMergeUnixMs := state.lastMerge.map fun (t, _) => t
  lastMergeResult := state.lastMerge.map fun (_, m) => m
  watcherHealthy := state.watcherHealthy

end Handlers

-- ---------------------------------------------------------------------------
-- The prepare task
-- ---------------------------------------------------------------------------

/-- Where the closure of the prepare task is. -/
inductive Task (P : Type)
  /-- Before `clear_staging`. -/
  | clearing
  /-- Before `store::open` and `plan_merges`. -/
  | opening
  /-- In the loop, with that many groups to go. -/
  | preparing (left : Nat) (prepared : List P)

/-- What the closure does next. -/
inductive TaskEvent (P : Type)
  /-- `clear_staging` returns. It does not look at the result of `remove_file`. -/
  | cleared (kept : List P)
  | clearFailed (e : String)
  | opened (groups : Nat)
  | noIndex
  | openFailed (e : String)
  | prepared (p : P)
  | prepareFailed (e : String)
  /-- The loop is over. -/
  | returned
  | panicked (e : String)

section Tasks

variable {P : Type} [DecidableEq P]

/-- What the task sends when the closure has ended. -/
def mergeReady (prepared : Except String (List P)) : Command P :=
  .mergeReady prepared (match prepared with
    | .ok p => p.length
    | .error _ => 0)

/-- The closure of the prepare task: it goes on, or ends with its result; and the outputs in the
staging directory. -/
def Task.step (staging : List P) : Task P → TaskEvent P →
    Option ((Task P ⊕ Except String (List P)) × List P)
  | .clearing, .cleared kept => some (.inl .opening, staging.filter (· ∈ kept))
  | .clearing, .clearFailed e => some (.inr (.error e), staging)
  | .opening, .opened groups => some (.inl (.preparing groups []), staging)
  | .opening, .noIndex => some (.inr (.error "no index"), staging)
  | .opening, .openFailed e => some (.inr (.error e), staging)
  | .preparing (left + 1) prepared, .prepared p =>
    some (.inl (.preparing left (prepared ++ [p])), staging ++ [p])
  | .preparing (_ + 1) prepared, .prepareFailed e =>
    -- `discard` of every output so far.
    some (.inr (.error e), staging.filter (· ∉ prepared))
  | .preparing 0 prepared, .returned => some (.inr (.ok prepared), staging)
  | _, .panicked e => some (.inr (.error s!"merge prepare task panicked: {e}"), staging)
  | _, _ => none

/-- The closure may panic wherever it is. -/
theorem Task.step_panicked (staging : List P) (t : Task P) (e : String) :
    t.step staging (.panicked e) =
      some (.inr (.error s!"merge prepare task panicked: {e}"), staging) := by
  cases t with
  | clearing => rfl
  | opening => rfl
  | preparing left prepared => cases left <;> rfl

/-- The outputs that the closure has prepared are in the staging directory. -/
def Task.Keeps (t : Task P) (staging : List P) : Prop :=
  ∀ left ps, t = .preparing left ps → ps ⊆ staging

theorem Task.Keeps.step {t t' : Task P} {staging staging' : List P} {e : TaskEvent P}
    (h : t.Keeps staging) (hStep : t.step staging e = some (.inl t', staging')) :
    t'.Keeps staging' := by
  intro left ps hAt
  subst hAt
  revert hStep
  fun_cases Task.step staging t e with
  | case3 groups =>
    intro hStep
    obtain ⟨hTask, rfl⟩ := Prod.mk.inj (Option.some.inj hStep)
    obtain ⟨-, rfl⟩ := Task.preparing.inj (Sum.inl.inj hTask)
    exact List.nil_subset _
  | case6 left' prepared p =>
    intro hStep
    obtain ⟨hTask, rfl⟩ := Prod.mk.inj (Option.some.inj hStep)
    obtain ⟨-, rfl⟩ := Task.preparing.inj (Sum.inl.inj hTask)
    exact List.append_subset.mpr ⟨List.subset_append_of_subset_left _ (h _ _ rfl),
      List.subset_append_right _ _⟩
  | _ => simp

theorem Task.Keeps.stop {t : Task P} {staging staging' : List P} {e : TaskEvent P}
    {prepared : Except String (List P)} (h : t.Keeps staging)
    (hStep : t.step staging e = some (.inr prepared, staging')) :
    ∀ ps, prepared = .ok ps → ps ⊆ staging' := by
  rintro ps rfl
  revert hStep
  fun_cases Task.step staging t e with
  | case8 prepared =>
    intro hStep
    obtain ⟨hResult, rfl⟩ := Prod.mk.inj (Option.some.inj hStep)
    obtain rfl := Except.ok.inj (Sum.inr.inj hResult)
    exact h _ _ rfl
  | _ => simp

end Tasks

-- ---------------------------------------------------------------------------
-- The system
-- ---------------------------------------------------------------------------

def mailboxCapacity : Nat := 64

structure Sys (P : Type) where
  /-- `run`, until it breaks out of its loop. -/
  actor : Option (ActorState × Phase P)
  /-- The messages in the channel, the next one first. -/
  mailbox : List (Command P)
  /-- The messages whose senders wait for a place. -/
  waiting : List (Command P)
  tasks : List (Task P)
  /-- The outputs in the staging directory. -/
  staging : List P
  replies : List Reply
  /-- How many `MergeReady` messages `run` has received. -/
  finished : Nat

/-- What happens next. -/
inductive Event (P : Type)
  /-- A client calls `send`. -/
  | request (c : Command P)
  /-- A client that waits for a place gives up. -/
  | cancel (i : Nat)
  /-- The first of those who wait gets a place. -/
  | enter
  | recv (now : Nat) (live : LiveView)
  | reconciled (ended : Ended) (now elapsed : Nat) (live : LiveView)
  /-- `commit_merges` ends, with these outputs renamed into place or discarded. -/
  | committed (ended : Ended) (gone : List P) (now : Nat)
  | task (i : Nat) (e : TaskEvent P)

variable {P : Type}

def Command.isReady : Command P → Bool
  | .mergeReady _ _ => true
  | _ => false

/-- The answer to a `Merge` request that starts one. -/
def Reply.isStarted : Reply → Bool
  | .merge m => m.started
  | _ => false

namespace Sys

/-- After `spawn`, with what is left in the staging directory. -/
def spawn (staging : List P) : Sys P where
  actor := some (.new, .receiving)
  mailbox := []
  waiting := []
  tasks := []
  staging := staging
  replies := []
  finished := 0

/-- `run` with a message it has received. -/
def handle (s : Sys P) (state : ActorState) (c : Command P) (now : Nat) (live : LiveView) :
    Sys P :=
  match c with
  | .reconcile => { s with actor := some (state, .reconciling live.generation) }
  | .merge =>
    let (state, spawned, started) := startMerge state
    { s with
      actor := some (state, .receiving)
      tasks := if spawned then s.tasks ++ [.clearing] else s.tasks
      replies := s.replies ++ [.merge started] }
  | .mergeReady prepared planLen =>
    { s with
      actor := some (finishMerge state prepared planLen now)
      finished := s.finished + 1 }
  | .status =>
    { s with
      actor := some (state, .receiving)
      replies := s.replies ++ [.status (status state live)] }
  | .setWatcherHealthy h =>
    { s with actor := some ({ state with watcherHealthy := h }, .receiving) }
  -- The receiver is dropped: what is in the channel is lost, and every `send` fails.
  | .shutdown => { s with actor := none, mailbox := [], waiting := [] }

variable [DecidableEq P] in
def step (s : Sys P) : Event P → Option (Sys P)
  | .request c =>
    if s.actor.isSome && !c.isReady then some { s with waiting := s.waiting ++ [c] } else none
  | .cancel i =>
    match s.waiting[i]? with
    | some c => if c.isReady then none else some { s with waiting := s.waiting.eraseIdx i }
    | none => none
  | .enter =>
    match s.waiting with
    | c :: waiting =>
      if s.mailbox.length < mailboxCapacity then
        some { s with mailbox := s.mailbox ++ [c], waiting := waiting }
      else none
    | [] => none
  | .recv now live =>
    match s.actor, s.mailbox with
    | some (state, .receiving), c :: mailbox =>
      some ({ s with mailbox := mailbox }.handle state c now live)
    | _, _ => none
  | .reconciled ended now elapsed live =>
    match s.actor with
    | some (state, .reconciling beforeGen) =>
      let (state, outcome) := doReconcile state beforeGen ended now elapsed live
      some { s with
        actor := some (state, .receiving)
        replies := s.replies ++ [.reconcile outcome] }
    | _ => none
  | .committed ended gone now =>
    match s.actor with
    | some (state, .committing prepared) =>
      some { s with
        actor := some (finishCommit state prepared.length ended now, .receiving)
        staging := s.staging.filter fun p => !(p ∈ prepared && p ∈ gone) }
    | _ => none
  | .task i e =>
    match s.tasks[i]? with
    | some t =>
      match t.step s.staging e with
      | some (.inl t', staging) => some { s with tasks := s.tasks.set i t', staging := staging }
      | some (.inr prepared, staging) =>
        some { s with
          tasks := s.tasks.eraseIdx i
          staging := staging
          -- Without a receiver the `send` fails, which nobody looks at.
          waiting := if s.actor.isSome then s.waiting ++ [mergeReady prepared] else s.waiting }
      | none => none
    | none => none

-- ---------------------------------------------------------------------------
-- What every step keeps
-- ---------------------------------------------------------------------------

@[simp] theorem isReady_mergeReady (prepared : Except String (List P)) :
    (mergeReady prepared).isReady = true := rfl

/-- The messages that have been sent and not received. -/
def queue (s : Sys P) : List (Command P) := s.mailbox ++ s.waiting

/-- The prepare tasks and the `MergeReady` messages not received. -/
def inFlight (s : Sys P) : Nat := s.tasks.length + s.queue.countP Command.isReady

/-- How many `Merge` requests were answered `started = true`. -/
def started (s : Sys P) : Nat := s.replies.countP Reply.isStarted

/-- A merge has prepared these outputs, and they are not committed yet. -/
inductive Held (s : Sys P) (ps : List P) : Prop
  | preparing (left : Nat) (h : .preparing left ps ∈ s.tasks)
  | ready (n : Nat) (h : .mergeReady (.ok ps) n ∈ s.queue)
  | committing (state : ActorState) (h : s.actor = some (state, .committing ps))

/-- What holds in every state of an actor's life. -/
structure Inv (s : Sys P) : Prop where
  flag : ∀ state phase, s.actor = some (state, phase) → s.inFlight = state.merging.toNat
  alone : s.inFlight ≤ 1
  gone : s.actor = none → s.queue = []
  /-- The flag is down before the commit. -/
  committing : ∀ state ps, s.actor = some (state, .committing ps) → state.merging = false
  held : ∀ ps, s.Held ps → ps ⊆ s.staging
  answered : s.actor.isSome = true → s.started = s.finished + s.inFlight
  behind : s.finished + s.inFlight ≤ s.started
  ahead : s.started ≤ s.finished + 1

theorem inv_spawn (staging : List P) : (spawn staging).Inv where
  flag state phase h := by
    obtain ⟨rfl, rfl⟩ := Prod.mk.inj (Option.some.inj h)
    rfl
  alone := Nat.zero_le 1
  gone h := nomatch h
  committing state ps h := nomatch (Prod.mk.inj (Option.some.inj h)).2
  held ps h := by
    cases h with
    | preparing left h => cases h
    | ready n h => cases h
    | committing state h => exact nomatch (Prod.mk.inj (Option.some.inj h)).2
  answered _ := rfl
  behind := Nat.le_refl 0
  ahead := Nat.zero_le 1

/-- Where a task runs, it is the only one, its message is not sent, and nothing is committed. -/
theorem Inv.task_alone {s : Sys P} (hInv : s.Inv) {i : Nat} {t : Task P}
    (hTask : s.tasks[i]? = some t) :
    i = 0 ∧ s.tasks = [t] ∧ (∀ c ∈ s.queue, c.isReady = false) ∧
      ∀ state ps, s.actor ≠ some (state, .committing ps) := by
  obtain ⟨hi, rfl⟩ := List.getElem?_eq_some_iff.mp hTask
  have hAlone := hInv.alone
  rw [inFlight] at hAlone
  have hLength : s.tasks.length = 1 := by omega
  have hNone : s.queue.countP Command.isReady = 0 := by omega
  obtain ⟨t, hTasks⟩ := List.length_eq_one_iff.mp hLength
  refine ⟨by omega, ?_, fun c hc => ?_, fun state ps hActor => ?_⟩
  · have hZero : i = 0 := by omega
    subst hZero
    simp [hTasks]
  · simpa using List.countP_eq_zero.mp hNone c hc
  · have hFlag := hInv.flag _ _ hActor
    rw [hInv.committing _ _ hActor, inFlight, hLength] at hFlag
    simp only [Bool.toNat_false] at hFlag
    omega

/-- A step that has nothing to do with a merge. -/
structure Aside (s s' : Sys P) : Prop where
  tasks : s'.tasks = s.tasks
  count : s'.queue.countP Command.isReady = s.queue.countP Command.isReady
  sub : ∀ c ∈ s'.queue, c.isReady = true → c ∈ s.queue
  staging : s'.staging = s.staging
  finished : s'.finished = s.finished
  started : s'.started = s.started
  alive : s'.actor ≠ none
  actor : ∀ state' phase', s'.actor = some (state', phase') → ∃ state phase,
    s.actor = some (state, phase) ∧ state'.merging = state.merging ∧
      ∀ ps, phase' = .committing ps → phase = .committing ps

theorem Aside.inFlight {s s' : Sys P} (h : s.Aside s') : s'.inFlight = s.inFlight := by
  rw [Sys.inFlight, Sys.inFlight, h.tasks, h.count]

theorem Inv.aside {s s' : Sys P} (hInv : s.Inv) (h : s.Aside s') : s'.Inv where
  flag state' phase' hActor' := by
    obtain ⟨state, phase, hActor, hMerging, -⟩ := h.actor state' phase' hActor'
    rw [h.inFlight, hMerging, hInv.flag state phase hActor]
  alone := h.inFlight ▸ hInv.alone
  gone hNone := absurd hNone h.alive
  committing state' ps hActor' := by
    obtain ⟨state, phase, hActor, hMerging, hPhase⟩ := h.actor state' _ hActor'
    rw [hMerging]
    exact hInv.committing state ps (hPhase ps rfl ▸ hActor)
  held ps hHeld := by
    rw [h.staging]
    refine hInv.held ps ?_
    cases hHeld with
    | preparing left hTask => exact .preparing left (h.tasks ▸ hTask)
    | ready n hReady => exact .ready n (h.sub _ hReady rfl)
    | committing state' hActor' =>
      obtain ⟨state, phase, hActor, -, hPhase⟩ := h.actor state' _ hActor'
      exact .committing state (hPhase ps rfl ▸ hActor)
  answered _ := by
    obtain ⟨⟨state', phase'⟩, hActor'⟩ := Option.ne_none_iff_exists'.mp h.alive
    obtain ⟨state, phase, hActor, -⟩ := h.actor state' phase' hActor'
    rw [h.started, h.finished, h.inFlight, hInv.answered (by rw [hActor]; rfl)]
  behind := by
    rw [h.started, h.finished, h.inFlight]
    exact hInv.behind
  ahead := by
    rw [h.started, h.finished]
    exact hInv.ahead

/-- Where only the channel changes. -/
theorem aside_of_queue {s s' : Sys P} (hAlive : s.actor ≠ none) (hActor : s'.actor = s.actor)
    (hTasks : s'.tasks = s.tasks) (hStaging : s'.staging = s.staging)
    (hFinished : s'.finished = s.finished) (hReplies : s'.replies = s.replies)
    (hCount : s'.queue.countP Command.isReady = s.queue.countP Command.isReady)
    (hSub : ∀ c ∈ s'.queue, c.isReady = true → c ∈ s.queue) : s.Aside s' where
  tasks := hTasks
  count := hCount
  sub := hSub
  staging := hStaging
  finished := hFinished
  started := by rw [Sys.started, Sys.started, hReplies]
  alive := hActor ▸ hAlive
  actor state' phase' h := ⟨state', phase', hActor ▸ h, rfl, fun _ hPhase => hPhase⟩

theorem Aside.request {s : Sys P} {c : Command P} (hAlive : s.actor ≠ none)
    (hClient : c.isReady = false) : s.Aside { s with waiting := s.waiting ++ [c] } := by
  refine aside_of_queue hAlive rfl rfl rfl rfl rfl ?_ ?_
  · simp [queue, hClient]
  · intro c' hc' hReady
    simp only [queue, ← List.append_assoc, List.mem_append, List.mem_singleton] at hc' ⊢
    rcases hc' with hc' | rfl
    · exact hc'
    · rw [hClient] at hReady
      cases hReady

theorem Aside.cancel {s : Sys P} {i : Nat} {c : Command P} (hAlive : s.actor ≠ none)
    (hAt : s.waiting[i]? = some c) (hClient : c.isReady = false) :
    s.Aside { s with waiting := s.waiting.eraseIdx i } := by
  obtain ⟨hi, rfl⟩ := List.getElem?_eq_some_iff.mp hAt
  refine aside_of_queue hAlive rfl rfl rfl rfl rfl ?_ ?_
  · have hPerm := (List.getElem_cons_eraseIdx_perm hi).countP_eq Command.isReady
    rw [List.countP_cons_of_neg (by simp [hClient])] at hPerm
    simp [queue, hPerm]
  · intro c' hc' _
    rcases List.mem_append.mp hc' with hc' | hc'
    · exact List.mem_append_left _ hc'
    · exact List.mem_append_right _ (List.mem_of_mem_eraseIdx hc')

theorem Aside.enter {s : Sys P} {c : Command P} {waiting : List (Command P)}
    (hAlive : s.actor ≠ none) (hWaiting : s.waiting = c :: waiting) :
    s.Aside { s with mailbox := s.mailbox ++ [c], waiting := waiting } := by
  have hQueue : ({ s with mailbox := s.mailbox ++ [c], waiting := waiting } : Sys P).queue =
      s.queue := by
    simp [queue, hWaiting]
  exact aside_of_queue hAlive rfl rfl rfl rfl rfl (by rw [hQueue]) (by
    rw [hQueue]
    exact fun _ h _ => h)

/-- Where the actor goes on to something that is not a commit. -/
theorem aside_of_actor {s s' : Sys P} {state state' : ActorState} {phase phase' : Phase P}
    (hActor : s.actor = some (state, phase)) (hActor' : s'.actor = some (state', phase'))
    (hMerging : state'.merging = state.merging) (hPhase : ∀ ps, phase' ≠ .committing ps)
    (hTasks : s'.tasks = s.tasks) (hStaging : s'.staging = s.staging)
    (hFinished : s'.finished = s.finished) (hStarted : s'.started = s.started)
    (hCount : s'.queue.countP Command.isReady = s.queue.countP Command.isReady)
    (hSub : ∀ c ∈ s'.queue, c.isReady = true → c ∈ s.queue) : s.Aside s' where
  tasks := hTasks
  count := hCount
  sub := hSub
  staging := hStaging
  finished := hFinished
  started := hStarted
  alive := by simp [hActor']
  actor state'' phase'' h := by
    obtain ⟨rfl, rfl⟩ := Prod.mk.inj (Option.some.inj (hActor'.symm.trans h))
    exact ⟨state, phase, hActor, hMerging, fun ps h => absurd h (hPhase ps)⟩

/-- The queue without its first message. -/
theorem queue_of_recv {s : Sys P} {c : Command P} {mailbox : List (Command P)}
    (hMailbox : s.mailbox = c :: mailbox) : s.queue = c :: (mailbox ++ s.waiting) := by
  rw [queue, hMailbox, List.cons_append]

theorem started_append {s s' : Sys P} {r : Reply} (hReplies : s'.replies = s.replies ++ [r]) :
    s'.started = s.started + r.isStarted.toNat := by
  rw [started, started, hReplies, List.countP_append, List.countP_singleton]
  cases r.isStarted <;> rfl

theorem started_same {s s' : Sys P} {r : Reply} (hReplies : s'.replies = s.replies ++ [r])
    (hOther : r.isStarted = false) : s'.started = s.started := by
  rw [started_append hReplies, hOther, Bool.toNat_false, Nat.add_zero]

/-- A message that is not about a merge. -/
theorem Aside.recv {s s' : Sys P} {state state' : ActorState} {phase' : Phase P} {c : Command P}
    {mailbox : List (Command P)} (hActor : s.actor = some (state, .receiving))
    (hMailbox : s.mailbox = c :: mailbox) (hClient : c.isReady = false)
    (hActor' : s'.actor = some (state', phase')) (hMerging : state'.merging = state.merging)
    (hPhase : ∀ ps, phase' ≠ .committing ps) (hTasks : s'.tasks = s.tasks)
    (hStaging : s'.staging = s.staging) (hFinished : s'.finished = s.finished)
    (hStarted : s'.started = s.started) (hQueue : s'.queue = mailbox ++ s.waiting) :
    s.Aside s' := by
  refine aside_of_actor hActor hActor' hMerging hPhase hTasks hStaging hFinished hStarted ?_ ?_
  · rw [hQueue, queue_of_recv hMailbox, List.countP_cons_of_neg (by simp [hClient])]
  · intro c' hc' _
    rw [queue_of_recv hMailbox]
    exact List.mem_cons_of_mem _ (hQueue ▸ hc')

/-- A merge begins: its task is the one thing in flight. -/
theorem Inv.merge {s s' : Sys P} {state state' : ActorState} {mailbox : List (Command P)}
    (hInv : s.Inv) (hActor : s.actor = some (state, .receiving))
    (hMailbox : s.mailbox = .merge :: mailbox) (hMerging : state.merging = false)
    (hActor' : s'.actor = some (state', .receiving)) (hMerging' : state'.merging = true)
    (hTasks : s'.tasks = s.tasks ++ [.clearing]) (hStaging : s'.staging = s.staging)
    (hFinished : s'.finished = s.finished) (hStarted : s'.started = s.started + 1)
    (hQueue : s'.queue = mailbox ++ s.waiting) : s'.Inv := by
  have hNone : s.inFlight = 0 := by rw [hInv.flag _ _ hActor, hMerging, Bool.toNat_false]
  have hCount : s'.queue.countP Command.isReady = s.queue.countP Command.isReady := by
    rw [hQueue, queue_of_recv hMailbox, List.countP_cons_of_neg (by simp [Command.isReady])]
  have hOne : s'.inFlight = 1 := by
    rw [inFlight] at hNone ⊢
    rw [hTasks, hCount, List.length_append, List.length_singleton]
    omega
  have hAnswered := hInv.answered (by rw [hActor]; rfl)
  constructor
  case flag =>
    intro state'' phase'' h
    obtain ⟨rfl, -⟩ := Prod.mk.inj (Option.some.inj (hActor'.symm.trans h))
    rw [hOne, hMerging', Bool.toNat_true]
  case alone => exact hOne.le
  case gone => exact fun h => absurd h (by simp [hActor'])
  case committing =>
    intro state'' ps h
    obtain ⟨-, h⟩ := Prod.mk.inj (Option.some.inj (hActor'.symm.trans h))
    cases h
  case held =>
    intro ps hHeld
    rw [hStaging]
    refine hInv.held ps ?_
    cases hHeld with
    | preparing left h =>
      rw [hTasks] at h
      rcases List.mem_append.mp h with h | h
      · exact .preparing left h
      · exact nomatch List.mem_singleton.mp h
    | ready n h =>
      refine .ready n ?_
      rw [queue_of_recv hMailbox]
      exact List.mem_cons_of_mem _ (hQueue ▸ h)
    | committing state'' h =>
      obtain ⟨-, h⟩ := Prod.mk.inj (Option.some.inj (hActor'.symm.trans h))
      cases h
  case answered => exact fun _ => by omega
  case behind => omega
  case ahead => omega

/-- The message about a merge arrives: nothing is in flight any more. -/
theorem Inv.mergeReady {s s' : Sys P} {state : ActorState} {mailbox : List (Command P)}
    {prepared : Except String (List P)} {planLen now : Nat} (hInv : s.Inv)
    (hActor : s.actor = some (state, .receiving))
    (hMailbox : s.mailbox = .mergeReady prepared planLen :: mailbox)
    (hActor' : s'.actor = some (finishMerge state prepared planLen now))
    (hTasks : s'.tasks = s.tasks) (hStaging : s'.staging = s.staging)
    (hFinished : s'.finished = s.finished + 1) (hStarted : s'.started = s.started)
    (hQueue : s'.queue = mailbox ++ s.waiting) : s'.Inv := by
  have hAnswered := hInv.answered (by rw [hActor]; rfl)
  have hAlone := hInv.alone
  rw [inFlight, queue_of_recv hMailbox, List.countP_cons_of_pos (by rfl)] at hAlone hAnswered
  have hNone : s'.inFlight = 0 := by
    rw [inFlight, hTasks, hQueue]
    omega
  have hLow {state' : ActorState} {phase' : Phase P} (h : s'.actor = some (state', phase')) :
      state'.merging = false ∧ ∀ ps, phase' = .committing ps → prepared = .ok ps := by
    have hEq := Option.some.inj (hActor'.symm.trans h)
    cases prepared with
    | error e =>
      obtain ⟨rfl, rfl⟩ := Prod.mk.inj hEq
      exact ⟨rfl, fun ps h => nomatch h⟩
    | ok prepared =>
      cases prepared with
      | nil =>
        obtain ⟨rfl, rfl⟩ := Prod.mk.inj hEq
        exact ⟨rfl, fun ps h => nomatch h⟩
      | cons p prepared =>
        obtain ⟨rfl, rfl⟩ := Prod.mk.inj hEq
        exact ⟨rfl, fun ps h => by cases h; rfl⟩
  constructor
  case flag =>
    intro state' phase' h
    rw [hNone, (hLow h).1, Bool.toNat_false]
  case alone => omega
  case gone => exact fun h => absurd h (by simp [hActor'])
  case committing => exact fun state' ps h => (hLow h).1
  case held =>
    intro ps hHeld
    rw [hStaging]
    refine hInv.held ps ?_
    cases hHeld with
    | preparing left h => exact .preparing left (hTasks ▸ h)
    | ready n h =>
      refine .ready n ?_
      rw [queue_of_recv hMailbox]
      exact List.mem_cons_of_mem _ (hQueue ▸ h)
    | committing state' h =>
      -- What is committed is what the message carried.
      refine .ready planLen ?_
      rw [queue_of_recv hMailbox, ← (hLow h).2 ps rfl]
      exact List.mem_cons_self
  case answered => exact fun _ => by omega
  case behind => omega
  case ahead => omega

/-- The receiver is dropped. -/
theorem Inv.shutdown {s : Sys P} (hInv : s.Inv) :
    ({ s with actor := none, mailbox := [], waiting := [] } : Sys P).Inv where
  flag state phase h := nomatch h
  alone := by
    have hAlone := hInv.alone
    simp only [inFlight, queue, List.append_nil, List.countP_nil] at hAlone ⊢
    omega
  gone _ := rfl
  committing state ps h := nomatch h
  held ps hHeld := by
    cases hHeld with
    | preparing left h => exact hInv.held ps (.preparing left h)
    | ready n h => exact nomatch h
    | committing state h => exact nomatch h
  answered h := nomatch h
  behind := by
    have hBehind := hInv.behind
    simp only [inFlight, queue, List.append_nil, List.countP_nil] at hBehind ⊢
    exact le_trans (by omega) hBehind
  ahead := hInv.ahead

theorem Inv.handle {s : Sys P} {state : ActorState} {c : Command P} {mailbox : List (Command P)}
    (hInv : s.Inv) (hActor : s.actor = some (state, .receiving))
    (hMailbox : s.mailbox = c :: mailbox) (now : Nat) (live : LiveView) :
    ({ s with mailbox := mailbox }.handle state c now live).Inv := by
  cases c with
  | reconcile =>
    exact hInv.aside (.recv hActor hMailbox rfl rfl rfl (fun _ h => nomatch h)
      rfl rfl rfl rfl rfl)
  | merge =>
    cases hMerging : state.merging with
    | false =>
      simp only [Sys.handle, startMerge, hMerging, Bool.false_eq_true, if_false, if_true]
      exact hInv.merge hActor hMailbox hMerging rfl rfl rfl rfl rfl
        (started_append (r := .merge ⟨true, none⟩) rfl) rfl
    | true =>
      simp only [Sys.handle, startMerge, hMerging, if_true, Bool.false_eq_true, if_false]
      exact hInv.aside (.recv hActor hMailbox rfl rfl rfl (fun _ h => nomatch h)
        rfl rfl rfl (started_same rfl rfl) rfl)
  | mergeReady prepared planLen =>
    exact hInv.mergeReady hActor hMailbox rfl rfl rfl rfl rfl rfl
  | status =>
    exact hInv.aside (.recv hActor hMailbox rfl rfl rfl (fun _ h => nomatch h)
      rfl rfl rfl (started_same rfl rfl) rfl)
  | setWatcherHealthy healthy =>
    exact hInv.aside (.recv hActor hMailbox rfl rfl rfl (fun _ h => nomatch h)
      rfl rfl rfl rfl rfl)
  | shutdown => exact hInv.shutdown

theorem doReconcile_merging (state : ActorState) (beforeGen : Nat) (ended : Ended)
    (now elapsed : Nat) (live : LiveView) :
    (doReconcile state beforeGen ended now elapsed live).1.merging = state.merging := by
  cases ended <;> rfl

theorem Inv.reconciled {s : Sys P} {state : ActorState} {beforeGen : Nat} (hInv : s.Inv)
    (hActor : s.actor = some (state, .reconciling beforeGen)) (ended : Ended) (now elapsed : Nat)
    (live : LiveView) :
    ({ s with
      actor := some ((doReconcile state beforeGen ended now elapsed live).1, .receiving)
      replies := s.replies ++
        [.reconcile (doReconcile state beforeGen ended now elapsed live).2] } : Sys P).Inv :=
  hInv.aside (aside_of_actor hActor rfl (doReconcile_merging state beforeGen ended now elapsed live)
    (fun _ h => nomatch h) rfl rfl rfl (started_same rfl rfl) rfl fun _ h _ => h)

/-- A commit ends: it was what kept outputs, so the staging directory may lose any. -/
theorem Inv.committed {s : Sys P} {state : ActorState} {ps : List P} (hInv : s.Inv)
    (hActor : s.actor = some (state, .committing ps)) (n : Nat) (ended : Ended)
    (staging : List P) (now : Nat) :
    ({ s with
      actor := some (finishCommit state n ended now, .receiving)
      staging := staging } : Sys P).Inv := by
  have hLow := hInv.committing state ps hActor
  have hNone : s.inFlight = 0 := by rw [hInv.flag _ _ hActor, hLow, Bool.toNat_false]
  rw [inFlight] at hNone
  have hTasks : s.tasks = [] := List.length_eq_zero_iff.mp (by omega)
  have hQueue : ∀ c ∈ s.queue, ¬ c.isReady = true :=
    List.countP_eq_zero.mp (by omega)
  constructor
  case flag =>
    intro state' phase' h
    obtain ⟨rfl, -⟩ := Prod.mk.inj (Option.some.inj h)
    exact hInv.flag state _ hActor
  case alone => exact hInv.alone
  case gone => exact fun h => nomatch h
  case committing =>
    intro state' _ h
    obtain ⟨-, h⟩ := Prod.mk.inj (Option.some.inj h)
    cases h
  case held =>
    intro ps hHeld
    cases hHeld with
    | preparing left h => exact absurd (hTasks ▸ h) List.not_mem_nil
    | ready n h => exact absurd rfl (hQueue _ h)
    | committing state' h =>
      obtain ⟨-, h⟩ := Prod.mk.inj (Option.some.inj h)
      cases h
  case answered => exact fun _ => hInv.answered (by rw [hActor]; rfl)
  case behind => exact hInv.behind
  case ahead => exact hInv.ahead

/-- The task goes on. -/
theorem Inv.taskOn {s : Sys P} {t t' : Task P} {staging : List P} (hInv : s.Inv)
    (hTask : s.tasks[0]? = some t)
    (hKeeps : ∀ left ps, t' = .preparing left ps → ps ⊆ staging) :
    ({ s with tasks := s.tasks.set 0 t', staging := staging } : Sys P).Inv := by
  obtain ⟨-, hTasks, hQueue, hActor⟩ := hInv.task_alone hTask
  have hFlight : ({ s with tasks := s.tasks.set 0 t', staging := staging } : Sys P).inFlight =
      s.inFlight := by
    simp only [inFlight, queue, List.length_set]
  constructor
  case flag =>
    intro state phase h
    rw [hFlight]
    exact hInv.flag state phase h
  case alone => exact hFlight ▸ hInv.alone
  case gone => exact hInv.gone
  case committing => exact hInv.committing
  case held =>
    intro ps hHeld
    cases hHeld with
    | preparing left h =>
      simp only [hTasks, List.set_cons_zero, List.mem_singleton] at h
      exact hKeeps left ps h.symm
    | ready n h => exact absurd (hQueue _ h) (by simp [Command.isReady])
    | committing state h => exact absurd h (hActor state ps)
  case answered =>
    intro h
    rw [hFlight]
    exact hInv.answered h
  case behind =>
    rw [hFlight]
    exact hInv.behind
  case ahead => exact hInv.ahead

/-- The task calls `send`, and is over. -/
theorem Inv.taskSends {s s' : Sys P} {t : Task P} {prepared : Except String (List P)}
    (hInv : s.Inv) (hTask : s.tasks[0]? = some t) (hAlive : s.actor.isSome = true)
    (hActor' : s'.actor = s.actor) (hTasks' : s'.tasks = [])
    (hQueue' : s'.queue = s.queue ++ [Actor.mergeReady prepared])
    (hFinished : s'.finished = s.finished) (hStarted : s'.started = s.started)
    (hKeeps : ∀ ps, prepared = .ok ps → ps ⊆ s'.staging) : s'.Inv := by
  obtain ⟨-, hTasks, hQueue, hNotCommitting⟩ := hInv.task_alone hTask
  have hNone : s.queue.countP Command.isReady = 0 :=
    List.countP_eq_zero.mpr fun c hc => by simp [hQueue c hc]
  have hFlight : s'.inFlight = s.inFlight := by
    rw [inFlight, inFlight, hTasks', hQueue', hTasks, List.countP_append, hNone]
    rfl
  constructor
  case flag =>
    intro state phase h
    rw [hFlight]
    exact hInv.flag state phase (hActor' ▸ h)
  case alone => exact hFlight ▸ hInv.alone
  case gone =>
    intro h
    rw [← hActor', h] at hAlive
    cases hAlive
  case committing => exact fun state ps h => hInv.committing state ps (hActor' ▸ h)
  case held =>
    intro ps hHeld
    cases hHeld with
    | preparing left h => exact absurd (hTasks' ▸ h) List.not_mem_nil
    | ready n h =>
      rw [hQueue'] at h
      rcases List.mem_append.mp h with h | h
      · exact absurd (hQueue _ h) (by simp [Command.isReady])
      · exact hKeeps ps (Command.mergeReady.inj (List.mem_singleton.mp h)).1.symm
    | committing state h => exact absurd (hActor' ▸ h) (hNotCommitting state ps)
  case answered =>
    intro _
    rw [hFlight, hStarted, hFinished]
    exact hInv.answered hAlive
  case behind =>
    rw [hFlight, hStarted, hFinished]
    exact hInv.behind
  case ahead =>
    rw [hStarted, hFinished]
    exact hInv.ahead

/-- The task is over after the actor. -/
theorem Inv.taskLost {s s' : Sys P} (hInv : s.Inv) (hGone : s.actor = none)
    (hActor' : s'.actor = none) (hTasks' : s'.tasks = []) (hQueue' : s'.queue = s.queue)
    (hFinished : s'.finished = s.finished) (hStarted : s'.started = s.started) : s'.Inv := by
  have hEmpty : s'.queue = [] := hQueue'.trans (hInv.gone hGone)
  have hNothing : s'.inFlight = 0 := by
    rw [inFlight, hTasks', hEmpty]
    rfl
  have hNoActor {a : ActorState × Phase P} (h : s'.actor = some a) : False := by
    rw [hActor'] at h
    cases h
  constructor
  case flag => exact fun state phase h => (hNoActor h).elim
  case alone => omega
  case gone => exact fun _ => hEmpty
  case committing => exact fun state ps h => (hNoActor h).elim
  case held =>
    intro ps hHeld
    cases hHeld with
    | preparing left h => exact absurd (hTasks' ▸ h) List.not_mem_nil
    | ready n h => exact absurd (hEmpty ▸ h) List.not_mem_nil
    | committing state h => exact (hNoActor h).elim
  case answered =>
    intro h
    rw [hActor'] at h
    cases h
  case behind =>
    have hBehind := hInv.behind
    omega
  case ahead =>
    rw [hStarted, hFinished]
    exact hInv.ahead

section Steps

variable [DecidableEq P]

theorem Inv.task {s s' : Sys P} {i : Nat} {e : TaskEvent P} (hInv : s.Inv)
    (hStep : s.step (.task i e) = some s') : s'.Inv := by
  rw [step] at hStep
  split at hStep
  next t hTask =>
    obtain ⟨rfl, hTasks, -⟩ := hInv.task_alone hTask
    have hHas : t.Keeps s.staging := fun left ps h =>
      hInv.held ps (.preparing left (by rw [hTasks, h]; exact List.mem_singleton_self _))
    split at hStep
    next t' staging hGoes =>
      obtain rfl := Option.some.inj hStep
      exact hInv.taskOn hTask (hHas.step hGoes)
    next prepared staging hEnds =>
      obtain rfl := Option.some.inj hStep
      have hEmpty : s.tasks.eraseIdx 0 = [] := by rw [hTasks]; rfl
      cases hAlive : s.actor.isSome with
      | true =>
        exact hInv.taskSends hTask hAlive rfl hEmpty
          (by simp [queue]) rfl rfl (hHas.stop hEnds)
      | false =>
        have hGone := Option.isSome_eq_false_iff.mp hAlive
        exact hInv.taskLost (Option.isNone_iff_eq_none.mp hGone)
          (Option.isNone_iff_eq_none.mp hGone) hEmpty (by simp [queue]) rfl rfl
    next => cases hStep
  next => cases hStep

theorem Inv.step {s s' : Sys P} {e : Event P} (hInv : s.Inv) (hStep : s.step e = some s') :
    s'.Inv := by
  -- Who waits for a place waits for a receiver.
  have hAlive {c : Command P} (h : c ∈ s.queue) : s.actor ≠ none := fun hNone => by
    rw [hInv.gone hNone] at h
    cases h
  cases e with
  | request c =>
    simp only [Sys.step] at hStep
    split_ifs at hStep with hGuard
    simp only [Bool.and_eq_true, Bool.not_eq_true'] at hGuard
    obtain rfl := Option.some.inj hStep
    exact hInv.aside (.request (Option.isSome_iff_ne_none.mp hGuard.1) hGuard.2)
  | cancel i =>
    simp only [Sys.step] at hStep
    split at hStep
    next c hAt =>
      split_ifs at hStep with hClient
      obtain rfl := Option.some.inj hStep
      exact hInv.aside (.cancel (hAlive (List.mem_append_right _ (List.mem_of_getElem? hAt))) hAt
        (Bool.not_eq_true _ ▸ hClient))
    next => cases hStep
  | enter =>
    simp only [Sys.step] at hStep
    split at hStep
    next c waiting hWaiting =>
      split_ifs at hStep
      obtain rfl := Option.some.inj hStep
      exact hInv.aside (.enter (hAlive (List.mem_append_right _ (hWaiting ▸ List.mem_cons_self)))
        hWaiting)
    next => cases hStep
  | recv now live =>
    simp only [Sys.step] at hStep
    split at hStep
    next state c mailbox hActor hMailbox =>
      obtain rfl := Option.some.inj hStep
      exact hInv.handle hActor hMailbox now live
    next => cases hStep
  | reconciled ended now elapsed live =>
    simp only [Sys.step] at hStep
    split at hStep
    next state beforeGen hActor =>
      obtain rfl := Option.some.inj hStep
      exact hInv.reconciled hActor ended now elapsed live
    next => cases hStep
  | committed ended gone now =>
    simp only [Sys.step] at hStep
    split at hStep
    next state prepared hActor =>
      obtain rfl := Option.some.inj hStep
      exact hInv.committed hActor _ ended _ now
    next => cases hStep
  | task i e => exact hInv.task hStep

/-- The invariant of an actor's life. -/
theorem Inv.of_steps {staging : List P} {es : List (Event P)} {s : Sys P}
    (h : Fair.Steps Sys.step (spawn staging) es s) : s.Inv :=
  h.induction (inv_spawn staging) fun _ _ _ hInv hStep => hInv.step hStep

end Steps

end Sys

end Ripindex.Daemon.Actor
