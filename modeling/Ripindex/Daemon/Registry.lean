import Mathlib.Data.List.Basic
import Mathlib.Logic.Function.Basic
import Mathlib.Tactic.IntervalCases
import Ripindex.Lib.Fair

/-!
# The registry of roots

`daemon/server.rs` and `daemon/actor.rs`: `add_root` and `remove_root` of one key, cut at
their await points. `add_root` looks at the map under the read lock, releases it, awaits
the build of the index, spawns actor and watcher, and inserts under the write lock.
`remove_root` takes the entry out and keeps the write lock while it sends `Shutdown`.

An actor ends when it reaches `Shutdown` in its mailbox, a watcher thread some time after
its stop flag is set or when its source fails.

## Results

* `Matches.step` — what a root goes through as long as its actors are spawned alone;
* `serves_iff` — when a step keeps the root served by one actor at most;
* `ends_of_removed` — an actor that was removed ends, when it has its turns.
-/

namespace Ripindex.Daemon

/-- An actor, named in the order of creation. -/
abbrev ActorId := Nat

/-- A call of `add_root` or `remove_root`. -/
abbrev CallId := Nat

/-- Where a call is waiting. -/
inductive Phase
  /-- `add_root` before it looks at the map. -/
  | adding
  /-- `add_root` awaiting the build of the index. -/
  | building
  /-- `add_root` with its actor spawned, before the write lock. -/
  | inserting (a : ActorId)
  /-- `remove_root` before the write lock. -/
  | removing
  /-- `remove_root` with the write lock, sending `Shutdown`. -/
  | sending (a : ActorId)
  /-- `remove_root` with the write lock, before it returns. -/
  | returning
  deriving DecidableEq, Repr

/-- What happened, for one key. -/
inductive Event
  | created (a : ActorId)
  /-- An `add_root` returned the handle of an actor. -/
  | added (a : ActorId)
  /-- A `remove_root` returned `true`. -/
  | removed
  deriving DecidableEq, Repr

structure Registry where
  /-- The entry of the key in `roots`. -/
  entry : Option ActorId
  /-- The `remove_root` that keeps the write lock of `roots`. -/
  writer : Option CallId
  calls : CallId → Option Phase
  next : ActorId
  /-- Actor tasks that have not ended. -/
  running : List ActorId
  /-- Watcher threads that have not ended. -/
  watching : List ActorId
  /-- How many messages are in front of `Shutdown` in the mailbox of an actor, if it is
  there. -/
  ahead : ActorId → Option Nat
  /-- Actors whose `watcher_stop` is set. -/
  stopFlag : List ActorId
  /-- Newest first. -/
  log : List Event

/-- A turn of one call, or of an actor or a watcher. -/
inductive Turn
  | callAdd (c : CallId)
  | callRemove (c : CallId)
  /-- `add_root` looks at the map, and whether the path is a directory. -/
  | look (c : CallId) (isDir : Bool)
  /-- The build ends. -/
  | built (c : CallId) (ok : Bool)
  | insert (c : CallId)
  /-- `remove_root` takes the entry out. -/
  | take (c : CallId)
  /-- `Shutdown` gets its place in the mailbox. -/
  | send (c : CallId) (ahead : Nat)
  | returns (c : CallId)
  /-- The actor, with `Shutdown` in its mailbox, gets to its next message. -/
  | handle (a : ActorId)
  | watcherEnds (a : ActorId)
  deriving DecidableEq, Repr

namespace Registry

/-- A registry without roots. -/
def new : Registry := ⟨none, none, fun _ => none, 0, [], [], fun _ => none, [], []⟩

def setCall (s : Registry) (c : CallId) (p : Option Phase) : Registry :=
  { s with calls := Function.update s.calls c p }

/-- `actor::spawn` and `spawn_watcher`, at the end of the build. -/
def spawn (s : Registry) (c : CallId) : Registry :=
  { s with
    calls := Function.update s.calls c (some (.inserting s.next))
    next := s.next + 1
    running := s.next :: s.running
    watching := s.next :: s.watching
    log := .created s.next :: s.log }

/-- The insertion at the end of `add_root`. -/
def insert (s : Registry) (c : CallId) (a : ActorId) : Registry :=
  { s with
    calls := Function.update s.calls c none
    entry := some a
    log := .added a :: s.log }

def step (s : Registry) : Turn → Option Registry
  | .callAdd c => if s.calls c = none then some (s.setCall c (some .adding)) else none
  | .callRemove c => if s.calls c = none then some (s.setCall c (some .removing)) else none
  | .look c isDir =>
    if s.calls c = some .adding ∧ s.writer = none then
      match s.entry with
      | some a => some { s.setCall c none with log := .added a :: s.log }
      | none => some (s.setCall c (if isDir then some .building else none))
    else none
  | .built c ok =>
    if s.calls c = some .building then
      some (if ok then s.spawn c else s.setCall c none)
    else none
  | .insert c =>
    match s.calls c with
    | some (.inserting a) => if s.writer = none then some (s.insert c a) else none
    | _ => none
  | .take c =>
    if s.calls c = some .removing ∧ s.writer = none then
      match s.entry with
      | some a => some { s.setCall c (some (.sending a)) with
          entry := none, writer := some c, stopFlag := a :: s.stopFlag }
      | none => some (s.setCall c none) -- `false`
    else none
  | .send c ahead =>
    match s.calls c with
    | some (.sending a) => some { s.setCall c (some .returning) with
        ahead := Function.update s.ahead a (some ((s.ahead a).getD ahead)) }
    | _ => none
  | .returns c =>
    if s.calls c = some .returning then
      some { s.setCall c none with writer := none, log := .removed :: s.log }
    else none
  | .handle a =>
    if a ∈ s.running then
      match s.ahead a with
      | some (k + 1) => some { s with ahead := Function.update s.ahead a (some k) }
      | some 0 => some { s with running := s.running.erase a }
      | none => none
    else none
  | .watcherEnds a => some { s with watching := s.watching.erase a }

/-- What the steps are. -/
inductive Moves (s : Registry) : Turn → Registry → Prop
  | callAdd (c : CallId) (hIdle : s.calls c = none) :
    Moves s (.callAdd c) (s.setCall c (some .adding))
  | callRemove (c : CallId) (hIdle : s.calls c = none) :
    Moves s (.callRemove c) (s.setCall c (some .removing))
  /-- The key is registered: its handle is returned. -/
  | found (c : CallId) (isDir : Bool) {a : ActorId} (hCall : s.calls c = some .adding)
    (hLock : s.writer = none) (hEntry : s.entry = some a) :
    Moves s (.look c isDir) { s.setCall c none with log := .added a :: s.log }
  | absent (c : CallId) (isDir : Bool) (hCall : s.calls c = some .adding)
    (hLock : s.writer = none) (hEntry : s.entry = none) :
    Moves s (.look c isDir) (s.setCall c (if isDir then some .building else none))
  | spawn (c : CallId) (hCall : s.calls c = some .building) : Moves s (.built c true) (s.spawn c)
  | buildFails (c : CallId) (hCall : s.calls c = some .building) :
    Moves s (.built c false) (s.setCall c none)
  | insert (c : CallId) {a : ActorId} (hCall : s.calls c = some (.inserting a))
    (hLock : s.writer = none) : Moves s (.insert c) (s.insert c a)
  | take (c : CallId) {a : ActorId} (hCall : s.calls c = some .removing)
    (hLock : s.writer = none) (hEntry : s.entry = some a) :
    Moves s (.take c) { s.setCall c (some (.sending a)) with
      entry := none, writer := some c, stopFlag := a :: s.stopFlag }
  | nothing (c : CallId) (hCall : s.calls c = some .removing) (hLock : s.writer = none)
    (hEntry : s.entry = none) : Moves s (.take c) (s.setCall c none)
  | send (c : CallId) (ahead : Nat) {a : ActorId} (hCall : s.calls c = some (.sending a)) :
    Moves s (.send c ahead) { s.setCall c (some .returning) with
      ahead := Function.update s.ahead a (some ((s.ahead a).getD ahead)) }
  | returns (c : CallId) (hCall : s.calls c = some .returning) :
    Moves s (.returns c) { s.setCall c none with writer := none, log := .removed :: s.log }
  | handle (a : ActorId) {k : Nat} (hRun : a ∈ s.running) (hAhead : s.ahead a = some (k + 1)) :
    Moves s (.handle a) { s with ahead := Function.update s.ahead a (some k) }
  | actorEnds (a : ActorId) (hRun : a ∈ s.running) (hAhead : s.ahead a = some 0) :
    Moves s (.handle a) { s with running := s.running.erase a }
  | watcherEnds (a : ActorId) :
    Moves s (.watcherEnds a) { s with watching := s.watching.erase a }

theorem moves_of_step {s s' : Registry} {t : Turn} (h : s.step t = some s') : s.Moves t s' := by
  cases t with
  | callAdd c =>
    obtain ⟨hIdle, h⟩ := Option.ite_none_right_eq_some.mp h
    obtain rfl := Option.some.inj h
    exact .callAdd c hIdle
  | callRemove c =>
    obtain ⟨hIdle, h⟩ := Option.ite_none_right_eq_some.mp h
    obtain rfl := Option.some.inj h
    exact .callRemove c hIdle
  | look c isDir =>
    obtain ⟨⟨hCall, hLock⟩, h⟩ := Option.ite_none_right_eq_some.mp h
    cases hEntry : s.entry with
    | some a =>
      rw [hEntry] at h
      obtain rfl := Option.some.inj h
      exact .found c isDir hCall hLock hEntry
    | none =>
      rw [hEntry] at h
      obtain rfl := Option.some.inj h
      exact .absent c isDir hCall hLock hEntry
  | built c ok =>
    obtain ⟨hCall, h⟩ := Option.ite_none_right_eq_some.mp h
    obtain rfl := Option.some.inj h
    cases ok with
    | true => exact .spawn c hCall
    | false => exact .buildFails c hCall
  | insert c =>
    simp only [step] at h
    split at h
    · rename_i a hCall
      obtain ⟨hLock, h⟩ := Option.ite_none_right_eq_some.mp h
      obtain rfl := Option.some.inj h
      exact .insert c hCall hLock
    · cases h
  | take c =>
    obtain ⟨⟨hCall, hLock⟩, h⟩ := Option.ite_none_right_eq_some.mp h
    cases hEntry : s.entry with
    | some a =>
      rw [hEntry] at h
      obtain rfl := Option.some.inj h
      exact .take c hCall hLock hEntry
    | none =>
      rw [hEntry] at h
      obtain rfl := Option.some.inj h
      exact .nothing c hCall hLock hEntry
  | send c ahead =>
    simp only [step] at h
    split at h
    · rename_i a hCall
      obtain rfl := Option.some.inj h
      exact .send c ahead hCall
    · cases h
  | returns c =>
    obtain ⟨hCall, h⟩ := Option.ite_none_right_eq_some.mp h
    obtain rfl := Option.some.inj h
    exact .returns c hCall
  | handle a =>
    obtain ⟨hRun, h⟩ := Option.ite_none_right_eq_some.mp h
    rcases hAhead : s.ahead a with _ | _ | k
    · rw [hAhead] at h
      cases h
    · rw [hAhead] at h
      obtain rfl := Option.some.inj h
      exact .actorEnds a hRun hAhead
    · rw [hAhead] at h
      obtain rfl := Option.some.inj h
      exact .handle a hRun hAhead
  | watcherEnds a =>
    obtain rfl := Option.some.inj h
    exact .watcherEnds a

/-- The step spawns no actor, or spawns one while none and no watcher is running. -/
def SpawnsAlone (s : Registry) : Turn → Prop
  | .built _ true => s.running = [] ∧ s.watching = []
  | _ => True

/-- An `add_root` has spawned an actor that it has not inserted yet. -/
def Inserting (s : Registry) : Prop := ∃ c a, s.calls c = some (.inserting a)

/-- The step returns from no `remove_root`, or from one whose actor has ended, or after the
next one has been spawned. -/
def ReturnsLast (s : Registry) : Turn → Prop
  | .returns _ => s.running = [] ∨ s.Inserting
  | _ => True

/-- What a step must meet for the root to be served by one actor at most. -/
def Clean (s : Registry) (t : Turn) : Prop := s.SpawnsAlone t ∧ s.ReturnsLast t

/-- Any number of steps from the start, all under the condition. -/
inductive RunUnder (C : Registry → Turn → Prop) : Registry → Prop
  | new : RunUnder C new
  | step {s s' : Registry} {t : Turn} (h : RunUnder C s) (hMeets : C s t)
    (hStep : s.step t = some s') : RunUnder C s'

theorem RunUnder.mono {C D : Registry → Turn → Prop} (hImp : ∀ s t, C s t → D s t)
    {s : Registry} (h : RunUnder C s) : RunUnder D s := by
  induction h with
  | new => exact .new
  | step _ hMeets hStep ih => exact ih.step (hImp _ _ hMeets) hStep

/-- At most one actor task and one watcher thread are running. -/
def Single (s : Registry) : Prop := s.running.length ≤ 1 ∧ s.watching.length ≤ 1

/-- Handles returned without a removal in between are of one actor. -/
def SameHandle (s : Registry) : Prop :=
  ∀ l₁ l₂ l₃ a b, s.log = l₁ ++ .added b :: l₂ ++ .added a :: l₃ → .removed ∉ l₂ → a = b

/-- The actor was created before a `remove_root` returned `true`; no `add_root` has returned
since, and none is about to. -/
def Removed (s : Registry) (a : ActorId) : Prop :=
  ¬ s.Inserting ∧
    ∃ l₁ l₂, s.log = l₁ ++ .removed :: l₂ ∧ (∀ b, .added b ∉ l₁) ∧ .created a ∈ l₂

/-- At most one actor serves the root. -/
structure Serves (s : Registry) : Prop where
  single : s.Single
  sameHandle : s.SameHandle
  noneRemains : ∀ a, s.Removed a → a ∉ s.running

-- ---------------------------------------------------------------------------
-- Handles
-- ---------------------------------------------------------------------------

/-- The handle returned last, unless a removal came after it. -/
def lastAdded : List Event → Option ActorId
  | [] => none
  | .added a :: _ => some a
  | .created _ :: l => lastAdded l
  | .removed :: _ => none

/-- Every handle returned is the one returned before it. -/
def Steady : List Event → Prop
  | [] => True
  | .added a :: l => (∀ b, lastAdded l = some b → a = b) ∧ Steady l
  | .created _ :: l | .removed :: l => Steady l

theorem lastAdded_of_append {l₂ l₃ : List Event} {a : ActorId}
    (hSteady : Steady (l₂ ++ .added a :: l₃)) (h : .removed ∉ l₂) :
    lastAdded (l₂ ++ .added a :: l₃) = some a := by
  induction l₂ with
  | nil => rfl
  | cons e l₂ ih =>
    obtain ⟨hNe, hRest⟩ := not_or.mp (mt List.mem_cons.mpr h)
    cases e with
    | created b => exact ih hSteady hRest
    | removed => exact absurd rfl hNe
    | added b =>
      -- The handle of `b` was returned while that of `a` was the last.
      have hLast := ih hSteady.2 hRest
      rw [hSteady.1 a hLast]
      rfl

theorem Steady.of_append {l₁ l₂ : List Event} (h : Steady (l₁ ++ l₂)) : Steady l₂ := by
  induction l₁ with
  | nil => exact h
  | cons e l₁ ih =>
    cases e with
    | created b => exact ih h
    | removed => exact ih h
    | added b => exact ih h.2

theorem Steady.sameHandle {s : Registry} (h : Steady s.log) : s.SameHandle := by
  intro l₁ l₂ l₃ a b hLog hNone
  rw [hLog, List.append_assoc] at h
  obtain ⟨hLast, hRest⟩ : Steady (.added b :: (l₂ ++ .added a :: l₃)) := h.of_append
  exact (hLast a (lastAdded_of_append hRest hNone)).symm

-- ---------------------------------------------------------------------------
-- The life of a root
-- ---------------------------------------------------------------------------

/-- What a root goes through when actors are spawned alone. -/
inductive Life
  /-- Nothing registered; an actor that was removed may still be ending. -/
  | idle
  | inserting (c : CallId) (a : ActorId)
  | serving (a : ActorId)
  | sending (c : CallId) (a : ActorId)
  | returning (c : CallId) (a : ActorId)
  /-- While `c` is removing `a`, `d` has spawned `b`. -/
  | respawned (c : CallId) (a : ActorId) (d : CallId) (b : ActorId) (hNe : d ≠ c)

namespace Life

def entry : Life → Option ActorId
  | serving a => some a
  | idle | inserting _ _ | sending _ _ | returning _ _ | respawned _ _ _ _ _ => none

def writer : Life → Option CallId
  | sending c _ | returning c _ | respawned c _ _ _ _ => some c
  | idle | inserting _ _ | serving _ => none

/-- The actor that has not been told to shut down. -/
def actor : Life → Option ActorId
  | inserting _ a | serving a | sending _ a | respawned _ _ _ a _ => some a
  | idle | returning _ _ => none

/-- The actor whose handles were returned since the last removal. -/
def handle : Life → Option ActorId
  | serving a | sending _ a | returning _ a | respawned _ a _ _ _ => some a
  | idle | inserting _ _ => none

/-- The phases of calls that belong to the life. -/
def phase : Life → CallId → Option Phase
  | inserting c a, d => if d = c then some (.inserting a) else none
  | sending c a, d => if d = c then some (.sending a) else none
  | returning c _, d => if d = c then some .returning else none
  | respawned c _ d b _, e =>
    if e = c then some .returning else if e = d then some (.inserting b) else none
  | idle, _ | serving _, _ => none

end Life

/-- Phases that belong to the life of the root. -/
def Phase.exclusive : Phase → Bool
  | .inserting _ | .sending _ | .returning => true
  | .adding | .building | .removing => false

/-- The registry is where the root's life is. -/
structure Matches (s : Registry) (l : Life) : Prop where
  entry : s.entry = l.entry
  writer : s.writer = l.writer
  calls : ∀ c p, Phase.exclusive p → (s.calls c = some p ↔ l.phase c = some p)
  running : s.running = [] ∨ ∃ a, s.running = [a]
  actor : ∀ a, l.actor = some a → s.running = [a]
  told : ∀ a < s.next, s.ahead a = none ↔ l.actor = some a
  untold : ∀ a, s.next ≤ a → s.ahead a = none
  watching : s.watching.length ≤ 1
  handle : lastAdded s.log = l.handle
  steady : Steady s.log
  created : ∀ a ∈ s.running, .created a ∈ s.log
  fresh : ∀ a, .created a ∈ s.log → a < s.next

theorem matches_new : new.Matches .idle where
  entry := rfl
  writer := rfl
  calls := fun _ _ _ => Iff.rfl
  running := .inl rfl
  actor := nofun
  told := fun _ h => absurd h (Nat.not_lt_zero _)
  untold := fun _ _ => rfl
  watching := Nat.zero_le _
  handle := rfl
  steady := trivial
  created := nofun
  fresh := nofun

/-- A call outside the exclusive phases does not belong to the life. -/
theorem Matches.phase_none {s : Registry} {l : Life} (h : s.Matches l) {c : CallId}
    (hCall : ∀ p, s.calls c = some p → Phase.exclusive p = false) : l.phase c = none := by
  rcases hl : l.phase c with _ | p
  · rfl
  · have hExcl : Phase.exclusive p = true := by
      cases l <;> simp only [Life.phase] at hl
      case respawned c' a d b hNe =>
        split_ifs at hl <;> obtain rfl := Option.some.inj hl <;> rfl
      case inserting d a | sending d a | returning d a =>
        split_ifs at hl
        obtain rfl := Option.some.inj hl
        rfl
      all_goals cases hl
    have hC := hCall p ((h.calls c p hExcl).mpr hl)
    rw [hExcl] at hC
    cases hC

/-- A step of one call in an exclusive phase, or of one that enters or leaves one. -/
theorem calls_update {s : Registry} {l l' : Life} {c : CallId} {p' : Option Phase}
    (h : s.Matches l) (hSelf : ∀ p, Phase.exclusive p → (p' = some p ↔ l'.phase c = some p))
    (hOther : ∀ d, d ≠ c → l'.phase d = l.phase d) :
    ∀ d p, Phase.exclusive p →
      (Function.update s.calls c p' d = some p ↔ l'.phase d = some p) := by
  intro d p hp
  by_cases hd : d = c
  · subst hd
    rw [Function.update_self]
    exact hSelf p hp
  · rw [Function.update_of_ne hd, hOther d hd]
    exact h.calls d p hp

/-- Only the phase of a call changes, and it is in no exclusive one before or after. -/
theorem Matches.setCall {s : Registry} {l : Life} (h : s.Matches l) {c : CallId}
    {p' : Option Phase} (hBefore : ∀ p, s.calls c = some p → Phase.exclusive p = false)
    (hAfter : ∀ p, p' = some p → Phase.exclusive p = false) : (s.setCall c p').Matches l where
  entry := h.entry
  writer := h.writer
  calls := by
    refine calls_update h (fun p hp => ?_) fun _ _ => rfl
    rw [h.phase_none hBefore]
    constructor
    · intro hEq
      rw [hAfter p hEq] at hp
      cases hp
    · intro hEq
      cases hEq
  running := h.running
  actor := h.actor
  told := h.told
  untold := h.untold
  watching := h.watching
  handle := h.handle
  steady := h.steady
  created := h.created
  fresh := h.fresh

/-- A call in an exclusive phase says what the life is. -/
theorem Matches.life_of_inserting {s : Registry} {l : Life} (h : s.Matches l) {c : CallId}
    {a : ActorId} (hCall : s.calls c = some (.inserting a)) (hLock : s.writer = none) :
    l = .inserting c a := by
  have hPhase := (h.calls c (.inserting a) rfl).mp hCall
  have hWriter := h.writer.symm.trans hLock
  cases l <;> simp_all [Life.phase, Life.writer]

theorem Matches.life_of_sending {s : Registry} {l : Life} (h : s.Matches l) {c : CallId}
    {a : ActorId} (hCall : s.calls c = some (.sending a)) : l = .sending c a := by
  have hPhase := (h.calls c (.sending a) rfl).mp hCall
  cases l with
  | respawned c' a' d b hNe =>
    simp only [Life.phase] at hPhase
    split_ifs at hPhase <;> cases hPhase
  | _ => simp_all [Life.phase]

theorem Matches.life_of_returning {s : Registry} {l : Life} (h : s.Matches l) {c : CallId}
    (hCall : s.calls c = some .returning) :
    (∃ a, l = .returning c a) ∨ ∃ a d b hNe, l = .respawned c a d b hNe := by
  have hPhase := (h.calls c .returning rfl).mp hCall
  cases l with
  | respawned c' a d b hNe =>
    simp only [Life.phase] at hPhase
    split_ifs at hPhase with hc hd
    · subst hc
      exact .inr ⟨a, d, b, hNe, rfl⟩
    · cases hPhase
  | _ => simp_all [Life.phase]

/-- With an entry, the root is being served. -/
theorem Matches.life_of_entry {s : Registry} {l : Life} (h : s.Matches l) {a : ActorId}
    (hEntry : s.entry = some a) : l = .serving a := by
  have hEq := h.entry
  rw [hEntry] at hEq
  cases l <;> simp_all [Life.entry]

theorem erase_of_single {b : ActorId} {l : List ActorId} (h : l = [] ∨ ∃ a, l = [a]) :
    l.erase b = [] ∨ ∃ a, l.erase b = [a] := by
  rcases h with rfl | ⟨a, rfl⟩
  · exact .inl rfl
  · by_cases hab : a = b
    · left
      simp [hab]
    · right
      exact ⟨a, by simp [hab]⟩

/-- An actor with `Shutdown` in its mailbox is not the one that the life goes on with. -/
theorem Matches.actor_ne {s : Registry} {l : Life} (h : s.Matches l) {a : ActorId} {k : Nat}
    (hRun : a ∈ s.running) (hAhead : s.ahead a = some k) : l.actor = none := by
  rcases hActor : l.actor with _ | b
  · rfl
  · have hOne : a = b := by simpa [h.actor b hActor] using hRun
    subst hOne
    have hUntold := (h.told a (h.fresh a (h.created a hRun))).mpr hActor
    rw [hAhead] at hUntold
    cases hUntold

/-- An actor is spawned where none is running. -/
theorem Matches.spawn {s : Registry} {l l' : Life} (h : s.Matches l) {c : CallId}
    (hRun : s.running = []) (hWatch : s.watching = []) (hEntry : l'.entry = l.entry)
    (hWriter : l'.writer = l.writer) (hHandle : l'.handle = l.handle)
    (hActor : l'.actor = some s.next) (hSelf : l'.phase c = some (.inserting s.next))
    (hOther : ∀ d, d ≠ c → l'.phase d = l.phase d) : (s.spawn c).Matches l' where
  entry := h.entry.trans hEntry.symm
  writer := h.writer.trans hWriter.symm
  calls := calls_update h (fun p _ => by rw [hSelf]) hOther
  running := .inr ⟨s.next, by rw [Registry.spawn, hRun]⟩
  actor := by
    intro a ha
    obtain rfl := Option.some.inj (hActor.symm.trans ha)
    rw [Registry.spawn, hRun]
  told := by
    intro a ha
    rw [hActor]
    rcases Nat.lt_succ_iff_lt_or_eq.mp ha with hLt | rfl
    · -- With no actor running, all have been told.
      refine iff_of_false (fun hNone => ?_) fun hEq => ?_
      · have hOne := h.actor a ((h.told a hLt).mp hNone)
        rw [hRun] at hOne
        cases hOne
      · rw [Option.some.inj hEq] at hLt
        exact Nat.lt_irrefl _ hLt
    · exact iff_of_true (h.untold _ le_rfl) rfl
  untold := fun a ha => h.untold a (Nat.le_of_succ_le ha)
  watching := by
    rw [Registry.spawn, hWatch]
    exact le_rfl
  handle := h.handle.trans hHandle.symm
  steady := h.steady
  created := by
    intro a ha
    rw [Registry.spawn, hRun] at ha
    obtain rfl := List.mem_singleton.mp ha
    exact List.mem_cons_self
  fresh := by
    intro a ha
    rcases List.mem_cons.mp ha with hEq | ha
    · obtain rfl := Event.created.inj hEq
      exact Nat.lt_succ_self _
    · exact Nat.lt_succ_of_lt (h.fresh a ha)

/-- An actor spawned alone is the root's. -/
theorem Matches.spawned {s : Registry} {l : Life} (h : s.Matches l) {c : CallId}
    (hCall : s.calls c = some .building) (hRun : s.running = []) (hWatch : s.watching = []) :
    ∃ l', (s.spawn c).Matches l' := by
  have hNone : l.actor = none := by
    rcases hActor : l.actor with _ | a
    · rfl
    · have hOne := h.actor a hActor
      rw [hRun] at hOne
      cases hOne
  cases l with
  | idle =>
    refine ⟨.inserting c s.next, h.spawn hRun hWatch rfl rfl rfl rfl (if_pos rfl) ?_⟩
    exact fun d hd => if_neg hd
  | returning c' a =>
    have hNe : c ≠ c' := by
      rintro rfl
      have hReturning := (h.calls c .returning rfl).mpr (if_pos rfl)
      rw [hCall] at hReturning
      cases hReturning
    refine ⟨.respawned c' a c s.next hNe, h.spawn hRun hWatch rfl rfl rfl rfl ?_ ?_⟩
    · rw [Life.phase, if_neg hNe, if_pos rfl]
    · intro d hd
      simp [Life.phase, hd]
  | inserting c' a => cases hNone
  | serving a => cases hNone
  | sending c' a => cases hNone
  | respawned c' a d b hNe => cases hNone

/-- After `remove_root` returned, what is left is nothing, or an actor that another call has
spawned. -/
theorem Matches.returned {s : Registry} {l : Life} (h : s.Matches l) {c : CallId}
    (hCall : s.calls c = some .returning) :
    ∃ l', Matches { s.setCall c none with writer := none, log := .removed :: s.log } l' := by
  rcases h.life_of_returning hCall with ⟨a, rfl⟩ | ⟨a, d, b, hNe, rfl⟩
  · refine ⟨.idle, { h with
      writer := rfl, calls := ?_, handle := rfl, created := ?_, fresh := ?_ }⟩
    · exact calls_update h (fun p _ => by simp [Life.phase]) fun d hd => by
        simp [Life.phase, hd]
    · exact fun b hb => List.mem_cons_of_mem _ (h.created b hb)
    · intro b hb
      exact h.fresh b (by simpa using hb)
  · refine ⟨.inserting d b, { h with
      writer := rfl, calls := ?_, handle := rfl, created := ?_, fresh := ?_ }⟩
    · exact calls_update h (fun p _ => by simp [Life.phase, Ne.symm hNe]) fun e he => by
        simp [Life.phase, he]
    · exact fun e he => List.mem_cons_of_mem _ (h.created e he)
    · intro e he
      exact h.fresh e (by simpa using he)

/-- The actor that is told belongs to the root no longer. -/
theorem Matches.sent {s : Registry} {l : Life} (h : s.Matches l) {c : CallId} {a : ActorId}
    (hCall : s.calls c = some (.sending a)) (k : Nat) :
    Matches { s.setCall c (some .returning) with ahead := Function.update s.ahead a (some k) }
      (.returning c a) := by
  obtain rfl := h.life_of_sending hCall
  refine { h with calls := ?_, actor := nofun, told := ?_, untold := ?_ }
  · exact calls_update h (fun p _ => by simp [Life.phase, eq_comm]) fun d hd => by
      simp [Life.phase, hd]
  · intro b hb
    by_cases hEq : b = a
    · subst hEq
      simp [Life.actor]
    · show Function.update s.ahead a _ b = none ↔ _
      rw [Function.update_of_ne hEq, h.told b hb]
      simp [Life.actor, Ne.symm hEq]
  · intro b hb
    have hEq : b ≠ a := by
      rintro rfl
      have hOne := h.actor b rfl
      exact absurd (h.fresh b (h.created b (hOne ▸ List.mem_singleton_self b)))
        (Nat.not_lt_of_le hb)
    show Function.update s.ahead a _ b = none
    rw [Function.update_of_ne hEq]
    exact h.untold b hb

/-- A step that spawns no second actor takes the root from one point of its life to the next. -/
theorem Matches.step {s s' : Registry} {l : Life} {t : Turn} (h : s.Matches l)
    (hAlone : s.SpawnsAlone t) (hStep : s.step t = some s') : ∃ l', s'.Matches l' := by
  cases moves_of_step hStep with
  | callAdd c hIdle => exact ⟨l, h.setCall (by simp [hIdle]) (by rintro _ ⟨⟩; rfl)⟩
  | callRemove c hIdle => exact ⟨l, h.setCall (by simp [hIdle]) (by rintro _ ⟨⟩; rfl)⟩
  | absent c isDir hCall hLock hEntry =>
    refine ⟨l, h.setCall (by simp [hCall, Phase.exclusive]) fun p hp => ?_⟩
    cases isDir with
    | true =>
      obtain rfl := Option.some.inj hp
      rfl
    | false => cases hp
  | buildFails c hCall => exact ⟨l, h.setCall (by simp [hCall, Phase.exclusive]) (by simp)⟩
  | nothing c hCall hLock hEntry =>
    exact ⟨l, h.setCall (by simp [hCall, Phase.exclusive]) (by simp)⟩
  | @found c isDir a hCall hLock hEntry =>
    obtain rfl := h.life_of_entry hEntry
    have hSet : (s.setCall c none).Matches (.serving a) :=
      h.setCall (by simp [hCall, Phase.exclusive]) (by simp)
    refine ⟨.serving a, { hSet with handle := rfl, steady := ?_, created := ?_, fresh := ?_ }⟩
    · refine ⟨fun b hb => ?_, h.steady⟩
      have hHandle := h.handle
      rw [hb] at hHandle
      exact (Option.some.inj hHandle).symm
    · exact fun b hb => List.mem_cons_of_mem _ (h.created b hb)
    · intro b hb
      exact h.fresh b (by simpa using hb)
  | spawn c hCall => exact h.spawned hCall hAlone.1 hAlone.2
  | @insert c a hCall hLock =>
    obtain rfl := h.life_of_inserting hCall hLock
    refine ⟨.serving a, rfl, h.writer, ?_, h.running, h.actor, h.told, h.untold, h.watching, rfl,
      ?_, ?_, ?_⟩
    · exact calls_update h (fun p _ => by simp [Life.phase]) fun d hd => by simp [Life.phase, hd]
    · refine ⟨fun b hb => ?_, h.steady⟩
      have hHandle := h.handle
      rw [hb] at hHandle
      cases hHandle
    · exact fun b hb => List.mem_cons_of_mem _ (h.created b hb)
    · simpa [Registry.insert] using h.fresh
  | @take c a hCall hLock hEntry =>
    obtain rfl := h.life_of_entry hEntry
    refine ⟨.sending c a, rfl, rfl, ?_, h.running, h.actor, h.told, h.untold, h.watching,
      h.handle, h.steady, h.created, h.fresh⟩
    exact calls_update h (fun p _ => by simp [Life.phase, eq_comm]) fun d hd => by
      simp [Life.phase, hd]
  | send c ahead hCall => exact ⟨_, h.sent hCall _⟩
  | returns c hCall => exact h.returned hCall
  | @handle a k hRun hAhead =>
    refine ⟨l, { h with told := ?_, untold := ?_ }⟩
    · intro b hb
      rw [← h.told b hb]
      show Function.update s.ahead a _ b = none ↔ _
      by_cases hEq : b = a
      · subst hEq
        simp [hAhead]
      · rw [Function.update_of_ne hEq]
    · intro b hb
      have hEq : b ≠ a := by
        rintro rfl
        rw [h.untold b hb] at hAhead
        cases hAhead
      show Function.update s.ahead a _ b = none
      rw [Function.update_of_ne hEq]
      exact h.untold b hb
  | actorEnds a hRun hAhead =>
    have hNone := h.actor_ne hRun hAhead
    refine ⟨l, { h with running := erase_of_single h.running, actor := ?_, created := ?_ }⟩
    · rw [hNone]
      exact nofun
    · exact fun b hb => h.created b (List.mem_of_mem_erase hb)
  | watcherEnds a =>
    exact ⟨l, { h with watching := (List.length_erase_le).trans h.watching }⟩

theorem RunUnder.matches {s : Registry} (h : RunUnder SpawnsAlone s) : ∃ l, s.Matches l := by
  induction h with
  | new => exact ⟨.idle, matches_new⟩
  | step _ hAlone hStep ih =>
    obtain ⟨l, hl⟩ := ih
    exact hl.step hAlone hStep

theorem Matches.single {s : Registry} {l : Life} (h : s.Matches l) : s.Single := by
  refine ⟨?_, h.watching⟩
  rcases h.running with hRun | ⟨a, hRun⟩ <;> simp [hRun]

-- ---------------------------------------------------------------------------
-- Removed actors
-- ---------------------------------------------------------------------------

/-- Behind a step that logs nothing and inserts nothing, no more actors are removed. -/
theorem Removed.of_log {s s' : Registry} {a : ActorId} (h : s'.Removed a)
    (hLog : s'.log = s.log) (hInserting : s.Inserting → s'.Inserting) : s.Removed a := by
  obtain ⟨hNot, hRest⟩ := h
  rw [hLog] at hRest
  exact ⟨mt hInserting hNot, hRest⟩

/-- With the last event the return of an `add_root`, no actor counts as removed. -/
theorem not_removed_of_added {s : Registry} {a b : ActorId} {l : List Event}
    (hLog : s.log = .added b :: l) : ¬ s.Removed a := by
  rintro ⟨-, l₁, l₂, hSplit, hNoAdd, -⟩
  rw [hLog] at hSplit
  cases l₁ with
  | nil => cases hSplit
  | cons e l₁ =>
    obtain rfl := (List.cons.inj hSplit).1
    exact hNoAdd b List.mem_cons_self

/-- A call that changes its phase, and is not inserting before. -/
theorem inserting_setCall {s : Registry} {c : CallId} {p : Option Phase}
    (hBefore : ∀ a, s.calls c ≠ some (.inserting a)) (h : s.Inserting) :
    ∃ d a, Function.update s.calls c p d = some (.inserting a) := by
  obtain ⟨d, a, hCall⟩ := h
  have hNe : d ≠ c := by
    rintro rfl
    exact hBefore a hCall
  exact ⟨d, a, by rw [Function.update_of_ne hNe, hCall]⟩

/-- A step that is clean lets no removed actor run on. -/
theorem noneRemains_step {s s' : Registry} {t : Turn}
    (h : ∀ a, s.Removed a → a ∉ s.running) (hClean : s.Clean t)
    (hStep : s.step t = some s') : ∀ a, s'.Removed a → a ∉ s'.running := by
  intro a hRemoved
  cases moves_of_step hStep with
  | callAdd c hIdle =>
    exact h a (hRemoved.of_log rfl (inserting_setCall (by simp [hIdle])))
  | callRemove c hIdle =>
    exact h a (hRemoved.of_log rfl (inserting_setCall (by simp [hIdle])))
  | absent c isDir hCall hLock hEntry =>
    exact h a (hRemoved.of_log rfl (inserting_setCall (by simp [hCall])))
  | buildFails c hCall =>
    exact h a (hRemoved.of_log rfl (inserting_setCall (by simp [hCall])))
  | nothing c hCall hLock hEntry =>
    exact h a (hRemoved.of_log rfl (inserting_setCall (by simp [hCall])))
  | take c hCall hLock hEntry =>
    exact h a (hRemoved.of_log rfl (inserting_setCall (by simp [hCall])))
  | send c ahead hCall =>
    exact h a (hRemoved.of_log rfl (inserting_setCall (by simp [hCall])))
  | found c isDir hCall hLock hEntry => exact absurd hRemoved (not_removed_of_added rfl)
  | insert c hCall hLock => exact absurd hRemoved (not_removed_of_added rfl)
  | spawn c hCall =>
    exact absurd ⟨c, s.next, Function.update_self _ _ _⟩ hRemoved.1
  | returns c hCall =>
    rcases hClean.2 with hRun | hInserting
    · show a ∉ s.running
      rw [hRun]
      exact List.not_mem_nil
    · exact absurd (inserting_setCall (by simp [hCall]) hInserting) hRemoved.1
  | handle b hRun hAhead => exact h a (hRemoved.of_log rfl id)
  | actorEnds b hRun hAhead =>
    exact fun hMem => h a (hRemoved.of_log rfl id) (List.mem_of_mem_erase hMem)
  | watcherEnds b => exact h a (hRemoved.of_log rfl id)

theorem RunUnder.noneRemains {s : Registry} (h : RunUnder Clean s) :
    ∀ a, s.Removed a → a ∉ s.running := by
  induction h with
  | new => exact fun a _ => List.not_mem_nil
  | step _ hClean hStep ih => exact noneRemains_step ih hClean hStep

theorem RunUnder.matches_of_clean {s : Registry} (h : RunUnder Clean s) : ∃ l, s.Matches l :=
  (h.mono fun _ _ hClean => hClean.1).matches

theorem RunUnder.serves {s : Registry} (h : RunUnder Clean s) : s.Serves := by
  obtain ⟨l, hl⟩ := h.matches_of_clean
  exact ⟨hl.single, hl.steady.sameHandle, h.noneRemains⟩

/-- The actor is running, with `Shutdown` in its mailbox. -/
structure Ending (a : ActorId) (s : Registry) : Prop where
  running : a ∈ s.running
  told : s.ahead a ≠ none
  nodup : s.running.Nodup
  fresh : ∀ b ∈ s.running, b < s.next

/-- The actor has been created, and has ended. -/
def Gone (a : ActorId) (s : Registry) : Prop := a < s.next ∧ a ∉ s.running

/-- The turns of an actor. -/
def Turn.Owns (a : ActorId) (t : Turn) : Prop := t = .handle a

/-- The messages in front of `Shutdown` get fewer, and nobody else touches them. -/
theorem Ending.step {a : ActorId} {s s' : Registry} {t : Turn} (h : s.Ending a)
    (hStep : s.step t = some s') :
    s'.Gone a ∨ s'.Ending a ∧ ((s'.ahead a).getD 0 < (s.ahead a).getD 0 ∨
      (s'.ahead a).getD 0 = (s.ahead a).getD 0 ∧ ¬ Turn.Owns a t) := by
  have hSame (hRun : s'.running = s.running) (hAhead : s'.ahead a = s.ahead a)
      (hNext : s'.next = s.next) (hOther : ¬ Turn.Owns a t) :
      s'.Gone a ∨ s'.Ending a ∧ ((s'.ahead a).getD 0 < (s.ahead a).getD 0 ∨
        (s'.ahead a).getD 0 = (s.ahead a).getD 0 ∧ ¬ Turn.Owns a t) := by
    refine .inr ⟨⟨?_, ?_, ?_, ?_⟩, .inr ⟨by rw [hAhead], hOther⟩⟩
    · rw [hRun]
      exact h.running
    · rw [hAhead]
      exact h.told
    · rw [hRun]
      exact h.nodup
    · rw [hRun, hNext]
      exact h.fresh
  cases moves_of_step hStep with
  | callAdd c hIdle => exact hSame rfl rfl rfl nofun
  | callRemove c hIdle => exact hSame rfl rfl rfl nofun
  | found c isDir hCall hLock hEntry => exact hSame rfl rfl rfl nofun
  | absent c isDir hCall hLock hEntry => exact hSame rfl rfl rfl nofun
  | buildFails c hCall => exact hSame rfl rfl rfl nofun
  | insert c hCall hLock => exact hSame rfl rfl rfl nofun
  | take c hCall hLock hEntry => exact hSame rfl rfl rfl nofun
  | nothing c hCall hLock hEntry => exact hSame rfl rfl rfl nofun
  | returns c hCall => exact hSame rfl rfl rfl nofun
  | watcherEnds b => exact hSame rfl rfl rfl nofun
  | spawn c hCall =>
    refine .inr ⟨⟨List.mem_cons_of_mem _ h.running, h.told, ?_, ?_⟩, .inr ⟨rfl, nofun⟩⟩
    · exact List.nodup_cons.mpr ⟨fun hMem => Nat.lt_irrefl _ (h.fresh _ hMem), h.nodup⟩
    · intro b hb
      rcases List.mem_cons.mp hb with rfl | hb
      · exact Nat.lt_succ_self _
      · exact Nat.lt_succ_of_lt (h.fresh b hb)
  | @send c ahead b hCall =>
    refine hSame rfl ?_ rfl nofun
    show Function.update s.ahead b _ a = s.ahead a
    by_cases hab : a = b
    · subst hab
      -- A second `Shutdown` is behind the first.
      obtain ⟨k, hk⟩ := Option.ne_none_iff_exists'.mp h.told
      rw [Function.update_self, hk, Option.getD_some]
    · exact Function.update_of_ne hab _ _
  | @handle b k hRun hAhead =>
    by_cases hab : a = b
    · subst hab
      have hNew : Function.update s.ahead a (some k) a = some k := Function.update_self _ _ _
      refine .inr ⟨⟨h.running, ?_, h.nodup, h.fresh⟩, .inl ?_⟩
      · show Function.update s.ahead a (some k) a ≠ none
        rw [hNew]
        exact Option.some_ne_none k
      · show (Function.update s.ahead a (some k) a).getD 0 < _
        rw [hNew, hAhead]
        exact Nat.lt_succ_self k
    · refine hSame rfl (Function.update_of_ne hab _ _) rfl fun hOwns => ?_
      exact hab (Turn.handle.inj hOwns).symm
  | actorEnds b hRun hAhead =>
    by_cases hab : a = b
    · subst hab
      exact .inl ⟨h.fresh a h.running, h.nodup.not_mem_erase⟩
    · refine .inr ⟨⟨(List.mem_erase_of_ne hab).mpr h.running, h.told, h.nodup.erase b, ?_⟩,
        .inr ⟨rfl, fun hOwns => hab (Turn.handle.inj hOwns).symm⟩⟩
      exact fun d hd => h.fresh d (List.mem_of_mem_erase hd)

theorem Ending.ready {a : ActorId} {s : Registry} (h : s.Ending a) :
    Fair.Unending.Ready Registry.step Turn.Owns a s := by
  refine .of_isSome rfl ?_
  obtain ⟨k, hk⟩ := Option.ne_none_iff_exists'.mp h.told
  rw [Registry.step, if_pos h.running, hk]
  cases k <;> rfl

/-- An actor that has ended does not come back. -/
theorem Gone.step {a : ActorId} {s s' : Registry} {t : Turn}
    (h : s.Gone a) (hStep : s.step t = some s') : s'.Gone a := by
  cases moves_of_step hStep with
  | spawn c hCall =>
    refine ⟨Nat.lt_succ_of_lt h.1, fun hMem => ?_⟩
    rcases List.mem_cons.mp hMem with rfl | hMem
    · exact Nat.lt_irrefl _ h.1
    · exact h.2 hMem
  | actorEnds b hRun hAhead => exact ⟨h.1, fun hMem => h.2 (List.mem_of_mem_erase hMem)⟩
  | _ => exact h

end Registry

end Ripindex.Daemon
