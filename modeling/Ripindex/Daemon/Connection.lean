import Mathlib.Data.List.Basic

/-!
# The connection count

`handle_connection` of `daemon/server.rs`, cut at the reads, the writes and the dispatch it
awaits, with what it does to `Registry::connections`; and a server with many connections.

## Results

* `Server.Counted.step` — which steps keep the count;
* `connection_count_exact` — when the count is that of the connections being handled.
-/

namespace Ripindex.Daemon

def protocolVersion : Nat := 1

/-- The methods of a request; what they carry is `dispatch`'s. -/
inductive Method
  | query
  | addRoot
  | removeRoot
  | listRoots
  | status
  | reconcile
  | merge
  | shutdown
  deriving DecidableEq, Repr

/-- What `parse_client_line` makes of a line. -/
inductive ClientLine
  | hello (protocol : Nat)
  | request (method : Method)
  | malformed
  deriving DecidableEq, Repr

/-- `read_line`: an error (a reset, or bytes that are not UTF-8), no bytes, or a line. -/
inductive ReadResult
  | error
  | eof
  | line (l : ClientLine)
  deriving DecidableEq, Repr

/-- Where `handle_connection` is waiting. -/
inductive Handler
  /-- For the first line. -/
  | handshake
  /-- Writing `HelloOk`. -/
  | greeting
  /-- Writing why the handshake is refused. -/
  | refusing
  /-- For a line. -/
  | reading
  /-- Writing an error about a line. -/
  | replying
  /-- Writing the answer to `Shutdown`. -/
  | stopping
  /-- In `dispatch`. -/
  | dispatching
  | returned
  deriving DecidableEq, Repr

/-- How what it waits for ends. -/
inductive Io
  | read (r : ReadResult)
  | wrote (ok : Bool)
  | dispatched (ok : Bool)
  deriving DecidableEq, Repr

namespace Handler

/-- `handle_connection` up to its next wait, and whether it takes itself off the count on the
way. -/
def step : Handler → Io → Option (Handler × Bool)
  | .handshake, .read r =>
    match r with
    | .error => some (.returned, false)
    | .eof => some (.returned, true)
    | .line (.hello protocol) =>
      if protocol = protocolVersion then some (.greeting, false) else some (.refusing, false)
    | .line _ => some (.refusing, false)
  | .greeting, .wrote ok => some (if ok then .reading else .returned, false)
  | .refusing, .wrote ok => some (.returned, ok)
  | .reading, .read r =>
    match r with
    | .error => some (.returned, false)
    | .eof => some (.returned, true)
    | .line (.hello _) => some (.replying, false)
    | .line (.request .shutdown) => some (.stopping, false)
    | .line (.request _) => some (.dispatching, false)
    | .line .malformed => some (.replying, false)
  | .replying, .wrote ok => some (if ok then .reading else .returned, false)
  -- The early return: with the answer written, the server is told to stop.
  | .stopping, .wrote _ => some (.returned, false)
  | .dispatching, .dispatched ok => if ok then some (.reading, false) else some (.returned, true)
  | _, _ => none

/-- A step that does not leave by `?`, nor by the early return. -/
def Clean (h : Handler) (io : Io) : Prop :=
  io ≠ .read .error ∧ io ≠ .wrote false ∧ h ≠ .stopping

instance (h : Handler) (io : Io) : Decidable (h.Clean io) :=
  inferInstanceAs (Decidable (_ ∧ _ ∧ _))

/-- What a step does: it goes on, or returns and takes itself off the count exactly if it is
clean. -/
theorem step_cases {h h' : Handler} {io : Io} {sub : Bool} (hStep : h.step io = some (h', sub)) :
    h ≠ .returned ∧ ((h' ≠ .returned ∧ sub = false ∧ h.Clean io) ∨
      (h' = .returned ∧ (sub = true ↔ h.Clean io))) := by
  cases h with
  | handshake =>
    cases io with
    | read r =>
      cases r with
      | error =>
        obtain ⟨rfl, rfl⟩ := Prod.mk.inj (Option.some.inj hStep)
        decide
      | eof =>
        obtain ⟨rfl, rfl⟩ := Prod.mk.inj (Option.some.inj hStep)
        decide
      | line l =>
        have hClean : Clean .handshake (.read (.line l)) := ⟨by simp, by simp, by simp⟩
        refine ⟨by decide, .inl ?_⟩
        cases l with
        | hello protocol =>
          rw [step] at hStep
          split_ifs at hStep
          · obtain ⟨rfl, rfl⟩ := Prod.mk.inj (Option.some.inj hStep)
            exact ⟨by decide, rfl, hClean⟩
          · obtain ⟨rfl, rfl⟩ := Prod.mk.inj (Option.some.inj hStep)
            exact ⟨by decide, rfl, hClean⟩
        | request method =>
          obtain ⟨rfl, rfl⟩ := Prod.mk.inj (Option.some.inj hStep)
          exact ⟨by decide, rfl, hClean⟩
        | malformed =>
          obtain ⟨rfl, rfl⟩ := Prod.mk.inj (Option.some.inj hStep)
          exact ⟨by decide, rfl, hClean⟩
    | wrote ok => cases hStep
    | dispatched ok => cases hStep
  | reading =>
    cases io with
    | read r =>
      cases r with
      | error =>
        obtain ⟨rfl, rfl⟩ := Prod.mk.inj (Option.some.inj hStep)
        decide
      | eof =>
        obtain ⟨rfl, rfl⟩ := Prod.mk.inj (Option.some.inj hStep)
        decide
      | line l =>
        have hClean : Clean .reading (.read (.line l)) := ⟨by simp, by simp, by simp⟩
        refine ⟨by decide, .inl ?_⟩
        cases l with
        | hello protocol =>
          obtain ⟨rfl, rfl⟩ := Prod.mk.inj (Option.some.inj hStep)
          exact ⟨by decide, rfl, hClean⟩
        | request method =>
          cases method <;> obtain ⟨rfl, rfl⟩ := Prod.mk.inj (Option.some.inj hStep) <;>
            exact ⟨by decide, rfl, hClean⟩
        | malformed =>
          obtain ⟨rfl, rfl⟩ := Prod.mk.inj (Option.some.inj hStep)
          exact ⟨by decide, rfl, hClean⟩
    | wrote ok => cases hStep
    | dispatched ok => cases hStep
  | greeting =>
    cases io with
    | wrote ok =>
      cases ok <;> obtain ⟨rfl, rfl⟩ := Prod.mk.inj (Option.some.inj hStep) <;> decide
    | read r => cases hStep
    | dispatched ok => cases hStep
  | refusing =>
    cases io with
    | wrote ok =>
      cases ok <;> obtain ⟨rfl, rfl⟩ := Prod.mk.inj (Option.some.inj hStep) <;> decide
    | read r => cases hStep
    | dispatched ok => cases hStep
  | replying =>
    cases io with
    | wrote ok =>
      cases ok <;> obtain ⟨rfl, rfl⟩ := Prod.mk.inj (Option.some.inj hStep) <;> decide
    | read r => cases hStep
    | dispatched ok => cases hStep
  | stopping =>
    cases io with
    | wrote ok =>
      cases ok <;> obtain ⟨rfl, rfl⟩ := Prod.mk.inj (Option.some.inj hStep) <;> decide
    | read r => cases hStep
    | dispatched ok => cases hStep
  | dispatching =>
    cases io with
    | dispatched ok =>
      cases ok <;> obtain ⟨rfl, rfl⟩ := Prod.mk.inj (Option.some.inj hStep) <;> decide
    | read r => cases hStep
    | wrote ok => cases hStep
  | returned => cases io <;> cases hStep

end Handler

-- ---------------------------------------------------------------------------
-- Many connections
-- ---------------------------------------------------------------------------

/-- The connections accepted so far, and the counter. -/
structure Server where
  handlers : List Handler
  connections : Nat

/-- A connection is accepted, or one of them goes on. -/
inductive ServerStep
  | accept
  | io (i : Nat) (io : Io)
  deriving DecidableEq, Repr

namespace Server

def start : Server := ⟨[], 0⟩

/-- The counter is a `u64`; that taking one off does not wrap is `Counted.pos`. -/
def step (s : Server) : ServerStep → Option Server
  | .accept => some ⟨s.handlers ++ [.handshake], s.connections + 1⟩
  | .io i io => do
    let h ← s.handlers[i]?
    let (h', sub) ← h.step io
    some ⟨s.handlers.set i h', if sub then s.connections - 1 else s.connections⟩

/-- The connections that are being handled. -/
def handled (s : Server) : Nat := s.handlers.countP fun h => h ≠ .returned

def run (s : Server) : List ServerStep → Option Server
  | [] => some s
  | t :: ts => (s.step t).bind fun s' => s'.run ts

/-- `connection_count()` is right. -/
def Exact (s : Server) : Prop := s.connections = s.handled

/-- The step is clean for its connection. -/
def CleanStep (s : Server) : ServerStep → Prop
  | .accept => True
  | .io i io => ∀ h, s.handlers[i]? = some h → h.Clean io

/-- The property holds after every step of a run. -/
def Always (P : Server → Prop) (s : Server) : List ServerStep → Prop
  | [] => P s
  | t :: ts => P s ∧ ∀ s', s.step t = some s' → Always P s' ts

/-- Every step of a run meets the condition. -/
def Meets (C : Server → ServerStep → Prop) (s : Server) : List ServerStep → Prop
  | [] => True
  | t :: ts => ∀ s', s.step t = some s' → C s t ∧ Meets C s' ts

/-- The count is off by the connections that left without taking themselves off it. -/
def Counted (s : Server) (lost : Nat) : Prop := s.connections = s.handled + lost

theorem counted_start : start.Counted 0 := rfl

/-- While one is being handled, there is one to take off. -/
theorem Counted.pos {s : Server} {lost i : Nat} {h : Handler} (hCounted : s.Counted lost)
    (hi : s.handlers[i]? = some h) (hNe : h ≠ .returned) : 0 < s.connections := by
  have hPos : 0 < s.handled :=
    List.countP_pos_iff.mpr ⟨h, List.mem_of_getElem? hi, by simpa using hNe⟩
  rw [hCounted]
  omega

/-- One connection goes on or returns. -/
theorem handled_set {s : Server} {i n : Nat} {h h' : Handler} (hi : s.handlers[i]? = some h)
    (hNe : h ≠ .returned) :
    handled ⟨s.handlers.set i h', n⟩ + 1 = s.handled + if h' ≠ .returned then 1 else 0 := by
  obtain ⟨hLt, rfl⟩ := List.getElem?_eq_some_iff.mp hi
  have hPos : 0 < s.handled :=
    List.countP_pos_iff.mpr ⟨_, List.getElem_mem hLt, by simpa using hNe⟩
  unfold handled at hPos ⊢
  rw [List.countP_set hLt, if_pos (by simpa using hNe)]
  simp only [decide_eq_true_eq]
  omega

/-- A clean step keeps the count, any other loses a connection. -/
theorem Counted.step {s s' : Server} {lost : Nat} {t : ServerStep} (hCounted : s.Counted lost)
    (hStep : s.step t = some s') :
    (s.CleanStep t ∧ s'.Counted lost) ∨ (¬ s.CleanStep t ∧ s'.Counted (lost + 1)) := by
  cases t with
  | accept =>
    obtain rfl := Option.some.inj hStep
    refine .inl ⟨trivial, ?_⟩
    unfold Counted handled at hCounted ⊢
    rw [List.countP_append, hCounted]
    show _ + 1 = _ + 1 + lost
    omega
  | io i io =>
    obtain ⟨h, hi, hStep⟩ := Option.bind_eq_some_iff.mp hStep
    obtain ⟨⟨h', sub⟩, hHandler, hStep⟩ := Option.bind_eq_some_iff.mp hStep
    obtain rfl := Option.some.inj hStep
    obtain ⟨hNe, hCases⟩ := Handler.step_cases hHandler
    have hPos := hCounted.pos hi hNe
    have hClean : s.CleanStep (.io i io) ↔ h.Clean io :=
      ⟨fun hAll => hAll h hi, fun hOne g hg => by
        obtain rfl := Option.some.inj (hi.symm.trans hg)
        exact hOne⟩
    rw [hClean]
    rcases hCases with ⟨hOn, rfl, hGood⟩ | ⟨rfl, hSub⟩
    · -- It goes on.
      have hSame := @handled_set s i s.connections h h' hi hNe
      rw [if_pos hOn] at hSame
      refine .inl ⟨hGood, ?_⟩
      unfold Counted at hCounted ⊢
      show s.connections = _
      have : s.handled = handled ⟨s.handlers.set i h', s.connections⟩ := by omega
      rw [hCounted, this]
      rfl
    · by_cases hGood : h.Clean io
      · -- It returns, and takes itself off.
        obtain rfl := hSub.mpr hGood
        have hLess := @handled_set s i (s.connections - 1) h .returned hi hNe
        refine .inl ⟨hGood, ?_⟩
        unfold Counted at hCounted ⊢
        show s.connections - 1 = handled ⟨s.handlers.set i .returned, s.connections - 1⟩ + lost
        simp only [ne_eq, not_true_eq_false, if_false] at hLess
        omega
      · -- It returns without.
        have hFalse : sub = false := Bool.eq_false_iff.mpr fun hTrue => hGood (hSub.mp hTrue)
        subst hFalse
        have hLess := @handled_set s i s.connections h .returned hi hNe
        refine .inr ⟨hGood, ?_⟩
        unfold Counted at hCounted ⊢
        show s.connections = handled ⟨s.handlers.set i .returned, s.connections⟩ + (lost + 1)
        simp only [ne_eq, not_true_eq_false, if_false] at hLess
        omega

theorem Counted.exact_iff {s : Server} {lost : Nat} (h : s.Counted lost) :
    s.Exact ↔ lost = 0 := by
  unfold Counted at h
  unfold Exact
  omega

theorem Always.head {P : Server → Prop} {s : Server} {ts : List ServerStep}
    (h : s.Always P ts) : P s := by
  cases ts with
  | nil => exact h
  | cons t ts => exact h.1

/-- Nothing brings a lost connection back. -/
theorem Counted.run {s s' : Server} {lost : Nat} {ts : List ServerStep} (h : s.Counted lost)
    (hRun : s.run ts = some s') : ∃ more, s'.Counted (lost + more) := by
  induction ts generalizing s lost with
  | nil =>
    obtain rfl := Option.some.inj hRun
    exact ⟨0, h⟩
  | cons t ts ih =>
    obtain ⟨s₁, hStep, hRest⟩ := Option.bind_eq_some_iff.mp hRun
    rcases h.step hStep with ⟨-, hNext⟩ | ⟨-, hNext⟩
    · exact ih hNext hRest
    · obtain ⟨more, hMore⟩ := ih hNext hRest
      exact ⟨1 + more, by rwa [Nat.add_assoc] at hMore⟩

theorem Counted.always_iff {s : Server} {ts : List ServerStep} (h : s.Counted 0) :
    s.Always Exact ts ↔ s.Meets CleanStep ts := by
  induction ts generalizing s with
  | nil => exact iff_of_true (h.exact_iff.mpr rfl) trivial
  | cons t ts ih =>
    constructor
    · rintro ⟨-, hRest⟩ s' hStep
      have hAlways := hRest s' hStep
      rcases h.step hStep with ⟨hClean, hNext⟩ | ⟨-, hNext⟩
      · exact ⟨hClean, (ih hNext).mp hAlways⟩
      · cases hNext.exact_iff.mp hAlways.head
    · intro hMeets
      refine ⟨h.exact_iff.mpr rfl, fun s' hStep => ?_⟩
      obtain ⟨hClean, hRest⟩ := hMeets s' hStep
      rcases h.step hStep with ⟨-, hNext⟩ | ⟨hNot, -⟩
      · exact (ih hNext).mpr hRest
      · exact absurd hClean hNot

/-- After a step that is not clean the count is never zero again. -/
theorem Counted.pos_of_not_meets {s s' : Server} {lost : Nat} {ts : List ServerStep}
    (h : s.Counted lost) (hRun : s.run ts = some s') (hNot : ¬ s.Meets CleanStep ts) :
    0 < s'.connections := by
  induction ts generalizing s lost with
  | nil => exact absurd trivial hNot
  | cons t ts ih =>
    obtain ⟨s₁, hStep, hRest⟩ := Option.bind_eq_some_iff.mp hRun
    rcases h.step hStep with ⟨hClean, hNext⟩ | ⟨-, hNext⟩
    · refine ih hNext hRest fun hMeets => hNot fun s₂ hStep₂ => ?_
      obtain rfl := Option.some.inj (hStep.symm.trans hStep₂)
      exact ⟨hClean, hMeets⟩
    · obtain ⟨more, hMore⟩ := hNext.run hRest
      unfold Counted at hMore
      omega

end Server

/-- In every run of the server, `connection_count()` is the number of connections being handled
after every step exactly if no connection returns from a failed read, from a failed write
outside `dispatch`, or behind the answer to `Shutdown`; and if one does, the count is never
zero again, so that the daemon never idles out. -/
theorem connection_count_exact (ts : List ServerStep) :
    (Server.start.Always Server.Exact ts ↔ Server.start.Meets Server.CleanStep ts) ∧
      ∀ s, Server.start.run ts = some s → ¬ Server.start.Meets Server.CleanStep ts →
        0 < s.connections :=
  ⟨Server.counted_start.always_iff, fun _ => Server.counted_start.pos_of_not_meets⟩

/-- A client connects and leaves. -/
theorem connection_count_exact_eof :
    Server.start.Always Server.Exact [.accept, .io 0 (.read .eof)] := by
  refine (connection_count_exact _).1.mpr fun s hStep => ⟨trivial, ?_⟩
  obtain rfl := Option.some.inj hStep
  refine fun s' _ => ⟨fun h hh => ?_, trivial⟩
  obtain rfl := Option.some.inj hh
  decide

/-- A client connects, and its first line is not UTF-8. -/
theorem badLine_leaks :
    Server.start.run [.accept, .io 0 (.read .error)] = some ⟨[.returned], 1⟩ ∧
      ¬ Server.start.Always Server.Exact [.accept, .io 0 (.read .error)] := by
  refine ⟨rfl, fun hAlways => ?_⟩
  have hEnd : Server.Exact ⟨[.returned], 1⟩ := (hAlways.2 _ rfl).2 _ rfl
  cases hEnd

end Ripindex.Daemon
