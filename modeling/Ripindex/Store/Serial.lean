import Ripindex.Lib.Completion
import Ripindex.Store.Interleave
import Ripindex.Store.Rows

/-!
# Commits of many processes

Whatever the processes on one index directory do in whatever order, fail at and stop after, the
indexes they commit are those of a serial execution: each was made, by an operation of some task,
of the index committed before it, over which the task had taken the lock. None is lost, and none
is made of an index that was no longer current.

## Results

* `processes_fit_of`   — the contracts, when the lock is taken under more conditions;
* `Task.wp_serial`     — what a task adds to the history;
* `commits_are_serial` — every run of the processes.
-/

namespace Ripindex

variable [Platform]

-- ---------------------------------------------------------------------------
-- Serial histories
-- ---------------------------------------------------------------------------

/-- The index after these commits, the newest first. -/
def lastOf (prev : Option Index) (log : List (Operation × Index)) : Option Index :=
  (log.map Prod.snd ++ prev.toList).head?

/-- Operations of tasks one after another, from `prev` on: each makes its index of the one
before, over which its task was admitted. -/
inductive Serial (admits : Task → Option Index → Prop) (prev : Option Index) :
    List (Operation × Index) → Prop
  | start : Serial admits prev []
  | commit {log : List (Operation × Index)} {pid : Pid} {t : Task} {op : Operation} {B : Index}
      (hRest : Serial admits prev log) (hDoes : t.Does pid op)
      (hAdmits : admits t (lastOf prev log)) (hMakes : op.Makes (lastOf prev log) B)
      (hLeaves : op.Leaves (lastOf prev log) B) : Serial admits prev ((op, B) :: log)

/-- The history is that of a serial execution. -/
def SerialHistory (admits : Task → Option Index → Prop) (prev : Option Index)
    (h : List Index) : Prop :=
  ∃ log, Serial admits prev log ∧ h = log.map Prod.snd ++ prev.toList

section Serial

variable {admits : Task → Option Index → Prop} {prev : Option Index} {pid : Pid}

theorem SerialHistory.start : SerialHistory admits prev prev.toList := ⟨[], .start, rfl⟩

/-- An earlier part of a serial history is that of an earlier part of the execution. -/
theorem Serial.suffix {log : List (Operation × Index)} {h : List Index}
    (hLog : Serial admits prev log) (hSuffix : h <:+ log.map Prod.snd ++ prev.toList)
    (hStart : prev.toList <:+ h) :
    ∃ more rest, log = more ++ rest ∧ Serial admits prev rest ∧
      h = rest.map Prod.snd ++ prev.toList := by
  induction hLog with
  | start =>
    rw [List.map_nil, List.nil_append] at hSuffix
    exact ⟨[], [], rfl, .start, hSuffix.eq_of_length_le hStart.length_le⟩
  | @commit log pid t op B hRest hDoes hAdmits hMakes hLeaves ih =>
    rw [List.map_cons, List.cons_append, List.suffix_cons_iff] at hSuffix
    rcases hSuffix with rfl | hSuffix
    · exact ⟨[], _, rfl, .commit hRest hDoes hAdmits hMakes hLeaves, rfl⟩
    · obtain ⟨more, rest, rfl, hRest, hEq⟩ := ih hSuffix
      exact ⟨(op, B) :: more, rest, rfl, hRest, hEq⟩

/-- What an operation with room adds, it makes of the index it finds. -/
theorem Operation.Adds.makes {op : Operation} {h h' : List Index} (hAdds : op.Adds pid h h')
    (hPrev : ∀ I ∈ h.head?, I.Sound) :
    h' = h ∨ ∃ B, op.Makes h.head? B ∧ op.Leaves h.head? B ∧ h' = B :: h := by
  rcases hAdds with rfl | ⟨B, retire, hRoom, ⟨d, hPrep, hBacked⟩, hGives, rfl⟩
  · exact .inl rfl
  · obtain ⟨J, -, hGivesJ, hMakes⟩ := makes_of_result hPrev hGives.result hRoom
    obtain ⟨L, -, hGivesL, hLeaves⟩ := gives_leaves hPrev hGives.result hRoom
    obtain rfl := hGivesJ.unique hGives hBacked hPrep.staged
    obtain rfl := hGivesL.unique hGives hBacked hPrep.staged
    exact .inr ⟨_, hMakes, hLeaves, rfl⟩

/-- Every index of a serial execution is sound when the first is. -/
theorem Serial.sound {log : List (Operation × Index)} (h : Serial admits prev log)
    (hPrev : ∀ I ∈ prev, I.Sound) : ∀ I ∈ lastOf prev log, I.Sound := by
  cases h with
  | start =>
    intro I hI
    exact hPrev I (by simpa [lastOf] using hI)
  | commit _ _ _ _ hLeaves =>
    intro I hI
    obtain rfl := Option.some.inj hI
    exact hLeaves.sound

/-- What an operation adds to a serial history leaves it serial. -/
theorem SerialHistory.adds {t : Task} {op : Operation} {h h' : List Index}
    (hSerial : SerialHistory admits prev h) (hPrev : ∀ I ∈ prev, I.Sound)
    (hDoes : t.Does pid op) (hAdmits : admits t h.head?) (hAdds : op.Adds pid h h') :
    SerialHistory admits prev h' := by
  obtain ⟨log, hLog, rfl⟩ := hSerial
  rcases hAdds.makes (hLog.sound hPrev) with rfl | ⟨B, hMakes, hLeaves, rfl⟩
  · exact ⟨log, hLog, rfl⟩
  · exact ⟨(op, B) :: log, .commit hLog hDoes hAdmits hMakes hLeaves, rfl⟩

-- ---------------------------------------------------------------------------
-- Processes
-- ---------------------------------------------------------------------------

/-- Room for what a task commits, and one more condition on the index that it finds. -/
def Task.Admits (admits : Task → Option Index → Prop) (t : Task) (rl : List (Option Index))
    (cur : Option Index) : Prop :=
  t.HasRoom rl cur ∧ admits t cur

/-- The contracts of the processes fit together under more conditions as well. -/
theorem processes_fit_of (admits : Task → Option Index → Prop) :
    (processes (Task.Admits admits)).Fits (fun pid S S' => Sys.Rely pid S S') Sys.Allows
      (fun pid S => S.fs.lock ≠ some pid) Sys.Good := by
  have hStep : ∀ {pid : Pid} {t : Task} {o : FsOp} {S S' : Sys} {r : o.Res},
      (processes (Task.Admits admits)).step pid t o S r S' →
        (processes Task.HasRoom).step pid t o S r S' := by
    intro pid t o S S' r hStep
    obtain ⟨fault, hMay, hAdm, hExec⟩ := hStep
    exact ⟨fault, hMay, fun hO hF hFree => (hAdm hO hF hFree).1, hExec⟩
  exact
    { processes_fit with
      task := fun pid t S hS hPre => Prog.wp_contract
        (C := ⟨(processes Task.HasRoom).step pid t, fun S S' => Sys.Rely pid S S', Sys.Allows pid⟩)
        (fun _ _ _ _ => hStep) (fun _ _ => id) (fun _ _ => id)
          (processes_fit.task pid t S hS hPre)
      op := fun pid t o S r S' hS hAllow h => processes_fit.op pid t o S r S' hS hAllow (hStep h) }

/-- Processes that keep `F` of the history. -/
def Mode.serial (admits : List (Option Index) → Option Index → Prop) (F : List Index → Prop) :
    Mode where
  mayFault := fun o _ => o.fallible = true
  admits := fun pid S => admits (S.released pid) S.current
  rely := Pool.Keeping Sys.Rely fun S => F S.hist
  rely_ok := fun _ _ _ _ hR => hR.1

/-- A task leaves a serial history serial. -/
theorem Task.wp_serial (t : Task) {S : Sys} (hPrev : ∀ I ∈ prev, I.Sound) (hS : S.Good)
    (hLock : S.fs.lock ≠ some pid) (hSerial : SerialHistory admits prev S.hist) :
    t.program.wp
      ((Mode.serial (Task.Admits admits t) (SerialHistory admits prev)).contract pid)
      (fun _ S' => S'.fs.lock ≠ some pid ∧ SerialHistory admits prev S'.hist) (S.enter pid) := by
  refine Prog.wp_mono (t.wp_keeps (fun _ _ hMay => hMay) (fun _ _ hR => hR.2)
    (fun _ hAdm => hAdm.1) (fun op hDoes S₀ h' hAdm hF hAdds => ?_)
      ⟨⟨hS.enter, hLock, hSerial⟩, Function.update_self _ _ _, Function.update_self _ _ _,
        fun _ _ _ => rfl⟩) fun _ _ hAway => ⟨hAway.lock, hAway.hist⟩
  exact hF.adds hPrev hDoes hAdm.2 hAdds

/-- The history only grows. -/
theorem suffix_exec {S S' : Sys} {t : Task} {o : FsOp} {r : o.Res} (hAllow : Sys.Allows pid o S)
    (hStep : (processes (Task.Admits admits)).step pid t o S r S') : S.hist <:+ S'.hist := by
  obtain ⟨fault, -, -, hExec⟩ := hStep
  obtain rfl : (S.exec pid fault o).2 = S' := congrArg Prod.snd hExec
  exact Sys.hist_exec hAllow fault

/-- In every run of the processes the history is serial. -/
theorem serialHistory_of_run {s : FsState} (hHolds : s.dir.Holds prev)
    (hPrev : ∀ I ∈ prev, I.Sound) (hLock : s.lock = none)
    {c : (processes (Task.Admits admits)).Conf}
    (hRun : (processes (Task.Admits admits)).Run
      ((processes (Task.Admits admits)).Idle (.start s prev)) c) :
    c.state.Good ∧ SerialHistory admits prev c.state.hist := by
  have hFits := (processes_fit_of admits).also
    (G := fun S : Sys => prev.toList <:+ S.hist)
    (fun _ _ _ _ _ _ _ hAllow hStep hStart => hStart.trans (suffix_exec hAllow hStep))
    (fun _ _ h => h) (fun _ _ h => h)
  have hFree : ∀ pid, (Sys.start s prev).fs.lock ≠ some pid := fun pid => by
    change s.lock ≠ some pid
    rw [hLock]
    simp
  -- An operation can be taken, and leaves a later history.
  have hBack : ∀ pid t o (S : Sys), (S.Good ∧ prev.toList <:+ S.hist) → Sys.Allows pid o S →
      ∃ r S', (processes (Task.Admits admits)).step pid t o S r S' ∧
        (SerialHistory admits prev S'.hist → SerialHistory admits prev S.hist) := by
    intro pid t o S hS hAllow
    have hStep : ∃ fault, (processes (Task.Admits admits)).step pid t o S
        (S.exec pid fault o).1 (S.exec pid fault o).2 := by
      by_cases hO : o = .lock
      · subst hO
        exact ⟨true, true, fun _ => rfl, by simp, rfl⟩
      · exact ⟨false, false, by simp, fun h => absurd h hO, rfl⟩
    obtain ⟨fault, hStep⟩ := hStep
    refine ⟨_, _, hStep, fun hSerial => ?_⟩
    obtain ⟨log, hLog, hHist⟩ := hSerial
    obtain ⟨more, rest, -, hRest, hEq⟩ := hLog.suffix (hHist ▸ suffix_exec hAllow hStep) hS.2
    exact ⟨rest, hRest, hEq⟩
  have hRuns := Pool.Run.keeps (F := fun S : Sys => SerialHistory admits prev S.hist) hFits hBack
    (fun _ _ h => h) (fun _ _ h => h)
    (fun pid t S hS hPre hSerial => t.wp_serial hPrev hS.1 hPre hSerial)
    ⟨.start hHolds hPrev, List.suffix_refl _⟩ .start hFree hRun
  exact ⟨hRuns.1.1, hRuns.2.1⟩

/-- What is on disk is the newest index. -/
theorem Sys.Good.holds {S : Sys} (hS : S.Good) : S.dir.Holds S.hist.head? := by
  rcases hCur : S.hist.head? with _ | I
  · exact hS.absent hCur
  · exact hS.backed I hCur

/-- Later histories only add to earlier ones. -/
theorem hist_suffix_of_run {s : FsState} (hHolds : s.dir.Holds prev)
    (hPrev : ∀ I ∈ prev, I.Sound) (hLock : s.lock = none)
    {c c' : (processes (Task.Admits admits)).Conf}
    (hRun : (processes (Task.Admits admits)).Run
      ((processes (Task.Admits admits)).Idle (.start s prev)) c)
    (hLater : (processes (Task.Admits admits)).Run c c') : c.state.hist <:+ c'.state.hist := by
  have hFree : ∀ pid, (Sys.start s prev).fs.lock ≠ some pid := fun pid => by
    change s.lock ≠ some pid
    rw [hLock]
    simp
  induction hLater with
  | refl => exact List.suffix_refl _
  | @tail c₁ c₂ hMid hStep ih =>
    obtain ⟨hGood, hSound⟩ := Pool.Run.sound (processes_fit_of _) (.start hHolds hPrev) hFree
      (hRun.trans hMid)
    obtain ⟨i, -, -, hTurn⟩ := hStep.soundAt (processes_fit_of _) hGood
    -- Some other process sees the step.
    have hOther := (hTurn (hSound i)).2.1 (i + 1) (Nat.ne_of_lt (Nat.lt_succ_self i))
    exact ih.trans hOther.hist

/-- The indexes that processes commit, in whatever order they take turns, fail and stop, are those
of a serial execution, and later commits only add to it. What is on disk is always the last of
them. -/
theorem commits_are_serial {s : FsState} (hHolds : s.dir.Holds prev)
    (hPrev : ∀ I ∈ prev, I.Sound) (hLock : s.lock = none)
    {c c' : (processes (Task.Admits admits)).Conf}
    (hRun : (processes (Task.Admits admits)).Run
      ((processes (Task.Admits admits)).Idle (.start s prev)) c)
    (hLater : (processes (Task.Admits admits)).Run c c') :
    ∃ log, Serial admits prev log ∧ c.state.dir.Holds (lastOf prev log) ∧
      ∃ more, Serial admits prev (more ++ log) ∧
        c'.state.dir.Holds (lastOf prev (more ++ log)) := by
  obtain ⟨hGood, log₀, -, hHist⟩ := serialHistory_of_run hHolds hPrev hLock hRun
  obtain ⟨hGood', log', hLog', hHist'⟩ :=
    serialHistory_of_run hHolds hPrev hLock (hRun.trans hLater)
  have hSuffix := hist_suffix_of_run hHolds hPrev hLock hRun hLater
  obtain ⟨more, log, rfl, hLog, hEq⟩ := hLog'.suffix (hHist' ▸ hSuffix)
    (hHist ▸ List.suffix_append _ _)
  have hHoldsNow := hGood.holds
  have hHoldsLater := hGood'.holds
  rw [hEq] at hHoldsNow
  rw [hHist'] at hHoldsLater
  exact ⟨log, hLog, hHoldsNow, more, hLog', hHoldsLater⟩

omit [Platform] in
/-- Two processes build at the same time, and each commits over what it finds. -/
theorem commits_are_serial_overlap : ∃ _ : Platform, ∃ c c',
    (processes (Task.Admits fun _ _ => True)).Run
      ((processes (Task.Admits fun _ _ => True)).Idle (.start ⟨∅, none, 0⟩ none)) c ∧
    (processes (Task.Admits fun _ _ => True)).Run c c' ∧
    c.state.hist.length = 1 ∧ (c.procs 1).isSome ∧ c'.state.hist.length = 2 ∧
    ∃ log, Serial (fun _ _ => True) none log ∧ c.state.dir.Holds (lastOf none log) ∧
      ∃ more, Serial (fun _ _ => True) none (more ++ log) ∧
        c'.state.dir.Holds (lastOf none (more ++ log)) := by
  refine ⟨Platform.reference, ?_⟩
  let _ := Platform.reference
  let P := processes (Task.Admits fun _ _ => True)
  let turns := P.turns (fun _ => smallTask) (Sys.exec · false) fun pid S =>
    S.roomToBuild (LiveHistory.smallWorld [LiveHistory.smallFile]) LiveHistory.smallConfig
      [LiveHistory.smallFile] pid
  have hEnd : (turns firstCommits (P.Idle (.start ⟨∅, none, 0⟩ none))).any (fun c =>
      c.state.hist.length = 1 && (c.procs 1).isSome &&
        (turns secondCommits c).any fun c' => c'.state.hist.length = 2) = true := by
    decide +kernel
  obtain ⟨c, hFirst, hChecks⟩ := (Option.any_eq_true _ _).mp hEnd
  simp only [Bool.and_eq_true, decide_eq_true_eq] at hChecks
  obtain ⟨⟨hOne, hBuilds⟩, hRest⟩ := hChecks
  obtain ⟨c', hSecond, hTwo⟩ := (Option.any_eq_true _ _).mp hRest
  have hStep := fun pid (o : FsOp) S hOk => (⟨false, by simp,
    fun _ _ hFree => ⟨Sys.hasRoom_of_roomToBuild rfl hOk hFree, trivial⟩, rfl⟩ :
      P.step pid smallTask o S (S.exec pid false o).1 (S.exec pid false o).2)
  obtain ⟨hRun, hPerforms⟩ := Pool.Run.of_turns hStep (Pool.Conf.performs_idle _) hFirst
  obtain ⟨hLater, -⟩ := Pool.Run.of_turns hStep hPerforms hSecond
  exact ⟨c, c', hRun, hLater, hOne, hBuilds, of_decide_eq_true hTwo, @commits_are_serial _ _ none
    ⟨∅, none, 0⟩ (AList.lookup_empty _) (by simp) rfl _ c' hRun hLater⟩

end Serial

end Ripindex
