import Ripindex.Store.Commits

/-!
# Programs on a directory of their own

`FsE.run c p s` runs a program to its end when no operation fails and no other process
acts. A writer then leaves what its plan describes, and opening gives the index on disk.

## Results

* `run_writeAndCommit` — a writer whose plan ends in a commit leaves its files and its
  manifest, without the retired files;
* `run_openIndex_ok`, `run_openIndex_of_backed` — opening returns what is on disk.
-/

namespace Ripindex

variable {α β : Type} {c : Pid} {s : FsState}

namespace FsE

/-- Run a program to its end, without faults and without others. -/
def runAlone (c : Pid) (p : FsE α) (s : FsState) : Except Error α × FsState :=
  p.run.eval (FsOp.exec c false) s

@[simp] theorem runAlone_pure (a : α) : runAlone c (pure a : FsE α) s = (.ok a, s) := rfl

@[simp] theorem runAlone_throw (e : Error) :
    runAlone c (throw e : FsE α) s = (.error e, s) := rfl

@[simp] theorem runAlone_ofExcept (r : Except Error α) :
    runAlone c (FsE.ofExcept r) s = (r, s) := rfl

/-- A sequence goes on where its first part succeeds. -/
theorem runAlone_bind (p : FsE α) (f : α → FsE β) :
    runAlone c (p >>= f) s =
      match runAlone c p s with
      | (.ok a, s') => runAlone c (f a) s'
      | (.error e, s') => (.error e, s') := by
  unfold runAlone
  rw [ExceptT.run_bind, Prog.eval_bind]
  rcases Prog.eval _ (ExceptT.run p) s with ⟨e | a, s'⟩ <;> rfl

theorem runAlone_bind_ok {p : FsE α} {f : α → FsE β} {a : α} {s' : FsState}
    (h : runAlone c p s = (.ok a, s')) :
    runAlone c (p >>= f) s = runAlone c (f a) s' := by
  rw [runAlone_bind, h]

theorem runAlone_ofM (p : FsM α) :
    runAlone c (FsE.ofM p) s =
      (.ok (p.eval (FsOp.exec c false) s).1, (p.eval (FsOp.exec c false) s).2) := by
  unfold runAlone FsE.ofM
  rw [ExceptT.run_lift, map_eq_pure_bind, Prog.eval_bind]
  rfl

theorem runAlone_attempt (p : FsE α) :
    runAlone c (FsE.attempt p) s = (.ok (runAlone c p s).1, (runAlone c p s).2) :=
  runAlone_ofM p.run

/-- An operation that succeeds. -/
theorem runAlone_call {p : FsM (Except IoError α)} {a : α} {s' : FsState}
    (h : p.eval (FsOp.exec c false) s = (.ok a, s')) :
    runAlone c (FsE.call p) s = (.ok a, s') := by
  unfold runAlone FsE.call
  rw [ExceptT.run_mk, Prog.eval_bind, h]
  rfl

end FsE

-- ---------------------------------------------------------------------------
-- Writing
-- ---------------------------------------------------------------------------

@[simp] theorem FsState.withDir_withDir (s : FsState) (d d' : Dir) :
    (s.withDir d).withDir d' = s.withDir d' := rfl

/-- An operation that finds the file it moves is carried out. -/
theorem eval_issue {step : FileStep} (h : step.Ready s.dir) :
    step.issue.eval (FsOp.exec c false) s = (.ok (), s.withDir (step.apply s.dir)) := by
  cases step with
  | create n => rfl
  | write n f => rfl
  | sync n => rfl
  | rename a b =>
    have hMem : a ∈ s.dir := h
    simp only [FileStep.issue, Prog.eval_op, FsOp.exec, Bool.false_eq_true, if_false,
      if_pos hMem]
    rfl

/-- Operations that find the files they move are carried out. -/
theorem eval_runSteps {steps : List FileStep} {acc : List FileName}
    (h : Runnable s.dir steps) :
    ∃ names, (runSteps acc steps).eval (FsOp.exec c false) s =
      ((names, .ok ()), s.withDir (after s.dir steps)) := by
  induction steps generalizing acc s with
  | nil => exact ⟨acc, rfl⟩
  | cons step steps ih =>
    obtain ⟨hStep, hRest⟩ := h
    obtain ⟨names, hNames⟩ := @ih (s.withDir (step.apply s.dir))
      (acc ++ step.newFile.toList) hRest
    refine ⟨names, ?_⟩
    rw [runSteps, Prog.eval_bind, eval_issue hStep]
    exact hNames

/-- Removing files leaves the others, and the lock. -/
theorem eval_removeAll (ns : List FileName) (s : FsState) :
    ∃ d, (removeAll ns).eval (FsOp.exec c false) s = ((), s.withDir d) ∧
      ∀ n, d.lookup n = if n ∈ ns then none else s.dir.lookup n := by
  induction ns generalizing s with
  | nil => exact ⟨s.dir, rfl, by simp⟩
  | cons m ns ih =>
    -- Whether or not the file is there, it is gone afterwards.
    have hStep : ∃ d₀, (FsOp.exec c false (.remove m) s).2 = s.withDir d₀ ∧
        ∀ n, d₀.lookup n = if n = m then none else s.dir.lookup n := by
      by_cases hMem : m ∈ s.dir
      · refine ⟨s.dir.erase m, by simp [FsOp.exec, hMem], fun n => ?_⟩
        exact Dir.lookup_erase s.dir m n
      · refine ⟨s.dir, by simp [FsOp.exec, hMem]; rfl, fun n => ?_⟩
        split
        · rename_i hEq
          rw [hEq]
          exact AList.lookup_eq_none.mpr hMem
        · rfl
    obtain ⟨d₀, hExec, hLookup⟩ := hStep
    obtain ⟨d, hEval, hRest⟩ := ih (s.withDir d₀)
    refine ⟨d, ?_, fun n => ?_⟩
    · show (removeAll ns).eval (FsOp.exec c false) (FsOp.exec c false (.remove m) s).2 = _
      rw [hExec, hEval]
      rfl
    · rw [hRest, FsState.withDir_dir, hLookup]
      by_cases hn : n = m <;> by_cases hns : n ∈ ns <;> simp [hn, hns]

theorem run_step {step : FileStep} (h : step.Ready s.dir) :
    FsE.runAlone c (FsE.call step.issue) s = (.ok (), s.withDir (step.apply s.dir)) :=
  FsE.runAlone_call (eval_issue h)

/-- A commit puts the manifest in place and removes the retired files. -/
theorem run_commit (m : Manifest) (retire : List FileName) (s : FsState) :
    ∃ d, FsE.runAlone c (commit m retire) s = (.ok (), s.withDir d) ∧
      ∀ n, d.lookup n = if n ∈ retire then none else (s.dir.committed [] m).lookup n := by
  obtain ⟨-, -, -, hReady, -⟩ := runnable_writeFinal s.dir .manifest (manifestFile m)
  obtain ⟨d, hEval, hLookup⟩ := eval_removeAll (c := c) retire
    (s.withDir (s.dir.committed [] m))
  refine ⟨d, ?_, hLookup⟩
  have hWrite : FsE.runAlone c (writeWhole (.tmp .manifest) (manifestFile m)) s =
      (.ok (), s.withDir (after s.dir [.create (.tmp .manifest),
        .write (.tmp .manifest) (manifestFile m), .sync (.tmp .manifest)])) := rfl
  have hSync : FsE.runAlone c (FsE.call (Prog.op FsOp.syncDir)) s = (.ok (), s) := rfl
  unfold commit
  rw [FsE.runAlone_bind_ok hSync, FsE.runAlone_bind_ok hWrite]
  have hRename : FsE.runAlone c (FsE.call (Prog.op (FsOp.rename (.tmp .manifest) .manifest)))
      (s.withDir (after s.dir [.create (.tmp .manifest),
        .write (.tmp .manifest) (manifestFile m), .sync (.tmp .manifest)])) =
      (.ok (), s.withDir (s.dir.committed [] m)) :=
    @run_step c _ (.rename (.tmp .manifest) .manifest) hReady
  rw [FsE.runAlone_bind_ok hRename, FsE.runAlone_bind, FsE.runAlone_ofM]
  show FsE.runAlone c (FsE.ofM (removeAll retire)) (s.withDir (s.dir.committed [] m)) = _
  rw [FsE.runAlone_ofM, hEval]
  rfl

/-- A writer whose plan ends in a commit. -/
theorem run_writeAndCommit {plan : CommitPlan} {m : Manifest} {retire : List FileName}
    (hRun : Runnable s.dir plan.steps) (hRes : plan.result = .ok (some (m, retire))) :
    ∃ d, FsE.runAlone c (writeAndCommit plan) s = (.ok (), s.withDir d) ∧
      ∀ n, d.lookup n =
        if n ∈ retire then none else (s.dir.committed plan.steps m).lookup n := by
  obtain ⟨names, hNames⟩ := @eval_runSteps c s plan.steps [] hRun
  obtain ⟨d, hCommit, hLookup⟩ :=
    run_commit (c := c) m retire (s.withDir (after s.dir plan.steps))
  refine ⟨d, ?_, fun n => ?_⟩
  · have hSteps : FsE.runAlone c (FsE.ofM (runSteps [] plan.steps)) s =
        (.ok (names, .ok ()), s.withDir (after s.dir plan.steps)) := by
      rw [FsE.runAlone_ofM, hNames]
    unfold writeAndCommit
    rw [FsE.runAlone_bind_ok hSteps]
    simp only [hRes]
    rw [FsE.runAlone_bind, FsE.runAlone_attempt, hCommit]
    rfl
  · rw [hLookup, Dir.committed, Dir.committed, after_append, after_append]
    rfl

/-- A writer with nothing to do. -/
theorem run_writeAndCommit_none {plan : CommitPlan} (hSteps : plan.steps = [])
    (hRes : plan.result = .ok none) :
    FsE.runAlone c (writeAndCommit plan) s = (.ok (), s) := by
  unfold writeAndCommit
  rw [hSteps]
  simp only [hRes]
  rfl

-- ---------------------------------------------------------------------------
-- Locking
-- ---------------------------------------------------------------------------

section Lock

variable [Platform]

/-- The lock is taken if it is free. -/
theorem run_takeLock (s : FsState) :
    FsE.runAlone c takeLock s =
      if s.lock = none then (.ok (), { s with lock := some c }) else (.error .locked, s) := by
  unfold takeLock
  generalize Platform.lockPolls = n
  by_cases hFree : s.lock = none
  · rw [if_pos hFree, takeLockPolls, FsE.runAlone_bind, FsE.runAlone_ofM]
    simp only [Prog.eval_op, FsOp.exec, Bool.false_eq_true, if_false, if_pos hFree]
    rfl
  · rw [if_neg hFree]
    induction n + 1 with
    | zero => rfl
    | succ n ih =>
      rw [takeLockPolls, FsE.runAlone_bind, FsE.runAlone_ofM]
      simp only [Prog.eval_op, FsOp.exec, Bool.false_eq_true, if_false, if_neg hFree]
      exact ih

/-- What runs under the lock runs as without it, and the lock is free afterwards. -/
theorem run_withLock_ok {body : FsE α} {a : α} {s' : FsState}
    (h : FsE.runAlone c (withLock body) s = (.ok a, s')) :
    s.lock = none ∧ ∃ s₁, FsE.runAlone c body { s with lock := some c } = (.ok a, s₁) ∧
      s' = s₁.release c := by
  unfold withLock at h
  rw [FsE.runAlone_bind, run_takeLock] at h
  split_ifs at h with hFree
  · refine ⟨hFree, ?_⟩
    simp only [FsE.runAlone_bind, FsE.runAlone_attempt, FsE.runAlone_ofM,
      FsE.runAlone_ofExcept] at h
    obtain ⟨hRes, hState⟩ := Prod.mk.inj h
    exact ⟨_, Prod.ext hRes rfl, hState.symm⟩
  · simp at h

end Lock

-- ---------------------------------------------------------------------------
-- Opening
-- ---------------------------------------------------------------------------

/-- A reading program changes nothing and returns what the directory holds. -/
theorem run_ofRead (p : ReadE α) (s : FsState) :
    FsE.runAlone c (FsE.ofRead p) s = (p.eval s.dir, s) := by
  have h : ∀ q : ReadM (Except Error α), q.toFsM.eval (FsOp.exec c false) s =
      (q.onDir s.dir, s) := by
    intro q
    induction q with
    | ret a => rfl
    | call o k ih =>
      show ((o.issue >>= fun r => (k r).lift ReadOp.issue) : FsM _).eval _ s = _
      rw [Prog.eval_bind]
      cases o with
      | read n => exact ih (s.dir.readFile n)
      | mmap n => exact ih (s.dir.readFile n)
  exact h p.run

/-- Every file the manifest on disk names is in both directories, or in none, with the same
contents. -/
def Dir.SameIndex (d d' : Dir) : Prop :=
  d'.lookup .manifest = d.lookup .manifest ∧
    ∀ m : Manifest, d.lookup .manifest = some (manifestFile m) →
      ∀ n ∈ referencedFiles m, d'.lookup n = d.lookup n

theorem Dir.SameIndex.refl (d : Dir) : d.SameIndex d := ⟨rfl, fun _ _ _ _ => rfl⟩

theorem Dir.SameIndex.trans {d d' d'' : Dir} (h : d.SameIndex d') (h' : d'.SameIndex d'') :
    d.SameIndex d'' :=
  ⟨h'.1.trans h.1, fun m hm n hn =>
    (h'.2 m (h.1.trans hm) n hn).trans (h.2 m hm n hn)⟩

/-- The sweep removes nothing that the manifest on disk names. -/
theorem run_sweep {m : Manifest} (hm : s.dir.lookup .manifest = some (manifestFile m)) :
    ∃ d, FsE.runAlone c (sweep m) s = (.ok (), s.withDir d) ∧ s.dir.SameIndex d := by
  obtain ⟨d, hEval, hLookup⟩ := eval_removeAll (c := c)
    (s.dir.list.filter fun n => n.isCleanable && n ∉ referencedFiles m) s
  have hList : FsE.runAlone c (FsE.call (Prog.op FsOp.listDir)) s = (.ok s.dir.list, s) := rfl
  refine ⟨d, ?_, ?_, ?_⟩
  · unfold sweep
    rw [FsE.runAlone_bind_ok hList, FsE.runAlone_ofM, hEval]
  · rw [hLookup, if_neg]
    simp [FileName.isCleanable]
  · intro m' hm' n hn
    -- The manifest on disk is the one the sweep goes by.
    obtain rfl : m' = m := by
      rw [hm] at hm'
      simpa [manifestFile] using hm'.symm
    rw [hLookup, if_neg]
    simp [hn]

/-- Reading the manifest and sweeping. -/
theorem run_readAndSweep (cleanupLock : Bool) (s : FsState) :
    ∃ d, FsE.runAlone c (readAndSweep cleanupLock) s =
        (readManifest.eval s.dir, s.withDir d) ∧ s.dir.SameIndex d := by
  unfold readAndSweep
  rw [FsE.runAlone_bind, run_ofRead]
  rcases hRead : readManifest.eval s.dir with e | m
  · exact ⟨s.dir, rfl, .refl _⟩
  · cases m with
    | none => exact ⟨s.dir, rfl, .refl _⟩
    | some m =>
      cases cleanupLock with
      | false => exact ⟨s.dir, rfl, .refl _⟩
      | true =>
        obtain ⟨d, hSweep, hSame⟩ :=
          run_sweep (c := c) (eval_readManifest_some.mp hRead)
        refine ⟨d, ?_, hSame⟩
        show FsE.runAlone c (sweep m.1 >>= fun _ => pure (some m)) s = _
        rw [FsE.runAlone_bind_ok hSweep]
        rfl

variable [Platform]

/-- Loading after the sweep is opening the directory the sweep leaves. -/
theorem openIndex_eq_of_same {d d' : Dir} (h : d.SameIndex d') :
    d'.openIndex = (readManifest.eval d).bind fun m => ReadE.eval (match m with
      | none => pure none
      | some m => some <$> loadIndex m) d' := by
  show readIndex.eval d' = _
  unfold readIndex
  have hRead : readManifest.eval d' = readManifest.eval d := by
    rw [eval_readManifest, eval_readManifest, h.1]
  exact (ReadE.eval_bind _ _ _).trans (congrArg (fun r => Except.bind r _) hRead)

/-- The end of an attempt, after the sweep. -/
theorem run_load {d : Dir} (h : d.SameIndex s.dir) :
    FsE.runAlone c (FsE.ofExcept (readManifest.eval d) >>= fun m => match m with
      | none => pure none
      | some m => some <$> FsE.ofRead (loadIndex m)) s = (s.dir.openIndex, s) := by
  rw [openIndex_eq_of_same h, FsE.runAlone_bind, FsE.runAlone_ofExcept]
  rcases readManifest.eval d with e | m
  · rfl
  · cases m with
    | none => rfl
    | some m =>
      show FsE.runAlone c (some <$> FsE.ofRead (loadIndex m)) s =
        (ReadE.eval (some <$> loadIndex m) s.dir, s)
      rw [map_eq_pure_bind, FsE.runAlone_bind, run_ofRead, ReadE.eval_map]
      rcases (loadIndex m).eval s.dir with e | I <;> rfl

/-- One attempt to open returns what is on disk. -/
theorem run_openOnce (s : FsState) :
    ∃ s', s.dir.SameIndex s'.dir ∧ FsE.runAlone c openOnce s = (s'.dir.openIndex, s') := by
  unfold openOnce
  rw [FsE.runAlone_bind, FsE.runAlone_ofM]
  by_cases hFree : s.lock = none
  · -- The lock was free: it is released after the sweep.
    simp only [Prog.eval_op, FsOp.exec, Bool.false_eq_true, if_false, if_pos hFree]
    obtain ⟨d, hSweep, hSame⟩ :=
      run_readAndSweep (c := c) true { s with lock := some c }
    have hDir : (({ s with lock := some c } : FsState).withDir d |>.release c).dir = d := by
      unfold FsState.release
      split <;> rfl
    have hSame' : s.dir.SameIndex
        (({ s with lock := some c } : FsState).withDir d |>.release c).dir := by
      rw [hDir]
      exact hSame
    refine ⟨({ s with lock := some c } : FsState).withDir d |>.release c, hSame', ?_⟩
    show FsE.runAlone c (FsE.attempt (readAndSweep true) >>= fun r =>
      FsE.ofM (Prog.op FsOp.unlock) >>= fun _ => FsE.ofExcept r >>= fun m => match m with
        | none => pure none
        | some m => some <$> FsE.ofRead (loadIndex m)) { s with lock := some c } = _
    rw [FsE.runAlone_bind, FsE.runAlone_attempt, hSweep]
    exact run_load (d := s.dir) hSame'
  · simp only [Prog.eval_op, FsOp.exec, Bool.false_eq_true, if_false, if_neg hFree]
    obtain ⟨d, hSweep, hSame⟩ := run_readAndSweep (c := c) false s
    refine ⟨s.withDir d, hSame, ?_⟩
    show FsE.runAlone c (FsE.attempt (readAndSweep false) >>= fun r =>
      FsE.ofExcept r >>= fun m => match m with
        | none => pure none
        | some m => some <$> FsE.ofRead (loadIndex m)) s = _
    rw [FsE.runAlone_bind, FsE.runAlone_attempt, hSweep]
    exact run_load (d := s.dir) hSame

/-- Opening ends with what some attempt found. -/
theorem run_openAttempts (n : Nat) (last : Option FileName) (s : FsState) :
    ∃ s', s.dir.SameIndex s'.dir ∧
      ((∃ e, FsE.runAlone c (openAttempts last n) s = (.error e, s')) ∨
        FsE.runAlone c (openAttempts last n) s = (s'.dir.openIndex, s')) := by
  induction n generalizing last s with
  | zero => exact ⟨s, .refl _, .inl ⟨_, rfl⟩⟩
  | succ n ih =>
    obtain ⟨s₁, hSame, hOnce⟩ := run_openOnce (c := c) s
    unfold openAttempts
    rw [FsE.runAlone_bind, FsE.runAlone_attempt, hOnce]
    rcases hOpen : s₁.dir.openIndex with e | I
    · cases e with
      | vanished p =>
        obtain ⟨s', hSame', hRest⟩ := ih (some p) s₁
        exact ⟨s', hSame.trans hSame', hRest⟩
      | _ => exact ⟨s₁, hSame, .inl ⟨_, rfl⟩⟩
    · exact ⟨s₁, hSame, .inr (by rw [hOpen]; rfl)⟩

/-- An index that opening returns is the one on disk. -/
theorem run_openIndex_ok {I : Index} {s' : FsState}
    (h : FsE.runAlone c openIndex s = (.ok (some I), s')) :
    s.dir.lookup .manifest = some (manifestFile I.manifest) ∧ I.Backed s'.dir := by
  obtain ⟨s₁, hSame, ⟨e, hErr⟩ | hOk⟩ := run_openAttempts (c := c) maxAttempts none s
  · cases (h.symm.trans hErr)
  · obtain ⟨hRes, hState⟩ := Prod.mk.inj (h.symm.trans hOk)
    subst hState
    have hBacked := openIndex_ok_iff.mp hRes.symm
    exact ⟨hSame.1.symm.trans hBacked.manifest, hBacked⟩

/-- What the manifest names is as before. -/
theorem Index.Backed.of_same {I : Index} {d d' : Dir} (h : I.Backed d) (hSame : d.SameIndex d') :
    I.Backed d' :=
  h.of_agree (hSame.1.trans rfl) fun n hn => hSame.2 _ h.manifest n hn

/-- Opening returns the index on disk. -/
theorem run_openIndex_of_backed {I : Index} (h : I.Backed s.dir) :
    ∃ s', FsE.runAlone c openIndex s = (.ok (some I), s') ∧ I.Backed s'.dir := by
  obtain ⟨s₁, hSame, hOnce⟩ := run_openOnce (c := c) s
  have hBacked := h.of_same hSame
  refine ⟨s₁, ?_, hBacked⟩
  show FsE.runAlone c (openAttempts none maxAttempts) s = _
  unfold maxAttempts openAttempts
  rw [FsE.runAlone_bind, FsE.runAlone_attempt, hOnce, openIndex_ok_iff.mpr hBacked]
  rfl

end Ripindex
