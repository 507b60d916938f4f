import Ripindex.Store.MergePlan
import Ripindex.Store.Stale
import Ripindex.Store.Sys

/-!
# A pass of merges

`merge_index` of `store/merge.rs`: planning, preparing and committing in one pass, and what its
parts do to the manifest on disk when nobody else is at work.

## Results

* `Spares`              — programs that leave a file alone, and how they compose;
* `run_prepareAll_ok`   — what is prepared;
* `run_commitMerges`    — a commit of merges puts its manifest in place, or fails before.
-/

namespace Ripindex

variable [Platform]

-- ---------------------------------------------------------------------------
-- The program
-- ---------------------------------------------------------------------------

/-- `clear_staging`, where listing the staging directory gives `entries`. -/
def clearStaging (entries : Except IoError (List (StagingTag × SegmentPart))) : FsE Unit :=
  match entries with
  | .ok entries => FsE.ofM (removeAll (entries.map fun e => .staged e.1 e.2))
  | .error .notFound => pure ()
  | .error e => throw (.io e)

/-- The loop of `merge_index` over the groups: on an error what is prepared is discarded. -/
def prepareAll (prev : Index) (prepared : List PreparedMerge) :
    List (List UInt32) → FsE (List PreparedMerge)
  | [] => pure prepared
  | group :: groups => do
    match ← FsE.attempt (prepareMerge prev group) with
    | .ok p => prepareAll prev (prepared ++ [p]) groups
    -- A panic unwinds past the cleanup.
    | .error .panicked => throw .panicked
    | .error e => do
      FsE.ofM (discardAll prepared)
      throw e

/-- Plan, prepare, and commit every merge one planning pass calls for. -/
def mergeIndex (now : Int64) (entries : Except IoError (List (StagingTag × SegmentPart)))
    (policy : MergePolicy) : FsE Index := do
  clearStaging entries
  match ← openIndex with
  | none => throw .noIndex
  | some prev =>
    let groups := planMerges policy prev.manifest.segments
    if groups.isEmpty then pure prev
    else do
      let prepared ← prepareAll prev [] groups
      commitMerges now prepared

-- ---------------------------------------------------------------------------
-- Programs that leave a file alone
-- ---------------------------------------------------------------------------

/-- Run alone, the program leaves the file as it is. -/
def Spares {α : Type} (n : FileName) (p : FsM α) : Prop :=
  ∀ (c : Pid) (s : FsState), (p.eval (FsOp.exec c false) s).2.dir.lookup n = s.dir.lookup n

section Spares

variable {α β : Type} {n : FileName}

omit [Platform] in
theorem spares_ret (a : α) : Spares n (Prog.ret a : FsM α) := fun _ _ => rfl

omit [Platform] in
theorem spares_op {o : FsOp} (h : n ∉ Sys.touches o) : Spares n (Prog.op o) :=
  fun _ _ => Sys.lookup_exec h

omit [Platform] in
theorem Spares.bind {p : FsM α} {f : α → FsM β} (hp : Spares n p) (hf : ∀ a, Spares n (f a)) :
    Spares n (p >>= f) := by
  intro c s
  rw [Prog.eval_bind]
  exact (hf _ c _).trans (hp c s)

omit [Platform] in
theorem Spares.ofM {p : FsM α} (h : Spares n p) : Spares n (FsE.ofM p).run :=
  Spares.bind h fun _ => spares_ret _

omit [Platform] in
theorem Spares.attempt {p : FsE α} (h : Spares n p.run) : Spares n (FsE.attempt p).run :=
  Spares.ofM h

omit [Platform] in
theorem Spares.call {p : FsM (Except IoError α)} (h : Spares n p) :
    Spares n (FsE.call p).run :=
  Spares.bind h fun r => by cases r <;> exact spares_ret _

omit [Platform] in
theorem Spares.seq {p : FsE α} {f : α → FsE β} (hp : Spares n p.run)
    (hf : ∀ a, Spares n (f a).run) : Spares n (p >>= f).run := by
  rw [ExceptT.run_bind]
  refine Spares.bind hp ?_
  intro r
  cases r with
  | ok a => exact hf a
  | error e => exact spares_ret _

omit [Platform] in
theorem spares_removeAll {ns : List FileName} (h : n ∉ ns) : Spares n (removeAll ns) := by
  induction ns with
  | nil => exact spares_ret _
  | cons m ns ih =>
    obtain ⟨hHead, hTail⟩ := not_or.mp (List.mem_cons.not.mp h)
    exact Spares.bind (spares_op (by simpa [Sys.touches] using hHead)) fun _ => ih hTail

omit [Platform] in
theorem spares_runSteps {steps : List FileStep} (h : ∀ step ∈ steps, n ∉ step.touches)
    (acc : List FileName) : Spares n (runSteps acc steps) := by
  induction steps generalizing acc with
  | nil => exact spares_ret _
  | cons step steps ih =>
    obtain ⟨hHead, hTail⟩ := List.forall_mem_cons.mp h
    have hStep : Spares n step.issue := by
      cases step with
      | sync m => exact fun _ _ => rfl
      | create m => exact spares_op hHead
      | write m f => exact spares_op hHead
      | rename a b => exact spares_op hHead
    refine Spares.bind hStep ?_
    intro r
    cases r with
    | ok u => exact ih hTail _
    | error e => exact spares_ret _

end Spares

section Manifest

theorem spares_openIndex : Spares .manifest openIndex.run := by
  intro c s
  obtain ⟨s', hSame, ⟨e, hRun⟩ | hRun⟩ := run_openAttempts (c := c) maxAttempts none s
  · exact (congrArg (fun r => r.2.dir.lookup .manifest) hRun).trans hSame.1
  · exact (congrArg (fun r => r.2.dir.lookup .manifest) hRun).trans hSame.1

omit [Platform] in
theorem spares_discardAll (ps : List PreparedMerge) : Spares .manifest (discardAll ps) := by
  induction ps with
  | nil => exact spares_ret _
  | cons p ps ih => exact Spares.bind (spares_removeAll (by simp)) fun _ => ih

omit [Platform] in
theorem spares_clearStaging (entries : Except IoError (List (StagingTag × SegmentPart))) :
    Spares .manifest (clearStaging entries).run := by
  unfold clearStaging
  split
  · exact Spares.ofM (spares_removeAll (by simp))
  · exact spares_ret _
  · exact spares_ret _

/-- The operation is not on the manifest. -/
def FileStep.SparesManifest (step : FileStep) : Prop := .manifest ∉ step.touches

/-- The operation writes a file staged under `tag`. -/
def FileStep.Stages (tag : StagingTag) : FileStep → Prop
  | .create n | .write n _ | .sync n => ∃ part, n = .staged tag part
  | .rename _ _ => False

theorem preparePlan_stages (tag : StagingTag) (I : Index) (ids : List UInt32)
    (segs : List Segment) : (preparePlan tag I ids segs).All (FileStep.Stages tag) := by
  unfold preparePlan
  refine (Plan.all_emit ?_).bind fun _ _ => (Plan.all_ofFormat _).bind fun _ _ =>
    (Plan.all_emit ?_).bind fun _ _ => (Plan.all_ofFormat _).bind fun _ _ =>
    (Plan.all_ofFormat _).bind fun _ _ => (Plan.all_emit ?_).bind fun _ _ => Plan.all_pure _
  all_goals simp [FileStep.Stages]

omit [Platform] in
theorem FileStep.Stages.spares {tag : StagingTag} {step : FileStep} (h : step.Stages tag) :
    step.SparesManifest := by
  cases step with
  | create n | write n f =>
    obtain ⟨part, rfl⟩ := h
    simp [SparesManifest, touches]
  | sync n => simp [SparesManifest, touches]
  | rename a b => exact h.elim

theorem spares_prepareMerge (I : Index) (ids : List UInt32) :
    Spares .manifest (prepareMerge I ids).run := by
  unfold prepareMerge
  split
  · exact spares_ret _
  · refine Spares.seq (Spares.call (spares_op (by simp [Sys.touches]))) fun _ =>
      Spares.seq (Spares.ofM (spares_op (by simp [Sys.touches]))) fun tag =>
      Spares.seq (Spares.ofM (spares_runSteps
        (fun step hStep => (preparePlan_stages _ _ _ _ step hStep).spares) _)) fun r =>
      Spares.seq (spares_ret _) fun _ => spares_ret _

theorem spares_prepareAll (prev : Index) (prepared : List PreparedMerge)
    (groups : List (List UInt32)) : Spares .manifest (prepareAll prev prepared groups).run := by
  induction groups generalizing prepared with
  | nil => exact spares_ret _
  | cons g groups ih =>
    refine Spares.seq (Spares.attempt (spares_prepareMerge prev g)) ?_
    intro r
    split
    · exact ih _
    · exact spares_ret _
    · exact Spares.seq (Spares.ofM (spares_discardAll _)) fun _ => spares_ret _

theorem finishOne_spares (cur : Index) (p : PreparedMerge) (id base : UInt32) :
    (finishOne cur p id base).All FileStep.SparesManifest := by
  unfold finishOne
  refine (Plan.all_emit ?_).bind fun _ _ => ?_
  · simp [FileStep.SparesManifest, FileStep.touches]
  · show Plan.All _ (if 0 < (carryBitmap cur p).count then _ else _)
    split
    · refine Plan.All.bind ?_ fun _ _ => Plan.all_pure _
      simp [Plan.All, FileStep.SparesManifest, FileStep.touches]
    · exact Plan.all_pure _

theorem finishAll_spares (cur : Index) (id base : UInt32) (ps : List PreparedMerge) :
    (finishAll cur id base ps).All FileStep.SparesManifest := by
  induction ps generalizing id base with
  | nil => exact Plan.all_pure _
  | cons p ps ih =>
    unfold finishAll
    split
    · exact Plan.all_fail _
    · exact (finishOne_spares cur p id base).bind fun _ _ =>
        (ih _ _).bind fun _ _ => Plan.all_pure _

theorem mergePlan_spares (now : Int64) (cur : Index) (ps : List PreparedMerge) :
    (mergePlan now cur ps).All FileStep.SparesManifest :=
  (finishAll_spares _ _ _ _).bind fun _ _ => Plan.all_pure _

end Manifest

-- ---------------------------------------------------------------------------
-- Preparing and committing
-- ---------------------------------------------------------------------------

section Runs

variable {α β : Type} {c : Pid} {s s' : FsState}

omit [Platform] in
theorem runAlone_bind_eq_ok {p : FsE α} {f : α → FsE β} {b : β}
    (h : FsE.runAlone c (p >>= f) s = (.ok b, s')) :
    ∃ a s₁, FsE.runAlone c p s = (.ok a, s₁) ∧ FsE.runAlone c (f a) s₁ = (.ok b, s') := by
  rw [FsE.runAlone_bind] at h
  rcases hRun : FsE.runAlone c p s with ⟨e | a, s₁⟩
  · rw [hRun] at h
    cases h
  · rw [hRun] at h
    exact ⟨a, s₁, rfl, h⟩

/-- What preparing a merge has computed. -/
theorem run_prepareMerge_ok {I : Index} {g : List UInt32} {p : PreparedMerge}
    (h : FsE.runAlone c (prepareMerge I g) s = (.ok p, s')) :
    ∃ x : StagedMerge, ∃ segs, x.merge = p ∧ g.mapM I.findSegment = some segs ∧
      x.Prepares I g segs := by
  unfold prepareMerge at h
  rcases hSegs : g.mapM I.findSegment with _ | segs
  · rw [hSegs] at h
    cases h
  rw [hSegs] at h
  obtain ⟨_, s₁, -, h⟩ := runAlone_bind_eq_ok h
  obtain ⟨tag, s₂, -, h⟩ := runAlone_bind_eq_ok h
  obtain ⟨written, s₃, -, h⟩ := runAlone_bind_eq_ok h
  obtain ⟨_, s₄, -, h⟩ := runAlone_bind_eq_ok h
  rw [FsE.runAlone_ofExcept] at h
  obtain ⟨x, hMerge, -, hPrepares, -⟩ := preparePlan_ok (Prod.mk.inj h).1
  exact ⟨x, segs, hMerge, rfl, hPrepares⟩

/-- The merges that are prepared, one for each group. -/
theorem run_prepareAll_ok {I : Index} {groups : List (List UInt32)} {done ps : List PreparedMerge}
    (h : FsE.runAlone c (prepareAll I done groups) s = (.ok ps, s')) :
    ∃ xs : List StagedMerge, ps = done ++ xs.map StagedMerge.merge ∧
      xs.map (fun x => x.merge.sourceIds) = groups ∧
      ∀ x ∈ xs, ∃ g segs, g.mapM I.findSegment = some segs ∧ x.Prepares I g segs := by
  induction groups generalizing done s with
  | nil =>
    obtain rfl : done = ps := Except.ok.inj (Prod.mk.inj h).1
    exact ⟨[], (List.append_nil _).symm, rfl, fun x hx => (List.not_mem_nil hx).elim⟩
  | cons g groups ih =>
    rw [prepareAll, FsE.runAlone_bind, FsE.runAlone_attempt] at h
    rcases hRun : FsE.runAlone c (prepareMerge I g) s with ⟨e | p, s₁⟩
    · rw [hRun] at h
      cases e with
      | panicked => cases h
      | _ =>
        obtain ⟨_, _, -, h⟩ := runAlone_bind_eq_ok h
        cases h
    · rw [hRun] at h
      obtain ⟨xs, hPs, hIds, hAll⟩ := ih h
      obtain ⟨x, segs, hMerge, hSegs, hPrepares⟩ := run_prepareMerge_ok hRun
      refine ⟨x :: xs, ?_, ?_, List.forall_mem_cons.mpr ⟨⟨g, segs, hSegs, hPrepares⟩, hAll⟩⟩
      · rw [hPs, List.map_cons, hMerge, List.append_assoc]
        rfl
      · rw [List.map_cons, hIds, hPrepares.sourceIds]

omit [Platform] in
/-- The files a writer tidies up are those its operations touch. -/
theorem newFiles_of_runSteps {steps : List FileStep} (hSteps : ∀ step ∈ steps, step.SparesManifest)
    {acc : List FileName} (hAcc : .manifest ∉ acc) (s : FsState) :
    .manifest ∉ ((runSteps acc steps).eval (FsOp.exec c false) s).1.1 := by
  induction steps generalizing acc s with
  | nil => exact hAcc
  | cons step steps ih =>
    obtain ⟨hHead, hTail⟩ := List.forall_mem_cons.mp hSteps
    have hNew : .manifest ∉ acc ++ step.newFile.toList := by
      rw [List.mem_append, not_or]
      refine ⟨hAcc, fun hMem => hHead ?_⟩
      cases step with
      | create n => simpa [FileStep.newFile, FileStep.touches] using hMem
      | rename a b =>
        have hEq : FileName.manifest = b := by simpa [FileStep.newFile] using hMem
        simp [FileStep.touches, hEq]
      | write | sync => simp [FileStep.newFile] at hMem
    rw [runSteps, Prog.eval_bind]
    rcases step.issue.eval (FsOp.exec c false) s with ⟨_ | _, s₁⟩
    · exact hNew
    · exact ih hTail hNew s₁

omit [Platform] in
/-- A writer commits the manifest of its plan, or leaves the manifest as it is. -/
theorem run_writeAndCommit_cases {plan : CommitPlan} (hSteps : plan.All FileStep.SparesManifest)
    (hRetire : ∀ m retire, plan.result = .ok (some (m, retire)) → .manifest ∉ retire)
    (s : FsState) :
    ((FsE.runAlone c (writeAndCommit plan) s).2.dir.lookup .manifest = s.dir.lookup .manifest ∧
      ((FsE.runAlone c (writeAndCommit plan) s).1 = .ok () → plan.result = .ok none)) ∨
    ∃ m retire, plan.result = .ok (some (m, retire)) ∧
      (FsE.runAlone c (writeAndCommit plan) s).2.dir.lookup .manifest = some (manifestFile m) := by
  have hSpares := spares_runSteps hSteps [] c s
  have hFiles := newFiles_of_runSteps (c := c) hSteps List.not_mem_nil s
  rcases hRun : (runSteps [] plan.steps).eval (FsOp.exec c false) s with ⟨⟨newFiles, written⟩, s₁⟩
  rw [hRun] at hSpares hFiles
  have hFirst : FsE.runAlone c (FsE.ofM (runSteps [] plan.steps)) s =
      (.ok (newFiles, written), s₁) := by
    rw [FsE.runAlone_ofM, hRun]
  -- What was created is removed again.
  have hTidy : ∀ e : Error, ∀ out, out = FsE.runAlone c
      (FsE.ofM (removeAll newFiles) >>= fun _ => (throw e : FsE Unit)) s₁ →
        out.2.dir.lookup .manifest = s.dir.lookup .manifest ∧
          (out.1 = .ok () → plan.result = .ok none) := by
    rintro e _ rfl
    refine ⟨(Spares.seq (Spares.ofM (spares_removeAll hFiles)) (fun _ => spares_ret _) c s₁).trans
      hSpares, fun hOk => ?_⟩
    rw [FsE.runAlone_bind, FsE.runAlone_ofM] at hOk
    cases hOk
  unfold writeAndCommit
  rw [FsE.runAlone_bind_ok hFirst]
  rcases written with e | u
  · exact .inl (hTidy e _ rfl)
  rcases hRes : plan.result with e | _ | ⟨m, retire⟩
  · rw [hRes] at hTidy
    exact .inl (hTidy e _ rfl)
  · exact .inl ⟨hSpares, fun _ => rfl⟩
  · obtain ⟨d, hCommit, hLookup⟩ := run_commit (c := c) m retire s₁
    refine .inr ⟨m, retire, rfl, ?_⟩
    simp only
    rw [FsE.runAlone_bind, FsE.runAlone_attempt, hCommit]
    simp only
    rw [FsE.runAlone_pure, FsState.withDir_dir, hLookup, if_neg (hRetire m retire hRes),
      Dir.lookup_committed, if_pos rfl]

/-- What runs under the lock, and that nothing runs if the lock is taken. -/
theorem run_withLock (body : FsE α) (s : FsState) :
    FsE.runAlone c (withLock body) s =
      if s.lock = none then
        ((FsE.runAlone c body { s with lock := some c }).1,
          (FsE.runAlone c body { s with lock := some c }).2.release c)
      else (.error .locked, s) := by
  unfold withLock
  rw [FsE.runAlone_bind, run_takeLock]
  split_ifs
  · simp only [FsE.runAlone_bind, FsE.runAlone_attempt, FsE.runAlone_ofM, FsE.runAlone_ofExcept]
    rfl
  · rfl

omit [Platform] in
theorem lookup_release (s : FsState) (c : Pid) (n : FileName) :
    (s.release c).dir.lookup n = s.dir.lookup n := by
  unfold FsState.release
  split <;> rfl

/-- The part of `commit_merges` under the lock. -/
def commitLocked (now : Int64) (ps : List PreparedMerge) : FsE Unit := do
  match ← FsE.attempt openIndex with
  | .ok (some cur) => writeAndCommit (mergePlan now cur ps)
  | .ok none => do
    FsE.ofM (discardAll ps)
    throw .noIndex
  | .error e => do
    FsE.ofM (discardAll ps)
    throw e

theorem commitMerges_eq (now : Int64) {ps : List PreparedMerge} (hSome : ps ≠ []) :
    commitMerges now ps = withLock (commitLocked now ps) >>= fun _ => reopen := by
  obtain ⟨p, ps, rfl⟩ := List.exists_cons_of_ne_nil hSome
  rfl

/-- The plan of a merge commits something, and retires no manifest. -/
theorem mergePlan_commits {now : Int64} {cur : Index} {ps : List PreparedMerge}
    {r : Option (Manifest × List FileName)} (h : (mergePlan now cur ps).result = .ok r) :
    ∃ m retire, r = some (m, retire) ∧ .manifest ∉ retire := by
  obtain ⟨_, -, h⟩ := Plan.bind_ok.mp h
  refine ⟨_, _, (Except.ok.inj h).symm, fun hMem => ?_⟩
  obtain ⟨e, -, -, hFile⟩ := mem_retiredSources hMem
  simp [segmentFiles] at hFile

theorem run_commitLocked (now : Int64) (ps : List PreparedMerge) (s : FsState) :
    ((FsE.runAlone c (commitLocked now ps) s).2.dir.lookup .manifest = s.dir.lookup .manifest ∧
      (FsE.runAlone c (commitLocked now ps) s).1 ≠ .ok ()) ∨
    ∃ cur m retire, s.dir.lookup .manifest = some (manifestFile cur.manifest) ∧
      (mergePlan now cur ps).result = .ok (some (m, retire)) ∧
      (FsE.runAlone c (commitLocked now ps) s).2.dir.lookup .manifest = some (manifestFile m) := by
  have hOpen := spares_openIndex c s
  change (FsE.runAlone c openIndex s).2.dir.lookup .manifest = _ at hOpen
  rcases hRun : FsE.runAlone c openIndex s with ⟨e | _ | cur, s₁⟩
  all_goals rw [hRun] at hOpen
  all_goals unfold commitLocked
  all_goals rw [FsE.runAlone_bind, FsE.runAlone_attempt, hRun]
  · refine .inl ⟨(Spares.seq (Spares.ofM (spares_discardAll ps))
      (fun _ => spares_ret _) c s₁).trans hOpen, fun hOk => ?_⟩
    obtain ⟨_, _, -, hOk⟩ := runAlone_bind_eq_ok (Prod.ext hOk rfl)
    cases hOk
  · refine .inl ⟨(Spares.seq (Spares.ofM (spares_discardAll ps))
      (fun _ => spares_ret _) c s₁).trans hOpen, fun hOk => ?_⟩
    obtain ⟨_, _, -, hOk⟩ := runAlone_bind_eq_ok (Prod.ext hOk rfl)
    cases hOk
  · obtain ⟨hManifest, -⟩ := run_openIndex_ok hRun
    rcases run_writeAndCommit_cases (c := c) (mergePlan_spares now cur ps) (fun m retire hRes => by
      obtain ⟨_, _, hEq, hNot⟩ := mergePlan_commits hRes
      obtain ⟨-, rfl⟩ := Prod.mk.inj (Option.some.inj hEq)
      exact hNot) s₁ with ⟨hSame, hNone⟩ | ⟨m, retire, hRes, hCommit⟩
    · refine .inl ⟨hSame.trans hOpen, fun hOk => ?_⟩
      obtain ⟨_, _, hEq, -⟩ := mergePlan_commits (hNone hOk)
      cases hEq
    · exact .inr ⟨cur, m, retire, hManifest, hRes, hCommit⟩

theorem spares_reopen : Spares .manifest reopen.run := by
  refine Spares.seq spares_openIndex ?_
  intro r
  cases r <;> exact spares_ret _

/-- Committing merges puts the manifest of their plan over the index on disk, or fails and
leaves the manifest as it is. -/
theorem run_commitMerges (now : Int64) {ps : List PreparedMerge} (hSome : ps ≠ [])
    (s : FsState) :
    ((FsE.runAlone c (commitMerges now ps) s).2.dir.lookup .manifest = s.dir.lookup .manifest ∧
      ∀ J, (FsE.runAlone c (commitMerges now ps) s).1 ≠ .ok J) ∨
    ∃ cur m retire, s.dir.lookup .manifest = some (manifestFile cur.manifest) ∧
      (mergePlan now cur ps).result = .ok (some (m, retire)) ∧
      (FsE.runAlone c (commitMerges now ps) s).2.dir.lookup .manifest = some (manifestFile m) := by
  rw [commitMerges_eq now hSome, FsE.runAlone_bind, run_withLock]
  by_cases hLock : s.lock = none
  · rw [if_pos hLock]
    rcases run_commitLocked (c := c) now ps { s with lock := some c } with
      ⟨hSame, hError⟩ | ⟨cur, m, retire, hCur, hRes, hCommit⟩
    · rcases hRun : FsE.runAlone c (commitLocked now ps) { s with lock := some c } with
        ⟨e | _, s₁⟩
      · rw [hRun] at hSame
        exact .inl ⟨(lookup_release _ _ _).trans hSame, fun J h => by cases h⟩
      · rw [hRun] at hError
        exact absurd rfl hError
    · refine .inr ⟨cur, m, retire, hCur, hRes, ?_⟩
      rcases hRun : FsE.runAlone c (commitLocked now ps) { s with lock := some c } with
        ⟨e | _, s₁⟩
      all_goals rw [hRun] at hCommit
      · exact (lookup_release _ _ _).trans hCommit
      · exact (spares_reopen c _).trans ((lookup_release _ _ _).trans hCommit)
  · rw [if_neg hLock]
    exact .inl ⟨rfl, fun J h => by cases h⟩

end Runs

end Ripindex
