import Ripindex.Store.Interleave

/-!
# The order of syncs

What the programs of the store do before they move a file into place, whatever their operations
return: the file was synced after it was last written, and before the manifest is replaced the
directory was synced after the last change of a data file. Right after that rename the directory is
synced again.

## Results

* `syncsFirst_buildPlan`, `syncsFirst_updatePlan`, `syncsFirst_mergePlan` — the plans;
* `syncsFirst_commit`                                                     — the commit protocol;
* `Task.wp_ordered`                                                       — every task.
-/

namespace Ripindex

-- ---------------------------------------------------------------------------
-- What a process has synced
-- ---------------------------------------------------------------------------

/-- Files that no manifest names. -/
def FileName.isScratch : FileName → Bool
  | tmp _ | staged _ _ => true
  | manifest | idx _ | doc _ | del _ _ | overlay _ => false

/-- What a process has synced: the files it wrote, as long as it has not written them again, and
the directory since it last moved or removed a file; and whether it has renamed the manifest and
not tried to sync the directory since. -/
structure SyncState where
  files : Set FileName
  dir : Bool
  renamed : Bool

namespace SyncState

/-- After an operation and its result. Staged files are a process's own; others may be changed by
whoever takes the lock. -/
def next (g : SyncState) : (o : FsOp) → o.Res → SyncState
  | .create n, _ | .write n _, _ | .sync n, .error _ => { g with files := g.files \ {n} }
  | .sync n, .ok () => { g with files := insert n g.files }
  | .rename _ b, .ok () => { g with dir := false, renamed := decide (b = .manifest) }
  | .remove _, _ => { g with dir := false }
  | .syncDir, r => { g with dir := r.isOk, renamed := false }
  | .lock, _ => { g with files := {n ∈ g.files | n.isStaged = true}, dir := false }
  | _, _ => g

/-- What is written and moved is in order. -/
def Ready (g : SyncState) : FsOp → Prop
  | .create n | .write n _ | .sync n => n.isScratch = true
  | .rename a b => a ∈ g.files ∧ (b = .manifest → g.dir = true)
  | _ => True

/-- The operations that are in order. -/
def Allows (g : SyncState) (o : FsOp) : Prop :=
  (g.renamed = true → o = .syncDir) ∧ g.Ready o

/-- A process that issues its operations in order, whatever these return. -/
def contract : Contract FsOp FsOp.Res SyncState where
  step := fun o g r g' => g' = g.next o r
  rely := fun g g' => g' = g
  allows := fun o g => g.Allows o

/-- The files `X` are synced, and the directory was not left after the rename of the manifest. -/
def Keeps (X : Set FileName) (g : SyncState) : Prop := X ⊆ g.files ∧ g.renamed = false

end SyncState

/-- The program issues its operations in order, and keeps the files `X` synced. -/
def SyncsFirst {α : Type} (X : Set FileName) (p : FsM α) : Prop :=
  ∀ g : SyncState, g.Keeps X → p.wp SyncState.contract (fun _ => SyncState.Keeps X) g

section Rules

variable {α β : Type} {X Y : Set FileName} {g : SyncState}

theorem wp_issue {o : FsOp} {k : o.Res → FsM α} {Q : α → SyncState → Prop} (hAllow : g.Allows o)
    (h : ∀ r, (k r).wp SyncState.contract Q (g.next o r)) :
    (Prog.call o k).wp SyncState.contract Q g := by
  rintro _ rfl
  refine ⟨hAllow, ?_⟩
  rintro r _ rfl
  exact h r

theorem SyncState.Allows.of_not_renamed {o : FsOp} (hg : g.renamed = false) (h : g.Ready o) :
    g.Allows o := by
  refine ⟨fun hRenamed => ?_, h⟩
  rw [hg] at hRenamed
  cases hRenamed

theorem SyncState.Keeps.mono (h : g.Keeps Y) (hXY : X ⊆ Y) : g.Keeps X := ⟨hXY.trans h.1, h.2⟩

theorem syncsFirst_ret (a : α) : SyncsFirst X (Prog.ret a : FsM α) := fun _ => id

theorem SyncsFirst.bind {p : FsM α} {f : α → FsM β} (hp : SyncsFirst X p)
    (hf : ∀ a, SyncsFirst X (f a)) : SyncsFirst X (p >>= f) :=
  fun g hg => Prog.wp_seq (hp g hg) fun a g' hg' => hf a g' hg'

theorem SyncsFirst.ofM {p : FsM α} (h : SyncsFirst X p) : SyncsFirst X (FsE.ofM p).run :=
  h.bind fun _ => syncsFirst_ret _

theorem SyncsFirst.attempt {p : FsE α} (h : SyncsFirst X p.run) :
    SyncsFirst X (FsE.attempt p).run :=
  h.ofM

theorem SyncsFirst.call {p : FsM (Except IoError α)} (h : SyncsFirst X p) :
    SyncsFirst X (FsE.call p).run :=
  h.bind fun r => by cases r <;> exact syncsFirst_ret _

theorem SyncsFirst.seq {p : FsE α} {f : α → FsE β} (hp : SyncsFirst X p.run)
    (hf : ∀ a, SyncsFirst X (f a).run) : SyncsFirst X (p >>= f).run := by
  rw [ExceptT.run_bind]
  refine hp.bind ?_
  intro r
  cases r with
  | ok a => exact hf a
  | error e => exact syncsFirst_ret _

/-- An operation that writes no file and moves none. -/
theorem syncsFirst_op {o : FsOp} (hReady : ∀ g : SyncState, g.Ready o)
    (hNext : ∀ (g : SyncState) r, g.Keeps X → (g.next o r).Keeps X) : SyncsFirst X (Prog.op o) :=
  fun g hg => wp_issue (.of_not_renamed hg.2 (hReady g)) fun r => hNext g r hg

end Rules

-- ---------------------------------------------------------------------------
-- Opening and locking
-- ---------------------------------------------------------------------------

section Opening

variable [Platform] {α : Type} {X : Set FileName}

omit [Platform] in
theorem syncsFirst_removeAll (ns : List FileName) : SyncsFirst X (removeAll ns) := by
  induction ns with
  | nil => exact syncsFirst_ret _
  | cons n ns ih =>
    exact (syncsFirst_op (o := .remove n) (fun _ => trivial) fun _ _ hg => hg).bind fun _ => ih

omit [Platform] in
theorem syncsFirst_discardAll (ps : List PreparedMerge) : SyncsFirst X (discardAll ps) := by
  induction ps with
  | nil => exact syncsFirst_ret _
  | cons p ps ih => exact (syncsFirst_removeAll _).bind fun _ => ih

omit [Platform] in
theorem syncsFirst_ofRead (p : ReadE α) : SyncsFirst X (FsE.ofRead p).run := by
  change SyncsFirst X (ReadM.toFsM p.run)
  unfold ReadM.toFsM
  generalize p.run = q
  induction q with
  | ret a => exact syncsFirst_ret a
  | call o k ih =>
    refine SyncsFirst.bind ?_ ih
    cases o with
    | read n => exact syncsFirst_op (o := .read n) (fun _ => trivial) fun _ _ hg => hg
    | mmap n => exact syncsFirst_op (o := .mmap n) (fun _ => trivial) fun _ _ hg => hg

omit [Platform] in
/-- Taking the lock: only staged files are sure to be as the process left them. -/
theorem syncsFirst_lock (hX : ∀ n ∈ X, n.isStaged = true) :
    SyncsFirst X (Prog.op FsOp.lock) :=
  syncsFirst_op (fun _ => trivial) fun _ _ hg => ⟨fun n hn => ⟨hg.1 hn, hX n hn⟩, hg.2⟩

omit [Platform] in
theorem syncsFirst_unlock : SyncsFirst X (Prog.op FsOp.unlock) :=
  syncsFirst_op (fun _ => trivial) fun _ _ hg => hg

theorem syncsFirst_takeLock (hX : ∀ n ∈ X, n.isStaged = true) : SyncsFirst X takeLock.run := by
  unfold takeLock
  induction Platform.lockPolls + 1 with
  | zero => exact syncsFirst_ret _
  | succ n ih =>
    unfold takeLockPolls
    refine (syncsFirst_lock hX).ofM.seq ?_
    intro r
    rcases r with _ | _
    · split
      · exact syncsFirst_ret _
      · exact ih
      · exact syncsFirst_ret _
    · exact syncsFirst_ret _

/-- A body under the lock. -/
theorem syncsFirst_withLock (hX : ∀ n ∈ X, n.isStaged = true) {body : FsE α}
    (h : SyncsFirst X body.run) : SyncsFirst X (withLock body).run :=
  (syncsFirst_takeLock hX).seq fun _ => h.attempt.seq fun _ =>
    syncsFirst_unlock.ofM.seq fun _ => syncsFirst_ret _

theorem syncsFirst_openIndex (hX : ∀ n ∈ X, n.isStaged = true) :
    SyncsFirst X openIndex.run := by
  have hSweep : ∀ m : Manifest, SyncsFirst X (sweep m).run := fun m =>
    (syncsFirst_op (o := .listDir) (fun _ => trivial) fun _ _ hg => hg).call.seq fun _ =>
      (syncsFirst_removeAll _).ofM
  have hOnce : SyncsFirst X openOnce.run := by
    unfold openOnce readAndSweep
    refine (syncsFirst_lock hX).ofM.seq fun probe => ?_
    refine SyncsFirst.seq (SyncsFirst.attempt ((syncsFirst_ofRead _).seq fun m => ?_)) fun r => ?_
    · split
      · split
        · exact (hSweep _).seq fun _ => syncsFirst_ret _
        · exact syncsFirst_ret _
      · exact syncsFirst_ret _
    · have hLoad : ∀ m, SyncsFirst X (some <$> FsE.ofRead (loadIndex m) : FsE _).run := fun m =>
        (syncsFirst_ofRead _).seq fun _ => syncsFirst_ret _
      split
      · refine syncsFirst_unlock.ofM.seq fun _ => SyncsFirst.seq (syncsFirst_ret _) fun m => ?_
        split
        · exact syncsFirst_ret _
        · exact hLoad _
      · refine SyncsFirst.seq (syncsFirst_ret _) fun m => ?_
        split
        · exact syncsFirst_ret _
        · exact hLoad _
  unfold openIndex
  generalize (none : Option FileName) = last
  induction maxAttempts generalizing last with
  | zero => exact syncsFirst_ret _
  | succ n ih =>
    unfold openAttempts
    refine hOnce.attempt.seq fun r => ?_
    split
    · exact syncsFirst_ret _
    · exact ih _
    · exact syncsFirst_ret _

theorem syncsFirst_reopen (hX : ∀ n ∈ X, n.isStaged = true) : SyncsFirst X reopen.run := by
  refine (syncsFirst_openIndex hX).seq fun r => ?_
  split <;> exact syncsFirst_ret _

end Opening

-- ---------------------------------------------------------------------------
-- Plans
-- ---------------------------------------------------------------------------

namespace FileStep

/-- The files that are synced after the operation has succeeded. -/
def syncedAfter (Y : Set FileName) : FileStep → Set FileName
  | create n | write n _ => Y \ {n}
  | sync n => insert n Y
  | rename _ _ => Y

/-- Files are written under names that no manifest has, and moved once they are synced. -/
def SyncsFirst (Y : Set FileName) : FileStep → Prop
  | create n | write n _ | sync n => n.isScratch = true
  | rename a b => a ∈ Y ∧ b ≠ .manifest

/-- It writes none of the files `X`. -/
def Leaves (X : Set FileName) : FileStep → Prop
  | create n | write n _ | sync n => n ∉ X
  | rename _ _ => True

theorem syncedAfter_mono {Y Z : Set FileName} (h : Y ⊆ Z) (step : FileStep) :
    step.syncedAfter Y ⊆ step.syncedAfter Z := by
  cases step with
  | create n | write n f => exact Set.sdiff_subset_sdiff_left h
  | sync n => exact Set.insert_subset_insert h
  | rename a b => exact h

theorem SyncsFirst.mono {Y Z : Set FileName} {step : FileStep} (hStep : step.SyncsFirst Y)
    (h : Y ⊆ Z) : step.SyncsFirst Z := by
  cases step with
  | create n | write n f | sync n => exact hStep
  | rename a b => exact ⟨h hStep.1, hStep.2⟩

end FileStep

/-- The files that are synced after the operations have succeeded. -/
def syncedAfter (Y : Set FileName) (steps : List FileStep) : Set FileName :=
  steps.foldl FileStep.syncedAfter Y

/-- Every operation is in order. -/
def StepsSyncFirst (Y : Set FileName) : List FileStep → Prop
  | [] => True
  | step :: steps => step.SyncsFirst Y ∧ StepsSyncFirst (step.syncedAfter Y) steps

/-- The operations of the plan are in order when the files `X` are synced, and leave these so. -/
def Plan.SyncsFirst {α : Type} (X : Set FileName) (p : Plan α) : Prop :=
  StepsSyncFirst X p.steps ∧ p.All (FileStep.Leaves X)

section Plans

variable {α β : Type} {X Y Z : Set FileName}

theorem syncedAfter_mono (h : Y ⊆ Z) (steps : List FileStep) :
    syncedAfter Y steps ⊆ syncedAfter Z steps := by
  induction steps generalizing Y Z with
  | nil => exact h
  | cons step steps ih => exact ih (step.syncedAfter_mono h)

theorem StepsSyncFirst.mono {steps : List FileStep} (hSteps : StepsSyncFirst Y steps)
    (h : Y ⊆ Z) : StepsSyncFirst Z steps := by
  induction steps generalizing Y Z with
  | nil => trivial
  | cons step steps ih => exact ⟨hSteps.1.mono h, ih hSteps.2 (step.syncedAfter_mono h)⟩

theorem StepsSyncFirst.append {xs ys : List FileStep} (hXs : StepsSyncFirst Y xs)
    (hYs : StepsSyncFirst (syncedAfter Y xs) ys) : StepsSyncFirst Y (xs ++ ys) := by
  induction xs generalizing Y with
  | nil => exact hYs
  | cons x xs ih => exact ⟨hXs.1, ih hXs.2 hYs⟩

/-- Files that are not written stay synced. -/
theorem subset_syncedAfter (steps : List FileStep) (hXY : X ⊆ Y)
    (h : ∀ step ∈ steps, step.Leaves X) : X ⊆ syncedAfter Y steps := by
  induction steps generalizing Y with
  | nil => exact hXY
  | cons step steps ih =>
    obtain ⟨hHead, hTail⟩ := List.forall_mem_cons.mp h
    refine ih ?_ hTail
    cases step with
    | create n | write n f => exact Set.subset_sdiff_singleton hXY hHead
    | sync n => exact hXY.trans (Set.subset_insert _ _)
    | rename a b => exact hXY

namespace Plan

theorem syncsFirst_pure (a : α) : (pure a : Plan α).SyncsFirst X :=
  ⟨trivial, all_pure a⟩

theorem syncsFirst_fail (e : Error) : (fail e : Plan α).SyncsFirst X :=
  ⟨trivial, all_fail e⟩

theorem syncsFirst_ofFormat (r : Except FormatError α) : (ofFormat r).SyncsFirst X :=
  ⟨trivial, all_ofFormat r⟩

theorem SyncsFirst.bind {p : Plan α} {f : α → Plan β} (hp : p.SyncsFirst X)
    (hf : ∀ a, (f a).SyncsFirst X) : (p >>= f).SyncsFirst X := by
  refine ⟨?_, hp.2.bind fun a _ => (hf a).2⟩
  rcases h : p.result with e | a
  · rw [bind_steps_error h]
    exact hp.1
  · rw [bind_steps h]
    exact hp.1.append ((hf a).1.mono (subset_syncedAfter _ subset_rfl hp.2))

theorem not_mem_of_staged (hX : ∀ n ∈ X, n.isStaged = true) (n : FileName) : .tmp n ∉ X := by
  intro hn
  cases hX _ hn

theorem syncsFirst_writeFinal (hX : ∀ n ∈ X, n.isStaged = true) {n : FileName}
    (hn : n ≠ .manifest) (f : FileData) : (writeFinal n f).SyncsFirst X := by
  refine ⟨⟨rfl, rfl, rfl, ⟨Set.mem_insert _ _, hn⟩, trivial⟩, ?_⟩
  unfold All
  rw [writeFinal_steps]
  simp [FileStep.Leaves, not_mem_of_staged hX n]

/-- A temporary file that was created is written, synced and moved. -/
theorem syncsFirst_finish (hX : ∀ n ∈ X, n.isStaged = true) {n : FileName} (hn : n ≠ .manifest)
    (f : FileData) :
    (emit [.write (.tmp n) f, .sync (.tmp n), .rename (.tmp n) n]).SyncsFirst X := by
  refine ⟨⟨rfl, rfl, ⟨Set.mem_insert _ _, hn⟩, trivial⟩, all_emit ?_⟩
  simp [FileStep.Leaves, not_mem_of_staged hX n]

theorem syncsFirst_create (hX : ∀ n ∈ X, n.isStaged = true) (n : FileName) :
    (emit [.create (.tmp n)]).SyncsFirst X := by
  refine ⟨⟨rfl, trivial⟩, all_emit ?_⟩
  simp [FileStep.Leaves, not_mem_of_staged hX n]

section Segments

variable [Platform] (hX : ∀ n ∈ X, n.isStaged = true)
include hX

theorem syncsFirst_flushSegment (id : UInt32) (acc : SegmentAcc) :
    (flushSegment id acc).SyncsFirst X :=
  (syncsFirst_create hX _).bind fun _ => (syncsFirst_ofFormat _).bind fun _ =>
    (syncsFirst_finish hX (by simp) _).bind fun _ => (syncsFirst_ofFormat _).bind fun _ =>
    (syncsFirst_ofFormat _).bind fun _ => (syncsFirst_writeFinal hX (by simp) _).bind fun _ =>
    syncsFirst_pure _

theorem syncsFirst_flush (st : BuildState) : st.flush.SyncsFirst X :=
  (syncsFirst_flushSegment hX _ _).bind fun _ => syncsFirst_pure _

theorem syncsFirst_buildShards (read : ReadFile) (cfg : BuildConfig) (first : DocId) (i : Nat)
    (st : BuildState) (cs : List (List CrawledFile)) :
    (buildShards read cfg first i st cs).SyncsFirst X := by
  induction cs generalizing i st with
  | nil => exact syncsFirst_pure _
  | cons chunk cs ih =>
    refine SyncsFirst.bind ?_ fun _ => ih _ _
    split
    · exact syncsFirst_flush hX _
    · exact syncsFirst_pure _

theorem syncsFirst_buildBatches (read : ReadFile) (cfg : BuildConfig) (base : DocId) (b : Nat)
    (st : BuildState) (bs : List (List CrawledFile)) :
    (buildBatches read cfg base b st bs).SyncsFirst X := by
  induction bs generalizing b st with
  | nil => exact syncsFirst_pure _
  | cons batch bs ih => exact (syncsFirst_buildShards hX _ _ _ _ _ _).bind fun _ => ih _ _

theorem syncsFirst_buildSegments (read : ReadFile) (files : List CrawledFile) (base : DocId)
    (cfg : BuildConfig) (id : UInt32) :
    (buildSegments read files base cfg id).SyncsFirst X := by
  unfold buildSegments
  split
  · exact syncsFirst_fail _
  refine (syncsFirst_buildBatches hX _ _ _ _ _ _).bind fun st => ?_
  refine SyncsFirst.bind ?_ fun _ => syncsFirst_pure _
  split
  · exact syncsFirst_pure _
  · exact syncsFirst_flush hX _

theorem syncsFirst_buildPlan (w : World) (cfg : BuildConfig) (files : List CrawledFile)
    (prev : Option Index) : (buildPlan w cfg files prev).SyncsFirst X := by
  unfold buildPlan
  split
  exact (syncsFirst_buildSegments hX _ _ _ _ _).bind fun _ => syncsFirst_pure _

theorem syncsFirst_tombstone (s : Segment) (locals : List DocId) :
    (tombstone s locals).SyncsFirst X := by
  unfold tombstone
  rcases setAll s.bitmap locals with ⟨b, changed⟩
  cases changed with
  | false => exact syncsFirst_pure _
  | true =>
    exact (syncsFirst_writeFinal hX (by simp) _).bind fun _ => syncsFirst_pure _

theorem syncsFirst_tombstoneAll (locals : Nat → List DocId) (i : Nat) (ss : List Segment) :
    (tombstoneAll locals i ss).SyncsFirst X := by
  induction ss generalizing i with
  | nil => exact syncsFirst_pure _
  | cons s ss ih =>
    exact (syncsFirst_tombstone hX _ _).bind fun _ => (ih _).bind fun _ => syncsFirst_pure _

theorem syncsFirst_deletePlan (now : Int64) (I : Index) (ids : List DocId) :
    (deletePlan now I ids).SyncsFirst X := by
  unfold deletePlan
  refine (syncsFirst_tombstoneAll hX _ _ _).bind ?_
  rintro ⟨es, retired, changed⟩
  cases changed <;> exact syncsFirst_pure _

theorem syncsFirst_writeOverlay (gen : UInt32) (o : Overlay) :
    (writeOverlay gen o).SyncsFirst X := by
  unfold writeOverlay
  split
  · exact syncsFirst_pure _
  · exact (syncsFirst_ofFormat _).bind fun _ =>
      (syncsFirst_writeFinal hX (by simp) _).bind fun _ => syncsFirst_pure _

theorem syncsFirst_updatePlan (w : World) (cfg : BuildConfig) (I : Index)
    (changes : List Change) : (updatePlan w cfg I changes).SyncsFirst X := by
  unfold updatePlan
  refine SyncsFirst.bind ?_ fun _ => (syncsFirst_tombstoneAll hX _ _ _).bind fun _ =>
    (syncsFirst_writeOverlay hX _ _).bind fun _ => syncsFirst_pure _
  unfold updateSegments
  split
  · exact syncsFirst_pure _
  · exact syncsFirst_buildSegments hX _ _ _ _ _

theorem syncsFirst_finishOne (cur : Index) (p : PreparedMerge) (id base : UInt32)
    (hStaged : ∀ part, .staged p.tag part ∈ X) : (finishOne cur p id base).SyncsFirst X := by
  unfold finishOne
  refine SyncsFirst.bind ⟨?_, all_emit ?_⟩ fun _ => ?_
  · exact ⟨⟨hStaged _, by simp⟩, ⟨hStaged _, by simp⟩, trivial⟩
  · simp [FileStep.Leaves]
  · show Plan.SyncsFirst X (if 0 < (carryBitmap cur p).count then _ else _)
    split
    · exact (syncsFirst_writeFinal hX (by simp) _).bind fun _ => syncsFirst_pure _
    · exact syncsFirst_pure _

theorem syncsFirst_finishAll (cur : Index) (id base : UInt32) (ps : List PreparedMerge)
    (hStaged : ∀ p ∈ ps, ∀ part, .staged p.tag part ∈ X) :
    (finishAll cur id base ps).SyncsFirst X := by
  induction ps generalizing id base with
  | nil => exact syncsFirst_pure _
  | cons p ps ih =>
    obtain ⟨hHead, hTail⟩ := List.forall_mem_cons.mp hStaged
    unfold finishAll
    split
    · exact syncsFirst_fail _
    · exact (syncsFirst_finishOne hX cur p id base hHead).bind fun _ =>
        (ih _ _ hTail).bind fun _ => syncsFirst_pure _

theorem syncsFirst_mergePlan (now : Int64) (cur : Index) (ps : List PreparedMerge)
    (hStaged : ∀ p ∈ ps, ∀ part, .staged p.tag part ∈ X) :
    (mergePlan now cur ps).SyncsFirst X :=
  (syncsFirst_finishAll hX _ _ _ _ hStaged).bind fun _ => syncsFirst_pure _

end Segments

end Plan

end Plans

-- ---------------------------------------------------------------------------
-- Writers
-- ---------------------------------------------------------------------------

section Writers

variable {α : Type} {X Y : Set FileName} {g : SyncState}

/-- Executing the operations of a plan. -/
theorem wp_runSteps_ordered {steps : List FileStep} (hg : g.Keeps Y)
    (hSteps : StepsSyncFirst Y steps) (acc : List FileName) :
    (runSteps acc steps).wp SyncState.contract (fun out g' =>
      (∀ X ⊆ Y, (∀ step ∈ steps, step.Leaves X) → g'.Keeps X) ∧
        (out.2 = .ok () → g'.Keeps (syncedAfter Y steps))) g := by
  induction steps generalizing Y g acc with
  | nil => exact ⟨fun X hXY _ => hg.mono hXY, fun _ => hg⟩
  | cons step steps ih =>
    have hStep : step.issue.wp SyncState.contract (fun r g' =>
        (∀ X ⊆ Y, step.Leaves X → g'.Keeps X) ∧
          (r = .ok () → g'.Keeps (step.syncedAfter Y))) g := by
      have hLose : ∀ n, ∀ X ⊆ Y, n ∉ X → SyncState.Keeps X { g with files := g.files \ {n} } :=
        fun n X hXY hn => ⟨Set.subset_sdiff_singleton (hXY.trans hg.1) hn, hg.2⟩
      cases step with
      | create n | write n f =>
        refine wp_issue (.of_not_renamed hg.2 hSteps.1) fun r => ⟨hLose n, fun _ => ?_⟩
        exact ⟨Set.sdiff_subset_sdiff_left hg.1, hg.2⟩
      | sync n =>
        refine wp_issue (.of_not_renamed hg.2 hSteps.1) fun r => ?_
        cases r with
        | ok u =>
          have hSync : SyncState.Keeps (insert n Y) { g with files := insert n g.files } :=
            ⟨Set.insert_subset_insert hg.1, hg.2⟩
          exact ⟨fun X hXY _ => hSync.mono (hXY.trans (Set.subset_insert _ _)), fun _ => hSync⟩
        | error e => exact ⟨hLose n, fun h => by cases h⟩
      | rename a b =>
        obtain ⟨hA, hB⟩ := hSteps.1
        refine wp_issue (.of_not_renamed hg.2 ⟨hg.1 hA, fun hEq => absurd hEq hB⟩) fun r => ?_
        cases r with
        | ok u => exact ⟨fun X hXY _ => ⟨hXY.trans hg.1, decide_eq_false hB⟩,
            fun _ => ⟨hg.1, decide_eq_false hB⟩⟩
        | error e => exact ⟨fun X hXY _ => hg.mono hXY, fun h => by cases h⟩
    refine Prog.wp_seq hStep ?_
    rintro r g' ⟨hLeaves, hOk⟩
    cases r with
    | ok u =>
      refine Prog.wp_mono (ih (hOk rfl) hSteps.2 _) fun out g'' hOut =>
        ⟨fun X hXY hAll => ?_, hOut.2⟩
      obtain ⟨hHead, hTail⟩ := List.forall_mem_cons.mp hAll
      refine hOut.1 X (subset_syncedAfter [step] hXY ?_) hTail
      simpa using hHead
    | error e =>
      exact ⟨fun X hXY hAll => hLeaves X hXY (hAll step List.mem_cons_self), fun h => by cases h⟩

theorem wp_call_ordered {p : FsM (Except IoError α)} {Q : Except Error α → SyncState → Prop}
    (h : p.wp SyncState.contract (fun r => Q (r.mapError Error.io)) g) :
    (FsE.call p).run.wp SyncState.contract Q g := by
  refine Prog.wp_seq h ?_
  intro r g' hr
  cases r <;> exact hr

/-- The commit protocol: the directory is synced, the manifest is written and synced, and only
then it is moved into place. -/
theorem syncsFirst_commit (hX : ∀ n ∈ X, n.isStaged = true) (m : Manifest)
    (retire : List FileName) : SyncsFirst X (commit m retire).run := by
  intro g hg
  have hKeep : ∀ {g' : SyncState}, X ⊆ g'.files → X ⊆ g'.files \ {.tmp .manifest} := by
    intro g' hFiles n hn
    refine ⟨hFiles hn, ?_⟩
    rintro rfl
    cases hX _ hn
  unfold commit
  refine FsE.wp_bind (P := fun r g' => g'.Keeps X ∧ (r = .ok () → g'.dir = true))
    (wp_call_ordered (wp_issue (.of_not_renamed hg.2 trivial) fun r => ⟨⟨hg.1, rfl⟩, ?_⟩)) ?_
    fun _ _ h => h.1
  · cases r with
    | ok u => exact fun _ => rfl
    | error e => exact fun h => by cases h
  rintro _ g₁ ⟨hg₁, hDir⟩
  have hDir₁ := hDir rfl
  refine FsE.wp_bind (P := fun r g' => g'.Keeps X ∧
    (r = .ok () → g'.dir = true ∧ .tmp .manifest ∈ g'.files)) ?_ ?_ fun _ _ h => h.1
  · unfold writeWhole
    refine FsE.wp_bind (P := fun _ g' => g'.Keeps X ∧ g'.dir = true)
      (wp_call_ordered (wp_issue (.of_not_renamed hg₁.2 rfl) fun _ =>
        ⟨⟨hKeep hg₁.1, hg₁.2⟩, hDir₁⟩)) ?_ fun _ _ h => ⟨h.1, fun h => by cases h⟩
    rintro _ g₂ ⟨hg₂, hDir₂⟩
    refine FsE.wp_bind (P := fun _ g' => g'.Keeps X ∧ g'.dir = true)
      (wp_call_ordered (wp_issue (.of_not_renamed hg₂.2 rfl) fun _ =>
        ⟨⟨hKeep hg₂.1, hg₂.2⟩, hDir₂⟩)) ?_ fun _ _ h => ⟨h.1, fun h => by cases h⟩
    rintro _ g₃ ⟨hg₃, hDir₃⟩
    refine wp_call_ordered (wp_issue (.of_not_renamed hg₃.2 rfl) fun r => ?_)
    cases r with
    | ok u => exact ⟨⟨hg₃.1.trans (Set.subset_insert _ _), hg₃.2⟩,
        fun _ => ⟨hDir₃, Set.mem_insert _ _⟩⟩
    | error e => exact ⟨⟨hKeep hg₃.1, hg₃.2⟩, fun h => by cases h⟩
  rintro _ g₂ ⟨hg₂, hSynced⟩
  obtain ⟨hDir₂, hTmp⟩ := hSynced rfl
  refine FsE.wp_bind (P := fun r g' => X ⊆ g'.files ∧ ∀ e, r = .error e → g'.renamed = false)
    (wp_call_ordered (wp_issue (.of_not_renamed hg₂.2 ⟨hTmp, fun _ => hDir₂⟩) fun r => ?_)) ?_
    fun e _ h => ⟨h.1, h.2 e rfl⟩
  · cases r with
    | ok u => exact ⟨hg₂.1, fun _ h => by cases h⟩
    | error e => exact ⟨hg₂.1, fun _ _ => hg₂.2⟩
  rintro _ g₃ ⟨hFiles, -⟩
  -- The manifest is in place, and the next operation syncs the directory.
  refine FsE.wp_bind (P := fun _ => SyncState.Keeps X)
    (FsE.wp_ofM (wp_issue ⟨fun _ => rfl, trivial⟩ fun _ => ⟨hFiles, rfl⟩)) ?_ fun _ _ h => h
  exact fun _ g₄ hg₄ => (syncsFirst_removeAll retire).ofM g₄ hg₄

/-- A writer. -/
theorem syncsFirst_writeAndCommit (hX : ∀ n ∈ X, n.isStaged = true) {plan : CommitPlan}
    (hPlan : plan.SyncsFirst X) : SyncsFirst X (writeAndCommit plan).run := by
  have hRun : SyncsFirst X (runSteps [] plan.steps) := fun g hg =>
    Prog.wp_mono (wp_runSteps_ordered hg hPlan.1 []) fun out g' hOut =>
      hOut.1 X subset_rfl hPlan.2
  unfold writeAndCommit
  refine hRun.ofM.seq ?_
  rintro ⟨newFiles, written⟩
  refine SyncsFirst.seq ?_ fun r => ?_
  · split
    · exact syncsFirst_ret _
    · exact syncsFirst_ret _
    · exact syncsFirst_ret _
    · exact (syncsFirst_commit hX _ _).attempt
  · cases r with
    | ok u => exact syncsFirst_ret _
    | error e => exact (syncsFirst_removeAll _).ofM.seq fun _ => syncsFirst_ret _

end Writers

-- ---------------------------------------------------------------------------
-- Tasks
-- ---------------------------------------------------------------------------

section Tasks

variable [Platform] {X : Set FileName} {g : SyncState}

theorem syncsFirst_buildIndex (w : World) (cfg : BuildConfig) :
    SyncsFirst ∅ (buildIndex w cfg).run := by
  have hX : ∀ n ∈ (∅ : Set FileName), n.isStaged = true := by simp
  have hBody : SyncsFirst ∅ (withLock do
      let prev ← openIndex
      let files ← FsE.ofExcept w.crawl
      writeAndCommit (buildPlan w cfg files prev)).run :=
    syncsFirst_withLock hX ((syncsFirst_openIndex hX).seq fun prev =>
      SyncsFirst.seq (syncsFirst_ret _) fun files =>
        syncsFirst_writeAndCommit hX (Plan.syncsFirst_buildPlan hX _ _ _ _))
  unfold buildIndex
  split
  · exact syncsFirst_ret _
  · exact (syncsFirst_op (o := .createDirAll) (fun _ => trivial) fun _ _ hg => hg).call.seq
      fun _ => hBody.seq fun _ => syncsFirst_reopen hX

theorem syncsFirst_updateIndex (w : World) (cfg : BuildConfig) :
    SyncsFirst ∅ (updateIndex w cfg).run := by
  have hX : ∀ n ∈ (∅ : Set FileName), n.isStaged = true := by simp
  have hLocked : SyncsFirst ∅ (updateLocked w cfg).run := by
    unfold updateLocked
    refine (syncsFirst_openIndex hX).seq fun prev => ?_
    split
    · rename_i prev
      refine SyncsFirst.seq (syncsFirst_ret _) fun files => ?_
      show SyncsFirst ∅ (if (updateChanges w prev files).isEmpty = true then _ else _ : FsE _).run
      split
      · exact syncsFirst_ret _
      · exact (syncsFirst_writeAndCommit hX (Plan.syncsFirst_updatePlan hX _ _ _ _)).seq
          fun _ => syncsFirst_ret _
    · exact syncsFirst_ret _
  unfold updateIndex
  split
  · exact syncsFirst_ret _
  · refine (syncsFirst_op (o := .createDirAll) (fun _ => trivial) fun _ _ hg => hg).call.seq
      fun _ => (syncsFirst_withLock hX (syncsFirst_openIndex hX)).seq fun previous => ?_
    split
    · exact syncsFirst_buildIndex w cfg
    · refine (syncsFirst_withLock hX hLocked).seq fun r => ?_
      split
      · exact syncsFirst_ret _
      · exact syncsFirst_reopen hX

theorem syncsFirst_deleteDocs (now : Int64) (I : Index) (ids : List DocId) :
    SyncsFirst ∅ (deleteDocs now I ids).run := by
  have hX : ∀ n ∈ (∅ : Set FileName), n.isStaged = true := by simp
  exact (syncsFirst_withLock hX
    (syncsFirst_writeAndCommit hX (Plan.syncsFirst_deletePlan hX now I ids))).seq
      fun _ => syncsFirst_reopen hX

/-- The staged files of prepared merges. -/
def stagedBy (ps : List PreparedMerge) : Set FileName :=
  {n | ∃ p ∈ ps, ∃ part, n = .staged p.tag part}

omit [Platform] in
theorem isStaged_of_stagedBy (ps : List PreparedMerge) :
    ∀ n ∈ stagedBy ps, n.isStaged = true := by
  rintro _ ⟨p, -, part, rfl⟩
  rfl

/-- Preparing a merge leaves its staged files synced, and those of the merges before. -/
theorem wp_prepareMerge_ordered {ps : List PreparedMerge} (hg : g.Keeps (stagedBy ps)) (I : Index)
    (ids : List UInt32) :
    (prepareMerge I ids).run.wp SyncState.contract (fun r g' => g'.renamed = false ∧
      ∀ p, r = .ok p → g'.Keeps (stagedBy (ps ++ [p]))) g := by
  unfold prepareMerge
  split
  · exact ⟨hg.2, fun _ h => by cases h⟩
  rename_i segs _
  refine FsE.wp_bind (P := fun _ => SyncState.Keeps (stagedBy ps))
    (wp_call_ordered (wp_issue (.of_not_renamed hg.2 trivial) fun _ => hg)) ?_
    fun _ _ h => ⟨h.2, fun _ h => by cases h⟩
  intro _ g₁ hg₁
  refine FsE.wp_bind (P := fun _ => SyncState.Keeps (stagedBy ps))
    (FsE.wp_ofM (wp_issue (.of_not_renamed hg₁.2 trivial) fun _ => hg₁)) ?_
    fun _ _ h => ⟨h.2, fun _ h => by cases h⟩
  intro tag g₂ hg₂
  -- The plan only writes the two staged files.
  have hStages := preparePlan_stages tag I ids segs
  have hSteps : ∀ (steps : List FileStep) (Y : Set FileName), (∀ step ∈ steps, step.Stages tag) →
      StepsSyncFirst Y steps := by
    intro steps
    induction steps with
    | nil => exact fun _ _ => trivial
    | cons step steps ih =>
      intro Y hAll
      obtain ⟨hHead, hTail⟩ := List.forall_mem_cons.mp hAll
      refine ⟨?_, ih _ hTail⟩
      cases step with
      | create n | write n f | sync n =>
        obtain ⟨part, rfl⟩ := hHead
        rfl
      | rename a b => exact hHead.elim
  refine FsE.wp_bind (P := fun r g' => g'.renamed = false ∧ ∀ out, r = .ok out →
      out.2 = .ok () → g'.Keeps (syncedAfter (stagedBy ps) (preparePlan tag I ids segs).steps))
    (FsE.wp_ofM (Prog.wp_mono (wp_runSteps_ordered hg₂ (hSteps _ _ hStages) []) ?_)) ?_
    fun _ _ h => ⟨h.1, fun _ h => by cases h⟩
  · intro out g₃ hOut
    refine ⟨(hOut.1 ∅ (Set.empty_subset _) fun step hStep => ?_).2, ?_⟩
    · cases step <;> simp [FileStep.Leaves]
    · rintro _ ⟨⟩
      exact hOut.2
  rintro ⟨newFiles, written⟩ g₃ ⟨hRenamed, hKeeps⟩
  refine FsE.wp_bind (P := fun r g' => g'.renamed = false ∧ (r = .ok () →
      g'.Keeps (syncedAfter (stagedBy ps) (preparePlan tag I ids segs).steps)))
    ⟨hRenamed, fun h => hKeeps _ rfl h⟩ ?_ fun _ _ h => ⟨h.1, fun _ h => by cases h⟩
  rintro _ g₄ ⟨hRenamed, hKeeps⟩
  refine ⟨hRenamed, fun p hRes => (hKeeps rfl).mono ?_⟩
  obtain ⟨x, rfl, rfl, -, hEq⟩ := preparePlan_ok hRes
  rw [hEq]
  rintro _ ⟨q, hq, part, rfl⟩
  simp only [syncedAfter, Plan.writeWhole, Plan.emit_steps, List.foldl_append, List.foldl_cons,
    List.foldl_nil, FileStep.syncedAfter, Set.mem_insert_iff, Set.mem_sdiff,
    Set.mem_singleton_iff, FileName.staged.injEq]
  by_cases hTag : q.tag = x.merge.tag
  · cases part <;> simp [hTag]
  · have hOld : .staged q.tag part ∈ stagedBy ps := by
      rcases List.mem_append.mp hq with hq | hq
      · exact ⟨q, hq, part, rfl⟩
      · exact absurd (congrArg PreparedMerge.tag (List.mem_singleton.mp hq)) hTag
    simp [hTag, hOld]

/-- Preparing merges leaves the staged files of them all synced. -/
theorem wp_prepareAll_ordered {ps : List PreparedMerge} (hg : g.Keeps (stagedBy ps)) (I : Index)
    (groups : List (List UInt32)) :
    (prepareAll I ps groups).run.wp SyncState.contract (fun r g' => g'.renamed = false ∧
      ∀ qs, r = .ok qs → g'.Keeps (stagedBy qs)) g := by
  induction groups generalizing ps g with
  | nil => exact ⟨hg.2, by rintro _ ⟨⟩; exact hg⟩
  | cons ids groups ih =>
    unfold prepareAll
    refine FsE.wp_bind (P := fun r g' => g'.renamed = false ∧ ∀ p, r = .ok (.ok p) →
        g'.Keeps (stagedBy (ps ++ [p]))) (FsE.wp_attempt (Prog.wp_mono
      (wp_prepareMerge_ordered hg I ids) fun r g' hr => ⟨hr.1, fun p h => ?_⟩)) ?_
      fun _ _ h => ⟨h.1, fun _ h => by cases h⟩
    · exact hr.2 p (Except.ok.inj h)
    rintro r g₁ ⟨hRenamed, hOk⟩
    split
    · exact ih (hOk _ rfl)
    · exact ⟨hRenamed, fun _ h => by cases h⟩
    · refine FsE.wp_bind (P := fun _ => SyncState.Keeps ∅) ((syncsFirst_discardAll ps).ofM g₁
        ⟨Set.empty_subset _, hRenamed⟩) (fun _ _ h => ?_) fun _ _ h => ?_
      · exact ⟨h.2, fun _ h => by cases h⟩
      · exact ⟨h.2, fun _ h => by cases h⟩

theorem syncsFirst_commitMerges (now : Int64) (ps : List PreparedMerge) :
    SyncsFirst (stagedBy ps) (commitMerges now ps).run := by
  have hX := isStaged_of_stagedBy ps
  unfold commitMerges
  split
  · refine (syncsFirst_openIndex hX).seq fun r => ?_
    split <;> exact syncsFirst_ret _
  · refine SyncsFirst.seq (syncsFirst_withLock hX ?_) fun _ => syncsFirst_reopen hX
    refine (syncsFirst_openIndex hX).attempt.seq fun r => ?_
    split
    · exact syncsFirst_writeAndCommit hX (Plan.syncsFirst_mergePlan hX _ _ _
        fun p hp part => ⟨p, hp, part, rfl⟩)
    · exact (syncsFirst_discardAll _).ofM.seq fun _ => syncsFirst_ret _
    · exact (syncsFirst_discardAll _).ofM.seq fun _ => syncsFirst_ret _

/-- Every task syncs before it moves files into place, whatever its operations return. -/
theorem Task.wp_ordered (t : Task) (hg : g.renamed = false) :
    t.program.wp SyncState.contract (fun _ g' => g'.renamed = false) g := by
  have hKeeps : g.Keeps ∅ := ⟨Set.empty_subset _, hg⟩
  have hPlain : ∀ {α : Type} {p : FsM α}, SyncsFirst ∅ p →
      (p >>= fun _ => Prog.ret ()).wp SyncState.contract (fun _ g' => g'.renamed = false) g :=
    fun hp => Prog.wp_seq (hp g hKeeps) fun _ _ h => h.2
  cases t with
  | build w cfg => exact hPlain (syncsFirst_buildIndex w cfg)
  | update w cfg => exact hPlain (syncsFirst_updateIndex w cfg)
  | merge now snapshot groups =>
    refine Prog.wp_seq (M := fun _ g' => g'.renamed = false) ?_ ?_
    swap
    · exact fun _ g' h => h
    have hNone : g.Keeps (stagedBy []) := by
      refine ⟨?_, hg⟩
      rintro _ ⟨_, hMem, -⟩
      cases hMem
    refine FsE.wp_bind (wp_prepareAll_ordered hNone snapshot groups) ?_ fun _ _ h => h.1
    intro qs g₁ h
    exact Prog.wp_mono (syncsFirst_commitMerges now qs g₁ (h.2 qs rfl)) fun _ _ h => h.2
  | openIndex => exact hPlain (syncsFirst_openIndex (by simp))

end Tasks

end Ripindex
