import Ripindex.Store.MergeIndex
import Ripindex.Store.Schedule

/-!
# Merges that are given up

`commitMerges` owns the merges it is given. Where it fails before it renames the manifest,
two mechanisms tidy up: `discardAll` removes the staged files where the index cannot be
opened under the lock, and the list of new files is removed where a later operation fails.
Neither runs where the lock is not obtained, and the second leaves the files that were not
yet moved.

## Results

* `mergeSteps_of_mem` — what a merge does before its commit;
* `abort_leaves_nothing` — when a failed merge leaves nothing behind.
-/

namespace Ripindex

variable [Platform]

-- ---------------------------------------------------------------------------
-- The steps of a merge
-- ---------------------------------------------------------------------------

/-- An operation of a merge before its commit: a staged file is moved into place, or the file
of the carried deletions is written. -/
def FileStep.OfMerge (prepared : List PreparedMerge) (step : FileStep) : Prop :=
  (∃ p ∈ prepared, ∃ id, step = .rename (.staged p.tag .idx) (.idx id) ∨
    step = .rename (.staged p.tag .doc) (.doc id)) ∨
  ∃ id b, step ∈ (Plan.writeFinal (.del id 1) (.del b)).steps

omit [Platform] in
theorem FileStep.OfMerge.mono {ps qs : List PreparedMerge} {step : FileStep}
    (h : step.OfMerge ps) (hSub : ∀ p ∈ ps, p ∈ qs) : step.OfMerge qs := by
  rcases h with ⟨p, hp, h⟩ | h
  · exact .inl ⟨p, hSub p hp, h⟩
  · exact .inr h

theorem ofMerge_finishOne {cur : Index} {p : PreparedMerge} {id base : UInt32} {step : FileStep}
    (h : step ∈ (finishOne cur p id base).steps) : step.OfMerge [p] := by
  have hSteps : (finishOne cur p id base).steps =
      [.rename (.staged p.tag .idx) (.idx id), .rename (.staged p.tag .doc) (.doc id)] ++
        (if 0 < (carryBitmap cur p).count then do
          Plan.writeFinal (.del id 1) (.del (carryBitmap cur p))
          pure ((p.entry id base).withDel (carryBitmap cur p))
        else pure (p.entry id base) : Plan SegmentEntry).steps := rfl
  rw [hSteps] at h
  rcases List.mem_append.mp h with h | h
  · simp only [List.mem_cons, List.not_mem_nil, or_false] at h
    exact .inl ⟨p, List.mem_cons_self, id, h⟩
  · split at h
    · rw [Plan.bind_steps rfl, Plan.pure_steps, List.append_nil] at h
      exact .inr ⟨id, _, h⟩
    · cases h

theorem ofMerge_finishAll {cur : Index} {id base : UInt32} {ps : List PreparedMerge}
    {step : FileStep} (h : step ∈ (finishAll cur id base ps).steps) : step.OfMerge ps := by
  induction ps generalizing id base with
  | nil => cases h
  | cons p ps ih =>
    unfold finishAll at h
    split at h
    · cases h
    · rcases hRes : (finishOne cur p id base).result with e | e
      · rw [Plan.bind_steps_error hRes] at h
        exact (ofMerge_finishOne h).mono (by simp)
      · rw [Plan.bind_steps hRes] at h
        rcases List.mem_append.mp h with h | h
        · exact (ofMerge_finishOne h).mono (by simp)
        · have hRest : step ∈ (finishAll cur (id + 1) (base + e.numDocs) ps).steps := by
            rcases hNext : (finishAll cur (id + 1) (base + e.numDocs) ps).result with e' | a
            · rwa [Plan.bind_steps_error hNext] at h
            · rw [Plan.bind_steps hNext, Plan.pure_steps, List.append_nil] at h
              exact h
          exact (ih hRest).mono fun q hq => List.mem_cons_of_mem p hq

theorem ofMerge_mergePlan {now : Int64} {cur : Index} {prepared : List PreparedMerge}
    {step : FileStep} (h : step ∈ (mergePlan now cur prepared).steps) : step.OfMerge prepared := by
  unfold mergePlan at h
  simp only at h
  rcases hRes : (finishAll cur cur.manifest.nextSegmentId
      (UInt32.ofNat (Index.endBound cur.manifest.segments)) prepared).result with e | a
  · rw [Plan.bind_steps_error hRes] at h
    exact ofMerge_finishAll h
  · rw [Plan.bind_steps hRes, Plan.pure_steps, List.append_nil] at h
    exact ofMerge_finishAll h

section Steps

omit [Platform]

variable {prepared : List PreparedMerge} {step : FileStep} {n : FileName}

/-- A new file of a merge is in the index directory, and no manifest. -/
theorem FileStep.OfMerge.newFile (h : step.OfMerge prepared) (hn : step.newFile = some n) :
    n.isStaged = false ∧ n ≠ .manifest ∧ n ≠ .tmp .manifest := by
  rcases h with ⟨p, -, id, rfl | rfl⟩ | ⟨id, b, h⟩
  · cases hn
    exact ⟨rfl, by simp, by simp⟩
  · cases hn
    exact ⟨rfl, by simp, by simp⟩
  · simp only [Plan.writeFinal_steps, List.mem_cons, List.not_mem_nil, or_false] at h
    rcases h with rfl | rfl | rfl | rfl <;> cases hn <;> exact ⟨rfl, by simp, by simp⟩

/-- Only temporary files are torn. -/
theorem FileStep.OfMerge.tears (h : step.OfMerge prepared) (hn : n ∈ step.tears) :
    ∃ m, n = .tmp m := by
  rcases h with ⟨p, -, id, rfl | rfl⟩ | ⟨id, b, h⟩
  · cases hn
  · cases hn
  · simp only [Plan.writeFinal_steps, List.mem_cons, List.not_mem_nil, or_false] at h
    rcases h with rfl | rfl | rfl | rfl
    · cases hn
    · exact ⟨_, List.mem_singleton.mp hn⟩
    · exact ⟨_, List.mem_singleton.mp hn⟩
    · cases hn

/-- What a merge touches is new or temporary, or it is moved from the staging directory. -/
theorem FileStep.OfMerge.touches (h : step.OfMerge prepared) (hn : n ∈ step.touches) :
    step.newFile = some n ∨ (∃ m, n = .tmp m) ∨ (n.isStaged = true ∧ ∃ b, step = .rename n b) := by
  rcases h with ⟨p, -, id, rfl | rfl⟩ | ⟨id, b, h⟩
  · simp only [FileStep.touches, List.mem_cons, List.not_mem_nil, or_false] at hn
    rcases hn with rfl | rfl
    · exact .inr (.inr ⟨rfl, _, rfl⟩)
    · exact .inl rfl
  · simp only [FileStep.touches, List.mem_cons, List.not_mem_nil, or_false] at hn
    rcases hn with rfl | rfl
    · exact .inr (.inr ⟨rfl, _, rfl⟩)
    · exact .inl rfl
  · simp only [Plan.writeFinal_steps, List.mem_cons, List.not_mem_nil, or_false] at h
    rcases h with rfl | rfl | rfl | rfl <;>
      simp only [FileStep.touches, List.mem_cons, List.not_mem_nil, or_false] at hn
    · exact .inr (.inl ⟨_, hn⟩)
    · exact .inr (.inl ⟨_, hn⟩)
    · rcases hn with rfl | rfl
      · exact .inr (.inl ⟨_, rfl⟩)
      · exact .inl rfl

/-- A staged file is there until it is moved. -/
theorem mem_after_staged {steps : List FileStep} {d : Dir}
    (h : ∀ step ∈ steps, step.OfMerge prepared) (hn : n.isStaged = true) :
    n ∈ after d steps ↔ n ∈ d ∧ ∀ b, .rename n b ∉ steps := by
  induction steps generalizing d with
  | nil => simp
  | cons step steps ih =>
    obtain ⟨hStep, hRest⟩ := List.forall_mem_cons.mp h
    show n ∈ after (step.apply d) steps ↔ _
    rw [ih hRest]
    by_cases hMoves : ∃ b, step = .rename n b
    · obtain ⟨b, rfl⟩ := hMoves
      have hNe : n ≠ b := by
        rintro rfl
        have hNew := (hStep.newFile rfl).1
        rw [hn] at hNew
        cases hNew
      have hGone : n ∉ FileStep.apply d (.rename n b) := by
        rw [← AList.lookup_eq_none]
        rcases hFile : d.lookup n with _ | f
        · show (Dir.rename d n b).lookup n = none
          unfold Dir.rename
          rw [hFile]
          exact hFile
        · exact (Dir.lookup_rename hFile n).trans (by rw [if_neg hNe, if_pos rfl])
      exact iff_of_false (fun hBoth => hGone hBoth.1) fun hBoth =>
        hBoth.2 b List.mem_cons_self
    · have hTouch : n ∉ step.touches := by
        intro hTouch
        rcases hStep.touches hTouch with hNew | ⟨m, rfl⟩ | ⟨-, hMove⟩
        · rw [(hStep.newFile hNew).1] at hn
          cases hn
        · cases hn
        · exact hMoves hMove
      have hSame : n ∈ step.apply d ↔ n ∈ d := by
        rw [Dir.mem_iff_lookup, Dir.mem_iff_lookup, FileStep.lookup_apply hTouch]
      rw [hSame]
      refine and_congr_right fun _ => forall_congr' fun b => ?_
      rw [List.mem_cons, not_or]
      exact ⟨fun hNot => ⟨fun hEq => hMoves ⟨b, hEq.symm⟩, hNot⟩, And.right⟩

end Steps

-- ---------------------------------------------------------------------------
-- What is left
-- ---------------------------------------------------------------------------

/-- A call leaves the index on disk as it was in `d`, no file that it put into the index
directory, and no staged file of its merges. -/
structure NothingLeft (prepared : List PreparedMerge) (d : Dir) (t : Trial) : Prop where
  index : t.fs.dir.openIndex = d.openIndex
  made : ∀ n ∈ t.made, n.isStaged = false → n ∉ t.fs.dir
  staged : ∀ p ∈ prepared, ∀ part, FileName.staged p.tag part ∉ t.fs.dir

/-- The first operation of a plan that fails comes behind the moves of all staged files, and
not behind the creation of the temporary manifest; and no new file has a name of the current
index, which takes an id that wrapped. -/
structure FailsLate (F : Schedule) (plan : CommitPlan) (prepared : List PreparedMerge)
    (cur : Index) (d : Dir) (i : Nat) : Prop where
  moved : ∀ p ∈ prepared, ∀ part, FileName.staged p.tag part ∈ d →
    ∃ b, .rename (.staged p.tag part) b ∈ F.done plan d i
  early : ¬ F.CreatesTmp plan d i
  fresh : ∀ n ∈ F.pushed plan d i, n ∉ referencedFiles cur.manifest

/-- The lock is free, and the attempt to take it does not fail. -/
def Schedule.CanLock (F : Schedule) (s : FsState) : Prop := s.lock = none ∧ F.lock 0 = false

/-- When a merge that fails leaves nothing. -/
structure AbortsCleanly (now : Int64) (prepared : List PreparedMerge) (F : Schedule)
    (s : FsState) : Prop where
  locked : ¬ F.CanLock s → ∀ p ∈ prepared, ∀ part, FileName.staged p.tag part ∉ s.dir
  opened : prepared ≠ [] → F.CanLock s → ∀ cur, s.dir.openIndex = .ok (some cur) →
    (∀ i ≤ (referencedFiles cur.manifest).length, F.read i = false) →
      FailsLate F (mergePlan now cur prepared) prepared cur s.dir 0

variable {F : Schedule} {c : Pid} {prepared : List PreparedMerge} {now : Int64}

omit [Platform] in
theorem FileName.isStaged_of_isData {n : FileName} (h : n.isData) : n.isStaged = false := by
  cases n with
  | staged tag part => cases h
  | _ => rfl

omit [Platform] in
theorem sameIndex_of_unstaged {d d' : Dir}
    (h : ∀ n, n.isStaged = false → d'.lookup n = d.lookup n) : d.SameIndex d' := by
  exact ⟨h _ rfl, fun m _ n hn =>
    h n (FileName.isStaged_of_isData (Index.isData_of_mem_referencedFiles hn))⟩

omit [Platform] in
theorem removeAll_append (ns ms : List FileName) :
    removeAll (ns ++ ms) = removeAll ns >>= fun _ => removeAll ms := by
  induction ns with
  | nil => rfl
  | cons n ns ih =>
    show (Prog.op (FsOp.remove n) >>= fun _ => removeAll (ns ++ ms)) = _
    rw [ih]
    rfl

omit [Platform] in
theorem discardAll_eq (prepared : List PreparedMerge) :
    discardAll prepared =
      removeAll (prepared.flatMap fun p => [.staged p.tag .idx, .staged p.tag .doc]) := by
  induction prepared with
  | nil => rfl
  | cons p ps ih =>
    rw [List.flatMap_cons, removeAll_append, ← ih]
    rfl

omit [Platform] in
theorem mem_stagedFiles {n : FileName} :
    n ∈ prepared.flatMap (fun p => [FileName.staged p.tag .idx, .staged p.tag .doc]) ↔
      ∃ p ∈ prepared, ∃ part, n = .staged p.tag part := by
  simp only [List.mem_flatMap, List.mem_cons, List.not_mem_nil, or_false]
  refine exists_congr fun p => and_congr_right fun _ => ⟨?_, ?_⟩
  · rintro (rfl | rfl)
    · exact ⟨.idx, rfl⟩
    · exact ⟨.doc, rfl⟩
  · rintro ⟨_ | _, rfl⟩
    · exact .inl rfl
    · exact .inr rfl

/-- Releasing the lock leaves what is there. -/
theorem nothingLeft_release {d : Dir} {t : Trial} :
    NothingLeft prepared d { t with fs := t.fs.release c } ↔ NothingLeft prepared d t := by
  have hDir : (t.fs.release c).dir = t.fs.dir := FsState.release_dir t.fs c
  constructor
  · rintro ⟨hIndex, hMade, hStaged⟩
    simp only [hDir] at hIndex hMade hStaged
    exact ⟨hIndex, hMade, hStaged⟩
  · rintro ⟨hIndex, hMade, hStaged⟩
    refine ⟨?_, ?_, ?_⟩
    all_goals simp only [hDir]
    · exact hIndex
    · exact hMade
    · exact hStaged

section Abandoned

variable {plan : CommitPlan} {cur : Index} {t t' : Trial} {n : FileName}

omit [Platform] in
/-- A file that a merge creates is in the index directory, and no manifest. -/
theorem mem_newFiles_ofMerge {steps : List FileStep}
    (hStep : ∀ step ∈ steps, step.OfMerge prepared) (hn : n ∈ newFiles steps) :
    n.isStaged = false ∧ n ≠ .manifest ∧ n ≠ .tmp .manifest := by
  obtain ⟨step, hMem, hEq⟩ := List.mem_filterMap.mp hn
  exact (hStep step hMem).newFile hEq

omit [Platform] in
theorem mem_pushed_ofMerge {d : Dir} {i : Nat} (hStep : ∀ step ∈ plan.steps, step.OfMerge prepared)
    (hn : n ∈ F.pushed plan d i) : n.isStaged = false ∧ n ≠ .manifest ∧ n ≠ .tmp .manifest :=
  mem_newFiles_ofMerge (fun step hMem => hStep step (List.mem_of_mem_take hMem)) hn

omit [Platform] in
theorem mem_pushed_of_done {d : Dir} {i : Nat} {step : FileStep} (hMem : step ∈ F.done plan d i)
    (hEq : step.newFile = some n) : n ∈ F.pushed plan d i :=
  List.mem_filterMap.mpr
    ⟨step, (List.take_sublist_take_left (Nat.le_succ _)).subset hMem, hEq⟩

omit [Platform] in
/-- A file that is not temporary and not new is as the performed operations leave it. -/
theorem lookup_abandoned (hStep : ∀ step ∈ plan.steps, step.OfMerge prepared)
    (h : F.Abandoned plan t t') (hn : n ∉ F.pushed plan t.fs.dir t.changes)
    (hTmp : ∀ m, n ≠ .tmp m) :
    t'.fs.dir.lookup n = (after t.fs.dir (F.done plan t.fs.dir t.changes)).lookup n := by
  refine h.kept n hn (hTmp _) fun step hMem hTear => ?_
  obtain ⟨m, hEq⟩ := (hStep step hMem).tears hTear
  exact hTmp m hEq

omit [Platform] in
/-- A staged file stays unless it was moved. -/
theorem mem_staged_abandoned (hStep : ∀ step ∈ plan.steps, step.OfMerge prepared)
    (h : F.Abandoned plan t t') (tag : StagingTag) (part : SegmentPart) :
    FileName.staged tag part ∈ t'.fs.dir ↔ FileName.staged tag part ∈ t.fs.dir ∧
      ∀ b, .rename (.staged tag part) b ∉ F.done plan t.fs.dir t.changes := by
  have hNot : FileName.staged tag part ∉ F.pushed plan t.fs.dir t.changes := fun hMem => by
    cases (mem_pushed_ofMerge hStep hMem).1
  have hDone : ∀ step ∈ F.done plan t.fs.dir t.changes, step.OfMerge prepared :=
    fun step hMem => hStep step (List.mem_of_mem_take hMem)
  rw [← mem_after_staged hDone rfl, Dir.mem_iff_lookup, Dir.mem_iff_lookup,
    lookup_abandoned hStep h hNot fun m => by rintro ⟨⟩]

omit [Platform] in
/-- The manifest and a file that it names are as before, unless a new file has the name. -/
theorem lookup_abandoned_of_named {m : Manifest}
    (hStep : ∀ step ∈ plan.steps, step.OfMerge prepared) (h : F.Abandoned plan t t')
    (hFresh : ∀ n ∈ F.pushed plan t.fs.dir t.changes, n ∉ referencedFiles m)
    (hn : n = .manifest ∨ n ∈ referencedFiles m) :
    t'.fs.dir.lookup n = t.fs.dir.lookup n := by
  have hTmp : ∀ m, n ≠ .tmp m := by
    rintro m rfl
    rcases hn with hn | hn
    · cases hn
    · cases Index.isData_of_mem_referencedFiles hn
  have hUnstaged : n.isStaged = false := by
    rcases hn with rfl | hn
    · rfl
    · exact FileName.isStaged_of_isData (Index.isData_of_mem_referencedFiles hn)
  have hNotPushed : n ∉ F.pushed plan t.fs.dir t.changes := by
    rcases hn with rfl | hn
    · exact fun hMem => (mem_pushed_ofMerge hStep hMem).2.1 rfl
    · exact fun hMem => hFresh n hMem hn
  rw [lookup_abandoned hStep h hNotPushed hTmp]
  refine lookup_after fun step hMem hTouch => ?_
  rcases (hStep step (List.mem_of_mem_take hMem)).touches hTouch with
    hNewFile | ⟨m, hEq⟩ | ⟨hStaged, -⟩
  · exact hNotPushed (mem_pushed_of_done hMem hNewFile)
  · exact hTmp m hEq
  · rw [hUnstaged] at hStaged
    cases hStaged

/-- What a merge leaves that fails behind its opening of the index. -/
theorem nothingLeft_iff_failsLate (hStep : ∀ step ∈ plan.steps, step.OfMerge prepared)
    (hOpen : t.fs.dir.openIndex = .ok (some cur)) (hMade : t.made = [])
    (h : F.Abandoned plan t t') :
    NothingLeft prepared t.fs.dir t' ↔ FailsLate F plan prepared cur t.fs.dir t.changes := by
  constructor
  · intro hLeft
    refine ⟨fun p hp part hMem => ?_, fun hTmp => ?_, fun n hn hRef => ?_⟩
    · by_contra hNone
      exact hLeft.staged p hp part ((mem_staged_abandoned hStep h _ _).mpr
        ⟨hMem, fun b hb => hNone ⟨b, hb⟩⟩)
    · have hTmpNot : FileName.tmp .manifest ∉ newFiles plan.steps :=
        fun hMem => (mem_newFiles_ofMerge hStep hMem).2.2 rfl
      exact hLeft.made _ ((h.made _).mpr (.inr (.inr ⟨hTmp, rfl⟩))) rfl (h.tmp hTmp hTmpNot)
    · -- A removed file that the manifest names is missed by the index.
      have hBacked : cur.Backed t'.fs.dir := openIndex_ok_iff.mp (hLeft.index.trans hOpen)
      exact h.removed n hn (hBacked.mem_of_referenced hRef)
  · intro hLate
    have hBacked := openIndex_ok_iff.mp hOpen
    refine ⟨?_, fun n hn _ => ?_, fun p hp part hMem => ?_⟩
    · rw [hOpen, openIndex_ok_iff]
      exact hBacked.of_agree (lookup_abandoned_of_named hStep h hLate.fresh (.inl rfl))
        fun n hn => lookup_abandoned_of_named hStep h hLate.fresh (.inr hn)
    · -- What was put in place is among the files that are removed.
      rcases (h.made n).mp hn with hn | hn | ⟨hTmp, -⟩
      · rw [hMade] at hn
        cases hn
      · obtain ⟨step, hMem, hEq⟩ := List.mem_filterMap.mp hn
        exact h.removed n (mem_pushed_of_done hMem hEq)
      · exact absurd hTmp hLate.early
    · obtain ⟨hOld, hNone⟩ := (mem_staged_abandoned hStep h _ _).mp hMem
      obtain ⟨b, hb⟩ := hLate.moved p hp part hOld
      exact hNone b hb

end Abandoned

/-- Discarded merges leave nothing. -/
theorem run_discard {e : Error} {r : Except Error Unit} {t t' : Trial} (hMade : t.made = [])
    (h : F.run c (do
      FsE.ofM (discardAll prepared)
      throw e : FsE Unit) t = (r, t')) : r = .error e ∧ NothingLeft prepared t.fs.dir t' := by
  rw [discardAll_eq] at h
  obtain ⟨d, hEval, hLookup⟩ := eval_removeAll_scheduled (F := F) (c := c)
    (prepared.flatMap fun p => [.staged p.tag .idx, .staged p.tag .doc]) t
  rw [Schedule.run_bind, Schedule.run_ofM, hEval] at h
  obtain ⟨rfl, rfl⟩ := Prod.mk.inj h
  refine ⟨rfl, (sameIndex_of_unstaged fun n hn => ?_).openIndex_eq, ?_, fun p hp part => ?_⟩
  · rw [FsState.withDir_dir, hLookup, if_neg]
    intro hMem
    obtain ⟨p, -, part, rfl⟩ := mem_stagedFiles.mp hMem
    cases hn
  · show ∀ n ∈ t.made, _
    rw [hMade]
    exact fun n hn => absurd hn List.not_mem_nil
  · rw [← AList.lookup_eq_none]
    exact (hLookup _).trans (if_pos (mem_stagedFiles.mpr ⟨p, hp, part, rfl⟩))

/-- What fails under the lock leaves nothing exactly if it finds no index or fails late. -/
theorem run_commitLocked_scheduled {t t' : Trial} {r : Except Error Unit}
    (hLock : t.fs.lock ≠ none) (hReads : t.reads = 0) (hMade : t.made = [])
    (h : F.run c (commitLocked now prepared) t = (r, t')) :
    ((∃ e, r = .error e) ∧
      (NothingLeft prepared t.fs.dir t' ↔ ∀ cur, t.fs.dir.openIndex = .ok (some cur) →
        (∀ i ≤ (referencedFiles cur.manifest).length, F.read i = false) →
          FailsLate F (mergePlan now cur prepared) prepared cur t.fs.dir t.changes)) ∨
      (r = .ok () ∧ .manifest ∈ t'.made) := by
  obtain ⟨i, j, r₀, hOpen, hIff⟩ := run_openIndex_held (F := F) (c := c) hLock
  simp only [hReads, Nat.zero_add] at hIff
  unfold commitLocked at h
  rw [Schedule.run_bind, Schedule.run_attempt, hOpen] at h
  -- Without an index the merges are discarded.
  have hNone : ∀ e, (∀ cur, r₀ ≠ .ok (some cur)) → F.run c (do
        FsE.ofM (discardAll prepared)
        throw e : FsE Unit) { t with locks := t.locks + i, reads := t.reads + j } = (r, t') →
      (∃ e, r = .error e) ∧
      (NothingLeft prepared t.fs.dir t' ↔ ∀ cur, t.fs.dir.openIndex = .ok (some cur) →
        (∀ i ≤ (referencedFiles cur.manifest).length, F.read i = false) →
          FailsLate F (mergePlan now cur prepared) prepared cur t.fs.dir t.changes) := by
    intro e hNot hRun
    obtain ⟨hErr, hLeft⟩ := run_discard
      (t := { t with locks := t.locks + i, reads := t.reads + j }) hMade hRun
    refine ⟨⟨e, hErr⟩, iff_of_true hLeft fun cur hCur hClear => ?_⟩
    exact absurd ((hIff cur).mpr ⟨hCur, hClear⟩) (hNot cur)
  rcases r₀ with e | _ | cur
  · exact .inl (hNone e (fun cur => by simp) h)
  · exact .inl (hNone .noIndex (fun cur => by simp) h)
  · obtain ⟨hCur, hClear⟩ := (hIff cur).mp rfl
    rcases Schedule.run_writeAndCommit_scheduled h with ⟨hErr, hEnd⟩ | ⟨hOk, hDone⟩
    · refine .inl ⟨hErr, (nothingLeft_iff_failsLate (fun _ => ofMerge_mergePlan)
        (t := { t with locks := t.locks + i, reads := t.reads + j }) hCur hMade hEnd).trans
          ⟨?_, fun hAll => ?_⟩⟩
      · intro hLate J hJ _
        obtain rfl : cur = J := by simpa using hCur.symm.trans hJ
        exact hLate
      · exact hAll cur hCur hClear
    · refine .inr ⟨hOk, hDone.resolve_left fun hRes => ?_⟩
      obtain ⟨m, retire, hEq, -⟩ := mergePlan_commits hRes
      cases hEq

/-- A merge that fails before it renames the manifest leaves nothing behind exactly if it
obtains the lock, or had no staged files, and its first operation that fails comes late
enough. -/
theorem abort_leaves_nothing (now : Int64) (prepared : List PreparedMerge) (F : Schedule)
    (c : Pid) (s : FsState) {e : Error} {t' : Trial}
    (hRun : F.run c (commitMerges now prepared) (.start s) = (.error e, t'))
    (hNot : .manifest ∉ t'.made) :
    NothingLeft prepared s.dir t' ↔ AbortsCleanly now prepared F s := by
  by_cases hNe : prepared = []
  · -- Nothing to merge: the index is opened.
    subst hNe
    have hQuiet : Schedule.Quiet (.start s) t' := by
      obtain rfl := (congrArg Prod.snd hRun).symm
      refine Schedule.quiet_bind (Schedule.quiet_openIndex (.start s)) fun r t₁ _ => ?_
      rcases r with _ | I <;> exact .refl _
    refine iff_of_true ⟨hQuiet.same.openIndex_eq, fun n hn => ?_, fun _ hp => ?_⟩
      ⟨fun _ _ hp => ?_, fun h => absurd rfl h⟩
    · rw [hQuiet.made] at hn
      cases hn
    · cases hp
    · cases hp
  rw [commitMerges_eq now hNe] at hRun
  rcases Schedule.run_takeLock F c (.start s) with
    ⟨hFree, hLock, t₁, hTake, hFs, hReads, hChanges, hMade⟩ | ⟨hCannot, e', k, hTake⟩
  · rcases hBody : F.run c (commitLocked now prepared) t₁ with ⟨r, t₂⟩
    have hHeld : t₁.fs.lock ≠ none := by
      rw [hFs]
      exact Option.some_ne_none c
    rcases run_commitLocked_scheduled hHeld hReads hMade hBody with ⟨⟨e', rfl⟩, hEnd⟩ | ⟨rfl, hDone⟩
    · rw [Schedule.run_bind_error (Schedule.run_withLock hTake hBody)] at hRun
      obtain ⟨-, rfl⟩ := Prod.mk.inj hRun
      rw [hFs, hChanges] at hEnd
      rw [nothingLeft_release]
      constructor
      · intro hLeft
        exact ⟨fun hCannot => absurd ⟨hFree, hLock⟩ hCannot, fun _ _ => hEnd.mp hLeft⟩
      · exact fun hClean => hEnd.mpr (hClean.opened hNe ⟨hFree, hLock⟩)
    · -- The manifest was renamed.
      rw [Schedule.run_bind_ok (Schedule.run_withLock hTake hBody)] at hRun
      have hQuiet := Schedule.quiet_reopen (F := F) (c := c)
        { t₂ with fs := t₂.fs.release c }
      rw [hRun] at hQuiet
      refine absurd ?_ hNot
      rw [hQuiet.made]
      exact hDone
  · -- The lock is not obtained: nothing changes.
    have hWith : F.run c (withLock (commitLocked now prepared)) (.start s) = _ :=
      Schedule.run_bind_error hTake
    rw [Schedule.run_bind_error hWith] at hRun
    obtain ⟨-, rfl⟩ := Prod.mk.inj hRun
    constructor
    · exact fun hLeft => ⟨fun _ => hLeft.staged, fun _ hCan => absurd hCan hCannot⟩
    · exact fun hClean => ⟨rfl, fun n hn => absurd hn List.not_mem_nil, hClean.locked hCannot⟩

-- ---------------------------------------------------------------------------
-- A source that is gone
-- ---------------------------------------------------------------------------

/-- A merge of segment 0. -/
def orphanMerge : PreparedMerge where
  sourceIds := [0]
  snapshotDelGen := [(0, 0)]
  oldToNew := ∅
  numDocs := 0
  tag := ⟨1, 0⟩
  idxCrc := 0
  idxLen := 0
  counts := ⟨0, 0, 0⟩
  docCrc := 0
  docLen := 0

/-- An index without segments, and the staged files of the merge. -/
def orphanDir : Dir :=
  AList.insert (.staged ⟨1, 0⟩ .idx) .torn (AList.insert (.staged ⟨1, 0⟩ .doc) .torn
    (AList.insert .manifest (manifestFile
      { generation := 1
        nextSegmentId := 1
        committedUnixNanos := 0
        stateGen := 0
        stateCrc := 0
        stateLen := 0
        segments := [] }) ∅))

omit [Platform] in
/-- If the manifest cannot be read the merge is discarded. -/
theorem abort_leaves_nothing_unreadable : ∃ _ : Platform, NothingLeft [orphanMerge] orphanDir
    (Schedule.run ⟨fun _ => false, fun _ => true, fun _ => false⟩ 0
      (commitMerges 0 [orphanMerge]) (.start ⟨orphanDir, none, 0⟩)).2 := by
  refine ⟨Platform.reference, ?_⟩
  let _ := Platform.reference
  have hFails : (Schedule.run ⟨fun _ => false, fun _ => true, fun _ => false⟩ 0
      (commitMerges 0 [orphanMerge]) (.start ⟨orphanDir, none, 0⟩)).1.isOk = false := by
    decide +kernel
  rcases hRes : (Schedule.run ⟨fun _ => false, fun _ => true, fun _ => false⟩ 0
      (commitMerges 0 [orphanMerge]) (.start ⟨orphanDir, none, 0⟩)).1 with e | I
  · refine (abort_leaves_nothing 0 [orphanMerge] _ 0 _ (Prod.ext hRes rfl)
      (by decide +kernel)).mpr ⟨fun hNot => absurd ⟨rfl, rfl⟩ hNot, fun _ _ cur _ hClear => ?_⟩
    exact absurd (hClear 0 (Nat.zero_le _)) (by decide)
  · rw [hRes] at hFails
    cases hFails

omit [Platform] in
/-- Where a source is no longer listed the staged files stay. -/
theorem missing_source_leaves_staged : ∃ _ : Platform, ¬ ∀ (now : Int64)
    (prepared : List PreparedMerge) (F : Schedule) (c : Pid) (s : FsState) (e : Error)
    (t' : Trial), F.run c (commitMerges now prepared) (.start s) = (.error e, t') →
      .manifest ∉ t'.made → NothingLeft prepared s.dir t' := by
  refine ⟨Platform.reference, fun hAll => ?_⟩
  let _ := Platform.reference
  have hFails : (Schedule.run ⟨fun _ => false, fun _ => false, fun _ => false⟩ 0
      (commitMerges 0 [orphanMerge]) (.start ⟨orphanDir, none, 0⟩)).1.isOk = false := by
    decide +kernel
  rcases hRes : (Schedule.run ⟨fun _ => false, fun _ => false, fun _ => false⟩ 0
      (commitMerges 0 [orphanMerge]) (.start ⟨orphanDir, none, 0⟩)).1 with e | I
  · have hLeft := hAll 0 [orphanMerge] _ 0 _ e _ (Prod.ext hRes rfl) (by decide +kernel)
    exact hLeft.staged orphanMerge List.mem_cons_self .idx (by decide +kernel)
  · rw [hRes] at hFails
    cases hFails

end Ripindex
