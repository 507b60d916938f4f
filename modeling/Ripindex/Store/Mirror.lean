import Ripindex.Store.MergeIndex
import Ripindex.Store.Patches
import Ripindex.Store.Reconcile

/-!
# An update mirrors the crawl

`update_index` carries out the plan of `reconcile` under the lock. On a directory that
operations lead to, an update that returns an index leaves that index on disk, and its rows are
those that a build of the crawled files would record, unless a hard link is in the way.

## Results

* `run_updateIndex_ok`    — what an update that succeeds has committed;
* `rows_of_gives_iff`     — when its rows are those of the crawl;
* `updateIndex_converges` — they are when no inode is shared with a crawled path.
-/

namespace Ripindex

section Update

variable [Platform] {w : World} {cfg : BuildConfig} {I J : Index} {files : List CrawledFile}
  {was : DocId → FileKind × ByteArray} {now : CrawledFile → ByteArray} {c : Pid}
  {s s' : FsState}

-- ---------------------------------------------------------------------------
-- Carrying a plan out
-- ---------------------------------------------------------------------------

/-- A plan that gives an index, on a directory where its files can be moved. -/
theorem run_writeAndCommit_gives {plan : CommitPlan} {prev : Option Index}
    {staged : List (FileName × FileData)} {retire : List FileName}
    (hGives : plan.Gives prev staged J retire) (hHolds : s.dir.Holds prev)
    (hStaged : ∀ f ∈ staged, s.dir.lookup f.1 = some f.2) (hRun : Runnable s.dir plan.steps) :
    ∃ d, FsE.runAlone c (writeAndCommit plan) s = (.ok (), s.withDir d) ∧ d.Holds (some J) := by
  obtain ⟨d, hOk, hLookup⟩ := run_writeAndCommit (c := c) hRun hGives.result
  have hBacked := hGives.backed s.dir (fun I hI => by
    obtain rfl := Option.mem_def.mp hI
    exact hHolds) hStaged
  have hAgree : ∀ n, n = .manifest ∨ n ∈ referencedFiles J.manifest →
      d.lookup n = (s.dir.committed plan.steps J.manifest).lookup n := by
    intro n hn
    rw [hLookup, if_neg]
    intro hMem
    obtain ⟨hData, hNot⟩ := hGives.retire_data n hMem
    rcases hn with rfl | hn
    · cases hData
    · exact hNot hn
  exact ⟨d, hOk, hBacked.of_agree (hAgree _ (.inl rfl)) fun n hn => hAgree n (.inr hn)⟩

omit [Platform] in
theorem FileStep.Over.spares {prev : Option Index} {staged : List FileName} {step : FileStep}
    (h : step.Over prev staged) (hStaged : ∀ n ∈ staged, n.isStaged = true) :
    step.SparesManifest := by
  unfold FileStep.SparesManifest
  cases step with
  | create n | write n _ | sync n =>
    obtain ⟨m, rfl⟩ := h
    simp [FileStep.touches]
  | rename a b =>
    obtain ⟨hFrom, -, hData⟩ := h
    have hB := (FileName.ne_manifest_of_isData hData).1
    have hA : a ≠ .manifest := by
      rintro rfl
      rcases hFrom with ⟨m, hEq⟩ | hMem
      · cases hEq
      · cases hStaged _ hMem
    simp [FileStep.touches, hA.symm, hB.symm]

/-- An update that found something to change ends in a commit. -/
theorem updatePlan_ne_none (changes : List Change) :
    (updatePlan w cfg I changes).result ≠ .ok none := by
  intro h
  unfold updatePlan at h
  obtain ⟨_, -, h⟩ := Plan.bind_ok.mp h
  obtain ⟨_, -, h⟩ := Plan.bind_ok.mp h
  obtain ⟨_, -, h⟩ := Plan.bind_ok.mp h
  simp at h

/-- The plan of an update that runs to its end is carried out. -/
theorem run_updatePlan_ok {changes : List Change} {u : Unit} (hHolds : s.dir.Holds (some I))
    (hSound : I.Sound) (hRoom : UpdateRoom w cfg I changes)
    (hRun : FsE.runAlone c (writeAndCommit (updatePlan w cfg I changes)) s = (.ok u, s')) :
    ∃ J retire, (updatePlan w cfg I changes).Gives (some I) [] J retire ∧
      s'.dir.Holds (some J) := by
  have hGives : ∀ {m retire}, (updatePlan w cfg I changes).result = .ok (some (m, retire)) →
      ∃ J, (updatePlan w cfg I changes).Gives (some I) [] J retire := fun hRes => by
    obtain ⟨segs, hOk, -, -, hGives⟩ := updatePlan_gives hSound hRes hRoom
    exact ⟨_, hGives⟩
  obtain ⟨m, retire, hRes⟩ : ∃ m retire,
      (updatePlan w cfg I changes).result = .ok (some (m, retire)) := by
    rcases run_writeAndCommit_cases (c := c) ((updatePlan_all hRoom []).mono fun step hStep =>
      hStep.spares (by simp)) (fun m retire hRes hMem => by
        obtain ⟨J, hJ⟩ := hGives hRes
        cases (hJ.retire_data _ hMem).1) s with ⟨-, hNone⟩ | ⟨m, retire, hRes, -⟩
    · exact absurd (hNone (by rw [hRun])) (updatePlan_ne_none changes)
    · exact ⟨m, retire, hRes⟩
  obtain ⟨J, hJ⟩ := hGives hRes
  obtain ⟨segs, -, -, -, -, hInstalls⟩ := updatePlan_ok hRes
  have hRunnable : Runnable s.dir (updatePlan w cfg I changes).steps := by
    rw [show (updatePlan w cfg I changes).steps = _ from hInstalls]
    exact runnable_installs _ _
  obtain ⟨d, hOk, hHolds'⟩ := run_writeAndCommit_gives (c := c) hJ hHolds (by simp) hRunnable
  obtain ⟨-, rfl⟩ := Prod.mk.inj (hRun.symm.trans hOk)
  exact ⟨J, retire, hJ, hHolds'⟩

/-- The part of an update under its second lock. -/
theorem run_updateLocked_ok {r : Option Index} (hHolds : s.dir.Holds (some I)) (hSound : I.Sound)
    (hCrawl : w.crawl = .ok files)
    (hRoom : (updateChanges w I files).isEmpty = false →
      UpdateRoom w cfg I (updateChanges w I files).changes)
    (hRun : FsE.runAlone c (updateLocked w cfg) s = (.ok r, s')) :
    ((updateChanges w I files).isEmpty = true ∧ r = some I ∧ s'.dir.Holds (some I)) ∨
      (updateChanges w I files).isEmpty = false ∧ r = none ∧ ∃ J retire,
        (updatePlan w cfg I (updateChanges w I files).changes).Gives (some I) [] J retire ∧
        s'.dir.Holds (some J) := by
  obtain ⟨s₁, hOpen, hHolds₁⟩ := run_openIndex_of_backed (c := c) hHolds
  unfold updateLocked at hRun
  rw [FsE.runAlone_bind_ok hOpen] at hRun
  simp only [hCrawl] at hRun
  change FsE.runAlone c (if (updateChanges w I files).isEmpty then pure (some I)
    else writeAndCommit (updatePlan w cfg I (updateChanges w I files).changes) >>=
      fun _ => pure none) s₁ = _ at hRun
  cases hEmpty : (updateChanges w I files).isEmpty with
  | true =>
    rw [hEmpty, if_pos rfl, FsE.runAlone_pure] at hRun
    obtain ⟨hRes, rfl⟩ := Prod.mk.inj hRun
    exact .inl ⟨rfl, (Except.ok.inj hRes).symm, hHolds₁⟩
  | false =>
    rw [hEmpty, if_neg Bool.false_ne_true] at hRun
    refine .inr ⟨rfl, ?_⟩
    rw [FsE.runAlone_bind] at hRun
    rcases hWrite : FsE.runAlone c
      (writeAndCommit (updatePlan w cfg I (updateChanges w I files).changes)) s₁ with ⟨e | u, s₂⟩
    · rw [hWrite] at hRun
      cases hRun
    · rw [hWrite] at hRun
      obtain ⟨hRes, rfl⟩ := Prod.mk.inj hRun
      refine ⟨(Except.ok.inj hRes).symm, ?_⟩
      exact run_updatePlan_ok hHolds₁ hSound (hRoom hEmpty) hWrite

/-- An update of an index that returns an index: the index is as it was and nothing had to
change, or it is what the plan of the update gives. -/
theorem run_updateIndex_ok (hHolds : s.dir.Holds (some I)) (hSound : I.Sound)
    (hCrawl : w.crawl = .ok files)
    (hRoom : (updateChanges w I files).isEmpty = false →
      UpdateRoom w cfg I (updateChanges w I files).changes)
    (hRun : FsE.runAlone c (updateIndex w cfg) s = (.ok J, s')) :
    s'.dir.Holds (some J) ∧
      (((updateChanges w I files).isEmpty = true ∧ J = I) ∨
        (updateChanges w I files).isEmpty = false ∧ ∃ retire,
          (updatePlan w cfg I (updateChanges w I files).changes).Gives (some I) [] J retire) := by
  unfold updateIndex at hRun
  cases hRoot : w.rootIsDir with
  | false =>
    rw [hRoot] at hRun
    cases hRun
  | true =>
    rw [hRoot] at hRun
    have hCreate : FsE.runAlone c (FsE.call (Prog.op FsOp.createDirAll)) s = (.ok (), s) := rfl
    simp only [Bool.not_true, Bool.false_eq_true, if_false] at hRun
    rw [FsE.runAlone_bind_ok hCreate, FsE.runAlone_bind] at hRun
    rcases hLock : FsE.runAlone c (withLock openIndex) s with ⟨e | prev, s₁⟩
    · rw [hLock] at hRun
      cases hRun
    · rw [hLock] at hRun
      -- There is an index.
      obtain ⟨-, s₂, hOpen, rfl⟩ := run_withLock_ok hLock
      obtain ⟨s₃, hOpen', hHolds₃⟩ := run_openIndex_of_backed (c := c)
        (s := { s with lock := some c }) hHolds
      obtain ⟨hPrev, rfl⟩ := Prod.mk.inj (hOpen.symm.trans hOpen')
      obtain rfl := Except.ok.inj hPrev
      have hHolds₁ : (s₂.release c).dir.Holds (some I) := by
        rw [FsState.release_dir]
        exact hHolds₃
      simp only [Option.isNone_some, Bool.false_eq_true, if_false] at hRun
      rw [FsE.runAlone_bind] at hRun
      rcases hSecond : FsE.runAlone c (withLock (updateLocked w cfg)) (s₂.release c)
        with ⟨e | r, s₄⟩
      · rw [hSecond] at hRun
        cases hRun
      · rw [hSecond] at hRun
        obtain ⟨-, s₅, hBody, rfl⟩ := run_withLock_ok hSecond
        rcases run_updateLocked_ok (s := { s₂.release c with lock := some c }) hHolds₁ hSound
          hCrawl hRoom hBody with ⟨hEmpty, rfl, hHolds₅⟩ | ⟨hEmpty, rfl, K, retire, hGives, hHolds₅⟩
        · obtain ⟨hRes, rfl⟩ := Prod.mk.inj hRun
          obtain rfl := Except.ok.inj hRes
          refine ⟨?_, .inl ⟨hEmpty, rfl⟩⟩
          rw [FsState.release_dir]
          exact hHolds₅
        · rw [← FsState.release_dir s₅ c] at hHolds₅
          obtain ⟨s₆, hReopen, hHolds₆⟩ := run_reopen_of_backed (c := c) hHolds₅
          obtain ⟨hRes, rfl⟩ := Prod.mk.inj (hRun.symm.trans hReopen)
          obtain rfl := Except.ok.inj hRes
          exact ⟨hHolds₆, .inr ⟨hEmpty, retire, hGives⟩⟩

/-- When an update leaves exactly the rows of the crawled files. -/
theorem rows_of_gives_iff {retire : List FileName} {d : Dir} (hI : I.Backed d) (hSound : I.Sound)
    (hLt : I.PatchesLt) (hRoom : UpdateRoom w cfg I (updateChanges w I files).changes)
    (hPaths : (I.docs.map fun d => d.2.path).Nodup)
    (hFiles : (files.map fun cf => cf.entry.path).Nodup)
    (hObs : Observed w I.rows files was now)
    (hGives : (updatePlan w cfg I (updateChanges w I files).changes).Gives (some I) [] J retire) :
    (J.rows.map Prod.snd).Perm (files.map (rowOf w.indexRead)) ↔
      LinksRenewed I.rows (StateIndex.fromDocs I.docs) w.reconcileRead files := by
  obtain ⟨segs, hOk, hAmends, -, hGives'⟩ := updatePlan_gives hSound hGives.result hRoom
  have hPrev : ∀ L ∈ some I, L.Backed d := by
    intro L hL
    obtain rfl := Option.some.inj hL
    exact hI
  obtain rfl := hGives.unique hGives' hPrev (by simp)
  rw [rows_updatedIndex hAmends hLt (fun p hp => patch_lt_of_change (mem_patchesOf.mp hp)) hOk,
    List.map_append, List.map_map, map_snd_numbered]
  exact rows_updateChanges_iff hPaths hFiles hObs

/-- An update leaves exactly the rows of the crawled files. -/
theorem rows_of_gives {retire : List FileName} {d : Dir} (hI : I.Backed d) (hSound : I.Sound)
    (hLt : I.PatchesLt) (hRoom : UpdateRoom w cfg I (updateChanges w I files).changes)
    (hPaths : (I.docs.map fun d => d.2.path).Nodup)
    (hFiles : (files.map fun cf => cf.entry.path).Nodup)
    (hObs : Observed w I.rows files was now) (hMoved : NoneShadowed I.rows files)
    (hGives : (updatePlan w cfg I (updateChanges w I files).changes).Gives (some I) [] J retire) :
    (J.rows.map Prod.snd).Perm (files.map (rowOf w.indexRead)) :=
  (rows_of_gives_iff hI hSound hLt hRoom hPaths hFiles hObs hGives).mpr
    (hMoved.linksRenewed hPaths _)

/-- With nothing to change the rows are those of before. -/
theorem rows_of_isEmpty_iff (hPaths : (I.docs.map fun d => d.2.path).Nodup)
    (hFiles : (files.map fun cf => cf.entry.path).Nodup)
    (hObs : Observed w I.rows files was now) (hEmpty : (updateChanges w I files).isEmpty = true) :
    (I.rows.map Prod.snd).Perm (files.map (rowOf w.indexRead)) ↔
      LinksRenewed I.rows (StateIndex.fromDocs I.docs) w.reconcileRead files := by
  have hNil : (updateChanges w I files).changes = [] := List.isEmpty_iff.mp hEmpty
  have hIff := rows_updateChanges_iff hPaths hFiles hObs
  rw [hNil] at hIff
  simpa [deletesOf, patchesOf, toIndexOf, lastPatch, DocRow.patched] using hIff

namespace Operation

/-- What directories hold is a matter of runs, however an operation got there. -/
theorem Run.of_gives {op : Operation} {prev : Option Index} {retire : List FileName}
    {d d' : Dir} (hRun : Run Fits d) (hHolds : d.Holds prev) (hFits : op.Fits prev)
    (hStaged : ∀ f ∈ op.staged, d.lookup f.1 = some f.2)
    (hGives : (op.plan prev).Gives prev op.staged J retire) (hHolds' : d'.Holds (some J)) :
    Run Fits d' := by
  obtain ⟨d₁, hCommits, hHolds₁⟩ := op.commits_of_gives hHolds hStaged hGives
  exact .other (.commit hRun hFits hCommits) hHolds₁ hHolds'

end Operation

-- ---------------------------------------------------------------------------
-- A rename
-- ---------------------------------------------------------------------------

/-- Under a lock opening changes nothing. -/
theorem run_openIndex_locked (hHolds : s.dir.Holds (some I)) (hLock : s.lock ≠ none) :
    FsE.runAlone c openIndex s = (.ok (some I), s) := by
  have hRead : FsE.runAlone c (readAndSweep false) s = (readManifest.eval s.dir, s) := by
    unfold readAndSweep
    rw [FsE.runAlone_bind, run_ofRead]
    rcases readManifest.eval s.dir with e | _ | m <;> rfl
  have hOnce : FsE.runAlone c openOnce s = (.ok (some I), s) := by
    unfold openOnce
    rw [FsE.runAlone_bind, FsE.runAlone_ofM]
    simp only [Prog.eval_op, FsOp.exec, Bool.false_eq_true, if_false, if_neg hLock]
    show FsE.runAlone c (FsE.attempt (readAndSweep false) >>= fun r =>
      FsE.ofExcept r >>= _) s = _
    rw [FsE.runAlone_bind, FsE.runAlone_attempt, hRead]
    refine (run_load (d := s.dir) (.refl _)).trans ?_
    rw [openIndex_ok_iff.mpr hHolds]
  show FsE.runAlone c (openAttempts none maxAttempts) s = _
  unfold maxAttempts openAttempts
  rw [FsE.runAlone_bind, FsE.runAlone_attempt, hOnce]
  rfl

/-- Opening with the lock free leaves it free. -/
theorem run_openIndex_free (hHolds : s.dir.Holds (some I)) (hFree : s.lock = none) :
    ∃ d, FsE.runAlone c openIndex s = (.ok (some I), s.withDir d) ∧ d.Holds (some I) := by
  obtain ⟨d, hSweep, hSame⟩ := run_readAndSweep (c := c) true { s with lock := some c }
  have hHolds' : d.Holds (some I) := Index.Backed.of_same hHolds hSame
  have hRelease : (({ s with lock := some c } : FsState).withDir d).release c = s.withDir d := by
    unfold FsState.release
    rw [FsState.withDir_lock, if_pos rfl, ← hFree]
    rfl
  refine ⟨d, ?_, hHolds'⟩
  have hOnce : FsE.runAlone c openOnce s = (.ok (some I), s.withDir d) := by
    unfold openOnce
    rw [FsE.runAlone_bind, FsE.runAlone_ofM]
    simp only [Prog.eval_op, FsOp.exec, Bool.false_eq_true, if_false, if_pos hFree]
    show FsE.runAlone c (FsE.attempt (readAndSweep true) >>= fun r =>
      FsE.ofM (Prog.op FsOp.unlock) >>= fun _ => FsE.ofExcept r >>= _)
        { s with lock := some c } = _
    rw [FsE.runAlone_bind, FsE.runAlone_attempt, hSweep]
    show FsE.runAlone c (FsE.ofExcept (readManifest.eval s.dir) >>= _)
      (({ s with lock := some c } : FsState).withDir d |>.release c) = _
    rw [hRelease]
    refine (run_load (d := s.dir) (s := s.withDir d) hSame).trans ?_
    rw [FsState.withDir_dir, openIndex_ok_iff.mpr hHolds']
  show FsE.runAlone c (openAttempts none maxAttempts) s = _
  unfold maxAttempts openAttempts
  rw [FsE.runAlone_bind, FsE.runAlone_attempt, hOnce]
  rfl

omit [Platform] in
/-- Releasing a lock that was free before it was taken. -/
theorem release_of_free (hFree : s.lock = none) (d : Dir) :
    (FsState.mk d (some c) s.tags).release c = s.withDir d := by
  unfold FsState.release
  rw [if_pos rfl, ← hFree]
  rfl

/-- An update that finds something to change, with a plan that can be made, commits it. -/
theorem run_updateIndex_gives {retire : List FileName} (hFree : s.lock = none)
    (hHolds : s.dir.Holds (some I)) (hRoot : w.rootIsDir = true) (hCrawl : w.crawl = .ok files)
    (hEmpty : (updateChanges w I files).isEmpty = false)
    (hGives : (updatePlan w cfg I (updateChanges w I files).changes).Gives (some I) [] J retire) :
    ∃ s', FsE.runAlone c (updateIndex w cfg) s = (.ok J, s') := by
  obtain ⟨segs, -, -, -, -, hInstalls⟩ := updatePlan_ok hGives.result
  have hRunnable (d : Dir) : Runnable d
      (updatePlan w cfg I (updateChanges w I files).changes).steps := by
    rw [show (updatePlan w cfg I (updateChanges w I files).changes).steps = _ from hInstalls]
    exact runnable_installs _ _
  -- The lock is free between its two uses, and at the end.
  have hFirst : FsE.runAlone c (withLock openIndex) s = (.ok (some I), s) := by
    rw [run_withLock, if_pos hFree,
      run_openIndex_locked (s := { s with lock := some c }) hHolds (Option.some_ne_none c)]
    exact Prod.ext rfl (release_of_free hFree s.dir)
  obtain ⟨d₁, hWrite, hHolds₁⟩ := run_writeAndCommit_gives (c := c)
    (s := { s with lock := some c }) hGives hHolds (by simp) (hRunnable s.dir)
  have hBody : FsE.runAlone c (updateLocked w cfg) { s with lock := some c } =
      (.ok none, FsState.mk d₁ (some c) s.tags) := by
    unfold updateLocked
    rw [FsE.runAlone_bind_ok (run_openIndex_locked (s := { s with lock := some c }) hHolds
      (Option.some_ne_none c)), hCrawl]
    change FsE.runAlone c (if (updateChanges w I files).isEmpty then pure (some I)
      else writeAndCommit (updatePlan w cfg I (updateChanges w I files).changes) >>=
        fun _ => pure none) { s with lock := some c } = _
    rw [hEmpty, if_neg Bool.false_ne_true, FsE.runAlone_bind_ok hWrite]
    rfl
  have hSecond : FsE.runAlone c (withLock (updateLocked w cfg)) s =
      (.ok none, s.withDir d₁) := by
    rw [run_withLock, if_pos hFree, hBody]
    exact Prod.ext rfl (release_of_free hFree d₁)
  obtain ⟨s', hReopen, -⟩ := run_reopen_of_backed (c := c) (s := s.withDir d₁) hHolds₁
  refine ⟨s', ?_⟩
  have hCreate : FsE.runAlone c (FsE.call (Prog.op FsOp.createDirAll)) s = (.ok (), s) := rfl
  unfold updateIndex
  simp only [hRoot, Bool.not_true, Bool.false_eq_true, if_false]
  rw [FsE.runAlone_bind_ok hCreate, FsE.runAlone_bind_ok hFirst]
  simp only [Option.isNone_some, Bool.false_eq_true, if_false]
  rw [FsE.runAlone_bind_ok hSecond]
  exact hReopen

-- ---------------------------------------------------------------------------
-- The whole update
-- ---------------------------------------------------------------------------

/-- What an update that returns an index leaves. -/
theorem rows_updateIndex_iff (hRun : Operation.Run Operation.Fits s.dir)
    (hHolds : s.dir.Holds (some I)) (hFits : (Operation.update w cfg files).Fits (some I))
    (hCrawl : w.crawl = .ok files) (hPaths : (I.docs.map fun d => d.2.path).Nodup)
    (hFiles : (files.map fun cf => cf.entry.path).Nodup)
    (hObs : Observed w I.rows files was now)
    (hOk : FsE.runAlone c (updateIndex w cfg) s = (.ok J, s')) :
    ((J.rows.map Prod.snd).Perm (files.map (rowOf w.indexRead)) ↔
      LinksRenewed I.rows (StateIndex.fromDocs I.docs) w.reconcileRead files) ∧
      s'.dir.openIndex = .ok (some J) ∧ Operation.Run Operation.Fits s'.dir := by
  have hSound := hRun.sound hHolds
  have hPrev : ∀ K ∈ some I, K.Sound := by
    rintro _ ⟨⟩
    exact hSound
  have hRoom : UpdateRoom w cfg I (updateChanges w I files).changes :=
    Operation.Fits.hasRoom hFits hPrev
  obtain ⟨hHolds', hCase⟩ := run_updateIndex_ok hHolds hSound hCrawl (fun _ => hRoom) hOk
  refine ⟨?_, openIndex_ok_iff.mpr hHolds', ?_⟩
  · rcases hCase with ⟨hEmpty, rfl⟩ | ⟨hEmpty, retire, hGives⟩
    · exact rows_of_isEmpty_iff hPaths hFiles hObs hEmpty
    · exact rows_of_gives_iff hHolds hSound (hRun.patches_lt hHolds) hRoom hPaths hFiles hObs
        hGives
  · rcases hCase with ⟨hEmpty, rfl⟩ | ⟨hEmpty, retire, hGives⟩
    · exact .other hRun hHolds hHolds'
    · have hPlan : (Operation.update w cfg files).plan (some I) =
          updatePlan w cfg I (updateChanges w I files).changes := by
        rw [Operation.plan, hEmpty, if_neg Bool.false_ne_true]
      exact Operation.Run.of_gives hRun hHolds hFits (by simp [Operation.staged])
        (hPlan.symm ▸ hGives) hHolds'

/-- An update that returns an index returns one whose documents are those of the crawl, each
with what a build records of it, and leaves it on disk. This needs that every file reads, that
neither metadata nor hashes deceive, and that no file at a new path has the inode of a
document whose path is crawled as well. -/
theorem updateIndex_converges (hRun : Operation.Run Operation.Fits s.dir)
    (hHolds : s.dir.Holds (some I)) (hFits : (Operation.update w cfg files).Fits (some I))
    (hCrawl : w.crawl = .ok files) (hPaths : (I.docs.map fun d => d.2.path).Nodup)
    (hFiles : (files.map fun cf => cf.entry.path).Nodup)
    (hObs : Observed w I.rows files was now) (hMoved : NoneShadowed I.rows files)
    (hOk : FsE.runAlone c (updateIndex w cfg) s = (.ok J, s')) :
    (J.rows.map Prod.snd).Perm (files.map (rowOf w.indexRead)) ∧
      s'.dir.openIndex = .ok (some J) ∧ Operation.Run Operation.Fits s'.dir := by
  obtain ⟨hIff, hRest⟩ := rows_updateIndex_iff hRun hHolds hFits hCrawl hPaths hFiles hObs hOk
  exact ⟨hIff.mpr (hMoved.linksRenewed hPaths _), hRest⟩

/-- What a build of the files gives. -/
theorem rows_of_built {prev : Option Index} {retire : List FileName} {d : Dir}
    (hPrev : ∀ L ∈ prev, L.Backed d) (hRoom : BuildRoom w cfg files prev)
    (hGives : (buildPlan w cfg files prev).Gives prev [] J retire) :
    J.rows = numbered 0 (files.map (rowOf w.indexRead)) := by
  obtain ⟨segs, hOk, hTiles, hTilesRoom, -, hGives'⟩ :=
    Operation.buildPlan_tiles hGives.result hRoom
  obtain rfl := hGives.unique hGives' hPrev (by simp)
  exact rows_builtIndex hTiles hTilesRoom hOk

omit [Platform] in
/-- The world of `oneWorld` after the rename. -/
def movedWorld : World := { oneWorld with crawl := .ok [oneFile "b"] }

/-- A first build of one file. -/
structure BuiltOne (I : Index) (seg : Segment) (d : Dir) : Prop where
  build : SingleBuild oneWorld [oneFile "a"] I seg
  fits : (Operation.build oneWorld mixedConfig [oneFile "a"]).Fits none
  commits : (Operation.build oneWorld mixedConfig [oneFile "a"]).Commits none ∅ d
  holds : d.Holds (some I)
  rows : I.rows = [(0, rowOf oneWorld.indexRead (oneFile "a"))]
  next : I.manifest.nextSegmentId = 1

omit [Platform] in
theorem exists_builtOne :
    let _ := Platform.reference
    ∃ I seg d, BuiltOne I seg d := by
  intro _
  have hRoom : BuildRoom oneWorld mixedConfig [oneFile "a"] none :=
    ⟨by decide +kernel, by decide +kernel, by decide +kernel⟩
  obtain ⟨I, seg, retire, hBuild, hGives⟩ := SingleBuild.exists_gives
    (by decide +kernel) hRoom (by decide +kernel)
  have hEmpty : Dir.Holds ∅ none := AList.lookup_empty _
  obtain ⟨d, hCommits, hHolds⟩ := Operation.commits_of_gives
    (.build oneWorld mixedConfig [oneFile "a"]) hEmpty (by simp [Operation.staged]) hGives
  refine ⟨I, seg, d, hBuild, hRoom, hCommits, hHolds,
    rows_of_built (d := ∅) (by simp) hRoom hGives, ?_⟩
  obtain ⟨segs, hOk, -, -, -, hGives'⟩ := Operation.buildPlan_tiles hGives.result hRoom
  obtain rfl := hGives.unique hGives' (d := ∅) (by simp) (by simp)
  obtain rfl : segs = [seg] := hBuild.segments
  rfl

namespace BuiltOne

variable {seg : Segment} {d : Dir}

theorem run (h : BuiltOne I seg d) {A : Operation → Option Index → Prop}
    (hA : A (.build oneWorld mixedConfig [oneFile "a"]) none) : Operation.Run A d :=
  .commit .empty hA h.commits

theorem observed (h : BuiltOne I seg d) :
    Observed movedWorld I.rows [oneFile "b"] (fun _ => (.binary, ∅)) (fun _ => ∅) := by
  rw [h.rows]
  refine ⟨by simp [oneFile], ?_, by simp [oneFile], by simp⟩
  intro e he
  rw [List.mem_singleton.mp he]
  exact body_rowOf (by simp [oneFile])

theorem noneShadowed (h : BuiltOne I seg d) : NoneShadowed I.rows [oneFile "b"] := by
  rw [h.rows]
  intro cf hcf _ e he _
  rw [List.mem_singleton.mp he]
  simp [oneFile, rowOf, recorded, DocMeta.fromEntry]

theorem paths (h : BuiltOne I seg d) : (I.docs.map fun d => d.2.path).Nodup := by
  rw [docs_of_singleBuild h.build]
  simp

theorem changes (h : BuiltOne I seg d) :
    (updateChanges movedWorld I [oneFile "b"]).changes = [.patch renamePatch] :=
  updateChanges_renamed h.build

theorem isEmpty (h : BuiltOne I seg d) :
    (updateChanges movedWorld I [oneFile "b"]).isEmpty = false := by
  rw [Reconciled.isEmpty, h.changes]
  rfl

theorem updateFits (h : BuiltOne I seg d) :
    (Operation.update movedWorld mixedConfig [oneFile "b"]).Fits (some I) := by
  obtain ⟨-, -, -, -, -, hRoom, -⟩ := exists_renamed h.build
  rw [Operation.Fits, h.changes]
  exact ⟨hRoom.docs, hRoom.ids, hRoom.del, hRoom.overlay, hRoom.generation⟩

theorem exists_updated (h : BuiltOne I seg d) : ∃ J retire,
    (updatePlan movedWorld mixedConfig I
      (updateChanges movedWorld I [oneFile "b"]).changes).Gives (some I) [] J retire ∧
      J.segments = [seg] ∧ J.manifest.generation = 2 := by
  obtain ⟨J, retire, hGives, hSegs, -, -, hGen⟩ := exists_renamed h.build
  refine ⟨J, retire, ?_, hSegs, hGen⟩
  rw [h.changes]
  exact hGives

end BuiltOne

omit [Platform] in
/-- A file that was renamed between a build and an update is found under its new path only. -/
theorem updateIndex_converges_renamed : ∃ _ : Platform, ∃ s J s',
    FsE.runAlone 0 (updateIndex movedWorld mixedConfig) s = (.ok J, s') ∧
      (J.rows.map Prod.snd).Perm ([oneFile "b"].map (rowOf movedWorld.indexRead)) ∧
      s'.dir.openIndex = .ok (some J) ∧ Operation.Run Operation.Fits s'.dir := by
  refine ⟨Platform.reference, ?_⟩
  let _ := Platform.reference
  obtain ⟨I, seg, d, h⟩ := exists_builtOne
  obtain ⟨J, retire, hGives, -, -⟩ := h.exists_updated
  obtain ⟨s', hOk⟩ := run_updateIndex_gives (c := 0) (s := ⟨d, none, 0⟩) rfl h.holds rfl rfl
    h.isEmpty hGives
  exact ⟨⟨d, none, 0⟩, J, s', hOk, updateIndex_converges (h.run h.fits) h.holds h.updateFits rfl
    h.paths (by simp) h.observed h.noneShadowed hOk⟩

end Update

end Ripindex
