import Ripindex.Store.Counts
import Ripindex.Store.Sequential

/-!
# Deleting through an old handle

`delete_docs` takes the writer lock but computes its manifest from the handle it is given.
`Follows h Ks cur` says that since `h` was opened the indexes `Ks` were committed, the last
of which is `cur`. `KeepsCommits` says what a deletion then owes to them.

## Results

* `run_deleteDocs_ok` — what a deletion that succeeds leaves on disk;
* `deleteDocs_keeps_iff` — it keeps the commits exactly when there were none.
-/

namespace Ripindex

-- ---------------------------------------------------------------------------
-- Locating after a deletion
-- ---------------------------------------------------------------------------

section Locate

variable [Platform]

omit [Platform] in
/-- A located id is inside its segment. -/
theorem lt_of_locateFrom {id l : DocId} {i j : Nat} {s : Segment} {segs : List Segment}
    (h : Index.locateFrom id i segs = some (j, s, l)) : l < s.entry.numDocs := by
  induction segs generalizing i with
  | nil => cases h
  | cons t segs ih =>
    rw [Index.locateFrom] at h
    split_ifs at h with hEnd hBase
    · exact ih h
    · obtain ⟨-, rfl, rfl⟩ : i = j ∧ t = s ∧ id - t.entry.baseDoc = l := by simpa using h
      have hLe := UInt32.not_lt.mp hBase
      rw [SegmentEntry.endDoc] at hEnd
      rw [UInt32.lt_iff_toNat_lt, UInt32.toNat_sub_of_le _ _ hLe]
      have := UInt32.le_iff_toNat_le.mp hLe
      omega

/-- Tombstones move no document. -/
theorem locateFrom_tombstonedAll (locals : Nat → List DocId) (id : DocId) (i : Nat)
    (segs : List Segment) :
    Index.locateFrom id i (tombstonedAll locals i segs) =
      (Index.locateFrom id i segs).map fun x => (x.1, x.2.1.tombstoned (locals x.1), x.2.2) := by
  induction segs generalizing i with
  | nil => rfl
  | cons s segs ih =>
    rw [tombstonedAll, List.zipIdx_cons, List.map_cons, Index.locateFrom, Index.locateFrom,
      Segment.endDoc_tombstoned, Segment.baseDoc_tombstoned]
    split_ifs
    · exact ih (i + 1)
    · rfl
    · rfl

omit [Platform] in
/-- A located segment stands at its position. -/
theorem mem_zipIdx_of_locateFrom {id l : DocId} {i j : Nat} {s : Segment}
    {segs : List Segment} (h : Index.locateFrom id i segs = some (j, s, l)) :
    (s, j) ∈ segs.zipIdx i := by
  induction segs generalizing i with
  | nil => cases h
  | cons t segs ih =>
    rw [Index.locateFrom] at h
    rw [List.zipIdx_cons]
    split_ifs at h
    · exact List.mem_cons_of_mem _ (ih h)
    · obtain ⟨rfl, rfl, -⟩ : i = j ∧ t = s ∧ id - t.entry.baseDoc = l := by simpa using h
      exact List.mem_cons_self

/-- Ids whose deletion changes nothing are of no live document. -/
theorem doc_of_unchanged {I : Index} {ids : List DocId}
    (h : changesAny (localsOf I ids) 0 I.segments = false) {id : DocId} (hId : id ∈ ids) :
    I.doc id = none := by
  rw [Index.doc]
  rcases hFind : I.locate id with _ | ⟨j, s, l⟩
  · rfl
  · have hMem : l ∈ localsOf I ids j :=
      List.mem_filterMap.mpr ⟨id, hId, by simp [hFind]⟩
    have hSame : s.tombstoned (localsOf I ids j) = s := by
      rw [Segment.tombstoned, if_neg]
      exact List.any_eq_false.mp h (s, j) (mem_zipIdx_of_locateFrom hFind)
    have hDel : s.isDeleted l = true := by
      rw [← hSame]
      exact (s.isDeleted_tombstoned _ _).mpr (.inr ⟨hMem, lt_of_locateFrom hFind⟩)
    simp [Segment.docMeta, hDel]

/-- A deleted id is no document any more. -/
theorem doc_deletedIndex {now : Int64} {I : Index} {ids : List DocId}
    (hOk : (deletedManifest now I ids).Ok) {id : DocId} (hId : id ∈ ids) :
    (deletedIndex now I ids hOk).doc id = none := by
  have hLocate : (deletedIndex now I ids hOk).locate id = (I.locate id).map fun x =>
      (x.1, x.2.1.tombstoned (localsOf I ids x.1), x.2.2) := by
    rw [Index.locate, Index.locate, ← locateFrom_tombstonedAll]
    simp only [deletedIndex, amendedSegments, List.append_nil]
  rw [Index.doc, hLocate]
  rcases hFind : I.locate id with _ | ⟨j, s, l⟩
  · rfl
  · -- The local id is among those tombstoned in its segment.
    have hMem : l ∈ localsOf I ids j :=
      List.mem_filterMap.mpr ⟨id, hId, by simp [hFind]⟩
    have hDel : (s.tombstoned (localsOf I ids j)).isDeleted l = true :=
      (s.isDeleted_tombstoned _ _).mpr (.inr ⟨hMem, lt_of_locateFrom hFind⟩)
    simp [Segment.docMeta, hDel]

/-- A manifest of a deletion that passes the checks has room for its deletions files. -/
theorem hasDelRoomAll_of_ok {now : Int64} {I : Index} {ids : List DocId}
    (h : (deletedManifest now I ids).Ok) : HasDelRoomAll (localsOf I ids) 0 I.segments := by
  intro p hp hChange
  have hEntry := (h.entries (p.1.tombstoned (localsOf I ids p.2)).entry (by
    refine List.mem_map_of_mem (f := Segment.entry) ?_
    rw [amendedSegments, List.append_nil]
    exact List.mem_map_of_mem (f := fun p : Segment × Nat =>
      p.1.tombstoned (localsOf I ids p.2)) hp)).del_iff
  rw [Segment.tombstoned, if_pos hChange] at hEntry
  by_contra hNot
  -- Otherwise the generation wraps to 0 while the file is not empty.
  have hZero : p.1.entry.delGen + 1 = 0 := by
    have := p.1.entry.delGen.toNat_lt
    apply UInt32.toNat_inj.mp
    rw [UInt32.toNat_add, UInt32.toNat_one, UInt32.toNat_zero]
    omega
  exact (FileData.len_pos (by simp)).ne' (hEntry.mp hZero)

/-- Segment by segment, a deletion carries the index it starts from. -/
theorem forall₂_carried_tombstonedAll {locals : Nat → List DocId} {i : Nat}
    {segs : List Segment} (h : HasDelRoomAll locals i segs) :
    List.Forall₂ Segment.Carried segs (tombstonedAll locals i segs) := by
  induction segs generalizing i with
  | nil => exact .nil
  | cons s segs ih =>
    rw [tombstonedAll, List.zipIdx_cons, List.map_cons]
    refine .cons (Segment.carried_tombstoned (h (s, i) (by simp))) (ih fun p hp => ?_)
    exact h p (by simp [List.zipIdx_cons, hp])

end Locate

-- ---------------------------------------------------------------------------
-- Runs of a deletion
-- ---------------------------------------------------------------------------

variable [Platform] {c : Pid} {s s' : FsState}

/-- The final open of a writer. -/
theorem run_reopen_ok {J : Index} (h : FsE.runAlone c reopen s = (.ok J, s')) :
    FsE.runAlone c openIndex s = (.ok (some J), s') := by
  unfold reopen at h
  rw [FsE.runAlone_bind] at h
  rcases hOpen : FsE.runAlone c openIndex s with ⟨e | I, s₁⟩
  · simp [hOpen] at h
  · cases I with
    | none => simp [hOpen] at h
    | some I =>
      simp only [hOpen, FsE.runAlone_pure, Prod.mk.injEq, Except.ok.injEq] at h
      rw [h.1, h.2]

theorem run_reopen_of_backed {J : Index} (h : J.Backed s.dir) :
    ∃ s', FsE.runAlone c reopen s = (.ok J, s') ∧ J.Backed s'.dir := by
  obtain ⟨s', hOpen, hBacked⟩ := run_openIndex_of_backed (c := c) h
  refine ⟨s', ?_, hBacked⟩
  unfold reopen
  rw [FsE.runAlone_bind_ok hOpen]
  rfl

/-- What a deletion leaves before its final open: new deletions files and their manifest,
or everything as it was. -/
def LeavesDeleted (now : Int64) (h : Index) (ids : List DocId) (d d' : Dir) : Prop :=
  if changesAny (localsOf h ids) 0 h.segments then
    ∀ n, d'.lookup n =
      if n ∈ retiredDels (localsOf h ids) 0 h.segments then none
      else (d.committed (deletePlan now h ids).steps (deletedManifest now h ids)).lookup n
  else d' = d

omit [Platform] in
theorem delFilesAll_of_unchanged {locals : Nat → List DocId} {i : Nat} {segs : List Segment}
    (h : changesAny locals i segs = false) : delFilesAll locals i segs = [] := by
  refine List.flatMap_eq_nil_iff.mpr fun p hp => ?_
  have hNot := List.any_eq_false.mp h p hp
  rw [Segment.delFiles, if_neg hNot]

/-- The part of a deletion under the lock. -/
theorem run_delete_body (now : Int64) (h : Index) (ids : List DocId) (s : FsState) :
    ∃ d, FsE.runAlone c (writeAndCommit (deletePlan now h ids)) s = (.ok (), s.withDir d) ∧
      LeavesDeleted now h ids s.dir d := by
  have hRes := deletePlan_result now h ids
  have hSteps := deletePlan_installs now h ids
  simp only [LeavesDeleted]
  split at hRes
  · rename_i hChange
    simp only [if_pos hChange]
    refine run_writeAndCommit ?_ hRes
    rw [show (deletePlan now h ids).steps = _ from hSteps]
    exact runnable_installs _ _
  · rename_i hChange
    simp only [if_neg hChange]
    have hNil : (deletePlan now h ids).steps = [] := by
      rw [show (deletePlan now h ids).steps = _ from hSteps,
        delFilesAll_of_unchanged (by simpa using hChange), installs_nil]
    exact ⟨s.dir, run_writeAndCommit_none hNil hRes, rfl⟩

/-- A deletion that succeeds has committed and opened. -/
theorem run_deleteDocs_ok {now : Int64} {h J : Index} {ids : List DocId}
    (hRun : FsE.runAlone c (deleteDocs now h ids) s = (.ok J, s')) :
    ∃ s₁, LeavesDeleted now h ids s.dir s₁.dir ∧
      FsE.runAlone c reopen s₁ = (.ok J, s') := by
  unfold deleteDocs at hRun
  rw [FsE.runAlone_bind] at hRun
  rcases hLock : FsE.runAlone c (withLock (writeAndCommit (deletePlan now h ids))) s with
    ⟨e | u, s₁⟩
  · simp [hLock] at hRun
  · rw [hLock] at hRun
    obtain ⟨-, s₀, hBody, rfl⟩ := run_withLock_ok hLock
    obtain ⟨d, hDel, hLeaves⟩ :=
      run_delete_body (c := c) now h ids { s with lock := some c }
    obtain ⟨-, rfl⟩ := Prod.mk.inj (hBody.symm.trans hDel)
    refine ⟨_, ?_, hRun⟩
    have hDir : ((({ s with lock := some c } : FsState).withDir d).release c).dir = d := by
      unfold FsState.release
      split <;> rfl
    rw [hDir]
    exact hLeaves

/-- A deletion whose files end up in a directory that backs an index succeeds with it. -/
theorem run_deleteDocs_of_backed {now : Int64} {h J : Index} {ids : List DocId}
    (hFree : s.lock = none) (hBacked : ∀ d, LeavesDeleted now h ids s.dir d → J.Backed d) :
    ∃ s', FsE.runAlone c (deleteDocs now h ids) s = (.ok J, s') ∧ J.Backed s'.dir := by
  obtain ⟨d, hDel, hLeaves⟩ :=
    run_delete_body (c := c) now h ids { s with lock := some c }
  have hDir : ((({ s with lock := some c } : FsState).withDir d).release c).dir = d := by
    unfold FsState.release
    split <;> rfl
  obtain ⟨s', hOpen, hJ⟩ := run_reopen_of_backed (c := c)
    (s := (({ s with lock := some c } : FsState).withDir d).release c)
    (J := J) (by rw [hDir]; exact hBacked d hLeaves)
  refine ⟨s', ?_, hJ⟩
  have hLock : FsE.runAlone c (withLock (writeAndCommit (deletePlan now h ids))) s =
      (.ok (), (({ s with lock := some c } : FsState).withDir d).release c) := by
    unfold withLock
    rw [FsE.runAlone_bind, run_takeLock, if_pos hFree]
    simp only [FsE.runAlone_bind, FsE.runAlone_attempt, FsE.runAlone_ofM,
      FsE.runAlone_ofExcept, hDel]
    rfl
  unfold deleteDocs
  rw [FsE.runAlone_bind_ok hLock]
  exact hOpen

/-- The manifest a deletion with changes leaves. -/
theorem LeavesDeleted.manifest {now : Int64} {h : Index} {ids : List DocId} {d d' : Dir}
    (hLeaves : LeavesDeleted now h ids d d')
    (hChange : changesAny (localsOf h ids) 0 h.segments = true) :
    d'.lookup .manifest = some (manifestFile (deletedManifest now h ids)) := by
  rw [LeavesDeleted, if_pos hChange] at hLeaves
  rw [hLeaves, if_neg, Dir.lookup_committed, if_pos rfl]
  intro hMem
  obtain ⟨p, -, hp⟩ := List.mem_flatMap.mp hMem
  unfold Segment.retiredDel at hp
  split at hp
  · cases List.mem_singleton.mp hp
  · cases hp

theorem LeavesDeleted.eq_of_unchanged {now : Int64} {h : Index} {ids : List DocId}
    {d d' : Dir} (hLeaves : LeavesDeleted now h ids d d')
    (hChange : changesAny (localsOf h ids) 0 h.segments = false) : d' = d := by
  rw [LeavesDeleted, if_neg (by simp [hChange])] at hLeaves
  exact hLeaves

omit [Platform] in
theorem manifestFile_inj {m m' : Manifest} (h : some (manifestFile m) = some (manifestFile m')) :
    m = m' := by
  simpa [manifestFile] using h

/-- Where the files of the handle still are, a deletion leaves the index with its
tombstones. -/
theorem LeavesDeleted.backed {now : Int64} {h : Index} {ids : List DocId} {d d' : Dir}
    (hLeaves : LeavesDeleted now h ids d d') (hh : h.Sound)
    (hChange : changesAny (localsOf h ids) 0 h.segments = true)
    (hOk : (deletedManifest now h ids).Ok) (hSegs : ∀ s ∈ h.segments, s.Backed d)
    (hOv : 0 < h.manifest.stateGen → FileIs d (.overlay h.manifest.stateGen)
      (.overlay h.overlay) h.manifest.stateLen h.manifest.stateCrc)
    (hNo : h.manifest.stateGen = 0 → h.overlay = Overlay.empty) :
    (deletedIndex now h ids hOk).Backed d' := by
  have hDel := hasDelRoomAll_of_ok hOk
  have hAll := deletedIndex_backed hh hDel hOk hSegs hOv hNo
  rw [LeavesDeleted, if_pos hChange] at hLeaves
  refine hAll.of_agree ?_ fun n hn => ?_
  · rw [hLeaves, if_neg]
    intro hMem
    have := (deletedIndex_retires hh hDel hOk hMem).1
    cases this
  · rw [hLeaves, if_neg]
    exact fun hMem => (deletedIndex_retires hh hDel hOk hMem).2 hn

-- ---------------------------------------------------------------------------
-- Commits behind the handle
-- ---------------------------------------------------------------------------

/-- Since the handle `h` was opened the indexes `Ks` were committed, the last one first;
`cur` is on disk now. The generation counter has not run out. -/
inductive Follows (h : Index) : List Index → Index → Prop
  | opened : Follows h [] h
  | commit {Ks : List Index} {I K : Index} (hI : Follows h Ks I) (hCommit : Commit (some I) K)
    (hGen : I.manifest.generation.toNat + 1 < 2 ^ 64) : Follows h (K :: Ks) K

/-- What a deletion of `ids` owes to the commits `Ks` that led to `cur`: the segments of
`cur` with its deletions, its overlay, the requested deletions, a later generation, and all
the files of the manifest. -/
structure KeepsCommits (cur : Index) (Ks : List Index) (ids : List DocId) (J : Index)
    (d : Dir) : Prop where
  segments : List.Forall₂ Segment.Carried cur.segments J.segments
  overlay : J.overlay = cur.overlay
  requested : ∀ id ∈ ids, J.doc id = none
  generation : ∀ K ∈ Ks.head?, K.manifest.generation < J.manifest.generation
  files : ∀ n ∈ referencedFiles J.manifest, n ∈ d

theorem Follows.generation_le {h cur : Index} {Ks : List Index} (hF : Follows h Ks cur) :
    h.manifest.generation.toNat + Ks.length = cur.manifest.generation.toNat := by
  induction hF with
  | opened => rfl
  | commit hI hCommit hGen ih =>
    have hNext := congrArg UInt64.toNat hCommit.generation_eq
    simp only [Option.elim_some, UInt64.toNat_add, UInt64.toNat_one] at hNext
    rw [List.length_cons]
    omega

theorem Follows.head? {h cur : Index} {Ks : List Index} (hF : Follows h Ks cur)
    (hNe : Ks ≠ []) : Ks.head? = some cur := by
  cases hF with
  | opened => exact absurd rfl hNe
  | commit => rfl

theorem Follows.sound {h cur : Index} {Ks : List Index} (hF : Follows h Ks cur)
    (hh : h.Sound) : cur.Sound := by
  cases hF with
  | opened => exact hh
  | commit _ hCommit => exact hCommit.sound

/-- Every file of an index on disk is there. -/
theorem Index.Backed.mem_of_referenced {I : Index} {d : Dir} (h : I.Backed d) {n : FileName}
    (hn : n ∈ referencedFiles I.manifest) : n ∈ d := by
  refine Dir.mem_iff_lookup.mpr ?_
  rcases Index.mem_referencedFiles.mp hn with ⟨s, hs, hFile⟩ | ⟨hGen, rfl⟩
  · have hB := h.segments s hs
    rcases mem_segmentFiles.mp hFile with rfl | rfl | ⟨hDel, rfl⟩
    · exact ⟨_, hB.idx.lookup⟩
    · exact ⟨_, hB.doc.lookup⟩
    · obtain ⟨b, hb⟩ := Option.isSome_iff_exists.mp (hB.delGen.mp hDel)
      exact ⟨_, (hB.del b hb).lookup⟩
  · exact ⟨_, (h.overlay hGen).lookup⟩

/-- After a commit behind the handle, a deletion does not come later than that commit. -/
theorem not_keeps_of_commits {h cur J : Index} {Ks : List Index} {ids : List DocId}
    {now : Int64} (hF : Follows h Ks cur) (hCur : cur.Backed s.dir)
    (hRun : FsE.runAlone c (deleteDocs now h ids) s = (.ok J, s')) (hNe : Ks ≠ []) :
    ¬ KeepsCommits cur Ks ids J s'.dir := by
  intro hKeeps
  have hLt := UInt64.lt_iff_toNat_lt.mp (hKeeps.generation cur (hF.head? hNe))
  have hLen := hF.generation_le
  have hPos := List.length_pos_iff.mpr hNe
  obtain ⟨s₁, hLeaves, hOpen⟩ := run_deleteDocs_ok hRun
  obtain ⟨hManifest, -⟩ := run_openIndex_ok (run_reopen_ok hOpen)
  cases hChange : changesAny (localsOf h ids) 0 h.segments with
  | true =>
    -- The manifest counts up the generation of the handle.
    have hEq := manifestFile_inj (hManifest.symm.trans (hLeaves.manifest hChange))
    have hGen := congrArg (fun m => m.generation.toNat) hEq
    simp only [deletedManifest, UInt64.toNat_add, UInt64.toNat_one] at hGen
    have := cur.manifest.generation.toNat_lt
    omega
  | false =>
    -- Nothing was committed at all.
    rw [hLeaves.eq_of_unchanged hChange, hCur.manifest] at hManifest
    rw [manifestFile_inj hManifest] at hLt
    exact Nat.lt_irrefl _ hLt

/-- Without commits behind the handle, a deletion keeps what there was. -/
theorem keeps_of_current {h J : Index} {ids : List DocId} {now : Int64} (hh : h.Sound)
    (hCur : h.Backed s.dir)
    (hRun : FsE.runAlone c (deleteDocs now h ids) s = (.ok J, s')) :
    KeepsCommits h [] ids J s'.dir := by
  obtain ⟨s₁, hLeaves, hOpen⟩ := run_deleteDocs_ok hRun
  have hIndex := run_reopen_ok hOpen
  obtain ⟨hManifest, hBacked⟩ := run_openIndex_ok hIndex
  have hFiles : ∀ n ∈ referencedFiles J.manifest, n ∈ s'.dir :=
    fun n hn => hBacked.mem_of_referenced hn
  -- What opening returns is what the deletion left.
  have hUnique : ∀ K : Index, K.Backed s₁.dir → J = K := by
    intro K hK
    obtain ⟨s₂, hRun₂, -⟩ := run_openIndex_of_backed (c := c) hK
    have hEq := hIndex.symm.trans hRun₂
    simp only [Prod.mk.injEq, Except.ok.injEq, Option.some.injEq] at hEq
    exact hEq.1
  cases hChange : changesAny (localsOf h ids) 0 h.segments with
  | true =>
    have hEq := manifestFile_inj (hManifest.symm.trans (hLeaves.manifest hChange))
    have hOk : (deletedManifest now h ids).Ok := hEq ▸ J.manifest_ok
    have hDel := hasDelRoomAll_of_ok hOk
    obtain rfl := hUnique _
      (hLeaves.backed hh hChange hOk hCur.segments hCur.overlay hCur.no_overlay)
    refine ⟨?_, rfl, fun id hId => doc_deletedIndex hOk hId, by simp, hFiles⟩
    show List.Forall₂ Segment.Carried h.segments (amendedSegments h (localsOf h ids) [])
    rw [amendedSegments, List.append_nil]
    exact forall₂_carried_tombstonedAll hDel
  | false =>
    rw [hLeaves.eq_of_unchanged hChange] at hUnique
    obtain rfl := hUnique h hCur
    refine ⟨?_, rfl, fun id hId => doc_of_unchanged hChange hId, by simp, hFiles⟩
    exact List.forall₂_same.mpr fun t _ => .refl t

/-- A deletion through a handle keeps the commits since the handle was opened exactly when
there were none. -/
theorem deleteDocs_keeps_iff {h cur J : Index} {Ks : List Index} {ids : List DocId}
    {now : Int64} (hh : Reached h) (hF : Follows h Ks cur) (hCur : cur.Backed s.dir)
    (hRun : FsE.runAlone c (deleteDocs now h ids) s = (.ok J, s')) :
    KeepsCommits cur Ks ids J s'.dir ↔ Ks = [] := by
  constructor
  · intro hKeeps
    by_contra hNe
    exact not_keeps_of_commits hF hCur hRun hNe hKeeps
  · rintro rfl
    cases hF
    exact keeps_of_current hh.sound hCur hRun

-- ---------------------------------------------------------------------------
-- A handle on two documents
-- ---------------------------------------------------------------------------

theorem SingleBuild.doc_ne_none {w : World} {files : List CrawledFile} {I J : Index}
    {s t : Segment} (h : SingleBuild w files I s) (hSegs : J.segments = [t])
    (hBase : t.entry.baseDoc = s.entry.baseDoc) {i : DocId} (hId : i < t.entry.numDocs)
    (hDel : t.isDeleted i = false) : J.doc i ≠ none := by
  have hZero : t.entry.baseDoc = 0 := hBase.trans h.baseDoc
  have hEnd : ¬ t.entry.endDoc ≤ i.toNat := by
    have := UInt32.lt_iff_toNat_lt.mp hId
    rw [SegmentEntry.endDoc]
    omega
  have hDoc : ∃ m, t.docs[i.toNat]? = some m := by
    refine ⟨_, List.getElem?_eq_getElem ?_⟩
    rw [t.length_docs]
    exact UInt32.lt_iff_toNat_lt.mp hId
  obtain ⟨m, hDoc⟩ := hDoc
  have hMeta : t.docMeta i = some m := by
    rw [Segment.docMeta, hDel, ← hDoc]
    rfl
  have hLocate : J.locate i = some (0, t, i) := by
    simp [Index.locate, hSegs, Index.locateFrom, hEnd, hZero]
  intro hNone
  simp only [Index.doc, hLocate, hMeta, Option.bind_eq_bind, Option.bind_some] at hNone
  split at hNone <;> cases hNone

omit [Platform] in
/-- A deletion through a current handle. -/
theorem deleteDocs_keeps_first : ∃ _ : Platform, ∃ h J, ∃ s s' : FsState, Reached h ∧
    FsE.runAlone 0 (deleteDocs 0 h [1]) s = (.ok J, s') ∧
      KeepsCommits h [] [1] J s'.dir := by
  refine ⟨Platform.reference, ?_⟩
  let _ := Platform.reference
  obtain ⟨h, s, hBuild⟩ := exists_mixed_build
  obtain ⟨d, hCur⟩ := hBuild.exists_backed
  have hId : (1 : DocId) < s.entry.numDocs := by
    rw [UInt32.lt_iff_toNat_lt, hBuild.records.numDocs]
    decide
  obtain ⟨s', hRun, -⟩ := run_deleteDocs_of_backed (c := 0) (s := ⟨d, none, 0⟩) rfl
    fun d' hLeaves => LeavesDeleted.backed hLeaves hBuild.commit.sound (hBuild.changesAny hId)
      (deletedManifest_ok (hBuild.deleteRoom 1)) hCur.segments hCur.overlay hCur.no_overlay
  have hReached : Reached h := .first hBuild.commit
  exact ⟨h, _, _, s', hReached, hRun,
    (deleteDocs_keeps_iff hReached .opened hCur hRun).mpr rfl⟩

omit [Platform] in
/-- Two handles on one index delete a document each: the second deletion undoes the
first. -/
theorem stale_delete_not_keeps : ∃ _ : Platform, ∃ h K J, ∃ s s' : FsState, Reached h ∧
    Follows h [K] K ∧ K.Backed s.dir ∧
      FsE.runAlone 0 (deleteDocs 0 h [0]) s = (.ok J, s') ∧
        ¬ KeepsCommits K [K] [0] J s'.dir ∧ K.doc 1 = none ∧ J.doc 1 ≠ none := by
  refine ⟨Platform.reference, ?_⟩
  let _ := Platform.reference
  obtain ⟨h, s, hBuild⟩ := exists_mixed_build
  obtain ⟨d, hCur⟩ := hBuild.exists_backed
  have hNum : s.entry.numDocs.toNat = 2 := hBuild.records.numDocs
  have hFirst : (0 : DocId) < s.entry.numDocs := by
    rw [UInt32.lt_iff_toNat_lt, hNum]
    decide
  have hSecond : (1 : DocId) < s.entry.numDocs := by
    rw [UInt32.lt_iff_toNat_lt, hNum]
    decide
  have hGives := hBuild.gives hSecond
  have hK := hGives.backed d (by simpa using hCur) (by simp)
  have hFollows : Follows h [deletedIndex 0 h [1] (deletedManifest_ok (hBuild.deleteRoom 1))]
      (deletedIndex 0 h [1] (deletedManifest_ok (hBuild.deleteRoom 1))) :=
    .commit .opened (.delete hGives) (hBuild.deleteRoom 1).generation
  -- The other deletion leaves the files of the segment in place.
  have hSegments : (deletedIndex 0 h [1] (deletedManifest_ok (hBuild.deleteRoom 1))).segments =
      [s.tombstoned [1]] := hBuild.amendedSegments hSecond
  have hTomb := hK.segments (s.tombstoned [1]) (by rw [hSegments]; exact List.mem_singleton_self _)
  have hIdx := hTomb.idx.lookup
  have hDoc := hTomb.doc.lookup
  rw [Segment.segmentId_tombstoned, Segment.idx_tombstoned] at hIdx
  rw [Segment.segmentId_tombstoned, Segment.docs_tombstoned] at hDoc
  have hSegs := hBuild.flushed.backed hIdx hDoc
  have hZero : ¬ 0 < h.manifest.stateGen := by
    rw [hBuild.stateGen]
    decide
  obtain ⟨s', hRun, -⟩ := run_deleteDocs_of_backed (c := 0) (s := ⟨_, none, 0⟩) rfl
    fun d' hLeaves => LeavesDeleted.backed hLeaves hBuild.commit.sound (hBuild.changesAny hFirst)
      (deletedManifest_ok (hBuild.deleteRoom 0))
      (by rw [hBuild.segments]; simpa using hSegs) (fun hPos => absurd hPos hZero)
      (fun _ => hBuild.overlay)
  refine ⟨h, _, _, _, s', .first hBuild.commit, hFollows, hK, hRun,
    not_keeps_of_commits hFollows hK hRun (by simp),
    doc_deletedIndex _ (List.mem_singleton_self _), ?_⟩
  refine hBuild.doc_ne_none (t := s.tombstoned [0]) (hBuild.amendedSegments hFirst) (by simp)
    (by simpa using hSecond) ?_
  rw [Bool.eq_false_iff, ne_eq, hBuild.isDeleted_tombstoned hFirst]
  decide

end Ripindex
