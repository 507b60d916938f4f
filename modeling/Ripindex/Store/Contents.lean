import Ripindex.Lib.Simulation
import Ripindex.Store.MergeRows

/-!
# What an index stands for

An index stands for a list of files: those of the last build or update, less those deleted
since. Over any run of operations the rows on disk are the rows of these files, as long as the
metadata of files changes with their content.

## Results

* `disk_refines_shelf` — operations on a directory refine commands on a list of files;
* `rows_after_run`     — the rows after a run.
-/

namespace Ripindex

-- ---------------------------------------------------------------------------
-- Lists of files
-- ---------------------------------------------------------------------------

/-- What an operation asks for. -/
inductive Command
  | hold (files : List CrawledFile)
  | forget (paths : List String)
  | tidy

/-- What a command makes of the files. -/
def Command.apply : Command → List CrawledFile → List CrawledFile
  | hold files, _ => files
  | forget paths, files => files.filter fun cf => cf.entry.path ∉ paths
  | tidy, files => files

/-- The store as it is meant. -/
def shelf : Machine (List CrawledFile) Command := .ofFun [] Command.apply

/-- The paths of documents. -/
def Index.pathsOf (I : Index) (ids : List DocId) : List String :=
  (I.rows.filter fun e => e.1 ∈ ids).map fun e => e.2.record.path

section Refinement

variable [Platform]

/-- The command of an operation on the index it finds. -/
def Operation.command : Operation → Option Index → Command
  | build _ _ files, _ => .hold files
  | update _ _ files, _ => .hold files
  | delete _ ids, some I => .forget (I.pathsOf ids)
  | delete _ _, none => .tidy
  | merge _ _, _ => .tidy

-- ---------------------------------------------------------------------------
-- Files over time
-- ---------------------------------------------------------------------------

/-- Every version of a file that is crawled, with its content. The metadata of a file changes
with its content, and hashes tell contents apart. -/
structure Corpus where
  versions : Set CrawledFile
  content : CrawledFile → ByteArray
  honest : ∀ cf ∈ versions, ∀ cf' ∈ versions, cf.entry.inode = cf'.entry.inode →
    cf.entry.mtime = cf'.entry.mtime → cf.entry.size = cf'.entry.size →
      cf.kind = cf'.kind ∧ content cf = content cf'
  hash_inj : ∀ cf ∈ versions, ∀ cf' ∈ versions,
    hashBytes (content cf) = hashBytes (content cf') → content cf = content cf'

namespace Corpus

variable {K : Corpus}

/-- A crawl of versions, which read as they are. -/
structure Shows (K : Corpus) (read : ReadFile) (files : List CrawledFile) : Prop where
  known : ∀ cf ∈ files, cf ∈ K.versions
  reads : ∀ cf ∈ files, cf.kind = .text → read cf.entry.path = .ok (K.content cf)
  paths : (files.map fun cf => cf.entry.path).Nodup

/-- What is recorded of a version. -/
def row (K : Corpus) (cf : CrawledFile) : DocRow := rowOf (fun _ => .ok (K.content cf)) cf

theorem body_row (cf : CrawledFile) : (K.row cf).body = bodyOf cf.kind (K.content cf) :=
  body_rowOf fun _ => rfl

theorem path_row (cf : CrawledFile) : (K.row cf).record.path = cf.entry.path :=
  (entry_recorded _ cf).1

theorem sameMeta_row (cf : CrawledFile) : (K.row cf).SameMeta cf :=
  have h := (entry_recorded (fun _ => .ok (K.content cf)) cf).2
  ⟨h.1, h.2.1, h.2.2⟩

theorem Shows.rowOf_eq {read : ReadFile} {files : List CrawledFile} (h : K.Shows read files)
    {cf : CrawledFile} (hcf : cf ∈ files) : rowOf read cf = K.row cf := by
  have hEntry := entry_recorded read cf
  refine eq_rowOf hEntry.1 ⟨hEntry.2.1, hEntry.2.2.1, hEntry.2.2.2⟩ ?_
  rw [body_rowOf (h.reads cf hcf)]
  exact (body_row cf).symm

theorem Shows.map_rowOf {read : ReadFile} {files : List CrawledFile} (h : K.Shows read files) :
    files.map (rowOf read) = files.map K.row :=
  List.map_congr_left fun _ hcf => h.rowOf_eq hcf

end Corpus

variable {K : Corpus} {I J : Index} {files : List CrawledFile}

-- ---------------------------------------------------------------------------
-- Operations
-- ---------------------------------------------------------------------------

/-- A merge was prepared from an earlier index, and documents that it moves have the patches
that they had there. -/
structure Carries (S I : Index) (xs : List StagedMerge) : Prop where
  sound : S.Sound
  short : ∀ s ∈ S.segments, s.Short
  evolves : S.Evolves I
  prepared : ∀ x ∈ xs, ∃ segs, x.merge.sourceIds.mapM S.findSegment = some segs ∧
    x.Prepares S x.merge.sourceIds segs
  disjoint : (mergedIds (xs.map StagedMerge.merge)).Nodup
  patches : ∀ s ∈ I.segments, s.entry.segmentId ∈ mergedIds (xs.map StagedMerge.merge) →
    ∀ i < s.entry.numDocs,
      S.overlay.find (s.entry.baseDoc + i) = I.overlay.find (s.entry.baseDoc + i)

/-- The operation is over a crawl of the corpus, or over prepared merges. No file at a new path
has the inode of a document whose path is still crawled. -/
def Operation.Witnesses (K : Corpus) (prev : Option Index) : Operation → Prop
  | build w _ files => K.Shows w.indexRead files
  | update w _ files => K.Shows w.indexRead files ∧ K.Shows w.reconcileRead files ∧
      ∀ I ∈ prev, NoneShadowed I.rows files
  | delete _ _ => True
  | merge _ xs => ∀ I ∈ prev, ∃ S, Carries S I xs

/-- And within the counters. -/
def Operation.Follows (K : Corpus) (op : Operation) (prev : Option Index) : Prop :=
  op.Fits prev ∧ op.Witnesses K prev

/-- What happens to a directory. -/
inductive DiskEvent
  | commit (op : Operation) (prev : Option Index)
  | other

def DiskEvent.command : DiskEvent → Option Command
  | commit op prev => some (op.command prev)
  | other => none

/-- Operations on a directory that is empty at first, and whatever leaves the index alone. -/
def disk (K : Corpus) : Machine Dir DiskEvent where
  init := ∅
  step e d d' := match e with
    | .commit op prev => op.Follows K prev ∧ op.Commits prev d d'
    | .other => ∃ prev, d.Holds prev ∧ d'.Holds prev

/-- The rows of an index are those of the files. -/
structure StandsFor (K : Corpus) (I : Index) (files : List CrawledFile) : Prop where
  sound : I.Sound
  patchesLt : I.PatchesLt
  short : ∀ s ∈ I.segments, s.Short
  rows : (I.rows.map Prod.snd).Perm (files.map K.row)
  known : ∀ cf ∈ files, cf ∈ K.versions
  paths : (files.map fun cf => cf.entry.path).Nodup

namespace StandsFor

/-- Every row is that of a file. -/
theorem exists_file (h : StandsFor K I files) {e : DocId × DocRow} (he : e ∈ I.rows) :
    ∃ cf ∈ files, K.row cf = e.2 :=
  List.mem_map.mp (h.rows.mem_iff.mp (List.mem_map_of_mem he))

theorem docPaths (h : StandsFor K I files) : (I.docs.map fun d => d.2.path).Nodup := by
  have hPerm := h.rows.map fun r => r.record.path
  rw [List.map_map, List.map_map] at hPerm
  rw [I.docs_eq_rows, List.map_map]
  refine hPerm.nodup_iff.mpr ?_
  have hPaths : ((fun r : DocRow => r.record.path) ∘ K.row) = fun cf => cf.entry.path :=
    funext fun cf => Corpus.path_row cf
  rw [hPaths]
  exact h.paths

/-- What documents were recorded of, and what files contain, is known. -/
theorem exists_observed (h : StandsFor K I files) {w : World} {files' : List CrawledFile}
    (hIndex : K.Shows w.indexRead files') (hReconcile : K.Shows w.reconcileRead files') :
    ∃ was, Observed w I.rows files' was K.content := by
  have hFile : ∀ id, ∃ cf : CrawledFile, ∀ e ∈ I.rows, e.1 = id → cf ∈ files ∧ K.row cf = e.2 := by
    intro id
    by_cases hMem : ∃ e ∈ I.rows, e.1 = id
    · obtain ⟨e, he, hId⟩ := hMem
      obtain ⟨cf, hcf, hRow⟩ := h.exists_file he
      refine ⟨cf, fun e' he' hId' => ?_⟩
      rw [Index.rows_inj he' he (hId'.trans hId.symm)]
      exact ⟨hcf, hRow⟩
    · exact ⟨⟨⟨"", 0, 0, 0⟩, .text⟩, fun e he hId => absurd ⟨e, he, hId⟩ hMem⟩
  choose file hFile using hFile
  refine ⟨fun id => ((file id).kind, K.content (file id)), ?_, ?_, ?_, ?_⟩
  · intro cf hcf hKind
    exact ⟨hReconcile.reads cf hcf hKind, hIndex.reads cf hcf hKind⟩
  · intro e he
    rw [← (hFile e.1 e he rfl).2]
    exact Corpus.body_row _
  · intro e he cf hcf hMeta
    obtain ⟨hMem, hRow⟩ := hFile e.1 e he rfl
    have hMeta' := K.sameMeta_row (file e.1)
    rw [hRow] at hMeta'
    obtain ⟨hKind, hContent⟩ := K.honest _ (h.known _ hMem) cf (hIndex.known cf hcf)
      (hMeta'.inode.symm.trans hMeta.inode) (hMeta'.mtime.symm.trans hMeta.mtime)
      (hMeta'.size.symm.trans hMeta.size)
    exact Prod.ext hKind hContent
  · intro e he cf hcf hHash
    exact K.hash_inj _ (h.known _ (hFile e.1 e he rfl).1) cf (hIndex.known cf hcf) hHash

/-- Deleted documents are those of the paths. -/
theorem perm_deleted (h : StandsFor K I files) (ids : List DocId) :
    ((I.rows.filter fun e => e.1 ∉ ids).map Prod.snd).Perm
      ((files.filter fun cf => cf.entry.path ∉ I.pathsOf ids).map K.row) := by
  have hPaths : (I.rows.map fun e => e.2.record.path).Nodup := by
    have hDocs := h.docPaths
    rwa [I.docs_eq_rows, List.map_map] at hDocs
  have hKept : I.rows.filter (fun e => e.1 ∉ ids) =
      I.rows.filter fun e => e.2.record.path ∉ I.pathsOf ids := by
    refine List.filter_congr fun e he => ?_
    have hIff : e.1 ∈ ids ↔ e.2.record.path ∈ I.pathsOf ids := by
      unfold Index.pathsOf
      rw [List.mem_map]
      constructor
      · intro hId
        exact ⟨e, List.mem_filter.mpr ⟨he, decide_eq_true hId⟩, rfl⟩
      · intro hPath
        obtain ⟨e', he', hEq⟩ := hPath
        obtain ⟨he', hId⟩ := List.mem_filter.mp he'
        rw [← List.inj_on_of_nodup_map hPaths he' he hEq]
        exact of_decide_eq_true hId
    simp only [hIff]
  rw [hKept]
  have hRows := h.rows.filter fun r => decide (r.record.path ∉ I.pathsOf ids)
  rw [List.filter_map, List.filter_map] at hRows
  refine hRows.trans (.of_eq (congrArg (List.map K.row) (List.filter_congr fun cf _ => ?_)))
  rw [Function.comp_apply, Corpus.path_row]

end StandsFor

namespace Operation

/-- What an operation makes of the rows is what its command makes of the files. -/
theorem Makes.perm_rows {op : Operation} {prev : Option Index} (h : op.Makes prev J)
    (hPrev : ∀ I ∈ prev, StandsFor K I files) (hOver : op.Witnesses K prev) :
    (J.rows.map Prod.snd).Perm (((op.command prev).apply files).map K.row) := by
  cases h with
  | build hTiles hRoom hOk =>
    rw [rows_builtIndex hTiles hRoom hOk, map_snd_numbered, hOver.map_rowOf]
    rfl
  | first hTiles hRoom hOk =>
    rw [rows_builtIndex hTiles hRoom hOk, map_snd_numbered, hOver.1.map_rowOf]
    rfl
  | @update w cfg crawled I segs _ hAmends hOk =>
    have hI := hPrev I rfl
    obtain ⟨hIndex, hReconcile, hMoved⟩ := hOver
    obtain ⟨was, hObs⟩ := hI.exists_observed hIndex hReconcile
    have hPatches : ∀ p ∈ patchesOf (updateChanges w I crawled).changes,
        p.docId.toNat < Index.endBound I.manifest.segments :=
      fun p hp => patch_lt_of_change (mem_patchesOf.mp hp)
    rw [rows_updatedIndex hAmends hI.patchesLt hPatches hOk, List.map_append, List.map_map,
      map_snd_numbered]
    have hRows := rows_updateChanges hI.docPaths hIndex.paths hObs (hMoved I rfl)
    rw [hIndex.map_rowOf] at hRows
    exact hRows
  | delete hOk =>
    rw [rows_deletedIndex]
    exact (hPrev _ rfl).perm_deleted _
  | @merge now xs I hListed hRoom =>
    have hI := hPrev I rfl
    obtain ⟨S, hS⟩ := hOver I rfl
    refine (rows_splicedIndex now hS.sound hI.sound hI.patchesLt hS.evolves hS.short
      ⟨hS.prepared, hS.disjoint, hListed⟩ hRoom).trans (.trans (.of_eq ?_) hI.rows)
    unfold Index.rows
    rw [List.map_flatMap]
    refine List.flatMap_congr fun s hs => ?_
    unfold mergedOverlay
    split_ifs with hMem
    · exact congrArg (List.map Prod.snd) (s.rows_congr fun i hi => hS.patches s hs hMem i hi)
    · rfl

/-- A command keeps to versions with distinct paths. -/
theorem Witnesses.keeps {op : Operation} {prev : Option Index} (h : op.Witnesses K prev)
    (hKnown : ∀ cf ∈ files, cf ∈ K.versions) (hPaths : (files.map fun cf => cf.entry.path).Nodup) :
    (∀ cf ∈ (op.command prev).apply files, cf ∈ K.versions) ∧
      (((op.command prev).apply files).map fun cf => cf.entry.path).Nodup := by
  cases op with
  | build w cfg crawled => exact ⟨h.known, h.paths⟩
  | update w cfg crawled => exact ⟨h.1.known, h.1.paths⟩
  | delete now ids =>
    rcases prev with _ | I
    · exact ⟨hKnown, hPaths⟩
    · exact ⟨fun cf hcf => hKnown cf (List.mem_filter.mp hcf).1,
        hPaths.sublist (List.filter_sublist.map _)⟩
  | merge now xs => exact ⟨hKnown, hPaths⟩

/-- What is merged was prepared. -/
theorem Makes.mergesPrepared {op : Operation} {prev : Option Index} (h : op.Makes prev J)
    (hOver : op.Witnesses K prev) : op.MergesPrepared := by
  cases h with
  | merge =>
    obtain ⟨S, hS⟩ := hOver _ rfl
    intro x hx
    obtain ⟨segs, -, hPrepares⟩ := hS.prepared x hx
    exact ⟨S, _, segs, hPrepares⟩
  | _ => trivial

end Operation

/-- An operation leaves an index of the files that its command leaves. -/
theorem StandsFor.step {op : Operation} {prev : Option Index} (hMakes : op.Makes prev J)
    (hLeaves : op.Leaves prev J) (hOver : op.Witnesses K prev)
    (hPrev : ∀ I ∈ prev, StandsFor K I files) (hNone : prev = none → files = []) :
    StandsFor K J ((op.command prev).apply files) := by
  have hFiles : (∀ cf ∈ files, cf ∈ K.versions) ∧ (files.map fun cf => cf.entry.path).Nodup := by
    rcases prev with _ | I
    · rw [hNone rfl]
      exact ⟨by simp, .nil⟩
    · exact ⟨(hPrev I rfl).known, (hPrev I rfl).paths⟩
  obtain ⟨hKnown, hPaths⟩ := hOver.keeps hFiles.1 hFiles.2
  exact ⟨hLeaves.sound, hLeaves.patchesLt fun I hI => (hPrev I hI).patchesLt,
    hMakes.short (hMakes.mergesPrepared hOver) fun I hI => (hPrev I hI).short,
    hMakes.perm_rows hPrev hOver, hKnown, hPaths⟩

/-- The directory holds an index of these files. -/
def Mirrors (K : Corpus) (d : Dir) (files : List CrawledFile) : Prop :=
  ∃ cur, d.Holds cur ∧ (∀ I ∈ cur, StandsFor K I files) ∧ (cur = none → files = [])

theorem Mirrors.commit {op : Operation} {prev : Option Index} {d d' : Dir}
    (h : Mirrors K d files) (hFollows : op.Follows K prev) (hCommits : op.Commits prev d d') :
    Mirrors K d' ((op.command prev).apply files) := by
  obtain ⟨cur, hCur, hStands, hNone⟩ := h
  obtain rfl := hCommits.holds.unique hCur
  have hPrev : ∀ I ∈ prev, I.Sound := fun I hI => (hStands I hI).sound
  obtain ⟨J, hJ, -, hMakes⟩ := hCommits.makes hPrev hFollows.1
  obtain ⟨J', hJ', hLeaves⟩ := hCommits.leaves hPrev hFollows.1
  obtain rfl := Option.some.inj (hJ.unique hJ')
  refine ⟨some J, hJ, ?_, by simp⟩
  intro K' hK'
  obtain rfl := Option.some.inj hK'
  exact .step hMakes hLeaves hFollows.2 hStands hNone

/-- Operations on a directory are commands on a list of files. -/
theorem disk_refines_shelf (K : Corpus) :
    (disk K).Refines shelf DiskEvent.command (Mirrors K) where
  init := ⟨none, AList.lookup_empty _, by simp, fun _ => rfl⟩
  step := by
    intro e d d' files hMirrors hStep
    cases e with
    | commit op prev =>
      exact .inl ⟨_, _, rfl, rfl, hMirrors.commit hStep.1 hStep.2⟩
    | other =>
      obtain ⟨prev, hHolds, hHolds'⟩ := hStep
      obtain ⟨cur, hCur, hStands⟩ := hMirrors
      obtain rfl := hHolds.unique hCur
      exact .inr ⟨rfl, prev, hHolds', hStands⟩

/-- The files that a run leaves. -/
def shelved (es : List DiskEvent) : List CrawledFile :=
  (es.filterMap DiskEvent.command).foldl (fun files c => c.apply files) []

theorem standsFor_of_run {es : List DiskEvent} {d : Dir} (hRun : (disk K).Run es d)
    (hHolds : d.Holds (some I)) : StandsFor K I (shelved es) := by
  obtain ⟨files, hShelf, cur, hCur, hStands, -⟩ := (disk_refines_shelf K).run hRun
  obtain rfl := hHolds.unique hCur
  obtain rfl := Machine.run_ofFun_iff.mp hShelf
  exact hStands I rfl

/-- What a run leaves on disk: nothing when nothing was built, and else the rows of the files of
the last build or update, without those deleted since. -/
theorem rows_after_run {es : List DiskEvent} {d : Dir} (hRun : (disk K).Run es d) :
    ∃ cur, d.Holds cur ∧ (cur = none → shelved es = []) ∧
      ∀ I ∈ cur, (I.rows.map Prod.snd).Perm ((shelved es).map K.row) ∧
        ((shelved es).map fun cf => cf.entry.path).Nodup := by
  obtain ⟨files, hShelf, cur, hCur, hStands, hNone⟩ := (disk_refines_shelf K).run hRun
  obtain rfl := Machine.run_ofFun_iff.mp hShelf
  exact ⟨cur, hCur, hNone, fun I hI => ⟨(hStands I hI).rows, (hStands I hI).paths⟩⟩

omit [Platform] in
/-- Two versions of one empty binary file. -/
def oneCorpus : let _ := Platform.reference; Corpus :=
  let _ := Platform.reference
  { versions := {oneFile "a", oneFile "b"}
    content := fun _ => ∅
    honest := by
      intro cf hcf cf' hcf' _ _ _
      rcases hcf with rfl | rfl <;> rcases hcf' with rfl | rfl <;> exact ⟨rfl, rfl⟩
    hash_inj := fun _ _ _ _ _ => rfl }

omit [Platform] in
/-- After a build and an update that finds the file renamed, the index holds its new path. -/
theorem rows_after_run_renamed : ∃ _ : Platform, ∃ K, ∃ es d, (disk K).Run es d ∧
    ∃ I, d.Holds (some I) ∧ (I.rows.map Prod.snd).Perm [K.row (oneFile "b")] := by
  refine ⟨Platform.reference, oneCorpus, ?_⟩
  let _ := Platform.reference
  obtain ⟨I, seg, d, h⟩ := exists_builtOne
  obtain ⟨J, retire, hGives, -⟩ := h.exists_updated
  have hPlan : (Operation.update movedWorld mixedConfig [oneFile "b"]).plan (some I) =
      updatePlan movedWorld mixedConfig I (updateChanges movedWorld I [oneFile "b"]).changes := by
    rw [Operation.plan, h.isEmpty, if_neg Bool.false_ne_true]
  obtain ⟨d', hUpdate, hHolds⟩ := Operation.commits_of_gives
    (.update movedWorld mixedConfig [oneFile "b"]) h.holds (by simp [Operation.staged])
    (hPlan.symm ▸ hGives)
  have hShows (read : ReadFile) (path : String) (hPath : oneFile path ∈ oneCorpus.versions) :
      oneCorpus.Shows read [oneFile path] :=
    ⟨by simpa using hPath, by simp [oneFile], by simp⟩
  have hRun : (disk oneCorpus).Run [.commit (.build oneWorld mixedConfig [oneFile "a"]) none,
      .commit (.update movedWorld mixedConfig [oneFile "b"]) (some I)] d' := by
    have hFirst : (disk oneCorpus).Run [.commit (.build oneWorld mixedConfig [oneFile "a"]) none]
        d :=
      Machine.Run.init.step ⟨⟨h.fits, hShows _ "a" (.inl rfl)⟩, h.commits⟩
    refine hFirst.step ⟨⟨h.updateFits, ?_, ?_, ?_⟩, hUpdate⟩
    · exact hShows _ "b" (.inr rfl)
    · exact hShows _ "b" (.inr rfl)
    · intro I' hI'
      obtain rfl := Option.some.inj hI'
      exact h.noneShadowed
  obtain ⟨cur, hCur, -, hRows⟩ := rows_after_run hRun
  obtain rfl := hHolds.unique hCur
  exact ⟨_, d', hRun, J, hHolds, (hRows J rfl).1⟩

end Refinement

end Ripindex
