import Ripindex.Store.Commits
import Ripindex.Store.Merge

/-!
# What a merge commits

The commit of prepared merges keeps the segments that are no source and puts one segment
for each merge behind the ids in use. A `StagedMerge` is a prepared merge together with
the contents of its staged files.

## Results

* `preparePlan_ok` — preparing a merge stages the surviving documents and their postings;
* `mergePlan_gives` — with room, a merge that ends in a commit gives the spliced index;
* `mergePlan_all` — what the operations touch.
-/

namespace Ripindex

variable [Platform]

-- ---------------------------------------------------------------------------
-- Staged merges
-- ---------------------------------------------------------------------------

/-- A prepared merge with the contents of its staged files. -/
structure StagedMerge where
  merge : PreparedMerge
  idx : IdxFile
  records : List DocMeta
  length_records : records.length = merge.numDocs.toNat
  idxLen : merge.idxLen = (FileData.idx idx).len
  idxCrc : merge.idxCrc = (FileData.idx idx).crc
  numTerms : merge.counts.numTerms = idx.terms.length
  docLen : merge.docLen = (FileData.doc records).len
  docCrc : merge.docCrc = (FileData.doc records).crc

namespace StagedMerge

/-- The names of the staged files. -/
def names (x : StagedMerge) : List FileName :=
  [.staged x.merge.tag .idx, .staged x.merge.tag .doc]

/-- The staged files. -/
def files (x : StagedMerge) : List (FileName × FileData) :=
  [(.staged x.merge.tag .idx, .idx x.idx), (.staged x.merge.tag .doc, .doc x.records)]

end StagedMerge

/-- The surviving documents of a merge under their new ids. -/
def oldToNewOf (I : Index) (segs : List Segment) : AList fun _ : SourceDoc => DocId :=
  renumber ((survivors I segs).map Prod.fst)

/-- What preparing a merge of the segments `segs` of `I` has computed. -/
structure StagedMerge.Prepares (x : StagedMerge) (I : Index) (sourceIds : List UInt32)
    (segs : List Segment) : Prop where
  sourceIds : x.merge.sourceIds = sourceIds
  snapshotDelGen : x.merge.snapshotDelGen =
    segs.map fun s => (s.entry.segmentId, s.entry.delGen)
  oldToNew : x.merge.oldToNew = oldToNewOf I segs
  records : x.records = (survivors I segs).map Prod.snd
  idx : Idx.write (Idx.sortedTerms (remapTerms (oldToNewOf I segs) segs)) =
    .ok (x.idx, x.merge.counts)

/-- Preparing a merge stages the surviving documents and their postings. -/
theorem preparePlan_ok {tag : StagingTag} {I : Index} {sourceIds : List UInt32}
    {segs : List Segment} {p : PreparedMerge}
    (h : (preparePlan tag I sourceIds segs).result = .ok p) :
    ∃ x : StagedMerge, x.merge = p ∧ x.merge.tag = tag ∧ x.Prepares I sourceIds segs ∧
      (preparePlan tag I sourceIds segs).steps =
        (Plan.writeWhole (.staged tag .idx) (.idx x.idx)).steps ++
          (Plan.writeWhole (.staged tag .doc) (.doc x.records)).steps := by
  unfold preparePlan at h ⊢
  obtain ⟨-, -, h⟩ := Plan.bind_ok.mp h
  obtain ⟨⟨idx, counts⟩, hIdx, h⟩ := Plan.bind_ok.mp h
  obtain ⟨-, -, h⟩ := Plan.bind_ok.mp h
  obtain ⟨records, hEncode, h⟩ := Plan.bind_ok.mp h
  obtain ⟨view, hParse, h⟩ := Plan.bind_ok.mp h
  obtain ⟨-, -, h⟩ := Plan.bind_ok.mp h
  have hWrite := Plan.ofFormat_result_ok.mp hIdx
  have hRecords := Doc.encode_ok (Plan.ofFormat_result_ok.mp hEncode)
  have hLt := Doc.parse_ok (Plan.ofFormat_result_ok.mp hParse)
  simp only [Plan.pure_result, Except.ok.injEq] at h
  subst h
  refine ⟨⟨_, idx, records, ?_, rfl, rfl, ?_, rfl, rfl⟩, rfl, rfl, ⟨rfl, rfl, rfl, ?_, ?_⟩, ?_⟩
  · rw [hRecords] at hLt ⊢
    rw [List.length_map] at hLt ⊢
    exact (UInt32.toNat_ofNat_of_lt' hLt).symm
  · exact (Idx.writeTerms_numTerms (Idx.write_ok hWrite)).symm
  · exact hRecords
  · exact hWrite
  · rw [Plan.bind_steps (Plan.emit_result _), Plan.bind_steps hIdx, Plan.bind_steps
      (Plan.emit_result _), Plan.bind_steps hEncode, Plan.bind_steps hParse,
      Plan.bind_steps rfl]
    rfl

-- ---------------------------------------------------------------------------
-- Merged segments
-- ---------------------------------------------------------------------------

omit [Platform] in
theorem numDocs_carrySource (cur : Index) (p : PreparedMerge) (carry : Bitmap) (src : UInt32) :
    (carrySource cur p carry src).numDocs = carry.numDocs := by
  have hFold : ∀ (l : List (Sigma fun _ : SourceDoc => DocId)) (b carry : Bitmap),
      (l.foldl (fun carry e =>
        if e.1.1 = src ∧ b.get e.1.2 then carry.set e.2 else carry) carry).numDocs =
          carry.numDocs := by
    intro l b
    induction l with
    | nil => exact fun _ => rfl
    | cons e l ih =>
      intro carry
      rw [List.foldl_cons, ih]
      split <;> rfl
  unfold carrySource
  split
  · rfl
  · split
    · rfl
    · split
      · rfl
      · exact hFold _ _ _

omit [Platform] in
theorem numDocs_carryBitmap (cur : Index) (p : PreparedMerge) :
    (carryBitmap cur p).numDocs = p.numDocs := by
  have hFold : ∀ (l : List UInt32) (carry : Bitmap),
      (l.foldl (carrySource cur p) carry).numDocs = carry.numDocs := by
    intro l
    induction l with
    | nil => exact fun _ => rfl
    | cons src l ih =>
      intro carry
      rw [List.foldl_cons, ih, numDocs_carrySource]
  exact hFold _ _

namespace StagedMerge

/-- The merged segment before the deletions carried into it. -/
def plainSegment (x : StagedMerge) (segmentId baseDoc : UInt32) : Segment where
  entry := x.merge.entry segmentId baseDoc
  idx := x.idx
  docs := x.records
  del := none
  length_docs := x.length_records
  numDocs_del := by simp
  count_del := by simp

/-- The merged segment over the index `cur`. -/
def segment (x : StagedMerge) (cur : Index) (segmentId baseDoc : UInt32) : Segment :=
  if 0 < (carryBitmap cur x.merge).count then
    (x.plainSegment segmentId baseDoc).withDel (carryBitmap cur x.merge)
      (numDocs_carryBitmap cur x.merge)
  else x.plainSegment segmentId baseDoc

/-- The files of the merged segment. -/
def segmentFiles (x : StagedMerge) (cur : Index) (segmentId : UInt32) :
    List (FileName × FileData) :=
  [(.idx segmentId, .idx x.idx), (.doc segmentId, .doc x.records)] ++
    if 0 < (carryBitmap cur x.merge).count then
      [(.del segmentId 1, .del (carryBitmap cur x.merge))]
    else []

variable (x : StagedMerge) (cur : Index) (segmentId baseDoc : UInt32)

@[simp] theorem segmentId_segment :
    (x.segment cur segmentId baseDoc).entry.segmentId = segmentId := by
  unfold segment
  split <;> rfl

@[simp] theorem baseDoc_segment :
    (x.segment cur segmentId baseDoc).entry.baseDoc = baseDoc := by
  unfold segment
  split <;> rfl

@[simp] theorem numDocs_segment :
    (x.segment cur segmentId baseDoc).entry.numDocs = x.merge.numDocs := by
  unfold segment
  split <;> rfl

@[simp] theorem docs_segment : (x.segment cur segmentId baseDoc).docs = x.records := by
  unfold segment
  split <;> rfl

@[simp] theorem idx_segment : (x.segment cur segmentId baseDoc).idx = x.idx := by
  unfold segment
  split <;> rfl

theorem isDeleted_segment (i : DocId) :
    (x.segment cur segmentId baseDoc).isDeleted i ↔ (carryBitmap cur x.merge).get i := by
  unfold segment
  split
  · rfl
  · rename_i hCount
    -- No bit is set, so none is lost by writing no file.
    have hZero : (carryBitmap cur x.merge).count.toNat = 0 := by
      by_contra hNe
      exact hCount (UInt32.lt_iff_toNat_lt.mpr (Nat.pos_of_ne_zero hNe))
    rw [Bitmap.toNat_count, List.count_eq_zero] at hZero
    simp only [plainSegment, Segment.isDeleted, Option.any_none, Bool.false_eq_true, false_iff,
      Bitmap.get, List.getD_eq_getElem?_getD]
    intro hGet
    cases hAt : (carryBitmap cur x.merge).bits[i.toNat]? with
    | none => simp [hAt] at hGet
    | some v =>
      obtain rfl : v = true := by simpa [hAt] using hGet
      exact hZero (List.mem_of_getElem? hAt)

/-- A merged segment is backed by its files. -/
theorem backed_segment {d : Dir}
    (h : ∀ f ∈ x.segmentFiles cur segmentId, d.lookup f.1 = some f.2) :
    (x.segment cur segmentId baseDoc).Backed d := by
  have hIdx := h (.idx segmentId, .idx x.idx) (by simp [segmentFiles])
  have hDoc := h (.doc segmentId, .doc x.records) (by simp [segmentFiles])
  unfold segment
  split
  · rename_i hCount
    have hDel := h (.del segmentId 1, .del (carryBitmap cur x.merge))
      (by simp [segmentFiles, hCount])
    refine ⟨⟨hIdx, x.idxLen.symm, x.idxCrc.symm⟩, x.numTerms.symm,
      ⟨hDoc, x.docLen.symm, x.docCrc.symm⟩, ?_, ?_⟩
    · rintro _ ⟨⟩
      exact ⟨hDel, rfl, rfl⟩
    · simp only [Segment.withDel, SegmentEntry.withDel, Option.isSome_some, iff_true]
      change (0 : UInt32) < 0 + 1
      decide
  · exact ⟨⟨hIdx, x.idxLen.symm, x.idxCrc.symm⟩, x.numTerms.symm,
      ⟨hDoc, x.docLen.symm, x.docCrc.symm⟩, by simp [plainSegment], by
        simp [plainSegment, PreparedMerge.entry]⟩

theorem entryOk_segment {next : UInt32} (hId : segmentId < next)
    (hEnd : baseDoc.toNat + x.merge.numDocs.toNat ≤ 2 ^ 32) :
    Manifest.EntryOk next (x.segment cur segmentId baseDoc).entry := by
  refine ⟨by simpa using hId, by simpa [SegmentEntry.endDoc] using hEnd, ?_, ?_⟩
  · unfold segment
    split
    · have hLen : (FileData.del (carryBitmap cur x.merge)).len ≠ 0 :=
        (FileData.len_pos (by simp)).ne'
      simp only [Segment.withDel, SegmentEntry.withDel, hLen, iff_false]
      change ¬ (0 : UInt32) + 1 = 0
      decide
    · simp [plainSegment, PreparedMerge.entry]
  · unfold segment
    split
    · have := (carryBitmap cur x.merge).count_le
      rwa [numDocs_carryBitmap] at this
    · simp [plainSegment, PreparedMerge.entry, UInt32.le_iff_toNat_le]

end StagedMerge

/-- The segments of several merges, one behind the other. -/
def mergedSegments (cur : Index) (segmentId baseDoc : UInt32) :
    List StagedMerge → List Segment
  | [] => []
  | x :: xs => x.segment cur segmentId baseDoc ::
      mergedSegments cur (segmentId + 1) (baseDoc + x.merge.numDocs) xs

/-- The files of several merged segments. -/
def mergedFiles (cur : Index) (segmentId : UInt32) :
    List StagedMerge → List (FileName × FileData)
  | [] => []
  | x :: xs => x.segmentFiles cur segmentId ++ mergedFiles cur (segmentId + 1) xs

/-- The operations that put a merged segment in place. -/
def finishSteps (cur : Index) (segmentId : UInt32) (x : StagedMerge) : List FileStep :=
  [.rename (.staged x.merge.tag .idx) (.idx segmentId),
    .rename (.staged x.merge.tag .doc) (.doc segmentId)] ++
    if 0 < (carryBitmap cur x.merge).count then
      (Plan.writeFinal (.del segmentId 1) (.del (carryBitmap cur x.merge))).steps
    else []

def finishAllSteps (cur : Index) (segmentId : UInt32) : List StagedMerge → List FileStep
  | [] => []
  | x :: xs => finishSteps cur segmentId x ++ finishAllSteps cur (segmentId + 1) xs

theorem finishOne_eq (cur : Index) (x : StagedMerge) (segmentId baseDoc : UInt32) :
    finishOne cur x.merge segmentId baseDoc =
      ⟨finishSteps cur segmentId x, .ok (x.segment cur segmentId baseDoc).entry⟩ := by
  unfold finishOne finishSteps StagedMerge.segment
  by_cases hCount : 0 < (carryBitmap cur x.merge).count
  · simp only [hCount, if_true]
    rfl
  · simp only [hCount, if_false]
    rfl

omit [Platform] in
/-- The sources of the merges are all listed. -/
def SourcesListed (m : Manifest) (prepared : List PreparedMerge) : Prop :=
  ∀ p ∈ prepared, missingSource m p.sourceIds = none

/-- When every source is listed, all merges are put in place. -/
theorem finishAll_of_listed {cur : Index} (segmentId baseDoc : UInt32) {xs : List StagedMerge}
    (h : SourcesListed cur.manifest (xs.map StagedMerge.merge)) :
    finishAll cur segmentId baseDoc (xs.map StagedMerge.merge) =
      ⟨finishAllSteps cur segmentId xs,
        .ok ((mergedSegments cur segmentId baseDoc xs).map Segment.entry,
          segmentId + UInt32.ofNat xs.length)⟩ := by
  induction xs generalizing segmentId baseDoc with
  | nil => simp [finishAll, finishAllSteps, mergedSegments, pure]
  | cons x xs ih =>
    obtain ⟨hHead, hTail⟩ := List.forall_mem_cons.mp h
    have hRest := ih (segmentId + 1) (baseDoc + x.merge.numDocs) hTail
    simp only [List.map_cons, finishAll, hHead, finishOne_eq, bind,
      StagedMerge.numDocs_segment, hRest, pure, List.append_nil, finishAllSteps,
      mergedSegments, List.length_cons, UInt32.ofNat_add, UInt32.add_assoc,
      UInt32.add_comm 1]
    rfl

/-- A missing source stops the merges. -/
theorem finishAll_of_not_listed {cur : Index} (segmentId baseDoc : UInt32)
    {xs : List StagedMerge} (h : ¬ SourcesListed cur.manifest (xs.map StagedMerge.merge)) :
    ∃ e, (finishAll cur segmentId baseDoc (xs.map StagedMerge.merge)).result = .error e := by
  induction xs generalizing segmentId baseDoc with
  | nil => exact absurd (by simp [SourcesListed]) h
  | cons x xs ih =>
    cases hHead : missingSource cur.manifest x.merge.sourceIds with
    | some id =>
      simp only [List.map_cons, finishAll, hHead]
      exact ⟨_, rfl⟩
    | none =>
      obtain ⟨e, he⟩ := ih (segmentId + 1) (baseDoc + x.merge.numDocs)
        (fun hTail => h (List.forall_mem_cons.mpr ⟨hHead, hTail⟩))
      refine ⟨e, ?_⟩
      simp only [List.map_cons, finishAll, hHead, finishOne_eq, bind,
        StagedMerge.numDocs_segment, he]

-- ---------------------------------------------------------------------------
-- The names of merged segments
-- ---------------------------------------------------------------------------

/-- The counters suffice for merges that start at document `bound` and segment `id`: every
merged segment has a base and an id. -/
def MergesFit (bound : Nat) (id : UInt32) : List PreparedMerge → Prop
  | [] => bound ≤ 2 ^ 32
  | p :: ps => bound < 2 ^ 32 ∧ id.toNat + 1 < 2 ^ 32 ∧
      MergesFit (bound + p.numDocs.toNat) (id + 1) ps

omit [Platform] in
theorem MergesFit.bound_le {bound : Nat} {id : UInt32} {ps : List PreparedMerge}
    (h : MergesFit bound id ps) :
    bound + (ps.map fun p => p.numDocs.toNat).sum ≤ 2 ^ 32 := by
  induction ps generalizing bound id with
  | nil => simpa [MergesFit] using h
  | cons p ps ih =>
    have := ih h.2.2
    simp only [List.map_cons, List.sum_cons]
    omega

omit [Platform] in
theorem MergesFit.id_lt {bound : Nat} {id : UInt32} {ps : List PreparedMerge}
    (h : MergesFit bound id ps) : id.toNat + ps.length < 2 ^ 32 := by
  induction ps generalizing bound id with
  | nil => exact id.toNat_lt
  | cons p ps ih =>
    have hId : (id + 1).toNat = id.toNat + 1 := by
      rw [UInt32.toNat_add, UInt32.toNat_one, Nat.mod_eq_of_lt h.2.1]
    have := ih h.2.2
    rw [hId] at this
    simp only [List.length_cons]
    omega

theorem length_mergedSegments {cur : Index} {id base : UInt32} {xs : List StagedMerge} :
    (mergedSegments cur id base xs).length = xs.length := by
  induction xs generalizing id base with
  | nil => rfl
  | cons x xs ih => exact congrArg (· + 1) ih

/-- Where merged segments lie. -/
structure MergedBounds (bound : Nat) (id : UInt32) (n : Nat) (s : Segment) : Prop where
  base_ge : bound ≤ s.entry.baseDoc.toNat
  end_le : s.entry.endDoc ≤ 2 ^ 32
  id_ge : id.toNat ≤ s.entry.segmentId.toNat
  id_lt : s.entry.segmentId.toNat < id.toNat + n

theorem mergedSegments_bounds {cur : Index} {bound : Nat} {id : UInt32}
    {xs : List StagedMerge} (h : MergesFit bound id (xs.map StagedMerge.merge)) :
    ∀ s ∈ mergedSegments cur id (UInt32.ofNat bound) xs, MergedBounds bound id xs.length s := by
  induction xs generalizing bound id with
  | nil => simp [mergedSegments]
  | cons x xs ih =>
    have hBound := h.bound_le
    obtain ⟨hLt, hId, hRest⟩ := h
    have hBase : (UInt32.ofNat bound).toNat = bound := UInt32.toNat_ofNat_of_lt' hLt
    have hNext : (id + 1).toNat = id.toNat + 1 := by
      rw [UInt32.toNat_add, UInt32.toNat_one, Nat.mod_eq_of_lt hId]
    have hNum : UInt32.ofNat bound + x.merge.numDocs =
        UInt32.ofNat (bound + x.merge.numDocs.toNat) := by
      rw [UInt32.ofNat_add, UInt32.ofNat_toNat]
    simp only [List.map_cons, List.sum_cons] at hBound
    intro s hs
    rcases List.mem_cons.mp hs with rfl | hs
    · exact ⟨by simp [hBase], by simp only [SegmentEntry.endDoc,
        StagedMerge.baseDoc_segment, StagedMerge.numDocs_segment, hBase]; omega, by simp,
        by simp⟩
    · rw [hNum] at hs
      obtain ⟨h1, h2, h3, h4⟩ := ih hRest s hs
      rw [hNext] at h3 h4
      exact ⟨by omega, h2, by omega, by simp only [List.length_cons]; omega⟩

theorem mergedSegments_entryOk {cur : Index} {bound : Nat} {id : UInt32}
    {xs : List StagedMerge} (h : MergesFit bound id (xs.map StagedMerge.merge)) :
    ∀ s ∈ mergedSegments cur id (UInt32.ofNat bound) xs,
      Manifest.EntryOk (id + UInt32.ofNat xs.length) s.entry := by
  induction xs generalizing bound id with
  | nil => simp [mergedSegments]
  | cons x xs ih =>
    have hBound := h.bound_le
    have hIds := h.id_lt
    obtain ⟨hLt, hId, hRest⟩ := h
    have hNum : UInt32.ofNat bound + x.merge.numDocs =
        UInt32.ofNat (bound + x.merge.numDocs.toNat) := by
      rw [UInt32.ofNat_add, UInt32.ofNat_toNat]
    have hNext : id + UInt32.ofNat (x :: xs).length = id + 1 + UInt32.ofNat xs.length := by
      rw [List.length_cons, UInt32.ofNat_add, UInt32.add_assoc, UInt32.add_comm 1]
      rfl
    simp only [List.map_cons, List.sum_cons, List.length_cons, List.length_map] at hBound hIds
    intro s hs
    rcases List.mem_cons.mp hs with rfl | hs
    · refine x.entryOk_segment cur _ _ ?_ ?_
      · rw [UInt32.lt_iff_toNat_lt, toNat_add_ofNat (by simpa using hIds), List.length_cons]
        omega
      · rw [UInt32.toNat_ofNat_of_lt' hLt]
        omega
    · rw [hNum] at hs
      rw [hNext]
      exact ih hRest s hs

/-- The merged segments follow one another. -/
theorem mergedSegments_chain {cur : Index} {bound : Nat} {id : UInt32}
    {xs : List StagedMerge} (h : MergesFit bound id (xs.map StagedMerge.merge)) :
    ((mergedSegments cur id (UInt32.ofNat bound) xs).map Segment.entry).IsChain
      Manifest.Follows := by
  induction xs generalizing bound id with
  | nil => simp [mergedSegments]
  | cons x xs ih =>
    obtain ⟨hLt, hId, hRest⟩ := h
    have hNum : UInt32.ofNat bound + x.merge.numDocs =
        UInt32.ofNat (bound + x.merge.numDocs.toNat) := by
      rw [UInt32.ofNat_add, UInt32.ofNat_toNat]
    have hNext : (id + 1).toNat = id.toNat + 1 := by
      rw [UInt32.toNat_add, UInt32.toNat_one, Nat.mod_eq_of_lt hId]
    rw [mergedSegments, hNum, List.map_cons, List.isChain_cons]
    refine ⟨fun e he => ?_, ih hRest⟩
    obtain ⟨s, hs, rfl⟩ := List.mem_map.mp (List.mem_of_mem_head? he)
    obtain ⟨hBase, -, hGe, -⟩ := mergedSegments_bounds hRest s hs
    rw [hNext] at hGe
    refine ⟨?_, fun hEq => ?_⟩
    · simp only [SegmentEntry.endDoc, StagedMerge.baseDoc_segment,
        StagedMerge.numDocs_segment, UInt32.toNat_ofNat_of_lt' hLt]
      exact hBase
    · rw [hEq, StagedMerge.segmentId_segment] at hGe
      omega

theorem mergedSegments_ids_nodup {cur : Index} {bound : Nat} {id : UInt32}
    {xs : List StagedMerge} (h : MergesFit bound id (xs.map StagedMerge.merge)) :
    ((mergedSegments cur id (UInt32.ofNat bound) xs).map
      fun s => s.entry.segmentId).Nodup := by
  induction xs generalizing bound id with
  | nil => simp [mergedSegments]
  | cons x xs ih =>
    obtain ⟨hLt, hId, hRest⟩ := h
    have hNum : UInt32.ofNat bound + x.merge.numDocs =
        UInt32.ofNat (bound + x.merge.numDocs.toNat) := by
      rw [UInt32.ofNat_add, UInt32.ofNat_toNat]
    have hNext : (id + 1).toNat = id.toNat + 1 := by
      rw [UInt32.toNat_add, UInt32.toNat_one, Nat.mod_eq_of_lt hId]
    rw [mergedSegments, hNum, List.map_cons]
    refine List.nodup_cons.mpr ⟨fun hMem => ?_, ih hRest⟩
    obtain ⟨s, hs, hEq⟩ := List.mem_map.mp hMem
    have hGe := (mergedSegments_bounds hRest s hs).id_ge
    rw [hEq, StagedMerge.segmentId_segment, hNext] at hGe
    omega

-- ---------------------------------------------------------------------------
-- Putting merged segments in place
-- ---------------------------------------------------------------------------

/-- What putting one merged segment in place touches. -/
theorem touches_finishSteps {cur : Index} {id : UInt32} {x : StagedMerge} {step : FileStep}
    (h : step ∈ finishSteps cur id x) {n : FileName} (hn : n ∈ step.touches) :
    n = .idx id ∨ n = .doc id ∨ n = .del id 1 ∨ n = .tmp (.del id 1) ∨ n ∈ x.names := by
  unfold finishSteps at h
  unfold StagedMerge.names
  rcases List.mem_append.mp h with h | h
  · simp only [List.mem_cons, List.not_mem_nil, or_false] at h
    rcases h with rfl | rfl <;>
      simp only [FileStep.touches, List.mem_cons, List.not_mem_nil, or_false] at hn <;>
      rcases hn with rfl | rfl <;> simp
  · split at h
    · simp only [Plan.writeFinal_steps, List.mem_cons, List.not_mem_nil, or_false] at h
      rcases h with rfl | rfl | rfl | rfl <;>
        simp only [FileStep.touches, List.mem_cons, List.not_mem_nil, or_false] at hn
      · exact .inr (.inr (.inr (.inl hn)))
      · exact .inr (.inr (.inr (.inl hn)))
      · rcases hn with rfl | rfl
        · exact .inr (.inr (.inr (.inl rfl)))
        · exact .inr (.inr (.inl rfl))
    · cases h

/-- Putting one merged segment in place gives it its files. -/
theorem lookup_after_finishSteps {cur : Index} {id : UInt32} {x : StagedMerge} {d : Dir}
    (hStaged : ∀ f ∈ x.files, d.lookup f.1 = some f.2) :
    ∀ f ∈ x.segmentFiles cur id, (after d (finishSteps cur id x)).lookup f.1 = some f.2 := by
  have hIdx : d.lookup (.staged x.merge.tag .idx) = some (.idx x.idx) :=
    hStaged (.staged x.merge.tag .idx, .idx x.idx) (by simp [StagedMerge.files])
  have hDoc : d.lookup (.staged x.merge.tag .doc) = some (.doc x.records) :=
    hStaged (.staged x.merge.tag .doc, .doc x.records) (by simp [StagedMerge.files])
  have hDoc' : (d.rename (.staged x.merge.tag .idx) (.idx id)).lookup
      (.staged x.merge.tag .doc) = some (.doc x.records) := by
    rw [Dir.lookup_rename_of_ne (by simp) (by simp), hDoc]
  intro f hf
  unfold finishSteps
  rw [after_append]
  simp only [StagedMerge.segmentFiles, List.mem_append, List.mem_cons, List.not_mem_nil,
    or_false] at hf
  have hTwo : ∀ m, (after d [.rename (.staged x.merge.tag .idx) (.idx id),
      .rename (.staged x.merge.tag .doc) (.doc id)]).lookup m =
      if m = .doc id then some (.doc x.records)
      else if m = .staged x.merge.tag .doc then none
      else if m = .idx id then some (.idx x.idx)
      else if m = .staged x.merge.tag .idx then none else d.lookup m := by
    intro m
    simp only [after, List.foldl_cons, List.foldl_nil, FileStep.apply]
    rw [Dir.lookup_rename hDoc', Dir.lookup_rename hIdx]
  by_cases hCount : 0 < (carryBitmap cur x.merge).count
  · rw [if_pos hCount] at hf ⊢
    rw [lookup_after_writeFinal]
    rcases hf with (rfl | rfl) | hf
    · simp [hTwo]
    · simp [hTwo]
    · rw [List.mem_singleton.mp hf]
      simp
  · rw [if_neg hCount] at hf ⊢
    rcases hf with (rfl | rfl) | hf
    · simp [hTwo]
    · simp [hTwo]
    · cases hf

omit [Platform] in
theorem add_one_add_ofNat (id : UInt32) (k : Nat) :
    id + 1 + UInt32.ofNat k = id + UInt32.ofNat (k + 1) := by
  rw [UInt32.ofNat_add, UInt32.add_assoc, UInt32.add_comm 1]
  rfl

/-- What putting merged segments in place touches: files of new ids, temporary ones, and the
staged files. -/
theorem touches_finishAllSteps {cur : Index} {id : UInt32} {xs : List StagedMerge}
    {step : FileStep} (h : step ∈ finishAllSteps cur id xs) {n : FileName}
    (hn : n ∈ step.touches) :
    (∃ k < xs.length, n = .idx (id + UInt32.ofNat k) ∨ n = .doc (id + UInt32.ofNat k) ∨
      n = .del (id + UInt32.ofNat k) 1) ∨ (∃ m, n = .tmp m) ∨ ∃ x ∈ xs, n ∈ x.names := by
  induction xs generalizing id with
  | nil => cases h
  | cons x xs ih =>
    rcases List.mem_append.mp h with h | h
    · rcases touches_finishSteps h hn with rfl | rfl | rfl | rfl | hn
      · exact .inl ⟨0, by simp, by simp⟩
      · exact .inl ⟨0, by simp, by simp⟩
      · exact .inl ⟨0, by simp, by simp⟩
      · exact .inr (.inl ⟨_, rfl⟩)
      · exact .inr (.inr ⟨x, List.mem_cons_self, hn⟩)
    · rcases ih h with ⟨k, hk, hEq⟩ | hTmp | ⟨y, hy, hn⟩
      · refine .inl ⟨k + 1, by simpa using hk, ?_⟩
        rwa [add_one_add_ofNat] at hEq
      · exact .inr (.inl hTmp)
      · exact .inr (.inr ⟨y, List.mem_cons_of_mem _ hy, hn⟩)

theorem mem_segmentFiles_staged {x : StagedMerge} {cur : Index} {id : UInt32}
    {f : FileName × FileData} (h : f ∈ x.segmentFiles cur id) :
    f.1 = .idx id ∨ f.1 = .doc id ∨ f.1 = .del id 1 := by
  unfold StagedMerge.segmentFiles at h
  rcases List.mem_append.mp h with h | h
  · simp only [List.mem_cons, List.not_mem_nil, or_false] at h
    rcases h with rfl | rfl <;> simp
  · split at h
    · rw [List.mem_singleton.mp h]
      simp
    · cases h

/-- Putting one merged segment in place leaves the staged files of the others. -/
theorem lookup_staged_after_finishSteps {cur : Index} {id : UInt32} {x y : StagedMerge} {d : Dir}
    (hTag : y.merge.tag ≠ x.merge.tag) {f : FileName × FileData} (hf : f ∈ y.files) :
    (after d (finishSteps cur id x)).lookup f.1 = d.lookup f.1 := by
  refine lookup_after ?_
  intro step hStep hn
  have hName : f.1 ∈ y.names := by
    simp only [StagedMerge.files, List.mem_cons, List.not_mem_nil, or_false] at hf
    rcases hf with rfl | rfl <;> simp [StagedMerge.names]
  simp only [StagedMerge.names, List.mem_cons, List.not_mem_nil, or_false] at hName
  rcases hName with h | h <;> rw [h] at hn <;>
    rcases touches_finishSteps hStep hn with hEq | hEq | hEq | hEq | hEq <;>
    simp_all [StagedMerge.names]

/-- Putting merged segments in place gives each of them its files. -/
theorem lookup_after_finishAllSteps {cur : Index} {id : UInt32} {xs : List StagedMerge}
    {d : Dir} (hStaged : ∀ x ∈ xs, ∀ f ∈ x.files, d.lookup f.1 = some f.2)
    (hTags : (xs.map fun x => x.merge.tag).Nodup) (hIds : id.toNat + xs.length < 2 ^ 32) :
    ∀ f ∈ mergedFiles cur id xs,
      (after d (finishAllSteps cur id xs)).lookup f.1 = some f.2 := by
  induction xs generalizing id d with
  | nil => simp [mergedFiles]
  | cons x xs ih =>
    obtain ⟨hHead, hTail⟩ := List.forall_mem_cons.mp hStaged
    obtain ⟨hTag, hTags'⟩ := List.nodup_cons.mp hTags
    rw [List.length_cons] at hIds
    have hNext : (id + 1).toNat = id.toNat + 1 := by
      rw [UInt32.toNat_add, UInt32.toNat_one, Nat.mod_eq_of_lt (by omega)]
    intro f hf
    rw [finishAllSteps, after_append]
    rcases List.mem_append.mp hf with hf | hf
    · -- The later segments have other ids.
      rw [lookup_after, lookup_after_finishSteps hHead f hf]
      intro step hStep hn
      have hId : ∀ k < xs.length, id ≠ id + 1 + UInt32.ofNat k := by
        intro k hk hEq
        have := congrArg UInt32.toNat hEq
        rw [toNat_add_ofNat (by omega), hNext] at this
        omega
      have hName := mem_segmentFiles_staged hf
      rcases touches_finishAllSteps hStep hn with ⟨k, hk, hEq⟩ | ⟨m, hEq⟩ | ⟨y, -, hEq⟩
      · have hNe := hId k hk
        rcases hName with h | h | h <;> rw [h] at hEq <;>
          simp only [FileName.idx.injEq, FileName.doc.injEq, FileName.del.injEq, reduceCtorEq,
            hNe, false_and, or_self] at hEq
      · rcases hName with h | h | h <;> rw [h] at hEq <;> cases hEq
      · rcases hName with h | h | h <;> rw [h] at hEq <;> simp [StagedMerge.names] at hEq
    · refine ih (fun y hy g hg => ?_) hTags' (by omega) f hf
      have hNe : y.merge.tag ≠ x.merge.tag := fun hEq =>
        hTag (List.mem_map.mpr ⟨y, hy, hEq⟩)
      rw [lookup_staged_after_finishSteps hNe hg, hTail y hy g hg]

/-- The operations that put merged segments in place find the files they move. -/
theorem runnable_finishAllSteps {cur : Index} {id : UInt32} {xs : List StagedMerge} {d : Dir}
    (hStaged : ∀ x ∈ xs, ∀ f ∈ x.files, d.lookup f.1 = some f.2)
    (hTags : (xs.map fun x => x.merge.tag).Nodup) : Runnable d (finishAllSteps cur id xs) := by
  induction xs generalizing id d with
  | nil => trivial
  | cons x xs ih =>
    obtain ⟨hHead, hTail⟩ := List.forall_mem_cons.mp hStaged
    obtain ⟨hTag, hTags'⟩ := List.nodup_cons.mp hTags
    have hIdx := hHead (.staged x.merge.tag .idx, .idx x.idx) (by simp [StagedMerge.files])
    have hDoc := hHead (.staged x.merge.tag .doc, .doc x.records) (by simp [StagedMerge.files])
    refine runnable_append.mpr ⟨runnable_append.mpr ⟨⟨?_, ?_, trivial⟩, ?_⟩, ?_⟩
    · exact Dir.mem_iff_lookup.mpr ⟨_, hIdx⟩
    · refine Dir.mem_iff_lookup.mpr ⟨.doc x.records, ?_⟩
      exact (Dir.lookup_rename_of_ne (by simp) (by simp)).trans hDoc
    · split
      · exact runnable_writeFinal _ _ _
      · trivial
    · refine ih (fun y hy f hf => ?_) hTags'
      have hNe : y.merge.tag ≠ x.merge.tag := fun hEq =>
        hTag (List.mem_map.mpr ⟨y, hy, hEq⟩)
      rw [lookup_staged_after_finishSteps hNe hf, hTail y hy f hf]

-- ---------------------------------------------------------------------------
-- The spliced index
-- ---------------------------------------------------------------------------

/-- The sources of the merges. -/
def mergedIds (prepared : List PreparedMerge) : List UInt32 :=
  prepared.flatMap PreparedMerge.sourceIds

/-- The entries that are no source. -/
def keptEntries (m : Manifest) (prepared : List PreparedMerge) : List SegmentEntry :=
  m.segments.filter fun e => e.segmentId ∉ mergedIds prepared

/-- The segments that are no source. -/
def keptSegments (I : Index) (prepared : List PreparedMerge) : List Segment :=
  I.segments.filter fun s => s.entry.segmentId ∉ mergedIds prepared

omit [Platform] in
theorem keptSegments_entries (I : Index) (prepared : List PreparedMerge) :
    (keptSegments I prepared).map Segment.entry = keptEntries I.manifest prepared := by
  unfold keptSegments keptEntries
  rw [← I.entries_eq, List.filter_map]
  rfl

/-- The counters suffice for the merges, and what they leave has no equal neighbours. -/
structure MergeRoom (I : Index) (prepared : List PreparedMerge) : Prop where
  fit : MergesFit (Index.endBound I.manifest.segments) I.manifest.nextSegmentId prepared
  length : (keptEntries I.manifest prepared).length + prepared.length < 2 ^ 32
  ids : (keptEntries I.manifest prepared).IsChain fun p e => e.segmentId ≠ p.segmentId
  generation : I.manifest.generation.toNat + 1 < 2 ^ 64

/-- The segments after the merges. -/
def splicedSegments (I : Index) (xs : List StagedMerge) : List Segment :=
  keptSegments I (xs.map StagedMerge.merge) ++
    mergedSegments I I.manifest.nextSegmentId
      (UInt32.ofNat (Index.endBound I.manifest.segments)) xs

/-- The manifest after the merges. -/
def splicedManifest (now : Int64) (I : Index) (xs : List StagedMerge) : Manifest :=
  { I.manifest with
    generation := I.manifest.generation + 1
    nextSegmentId := I.manifest.nextSegmentId + UInt32.ofNat xs.length
    committedUnixNanos := now
    segments := sortByBase ((splicedSegments I xs).map Segment.entry) }

/-- When every source is listed, a merge puts its segments in place and ends in a commit. -/
theorem mergePlan_of_listed (now : Int64) {I : Index} {xs : List StagedMerge}
    (h : SourcesListed I.manifest (xs.map StagedMerge.merge)) :
    mergePlan now I (xs.map StagedMerge.merge) =
      ⟨finishAllSteps I I.manifest.nextSegmentId xs,
        .ok (some (splicedManifest now I xs,
          retiredSources I.manifest (mergedIds (xs.map StagedMerge.merge))))⟩ := by
  unfold mergePlan
  simp only [finishAll_of_listed _ _ h, bind, pure, List.append_nil]
  rw [splicedManifest, splicedSegments, List.map_append, keptSegments_entries]
  rfl

/-- A merge that ends in a commit found its sources and put its segments in place. -/
theorem mergePlan_ok {now : Int64} {I : Index} {xs : List StagedMerge} {m : Manifest}
    {retire : List FileName}
    (h : (mergePlan now I (xs.map StagedMerge.merge)).result = .ok (some (m, retire))) :
    SourcesListed I.manifest (xs.map StagedMerge.merge) ∧ m = splicedManifest now I xs ∧
      retire = retiredSources I.manifest (mergedIds (xs.map StagedMerge.merge)) ∧
      (mergePlan now I (xs.map StagedMerge.merge)).steps =
        finishAllSteps I I.manifest.nextSegmentId xs := by
  by_cases hListed : SourcesListed I.manifest (xs.map StagedMerge.merge)
  · rw [mergePlan_of_listed now hListed] at h ⊢
    obtain ⟨rfl, rfl⟩ := Prod.mk.inj (Option.some.inj (Except.ok.inj h))
    exact ⟨hListed, rfl, rfl, rfl⟩
  · obtain ⟨e, he⟩ := finishAll_of_not_listed I.manifest.nextSegmentId
      (UInt32.ofNat (Index.endBound I.manifest.segments)) hListed
    unfold mergePlan at h
    obtain ⟨_, hAll, -⟩ := Plan.bind_ok.mp h
    rw [he] at hAll
    cases hAll

omit [Platform] in
theorem isChain_and {α : Type} {R S : α → α → Prop} {l : List α} (hR : l.IsChain R)
    (hS : l.IsChain S) : l.IsChain fun a b => R a b ∧ S a b := by
  induction l with
  | nil => exact List.IsChain.nil
  | cons a l ih =>
    rw [List.isChain_cons] at hR hS ⊢
    exact ⟨fun b hb => ⟨hR.1 b hb, hS.1 b hb⟩, ih hR.2 hS.2⟩

section Room

variable {I : Index} {xs : List StagedMerge}

/-- The ranges of the segments after the merges are in order. -/
theorem splicedSegments_bases
    (hFit : MergesFit (Index.endBound I.manifest.segments) I.manifest.nextSegmentId
      (xs.map StagedMerge.merge)) :
    ((splicedSegments I xs).map Segment.entry).IsChain
      fun p e : SegmentEntry => p.endDoc ≤ e.baseDoc.toNat := by
  unfold splicedSegments
  rw [List.map_append, keptSegments_entries, List.isChain_append]
  refine ⟨?_, (mergedSegments_chain hFit).imp fun _ _ hF => hF.base_ge, ?_⟩
  · exact (I.manifest_ok.pairwise_base.filter
      fun e => e.segmentId ∉ mergedIds (xs.map StagedMerge.merge)).isChain
  · intro p hp e he
    have hMem := (List.mem_filter.mp (List.mem_of_mem_getLast? hp)).1
    obtain ⟨s, hs, rfl⟩ := List.mem_map.mp (List.mem_of_mem_head? he)
    exact Nat.le_trans (Index.endDoc_le_endBound hMem) (mergedSegments_bounds hFit s hs).base_ge

theorem splicedSegments_chain (hRoom : MergeRoom I (xs.map StagedMerge.merge)) :
    ((splicedSegments I xs).map Segment.entry).IsChain Manifest.Follows := by
  have hIds : ((splicedSegments I xs).map Segment.entry).IsChain
      fun p e : SegmentEntry => e.segmentId ≠ p.segmentId := by
    unfold splicedSegments
    rw [List.map_append, keptSegments_entries, List.isChain_append]
    refine ⟨hRoom.ids, (mergedSegments_chain hRoom.fit).imp fun _ _ hF => hF.id_ne, ?_⟩
    intro p hp e he hEq
    have hMem := (List.mem_filter.mp (List.mem_of_mem_getLast? hp)).1
    obtain ⟨s, hs, rfl⟩ := List.mem_map.mp (List.mem_of_mem_head? he)
    have hId := (mergedSegments_bounds hRoom.fit s hs).id_ge
    have hLt := (I.manifest_ok.entries p hMem).id_lt
    rw [hEq, ← UInt32.le_iff_toNat_le] at hId
    exact UInt32.not_lt.mpr hId hLt
  exact (isChain_and (splicedSegments_bases hRoom.fit) hIds).imp fun _ _ h => ⟨h.1, h.2⟩

/-- The segments are in order when every merge fits, and sorting changes nothing. -/
theorem sortByBase_of_fit
    (hFit : MergesFit (Index.endBound I.manifest.segments) I.manifest.nextSegmentId
      (xs.map StagedMerge.merge)) :
    sortByBase ((splicedSegments I xs).map Segment.entry) =
      (splicedSegments I xs).map Segment.entry := by
  apply Platform.sort_of_sorted
  have hChain : ((splicedSegments I xs).map Segment.entry).IsChain
      fun p e : SegmentEntry => p.baseDoc ≤ e.baseDoc :=
    (splicedSegments_bases hFit).imp fun _ _ hBase =>
      UInt32.le_iff_toNat_le.mpr (Nat.le_trans (Nat.le_add_right _ _) hBase)
  have : Trans (fun p e : SegmentEntry => p.baseDoc ≤ e.baseDoc)
      (fun p e : SegmentEntry => p.baseDoc ≤ e.baseDoc)
      (fun p e : SegmentEntry => p.baseDoc ≤ e.baseDoc) :=
    ⟨fun {a b c} hab hbc => UInt32.le_trans hab hbc⟩
  exact List.isChain_iff_pairwise.mp hChain

/-- With room the segments are in order, and sorting changes nothing. -/
theorem sortByBase_spliced (hRoom : MergeRoom I (xs.map StagedMerge.merge)) :
    sortByBase ((splicedSegments I xs).map Segment.entry) =
      (splicedSegments I xs).map Segment.entry :=
  sortByBase_of_fit hRoom.fit

theorem splicedManifest_ok {now : Int64} (hRoom : MergeRoom I (xs.map StagedMerge.merge)) :
    (splicedManifest now I xs).Ok := by
  have hIds := hRoom.fit.id_lt
  rw [List.length_map] at hIds
  have hNext : I.manifest.nextSegmentId ≤
      I.manifest.nextSegmentId + UInt32.ofNat xs.length := by
    rw [UInt32.le_iff_toNat_le, toNat_add_ofNat hIds]
    exact Nat.le_add_right _ _
  refine ⟨I.manifest_ok.state_iff, ?_, ?_, ?_⟩
  · have := hRoom.length
    simp only [splicedManifest, sortByBase_spliced hRoom]
    rw [splicedSegments, List.map_append, keptSegments_entries, List.length_append,
      List.length_map, length_mergedSegments]
    simpa using this
  · simp only [splicedManifest, sortByBase_spliced hRoom]
    intro e he
    obtain ⟨s, hs, rfl⟩ := List.mem_map.mp he
    rcases List.mem_append.mp hs with hs | hs
    · have hMem := Index.mem_manifest_segments.mpr ⟨s, (List.mem_filter.mp hs).1, rfl⟩
      obtain ⟨h1, h2, h3, h4⟩ := I.manifest_ok.entries _ hMem
      exact ⟨UInt32.lt_of_lt_of_le h1 hNext, h2, h3, h4⟩
    · exact mergedSegments_entryOk hRoom.fit s hs
  · simp only [splicedManifest, sortByBase_spliced hRoom]
    exact splicedSegments_chain hRoom

end Room

/-- The index a merge commits. -/
def splicedIndex (now : Int64) (I : Index) (xs : List StagedMerge)
    (hRoom : MergeRoom I (xs.map StagedMerge.merge)) : Index where
  manifest := splicedManifest now I xs
  segments := splicedSegments I xs
  overlay := I.overlay
  entries_eq := (sortByBase_spliced hRoom).symm
  manifest_ok := splicedManifest_ok hRoom

theorem mem_mergedFiles {cur : Index} {id baseDoc : UInt32} {xs : List StagedMerge}
    {s : Segment} (hs : s ∈ mergedSegments cur id baseDoc xs) :
    ∃ x ∈ xs, ∃ id' baseDoc', s = x.segment cur id' baseDoc' ∧
      ∀ f ∈ x.segmentFiles cur id', f ∈ mergedFiles cur id xs := by
  induction xs generalizing id baseDoc with
  | nil => cases hs
  | cons x xs ih =>
    rcases List.mem_cons.mp hs with rfl | hs
    · exact ⟨x, List.mem_cons_self, id, baseDoc, rfl, fun f hf =>
        List.mem_append_left _ hf⟩
    · obtain ⟨y, hy, id', baseDoc', hEq, hFiles⟩ := ih hs
      exact ⟨y, List.mem_cons_of_mem _ hy, id', baseDoc', hEq, fun f hf =>
        List.mem_append_right _ (hFiles f hf)⟩

section Gives

variable {now : Int64} {I : Index} {xs : List StagedMerge}

/-- The id of a merged segment is new. -/
theorem nextSegmentId_le_merged (hRoom : MergeRoom I (xs.map StagedMerge.merge))
    {s : Segment} (hs : s ∈ mergedSegments I I.manifest.nextSegmentId
      (UInt32.ofNat (Index.endBound I.manifest.segments)) xs) :
    I.manifest.nextSegmentId ≤ s.entry.segmentId :=
  UInt32.le_iff_toNat_le.mpr (mergedSegments_bounds hRoom.fit s hs).id_ge

theorem splicedIndex_sound (hI : I.Sound) (hRoom : MergeRoom I (xs.map StagedMerge.merge)) :
    (splicedIndex now I xs hRoom).Sound where
  ids_nodup := by
    change ((splicedSegments I xs).map fun s => s.entry.segmentId).Nodup
    unfold splicedSegments
    rw [List.map_append]
    refine List.nodup_append.mpr ⟨hI.ids_nodup.sublist (List.filter_sublist.map _),
      mergedSegments_ids_nodup hRoom.fit, ?_⟩
    intro a ha b hb hEq
    obtain ⟨s, hs, rfl⟩ := List.mem_map.mp ha
    obtain ⟨t, ht, rfl⟩ := List.mem_map.mp hb
    exact UInt32.not_lt.mpr (nextSegmentId_le_merged hRoom ht)
      (hEq ▸ I.segmentId_lt (List.mem_filter.mp hs).1)
  numDeleted := by
    intro s hs hNone
    rcases List.mem_append.mp hs with hs | hs
    · exact hI.numDeleted s (List.mem_filter.mp hs).1 hNone
    · obtain ⟨x, -, id, base, rfl, -⟩ := mem_mergedFiles hs
      unfold StagedMerge.segment at hNone ⊢
      split at hNone
      · cases hNone
      · rename_i hCount
        rw [if_neg hCount]
        rfl

/-- A merge keeps the other segments and adds its own behind them. -/
theorem splicedIndex_grows (hRoom : MergeRoom I (xs.map StagedMerge.merge)) :
    I.Grows (splicedIndex now I xs hRoom) where
  next_le := by
    have hIds := hRoom.fit.id_lt
    rw [List.length_map] at hIds
    change I.manifest.nextSegmentId ≤ I.manifest.nextSegmentId + UInt32.ofNat xs.length
    rw [UInt32.le_iff_toNat_le, toNat_add_ofNat hIds]
    exact Nat.le_add_right _ _
  carried := by
    intro t ht hLt
    rcases List.mem_append.mp ht with ht | ht
    · exact ⟨t, (List.mem_filter.mp ht).1, Segment.Carried.refl t⟩
    · exact absurd hLt (UInt32.not_lt.mpr (nextSegmentId_le_merged hRoom ht))
  bound_le := by
    rcases xs with _ | ⟨x, xs'⟩
    · -- No merge at all keeps every segment.
      refine Index.endBound_le fun e he => Index.endDoc_le_endBound ?_
      obtain ⟨s, hs, rfl⟩ := Index.mem_manifest_segments.mp he
      exact Index.mem_manifest_segments.mpr
        ⟨s, List.mem_append_left _ (List.mem_filter.mpr ⟨hs, by simp [mergedIds]⟩), rfl⟩
    -- The first merged segment starts at the old bound.
    have hFirst : x.segment I I.manifest.nextSegmentId
        (UInt32.ofNat (Index.endBound I.manifest.segments)) ∈
          mergedSegments I I.manifest.nextSegmentId
            (UInt32.ofNat (Index.endBound I.manifest.segments)) (x :: xs') :=
      List.mem_cons_self
    have hMem := Index.mem_manifest_segments (I := splicedIndex now I (x :: xs') hRoom)
      |>.mpr ⟨_, List.mem_append_right _ hFirst, rfl⟩
    exact Nat.le_trans (mergedSegments_bounds hRoom.fit _ hFirst).base_ge
      (Nat.le_trans (Nat.le_add_right _ _) (Index.endDoc_le_endBound hMem))
  base_ge := by
    intro t ht hGe
    rcases List.mem_append.mp ht with ht | ht
    · exact absurd (I.segmentId_lt (List.mem_filter.mp ht).1) (UInt32.not_lt.mpr hGe)
    · exact (mergedSegments_bounds hRoom.fit t ht).base_ge

omit [Platform] in
/-- A retired file belongs to a source. -/
theorem mem_retiredSources {m : Manifest} {ids : List UInt32} {n : FileName}
    (h : n ∈ retiredSources m ids) :
    ∃ e ∈ m.segments, e.segmentId ∈ ids ∧ n ∈ segmentFiles e := by
  obtain ⟨id, hId, hn⟩ := List.mem_flatMap.mp h
  split at hn
  · rename_i e hFind
    refine ⟨e, List.mem_of_find?_eq_some hFind, ?_, hn⟩
    have := List.find?_some hFind
    rwa [beq_iff_eq.mp this]
  · cases hn

/-- With room, a merge that ends in a commit gives the spliced index. -/
theorem mergePlan_gives {m : Manifest} {retire : List FileName} (hI : I.Sound)
    (h : (mergePlan now I (xs.map StagedMerge.merge)).result = .ok (some (m, retire)))
    (hTags : (xs.map fun x => x.merge.tag).Nodup)
    (hRoom : MergeRoom I (xs.map StagedMerge.merge)) :
    (splicedIndex now I xs hRoom).manifest = m ∧
      (mergePlan now I (xs.map StagedMerge.merge)).Gives (some I)
        (xs.flatMap StagedMerge.files) (splicedIndex now I xs hRoom) retire := by
  obtain ⟨hListed, rfl, rfl, hSteps⟩ := mergePlan_ok h
  have hIds := hRoom.fit.id_lt
  rw [List.length_map] at hIds
  refine ⟨rfl, h, splicedIndex_sound hI hRoom, ?_, ?_, ?_⟩
  · rintro _ ⟨⟩
    exact (splicedIndex_grows hRoom).toEvolves
  · intro d hBacked hStaged
    have hB := hBacked I rfl
    have hNew : ∀ f ∈ mergedFiles I I.manifest.nextSegmentId xs,
        (after d (finishAllSteps I I.manifest.nextSegmentId xs)).lookup f.1 = some f.2 :=
      lookup_after_finishAllSteps (fun x hx f hf =>
        hStaged f (List.mem_flatMap.mpr ⟨x, hx, hf⟩)) hTags hIds
    have hOld : ∀ n ∈ referencedFiles I.manifest,
        (after d (finishAllSteps I I.manifest.nextSegmentId xs)).lookup n = d.lookup n := by
      intro n hn
      have hData := Index.isData_of_mem_referencedFiles hn
      refine lookup_after ?_
      intro step hStep hTouch
      rcases touches_finishAllSteps hStep hTouch with ⟨k, hk, hEq⟩ | ⟨m', rfl⟩ | ⟨x, -, hName⟩
      · have hGe : I.manifest.nextSegmentId ≤
            I.manifest.nextSegmentId + UInt32.ofNat k := by
          rw [UInt32.le_iff_toNat_le, toNat_add_ofNat (by omega)]
          exact Nat.le_add_right _ _
        refine hI.not_mem_referencedFiles (n := n) ?_ hn
        rcases hEq with rfl | rfl | rfl
        · exact hGe
        · exact hGe
        · exact .inl hGe
      · simp [FileName.isData] at hData
      · simp only [StagedMerge.names, List.mem_cons, List.not_mem_nil, or_false] at hName
        rcases hName with rfl | rfl <;> simp [FileName.isData] at hData
    have hLookup : ∀ n, n.isData → (d.committed
        (mergePlan now I (xs.map StagedMerge.merge)).steps
          (splicedManifest now I xs)).lookup n =
        (after d (finishAllSteps I I.manifest.nextSegmentId xs)).lookup n := by
      intro n hn
      rw [Dir.lookup_committed_of_isData _ _ _ hn, hSteps]
    refine ⟨?_, ?_, ?_, hB.no_overlay⟩
    · rw [Dir.lookup_committed, if_pos rfl]
    · intro s hs
      rcases List.mem_append.mp hs with hs | hs
      · have hMem := (List.mem_filter.mp hs).1
        refine (hB.segments s hMem).of_agree ?_
        intro n hn
        have hRef := Index.mem_referencedFiles.mpr (.inl ⟨s, hMem, hn⟩)
        exact (hLookup n (Index.isData_of_mem_referencedFiles hRef)).trans (hOld n hRef)
      · obtain ⟨x, -, id, base, rfl, hFiles⟩ := mem_mergedFiles hs
        refine x.backed_segment I id base ?_
        intro f hf
        have hData : f.1.isData := by
          rcases mem_segmentFiles_staged hf with h | h | h <;> rw [h] <;> rfl
        exact (hLookup f.1 hData).trans (hNew f (hFiles f hf))
    · intro hGen
      have hRef : FileName.overlay I.manifest.stateGen ∈ referencedFiles I.manifest :=
        Index.mem_referencedFiles.mpr (.inr ⟨hGen, rfl⟩)
      exact (hB.overlay hGen).of_agree ((hLookup _ rfl).trans (hOld _ hRef))
  · intro n hn
    obtain ⟨e, he, hMerged, hFile⟩ := mem_retiredSources hn
    obtain ⟨s, hs, rfl⟩ := Index.mem_manifest_segments.mp he
    have hRef : n ∈ referencedFiles I.manifest :=
      Index.mem_referencedFiles.mpr (.inl ⟨s, hs, hFile⟩)
    refine ⟨Index.isData_of_mem_referencedFiles hRef, fun hMem => ?_⟩
    -- A file name carries the id of its segment.
    have hSame : ∀ t : Segment, n ∈ segmentFiles t.entry →
        t.entry.segmentId = s.entry.segmentId := by
      intro t ht
      rw [mem_segmentFiles] at hFile ht
      rcases hFile with rfl | rfl | ⟨-, rfl⟩ <;> simp at ht <;> simp [ht]
    rcases Index.mem_referencedFiles.mp hMem with ⟨t, ht, hn'⟩ | ⟨-, rfl⟩
    · have hId := hSame t hn'
      rcases List.mem_append.mp ht with ht | ht
      · have := (List.mem_filter.mp ht).2
        simp [hId, hMerged] at this
      · exact UInt32.not_lt.mpr (nextSegmentId_le_merged hRoom ht)
          (hId ▸ I.segmentId_lt hs)
    · simp [mem_segmentFiles] at hFile

omit [Platform] in
theorem all_writeFinal_del {cur : Index} {id : UInt32} {staged : List FileName}
    {f : FileData} (hGe : cur.manifest.nextSegmentId ≤ id) :
    (Plan.writeFinal (.del id 1) f).All (FileStep.Over (some cur) staged) := by
  have hFree : cur.Writable (.del id 1) := .inl hGe
  exact Plan.all_writeFinal hFree.over rfl f

theorem finishAll_all {cur : Index} {id base : UInt32} {staged : List FileName}
    (hIds : id.toNat + xs.length < 2 ^ 32) (hGe : cur.manifest.nextSegmentId ≤ id)
    (hStaged : ∀ x ∈ xs, ∀ n ∈ x.names, n ∈ staged) :
    (finishAll cur id base (xs.map StagedMerge.merge)).All
      (FileStep.Over (some cur) staged) := by
  induction xs generalizing id base with
  | nil => exact Plan.all_pure _
  | cons x xs ih =>
    obtain ⟨hHead, hTail⟩ := List.forall_mem_cons.mp hStaged
    rw [List.length_cons] at hIds
    have hNext : (id + 1).toNat = id.toNat + 1 := by
      rw [UInt32.toNat_add, UInt32.toNat_one, Nat.mod_eq_of_lt (by omega)]
    have hGe' : cur.manifest.nextSegmentId ≤ id + 1 := by
      rw [UInt32.le_iff_toNat_le] at hGe ⊢
      omega
    simp only [List.map_cons, finishAll]
    split
    · exact Plan.all_fail _
    · refine Plan.All.bind ?_ fun e _ => (ih (by omega) hGe' hTail).bind fun _ _ =>
        Plan.all_pure _
      rw [finishOne_eq]
      intro step hStep
      rcases List.mem_append.mp hStep with hStep | hStep
      · simp only [List.mem_cons, List.not_mem_nil, or_false] at hStep
        rcases hStep with rfl | rfl
        · exact ⟨.inr (hHead _ (by simp [StagedMerge.names])), hGe, rfl⟩
        · exact ⟨.inr (hHead _ (by simp [StagedMerge.names])), hGe, rfl⟩
      · split at hStep
        · exact all_writeFinal_del hGe step hStep
        · cases hStep

/-- With room, a merge works on temporary and its staged files and moves them to free
names. -/
theorem mergePlan_all (hRoom : MergeRoom I (xs.map StagedMerge.merge)) :
    (mergePlan now I (xs.map StagedMerge.merge)).All
      (FileStep.Over (some I) (xs.flatMap StagedMerge.names)) := by
  have hIds := hRoom.fit.id_lt
  rw [List.length_map] at hIds
  unfold mergePlan
  refine Plan.All.bind ?_ fun _ _ => Plan.all_pure _
  exact finishAll_all hIds (UInt32.le_refl _) fun x hx n hn =>
    List.mem_flatMap.mpr ⟨x, hx, hn⟩

end Gives

end Ripindex
