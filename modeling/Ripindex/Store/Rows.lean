import Ripindex.Query.Segmentation
import Ripindex.Store.Runs

/-!
# The rows of an index

What an index says is a list of rows, one for each live document: the record with the patch
of the overlay, and the positions of every term. A build gives the rows of its files; a
deletion takes rows away; an update takes rows away, patches others and adds the rows of the
files it indexes.

## Results

* `Index.docs_eq_rows`       — `docs` lists the records of the rows;
* `CutInto.rows`             — the rows of new segments;
* `rows_amended`             — tombstones take rows away;
* `rows_updatedIndex`        — what an update makes of the rows;
* `Operation.Run.patches_lt` — no patch is for an id that is still free.
-/

namespace Ripindex

-- ---------------------------------------------------------------------------
-- Patches
-- ---------------------------------------------------------------------------

namespace Overlay

/-- The record of a document after the patch for it, if there is one. -/
def patched (o : Overlay) (id : DocId) (m : DocMeta) : DocMeta :=
  (o.find id).elim m (Index.applyPatch m)

/-- A newer patch replaces what an older one says. -/
theorem patched_or {o o' : Overlay} {id : DocId} {q : Option Patch}
    (h : o'.find id = q.or (o.find id)) (m : DocMeta) :
    o'.patched id m = q.elim (o.patched id m) (Index.applyPatch (o.patched id m)) := by
  unfold patched
  rw [h]
  rcases q with _ | p
  · rfl
  · rcases o.find id with _ | p' <;> rfl

theorem find_eq_none {o : Overlay} {id : DocId} (h : ∀ p ∈ o.patches, p.docId ≠ id) :
    o.find id = none := by
  refine List.find?_eq_none.mpr fun p hp => ?_
  rw [beq_iff_eq]
  exact h p hp

theorem find?_insertSorted (p : Patch) (id : DocId) {qs : List Patch}
    (hLt : qs.Pairwise fun p q => p.docId < q.docId) :
    (insertSorted p qs).find? (fun q => q.docId == id) =
      if p.docId = id then some p else qs.find? fun q => q.docId == id := by
  induction qs with
  | nil => by_cases h : p.docId = id <;> simp [insertSorted, h]
  | cons q qs ih =>
    obtain ⟨hHead, hTail⟩ := List.pairwise_cons.mp hLt
    rw [insertSorted]
    by_cases h : p.docId = id
    · -- The patch stands before the first greater document.
      rw [if_pos h]
      split_ifs with hLess hEq
      · exact List.find?_cons_of_pos (beq_iff_eq.mpr h)
      · exact List.find?_cons_of_pos (beq_iff_eq.mpr h)
      · rw [List.find?_cons_of_neg (by simpa using h ▸ Ne.symm hEq), ih hTail, if_pos h]
    · rw [if_neg h]
      split_ifs with hLess hEq
      · exact List.find?_cons_of_neg (by simpa using h)
      · rw [List.find?_cons_of_neg (by simpa using h),
          List.find?_cons_of_neg (by simpa [← hEq] using h)]
      · rw [List.find?_cons, List.find?_cons, ih hTail, if_neg h]

@[simp] theorem find_insert (o : Overlay) (p : Patch) (id : DocId) :
    (o.insert p).find id = if p.docId = id then some p else o.find id :=
  find?_insertSorted p id o.docId_lt

@[simp] theorem find_remove (o : Overlay) (d id : DocId) :
    (o.remove d).find id = if d = id then none else o.find id := by
  unfold find remove
  rw [List.find?_filter]
  by_cases h : d = id
  · subst h
    rw [if_pos rfl, List.find?_eq_none]
    intro p _
    simp
  · rw [if_neg h]
    refine congrArg (List.find? · o.patches) (funext fun p => ?_)
    by_cases hp : p.docId = id
    · simp [hp, Ne.symm h]
    · simp [hp]

end Overlay

/-- The last patch for a document in a list. -/
def lastPatch (ps : List Patch) (id : DocId) : Option Patch :=
  ps.reverse.find? fun p => p.docId == id

theorem find_foldl_insert (o : Overlay) (ps : List Patch) (id : DocId) :
    (ps.foldl Overlay.insert o).find id = (lastPatch ps id).or (o.find id) := by
  induction ps generalizing o with
  | nil => rfl
  | cons p ps ih =>
    have hLast : lastPatch (p :: ps) id =
        (lastPatch ps id).or (if p.docId = id then some p else none) := by
      unfold lastPatch
      rw [List.reverse_cons, List.find?_append, List.find?_singleton]
      simp
    rw [List.foldl_cons, ih, Overlay.find_insert, hLast, Option.or_assoc]
    by_cases h : p.docId = id <;> simp [h]

theorem find_foldl_remove (o : Overlay) (ids : List DocId) (id : DocId) :
    (ids.foldl Overlay.remove o).find id = if id ∈ ids then none else o.find id := by
  induction ids generalizing o with
  | nil => simp
  | cons d ids ih =>
    rw [List.foldl_cons, ih, Overlay.find_remove]
    by_cases hMem : id ∈ ids
    · simp [hMem]
    · by_cases h : d = id
      · simp [h]
      · simp [h, Ne.symm h, hMem]

/-- The patch for a document that an update does not delete. -/
theorem find_mergeOverlay (o : Overlay) (ps : List Patch) {ids : List DocId} {id : DocId}
    (h : id ∉ ids) : (mergeOverlay o ps ids).find id = (lastPatch ps id).or (o.find id) := by
  rw [mergeOverlay, find_foldl_remove, if_neg h, find_foldl_insert]

-- ---------------------------------------------------------------------------
-- Rows
-- ---------------------------------------------------------------------------

namespace DocRow

/-- The row after a patch, if there is one. -/
def patched (r : DocRow) (p : Option Patch) : DocRow :=
  { r with record := p.elim r.record (Index.applyPatch r.record) }

end DocRow

theorem toNat_ofNat_of_mem_range {n : UInt32} {i : Nat} (h : i ∈ List.range n.toNat) :
    (UInt32.ofNat i).toNat = i :=
  UInt32.toNat_ofNat_of_lt' (Nat.lt_trans (List.mem_range.mp h) n.toNat_lt)

theorem ofNat_lt_of_mem_range {n : UInt32} {i : Nat} (h : i ∈ List.range n.toNat) :
    UInt32.ofNat i < n := by
  rw [UInt32.lt_iff_toNat_lt, toNat_ofNat_of_mem_range h]
  exact List.mem_range.mp h

/-- Rows under consecutive ids. -/
def numbered (base : Nat) (rows : List DocRow) : List (DocId × DocRow) :=
  (rows.zipIdx base).map fun e => (UInt32.ofNat e.2, e.1)

theorem map_snd_numbered (base : Nat) (rows : List DocRow) :
    (numbered base rows).map Prod.snd = rows := by
  unfold numbered
  rw [List.map_map]
  exact List.zipIdx_map_fst base rows

theorem numbered_append (base : Nat) (rows rest : List DocRow) :
    numbered base (rows ++ rest) = numbered base rows ++ numbered (base + rows.length) rest := by
  unfold numbered
  rw [List.zipIdx_append, List.map_append]

namespace Segment

/-- The row of a live document. -/
def rowAt (o : Overlay) (s : Segment) (i : DocId) : Option DocRow :=
  (s.docMeta i).map fun m =>
    ⟨o.patched (s.entry.baseDoc + i) m, fun t => s.idx.positions t i⟩

/-- The live documents of a segment, in ascending order. -/
def rows (o : Overlay) (s : Segment) : List (DocId × DocRow) :=
  (List.range s.entry.numDocs.toNat).filterMap fun i =>
    (s.rowAt o (UInt32.ofNat i)).map (s.entry.baseDoc + UInt32.ofNat i, ·)

theorem mem_rows {o : Overlay} {s : Segment} {e : DocId × DocRow} :
    e ∈ s.rows o ↔ ∃ i < s.entry.numDocs, e.1 = s.entry.baseDoc + i ∧ s.rowAt o i = some e.2 := by
  unfold rows
  rw [List.mem_filterMap]
  constructor
  · intro h
    obtain ⟨i, hi, hRow⟩ := h
    obtain ⟨r, hr, rfl⟩ := Option.map_eq_some_iff.mp hRow
    exact ⟨UInt32.ofNat i, ofNat_lt_of_mem_range hi, rfl, hr⟩
  · intro h
    obtain ⟨i, hi, hId, hRow⟩ := h
    refine ⟨i.toNat, List.mem_range.mpr (UInt32.lt_iff_toNat_lt.mp hi), ?_⟩
    rw [UInt32.ofNat_toNat, hRow, Option.map_some, ← hId]

end Segment

namespace Index

/-- The live documents of an index, in ascending order. -/
def rows (I : Index) : List (DocId × DocRow) :=
  I.segments.flatMap (Segment.rows I.overlay)

theorem mem_rows {I : Index} {e : DocId × DocRow} :
    e ∈ I.rows ↔ ∃ s ∈ I.segments, ∃ i < s.entry.numDocs,
      e.1 = s.entry.baseDoc + i ∧ s.rowAt I.overlay i = some e.2 := by
  unfold rows
  rw [List.mem_flatMap]
  exact exists_congr fun s => and_congr_right fun _ => Segment.mem_rows

/-- The metadata of a document is the record of its row. -/
theorem doc_global {I : Index} {s : Segment} (hs : s ∈ I.segments) {i : DocId}
    (hi : i < s.entry.numDocs) :
    I.doc (s.entry.baseDoc + i) = (s.rowAt I.overlay i).map DocRow.record := by
  obtain ⟨j, hLocate⟩ := locate_global hs hi
  unfold Index.doc Segment.rowAt Overlay.patched
  rw [hLocate]
  cases hMeta : s.docMeta i with
  | none => simp [hMeta]
  | some m => cases I.overlay.find (s.entry.baseDoc + i) <;> simp [hMeta]

theorem docs_eq_rows (I : Index) : I.docs = I.rows.map fun r => (r.1, r.2.record) := by
  unfold docs rows
  rw [List.map_flatMap]
  refine List.flatMap_congr fun s hs => ?_
  rw [segmentIds, List.filterMap_map, Segment.rows, List.map_filterMap]
  refine List.filterMap_congr fun i hi => ?_
  rw [Function.comp_apply, doc_global hs (ofNat_lt_of_mem_range hi), Option.map_map, Option.map_map]
  rfl

/-- A global id has one row. -/
theorem rows_inj {I : Index} {e e' : DocId × DocRow} (he : e ∈ I.rows) (he' : e' ∈ I.rows)
    (hId : e.1 = e'.1) : e = e' := by
  obtain ⟨s, hs, i, hi, hE, hRow⟩ := mem_rows.mp he
  obtain ⟨t, ht, j, hj, hE', hRow'⟩ := mem_rows.mp he'
  rw [hE, hE'] at hId
  obtain ⟨rfl, rfl⟩ := global_inj hs ht hi hj hId
  exact Prod.ext (hE.trans hE'.symm) (Option.some.inj (hRow.symm.trans hRow'))

end Index

-- ---------------------------------------------------------------------------
-- New segments
-- ---------------------------------------------------------------------------

theorem zipIdx_eq_map_range {α : Type} (l : List α) (k : Nat) :
    l.zipIdx k = (List.range l.length).filterMap fun i => l[i]?.map (·, k + i) := by
  induction l generalizing k with
  | nil => rfl
  | cons a l ih =>
    rw [List.zipIdx_cons, ih, List.length_cons, List.range_succ_eq_map, List.filterMap_cons,
      List.filterMap_map]
    refine congrArg _ (List.filterMap_congr fun i _ => ?_)
    rw [Function.comp_apply, List.getElem?_cons_succ, Nat.succ_eq_add_one, Nat.add_assoc,
      Nat.add_comm 1]

theorem filterMap_eq_range {α β : Type} (l : List α) (f : α → Option β) :
    l.filterMap f = (List.range l.length).filterMap fun k => l[k]?.bind f := by
  conv_lhs => rw [← List.zipIdx_map_fst 0 l, zipIdx_eq_map_range]
  rw [List.filterMap_map, List.filterMap_filterMap]
  refine List.filterMap_congr fun k _ => ?_
  rcases l[k]? with _ | a <;> rfl

/-- The rows of a segment that was just written, when the overlay knows none of its ids. -/
theorem Segment.Holds.rows_eq {rows : List DocRow} {s : Segment} (h : s.Holds rows)
    {o : Overlay} (hFree : ∀ p ∈ o.patches, p.docId.toNat < s.entry.baseDoc.toNat)
    (hEnd : s.entry.endDoc ≤ 2 ^ 32) : s.rows o = numbered s.entry.baseDoc.toNat rows := by
  have hLen : s.entry.numDocs.toNat = rows.length := by
    rw [← s.length_docs, h.docs, List.length_map]
  unfold SegmentEntry.endDoc at hEnd
  unfold Segment.rows numbered
  rw [zipIdx_eq_map_range, List.map_filterMap, hLen]
  refine List.filterMap_congr fun i hi => ?_
  have hi := List.mem_range.mp hi
  have hId : (UInt32.ofNat i).toNat = i :=
    UInt32.toNat_ofNat_of_lt' (Nat.lt_trans hi h.length_lt)
  have hAdd : s.entry.baseDoc + UInt32.ofNat i = UInt32.ofNat (s.entry.baseDoc.toNat + i) := by
    rw [UInt32.ofNat_add, UInt32.ofNat_toNat]
  have hFind : o.find (s.entry.baseDoc + UInt32.ofNat i) = none := by
    refine Overlay.find_eq_none fun p hp hEq => ?_
    have hLt := hFree p hp
    rw [hEq, UInt32.toNat_add, hId, Nat.mod_eq_of_lt (by omega)] at hLt
    omega
  have hView := h.view_eq (UInt32.ofNat i)
  rw [hId, List.getElem?_eq_getElem hi] at hView
  have hPositions : (fun t => s.idx.positions t (UInt32.ofNat i)) = rows[i].positions :=
    congrArg Query.DocView.positions hView
  unfold Segment.rowAt Segment.docMeta Segment.isDeleted Overlay.patched
  rw [h.del, h.docs, hFind, hId, List.getElem?_map, List.getElem?_eq_getElem hi, hPositions, hAdd]
  rfl

/-- The rows of new segments. -/
theorem CutInto.rows {base : Nat} {rows : List DocRow} {segs : List Segment}
    (h : CutInto base rows segs) {o : Overlay}
    (hFree : ∀ p ∈ o.patches, p.docId.toNat < base) (hEnd : base + rows.length ≤ 2 ^ 32) :
    segs.flatMap (Segment.rows o) = numbered base rows := by
  induction h with
  | nil => rfl
  | @cons base rows rest s segs hBase hHolds _ ih =>
    rw [List.length_append] at hEnd
    have hLen : s.entry.numDocs.toNat = rows.length := by
      rw [← s.length_docs, hHolds.docs, List.length_map]
    have hSegEnd : s.entry.endDoc ≤ 2 ^ 32 := by
      unfold SegmentEntry.endDoc
      omega
    have hRest := ih (fun p hp => Nat.lt_of_lt_of_le (hFree p hp) (Nat.le_add_right _ _))
      (by omega)
    rw [List.flatMap_cons, hHolds.rows_eq (hBase ▸ hFree) hSegEnd, hRest, numbered_append, hBase]

-- ---------------------------------------------------------------------------
-- Tombstones
-- ---------------------------------------------------------------------------

section Operations

variable [Platform] {I : Index} {ids : List DocId}

omit [Platform] in
/-- A segment that has a document stands at one position. -/
theorem Index.position_unique {s : Segment} {j k : Nat} (hj : (s, j) ∈ I.segments.zipIdx)
    (hk : (s, k) ∈ I.segments.zipIdx) {i : DocId} (hi : i < s.entry.numDocs) : j = k := by
  obtain ⟨hLtJ, hAtJ⟩ := List.getElem?_eq_some_iff.mp (List.mem_zipIdx_iff_getElem?.mp hj)
  obtain ⟨hLtK, hAtK⟩ := List.getElem?_eq_some_iff.mp (List.mem_zipIdx_iff_getElem?.mp hk)
  have hRanges := List.pairwise_iff_getElem.mp I.pairwise_segments
  rw [UInt32.lt_iff_toNat_lt] at hi
  rcases Nat.lt_trichotomy j k with hLt | hEq | hLt
  · have hEnd := hRanges j k hLtJ hLtK hLt
    rw [hAtJ, hAtK] at hEnd
    change s.entry.baseDoc.toNat + s.entry.numDocs.toNat ≤ s.entry.baseDoc.toNat at hEnd
    omega
  · exact hEq
  · have hEnd := hRanges k j hLtK hLtJ hLt
    rw [hAtJ, hAtK] at hEnd
    change s.entry.baseDoc.toNat + s.entry.numDocs.toNat ≤ s.entry.baseDoc.toNat at hEnd
    omega

omit [Platform] in
/-- The local ids of a deletion are those of the documents it names. -/
theorem mem_localsOf {s : Segment} {k : Nat} (hs : (s, k) ∈ I.segments.zipIdx) {i : DocId}
    (hi : i < s.entry.numDocs) : i ∈ localsOf I ids k ↔ s.entry.baseDoc + i ∈ ids := by
  have hAt := List.mem_zipIdx_iff_getElem?.mp hs
  unfold localsOf
  rw [List.mem_filterMap]
  constructor
  · intro h
    obtain ⟨id, hId, hSome⟩ := h
    rcases hFind : I.locate id with _ | ⟨j, t, l⟩
    · simp [hFind] at hSome
    · obtain ⟨rfl, rfl⟩ : j = k ∧ l = i := by simpa [hFind] using hSome
      have hSame := List.mem_zipIdx_iff_getElem?.mp (mem_zipIdx_of_locateFrom hFind)
      obtain rfl : s = t := Option.some.inj (hAt.symm.trans hSame)
      exact Index.eq_of_locateFrom hFind ▸ hId
  · intro h
    obtain ⟨j, hLocate⟩ := Index.locate_global (List.fst_mem_of_mem_zipIdx hs) hi
    obtain rfl := Index.position_unique (mem_zipIdx_of_locateFrom hLocate) hs hi
    exact ⟨_, h, by simp [hLocate]⟩

theorem Segment.rowAt_tombstoned (o : Overlay) (s : Segment) {locals : List DocId} {i : DocId}
    (hi : i < s.entry.numDocs) :
    (s.tombstoned locals).rowAt o i = if i ∈ locals then none else s.rowAt o i := by
  have hDeleted := s.isDeleted_tombstoned locals i
  unfold rowAt docMeta
  rw [baseDoc_tombstoned, idx_tombstoned, docs_tombstoned]
  by_cases hMem : i ∈ locals
  · rw [if_pos hMem, if_pos (hDeleted.mpr (.inr ⟨hMem, hi⟩))]
    rfl
  · rw [if_neg hMem]
    by_cases hOld : s.isDeleted i = true
    · rw [if_pos (hDeleted.mpr (.inl hOld)), if_pos hOld]
    · rw [if_neg fun h => (hDeleted.mp h).elim hOld fun h => hMem h.1, if_neg hOld]

/-- Tombstones take rows away. -/
theorem rows_amended (o : Overlay) :
    (tombstonedAll (localsOf I ids) 0 I.segments).flatMap (Segment.rows o) =
      (I.segments.flatMap (Segment.rows o)).filter fun e => e.1 ∉ ids := by
  have hSegs : I.segments.flatMap (Segment.rows o) =
      I.segments.zipIdx.flatMap fun p => p.1.rows o := by
    conv_lhs => rw [← List.zipIdx_map_fst 0 I.segments]
    rw [List.flatMap_map]
  rw [hSegs, tombstonedAll, List.flatMap_map, List.filter_flatMap]
  refine List.flatMap_congr fun p hp => ?_
  unfold Segment.rows
  rw [List.filter_filterMap, Segment.numDocs_tombstoned, Segment.baseDoc_tombstoned]
  refine List.filterMap_congr fun i hi => ?_
  have hLt := ofNat_lt_of_mem_range hi
  rw [Segment.rowAt_tombstoned o p.1 hLt, if_congr (mem_localsOf hp hLt) rfl rfl]
  cases hRow : p.1.rowAt o (UInt32.ofNat i) with
  | none => simp
  | some r => by_cases h : p.1.entry.baseDoc + UInt32.ofNat i ∈ ids <;> simp [h, Option.filter]

omit [Platform] in
/-- Rows that are not taken away, under another overlay. -/
theorem rows_overlay {ps : List Patch} (o o' : Overlay)
    (h : ∀ id, id ∉ ids → o'.find id = (lastPatch ps id).or (o.find id)) (segs : List Segment) :
    (segs.flatMap (Segment.rows o')).filter (fun e => e.1 ∉ ids) =
      ((segs.flatMap (Segment.rows o)).filter fun e => e.1 ∉ ids).map fun e =>
        (e.1, e.2.patched (lastPatch ps e.1)) := by
  rw [List.filter_flatMap, List.filter_flatMap, List.map_flatMap]
  refine List.flatMap_congr fun s _ => ?_
  unfold Segment.rows
  rw [List.filter_filterMap, List.filter_filterMap, List.map_filterMap]
  refine List.filterMap_congr fun i _ => ?_
  unfold Segment.rowAt
  rcases s.docMeta (UInt32.ofNat i) with _ | m
  · rfl
  · by_cases hMem : s.entry.baseDoc + UInt32.ofNat i ∈ ids
    · simp [hMem, Option.filter]
    · simp [hMem, Option.filter, DocRow.patched, Overlay.patched_or (h _ hMem)]

-- ---------------------------------------------------------------------------
-- What operations make of the rows
-- ---------------------------------------------------------------------------

/-- Every patch is for an id that was given already. -/
def Index.PatchesLt (I : Index) : Prop :=
  ∀ p ∈ I.overlay.patches, p.docId.toNat < Index.endBound I.manifest.segments

omit [Platform] in
theorem Index.toNat_lt_of_mem_rows {e : DocId × DocRow} (he : e ∈ I.rows) :
    e.1.toNat < Index.endBound I.manifest.segments := by
  obtain ⟨s, hs, i, hi, hId, -⟩ := Index.mem_rows.mp he
  have hEnd := Index.endDoc_le_endBound (Index.mem_manifest_segments.mpr ⟨s, hs, rfl⟩)
  rw [UInt32.lt_iff_toNat_lt] at hi
  rw [hId, Index.toNat_global hs hi]
  unfold SegmentEntry.endDoc at hEnd
  omega

/-- A build leaves the rows of its files. -/
theorem rows_builtIndex {w : World} {prev : Option Index} {files : List CrawledFile}
    {segs : List Segment} (hTiles : Tiles w.indexRead 0 (nextSegmentIdOf prev) files segs)
    (hRoom : TilesRoom 0 (nextSegmentIdOf prev) files segs)
    (hOk : (builtManifest w prev segs).Ok) :
    (builtIndex w prev segs hOk).rows = numbered 0 (files.map (rowOf w.indexRead)) := by
  refine (hTiles.cut hRoom).rows (fun p hp => by cases hp) ?_
  rw [List.length_map]
  exact hRoom.docs

/-- A deletion takes the rows of its ids away. -/
theorem rows_deletedIndex {now : Int64} (hOk : (deletedManifest now I ids).Ok) :
    (deletedIndex now I ids hOk).rows = I.rows.filter fun e => e.1 ∉ ids := by
  have hSegs : (deletedIndex now I ids hOk).rows =
      (amendedSegments I (localsOf I ids) []).flatMap (Segment.rows I.overlay) := rfl
  rw [hSegs, amendedSegments, List.append_nil, rows_amended]
  rfl

/-- An update takes the rows it deletes away, patches others, and adds the rows of the files
it indexes. -/
theorem rows_updatedIndex {w : World} {changes : List Change} {segs : List Segment}
    (hAmends : Amends I (localsOf I (deletesOf changes)) w.indexRead (toIndexOf changes) segs)
    (hOld : I.PatchesLt)
    (hNew : ∀ p ∈ patchesOf changes, p.docId.toNat < Index.endBound I.manifest.segments)
    (hOk : (updatedManifest w I changes segs).Ok) :
    (updatedIndex w I changes segs hOk).rows =
      ((I.rows.filter fun e => e.1 ∉ deletesOf changes).map fun e =>
        (e.1, e.2.patched (lastPatch (patchesOf changes) e.1))) ++
      numbered I.idBound.toNat ((toIndexOf changes).map (rowOf w.indexRead)) := by
  have hSplit : (updatedIndex w I changes segs hOk).rows =
      (tombstonedAll (localsOf I (deletesOf changes)) 0 I.segments).flatMap
        (Segment.rows (updatedOverlay I changes)) ++
      segs.flatMap (Segment.rows (updatedOverlay I changes)) := List.flatMap_append
  have hKept := rows_overlay I.overlay (updatedOverlay I changes)
    (fun id hId => find_mergeOverlay _ (patchesOf changes) hId) I.segments
  rw [hSplit, rows_amended, hKept]
  refine congrArg _ ?_
  by_cases hNil : toIndexOf changes = []
  · rw [hNil, hAmends.tiles.segs_eq_nil hNil]
    rfl
  · have hPos := List.length_pos_iff.mpr hNil
    have hBase := Index.toNat_idBound hAmends.docs hPos
    refine (hAmends.tiles.cut hAmends.tilesRoom).rows (fun p hp => ?_) ?_
    · obtain ⟨hMem, -⟩ := Overlay.mem_foldl_remove hp
      rw [hBase]
      exact (Overlay.mem_foldl_insert hMem).elim (hOld p) (hNew p)
    · rw [List.length_map, hBase]
      exact hAmends.docs

-- ---------------------------------------------------------------------------
-- What operations make
-- ---------------------------------------------------------------------------

/-- A plan gives one index. -/
theorem CommitPlan.Gives.unique {plan : CommitPlan} {prev : Option Index}
    {staged : List (FileName × FileData)} {J K : Index} {r r' : List FileName}
    (h : plan.Gives prev staged J r) (h' : plan.Gives prev staged K r') {d : Dir}
    (hPrev : ∀ L ∈ prev, L.Backed d) (hStaged : ∀ f ∈ staged, d.lookup f.1 = some f.2) :
    J = K := by
  have hEq : J.manifest = K.manifest := by
    have hRes := h.result.symm.trans h'.result
    simp only [Except.ok.injEq, Option.some.injEq, Prod.mk.injEq] at hRes
    exact hRes.1
  have hJ := h.backed d hPrev hStaged
  rw [hEq] at hJ
  exact hJ.unique (h'.backed d hPrev hStaged)

namespace Operation

/-- The index an operation makes of the one it finds. -/
inductive Makes : Operation → Option Index → Index → Prop
  | build {w : World} {cfg : BuildConfig} {files : List CrawledFile} {prev : Option Index}
      {segs : List Segment} (hTiles : Tiles w.indexRead 0 (nextSegmentIdOf prev) files segs)
      (hRoom : TilesRoom 0 (nextSegmentIdOf prev) files segs)
      (hOk : (builtManifest w prev segs).Ok) :
      Makes (build w cfg files) prev (builtIndex w prev segs hOk)
  /-- An update without an index is a build. -/
  | first {w : World} {cfg : BuildConfig} {files : List CrawledFile} {segs : List Segment}
      (hTiles : Tiles w.indexRead 0 (nextSegmentIdOf none) files segs)
      (hRoom : TilesRoom 0 (nextSegmentIdOf none) files segs)
      (hOk : (builtManifest w none segs).Ok) :
      Makes (update w cfg files) none (builtIndex w none segs hOk)
  | update {w : World} {cfg : BuildConfig} {files : List CrawledFile} {I : Index}
      {segs : List Segment} (hSome : (updateChanges w I files).isEmpty = false)
      (hAmends : Amends I (localsOf I (deletesOf (updateChanges w I files).changes))
        w.indexRead (toIndexOf (updateChanges w I files).changes) segs)
      (hOk : (updatedManifest w I (updateChanges w I files).changes segs).Ok) :
      Makes (update w cfg files) (some I)
        (updatedIndex w I (updateChanges w I files).changes segs hOk)
  | delete {now : Int64} {ids : List DocId} {I : Index} (hOk : (deletedManifest now I ids).Ok) :
      Makes (delete now ids) (some I) (deletedIndex now I ids hOk)
  | merge {now : Int64} {xs : List StagedMerge} {I : Index}
      (hListed : SourcesListed I.manifest (xs.map StagedMerge.merge))
      (hRoom : MergeRoom I (xs.map StagedMerge.merge)) :
      Makes (merge now xs) (some I) (splicedIndex now I xs hRoom)

/-- The segments of a build, with the room they have. -/
theorem buildPlan_tiles {w : World} {cfg : BuildConfig} {files : List CrawledFile}
    {prev : Option Index} {m : Manifest} {retire : List FileName}
    (hResult : (buildPlan w cfg files prev).result = .ok (some (m, retire)))
    (hRoom : BuildRoom w cfg files prev) :
    ∃ segs, ∃ hOk : (builtManifest w prev segs).Ok,
      Tiles w.indexRead 0 (nextSegmentIdOf prev) files segs ∧
      TilesRoom 0 (nextSegmentIdOf prev) files segs ∧
      (builtIndex w prev segs hOk).manifest = m ∧
      (buildPlan w cfg files prev).Gives prev [] (builtIndex w prev segs hOk) retire := by
  obtain ⟨segs, hOk, hTiles, hM, hGives⟩ := buildPlan_gives hResult hRoom
  obtain ⟨segs', -, hLen, hM', -⟩ := buildPlan_ok hResult
  have hLength : segs.length = segs'.length := by
    have hEntries := congrArg (fun m => m.segments.length) (hM.trans hM')
    simpa only [builtIndex, builtManifest, List.length_map] using hEntries
  exact ⟨segs, hOk, hTiles, hRoom.tiles (hLength.trans hLen), hM, hGives⟩

theorem makes_of_result {op : Operation} {prev : Option Index} {m : Manifest}
    {retire : List FileName} (hPrev : ∀ K ∈ prev, K.Sound)
    (hResult : (op.plan prev).result = .ok (some (m, retire))) (hRoom : op.HasRoom prev) :
    ∃ J, J.manifest = m ∧ (op.plan prev).Gives prev op.staged J retire ∧ op.Makes prev J := by
  cases op with
  | build w cfg files =>
    obtain ⟨segs, hOk, hTiles, hTilesRoom, hM, hGives⟩ := buildPlan_tiles hResult hRoom
    exact ⟨_, hM, hGives, .build hTiles hTilesRoom hOk⟩
  | update w cfg files =>
    rcases prev with _ | I
    · obtain ⟨segs, hOk, hTiles, hTilesRoom, hM, hGives⟩ := buildPlan_tiles hResult hRoom
      exact ⟨_, hM, hGives, .first hTiles hTilesRoom hOk⟩
    · rw [plan] at hResult ⊢
      split_ifs at hResult ⊢ with hEmpty
      · cases hResult
      obtain ⟨segs, hOk, hAmends, hM, hGives⟩ := updatePlan_gives (hPrev I rfl) hResult hRoom
      exact ⟨_, hM, hGives, .update (Bool.not_eq_true _ ▸ hEmpty) hAmends hOk⟩
  | delete now ids =>
    rcases prev with _ | I
    · cases hResult
    · obtain ⟨hM, hGives⟩ := deletePlan_gives (hPrev I rfl) hResult hRoom
      exact ⟨_, hM.symm, hGives, .delete _⟩
  | merge now xs =>
    rcases prev with _ | I
    · cases hResult
    · obtain ⟨hTags, hMergeRoom⟩ := hRoom
      obtain ⟨hM, hGives⟩ := mergePlan_gives (hPrev I rfl) hResult hTags hMergeRoom
      exact ⟨_, hM, hGives, .merge (mergePlan_ok hResult).1 hMergeRoom⟩

/-- What a directory holds after an operation. -/
theorem Commits.makes {op : Operation} {prev : Option Index} {d d' : Dir}
    (h : op.Commits prev d d') (hPrev : ∀ K ∈ prev, K.Sound) (hFits : op.Fits prev) :
    ∃ J, d'.Holds (some J) ∧ J.Sound ∧ op.Makes prev J := by
  refine h.of_gives fun hResult => ?_
  obtain ⟨J, hM, hGives, hMakes⟩ := makes_of_result hPrev hResult (hFits.hasRoom hPrev)
  exact ⟨J, hM, hGives, hGives.sound, hMakes⟩

end Operation

-- ---------------------------------------------------------------------------
-- Patches over whole runs
-- ---------------------------------------------------------------------------

/-- The changes of an update patch rows of the index. -/
theorem patch_lt_of_change {w : World} {files : List CrawledFile} {p : Patch}
    (h : .patch p ∈ (updateChanges w I files).changes) :
    p.docId.toNat < Index.endBound I.manifest.segments := by
  obtain ⟨d, hd, hId⟩ := patchesOnly_reconcile w.reconcileRead files p h
  rw [Index.docs_eq_rows] at hd
  obtain ⟨e, he, rfl⟩ := List.mem_map.mp hd
  exact hId ▸ Index.toNat_lt_of_mem_rows he

namespace Operation

theorem Leaves.patchesLt {op : Operation} {prev : Option Index} {J : Index}
    (h : op.Leaves prev J) (hPrev : ∀ I ∈ prev, I.PatchesLt) : J.PatchesLt := by
  intro p hp
  obtain ⟨hNot, I, hI, hFrom⟩ := h.patches p hp
  refine Nat.lt_of_lt_of_le ?_ (h.grows hNot I hI).bound_le
  rcases hFrom with hOld | ⟨w, cfg, files, -, hChange⟩
  · exact hPrev I hI p hOld
  · exact patch_lt_of_change hChange

/-- In every directory that operations lead to, no patch is for an id that is still free. -/
theorem Run.patches_lt {d : Dir} (hRun : Run Fits d) (hHolds : d.Holds (some I)) :
    I.PatchesLt := by
  obtain ⟨prev, hPrev, hInv⟩ := @Run.holds _ _ (fun prev => ∀ I ∈ prev, I.Sound ∧ I.PatchesLt)
    (fun _ h => by cases h) (fun hInv hOp hCommits => by
      obtain ⟨J, hJ, hLeaves⟩ := hCommits.leaves (fun I hI => (hInv I hI).1) hOp
      refine ⟨J, hJ, ?_⟩
      rintro _ ⟨⟩
      exact ⟨hLeaves.sound, hLeaves.patchesLt fun I hI => (hInv I hI).2⟩) _ hRun
  obtain rfl := hPrev.unique hHolds
  exact (hInv I rfl).2

end Operation

end Operations

end Ripindex
