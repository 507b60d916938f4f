import Ripindex.Query.Evaluate
import Ripindex.Store.Tiles

/-!
# Results do not depend on segmentation

A `DocRow` is what a segment stores of one document. Two indexes without deletions that cut
one sequence of rows into consecutive segments answer every query alike: both answer as the
rows themselves do.

## Results

* `evaluate_eq_rowHits` — evaluation of an index, over the rows it holds;
* `evaluate_segmentation` — two cuts of one sequence give the same hits;
* `Tiles.cut` — the segments of a build are a cut of its files.
-/

namespace Ripindex

open Query

/-- What a segment stores of one document. -/
structure DocRow where
  record : DocMeta
  positions : String → List Position

namespace DocRow

def view (r : DocRow) : DocView :=
  ⟨r.positions, if r.record.status = .indexed then some r.record.len else none⟩

/-- The postings of a term in consecutive rows from document `i` on. -/
def postingsFrom (t : String) : Nat → List DocRow → List Posting
  | _, [] => []
  | i, r :: rows => posting (UInt32.ofNat i) (r.positions t) ++ postingsFrom t (i + 1) rows

end DocRow

/-- The segment holds exactly these rows, none of them deleted. -/
structure Segment.Holds (rows : List DocRow) (s : Segment) : Prop where
  docs : s.docs = rows.map DocRow.record
  postings : ∀ t, s.idx.postings t = DocRow.postingsFrom t 0 rows
  del : s.del = none
  numDeleted : s.entry.numDeleted = 0

/-- The segments hold consecutive rows, the first of which has id `base`. -/
inductive CutInto : Nat → List DocRow → List Segment → Prop
  | nil (base : Nat) : CutInto base [] []
  | cons {base : Nat} {rows rest : List DocRow} {s : Segment} {segs : List Segment}
      (hBase : s.entry.baseDoc.toNat = base) (hHolds : s.Holds rows)
      (hRest : CutInto (base + rows.length) rest segs) :
      CutInto base (rows ++ rest) (s :: segs)

-- ---------------------------------------------------------------------------
-- The view of a document
-- ---------------------------------------------------------------------------

namespace Segment.Holds

variable {rows : List DocRow} {s : Segment}

theorem length_lt (h : s.Holds rows) : rows.length < 2 ^ 32 := by
  have hLen := s.length_docs
  rw [h.docs, List.length_map] at hLen
  rw [hLen]
  exact s.entry.numDocs.toNat_lt

theorem docLen_eq (h : s.Holds rows) (i : DocId) :
    s.docLen i = rows[i.toNat]?.bind fun r => r.view.len := by
  unfold Segment.docLen Segment.isDeleted
  rw [h.del, h.docs, List.getElem?_map]
  cases rows[i.toNat]? <;> rfl

end Segment.Holds

theorem DocRow.find_postingsFrom {t : String} {rows : List DocRow} {k : Nat}
    (hLen : k + rows.length < 2 ^ 32) (i : DocId) :
    ((DocRow.postingsFrom t k rows).find? fun p => p.doc == i).map Posting.positions =
      if k ≤ i.toNat then
        rows[i.toNat - k]?.bind fun r =>
          if r.positions t = [] then none else some (r.positions t)
      else none := by
  induction rows generalizing k with
  | nil => simp [DocRow.postingsFrom]
  | cons r rows ih =>
    rw [List.length_cons] at hLen
    have hHead : (UInt32.ofNat k).toNat = k := UInt32.toNat_ofNat_of_lt' (by show k < 2 ^ 32; omega)
    rw [DocRow.postingsFrom, List.find?_append, Option.map_or, ih (by omega)]
    have hPosting : ((posting (UInt32.ofNat k) (r.positions t)).find? fun p => p.doc == i).map
        Posting.positions =
        if i.toNat = k ∧ r.positions t ≠ [] then some (r.positions t) else none := by
      by_cases hNil : r.positions t = []
      · simp [hNil]
      · rw [posting_of_ne_nil hNil]
        have hIff : UInt32.ofNat k = i ↔ i.toNat = k := by
          rw [← UInt32.toNat_inj, hHead, eq_comm]
        by_cases hEq : i.toNat = k
        · simp [hIff.mpr hEq, hNil, hEq]
        · have hNe : ¬ UInt32.ofNat k = i := fun h => hEq (hIff.mp h)
          simp [hNe, hEq]
    rw [hPosting]
    rcases Nat.lt_trichotomy i.toNat k with hLt | hEq | hGt
    · rw [if_neg (by omega), if_neg (by omega), if_neg (by omega)]
      rfl
    · rw [if_neg (by omega : ¬ k + 1 ≤ i.toNat), if_pos (by omega : k ≤ i.toNat), hEq, Nat.sub_self]
      by_cases hNil : r.positions t = [] <;> simp [hNil]
    · rw [if_neg (by omega), if_pos (by omega), if_pos (by omega)]
      have hSub : i.toNat - k = (i.toNat - (k + 1)) + 1 := by omega
      rw [hSub, List.getElem?_cons_succ]
      rfl

/-- The view of a document is that of its row. -/
theorem Segment.Holds.view_eq {rows : List DocRow} {s : Segment} (h : s.Holds rows) (i : DocId) :
    s.view i = match rows[i.toNat]? with
      | some r => r.view
      | none => ⟨fun _ => [], none⟩ := by
  have hPositions : ∀ t, s.idx.positions t i = ((rows[i.toNat]?.bind fun r =>
      if r.positions t = [] then none else some (r.positions t)).getD []) := by
    intro t
    have hLen := h.length_lt
    unfold IdxFile.positions
    rw [h.postings t, DocRow.find_postingsFrom (by omega) i, if_pos (Nat.zero_le _), Nat.sub_zero]
  have hLen := h.docLen_eq i
  unfold Segment.view
  rw [hLen]
  cases hRow : rows[i.toNat]? with
  | none =>
    simp only [hPositions, hRow]
    rfl
  | some r =>
    have hGet : (fun t => s.idx.positions t i) = r.positions := by
      funext t
      rw [hPositions t, hRow, Option.bind_some]
      split_ifs with hNil
      · rw [hNil]
        rfl
      · rfl
    rw [hGet]
    rfl

namespace Query

section Evaluate

variable {F A M : Type} [AddCommMonoid F] [AddCommMonoid M] (bm25 : Bm25 F A M)

-- ---------------------------------------------------------------------------
-- Hits of rows
-- ---------------------------------------------------------------------------

/-- The hits of consecutive rows from document `base` on. -/
def rowHits (stats : Stats A) (node : Node) (base : Nat) (rows : List DocRow) : List (Hit M) :=
  (rows.zipIdx base).filterMap fun e =>
    (denote bm25 stats e.1.view node).map fun score => ⟨UInt32.ofNat e.2, score⟩

theorem rowHits_append (stats : Stats A) (node : Node) (base : Nat) (rows rest : List DocRow) :
    rowHits bm25 stats node base (rows ++ rest) =
      rowHits bm25 stats node base rows ++
        rowHits bm25 stats node (base + rows.length) rest := by
  unfold rowHits
  rw [List.zipIdx_append, List.filterMap_append]

theorem represents_rowHits (stats : Stats A) (node : Node) {rows : List DocRow}
    (hLen : rows.length < 2 ^ 32) : Represents (rowHits bm25 stats node 0 rows) fun d =>
      rows[d.toNat]?.bind fun r => denote bm25 stats r.view node := by
  have hId : ∀ i, i < rows.length → (UInt32.ofNat i).toNat = i := fun i hi =>
    UInt32.toNat_ofNat_of_lt' (by show i < 2 ^ 32; omega)
  refine ⟨?_, fun h => ?_⟩
  · -- Ids ascend with the rows.
    have hIdx : (rows.zipIdx 0).Pairwise fun e e' => e.2 < e'.2 := by
      have := List.pairwise_lt_range' (s := 0) (n := rows.length)
      rwa [← List.zipIdx_map_snd, List.pairwise_map] at this
    refine List.pairwise_filterMap.mpr (hIdx.imp_of_mem ?_)
    intro e e' he he' hLt h hh k hk
    obtain ⟨x, -, rfl⟩ := Option.map_eq_some_iff.mp hh
    obtain ⟨y, -, rfl⟩ := Option.map_eq_some_iff.mp hk
    have hBound := List.snd_lt_of_mem_zipIdx he'
    show UInt32.ofNat e.2 < UInt32.ofNat e'.2
    rw [UInt32.lt_iff_toNat_lt, hId _ (by omega), hId _ (by omega)]
    exact hLt
  · unfold rowHits
    rw [List.mem_filterMap]
    constructor
    · rintro ⟨⟨r, i⟩, hMem, hSome⟩
      obtain ⟨score, hScore, rfl⟩ := Option.map_eq_some_iff.mp hSome
      have hGet := List.mem_zipIdx_iff_getElem?.mp hMem
      obtain ⟨hLt, -⟩ := List.getElem?_eq_some_iff.mp hGet
      show rows[(UInt32.ofNat i).toNat]?.bind _ = some score
      rw [hId i hLt, hGet]
      exact hScore
    · intro hSome
      obtain ⟨r, hGet, hScore⟩ := Option.bind_eq_some_iff.mp hSome
      refine ⟨(r, h.doc.toNat), List.mem_zipIdx_iff_getElem?.mpr hGet, ?_⟩
      rw [hScore, Option.map_some, UInt32.ofNat_toNat]

/-- The hits of a segment are those of its rows. -/
theorem segmentHits_eq (I : Index) (node : Node) {s : Segment} {rows : List DocRow}
    (h : s.Holds rows) :
    segmentHits bm25 I node s = rowHits bm25 (queryStats bm25 I node) node 0 rows := by
  refine ((represents_segment bm25 I node s).congr fun i => ?_).unique
    (represents_rowHits bm25 _ node h.length_lt)
  rw [h.view_eq i]
  cases rows[i.toNat]? with
  | none => exact denote_eq_none bm25 _ _ rfl node
  | some r => rfl

/-- Moving rows moves their hits. -/
theorem map_rowHits (stats : Stats A) (node : Node) (base : DocId) (rows : List DocRow) :
    ((rowHits bm25 stats node 0 rows).map fun h => (⟨base + h.doc, h.score⟩ : Hit M)) =
      rowHits bm25 stats node base.toNat rows := by
  unfold rowHits
  rw [List.zipIdx_eq_map_add (i := base.toNat), List.filterMap_map, List.map_filterMap]
  refine List.filterMap_congr fun e _ => ?_
  rw [Option.map_map, Function.comp_apply]
  refine congrArg (Option.map · _) (funext fun score => ?_)
  show (⟨base + UInt32.ofNat e.2, score⟩ : Hit M) = ⟨UInt32.ofNat (base.toNat + e.2), score⟩
  rw [UInt32.ofNat_add, UInt32.ofNat_toNat]

-- ---------------------------------------------------------------------------
-- Statistics
-- ---------------------------------------------------------------------------

/-- The statistics of rows: every number is a sum over them. -/
def rowStats (node : Node) (rows : List DocRow) : Stats A where
  n := UInt32.ofNat (rows.countP fun r => r.record.status = .indexed)
  avgLen := bm25.avgLen
    (rows.map fun r => if r.record.status = .indexed then r.record.len.toNat else 0).sum
    (rows.countP fun r => r.record.status = .indexed)
  df := (queryTerms node []).map fun t =>
    (t, UInt32.ofNat (rows.countP fun r => !(r.positions t).isEmpty))

theorem length_postingsFrom (t : String) (k : Nat) (rows : List DocRow) :
    (DocRow.postingsFrom t k rows).length = rows.countP fun r => !(r.positions t).isEmpty := by
  induction rows generalizing k with
  | nil => rfl
  | cons r rows ih =>
    rw [DocRow.postingsFrom, List.length_append, ih, List.countP_cons, Nat.add_comm]
    congr 1
    by_cases hNil : r.positions t = []
    · simp [hNil]
    · simp [posting_of_ne_nil hNil, hNil]

/-- The document frequency of a term is summed over the segments that have it. -/
theorem sum_docFreq {base : Nat} {rows : List DocRow} {segs : List Segment}
    (h : CutInto base rows segs) {terms : List String} {t : String} (ht : t ∈ terms) :
    ((segs.map fun s => lookupAll s terms).filterMap fun lists =>
      (Lists.get lists t).map docFreq).sum =
      UInt32.ofNat (rows.countP fun r => !(r.positions t).isEmpty) := by
  induction h with
  | nil => rfl
  | @cons base rows rest s segs _ hHolds _ ih =>
    have hLength := congrArg List.length (hHolds.postings t)
    rw [length_postingsFrom] at hLength
    have hList := postings_eq s t
    rw [List.map_cons, List.filterMap_cons, get_lookupAll s ht, List.countP_append,
      UInt32.ofNat_add, ← ih, ← hLength]
    show _ = UInt32.ofNat (cursorOf s t).length + _
    rw [hList]
    rcases s.postings t with _ | list
    · simp
    · rw [Option.map_some, List.sum_cons]
      rfl

theorem toNat_numIndexed_of_holds {rows : List DocRow} {s : Segment} (h : s.Holds rows) :
    s.numIndexed.toNat = rows.countP fun r => r.record.status = .indexed := by
  have hLen := h.length_lt
  have hLe := List.countP_le_length (p := fun r : DocRow => decide (r.record.status = .indexed))
    (l := rows)
  rw [Segment.numIndexed, Doc.numIndexed, h.docs, List.countP_map]
  exact UInt32.toNat_ofNat_of_lt' (by show _ < 2 ^ 32; exact Nat.lt_of_le_of_lt hLe hLen)

theorem sum_lengths {base : Nat} {rows : List DocRow} {segs : List Segment}
    (h : CutInto base rows segs) :
    (segs.map Segment.totalLen).sum =
        (rows.map fun r => if r.record.status = .indexed then r.record.len.toNat else 0).sum ∧
      (segs.map fun s => s.numIndexed.toNat).sum =
        (rows.countP fun r => r.record.status = .indexed) ∧
      (segs.map fun s => s.numIndexed.toNat - s.entry.numDeleted.toNat).sum =
        (rows.countP fun r => r.record.status = .indexed) := by
  induction h with
  | nil => exact ⟨rfl, rfl, rfl⟩
  | @cons base rows rest s segs _ hHolds _ ih =>
    obtain ⟨hTotal, hIndexed, hLive⟩ := ih
    have hCount := toNat_numIndexed_of_holds hHolds
    refine ⟨?_, ?_, ?_⟩
    · rw [List.map_cons, List.sum_cons, hTotal, List.map_append, List.sum_append,
        Segment.totalLen, hHolds.docs, List.map_map]
      rfl
    · rw [List.map_cons, List.sum_cons, hIndexed, List.countP_append, hCount]
    · rw [List.map_cons, List.sum_cons, hLive, List.countP_append, hCount, hHolds.numDeleted,
        UInt32.toNat_zero, Nat.sub_zero]

omit [AddCommMonoid F] [AddCommMonoid M] in
/-- The global statistics do not depend on the cut. -/
theorem queryStats_eq {I : Index} {base : Nat} {rows : List DocRow}
    (h : CutInto base rows I.segments) (node : Node) :
    queryStats bm25 I node = rowStats bm25 node rows := by
  obtain ⟨hTotal, hIndexed, hLive⟩ := sum_lengths h
  have hDf : ((queryTerms node []).map fun t => (t, ((I.segments.map fun s =>
      lookupAll s (queryTerms node [])).filterMap fun lists =>
        (Lists.get lists t).map docFreq).sum)) =
      (queryTerms node []).map fun t =>
        (t, UInt32.ofNat (rows.countP fun r => !(r.positions t).isEmpty)) :=
    List.map_congr_left fun t ht => by rw [sum_docFreq h ht]
  unfold queryStats statsOf rowStats lengths Index.indexedCount
  rw [hTotal, hIndexed, hLive, hDf]

-- ---------------------------------------------------------------------------
-- Evaluation
-- ---------------------------------------------------------------------------

theorem flatMap_segmentHits {I : Index} {node : Node} {base : Nat} {rows : List DocRow}
    {segs : List Segment} (h : CutInto base rows segs) :
    (segs.flatMap fun s => (segmentHits bm25 I node s).map fun h =>
      (⟨s.entry.baseDoc + h.doc, h.score⟩ : Hit M)) =
      rowHits bm25 (queryStats bm25 I node) node base rows := by
  induction h with
  | nil => rfl
  | @cons base rows rest s segs hBase hHolds _ ih =>
    rw [List.flatMap_cons, segmentHits_eq bm25 I node hHolds, map_rowHits, hBase, ih,
      rowHits_append]

/-- Evaluation of an index, over the rows it holds. -/
theorem evaluate_eq_rowHits {I : Index} {base : Nat} {rows : List DocRow}
    (h : CutInto base rows I.segments) (node : Node) :
    evaluate bm25 I node = rowHits bm25 (rowStats bm25 node rows) node base rows := by
  rw [← queryStats_eq bm25 h node]
  exact flatMap_segmentHits bm25 h

/-- Two cuts of one sequence of documents answer every query with the same documents and
scores. -/
theorem evaluate_segmentation {I J : Index} {base : Nat} {rows : List DocRow}
    (hI : CutInto base rows I.segments) (hJ : CutInto base rows J.segments) (node : Node) :
    evaluate bm25 I node = evaluate bm25 J node := by
  rw [evaluate_eq_rowHits bm25 hI node, evaluate_eq_rowHits bm25 hJ node]

end Evaluate

-- ---------------------------------------------------------------------------
-- Two cuts of two documents
-- ---------------------------------------------------------------------------

/-- The rows of `twoIndex`. -/
def twoRows : List DocRow :=
  [⟨twoRecord "x", fun t => if t = "a" then [0] else if t = "b" then [1] else []⟩,
    ⟨twoRecord "y", fun t => if t = "a" then [1] else if t = "b" then [0] else []⟩]

/-- The dictionary of one of them. -/
def oneText (p q : Position) : IdxFile where
  terms :=
    [("a", ⟨[⟨0, [p]⟩], by simp, by simp, by simp⟩),
      ("b", ⟨[⟨0, [q]⟩], by simp, by simp, by simp⟩)]
  terms_lt := by
    have hLt : "a" < "b" := by decide +kernel
    exact List.pairwise_pair.mpr hLt

theorem oneSegment_count : ∀ b ∈ (none : Option Bitmap), b.count = (0 : UInt32) := by
  rintro b ⟨⟩

def oneSegment (id base : UInt32) (path : String) (p q : Position) : Segment where
  entry := ⟨id, 0, base, 1, 0, 0, 0, 0, 100, 100, 0, 2, 2, 2⟩
  idx := oneText p q
  docs := [twoRecord path]
  del := none
  length_docs := rfl
  numDocs_del := by simp
  count_del := oneSegment_count

/-- One segment a document. -/
def splitIndex : Index where
  manifest := ⟨1, 2, 0, 0, 0, 0,
    [(oneSegment 0 0 "x" 0 1).entry, (oneSegment 1 1 "y" 1 0).entry]⟩
  segments := [oneSegment 0 0 "x" 0 1, oneSegment 1 1 "y" 1 0]
  overlay := Overlay.empty
  entries_eq := rfl
  manifest_ok := ⟨by decide, by decide, by
    intro e he
    rcases List.mem_cons.mp he with rfl | he
    · exact ⟨by decide, by decide, by decide, by decide⟩
    · obtain rfl := List.mem_singleton.mp he
      exact ⟨by decide, by decide, by decide, by decide⟩, by
    refine List.isChain_pair.mpr ⟨by decide, by decide⟩⟩

theorem holds_twoSegment : twoSegment.Holds twoRows := by
  refine ⟨rfl, fun t => ?_, rfl, rfl⟩
  by_cases hA : t = "a"
  · subst hA
    decide +kernel
  · by_cases hB : t = "b"
    · subst hB
      decide +kernel
    · have hA' : ¬ "a" = t := fun h => hA h.symm
      have hB' : ¬ "b" = t := fun h => hB h.symm
      simp [twoSegment, twoTexts, twoRows, IdxFile.postings, DocRow.postingsFrom, hA, hB, hA',
        hB']

theorem holds_oneSegment (id base : UInt32) (path : String) (p q : Position) :
    (oneSegment id base path p q).Holds
      [⟨twoRecord path, fun t => if t = "a" then [p] else if t = "b" then [q] else []⟩] := by
  refine ⟨rfl, fun t => ?_, rfl, rfl⟩
  by_cases hA : t = "a"
  · subst hA
    rfl
  · by_cases hB : t = "b"
    · subst hB
      rfl
    · have hA' : ¬ "a" = t := fun h => hA h.symm
      have hB' : ¬ "b" = t := fun h => hB h.symm
      simp [oneSegment, oneText, IdxFile.postings, DocRow.postingsFrom, hA, hB, hA', hB']

theorem evaluate_segmentation_two :
    evaluate (F := Nat) (A := Nat) (M := Nat)
      ⟨fun n df => n.toNat - df.toNat + 1, fun idf tf _ _ => idf * tf.toNat, fun _ _ => 0⟩
      twoIndex (.phrase ["a", "b"]) =
    evaluate ⟨fun n df => n.toNat - df.toNat + 1, fun idf tf _ _ => idf * tf.toNat,
      fun _ _ => 0⟩ splitIndex (.phrase ["a", "b"]) := by
  have hOne : CutInto 0 (twoRows ++ []) twoIndex.segments :=
    .cons rfl holds_twoSegment (.nil _)
  have hSplit : CutInto 0 (_ ++ (_ ++ [])) splitIndex.segments :=
    .cons rfl (holds_oneSegment 0 0 "x" 0 1)
      (.cons rfl (holds_oneSegment 1 1 "y" 1 0) (.nil _))
  exact evaluate_segmentation _ hOne hSplit _

end Query

-- ---------------------------------------------------------------------------
-- The segments of a build
-- ---------------------------------------------------------------------------

section Build

variable [Platform]

/-- What a build stores of a crawled file. -/
def rowOf (read : ReadFile) (cf : CrawledFile) : DocRow where
  record := recorded read cf
  positions := fun t =>
    if Idx.maxTermBytes < t.utf8ByteSize then [] else docPositions read cf t

theorem postingsFrom_map_rowOf (read : ReadFile) (t : String) (k : Nat)
    (files : List CrawledFile) : DocRow.postingsFrom t k (files.map (rowOf read)) =
      if Idx.maxTermBytes < t.utf8ByteSize then []
      else docPostings read t (UInt32.ofNat k) files := by
  induction files generalizing k with
  | nil => simp [DocRow.postingsFrom, docPostings]
  | cons cf files ih =>
    rw [List.map_cons, DocRow.postingsFrom, ih]
    by_cases hLong : Idx.maxTermBytes < t.utf8ByteSize
    · simp [rowOf, hLong]
    · have hPositions : (rowOf read cf).positions t = docPositions read cf t := if_neg hLong
      rw [if_neg hLong, if_neg hLong, docPostings, hPositions, UInt32.ofNat_add]
      rfl

/-- The segments of a build are a cut of its files. -/
theorem Tiles.cut {read : ReadFile} {base : DocId} {id : UInt32} {files : List CrawledFile}
    {segs : List Segment} (h : Tiles read base id files segs)
    (hRoom : TilesRoom base id files segs) :
    CutInto base.toNat (files.map (rowOf read)) segs := by
  induction h with
  | nil => exact .nil _
  | @cons base id files rest s segs hBase _ hFlushed hRecords _ _ hRest ih =>
    have hHolds : s.Holds (files.map (rowOf read)) := by
      refine ⟨?_, fun t => ?_, hFlushed.del, hFlushed.numDeleted⟩
      · rw [hRecords.docs, List.map_map]
        rfl
      · rw [hRecords.postings, postingsFrom_map_rowOf]
        rfl
    rw [List.map_append]
    refine .cons (by rw [hBase]) hHolds ?_
    rw [List.length_map]
    by_cases hNil : segs = []
    · have hRestNil : rest = [] := by
        by_contra hNe
        exact hRest.segs_ne_nil hNe hNil
      rw [hNil, hRestNil]
      exact .nil _
    · obtain ⟨hNext, -, hRoom'⟩ := Tiles.room_rest hRest hRoom hNil
      rw [← hNext]
      exact ih hRoom'

end Build

end Ripindex
