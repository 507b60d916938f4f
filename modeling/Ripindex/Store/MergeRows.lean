import Ripindex.Store.Converge
import Ripindex.Store.Mirror

/-!
# The rows of a merge

`prepare_merge` copies the live documents of its sources, with the patches of its snapshot, and
their postings under new ids. `commit_merges` carries over the deletions that came later. What
a merge commits has the documents that were live when it took the lock; those it moved have the
records of the snapshot, so that a patch that came between is lost.

## Results

* `Prepares.positions`      — the positions of a document under its new id;
* `rows_segment`            — the rows of a merged segment;
* `rows_splicedIndex`       — the rows of the index a merge commits;
* `Operation.Run.short`     — no dictionary has an overlong term;
* `merge_keeps_rows`        — a merge that is prepared and committed in a run of operations.
-/

namespace Ripindex

-- ---------------------------------------------------------------------------
-- Renumbering
-- ---------------------------------------------------------------------------

theorem lookup_foldl_insert {docs : List SourceDoc} (hNodup : docs.Nodup) (k : Nat)
    (acc : AList fun _ : SourceDoc => DocId) (d : SourceDoc) :
    ((docs.zipIdx k).foldl (fun acc e => acc.insert e.1 (UInt32.ofNat e.2)) acc).lookup d =
      if d ∈ docs then some (UInt32.ofNat (k + docs.idxOf d)) else acc.lookup d := by
  induction docs generalizing k acc with
  | nil => rfl
  | cons e docs ih =>
    obtain ⟨hNot, hRest⟩ := List.nodup_cons.mp hNodup
    rw [List.zipIdx_cons, List.foldl_cons, ih hRest]
    by_cases h : d = e
    · subst h
      rw [if_neg hNot, if_pos List.mem_cons_self, AList.lookup_insert, List.idxOf_cons_self,
        Nat.add_zero]
    · rw [AList.lookup_insert_ne h, List.idxOf_cons_ne _ (Ne.symm h), Nat.succ_eq_add_one,
        Nat.add_assoc, Nat.add_comm 1]
      simp [h]

/-- A document gets its place in the list as its new id. -/
theorem lookup_renumber {docs : List SourceDoc} (hNodup : docs.Nodup) (d : SourceDoc) :
    (renumber docs).lookup d = if d ∈ docs then some (UInt32.ofNat (docs.idxOf d)) else none := by
  unfold renumber
  rw [lookup_foldl_insert hNodup, Nat.zero_add, AList.lookup_empty]

/-- Only one document has a new id. -/
theorem lookup_renumber_eq {docs : List SourceDoc} (hNodup : docs.Nodup)
    (hLen : docs.length < 2 ^ 32) {d : SourceDoc} {k : Nat} (hk : k < docs.length) :
    (renumber docs).lookup d = some (UInt32.ofNat k) ↔ docs[k] = d := by
  rw [lookup_renumber hNodup]
  constructor
  · intro h
    split_ifs at h with hMem
    have hLt := List.idxOf_lt_length_of_mem hMem
    have hEq := congrArg UInt32.toNat (Option.some.inj h)
    rw [UInt32.toNat_ofNat_of_lt' (by show _ < 2 ^ 32; omega),
      UInt32.toNat_ofNat_of_lt' (by show _ < 2 ^ 32; omega)] at hEq
    subst hEq
    exact List.getElem_idxOf hLt
  · intro h
    subst h
    rw [if_pos (List.getElem_mem hk), hNodup.idxOf_getElem]

-- ---------------------------------------------------------------------------
-- Postings
-- ---------------------------------------------------------------------------

/-- The posting of a source document under its new id, if it has one. -/
def remapped (oldToNew : AList fun _ : SourceDoc => DocId) (segmentId : UInt32) (p : Posting) :
    List Posting :=
  (oldToNew.lookup (segmentId, p.doc)).elim [] fun new => [⟨new, p.positions⟩]

theorem mem_remapped {oldToNew : AList fun _ : SourceDoc => DocId} {segmentId : UInt32}
    {p q : Posting} : q ∈ remapped oldToNew segmentId p ↔
      oldToNew.lookup (segmentId, p.doc) = some q.doc ∧ q.positions = p.positions := by
  unfold remapped
  rcases oldToNew.lookup (segmentId, p.doc) with _ | new
  · simp
  · rw [Option.elim_some, List.mem_singleton, Option.some.injEq]
    constructor
    · intro h
      exact h ▸ ⟨rfl, rfl⟩
    · intro h
      obtain ⟨doc, positions⟩ := q
      rw [Posting.mk.injEq]
      exact ⟨h.1.symm, h.2⟩

theorem foldl_addPosition {ps qs : List Position} (h : (ps ++ qs).Pairwise (· < ·)) :
    qs.foldl addPosition ps = ps ++ qs := by
  induction qs generalizing ps with
  | nil => exact (List.append_nil ps).symm
  | cons q qs ih =>
    have hAdd : addPosition ps q = ps ++ [q] := by
      refine if_neg fun hLast => ?_
      have hLt := (List.pairwise_append.mp h).2.2 q (List.mem_of_getLast? hLast) q
        List.mem_cons_self
      exact UInt32.lt_irrefl q hLt
    rw [List.foldl_cons, hAdd, ih (by rwa [List.append_assoc]), List.append_assoc]
    rfl

theorem foldl_push_positions {terms : TermMap} {l : MemPostingList} {t : String} {doc : DocId}
    (hLast : LastNe l doc) {ps : List Position} (h : terms.list t = l ++ posting doc ps)
    (qs : List Position) :
    (qs.foldl (fun terms pos => terms.push t doc pos) terms).list t =
      l ++ posting doc (qs.foldl addPosition ps) := by
  induction qs generalizing terms ps with
  | nil => exact h
  | cons q qs ih =>
    refine ih ?_
    rw [TermMap.list_push, if_pos rfl, h, push_posting hLast]

theorem foldl_push_other {terms : TermMap} {t u : String} (hNe : u ≠ t) (doc : DocId)
    (qs : List Position) :
    (qs.foldl (fun terms pos => terms.push t doc pos) terms).list u = terms.list u := by
  induction qs generalizing terms with
  | nil => rfl
  | cons q qs ih => rw [List.foldl_cons, ih, TermMap.list_push, if_neg hNe]

section Remap

variable {oldToNew : AList fun _ : SourceDoc => DocId} {segmentId : UInt32} {t u : String}

theorem list_remapPosting_other (hNe : u ≠ t) (terms : TermMap) (p : Posting) :
    (remapPosting oldToNew segmentId t terms p).list u = terms.list u := by
  unfold remapPosting
  rcases oldToNew.lookup (segmentId, p.doc) with _ | new
  · rfl
  · exact foldl_push_other hNe new p.positions

/-- A posting whose new id is not among the last ones is appended. -/
theorem list_remapPosting {terms : TermMap} {p : Posting} (hNil : p.positions ≠ [])
    (hLt : p.positions.Pairwise (· < ·))
    (hLast : ∀ q ∈ remapped oldToNew segmentId p, LastNe (terms.list t) q.doc) :
    (remapPosting oldToNew segmentId t terms p).list t =
      terms.list t ++ remapped oldToNew segmentId p := by
  unfold remapPosting
  unfold remapped at hLast ⊢
  rcases hLookup : oldToNew.lookup (segmentId, p.doc) with _ | new
  · exact (List.append_nil _).symm
  · rw [hLookup] at hLast
    have hEmpty : terms.list t = terms.list t ++ posting new [] := (List.append_nil _).symm
    have hAdd := foldl_push_positions (hLast ⟨new, p.positions⟩ List.mem_cons_self) hEmpty
      p.positions
    rw [foldl_addPosition (by simpa using hLt), List.nil_append, posting_of_ne_nil hNil] at hAdd
    exact hAdd

/-- No two documents have one new id. -/
def Injective (oldToNew : AList fun _ : SourceDoc => DocId) : Prop :=
  ∀ a b new, oldToNew.lookup a = some new → oldToNew.lookup b = some new → a = b

theorem list_foldl_remapPosting (hInj : Injective oldToNew) {ps : List Posting}
    (hDocs : ps.Pairwise fun p q => p.doc < q.doc) (hNil : ∀ p ∈ ps, p.positions ≠ [])
    (hLt : ∀ p ∈ ps, p.positions.Pairwise (· < ·)) {terms : TermMap}
    (hNew : ∀ q ∈ terms.list t, ∀ p ∈ ps, oldToNew.lookup (segmentId, p.doc) ≠ some q.doc) :
    (ps.foldl (remapPosting oldToNew segmentId t) terms).list t =
      terms.list t ++ ps.flatMap (remapped oldToNew segmentId) := by
  induction ps generalizing terms with
  | nil => exact (List.append_nil _).symm
  | cons p ps ih =>
    obtain ⟨hHead, hTail⟩ := List.pairwise_cons.mp hDocs
    have hOne : (remapPosting oldToNew segmentId t terms p).list t =
        terms.list t ++ remapped oldToNew segmentId p := by
      refine list_remapPosting (hNil p List.mem_cons_self) (hLt p List.mem_cons_self) ?_
      intro q hq r hr hEq
      refine hNew r (List.mem_of_getLast? hr) p List.mem_cons_self ?_
      rw [hEq]
      exact (mem_remapped.mp hq).1
    rw [List.foldl_cons, ih hTail (fun q hq => hNil q (List.mem_cons_of_mem _ hq))
      (fun q hq => hLt q (List.mem_cons_of_mem _ hq)), hOne, List.flatMap_cons,
      List.append_assoc]
    -- The posting just added is that of another document.
    rw [hOne]
    intro q hq r hr hEq
    rcases List.mem_append.mp hq with hq | hq
    · exact hNew q hq r (List.mem_cons_of_mem _ hr) hEq
    · have hSame : p.doc = r.doc := congrArg Prod.snd (hInj _ _ _ (mem_remapped.mp hq).1 hEq)
      exact UInt32.lt_irrefl _ (hSame ▸ hHead r hr)

theorem list_foldl_postings_other (hNe : u ≠ t) (ps : List Posting) (terms : TermMap) :
    (ps.foldl (remapPosting oldToNew segmentId t) terms).list u = terms.list u := by
  induction ps generalizing terms with
  | nil => rfl
  | cons p ps ih => rw [List.foldl_cons, ih, list_remapPosting_other hNe]

/-- Terms other than `t` do not touch its list. -/
theorem list_foldl_terms_other {es : List (String × DiskPostingList)} (hNe : ∀ e ∈ es, e.1 ≠ t)
    (terms : TermMap) :
    (es.foldl (fun terms e =>
      e.2.postings.foldl (remapPosting oldToNew segmentId e.1) terms) terms).list t =
        terms.list t := by
  induction es generalizing terms with
  | nil => rfl
  | cons e es ih =>
    obtain ⟨hHead, hTail⟩ := List.forall_mem_cons.mp hNe
    rw [List.foldl_cons, ih hTail, list_foldl_postings_other hHead.symm]

theorem list_foldl_terms (hInj : Injective oldToNew) {es : List (String × DiskPostingList)}
    (hTerms : es.Pairwise fun s t => s.1 < t.1) {ps : List Posting}
    (hPostings : ((es.find? fun e => e.1 == t).map fun e => e.2.postings).getD [] = ps)
    {terms : TermMap}
    (hNew : ∀ q ∈ terms.list t, ∀ p ∈ ps, oldToNew.lookup (segmentId, p.doc) ≠ some q.doc) :
    (es.foldl (fun terms e =>
      e.2.postings.foldl (remapPosting oldToNew segmentId e.1) terms) terms).list t =
        terms.list t ++ ps.flatMap (remapped oldToNew segmentId) := by
  induction es generalizing terms with
  | nil =>
    subst hPostings
    exact (List.append_nil _).symm
  | cons e es ih =>
    obtain ⟨hHead, hTail⟩ := List.pairwise_cons.mp hTerms
    by_cases h : e.1 = t
    · rw [List.find?_cons_of_pos (by simpa using h), Option.map_some, Option.getD_some]
        at hPostings
      subst hPostings h
      rw [List.foldl_cons, list_foldl_terms_other fun e' he' => (hHead e' he').ne']
      exact list_foldl_remapPosting hInj e.2.docs_lt e.2.positions_ne_nil e.2.positions_lt hNew
    · rw [List.find?_cons_of_neg (by simpa using h)] at hPostings
      have hOne := @list_foldl_postings_other oldToNew segmentId e.1 t (Ne.symm h) e.2.postings
        terms
      rw [List.foldl_cons, ih hTail hPostings (by rwa [hOne]), hOne]

end Remap

/-- What a merge has for a term: the postings of its sources under their new ids. -/
theorem list_remapTerms {oldToNew : AList fun _ : SourceDoc => DocId} (hInj : Injective oldToNew)
    {segs : List Segment} (hIds : (segs.map fun s => s.entry.segmentId).Nodup) (t : String) :
    (remapTerms oldToNew segs).list t = segs.flatMap fun s =>
      (s.idx.postings t).flatMap (remapped oldToNew s.entry.segmentId) := by
  have hFold : ∀ terms : TermMap,
      (∀ q ∈ terms.list t, ∀ s ∈ segs, ∀ i,
        oldToNew.lookup (s.entry.segmentId, i) ≠ some q.doc) →
      (segs.foldl (remapSegment oldToNew) terms).list t = terms.list t ++ segs.flatMap fun s =>
        (s.idx.postings t).flatMap (remapped oldToNew s.entry.segmentId) := by
    induction segs with
    | nil => exact fun _ _ => (List.append_nil _).symm
    | cons s segs ih =>
      intro terms hNew
      obtain ⟨hHead, hTail⟩ := List.nodup_cons.mp hIds
      have hOne : (remapSegment oldToNew terms s).list t = terms.list t ++
          (s.idx.postings t).flatMap (remapped oldToNew s.entry.segmentId) :=
        list_foldl_terms hInj s.idx.terms_lt rfl
          fun q hq p _ => hNew q hq s List.mem_cons_self p.doc
      rw [List.foldl_cons, ih hTail, hOne, List.flatMap_cons, List.append_assoc]
      rw [hOne]
      intro q hq r hr i hEq
      rcases List.mem_append.mp hq with hq | hq
      · exact hNew q hq r (List.mem_cons_of_mem _ hr) i hEq
      · obtain ⟨p, -, hq⟩ := List.mem_flatMap.mp hq
        have hSame := congrArg Prod.fst (hInj _ _ _ (mem_remapped.mp hq).1 hEq)
        exact hHead (List.mem_map.mpr ⟨r, hr, hSame.symm⟩)
  have hAll := hFold ∅ (by simp)
  rwa [TermMap.list_empty, List.nil_append] at hAll

-- ---------------------------------------------------------------------------
-- The documents of a merge
-- ---------------------------------------------------------------------------

/-- The rows of a segment with the documents they are of. -/
def Segment.sourceRows (o : Overlay) (s : Segment) : List (SourceDoc × DocRow) :=
  (List.range s.entry.numDocs.toNat).filterMap fun i =>
    (s.rowAt o (UInt32.ofNat i)).map ((s.entry.segmentId, UInt32.ofNat i), ·)

theorem Segment.mem_sourceRows {o : Overlay} {s : Segment} {e : SourceDoc × DocRow} :
    e ∈ s.sourceRows o ↔
      ∃ i < s.entry.numDocs, e.1 = (s.entry.segmentId, i) ∧ s.rowAt o i = some e.2 := by
  unfold sourceRows
  rw [List.mem_filterMap]
  constructor
  · intro h
    obtain ⟨i, hi, hRow⟩ := h
    obtain ⟨r, hr, rfl⟩ := Option.map_eq_some_iff.mp hRow
    exact ⟨UInt32.ofNat i, ofNat_lt_of_mem_range hi, rfl, hr⟩
  · intro h
    obtain ⟨i, hi, hKey, hRow⟩ := h
    refine ⟨i.toNat, List.mem_range.mpr (UInt32.lt_iff_toNat_lt.mp hi), ?_⟩
    rw [UInt32.ofNat_toNat, hRow, Option.map_some, ← hKey]

theorem Segment.nodup_sourceRows (o : Overlay) (s : Segment) :
    ((s.sourceRows o).map Prod.fst).Nodup := by
  refine List.pairwise_map.mpr (List.pairwise_filterMap.mpr ?_)
  refine List.nodup_range.imp_of_mem ?_
  intro i j hi hj hNe e he e' he' hEq
  obtain ⟨r, -, rfl⟩ := Option.map_eq_some_iff.mp he
  obtain ⟨r', -, rfl⟩ := Option.map_eq_some_iff.mp he'
  have hIds := congrArg (fun d : SourceDoc => d.2.toNat) hEq
  simp only [toNat_ofNat_of_mem_range hi, toNat_ofNat_of_mem_range hj] at hIds
  exact hNe hIds

/-- The documents a merge of the segments moves, in their new order. -/
def movedRows (o : Overlay) (segs : List Segment) : List (SourceDoc × DocRow) :=
  segs.flatMap (Segment.sourceRows o)

theorem survivors_eq {S : Index} {segs : List Segment} (h : ∀ s ∈ segs, s ∈ S.segments) :
    survivors S segs = (movedRows S.overlay segs).map fun e => (e.1, e.2.record) := by
  unfold survivors movedRows
  rw [List.map_flatMap]
  refine List.flatMap_congr fun s hs => ?_
  unfold survivorsOf Segment.sourceRows
  rw [List.map_filterMap]
  refine List.filterMap_congr fun i hi => ?_
  have hDoc := Index.doc_global (h s hs) (ofNat_lt_of_mem_range hi)
  unfold Segment.rowAt at hDoc ⊢
  dsimp only
  rw [hDoc]
  cases hDel : s.isDeleted (UInt32.ofNat i) with
  | true => simp [Segment.docMeta, hDel]
  | false => rcases s.docMeta (UInt32.ofNat i) with _ | m <;> rfl

theorem nodup_movedRows (o : Overlay) {segs : List Segment}
    (hIds : (segs.map fun s => s.entry.segmentId).Nodup) :
    ((movedRows o segs).map Prod.fst).Nodup := by
  unfold movedRows
  rw [List.map_flatMap]
  refine List.nodup_flatMap.mpr ⟨fun s _ => s.nodup_sourceRows o, ?_⟩
  refine (List.pairwise_map.mp hIds).imp ?_
  intro s t hNe
  refine List.disjoint_left.mpr fun d hs ht => hNe ?_
  obtain ⟨e, he, rfl⟩ := List.mem_map.mp hs
  obtain ⟨e', he', hEq⟩ := List.mem_map.mp ht
  obtain ⟨i, -, hKey, -⟩ := Segment.mem_sourceRows.mp he
  obtain ⟨j, -, hKey', -⟩ := Segment.mem_sourceRows.mp he'
  rw [hKey, hKey'] at hEq
  exact (congrArg Prod.fst hEq).symm

/-- No term of the segment is longer than the dictionary allows. -/
def Segment.Short (s : Segment) : Prop :=
  ∀ t : String, Idx.maxTermBytes < t.utf8ByteSize → s.idx.postings t = []

theorem IdxFile.pairwise_postings (f : IdxFile) (t : String) :
    (f.postings t).Pairwise fun p q => p.doc < q.doc := by
  unfold postings
  rcases hFind : f.terms.find? fun e => e.1 == t with _ | e
  · rw [hFind]
    exact .nil
  · rw [hFind]
    exact e.2.docs_lt

/-- A document has one posting. -/
theorem find?_posting {ps : List Posting} (hLt : ps.Pairwise fun p q => p.doc < q.doc)
    {p : Posting} (hp : p ∈ ps) : (ps.find? fun q => q.doc == p.doc) = some p := by
  rcases hFind : ps.find? fun q => q.doc == p.doc with _ | q
  · exact absurd (beq_self_eq_true _) (List.find?_eq_none.mp hFind p hp)
  · have hq := List.mem_of_find?_eq_some hFind
    have hDoc : q.doc = p.doc := by simpa using List.find?_some hFind
    have hNodup : (ps.map Posting.doc).Nodup :=
      List.pairwise_map.mpr (hLt.imp fun h => UInt32.ne_of_lt h)
    exact hFind.trans (congrArg some (List.inj_on_of_nodup_map hNodup hq hp hDoc))

theorem IdxFile.positions_of_mem {f : IdxFile} {t : String} {p : Posting}
    (hp : p ∈ f.postings t) : f.positions t p.doc = p.positions := by
  unfold positions
  rw [find?_posting (f.pairwise_postings t) hp]
  rfl

theorem IdxFile.positions_eq_nil {f : IdxFile} {t : String} {i : DocId}
    (h : ∀ p ∈ f.postings t, p.doc ≠ i) : f.positions t i = [] := by
  unfold positions
  rw [List.find?_eq_none.mpr fun p hp => by simpa using h p hp]
  rfl

/-- The sources of a merge in its snapshot. -/
structure SourcesOf (S : Index) (g : List UInt32) (segs : List Segment) : Prop where
  found : g.mapM S.findSegment = some segs
  nodup : g.Nodup

theorem segmentId_of_findSegment {S : Index} {id : UInt32} {s : Segment}
    (h : S.findSegment id = some s) : s.entry.segmentId = id := by
  unfold Index.findSegment at h
  simpa using List.find?_some h

theorem map_segmentId_of_mapM {S : Index} {g : List UInt32} {segs : List Segment}
    (h : g.mapM S.findSegment = some segs) : segs.map (fun s => s.entry.segmentId) = g := by
  induction g generalizing segs with
  | nil =>
    obtain rfl : segs = [] := (Option.some.inj h).symm
    rfl
  | cons id g ih =>
    rw [List.mapM_cons] at h
    rcases hHead : S.findSegment id with _ | s
    · rw [hHead] at h
      cases h
    rcases hTail : g.mapM S.findSegment with _ | ss
    · rw [hHead, hTail] at h
      cases h
    rw [hHead, hTail] at h
    obtain rfl : segs = s :: ss := (Option.some.inj h).symm
    rw [List.map_cons, ih hTail, segmentId_of_findSegment hHead]

namespace SourcesOf

variable {S : Index} {g : List UInt32} {segs : List Segment}

theorem mem (h : SourcesOf S g segs) {s : Segment} (hs : s ∈ segs) : s ∈ S.segments := by
  obtain ⟨id, -, hFind⟩ := (mem_of_mapM_eq_some h.found).2 s hs
  exact List.mem_of_find?_eq_some hFind

theorem ids_nodup (h : SourcesOf S g segs) : (segs.map fun s => s.entry.segmentId).Nodup := by
  rw [map_segmentId_of_mapM h.found]
  exact h.nodup

theorem oldToNew [Platform] (h : SourcesOf S g segs) :
    oldToNewOf S segs = renumber ((movedRows S.overlay segs).map Prod.fst) := by
  rw [oldToNewOf, survivors_eq fun s hs => h.mem hs, List.map_map]
  rfl

/-- The new id of a document is its place among those that are moved. -/
theorem lookup_oldToNew [Platform] (h : SourcesOf S g segs)
    (hLen : (movedRows S.overlay segs).length < 2 ^ 32) {d : SourceDoc} {k : Nat}
    (hk : k < (movedRows S.overlay segs).length) :
    (oldToNewOf S segs).lookup d = some (UInt32.ofNat k) ↔
      (movedRows S.overlay segs)[k].1 = d := by
  rw [h.oldToNew, lookup_renumber_eq (nodup_movedRows _ h.ids_nodup) (by simpa using hLen)
    (by simpa using hk), List.getElem_map]

theorem injective_oldToNew [Platform] (h : SourcesOf S g segs)
    (hLen : (movedRows S.overlay segs).length < 2 ^ 32) : Injective (oldToNewOf S segs) := by
  intro a b new ha hb
  -- A new id is the place of a document.
  have hPlace : ∃ k, ∃ hk : k < (movedRows S.overlay segs).length, new = UInt32.ofNat k := by
    rw [h.oldToNew, lookup_renumber (nodup_movedRows _ h.ids_nodup)] at ha
    split_ifs at ha with hMem
    refine ⟨_, ?_, (Option.some.inj ha).symm⟩
    simpa using List.idxOf_lt_length_of_mem hMem
  obtain ⟨k, hk, rfl⟩ := hPlace
  exact ((h.lookup_oldToNew hLen hk).mp ha).symm.trans ((h.lookup_oldToNew hLen hk).mp hb)

end SourcesOf

section Prepared

variable [Platform] {S I : Index} {x : StagedMerge} {g : List UInt32} {segs : List Segment}

namespace StagedMerge.Prepares

theorem length_movedRows (hx : x.Prepares S g segs) (h : SourcesOf S g segs) :
    (movedRows S.overlay segs).length = x.merge.numDocs.toNat := by
  rw [← x.length_records, hx.records, survivors_eq fun s hs => h.mem hs]
  simp

theorem lookup_oldToNew (hx : x.Prepares S g segs) (h : SourcesOf S g segs) {d : SourceDoc}
    {k : Nat} (hk : k < (movedRows S.overlay segs).length) :
    (oldToNewOf S segs).lookup d = some (UInt32.ofNat k) ↔
      (movedRows S.overlay segs)[k].1 = d :=
  h.lookup_oldToNew (hx.length_movedRows h ▸ x.merge.numDocs.toNat_lt) hk

theorem injective_oldToNew (hx : x.Prepares S g segs) (h : SourcesOf S g segs) :
    Injective (oldToNewOf S segs) :=
  h.injective_oldToNew (hx.length_movedRows h ▸ x.merge.numDocs.toNat_lt)

/-- A document has the positions of its source under its new id. -/
theorem positions (hx : x.Prepares S g segs) (h : SourcesOf S g segs)
    (hShort : ∀ s ∈ segs, s.Short) {k : Nat} (hk : k < (movedRows S.overlay segs).length)
    (t : String) : x.idx.positions t (UInt32.ofNat k) =
      (movedRows S.overlay segs)[k].2.positions t := by
  obtain ⟨s, hs, hRow⟩ := List.mem_flatMap.mp (List.getElem_mem hk)
  obtain ⟨i, hi, hKey, hRow⟩ := Segment.mem_sourceRows.mp hRow
  have hPositions : (movedRows S.overlay segs)[k].2.positions t = s.idx.positions t i := by
    unfold Segment.rowAt at hRow
    obtain ⟨m, -, hEq⟩ := Option.map_eq_some_iff.mp hRow
    rw [← hEq]
  rw [hPositions]
  have hMerged : x.idx.postings t = if Idx.maxTermBytes < t.utf8ByteSize then []
      else (remapTerms (oldToNewOf S segs) segs).list t := by
    rw [IdxFile.postings_of_write hx.idx t, find_sortedTerms]
    rfl
  by_cases hLong : Idx.maxTermBytes < t.utf8ByteSize
  · rw [if_pos hLong] at hMerged
    rw [IdxFile.positions_eq_nil (by simp [hMerged]),
      IdxFile.positions_eq_nil (by simp [hShort s hs t hLong])]
  · rw [if_neg hLong, list_remapTerms (hx.injective_oldToNew h) h.ids_nodup] at hMerged
    have hNew : (oldToNewOf S segs).lookup (s.entry.segmentId, i) = some (UInt32.ofNat k) :=
      (hx.lookup_oldToNew h hk).mpr hKey
    by_cases hOccurs : ∃ p ∈ s.idx.postings t, p.doc = i
    · obtain ⟨p, hp, rfl⟩ := hOccurs
      have hMem : (⟨UInt32.ofNat k, p.positions⟩ : Posting) ∈ x.idx.postings t := by
        rw [hMerged]
        exact List.mem_flatMap.mpr ⟨s, hs, List.mem_flatMap.mpr
          ⟨p, hp, mem_remapped.mpr ⟨hNew, rfl⟩⟩⟩
      exact (IdxFile.positions_of_mem hMem).trans (IdxFile.positions_of_mem hp).symm
    · -- No other document has this new id.
      rw [IdxFile.positions_eq_nil fun p hp hEq => hOccurs ⟨p, hp, hEq⟩]
      refine IdxFile.positions_eq_nil fun q hq hEq => hOccurs ?_
      rw [hMerged] at hq
      obtain ⟨s', hs', hq⟩ := List.mem_flatMap.mp hq
      obtain ⟨p, hp, hq⟩ := List.mem_flatMap.mp hq
      have hSame := hx.injective_oldToNew h _ _ _ (hEq ▸ (mem_remapped.mp hq).1) hNew
      obtain rfl := List.inj_on_of_nodup_map h.ids_nodup hs' hs (congrArg Prod.fst hSame)
      exact ⟨p, hp, congrArg Prod.snd hSame⟩

end StagedMerge.Prepares

-- ---------------------------------------------------------------------------
-- Deletions carried forward
-- ---------------------------------------------------------------------------

omit [Platform] in
theorem get_carrySource (cur : Index) (p : PreparedMerge) (carry : Bitmap) (src : UInt32)
    (n : DocId) : (carrySource cur p carry src).get n ↔ carry.get n ∨ (n < carry.numDocs ∧
      ∃ s, cur.findSegment src = some s ∧ p.snapshotDelGen.lookup src ≠ some s.entry.delGen ∧
        ∃ i, p.oldToNew.lookup (src, i) = some n ∧ s.isDeleted i) := by
  have hFold : ∀ (b : Bitmap) (l : List (Sigma fun _ : SourceDoc => DocId)) (carry : Bitmap),
      (l.foldl (fun carry e => if e.1.1 = src ∧ b.get e.1.2 then carry.set e.2 else carry)
        carry).get n ↔ carry.get n ∨ (n < carry.numDocs ∧
          ∃ e ∈ l, e.1.1 = src ∧ b.get e.1.2 ∧ e.2 = n) := by
    intro b l
    induction l with
    | nil => simp
    | cons e l ih =>
      intro carry
      rw [List.foldl_cons, ih]
      simp only [List.mem_cons, exists_eq_or_imp]
      by_cases h : e.1.1 = src ∧ b.get e.1.2 = true
      · rw [if_pos h, Bitmap.get_set, Bitmap.numDocs_set, Bool.or_eq_true, Bool.and_eq_true,
          decide_eq_true_eq, decide_eq_true_eq]
        have hAnd : e.2 = n ∧ e.2 < carry.numDocs ↔
            n < carry.numDocs ∧ e.1.1 = src ∧ b.get e.1.2 = true ∧ e.2 = n := by
          constructor
          · intro hEq
            exact ⟨hEq.1 ▸ hEq.2, h.1, h.2, hEq.1⟩
          · intro hEq
            exact ⟨hEq.2.2.2, hEq.2.2.2 ▸ hEq.1⟩
        rw [hAnd, or_assoc, and_or_left]
      · rw [if_neg h]
        tauto
  unfold carrySource
  rcases hFind : cur.findSegment src with _ | s
  · simp
  simp only [Option.some.injEq, exists_eq_left']
  by_cases hGen : p.snapshotDelGen.lookup src = some s.entry.delGen
  · rw [if_pos hGen]
    simp [hGen]
  rw [if_neg hGen]
  rcases hDel : s.del with _ | b
  · simp [Segment.isDeleted, hDel]
  · rw [hFold]
    refine or_congr_right (and_congr_right fun _ => ?_)
    simp only [Segment.isDeleted, hDel, Option.any_some, ne_eq, hGen, not_false_eq_true, true_and]
    constructor
    · intro h
      obtain ⟨⟨⟨src', i⟩, new⟩, he, hSrc, hGet, hNew⟩ := h
      obtain rfl : src' = src := hSrc
      obtain rfl : new = n := hNew
      exact ⟨i, AList.mem_lookup_iff.mpr he, hGet⟩
    · intro h
      obtain ⟨i, hLookup, hGet⟩ := h
      exact ⟨⟨(src, i), n⟩, AList.mem_lookup_iff.mp hLookup, rfl, hGet, rfl⟩

omit [Platform] in
/-- What is carried into a merged segment: the documents that were deleted in a source whose
deletions have changed since the snapshot. -/
theorem get_carryBitmap (cur : Index) (p : PreparedMerge) (n : DocId) :
    (carryBitmap cur p).get n ↔ n < p.numDocs ∧ ∃ src ∈ p.sourceIds, ∃ s,
      cur.findSegment src = some s ∧ p.snapshotDelGen.lookup src ≠ some s.entry.delGen ∧
        ∃ i, p.oldToNew.lookup (src, i) = some n ∧ s.isDeleted i := by
  have hFold : ∀ (srcs : List UInt32) (carry : Bitmap),
      (srcs.foldl (carrySource cur p) carry).get n ↔ carry.get n ∨ (n < carry.numDocs ∧
        ∃ src ∈ srcs, ∃ s, cur.findSegment src = some s ∧
          p.snapshotDelGen.lookup src ≠ some s.entry.delGen ∧
            ∃ i, p.oldToNew.lookup (src, i) = some n ∧ s.isDeleted i) := by
    intro srcs
    induction srcs with
    | nil => simp
    | cons src srcs ih =>
      intro carry
      rw [List.foldl_cons, ih, get_carrySource, numDocs_carrySource]
      simp only [List.mem_cons, exists_eq_or_imp]
      rw [or_assoc, and_or_left]
  unfold carryBitmap
  rw [hFold, Bitmap.get_new]
  simp [Bitmap.new]

-- ---------------------------------------------------------------------------
-- Rows of a merged segment
-- ---------------------------------------------------------------------------

omit [Platform] in
/-- The document is deleted in the index a merge is committed to. -/
def Index.deletedAt (I : Index) (d : SourceDoc) : Bool :=
  (I.findSegment d.1).any fun s => s.isDeleted d.2

omit [Platform] in
/-- The sources of a merge, in its snapshot and in the index it is committed to. -/
structure Sources (S I : Index) (g : List UInt32) (segs cur : List Segment) : Prop
    extends SourcesOf S g segs where
  later : List.Forall₂ (fun s t => s.Carried t ∧ I.findSegment s.entry.segmentId = some t) segs cur

omit [Platform] in
/-- Sources that are still listed are the same segments after some deletions. -/
theorem SourcesOf.later {cur : List Segment} (h : SourcesOf S g segs) (hS : S.Sound)
    (hEvolves : S.Evolves I) (hCur : g.mapM I.findSegment = some cur) :
    Sources S I g segs cur := by
  refine ⟨h, ?_⟩
  have hAll : ∀ {g : List UInt32} {segs cur : List Segment}, g.mapM S.findSegment = some segs →
      g.mapM I.findSegment = some cur → List.Forall₂ (fun s t => s.Carried t ∧
        I.findSegment s.entry.segmentId = some t) segs cur := by
    intro g
    induction g with
    | nil =>
      intro segs cur hSegs hCur
      obtain rfl : segs = [] := (Option.some.inj hSegs).symm
      obtain rfl : cur = [] := (Option.some.inj hCur).symm
      exact .nil
    | cons id g ih =>
      intro segs cur hSegs hCur
      rw [List.mapM_cons] at hSegs hCur
      obtain ⟨s, hs, hSegs⟩ := Option.bind_eq_some_iff.mp hSegs
      obtain ⟨ss, hss, hSegs⟩ := Option.bind_eq_some_iff.mp hSegs
      obtain ⟨t, ht, hCur⟩ := Option.bind_eq_some_iff.mp hCur
      obtain ⟨ts, hts, hCur⟩ := Option.bind_eq_some_iff.mp hCur
      obtain rfl : segs = s :: ss := (Option.some.inj hSegs).symm
      obtain rfl : cur = t :: ts := (Option.some.inj hCur).symm
      have hIdS := segmentId_of_findSegment hs
      have hIdT := segmentId_of_findSegment ht
      refine .cons ⟨?_, hIdS ▸ ht⟩ (ih hss hts)
      exact hEvolves.carried_of_id hS (List.mem_of_find?_eq_some hs) (List.mem_of_find?_eq_some ht)
        (hIdS.trans hIdT.symm)
  exact hAll h.found hCur

omit [Platform] in
theorem Sources.exists_later {cur : List Segment} (h : Sources S I g segs cur) {s : Segment}
    (hs : s ∈ segs) : ∃ t ∈ cur, s.Carried t ∧ I.findSegment s.entry.segmentId = some t := by
  have hLater := h.later
  clear h
  induction hLater with
  | nil => cases hs
  | @cons s' t segs cur hHead _ ih =>
    rcases List.mem_cons.mp hs with rfl | hs
    · exact ⟨t, List.mem_cons_self, hHead⟩
    · obtain ⟨u, hu, hBoth⟩ := ih hs
      exact ⟨u, List.mem_cons_of_mem _ hu, hBoth⟩

omit [Platform] in
theorem Segment.Carried.rowAt_eq {s t : Segment} (h : s.Carried t) (o : Overlay) (i : DocId) :
    t.rowAt o i = if t.isDeleted i then none else s.rowAt o i := by
  unfold Segment.rowAt Segment.docMeta
  rw [h.baseDoc, h.idx, h.docs]
  by_cases hDel : t.isDeleted i = true
  · rw [if_pos hDel, if_pos hDel]
    rfl
  · rw [if_neg hDel, if_neg hDel, if_neg fun hOld => hDel (h.deleted i hOld)]

/-- A row that a merge moved, unless it was deleted since. -/
def Index.surviving (I : Index) (e : SourceDoc × DocRow) : Option DocRow :=
  if I.deletedAt e.1 then none else some e.2

omit [Platform] in
/-- The documents of the sources that are live when the merge is committed. -/
theorem Sources.surviving {cur : List Segment} (h : Sources S I g segs cur) (o : Overlay) :
    (movedRows o segs).filterMap I.surviving =
      cur.flatMap fun s => (s.rows o).map Prod.snd := by
  unfold movedRows
  have hLater := h.later
  clear h
  induction hLater with
  | nil => rfl
  | @cons s t segs cur hHead _ ih =>
    rw [List.flatMap_cons, List.filterMap_append, ih, List.flatMap_cons]
    refine congrArg (· ++ _) ?_
    obtain ⟨hCarried, hFind⟩ := hHead
    unfold Segment.sourceRows Segment.rows
    rw [List.filterMap_filterMap, List.map_filterMap, hCarried.numDocs]
    refine List.filterMap_congr fun i _ => ?_
    rw [hCarried.rowAt_eq]
    unfold Index.surviving Index.deletedAt
    cases hDel : t.isDeleted (UInt32.ofNat i) with
    | true => cases s.rowAt o (UInt32.ofNat i) <;> simp [hFind, hDel]
    | false => cases s.rowAt o (UInt32.ofNat i) <;> simp [hFind, hDel]

namespace StagedMerge.Prepares

variable {cur : List Segment}

theorem lookup_snapshotDelGen (hx : x.Prepares S g segs) (h : SourcesOf S g segs) {s : Segment}
    (hs : s ∈ segs) :
    x.merge.snapshotDelGen.lookup s.entry.segmentId = some s.entry.delGen := by
  rw [hx.snapshotDelGen]
  refine lookup_eq_some_of_forall ⟨_, List.mem_map_of_mem hs, rfl⟩ ?_
  intro e he hEq
  obtain ⟨s', hs', rfl⟩ := List.mem_map.mp he
  rw [List.inj_on_of_nodup_map h.ids_nodup hs' hs hEq]

/-- A document is carried as deleted exactly if it was deleted since the snapshot. -/
theorem get_carry (hx : x.Prepares S g segs) (h : Sources S I g segs cur) {k : Nat}
    (hk : k < (movedRows S.overlay segs).length) :
    (carryBitmap I x.merge).get (UInt32.ofNat k) ↔
      I.deletedAt (movedRows S.overlay segs)[k].1 := by
  have hLen := hx.length_movedRows h.toSourcesOf
  obtain ⟨s, hs, hRow⟩ := List.mem_flatMap.mp (List.getElem_mem hk)
  obtain ⟨i, hi, hKey, hRow⟩ := Segment.mem_sourceRows.mp hRow
  rw [get_carryBitmap, hx.oldToNew, hKey]
  constructor
  · intro hCarry
    obtain ⟨-, src, -, t, hFind, -, j, hNew, hDel⟩ := hCarry
    have hEq := hKey.symm.trans ((hx.lookup_oldToNew h.toSourcesOf hk).mp hNew)
    obtain ⟨rfl, rfl⟩ := Prod.mk.inj hEq
    rw [Index.deletedAt, hFind]
    exact hDel
  · intro hDeleted
    obtain ⟨t, -, hCarried, hFind⟩ := h.exists_later hs
    have hThere : t.isDeleted i = true := by rwa [Index.deletedAt, hFind] at hDeleted
    refine ⟨?_, s.entry.segmentId, ?_, t, hFind, ?_, i,
      (hx.lookup_oldToNew h.toSourcesOf hk).mpr hKey, hThere⟩
    · rw [UInt32.lt_iff_toNat_lt,
        UInt32.toNat_ofNat_of_lt' (Nat.lt_trans (hLen ▸ hk) x.merge.numDocs.toNat_lt)]
      exact hLen ▸ hk
    · rw [hx.sourceIds, ← map_segmentId_of_mapM h.found]
      exact List.mem_map_of_mem hs
    · -- With the same deletions file the document would have been left out.
      rw [hx.lookup_snapshotDelGen h.toSourcesOf hs]
      intro hGen
      obtain rfl := hCarried.eq_of_delGen (Option.some.inj hGen).symm
      have hNone : t.rowAt S.overlay i = none := by
        rw [Segment.rowAt, Segment.docMeta, if_pos hThere]
        rfl
      rw [hNone] at hRow
      cases hRow

/-- A document of a merged segment: that of its source, unless it was deleted since. -/
theorem rowAt_segment (hx : x.Prepares S g segs) (h : Sources S I g segs cur)
    (hShort : ∀ s ∈ segs, s.Short) (id base : UInt32) {o : Overlay} {k : Nat}
    (hk : k < (movedRows S.overlay segs).length) (hFree : o.find (base + UInt32.ofNat k) = none) :
    (x.segment I id base).rowAt o (UInt32.ofNat k) =
      I.surviving (movedRows S.overlay segs)[k] := by
  have hRecords : x.records = (movedRows S.overlay segs).map fun e => e.2.record := by
    rw [hx.records, survivors_eq fun s hs => h.mem hs, List.map_map]
    rfl
  have hPlace : (UInt32.ofNat k).toNat = k :=
    UInt32.toNat_ofNat_of_lt' (Nat.lt_trans
      (hx.length_movedRows h.toSourcesOf ▸ hk) x.merge.numDocs.toNat_lt)
  have hPositions : (fun t => x.idx.positions t (UInt32.ofNat k)) =
      (movedRows S.overlay segs)[k].2.positions :=
    funext fun t => hx.positions h.toSourcesOf hShort hk t
  have hDeleted : (x.segment I id base).isDeleted (UInt32.ofNat k) ↔
      I.deletedAt (movedRows S.overlay segs)[k].1 :=
    (x.isDeleted_segment I id base _).trans (hx.get_carry h hk)
  unfold Segment.rowAt Segment.docMeta Index.surviving Overlay.patched
  rw [if_congr hDeleted rfl rfl, StagedMerge.baseDoc_segment, hFree, StagedMerge.idx_segment,
    hPositions, StagedMerge.docs_segment, hRecords, hPlace, List.getElem?_map,
    List.getElem?_eq_getElem hk]
  split
  · rfl
  · rfl

/-- The rows of a merged segment: the documents of the sources that are live at the commit, with
the patches of the snapshot. -/
theorem rows_segment (hx : x.Prepares S g segs) (h : Sources S I g segs cur)
    (hShort : ∀ s ∈ segs, s.Short) (id base : UInt32) {o : Overlay}
    (hFree : ∀ i < x.merge.numDocs, o.find (base + i) = none) :
    ((x.segment I id base).rows o).map Prod.snd =
      cur.flatMap fun s => (s.rows S.overlay).map Prod.snd := by
  have hLen := hx.length_movedRows h.toSourcesOf
  rw [← h.surviving S.overlay, Segment.rows, List.map_filterMap, StagedMerge.numDocs_segment]
  rw [filterMap_eq_range (movedRows S.overlay segs), hLen]
  refine List.filterMap_congr fun k hk => ?_
  have hLt : k < (movedRows S.overlay segs).length := hLen ▸ List.mem_range.mp hk
  rw [hx.rowAt_segment h hShort id base hLt (hFree _ (ofNat_lt_of_mem_range hk)),
    List.getElem?_eq_getElem hLt, Option.map_map, Option.bind_some]
  cases I.surviving (movedRows S.overlay segs)[k] <;> rfl

end StagedMerge.Prepares

-- ---------------------------------------------------------------------------
-- Rows of the index a merge commits
-- ---------------------------------------------------------------------------

omit [Platform] in
/-- The segments with these ids. -/
def Index.withIds (I : Index) (ids : List UInt32) : List Segment :=
  ids.filterMap I.findSegment

omit [Platform] in
/-- Listed sources are found. -/
theorem mapM_of_listed (h : missingSource I.manifest g = none) :
    g.mapM I.findSegment = some (I.withIds g) := by
  have hFound : ∀ id ∈ g, ∃ s, I.findSegment id = some s := by
    intro id hid
    have hAny := List.find?_eq_none.mp h id hid
    rw [Bool.not_eq_true, Bool.not_eq_false', List.any_eq_true] at hAny
    obtain ⟨e, he, hId⟩ := hAny
    obtain ⟨s, hs, rfl⟩ := Index.mem_manifest_segments.mp he
    refine Option.isSome_iff_exists.mp (List.find?_isSome.mpr ⟨s, hs, hId⟩)
  unfold Index.withIds
  clear h
  induction g with
  | nil => rfl
  | cons id g ih =>
    obtain ⟨⟨s, hs⟩, hTail⟩ := List.forall_mem_cons.mp hFound
    rw [List.mapM_cons, hs, ih hTail, List.filterMap_cons_some hs]
    rfl

omit [Platform] in
/-- The sources are the segments with their ids. -/
theorem perm_withIds (hI : I.Sound) {ids : List UInt32} (hNodup : ids.Nodup) :
    (I.withIds ids).Perm (I.segments.filter fun s => s.entry.segmentId ∈ ids) := by
  have hSegs : I.segments.Nodup := List.Nodup.of_map _ hI.ids_nodup
  refine (List.perm_ext_iff_of_nodup ?_ (hSegs.filter _)).mpr fun s => ?_
  · refine hNodup.filterMap fun id id' s hs hs' => ?_
    exact (segmentId_of_findSegment hs).symm.trans (segmentId_of_findSegment hs')
  · rw [Index.withIds, List.mem_filterMap, List.mem_filter, decide_eq_true_eq]
    constructor
    · intro h
      obtain ⟨id, hid, hFind⟩ := h
      exact ⟨List.mem_of_find?_eq_some hFind, segmentId_of_findSegment hFind ▸ hid⟩
    · intro h
      obtain ⟨hs, hid⟩ := h
      refine ⟨_, hid, ?_⟩
      have hSome : (I.findSegment s.entry.segmentId).isSome := by
        unfold Index.findSegment
        exact List.find?_isSome.mpr ⟨s, hs, beq_self_eq_true _⟩
      obtain ⟨t, ht⟩ := Option.isSome_iff_exists.mp hSome
      rw [ht, hI.eq_of_segmentId (List.mem_of_find?_eq_some ht) hs (segmentId_of_findSegment ht)]

/-- The merges are prepared from groups of `S`, and their sources are still listed. -/
structure Mergeable (S I : Index) (xs : List StagedMerge) : Prop where
  prepared : ∀ x ∈ xs, ∃ segs, x.merge.sourceIds.mapM S.findSegment = some segs ∧
    x.Prepares S x.merge.sourceIds segs
  disjoint : (mergedIds (xs.map StagedMerge.merge)).Nodup
  listed : SourcesListed I.manifest (xs.map StagedMerge.merge)

/-- The rows of merged segments. -/
theorem rows_mergedSegments {xs : List StagedMerge} (hS : S.Sound) (hEvolves : S.Evolves I)
    (hShort : ∀ s ∈ S.segments, s.Short) (hMerge : Mergeable S I xs) {bound : Nat} {id : UInt32}
    (hLt : ∀ p ∈ I.overlay.patches, p.docId.toNat < bound)
    (hFit : MergesFit bound id (xs.map StagedMerge.merge)) :
    ((mergedSegments I id (UInt32.ofNat bound) xs).flatMap (Segment.rows I.overlay)).map
        Prod.snd =
      (I.withIds (mergedIds (xs.map StagedMerge.merge))).flatMap fun s =>
        (s.rows S.overlay).map Prod.snd := by
  induction xs generalizing bound id with
  | nil => rfl
  | cons x xs ih =>
    obtain ⟨⟨segs, hSegs, hPrepares⟩, hPrepared⟩ := List.forall_mem_cons.mp hMerge.prepared
    obtain ⟨hListed, hRestListed⟩ := List.forall_mem_cons.mp hMerge.listed
    have hIds : mergedIds ((x :: xs).map StagedMerge.merge) =
        x.merge.sourceIds ++ mergedIds (xs.map StagedMerge.merge) := rfl
    have hDisjoint := hMerge.disjoint
    rw [hIds] at hDisjoint
    have hSources : SourcesOf S x.merge.sourceIds segs :=
      ⟨hSegs, (List.nodup_append.mp hDisjoint).1⟩
    have hLater := hSources.later hS hEvolves (mapM_of_listed hListed)
    obtain ⟨hBound, hId, hRestFit⟩ := hFit
    have hEnd := MergesFit.bound_le hRestFit
    have hNum : UInt32.ofNat bound + x.merge.numDocs =
        UInt32.ofNat (bound + x.merge.numDocs.toNat) := by
      rw [UInt32.ofNat_add, UInt32.ofNat_toNat]
    have hHead := hPrepares.rows_segment hLater (fun s hs => hShort s (hSources.mem hs)) id
      (UInt32.ofNat bound) (o := I.overlay) ?_
    · have hRest := ih ⟨hPrepared, (List.nodup_append.mp hDisjoint).2.1, hRestListed⟩
        (fun p hp => Nat.lt_of_lt_of_le (hLt p hp) (Nat.le_add_right _ _)) hRestFit
      rw [mergedSegments, List.flatMap_cons, List.map_append, hHead, hNum, hRest, hIds,
        Index.withIds, Index.withIds, Index.withIds, List.filterMap_append, List.flatMap_append]
    · -- New ids are above those of the patches.
      intro i hi
      refine Overlay.find_eq_none fun p hp hEq => ?_
      have hOld := hLt p hp
      rw [UInt32.lt_iff_toNat_lt] at hi
      rw [hEq, UInt32.toNat_add, UInt32.toNat_ofNat_of_lt' hBound,
        Nat.mod_eq_of_lt (by omega)] at hOld
      omega

omit [Platform] in
theorem Segment.rows_congr (s : Segment) {o o' : Overlay}
    (h : ∀ i < s.entry.numDocs, o.find (s.entry.baseDoc + i) = o'.find (s.entry.baseDoc + i)) :
    s.rows o = s.rows o' := by
  unfold rows
  refine List.filterMap_congr fun i hi => ?_
  unfold rowAt Overlay.patched
  rw [h _ (ofNat_lt_of_mem_range hi)]

/-- The overlay that a merge from `S` leaves a segment of `I` with: documents that it moves keep
the patches of the snapshot, and lose those that came later. -/
def mergedOverlay (S I : Index) (xs : List StagedMerge) (s : Segment) : Overlay :=
  if s.entry.segmentId ∈ mergedIds (xs.map StagedMerge.merge) then S.overlay else I.overlay

/-- The rows of the index a merge commits are those of the index it found. -/
theorem rows_splicedIndex (now : Int64) {xs : List StagedMerge} (hS : S.Sound) (hI : I.Sound)
    (hLt : I.PatchesLt) (hEvolves : S.Evolves I) (hShort : ∀ s ∈ S.segments, s.Short)
    (hMerge : Mergeable S I xs) (hRoom : MergeRoom I (xs.map StagedMerge.merge)) :
    ((splicedIndex now I xs hRoom).rows.map Prod.snd).Perm
      (I.segments.flatMap fun s => (s.rows (mergedOverlay S I xs s)).map Prod.snd) := by
  set ids := mergedIds (xs.map StagedMerge.merge) with hIds
  have hSplit : (splicedIndex now I xs hRoom).rows =
      (keptSegments I (xs.map StagedMerge.merge)).flatMap (Segment.rows I.overlay) ++
        (mergedSegments I I.manifest.nextSegmentId
          (UInt32.ofNat (Index.endBound I.manifest.segments)) xs).flatMap
            (Segment.rows I.overlay) := List.flatMap_append
  -- Segments that are no source are as before.
  have hKept : ((keptSegments I (xs.map StagedMerge.merge)).flatMap
      (Segment.rows I.overlay)).map Prod.snd =
        (I.segments.filter fun s => s.entry.segmentId ∉ ids).flatMap fun s =>
          (s.rows (mergedOverlay S I xs s)).map Prod.snd := by
    rw [List.map_flatMap]
    refine List.flatMap_congr fun s hs => ?_
    have hNot : s.entry.segmentId ∉ mergedIds (xs.map StagedMerge.merge) :=
      of_decide_eq_true (List.mem_filter.mp hs).2
    rw [mergedOverlay, if_neg hNot]
  have hMoved : ((I.withIds ids).flatMap fun s => (s.rows S.overlay).map Prod.snd).Perm
      ((I.segments.filter fun s => s.entry.segmentId ∈ ids).flatMap fun s =>
        (s.rows (mergedOverlay S I xs s)).map Prod.snd) := by
    refine ((perm_withIds hI hMerge.disjoint).flatMap_right _).trans (.of_eq ?_)
    refine List.flatMap_congr fun s hs => ?_
    have hMem : s.entry.segmentId ∈ mergedIds (xs.map StagedMerge.merge) :=
      of_decide_eq_true (List.mem_filter.mp hs).2
    rw [mergedOverlay, if_pos hMem]
  rw [hSplit, List.map_append, hKept,
    rows_mergedSegments hS hEvolves hShort hMerge hLt hRoom.fit]
  refine (hMoved.append_left _).trans ?_
  rw [← List.flatMap_append]
  refine List.Perm.flatMap_right _ ?_
  have hAll := List.filter_append_perm (fun s => decide (s.entry.segmentId ∈ ids)) I.segments
  simp only [← decide_not] at hAll
  exact List.perm_append_comm.trans hAll

-- ---------------------------------------------------------------------------
-- Terms over whole runs
-- ---------------------------------------------------------------------------

theorem Segment.Records.short {read : ReadFile} {files : List CrawledFile} {s : Segment}
    (h : s.Records read files) : s.Short := fun t hLong => by
  rw [h.postings t, if_pos hLong]

theorem Tiles.short {read : ReadFile} {base : DocId} {id : UInt32} {files : List CrawledFile}
    (h : Tiles read base id files segs) : ∀ s ∈ segs, s.Short := by
  induction h with
  | nil => simp
  | cons _ _ _ hRecords _ _ _ ih => exact List.forall_mem_cons.mpr ⟨hRecords.short, ih⟩

theorem short_amended {locals : Nat → List DocId} {new : List Segment}
    (hOld : ∀ s ∈ I.segments, s.Short) (hNew : ∀ s ∈ new, s.Short) :
    ∀ s ∈ amendedSegments I locals new, s.Short := by
  intro s hs
  rcases List.mem_append.mp hs with hs | hs
  · obtain ⟨p, hp, rfl⟩ := mem_tombstonedAll.mp hs
    intro t hLong
    rw [Segment.idx_tombstoned]
    exact hOld p.1 (List.fst_mem_of_mem_zipIdx hp) t hLong
  · exact hNew s hs

/-- A prepared merge drops overlong terms. -/
theorem StagedMerge.Prepares.short (hx : x.Prepares S g segs) (id base : UInt32) :
    (x.segment I id base).Short := fun t hLong => by
  rw [StagedMerge.idx_segment, IdxFile.postings_of_write hx.idx t, if_pos hLong]

namespace Operation

/-- What is merged was prepared from some index. -/
def MergesPrepared : Operation → Prop
  | merge _ xs => ∀ x ∈ xs, ∃ S g segs, x.Prepares S g segs
  | _ => True

/-- Within the counters, and only with prepared merges. -/
def Admissible (op : Operation) (prev : Option Index) : Prop :=
  op.Fits prev ∧ op.MergesPrepared

theorem short_mergedSegments {xs : List StagedMerge}
    (hPrepared : ∀ x ∈ xs, ∃ S g segs, x.Prepares S g segs) (id base : UInt32) :
    ∀ s ∈ mergedSegments I id base xs, s.Short := by
  intro s hs
  obtain ⟨x, hx, id', base', rfl, -⟩ := mem_mergedFiles hs
  obtain ⟨S, g, segs, hPrep⟩ := hPrepared x hx
  exact hPrep.short id' base'

/-- Dictionaries without overlong terms stay so. -/
theorem Makes.short {op : Operation} {prev : Option Index} {J : Index} (h : op.Makes prev J)
    (hPrepared : op.MergesPrepared) (hPrev : ∀ K ∈ prev, ∀ s ∈ K.segments, s.Short) :
    ∀ s ∈ J.segments, s.Short := by
  cases h with
  | build hTiles => exact hTiles.short
  | first hTiles => exact hTiles.short
  | update _ hAmends => exact short_amended (hPrev _ rfl) hAmends.tiles.short
  | delete => exact short_amended (hPrev _ rfl) (by simp)
  | merge =>
    intro s hs
    rcases List.mem_append.mp hs with hs | hs
    · exact hPrev _ rfl s (List.mem_filter.mp hs).1
    · exact short_mergedSegments hPrepared _ _ s hs

/-- No dictionary in a run has an overlong term. -/
theorem Run.short {d : Dir} (hRun : Run Admissible d) (hHolds : d.Holds (some I)) :
    ∀ s ∈ I.segments, s.Short := by
  obtain ⟨prev, hPrev, hInv⟩ := @Run.holds _ _
    (fun prev => ∀ K ∈ prev, K.Sound ∧ ∀ s ∈ K.segments, s.Short) (fun _ h => by cases h)
    (fun hInv hOp hCommits => by
      obtain ⟨J, hJ, hSound, hMakes⟩ := hCommits.makes (fun K hK => (hInv K hK).1) hOp.1
      refine ⟨J, hJ, ?_⟩
      rintro _ ⟨⟩
      exact ⟨hSound, hMakes.short hOp.2 fun K hK => (hInv K hK).2⟩) _ hRun
  obtain rfl := hPrev.unique hHolds
  exact (hInv I rfl).2

end Operation

-- ---------------------------------------------------------------------------
-- A merge in a run
-- ---------------------------------------------------------------------------

/-- A merge leaves the documents that it finds, whatever was committed since it was prepared:
none is lost and none comes back, and each keeps its positions. The records are those of the
index found, except that documents it moves have the patches of the snapshot. Without patches
that came in between, nothing changes. -/
theorem merge_keeps_rows {now : Int64} {xs : List StagedMerge} {d₀ d d' : Dir}
    (hRun : Operation.Run Operation.Admissible d₀) (hS : d₀.Holds (some S))
    (hSteps : Operation.Steps Operation.Fits d₀ d) (hI : d.Holds (some I))
    (hPrepared : ∀ x ∈ xs, ∃ segs, x.merge.sourceIds.mapM S.findSegment = some segs ∧
      x.Prepares S x.merge.sourceIds segs)
    (hDisjoint : (mergedIds (xs.map StagedMerge.merge)).Nodup)
    (hFits : (Operation.merge now xs).Fits (some I))
    (hCommits : (Operation.merge now xs).Commits (some I) d d') :
    ∃ J, d'.Holds (some J) ∧
      (J.rows.map Prod.snd).Perm
        (I.segments.flatMap fun s => (s.rows (mergedOverlay S I xs s)).map Prod.snd) ∧
      ((∀ s ∈ I.segments, s.entry.segmentId ∈ mergedIds (xs.map StagedMerge.merge) →
          ∀ i < s.entry.numDocs,
            S.overlay.find (s.entry.baseDoc + i) = I.overlay.find (s.entry.baseDoc + i)) →
        (J.rows.map Prod.snd).Perm (I.rows.map Prod.snd)) := by
  have hRunFits : Operation.Run Operation.Fits d₀ := hRun.mono fun _ _ h => h.1
  have hSoundS := hRunFits.sound hS
  have hRunI := hRunFits.steps hSteps
  have hSoundI := hRunI.sound hI
  obtain ⟨J, hJ, -, hMakes⟩ := hCommits.makes
    (fun K hK => Option.some.inj hK ▸ hSoundI) hFits
  cases hMakes with
  | merge hListed hRoom =>
    have hRows := rows_splicedIndex now hSoundS hSoundI (hRunI.patches_lt hI)
      (hSteps.evolves hS hSoundS hI) (hRun.short hS) ⟨hPrepared, hDisjoint, hListed⟩ hRoom
    refine ⟨_, hJ, hRows, fun hSame => hRows.trans (.of_eq ?_)⟩
    unfold Index.rows
    rw [List.map_flatMap]
    refine List.flatMap_congr fun s hs => ?_
    unfold mergedOverlay
    split
    · rename_i hMem
      exact congrArg (List.map Prod.snd) (s.rows_congr fun i hi => hSame s hs hMem i hi)
    · rfl

-- ---------------------------------------------------------------------------
-- A merge across a rename
-- ---------------------------------------------------------------------------

/-- The merge of a group, when its postings can be encoded. -/
theorem exists_prepares (tag : StagingTag) (g : List UInt32)
    (hTerms : ∀ t, Idx.Encodable none ((remapTerms (oldToNewOf S segs) segs).list t))
    (hLen : (survivors S segs).length < 2 ^ 32) :
    ∃ x : StagedMerge, x.merge.tag = tag ∧ x.Prepares S g segs := by
  have hLists : ∀ e ∈ (Idx.sortedTerms (remapTerms (oldToNewOf S segs) segs)).entries,
      Idx.Encodable none e.2 := by
    intro e he
    have hList := hTerms e.1
    rwa [TermMap.list, Idx.mem_sortedTerms.mp he] at hList
  obtain ⟨⟨idx, counts⟩, hWrite⟩ := Idx.write_isOk hLists
  let records := (survivors S segs).map Prod.snd
  refine ⟨⟨⟨g, segs.map fun s => (s.entry.segmentId, s.entry.delGen), oldToNewOf S segs,
    UInt32.ofNat (survivors S segs).length, tag, (FileData.idx idx).crc, (FileData.idx idx).len,
    counts, (FileData.doc records).crc, (FileData.doc records).len⟩, idx, records, ?_, rfl, rfl,
    ?_, rfl, rfl⟩, rfl, ⟨rfl, rfl, rfl, rfl, hWrite⟩⟩
  · rw [List.length_map]
    exact (UInt32.toNat_ofNat_of_lt' hLen).symm
  · exact (Idx.writeTerms_numTerms (Idx.write_ok hWrite)).symm

/-- A merge of the one segment of a first build. -/
theorem BuiltOne.exists_prepares {s : Segment} {d : Dir} (h : BuiltOne S s d) :
    ∃ x : StagedMerge, x.merge.tag = ⟨0, 0⟩ ∧ x.merge.numDocs.toNat ≤ 1 ∧
      [s.entry.segmentId].mapM S.findSegment = some [s] ∧ x.Prepares S [s.entry.segmentId] [s] := by
  have hMem : s ∈ S.segments := by
    rw [h.build.segments]
    exact List.mem_singleton_self s
  have hFind : S.findSegment s.entry.segmentId = some s := by
    unfold Index.findSegment
    rw [h.build.segments]
    exact List.find?_cons_of_pos (beq_self_eq_true _)
  have hNum : s.entry.numDocs.toNat = 1 := h.build.records.numDocs
  have hSources : SourcesOf S [s.entry.segmentId] [s] :=
    ⟨by simp [hFind], List.nodup_singleton _⟩
  have hMoved : (movedRows S.overlay [s]).length ≤ 1 := by
    unfold movedRows Segment.sourceRows
    rw [List.flatMap_singleton, ← hNum]
    exact (List.length_filterMap_le _ _).trans_eq List.length_range
  have hLen : (survivors S [s]).length ≤ 1 := by
    rw [survivors_eq (by simpa using hMem), List.length_map]
    exact hMoved
  -- A binary file has no postings.
  have hTerms : ∀ t, (remapTerms (oldToNewOf S [s]) [s]).list t = [] := by
    intro t
    have hNone : s.idx.postings t = [] := by
      rw [h.build.records.postings t]
      split
      · rfl
      · rfl
    rw [list_remapTerms (hSources.injective_oldToNew (by omega)) hSources.ids_nodup,
      List.flatMap_singleton, hNone]
    rfl
  obtain ⟨x, hTag, hPrepares⟩ := @Ripindex.exists_prepares _ S [s] ⟨0, 0⟩
    [s.entry.segmentId] (fun t => by rw [hTerms t]; exact ⟨by simp, by simp, by simp, by simp⟩)
    (by omega)
  refine ⟨x, hTag, ?_, hSources.found, hPrepares⟩
  rw [← x.length_records, hPrepares.records, List.length_map]
  exact hLen

theorem mergePlan_result (now : Int64) {xs : List StagedMerge}
    (h : SourcesListed I.manifest (xs.map StagedMerge.merge)) :
    ∃ m retire, (mergePlan now I (xs.map StagedMerge.merge)).result = .ok (some (m, retire)) := by
  simp only [mergePlan, finishAll_of_listed _ _ h]
  exact ⟨_, _, rfl⟩

/-- Staged files do not matter to what a directory holds. -/
theorem holds_stage {d : Dir} (hI : d.Holds (some I)) (x : StagedMerge) :
    ∃ d' : Dir, d'.Holds (some I) ∧ ∀ f ∈ x.files, d'.lookup f.1 = some f.2 := by
  let d' : Dir := (d.insert (.staged x.merge.tag .idx) (.idx x.idx)).insert
    (.staged x.merge.tag .doc) (.doc x.records)
  have hOther : ∀ n : FileName, n.isStaged = false → d'.lookup n = d.lookup n := by
    intro n hn
    have hNe : ∀ part, n ≠ .staged x.merge.tag part := by
      intro part hEq
      rw [hEq] at hn
      cases hn
    rw [Dir.lookup_insert, if_neg (hNe _), Dir.lookup_insert, if_neg (hNe _)]
  refine ⟨d', hI.of_agree (hOther _ rfl) fun n hn => hOther n ?_, ?_⟩
  · by_contra hStaged
    exact Sys.not_mem_referencedFiles_of_staged (by simpa using hStaged) hn
  · intro f hf
    rcases List.mem_pair.mp hf with rfl | rfl
    · rw [Dir.lookup_insert, if_neg (by simp), Dir.lookup_insert, if_pos rfl]
    · rw [Dir.lookup_insert, if_pos rfl]

end Prepared

/-- One file is built, a merge of its segment is prepared from `S`, the file is renamed, and
the merge is committed over the index `I` of the rename. -/
structure RenameRaced [Platform] (S I : Index) (s : Segment) (x : StagedMerge) (d₀ d d' : Dir) :
    Prop where
  built : BuiltOne S s d₀
  found : x.merge.sourceIds.mapM S.findSegment = some [s]
  prepares : x.Prepares S x.merge.sourceIds [s]
  disjoint : (mergedIds ([x].map StagedMerge.merge)).Nodup
  steps : Operation.Steps Operation.Fits d₀ d
  current : d.Holds (some I)
  segments : I.segments = [s]
  rows : (I.rows.map Prod.snd).Perm [rowOf oneWorld.indexRead (oneFile "b")]
  fits : (Operation.merge 0 [x]).Fits (some I)
  commits : (Operation.merge 0 [x]).Commits (some I) d d'

theorem RenameRaced.run [Platform] {S I : Index} {s : Segment} {x : StagedMerge} {d₀ d d' : Dir}
    (h : RenameRaced S I s x d₀ d d') : Operation.Run Operation.Admissible d₀ :=
  h.built.run ⟨h.built.fits, trivial⟩

theorem RenameRaced.prepared [Platform] {S I : Index} {s : Segment} {x : StagedMerge}
    {d₀ d d' : Dir} (h : RenameRaced S I s x d₀ d d') :
    ∀ y ∈ [x], ∃ segs, y.merge.sourceIds.mapM S.findSegment = some segs ∧
      y.Prepares S y.merge.sourceIds segs := by
  intro y hy
  obtain rfl := List.mem_singleton.mp hy
  exact ⟨[s], h.found, h.prepares⟩

theorem exists_renameRaced :
    let _ := Platform.reference
    ∃ S I s x d₀ d d', RenameRaced S I s x d₀ d d' := by
  intro _
  obtain ⟨S, s, d₀, h⟩ := exists_builtOne
  obtain ⟨x, hTag, hSmall, hFind, hPrepares⟩ := h.exists_prepares
  have hIds : x.merge.sourceIds = [s.entry.segmentId] := hPrepares.sourceIds
  have hRunFits : Operation.Run Operation.Fits d₀ := h.run h.fits
  -- The rename is committed, and the merge is still staged.
  obtain ⟨I, retire, hGives, hSegs, hGen⟩ := h.exists_updated
  have hPlan : (Operation.update movedWorld mixedConfig [oneFile "b"]).plan (some S) =
      updatePlan movedWorld mixedConfig S (updateChanges movedWorld S [oneFile "b"]).changes := by
    rw [Operation.plan, h.isEmpty, if_neg Bool.false_ne_true]
  obtain ⟨d₁, hUpdate, hHolds₁⟩ := Operation.commits_of_gives
    (.update movedWorld mixedConfig [oneFile "b"]) h.holds (by simp [Operation.staged])
    (hPlan.symm ▸ hGives)
  obtain ⟨d₂, hHolds₂, hStaged⟩ := holds_stage hHolds₁ x
  have hSteps : Operation.Steps Operation.Fits d₀ d₂ :=
    (Relation.ReflTransGen.single (.commit h.updateFits hUpdate)).tail (.other hHolds₁ hHolds₂)
  have hSound := (hRunFits.steps hSteps).sound hHolds₂
  have hRows := rows_of_gives h.holds (hRunFits.sound h.holds) (hRunFits.patches_lt h.holds)
    (Operation.Fits.hasRoom h.updateFits fun K hK => Option.some.inj hK ▸ hRunFits.sound h.holds)
    h.paths (by simp) h.observed h.noneShadowed hGives
  -- The merge is committed.
  have hNext : I.manifest.nextSegmentId = 1 := by
    obtain ⟨segs, -, hLen, hM, -⟩ := updatePlan_ok hGives.result
    rw [h.changes] at hLen hM
    have hNone : segs.length = 0 := hLen
    rw [hM, updatedManifest, hNone, h.next]
    rfl
  have hEntries : I.manifest.segments = [s.entry] := by
    rw [← I.entries_eq, hSegs]
    rfl
  have hBound : Index.endBound I.manifest.segments = 1 := by
    have hNum : s.entry.numDocs.toNat = 1 := h.build.records.numDocs
    rw [hEntries, Index.endBound_cons, SegmentEntry.endDoc, h.build.baseDoc, hNum]
    rfl
  have hFits : (Operation.merge 0 [x]).Fits (some I) := by
    refine ⟨by simp, ?_, by rw [hGen]; decide⟩
    rw [hBound, hNext]
    exact ⟨by decide, by decide, by show 1 + x.merge.numDocs.toNat ≤ 2 ^ 32; omega⟩
  have hListed : SourcesListed I.manifest ([x].map StagedMerge.merge) := by
    intro p hp
    obtain rfl := List.mem_singleton.mp hp
    unfold missingSource
    rw [hIds, hEntries]
    simp
  obtain ⟨m, retired, hResult⟩ := mergePlan_result 0 hListed
  obtain ⟨hTags, hRoom⟩ := Operation.Fits.hasRoom hFits
    fun K hK => Option.some.inj hK ▸ hSound
  obtain ⟨-, hMerged⟩ := mergePlan_gives hSound hResult hTags hRoom
  obtain ⟨d₃, hCommits, -⟩ := Operation.commits_of_gives (.merge 0 [x]) hHolds₂
    (by simpa [Operation.staged] using hStaged) hMerged
  exact ⟨S, I, s, x, d₀, d₂, d₃, h, hIds ▸ hFind, hIds ▸ hPrepares, by simp [mergedIds, hIds],
    hSteps, hHolds₂, hSegs, hRows, hFits, hCommits⟩

/-- A rename between the two phases of a merge is lost: the document has its old path again. -/
theorem merge_keeps_rows_renamed : ∃ _ : Platform, ∃ I J : Index, ∃ d d' : Dir,
    d.Holds (some I) ∧ d'.Holds (some J) ∧
      (I.rows.map Prod.snd).Perm [rowOf oneWorld.indexRead (oneFile "b")] ∧
      (J.rows.map Prod.snd).Perm [rowOf oneWorld.indexRead (oneFile "a")] := by
  refine ⟨Platform.reference, ?_⟩
  let _ := Platform.reference
  obtain ⟨S, I, s, x, d₀, d, d', h⟩ := exists_renameRaced
  obtain ⟨J, hJ, hPerm, -⟩ := merge_keeps_rows h.run h.built.holds h.steps h.current h.prepared
    h.disjoint h.fits h.commits
  refine ⟨I, J, d, d', h.current, hJ, h.rows, hPerm.trans (.of_eq ?_)⟩
  have hOverlay : mergedOverlay S I [x] s = S.overlay :=
    if_pos (by simp [mergedIds, ← map_segmentId_of_mapM h.found])
  rw [h.segments, List.flatMap_singleton, hOverlay]
  have hRowsS : (s.rows S.overlay).map Prod.snd = S.rows.map Prod.snd := by
    rw [Index.rows, h.built.build.segments, List.flatMap_singleton]
  rw [hRowsS, h.built.rows]
  rfl

end Ripindex
