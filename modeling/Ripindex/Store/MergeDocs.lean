import Ripindex.Store.Limits
import Ripindex.Store.Passes

/-!
# Where documents go in a merge

`prepare_merge` numbers the live documents of its sources anew (`old_to_new`), and
`commit_merges` puts the merged segments behind all others. `MovedTo` relates the ids before and
after. Deletions that were committed in between are carried into the merged segments; patches
of the overlay are not, a moved document has those of the snapshot.

## Results

* `Merging.rowAt_segmentAt` — the row of a document under its new id;
* `merge_corresponds`       — live documents before and after correspond one to one;
* `merge_keeps_files_iff`   — paths, inodes, times and sizes stay exactly when no moved document
  was given others since the snapshot.
-/

namespace Ripindex

section Places

variable [Platform]

/-- The first document of the `k`th merged segment. -/
def mergedBase (I : Index) (xs : List StagedMerge) (k : Nat) : DocId :=
  UInt32.ofNat (Index.endBound I.manifest.segments +
    ((xs.take k).map fun x => x.merge.numDocs.toNat).sum)

/-- Where a document of an index is after merges: one of a source has the new id that
`old_to_new` gives it, the others stay. -/
inductive MovedTo (I : Index) (xs : List StagedMerge) : DocId → DocId → Prop
  | kept {s : Segment} {i : DocId} (hs : s ∈ I.segments) (hi : i < s.entry.numDocs)
      (hKept : s.entry.segmentId ∉ mergedIds (xs.map StagedMerge.merge)) :
      MovedTo I xs (s.entry.baseDoc + i) (s.entry.baseDoc + i)
  | moved {s : Segment} {i n : DocId} {k : Nat} (hk : k < xs.length) (hs : s ∈ I.segments)
      (hi : i < s.entry.numDocs)
      (hNew : xs[k].merge.oldToNew.lookup (s.entry.segmentId, i) = some n) :
      MovedTo I xs (s.entry.baseDoc + i) (mergedBase I xs k + n)

/-- The `k`th merged segment. -/
theorem getElem?_mergedSegments (cur : Index) (id : UInt32) (bound : Nat)
    (xs : List StagedMerge) (k : Nat) :
    (mergedSegments cur id (UInt32.ofNat bound) xs)[k]? = xs[k]?.map fun x =>
      x.segment cur (id + UInt32.ofNat k)
        (UInt32.ofNat (bound + ((xs.take k).map fun x => x.merge.numDocs.toNat).sum)) := by
  induction xs generalizing id bound k with
  | nil => rfl
  | cons x xs ih =>
    cases k with
    | zero =>
      rw [mergedSegments, List.getElem?_cons_zero, List.getElem?_cons_zero]
      simp
    | succ k =>
      have hNum : UInt32.ofNat bound + x.merge.numDocs =
          UInt32.ofNat (bound + x.merge.numDocs.toNat) := by
        rw [UInt32.ofNat_add, UInt32.ofNat_toNat]
      have hId : id + 1 + UInt32.ofNat k = id + UInt32.ofNat (k + 1) := by
        rw [UInt32.ofNat_add, UInt32.add_assoc, UInt32.add_comm 1]
        rfl
      rw [mergedSegments, hNum, List.getElem?_cons_succ, List.getElem?_cons_succ, ih, hId,
        List.take_succ_cons, List.map_cons, List.sum_cons, Nat.add_assoc]

/-- With room the base of a merged segment is what the counter says, and its documents follow. -/
theorem MergesFit.base_lt {bound : Nat} {id : UInt32} {xs : List StagedMerge}
    (h : MergesFit bound id (xs.map StagedMerge.merge)) {k : Nat} (hk : k < xs.length) :
    bound + ((xs.take k).map fun x => x.merge.numDocs.toNat).sum < 2 ^ 32 ∧
      bound + ((xs.take k).map fun x => x.merge.numDocs.toNat).sum +
        xs[k].merge.numDocs.toNat ≤ 2 ^ 32 := by
  induction xs generalizing bound id k with
  | nil => cases hk
  | cons x xs ih =>
    have hBound := h.bound_le
    obtain ⟨hLt, -, hRest⟩ := h
    cases k with
    | zero =>
      simp only [List.map_cons, List.sum_cons] at hBound
      simp only [List.take_zero, List.map_nil, List.sum_nil, List.getElem_cons_zero]
      omega
    | succ k =>
      obtain ⟨hBase, hEnd⟩ := ih hRest (Nat.lt_of_succ_lt_succ hk)
      rw [List.take_succ_cons, List.map_cons, List.sum_cons, List.getElem_cons_succ]
      omega

end Places

section Moved

variable [Platform] {S I : Index} {x : StagedMerge} {g : List UInt32} {segs : List Segment}

/-- The new ids are the places of the documents that are moved. -/
theorem StagedMerge.Prepares.lookup_iff (hx : x.Prepares S g segs) (h : SourcesOf S g segs)
    {d : SourceDoc} {n : DocId} : x.merge.oldToNew.lookup d = some n ↔
      ∃ hn : n.toNat < (movedRows S.overlay segs).length,
        (movedRows S.overlay segs)[n.toNat].1 = d := by
  rw [hx.oldToNew]
  constructor
  · intro hNew
    have hLt : n.toNat < (movedRows S.overlay segs).length := by
      rw [h.oldToNew, lookup_renumber (nodup_movedRows _ h.ids_nodup)] at hNew
      split_ifs at hNew with hMem
      obtain rfl := Option.some.inj hNew
      have hPlace := List.idxOf_lt_length_of_mem hMem
      rw [List.length_map] at hPlace
      have hLen := hx.length_movedRows h ▸ x.merge.numDocs.toNat_lt
      rwa [UInt32.toNat_ofNat_of_lt' (Nat.lt_trans hPlace hLen)]
    refine ⟨hLt, (hx.lookup_oldToNew h hLt).mp ?_⟩
    rwa [UInt32.ofNat_toNat]
  · rintro ⟨hLt, hEq⟩
    have hNew := (hx.lookup_oldToNew h hLt).mpr hEq
    rwa [UInt32.ofNat_toNat] at hNew

/-- Merges prepared from `S` that are committed over a later index `I`. -/
structure Merging (S I : Index) (xs : List StagedMerge) : Prop extends Mergeable S I xs where
  snapshot : S.Sound
  sound : I.Sound
  patchesLt : I.PatchesLt
  evolves : S.Evolves I
  short : ∀ s ∈ S.segments, s.Short
  room : MergeRoom I (xs.map StagedMerge.merge)

namespace Merging

variable {xs : List StagedMerge} {k : Nat}

/-- The `k`th merged segment. -/
def segmentAt (I : Index) (xs : List StagedMerge) (k : Nat) (hk : k < xs.length) : Segment :=
  xs[k].segment I (I.manifest.nextSegmentId + UInt32.ofNat k) (mergedBase I xs k)

theorem sources (h : Merging S I xs) (hk : k < xs.length) :
    ∃ segs cur, xs[k].Prepares S xs[k].merge.sourceIds segs ∧
      Sources S I xs[k].merge.sourceIds segs cur := by
  obtain ⟨segs, hSegs, hPrepares⟩ := h.prepared xs[k] (List.getElem_mem hk)
  have hMem : xs[k].merge ∈ xs.map StagedMerge.merge :=
    List.mem_map_of_mem (List.getElem_mem hk)
  have hNodup : xs[k].merge.sourceIds.Nodup :=
    (List.nodup_flatMap.mp h.disjoint).1 _ hMem
  have hSources : SourcesOf S xs[k].merge.sourceIds segs := ⟨hSegs, hNodup⟩
  exact ⟨segs, _, hPrepares, hSources.later h.snapshot h.evolves
    (mapM_of_listed (h.listed _ hMem))⟩

/-- No patch is for a new id. -/
theorem find_new (h : Merging S I xs) (hk : k < xs.length) {n : DocId}
    (hn : n < xs[k].merge.numDocs) : I.overlay.find (mergedBase I xs k + n) = none := by
  obtain ⟨hBase, hEnd⟩ := h.room.fit.base_lt hk
  refine Overlay.find_eq_none fun p hp hEq => ?_
  have hOld := h.patchesLt p hp
  rw [UInt32.lt_iff_toNat_lt] at hn
  rw [hEq, mergedBase, UInt32.toNat_add, UInt32.toNat_ofNat_of_lt' hBase,
    Nat.mod_eq_of_lt (by omega)] at hOld
  omega

/-- The row of a document under its new id: its row before, with the patches of the snapshot. -/
theorem rowAt_segmentAt (h : Merging S I xs) (hk : k < xs.length) {s : Segment}
    (hs : s ∈ I.segments) {i n : DocId}
    (hNew : xs[k].merge.oldToNew.lookup (s.entry.segmentId, i) = some n) :
    n < xs[k].merge.numDocs ∧ (segmentAt I xs k hk).rowAt I.overlay n = s.rowAt S.overlay i := by
  obtain ⟨segs, cur, hPrepares, hSources⟩ := h.sources hk
  obtain ⟨hLt, hPlace⟩ := (hPrepares.lookup_iff hSources.toSourcesOf).mp hNew
  have hNum : n < xs[k].merge.numDocs := by
    rw [UInt32.lt_iff_toNat_lt, ← hPrepares.length_movedRows hSources.toSourcesOf]
    exact hLt
  refine ⟨hNum, ?_⟩
  obtain ⟨s', hs', hRow⟩ := List.mem_flatMap.mp (List.getElem_mem hLt)
  obtain ⟨j, hj, hKey, hRow⟩ := Segment.mem_sourceRows.mp hRow
  obtain ⟨hId, rfl⟩ := Prod.mk.inj (hPlace.symm.trans hKey)
  obtain ⟨t, -, hCarried, hFind⟩ := hSources.exists_later hs'
  obtain rfl : t = s := h.sound.eq_of_segmentId (List.mem_of_find?_eq_some hFind) hs
    ((segmentId_of_findSegment hFind).trans hId.symm)
  have hNewRow := hPrepares.rowAt_segment hSources
    (fun u hu => h.short u (hSources.mem hu)) (I.manifest.nextSegmentId + UInt32.ofNat k)
    (mergedBase I xs k) (o := I.overlay) hLt (by
      rw [UInt32.ofNat_toNat]
      exact h.find_new hk hNum)
  rw [UInt32.ofNat_toNat] at hNewRow
  show (xs[k].segment I _ _).rowAt I.overlay n = _
  rw [hNewRow, hCarried.rowAt_eq, Index.surviving, hPlace, Index.deletedAt, hId, hFind, hRow]
  rfl

theorem segmentAt_mem (h : Merging S I xs) (now : Int64) (hk : k < xs.length) :
    segmentAt I xs k hk ∈ (splicedIndex now I xs h.room).segments := by
  refine List.mem_append_right _ (List.mem_of_getElem? (i := k) ?_)
  rw [getElem?_mergedSegments, List.getElem?_eq_getElem hk]
  rfl

/-- The segments after the merges. -/
theorem mem_segments (h : Merging S I xs) {now : Int64} {t : Segment}
    (ht : t ∈ (splicedIndex now I xs h.room).segments) :
    (t ∈ I.segments ∧ t.entry.segmentId ∉ mergedIds (xs.map StagedMerge.merge)) ∨
      ∃ k, ∃ hk : k < xs.length, t = segmentAt I xs k hk := by
  rcases List.mem_append.mp ht with hKept | hMerged
  · obtain ⟨hMem, hNot⟩ := List.mem_filter.mp hKept
    exact .inl ⟨hMem, of_decide_eq_true hNot⟩
  · obtain ⟨k, hPlace⟩ := List.getElem?_of_mem hMerged
    rw [getElem?_mergedSegments] at hPlace
    obtain ⟨x, hx, rfl⟩ := Option.map_eq_some_iff.mp hPlace
    obtain ⟨hk, rfl⟩ := List.getElem?_eq_some_iff.mp hx
    exact .inr ⟨k, hk, rfl⟩

theorem mem_kept (h : Merging S I xs) (now : Int64) {s : Segment} (hs : s ∈ I.segments)
    (hKept : s.entry.segmentId ∉ mergedIds (xs.map StagedMerge.merge)) :
    s ∈ (splicedIndex now I xs h.room).segments :=
  List.mem_append_left _ (List.mem_filter.mpr ⟨hs, decide_eq_true hKept⟩)

/-- A live document of a source has a new id. -/
theorem exists_new (h : Merging S I xs) {s : Segment} (hs : s ∈ I.segments) {i : DocId}
    (hMerged : s.entry.segmentId ∈ mergedIds (xs.map StagedMerge.merge)) {o : Overlay}
    (hLive : (s.rowAt o i).isSome) (hi : i < s.entry.numDocs) :
    ∃ k, ∃ hk : k < xs.length, ∃ n,
      xs[k].merge.oldToNew.lookup (s.entry.segmentId, i) = some n := by
  obtain ⟨p, hp, hSource⟩ := List.mem_flatMap.mp hMerged
  obtain ⟨x, hx, rfl⟩ := List.mem_map.mp hp
  obtain ⟨k, hk, rfl⟩ := List.getElem_of_mem hx
  obtain ⟨segs, cur, hPrepares, hSources⟩ := h.sources hk
  rw [← map_segmentId_of_mapM hSources.found] at hSource
  obtain ⟨s', hs', hId⟩ := List.mem_map.mp hSource
  obtain ⟨t, -, hCarried, hFind⟩ := hSources.exists_later hs'
  obtain rfl : t = s := h.sound.eq_of_segmentId (List.mem_of_find?_eq_some hFind) hs
    ((segmentId_of_findSegment hFind).trans hId)
  rw [hCarried.rowAt_eq] at hLive
  have hOld : (s'.rowAt S.overlay i).isSome := by
    split_ifs at hLive with hDel
    · cases hLive
    · simpa [Segment.rowAt] using hLive
  obtain ⟨r, hRow⟩ := Option.isSome_iff_exists.mp hOld
  have hMem : ((s'.entry.segmentId, i), r) ∈ movedRows S.overlay segs :=
    List.mem_flatMap.mpr ⟨s', hs', Segment.mem_sourceRows.mpr
      ⟨i, hCarried.numDocs ▸ hi, rfl, hRow⟩⟩
  obtain ⟨j, hj, hPlace⟩ := List.getElem_of_mem hMem
  refine ⟨k, hk, UInt32.ofNat j, ?_⟩
  rw [hPrepares.oldToNew, hPrepares.lookup_oldToNew hSources.toSourcesOf hj, hPlace, hId]

/-- Every document of a merged segment is one of a source. -/
theorem exists_old (h : Merging S I xs) (hk : k < xs.length) {n : DocId}
    (hn : n < xs[k].merge.numDocs) : ∃ s ∈ I.segments, ∃ i < s.entry.numDocs,
      xs[k].merge.oldToNew.lookup (s.entry.segmentId, i) = some n := by
  obtain ⟨segs, cur, hPrepares, hSources⟩ := h.sources hk
  have hLt : n.toNat < (movedRows S.overlay segs).length := by
    rw [hPrepares.length_movedRows hSources.toSourcesOf]
    exact UInt32.lt_iff_toNat_lt.mp hn
  obtain ⟨s', hs', hRow⟩ := List.mem_flatMap.mp (List.getElem_mem hLt)
  obtain ⟨i, hi, hKey, -⟩ := Segment.mem_sourceRows.mp hRow
  obtain ⟨t, -, hCarried, hFind⟩ := hSources.exists_later hs'
  refine ⟨t, List.mem_of_find?_eq_some hFind, i, hCarried.numDocs.symm ▸ hi, ?_⟩
  rw [hPrepares.lookup_iff hSources.toSourcesOf]
  exact ⟨hLt, by rw [hKey, segmentId_of_findSegment hFind]⟩

/-- A source is one of one merge. -/
theorem source_unique (h : Merging S I xs) {k l : Nat} (hk : k < xs.length) (hl : l < xs.length)
    {id : UInt32} (hIdK : id ∈ xs[k].merge.sourceIds) (hIdL : id ∈ xs[l].merge.sourceIds) :
    k = l := by
  have hPairs := (List.nodup_flatMap.mp h.disjoint).2
  rw [List.pairwise_map, List.pairwise_iff_getElem] at hPairs
  by_contra hNe
  rcases Nat.lt_or_gt_of_ne hNe with hLt | hLt
  · exact hPairs k l hk hl hLt hIdK hIdL
  · exact hPairs l k hl hk hLt hIdL hIdK

theorem mem_sourceIds (h : Merging S I xs) (hk : k < xs.length) {d : SourceDoc} {n : DocId}
    (hNew : xs[k].merge.oldToNew.lookup d = some n) : d.1 ∈ xs[k].merge.sourceIds := by
  obtain ⟨segs, cur, hPrepares, hSources⟩ := h.sources hk
  obtain ⟨hLt, rfl⟩ := (hPrepares.lookup_iff hSources.toSourcesOf).mp hNew
  obtain ⟨s, hs, hRow⟩ := List.mem_flatMap.mp (List.getElem_mem hLt)
  obtain ⟨i, -, hKey, -⟩ := Segment.mem_sourceRows.mp hRow
  rw [hKey, ← map_segmentId_of_mapM hSources.found]
  exact List.mem_map_of_mem hs

theorem mem_mergedIds (hk : k < xs.length) {id : UInt32} (h : id ∈ xs[k].merge.sourceIds) :
    id ∈ mergedIds (xs.map StagedMerge.merge) :=
  List.mem_flatMap.mpr ⟨_, List.mem_map_of_mem (List.getElem_mem hk), h⟩

theorem segmentId_segmentAt (hk : k < xs.length) : (segmentAt I xs k hk).entry.segmentId =
    I.manifest.nextSegmentId + UInt32.ofNat k := StagedMerge.segmentId_segment ..

theorem mem_of_segmentAt (h : Merging S I xs) {l : Nat} (hk : k < xs.length) (hl : l < xs.length)
    (hEq : segmentAt I xs k hk = segmentAt I xs l hl) : k = l := by
  have hIds := congrArg (fun s : Segment => s.entry.segmentId) hEq
  have hFit := h.room.fit.id_lt
  rw [List.length_map] at hFit
  simp only [segmentId_segmentAt] at hIds
  have hNat := congrArg UInt32.toNat hIds
  rw [toNat_add_ofNat (by omega), toNat_add_ofNat (by omega)] at hNat
  omega

/-- A document has one new id. -/
theorem new_unique (h : Merging S I xs) {id a b : DocId} (hA : MovedTo I xs id a)
    (hB : MovedTo I xs id b) : a = b := by
  cases hA with
  | @kept s i hs hi hKept =>
    generalize hId : s.entry.baseDoc + i = id at hB
    cases hB with
    | kept => rfl
    | @moved t j n l hl ht hj hNew =>
      obtain ⟨rfl, rfl⟩ := Index.global_inj hs ht hi hj hId
      exact absurd (mem_mergedIds hl (h.mem_sourceIds hl hNew)) hKept
  | @moved s i m k hk hs hi hNew =>
    generalize hId : s.entry.baseDoc + i = id at hB
    cases hB with
    | @kept t j ht hj hKept =>
      obtain ⟨rfl, rfl⟩ := Index.global_inj hs ht hi hj hId
      exact absurd (mem_mergedIds hk (h.mem_sourceIds hk hNew)) hKept
    | @moved t j n l hl ht hj hNew' =>
      obtain ⟨rfl, rfl⟩ := Index.global_inj hs ht hi hj hId
      obtain rfl := h.source_unique hk hl (h.mem_sourceIds hk hNew) (h.mem_sourceIds hl hNew')
      rw [Option.some.inj (hNew.symm.trans hNew')]

/-- An id is the new one of one document. -/
theorem old_unique (h : Merging S I xs) {a b id : DocId} (hA : MovedTo I xs a id)
    (hB : MovedTo I xs b id) : a = b := by
  -- A document of a merged segment is not one of a segment that stays.
  have hApart : ∀ {s : Segment} {i n : DocId} {k : Nat} (hk : k < xs.length), s ∈ I.segments →
      i < s.entry.numDocs → s.entry.segmentId ∉ mergedIds (xs.map StagedMerge.merge) →
        n < xs[k].merge.numDocs → s.entry.baseDoc + i ≠ mergedBase I xs k + n := by
    intro s i n k hk hs hi hKept hn hEq
    obtain ⟨hSame, -⟩ := Index.global_inj (h.mem_kept 0 hs hKept)
      (h.segmentAt_mem 0 hk) hi (j := n) (by simpa [segmentAt] using hn)
        (by simpa [segmentAt] using hEq)
    have hOld := I.segmentId_lt hs
    have hNew := nextSegmentId_le_merged h.room (s := segmentAt I xs k hk)
      (List.mem_of_getElem? (i := k) (by
        rw [getElem?_mergedSegments, List.getElem?_eq_getElem hk]
        rfl))
    rw [hSame] at hOld
    exact UInt32.not_lt.mpr hNew hOld
  cases hA with
  | @kept s i hs hi hKept =>
    generalize hId : s.entry.baseDoc + i = id at hB
    cases hB with
    | kept => rfl
    | @moved t j n l hl ht hj hNew =>
      exact absurd hId (hApart hl hs hi hKept (h.rowAt_segmentAt hl ht hNew).1)
  | @moved s i m k hk hs hi hNew =>
    generalize hId : mergedBase I xs k + m = id at hB
    cases hB with
    | @kept t j ht hj hKept =>
      exact absurd hId.symm (hApart hk ht hj hKept (h.rowAt_segmentAt hk hs hNew).1)
    | @moved t j n l hl ht hj hNew' =>
      obtain ⟨hSame, rfl⟩ := Index.global_inj (h.segmentAt_mem 0 hk)
        (h.segmentAt_mem 0 hl) (i := m) (j := n)
          (by simpa [segmentAt] using (h.rowAt_segmentAt hk hs hNew).1)
          (by simpa [segmentAt] using (h.rowAt_segmentAt hl ht hNew').1)
          (by simpa [segmentAt] using hId)
      obtain rfl := h.mem_of_segmentAt hk hl hSame
      obtain ⟨segs, cur, hPrepares, hSources⟩ := h.sources hk
      obtain ⟨_, hPlace⟩ := (hPrepares.lookup_iff hSources.toSourcesOf).mp hNew
      obtain ⟨_, hPlace'⟩ := (hPrepares.lookup_iff hSources.toSourcesOf).mp hNew'
      obtain ⟨hSeg, rfl⟩ := Prod.mk.inj (hPlace.symm.trans hPlace')
      rw [h.sound.eq_of_segmentId hs ht hSeg]

/-- A document under its new id has its row, with the patches of the snapshot if it was moved. -/
theorem row_of_movedTo (h : Merging S I xs) (now : Int64) {id id' : DocId}
    (hMoved : MovedTo I xs id id') : ∃ s ∈ I.segments, ∃ i < s.entry.numDocs,
      id = s.entry.baseDoc + i ∧ ∃ t ∈ (splicedIndex now I xs h.room).segments,
        ∃ n < t.entry.numDocs, id' = t.entry.baseDoc + n ∧
          t.rowAt I.overlay n = s.rowAt (mergedOverlay S I xs s) i := by
  cases hMoved with
  | @kept s i hs hi hKept =>
    refine ⟨s, hs, i, hi, rfl, s, h.mem_kept now hs hKept, i, hi, rfl, ?_⟩
    rw [mergedOverlay, if_neg hKept]
  | @moved s i n k hk hs hi hNew =>
    obtain ⟨hn, hRow⟩ := h.rowAt_segmentAt hk hs hNew
    refine ⟨s, hs, i, hi, rfl, segmentAt I xs k hk, h.segmentAt_mem now hk, n, ?_, ?_, ?_⟩
    · simpa [segmentAt] using hn
    · simp [segmentAt]
    · rw [hRow, mergedOverlay, if_pos (mem_mergedIds hk (h.mem_sourceIds hk hNew))]

/-- Every live document has a new id. -/
theorem exists_movedTo (h : Merging S I xs) {e : DocId × DocRow} (he : e ∈ I.rows) :
    ∃ id', MovedTo I xs e.1 id' := by
  obtain ⟨s, hs, i, hi, hId, hRow⟩ := Index.mem_rows.mp he
  rw [hId]
  by_cases hMerged : s.entry.segmentId ∈ mergedIds (xs.map StagedMerge.merge)
  · obtain ⟨k, hk, n, hNew⟩ := h.exists_new hs hMerged (o := I.overlay)
      (by rw [hRow]; rfl) hi
    exact ⟨_, .moved hk hs hi hNew⟩
  · exact ⟨_, .kept hs hi hMerged⟩

/-- Every document afterwards is one from before. -/
theorem exists_movedFrom (h : Merging S I xs) {now : Int64} {t : Segment}
    (ht : t ∈ (splicedIndex now I xs h.room).segments) {n : DocId} (hn : n < t.entry.numDocs) :
    ∃ id, MovedTo I xs id (t.entry.baseDoc + n) := by
  rcases h.mem_segments ht with ⟨hOld, hKept⟩ | ⟨k, hk, rfl⟩
  · exact ⟨_, .kept hOld hn hKept⟩
  · have hNum : n < xs[k].merge.numDocs := by simpa [segmentAt] using hn
    obtain ⟨s, hs, i, hi, hNew⟩ := h.exists_old hk hNum
    have hBase : (segmentAt I xs k hk).entry.baseDoc = mergedBase I xs k := by simp [segmentAt]
    rw [hBase]
    exact ⟨_, .moved hk hs hi hNew⟩

end Merging

-- ---------------------------------------------------------------------------
-- One to one
-- ---------------------------------------------------------------------------

/-- Two records say the same of the file. -/
structure DocMeta.SameFile (m m' : DocMeta) : Prop where
  path : m'.path = m.path
  inode : m'.inode = m.inode
  mtime : m'.mtime = m.mtime
  size : m'.size = m.size

/-- Two rows say the same of the contents. -/
structure DocRow.SameContent (r r' : DocRow) : Prop where
  len : r'.record.len = r.record.len
  status : r'.record.status = r.record.status
  contentHash : r'.record.contentHash = r.record.contentHash
  positions : r'.positions = r.positions

/-- The live documents before and after merges correspond one to one. -/
structure Corresponds (I J : Index) (xs : List StagedMerge) : Prop where
  new_unique : ∀ id a b, MovedTo I xs id a → MovedTo I xs id b → a = b
  old_unique : ∀ a b id, MovedTo I xs a id → MovedTo I xs b id → a = b
  goes : ∀ e ∈ I.rows, ∃ e' ∈ J.rows, MovedTo I xs e.1 e'.1 ∧ e.2.SameContent e'.2
  comes : ∀ e' ∈ J.rows, ∃ e ∈ I.rows, MovedTo I xs e.1 e'.1
  live : ∀ id id', MovedTo I xs id id' → (J.doc id').isSome = (I.doc id).isSome
  stays : ∀ s ∈ I.segments, s.entry.segmentId ∉ mergedIds (xs.map StagedMerge.merge) →
    ∀ e ∈ s.rows I.overlay, e ∈ J.rows

omit [Platform] in
/-- The row of a document with a record. -/
theorem Segment.rowAt_of_docMeta {s : Segment} {i : DocId} {m : DocMeta}
    (h : s.docMeta i = some m) (o : Overlay) : s.rowAt o i =
      some ⟨o.patched (s.entry.baseDoc + i) m, fun t => s.idx.positions t i⟩ := by
  rw [rowAt, h]
  rfl

omit [Platform] in
theorem DocRow.sameContent_of_rowAt {s : Segment} {o o' : Overlay} {i : DocId} {r r' : DocRow}
    (h : s.rowAt o i = some r) (h' : s.rowAt o' i = some r') : r.SameContent r' := by
  obtain ⟨m, hMeta, rfl⟩ := Option.map_eq_some_iff.mp h
  obtain ⟨m', hMeta', rfl⟩ := Option.map_eq_some_iff.mp h'
  obtain rfl := Option.some.inj (hMeta.symm.trans hMeta')
  have hSame : ∀ o : Overlay, (o.patched (s.entry.baseDoc + i) m).len = m.len ∧
      (o.patched (s.entry.baseDoc + i) m).status = m.status ∧
      (o.patched (s.entry.baseDoc + i) m).contentHash = m.contentHash := by
    intro o
    unfold Overlay.patched
    rcases o.find (s.entry.baseDoc + i) with _ | p
    · exact ⟨rfl, rfl, rfl⟩
    · exact ⟨rfl, rfl, rfl⟩
  obtain ⟨hLen, hStatus, hHash⟩ := hSame o
  obtain ⟨hLen', hStatus', hHash'⟩ := hSame o'
  exact ⟨hLen'.trans hLen.symm, hStatus'.trans hStatus.symm, hHash'.trans hHash.symm, rfl⟩

/-- The row of a live document afterwards. -/
theorem Merging.exists_row {xs : List StagedMerge} (h : Merging S I xs) (now : Int64)
    {e : DocId × DocRow} (he : e ∈ I.rows) :
    ∃ e' ∈ (splicedIndex now I xs h.room).rows, MovedTo I xs e.1 e'.1 ∧
      ∃ s ∈ I.segments, ∃ i < s.entry.numDocs, e.1 = s.entry.baseDoc + i ∧
        s.rowAt I.overlay i = some e.2 ∧ s.rowAt (mergedOverlay S I xs s) i = some e'.2 := by
  obtain ⟨id', hMoved⟩ := h.exists_movedTo he
  obtain ⟨s, hs, i, hi, hId, t, ht, n, hn, rfl, hRow⟩ := h.row_of_movedTo now hMoved
  obtain ⟨s', hs', i', hi', hId', hOld⟩ := Index.mem_rows.mp he
  obtain ⟨rfl, rfl⟩ := Index.global_inj hs' hs hi' hi (hId'.symm.trans hId)
  obtain ⟨m, hMeta, hEq⟩ := Option.map_eq_some_iff.mp hOld
  have hNew := Segment.rowAt_of_docMeta hMeta (mergedOverlay S I xs s')
  exact ⟨(t.entry.baseDoc + n, _), Index.mem_rows.mpr ⟨t, ht, n, hn, rfl, hRow.trans hNew⟩,
    hMoved, s', hs', i', hi', hId, hOld, hNew⟩

theorem Merging.corresponds {xs : List StagedMerge} (h : Merging S I xs) (now : Int64) :
    Corresponds I (splicedIndex now I xs h.room) xs where
  new_unique := fun _ _ _ => h.new_unique
  old_unique := fun _ _ _ => h.old_unique
  goes := by
    intro e he
    obtain ⟨e', he', hMoved, s, -, i, -, -, hOld, hNew⟩ := h.exists_row now he
    exact ⟨e', he', hMoved, DocRow.sameContent_of_rowAt hOld hNew⟩
  comes := by
    intro e' he'
    obtain ⟨t, ht, n, hn, hId, hRow⟩ := Index.mem_rows.mp he'
    obtain ⟨id, hMoved⟩ := h.exists_movedFrom ht hn
    obtain ⟨s, hs, i, hi, rfl, t', ht', n', hn', hEq, hSame⟩ := h.row_of_movedTo now hMoved
    obtain ⟨rfl, rfl⟩ := Index.global_inj ht ht' hn hn' hEq
    obtain ⟨m, hMeta, -⟩ := Option.map_eq_some_iff.mp (hSame.symm.trans hRow)
    rw [hId]
    exact ⟨(s.entry.baseDoc + i, _), Index.mem_rows.mpr
      ⟨s, hs, i, hi, rfl, Segment.rowAt_of_docMeta hMeta _⟩, hMoved⟩
  live := by
    intro id id' hMoved
    obtain ⟨s, hs, i, hi, rfl, t, ht, n, hn, rfl, hRow⟩ := h.row_of_movedTo now hMoved
    rw [Index.doc_global ht hn, Index.doc_global hs hi]
    show ((t.rowAt I.overlay n).map _).isSome = _
    rw [hRow, Option.isSome_map, Option.isSome_map, Segment.rowAt, Segment.rowAt,
      Option.isSome_map, Option.isSome_map]
  stays := by
    intro s hs hKept e he
    obtain ⟨i, hi, hId, hRow⟩ := Segment.mem_rows.mp he
    exact Index.mem_rows.mpr ⟨s, h.mem_kept now hs hKept, i, hi, hId, hRow⟩

-- ---------------------------------------------------------------------------
-- A merge in a run
-- ---------------------------------------------------------------------------

/-- Merges are prepared from `S` in a run that holds it, and committed where the run has led to
`I`. -/
structure MergeRace (now : Int64) (S I : Index) (xs : List StagedMerge) (d₀ d d' : Dir) :
    Prop where
  run : Operation.Run Operation.Admissible d₀
  snapshot : d₀.Holds (some S)
  steps : Operation.Steps Operation.Fits d₀ d
  current : d.Holds (some I)
  prepared : ∀ x ∈ xs, ∃ segs, x.merge.sourceIds.mapM S.findSegment = some segs ∧
    x.Prepares S x.merge.sourceIds segs
  disjoint : (mergedIds (xs.map StagedMerge.merge)).Nodup
  fits : (Operation.merge now xs).Fits (some I)
  commits : (Operation.merge now xs).Commits (some I) d d'

section Run

variable {now : Int64} {xs : List StagedMerge} {d₀ d d' : Dir}

theorem MergeRace.exists_merging (h : MergeRace now S I xs d₀ d d') :
    ∃ hM : Merging S I xs, d'.Holds (some (splicedIndex now I xs hM.room)) := by
  have hFits : Operation.Run Operation.Fits d₀ := h.run.mono fun _ _ hOp => hOp.1
  have hSoundS := hFits.sound h.snapshot
  have hRunI := hFits.steps h.steps
  have hSoundI := hRunI.sound h.current
  obtain ⟨J, hJ, -, hMakes⟩ := h.commits.makes (fun K hK => Option.some.inj hK ▸ hSoundI) h.fits
  cases hMakes with
  | merge hListed hRoom =>
    exact ⟨⟨⟨h.prepared, h.disjoint, hListed⟩, hSoundS, hSoundI, hRunI.patches_lt h.current,
      h.steps.evolves h.snapshot hSoundS h.current, h.run.short h.snapshot, hRoom⟩, hJ⟩

/-- A merge neither loses a document nor brings one back, whatever was committed since it was
prepared: the documents live when it takes the lock and those live afterwards correspond one to
one, with the same contents, and those of other segments keep their ids. -/
theorem merge_corresponds (h : MergeRace now S I xs d₀ d d') :
    ∃ J, d'.Holds (some J) ∧ Corresponds I J xs := by
  obtain ⟨hM, hJ⟩ := h.exists_merging
  exact ⟨_, hJ, hM.corresponds now⟩

end Run

-- ---------------------------------------------------------------------------
-- A deletion between the two phases
-- ---------------------------------------------------------------------------

/-- A first build has no deleted documents. -/
theorem SingleBuild.sourceDocs {w : World} {files : List CrawledFile} {s : Segment}
    (h : SingleBuild w files S s) : (movedRows S.overlay [s]).map Prod.fst =
      (List.range files.length).map fun i => (s.entry.segmentId, UInt32.ofNat i) := by
  rw [movedRows, List.flatMap_singleton, Segment.sourceRows, List.map_filterMap,
    ← List.filterMap_eq_map, h.records.numDocs]
  refine List.filterMap_congr fun i hi => ?_
  have hLt : (UInt32.ofNat i).toNat < s.docs.length := by
    rw [s.length_docs]
    exact UInt32.lt_iff_toNat_lt.mp (ofNat_lt_of_mem_range (h.records.numDocs ▸ hi))
  have hMeta : s.docMeta (UInt32.ofNat i) = some s.docs[(UInt32.ofNat i).toNat] := by
    rw [Segment.docMeta, h.isDeleted, List.getElem?_eq_getElem hLt]
    rfl
  rw [Segment.rowAt_of_docMeta hMeta]
  rfl

theorem SourcesOf.exists_prepares (h : SourcesOf S g segs)
    (hLen : (movedRows S.overlay segs).length < 2 ^ 32) (tag : StagingTag) :
    ∃ x : StagedMerge, x.merge.tag = tag ∧ x.Prepares S g segs := by
  refine Ripindex.exists_prepares tag g (h.encodable_remapTerms hLen) ?_
  rwa [survivors_eq fun s hs => h.mem hs, List.length_map]

/-- A merge of the one segment of a first build. -/
theorem SingleBuild.exists_prepares {w : World} {files : List CrawledFile} {s : Segment}
    (h : SingleBuild w files S s) (hLen : files.length < 2 ^ 32) :
    SourcesOf S [s.entry.segmentId] [s] ∧
      ∃ x : StagedMerge, x.merge.numDocs.toNat = files.length ∧
        x.Prepares S [s.entry.segmentId] [s] := by
  have hFind : S.findSegment s.entry.segmentId = some s := by
    unfold Index.findSegment
    rw [h.segments]
    exact List.find?_cons_of_pos (beq_self_eq_true _)
  have hSources : SourcesOf S [s.entry.segmentId] [s] :=
    ⟨by simp [hFind], List.nodup_singleton _⟩
  have hMoved : (movedRows S.overlay [s]).length = files.length := by
    have hDocs := congrArg List.length h.sourceDocs
    rwa [List.length_map, List.length_map, List.length_range] at hDocs
  obtain ⟨x, -, hPrepares⟩ := hSources.exists_prepares (hMoved ▸ hLen) ⟨0, 0⟩
  exact ⟨hSources, x, by rw [← hPrepares.length_movedRows hSources, hMoved], hPrepares⟩

omit [Platform] in
/-- A text and a binary file are built, a merge of their segment is prepared, and the binary
one is deleted before the merge is committed. -/
structure DeleteRaced [Platform] (S I : Index) (s : Segment) (x : StagedMerge) (d₀ d d' : Dir) :
    Prop where
  built : SingleBuild textWorld [textFile, dataFile] S s
  race : MergeRace 0 S I [x] d₀ d d'
  prepares : x.Prepares S [s.entry.segmentId] [s]
  sources : SourcesOf S [s.entry.segmentId] [s]
  numDocs : x.merge.numDocs.toNat = 2
  segments : I.segments = [s.tombstoned [1]]
  overlay : I.overlay = .empty

omit [Platform] in
theorem exists_deleteRaced :
    let _ := textPlatform
    ∃ S I s x d₀ d d', DeleteRaced S I s x d₀ d d' := by
  intro _
  obtain ⟨S, s, retire, hBuild, hGives⟩ := SingleBuild.exists_gives
    (by decide +kernel) room_text (by decide +kernel)
  have hEmpty : Dir.Holds ∅ none := AList.lookup_empty _
  obtain ⟨d₀, hFirst, hHolds₀⟩ := Operation.commits_of_gives
    (.build textWorld mixedConfig [textFile, dataFile]) hEmpty (by simp [Operation.staged]) hGives
  have hAdmissible : (Operation.build textWorld mixedConfig [textFile, dataFile]).Admissible
      none := ⟨room_text, trivial⟩
  have hRun : Operation.Run Operation.Admissible d₀ := .commit .empty hAdmissible hFirst
  obtain ⟨hSources, x, hNum, hPrepares⟩ := hBuild.exists_prepares (by decide)
  -- The deletion is committed, and the merge is still staged.
  have hId : (1 : DocId) < s.entry.numDocs := by
    rw [UInt32.lt_iff_toNat_lt, hBuild.records.numDocs]
    decide
  have hDelRoom : (Operation.delete 0 [1]).Fits (some S) := hBuild.deleteRoom 1
  obtain ⟨d₁, hDelete, hHolds₁⟩ := Operation.commits_of_gives (.delete 0 [1]) hHolds₀
    (by simp [Operation.staged]) (hBuild.gives hId)
  have hSegs := hBuild.amendedSegments hId
  generalize hI : deletedIndex 0 S [1] (deletedManifest_ok hDelRoom) = I at hHolds₁
  have hSegments : I.segments = [s.tombstoned [1]] := by
    rw [← hI]
    exact hSegs
  obtain ⟨d, hHolds, hStaged⟩ := holds_stage hHolds₁ x
  have hSteps : Operation.Steps Operation.Fits d₀ d :=
    (Relation.ReflTransGen.single (.commit hDelRoom hDelete)).tail (.other hHolds₁ hHolds)
  -- The merge is committed.
  have hEntries : I.manifest.segments = [(s.tombstoned [1]).entry] := by
    rw [← I.entries_eq, hSegments]
    rfl
  have hBound : Index.endBound I.manifest.segments = 2 := by
    have hDocs : s.entry.numDocs.toNat = 2 := hBuild.records.numDocs
    rw [hEntries, Index.endBound_cons, Segment.endDoc_tombstoned, SegmentEntry.endDoc,
      hBuild.baseDoc, hDocs]
    rfl
  have hFits : (Operation.merge 0 [x]).Fits (some I) := by
    refine ⟨by simp, ?_, ?_⟩
    · have hNext : I.manifest.nextSegmentId = 1 := by
        rw [← hI]
        exact hBuild.nextSegmentId
      rw [hBound, hNext]
      refine ⟨by decide, by decide, ?_⟩
      show 2 + x.merge.numDocs.toNat ≤ 2 ^ 32
      rw [hNum]
      decide
    · rw [← hI]
      show (S.manifest.generation + 1).toNat + 1 < 2 ^ 64
      rw [hBuild.generation]
      decide
  have hIds := hPrepares.sourceIds
  have hListed : SourcesListed I.manifest ([x].map StagedMerge.merge) := by
    intro p hp
    obtain rfl := List.mem_singleton.mp hp
    unfold missingSource
    rw [hIds, hEntries]
    simp
  obtain ⟨m, retired, hResult⟩ := mergePlan_result 0 hListed
  have hSound := ((hRun.mono fun _ _ h => h.1).steps hSteps).sound hHolds
  obtain ⟨hTags, hRoom⟩ := Operation.Fits.hasRoom hFits
    fun K hK => Option.some.inj hK ▸ hSound
  obtain ⟨-, hMerged⟩ := mergePlan_gives hSound hResult hTags hRoom
  obtain ⟨d', hCommits, -⟩ := Operation.commits_of_gives (.merge 0 [x]) hHolds
    (by simpa [Operation.staged] using hStaged) hMerged
  refine ⟨S, I, s, x, d₀, d, d', hBuild, ⟨hRun, hHolds₀, hSteps, hHolds, ?_, ?_, hFits, hCommits⟩,
    hPrepares, hSources, hNum, hSegments, ?_⟩
  · intro y hy
    obtain rfl := List.mem_singleton.mp hy
    exact ⟨[s], hIds ▸ hSources.found, hIds ▸ hPrepares⟩
  · simp [mergedIds, hIds]
  · rw [← hI]
    exact hBuild.overlay

namespace DeleteRaced

variable {s : Segment} {d₀ d d' : Dir} {i : DocId}

theorem lt_numDocs (h : DeleteRaced S I s x d₀ d d') (hi : i < 2) : i < s.entry.numDocs := by
  rw [UInt32.lt_iff_toNat_lt, h.built.records.numDocs]
  exact UInt32.lt_iff_toNat_lt.mp hi

/-- Both documents are moved behind the segment. -/
theorem movedTo (h : DeleteRaced S I s x d₀ d d') (hi : i < 2) : MovedTo I [x] i (2 + i) := by
  have hMem : s.tombstoned [1] ∈ I.segments := by
    rw [h.segments]
    exact List.mem_singleton_self _
  have hBound : Index.endBound I.manifest.segments = 2 := by
    have hDocs : s.entry.numDocs.toNat = 2 := h.built.records.numDocs
    rw [← I.entries_eq, h.segments, List.map_singleton, Index.endBound_cons,
      Segment.endDoc_tombstoned, SegmentEntry.endDoc, h.built.baseDoc, hDocs]
    rfl
  have hBase : mergedBase I [x] 0 = 2 := by
    rw [mergedBase, hBound]
    rfl
  have hLen : i.toNat < (movedRows S.overlay [s]).length := by
    rw [h.prepares.length_movedRows h.sources, h.numDocs]
    exact UInt32.lt_iff_toNat_lt.mp hi
  have hPlace : (movedRows S.overlay [s])[i.toNat].1 = (s.entry.segmentId, i) := by
    rw [← List.getElem_map Prod.fst (h := by simpa using hLen)]
    simp [h.built.sourceDocs]
  have hNew : x.merge.oldToNew.lookup ((s.tombstoned [1]).entry.segmentId, i) = some i := by
    rw [Segment.segmentId_tombstoned, h.prepares.lookup_iff h.sources]
    exact ⟨hLen, hPlace⟩
  have hLt : i < (s.tombstoned [1]).entry.numDocs := by
    rw [Segment.numDocs_tombstoned]
    exact h.lt_numDocs hi
  have hMoved : MovedTo I [x] ((s.tombstoned [1]).entry.baseDoc + i) (mergedBase I [x] 0 + i) :=
    .moved (k := 0) (by simp) hMem hLt hNew
  rwa [hBase, Segment.baseDoc_tombstoned, h.built.baseDoc, UInt32.zero_add] at hMoved

/-- The text is live, the binary file is not. -/
theorem isSome_doc (h : DeleteRaced S I s x d₀ d d') (hi : i < 2) :
    (I.doc i).isSome = !decide (i = 1) := by
  have hMem : s.tombstoned [1] ∈ I.segments := by
    rw [h.segments]
    exact List.mem_singleton_self _
  have hDoc := Index.isSome_doc_global hMem (i := i)
    (by rw [Segment.numDocs_tombstoned]; exact h.lt_numDocs hi)
  rw [Segment.baseDoc_tombstoned, h.built.baseDoc, UInt32.zero_add] at hDoc
  have hDeleted := h.built.isDeleted_tombstoned (h.lt_numDocs (i := 1) (by decide)) i
  rw [hDoc, Bool.eq_iff_iff.mpr (hDeleted.trans decide_eq_true_iff.symm)]

end DeleteRaced

omit [Platform] in
/-- The deletion is carried into the merged segment. -/
theorem merge_corresponds_deleted : ∃ _ : Platform, ∃ S I J xs d₀ d d',
    MergeRace 0 S I xs d₀ d d' ∧ d'.Holds (some J) ∧ Corresponds I J xs ∧
      (∃ s ∈ S.segments, ∀ i < 2, s.isDeleted i = false) ∧
      (I.doc 0).isSome = true ∧ I.doc 1 = none ∧ MovedTo I xs 0 2 ∧ MovedTo I xs 1 3 ∧
      (J.doc 2).isSome = true ∧ J.doc 3 = none := by
  refine ⟨textPlatform, ?_⟩
  let _ := textPlatform
  obtain ⟨S, I, s, x, d₀, d, d', h⟩ := exists_deleteRaced
  obtain ⟨J, hJ, hSame⟩ := merge_corresponds h.race
  have hText := h.isSome_doc (i := 0) (by decide)
  have hBinary := h.isSome_doc (i := 1) (by decide)
  have hMovedText := h.movedTo (i := 0) (by decide)
  have hMovedBinary := h.movedTo (i := 1) (by decide)
  have hTextAfter := (hSame.live _ _ hMovedText).trans hText
  have hBinaryAfter := (hSame.live _ _ hMovedBinary).trans hBinary
  refine ⟨S, I, J, [x], d₀, d, d', h.race, hJ, hSame, ⟨s, ?_, fun i _ => h.built.isDeleted i⟩,
    hText, by simpa using hBinary, hMovedText, hMovedBinary, hTextAfter,
    by simpa using hBinaryAfter⟩
  rw [h.built.segments]
  exact List.mem_singleton_self s

/-- A merge over an index with the last segment id left ends with none: no index is the one of
the manifest it leaves. -/
theorem not_holds_merged_lastId {h : Index} {now : Int64} {d d' : Dir}
    (hCommits : (Operation.merge now [x]).Commits (some h.withLastId) d d') {J : Index} :
    ¬ d'.Holds (some J) := by
  intro hHolds
  obtain ⟨-, -, hResult, hAfter⟩ := hCommits
  obtain ⟨-, rfl, -, -⟩ := mergePlan_ok hResult
  have hManifest := hHolds.manifest
  rw [hAfter _ (.inl rfl), Dir.lookup_committed, if_pos rfl] at hManifest
  have hSame := manifestFile_inj hManifest
  have hMem : (x.segment h.withLastId h.withLastId.manifest.nextSegmentId
      (UInt32.ofNat (Index.endBound h.withLastId.manifest.segments))).entry ∈
        J.manifest.segments := by
    rw [← hSame]
    refine (Platform.sort_perm _ _).mem_iff.mpr (List.mem_map_of_mem ?_)
    exact List.mem_append_right _ (List.mem_singleton_self _)
  have hLt := (J.manifest_ok.entries _ hMem).id_lt
  have hNext : (splicedManifest now h.withLastId [x]).nextSegmentId = 0 := by
    show (0xFFFFFFFF : UInt32) + UInt32.ofNat 1 = 0
    decide
  rw [← hSame, hNext] at hLt
  exact UInt32.not_lt_zero hLt

omit [Platform] in
/-- Where the last id is given to the merged segment, the next one wraps around to 0: the commit
succeeds, and every document is lost. -/
theorem merge_over_lastId_rejected : ∃ _ : Platform, ¬ ∀ (now : Int64) (S : Index)
    (x : StagedMerge) (segs : List Segment) (d d' : Dir), S.Sound → d.Holds (some S) →
      x.merge.sourceIds.mapM S.findSegment = some segs →
      x.Prepares S x.merge.sourceIds segs → (Operation.merge now [x]).Commits (some S) d d' →
        ∃ J, d'.Holds (some J) ∧ Corresponds S J [x] := by
  refine ⟨textPlatform, fun hAll => ?_⟩
  let _ := textPlatform
  have hOk : (buildPlan textWorld mixedConfig [textFile, dataFile] none).result.isOk = true := by
    decide +kernel
  obtain ⟨S, s, hBuild⟩ := SingleBuild.exists_of hOk room_text (by decide +kernel)
  obtain ⟨d₀, hBacked⟩ := hBuild.exists_backed
  obtain ⟨hSources, x, -, hPrepares⟩ := hBuild.exists_prepares (by decide)
  have hHolds : Dir.Holds (d₀.insert .manifest (manifestFile S.withLastId.manifest))
      (some S.withLastId) := hBacked.withLastId
  obtain ⟨d, hCurrent, hStaged⟩ := holds_stage hHolds x
  have hIds := hPrepares.sourceIds
  have hListed : SourcesListed S.withLastId.manifest ([x].map StagedMerge.merge) := by
    intro p hp
    obtain rfl := List.mem_singleton.mp hp
    have hEntries : S.manifest.segments = [s.entry] := by
      rw [← S.entries_eq, hBuild.segments]
      rfl
    have hMissing : missingSource S.manifest x.merge.sourceIds = none := by
      unfold missingSource
      rw [hIds, hEntries]
      simp
    exact hMissing
  obtain ⟨m, retired, hResult⟩ := mergePlan_result 0 hListed
  have hCommits : (Operation.merge 0 [x]).Commits (some S.withLastId) d
      (d.committed ((Operation.merge 0 [x]).plan (some S.withLastId)).steps m) :=
    ⟨hCurrent, by simpa [Operation.staged] using hStaged, hResult, fun _ _ => rfl⟩
  obtain ⟨J, hJ, -⟩ := hAll 0 S.withLastId x [s] d _
    ⟨hBuild.commit.sound.ids_nodup, hBuild.commit.sound.numDeleted⟩ hCurrent
    (hIds ▸ hSources.found) (hIds ▸ ⟨hIds, hPrepares.snapshotDelGen, hPrepares.oldToNew,
      hPrepares.records, hPrepares.idx⟩) hCommits
  exact not_holds_merged_lastId hCommits hJ

-- ---------------------------------------------------------------------------
-- Paths, times and sizes
-- ---------------------------------------------------------------------------

section Files

variable {now : Int64} {xs : List StagedMerge} {d₀ d d' : Dir}

/-- Every document is reported with the same path, inode, time and size under its new id. -/
def KeepsFiles (I J : Index) (xs : List StagedMerge) : Prop :=
  ∀ id m, I.doc id = some m → ∃ id' m', MovedTo I xs id id' ∧ J.doc id' = some m' ∧ m.SameFile m'

/-- The documents of sources that are live in `I` have the same path, inode, time and size under
the patches of `S` and under those of `I`. -/
def SourcesUnpatched (S I : Index) (xs : List StagedMerge) : Prop :=
  ∀ s ∈ I.segments, s.entry.segmentId ∈ mergedIds (xs.map StagedMerge.merge) →
    ∀ i < s.entry.numDocs, ∀ m, s.docMeta i = some m →
      (I.overlay.patched (s.entry.baseDoc + i) m).SameFile
        (S.overlay.patched (s.entry.baseDoc + i) m)

/-- What is reported of a document before and after. -/
theorem Merging.docs_of_docMeta (h : Merging S I xs) (now : Int64) {s : Segment}
    (hs : s ∈ I.segments) {i : DocId} (hi : i < s.entry.numDocs) {m : DocMeta}
    (hMeta : s.docMeta i = some m) :
    I.doc (s.entry.baseDoc + i) = some (I.overlay.patched (s.entry.baseDoc + i) m) ∧
      ∃ id', MovedTo I xs (s.entry.baseDoc + i) id' ∧ (splicedIndex now I xs h.room).doc id' =
        some ((mergedOverlay S I xs s).patched (s.entry.baseDoc + i) m) := by
  have hRow := Segment.rowAt_of_docMeta hMeta I.overlay
  have he : (s.entry.baseDoc + i, _) ∈ I.rows := Index.mem_rows.mpr ⟨s, hs, i, hi, rfl, hRow⟩
  refine ⟨by rw [Index.doc_global hs hi, hRow]; rfl, ?_⟩
  obtain ⟨id', hMoved⟩ := h.exists_movedTo he
  obtain ⟨s', hs', i', hi', hId, t, ht, n, hn, rfl, hSame⟩ := h.row_of_movedTo now hMoved
  obtain ⟨rfl, rfl⟩ := Index.global_inj hs hs' hi hi' hId
  refine ⟨_, hMoved, ?_⟩
  rw [Index.doc_global ht hn]
  show (t.rowAt I.overlay n).map _ = _
  rw [hSame, Segment.rowAt_of_docMeta hMeta]
  rfl

theorem Merging.keepsFiles_iff (h : Merging S I xs) (now : Int64) :
    KeepsFiles I (splicedIndex now I xs h.room) xs ↔ SourcesUnpatched S I xs := by
  constructor
  · intro hKeeps s hs hMerged i hi m hMeta
    obtain ⟨hOld, id', hMoved, hNew⟩ := h.docs_of_docMeta now hs hi hMeta
    obtain ⟨id'', m', hMoved', hDoc, hFile⟩ := hKeeps _ _ hOld
    obtain rfl := h.new_unique hMoved hMoved'
    rw [hNew, mergedOverlay, if_pos hMerged] at hDoc
    rwa [← Option.some.inj hDoc] at hFile
  · intro hSame id m hDoc
    obtain ⟨s, hs, i, hi, rfl, -⟩ := Index.liveId_of_doc hDoc
    rcases hMeta : s.docMeta i with _ | m₀
    · rw [Index.doc_global hs hi, Segment.rowAt, hMeta] at hDoc
      cases hDoc
    obtain ⟨hOld, id', hMoved, hNew⟩ := h.docs_of_docMeta now hs hi hMeta
    obtain rfl := Option.some.inj (hOld.symm.trans hDoc)
    refine ⟨id', _, hMoved, hNew, ?_⟩
    by_cases hMerged : s.entry.segmentId ∈ mergedIds (xs.map StagedMerge.merge)
    · rw [mergedOverlay, if_pos hMerged]
      exact hSame s hs hMerged i hi m₀ hMeta
    · rw [mergedOverlay, if_neg hMerged]
      exact ⟨rfl, rfl, rfl, rfl⟩

/-- A merge keeps path, inode, time and size of every document exactly when no document of its
sources that is still live was given others since the merge was prepared. -/
theorem merge_keeps_files_iff (h : MergeRace now S I xs d₀ d d') :
    ∃ J, d'.Holds (some J) ∧ (KeepsFiles I J xs ↔ SourcesUnpatched S I xs) := by
  obtain ⟨hM, hJ⟩ := h.exists_merging
  exact ⟨_, hJ, hM.keepsFiles_iff now⟩

end Files

theorem RenameRaced.race {s : Segment} {d₀ d d' : Dir} (h : RenameRaced S I s x d₀ d d') :
    MergeRace 0 S I [x] d₀ d d' :=
  ⟨h.run, h.built.holds, h.steps, h.current, h.prepared, h.disjoint, h.fits, h.commits⟩

/-- The snapshot has no patch for the document, the index at the commit has. -/
theorem RenameRaced.not_sourcesUnpatched {s : Segment} {d₀ d d' : Dir}
    (h : RenameRaced S I s x d₀ d d') : ¬ SourcesUnpatched S I [x] := by
  intro hSame
  have hMem : s ∈ I.segments := by
    rw [h.segments]
    exact List.mem_singleton_self s
  have hMerged : s.entry.segmentId ∈ mergedIds ([x].map StagedMerge.merge) := by
    simp [mergedIds, ← map_segmentId_of_mapM h.found]
  -- The document and its rows before and after the rename.
  obtain ⟨e, he, hRow⟩ : ∃ e ∈ I.rows, e.2 = rowOf oneWorld.indexRead (oneFile "b") := by
    have hRowMem := h.rows.mem_iff.mpr (List.mem_singleton_self _)
    obtain ⟨e, he, hEq⟩ := List.mem_map.mp hRowMem
    exact ⟨e, he, hEq⟩
  obtain ⟨t, ht, i, hi, -, hNew⟩ := Index.mem_rows.mp he
  obtain rfl : t = s := by
    rw [h.segments] at ht
    exact List.mem_singleton.mp ht
  obtain ⟨m, hMeta, hRecord⟩ := Option.map_eq_some_iff.mp hNew
  have hOld : (t.entry.baseDoc + i, _) ∈ S.rows := Index.mem_rows.mpr
    ⟨t, by rw [h.built.build.segments]; exact List.mem_singleton_self t, i, hi, rfl,
      Segment.rowAt_of_docMeta hMeta S.overlay⟩
  rw [h.built.rows] at hOld
  have hOldRow := congrArg (fun e => e.2.record.path) (List.mem_singleton.mp hOld)
  have hNewRow := congrArg (fun r => r.record.path) (hRecord.trans hRow)
  have hPath := (hSame t hMem hMerged i hi m hMeta).path
  have hPaths : (rowOf oneWorld.indexRead (oneFile "a")).record.path =
      (rowOf oneWorld.indexRead (oneFile "b")).record.path :=
    hOldRow.symm.trans (hPath.trans hNewRow)
  simp [rowOf, recorded, DocMeta.fromEntry, oneFile] at hPaths

omit [Platform] in
/-- With a deletion in between nothing changes, with a rename something does. -/
theorem merge_keeps_files_raced :
    (∃ _ : Platform, ∃ S I J xs d₀ d d', MergeRace 0 S I xs d₀ d d' ∧ d'.Holds (some J) ∧
      (∃ id m, I.doc id = some m) ∧ KeepsFiles I J xs) ∧
    ∃ _ : Platform, ∃ S I J xs d₀ d d', MergeRace 0 S I xs d₀ d d' ∧ d'.Holds (some J) ∧
      ¬ KeepsFiles I J xs := by
  refine ⟨⟨textPlatform, ?_⟩, Platform.reference, ?_⟩
  · let _ := textPlatform
    obtain ⟨S, I, s, x, d₀, d, d', h⟩ := exists_deleteRaced
    obtain ⟨J, hJ, hKeeps⟩ := merge_keeps_files_iff h.race
    refine ⟨S, I, J, [x], d₀, d, d', h.race, hJ, ⟨0, Option.isSome_iff_exists.mp ?_⟩, ?_⟩
    · exact h.isSome_doc (i := 0) (by decide)
    · refine hKeeps.mpr fun t ht _ i hi m _ => ?_
      rw [h.overlay, h.built.overlay]
      exact ⟨rfl, rfl, rfl, rfl⟩
  · let _ := Platform.reference
    obtain ⟨S, I, s, x, d₀, d, d', h⟩ := exists_renameRaced
    obtain ⟨J, hJ, hKeeps⟩ := merge_keeps_files_iff h.race
    exact ⟨S, I, J, [x], d₀, d, d', h.race, hJ, mt hKeeps.mp h.not_sourcesUnpatched⟩

omit [Platform] in
/-- A merge may take a rename back that was committed since it was prepared. -/
theorem merge_loses_rename : ∃ _ : Platform, ¬ ∀ (now : Int64) (S I : Index)
    (xs : List StagedMerge) (d₀ d d' : Dir), MergeRace now S I xs d₀ d d' →
      ∃ J, d'.Holds (some J) ∧ KeepsFiles I J xs := by
  refine ⟨Platform.reference, fun hAll => ?_⟩
  let _ := Platform.reference
  obtain ⟨S, I, s, x, d₀, d, d', h⟩ := exists_renameRaced
  obtain ⟨J, hJ, hKeeps⟩ := hAll 0 S I [x] d₀ d d' h.race
  obtain ⟨hM, hJ'⟩ := h.race.exists_merging
  obtain rfl := Option.some.inj (hJ.unique hJ')
  exact h.not_sourcesUnpatched ((hM.keepsFiles_iff 0).mp hKeeps)

end Moved

end Ripindex
