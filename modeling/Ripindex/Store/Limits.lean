import Ripindex.Store.Live
import Ripindex.Store.Runs

/-!
# The limits of the id space

Segment ids, document ids and generations are unsigned integers that a writer counts up
without a check. `Operation.Continues` says that none of them wrapped around in what a
writer commits, `Operation.Room` that there is room for them.

## Results

* `Operation.continues_iff` — a commit goes on from the index exactly with room;
* `Operation.holds_of_interrupted` — with room, a writer that is interrupted before its
  commit leaves the index as it was;
* `Operation.committed_accepted` — both together.
-/

namespace Ripindex

-- ---------------------------------------------------------------------------
-- Counting up
-- ---------------------------------------------------------------------------

/-- A sum that is not smaller did not wrap around. -/
theorem toNat_add_lt_of_le {a : UInt32} {n : Nat} (hn : n < 2 ^ 32)
    (h : a ≤ a + UInt32.ofNat n) : a.toNat + n < 2 ^ 32 := by
  rw [UInt32.le_iff_toNat_le, UInt32.toNat_add, UInt32.toNat_ofNat_of_lt' hn] at h
  have := a.toNat_lt
  omega

/-- A successor that is not 0 did not wrap around. -/
theorem toNat_succ_lt_of_ne {a : UInt32} (h : a + 1 ≠ 0) : a.toNat + 1 < 2 ^ 32 := by
  by_contra hNot
  apply h
  apply UInt32.toNat_inj.mp
  have := a.toNat_lt
  rw [UInt32.toNat_add, UInt32.toNat_one, UInt32.toNat_zero]
  omega

theorem toNat_succ_of_lt {a : UInt64} (h : a.toNat + 1 < 2 ^ 64) :
    (a + 1).toNat = a.toNat + 1 := by
  rw [UInt64.toNat_add, UInt64.toNat_one, Nat.mod_eq_of_lt h]

/-- Segments with larger ids start behind those with smaller ones. -/
def InOrder (p e : SegmentEntry) : Prop :=
  p.segmentId < e.segmentId → p.endDoc ≤ e.baseDoc.toNat

variable [Platform]

namespace Tiles

variable {read : ReadFile} {base : DocId} {id : UInt32} {files : List CrawledFile}
  {segs : List Segment}

/-- With room, the segments are in order of their ids. -/
theorem inOrder (h : Tiles read base id files segs) (hRoom : TilesRoom base id files segs) :
    ∀ s ∈ segs, ∀ t ∈ segs, InOrder s.entry t.entry := by
  induction h with
  | nil => simp
  | @cons base id files rest s segs hBase hId _ hRecords _ _ hRest ih =>
    intro p hp e he hLt
    rcases List.mem_cons.mp hp with rfl | hp'
    · rcases List.mem_cons.mp he with rfl | he'
      · exact absurd hLt (UInt32.lt_irrefl _)
      · obtain ⟨hBase', -, hRoom'⟩ := room_rest hRest hRoom (List.ne_nil_of_mem he')
        have hGe := (hRest.bounds hRoom' e he').base_le
        rwa [hBase', ← hRecords.numDocs, ← hBase] at hGe
    · obtain ⟨-, hId', hRoom'⟩ := room_rest hRest hRoom (List.ne_nil_of_mem hp')
      rcases List.mem_cons.mp he with rfl | he'
      · have hGe := (hRest.bounds hRoom' p hp').id_le
        rw [hId'] at hGe
        rw [hId, UInt32.lt_iff_toNat_lt] at hLt
        omega
      · exact ih hRoom' p hp' e he' hLt

theorem id_ge (h : Tiles read base id files segs) (hIds : id.toNat + segs.length < 2 ^ 32) :
    ∀ s ∈ segs, id ≤ s.entry.segmentId := by
  induction h with
  | nil => simp
  | @cons base id files rest s segs _ hId _ _ _ _ _ ih =>
    rw [List.length_cons] at hIds
    have hNext : (id + 1).toNat = id.toNat + 1 := by
      rw [UInt32.toNat_add, UInt32.toNat_one, Nat.mod_eq_of_lt (by omega)]
    intro t ht
    rcases List.mem_cons.mp ht with rfl | ht
    · rw [hId]
      exact UInt32.le_refl _
    · have hGe := ih (by rw [hNext]; omega) t ht
      rw [UInt32.le_iff_toNat_le] at hGe ⊢
      omega

/-- Segments in order that end within the id space leave room for their documents. -/
theorem docs_le (h : Tiles read base id files segs)
    (hIds : id.toNat + segs.length < 2 ^ 32) (hEnd : ∀ s ∈ segs, s.entry.endDoc ≤ 2 ^ 32)
    (hOrder : ∀ s ∈ segs, ∀ t ∈ segs, InOrder s.entry t.entry) :
    base.toNat + files.length ≤ 2 ^ 32 := by
  induction h with
  | nil base => exact base.toNat_lt.le
  | @cons base id files rest s segs hBase hId _ hRecords _ _ hRest ih =>
    have hHead := hEnd s List.mem_cons_self
    rw [SegmentEntry.endDoc, hBase, hRecords.numDocs] at hHead
    rw [List.length_cons] at hIds
    rw [List.length_append]
    cases hRest with
    | nil => simpa using hHead
    | @cons _ _ files' rest' t segs hBase' hId' h₁ h₂ h₃ h₄ hRest' =>
      have hNext : (id + 1).toNat = id.toNat + 1 := by
        rw [UInt32.toNat_add, UInt32.toNat_one, Nat.mod_eq_of_lt (by omega)]
      -- The next segment starts where this one ends: its base did not wrap around.
      have hGe : base.toNat + files.length ≤ (base + UInt32.ofNat files.length).toNat := by
        have hLt : s.entry.segmentId < t.entry.segmentId := by
          rw [hId, hId', UInt32.lt_iff_toNat_lt, hNext]
          omega
        have := hOrder s List.mem_cons_self t (by simp) hLt
        rwa [SegmentEntry.endDoc, hBase, hRecords.numDocs, hBase'] at this
      have hRest := ih (by rw [hNext]; omega)
        (fun u hu => hEnd u (List.mem_cons_of_mem _ hu))
        fun u hu v hv => hOrder u (List.mem_cons_of_mem _ hu) v (List.mem_cons_of_mem _ hv)
      omega

end Tiles

-- ---------------------------------------------------------------------------
-- Merged segments
-- ---------------------------------------------------------------------------

theorem mergedSegments_id_ge {cur : Index} {id base : UInt32} {xs : List StagedMerge}
    (hIds : id.toNat + xs.length < 2 ^ 32) :
    ∀ s ∈ mergedSegments cur id base xs, id ≤ s.entry.segmentId := by
  induction xs generalizing id base with
  | nil => simp [mergedSegments]
  | cons x xs ih =>
    rw [List.length_cons] at hIds
    have hNext : (id + 1).toNat = id.toNat + 1 := by
      rw [UInt32.toNat_add, UInt32.toNat_one, Nat.mod_eq_of_lt (by omega)]
    intro s hs
    rcases List.mem_cons.mp hs with rfl | hs
    · rw [StagedMerge.segmentId_segment]
      exact UInt32.le_refl _
    · have hGe := ih (by rw [hNext]; omega) s hs
      rw [UInt32.le_iff_toNat_le] at hGe ⊢
      omega

/-- With room, merged segments are in order of their ids. -/
theorem mergedSegments_inOrder {cur : Index} {bound : Nat} {id : UInt32}
    {xs : List StagedMerge} (h : MergesFit bound id (xs.map StagedMerge.merge)) :
    ∀ s ∈ mergedSegments cur id (UInt32.ofNat bound) xs,
      ∀ t ∈ mergedSegments cur id (UInt32.ofNat bound) xs, InOrder s.entry t.entry := by
  induction xs generalizing bound id with
  | nil => simp [mergedSegments]
  | cons x xs ih =>
    obtain ⟨hLt, hId, hRest⟩ := h
    have hNum : UInt32.ofNat bound + x.merge.numDocs =
        UInt32.ofNat (bound + x.merge.numDocs.toNat) := by
      rw [UInt32.ofNat_add, UInt32.ofNat_toNat]
    have hNext : (id + 1).toNat = id.toNat + 1 := by
      rw [UInt32.toNat_add, UInt32.toNat_one, Nat.mod_eq_of_lt hId]
    rw [mergedSegments, hNum]
    intro s hs t ht hIds
    rcases List.mem_cons.mp hs with rfl | hs'
    · rcases List.mem_cons.mp ht with rfl | ht'
      · exact absurd hIds (UInt32.lt_irrefl _)
      · have hGe := (mergedSegments_bounds hRest t ht').base_ge
        simpa only [SegmentEntry.endDoc, StagedMerge.baseDoc_segment,
          StagedMerge.numDocs_segment, UInt32.toNat_ofNat_of_lt' hLt] using hGe
    · rcases List.mem_cons.mp ht with rfl | ht'
      · have hGe := (mergedSegments_bounds hRest s hs').id_ge
        rw [StagedMerge.segmentId_segment, UInt32.lt_iff_toNat_lt] at hIds
        omega
      · exact ih hRest s hs' t ht' hIds

/-- Merged segments in order that start behind `bound` and end within the id space leave
room for the merges. -/
theorem mergesFit_of_inOrder {cur : Index} {bound : Nat} {id : UInt32}
    {xs : List StagedMerge} (hBound : bound ≤ 2 ^ 32) (hIds : id.toNat + xs.length < 2 ^ 32)
    (hStart : ∀ s ∈ mergedSegments cur id (UInt32.ofNat bound) xs,
      bound ≤ s.entry.baseDoc.toNat)
    (hEnd : ∀ s ∈ mergedSegments cur id (UInt32.ofNat bound) xs, s.entry.endDoc ≤ 2 ^ 32)
    (hOrder : ∀ s ∈ mergedSegments cur id (UInt32.ofNat bound) xs,
      ∀ t ∈ mergedSegments cur id (UInt32.ofNat bound) xs, InOrder s.entry t.entry) :
    MergesFit bound id (xs.map StagedMerge.merge) := by
  induction xs generalizing bound id with
  | nil => exact hBound
  | cons x xs ih =>
    rw [List.length_cons] at hIds
    have hNum : UInt32.ofNat bound + x.merge.numDocs =
        UInt32.ofNat (bound + x.merge.numDocs.toNat) := by
      rw [UInt32.ofNat_add, UInt32.ofNat_toNat]
    have hNext : (id + 1).toNat = id.toNat + 1 := by
      rw [UInt32.toNat_add, UInt32.toNat_one, Nat.mod_eq_of_lt (by omega)]
    rw [mergedSegments, hNum] at hStart hEnd hOrder
    obtain ⟨hStartHead, -⟩ := List.forall_mem_cons.mp hStart
    obtain ⟨hEndHead, hEndTail⟩ := List.forall_mem_cons.mp hEnd
    -- A bound of `2 ^ 32` is the base 0.
    have hLt : bound < 2 ^ 32 := by
      rw [StagedMerge.baseDoc_segment] at hStartHead
      exact Nat.lt_of_le_of_lt hStartHead (UInt32.toNat_lt _)
    have hHead : (x.segment cur id (UInt32.ofNat bound)).entry.endDoc =
        bound + x.merge.numDocs.toNat := by
      rw [SegmentEntry.endDoc, StagedMerge.baseDoc_segment, StagedMerge.numDocs_segment,
        UInt32.toNat_ofNat_of_lt' hLt]
    rw [hHead] at hEndHead
    refine ⟨hLt, by omega, ih hEndHead (by rw [hNext]; omega) (fun s hs => ?_) hEndTail
      fun s hs t ht => hOrder s (List.mem_cons_of_mem _ hs) t (List.mem_cons_of_mem _ ht)⟩
    have hGe := mergedSegments_id_ge (by rw [hNext]; omega) s hs
    rw [← hHead]
    refine hOrder _ List.mem_cons_self s (List.mem_cons_of_mem _ hs) ?_
    rw [StagedMerge.segmentId_segment, UInt32.lt_iff_toNat_lt]
    rw [UInt32.le_iff_toNat_le] at hGe
    omega

-- ---------------------------------------------------------------------------
-- What a commit leaves
-- ---------------------------------------------------------------------------

/-- The manifest `m` goes on from `prev`: its reader accepts it, and no id or generation
wrapped around. A new segment starts behind the segments `below` and behind the new
segments of smaller ids. -/
structure Continues (prev : Option Index) (below : List SegmentEntry) (m : Manifest) :
    Prop where
  accepted : m.decode Format.formatVersion = .ok m
  generation : m.generation.toNat = (prev.elim 0 fun I => I.manifest.generation.toNat) + 1
  next_le : nextSegmentIdOf prev ≤ m.nextSegmentId
  starts : ∀ e ∈ m.segments, nextSegmentIdOf prev ≤ e.segmentId →
    ∀ p ∈ below ++ m.segments, InOrder p e

variable {prev : Option Index} {below : List SegmentEntry} {m : Manifest}

omit [Platform] in
theorem Continues.ok (h : Continues prev below m) : m.Ok :=
  (Manifest.decode_ok_iff.mp h.accepted).2.1

omit [Platform] in
theorem decode_of_ok (h : m.Ok) : m.decode Format.formatVersion = .ok m :=
  Manifest.decode_ok_iff.mpr ⟨rfl, h, rfl⟩

/-- The generation after that of `prev`. -/
def nextGenerationOf (prev : Option Index) : UInt64 :=
  (prev.elim 0 fun I => I.manifest.generation) + 1

omit [Platform] in
theorem nextGenerationOf_eq :
    (nextGenerationOf prev).toNat = (prev.elim 0 fun I => I.manifest.generation.toNat) + 1 ↔
      (prev.elim 0 fun I => I.manifest.generation.toNat) + 1 < 2 ^ 64 := by
  have hElim : (prev.elim 0 fun I => I.manifest.generation.toNat) =
      (prev.elim 0 fun I => I.manifest.generation).toNat := by
    cases prev <;> rfl
  rw [hElim, nextGenerationOf]
  constructor
  · intro h
    rw [← h]
    exact UInt64.toNat_lt _
  · exact toNat_succ_of_lt

-- ---------------------------------------------------------------------------
-- Builds
-- ---------------------------------------------------------------------------

theorem builtManifest_continues_iff {w : World} {cfg : BuildConfig}
    {files : List CrawledFile} {segs : List Segment}
    (h : Tiles w.indexRead 0 (nextSegmentIdOf prev) files segs)
    (hLen : segs.length = segmentCount w.indexRead files 0 cfg) :
    Continues prev [] (builtManifest w prev segs) ↔ BuildRoom w cfg files prev := by
  have hNext : (prev.elim 0 fun I => I.manifest.nextSegmentId.toNat) =
      (nextSegmentIdOf prev).toNat := by
    cases prev <;> rfl
  constructor
  · intro hCont
    have hOk := hCont.ok
    have hCount : segs.length < 2 ^ 32 := by simpa [builtManifest] using hOk.length_lt
    have hIds := toNat_add_lt_of_le hCount hCont.next_le
    refine ⟨?_, by rw [hNext, ← hLen]; exact hIds, nextGenerationOf_eq.mp hCont.generation⟩
    have hMem : ∀ s ∈ segs, s.entry ∈ (builtManifest w prev segs).segments :=
      fun s hs => List.mem_map_of_mem hs
    have hDocs := h.docs_le hIds (fun s hs => (hOk.entries _ (hMem s hs)).end_le)
      fun s hs t ht => hCont.starts _ (hMem t ht) (h.id_ge hIds t ht) _ (hMem s hs)
    simpa using hDocs
  · intro hRoom
    have hTiles := hRoom.tiles hLen
    refine ⟨decode_of_ok (builtManifest_ok h hTiles),
      nextGenerationOf_eq.mpr hRoom.generation, ?_, ?_⟩
    · change nextSegmentIdOf prev ≤ nextSegmentIdOf prev + UInt32.ofNat segs.length
      rw [UInt32.le_iff_toNat_le, toNat_add_ofNat hTiles.ids]
      exact Nat.le_add_right _ _
    · intro e he _ p hp
      obtain ⟨t, ht, rfl⟩ := List.mem_map.mp he
      obtain ⟨s, hs, rfl⟩ := List.mem_map.mp hp
      exact h.inOrder hTiles s hs t ht

-- ---------------------------------------------------------------------------
-- Updates and deletions
-- ---------------------------------------------------------------------------

section Amended

variable {I : Index} {locals : Nat → List DocId} {read : ReadFile}
  {files : List CrawledFile} {segs : List Segment}

/-- What goes on from `I` with amended segments has room for them. -/
theorem amends_of_continues
    (hTiles : Tiles read I.idBound I.manifest.nextSegmentId files segs)
    (hSegs : m.segments = (amendedSegments I locals segs).map Segment.entry)
    (hNext : m.nextSegmentId = I.manifest.nextSegmentId + UInt32.ofNat segs.length)
    (hCont : Continues (some I) I.manifest.segments m) :
    Amends I locals read files segs := by
  have hOk := hCont.ok
  have hCount : segs.length < 2 ^ 32 := by
    have := hOk.length_lt
    simp only [hSegs, amendedSegments, List.length_map, List.length_append] at this
    omega
  have hIds : I.manifest.nextSegmentId.toNat + segs.length < 2 ^ 32 :=
    toNat_add_lt_of_le hCount (hNext ▸ hCont.next_le)
  have hMem : ∀ s ∈ amendedSegments I locals segs, s.entry ∈ m.segments :=
    fun s hs => hSegs ▸ List.mem_map_of_mem hs
  have hNew : ∀ s ∈ segs, s.entry ∈ m.segments :=
    fun s hs => hMem s (List.mem_append_right _ hs)
  refine ⟨hTiles, ?_, hIds, ?_⟩
  · cases hTiles with
    | nil => exact I.endBound_le_of_ok
    | @cons _ _ files rest s segs hBase hId h₁ h₂ h₃ h₄ hRest =>
      have hAll : Tiles read I.idBound I.manifest.nextSegmentId (files ++ rest) (s :: segs) :=
        .cons hBase hId h₁ h₂ h₃ h₄ hRest
      -- The first new segment starts behind all of `I`: its base was not clamped.
      have hBound : Index.endBound I.manifest.segments ≤ I.idBound.toNat := by
        refine Index.endBound_le ?_
        intro p hp
        rw [← hBase]
        refine hCont.starts _ (hNew s List.mem_cons_self) ?_ p (List.mem_append_left _ hp) ?_
        · rw [hId]
          exact UInt32.le_refl _
        · rw [hId]
          exact (I.manifest_ok.entries p hp).id_lt
      have hDocs := hAll.docs_le hIds (fun s hs => (hOk.entries _ (hNew s hs)).end_le)
        fun s hs t ht => hCont.starts _ (hNew t ht) (hAll.id_ge hIds t ht) _
          (List.mem_append_right _ (hNew s hs))
      omega
  · intro p hp hChange
    have hEntry := hOk.entries _ (hMem _ (List.mem_append_left _
      (mem_tombstonedAll.mpr ⟨p, hp, rfl⟩)))
    have hDel := hEntry.del_iff
    rw [Segment.tombstoned, if_pos hChange] at hDel
    apply toNat_succ_lt_of_ne
    exact fun hZero => (FileData.len_pos (by simp)).ne' (hDel.mp hZero)

/-- With room, amended segments go on from `I`. -/
theorem Amends.starts (h : Amends I locals read files segs)
    (hSegs : m.segments = (amendedSegments I locals segs).map Segment.entry) :
    ∀ e ∈ m.segments, I.manifest.nextSegmentId ≤ e.segmentId →
      ∀ p ∈ I.manifest.segments ++ m.segments, InOrder p e := by
  rw [hSegs]
  intro e he hGe p hp hLt
  obtain ⟨t, ht, rfl⟩ := List.mem_map.mp he
  rcases List.mem_append.mp ht with ht | ht
  · obtain ⟨s, hs, hCarried⟩ := h.carried ht
    exact absurd (hCarried.segmentId ▸ I.segmentId_lt hs) (UInt32.not_lt.mpr hGe)
  have hOld : ∀ q ∈ I.manifest.segments, q.endDoc ≤ t.entry.baseDoc.toNat :=
    fun q hq => Nat.le_trans (Index.endDoc_le_endBound hq) (h.bounds ht).1
  rcases List.mem_append.mp hp with hp | hp
  · exact hOld p hp
  · obtain ⟨s, hs, rfl⟩ := List.mem_map.mp hp
    rcases List.mem_append.mp hs with hs | hs
    · obtain ⟨u, hu, hCarried⟩ := h.carried hs
      rw [hCarried.endDoc]
      exact hOld _ (Index.mem_manifest_segments.mpr ⟨u, hu, rfl⟩)
    · exact h.tiles.inOrder h.tilesRoom s hs t ht hLt

end Amended

theorem deletedManifest_continues_iff {now : Int64} {I : Index} {ids : List DocId} :
    Continues (some I) I.manifest.segments (deletedManifest now I ids) ↔
      DeleteRoom I ids := by
  have hNext : (deletedManifest now I ids).nextSegmentId =
      I.manifest.nextSegmentId + UInt32.ofNat ([] : List Segment).length := by
    simp [deletedManifest]
  constructor
  · intro hCont
    have hTiles : Tiles (fun _ => .error .other) I.idBound I.manifest.nextSegmentId [] [] :=
      .nil _ _
    exact ⟨(amends_of_continues hTiles rfl hNext hCont).del,
      (@nextGenerationOf_eq (some I)).mp hCont.generation⟩
  · intro hRoom
    exact ⟨decode_of_ok (deletedManifest_ok hRoom),
      (@nextGenerationOf_eq (some I)).mpr hRoom.generation, UInt32.le_refl _,
      hRoom.amends.starts rfl⟩

theorem updatedManifest_continues_iff {w : World} {cfg : BuildConfig} {I : Index}
    {changes : List Change} {segs : List Segment}
    (hTiles : Tiles w.indexRead I.idBound I.manifest.nextSegmentId (toIndexOf changes) segs)
    (hLen : segs.length = segmentCount w.indexRead (toIndexOf changes) I.idBound cfg) :
    Continues (some I) I.manifest.segments (updatedManifest w I changes segs) ↔
      UpdateRoom w cfg I changes := by
  constructor
  · intro hCont
    have hOk := hCont.ok
    have hAmends := amends_of_continues hTiles rfl rfl hCont
    refine ⟨hAmends.docs, hLen ▸ hAmends.ids, ?_, hAmends.del, ?_,
      (@nextGenerationOf_eq (some I)).mp hCont.generation⟩
    · have := hOk.length_lt
      simpa [updatedManifest, updatedSegments, amendedSegments, tombstonedAll, hLen] using this
    · intro hNe
      have hState := hOk.state_iff
      have hSome : (updatedOverlay I changes).patches.isEmpty = false := by
        simpa using hNe
      simp only [updatedManifest, overlayStamp, hSome, Bool.false_eq_true, if_false] at hState
      apply toNat_succ_lt_of_ne
      exact fun hZero => (FileData.len_pos (by simp)).ne' (hState.mp hZero)
  · intro hRoom
    have hAmends := hRoom.amends hTiles hLen
    exact ⟨decode_of_ok (updatedManifest_ok hRoom hTiles hLen),
      (@nextGenerationOf_eq (some I)).mpr hRoom.generation, hAmends.next_le,
      hAmends.starts rfl⟩

-- ---------------------------------------------------------------------------
-- Merges
-- ---------------------------------------------------------------------------

theorem splicedManifest_continues_iff {now : Int64} {I : Index} {xs : List StagedMerge} :
    Continues (some I) I.manifest.segments (splicedManifest now I xs) ↔
      MergeRoom I (xs.map StagedMerge.merge) := by
  have hMem : ∀ e, e ∈ (splicedManifest now I xs).segments ↔
      ∃ s ∈ splicedSegments I xs, s.entry = e := by
    intro e
    rw [← List.mem_map]
    exact (Platform.sort_perm _ _).mem_iff
  have hNew : ∀ s ∈ mergedSegments I I.manifest.nextSegmentId
      (UInt32.ofNat (Index.endBound I.manifest.segments)) xs,
        s.entry ∈ (splicedManifest now I xs).segments :=
    fun s hs => (hMem _).mpr ⟨s, List.mem_append_right _ hs, rfl⟩
  constructor
  · intro hCont
    have hOk := hCont.ok
    have hLen : (keptEntries I.manifest (xs.map StagedMerge.merge)).length + xs.length <
        2 ^ 32 := by
      have := hOk.length_lt
      rwa [splicedManifest, sortByBase, (Platform.sort_perm _ _).length_eq,
        splicedSegments, List.map_append, keptSegments_entries, List.length_append, List.length_map,
        length_mergedSegments] at this
    have hIds : I.manifest.nextSegmentId.toNat + xs.length < 2 ^ 32 :=
      toNat_add_lt_of_le (by omega) hCont.next_le
    have hFit : MergesFit (Index.endBound I.manifest.segments) I.manifest.nextSegmentId
        (xs.map StagedMerge.merge) := by
      refine mergesFit_of_inOrder I.endBound_le_of_ok hIds (fun s hs => ?_)
        (fun s hs => (hOk.entries _ (hNew s hs)).end_le) fun s hs t ht =>
          hCont.starts _ (hNew t ht) (mergedSegments_id_ge hIds t ht) _
            (List.mem_append_right _ (hNew s hs))
      have hGe := mergedSegments_id_ge hIds s hs
      exact Index.endBound_le fun p hp => hCont.starts _ (hNew s hs) hGe p
        (List.mem_append_left _ hp)
          (UInt32.lt_of_lt_of_le (I.manifest_ok.entries p hp).id_lt hGe)
    refine ⟨hFit, by simpa using hLen, ?_,
      (@nextGenerationOf_eq (some I)).mp hCont.generation⟩
    -- The entries that are no source come first, in the order they had.
    have hChain := hOk.chain
    rw [splicedManifest, sortByBase_of_fit hFit, splicedSegments, List.map_append,
      keptSegments_entries, List.isChain_append] at hChain
    exact hChain.1.imp fun _ _ hF => hF.id_ne
  · intro hRoom
    have hIds := hRoom.fit.id_lt
    rw [List.length_map] at hIds
    refine ⟨decode_of_ok (splicedManifest_ok hRoom),
      (@nextGenerationOf_eq (some I)).mpr hRoom.generation, ?_, ?_⟩
    · change I.manifest.nextSegmentId ≤ I.manifest.nextSegmentId + UInt32.ofNat xs.length
      rw [UInt32.le_iff_toNat_le, toNat_add_ofNat hIds]
      exact Nat.le_add_right _ _
    · intro e he hGe p hp hLt
      obtain ⟨t, ht, rfl⟩ := (hMem e).mp he
      rcases List.mem_append.mp ht with ht | ht
      · exact absurd (I.segmentId_lt (List.mem_filter.mp ht).1) (UInt32.not_lt.mpr hGe)
      have hOld : ∀ q ∈ I.manifest.segments, q.endDoc ≤ t.entry.baseDoc.toNat :=
        fun q hq => Nat.le_trans (Index.endDoc_le_endBound hq)
          (mergedSegments_bounds hRoom.fit t ht).base_ge
      rcases List.mem_append.mp hp with hp | hp
      · exact hOld p hp
      · obtain ⟨s, hs, rfl⟩ := (hMem p).mp hp
        rcases List.mem_append.mp hs with hs | hs
        · exact hOld _ (Index.mem_manifest_segments.mpr ⟨s, (List.mem_filter.mp hs).1, rfl⟩)
        · exact mergedSegments_inOrder hRoom.fit s hs t ht hLt

-- ---------------------------------------------------------------------------
-- Operations
-- ---------------------------------------------------------------------------

namespace Operation

/-- The counters suffice for the operation. -/
def Room : Operation → Option Index → Prop
  | build w cfg files, prev => BuildRoom w cfg files prev
  | update w cfg files, some I => UpdateRoom w cfg I (updateChanges w I files).changes
  | update w cfg files, none => BuildRoom w cfg files none
  | delete _ ids, some I => DeleteRoom I ids
  | merge _ xs, some I => MergeRoom I (xs.map StagedMerge.merge)
  | delete _ _, none => True
  | merge _ _, none => True

/-- The segments that new ones come behind: a build starts again at document 0. -/
def beneath : Operation → Option Index → List SegmentEntry
  | build _ _ _, _ => []
  | _, prev => prev.elim [] fun I => I.manifest.segments

/-- A commit goes on from the index exactly when there is room for it. -/
theorem continues_iff {op : Operation} {retire : List FileName}
    (h : (op.plan prev).result = .ok (some (m, retire))) :
    Continues prev (op.beneath prev) m ↔ op.Room prev := by
  have hBuild : ∀ {w cfg files},
      (buildPlan w cfg files prev).result = .ok (some (m, retire)) →
        (Continues prev [] m ↔ BuildRoom w cfg files prev) := by
    intro w cfg files hRes
    obtain ⟨segs, hTiles, hLen, rfl, -, -⟩ := buildPlan_ok hRes
    exact builtManifest_continues_iff hTiles hLen
  match op, prev with
  | build w cfg files, prev => exact hBuild h
  | update w cfg files, none => exact hBuild h
  | update w cfg files, some I =>
    change (if _ then pure none else updatePlan _ _ _ _ : CommitPlan).result = _ at h
    split at h
    · simp at h
    · obtain ⟨segs, hTiles, hLen, rfl, -, -⟩ := updatePlan_ok h
      exact updatedManifest_continues_iff hTiles hLen
  | delete now ids, some I =>
    change (deletePlan now I ids).result = _ at h
    rw [deletePlan_result] at h
    split at h
    · simp only [Except.ok.injEq, Option.some.injEq, Prod.mk.injEq] at h
      rw [← h.1]
      exact deletedManifest_continues_iff
    · simp at h
  | merge now xs, some I =>
    obtain ⟨-, rfl, -, -⟩ := mergePlan_ok h
    exact splicedManifest_continues_iff
  | delete now ids, none => cases h
  | merge now xs, none => cases h

/-- The names a merge stages before it commits. -/
def stagedNames : Operation → List FileName
  | merge _ xs => xs.flatMap StagedMerge.names
  | _ => []

theorem isStaged_of_mem {op : Operation} {n : FileName} (h : n ∈ op.stagedNames) :
    n.isStaged = true := by
  cases op with
  | merge now xs =>
    obtain ⟨x, -, hn⟩ := List.mem_flatMap.mp h
    simp only [StagedMerge.names, List.mem_cons, List.not_mem_nil, or_false] at hn
    rcases hn with rfl | rfl <;> rfl
  | build | update | delete => cases h

/-- With room, an operation works on temporary and its staged files and moves them to free
names. -/
theorem plan_all {op : Operation} (hRoom : op.Room prev) :
    (op.plan prev).All (FileStep.Over prev op.stagedNames) := by
  match op, prev with
  | build w cfg files, prev => exact buildPlan_all hRoom _
  | update w cfg files, none => exact buildPlan_all hRoom _
  | update w cfg files, some I =>
    change (if _ then pure none else updatePlan _ _ _ _ : CommitPlan).All _
    split
    · exact Plan.all_pure _
    · exact updatePlan_all hRoom _
  | delete now ids, some I => exact deletePlan_all hRoom _
  | merge now xs, some I => exact mergePlan_all hRoom
  | delete now ids, none => exact Plan.all_pure _
  | merge now xs, none => exact Plan.all_pure _

omit [Platform] in
/-- Such an operation changes neither the manifest nor a file that it names. -/
theorem not_mem_touches {staged : List FileName} {step : FileStep}
    (hStaged : ∀ n ∈ staged, n.isStaged = true) (hOver : step.Over prev staged)
    {n : FileName} (hn : n = .manifest ∨ n.isData = true)
    (hFree : ∀ b, WritableOver prev b → n ≠ b) : n ∉ step.touches := by
  have hTmp : ∀ m, n ≠ .tmp m := by
    rintro m rfl
    simp [FileName.isData] at hn
  have hNotStaged : n ∉ staged := by
    intro hMem
    have := hStaged n hMem
    cases n <;> simp_all [FileName.isData, FileName.isStaged]
  cases step with
  | create b | write b f =>
    obtain ⟨m, rfl⟩ := hOver
    simpa [FileStep.touches] using hTmp m
  | sync b => simp [FileStep.touches]
  | rename a b =>
    obtain ⟨hA, hB, -⟩ := hOver
    simp only [FileStep.touches, List.mem_cons, List.not_mem_nil, or_false, not_or]
    refine ⟨?_, hFree b hB⟩
    rcases hA with ⟨m, rfl⟩ | hA
    · exact hTmp m
    · rintro rfl
      exact hNotStaged hA

/-- `d'` differs from `d` only in files that the operation works on before the rename of its
commit: it may have done a part of its work, or tidied up after a failure. -/
def Interrupted (op : Operation) (prev : Option Index) (d d' : Dir) : Prop :=
  ∀ n, n ≠ .tmp .manifest → (∀ step ∈ (op.plan prev).steps, n ∉ step.touches) →
    d'.lookup n = d.lookup n

theorem interrupted_after {op : Operation} (d : Dir) {steps : List FileStep}
    (hSteps : steps <+: (op.plan prev).steps) : op.Interrupted prev d (after d steps) :=
  fun _ _ hUntouched => lookup_after fun step hStep => hUntouched step (hSteps.subset hStep)

/-- With room, an operation that is interrupted before its commit leaves the index as it
was. -/
theorem holds_of_interrupted {op : Operation} (hRoom : op.Room prev)
    (hPrev : ∀ I ∈ prev, I.Sound) {d d' : Dir} (hHolds : d.Holds prev)
    (hInt : op.Interrupted prev d d') : d'.Holds prev := by
  have hAgree : ∀ n, (n = .manifest ∨ n.isData = true) →
      (∀ b, WritableOver prev b → n ≠ b) → d'.lookup n = d.lookup n := by
    intro n hn hFree
    refine hInt n ?_ fun step hStep =>
      not_mem_touches (fun _ => isStaged_of_mem) (plan_all hRoom step hStep) hn hFree
    rintro rfl
    simp [FileName.isData] at hn
  have hManifest : d'.lookup .manifest = d.lookup .manifest :=
    hAgree _ (.inl rfl) fun b hb => hb.ne_manifest.symm
  cases prev with
  | none => exact hManifest.trans hHolds
  | some I =>
    refine Index.Backed.of_agree hHolds hManifest ?_
    intro n hn
    refine hAgree n (.inr (Index.isData_of_mem_referencedFiles hn)) ?_
    intro b hb hEq
    exact (hPrev I rfl).not_mem_referencedFiles hb (hEq ▸ hn)

/-- What a writer commits is accepted by its own reader and goes on from the index, with no
id or generation that wraps around, exactly when there is room; with room, an operation that
is interrupted before its commit leaves the index as it was. -/
theorem committed_accepted (op : Operation) (prev : Option Index) :
    (∀ m retire, (op.plan prev).result = .ok (some (m, retire)) →
      (Continues prev (op.beneath prev) m ↔ op.Room prev)) ∧
    (op.Room prev → (∀ I ∈ prev, I.Sound) → ∀ d d' : Dir, d.Holds prev →
      op.Interrupted prev d d' → d'.Holds prev) :=
  ⟨fun _ _ h => continues_iff h, fun hRoom hPrev _ _ hHolds hInt =>
    holds_of_interrupted hRoom hPrev hHolds hInt⟩

omit [Platform] in
/-- A first build of one file, and the directory wherever it stops. -/
theorem committed_accepted_small : ∃ _ : Platform, ∃ m retire,
    let op := build (LiveHistory.smallWorld [LiveHistory.smallFile]) LiveHistory.smallConfig
      [LiveHistory.smallFile]
    (op.plan none).result = .ok (some (m, retire)) ∧ Continues none [] m ∧
      ∀ steps, steps <+: (op.plan none).steps → (after ∅ steps).Holds none := by
  refine ⟨Platform.reference, ?_⟩
  let _ := Platform.reference
  obtain ⟨hOk, hRoom⟩ := LiveHistory.small_builds (.inr rfl)
  obtain ⟨m, retire, hRes⟩ := buildPlan_result_of_isOk hOk
  obtain ⟨hCommits, hStops⟩ := committed_accepted (build (LiveHistory.smallWorld
    [LiveHistory.smallFile]) LiveHistory.smallConfig [LiveHistory.smallFile]) none
  refine ⟨m, retire, hRes, (hCommits m retire hRes).mpr hRoom, fun steps hSteps => ?_⟩
  exact hStops hRoom (by simp) ∅ _ (AList.lookup_empty _) (interrupted_after ∅ hSteps)

omit [Platform] in
theorem lastIdIndex_entries : ([] : List Segment).map Segment.entry = [] := rfl

/-- An empty index whose segment ids are used up but for the last one. -/
def lastIdIndex : Index where
  manifest := ⟨1, 4294967295, 0, 0, 0, 0, []⟩
  segments := []
  overlay := Overlay.empty
  entries_eq := lastIdIndex_entries
  manifest_ok := ⟨by decide, by decide, by simp, .nil⟩

omit [Platform] in
/-- The last id is given to a segment and the next one wraps around to 0, below it: the
manifest of the build is rejected. -/
theorem build_over_lastId_rejected : ∃ _ : Platform, ¬ ∀ (op : Operation) (I : Index)
    (m : Manifest) (retire : List FileName),
      (op.plan (some I)).result = .ok (some (m, retire)) →
        m.decode Format.formatVersion = .ok m := by
  refine ⟨Platform.reference, fun hAll => ?_⟩
  let _ := Platform.reference
  have hOk : (buildPlan (LiveHistory.smallWorld [LiveHistory.smallFile])
      LiveHistory.smallConfig [LiveHistory.smallFile] (some lastIdIndex)).result.isOk =
        true := by
    decide +kernel
  obtain ⟨m, retire, hRes⟩ := buildPlan_result_of_isOk hOk
  have hAccepted := hAll (build _ _ _) lastIdIndex m retire hRes
  obtain ⟨segs, hTiles, hLen, rfl, -, -⟩ := buildPlan_ok hRes
  have hOne : segs.length = 1 := by
    rw [hLen]
    decide +kernel
  obtain ⟨s, rfl⟩ := List.length_eq_one_iff.mp hOne
  have hLt := (Manifest.decode_ok_iff.mp hAccepted).2.1.entries s.entry (by
    simp [builtManifest]) |>.id_lt
  have hNext : (builtManifest (LiveHistory.smallWorld [LiveHistory.smallFile])
      (some lastIdIndex) [s]).nextSegmentId = 0 := by
    change (4294967295 : UInt32) + UInt32.ofNat 1 = 0
    decide
  rw [hNext] at hLt
  exact UInt32.not_lt_zero hLt

end Operation

/-- An index that has given out all segment ids but the last. -/
def Index.withLastId (I : Index) : Index where
  manifest := { I.manifest with nextSegmentId := 0xFFFFFFFF }
  segments := I.segments
  overlay := I.overlay
  entries_eq := I.entries_eq
  manifest_ok := by
    refine ⟨I.manifest_ok.state_iff, I.manifest_ok.length_lt, fun e he => ?_, I.manifest_ok.chain⟩
    obtain ⟨hId, hEnd, hDel, hCount⟩ := I.manifest_ok.entries e he
    refine ⟨?_, hEnd, hDel, hCount⟩
    rw [UInt32.lt_iff_toNat_lt] at hId ⊢
    have := I.manifest.nextSegmentId.toNat_lt
    change e.segmentId.toNat < 2 ^ 32 - 1
    omega

theorem Index.Backed.withLastId {I : Index} {d : Dir} (h : I.Backed d) :
    I.withLastId.Backed (d.insert .manifest (manifestFile I.withLastId.manifest)) := by
  have hSame : ∀ n ∈ referencedFiles I.manifest,
      (d.insert .manifest (manifestFile I.withLastId.manifest) : Dir).lookup n = d.lookup n := by
    intro n hn
    rw [Dir.lookup_insert, if_neg]
    rintro rfl
    simpa [FileName.isData] using Index.isData_of_mem_referencedFiles hn
  refine ⟨by rw [Dir.lookup_insert, if_pos rfl], fun s hs => ?_, fun hGen => ?_, h.no_overlay⟩
  · exact (h.segments s hs).of_agree fun n hn =>
      hSame n (Index.mem_referencedFiles.mpr (.inl ⟨s, hs, hn⟩))
  · exact (h.overlay hGen).of_agree (hSame _ (Index.mem_referencedFiles.mpr (.inr ⟨hGen, rfl⟩)))

end Ripindex
