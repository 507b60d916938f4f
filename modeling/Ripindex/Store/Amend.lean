import Ripindex.Store.Commits

/-!
# Updates and deletions

An update and a deletion keep the segments of the index, with some documents tombstoned,
and an update adds new segments behind them. `Amends` states when the counters suffice
for that; the index is then extended in place.

## Results

* `updatePlan_gives`, `deletePlan_gives` — with room, a plan that ends in a commit gives
  the amended index;
* `updatePlan_all`, `deletePlan_all` — what the operations touch.
-/

namespace Ripindex

variable [Platform]

-- ---------------------------------------------------------------------------
-- Amended segments
-- ---------------------------------------------------------------------------

/-- The segments of an index after tombstones, and new ones behind them. -/
def amendedSegments (I : Index) (locals : Nat → List DocId) (segs : List Segment) :
    List Segment :=
  tombstonedAll locals 0 I.segments ++ segs

/-- The new segments tile `files` behind `I`, and the counters suffice. -/
structure Amends (I : Index) (locals : Nat → List DocId) (read : ReadFile)
    (files : List CrawledFile) (segs : List Segment) : Prop where
  tiles : Tiles read I.idBound I.manifest.nextSegmentId files segs
  docs : Index.endBound I.manifest.segments + files.length ≤ 2 ^ 32
  ids : I.manifest.nextSegmentId.toNat + segs.length < 2 ^ 32
  del : HasDelRoomAll locals 0 I.segments

omit [Platform] in
theorem Index.toNat_idBound {I : Index} {n : Nat}
    (h : Index.endBound I.manifest.segments + n ≤ 2 ^ 32) (hn : 0 < n) :
    I.idBound.toNat = Index.endBound I.manifest.segments := by
  have hMin : min (Index.endBound I.manifest.segments) (2 ^ 32 - 1) =
      Index.endBound I.manifest.segments := by omega
  unfold idBound
  rw [hMin, UInt32.toNat_ofNat_of_lt' (by omega : Index.endBound _ < 2 ^ 32)]

namespace Amends

variable {I : Index} {locals : Nat → List DocId} {read : ReadFile}
  {files : List CrawledFile} {segs : List Segment}

theorem tilesRoom (h : Amends I locals read files segs) :
    TilesRoom I.idBound I.manifest.nextSegmentId files segs where
  docs := by
    rcases Nat.eq_zero_or_pos files.length with hZero | hPos
    · have := I.idBound.toNat_lt
      omega
    · rw [Index.toNat_idBound h.docs hPos]
      exact h.docs
  ids := h.ids

theorem bounds (h : Amends I locals read files segs) {s : Segment} (hs : s ∈ segs) :
    Index.endBound I.manifest.segments ≤ s.entry.baseDoc.toNat ∧
      s.entry.endDoc ≤ Index.endBound I.manifest.segments + files.length ∧
      I.manifest.nextSegmentId ≤ s.entry.segmentId := by
  have hPos : 0 < files.length := List.length_pos_iff.mpr fun hNil => by
    rw [h.tiles.segs_eq_nil hNil] at hs
    cases hs
  obtain ⟨hBase, hEnd, hId, -⟩ := h.tiles.bounds h.tilesRoom s hs
  rw [Index.toNat_idBound h.docs hPos] at hBase hEnd
  exact ⟨hBase, hEnd, UInt32.le_iff_toNat_le.mpr hId⟩

theorem next_le (h : Amends I locals read files segs) :
    I.manifest.nextSegmentId ≤ I.manifest.nextSegmentId + UInt32.ofNat segs.length := by
  rw [UInt32.le_iff_toNat_le, toNat_add_ofNat h.ids]
  exact Nat.le_add_right _ _

theorem carried (h : Amends I locals read files segs) {t : Segment}
    (ht : t ∈ tombstonedAll locals 0 I.segments) : ∃ s ∈ I.segments, s.Carried t := by
  obtain ⟨p, hp, rfl⟩ := mem_tombstonedAll.mp ht
  exact ⟨p.1, List.fst_mem_of_mem_zipIdx hp, Segment.carried_tombstoned (h.del p hp)⟩

/-- The entries follow one another. -/
theorem chain (h : Amends I locals read files segs) :
    ((amendedSegments I locals segs).map Segment.entry).IsChain Manifest.Follows := by
  unfold amendedSegments
  rw [List.map_append, List.isChain_append]
  refine ⟨?_, h.tiles.chain h.tilesRoom, ?_⟩
  · -- Tombstones change neither ids nor ranges.
    have hKey : ∀ l : List Segment, (l.map Segment.entry).IsChain Manifest.Follows ↔
        (l.map fun s => (s.entry.endDoc, s.entry.baseDoc, s.entry.segmentId)).IsChain
          fun p e => p.1 ≤ e.2.1.toNat ∧ e.2.2 ≠ p.2.2 := by
      intro l
      rw [List.isChain_map, List.isChain_map]
      exact List.IsChain.iff fun p e =>
        ⟨fun h => ⟨h.base_ge, h.id_ne⟩, fun h => ⟨h.1, h.2⟩⟩
    rw [hKey, map_tombstonedAll locals 0 I.segments (by simp), ← hKey, I.entries_eq]
    exact I.manifest_ok.chain
  · intro p hp e he
    obtain ⟨t, ht, rfl⟩ := List.mem_map.mp (List.mem_of_mem_getLast? hp)
    obtain ⟨s, hs, rfl⟩ := List.mem_map.mp (List.mem_of_mem_head? he)
    obtain ⟨u, hu, hCarried⟩ := h.carried ht
    obtain ⟨hBase, -, hId⟩ := h.bounds hs
    refine ⟨?_, fun hEq => ?_⟩
    · rw [hCarried.endDoc]
      exact Nat.le_trans (Index.endDoc_le_endBound
        (Index.mem_manifest_segments.mpr ⟨u, hu, rfl⟩)) hBase
    · rw [hEq, hCarried.segmentId] at hId
      exact UInt32.not_lt.mpr hId (I.segmentId_lt hu)

/-- A manifest that lists the amended segments is acceptable. -/
theorem manifest_ok (h : Amends I locals read files segs) {m : Manifest}
    (hSegs : m.segments = (amendedSegments I locals segs).map Segment.entry)
    (hNext : m.nextSegmentId = I.manifest.nextSegmentId + UInt32.ofNat segs.length)
    (hState : m.stateGen = 0 ↔ m.stateLen = 0)
    (hLen : I.segments.length + segs.length < 2 ^ 32) : m.Ok where
  state_iff := hState
  length_lt := by
    rw [hSegs]
    simpa [amendedSegments, tombstonedAll] using hLen
  entries := by
    intro e he
    rw [hSegs] at he
    obtain ⟨t, ht, rfl⟩ := List.mem_map.mp he
    rw [hNext]
    rcases List.mem_append.mp ht with ht | ht
    · obtain ⟨p, hp, rfl⟩ := mem_tombstonedAll.mp ht
      have hMem := Index.mem_manifest_segments.mpr
        ⟨p.1, List.fst_mem_of_mem_zipIdx hp, rfl⟩
      have hOk := I.manifest_ok.entries _ hMem
      exact Segment.entryOk_tombstoned
        ⟨UInt32.lt_of_lt_of_le hOk.id_lt h.next_le, hOk.end_le, hOk.del_iff, hOk.deleted_le⟩
        (h.del p hp)
    · exact h.tiles.entryOk h.tilesRoom ht
  chain := hSegs ▸ h.chain

variable {J : Index}

theorem sound (h : Amends I locals read files segs) (hI : I.Sound)
    (hJ : J.segments = amendedSegments I locals segs) : J.Sound where
  ids_nodup := by
    rw [hJ]
    unfold amendedSegments
    rw [List.map_append, map_tombstonedAll locals 0 I.segments (by simp)]
    refine List.nodup_append.mpr ⟨hI.ids_nodup, h.tiles.ids_nodup h.tilesRoom, ?_⟩
    intro a ha b hb hEq
    obtain ⟨s, hs, rfl⟩ := List.mem_map.mp ha
    obtain ⟨t, ht, rfl⟩ := List.mem_map.mp hb
    exact UInt32.not_lt.mpr (h.bounds ht).2.2 (hEq ▸ I.segmentId_lt hs)
  numDeleted := by
    rw [hJ]
    intro t ht hNone
    rcases List.mem_append.mp ht with ht | ht
    · obtain ⟨p, hp, rfl⟩ := mem_tombstonedAll.mp ht
      unfold Segment.tombstoned at hNone ⊢
      split at hNone
      · cases hNone
      · rename_i hChange
        rw [if_neg hChange]
        exact hI.numDeleted p.1 (List.fst_mem_of_mem_zipIdx hp) hNone
    · exact (h.tiles.flushed t ht).numDeleted

theorem grows (h : Amends I locals read files segs)
    (hJ : J.segments = amendedSegments I locals segs)
    (hNext : J.manifest.nextSegmentId =
      I.manifest.nextSegmentId + UInt32.ofNat segs.length) : I.Grows J where
  next_le := hNext ▸ h.next_le
  carried := by
    rw [hJ]
    intro t ht hLt
    rcases List.mem_append.mp ht with ht | ht
    · exact h.carried ht
    · exact absurd hLt (UInt32.not_lt.mpr (h.bounds ht).2.2)
  bound_le := by
    have hEq : Index.endBound J.manifest.segments =
        max (Index.endBound I.manifest.segments)
          (Index.endBound (segs.map Segment.entry)) := by
      rw [← J.entries_eq, hJ, amendedSegments, List.map_append, Index.endBound_append,
        endBound_tombstonedAll, I.entries_eq]
    rw [hEq]
    exact Nat.le_max_left _ _
  base_ge := by
    rw [hJ]
    intro t ht hGe
    rcases List.mem_append.mp ht with ht | ht
    · obtain ⟨s, hs, hCarried⟩ := h.carried ht
      exact absurd (hCarried.segmentId ▸ I.segmentId_lt hs) (UInt32.not_lt.mpr hGe)
    · exact (h.bounds ht).1

/-- All segments of `I` are still there. -/
theorem kept (h : Amends I locals read files segs)
    (hJ : J.segments = amendedSegments I locals segs) :
    ∀ s ∈ I.segments, ∃ t ∈ J.segments, s.Carried t := by
  intro s hs
  obtain ⟨i, hAt⟩ := List.getElem?_of_mem hs
  have hi : (s, i) ∈ I.segments.zipIdx := List.mk_mem_zipIdx_iff_getElem?.mpr hAt
  refine ⟨s.tombstoned (locals i), ?_, Segment.carried_tombstoned (h.del _ hi)⟩
  rw [hJ]
  exact List.mem_append_left _ (mem_tombstonedAll.mpr ⟨_, hi, rfl⟩)

/-- The amended segments are in a directory with the files of `I` and the new ones. -/
theorem backed (h : Amends I locals read files segs) {d d' : Dir}
    (hI : ∀ s ∈ I.segments, s.Backed d)
    (hAgree : ∀ n ∈ referencedFiles I.manifest, d'.lookup n = d.lookup n)
    (hFiles : ∀ f ∈ newFilesOf segs ++ delFilesAll locals 0 I.segments,
      d'.lookup f.1 = some f.2) :
    ∀ t ∈ amendedSegments I locals segs, t.Backed d' := by
  intro t ht
  rcases List.mem_append.mp ht with ht | ht
  · obtain ⟨p, hp, rfl⟩ := mem_tombstonedAll.mp ht
    have hMem := List.fst_mem_of_mem_zipIdx hp
    refine (hI p.1 hMem).tombstoned (h.del p hp) (fun f hf => ?_) fun n hn =>
      hAgree n (Index.mem_referencedFiles.mpr (.inl ⟨p.1, hMem, hn⟩))
    exact hFiles f (List.mem_append_right _ (List.mem_flatMap.mpr ⟨p, hp, hf⟩))
  · exact (h.tiles.flushed t ht).backed
      (hFiles _ (List.mem_append_left _ (mem_newFilesOf.mpr ⟨t, ht, .inl rfl⟩)))
      (hFiles _ (List.mem_append_left _ (mem_newFilesOf.mpr ⟨t, ht, .inr rfl⟩)))

/-- A retired deletions file is named by no amended segment. -/
theorem retiredDels_not_mem (h : Amends I locals read files segs) (hI : I.Sound)
    {n : FileName} (hn : n ∈ retiredDels locals 0 I.segments) :
    (∃ id gen, n = .del id gen) ∧
      ∀ t ∈ amendedSegments I locals segs, n ∉ segmentFiles t.entry := by
  obtain ⟨p, hp, hn⟩ := List.mem_flatMap.mp hn
  unfold Segment.retiredDel at hn
  split at hn
  · rename_i hChange
    obtain rfl := List.mem_singleton.mp hn
    refine ⟨⟨_, _, rfl⟩, fun t ht hFile => ?_⟩
    have hMem := List.fst_mem_of_mem_zipIdx hp
    have hDel : p.1.entry.segmentId = t.entry.segmentId ∧
        p.1.entry.delGen = t.entry.delGen := by
      simpa [mem_segmentFiles] using (mem_segmentFiles.mp hFile).resolve_left (by simp)
        |>.resolve_left (by simp) |>.2
    rcases List.mem_append.mp ht with ht | ht
    · obtain ⟨q, hq, rfl⟩ := mem_tombstonedAll.mp ht
      have hSame : p.1 = q.1 := hI.eq_of_segmentId hMem (List.fst_mem_of_mem_zipIdx hq)
        (by simpa using hDel.1)
      have hAt := List.mem_zipIdx_iff_getElem?.mp hp
      have hIdx : p.2 = q.2 := by
        refine (List.getElem?_inj (List.getElem?_eq_some_iff.mp hAt).1
          (List.Nodup.of_map _ hI.ids_nodup)).mp ?_
        rw [hAt, List.mem_zipIdx_iff_getElem?.mp hq, hSame]
      obtain rfl : p = q := Prod.ext hSame hIdx
      have hGen := congrArg UInt32.toNat hDel.2
      have hRoom := h.del p hp hChange.1
      rw [Segment.tombstoned, if_pos hChange.1] at hGen
      simp only [Segment.withDel, SegmentEntry.withDel, UInt32.toNat_add,
        UInt32.toNat_one] at hGen
      omega
    · exact absurd (hDel.1 ▸ I.segmentId_lt hMem) (UInt32.not_lt.mpr (h.bounds ht).2.2)
  · cases hn

end Amends

omit [Platform] in
theorem mem_delFilesAll {locals : Nat → List DocId} {i : Nat} {segs : List Segment}
    {f : FileName × FileData} :
    f ∈ delFilesAll locals i segs ↔ ∃ p ∈ segs.zipIdx i, p.1.changes (locals p.2) ∧
      f = (.del p.1.entry.segmentId (p.1.entry.delGen + 1),
        .del (p.1.newBitmap (locals p.2))) := by
  unfold delFilesAll Segment.delFiles
  simp only [List.mem_flatMap]
  constructor
  · rintro ⟨p, hp, hf⟩
    split at hf
    · exact ⟨p, hp, ‹_›, List.mem_singleton.mp hf⟩
    · cases hf
  · rintro ⟨p, hp, hChange, rfl⟩
    exact ⟨p, hp, by rw [if_pos hChange]; exact List.mem_singleton_self _⟩

omit [Platform] in
theorem isData_delFilesAll {locals : Nat → List DocId} {i : Nat} {segs : List Segment}
    {f : FileName × FileData} (hf : f ∈ delFilesAll locals i segs) : f.1.isData := by
  obtain ⟨p, -, -, rfl⟩ := mem_delFilesAll.mp hf
  rfl

omit [Platform] in
/-- New deletions files of segments with distinct ids have distinct names. -/
theorem nodup_delFilesAll {locals : Nat → List DocId} {i : Nat} {segs : List Segment}
    (h : (segs.map fun s => s.entry.segmentId).Nodup) :
    ((delFilesAll locals i segs).map Prod.fst).Nodup := by
  induction segs generalizing i with
  | nil => simp [delFilesAll]
  | cons s segs ih =>
    obtain ⟨hNot, hNodup⟩ := List.nodup_cons.mp h
    have hCons : delFilesAll locals i (s :: segs) =
        s.delFiles (locals i) ++ delFilesAll locals (i + 1) segs := rfl
    rw [hCons, List.map_append]
    refine List.nodup_append.mpr ⟨?_, ih hNodup, ?_⟩
    · unfold Segment.delFiles
      split <;> simp
    · intro a ha b hb hEq
      obtain ⟨f, hf, rfl⟩ := List.mem_map.mp ha
      obtain ⟨g, hg, rfl⟩ := List.mem_map.mp hb
      unfold Segment.delFiles at hf
      split at hf
      · obtain rfl := List.mem_singleton.mp hf
        obtain ⟨p, hp, -, rfl⟩ := mem_delFilesAll.mp hg
        exact hNot (List.mem_map.mpr ⟨p.1, List.fst_mem_of_mem_zipIdx hp,
          (FileName.del.inj hEq).1.symm⟩)
      · cases hf

omit [Platform] in
/-- With room, the names of new deletions files are free. -/
theorem writable_delFilesAll {I : Index} {locals : Nat → List DocId}
    (hRoom : HasDelRoomAll locals 0 I.segments) {f : FileName × FileData}
    (hf : f ∈ delFilesAll locals 0 I.segments) : I.Writable f.1 := by
  obtain ⟨p, hp, hChange, rfl⟩ := mem_delFilesAll.mp hf
  refine .inr ⟨p.1, List.fst_mem_of_mem_zipIdx hp, rfl, ?_⟩
  have := hRoom p hp hChange
  rw [UInt32.lt_iff_toNat_lt, UInt32.toNat_add, UInt32.toNat_one]
  omega

-- ---------------------------------------------------------------------------
-- Deleting
-- ---------------------------------------------------------------------------

/-- The counters suffice for a deletion. -/
structure DeleteRoom (I : Index) (ids : List DocId) : Prop where
  del : HasDelRoomAll (localsOf I ids) 0 I.segments
  generation : I.manifest.generation.toNat + 1 < 2 ^ 64

/-- The manifest of a deletion. -/
def deletedManifest (now : Int64) (I : Index) (ids : List DocId) : Manifest :=
  { I.manifest with
    segments := (amendedSegments I (localsOf I ids) []).map Segment.entry
    generation := I.manifest.generation + 1
    committedUnixNanos := now }

/-- The index a deletion commits. -/
def deletedIndex (now : Int64) (I : Index) (ids : List DocId)
    (h : (deletedManifest now I ids).Ok) : Index where
  manifest := deletedManifest now I ids
  segments := amendedSegments I (localsOf I ids) []
  overlay := I.overlay
  entries_eq := rfl
  manifest_ok := h

/-- A deletion adds no segments. -/
theorem amends_of_del {I : Index} {ids : List DocId}
    (h : HasDelRoomAll (localsOf I ids) 0 I.segments) :
    Amends I (localsOf I ids) (fun _ => .error .other) [] [] where
  tiles := .nil _ _
  docs := I.endBound_le_of_ok
  ids := I.manifest.nextSegmentId.toNat_lt
  del := h

theorem DeleteRoom.amends {I : Index} {ids : List DocId} (h : DeleteRoom I ids) :
    Amends I (localsOf I ids) (fun _ => .error .other) [] [] :=
  amends_of_del h.del

theorem deletePlan_result (now : Int64) (I : Index) (ids : List DocId) :
    (deletePlan now I ids).result = .ok
      (if changesAny (localsOf I ids) 0 I.segments then
        some (deletedManifest now I ids, retiredDels (localsOf I ids) 0 I.segments)
      else none) := by
  unfold deletePlan
  refine Plan.bind_ok.mpr ⟨_, tombstoneAll_result _ _ _, ?_⟩
  cases h : changesAny (localsOf I ids) 0 I.segments with
  | false => simp
  | true => simp [deletedManifest, amendedSegments]

theorem deletePlan_installs (now : Int64) (I : Index) (ids : List DocId) :
    (deletePlan now I ids).Installs (delFilesAll (localsOf I ids) 0 I.segments) := by
  unfold deletePlan
  rw [← List.append_nil (delFilesAll _ _ _)]
  refine (tombstoneAll_installs _ _ _).bind (tombstoneAll_result _ _ _) ?_
  change (if _ then _ else _ : CommitPlan).Installs []
  split
  · exact Plan.installs_pure _
  · exact Plan.installs_pure _

theorem deletedManifest_ok {now : Int64} {I : Index} {ids : List DocId}
    (hRoom : DeleteRoom I ids) : (deletedManifest now I ids).Ok :=
  hRoom.amends.manifest_ok rfl (by simp [deletedManifest]) I.manifest_ok.state_iff (by
    have := I.manifest_ok.length_lt
    rw [← I.entries_eq, List.length_map] at this
    simpa using this)

/-- Carrying out a deletion where the files of `I` are gives the index with its
tombstones, whichever manifest was there. -/
theorem deletedIndex_backed {now : Int64} {I : Index} {ids : List DocId} (hI : I.Sound)
    (hDel : HasDelRoomAll (localsOf I ids) 0 I.segments)
    (hOk : (deletedManifest now I ids).Ok) {d : Dir} (hSegs : ∀ s ∈ I.segments, s.Backed d)
    (hOv : 0 < I.manifest.stateGen → FileIs d (.overlay I.manifest.stateGen)
      (.overlay I.overlay) I.manifest.stateLen I.manifest.stateCrc)
    (hNo : I.manifest.stateGen = 0 → I.overlay = Overlay.empty) :
    (deletedIndex now I ids hOk).Backed
      (d.committed (deletePlan now I ids).steps (deletedManifest now I ids)) := by
  have hAmends := amends_of_del hDel
  have hInst := deletePlan_installs now I ids
  have hAgree : ∀ n ∈ referencedFiles I.manifest, (d.committed
      (deletePlan now I ids).steps (deletedManifest now I ids)).lookup n =
        d.lookup n := by
    intro n hn
    refine hInst.lookup_committed_of_not_mem d _ (Index.isData_of_mem_referencedFiles hn)
      fun f hf hEq => ?_
    exact hI.not_mem_referencedFiles (writable_delFilesAll hDel hf) (hEq ▸ hn)
  refine ⟨?_, ?_, ?_, hNo⟩
  · rw [Dir.lookup_committed, if_pos rfl]
    rfl
  · refine hAmends.backed hSegs hAgree fun f hf => ?_
    exact hInst.lookup_committed d _ (fun _ => isData_delFilesAll)
      (nodup_delFilesAll hI.ids_nodup) hf
  · intro hGen
    exact (hOv hGen).of_agree
      (hAgree _ (Index.mem_referencedFiles.mpr (.inr ⟨hGen, rfl⟩)))

/-- What a deletion retires is named by no manifest afterwards. -/
theorem deletedIndex_retires {now : Int64} {I : Index} {ids : List DocId} (hI : I.Sound)
    (hDel : HasDelRoomAll (localsOf I ids) 0 I.segments)
    (hOk : (deletedManifest now I ids).Ok) {n : FileName}
    (hn : n ∈ retiredDels (localsOf I ids) 0 I.segments) :
    n.isData ∧ n ∉ referencedFiles (deletedManifest now I ids) := by
  obtain ⟨⟨id, gen, rfl⟩, hNot⟩ := (amends_of_del hDel).retiredDels_not_mem hI hn
  refine ⟨rfl, fun hMem => ?_⟩
  rcases (Index.mem_referencedFiles (I := deletedIndex now I ids hOk)).mp hMem with
    ⟨t, ht, hFile⟩ | ⟨-, hEq⟩
  · exact hNot t ht hFile
  · cases hEq

/-- With room, a deletion that ends in a commit gives the index with its tombstones. -/
theorem deletePlan_gives {now : Int64} {I : Index} {ids : List DocId} {m : Manifest}
    {retire : List FileName} (hI : I.Sound)
    (h : (deletePlan now I ids).result = .ok (some (m, retire)))
    (hRoom : DeleteRoom I ids) :
    m = deletedManifest now I ids ∧
      (deletePlan now I ids).Gives (some I) []
        (deletedIndex now I ids (deletedManifest_ok hRoom)) retire := by
  have hEq := h
  rw [deletePlan_result] at hEq
  split at hEq
  · simp only [Except.ok.injEq, Option.some.injEq, Prod.mk.injEq] at hEq
    obtain ⟨rfl, rfl⟩ := hEq
    have hAmends := hRoom.amends
    refine ⟨rfl, h, hAmends.sound hI rfl, ?_, ?_, ?_⟩
    · rintro _ ⟨⟩
      exact (hAmends.grows rfl (by simp [deletedIndex, deletedManifest])).toEvolves
    · intro d hBacked _
      have hB := hBacked I rfl
      exact deletedIndex_backed hI hRoom.del _ hB.segments hB.overlay hB.no_overlay
    · intro n hn
      exact deletedIndex_retires hI hRoom.del (deletedManifest_ok hRoom) hn
  · simp at hEq

omit [Platform] in
/-- A plan that installs data files under free names keeps to what a writer may touch. -/
theorem Plan.Installs.all_over {α : Type} {p : Plan α} {fs : List (FileName × FileData)}
    {prev : Option Index} (h : p.Installs fs)
    (hFs : ∀ f ∈ fs, WritableOver prev f.1 ∧ f.1.isData) (staged : List FileName) :
    p.All (FileStep.Over prev staged) := by
  intro step hStep
  rw [h] at hStep
  obtain ⟨f, hf, hStep⟩ := List.mem_flatMap.mp hStep
  exact Plan.all_writeFinal (hFs f hf).1 (hFs f hf).2 f.2 step hStep

theorem deletePlan_all {now : Int64} {I : Index} {ids : List DocId}
    (hRoom : DeleteRoom I ids) (staged : List FileName) :
    (deletePlan now I ids).All (FileStep.Over (some I) staged) := by
  refine (deletePlan_installs now I ids).all_over (fun f hf => ⟨?_, ?_⟩) staged
  · exact writable_delFilesAll hRoom.del hf
  · exact isData_delFilesAll hf

-- ---------------------------------------------------------------------------
-- Updating
-- ---------------------------------------------------------------------------

/-- The overlay of an update. -/
def updatedOverlay (I : Index) (changes : List Change) : Overlay :=
  mergeOverlay I.overlay (patchesOf changes) (deletesOf changes)

/-- Generation, checksum and length of the overlay after generation `prevGen`. -/
def overlayStamp (prevGen : UInt32) (o : Overlay) : UInt32 × UInt32 × Nat :=
  if o.patches.isEmpty then (0, 0, 0)
  else (prevGen + 1, (FileData.overlay o).crc, (FileData.overlay o).len)

omit [Platform] in
/-- The overlay file written after generation `prevGen`. -/
def overlayFiles (prevGen : UInt32) (o : Overlay) : List (FileName × FileData) :=
  if o.patches.isEmpty then [] else [(.overlay (prevGen + 1), .overlay o)]

/-- The counters suffice for an update. -/
structure UpdateRoom (w : World) (cfg : BuildConfig) (I : Index) (changes : List Change) :
    Prop where
  docs : Index.endBound I.manifest.segments + (toIndexOf changes).length ≤ 2 ^ 32
  ids : I.manifest.nextSegmentId.toNat +
    segmentCount w.indexRead (toIndexOf changes) I.idBound cfg < 2 ^ 32
  length : I.segments.length +
    segmentCount w.indexRead (toIndexOf changes) I.idBound cfg < 2 ^ 32
  del : HasDelRoomAll (localsOf I (deletesOf changes)) 0 I.segments
  overlay : (updatedOverlay I changes).patches ≠ [] →
    I.manifest.stateGen.toNat + 1 < 2 ^ 32
  generation : I.manifest.generation.toNat + 1 < 2 ^ 64

/-- The segments of an update. -/
def updatedSegments (I : Index) (changes : List Change) (segs : List Segment) :
    List Segment :=
  amendedSegments I (localsOf I (deletesOf changes)) segs

/-- The manifest of an update that wrote the segments `segs`. -/
def updatedManifest (w : World) (I : Index) (changes : List Change) (segs : List Segment) :
    Manifest :=
  let stamp := overlayStamp I.manifest.stateGen (updatedOverlay I changes)
  { generation := I.manifest.generation + 1
    nextSegmentId := I.manifest.nextSegmentId + UInt32.ofNat segs.length
    committedUnixNanos := w.now
    stateGen := stamp.1
    stateCrc := stamp.2.1
    stateLen := stamp.2.2
    segments := (updatedSegments I changes segs).map Segment.entry }

/-- The files an update retires. -/
def updateRetired (I : Index) (changes : List Change) : List FileName :=
  let gen := (overlayStamp I.manifest.stateGen (updatedOverlay I changes)).1
  retiredDels (localsOf I (deletesOf changes)) 0 I.segments ++
    if 0 < I.manifest.stateGen ∧ I.manifest.stateGen ≠ gen then
      [.overlay I.manifest.stateGen]
    else []

omit [Platform] in
/-- The files an update writes. -/
def updatedFiles (I : Index) (changes : List Change) (segs : List Segment) :
    List (FileName × FileData) :=
  newFilesOf segs ++ (delFilesAll (localsOf I (deletesOf changes)) 0 I.segments ++
    overlayFiles I.manifest.stateGen (updatedOverlay I changes))

/-- The index an update commits. -/
def updatedIndex (w : World) (I : Index) (changes : List Change) (segs : List Segment)
    (h : (updatedManifest w I changes segs).Ok) : Index where
  manifest := updatedManifest w I changes segs
  segments := updatedSegments I changes segs
  overlay := updatedOverlay I changes
  entries_eq := rfl
  manifest_ok := h

theorem writeOverlay_ok {prevGen : UInt32} {o : Overlay} {stamp : UInt32 × UInt32 × Nat}
    (h : (writeOverlay prevGen o).result = .ok stamp) :
    stamp = overlayStamp prevGen o ∧
      (writeOverlay prevGen o).Installs (overlayFiles prevGen o) := by
  unfold writeOverlay overlayStamp overlayFiles at *
  split at h
  · rename_i hEmpty
    simp only [Plan.pure_result, Except.ok.injEq] at h
    simp only [hEmpty, if_true]
    exact ⟨h.symm, Plan.installs_pure _⟩
  · rename_i hEmpty
    obtain ⟨o', hEnc, hRest⟩ := Plan.bind_ok.mp h
    obtain rfl : o = o' := (Overlay.encode_ok (Plan.ofFormat_result_ok.mp hEnc)).symm
    obtain ⟨-, -, hPure⟩ := Plan.bind_ok.mp hRest
    simp only [Plan.pure_result, Except.ok.injEq] at hPure
    simp only [hEmpty, if_false, Bool.false_eq_true]
    refine ⟨hPure.symm, Plan.Installs.ofFormat_bind (Plan.ofFormat_result_ok.mp hEnc) ?_⟩
    have hFiles : [(FileName.overlay (prevGen + 1), FileData.overlay o)] =
        [(FileName.overlay (prevGen + 1), FileData.overlay o)] ++ [] := rfl
    rw [hFiles]
    exact (Plan.installs_writeFinal _ _).bind (Plan.writeFinal_result _ _)
      (Plan.installs_pure _)

theorem segmentCount_nil (read : ReadFile) (base : DocId) (cfg : BuildConfig) :
    segmentCount read [] base cfg = 0 := rfl

theorem updateSegments_ok {w : World} {cfg : BuildConfig} {I : Index}
    {files : List CrawledFile} {entries : List SegmentEntry} {nextId : UInt32}
    (h : (updateSegments w cfg I files).result = .ok (entries, nextId)) :
    ∃ segs, entries = segs.map Segment.entry ∧
      nextId = I.manifest.nextSegmentId + UInt32.ofNat segs.length ∧
      Tiles w.indexRead I.idBound I.manifest.nextSegmentId files segs ∧
      segs.length = segmentCount w.indexRead files I.idBound cfg ∧
      (updateSegments w cfg I files).Installs (newFilesOf segs) := by
  unfold updateSegments at *
  split at h
  · rename_i hEmpty
    obtain rfl : files = [] := by simpa using hEmpty
    simp only [Plan.pure_result, Except.ok.injEq, Prod.mk.injEq] at h
    rw [if_pos hEmpty]
    exact ⟨[], by simp [← h.1], by simp [← h.2], .nil _ _, (segmentCount_nil _ _ _).symm,
      Plan.installs_pure _⟩
  · rename_i hEmpty
    rw [if_neg hEmpty]
    obtain ⟨segs, rfl, rfl, hTiles, hInst⟩ := buildSegments_tiles h
    exact ⟨segs, rfl, rfl, hTiles, by simpa using buildSegments_count h, hInst⟩

/-- An update that ends in a commit has written new segments for the files to index. -/
theorem updatePlan_ok {w : World} {cfg : BuildConfig} {I : Index} {changes : List Change}
    {m : Manifest} {retire : List FileName}
    (h : (updatePlan w cfg I changes).result = .ok (some (m, retire))) :
    ∃ segs, Tiles w.indexRead I.idBound I.manifest.nextSegmentId (toIndexOf changes) segs ∧
      segs.length = segmentCount w.indexRead (toIndexOf changes) I.idBound cfg ∧
      m = updatedManifest w I changes segs ∧ retire = updateRetired I changes ∧
      (updatePlan w cfg I changes).Installs (updatedFiles I changes segs) := by
  unfold updatePlan at h ⊢
  obtain ⟨⟨entries, nextId⟩, hSegs, h⟩ := Plan.bind_ok.mp h
  obtain ⟨x, hDel, h⟩ := Plan.bind_ok.mp h
  obtain ⟨stamp, hOv, hPure⟩ := Plan.bind_ok.mp h
  obtain ⟨segs, rfl, rfl, hTiles, hLen, hInst⟩ := updateSegments_ok hSegs
  obtain ⟨hStamp, hOvInst⟩ := writeOverlay_ok hOv
  have hDel' := hDel
  rw [tombstoneAll_result, Except.ok.injEq] at hDel'
  subst hDel'
  simp only [Plan.pure_result, Except.ok.injEq, Option.some.injEq, Prod.mk.injEq] at hPure
  refine ⟨segs, hTiles, hLen, ?_, ?_, ?_⟩
  · rw [← hPure.1, hStamp]
    simp [updatedManifest, updatedSegments, amendedSegments, updatedOverlay]
  · rw [← hPure.2, hStamp]
    rfl
  · unfold updatedFiles
    rw [← List.append_nil (overlayFiles _ _)]
    exact hInst.bind hSegs ((tombstoneAll_installs _ _ _).bind hDel
      (hOvInst.bind hOv (Plan.installs_pure _)))

theorem UpdateRoom.amends {w : World} {cfg : BuildConfig} {I : Index}
    {changes : List Change} (h : UpdateRoom w cfg I changes) {segs : List Segment}
    (hTiles : Tiles w.indexRead I.idBound I.manifest.nextSegmentId (toIndexOf changes) segs)
    (hLen : segs.length = segmentCount w.indexRead (toIndexOf changes) I.idBound cfg) :
    Amends I (localsOf I (deletesOf changes)) w.indexRead (toIndexOf changes) segs where
  tiles := hTiles
  docs := h.docs
  ids := hLen ▸ h.ids
  del := h.del

theorem updatedManifest_ok {w : World} {cfg : BuildConfig} {I : Index}
    {changes : List Change} {segs : List Segment} (hRoom : UpdateRoom w cfg I changes)
    (hTiles : Tiles w.indexRead I.idBound I.manifest.nextSegmentId (toIndexOf changes) segs)
    (hLen : segs.length = segmentCount w.indexRead (toIndexOf changes) I.idBound cfg) :
    (updatedManifest w I changes segs).Ok := by
  refine (hRoom.amends hTiles hLen).manifest_ok rfl rfl ?_ (hLen ▸ hRoom.length)
  simp only [updatedManifest, overlayStamp]
  split
  · simp
  · rename_i hNe
    have hGen := hRoom.overlay (by simpa using hNe)
    have hLen : (FileData.overlay (updatedOverlay I changes)).len ≠ 0 :=
      (FileData.len_pos (by simp)).ne'
    simp only [hLen, iff_false]
    intro hZero
    have := congrArg UInt32.toNat hZero
    simp only [UInt32.toNat_add, UInt32.toNat_one, UInt32.toNat_zero] at this
    omega

omit [Platform] in
theorem UInt32.add_one_ne (a : UInt32) : a + 1 ≠ a := by
  intro h
  have := congrArg UInt32.toNat h
  have := a.toNat_lt
  simp only [UInt32.toNat_add, UInt32.toNat_one] at *
  omega

omit [Platform] in
theorem mem_overlayFiles {prevGen : UInt32} {o : Overlay} {f : FileName × FileData} :
    f ∈ overlayFiles prevGen o ↔
      o.patches ≠ [] ∧ f = (.overlay (prevGen + 1), .overlay o) := by
  unfold overlayFiles
  split <;> simp_all

omit [Platform] in
theorem isData_updatedFiles {I : Index} {changes : List Change} {segs : List Segment}
    {f : FileName × FileData} (hf : f ∈ updatedFiles I changes segs) : f.1.isData := by
  rcases List.mem_append.mp hf with hf | hf
  · exact newFilesOf_isData hf
  · rcases List.mem_append.mp hf with hf | hf
    · exact isData_delFilesAll hf
    · obtain ⟨-, rfl⟩ := mem_overlayFiles.mp hf
      rfl

/-- The files of an update have distinct names. -/
theorem nodup_updatedFiles {I : Index} {changes : List Change} {read : ReadFile}
    {files : List CrawledFile} {segs : List Segment} (hI : I.Sound)
    (h : Amends I (localsOf I (deletesOf changes)) read files segs) :
    ((updatedFiles I changes segs).map Prod.fst).Nodup := by
  unfold updatedFiles
  rw [List.map_append, List.map_append]
  refine List.nodup_append.mpr ⟨nodup_newFilesOf (h.tiles.ids_nodup h.tilesRoom),
    List.nodup_append.mpr ⟨nodup_delFilesAll hI.ids_nodup, ?_, ?_⟩, ?_⟩
  · unfold overlayFiles
    split <;> simp
  · -- Deletions files and the overlay.
    intro a ha b hb hEq
    obtain ⟨f, hf, rfl⟩ := List.mem_map.mp ha
    obtain ⟨g, hg, rfl⟩ := List.mem_map.mp hb
    obtain ⟨p, -, -, rfl⟩ := mem_delFilesAll.mp hf
    obtain ⟨-, rfl⟩ := mem_overlayFiles.mp hg
    cases hEq
  · -- Files of new segments and the others.
    intro a ha b hb hEq
    obtain ⟨f, hf, rfl⟩ := List.mem_map.mp ha
    obtain ⟨s, -, rfl | rfl⟩ := mem_newFilesOf.mp hf
    all_goals
      rcases List.mem_append.mp hb with hb | hb
      · obtain ⟨g, hg, rfl⟩ := List.mem_map.mp hb
        obtain ⟨p, -, -, rfl⟩ := mem_delFilesAll.mp hg
        cases hEq
      · obtain ⟨g, hg, rfl⟩ := List.mem_map.mp hb
        obtain ⟨-, rfl⟩ := mem_overlayFiles.mp hg
        cases hEq

/-- The names an update gives to its files are free. -/
theorem writable_updatedFiles {I : Index} {changes : List Change} {read : ReadFile}
    {files : List CrawledFile} {segs : List Segment}
    (h : Amends I (localsOf I (deletesOf changes)) read files segs)
    {f : FileName × FileData} (hf : f ∈ updatedFiles I changes segs) : I.Writable f.1 := by
  rcases List.mem_append.mp hf with hf | hf
  · obtain ⟨s, hs, rfl | rfl⟩ := mem_newFilesOf.mp hf
    · exact (h.bounds hs).2.2
    · exact (h.bounds hs).2.2
  · rcases List.mem_append.mp hf with hf | hf
    · exact writable_delFilesAll h.del hf
    · obtain ⟨-, rfl⟩ := mem_overlayFiles.mp hf
      exact UInt32.add_one_ne _

/-- With room, an update that ends in a commit gives the amended index with its
overlay. -/
theorem updatePlan_gives {w : World} {cfg : BuildConfig} {I : Index}
    {changes : List Change} {m : Manifest} {retire : List FileName} (hI : I.Sound)
    (h : (updatePlan w cfg I changes).result = .ok (some (m, retire)))
    (hRoom : UpdateRoom w cfg I changes) :
    ∃ segs, ∃ hOk : (updatedManifest w I changes segs).Ok,
      Amends I (localsOf I (deletesOf changes)) w.indexRead (toIndexOf changes) segs ∧
      (updatedIndex w I changes segs hOk).manifest = m ∧
      (updatePlan w cfg I changes).Gives (some I) [] (updatedIndex w I changes segs hOk)
        retire := by
  obtain ⟨segs, hTiles, hLen, rfl, rfl, hInst⟩ := updatePlan_ok h
  have hOk := updatedManifest_ok hRoom hTiles hLen
  have hAmends := hRoom.amends hTiles hLen
  refine ⟨segs, hOk, hAmends, rfl, h, hAmends.sound hI rfl, ?_, ?_, ?_⟩
  · rintro _ ⟨⟩
    exact (hAmends.grows rfl rfl).toEvolves
  · intro d hBacked _
    have hB := hBacked I rfl
    have hNew : ∀ f ∈ updatedFiles I changes segs, (d.committed
        (updatePlan w cfg I changes).steps (updatedManifest w I changes segs)).lookup f.1 =
          some f.2 := fun f hf =>
      hInst.lookup_committed d _ (fun _ => isData_updatedFiles)
        (nodup_updatedFiles hI hAmends) hf
    refine ⟨?_, ?_, ?_, ?_⟩
    · rw [Dir.lookup_committed, if_pos rfl]
    · refine hAmends.backed hB.segments (fun n hn => ?_) fun f hf => hNew f ?_
      · refine hInst.lookup_committed_of_not_mem d _
          (Index.isData_of_mem_referencedFiles hn) fun f hf hEq => ?_
        exact hI.not_mem_referencedFiles (writable_updatedFiles hAmends hf) (hEq ▸ hn)
      · rw [updatedFiles, ← List.append_assoc]
        exact List.mem_append_left _ hf
    · -- A manifest with an overlay names the one just written.
      intro hGen
      have hNe : (updatedOverlay I changes).patches.isEmpty = false := by
        by_contra hEmpty
        rw [Bool.not_eq_false] at hEmpty
        simp only [updatedIndex, updatedManifest, overlayStamp, hEmpty, if_true] at hGen
        exact absurd hGen (UInt32.lt_irrefl 0)
      have hMem : (FileName.overlay (I.manifest.stateGen + 1),
          FileData.overlay (updatedOverlay I changes)) ∈ updatedFiles I changes segs :=
        List.mem_append_right _ (List.mem_append_right _
          (mem_overlayFiles.mpr ⟨by simpa using hNe, rfl⟩))
      have hLookup := hNew _ hMem
      simp only [updatedIndex, updatedManifest, overlayStamp, hNe, Bool.false_eq_true,
        if_false] at hLookup ⊢
      exact ⟨hLookup, rfl, rfl⟩
    · -- A manifest without one belongs to an empty overlay.
      intro hGen
      by_cases hEmpty : (updatedOverlay I changes).patches.isEmpty
      · have hNil : (updatedOverlay I changes).patches = [] := by simpa using hEmpty
        change updatedOverlay I changes = Overlay.empty
        cases hO : updatedOverlay I changes
        simp_all [Overlay.empty]
      · have hRoomGen := hRoom.overlay (by simpa using hEmpty)
        have := congrArg UInt32.toNat hGen
        simp only [updatedIndex, updatedManifest, overlayStamp, hEmpty, Bool.false_eq_true,
          if_false, UInt32.toNat_add, UInt32.toNat_one, UInt32.toNat_zero] at this
        omega
  · intro n hn
    rcases List.mem_append.mp hn with hn | hn
    · obtain ⟨⟨id, gen, rfl⟩, hNot⟩ := hAmends.retiredDels_not_mem hI hn
      refine ⟨rfl, fun hMem => ?_⟩
      rcases Index.mem_referencedFiles.mp hMem with ⟨t, ht, hFile⟩ | ⟨-, hEq⟩
      · exact hNot t ht hFile
      · cases hEq
    · split at hn
      · rename_i hGen
        obtain rfl := List.mem_singleton.mp hn
        refine ⟨rfl, fun hMem => ?_⟩
        rcases Index.mem_referencedFiles.mp hMem with ⟨t, ht, hFile⟩ | ⟨-, hEq⟩
        · simp [mem_segmentFiles] at hFile
        · exact hGen.2 (FileName.overlay.inj hEq)
      · cases hn

/-- With room, an update works on temporary files and moves them to free names. -/
theorem updatePlan_all {w : World} {cfg : BuildConfig} {I : Index} {changes : List Change}
    (hRoom : UpdateRoom w cfg I changes) (staged : List FileName) :
    (updatePlan w cfg I changes).All (FileStep.Over (some I) staged) := by
  unfold updatePlan
  refine Plan.All.bind ?_ fun _ _ => Plan.All.bind ?_ fun _ _ => Plan.All.bind ?_ fun _ _ =>
    Plan.all_pure _
  · unfold updateSegments
    split
    · exact Plan.all_pure _
    · refine buildSegments_over ?_ hRoom.ids
      rintro J ⟨⟩
      rfl
  · refine (tombstoneAll_installs _ _ _).all_over (fun f hf => ⟨?_, ?_⟩) staged
    · exact writable_delFilesAll hRoom.del hf
    · exact isData_delFilesAll hf
  · unfold writeOverlay
    split
    · exact Plan.all_pure _
    · refine (Plan.all_ofFormat _).bind fun _ _ => Plan.All.bind ?_ fun _ _ => Plan.all_pure _
      refine Plan.all_writeFinal ?_ rfl _
      exact UInt32.add_one_ne _

end Ripindex
