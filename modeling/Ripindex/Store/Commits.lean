import Ripindex.Store.Tiles
import Ripindex.Store.Tombstone
import Ripindex.Store.Update

/-!
# What writers commit

A writer over an index `prev` plans some files and a manifest. `CommitPlan.Gives` says
that the plan succeeds and that carrying it out gives the index `next`;
`FileStep.Over` says what its operations may touch on the way.

The conditions `HasRoom` are about the fixed-width counters alone: they say that none of
the ids and generations the writer computes leaves its type.

## Results

* `buildPlan_gives`, `updatePlan_gives`, `deletePlan_gives` — with room, a plan that ends
  in a commit gives an index;
* `buildPlan_all`, `updatePlan_all`, `deletePlan_all` — what the operations touch.
-/

namespace Ripindex

variable [Platform]

-- ---------------------------------------------------------------------------
-- Outcomes of a plan
-- ---------------------------------------------------------------------------

/-- The directory after a writer's files and then a manifest are in place. -/
def Dir.committed (d : Dir) (steps : List FileStep) (m : Manifest) : Dir :=
  after d (steps ++ (Plan.writeFinal .manifest (manifestFile m)).steps)

omit [Platform] in
theorem Dir.lookup_committed (d : Dir) (steps : List FileStep) (m : Manifest)
    (n : FileName) : (d.committed steps m).lookup n =
      if n = .manifest then some (manifestFile m)
      else if n = .tmp .manifest then none else (after d steps).lookup n := by
  rw [committed, after_append, lookup_after_writeFinal]

omit [Platform] in
theorem FileName.ne_manifest_of_isData {n : FileName} (h : n.isData) :
    n ≠ .manifest ∧ n ≠ .tmp .manifest := by
  constructor
  all_goals
    rintro rfl
    simp [isData] at h

omit [Platform] in
theorem Dir.lookup_committed_of_isData (d : Dir) (steps : List FileStep) (m : Manifest)
    {n : FileName} (h : n.isData) :
    (d.committed steps m).lookup n = (after d steps).lookup n := by
  obtain ⟨hMan, hTmp⟩ := FileName.ne_manifest_of_isData h
  rw [lookup_committed, if_neg hMan, if_neg hTmp]

section Installs

variable {α : Type} {p : Plan α} {fs : List (FileName × FileData)}

omit [Platform] in
/-- A file the plan installs is in place after the commit. -/
theorem Plan.Installs.lookup_committed (h : p.Installs fs) (d : Dir) (m : Manifest)
    (hData : ∀ f ∈ fs, f.1.isData) (hNodup : (fs.map Prod.fst).Nodup)
    {f : FileName × FileData} (hf : f ∈ fs) :
    (d.committed p.steps m).lookup f.1 = some f.2 := by
  rw [Dir.lookup_committed_of_isData d _ m (hData f hf), h]
  exact lookup_after_installs hData hNodup hf

omit [Platform] in
/-- A data file the plan does not install is as before. -/
theorem Plan.Installs.lookup_committed_of_not_mem (h : p.Installs fs) (d : Dir)
    (m : Manifest) {n : FileName} (hn : n.isData) (hNot : ∀ f ∈ fs, n ≠ f.1) :
    (d.committed p.steps m).lookup n = d.lookup n := by
  rw [Dir.lookup_committed_of_isData d _ m hn, h]
  exact lookup_after_installs_of_not_mem fun f hf =>
    ⟨hNot f hf, FileName.ne_tmp_of_isData hn⟩

end Installs

/-- Carrying out the plan over `prev` with the files `staged` in place, and then its
manifest, gives `next`; `retire` is removed afterwards. -/
structure CommitPlan.Gives (prev : Option Index) (staged : List (FileName × FileData))
    (p : CommitPlan) (next : Index) (retire : List FileName) : Prop where
  result : p.result = .ok (some (next.manifest, retire))
  sound : next.Sound
  evolves : ∀ I ∈ prev, I.Evolves next
  backed : ∀ d : Dir, (∀ I ∈ prev, I.Backed d) → (∀ f ∈ staged, d.lookup f.1 = some f.2) →
    next.Backed (d.committed p.steps next.manifest)
  retire_data : ∀ n ∈ retire, n.isData ∧ n ∉ referencedFiles next.manifest

/-- The operation works on temporary files, or moves one, or a staged file, to a name that
is free over `prev`. -/
def FileStep.Over (prev : Option Index) (staged : List FileName) : FileStep → Prop
  | .create n | .write n _ | .sync n => ∃ m, n = .tmp m
  | .rename a b => ((∃ m, a = .tmp m) ∨ a ∈ staged) ∧ WritableOver prev b ∧ b.isData

omit [Platform] in
theorem Plan.all_writeFinal {prev : Option Index} {staged : List FileName} {n : FileName}
    (hn : WritableOver prev n) (hData : n.isData) (f : FileData) :
    (Plan.writeFinal n f).All (FileStep.Over prev staged) := by
  intro step hStep
  simp only [Plan.writeFinal_steps, List.mem_cons, List.not_mem_nil, or_false] at hStep
  rcases hStep with rfl | rfl | rfl | rfl
  · exact ⟨n, rfl⟩
  · exact ⟨n, rfl⟩
  · exact ⟨n, rfl⟩
  · exact ⟨.inl ⟨n, rfl⟩, hn, hData⟩

theorem flushSegment_all {prev : Option Index} {staged : List FileName} {id : UInt32}
    (hIdx : WritableOver prev (.idx id)) (hDoc : WritableOver prev (.doc id))
    (acc : SegmentAcc) : (flushSegment id acc).All (FileStep.Over prev staged) := by
  unfold flushSegment
  refine (Plan.all_emit ?_).bind fun _ _ => (Plan.all_ofFormat _).bind fun x _ =>
    (Plan.all_emit ?_).bind fun _ _ => (Plan.all_ofFormat _).bind fun _ _ =>
      (Plan.all_ofFormat _).bind fun _ _ => (Plan.all_writeFinal hDoc rfl _).bind fun _ _ =>
        Plan.all_pure _
  · intro step hStep
    rw [List.mem_singleton.mp hStep]
    exact ⟨_, rfl⟩
  · intro step hStep
    simp only [List.mem_cons, List.not_mem_nil, or_false] at hStep
    rcases hStep with rfl | rfl | rfl
    · exact ⟨_, rfl⟩
    · exact ⟨_, rfl⟩
    · exact ⟨.inl ⟨_, rfl⟩, hIdx, rfl⟩

theorem buildSegments_over {prev : Option Index} {staged : List FileName} {read : ReadFile}
    {files : List CrawledFile} {base : DocId} {cfg : BuildConfig} {id : UInt32}
    (hPrev : ∀ I ∈ prev, I.manifest.nextSegmentId = id)
    (hRoom : id.toNat + segmentCount read files base cfg < 2 ^ 32) :
    (buildSegments read files base cfg id).All (FileStep.Over prev staged) := by
  refine buildSegments_all fun j hj acc => ?_
  have hId : (id + UInt32.ofNat j).toNat = id.toNat + j := toNat_add_ofNat (by omega)
  have hLe : id ≤ id + UInt32.ofNat j := by
    rw [UInt32.le_iff_toNat_le, hId]
    omega
  refine flushSegment_all ?_ ?_ acc
  all_goals
    cases prev with
    | none => exact ⟨by simp, rfl⟩
    | some I => exact (hPrev I rfl).symm ▸ hLe

-- ---------------------------------------------------------------------------
-- Files of new segments
-- ---------------------------------------------------------------------------

omit [Platform] in
theorem mem_newFilesOf {segs : List Segment} {f : FileName × FileData} :
    f ∈ newFilesOf segs ↔ ∃ s ∈ segs, f = (.idx s.entry.segmentId, .idx s.idx) ∨
      f = (.doc s.entry.segmentId, .doc s.docs) := by
  simp [newFilesOf, Segment.newFiles]

omit [Platform] in
/-- Files of segments with distinct ids have distinct names. -/
theorem nodup_newFilesOf {segs : List Segment}
    (h : (segs.map fun s => s.entry.segmentId).Nodup) :
    ((newFilesOf segs).map Prod.fst).Nodup := by
  induction segs with
  | nil => simp [newFilesOf]
  | cons s segs ih =>
    obtain ⟨hNot, hNodup⟩ := List.nodup_cons.mp h
    have hCons : (newFilesOf (s :: segs)).map Prod.fst =
        .idx s.entry.segmentId :: .doc s.entry.segmentId :: (newFilesOf segs).map Prod.fst :=
      rfl
    have hId : ∀ t ∈ segs, t.entry.segmentId ≠ s.entry.segmentId := fun t ht hEq =>
      hNot (List.mem_map.mpr ⟨t, ht, hEq⟩)
    rw [hCons, List.nodup_cons, List.nodup_cons]
    refine ⟨?_, ?_, ih hNodup⟩
    · simp only [List.mem_cons, reduceCtorEq, false_or, List.mem_map, mem_newFilesOf]
      rintro ⟨_, ⟨t, ht, rfl | rfl⟩, hEq⟩
      · exact hId t ht (FileName.idx.inj hEq)
      · cases hEq
    · simp only [List.mem_map, mem_newFilesOf]
      rintro ⟨_, ⟨t, ht, rfl | rfl⟩, hEq⟩
      · cases hEq
      · exact hId t ht (FileName.doc.inj hEq)

-- ---------------------------------------------------------------------------
-- Building
-- ---------------------------------------------------------------------------

/-- The counters suffice for a build over `prev`. -/
structure BuildRoom (w : World) (cfg : BuildConfig) (files : List CrawledFile)
    (prev : Option Index) : Prop where
  docs : files.length ≤ 2 ^ 32
  segments : (prev.elim 0 fun I => I.manifest.nextSegmentId.toNat) +
    segmentCount w.indexRead files 0 cfg < 2 ^ 32
  generation : (prev.elim 0 fun I => I.manifest.generation.toNat) + 1 < 2 ^ 64

instance {w : World} {cfg : BuildConfig} {files : List CrawledFile} {prev : Option Index} :
    Decidable (BuildRoom w cfg files prev) :=
  decidable_of_iff (files.length ≤ 2 ^ 32 ∧
      (prev.elim 0 fun I => I.manifest.nextSegmentId.toNat) +
        segmentCount w.indexRead files 0 cfg < 2 ^ 32 ∧
      (prev.elim 0 fun I => I.manifest.generation.toNat) + 1 < 2 ^ 64)
    ⟨fun ⟨hDocs, hSegments, hGen⟩ => ⟨hDocs, hSegments, hGen⟩,
      fun h => ⟨h.docs, h.segments, h.generation⟩⟩

/-- The next segment id over `prev`. -/
def nextSegmentIdOf (prev : Option Index) : UInt32 :=
  prev.elim 0 fun I => I.manifest.nextSegmentId

/-- The manifest of a build that wrote the segments `segs`. -/
def builtManifest (w : World) (prev : Option Index) (segs : List Segment) : Manifest where
  generation := (prev.elim 0 fun I => I.manifest.generation) + 1
  nextSegmentId := nextSegmentIdOf prev + UInt32.ofNat segs.length
  committedUnixNanos := w.now
  stateGen := 0
  stateCrc := 0
  stateLen := 0
  segments := segs.map Segment.entry

/-- The files a build retires. -/
def buildRetired (prev : Option Index) : List FileName :=
  prev.elim [] fun I => I.files.filter fun n => n ≠ .manifest

/-- A build that ends in a commit has written segments that tile the files. -/
theorem buildPlan_ok {w : World} {cfg : BuildConfig} {files : List CrawledFile}
    {prev : Option Index} {m : Manifest} {retire : List FileName}
    (h : (buildPlan w cfg files prev).result = .ok (some (m, retire))) :
    ∃ segs, Tiles w.indexRead 0 (nextSegmentIdOf prev) files segs ∧
      segs.length = segmentCount w.indexRead files 0 cfg ∧
      m = builtManifest w prev segs ∧ retire = buildRetired prev ∧
      (buildPlan w cfg files prev).Installs (newFilesOf segs) := by
  have hPlan : buildPlan w cfg files prev = (do
      let built ← buildSegments w.indexRead files 0 cfg (nextSegmentIdOf prev)
      pure (some (
        { generation := (prev.elim 0 fun I => I.manifest.generation) + 1
          nextSegmentId := built.2
          committedUnixNanos := w.now
          stateGen := 0
          stateCrc := 0
          stateLen := 0
          segments := built.1 }, buildRetired prev))) := by
    cases prev <;> rfl
  rw [hPlan] at h ⊢
  obtain ⟨⟨entries, nextId⟩, hBuild, hPure⟩ := Plan.bind_ok.mp h
  simp only [Plan.pure_result, Except.ok.injEq, Option.some.injEq, Prod.mk.injEq] at hPure
  obtain ⟨segs, rfl, rfl, hTiles, hInst⟩ := buildSegments_tiles hBuild
  refine ⟨segs, hTiles, ?_, hPure.1.symm, hPure.2.symm, ?_⟩
  · simpa using buildSegments_count hBuild
  · have hFiles : newFilesOf segs = newFilesOf segs ++ [] := (List.append_nil _).symm
    rw [hFiles]
    exact hInst.bind hBuild (Plan.installs_pure _)

theorem BuildRoom.tiles {w : World} {cfg : BuildConfig} {files : List CrawledFile}
    {prev : Option Index} (h : BuildRoom w cfg files prev) {segs : List Segment}
    (hLen : segs.length = segmentCount w.indexRead files 0 cfg) :
    TilesRoom 0 (nextSegmentIdOf prev) files segs where
  docs := by simpa using h.docs
  ids := by
    have := h.segments
    rw [hLen]
    cases prev <;> simpa [nextSegmentIdOf] using this

/-- An entry of a new segment passes the checks of the manifest. -/
theorem Tiles.entryOk {read : ReadFile} {base : DocId} {id : UInt32}
    {files : List CrawledFile} {segs : List Segment} (h : Tiles read base id files segs)
    (hRoom : TilesRoom base id files segs) {s : Segment} (hs : s ∈ segs) :
    Manifest.EntryOk (id + UInt32.ofNat segs.length) s.entry := by
  have hBounds := h.bounds hRoom s hs
  have hFlushed := h.flushed s hs
  refine ⟨?_, ?_, ?_, ?_⟩
  · rw [UInt32.lt_iff_toNat_lt, toNat_add_ofNat hRoom.ids]
    exact hBounds.id_lt
  · exact Nat.le_trans hBounds.end_le hRoom.docs
  · simp [hFlushed.delGen, hFlushed.delLen]
  · rw [hFlushed.numDeleted, UInt32.le_iff_toNat_le]
    exact Nat.zero_le _

/-- With room, the manifest of a build is acceptable. -/
theorem builtManifest_ok {w : World} {prev : Option Index} {read : ReadFile}
    {files : List CrawledFile} {segs : List Segment}
    (h : Tiles read 0 (nextSegmentIdOf prev) files segs)
    (hRoom : TilesRoom 0 (nextSegmentIdOf prev) files segs) :
    (builtManifest w prev segs).Ok where
  state_iff := by simp [builtManifest]
  length_lt := by
    have := hRoom.ids
    simp only [builtManifest, List.length_map]
    omega
  entries := by
    intro e he
    obtain ⟨s, hs, rfl⟩ := List.mem_map.mp he
    exact h.entryOk hRoom hs
  chain := h.chain hRoom

/-- The index a build commits. -/
def builtIndex (w : World) (prev : Option Index) (segs : List Segment)
    (h : (builtManifest w prev segs).Ok) : Index where
  manifest := builtManifest w prev segs
  segments := segs
  overlay := Overlay.empty
  entries_eq := rfl
  manifest_ok := h

omit [Platform] in
theorem Segment.mem_segmentFiles_of_delGen {s : Segment} (h : s.entry.delGen = 0)
    {n : FileName} : n ∈ segmentFiles s.entry ↔
      n = .idx s.entry.segmentId ∨ n = .doc s.entry.segmentId := by
  rw [mem_segmentFiles, h]
  simp

omit [Platform] in
theorem newFilesOf_isData {segs : List Segment} {f : FileName × FileData}
    (hf : f ∈ newFilesOf segs) : f.1.isData := by
  obtain ⟨s, -, rfl | rfl⟩ := mem_newFilesOf.mp hf <;> rfl

omit [Platform] in
/-- An index names no file of a segment whose id is still free. -/
theorem Index.not_mem_referencedFiles_of_ge (I : Index) {id : UInt32} {n : FileName}
    (hGe : I.manifest.nextSegmentId ≤ id) (hn : n = .idx id ∨ n = .doc id) :
    n ∉ referencedFiles I.manifest := by
  rw [Index.mem_referencedFiles]
  have hNe : ∀ t ∈ I.segments, t.entry.segmentId ≠ id := fun t ht hEq =>
    UInt32.not_lt.mpr hGe (hEq ▸ I.segmentId_lt ht)
  rintro (⟨t, ht, hFile⟩ | ⟨-, hOv⟩)
  · rw [mem_segmentFiles] at hFile
    rcases hn with rfl | rfl
    · rcases hFile with hEq | hEq | ⟨-, hEq⟩
      · exact hNe t ht (FileName.idx.inj hEq).symm
      · cases hEq
      · cases hEq
    · rcases hFile with hEq | hEq | ⟨-, hEq⟩
      · cases hEq
      · exact hNe t ht (FileName.doc.inj hEq).symm
      · cases hEq
  · rcases hn with rfl | rfl <;> cases hOv

/-- With room, a build that ends in a commit gives an index with exactly its segments. -/
theorem buildPlan_gives {w : World} {cfg : BuildConfig} {files : List CrawledFile}
    {prev : Option Index} {m : Manifest} {retire : List FileName}
    (h : (buildPlan w cfg files prev).result = .ok (some (m, retire)))
    (hRoom : BuildRoom w cfg files prev) :
    ∃ segs, ∃ hOk : (builtManifest w prev segs).Ok,
      Tiles w.indexRead 0 (nextSegmentIdOf prev) files segs ∧
      (builtIndex w prev segs hOk).manifest = m ∧
      (buildPlan w cfg files prev).Gives prev [] (builtIndex w prev segs hOk) retire := by
  obtain ⟨segs, hTiles, hLen, rfl, rfl, hInst⟩ := buildPlan_ok h
  have hTilesRoom := hRoom.tiles hLen
  have hOk := builtManifest_ok (w := w) hTiles hTilesRoom
  have hNodup := hTiles.ids_nodup hTilesRoom
  -- Every segment is new: its id is not below those of `prev`.
  have hNew : ∀ I ∈ prev, ∀ s ∈ segs, I.manifest.nextSegmentId ≤ s.entry.segmentId := by
    rintro I ⟨⟩ s hs
    exact UInt32.le_iff_toNat_le.mpr (hTiles.bounds hTilesRoom s hs).id_le
  refine ⟨segs, hOk, hTiles, rfl, h, ⟨hNodup, fun s hs _ => (hTiles.flushed s hs).numDeleted⟩,
    ?_, ?_, ?_⟩
  · intro I hI
    refine ⟨?_, fun t ht hLt => absurd (hNew I hI t ht) (UInt32.not_le.mpr hLt)⟩
    obtain rfl : prev = some I := hI
    rw [UInt32.le_iff_toNat_le]
    change _ ≤ (nextSegmentIdOf (some I) + UInt32.ofNat segs.length).toNat
    rw [toNat_add_ofNat hTilesRoom.ids]
    exact Nat.le_add_right _ _
  · intro d _ _
    have hLookup : ∀ f ∈ newFilesOf segs, (d.committed (buildPlan w cfg files prev).steps
        (builtManifest w prev segs)).lookup f.1 = some f.2 := fun f hf =>
      hInst.lookup_committed d _ (fun _ => newFilesOf_isData) (nodup_newFilesOf hNodup) hf
    refine ⟨?_, ?_, by simp [builtIndex, builtManifest], fun _ => rfl⟩
    · rw [Dir.lookup_committed, if_pos rfl]
    · intro s hs
      exact (hTiles.flushed s hs).backed
        (hLookup _ (mem_newFilesOf.mpr ⟨s, hs, .inl rfl⟩))
        (hLookup _ (mem_newFilesOf.mpr ⟨s, hs, .inr rfl⟩))
  · intro n hn
    cases prev with
    | none => simp [buildRetired] at hn
    | some I =>
      obtain ⟨hFiles, hNe⟩ := List.mem_filter.mp hn
      have hRef : n ∈ referencedFiles I.manifest := by
        rw [Index.mem_referencedFiles]
        simp only [Index.files, List.mem_append, List.mem_flatMap] at hFiles
        rcases hFiles with (hSeg | hOv) | hMan
        · exact .inl hSeg
        · split at hOv
          · exact .inr ⟨‹_›, List.mem_singleton.mp hOv⟩
          · cases hOv
        · rw [List.mem_singleton.mp hMan] at hNe
          simp at hNe
      refine ⟨Index.isData_of_mem_referencedFiles hRef, fun hMem => ?_⟩
      have hMem' : n ∈ referencedFiles (builtIndex w (some I) segs hOk).manifest := hMem
      rw [Index.mem_referencedFiles] at hMem'
      rcases hMem' with ⟨s, hs, hn⟩ | ⟨hPos, -⟩
      · rw [Segment.mem_segmentFiles_of_delGen (hTiles.flushed s hs).delGen] at hn
        exact I.not_mem_referencedFiles_of_ge (hNew I rfl s hs) hn hRef
      · simp [builtIndex, builtManifest] at hPos

/-- With room, a build works on temporary files and moves them to free names. -/
theorem buildPlan_all {w : World} {cfg : BuildConfig} {files : List CrawledFile}
    {prev : Option Index} (hRoom : BuildRoom w cfg files prev) (staged : List FileName) :
    (buildPlan w cfg files prev).All (FileStep.Over prev staged) := by
  have hSegs := hRoom.segments
  unfold buildPlan
  refine Plan.All.bind ?_ fun _ _ => Plan.all_pure _
  cases prev with
  | none => exact buildSegments_over (by simp) (by simpa using hSegs)
  | some I =>
    refine buildSegments_over ?_ (by simpa using hSegs)
    rintro J ⟨⟩
    rfl

end Ripindex
