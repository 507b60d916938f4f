import Ripindex.Store.Amend
import Ripindex.Store.Splice

/-!
# Histories of an index

`Commit prev J` says that a writer over the index `prev`, or over none, commits `J`;
`Reached I` that some sequence of commits leads from an empty directory to `I`.

## Results

* `Commit.evolves`, `Commit.sound` — what every commit keeps;
* `Commit.generation_eq` — every commit counts the generation up;
* `Commit.of_build` — a build that succeeds with room is a commit.
-/

namespace Ripindex

variable [Platform]

-- ---------------------------------------------------------------------------
-- Commits
-- ---------------------------------------------------------------------------

/-- A writer over the index `prev`, or over none, commits the next one. -/
inductive Commit : Option Index → Index → Prop
  | build {prev : Option Index} {J : Index} {w : World} {cfg : BuildConfig}
    {files : List CrawledFile} {retire : List FileName}
    (h : (buildPlan w cfg files prev).Gives prev [] J retire) : Commit prev J
  | update {I J : Index} {w : World} {cfg : BuildConfig} {changes : List Change}
    {retire : List FileName}
    (h : (updatePlan w cfg I changes).Gives (some I) [] J retire) : Commit (some I) J
  | delete {I J : Index} {now : Int64} {ids : List DocId} {retire : List FileName}
    (h : (deletePlan now I ids).Gives (some I) [] J retire) : Commit (some I) J
  | merge {I J : Index} {now : Int64} {xs : List StagedMerge} {retire : List FileName}
    (h : (mergePlan now I (xs.map StagedMerge.merge)).Gives (some I)
      (xs.flatMap StagedMerge.files) J retire) : Commit (some I) J

/-- A commit evolves the index it finds. -/
theorem Commit.evolves {I J : Index} (h : Commit (some I) J) : I.Evolves J := by
  cases h with
  | build h => exact h.evolves I rfl
  | update h => exact h.evolves I rfl
  | delete h => exact h.evolves I rfl
  | merge h => exact h.evolves I rfl

theorem Commit.sound {prev : Option Index} {J : Index} (h : Commit prev J) : J.Sound := by
  cases h with
  | build h => exact h.sound
  | update h => exact h.sound
  | delete h => exact h.sound
  | merge h => exact h.sound

/-- A build that ends without an error ends in a commit. -/
theorem buildPlan_result_of_isOk {prev : Option Index} {w : World} {cfg : BuildConfig}
    {files : List CrawledFile} (hOk : (buildPlan w cfg files prev).result.isOk = true) :
    ∃ m retire, (buildPlan w cfg files prev).result = .ok (some (m, retire)) := by
  rcases hRes : (buildPlan w cfg files prev).result with e | x
  · rw [hRes] at hOk
    cases hOk
  · unfold buildPlan at hRes
    obtain ⟨_, -, hPure⟩ := Plan.bind_ok.mp hRes
    simp only [Plan.pure_result, Except.ok.injEq] at hPure
    exact ⟨_, _, by rw [← hPure]⟩

/-- The one segment of a tiling. -/
theorem Tiles.single {read : ReadFile} {base : DocId} {id : UInt32}
    {files : List CrawledFile} {s : Segment} (h : Tiles read base id files [s]) :
    s.Records read files ∧ s.Flushed ∧ s.entry.baseDoc = base := by
  cases h with
  | cons hBase _ hFlushed hRecords _ _ hRest =>
    cases hRest with
    | nil => exact ⟨by rwa [List.append_nil], hFlushed, hBase⟩

/-- A build that succeeds with room is a commit. -/
theorem Commit.of_build {prev : Option Index} {w : World} {cfg : BuildConfig}
    {files : List CrawledFile} (hOk : (buildPlan w cfg files prev).result.isOk = true)
    (hRoom : BuildRoom w cfg files prev) :
    ∃ segs, ∃ hM : (builtManifest w prev segs).Ok,
      Commit prev (builtIndex w prev segs hM) ∧
      Tiles w.indexRead 0 (nextSegmentIdOf prev) files segs := by
  obtain ⟨m, retire, hRes⟩ := buildPlan_result_of_isOk hOk
  obtain ⟨segs, hM, hTiles, -, hGives⟩ := buildPlan_gives hRes hRoom
  exact ⟨segs, hM, .build hGives, hTiles⟩

/-- A commit counts the generation up. -/
theorem Commit.generation_eq {prev : Option Index} {J : Index} (h : Commit prev J) :
    J.manifest.generation = (prev.elim 0 fun I => I.manifest.generation) + 1 := by
  cases h with
  | build h =>
    obtain ⟨segs, -, -, hM, -⟩ := buildPlan_ok h.result
    rw [hM]
    rfl
  | update h =>
    obtain ⟨segs, -, -, hM, -⟩ := updatePlan_ok h.result
    rw [hM]
    rfl
  | @delete I J now ids retire h =>
    have hRes := h.result
    rw [deletePlan_result] at hRes
    split at hRes
    · simp only [Except.ok.injEq, Option.some.injEq, Prod.mk.injEq] at hRes
      rw [← hRes.1]
      rfl
    · simp at hRes
  | merge h =>
    obtain ⟨-, hM, -⟩ := mergePlan_ok h.result
    rw [hM]
    rfl

/-- A first build whose files fit one segment. -/
structure SingleBuild (w : World) (files : List CrawledFile) (I : Index) (s : Segment) :
    Prop where
  commit : Commit none I
  segments : I.segments = [s]
  records : s.Records w.indexRead files
  flushed : s.Flushed
  baseDoc : s.entry.baseDoc = 0
  overlay : I.overlay = .empty
  stateGen : I.manifest.stateGen = 0
  generation : I.manifest.generation = 1
  nextSegmentId : I.manifest.nextSegmentId = 1

theorem SingleBuild.exists_gives {w : World} {cfg : BuildConfig} {files : List CrawledFile}
    (hOk : (buildPlan w cfg files none).result.isOk = true)
    (hRoom : BuildRoom w cfg files none)
    (hCount : segmentCount w.indexRead files 0 cfg = 1) :
    ∃ I s retire, SingleBuild w files I s ∧
      (buildPlan w cfg files none).Gives none [] I retire := by
  obtain ⟨m, retire, hRes⟩ := buildPlan_result_of_isOk hOk
  obtain ⟨segs, hM, hTiles, hEq, hGives⟩ := buildPlan_gives hRes hRoom
  obtain ⟨segs', -, hLen, hM', -⟩ := buildPlan_ok hRes
  have hOne : segs.length = 1 := by
    have hEntries := congrArg (fun m => m.segments.length) (hEq.trans hM')
    simp only [builtIndex, builtManifest, List.length_map] at hEntries
    omega
  obtain ⟨s, rfl⟩ := List.length_eq_one_iff.mp hOne
  obtain ⟨hRec, hFlushed, hBase⟩ := hTiles.single
  exact ⟨_, s, retire, ⟨.build hGives, rfl, hRec, hFlushed, hBase, rfl, rfl, rfl, rfl⟩, hGives⟩

theorem SingleBuild.exists_of {w : World} {cfg : BuildConfig} {files : List CrawledFile}
    (hOk : (buildPlan w cfg files none).result.isOk = true)
    (hRoom : BuildRoom w cfg files none)
    (hCount : segmentCount w.indexRead files 0 cfg = 1) : ∃ I s, SingleBuild w files I s := by
  obtain ⟨I, s, -, hBuild, -⟩ := SingleBuild.exists_gives hOk hRoom hCount
  exact ⟨I, s, hBuild⟩

namespace SingleBuild

variable {w : World} {files : List CrawledFile} {I : Index} {s : Segment} {id : DocId}

/-- Some directory holds the index. -/
theorem exists_backed (h : SingleBuild w files I s) : ∃ d, I.Backed d := by
  cases h.commit with
  | build hGives => exact ⟨_, hGives.backed ∅ (by simp) (by simp)⟩

theorem isDeleted (h : SingleBuild w files I s) (i : DocId) : s.isDeleted i = false := by
  rw [Segment.isDeleted, h.flushed.del]
  rfl

/-- The ids of the only segment. -/
theorem localsOf (h : SingleBuild w files I s) (hId : id < s.entry.numDocs) :
    localsOf I [id] 0 = [id] := by
  have hEnd : ¬ s.entry.endDoc ≤ id.toNat := by
    have := UInt32.lt_iff_toNat_lt.mp hId
    rw [SegmentEntry.endDoc]
    omega
  simp [Ripindex.localsOf, Index.locate, h.segments, Index.locateFrom, hEnd, h.baseDoc]

theorem deleteRoom (h : SingleBuild w files I s) (id : DocId) : DeleteRoom I [id] := by
  refine ⟨?_, by rw [h.generation]; decide⟩
  intro p hp _
  rw [h.segments, List.zipIdx_singleton, List.mem_singleton] at hp
  rw [hp, h.flushed.delGen]
  decide

/-- The documents deleted by the deletion of one. -/
theorem isDeleted_tombstoned (h : SingleBuild w files I s) (hId : id < s.entry.numDocs)
    (i : DocId) : (s.tombstoned [id]).isDeleted i ↔ i = id := by
  rw [Segment.isDeleted_tombstoned, h.isDeleted]
  constructor
  · rintro (hDel | ⟨hMem, -⟩)
    · cases hDel
    · exact List.mem_singleton.mp hMem
  · rintro rfl
    exact .inr ⟨List.mem_singleton_self _, hId⟩

theorem changesAny (h : SingleBuild w files I s) (hId : id < s.entry.numDocs) :
    changesAny (Ripindex.localsOf I [id]) 0 I.segments = true := by
  rw [Ripindex.changesAny, h.segments, List.zipIdx_singleton, List.any_cons, h.localsOf hId]
  by_contra hNot
  have hSame : s.tombstoned [id] = s := by
    rw [Segment.tombstoned, if_neg]
    simpa using hNot
  have := (h.isDeleted_tombstoned hId id).mpr rfl
  rw [hSame, h.isDeleted] at this
  cases this

theorem amendedSegments (h : SingleBuild w files I s) (hId : id < s.entry.numDocs) :
    amendedSegments I (Ripindex.localsOf I [id]) [] = [s.tombstoned [id]] := by
  rw [Ripindex.amendedSegments, tombstonedAll, h.segments, List.zipIdx_singleton,
    List.map_singleton, h.localsOf hId, List.append_nil]

/-- The deletion of one document is a commit. -/
theorem gives (h : SingleBuild w files I s) (hId : id < s.entry.numDocs) :
    (deletePlan 0 I [id]).Gives (some I) []
      (deletedIndex 0 I [id] (deletedManifest_ok (h.deleteRoom id)))
        (retiredDels (Ripindex.localsOf I [id]) 0 I.segments) :=
  (deletePlan_gives h.commit.sound
    (by rw [deletePlan_result, if_pos (h.changesAny hId)]) (h.deleteRoom id)).2

end SingleBuild

-- ---------------------------------------------------------------------------
-- Runs
-- ---------------------------------------------------------------------------

/-- Some sequence of commits leads from an empty directory to the index. -/
inductive Reached : Index → Prop
  | first {J : Index} (h : Commit none J) : Reached J
  | next {I J : Index} (hI : Reached I) (h : Commit (some I) J) : Reached J

theorem Reached.sound {I : Index} (h : Reached I) : I.Sound := by
  cases h with
  | first h => exact h.sound
  | next _ h => exact h.sound

end Ripindex
