import Ripindex.Store.Mirror

/-!
# Hard links and updates

`reconcile` takes a file at a new path for a rename when its inode is recorded, also when the
recorded path is still crawled, as it is where the file is a hard link. The recorded document is
then the source of two verdicts. An update mirrors the crawl exactly when every such document is
replaced for both files.

## Results

* `updateIndex_mirrors_iff` — when an update mirrors the crawl.
-/

namespace Ripindex

section Update

variable [Platform] {w : World} {cfg : BuildConfig} {I J : Index} {files : List CrawledFile}
  {was : DocId → FileKind × ByteArray} {now : CrawledFile → ByteArray} {c : Pid}
  {s s' : FsState}

/-- An update that returns an index returns one whose documents are those of the crawl, each
with what a build records of it, exactly when no document whose path is crawled is taken for
renamed to another file, unless it stands for neither. -/
theorem updateIndex_mirrors_iff (hRun : Operation.Run Operation.Fits s.dir)
    (hHolds : s.dir.Holds (some I)) (hFits : (Operation.update w cfg files).Fits (some I))
    (hCrawl : w.crawl = .ok files) (hPaths : (I.docs.map fun d => d.2.path).Nodup)
    (hFiles : (files.map fun cf => cf.entry.path).Nodup)
    (hObs : Observed w I.rows files was now)
    (hOk : FsE.runAlone c (updateIndex w cfg) s = (.ok J, s')) :
    s'.dir.openIndex = .ok (some J) ∧
      ((J.rows.map Prod.snd).Perm (files.map (rowOf w.indexRead)) ↔
        LinksRenewed I.rows (StateIndex.fromDocs I.docs) w.reconcileRead files) := by
  obtain ⟨hIff, hOpen, -⟩ := rows_updateIndex_iff hRun hHolds hFits hCrawl hPaths hFiles hObs hOk
  exact ⟨hOpen, hIff⟩

-- ---------------------------------------------------------------------------
-- A hard link to an indexed file
-- ---------------------------------------------------------------------------

omit [Platform] in
/-- A hard link `b` to the file `a`. -/
def linkFiles : List CrawledFile := [oneFile "a", oneFile "b"]

omit [Platform] in
def linkWorld : World := { oneWorld with crawl := .ok linkFiles }

omit [Platform] in
/-- The file has been touched since. -/
def touchedFiles : List CrawledFile := [⟨⟨"a", 1, 5, 0⟩, .binary⟩, ⟨⟨"b", 1, 5, 0⟩, .binary⟩]

omit [Platform] in
def touchedWorld : World := { oneWorld with crawl := .ok touchedFiles }

omit [Platform] in
theorem nodup_linkFiles : (linkFiles.map fun cf => cf.entry.path).Nodup := by
  simp [linkFiles, oneFile]

omit [Platform] in
theorem nodup_touchedFiles : (touchedFiles.map fun cf => cf.entry.path).Nodup := by
  simp [touchedFiles]

namespace BuiltOne

variable {seg : Segment} {d : Dir}

theorem observed_binary (h : BuiltOne I seg d) (hFiles : ∀ cf ∈ files, cf.kind = .binary) :
    Observed w I.rows files (fun _ => (.binary, ∅)) (fun _ => ∅) := by
  rw [h.rows]
  refine ⟨fun cf hcf hText => ?_, ?_, fun _ _ cf hcf _ => by rw [hFiles cf hcf], by simp⟩
  · cases hText.symm.trans (hFiles cf hcf)
  · intro e he
    rw [List.mem_singleton.mp he]
    exact body_rowOf (by simp [oneFile])

theorem observed_link (h : BuiltOne I seg d) :
    Observed linkWorld I.rows linkFiles (fun _ => (.binary, ∅)) (fun _ => ∅) :=
  h.observed_binary (by simp [linkFiles, oneFile])

theorem observed_touched (h : BuiltOne I seg d) :
    Observed touchedWorld I.rows touchedFiles (fun _ => (.binary, ∅)) (fun _ => ∅) :=
  h.observed_binary (by simp [touchedFiles])

/-- The link is taken for a rename, although the file is where it was. -/
theorem linkChanges (h : BuiltOne I seg d) :
    (updateChanges linkWorld I linkFiles).changes = [.patch renamePatch] := by
  rw [updateChanges, docs_of_singleBuild h.build]
  rfl

theorem exists_linked (h : BuiltOne I seg d) :
    (Operation.update linkWorld mixedConfig linkFiles).Fits (some I) ∧ ∃ J retire,
      (updatePlan linkWorld mixedConfig I (updateChanges linkWorld I linkFiles).changes).Gives
        (some I) [] J retire := by
  obtain ⟨J, retire, hGives, -, -, hRoom, -⟩ := exists_renamed h.build
  rw [Operation.Fits, h.linkChanges]
  exact ⟨⟨hRoom.docs, hRoom.ids, hRoom.del, hRoom.overlay, hRoom.generation⟩, J, retire, hGives⟩

theorem not_linksRenewed (h : BuiltOne I seg d) :
    ¬ LinksRenewed I.rows (StateIndex.fromDocs I.docs) linkWorld.reconcileRead linkFiles := by
  intro hRenewed
  rw [h.rows, docs_of_singleBuild h.build] at hRenewed
  obtain ⟨hFirst, -⟩ := hRenewed _ (List.mem_singleton_self _) (oneFile "a") (by simp [linkFiles])
    rfl (oneFile "b") rfl
  exact hFirst.metadata ⟨rfl, rfl, rfl⟩

theorem touchedChanges (h : BuiltOne I seg d) :
    (updateChanges touchedWorld I touchedFiles).changes =
      touchedFiles.flatMap fun cf => [.delete 0, .reindex cf none] := by
  rw [updateChanges, docs_of_singleBuild h.build]
  rfl

/-- A touched file is indexed anew, under both paths. -/
theorem linksRenewed_touched (h : BuiltOne I seg d) :
    LinksRenewed I.rows (StateIndex.fromDocs I.docs) touchedWorld.reconcileRead touchedFiles := by
  have hRenewed : ∀ e ∈ I.rows, ∀ cf ∈ touchedFiles,
      Renewed touchedWorld.reconcileRead e cf := by
    rw [h.rows]
    intro e he cf hcf
    rw [List.mem_singleton.mp he]
    have hTouched : cf.entry.mtime = 5 := by
      rcases List.mem_pair.mp hcf with rfl | rfl <;> rfl
    refine ⟨fun hMeta => ?_, fun _ _ hBytes => by cases hBytes⟩
    have hMtime : (0 : Int64) = cf.entry.mtime := hMeta.mtime
    rw [hTouched] at hMtime
    exact absurd hMtime (by decide)
  intro e he p hp _ q hq
  exact ⟨hRenewed e he p hp, hRenewed e he q (StateIndex.mem_of_renamer hq).1⟩

theorem endBound (h : BuiltOne I seg d) : Index.endBound I.manifest.segments = 1 := by
  have hNum : seg.entry.numDocs.toNat = 1 := h.build.records.numDocs
  rw [← I.entries_eq, h.build.segments, List.map_singleton, Index.endBound_cons,
    SegmentEntry.endDoc, h.build.baseDoc, hNum]
  rfl

theorem idBound (h : BuiltOne I seg d) : I.idBound = 1 := by
  rw [Index.idBound, h.endBound]
  rfl

omit [Platform] in
theorem room_touched :
    let _ := Platform.reference
    BuiltOne I seg d → UpdateRoom touchedWorld mixedConfig I
      (touchedFiles.flatMap fun cf => [.delete 0, .reindex cf none]) := by
  intro _ h
  refine ⟨?_, ?_, ?_, ?_, ?_, ?_⟩
  · rw [h.endBound]
    decide
  · rw [h.next, h.idBound]
    decide +kernel
  · rw [h.build.segments, h.idBound]
    show 1 + _ < 2 ^ 32
    decide +kernel
  · intro p hp _
    rw [h.build.segments, List.zipIdx_singleton, List.mem_singleton] at hp
    rw [hp, h.build.flushed.delGen]
    decide
  · intro _
    rw [h.build.stateGen]
    decide
  · rw [h.build.generation]
    decide

omit [Platform] in
theorem exists_touched :
    let _ := Platform.reference
    BuiltOne I seg d →
      (Operation.update touchedWorld mixedConfig touchedFiles).Fits (some I) ∧ ∃ J retire,
        (updatePlan touchedWorld mixedConfig I
          (updateChanges touchedWorld I touchedFiles).changes).Gives (some I) [] J retire := by
  intro _ h
  have hRoom := room_touched h
  have hResult : ∃ m retire, (updatePlan touchedWorld mixedConfig I
      (touchedFiles.flatMap fun cf => [.delete 0, .reindex cf none])).result =
        .ok (some (m, retire)) := by
    have hSegs : (updateSegments touchedWorld mixedConfig I touchedFiles).result.isOk = true := by
      unfold updateSegments
      rw [h.next, h.idBound]
      decide +kernel
    obtain ⟨x, hSegs⟩ : ∃ x, (updateSegments touchedWorld mixedConfig I touchedFiles).result =
        .ok x := by
      rcases hResult : (updateSegments touchedWorld mixedConfig I touchedFiles).result with e | x
      · rw [hResult] at hSegs
        cases hSegs
      · exact ⟨x, rfl⟩
    have hOverlay : (writeOverlay I.manifest.stateGen (mergeOverlay I.overlay [] [0, 0])).result =
        .ok (0, 0, 0) := by
      rw [h.build.overlay]
      rfl
    exact ⟨_, _, Plan.bind_ok.mpr ⟨x, hSegs, Plan.bind_ok.mpr ⟨_, tombstoneAll_result _ _ _,
      Plan.bind_ok.mpr ⟨_, hOverlay, rfl⟩⟩⟩⟩
  obtain ⟨m, retire, hResult⟩ := hResult
  obtain ⟨segs, hOk, -, -, hGives⟩ := updatePlan_gives h.build.commit.sound hResult hRoom
  rw [Operation.Fits, h.touchedChanges]
  exact ⟨⟨hRoom.docs, hRoom.ids, hRoom.del, hRoom.overlay, hRoom.generation⟩, _, retire, hGives⟩

theorem run_linked (h : BuiltOne I seg d) : ∃ J s',
    FsE.runAlone 0 (updateIndex linkWorld mixedConfig) ⟨d, none, 0⟩ = (.ok J, s') := by
  obtain ⟨-, J, retire, hGives⟩ := h.exists_linked
  have hEmpty : (updateChanges linkWorld I linkFiles).isEmpty = false := by
    rw [Reconciled.isEmpty, h.linkChanges]
    rfl
  obtain ⟨s', hOk⟩ := run_updateIndex_gives (c := 0) (s := ⟨d, none, 0⟩) rfl h.holds rfl rfl
    hEmpty hGives
  exact ⟨J, s', hOk⟩

omit [Platform] in
theorem run_touched :
    let _ := Platform.reference
    BuiltOne I seg d → ∃ J s',
      FsE.runAlone 0 (updateIndex touchedWorld mixedConfig) ⟨d, none, 0⟩ = (.ok J, s') := by
  intro _ h
  obtain ⟨-, J, retire, hGives⟩ := exists_touched h
  have hEmpty : (updateChanges touchedWorld I touchedFiles).isEmpty = false := by
    rw [Reconciled.isEmpty, h.touchedChanges]
    rfl
  obtain ⟨s', hOk⟩ := run_updateIndex_gives (c := 0) (s := ⟨d, none, 0⟩) rfl h.holds rfl rfl
    hEmpty hGives
  exact ⟨J, s', hOk⟩

end BuiltOne

omit [Platform] in
/-- The link stands in the index for the file itself. -/
theorem hard_link_lost : ∃ _ : Platform, ¬ ∀ (w : World) (cfg : BuildConfig) (I J : Index)
    (files : List CrawledFile) (was : DocId → FileKind × ByteArray) (now : CrawledFile → ByteArray)
    (c : Pid) (s s' : FsState),
    Operation.Run Operation.Fits s.dir → s.dir.Holds (some I) →
    (Operation.update w cfg files).Fits (some I) → w.crawl = .ok files →
    (I.docs.map fun d => d.2.path).Nodup → (files.map fun cf => cf.entry.path).Nodup →
    Observed w I.rows files was now →
    FsE.runAlone c (updateIndex w cfg) s = (.ok J, s') →
      (J.rows.map Prod.snd).Perm (files.map (rowOf w.indexRead)) := by
  refine ⟨Platform.reference, ?_⟩
  let _ := Platform.reference
  intro hClaim
  obtain ⟨I, seg, d, h⟩ := exists_builtOne
  obtain ⟨hFits, -⟩ := h.exists_linked
  obtain ⟨J, s', hOk⟩ := h.run_linked
  obtain ⟨hIff, -⟩ := rows_updateIndex_iff (h.run h.fits) h.holds hFits rfl h.paths
    nodup_linkFiles h.observed_link hOk
  exact h.not_linksRenewed (hIff.mp (hClaim _ _ _ _ _ _ _ _ _ _ (h.run h.fits) h.holds hFits rfl
    h.paths nodup_linkFiles h.observed_link hOk))

omit [Platform] in
/-- The file and its link are both found once they have been touched, and not before. -/
theorem updateIndex_mirrors_touched : ∃ _ : Platform, ∃ s,
    (∃ J s', FsE.runAlone 0 (updateIndex touchedWorld mixedConfig) s = (.ok J, s') ∧
      s'.dir.openIndex = .ok (some J) ∧
      (J.rows.map Prod.snd).Perm (touchedFiles.map (rowOf touchedWorld.indexRead))) ∧
    ∃ J s', FsE.runAlone 0 (updateIndex linkWorld mixedConfig) s = (.ok J, s') ∧
      s'.dir.openIndex = .ok (some J) ∧
      ¬ (J.rows.map Prod.snd).Perm (linkFiles.map (rowOf linkWorld.indexRead)) := by
  refine ⟨Platform.reference, ?_⟩
  let _ := Platform.reference
  obtain ⟨I, seg, d, h⟩ := exists_builtOne
  refine ⟨⟨d, none, 0⟩, ?_, ?_⟩
  · obtain ⟨hFits, -⟩ := BuiltOne.exists_touched h
    obtain ⟨J, s', hOk⟩ := BuiltOne.run_touched h
    obtain ⟨hOpen, hIff⟩ := updateIndex_mirrors_iff (h.run h.fits) h.holds hFits rfl h.paths
      nodup_touchedFiles h.observed_touched hOk
    exact ⟨J, s', hOk, hOpen, hIff.mpr h.linksRenewed_touched⟩
  · obtain ⟨hFits, -⟩ := h.exists_linked
    obtain ⟨J, s', hOk⟩ := h.run_linked
    obtain ⟨hOpen, hIff⟩ := updateIndex_mirrors_iff (h.run h.fits) h.holds hFits rfl h.paths
      nodup_linkFiles h.observed_link hOk
    exact ⟨J, s', hOk, hOpen, fun hPerm => h.not_linksRenewed (hIff.mp hPerm)⟩

end Update

end Ripindex
