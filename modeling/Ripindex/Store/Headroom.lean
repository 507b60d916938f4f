import Ripindex.Store.Passes

/-!
# Headroom for all the passes

A pass that commits uses up an id for each group of segments, room for the documents it moves,
and one generation. Each group takes two off the number of segments and of those with deletions,
and gives one back. So the segments there are bound what all the passes together use up, and
headroom over the first index is room for each of them.

## Results

* `mergeBudget_of_planned`  — what a plan costs is paid from the budget;
* `Headroom.merged`         — a pass leaves headroom for the ones after it;
* `PassesFit.of_headroom`   — every pass has room;
* `merging_converges`       — repeated passes.
-/

namespace Ripindex

-- ---------------------------------------------------------------------------
-- The budget
-- ---------------------------------------------------------------------------

/-- As many groups as all the passes over these segments can have. -/
def mergeBudget (es : List SegmentEntry) : ℕ := es.length + es.countP SegmentEntry.hasDeletions

theorem mergeBudget_perm {es es' : List SegmentEntry} (h : es.Perm es') :
    mergeBudget es = mergeBudget es' := by
  rw [mergeBudget, mergeBudget, h.length_eq, h.countP_eq]

section Planned

variable {policy : MergePolicy} {es : List SegmentEntry}

/-- The segments rewritten for their deletions, and the groups of the tiers. -/
theorem exists_tierGroups (hIds : (es.map SegmentEntry.segmentId).Nodup) :
    ∃ tiers : List (List UInt32),
      planMerges policy es = (es.filter (rewritten policy)).map (fun e => [e.segmentId]) ++ tiers ∧
        2 * tiers.length ≤ tiers.flatten.length := by
  refine ⟨_, planMerges_eq hIds, ?_⟩
  have hTwo := List.card_nsmul_le_sum (((collect SegmentEntry.tier SegmentEntry.segmentId
    (es.filter (pooled policy))).flatMap fun t => tierGroups policy t.2).map List.length) 2 (by
      intro n hn
      obtain ⟨g, hg, rfl⟩ := List.mem_map.mp hn
      obtain ⟨t, -, hg⟩ := List.mem_flatMap.mp hg
      exact (mem_tierGroups.mp hg).2.1)
  rw [List.length_map, Nat.nsmul_eq_mul, ← List.length_flatten] at hTwo
  omega

/-- A plan takes two for each of its groups: the segments of a tier, or one segment and its
deletions. -/
theorem two_mul_length_planMerges (hThreshold : 0 ≤ policy.delFractionThreshold)
    (hIds : (es.map SegmentEntry.segmentId).Nodup) :
    2 * (planMerges policy es).length ≤ (planMerges policy es).flatten.length +
      (es.filter fun e => e.segmentId ∈ (planMerges policy es).flatten).countP
        SegmentEntry.hasDeletions := by
  obtain ⟨tiers, hPlan, hTwo⟩ := @exists_tierGroups policy es hIds
  have hDeletions : es.countP (rewritten policy) ≤
      (es.filter fun e => e.segmentId ∈ (planMerges policy es).flatten).countP
        SegmentEntry.hasDeletions := by
    rw [List.countP_filter]
    refine List.countP_mono_left fun e he hRew => ?_
    have hPlanned : e.segmentId ∈ (planMerges policy es).flatten :=
      List.mem_flatten.mpr ⟨[e.segmentId], (mem_planMerges hIds).mpr (.inl ⟨e, he, hRew, rfl⟩),
        List.mem_singleton_self _⟩
    rw [hasDeletions_of_rewritten hThreshold hRew, decide_eq_true hPlanned]
    rfl
  have hSingle : ((es.filter (rewritten policy)).map fun e => [e.segmentId]).flatten.length =
      es.countP (rewritten policy) := by
    rw [← List.flatMap_def, List.countP_eq_length_filter]
    exact (congrArg List.length (List.flatMap_pure_eq_map ..)).trans (List.length_map _)
  have hLen : (planMerges policy es).length = es.countP (rewritten policy) + tiers.length := by
    rw [hPlan, List.length_append, List.length_map, List.countP_eq_length_filter]
  have hFlat : (planMerges policy es).flatten.length =
      es.countP (rewritten policy) + tiers.flatten.length := by
    rw [hPlan, List.flatten_append, List.length_append, hSingle]
  omega

/-- What a plan costs is paid from the budget. -/
theorem mergeBudget_of_planned (hThreshold : 0 ≤ policy.delFractionThreshold)
    (hIds : (es.map SegmentEntry.segmentId).Nodup) {merged : List SegmentEntry}
    (hLen : merged.length = (planMerges policy es).length)
    (hClean : ∀ e ∈ merged, e.hasDeletions = false) :
    mergeBudget ((es.filter fun e => e.segmentId ∉ (planMerges policy es).flatten) ++ merged) +
      (planMerges policy es).length ≤ mergeBudget es := by
  have hKept := length_kept_add hIds (@planMerges_nodup policy _ hIds)
    fun _ => exists_of_planned hIds
  have hTwo := two_mul_length_planMerges hThreshold hIds
  have hZero : merged.countP SegmentEntry.hasDeletions = 0 :=
    List.countP_eq_zero.mpr fun e he => by rw [hClean e he]; exact Bool.false_ne_true
  have hSplit := List.countP_eq_countP_filter_add es SegmentEntry.hasDeletions
    fun e => decide (e.segmentId ∉ (planMerges policy es).flatten)
  simp only [decide_not, Bool.not_not] at hSplit hKept ⊢
  rw [mergeBudget, mergeBudget, List.length_append, List.countP_append, hZero, hLen]
  omega

end Planned

-- ---------------------------------------------------------------------------
-- The documents of a group
-- ---------------------------------------------------------------------------

section Group

variable [Platform] {I : Index} {g : List UInt32} {segs : List Segment}

omit [Platform] in
/-- The records of an index. -/
def Index.records (I : Index) : List DocMeta := I.rows.map fun r => r.2.record

omit [Platform] in
/-- What a group moves are records of the index. -/
theorem movedRecords_subperm (hSound : I.Sound) (h : SourcesOf I g segs) :
    (movedRecords I g).Subperm I.records := by
  have hMoved : movedRecords I g = (I.withIds g).flatMap fun s =>
      (s.rows I.overlay).map fun r => r.2.record := by
    have hRows : ∀ s : Segment, (s.sourceRows I.overlay).map (fun e => e.2.record) =
        (s.rows I.overlay).map fun r => r.2.record := fun s => by
      rw [Segment.sourceRows, Segment.rows, List.map_filterMap, List.map_filterMap]
      refine List.filterMap_congr fun i _ => ?_
      rw [Option.map_map, Option.map_map]
      rfl
    have hIn : ∀ s ∈ I.withIds g, s ∈ I.segments := by
      intro s hs
      obtain ⟨id, -, hFind⟩ := List.mem_filterMap.mp hs
      exact List.mem_of_find?_eq_some hFind
    show (survivors I (I.withIds g)).map Prod.snd = _
    rw [survivors_eq hIn, movedRows, List.map_map, List.map_flatMap]
    exact List.flatMap_congr fun s _ => hRows s
  have hPerm := (perm_withIds hSound h.nodup).flatMap_right
    fun s => (s.rows I.overlay).map fun r => r.2.record
  rw [hMoved, Index.records, Index.rows, List.map_flatMap]
  exact hPerm.subperm.trans (List.filter_sublist.flatMap _).subperm

/-- The merged segments end behind the documents moved. -/
theorem endDoc_mergedSegments_le {xs : List StagedMerge} {bound : Nat} {id : UInt32}
    (h : MergesFit bound id (xs.map StagedMerge.merge)) :
    ∀ s ∈ mergedSegments I id (UInt32.ofNat bound) xs,
      s.entry.endDoc ≤ bound + (xs.map fun x => x.merge.numDocs.toNat).sum := by
  induction xs generalizing bound id with
  | nil => exact fun s hs => absurd hs List.not_mem_nil
  | cons x xs ih =>
    obtain ⟨hLt, -, hRest⟩ := h
    have hNum : UInt32.ofNat bound + x.merge.numDocs =
        UInt32.ofNat (bound + x.merge.numDocs.toNat) := by
      rw [UInt32.ofNat_add, UInt32.ofNat_toNat]
    rw [List.map_cons, List.sum_cons]
    refine List.forall_mem_cons.mpr ⟨?_, fun s hs => ?_⟩
    · rw [SegmentEntry.endDoc, StagedMerge.baseDoc_segment, StagedMerge.numDocs_segment,
        UInt32.toNat_ofNat_of_lt' hLt]
      omega
    · rw [hNum] at hs
      have hTail := ih hRest s hs
      omega

end Group

-- ---------------------------------------------------------------------------
-- Headroom
-- ---------------------------------------------------------------------------

section Headroom

variable [Platform] {policy : MergePolicy} {I J : Index}

/-- An index as operations leave it, with room for all the passes over it: ids and generations
for as many groups as the budget has, and behind the last document as often all the live ones.
The live documents fit one doc table. -/
structure Headroom (I : Index) : Prop where
  sound : I.Sound
  patchesLt : I.PatchesLt
  short : ∀ s ∈ I.segments, s.Short
  ids : I.manifest.nextSegmentId.toNat + mergeBudget I.manifest.segments < 2 ^ 32
  docs : Index.endBound I.manifest.segments +
    mergeBudget I.manifest.segments * I.records.length < 2 ^ 32
  generation : I.manifest.generation.toNat + mergeBudget I.manifest.segments < 2 ^ 64
  paths : (I.records.map fun d => d.path.utf8ByteSize).sum < 2 ^ 32
  lens : ∀ d ∈ I.records, d.status ≠ .indexed → d.len = 0

omit [Platform] in
theorem length_planMerges_le (hThreshold : 0 ≤ policy.delFractionThreshold)
    (hIds : I.manifest.DistinctIds) :
    (planMerges policy I.manifest.segments).length ≤ mergeBudget I.manifest.segments := by
  have hTwo := @two_mul_length_planMerges policy _ hThreshold hIds
  have hKept := length_kept_add hIds (@planMerges_nodup policy _ hIds)
    fun _ => exists_of_planned hIds
  have hDeletions := (List.filter_sublist (p := fun e : SegmentEntry =>
    decide (e.segmentId ∈ (planMerges policy I.manifest.segments).flatten))
      (l := I.manifest.segments)).countP_le (p := SegmentEntry.hasDeletions)
  rw [mergeBudget]
  omega

omit [Platform] in
/-- The documents that a plan moves: each of its groups at most all there are. -/
theorem sum_movedRecords_le (hSound : I.Sound) (policy : MergePolicy) :
    ((planMerges policy I.manifest.segments).map fun g => (movedRecords I g).length).sum ≤
      (planMerges policy I.manifest.segments).length * I.records.length := by
  have hSum := List.sum_le_card_nsmul ((planMerges policy I.manifest.segments).map fun g =>
    (movedRecords I g).length) I.records.length (by
      intro n hn
      obtain ⟨g, hg, rfl⟩ := List.mem_map.mp hn
      obtain ⟨segs, hSources⟩ := exists_sources hSound hg
      exact (movedRecords_subperm hSound hSources).length_le)
  rwa [List.length_map, Nat.nsmul_eq_mul] at hSum

omit [Platform] in
/-- With headroom what is planned fits. -/
theorem Headroom.groupsFit (h : Headroom I) (hThreshold : 0 ≤ policy.delFractionThreshold)
    (hSome : planMerges policy I.manifest.segments ≠ []) :
    GroupsFit I (planMerges policy I.manifest.segments) := by
  have hGroups := length_planMerges_le hThreshold h.sound.distinctIds
  have hPos := List.length_pos_iff.mpr hSome
  have hMoved := sum_movedRecords_le h.sound policy
  have hAll := Nat.mul_le_mul_right I.records.length hGroups
  have hOnce := Nat.mul_le_mul_right I.records.length (Nat.le_trans hPos hGroups)
  have hIds := h.ids
  have hDocs := h.docs
  have hGeneration := h.generation
  refine ⟨by omega, by omega, by omega, fun g hg => ?_⟩
  obtain ⟨segs, hSources⟩ := exists_sources h.sound hg
  have hSub := movedRecords_subperm h.sound hSources
  refine ⟨?_, ?_, fun d hd => h.lens d (hSub.subset hd)⟩
  · have hLen := hSub.length_le
    omega
  · obtain ⟨l, hPerm, hSublist⟩ := hSub
    rw [← (hPerm.map fun d => d.path.utf8ByteSize).sum_eq]
    exact Nat.lt_of_le_of_lt ((hSublist.map _).sum_le_sum fun _ _ => Nat.zero_le _) h.paths

/-- A pass leaves the documents as they are. -/
theorem records_spliced {now : Int64} {xs : List StagedMerge} (h : Headroom I)
    (hPrepared : PreparedFrom policy I xs) (hRoom : MergeRoom I (xs.map StagedMerge.merge)) :
    (splicedIndex now I xs hRoom).records.Perm I.records := by
  have hMerge : Mergeable I I xs := by
    refine ⟨fun x hx => ?_, ?_, hPrepared.listed h.sound⟩
    · obtain ⟨g, -, segs, hSources, hPrepares⟩ := exists_of_forall₂ hPrepared hx
      rw [hPrepares.sourceIds]
      exact ⟨segs, hSources.found, hPrepares⟩
    · rw [mergedIds_of_sourceIds hPrepared.sourceIds]
      exact planMerges_nodup h.sound.distinctIds
  have hRows := rows_splicedIndex now h.sound h.sound h.patchesLt (Index.Evolves.refl I) h.short
    hMerge hRoom
  have hSame : (I.segments.flatMap fun s => (s.rows (mergedOverlay I I xs s)).map Prod.snd) =
      I.rows.map Prod.snd := by
    rw [Index.rows, List.map_flatMap]
    refine List.flatMap_congr fun s _ => ?_
    rw [mergedOverlay, ite_self]
  rw [hSame] at hRows
  have hRecords := hRows.map DocRow.record
  rwa [List.map_map, List.map_map] at hRecords

/-- A pass that commits leaves headroom for the ones after it. -/
theorem Headroom.merged {now : Int64} {xs : List StagedMerge} (h : Headroom I)
    (hThreshold : 0 ≤ policy.delFractionThreshold)
    (hSome : planMerges policy I.manifest.segments ≠ []) (hPrepared : PreparedFrom policy I xs)
    (hRoom : MergeRoom I (xs.map StagedMerge.merge)) :
    Headroom (splicedIndex now I xs hRoom) := by
  have hRecords : (splicedIndex now I xs hRoom).records.Perm I.records :=
    records_spliced h hPrepared hRoom
  have hLength : xs.length = (planMerges policy I.manifest.segments).length := by
    rw [← hPrepared.sourceIds, List.length_map]
  have hBudget : mergeBudget (splicedIndex now I xs hRoom).manifest.segments + xs.length ≤
      mergeBudget I.manifest.segments := by
    show mergeBudget (splicedManifest now I xs).segments + _ ≤ _
    rw [mergeBudget_perm splicedManifest_perm, keptEntries,
      mergedIds_of_sourceIds hPrepared.sourceIds, hLength]
    refine mergeBudget_of_planned hThreshold h.sound.distinctIds ?_ fun e he => ?_
    · rw [List.length_map, length_mergedSegments, hLength]
    · obtain ⟨s, hs, rfl⟩ := List.mem_map.mp he
      exact hasDeletions_mergedSegments hPrepared.plannedFrom.current _ _ s hs
  have hPos : 0 < xs.length := hLength ▸ List.length_pos_iff.mpr hSome
  have hIds := h.ids
  have hGeneration := h.generation
  refine ⟨splicedIndex_sound h.sound hRoom, ?_, ?_, ?_, ?_, ?_, ?_, ?_⟩
  · exact fun p hp => Nat.lt_of_lt_of_le (h.patchesLt p hp) (splicedIndex_grows hRoom).bound_le
  · intro s hs
    rcases List.mem_append.mp hs with hs | hs
    · exact h.short s (List.mem_filter.mp hs).1
    · refine Operation.short_mergedSegments (fun x hx => ?_) _ _ s hs
      obtain ⟨g, -, segs, -, hPrepares⟩ := exists_of_forall₂ hPrepared hx
      exact ⟨I, g, segs, hPrepares⟩
  · show (I.manifest.nextSegmentId + UInt32.ofNat xs.length).toNat + _ < _
    rw [toNat_add_ofNat (by omega)]
    omega
  · -- The documents moved come once off the room that the budget stands for.
    have hEnd : Index.endBound (splicedIndex now I xs hRoom).manifest.segments ≤
        Index.endBound I.manifest.segments + xs.length * I.records.length := by
      have hMoved := sum_movedRecords_le h.sound policy
      rw [← hPrepared.numDocs, ← hLength] at hMoved
      refine Index.endBound_le fun e he => ?_
      obtain ⟨s, hs, rfl⟩ := Index.mem_manifest_segments.mp he
      rcases List.mem_append.mp hs with hs | hs
      · have hOld := Index.endDoc_le_endBound
          (Index.mem_manifest_segments.mpr ⟨s, (List.mem_filter.mp hs).1, rfl⟩)
        omega
      · have hNew := endDoc_mergedSegments_le hRoom.fit s hs
        omega
    have hDocs := h.docs
    have hAll := Nat.mul_le_mul_right I.records.length hBudget
    rw [Nat.add_mul] at hAll
    rw [hRecords.length_eq]
    omega
  · show (I.manifest.generation + 1).toNat + _ < _
    rw [UInt64.toNat_add, UInt64.toNat_one, Nat.mod_eq_of_lt (by omega)]
    omega
  · rw [(hRecords.map _).sum_eq]
    exact h.paths
  · exact fun d hd => h.lens d (hRecords.mem_iff.mp hd)

theorem PassLeaves.headroom (h : PassLeaves policy I J)
    (hThreshold : 0 ≤ policy.delFractionThreshold) (hRoom : Headroom I) : Headroom J := by
  cases h with
  | same => exact hRoom
  | merged hSome hPrepared hMergeRoom => exact hRoom.merged hThreshold hSome hPrepared hMergeRoom

end Headroom

-- ---------------------------------------------------------------------------
-- Repeated passes
-- ---------------------------------------------------------------------------

/-- What passes need to succeed: a lock that is free before the first one, a staging directory
that can be listed, and room for what is planned over each index they come to. -/
structure PassesFit [Platform] (policy : MergePolicy)
    (entries : ℕ → Except IoError (List (StagingTag × SegmentPart))) (s : ℕ → FsState) : Prop where
  free : (s 0).lock = none
  listed : ∀ n e, entries n = .error e → e = .notFound
  fit : ∀ n (J : Index), (s n).dir.Holds (some J) → planMerges policy J.manifest.segments ≠ [] →
    GroupsFit J (planMerges policy J.manifest.segments)

section Passes

variable [Platform] {policy : MergePolicy} {c : Pid} {now : ℕ → Int64}
  {entries : ℕ → Except IoError (List (StagingTag × SegmentPart))} {s : ℕ → FsState}
  {r : ℕ → Except Error Index} {I : Index}

/-- Passes that have room over every index with `P` succeed one after the other, if `P` holds of
the first index and each pass leaves it true. -/
theorem run_passes {P : Index → Prop} (hFree : (s 0).lock = none)
    (hListed : ∀ n e, entries n = .error e → e = .notFound) (hBacked : I.Backed (s 0).dir)
    (hFirst : P I) (hSound : ∀ J, P J → J.Sound)
    (hFit : ∀ n J, (s n).dir.Holds (some J) → P J → planMerges policy J.manifest.segments ≠ [] →
      GroupsFit J (planMerges policy J.manifest.segments))
    (hKeeps : ∀ J J', PassLeaves policy J J' → P J → P J')
    (hRun : ∀ n, FsE.runAlone c (mergeIndex (now n) (entries n) policy) (s n) =
      (r n, s (n + 1))) (n : ℕ) :
    ∃ J J', (s n).dir.Holds (some J) ∧ P J ∧ r n = .ok J' ∧ (s (n + 1)).dir.Holds (some J') ∧
      PassLeaves policy J J' := by
  have hPass : ∀ n J, (s n).lock = none → (s n).dir.Holds (some J) → P J →
      ∃ J', r n = .ok J' ∧ (s (n + 1)).lock = none ∧ (s (n + 1)).dir.Holds (some J') ∧
        PassLeaves policy J J' := by
    intro n J hFree hHolds hJ
    obtain ⟨J', d, tags, hOk, hHolds', hLeaves⟩ := run_mergeIndex_ok (c := c) (now n) (hListed n)
      hFree hHolds (hSound J hJ) (hFit n J hHolds hJ)
    rw [hRun n] at hOk
    obtain ⟨hRes, hState⟩ := Prod.mk.inj hOk
    rw [hState]
    exact ⟨J', hRes, rfl, hHolds', hLeaves⟩
  have hReady : (s n).lock = none ∧ ∃ J, (s n).dir.Holds (some J) ∧ P J := by
    induction n with
    | zero => exact ⟨hFree, I, hBacked, hFirst⟩
    | succ n ih =>
      obtain ⟨hFree, J, hHolds, hJ⟩ := ih
      obtain ⟨J', -, hFree', hHolds', hLeaves⟩ := hPass n J hFree hHolds hJ
      exact ⟨hFree', J', hHolds', hKeeps J J' hLeaves hJ⟩
  obtain ⟨hFree, J, hHolds, hJ⟩ := hReady
  obtain ⟨J', hRes, -, hHolds', hLeaves⟩ := hPass n J hFree hHolds hJ
  exact ⟨J, J', hHolds, hJ, hRes, hHolds', hLeaves⟩

/-- Headroom over the first index is room for all the passes. -/
theorem PassesFit.of_headroom (hThreshold : 0 ≤ policy.delFractionThreshold)
    (hFree : (s 0).lock = none) (hListed : ∀ n e, entries n = .error e → e = .notFound)
    (hBacked : I.Backed (s 0).dir) (hRoom : Headroom I)
    (hRun : ∀ n, FsE.runAlone c (mergeIndex (now n) (entries n) policy) (s n) =
      (r n, s (n + 1))) : PassesFit policy entries s := by
  refine ⟨hFree, hListed, fun n J hHolds => ?_⟩
  obtain ⟨K, -, hK, hRoomK, -, -, -⟩ := run_passes hFree hListed hBacked hRoom
    (fun _ hJ => hJ.sound) (fun _ _ _ hJ => hJ.groupsFit hThreshold)
    (fun _ _ hLeaves hJ => hLeaves.headroom hThreshold hJ) hRun n
  obtain rfl := Option.some.inj (hHolds.unique hK)
  exact hRoomK.groupsFit hThreshold

/-- With room every pass succeeds, and leaves a smaller manifest where it planned something. -/
theorem PassesFit.pass (hFit : PassesFit policy entries s)
    (hThreshold : 0 ≤ policy.delFractionThreshold) (hSound : I.Sound)
    (hBacked : I.Backed (s 0).dir)
    (hRun : ∀ n, FsE.runAlone c (mergeIndex (now n) (entries n) policy) (s n) =
      (r n, s (n + 1))) {m : ℕ → Manifest}
    (hDisk : ∀ n, (s n).dir.lookup .manifest = some (manifestFile (m n))) (n : ℕ) :
    (∃ J, r n = .ok J ∧ J.manifest = m (n + 1)) ∧
      (planMerges policy (m n).segments ≠ [] →
        mergeSize (m (n + 1)).segments < mergeSize (m n).segments) := by
  obtain ⟨J, J', hHolds, hJ, hRes, hHolds', hLeaves⟩ := run_passes hFit.free hFit.listed hBacked
    hSound (fun _ h => h) (fun n J hHolds _ => hFit.fit n J hHolds)
    (fun _ _ hLeaves => hLeaves.sound) hRun n
  have hLt := hLeaves.lt hThreshold hJ
  have hBefore : J.manifest = m n := manifestFile_inj (hHolds.manifest.symm.trans (hDisk n))
  have hAfter : J'.manifest = m (n + 1) :=
    manifestFile_inj (hHolds'.manifest.symm.trans (hDisk (n + 1)))
  rw [hBefore, hAfter] at hLt
  exact ⟨⟨J', hRes, hAfter⟩, hLt⟩

/-- Merging converges. However often `merge_index` is repeated over a committed index, with no
other commit in between, each pass leaves the manifest as it is or puts a smaller one in its
place; from some pass on nothing is committed, and a pass that succeeds finds nothing to merge.
With room every pass succeeds and commits what it planned, so that some pass leaves nothing to
merge; and headroom over the first index is room for all the passes. -/
theorem merging_converges (hThreshold : 0 ≤ policy.delFractionThreshold) (hSound : I.Sound)
    (hBacked : I.Backed (s 0).dir)
    (hRun : ∀ n, FsE.runAlone c (mergeIndex (now n) (entries n) policy) (s n) =
      (r n, s (n + 1))) :
    ∃ m : ℕ → Manifest, m 0 = I.manifest ∧
      (∀ n, (s n).dir.lookup .manifest = some (manifestFile (m n))) ∧
      (∀ n, m (n + 1) = m n ∨ mergeSize (m (n + 1)).segments < mergeSize (m n).segments) ∧
      (∃ N, ∀ n ≥ N, m n = m N ∧
        ∀ J, r n = .ok J → J.manifest = m N ∧ planMerges policy (m N).segments = []) ∧
      ((s 0).lock = none → (∀ n e, entries n = .error e → e = .notFound) → Headroom I →
        PassesFit policy entries s) ∧
      (PassesFit policy entries s →
        (∀ n, (∃ J, r n = .ok J ∧ J.manifest = m (n + 1)) ∧
          (planMerges policy (m n).segments ≠ [] →
            mergeSize (m (n + 1)).segments < mergeSize (m n).segments)) ∧
        ∃ N, planMerges policy (m N).segments = []) := by
  have hPass : ∀ n, MergePass policy (s n).dir (s (n + 1)).dir (r n) := by
    intro n
    have h := run_mergeIndex (c := c) (now n) (entries n) policy (s n)
    rwa [hRun n] at h
  have hStart : (s 0).dir.lookup .manifest = some (manifestFile I.manifest) := hBacked.manifest
  have hInv : ∀ n, ∃ m, (s n).dir.lookup .manifest = some (manifestFile m) ∧
      (m.Ok → m.DistinctIds) := by
    intro n
    induction n with
    | zero => exact ⟨_, hStart, fun _ => hSound.distinctIds⟩
    | succ n ih =>
      obtain ⟨m, hDisk, hIds⟩ := ih
      rcases (hPass n).step hThreshold hDisk hIds with ⟨hSame, -⟩ | ⟨m', hNew, hIds', -⟩
      · exact ⟨m, hSame, hIds⟩
      · exact ⟨m', hNew, hIds'⟩
  choose m hDisk hIds using hInv
  have hStep : ∀ n, (m (n + 1) = m n ∧
      ∀ J, r n = .ok J → J.manifest = m n ∧ planMerges policy (m n).segments = []) ∨
      mergeSize (m (n + 1)).segments < mergeSize (m n).segments := by
    intro n
    rcases (hPass n).step hThreshold (hDisk n) (hIds n) with ⟨hSame, hOk⟩ | ⟨m', hNew, -, hLt⟩
    · exact .inl ⟨manifestFile_inj ((hDisk (n + 1)).symm.trans hSame), hOk⟩
    · rw [manifestFile_inj (hNew.symm.trans (hDisk (n + 1)))] at hLt
      exact .inr hLt
  have hAntitone : Antitone fun n => mergeSize (m n).segments := by
    refine antitone_nat_of_succ_le ?_
    intro n
    rcases hStep n with ⟨hSame, -⟩ | hLt
    · exact (congrArg (fun m : Manifest => mergeSize m.segments) hSame).le
    · exact hLt.le
  obtain ⟨N, hN⟩ := WellFoundedLT.antitone_chain_condition hAntitone
  -- From there on no pass makes the manifest smaller, so none commits.
  have hStays : ∀ n ≥ N, m (n + 1) = m n ∧
      ∀ J, r n = .ok J → J.manifest = m n ∧ planMerges policy (m n).segments = [] := by
    intro n hn
    refine (hStep n).resolve_right ?_
    intro hLt
    rw [← hN n hn, ← hN (n + 1) (Nat.le_succ_of_le hn)] at hLt
    exact lt_irrefl _ hLt
  have hConst : ∀ n ≥ N, m n = m N := by
    intro n hn
    induction n, hn using Nat.le_induction with
    | base => rfl
    | succ n hn ih => exact (hStays n hn).1.trans ih
  refine ⟨m, manifestFile_inj ((hDisk 0).symm.trans hStart), hDisk, fun n => ?_,
    ⟨N, fun n hn => ?_⟩, fun hFree hListed hRoom =>
      .of_headroom hThreshold hFree hListed hBacked hRoom hRun, fun hFit => ?_⟩
  · exact (hStep n).imp_left And.left
  · refine ⟨hConst n hn, fun J hJ => ?_⟩
    rw [← hConst n hn]
    exact (hStays n hn).2 J hJ
  · have hPasses := hFit.pass hThreshold hSound hBacked hRun hDisk
    refine ⟨hPasses, N, ?_⟩
    obtain ⟨J, hJ, -⟩ := (hPasses N).1
    exact ((hStays N (Nat.le_refl N)).2 J hJ).2

end Passes

-- ---------------------------------------------------------------------------
-- A rewrite
-- ---------------------------------------------------------------------------

/-- One segment has headroom if the counters suffice for two more passes and its paths fit the
heap. -/
theorem headroom_single {I : Index} {t : Segment} {k : ℕ} (hSound : I.Sound)
    (hSegs : I.segments = [t]) (hOverlay : I.overlay = .empty) (hShort : t.Short)
    (hIds : I.manifest.nextSegmentId.toNat + 2 < 2 ^ 32)
    (hDocs : t.entry.endDoc + 2 * t.entry.numDocs.toNat < 2 ^ 32)
    (hGen : I.manifest.generation.toNat + 2 < 2 ^ 64)
    (hPaths : ∀ d ∈ t.docs, d.path.utf8ByteSize ≤ k) (hHeap : t.entry.numDocs.toNat * k < 2 ^ 32)
    (hLens : ∀ d ∈ t.docs, d.status ≠ .indexed → d.len = 0) : Headroom I := by
  have hEntries : I.manifest.segments = [t.entry] := by rw [← I.entries_eq, hSegs]; rfl
  have hBudget : mergeBudget I.manifest.segments ≤ 2 := by
    have hOne := @List.countP_le_length _ SegmentEntry.hasDeletions I.manifest.segments
    rw [mergeBudget]
    rw [hEntries, List.length_singleton] at hOne ⊢
    omega
  have hRows : I.rows = t.rows I.overlay := by
    rw [Index.rows, hSegs]
    exact List.flatMap_singleton ..
  have hLength : I.records.length ≤ t.entry.numDocs.toNat := by
    rw [Index.records, List.length_map, hRows]
    exact (List.length_filterMap_le _ _).trans List.length_range.le
  have hOf : ∀ d ∈ I.records, d ∈ t.docs := by
    intro d hd
    obtain ⟨r, hr, rfl⟩ := List.mem_map.mp hd
    rw [hRows] at hr
    obtain ⟨i, -, -, hRow⟩ := Segment.mem_rows.mp hr
    obtain ⟨m, hMeta, hEq⟩ := Option.map_eq_some_iff.mp hRow
    rw [hOverlay] at hEq
    obtain rfl : m = r.2.record := congrArg DocRow.record hEq
    unfold Segment.docMeta at hMeta
    split_ifs at hMeta
    exact List.mem_of_getElem? hMeta
  have hRoom := Nat.mul_le_mul hBudget hLength
  refine ⟨hSound, ?_, ?_, by omega, ?_, by omega, ?_, fun d hd => hLens d (hOf d hd)⟩
  · intro p hp
    rw [hOverlay] at hp
    cases hp
  · intro s hs
    rw [hSegs, List.mem_singleton] at hs
    exact hs ▸ hShort
  · have hEnd : Index.endBound I.manifest.segments = t.entry.endDoc := by
      rw [hEntries, Index.endBound_cons, Index.endBound_nil, Nat.max_zero]
    omega
  · have hSum := List.sum_le_card_nsmul (I.records.map fun d => d.path.utf8ByteSize) k
      (by simpa using fun d hd => hPaths d (hOf d hd))
    rw [List.length_map, Nat.nsmul_eq_mul] at hSum
    exact Nat.lt_of_le_of_lt (hSum.trans (Nat.mul_le_mul_right k hLength)) hHeap

theorem hasDeletions_of_isDeleted {s : Segment} {i : DocId} (h : s.isDeleted i = true) :
    s.entry.hasDeletions = true := by
  unfold Segment.isDeleted at h
  rcases hDel : s.del with _ | b
  · rw [hDel] at h
    cases h
  rw [hDel, Option.any_some, Bitmap.get, List.getD_eq_getElem?_getD] at h
  have hMem : true ∈ b.bits := by
    rcases hBit : b.bits[i.toNat]? with _ | v
    · rw [hBit] at h
      cases h
    · rw [hBit] at h
      obtain rfl : v = true := h
      exact List.mem_of_getElem? hBit
  have hPos := List.count_pos_iff.mpr hMem
  rw [← b.toNat_count, s.count_del b hDel] at hPos
  exact decide_eq_true (UInt32.lt_iff_toNat_lt.mpr hPos)

/-- With threshold 0, a segment with deletions is rewritten. -/
theorem planMerges_ne_nil_of_hasDeletions {policy : MergePolicy} {es : List SegmentEntry}
    {e : SegmentEntry} (hZero : policy.delFractionThreshold = 0) (he : e ∈ es)
    (hCap : e.totalBytes ≤ policy.maxSegmentBytes) (hDel : e.hasDeletions = true)
    (hLe : e.numDeleted ≤ e.numDocs) : planMerges policy es ≠ [] := by
  have hDeleted := UInt32.lt_iff_toNat_lt.mp (of_decide_eq_true hDel)
  have hDocs : 0 < e.numDocs.toNat := Nat.lt_of_lt_of_le hDeleted (UInt32.le_iff_toNat_le.mp hLe)
  have hNe : e.numDocs ≠ 0 := by
    rintro hEq
    rw [hEq] at hDocs
    exact absurd hDocs (by decide)
  have hFraction : 0 < e.deletedFraction := by
    rw [SegmentEntry.deletedFraction, if_neg hNe]
    exact div_pos (Nat.cast_pos.mpr hDeleted) (Nat.cast_pos.mpr hDocs)
  have hRew : rewritten policy e = true := by
    simp only [rewritten, Bool.and_eq_true, decide_eq_true_eq, hZero]
    exact ⟨⟨UInt32.lt_iff_toNat_lt.mpr hDocs, hFraction⟩, hCap⟩
  intro hNil
  have hUsed : (es.filter (rewritten policy)).map SegmentEntry.segmentId = [] := by
    have hLeft := (List.append_eq_nil_iff.mp hNil).1
    exact List.map_eq_nil_iff.mp hLeft
  exact List.ne_nil_of_mem (List.mem_filter.mpr ⟨he, hRew⟩) (List.map_eq_nil_iff.mp hUsed)

/-- One document of two is deleted, and the segment is to be rewritten: the first pass does so,
and leaves nothing to merge. -/
theorem merging_converges_rewrite : ∃ _ : Platform, ∃ policy, ∃ I : Index, ∃ s : ℕ → FsState,
    ∃ r : ℕ → Except Error Index, I.Backed (s 0).dir ∧
      (∀ n, FsE.runAlone 0 (mergeIndex 0 (.ok []) policy) (s n) = (r n, s (n + 1))) ∧
      planMerges policy I.manifest.segments ≠ [] ∧
      ∃ m : ℕ → Manifest, m 0 = I.manifest ∧
        (∀ n, (s n).dir.lookup .manifest = some (manifestFile (m n))) ∧
        (∀ n, ∃ J, r n = .ok J) ∧
        mergeSize (m 1).segments < mergeSize (m 0).segments ∧
        ∃ N, planMerges policy (m N).segments = [] := by
  refine ⟨Platform.reference, ?_⟩
  let _ := Platform.reference
  obtain ⟨h, t, hBuild⟩ := exists_mixed_build
  obtain ⟨d, hCur⟩ := hBuild.exists_backed
  have hNum : t.entry.numDocs.toNat = 2 := hBuild.records.numDocs
  have hSecond : (1 : DocId) < t.entry.numDocs := by
    rw [UInt32.lt_iff_toNat_lt, hNum]
    decide
  have hGives := hBuild.gives hSecond
  generalize hI : deletedIndex 0 h [1] (deletedManifest_ok (hBuild.deleteRoom 1)) = I at hGives
  have hSegs : I.segments = [t.tombstoned [1]] := by
    rw [← hI]
    exact hBuild.amendedSegments hSecond
  obtain ⟨d₁, hBacked⟩ : ∃ d₁ : Dir, I.Backed d₁ :=
    ⟨_, hGives.backed d (by simpa using hCur) (by simp)⟩
  have hEntries : I.manifest.segments = [(t.tombstoned [1]).entry] := by
    rw [← I.entries_eq, hSegs]
    rfl
  have hDel : (t.tombstoned [1]).entry.hasDeletions = true :=
    hasDeletions_of_isDeleted ((hBuild.isDeleted_tombstoned hSecond 1).mpr rfl)
  have hMem : (t.tombstoned [1]).entry ∈ I.manifest.segments := by
    rw [hEntries]
    exact List.mem_singleton_self _
  have hLe := (I.manifest_ok.entries _ hMem).deleted_le
  let policy : MergePolicy := ⟨4, 10, (t.tombstoned [1]).entry.totalBytes, 0⟩
  have hSome : planMerges policy I.manifest.segments ≠ [] :=
    planMerges_ne_nil_of_hasDeletions rfl hMem le_rfl hDel hLe
  have hRoom : Headroom I := by
    have hDocs : (t.tombstoned [1]).docs = mixedFiles.map (recorded mixedWorld.indexRead) :=
      (t.docs_tombstoned _).trans hBuild.records.docs
    refine @headroom_single _ _ 1 hGives.sound hSegs ?_ ?_ ?_ ?_ ?_ ?_ ?_ ?_
    · rw [← hI]
      exact hBuild.overlay
    · intro u hLong
      rw [Segment.idx_tombstoned]
      exact hBuild.records.short u hLong
    · rw [← hI]
      show h.manifest.nextSegmentId.toNat + 2 < _
      rw [hBuild.nextSegmentId]
      decide
    · rw [SegmentEntry.endDoc, Segment.baseDoc_tombstoned, Segment.numDocs_tombstoned,
        hBuild.baseDoc, hNum]
      decide
    · rw [← hI]
      show (h.manifest.generation + 1).toNat + 2 < _
      rw [hBuild.generation]
      decide
    · rw [hDocs]
      decide +kernel
    · rw [Segment.numDocs_tombstoned, hNum]
      decide
    · rw [hDocs]
      decide +kernel
  let next : FsState → Except Error Index × FsState :=
    FsE.runAlone 0 (mergeIndex 0 (.ok []) policy)
  let s : ℕ → FsState := fun n => (fun s => (next s).2)^[n] ⟨d₁, none, 0⟩
  have hRun : ∀ n, next (s n) = ((next (s n)).1, s (n + 1)) := by
    intro n
    show _ = (_, (fun s => (next s).2)^[n + 1] _)
    rw [Function.iterate_succ_apply']
  obtain ⟨m, hFirst, hDisk, -, -, hFits, hConverges⟩ := @merging_converges _ policy 0
    (fun _ => 0) (fun _ => .ok []) s (fun n => (next (s n)).1) _ le_rfl hGives.sound hBacked hRun
  obtain ⟨hPasses, hEnd⟩ := hConverges (hFits rfl (fun _ _ h => by cases h) hRoom)
  refine ⟨policy, I, s, _, hBacked, hRun, hSome, m, hFirst, hDisk, fun n => ?_, ?_, hEnd⟩
  · obtain ⟨J, hJ, -⟩ := (hPasses n).1
    exact ⟨J, hJ⟩
  · exact (hPasses 0).2 (hFirst ▸ hSome)

end Ripindex
