import Mathlib.Data.Prod.Lex
import Mathlib.Order.OrderIsoNat
import Ripindex.Store.MergeIndex

/-!
# Merging converges

Each pass of `merge_index` that commits leaves fewer segments, or as many of which fewer have
deletions.

## Results

* `lt_of_planned`         — what a plan leaves is smaller, however large the new segments are;
* `splicedManifest_lt`    — the manifest that a pass commits is smaller than the one it read;
* `MergePass.step`        — what one pass leaves on disk.
-/

namespace Ripindex

-- ---------------------------------------------------------------------------
-- The measure
-- ---------------------------------------------------------------------------

/-- A segment with at least one deletion. -/
def SegmentEntry.hasDeletions (e : SegmentEntry) : Bool := 0 < e.numDeleted

/-- The number of segments and the number of those with at least one deletion, in
lexicographic order. -/
def mergeSize (es : List SegmentEntry) : ℕ ×ₗ ℕ :=
  toLex (es.length, es.countP SegmentEntry.hasDeletions)

theorem mergeSize_perm {es es' : List SegmentEntry} (h : es.Perm es') :
    mergeSize es = mergeSize es' := by
  rw [mergeSize, mergeSize, h.length_eq, h.countP_eq]

section Planned

variable {policy : MergePolicy} {es : List SegmentEntry}

/-- A segment is rewritten for its deletions only if it has some. -/
theorem hasDeletions_of_rewritten (hThreshold : 0 ≤ policy.delFractionThreshold)
    {e : SegmentEntry} (h : rewritten policy e = true) : e.hasDeletions = true := by
  simp only [rewritten, Bool.and_eq_true, decide_eq_true_eq] at h
  obtain ⟨⟨hDocs, hFraction⟩, -⟩ := h
  by_contra hNone
  have hZero : e.numDeleted = 0 := by
    rw [SegmentEntry.hasDeletions, decide_eq_true_eq, UInt32.lt_iff_toNat_lt] at hNone
    exact UInt32.toNat_inj.mp (Nat.eq_zero_of_not_pos hNone)
  have hNoFraction : e.deletedFraction = 0 := by
    rw [SegmentEntry.deletedFraction, hZero]
    split
    · rfl
    · rw [UInt32.toNat_zero, Nat.cast_zero, zero_div]
  rw [hNoFraction] at hFraction
  exact absurd hFraction (not_lt.mpr hThreshold)

/-- The ids of a plan are ids of segments. -/
theorem exists_of_planned (hIds : (es.map SegmentEntry.segmentId).Nodup) {id : UInt32}
    (h : id ∈ (planMerges policy es).flatten) : ∃ e ∈ es, e.segmentId = id := by
  obtain ⟨group, hGroup, hId⟩ := List.mem_flatten.mp h
  rcases (mem_planMerges hIds).mp hGroup with ⟨e, he, -, rfl⟩ | ⟨t, -, -, hGroup⟩
  · exact ⟨e, he, (List.mem_singleton.mp hId).symm⟩
  · obtain ⟨e, he, -, -, hEq⟩ := mem_tierIds.mp (mem_of_mem_tierChunk hGroup hId)
    exact ⟨e, he, hEq⟩

theorem one_le_of_planned (hIds : (es.map SegmentEntry.segmentId).Nodup) {g : List UInt32}
    (hg : g ∈ planMerges policy es) : 1 ≤ g.length := by
  rcases (mem_planMerges hIds).mp hg with ⟨e, -, -, rfl⟩ | ⟨t, -, hTwo, -⟩
  · exact Nat.le_refl 1
  · omega

/-- The segments that are not planned, and those that are. -/
theorem length_kept_add (hIds : (es.map SegmentEntry.segmentId).Nodup) {ids : List UInt32}
    (hNodup : ids.Nodup) (hSub : ∀ id ∈ ids, ∃ e ∈ es, e.segmentId = id) :
    (es.filter fun e => e.segmentId ∉ ids).length + ids.length = es.length := by
  have hPerm : ((es.filter fun e => e.segmentId ∈ ids).map SegmentEntry.segmentId).Perm ids := by
    refine (List.perm_ext_iff_of_nodup (hIds.sublist (List.filter_sublist.map _)) hNodup).mpr
      fun id => ?_
    simp only [List.mem_map, List.mem_filter, decide_eq_true_eq]
    constructor
    · rintro ⟨e, ⟨-, hMem⟩, rfl⟩
      exact hMem
    · intro hMem
      obtain ⟨e, he, rfl⟩ := hSub id hMem
      exact ⟨e, ⟨he, hMem⟩, rfl⟩
  have hLen := hPerm.length_eq
  rw [List.length_map, ← List.countP_eq_length_filter] at hLen
  have hSplit := @List.length_eq_countP_add_countP _
    (fun e : SegmentEntry => decide (e.segmentId ∈ ids)) es
  rw [← List.countP_eq_length_filter, hSplit, hLen, Nat.add_comm]
  simp only [decide_eq_true_eq]

theorem length_le_length_flatten {groups : List (List UInt32)} (h : ∀ g ∈ groups, 1 ≤ g.length) :
    groups.length ≤ groups.flatten.length := by
  induction groups with
  | nil => exact Nat.le_refl 0
  | cons g groups ih =>
    obtain ⟨hHead, hTail⟩ := List.forall_mem_cons.mp h
    have hRest := ih hTail
    rw [List.flatten_cons, List.length_append, List.length_cons]
    omega

/-- A plan has no more groups than it has segments. -/
theorem length_kept_add_planned (policy : MergePolicy)
    (hIds : (es.map SegmentEntry.segmentId).Nodup) :
    (es.filter fun e => e.segmentId ∉ (planMerges policy es).flatten).length +
      (planMerges policy es).length ≤ es.length := by
  have hKept := length_kept_add hIds (@planMerges_nodup policy _ hIds)
    fun _ => exists_of_planned hIds
  have hGroups := length_le_length_flatten fun g hg => @one_le_of_planned policy _ hIds g hg
  omega

theorem length_lt_length_flatten {groups : List (List UInt32)} (h : ∀ g ∈ groups, 1 ≤ g.length)
    (hLarge : ∃ g ∈ groups, 2 ≤ g.length) : groups.length < groups.flatten.length := by
  induction groups with
  | nil =>
    obtain ⟨g, hg, -⟩ := hLarge
    cases hg
  | cons g groups ih =>
    obtain ⟨hHead, hTail⟩ := List.forall_mem_cons.mp h
    have hRest := length_le_length_flatten hTail
    rw [List.flatten_cons, List.length_append, List.length_cons]
    obtain ⟨g', hg', hTwo⟩ := hLarge
    rcases List.mem_cons.mp hg' with rfl | hg'
    · omega
    · have := ih hTail ⟨g', hg', hTwo⟩
      omega

/-- What a plan leaves, with one segment without deletions for each group, is smaller than what
it was made of. -/
theorem lt_of_planned (hThreshold : 0 ≤ policy.delFractionThreshold)
    (hIds : (es.map SegmentEntry.segmentId).Nodup) (hSome : planMerges policy es ≠ [])
    {merged : List SegmentEntry} (hLen : merged.length = (planMerges policy es).length)
    (hClean : ∀ e ∈ merged, e.hasDeletions = false) :
    mergeSize ((es.filter fun e => e.segmentId ∉ (planMerges policy es).flatten) ++ merged) <
      mergeSize es := by
  have hKept := length_kept_add hIds (@planMerges_nodup policy _ hIds)
    fun _ => exists_of_planned hIds
  have hGroups : ∀ g ∈ planMerges policy es, 1 ≤ g.length := fun g => one_le_of_planned hIds
  have hZero : merged.countP SegmentEntry.hasDeletions = 0 :=
    List.countP_eq_zero.mpr fun e he => by rw [hClean e he]; exact Bool.false_ne_true
  rw [mergeSize, mergeSize, Prod.Lex.toLex_lt_toLex, List.length_append, List.countP_append, hZero,
    hLen, Nat.add_zero]
  have hLe := length_le_length_flatten hGroups
  by_cases hLarge : ∃ g ∈ planMerges policy es, 2 ≤ g.length
  · -- A group of a tier takes two segments or more and leaves one.
    have := length_lt_length_flatten hGroups hLarge
    exact .inl (show _ < es.length by omega)
  rcases Nat.lt_or_eq_of_le (show _ ≤ es.length from hKept ▸ Nat.add_le_add_left hLe _)
    with hLt | hEq
  · exact .inl hLt
  refine .inr ⟨hEq, ?_⟩
  -- Only rewrites, each of which takes the deletions from one segment.
  obtain ⟨g, hg⟩ := List.exists_mem_of_ne_nil _ hSome
  obtain ⟨e, he, hRew, rfl⟩ : ∃ e ∈ es, rewritten policy e = true ∧ g = [e.segmentId] :=
    ((mem_planMerges hIds).mp hg).resolve_right fun ⟨_, _, hTwo, _⟩ => hLarge ⟨g, hg, hTwo⟩
  have hPlanned : e.segmentId ∈ (planMerges policy es).flatten :=
    List.mem_flatten.mpr ⟨_, hg, List.mem_singleton_self _⟩
  have hFewer : 0 < (es.filter fun e =>
      !decide (e.segmentId ∉ (planMerges policy es).flatten)).countP
        SegmentEntry.hasDeletions := by
    rw [List.countP_pos_iff]
    refine ⟨e, List.mem_filter.mpr ⟨he, ?_⟩, hasDeletions_of_rewritten hThreshold hRew⟩
    rw [decide_eq_false (not_not_intro hPlanned), Bool.not_false]
  have hSplit := List.countP_eq_countP_filter_add es SegmentEntry.hasDeletions
    fun e => decide (e.segmentId ∉ (planMerges policy es).flatten)
  exact hSplit ▸ Nat.lt_add_of_pos_right hFewer

end Planned

-- ---------------------------------------------------------------------------
-- Deletions that are up to date
-- ---------------------------------------------------------------------------

theorem mem_of_mapM_eq_some {α β : Type} {f : α → Option β} {as : List α} {bs : List β}
    (h : as.mapM f = some bs) :
    (∀ a ∈ as, ∃ b ∈ bs, f a = some b) ∧ ∀ b ∈ bs, ∃ a ∈ as, f a = some b := by
  induction as generalizing bs with
  | nil =>
    obtain rfl : bs = [] := (Option.some.inj h).symm
    exact ⟨fun _ ha => (List.not_mem_nil ha).elim, fun _ hb => (List.not_mem_nil hb).elim⟩
  | cons a as ih =>
    rw [List.mapM_cons] at h
    rcases hHead : f a with _ | b
    · rw [hHead] at h
      cases h
    rcases hTail : as.mapM f with _ | bs'
    · rw [hHead, hTail] at h
      cases h
    rw [hHead, hTail] at h
    obtain rfl : bs = b :: bs' := (Option.some.inj h).symm
    obtain ⟨hTo, hFrom⟩ := ih hTail
    refine ⟨List.forall_mem_cons.mpr ⟨⟨b, List.mem_cons_self, hHead⟩, fun x hx => ?_⟩,
      List.forall_mem_cons.mpr ⟨⟨a, List.mem_cons_self, hHead⟩, fun y hy => ?_⟩⟩
    · obtain ⟨y, hy, hEq⟩ := hTo x hx
      exact ⟨y, List.mem_cons_of_mem _ hy, hEq⟩
    · obtain ⟨x, hx, hEq⟩ := hFrom y hy
      exact ⟨x, List.mem_cons_of_mem _ hx, hEq⟩

theorem lookup_eq_some_of_forall {κ β : Type} [BEq κ] [LawfulBEq κ] {l : List (κ × β)} {k : κ}
    {v : β} (hMem : ∃ e ∈ l, e.1 = k) (hAll : ∀ e ∈ l, e.1 = k → e.2 = v) :
    l.lookup k = some v := by
  induction l with
  | nil =>
    obtain ⟨e, he, -⟩ := hMem
    cases he
  | cons e l ih =>
    obtain ⟨k', v'⟩ := e
    obtain ⟨hHead, hTail⟩ := List.forall_mem_cons.mp hAll
    by_cases hEq : k' = k
    · subst hEq
      rw [List.lookup_cons_self]
      exact congrArg some (hHead rfl)
    · rw [List.lookup_cons, beq_false_of_ne (Ne.symm hEq)]
      obtain ⟨e, he, hk⟩ := hMem
      refine ih ⟨e, (List.mem_cons.mp he).resolve_left ?_, hk⟩ hTail
      rintro rfl
      exact hEq hk

/-- No source has had deletions since the snapshot. -/
def PreparedMerge.Current (p : PreparedMerge) (cur : Index) : Prop :=
  ∀ src ∈ p.sourceIds, ∀ s, cur.findSegment src = some s →
    p.snapshotDelGen.lookup src = some s.entry.delGen

theorem findSegment_entry (I : Index) (id : UInt32) :
    (I.findSegment id).map Segment.entry =
      I.manifest.segments.find? fun e => e.segmentId == id := by
  rw [Index.findSegment, ← I.entries_eq, List.find?_map]
  rfl

/-- Nothing is carried into a merge whose sources have had no deletions. -/
theorem carryBitmap_of_current {p : PreparedMerge} {cur : Index} (h : p.Current cur) :
    carryBitmap cur p = Bitmap.new p.numDocs := by
  have hFold : ∀ srcs : List UInt32, (∀ src ∈ srcs, src ∈ p.sourceIds) →
      srcs.foldl (carrySource cur p) (Bitmap.new p.numDocs) = Bitmap.new p.numDocs := by
    intro srcs
    induction srcs with
    | nil => exact fun _ => rfl
    | cons src srcs ih =>
      intro hSub
      obtain ⟨hHead, hTail⟩ := List.forall_mem_cons.mp hSub
      have hNone : carrySource cur p (Bitmap.new p.numDocs) src = Bitmap.new p.numDocs := by
        unfold carrySource
        rcases hFind : cur.findSegment src with _ | s
        · rfl
        · exact if_pos (h src hHead s hFind)
      rw [List.foldl_cons, hNone, ih hTail]
  exact hFold p.sourceIds fun _ => id

variable [Platform]

section Merged

variable {cur I : Index} {x : StagedMerge} {xs : List StagedMerge}

/-- A merge prepared from the index that is still current. -/
theorem current_of_prepares {g : List UInt32} {segs : List Segment}
    (hSegs : g.mapM I.findSegment = some segs) (hx : x.Prepares I g segs)
    (hSame : cur.manifest = I.manifest) : x.merge.Current cur := by
  intro src hSrc s hFind
  obtain ⟨hTo, hFrom⟩ := mem_of_mapM_eq_some hSegs
  rw [hx.sourceIds] at hSrc
  -- Both indexes have the same entry for the source.
  have hEntry : ∀ t, I.findSegment src = some t → t.entry = s.entry := by
    intro t ht
    have hI := findSegment_entry I src
    have hCur := findSegment_entry cur src
    rw [hSame, ← hI, hFind, ht] at hCur
    exact (Option.some.inj hCur).symm
  have hId : ∀ id t, I.findSegment id = some t → t.entry.segmentId = id := by
    intro id t ht
    unfold Index.findSegment at ht
    have hFound := List.find?_some ht
    exact beq_iff_eq.mp hFound
  rw [hx.snapshotDelGen]
  refine lookup_eq_some_of_forall ?_ ?_
  · obtain ⟨t, ht, hFindT⟩ := hTo src hSrc
    exact ⟨_, List.mem_map_of_mem ht, hId src t hFindT⟩
  · intro e he hEq
    obtain ⟨t, ht, rfl⟩ := List.mem_map.mp he
    obtain ⟨id, -, hFindT⟩ := hFrom t ht
    obtain rfl : id = src := (hId id t hFindT).symm.trans hEq
    exact congrArg SegmentEntry.delGen (hEntry t hFindT)

/-- A merged segment that nothing is carried into has no deletions. -/
theorem hasDeletions_segment (h : x.merge.Current cur) (id base : UInt32) :
    (x.segment cur id base).entry.hasDeletions = false := by
  have hZero : ¬ 0 < (carryBitmap cur x.merge).count := by
    rw [carryBitmap_of_current h, Bitmap.count, Bitmap.new, List.count_replicate,
      if_neg (show ¬(false == true) = true by decide)]
    decide
  rw [StagedMerge.segment, if_neg hZero]
  rfl

theorem hasDeletions_mergedSegments (h : ∀ x ∈ xs, x.merge.Current cur) (id base : UInt32) :
    ∀ s ∈ mergedSegments cur id base xs, s.entry.hasDeletions = false := by
  induction xs generalizing id base with
  | nil => exact fun s hs => (List.not_mem_nil hs).elim
  | cons x xs ih =>
    obtain ⟨hHead, hTail⟩ := List.forall_mem_cons.mp h
    exact List.forall_mem_cons.mpr ⟨hasDeletions_segment hHead id base, ih hTail _ _⟩

theorem segmentIds_mergedSegments (cur : Index) (xs : List StagedMerge) (id base : UInt32) :
    (mergedSegments cur id base xs).map (fun s => s.entry.segmentId) =
      (List.range xs.length).map fun i => id + UInt32.ofNat i := by
  induction xs generalizing id base with
  | nil => rfl
  | cons x xs ih =>
    rw [mergedSegments, List.map_cons, ih, StagedMerge.segmentId_segment, List.length_cons,
      List.range_succ_eq_map, List.map_cons, List.map_map]
    refine congrArg₂ List.cons (UInt32.add_zero id).symm (List.map_congr_left fun i _ => ?_)
    rw [Function.comp_apply, Nat.succ_eq_add_one, UInt32.ofNat_add, UInt32.add_assoc,
      UInt32.add_comm 1]
    rfl

end Merged

-- ---------------------------------------------------------------------------
-- The manifest of a pass
-- ---------------------------------------------------------------------------

/-- No two segments have one id. -/
def Manifest.DistinctIds (m : Manifest) : Prop := (m.segments.map SegmentEntry.segmentId).Nodup

/-- The merges of a plan over `I`, prepared from an index with the same manifest. -/
structure PlannedFrom (policy : MergePolicy) (I : Index) (xs : List StagedMerge) : Prop where
  sourceIds : xs.map (fun x => x.merge.sourceIds) = planMerges policy I.manifest.segments
  current : ∀ x ∈ xs, x.merge.Current I

section Spliced

variable {policy : MergePolicy} {I : Index} {xs : List StagedMerge} {now : Int64}

theorem splicedManifest_perm : (splicedManifest now I xs).segments.Perm
    (keptEntries I.manifest (xs.map StagedMerge.merge) ++
      (mergedSegments I I.manifest.nextSegmentId
        (UInt32.ofNat (Index.endBound I.manifest.segments)) xs).map Segment.entry) := by
  rw [splicedManifest, sortByBase, splicedSegments, List.map_append, keptSegments_entries]
  exact Platform.sort_perm _ _

/-- What merges of a plan have merged is what it has planned. -/
theorem mergedIds_of_sourceIds {groups : List (List UInt32)}
    (h : xs.map (fun x => x.merge.sourceIds) = groups) :
    mergedIds (xs.map StagedMerge.merge) = groups.flatten := by
  rw [← h, mergedIds, List.flatMap_map, List.flatMap_def]

/-- The manifest of a pass is smaller than the one it was planned from. -/
theorem splicedManifest_lt (hThreshold : 0 ≤ policy.delFractionThreshold)
    (hIds : I.manifest.DistinctIds) (hSome : planMerges policy I.manifest.segments ≠ [])
    (h : PlannedFrom policy I xs) :
    mergeSize (splicedManifest now I xs).segments < mergeSize I.manifest.segments := by
  rw [mergeSize_perm splicedManifest_perm, keptEntries, mergedIds_of_sourceIds h.sourceIds]
  refine lt_of_planned hThreshold hIds hSome ?_ fun e he => ?_
  · rw [List.length_map, length_mergedSegments, ← h.sourceIds, List.length_map]
  · obtain ⟨s, hs, rfl⟩ := List.mem_map.mp he
    exact hasDeletions_mergedSegments h.current _ _ s hs

/-- If the manifest of a pass is accepted, its segments have different ids again. -/
theorem distinctIds_spliced (hIds : I.manifest.DistinctIds)
    (hOk : (splicedManifest now I xs).Ok) : (splicedManifest now I xs).DistinctIds := by
  have hPerm : (splicedManifest now I xs).segments.Perm _ := splicedManifest_perm
  have hNewIds := segmentIds_mergedSegments I xs I.manifest.nextSegmentId
    (UInt32.ofNat (Index.endBound I.manifest.segments))
  have hBelow : ∀ i < xs.length, I.manifest.nextSegmentId + UInt32.ofNat i <
      I.manifest.nextSegmentId + UInt32.ofNat xs.length := by
    intro i hi
    obtain ⟨s, hs, hEq⟩ := List.mem_map.mp (hNewIds.symm ▸ List.mem_map_of_mem
      (List.mem_range.mpr hi) : I.manifest.nextSegmentId + UInt32.ofNat i ∈ List.map _ _)
    rw [← hEq]
    exact (hOk.entries _ (hPerm.mem_iff.mpr
      (List.mem_append_right _ (List.mem_map_of_mem hs)))).id_lt
  -- Otherwise the largest id of all would be below another one.
  have hFit : I.manifest.nextSegmentId.toNat + xs.length < 2 ^ 32 := by
    by_contra hWrap
    have hNext := I.manifest.nextSegmentId.toNat_lt
    have hLast : (I.manifest.nextSegmentId +
        UInt32.ofNat (2 ^ 32 - 1 - I.manifest.nextSegmentId.toNat)).toNat = 2 ^ 32 - 1 := by
      rw [toNat_add_ofNat (by omega)]
      omega
    have hLt := UInt32.lt_iff_toNat_lt.mp
      (hBelow (2 ^ 32 - 1 - I.manifest.nextSegmentId.toNat) (by omega))
    have hTop := (I.manifest.nextSegmentId + UInt32.ofNat xs.length).toNat_lt
    rw [hLast] at hLt
    omega
  have hNat : ∀ i < xs.length, (I.manifest.nextSegmentId + UInt32.ofNat i).toNat =
      I.manifest.nextSegmentId.toNat + i := fun i hi => toNat_add_ofNat (by omega)
  rw [Manifest.DistinctIds, (hPerm.map _).nodup_iff, List.map_append, List.map_map]
  show (_ ++ (mergedSegments I I.manifest.nextSegmentId _ xs).map
    fun s => s.entry.segmentId).Nodup
  rw [hNewIds, List.nodup_append]
  refine ⟨hIds.sublist (List.filter_sublist.map _), ?_, ?_⟩
  · refine List.Nodup.map_on (fun i hi j hj hEq => ?_) List.nodup_range
    have hToNat := congrArg UInt32.toNat hEq
    rw [hNat i (List.mem_range.mp hi), hNat j (List.mem_range.mp hj)] at hToNat
    omega
  · intro a ha b hb hEq
    obtain ⟨e, he, rfl⟩ := List.mem_map.mp ha
    obtain ⟨i, hi, rfl⟩ := List.mem_map.mp hb
    have hOld := UInt32.lt_iff_toNat_lt.mp
      (I.manifest_ok.entries e (List.mem_filter.mp he).1).id_lt
    rw [hEq, hNat i (List.mem_range.mp hi)] at hOld
    omega

end Spliced

-- ---------------------------------------------------------------------------
-- One pass
-- ---------------------------------------------------------------------------

section Runs

variable {c : Pid}

/-- What one pass does to the manifest on disk: it commits the merges it planned, or leaves the
manifest as it is, and then it had nothing to merge unless it failed. -/
inductive MergePass (policy : MergePolicy) (d d' : Dir) (r : Except Error Index) : Prop
  | stays (hSame : d'.lookup .manifest = d.lookup .manifest)
      (hOk : ∀ J, r = .ok J → d.lookup .manifest = some (manifestFile J.manifest) ∧
        planMerges policy J.manifest.segments = [])
  | commits {now : Int64} {I : Index} {xs : List StagedMerge}
      (hHolds : d.lookup .manifest = some (manifestFile I.manifest))
      (hSome : planMerges policy I.manifest.segments ≠ [])
      (hPlanned : PlannedFrom policy I xs)
      (hCommit : d'.lookup .manifest = some (manifestFile (splicedManifest now I xs)))

omit [Platform] in
/-- What comes before a pass and leaves the manifest alone. -/
theorem MergePass.of_same [Platform] {policy : MergePolicy} {d₁ d d' : Dir}
    {r : Except Error Index} (h : MergePass policy d₁ d' r)
    (hSame : d₁.lookup .manifest = d.lookup .manifest) : MergePass policy d d' r := by
  cases h with
  | stays hStays hOk =>
    refine .stays (hStays.trans hSame) ?_
    intro J hJ
    rw [← hSame]
    exact hOk J hJ
  | commits hHolds hSome hPlanned hCommit =>
    exact .commits (hSame.symm.trans hHolds) hSome hPlanned hCommit

/-- Preparing and committing the groups of a plan. -/
theorem run_prepareAndCommit (now : Int64) {policy : MergePolicy} {prev : Index} {s : FsState}
    (hDisk : s.dir.lookup .manifest = some (manifestFile prev.manifest))
    (hSome : planMerges policy prev.manifest.segments ≠ []) :
    MergePass policy s.dir
      (FsE.runAlone c (prepareAll prev [] (planMerges policy prev.manifest.segments) >>=
        commitMerges now) s).2.dir
      (FsE.runAlone c (prepareAll prev [] (planMerges policy prev.manifest.segments) >>=
        commitMerges now) s).1 := by
  have hPrepare := spares_prepareAll prev [] (planMerges policy prev.manifest.segments) c s
  change (FsE.runAlone c (prepareAll prev [] _) s).2.dir.lookup .manifest = _ at hPrepare
  rw [FsE.runAlone_bind]
  rcases hAll : FsE.runAlone c (prepareAll prev [] (planMerges policy prev.manifest.segments)) s
    with ⟨e | ps, s₁⟩
  all_goals rw [hAll] at hPrepare
  · exact .stays hPrepare fun J h => by cases h
  refine MergePass.of_same ?_ hPrepare
  obtain ⟨xs, rfl, hIds, hPrepares⟩ := run_prepareAll_ok hAll
  rw [List.nil_append]
  have hXs : xs.map StagedMerge.merge ≠ [] := by
    intro hNil
    rw [List.map_eq_nil_iff.mp hNil] at hIds
    exact hSome hIds.symm
  rcases run_commitMerges (c := c) now hXs s₁ with
    ⟨hSame, hError⟩ | ⟨cur, m, retire, hCur, hRes, hCommit⟩
  · exact .stays hSame fun J h => absurd h (hError J)
  · -- No other commit came in between: the index that is committed over is the one planned for.
    have hEq : cur.manifest = prev.manifest :=
      manifestFile_inj (hCur.symm.trans (hPrepare.trans hDisk))
    obtain ⟨-, rfl, -, -⟩ := mergePlan_ok hRes
    refine MergePass.commits hCur (hEq ▸ hSome) ⟨hEq ▸ hIds, fun x hx => ?_⟩ hCommit
    obtain ⟨g, segs, hSegs, hPrep⟩ := hPrepares x hx
    exact current_of_prepares hSegs hPrep hEq

/-- What one pass does. -/
theorem run_mergeIndex (now : Int64)
    (entries : Except IoError (List (StagingTag × SegmentPart))) (policy : MergePolicy)
    (s : FsState) :
    MergePass policy s.dir (FsE.runAlone c (mergeIndex now entries policy) s).2.dir
      (FsE.runAlone c (mergeIndex now entries policy) s).1 := by
  have hClear := spares_clearStaging entries c s
  change (FsE.runAlone c (clearStaging entries) s).2.dir.lookup .manifest = _ at hClear
  unfold mergeIndex
  rw [FsE.runAlone_bind]
  rcases hFirst : FsE.runAlone c (clearStaging entries) s with ⟨e | _, s₁⟩
  all_goals rw [hFirst] at hClear
  · exact .stays hClear fun J h => by cases h
  refine MergePass.of_same ?_ hClear
  have hOpen := spares_openIndex c s₁
  change (FsE.runAlone c openIndex s₁).2.dir.lookup .manifest = _ at hOpen
  show MergePass policy _ (FsE.runAlone c (openIndex >>= _) s₁).2.dir
    (FsE.runAlone c (openIndex >>= _) s₁).1
  rw [FsE.runAlone_bind]
  rcases hRun : FsE.runAlone c openIndex s₁ with ⟨e | _ | prev, s₂⟩
  all_goals rw [hRun] at hOpen
  · exact .stays hOpen fun J h => by cases h
  · exact .stays hOpen fun J h => by cases h
  refine MergePass.of_same ?_ hOpen
  have hDisk := hOpen.trans (run_openIndex_ok hRun).1
  by_cases hNone : planMerges policy prev.manifest.segments = []
  · have hEmpty : (planMerges policy prev.manifest.segments).isEmpty = true := by
      rw [hNone]
      rfl
    simp only [hEmpty, if_true]
    refine .stays rfl ?_
    intro J h
    obtain rfl : prev = J := Except.ok.inj h
    exact ⟨hDisk, hNone⟩
  · have hEmpty : (planMerges policy prev.manifest.segments).isEmpty = false := by
      rw [← Bool.not_eq_true, List.isEmpty_iff]
      exact hNone
    simp only [hEmpty, Bool.false_eq_true, if_false]
    exact run_prepareAndCommit now hDisk hNone

end Runs

-- ---------------------------------------------------------------------------
-- Repeated passes
-- ---------------------------------------------------------------------------

/-- A pass leaves the manifest as it is, or a smaller one. -/
theorem MergePass.step {policy : MergePolicy} (hThreshold : 0 ≤ policy.delFractionThreshold)
    {d d' : Dir} {r : Except Error Index} (h : MergePass policy d d' r) {m : Manifest}
    (hm : d.lookup .manifest = some (manifestFile m)) (hIds : m.Ok → m.DistinctIds) :
    (d'.lookup .manifest = some (manifestFile m) ∧
      ∀ J, r = .ok J → J.manifest = m ∧ planMerges policy m.segments = []) ∨
    ∃ m', d'.lookup .manifest = some (manifestFile m') ∧ (m'.Ok → m'.DistinctIds) ∧
      mergeSize m'.segments < mergeSize m.segments := by
  cases h with
  | stays hSame hOk =>
    refine .inl ⟨hSame.trans hm, fun J hJ => ?_⟩
    obtain ⟨hDisk, hNone⟩ := hOk J hJ
    obtain rfl := manifestFile_inj (hDisk.symm.trans hm)
    exact ⟨rfl, hNone⟩
  | commits hHolds hSome hPlanned hCommit =>
    obtain rfl := manifestFile_inj (hm.symm.trans hHolds)
    have hDistinct := hIds (Index.manifest_ok _)
    exact .inr ⟨_, hCommit, distinctIds_spliced hDistinct,
      splicedManifest_lt hThreshold hDistinct hSome hPlanned⟩

end Ripindex
