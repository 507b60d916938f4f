import Mathlib.Algebra.Order.Floor.Semiring
import Mathlib.Data.Int.Log
import Mathlib.Data.List.Flatten
import Mathlib.Data.Rat.Floor
import Ripindex.Format.Manifest
import Ripindex.Lib.Group

/-!
# Planning merges

`plan_merges` of `store/merge.rs`, fractions and logarithms in exact arithmetic. The policy's
cap is documented as the size from which on a segment is never merged; `plan_merges` compares
with `<=` and `>`, so a segment of exactly that size still takes part.

## Results

* `mem_planMerges`        — the groups planned: single rewrites, and chunks of a tier.
* `planMerges_nodup`      — no segment is planned twice.
* `planMerges_well_iff`   — plans are well formed exactly when no segment of the cap's size is
  planned.
-/

namespace Ripindex

structure MergePolicy where
  /-- A tier with at least this many segments is merged. -/
  tierSize : Nat
  /-- Never merge more than this many segments in one group. -/
  maxMerge : Nat
  /-- Segments at or above this size (all files) are never merged. -/
  maxSegmentBytes : Nat
  /-- A segment more than this tombstoned is rewritten on its own. -/
  delFractionThreshold : ℚ

/-- `MergePolicy::default`; the threshold is 0.3 rounded to an `f32`. -/
def MergePolicy.default : MergePolicy := ⟨4, 10, 512 <<< 20, 10066330 / 2 ^ 25⟩

namespace SegmentEntry

/-- Live (non-deleted) docs. -/
def liveDocs (e : SegmentEntry) : UInt32 := e.numDocs - e.numDeleted

/-- Fraction of docs tombstoned; 0 for an empty segment. -/
def deletedFraction (e : SegmentEntry) : ℚ :=
  if e.numDocs = 0 then 0 else (e.numDeleted.toNat : ℚ) / e.numDocs.toNat

/-- Total bytes on disk for this segment (all files). -/
def totalBytes (e : SegmentEntry) : Nat := e.idxLen + e.docLen + e.delLen

/-- `floor(log2(live bytes))`, live bytes floored at 1 MiB. -/
def tier (e : SegmentEntry) : Int :=
  let liveFraction : ℚ :=
    if e.numDocs = 0 then 0 else (e.liveDocs.toNat : ℚ) / e.numDocs.toNat
  Int.log 2 (max ((e.totalBytes : ℚ) * liveFraction) (2 ^ 20))

end SegmentEntry

section Plan

variable (policy : MergePolicy)

/-- A segment that is rewritten on its own. -/
def rewritten (e : SegmentEntry) : Bool :=
  0 < e.numDocs && policy.delFractionThreshold < e.deletedFraction &&
    e.totalBytes ≤ policy.maxSegmentBytes

/-- The groups of one tier. -/
def tierGroups (ids : List UInt32) : List (List UInt32) :=
  if ids.length < policy.tierSize then []
  else (chunks (max policy.maxMerge 2) (ids.mergeSort fun a b => a ≤ b)).filter
    fun chunk => 2 ≤ chunk.length

/-- Decide what to merge: a list of segment ids for each merge. -/
def planMerges (segments : List SegmentEntry) : List (List UInt32) :=
  -- 1. Deletion-driven rewrites: independent of tier, one at a time.
  let rewrites := segments.filter (rewritten policy)
  let used := rewrites.map SegmentEntry.segmentId
  -- 2. Size-tiered merges over what is left.
  let rest := segments.filter fun e =>
    !(used.contains e.segmentId || policy.maxSegmentBytes < e.totalBytes)
  let tiers := collect SegmentEntry.tier SegmentEntry.segmentId rest
  used.map (fun id => [id]) ++ tiers.flatMap fun t => tierGroups policy t.2

end Plan

-- ---------------------------------------------------------------------------
-- The groups of a plan
-- ---------------------------------------------------------------------------

section Groups

variable {policy : MergePolicy} {segments : List SegmentEntry}

/-- A segment the tiers are made of: neither rewritten nor above the cap. -/
def pooled (policy : MergePolicy) (e : SegmentEntry) : Bool :=
  !rewritten policy e && e.totalBytes ≤ policy.maxSegmentBytes

/-- The ids of a tier, in manifest order. -/
def tierIds (policy : MergePolicy) (segments : List SegmentEntry) (t : Int) : List UInt32 :=
  ((segments.filter fun e => pooled policy e && e.tier = t)).map SegmentEntry.segmentId

/-- Segments of one list with one id are the same. -/
theorem eq_of_segmentId_eq (hIds : (segments.map SegmentEntry.segmentId).Nodup)
    {e e' : SegmentEntry} (he : e ∈ segments) (he' : e' ∈ segments)
    (h : e.segmentId = e'.segmentId) : e = e' :=
  List.inj_on_of_nodup_map hIds he he' h

/-- The plan, its second pass by tiers. -/
theorem planMerges_eq (hIds : (segments.map SegmentEntry.segmentId).Nodup) :
    planMerges policy segments =
      (segments.filter (rewritten policy)).map (fun e => [e.segmentId]) ++
        (collect SegmentEntry.tier SegmentEntry.segmentId
          (segments.filter (pooled policy))).flatMap fun t => tierGroups policy t.2 := by
  have hRest : (segments.filter fun e =>
      !(((segments.filter (rewritten policy)).map SegmentEntry.segmentId).contains e.segmentId ||
        policy.maxSegmentBytes < e.totalBytes)) = segments.filter (pooled policy) := by
    apply List.filter_congr
    intro e he
    have hUsed : ((segments.filter (rewritten policy)).map SegmentEntry.segmentId).contains
        e.segmentId = rewritten policy e := by
      rw [Bool.eq_iff_iff, List.contains_iff_mem, List.mem_map]
      constructor
      · rintro ⟨e', he', hEq⟩
        obtain ⟨hMem, hRew⟩ := List.mem_filter.mp he'
        exact eq_of_segmentId_eq hIds hMem he hEq ▸ hRew
      · exact fun h => ⟨e, List.mem_filter.mpr ⟨he, h⟩, rfl⟩
    rw [hUsed, Bool.not_or, pooled]
    congr 1
    rw [Bool.eq_iff_iff]
    simp
  rw [planMerges, hRest, List.map_map]
  rfl

theorem mem_tierGroups {ids group : List UInt32} :
    group ∈ tierGroups policy ids ↔ policy.tierSize ≤ ids.length ∧ 2 ≤ group.length ∧
      group ∈ chunks (max policy.maxMerge 2) (ids.mergeSort fun a b => a ≤ b) := by
  unfold tierGroups
  split_ifs with h
  · simp only [List.not_mem_nil, false_iff]
    omega
  · rw [List.mem_filter, decide_eq_true_eq]
    have : policy.tierSize ≤ ids.length := by omega
    tauto

/-- The ids collected under a tier. -/
theorem mem_tiers {t : Int} {ids : List UInt32} :
    (t, ids) ∈ collect SegmentEntry.tier SegmentEntry.segmentId
        (segments.filter (pooled policy)) ↔ ids = tierIds policy segments t ∧ ids ≠ [] := by
  rw [mem_collect, List.filter_filter, tierIds]
  simp only [Bool.and_comm]

/-- What is planned: single rewrites, and chunks of two or more out of a tier. -/
theorem mem_planMerges (hIds : (segments.map SegmentEntry.segmentId).Nodup)
    {group : List UInt32} :
    group ∈ planMerges policy segments ↔
      (∃ e ∈ segments, rewritten policy e = true ∧ group = [e.segmentId]) ∨
      ∃ t, policy.tierSize ≤ (tierIds policy segments t).length ∧ 2 ≤ group.length ∧
        group ∈ chunks (max policy.maxMerge 2)
          ((tierIds policy segments t).mergeSort fun a b => a ≤ b) := by
  rw [planMerges_eq hIds, List.mem_append, List.mem_map, List.mem_flatMap]
  constructor
  · rintro (⟨e, he, rfl⟩ | ⟨⟨t, ids⟩, hTier, hGroup⟩)
    · obtain ⟨he, hRew⟩ := List.mem_filter.mp he
      exact .inl ⟨e, he, hRew, rfl⟩
    · obtain ⟨rfl, -⟩ := mem_tiers.mp hTier
      exact .inr ⟨t, mem_tierGroups.mp hGroup⟩
  · rintro (⟨e, he, hRew, rfl⟩ | ⟨t, hGroup⟩)
    · exact .inl ⟨e, List.mem_filter.mpr ⟨he, hRew⟩, rfl⟩
    · refine .inr ⟨(t, tierIds policy segments t), mem_tiers.mpr ⟨rfl, ?_⟩,
        mem_tierGroups.mpr hGroup⟩
      intro hNil
      rw [hNil] at hGroup
      simp [chunks, chunksFuel] at hGroup

theorem mem_tierIds {t : Int} {id : UInt32} :
    id ∈ tierIds policy segments t ↔
      ∃ e ∈ segments, pooled policy e = true ∧ e.tier = t ∧ e.segmentId = id := by
  simp only [tierIds, List.mem_map, List.mem_filter, Bool.and_eq_true, decide_eq_true_eq,
    and_assoc]

theorem nodup_tierIds (hIds : (segments.map SegmentEntry.segmentId).Nodup) (t : Int) :
    (tierIds policy segments t).Nodup :=
  hIds.sublist (List.filter_sublist.map _)

/-- The chunks of a tier are made of its ids. -/
theorem mem_of_mem_tierChunk {t : Int} {n : Nat} {group : List UInt32} {id : UInt32}
    (hGroup : group ∈ chunks (max n 2) ((tierIds policy segments t).mergeSort fun a b => a ≤ b))
    (hId : id ∈ group) : id ∈ tierIds policy segments t := by
  have hFlat := List.mem_flatten.mpr ⟨group, hGroup, hId⟩
  rw [flatten_chunks (by omega)] at hFlat
  exact List.mem_mergeSort.mp hFlat

/-- No segment is planned twice. -/
theorem planMerges_nodup (hIds : (segments.map SegmentEntry.segmentId).Nodup) :
    (planMerges policy segments).flatten.Nodup := by
  have hTier : ∀ t, (tierGroups policy (tierIds policy segments t)).flatten.Nodup := by
    intro t
    unfold tierGroups
    split_ifs
    · simp
    · have hSub := (List.filter_sublist (p := fun chunk => decide (2 ≤ chunk.length))
        (l := chunks (max policy.maxMerge 2)
          ((tierIds policy segments t).mergeSort fun a b => a ≤ b))).flatten
      rw [flatten_chunks (by omega)] at hSub
      exact ((List.mergeSort_perm _ _).nodup_iff.mpr (nodup_tierIds hIds t)).sublist hSub
  have hInTier : ∀ {t : Int} {id : UInt32},
      id ∈ (tierGroups policy (tierIds policy segments t)).flatten →
        id ∈ tierIds policy segments t := by
    intro t id hId
    obtain ⟨group, hGroup, hId⟩ := List.mem_flatten.mp hId
    exact mem_of_mem_tierChunk (mem_tierGroups.mp hGroup).2.2 hId
  have hMany : ∀ tiers : List (Int × List UInt32), KeysAscend tiers →
      (∀ e ∈ tiers, e.2 = tierIds policy segments e.1) →
      (tiers.flatMap fun t => tierGroups policy t.2).flatten.Nodup := by
    intro tiers hAsc hEach
    induction tiers with
    | nil => simp
    | cons e tiers ih =>
      obtain ⟨hHead, hRest⟩ := List.pairwise_cons.mp hAsc
      obtain ⟨hE, hEach⟩ := List.forall_mem_cons.mp hEach
      rw [List.flatMap_cons, List.flatten_append, List.nodup_append]
      refine ⟨hE ▸ hTier e.1, ih hRest hEach, fun a ha b hb hEq => ?_⟩
      obtain ⟨group, hGroup, hb⟩ := List.mem_flatten.mp hb
      obtain ⟨f, hf, hGroup⟩ := List.mem_flatMap.mp hGroup
      rw [hE] at ha
      rw [hEach f hf] at hGroup
      obtain ⟨s, hs, -, hTierS, hIdS⟩ := mem_tierIds.mp (hInTier ha)
      obtain ⟨s', hs', -, hTierS', hIdS'⟩ := mem_tierIds.mp
        (mem_of_mem_tierChunk (mem_tierGroups.mp hGroup).2.2 hb)
      have hSame := eq_of_segmentId_eq hIds hs hs' (hIdS.trans (hEq.trans hIdS'.symm))
      exact (hHead f hf).ne (hTierS.symm.trans ((congrArg _ hSame).trans hTierS'))
  rw [planMerges_eq hIds, List.flatten_append, List.nodup_append]
  have hFlat : ((segments.filter (rewritten policy)).map fun e => [e.segmentId]).flatten =
      (segments.filter (rewritten policy)).map SegmentEntry.segmentId := by
    rw [← List.flatMap_def]
    exact List.flatMap_pure_eq_map ..
  refine ⟨?_, hMany _ (keysAscend_collect _ _ _) fun e he => (mem_tiers.mp he).1, ?_⟩
  · rw [hFlat]
    exact hIds.sublist (List.filter_sublist.map _)
  · intro a ha b hb hEq
    rw [hFlat] at ha
    obtain ⟨e, he, rfl⟩ := List.mem_map.mp ha
    obtain ⟨he, hRew⟩ := List.mem_filter.mp he
    obtain ⟨group, hGroup, hb⟩ := List.mem_flatten.mp hb
    obtain ⟨f, hf, hGroup⟩ := List.mem_flatMap.mp hGroup
    rw [(mem_tiers.mp hf).1] at hGroup
    obtain ⟨s, hs, hPool, -, hIdS⟩ := mem_tierIds.mp
      (mem_of_mem_tierChunk (mem_tierGroups.mp hGroup).2.2 hb)
    obtain rfl := eq_of_segmentId_eq hIds he hs (hEq.trans hIdS.symm)
    simp [pooled, hRew] at hPool

/-- The largest of a sorted list is its last element. -/
theorem getLast_sorted_iff {ids : List UInt32} {id : UInt32} (hId : id ∈ ids) :
    (ids.mergeSort fun a b => a ≤ b).getLast? = some id ↔ ∀ a ∈ ids, a ≤ id := by
  have hSorted : (ids.mergeSort fun a b => a ≤ b).Pairwise fun a b => a ≤ b := by
    have h := @List.pairwise_mergeSort _ (fun a b : UInt32 => decide (a ≤ b))
      (fun a b c hab hbc => by
        simpa using UInt32.le_trans (by simpa using hab) (by simpa using hbc))
      (fun a b => by simpa using UInt32.le_total a b) ids
    simpa using h
  have hNe : ids.mergeSort (fun a b => a ≤ b) ≠ [] :=
    List.ne_nil_of_mem (List.mem_mergeSort.mpr hId)
  have hSplit := List.dropLast_append_getLast hNe
  have hMax : ∀ a ∈ ids, a ≤ (ids.mergeSort fun a b => a ≤ b).getLast hNe := by
    intro a ha
    rw [← hSplit] at hSorted
    rcases List.mem_append.mp (hSplit ▸ List.mem_mergeSort.mpr ha :
      a ∈ _ ++ [(ids.mergeSort fun a b => a ≤ b).getLast hNe]) with h | h
    · exact (List.pairwise_append.mp hSorted).2.2 a h _ (List.mem_singleton_self _)
    · exact UInt32.le_of_eq (List.mem_singleton.mp h)
  rw [List.getLast?_eq_some_getLast hNe, Option.some.injEq]
  constructor
  · rintro rfl
    exact hMax
  · intro hAll
    exact UInt32.le_antisymm (hAll _ (List.mem_mergeSort.mp (List.getLast_mem hNe))) (hMax id hId)

/-- A segment of the pool whose tier is merged and that is not left over alone. -/
def Grouped (policy : MergePolicy) (segments : List SegmentEntry) (e : SegmentEntry) : Prop :=
  policy.tierSize ≤ (tierIds policy segments e.tier).length ∧
    ¬((∀ id ∈ tierIds policy segments e.tier, id ≤ e.segmentId) ∧
      (tierIds policy segments e.tier).length % max policy.maxMerge 2 = 1)

/-- A segment is planned when it is rewritten, or grouped in its tier. -/
theorem planned_iff (hIds : (segments.map SegmentEntry.segmentId).Nodup) {e : SegmentEntry}
    (he : e ∈ segments) :
    (∃ group ∈ planMerges policy segments, e.segmentId ∈ group) ↔
      rewritten policy e = true ∨ (pooled policy e = true ∧ Grouped policy segments e) := by
  have hChunk : pooled policy e = true →
      ((∃ group ∈ chunks (max policy.maxMerge 2)
        ((tierIds policy segments e.tier).mergeSort fun a b => a ≤ b),
          2 ≤ group.length ∧ e.segmentId ∈ group) ↔
        ¬((∀ id ∈ tierIds policy segments e.tier, id ≤ e.segmentId) ∧
          (tierIds policy segments e.tier).length % max policy.maxMerge 2 = 1)) := by
    intro hPool
    have hMem : e.segmentId ∈ tierIds policy segments e.tier :=
      mem_tierIds.mpr ⟨e, he, hPool, rfl, rfl⟩
    rw [mem_large_chunk_iff (le_max_right _ _)
      ((List.mergeSort_perm _ _).nodup_iff.mpr (nodup_tierIds hIds e.tier))
      (List.mem_mergeSort.mpr hMem), getLast_sorted_iff hMem, List.length_mergeSort]
  constructor
  · rintro ⟨group, hGroup, hId⟩
    rcases (mem_planMerges hIds).mp hGroup with ⟨e', he', hRew, rfl⟩ | ⟨t, hSize, hTwo, hGroup⟩
    · obtain rfl := eq_of_segmentId_eq hIds he he' (List.mem_singleton.mp hId)
      exact .inl hRew
    · obtain ⟨e', he', hPool, rfl, hEq⟩ := mem_tierIds.mp (mem_of_mem_tierChunk hGroup hId)
      obtain rfl := eq_of_segmentId_eq hIds he' he hEq
      exact .inr ⟨hPool, hSize, (hChunk hPool).mp ⟨group, hGroup, hTwo, hId⟩⟩
  · rintro (hRew | ⟨hPool, hSize, hLeft⟩)
    · exact ⟨[e.segmentId], (mem_planMerges hIds).mpr (.inl ⟨e, he, hRew, rfl⟩),
        List.mem_singleton_self _⟩
    · obtain ⟨group, hGroup, hTwo, hId⟩ := (hChunk hPool).mpr hLeft
      exact ⟨group, (mem_planMerges hIds).mpr (.inr ⟨e.tier, hSize, hTwo, hGroup⟩), hId⟩

-- ---------------------------------------------------------------------------
-- Well-formed plans
-- ---------------------------------------------------------------------------

/-- A segment with documents, below the cap, of which more than the threshold is deleted. -/
def NeedsRewrite (policy : MergePolicy) (e : SegmentEntry) : Prop :=
  0 < e.numDocs ∧ policy.delFractionThreshold < e.deletedFraction ∧
    e.totalBytes < policy.maxSegmentBytes

/-- What a plan promises, the cap as it is documented. -/
structure WellPlanned (policy : MergePolicy) (segments : List SegmentEntry)
    (groups : List (List UInt32)) : Prop where
  disjoint : groups.Pairwise List.Disjoint
  nodup : ∀ group ∈ groups, group.Nodup
  known : ∀ group ∈ groups, ∀ id ∈ group, ∃ e ∈ segments, e.segmentId = id
  below_cap : ∀ group ∈ groups, ∀ e ∈ segments, e.segmentId ∈ group →
    e.totalBytes < policy.maxSegmentBytes
  rewrites : ∀ e ∈ segments, NeedsRewrite policy e → [e.segmentId] ∈ groups ∧
    ∀ group ∈ groups, e.segmentId ∈ group → group = [e.segmentId]
  others : ∀ group ∈ groups, (∃ e ∈ segments, NeedsRewrite policy e ∧ group = [e.segmentId]) ∨
    (2 ≤ group.length ∧ (2 ≤ policy.maxMerge → group.length ≤ policy.maxMerge) ∧
      ∃ t, (∀ e ∈ segments, e.segmentId ∈ group → e.tier = t) ∧
        policy.tierSize ≤ (tierIds policy segments t).length)

theorem totalBytes_le_of_planned (hIds : (segments.map SegmentEntry.segmentId).Nodup)
    {e : SegmentEntry} (he : e ∈ segments)
    (h : ∃ group ∈ planMerges policy segments, e.segmentId ∈ group) :
    e.totalBytes ≤ policy.maxSegmentBytes := by
  rcases (planned_iff hIds he).mp h with hRew | ⟨hPool, -⟩
  · simp only [rewritten, Bool.and_eq_true, decide_eq_true_eq] at hRew
    exact hRew.2
  · simp only [pooled, Bool.and_eq_true, decide_eq_true_eq] at hPool
    exact hPool.2

theorem needsRewrite_of_rewritten {e : SegmentEntry} (hRew : rewritten policy e = true)
    (hCap : e.totalBytes < policy.maxSegmentBytes) : NeedsRewrite policy e := by
  simp only [rewritten, Bool.and_eq_true, decide_eq_true_eq] at hRew
  exact ⟨hRew.1.1, hRew.1.2, hCap⟩

theorem rewritten_of_needsRewrite {e : SegmentEntry} (h : NeedsRewrite policy e) :
    rewritten policy e = true := by
  simp only [rewritten, Bool.and_eq_true, decide_eq_true_eq]
  exact ⟨⟨h.1, h.2.1⟩, h.2.2.le⟩

/-- The plan is well formed exactly when no segment of exactly the cap's size has more than
the threshold deleted or is grouped in its tier. -/
theorem planMerges_well_iff (policy : MergePolicy) (segments : List SegmentEntry)
    (hIds : (segments.map SegmentEntry.segmentId).Nodup) :
    WellPlanned policy segments (planMerges policy segments) ↔
      ∀ e ∈ segments, e.totalBytes = policy.maxSegmentBytes →
        ¬((0 < e.numDocs ∧ policy.delFractionThreshold < e.deletedFraction) ∨
          Grouped policy segments e) := by
  constructor
  · intro h e he hCap hPlanned
    have hSome : ∃ group ∈ planMerges policy segments, e.segmentId ∈ group := by
      rw [planned_iff hIds he]
      by_cases hRew : rewritten policy e = true
      · exact .inl hRew
      · refine .inr ⟨by simp [pooled, hRew, hCap], hPlanned.resolve_left fun hDel => hRew ?_⟩
        simp [rewritten, hDel, hCap]
    obtain ⟨group, hGroup, hId⟩ := hSome
    exact absurd hCap (h.below_cap group hGroup e he hId).ne
  · intro hNone
    have hFlat := List.nodup_flatten.mp (@planMerges_nodup policy _ hIds)
    have hBelow : ∀ group ∈ planMerges policy segments, ∀ e ∈ segments,
        e.segmentId ∈ group → e.totalBytes < policy.maxSegmentBytes := by
      intro group hGroup e he hId
      refine lt_of_le_of_ne (totalBytes_le_of_planned hIds he ⟨group, hGroup, hId⟩) ?_
      intro hCap
      refine hNone e he hCap ?_
      rcases (planned_iff hIds he).mp ⟨group, hGroup, hId⟩ with hRew | ⟨-, hGrouped⟩
      · simp only [rewritten, Bool.and_eq_true, decide_eq_true_eq] at hRew
        exact .inl hRew.1
      · exact .inr hGrouped
    refine ⟨hFlat.2, hFlat.1, ?_, hBelow, ?_, ?_⟩
    · intro group hGroup id hId
      rcases (mem_planMerges hIds).mp hGroup with ⟨e, he, -, rfl⟩ | ⟨t, -, -, hGroup⟩
      · exact ⟨e, he, (List.mem_singleton.mp hId).symm⟩
      · obtain ⟨e, he, -, -, hEq⟩ := mem_tierIds.mp (mem_of_mem_tierChunk hGroup hId)
        exact ⟨e, he, hEq⟩
    · intro e he hNeeds
      have hRew := rewritten_of_needsRewrite hNeeds
      refine ⟨(mem_planMerges hIds).mpr (.inl ⟨e, he, hRew, rfl⟩), fun group hGroup hId => ?_⟩
      rcases (mem_planMerges hIds).mp hGroup with ⟨e', -, -, rfl⟩ | ⟨t, -, -, hGroup⟩
      · rw [List.mem_singleton.mp hId]
      · obtain ⟨e', he', hPool, -, hEq⟩ := mem_tierIds.mp (mem_of_mem_tierChunk hGroup hId)
        obtain rfl := eq_of_segmentId_eq hIds he' he hEq
        simp [pooled, hRew] at hPool
    · intro group hGroup
      rcases (mem_planMerges hIds).mp hGroup with ⟨e, he, hRew, rfl⟩ | ⟨t, hSize, hTwo, hChunk⟩
      · exact .inl ⟨e, he, needsRewrite_of_rewritten hRew
          (hBelow _ hGroup e he (List.mem_singleton_self _)), rfl⟩
      · refine .inr ⟨hTwo, fun hMax => ?_, t, fun e he hId => ?_, hSize⟩
        · have hLe := length_le_of_mem_chunks (by omega) hChunk
          rwa [max_eq_left hMax] at hLe
        · obtain ⟨e', he', -, hTier, hEq⟩ := mem_tierIds.mp (mem_of_mem_tierChunk hChunk hId)
          obtain rfl := eq_of_segmentId_eq hIds he' he hEq
          exact hTier

end Groups

/-- Ten documents, five of them deleted, in `bytes` bytes. -/
def halfDeleted (bytes : Nat) : SegmentEntry where
  segmentId := 0
  delGen := 1
  baseDoc := 0
  numDocs := 10
  numDeleted := 5
  idxCrc := 0
  docCrc := 0
  delCrc := 0
  idxLen := bytes
  docLen := 0
  delLen := 0
  numTokens := 0
  numPostings := 0
  numTerms := 0

theorem deletedFraction_halfDeleted (bytes : Nat) :
    (halfDeleted bytes).deletedFraction = 1 / 2 := by
  have hDocs : (halfDeleted bytes).numDocs ≠ 0 := by simp [halfDeleted]
  have hDeleted : (halfDeleted bytes).numDeleted.toNat = 5 := rfl
  have hAll : (halfDeleted bytes).numDocs.toNat = 10 := rfl
  rw [SegmentEntry.deletedFraction, if_neg hDocs, hDeleted, hAll]
  norm_num

/-- A segment of which nothing is deleted. -/
def undeleted (id : UInt32) (bytes : Nat) : SegmentEntry :=
  { halfDeleted bytes with segmentId := id, numDeleted := 0 }

/-- One segment half deleted and a tier of three, the last of exactly the cap's size. -/
def fourSegments : List SegmentEntry :=
  [halfDeleted 500, undeleted 1 500, undeleted 2 500, undeleted 3 1000]

theorem planMerges_fourSegments :
    planMerges ⟨3, 2, 1000, 3 / 10⟩ fourSegments = [[0], [1, 2]] := by
  have hSorted : ([1, 2, 3] : List UInt32).mergeSort (fun a b => a ≤ b) = [1, 2, 3] :=
    List.mergeSort_of_pairwise (by decide)
  have hTiers : collect SegmentEntry.tier SegmentEntry.segmentId
      (fourSegments.filter (pooled ⟨3, 2, 1000, 3 / 10⟩)) = [(20, [1, 2, 3])] := by
    decide +kernel
  have hRewrites : fourSegments.filter (rewritten ⟨3, 2, 1000, 3 / 10⟩) = [halfDeleted 500] := by
    decide +kernel
  rw [planMerges_eq (by decide), hRewrites, hTiers]
  simp only [tierGroups, List.flatMap_cons, List.flatMap_nil, hSorted]
  decide

/-- The half deleted segment is rewritten, two of the tier are merged, and the one of the cap's
size is left over. -/
theorem planMerges_well_left_over :
    planMerges ⟨3, 2, 1000, 3 / 10⟩ fourSegments = [[0], [1, 2]] ∧
      WellPlanned ⟨3, 2, 1000, 3 / 10⟩ fourSegments
        (planMerges ⟨3, 2, 1000, 3 / 10⟩ fourSegments) := by
  refine ⟨planMerges_fourSegments, (planMerges_well_iff _ fourSegments (by decide)).mpr ?_⟩
  have hLast : ∀ e ∈ fourSegments, e.totalBytes = 1000 → e = undeleted 3 1000 := by decide
  intro e he hCap hPlanned
  obtain rfl := hLast e he hCap
  rcases hPlanned with ⟨-, hDeleted⟩ | ⟨-, hLeft⟩
  · exact absurd hDeleted (by decide +kernel)
  · refine hLeft ?_
    have hIds : tierIds ⟨3, 2, 1000, 3 / 10⟩ fourSegments (undeleted 3 1000).tier = [1, 2, 3] := by
      decide +kernel
    rw [hIds]
    refine ⟨fun id hId => ?_, rfl⟩
    simp only [List.mem_cons, List.not_mem_nil, or_false] at hId
    rcases hId with rfl | rfl | rfl <;> decide

/-- A segment of exactly the cap's size, half of it deleted, is rewritten. -/
theorem not_wellPlanned_at_cap :
    ¬WellPlanned .default [halfDeleted (512 <<< 20)]
      (planMerges .default [halfDeleted (512 <<< 20)]) := by
  intro h
  refine (planMerges_well_iff .default _ (by simp)).mp h _
    (List.mem_singleton_self _) rfl (.inl ⟨by decide, ?_⟩)
  rw [deletedFraction_halfDeleted]
  norm_num [MergePolicy.default]

end Ripindex
