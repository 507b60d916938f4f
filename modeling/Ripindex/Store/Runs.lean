import Mathlib.Logic.Relation
import Ripindex.Store.Patches

/-!
# Whole runs of writers

What holds in every directory that operations lead to from an empty one, and between any two
of them.

## Results

* `Index.Sound.consistent` — what a reader finds of a sound index;
* `Operation.Commits.gives` — what one operation leaves;
* `consistent_of_run` — the invariant of the store over whole runs.
-/

namespace Ripindex

-- ---------------------------------------------------------------------------
-- Global ids
-- ---------------------------------------------------------------------------

namespace Index

/-- With ascending ranges an id of a listed segment is found there. -/
theorem locateFrom_global {segs : List Segment}
    (hRanges : segs.Pairwise fun s t => s.entry.endDoc ≤ t.entry.baseDoc.toNat) {s : Segment}
    (hs : s ∈ segs) {id l : DocId} (hId : id.toNat = s.entry.baseDoc.toNat + l.toNat)
    (hl : l < s.entry.numDocs) (k : Nat) : ∃ j, locateFrom id k segs = some (j, s, l) := by
  rw [UInt32.lt_iff_toNat_lt] at hl
  induction segs generalizing k with
  | nil => cases hs
  | cons t segs ih =>
    obtain ⟨hHead, hTail⟩ := List.pairwise_cons.mp hRanges
    rw [locateFrom]
    rcases List.mem_cons.mp hs with rfl | hMem
    · have hEnd : ¬ s.entry.endDoc ≤ id.toNat := by
        unfold SegmentEntry.endDoc
        omega
      have hBase : ¬ id < s.entry.baseDoc := by
        rw [UInt32.lt_iff_toNat_lt]
        omega
      have hSub : id - s.entry.baseDoc = l := by
        apply UInt32.toNat_inj.mp
        rw [UInt32.toNat_sub_of_le _ _ (UInt32.not_lt.mp hBase)]
        omega
      exact ⟨k, by rw [if_neg hEnd, if_neg hBase, hSub]⟩
    · -- The segments before it end before the id.
      have hEnd : t.entry.endDoc ≤ id.toNat := by
        have := hHead s hMem
        omega
      rw [if_pos hEnd]
      exact ih hTail hMem (k + 1)

theorem pairwise_segments (I : Index) :
    I.segments.Pairwise fun s t => s.entry.endDoc ≤ t.entry.baseDoc.toNat := by
  have hRanges := I.manifest_ok.pairwise_base
  rwa [← I.entries_eq, List.pairwise_map] at hRanges

theorem locate_global {I : Index} {s : Segment} (hs : s ∈ I.segments) {i : DocId}
    (hi : i < s.entry.numDocs) : ∃ j, I.locate (s.entry.baseDoc + i) = some (j, s, i) :=
  locateFrom_global I.pairwise_segments hs
    (toNat_global hs (UInt32.lt_iff_toNat_lt.mp hi)) hi 0

/-- A global id is of one document. -/
theorem global_inj {I : Index} {s t : Segment} (hs : s ∈ I.segments) (ht : t ∈ I.segments)
    {i j : DocId} (hi : i < s.entry.numDocs) (hj : j < t.entry.numDocs)
    (hEq : s.entry.baseDoc + i = t.entry.baseDoc + j) : s = t ∧ i = j := by
  obtain ⟨k, hS⟩ := locate_global hs hi
  obtain ⟨l, hT⟩ := locate_global ht hj
  rw [hEq, hT] at hS
  simp only [Option.some.injEq, Prod.mk.injEq] at hS
  exact ⟨hS.2.1.symm, hS.2.2.symm⟩

/-- The metadata of a document is there exactly when it is not deleted. -/
theorem isSome_doc_global {I : Index} {s : Segment} (hs : s ∈ I.segments) {i : DocId}
    (hi : i < s.entry.numDocs) :
    (I.doc (s.entry.baseDoc + i)).isSome = !s.isDeleted i := by
  obtain ⟨j, hLocate⟩ := locate_global hs hi
  have hLt : i.toNat < s.docs.length := by
    rw [s.length_docs]
    exact UInt32.lt_iff_toNat_lt.mp hi
  unfold Index.doc
  rw [hLocate]
  cases hDel : s.isDeleted i with
  | true => simp [Segment.docMeta, hDel]
  | false =>
    have hMeta : s.docMeta i = some s.docs[i.toNat] := by
      rw [Segment.docMeta, hDel, List.getElem?_eq_getElem hLt]
      rfl
    show (s.docMeta i >>= _).isSome = true
    rw [hMeta]
    simp only [bind, Option.bind]
    split <;> rfl

/-- `docs` lists the live documents. -/
theorem length_docs {I : Index} (hI : I.Sound) : I.docs.length = I.liveDocs := by
  rw [← length_liveIds hI, Index.docs, List.length_flatMap, List.length_flatMap]
  congr 1
  refine List.map_congr_left ?_
  intro s hs
  rw [List.length_filterMap_eq_countP, segmentIds, List.countP_map, Segment.liveIds,
    List.length_map, ← List.countP_eq_length_filter, s.length_docs]
  refine List.countP_congr ?_
  intro i hi
  have hi' := List.mem_range.mp hi
  have hLt : UInt32.ofNat i < s.entry.numDocs := by
    rw [UInt32.lt_iff_toNat_lt,
      UInt32.toNat_ofNat_of_lt' (Nat.lt_trans hi' s.entry.numDocs.toNat_lt)]
    exact hi'
  show (((I.doc (s.entry.baseDoc + UInt32.ofNat i)).map _).isSome = true) ↔ _
  rw [Option.isSome_map, isSome_doc_global hs hLt]

/-- What a reader relies on. -/
structure Consistent (I : Index) : Prop where
  ranges : I.manifest.segments.Pairwise fun p e => p.endDoc ≤ e.baseDoc.toNat
  ids_nodup : (I.manifest.segments.map SegmentEntry.segmentId).Nodup
  id_lt : ∀ e ∈ I.manifest.segments, e.segmentId < I.manifest.nextSegmentId
  length_docs : I.docs.length = I.liveDocs

theorem Sound.consistent {I : Index} (h : I.Sound) : I.Consistent where
  ranges := I.manifest_ok.pairwise_base
  ids_nodup := by
    rw [← I.entries_eq, List.map_map]
    exact h.ids_nodup
  id_lt := fun e he => (I.manifest_ok.entries e he).id_lt
  length_docs := Index.length_docs h

/-- Distinct ids below the next one. -/
theorem Sound.length_segments_le {I : Index} (h : I.Sound) :
    I.segments.length ≤ I.manifest.nextSegmentId.toNat := by
  have hNodup : (I.segments.map fun s => s.entry.segmentId.toNat).Nodup := by
    refine List.pairwise_map.mpr ((List.pairwise_map.mp h.ids_nodup).imp ?_)
    exact fun hNe hEq => hNe (UInt32.toNat_inj.mp hEq)
  have hSub : (I.segments.map fun s => s.entry.segmentId.toNat) ⊆
      List.range I.manifest.nextSegmentId.toNat := by
    intro n hn
    obtain ⟨s, hs, rfl⟩ := List.mem_map.mp hn
    exact List.mem_range.mpr (UInt32.lt_iff_toNat_lt.mp (I.segmentId_lt hs))
  have hLe := (List.subperm_of_subset hNodup hSub).length_le
  rwa [List.length_map, List.length_range] at hLe

end Index

-- ---------------------------------------------------------------------------
-- Operations
-- ---------------------------------------------------------------------------

section Operations

variable [Platform]

namespace Operation

/-- The ids and generations that the operation consumes stay within their types, and its
staged files have names of their own. -/
def Fits : Operation → Option Index → Prop
  | build w cfg files, prev => BuildRoom w cfg files prev
  | update w cfg files, none => BuildRoom w cfg files none
  | update w cfg files, some I =>
    let changes := (updateChanges w I files).changes
    Index.endBound I.manifest.segments + (toIndexOf changes).length ≤ 2 ^ 32 ∧
      I.manifest.nextSegmentId.toNat +
        segmentCount w.indexRead (toIndexOf changes) I.idBound cfg < 2 ^ 32 ∧
      HasDelRoomAll (localsOf I (deletesOf changes)) 0 I.segments ∧
      ((updatedOverlay I changes).patches ≠ [] → I.manifest.stateGen.toNat + 1 < 2 ^ 32) ∧
      I.manifest.generation.toNat + 1 < 2 ^ 64
  | delete _ ids, some I => DeleteRoom I ids
  | merge _ xs, some I => (xs.map fun x => x.merge.tag).Nodup ∧
      MergesFit (Index.endBound I.manifest.segments) I.manifest.nextSegmentId
        (xs.map StagedMerge.merge) ∧ I.manifest.generation.toNat + 1 < 2 ^ 64
  | _, none => True

/-- Segment ids differ, so that the segments cannot be too many. -/
theorem Fits.hasRoom {op : Operation} {prev : Option Index} (h : op.Fits prev)
    (hPrev : ∀ I ∈ prev, I.Sound) : op.HasRoom prev := by
  match op, prev with
  | build w cfg files, prev => exact h
  | update w cfg files, none => exact h
  | update w cfg files, some I =>
    obtain ⟨hDocs, hIds, hDel, hOverlay, hGen⟩ := h
    have hLen := (hPrev I rfl).length_segments_le
    exact ⟨hDocs, hIds, by omega, hDel, hOverlay, hGen⟩
  | delete now ids, some I => exact h
  | merge now xs, some I =>
    obtain ⟨hTags, hFit, hGen⟩ := h
    have hSound := hPrev I rfl
    have hIds := hFit.id_lt
    have hKept : (keptEntries I.manifest (xs.map StagedMerge.merge)).length ≤
        I.segments.length := by
      rw [← keptSegments_entries, List.length_map]
      exact List.length_filter_le _ _
    have hLen := hSound.length_segments_le
    refine ⟨hTags, hFit, by omega, ?_, hGen⟩
    have hNodup := List.pairwise_map.mp hSound.consistent.ids_nodup
    exact (hNodup.filter _).isChain.imp fun _ _ hNe => hNe.symm
  | delete now ids, none => trivial
  | merge now xs, none => trivial

theorem HasRoom.fits {op : Operation} {prev : Option Index} (h : op.HasRoom prev) :
    op.Fits prev := by
  match op, prev with
  | build w cfg files, prev => exact h
  | update w cfg files, none => exact h
  | update w cfg files, some I => exact ⟨h.docs, h.ids, h.del, h.overlay, h.generation⟩
  | delete now ids, some I => exact h
  | merge now xs, some I => exact ⟨h.1, h.2.fit, h.2.generation⟩
  | delete now ids, none => trivial
  | merge now xs, none => trivial

/-- The operation starts anew. -/
def Rebuilds : Operation → Option Index → Prop
  | build _ _ _, _ => True
  | update _ _ _, none => True
  | _, _ => False

/-- The overlay's patches are of the overlay before, or of the changes an update found; a
rebuild leaves none. -/
def PatchFrom (op : Operation) (prev : Option Index) (p : Patch) : Prop :=
  ¬ op.Rebuilds prev ∧ ∃ I ∈ prev, p ∈ I.overlay.patches ∨
    ∃ w cfg files, op = update w cfg files ∧ .patch p ∈ (updateChanges w I files).changes

/-- What an operation leaves over `prev`. -/
structure Leaves (op : Operation) (prev : Option Index) (J : Index) : Prop where
  sound : J.Sound
  evolves : ∀ I ∈ prev, I.Evolves J
  grows : ¬ op.Rebuilds prev → ∀ I ∈ prev, I.Grows J
  patches : ∀ p ∈ J.overlay.patches, op.PatchFrom prev p

/-- An operation with room gives an index. -/
theorem gives_leaves {op : Operation} {prev : Option Index} {m : Manifest}
    {retire : List FileName} (hPrev : ∀ I ∈ prev, I.Sound)
    (hResult : (op.plan prev).result = .ok (some (m, retire))) (hRoom : op.HasRoom prev) :
    ∃ J, J.manifest = m ∧ (op.plan prev).Gives prev op.staged J retire ∧ op.Leaves prev J := by
  have hBuild : ∀ {op : Operation} {w cfg files prev}, op.Rebuilds prev →
      (buildPlan w cfg files prev).result = .ok (some (m, retire)) →
      BuildRoom w cfg files prev → ∃ J, J.manifest = m ∧
        (buildPlan w cfg files prev).Gives prev [] J retire ∧ op.Leaves prev J := by
    intro op w cfg files prev hRebuilds hResult hRoom
    obtain ⟨segs, hOk, -, hM, hGives⟩ := buildPlan_gives hResult hRoom
    refine ⟨_, hM, hGives, hGives.sound, hGives.evolves, fun h => absurd hRebuilds h, ?_⟩
    -- A build starts with an empty overlay.
    intro p hp
    cases hp
  match op, prev with
  | build w cfg files, prev => exact hBuild trivial hResult hRoom
  | update w cfg files, none => exact hBuild trivial hResult hRoom
  | update w cfg files, some I =>
    rw [plan] at hResult ⊢
    split_ifs at hResult ⊢ with hEmpty
    · cases hResult
    obtain ⟨segs, hOk, hAmends, hM, hGives⟩ := updatePlan_gives (hPrev I rfl) hResult hRoom
    refine ⟨_, hM, hGives, hGives.sound, hGives.evolves, ?_, ?_⟩
    · rintro - _ ⟨⟩
      exact hAmends.grows rfl rfl
    · intro p hp
      obtain ⟨hMem, -⟩ := Overlay.mem_foldl_remove hp
      refine ⟨id, I, rfl, ?_⟩
      rcases Overlay.mem_foldl_insert hMem with hOld | hNew
      · exact .inl hOld
      · obtain ⟨c, hc, hEq⟩ := List.mem_filterMap.mp hNew
        cases c with
        | patch q =>
          obtain rfl := Option.some.inj hEq
          exact .inr ⟨w, cfg, files, rfl, hc⟩
        | delete id => cases hEq
        | reindex cf bytes => cases hEq
  | delete now ids, some I =>
    obtain ⟨hM, hGives⟩ := deletePlan_gives (hPrev I rfl) hResult hRoom
    refine ⟨_, hM.symm, hGives, hGives.sound, hGives.evolves, ?_, ?_⟩
    · rintro - _ ⟨⟩
      exact hRoom.amends.grows rfl (UInt32.add_zero _).symm
    · exact fun p hp => ⟨id, I, rfl, .inl hp⟩
  | merge now xs, some I =>
    obtain ⟨hTags, hMergeRoom⟩ := hRoom
    obtain ⟨hM, hGives⟩ := mergePlan_gives (hPrev I rfl) hResult hTags hMergeRoom
    refine ⟨_, hM, hGives, hGives.sound, hGives.evolves, ?_, ?_⟩
    · rintro - _ ⟨⟩
      exact splicedIndex_grows hMergeRoom
    · exact fun p hp => ⟨id, I, rfl, .inl hp⟩
  | delete now ids, none => cases hResult
  | merge now xs, none => cases hResult

/-- What a directory holds after an operation. -/
theorem Commits.leaves {op : Operation} {prev : Option Index} {d d' : Dir}
    (h : op.Commits prev d d') (hPrev : ∀ I ∈ prev, I.Sound) (hFits : op.Fits prev) :
    ∃ J, d'.Holds (some J) ∧ op.Leaves prev J :=
  h.of_gives fun hResult => gives_leaves hPrev hResult (hFits.hasRoom hPrev)

-- ---------------------------------------------------------------------------
-- Between two directories of a run
-- ---------------------------------------------------------------------------

/-- A part of a run. -/
inductive Step (admissible : Operation → Option Index → Prop) (d d' : Dir) : Prop
  | commit {op : Operation} {prev : Option Index} (hOp : admissible op prev)
    (hStep : op.Commits prev d d')
  | other {prev : Option Index} (hHolds : d.Holds prev) (hHolds' : d'.Holds prev)

/-- Any number of them. -/
abbrev Steps (admissible : Operation → Option Index → Prop) : Dir → Dir → Prop :=
  Relation.ReflTransGen (Step admissible)

/-- Within the counters, and not a rebuild. -/
def Extends (op : Operation) (prev : Option Index) : Prop :=
  op.Fits prev ∧ ¬ op.Rebuilds prev

theorem Run.steps {admissible : Operation → Option Index → Prop} {d d' : Dir}
    (hRun : Run admissible d) (h : Steps admissible d d') : Run admissible d' := by
  induction h with
  | refl => exact hRun
  | tail _ hStep ih =>
    cases hStep with
    | commit hOp hCommits => exact .commit ih hOp hCommits
    | other hHolds hHolds' => exact .other ih hHolds hHolds'

/-- What every operation keeps of an index holds of every later one. -/
theorem Steps.holds {admissible : Operation → Option Index → Prop} {P : Index → Prop}
    (hStep : ∀ {op I d d'}, P I → admissible op (some I) → op.Commits (some I) d d' →
      ∃ J, d'.Holds (some J) ∧ P J)
    {d d' : Dir} {I : Index} (hHolds : d.Holds (some I)) (hI : P I)
    (h : Steps admissible d d') : ∃ J, d'.Holds (some J) ∧ P J := by
  induction h with
  | refl => exact ⟨I, hHolds, hI⟩
  | tail _ hLast ih =>
    obtain ⟨K, hK, hInv⟩ := ih
    cases hLast with
    | commit hOp hCommits =>
      obtain rfl := hCommits.holds.unique hK
      exact hStep hInv hOp hCommits
    | other hHeld hHeld' =>
      obtain rfl := hHeld.unique hK
      exact ⟨K, hHeld', hInv⟩

variable {d d' : Dir} {I J : Index}

theorem Run.sound (hRun : Run Fits d) (hHolds : d.Holds (some I)) : I.Sound := by
  obtain ⟨prev, hPrev, hSound⟩ := @Run.holds _ _ (fun prev => ∀ I ∈ prev, I.Sound)
    (fun _ h => by cases h) (fun hInv hOp hCommits => by
      obtain ⟨J, hJ, hLeaves⟩ := hCommits.leaves hInv hOp
      refine ⟨J, hJ, ?_⟩
      rintro _ ⟨⟩
      exact hLeaves.sound) _ hRun
  obtain rfl := hPrev.unique hHolds
  exact hSound I rfl

/-- Later indexes evolve from earlier ones. -/
theorem Steps.evolves (h : Steps Fits d d') (hI : d.Holds (some I)) (hSound : I.Sound)
    (hJ : d'.Holds (some J)) : I.Evolves J := by
  obtain ⟨K, hK, -, hEvolves⟩ := @Steps.holds _ _ (fun K => K.Sound ∧ I.Evolves K)
    (fun {op K d d'} hInv hOp hCommits => by
      obtain ⟨L, hL, hLeaves⟩ := hCommits.leaves (fun _ h => Option.some.inj h ▸ hInv.1) hOp
      exact ⟨L, hL, hLeaves.sound, hInv.2.trans (hLeaves.evolves K rfl)⟩)
    _ _ _ hI ⟨hSound, .refl I⟩ h
  obtain rfl := Option.some.inj (hK.unique hJ)
  exact hEvolves

/-- Without a rebuild they grow. -/
theorem Steps.grows (h : Steps Extends d d') (hI : d.Holds (some I)) (hSound : I.Sound)
    (hJ : d'.Holds (some J)) : I.Grows J := by
  obtain ⟨K, hK, -, hGrows⟩ := @Steps.holds _ _ (fun K => K.Sound ∧ I.Grows K)
    (fun {op K d d'} hInv hOp hCommits => by
      obtain ⟨L, hL, hLeaves⟩ := hCommits.leaves (fun _ h => Option.some.inj h ▸ hInv.1) hOp.1
      exact ⟨L, hL, hLeaves.sound, hInv.2.trans (hLeaves.grows hOp.2 K rfl)⟩)
    _ _ _ hI ⟨hSound, .refl I⟩ h
  obtain rfl := Option.some.inj (hK.unique hJ)
  exact hGrows

/-- A patch was written by an update of the same build. -/
theorem Run.patch_written (hRun : Run Fits d) {p : Patch} (hHolds : d.Holds (some I))
    (hp : p ∈ I.overlay.patches) :
    ∃ d₀ I₀ w files, Run Fits d₀ ∧ d₀.Holds (some I₀) ∧ Steps Extends d₀ d ∧
      .patch p ∈ (updateChanges w I₀ files).changes := by
  induction hRun generalizing I with
  | empty => cases hHolds.manifest.symm.trans (AList.lookup_empty _)
  | @commit op prev d d' hRun hOp hCommits ih =>
    have hPrev : ∀ K ∈ prev, K.Sound := fun K hK =>
      hRun.sound (Option.mem_def.mp hK ▸ hCommits.holds)
    obtain ⟨K, hK, hLeaves⟩ := hCommits.leaves hPrev hOp
    obtain rfl := Option.some.inj (hK.unique hHolds)
    obtain ⟨hNot, L, hL, hFrom⟩ := hLeaves.patches p hp
    have hHeld : d.Holds (some L) := Option.mem_def.mp hL ▸ hCommits.holds
    have hStep : Step Extends d d' := .commit ⟨hOp, hNot⟩ hCommits
    rcases hFrom with hOld | ⟨w, cfg, files, -, hNew⟩
    · obtain ⟨d₀, I₀, w, files, hRun₀, hI₀, hSteps, hChange⟩ := ih hHeld hOld
      exact ⟨d₀, I₀, w, files, hRun₀, hI₀, hSteps.tail hStep, hChange⟩
    · exact ⟨d, L, w, files, hRun, hHeld, .single hStep, hNew⟩
  | @other prev d d' hRun hHeld hHeld' ih =>
    obtain rfl := hHeld'.unique hHolds
    obtain ⟨d₀, I₀, w, files, hRun₀, hI₀, hSteps, hChange⟩ := ih hHeld hp
    exact ⟨d₀, I₀, w, files, hRun₀, hI₀, hSteps.tail (.other hHeld hHeld'), hChange⟩

end Operation

-- ---------------------------------------------------------------------------
-- Documents
-- ---------------------------------------------------------------------------

namespace Index

variable {I J : Index}

omit [Platform] in
/-- A segment id stays with its segment. -/
theorem Evolves.carried_of_id (h : I.Evolves J) (hI : I.Sound) {s t : Segment}
    (hs : s ∈ I.segments) (ht : t ∈ J.segments)
    (hId : s.entry.segmentId = t.entry.segmentId) : s.Carried t := by
  obtain ⟨u, hu, hCarried⟩ := h.carried t ht (hId ▸ I.segmentId_lt hs)
  obtain rfl := hI.eq_of_segmentId hu hs (hCarried.segmentId.symm.trans hId.symm)
  exact hCarried

omit [Platform] in
/-- Without a rebuild a global id stays with its document. -/
theorem Grows.same_doc (h : I.Grows J) {s t : Segment} (hs : s ∈ I.segments)
    (ht : t ∈ J.segments) {i j : DocId} (hi : i < s.entry.numDocs) (hj : j < t.entry.numDocs)
    (hEq : s.entry.baseDoc + i = t.entry.baseDoc + j) : s.Carried t ∧ i = j := by
  by_cases hOld : t.entry.segmentId < I.manifest.nextSegmentId
  · obtain ⟨u, hu, hCarried⟩ := h.carried t ht hOld
    rw [hCarried.baseDoc] at hEq
    obtain ⟨rfl, rfl⟩ := global_inj hs hu hi (hCarried.numDocs ▸ hj) hEq
    exact ⟨hCarried, rfl⟩
  · -- A new segment lies behind all ids in use.
    exfalso
    have hBase := h.base_ge t ht (UInt32.not_lt.mp hOld)
    have hEnd := endDoc_le_endBound (mem_manifest_segments.mpr ⟨s, hs, rfl⟩)
    have hNat := congrArg UInt32.toNat hEq
    rw [UInt32.lt_iff_toNat_lt] at hi hj
    rw [toNat_global hs hi, toNat_global ht hj] at hNat
    unfold SegmentEntry.endDoc at hEnd
    omega

end Index

/-- The store over whole runs: every operation leaves an index that opens and is consistent;
segment ids are not given again, global ids not between two rebuilds; and a patch applies to
the document it was written for, or to none. -/
theorem consistent_of_run {d : Dir} (hRun : Operation.Run Operation.Fits d) :
    (∀ (op : Operation) (prev : Option Index) (d' : Dir), op.Fits prev →
      op.Commits prev d d' → ∃ J, d'.openIndex = .ok (some J) ∧ J.Consistent) ∧
    ∀ I, d.openIndex = .ok (some I) →
      I.Consistent ∧
      (∀ d' J, Operation.Steps Operation.Fits d d' → d'.openIndex = .ok (some J) →
        ∀ s ∈ I.segments, ∀ t ∈ J.segments,
          s.entry.segmentId = t.entry.segmentId → s.Carried t) ∧
      (∀ d' J, Operation.Steps Operation.Extends d d' → d'.openIndex = .ok (some J) →
        ∀ s ∈ I.segments, ∀ t ∈ J.segments, ∀ i < s.entry.numDocs, ∀ j < t.entry.numDocs,
          s.entry.baseDoc + i = t.entry.baseDoc + j → s.Carried t ∧ i = j) ∧
      ∀ p ∈ I.overlay.patches, ∃ d₀ I₀ w files, Operation.Run Operation.Fits d₀ ∧
        d₀.openIndex = .ok (some I₀) ∧ Operation.Steps Operation.Extends d₀ d ∧
        .patch p ∈ (updateChanges w I₀ files).changes ∧
        ∃ s ∈ I₀.segments, ∃ i < s.entry.numDocs, p.docId = s.entry.baseDoc + i ∧
          s.isDeleted i = false ∧
          ∀ t ∈ I.segments, ∀ j < t.entry.numDocs, p.docId = t.entry.baseDoc + j →
            s.Carried t ∧ i = j := by
  refine ⟨?_, fun I hOpen => ?_⟩
  · intro op prev d' hFits hCommits
    have hPrev : ∀ K ∈ prev, K.Sound := fun K hK =>
      hRun.sound (Option.mem_def.mp hK ▸ hCommits.holds)
    obtain ⟨J, hJ, hLeaves⟩ := hCommits.leaves hPrev hFits
    exact ⟨J, openIndex_ok_iff.mpr hJ, hLeaves.sound.consistent⟩
  have hHolds : d.Holds (some I) := openIndex_ok_iff.mp hOpen
  have hSound := hRun.sound hHolds
  refine ⟨hSound.consistent, ?_, ?_, ?_⟩
  · intro d' J hSteps hJ s hs t ht hId
    exact (hSteps.evolves hHolds hSound (openIndex_ok_iff.mp hJ)).carried_of_id hSound hs ht hId
  · intro d' J hSteps hJ s hs t ht i hi j hj hEq
    exact (hSteps.grows hHolds hSound (openIndex_ok_iff.mp hJ)).same_doc hs ht hi hj hEq
  · intro p hp
    obtain ⟨d₀, I₀, w, files, hRun₀, hI₀, hSteps, hChange⟩ := hRun.patch_written hHolds hp
    obtain ⟨x, hx, hId⟩ := patchesOnly_reconcile w.reconcileRead files p hChange
    obtain ⟨s, hs, i, hi, hEq, hLive⟩ := Index.liveId_of_mem_docs hx
    rw [hId] at hEq
    refine ⟨d₀, I₀, w, files, hRun₀, openIndex_ok_iff.mpr hI₀, hSteps, hChange, s, hs, i, hi,
      hEq, hLive, ?_⟩
    intro t ht j hj hEq'
    exact (hSteps.grows hI₀ (hRun₀.sound hI₀) hHolds).same_doc hs ht hi hj (hEq.symm.trans hEq')

omit [Platform] in
/-- A build and the update after a rename. -/
theorem consistent_renamed : ∃ _ : Platform, ∃ d I, Operation.Run Operation.Fits d ∧
    d.openIndex = .ok (some I) ∧ I.overlay.patches.length = 1 ∧ I.Consistent := by
  refine ⟨Platform.reference, ?_⟩
  let _ := Platform.reference
  obtain ⟨s, J, d, h⟩ := exists_renamedRun
  have hRun : Operation.Run Operation.Fits d := h.run.mono fun _ _ hOp => hOp.1.fits
  have hOpen := openIndex_ok_iff.mpr h.holds
  refine ⟨d, J, hRun, hOpen, ?_, ((consistent_of_run hRun).2 J hOpen).1⟩
  rw [h.patches]
  rfl

end Operations

end Ripindex
