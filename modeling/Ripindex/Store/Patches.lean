import Ripindex.Store.Stale

/-!
# Overlay patches

An update carries the patches of the overlay forward, but neither `delete_docs` nor a merge
looks at them. The overlay holds patches for live documents as long as no document with a
patch is deleted by `delete_docs` or has its segment merged.

A run is a sequence of directories: an operation works on the index its directory holds, and
files that no manifest names come and go.

## Results

* `Operation.patchesLive` — what one operation keeps;
* `patchesLive_of_run` — the patches in every directory reached.
-/

namespace Ripindex

-- ---------------------------------------------------------------------------
-- Live documents
-- ---------------------------------------------------------------------------

/-- The id lies in the range of a listed segment and is not deleted there. -/
def Index.LiveId (I : Index) (d : DocId) : Prop :=
  ∃ s ∈ I.segments, ∃ i, i < s.entry.numDocs ∧ d = s.entry.baseDoc + i ∧
    s.isDeleted i = false

/-- Every patch is for a live document, and there are no more patches than live documents. -/
structure Index.PatchesLive (I : Index) : Prop where
  live : ∀ p ∈ I.overlay.patches, I.LiveId p.docId
  length_le : I.overlay.patches.length ≤ I.liveDocs

/-- Global ids of a segment that are not deleted. -/
def Segment.liveIds (s : Segment) : List DocId :=
  ((List.range s.docs.length).filter fun i => !s.isDeleted (UInt32.ofNat i)).map fun i =>
    s.entry.baseDoc + UInt32.ofNat i

theorem Segment.length_liveIds (s : Segment) (h : s.del = none → s.entry.numDeleted = 0) :
    s.liveIds.length = s.entry.numDocs.toNat - s.entry.numDeleted.toNat := by
  have hSplit := List.length_eq_countP_add_countP (l := List.range s.docs.length)
    (p := fun i => s.isDeleted (UInt32.ofNat i))
  have hDeleted := s.toNat_numDeleted h
  rw [List.length_range, ← hDeleted, s.length_docs] at hSplit
  rw [liveIds, List.length_map, ← List.countP_eq_length_filter]
  have hNot : ((List.range s.docs.length).countP fun i => !s.isDeleted (UInt32.ofNat i)) =
      (List.range s.docs.length).countP
        fun i => decide ¬ s.isDeleted (UInt32.ofNat i) = true :=
    List.countP_congr fun i _ => by simp
  rw [hNot, s.length_docs]
  omega

namespace Index

theorem mem_liveIds {I : Index} {d : DocId} (h : I.LiveId d) :
    d ∈ I.segments.flatMap Segment.liveIds := by
  obtain ⟨s, hs, i, hi, rfl, hLive⟩ := h
  refine List.mem_flatMap.mpr ⟨s, hs, List.mem_map.mpr ⟨i.toNat, ?_, by rw [UInt32.ofNat_toNat]⟩⟩
  rw [List.mem_filter, List.mem_range, s.length_docs, UInt32.ofNat_toNat, hLive]
  exact ⟨UInt32.lt_iff_toNat_lt.mp hi, rfl⟩

theorem length_liveIds {I : Index} (hI : I.Sound) :
    (I.segments.flatMap Segment.liveIds).length = I.liveDocs := by
  rw [List.length_flatMap, liveDocs]
  exact congrArg List.sum (List.map_congr_left fun s hs =>
    s.length_liveIds (hI.numDeleted s hs))

/-- Patches have different documents, so that they are not more than the live ones. -/
theorem patchesLive_of_live {I : Index} (hI : I.Sound)
    (h : ∀ p ∈ I.overlay.patches, I.LiveId p.docId) : I.PatchesLive := by
  refine ⟨h, ?_⟩
  have hNodup : (I.overlay.patches.map Patch.docId).Nodup := by
    refine List.pairwise_map.mpr (I.overlay.docId_lt.imp ?_)
    intro p q hLt hEq
    exact UInt32.lt_irrefl _ (hEq ▸ hLt)
  have hSub : I.overlay.patches.map Patch.docId ⊆ I.segments.flatMap Segment.liveIds := by
    intro d hd
    obtain ⟨p, hp, rfl⟩ := List.mem_map.mp hd
    exact mem_liveIds (h p hp)
  have hLe := (List.subperm_of_subset hNodup hSub).length_le
  rwa [List.length_map, length_liveIds hI] at hLe

theorem eq_of_locateFrom {d l : DocId} {i j : Nat} {s : Segment} {segs : List Segment}
    (h : locateFrom d i segs = some (j, s, l)) : d = s.entry.baseDoc + l := by
  induction segs generalizing i with
  | nil => cases h
  | cons t segs ih =>
    rw [locateFrom] at h
    split_ifs at h
    · exact ih h
    · obtain ⟨-, rfl, rfl⟩ : i = j ∧ t = s ∧ d - t.entry.baseDoc = l := by simpa using h
      rw [UInt32.add_comm, UInt32.sub_add_cancel]

/-- A document that is reported is live. -/
theorem liveId_of_doc {I : Index} {id : DocId} {m : DocMeta} (h : I.doc id = some m) :
    I.LiveId id := by
  unfold Index.doc at h
  rcases hFind : I.locate id with _ | ⟨j, t, l⟩
  · rw [hFind] at h
    cases h
  · have hDel : t.isDeleted l = false := by
      by_contra hDeleted
      rw [Bool.not_eq_false] at hDeleted
      simp [hFind, Segment.docMeta, hDeleted] at h
    exact ⟨t, List.fst_mem_of_mem_zipIdx (mem_zipIdx_of_locateFrom hFind), l,
      lt_of_locateFrom hFind, eq_of_locateFrom hFind, hDel⟩

/-- The documents of the index are live. -/
theorem liveId_of_mem_docs {I : Index} {d : DocId × DocMeta} (h : d ∈ I.docs) :
    I.LiveId d.1 := by
  obtain ⟨s, -, hMem⟩ := List.mem_flatMap.mp h
  obtain ⟨id, -, hDoc⟩ := List.mem_filterMap.mp hMem
  obtain ⟨m, hm, rfl⟩ := Option.map_eq_some_iff.mp hDoc
  exact liveId_of_doc hm

/-- Tombstones of other documents leave a document live. -/
theorem liveId_amended [Platform] {I : Index} {ids : List DocId} {segs : List Segment}
    {d : DocId} (h : I.LiveId d) (hNot : d ∉ ids) :
    ∃ s ∈ amendedSegments I (localsOf I ids) segs, ∃ i, i < s.entry.numDocs ∧
      d = s.entry.baseDoc + i ∧ s.isDeleted i = false := by
  obtain ⟨s, hs, i, hi, hEq, hLive⟩ := h
  obtain ⟨k, hk⟩ := List.mem_iff_getElem?.mp hs
  have hMem : (s, k) ∈ I.segments.zipIdx := List.mem_zipIdx_iff_getElem?.mpr hk
  refine ⟨s.tombstoned (localsOf I ids k),
    List.mem_append_left _ (mem_tombstonedAll.mpr ⟨(s, k), hMem, rfl⟩), i, ?_, ?_, ?_⟩
  · rwa [Segment.numDocs_tombstoned]
  · rwa [Segment.baseDoc_tombstoned]
  · rw [Bool.eq_false_iff, ne_eq, Segment.isDeleted_tombstoned, hLive]
    rintro (hDel | ⟨hLocal, -⟩)
    · cases hDel
    · -- The local id would come from the document itself.
      obtain ⟨id, hId, hSome⟩ := List.mem_filterMap.mp hLocal
      rcases hFind : I.locate id with _ | ⟨j, t, l⟩
      · simp [hFind] at hSome
      · obtain ⟨rfl, rfl⟩ : j = k ∧ l = i := by simpa [hFind] using hSome
        have hSame := List.mem_zipIdx_iff_getElem?.mp (mem_zipIdx_of_locateFrom hFind)
        obtain rfl : s = t := Option.some.inj (hk.symm.trans hSame)
        exact hNot (hEq ▸ eq_of_locateFrom hFind ▸ hId)

end Index

-- ---------------------------------------------------------------------------
-- Patches of an update
-- ---------------------------------------------------------------------------

namespace Overlay

theorem mem_foldl_insert {patches : List Patch} {o : Overlay} {p : Patch}
    (h : p ∈ (patches.foldl insert o).patches) : p ∈ o.patches ∨ p ∈ patches := by
  induction patches generalizing o with
  | nil => exact .inl h
  | cons q patches ih =>
    rcases ih h with hMem | hMem
    · rcases mem_insertSorted hMem with rfl | hMem
      · exact .inr List.mem_cons_self
      · exact .inl hMem
    · exact .inr (List.mem_cons_of_mem _ hMem)

theorem mem_foldl_remove {ids : List DocId} {o : Overlay} {p : Patch}
    (h : p ∈ (ids.foldl remove o).patches) : p ∈ o.patches ∧ p.docId ∉ ids := by
  induction ids generalizing o with
  | nil => exact ⟨h, by simp⟩
  | cons d ids ih =>
    obtain ⟨hMem, hNot⟩ := ih h
    obtain ⟨hOld, hNe⟩ := List.mem_filter.mp hMem
    exact ⟨hOld, by simpa [hNot] using hNe⟩

end Overlay

section Reconcile

variable {docs : List (DocId × DocMeta)}

/-- Every recorded state is that of one of the documents. -/
def StateIndex.Records (st : StateIndex) (docs : List (DocId × DocMeta)) : Prop :=
  ∀ path state, st.byPath.lookup path = some state → ∃ d ∈ docs, d.1 = state.docId

theorem StateIndex.records_add {st : StateIndex} (h : st.Records docs) {d : DocId × DocMeta}
    (hd : d ∈ docs) : (st.add d).Records docs := by
  intro path state hLookup
  unfold StateIndex.add at hLookup
  by_cases hPath : path = d.2.path
  · subst hPath
    rw [AList.lookup_insert] at hLookup
    exact ⟨d, hd, by rw [← Option.some.inj hLookup]⟩
  · rw [AList.lookup_insert_ne hPath] at hLookup
    exact h path state hLookup

theorem StateIndex.records_fromDocs (docs : List (DocId × DocMeta)) :
    (StateIndex.fromDocs docs).Records docs := by
  have hFold : ∀ (ds : List (DocId × DocMeta)) (st : StateIndex), (∀ d ∈ ds, d ∈ docs) →
      st.Records docs → (ds.foldl StateIndex.add st).Records docs := by
    intro ds
    induction ds with
    | nil => exact fun st _ h => h
    | cons d ds ih =>
      intro st hSub h
      obtain ⟨hHead, hTail⟩ := List.forall_mem_cons.mp hSub
      exact ih _ hTail (StateIndex.records_add h hHead)
  refine hFold docs .empty (fun _ h => h) fun path state hLookup => ?_
  rw [StateIndex.empty, AList.lookup_empty] at hLookup
  cases hLookup

variable [Platform]

/-- Patches only for documents the index records. -/
def PatchesOnly (docs : List (DocId × DocMeta)) (changes : List Change) : Prop :=
  ∀ p, Change.patch p ∈ changes → ∃ d ∈ docs, d.1 = p.docId

omit [Platform] in
theorem PatchesOnly.append {cs ds : List Change} (hcs : PatchesOnly docs cs)
    (hds : PatchesOnly docs ds) : PatchesOnly docs (cs ++ ds) :=
  fun p hp => (List.mem_append.mp hp).elim (hcs p) (hds p)

omit [Platform] in
theorem patchesOnly_patchOf {d : DocId × DocMeta} (hd : d ∈ docs) (cf : CrawledFile) :
    PatchesOnly docs [patchOf d.1 cf] := by
  intro p hp
  have hEq := Change.patch.inj (List.mem_singleton.mp hp)
  exact ⟨d, hd, by rw [hEq]⟩

omit [Platform] in
theorem patchesOnly_reconcileNew {st : ReconcileState} (h : PatchesOnly docs st.plan.changes)
    (cf : CrawledFile) : PatchesOnly docs (reconcileNew st cf).plan.changes :=
  h.append fun p hp => by simp at hp

theorem patchesOnly_reconcileKnown {read : ReadFile} {st : ReconcileState} {cf : CrawledFile}
    {prior : FileState} (h : PatchesOnly docs st.plan.changes)
    (hPrior : ∃ d ∈ docs, d.1 = prior.docId) :
    PatchesOnly docs (reconcileKnown read st cf prior).plan.changes := by
  obtain ⟨d, hd, hEq⟩ := hPrior
  unfold reconcileKnown
  dsimp only
  split_ifs
  · exact h
  · split
    · split_ifs
      · exact h.append (hEq ▸ patchesOnly_patchOf hd cf)
      · exact h.append fun p hp => by simp at hp
    · exact h.append fun p hp => by simp at hp
  · exact h.append fun p hp => by simp at hp

theorem patchesOnly_reconcileRenamed {read : ReadFile} {st : ReconcileState}
    {cf : CrawledFile} {oldPath : String} {prior : FileState}
    (h : PatchesOnly docs st.plan.changes) (hPrior : ∃ d ∈ docs, d.1 = prior.docId) :
    PatchesOnly docs (reconcileRenamed read st cf oldPath prior).plan.changes := by
  obtain ⟨d, hd, hEq⟩ := hPrior
  unfold reconcileRenamed
  dsimp only
  split_ifs
  · exact h.append (hEq ▸ patchesOnly_patchOf hd cf)
  · split
    · split_ifs
      · exact h.append (hEq ▸ patchesOnly_patchOf hd cf)
      · exact h.append fun p hp => by simp at hp
    · exact patchesOnly_reconcileNew h cf
  · refine patchesOnly_reconcileNew ?_ cf
    exact h.append fun p hp => by simp at hp

theorem patchesOnly_reconcileFile {prev : StateIndex} (hPrev : prev.Records docs)
    {read : ReadFile} {st : ReconcileState} (h : PatchesOnly docs st.plan.changes)
    (cf : CrawledFile) : PatchesOnly docs (reconcileFile prev read st cf).plan.changes := by
  unfold reconcileFile
  dsimp only
  split
  · rename_i prior hLookup
    exact patchesOnly_reconcileKnown h (hPrev _ _ hLookup)
  · split
    · rename_i oldPath prior hSource
      -- The source of a rename is recorded under its old path.
      have hLookup : prev.byPath.lookup oldPath = some prior := by
        unfold renameSource at hSource
        split_ifs at hSource
        obtain ⟨old, -, hSource⟩ := Option.bind_eq_some_iff.mp hSource
        split_ifs at hSource
        obtain ⟨p, hp, hSource⟩ := Option.bind_eq_some_iff.mp hSource
        obtain ⟨rfl, rfl⟩ := Prod.mk.inj (Option.some.inj hSource)
        exact hp
      exact patchesOnly_reconcileRenamed h (hPrev _ _ hLookup)
    · exact patchesOnly_reconcileNew h cf

/-- A reconcile patches only documents the index records. -/
theorem patchesOnly_reconcile (read : ReadFile) (crawled : List CrawledFile) :
    PatchesOnly docs (reconcile (.fromDocs docs) read crawled).changes := by
  have hFold : ∀ (cfs : List CrawledFile) (st : ReconcileState),
      PatchesOnly docs st.plan.changes →
      PatchesOnly docs (cfs.foldl (reconcileFile (.fromDocs docs) read) st).plan.changes := by
    intro cfs
    induction cfs with
    | nil => exact fun st h => h
    | cons cf cfs ih =>
      exact fun st h => ih _ (patchesOnly_reconcileFile (StateIndex.records_fromDocs docs) h cf)
  refine (hFold crawled .init fun p hp => by cases hp).append fun p hp => ?_
  obtain ⟨e, -, he⟩ := List.mem_map.mp hp
  cases he

end Reconcile

-- ---------------------------------------------------------------------------
-- Operations
-- ---------------------------------------------------------------------------

section Operations

variable [Platform]

/-- One operation of a writer. -/
inductive Operation
  | build (w : World) (cfg : BuildConfig) (files : List CrawledFile)
  | update (w : World) (cfg : BuildConfig) (files : List CrawledFile)
  | delete (now : Int64) (ids : List DocId)
  | merge (now : Int64) (xs : List StagedMerge)

namespace Operation

/-- What the operation does over an index, or over none. -/
def plan : Operation → Option Index → CommitPlan
  | build w cfg files, prev => buildPlan w cfg files prev
  | update w cfg files, some I =>
    if (updateChanges w I files).isEmpty then pure none
    else updatePlan w cfg I (updateChanges w I files).changes
  | update w cfg files, none => buildPlan w cfg files none
  | delete now ids, some I => deletePlan now I ids
  | merge now xs, some I => mergePlan now I (xs.map StagedMerge.merge)
  | delete _ _, none => pure none
  | merge _ _, none => pure none

/-- Files a merge has staged before it commits. -/
def staged : Operation → List (FileName × FileData)
  | merge _ xs => xs.flatMap StagedMerge.files
  | _ => []

/-- The counters suffice for the operation, and its staged files have names of their own. -/
def HasRoom : Operation → Option Index → Prop
  | build w cfg files, prev => BuildRoom w cfg files prev
  | update w cfg files, some I => UpdateRoom w cfg I (updateChanges w I files).changes
  | update w cfg files, none => BuildRoom w cfg files none
  | delete _ ids, some I => DeleteRoom I ids
  | merge _ xs, some I => (xs.map fun x => x.merge.tag).Nodup ∧
      MergeRoom I (xs.map StagedMerge.merge)
  | _, none => True

/-- The operation does not delete a document with a patch through `delete_docs`, and does not
merge a segment that holds one. -/
def SparesPatches : Operation → Option Index → Prop
  | delete _ ids, some I => ∀ p ∈ I.overlay.patches, p.docId ∉ ids
  | merge _ xs, some I => ∀ p ∈ I.overlay.patches, ∀ s ∈ I.segments,
      s.entry.segmentId ∈ mergedIds (xs.map StagedMerge.merge) →
        ∀ i, i < s.entry.numDocs → p.docId ≠ s.entry.baseDoc + i
  | _, _ => True

/-- An operation that spares the patches leaves patches for live documents only. -/
theorem patchesLive {op : Operation} {prev : Option Index} {m : Manifest}
    {retire : List FileName} (hPrev : ∀ I ∈ prev, I.Sound ∧ I.PatchesLive)
    (hResult : (op.plan prev).result = .ok (some (m, retire))) (hRoom : op.HasRoom prev)
    (hSpares : op.SparesPatches prev) :
    ∃ J, J.manifest = m ∧ (op.plan prev).Gives prev op.staged J retire ∧ J.PatchesLive := by
  have hBuild : ∀ {w cfg files prev}, (buildPlan w cfg files prev).result =
      .ok (some (m, retire)) → BuildRoom w cfg files prev → ∃ J, J.manifest = m ∧
        (buildPlan w cfg files prev).Gives prev [] J retire ∧ J.PatchesLive := by
    intro w cfg files prev hResult hRoom
    obtain ⟨segs, hOk, -, hM, hGives⟩ := buildPlan_gives hResult hRoom
    refine ⟨_, hM, hGives, Index.patchesLive_of_live hGives.sound fun p hp => ?_⟩
    -- A build starts with an empty overlay.
    cases hp
  match op, prev with
  | build w cfg files, prev => exact hBuild hResult hRoom
  | update w cfg files, none => exact hBuild hResult hRoom
  | update w cfg files, some I =>
    obtain ⟨hSound, hLive⟩ := hPrev I rfl
    rw [plan] at hResult ⊢
    split_ifs at hResult ⊢ with hEmpty
    · cases hResult
    obtain ⟨segs, hOk, -, hM, hGives⟩ := updatePlan_gives hSound hResult hRoom
    refine ⟨_, hM, hGives, Index.patchesLive_of_live hGives.sound fun p hp => ?_⟩
    obtain ⟨hMem, hNot⟩ := Overlay.mem_foldl_remove hp
    have hLiveId : I.LiveId p.docId := by
      rcases Overlay.mem_foldl_insert hMem with hOld | hNew
      · exact hLive.live p hOld
      · obtain ⟨c, hc, hEq⟩ := List.mem_filterMap.mp hNew
        cases c with
        | patch q =>
          obtain rfl := Option.some.inj hEq
          obtain ⟨d, hd, hId⟩ := patchesOnly_reconcile w.reconcileRead files q hc
          exact hId ▸ Index.liveId_of_mem_docs hd
        | delete id => cases hEq
        | reindex cf bytes => cases hEq
    exact Index.liveId_amended hLiveId hNot
  | delete now ids, some I =>
    obtain ⟨hSound, hLive⟩ := hPrev I rfl
    obtain ⟨hM, hGives⟩ := deletePlan_gives hSound hResult hRoom
    refine ⟨_, hM.symm, hGives, Index.patchesLive_of_live hGives.sound fun p hp => ?_⟩
    exact Index.liveId_amended (hLive.live p hp) (hSpares p hp)
  | merge now xs, some I =>
    obtain ⟨hSound, hLive⟩ := hPrev I rfl
    obtain ⟨hTags, hMergeRoom⟩ := hRoom
    obtain ⟨hM, hGives⟩ := mergePlan_gives hSound hResult hTags hMergeRoom
    refine ⟨_, hM, hGives, Index.patchesLive_of_live hGives.sound fun p hp => ?_⟩
    obtain ⟨s, hs, i, hi, hEq, hDel⟩ := hLive.live p hp
    -- The segment of the document is no source.
    have hKept : s.entry.segmentId ∉ mergedIds (xs.map StagedMerge.merge) :=
      fun hMerged => hSpares p hp s hs hMerged i hi hEq
    exact ⟨s, List.mem_append_left _ (List.mem_filter.mpr ⟨hs, by simpa using hKept⟩), i, hi,
      hEq, hDel⟩
  | delete now ids, none => cases hResult
  | merge now xs, none => cases hResult

end Operation

-- ---------------------------------------------------------------------------
-- Runs
-- ---------------------------------------------------------------------------

/-- What a directory holds. -/
def Dir.Holds (d : Dir) : Option Index → Prop
  | none => d.lookup .manifest = none
  | some I => I.Backed d

theorem Dir.Holds.unique {d : Dir} {p q : Option Index} (hp : d.Holds p) (hq : d.Holds q) :
    p = q := by
  cases p with
  | none =>
    cases q with
    | none => rfl
    | some J => cases hp.symm.trans hq.manifest
  | some I =>
    cases q with
    | none => cases hq.symm.trans hp.manifest
    | some J => exact congrArg some (Index.Backed.unique hp hq)

/-- An operation over what the directory holds commits; removals and other files that the
new manifest does not name are left open. -/
inductive Operation.Commits (op : Operation) (prev : Option Index) (d d' : Dir) : Prop
  | mk {m : Manifest} {retire : List FileName} (hHolds : d.Holds prev)
    (hStaged : ∀ f ∈ op.staged, d.lookup f.1 = some f.2)
    (hResult : (op.plan prev).result = .ok (some (m, retire)))
    (hAfter : ∀ n, n = .manifest ∨ n ∈ referencedFiles m →
      d'.lookup n = (d.committed (op.plan prev).steps m).lookup n)

theorem Operation.Commits.holds {op : Operation} {prev : Option Index} {d d' : Dir}
    (h : op.Commits prev d d') : d.Holds prev := by
  cases h with
  | mk hHolds => exact hHolds

/-- What a plan gives is what the directory holds afterwards. -/
theorem Operation.Commits.of_gives {op : Operation} {prev : Option Index} {d d' : Dir}
    {Q : Index → Prop} (h : op.Commits prev d d')
    (hGives : ∀ {m retire}, (op.plan prev).result = .ok (some (m, retire)) →
      ∃ J, J.manifest = m ∧ (op.plan prev).Gives prev op.staged J retire ∧ Q J) :
    ∃ J, d'.Holds (some J) ∧ Q J := by
  obtain ⟨hHolds, hStaged, hResult, hAfter⟩ := h
  obtain ⟨J, rfl, hJ, hQ⟩ := hGives hResult
  have hBacked := hJ.backed d (fun I hI => by
    obtain rfl := Option.mem_def.mp hI
    exact hHolds) hStaged
  exact ⟨J, hBacked.of_agree (hAfter _ (.inl rfl)) fun n hn => hAfter n (.inr hn), hQ⟩

/-- The directories that operations lead to from an empty one, when each of them is
admissible over the index it finds. -/
inductive Operation.Run (admissible : Operation → Option Index → Prop) : Dir → Prop
  | empty : Run admissible ∅
  | commit {op : Operation} {prev : Option Index} {d d' : Dir} (hRun : Run admissible d)
    (hOp : admissible op prev) (hStep : op.Commits prev d d') : Run admissible d'
  /-- Files come and go that do not matter to what the directory holds. -/
  | other {prev : Option Index} {d d' : Dir} (hRun : Run admissible d) (hHolds : d.Holds prev)
    (hHolds' : d'.Holds prev) : Run admissible d'

/-- What every operation keeps holds in every directory reached. -/
theorem Operation.Run.holds {admissible : Operation → Option Index → Prop}
    {P : Option Index → Prop} (hEmpty : P none)
    (hStep : ∀ {op prev d d'}, P prev → admissible op prev → op.Commits prev d d' →
      ∃ J, d'.Holds (some J) ∧ P (some J))
    {d : Dir} (hRun : Run admissible d) : ∃ prev, d.Holds prev ∧ P prev := by
  induction hRun with
  | empty => exact ⟨none, AList.lookup_empty _, hEmpty⟩
  | @commit op prev d d' _ hOp hCommits ih =>
    obtain ⟨q, hq, hInv⟩ := ih
    obtain rfl := hCommits.holds.unique hq
    obtain ⟨J, hJ, hInv'⟩ := hStep hInv hOp hCommits
    exact ⟨some J, hJ, hInv'⟩
  | other _ hHolds hHolds' ih =>
    obtain ⟨q, hq, hInv⟩ := ih
    obtain rfl := hHolds.unique hq
    exact ⟨_, hHolds', hInv⟩

/-- With room, and sparing the patches. -/
def Operation.Sparing (op : Operation) (prev : Option Index) : Prop :=
  op.HasRoom prev ∧ op.SparesPatches prev

/-- As long as no document with a patch is deleted by `delete_docs` or merged, the overlay
holds patches for live documents only. -/
theorem patchesLive_of_run {d : Dir} {I : Index} (hRun : Operation.Run Operation.Sparing d)
    (hHolds : d.Holds (some I)) : I.PatchesLive := by
  have hInv : ∃ prev, d.Holds prev ∧ ∀ I ∈ prev, I.Sound ∧ I.PatchesLive := by
    refine hRun.holds (fun _ h => by cases h) ?_
    intro op prev d d' hInv hOp hCommits
    obtain ⟨J, hJ, hSound, hLive⟩ := hCommits.of_gives (Q := fun J => J.Sound ∧ J.PatchesLive)
      fun hResult => by
        obtain ⟨J, hM, hGives, hLive⟩ := Operation.patchesLive hInv hResult hOp.1 hOp.2
        exact ⟨J, hM, hGives, hGives.sound, hLive⟩
    refine ⟨J, hJ, ?_⟩
    rintro _ ⟨⟩
    exact ⟨hSound, hLive⟩
  obtain ⟨prev, hPrev, hInv⟩ := hInv
  obtain rfl := hPrev.unique hHolds
  exact (hInv I rfl).2

/-- A commit of an operation, from what its plan gives. -/
theorem Operation.commits_of_gives (op : Operation) {prev : Option Index} {d : Dir} {J : Index}
    {retire : List FileName} (hHolds : d.Holds prev)
    (hStaged : ∀ f ∈ op.staged, d.lookup f.1 = some f.2)
    (hGives : (op.plan prev).Gives prev op.staged J retire) :
    ∃ d', op.Commits prev d d' ∧ d'.Holds (some J) := by
  refine ⟨d.committed (op.plan prev).steps J.manifest,
    ⟨hHolds, hStaged, hGives.result, fun _ _ => rfl⟩, hGives.backed d (fun I hI => ?_) hStaged⟩
  obtain rfl := Option.mem_def.mp hI
  exact hHolds

theorem Operation.Run.mono {P Q : Operation → Option Index → Prop}
    (hPQ : ∀ op prev, P op prev → Q op prev) {d : Dir} (h : Run P d) : Run Q d := by
  induction h with
  | empty => exact .empty
  | commit _ hOp hStep ih => exact .commit ih (hPQ _ _ hOp) hStep
  | other _ hHolds hHolds' ih => exact .other ih hHolds hHolds'

-- ---------------------------------------------------------------------------
-- A renamed file
-- ---------------------------------------------------------------------------

omit [Platform] in
def oneFile (path : String) : CrawledFile := ⟨⟨path, 1, 0, 0⟩, .binary⟩

omit [Platform] in
def oneWorld : World where
  rootIsDir := true
  crawl := .ok [oneFile "a"]
  reconcileRead := fun _ => .error .other
  indexRead := fun _ => .error .other
  now := 0

omit [Platform] in
def renamePatch : Patch := ⟨0, 1, 0, 0, "b"⟩

theorem docs_of_singleBuild {I : Index} {s : Segment}
    (hBuild : SingleBuild oneWorld [oneFile "a"] I s) :
    I.docs = [(0, recorded oneWorld.indexRead (oneFile "a"))] := by
  have hNum : s.entry.numDocs.toNat = 1 := hBuild.records.numDocs
  have hEnd : ¬ s.entry.endDoc ≤ 0 := by
    rw [SegmentEntry.endDoc]
    omega
  have hLocate : I.locate 0 = some (0, s, 0) := by
    simp [Index.locate, hBuild.segments, Index.locateFrom, hEnd, hBuild.baseDoc]
  have hDoc : I.doc 0 = some (recorded oneWorld.indexRead (oneFile "a")) := by
    simp [Index.doc, hLocate, Segment.docMeta, hBuild.isDeleted, hBuild.records.docs,
      hBuild.overlay, Overlay.find, Overlay.empty]
  have hZero : s.entry.baseDoc + UInt32.ofNat 0 = 0 := by rw [hBuild.baseDoc]; rfl
  have hIds : Index.segmentIds s = [0] := by
    rw [Index.segmentIds, hNum]
    show [s.entry.baseDoc + UInt32.ofNat 0] = [0]
    rw [hZero]
  simp [Index.docs, hBuild.segments, hIds, hDoc]

/-- The update after the rename writes a patch and nothing else. -/
theorem updateChanges_renamed {I : Index} {s : Segment}
    (hBuild : SingleBuild oneWorld [oneFile "a"] I s) :
    (updateChanges oneWorld I [oneFile "b"]).changes = [.patch renamePatch] := by
  rw [updateChanges, docs_of_singleBuild hBuild]
  rfl

/-- With that patch the update commits. -/
theorem exists_renamed {I : Index} {s : Segment}
    (hBuild : SingleBuild oneWorld [oneFile "a"] I s) :
    ∃ J retire, (updatePlan oneWorld mixedConfig I [.patch renamePatch]).Gives (some I) [] J
        retire ∧ J.segments = [s] ∧ J.overlay.patches = [renamePatch] ∧
      UpdateRoom oneWorld mixedConfig I [.patch renamePatch] ∧
      J.manifest.generation = 2 := by
  have hUnchanged : ∀ p ∈ I.segments.zipIdx 0, p.1.changes [] = false := fun _ _ => rfl
  have hSame : tombstonedAll (localsOf I []) 0 I.segments = [s] := by
    rw [hBuild.segments]
    rfl
  have hRoom : UpdateRoom oneWorld mixedConfig I [.patch renamePatch] := by
    refine ⟨?_, ?_, ?_, ?_, ?_, ?_⟩
    · exact I.endBound_le_of_ok
    · exact I.manifest.nextSegmentId.toNat_lt
    · show I.segments.length + segmentCount oneWorld.indexRead [] I.idBound mixedConfig < _
      rw [hBuild.segments, segmentCount_nil]
      show 1 + 0 < 2 ^ 32
      decide
    · intro p hp hChange
      cases (hUnchanged p hp).symm.trans hChange
    · intro _
      rw [hBuild.stateGen]
      decide
    · rw [hBuild.generation]
      decide
  have hPatches : (updatedOverlay I [.patch renamePatch]).patches = [renamePatch] := by
    rw [updatedOverlay, hBuild.overlay]
    rfl
  have hResult : ∃ m retire, (updatePlan oneWorld mixedConfig I [.patch renamePatch]).result =
      .ok (some (m, retire)) := by
    have hWrite : ∃ stamp, (writeOverlay I.manifest.stateGen
        (updatedOverlay I [.patch renamePatch])).result = .ok stamp := by
      unfold writeOverlay
      rw [hPatches]
      refine ⟨_, Plan.bind_ok.mpr ⟨updatedOverlay I [.patch renamePatch], ?_,
        Plan.bind_ok.mpr ⟨(), Plan.writeFinal_result _ _, rfl⟩⟩⟩
      rw [Overlay.encode, hPatches]
      rfl
    obtain ⟨stamp, hStamp⟩ := hWrite
    exact ⟨_, _, Plan.bind_ok.mpr ⟨_, rfl, Plan.bind_ok.mpr ⟨_, tombstoneAll_result _ _ _,
      Plan.bind_ok.mpr ⟨stamp, hStamp, rfl⟩⟩⟩⟩
  obtain ⟨m, retire, hResult⟩ := hResult
  obtain ⟨segs, hOk, hAmends, hM, hGives⟩ :=
    updatePlan_gives hBuild.commit.sound hResult hRoom
  have hSegs : segs = [] := hAmends.tiles.segs_eq_nil rfl
  subst hSegs
  refine ⟨_, retire, hGives, ?_, hPatches, hRoom, ?_⟩
  · show tombstonedAll (localsOf I []) 0 I.segments ++ [] = [s]
    rw [hSame, List.append_nil]
  · show I.manifest.generation + 1 = 2
    rw [hBuild.generation]
    rfl

/-- A first build and the update after the rename. -/
structure RenamedRun (s : Segment) (J : Index) (d : Dir) : Prop where
  run : Operation.Run Operation.Sparing d
  holds : d.Holds (some J)
  build : ∃ I, SingleBuild oneWorld [oneFile "a"] I s
  segments : J.segments = [s]
  patches : J.overlay.patches = [renamePatch]
  generation : J.manifest.generation = 2
  sound : J.Sound

omit [Platform] in
theorem exists_renamedRun :
    let _ := Platform.reference
    ∃ s J d, RenamedRun s J d := by
  intro _
  have hRoom : BuildRoom oneWorld mixedConfig [oneFile "a"] none :=
    ⟨by decide +kernel, by decide +kernel, by decide +kernel⟩
  obtain ⟨I, s, _, hBuild, hGives⟩ := SingleBuild.exists_gives
    (by decide +kernel) hRoom (by decide +kernel)
  have hEmpty : Dir.Holds ∅ none := AList.lookup_empty _
  obtain ⟨d₁, hFirst, hHolds₁⟩ := Operation.commits_of_gives
    (.build oneWorld mixedConfig [oneFile "a"]) hEmpty (by simp [Operation.staged]) hGives
  obtain ⟨J, _, hGives', hSegs, hPatches, hRoom', hGen⟩ := exists_renamed hBuild
  -- The update finds the rename.
  have hChanges := updateChanges_renamed hBuild
  have hPlan : (Operation.update oneWorld mixedConfig [oneFile "b"]).plan (some I) =
      updatePlan oneWorld mixedConfig I [.patch renamePatch] := by
    rw [Operation.plan, Reconciled.isEmpty, hChanges]
    rfl
  obtain ⟨d₂, hSecond, hHolds₂⟩ := Operation.commits_of_gives
    (.update oneWorld mixedConfig [oneFile "b"]) hHolds₁ (by simp [Operation.staged])
    (hPlan.symm ▸ hGives')
  have hBuildOp : Operation.Sparing (.build oneWorld mixedConfig [oneFile "a"]) none :=
    ⟨hRoom, trivial⟩
  have hUpdateOp : Operation.Sparing (.update oneWorld mixedConfig [oneFile "b"]) (some I) := by
    refine ⟨?_, trivial⟩
    show UpdateRoom oneWorld mixedConfig I (updateChanges oneWorld I [oneFile "b"]).changes
    rwa [hChanges]
  exact ⟨s, J, d₂, .commit (.commit .empty hBuildOp hFirst) hUpdateOp hSecond, hHolds₂,
    ⟨I, hBuild⟩, hSegs, hPatches, hGen, hGives'.sound⟩

omit [Platform] in
/-- After a rename one patch is in the overlay, for a live document. -/
theorem patchesLive_renamed : ∃ _ : Platform, ∃ d I, Operation.Run Operation.Sparing d ∧
    d.Holds (some I) ∧ I.overlay.patches.length = 1 ∧ I.PatchesLive := by
  refine ⟨Platform.reference, ?_⟩
  let _ := Platform.reference
  obtain ⟨s, J, d, h⟩ := exists_renamedRun
  refine ⟨d, J, h.run, h.holds, ?_, patchesLive_of_run h.run h.holds⟩
  rw [h.patches]
  rfl

omit [Platform] in
/-- The patch outlives the deletion of its document. -/
theorem deleted_patch_not_live : ∃ _ : Platform, ∃ d I, Operation.Run (fun _ _ => True) d ∧
    d.Holds (some I) ∧ ¬ I.PatchesLive := by
  refine ⟨Platform.reference, ?_⟩
  let _ := Platform.reference
  obtain ⟨s, J, d, h⟩ := exists_renamedRun
  obtain ⟨I, hBuild⟩ := h.build
  have hId : (0 : DocId) < s.entry.numDocs := by
    rw [UInt32.lt_iff_toNat_lt, hBuild.records.numDocs]
    decide
  have hLocals : localsOf J [0] = localsOf I [0] := by
    unfold localsOf Index.locate
    rw [h.segments, hBuild.segments]
  have hChanges : changesAny (localsOf J [0]) 0 J.segments = true := by
    rw [hLocals, h.segments, ← hBuild.segments]
    exact hBuild.changesAny hId
  have hSegs : amendedSegments J (localsOf J [0]) [] = [s.tombstoned [0]] := by
    have hAmended := hBuild.amendedSegments hId
    unfold Ripindex.amendedSegments at hAmended ⊢
    rw [hLocals, h.segments, ← hBuild.segments]
    exact hAmended
  have hRoom : DeleteRoom J [0] := by
    refine ⟨?_, by rw [h.generation]; decide⟩
    intro p hp _
    rw [h.segments, List.zipIdx_singleton, List.mem_singleton] at hp
    rw [hp, hBuild.flushed.delGen]
    decide
  have hResult : (deletePlan 0 J [0]).result = .ok (some (deletedManifest 0 J [0],
      retiredDels (localsOf J [0]) 0 J.segments)) := by
    rw [deletePlan_result, if_pos hChanges]
  obtain ⟨-, hGives⟩ := deletePlan_gives h.sound hResult hRoom
  obtain ⟨d', hStep, hHolds⟩ := Operation.commits_of_gives (.delete 0 [0]) h.holds
    (by simp [Operation.staged]) hGives
  refine ⟨d', _, .commit (h.run.mono fun _ _ _ => trivial) trivial hStep, hHolds,
    fun hLive => ?_⟩
  have hPatch : renamePatch ∈
      (deletedIndex 0 J [0] (deletedManifest_ok hRoom)).overlay.patches := by
    show renamePatch ∈ J.overlay.patches
    rw [h.patches]
    exact List.mem_singleton_self _
  obtain ⟨t, ht, i, -, hEq, hDel⟩ := hLive.live _ hPatch
  have ht : t ∈ amendedSegments J (localsOf J [0]) [] := ht
  rw [hSegs, List.mem_singleton] at ht
  subst ht
  -- The patch is for the document just deleted.
  rw [Segment.baseDoc_tombstoned, hBuild.baseDoc, UInt32.zero_add] at hEq
  have hDeleted := (hBuild.isDeleted_tombstoned hId i).mpr hEq.symm
  rw [hDel] at hDeleted
  cases hDeleted

end Operations

end Ripindex
