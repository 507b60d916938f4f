import Ripindex.Store.State

/-!
# Incremental updates

`store/update.rs`: reconcile the crawl with the last commit and write only what changed,
in new segments, tombstones and overlay patches.
-/

namespace Ripindex

namespace Overlay

/-- Insert a patch into a list sorted by document, replacing one for the same document. -/
def insertSorted (p : Patch) : List Patch → List Patch
  | [] => [p]
  | q :: qs =>
    if p.docId < q.docId then p :: q :: qs
    else if p.docId = q.docId then p :: qs
    else q :: insertSorted p qs

theorem mem_insertSorted {p x : Patch} {qs : List Patch} (h : x ∈ insertSorted p qs) :
    x = p ∨ x ∈ qs := by
  induction qs with
  | nil => simpa [insertSorted] using h
  | cons q qs ih =>
    simp only [insertSorted] at h
    split at h
    · simpa using h
    · split at h
      · rcases List.mem_cons.mp h with rfl | hx
        · exact .inl rfl
        · exact .inr (List.mem_cons_of_mem _ hx)
      · rcases List.mem_cons.mp h with rfl | hx
        · exact .inr List.mem_cons_self
        · exact (ih hx).imp_right (List.mem_cons_of_mem _)

/-- `BTreeMap::insert`. -/
def insert (o : Overlay) (p : Patch) : Overlay where
  patches := insertSorted p o.patches
  docId_lt := by
    obtain ⟨qs, hqs⟩ := o
    simp only
    induction qs with
    | nil => simp [insertSorted]
    | cons q qs ih =>
      obtain ⟨hq, hRest⟩ := List.pairwise_cons.mp hqs
      simp only [insertSorted]
      split
      · rename_i hlt
        refine List.pairwise_cons.mpr ⟨fun x hx => ?_, hqs⟩
        rcases List.mem_cons.mp hx with rfl | hx
        · exact hlt
        · exact UInt32.lt_trans hlt (hq x hx)
      · split
        · rename_i heq
          exact List.pairwise_cons.mpr ⟨fun x hx => heq ▸ hq x hx, hRest⟩
        · rename_i hlt hne
          refine List.pairwise_cons.mpr ⟨fun x hx => ?_, ih hRest⟩
          rcases mem_insertSorted hx with rfl | hx
          · exact UInt32.lt_of_le_of_ne (UInt32.not_lt.mp hlt) (Ne.symm hne)
          · exact hq x hx

/-- `BTreeMap::remove`. -/
def remove (o : Overlay) (id : DocId) : Overlay where
  patches := o.patches.filter fun p => p.docId ≠ id
  docId_lt := o.docId_lt.filter _

end Overlay

/-- The documents a plan tombstones. -/
def deletesOf (changes : List Change) : List DocId :=
  changes.filterMap fun
    | .delete id => some id
    | _ => none

/-- The patches of a plan. -/
def patchesOf (changes : List Change) : List Patch :=
  changes.filterMap fun
    | .patch p => some p
    | _ => none

/-- The files a plan (re)indexes. -/
def toIndexOf (changes : List Change) : List CrawledFile :=
  changes.filterMap fun
    | .reindex cf _ => some cf
    | _ => none

/-- New patches over the previous ones, without those of deleted docs. -/
def mergeOverlay (prev : Overlay) (patches : List Patch) (deletes : List DocId) : Overlay :=
  deletes.foldl Overlay.remove (patches.foldl Overlay.insert prev)

variable [Platform]

/-- Write the overlay as the generation after `prevGen`; generation, checksum and length,
all 0 for an empty one. -/
def writeOverlay (prevGen : UInt32) (o : Overlay) : Plan (UInt32 × UInt32 × Nat) :=
  if o.patches.isEmpty then pure (0, 0, 0)
  else do
    let o ← Plan.ofFormat (Overlay.encode o)
    Plan.writeFinal (.overlay (prevGen + 1)) (.overlay o)
    pure (prevGen + 1, (FileData.overlay o).crc, (FileData.overlay o).len)

/-- New segments for the files to index, if any. -/
def updateSegments (w : World) (cfg : BuildConfig) (I : Index)
    (toIndex : List CrawledFile) : Plan (List SegmentEntry × UInt32) :=
  if toIndex.isEmpty then pure ([], I.manifest.nextSegmentId)
  else buildSegments w.indexRead toIndex I.idBound cfg I.manifest.nextSegmentId

/-- Segments, tombstones, overlay and manifest of an update. -/
def updatePlan (w : World) (cfg : BuildConfig) (I : Index) (changes : List Change) :
    CommitPlan := do
  let (newEntries, nextId) ← updateSegments w cfg I (toIndexOf changes)
  let deletes := deletesOf changes
  let (entries, retired, _) ← tombstoneAll (localsOf I deletes) 0 I.segments
  let prevGen := I.manifest.stateGen
  let (stateGen, stateCrc, stateLen) ←
    writeOverlay prevGen (mergeOverlay I.overlay (patchesOf changes) deletes)
  let retiredOverlay := if 0 < prevGen ∧ prevGen ≠ stateGen then [.overlay prevGen] else []
  pure (some (
    { generation := I.manifest.generation + 1
      nextSegmentId := nextId
      committedUnixNanos := w.now
      stateGen := stateGen
      stateCrc := stateCrc
      stateLen := stateLen
      segments := entries ++ newEntries }, retired ++ retiredOverlay))

/-- The plan `update_index` makes for an index. -/
def updateChanges (w : World) (I : Index) (files : List CrawledFile) : Reconciled :=
  reconcile (StateIndex.fromDocs I.docs) w.reconcileRead files

/-- The part of an update under its second lock; the index itself when nothing changed. -/
def updateLocked (w : World) (cfg : BuildConfig) : FsE (Option Index) := do
  let some prev ← openIndex
    | throw (.corrupt (some .manifest) (.text "index vanished under the lock"))
  let files ← FsE.ofExcept w.crawl
  let plan := updateChanges w prev files
  if plan.isEmpty then pure (some prev)
  else do
    writeAndCommit (updatePlan w cfg prev plan.changes)
    pure none

/-- Reconcile the root against the last commit and write only the difference. -/
def updateIndex (w : World) (cfg : BuildConfig) : FsE Index := do
  if !w.rootIsDir then throw .notADirectory
  FsE.call (Prog.op FsOp.createDirAll)
  let previous ← withLock openIndex
  if previous.isNone then buildIndex w cfg
  else
    match ← withLock (updateLocked w cfg) with
    | some prev => pure prev
    | none => reopen

end Ripindex
