import Ripindex.Store.Segment

/-!
# Opening and reading an index

`store/reader.rs`. `Dir.openIndex` is what opening computes on a directory nobody else
touches; `openIndex` is the program, with its lock probe, orphan sweep and retries.
-/

namespace Ripindex

/-- A multi-segment index: an accepted manifest, its segments and its overlay. -/
structure Index where
  manifest : Manifest
  segments : List Segment
  overlay : Overlay
  entries_eq : segments.map Segment.entry = manifest.segments
  manifest_ok : manifest.Ok

section Open

variable [Platform]

/-- Open the segments of the entries in order. -/
def openSegments : (es : List SegmentEntry) →
    ReadE { ss : List Segment // ss.map Segment.entry = es }
  | [] => pure ⟨[], rfl⟩
  | e :: es => do
    let s ← Segment.openEntry e
    let ss ← openSegments es
    pure ⟨s.1 :: ss.1, by rw [List.map_cons, s.2, ss.2]⟩

/-- The overlay a manifest names. -/
def openOverlay (m : Manifest) : ReadE Overlay :=
  if 0 < m.stateGen then
    openChecked .read (.overlay m.stateGen) m.stateLen m.stateCrc FileData.parseOverlay
  else
    pure Overlay.empty

/-- Open everything an accepted manifest names. -/
def loadIndex (m : { m : Manifest // m.Ok }) : ReadE Index := do
  let segments ← openSegments m.1.segments
  let overlay ← openOverlay m.1
  pure ⟨m.1, segments.1, overlay, segments.2, m.2⟩

/-- Accept the contents of `MANIFEST`: an unreadable one counts as absent, one of another
format version does not. -/
def acceptManifest (f : FileData) : Except Error (Option { m : Manifest // m.Ok }) :=
  match h : f.parseManifest with
  | .ok m => .ok (some ⟨m, by
      unfold FileData.parseManifest at h
      split at h
      · obtain ⟨-, hOk, rfl⟩ := Manifest.decode_ok_iff.mp h
        exact hOk
      · cases h
      · cases h⟩)
  | .error (.version v) => .error (.incompatible v)
  | .error _ => .ok none

/-- Read the manifest; `none` when there is no usable one. -/
def readManifest : ReadE (Option { m : Manifest // m.Ok }) :=
  ExceptT.mk do
    match ← Prog.op (ReadOp.read .manifest) with
    | .error .notFound => pure (.ok none)
    | .error e => pure (.error (.io e))
    | .ok f => pure (acceptManifest f)

/-- Opening on a directory that does not change: the manifest and all it names. -/
def readIndex : ReadE (Option Index) := do
  match ← readManifest with
  | none => pure none
  | some m => some <$> loadIndex m

/-- The index a directory holds. -/
def Dir.openIndex (d : Dir) : Except Error (Option Index) :=
  readIndex.run.onDir d

end Open

-- ---------------------------------------------------------------------------
-- The program
-- ---------------------------------------------------------------------------

/-- A reading program inside a program over the file system. -/
def FsE.ofRead {α : Type} (p : ReadE α) : FsE α := ExceptT.mk p.run.toFsM

/-- Remove files one after the other; failures are only logged. -/
def removeAll : List FileName → FsM Unit
  | [] => pure ()
  | n :: ns => do
    let _ ← Prog.op (FsOp.remove n)
    removeAll ns

/-- The orphan sweep: remove what may be removed and `m` does not name. -/
def sweep (m : Manifest) : FsE Unit := do
  let names ← FsE.call (Prog.op FsOp.listDir)
  FsE.ofM (removeAll (names.filter fun n => n.isCleanable && n ∉ referencedFiles m))

variable [Platform]

/-- Read the manifest, and sweep if the cleanup lock is held. -/
def readAndSweep (cleanupLock : Bool) : FsE (Option { m : Manifest // m.Ok }) := do
  let m ← FsE.ofRead readManifest
  match m with
  | some m => if cleanupLock then sweep m.1
  | none => pure ()
  pure m

/-- One attempt to open: probe the lock, read the manifest under it if possible, sweep,
release, and open every file the manifest names. -/
def openOnce : FsE (Option Index) := do
  let probe ← FsE.ofM (Prog.op FsOp.lock)
  let cleanupLock := probe.isOk
  let r ← FsE.attempt (readAndSweep cleanupLock)
  if cleanupLock then FsE.ofM (Prog.op FsOp.unlock)
  match ← FsE.ofExcept r with
  | none => pure none
  | some m => some <$> FsE.ofRead (loadIndex m)

def maxAttempts : Nat := 20

/-- The retry loop of `open`; `last` is the file that vanished last. -/
def openAttempts (last : Option FileName) : Nat → FsE (Option Index)
  | 0 => throw (.corrupt last
      (.text "still missing after 20 attempts to reconcile with a concurrent commit"))
  | n + 1 => do
    match ← FsE.attempt openOnce with
    | .ok r => pure r
    | .error (.vanished p) => openAttempts (some p) n
    | .error e => throw e

/-- `open`: `none` when there is no usable manifest. -/
def openIndex : FsE (Option Index) := openAttempts none maxAttempts

-- ---------------------------------------------------------------------------
-- Reading
-- ---------------------------------------------------------------------------

namespace Index

/-- The segment holding a global id, with its position and the local id: the first
segment that ends after `id`, unless it starts after `id` (`partition_point`). -/
def locateFrom (id : DocId) (i : Nat) : List Segment → Option (Nat × Segment × DocId)
  | [] => none
  | s :: rest =>
    if s.entry.endDoc ≤ id.toNat then locateFrom id (i + 1) rest
    else if id < s.entry.baseDoc then none
    else some (i, s, id - s.entry.baseDoc)

def locate (I : Index) (id : DocId) : Option (Nat × Segment × DocId) :=
  locateFrom id 0 I.segments

/-- Overwrite the mutable fields of a record. -/
def applyPatch (m : DocMeta) (p : Patch) : DocMeta :=
  { m with inode := p.inode, mtime := p.mtime, size := p.size, path := p.path }

/-- Metadata for a global id; `none` for gaps and deleted docs. -/
def doc (I : Index) (id : DocId) : Option DocMeta := do
  let (_, s, i) ← I.locate id
  let m ← s.docMeta i
  match I.overlay.find id with
  | some p => some (applyPatch m p)
  | none => some m

/-- Live docs of any status. -/
def liveDocs (I : Index) : Nat :=
  (I.segments.map fun s => s.entry.numDocs.toNat - s.entry.numDeleted.toNat).sum

/-- One past the highest doc id of any segment. -/
def endBound (es : List SegmentEntry) : Nat :=
  (es.map SegmentEntry.endDoc).foldr max 0

/-- `Docs::id_bound`: clamped to the largest id. -/
def idBound (I : Index) : DocId :=
  UInt32.ofNat (min (endBound I.manifest.segments) (2 ^ 32 - 1))

/-- `N` for BM25. -/
def indexedCount (I : Index) : UInt32 :=
  UInt32.ofNat (I.segments.map fun s =>
    s.numIndexed.toNat - s.entry.numDeleted.toNat).sum

/-- Global ids of a segment, ascending. -/
def segmentIds (s : Segment) : List DocId :=
  (List.range s.entry.numDocs.toNat).map fun i => s.entry.baseDoc + UInt32.ofNat i

/-- `Docs::iter`: live docs in ascending global id, overlay patches applied. -/
def docs (I : Index) : List (DocId × DocMeta) :=
  I.segments.flatMap fun s => (segmentIds s).filterMap fun id => (I.doc id).map (id, ·)

/-- Every file the manifest references, plus the manifest itself. -/
def files (I : Index) : List FileName :=
  (I.segments.flatMap fun s => segmentFiles s.entry) ++
    (if 0 < I.manifest.stateGen then [.overlay I.manifest.stateGen] else []) ++ [.manifest]

end Index

end Ripindex
