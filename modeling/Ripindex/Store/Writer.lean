import Ripindex.Lib.Group
import Ripindex.Store.Plan

/-!
# Building segments and committing manifests

`store/writer.rs`: `buildSegments` folds shards of files into segments, `commit` puts a
manifest in place, and `buildIndex` and `deleteDocs` are two of the writers.
-/

namespace Ripindex

-- ---------------------------------------------------------------------------
-- Locking
-- ---------------------------------------------------------------------------

section Lock

variable [Platform]

/-- Poll the lock, at most `n` times. -/
def takeLockPolls : Nat → FsE Unit
  | 0 => throw .locked
  | n + 1 => do
    match ← FsE.ofM (Prog.op FsOp.lock) with
    | .ok () => pure ()
    | .error .wouldBlock => takeLockPolls n
    | .error e => throw (.io e)

/-- Acquire the writer lock, retrying briefly on contention. -/
def takeLock : FsE Unit := takeLockPolls (Platform.lockPolls + 1)

/-- Run `body` under the writer lock, which is released however `body` ends. -/
def withLock {α : Type} (body : FsE α) : FsE α := do
  takeLock
  let r ← FsE.attempt body
  FsE.ofM (Prog.op FsOp.unlock)
  FsE.ofExcept r

end Lock

-- ---------------------------------------------------------------------------
-- Commit
-- ---------------------------------------------------------------------------

/-- `create`, `write_all`, `sync_all`. -/
def writeWhole (n : FileName) (f : FileData) : FsE Unit := do
  FsE.call (Prog.op (FsOp.create n))
  FsE.call (Prog.op (FsOp.write n f))
  FsE.call (Prog.op (FsOp.sync n))

/-- The file that holds a manifest. -/
def manifestFile (m : Manifest) : FileData := .manifest Format.formatVersion m

/-- Steps 3–7 of the commit protocol. Fails only before the manifest rename; what fails
after it is only logged. -/
def commit (m : Manifest) (retire : List FileName) : FsE Unit := do
  FsE.call (Prog.op FsOp.syncDir)
  writeWhole (.tmp .manifest) (manifestFile m)
  FsE.call (Prog.op (FsOp.rename (.tmp .manifest) .manifest)) -- the commit point
  let _ ← FsE.ofM (Prog.op FsOp.syncDir)
  FsE.ofM (removeAll retire)

/-- A manifest to commit with the files to retire after it, or nothing to commit. -/
abbrev CommitPlan := Plan (Option (Manifest × List FileName))

/-- The end of every writer: create the planned files, commit, and on failure remove
what was created. -/
def writeAndCommit (plan : CommitPlan) : FsE Unit := do
  let (newFiles, written) ← FsE.ofM (runSteps [] plan.steps)
  let r ← (match written, plan.result with
    | .error e, _ | .ok (), .error e => pure (.error e)
    | .ok (), .ok none => pure (.ok ())
    | .ok (), .ok (some (m, retire)) => FsE.attempt (commit m retire))
  match r with
  | .ok () => pure ()
  | .error e => do
    FsE.ofM (removeAll newFiles)
    throw e

-- ---------------------------------------------------------------------------
-- Segments
-- ---------------------------------------------------------------------------

section Build

variable [Platform]

/-- In-progress segment: global doc ids, one merged term store. -/
structure SegmentAcc where
  base : DocId
  docs : List DocMeta
  store : TermMap

namespace SegmentAcc

def new (base : DocId) : SegmentAcc := ⟨base, [], ∅⟩

/-- Change the record of a global id. -/
def modify (base : DocId) (docs : List DocMeta) (doc : DocId) (f : DocMeta → DocMeta) :
    List DocMeta :=
  docs.modify (doc - base).toNat f

/-- The outcomes of a shard's documents, entered into their records. -/
def enter (base : DocId) (shard : Shard) (docs : List DocMeta) : List DocMeta :=
  let docs := shard.docLens.foldl (fun docs (doc, len, hash) =>
    modify base docs doc fun m =>
      { m with status := .indexed, len := len, contentHash := hash }) docs
  let docs := shard.skipped.foldl (fun docs (doc, hash) =>
    match hash with
    | some h => modify base docs doc fun m => { m with contentHash := h }
    | none => docs) docs
  shard.nonText.foldl (fun docs (doc, status) =>
    modify base docs doc fun m => { m with status := status }) docs

/-- Fold a shard in: its files' records, the outcomes of its documents, its postings. -/
def absorb (acc : SegmentAcc) (shard : Shard) (files : List CrawledFile) : SegmentAcc where
  base := acc.base
  docs := enter acc.base shard (acc.docs ++ files.map fun cf => DocMeta.fromEntry cf.entry)
  store := acc.store.mergeShard shard.terms

def overBudget (acc : SegmentAcc) (cfg : BuildConfig) : Bool :=
  max cfg.docsPerSegment 1 ≤ acc.docs.length ||
    cfg.segmentBytes ≤ Platform.memoryBytes acc.store

end SegmentAcc

/-- A term store with its lists re-based to segment-local ids. -/
def rebased (store : TermMap) (base : DocId) : Idx.SortedTerms :=
  let sorted := Idx.sortedTerms store
  { entries := sorted.entries.map fun e =>
      (e.1, e.2.map fun p => ⟨p.doc - base, p.positions⟩)
    entries_lt := List.pairwise_map.mpr sorted.entries_lt }

/-- Write `.idx` then `.doc` for one segment: temp, sync, close, rename each. -/
def flushSegment (segmentId : UInt32) (acc : SegmentAcc) : Plan SegmentEntry := do
  let idxFinal := FileName.idx segmentId
  Plan.emit [.create (.tmp idxFinal)]
  let (idx, summary) ← Plan.ofFormat (Idx.write (rebased acc.store acc.base))
  Plan.emit [.write (.tmp idxFinal) (.idx idx), .sync (.tmp idxFinal),
    .rename (.tmp idxFinal) idxFinal]
  let records ← Plan.ofFormat (Doc.encode acc.docs)
  let _ ← Plan.ofFormat (Doc.parse records)
  Plan.writeFinal (.doc segmentId) (.doc records)
  pure
    { segmentId := segmentId
      delGen := 0
      baseDoc := acc.base
      numDocs := UInt32.ofNat acc.docs.length
      numDeleted := 0
      idxCrc := (FileData.idx idx).crc
      docCrc := (FileData.doc records).crc
      delCrc := 0
      idxLen := (FileData.idx idx).len
      docLen := (FileData.doc records).len
      delLen := 0
      numTokens := summary.numTokens
      numPostings := summary.numPostings
      numTerms := summary.numTerms }

/-- What `build_segments` carries through its loops. -/
structure BuildState where
  acc : SegmentAcc
  entries : List SegmentEntry
  nextId : UInt32

/-- Flush the accumulator and start a new one behind it. -/
def BuildState.flush (st : BuildState) : Plan BuildState := do
  let entry ← flushSegment st.nextId st.acc
  pure
    { acc := SegmentAcc.new (st.acc.base + UInt32.ofNat st.acc.docs.length)
      entries := st.entries ++ [entry]
      nextId := st.nextId + 1 }

/-- The inner loop: shard `i` of a batch starts at document `first + i * shardSize`. -/
def buildShards (read : ReadFile) (cfg : BuildConfig) (first : DocId) (i : Nat)
    (st : BuildState) : List (List CrawledFile) → Plan BuildState
  | [] => pure st
  | chunk :: rest => do
    let shard := indexShard read
      (first + UInt32.ofNat (i * max cfg.shardSize 1)) chunk
    let st := { st with acc := st.acc.absorb shard chunk }
    let st ← (if st.acc.overBudget cfg then st.flush else pure st)
    buildShards read cfg first (i + 1) st rest

/-- Files of one batch: a shard for each thread. The product is of `usize`, and may wrap. -/
def batchSize (cfg : BuildConfig) : Nat :=
  max cfg.shardSize 1 * max Platform.currentNumThreads 1 % 2 ^ 64

/-- The outer loop: batch `b` starts at document `baseId + b * batch`. -/
def buildBatches (read : ReadFile) (cfg : BuildConfig) (baseId : DocId) (b : Nat)
    (st : BuildState) : List (List CrawledFile) → Plan BuildState
  | [] => pure st
  | batch :: rest => do
    let st ← buildShards read cfg (baseId + UInt32.ofNat (b * batchSize cfg)) 0 st
      (chunks (max cfg.shardSize 1) batch)
    buildBatches read cfg baseId (b + 1) st rest

/-- Map, reduce and flush: the segment entries in ascending base and the next free
segment id. -/
def buildSegments (read : ReadFile) (files : List CrawledFile) (baseId : DocId)
    (cfg : BuildConfig) (nextId : UInt32) : Plan (List SegmentEntry × UInt32) :=
  -- `chunks` panics where the size is 0.
  if batchSize cfg = 0 then Plan.fail .panicked
  else do
    let st ← buildBatches read cfg baseId 0 ⟨SegmentAcc.new baseId, [], nextId⟩
      (chunks (batchSize cfg) files)
    let st ← (if st.acc.docs.isEmpty then pure st else st.flush)
    pure (st.entries, st.nextId)

end Build

-- ---------------------------------------------------------------------------
-- Writers
-- ---------------------------------------------------------------------------

/-- What the world outside the index shows one call of a writer: whether the root is a
directory, the crawl, the file contents as they are read to reconcile and to index, and
the time of the commit. -/
structure World where
  rootIsDir : Bool
  crawl : Except Error (List CrawledFile)
  reconcileRead : ReadFile
  indexRead : ReadFile
  now : Int64

section Writers

variable [Platform]

/-- The final `open` of a writer. -/
def reopen : FsE Index := do
  match ← openIndex with
  | some I => pure I
  | none => throw (.corrupt (some .manifest)
      (.text "manifest unreadable right after commit"))

/-- Segments and manifest of a fresh build over `prev`. -/
def buildPlan (w : World) (cfg : BuildConfig) (files : List CrawledFile)
    (prev : Option Index) : CommitPlan := do
  let (generation, nextSegmentId, retired) := match prev with
    | some I => (I.manifest.generation, I.manifest.nextSegmentId,
        I.files.filter fun n => n ≠ .manifest)
    | none => (0, 0, [])
  let (entries, nextId) ← buildSegments w.indexRead files 0 cfg nextSegmentId
  pure (some (
    { generation := generation + 1
      nextSegmentId := nextId
      committedUnixNanos := w.now
      stateGen := 0
      stateCrc := 0
      stateLen := 0
      segments := entries }, retired))

/-- Build segments and commit a manifest that replaces any previous index. -/
def buildIndex (w : World) (cfg : BuildConfig) : FsE Index := do
  if !w.rootIsDir then throw .notADirectory
  FsE.call (Prog.op FsOp.createDirAll)
  withLock do
    let prev ← openIndex
    let files ← FsE.ofExcept w.crawl
    writeAndCommit (buildPlan w cfg files prev)
  reopen

/-- Local ids in segment `i` of the given global ids; ids in gaps are dropped. -/
def localsOf (I : Index) (ids : List DocId) (i : Nat) : List DocId :=
  ids.filterMap fun id =>
    match I.locate id with
    | some (j, _, l) => if j = i then some l else none
    | none => none

/-- Set bits one after the other, and whether any was newly set. -/
def setAll : Bitmap → List DocId → Bitmap × Bool
  | b, [] => (b, false)
  | b, l :: ls =>
    let (b', changed) := setAll (b.set l) ls
    (b', b.newlySet l || changed)

/-- The deletions of a segment, empty where it has none. -/
def Segment.bitmap (s : Segment) : Bitmap :=
  s.del.getD (Bitmap.new s.entry.numDocs)

/-- An entry after its segment got the deletions `b`. -/
def SegmentEntry.withDel (e : SegmentEntry) (b : Bitmap) : SegmentEntry :=
  { e with
    delGen := e.delGen + 1
    delLen := (FileData.del b).len
    delCrc := (FileData.del b).crc
    numDeleted := b.count }

/-- Tombstone local ids of one segment: its entry, the files retired, and whether
anything changed. -/
def tombstone (s : Segment) (locals : List DocId) :
    Plan (SegmentEntry × List FileName × Bool) :=
  let (b, changed) := setAll s.bitmap locals
  if !changed then pure (s.entry, [], false)
  else do
    Plan.writeFinal (.del s.entry.segmentId (s.entry.delGen + 1)) (.del b)
    let retired :=
      if 0 < s.entry.delGen then [.del s.entry.segmentId s.entry.delGen] else []
    pure (s.entry.withDel b, retired, true)

/-- Tombstones for the segments from position `i` on, in ascending position. -/
def tombstoneAll (locals : Nat → List DocId) (i : Nat) :
    List Segment → Plan (List SegmentEntry × List FileName × Bool)
  | [] => pure ([], [], false)
  | s :: rest => do
    let (e, retired, changed) ← tombstone s (locals i)
    let (es, retired', changed') ← tombstoneAll locals (i + 1) rest
    pure (e :: es, retired ++ retired', changed || changed')

/-- Tombstones and manifest of a deletion; nothing when no id was live. -/
def deletePlan (now : Int64) (I : Index) (ids : List DocId) : CommitPlan := do
  let (entries, retired, anyChange) ← tombstoneAll (localsOf I ids) 0 I.segments
  if !anyChange then pure none
  else
    pure (some (
      { I.manifest with
        segments := entries
        generation := I.manifest.generation + 1
        committedUnixNanos := now }, retired))

/-- Mark global ids of the handle `I` deleted. -/
def deleteDocs (now : Int64) (I : Index) (ids : List DocId) : FsE Index := do
  withLock (writeAndCommit (deletePlan now I ids))
  reopen

end Writers

end Ripindex
