import Ripindex.Store.Writer

/-!
# Merges

`store/merge.rs`: `prepareMerge` writes the surviving documents and postings of a group of
segments to staged files, without the lock; `commitMerges` takes the lock, moves prepared
segments into place and carries forward the deletions that arrived in between.
-/

namespace Ripindex

/-- Source segment id and local id of a document. -/
abbrev SourceDoc := UInt32 × DocId

/-- The result of the unlocked phase, ready to commit. -/
structure PreparedMerge where
  sourceIds : List UInt32
  /-- Each source's `delGen` at snapshot time. -/
  snapshotDelGen : List (UInt32 × UInt32)
  /-- `(source segment, source local id) → local id in the merged segment`. -/
  oldToNew : AList fun _ : SourceDoc => DocId
  numDocs : UInt32
  /-- Names the staged files. -/
  tag : StagingTag
  idxCrc : UInt32
  idxLen : Nat
  counts : Idx.Counts
  docCrc : UInt32
  docLen : Nat

namespace Index

/-- The segment with an id. -/
def findSegment (I : Index) (id : UInt32) : Option Segment :=
  I.segments.find? fun s => s.entry.segmentId == id

end Index

/-- Surviving docs of one segment, in local order. -/
def survivorsOf (I : Index) (s : Segment) : List (SourceDoc × DocMeta) :=
  (List.range s.entry.numDocs.toNat).filterMap fun i =>
    let l := UInt32.ofNat i
    if s.isDeleted l then none
    else (I.doc (s.entry.baseDoc + l)).map fun m => ((s.entry.segmentId, l), m)

/-- Surviving docs in (segment, local) order; the order becomes the new local id. -/
def survivors (I : Index) (segs : List Segment) : List (SourceDoc × DocMeta) :=
  segs.flatMap (survivorsOf I)

/-- The renumbering of the surviving docs. -/
def renumber (docs : List SourceDoc) : AList fun _ : SourceDoc => DocId :=
  docs.zipIdx.foldl (fun acc d => acc.insert d.1 (UInt32.ofNat d.2)) ∅

/-- Append the positions of one posting under its document's new id. -/
def remapPosting (oldToNew : AList fun _ : SourceDoc => DocId) (segmentId : UInt32)
    (term : String) (terms : TermMap) (p : Posting) : TermMap :=
  match oldToNew.lookup (segmentId, p.doc) with
  | some new => p.positions.foldl (fun terms pos => terms.push term new pos) terms
  | none => terms

/-- Append the postings of one segment. -/
def remapSegment (oldToNew : AList fun _ : SourceDoc => DocId) (terms : TermMap)
    (s : Segment) : TermMap :=
  s.idx.terms.foldl (fun terms t =>
    t.2.postings.foldl (remapPosting oldToNew s.entry.segmentId t.1) terms) terms

/-- The postings of a merged segment. -/
def remapTerms (oldToNew : AList fun _ : SourceDoc => DocId) (segs : List Segment) :
    TermMap :=
  segs.foldl (remapSegment oldToNew) ∅

variable [Platform]

/-- The staged files of a merge. -/
def preparePlan (tag : StagingTag) (I : Index) (sourceIds : List UInt32) (segs : List Segment) :
    Plan PreparedMerge := do
  let docs := survivors I segs
  let oldToNew := renumber (docs.map Prod.fst)
  let terms := remapTerms oldToNew segs
  let idxTmp := FileName.staged tag .idx
  Plan.emit [.create idxTmp]
  let (idx, counts) ← Plan.ofFormat (Idx.write (Idx.sortedTerms terms))
  Plan.emit [.write idxTmp (.idx idx), .sync idxTmp]
  let records ← Plan.ofFormat (Doc.encode (docs.map Prod.snd))
  let _ ← Plan.ofFormat (Doc.parse records)
  Plan.writeWhole (.staged tag .doc) (.doc records)
  pure
    { sourceIds := sourceIds
      snapshotDelGen := segs.map fun s => (s.entry.segmentId, s.entry.delGen)
      oldToNew := oldToNew
      numDocs := UInt32.ofNat docs.length
      tag := tag
      idxCrc := (FileData.idx idx).crc
      idxLen := (FileData.idx idx).len
      counts := counts
      docCrc := (FileData.doc records).crc
      docLen := (FileData.doc records).len }

/-- Read-only phase against the snapshot `I`; panics on a segment `I` does not have. -/
def prepareMerge (I : Index) (sourceIds : List UInt32) : FsE PreparedMerge := do
  match sourceIds.mapM I.findSegment with
  | none => throw .panicked
  | some segs => do
    FsE.call (Prog.op FsOp.createDirAll)
    let tag ← FsE.ofM (Prog.op FsOp.stagingTag)
    let plan := preparePlan tag I sourceIds segs
    let (_, written) ← FsE.ofM (runSteps [] plan.steps)
    FsE.ofExcept written
    FsE.ofExcept plan.result

/-- Remove the staged files of a merge that is not committed. -/
def PreparedMerge.discard (p : PreparedMerge) : FsM Unit :=
  removeAll [.staged p.tag .idx, .staged p.tag .doc]

def discardAll : List PreparedMerge → FsM Unit
  | [] => pure ()
  | p :: ps => do
    p.discard
    discardAll ps

/-- Deletions of one source that arrived after the snapshot, under the new ids. -/
def carrySource (cur : Index) (p : PreparedMerge) (carry : Bitmap) (src : UInt32) : Bitmap :=
  match cur.findSegment src with
  | none => carry
  | some s =>
    if p.snapshotDelGen.lookup src = some s.entry.delGen then carry
    else
      match s.del with
      | none => carry
      | some b =>
        p.oldToNew.entries.foldl (fun carry e =>
          if e.1.1 = src ∧ b.get e.1.2 then carry.set e.2 else carry) carry

/-- Deletions carried forward into a merged segment. -/
def carryBitmap (cur : Index) (p : PreparedMerge) : Bitmap :=
  p.sourceIds.foldl (carrySource cur p) (Bitmap.new p.numDocs)

/-- The entry of a merged segment before its deletions. -/
def PreparedMerge.entry (p : PreparedMerge) (segmentId baseDoc : UInt32) : SegmentEntry where
  segmentId := segmentId
  delGen := 0
  baseDoc := baseDoc
  numDocs := p.numDocs
  numDeleted := 0
  idxCrc := p.idxCrc
  docCrc := p.docCrc
  delCrc := 0
  idxLen := p.idxLen
  docLen := p.docLen
  delLen := 0
  numTokens := p.counts.numTokens
  numPostings := p.counts.numPostings
  numTerms := p.counts.numTerms

/-- Move one prepared merge into place as segment `segmentId` with its carried
deletions. -/
def finishOne (cur : Index) (p : PreparedMerge) (segmentId baseDoc : UInt32) :
    Plan SegmentEntry := do
  Plan.emit [.rename (.staged p.tag .idx) (.idx segmentId),
    .rename (.staged p.tag .doc) (.doc segmentId)]
  let carry := carryBitmap cur p
  let entry := p.entry segmentId baseDoc
  if 0 < carry.count then do
    Plan.writeFinal (.del segmentId 1) (.del carry)
    pure (entry.withDel carry)
  else
    pure entry

/-- A source segment that is no longer listed. -/
def missingSource (m : Manifest) (ids : List UInt32) : Option UInt32 :=
  ids.find? fun id => !m.segments.any fun e => e.segmentId == id

/-- The loop of `commit_merges`: each merged segment starts where the one before it ends. -/
def finishAll (cur : Index) (segmentId baseDoc : UInt32) :
    List PreparedMerge → Plan (List SegmentEntry × UInt32)
  | [] => pure ([], segmentId)
  | p :: ps =>
    match missingSource cur.manifest p.sourceIds with
    | some id => Plan.fail
        (.corrupt none (.text s!"segment {id} no longer exists; merge aborted"))
    | none => do
      let e ← finishOne cur p segmentId baseDoc
      let (es, nextId) ← finishAll cur (segmentId + 1) (baseDoc + e.numDocs) ps
      pure (e :: es, nextId)

/-- The files of the source segments as the current manifest names them. -/
def retiredSources (m : Manifest) (ids : List UInt32) : List FileName :=
  ids.flatMap fun id =>
    match m.segments.find? fun e => e.segmentId == id with
    | some e => segmentFiles e
    | none => []

/-- `sort_unstable_by_key(base_doc)`. Unless an id wrapped, the list is in order already,
and sorting leaves it as it is. -/
def sortByBase (es : List SegmentEntry) : List SegmentEntry :=
  Platform.sortUnstableByKey SegmentEntry.baseDoc es

/-- Merged segments and manifest of a merge over the current index. -/
def mergePlan (now : Int64) (cur : Index) (prepared : List PreparedMerge) : CommitPlan := do
  let nextBase := UInt32.ofNat (Index.endBound cur.manifest.segments)
  let (newEntries, nextId) ←
    finishAll cur cur.manifest.nextSegmentId nextBase prepared
  let mergedIds := prepared.flatMap PreparedMerge.sourceIds
  let kept := cur.manifest.segments.filter fun e => e.segmentId ∉ mergedIds
  pure (some (
    { cur.manifest with
      generation := cur.manifest.generation + 1
      nextSegmentId := nextId
      committedUnixNanos := now
      segments := sortByBase (kept ++ newEntries) },
    retiredSources cur.manifest mergedIds))

/-- Commit phase: the prepared merges go into the current manifest in one generation. -/
def commitMerges (now : Int64) (prepared : List PreparedMerge) : FsE Index := do
  if prepared.isEmpty then
    match ← openIndex with
    | some I => pure I
    | none => throw .noIndex
  else
    withLock do
      match ← FsE.attempt openIndex with
      | .ok (some cur) => writeAndCommit (mergePlan now cur prepared)
      | .ok none => do
        FsE.ofM (discardAll prepared)
        throw .noIndex
      | .error e => do
        FsE.ofM (discardAll prepared)
        throw e
    reopen

end Ripindex
