import Ripindex.Format.Checked
import Ripindex.Format.Manifest

/-!
# The other readers

`DocTableView`, `OverlayView`, `DelView` and `Manifest::decode` over the bytes of a whole file,
with every index, slice and sum they take.
-/

namespace Ripindex

open Format

/-- `envelope::parse_verified`. -/
def Checked.parseVerified [Platform] (kind : Kind) (bytes : List UInt8) : Chk Envelope := do
  let env ← Checked.parse kind bytes
  let body ← Chk.range bytes headerLen env.bodyEnd
  if Platform.crc32 body ≠ env.crc then .error (.err .checksum)
  else .ok env

/-- The text at a place of a path heap, if it is there and is UTF-8. -/
def heapText (paths : List UInt8) (off len : UInt32) : Option String :=
  if off.toNat + len.toNat ≤ paths.length then
    String.fromUTF8? ((paths.drop off.toNat).take len.toNat).toByteArray
  else none

-- ---------------------------------------------------------------------------
-- Documents
-- ---------------------------------------------------------------------------

structure DocRecord where
  inode : Nat
  mtimeNanos : Nat
  size : Nat
  len : UInt32
  pathOff : UInt32
  pathLen : UInt32
  status : UInt8
  contentHash : Nat

structure DocTableView where
  bytes : List UInt8
  env : Envelope
  numDocs : UInt32
  numIndexed : UInt32
  totalLen : Nat
  paths : List UInt8

namespace DocTableView

def bodyHeaderLen : Nat := 32

def recordLen : Nat := 48

/-- `record_at`. -/
def recordAt (i : Nat) : Chk Nat := do
  let size ← Chk.mul i recordLen
  Chk.add (headerLen + bodyHeaderLen) size

/-- Envelope and structural checks only. -/
def parse (bytes : List UInt8) : Chk DocTableView := do
  let env ← Checked.parse .doc bytes
  let body ← Chk.range bytes headerLen env.bodyEnd
  if body.length < bodyHeaderLen then .error (.err .truncated)
  else do
    let numDocs ← Chk.ofFormat (readU32Le body 0)
    let numIndexed ← Chk.ofFormat (readU32Le body 4)
    let totalLen ← Chk.ofFormat (readU64Le body 8)
    let pathsOff ← Chk.ofFormat (readU64Le body 16)
    let pathsLen ← Chk.ofFormat (readU64Le body 24)
    let recordsEnd ← recordAt numDocs.toNat
    if pathsOff ≠ recordsEnd then Chk.corrupt "doc table regions do not tile the body"
    else do
      -- Evaluated only when the first half of the test passes.
      let pathsEnd ← Chk.add pathsOff pathsLen
      if pathsEnd ≠ env.bodyEnd then Chk.corrupt "doc table regions do not tile the body"
      else if numDocs < numIndexed then Chk.corrupt "num_indexed exceeds num_docs"
      else do
        let paths ← Chk.ofFormat (slice bytes pathsOff pathsLen)
        .ok ⟨bytes, env, numDocs, numIndexed, totalLen, paths⟩

variable (v : DocTableView)

def record (i : UInt32) : Chk (Option DocRecord) :=
  if v.numDocs ≤ i then .ok none
  else do
    let at' ← recordAt i.toNat
    Chk.orNone (Chk.u64At v.bytes at' 0) fun inode =>
    Chk.orNone (Chk.u64At v.bytes at' 8) fun mtimeNanos =>
    Chk.orNone (Chk.u64At v.bytes at' 16) fun size =>
    Chk.orNone (Chk.u32At v.bytes at' 24) fun len =>
    Chk.orNone (Chk.u32At v.bytes at' 28) fun pathOff =>
    Chk.orNone (Chk.u32At v.bytes at' 32) fun pathLen => do
      -- The one field that is indexed and not read through `slice`.
      let statusAt ← Chk.add at' 36
      let status ← Chk.index v.bytes statusAt
      Chk.orNone (Chk.u64At v.bytes at' 40) fun contentHash =>
        .ok (some ⟨inode, mtimeNanos, size, len, pathOff, pathLen, status, contentHash⟩)

def path (i : UInt32) : Chk (Option String) := do
  match ← v.record i with
  | none => .ok none
  | some r => .ok (heapText v.paths r.pathOff r.pathLen)

def docLenIfIndexed (i : UInt32) : Chk (Option UInt32) :=
  if v.numDocs ≤ i then .ok none
  else do
    let at' ← recordAt i.toNat
    let statusAt ← Chk.add at' 36
    let status ← Chk.index v.bytes statusAt
    if status ≠ 1 then .ok none
    else Chk.orNone (Chk.u32At v.bytes at' 24) fun len => .ok (some len)

/-- The loop of `verify` over the documents from `i` on, with the indexed ones and their total
length so far. -/
def verifyFrom : Nat → Nat → Nat → Nat → Chk (Nat × Nat)
  | 0, _, indexed, total => .ok (indexed, total)
  | fuel + 1, i, indexed, total => do
    match ← v.record (UInt32.ofNat i) with
    | none => Chk.corrupt "record out of range"
    | some r =>
      let status := r.status.toNat
      let len := r.len.toNat
      if 3 < status then Chk.corrupt s!"doc {i}: bad status {status}"
      else if status ≠ 1 ∧ len ≠ 0 then Chk.corrupt s!"doc {i}: non-indexed but len {len}"
      else do
        let at' ← recordAt i
        let start ← Chk.add at' 37
        let stop ← Chk.add at' 40
        let reserved ← Chk.range v.bytes start stop
        if reserved ≠ [0, 0, 0] then Chk.corrupt s!"doc {i}: reserved bytes set"
        else do
          match ← v.path (UInt32.ofNat i) with
          | none => Chk.corrupt s!"doc {i}: bad path"
          | some _ =>
            if status = 1 then do
              let indexed ← Chk.add32 indexed 1
              let total ← Chk.add total len
              verifyFrom fuel (i + 1) indexed total
            else verifyFrom fuel (i + 1) indexed total

def verify [Platform] : Chk Unit := do
  let body ← Chk.range v.bytes headerLen v.env.bodyEnd
  if Platform.crc32 body ≠ v.env.crc then .error (.err .checksum)
  else do
    let (indexed, total) ← v.verifyFrom v.numDocs.toNat 0 0 0
    if indexed ≠ v.numIndexed.toNat ∨ total ≠ v.totalLen then
      Chk.corrupt "doc table counters disagree with records"
    else .ok ()

end DocTableView

-- ---------------------------------------------------------------------------
-- Overlays
-- ---------------------------------------------------------------------------

/-- `Patch` of `format/overlay.rs`: a record, whose path is in the heap. -/
structure PatchRecord where
  docId : UInt32
  inode : Nat
  mtimeNanos : Nat
  size : Nat
  pathOff : UInt32
  pathLen : UInt32

structure OverlayView where
  bytes : List UInt8
  env : Envelope
  numPatches : UInt32
  paths : List UInt8

namespace OverlayView

def bodyHeaderLen : Nat := 24

def patchLen : Nat := 36

def recordAt (i : Nat) : Chk Nat := do
  let size ← Chk.mul i patchLen
  Chk.add (headerLen + bodyHeaderLen) size

variable (v : OverlayView)

def patch (i : UInt32) : Chk (Option PatchRecord) :=
  if v.numPatches ≤ i then .ok none
  else do
    let at' ← recordAt i.toNat
    Chk.orNone (Chk.u32At v.bytes at' 0) fun docId =>
    Chk.orNone (Chk.u64At v.bytes at' 4) fun inode =>
    Chk.orNone (Chk.u64At v.bytes at' 12) fun mtimeNanos =>
    Chk.orNone (Chk.u64At v.bytes at' 20) fun size =>
    Chk.orNone (Chk.u32At v.bytes at' 28) fun pathOff =>
    Chk.orNone (Chk.u32At v.bytes at' 32) fun pathLen =>
      .ok (some ⟨docId, inode, mtimeNanos, size, pathOff, pathLen⟩)

def pathOf (p : PatchRecord) : Option String := heapText v.paths p.pathOff p.pathLen

/-- The loop of `parse_verified` over the patches from `i` on, after document `prev`. -/
def checkFrom : Nat → Nat → Option UInt32 → Chk Unit
  | 0, _, _ => .ok ()
  | fuel + 1, i, prev => do
    match ← v.patch (UInt32.ofNat i) with
    | none => Chk.corrupt "overlay patch out of range"
    | some p =>
      if prev.any fun d => p.docId ≤ d then Chk.corrupt "overlay patches not sorted/unique"
      else if (v.pathOf p).isNone then Chk.corrupt "overlay patch has a bad path"
      else checkFrom fuel (i + 1) (some p.docId)

def parseVerified [Platform] (bytes : List UInt8) : Chk OverlayView := do
  let env ← Checked.parseVerified .overlay bytes
  let body ← Chk.range bytes headerLen env.bodyEnd
  if body.length < bodyHeaderLen then .error (.err .truncated)
  else do
    let numPatches ← Chk.ofFormat (readU32Le body 0)
    let pathsOff ← Chk.ofFormat (readU64Le body 8)
    let pathsLen ← Chk.ofFormat (readU64Le body 16)
    let recordsEnd ← recordAt numPatches.toNat
    if pathsOff ≠ recordsEnd then Chk.corrupt "overlay regions do not tile the body"
    else do
      let pathsEnd ← Chk.add pathsOff pathsLen
      if pathsEnd ≠ env.bodyEnd then Chk.corrupt "overlay regions do not tile the body"
      else do
        let paths ← Chk.ofFormat (slice bytes pathsOff pathsLen)
        -- The patches are checked through the view they make.
        let v : OverlayView := ⟨bytes, env, numPatches, paths⟩
        v.checkFrom numPatches.toNat 0 none
        .ok v

/-- The loop of `find`. -/
def findIn (docId : UInt32) : Nat → Nat → Nat → Chk (Option (PatchRecord × String))
  | 0, _, _ => .ok none
  | fuel + 1, lo, hi =>
    if lo < hi then do
      let width ← Chk.sub hi lo
      let mid ← Chk.add32 lo (width / 2)
      match ← v.patch (UInt32.ofNat mid) with
      | none => .ok none
      | some p =>
        if p.docId < docId then do
          let lo ← Chk.add32 mid 1
          findIn docId fuel lo hi
        else if docId < p.docId then findIn docId fuel lo mid
        else .ok ((v.pathOf p).map fun path => (p, path))
    else .ok none

/-- Binary search by document. -/
def find (docId : UInt32) : Chk (Option (PatchRecord × String)) :=
  v.findIn docId v.numPatches.toNat 0 v.numPatches.toNat

/-- What `iter` yields from patch `i` on. -/
def iterFrom : Nat → Nat → Chk (List (PatchRecord × String))
  | 0, _ => .ok []
  | fuel + 1, i => do
    let p ← v.patch (UInt32.ofNat i)
    let rest ← iterFrom fuel (i + 1)
    .ok (((p.bind fun p => (v.pathOf p).map fun path => (p, path)).toList) ++ rest)

def iter : Chk (List (PatchRecord × String)) := v.iterFrom v.numPatches.toNat 0

end OverlayView

-- ---------------------------------------------------------------------------
-- Deletions
-- ---------------------------------------------------------------------------

structure DelView where
  numDocs : UInt32
  numDeleted : UInt32
  bits : List UInt8
  crc : UInt32

namespace DelView

def bodyHeaderLen : Nat := 8

/-- The number of bits that are set. -/
def countOnes (b : UInt8) : Nat := (List.range 8).countP b.toNat.testBit

/-- The sum of the bits of all bytes, as a `u32`. -/
def popcount : Nat → List UInt8 → Chk Nat
  | n, [] => .ok n
  | n, b :: bits => do
    let n ← Chk.add32 n (countOnes b)
    popcount n bits

def parseVerified [Platform] (bytes : List UInt8) : Chk DelView := do
  let env ← Checked.parseVerified .del bytes
  let body ← Chk.range bytes headerLen env.bodyEnd
  if body.length < bodyHeaderLen then .error (.err .truncated)
  else do
    let numDocs ← Chk.ofFormat (readU32Le body 0)
    let numDeleted ← Chk.ofFormat (readU32Le body 4)
    let bits ← Chk.range body bodyHeaderLen body.length
    if bits.length ≠ (numDocs.toNat + 7) / 8 then
      Chk.corrupt "deletion bitmap length does not match num_docs"
    else do
      let count ← popcount 0 bits
      if count ≠ numDeleted.toNat then
        Chk.corrupt "num_deleted does not match bitmap popcount"
      -- Bits past `num_docs` in the last byte must be clear.
      else if numDocs.toNat % 8 ≠ 0 ∧
          bits.getLast?.any fun b => b.toNat / 2 ^ (numDocs.toNat % 8) ≠ 0 then
        Chk.corrupt "deletion bitmap has bits past num_docs"
      else .ok ⟨numDocs, numDeleted, bits, env.crc⟩

end DelView

-- ---------------------------------------------------------------------------
-- The manifest
-- ---------------------------------------------------------------------------

namespace ManifestBytes

def bodyHeaderLen : Nat := 48

def entryLen : Nat := 80

/-- `SegmentEntry::decode`. -/
def decodeEntry (b : List UInt8) (at' : Nat) : Chk SegmentEntry := do
  let segmentId ← Chk.u32At b at' 0
  let delGen ← Chk.u32At b at' 4
  let baseDoc ← Chk.u32At b at' 8
  let numDocs ← Chk.u32At b at' 12
  let numDeleted ← Chk.u32At b at' 16
  let idxCrc ← Chk.u32At b at' 20
  let docCrc ← Chk.u32At b at' 24
  let delCrc ← Chk.u32At b at' 28
  let idxLen ← Chk.u64At b at' 32
  let docLen ← Chk.u64At b at' 40
  let delLen ← Chk.u64At b at' 48
  let numTokens ← Chk.u64At b at' 56
  let numPostings ← Chk.u64At b at' 64
  let numTerms ← Chk.u64At b at' 72
  .ok ⟨segmentId, delGen, baseDoc, numDocs, numDeleted, idxCrc, docCrc, delCrc, idxLen, docLen,
    delLen, numTokens, numPostings, numTerms⟩

/-- `end_doc` with its addition. -/
def endDoc (e : SegmentEntry) : Chk Nat := Chk.add e.baseDoc.toNat e.numDocs.toNat

/-- The checks of an entry against the one before it. -/
def checkBehind (prev : Option SegmentEntry) (e : SegmentEntry) : Chk Unit :=
  match prev with
  | none => .ok ()
  | some p => do
    let prevEnd ← endDoc p
    if e.baseDoc.toNat < prevEnd then
      Chk.corrupt "segment doc ranges overlap or are unordered"
    else if e.segmentId = p.segmentId then Chk.corrupt "duplicate segment id"
    else .ok ()

def checkEntry (nextSegmentId : UInt32) (prev : Option SegmentEntry) (e : SegmentEntry) :
    Chk Unit :=
  if nextSegmentId ≤ e.segmentId then Chk.corrupt "segment id not below next_segment_id"
  else do
    checkBehind prev e
    let stop ← endDoc e
    if 2 ^ 32 < stop then Chk.corrupt "segment exceeds the u32 doc id space"
    else if (e.delGen = 0) ≠ (e.delLen = 0) then Chk.corrupt "del_gen and del_len disagree"
    else if e.numDocs < e.numDeleted then Chk.corrupt "num_deleted exceeds num_docs"
    else .ok ()

/-- The loop of `decode` over the entries from `i` on. -/
def decodeEntries (b : List UInt8) (nextSegmentId : UInt32) :
    Nat → Nat → Option SegmentEntry → Chk (List SegmentEntry)
  | 0, _, _ => .ok []
  | fuel + 1, i, prev => do
    let size ← Chk.mul i entryLen
    let at' ← Chk.add bodyHeaderLen size
    let e ← decodeEntry b at'
    checkEntry nextSegmentId prev e
    let es ← decodeEntries b nextSegmentId fuel (i + 1) (some e)
    .ok (e :: es)

/-- `Manifest::decode`. -/
def decode [Platform] (bytes : List UInt8) : Chk Manifest := do
  let env ← Checked.parseVerified .manifest bytes
  let b ← Chk.range bytes headerLen env.bodyEnd
  if b.length < bodyHeaderLen then .error (.err .truncated)
  else do
    let generation ← Chk.ofFormat (readU64Le b 0)
    let nextSegmentId ← Chk.ofFormat (readU32Le b 8)
    let numSegments ← Chk.ofFormat (readU32Le b 12)
    let committedUnixNanos ← Chk.ofFormat (readU64Le b 16)
    let stateGen ← Chk.ofFormat (readU32Le b 24)
    let stateCrc ← Chk.ofFormat (readU32Le b 28)
    let stateLen ← Chk.ofFormat (readU64Le b 32)
    let reserved ← Chk.ofFormat (readU64Le b 40)
    if reserved ≠ 0 then Chk.corrupt "manifest reserved field is non-zero"
    else if (stateGen = 0) ≠ (stateLen = 0) then
      Chk.corrupt "state_gen and state_len disagree"
    else do
      let size ← Chk.mul entryLen numSegments.toNat
      let expected ← Chk.add bodyHeaderLen size
      if b.length ≠ expected then
        let len := b.length
        let count := numSegments.toNat
        Chk.corrupt s!"manifest body is {len} bytes, expected {expected} for {count} segments"
      else do
        let segments ← decodeEntries b nextSegmentId numSegments.toNat 0 none
        .ok ⟨UInt64.ofNat generation, nextSegmentId,
          (UInt64.ofNat committedUnixNanos).toInt64, stateGen, stateCrc, stateLen, segments⟩

end ManifestBytes

end Ripindex
