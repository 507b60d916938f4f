import Ripindex.Fs

/-!
# Segments

`store/segment.rs`: opening one committed segment and reading its documents. An open
`Segment` carries what the checks of `Segment::open` established about its files.
-/

namespace Ripindex

/-- A failure to open a file: `NotFound` may be a race with a commit that retired it. -/
def openErr (n : FileName) : IoError → Error
  | .notFound => .vanished n
  | e => .corrupt (some n) (.io e)

/-- Read a file named by a manifest and check its length, structure and checksum against
what the manifest says. -/
def openChecked [Platform] {α : Type} (op : FileName → ReadOp) (n : FileName) (len : Nat)
    (crc : UInt32) (parse : FileData → Except FormatError α) : ReadE α :=
  ExceptT.mk do
    match ← Prog.op (op n) with
    | .error e => pure (.error (openErr n e))
    | .ok f =>
      if f.len ≠ len then pure (.error (.corrupt (some n) (.length f.len len)))
      else
        match parse f with
        | .error e => pure (.error (.corrupt (some n) (.format e)))
        | .ok x =>
          if f.crc ≠ crc then
            pure (.error (.corrupt (some n) (.text "footer checksum differs from manifest")))
          else pure (.ok x)

namespace FileData

def parseIdx : FileData → Except FormatError IdxFile
  | idx f => .ok f
  | torn => .error .truncated
  | _ => .error .badMagic

def parseDoc : FileData → Except FormatError Doc.View
  | doc records => Doc.parse records
  | torn => .error .truncated
  | _ => .error .badMagic

def parseDel : FileData → Except FormatError Bitmap
  | del b => .ok b
  | torn => .error .truncated
  | _ => .error .badMagic

def parseOverlay : FileData → Except FormatError Overlay
  | overlay o => .ok o
  | torn => .error .truncated
  | _ => .error .badMagic

def parseManifest : FileData → Except FormatError Manifest
  | manifest version m => m.decode version
  | torn => .error .truncated
  | _ => .error .badMagic

end FileData

/-- One open segment. -/
structure Segment where
  entry : SegmentEntry
  idx : IdxFile
  docs : List DocMeta
  del : Option Bitmap
  length_docs : docs.length = entry.numDocs.toNat
  numDocs_del : ∀ b ∈ del, b.numDocs = entry.numDocs
  count_del : ∀ b ∈ del, b.count = entry.numDeleted

namespace Segment

@[ext] theorem ext {s t : Segment} (hEntry : s.entry = t.entry) (hIdx : s.idx = t.idx)
    (hDocs : s.docs = t.docs) (hDel : s.del = t.del) : s = t := by
  cases s
  cases t
  simp_all

section Open

variable [Platform]

/-- The `.idx` file of an entry. -/
def openIdx (e : SegmentEntry) : ReadE IdxFile := do
  let n := FileName.idx e.segmentId
  let f ← openChecked .mmap n e.idxLen e.idxCrc FileData.parseIdx
  if f.terms.length ≠ e.numTerms then
    throw (.corrupt (some n) (.text "term count differs from manifest"))
  pure f

/-- The `.doc` file of an entry. -/
def openDocs (e : SegmentEntry) :
    ReadE { docs : List DocMeta // docs.length = e.numDocs.toNat } := do
  let n := FileName.doc e.segmentId
  let view ← openChecked .mmap n e.docLen e.docCrc FileData.parseDoc
  if h : view.numDocs = e.numDocs then
    pure ⟨view.records, by rw [← h, view.toNat_numDocs]⟩
  else
    throw (.corrupt (some n) (.text "doc count differs from manifest"))

/-- The `.del` file of an entry that has one. -/
def openDel (e : SegmentEntry) :
    ReadE { del : Option Bitmap //
      ∀ b ∈ del, b.numDocs = e.numDocs ∧ b.count = e.numDeleted } := do
  if 0 < e.delGen then
    let n := FileName.del e.segmentId e.delGen
    let b ← openChecked .read n e.delLen e.delCrc FileData.parseDel
    if hDocs : b.numDocs = e.numDocs then
      if hCount : b.count = e.numDeleted then
        pure ⟨some b, by rintro _ ⟨⟩; exact ⟨hDocs, hCount⟩⟩
      else
        throw (.corrupt (some n) (.text "deleted count differs from manifest"))
    else
      throw (.corrupt (some n) (.text "bitmap size differs from segment"))
  else
    pure ⟨none, by simp⟩

/-- Map and validate one committed segment (`Segment::open`). -/
def openEntry (e : SegmentEntry) : ReadE { s : Segment // s.entry = e } := do
  let idx ← openIdx e
  let docs ← openDocs e
  let del ← openDel e
  pure ⟨⟨e, idx, docs.1, del.1, docs.2, fun b hb => (del.2 b hb).1,
    fun b hb => (del.2 b hb).2⟩, rfl⟩

end Open

def isDeleted (s : Segment) (i : DocId) : Bool :=
  s.del.any fun b => b.get i

/-- Indexed docs in this segment, before deletions. -/
def numIndexed (s : Segment) : UInt32 :=
  Doc.numIndexed s.docs

/-- Metadata of a local doc; `none` for out-of-range or deleted docs. -/
def docMeta (s : Segment) (i : DocId) : Option DocMeta :=
  if s.isDeleted i then none else s.docs[i.toNat]?

end Segment

end Ripindex
