import Ripindex.Format.Del
import Ripindex.Format.Doc
import Ripindex.Format.Idx
import Ripindex.Format.Manifest
import Ripindex.Format.Overlay

/-!
# File names and file contents

`store/mod.rs`: the names of the files in the index directory, which of them a
manifest references and which of them `open` may remove.

What a file holds is given by `FileData`, the decoded contents; `FileData.bytes` is the
encoding, and a file's length and checksum are those of its bytes.
-/

namespace Ripindex

/-- The two files of a segment a merge prepares. -/
inductive SegmentPart
  | idx | doc
  deriving DecidableEq, Repr

/-- What names the staged files of a merge: the process that prepares it and the time. -/
structure StagingTag where
  pid : Nat
  stamp : Nat
  deriving DecidableEq, Repr

/-- Files of the index directory, and of its staging directory (`staged`). -/
inductive FileName
  | manifest
  | idx (segmentId : UInt32)
  | doc (segmentId : UInt32)
  | del (segmentId delGen : UInt32)
  | overlay (stateGen : UInt32)
  | tmp (final : FileName)
  | staged (tag : StagingTag) (part : SegmentPart)
  deriving DecidableEq, Repr

namespace FileName

/-- The file's name on disk. -/
def render : FileName → String
  | manifest => "MANIFEST"
  | idx id => "seg-" ++ pad5 id ++ ".idx"
  | doc id => "seg-" ++ pad5 id ++ ".doc"
  | del id gen => "seg-" ++ pad5 id ++ "." ++ pad5 gen ++ ".del"
  | overlay gen => "state-" ++ pad5 gen ++ ".ovl"
  | tmp final => final.render ++ ".tmp"
  | staged tag .idx => "staging/merge-" ++ hex (tag.pid ^^^ tag.stamp) ++ ".idx.tmp"
  | staged tag .doc => "staging/merge-" ++ hex (tag.pid ^^^ tag.stamp) ++ ".doc.tmp"
where
  /-- `{:05}` -/
  pad5 (n : UInt32) : String :=
    let digits := Nat.toDigits 10 n.toNat
    String.ofList (List.replicate (5 - digits.length) '0' ++ digits)
  /-- `{:x}` -/
  hex (n : Nat) : String := String.ofList (Nat.toDigits 16 n)

example : (tmp (del 3 2)).render = "seg-00003.00002.del.tmp" := by decide

/-- Whether a name lies in the staging directory, which `list_dir` does not descend into. -/
def isStaged : FileName → Bool
  | staged _ _ => true
  | _ => false

/-- Files that `open` may delete when the manifest does not name them. -/
def isCleanable : FileName → Bool
  | manifest | staged _ _ => false
  | idx _ | doc _ | del _ _ | overlay _ | tmp _ => true

end FileName

/-- Decoded contents of one file. `torn` is a file whose bytes fail their checks: just
created, or partly written. -/
inductive FileData
  | torn
  | manifest (version : UInt32) (m : Manifest)
  | idx (f : IdxFile)
  | doc (records : List DocMeta)
  | del (b : Bitmap)
  | overlay (o : Overlay)

/-- Every file a segment entry references. -/
def segmentFiles (e : SegmentEntry) : List FileName :=
  [.idx e.segmentId, .doc e.segmentId] ++
    if 0 < e.delGen then [.del e.segmentId e.delGen] else []

/-- Every file a manifest references, the manifest itself apart. -/
def referencedFiles (m : Manifest) : List FileName :=
  m.segments.flatMap segmentFiles ++
    if 0 < m.stateGen then [.overlay m.stateGen] else []

namespace FileData

variable [Platform]

open Format

/-- Kind and body of an encoded file. -/
def kindBody : FileData → Option (Kind × UInt32 × List UInt8)
  | torn => none
  | manifest version m => some (.manifest, version, m.body)
  | idx f => some (.idx, formatVersion, Idx.body f)
  | doc records => some (.doc, formatVersion, Doc.body records)
  | del b => some (.del, formatVersion, b.body)
  | overlay o => some (.overlay, formatVersion, o.body)

/-- The bytes of the file; of a torn file nothing is known. -/
def bytes (f : FileData) : List UInt8 :=
  match f.kindBody with
  | some (kind, version, body) => sealBody kind version body
  | none => []

/-- File length. -/
def len (f : FileData) : Nat :=
  f.bytes.length

/-- The checksum in the file's footer. -/
def crc (f : FileData) : UInt32 :=
  match f.kindBody with
  | some (_, _, body) => Platform.crc32 body
  | none => 0

end FileData

end Ripindex
