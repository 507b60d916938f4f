import Ripindex.Format.Envelope

/-!
# The file-state overlay

`format/overlay.rs`: patches to the mutable fields of documents whose content is
unchanged since their segment was written, in ascending document order.
-/

namespace Ripindex

/-- One overlay patch (`PatchIn`, `OwnedPatch`). -/
structure Patch where
  docId : DocId
  inode : UInt64
  mtime : Int64
  size : UInt64
  path : String
  deriving DecidableEq, Repr

/-- Patches sorted and unique by document. -/
structure Overlay where
  patches : List Patch
  docId_lt : patches.Pairwise fun p q => p.docId < q.docId
  deriving DecidableEq

namespace Overlay

open Format

def empty : Overlay := ⟨[], List.Pairwise.nil⟩

/-- `overlay_patch`: the patch of a document. -/
def find (o : Overlay) (id : DocId) : Option Patch :=
  o.patches.find? fun p => p.docId == id

/-- The check of `encode`'s loop, with `heap` path bytes written so far. -/
def checkPaths (heap : Nat) : List Patch → Except FormatError Unit
  | [] => pure ()
  | p :: ps =>
    if 2 ^ 32 - 1 < heap + p.path.utf8ByteSize then
      .error (.invariant "overlay path heap exceeds 4 GiB")
    else checkPaths (heap + p.path.utf8ByteSize) ps

/-- `overlay::encode`. -/
def encode (o : Overlay) : Except FormatError Overlay := do
  checkPaths 0 o.patches
  pure o

/-- Encoding keeps the patches. -/
theorem encode_ok {o o' : Overlay} (h : encode o = .ok o') : o' = o := by
  unfold encode at h
  rcases hPaths : checkPaths 0 o.patches with _ | _
  · simp [hPaths, bind, Except.bind] at h
  · simpa [hPaths, bind, Except.bind, pure, Except.pure, eq_comm] using h

/-- Patch records from heap offset `heap` on. -/
def patchesBytes (heap : Nat) : List Patch → List UInt8
  | [] => []
  | p :: ps =>
    u32Bytes p.docId ++ u64Bytes p.inode ++ i64Bytes p.mtime ++ u64Bytes p.size ++
      leBytes 4 heap ++ leBytes 4 p.path.utf8ByteSize ++
      patchesBytes (heap + p.path.utf8ByteSize) ps

/-- The body of the `.ovl` file. -/
def body (o : Overlay) : List UInt8 :=
  let recs := patchesBytes 0 o.patches
  let paths := o.patches.flatMap fun p => p.path.toUTF8.toList
  leBytes 4 o.patches.length ++ leBytes 4 0 ++ leBytes 8 (headerLen + 24 + recs.length) ++
    leBytes 8 paths.length ++ recs ++ paths

end Overlay

end Ripindex
