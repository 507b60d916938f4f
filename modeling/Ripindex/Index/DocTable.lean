import Mathlib.Algebra.Order.Ring.Nat

/-!
# Documents and crawled files

The vocabulary of `index/doc_table.rs` and `crawler.rs`. A path is root-relative
with `/` between its components; where the source joins it to the root and strips
the root again, nothing happens to it here.
-/

namespace Ripindex

/-- Document identifier. Global ids are never reused within one index. -/
abbrev DocId := UInt32

/-- Token position within a document (atom index). -/
abbrev Position := UInt32

/-- What the index knows about a recorded file. -/
inductive DocStatus
  | indexed | skipped | binary | tooLarge
  deriving DecidableEq, Repr

/-- Whether the file's bytes were fully read, so that its `contentHash` means something. -/
def DocStatus.wasRead : DocStatus → Bool
  | .indexed | .skipped => true
  | .binary | .tooLarge => false

/-- How the crawler classified a file. -/
inductive FileKind
  | text | binary | tooLarge
  deriving DecidableEq, Repr

/-- One file as the crawler saw it; `inode` is 0 where the platform has none. -/
structure FileEntry where
  path : String
  inode : UInt64
  mtime : Int64
  size : UInt64
  deriving DecidableEq, Repr

/-- One crawled file with its classification. -/
structure CrawledFile where
  entry : FileEntry
  kind : FileKind
  deriving DecidableEq, Repr

/-- The recorded metadata of one document. `len` is 0 unless `indexed`; `contentHash`
is 0 for a file that was never read. -/
structure DocMeta where
  path : String
  inode : UInt64
  mtime : Int64
  size : UInt64
  len : UInt32
  status : DocStatus
  contentHash : UInt64
  deriving DecidableEq, Repr

/-- A not-yet-indexed record of a crawled file. -/
def DocMeta.fromEntry (e : FileEntry) : DocMeta where
  path := e.path
  inode := e.inode
  mtime := e.mtime
  size := e.size
  len := 0
  status := .skipped
  contentHash := 0

end Ripindex
