import Ripindex.Format.Envelope

/-!
# The doc table

`format/doc.rs`: one record for each document of a segment, and a path heap.
-/

namespace Ripindex.Doc

open Format

/-- The checks of `encode`'s loop, with `heap` path bytes written so far. -/
def checkDocs (heap : Nat) : List DocMeta → Except FormatError Unit
  | [] => pure ()
  | d :: ds =>
    if 2 ^ 32 - 1 < heap + d.path.utf8ByteSize then
      .error (.invariant "path heap exceeds 4 GiB")
    else if d.status ≠ .indexed ∧ d.len ≠ 0 then
      .error (.invariant "non-indexed doc with non-zero length")
    else checkDocs (heap + d.path.utf8ByteSize) ds

/-- `doc::encode`: the records of the table. -/
def encode (docs : List DocMeta) : Except FormatError (List DocMeta) := do
  checkDocs 0 docs
  pure docs

/-- Encoding keeps the records. -/
theorem encode_ok {docs records : List DocMeta} (h : encode docs = .ok records) :
    records = docs := by
  unfold encode at h
  rcases hCheck : checkDocs 0 docs with _ | _
  · simp [hCheck, bind, Except.bind] at h
  · simpa [hCheck, bind, Except.bind, pure, Except.pure, eq_comm] using h

/-- A doc table is encoded while its paths fit the heap. -/
theorem checkDocs_isOk {heap : Nat} {docs : List DocMeta}
    (hHeap : heap + (docs.map fun d => d.path.utf8ByteSize).sum < 2 ^ 32)
    (hLen : ∀ d ∈ docs, d.status ≠ .indexed → d.len = 0) : checkDocs heap docs = .ok () := by
  induction docs generalizing heap with
  | nil => rfl
  | cons d docs ih =>
    rw [List.map_cons, List.sum_cons] at hHeap
    obtain ⟨hHead, hTail⟩ := List.forall_mem_cons.mp hLen
    rw [checkDocs, if_neg (by omega), if_neg fun h => h.2 (hHead h.1)]
    exact ih (by omega) hTail

/-- `DocTableView`: a table whose header counts its records. -/
structure View where
  records : List DocMeta
  length_lt : records.length < 2 ^ 32

/-- `DocTableView::parse` on an encoded table: the header holds the number of records
modulo `2^32`, so a longer table does not tile its file. -/
def parse (records : List DocMeta) : Except FormatError View :=
  if h : records.length < 2 ^ 32 then .ok ⟨records, h⟩
  else .error (.corrupt "doc table regions do not tile the body")

theorem parse_ok {records : List DocMeta} {v : View} (h : parse records = .ok v) :
    records.length < 2 ^ 32 := by
  unfold parse at h
  split at h
  · assumption
  · cases h

def View.numDocs (v : View) : UInt32 :=
  UInt32.ofNat v.records.length

@[simp] theorem View.toNat_numDocs (v : View) : v.numDocs.toNat = v.records.length :=
  UInt32.toNat_ofNat_of_lt' v.length_lt

def numIndexed (records : List DocMeta) : UInt32 :=
  UInt32.ofNat (records.countP fun d => d.status = .indexed)

def statusByte : DocStatus → UInt8
  | .skipped => 0
  | .indexed => 1
  | .binary => 2
  | .tooLarge => 3

/-- Records from heap offset `heap` on. -/
def recordsBytes (heap : Nat) : List DocMeta → List UInt8
  | [] => []
  | d :: ds =>
    u64Bytes d.inode ++ i64Bytes d.mtime ++ u64Bytes d.size ++ u32Bytes d.len ++
      leBytes 4 heap ++ leBytes 4 d.path.utf8ByteSize ++ [statusByte d.status, 0, 0, 0] ++
      u64Bytes d.contentHash ++ recordsBytes (heap + d.path.utf8ByteSize) ds

/-- The body of the `.doc` file. -/
def body (records : List DocMeta) : List UInt8 :=
  let recs := recordsBytes 0 records
  let paths := records.flatMap fun d => d.path.toUTF8.toList
  let totalLen := (records.map fun d => if d.status = .indexed then d.len.toNat else 0).sum
  leBytes 4 records.length ++ u32Bytes (numIndexed records) ++ leBytes 8 totalLen ++
    leBytes 8 (headerLen + 32 + recs.length) ++ leBytes 8 paths.length ++ recs ++ paths

end Ripindex.Doc
