import Ripindex.Format.Doc
import Ripindex.Format.Fields

/-!
# The doc table, written and read

`doc::encode`, the accessors of `DocTableView`, and the read of the scoring path.

## Results

* `Doc.encode_error_iff` — which documents are refused;
* `Doc.record_viewOf`, `Doc.verify_viewOf` — what the view of an encoded table gives;
* `docTable_roundTrip` — the table as a whole.
-/

namespace Ripindex

open Format

-- ---------------------------------------------------------------------------
-- The scoring path
-- ---------------------------------------------------------------------------

/-- `Segment::doc_len` on the mapped `.doc` file of a segment. -/
def DocTableView.segmentDocLen (v : DocTableView) (deleted : Bool) (i : UInt32) :
    Chk (Option UInt32) :=
  if v.numDocs ≤ i ∨ deleted then .ok none
  else do
    let at' ← recordAt i.toNat
    let stop ← Chk.add at' recordLen
    let b ← Chk.range v.bytes at' stop
    let status ← Chk.index b 36
    if status ≠ 1 then .ok none
    else do
      let len ← Chk.range b 24 28
      .ok (some (UInt32.ofNat (leValue len)))

namespace Doc

-- ---------------------------------------------------------------------------
-- The layout
-- ---------------------------------------------------------------------------

def pathBytes (d : DocMeta) : List UInt8 := d.path.toUTF8.toList

/-- A record, with the place of its path in the heap. -/
def recordBytes (x : Nat × DocMeta) : List UInt8 :=
  leBytes 8 x.2.inode.toNat ++ (leBytes 8 x.2.mtime.toUInt64.toNat ++
    (leBytes 8 x.2.size.toNat ++ (leBytes 4 x.2.len.toNat ++ (leBytes 4 x.1 ++
      (leBytes 4 x.2.path.utf8ByteSize ++ ([statusByte x.2.status] ++ ([0, 0, 0] ++
        leBytes 8 x.2.contentHash.toNat)))))))

/-- The documents with the places of their paths. -/
def placed (docs : List DocMeta) : List (Nat × DocMeta) :=
  heapOffsets (fun d => (pathBytes d).length) 0 docs

/-- The sum of the lengths of the indexed documents. -/
def totalLen (docs : List DocMeta) : Nat :=
  (docs.map fun d => if d.status = .indexed then d.len.toNat else 0).sum

def countIndexed (docs : List DocMeta) : Nat := docs.countP fun d => d.status = .indexed

theorem length_pathBytes (d : DocMeta) : (pathBytes d).length = d.path.utf8ByteSize :=
  String.length_toUTF8_toList _

theorem length_recordBytes (x : Nat × DocMeta) :
    (recordBytes x).length = DocTableView.recordLen := by
  simp only [recordBytes, List.length_append, length_leBytes]
  rfl

theorem length_placed (docs : List DocMeta) : (placed docs).length = docs.length :=
  length_heapOffsets _ _ _

theorem snd_placed (docs : List DocMeta) (i : Nat) :
    (placed docs)[i]?.map Prod.snd = docs[i]? := by
  rw [← List.getElem?_map, placed, map_snd_heapOffsets]

theorem recordsBytes_eq (off : Nat) (ds : List DocMeta) : recordsBytes off ds =
    (heapOffsets (fun d => (pathBytes d).length) off ds).flatMap recordBytes := by
  induction ds generalizing off with
  | nil => rfl
  | cons d ds ih =>
    rw [recordsBytes, heapOffsets, List.flatMap_cons, ← ih, length_pathBytes]
    simp only [recordBytes, u32Bytes, u64Bytes, i64Bytes, List.append_assoc, List.cons_append,
      List.nil_append]

theorem body_eq (docs : List DocMeta) : body docs =
    leBytes 4 docs.length ++ (leBytes 4 (numIndexed docs).toNat ++ (leBytes 8 (totalLen docs) ++
      (leBytes 8 (headerLen + DocTableView.bodyHeaderLen +
          docs.length * DocTableView.recordLen) ++
        (leBytes 8 (docs.flatMap pathBytes).length ++
          ((placed docs).flatMap recordBytes ++ docs.flatMap pathBytes))))) := by
  have hRecs : (recordsBytes 0 docs).length = docs.length * DocTableView.recordLen := by
    rw [recordsBytes_eq, length_records length_recordBytes, length_heapOffsets]
  simp only [body]
  rw [hRecs, recordsBytes_eq]
  simp only [List.append_assoc]
  rfl

theorem totalLen_le (docs : List DocMeta) : totalLen docs ≤ docs.length * (2 ^ 32 - 1) := by
  induction docs with
  | nil => exact Nat.zero_le _
  | cons d docs ih =>
    have hLen := d.len.toNat_lt
    have hHead : (if d.status = .indexed then d.len.toNat else 0) ≤ 2 ^ 32 - 1 := by
      split_ifs <;> omega
    rw [List.length_cons, Nat.succ_mul]
    show (if d.status = .indexed then d.len.toNat else 0) + totalLen docs ≤ _
    omega

-- ---------------------------------------------------------------------------
-- What is refused
-- ---------------------------------------------------------------------------

theorem checkDocs_ok_iff {heap : Nat} {docs : List DocMeta} (hHeap : heap < 2 ^ 32) :
    checkDocs heap docs = .ok () ↔ heap + (docs.flatMap pathBytes).length < 2 ^ 32 ∧
      ∀ d ∈ docs, d.status ≠ .indexed → d.len = 0 := by
  induction docs generalizing heap with
  | nil => exact iff_of_true rfl ⟨hHeap, List.forall_mem_nil _⟩
  | cons d docs ih =>
    rw [List.flatMap_cons, List.length_append, length_pathBytes, ← Nat.add_assoc, checkDocs]
    by_cases hBig : 2 ^ 32 - 1 < heap + d.path.utf8ByteSize
    · rw [if_pos hBig]
      refine iff_of_false (by rintro ⟨⟩) ?_
      rintro ⟨hLt, -⟩
      omega
    rw [if_neg hBig]
    by_cases hLen : d.status ≠ .indexed ∧ d.len ≠ 0
    · rw [if_pos hLen]
      refine iff_of_false (by rintro ⟨⟩) ?_
      rintro ⟨-, hAll⟩
      exact hLen.2 (hAll d List.mem_cons_self hLen.1)
    rw [if_neg hLen, ih (by omega), List.forall_mem_cons]
    have hHead : d.status ≠ .indexed → d.len = 0 := by
      intro hStatus
      by_contra hNe
      exact hLen ⟨hStatus, hNe⟩
    constructor
    · rintro ⟨hLt, hRest⟩
      exact ⟨hLt, hHead, hRest⟩
    · rintro ⟨hLt, -, hRest⟩
      exact ⟨hLt, hRest⟩

theorem encode_ok_iff {docs : List DocMeta} : encode docs = .ok docs ↔
    (docs.flatMap pathBytes).length < 2 ^ 32 ∧
      ∀ d ∈ docs, d.status ≠ .indexed → d.len = 0 := by
  have hCheck := @checkDocs_ok_iff 0 docs (by decide)
  rw [Nat.zero_add] at hCheck
  rw [← hCheck]
  unfold encode
  rcases checkDocs 0 docs with e | ⟨⟩
  · exact iff_of_false (fun h => nomatch h) fun h => nomatch h
  · exact iff_of_true rfl rfl

/-- Refused are lengths of documents without an index, and heaps that 32 bits do not
address. -/
theorem encode_error_iff {docs : List DocMeta} : (∃ e, encode docs = .error e) ↔
    (∃ d ∈ docs, d.status ≠ .indexed ∧ d.len ≠ 0) ∨
      2 ^ 32 ≤ (docs.flatMap pathBytes).length := by
  have hOk := @encode_ok_iff docs
  rcases hEncode : encode docs with e | records
  · rw [hEncode] at hOk
    refine iff_of_true ⟨e, rfl⟩ ?_
    by_contra hNot
    push Not at hNot
    exact nomatch hOk.mpr ⟨hNot.2, hNot.1⟩
  · obtain rfl := encode_ok hEncode
    obtain ⟨hHeap, hAll⟩ := hOk.mp hEncode
    refine iff_of_false (fun ⟨e, h⟩ => nomatch h) ?_
    rintro (⟨d, hd, hStatus, hLen⟩ | hBig)
    · exact hLen (hAll d hd hStatus)
    · omega

-- ---------------------------------------------------------------------------
-- The view of an encoded table
-- ---------------------------------------------------------------------------

/-- A record of the file shows the document. -/
structure Shows (r : DocRecord) (d : DocMeta) : Prop where
  inode : r.inode = d.inode.toNat
  mtime : (UInt64.ofNat r.mtimeNanos).toInt64 = d.mtime
  size : r.size = d.size.toNat
  len : r.len = d.len
  status : r.status = statusByte d.status
  contentHash : r.contentHash = d.contentHash.toNat

/-- What the reader makes of a placed document. -/
def recordOf (x : Nat × DocMeta) : DocRecord :=
  ⟨x.2.inode.toNat, x.2.mtime.toUInt64.toNat, x.2.size.toNat, x.2.len, UInt32.ofNat x.1,
    UInt32.ofNat x.2.path.utf8ByteSize, statusByte x.2.status, x.2.contentHash.toNat⟩

theorem shows_recordOf (x : Nat × DocMeta) : Shows (recordOf x) x.2 :=
  ⟨rfl, by simp [recordOf], rfl, rfl, rfl, rfl⟩

/-- The sizes that an encoded table keeps. -/
structure Counted (docs : List DocMeta) : Prop where
  heap : (docs.flatMap pathBytes).length < 2 ^ 32
  count : docs.length < 2 ^ 32

variable {docs : List DocMeta}

theorem length_records_placed (docs : List DocMeta) :
    ((placed docs).flatMap recordBytes).length = docs.length * DocTableView.recordLen := by
  rw [length_records length_recordBytes, length_placed]

theorem length_body (docs : List DocMeta) : (body docs).length =
    32 + docs.length * 48 + (docs.flatMap pathBytes).length := by
  rw [body_eq]
  simp only [List.length_append, length_leBytes, length_records_placed]
  unfold DocTableView.recordLen
  omega

/-- The records stand behind the header of the body, the heap behind the records. -/
theorem at_records (docs : List DocMeta) :
    At (body docs) 32 ((placed docs).flatMap recordBytes ++ docs.flatMap pathBytes) :=
  (At.of_eq (body_eq docs)).behind.behind.behind.behind.behind

theorem Counted.toNat_ofNat (h : Counted docs) {i : Nat} {x : Nat × DocMeta}
    (hx : (placed docs)[i]? = some x) : (UInt32.ofNat i).toNat = i := by
  have hi : i < docs.length := by
    rw [← length_placed]
    exact (List.getElem?_eq_some_iff.mp hx).1
  exact UInt32.toNat_ofNat_of_lt' (Nat.lt_trans hi h.count)

/-- The place of a path fits the record. -/
theorem at_path {i : Nat} {x : Nat × DocMeta}
    (hx : (placed docs)[i]? = some x) :
    At (docs.flatMap pathBytes) x.1 (pathBytes x.2) ∧
      x.1 + x.2.path.utf8ByteSize ≤ (docs.flatMap pathBytes).length := by
  obtain ⟨hAt, hLe⟩ := at_heap (At.of_eq rfl) (List.mem_of_getElem? hx)
  rw [Nat.zero_add, length_pathBytes] at hLe
  exact ⟨hAt, hLe⟩

/-- The length that the scoring reads. -/
def lenIfIndexed (d : DocMeta) : Option UInt32 :=
  if d.status = .indexed then some d.len else none

theorem statusByte_eq_one {s : DocStatus} : statusByte s = 1 ↔ s = .indexed := by
  cases s <;> decide

variable [Platform]

/-- The complete file. -/
def bytes (docs : List DocMeta) : List UInt8 := sealBody .doc formatVersion (body docs)

def viewOf (docs : List DocMeta) : DocTableView :=
  ⟨bytes docs, ⟨headerLen + (body docs).length, Platform.crc32 (body docs)⟩,
    UInt32.ofNat docs.length, numIndexed docs, totalLen docs, docs.flatMap pathBytes⟩

theorem length_bytes (docs : List DocMeta) : (bytes docs).length =
    16 + (32 + docs.length * 48 + (docs.flatMap pathBytes).length) + 16 := by
  rw [← length_body]
  exact length_sealBody _ _

theorem Counted.length_bytes_lt (h : Counted docs) : (bytes docs).length < 2 ^ 64 := by
  have hHeap := h.heap
  have hCount := h.count
  rw [length_bytes]
  omega

theorem Counted.numDocs_eq (h : Counted docs) :
    (viewOf docs).numDocs.toNat = docs.length :=
  UInt32.toNat_ofNat_of_lt' h.count

theorem at_paths (docs : List DocMeta) :
    At (bytes docs) (48 + docs.length * 48) (docs.flatMap pathBytes) := by
  have hRight := (at_records docs).right
  rw [length_records_placed] at hRight
  have hLe : 32 + docs.length * DocTableView.recordLen ≤ (body docs).length := by
    rw [length_body]
    exact Nat.le_add_right _ _
  have hAt := (at_sealBody .doc (body docs)).trans hRight hLe
  rwa [← Nat.add_assoc] at hAt

theorem at_recordBytes {i : Nat} {x : Nat × DocMeta} (hx : (placed docs)[i]? = some x) :
    At (bytes docs) (48 + i * 48) (recordBytes x) ∧ 48 + i * 48 + 48 ≤ (bytes docs).length := by
  have hi : i < docs.length := by
    rw [← length_placed]
    exact (List.getElem?_eq_some_iff.mp hx).1
  have hRecord := at_record (at_records docs).left length_recordBytes hx
  have hLe : 32 + i * DocTableView.recordLen ≤ (body docs).length := by
    rw [length_body]
    unfold DocTableView.recordLen
    omega
  have hAt := (at_sealBody .doc (body docs)).trans hRecord hLe
  rw [← Nat.add_assoc] at hAt
  refine ⟨hAt, ?_⟩
  rw [length_bytes]
  omega

/-- An encoded table is opened. -/
theorem Counted.parse_bytes (h : Counted docs) :
    DocTableView.parse (bytes docs) = .ok (viewOf docs) := by
  have hLt := h.length_bytes_lt
  have hLen := length_body docs
  have hHeap := h.heap
  have hCount := h.count
  have hTotal := totalLen_le docs
  have hFile := length_bytes docs
  obtain ⟨hOpen, hRange⟩ := parseVerified_sealBody .doc hLt
  have hParse : Checked.parse .doc (bytes docs) =
      .ok ⟨headerLen + (body docs).length, Platform.crc32 (body docs)⟩ := by
    rw [Format.Checked.parse_eq .doc hLt]
    exact congrArg Chk.ofFormat (Envelope.parse_sealBody .doc hLt).2.1
  have h0 := At.of_eq (body_eq docs)
  have h4 := h0.behind
  have h8 := h4.behind
  have h16 := h8.behind
  have h24 := h16.behind
  have r0 := readU32Le_at h0.left (by omega) h.count
  have r4 := readU32Le_at h4.left (by omega) (numIndexed docs).toNat_lt
  have r8 := readU64Le_at h8.left (by omega) (by omega)
  have r16 := readU64Le_at h16.left (by omega) (by
    unfold headerLen DocTableView.bodyHeaderLen DocTableView.recordLen
    omega)
  have r24 := readU64Le_at h24.left (by omega) (show _ < 2 ^ 64 by omega)
  simp only [Nat.zero_add, Nat.reduceAdd] at r4 r8 r16 r24
  have hCountEq := h.numDocs_eq
  have hSlice : slice (bytes docs) (headerLen + DocTableView.bodyHeaderLen +
      docs.length * DocTableView.recordLen) (docs.flatMap pathBytes).length =
        .ok (docs.flatMap pathBytes) :=
    slice_at (at_paths docs) (by
      unfold headerLen DocTableView.bodyHeaderLen DocTableView.recordLen
      omega)
  have hSum : Chk.add (headerLen + DocTableView.bodyHeaderLen +
      docs.length * DocTableView.recordLen) (docs.flatMap pathBytes).length =
        .ok (headerLen + (body docs).length) := by
    unfold headerLen DocTableView.bodyHeaderLen DocTableView.recordLen
    rw [Chk.add_ok (by omega), hLen]
    congr 1
    omega
  have hShort : ¬ (body docs).length < DocTableView.bodyHeaderLen := by
    unfold DocTableView.bodyHeaderLen
    omega
  have hIndexed : ¬ UInt32.ofNat docs.length < numIndexed docs := by
    have hLe : (docs.countP fun d => d.status = .indexed) ≤ docs.length := List.countP_le_length
    rw [UInt32.lt_iff_toNat_lt, numIndexed, UInt32.toNat_ofNat_of_lt' hCount,
      UInt32.toNat_ofNat_of_lt' (Nat.lt_of_le_of_lt hLe hCount)]
    exact Nat.not_lt.mpr hLe
  unfold DocTableView.parse
  rw [hParse, Chk.ok_bind]
  show (Chk.range (bytes docs) headerLen (headerLen + (body docs).length) >>= _) = _
  rw [show Chk.range (bytes docs) headerLen (headerLen + (body docs).length) = .ok (body docs)
    from hRange, Chk.ok_bind, if_neg hShort, r0, r4, r8, r16, r24]
  simp only [Chk.ofFormat, Chk.ok_bind, DocTableView.recordAt_ok (UInt32.toNat_lt _)]
  rw [show (UInt32.ofNat docs.length).toNat = docs.length from hCountEq,
    if_neg (not_not_intro rfl), hSum, Chk.ok_bind, if_neg (not_not_intro rfl),
    UInt32.ofNat_toNat, if_neg hIndexed]
  show (Chk.ofFormat (slice (bytes docs) _ _) >>= _) = _
  rw [hSlice]
  rfl

-- ---------------------------------------------------------------------------
-- The accessors
-- ---------------------------------------------------------------------------

theorem Counted.in_range (h : Counted docs) {i : Nat} {x : Nat × DocMeta}
    (hx : (placed docs)[i]? = some x) : ¬ (viewOf docs).numDocs ≤ UInt32.ofNat i := by
  have hi := (List.getElem?_eq_some_iff.mp hx).1
  rw [length_placed] at hi
  rw [UInt32.le_iff_toNat_le, h.toNat_ofNat hx, h.numDocs_eq]
  exact Nat.not_le.mpr hi

theorem Counted.record (h : Counted docs) {i : Nat} {x : Nat × DocMeta}
    (hx : (placed docs)[i]? = some x) :
    (viewOf docs).record (UInt32.ofNat i) = .ok (some (recordOf x)) := by
  obtain ⟨hAt, hEnd⟩ := at_recordBytes hx
  obtain ⟨-, hHeapLe⟩ := at_path hx
  have hHeap := h.heap
  have hLt := h.length_bytes_lt
  have h8 := hAt.behind
  have h16 := h8.behind
  have h24 := h16.behind
  have h28 := h24.behind
  have h32 := h28.behind
  have h36 := h32.behind
  have h37 := h36.right
  have h40 : At (bytes docs) (48 + i * 48 + 40) (leBytes 8 x.2.contentHash.toNat) := h37.right
  have hStatus : Chk.index (bytes docs) (48 + i * 48 + 36) = .ok (statusByte x.2.status) :=
    Chk.index_at h36.left
  have hBase : headerLen + DocTableView.bodyHeaderLen + i * DocTableView.recordLen =
      48 + i * 48 := rfl
  unfold DocTableView.record
  rw [if_neg (h.in_range hx), DocTableView.recordAt_ok (UInt32.toNat_lt _), Chk.ok_bind,
    h.toNat_ofNat hx, hBase]
  generalize 48 + i * 48 = at' at *
  show Chk.orNone (Chk.u64At (bytes docs) at' 0) _ = _
  rw [Chk.u64At_at (k := 0) hAt.left (by omega) hLt x.2.inode.toNat_lt]
  show Chk.orNone (Chk.u64At (bytes docs) at' 8) _ = _
  rw [Chk.u64At_at (k := 8) h8.left (by omega) hLt x.2.mtime.toUInt64.toNat_lt]
  show Chk.orNone (Chk.u64At (bytes docs) at' 16) _ = _
  rw [Chk.u64At_at (k := 16) h16.left (by omega) hLt x.2.size.toNat_lt]
  show Chk.orNone (Chk.u32At (bytes docs) at' 24) _ = _
  rw [Chk.u32At_at (k := 24) h24.left (by omega) hLt x.2.len.toNat_lt]
  show Chk.orNone (Chk.u32At (bytes docs) at' 28) _ = _
  rw [Chk.u32At_at (k := 28) h28.left (by omega) hLt (by omega)]
  show Chk.orNone (Chk.u32At (bytes docs) at' 32) _ = _
  rw [Chk.u32At_at (k := 32) h32.left (by omega) hLt
    (show x.2.path.utf8ByteSize < 2 ^ 32 by omega)]
  show (Chk.add at' 36 >>= _) = _
  rw [Chk.add_ok (by omega), Chk.ok_bind]
  show (Chk.index (bytes docs) (at' + 36) >>= _) = _
  rw [hStatus]
  show Chk.orNone (Chk.u64At (bytes docs) at' 40) _ = _
  rw [Chk.u64At_at (k := 40) h40 (by omega) hLt x.2.contentHash.toNat_lt]
  show Except.ok (some _) = _
  rw [UInt32.ofNat_toNat]
  rfl

theorem Counted.path (h : Counted docs) {i : Nat} {x : Nat × DocMeta}
    (hx : (placed docs)[i]? = some x) :
    (viewOf docs).path (UInt32.ofNat i) = .ok (some x.2.path) := by
  obtain ⟨hAt, hLe⟩ := at_path hx
  unfold DocTableView.path
  rw [h.record hx, Chk.ok_bind]
  exact congrArg Except.ok (heapText_at hAt hLe h.heap)

theorem Counted.docLenIfIndexed (h : Counted docs) {i : Nat} {x : Nat × DocMeta}
    (hx : (placed docs)[i]? = some x) :
    (viewOf docs).docLenIfIndexed (UInt32.ofNat i) = .ok (lenIfIndexed x.2) := by
  obtain ⟨hAt, hEnd⟩ := at_recordBytes hx
  have hLt := h.length_bytes_lt
  have h24 := hAt.behind.behind.behind
  have hStatus : Chk.index (bytes docs) (48 + i * 48 + 36) = .ok (statusByte x.2.status) :=
    Chk.index_at h24.behind.behind.behind.left
  have hBase : headerLen + DocTableView.bodyHeaderLen + i * DocTableView.recordLen =
      48 + i * 48 := rfl
  unfold DocTableView.docLenIfIndexed
  rw [if_neg (h.in_range hx), DocTableView.recordAt_ok (UInt32.toNat_lt _), Chk.ok_bind,
    h.toNat_ofNat hx, hBase]
  generalize 48 + i * 48 = at' at *
  rw [Chk.add_ok (by omega), Chk.ok_bind]
  show (Chk.index (bytes docs) (at' + 36) >>= _) = _
  rw [hStatus, Chk.ok_bind, lenIfIndexed]
  by_cases hIndexed : x.2.status = .indexed
  · rw [if_neg (not_not_intro (statusByte_eq_one.mpr hIndexed)), if_pos hIndexed]
    show Chk.orNone (Chk.u32At (bytes docs) at' 24) _ = _
    rw [Chk.u32At_at (k := 24) h24.left (by omega) hLt x.2.len.toNat_lt, UInt32.ofNat_toNat]
    rfl
  · rw [if_pos (fun hOne => hIndexed (statusByte_eq_one.mp hOne)), if_neg hIndexed]

/-- The read of the scoring path gives the same for a document that is not deleted. -/
theorem Counted.segmentDocLen (h : Counted docs) {i : Nat} {x : Nat × DocMeta}
    (hx : (placed docs)[i]? = some x) :
    (viewOf docs).segmentDocLen false (UInt32.ofNat i) = .ok (lenIfIndexed x.2) := by
  obtain ⟨hAt, hEnd⟩ := at_recordBytes hx
  have hLt := h.length_bytes_lt
  have hIn : ¬ ((viewOf docs).numDocs ≤ UInt32.ofNat i ∨ false = true) := by
    rintro (hOut | hFalse)
    · exact h.in_range hx hOut
    · cases hFalse
  have hBase : headerLen + DocTableView.bodyHeaderLen + i * DocTableView.recordLen =
      48 + i * 48 := rfl
  have hRecord : Chk.range (bytes docs) (48 + i * 48) (48 + i * 48 + DocTableView.recordLen) =
      .ok (recordBytes x) := by
    have hNe : recordBytes x ≠ [] := by
      intro hNil
      have hLen := length_recordBytes x
      rw [hNil] at hLen
      exact absurd hLen (by decide)
    have hRange := Chk.range_at hAt hNe
    rwa [length_recordBytes] at hRange
  -- The fields within the record.
  have h24 := (@At.of_eq (recordBytes x) _ rfl).behind.behind.behind
  have hStatus : Chk.index (recordBytes x) 36 = .ok (statusByte x.2.status) :=
    Chk.index_at h24.behind.behind.behind.left
  have hLen : Chk.range (recordBytes x) 24 28 = .ok (leBytes 4 x.2.len.toNat) := by
    have hNe : leBytes 4 x.2.len.toNat ≠ [] := by
      intro hNil
      have hLen := length_leBytes 4 x.2.len.toNat
      rw [hNil] at hLen
      cases hLen
    have hRange := Chk.range_at h24.left hNe
    rwa [length_leBytes] at hRange
  unfold DocTableView.segmentDocLen
  rw [if_neg hIn, DocTableView.recordAt_ok (UInt32.toNat_lt _), Chk.ok_bind, h.toNat_ofNat hx,
    hBase, Chk.add_ok (by unfold DocTableView.recordLen; omega), Chk.ok_bind]
  show (Chk.range (bytes docs) _ _ >>= _) = _
  rw [hRecord, Chk.ok_bind, hStatus, Chk.ok_bind, lenIfIndexed]
  by_cases hIndexed : x.2.status = .indexed
  · rw [if_neg (not_not_intro (statusByte_eq_one.mpr hIndexed)), if_pos hIndexed, hLen,
      Chk.ok_bind, leValue_leBytes,
      Nat.mod_eq_of_lt (show x.2.len.toNat < 256 ^ 4 from x.2.len.toNat_lt), UInt32.ofNat_toNat]
  · rw [if_pos (fun hOne => hIndexed (statusByte_eq_one.mp hOne)), if_neg hIndexed]

-- ---------------------------------------------------------------------------
-- The full check
-- ---------------------------------------------------------------------------

/-- The loop of `verify` counts the documents from `i` on. -/
theorem Counted.verifyFrom (h : Counted docs)
    (hLens : ∀ d ∈ docs, d.status ≠ .indexed → d.len = 0) :
    ∀ ds i indexed total, docs.drop i = ds → indexed + countIndexed ds < 2 ^ 32 →
      total + totalLen ds < 2 ^ 64 →
      (viewOf docs).verifyFrom ds.length i indexed total =
        .ok (indexed + countIndexed ds, total + totalLen ds) := by
  intro ds
  induction ds with
  | nil => exact fun _ _ _ _ _ _ => rfl
  | cons d ds ih =>
    intro i indexed total hDrop hIndexed hTotal
    have hGet : docs[i]? = some d := by
      have hHead := congrArg List.head? hDrop
      rwa [List.head?_drop] at hHead
    have hRest : docs.drop (i + 1) = ds := by
      have hTail := congrArg List.tail hDrop
      rwa [List.tail_drop] at hTail
    obtain ⟨x, hx, rfl⟩ : ∃ x, (placed docs)[i]? = some x ∧ x.2 = d := by
      rw [← snd_placed, Option.map_eq_some_iff] at hGet
      exact hGet
    obtain ⟨hAt, hEnd⟩ := at_recordBytes hx
    have hLt := h.length_bytes_lt
    have hi : i < 2 ^ 32 := by
      rw [← h.toNat_ofNat hx]
      exact UInt32.toNat_lt _
    have hReserved : Chk.range (bytes docs) (48 + i * 48 + 37) (48 + i * 48 + 40) =
        .ok [0, 0, 0] := by
      have h37 := hAt.behind.behind.behind.behind.behind.behind.right.left
      exact Chk.range_at h37 (List.cons_ne_nil _ _)
    have hStatus : (recordOf x).status.toNat ≤ 3 := by
      show (statusByte x.2.status).toNat ≤ 3
      cases x.2.status <;> decide
    have hOne : (recordOf x).status.toNat = 1 ↔ x.2.status = .indexed := by
      show (statusByte x.2.status).toNat = 1 ↔ _
      cases x.2.status <;> decide
    have hLen : ¬ ((recordOf x).status.toNat ≠ 1 ∧ (recordOf x).len.toNat ≠ 0) := by
      rintro ⟨hNotOne, hNotZero⟩
      have hZero : (recordOf x).len = 0 :=
        hLens x.2 (List.mem_of_getElem? hGet) (mt hOne.mpr hNotOne)
      exact hNotZero (congrArg UInt32.toNat hZero)
    have hCount : countIndexed (x.2 :: ds) =
        (if x.2.status = .indexed then 1 else 0) + countIndexed ds := by
      rw [countIndexed, List.countP_cons, Nat.add_comm]
      simp only [decide_eq_true_eq, countIndexed]
    have hSum : totalLen (x.2 :: ds) =
        (if x.2.status = .indexed then x.2.len.toNat else 0) + totalLen ds := rfl
    have hBase : headerLen + DocTableView.bodyHeaderLen + i * DocTableView.recordLen =
        48 + i * 48 := rfl
    rw [hCount] at hIndexed ⊢
    rw [hSum] at hTotal ⊢
    rw [List.length_cons, DocTableView.verifyFrom, h.record hx, Chk.ok_bind]
    simp only
    rw [if_neg (Nat.not_lt.mpr hStatus), if_neg hLen, DocTableView.recordAt_ok hi, Chk.ok_bind,
      hBase, Chk.add_ok (by omega), Chk.ok_bind, Chk.add_ok (by omega), Chk.ok_bind]
    show (Chk.range (bytes docs) _ _ >>= _) = _
    rw [hReserved, Chk.ok_bind, if_neg (not_not_intro rfl), h.path hx, Chk.ok_bind]
    simp only
    have hLenEq : (recordOf x).len = x.2.len := rfl
    by_cases hKind : x.2.status = .indexed
    · rw [if_pos hKind] at hIndexed hTotal ⊢
      rw [if_pos (hOne.mpr hKind), Chk.add32, if_pos (by omega), Chk.ok_bind, hLenEq,
        Chk.add_ok (by omega), Chk.ok_bind, ih _ _ _ hRest (by omega) (by omega), if_pos hKind,
        Nat.add_assoc, Nat.add_assoc]
    · rw [if_neg hKind] at hIndexed hTotal ⊢
      rw [if_neg (mt hOne.mp hKind), ih _ _ _ hRest (by omega) (by omega), if_neg hKind,
        Nat.zero_add, Nat.zero_add]

theorem Counted.toNat_numIndexed (h : Counted docs) :
    (viewOf docs).numIndexed.toNat = countIndexed docs :=
  UInt32.toNat_ofNat_of_lt' (Nat.lt_of_le_of_lt List.countP_le_length h.count)

theorem Counted.verify (h : Counted docs)
    (hLens : ∀ d ∈ docs, d.status ≠ .indexed → d.len = 0) : (viewOf docs).verify = .ok () := by
  have hCount : countIndexed docs ≤ docs.length := List.countP_le_length
  have hDocs := h.count
  have hTotal := totalLen_le docs
  obtain ⟨-, hRange⟩ := parseVerified_sealBody .doc h.length_bytes_lt
  unfold DocTableView.verify
  show (Chk.range (bytes docs) headerLen (headerLen + (body docs).length) >>= _) = _
  rw [show Chk.range (bytes docs) headerLen (headerLen + (body docs).length) = .ok (body docs)
    from hRange, Chk.ok_bind]
  show (if Platform.crc32 (body docs) ≠ Platform.crc32 (body docs) then _ else _) = _
  rw [if_neg (not_not_intro rfl), h.numDocs_eq,
    h.verifyFrom hLens docs 0 0 0 rfl (by omega) (by omega), Chk.ok_bind]
  simp only [Nat.zero_add]
  rw [h.toNat_numIndexed, if_neg (fun hOr => hOr.elim (absurd rfl) (absurd rfl))]

-- ---------------------------------------------------------------------------
-- Reading back
-- ---------------------------------------------------------------------------

/-- What the accessors give for a place of the table. -/
structure ShowsAt (v : DocTableView) (docs : List DocMeta) (i : UInt32) : Prop where
  inside : ∀ d, docs[i.toNat]? = some d → (∃ r, v.record i = .ok (some r) ∧ Shows r d) ∧
    v.path i = .ok (some d.path) ∧ v.docLenIfIndexed i = .ok (lenIfIndexed d) ∧
    v.segmentDocLen false i = .ok (lenIfIndexed d)
  outside : docs[i.toNat]? = none → v.record i = .ok none ∧ v.path i = .ok none ∧
    v.docLenIfIndexed i = .ok none ∧ ∀ deleted, v.segmentDocLen deleted i = .ok none

/-- The file is opened as the table it was made of. -/
structure ReadsBack (docs : List DocMeta) (v : DocTableView) : Prop where
  parse : DocTableView.parse (bytes docs) = .ok v
  verify : v.verify = .ok ()
  numDocs : v.numDocs.toNat = docs.length
  numIndexed : v.numIndexed.toNat = countIndexed docs
  totalLen : v.totalLen = totalLen docs
  docs : ∀ i, ShowsAt v docs i

theorem Counted.showsAt (h : Counted docs) (i : UInt32) : ShowsAt (viewOf docs) docs i := by
  refine ⟨fun d hd => ?_, fun hNone => ?_⟩
  · obtain ⟨x, hx, rfl⟩ : ∃ x, (placed docs)[i.toNat]? = some x ∧ x.2 = d := by
      rw [← snd_placed, Option.map_eq_some_iff] at hd
      exact hd
    have hRecord := h.record hx
    have hPath := h.path hx
    have hLen := h.docLenIfIndexed hx
    have hSegment := h.segmentDocLen hx
    rw [UInt32.ofNat_toNat] at hRecord hPath hLen hSegment
    exact ⟨⟨_, hRecord, shows_recordOf x⟩, hPath, hLen, hSegment⟩
  · have hOut : (viewOf docs).numDocs ≤ i := by
      rw [UInt32.le_iff_toNat_le, h.numDocs_eq]
      exact List.getElem?_eq_none_iff.mp hNone
    have hRecord : (viewOf docs).record i = .ok none := if_pos hOut
    refine ⟨hRecord, ?_, if_pos hOut, fun _ => if_pos (Or.inl hOut)⟩
    unfold DocTableView.path
    rw [hRecord]
    rfl

theorem readsBack_iff (hEncode : encode docs = .ok docs) :
    (∃ v, ReadsBack docs v) ↔ docs.length < 2 ^ 32 := by
  obtain ⟨hHeap, hLens⟩ := encode_ok_iff.mp hEncode
  constructor
  · rintro ⟨v, hRead⟩
    rw [← hRead.numDocs]
    exact v.numDocs.toNat_lt
  · intro hCount
    have hCounted : Counted docs := ⟨hHeap, hCount⟩
    exact ⟨viewOf docs, hCounted.parse_bytes, hCounted.verify hLens, hCounted.numDocs_eq,
      hCounted.toNat_numIndexed, rfl, hCounted.showsAt⟩

end Doc

/-- The doc table round-trips: which documents are refused, and that the file of the others
reads back exactly when they can be counted in 32 bits. -/
theorem docTable_roundTrip [Platform] (docs : List DocMeta) :
    ((∃ e, Doc.encode docs = .error e) ↔
      (∃ d ∈ docs, d.status ≠ .indexed ∧ d.len ≠ 0) ∨
        2 ^ 32 ≤ (docs.flatMap Doc.pathBytes).length) ∧
    (Doc.encode docs = .ok docs → ((∃ v, Doc.ReadsBack docs v) ↔ docs.length < 2 ^ 32)) :=
  ⟨Doc.encode_error_iff, Doc.readsBack_iff⟩

/-- Documents of each kind, with extreme fields. -/
def Doc.sample : List DocMeta :=
  [⟨"src/main.rs", 42, 1700000000000000000, 10, 7, .indexed, 0xdeadbeef⟩,
    ⟨"bad.bin", 0, -5, 3, 0, .skipped, 0x1234⟩,
    ⟨"", 0xffffffffffffffff, -9223372036854775808, 0xffffffffffffffff, 0xffffffff, .indexed, 1⟩,
    ⟨"img.png", 2, 0, 5000000, 0, .binary, 0⟩, ⟨"big", 3, 0, 1, 0, .tooLarge, 0⟩]

theorem docTable_roundTrip_sample :
    let _ : Platform := .reference
    ∃ v, Doc.ReadsBack Doc.sample v := by
  intro _
  exact ((docTable_roundTrip Doc.sample).2 (Doc.encode_ok_iff.mpr
    ⟨by decide +kernel, by decide +kernel⟩)).mpr (by decide)

-- ---------------------------------------------------------------------------
-- More documents than a header counts
-- ---------------------------------------------------------------------------

/-- Binary documents with empty paths. -/
def Doc.vacant (n : Nat) : List DocMeta := List.replicate n ⟨"", 0, 0, 0, 0, .binary, 0⟩

theorem Doc.encode_vacant (n : Nat) : Doc.encode (Doc.vacant n) = .ok (Doc.vacant n) := by
  have hHeap : (Doc.vacant n).flatMap Doc.pathBytes = [] := by
    refine List.flatMap_eq_nil_iff.mpr fun d hd => ?_
    rw [List.eq_of_mem_replicate hd]
    exact List.eq_nil_of_length_eq_zero (Doc.length_pathBytes _)
  refine Doc.encode_ok_iff.mpr ⟨?_, fun d hd _ => ?_⟩
  · rw [hHeap]
    decide
  · rw [List.eq_of_mem_replicate hd]

theorem Doc.not_readsBack_vacant [Platform] {n : Nat} (hAll : n = 2 ^ 32) :
    ¬ ∃ v, Doc.ReadsBack (Doc.vacant n) v := by
  intro hRead
  have hCount := (Doc.readsBack_iff (Doc.encode_vacant n)).mp hRead
  rw [Doc.vacant, List.length_replicate, hAll] at hCount
  exact Nat.lt_irrefl _ hCount

/-- `2 ^ 32` documents are encoded, and not read back. -/
theorem docTable_miscounted :
    let _ : Platform := .reference
    Doc.encode (Doc.vacant (2 ^ 32)) = .ok (Doc.vacant (2 ^ 32)) ∧
      ¬ ∃ v, Doc.ReadsBack (Doc.vacant (2 ^ 32)) v := by
  intro _
  exact ⟨Doc.encode_vacant _, Doc.not_readsBack_vacant rfl⟩

end Ripindex
