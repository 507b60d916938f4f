import Ripindex.Format.NoCrash
import Ripindex.Lib.Text

/-!
# Fields of fixed width

A field that is written is read back, and a field that is read stands in the buffer as it
would be written. Fields that follow one another make up the whole.

## Results

* `At.of_readU32Le`, `At.of_readU64Le` — what is read stands there;
* `Envelope.eq_sealBody` — a file with a valid envelope is its body, sealed.
-/

namespace Ripindex.Format

-- ---------------------------------------------------------------------------
-- Little-endian numbers
-- ---------------------------------------------------------------------------

theorem leValue_lt (bs : List UInt8) : leValue bs < 256 ^ bs.length := by
  induction bs with
  | nil => exact Nat.one_pos
  | cons b bs ih =>
    have hByte := b.toNat_lt
    rw [leValue, List.length_cons, Nat.pow_succ]
    omega

/-- A number has one spelling for each width. -/
theorem leBytes_leValue (bs : List UInt8) : leBytes bs.length (leValue bs) = bs := by
  induction bs with
  | nil => rfl
  | cons b bs ih =>
    have hByte := b.toNat_lt
    have hHead : UInt8.ofNat (b.toNat + 256 * leValue bs) = b := by
      rw [← UInt8.toNat_inj, UInt8.toNat_ofNat']
      omega
    have hTail : (b.toNat + 256 * leValue bs) / 256 = leValue bs := by omega
    rw [leValue, List.length_cons, leBytes, hHead, hTail, ih]

-- ---------------------------------------------------------------------------
-- Places in a buffer
-- ---------------------------------------------------------------------------

theorem At.cat {buf as bs : List UInt8} {pos : Nat} (ha : At buf pos as)
    (hb : At buf (pos + as.length) bs) : At buf pos (as ++ bs) := by
  obtain ⟨rest, hRest⟩ := ha
  obtain ⟨rest', hRest'⟩ := hb
  refine ⟨rest', ?_⟩
  rw [← List.drop_drop, hRest, List.drop_left] at hRest'
  rw [hRest, hRest', List.append_assoc]

theorem At.nil (buf : List UInt8) (pos : Nat) : At buf pos [] := ⟨buf.drop pos, rfl⟩

theorem At.of_take {buf : List UInt8} {start stop : Nat} (hStart : start ≤ stop) :
    At buf start ((buf.take stop).drop start) := by
  have hRest : (buf.drop start).drop (stop - start) = buf.drop stop := by
    rw [List.drop_drop, Nat.add_sub_cancel' hStart]
  refine ⟨buf.drop stop, ?_⟩
  rw [List.drop_take, ← hRest]
  exact (List.take_append_drop _ _).symm

/-- A buffer that starts with as many bytes as it has is these bytes. -/
theorem At.eq_of_length {buf bytes : List UInt8} (h : At buf 0 bytes)
    (hLen : bytes.length = buf.length) : buf = bytes := by
  obtain ⟨rest, hRest⟩ := h
  have hLengths := congrArg List.length hRest
  rw [List.drop_zero, List.length_append] at hLengths
  have hNil : rest = [] := List.length_eq_zero_iff.mp (by omega)
  rw [List.drop_zero, hNil, List.append_nil] at hRest
  exact hRest

theorem At.of_slice {buf bs : List UInt8} {pos n : Nat} (h : slice buf pos n = .ok bs) :
    At buf pos bs ∧ bs.length = n ∧ pos + n ≤ buf.length := by
  have hLe := slice_le h
  unfold slice at h
  rw [if_pos hLe] at h
  obtain rfl := Except.ok.inj h
  refine ⟨⟨(buf.drop pos).drop n, (List.take_append_drop n _).symm⟩, ?_, hLe⟩
  rw [List.length_take, List.length_drop]
  omega

theorem At.of_readU32Le {buf : List UInt8} {pos : Nat} {x : UInt32}
    (h : readU32Le buf pos = .ok x) : At buf pos (leBytes 4 x.toNat) ∧ pos + 4 ≤ buf.length := by
  unfold readU32Le at h
  rcases hSlice : slice buf pos 4 with e | bs
  · rw [hSlice] at h
    cases h
  rw [hSlice] at h
  obtain rfl : UInt32.ofNat (leValue bs) = x := Except.ok.inj h
  obtain ⟨hAt, hLen, hLe⟩ := At.of_slice hSlice
  have hValue := leValue_lt bs
  rw [hLen] at hValue
  rw [UInt32.toNat_ofNat_of_lt' (Nat.lt_of_lt_of_eq hValue (by decide)), ← hLen, leBytes_leValue]
  exact ⟨hAt, hLen ▸ hLe⟩

theorem At.of_readU64Le {buf : List UInt8} {pos v : Nat} (h : readU64Le buf pos = .ok v) :
    At buf pos (leBytes 8 v) ∧ pos + 8 ≤ buf.length ∧ v < 2 ^ 64 := by
  unfold readU64Le at h
  rcases hSlice : slice buf pos 8 with e | bs
  · rw [hSlice] at h
    cases h
  rw [hSlice] at h
  obtain rfl : leValue bs = v := Except.ok.inj h
  obtain ⟨hAt, hLen, hLe⟩ := At.of_slice hSlice
  have hValue := leValue_lt bs
  rw [hLen] at hValue
  refine ⟨?_, hLe, Nat.lt_of_lt_of_eq hValue (by decide)⟩
  have hBytes := leBytes_leValue bs
  rw [hLen] at hBytes
  rwa [hBytes]

-- ---------------------------------------------------------------------------
-- Fields behind a base address
-- ---------------------------------------------------------------------------

theorem Chk.u32At_at {buf : List UInt8} {at' k v : Nat} (h : At buf (at' + k) (leBytes 4 v))
    (hPos : at' + k ≤ buf.length) (hBuf : buf.length < 2 ^ 64) (hv : v < 2 ^ 32) :
    Chk.u32At buf at' k = .ok (UInt32.ofNat v) := by
  unfold Chk.u32At
  rw [Chk.add_ok (Nat.lt_of_le_of_lt hPos hBuf)]
  show Chk.ofFormat (readU32Le buf (at' + k)) = _
  rw [readU32Le_at h hPos hv]
  rfl

theorem Chk.u64At_at {buf : List UInt8} {at' k v : Nat} (h : At buf (at' + k) (leBytes 8 v))
    (hPos : at' + k ≤ buf.length) (hBuf : buf.length < 2 ^ 64) (hv : v < 2 ^ 64) :
    Chk.u64At buf at' k = .ok v := by
  unfold Chk.u64At
  rw [Chk.add_ok (Nat.lt_of_le_of_lt hPos hBuf)]
  show Chk.ofFormat (readU64Le buf (at' + k)) = _
  rw [readU64Le_at h hPos hv]
  rfl

theorem Chk.of_u32At {buf : List UInt8} {at' k : Nat} {x : UInt32}
    (h : Chk.u32At buf at' k = .ok x) :
    At buf (at' + k) (leBytes 4 x.toNat) ∧ at' + k + 4 ≤ buf.length := by
  obtain ⟨p, hAdd, hRead⟩ := Chk.bind_ok h
  rw [Chk.add_eq_ok hAdd] at hRead
  exact At.of_readU32Le (Chk.ofFormat_ok hRead)

theorem Chk.of_u64At {buf : List UInt8} {at' k v : Nat} (h : Chk.u64At buf at' k = .ok v) :
    At buf (at' + k) (leBytes 8 v) ∧ at' + k + 8 ≤ buf.length ∧ v < 2 ^ 64 := by
  obtain ⟨p, hAdd, hRead⟩ := Chk.bind_ok h
  rw [Chk.add_eq_ok hAdd] at hRead
  exact At.of_readU64Le (Chk.ofFormat_ok hRead)

theorem At.bound {buf bs : List UInt8} {pos : Nat} (h : At buf pos bs) (hne : bs ≠ []) :
    pos + bs.length ≤ buf.length := by
  obtain ⟨rest, hRest⟩ := h
  have hLengths := congrArg List.length hRest
  have hPos := List.length_pos_iff.mpr hne
  rw [List.length_drop, List.length_append] at hLengths
  omega

theorem Chk.index_at {buf bs : List UInt8} {pos : Nat} {b : UInt8} (h : At buf pos (b :: bs)) :
    Chk.index buf pos = .ok b := by
  obtain ⟨rest, hRest⟩ := h
  have hGet : buf[pos]? = some b := by
    have hHead := congrArg List.head? hRest
    rwa [List.head?_drop] at hHead
  rw [Chk.index, hGet]

theorem Chk.range_at {buf bs : List UInt8} {pos : Nat} (h : At buf pos bs) (hne : bs ≠ []) :
    Chk.range buf pos (pos + bs.length) = .ok bs := by
  rw [Chk.range_ok (Nat.le_add_right _ _) (h.bound hne)]
  obtain ⟨rest, hRest⟩ := h
  rw [List.drop_take, Nat.add_sub_cancel_left, hRest, List.take_left]

/-- A field and what stands behind it. -/
theorem At.field {buf bs : List UInt8} {pos n v : Nat} (h : At buf pos (leBytes n v))
    (hs : At buf (pos + n) bs) : At buf pos (leBytes n v ++ bs) := by
  refine h.cat ?_
  rw [length_leBytes]
  exact hs

theorem At.behind {buf bs : List UInt8} {pos n v : Nat} (h : At buf pos (leBytes n v ++ bs)) :
    At buf (pos + n) bs := by
  have hRight := h.right
  rw [length_leBytes] at hRight
  exact hRight

-- ---------------------------------------------------------------------------
-- Records and heaps
-- ---------------------------------------------------------------------------

section Layout

variable {α : Type}

/-- Each item with where it starts in a heap that has `off` bytes before the first. -/
def heapOffsets (size : α → Nat) (off : Nat) : List α → List (Nat × α)
  | [] => []
  | x :: xs => (off, x) :: heapOffsets size (off + size x) xs

theorem length_heapOffsets (size : α → Nat) (off : Nat) (xs : List α) :
    (heapOffsets size off xs).length = xs.length := by
  induction xs generalizing off with
  | nil => rfl
  | cons x xs ih => rw [heapOffsets, List.length_cons, List.length_cons, ih]

theorem map_snd_heapOffsets (size : α → Nat) (off : Nat) (xs : List α) :
    (heapOffsets size off xs).map Prod.snd = xs := by
  induction xs generalizing off with
  | nil => rfl
  | cons x xs ih => rw [heapOffsets, List.map_cons, ih]

/-- An item stands in the heap where its offset says. -/
theorem at_heap {bytes : α → List UInt8} {buf : List UInt8} {xs : List α} {off o : Nat} {x : α}
    (h : At buf off (xs.flatMap bytes))
    (hx : (o, x) ∈ heapOffsets (fun y => (bytes y).length) off xs) :
    At buf o (bytes x) ∧ o + (bytes x).length ≤ off + (xs.flatMap bytes).length := by
  induction xs generalizing off with
  | nil => cases hx
  | cons y xs ih =>
    rw [List.flatMap_cons] at h
    rw [List.flatMap_cons, List.length_append]
    rcases List.mem_cons.mp hx with hEq | hx
    · obtain ⟨rfl, rfl⟩ := Prod.mk.inj hEq
      exact ⟨h.left, by omega⟩
    · obtain ⟨hAt, hLe⟩ := ih h.right hx
      exact ⟨hAt, by omega⟩

/-- A record of a table with records of one size. -/
theorem at_record {bytes : α → List UInt8} {buf : List UInt8} {xs : List α} {pos n i : Nat} {x : α}
    (h : At buf pos (xs.flatMap bytes)) (hn : ∀ y, (bytes y).length = n) (hx : xs[i]? = some x) :
    At buf (pos + i * n) (bytes x) := by
  induction xs generalizing pos i with
  | nil => cases hx
  | cons y xs ih =>
    rw [List.flatMap_cons] at h
    cases i with
    | zero =>
      obtain rfl := Option.some.inj hx
      rw [Nat.zero_mul]
      exact h.left
    | succ i =>
      have hRest := ih h.right hx
      rw [hn, Nat.add_assoc] at hRest
      rw [Nat.succ_mul, Nat.add_comm (i * n)]
      exact hRest

theorem length_records {bytes : α → List UInt8} {n : Nat} (hn : ∀ y, (bytes y).length = n)
    (xs : List α) : (xs.flatMap bytes).length = xs.length * n := by
  induction xs with
  | nil => exact (Nat.zero_mul n).symm
  | cons x xs ih =>
    rw [List.flatMap_cons, List.length_append, hn, ih, List.length_cons, Nat.succ_mul,
      Nat.add_comm]

end Layout

/-- A text is read from the heap where it stands. -/
theorem heapText_at {paths : List UInt8} {off : Nat} {path : String}
    (h : At paths off path.toUTF8.toList) (hLe : off + path.utf8ByteSize ≤ paths.length)
    (hBound : paths.length < 2 ^ 32) :
    heapText paths (UInt32.ofNat off) (UInt32.ofNat path.utf8ByteSize) = some path := by
  have hOff : (UInt32.ofNat off).toNat = off :=
    UInt32.toNat_ofNat_of_lt' (show off < 2 ^ 32 by omega)
  have hLen : (UInt32.ofNat path.utf8ByteSize).toNat = path.utf8ByteSize :=
    UInt32.toNat_ofNat_of_lt' (show path.utf8ByteSize < 2 ^ 32 by omega)
  obtain ⟨rest, hRest⟩ := h
  unfold heapText
  rw [hOff, hLen, if_pos hLe, hRest, ← String.length_toUTF8_toList, List.take_left,
    ByteArray.toByteArray_toList]
  exact String.fromUTF8?_toUTF8 path

-- ---------------------------------------------------------------------------
-- The envelope
-- ---------------------------------------------------------------------------

/-- What the machine parses is an envelope. -/
theorem Checked.parse_ok {kind : Kind} {bytes : List UInt8} {env : Envelope}
    (h : Checked.parse kind bytes = .ok env) : Envelope.parse kind bytes = .ok env := by
  unfold Checked.parse at h
  by_cases hShort : bytes.length < headerLen + footerLen
  · rw [if_pos hShort] at h
    cases h
  rw [if_neg hShort] at h
  have hRange : ∀ start stop bs, Chk.range bytes start stop = .ok bs →
      bs = (bytes.take stop).drop start := by
    intro start stop bs hBytes
    unfold Chk.range at hBytes
    split_ifs at hBytes
    exact (Except.ok.inj hBytes).symm
  have hSub : ∀ a b c, Chk.sub a b = .ok c → c = a - b := by
    intro a b c hc
    unfold Chk.sub at hc
    split_ifs at hc
    exact (Except.ok.inj hc).symm
  obtain ⟨magic, hMagic, h⟩ := Chk.bind_ok h
  by_cases hMagicEq : magic ≠ kind.magic
  · rw [if_pos hMagicEq] at h
    cases h
  rw [if_neg hMagicEq] at h
  obtain ⟨version, hVersion, h⟩ := Chk.bind_ok h
  by_cases hVersionEq : version ≠ formatVersion
  · rw [if_pos hVersionEq] at h
    cases h
  rw [if_neg hVersionEq] at h
  obtain ⟨flags, hFlags, h⟩ := Chk.bind_ok h
  by_cases hFlagsEq : flags ≠ 0
  · rw [if_pos hFlagsEq] at h
    cases h
  rw [if_neg hFlagsEq] at h
  obtain ⟨footerAt, hFooter, h⟩ := Chk.bind_ok h
  obtain ⟨magicAt, hAt, h⟩ := Chk.bind_ok h
  obtain ⟨tail, hTail, h⟩ := Chk.bind_ok h
  by_cases hTailEq : tail ≠ "FSRF".toUTF8.toList
  · rw [if_pos hTailEq] at h
    cases h
  rw [if_neg hTailEq] at h
  obtain ⟨bodyLen, hLen, h⟩ := Chk.bind_ok h
  obtain ⟨behind, hBehind, h⟩ := Chk.bind_ok h
  obtain ⟨between, hBetween, h⟩ := Chk.bind_ok h
  by_cases hLenEq : bodyLen ≠ between
  · rw [if_pos hLenEq] at h
    cases h
  rw [if_neg hLenEq] at h
  obtain ⟨crc, hCrc, h⟩ := Chk.bind_ok h
  obtain rfl := Except.ok.inj h
  obtain ⟨crcAt, hCrcAt, hCrcRead⟩ := Chk.bind_ok hCrc
  -- Every test of `parse` has passed, on the same values.
  obtain rfl := hSub _ _ _ hFooter
  obtain rfl := Chk.add_eq_ok hAt
  obtain rfl := hSub _ _ _ hBehind
  obtain rfl := hSub _ _ _ hBetween
  obtain rfl := Chk.add_eq_ok hCrcAt
  rw [not_not] at hMagicEq hVersionEq hFlagsEq hTailEq hLenEq
  have hMagic' : bytes.take 8 = kind.magic := by
    rw [← hMagicEq, hRange _ _ _ hMagic, List.drop_zero]
  have hTail' : bytes.drop (bytes.length - footerLen + 12) = "FSRF".toUTF8.toList := by
    rw [← hTailEq, hRange _ _ _ hTail, List.take_length]
  unfold Envelope.parse
  rw [if_neg hShort, if_neg (not_not_intro hMagic')]
  simp only [Chk.ofFormat_ok hVersion, Chk.ofFormat_ok hFlags, Chk.ofFormat_ok hLen,
    Chk.ofFormat_ok hCrcRead, bind, Except.bind]
  rw [if_neg (not_not_intro hVersionEq), if_neg (not_not_intro hFlagsEq),
    if_neg (not_not_intro hTail'), if_neg (not_not_intro hLenEq)]

/-- The parts of a file whose envelope is accepted. -/
theorem Envelope.parts_of_parse {kind : Kind} {bytes : List UInt8} {env : Envelope}
    (h : Envelope.parse kind bytes = .ok env) :
    bytes.take 8 = kind.magic ∧ readU32Le bytes 8 = .ok formatVersion ∧
      readU32Le bytes 12 = .ok 0 ∧ env.bodyEnd + footerLen = bytes.length ∧
      headerLen ≤ env.bodyEnd ∧ readU64Le bytes env.bodyEnd = .ok (env.bodyEnd - headerLen) ∧
      readU32Le bytes (env.bodyEnd + 8) = .ok env.crc ∧
      bytes.drop (env.bodyEnd + 12) = "FSRF".toUTF8.toList := by
  obtain ⟨hEnd, hHeader⟩ := Checked.bodyEnd_of_parse h
  have hFooter : bytes.length - footerLen = env.bodyEnd := by omega
  unfold Envelope.parse at h
  by_cases hShort : bytes.length < headerLen + footerLen
  · rw [if_pos hShort] at h
    cases h
  rw [if_neg hShort] at h
  simp only [hFooter, bind, Except.bind] at h
  -- Without one of the reads there is no envelope.
  rcases hVersion : readU32Le bytes 8 with e | version <;>
    rcases hFlags : readU32Le bytes 12 with e' | flags <;>
    rcases hLen : readU64Le bytes env.bodyEnd with e'' | bodyLen <;>
    rcases hCrc : readU32Le bytes (env.bodyEnd + 8) with e''' | crc <;>
    simp only [hVersion, hFlags, hLen, hCrc] at h <;> split_ifs at h
  rename_i hMagic hVersionEq hFlagsEq hTail hBodyLen
  rw [not_not] at hMagic hVersionEq hFlagsEq hTail hBodyLen
  have hCrcEq : crc = env.crc := congrArg Envelope.crc (Except.ok.inj h)
  refine ⟨hMagic, by rw [hVersionEq], by rw [hFlagsEq], hEnd, hHeader, ?_, by rw [hCrcEq], hTail⟩
  rw [hBodyLen]
  congr 1
  omega

theorem length_header (kind : Kind) : (header kind formatVersion).length = headerLen := by
  rw [header, List.length_append, List.length_append, kind.length_magic, u32Bytes, u32Bytes,
    length_leBytes, length_leBytes]
  rfl

variable [Platform]

/-- A file with a valid envelope is its body, sealed. -/
theorem Envelope.eq_sealBody {kind : Kind} {bytes : List UInt8} {env : Envelope}
    (h : Envelope.parse kind bytes = .ok env) (hCrc : env.verifyCrc bytes = .ok ()) :
    bytes = sealBody kind formatVersion (env.body bytes) := by
  obtain ⟨hMagic, hVersion, hFlags, hEnd, hHeader, hBodyLen, hStored, hTail⟩ :=
    Envelope.parts_of_parse h
  have hSum : Platform.crc32 (env.body bytes) = env.crc := by
    by_contra hNe
    rw [Envelope.verifyCrc, if_neg hNe] at hCrc
    cases hCrc
  have hLenBody : (env.body bytes).length = env.bodyEnd - headerLen := by
    rw [Envelope.body, List.length_drop, List.length_take]
    omega
  have hAtMagic : At bytes 0 kind.magic := ⟨bytes.drop 8, by
    rw [← hMagic, List.drop_zero, List.take_append_drop]⟩
  have hAtVersion := (At.of_readU32Le hVersion).1
  have hAtFlags := (At.of_readU32Le hFlags).1
  have hAtBody : At bytes headerLen (env.body bytes) := At.of_take hHeader
  obtain ⟨hAtLen, -, hLt⟩ := At.of_readU64Le hBodyLen
  have hAtCrc := (At.of_readU32Le hStored).1
  have hAtTail : At bytes (env.bodyEnd + 12) "FSRF".toUTF8.toList :=
    ⟨[], by rw [hTail, List.append_nil]⟩
  have hU64 : (UInt64.ofNat (env.body bytes).length).toNat = env.bodyEnd - headerLen := by
    rw [hLenBody]
    exact UInt64.toNat_ofNat_of_lt' hLt
  -- The parts follow one another.
  have hFooterAt : At bytes env.bodyEnd (footer (UInt64.ofNat (env.body bytes).length)
      (Platform.crc32 (env.body bytes))) := by
    rw [footer, u64Bytes, u32Bytes, hU64, hSum]
    refine At.cat (At.cat hAtLen ?_) ?_
    · rw [length_leBytes]
      exact hAtCrc
    · rw [List.length_append, length_leBytes, length_leBytes]
      exact hAtTail
  have hHeaderAt : At bytes 0 (header kind formatVersion) := by
    rw [header]
    refine At.cat (At.cat hAtMagic ?_) ?_
    · rw [kind.length_magic]
      exact hAtVersion
    · rw [List.length_append, kind.length_magic, u32Bytes, length_leBytes]
      exact hAtFlags
  refine At.eq_of_length ?_ ?_
  · rw [sealBody]
    refine At.cat (At.cat hHeaderAt ?_) ?_
    · rw [length_header, Nat.zero_add]
      exact hAtBody
    · have hBehind : 0 + (header kind formatVersion ++ env.body bytes).length = env.bodyEnd := by
        rw [List.length_append, length_header, hLenBody, Nat.zero_add,
          Nat.add_sub_cancel' hHeader]
      rw [hBehind]
      exact hFooterAt
  · rw [length_sealBody, hLenBody, Nat.add_sub_cancel' hHeader]
    exact hEnd

/-- The body of a sealed file. -/
theorem Envelope.body_sealBody (kind : Kind) {body : List UInt8}
    (hLen : (sealBody kind formatVersion body).length < 2 ^ 64) :
    Envelope.body ⟨headerLen + body.length, Platform.crc32 body⟩
      (sealBody kind formatVersion body) = body := by
  obtain ⟨-, -, hTake, -⟩ := Envelope.parse_sealBody kind hLen
  rw [Envelope.body, hTake, ← length_header kind, List.drop_left]

/-- A sealed file is opened, with its checksum. -/
theorem parseVerified_sealBody (kind : Kind) {body : List UInt8}
    (hLen : (sealBody kind formatVersion body).length < 2 ^ 64) :
    Checked.parseVerified kind (sealBody kind formatVersion body) =
        .ok ⟨headerLen + body.length, Platform.crc32 body⟩ ∧
      Chk.range (sealBody kind formatVersion body) headerLen (headerLen + body.length) =
        .ok body := by
  obtain ⟨hLength, hParse, -, -⟩ := Envelope.parse_sealBody kind hLen
  have hBody := Envelope.body_sealBody kind hLen
  have hRange : Chk.range (sealBody kind formatVersion body) headerLen
      (headerLen + body.length) = .ok body := by
    rw [Chk.range_ok (Nat.le_add_right _ _) (by omega)]
    exact congrArg Except.ok hBody
  refine ⟨?_, hRange⟩
  unfold Checked.parseVerified
  rw [Format.Checked.parse_eq kind hLen, hParse]
  simp only [Chk.ofFormat, bind, Except.bind, hRange]
  rw [if_neg (not_not_intro rfl)]

/-- The body stands behind the header. -/
theorem at_sealBody (kind : Kind) (body : List UInt8) :
    At (sealBody kind formatVersion body) 16 body := by
  have hAt := At.of_append (header kind formatVersion) body
    (footer (UInt64.ofNat body.length) (Platform.crc32 body))
  rw [length_header, ← List.append_assoc] at hAt
  exact hAt

/-- A file that is opened with its checksum is its body, sealed. -/
theorem eq_sealBody_of_parseVerified {kind : Kind} {bytes : List UInt8} {env : Envelope}
    (h : Checked.parseVerified kind bytes = .ok env) :
    bytes = sealBody kind formatVersion (env.body bytes) ∧
      Chk.range bytes headerLen env.bodyEnd = .ok (env.body bytes) := by
  obtain ⟨env', hParse, h⟩ := Chk.bind_ok h
  replace hParse := Checked.parse_ok hParse
  obtain ⟨hEnd, hHeader⟩ := Checked.bodyEnd_of_parse hParse
  obtain ⟨body, hRange, h⟩ := Chk.bind_ok h
  have hBody : Chk.range bytes headerLen env'.bodyEnd = .ok (env'.body bytes) :=
    Chk.range_ok hHeader (by omega)
  obtain rfl := Except.ok.inj (hBody.symm.trans hRange)
  by_cases hCrc : Platform.crc32 (env'.body bytes) ≠ env'.crc
  · rw [if_pos hCrc] at h
    cases h
  rw [if_neg hCrc] at h
  obtain rfl := Except.ok.inj h
  exact ⟨Envelope.eq_sealBody hParse (if_pos (not_not.mp hCrc)), hBody⟩

end Ripindex.Format
