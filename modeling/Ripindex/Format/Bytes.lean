import Ripindex.Format.Varint

/-!
# Bounds-checked reads

The reading half of `format/mod.rs` and `format/envelope.rs`. A reader ends with a value, with
an error, or with the panic of an overflowing addition.
-/

namespace Ripindex.Format

/-- How a reader ends without a value. -/
inductive Stop
  | panic
  | err (e : FormatError)
  deriving DecidableEq, Repr

abbrev Chk (α : Type) := Except Stop α

namespace Chk

variable {α : Type}

def corrupt (reason : String) : Chk α := .error (.err (.corrupt reason))

def ofFormat : Except FormatError α → Chk α
  | .ok a => .ok a
  | .error e => .error (.err e)

/-- The sum of two numbers of 64 bits. -/
def add (a b : Nat) : Chk Nat := if a + b < 2 ^ 64 then .ok (a + b) else .error .panic

/-- Their difference. -/
def sub (a b : Nat) : Chk Nat := if b ≤ a then .ok (a - b) else .error .panic

theorem add_ok {a b : Nat} (h : a + b < 2 ^ 64) : add a b = .ok (a + b) := if_pos h

theorem sub_ok {a b : Nat} (h : b ≤ a) : sub a b = .ok (a - b) := if_pos h

end Chk

/-- `slice`; its checked addition and its bounds fail alike. -/
def slice (buf : List UInt8) (at' len : Nat) : Except FormatError (List UInt8) :=
  if at' + len ≤ buf.length then .ok ((buf.drop at').take len) else .error .truncated

/-- The value of little-endian bytes. -/
def leValue : List UInt8 → Nat
  | [] => 0
  | b :: bs => b.toNat + 256 * leValue bs

def readU32Le (buf : List UInt8) (at' : Nat) : Except FormatError UInt32 := do
  let bs ← slice buf at' 4
  pure (UInt32.ofNat (leValue bs))

/-- `read_u64_le`. -/
def readU64Le (buf : List UInt8) (at' : Nat) : Except FormatError Nat := do
  let bs ← slice buf at' 8
  pure (leValue bs)

def footerLen : Nat := 16

/-- Where the body ends, and the stored checksum; it starts behind the header. -/
structure Envelope where
  bodyEnd : Nat
  crc : UInt32

namespace Envelope

/-- Magic, version, flags, footer magic and the length of the body. -/
def parse (kind : Kind) (bytes : List UInt8) : Except FormatError Envelope :=
  if bytes.length < headerLen + footerLen then .error .truncated
  else if bytes.take 8 ≠ kind.magic then .error .badMagic
  else do
    let version ← readU32Le bytes 8
    if version ≠ formatVersion then .error (.version version)
    else
      let flags ← readU32Le bytes 12
      if flags ≠ 0 then .error (.corrupt "non-zero header flags")
      else
        let footerAt := bytes.length - footerLen
        if bytes.drop (footerAt + 12) ≠ "FSRF".toUTF8.toList then
          .error (.corrupt "bad footer magic")
        else
          let bodyLen ← readU64Le bytes footerAt
          if bodyLen ≠ bytes.length - headerLen - footerLen then
            let len := bytes.length
            .error (.corrupt s!"body_len {bodyLen} does not match file length {len}")
          else
            let crc ← readU32Le bytes (footerAt + 8)
            .ok ⟨footerAt, crc⟩

/-- The bytes between header and footer. -/
def body (env : Envelope) (bytes : List UInt8) : List UInt8 :=
  (bytes.take env.bodyEnd).drop headerLen

def verifyCrc [Platform] (env : Envelope) (bytes : List UInt8) : Except FormatError Unit :=
  if Platform.crc32 (env.body bytes) = env.crc then .ok () else .error .checksum

end Envelope

-- ---------------------------------------------------------------------------
-- Reading back
-- ---------------------------------------------------------------------------

theorem length_leBytes (n v : Nat) : (leBytes n v).length = n := by
  induction n generalizing v with
  | zero => rfl
  | succ n ih => rw [leBytes, List.length_cons, ih]

theorem leValue_leBytes (n v : Nat) : leValue (leBytes n v) = v % 256 ^ n := by
  induction n generalizing v with
  | zero => rw [leBytes, leValue, Nat.pow_zero, Nat.mod_one]
  | succ n ih =>
    have hByte : (UInt8.ofNat v).toNat = v % 256 := UInt8.toNat_ofNat
    rw [leBytes, leValue, ih, hByte, Nat.pow_succ', Nat.mod_mul]

theorem slice_at {buf : List UInt8} {pos : Nat} {bytes : List UInt8} (h : At buf pos bytes)
    (hPos : pos ≤ buf.length) : slice buf pos bytes.length = .ok bytes := by
  unfold slice
  rw [if_pos (h.length_le hPos)]
  obtain ⟨rest, hRest⟩ := h
  rw [hRest, List.take_left]

theorem readU32Le_at {buf : List UInt8} {pos v : Nat} (h : At buf pos (leBytes 4 v))
    (hPos : pos ≤ buf.length) (hv : v < 2 ^ 32) :
    readU32Le buf pos = .ok (UInt32.ofNat v) := by
  have hSlice := slice_at h hPos
  rw [length_leBytes] at hSlice
  unfold readU32Le
  rw [hSlice]
  show Except.ok (UInt32.ofNat (leValue (leBytes 4 v))) = _
  have hPow : 2 ^ 32 = 256 ^ 4 := by decide
  rw [leValue_leBytes, Nat.mod_eq_of_lt (Nat.lt_of_lt_of_eq hv hPow)]

theorem readU64Le_at {buf : List UInt8} {pos v : Nat} (h : At buf pos (leBytes 8 v))
    (hPos : pos ≤ buf.length) (hv : v < 2 ^ 64) : readU64Le buf pos = .ok v := by
  have hSlice := slice_at h hPos
  rw [length_leBytes] at hSlice
  unfold readU64Le
  rw [hSlice]
  show Except.ok (leValue (leBytes 8 v)) = _
  have hPow : 2 ^ 64 = 256 ^ 8 := by decide
  rw [leValue_leBytes, Nat.mod_eq_of_lt (Nat.lt_of_lt_of_eq hv hPow)]

theorem Kind.length_magic (kind : Kind) : kind.magic.length = 8 := by
  cases kind <;> decide +kernel

theorem length_sealBody [Platform] (kind : Kind) (body : List UInt8) :
    (sealBody kind formatVersion body).length = headerLen + body.length + footerLen := by
  have hMagic := kind.length_magic
  have hTail : ("FSRF".toUTF8.toList).length = 4 := by decide +kernel
  simp only [sealBody, header, footer, u64Bytes, u32Bytes, List.length_append, hMagic,
    length_leBytes, hTail]
  rfl

/-- A sealed file is parsed, and has its checksum. -/
theorem Envelope.parse_sealBody [Platform] (kind : Kind) {body : List UInt8}
    (hLen : (sealBody kind formatVersion body).length < 2 ^ 64) :
    (sealBody kind formatVersion body).length = headerLen + body.length + footerLen ∧
    Envelope.parse kind (sealBody kind formatVersion body) =
      .ok ⟨headerLen + body.length, Platform.crc32 body⟩ ∧
    (sealBody kind formatVersion body).take (headerLen + body.length) =
      header kind formatVersion ++ body ∧
    (⟨headerLen + body.length, Platform.crc32 body⟩ : Envelope).verifyCrc
      (sealBody kind formatVersion body) = .ok () := by
  have hMagic := kind.length_magic
  have hTail : ("FSRF".toUTF8.toList).length = 4 := by decide +kernel
  generalize hT : "FSRF".toUTF8.toList = tail at hTail
  generalize hC : Platform.crc32 body = crc
  generalize hFile : sealBody kind formatVersion body = file at hLen
  have hEq : file = kind.magic ++ (leBytes 4 2 ++ (leBytes 4 0 ++ (body ++
      (leBytes 8 (UInt64.ofNat body.length).toNat ++ (leBytes 4 crc.toNat ++ tail))))) := by
    rw [← hFile, ← hC, ← hT, sealBody, header, footer, u64Bytes, u32Bytes, u32Bytes, u32Bytes]
    simp only [List.append_assoc]
    rfl
  have hTotal : file.length = 16 + body.length + 16 := hFile ▸ length_sealBody kind body
  have hBody64 : (UInt64.ofNat body.length).toNat = body.length :=
    UInt64.toNat_ofNat_of_lt' (by
      show body.length < 2 ^ 64
      omega)
  rw [hBody64] at hEq
  -- The fields one after the other.
  have h0 := At.of_eq hEq
  have h8 := h0.right
  have h12 := h8.right
  have h16 := h12.right
  have hFoot := h16.right
  have hFootCrc := hFoot.right
  simp only [hMagic, length_leBytes] at h8 h12 h16 hFoot hFootCrc
  have hVersion : readU32Le file 8 = .ok 2 := readU32Le_at h8.left (by omega) (by decide)
  have hFlags : readU32Le file 12 = .ok 0 := readU32Le_at h12.left (by omega) (by decide)
  have hBodyLen := readU64Le_at hFoot.left (by omega) (by omega)
  have hCrc := readU32Le_at hFootCrc.left (by omega) crc.toNat_lt
  rw [UInt32.ofNat_toNat] at hCrc
  have hTake : file.take (16 + body.length) =
      kind.magic ++ (leBytes 4 2 ++ (leBytes 4 0 ++ body)) := by
    have hSplit : file = (kind.magic ++ (leBytes 4 2 ++ (leBytes 4 0 ++ body))) ++
        (leBytes 8 body.length ++ (leBytes 4 crc.toNat ++ tail)) := by
      rw [hEq]
      simp only [List.append_assoc]
    rw [hSplit]
    refine List.take_left' ?_
    simp only [List.length_append, hMagic, length_leBytes]
    omega
  have hMagicEq : file.take 8 = kind.magic := by
    rw [hEq]
    exact List.take_left' hMagic
  have hTailEq : file.drop (16 + body.length + 12) = tail := by
    have hSplit : file = (kind.magic ++ (leBytes 4 2 ++ (leBytes 4 0 ++ (body ++
        (leBytes 8 body.length ++ leBytes 4 crc.toNat))))) ++ tail := by
      rw [hEq]
      simp only [List.append_assoc]
    rw [hSplit]
    refine List.drop_left' ?_
    simp only [List.length_append, hMagic, length_leBytes]
    omega
  have hFooterAt : file.length - footerLen = 16 + body.length := by
    unfold footerLen
    omega
  refine ⟨hTotal, ?_, ?_, ?_⟩
  · have hShort : ¬ file.length < headerLen + footerLen := by
      unfold headerLen footerLen
      omega
    have hInner : file.length - headerLen - footerLen = body.length := by
      unfold headerLen footerLen
      omega
    unfold parse
    rw [if_neg hShort, if_neg (not_not_intro hMagicEq), hFooterAt, hT, hInner]
    simp only [bind, Except.bind, hVersion, hFlags]
    rw [if_neg (by decide), if_neg (by decide), if_neg (not_not_intro hTailEq)]
    have hAt1 : readU64Le file (16 + body.length) = .ok body.length := by
      rwa [show 0 + 8 + 4 + 4 + body.length = 16 + body.length by omega] at hBodyLen
    have hAt2 : readU32Le file (16 + body.length + 8) = .ok crc := by
      rwa [show 0 + 8 + 4 + 4 + body.length + 8 = 16 + body.length + 8 by omega] at hCrc
    simp only [hAt1, hAt2]
    rw [if_neg (not_not_intro rfl)]
    rfl
  · show file.take (16 + body.length) = _
    rw [hTake, header]
    simp only [List.append_assoc]
    rfl
  · unfold verifyCrc Envelope.body
    show (if Platform.crc32 ((file.take (16 + body.length)).drop 16) = crc then _ else _) = _
    have hDrop : (file.take (16 + body.length)).drop 16 = body := by
      have hSplit : kind.magic ++ (leBytes 4 2 ++ (leBytes 4 0 ++ body)) =
          (kind.magic ++ (leBytes 4 2 ++ leBytes 4 0)) ++ body := by
        simp only [List.append_assoc]
      rw [hTake, hSplit]
      refine List.drop_left' ?_
      simp only [List.length_append, hMagic, length_leBytes]
    rw [hDrop, if_pos hC]

end Ripindex.Format
