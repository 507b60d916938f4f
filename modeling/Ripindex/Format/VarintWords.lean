import Ripindex.Format.Varint
import Ripindex.Lib.Leb128
import Mathlib.Tactic.Ring

/-!
# Varints in machine words

`format/varint.rs` as it computes: on words of 64 bits, with masks and shifts. The loop of
`read_u64` shifts the bits of a byte into the word, and its two checks on the shift have to keep
every bit in it.

## Results

* `readU64_eq`, `putU64_eq` — the words hold the numbers of `Format.readU64` and `putVarint`;
* `readU64_ok_iff`, `readU32_ok_iff` — what is read are the strings of ten bytes at most whose
  value fits the word;
* `readU64_putU64`, `readSeq_putU64` — what is written is read back, in whatever it stands.
-/

namespace Ripindex.Format.Varint

/-- `put_u64`. -/
def putU64 (v : UInt64) : List UInt8 :=
  let byte := (v &&& 0x7f).toUInt8
  if v >>> 7 = 0 then [byte] else (byte ||| 0x80) :: putU64 (v >>> 7)
termination_by v.toNat
decreasing_by
  have hShift : (v >>> 7).toNat = v.toNat / 128 := by
    simp [UInt64.toNat_shiftRight, Nat.shiftRight_eq_div_pow]
  have hNe : (v >>> 7).toNat ≠ 0 := fun h => by
    exact ‹¬ v >>> 7 = 0› (UInt64.toNat_inj.mp h)
  omega

/-- `put_u32`. -/
def putU32 (v : UInt32) : List UInt8 := putU64 v.toUInt64

/-- The loop of `read_u64`, with the position it leaves behind. -/
def readU64From (buf : List UInt8) (pos : Nat) (v : UInt64) (shift : Nat) :
    Except FormatError UInt64 × Nat :=
  match buf[pos]? with
  | none => (.error .truncated, pos)
  | some byte =>
    let pos := pos + 1
    if shift = 63 ∧ 1 < byte then (.error (.corrupt "varint overflows u64"), pos)
    else
      let v := v ||| (byte &&& 0x7f).toUInt64 <<< UInt64.ofNat shift
      if byte &&& 0x80 = 0 then (.ok v, pos)
      else
        let shift := shift + 7
        if 63 < shift then (.error (.corrupt "varint longer than 10 bytes"), pos)
        else readU64From buf pos v shift
termination_by 70 - shift

/-- `read_u64`. -/
def readU64 (buf : List UInt8) (pos : Nat) : Except FormatError UInt64 × Nat :=
  readU64From buf pos 0 0

/-- `read_u32`. -/
def readU32 (buf : List UInt8) (pos : Nat) : Except FormatError UInt32 × Nat :=
  match readU64 buf pos with
  | (.error e, pos) => (.error e, pos)
  | (.ok v, pos) =>
    if v.toNat < 2 ^ 32 then (.ok v.toUInt32, pos)
    else (.error (.corrupt "varint exceeds u32"), pos)

-- ---------------------------------------------------------------------------
-- Words and numbers
-- ---------------------------------------------------------------------------

theorem toNat_shiftRight_seven (v : UInt64) : (v >>> 7).toNat = v.toNat / 128 := by
  simp [UInt64.toNat_shiftRight, Nat.shiftRight_eq_div_pow]

theorem toNat_low (v : UInt64) : (v &&& 0x7f).toUInt8 = UInt8.ofNat (v.toNat % 128) := by
  apply UInt8.toNat_inj.mp
  have hMask : (0x7f : UInt64).toNat = 2 ^ 7 - 1 := rfl
  rw [UInt64.toNat_toUInt8, UInt64.toNat_and, hMask, Nat.and_two_pow_sub_one_eq_mod,
    UInt8.toNat_ofNat']

theorem ofNat_or_high {x : Nat} (h : x < 128) :
    UInt8.ofNat x ||| 0x80 = UInt8.ofNat (x + 128) := by
  apply UInt8.toNat_inj.mp
  have hHigh : (0x80 : UInt8).toNat = 2 ^ 7 * 1 := rfl
  have hSmall : (UInt8.ofNat x).toNat = x := UInt8.toNat_ofNat_of_lt' (by
    show x < 2 ^ 8
    omega)
  have hSum : (UInt8.ofNat (x + 128)).toNat = x + 128 := UInt8.toNat_ofNat_of_lt' (by
    show x + 128 < 2 ^ 8
    omega)
  rw [UInt8.toNat_or, hSmall, hSum, hHigh, Nat.or_comm, ← Nat.two_pow_add_eq_or_of_lt h]
  omega

theorem toNat_low_byte (b : UInt8) : (b &&& 0x7f).toNat = b.toNat % 128 := by
  have hMask : (0x7f : UInt8).toNat = 2 ^ 7 - 1 := rfl
  rw [UInt8.toNat_and, hMask, Nat.and_two_pow_sub_one_eq_mod]

/-- The continuation bit. -/
theorem high_eq_zero (b : UInt8) : b &&& 0x80 = 0 ↔ b < 128 := by
  have hAll : ∀ i : Fin 256, UInt8.ofNat i &&& 0x80 = 0 ↔ UInt8.ofNat i < 128 := by
    decide +kernel
  have hByte := hAll ⟨b.toNat, b.toNat_lt⟩
  rwa [UInt8.ofNat_toNat] at hByte

/-- Bits above those of `v` that fit the word are added to it. -/
theorem toNat_or_shift {v : UInt64} {b : UInt8} {shift : Nat} (hShift : shift < 64)
    (hv : v.toNat < 2 ^ shift) (hFits : b.toNat % 128 * 2 ^ shift < 2 ^ 64) :
    (v ||| (b &&& 0x7f).toUInt64 <<< UInt64.ofNat shift).toNat =
      v.toNat + b.toNat % 128 * 2 ^ shift := by
  have hWord : (UInt64.ofNat shift).toNat = shift := UInt64.toNat_ofNat_of_lt' (by
    show shift < 2 ^ 64
    omega)
  rw [UInt64.toNat_or, UInt64.toNat_shiftLeft, UInt8.toNat_toUInt64, toNat_low_byte, hWord,
    Nat.mod_eq_of_lt hShift, Nat.shiftLeft_eq, Nat.mod_eq_of_lt hFits, Nat.or_comm,
    Nat.mul_comm, ← Nat.two_pow_add_eq_or_of_lt hv]
  omega

/-- The words of the encoder are the numbers of `putVarintFuel`. -/
theorem putU64_eq_fuel {f : Nat} {v : UInt64} (h : v.toNat < 2 ^ (7 * (f + 1))) :
    putU64 v = putVarintFuel f v.toNat := by
  induction f generalizing v with
  | zero =>
    have hSmall : v.toNat < 128 := h
    have hZero : v >>> 7 = 0 := UInt64.toNat_inj.mp (by
      rw [toNat_shiftRight_seven, Nat.div_eq_of_lt hSmall]
      rfl)
    rw [putU64, if_pos hZero, toNat_low, Nat.mod_eq_of_lt hSmall, putVarintFuel]
  | succ f ih =>
    by_cases hSmall : v.toNat < 128
    · have hZero : v >>> 7 = 0 := UInt64.toNat_inj.mp (by
        rw [toNat_shiftRight_seven, Nat.div_eq_of_lt hSmall]
        rfl)
      rw [putU64, if_pos hZero, toNat_low, Nat.mod_eq_of_lt hSmall, putVarintFuel,
        if_pos hSmall]
    · have hNe : ¬ v >>> 7 = 0 := by
        intro hZero
        have hNat := congrArg UInt64.toNat hZero
        rw [toNat_shiftRight_seven] at hNat
        have hQuot : v.toNat / 128 = 0 := hNat
        omega
      have hRest : (v >>> 7).toNat < 2 ^ (7 * (f + 1)) := by
        rw [toNat_shiftRight_seven, Nat.div_lt_iff_lt_mul (by decide)]
        calc v.toNat < 2 ^ (7 * (f + 1 + 1)) := h
          _ = 2 ^ (7 * (f + 1)) * 128 := by rw [Nat.mul_succ, Nat.pow_add]
      rw [putU64, if_neg hNe, toNat_low, ofNat_or_high (Nat.mod_lt _ (by decide)), ih hRest,
        toNat_shiftRight_seven, putVarintFuel, if_neg hSmall]

theorem putU64_eq (v : UInt64) : putU64 v = putVarint v.toNat := by
  refine putU64_eq_fuel ?_
  have := v.toNat_lt
  omega

/-- Seven more bits. -/
theorem add_mul_pow_lt {v k shift : Nat} (hv : v < 2 ^ shift) (hk : k < 128) :
    v + k * 2 ^ shift < 2 ^ (shift + 7) := by
  calc v + k * 2 ^ shift < 2 ^ shift + 127 * 2 ^ shift :=
        Nat.add_lt_add_of_lt_of_le hv (Nat.mul_le_mul_right _ (Nat.le_of_lt_succ hk))
    _ = 2 ^ (shift + 7) := by
      rw [Nat.pow_add]
      ring

/-- What a reader of words returns, in numbers. -/
def inNat : Except FormatError UInt64 × Nat → Except FormatError (Nat × Nat)
  | (.ok v, pos) => .ok (v.toNat, pos)
  | (.error e, _) => .error e

/-- The words of the decoder are the numbers of `Format.readU64From`. -/
theorem readU64From_eq {buf : List UInt8} {fuel pos shift : Nat} {v : UInt64}
    (hFuel : shift + 7 * (fuel + 1) = 70) (hv : v.toNat < 2 ^ shift) :
    inNat (readU64From buf pos v shift) = Format.readU64From buf (fuel + 1) pos v.toNat shift := by
  induction fuel generalizing pos shift v with
  | zero =>
    obtain rfl : shift = 63 := by omega
    rw [readU64From, Format.readU64From]
    rcases buf[pos]? with _ | byte
    · rfl
    simp only [true_and, high_eq_zero]
    by_cases hBig : 1 < byte
    · rw [if_pos hBig, if_pos hBig]
      rfl
    · have hOne : byte.toNat ≤ 1 := Nat.le_of_not_lt fun h => hBig (UInt8.lt_iff_toNat_lt.mpr h)
      have hLast : byte < 128 := UInt8.lt_iff_toNat_lt.mpr (by
        show byte.toNat < 128
        omega)
      rw [if_neg hBig, if_neg hBig, if_pos hLast, if_pos hLast]
      have hOr := @toNat_or_shift v byte 63 (by decide) hv (by omega)
      rw [inNat, ← hOr]
  | succ fuel ih =>
    have hNotLast : ¬ shift = 63 := by omega
    have hPow : 2 ^ (shift + 7) ≤ 2 ^ 63 := Nat.pow_le_pow_right (by decide) (by omega)
    rw [readU64From, Format.readU64From]
    rcases buf[pos]? with _ | byte
    · rfl
    have hFits := add_mul_pow_lt hv (Nat.mod_lt byte.toNat (by decide))
    have hOr := @toNat_or_shift v byte shift (by omega) hv (by omega)
    simp only [hNotLast, false_and, if_false, high_eq_zero]
    by_cases hLast : byte < 128
    · rw [if_pos hLast, if_pos hLast, inNat, hOr]
    · rw [if_neg hLast, if_neg hLast, if_neg (by omega : ¬ 63 < shift + 7),
        ih (by omega) (by omega), hOr]

theorem readU64_eq (buf : List UInt8) (pos : Nat) :
    inNat (readU64 buf pos) = Format.readU64 buf pos :=
  readU64From_eq (by decide) (by decide)

-- ---------------------------------------------------------------------------
-- What is read
-- ---------------------------------------------------------------------------

/-- What the loop reads on top of `v` is a string that fits the bytes and the bits left. -/
theorem readU64From_accepts {buf : List UInt8} {fuel pos v shift w pos' : Nat}
    (hFuel : shift + 7 * fuel = 70) (hv : v < 2 ^ shift) :
    Format.readU64From buf fuel pos v shift = .ok (w, pos') ↔
      ∃ bytes x, At buf pos bytes ∧ Leb bytes x ∧ bytes.length ≤ fuel ∧
        w = v + x * 2 ^ shift ∧ w < 2 ^ 64 ∧ pos' = pos + bytes.length := by
  induction fuel generalizing pos v shift with
  | zero =>
    constructor
    · intro h
      cases h
    · rintro ⟨bytes, x, -, hLeb, hLen, -⟩
      exact absurd hLeb.length_pos (by omega)
  | succ fuel ih =>
    rw [Format.readU64From]
    rcases hByte : buf[pos]? with _ | byte
    · -- The buffer ends.
      constructor
      · intro h
        cases h
      · rintro ⟨_ | ⟨b, bs⟩, x, hAt, hLeb, -⟩
        · exact absurd hLeb.length_pos (Nat.lt_irrefl 0)
        · rw [hAt.head] at hByte
          cases hByte
    -- A string in the buffer starts with the byte.
    have hStart : ∀ {b bs}, At buf pos (b :: bs) → b = byte := by
      intro b bs hAt
      rw [hAt.head] at hByte
      exact Option.some.inj hByte
    have hSelf : ∀ {bs}, At buf (pos + 1) bs → At buf pos (byte :: bs) := by
      rintro bs ⟨rest, hRest⟩
      obtain ⟨hLt, hGet⟩ := List.getElem?_eq_some_iff.mp hByte
      refine ⟨rest, ?_⟩
      rw [List.drop_eq_getElem_cons hLt, hGet, hRest, List.cons_append]
    by_cases hOver : shift = 63 ∧ 1 < byte
    · -- The tenth byte has one bit of the value, and nothing may follow.
      obtain ⟨rfl, hBig⟩ := hOver
      obtain rfl : fuel = 0 := by omega
      simp only [hBig, and_self, if_true]
      constructor
      · intro h
        cases h
      · rintro ⟨_ | ⟨b, bs⟩, x, hAt, hLeb, hLen, rfl, hWord, -⟩
        · exact absurd hLeb.length_pos (Nat.lt_irrefl 0)
        · obtain rfl := hStart hAt
          obtain rfl : bs = [] := List.length_eq_zero_iff.mp (by simpa using hLen)
          by_cases hLast : b < 128
          · obtain ⟨-, rfl⟩ := (Leb.cons_of_lt hLast).mp hLeb
            have hTwo : 1 < b.toNat := UInt8.lt_iff_toNat_lt.mp hBig
            omega
          · obtain ⟨y, hRest, -⟩ := (Leb.cons_of_not_lt hLast).mp hLeb
            exact absurd hRest.length_pos (Nat.lt_irrefl 0)
    · simp only [hOver, if_false]
      by_cases hLast : byte < 128
      · -- The last byte of the string.
        have hLt : byte.toNat < 128 := UInt8.lt_iff_toNat_lt.mp hLast
        have hWord : v + byte.toNat * 2 ^ shift < 2 ^ 64 := by
          by_cases hTenth : shift = 63
          · have hOne : byte.toNat ≤ 1 := Nat.le_of_not_lt fun h =>
              hOver ⟨hTenth, UInt8.lt_iff_toNat_lt.mpr h⟩
            rw [hTenth] at hv ⊢
            omega
          · have hPow : 2 ^ (shift + 7) ≤ 2 ^ 63 :=
              Nat.pow_le_pow_right (by decide) (by omega)
            have hMore := add_mul_pow_lt hv hLt
            omega
        rw [if_pos hLast, Nat.mod_eq_of_lt hLt]
        constructor
        · intro h
          obtain ⟨rfl, rfl⟩ := Prod.mk.inj (Except.ok.inj h)
          refine ⟨[byte], byte.toNat, hSelf ⟨_, rfl⟩, .last hLast, ?_, rfl, hWord, rfl⟩
          exact Nat.succ_le_succ (Nat.zero_le _)
        · rintro ⟨_ | ⟨b, bs⟩, x, hAt, hLeb, -, rfl, -, rfl⟩
          · exact absurd hLeb.length_pos (Nat.lt_irrefl 0)
          · obtain rfl := hStart hAt
            obtain ⟨rfl, rfl⟩ := (Leb.cons_of_lt hLast).mp hLeb
            rfl
      · -- Seven bits, and the rest of the string.
        have hv' := add_mul_pow_lt hv (Nat.mod_lt byte.toNat (by decide))
        have hSum : ∀ y, v + byte.toNat % 128 * 2 ^ shift + y * 2 ^ (shift + 7) =
            v + (byte.toNat % 128 + 128 * y) * 2 ^ shift := by
          intro y
          rw [Nat.pow_add]
          ring
        rw [if_neg hLast, ih (by omega) hv']
        constructor
        · rintro ⟨bs, y, hAt, hLeb, hLen, rfl, hWord, rfl⟩
          refine ⟨byte :: bs, _, hSelf hAt, .more hLast hLeb, Nat.succ_le_succ hLen, hSum y, hWord,
            ?_⟩
          rw [List.length_cons]
          omega
        · rintro ⟨_ | ⟨b, bs⟩, x, hAt, hLeb, hLen, rfl, hWord, rfl⟩
          · exact absurd hLeb.length_pos (Nat.lt_irrefl 0)
          · obtain rfl := hStart hAt
            obtain ⟨y, hRest, rfl⟩ := (Leb.cons_of_not_lt hLast).mp hLeb
            refine ⟨bs, y, @At.right _ _ [_] _ hAt, hRest, Nat.le_of_succ_le_succ hLen,
              (hSum y).symm, hWord, ?_⟩
            rw [List.length_cons]
            omega

/-- A terminated string of ten bytes at most stands at the position. -/
structure Encoding (buf : List UInt8) (pos : Nat) (bytes : List UInt8) (x : Nat) : Prop where
  stands : At buf pos bytes
  leb : Leb bytes x
  length_le : bytes.length ≤ 10

theorem readU64_ok_iff {buf : List UInt8} {pos : Nat} {v : UInt64} {pos' : Nat} :
    readU64 buf pos = (.ok v, pos') ↔
      ∃ bytes, Encoding buf pos bytes v.toNat ∧ pos' = pos + bytes.length := by
  have hNat : readU64 buf pos = (.ok v, pos') ↔ Format.readU64 buf pos = .ok (v.toNat, pos') := by
    rw [← readU64_eq]
    rcases readU64 buf pos with ⟨e | u, p⟩
    · simp [inNat]
    · simp [inNat, UInt64.toNat_inj]
  rw [hNat, Format.readU64, readU64From_accepts (by decide) (by decide)]
  simp only [Nat.pow_zero, Nat.mul_one, Nat.zero_add]
  constructor
  · rintro ⟨bytes, x, hAt, hLeb, hLen, rfl, -, hPos⟩
    exact ⟨bytes, ⟨hAt, hLeb, hLen⟩, hPos⟩
  · rintro ⟨bytes, ⟨hAt, hLeb, hLen⟩, hPos⟩
    exact ⟨bytes, _, hAt, hLeb, hLen, rfl, v.toNat_lt, hPos⟩

theorem readU32_ok_iff {buf : List UInt8} {pos : Nat} {v : UInt32} {pos' : Nat} :
    readU32 buf pos = (.ok v, pos') ↔
      ∃ bytes, Encoding buf pos bytes v.toNat ∧ pos' = pos + bytes.length := by
  have hWide : readU32 buf pos = (.ok v, pos') ↔ readU64 buf pos = (.ok v.toUInt64, pos') := by
    unfold readU32
    rcases readU64 buf pos with ⟨e | u, p⟩
    · simp
    · by_cases hSmall : u.toNat < 2 ^ 32
      · have hWord : u.toUInt32 = v ↔ u = v.toUInt64 := by
          rw [← UInt32.toNat_inj, ← UInt64.toNat_inj, UInt64.toNat_toUInt32,
            Nat.mod_eq_of_lt hSmall, UInt32.toNat_toUInt64]
        simp only [if_pos hSmall, Prod.mk.injEq, Except.ok.injEq, hWord]
      · have hNe : ¬ u = v.toUInt64 := by
          rintro rfl
          exact hSmall (v.toNat_toUInt64 ▸ v.toNat_lt)
        simp only [if_neg hSmall, Prod.mk.injEq, Except.ok.injEq, hNe, reduceCtorEq, false_and]
  rw [hWide, readU64_ok_iff, UInt32.toNat_toUInt64]

-- ---------------------------------------------------------------------------
-- What is written
-- ---------------------------------------------------------------------------

/-- Read `n` numbers one after the other. -/
def readSeq (buf : List UInt8) : Nat → Nat → Except FormatError (List UInt64) × Nat
  | 0, pos => (.ok [], pos)
  | n + 1, pos =>
    match readU64 buf pos with
    | (.error e, pos) => (.error e, pos)
    | (.ok v, pos) =>
      match readSeq buf n pos with
      | (.error e, pos) => (.error e, pos)
      | (.ok vs, pos) => (.ok (v :: vs), pos)

/-- What `put_u64` writes is a string of ten bytes at most. -/
theorem encoding_putU64 {buf : List UInt8} {pos : Nat} {v : UInt64} (h : At buf pos (putU64 v)) :
    Encoding buf pos (putU64 v) v.toNat := by
  rw [putU64_eq] at h ⊢
  have hRead := readU64_putVarint h v.toNat_lt
  rw [Format.readU64, readU64From_accepts (by decide) (by decide)] at hRead
  obtain ⟨bytes, x, hAt, hLeb, hLen, hValue, -, hPos⟩ := hRead
  obtain rfl : v.toNat = x := by simpa using hValue
  -- Both stand at the position and are of one length.
  obtain ⟨rest, hRest⟩ := h
  obtain ⟨rest', hRest'⟩ := hAt
  obtain ⟨rfl, -⟩ := List.append_inj (hRest.symm.trans hRest') (by omega)
  exact ⟨⟨rest, hRest⟩, hLeb, hLen⟩

theorem readU64_putU64 {buf : List UInt8} {pos : Nat} {v : UInt64} (h : At buf pos (putU64 v)) :
    readU64 buf pos = (.ok v, pos + (putU64 v).length) :=
  readU64_ok_iff.mpr ⟨putU64 v, encoding_putU64 h, rfl⟩

theorem readU32_putU32 {buf : List UInt8} {pos : Nat} {v : UInt32} (h : At buf pos (putU32 v)) :
    readU32 buf pos = (.ok v, pos + (putU32 v).length) := by
  have hEnc := encoding_putU64 h
  rw [UInt32.toNat_toUInt64] at hEnc
  exact readU32_ok_iff.mpr ⟨putU32 v, hEnc, rfl⟩

theorem readSeq_putU64 {buf : List UInt8} {pos : Nat} {vs : List UInt64}
    (h : At buf pos (vs.flatMap putU64)) :
    readSeq buf vs.length pos = (.ok vs, pos + (vs.flatMap putU64).length) := by
  induction vs generalizing pos with
  | nil => rfl
  | cons v vs ih =>
    rw [List.flatMap_cons] at h ⊢
    simp only [List.length_cons, readSeq, readU64_putU64 h.left, ih h.right]
    rw [List.length_append, Nat.add_assoc]

/-- The decoder reads exactly the terminated strings of ten bytes at most with a value that fits
the word, to their end, and what the encoder writes is read back from wherever it stands. -/
theorem decodes_exactly (buf : List UInt8) (pos : Nat) :
    ((readU64 buf pos).1.isOk ↔ ∃ bytes x, Encoding buf pos bytes x ∧ x < 2 ^ 64) ∧
    ((readU32 buf pos).1.isOk ↔ ∃ bytes x, Encoding buf pos bytes x ∧ x < 2 ^ 32) ∧
    (∀ bytes x, Encoding buf pos bytes x →
      (∀ v : UInt64, v.toNat = x → readU64 buf pos = (.ok v, pos + bytes.length)) ∧
      (∀ v : UInt32, v.toNat = x → readU32 buf pos = (.ok v, pos + bytes.length))) ∧
    (∀ v, At buf pos (putU64 v) → readU64 buf pos = (.ok v, pos + (putU64 v).length)) ∧
    (∀ v, At buf pos (putU32 v) → readU32 buf pos = (.ok v, pos + (putU32 v).length)) ∧
    (∀ vs : List UInt64, At buf pos (vs.flatMap putU64) →
      readSeq buf vs.length pos = (.ok vs, pos + (vs.flatMap putU64).length)) := by
  refine ⟨?_, ?_, ?_, fun v => readU64_putU64, fun v => readU32_putU32, fun vs => readSeq_putU64⟩
  · constructor
    · intro h
      rcases hRead : readU64 buf pos with ⟨e | v, pos'⟩
      · rw [hRead] at h
        cases h
      · obtain ⟨bytes, hEnc, -⟩ := readU64_ok_iff.mp hRead
        exact ⟨bytes, _, hEnc, v.toNat_lt⟩
    · rintro ⟨bytes, x, hEnc, hx⟩
      rw [← UInt64.toNat_ofNat_of_lt' hx] at hEnc
      rw [readU64_ok_iff.mpr ⟨bytes, hEnc, rfl⟩]
      rfl
  · constructor
    · intro h
      rcases hRead : readU32 buf pos with ⟨e | v, pos'⟩
      · rw [hRead] at h
        cases h
      · obtain ⟨bytes, hEnc, -⟩ := readU32_ok_iff.mp hRead
        exact ⟨bytes, _, hEnc, v.toNat_lt⟩
    · rintro ⟨bytes, x, hEnc, hx⟩
      rw [← UInt32.toNat_ofNat_of_lt' hx] at hEnc
      rw [readU32_ok_iff.mpr ⟨bytes, hEnc, rfl⟩]
      rfl
  · intro bytes x hEnc
    constructor
    · rintro v rfl
      exact readU64_ok_iff.mpr ⟨bytes, hEnc, rfl⟩
    · rintro v rfl
      exact readU32_ok_iff.mpr ⟨bytes, hEnc, rfl⟩

/-- A string that is longer than it has to be is read as well. -/
theorem decodes_exactly_overlong : readU64 [0x81, 0x00] 0 = (.ok 1, 2) :=
  ((decodes_exactly [0x81, 0x00] 0).2.2.1 [0x81, 0x00] _
    ⟨⟨[], rfl⟩, .more (by decide) (.last (by decide)), by decide⟩).1 1 (by decide)

end Ripindex.Format.Varint
