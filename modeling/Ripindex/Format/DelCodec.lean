import Ripindex.Format.Del
import Ripindex.Format.Fields
import Ripindex.Lib.ByteBits

/-!
# The deletion bitmap in its file

`format/del.rs`, over the bytes that the bitmap keeps. A bitmap is a set of ids, its file is
read back as that set, and no other file is accepted for it.

## Results

* `ByteBitmap.bitAt_setAll`     — the bits are those of the ids that were set and are in range;
* `ByteBitmap.parse_encode`, `DelView.encode_toBitmap` — the two directions;
* `ByteBitmap.flags_set`, `ByteBitmap.encode_flags` — the bytes refine one flag a document;
* `deletion_bitmap_canonical`   — the bitmap is a set with one encoding.
-/

namespace Ripindex

open Format

/-- Mutable bitmap used to build the next generation, with its bytes. -/
structure ByteBitmap where
  numDocs : UInt32
  bits : List UInt8
  length_bits : bits.length = (numDocs.toNat + 7) / 8

namespace ByteBitmap

@[ext] theorem ext {b c : ByteBitmap} (hDocs : b.numDocs = c.numDocs) (hBits : b.bits = c.bits) :
    b = c := by
  rcases b with ⟨n, bits, h⟩
  rcases c with ⟨m, bits', h'⟩
  simp only at hDocs hBits
  subst hDocs hBits
  rfl

def new (numDocs : UInt32) : ByteBitmap where
  numDocs := numDocs
  bits := List.replicate ((numDocs.toNat + 7) / 8) 0
  length_bits := List.length_replicate

/-- `1u8 << (i & 7)`. -/
def mask (i : UInt32) : UInt8 := 1 <<< (i &&& 7).toUInt8

theorem toNat_shiftRight_three (i : UInt32) : (i >>> 3).toNat = i.toNat / 8 := by
  rw [UInt32.toNat_shiftRight, Nat.shiftRight_eq_div_pow]
  rfl

theorem byte_lt (b : ByteBitmap) {i : UInt32} (h : i < b.numDocs) :
    (i >>> 3).toNat < b.bits.length := by
  have hLt : i.toNat < b.numDocs.toNat := UInt32.lt_iff_toNat_lt.mp h
  rw [toNat_shiftRight_three, b.length_bits]
  omega

/-- The bitmap after the call, and whether the bit was newly set. Out-of-range ids are
ignored. -/
def set (b : ByteBitmap) (i : UInt32) : ByteBitmap × Bool :=
  if h : i < b.numDocs then
    have hByte := b.byte_lt h
    let byte := b.bits[(i >>> 3).toNat]
    let was := byte &&& mask i != 0
    ({ b with
        bits := b.bits.set (i >>> 3).toNat (byte ||| mask i)
        length_bits := by rw [List.length_set, b.length_bits] }, !was)
  else (b, false)

def get (b : ByteBitmap) (i : UInt32) : Bool :=
  if h : i < b.numDocs then
    have hByte := b.byte_lt h
    b.bits[(i >>> 3).toNat] &&& mask i != 0
  else false

def count (b : ByteBitmap) : Chk Nat := DelView.popcount 0 b.bits

/-- Encode a complete `.del` file (envelope included). -/
def encode [Platform] (b : ByteBitmap) : Chk (List UInt8) := do
  let count ← b.count
  .ok (sealBody .del formatVersion (u32Bytes b.numDocs ++ leBytes 4 count ++ b.bits))

/-- A sequence of calls of `set`. -/
def setAll (b : ByteBitmap) (is : List UInt32) : ByteBitmap :=
  is.foldl (fun b i => (b.set i).1) b

-- ---------------------------------------------------------------------------
-- Bits
-- ---------------------------------------------------------------------------

theorem toNat_mask (i : UInt32) : (mask i).toNat = 2 ^ (i.toNat % 8) := by
  have hAnd : (i &&& 7).toUInt8.toNat = i.toNat % 8 := by
    rw [UInt32.toNat_toUInt8, UInt32.toNat_and]
    have hSeven : i.toNat &&& (2 ^ 3 - 1) = i.toNat % 2 ^ 3 :=
      Nat.and_two_pow_sub_one_eq_mod _ _
    show (i.toNat &&& (2 ^ 3 - 1)) % 2 ^ 8 = _
    rw [hSeven]
    omega
  have hPow : 2 ^ (i.toNat % 8) < 2 ^ 8 :=
    Nat.pow_lt_pow_right (by decide) (Nat.mod_lt _ (by decide))
  rw [mask, UInt8.toNat_shiftLeft, hAnd, Nat.mod_mod, Nat.shiftLeft_eq]
  show 1 * 2 ^ (i.toNat % 8) % 2 ^ 8 = _
  rw [Nat.one_mul, Nat.mod_eq_of_lt hPow]

theorem getElem_byte (b : ByteBitmap) {i : UInt32} (h : (i >>> 3).toNat < b.bits.length) :
    b.bits[(i >>> 3).toNat].toNat.testBit (i.toNat % 8) = bitAt b.bits i.toNat := by
  rw [bitAt, List.getD_eq_getElem?_getD, ← toNat_shiftRight_three, List.getElem?_eq_getElem h,
    Option.getD_some]

theorem get_eq (b : ByteBitmap) (i : UInt32) :
    b.get i = (decide (i < b.numDocs) && bitAt b.bits i.toNat) := by
  unfold get
  by_cases h : i < b.numDocs
  · rw [dif_pos h, decide_eq_true h, Bool.true_and, ← b.getElem_byte (b.byte_lt h)]
    exact and_mask_ne_zero (toNat_mask i) _
  · rw [dif_neg h, decide_eq_false h, Bool.false_and]

theorem numDocs_set (b : ByteBitmap) (i : UInt32) : (b.set i).1.numDocs = b.numDocs := by
  unfold set
  split <;> rfl

/-- What `set` returns. -/
theorem set_snd (b : ByteBitmap) (i : UInt32) :
    (b.set i).2 = (decide (i < b.numDocs) && !bitAt b.bits i.toNat) := by
  unfold set
  by_cases h : i < b.numDocs
  · rw [dif_pos h, decide_eq_true h, Bool.true_and, ← b.getElem_byte (b.byte_lt h)]
    exact congrArg not (and_mask_ne_zero (toNat_mask i) _)
  · rw [dif_neg h, decide_eq_false h, Bool.false_and]

theorem bitAt_set_fst (b : ByteBitmap) (i : UInt32) (k : Nat) :
    bitAt (b.set i).1.bits k = true ↔
      bitAt b.bits k = true ∨ (i < b.numDocs ∧ i.toNat = k) := by
  unfold set
  by_cases h : i < b.numDocs
  · have hByte : i.toNat / 8 < b.bits.length := toNat_shiftRight_three i ▸ b.byte_lt h
    have hBits := bitAt_set (b := b.bits[i.toNat / 8] ||| mask i) hByte
      (fun j _ => testBit_or_mask (toNat_mask i) _ j) k
    rw [dif_pos h]
    simp only [toNat_shiftRight_three]
    rw [hBits, Bool.or_eq_true, decide_eq_true_eq]
    exact or_congr_right ⟨fun hk => ⟨h, hk.symm⟩, fun hk => hk.2.symm⟩
  · rw [dif_neg h]
    exact (or_iff_left fun hSet => h hSet.1).symm

theorem numDocs_setAll (b : ByteBitmap) (is : List UInt32) : (b.setAll is).numDocs = b.numDocs := by
  induction is generalizing b with
  | nil => rfl
  | cons i is ih =>
    have hStep := ih (b.set i).1
    rwa [numDocs_set] at hStep

theorem bitAt_setAll (b : ByteBitmap) (is : List UInt32) (k : Nat) :
    bitAt (b.setAll is).bits k = true ↔
      bitAt b.bits k = true ∨ ∃ i ∈ is, i < b.numDocs ∧ i.toNat = k := by
  induction is generalizing b with
  | nil => simp [setAll]
  | cons i is ih =>
    have hStep : b.setAll (i :: is) = (b.set i).1.setAll is := rfl
    rw [hStep, ih, numDocs_set, bitAt_set_fst, List.exists_mem_cons_iff, or_assoc]

/-- The ids that were set and are in range. -/
def ids (numDocs : UInt32) (is : List UInt32) : Finset UInt32 :=
  is.toFinset.filter (· < numDocs)

theorem mem_ids {numDocs i : UInt32} {is : List UInt32} :
    i ∈ ids numDocs is ↔ i ∈ is ∧ i < numDocs := by
  rw [ids, Finset.mem_filter, List.mem_toFinset]

theorem bitAt_new_setAll (numDocs : UInt32) (is : List UInt32) (k : Nat) :
    bitAt ((new numDocs).setAll is).bits k = true ↔ ∃ i ∈ ids numDocs is, i.toNat = k := by
  rw [bitAt_setAll, new, bitAt_replicate]
  simp only [Bool.false_eq_true, false_or, mem_ids, and_assoc]

theorem bitAt_toNat_setAll (numDocs : UInt32) (is : List UInt32) (i : UInt32) :
    bitAt ((new numDocs).setAll is).bits i.toNat = true ↔ i ∈ ids numDocs is := by
  rw [bitAt_new_setAll]
  refine ⟨?_, fun h => ⟨i, h, rfl⟩⟩
  rintro ⟨j, hj, hEq⟩
  exact UInt32.toNat_inj.mp hEq ▸ hj

theorem get_setAll (numDocs : UInt32) (is : List UInt32) (i : UInt32) :
    ((new numDocs).setAll is).get i = true ↔ i ∈ ids numDocs is := by
  rw [get_eq, Bool.and_eq_true, bitAt_toNat_setAll, numDocs_setAll, decide_eq_true_eq]
  exact and_iff_right_of_imp fun h => (mem_ids.mp h).2

/-- No bit is set outside the documents. -/
def Clear (bits : List UInt8) (numDocs : UInt32) : Prop :=
  ∀ k, numDocs.toNat ≤ k → bitAt bits k = false

theorem clear_setAll (numDocs : UInt32) (is : List UInt32) :
    Clear ((new numDocs).setAll is).bits numDocs := by
  intro k hk
  rw [← Bool.not_eq_true, bitAt_new_setAll]
  rintro ⟨i, hi, rfl⟩
  exact absurd (UInt32.lt_iff_toNat_lt.mp (mem_ids.mp hi).2) (Nat.not_lt.mpr hk)

-- ---------------------------------------------------------------------------
-- Counts
-- ---------------------------------------------------------------------------

theorem sum_countOnes (bits : List UInt8) : (bits.map DelView.countOnes).sum =
    Nat.count (fun k => bitAt bits k = true) (8 * bits.length) := sum_ones bits

/-- `count` is the size of the set, and is not too large for 32 bits. -/
theorem count_setAll (numDocs : UInt32) (is : List UInt32) :
    ((new numDocs).setAll is).count = .ok (ids numDocs is).card ∧
      (ids numDocs is).card < 2 ^ 32 := by
  have hInj : Function.Injective UInt32.toNat := fun _ _ => UInt32.toNat_inj.mp
  have hImage : (Finset.range (8 * ((new numDocs).setAll is).bits.length)).filter
      (fun k => bitAt ((new numDocs).setAll is).bits k = true) =
        (ids numDocs is).image UInt32.toNat := by
    ext k
    rw [Finset.mem_filter, Finset.mem_range, bitAt_new_setAll, Finset.mem_image]
    refine and_iff_right_of_imp ?_
    rintro ⟨i, hi, rfl⟩
    by_contra hLe
    have hBit := (bitAt_toNat_setAll numDocs is i).mpr hi
    rw [bitAt_of_le (Nat.not_lt.mp hLe)] at hBit
    cases hBit
  have hBelow : (ids numDocs is).image UInt32.toNat ⊆ Finset.range numDocs.toNat := by
    intro k hk
    obtain ⟨i, hi, rfl⟩ := Finset.mem_image.mp hk
    exact Finset.mem_range.mpr (UInt32.lt_iff_toNat_lt.mp (mem_ids.mp hi).2)
  have hCard := Finset.card_le_card hBelow
  rw [Finset.card_image_of_injective _ hInj, Finset.card_range] at hCard
  have hLt : (ids numDocs is).card < 2 ^ 32 := Nat.lt_of_le_of_lt hCard numDocs.toNat_lt
  refine ⟨?_, hLt⟩
  rw [count, DelView.popcount_eq _ _ (by decide), sum_countOnes, Nat.count_eq_card_filter_range,
    hImage, Finset.card_image_of_injective _ hInj, Nat.zero_add, if_pos hLt]

end ByteBitmap

-- ---------------------------------------------------------------------------
-- The file
-- ---------------------------------------------------------------------------

namespace DelView

def isDeleted (v : DelView) (i : UInt32) : Chk Bool :=
  if i < v.numDocs then do
    let byte ← Chk.index v.bits (i >>> 3).toNat
    .ok (byte &&& ByteBitmap.mask i != 0)
  else .ok false

/-- `to_bitmap`, of a view whose bits have the length that `parse_verified` checks. -/
def toBitmap (v : DelView) (h : v.bits.length = (v.numDocs.toNat + 7) / 8) : ByteBitmap :=
  ⟨v.numDocs, v.bits, h⟩

/-- A view and its bitmap answer the same. -/
theorem isDeleted_eq (v : DelView) (h : v.bits.length = (v.numDocs.toNat + 7) / 8) (i : UInt32) :
    v.isDeleted i = .ok ((v.toBitmap h).get i) := by
  unfold isDeleted ByteBitmap.get
  by_cases hLt : i < v.numDocs
  · have hDocs : i < (v.toBitmap h).numDocs := hLt
    have hByte : (i >>> 3).toNat < v.bits.length := (v.toBitmap h).byte_lt hDocs
    rw [if_pos hLt, dif_pos hDocs, Chk.index, List.getElem?_eq_getElem hByte]
    rfl
  · have hDocs : ¬i < (v.toBitmap h).numDocs := hLt
    rw [if_neg hLt, dif_neg hDocs]

variable [Platform]

/-- What `parse_verified` checks of the file of a view. -/
structure Accepted (v : DelView) (bytes : List UInt8) : Prop where
  length : v.bits.length = (v.numDocs.toNat + 7) / 8
  count : popcount 0 v.bits = .ok v.numDeleted.toNat
  clear : ByteBitmap.Clear v.bits v.numDocs
  bytes : bytes =
    sealBody .del formatVersion (u32Bytes v.numDocs ++ u32Bytes v.numDeleted ++ v.bits)

theorem accepted_of_parseVerified {v : DelView} {bytes : List UInt8}
    (h : parseVerified bytes = .ok v) : v.Accepted bytes := by
  obtain ⟨env, hEnv, h⟩ := Chk.bind_ok h
  obtain ⟨body, hBody, h⟩ := Chk.bind_ok h
  obtain ⟨hSeal, hRange⟩ := eq_sealBody_of_parseVerified hEnv
  obtain rfl := Except.ok.inj (hRange.symm.trans hBody)
  by_cases hShort : (env.body bytes).length < bodyHeaderLen
  · rw [if_pos hShort] at h
    cases h
  rw [if_neg hShort] at h
  obtain ⟨numDocs, hDocs, h⟩ := Chk.bind_ok h
  obtain ⟨numDeleted, hDeleted, h⟩ := Chk.bind_ok h
  obtain ⟨bits, hBits, h⟩ := Chk.bind_ok h
  by_cases hLen : bits.length ≠ (numDocs.toNat + 7) / 8
  · rw [if_pos hLen] at h
    cases h
  rw [if_neg hLen] at h
  obtain ⟨count, hCount, h⟩ := Chk.bind_ok h
  by_cases hDiffer : count ≠ numDeleted.toNat
  · rw [if_pos hDiffer] at h
    cases h
  rw [if_neg hDiffer] at h
  by_cases hStray : numDocs.toNat % 8 ≠ 0 ∧
      bits.getLast?.any fun b => b.toNat / 2 ^ (numDocs.toNat % 8) ≠ 0
  · rw [if_pos hStray] at h
    cases h
  rw [if_neg hStray] at h
  obtain rfl := Except.ok.inj h
  rw [not_not] at hLen hDiffer
  have hLong : bodyHeaderLen ≤ (env.body bytes).length := Nat.not_lt.mp hShort
  rw [Chk.range_ok hLong (Nat.le_refl _), List.take_length] at hBits
  -- The three parts follow one another in the body.
  have hParts : env.body bytes = u32Bytes numDocs ++ u32Bytes numDeleted ++ bits := by
    have h0 := (At.of_readU32Le (Chk.ofFormat_ok hDocs)).1
    have h4 := (At.of_readU32Le (Chk.ofFormat_ok hDeleted)).1
    have h8 : At (env.body bytes) 8 bits :=
      ⟨[], by rw [List.append_nil]; exact Except.ok.inj hBits⟩
    have hDrop : (env.body bytes).length = 8 + bits.length := by
      rw [← Except.ok.inj hBits, List.length_drop]
      unfold bodyHeaderLen at hLong ⊢
      omega
    refine At.eq_of_length ?_ ?_
    · rw [List.append_assoc]
      exact h0.field (h4.field h8)
    · rw [List.length_append, List.length_append, u32Bytes, u32Bytes, length_leBytes,
        length_leBytes, hDrop]
  exact ⟨hLen, hDiffer ▸ hCount, (last_clear_iff hLen).mp hStray, hParts ▸ hSeal⟩

theorem parseVerified_of_accepted {n c : UInt32} {bits : List UInt8}
    (hLen : bits.length = (n.toNat + 7) / 8) (hCount : popcount 0 bits = .ok c.toNat)
    (hClear : ByteBitmap.Clear bits n) :
    ∃ crc, parseVerified (sealBody .del formatVersion (u32Bytes n ++ u32Bytes c ++ bits)) =
      .ok ⟨n, c, bits, crc⟩ := by
  have hBody : u32Bytes n ++ u32Bytes c ++ bits =
      leBytes 4 n.toNat ++ (leBytes 4 c.toNat ++ bits) := List.append_assoc _ _ _
  have hLength : (u32Bytes n ++ u32Bytes c ++ bits).length = 8 + bits.length := by
    rw [List.length_append, List.length_append, u32Bytes, u32Bytes, length_leBytes, length_leBytes]
  have hDocs := n.toNat_lt
  have hLt : (sealBody .del formatVersion (u32Bytes n ++ u32Bytes c ++ bits)).length < 2 ^ 64 := by
    rw [length_sealBody, hLength]
    unfold headerLen footerLen
    omega
  obtain ⟨hOpen, hRange⟩ := parseVerified_sealBody .del hLt
  have h0 := At.of_eq hBody
  have h8 := h0.behind.behind
  have r0 := readU32Le_at h0.left (by omega) n.toNat_lt
  have r4 := readU32Le_at h0.behind.left (by omega) c.toNat_lt
  have hBits : Chk.range (u32Bytes n ++ u32Bytes c ++ bits) bodyHeaderLen
      (u32Bytes n ++ u32Bytes c ++ bits).length = .ok bits := by
    obtain ⟨rest, hRest⟩ := h8
    have hNil : rest = [] := by
      have hLengths := congrArg List.length hRest
      rw [List.length_drop, hLength, List.length_append] at hLengths
      exact List.length_eq_zero_iff.mp (by omega)
    rw [Chk.range_ok (by unfold bodyHeaderLen; omega) (Nat.le_refl _), List.take_length]
    rw [hNil, List.append_nil] at hRest
    exact congrArg Except.ok hRest
  refine ⟨Platform.crc32 (u32Bytes n ++ u32Bytes c ++ bits), ?_⟩
  unfold parseVerified
  have hShort : ¬ (u32Bytes n ++ u32Bytes c ++ bits).length < bodyHeaderLen := by
    unfold bodyHeaderLen
    omega
  rw [Nat.zero_add] at r4
  rw [hOpen, Chk.ok_bind, hRange, Chk.ok_bind, if_neg hShort, r0, r4]
  simp only [Chk.ofFormat, Chk.ok_bind, UInt32.ofNat_toNat]
  rw [hBits, Chk.ok_bind, if_neg (not_not_intro hLen), hCount, Chk.ok_bind,
    if_neg (not_not_intro rfl), if_neg ((last_clear_iff hLen).mpr hClear)]

end DelView

namespace ByteBitmap

variable [Platform]

/-- What is written is read back. -/
theorem parse_encode (numDocs : UInt32) (is : List UInt32) :
    ∃ bytes v, ((new numDocs).setAll is).encode = .ok bytes ∧
      DelView.parseVerified bytes = .ok v ∧ v.numDocs = numDocs ∧
      v.numDeleted.toNat = (ids numDocs is).card ∧ v.bits = ((new numDocs).setAll is).bits := by
  obtain ⟨hCount, hLt⟩ := count_setAll numDocs is
  have hDocs : ((new numDocs).setAll is).numDocs = numDocs := numDocs_setAll _ _
  have hCard : (UInt32.ofNat (ids numDocs is).card).toNat = (ids numDocs is).card :=
    UInt32.toNat_ofNat_of_lt' hLt
  obtain ⟨crc, hParse⟩ := DelView.parseVerified_of_accepted
    (n := numDocs) (c := UInt32.ofNat (ids numDocs is).card)
    (((new numDocs).setAll is).length_bits.trans (by rw [hDocs])) (by rw [hCard]; exact hCount)
    (clear_setAll numDocs is)
  refine ⟨_, _, ?_, hParse, rfl, hCard, rfl⟩
  rw [encode, hCount, Chk.ok_bind, hDocs, u32Bytes, u32Bytes, hCard]

end ByteBitmap

namespace DelView

variable [Platform] {v : DelView} {bytes : List UInt8}

/-- What is read is written again. -/
theorem Accepted.encode_toBitmap (h : v.Accepted bytes) :
    (v.toBitmap h.length).encode = .ok bytes := by
  have hCount : (v.toBitmap h.length).count = .ok v.numDeleted.toNat := h.count
  rw [ByteBitmap.encode, hCount, Chk.ok_bind]
  exact congrArg Except.ok h.bytes.symm

/-- What is read is a set of ids. -/
theorem Accepted.toBitmap_eq (h : v.Accepted bytes) :
    ∃ is, v.toBitmap h.length = (ByteBitmap.new v.numDocs).setAll is := by
  refine ⟨((List.range v.numDocs.toNat).filter (bitAt v.bits)).map UInt32.ofNat, ?_⟩
  apply ByteBitmap.ext
  · exact (ByteBitmap.numDocs_setAll (ByteBitmap.new v.numDocs) _).symm
  have hLen : v.bits.length = ((ByteBitmap.new v.numDocs).setAll
      (((List.range v.numDocs.toNat).filter (bitAt v.bits)).map UInt32.ofNat)).bits.length := by
    rw [ByteBitmap.length_bits, ByteBitmap.numDocs_setAll]
    exact h.length
  have hDocs := v.numDocs.toNat_lt
  refine ext_bitAt hLen ?_
  intro k _
  show bitAt v.bits k = _
  rw [Bool.eq_iff_iff, ByteBitmap.bitAt_new_setAll]
  constructor
  · intro hBit
    have hLt : k < v.numDocs.toNat := by
      by_contra hLe
      rw [h.clear k (Nat.not_lt.mp hLe)] at hBit
      cases hBit
    have hNat : (UInt32.ofNat k).toNat = k := UInt32.toNat_ofNat_of_lt' (hLt.trans hDocs)
    refine ⟨UInt32.ofNat k, ByteBitmap.mem_ids.mpr ⟨List.mem_map_of_mem ?_, ?_⟩, hNat⟩
    · exact List.mem_filter.mpr ⟨List.mem_range.mpr hLt, hBit⟩
    · rw [UInt32.lt_iff_toNat_lt, hNat]
      exact hLt
  · rintro ⟨i, hi, rfl⟩
    obtain ⟨k, hk, rfl⟩ := List.mem_map.mp (ByteBitmap.mem_ids.mp hi).1
    obtain ⟨hRange, hBit⟩ := List.mem_filter.mp hk
    rwa [UInt32.toNat_ofNat_of_lt' ((List.mem_range.mp hRange).trans hDocs)]

end DelView

-- ---------------------------------------------------------------------------
-- One flag a document
-- ---------------------------------------------------------------------------

theorem Bitmap.testBit_foldr (bits : List Bool) (j : Nat) :
    (bits.foldr (fun (b : Bool) acc => b.toNat + 2 * acc) 0).testBit j = bits.getD j false := by
  induction bits generalizing j with
  | nil => exact Nat.zero_testBit j
  | cons b bits ih =>
    have hByte := Bool.toNat_lt b
    rw [List.foldr_cons]
    cases j with
    | zero =>
      have hMod : (b.toNat + 2 * bits.foldr (fun b acc => b.toNat + 2 * acc) 0) % 2 = b.toNat := by
        omega
      rw [Nat.testBit_zero, hMod, List.getD_cons_zero]
      cases b <;> rfl
    | succ j =>
      have hDiv : (b.toNat + 2 * bits.foldr (fun b acc => b.toNat + 2 * acc) 0) / 2 =
          bits.foldr (fun b acc => b.toNat + 2 * acc) 0 := by omega
      rw [Nat.testBit_succ, hDiv, ih, List.getD_cons_succ]

theorem Bitmap.length_packBits (m : Nat) (bits : List Bool) : (packBits m bits).length = m := by
  induction m generalizing bits with
  | zero => rfl
  | succ m ih => rw [packBits, List.length_cons, ih]

theorem Bitmap.bitAt_packBits {m : Nat} {bits : List Bool} {k : Nat} (hk : k < 8 * m) :
    bitAt (packBits m bits) k = bits.getD k false := by
  induction m generalizing bits k with
  | zero => omega
  | succ m ih =>
    rw [packBits]
    by_cases hLow : k < 8
    · have hMod : (UInt8.ofNat ((bits.take 8).foldr (fun b acc => b.toNat + 2 * acc) 0)).toNat =
          (bits.take 8).foldr (fun b acc => b.toNat + 2 * acc) 0 % 2 ^ 8 := UInt8.toNat_ofNat'
      rw [bitAt_cons_low _ _ hLow, hMod, Nat.testBit_mod_two_pow, decide_eq_true hLow,
        Bool.true_and, testBit_foldr, List.getD_eq_getElem?_getD, List.getElem?_take_of_lt hLow,
        List.getD_eq_getElem?_getD]
    · obtain ⟨k', rfl⟩ : ∃ k', k = 8 + k' := ⟨k - 8, by omega⟩
      rw [bitAt_cons_high, ih (by omega), List.getD_eq_getElem?_getD, List.getElem?_drop,
        List.getD_eq_getElem?_getD]

namespace ByteBitmap

/-- The bitmap as one flag for each document. -/
def flags (b : ByteBitmap) : Bitmap where
  numDocs := b.numDocs
  bits := (List.range b.numDocs.toNat).map (bitAt b.bits)
  length_bits := by rw [List.length_map, List.length_range]

theorem getD_flags (b : ByteBitmap) (k : Nat) :
    b.flags.bits.getD k false = (decide (k < b.numDocs.toNat) && bitAt b.bits k) := by
  rw [flags, List.getD_eq_getElem?_getD, List.getElem?_map]
  by_cases hk : k < b.numDocs.toNat
  · rw [List.getElem?_range hk, decide_eq_true hk, Bool.true_and]
    rfl
  · rw [List.getElem?_eq_none (by rw [List.length_range]; omega), decide_eq_false hk,
      Bool.false_and]
    rfl

theorem get_flags (b : ByteBitmap) (i : UInt32) : b.flags.get i = b.get i := by
  rw [Bitmap.get, getD_flags, get_eq, decide_eq_decide.mpr UInt32.lt_iff_toNat_lt.symm]

theorem newlySet_flags (b : ByteBitmap) (i : UInt32) : b.flags.newlySet i = (b.set i).2 := by
  rw [Bitmap.newlySet, get_flags, get_eq, set_snd, Bool.not_and]
  show (decide (i < b.numDocs) && _) = _
  cases decide (i < b.numDocs) <;> rfl

/-- One call on the bytes is one call on the flags. -/
theorem flags_set (b : ByteBitmap) (i : UInt32) : (b.set i).1.flags = b.flags.set i := by
  apply Bitmap.ext
  refine List.ext_getElem? ?_
  intro k
  have hDocs := congrArg UInt32.toNat (b.numDocs_set i)
  rw [flags, flags, Bitmap.set, List.getElem?_set, List.getElem?_map, List.getElem?_map,
    List.length_map, List.length_range, hDocs]
  by_cases hk : k < b.numDocs.toNat
  · rw [List.getElem?_range hk, Option.map_some, Option.map_some]
    by_cases hEq : i.toNat = k
    · rw [if_pos hEq, if_pos (hEq ▸ hk)]
      exact congrArg some ((b.bitAt_set_fst i k).mpr
        (.inr ⟨UInt32.lt_iff_toNat_lt.mpr (hEq ▸ hk), hEq⟩))
    · rw [if_neg hEq]
      refine congrArg some (Bool.eq_iff_iff.mpr ?_)
      rw [b.bitAt_set_fst]
      exact or_iff_left fun h => hEq h.2
  · have hNone : (List.range b.numDocs.toNat)[k]? = none :=
      List.getElem?_eq_none (by rw [List.length_range]; omega)
    rw [hNone, Option.map_none, Option.map_none]
    by_cases hEq : i.toNat = k
    · rw [if_pos hEq, if_neg (hEq ▸ hk)]
    · rw [if_neg hEq]

theorem flags_setAll (b : ByteBitmap) (is : List UInt32) :
    (b.setAll is).flags = is.foldl Bitmap.set b.flags := by
  induction is generalizing b with
  | nil => rfl
  | cons i is ih =>
    have hStep : b.setAll (i :: is) = (b.set i).1.setAll is := rfl
    rw [hStep, ih, flags_set, List.foldl_cons]

theorem packBits_flags {b : ByteBitmap} (h : Clear b.bits b.numDocs) :
    Bitmap.packBits ((b.numDocs.toNat + 7) / 8) b.flags.bits = b.bits := by
  refine ext_bitAt ((Bitmap.length_packBits _ _).trans b.length_bits.symm) ?_
  intro k hk
  rw [Bitmap.length_packBits] at hk
  rw [Bitmap.bitAt_packBits hk, getD_flags]
  by_cases hLt : k < b.numDocs.toNat
  · rw [decide_eq_true hLt, Bool.true_and]
  · rw [decide_eq_false hLt, Bool.false_and, h k (Nat.not_lt.mp hLt)]

theorem count_flags {b : ByteBitmap} (h : Clear b.bits b.numDocs) :
    b.count = .ok b.flags.count.toNat := by
  have hDocs := b.numDocs.toNat_lt
  have hFlags : b.flags.bits.count true =
      Nat.count (fun k => bitAt b.bits k = true) b.numDocs.toNat := by
    rw [flags, List.count, List.countP_map, ← countP_range]
    refine List.countP_congr ?_
    intro k _
    simp only [Function.comp_apply, beq_true]
  -- The bits of the last byte that are past the documents count for nothing.
  have hAll : Nat.count (fun k => bitAt b.bits k = true) (8 * b.bits.length) =
      Nat.count (fun k => bitAt b.bits k = true) b.numDocs.toNat := by
    obtain ⟨r, hr⟩ : ∃ r, 8 * b.bits.length = b.numDocs.toNat + r :=
      ⟨8 * b.bits.length - b.numDocs.toNat, by have := b.length_bits; omega⟩
    have hZero : Nat.count (fun k => bitAt b.bits (b.numDocs.toNat + k) = true) r = 0 := by
      rw [Nat.count_eq_card_filter_range, Finset.card_eq_zero, Finset.filter_eq_empty_iff]
      intro k _
      rw [h _ (Nat.le_add_right _ _)]
      decide
    rw [hr, Nat.count_add, hZero, Nat.add_zero]
  have hLe : Nat.count (fun k => bitAt b.bits k = true) b.numDocs.toNat ≤ b.numDocs.toNat :=
    Nat.count_le _
  have hLt : Nat.count (fun k => bitAt b.bits k = true) b.numDocs.toNat < 2 ^ 32 := by omega
  rw [count, DelView.popcount_eq _ _ (by decide), sum_countOnes, hAll, Nat.zero_add, if_pos hLt,
    Bitmap.count, hFlags, UInt32.toNat_ofNat_of_lt' hLt]

/-- The file of the bytes is that of the flags. -/
theorem encode_flags [Platform] {b : ByteBitmap} (h : Clear b.bits b.numDocs) :
    b.encode = .ok (sealBody .del formatVersion b.flags.body) := by
  rw [encode, count_flags h, Chk.ok_bind, Bitmap.body]
  show _ = Except.ok (sealBody _ _ (_ ++ _ ++
    Bitmap.packBits ((b.numDocs.toNat + 7) / 8) b.flags.bits))
  rw [packBits_flags h]
  rfl

end ByteBitmap

-- ---------------------------------------------------------------------------
-- A set with one encoding
-- ---------------------------------------------------------------------------

/-- After the calls of `set` the bitmap is the set of the ids in range, in memory and in the
file. -/
structure ByteBitmap.IsSet [Platform] (numDocs : UInt32) (is : List UInt32) : Prop where
  get : ∀ i, ((new numDocs).setAll is).get i = true ↔ i ∈ is ∧ i < numDocs
  /-- `set` returns whether it adds an id. -/
  set : ∀ i, (((new numDocs).setAll is).set i).2 = true ↔
    i ∈ ids numDocs (is ++ [i]) ∧ i ∉ ids numDocs is
  count : ((new numDocs).setAll is).count = .ok (ids numDocs is).card
  parsed : ∃ bytes v, ∃ h : v.bits.length = (v.numDocs.toNat + 7) / 8,
    ((new numDocs).setAll is).encode = .ok bytes ∧ DelView.parseVerified bytes = .ok v ∧
      v.numDocs = numDocs ∧ v.numDeleted.toNat = (ids numDocs is).card ∧
      (∀ i, v.isDeleted i = .ok (decide (i ∈ ids numDocs is))) ∧
      v.toBitmap h = (new numDocs).setAll is

/-- The deletion bitmap is a set of ids with a canonical encoding: every sequence of calls of
`set` gives the set of its ids in range, which its file gives back; and a file that is accepted
is the encoding of its bitmap, which is such a set. -/
theorem deletion_bitmap_canonical [Platform] :
    (∀ numDocs is, ByteBitmap.IsSet numDocs is) ∧
    ∀ bytes v, DelView.parseVerified bytes = .ok v →
      ∃ h : v.bits.length = (v.numDocs.toNat + 7) / 8, (v.toBitmap h).encode = .ok bytes ∧
        ∃ is, v.toBitmap h = (ByteBitmap.new v.numDocs).setAll is := by
  refine ⟨fun numDocs is => ?_, fun bytes v hParse => ?_⟩
  · obtain ⟨bytes, v, hEncode, hParse, hDocs, hDeleted, hBits⟩ :=
      ByteBitmap.parse_encode numDocs is
    have hLen := (DelView.accepted_of_parseVerified hParse).length
    have hBitmap : v.toBitmap hLen = (ByteBitmap.new numDocs).setAll is :=
      ByteBitmap.ext (hDocs.trans (ByteBitmap.numDocs_setAll (.new numDocs) is).symm) hBits
    refine ⟨fun i => ?_, fun i => ?_, (ByteBitmap.count_setAll numDocs is).1,
      bytes, v, hLen, hEncode, hParse, hDocs, hDeleted, fun i => ?_, hBitmap⟩
    · rw [ByteBitmap.get_setAll, ByteBitmap.mem_ids]
    · rw [ByteBitmap.set_snd, ByteBitmap.numDocs_setAll, Bool.and_eq_true, decide_eq_true_eq,
        Bool.not_eq_true', ← Bool.not_eq_true, ByteBitmap.bitAt_toNat_setAll,
        @ByteBitmap.mem_ids _ _ (is ++ [i]), List.mem_append, List.mem_singleton]
      exact and_congr_left' ⟨fun hLt => ⟨.inr rfl, hLt⟩, And.right⟩
    · rw [v.isDeleted_eq hLen, hBitmap]
      refine congrArg Except.ok (Bool.eq_iff_iff.mpr ?_)
      rw [ByteBitmap.get_setAll, decide_eq_true_eq]
  · have hAccepted := DelView.accepted_of_parseVerified hParse
    exact ⟨hAccepted.length, hAccepted.encode_toBitmap, hAccepted.toBitmap_eq⟩

/-- Nine documents: an id of the second byte is set twice, and one out of range. -/
theorem deletion_bitmap_canonical_nine :
    let _ : Platform := .reference
    ∃ bytes v, ∃ h : v.bits.length = (v.numDocs.toNat + 7) / 8,
      ((ByteBitmap.new 9).setAll [8, 0, 8, 9]).encode = .ok bytes ∧
        DelView.parseVerified bytes = .ok v ∧ v.numDeleted.toNat = 2 ∧
        v.isDeleted 8 = .ok true ∧ v.isDeleted 9 = .ok false ∧
        (v.toBitmap h).encode = .ok bytes := by
  intro _
  obtain ⟨hSets, hFiles⟩ := deletion_bitmap_canonical
  obtain ⟨bytes, v, -, hEncode, hParse, -, hDeleted, hIs, -⟩ := (hSets 9 [8, 0, 8, 9]).parsed
  obtain ⟨h, hAgain, -⟩ := hFiles bytes v hParse
  have hCard : (ByteBitmap.ids 9 [8, 0, 8, 9]).card = 2 := by decide
  have hEight : decide (8 ∈ ByteBitmap.ids 9 [8, 0, 8, 9]) = true := by decide
  have hNine : decide (9 ∈ ByteBitmap.ids 9 [8, 0, 8, 9]) = false := by decide
  exact ⟨bytes, v, h, hEncode, hParse, hDeleted.trans hCard, hEight ▸ hIs 8, hNine ▸ hIs 9,
    hAgain⟩

end Ripindex
