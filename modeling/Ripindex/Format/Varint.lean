import Ripindex.Format.Envelope

/-!
# Reading varints

`format/varint.rs`. A reader takes the buffer and a position in it, and returns the value
with the position behind it.

## Results

* `readU32_putU32` — what `put_u32` writes is read back, wherever it stands.
-/

namespace Ripindex.Format

/-- The loop of `read_u64`; ten bytes are the most it reads. The seven bits of a byte do not
overlap `v`, so that they are added to it. -/
def readU64From (buf : List UInt8) : Nat → Nat → Nat → Nat → Except FormatError (Nat × Nat)
  | 0, _, _, _ => .error (.corrupt "varint longer than 10 bytes")
  | fuel + 1, pos, v, shift =>
    match buf[pos]? with
    | none => .error .truncated
    | some byte =>
      if shift = 63 ∧ 1 < byte then .error (.corrupt "varint overflows u64")
      else
        let v' := v + byte.toNat % 128 * 2 ^ shift
        if byte < 128 then .ok (v', pos + 1) else readU64From buf fuel (pos + 1) v' (shift + 7)

/-- `read_u64`. -/
def readU64 (buf : List UInt8) (pos : Nat) : Except FormatError (Nat × Nat) :=
  readU64From buf 10 pos 0 0

/-- `read_u32`. -/
def readU32 (buf : List UInt8) (pos : Nat) : Except FormatError (UInt32 × Nat) :=
  match readU64 buf pos with
  | .error e => .error e
  | .ok (v, pos') =>
    if v < 2 ^ 32 then .ok (UInt32.ofNat v, pos')
    else .error (.corrupt "varint exceeds u32")

/-- The bytes stand in the buffer at the position. -/
def At (buf : List UInt8) (pos : Nat) (bytes : List UInt8) : Prop :=
  ∃ rest, buf.drop pos = bytes ++ rest

theorem At.left {buf : List UInt8} {pos : Nat} {as bs : List UInt8}
    (h : At buf pos (as ++ bs)) : At buf pos as := by
  obtain ⟨rest, hRest⟩ := h
  exact ⟨bs ++ rest, by rw [hRest, List.append_assoc]⟩

theorem At.right {buf : List UInt8} {pos : Nat} {as bs : List UInt8}
    (h : At buf pos (as ++ bs)) : At buf (pos + as.length) bs := by
  obtain ⟨rest, hRest⟩ := h
  refine ⟨rest, ?_⟩
  rw [← List.drop_drop, hRest, List.append_assoc, List.drop_left]

theorem At.head {buf : List UInt8} {pos : Nat} {b : UInt8} {bs : List UInt8}
    (h : At buf pos (b :: bs)) : buf[pos]? = some b := by
  obtain ⟨rest, hRest⟩ := h
  have hGet := congrArg (fun l : List UInt8 => l[0]?) hRest
  simpa using hGet

theorem At.length_le {buf : List UInt8} {pos : Nat} {bytes : List UInt8} (h : At buf pos bytes)
    (hPos : pos ≤ buf.length) : pos + bytes.length ≤ buf.length := by
  obtain ⟨rest, hRest⟩ := h
  have hLen := congrArg List.length hRest
  rw [List.length_drop, List.length_append] at hLen
  omega

/-- Bytes at a place of bytes that stand in the buffer. -/
theorem At.trans {buf outer inner : List UInt8} {pos k : Nat} (h : At buf pos outer)
    (hInner : At outer k inner) (hk : k ≤ outer.length) : At buf (pos + k) inner := by
  obtain ⟨rest, hRest⟩ := h
  obtain ⟨rest', hRest'⟩ := hInner
  refine ⟨rest' ++ rest, ?_⟩
  rw [← List.drop_drop, hRest, List.drop_append_of_le_length hk, hRest', List.append_assoc]

theorem At.of_eq {buf bytes : List UInt8} (h : buf = bytes) : At buf 0 bytes :=
  ⟨[], by rw [List.drop_zero, List.append_nil, h]⟩

/-- A prefix of the buffer that holds the bytes holds them. -/
theorem At.take {buf : List UInt8} {pos : Nat} {bytes : List UInt8} (h : At buf pos bytes) :
    (buf.take (pos + bytes.length)).drop pos = bytes := by
  obtain ⟨rest, hRest⟩ := h
  rw [List.drop_take, hRest, Nat.add_sub_cancel_left, List.take_left]

theorem At.append {buf more : List UInt8} {pos : Nat} {bytes : List UInt8}
    (h : At buf pos bytes) (hPos : pos ≤ buf.length) : At (buf ++ more) pos bytes := by
  obtain ⟨rest, hRest⟩ := h
  exact ⟨rest ++ more, by rw [List.drop_append_of_le_length hPos, hRest, List.append_assoc]⟩

theorem At.of_append (pre bytes post : List UInt8) :
    At (pre ++ (bytes ++ post)) pre.length bytes :=
  ⟨post, List.drop_left⟩

/-- The value written with `n` bytes at most is read back on top of `v`. -/
theorem readU64From_put {buf : List UInt8} {fuel f n pos v shift x : Nat}
    (hAt : At buf pos (putVarintFuel f x)) (hx : x < 2 ^ (7 * n)) (hn : 0 < n) (hf : n ≤ f + 1)
    (hFuel : n ≤ fuel) (hBound : x * 2 ^ shift < 2 ^ 64) :
    readU64From buf fuel pos v shift =
      .ok (v + x * 2 ^ shift, pos + (putVarintFuel f x).length) := by
  induction n generalizing fuel f pos v shift x with
  | zero => omega
  | succ n ih =>
    obtain ⟨fuel, rfl⟩ : ∃ k, fuel = k + 1 := ⟨fuel - 1, by omega⟩
    by_cases hSmall : x < 128
    · -- One byte without the continuation bit.
      have hPut : putVarintFuel f x = [UInt8.ofNat x] := by
        cases f with
        | zero => rfl
        | succ f => rw [putVarintFuel, if_pos hSmall]
      have hByte : (UInt8.ofNat x).toNat = x := UInt8.toNat_ofNat_of_lt' (by
        show x < 2 ^ 8
        omega)
      have hLt : UInt8.ofNat x < 128 := by
        rw [UInt8.lt_iff_toNat_lt, hByte]
        exact hSmall
      -- The tenth byte has one bit of the value.
      have hFits : ¬ (shift = 63 ∧ 1 < UInt8.ofNat x) := by
        rintro ⟨rfl, hBig⟩
        rw [UInt8.lt_iff_toNat_lt, hByte] at hBig
        replace hBig : 1 < x := hBig
        omega
      rw [hPut] at hAt ⊢
      rw [readU64From, hAt.head]
      simp only [hFits, if_false, hLt, if_true, hByte, Nat.mod_eq_of_lt hSmall,
        List.length_singleton]
    · -- A byte with the continuation bit, and the rest of the value.
      have hNotLast : ¬ shift = 63 := by
        rintro rfl
        omega
      have hf' : ∃ k, f = k + 1 := by
        refine ⟨f - 1, ?_⟩
        rcases Nat.eq_zero_or_pos n with rfl | hPos
        · rw [Nat.zero_add, Nat.mul_one] at hx
          omega
        · omega
      obtain ⟨f, rfl⟩ := hf'
      have hPut : putVarintFuel (f + 1) x =
          UInt8.ofNat (x % 128 + 128) :: putVarintFuel f (x / 128) := by
        rw [putVarintFuel, if_neg hSmall]
      have hByte : (UInt8.ofNat (x % 128 + 128)).toNat = x % 128 + 128 :=
        UInt8.toNat_ofNat_of_lt' (by
          show x % 128 + 128 < 2 ^ 8
          omega)
      have hNotLt : ¬ UInt8.ofNat (x % 128 + 128) < 128 := by
        rw [UInt8.lt_iff_toNat_lt, hByte]
        show ¬ x % 128 + 128 < 128
        omega
      rw [hPut] at hAt ⊢
      have hRest : At buf (pos + 1) (putVarintFuel f (x / 128)) := @At.right _ _ [_] _ hAt
      have hDiv : x / 128 < 2 ^ (7 * n) := by
        rw [Nat.div_lt_iff_lt_mul (by decide)]
        calc x < 2 ^ (7 * (n + 1)) := hx
          _ = 2 ^ (7 * n) * 128 := by rw [Nat.mul_succ, Nat.pow_add]
      have hPos : 0 < n := by
        rcases Nat.eq_zero_or_pos n with rfl | hPos
        · rw [Nat.zero_add, Nat.mul_one] at hx
          omega
        · exact hPos
      have hSum : v + (x % 128 + 128) % 128 * 2 ^ shift + x / 128 * 2 ^ (shift + 7) =
          v + x * 2 ^ shift := by
        have hMod : (x % 128 + 128) % 128 = x % 128 := by omega
        have hSplit : x = x % 128 + x / 128 * 128 := by omega
        have hPow : 2 ^ (shift + 7) = 128 * 2 ^ shift := by
          rw [Nat.pow_add, Nat.mul_comm]
        rw [hMod, hPow, Nat.add_assoc, ← Nat.mul_assoc, ← Nat.add_mul, ← hSplit]
      have hBound' : x / 128 * 2 ^ (shift + 7) < 2 ^ 64 := by
        omega
      rw [readU64From, hAt.head]
      simp only [hNotLast, false_and, if_false, hNotLt, hByte]
      rw [ih hRest hDiv hPos (by omega) (by omega) hBound', hSum, List.length_cons]
      congr 2
      omega

/-- What `put_u64` writes is read back. -/
theorem readU64_putVarint {buf : List UInt8} {pos x : Nat} (h : At buf pos (putVarint x))
    (hx : x < 2 ^ 64) : readU64 buf pos = .ok (x, pos + (putVarint x).length) := by
  have hPut := @readU64From_put buf 10 9 10 pos 0 0 x h
    (by omega) (by decide) (by decide) (by decide) (by omega)
  rw [Nat.pow_zero, Nat.mul_one, Nat.zero_add] at hPut
  exact hPut

/-- A number of 32 bits that `put_u64` writes is read back. -/
theorem readU32_putVarint {buf : List UInt8} {pos x : Nat} (h : At buf pos (putVarint x))
    (hx : x < 2 ^ 32) :
    readU32 buf pos = .ok (UInt32.ofNat x, pos + (putVarint x).length) := by
  unfold readU32
  rw [readU64_putVarint h (by omega)]
  simp only [hx, if_true]

/-- What `put_u32` writes is read back. -/
theorem readU32_putU32 {buf : List UInt8} {pos : Nat} {x : UInt32} (h : At buf pos (putU32 x)) :
    readU32 buf pos = .ok (x, pos + (putU32 x).length) := by
  have hRead := readU32_putVarint h x.toNat_lt
  rwa [UInt32.ofNat_toNat] at hRead

end Ripindex.Format
