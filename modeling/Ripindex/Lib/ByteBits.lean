import Mathlib.Data.Nat.Bitwise
import Mathlib.Data.Nat.Count

/-!
# Bits of bytes

A byte string as a set of numbers: eight bits a byte, the lowest first.

## Results

* `bitAt_set`   — a byte with one more bit adds one number to the set;
* `sum_ones`    — the bits of the bytes together are the size of the set;
* `last_clear_iff` — which bits the test of the last byte is about;
* `ext_bitAt`   — byte strings of one length with the same bits are the same.
-/

/-- The bit at a place. -/
def bitAt (bytes : List UInt8) (k : Nat) : Bool :=
  (bytes.getD (k / 8) 0).toNat.testBit (k % 8)

theorem bitAt_of_le {bytes : List UInt8} {k : Nat} (h : 8 * bytes.length ≤ k) :
    bitAt bytes k = false := by
  have hByte : bytes.length ≤ k / 8 := by omega
  rw [bitAt, List.getD_eq_getElem?_getD, List.getElem?_eq_none hByte]
  exact Nat.zero_testBit _

theorem bitAt_replicate (n k : Nat) : bitAt (List.replicate n 0) k = false := by
  by_cases hByte : k / 8 < n
  · rw [bitAt, List.getD_eq_getElem?_getD, List.getElem?_replicate_of_lt hByte]
    exact Nat.zero_testBit _
  · refine bitAt_of_le ?_
    rw [List.length_replicate]
    omega

theorem bitAt_cons_low (b : UInt8) (bytes : List UInt8) {k : Nat} (h : k < 8) :
    bitAt (b :: bytes) k = b.toNat.testBit k := by
  rw [bitAt, Nat.div_eq_of_lt h, Nat.mod_eq_of_lt h, List.getD_cons_zero]

theorem bitAt_cons_high (b : UInt8) (bytes : List UInt8) (k : Nat) :
    bitAt (b :: bytes) (8 + k) = bitAt bytes k := by
  have hDiv : (8 + k) / 8 = k / 8 + 1 := by omega
  have hMod : (8 + k) % 8 = k % 8 := by omega
  rw [bitAt, hDiv, hMod, List.getD_cons_succ, bitAt]

/-- A byte with one more bit. -/
theorem bitAt_set {bytes : List UInt8} {k : Nat} (hk : k / 8 < bytes.length) {b : UInt8}
    (hb : ∀ j, j < 8 → b.toNat.testBit j = (bytes[k / 8].toNat.testBit j || decide (j = k % 8)))
    (j : Nat) : bitAt (bytes.set (k / 8) b) j = (bitAt bytes j || decide (j = k)) := by
  rw [bitAt, bitAt, List.getD_eq_getElem?_getD, List.getD_eq_getElem?_getD, List.getElem?_set]
  by_cases hByte : k / 8 = j / 8
  · have hSame : decide (j % 8 = k % 8) = decide (j = k) := by
      rw [decide_eq_decide]
      omega
    rw [if_pos hByte, if_pos hk, Option.getD_some, hb _ (Nat.mod_lt _ (by decide)), hSame,
      ← hByte, List.getElem?_eq_getElem hk, Option.getD_some]
  · have hOther : decide (j = k) = false := decide_eq_false fun h => hByte (h ▸ rfl)
    rw [if_neg hByte, hOther, Bool.or_false]

/-- Byte strings of one length with the same bits are the same. -/
theorem ext_bitAt {as bs : List UInt8} (hLen : as.length = bs.length)
    (h : ∀ k, k < 8 * as.length → bitAt as k = bitAt bs k) : as = bs := by
  induction as generalizing bs with
  | nil => exact (List.length_eq_zero_iff.mp hLen.symm).symm
  | cons a as ih =>
    obtain ⟨b, bs, rfl⟩ := List.exists_cons_of_length_eq_add_one hLen.symm
    rw [List.length_cons] at h
    have hHead : a = b := by
      refine UInt8.toNat_inj.mp (Nat.eq_of_testBit_eq fun k => ?_)
      by_cases hk : k < 8
      · rw [← bitAt_cons_low a as hk, ← bitAt_cons_low b bs hk]
        exact h k (by omega)
      · have hPow : 2 ^ 8 ≤ 2 ^ k := Nat.pow_le_pow_right (by decide) (by omega)
        rw [Nat.testBit_lt_two_pow (Nat.lt_of_lt_of_le a.toNat_lt hPow),
          Nat.testBit_lt_two_pow (Nat.lt_of_lt_of_le b.toNat_lt hPow)]
    have hTail : as = bs := by
      refine ih (Nat.succ.inj hLen) ?_
      intro k hk
      rw [← bitAt_cons_high a as k, ← bitAt_cons_high b bs k]
      exact h (8 + k) (by omega)
    rw [hHead, hTail]

/-- With as many bytes as `n` bits take, no bit from `n` on is set exactly when the last byte has
none. -/
theorem last_clear_iff {bytes : List UInt8} {n : Nat} (hLen : bytes.length = (n + 7) / 8) :
    ¬(n % 8 ≠ 0 ∧ bytes.getLast?.any fun b => b.toNat / 2 ^ (n % 8) ≠ 0) ↔
      ∀ k, n ≤ k → bitAt bytes k = false := by
  by_cases hWhole : n % 8 = 0
  · refine iff_of_true (fun h => h.1 hWhole) fun k hk => bitAt_of_le ?_
    omega
  have hLast : n / 8 < bytes.length := by omega
  have hGet : bytes.getLast? = some bytes[n / 8] := by
    have hIndex : bytes.length - 1 = n / 8 := by omega
    rw [List.getLast?_eq_getElem?, hIndex, List.getElem?_eq_getElem hLast]
  have hBit : ∀ k, k / 8 = n / 8 → bitAt bytes k = bytes[n / 8].toNat.testBit (k % 8) := by
    intro k hk
    rw [bitAt, hk, List.getD_eq_getElem?_getD, List.getElem?_eq_getElem hLast, Option.getD_some]
  rw [hGet, Option.any_some, decide_eq_true_eq, not_and, not_not]
  constructor
  · intro hZero k hk
    by_cases hByte : k / 8 = n / 8
    · have hShift : k % 8 - n % 8 + n % 8 = k % 8 := by omega
      rw [hBit k hByte, ← hShift, ← Nat.testBit_div_two_pow, hZero hWhole, Nat.zero_testBit]
    · exact bitAt_of_le (by omega)
  · intro hClear _
    refine Nat.eq_of_testBit_eq ?_
    intro i
    rw [Nat.testBit_div_two_pow, Nat.zero_testBit]
    by_cases hi : i + n % 8 < 8
    · have hDiv : (n + i) / 8 = n / 8 := by omega
      have hMod : (n + i) % 8 = i + n % 8 := by omega
      rw [← hMod, ← hBit _ hDiv]
      exact hClear _ (Nat.le_add_right n i)
    · have hPow : 2 ^ 8 ≤ 2 ^ (i + n % 8) := Nat.pow_le_pow_right (by decide) (by omega)
      exact Nat.testBit_lt_two_pow (Nat.lt_of_lt_of_le (UInt8.toNat_lt _) hPow)

-- ---------------------------------------------------------------------------
-- How many
-- ---------------------------------------------------------------------------

theorem countP_range (p : Nat → Bool) (n : Nat) :
    (List.range n).countP p = Nat.count (fun k => p k = true) n := by
  induction n with
  | zero => rfl
  | succ n ih =>
    rw [List.range_succ, List.countP_append, ih, Nat.count_succ, List.countP_singleton]

/-- The bits of the bytes together are the numbers of the set. -/
theorem sum_ones (bytes : List UInt8) :
    (bytes.map fun b => (List.range 8).countP b.toNat.testBit).sum =
      Nat.count (fun k => bitAt bytes k = true) (8 * bytes.length) := by
  induction bytes with
  | nil => rfl
  | cons b bytes ih =>
    have hLength : 8 * (b :: bytes).length = 8 + 8 * bytes.length := by
      rw [List.length_cons]
      omega
    have hLow : Nat.count (fun k => bitAt (b :: bytes) k = true) 8 =
        Nat.count (fun k => b.toNat.testBit k = true) 8 := by
      rw [Nat.count_eq_card_filter_range, Nat.count_eq_card_filter_range]
      refine congrArg Finset.card (Finset.filter_congr fun k hk => ?_)
      rw [bitAt_cons_low b bytes (Finset.mem_range.mp hk)]
    rw [List.map_cons, List.sum_cons, ih, hLength, Nat.count_add, hLow, countP_range]
    simp only [bitAt_cons_high]

-- ---------------------------------------------------------------------------
-- Masks
-- ---------------------------------------------------------------------------

section Mask

variable {mask : UInt8} {k : Nat} (h : mask.toNat = 2 ^ k)

include h

theorem and_mask_ne_zero (b : UInt8) : (b &&& mask != 0) = b.toNat.testBit k := by
  have hAnd : (b &&& mask).toNat = (b.toNat.testBit k).toNat * 2 ^ k := by
    rw [UInt8.toNat_and, h, Nat.and_two_pow]
  have hPos : 0 < 2 ^ k := Nat.two_pow_pos k
  rw [Bool.eq_iff_iff, bne_iff_ne, ne_eq, ← UInt8.toNat_inj, hAnd]
  cases b.toNat.testBit k with
  | false => simp only [Bool.toNat_false, Nat.zero_mul]; decide
  | true =>
    rw [Bool.toNat_true, Nat.one_mul]
    exact iff_of_true hPos.ne' rfl

theorem testBit_or_mask (b : UInt8) (j : Nat) :
    (b ||| mask).toNat.testBit j = (b.toNat.testBit j || decide (j = k)) := by
  rw [UInt8.toNat_or, h, Nat.testBit_or, Nat.testBit_two_pow]
  congr 1
  exact decide_eq_decide.mpr eq_comm

end Mask
