import Mathlib.Data.String.Basic

/-!
# The bytes of a text

Byte arrays as lists, and the text that is read back from its own bytes.

## Results

* `ByteArray.toByteArray_toList` — a byte array from its list;
* `String.toUTF8_toList_inj`, `String.fromUTF8?_toUTF8` — a text from its bytes.
-/

namespace ByteArray

theorem toList_loop (a : ByteArray) (i : Nat) (r : List UInt8) :
    toList.loop a i r = r.reverse ++ a.data.toList.drop i := by
  induction h : a.size - i generalizing i r with
  | zero =>
    have hLe : a.data.toList.length ≤ i := by
      rw [Array.length_toList]
      show a.size ≤ i
      omega
    rw [toList.loop, if_neg (by omega), List.drop_eq_nil_of_le hLe, List.append_nil]
  | succ n ih =>
    have hLt : i < a.data.toList.length := by
      rw [Array.length_toList]
      show i < a.size
      omega
    have hGet : a.get! i = a.data.toList[i] := by
      rw [Array.getElem_toList]
      exact getElem!_pos a.data i hLt
    rw [toList.loop, if_pos (by omega), ih (i + 1) _ (by omega), List.reverse_cons,
      List.append_assoc, List.drop_eq_getElem_cons hLt, hGet]
    rfl

theorem toList_eq_data (a : ByteArray) : a.toList = a.data.toList := by
  rw [toList, toList_loop, List.drop_zero]
  rfl

theorem toByteArray_toList (a : ByteArray) : a.toList.toByteArray = a := by
  apply ByteArray.ext
  apply Array.toList_inj.mp
  rw [List.toList_data_toByteArray, toList_eq_data]

end ByteArray

namespace String

theorem length_toUTF8_toList (t : String) : t.toUTF8.toList.length = t.utf8ByteSize := by
  rw [ByteArray.toList_eq_data, Array.length_toList]
  rfl

theorem toUTF8_toList_inj {s t : String} : s.toUTF8.toList = t.toUTF8.toList ↔ s = t := by
  constructor
  · intro h
    have hBytes := congrArg List.toByteArray h
    rw [ByteArray.toByteArray_toList, ByteArray.toByteArray_toList] at hBytes
    exact String.toByteArray_inj.mp hBytes
  · rintro rfl
    rfl

theorem fromUTF8?_toUTF8 (t : String) : String.fromUTF8? t.toUTF8 = some t := by
  have hValid : t.toUTF8.IsValidUTF8 := t.isValidUTF8
  unfold String.fromUTF8?
  rw [dif_pos hValid]
  rfl

end String
