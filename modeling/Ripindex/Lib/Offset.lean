import Mathlib.Algebra.BigOperators.Group.List.Basic
import Mathlib.Algebra.Order.Ring.Nat
import Mathlib.Tactic.Common

/-!
# Offsets in lists of items of different widths

A list whose items have positive widths, such as the characters of a text with the lengths of
their encodings. A place in the list is given by an offset, the width of what stands before it;
not every number is the offset of a place.

## Results

* `Offset.split_eq_some`, `Offset.slice_eq_some` — what stands at offsets;
* `Offset.slice_inner` — a slice of a middle part is a slice of the whole.
-/

namespace Offset

variable {α : Type*} (w : α → Nat)

/-- The width of a list. -/
def width (l : List α) : Nat := (l.map w).sum

/-- What stands before an offset, and behind it. -/
def split : List α → Nat → Option (List α × List α)
  | l, 0 => some ([], l)
  | [], _ + 1 => none
  | a :: l, n + 1 =>
    if w a ≤ n + 1 then (split l (n + 1 - w a)).map fun parts => (a :: parts.1, parts.2)
    else none

/-- What stands between two offsets; `none` where one of them is not the offset of a place, or
they are in the wrong order. -/
def slice (l : List α) (i j : Nat) : Option (List α) :=
  if i ≤ j then (split w l j).bind fun parts => (split w parts.1 i).map Prod.snd else none

variable {w}

@[simp] theorem width_nil : width w [] = 0 := rfl

@[simp] theorem width_cons (a : α) (l : List α) : width w (a :: l) = w a + width w l :=
  List.sum_cons

@[simp] theorem width_append (l m : List α) : width w (l ++ m) = width w l + width w m := by
  unfold width
  rw [List.map_append, List.sum_append]

section Positive

variable (hw : ∀ a, 0 < w a) {l m p q x y z : List α} {i j n : Nat}

include hw

theorem width_eq_zero : width w l = 0 ↔ l = [] := by
  constructor
  · intro h
    rcases l with _ | ⟨a, l⟩
    · rfl
    · have hPos := hw a
      rw [width_cons] at h
      omega
  · rintro rfl
    rfl

/-- Of two beginnings of a list the narrower one begins the other. -/
theorem exists_append_of_width_le (h : p ++ q = x ++ y) (hLe : width w p ≤ width w x) :
    ∃ z, x = p ++ z ∧ q = z ++ y := by
  rcases List.append_eq_append_iff.mp h with ⟨z, rfl, rfl⟩ | ⟨z, rfl, rfl⟩
  · exact ⟨z, rfl, rfl⟩
  · rw [width_append] at hLe
    obtain rfl := (width_eq_zero hw).mp (by omega : width w z = 0)
    exact ⟨[], by simp, by simp⟩

theorem split_eq_some : split w l n = some (p, q) ↔ l = p ++ q ∧ width w p = n := by
  induction l generalizing n p with
  | nil =>
    rcases n with _ | n
    · simp only [split, Option.some.injEq, Prod.mk.injEq]
      constructor
      · rintro ⟨rfl, rfl⟩
        exact ⟨rfl, rfl⟩
      · rintro ⟨hNil, -⟩
        obtain ⟨rfl, rfl⟩ := List.append_eq_nil_iff.mp hNil.symm
        exact ⟨rfl, rfl⟩
    · simp only [split, reduceCtorEq, false_iff]
      rintro ⟨hNil, hWidth⟩
      obtain ⟨rfl, rfl⟩ := List.append_eq_nil_iff.mp hNil.symm
      cases hWidth
  | cons a l ih =>
    have hPos := hw a
    rcases n with _ | n
    · simp only [split, Option.some.injEq, Prod.mk.injEq, width_eq_zero hw]
      constructor
      · rintro ⟨rfl, rfl⟩
        exact ⟨rfl, rfl⟩
      · rintro ⟨hEq, rfl⟩
        exact ⟨rfl, hEq⟩
    · rw [split]
      constructor
      · intro h
        split_ifs at h with hLe
        obtain ⟨⟨p', q'⟩, hRest, hEq⟩ := Option.map_eq_some_iff.mp h
        obtain ⟨rfl, rfl⟩ := Prod.mk.inj hEq
        obtain ⟨rfl, hWidth⟩ := ih.mp hRest
        refine ⟨rfl, ?_⟩
        rw [width_cons, hWidth]
        omega
      · rintro ⟨hEq, hWidth⟩
        rcases p with _ | ⟨b, p⟩
        · cases hWidth
        · obtain ⟨rfl, rfl⟩ := List.cons.inj hEq
          rw [width_cons] at hWidth
          have hRest := ih.mpr ⟨rfl, (by omega : width w p = n + 1 - w a)⟩
          rw [if_pos (by omega), hRest]
          rfl

theorem slice_eq_some :
    slice w l i j = some m ↔
      ∃ p q, l = p ++ m ++ q ∧ width w p = i ∧ width w p + width w m = j := by
  constructor
  · intro h
    unfold slice at h
    split_ifs at h
    obtain ⟨⟨before, q⟩, hBefore, hRest⟩ := Option.bind_eq_some_iff.mp h
    obtain ⟨⟨p, m'⟩, hSplit, rfl⟩ := Option.map_eq_some_iff.mp hRest
    obtain ⟨rfl, hJ⟩ := (split_eq_some hw).mp hBefore
    obtain ⟨hParts, hI⟩ := (split_eq_some hw).mp hSplit
    obtain rfl : before = p ++ m' := hParts
    exact ⟨p, q, rfl, hI, by rw [← hJ, width_append]⟩
  · rintro ⟨p, q, rfl, rfl, rfl⟩
    have hBefore : split w (p ++ m ++ q) (width w p + width w m) = some (p ++ m, q) :=
      (split_eq_some hw).mpr ⟨rfl, width_append p m⟩
    have hSplit : split w (p ++ m) (width w p) = some (p, m) :=
      (split_eq_some hw).mpr ⟨rfl, rfl⟩
    rw [slice, if_pos (Nat.le_add_right _ _), hBefore]
    simp only [Option.bind_some, hSplit, Option.map_some]

/-- Between two offsets in the middle part of a list. -/
theorem slice_inner (hi : width w x ≤ i) (hij : i ≤ j)
    (hj : j ≤ width w x + width w y) :
    slice w (x ++ y ++ z) i j = slice w y (i - width w x) (j - width w x) := by
  apply Option.ext
  intro m
  rw [slice_eq_some hw, slice_eq_some hw]
  constructor
  · rintro ⟨p, q, hEq, rfl, rfl⟩
    have hFirst : x ++ (y ++ z) = p ++ (m ++ q) := by
      simpa [List.append_assoc] using hEq
    obtain ⟨p', rfl, hRest⟩ := exists_append_of_width_le hw hFirst hi
    rw [width_append] at hj ⊢
    have hSecond : (p' ++ m) ++ q = y ++ z := by
      rw [hRest, List.append_assoc]
    obtain ⟨q', rfl, -⟩ := exists_append_of_width_le hw hSecond (by
      rw [width_append]
      omega)
    exact ⟨p', q', rfl, by omega, by omega⟩
  · rintro ⟨p, q, rfl, hI, hJ⟩
    refine ⟨x ++ p, q ++ z, by simp [List.append_assoc], ?_, ?_⟩
    · rw [width_append]
      omega
    · rw [width_append]
      omega

/-- The offsets of a slice. -/
theorem le_of_slice (h : slice w l i j = some m) : i ≤ j ∧ j ≤ width w l := by
  obtain ⟨p, q, rfl, rfl, rfl⟩ := (slice_eq_some hw).mp h
  simp only [width_append]
  omega

theorem slice_to_end (h : l = p ++ q) (hp : width w p = i) :
    slice w l i (width w l) = some q := by
  refine (slice_eq_some hw).mpr ⟨p, [], ?_, hp, ?_⟩
  · rw [List.append_nil, h]
  · rw [h, width_append]

end Positive

end Offset
