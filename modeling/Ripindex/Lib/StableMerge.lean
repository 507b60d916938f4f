import Mathlib.Data.List.Sort
import Mathlib.Data.List.TakeWhile

/-!
# The front of a stable sort

Sorted lists that are put one behind the other and sorted again, stably: the first `n` elements
come from the first `n` of each list.

## Results

* `mergeSort_append`       — behind a sorted list, sorting is merging.
* `take_merge`             — the front of a merge is made of the fronts.
* `take_mergeSort_flatMap` — the front of the whole, from the fronts of the lists.
-/

variable {α β : Type} {le : α → α → Bool}

theorem merge_append_of_not_le {a : α} {xs ys zs : List α} (h : ∀ b ∈ ys, le a b = false) :
    List.merge (a :: xs) (ys ++ zs) le = ys ++ List.merge (a :: xs) zs le := by
  induction ys with
  | nil => rfl
  | cons b ys ih =>
    have hb : ¬le a b = true := by simp [h b (List.mem_cons_self ..)]
    rw [List.cons_append, List.cons_merge_cons_neg _ _ _ hb,
      ih fun c hc => h c (List.mem_cons_of_mem _ hc), List.cons_append]

theorem merge_cons_of_le {a : α} {xs ys : List α} (h : ∀ b ∈ ys, le a b = true) :
    List.merge (a :: xs) ys le = a :: List.merge xs ys le := by
  cases ys with
  | nil => simp
  | cons b ys => rw [List.cons_merge_cons_pos _ _ _ (h b (List.mem_cons_self ..))]

/-- The front of a merge is made of the fronts. -/
theorem take_merge {n m k : Nat} (hm : n ≤ m) (hk : n ≤ k) (xs ys : List α) :
    (List.merge xs ys le).take n = (List.merge (xs.take m) (ys.take k) le).take n := by
  induction n generalizing m k xs ys with
  | zero => rw [List.take_zero, List.take_zero]
  | succ n ih =>
    obtain ⟨m, rfl⟩ := Nat.exists_eq_add_of_le' hm
    obtain ⟨k, rfl⟩ := Nat.exists_eq_add_of_le' hk
    match xs, ys with
    | [], ys =>
      rw [List.take_nil, List.nil_merge, List.nil_merge, List.take_take, min_eq_left hk]
    | x :: xs, [] =>
      rw [List.take_nil, List.merge_right, List.merge_right, List.take_take, min_eq_left hm]
    | x :: xs, y :: ys =>
      rw [← Nat.add_assoc, ← Nat.add_assoc, List.take_succ_cons, List.take_succ_cons]
      by_cases hxy : le x y = true
      · rw [List.cons_merge_cons_pos _ _ _ hxy, List.cons_merge_cons_pos _ _ _ hxy,
          List.take_succ_cons, List.take_succ_cons,
          ih (m := m + n) (k := k + n + 1) (by omega) (by omega) xs (y :: ys),
          List.take_succ_cons]
      · rw [List.cons_merge_cons_neg _ _ _ hxy, List.cons_merge_cons_neg _ _ _ hxy,
          List.take_succ_cons, List.take_succ_cons,
          ih (m := m + n + 1) (k := k + n) (by omega) (by omega) (x :: xs) ys,
          List.take_succ_cons]

/-- What a sorted list is cut into by an element. -/
theorem exists_split_of_sorted
    (hTrans : ∀ a b c, le a b = true → le b c = true → le a c = true) (a : α) {s : List α}
    (hs : s.Pairwise fun b c => le b c = true) :
    ∃ l₁ l₂, s = l₁ ++ l₂ ∧ (∀ b ∈ l₁, le a b = false) ∧ ∀ b ∈ l₂, le a b = true := by
  refine ⟨s.takeWhile fun b => !le a b, s.dropWhile fun b => !le a b,
    (List.takeWhile_append_dropWhile ..).symm, fun b hb => ?_, fun b hb => ?_⟩
  · simpa using List.mem_takeWhile_imp hb
  · rw [← List.takeWhile_append_dropWhile (p := fun b => !le a b) (l := s)] at hs
    have hRest := (List.pairwise_append.mp hs).2.1
    have hHead := List.head?_dropWhile_not (fun b => !le a b) s
    rcases hDrop : s.dropWhile (fun b => !le a b) with _ | ⟨c, cs⟩
    · rw [hDrop] at hb
      cases hb
    · rw [hDrop] at hRest hHead hb
      have hc : le a c = true := by simpa using hHead
      rcases List.mem_cons.mp hb with rfl | hb
      · exact hc
      · exact hTrans a c b hc ((List.pairwise_cons.mp hRest).1 b hb)

section Sorted

variable (hTrans : ∀ a b c, le a b = true → le b c = true → le a c = true)
  (hTotal : ∀ a b, (le a b || le b a) = true)

include hTrans hTotal

theorem mergeSort_cons_eq_merge (a : α) (l : List α) :
    (a :: l).mergeSort le = List.merge [a] (l.mergeSort le) le := by
  obtain ⟨l₁, l₂, hCons, hSplit, hBefore⟩ := List.mergeSort_cons hTrans hTotal a l
  have hSorted := List.pairwise_mergeSort hTrans hTotal (a :: l)
  rw [hCons] at hSorted
  have hAfter : ∀ b ∈ l₂, le a b = true :=
    (List.pairwise_cons.mp (List.pairwise_append.mp hSorted).2.1).1
  rw [hCons, hSplit, merge_append_of_not_le fun b hb => by simpa using hBefore b hb,
    merge_cons_of_le hAfter, List.nil_merge]

/-- Behind a sorted list, sorting is merging. -/
theorem mergeSort_append {xs : List α} (hxs : xs.Pairwise fun a b => le a b = true)
    (l : List α) : (xs ++ l).mergeSort le = List.merge xs (l.mergeSort le) le := by
  induction xs with
  | nil => rw [List.nil_append, List.nil_merge]
  | cons a xs ih =>
    obtain ⟨hHead, hRest⟩ := List.pairwise_cons.mp hxs
    rw [List.cons_append, mergeSort_cons_eq_merge hTrans hTotal, ih hRest]
    obtain ⟨l₁, l₂, hSplit, hBefore, hAfter⟩ :=
      exists_split_of_sorted hTrans a (List.pairwise_mergeSort hTrans hTotal l)
    have hInner : List.merge xs (l₁ ++ l₂) le = l₁ ++ List.merge xs l₂ le := by
      cases xs with
      | nil => rw [List.nil_merge, List.nil_merge]
      | cons x xs =>
        refine merge_append_of_not_le fun b hb => ?_
        have hax := hHead x (List.mem_cons_self ..)
        have hab := hBefore b hb
        by_contra hxb
        rw [hTrans a x b hax (by simpa using hxb)] at hab
        cases hab
    have hFront : ∀ b ∈ List.merge xs l₂ le, le a b = true := by
      intro b hb
      rcases List.mem_merge.mp hb with hb | hb
      · exact hHead b hb
      · exact hAfter b hb
    rw [hSplit, hInner, merge_append_of_not_le hBefore, merge_append_of_not_le hBefore,
      merge_cons_of_le hFront, merge_cons_of_le hAfter, List.nil_merge]

/-- The front of sorted lists sorted together is made of their fronts. -/
theorem take_mergeSort_flatMap {f : β → List α}
    (hSorted : ∀ t, (f t).Pairwise fun a b => le a b = true) (n : Nat) (ts : List β) :
    ((ts.flatMap f).mergeSort le).take n =
      ((ts.flatMap fun t => (f t).take n).mergeSort le).take n := by
  induction ts with
  | nil => rfl
  | cons t ts ih =>
    have hFront := (hSorted t).sublist (List.take_sublist n (f t))
    have hBack := @take_merge _ le n n n (le_refl n) (le_refl n) ((f t).take n)
      ((ts.flatMap fun t => (f t).take n).mergeSort le)
    rw [List.take_take, min_self] at hBack
    rw [List.flatMap_cons, List.flatMap_cons, mergeSort_append hTrans hTotal (hSorted t),
      mergeSort_append hTrans hTotal hFront, hBack, ← ih]
    exact take_merge (le_refl n) (le_refl n) _ _

end Sorted
