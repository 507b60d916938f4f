import Mathlib.Data.List.Sort

/-!
# The first elements of an order

A partition around the `n`-th element puts the first `n` in front, in any order. Sorted, they
are what sorting everything gives first.

## Results

* `SelectNth.sort_take` — the first elements, by a partition.
-/

variable {α : Type} {le : α → α → Bool}

/-- A selection: around the `n`-th element, as long as there is one. -/
structure SelectNth (le : α → α → Bool) where
  select : Nat → List α → List α
  perm : ∀ n l, (select n l).Perm l
  front : ∀ n l, n < l.length → ∀ a ∈ (select n l).take (n + 1), ∀ b ∈ (select n l).drop (n + 1),
    le a b = true

/-- A sort that leaves open how equals come out. -/
structure UnstableSort (le : α → α → Bool) where
  sort : List α → List α
  perm : ∀ l, (sort l).Perm l
  sorted : ∀ l, (sort l).Pairwise fun a b => le a b = true

/-- A selection by sorting. -/
def SelectNth.ofSort (le : α → α → Bool)
    (hTrans : ∀ a b c, le a b = true → le b c = true → le a c = true)
    (hTotal : ∀ a b, (le a b || le b a) = true) : SelectNth le where
  select _ l := l.mergeSort le
  perm _ l := List.mergeSort_perm l le
  front n l _ a ha b hb := by
    have hSorted := List.pairwise_mergeSort hTrans hTotal l
    rw [← List.take_append_drop (n + 1) (l.mergeSort le)] at hSorted
    exact (List.pairwise_append.mp hSorted).2.2 a ha b hb

section Sorted

variable (hTrans : ∀ a b c, le a b = true → le b c = true → le a c = true)
  (hTotal : ∀ a b, (le a b || le b a) = true)

include hTrans hTotal

/-- What is in front of the rest is, sorted, the front of everything sorted. -/
theorem mergeSort_take_of_front {l l' : List α} {n : Nat} (hPerm : l'.Perm l)
    (hFront : ∀ a ∈ l'.take n, ∀ b ∈ l'.drop n, le a b = true)
    (hAnti : ∀ a ∈ l, ∀ b ∈ l, le a b = true → le b a = true → a = b) (hn : n ≤ l.length) :
    (l'.take n).mergeSort le = (l.mergeSort le).take n := by
  have hParts : ((l'.take n).mergeSort le ++ (l'.drop n).mergeSort le).Perm (l.mergeSort le) := by
    refine ((List.mergeSort_perm _ le).append (List.mergeSort_perm _ le)).trans ?_
    rw [List.take_append_drop]
    exact hPerm.trans (List.mergeSort_perm l le).symm
  have hSorted : ((l'.take n).mergeSort le ++ (l'.drop n).mergeSort le).Pairwise
      fun a b => le a b = true := by
    refine List.pairwise_append.mpr ⟨List.pairwise_mergeSort hTrans hTotal _,
      List.pairwise_mergeSort hTrans hTotal _, fun a ha b hb => ?_⟩
    exact hFront a (List.mem_mergeSort.mp ha) b (List.mem_mergeSort.mp hb)
  have hEq := hParts.eq_of_pairwise (fun a b ha hb => hAnti a
    (List.mem_mergeSort.mp (hParts.subset ha)) b (List.mem_mergeSort.mp hb))
    hSorted (List.pairwise_mergeSort hTrans hTotal l)
  rw [← hEq, List.take_left']
  rw [List.length_mergeSort, List.length_take, hPerm.length_eq, Nat.min_eq_left hn]

/-- Partition around the last element wanted, cut, and sort what is left. -/
theorem SelectNth.sort_take (S : SelectNth le) {l : List α} {n : Nat} (hn : n < l.length)
    (hAnti : ∀ a ∈ l, ∀ b ∈ l, le a b = true → le b a = true → a = b) :
    (((if 0 < n then S.select (n - 1) l else l).take n).mergeSort le) =
      (l.mergeSort le).take n := by
  split_ifs with h
  · have hFront := S.front (n - 1) l (by omega)
    rw [Nat.sub_add_cancel h] at hFront
    exact mergeSort_take_of_front hTrans hTotal (S.perm _ l) hFront hAnti hn.le
  · obtain rfl : n = 0 := by omega
    simp

end Sorted
