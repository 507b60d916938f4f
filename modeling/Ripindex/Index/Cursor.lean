import Ripindex.Index.Memory

/-!
# Posting cursors

`index/postings.rs` and the cursor of `index/memory.rs`. Operations and results are data, so
that two cursors can be run side by side.

## Results

* `MemPostingCursor.seek_eq` — galloping finds the first posting at or behind the target.
-/

namespace Ripindex

/-- One call of a `PostingCursor`. -/
inductive CursorOp
  | doc
  | advance
  | seek (target : DocId)
  | positions
  | termFreq

inductive CursorResult
  | doc (d : Option DocId)
  | positions (ps : List Position)
  | termFreq (n : UInt32)
  deriving DecidableEq, Repr

structure MemPostingCursor where
  postings : MemPostingList
  idx : Nat

namespace MemPostingCursor

def new (postings : MemPostingList) : MemPostingCursor := ⟨postings, 0⟩

def current (c : MemPostingCursor) : Option Posting := c.postings[c.idx]?

def doc (c : MemPostingCursor) : Option DocId := c.current.map Posting.doc

def advance (c : MemPostingCursor) : MemPostingCursor :=
  if c.idx < c.postings.length then { c with idx := c.idx + 1 } else c

/-- The doubling loop of `seek`; `fuel` bounds its turns. The interval searched next. -/
def gallop (ps : MemPostingList) (target : DocId) : Nat → Nat → Nat → Nat × Nat
  | 0, lo, step => (lo, lo + step)
  | fuel + 1, lo, step =>
    if ps[lo + step]?.any fun p => p.doc < target then
      gallop ps target fuel (lo + step) (step * 2)
    else (lo, lo + step)

/-- `partition_point` on a slice whose documents ascend. -/
def partitionPoint (ps : MemPostingList) (target : DocId) : Nat :=
  (ps.takeWhile fun p => p.doc < target).length

/-- Galloping search forward from the current index. -/
def seek (c : MemPostingCursor) (target : DocId) : MemPostingCursor :=
  match c.current with
  | none => c
  | some p =>
    if target ≤ p.doc then c
    else
      let (lo, hi) := gallop c.postings target c.postings.length c.idx 1
      let hi := min hi c.postings.length
      let slice := (c.postings.take hi).drop (lo + 1)
      { c with idx := lo + 1 + partitionPoint slice target }

/-- One operation; `none` is the panic of indexing behind the end. -/
def step : CursorOp → MemPostingCursor → Option (CursorResult × MemPostingCursor)
  | .doc, c => some (.doc c.doc, c)
  | .advance, c => some (.doc c.advance.doc, c.advance)
  | .seek target, c => some (.doc (c.seek target).doc, c.seek target)
  | .positions, c => c.current.map fun p => (.positions p.positions, c)
  | .termFreq, c => c.current.map fun p => (.termFreq (UInt32.ofNat p.positions.length), c)

/-- Operations one after the other. -/
def run : List CursorOp → MemPostingCursor → Option (List CursorResult × MemPostingCursor)
  | [], c => some ([], c)
  | op :: ops, c => do
    let (r, c) ← step op c
    let (rs, c) ← run ops c
    pure (r :: rs, c)

-- ---------------------------------------------------------------------------
-- Galloping
-- ---------------------------------------------------------------------------

/-- Documents ascend, so that one posting before the target puts those before it there. -/
theorem lt_of_le {ps : MemPostingList} (hPs : ps.Pairwise fun p q => p.doc < q.doc)
    {target : DocId} {i j : Nat} (hij : i ≤ j) {p q : Posting} (hi : ps[i]? = some p)
    (hj : ps[j]? = some q) (hq : q.doc < target) : p.doc < target := by
  rcases Nat.lt_or_eq_of_le hij with hLt | rfl
  · obtain ⟨hi', rfl⟩ := List.getElem?_eq_some_iff.mp hi
    obtain ⟨hj', rfl⟩ := List.getElem?_eq_some_iff.mp hj
    exact UInt32.lt_trans (List.pairwise_iff_getElem.mp hPs i j hi' hj' hLt) hq
  · rwa [Option.some.inj (hi.symm.trans hj)]

/-- The interval the doubling loop ends with: before it lies a posting before the target, and
its end is behind the list or at a posting at or behind the target. -/
theorem gallop_spec {ps : MemPostingList} {target : DocId} {fuel lo step : Nat}
    (hFuel : ps.length ≤ lo + fuel) (hStep : 0 < step)
    (hLo : ∃ p, ps[lo]? = some p ∧ p.doc < target) :
    lo ≤ (gallop ps target fuel lo step).1 ∧
      (gallop ps target fuel lo step).1 < (gallop ps target fuel lo step).2 ∧
      (∃ p, ps[(gallop ps target fuel lo step).1]? = some p ∧ p.doc < target) ∧
      ∀ p, ps[(gallop ps target fuel lo step).2]? = some p → ¬ p.doc < target := by
  induction fuel generalizing lo step with
  | zero =>
    -- The list ends before the fuel does.
    obtain ⟨p, hp, -⟩ := hLo
    obtain ⟨hLt, -⟩ := List.getElem?_eq_some_iff.mp hp
    omega
  | succ fuel ih =>
    rw [gallop]
    split_ifs with hAny
    · obtain ⟨p, hp, hLt⟩ := (Option.any_eq_true _ _).mp hAny
      obtain ⟨h1, h2, h3, h4⟩ := ih (by omega : ps.length ≤ lo + step + fuel)
        (by omega : 0 < step * 2) ⟨p, hp, of_decide_eq_true hLt⟩
      exact ⟨by omega, h2, h3, h4⟩
    · refine ⟨Nat.le_refl _, by omega, hLo, fun p hp hLt => hAny ?_⟩
      show (ps[lo + step]?.any fun p => p.doc < target) = true
      rw [hp]
      exact decide_eq_true hLt

/-- An index with everything from `i` to it before the target, and nothing before the target
at it, is where dropping the postings before the target ends. -/
theorem drop_eq_dropWhile {ps : MemPostingList} {target : DocId} {i j : Nat} (hij : i ≤ j)
    (hBefore : ∀ k, i ≤ k → k < j → ∀ p, ps[k]? = some p → p.doc < target)
    (hAt : ∀ p, ps[j]? = some p → ¬ p.doc < target) :
    ps.drop j = (ps.drop i).dropWhile fun p => p.doc < target := by
  have hSplit : ps.drop i = (ps.drop i).take (j - i) ++ ps.drop j := by
    have hAll := List.take_append_drop (j - i) (ps.drop i)
    rw [List.drop_drop, Nat.add_sub_cancel' hij] at hAll
    exact hAll.symm
  have hTake : ∀ p ∈ (ps.drop i).take (j - i), decide (p.doc < target) = true := by
    intro p hp
    obtain ⟨k, hGet⟩ := List.mem_iff_getElem?.mp hp
    rw [List.getElem?_take] at hGet
    split_ifs at hGet with hk
    rw [List.getElem?_drop] at hGet
    exact decide_eq_true (hBefore (i + k) (by omega) (by omega) p hGet)
  have hStop : (ps.drop j).dropWhile (fun p => p.doc < target) = ps.drop j := by
    rcases hDrop : ps.drop j with _ | ⟨p, rest⟩
    · rfl
    · have hp : ps[j]? = some p := by
        rw [← List.head?_drop, hDrop]
        rfl
      exact List.dropWhile_cons_of_neg (by simpa using hAt p hp)
  rw [hSplit, List.dropWhile_append_of_pos hTake, hStop]

/-- The first entry `partition_point` does not count is not before the target. -/
theorem not_lt_partitionPoint {ps : MemPostingList} {target : DocId} {p : Posting}
    (h : ps[partitionPoint ps target]? = some p) : ¬ p.doc < target := by
  induction ps with
  | nil => cases h
  | cons q ps ih =>
    by_cases hq : q.doc < target
    · have hLen : partitionPoint (q :: ps) target = partitionPoint ps target + 1 := by
        unfold partitionPoint
        rw [List.takeWhile_cons, if_pos (decide_eq_true hq), List.length_cons]
      rw [hLen, List.getElem?_cons_succ] at h
      exact ih h
    · have hLen : partitionPoint (q :: ps) target = 0 := by
        unfold partitionPoint
        rw [List.takeWhile_cons_of_neg (by simpa using hq), List.length_nil]
      rw [hLen, List.getElem?_cons_zero] at h
      rwa [← Option.some.inj h]

/-- The entries `partition_point` counts are before the target. -/
theorem lt_of_lt_partitionPoint {ps : MemPostingList} {target : DocId} {k : Nat} {p : Posting}
    (hk : k < partitionPoint ps target) (h : ps[k]? = some p) : p.doc < target := by
  have hPrefix := List.takeWhile_prefix (l := ps) fun p => decide (p.doc < target)
  have hGet := List.prefix_iff_getElem?.mp hPrefix k hk
  rw [h, Option.some.injEq] at hGet
  have hMem : p ∈ ps.takeWhile fun p => decide (p.doc < target) := hGet ▸ List.getElem_mem hk
  exact of_decide_eq_true (List.all_eq_true.mp List.all_takeWhile p hMem)

theorem seek_postings (c : MemPostingCursor) (target : DocId) :
    (c.seek target).postings = c.postings := by
  unfold seek
  split
  · rfl
  · split_ifs <;> rfl

/-- `seek` drops the postings before the target, and no other. -/
theorem seek_drop {c : MemPostingCursor}
    (hDocs : c.postings.Pairwise fun p q => p.doc < q.doc) (target : DocId) :
    c.postings.drop (c.seek target).idx =
      (c.postings.drop c.idx).dropWhile fun p => p.doc < target := by
  unfold seek
  rcases hCur : c.current with _ | p
  · -- The cursor is exhausted.
    have hNil : c.postings.drop c.idx = [] := List.drop_eq_nil_of_le
      (List.getElem?_eq_none_iff.mp hCur)
    show c.postings.drop c.idx = _
    rw [hNil, List.dropWhile_nil]
  show c.postings.drop (if target ≤ p.doc then c else _).idx = _
  split_ifs with hHere
  · -- The cursor is at the target or behind it already.
    refine drop_eq_dropWhile (Nat.le_refl _) (fun k h1 h2 => absurd h1 (by omega)) ?_
    intro q hq
    rw [show c.postings[c.idx]? = some p from hCur, Option.some.injEq] at hq
    rw [← hq]
    exact UInt32.not_lt.mpr hHere
  · obtain ⟨hLe, hLt, ⟨q, hq, hqLt⟩, hEnd⟩ := @gallop_spec c.postings target
      c.postings.length c.idx 1 (by omega) (by decide) ⟨p, hCur, UInt32.not_le.mp hHere⟩
    generalize gallop c.postings target c.postings.length c.idx 1 = g at hLe hLt hq hEnd ⊢
    obtain ⟨lo, hi⟩ := g
    obtain ⟨hLoLen, -⟩ := List.getElem?_eq_some_iff.mp hq
    show c.postings.drop (lo + 1 + partitionPoint
      ((c.postings.take (min hi c.postings.length)).drop (lo + 1)) target) = _
    generalize hSlice : (c.postings.take (min hi c.postings.length)).drop (lo + 1) = slice
    have hLen : slice.length = min hi c.postings.length - (lo + 1) := by
      rw [← hSlice, List.length_drop, List.length_take]
      omega
    -- Inside the interval the slice and the list agree.
    have hGet : ∀ k, lo + 1 + k < min hi c.postings.length →
        slice[k]? = c.postings[lo + 1 + k]? := by
      intro k hk
      rw [← hSlice, List.getElem?_drop, List.getElem?_take_of_lt hk]
    have hOff : partitionPoint slice target ≤ slice.length :=
      (List.takeWhile_sublist _).length_le
    refine drop_eq_dropWhile (by omega) ?_ ?_
    · intro k hk1 hk2 r hr
      by_cases hk : k ≤ lo
      · exact lt_of_le hDocs hk hr hq hqLt
      · refine @lt_of_lt_partitionPoint slice target (k - (lo + 1)) r (by omega) ?_
        rw [hGet _ (by omega), show lo + 1 + (k - (lo + 1)) = k by omega]
        exact hr
    · intro r hr
      obtain ⟨hrLen, -⟩ := List.getElem?_eq_some_iff.mp hr
      by_cases hIn : lo + 1 + partitionPoint slice target < min hi c.postings.length
      · exact not_lt_partitionPoint (by rw [hGet _ hIn]; exact hr)
      · -- The whole interval is before the target, so that its end is the doubling loop's.
        have hHi : lo + 1 + partitionPoint slice target = hi := by omega
        rw [hHi] at hr
        exact hEnd r hr

-- ---------------------------------------------------------------------------
-- What is still to come
-- ---------------------------------------------------------------------------

theorem current_eq (c : MemPostingCursor) : c.current = (c.postings.drop c.idx).head? :=
  List.head?_drop.symm

theorem drop_of_current {c : MemPostingCursor} {p : Posting} (h : c.current = some p) :
    ∃ ps, c.postings.drop c.idx = p :: ps := by
  rw [current_eq] at h
  rcases hDrop : c.postings.drop c.idx with _ | ⟨q, ps⟩
  · rw [hDrop] at h
    cases h
  · rw [hDrop, List.head?_cons, Option.some.injEq] at h
    exact ⟨ps, by rw [h]⟩

theorem doc_eq (c : MemPostingCursor) :
    c.doc = (c.postings.drop c.idx).head?.map Posting.doc := by
  rw [doc, current_eq]

theorem advance_postings (c : MemPostingCursor) : c.advance.postings = c.postings := by
  unfold advance
  split_ifs <;> rfl

theorem advance_drop (c : MemPostingCursor) :
    c.postings.drop c.advance.idx = (c.postings.drop c.idx).drop 1 := by
  unfold advance
  rw [List.drop_drop]
  split_ifs with hLt
  · rfl
  · rw [List.drop_eq_nil_of_le (by omega), List.drop_eq_nil_of_le (by omega)]

end MemPostingCursor

end Ripindex
