import Mathlib.Algebra.BigOperators.Group.List.Basic
import Mathlib.Algebra.Order.Group.Nat
import Mathlib.Data.List.Sort
import Mathlib.Data.Option.Basic
import Ripindex.Index.DocTable

/-!
# Lists of hits

`query/exec.rs`: a node evaluates, within a segment, to hits in ascending document order.
`union`, `intersect` and `difference` combine such lists. Scores are summed in a commutative
monoid `M`.

`Represents hits f` says that the hits are in strictly ascending order and are the graph of
the partial function `f`.

## Results

* `Represents.unique` — a function is represented by one list;
* `represents_intersect`, `represents_union`, `represents_difference` — what the
  combinations represent.
-/

namespace Ripindex.Query

/-- One scored document. -/
structure Hit (M : Type) where
  doc : DocId
  score : M
  deriving DecidableEq, Repr

variable {M : Type}

-- ---------------------------------------------------------------------------
-- Combining lists
-- ---------------------------------------------------------------------------

section Combine

variable [Add M]

/-- The walk of `intersect` over one other list, of which `other` is what is left. -/
def intersectWith : List (Hit M) → List (Hit M) → List (Hit M)
  | [], _ => []
  | h :: hs, other =>
    match other.dropWhile fun o => o.doc < h.doc with
    | [] => intersectWith hs []
    | o :: os =>
      if o.doc = h.doc then ⟨h.doc, h.score + o.score⟩ :: intersectWith hs (o :: os)
      else intersectWith hs (o :: os)

/-- Docs present in every list; the shortest list is walked. -/
def intersect (lists : List (List (Hit M))) : List (Hit M) :=
  if lists.isEmpty || lists.any List.isEmpty then []
  else
    match lists.mergeSort fun a b => a.length ≤ b.length with
    | [] => []
    | first :: rest => rest.foldl
      (fun result other => if result.isEmpty then result else intersectWith result other) first

/-- Linear merge. -/
def mergeSum : List (Hit M) → List (Hit M) → List (Hit M)
  | [], b => b
  | a, [] => a
  | x :: xs, y :: ys =>
    if x.doc < y.doc then x :: mergeSum xs (y :: ys)
    else if y.doc < x.doc then y :: mergeSum (x :: xs) ys
    else ⟨x.doc, x.score + y.score⟩ :: mergeSum xs ys
termination_by a b => a.length + b.length

/-- Docs present in any list. -/
def union (lists : List (List (Hit M))) : List (Hit M) :=
  lists.foldl mergeSum []

end Combine

/-- The walk of `difference`; `excluded` is what is left of the excluded hits. -/
def difference : List (Hit M) → List (Hit M) → List (Hit M)
  | [], _ => []
  | h :: hs, excluded =>
    match excluded.dropWhile fun e => e.doc < h.doc with
    | [] => h :: difference hs []
    | e :: es =>
      if e.doc = h.doc then difference hs (e :: es)
      else h :: difference hs (e :: es)

-- ---------------------------------------------------------------------------
-- Representation
-- ---------------------------------------------------------------------------

/-- The hits are the graph of `f`, in ascending order. -/
structure Represents (hits : List (Hit M)) (f : DocId → Option M) : Prop where
  sorted : hits.Pairwise fun h k => h.doc < k.doc
  mem_iff : ∀ h, h ∈ hits ↔ f h.doc = some h.score

/-- What a sorted list represents. -/
def valueAt (hits : List (Hit M)) (d : DocId) : Option M :=
  (hits.find? fun h => h.doc == d).map Hit.score

theorem represents_valueAt {hits : List (Hit M)}
    (h : hits.Pairwise fun h k => h.doc < k.doc) : Represents hits (valueAt hits) := by
  refine ⟨h, fun x => ?_⟩
  induction hits with
  | nil => simp [valueAt]
  | cons y ys ih =>
    obtain ⟨hHead, hTail⟩ := List.pairwise_cons.mp h
    by_cases hEq : y.doc = x.doc
    · have hNot : x ∉ ys := fun hMem => by
        have := hHead x hMem
        rw [hEq] at this
        exact UInt32.lt_irrefl _ this
      rcases x with ⟨d, v⟩
      rcases y with ⟨d', v'⟩
      obtain rfl : d' = d := hEq
      simp [valueAt, hNot, eq_comm]
    · have hNe : x ≠ y := fun hxy => hEq (by rw [hxy])
      rw [List.mem_cons]
      simp only [hNe, false_or, ih hTail]
      simp [valueAt, hEq]

namespace Represents

variable {hits other : List (Hit M)} {f g : DocId → Option M}

theorem congr (h : Represents hits f) (hfg : ∀ d, f d = g d) : Represents hits g :=
  ⟨h.sorted, fun x => by rw [h.mem_iff, hfg]⟩

theorem tail {x : Hit M} (h : Represents (x :: hits) f) :
    Represents hits fun d => if x.doc < d then f d else none := by
  obtain ⟨hHead, hTail⟩ := List.pairwise_cons.mp h.sorted
  refine ⟨hTail, fun y => ?_⟩
  constructor
  · intro hy
    rw [if_pos (hHead y hy)]
    exact (h.mem_iff y).mp (List.mem_cons_of_mem _ hy)
  · intro hy
    split_ifs at hy with hLt
    rcases List.mem_cons.mp ((h.mem_iff y).mpr hy) with rfl | hMem
    · exact absurd hLt (UInt32.lt_irrefl _)
    · exact hMem

/-- A function is represented by one list. -/
theorem unique (h : Represents hits f) (h' : Represents other f) : hits = other := by
  have hPerm : hits.Perm other := by
    have hNodup : ∀ {l : List (Hit M)}, l.Pairwise (fun h k => h.doc < k.doc) → l.Nodup :=
      fun hl => hl.imp fun hLt hEq => by
        rw [hEq] at hLt
        exact UInt32.lt_irrefl _ hLt
    exact (List.perm_ext_iff_of_nodup (hNodup h.sorted) (hNodup h'.sorted)).mpr fun x => by
      rw [h.mem_iff, h'.mem_iff]
  exact hPerm.eq_of_pairwise (fun a b _ _ hab hba => absurd hab (UInt32.lt_asymm hba))
    h.sorted h'.sorted

theorem eq_nil_iff (h : Represents hits f) : hits = [] ↔ ∀ d, f d = none := by
  constructor
  · rintro rfl d
    by_contra hNe
    obtain ⟨v, hv⟩ := Option.ne_none_iff_exists'.mp hNe
    exact absurd ((h.mem_iff ⟨d, v⟩).mpr hv) List.not_mem_nil
  · intro hNone
    refine List.eq_nil_iff_forall_not_mem.mpr fun x hx => ?_
    have := (h.mem_iff x).mp hx
    rw [hNone] at this
    cases this

end Represents

theorem represents_nil : Represents ([] : List (Hit M)) fun _ => none :=
  ⟨List.Pairwise.nil, by simp⟩

namespace Represents

variable {hits other : List (Hit M)} {f g : DocId → Option M} {x : Hit M}

theorem head (h : Represents (x :: hits) f) : f x.doc = some x.score :=
  (h.mem_iff x).mp List.mem_cons_self

/-- Below the first hit there is none. -/
theorem none_of_lt (h : Represents (x :: hits) f) {d : DocId} (hd : d < x.doc) : f d = none := by
  by_contra hNe
  obtain ⟨v, hv⟩ := Option.ne_none_iff_exists'.mp hNe
  rcases List.mem_cons.mp ((h.mem_iff ⟨d, v⟩).mpr hv) with hEq | hMem
  · rw [← hEq] at hd
    exact UInt32.lt_irrefl _ hd
  · exact UInt32.lt_asymm hd ((List.pairwise_cons.mp h.sorted).1 _ hMem)

/-- One more hit in front. -/
theorem cons (h : Represents hits f) (hLt : ∀ d, ¬ x.doc < d → f d = none) :
    Represents (x :: hits) fun d => if d = x.doc then some x.score else f d := by
  refine ⟨List.pairwise_cons.mpr ⟨fun y hy => ?_, h.sorted⟩, fun y => ?_⟩
  · by_contra hNot
    have := (h.mem_iff y).mp hy
    rw [hLt _ hNot] at this
    cases this
  · rw [List.mem_cons, h.mem_iff]
    by_cases hEq : y.doc = x.doc
    · rw [if_pos hEq, hEq, hLt x.doc (UInt32.lt_irrefl _)]
      rcases x with ⟨d, v⟩
      rcases y with ⟨d', v'⟩
      obtain rfl : d' = d := hEq
      simp [eq_comm]
    · rw [if_neg hEq]
      exact ⟨fun hOr => hOr.resolve_left fun hxy => hEq (by rw [hxy]), .inr⟩

/-- The hits from a document on. -/
theorem dropWhile (h : Represents hits f) (d₀ : DocId) :
    Represents (hits.dropWhile fun x => x.doc < d₀) fun d => if d < d₀ then none else f d := by
  induction hits generalizing f with
  | nil =>
    refine represents_nil.congr fun d => ?_
    have := h.eq_nil_iff.mp rfl d
    split <;> simp [this]
  | cons x hits ih =>
    by_cases hx : x.doc < d₀
    · rw [List.dropWhile_cons_of_pos (by simpa using hx)]
      refine (ih h.tail).congr fun d => ?_
      by_cases hd : d < d₀
      · simp [hd]
      · have hLt : x.doc < d := UInt32.lt_of_lt_of_le hx (UInt32.not_lt.mp hd)
        simp [hd, hLt]
    · rw [List.dropWhile_cons_of_neg (by simpa using hx)]
      refine h.congr fun d => ?_
      by_cases hd : d < d₀
      · rw [if_pos hd]
        exact h.none_of_lt (UInt32.lt_of_lt_of_le hd (UInt32.not_lt.mp hx))
      · rw [if_neg hd]

end Represents

-- ---------------------------------------------------------------------------
-- What the combinations represent
-- ---------------------------------------------------------------------------

/-- Defined where both functions are. -/
def both [Add M] (f g : DocId → Option M) (d : DocId) : Option M :=
  match f d, g d with
  | some a, some b => some (a + b)
  | _, _ => none

/-- Defined where one of the functions is. -/
def either [Add M] (f g : DocId → Option M) (d : DocId) : Option M :=
  match f d, g d with
  | some a, some b => some (a + b)
  | some a, none => some a
  | none, b => b

/-- Defined where the first function is and the second one is not. -/
def without (f g : DocId → Option M) (d : DocId) : Option M :=
  if (g d).isSome then none else f d

variable {f g : DocId → Option M}

theorem represents_intersectWith [Add M] {hits other : List (Hit M)} (h : Represents hits f)
    (h' : Represents other g) : Represents (intersectWith hits other) (both f g) := by
  induction hits generalizing f other g with
  | nil =>
    refine represents_nil.congr fun d => ?_
    simp [both, h.eq_nil_iff.mp rfl d]
  | cons x hits ih =>
    have hDrop := h'.dropWhile x.doc
    rw [intersectWith]
    rcases hRest : other.dropWhile fun o => o.doc < x.doc with _ | ⟨o, os⟩
    · rw [hRest] at hDrop ⊢
      refine (ih h.tail represents_nil).congr fun d => ?_
      by_cases hd : d < x.doc
      · simp [both, h.none_of_lt hd]
      · have hNone := hDrop.eq_nil_iff.mp rfl d
        simp only [hd, if_false] at hNone
        simp [both, hNone]
    · rw [hRest] at hDrop ⊢
      have hRestEq : ∀ d, x.doc < d → (if d < x.doc then none else g d) = g d := fun d hd => by
        rw [if_neg (UInt32.lt_asymm hd)]
      by_cases hEq : o.doc = x.doc
      · show Represents (if o.doc = x.doc then _ else _) _
        rw [if_pos hEq]
        have hG : g x.doc = some o.score := by
          have := hDrop.head
          rw [hEq, if_neg (UInt32.lt_irrefl _)] at this
          exact this
        refine ((ih h.tail hDrop).cons (x := ⟨x.doc, x.score + o.score⟩) ?_).congr fun d => ?_
        · intro d hd
          simp [both, hd]
        · by_cases hd : d = x.doc
          · subst hd
            simp [both, h.head, hG]
          · rw [if_neg hd]
            by_cases hLt : x.doc < d
            · simp [both, hLt, hRestEq d hLt]
            · have : d < x.doc := UInt32.lt_of_le_of_ne (UInt32.not_lt.mp hLt) hd
              simp [both, hLt, h.none_of_lt this]
      · show Represents (if o.doc = x.doc then _ else _) _
        rw [if_neg hEq]
        refine (ih h.tail hDrop).congr fun d => ?_
        by_cases hLt : x.doc < d
        · simp [both, hLt, hRestEq d hLt]
        · have hNone : both f g d = none := by
            by_cases hd : d = x.doc
            · -- The other list has nothing at the first hit.
              subst hd
              have hG : g x.doc = none := by
                have hLe : x.doc < o.doc := by
                  refine UInt32.lt_of_le_of_ne ?_ (Ne.symm hEq)
                  by_contra hNot
                  have := hDrop.head
                  rw [if_pos (UInt32.not_le.mp hNot)] at this
                  cases this
                have := hDrop.none_of_lt hLe
                rwa [if_neg (UInt32.lt_irrefl _)] at this
              simp [both, hG, h.head]
            · have : d < x.doc := UInt32.lt_of_le_of_ne (UInt32.not_lt.mp hLt) hd
              simp [both, h.none_of_lt this]
          rw [hNone]
          simp [both, hLt]

theorem represents_difference {hits excluded : List (Hit M)} (h : Represents hits f)
    (h' : Represents excluded g) : Represents (difference hits excluded) (without f g) := by
  induction hits generalizing f excluded g with
  | nil =>
    refine represents_nil.congr fun d => ?_
    simp [without, h.eq_nil_iff.mp rfl d]
  | cons x hits ih =>
    have hDrop := h'.dropWhile x.doc
    have hNone : ∀ {k : DocId → Option M}, ∀ d, ¬ x.doc < d →
        without (fun d => if x.doc < d then f d else none) k d = none := fun d hd => by
      simp [without, hd]
    rw [difference]
    rcases hRest : excluded.dropWhile fun e => e.doc < x.doc with _ | ⟨e, es⟩
    · rw [hRest] at hDrop ⊢
      refine ((ih h.tail represents_nil).cons hNone).congr fun d => ?_
      -- Nothing is excluded from the first hit on.
      have hG := hDrop.eq_nil_iff.mp rfl d
      by_cases hd : d = x.doc
      · rw [hd, if_neg (UInt32.lt_irrefl _)] at hG
        simp [without, hd, hG, h.head]
      · by_cases hLt : x.doc < d
        · rw [if_neg (UInt32.lt_asymm hLt)] at hG
          simp [without, hd, hLt, hG]
        · have hBelow := h.none_of_lt (UInt32.lt_of_le_of_ne (UInt32.not_lt.mp hLt) hd)
          simp [without, hd, hLt, hBelow]
    · rw [hRest] at hDrop ⊢
      by_cases hEq : e.doc = x.doc
      · show Represents (if e.doc = x.doc then _ else _) _
        rw [if_pos hEq]
        have hG : g x.doc = some e.score := by
          have := hDrop.head
          rwa [hEq, if_neg (UInt32.lt_irrefl _)] at this
        refine (ih h.tail hDrop).congr fun d => ?_
        by_cases hLt : x.doc < d
        · simp [without, hLt, UInt32.lt_asymm hLt]
        · by_cases hd : d = x.doc
          · subst hd
            simp [without, hG]
          · have hBelow := h.none_of_lt (UInt32.lt_of_le_of_ne (UInt32.not_lt.mp hLt) hd)
            simp [without, hLt, hBelow]
      · show Represents (if e.doc = x.doc then _ else _) _
        rw [if_neg hEq]
        refine ((ih h.tail hDrop).cons hNone).congr fun d => ?_
        by_cases hd : d = x.doc
        · -- What is left of the excluded hits starts behind the first hit.
          have hLe : x.doc < e.doc := by
            refine UInt32.lt_of_le_of_ne ?_ (Ne.symm hEq)
            by_contra hNot
            have := hDrop.head
            rw [if_pos (UInt32.not_le.mp hNot)] at this
            cases this
          have hG := hDrop.none_of_lt hLe
          rw [if_neg (UInt32.lt_irrefl _)] at hG
          simp [without, hd, hG, h.head]
        · by_cases hLt : x.doc < d
          · simp [without, hd, hLt, UInt32.lt_asymm hLt]
          · have hBelow := h.none_of_lt (UInt32.lt_of_le_of_ne (UInt32.not_lt.mp hLt) hd)
            simp [without, hd, hLt, hBelow]

theorem represents_mergeSum [Add M] {a b : List (Hit M)} (h : Represents a f)
    (h' : Represents b g) : Represents (mergeSum a b) (either f g) := by
  induction a, b using mergeSum.induct generalizing f g with
  | case1 b =>
    rw [mergeSum]
    refine h'.congr fun d => ?_
    simp [either, h.eq_nil_iff.mp rfl d]
  | case2 a hNe =>
    rw [mergeSum]
    · refine h.congr fun d => ?_
      have hG := h'.eq_nil_iff.mp rfl d
      cases hF : f d <;> simp [either, hG, hF]
    · exact hNe
  | case3 x xs y ys hLt ih =>
    rw [mergeSum, if_pos hLt]
    refine ((ih h.tail h').cons fun d hd => ?_).congr fun d => ?_
    · have hG : g d = none := h'.none_of_lt
        (UInt32.lt_of_le_of_lt (UInt32.not_lt.mp hd) hLt)
      simp [either, hd, hG]
    · by_cases hd : d = x.doc
      · subst hd
        simp [either, h.head, h'.none_of_lt hLt]
      · by_cases hx : x.doc < d
        · simp [either, hd, hx]
        · have hBelow := h.none_of_lt (UInt32.lt_of_le_of_ne (UInt32.not_lt.mp hx) hd)
          simp [either, hd, hx, hBelow]
  | case4 x xs y ys hNot hLt ih =>
    rw [mergeSum, if_neg hNot, if_pos hLt]
    refine ((ih h h'.tail).cons fun d hd => ?_).congr fun d => ?_
    · have hF : f d = none := h.none_of_lt
        (UInt32.lt_of_le_of_lt (UInt32.not_lt.mp hd) hLt)
      simp [either, hd, hF]
    · by_cases hd : d = y.doc
      · subst hd
        simp [either, h'.head, h.none_of_lt hLt]
      · by_cases hy : y.doc < d
        · simp [either, hd, hy]
        · have hBelow := h'.none_of_lt (UInt32.lt_of_le_of_ne (UInt32.not_lt.mp hy) hd)
          simp [either, hd, hy, hBelow]
  | case5 x xs y ys hNot hNot' ih =>
    have hEq : x.doc = y.doc :=
      UInt32.le_antisymm (UInt32.not_lt.mp hNot') (UInt32.not_lt.mp hNot)
    rw [mergeSum, if_neg hNot, if_neg hNot']
    refine ((ih h.tail h'.tail).cons (x := ⟨x.doc, x.score + y.score⟩)
      fun d hd => ?_).congr fun d => ?_
    · simp only at hd
      simp [either, hd, ← hEq]
    · by_cases hd : d = x.doc
      · subst hd
        have hHead := h'.head
        rw [← hEq] at hHead
        simp [either, h.head, hHead]
      · by_cases hx : x.doc < d
        · simp [either, hd, hx, ← hEq]
        · have hLt := UInt32.lt_of_le_of_ne (UInt32.not_lt.mp hx) hd
          have hF := h.none_of_lt hLt
          have hG := h'.none_of_lt (hEq ▸ hLt)
          simp [either, hd, hx, ← hEq, hF, hG]

-- ---------------------------------------------------------------------------
-- Any number of lists
-- ---------------------------------------------------------------------------

/-- A represented function is what the list has. -/
theorem Represents.eq_valueAt {hits : List (Hit M)} (h : Represents hits f) (d : DocId) :
    f d = valueAt hits d := by
  have hAt := represents_valueAt h.sorted
  refine Option.ext fun v => ?_
  rw [← h.mem_iff ⟨d, v⟩, ← hAt.mem_iff ⟨d, v⟩]

section Sums

variable [AddCommMonoid M]

/-- The sum, if every summand is there. -/
def allSome : List (Option M) → Option M
  | [] => some 0
  | o :: os => o.bind fun a => (allSome os).map (a + ·)

/-- The sum of the summands that are there, if there is one. -/
def anySome : List (Option M) → Option M
  | [] => none
  | none :: os => anySome os
  | some a :: os => some ((anySome os).elim a (a + ·))

theorem allSome_isSome {os : List (Option M)} :
    (allSome os).isSome ↔ ∀ o ∈ os, o.isSome := by
  induction os with
  | nil => simp [allSome]
  | cons o os ih =>
    rw [List.forall_mem_cons, ← ih]
    cases o <;> simp [allSome]

theorem anySome_isSome {os : List (Option M)} :
    (anySome os).isSome ↔ ∃ o ∈ os, o.isSome := by
  induction os with
  | nil => simp [anySome]
  | cons o os ih =>
    rw [List.exists_mem_cons_iff, ← ih]
    cases o <;> simp [anySome]

/-- The order of the summands does not matter. -/
theorem allSome_perm {os os' : List (Option M)} (h : os.Perm os') :
    allSome os = allSome os' := by
  induction h with
  | nil => rfl
  | cons o _ ih => simp only [allSome, ih]
  | swap o o' os =>
    simp only [allSome]
    cases o <;> cases o' <;> cases allSome os <;> simp [add_left_comm]
  | trans _ _ ih ih' => exact ih.trans ih'

/-- The walk over the other lists. -/
theorem represents_walk {result : List (Hit M)} {rest : List (List (Hit M))}
    (h : Represents result f) (hRest : ∀ l ∈ rest, l.Pairwise fun h k => h.doc < k.doc) :
    Represents (rest.foldl
      (fun result other => if result.isEmpty then result else intersectWith result other) result)
      fun d => allSome (f d :: rest.map fun l => valueAt l d) := by
  induction rest generalizing result f with
  | nil =>
    refine h.congr fun d => ?_
    simp only [List.map_nil, allSome]
    cases f d <;> simp
  | cons l rest ih =>
    obtain ⟨hl, hRest⟩ := List.forall_mem_cons.mp hRest
    rw [List.foldl_cons]
    -- An empty result stays as it is.
    have hStep : Represents (if result.isEmpty then result else intersectWith result l)
        (both f (valueAt l)) := by
      split_ifs with hEmpty
      · obtain rfl : result = [] := List.isEmpty_iff.mp hEmpty
        refine represents_nil.congr fun d => ?_
        simp [both, h.eq_nil_iff.mp rfl d]
      · exact represents_intersectWith h (represents_valueAt hl)
    refine (ih hStep hRest).congr fun d => ?_
    simp only [List.map_cons, allSome, both]
    cases f d <;> cases valueAt l d <;>
      cases allSome (rest.map fun l => valueAt l d) <;> simp [add_assoc]

/-- `intersect` has the docs of every list, with their scores summed. -/
theorem represents_intersect {lists : List (List (Hit M))} (hNe : lists ≠ [])
    (h : ∀ l ∈ lists, l.Pairwise fun h k => h.doc < k.doc) :
    Represents (intersect lists) fun d => allSome (lists.map fun l => valueAt l d) := by
  unfold intersect
  split_ifs with hEmpty
  · -- Some list is empty, and so is the intersection.
    have hMem : [] ∈ lists := by
      have hIsEmpty : lists.isEmpty = false := by simpa using hNe
      rw [hIsEmpty, Bool.false_or, List.any_eq_true] at hEmpty
      obtain ⟨l, hl, hNil⟩ := hEmpty
      rwa [List.isEmpty_iff.mp hNil] at hl
    refine represents_nil.congr fun d => ?_
    refine (Option.not_isSome_iff_eq_none.mp fun hSome => ?_).symm
    have := allSome_isSome.mp hSome (valueAt [] d) (List.mem_map_of_mem hMem)
    simp [valueAt] at this
  · have hPerm := List.mergeSort_perm lists fun a b => decide (a.length ≤ b.length)
    rcases hSort : lists.mergeSort fun a b => decide (a.length ≤ b.length) with _ | ⟨l, ls⟩
    · rw [hSort] at hPerm
      exact absurd hPerm.symm.eq_nil hNe
    · rw [hSort] at hPerm
      have hSorted : ∀ k ∈ l :: ls, k.Pairwise fun h k => h.doc < k.doc :=
        fun k hk => h k (hPerm.subset hk)
      obtain ⟨hl, hls⟩ := List.forall_mem_cons.mp hSorted
      refine (represents_walk (represents_valueAt hl) hls).congr fun d => ?_
      exact allSome_perm (hPerm.map fun l => valueAt l d)

/-- `union` has the docs of any list, with their scores summed. -/
theorem represents_union {lists : List (List (Hit M))}
    (h : ∀ l ∈ lists, l.Pairwise fun h k => h.doc < k.doc) :
    Represents (union lists) fun d => anySome (lists.map fun l => valueAt l d) := by
  have hFold : ∀ {acc : List (Hit M)} {f : DocId → Option M}, Represents acc f →
      Represents (lists.foldl mergeSum acc)
        fun d => anySome (f d :: lists.map fun l => valueAt l d) := by
    induction lists with
    | nil =>
      intro acc f hAcc
      refine hAcc.congr fun d => ?_
      cases f d <;> rfl
    | cons l lists ih =>
      intro acc f hAcc
      obtain ⟨hl, hls⟩ := List.forall_mem_cons.mp h
      refine (ih hls (represents_mergeSum hAcc (represents_valueAt hl))).congr fun d => ?_
      simp only [List.map_cons, either]
      generalize (lists.map fun l => valueAt l d) = os
      cases f d <;> cases valueAt l d <;> cases hOs : anySome os <;>
        simp [anySome, hOs, add_assoc]
  refine (hFold represents_nil).congr fun d => ?_
  simp [anySome]

end Sums

end Ripindex.Query
