import Ripindex.Query.Search

/-!
# The first hits of a ranking

`search` of `query/mod.rs` with the comparator it has: scores by any total preorder, the best
first, then document ids. The partition and both sorts are unstable, so only their contracts
are used; equal scores are told apart by the documents, which evaluation returns once each.

## Results

* `rankLe_antisymm_on` — no two hits of an evaluation are ranked equal.
* `search_top`         — the hits are the first of the full ranking, for every limit.
-/

namespace Ripindex.Query

section Rank

variable {M : Type} (cmp : M → M → Ordering)

/-- The comparator of `search`: `total_cmp` of the scores the other way round, then the ids. -/
def rank : Hit M → Hit M → Ordering :=
  compareLex (fun a b => cmp b.score a.score) fun a b => compare a.doc.toNat b.doc.toNat

def rankLe (a b : Hit M) : Bool := (rank cmp a b).isLE

variable [Std.TransCmp cmp]

instance : Std.TransCmp (rank cmp) :=
  have : Std.TransCmp fun a b : Hit M => cmp b.score a.score :=
    { eq_swap := fun {_ _} => @Std.OrientedCmp.eq_swap _ cmp _ _ _
      isLE_trans := fun hab hbc => @Std.TransCmp.isLE_trans _ cmp _ _ _ _ hbc hab }
  have : Std.TransCmp fun a b : Hit M => compare a.doc.toNat b.doc.toNat :=
    { eq_swap := fun {_ _} => @Std.OrientedCmp.eq_swap _ compare _ _ _
      isLE_trans := fun hab hbc => @Std.TransCmp.isLE_trans _ compare _ _ _ _ hab hbc }
  inferInstanceAs (Std.TransCmp (compareLex _ _))

theorem rankLe_trans (a b c : Hit M) (hab : rankLe cmp a b = true) (hbc : rankLe cmp b c = true) :
    rankLe cmp a c = true :=
  Std.TransCmp.isLE_trans hab hbc

theorem rankLe_total (a b : Hit M) : (rankLe cmp a b || rankLe cmp b a) = true := by
  unfold rankLe
  rw [@Std.OrientedCmp.eq_swap _ (rank cmp) _ b a]
  cases rank cmp a b <;> rfl

omit [Std.TransCmp cmp] in
/-- Hits ranked equal are hits of one document. -/
theorem doc_eq_of_rank_eq {a b : Hit M} (h : rank cmp a b = .eq) : a.doc = b.doc := by
  have hDoc := (Ordering.then_eq_eq.mp h).2
  exact UInt32.toNat_inj.mp (Std.LawfulEqCmp.eq_of_compare hDoc)

/-- No two hits of a list with distinct documents are ranked equal. -/
theorem rankLe_antisymm_on {hits : List (Hit M)} (hDocs : (hits.map Hit.doc).Nodup) :
    ∀ a ∈ hits, ∀ b ∈ hits, rankLe cmp a b = true → rankLe cmp b a = true → a = b := by
  intro a ha b hb hab hba
  have hEq : rank cmp a b = .eq := by
    unfold rankLe at hab hba
    rw [@Std.OrientedCmp.eq_swap _ (rank cmp) _ b a] at hba
    cases hRank : rank cmp a b with
    | eq => rfl
    | lt => rw [hRank] at hba; cases hba
    | gt => rw [hRank] at hab; cases hab
  exact List.inj_on_of_nodup_map hDocs ha hb (doc_eq_of_rank_eq cmp hEq)

end Rank

section Search

variable {F A M : Type} [AddCommMonoid F] [AddCommMonoid M] (bm25 : Bm25 F A M)
  (cmp : M → M → Ordering) (S : SelectNth (rankLe cmp)) (U : UnstableSort (rankLe cmp))

/-- Evaluate and rank, scores compared by `cmp`. -/
def searchBy (I : Index) (node : Node) (limit : Nat) : SearchResult M :=
  let hits := evaluate bm25 I node
  let totalMatches := hits.length
  let hits :=
    if limit < hits.length then
      (if 0 < limit then S.select (limit - 1) hits else hits).take limit
    else hits
  ⟨U.sort hits, totalMatches⟩

variable [Std.TransCmp cmp]

theorem evaluate_docs_nodup (I : Index) {node : Node} (hNode : WellFormed node) :
    ((evaluate bm25 I node).map Hit.doc).Nodup :=
  List.pairwise_map.mpr ((evaluate_sorted bm25 I hNode).imp fun h => UInt32.ne_of_lt h)

omit [AddCommMonoid M] in
/-- An unstable sort of hits of distinct documents gives what the stable one gives. -/
theorem unstableSort_eq {hits : List (Hit M)} (hDocs : (hits.map Hit.doc).Nodup) :
    U.sort hits = hits.mergeSort (rankLe cmp) := by
  have hPerm : (U.sort hits).Perm (hits.mergeSort (rankLe cmp)) :=
    (U.perm hits).trans (List.mergeSort_perm hits _).symm
  refine hPerm.eq_of_pairwise (fun a b ha hb => ?_) (U.sorted hits)
    (List.pairwise_mergeSort (rankLe_trans cmp) (rankLe_total cmp) hits)
  exact rankLe_antisymm_on cmp hDocs a ((U.perm hits).subset ha) b (List.mem_mergeSort.mp hb)

/-- The hits are the first of the full ranking. -/
theorem searchBy_hits (I : Index) {node : Node} (hNode : WellFormed node) (limit : Nat) :
    (searchBy bm25 cmp S U I node limit).hits =
      ((evaluate bm25 I node).mergeSort (rankLe cmp)).take limit := by
  have hDocs := evaluate_docs_nodup bm25 I hNode
  unfold searchBy
  dsimp only
  by_cases hMany : limit < (evaluate bm25 I node).length
  · rw [if_pos hMany]
    have hFront : ((if 0 < limit then S.select (limit - 1) (evaluate bm25 I node)
        else evaluate bm25 I node).map Hit.doc).Nodup := by
      split_ifs
      · exact ((S.perm _ _).map Hit.doc).nodup_iff.mpr hDocs
      · exact hDocs
    rw [unstableSort_eq cmp U (hFront.sublist ((List.take_sublist _ _).map Hit.doc))]
    exact S.sort_take (rankLe_trans cmp) (rankLe_total cmp) hMany (rankLe_antisymm_on cmp hDocs)
  · rw [if_neg hMany, unstableSort_eq cmp U hDocs,
      List.take_of_length_le (by rw [List.length_mergeSort]; omega)]

variable [Unicode]

/-- Top-k selection is a full sort, cut: there is one ranking of the documents that match,
strictly descending, of which every search gives the first `limit`. -/
theorem search_top (I : Index) {input : String} {node : Node} (hParse : parse input = .ok node) :
    ∃ ranked : List (Hit M), ranked.Perm (evaluate bm25 I node) ∧
      (∀ d, (∃ h ∈ ranked, h.doc = d) ↔ Matches I node d) ∧
      ranked.Pairwise (fun h k => rank cmp h k = .lt) ∧
      ranked.length = Set.ncard {d | Matches I node d} ∧
      (∀ limit, (searchBy bm25 cmp S U I node limit).hits =
          ranked.take (min limit ranked.length) ∧
        (searchBy bm25 cmp S U I node limit).totalMatches = ranked.length) ∧
      ∀ a b, a ≤ b → (searchBy bm25 cmp S U I node a).hits <+:
        (searchBy bm25 cmp S U I node b).hits := by
  have hNode := wellFormed_of_parse hParse
  have hDocs := evaluate_docs_nodup bm25 I hNode
  have hPerm := List.mergeSort_perm (evaluate bm25 I node) (rankLe cmp)
  have hMem : ∀ d, (∃ h ∈ (evaluate bm25 I node).mergeSort (rankLe cmp), h.doc = d) ↔
      Matches I node d := by
    intro d
    rw [Matches, ← mem_evaluate_iff bm25 I hNode d]
    simp [List.mem_mergeSort]
  refine ⟨(evaluate bm25 I node).mergeSort (rankLe cmp), hPerm, hMem, ?_, ?_,
    fun limit => ⟨?_, ?_⟩, fun a b hab => ?_⟩
  · have hSorted := List.pairwise_mergeSort (rankLe_trans cmp) (rankLe_total cmp)
      (evaluate bm25 I node)
    have hDistinct : ((evaluate bm25 I node).mergeSort (rankLe cmp)).Pairwise
        fun h k => h.doc ≠ k.doc :=
      List.pairwise_map.mp ((hPerm.map Hit.doc).nodup_iff.mpr hDocs)
    refine (hSorted.and hDistinct).imp fun {h k} hBoth => ?_
    obtain ⟨hLe, hNe⟩ := hBoth
    unfold rankLe at hLe
    cases hRank : rank cmp h k with
    | lt => rfl
    | eq => exact absurd (doc_eq_of_rank_eq cmp hRank) hNe
    | gt => rw [hRank] at hLe; cases hLe
  · have hSet : {d | Matches I node d} =
        ↑(((evaluate bm25 I node).mergeSort (rankLe cmp)).map Hit.doc).toFinset := by
      ext d
      rw [Set.mem_ofPred_eq, ← hMem d, List.coe_toFinset]
      simp
    rw [hSet, Set.ncard_coe_finset,
      List.toFinset_card_of_nodup ((hPerm.map Hit.doc).nodup_iff.mpr hDocs), List.length_map]
  · rw [searchBy_hits bm25 cmp S U I hNode, List.take_eq_take_min]
  · exact hPerm.length_eq.symm
  · rw [searchBy_hits bm25 cmp S U I hNode, searchBy_hits bm25 cmp S U I hNode]
    exact List.take_prefix_take_left hab

end Search

/-- The query `a.b` over an index of two documents, scores compared as numbers. -/
theorem search_top_phrase : ∃ ranked : List (Hit Nat),
    ranked.length = Set.ncard {d | Matches twoIndex (.phrase ["a", "b"]) d} := by
  let _ := Platform.reference.toUnicode
  let bm25 : Bm25 Nat Nat Nat := ⟨fun _ _ => 1, fun _ tf _ _ => tf.toNat, fun _ _ => 0⟩
  let le := rankLe (compare : Nat → Nat → Ordering)
  have hTrans := rankLe_trans (compare : Nat → Nat → Ordering)
  have hTotal := rankLe_total (compare : Nat → Nat → Ordering)
  obtain ⟨ranked, -, -, -, hLen, -⟩ := search_top bm25 compare (SelectNth.ofSort le hTrans hTotal)
    ⟨fun l => l.mergeSort le, fun l => List.mergeSort_perm l le,
      fun l => List.pairwise_mergeSort hTrans hTotal l⟩ twoIndex parse_phrase
  exact ⟨ranked, hLen⟩

end Ripindex.Query
