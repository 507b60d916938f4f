import Mathlib.Data.Set.Card
import Ripindex.Lib.Select
import Ripindex.Query.Evaluate
import Ripindex.Store.Runs

/-!
# Ranking

`query/mod.rs`: `search`, over scores whose order is that of `total_cmp`.

## Results

* `search_hits` — the hits are the first of all, sorted by rank;
* `totalMatches_eq` — the total counts the documents that match;
* `search_doc` — every hit has its metadata.
-/

namespace Ripindex.Query

section Highlight

mutual

/-- The `walk` of `highlight_terms`. -/
def walk : Node → List String → List String
  | .term t, out => addTerm out t
  | .phrase ts, out => ts.foldl addTerm out
  | .and must _, out => walkAll must out
  | .or children, out => walkAll children out

def walkAll : List Node → List String → List String
  | [], out => out
  | n :: ns, out => walkAll ns (walk n out)

end

/-- The distinct positive terms, in the order in which they first appear. -/
def highlightTerms (node : Node) : List String := walk node []

end Highlight

-- ---------------------------------------------------------------------------
-- The order of the hits
-- ---------------------------------------------------------------------------

section Rank

variable {M : Type} [LinearOrder M]

/-- `by_rank`: whether a hit may stand before another one, the best score first. -/
def byRank (a b : Hit M) : Bool :=
  b.score < a.score || (b.score = a.score && a.doc ≤ b.doc)

theorem byRank_iff {a b : Hit M} :
    byRank a b = true ↔ b.score < a.score ∨ (b.score = a.score ∧ a.doc ≤ b.doc) := by
  simp [byRank]

theorem byRank_trans (a b c : Hit M) (hab : byRank a b = true) (hbc : byRank b c = true) :
    byRank a c = true := by
  rw [byRank_iff] at *
  rcases hab with hab | ⟨hab, hDoc⟩
  · rcases hbc with hbc | ⟨hbc, -⟩
    · exact .inl (hbc.trans hab)
    · exact .inl (hbc ▸ hab)
  · rcases hbc with hbc | ⟨hbc, hDoc'⟩
    · exact .inl (hab ▸ hbc)
    · exact .inr ⟨hbc.trans hab, UInt32.le_trans hDoc hDoc'⟩

theorem byRank_total (a b : Hit M) : (byRank a b || byRank b a) = true := by
  rw [Bool.or_eq_true, byRank_iff, byRank_iff]
  rcases lt_trichotomy a.score b.score with h | h | h
  · exact .inr (.inl h)
  · rcases UInt32.le_total a.doc b.doc with hDoc | hDoc
    · exact .inl (.inr ⟨h.symm, hDoc⟩)
    · exact .inr (.inr ⟨h, hDoc⟩)
  · exact .inl (.inl h)

theorem byRank_antisymm {a b : Hit M} (hab : byRank a b = true) (hba : byRank b a = true) :
    a = b := by
  rw [byRank_iff] at hab hba
  rcases hab with hab | ⟨hScore, hDoc⟩
  · rcases hba with hba | ⟨hba, -⟩
    · exact absurd hba hab.asymm
    · exact absurd hba hab.ne'
  · rcases hba with hba | ⟨-, hDoc'⟩
    · exact absurd hScore hba.ne'
    · cases a
      cases b
      exact congrArg₂ Hit.mk (UInt32.le_antisymm hDoc hDoc') hScore.symm

end Rank

-- ---------------------------------------------------------------------------
-- Search
-- ---------------------------------------------------------------------------

structure SearchResult (M : Type) where
  hits : List (Hit M)
  totalMatches : Nat

/-- The documents that match: live, indexed, and satisfying the query. -/
def Matches (I : Index) (node : Node) (d : DocId) : Prop :=
  ∃ s ∈ I.segments, ∃ i, d.toNat = s.entry.baseDoc.toNat + i.toNat ∧
    s.LiveIndexed i ∧ Satisfies (s.view i).positions node

variable {F A M : Type} [AddCommMonoid F] [AddCommMonoid M] [LinearOrder M] (bm25 : Bm25 F A M)
  (S : SelectNth (byRank (M := M)))

/-- Evaluate and rank: of many hits the best are selected first. -/
def search (I : Index) (node : Node) (limit : Nat) : SearchResult M :=
  let hits := evaluate bm25 I node
  let totalMatches := hits.length
  let hits :=
    if limit < hits.length then
      (if 0 < limit then S.select (limit - 1) hits else hits).take limit
    else hits
  ⟨hits.mergeSort byRank, totalMatches⟩

theorem search_hits (I : Index) (node : Node) (limit : Nat) :
    (search bm25 S I node limit).hits = ((evaluate bm25 I node).mergeSort byRank).take limit := by
  unfold search
  dsimp only
  split_ifs with hMany hSome
  · have hTake := S.sort_take byRank_trans byRank_total hMany
      fun a _ b _ hab hba => byRank_antisymm hab hba
    rwa [if_pos hSome] at hTake
  · have hTake := S.sort_take byRank_trans byRank_total hMany
      fun a _ b _ hab hba => byRank_antisymm hab hba
    rwa [if_neg hSome] at hTake
  · rw [List.take_of_length_le (by rw [List.length_mergeSort]; omega)]

theorem length_search_hits (I : Index) (node : Node) (limit : Nat) :
    (search bm25 S I node limit).hits.length =
      min limit (search bm25 S I node limit).totalMatches := by
  rw [search_hits, List.length_take, List.length_mergeSort]
  rfl

theorem search_sorted (I : Index) (node : Node) (limit : Nat) :
    (search bm25 S I node limit).hits.Pairwise fun h k => byRank h k = true := by
  rw [search_hits]
  exact (List.pairwise_mergeSort byRank_trans byRank_total _).sublist (List.take_sublist _ _)

/-- The total counts the documents that match, each once. -/
theorem totalMatches_eq (I : Index) {node : Node} (hNode : WellFormed node) (limit : Nat) :
    (search bm25 S I node limit).totalMatches = Set.ncard {d | Matches I node d} := by
  have hNodup : ((evaluate bm25 I node).map Hit.doc).Nodup := by
    refine List.pairwise_map.mpr ((evaluate_sorted bm25 I hNode).imp fun h => ?_)
    exact UInt32.ne_of_lt h
  have hSet : {d | Matches I node d} = ↑((evaluate bm25 I node).map Hit.doc).toFinset := by
    ext d
    rw [Set.mem_ofPred_eq, Matches, ← mem_evaluate_iff bm25 I hNode d, List.coe_toFinset]
    simp
  rw [hSet, Set.ncard_coe_finset, List.toFinset_card_of_nodup hNodup, List.length_map]
  rfl

/-- A hit is a document that is not deleted, so its metadata is there. -/
theorem search_doc (I : Index) {node : Node} (hNode : WellFormed node) (limit : Nat) {h : Hit M}
    (hMem : h ∈ (search bm25 S I node limit).hits) : ∃ m, I.doc h.doc = some m := by
  rw [search_hits] at hMem
  have hFound : h ∈ evaluate bm25 I node := List.mem_mergeSort.mp (List.mem_of_mem_take hMem)
  obtain ⟨s, hs, i, hd, hLive, -⟩ :=
    (mem_evaluate_iff bm25 I hNode h.doc).mp ⟨h, hFound, rfl⟩
  have hGlobal : h.doc = s.entry.baseDoc + i :=
    UInt32.toNat_inj.mp (hd.trans (Index.toNat_global hs hLive.lt).symm)
  have hSome := Index.isSome_doc_global hs (UInt32.lt_iff_toNat_lt.mpr hLive.lt)
  rw [hLive.1, ← hGlobal] at hSome
  exact Option.isSome_iff_exists.mp hSome

end Ripindex.Query
