import Ripindex.Daemon.Answers
import Ripindex.Lib.StableMerge

/-!
# Paging over several roots

A query of several roots asks each of them for `limit + offset` hits only, sorts what it gets
by score, stably, and writes the window from `offset` on. The window is the same as that of the
complete rankings of all roots.

## Results

* `length_completeHits` — every document that matches is in the complete ranking.
* `targetHits_eq_take`  — what a root gives is the front of its complete ranking.
* `handleQuery_window`  — the hits written are a window of all hits, in order.
-/

namespace Ripindex.Daemon.Answers

open Query

section

variable {F A M : Type} [AddCommMonoid F] [AddCommMonoid M] [LinearOrder M] (bm25 : Bm25 F A M)
  (S : SelectNth (byRank (M := M)))
  (snippetFor : String → String → List String → Option (Nat × String))

/-- The hits among the messages. -/
def hitsOf : List (ServerMessage M) → List (QueryHit M) :=
  List.filterMap fun
    | .hit _ h => some h
    | _ => none

omit [AddCommMonoid M] [LinearOrder M] in
theorem hitsOf_answer (id total elapsedUs : Nat) (hits : List (QueryHit M)) :
    hitsOf ((hits.map fun h => .hit id h) ++ [.done id total elapsedUs]) = hits := by
  unfold hitsOf
  rw [List.filterMap_append, List.filterMap_map]
  simp

/-- The complete ranking of a root: the documents that match, the best first, as they are
shown. -/
def completeHits (t : Target) (node : Node) (wantSnippet : Bool) : List (QueryHit M) :=
  ((evaluate bm25 t.snapshot node).mergeSort byRank).filterMap fun h =>
    (t.snapshot.doc h.doc).map fun m =>
      let found := if wantSnippet then snippetFor t.root m.path (highlightTerms node) else none
      ⟨t.root, m.path, h.score, found.map Prod.fst, found.map Prod.snd⟩

/-- Every hit has its metadata. -/
theorem exists_doc_of_mem_sorted (t : Target) {node : Node} (hNode : WellFormed node) {h : Hit M}
    (hMem : h ∈ (evaluate bm25 t.snapshot node).mergeSort byRank) :
    ∃ m, t.snapshot.doc h.doc = some m := by
  refine search_doc bm25 (.ofSort byRank byRank_trans byRank_total) t.snapshot hNode
    (evaluate bm25 t.snapshot node).length ?_
  rwa [search_hits, List.take_of_length_le (by rw [List.length_mergeSort])]

/-- Cutting the hits cuts the answers. -/
theorem targetHits_eq_take (t : Target) {node : Node} (hNode : WellFormed node) (fetch : Nat)
    (wantSnippet : Bool) :
    targetHits bm25 S snippetFor t node fetch wantSnippet =
      (completeHits bm25 snippetFor t node wantSnippet).take fetch := by
  have hDocs := fun h => exists_doc_of_mem_sorted bm25 t hNode (h := h)
  unfold completeHits targetHits
  rw [search_hits]
  generalize (evaluate bm25 t.snapshot node).mergeSort byRank = hits at hDocs
  induction hits generalizing fetch with
  | nil => simp
  | cons h hits ih =>
    obtain ⟨m, hm⟩ := hDocs h (List.mem_cons_self ..)
    cases fetch with
    | zero => rfl
    | succ fetch =>
      have hRest := ih fetch fun k hk => hDocs k (List.mem_cons_of_mem _ hk)
      rw [List.take_succ_cons, List.filterMap_cons, List.filterMap_cons]
      simp only [hm, Option.map_some, List.take_succ_cons, hRest]
      cases wantSnippet <;> rfl

/-- Every document that matches is in the complete ranking. -/
theorem length_completeHits (t : Target) {node : Node} (hNode : WellFormed node)
    (wantSnippet : Bool) : (completeHits bm25 snippetFor t node wantSnippet).length =
      Set.ncard {d | Matches t.snapshot node d} := by
  let S : SelectNth (byRank (M := M)) := .ofSort byRank byRank_trans byRank_total
  -- Compared on a front that is long enough for both.
  have hFront := length_targetHits bm25 S snippetFor t hNode
    ((completeHits bm25 snippetFor t node wantSnippet).length +
      Set.ncard {d | Matches t.snapshot node d}) wantSnippet
  rw [targetHits_eq_take bm25 S snippetFor t hNode, List.length_take,
    totalMatches_eq bm25 S t.snapshot hNode] at hFront
  omega

/-- The complete ranking is in the order of the scores. -/
theorem completeHits_sorted (t : Target) (node : Node) (wantSnippet : Bool) :
    (completeHits bm25 snippetFor t node wantSnippet).Pairwise fun a b => byScore a b = true := by
  refine byScore_filterMap (List.pairwise_mergeSort byRank_trans byRank_total _) fun h q hq => ?_
  obtain ⟨m, -, rfl⟩ := Option.map_eq_some_iff.mp hq
  rfl

omit [AddCommMonoid M] in
theorem byScore_trans (a b c : QueryHit M) (hab : byScore a b = true) (hbc : byScore b c = true) :
    byScore a c = true :=
  decide_eq_true ((of_decide_eq_true hbc).trans (of_decide_eq_true hab))

omit [AddCommMonoid M] in
theorem byScore_total (a b : QueryHit M) : (byScore a b || byScore b a) = true := by
  simp only [byScore, Bool.or_eq_true, decide_eq_true_eq]
  exact le_total _ _

/-- All hits of all roots: the complete rankings in target order, sorted by score, stably. -/
def allHits (targets : List Target) (node : Node) (wantSnippet : Bool) : List (QueryHit M) :=
  (targets.flatMap fun t => completeHits bm25 snippetFor t node wantSnippet).mergeSort byScore

/-- The hits written are the window of `limit` hits at `offset` of all hits. -/
theorem handleQuery_window [Unicode] {normalize : String → String}
    {roots : List (String × Target)} {id : Nat} {r : QueryRequest} {elapsedUs : Nat} {node : Node}
    {targets : List Target} (hParse : parse r.query = .ok node)
    (hTargets : targetsOf normalize roots r.roots = .ok targets)
    (hFit : r.limit + r.offset < 2 ^ 64) :
    hitsOf (handleQuery bm25 S snippetFor normalize roots id r elapsedUs) =
      ((allHits bm25 snippetFor targets node r.snippet).drop r.offset).take r.limit := by
  have hNode := wellFormed_of_parse hParse
  have hFetch : max ((r.limit + r.offset) % 2 ^ 64) r.limit = r.limit + r.offset := by
    rw [Nat.mod_eq_of_lt hFit]
    exact max_eq_left (Nat.le_add_right ..)
  have hSorted : ∀ t, (completeHits bm25 snippetFor t node r.snippet).Pairwise
      fun a b => byScore a b = true :=
    fun t => completeHits_sorted bm25 snippetFor t node r.snippet
  have hFront := take_mergeSort_flatMap byScore_trans byScore_total hSorted (r.limit + r.offset)
    targets
  unfold handleQuery
  simp only [hParse, hTargets, hFetch]
  rw [hitsOf_answer]
  have hGot : (targets.flatMap fun t => targetHits bm25 S snippetFor t node (r.limit + r.offset)
      r.snippet) = targets.flatMap fun t =>
        (completeHits bm25 snippetFor t node r.snippet).take (r.limit + r.offset) := by
    simp only [targetHits_eq_take bm25 S snippetFor _ hNode]
  have hWindow : ∀ l : List (QueryHit M), (l.drop r.offset).take r.limit =
      (l.take (r.limit + r.offset)).drop r.offset := by
    intro l
    rw [List.drop_take, Nat.add_sub_cancel]
  rw [hGot, hWindow, hWindow, ← hFront]
  rfl

/-- Paging is exact: every page is a window of all hits, and consecutive pages make up the
window of both, so that nothing is repeated or skipped. -/
theorem paging_exact [Unicode] (normalize : String → String) (roots : List (String × Target))
    (id : Nat) (r : QueryRequest) (elapsedUs : Nat) (node : Node) (targets : List Target)
    (hParse : parse r.query = .ok node) (hTargets : targetsOf normalize roots r.roots = .ok targets)
    (hFit : r.limit + r.offset < 2 ^ 64) :
    hitsOf (handleQuery bm25 S snippetFor normalize roots id r elapsedUs) =
      ((allHits bm25 snippetFor targets node r.snippet).drop r.offset).take r.limit ∧
    ∀ limit', limit' + (r.offset + r.limit) < 2 ^ 64 →
      hitsOf (handleQuery bm25 S snippetFor normalize roots id r elapsedUs) ++
        hitsOf (handleQuery bm25 S snippetFor normalize roots id
          { r with limit := limit', offset := r.offset + r.limit } elapsedUs) =
        ((allHits bm25 snippetFor targets node r.snippet).drop r.offset).take
          (r.limit + limit') := by
  have hPage := @handleQuery_window _ _ _ _ _ _ bm25 S snippetFor _ _ _ id r elapsedUs _ _ hParse
    hTargets hFit
  refine ⟨hPage, fun limit' hFit' => ?_⟩
  have hNext := @handleQuery_window _ _ _ _ _ _ bm25 S snippetFor _ _ _ id
    { r with limit := limit', offset := r.offset + r.limit } elapsedUs _ _ hParse hTargets hFit'
  rw [hPage, hNext, List.take_add, List.drop_drop]

end

/-- The query `a` over two roots: the first hit of all, and behind it the three others. -/
theorem paging_exact_two : ∃ _ : Unicode,
    hitsOf (handleQuery countOccurrences sorting (fun _ _ _ => none) id
        [("/r", twoTarget), ("/s", twoTarget)] 1 firstOfTwo 0) ++
      hitsOf (handleQuery countOccurrences sorting (fun _ _ _ => none) id
        [("/r", twoTarget), ("/s", twoTarget)] 1 { firstOfTwo with limit := 3, offset := 1 } 0) =
      ((allHits countOccurrences (fun _ _ _ => none) [twoTarget, twoTarget] (.term "a")
        false).drop 0).take 4 := by
  let _ := Platform.reference.toUnicode
  exact ⟨_, (paging_exact countOccurrences sorting (fun _ _ _ => none) id
    [("/r", twoTarget), ("/s", twoTarget)] 1 firstOfTwo 0 (.term "a") [twoTarget, twoTarget]
    parse_a rfl (by decide)).2 3 (by decide)⟩

end Ripindex.Daemon.Answers
