import Ripindex.Query.Search

/-!
# Answering queries

`handle_query` of `daemon/server.rs`, `Client::call` of `daemon/client.rs` and the two paths of
`cmd_search` in `main.rs`. What `snippet_for` finds in a file and how `normalize_root` resolves a
path are parameters, and so are the scores, as in evaluation; the messages are as before their
way through JSON.

## Results

* `handleQuery_single` — the messages of a query of one root, from offset 0;
* `daemon_answers_search` — when the daemon's total is the number of matches.
-/

namespace Ripindex.Daemon.Answers

open Query

/-- A root with the snapshot that `live.snapshot()` gives. -/
structure Target where
  root : String
  snapshot : Index

/-- `Method::Query`. -/
structure QueryRequest where
  roots : Option (List String)
  query : String
  limit : Nat
  offset : Nat
  snippet : Bool
  deriving DecidableEq, Repr

/-- A `RankedHit` of the server, and a `QueryHit` of the client. -/
structure QueryHit (M : Type) where
  root : String
  path : String
  score : M
  lineNo : Option Nat
  snippet : Option String
  deriving DecidableEq, Repr

/-- Why a query is not answered. -/
inductive Refusal
  | invalidQuery (e : QueryError)
  | noSuchRoot (r : String)
  deriving DecidableEq, Repr

/-- The messages that answer a query. -/
inductive ServerMessage (M : Type)
  | hit (id : Nat) (hit : QueryHit M)
  | done (id total elapsedUs : Nat)
  | error (id : Option Nat) (message : Refusal)

/-- The outcome of a query at the client. -/
inductive Reply (M : Type)
  | query (hits : List (QueryHit M)) (total elapsedUs : Nat)
  | error (message : Refusal)

/-- `Registry::get`, on the entries of the map. -/
def get (normalize : String → String) (roots : List (String × Target)) (r : String) :
    Option Target :=
  (roots.find? fun e => e.1 == normalize r).map Prod.snd

/-- The roots to search: those named, or all. -/
def targetsOf (normalize : String → String) (roots : List (String × Target)) :
    Option (List String) → Except String (List Target)
  | none => .ok (roots.map Prod.snd)
  | some list => list.mapM fun r =>
    match get normalize roots r with
    | some t => .ok t
    | none => .error r

-- ---------------------------------------------------------------------------
-- The client
-- ---------------------------------------------------------------------------

section Client

variable {M : Type}

/-- `Client::call`, on what the daemon writes until it closes the connection: a message with
another id is passed over. -/
def call (id : Nat) : List (ServerMessage M) → List (QueryHit M) → Option (Reply M)
  | [], _ => none
  | .error rid message :: rest, hits =>
    if rid = some id ∨ rid = none then some (.error message) else call id rest hits
  | .hit rid h :: rest, hits => call id rest (if rid = id then hits ++ [h] else hits)
  | .done rid total elapsedUs :: rest, hits =>
    if rid = id then some (.query hits total elapsedUs) else call id rest hits

/-- The client puts the hits together again. -/
theorem call_hits (id total elapsedUs : Nat) (hits acc : List (QueryHit M)) :
    call id ((hits.map fun h => .hit id h) ++ [.done id total elapsedUs]) acc =
      some (.query (acc ++ hits) total elapsedUs) := by
  induction hits generalizing acc with
  | nil => simp [call]
  | cons h hits ih =>
    rw [List.map_cons, List.cons_append, call, if_pos rfl, ih, List.append_assoc]
    rfl

/-- What `cmd_search` prints of the daemon's reply. -/
def searchDaemon : Reply M → Option (List (String × M) × Nat × Nat)
  | .query hits total _ => some (hits.map fun h => (h.path, h.score), hits.length, total)
  | .error _ => none

end Client

-- ---------------------------------------------------------------------------
-- The server
-- ---------------------------------------------------------------------------

section Answer

variable {F A M : Type} [AddCommMonoid F] [AddCommMonoid M] [LinearOrder M] (bm25 : Bm25 F A M)
  (S : SelectNth (byRank (M := M)))
  (snippetFor : String → String → List String → Option (Nat × String))

/-- What one root adds to the hits. -/
def targetHits (t : Target) (node : Node) (fetch : Nat) (wantSnippet : Bool) :
    List (QueryHit M) :=
  let terms := if wantSnippet then highlightTerms node else []
  (search bm25 S t.snapshot node fetch).hits.filterMap fun h =>
    (t.snapshot.doc h.doc).map fun m =>
      let found := if wantSnippet then snippetFor t.root m.path terms else none
      { root := t.root
        path := m.path
        score := h.score
        lineNo := found.map Prod.fst
        snippet := found.map Prod.snd }

/-- The order of `all_hits`. -/
def byScore (a b : QueryHit M) : Bool := b.score ≤ a.score

def handleQuery [Unicode] (normalize : String → String) (roots : List (String × Target)) (id : Nat)
    (r : QueryRequest) (elapsedUs : Nat) : List (ServerMessage M) :=
  match parse r.query with
  | .error e => [.error (some id) (.invalidQuery e)]
  | .ok node =>
    match targetsOf normalize roots r.roots with
    | .error root => [.error (some id) (.noSuchRoot root)]
    | .ok targets =>
      -- The sum is of `usize`, and may wrap.
      let fetch := max ((r.limit + r.offset) % 2 ^ 64) r.limit
      let allHits := (targets.flatMap fun t =>
        targetHits bm25 S snippetFor t node fetch r.snippet).mergeSort byScore
      let total := allHits.length
      (((allHits.drop r.offset).take r.limit).map fun h => .hit id h) ++
        [.done id total elapsedUs]

/-- What `cmd_search_direct` prints: the documents, how many of them, and of how many. -/
def searchDirect (I : Index) (node : Node) (limit : Nat) : List (String × M) × Nat × Nat :=
  let result := search bm25 S I node limit
  (result.hits.filterMap fun h => (I.doc h.doc).map fun m => (m.path, h.score),
    result.hits.length, result.totalMatches)

-- ---------------------------------------------------------------------------
-- One root
-- ---------------------------------------------------------------------------

omit [AddCommMonoid M] in
/-- What keeps the scores of ranked hits is in the order of the scores. -/
theorem byScore_filterMap {hits : List (Hit M)}
    (hRanked : hits.Pairwise fun h k => byRank h k = true)
    {f : Hit M → Option (QueryHit M)} (hScore : ∀ h q, f h = some q → q.score = h.score) :
    (hits.filterMap f).Pairwise fun a b => byScore a b = true := by
  refine List.pairwise_filterMap.mpr (hRanked.imp ?_)
  intro h k hRank a ha b hb
  refine decide_eq_true ?_
  rw [hScore h a ha, hScore k b hb]
  rcases byRank_iff.mp hRank with hLt | ⟨hEq, -⟩
  · exact hLt.le
  · exact hEq.le

/-- The hits of a root are in the order of the scores already. -/
theorem targetHits_sorted (t : Target) (node : Node) (fetch : Nat) (wantSnippet : Bool) :
    (targetHits bm25 S snippetFor t node fetch wantSnippet).Pairwise
      fun a b => byScore a b = true := by
  refine byScore_filterMap (search_sorted bm25 S t.snapshot node fetch) fun h q hq => ?_
  obtain ⟨m, -, rfl⟩ := Option.map_eq_some_iff.mp hq
  rfl

/-- Every hit of the search is there, with the path and the score it has. -/
theorem map_targetHits (t : Target) {node : Node} (hNode : WellFormed node) (fetch : Nat)
    (wantSnippet : Bool) :
    (targetHits bm25 S snippetFor t node fetch wantSnippet).map (fun q => (some q.path, q.score)) =
      (search bm25 S t.snapshot node fetch).hits.map
        fun h => ((t.snapshot.doc h.doc).map DocMeta.path, h.score) := by
  have hDocs : ∀ h ∈ (search bm25 S t.snapshot node fetch).hits,
      ∃ m, t.snapshot.doc h.doc = some m := fun h hMem =>
    search_doc bm25 S t.snapshot hNode fetch hMem
  unfold targetHits
  generalize (search bm25 S t.snapshot node fetch).hits = hits at hDocs
  induction hits with
  | nil => rfl
  | cons h hits ih =>
    obtain ⟨m, hm⟩ := hDocs h List.mem_cons_self
    have hRest := ih fun k hk => hDocs k (List.mem_cons_of_mem h hk)
    rw [List.filterMap_cons, hm]
    simp only [Option.map_some, List.map_cons, hm]
    exact congrArg _ hRest

theorem length_targetHits (t : Target) {node : Node} (hNode : WellFormed node) (fetch : Nat)
    (wantSnippet : Bool) :
    (targetHits bm25 S snippetFor t node fetch wantSnippet).length =
      min fetch (search bm25 S t.snapshot node fetch).totalMatches := by
  have hLength := congrArg List.length (map_targetHits bm25 S snippetFor t hNode fetch wantSnippet)
  rw [List.length_map, List.length_map] at hLength
  rw [hLength, length_search_hits]

/-- Both paths print the same documents. -/
theorem printed_targetHits (t : Target) (node : Node) (fetch : Nat) (wantSnippet : Bool) :
    (targetHits bm25 S snippetFor t node fetch wantSnippet).map (fun h => (h.path, h.score)) =
      (search bm25 S t.snapshot node fetch).hits.filterMap fun h =>
        (t.snapshot.doc h.doc).map fun m => (m.path, h.score) := by
  simp only [targetHits, List.map_filterMap, Option.map_map]
  rfl

/-- The daemon's messages: the window of the fetch is the limit, sorting changes nothing, and all
that was fetched is written. -/
theorem handleQuery_single [Unicode] {normalize : String → String}
    {roots : List (String × Target)} {id : Nat} {r : QueryRequest} {elapsedUs : Nat} {node : Node}
    {t : Target} (hParse : parse r.query = .ok node)
    (hTargets : targetsOf normalize roots r.roots = .ok [t]) (hOffset : r.offset = 0) :
    handleQuery bm25 S snippetFor normalize roots id r elapsedUs =
      ((targetHits bm25 S snippetFor t node r.limit r.snippet).map fun h => .hit id h) ++
        [.done id (targetHits bm25 S snippetFor t node r.limit r.snippet).length elapsedUs] := by
  have hFetch : max ((r.limit + r.offset) % 2 ^ 64) r.limit = r.limit := by
    rw [hOffset, Nat.add_zero]
    exact max_eq_right (Nat.mod_le _ _)
  have hLength : (targetHits bm25 S snippetFor t node r.limit r.snippet).length ≤ r.limit := by
    rw [length_targetHits bm25 S snippetFor t (wellFormed_of_parse hParse)]
    exact Nat.min_le_left _ _
  unfold handleQuery
  simp only [hParse, hTargets, hFetch, List.flatMap_singleton]
  rw [hOffset, List.drop_zero,
    List.mergeSort_of_pairwise (targetHits_sorted bm25 S snippetFor t node _ _),
    List.take_of_length_le hLength]

/-- The reply about a single root, for every snapshot, query and limit: its hits are those of the
direct search, and its total is the number of matches exactly if there are at most `limit` of
them. -/
theorem daemon_answers_search [Unicode] (normalize : String → String)
    (roots : List (String × Target)) (id : Nat) (r : QueryRequest) (elapsedUs : Nat) (node : Node)
    (t : Target) (hParse : parse r.query = .ok node)
    (hTargets : targetsOf normalize roots r.roots = .ok [t]) (hOffset : r.offset = 0) :
    ∃ hits total, call id (handleQuery bm25 S snippetFor normalize roots id r elapsedUs) [] =
        some (.query hits total elapsedUs) ∧
      hits.map (fun q => (some q.path, q.score)) =
        (search bm25 S t.snapshot node r.limit).hits.map
          (fun h => ((t.snapshot.doc h.doc).map DocMeta.path, h.score)) ∧
      (total = (search bm25 S t.snapshot node r.limit).totalMatches ↔
        Set.ncard {d | Matches t.snapshot node d} ≤ r.limit) ∧
      (searchDaemon (.query hits total elapsedUs) =
          some (searchDirect bm25 S t.snapshot node r.limit) ↔
        Set.ncard {d | Matches t.snapshot node d} ≤ r.limit) := by
  have hNode := wellFormed_of_parse hParse
  have hHits := map_targetHits bm25 S snippetFor t hNode r.limit r.snippet
  have hLength := length_targetHits bm25 S snippetFor t hNode r.limit r.snippet
  have hTotal : (targetHits bm25 S snippetFor t node r.limit r.snippet).length =
      (search bm25 S t.snapshot node r.limit).totalMatches ↔
      Set.ncard {d | Matches t.snapshot node d} ≤ r.limit := by
    rw [hLength, ← totalMatches_eq bm25 S t.snapshot hNode r.limit]
    exact min_eq_right_iff
  refine ⟨_, _, by rw [handleQuery_single bm25 S snippetFor hParse hTargets hOffset, call_hits,
    List.nil_append], hHits, hTotal, ?_⟩
  rw [← hTotal, searchDaemon, searchDirect, Option.some.injEq, Prod.mk.injEq, Prod.mk.injEq]
  refine ⟨fun h => h.2.2, fun h => ⟨?_, ?_, h⟩⟩
  · exact printed_targetHits bm25 S snippetFor t node r.limit r.snippet
  · rw [hLength, length_search_hits]

end Answer

-- ---------------------------------------------------------------------------
-- One of two matches
-- ---------------------------------------------------------------------------

/-- Scores that count occurrences. -/
def countOccurrences : Bm25 Nat Nat Nat := ⟨fun _ _ => 1, fun _ tf _ _ => tf.toNat, fun _ _ => 0⟩

def sorting : SelectNth (byRank (M := Nat)) := .ofSort byRank byRank_trans byRank_total

def twoTarget : Target := ⟨"/r", twoIndex⟩

/-- Both documents of the index contain `a`. -/
def firstOfTwo : QueryRequest := ⟨none, "a", 1, 0, false⟩

theorem parse_a :
    let _ := Platform.reference.toUnicode
    parse "a" = .ok (.term "a") := by
  intro _
  have hLex : lex "a" = .ok [(0, .word "a")] := by decide +kernel
  have hAtoms : (atoms "a").map Token.term = ["a"] := by decide +kernel
  have hNode : textToNode (fun text => (atoms text).map Token.term) "a" = some (.term "a") := by
    unfold textToNode
    simp only [hAtoms]
  unfold parse parseWith
  rw [hLex]
  simp [bind, Except.bind, pure, Except.pure, parseOr, parseOrRest, parseAnd, parseUnary,
    parseAtom, hNode, finishAnd, finishOr]

theorem evaluate_a : evaluate countOccurrences twoIndex (.term "a") = [⟨0, 1⟩, ⟨1, 1⟩] := by
  decide +kernel

theorem daemon_answers_search_first : ∃ _ : Unicode, ∃ hits total,
    call 1 (handleQuery countOccurrences sorting (fun _ _ _ => none) id [("/r", twoTarget)] 1
      firstOfTwo 0) [] = some (.query hits total 0) ∧
    hits.map (fun q => (some q.path, q.score)) =
      (search countOccurrences sorting twoIndex (.term "a") 1).hits.map
        fun h => ((twoIndex.doc h.doc).map DocMeta.path, h.score) := by
  let _ := Platform.reference.toUnicode
  obtain ⟨hits, total, hReply, hHits, -⟩ := daemon_answers_search countOccurrences sorting
    (fun _ _ _ => none) id [("/r", twoTarget)] 1 firstOfTwo 0 (.term "a") twoTarget parse_a rfl rfl
  exact ⟨_, hits, total, hReply, hHits⟩

/-- The daemon reports one match, the search two. -/
theorem firstOfTwo_total : ∃ _ : Unicode, parse "a" = .ok (.term "a") ∧
    (search countOccurrences sorting twoIndex (.term "a") 1).totalMatches = 2 ∧
    ∃ hits, call 1 (handleQuery countOccurrences sorting (fun _ _ _ => none) id
      [("/r", twoTarget)] 1 firstOfTwo 0) [] = some (.query hits 1 0) := by
  let _ := Platform.reference.toUnicode
  have hTotal : (search countOccurrences sorting twoIndex (.term "a") 1).totalMatches = 2 :=
    congrArg List.length evaluate_a
  refine ⟨_, parse_a, hTotal,
    targetHits countOccurrences sorting (fun _ _ _ => none) twoTarget (.term "a") 1 false, ?_⟩
  rw [handleQuery_single (t := twoTarget) countOccurrences sorting _ parse_a rfl rfl, call_hits,
    length_targetHits countOccurrences sorting _ twoTarget (wellFormed_of_parse parse_a)]
  exact congrArg (fun n => some (Reply.query _ (min 1 n) 0)) hTotal

end Ripindex.Daemon.Answers
