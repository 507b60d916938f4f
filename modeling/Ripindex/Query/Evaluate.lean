import Ripindex.Query.Meaning
import Ripindex.Store.Splice

/-!
# Evaluation is exact

## Results

* `evaluate_exact` — evaluation finds the live indexed documents that satisfy the query, in
  ascending order, and scores a phrase with the number of its occurrences.
-/

namespace Ripindex

namespace Query

mutual

/-- The phrase is a node of the query. -/
def HasPhrase (ts : List String) : Node → Prop
  | .term _ => False
  | .phrase us => ts = us
  | .and must mustNot => HasPhraseAny ts must ∨ HasPhraseAny ts mustNot
  | .or children => HasPhraseAny ts children

def HasPhraseAny (ts : List String) : List Node → Prop
  | [] => False
  | n :: ns => HasPhrase ts n ∨ HasPhraseAny ts ns

end

mutual

theorem HasPhrase.mentions {ts : List String} {t : String} (ht : t ∈ ts) (node : Node)
    (h : HasPhrase ts node) : Mentions t node := by
  match node with
  | .term _ => exact h.elim
  | .phrase us => exact (show ts = us from h) ▸ ht
  | .and must mustNot =>
    exact h.imp (HasPhraseAny.mentions ht must) (HasPhraseAny.mentions ht mustNot)
  | .or children => exact HasPhraseAny.mentions ht children h

theorem HasPhraseAny.mentions {ts : List String} {t : String} (ht : t ∈ ts) (nodes : List Node)
    (h : HasPhraseAny ts nodes) : MentionsAny t nodes := by
  match nodes with
  | [] => exact h.elim
  | n :: ns => exact h.imp (HasPhrase.mentions ht n) (HasPhraseAny.mentions ht ns)

end

mutual

theorem HasPhrase.two_le {ts : List String} (node : Node) (h : HasPhrase ts node)
    (hNode : WellFormed node) : 2 ≤ ts.length := by
  match node with
  | .term _ => exact h.elim
  | .phrase us => exact (show ts = us from h) ▸ hNode
  | .and must mustNot =>
    obtain ⟨-, -, hMust, hMustNot⟩ := hNode
    exact h.elim (fun h => HasPhraseAny.two_le must h hMust)
      fun h => HasPhraseAny.two_le mustNot h hMustNot
  | .or children => exact HasPhraseAny.two_le children h hNode.2

theorem HasPhraseAny.two_le {ts : List String} (nodes : List Node) (h : HasPhraseAny ts nodes)
    (hNodes : WellFormedAll nodes) : 2 ≤ ts.length := by
  match nodes with
  | [] => exact h.elim
  | n :: ns =>
    exact h.elim (fun h => HasPhrase.two_le n h hNodes.1)
      fun h => HasPhraseAny.two_le ns h hNodes.2

end

section Evaluate

variable {F A M : Type} [AddCommMonoid F] [AddCommMonoid M] (bm25 : Bm25 F A M)

/-- The hits of one segment, in local ids. -/
abbrev segmentHits (I : Index) (node : Node) (s : Segment) : List (Hit M) :=
  evalNode bm25 (queryStats bm25 I node) s (lookupAll s (queryTerms node [])) node

/-- A document is a hit of its segment exactly when it is live, indexed and satisfies the
query. -/
theorem mem_segmentHits_iff (I : Index) {node : Node} (hNode : WellFormed node) (s : Segment)
    (i : DocId) : (∃ h ∈ segmentHits bm25 I node s, h.doc = i) ↔
      s.LiveIndexed i ∧ Satisfies (s.view i).positions node := by
  have hRep := represents_segment bm25 I node s
  have hSome : (∃ h ∈ segmentHits bm25 I node s, h.doc = i) ↔
      (denote bm25 (queryStats bm25 I node) (s.view i) node).isSome := by
    constructor
    · rintro ⟨h, hMem, rfl⟩
      rw [(hRep.mem_iff h).mp hMem]
      rfl
    · intro h
      obtain ⟨score, hScore⟩ := Option.isSome_iff_exists.mp h
      exact ⟨⟨i, score⟩, (hRep.mem_iff _).mpr hScore, rfl⟩
  rw [hSome]
  rcases hLen : s.docLen i with _ | len
  · have hNot : ¬ s.LiveIndexed i := fun h => by
      have := Segment.docLen_isSome_iff.mpr h
      rw [hLen] at this
      cases this
    rw [denote_eq_none bm25 _ (s.view i) hLen node]
    simp [hNot]
  · have hLive : s.LiveIndexed i := Segment.docLen_isSome_iff.mp (by rw [hLen]; rfl)
    rw [denote_isSome_iff bm25 _ (s.view i) (s.positions_sorted i) hLen node hNode]
    simp [hLive]

/-- The hits ascend over all segments. -/
theorem evaluate_sorted (I : Index) {node : Node} (hNode : WellFormed node) :
    (evaluate bm25 I node).Pairwise fun h k => h.doc < k.doc := by
  have hLt : ∀ s, ∀ h ∈ segmentHits bm25 I node s, h.doc.toNat < s.entry.numDocs.toNat := by
    intro s h hh
    exact ((mem_segmentHits_iff bm25 I hNode s h.doc).mp ⟨h, hh, rfl⟩).1.lt
  refine List.pairwise_flatMap.mpr ⟨fun s hs => ?_, ?_⟩
  · -- Within a segment the local ids ascend.
    refine List.pairwise_map.mpr ((represents_segment bm25 I node s).sorted.imp_of_mem ?_)
    intro h k hh hk hLess
    rw [UInt32.lt_iff_toNat_lt] at hLess ⊢
    show (s.entry.baseDoc + h.doc).toNat < (s.entry.baseDoc + k.doc).toNat
    rw [Index.toNat_global hs (hLt s h hh), Index.toNat_global hs (hLt s k hk)]
    omega
  · -- Across segments the ranges do.
    have hRanges := I.manifest_ok.pairwise_base
    rw [← I.entries_eq, List.pairwise_map] at hRanges
    refine hRanges.imp_of_mem ?_
    intro s t hs ht hEnd h hh k hk
    obtain ⟨h', hh', rfl⟩ := List.mem_map.mp hh
    obtain ⟨k', hk', rfl⟩ := List.mem_map.mp hk
    rw [UInt32.lt_iff_toNat_lt]
    show (s.entry.baseDoc + h'.doc).toNat < (t.entry.baseDoc + k'.doc).toNat
    rw [Index.toNat_global hs (hLt s h' hh'), Index.toNat_global ht (hLt t k' hk')]
    have := hLt s h' hh'
    unfold SegmentEntry.endDoc at hEnd
    omega

/-- The documents found. -/
theorem mem_evaluate_iff (I : Index) {node : Node} (hNode : WellFormed node) (d : DocId) :
    (∃ h ∈ evaluate bm25 I node, h.doc = d) ↔
      ∃ s ∈ I.segments, ∃ i, d.toNat = s.entry.baseDoc.toNat + i.toNat ∧
        s.LiveIndexed i ∧ Satisfies (s.view i).positions node := by
  constructor
  · rintro ⟨h, hMem, rfl⟩
    obtain ⟨s, hs, hMem⟩ := List.mem_flatMap.mp hMem
    obtain ⟨k, hk, rfl⟩ := List.mem_map.mp hMem
    have hFound := (mem_segmentHits_iff bm25 I hNode s k.doc).mp ⟨k, hk, rfl⟩
    exact ⟨s, hs, k.doc, Index.toNat_global hs hFound.1.lt, hFound⟩
  · rintro ⟨s, hs, i, hd, hFound⟩
    obtain ⟨k, hk, rfl⟩ := (mem_segmentHits_iff bm25 I hNode s i).mpr hFound
    refine ⟨_, List.mem_flatMap.mpr ⟨s, hs, List.mem_map_of_mem hk⟩, ?_⟩
    apply UInt32.toNat_inj.mp
    rw [hd]
    exact Index.toNat_global hs hFound.1.lt

omit [AddCommMonoid M] in
/-- The score of a phrase counts its occurrences. -/
theorem mem_evalPhrase (I : Index) {node : Node} (hNode : WellFormed node) {ts : List String}
    (hPhrase : HasPhrase ts node) (s : Segment) {h : Hit M}
    (hMem : h ∈ evalPhrase bm25 (queryStats bm25 I node) s
      (lookupAll s (queryTerms node [])) ts) :
    ∃ tf len, tf.toNat = Set.ncard {p | OccursAt (s.view h.doc).positions p ts} ∧
      s.docLen h.doc = some len ∧
      h.score = bm25.score (ts.map fun t => bm25.idf I.indexedCount
        ((queryStats bm25 I node).dfOf t)).sum tf len (queryStats bm25 I node).avgLen := by
  have hGet : ∀ t ∈ ts, (lookupAll s (queryTerms node [])).get t = s.postings t := fun t ht =>
    get_lookupAll s ((mem_queryTerms node [] t).mpr (.inr (hPhrase.mentions ht node)))
  have hRep := represents_evalPhrase bm25 (queryStats bm25 I node) hGet
  have hScore := (hRep.mem_iff h).mp hMem
  rw [denotePhrase_eq bm25 _ _ (s.positions_sorted h.doc) (hPhrase.two_le node hNode)] at hScore
  obtain ⟨len, hLen, hScore⟩ := Option.bind_eq_some_iff.mp hScore
  split_ifs at hScore
  refine ⟨_, len, ?_, hLen, (Option.some.inj hScore).symm⟩
  match ts, hPhrase.two_le node hNode with
  | t :: u :: ts, _ => exact toNat_phraseMatches (s.positions_sorted h.doc t)

variable [Unicode]

/-- Evaluation of a parsed query is exact: hits ascend, they are the live indexed documents
that satisfy the query, and a phrase is scored with the number of its occurrences. -/
theorem evaluate_exact (I : Index) {input : String} {node : Node}
    (hParse : parse input = .ok node) :
    ((evaluate bm25 I node).Pairwise fun h k => h.doc < k.doc) ∧
    (∀ d, (∃ h ∈ evaluate bm25 I node, h.doc = d) ↔
      ∃ s ∈ I.segments, ∃ i, d.toNat = s.entry.baseDoc.toNat + i.toNat ∧
        s.LiveIndexed i ∧ Satisfies (s.view i).positions node) ∧
    (∀ s ∈ I.segments, ∀ ts, HasPhrase ts node →
      ∀ h ∈ evalPhrase bm25 (queryStats bm25 I node) s (lookupAll s (queryTerms node [])) ts,
        ∃ tf len, tf.toNat = Set.ncard {p | OccursAt (s.view h.doc).positions p ts} ∧
          s.docLen h.doc = some len ∧
          h.score = bm25.score (ts.map fun t => bm25.idf I.indexedCount
            ((queryStats bm25 I node).dfOf t)).sum tf len (queryStats bm25 I node).avgLen) := by
  have hNode := wellFormed_of_parse hParse
  exact ⟨evaluate_sorted bm25 I hNode, mem_evaluate_iff bm25 I hNode,
    fun s _ _ hPhrase _ hMem => mem_evalPhrase bm25 I hNode hPhrase s hMem⟩

end Evaluate

-- ---------------------------------------------------------------------------
-- An index of two documents
-- ---------------------------------------------------------------------------

/-- The text `a b`, and `b a` after it. -/
def twoTexts : IdxFile where
  terms :=
    [("a", ⟨[⟨0, [0]⟩, ⟨1, [1]⟩], by decide, by decide, by decide⟩),
      ("b", ⟨[⟨0, [1]⟩, ⟨1, [0]⟩], by decide, by decide, by decide⟩)]
  terms_lt := by decide +kernel

def twoRecord (path : String) : DocMeta := ⟨path, 1, 0, 3, 2, .indexed, 0⟩

def twoSegment : Segment where
  entry := ⟨0, 0, 0, 2, 0, 0, 0, 0, 100, 100, 0, 4, 4, 2⟩
  idx := twoTexts
  docs := [twoRecord "x", twoRecord "y"]
  del := none
  length_docs := rfl
  numDocs_del := by simp
  count_del := by simp

def twoIndex : Index where
  manifest := ⟨1, 1, 0, 0, 0, 0, [twoSegment.entry]⟩
  segments := [twoSegment]
  overlay := Overlay.empty
  entries_eq := rfl
  manifest_ok := ⟨by decide, by decide, by
    intro e he
    obtain rfl := List.mem_singleton.mp he
    exact ⟨by decide, by decide, by decide, by decide⟩, List.isChain_singleton _⟩

theorem parse_phrase :
    let _ := Platform.reference.toUnicode
    parse "a.b" = .ok (.phrase ["a", "b"]) := by
  intro _
  have hLex : lex "a.b" = .ok [(0, .word "a.b")] := by decide +kernel
  have hAtoms : (atoms "a.b").map Token.term = ["a", "b"] := by decide +kernel
  have hNode : textToNode (fun text => (atoms text).map Token.term) "a.b" =
      some (.phrase ["a", "b"]) := by
    unfold textToNode
    simp only [hAtoms]
  unfold parse parseWith
  rw [hLex]
  simp [bind, Except.bind, pure, Except.pure, parseOr, parseOrRest, parseAnd, parseUnary,
    parseAtom, hNode, finishAnd, finishOr]

/-- The query `a.b` finds the first document of the two. -/
theorem evaluate_exact_phrase : ∃ _ : Unicode, ∃ node, parse "a.b" = .ok node ∧
    ∃ h ∈ evaluate (F := Nat) (A := Nat) (M := Nat)
      ⟨fun _ _ => 1, fun _ tf _ _ => tf.toNat, fun _ _ => 0⟩ twoIndex node, h.doc = 0 := by
  let _ := Platform.reference.toUnicode
  refine ⟨Platform.reference.toUnicode, _, parse_phrase, ?_⟩
  have hPositions : (twoSegment.view 0).positions "a" = [0] ∧
      (twoSegment.view 0).positions "b" = [1] := by decide +kernel
  refine ((evaluate_exact _ twoIndex parse_phrase).2.1 0).mpr
    ⟨twoSegment, List.mem_singleton_self _, 0, rfl, ⟨rfl, _, rfl, rfl⟩, 0, fun k hk => ?_⟩
  match k, hk with
  | 0, _ => exact ⟨0, by rw [List.getElem_cons_zero, hPositions.1]; simp, rfl⟩
  | 1, _ =>
    refine ⟨1, ?_, rfl⟩
    rw [List.getElem_cons_succ, List.getElem_cons_zero, hPositions.2]
    exact List.mem_singleton_self _

end Query

end Ripindex
