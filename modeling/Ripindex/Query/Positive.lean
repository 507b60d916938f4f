import Ripindex.Query.Grammar
import Ripindex.Query.Search

/-!
# Positive terms

Every query of the parser has a positive term, at every depth and under every negation, and
what evaluation returns has one of the query's positive terms.

## Results

* `highlightTerms_ne_nil`   — a well-formed query has a positive term.
* `exists_of_satisfies`     — what satisfies a query has one of its positive terms.
* `parsed_query_positive`   — the two for what `parse` returns, at every depth.
-/

namespace Ripindex.Query

mutual

/-- The node and all nodes inside it, negated operands included. -/
def subnodes : Node → List Node
  | .term t => [.term t]
  | .phrase ts => [.phrase ts]
  | .and must mustNot => .and must mustNot :: (subnodesAll must ++ subnodesAll mustNot)
  | .or children => .or children :: subnodesAll children

def subnodesAll : List Node → List Node
  | [] => []
  | n :: ns => subnodes n ++ subnodesAll ns

end

mutual

/-- Well-formedness holds at every depth. -/
theorem wellFormed_subnodes (node : Node) (h : WellFormed node) :
    ∀ sub ∈ subnodes node, WellFormed sub := by
  match node with
  | .term t =>
    intro sub hSub
    obtain rfl := List.mem_singleton.mp hSub
    exact h
  | .phrase ts =>
    intro sub hSub
    obtain rfl := List.mem_singleton.mp hSub
    exact h
  | .and must mustNot =>
    intro sub hSub
    rw [subnodes, List.mem_cons, List.mem_append] at hSub
    rcases hSub with rfl | hSub | hSub
    · exact h
    · exact wellFormed_subnodesAll must h.2.2.1 sub hSub
    · exact wellFormed_subnodesAll mustNot h.2.2.2 sub hSub
  | .or children =>
    intro sub hSub
    rw [subnodes, List.mem_cons] at hSub
    rcases hSub with rfl | hSub
    · exact h
    · exact wellFormed_subnodesAll children h.2 sub hSub

theorem wellFormed_subnodesAll (nodes : List Node) (h : WellFormedAll nodes) :
    ∀ sub ∈ subnodesAll nodes, WellFormed sub := by
  match nodes with
  | [] =>
    intro sub hSub
    cases hSub
  | n :: ns =>
    intro sub hSub
    rcases List.mem_append.mp hSub with hSub | hSub
    · exact wellFormed_subnodes n h.1 sub hSub
    · exact wellFormed_subnodesAll ns h.2 sub hSub

end

mutual

/-- The node has the term outside every negation. -/
def Positive (t : String) : Node → Prop
  | .term u => t = u
  | .phrase ts => t ∈ ts
  | .and must _ => PositiveAny t must
  | .or children => PositiveAny t children

def PositiveAny (t : String) : List Node → Prop
  | [] => False
  | n :: ns => Positive t n ∨ PositiveAny t ns

end

mutual

theorem mem_walk (node : Node) (out : List String) (t : String) :
    t ∈ walk node out ↔ t ∈ out ∨ Positive t node := by
  match node with
  | .term u => rw [walk, mem_addTerm, Positive]
  | .phrase ts => rw [walk, mem_foldl_addTerm, Positive]
  | .and must mustNot => rw [walk, mem_walkAll, Positive]
  | .or children => rw [walk, mem_walkAll, Positive]

theorem mem_walkAll (nodes : List Node) (out : List String) (t : String) :
    t ∈ walkAll nodes out ↔ t ∈ out ∨ PositiveAny t nodes := by
  match nodes with
  | [] => simp [walkAll, PositiveAny]
  | n :: ns => rw [walkAll, mem_walkAll, mem_walk, PositiveAny, or_assoc]

end

/-- The highlighted terms are the positive ones. -/
theorem mem_highlightTerms {node : Node} {t : String} :
    t ∈ highlightTerms node ↔ Positive t node := by
  simp [highlightTerms, mem_walk]

mutual

/-- A well-formed node has a positive term. -/
theorem exists_positive (node : Node) (h : WellFormed node) : ∃ t, Positive t node := by
  match node with
  | .term t => exact ⟨t, rfl⟩
  | .phrase (t :: ts) => exact ⟨t, List.mem_cons_self ..⟩
  | .and must mustNot => exact exists_positiveAny must h.1 h.2.2.1
  | .or (n :: ns) => exact exists_positiveAny (n :: ns) (by simp) h.2

theorem exists_positiveAny (nodes : List Node) (hNe : nodes ≠ []) (h : WellFormedAll nodes) :
    ∃ t, PositiveAny t nodes := by
  match nodes, hNe with
  | n :: ns, _ =>
    obtain ⟨t, ht⟩ := exists_positive n h.1
    exact ⟨t, .inl ht⟩

end

theorem highlightTerms_ne_nil {node : Node} (h : WellFormed node) : highlightTerms node ≠ [] := by
  obtain ⟨t, ht⟩ := exists_positive node h
  exact List.ne_nil_of_mem (mem_highlightTerms.mpr ht)

mutual

/-- A document that satisfies a query has one of its positive terms. -/
theorem exists_of_satisfies {pos : String → List Position} (node : Node) (h : WellFormed node)
    (hSat : Satisfies pos node) : ∃ t, Positive t node ∧ pos t ≠ [] := by
  match node with
  | .term t => exact ⟨t, rfl, hSat⟩
  | .phrase (t :: ts) =>
    obtain ⟨p, hp⟩ := hSat
    obtain ⟨q, hq, -⟩ := hp 0 (by simp)
    exact ⟨t, List.mem_cons_self .., List.ne_nil_of_mem hq⟩
  | .and must mustNot => exact exists_of_satisfiesAll must h.1 h.2.2.1 hSat.1
  | .or children => exact exists_of_satisfiesAny children h.2 hSat

theorem exists_of_satisfiesAll {pos : String → List Position} (nodes : List Node)
    (hNe : nodes ≠ []) (h : WellFormedAll nodes) (hSat : SatisfiesAll pos nodes) :
    ∃ t, PositiveAny t nodes ∧ pos t ≠ [] := by
  match nodes, hNe with
  | n :: ns, _ =>
    obtain ⟨t, ht, hPos⟩ := exists_of_satisfies n h.1 hSat.1
    exact ⟨t, .inl ht, hPos⟩

theorem exists_of_satisfiesAny {pos : String → List Position} (nodes : List Node)
    (h : WellFormedAll nodes) (hSat : SatisfiesAny pos nodes) :
    ∃ t, PositiveAny t nodes ∧ pos t ≠ [] := by
  match nodes with
  | [] => exact hSat.elim
  | n :: ns =>
    rcases hSat with hSat | hSat
    · obtain ⟨t, ht, hPos⟩ := exists_of_satisfies n h.1 hSat
      exact ⟨t, .inl ht, hPos⟩
    · obtain ⟨t, ht, hPos⟩ := exists_of_satisfiesAny ns h.2 hSat
      exact ⟨t, .inr ht, hPos⟩

end

/-- The shape of one node: an `And` has a positive operand and two operands or more, an `Or`
two children or more, a phrase two terms or more. -/
def Shape : Node → Prop
  | .term _ => True
  | .phrase ts => 2 ≤ ts.length
  | .and must mustNot => must ≠ [] ∧ 2 ≤ must.length + mustNot.length
  | .or children => 2 ≤ children.length

theorem WellFormed.shape {node : Node} (h : WellFormed node) : Shape node := by
  match node with
  | .term _ => trivial
  | .phrase _ => exact h
  | .and _ _ => exact ⟨h.1, h.2.1⟩
  | .or _ => exact h.1

section

variable {F A M : Type} [AddCommMonoid F] [AddCommMonoid M] [Unicode]

/-- `parse` ends within its fuel on every input, and what it returns is well formed and has a
positive term at every depth; every document found for it has one of its positive terms. -/
theorem parsed_query_positive (input : String) :
    (∀ toks, lex input = .ok toks →
      parseOr (fun text => (atoms text).map Token.term) (5 * toks.length + 5) toks ≠
        .error none) ∧
    ∀ node, parse input = .ok node →
      (∀ sub ∈ subnodes node, Shape sub ∧ highlightTerms sub ≠ []) ∧
      ∀ (bm25 : Bm25 F A M) (I : Index), ∀ h ∈ evaluate bm25 I node,
        ∃ s ∈ I.segments, ∃ i, h.doc.toNat = s.entry.baseDoc.toNat + i.toNat ∧
          ∃ t ∈ highlightTerms node, (s.view i).positions t ≠ [] := by
  refine ⟨fun toks _ => (parseOr_fuel toks).1, fun node hParse => ?_⟩
  have hNode := wellFormed_of_parse hParse
  refine ⟨fun sub hSub => ?_, fun bm25 I h hMem => ?_⟩
  · have hSubNode := wellFormed_subnodes node hNode sub hSub
    exact ⟨hSubNode.shape, highlightTerms_ne_nil hSubNode⟩
  · obtain ⟨s, hs, i, hDoc, -, hSat⟩ :=
      (mem_evaluate_iff bm25 I hNode h.doc).mp ⟨h, hMem, rfl⟩
    obtain ⟨t, ht, hPos⟩ := exists_of_satisfies node hNode hSat
    exact ⟨s, hs, i, hDoc, t, mem_highlightTerms.mpr ht, hPos⟩

end

/-- The query `a.b`, a phrase of two terms, and what it finds in an index of two documents. -/
theorem parsed_query_positive_phrase : ∃ _ : Unicode, ∀ h ∈ evaluate (F := Nat) (A := Nat)
    (M := Nat) ⟨fun _ _ => 1, fun _ tf _ _ => tf.toNat, fun _ _ => 0⟩ twoIndex
      (.phrase ["a", "b"]), ∃ s ∈ twoIndex.segments, ∃ i,
        h.doc.toNat = s.entry.baseDoc.toNat + i.toNat ∧
          ∃ t ∈ highlightTerms (.phrase ["a", "b"]), (s.view i).positions t ≠ [] := by
  let _ := Platform.reference.toUnicode
  exact ⟨Platform.reference.toUnicode,
    ((parsed_query_positive "a.b").2 _ parse_phrase).2 _ twoIndex⟩

end Ripindex.Query
