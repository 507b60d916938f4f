import Ripindex.Atoms
import Ripindex.Format.Idx
import Ripindex.Index.Content

/-!
# Documents indexed one after another

`index_document` over a sequence of texts into one term map. Within a text a term keeps one
position for each of its atoms, in order, and documents follow each other, so what a build
collects is always a list the encoder accepts.

## Results

* `termPositions_tokensFrom`    — the positions of a term are those of its atoms.
* `indexDocuments_list`         — a term's postings are its documents', in order.
* `indexDocuments_encodable`    — every posting list built is accepted by `encode_postings`.
-/

namespace Ripindex

open Unicode

-- ---------------------------------------------------------------------------
-- Positions of a term in one text
-- ---------------------------------------------------------------------------

section

variable [Unicode]

omit [Unicode] in
theorem addPosition_addPosition (ps : List Position) (p : Position) :
    addPosition (addPosition ps p) p = addPosition ps p := by
  have hLast : (addPosition ps p).getLast? = some p := by
    unfold addPosition
    split
    · assumption
    · simp
  rw [addPosition, if_pos hLast]

omit [Unicode] in
/-- The tokens of one atom record its position once, in the lists of its terms. -/
theorem foldl_addPosition_atom (t : String) (terms : List String) (p : Position)
    (span : Nat × Nat) (ps : List Position) :
    (terms.map fun term => (⟨term, p, span⟩ : Token)).foldl
        (fun ps tok => if tok.term = t then addPosition ps tok.position else ps) ps =
      if t ∈ terms then addPosition ps p else ps := by
  induction terms generalizing ps with
  | nil => simp
  | cons term terms ih =>
    rw [List.map_cons, List.foldl_cons, ih]
    by_cases hTerm : term = t
    · simp [hTerm, addPosition_addPosition]
    · simp [hTerm, Ne.symm hTerm]

/-- The positions of the atoms that have the term, atoms counted from `n`. -/
def positionsFrom (t : String) (n : Nat) (as : List (Nat × List Char)) : List Position :=
  ((as.zipIdx n).filter fun a => t ∈ atomTerms true a.1.2).map fun a => UInt32.ofNat a.2

theorem mem_positionsFrom {t : String} {n : Nat} {as : List (Nat × List Char)} {p : Position}
    (h : p ∈ positionsFrom t n as) :
    ∃ k a, as[k]? = some a ∧ t ∈ atomTerms true a.2 ∧ p = UInt32.ofNat (n + k) := by
  obtain ⟨⟨a, i⟩, hMem, rfl⟩ := List.mem_map.mp h
  obtain ⟨hMem, hTerm⟩ := List.mem_filter.mp hMem
  obtain ⟨hGe, hGet⟩ := List.mk_mem_zipIdx_iff_le_and_getElem?_sub.mp hMem
  exact ⟨i - n, a, hGet, by simpa using hTerm, by rw [Nat.add_sub_cancel' hGe]⟩

/-- Atom by atom, every position recorded is later than those before. -/
theorem foldl_tokensFrom (t : String) {n : Nat} {as : List (Nat × List Char)}
    (hFit : n + as.length ≤ 2 ^ 32) {ps : List Position} (hBefore : ∀ p ∈ ps, p.toNat < n) :
    (tokensFrom true (UInt32.ofNat n) as).foldl
        (fun ps tok => if tok.term = t then addPosition ps tok.position else ps) ps =
      ps ++ positionsFrom t n as := by
  induction as generalizing n ps with
  | nil => simp [tokensFrom, positionsFrom]
  | cons a as ih =>
    obtain ⟨start, atom⟩ := a
    rw [List.length_cons] at hFit
    have hNat : (UInt32.ofNat n).toNat = n :=
      UInt32.toNat_ofNat_of_lt' (Nat.lt_of_lt_of_le (by omega) hFit)
    have hNew : addPosition ps (UInt32.ofNat n) = ps ++ [UInt32.ofNat n] := by
      refine if_neg fun hLast => ?_
      have := hBefore _ (List.mem_of_getLast? hLast)
      omega
    rw [tokensFrom, List.foldl_append, atomTokens_eq, foldl_addPosition_atom, position_succ]
    by_cases hTerm : t ∈ atomTerms true atom
    · have hBefore' : ∀ p ∈ ps ++ [UInt32.ofNat n], p.toNat < n + 1 := by
        intro p hp
        rcases List.mem_append.mp hp with hp | hp
        · exact Nat.lt_succ_of_lt (hBefore p hp)
        · rw [List.mem_singleton.mp hp]
          omega
      rw [if_pos hTerm, hNew, ih (by omega) hBefore']
      simp [positionsFrom, hTerm]
    · rw [if_neg hTerm, ih (by omega) fun p hp => Nat.lt_succ_of_lt (hBefore p hp)]
      simp [positionsFrom, hTerm]

/-- The positions of a term in a text are those of the atoms that have it. -/
theorem termPositions_tokensFrom (t : String) {as : List (Nat × List Char)}
    (hFit : as.length ≤ 2 ^ 32) :
    termPositions (tokensFrom true 0 as) t = positionsFrom t 0 as :=
  foldl_tokensFrom t (n := 0) (by omega) (by simp)

theorem positionsFrom_pairwise (t : String) {n : Nat} {as : List (Nat × List Char)}
    (hFit : n + as.length ≤ 2 ^ 32) : (positionsFrom t n as).Pairwise (· < ·) := by
  induction as generalizing n with
  | nil => exact List.Pairwise.nil
  | cons a as ih =>
    rw [List.length_cons] at hFit
    have hLater := ih (n := n + 1) (by omega)
    by_cases hTerm : t ∈ atomTerms true a.2
    · have hCons : positionsFrom t n (a :: as) =
          UInt32.ofNat n :: positionsFrom t (n + 1) as := by simp [positionsFrom, hTerm]
      rw [hCons]
      refine List.pairwise_cons.mpr ⟨fun p hp => ?_, hLater⟩
      obtain ⟨k, b, hGet, -, rfl⟩ := mem_positionsFrom hp
      have hk : k < as.length := (List.getElem?_eq_some_iff.mp hGet).1
      have hLt : n + 1 + k < 2 ^ 32 := by omega
      rw [UInt32.lt_iff_toNat_lt, UInt32.toNat_ofNat_of_lt' (Nat.lt_of_lt_of_le (by omega) hFit),
        UInt32.toNat_ofNat_of_lt' hLt]
      omega
    · have hSkip : positionsFrom t n (a :: as) = positionsFrom t (n + 1) as := by
        simp [positionsFrom, hTerm]
      rw [hSkip]
      exact hLater

omit [Unicode] in
theorem foldl_position_atom (terms : List String) (p : Position) (span : Nat × Nat)
    (len : UInt32) :
    (terms.map fun term => (⟨term, p, span⟩ : Token)).foldl
        (fun _ tok => tok.position + 1) len =
      if terms = [] then len else p + 1 := by
  induction terms generalizing len with
  | nil => rfl
  | cons term terms ih =>
    rw [List.map_cons, List.foldl_cons, ih]
    simp

theorem foldl_position_tokensFrom (n : Nat) (as : List (Nat × List Char)) :
    (tokensFrom true (UInt32.ofNat n) as).foldl (fun _ tok => tok.position + 1)
        (UInt32.ofNat n) = UInt32.ofNat (n + as.length) := by
  induction as generalizing n with
  | nil => rfl
  | cons a as ih =>
    rw [tokensFrom, List.foldl_append, atomTokens_eq, foldl_position_atom,
      if_neg (by simp [atomTerms]), position_succ, ih, List.length_cons]
    congr 1
    omega

/-- The length `index_document` returns is the number of atoms of the text. -/
theorem atomCount_tokenize {text : String} (hFit : (atomRuns text).length < 2 ^ 32) :
    (atomCount (tokenize text)).toNat = (atomRuns text).length := by
  have hLen := length_atomsOfWords text
  have hCount := foldl_position_tokensFrom 0 (atomsOfWords 0 (splitWordBounds text))
  rw [Nat.zero_add, hLen] at hCount
  rw [← UInt32.toNat_ofNat_of_lt' hFit, ← hCount]
  rfl

/-- The positions of a term in a text: strictly ascending, each one of an atom that has the
term. -/
theorem termPositions_tokenize (t : String) {text : String}
    (hFit : (atomRuns text).length < 2 ^ 32) :
    (termPositions (tokenize text) t).Pairwise (· < ·) ∧
      ∀ p ∈ termPositions (tokenize text) t, ∃ atom, (atomRuns text)[p.toNat]? = some atom ∧
        (t = fold atom ∨ ∃ part ∈ identifierParts atom, t = fold part) := by
  have hLen := length_atomsOfWords text
  have hPos : termPositions (tokenize text) t =
      positionsFrom t 0 (atomsOfWords 0 (splitWordBounds text)) :=
    termPositions_tokensFrom t (by omega)
  rw [hPos]
  refine ⟨positionsFrom_pairwise t (by omega), fun p hp => ?_⟩
  obtain ⟨k, a, hGet, hTerm, rfl⟩ := mem_positionsFrom hp
  have hk : k < (atomsOfWords 0 (splitWordBounds text)).length :=
    (List.getElem?_eq_some_iff.mp hGet).1
  have hNat : (UInt32.ofNat (0 + k)).toNat = k := by
    rw [Nat.zero_add]
    exact UInt32.toNat_ofNat_of_lt' (Nat.lt_trans (hLen ▸ hk) hFit)
  refine ⟨a.2, ?_, mem_atomTerms.mp hTerm⟩
  rw [hNat, atomRuns, ← map_atomsOfWords 0, List.getElem?_map, hGet]
  rfl

end

-- ---------------------------------------------------------------------------
-- A sequence of documents
-- ---------------------------------------------------------------------------

variable [Platform]

/-- `index_document` over one text after another, into one map; the lengths it returns. -/
def indexDocuments : List (DocId × String) → TermMap → List UInt32 × TermMap
  | [], terms => ([], terms)
  | (doc, text) :: docs, terms =>
    let (len, terms) := indexDocument doc text terms
    let (lens, terms) := indexDocuments docs terms
    (len :: lens, terms)

/-- The lengths are the atom counts of the texts. -/
theorem indexDocuments_lens (docs : List (DocId × String)) (terms : TermMap) :
    (indexDocuments docs terms).1 = docs.map fun d => atomCount (tokenize d.2) := by
  induction docs generalizing terms with
  | nil => rfl
  | cons d docs ih =>
    rw [indexDocuments, List.map_cons, ← ih (pushTokens d.1 terms (tokenize d.2))]
    rfl

/-- The postings of a term are those of the documents, one behind the other. -/
theorem indexDocuments_list (t : String) {docs : List (DocId × String)} {terms : TermMap}
    (hIds : (docs.map Prod.fst).Pairwise (· < ·))
    (hBefore : ∀ q ∈ terms.list t, ∀ d ∈ docs, q.doc < d.1) :
    (indexDocuments docs terms).2.list t =
      terms.list t ++ docs.flatMap fun d => posting d.1 (termPositions (tokenize d.2) t) := by
  induction docs generalizing terms with
  | nil => simp [indexDocuments]
  | cons d docs ih =>
    obtain ⟨doc, text⟩ := d
    rw [List.map_cons, List.pairwise_cons] at hIds
    have hLast : LastNe (terms.list t) doc := fun q hq hEq => by
      have hLt := hBefore q (List.mem_of_getLast? hq) (doc, text) (List.mem_cons_self ..)
      exact absurd (hEq ▸ hLt) (UInt32.lt_irrefl _)
    have hPush := pushTokens_list hLast (tokenize text)
    have hStep : (indexDocuments ((doc, text) :: docs) terms).2 =
        (indexDocuments docs (pushTokens doc terms (tokenize text))).2 := rfl
    have hBefore' : ∀ q ∈ (pushTokens doc terms (tokenize text)).list t, ∀ d ∈ docs,
        q.doc < d.1 := by
      intro q hq d hd
      rw [hPush] at hq
      rcases List.mem_append.mp hq with hq | hq
      · exact hBefore q hq d (List.mem_cons_of_mem _ hd)
      · rw [mem_posting hq]
        exact hIds.1 d.1 (List.mem_map_of_mem hd)
    rw [hStep, ih hIds.2 hBefore', hPush, List.flatMap_cons, List.append_assoc]

omit [Platform] in
theorem mem_posting_iff {doc : DocId} {ps : List Position} {q : Posting} :
    q ∈ posting doc ps ↔ ps ≠ [] ∧ q = ⟨doc, ps⟩ := by
  unfold posting
  split <;> simp_all

omit [Platform] in
theorem flatMap_posting_pairwise {docs : List (DocId × String)}
    (hIds : (docs.map Prod.fst).Pairwise (· < ·)) (f : DocId × String → List Position) :
    (docs.flatMap fun d => posting d.1 (f d)).Pairwise fun p q => p.doc < q.doc := by
  induction docs with
  | nil => exact List.Pairwise.nil
  | cons d docs ih =>
    rw [List.map_cons, List.pairwise_cons] at hIds
    refine List.pairwise_append.mpr ⟨?_, ih hIds.2, fun p hp q hq => ?_⟩
    · change (posting d.1 (f d)).Pairwise _
      by_cases hNil : f d = []
      · simp [hNil]
      · rw [posting_of_ne_nil hNil]
        exact List.pairwise_singleton _ _
    · obtain ⟨d', hd', hq⟩ := List.mem_flatMap.mp hq
      rw [mem_posting hp, mem_posting hq]
      exact hIds.1 d'.1 (List.mem_map_of_mem hd')

/-- What one map holds after a sequence of documents: for every term a list with ascending
documents, each with ascending positions below the document's length that stand for atoms
having the term; the encoder accepts it. -/
theorem indexDocuments_encodable (docs : List (DocId × String))
    (hIds : (docs.map Prod.fst).Pairwise (· < ·))
    (hAtoms : ∀ d ∈ docs, (atomRuns d.2).length < 2 ^ 32) (t : String) :
    ((indexDocuments docs ∅).2.list t).Pairwise (fun p q => p.doc < q.doc) ∧
    (∀ p ∈ (indexDocuments docs ∅).2.list t, p.positions ≠ [] ∧
      p.positions.Pairwise (· < ·) ∧
      ∃ (i : Nat) (text : String) (len : UInt32), docs[i]? = some (p.doc, text) ∧
        (indexDocuments docs ∅).1[i]? = some len ∧
        ∀ q ∈ p.positions, q < len ∧ ∃ atom, (atomRuns text)[q.toNat]? = some atom ∧
          (t = fold atom ∨ ∃ part ∈ identifierParts atom, t = fold part)) ∧
    ∃ e, Idx.encodePostings ((indexDocuments docs ∅).2.list t) = .ok e := by
  have hList : (indexDocuments docs ∅).2.list t =
      docs.flatMap fun d => posting d.1 (termPositions (tokenize d.2) t) := by
    rw [indexDocuments_list t hIds (by simp)]
    simp
  have hPair : ((indexDocuments docs ∅).2.list t).Pairwise (fun p q => p.doc < q.doc) := by
    rw [hList]
    exact flatMap_posting_pairwise hIds fun d => termPositions (tokenize d.2) t
  have hEach : ∀ p ∈ (indexDocuments docs ∅).2.list t, p.positions ≠ [] ∧
      p.positions.Pairwise (· < ·) ∧
      ∃ (i : Nat) (text : String) (len : UInt32), docs[i]? = some (p.doc, text) ∧
        (indexDocuments docs ∅).1[i]? = some len ∧
        ∀ q ∈ p.positions, q < len ∧ ∃ atom, (atomRuns text)[q.toNat]? = some atom ∧
          (t = fold atom ∨ ∃ part ∈ identifierParts atom, t = fold part) := by
    intro p hp
    rw [hList] at hp
    obtain ⟨⟨doc, text⟩, hd, hp⟩ := List.mem_flatMap.mp hp
    obtain ⟨hNe, rfl⟩ := mem_posting_iff.mp hp
    obtain ⟨hAsc, hAtom⟩ := termPositions_tokenize t (hAtoms _ hd)
    obtain ⟨i, hGet⟩ := List.getElem?_of_mem hd
    refine ⟨hNe, hAsc, i, text, atomCount (tokenize text), hGet, ?_, fun q hq => ?_⟩
    · rw [indexDocuments_lens, List.getElem?_map, hGet]
      rfl
    · obtain ⟨atom, hRun, hTerm⟩ := hAtom q hq
      refine ⟨?_, atom, hRun, hTerm⟩
      rw [UInt32.lt_iff_toNat_lt, atomCount_tokenize (hAtoms _ hd)]
      exact (List.getElem?_eq_some_iff.mp hRun).1
  refine ⟨hPair, hEach, Idx.encodePostings_isOk.mpr ⟨hPair, by simp, ?_, ?_⟩⟩
  · exact fun p hp => (hEach p hp).1
  · exact fun p hp => (hEach p hp).2.1

omit [Platform] in
/-- Two documents; `Bar` is a part in the first and an atom in the second. -/
theorem indexDocuments_encodable_two :
    letI := Platform.reference
    ∃ e, Idx.encodePostings
      ((indexDocuments [(3, "fooBar_bar"), (7, "Bar")] ∅).2.list "bar") = .ok e :=
  letI := Platform.reference
  (indexDocuments_encodable [(3, "fooBar_bar"), (7, "Bar")] (by decide) (by decide)
    "bar").2.2

end Ripindex
