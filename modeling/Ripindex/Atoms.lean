import Mathlib.Data.List.TakeWhile
import Ripindex.Tokens

/-!
# Atoms of a text

Query-side and index-side tokenization cut a text into the same atoms. This file says which
runs of the text these are, where they stand in it, and what the token lists of the two modes
have in common.

## Results

* `map_atomsOfWords`        — the atoms are the alphanumeric runs between cut characters.
* `flatten_identifierParts` — the parts of an atom are the atom less its underscores.
* `mem_atomTerms`           — the terms of an atom are its folded form and its folded parts.
* `tokens_agree_iff`        — the two modes agree exactly while positions do not wrap.
-/

namespace Ripindex

open Unicode

-- ---------------------------------------------------------------------------
-- Runs of a word
-- ---------------------------------------------------------------------------

variable [Unicode]

/-- The runs between the cut characters of a word that have an alphanumeric character. -/
def wordRuns (w : List Char) : List (List Char) :=
  (w.splitOnP isCut).filter fun run => run.any isAlphanumeric

/-- The atoms of a text, read off its words. -/
def atomRuns (text : String) : List (List Char) :=
  (splitWordBounds text).flatMap wordRuns

theorem wordRuns_cons_cut {c : Char} (h : isCut c) (cs : List Char) :
    wordRuns (c :: cs) = wordRuns cs := by
  have hSplit : (([] : List Char) ++ c :: cs).splitOnP isCut = [] :: cs.splitOnP isCut :=
    List.splitOnP_append_cons_of_forall_mem (by simp) c h cs
  rw [List.nil_append] at hSplit
  simp [wordRuns, hSplit]

theorem wordRuns_append_cut {lead : List Char} (h : ∀ c ∈ lead, isCut c) (cs : List Char) :
    wordRuns (lead ++ cs) = wordRuns cs := by
  induction lead with
  | nil => rfl
  | cons c lead ih =>
    rw [List.cons_append, wordRuns_cons_cut (h c (List.mem_cons_self ..))]
    exact ih fun d hd => h d (List.mem_cons_of_mem _ hd)

theorem wordRuns_nil : wordRuns [] = [] := by
  simp [wordRuns]

/-- A run without cut characters is an atom of the word when it has an alphanumeric one. -/
theorem wordRuns_run_append {run cs : List Char} (hRun : ∀ c ∈ run, isCut c = false)
    (hCut : ∀ c ∈ cs.head?, isCut c) :
    wordRuns (run ++ cs) = (if run.any isAlphanumeric then [run] else []) ++ wordRuns cs := by
  cases cs with
  | nil =>
    rw [List.append_nil, wordRuns_nil, List.append_nil, wordRuns,
      List.splitOnP_eq_singleton hRun]
    split <;> simp_all
  | cons c cs =>
    have hc : isCut c := hCut c rfl
    rw [wordRuns_cons_cut hc, wordRuns, wordRuns,
      List.splitOnP_append_cons_of_forall_mem hRun c hc, List.filter_cons]
    split <;> rfl

/-- What `next_atom` skips, takes and leaves of a word. -/
theorem wordRuns_of_run_cons {rest cs : List Char} {c : Char}
    (hRun : rest.dropWhile isCut = c :: cs) :
    wordRuns rest =
      (if ((c :: cs).takeWhile fun x => !isCut x).any isAlphanumeric then
        [(c :: cs).takeWhile fun x => !isCut x] else []) ++
        wordRuns ((c :: cs).dropWhile fun x => !isCut x) := by
  have hLead : wordRuns (rest.takeWhile isCut ++ rest.dropWhile isCut) = wordRuns (c :: cs) := by
    rw [hRun]
    exact wordRuns_append_cut (fun d hd => List.mem_takeWhile_imp hd) _
  rw [List.takeWhile_append_dropWhile] at hLead
  have hAtom : ∀ d ∈ (c :: cs).takeWhile fun x => !isCut x, isCut d = false := by
    intro d hd
    simpa using List.mem_takeWhile_imp hd
  have hRest : ∀ d ∈ ((c :: cs).dropWhile fun x => !isCut x).head?, isCut d := by
    intro d hd
    have hNot := List.head?_dropWhile_not (fun x => !isCut x) (c :: cs)
    rw [hd] at hNot
    simpa using hNot
  rw [hLead, ← wordRuns_run_append hAtom hRest, List.takeWhile_append_dropWhile]

/-- The loop of `next_atom` over one word finds its runs. -/
theorem map_atomsOfWord (base : Nat) (w : List Char) :
    (atomsOfWord base w).map Prod.snd = wordRuns w := by
  fun_induction atomsOfWord base w with
  | case1 base rest hRun =>
    have hAll : ∀ c ∈ rest, isCut c := List.dropWhile_eq_nil_iff.mp hRun
    rw [List.map_nil, ← List.append_nil rest, wordRuns_append_cut hAll, wordRuns_nil]
  | case2 base rest c cs hRun start atom remainder later hAny ih =>
    rw [wordRuns_of_run_cons hRun, if_pos hAny, List.map_cons, ih]
    rfl
  | case3 base rest c cs hRun start atom remainder later hAny ih =>
    rw [wordRuns_of_run_cons hRun, if_neg hAny, ih]
    rfl

/-- The atoms of the words of a text are its runs. -/
theorem map_atomsOfWords (base : Nat) (ws : List (List Char)) :
    (atomsOfWords base ws).map Prod.snd = ws.flatMap wordRuns := by
  induction ws generalizing base with
  | nil => rfl
  | cons w ws ih => simp [atomsOfWords, map_atomsOfWord, ih]

theorem length_atomsOfWords (text : String) :
    (atomsOfWords 0 (splitWordBounds text)).length = (atomRuns text).length := by
  rw [atomRuns, ← map_atomsOfWords 0, List.length_map]

-- ---------------------------------------------------------------------------
-- Where the atoms stand
-- ---------------------------------------------------------------------------

omit [Unicode] in
@[simp] theorem utf8Len_append (cs ds : List Char) :
    utf8Len (cs ++ ds) = utf8Len cs + utf8Len ds := by
  simp [utf8Len]

omit [Unicode] in
theorem utf8Len_pos {cs : List Char} (h : cs ≠ []) : 0 < utf8Len cs := by
  obtain ⟨c, cs', rfl⟩ := List.exists_cons_of_ne_nil h
  have hPos := c.utf8Size_pos
  simp only [utf8Len, List.map_cons, List.sum_cons]
  omega

/-- An atom that starts at byte `start` of a text whose first byte is `base`: a run of the
text without cut characters and with an alphanumeric one. -/
structure AtomAt (base : Nat) (text : List Char) (start : Nat) (atom : List Char) : Prop where
  stands : ∃ before after, text = before ++ atom ++ after ∧ start = base + utf8Len before
  not_cut : ∀ c ∈ atom, isCut c = false
  alphanumeric : ∃ c ∈ atom, isAlphanumeric c

namespace AtomAt

variable {base start : Nat} {text atom : List Char}

theorem append_left (before : List Char) (h : AtomAt (base + utf8Len before) text start atom) :
    AtomAt base (before ++ text) start atom := by
  obtain ⟨⟨before', after, rfl, rfl⟩, hCut, hAlpha⟩ := h
  exact ⟨⟨before ++ before', after, by simp, by simp [Nat.add_assoc]⟩, hCut, hAlpha⟩

theorem append_right (after : List Char) (h : AtomAt base text start atom) :
    AtomAt base (text ++ after) start atom := by
  obtain ⟨⟨before, after', rfl, rfl⟩, hCut, hAlpha⟩ := h
  exact ⟨⟨before, after' ++ after, by simp, rfl⟩, hCut, hAlpha⟩

theorem base_le (h : AtomAt base text start atom) : base ≤ start := by
  obtain ⟨⟨_, _, _, rfl⟩, _, _⟩ := h
  exact Nat.le_add_right ..

theorem end_le (h : AtomAt base text start atom) :
    start + utf8Len atom ≤ base + utf8Len text := by
  obtain ⟨⟨before, after, rfl, rfl⟩, _, _⟩ := h
  simp only [utf8Len_append]
  omega

theorem utf8Len_pos (h : AtomAt base text start atom) : 0 < utf8Len atom := by
  obtain ⟨c, hc, _⟩ := h.alphanumeric
  exact Ripindex.utf8Len_pos (List.ne_nil_of_mem hc)

end AtomAt

/-- One atom ends before the next begins. -/
def Before (a b : Nat × List Char) : Prop := a.1 + utf8Len a.2 ≤ b.1

/-- The atoms of a word stand in it, in order. -/
theorem atomsOfWord_at (base : Nat) (w : List Char) :
    (∀ a ∈ atomsOfWord base w, AtomAt base w a.1 a.2) ∧
      (atomsOfWord base w).Pairwise Before := by
  fun_induction atomsOfWord base w with
  | case1 base rest hRun => exact ⟨by simp, List.Pairwise.nil⟩
  | case2 base rest c cs hRun start atom remainder later hAny ih =>
    have hRest : rest.takeWhile isCut ++ (atom ++ remainder) = rest := by
      rw [List.takeWhile_append_dropWhile, ← hRun, List.takeWhile_append_dropWhile]
    have hLater : ∀ a ∈ later, AtomAt base rest a.1 a.2 := fun a ha => by
      rw [← hRest]
      exact .append_left _ (.append_left _ (ih.1 a ha))
    have hAtom : AtomAt base rest start atom :=
      ⟨⟨_, remainder, by rw [List.append_assoc, hRest], rfl⟩,
        fun d hd => by simpa using List.mem_takeWhile_imp hd, List.any_eq_true.mp hAny⟩
    exact ⟨List.forall_mem_cons.mpr ⟨hAtom, hLater⟩,
      List.pairwise_cons.mpr ⟨fun a ha => (ih.1 a ha).base_le, ih.2⟩⟩
  | case3 base rest c cs hRun start atom remainder later hAny ih =>
    have hRest : rest.takeWhile isCut ++ (atom ++ remainder) = rest := by
      rw [List.takeWhile_append_dropWhile, ← hRun, List.takeWhile_append_dropWhile]
    refine ⟨fun a ha => ?_, ih.2⟩
    rw [← hRest]
    exact .append_left _ (.append_left _ (ih.1 a ha))

/-- The atoms of consecutive words stand in the text the words make up, in order. -/
theorem atomsOfWords_at (base : Nat) (ws : List (List Char)) :
    (∀ a ∈ atomsOfWords base ws, AtomAt base ws.flatten a.1 a.2) ∧
      (atomsOfWords base ws).Pairwise Before := by
  induction ws generalizing base with
  | nil => exact ⟨by simp [atomsOfWords], List.Pairwise.nil⟩
  | cons w ws ih =>
    obtain ⟨hAt, hPair⟩ := atomsOfWord_at base w
    obtain ⟨hAts, hPairs⟩ := ih (base + utf8Len w)
    refine ⟨fun a ha => ?_, List.pairwise_append.mpr ⟨hPair, hPairs, fun a ha b hb => ?_⟩⟩
    · rw [List.flatten_cons]
      rcases List.mem_append.mp ha with ha | ha
      · exact (hAt a ha).append_right _
      · exact .append_left _ (hAts a ha)
    · exact (hAt a ha).end_le.trans (hAts b hb).base_le

-- ---------------------------------------------------------------------------
-- Identifier parts
-- ---------------------------------------------------------------------------

theorem flatten_splitCamelFrom (prev : Char) (part cs : List Char) :
    (splitCamelFrom prev part cs).flatten = part.reverse ++ cs := by
  induction cs generalizing prev part with
  | nil => simp [splitCamelFrom]
  | cons c cs ih =>
    simp only [splitCamelFrom]
    split
    · rw [List.flatten_cons, ih, List.reverse_singleton, List.singleton_append]
    · rw [ih, List.reverse_cons, List.append_assoc, List.singleton_append]

theorem flatten_splitCamel (cs : List Char) : (splitCamel cs).flatten = cs := by
  cases cs with
  | nil => rfl
  | cons c cs => exact flatten_splitCamelFrom c [c] cs

omit [Unicode] in
theorem flatten_splitOn (cs : List Char) (sep : Char) :
    (cs.splitOn sep).flatten = cs.filter (· ≠ sep) := by
  induction cs with
  | nil => rfl
  | cons c cs ih =>
    rw [List.splitOn_cons_eq_if_modifyHead]
    by_cases hc : c = sep
    · simp [hc, ih]
    · obtain ⟨run, runs, hRuns⟩ := List.exists_cons_of_ne_nil (List.splitOn_ne_nil sep cs)
      rw [hRuns] at ih ⊢
      simpa [hc] using ih

/-- The parts of an atom, when it has any, are the atom less its underscores. -/
theorem flatten_identifierParts {atom : List Char} (h : identifierParts atom ≠ []) :
    (identifierParts atom).flatten = atom.filter (· ≠ '_') := by
  have hAll : (((atom.splitOn '_').filter fun s => !s.isEmpty).flatMap splitCamel).flatten =
      atom.filter (· ≠ '_') := by
    have hFlat : ∀ segs : List (List Char), (segs.flatMap splitCamel).flatten = segs.flatten := by
      intro segs
      induction segs with
      | nil => rfl
      | cons seg segs ih => simp [flatten_splitCamel, ih]
    rw [hFlat, ← flatten_splitOn, List.flatten_filter_not_isEmpty]
  unfold identifierParts at h ⊢
  dsimp only at h ⊢
  split <;> rename_i hParts
  · rw [hParts] at h hAll
    dsimp only at h
    split at h
    · exact absurd rfl h
    · rename_i hLen
      rw [if_neg hLen]
      exact hAll
  · exact hAll

/-- The terms of the parts of an atom, as the queue holds them. -/
def partTerms (atom : List Char) : List String :=
  (identifierParts atom).foldl (fun pending part =>
    let term := fold part
    if term ≠ fold atom ∧ term ∉ pending then pending ++ [term] else pending) []

/-- The terms of an atom: the whole of it, then (index side) its parts. -/
def atomTerms (splitIdentifiers : Bool) (atom : List Char) : List String :=
  fold atom :: if splitIdentifiers then partTerms atom else []

theorem atomTokens_eq (splitIdentifiers : Bool) (position : Position) (start : Nat)
    (atom : List Char) :
    atomTokens splitIdentifiers position start atom =
      (atomTerms splitIdentifiers atom).map
        fun term => ⟨term, position, (start, start + utf8Len atom)⟩ := by
  cases splitIdentifiers <;> rfl

/-- The queue holds every new term once. -/
theorem foldl_queue (whole : String) (parts : List (List Char)) {pending : List String}
    (hNodup : (whole :: pending).Nodup) :
    (whole :: parts.foldl (fun pending part =>
      let term := fold part
      if term ≠ whole ∧ term ∉ pending then pending ++ [term] else pending) pending).Nodup ∧
    ∀ t, t ∈ whole :: parts.foldl (fun pending part =>
      let term := fold part
      if term ≠ whole ∧ term ∉ pending then pending ++ [term] else pending) pending ↔
        t ∈ whole :: pending ∨ ∃ part ∈ parts, t = fold part := by
  induction parts generalizing pending with
  | nil => exact ⟨hNodup, by simp⟩
  | cons part parts ih =>
    simp only [List.foldl_cons]
    by_cases hNew : fold part ≠ whole ∧ fold part ∉ pending
    · rw [if_pos hNew]
      have hNodup' : (whole :: (pending ++ [fold part])).Nodup := by
        rw [← List.cons_append, List.nodup_append]
        refine ⟨hNodup, by simp, fun a ha b hb hEq => ?_⟩
        obtain rfl := List.mem_singleton.mp hb
        rcases List.mem_cons.mp (hEq ▸ ha) with h | h
        · exact hNew.1 h
        · exact hNew.2 h
      obtain ⟨hOut, hMem⟩ := ih hNodup'
      refine ⟨hOut, fun t => (hMem t).trans ?_⟩
      simp [or_assoc]
    · rw [if_neg hNew]
      obtain ⟨hOut, hMem⟩ := ih hNodup
      refine ⟨hOut, fun t => (hMem t).trans ?_⟩
      have hOld : fold part ∈ whole :: pending := by
        by_cases hWhole : fold part = whole
        · simp [hWhole]
        · exact List.mem_cons_of_mem _ (by simpa [hWhole] using hNew)
      constructor
      · rintro (h | ⟨p, hp, h⟩)
        · exact .inl h
        · exact .inr ⟨p, List.mem_cons_of_mem _ hp, h⟩
      · rintro (h | ⟨p, hp, h⟩)
        · exact .inl h
        · rcases List.mem_cons.mp hp with rfl | hp
          · exact .inl (h ▸ hOld)
          · exact .inr ⟨p, hp, h⟩

theorem nodup_atomTerms (splitIdentifiers : Bool) (atom : List Char) :
    (atomTerms splitIdentifiers atom).Nodup := by
  cases splitIdentifiers with
  | false => simp [atomTerms]
  | true => exact (foldl_queue (fold atom) (identifierParts atom) (by simp)).1

/-- An atom's terms are its folded form and its folded parts. -/
theorem mem_atomTerms {atom : List Char} {t : String} :
    t ∈ atomTerms true atom ↔ t = fold atom ∨ ∃ part ∈ identifierParts atom, t = fold part := by
  have h := (@foldl_queue _ (fold atom) (identifierParts atom) [] (by simp)).2 t
  simpa [atomTerms, partTerms] using h

-- ---------------------------------------------------------------------------
-- Positions
-- ---------------------------------------------------------------------------

omit [Unicode] in
theorem position_succ (n : Nat) : UInt32.ofNat n + 1 = UInt32.ofNat (n + 1) := by
  rw [UInt32.ofNat_add]
  rfl

/-- The tokens from position `n` on: each atom's terms at its own position. -/
theorem mem_tokensFrom {splitIdentifiers : Bool} {n : Nat} {as : List (Nat × List Char)}
    {tok : Token} :
    tok ∈ tokensFrom splitIdentifiers (UInt32.ofNat n) as ↔
      ∃ k start atom, as[k]? = some (start, atom) ∧
        tok.term ∈ atomTerms splitIdentifiers atom ∧
        tok.position = UInt32.ofNat (n + k) ∧ tok.span = (start, start + utf8Len atom) := by
  induction as generalizing n with
  | nil => simp [tokensFrom]
  | cons a as ih =>
    obtain ⟨start, atom⟩ := a
    rw [tokensFrom, List.mem_append, atomTokens_eq, List.mem_map]
    rw [position_succ, ih]
    constructor
    · rintro (⟨term, hTerm, rfl⟩ | ⟨k, s, a, hGet, hTerm, hPos, hSpan⟩)
      · exact ⟨0, start, atom, rfl, hTerm, rfl, rfl⟩
      · exact ⟨k + 1, s, a, hGet, hTerm, by rw [hPos, Nat.add_assoc, Nat.add_comm 1], hSpan⟩
    · rintro ⟨k, s, a, hGet, hTerm, hPos, hSpan⟩
      cases k with
      | zero =>
        obtain ⟨rfl, rfl⟩ : start = s ∧ atom = a := by simpa using hGet
        refine .inl ⟨tok.term, hTerm, ?_⟩
        cases tok
        simp_all
      | succ k =>
        exact .inr ⟨k, s, a, hGet, hTerm, by rw [hPos, Nat.add_assoc, Nat.add_comm 1], hSpan⟩

/-- The query side hands out one token for each atom. -/
theorem tokensFrom_false (n : Nat) (as : List (Nat × List Char)) :
    tokensFrom false (UInt32.ofNat n) as =
      (as.zipIdx n).map fun a =>
        ⟨fold a.1.2, UInt32.ofNat a.2, (a.1.1, a.1.1 + utf8Len a.1.2)⟩ := by
  induction as generalizing n with
  | nil => rfl
  | cons a as ih =>
    rw [tokensFrom, position_succ, ih]
    rfl

omit [Unicode] in
/-- Positions below `2^32` are told apart. -/
theorem ofNat_position_inj {i j : Nat} (hi : i < 2 ^ 32) (hj : j < 2 ^ 32)
    (h : UInt32.ofNat i = UInt32.ofNat j) : i = j := by
  have hNat := congrArg UInt32.toNat h
  rwa [UInt32.toNat_ofNat_of_lt' hi, UInt32.toNat_ofNat_of_lt' hj] at hNat

omit [Unicode] in
/-- The first token at each position, positions in `seen` left out. -/
def firstAtPositions (seen : List Position) : List Token → List Token
  | [] => []
  | tok :: toks =>
    if tok.position ∈ seen then firstAtPositions seen toks
    else tok :: firstAtPositions (tok.position :: seen) toks

omit [Unicode] in
theorem firstAtPositions_append_seen {seen : List Position} {toks : List Token}
    (h : ∀ tok ∈ toks, tok.position ∈ seen) (toks' : List Token) :
    firstAtPositions seen (toks ++ toks') = firstAtPositions seen toks' := by
  induction toks with
  | nil => rfl
  | cons tok toks ih =>
    rw [List.cons_append, firstAtPositions, if_pos (h tok (List.mem_cons_self ..))]
    exact ih fun t ht => h t (List.mem_cons_of_mem _ ht)

/-- While positions do not wrap, the whole atoms are the first tokens at their positions. -/
theorem firstAtPositions_tokensFrom {seen : List Position} {n : Nat}
    {as : List (Nat × List Char)} (hFit : n + as.length ≤ 2 ^ 32)
    (hSeen : ∀ p ∈ seen, p.toNat < n) :
    firstAtPositions seen (tokensFrom true (UInt32.ofNat n) as) =
      tokensFrom false (UInt32.ofNat n) as := by
  induction as generalizing seen n with
  | nil => rfl
  | cons a as ih =>
    obtain ⟨start, atom⟩ := a
    rw [List.length_cons] at hFit
    have hNat : (UInt32.ofNat n).toNat = n :=
      UInt32.toNat_ofNat_of_lt' (Nat.lt_of_lt_of_le (by omega) hFit)
    have hNew : UInt32.ofNat n ∉ seen := fun h => by
      have := hSeen _ h
      omega
    have hLater : ∀ p ∈ UInt32.ofNat n :: seen, p.toNat < n + 1 := by
      intro p hp
      rcases List.mem_cons.mp hp with rfl | hp
      · omega
      · exact Nat.lt_succ_of_lt (hSeen p hp)
    rw [tokensFrom, tokensFrom, atomTokens_eq, atomTokens_eq, atomTerms, atomTerms,
      List.map_cons, List.cons_append, firstAtPositions, if_neg hNew,
      firstAtPositions_append_seen (by simp), position_succ, ih (by omega) hLater]
    rfl

/-- The terms at a position are those of its atom, once each. -/
theorem terms_at_position {n k : Nat} {as : List (Nat × List Char)} {a : Nat × List Char}
    (hFit : n + as.length ≤ 2 ^ 32) (h : as[k]? = some a) :
    ((tokensFrom true (UInt32.ofNat n) as).filter
      fun tok => tok.position = UInt32.ofNat (n + k)).map Token.term = atomTerms true a.2 := by
  induction as generalizing n k with
  | nil => simp at h
  | cons b as ih =>
    rw [List.length_cons] at hFit
    rw [tokensFrom, atomTokens_eq, List.filter_append, List.map_append, position_succ]
    cases k with
    | zero =>
      obtain rfl : b = a := by simpa using h
      have hLater : (tokensFrom true (UInt32.ofNat (n + 1)) as).filter
          (fun tok => tok.position = UInt32.ofNat (n + 0)) = [] := by
        rw [List.filter_eq_nil_iff]
        intro tok hTok
        obtain ⟨k, s, a, hGet, -, hPos, -⟩ := mem_tokensFrom.mp hTok
        have hk : k < as.length := (List.getElem?_eq_some_iff.mp hGet).1
        simp only [decide_eq_true_eq]
        intro hEq
        have := ofNat_position_inj (by omega) (by omega) (hPos.symm.trans hEq)
        omega
      rw [hLater]
      simp [List.filter_map, Function.comp_def]
    | succ k =>
      have hk : k < as.length := (List.getElem?_eq_some_iff.mp (by simpa using h)).1
      have hNe : UInt32.ofNat n ≠ UInt32.ofNat (n + (k + 1)) := fun hEq => by
        have := ofNat_position_inj (by omega) (by omega) hEq
        omega
      have hAdd : n + (k + 1) = n + 1 + k := by omega
      rw [hAdd] at hNe ⊢
      have hNone : ((atomTerms true b.2).map fun term =>
          (⟨term, UInt32.ofNat n, (b.1, b.1 + utf8Len b.2)⟩ : Token)).filter
            (fun tok => tok.position = UInt32.ofNat (n + 1 + k)) = [] := by
        rw [List.filter_eq_nil_iff]
        intro tok hTok
        obtain ⟨term, -, rfl⟩ := List.mem_map.mp hTok
        rw [decide_eq_true_eq]
        exact hNe
      rw [hNone, ih (by omega) (by simpa using h), List.map_nil, List.nil_append]

-- ---------------------------------------------------------------------------
-- The two modes
-- ---------------------------------------------------------------------------

/-- What the index-side tokens `full` and the query-side tokens `whole` of a text have to do
with each other and with the text. -/
structure TokensAgree (text : String) (full whole : List Token) : Prop where
  /-- The query side is the first token at each position of the index side. -/
  first : whole = firstAtPositions [] full
  /-- Positions are 0, 1, 2, ... without gaps. -/
  positions : (whole.map fun tok => tok.position.toNat) = List.range whole.length
  /-- Spans are disjoint and ascend. -/
  spans_lt : whole.Pairwise fun t u => t.span.2 ≤ u.span.1
  span_pos : ∀ tok ∈ whole, tok.span.1 < tok.span.2
  /-- A span is the place of an atom of the text; the terms at its position are the folded
  atom and its folded parts, and the parts are the atom less its underscores. -/
  atom : ∀ tok ∈ whole, ∃ atom, AtomAt 0 text.toList tok.span.1 atom ∧
    tok.span.2 = tok.span.1 + utf8Len atom ∧ tok.term = fold atom ∧
    (identifierParts atom ≠ [] → (identifierParts atom).flatten = atom.filter (· ≠ '_')) ∧
    ∀ t, (∃ part ∈ full, part.position = tok.position ∧ part.term = t) ↔
      t = fold atom ∨ ∃ part ∈ identifierParts atom, t = fold part
  /-- All tokens at one position share the atom's span, -/
  shared : ∀ tok ∈ full, ∀ whole' ∈ whole, tok.position = whole'.position →
    tok.span = whole'.span
  /-- and no two of them are the same term. -/
  distinct : ∀ p, ((full.filter fun tok => tok.position = p).map Token.term).Nodup

/-- The facts about a position that the two lists share, while positions do not wrap. -/
theorem tokensAgree_of_le {text : String} (hWords : (splitWordBounds text).flatten = text.toList)
    (hFit : (atomRuns text).length ≤ 2 ^ 32) :
    TokensAgree text (tokensFrom true 0 (atomsOfWords 0 (splitWordBounds text)))
      (tokensFrom false 0 (atomsOfWords 0 (splitWordBounds text))) := by
  obtain ⟨hAt, hPair⟩ := atomsOfWords_at 0 (splitWordBounds text)
  rw [hWords] at hAt
  have hLen : (atomsOfWords 0 (splitWordBounds text)).length ≤ 2 ^ 32 := by
    rw [length_atomsOfWords]
    exact hFit
  revert hAt hPair hLen
  generalize atomsOfWords 0 (splitWordBounds text) = as
  intro hAt hPair hLen
  have hFull := @mem_tokensFrom _ true 0 as
  have hWhole := @mem_tokensFrom _ false 0 as
  have hList := tokensFrom_false 0 as
  simp only [Nat.zero_add, show UInt32.ofNat 0 = 0 from rfl] at hFull hWhole hList
  constructor
  case first =>
    exact (firstAtPositions_tokensFrom (n := 0) (by omega) (by simp)).symm
  case positions =>
    rw [hList, List.length_map, List.map_map, List.length_zipIdx]
    apply List.ext_getElem (by simp)
    intro i hi hi'
    have : i < as.length := by simpa using hi'
    simp only [List.getElem_map, List.getElem_zipIdx, Nat.zero_add, List.getElem_range,
      Function.comp_apply]
    exact UInt32.toNat_ofNat_of_lt' (Nat.lt_of_lt_of_le this hLen)
  case spans_lt =>
    rw [hList, List.pairwise_map]
    have hPair' : ((as.zipIdx 0).map Prod.fst).Pairwise Before := by simpa using hPair
    exact List.pairwise_map.mp hPair'
  case span_pos =>
    intro tok hTok
    obtain ⟨k, start, atom, hGet, -, -, hSpan⟩ := hWhole.mp hTok
    have hPos := (hAt _ (List.mem_of_getElem? hGet)).utf8Len_pos
    rw [hSpan]
    dsimp only at hPos ⊢
    omega
  case atom =>
    intro tok hTok
    obtain ⟨k, start, atom, hGet, hTerm, hPos, hSpan⟩ := hWhole.mp hTok
    have hk : k < as.length := (List.getElem?_eq_some_iff.mp hGet).1
    refine ⟨atom, ?_, by rw [hSpan], List.mem_singleton.mp hTerm, flatten_identifierParts,
      fun t => ?_⟩
    · rw [hSpan]
      exact hAt _ (List.mem_of_getElem? hGet)
    · rw [← mem_atomTerms]
      constructor
      · rintro ⟨part, hPart, hSame, rfl⟩
        obtain ⟨j, s, a, hGet', hTerm', hPos', -⟩ := hFull.mp hPart
        have hj : j < as.length := (List.getElem?_eq_some_iff.mp hGet').1
        obtain rfl := ofNat_position_inj (by omega) (by omega)
          (hPos'.symm.trans (hSame.trans hPos))
        rw [hGet] at hGet'
        cases hGet'
        exact hTerm'
      · intro ht
        exact ⟨⟨t, tok.position, (start, start + utf8Len atom)⟩,
          hFull.mpr ⟨k, start, atom, hGet, ht, hPos, rfl⟩, rfl, rfl⟩
  case shared =>
    intro tok hTok tok' hTok' hSame
    obtain ⟨j, s, a, hGet, -, hPos, hSpan⟩ := hFull.mp hTok
    obtain ⟨k, s', a', hGet', -, hPos', hSpan'⟩ := hWhole.mp hTok'
    have hj : j < as.length := (List.getElem?_eq_some_iff.mp hGet).1
    have hk : k < as.length := (List.getElem?_eq_some_iff.mp hGet').1
    obtain rfl := ofNat_position_inj (by omega) (by omega)
      (hPos.symm.trans (hSame.trans hPos'))
    rw [hGet] at hGet'
    cases hGet'
    rw [hSpan, hSpan']
  case distinct =>
    intro p
    by_cases hp : p.toNat < as.length
    · have hTerms := terms_at_position (n := 0) (k := p.toNat) (by omega)
        (List.getElem?_eq_getElem hp)
      have hEq : UInt32.ofNat (0 + p.toNat) = p := by simp
      rw [hEq] at hTerms
      exact hTerms ▸ nodup_atomTerms _ _
    · have hNone : (tokensFrom true 0 as).filter (fun tok => tok.position = p) = [] := by
        rw [List.filter_eq_nil_iff]
        intro tok hTok
        obtain ⟨j, s, a, hGet, -, hPos, -⟩ := hFull.mp hTok
        have hj : j < as.length := (List.getElem?_eq_some_iff.mp hGet).1
        rw [decide_eq_true_eq]
        rintro rfl
        rw [hPos, UInt32.toNat_ofNat_of_lt' (Nat.lt_of_lt_of_le hj hLen)] at hp
        exact hp hj
      rw [hNone]
      exact List.nodup_nil

/-- Query side and index side agree on a text exactly when its atoms have a position each:
the position counter is 32 bits wide. -/
theorem tokens_agree_iff (text : String)
    (hWords : (splitWordBounds text).flatten = text.toList) :
    TokensAgree text (Tokens.new text true).toList (Tokens.new text false).toList ↔
      (atomRuns text).length ≤ 2 ^ 32 := by
  rw [Tokens.toList_new, Tokens.toList_new]
  refine ⟨fun h => ?_, tokensAgree_of_le hWords⟩
  have hPos := h.positions
  have hList := tokensFrom_false 0 (atomsOfWords 0 (splitWordBounds text))
  simp only [show UInt32.ofNat 0 = 0 from rfl] at hList
  have hLen : (tokensFrom false 0 (atomsOfWords 0 (splitWordBounds text))).length =
      (atomRuns text).length := by
    rw [hList, List.length_map, List.length_zipIdx, length_atomsOfWords]
  rw [hLen] at hPos
  by_contra hGt
  have hGet : ((tokensFrom false 0 (atomsOfWords 0 (splitWordBounds text))).map
      fun tok => tok.position.toNat)[2 ^ 32]? = some (2 ^ 32) := by
    rw [hPos, List.getElem?_range (by omega)]
  obtain ⟨tok, -, hEq⟩ := List.mem_map.mp (List.mem_of_getElem? hGet)
  have := tok.position.toNat_lt
  omega

/-- The tables for ASCII texts in which spaces separate the words. -/
@[reducible] def Unicode.words : Unicode where
  splitWordBounds := fun s => s.toList.splitBy fun c d => (c == ' ') == (d == ' ')
  isAlphanumeric := Char.isAlphanum
  isUppercase := Char.isUpper
  isNumeric := Char.isDigit
  isAlphabetic := Char.isAlpha
  toLowercase := String.toLower

omit [Unicode] in
/-- A text of two atoms, the first of which has three parts. -/
theorem tokens_agree_parts :
    letI := Unicode.words
    ((Tokens.new "get_userName b" true).toList.map fun tok => (tok.term, tok.position)) =
      [("get_username", 0), ("get", 0), ("user", 0), ("name", 0), ("b", 1)] ∧
    TokensAgree "get_userName b" (Tokens.new "get_userName b" true).toList
      (Tokens.new "get_userName b" false).toList :=
  letI := Unicode.words
  ⟨by decide +kernel, (tokens_agree_iff "get_userName b" (by decide +kernel)).mpr
    (by decide +kernel)⟩

/-- The tables for ASCII texts in which every character is a word of its own, such as single
letters between spaces. -/
@[reducible] def Unicode.letters : Unicode where
  splitWordBounds := fun s => s.toList.map fun c => [c]
  isAlphanumeric := Char.isAlphanum
  isUppercase := Char.isUpper
  isNumeric := Char.isDigit
  isAlphabetic := Char.isAlpha
  toLowercase := String.toLower

omit [Unicode] in
/-- The letter `a`, `n` times, each followed by a space. -/
def spaced (n : Nat) : String := String.ofList (List.replicate n ['a', ' ']).flatten

omit [Unicode] in
theorem atomRuns_spaced (n : Nat) :
    letI := Unicode.letters
    (atomRuns (spaced n)).length = n := by
  let _ := Unicode.letters
  have hRuns : ∀ n, (((List.replicate n ['a', ' ']).flatten.map fun c => [c]).flatMap
      wordRuns).length = n := by
    intro n
    induction n with
    | zero => rfl
    | succ n ih =>
      have hTwo : ((['a', ' '].map fun c => [c]).flatMap wordRuns).length = 1 := by decide
      rw [List.replicate_succ, List.flatten_cons, List.map_append, List.flatMap_append,
        List.length_append, ih, hTwo, Nat.add_comm]
  have hText : splitWordBounds (spaced n) =
      (List.replicate n ['a', ' ']).flatten.map fun c => [c] := by
    change (spaced n).toList.map _ = _
    rw [spaced, String.toList_ofList]
  rw [atomRuns, hText]
  exact hRuns n

omit [Unicode] in
/-- A text of `2^32 + 1` atoms: the last of them is handed out at position 0 again. -/
theorem not_tokens_agree_spaced :
    letI := Unicode.letters
    ¬TokensAgree (spaced (2 ^ 32 + 1)) (Tokens.new (spaced (2 ^ 32 + 1)) true).toList
      (Tokens.new (spaced (2 ^ 32 + 1)) false).toList := by
  let _ := Unicode.letters
  intro h
  have hFlat : ∀ cs : List Char, (cs.map fun c => [c]).flatten = cs := by
    intro cs
    induction cs with
    | nil => rfl
    | cons c cs ih => rw [List.map_cons, List.flatten_cons, ih, List.singleton_append]
  have hLe := (tokens_agree_iff (spaced (2 ^ 32 + 1)) (hFlat _)).mp h
  rw [atomRuns_spaced] at hLe
  omega

end Ripindex
