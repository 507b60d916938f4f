import Ripindex.Tokenizer

/-!
# The token iterator

`Tokens` of `tokenizer.rs`, turn by turn: `next_atom` cuts the words left and `next` hands out
one token a call. What is still to come is always a list (`Tokens.left`), so collecting the
iterator gives the lists `tokenize` and `atoms`.

## Results

* `Tokens.nextAtom_spec` — `next_atom` takes the first of the atoms left.
* `Tokens.next_left`     — one call of `next` takes the head of what is left.
* `Tokens.toList_new`    — the collected iterator is the list of tokens.
-/

namespace Ripindex

open Unicode

-- ---------------------------------------------------------------------------
-- The iterator
-- ---------------------------------------------------------------------------

/-- `split_word_bound_indices`: the words with their byte offsets, from `base` on. -/
def wordBoundIndices (base : Nat) : List (List Char) → List (Nat × List Char)
  | [] => []
  | w :: ws => (base, w) :: wordBoundIndices (base + utf8Len w) ws

/-- Iterator returned by `tokenize` and `atoms`. -/
structure Tokens where
  words : List (Nat × List Char)
  /-- Unconsumed remainder of the current word: byte offset and text. -/
  word : Option (Nat × List Char)
  /-- Identifier parts of the current atom still to emit. -/
  pending : List Token
  nextPosition : Position
  splitIdentifiers : Bool

namespace Tokens

variable [Unicode]

def new (text : String) (splitIdentifiers : Bool) : Tokens where
  words := wordBoundIndices 0 (splitWordBounds text)
  word := none
  pending := []
  nextPosition := 0
  splitIdentifiers := splitIdentifiers

omit [Unicode] in
/-- What the loop of `next_atom` has left to cut: it shrinks with every turn. -/
def size (it : Tokens) : Nat :=
  (it.words.map fun w => 2 * w.2.length + 2).sum +
    match it.word with
    | some (_, rest) => 2 * rest.length + 1
    | none => 0

/-- What is kept of a word whose remainder starts at byte `base`: nothing when it is empty. -/
def resume (base : Nat) (remainder : List Char) : Option (Nat × List Char) :=
  if remainder = [] then none else some (base, remainder)

/-- Next atom with its byte offset, and the iterator after it. -/
def nextAtom (it : Tokens) : Option (Nat × List Char) × Tokens :=
  match _hWord : it.word with
  | some (base, rest) =>
    -- skip leading cut characters
    let start := utf8Len (rest.takeWhile isCut)
    match _hRun : rest.dropWhile isCut with
    | [] => nextAtom { it with word := none }
    | c :: cs =>
      let atom := (c :: cs).takeWhile fun x => !isCut x
      let remainder := (c :: cs).dropWhile fun x => !isCut x
      let it' : Tokens := { it with word := resume (base + start + utf8Len atom) remainder }
      if atom.any isAlphanumeric then (some (base + start, atom), it') else nextAtom it'
  | none =>
    match _hWords : it.words with
    | [] => (none, it)
    | w :: ws => nextAtom { it with words := ws, word := some w }
termination_by it.size
decreasing_by
  · simp only [size, _hWord]
    omega
  · have hLt := length_dropWhile_atom_lt _hRun
    simp only [size, _hWord, resume]
    split <;> rename_i hNext
    · split at hNext
      · cases hNext
      · cases hNext
        omega
    · omega
  · simp only [size, _hWord, _hWords, List.map_cons, List.sum_cons]
    omega

/-- Queue a part's term, unless it is the whole atom's or already there. -/
def pushPart (whole : String) (position : Position) (span : Nat × Nat) (it : Tokens)
    (part : List Char) : Tokens :=
  let term := fold part
  if term ≠ whole ∧ !(it.pending.any fun t => t.term = term) then
    { it with pending := it.pending ++ [⟨term, position, span⟩] }
  else it

/-- `Iterator::next`. -/
def next (it : Tokens) : Option Token × Tokens :=
  match it.pending with
  | t :: pending => (some t, { it with pending := pending })
  | [] =>
    match it.nextAtom with
    | (none, it) => (none, it)
    | (some (start, atom), it) =>
      let position := it.nextPosition
      let it := { it with nextPosition := position + 1 }
      let span := (start, start + utf8Len atom)
      let whole := fold atom
      let it :=
        if it.splitIdentifiers then
          (identifierParts atom).foldl (pushPart whole position span) it
        else it
      (some ⟨whole, position, span⟩, it)

-- ---------------------------------------------------------------------------
-- What is left of the iterator
-- ---------------------------------------------------------------------------

/-- The atoms of the words still to cut. -/
def atomsLeft (it : Tokens) : List (Nat × List Char) :=
  (match it.word with
    | some (base, rest) => atomsOfWord base rest
    | none => []) ++ it.words.flatMap fun w => atomsOfWord w.1 w.2

/-- The tokens still to come. -/
def left (it : Tokens) : List Token :=
  it.pending ++ tokensFrom it.splitIdentifiers it.nextPosition it.atomsLeft

theorem atomsOfWord_of_run_nil {base : Nat} {rest : List Char}
    (hRun : rest.dropWhile isCut = []) : atomsOfWord base rest = [] := by
  rw [atomsOfWord]
  split
  · rfl
  · rename_i c cs h
    rw [hRun] at h
    cases h

theorem atomsOfWord_of_run_cons {base : Nat} {rest cs : List Char} {c : Char}
    (hRun : rest.dropWhile isCut = c :: cs) :
    atomsOfWord base rest =
      (if ((c :: cs).takeWhile fun x => !isCut x).any isAlphanumeric then
        [(base + utf8Len (rest.takeWhile isCut), (c :: cs).takeWhile fun x => !isCut x)]
      else []) ++
        atomsOfWord (base + utf8Len (rest.takeWhile isCut) +
            utf8Len ((c :: cs).takeWhile fun x => !isCut x))
          ((c :: cs).dropWhile fun x => !isCut x) := by
  rw [atomsOfWord]
  split
  · rename_i h
    rw [hRun] at h
    cases h
  · rename_i c' cs' h
    rw [hRun] at h
    cases h
    dsimp only
    split
    · rfl
    · rw [List.nil_append]

theorem atomsLeft_resume (it : Tokens) (base : Nat) (remainder : List Char) :
    atomsLeft { it with word := resume base remainder } =
      atomsOfWord base remainder ++ it.words.flatMap fun w => atomsOfWord w.1 w.2 := by
  by_cases hRem : remainder = []
  · have hNil : atomsOfWord base [] = [] := atomsOfWord_of_run_nil rfl
    simp [atomsLeft, resume, hRem, hNil]
  · simp [atomsLeft, resume, hRem]

/-- `next_atom` takes the first of the atoms left, and touches nothing else. -/
theorem nextAtom_spec (it : Tokens) :
    it.nextAtom.1 = it.atomsLeft.head? ∧ it.nextAtom.2.atomsLeft = it.atomsLeft.tail ∧
      it.nextAtom.2.pending = it.pending ∧ it.nextAtom.2.nextPosition = it.nextPosition ∧
      it.nextAtom.2.splitIdentifiers = it.splitIdentifiers := by
  fun_induction nextAtom it with
  | case1 it base rest hWord hRun ih =>
    simpa [atomsLeft, hWord, atomsOfWord_of_run_nil hRun] using ih
  | case2 it base rest hWord start c cs hRun atom remainder it' hAny =>
    have hLeft : it.atomsLeft = (base + start, atom) :: it'.atomsLeft := by
      rw [atomsLeft_resume]
      simp only [atomsLeft, hWord, atomsOfWord_of_run_cons hRun]
      rw [if_pos hAny]
      rfl
    simp [hLeft, it']
  | case3 it base rest hWord start c cs hRun atom remainder it' hAny ih =>
    have hLeft : it.atomsLeft = it'.atomsLeft := by
      rw [atomsLeft_resume]
      simp only [atomsLeft, hWord, atomsOfWord_of_run_cons hRun]
      rw [if_neg hAny]
      rfl
    rw [hLeft]
    exact ih
  | case4 it hWord hWords =>
    simp [atomsLeft, hWord, hWords]
  | case5 it hWord w ws hWords ih =>
    simpa [atomsLeft, hWord, hWords] using ih

/-- The parts of an atom as `next` queues them on an empty queue. -/
theorem foldl_pushPart (whole : String) (position : Position) (span : Nat × Nat)
    (parts : List (List Char)) (it : Tokens) (terms : List String)
    (h : it.pending = terms.map fun term => ⟨term, position, span⟩) :
    parts.foldl (pushPart whole position span) it =
      { it with
        pending := (parts.foldl (fun pending part =>
          let term := fold part
          if term ≠ whole ∧ term ∉ pending then pending ++ [term] else pending)
            terms).map fun term => ⟨term, position, span⟩ } := by
  induction parts generalizing it terms with
  | nil => simp [← h]
  | cons part parts ih =>
    have hAny : (it.pending.any fun t => t.term = fold part) = decide (fold part ∈ terms) := by
      rw [h, List.any_map, Bool.eq_iff_iff]
      simp
    simp only [List.foldl_cons]
    by_cases hNew : fold part ≠ whole ∧ fold part ∉ terms
    · have hPush : pushPart whole position span it part =
          { it with pending := it.pending ++ [⟨fold part, position, span⟩] } := by
        simp only [pushPart, hAny]
        rw [if_pos (by simpa using hNew)]
      rw [if_pos hNew, hPush, ih _ (terms ++ [fold part]) (by simp [h])]
    · have hSame : pushPart whole position span it part = it := by
        simp only [pushPart, hAny]
        rw [if_neg (by simpa using hNew)]
      rw [if_neg hNew, hSame, ih _ terms h]

/-- One call of `next` hands out the first token left. -/
theorem next_left (it : Tokens) :
    it.next.1 = it.left.head? ∧ it.next.2.left = it.left.tail := by
  unfold next
  cases hPending : it.pending with
  | cons t pending => simp [left, hPending, atomsLeft]
  | nil =>
    obtain ⟨hHead, hTail, hQueue, hPos, hSplit⟩ := nextAtom_spec it
    rcases hNext : it.nextAtom with ⟨_ | ⟨start, atom⟩, it'⟩
    · simp only [hNext] at hHead hTail hQueue
      have hNil : it.atomsLeft = [] := by simpa using hHead.symm
      simp [left, hPending, hQueue, hTail, hNil, tokensFrom]
    · simp only [hNext] at hHead hTail hQueue hPos hSplit
      have hCons : it.atomsLeft = (start, atom) :: it'.atomsLeft := by
        obtain ⟨later, hEq⟩ := List.head?_eq_some_iff.mp hHead.symm
        rw [hTail, hEq, List.tail_cons]
      rw [hPending] at hQueue
      simp only [left, hPending, hCons, tokensFrom, List.nil_append, atomTokens, hSplit, hPos,
        List.cons_append, List.head?_cons, List.tail_cons, true_and]
      cases it.splitIdentifiers with
      | false => simp [hQueue, atomsLeft]
      | true =>
        rw [if_pos rfl, foldl_pushPart _ _ _ _ _ [] (by simp [hQueue])]
        simp [atomsLeft]

theorem left_of_next {it it' : Tokens} {t : Token} (h : it.next = (some t, it')) :
    it.left = t :: it'.left := by
  obtain ⟨hHead, hTail⟩ := next_left it
  rw [h] at hHead hTail
  obtain ⟨later, hEq⟩ := List.head?_eq_some_iff.mp hHead.symm
  rw [hTail, hEq, List.tail_cons]

/-- What a `for` loop over the iterator sees. -/
def toList (it : Tokens) : List Token :=
  match _hNext : it.next with
  | (none, _) => []
  | (some t, it') => t :: it'.toList
termination_by it.left.length
decreasing_by
  rw [left_of_next _hNext, List.length_cons]
  exact Nat.lt_succ_self _

theorem toList_eq (it : Tokens) : it.toList = it.left := by
  fun_induction toList it with
  | case1 it it' hNext =>
    have hHead := (next_left it).1
    rw [hNext] at hHead
    simpa using hHead.symm
  | case2 it t it' hNext ih =>
    rw [left_of_next hNext, ih]

theorem flatMap_wordBoundIndices (base : Nat) (ws : List (List Char)) :
    ((wordBoundIndices base ws).flatMap fun w => atomsOfWord w.1 w.2) =
      atomsOfWords base ws := by
  induction ws generalizing base with
  | nil => rfl
  | cons w ws ih => simp [wordBoundIndices, atomsOfWords, ih]

/-- The collected iterator is the list of tokens of the text. -/
theorem toList_new (text : String) (splitIdentifiers : Bool) :
    (new text splitIdentifiers).toList =
      tokensFrom splitIdentifiers 0 (atomsOfWords 0 (splitWordBounds text)) := by
  simp [toList_eq, left, new, atomsLeft, flatMap_wordBoundIndices]

end Tokens

end Ripindex
