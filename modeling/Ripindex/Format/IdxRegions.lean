import Ripindex.Format.Bytes
import Ripindex.Format.Idx

/-!
# The regions of a term dictionary

What the loop of `write` leaves in its buffers, entry by entry: the dictionary is a
concatenation of blocks, each front-coded from an empty term, and the sparse index says where
each of them starts.

## Results

* `Idx.Regions.holds_regionsOf` — the invariant of the loop;
* `Idx.dictFrom_eq_chain` — a block does not depend on what stands before it.
-/

namespace Ripindex

open Format

namespace Idx

/-- What a dictionary entry is written from. -/
structure Raw where
  term : List UInt8
  docFreq : UInt32
  data : List UInt8

def rawOf (e : String × DiskPostingList) : Raw :=
  ⟨e.1.toUTF8.toList, MemPostingList.docFreq e.2.postings, postingsBytes e.2⟩

/-- An entry behind the term `prev`. -/
def entryBytes (prev : List UInt8) (e : Raw) : List UInt8 :=
  let shared := commonPrefix prev e.term
  putVarint shared ++ (putVarint (e.term.length - shared) ++ (e.term.drop shared ++
    (putU32 e.docFreq ++ putVarint e.data.length)))

/-- The dictionary from entry `k` on. -/
def dictFrom : Nat → List UInt8 → List Raw → List UInt8
  | _, _, [] => []
  | k, prev, e :: es =>
    entryBytes (if k % blockSize = 0 then [] else prev) e ++ dictFrom (k + 1) e.term es

/-- Entries of one block behind the term `prev`. -/
def chain : List UInt8 → List Raw → List UInt8
  | _, [] => []
  | prev, e :: es => entryBytes prev e ++ chain e.term es

/-- The term behind which the next entry stands. -/
def lastTerm (prev : List UInt8) (es : List Raw) : List UInt8 :=
  (es.getLast?.map Raw.term).getD prev

/-- Where the dictionary of the `i`-th entry starts. -/
def dictOffset (raws : List Raw) (i : Nat) : Nat := (dictFrom 0 [] (raws.take i)).length

/-- Where its postings start. -/
def postingsOffset (raws : List Raw) (i : Nat) : Nat := ((raws.take i).flatMap Raw.data).length

/-- An entry of the sparse index. -/
def sparseBytes (e : Raw) (dictOff postingsOff : Nat) : List UInt8 :=
  putVarint e.term.length ++ (e.term ++ (putVarint dictOff ++ putVarint postingsOff))

theorem commonPrefix_le (a b : List UInt8) :
    commonPrefix a b ≤ a.length ∧ commonPrefix a b ≤ b.length := by
  induction a generalizing b with
  | nil => exact ⟨Nat.zero_le _, Nat.zero_le _⟩
  | cons x a ih =>
    cases b with
    | nil => exact ⟨Nat.zero_le _, Nat.zero_le _⟩
    | cons y b =>
      rw [commonPrefix]
      split_ifs
      · have := ih b
        rw [List.length_cons, List.length_cons]
        omega
      · exact ⟨Nat.zero_le _, Nat.zero_le _⟩

/-- The shared prefix and the suffix make the term. -/
theorem take_commonPrefix (a b : List UInt8) :
    a.take (commonPrefix a b) ++ b.drop (commonPrefix a b) = b := by
  induction a generalizing b with
  | nil => rfl
  | cons x a ih =>
    cases b with
    | nil => rfl
    | cons y b =>
      rw [commonPrefix]
      split_ifs with hxy
      · rw [hxy, List.take_succ_cons, List.drop_succ_cons, List.cons_append, ih]
      · rfl

theorem lastTerm_cons (prev : List UInt8) (e : Raw) (es : List Raw) :
    lastTerm prev (e :: es) = lastTerm e.term es := by
  cases es with
  | nil => rfl
  | cons f es =>
    unfold lastTerm
    rw [List.getLast?_cons_cons]
    obtain ⟨x, hx⟩ : ∃ x, (f :: es).getLast? = some x :=
      ⟨_, List.getLast?_eq_some_getLast (List.cons_ne_nil f es)⟩
    rw [hx]
    rfl

theorem dictFrom_append (k : Nat) (prev : List UInt8) (es fs : List Raw) :
    dictFrom k prev (es ++ fs) =
      dictFrom k prev es ++ dictFrom (k + es.length) (lastTerm prev es) fs := by
  induction es generalizing k prev with
  | nil => rfl
  | cons e es ih =>
    rw [List.cons_append, dictFrom, dictFrom, ih, lastTerm_cons, List.length_cons,
      List.append_assoc, Nat.add_assoc, Nat.add_comm 1]

/-- Inside a block the entries form a chain. -/
theorem dictFrom_eq_chain {k : Nat} {prev : List UInt8} {es : List Raw}
    (h : k % blockSize + es.length ≤ blockSize) :
    dictFrom k prev es = chain (if k % blockSize = 0 then [] else prev) es := by
  induction es generalizing k prev with
  | nil => rfl
  | cons e es ih =>
    rw [dictFrom, chain]
    congr 1
    cases es with
    | nil => rfl
    | cons f es =>
      rw [List.length_cons, List.length_cons] at h
      have hMod : (k + 1) % blockSize = k % blockSize + 1 := by
        unfold blockSize at h ⊢
        omega
      rw [ih (by rw [hMod, List.length_cons]; omega), hMod, if_neg (Nat.succ_ne_zero _)]

/-- What the loop of `write` has written of the entries. -/
structure Regions.Holds (r : Regions) (raws : List Raw) : Prop where
  numTerms : r.numTerms = raws.length
  prevTerm : r.prevTerm = lastTerm [] raws
  postings : r.postings = raws.flatMap Raw.data
  dict : r.dict = dictFrom 0 [] raws
  length_offsets : r.sparseOffsets.length = (raws.length + blockSize - 1) / blockSize
  offsets_le : r.sparseOffsets.length ≤ r.sparseEntries.length
  sparse : ∀ b, b * blockSize < raws.length → ∃ off e,
    r.sparseOffsets[b]? = some off ∧ raws[b * blockSize]? = some e ∧
      off < r.sparseEntries.length ∧
      At r.sparseEntries off (sparseBytes e (dictOffset raws (b * blockSize))
        (postingsOffset raws (b * blockSize)))

theorem putVarint_ne_nil (x : Nat) : putVarint x ≠ [] := by
  unfold putVarint
  rw [putVarintFuel]
  split_ifs <;> exact List.cons_ne_nil _ _

/-- One turn of the loop. -/
theorem Regions.Holds.add {r : Regions} {raws : List Raw} (h : r.Holds raws)
    (e : String × DiskPostingList) : (r.add e).Holds (raws ++ [rawOf e]) := by
  have hLen : (raws ++ [rawOf e]).length = raws.length + 1 := by
    rw [List.length_append, List.length_singleton]
  have hFirst : r.numTerms % blockSize = raws.length % blockSize := by rw [h.numTerms]
  -- Offsets of earlier entries stay.
  have hDictOff : ∀ i, i ≤ raws.length →
      dictOffset (raws ++ [rawOf e]) i = dictOffset raws i := by
    intro i hi
    rw [dictOffset, dictOffset, List.take_append_of_le_length hi]
  have hPostOff : ∀ i, i ≤ raws.length →
      postingsOffset (raws ++ [rawOf e]) i = postingsOffset raws i := by
    intro i hi
    rw [postingsOffset, postingsOffset, List.take_append_of_le_length hi]
  refine ⟨?_, ?_, ?_, ?_, ?_, ?_, ?_⟩
  · show r.numTerms + 1 = _
    rw [hLen, h.numTerms]
  · show (rawOf e).term = _
    rw [lastTerm, List.getLast?_append, List.getLast?_singleton]
    rfl
  · show r.postings ++ (rawOf e).data = _
    rw [h.postings, List.flatMap_append, List.flatMap_singleton]
  · show r.dict ++ putVarint _ ++ putVarint _ ++ List.drop _ _ ++ putU32 _ ++ putVarint _ = _
    rw [dictFrom_append, ← h.dict, dictFrom, dictFrom, List.append_nil, Nat.zero_add,
      ← h.prevTerm, ← h.numTerms, entryBytes]
    simp only [List.append_assoc]
    rfl
  · show (if r.numTerms % blockSize = 0 then _ else _ : List Nat).length = _
    rw [hFirst, hLen]
    have hOld := h.length_offsets
    unfold blockSize at hOld ⊢
    split_ifs with hZero
    · rw [List.length_append, List.length_singleton, hOld]
      omega
    · rw [hOld]
      omega
  · show (if r.numTerms % blockSize = 0 then _ else _ : List Nat).length ≤
      (if r.numTerms % blockSize = 0 then _ else _ : List UInt8).length
    have hOld := h.offsets_le
    split_ifs
    · have hPos := List.length_pos_iff.mpr (putVarint_ne_nil (rawOf e).term.length)
      simp only [List.length_append, List.length_singleton]
      replace hPos : 0 < (putVarint e.1.toUTF8.toList.length).length := hPos
      omega
    · exact hOld
  · intro b hb
    rw [hLen] at hb
    show ∃ off f, (if r.numTerms % blockSize = 0 then _ else _ : List Nat)[b]? = some off ∧
      _ ∧ off < (if r.numTerms % blockSize = 0 then _ else _ : List UInt8).length ∧
        At (if r.numTerms % blockSize = 0 then _ else _) off _
    by_cases hOld : b * blockSize < raws.length
    · -- An entry of an earlier block.
      obtain ⟨off, f, hOff, hf, hLt, hAt⟩ := h.sparse b hOld
      refine ⟨off, f, ?_, ?_, ?_, ?_⟩
      · split_ifs
        · rw [List.getElem?_append_left (List.getElem?_eq_some_iff.mp hOff).1, hOff]
        · exact hOff
      · rw [List.getElem?_append_left hOld, hf]
      · split_ifs
        · simp only [List.length_append]
          omega
        · exact hLt
      · rw [hDictOff _ (Nat.le_of_lt hOld), hPostOff _ (Nat.le_of_lt hOld)]
        split_ifs
        · simp only [List.append_assoc]
          exact hAt.append (Nat.le_of_lt hLt)
        · exact hAt
    · -- The entry that is added starts a block.
      have hEq : b * blockSize = raws.length := by omega
      have hZero : r.numTerms % blockSize = 0 := by
        rw [hFirst, ← hEq, Nat.mul_mod_left]
      have hIdx : r.sparseOffsets.length = b := by
        have hLenOff := h.length_offsets
        unfold blockSize at hLenOff hEq
        omega
      rw [if_pos hZero, if_pos hZero]
      refine ⟨r.sparseEntries.length, rawOf e, ?_, ?_, ?_, ?_⟩
      · rw [← hIdx, List.getElem?_append_right (Nat.le_refl _), Nat.sub_self]
        rfl
      · rw [hEq, List.getElem?_append_right (Nat.le_refl _), Nat.sub_self]
        rfl
      · have hPos := List.length_pos_iff.mpr (putVarint_ne_nil (rawOf e).term.length)
        replace hPos : 0 < (putVarint e.1.toUTF8.toList.length).length := hPos
        simp only [List.length_append]
        omega
      · rw [hDictOff _ (Nat.le_of_eq hEq), hPostOff _ (Nat.le_of_eq hEq), hEq, dictOffset,
          postingsOffset, List.take_length, ← h.dict, ← h.postings]
        simp only [List.append_assoc]
        refine ⟨[], ?_⟩
        rw [List.drop_left, List.append_nil]
        rfl

def regionsOf (entries : List (String × DiskPostingList)) : Regions :=
  entries.foldl Regions.add ⟨0, [], [], [], [], []⟩

theorem regions_eq (f : IdxFile) : regions f = regionsOf f.terms := rfl

/-- What the loop leaves. -/
theorem Regions.holds_regionsOf (entries : List (String × DiskPostingList)) :
    (regionsOf entries).Holds (entries.map rawOf) := by
  have hFold : ∀ (entries : List (String × DiskPostingList)) (r : Regions) (raws : List Raw),
      r.Holds raws → (entries.foldl Regions.add r).Holds (raws ++ entries.map rawOf) := by
    intro entries
    induction entries with
    | nil =>
      intro r raws h
      rwa [List.map_nil, List.append_nil]
    | cons e entries ih =>
      intro r raws h
      have hNext := ih (r.add e) _ (h.add e)
      rwa [List.append_assoc] at hNext
  refine hFold entries ⟨0, [], [], [], [], []⟩ [] ?_
  exact ⟨rfl, rfl, rfl, rfl, by decide, Nat.le_refl _, fun b hb => absurd hb (Nat.not_lt_zero _)⟩

-- ---------------------------------------------------------------------------
-- The file
-- ---------------------------------------------------------------------------

/-- The sparse index: a table of offsets, and the entries. -/
def Regions.sparse (r : Regions) : List UInt8 :=
  r.sparseOffsets.flatMap (leBytes 4) ++ r.sparseEntries

/-- The table of contents. -/
def Regions.toc (r : Regions) : List UInt8 :=
  let dictOff := headerLen + r.postings.length
  [headerLen, r.postings.length, dictOff, r.dict.length, dictOff + r.dict.length,
    r.sparse.length, r.numTerms].flatMap (leBytes 8) ++
      (leBytes 4 r.sparseOffsets.length ++ leBytes 4 blockSize)

def Regions.body (r : Regions) : List UInt8 := r.postings ++ (r.dict ++ (r.sparse ++ r.toc))

/-- The body of a dictionary file is that of its regions. -/
theorem body_eq (f : IdxFile) : Idx.body f = (regionsOf f.terms).body := by
  unfold Idx.body Regions.body Regions.toc Regions.sparse
  rw [regions_eq]
  simp only [List.append_assoc]

/-- `IdxSummary`. -/
structure Summary where
  len : Nat
  crc : UInt32
  numTerms : Nat
  numPostings : Nat
  numTokens : Nat

/-- `write`, down to the bytes of the file. -/
def writeFile [Platform] (terms : List (String × MemPostingList)) :
    Except FormatError (List UInt8 × Summary) := do
  let (entries, counts) ← writeTerms terms
  let body := (regionsOf entries).body
  let file := sealBody .idx formatVersion body
  pure (file, ⟨file.length, Platform.crc32 body, counts.numTerms, counts.numPostings,
    counts.numTokens⟩)

theorem length_toc (r : Regions) : r.toc.length = 64 := by
  simp only [Regions.toc, List.flatMap_cons, List.flatMap_nil, List.length_append,
    length_leBytes, List.length_nil]

theorem flatMap_leBytes_at {offs : List Nat} {b off : Nat} (h : offs[b]? = some off) :
    At (offs.flatMap (leBytes 4)) (4 * b) (leBytes 4 off) := by
  induction offs generalizing b with
  | nil => cases h
  | cons x offs ih =>
    rw [List.flatMap_cons]
    cases b with
    | zero =>
      obtain rfl : x = off := Option.some.inj h
      exact ⟨offs.flatMap (leBytes 4), rfl⟩
    | succ b =>
      obtain ⟨rest, hRest⟩ := ih h
      refine ⟨rest, ?_⟩
      have hFour : (leBytes 4 x).length = 4 := length_leBytes 4 x
      rw [Nat.mul_succ, Nat.add_comm, ← List.drop_drop, List.drop_left' hFour, hRest]

theorem length_flatMap_leBytes (offs : List Nat) :
    (offs.flatMap (leBytes 4)).length = 4 * offs.length := by
  induction offs with
  | nil => rfl
  | cons x offs ih =>
    rw [List.flatMap_cons, List.length_append, length_leBytes, ih, List.length_cons]
    omega

/-- Every entry takes bytes of the dictionary. -/
theorem length_le_dictFrom (k : Nat) (prev : List UInt8) (raws : List Raw) :
    raws.length ≤ (dictFrom k prev raws).length := by
  induction raws generalizing k prev with
  | nil => exact Nat.zero_le _
  | cons e es ih =>
    rw [dictFrom, entryBytes]
    generalize commonPrefix _ e.term = c
    have hPos := List.length_pos_iff.mpr (putVarint_ne_nil c)
    have hRest := ih (k + 1) e.term
    simp only [List.length_append, List.length_cons]
    omega

end Idx

end Ripindex
