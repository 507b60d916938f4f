import Ripindex.Format.IdxRoundTrip

/-!
# The dictionary file is faithful

What `write` stores of a list of terms, and what a reader finds of it.

## Results

* `Idx.writeTerms_stored` — the terms that are stored, with their counts;
* `faithful_iff` — the file is read as what was written exactly when the lengths of the
  stored lists fit in `u32`.
-/

namespace Ripindex

open Format

namespace Idx

/-- The terms that are not overlong. -/
def stored (terms : List (String × MemPostingList)) : List (String × MemPostingList) :=
  terms.filter fun e => e.1.utf8ByteSize ≤ maxTermBytes

/-- The number of positions of a list. -/
def tokens (list : MemPostingList) : Nat := (list.map fun p => p.positions.length).sum

theorem checkPostings_tokens {prev : Option DocId} {ps : List Posting} {n : Nat}
    (h : checkPostings prev ps = .ok n) : n = tokens ps := by
  induction ps generalizing prev n with
  | nil => exact (Except.ok.inj h).symm
  | cons p ps ih =>
    simp only [checkPostings] at h
    split_ifs at h
    rcases hPos : checkPositions none p.positions with _ | _
    · simp [hPos, bind, Except.bind] at h
    rcases hTok : checkPostings (some p.doc) ps with _ | m
    · simp [hPos, hTok, bind, Except.bind] at h
    simp only [hPos, hTok, bind, Except.bind, pure, Except.pure, Except.ok.injEq] at h
    rw [← h, ih hTok, tokens, tokens, List.map_cons, List.sum_cons]

theorem encodePostings_tokens {ps : MemPostingList} {list : DiskPostingList} {n : Nat}
    (h : encodePostings ps = .ok (list, n)) : n = tokens ps := by
  unfold encodePostings at h
  split at h
  · cases h
  · rename_i m hCheck
    simp only [Except.ok.injEq, Prod.mk.injEq] at h
    rw [← h.2]
    exact checkPostings_tokens hCheck

/-- What the loop of `write` keeps and counts of lists that are all accepted. -/
theorem writeTerms_stored {terms : List (String × MemPostingList)}
    (hEnc : ∀ e ∈ terms, ∃ x, encodePostings e.2 = .ok x) :
    ∃ entries, writeTerms terms = .ok (entries, ⟨(stored terms).length,
        ((stored terms).map fun e => (MemPostingList.docFreq e.2).toNat).sum,
        ((stored terms).map fun e => tokens e.2).sum⟩) ∧
      entries.map (fun e => (e.1, e.2.postings)) = stored terms := by
  induction terms with
  | nil => exact ⟨[], rfl, rfl⟩
  | cons e terms ih =>
    obtain ⟨entries, hWrite, hStored⟩ := ih fun f hf => hEnc f (List.mem_cons_of_mem _ hf)
    obtain ⟨⟨disk, n⟩, hDisk⟩ := hEnc e List.mem_cons_self
    obtain ⟨term, list⟩ := e
    by_cases hLong : maxTermBytes < term.utf8ByteSize
    · have hSkip : stored ((term, list) :: terms) = stored terms := by
        rw [stored, List.filter_cons_of_neg (by simpa using hLong)]
        rfl
      refine ⟨entries, ?_, by rw [hSkip, hStored]⟩
      rw [writeTerms, if_pos hLong, hSkip, hWrite]
    · have hKeep : stored ((term, list) :: terms) = (term, list) :: stored terms := by
        rw [stored, List.filter_cons_of_pos (by simpa using hLong)]
        rfl
      refine ⟨(term, disk) :: entries, ?_, ?_⟩
      · rw [writeTerms, if_neg hLong, hKeep]
        simp only [hDisk, hWrite, bind, Except.bind, pure, Except.pure, List.length_cons,
          List.map_cons, List.sum_cons]
        rw [← encodePostings_tokens hDisk, Nat.add_comm (MemPostingList.docFreq list).toNat,
          Nat.add_comm n]
      · rw [List.map_cons, hKeep, hStored, encodePostings_postings hDisk]

/-- The encoded list is the list: its frequency is the length, and its cursor answers as the
one in memory does. -/
def Reads (l : EncodedList) (list : MemPostingList) : Prop :=
  l.docFreq.toNat = list.length ∧
    DiskCursor.Agree (MemPostingCursor.new list) (DiskCursor.new l.data)

/-- What a reader may rely on of the file written from the terms. -/
structure Faithful [Platform] (terms : List (String × MemPostingList)) (file : List UInt8)
    (summary : Summary) (v : IdxView) : Prop where
  parse : IdxView.parse file = .ok v
  verify : v.verify = .ok ()
  len : summary.len = file.length
  crc : summary.crc = v.env.crc
  numTerms : summary.numTerms = (stored terms).length ∧ v.toc.numTerms = (stored terms).length
  numPostings : summary.numPostings = ((stored terms).map fun e => e.2.length).sum
  numTokens : summary.numTokens = ((stored terms).map fun e => tokens e.2).sum
  lookup : ∀ t, ∃ r, v.lookup t = .ok r ∧
    Option.Rel Reads r (((stored terms).find? fun e => e.1 == t).map Prod.snd)
  terms : ∃ items, v.terms = .ok items ∧
    List.Forall₂ (fun x e => x.1 = e.1 ∧ x.2.1.toNat = e.2.length ∧ Reads x.2.2 e.2) items
      (stored terms)

/-- The file and its sparse index are within the sizes of the format. -/
def FitsFormat [Platform] (terms : List (String × MemPostingList)) : Prop :=
  ∀ entries counts, writeTerms terms = .ok (entries, counts) →
    (sealBody .idx formatVersion (regionsOf entries).body).length < 2 ^ 64 ∧
      (regionsOf entries).sparse.length < 2 ^ 32

/-- The stored lists, and the position lists in them, are shorter than `2 ^ 32`. -/
def ShortLists (terms : List (String × MemPostingList)) : Prop :=
  ∀ e ∈ stored terms, e.2.length < 2 ^ 32 ∧ ∀ p ∈ e.2, p.positions.length < 2 ^ 32

instance [Platform] (terms : List (String × MemPostingList)) : Decidable (FitsFormat terms) :=
  match hWrite : writeTerms terms with
  | .error _ => isTrue fun _ _ h => nomatch hWrite.symm.trans h
  | .ok (entries, counts) =>
    decidable_of_iff ((sealBody .idx formatVersion (regionsOf entries).body).length < 2 ^ 64 ∧
        (regionsOf entries).sparse.length < 2 ^ 32)
      ⟨fun hLt _ _ h => by
        obtain ⟨rfl, -⟩ := Prod.mk.inj (Except.ok.inj (hWrite.symm.trans h))
        exact hLt, fun hFits => hFits entries counts hWrite⟩

instance (terms : List (String × MemPostingList)) : Decidable (ShortLists terms) :=
  inferInstanceAs (Decidable (∀ e ∈ stored terms, e.2.length < 2 ^ 32 ∧
    ∀ p ∈ e.2, p.positions.length < 2 ^ 32))

/-- An encoded list is read exactly when its lengths fit. -/
theorem reads_iff (list : DiskPostingList) :
    Reads ⟨postingsBytes list, MemPostingList.docFreq list.postings⟩ list.postings ↔
      list.postings.length < 2 ^ 32 ∧ ∀ p ∈ list.postings, p.positions.length < 2 ^ 32 := by
  constructor
  · exact fun h => (DiskCursor.agree_iff list).mp h.2
  · intro h
    exact ⟨UInt32.toNat_ofNat_of_lt' h.1, (DiskCursor.agree_iff list).mpr h⟩

section

variable [Platform] {entries : List (String × DiskPostingList)}

omit [Platform] in
/-- A lookup among the written entries. -/
theorem lookup_written {v : IdxView} (h : v.Written (entries.map rawOf)) (t : String) :
    v.lookup t = .ok ((entries.find? fun e => e.1 == t).map fun e =>
      ⟨postingsBytes e.2, MemPostingList.docFreq e.2.postings⟩) := by
  have hFind : ((entries.map rawOf).find? fun e => e.term == t.toUTF8.toList) =
      (entries.find? fun e => e.1 == t).map rawOf := by
    rw [List.find?_map]
    congr 1
    refine congrArg (fun p => entries.find? p) (funext fun e => ?_)
    show (e.1.toUTF8.toList == t.toUTF8.toList) = (e.1 == t)
    rw [Bool.eq_iff_iff, beq_iff_eq, beq_iff_eq, String.toUTF8_toList_inj]
  unfold IdxView.lookup
  rw [h.lookupInner, hFind, Option.map_map]
  rfl

/-- The file is read as what was written exactly when the lengths of the stored lists fit. -/
theorem faithful_iff {terms : List (String × MemPostingList)}
    (hSorted : terms.Pairwise fun s t => s.1.toUTF8.toList < t.1.toUTF8.toList)
    (hEnc : ∀ e ∈ terms, ∃ x, encodePostings e.2 = .ok x) (hFits : FitsFormat terms) :
    ∃ file summary, writeFile terms = .ok (file, summary) ∧
      ((∃ v, Faithful terms file summary v) ↔ ShortLists terms) := by
  obtain ⟨entries, hWrite, hStored⟩ := writeTerms_stored hEnc
  obtain ⟨hFile, hSparse⟩ := hFits _ _ hWrite
  have hHolds := Regions.holds_regionsOf entries
  have hStoredSub : (stored terms).Sublist terms := List.filter_sublist
  have hKeys : ((entries.map rawOf).map Raw.term) =
      (stored terms).map fun e => e.1.toUTF8.toList := by
    rw [← hStored, List.map_map, List.map_map]
    rfl
  have hShortTerms : ∀ e ∈ entries.map rawOf, e.term.length ≤ maxTermBytes := by
    intro e he
    obtain ⟨x, hx, rfl⟩ := List.mem_map.mp he
    have hMem : (x.1, x.2.postings) ∈ stored terms :=
      hStored ▸ List.mem_map_of_mem (f := fun e => (e.1, e.2.postings)) hx
    have hSize := of_decide_eq_true (List.mem_filter.mp hMem).2
    show x.1.toUTF8.toList.length ≤ maxTermBytes
    rwa [String.length_toUTF8_toList]
  have hSortedRaw : (entries.map rawOf).Pairwise fun e f => e.term < f.term := by
    have hKeysSorted : ((entries.map rawOf).map Raw.term).Pairwise (· < ·) := by
      rw [hKeys]
      exact List.pairwise_map.mpr (hSorted.sublist hStoredSub)
    exact List.pairwise_map.mp hKeysSorted
  obtain ⟨hParse, hWritten, hCount, hCrc⟩ :=
    parse_sealBody hHolds hShortTerms hSortedRaw hFile hSparse
  have hWriteFile : writeFile terms = .ok (sealBody .idx formatVersion (regionsOf entries).body,
      ⟨(sealBody .idx formatVersion (regionsOf entries).body).length,
        Platform.crc32 (regionsOf entries).body, (stored terms).length,
        ((stored terms).map fun e => (MemPostingList.docFreq e.2).toNat).sum,
        ((stored terms).map fun e => tokens e.2).sum⟩) := by
    unfold writeFile
    rw [hWrite]
    rfl
  refine ⟨_, _, hWriteFile, ?_, ?_⟩
  · -- A list that is looked up and read fits.
    rintro ⟨v, hv⟩ e he
    obtain rfl : v = (regionsOf entries).view := Except.ok.inj (hv.parse.symm.trans hParse)
    -- The iteration yields every stored list, so that each of them is read.
    obtain ⟨items, hItems, hAll⟩ := hv.terms
    rw [terms_written hWritten, Except.ok.injEq] at hItems
    rw [← hItems, ← hStored, List.forall₂_map_left_iff, List.forall₂_map_right_iff] at hAll
    rw [← hStored] at he
    obtain ⟨x, hx, rfl⟩ := List.mem_map.mp he
    have hReads : ∀ x ∈ entries, Reads (itemOf x).2.2 x.2.postings := by
      intro x hx
      exact (List.forall₂_same.mp hAll x hx).2.2
    exact (reads_iff x.2).mp (hReads x hx)
  · -- Lists that fit are read, looked up, iterated and verified.
    intro hShort
    have hShortDisk : ∀ x ∈ entries, x.2.postings.length < 2 ^ 32 ∧
        ∀ p ∈ x.2.postings, p.positions.length < 2 ^ 32 := fun x hx =>
      hShort (x.1, x.2.postings)
        (hStored ▸ List.mem_map_of_mem (f := fun e => (e.1, e.2.postings)) hx)
    have hSound : ∀ e ∈ entries.map rawOf, e.Sound := by
      intro e he
      obtain ⟨x, hx, rfl⟩ := List.mem_map.mp he
      obtain ⟨hLen, hPositions⟩ := hShortDisk x hx
      exact ⟨⟨x.1, termText_utf8 x.1⟩, verify_postingsBytes hLen hPositions⟩
    have hRead : ∀ x ∈ entries,
        Reads ⟨postingsBytes x.2, MemPostingList.docFreq x.2.postings⟩ x.2.postings :=
      fun x hx => (reads_iff x.2).mpr (hShortDisk x hx)
    refine ⟨(regionsOf entries).view, hParse, hWritten.verify hSound hCount hCrc, rfl, rfl,
      ⟨rfl, ?_⟩, ?_, rfl, fun t => ?_, ?_⟩
    · rw [hWritten.numTerms, List.length_map, ← hStored, List.length_map]
    · refine congrArg List.sum (List.map_congr_left fun e he => ?_)
      exact UInt32.toNat_ofNat_of_lt' (hShort e he).1
    · refine ⟨_, lookup_written hWritten t, ?_⟩
      rw [← hStored, List.find?_map, Option.map_map]
      show Option.Rel Reads ((entries.find? fun e => e.1 == t).map _)
        ((entries.find? fun e => e.1 == t).map _)
      rcases hFind : entries.find? fun e => e.1 == t with _ | x
      · rw [hFind]
        exact .none
      · rw [hFind]
        exact .some (hRead x (List.mem_of_find?_eq_some hFind))
    · refine ⟨entries.map itemOf, terms_written hWritten, ?_⟩
      rw [← hStored, List.forall₂_map_left_iff, List.forall₂_map_right_iff]
      exact List.forall₂_same.mpr fun x hx => ⟨rfl, (hRead x hx).1, hRead x hx⟩

end

-- ---------------------------------------------------------------------------
-- The size of a file with one term
-- ---------------------------------------------------------------------------

theorem length_putVarint_le (x : Nat) : (putVarint x).length ≤ 10 := by
  have hFuel : ∀ f x, (putVarintFuel f x).length ≤ f + 1 := by
    intro f
    induction f with
    | zero => exact fun x => Nat.le_refl _
    | succ f ih =>
      intro x
      rw [putVarintFuel]
      split_ifs
      · exact Nat.le_add_left _ _
      · exact Nat.succ_le_succ (ih _)
  exact hFuel 9 x

/-- Postings with one position each take few bytes. -/
theorem length_postingsBytesFrom_le {prev : Option DocId} {ps : List Posting}
    (h : ∀ p ∈ ps, p.positions = [0]) : (postingsBytesFrom prev ps).length ≤ 40 * ps.length := by
  induction ps generalizing prev with
  | nil => exact Nat.zero_le _
  | cons p ps ih =>
    have hRest := @ih (some p.doc) fun q hq => h q (List.mem_cons_of_mem _ hq)
    have hScratch : (positionsBytes none p.positions).length = 1 := by
      rw [h p List.mem_cons_self]
      decide
    have hDoc := length_putVarint_le (p.doc - prev.getD 0).toNat
    have hTf := length_putVarint_le (UInt32.ofNat p.positions.length).toNat
    have hLen := length_putVarint_le
      (UInt32.ofNat (positionsBytes none p.positions).length).toNat
    simp only [postingsBytesFrom, putU32, List.length_append, List.length_cons]
    omega

/-- The body of a file with one short term. -/
theorem length_body_singleton_le (e : String × DiskPostingList) :
    (regionsOf [e]).sparse.length ≤ e.1.utf8ByteSize + 34 ∧
      (regionsOf [e]).body.length ≤ (postingsBytes e.2).length + 2 * e.1.utf8ByteSize + 138 := by
  have hHolds := Regions.holds_regionsOf [e]
  have hDict : (regionsOf [e]).dict = entryBytes [] (rawOf e) := by
    rw [hHolds.dict]
    exact List.append_nil _
  have hPostings : (regionsOf [e]).postings = postingsBytes e.2 := by
    rw [hHolds.postings]
    exact List.append_nil _
  have hTerm : (rawOf e).term.length = e.1.utf8ByteSize := String.length_toUTF8_toList _
  have hBound := length_putVarint_le
  have hSparse : (regionsOf [e]).sparse =
      leBytes 4 0 ++ ([] ++ putVarint (rawOf e).term.length ++ (rawOf e).term ++ putVarint 0 ++
        putVarint 0) := rfl
  have hSparseLen : (regionsOf [e]).sparse.length ≤ e.1.utf8ByteSize + 34 := by
    rw [hSparse]
    simp only [List.length_append, length_leBytes, List.length_nil, hTerm]
    have h₁ := hBound e.1.utf8ByteSize
    have h₂ := hBound 0
    omega
  refine ⟨hSparseLen, ?_⟩
  have hDictLen : (regionsOf [e]).dict.length ≤ e.1.utf8ByteSize + 40 := by
    rw [hDict, entryBytes]
    simp only [List.length_append, List.length_drop, hTerm, putU32]
    have h₁ := hBound (commonPrefix [] (rawOf e).term)
    have h₂ := hBound (e.1.utf8ByteSize - commonPrefix [] (rawOf e).term)
    have h₃ := hBound (rawOf e).docFreq.toNat
    have h₄ := hBound (rawOf e).data.length
    omega
  rw [Regions.body]
  simp only [List.length_append, length_toc, hPostings]
  omega

end Idx

/-- `write` and its readers: every list of ascending terms with accepted posting lists is
written, and the file is a faithful dictionary of it exactly when the stored lists, and the
position lists in them, are shorter than `2 ^ 32`. -/
theorem dictionary_faithful [Platform] (terms : List (String × MemPostingList))
    (hSorted : terms.Pairwise fun s t => s.1.toUTF8.toList < t.1.toUTF8.toList)
    (hEnc : ∀ e ∈ terms, ∃ x, Idx.encodePostings e.2 = .ok x)
    (hFits : Idx.FitsFormat terms) :
    ∃ file summary, Idx.writeFile terms = .ok (file, summary) ∧
      ((∃ v, Idx.Faithful terms file summary v) ↔ Idx.ShortLists terms) :=
  Idx.faithful_iff hSorted hEnc hFits

/-- Three terms; the second is too long to be stored. -/
theorem dictionary_faithful_overlong :
    let _ : Platform := .reference
    let terms := [("a", [⟨0, [0]⟩]), (String.ofList (List.replicate 513 'b'), [⟨1, [2]⟩]),
      ("c", [⟨0, [3]⟩, ⟨1, [0, 7]⟩])]
    ∃ file summary v, Idx.writeFile terms = .ok (file, summary) ∧
      Idx.Faithful terms file summary v := by
  intro _ terms
  have hLists : ∀ e ∈ terms, e.2.Pairwise (fun p q => p.doc < q.doc) ∧
      ∀ p ∈ e.2, p.positions ≠ [] ∧ p.positions.Pairwise (· < ·) := by decide +kernel
  have hEnc : ∀ e ∈ terms, ∃ x, Idx.encodePostings e.2 = .ok x := by
    intro e he
    obtain ⟨hDocs, hPos⟩ := hLists e he
    exact Idx.encodePostings_isOk.mpr
      ⟨hDocs, by simp, fun p hp => (hPos p hp).1, fun p hp => (hPos p hp).2⟩
  obtain ⟨file, summary, hWrite, hIff⟩ :=
    dictionary_faithful terms (by decide +kernel) hEnc (by decide +kernel)
  obtain ⟨v, hv⟩ := hIff.mpr (by decide +kernel)
  exact ⟨file, summary, v, hWrite, hv⟩

/-- A list of `2 ^ 32` postings fills a file that is within the format, and is not read
back. -/
theorem Idx.not_faithful_of_length [Platform] {ps : MemPostingList}
    (hOk : Idx.Encodable none ps) (hPos : ∀ p ∈ ps, p.positions = [0])
    (hLen : ps.length = 2 ^ 32) :
    Idx.FitsFormat [("a", ps)] ∧ ∃ file summary, Idx.writeFile [("a", ps)] = .ok (file, summary) ∧
      ¬ ∃ v, Idx.Faithful [("a", ps)] file summary v := by
  have hSize : "a".utf8ByteSize = 1 := by decide +kernel
  obtain ⟨⟨list, tokens⟩, hList⟩ := Idx.encodePostings_isOk.mpr hOk
  have hPostings := Idx.encodePostings_postings hList
  have hFits : Idx.FitsFormat [("a", ps)] := by
    intro entries counts hWrite
    -- The only entry there can be.
    have hOne : Idx.writeTerms [("a", ps)] = .ok ([("a", list)],
        ⟨1, (MemPostingList.docFreq ps).toNat, tokens⟩) := by
      rw [Idx.writeTerms, if_neg (by rw [hSize]; decide)]
      simp only [hList, Idx.writeTerms, bind, Except.bind, pure, Except.pure, Nat.zero_add]
    obtain ⟨rfl, -⟩ := Prod.mk.inj (Except.ok.inj (hOne.symm.trans hWrite))
    obtain ⟨hSparse, hBody⟩ := Idx.length_body_singleton_le ("a", list)
    have hCount := Idx.length_putVarint_le (UInt32.ofNat list.postings.length).toNat
    have hRest := @Idx.length_postingsBytesFrom_le none list.postings (hPostings ▸ hPos)
    have hLenDisk : list.postings.length = 2 ^ 32 := hPostings ▸ hLen
    rw [hLenDisk] at hRest
    simp only [hSize, Idx.postingsBytes, putU32, List.length_append] at hSparse hBody
    rw [length_sealBody]
    show 16 + _ + 16 < _ ∧ _
    omega
  have hEnc : ∀ e ∈ [("a", ps)], ∃ x, Idx.encodePostings e.2 = .ok x := by
    intro e he
    obtain rfl := List.mem_singleton.mp he
    exact ⟨_, hList⟩
  obtain ⟨file, summary, hWrite, hIff⟩ :=
    Idx.faithful_iff (List.pairwise_singleton _ _) hEnc hFits
  refine ⟨hFits, file, summary, hWrite, fun hFaithful => ?_⟩
  have hMem : ("a", ps) ∈ Idx.stored [("a", ps)] :=
    List.mem_filter.mpr ⟨List.mem_singleton_self _, by rw [hSize]; decide⟩
  have hShort := (hIff.mp hFaithful ("a", ps) hMem).1
  rw [hLen] at hShort
  exact Nat.lt_irrefl _ hShort

/-- A term in all documents that there are: the file is written, and is not read back. -/
theorem everyDoc_unfaithful :
    let _ : Platform := .reference
    Idx.FitsFormat [("a", everyDoc (2 ^ 32))] ∧ ∃ file summary,
      Idx.writeFile [("a", everyDoc (2 ^ 32))] = .ok (file, summary) ∧
        ¬ ∃ v, Idx.Faithful [("a", everyDoc (2 ^ 32))] file summary v := by
  intro _
  have hOk : Idx.Encodable none (everyDoc (2 ^ 32)) :=
    ⟨everyDoc_ascending (Nat.le_refl _), by simp, by simp [everyDoc], by simp [everyDoc]⟩
  have hLen : (everyDoc (2 ^ 32)).length = 2 ^ 32 := by
    rw [everyDoc, List.length_map, List.length_range]
  exact Idx.not_faithful_of_length hOk (by simp [everyDoc]) hLen

end Ripindex
