import Mathlib.Data.String.Basic
import Ripindex.Format.Envelope

/-!
# The term dictionary

`format/idx.rs`: the encoder refuses posting lists whose documents or positions do
not strictly increase, so a list that is on disk carries these facts.
-/

namespace Ripindex

/-- A posting list the encoder accepts. -/
structure DiskPostingList where
  postings : List Posting
  docs_lt : postings.Pairwise fun p q => p.doc < q.doc
  positions_ne_nil : ∀ p ∈ postings, p.positions ≠ []
  positions_lt : ∀ p ∈ postings, p.positions.Pairwise (· < ·)

/-- The part of a `.idx` file readers see: terms in strictly ascending byte order with
their posting lists. -/
structure IdxFile where
  terms : List (String × DiskPostingList)
  terms_lt : terms.Pairwise fun s t => s.1 < t.1

namespace Idx

open Format

def maxTermBytes : Nat := 512

def blockSize : Nat := 64

/-- The positions check of `encode_postings`, after position `prev`. -/
def checkPositions : Option Position → List Position → Except FormatError Unit
  | _, [] => pure ()
  | none, p :: ps => checkPositions (some p) ps
  | some q, p :: ps =>
    if p ≤ q then .error (.invariant "positions must strictly increase")
    else checkPositions (some p) ps

/-- The checks of `encode_postings`, after document `prev`; the number of positions. -/
def checkPostings : Option DocId → List Posting → Except FormatError Nat
  | _, [] => pure 0
  | prev, p :: ps =>
    if prev.any fun d => p.doc ≤ d then
      .error (.invariant "doc ids must strictly increase")
    else if p.positions = [] then
      .error (.invariant "posting with no positions")
    else do
      checkPositions none p.positions
      let tokens ← checkPostings (some p.doc) ps
      pure (p.positions.length + tokens)

theorem checkPositions_ok {prev : Option Position} {ps : List Position}
    (h : checkPositions prev ps = .ok ()) :
    ps.Pairwise (· < ·) ∧ ∀ q ∈ prev, ∀ p ∈ ps, q < p := by
  induction ps generalizing prev with
  | nil => simp
  | cons p ps ih =>
    cases prev with
    | none =>
      obtain ⟨hPair, hLt⟩ := @ih (some p) h
      exact ⟨List.pairwise_cons.mpr ⟨hLt p rfl, hPair⟩, by simp⟩
    | some q =>
      simp only [checkPositions] at h
      split at h
      · cases h
      · rename_i hpq
        obtain ⟨hPair, hLt⟩ := ih h
        have hqp : q < p := UInt32.not_le.mp hpq
        refine ⟨List.pairwise_cons.mpr ⟨hLt p rfl, hPair⟩, ?_⟩
        intro q' hq' x hx
        obtain rfl : q = q' := by simpa using hq'
        rcases List.mem_cons.mp hx with rfl | hx
        · exact hqp
        · exact UInt32.lt_trans hqp (hLt p rfl x hx)

theorem checkPositions_of_pairwise {prev : Option Position} {ps : List Position}
    (hPair : ps.Pairwise (· < ·)) (hPrev : ∀ q ∈ prev, ∀ p ∈ ps, q < p) :
    checkPositions prev ps = .ok () := by
  induction ps generalizing prev with
  | nil => cases prev <;> rfl
  | cons p ps ih =>
    have hRest : checkPositions (some p) ps = .ok () :=
      ih hPair.of_cons fun q hq x hx => by
        obtain rfl : p = q := by simpa using hq
        exact (List.pairwise_cons.mp hPair).1 x hx
    cases prev with
    | none => exact hRest
    | some q =>
      have hqp : ¬ p ≤ q := UInt32.not_le.mpr (hPrev q rfl p List.mem_cons_self)
      simp only [checkPositions, hqp, if_false, hRest]

/-- What the encoder has checked of a list it accepts. -/
structure Encodable (prev : Option DocId) (ps : List Posting) : Prop where
  docs_lt : ps.Pairwise fun p q => p.doc < q.doc
  prev_lt : ∀ d ∈ prev, ∀ p ∈ ps, d < p.doc
  positions_ne_nil : ∀ p ∈ ps, p.positions ≠ []
  positions_lt : ∀ p ∈ ps, p.positions.Pairwise (· < ·)

end Idx

theorem DiskPostingList.encodable (list : DiskPostingList) :
    Idx.Encodable none list.postings :=
  ⟨list.docs_lt, by simp, list.positions_ne_nil, list.positions_lt⟩

namespace Idx

open Format

theorem Encodable.tail {prev : Option DocId} {p : Posting} {ps : List Posting}
    (h : Encodable prev (p :: ps)) : Encodable (some p.doc) ps where
  docs_lt := h.docs_lt.of_cons
  prev_lt := fun d hd q hq => by
    obtain rfl : p.doc = d := by simpa using hd
    exact (List.pairwise_cons.mp h.docs_lt).1 q hq
  positions_ne_nil := fun q hq => h.positions_ne_nil q (List.mem_cons_of_mem _ hq)
  positions_lt := fun q hq => h.positions_lt q (List.mem_cons_of_mem _ hq)

/-- The encoder accepts a list exactly when it is `Encodable`. -/
theorem checkPostings_isOk {prev : Option DocId} {ps : List Posting} :
    (∃ n, checkPostings prev ps = .ok n) ↔ Encodable prev ps := by
  induction ps generalizing prev with
  | nil => exact ⟨fun _ => ⟨by simp, by simp, by simp, by simp⟩, fun _ => ⟨0, rfl⟩⟩
  | cons p ps ih =>
    constructor
    · rintro ⟨n, h⟩
      simp only [checkPostings] at h
      split at h
      · cases h
      rename_i hPrev
      split at h
      · cases h
      rename_i hNil
      rcases hPos : checkPositions none p.positions with _ | _
      · simp [hPos, bind, Except.bind] at h
      rcases hTok : checkPostings (some p.doc) ps with _ | m
      · simp [hPos, hTok, bind, Except.bind] at h
      obtain ⟨hDocs, hGt, hNe, hLt⟩ := ih.mp ⟨m, hTok⟩
      have hGt' : ∀ q ∈ ps, p.doc < q.doc := hGt p.doc rfl
      refine ⟨List.pairwise_cons.mpr ⟨hGt', hDocs⟩, ?_, ?_, ?_⟩
      · intro d hd q hq
        have hdp : d < p.doc := by
          simp only [Option.any_eq_true_iff_get, not_exists, decide_eq_true_eq] at hPrev
          cases prev with
          | none => simp at hd
          | some d' =>
            obtain rfl : d' = d := by simpa using hd
            exact UInt32.not_le.mp (by simpa using hPrev)
        rcases List.mem_cons.mp hq with rfl | hq
        · exact hdp
        · exact UInt32.lt_trans hdp (hGt' q hq)
      · exact List.forall_mem_cons.mpr ⟨hNil, hNe⟩
      · exact List.forall_mem_cons.mpr ⟨(checkPositions_ok hPos).1, hLt⟩
    · intro hOk
      have hNil := hOk.positions_ne_nil p List.mem_cons_self
      have hPos : checkPositions none p.positions = .ok () :=
        checkPositions_of_pairwise (hOk.positions_lt p List.mem_cons_self) (by simp)
      obtain ⟨m, hTok⟩ := (@ih (some p.doc)).mpr hOk.tail
      refine ⟨p.positions.length + m, ?_⟩
      have hAny : (prev.any fun d => decide (p.doc ≤ d)) = false := by
        cases prev with
        | none => rfl
        | some d =>
          simpa using UInt32.not_le.mpr (hOk.prev_lt d rfl p List.mem_cons_self)
      simp [checkPostings, hAny, hNil, hPos, hTok, bind, Except.bind, pure, Except.pure]

/-- Encode one posting list, with its number of positions. -/
def encodePostings (ps : List Posting) : Except FormatError (DiskPostingList × Nat) :=
  match h : checkPostings none ps with
  | .error e => .error e
  | .ok tokens =>
    have hOk : Encodable none ps := checkPostings_isOk.mp ⟨tokens, h⟩
    .ok (⟨ps, hOk.docs_lt, hOk.positions_ne_nil, hOk.positions_lt⟩, tokens)

/-- A list that `encode_postings` accepts is kept as it is. -/
theorem encodePostings_postings {ps : MemPostingList} {list : DiskPostingList} {tokens : Nat}
    (h : encodePostings ps = .ok (list, tokens)) : list.postings = ps := by
  unfold encodePostings at h
  split at h
  · cases h
  · simp only [Except.ok.injEq, Prod.mk.injEq] at h
    rw [← h.1]

/-- The encoder accepts the lists whose documents and positions strictly ascend, and no others. -/
theorem encodePostings_isOk {ps : MemPostingList} :
    (∃ e, encodePostings ps = .ok e) ↔ Encodable none ps := by
  rw [← checkPostings_isOk]
  unfold encodePostings
  split
  · rename_i e hErr
    rw [hErr]
    exact ⟨fun ⟨_, h⟩ => (nomatch h), fun ⟨_, h⟩ => (nomatch h)⟩
  · rename_i tokens hOk
    exact ⟨fun _ => ⟨tokens, hOk⟩, fun _ => ⟨_, rfl⟩⟩

/-- What `write` counts while it writes. -/
structure Counts where
  numTerms : Nat
  numPostings : Nat
  numTokens : Nat
  deriving DecidableEq

/-- The loop of `write` over the terms: overlong terms are dropped, every other list is
encoded. -/
def writeTerms : List (String × MemPostingList) →
    Except FormatError (List (String × DiskPostingList) × Counts)
  | [] => pure ([], ⟨0, 0, 0⟩)
  | (term, list) :: rest =>
    if maxTermBytes < term.utf8ByteSize then writeTerms rest
    else do
      let (disk, tokens) ← encodePostings list
      let (later, counts) ← writeTerms rest
      pure ((term, disk) :: later,
        ⟨counts.numTerms + 1, counts.numPostings + list.docFreq.toNat, counts.numTokens + tokens⟩)

/-- `write` keeps a sublist of the terms it is given, in their order. -/
theorem writeTerms_keys {terms : List (String × MemPostingList)}
    {out : List (String × DiskPostingList)} {counts : Counts}
    (h : writeTerms terms = .ok (out, counts)) :
    (out.map Prod.fst).Sublist (terms.map Prod.fst) := by
  induction terms generalizing out counts with
  | nil =>
    simp only [writeTerms, pure, Except.pure, Except.ok.injEq, Prod.mk.injEq] at h
    simp [← h.1]
  | cons t rest ih =>
    rcases t with ⟨term, list⟩
    simp only [writeTerms] at h
    split at h
    · exact (ih h).cons _
    · rcases hEnc : encodePostings list with _ | ⟨disk, tokens⟩
      · simp [hEnc, bind, Except.bind] at h
      rcases hRest : writeTerms rest with _ | ⟨later, counts'⟩
      · simp [hEnc, hRest, bind, Except.bind] at h
      simp only [hEnc, hRest, bind, Except.bind, pure, Except.pure, Except.ok.injEq,
        Prod.mk.injEq] at h
      simpa [← h.1] using ih hRest

/-- Terms sorted by bytes and unique, as `write` requires. -/
structure SortedTerms where
  entries : List (String × MemPostingList)
  entries_lt : entries.Pairwise fun s t => s.1 < t.1

/-- The terms of a store in ascending byte order, which for strings is the order of
their characters. -/
def sortedTerms (terms : TermMap) : SortedTerms where
  entries := (terms.entries.map fun e => (e.1, e.2)).mergeSort fun s t => decide (s.1 ≤ t.1)
  entries_lt := by
    have hKeys : ((terms.entries.map fun e => (e.1, e.2)).map Prod.fst).Nodup := by
      have := terms.nodupKeys
      unfold List.NodupKeys List.keys at this
      simpa only [List.map_map, Function.comp_def] using this
    have hPerm := List.mergeSort_perm (terms.entries.map fun e => (e.1, e.2))
      fun s t : String × MemPostingList => decide (s.1 ≤ t.1)
    have hNodup := (hPerm.map Prod.fst).nodup_iff.mpr hKeys
    have hSorted := @List.pairwise_mergeSort _
      (fun s t : String × MemPostingList => decide (s.1 ≤ t.1))
      (fun a b c hab hbc => by
        simp only [decide_eq_true_eq] at hab hbc ⊢
        exact le_trans hab hbc)
      (fun a b => by
        simp only [Bool.or_eq_true, decide_eq_true_eq]
        exact le_total a.1 b.1)
      (terms.entries.map fun e => (e.1, e.2))
    refine (hSorted.and (List.pairwise_map.mp hNodup)).imp ?_
    intro s t hst
    exact lt_of_le_of_ne (of_decide_eq_true hst.1) hst.2

/-- `idx::write`: the dictionary and its counts. -/
def write (terms : SortedTerms) : Except FormatError (IdxFile × Counts) :=
  match h : writeTerms terms.entries with
  | .error e => .error e
  | .ok (out, counts) =>
    have hLt : (out.map Prod.fst).Pairwise (· < ·) :=
      (List.pairwise_map.mpr terms.entries_lt).sublist (writeTerms_keys h)
    .ok (⟨out, List.pairwise_map.mp hLt⟩, counts)

/-- A successful `write` keeps what `writeTerms` made of the terms. -/
theorem write_ok {terms : SortedTerms} {f : IdxFile} {counts : Counts}
    (h : write terms = .ok (f, counts)) : writeTerms terms.entries = .ok (f.terms, counts) := by
  unfold write at h
  split at h
  · cases h
  · rename_i out c hTerms
    simp only [Except.ok.injEq, Prod.mk.injEq] at h
    rw [hTerms, ← h.1, ← h.2]

/-- A dictionary is written whenever every list is one the encoder accepts. -/
theorem writeTerms_isOk {terms : List (String × MemPostingList)}
    (h : ∀ e ∈ terms, Encodable none e.2) : ∃ r, writeTerms terms = .ok r := by
  induction terms with
  | nil => exact ⟨_, rfl⟩
  | cons e terms ih =>
    obtain ⟨term, list⟩ := e
    obtain ⟨hHead, hTail⟩ := List.forall_mem_cons.mp h
    obtain ⟨⟨later, counts⟩, hLater⟩ := ih hTail
    obtain ⟨⟨disk, tokens⟩, hEncode⟩ := encodePostings_isOk.mpr hHead
    unfold writeTerms
    split
    · exact ⟨_, hLater⟩
    · simp [hEncode, hLater, bind, Except.bind, pure, Except.pure]

theorem write_isOk {terms : SortedTerms} (h : ∀ e ∈ terms.entries, Encodable none e.2) :
    ∃ r, write terms = .ok r := by
  obtain ⟨r, hTerms⟩ := writeTerms_isOk h
  unfold write
  split
  · rename_i e hErr
    rw [hErr] at hTerms
    cases hTerms
  · exact ⟨_, rfl⟩

theorem mem_sortedTerms {terms : TermMap} {e : String × MemPostingList} :
    e ∈ (sortedTerms terms).entries ↔ terms.lookup e.1 = some e.2 := by
  unfold sortedTerms
  rw [List.mem_mergeSort, ← Option.mem_def, AList.mem_lookup_iff, List.mem_map]
  constructor
  · rintro ⟨e', he', rfl⟩
    exact he'
  · exact fun he => ⟨_, he, rfl⟩

theorem writeTerms_cons_ok {term : String} {list : MemPostingList}
    {rest : List (String × MemPostingList)} {out : List (String × DiskPostingList)}
    {counts : Counts} (h : writeTerms ((term, list) :: rest) = .ok (out, counts)) :
    (maxTermBytes < term.utf8ByteSize ∧ writeTerms rest = .ok (out, counts)) ∨
    (¬ maxTermBytes < term.utf8ByteSize ∧ ∃ disk later c,
      disk.postings = list ∧ writeTerms rest = .ok (later, c) ∧
      out = (term, disk) :: later ∧ counts.numTerms = c.numTerms + 1) := by
  simp only [writeTerms] at h
  split at h
  · rename_i hLong
    exact .inl ⟨hLong, h⟩
  · rename_i hShort
    rcases hEnc : encodePostings list with _ | ⟨disk, tokens⟩
    · simp [hEnc, bind, Except.bind] at h
    rcases hRest : writeTerms rest with _ | ⟨later, c⟩
    · simp [hEnc, hRest, bind, Except.bind] at h
    simp only [hEnc, hRest, bind, Except.bind, pure, Except.pure, Except.ok.injEq,
      Prod.mk.injEq] at h
    exact .inr ⟨hShort, disk, later, c, encodePostings_postings hEnc, rfl, h.1.symm,
      by rw [← h.2]⟩

theorem writeTerms_numTerms {terms : List (String × MemPostingList)}
    {out : List (String × DiskPostingList)} {counts : Counts}
    (h : writeTerms terms = .ok (out, counts)) : out.length = counts.numTerms := by
  induction terms generalizing out counts with
  | nil =>
    simp only [writeTerms, pure, Except.pure, Except.ok.injEq, Prod.mk.injEq] at h
    rw [← h.1, ← h.2]
    rfl
  | cons t rest ih =>
    rcases writeTerms_cons_ok h with ⟨_, hRest⟩ | ⟨_, disk, later, c, _, hRest, rfl, hNum⟩
    · exact ih hRest
    · rw [List.length_cons, ih hRest, hNum]

/-- What `write` stores for a term: its list, unless the term is overlong. -/
theorem writeTerms_find {terms : List (String × MemPostingList)}
    {out : List (String × DiskPostingList)} {counts : Counts}
    (h : writeTerms terms = .ok (out, counts)) (t : String) :
    (out.find? fun e => e.1 == t).map (fun e => e.2.postings) =
      if maxTermBytes < t.utf8ByteSize then none
      else (terms.find? fun e => e.1 == t).map Prod.snd := by
  induction terms generalizing out counts with
  | nil =>
    simp only [writeTerms, pure, Except.pure, Except.ok.injEq, Prod.mk.injEq] at h
    simp [← h.1]
  | cons e rest ih =>
    rcases e with ⟨term, list⟩
    by_cases hEq : term = t
    · subst hEq
      rcases writeTerms_cons_ok h with ⟨hLong, hRest⟩ | ⟨hShort, disk, later, c, hDisk, _, rfl, _⟩
      · simpa [hLong] using ih hRest
      · simp [hShort, hDisk]
    · rcases writeTerms_cons_ok h with ⟨hLong, hRest⟩ | ⟨hShort, disk, later, c, _, hRest, rfl, _⟩
      · simpa [hEq] using ih hRest
      · simpa [hEq] using ih hRest

-- ---------------------------------------------------------------------------
-- Bytes
-- ---------------------------------------------------------------------------

/-- Deltas of one posting's positions. -/
def positionsBytes : Option Position → List Position → List UInt8
  | _, [] => []
  | prev, p :: ps =>
    putU32 (p - prev.getD 0) ++ positionsBytes (some p) ps

/-- The postings after document `prev`. -/
def postingsBytesFrom : Option DocId → List Posting → List UInt8
  | _, [] => []
  | prev, p :: ps =>
    let scratch := positionsBytes none p.positions
    putU32 (p.doc - prev.getD 0) ++ (putU32 (UInt32.ofNat p.positions.length) ++
      (putU32 (UInt32.ofNat scratch.length) ++ (scratch ++ postingsBytesFrom (some p.doc) ps)))

/-- One encoded posting list; its lengths are cast to `u32`. -/
def postingsBytes (list : DiskPostingList) : List UInt8 :=
  putU32 (UInt32.ofNat list.postings.length) ++ postingsBytesFrom none list.postings

/-- The regions `write` fills: the sparse index has an entry for every 64th term. -/
structure Regions where
  numTerms : Nat
  prevTerm : List UInt8
  postings : List UInt8
  dict : List UInt8
  sparseOffsets : List Nat
  sparseEntries : List UInt8

def commonPrefix : List UInt8 → List UInt8 → Nat
  | a :: as, b :: bs => if a = b then commonPrefix as bs + 1 else 0
  | _, _ => 0

/-- One turn of `write`'s loop. -/
def Regions.add (r : Regions) (entry : String × DiskPostingList) : Regions :=
  let term := entry.1.toUTF8.toList
  let buf := postingsBytes entry.2
  let first := r.numTerms % blockSize = 0
  let prevTerm := if first then [] else r.prevTerm
  let shared := commonPrefix prevTerm term
  { numTerms := r.numTerms + 1
    prevTerm := term
    postings := r.postings ++ buf
    dict := r.dict ++ putVarint shared ++ putVarint (term.length - shared) ++
      term.drop shared ++ putU32 (MemPostingList.docFreq entry.2.postings) ++ putVarint buf.length
    sparseOffsets :=
      if first then r.sparseOffsets ++ [r.sparseEntries.length] else r.sparseOffsets
    sparseEntries :=
      if first then
        r.sparseEntries ++ putVarint term.length ++ term ++ putVarint r.dict.length ++
          putVarint r.postings.length
      else r.sparseEntries }

def regions (f : IdxFile) : Regions :=
  f.terms.foldl Regions.add ⟨0, [], [], [], [], []⟩

/-- The body of the `.idx` file: postings, dictionary, sparse index, table of contents. -/
def body (f : IdxFile) : List UInt8 :=
  let r := regions f
  let sparse := r.sparseOffsets.flatMap (leBytes 4) ++ r.sparseEntries
  let dictOff := headerLen + r.postings.length
  let toc := [headerLen, r.postings.length, dictOff, r.dict.length,
    dictOff + r.dict.length, sparse.length, r.numTerms].flatMap (leBytes 8)
  r.postings ++ r.dict ++ sparse ++ toc ++ leBytes 4 r.sparseOffsets.length ++
    leBytes 4 blockSize

end Idx

namespace IdxFile

/-- `IdxView::lookup`, with the postings of an absent term empty. -/
def postings (f : IdxFile) (term : String) : List Posting :=
  ((f.terms.find? fun e => e.1 == term).map fun e => e.2.postings).getD []

/-- Positions of a term in a local document, empty where it does not occur. -/
def positions (f : IdxFile) (term : String) (i : DocId) : List Position :=
  (((f.postings term).find? fun p => p.doc == i).map Posting.positions).getD []

/-- The postings a written dictionary has for a term. -/
theorem postings_of_write {terms : Idx.SortedTerms} {f : IdxFile} {counts : Idx.Counts}
    (h : Idx.write terms = .ok (f, counts)) (t : String) :
    f.postings t =
      if Idx.maxTermBytes < t.utf8ByteSize then []
      else ((terms.entries.find? fun e => e.1 == t).map Prod.snd).getD [] := by
  unfold postings
  rw [Idx.writeTerms_find (Idx.write_ok h) t]
  split <;> rfl

end IdxFile

/-- Looking a term up in the sorted terms of a store is looking it up in the store. -/
theorem find_sortedTerms (terms : TermMap) (t : String) :
    ((Idx.sortedTerms terms).entries.find? fun e => e.1 == t).map Prod.snd =
      terms.lookup t := by
  have hMem : ∀ e : String × MemPostingList,
      e ∈ (Idx.sortedTerms terms).entries ↔ e.2 ∈ terms.lookup e.1 := by
    rintro ⟨s, l⟩
    rw [AList.mem_lookup_iff]
    simp [Idx.sortedTerms, List.mem_mergeSort]
  rcases hFind : (Idx.sortedTerms terms).entries.find? fun e => e.1 == t with _ | e
  · rw [hFind, Option.map_none]
    refine (Option.eq_none_iff_forall_not_mem.mpr ?_).symm
    intro l hl
    exact List.find?_eq_none.mp hFind (t, l) ((hMem (t, l)).mpr hl) (by simp)
  · have hKey : e.1 = t := by simpa using List.find?_some hFind
    have := (hMem e).mp (List.mem_of_find?_eq_some hFind)
    rw [hFind, Option.map_some, ← hKey]
    exact this.symm

end Ripindex
