import Mathlib.Data.List.Range
import Ripindex.Lib.Text
import Ripindex.Store.Counts
import Ripindex.Store.Success
import Ripindex.Store.Tiles

/-!
# Cutting files into segments

`build_segments` indexes batches of shards in parallel, folds them into an accumulator and
flushes that whenever its budget is spent. None of the cuts shows in what is built: behind
one another, the segments hold the documents and postings of a single pass over the files.

## Results

* `Tiles.agree`         — two ways to cut the same files come to the same.
* `Tiles.onePass`       — segments that tile the files hold what one pass would.
* `cuts_invisible`      — this is so for every build, and builds within the limits succeed.
* `overlong_unposted`   — a term of 513 bytes has a list in the pass and none in the segments.
-/

namespace Ripindex

open Unicode

-- ---------------------------------------------------------------------------
-- One pass
-- ---------------------------------------------------------------------------

section Pass

variable [Platform]

/-- The texts among files, each under the id of its document; the first file is document
`doc`. -/
def textsFrom (read : ReadFile) (doc : DocId) : List CrawledFile → List (DocId × String)
  | [] => []
  | cf :: files =>
    match fileText read cf with
    | some (_, text) => (doc, text) :: textsFrom read (doc + 1) files
    | none => textsFrom read (doc + 1) files

theorem textsFrom_postings (read : ReadFile) (t : String) (doc : DocId)
    (files : List CrawledFile) :
    ((textsFrom read doc files).flatMap fun d =>
      posting d.1 (termPositions (tokenize d.2) t)) = docPostings read t doc files := by
  induction files generalizing doc with
  | nil => rfl
  | cons cf files ih =>
    rw [textsFrom, docPostings, docPositions]
    cases fileText read cf with
    | none => exact ih (doc + 1)
    | some text =>
      rw [List.flatMap_cons, ih]

omit [Platform] in
theorem mem_textsFrom {read : ReadFile} {n : Nat} {files : List CrawledFile}
    {d : DocId × String} (h : d ∈ textsFrom read (UInt32.ofNat n) files) :
    ∃ i < files.length, d.1 = UInt32.ofNat (n + i) := by
  induction files generalizing n with
  | nil => simp [textsFrom] at h
  | cons cf files ih =>
    have hLater : d ∈ textsFrom read (UInt32.ofNat n + 1) files →
        ∃ i < (cf :: files).length, d.1 = UInt32.ofNat (n + i) := by
      intro hd
      rw [position_succ] at hd
      obtain ⟨i, hi, hDoc⟩ := ih hd
      exact ⟨i + 1, Nat.succ_lt_succ hi, by rw [hDoc, Nat.add_assoc, Nat.add_comm 1]⟩
    rw [textsFrom] at h
    split at h
    · rcases List.mem_cons.mp h with rfl | hd
      · exact ⟨0, Nat.succ_pos _, rfl⟩
      · exact hLater hd
    · exact hLater h

omit [Platform] in
/-- With ids for all files the texts come under ascending ones. -/
theorem textsFrom_ids {read : ReadFile} {n : Nat} {files : List CrawledFile}
    (hRoom : n + files.length ≤ 2 ^ 32) :
    ((textsFrom read (UInt32.ofNat n) files).map Prod.fst).Pairwise (· < ·) := by
  induction files generalizing n with
  | nil => exact List.Pairwise.nil
  | cons cf files ih =>
    rw [List.length_cons] at hRoom
    have hLater := ih (n := n + 1) (by omega)
    rw [← position_succ] at hLater
    rw [textsFrom]
    split
    · refine List.pairwise_cons.mpr ⟨fun d hd => ?_, hLater⟩
      obtain ⟨d', hd', rfl⟩ := List.mem_map.mp hd
      rw [position_succ] at hd'
      obtain ⟨i, hi, hDoc⟩ := mem_textsFrom hd'
      have hFirst : n < 2 ^ 32 := by omega
      have hSecond : n + 1 + i < 2 ^ 32 := by omega
      rw [hDoc, UInt32.lt_iff_toNat_lt, UInt32.toNat_ofNat_of_lt' hFirst,
        UInt32.toNat_ofNat_of_lt' hSecond]
      omega
    · exact hLater

/-- One pass over the files gives each term the postings of the files, in order. -/
theorem indexDocuments_textsFrom {read : ReadFile} (t : String) {base : DocId}
    {files : List CrawledFile} (hRoom : base.toNat + files.length ≤ 2 ^ 32) :
    (indexDocuments (textsFrom read base files) ∅).2.list t =
      docPostings read t base files := by
  have hIds := @textsFrom_ids read base.toNat files hRoom
  rw [UInt32.ofNat_toNat] at hIds
  rw [indexDocuments_list t hIds (by simp), TermMap.list_empty, List.nil_append,
    textsFrom_postings]

end Pass

-- ---------------------------------------------------------------------------
-- Segments in order
-- ---------------------------------------------------------------------------

/-- Documents of a segment under their global ids. -/
def Segment.globalDocs (s : Segment) : List (DocId × DocMeta) :=
  s.docs.zipIdx.map fun d => (s.entry.baseDoc + UInt32.ofNat d.2, d.1)

/-- Postings of a term in a segment, shifted by its base. -/
def Segment.globalPostings (s : Segment) (t : String) : List Posting :=
  (s.idx.postings t).map fun p => ⟨s.entry.baseDoc + p.doc, p.positions⟩

section Order

variable [Platform]

/-- Files under consecutive global ids, each with the record of its own. -/
def recordedFrom (read : ReadFile) (base : DocId) (files : List CrawledFile) :
    List (DocId × DocMeta) :=
  files.zipIdx.map fun f => (base + UInt32.ofNat f.2, recorded read f.1)

theorem recordedFrom_append (read : ReadFile) (base : DocId) (files rest : List CrawledFile) :
    recordedFrom read base (files ++ rest) =
      recordedFrom read base files ++
        recordedFrom read (base + UInt32.ofNat files.length) rest := by
  unfold recordedFrom
  rw [List.zipIdx_append, List.map_append, Nat.zero_add]
  congr 1
  rw [List.zipIdx_eq_map_add, List.map_map]
  refine List.map_congr_left ?_
  intro f _
  simp only [Function.comp_apply, add_ofNat_add]

/-- The segments hold what a single pass over the files would, the first file as document
`base`, under segment ids from `id` on. -/
structure OnePass (read : ReadFile) (base : DocId) (id : UInt32) (files : List CrawledFile)
    (segs : List Segment) : Prop where
  /-- Segment ids are consecutive. -/
  ids : (segs.map fun s => s.entry.segmentId) =
    (List.range segs.length).map fun i => id + UInt32.ofNat i
  /-- The ranges tile that of the files. -/
  ranges : (segs.flatMap fun s =>
      List.range' s.entry.baseDoc.toNat s.entry.numDocs.toNat) =
    List.range' base.toNat files.length
  /-- File `k` is document `base + k`. -/
  docs : segs.flatMap Segment.globalDocs = recordedFrom read base files
  /-- The lists of a term, one behind the other, are its list in the single map. -/
  postings : ∀ t, t.utf8ByteSize ≤ Idx.maxTermBytes →
    (segs.flatMap fun s => s.globalPostings t) =
      (indexDocuments (textsFrom read base files) ∅).2.list t
  /-- Longer terms have no lists. -/
  long : ∀ t, Idx.maxTermBytes < t.utf8ByteSize →
    (segs.flatMap fun s => s.globalPostings t) = []

variable {read : ReadFile} {base : DocId} {id : UInt32} {files : List CrawledFile}
  {segs : List Segment}

theorem Segment.Records.globalDocs {s : Segment} (h : s.Records read files) :
    s.globalDocs = recordedFrom read s.entry.baseDoc files := by
  unfold Segment.globalDocs recordedFrom
  rw [h.docs, List.zipIdx_map, List.map_map]
  rfl

theorem Segment.Records.globalPostings {s : Segment} (h : s.Records read files) (t : String) :
    s.globalPostings t =
      if Idx.maxTermBytes < t.utf8ByteSize then []
      else docPostings read t s.entry.baseDoc files := by
  unfold Segment.globalPostings
  rw [h.postings]
  split
  · rfl
  · have hShift := docPostings_rebase read t (0 - s.entry.baseDoc) 0 files
    have hNeg : ∀ d : DocId, d - (0 - s.entry.baseDoc) = s.entry.baseDoc + d := fun d => by
      rw [UInt32.zero_sub, UInt32.sub_eq_add_neg, UInt32.neg_neg, UInt32.add_comm]
    simpa only [hNeg, UInt32.add_zero] using hShift

namespace Tiles

theorem ids_eq (h : Tiles read base id files segs) :
    (segs.map fun s => s.entry.segmentId) =
      (List.range segs.length).map fun i => id + UInt32.ofNat i := by
  induction h with
  | nil => rfl
  | @cons base id files rest s segs _ hId _ _ _ _ _ ih =>
    rw [List.map_cons, ih, hId, List.length_cons, List.range_succ_eq_map, List.map_cons,
      List.map_map]
    congr 1
    · simp
    · refine List.map_congr_left ?_
      intro i _
      rw [Function.comp_apply, Nat.succ_eq_add_one, UInt32.ofNat_add, UInt32.add_assoc,
        UInt32.add_comm (UInt32.ofNat i)]
      rfl

theorem ranges_eq (h : Tiles read base id files segs)
    (hRoom : base.toNat + files.length ≤ 2 ^ 32) :
    (segs.flatMap fun s => List.range' s.entry.baseDoc.toNat s.entry.numDocs.toNat) =
      List.range' base.toNat files.length := by
  induction h with
  | nil => rfl
  | @cons base id files rest s segs hBase _ _ hRecords _ _ hRest ih =>
    rw [List.length_append] at hRoom ⊢
    rw [List.flatMap_cons, hBase, hRecords.numDocs, ← List.range'_append_1]
    congr 1
    by_cases hNil : rest = []
    · rw [hRest.segs_eq_nil hNil, hNil]
      rfl
    · have hPos := List.length_pos_iff.mpr hNil
      have hNext : (base + UInt32.ofNat files.length).toNat = base.toNat + files.length :=
        toNat_add_ofNat (by omega)
      rw [ih (by omega), hNext]

theorem globalDocs_eq (h : Tiles read base id files segs) :
    segs.flatMap Segment.globalDocs = recordedFrom read base files := by
  induction h with
  | nil => rfl
  | cons hBase _ _ hRecords _ _ _ ih =>
    rw [List.flatMap_cons, hRecords.globalDocs, hBase, ih, recordedFrom_append]

theorem globalPostings_eq (h : Tiles read base id files segs) (t : String) :
    (segs.flatMap fun s => s.globalPostings t) =
      if Idx.maxTermBytes < t.utf8ByteSize then [] else docPostings read t base files := by
  induction h with
  | nil => simp [docPostings]
  | cons hBase _ _ hRecords _ _ _ ih =>
    rw [List.flatMap_cons, hRecords.globalPostings, hBase, ih, docPostings_append]
    split <;> rfl

/-- Two ways to cut the same files come to the same documents and postings. -/
theorem agree {id' : UInt32} {segs' : List Segment} (h : Tiles read base id files segs)
    (h' : Tiles read base id' files segs') :
    segs.flatMap Segment.globalDocs = segs'.flatMap Segment.globalDocs ∧
      ∀ t, (segs.flatMap fun s => s.globalPostings t) =
        segs'.flatMap fun s => s.globalPostings t :=
  ⟨h.globalDocs_eq.trans h'.globalDocs_eq.symm,
    fun t => (h.globalPostings_eq t).trans (h'.globalPostings_eq t).symm⟩

/-- Segments that tile the files hold what one pass over the files would. -/
theorem onePass (h : Tiles read base id files segs)
    (hRoom : base.toNat + files.length ≤ 2 ^ 32) : OnePass read base id files segs where
  ids := h.ids_eq
  ranges := h.ranges_eq hRoom
  docs := h.globalDocs_eq
  postings := fun t ht => by
    rw [h.globalPostings_eq, if_neg (Nat.not_lt.mpr ht), indexDocuments_textsFrom t hRoom]
  long := fun t ht => by rw [h.globalPostings_eq, if_pos ht]

end Tiles

-- ---------------------------------------------------------------------------
-- Builds
-- ---------------------------------------------------------------------------

/-- Whatever the shard size, the budgets and the number of threads, a build writes segments
that hold what a single pass over the files would, and nothing else; within the limits of
the formats it succeeds. Only a shard size whose product with the number of threads wraps to
0 makes it panic, before anything is written. -/
theorem cuts_invisible (read : ReadFile) (files : List CrawledFile) (base : DocId)
    (cfg : BuildConfig) (id : UInt32) (hRoom : base.toNat + files.length ≤ 2 ^ 32) :
    (∀ entries nextId,
      (buildSegments read files base cfg id).result = .ok (entries, nextId) →
      ∃ segs, entries = segs.map Segment.entry ∧ nextId = id + UInt32.ofNat segs.length ∧
        (buildSegments read files base cfg id).Installs (newFilesOf segs) ∧
        OnePass read base id files segs) ∧
    (batchSize cfg ≠ 0 → WithinLimits read files →
      ∃ r, (buildSegments read files base cfg id).result = .ok r) ∧
    (batchSize cfg = 0 → buildSegments read files base cfg id = Plan.fail .panicked) := by
  refine ⟨fun entries nextId hOk => ?_,
    fun hBatch hFit => buildSegments_isOk hFit base hBatch id, buildSegments_of_eq_zero⟩
  obtain ⟨segs, hEntries, hNext, hTiles, hInstalls⟩ := buildSegments_tiles hOk
  exact ⟨segs, hEntries, hNext, hInstalls, hTiles.onePass hRoom⟩

end Order

/-- A text and a binary file; budgets of 0 put each into a segment of its own. -/
theorem cuts_invisible_two :
    let _ := Platform.reference
    ∃ entries nextId segs,
      (buildSegments mixedWorld.indexRead mixedFiles 5 ⟨0, 0, 0⟩ 7).result =
        .ok (entries, nextId) ∧ entries = segs.map Segment.entry ∧
      OnePass mixedWorld.indexRead 5 7 mixedFiles segs := by
  intro _
  obtain ⟨hOrder, hOk, -⟩ :=
    cuts_invisible mixedWorld.indexRead mixedFiles 5 ⟨0, 0, 0⟩ 7 (by decide)
  have hTexts : ∀ cf ∈ mixedFiles, fileText mixedWorld.indexRead cf = some (⟨#[]⟩, "") ∨
      fileText mixedWorld.indexRead cf = none := by decide +kernel
  have hAtoms : ∀ cf ∈ mixedFiles, ∀ bytes text,
      fileText mixedWorld.indexRead cf = some (bytes, text) →
        (atomRuns text).length < 2 ^ 32 := by
    intro cf hcf bytes text hText
    rcases hTexts cf hcf with h | h
    · obtain ⟨-, rfl⟩ : (⟨#[]⟩ : ByteArray) = bytes ∧ "" = text := by simpa [h] using hText
      decide
    · simp [h] at hText
  obtain ⟨⟨entries, nextId⟩, hResult⟩ :=
    hOk (by decide) ⟨by decide, by decide +kernel, hAtoms⟩
  obtain ⟨segs, hEntries, -, -, hSegs⟩ := hOrder entries nextId hResult
  exact ⟨entries, nextId, segs, hResult, hEntries, hSegs⟩

-- ---------------------------------------------------------------------------
-- An overlong term
-- ---------------------------------------------------------------------------

/-- Every atom of a text has its folded form as a term. -/
theorem termPositions_ne_nil [Platform] {text : String} {atom : List Char}
    (hFit : (atomRuns text).length < 2 ^ 32) (h : atom ∈ atomRuns text) :
    termPositions (tokenize text) (fold atom) ≠ [] := by
  have hLen := length_atomsOfWords text
  have hPos : termPositions (tokenize text) (fold atom) =
      positionsFrom (fold atom) 0 (atomsOfWords 0 (splitWordBounds text)) :=
    termPositions_tokensFrom _ (by omega)
  rw [atomRuns, ← map_atomsOfWords 0] at h
  obtain ⟨a, ha, rfl⟩ := List.mem_map.mp h
  obtain ⟨k, hGet⟩ := List.getElem?_of_mem ha
  rw [hPos, positionsFrom]
  refine List.ne_nil_of_mem (List.mem_map_of_mem (a := (a, k)) (List.mem_filter.mpr ⟨?_, ?_⟩))
  · exact List.mk_mem_zipIdx_iff_getElem?.mpr hGet
  · simpa using mem_atomTerms.mpr (.inl rfl)

/-- A text that does not start with a byte-order mark is read back from its bytes. -/
theorem decodeText_toUTF8 {text : String} (h : ∀ c ∈ text.toList.head?, c.toNat ≠ 0xFEFF) :
    decodeText text.toUTF8 = some text := by
  rw [decodeText, String.fromUTF8?_toUTF8, Option.map_some]
  split
  · rename_i c cs hText
    rw [if_neg (h c (by rw [hText]; rfl))]
  · rfl

namespace Overlong

/-- One word of `n` letters. -/
def word (n : Nat) : String := String.ofList (List.replicate n 'a')

def file : CrawledFile := ⟨⟨"a", 1, 0, 0⟩, .text⟩

/-- Every file is that word. -/
def read (n : Nat) : ReadFile := fun _ => .ok (word n).toUTF8

theorem atomRuns_word (n : Nat) :
    let _ := Platform.reference
    atomRuns (word (n + 1)) = [List.replicate (n + 1) 'a'] := by
  intro _
  have hRun := @wordRuns_run_append _ (List.replicate (n + 1) 'a') []
    (fun c hc => by rw [List.eq_of_mem_replicate hc]; decide) (by simp)
  rw [List.append_nil, wordRuns_nil, List.append_nil] at hRun
  show ([(word (n + 1)).toList].flatMap wordRuns) = _
  rw [List.flatMap_cons, List.flatMap_nil, List.append_nil, word, String.toList_ofList, hRun]
  rw [if_pos (by rw [List.replicate_succ, List.any_cons]; rfl)]

theorem fold_replicate (n : Nat) :
    let _ := Platform.reference
    fold (List.replicate n 'a') = word n := by
  intro _
  refine if_neg ?_
  rw [List.any_replicate]
  split
  · exact Bool.false_ne_true
  · exact (by decide : ¬ isUppercase 'a' = true)

theorem fileText_file (n : Nat) :
    fileText (read n) file = some ((word n).toUTF8, word n) := by
  have hText : decodeText (word n).toUTF8 = some (word n) := by
    apply decodeText_toUTF8
    rw [word, String.toList_ofList]
    intro c hc
    rw [List.eq_of_mem_replicate (List.mem_of_mem_head? hc)]
    decide
  show (decodeText (word n).toUTF8).map _ = _
  rw [hText]
  rfl

theorem withinLimits :
    let _ := Platform.reference
    WithinLimits (read 513) [file] := by
  intro _
  refine ⟨by decide, by decide +kernel, fun cf hcf bytes text hText => ?_⟩
  obtain rfl := List.mem_singleton.mp hcf
  obtain ⟨-, rfl⟩ : (word 513).toUTF8 = bytes ∧ word 513 = text := by
    simpa [fileText_file] using hText
  rw [atomRuns_word]
  decide

end Overlong

open Overlong in
/-- A word of 513 letters has a posting when its file is tokenized and none in the segment
built from it. -/
theorem overlong_unposted :
    let _ := Platform.reference
    ∃ entries nextId segs,
      (buildSegments (read 513) [file] 0 ⟨10, 10, 1000⟩ 1).result = .ok (entries, nextId) ∧
      entries = segs.map Segment.entry ∧
      (buildSegments (read 513) [file] 0 ⟨10, 10, 1000⟩ 1).Installs (newFilesOf segs) ∧
      (segs.flatMap fun s => s.globalPostings (word 513)) ≠
        (indexDocuments (textsFrom (read 513) 0 [file]) ∅).2.list (word 513) := by
  intro _
  have hBatch : batchSize ⟨10, 10, 1000⟩ ≠ 0 := by decide
  obtain ⟨⟨entries, nextId⟩, hResult⟩ := buildSegments_isOk withinLimits 0 hBatch 1
  obtain ⟨segs, hEntries, -, hTiles, hInstalls⟩ := buildSegments_tiles hResult
  refine ⟨entries, nextId, segs, hResult, hEntries, hInstalls, ?_⟩
  have hRoom : (0 : DocId).toNat + [file].length ≤ 2 ^ 32 := by decide
  have hLong : Idx.maxTermBytes < (word 513).utf8ByteSize := by decide +kernel
  have hOne : docPostings (read 513) (word 513) 0 [file] =
      posting 0 (termPositions (tokenize (word 513)) (word 513)) := by
    rw [docPostings, docPositions, fileText_file, docPostings, List.append_nil]
  have hNe : termPositions (tokenize (word 513)) (word 513) ≠ [] := by
    have hRuns := atomRuns_word 512
    have hMem := @termPositions_ne_nil _ (word 513) (List.replicate 513 'a')
      (by rw [hRuns]; decide) (by rw [hRuns]; exact List.mem_singleton_self _)
    rwa [fold_replicate] at hMem
  rw [(hTiles.onePass hRoom).long _ hLong, indexDocuments_textsFrom _ hRoom, hOne,
    posting_of_ne_nil hNe]
  exact (List.cons_ne_nil _ _).symm

end Ripindex
