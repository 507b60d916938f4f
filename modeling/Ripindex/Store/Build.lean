import Ripindex.Index.Content
import Ripindex.Store.Installs

/-!
# What building segments produces

`buildSegments` cuts the files into shards, batches and segments. The segments it makes
*tile* the files: their id ranges follow one another from the base, their segment ids are
consecutive, and every file has its own record and its own postings, whatever the cuts.

## Results

* `enter_indexShard` — the records of a shard's files;
* `buildSegments_tiles` — the segments built from a list of files tile it;
* `buildSegments_count` — how many they are, before any is written.
-/

namespace Ripindex

-- ---------------------------------------------------------------------------
-- Updating records
-- ---------------------------------------------------------------------------

/-- Changes to the records of global ids, one after the other. -/
def applyUpdates (base : DocId) (us : List (DocId × (DocMeta → DocMeta)))
    (docs : List DocMeta) : List DocMeta :=
  us.foldl (fun docs u => SegmentAcc.modify base docs u.1 u.2) docs

theorem List.modify_append_left {α : Type} {l : List α} {i : Nat} (h : i < l.length)
    (f : α → α) (l' : List α) : (l ++ l').modify i f = l.modify i f ++ l' := by
  induction l generalizing i with
  | nil => simp at h
  | cons a l ih =>
    cases i with
    | zero => rfl
    | succ i => simpa using ih (by simpa using h)

theorem List.modify_append_self {α : Type} (l : List α) (f : α → α) (x : α) :
    (l ++ [x]).modify l.length f = l ++ [f x] := by
  induction l with
  | nil => rfl
  | cons a l ih => simpa using ih

theorem length_applyUpdates (base : DocId) (us : List (DocId × (DocMeta → DocMeta)))
    (docs : List DocMeta) : (applyUpdates base us docs).length = docs.length := by
  induction us generalizing docs with
  | nil => rfl
  | cons u us ih =>
    rw [applyUpdates, List.foldl_cons]
    exact (ih _).trans (List.length_modify _ _ _)

/-- Changes to earlier records leave a later record alone. -/
theorem applyUpdates_append {base : DocId} {us : List (DocId × (DocMeta → DocMeta))}
    {docs : List DocMeta} (h : ∀ u ∈ us, (u.1 - base).toNat < docs.length) (x : DocMeta) :
    applyUpdates base us (docs ++ [x]) = applyUpdates base us docs ++ [x] := by
  induction us generalizing docs with
  | nil => rfl
  | cons u us ih =>
    obtain ⟨hu, hus⟩ := List.forall_mem_cons.mp h
    simp only [applyUpdates, List.foldl_cons]
    have hMod : SegmentAcc.modify base (docs ++ [x]) u.1 u.2 =
        SegmentAcc.modify base docs u.1 u.2 ++ [x] :=
      List.modify_append_left hu _ _
    rw [hMod]
    apply ih
    simpa [SegmentAcc.modify] using hus

-- ---------------------------------------------------------------------------
-- Shards
-- ---------------------------------------------------------------------------

namespace Shard

def lenUpdate (u : DocId × UInt32 × UInt64) : DocId × (DocMeta → DocMeta) :=
  (u.1, fun m => { m with status := .indexed, len := u.2.1, contentHash := u.2.2 })

def skipUpdate (u : DocId × Option UInt64) : DocId × (DocMeta → DocMeta) :=
  (u.1, fun m =>
    match u.2 with
    | some h => { m with contentHash := h }
    | none => m)

def statusUpdate (u : DocId × DocStatus) : DocId × (DocMeta → DocMeta) :=
  (u.1, fun m => { m with status := u.2 })

/-- The changes a shard makes to the records of its documents. -/
def updates (shard : Shard) : List (DocId × (DocMeta → DocMeta)) :=
  shard.docLens.map lenUpdate ++ shard.skipped.map skipUpdate ++
    shard.nonText.map statusUpdate

end Shard

theorem enter_eq_applyUpdates (base : DocId) (shard : Shard) (docs : List DocMeta) :
    SegmentAcc.enter base shard docs = applyUpdates base shard.updates docs := by
  unfold applyUpdates Shard.updates
  rw [List.foldl_append, List.foldl_append, List.foldl_map, List.foldl_map, List.foldl_map]
  change List.foldl _ (List.foldl _ (List.foldl _ docs shard.docLens) shard.skipped)
    shard.nonText = _
  congr 2
  funext docs u
  rcases u with ⟨doc, _ | h⟩
  · exact (List.modify_id _ docs).symm
  · rfl

variable [Platform]

/-- One more file of a shard: its changes come between those of earlier files, all about
its own document, and turn its fresh record into what a build records. -/
theorem addFile_updates (read : ReadFile) (shard : Shard) (doc : DocId) (cf : CrawledFile) :
    ∃ before later us, shard.updates = before ++ later ∧
      (shard.addFile read doc cf).updates = before ++ us ++ later ∧
      (∀ u ∈ us, u.1 = doc) ∧
      us.foldl (fun m u => u.2 m) (DocMeta.fromEntry cf.entry) = recorded read cf := by
  unfold Shard.addFile recorded
  rcases hKind : cf.kind with _ | _ | _
  · rcases hRead : read cf.entry.path with e | bytes
    · refine ⟨shard.docLens.map Shard.lenUpdate ++ shard.skipped.map Shard.skipUpdate,
        shard.nonText.map Shard.statusUpdate, [Shard.skipUpdate (doc, none)], rfl, ?_,
        by simp [Shard.skipUpdate], rfl⟩
      simp [Shard.updates]
    · rcases hText : decodeText bytes with _ | text
      · refine ⟨shard.docLens.map Shard.lenUpdate ++ shard.skipped.map Shard.skipUpdate,
          shard.nonText.map Shard.statusUpdate,
          [Shard.skipUpdate (doc, some (hashBytes bytes))], rfl, ?_,
          by simp [Shard.skipUpdate], ?_⟩
        · simp [Shard.updates, hText]
        · simp [hText, Shard.skipUpdate]
      · refine ⟨shard.docLens.map Shard.lenUpdate,
          shard.skipped.map Shard.skipUpdate ++ shard.nonText.map Shard.statusUpdate,
          [Shard.lenUpdate (doc, atomCount (tokenize text), hashBytes bytes)], ?_, ?_,
          by simp [Shard.lenUpdate], ?_⟩
        · simp [Shard.updates]
        · simp [Shard.updates, hText, indexDocument]
        · simp [hText, Shard.lenUpdate]
  · exact ⟨shard.updates, [], [Shard.statusUpdate (doc, .binary)], by simp,
      by simp [Shard.updates], by simp [Shard.statusUpdate], rfl⟩
  · exact ⟨shard.updates, [], [Shard.statusUpdate (doc, .tooLarge)], by simp,
      by simp [Shard.updates], by simp [Shard.statusUpdate], rfl⟩

omit [Platform] in
theorem applyUpdates_last {base doc : DocId} {us : List (DocId × (DocMeta → DocMeta))}
    (h : ∀ u ∈ us, u.1 = doc) {docs : List DocMeta} (hDoc : (doc - base).toNat = docs.length)
    (x : DocMeta) :
    applyUpdates base us (docs ++ [x]) = docs ++ [us.foldl (fun m u => u.2 m) x] := by
  induction us generalizing x with
  | nil => rfl
  | cons u us ih =>
    obtain ⟨hu, hus⟩ := List.forall_mem_cons.mp h
    simp only [applyUpdates, List.foldl_cons] at ih ⊢
    have hMod : SegmentAcc.modify base (docs ++ [x]) u.1 u.2 = docs ++ [u.2 x] := by
      unfold SegmentAcc.modify
      rw [hu, hDoc]
      exact List.modify_append_self docs _ _
    rw [hMod]
    exact ih hus _

omit [Platform] in
/-- The position of document `base + i` behind its base. -/
theorem sub_base_toNat (base : DocId) {i : Nat} (h : i < 2 ^ 32) :
    (base + UInt32.ofNat i - base).toNat = i := by
  rw [UInt32.add_comm, UInt32.add_sub_cancel, UInt32.toNat_ofNat_of_lt' h]

/-- The records of a shard's files behind those of earlier files. -/
theorem enter_indexShard (read : ReadFile) (base : DocId) (docs : List DocMeta)
    (files : List CrawledFile) (hLen : docs.length + files.length ≤ 2 ^ 32) :
    SegmentAcc.enter base (indexShard read (base + UInt32.ofNat docs.length) files)
        (docs ++ files.map fun cf => DocMeta.fromEntry cf.entry) =
      docs ++ files.map (recorded read) ∧
    ∀ u ∈ (indexShard read (base + UInt32.ofNat docs.length) files).updates,
      (u.1 - base).toNat < docs.length + files.length := by
  induction files using List.reverseRecOn with
  | nil => simp [indexShard, indexFilesFrom, SegmentAcc.enter, Shard.updates]
  | append_singleton files cf ih =>
    rw [List.length_append, List.length_singleton] at hLen
    obtain ⟨ihEnter, ihLt⟩ := ih (by omega)
    rw [enter_eq_applyUpdates] at ihEnter ⊢
    set shard := indexShard read (base + UInt32.ofNat docs.length) files with hShard
    have hAdd : base + UInt32.ofNat docs.length + UInt32.ofNat files.length =
        base + UInt32.ofNat (docs.length + files.length) := by
      rw [UInt32.ofNat_add, UInt32.add_assoc]
    have hIdx := sub_base_toNat base (by omega : docs.length + files.length < 2 ^ 32)
    rw [indexShard_snoc, ← hShard, hAdd]
    obtain ⟨before, later, us, hOld, hNew, hDoc, hRec⟩ := addFile_updates read shard
      (base + UInt32.ofNat (docs.length + files.length)) cf
    have hBefore : ∀ u ∈ before, (u.1 - base).toNat < docs.length + files.length :=
      fun u hu => ihLt u (by rw [hOld]; exact List.mem_append_left _ hu)
    have hLater : ∀ u ∈ later, (u.1 - base).toNat < docs.length + files.length :=
      fun u hu => ihLt u (by rw [hOld]; exact List.mem_append_right _ hu)
    constructor
    · rw [hNew, List.map_append, List.map_append, ← List.append_assoc, ← List.append_assoc]
      have hSplit : ∀ xs ys l, applyUpdates base (xs ++ ys) l =
          applyUpdates base ys (applyUpdates base xs l) := fun xs ys l => List.foldl_append
      rw [hOld, hSplit] at ihEnter
      rw [hSplit, hSplit, List.map_singleton, List.map_singleton, applyUpdates_append
        (by simpa using hBefore), applyUpdates_last hDoc
          (by rw [hIdx, length_applyUpdates]; simp), applyUpdates_append
        (by rw [length_applyUpdates]; simpa using hLater), ihEnter, hRec]
    · intro u hu
      rw [hNew] at hu
      simp only [List.mem_append] at hu
      rw [List.length_append, List.length_singleton]
      rcases hu with (hu | hu) | hu
      · have := hBefore u hu
        omega
      · rw [hDoc u hu, hIdx]
        omega
      · have := hLater u hu
        omega

-- ---------------------------------------------------------------------------
-- Segments
-- ---------------------------------------------------------------------------

/-- What a flush leaves: lengths, checksums and counts of the files written, and no
deletions. -/
structure Segment.Flushed (s : Segment) : Prop where
  idxLen : s.entry.idxLen = (FileData.idx s.idx).len
  idxCrc : s.entry.idxCrc = (FileData.idx s.idx).crc
  numTerms : s.entry.numTerms = s.idx.terms.length
  docLen : s.entry.docLen = (FileData.doc s.docs).len
  docCrc : s.entry.docCrc = (FileData.doc s.docs).crc
  del : s.del = none
  delGen : s.entry.delGen = 0
  delLen : s.entry.delLen = 0
  numDeleted : s.entry.numDeleted = 0

/-- The files of a segment without deletions. -/
def Segment.newFiles (s : Segment) : List (FileName × FileData) :=
  [(.idx s.entry.segmentId, .idx s.idx), (.doc s.entry.segmentId, .doc s.docs)]

/-- A flushed segment is backed by its two files. -/
theorem Segment.Flushed.backed {s : Segment} (h : s.Flushed) {d : Dir}
    (hIdx : d.lookup (.idx s.entry.segmentId) = some (.idx s.idx))
    (hDoc : d.lookup (.doc s.entry.segmentId) = some (.doc s.docs)) : s.Backed d where
  idx := ⟨hIdx, h.idxLen.symm, h.idxCrc.symm⟩
  numTerms := h.numTerms.symm
  doc := ⟨hDoc, h.docLen.symm, h.docCrc.symm⟩
  del := by rw [h.del]; simp
  delGen := by rw [h.del, h.delGen]; simp

/-- The segment holds exactly the given files. Terms beyond the length limit have no
postings. -/
structure Segment.Records (read : ReadFile) (files : List CrawledFile) (s : Segment) :
    Prop where
  docs : s.docs = files.map (recorded read)
  postings : ∀ t, s.idx.postings t =
    if Idx.maxTermBytes < t.utf8ByteSize then [] else docPostings read t 0 files

theorem docPostings_rebase (read : ReadFile) (t : String) (base doc : DocId)
    (files : List CrawledFile) :
    ((docPostings read t doc files).map fun p => (⟨p.doc - base, p.positions⟩ : Posting)) =
      docPostings read t (doc - base) files := by
  induction files generalizing doc with
  | nil => rfl
  | cons cf files ih =>
    have hNext : doc + 1 - base = doc - base + 1 := by
      rw [UInt32.sub_eq_add_neg, UInt32.sub_eq_add_neg, UInt32.add_assoc, UInt32.add_assoc,
        UInt32.add_comm 1]
    simp only [docPostings, List.map_append, ih, hNext]
    congr 1
    unfold posting
    split <;> rfl

/-- The accumulator holds exactly the given files, as long as their number fits a
segment. -/
structure SegmentAcc.Holds (read : ReadFile) (files : List CrawledFile) (acc : SegmentAcc) :
    Prop where
  length_docs : acc.docs.length = files.length
  docs : files.length < 2 ^ 32 → acc.docs = files.map (recorded read)
  list : files.length < 2 ^ 32 → ∀ t, acc.store.list t = docPostings read t acc.base files

theorem SegmentAcc.holds_new (read : ReadFile) (base : DocId) :
    (SegmentAcc.new base).Holds read [] where
  length_docs := rfl
  docs := fun _ => rfl
  list := fun _ t => by simp [SegmentAcc.new, docPostings]

/-- Folding in the shard of the next files. -/
theorem SegmentAcc.Holds.absorb {read : ReadFile} {files : List CrawledFile}
    {acc : SegmentAcc} (h : acc.Holds read files) (chunk : List CrawledFile) :
    (acc.absorb (indexShard read (acc.base + UInt32.ofNat files.length) chunk) chunk).Holds
      read (files ++ chunk) where
  length_docs := by
    simp [SegmentAcc.absorb, enter_eq_applyUpdates, length_applyUpdates, h.length_docs]
  docs := fun hLen => by
    rw [List.length_append] at hLen
    have hDocs := h.docs (by omega)
    have hEnter := (enter_indexShard read acc.base acc.docs chunk
      (by rw [h.length_docs]; omega)).1
    rw [h.length_docs] at hEnter
    rw [SegmentAcc.absorb, hEnter, hDocs, List.map_append]
  list := fun hLen t => by
    rw [List.length_append] at hLen
    rw [SegmentAcc.absorb, TermMap.list_mergeShard, h.list (by omega),
      indexShard_list _ _ _ _ (by omega), docPostings_append]

/-- A successful flush writes one segment with the records and postings of the
accumulator. -/
theorem flushSegment_ok {read : ReadFile} {files : List CrawledFile} {acc : SegmentAcc}
    (hAcc : acc.Holds read files) {id : UInt32} {e : SegmentEntry}
    (h : (flushSegment id acc).result = .ok e) :
    ∃ s : Segment, s.entry = e ∧ s.Flushed ∧ s.Records read files ∧
      e.segmentId = id ∧ e.baseDoc = acc.base ∧ files.length < 2 ^ 32 ∧
      (flushSegment id acc).Installs s.newFiles := by
  unfold flushSegment at h ⊢
  obtain ⟨-, -, h⟩ := Plan.bind_ok.mp h
  obtain ⟨⟨idx, counts⟩, hIdx, h⟩ := Plan.bind_ok.mp h
  obtain ⟨-, -, h⟩ := Plan.bind_ok.mp h
  obtain ⟨records, hEncode, h⟩ := Plan.bind_ok.mp h
  obtain ⟨view, hParse, h⟩ := Plan.bind_ok.mp h
  obtain ⟨-, -, h⟩ := Plan.bind_ok.mp h
  have hWrite := Plan.ofFormat_result_ok.mp hIdx
  obtain rfl := Doc.encode_ok (Plan.ofFormat_result_ok.mp hEncode)
  have hLt := Doc.parse_ok (Plan.ofFormat_result_ok.mp hParse)
  have hFiles : files.length < 2 ^ 32 := hAcc.length_docs ▸ hLt
  simp only [Plan.pure_result, Except.ok.injEq] at h
  subst h
  refine ⟨⟨_, idx, acc.docs, none, ?_, by simp, by simp⟩, rfl, ?_, ?_, rfl, rfl, hFiles, ?_⟩
  · exact (UInt32.toNat_ofNat_of_lt' hLt).symm
  · exact ⟨rfl, rfl, (Idx.writeTerms_numTerms (Idx.write_ok hWrite)).symm, rfl, rfl, rfl,
      rfl, rfl, rfl⟩
  · refine ⟨hAcc.docs hFiles, fun t => ?_⟩
    rw [IdxFile.postings_of_write hWrite t]
    split
    · rfl
    · have hFind := find_sortedTerms acc.store t
      have hMap : ((rebased acc.store acc.base).entries.find? fun e => e.1 == t).map Prod.snd =
          (acc.store.lookup t).map fun l => l.map fun p =>
            (⟨p.doc - acc.base, p.positions⟩ : Posting) := by
        rw [← hFind]
        simp only [rebased, List.find?_map, Option.map_map]
        rfl
      rw [hMap]
      have hList := hAcc.list hFiles t
      have hSelf : acc.base - acc.base = 0 := UInt32.sub_self _
      rw [← hSelf, ← docPostings_rebase, ← hList]
      unfold TermMap.list
      cases acc.store.lookup t <;> rfl
  · unfold Plan.Installs
    rw [Plan.bind_steps (Plan.emit_result _), Plan.bind_steps hIdx, Plan.bind_steps
      (Plan.emit_result _), Plan.bind_steps hEncode, Plan.bind_steps hParse,
      Plan.bind_steps (Plan.writeFinal_result _ _)]
    rfl

/-- Segments that hold a list of files from document `base` and segment id `id` on. -/
inductive Tiles (read : ReadFile) :
    DocId → UInt32 → List CrawledFile → List Segment → Prop
  | nil (base : DocId) (id : UInt32) : Tiles read base id [] []
  | cons {base : DocId} {id : UInt32} {files rest : List CrawledFile} {s : Segment}
      {segs : List Segment} (hBase : s.entry.baseDoc = base) (hId : s.entry.segmentId = id)
      (hFlushed : s.Flushed) (hRecords : s.Records read files) (hNe : files ≠ [])
      (hLen : files.length < 2 ^ 32)
      (hRest : Tiles read (base + UInt32.ofNat files.length) (id + 1) rest segs) :
      Tiles read base id (files ++ rest) (s :: segs)

/-- One more segment at the end. -/
theorem Tiles.snoc {read : ReadFile} {base : DocId} {id : UInt32}
    {done files : List CrawledFile} {segs : List Segment} {s : Segment}
    (h : Tiles read base id done segs)
    (hBase : s.entry.baseDoc = base + UInt32.ofNat done.length)
    (hId : s.entry.segmentId = id + UInt32.ofNat segs.length) (hFlushed : s.Flushed)
    (hRecords : s.Records read files) (hNe : files ≠ []) (hLen : files.length < 2 ^ 32) :
    Tiles read base id (done ++ files) (segs ++ [s]) := by
  induction h with
  | nil base id =>
    have hNil : Tiles read base id (files ++ []) ([s] : List Segment) :=
      .cons (by simpa using hBase) (by simpa using hId) hFlushed hRecords hNe hLen (.nil _ _)
    simpa using hNil
  | @cons base id files' rest s' segs hBase' hId' hFlushed' hRecords' hNe' hLen' hRest ih =>
    rw [List.append_assoc, List.cons_append]
    refine .cons hBase' hId' hFlushed' hRecords' hNe' hLen' (ih ?_ ?_)
    · rw [hBase, List.length_append, UInt32.ofNat_add, UInt32.add_assoc]
    · rw [hId, List.length_cons, UInt32.ofNat_add, UInt32.add_assoc, UInt32.add_comm 1]
      rfl

-- ---------------------------------------------------------------------------
-- The loops
-- ---------------------------------------------------------------------------

/-- What the loops of `build_segments` maintain: the files so far are those of the
flushed segments, which tile them, and those of the accumulator. -/
structure BuildInv (read : ReadFile) (base : DocId) (id : UInt32)
    (done acc : List CrawledFile) (segs : List Segment) (st : BuildState) : Prop where
  entries : st.entries = segs.map Segment.entry
  tiles : Tiles read base id done segs
  accBase : st.acc.base = base + UInt32.ofNat done.length
  nextId : st.nextId = id + UInt32.ofNat segs.length
  holds : st.acc.Holds read acc

theorem BuildInv.start (read : ReadFile) (base : DocId) (id : UInt32) :
    BuildInv read base id [] [] [] ⟨SegmentAcc.new base, [], id⟩ where
  entries := rfl
  tiles := .nil _ _
  accBase := by simp [SegmentAcc.new]
  nextId := by simp
  holds := SegmentAcc.holds_new read base

/-- Files of the segments written. -/
def newFilesOf (segs : List Segment) : List (FileName × FileData) :=
  segs.flatMap Segment.newFiles

omit [Platform] in
theorem newFilesOf_append (ss ts : List Segment) :
    newFilesOf (ss ++ ts) = newFilesOf ss ++ newFilesOf ts :=
  List.flatMap_append

theorem BuildInv.flush {read : ReadFile} {base : DocId} {id : UInt32}
    {done acc : List CrawledFile} {segs : List Segment} {st st' : BuildState}
    (h : BuildInv read base id done acc segs st) (hNe : acc ≠ [])
    (hOk : st.flush.result = .ok st') :
    ∃ s, BuildInv read base id (done ++ acc) [] (segs ++ [s]) st' ∧
      st.flush.Installs (newFilesOf [s]) := by
  unfold BuildState.flush at hOk ⊢
  obtain ⟨e, hFlush, hPure⟩ := Plan.bind_ok.mp hOk
  obtain ⟨s, hEntry, hFlushed, hRecords, hId, hBase, hLen, hInst⟩ :=
    flushSegment_ok h.holds hFlush
  simp only [Plan.pure_result, Except.ok.injEq] at hPure
  refine ⟨s, ?_, ?_⟩
  · rw [← hPure]
    refine ⟨?_, ?_, ?_, ?_, SegmentAcc.holds_new read _⟩
    · rw [h.entries, List.map_append, List.map_singleton, hEntry]
    · exact h.tiles.snoc (by rw [hEntry, hBase, h.accBase]) (by rw [hEntry, hId, h.nextId])
        hFlushed hRecords hNe hLen
    · change st.acc.base + UInt32.ofNat st.acc.docs.length = _
      rw [h.accBase, h.holds.length_docs, List.length_append, UInt32.ofNat_add,
        UInt32.add_assoc]
    · change st.nextId + 1 = _
      rw [h.nextId, List.length_append, UInt32.ofNat_add, UInt32.add_assoc]
      rfl
  · have hNew : newFilesOf [s] = s.newFiles ++ [] := by simp [newFilesOf]
    rw [hNew]
    exact hInst.bind hFlush (Plan.installs_pure _)

/-- How a run of shards or batches extends the invariant. -/
def Extends (read : ReadFile) (base : DocId) (id : UInt32) (done acc l : List CrawledFile)
    (segs : List Segment) (p : Plan BuildState) (st' : BuildState) : Prop :=
  ∃ done' acc' new, BuildInv read base id done' acc' (segs ++ new) st' ∧
    done' ++ acc' = done ++ acc ++ l ∧ p.Installs (newFilesOf new)

omit [Platform] in
theorem length_take_of_drop_ne_nil {α : Type} {l : List α} {n : Nat} (h : l.drop n ≠ []) :
    (l.take n).length = n := by
  have : n < l.length := by
    by_contra hLe
    exact h (List.drop_eq_nil_of_le (by omega))
  rw [List.length_take]
  omega

omit [Platform] in
theorem add_ofNat_add (a : UInt32) (i j : Nat) :
    a + UInt32.ofNat i + UInt32.ofNat j = a + UInt32.ofNat (i + j) := by
  rw [UInt32.ofNat_add, UInt32.add_assoc]

/-- The next shard of a batch goes into the accumulator. -/
theorem BuildInv.absorb_next {read : ReadFile} {base first : DocId} {id : UInt32} {i size : Nat}
    {done acc : List CrawledFile} {segs : List Segment} {st : BuildState}
    (h : BuildInv read base id done acc segs st)
    (hAlign : first + UInt32.ofNat (i * size) = base + UInt32.ofNat (done.length + acc.length))
    (chunk : List CrawledFile) :
    BuildInv read base id done (acc ++ chunk) segs
      { st with
        acc := st.acc.absorb (indexShard read (first + UInt32.ofNat (i * size)) chunk) chunk } where
  entries := h.entries
  tiles := h.tiles
  accBase := h.accBase
  nextId := h.nextId
  holds := by
    rw [hAlign, ← add_ofNat_add, ← h.accBase]
    exact h.holds.absorb chunk

omit [Platform] in
/-- After a full chunk the next shard starts where the files so far end. -/
theorem shard_aligned {base first : DocId} {i size : Nat} {done acc l done' acc' : List CrawledFile}
    (hAlign : first + UInt32.ofNat (i * size) = base + UInt32.ofNat (done.length + acc.length))
    (hFiles : done' ++ acc' = done ++ (acc ++ l.take size)) (hNe : l.drop size ≠ []) :
    first + UInt32.ofNat ((i + 1) * size) =
      base + UInt32.ofNat (done'.length + acc'.length) := by
  have hLen := congrArg List.length hFiles
  simp only [List.length_append, length_take_of_drop_ne_nil hNe] at hLen
  rw [Nat.add_mul, Nat.one_mul, ← add_ofNat_add, hAlign, add_ofNat_add, hLen, Nat.add_assoc]

/-- The accumulator is flushed behind a shard, or kept. -/
theorem BuildInv.flushIf {read : ReadFile} {cfg : BuildConfig} {base : DocId} {id : UInt32}
    {done acc : List CrawledFile} {segs : List Segment} {st st' : BuildState}
    (h : BuildInv read base id done acc segs st) (hNe : acc ≠ [])
    (hOk : (if st.acc.overBudget cfg then st.flush else pure st : Plan BuildState).result =
      .ok st') :
    Extends read base id done acc [] segs
      (if st.acc.overBudget cfg then st.flush else pure st) st' := by
  split at hOk
  · obtain ⟨s, hInv, hInst⟩ := h.flush hNe hOk
    exact ⟨_, [], [s], hInv, by simp, by rw [if_pos ‹_›]; exact hInst⟩
  · simp only [Plan.pure_result, Except.ok.injEq] at hOk
    subst hOk
    exact ⟨done, acc, [], by rwa [List.append_nil], by simp,
      by rw [if_neg ‹_›]; exact Plan.installs_pure _⟩

theorem buildShards_extends {read : ReadFile} {cfg : BuildConfig} {base first : DocId}
    {id : UInt32} (fuel : Nat) {i : Nat} {done acc l : List CrawledFile}
    {segs : List Segment} {st st' : BuildState} (h : BuildInv read base id done acc segs st)
    (hFuel : l.length ≤ fuel)
    (hAlign : l ≠ [] → first + UInt32.ofNat (i * max cfg.shardSize 1) =
      base + UInt32.ofNat (done.length + acc.length))
    (hOk : (buildShards read cfg first i st
      (chunksFuel (max cfg.shardSize 1) fuel l)).result = .ok st') :
    Extends read base id done acc l segs
      (buildShards read cfg first i st (chunksFuel (max cfg.shardSize 1) fuel l)) st' := by
  induction fuel generalizing i done acc l segs st with
  | zero =>
    obtain rfl : l = [] := List.eq_nil_of_length_eq_zero (by omega)
    simp only [chunksFuel, buildShards, Plan.pure_result, Except.ok.injEq] at hOk ⊢
    subst hOk
    exact ⟨done, acc, [], by simpa using h, by simp, Plan.installs_pure _⟩
  | succ fuel ih =>
    by_cases hl : l = []
    · subst hl
      simp only [chunksFuel, List.isEmpty_nil, if_true, buildShards, Plan.pure_result,
        Except.ok.injEq] at hOk ⊢
      subst hOk
      exact ⟨done, acc, [], by simpa using h, by simp, Plan.installs_pure _⟩
    · set size := max cfg.shardSize 1 with hSize
      have hPos : 0 < size := by omega
      have hDrop := length_drop_le_fuel hl hPos hFuel
      simp only [chunksFuel_of_ne_nil hl, buildShards] at hOk ⊢
      rw [← hSize] at hOk ⊢
      have h₁ := h.absorb_next (hAlign hl) (l.take size)
      set st₁ : BuildState :=
        { st with acc := st.acc.absorb (indexShard read
            (first + UInt32.ofNat (i * size)) (l.take size)) (l.take size) }
      obtain ⟨st₂, hSt₂, hOk₂⟩ := Plan.bind_ok.mp hOk
      have hTake : acc ++ l.take size ≠ [] := by
        simp [hl, hPos.ne']
      obtain ⟨done₂, acc₂, new₂, hInv₂, hFiles₂, hInst₂⟩ := h₁.flushIf hTake hSt₂
      rw [List.append_nil] at hFiles₂
      obtain ⟨done₃, acc₃, new₃, hInv₃, hFiles₃, hInst₃⟩ :=
        ih hInv₂ hDrop (shard_aligned (hAlign hl) hFiles₂) hOk₂
      refine ⟨done₃, acc₃, new₂ ++ new₃, by simpa using hInv₃, ?_, ?_⟩
      · rw [hFiles₃, hFiles₂, List.append_assoc, List.append_assoc, List.append_assoc,
          List.take_append_drop]
      · rw [newFilesOf_append]
        exact hInst₂.bind hSt₂ hInst₃

omit [Platform] in
/-- After a full batch the next one starts where the files so far end. -/
theorem batch_aligned {b size : Nat} {done acc l done' acc' : List CrawledFile}
    (hAlign : b * size = done.length + acc.length)
    (hFiles : done' ++ acc' = done ++ acc ++ l.take size) (hNe : l.drop size ≠ []) :
    (b + 1) * size = done'.length + acc'.length := by
  have hLen := congrArg List.length hFiles
  simp only [List.length_append, length_take_of_drop_ne_nil hNe] at hLen
  rw [Nat.add_mul, Nat.one_mul, hAlign, hLen]

theorem buildBatches_extends {read : ReadFile} {cfg : BuildConfig} {base : DocId}
    {id : UInt32} (hBatch : batchSize cfg ≠ 0) (fuel : Nat) {b : Nat}
    {done acc l : List CrawledFile} {segs : List Segment} {st st' : BuildState}
    (h : BuildInv read base id done acc segs st)
    (hFuel : l.length ≤ fuel)
    (hAlign : l ≠ [] → b * batchSize cfg = done.length + acc.length)
    (hOk : (buildBatches read cfg base b st
      (chunksFuel (batchSize cfg) fuel l)).result = .ok st') :
    Extends read base id done acc l segs
      (buildBatches read cfg base b st (chunksFuel (batchSize cfg) fuel l)) st' := by
  induction fuel generalizing b done acc l segs st with
  | zero =>
    obtain rfl : l = [] := List.eq_nil_of_length_eq_zero (by omega)
    simp only [chunksFuel, buildBatches, Plan.pure_result, Except.ok.injEq] at hOk ⊢
    subst hOk
    exact ⟨done, acc, [], by simpa using h, by simp, Plan.installs_pure _⟩
  | succ fuel ih =>
    by_cases hl : l = []
    · subst hl
      simp only [chunksFuel, List.isEmpty_nil, if_true, buildBatches, Plan.pure_result,
        Except.ok.injEq] at hOk ⊢
      subst hOk
      exact ⟨done, acc, [], by simpa using h, by simp, Plan.installs_pure _⟩
    · have hDrop := length_drop_le_fuel hl (Nat.pos_of_ne_zero hBatch) hFuel
      simp only [chunksFuel_of_ne_nil hl, buildBatches] at hOk ⊢
      rw [hAlign hl] at hOk ⊢
      obtain ⟨st₁, hSt₁, hOk₁⟩ := Plan.bind_ok.mp hOk
      obtain ⟨done₁, acc₁, new₁, hInv₁, hFiles₁, hInst₁⟩ :=
        buildShards_extends _ h (Nat.le_refl _) (by simp) hSt₁
      obtain ⟨done₂, acc₂, new₂, hInv₂, hFiles₂, hInst₂⟩ :=
        ih hInv₁ hDrop (batch_aligned (hAlign hl) hFiles₁) hOk₁
      refine ⟨done₂, acc₂, new₁ ++ new₂, by simpa using hInv₂, ?_, ?_⟩
      · rw [hFiles₂, hFiles₁, List.append_assoc, List.take_append_drop]
      · rw [newFilesOf_append]
        exact hInst₁.bind hSt₁ hInst₂

/-- A build whose batch size is 0 panics before it writes anything. -/
theorem buildSegments_of_eq_zero {read : ReadFile} {files : List CrawledFile} {base : DocId}
    {cfg : BuildConfig} {id : UInt32} (h : batchSize cfg = 0) :
    buildSegments read files base cfg id = Plan.fail .panicked := by
  rw [buildSegments, if_pos h]

theorem batchSize_ne_zero_of_ok {read : ReadFile} {files : List CrawledFile} {base : DocId}
    {cfg : BuildConfig} {id : UInt32} {r : List SegmentEntry × UInt32}
    (hOk : (buildSegments read files base cfg id).result = .ok r) : batchSize cfg ≠ 0 := by
  intro h
  rw [buildSegments_of_eq_zero h] at hOk
  exact nomatch hOk

/-- The segments built from a list of files tile it: consecutive ids from the given ones,
and in each segment the records and postings of its files alone. Nothing else is
written. -/
theorem buildSegments_tiles {read : ReadFile} {files : List CrawledFile} {base : DocId}
    {cfg : BuildConfig} {id nextId : UInt32} {entries : List SegmentEntry}
    (hOk : (buildSegments read files base cfg id).result = .ok (entries, nextId)) :
    ∃ segs, entries = segs.map Segment.entry ∧ nextId = id + UInt32.ofNat segs.length ∧
      Tiles read base id files segs ∧
      (buildSegments read files base cfg id).Installs (newFilesOf segs) := by
  have hBatch := batchSize_ne_zero_of_ok hOk
  unfold buildSegments chunks at hOk ⊢
  rw [if_neg hBatch] at hOk ⊢
  obtain ⟨st₁, hSt₁, hOk⟩ := Plan.bind_ok.mp hOk
  obtain ⟨st₂, hSt₂, hPure⟩ := Plan.bind_ok.mp hOk
  simp only [Plan.pure_result, Except.ok.injEq, Prod.mk.injEq] at hPure
  have hInit := BuildInv.start read base id
  obtain ⟨done₁, acc₁, new₁, hInv₁, hFiles₁, hInst₁⟩ :=
    buildBatches_extends hBatch _ hInit (Nat.le_refl _) (by simp) hSt₁
  simp only [List.nil_append] at hInv₁ hFiles₁
  have hLast : ∃ segs, BuildInv read base id files [] (new₁ ++ segs) st₂ ∧
      (if st₁.acc.docs.isEmpty = true then pure st₁ else st₁.flush : Plan _).Installs
        (newFilesOf segs) := by
    split at hSt₂
    · rename_i hEmpty
      simp only [Plan.pure_result, Except.ok.injEq] at hSt₂
      subst hSt₂
      have hAcc : acc₁ = [] := by
        apply List.eq_nil_of_length_eq_zero
        rw [← hInv₁.holds.length_docs]
        simpa using hEmpty
      subst hAcc
      rw [List.append_nil] at hFiles₁
      subst hFiles₁
      exact ⟨[], by simpa using hInv₁, by rw [if_pos hEmpty]; exact Plan.installs_pure _⟩
    · rename_i hNe
      have hAcc : acc₁ ≠ [] := by
        rintro rfl
        have hDocs := hInv₁.holds.length_docs
        simp [List.eq_nil_of_length_eq_zero hDocs] at hNe
      obtain ⟨s, hInv, hInst⟩ := hInv₁.flush hAcc hSt₂
      rw [hFiles₁] at hInv
      exact ⟨[s], hInv, by rw [if_neg hNe]; exact hInst⟩
  obtain ⟨segs, hInv₂, hInst₂⟩ := hLast
  refine ⟨new₁ ++ segs, by rw [← hPure.1, hInv₂.entries], by rw [← hPure.2, hInv₂.nextId],
    by simpa using hInv₂.tiles, ?_⟩
  have hEnd : newFilesOf (new₁ ++ segs) = newFilesOf new₁ ++ (newFilesOf segs ++ []) := by
    rw [newFilesOf_append, List.append_nil]
  rw [hEnd]
  exact hInst₁.bind hSt₁ (hInst₂.bind hSt₂ (Plan.installs_pure _))

-- ---------------------------------------------------------------------------
-- The number of segments
-- ---------------------------------------------------------------------------

/-- The accumulator after a flush. -/
def SegmentAcc.next (acc : SegmentAcc) : SegmentAcc :=
  SegmentAcc.new (acc.base + UInt32.ofNat acc.docs.length)

/-- How often the loop over the shards of a batch flushes, and what it leaves in memory. -/
def countShards (read : ReadFile) (cfg : BuildConfig) (first : DocId) (i : Nat)
    (acc : SegmentAcc) : List (List CrawledFile) → Nat × SegmentAcc
  | [] => (0, acc)
  | chunk :: rest =>
    let acc := acc.absorb (indexShard read
      (first + UInt32.ofNat (i * max cfg.shardSize 1)) chunk) chunk
    if acc.overBudget cfg then
      let r := countShards read cfg first (i + 1) acc.next rest
      (r.1 + 1, r.2)
    else countShards read cfg first (i + 1) acc rest

/-- How often the loop over the batches flushes. -/
def countBatches (read : ReadFile) (cfg : BuildConfig) (base : DocId) (b : Nat)
    (acc : SegmentAcc) : List (List CrawledFile) → Nat × SegmentAcc
  | [] => (0, acc)
  | batch :: rest =>
    let r := countShards read cfg (base + UInt32.ofNat (b * batchSize cfg)) 0 acc
      (chunks (max cfg.shardSize 1) batch)
    let r' := countBatches read cfg base (b + 1) r.2 rest
    (r.1 + r'.1, r'.2)

/-- The number of segments a list of files is cut into. -/
def segmentCount (read : ReadFile) (files : List CrawledFile) (base : DocId)
    (cfg : BuildConfig) : Nat :=
  let r := countBatches read cfg base 0 (SegmentAcc.new base) (chunks (batchSize cfg) files)
  r.1 + if r.2.docs.isEmpty then 0 else 1

/-- `st'` comes from `st` by `n` flushes that leave `acc`. -/
structure BuildState.Flushes (n : Nat) (acc : SegmentAcc) (st st' : BuildState) : Prop where
  acc_eq : st'.acc = acc
  nextId_eq : st'.nextId = st.nextId + UInt32.ofNat n
  length_entries : st'.entries.length = st.entries.length + n

theorem BuildState.flush_flushes {st st' : BuildState} (h : st.flush.result = .ok st') :
    Flushes 1 st.acc.next st st' := by
  unfold flush at h
  obtain ⟨e, -, hPure⟩ := Plan.bind_ok.mp h
  simp only [Plan.pure_result, Except.ok.injEq] at hPure
  subst hPure
  exact ⟨rfl, rfl, by simp⟩

omit [Platform] in
theorem BuildState.Flushes.trans {m n : Nat} {acc acc' : SegmentAcc} {st st' st'' : BuildState}
    (h : Flushes m acc st st') (h' : Flushes n acc' st' st'') :
    Flushes (m + n) acc' st st'' where
  acc_eq := h'.acc_eq
  nextId_eq := by rw [h'.nextId_eq, h.nextId_eq, add_ofNat_add]
  length_entries := by rw [h'.length_entries, h.length_entries, Nat.add_assoc]

theorem buildShards_flushes {read : ReadFile} {cfg : BuildConfig} {first : DocId} {i : Nat}
    {st st' : BuildState} {cs : List (List CrawledFile)}
    (h : (buildShards read cfg first i st cs).result = .ok st') :
    BuildState.Flushes (countShards read cfg first i st.acc cs).1
      (countShards read cfg first i st.acc cs).2 st st' := by
  induction cs generalizing i st with
  | nil =>
    simp only [buildShards, Plan.pure_result, Except.ok.injEq] at h
    subst h
    exact ⟨rfl, by simp [countShards], rfl⟩
  | cons chunk cs ih =>
    simp only [buildShards, countShards] at h ⊢
    obtain ⟨st₁, hSt₁, h⟩ := Plan.bind_ok.mp h
    split at hSt₁
    · rename_i hOver
      have hFlush := BuildState.flush_flushes hSt₁
      have hRest := ih h
      rw [hFlush.acc_eq] at hRest
      rw [if_pos hOver, Nat.add_comm]
      obtain ⟨hAcc, hId, hLen⟩ := hFlush.trans hRest
      exact ⟨hAcc, hId, hLen⟩
    · rename_i hOver
      simp only [Plan.pure_result, Except.ok.injEq] at hSt₁
      subst hSt₁
      rw [if_neg hOver]
      obtain ⟨hAcc, hId, hLen⟩ := ih h
      exact ⟨hAcc, hId, hLen⟩

theorem buildBatches_flushes {read : ReadFile} {cfg : BuildConfig} {base : DocId} {b : Nat}
    {st st' : BuildState} {bs : List (List CrawledFile)}
    (h : (buildBatches read cfg base b st bs).result = .ok st') :
    BuildState.Flushes (countBatches read cfg base b st.acc bs).1
      (countBatches read cfg base b st.acc bs).2 st st' := by
  induction bs generalizing b st with
  | nil =>
    simp only [buildBatches, Plan.pure_result, Except.ok.injEq] at h
    subst h
    exact ⟨rfl, by simp [countBatches], rfl⟩
  | cons batch bs ih =>
    simp only [buildBatches, countBatches] at h ⊢
    obtain ⟨st₁, hSt₁, h⟩ := Plan.bind_ok.mp h
    have hShards := buildShards_flushes hSt₁
    have hRest := ih h
    rw [hShards.acc_eq] at hRest
    exact hShards.trans hRest

/-- A build writes as many segments as the files are cut into. -/
theorem buildSegments_count {read : ReadFile} {files : List CrawledFile} {base : DocId}
    {cfg : BuildConfig} {id nextId : UInt32} {entries : List SegmentEntry}
    (h : (buildSegments read files base cfg id).result = .ok (entries, nextId)) :
    entries.length = segmentCount read files base cfg := by
  have hBatch := batchSize_ne_zero_of_ok h
  unfold buildSegments at h
  rw [if_neg hBatch] at h
  obtain ⟨st₁, hSt₁, h⟩ := Plan.bind_ok.mp h
  obtain ⟨st₂, hSt₂, hPure⟩ := Plan.bind_ok.mp h
  simp only [Plan.pure_result, Except.ok.injEq, Prod.mk.injEq] at hPure
  have hBatches := buildBatches_flushes hSt₁
  have hAcc := hBatches.acc_eq
  have hCount : segmentCount read files base cfg = st₁.entries.length +
      if st₁.acc.docs.isEmpty then 0 else 1 := by
    rw [hAcc, hBatches.length_entries]
    simp [segmentCount]
  rw [← hPure.1, hCount]
  split at hSt₂
  · rename_i hEmpty
    simp only [Plan.pure_result, Except.ok.injEq] at hSt₂
    rw [if_pos hEmpty, ← hSt₂]
    rfl
  · rename_i hEmpty
    rw [if_neg hEmpty, (BuildState.flush_flushes hSt₂).length_entries]

/-- What holds of the operations of every flush of a loop holds of its operations. -/
theorem buildShards_all {P : FileStep → Prop} {read : ReadFile} {cfg : BuildConfig}
    {first : DocId} {i : Nat} {st : BuildState} {cs : List (List CrawledFile)}
    (h : ∀ j < (countShards read cfg first i st.acc cs).1, ∀ acc,
      (flushSegment (st.nextId + UInt32.ofNat j) acc).All P) :
    (buildShards read cfg first i st cs).All P := by
  induction cs generalizing i st with
  | nil => exact Plan.all_pure _
  | cons chunk cs ih =>
    simp only [buildShards, countShards] at h ⊢
    split
    · rename_i hOver
      rw [if_pos hOver] at h
      have hFlush : ∀ acc, (flushSegment st.nextId acc).All P := by
        simpa using h 0 (Nat.succ_pos _)
      refine ((hFlush _).bind fun _ _ => Plan.all_pure _).bind fun st₁ hSt₁ => ih fun j hj => ?_
      obtain ⟨hAcc, hId, -⟩ := BuildState.flush_flushes hSt₁
      rw [hAcc] at hj
      rw [hId, add_ofNat_add, Nat.add_comm]
      exact h (j + 1) (Nat.succ_lt_succ hj)
    · rename_i hOver
      rw [if_neg hOver] at h
      refine (Plan.all_pure _).bind fun st₁ hSt₁ => ?_
      simp only [Plan.pure_result, Except.ok.injEq] at hSt₁
      subst hSt₁
      exact ih h

theorem buildBatches_all {P : FileStep → Prop} {read : ReadFile} {cfg : BuildConfig}
    {base : DocId} {b : Nat} {st : BuildState} {bs : List (List CrawledFile)}
    (h : ∀ j < (countBatches read cfg base b st.acc bs).1, ∀ acc,
      (flushSegment (st.nextId + UInt32.ofNat j) acc).All P) :
    (buildBatches read cfg base b st bs).All P := by
  induction bs generalizing b st with
  | nil => exact Plan.all_pure _
  | cons batch bs ih =>
    simp only [buildBatches, countBatches] at h ⊢
    refine (buildShards_all fun j hj => h j (by omega)).bind fun st₁ hSt₁ =>
      ih fun j hj => ?_
    obtain ⟨hAcc, hId, -⟩ := buildShards_flushes hSt₁
    rw [hAcc] at hj
    rw [hId, add_ofNat_add]
    exact h _ (by omega)

/-- What holds of the operations of every flush holds of the operations of a build,
whether it succeeds or not. -/
theorem buildSegments_all {P : FileStep → Prop} {read : ReadFile} {files : List CrawledFile}
    {base : DocId} {cfg : BuildConfig} {id : UInt32}
    (h : ∀ j < segmentCount read files base cfg, ∀ acc,
      (flushSegment (id + UInt32.ofNat j) acc).All P) :
    (buildSegments read files base cfg id).All P := by
  unfold segmentCount at h
  unfold buildSegments
  split
  · exact Plan.all_fail _
  refine (buildBatches_all fun j hj => h j (Nat.lt_add_right _ hj)).bind fun st₁ hSt₁ => ?_
  obtain ⟨hAcc, hId, -⟩ := buildBatches_flushes hSt₁
  refine Plan.All.bind ?_ fun _ _ => Plan.all_pure _
  split
  · exact Plan.all_pure _
  · rename_i hEmpty
    refine Plan.All.bind ?_ fun _ _ => Plan.all_pure _
    rw [hId]
    apply h
    rw [hAcc] at hEmpty
    simp only [hEmpty, Bool.false_eq_true, if_false]
    omega

end Ripindex
