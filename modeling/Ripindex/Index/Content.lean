import Mathlib.Data.List.Induction
import Ripindex.Index.Builder

/-!
# What indexing records

The content of an index, file by file: `recorded` is the metadata a crawled file gets,
`docPositions` the positions of a term in it. Both depend on the file alone, not on the
shard or the segment it is indexed in.

## Results

* `indexShard_list` — the postings of a shard are those of its files, in order.
-/

namespace Ripindex

-- ---------------------------------------------------------------------------
-- Posting lists
-- ---------------------------------------------------------------------------

/-- Record a position behind others; a repeat of the last one is dropped. -/
def addPosition (ps : List Position) (p : Position) : List Position :=
  if ps.getLast? = some p then ps else ps ++ [p]

/-- The posting of one document, none for a document without positions. -/
def posting (doc : DocId) (ps : List Position) : List Posting :=
  if ps = [] then [] else [⟨doc, ps⟩]

@[simp] theorem posting_nil (doc : DocId) : posting doc [] = [] := rfl

theorem posting_of_ne_nil {doc : DocId} {ps : List Position} (h : ps ≠ []) :
    posting doc ps = [⟨doc, ps⟩] := if_neg h

theorem addPosition_ne_nil (ps : List Position) (p : Position) : addPosition ps p ≠ [] := by
  unfold addPosition
  split
  · rintro rfl
    simp_all
  · simp

/-- No posting of the list is the last one and belongs to `doc`. -/
def LastNe (l : MemPostingList) (doc : DocId) : Prop :=
  ∀ q ∈ l.getLast?, q.doc ≠ doc

theorem push_append_same (l : MemPostingList) (doc : DocId) (ps : List Position)
    (p : Position) :
    MemPostingList.push (l ++ [⟨doc, ps⟩]) doc p = l ++ [⟨doc, addPosition ps p⟩] := by
  induction l with
  | nil =>
    simp only [List.nil_append, MemPostingList.push, if_true, addPosition]
    split <;> rfl
  | cons q l ih =>
    rcases l with _ | ⟨r, l⟩
    · simpa [MemPostingList.push] using ih
    · simpa [MemPostingList.push] using ih

theorem push_append_new {l : MemPostingList} {doc : DocId} (h : LastNe l doc)
    (p : Position) : MemPostingList.push l doc p = l ++ [⟨doc, [p]⟩] := by
  induction l with
  | nil => rfl
  | cons q l ih =>
    rcases l with _ | ⟨r, l⟩
    · have hq : q.doc ≠ doc := h q (by simp)
      simp [MemPostingList.push, hq]
    · have := ih (by simpa [LastNe] using h)
      simpa [MemPostingList.push] using this

/-- Pushing a position of a document that comes last extends its posting. -/
theorem push_posting {l : MemPostingList} {doc : DocId} (h : LastNe l doc)
    (ps : List Position) (p : Position) :
    MemPostingList.push (l ++ posting doc ps) doc p = l ++ posting doc (addPosition ps p) := by
  by_cases hps : ps = []
  · subst hps
    have hOne : addPosition [] p = [p] := rfl
    rw [hOne, posting_nil, List.append_nil, push_append_new h, posting_of_ne_nil (by simp)]
  · rw [posting_of_ne_nil hps, posting_of_ne_nil (addPosition_ne_nil ps p), push_append_same]

-- ---------------------------------------------------------------------------
-- Term maps
-- ---------------------------------------------------------------------------

namespace TermMap

@[simp] theorem list_empty (t : String) : list ∅ t = [] := by
  simp [list]

theorem list_insert (terms : TermMap) (term t : String) (l : MemPostingList) :
    list (terms.insert term l) t = if t = term then l else terms.list t := by
  unfold list
  split
  · rename_i h
    subst h
    simp
  · rename_i h
    rw [AList.lookup_insert_ne h]

theorem list_push (terms : TermMap) (term t : String) (doc : DocId) (p : Position) :
    list (terms.push term doc p) t =
      if t = term then (terms.list t).push doc p else terms.list t := by
  unfold push
  rw [list_insert]
  split
  · rename_i h
    rw [h]
  · rfl

theorem list_foldl_append (entries : List (Sigma fun _ : String => MemPostingList))
    (hNodup : (entries.map Sigma.fst).Nodup) (store : TermMap) (t : String) :
    list (entries.foldl (fun acc e => acc.insert e.1 (acc.list e.1 ++ e.2)) store) t =
      store.list t ++ (entries.dlookup t).getD [] := by
  induction entries generalizing store with
  | nil => simp
  | cons e entries ih =>
    obtain ⟨hNot, hRest⟩ := List.nodup_cons.mp hNodup
    rw [List.foldl_cons, ih hRest, list_insert]
    by_cases h : t = e.1
    · subst h
      have hNone : entries.dlookup e.1 = none := by
        rw [List.dlookup_eq_none]
        exact hNot
      rw [if_pos rfl, hNone, List.dlookup_cons_eq]
      simp
    · rw [if_neg h, List.dlookup_cons_ne]
      exact h

/-- Folding a shard in appends its list to each term's. -/
theorem list_mergeShard (store shard : TermMap) (t : String) :
    list (store.mergeShard shard) t = store.list t ++ shard.list t := by
  unfold mergeShard
  split
  · rename_i hKeys
    have hEmpty : store.list t = [] := by
      have hNone : store.lookup t = none := by
        rw [AList.lookup_eq_none, AList.mem_keys, hKeys]
        simp
      simp [list, hNone]
    rw [hEmpty, List.nil_append]
  · rw [list_foldl_append _ shard.nodupKeys]
    rfl

end TermMap

-- ---------------------------------------------------------------------------
-- Files
-- ---------------------------------------------------------------------------

/-- Positions of a term among tokens, as a posting holds them. -/
def termPositions (tokens : List Token) (t : String) : List Position :=
  tokens.foldl (fun ps tok => if tok.term = t then addPosition ps tok.position else ps) []

section

variable [Platform]

omit [Platform] in
theorem foldl_push_list (doc : DocId) (t : String) {l : MemPostingList}
    (hLast : LastNe l doc) (tokens : List Token) {terms : TermMap} {ps : List Position}
    (h : terms.list t = l ++ posting doc ps) :
    (pushTokens doc terms tokens).list t = l ++ posting doc
      (tokens.foldl (fun ps tok => if tok.term = t then addPosition ps tok.position else ps)
        ps) := by
  induction tokens generalizing terms ps with
  | nil => exact h
  | cons tok tokens ih =>
    apply ih
    rw [TermMap.list_push]
    by_cases hTok : tok.term = t
    · simp only [hTok, if_true, h, push_posting hLast]
    · simp only [hTok, Ne.symm hTok, if_false, h]

omit [Platform] in
/-- Recording a document behind others appends one posting to the list of each of its
terms. -/
theorem pushTokens_list {doc : DocId} {terms : TermMap} {t : String}
    (hLast : LastNe (terms.list t) doc) (tokens : List Token) :
    (pushTokens doc terms tokens).list t =
      terms.list t ++ posting doc (termPositions tokens t) :=
  foldl_push_list doc t hLast tokens (by simp)

/-- The text of a file that reads and decodes, with its bytes. -/
def fileText (read : ReadFile) (cf : CrawledFile) : Option (ByteArray × String) :=
  match cf.kind, read cf.entry.path with
  | .text, .ok bytes => (decodeText bytes).map (bytes, ·)
  | _, _ => none

/-- The metadata a build records for a crawled file. -/
def recorded (read : ReadFile) (cf : CrawledFile) : DocMeta :=
  let m := DocMeta.fromEntry cf.entry
  match cf.kind with
  | .binary => { m with status := .binary }
  | .tooLarge => { m with status := .tooLarge }
  | .text =>
    match read cf.entry.path with
    | .ok bytes =>
      match decodeText bytes with
      | some text =>
        { m with
          status := .indexed
          len := atomCount (tokenize text)
          contentHash := hashBytes bytes }
      | none => { m with contentHash := hashBytes bytes }
    | .error _ => m

/-- Positions of a term in a crawled file, empty for a file that is not indexed. -/
def docPositions (read : ReadFile) (cf : CrawledFile) (t : String) : List Position :=
  match fileText read cf with
  | some (_, text) => termPositions (tokenize text) t
  | none => []

/-- The postings of consecutive documents from `doc` on. -/
def docPostings (read : ReadFile) (t : String) (doc : DocId) :
    List CrawledFile → List Posting
  | [] => []
  | cf :: files =>
    posting doc (docPositions read cf t) ++ docPostings read t (doc + 1) files

theorem docPostings_append (read : ReadFile) (t : String) (doc : DocId)
    (files files' : List CrawledFile) :
    docPostings read t doc (files ++ files') =
      docPostings read t doc files ++
        docPostings read t (doc + UInt32.ofNat files.length) files' := by
  induction files generalizing doc with
  | nil => simp [docPostings]
  | cons cf files ih =>
    have hAdd : doc + 1 + UInt32.ofNat files.length =
        doc + UInt32.ofNat (files.length + 1) := by
      rw [UInt32.ofNat_add, UInt32.add_assoc, UInt32.add_comm 1]
      rfl
    simp only [List.cons_append, docPostings, ih, List.append_assoc, List.length_cons, hAdd]

omit [Platform] in
theorem mem_posting {doc : DocId} {ps : List Position} {q : Posting}
    (h : q ∈ posting doc ps) : q.doc = doc := by
  unfold posting at h
  split at h
  · simp at h
  · simp only [List.mem_singleton] at h
    rw [h]

theorem mem_docPostings {read : ReadFile} {t : String} {doc : DocId}
    {files : List CrawledFile} {q : Posting} (h : q ∈ docPostings read t doc files) :
    ∃ i < files.length, q.doc = doc + UInt32.ofNat i := by
  induction files generalizing doc with
  | nil => simp [docPostings] at h
  | cons cf files ih =>
    rcases List.mem_append.mp h with hq | hq
    · exact ⟨0, by simp, by simp [mem_posting hq]⟩
    · obtain ⟨i, hi, hDoc⟩ := ih hq
      refine ⟨i + 1, by simpa using hi, ?_⟩
      rw [hDoc, UInt32.ofNat_add, UInt32.add_assoc, UInt32.add_comm 1]
      rfl

omit [Platform] in
/-- Global ids do not wrap onto each other within `2^32` documents. -/
theorem add_ofNat_inj {a : DocId} {i j : Nat} (hi : i < 2 ^ 32) (hj : j < 2 ^ 32)
    (h : a + UInt32.ofNat i = a + UInt32.ofNat j) : i = j := by
  have h' : UInt32.ofNat i = UInt32.ofNat j := by
    have := congrArg (fun x => x - a) h
    simpa [UInt32.add_comm a, UInt32.add_sub_cancel] using this
  have := congrArg UInt32.toNat h'
  rwa [UInt32.toNat_ofNat_of_lt' hi, UInt32.toNat_ofNat_of_lt' hj] at this

/-- The document behind the last of a run is not the last of the run. -/
theorem lastNe_docPostings (read : ReadFile) (t : String) (doc : DocId)
    (files : List CrawledFile) (hLen : files.length < 2 ^ 32) :
    LastNe (docPostings read t doc files) (doc + UInt32.ofNat files.length) := by
  intro q hq hEq
  obtain ⟨i, hi, hDoc⟩ := mem_docPostings (List.mem_of_getLast? hq)
  have := add_ofNat_inj (by omega) hLen (hDoc.symm.trans hEq)
  omega

/-- The terms of a shard after one more file. -/
theorem addFile_list {read : ReadFile} {shard : Shard} {doc : DocId} {cf : CrawledFile}
    {t : String} (hLast : LastNe (shard.terms.list t) doc) :
    (shard.addFile read doc cf).terms.list t =
      shard.terms.list t ++ posting doc (docPositions read cf t) := by
  unfold Shard.addFile docPositions fileText
  rcases cf.kind with _ | _ | _
  · rcases read cf.entry.path with e | bytes
    · simp
    · rcases hText : decodeText bytes with _ | text
      · simp [hText]
      · simpa [hText, indexDocument] using pushTokens_list hLast (tokenize text)
  · simp
  · simp

theorem indexFilesFrom_append (read : ReadFile) (i : Nat) (shard : Shard)
    (files files' : List CrawledFile) :
    indexFilesFrom read i shard (files ++ files') =
      indexFilesFrom read (i + files.length) (indexFilesFrom read i shard files) files' := by
  induction files generalizing i shard with
  | nil => rfl
  | cons cf files ih =>
    simp only [List.cons_append, indexFilesFrom, ih, List.length_cons]
    congr 1
    omega

theorem addFile_firstDoc (read : ReadFile) (s : Shard) (doc : DocId) (cf : CrawledFile) :
    (s.addFile read doc cf).firstDoc = s.firstDoc := by
  unfold Shard.addFile
  split
  · rfl
  · rfl
  · split
    · split <;> rfl
    · rfl

theorem indexFilesFrom_firstDoc (read : ReadFile) (i : Nat) (s : Shard)
    (files : List CrawledFile) : (indexFilesFrom read i s files).firstDoc = s.firstDoc := by
  induction files generalizing i s with
  | nil => rfl
  | cons cf files ih => rw [indexFilesFrom, ih, addFile_firstDoc]

/-- The shard of one more file. -/
theorem indexShard_snoc (read : ReadFile) (first : DocId) (files : List CrawledFile)
    (cf : CrawledFile) :
    indexShard read first (files ++ [cf]) =
      (indexShard read first files).addFile read (first + UInt32.ofNat files.length) cf := by
  unfold indexShard
  rw [indexFilesFrom_append]
  simp only [indexFilesFrom, Nat.zero_add, indexFilesFrom_firstDoc]

/-- The postings of a shard are those of its files, in order. -/
theorem indexShard_list (read : ReadFile) (first : DocId) (files : List CrawledFile)
    (t : String) (hLen : files.length ≤ 2 ^ 32) :
    (indexShard read first files).terms.list t = docPostings read t first files := by
  induction files using List.reverseRecOn with
  | nil => simp [indexShard, indexFilesFrom, docPostings]
  | append_singleton files cf ih =>
    rw [List.length_append, List.length_singleton] at hLen
    have ih := ih (by omega)
    have hLast := lastNe_docPostings read t first files (by omega)
    rw [indexShard_snoc, addFile_list (by rw [ih]; exact hLast), ih, docPostings_append]
    simp [docPostings]

end

end Ripindex
