import Ripindex.Store.Rows

/-!
# What an update converges to

`reconcile` decides for every crawled file whether a recorded document stands for it, and the
plan it makes is carried out by tombstones, patches and new segments. When every file reads
and neither metadata nor hashes deceive, the documents of the updated index are those of the
crawl, each with what a build records of it, unless a document is patched away from a file that
needs it: the source of a rename is looked up by its inode, whether or not its path is crawled
as well, as it is where there are hard links.

The turns of the loop are described by verdicts. A document is the source of at most two of
them, one for the file at its path and one for a file it is taken to be renamed to; the three
ways in which the plan acts meet in one document only when both say that it goes.

## Results

* `reconcileFile_turn`, `foldl_turns` — one turn, and the loop;
* `rows_converged_iff`                — the rows after the plan;
* `separate_iff`                      — when no document is needed twice;
* `rows_updateChanges_iff`            — the rows after the plan of an update.
-/

namespace Ripindex

-- ---------------------------------------------------------------------------
-- What is recorded of a file
-- ---------------------------------------------------------------------------

/-- What a row says of the content of a document, whatever its path and times. -/
structure DocBody where
  status : DocStatus
  len : UInt32
  contentHash : UInt64
  positions : String → List Position

def DocRow.body (r : DocRow) : DocBody :=
  ⟨r.record.status, r.record.len, r.record.contentHash, r.positions⟩

/-- A row stands for a file as far as metadata goes. -/
structure DocRow.SameMeta (r : DocRow) (cf : CrawledFile) : Prop where
  inode : r.record.inode = cf.entry.inode
  mtime : r.record.mtime = cf.entry.mtime
  size : r.record.size = cf.entry.size

section Files

variable [Platform]

/-- What a build records of a file with this content. -/
def bodyOf (kind : FileKind) (content : ByteArray) : DocBody :=
  (rowOf (fun _ => .ok content) ⟨⟨"", 0, 0, 0⟩, kind⟩).body

theorem body_rowOf {read : ReadFile} {cf : CrawledFile} {content : ByteArray}
    (hRead : cf.kind = .text → read cf.entry.path = .ok content) :
    (rowOf read cf).body = bodyOf cf.kind content := by
  obtain ⟨e, kind⟩ := cf
  rcases kind with _ | _ | _
  · have hRead : read e.path = .ok content := hRead rfl
    cases hText : decodeText content <;>
      simp [rowOf, bodyOf, DocRow.body, recorded, docPositions, fileText, DocMeta.fromEntry, hRead,
        hText]
  · rfl
  · rfl

theorem entry_recorded (read : ReadFile) (cf : CrawledFile) :
    (recorded read cf).path = cf.entry.path ∧ (recorded read cf).inode = cf.entry.inode ∧
      (recorded read cf).mtime = cf.entry.mtime ∧ (recorded read cf).size = cf.entry.size := by
  unfold recorded
  rcases cf.kind with _ | _ | _
  · rcases read cf.entry.path with e | bytes
    · exact ⟨rfl, rfl, rfl, rfl⟩
    · cases hText : decodeText bytes <;> simp [hText, DocMeta.fromEntry]
  · exact ⟨rfl, rfl, rfl, rfl⟩
  · exact ⟨rfl, rfl, rfl, rfl⟩

/-- A row is that of a file when path, metadata and body are. -/
theorem eq_rowOf {r : DocRow} {read : ReadFile} {cf : CrawledFile}
    (hPath : r.record.path = cf.entry.path) (hMeta : r.SameMeta cf)
    (hBody : r.body = (rowOf read cf).body) : r = rowOf read cf := by
  obtain ⟨hPath', hInode, hMtime, hSize⟩ := entry_recorded read cf
  obtain ⟨⟨path, inode, mtime, size, len, status, hash⟩, positions⟩ := r
  obtain rfl : path = cf.entry.path := hPath
  obtain rfl : inode = cf.entry.inode := hMeta.inode
  obtain rfl : mtime = cf.entry.mtime := hMeta.mtime
  obtain rfl : size = cf.entry.size := hMeta.size
  simp only [DocRow.body, DocBody.mk.injEq] at hBody
  obtain ⟨hStatus, hLen, hHash, hPositions⟩ := hBody
  have hRow : rowOf read cf = ⟨recorded read cf, (rowOf read cf).positions⟩ := rfl
  rw [hRow, ← hPositions, DocRow.mk.injEq]
  refine ⟨?_, rfl⟩
  rcases hRec : recorded read cf with ⟨path', inode', mtime', size', len', status', hash'⟩
  rw [hRow, hRec] at hStatus hLen hHash
  rw [hRec] at hPath' hInode hMtime hSize
  simp only at hPath' hInode hMtime hSize hStatus hLen hHash
  rw [hPath', hInode, hMtime, hSize, hStatus, hLen, hHash]

/-- Files of other kinds than text have no hash to compare. -/
theorem wasRead_bodyOf {kind : FileKind} {content : ByteArray}
    (h : (bodyOf kind content).status.wasRead = true) :
    kind = .text ∧ (bodyOf kind content).contentHash = hashBytes content := by
  rcases kind with _ | _ | _
  · refine ⟨rfl, ?_⟩
    cases hText : decodeText content <;> simp [bodyOf, DocRow.body, rowOf, recorded, hText]
  · cases h
  · cases h

end Files

-- ---------------------------------------------------------------------------
-- The recorded state
-- ---------------------------------------------------------------------------

/-- Documents and their records, as `docs` lists them. -/
def recordsOf (rows : List (DocId × DocRow)) : List (DocId × DocMeta) :=
  rows.map fun e => (e.1, e.2.record)

/-- The recorded state of a row. -/
def stateOf (e : DocId × DocRow) : FileState where
  docId := e.1
  inode := e.2.record.inode
  mtime := e.2.record.mtime
  size := e.2.record.size
  contentHash := e.2.record.contentHash
  status := e.2.record.status

/-- No two rows share an id or a path. -/
structure Distinct (rows : List (DocId × DocRow)) : Prop where
  ids : (rows.map Prod.fst).Nodup
  paths : (rows.map fun e => e.2.record.path).Nodup

section Records

variable {rows : List (DocId × DocRow)}

theorem Distinct.eq_of_id (h : Distinct rows) {e e' : DocId × DocRow} (he : e ∈ rows)
    (he' : e' ∈ rows) (hEq : e.1 = e'.1) : e = e' :=
  List.inj_on_of_nodup_map h.ids he he' hEq

theorem Distinct.eq_of_path (h : Distinct rows) {e e' : DocId × DocRow} (he : e ∈ rows)
    (he' : e' ∈ rows) (hEq : e.2.record.path = e'.2.record.path) : e = e' :=
  List.inj_on_of_nodup_map h.paths he he' hEq

namespace StateIndex

/-- The recorded path that is looked at for a file at a new path. -/
def candidate (prev : StateIndex) (cf : CrawledFile) : Option String :=
  if (prev.byPath.lookup cf.entry.path).isSome ∨ cf.entry.inode = 0 then none
  else prev.byInode.lookup cf.entry.inode

/-- The file that a document at this path is taken to be renamed to, the first of the crawl. -/
def renamer (prev : StateIndex) (files : List CrawledFile) (path : String) :
    Option CrawledFile :=
  files.find? fun cf => prev.candidate cf = some path

theorem mem_of_renamer {prev : StateIndex} {files : List CrawledFile} {path : String}
    {cf : CrawledFile} (h : prev.renamer files path = some cf) :
    cf ∈ files ∧ prev.candidate cf = some path :=
  ⟨List.mem_of_find?_eq_some h, by simpa using List.find?_some h⟩

/-- What `from_docs` has read so far. -/
structure Indexes (st : StateIndex) (rows : List (DocId × DocRow)) : Prop where
  byPath : ∀ path state, st.byPath.lookup path = some state ↔
    ∃ e ∈ rows, e.2.record.path = path ∧ state = stateOf e
  byInode : ∀ inode path, st.byInode.lookup inode = some path →
    ∃ e ∈ rows, e.2.record.path = path ∧ e.2.record.inode = inode

theorem indexes_add {st : StateIndex} (h : st.Indexes rows) {e : DocId × DocRow}
    (hNew : ∀ e' ∈ rows, e'.2.record.path ≠ e.2.record.path) :
    (st.add (e.1, e.2.record)).Indexes (rows ++ [e]) := by
  refine ⟨fun path state => ?_, fun inode path hLookup => ?_⟩
  · unfold add
    by_cases hPath : path = e.2.record.path
    · subst hPath
      rw [AList.lookup_insert, Option.some.injEq]
      constructor
      · intro hState
        exact ⟨e, List.mem_append_right _ (List.mem_singleton_self _), rfl, hState.symm⟩
      · intro hRow
        obtain ⟨e', he', hPath', rfl⟩ := hRow
        rcases List.mem_append.mp he' with he' | he'
        · exact absurd hPath' (hNew e' he')
        · rw [List.mem_singleton.mp he']
          rfl
    · rw [AList.lookup_insert_ne hPath, h.byPath]
      constructor
      · intro hRow
        obtain ⟨e', he', hRow⟩ := hRow
        exact ⟨e', List.mem_append_left _ he', hRow⟩
      · intro hRow
        obtain ⟨e', he', hPath', hState⟩ := hRow
        rcases List.mem_append.mp he' with he' | he'
        · exact ⟨e', he', hPath', hState⟩
        · rw [List.mem_singleton.mp he'] at hPath'
          exact absurd hPath'.symm hPath
  · have hOld : st.byInode.lookup inode = some path →
        ∃ e' ∈ rows ++ [e], e'.2.record.path = path ∧ e'.2.record.inode = inode := by
      intro hSome
      obtain ⟨e', he', hRow⟩ := h.byInode inode path hSome
      exact ⟨e', List.mem_append_left _ he', hRow⟩
    unfold add at hLookup
    simp only at hLookup
    split_ifs at hLookup with hZero
    · by_cases hInode : inode = e.2.record.inode
      · subst hInode
        rw [AList.lookup_insert] at hLookup
        exact ⟨e, List.mem_append_right _ (List.mem_singleton_self _), Option.some.inj hLookup, rfl⟩
      · rw [AList.lookup_insert_ne hInode] at hLookup
        exact hOld hLookup
    · exact hOld hLookup

/-- A candidate is recorded, and the file is at a new path with its inode. -/
theorem Indexes.of_candidate {prev : StateIndex} (h : prev.Indexes rows) {cf : CrawledFile}
    {path : String} (hPath : prev.candidate cf = some path) :
    (∀ e ∈ rows, e.2.record.path ≠ cf.entry.path) ∧
      ∃ e ∈ rows, e.2.record.path = path ∧ e.2.record.inode = cf.entry.inode := by
  unfold candidate at hPath
  split_ifs at hPath with hNot
  refine ⟨fun e he hEq => hNot (.inl ?_), h.byInode _ _ hPath⟩
  rw [(h.byPath _ _).mpr ⟨e, he, hEq, rfl⟩]
  rfl

theorem indexes_fromDocs (h : Distinct rows) : (fromDocs (recordsOf rows)).Indexes rows := by
  have hFold : ∀ done rest, done ++ rest = rows → ∀ st : StateIndex, st.Indexes done →
      ((recordsOf rest).foldl add st).Indexes rows := by
    intro done rest
    induction rest generalizing done with
    | nil =>
      intro hSplit st hSt
      rw [List.append_nil] at hSplit
      exact hSplit ▸ hSt
    | cons e rest ih =>
      intro hSplit st hSt
      refine ih (done ++ [e]) (by rw [List.append_assoc]; exact hSplit) _ (indexes_add hSt ?_)
      intro e' he'
      have hPaths := h.paths
      rw [← hSplit, List.map_append] at hPaths
      have hDisjoint := List.disjoint_of_nodup_append hPaths
      exact fun hEq => hDisjoint (List.mem_map_of_mem he')
        (hEq ▸ List.mem_map_of_mem List.mem_cons_self)
  refine hFold [] rows rfl _ ⟨fun path state => ?_, fun inode path hLookup => ?_⟩
  · simp [empty]
  · simp [empty] at hLookup

end StateIndex

end Records

-- ---------------------------------------------------------------------------
-- Verdicts
-- ---------------------------------------------------------------------------

/-- What a turn of `reconcile` decides about a file. -/
inductive Verdict
  /-- The document stands for the file as it is. -/
  | keep (e : DocId × DocRow)
  /-- It stands for the file after a patch. -/
  | patch (e : DocId × DocRow)
  /-- It goes, and the file is indexed anew. -/
  | replace (e : DocId × DocRow) (bytes : Option ByteArray)
  /-- The file is new. -/
  | fresh

namespace Verdict

/-- The document the verdict is about. -/
def source : Verdict → Option (DocId × DocRow)
  | keep e | patch e | replace e _ => some e
  | fresh => none

/-- The document that stands for the file. -/
def kept : Verdict → Option (DocId × DocRow)
  | keep e | patch e => some e
  | replace _ _ | fresh => none

theorem kept_or_replace {v : Verdict} {e : DocId × DocRow} (h : v.source = some e) :
    v.kept = some e ∨ ∃ bytes, v = .replace e bytes := by
  cases v with
  | keep _ => exact .inl h
  | patch _ => exact .inl h
  | replace e' bytes => exact .inr ⟨bytes, by rw [Option.some.inj h]⟩
  | fresh => cases h

theorem source_of_kept {v : Verdict} {e : DocId × DocRow} (h : v.kept = some e) :
    v.source = some e := by
  cases v with
  | keep _ => exact h
  | patch _ => exact h
  | replace _ _ => cases h
  | fresh => cases h

def changes (cf : CrawledFile) : Verdict → List Change
  | keep _ => []
  | patch e => [patchOf e.1 cf]
  | replace e bytes => [.delete e.1, .reindex cf bytes]
  | fresh => [.reindex cf none]

end Verdict

section Turns

variable [Platform] {rows : List (DocId × DocRow)} {read : ReadFile} {prev : StateIndex}

/-- Neither metadata nor a hash tells that the document stands for the file. -/
structure Renewed (read : ReadFile) (e : DocId × DocRow) (cf : CrawledFile) : Prop where
  metadata : ¬ e.2.SameMeta cf
  content : canConfirm (stateOf e) cf = true → ∀ bytes, read cf.entry.path = .ok bytes →
    hashBytes bytes ≠ e.2.record.contentHash

theorem Renewed.of_hash {e : DocId × DocRow} {cf : CrawledFile} {bytes : ByteArray}
    (hMeta : ¬ e.2.SameMeta cf) (hBytes : read cf.entry.path = .ok bytes)
    (hHash : hashBytes bytes ≠ e.2.record.contentHash) : Renewed read e cf := by
  refine ⟨hMeta, fun _ bytes' hBytes' => ?_⟩
  rwa [← Except.ok.inj (hBytes.symm.trans hBytes')]

/-- What one turn with this verdict makes of the state. -/
structure Turned (rows : List (DocId × DocRow)) (prev : StateIndex) (read : ReadFile)
    (cf : CrawledFile) (st st' : ReconcileState) (v : Verdict) : Prop where
  changes : st'.plan.changes = st.plan.changes ++ v.changes cf
  seen : st'.seen = cf.entry.path :: st.seen
  /-- The document was at the path of the file, or at another one where it is not looked for
  again. -/
  source : ∀ e ∈ v.source, e ∈ rows ∧
    ((e.2.record.path = cf.entry.path ∧ st'.consumedOld = st.consumedOld) ∨
      (e.2.record.path ∉ st.consumedOld ∧ prev.candidate cf = some e.2.record.path ∧
        (∀ e' ∈ rows, e'.2.record.path ≠ cf.entry.path) ∧
        st'.consumedOld = e.2.record.path :: st.consumedOld))
  new : v.source = none → st'.consumedOld = st.consumedOld ∧
    (∀ e ∈ rows, e.2.record.path ≠ cf.entry.path) ∧
      ∀ path, prev.candidate cf = some path → path ∈ st.consumedOld
  keep : ∀ e, v = .keep e → e.2.record.path = cf.entry.path ∧ e.2.SameMeta cf
  patch : ∀ e, v = .patch e → e.2.SameMeta cf ∨
    cf.kind = .text ∧ e.2.record.status.wasRead = true ∧
      ∃ bytes, read cf.entry.path = .ok bytes ∧ hashBytes bytes = e.2.record.contentHash
  replace : ∀ e bytes, v = .replace e bytes → Renewed read e cf

/-- A file at a recorded path. -/
theorem reconcileKnown_turn {cf : CrawledFile} {e : DocId × DocRow} (he : e ∈ rows)
    (hPath : e.2.record.path = cf.entry.path)
    (hRead : cf.kind = .text → ∃ bytes, read cf.entry.path = .ok bytes) (st : ReconcileState) :
    ∃ v, Turned rows prev read cf st (reconcileKnown read st cf (stateOf e)) v := by
  have hSource : ∀ e' ∈ some e, e' ∈ rows ∧ ((e'.2.record.path = cf.entry.path ∧
      st.consumedOld = st.consumedOld) ∨ (e'.2.record.path ∉ st.consumedOld ∧
        prev.candidate cf = some e'.2.record.path ∧
          (∀ e' ∈ rows, e'.2.record.path ≠ cf.entry.path) ∧
            st.consumedOld = e'.2.record.path :: st.consumedOld)) := by
    rintro _ ⟨⟩
    exact ⟨he, .inl ⟨hPath, rfl⟩⟩
  unfold reconcileKnown
  simp only
  split
  · rename_i hMeta
    refine ⟨.keep e, (List.append_nil _).symm, rfl, hSource, by simp [Verdict.source], ?_,
      by simp, by simp⟩
    rintro _ ⟨⟩
    exact ⟨hPath, hMeta.1, hMeta.2.1, hMeta.2.2⟩
  · rename_i hDiffer
    have hMeta : ¬ e.2.SameMeta cf := fun h => hDiffer ⟨h.inode, h.mtime, h.size⟩
    split
    · rename_i hConfirm
      obtain ⟨hKind, hWasRead⟩ : cf.kind = .text ∧ (stateOf e).status.wasRead = true := by
        simpa [canConfirm] using hConfirm
      obtain ⟨bytes, hBytes⟩ := hRead hKind
      simp only [hBytes]
      split
      · rename_i hHash
        refine ⟨.patch e, rfl, rfl, hSource, by simp [Verdict.source], by simp, ?_, by simp⟩
        rintro _ ⟨⟩
        exact .inr ⟨hKind, hWasRead, bytes, hBytes, hHash⟩
      · rename_i hHash
        refine ⟨.replace e (some bytes), rfl, rfl, hSource, by simp [Verdict.source],
          by simp, by simp, ?_⟩
        rintro _ _ ⟨⟩
        exact .of_hash hMeta hBytes hHash
    · rename_i hConfirm
      refine ⟨.replace e none, rfl, rfl, hSource, by simp [Verdict.source], by simp, by simp, ?_⟩
      rintro _ _ ⟨⟩
      exact ⟨hMeta, fun h => absurd h hConfirm⟩

/-- A file at a new path, for which a document with its inode is found. -/
theorem reconcileRenamed_turn {cf : CrawledFile} {e : DocId × DocRow} (he : e ∈ rows)
    (st : ReconcileState) (hFree : e.2.record.path ∉ st.consumedOld)
    (hInode : e.2.record.inode = cf.entry.inode)
    (hCandidate : prev.candidate cf = some e.2.record.path)
    (hNew : ∀ e' ∈ rows, e'.2.record.path ≠ cf.entry.path)
    (hRead : cf.kind = .text → ∃ bytes, read cf.entry.path = .ok bytes) :
    ∃ v, Turned rows prev read cf st
      (reconcileRenamed read st cf e.2.record.path (stateOf e)) v := by
  have hSource : ∀ e' ∈ some e, e' ∈ rows ∧ ((e'.2.record.path = cf.entry.path ∧
      e.2.record.path :: st.consumedOld = st.consumedOld) ∨
        (e'.2.record.path ∉ st.consumedOld ∧ prev.candidate cf = some e'.2.record.path ∧
          (∀ e' ∈ rows, e'.2.record.path ≠ cf.entry.path) ∧
            e.2.record.path :: st.consumedOld = e'.2.record.path :: st.consumedOld)) := by
    rintro _ ⟨⟩
    exact ⟨he, .inr ⟨hFree, hCandidate, hNew, rfl⟩⟩
  unfold reconcileRenamed
  simp only
  split
  · rename_i hMeta
    refine ⟨.patch e, rfl, rfl, hSource, by simp [Verdict.source], by simp, ?_, by simp⟩
    rintro _ ⟨⟩
    exact .inl ⟨hInode, hMeta.1, hMeta.2⟩
  · rename_i hDiffer
    have hMeta : ¬ e.2.SameMeta cf := fun h => hDiffer ⟨h.mtime, h.size⟩
    split
    · rename_i hConfirm
      obtain ⟨hKind, hWasRead⟩ : cf.kind = .text ∧ (stateOf e).status.wasRead = true := by
        simpa [canConfirm] using hConfirm
      obtain ⟨bytes, hBytes⟩ := hRead hKind
      simp only [hBytes]
      split
      · rename_i hHash
        refine ⟨.patch e, rfl, rfl, hSource, by simp [Verdict.source], by simp, ?_, by simp⟩
        rintro _ ⟨⟩
        exact .inr ⟨hKind, hWasRead, bytes, hBytes, hHash⟩
      · rename_i hHash
        refine ⟨.replace e (some bytes), rfl, rfl, hSource, by simp [Verdict.source],
          by simp, by simp, ?_⟩
        rintro _ _ ⟨⟩
        exact .of_hash hMeta hBytes hHash
    · rename_i hConfirm
      refine ⟨.replace e none, ?_, rfl, hSource, by simp [Verdict.source], by simp, by simp, ?_⟩
      · exact List.append_assoc _ _ _
      · rintro _ _ ⟨⟩
        exact ⟨hMeta, fun h => absurd h hConfirm⟩

/-- Every turn has a verdict. -/
theorem reconcileFile_turn (hRows : Distinct rows) (hPrev : prev.Indexes rows)
    {cf : CrawledFile} (hRead : cf.kind = .text → ∃ bytes, read cf.entry.path = .ok bytes)
    (st : ReconcileState) :
    ∃ v, Turned rows prev read cf st (reconcileFile prev read st cf) v := by
  unfold reconcileFile
  simp only
  cases hKnown : prev.byPath.lookup cf.entry.path with
  | some prior =>
    obtain ⟨e, he, hPath, rfl⟩ := (hPrev.byPath _ _).mp hKnown
    obtain ⟨v, hTurn⟩ := @reconcileKnown_turn _ _ _ prev _ _ he hPath hRead st.examine
    exact ⟨v, hTurn.changes, hTurn.seen, hTurn.source, hTurn.new, hTurn.keep, hTurn.patch,
      hTurn.replace⟩
  | none =>
    have hNew : ∀ e ∈ rows, e.2.record.path ≠ cf.entry.path := by
      intro e he hPath
      have hSome := (hPrev.byPath _ _).mpr ⟨e, he, hPath, rfl⟩
      rw [hKnown] at hSome
      cases hSome
    have hCandidate : prev.candidate cf =
        if cf.entry.inode = 0 then none else prev.byInode.lookup cf.entry.inode := by
      rw [StateIndex.candidate, hKnown]
      simp
    cases hSource : renameSource prev st.examine cf with
    | none =>
      refine ⟨.fresh, rfl, rfl, by simp [Verdict.source], fun _ => ⟨rfl, hNew, ?_⟩,
        by simp, by simp, by simp⟩
      -- A candidate is recorded, so that it can only be consumed.
      intro path hPath
      obtain ⟨-, e, he, rfl, -⟩ := hPrev.of_candidate hPath
      by_contra hFree
      rw [hCandidate] at hPath
      unfold renameSource at hSource
      split_ifs at hPath hSource with hZero
      rw [hPath] at hSource
      have hState := (hPrev.byPath _ _).mpr ⟨e, he, rfl, rfl⟩
      simp [ReconcileState.examine, hFree, hState] at hSource
    | some source =>
      obtain ⟨oldPath, prior⟩ := source
      unfold renameSource at hSource
      split_ifs at hSource with hZero
      obtain ⟨path, hInode, hRest⟩ := Option.bind_eq_some_iff.mp hSource
      split_ifs at hRest with hConsumed
      obtain ⟨state, hState, hEq⟩ := Option.bind_eq_some_iff.mp hRest
      obtain ⟨rfl, rfl⟩ : path = oldPath ∧ state = prior := by simpa using hEq
      obtain ⟨e, he, rfl, hSame⟩ := hPrev.byInode _ _ hInode
      obtain ⟨e', he', hPath', rfl⟩ := (hPrev.byPath _ _).mp hState
      obtain rfl := hRows.eq_of_path he' he hPath'
      rw [if_neg hZero, hInode] at hCandidate
      obtain ⟨v, hTurn⟩ :=
        reconcileRenamed_turn he st.examine hConsumed hSame hCandidate hNew hRead
      exact ⟨v, hTurn.changes, hTurn.seen, hTurn.source, hTurn.new, hTurn.keep, hTurn.patch,
        hTurn.replace⟩

/-- The paths that are seen or consumed after a turn. -/
theorem Turned.used_iff {cf : CrawledFile} {st st' : ReconcileState} {v : Verdict}
    (h : Turned rows prev read cf st st' v) (hRows : Distinct rows) {e : DocId × DocRow}
    (he : e ∈ rows) : (e.2.record.path ∈ st'.seen ∨ e.2.record.path ∈ st'.consumedOld) ↔
      (e.2.record.path ∈ st.seen ∨ e.2.record.path ∈ st.consumedOld) ∨ v.source = some e := by
  rw [h.seen, List.mem_cons]
  cases hSource : v.source with
  | none =>
    obtain ⟨hConsumed, hNew, -⟩ := h.new hSource
    simp [hConsumed, hNew e he]
  | some e₀ =>
    obtain ⟨he₀, hCase⟩ := h.source e₀ hSource
    rcases hCase with ⟨hPath, hConsumed⟩ | ⟨-, -, hNew, hConsumed⟩
    · rw [hConsumed, ← hPath, Option.some.injEq]
      have hIff : e.2.record.path = e₀.2.record.path ↔ e₀ = e :=
        ⟨fun hEq => (hRows.eq_of_path he he₀ hEq).symm, fun hEq => by rw [hEq]⟩
      rw [hIff]
      tauto
    · rw [hConsumed, List.mem_cons, Option.some.injEq]
      have hIff : e.2.record.path = e₀.2.record.path ↔ e₀ = e :=
        ⟨fun hEq => (hRows.eq_of_path he he₀ hEq).symm, fun hEq => by rw [hEq]⟩
      rw [hIff]
      have hNe := hNew e he
      tauto

/-- What is decided about a file holds water. -/
structure Turn.Fits (rows : List (DocId × DocRow)) (read : ReadFile)
    (t : CrawledFile × Verdict) : Prop where
  source : ∀ e ∈ t.2.source, e ∈ rows
  known : ∀ e ∈ rows, e.2.record.path = t.1.entry.path → t.2.source = some e
  keep : ∀ e, t.2 = .keep e → e.2.record.path = t.1.entry.path ∧ e.2.SameMeta t.1
  patch : ∀ e, t.2 = .patch e → e.2.SameMeta t.1 ∨
    t.1.kind = .text ∧ e.2.record.status.wasRead = true ∧
      ∃ bytes, read t.1.entry.path = .ok bytes ∧ hashBytes bytes = e.2.record.contentHash
  replace : ∀ e bytes, t.2 = .replace e bytes → Renewed read e t.1

theorem Turned.fits {cf : CrawledFile} {st st' : ReconcileState} {v : Verdict}
    (h : Turned rows prev read cf st st' v) (hRows : Distinct rows) :
    Turn.Fits rows read (cf, v) := by
  refine ⟨fun e he => (h.source e he).1, fun e he hPath => ?_, h.keep, h.patch, h.replace⟩
  cases hSource : v.source with
  | none => exact absurd hPath ((h.new hSource).2.1 e he)
  | some e₀ =>
    obtain ⟨he₀, ⟨hPath₀, -⟩ | ⟨-, -, hNew, -⟩⟩ := h.source e₀ hSource
    · rw [hRows.eq_of_path he₀ he (hPath₀.trans hPath.symm)]
    · exact absurd hPath (hNew e he)

/-- A document that stands for the file is not to be renewed. -/
theorem Turn.Fits.not_renewed {t : CrawledFile × Verdict} (h : Turn.Fits rows read t)
    {e : DocId × DocRow} (he : t.2.kept = some e) : ¬ Renewed read e t.1 := by
  intro hRenewed
  obtain ⟨cf, v⟩ := t
  cases v with
  | keep e' =>
    obtain rfl := Option.some.inj he
    exact hRenewed.metadata (h.keep _ rfl).2
  | patch e' =>
    obtain rfl := Option.some.inj he
    rcases h.patch _ rfl with hMeta | ⟨hKind, hWasRead, bytes, hBytes, hHash⟩
    · exact hRenewed.metadata hMeta
    · refine hRenewed.content ?_ bytes hBytes hHash
      have hText : cf.kind = .text := hKind
      simp [canConfirm, stateOf, hText, hWasRead]
  | replace e' bytes => cases he
  | fresh => cases he

/-- What the turns over `files` make of the state. -/
structure Turns (rows : List (DocId × DocRow)) (prev : StateIndex) (read : ReadFile)
    (files : List CrawledFile) (st st' : ReconcileState) (turns : List (CrawledFile × Verdict)) :
    Prop where
  crawled : turns.map Prod.fst = files
  changes : st'.plan.changes = st.plan.changes ++ turns.flatMap fun t => t.2.changes t.1
  fits : ∀ t ∈ turns, Turn.Fits rows read t
  /-- Of two verdicts with one source, one is about the file at its path. -/
  apart : turns.Pairwise fun t t' => ∀ e, t.2.source = some e → t'.2.source = some e →
    ¬ (e.2.record.path = t.1.entry.path ↔ e.2.record.path = t'.1.entry.path)
  free : ∀ t ∈ turns, ∀ e, t.2.source = some e → e.2.record.path ≠ t.1.entry.path →
    e.2.record.path ∉ st.consumedOld
  renamer : ∀ e ∈ rows, e.2.record.path ∉ st.consumedOld → ∀ cf,
    prev.renamer files e.2.record.path = some cf ↔
      ∃ t ∈ turns, t.1 = cf ∧ t.2.source = some e ∧ e.2.record.path ≠ cf.entry.path
  used_iff : ∀ e ∈ rows, (e.2.record.path ∈ st'.seen ∨ e.2.record.path ∈ st'.consumedOld) ↔
    (e.2.record.path ∈ st.seen ∨ e.2.record.path ∈ st.consumedOld) ∨
      ∃ t ∈ turns, t.2.source = some e

/-- A document is consumed by the turn of the file that it is taken to be renamed to. -/
theorem Turned.renames_iff {cf : CrawledFile} {st st' : ReconcileState} {v : Verdict}
    (h : Turned rows prev read cf st st' v) (hRows : Distinct rows) (hPrev : prev.Indexes rows)
    {e : DocId × DocRow} (he : e ∈ rows) (hFree : e.2.record.path ∉ st.consumedOld) :
    (prev.candidate cf = some e.2.record.path ↔
      v.source = some e ∧ e.2.record.path ≠ cf.entry.path) ∧
    (e.2.record.path ∈ st'.consumedOld ↔ prev.candidate cf = some e.2.record.path) := by
  cases hSource : v.source with
  | none =>
    obtain ⟨hSame, -, hTaken⟩ := h.new hSource
    have hNot : prev.candidate cf ≠ some e.2.record.path := fun hPath => hFree (hTaken _ hPath)
    rw [hSame]
    exact ⟨iff_of_false hNot (by simp), iff_of_false hFree hNot⟩
  | some e₀ =>
    obtain ⟨he₀, ⟨hPath₀, hSame⟩ | ⟨-, hCandidate, hNew, hMore⟩⟩ := h.source e₀ hSource
    · have hNot : prev.candidate cf ≠ some e.2.record.path := fun hPath =>
        (hPrev.of_candidate hPath).1 e₀ he₀ hPath₀
      rw [hSame]
      refine ⟨iff_of_false hNot ?_, iff_of_false hFree hNot⟩
      rintro ⟨hEq, hNe⟩
      exact hNe (Option.some.inj hEq ▸ hPath₀)
    · have hIff : prev.candidate cf = some e.2.record.path ↔ e₀ = e := by
        rw [hCandidate, Option.some.injEq]
        exact ⟨hRows.eq_of_path he₀ he, fun hEq => by rw [hEq]⟩
      rw [hIff, hMore, List.mem_cons, or_iff_left hFree]
      refine ⟨⟨fun hEq => ⟨by rw [hEq], hNew e he⟩, fun hEq => Option.some.inj hEq.1⟩, ?_⟩
      exact ⟨fun hEq => hRows.eq_of_path he₀ he hEq.symm, fun hEq => by rw [hEq]⟩

/-- The loop. -/
theorem foldl_turns (hRows : Distinct rows) (hPrev : prev.Indexes rows)
    {files : List CrawledFile} (hNodup : (files.map fun cf => cf.entry.path).Nodup)
    (hRead : ∀ cf ∈ files, cf.kind = .text → ∃ bytes, read cf.entry.path = .ok bytes)
    (st : ReconcileState) :
    ∃ turns, Turns rows prev read files st (files.foldl (reconcileFile prev read) st) turns := by
  induction files generalizing st with
  | nil =>
    refine ⟨[], rfl, (List.append_nil _).symm, by simp, .nil, by simp, ?_, by simp⟩
    intro e _ _ cf
    simp [StateIndex.renamer]
  | cons cf files ih =>
    rw [List.map_cons, List.nodup_cons] at hNodup
    obtain ⟨hReadHead, hRead⟩ := List.forall_mem_cons.mp hRead
    obtain ⟨v, hTurn⟩ := reconcileFile_turn hRows hPrev hReadHead st
    rw [List.foldl_cons]
    set st₁ := reconcileFile prev read st cf
    obtain ⟨turns, hTurns⟩ := ih hNodup.2 hRead st₁
    have hMem : ∀ t ∈ turns, t.1 ∈ files := fun t ht => hTurns.crawled ▸ List.mem_map_of_mem ht
    have hRows₁ : ∀ t ∈ turns, ∀ e, t.2.source = some e → e ∈ rows := fun t ht e he =>
      (hTurns.fits t ht).source e he
    -- What a later turn consumes was not consumed before.
    have hFree : ∀ t ∈ turns, ∀ e, t.2.source = some e → e.2.record.path ≠ t.1.entry.path →
        e.2.record.path ∉ st.consumedOld ∧ prev.candidate cf ≠ some e.2.record.path := by
      intro t ht e he hNe
      have hFree₁ := hTurns.free t ht e he hNe
      have hFree : e.2.record.path ∉ st.consumedOld := by
        intro hOld
        cases hSource : v.source with
        | none => exact hFree₁ ((hTurn.new hSource).1 ▸ hOld)
        | some e₀ =>
          obtain ⟨-, ⟨-, hSame⟩ | ⟨-, -, -, hMore⟩⟩ := hTurn.source e₀ hSource
          · exact hFree₁ (hSame ▸ hOld)
          · exact hFree₁ (hMore ▸ List.mem_cons_of_mem _ hOld)
      exact ⟨hFree, fun hPath => hFree₁
        ((hTurn.renames_iff hRows hPrev (hRows₁ t ht e he) hFree).2.mpr hPath)⟩
    refine ⟨(cf, v) :: turns, ?_, ?_, ?_, ?_, ?_, ?_, ?_⟩
    · rw [List.map_cons, hTurns.crawled]
    · rw [hTurns.changes, hTurn.changes, List.flatMap_cons, List.append_assoc]
    · exact List.forall_mem_cons.mpr ⟨hTurn.fits hRows, hTurns.fits⟩
    · refine List.pairwise_cons.mpr ⟨fun t ht e he he' hIff => ?_, hTurns.apart⟩
      by_cases hPath : e.2.record.path = cf.entry.path
      · -- Crawled paths are distinct.
        refine hNodup.1 (List.mem_map.mpr ⟨t.1, hMem t ht, ?_⟩)
        rw [← hIff.mp hPath, hPath]
      · -- A document is consumed once.
        have hNe : e.2.record.path ≠ t.1.entry.path := mt hIff.mpr hPath
        obtain ⟨hFree, hNot⟩ := hFree t ht e he' hNe
        exact hNot ((hTurn.renames_iff hRows hPrev (hRows₁ t ht e he') hFree).1.mpr ⟨he, hPath⟩)
    · refine List.forall_mem_cons.mpr ⟨fun e he hNe => ?_, fun t ht e he hNe =>
        (hFree t ht e he hNe).1⟩
      obtain ⟨-, ⟨hPath, -⟩ | ⟨hFree, -⟩⟩ := hTurn.source e he
      · exact absurd hPath hNe
      · exact hFree
    · intro e he hFree' cf'
      obtain ⟨hRenames, hConsumed⟩ := hTurn.renames_iff hRows hPrev he hFree'
      rw [StateIndex.renamer, List.find?_cons]
      by_cases hPath : prev.candidate cf = some e.2.record.path
      · rw [decide_eq_true hPath, Option.some.injEq]
        constructor
        · rintro rfl
          exact ⟨_, List.mem_cons_self, rfl, hRenames.mp hPath⟩
        · rintro ⟨t, ht, rfl, hSource, hNe⟩
          rcases List.mem_cons.mp ht with rfl | ht
          · rfl
          · exact absurd hPath (hFree t ht e hSource hNe).2
      · rw [decide_eq_false hPath]
        refine (hTurns.renamer e he (mt hConsumed.mp hPath) cf').trans ?_
        rw [List.exists_mem_cons_iff]
        refine (or_iff_right ?_).symm
        rintro ⟨rfl, hSource, hNe⟩
        exact hPath (hRenames.mpr ⟨hSource, hNe⟩)
    · intro e he
      rw [hTurns.used_iff e he, hTurn.used_iff hRows he, List.exists_mem_cons_iff, or_assoc]

-- ---------------------------------------------------------------------------
-- The plan
-- ---------------------------------------------------------------------------

omit [Platform] in
theorem mem_deletesOf {changes : List Change} {id : DocId} :
    id ∈ deletesOf changes ↔ .delete id ∈ changes := by
  unfold deletesOf
  rw [List.mem_filterMap]
  constructor
  · intro h
    obtain ⟨c, hc, hSome⟩ := h
    cases c with
    | delete d => exact Option.some.inj hSome ▸ hc
    | patch p => cases hSome
    | reindex cf bytes => cases hSome
  · exact fun h => ⟨_, h, rfl⟩

omit [Platform] in
theorem mem_patchesOf {changes : List Change} {p : Patch} :
    p ∈ patchesOf changes ↔ .patch p ∈ changes := by
  unfold patchesOf
  rw [List.mem_filterMap]
  constructor
  · intro h
    obtain ⟨c, hc, hSome⟩ := h
    cases c with
    | delete d => cases hSome
    | patch q => exact Option.some.inj hSome ▸ hc
    | reindex cf bytes => cases hSome
  · exact fun h => ⟨_, h, rfl⟩

omit [Platform] in
theorem Verdict.delete_mem_changes {v : Verdict} {cf : CrawledFile} {id : DocId} :
    .delete id ∈ v.changes cf ↔ ∃ e bytes, v = .replace e bytes ∧ e.1 = id := by
  cases v <;> simp [Verdict.changes, patchOf, eq_comm]

omit [Platform] in
theorem Verdict.patch_mem_changes {v : Verdict} {cf : CrawledFile} {p : Patch} :
    .patch p ∈ v.changes cf ↔ ∃ e, v = .patch e ∧ .patch p = patchOf e.1 cf := by
  cases v <;> simp [Verdict.changes, patchOf]

omit [Platform] in
theorem toIndexOf_append (cs ds : List Change) :
    toIndexOf (cs ++ ds) = toIndexOf cs ++ toIndexOf ds :=
  List.filterMap_append

omit [Platform] in
theorem toIndexOf_deletes {α : Type} (f : α → DocId) (l : List α) :
    toIndexOf (l.map fun a => .delete (f a)) = [] := by
  induction l with
  | nil => rfl
  | cons a l ih => exact ih

omit [Platform] in
theorem toIndexOf_turns (turns : List (CrawledFile × Verdict)) :
    toIndexOf (turns.flatMap fun t => t.2.changes t.1) =
      turns.filterMap fun t => if t.2.kept.isSome then none else some t.1 := by
  induction turns with
  | nil => rfl
  | cons t turns ih =>
    rw [List.flatMap_cons, toIndexOf_append, ih]
    obtain ⟨cf, v⟩ := t
    cases v <;> rfl

/-- What a plan comes to: the documents that go, the patches, and the files to index. -/
structure Planned (rows : List (DocId × DocRow)) (turns : List (CrawledFile × Verdict))
    (changes : List Change) : Prop where
  deletes : ∀ id, id ∈ deletesOf changes ↔
    (∃ t ∈ turns, ∃ e bytes, t.2 = .replace e bytes ∧ e.1 = id) ∨
      ∃ e ∈ rows, (∀ t ∈ turns, t.2.source ≠ some e) ∧ e.1 = id
  patches : ∀ p, p ∈ patchesOf changes ↔
    ∃ t ∈ turns, ∃ e, t.2 = .patch e ∧ .patch p = patchOf e.1 t.1
  toIndex : toIndexOf changes =
    turns.filterMap fun t => if t.2.kept.isSome then none else some t.1

/-- The plan of a reconcile. -/
theorem planned_reconcile (hPrev : prev.Indexes rows) {files : List CrawledFile}
    {turns : List (CrawledFile × Verdict)}
    (h : Turns rows prev read files .init (files.foldl (reconcileFile prev read) .init) turns) :
    Planned rows turns (reconcile prev read files).changes := by
  set st := files.foldl (reconcileFile prev read) .init
  have hUsed : ∀ e ∈ rows, (e.2.record.path ∈ st.seen ∨ e.2.record.path ∈ st.consumedOld) ↔
      ∃ t ∈ turns, t.2.source = some e := by
    intro e he
    rw [h.used_iff e he]
    simp [ReconcileState.init]
  have hChanges : (reconcile prev read files).changes =
      (turns.flatMap fun t => t.2.changes t.1) ++
        ((prev.byPath.entries.filter fun e => e.1 ∉ st.seen ∧ e.1 ∉ st.consumedOld).map
          fun e => .delete e.2.docId) := by
    show st.plan.changes ++ _ = _
    rw [h.changes]
    rfl
  -- The recorded documents that no turn used.
  have hGone : ∀ c, c ∈ ((prev.byPath.entries.filter fun e =>
      e.1 ∉ st.seen ∧ e.1 ∉ st.consumedOld).map fun e => Change.delete e.2.docId) ↔
        ∃ e ∈ rows, (∀ t ∈ turns, t.2.source ≠ some e) ∧ Change.delete e.1 = c := by
    intro c
    rw [List.mem_map]
    constructor
    · intro hMem
      obtain ⟨⟨path, state⟩, hEntry, rfl⟩ := hMem
      obtain ⟨hEntry, hFree⟩ := List.mem_filter.mp hEntry
      obtain ⟨e, he, rfl, rfl⟩ := (hPrev.byPath path state).mp (AList.mem_lookup_iff.mpr hEntry)
      have hFree := not_or.mpr (of_decide_eq_true hFree)
      rw [hUsed e he] at hFree
      exact ⟨e, he, fun t ht hSource => hFree ⟨t, ht, hSource⟩, rfl⟩
    · intro hMem
      obtain ⟨e, he, hNot, rfl⟩ := hMem
      have hEntry := AList.mem_lookup_iff.mp ((hPrev.byPath _ _).mpr ⟨e, he, rfl, rfl⟩)
      refine ⟨_, List.mem_filter.mpr ⟨hEntry, decide_eq_true ?_⟩, rfl⟩
      refine not_or.mp ((not_congr (hUsed e he)).mpr ?_)
      exact fun hMem => hMem.elim fun t ht => hNot t ht.1 ht.2
  refine ⟨fun id => ?_, fun p => ?_, ?_⟩
  · rw [mem_deletesOf, hChanges, List.mem_append, List.mem_flatMap, hGone]
    refine or_congr (exists_congr fun t => and_congr_right fun _ =>
      Verdict.delete_mem_changes) ?_
    simp only [Change.delete.injEq]
  · rw [mem_patchesOf, hChanges, List.mem_append, List.mem_flatMap, hGone]
    simp only [Verdict.patch_mem_changes, reduceCtorEq, and_false, exists_false, or_false]
  · rw [hChanges, toIndexOf_append, toIndexOf_turns, toIndexOf_deletes, List.append_nil]

-- ---------------------------------------------------------------------------
-- The rows after the plan
-- ---------------------------------------------------------------------------

/-- Files read as they are, documents were recorded of files that read as they were, and
neither metadata nor hashes deceive: `was` is what a document was recorded of, `now` what a
file contains. -/
structure Observed (w : World) (rows : List (DocId × DocRow)) (files : List CrawledFile)
    (was : DocId → FileKind × ByteArray) (now : CrawledFile → ByteArray) : Prop where
  reads : ∀ cf ∈ files, cf.kind = .text →
    w.reconcileRead cf.entry.path = .ok (now cf) ∧ w.indexRead cf.entry.path = .ok (now cf)
  recorded : ∀ e ∈ rows, e.2.body = bodyOf (was e.1).1 (was e.1).2
  unchanged : ∀ e ∈ rows, ∀ cf ∈ files, e.2.SameMeta cf → was e.1 = (cf.kind, now cf)
  hash_inj : ∀ e ∈ rows, ∀ cf ∈ files,
    hashBytes (was e.1).2 = hashBytes (now cf) → (was e.1).2 = now cf

variable {w : World} {files : List CrawledFile} {was : DocId → FileKind × ByteArray}
  {now : CrawledFile → ByteArray} {turns : List (CrawledFile × Verdict)}

/-- A document that stands for a file has the content of the file. -/
theorem Observed.body_eq (h : Observed w rows files was now) {t : CrawledFile × Verdict}
    (hFile : t.1 ∈ files) (hFits : Turn.Fits rows w.reconcileRead t) {e : DocId × DocRow}
    (he : t.2.kept = some e) : e.2.body = (rowOf w.indexRead t.1).body := by
  obtain ⟨cf, v⟩ := t
  rw [body_rowOf fun hKind => (h.reads cf hFile hKind).2]
  have hWas : e ∈ rows → was e.1 = (cf.kind, now cf) →
      e.2.body = bodyOf cf.kind (now cf) := by
    intro hMem hEq
    rw [h.recorded e hMem, hEq]
  cases v with
  | keep e' =>
    obtain rfl := Option.some.inj he
    have hMem := hFits.source _ rfl
    exact hWas hMem (h.unchanged _ hMem cf hFile (hFits.keep _ rfl).2)
  | patch e' =>
    obtain rfl := Option.some.inj he
    have hMem := hFits.source _ rfl
    refine hWas hMem ?_
    rcases hFits.patch _ rfl with hMeta | ⟨hKind, hWasRead, bytes, hBytes, hHash⟩
    · exact h.unchanged _ hMem cf hFile hMeta
    · -- The hash of the recorded content is that of the file.
      have hStatus : (bodyOf (was e'.1).1 (was e'.1).2).status.wasRead = true := by
        rw [← h.recorded _ hMem]
        exact hWasRead
      obtain ⟨hText, hRecorded⟩ := wasRead_bodyOf hStatus
      have hNow : bytes = now cf :=
        Except.ok.inj (hBytes.symm.trans (h.reads cf hFile hKind).1)
      rw [← h.recorded _ hMem] at hRecorded
      have hSame := h.hash_inj _ hMem cf hFile (by rw [← hRecorded, ← hNow]; exact hHash.symm)
      rw [← hSame, hKind, ← hText]
  | replace e' bytes => cases he
  | fresh => cases he

/-- A document that stands for a file is the source of no other verdict. -/
def Separate (turns : List (CrawledFile × Verdict)) : Prop :=
  ∀ t ∈ turns, ∀ t' ∈ turns, ∀ e, t.2.kept = some e → t'.2.source = some e → t = t'

theorem Turns.nodup {st st' : ReconcileState} (h : Turns rows prev read files st st' turns)
    (hFiles : (files.map fun cf => cf.entry.path).Nodup) : turns.Nodup := by
  rw [← h.crawled, List.map_map] at hFiles
  exact List.Nodup.of_map _ hFiles

omit [Platform] in
/-- The one patch for a document is the last one. -/
theorem lastPatch_eq_some {ps : List Patch} {p : Patch} (hp : p ∈ ps)
    (hOne : ∀ q ∈ ps, q.docId = p.docId → q = p) : lastPatch ps p.docId = some p := by
  unfold lastPatch
  rcases hFind : ps.reverse.find? fun q => q.docId == p.docId with _ | q
  · have hNone := List.find?_eq_none.mp hFind p (List.mem_reverse.mpr hp)
    exact absurd (beq_self_eq_true _) hNone
  · have hMem := List.mem_reverse.mp (List.mem_of_find?_eq_some hFind)
    have hEq := hOne q hMem (by simpa using List.find?_some hFind)
    exact hFind.trans (congrArg some hEq)

omit [Platform] in
theorem lastPatch_eq_none {ps : List Patch} {id : DocId} (h : ∀ q ∈ ps, q.docId ≠ id) :
    lastPatch ps id = none := by
  refine List.find?_eq_none.mpr fun q hq => ?_
  rw [beq_iff_eq]
  exact h q (List.mem_reverse.mp hq)

/-- After its patch, a document that stands for a file has the row of the file. -/
theorem Turns.patched_eq {st st' : ReconcileState} {changes : List Change}
    (h : Turns rows prev w.reconcileRead files st st' turns) (hRows : Distinct rows)
    (hPlan : Planned rows turns changes) (hSeparate : Separate turns)
    (hObs : Observed w rows files was now) {t : CrawledFile × Verdict} (ht : t ∈ turns)
    {e : DocId × DocRow} (he : t.2.kept = some e) :
    e.2.patched (lastPatch (patchesOf changes) e.1) = rowOf w.indexRead t.1 := by
  have hFits := h.fits t ht
  have hFile : t.1 ∈ files := h.crawled ▸ List.mem_map_of_mem ht
  have hBody := hObs.body_eq hFile hFits he
  have hSource := Verdict.source_of_kept he
  have hMem := hFits.source e hSource
  -- A patch for the document comes from this turn.
  have hFrom : ∀ q ∈ patchesOf changes, q.docId = e.1 →
      t.2 = .patch e ∧ .patch q = patchOf e.1 t.1 := by
    intro q hq hId
    obtain ⟨t', ht', e', hPatch, hEq⟩ := (hPlan.patches q).mp hq
    have hSource' : t'.2.source = some e' := by rw [hPatch]; rfl
    have hMem' := (h.fits t' ht').source e' hSource'
    obtain rfl : e' = e := by
      refine hRows.eq_of_id hMem' hMem ?_
      rw [← hId, Change.patch.inj hEq]
    obtain rfl := hSeparate t ht t' ht' _ he hSource'
    exact ⟨hPatch, hEq⟩
  obtain ⟨cf, v⟩ := t
  cases v with
  | keep e' =>
    obtain rfl := Option.some.inj he
    obtain ⟨hPath, hMeta⟩ := hFits.keep _ rfl
    have hNone : lastPatch (patchesOf changes) e'.1 = none :=
      lastPatch_eq_none fun q hq hId => by cases (hFrom q hq hId).1
    rw [hNone]
    exact eq_rowOf hPath hMeta hBody
  | patch e' =>
    obtain rfl := Option.some.inj he
    have hPatch : lastPatch (patchesOf changes) e'.1 =
        some ⟨e'.1, cf.entry.inode, cf.entry.mtime, cf.entry.size, cf.entry.path⟩ := by
      refine lastPatch_eq_some ((hPlan.patches _).mpr ⟨_, ht, e', rfl, rfl⟩) ?_
      exact fun q hq hId => Change.patch.inj (hFrom q hq hId).2
    rw [hPatch]
    exact eq_rowOf rfl ⟨rfl, rfl, rfl⟩ hBody
  | replace e' bytes => cases he
  | fresh => cases he

omit [Platform] in
theorem perm_filterMap_split {α β : Type} (p : α → Bool) (f : α → β) (l : List α) :
    ((l.filterMap fun a => if p a then some (f a) else none) ++
      l.filterMap fun a => if p a then none else some (f a)).Perm (l.map f) := by
  induction l with
  | nil => exact .refl _
  | cons a l ih =>
    cases h : p a with
    | true => simpa [h] using ih
    | false =>
      simp only [List.filterMap_cons, h, Bool.false_eq_true, if_false, List.map_cons]
      exact List.perm_middle.trans (ih.cons _)

omit [Platform] in
/-- Documents that are not deleted stand for files. -/
theorem mem_kept_of_not_deleted {changes : List Change} (hPlan : Planned rows turns changes)
    {e : DocId × DocRow} (he : e ∈ rows) (hNot : e.1 ∉ deletesOf changes) :
    e ∈ turns.filterMap fun t => t.2.kept := by
  rw [hPlan.deletes, not_or] at hNot
  obtain ⟨hNotReplaced, hNotGone⟩ := hNot
  by_contra hNone
  rw [List.mem_filterMap] at hNone
  refine hNotGone ⟨e, he, fun t ht hSource => ?_, rfl⟩
  rcases Verdict.kept_or_replace hSource with hKept | ⟨bytes, hReplace⟩
  · exact hNone ⟨t, ht, hKept⟩
  · exact hNotReplaced ⟨t, ht, e, bytes, hReplace, rfl⟩

/-- When no document is needed twice, those that stand for files are the ones not deleted. -/
theorem Turns.perm_kept {st st' : ReconcileState} {changes : List Change}
    (h : Turns rows prev read files st st' turns) (hRows : Distinct rows)
    (hFiles : (files.map fun cf => cf.entry.path).Nodup) (hPlan : Planned rows turns changes)
    (hSeparate : Separate turns) :
    (rows.filter fun e => e.1 ∉ deletesOf changes).Perm (turns.filterMap fun t => t.2.kept) := by
  refine (List.perm_ext_iff_of_nodup ((List.Nodup.of_map _ hRows.ids).filter _) ?_).mpr
    fun e => ?_
  · refine List.pairwise_filterMap.mpr ((h.nodup hFiles).imp_of_mem ?_)
    intro t t' ht ht' hNe e he e' he' hEq
    exact hNe (hSeparate t ht t' ht' e he (Verdict.source_of_kept (hEq ▸ he')))
  · rw [List.mem_filter, decide_eq_true_eq]
    constructor
    · exact fun hMem => mem_kept_of_not_deleted hPlan hMem.1 hMem.2
    · intro hMem
      obtain ⟨t, ht, he⟩ := List.mem_filterMap.mp hMem
      have hSource := Verdict.source_of_kept he
      have hMem := (h.fits t ht).source e hSource
      refine ⟨hMem, fun hDeleted => ?_⟩
      rcases (hPlan.deletes _).mp hDeleted with hReplaced | hGone
      · obtain ⟨t', ht', e', bytes, hReplace, hId⟩ := hReplaced
        have hSource' : t'.2.source = some e' := by rw [hReplace]; rfl
        obtain rfl := hRows.eq_of_id ((h.fits t' ht').source e' hSource') hMem hId
        obtain rfl := hSeparate t ht t' ht' _ he hSource'
        rw [hReplace] at he
        cases he
      · obtain ⟨e', he', hNot, hId⟩ := hGone
        obtain rfl := hRows.eq_of_id he' hMem hId
        exact hNot t ht hSource

omit [Platform] in
theorem length_kept (turns : List (CrawledFile × Verdict)) :
    (turns.filterMap fun t => t.2.kept).length +
      (turns.filterMap fun t => if t.2.kept.isSome then none else some t.1).length =
        turns.length := by
  induction turns with
  | nil => rfl
  | cons t turns ih =>
    rcases hKept : t.2.kept with _ | e
    · simp only [List.filterMap_cons, hKept, Option.isSome_none, Bool.false_eq_true, if_false,
        List.length_cons]
      omega
    · simp only [List.filterMap_cons, hKept, Option.isSome_some, if_true, List.length_cons]
      omega

/-- Where as many rows are left as files were crawled, no document is needed twice. -/
theorem Turns.separate_of_length {st st' : ReconcileState} {changes : List Change}
    (h : Turns rows prev read files st st' turns) (hRows : Distinct rows)
    (hPlan : Planned rows turns changes)
    (hLength : (rows.filter fun e => e.1 ∉ deletesOf changes).length +
      (toIndexOf changes).length = files.length) : Separate turns := by
  have hNodup : (rows.filter fun e => e.1 ∉ deletesOf changes).Nodup :=
    (List.Nodup.of_map _ hRows.ids).filter _
  have hSub : (rows.filter fun e => e.1 ∉ deletesOf changes) ⊆
      turns.filterMap fun t => t.2.kept := by
    intro e he
    obtain ⟨he, hNot⟩ := List.mem_filter.mp he
    exact mem_kept_of_not_deleted hPlan he (of_decide_eq_true hNot)
  have hKept := length_kept turns
  rw [hPlan.toIndex, ← h.crawled, List.length_map] at hLength
  have hPerm := (List.subperm_of_subset hNodup hSub).perm_of_length_le (by omega)
  -- No document is kept twice, and none that is kept is deleted.
  have hTwice := List.pairwise_filterMap.mp (hPerm.nodup_iff.mp hNodup)
  have : Std.Symm fun t t' : CrawledFile × Verdict =>
      ∀ e, t.2.kept = some e → ∀ e', t'.2.kept = some e' → e ≠ e' :=
    ⟨fun _ _ hApart e he e' he' => (hApart e' he' e he).symm⟩
  intro t ht t' ht' e he hSource
  by_contra hNe
  rcases Verdict.kept_or_replace hSource with he' | ⟨bytes, hReplace⟩
  · exact hTwice.forall ht ht' hNe e he e he' rfl
  · have hMem := hPerm.mem_iff.mpr (List.mem_filterMap.mpr ⟨t, ht, he⟩)
    refine of_decide_eq_true (List.mem_filter.mp hMem).2 ?_
    exact (hPlan.deletes _).mpr (.inl ⟨t', ht', e, bytes, hReplace, rfl⟩)

/-- After the plan the rows are those of the crawled files, exactly when no document is needed
twice. -/
theorem rows_converged_iff {st st' : ReconcileState} {changes : List Change}
    (h : Turns rows prev w.reconcileRead files st st' turns) (hRows : Distinct rows)
    (hFiles : (files.map fun cf => cf.entry.path).Nodup) (hPlan : Planned rows turns changes)
    (hObs : Observed w rows files was now) :
    (((rows.filter fun e => e.1 ∉ deletesOf changes).map fun e =>
        e.2.patched (lastPatch (patchesOf changes) e.1)) ++
      (toIndexOf changes).map (rowOf w.indexRead)).Perm (files.map (rowOf w.indexRead)) ↔
        Separate turns := by
  constructor
  · intro hPerm
    refine h.separate_of_length hRows hPlan ?_
    have hLength := hPerm.length_eq
    rwa [List.length_append, List.length_map, List.length_map, List.length_map] at hLength
  · intro hSeparate
    refine (((h.perm_kept hRows hFiles hPlan hSeparate).map _).append_right _).trans ?_
    have hStand : (turns.filterMap fun t => t.2.kept).map (fun e =>
        e.2.patched (lastPatch (patchesOf changes) e.1)) =
          turns.filterMap fun t =>
            if t.2.kept.isSome then some (rowOf w.indexRead t.1) else none := by
      rw [List.map_filterMap]
      refine List.filterMap_congr fun t ht => ?_
      rcases hKeep : t.2.kept with _ | e
      · rfl
      · rw [Option.map_some, h.patched_eq hRows hPlan hSeparate hObs ht hKeep]
        rfl
    have hNew : (toIndexOf changes).map (rowOf w.indexRead) = turns.filterMap fun t =>
        if t.2.kept.isSome then none else some (rowOf w.indexRead t.1) := by
      rw [hPlan.toIndex, List.map_filterMap]
      refine List.filterMap_congr fun t _ => ?_
      rcases t.2.kept with _ | e <;> rfl
    have hCrawled : files.map (rowOf w.indexRead) = turns.map fun t => rowOf w.indexRead t.1 := by
      rw [← h.crawled, List.map_map]
      rfl
    rw [hStand, hNew, hCrawled]
    exact perm_filterMap_split _ _ _

-- ---------------------------------------------------------------------------
-- Documents that two files lay claim to
-- ---------------------------------------------------------------------------

/-- A document whose path is crawled and that is taken for renamed to another file as well
stands for neither. -/
def LinksRenewed (rows : List (DocId × DocRow)) (prev : StateIndex) (read : ReadFile)
    (files : List CrawledFile) : Prop :=
  ∀ e ∈ rows, ∀ p ∈ files, p.entry.path = e.2.record.path →
    ∀ q, prev.renamer files e.2.record.path = some q → Renewed read e p ∧ Renewed read e q

theorem Turns.separate_iff {st st' : ReconcileState}
    (h : Turns rows prev read files st st' turns) (hStart : st.consumedOld = []) :
    Separate turns ↔ LinksRenewed rows prev read files := by
  have hRenamer : ∀ e ∈ rows, ∀ cf, prev.renamer files e.2.record.path = some cf ↔
      ∃ t ∈ turns, t.1 = cf ∧ t.2.source = some e ∧ e.2.record.path ≠ cf.entry.path :=
    fun e he => h.renamer e he (by simp [hStart])
  constructor
  · intro hSeparate e he p hp hPath q hq
    rw [← h.crawled] at hp
    obtain ⟨t, ht, rfl⟩ := List.mem_map.mp hp
    have hSource := (h.fits t ht).known e he hPath.symm
    obtain ⟨t', ht', rfl, hSource', hOther⟩ := (hRenamer e he q).mp hq
    have hNe : t ≠ t' := by
      rintro rfl
      exact hOther hPath.symm
    constructor
    · rcases Verdict.kept_or_replace hSource with hKept | ⟨bytes, hReplace⟩
      · exact absurd (hSeparate t ht t' ht' e hKept hSource') hNe
      · exact (h.fits t ht).replace e bytes hReplace
    · rcases Verdict.kept_or_replace hSource' with hKept | ⟨bytes, hReplace⟩
      · exact absurd (hSeparate t' ht' t ht e hKept hSource).symm hNe
      · exact (h.fits t' ht').replace e bytes hReplace
  · intro hRenewed t ht t' ht' e he hSource'
    by_contra hNe
    have hSource := Verdict.source_of_kept he
    have hMem := (h.fits t ht).source e hSource
    have hCrawled : ∀ u ∈ turns, u.1 ∈ files := fun u hu => h.crawled ▸ List.mem_map_of_mem hu
    have : Std.Symm fun t t' : CrawledFile × Verdict => ∀ e, t.2.source = some e →
        t'.2.source = some e →
          ¬ (e.2.record.path = t.1.entry.path ↔ e.2.record.path = t'.1.entry.path) :=
      ⟨fun _ _ hApart e he he' hIff => hApart e he' he hIff.symm⟩
    have hApart := h.apart.forall ht ht' hNe e hSource hSource'
    -- One of the two is about the file at the path of the document.
    refine (h.fits t ht).not_renewed he ?_
    by_cases hPath : e.2.record.path = t.1.entry.path
    · have hOther : e.2.record.path ≠ t'.1.entry.path := fun hEq => hApart (iff_of_true hPath hEq)
      exact (hRenewed e hMem t.1 (hCrawled t ht) hPath.symm t'.1
        ((hRenamer e hMem _).mpr ⟨t', ht', rfl, hSource', hOther⟩)).1
    · have hOther : e.2.record.path = t'.1.entry.path := by
        by_contra hEq
        exact hApart (iff_of_false hPath hEq)
      exact (hRenewed e hMem t'.1 (hCrawled t' ht') hOther.symm t.1
        ((hRenamer e hMem _).mpr ⟨t, ht, rfl, hSource, hPath⟩)).2

end Turns

-- ---------------------------------------------------------------------------
-- An update
-- ---------------------------------------------------------------------------

section Update

variable [Platform] {w : World} {cfg : BuildConfig} {I J : Index} {files : List CrawledFile}
  {was : DocId → FileKind × ByteArray} {now : CrawledFile → ByteArray}

omit [Platform] in
theorem Index.recordsOf_rows (I : Index) : recordsOf I.rows = I.docs := I.docs_eq_rows.symm

omit [Platform] in
/-- Ids differ anyway. -/
theorem Index.distinct_rows (hPaths : (I.docs.map fun d => d.2.path).Nodup) :
    Distinct I.rows := by
  rw [I.docs_eq_rows, List.map_map] at hPaths
  refine ⟨?_, hPaths⟩
  have hNodup := List.Nodup.of_map _ hPaths
  exact List.Nodup.map_on (fun e he e' he' hId => Index.rows_inj he he' hId) hNodup

/-- No file at a new path has the inode of a document whose path is crawled as well. -/
def NoneShadowed (rows : List (DocId × DocRow)) (files : List CrawledFile) : Prop :=
  ∀ cf ∈ files, (∀ e ∈ rows, e.2.record.path ≠ cf.entry.path) →
    ∀ e ∈ rows, e.2.record.inode = cf.entry.inode →
      e.2.record.path ∉ files.map fun cf => cf.entry.path

/-- Then no document is taken for renamed while its path is crawled. -/
theorem NoneShadowed.linksRenewed (h : NoneShadowed I.rows files)
    (hPaths : (I.docs.map fun d => d.2.path).Nodup) (read : ReadFile) :
    LinksRenewed I.rows (StateIndex.fromDocs I.docs) read files := by
  have hRows := Index.distinct_rows hPaths
  have hPrev := StateIndex.indexes_fromDocs hRows
  rw [I.recordsOf_rows] at hPrev
  intro e he p hp hPath q hq
  obtain ⟨hMem, hCandidate⟩ := StateIndex.mem_of_renamer hq
  obtain ⟨hNew, e', he', hPath', hInode⟩ := hPrev.of_candidate hCandidate
  obtain rfl := hRows.eq_of_path he' he hPath'
  exact absurd (List.mem_map.mpr ⟨p, hp, hPath⟩)
    (h q hMem hNew e' he hInode)

/-- What the plan of an update makes of the rows. -/
theorem rows_updateChanges_iff (hPaths : (I.docs.map fun d => d.2.path).Nodup)
    (hFiles : (files.map fun cf => cf.entry.path).Nodup)
    (hObs : Observed w I.rows files was now) :
    (((I.rows.filter fun e => e.1 ∉ deletesOf (updateChanges w I files).changes).map fun e =>
        e.2.patched (lastPatch (patchesOf (updateChanges w I files).changes) e.1)) ++
      (toIndexOf (updateChanges w I files).changes).map (rowOf w.indexRead)).Perm
        (files.map (rowOf w.indexRead)) ↔
      LinksRenewed I.rows (StateIndex.fromDocs I.docs) w.reconcileRead files := by
  have hRows := Index.distinct_rows hPaths
  have hPrev := StateIndex.indexes_fromDocs hRows
  obtain ⟨turns, hTurns⟩ := foldl_turns hRows hPrev hFiles
    (fun cf hcf hKind => ⟨_, (hObs.reads cf hcf hKind).1⟩) .init
  have hPlan := planned_reconcile hPrev hTurns
  rw [I.recordsOf_rows] at hTurns hPlan
  exact (rows_converged_iff hTurns hRows hFiles hPlan hObs).trans (hTurns.separate_iff rfl)

theorem rows_updateChanges (hPaths : (I.docs.map fun d => d.2.path).Nodup)
    (hFiles : (files.map fun cf => cf.entry.path).Nodup)
    (hObs : Observed w I.rows files was now) (hMoved : NoneShadowed I.rows files) :
    (((I.rows.filter fun e => e.1 ∉ deletesOf (updateChanges w I files).changes).map fun e =>
        e.2.patched (lastPatch (patchesOf (updateChanges w I files).changes) e.1)) ++
      (toIndexOf (updateChanges w I files).changes).map (rowOf w.indexRead)).Perm
        (files.map (rowOf w.indexRead)) :=
  (rows_updateChanges_iff hPaths hFiles hObs).mpr (hMoved.linksRenewed hPaths _)

end Update

end Ripindex
