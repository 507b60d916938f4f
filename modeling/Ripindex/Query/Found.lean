import Ripindex.Query.Search
import Ripindex.Store.Contents

/-!
# What a search finds

The documents that match are the rows that answer the query. After a run of operations these
are the rows of the files of the last build or update that were not deleted since, so a search
answers from what these files contain, whatever updates, deletions and merges led there.

## Results

* `matches_iff`      — the documents that match, over the rows;
* `search_finds`     — a search after a run.
-/

namespace Ripindex

namespace Index

variable {I : Index} {node : Query.Node}

theorem doc_of_mem_rows {e : DocId × DocRow} (he : e ∈ I.rows) : I.doc e.1 = some e.2.record := by
  obtain ⟨s, hs, i, hi, hId, hRow⟩ := mem_rows.mp he
  rw [hId, doc_global hs hi, hRow]
  rfl

end Index

/-- The row is of an indexed document that answers the query. -/
def DocRow.Answers (node : Query.Node) (r : DocRow) : Prop :=
  r.record.status = .indexed ∧ Query.Satisfies r.positions node

namespace Segment

variable {s : Segment} {o : Overlay} {i : DocId}

/-- Patches change neither status nor positions. -/
theorem exists_rowAt_iff {node : Query.Node} :
    (s.LiveIndexed i ∧ Query.Satisfies (s.view i).positions node) ↔
      ∃ r, s.rowAt o i = some r ∧ r.Answers node := by
  have hStatus (m : DocMeta) (id : DocId) : (o.patched id m).status = m.status := by
    unfold Overlay.patched
    cases o.find id <;> rfl
  have hMeta : s.docMeta i = if s.isDeleted i then none else s.docs[i.toNat]? := rfl
  constructor
  · intro h
    obtain ⟨⟨hDel, m, hGet, hIndexed⟩, hSat⟩ := h
    have hRow : s.rowAt o i =
        some ⟨o.patched (s.entry.baseDoc + i) m, (s.view i).positions⟩ := by
      unfold rowAt
      rw [hMeta, hDel, if_neg Bool.false_ne_true, hGet]
      rfl
    exact ⟨_, hRow, (hStatus m _).trans hIndexed, hSat⟩
  · intro h
    obtain ⟨r, hRow, hIndexed, hSat⟩ := h
    obtain ⟨m, hm, rfl⟩ := Option.map_eq_some_iff.mp hRow
    rw [hMeta] at hm
    split_ifs at hm with hDel
    exact ⟨⟨Bool.not_eq_true _ ▸ hDel, m, hm, (hStatus m _).symm.trans hIndexed⟩, hSat⟩

end Segment

namespace Query

/-- The documents that match are the rows that answer. -/
theorem matches_iff {I : Index} {node : Node} {d : DocId} :
    Matches I node d ↔ ∃ e ∈ I.rows, e.1 = d ∧ e.2.Answers node := by
  constructor
  · intro h
    obtain ⟨s, hs, i, hd, hFound⟩ := h
    have hLt := hFound.1.lt
    have hId : d = s.entry.baseDoc + i :=
      UInt32.toNat_inj.mp (hd.trans (Index.toNat_global hs hLt).symm)
    obtain ⟨r, hRow, hAnswers⟩ := (Segment.exists_rowAt_iff (o := I.overlay)).mp hFound
    exact ⟨(d, r), Index.mem_rows.mpr ⟨s, hs, i, UInt32.lt_iff_toNat_lt.mpr hLt, hId, hRow⟩, rfl,
      hAnswers⟩
  · intro h
    obtain ⟨e, he, rfl, hAnswers⟩ := h
    obtain ⟨s, hs, i, hi, hId, hRow⟩ := Index.mem_rows.mp he
    refine ⟨s, hs, i, ?_, Segment.exists_rowAt_iff.mpr ⟨e.2, hRow, hAnswers⟩⟩
    rw [hId]
    exact Index.toNat_global hs (UInt32.lt_iff_toNat_lt.mp hi)

end Query

-- ---------------------------------------------------------------------------
-- After a run
-- ---------------------------------------------------------------------------

section Found

variable [Platform] {K : Corpus} {I : Index} {node : Query.Node} {files : List CrawledFile}

/-- The positions that are indexed of a text. -/
def textPositions (text : String) (t : String) : List Position :=
  if Idx.maxTermBytes < t.utf8ByteSize then [] else termPositions (tokenize text) t

/-- The file is a text that answers the query. -/
def Corpus.Answers (K : Corpus) (node : Query.Node) (cf : CrawledFile) : Prop :=
  cf.kind = .text ∧ ∃ text, decodeText (K.content cf) = some text ∧
    Query.Satisfies (textPositions text) node

theorem Corpus.answers_row_iff {cf : CrawledFile} :
    (K.row cf).Answers node ↔ K.Answers node cf := by
  obtain ⟨e, kind⟩ := cf
  unfold DocRow.Answers Corpus.Answers Corpus.row rowOf
  rcases kind with _ | _ | _
  · rcases hText : decodeText (K.content ⟨e, .text⟩) with _ | text
    · simp [recorded, hText, DocMeta.fromEntry]
    · have hPositions : (fun t => if Idx.maxTermBytes < t.utf8ByteSize then []
          else docPositions (fun _ => .ok (K.content ⟨e, .text⟩)) ⟨e, .text⟩ t) =
            textPositions text := by
        funext t
        simp [docPositions, fileText, hText, textPositions]
      simp [recorded, hText, hPositions]
  · simp [recorded]
  · simp [recorded]

/-- The rows that answer are those of the files that do. -/
theorem StandsFor.ncard_matches (h : StandsFor K I files) :
    Set.ncard {d | Query.Matches I node d} = Set.ncard {cf | cf ∈ files ∧ K.Answers node cf} := by
  classical
  have hRows : {d | Query.Matches I node d} =
      ↑((I.rows.filter fun e => e.2.Answers node).map Prod.fst).toFinset := by
    ext d
    rw [Set.mem_ofPred_eq, Query.matches_iff, List.coe_toFinset, Set.mem_ofPred_eq, List.mem_map]
    simp only [List.mem_filter, decide_eq_true_eq]
    constructor
    · intro hMatch
      obtain ⟨e, he, hId, hAnswers⟩ := hMatch
      exact ⟨e, ⟨he, hAnswers⟩, hId⟩
    · intro hMatch
      obtain ⟨e, ⟨he, hAnswers⟩, hId⟩ := hMatch
      exact ⟨e, he, hId, hAnswers⟩
  have hFiles : {cf | cf ∈ files ∧ K.Answers node cf} =
      ↑(files.filter fun cf => K.Answers node cf).toFinset := by
    ext cf
    simp
  have hIds : ((I.rows.filter fun e => e.2.Answers node).map Prod.fst).Nodup :=
    (Index.distinct_rows h.docPaths).ids.sublist (List.filter_sublist.map _)
  have hNodup : (files.filter fun cf => K.Answers node cf).Nodup :=
    (List.Nodup.of_map _ h.paths).filter _
  -- Rows and files are counted alike.
  have hCount := (h.rows.filter fun r => decide (r.Answers node)).length_eq
  rw [List.filter_map, List.filter_map, List.length_map, List.length_map] at hCount
  rw [hRows, hFiles, Set.ncard_coe_finset, Set.ncard_coe_finset,
    List.toFinset_card_of_nodup hIds, List.toFinset_card_of_nodup hNodup, List.length_map]
  refine hCount.trans (congrArg List.length (List.filter_congr fun cf _ => ?_))
  exact decide_eq_decide.mpr Corpus.answers_row_iff

/-- A document that matches has the record of a file that answers. -/
theorem StandsFor.exists_answers (h : StandsFor K I files) {d : DocId}
    (hMatch : Query.Matches I node d) :
    ∃ cf ∈ files, K.Answers node cf ∧ I.doc d = some (K.row cf).record := by
  obtain ⟨e, he, rfl, hAnswers⟩ := Query.matches_iff.mp hMatch
  obtain ⟨cf, hcf, hRow⟩ := h.exists_file he
  refine ⟨cf, hcf, Corpus.answers_row_iff.mp (hRow ▸ hAnswers), ?_⟩
  rw [hRow]
  exact Index.doc_of_mem_rows he

/-- A file that answers is a document that matches. -/
theorem StandsFor.exists_matches (h : StandsFor K I files) {cf : CrawledFile} (hcf : cf ∈ files)
    (hAnswers : K.Answers node cf) :
    ∃ d, Query.Matches I node d ∧ I.doc d = some (K.row cf).record := by
  have hMem := h.rows.mem_iff.mpr (List.mem_map_of_mem hcf)
  obtain ⟨e, he, hRow⟩ := List.mem_map.mp hMem
  refine ⟨e.1, Query.matches_iff.mpr ⟨e, he, rfl, ?_⟩, ?_⟩
  · rw [hRow]
    exact Corpus.answers_row_iff.mpr hAnswers
  · rw [← hRow]
    exact Index.doc_of_mem_rows he

variable {F A M : Type} [AddCommMonoid F] [AddCommMonoid M] [LinearOrder M]
  (bm25 : Query.Bm25 F A M) (S : SelectNth (Query.byRank (M := M))) (limit : Nat)

/-- The result of a search of `I` is about the files that answer: it counts them, every hit is
one of them, and within the limit all of them are hits. -/
structure Corpus.Finds (K : Corpus) (files : List CrawledFile) (I : Index) (node : Query.Node)
    (limit : Nat) (found : Query.SearchResult M) : Prop where
  total : found.totalMatches = Set.ncard {cf | cf ∈ files ∧ K.Answers node cf}
  hits : ∀ h ∈ found.hits, ∃ cf ∈ files, K.Answers node cf ∧
    I.doc h.doc = some (K.row cf).record
  all : found.totalMatches ≤ limit → ∀ cf ∈ files, K.Answers node cf →
    ∃ h ∈ found.hits, I.doc h.doc = some (K.row cf).record

theorem StandsFor.finds (h : StandsFor K I files) {input : String}
    (hParse : Query.parse input = .ok node) :
    K.Finds files I node limit (Query.search bm25 S I node limit) := by
  have hNode := Query.wellFormed_of_parse hParse
  refine ⟨?_, ?_, ?_⟩
  · rw [Query.totalMatches_eq bm25 S I hNode limit]
    exact h.ncard_matches
  · intro k hMem
    rw [Query.search_hits] at hMem
    have hFound : k ∈ Query.evaluate bm25 I node :=
      List.mem_mergeSort.mp (List.mem_of_mem_take hMem)
    exact h.exists_answers ((Query.mem_evaluate_iff bm25 I hNode k.doc).mp ⟨k, hFound, rfl⟩)
  · intro hLimit cf hcf hAnswers
    obtain ⟨id, hMatch, hDoc⟩ := h.exists_matches hcf hAnswers
    obtain ⟨k, hFound, rfl⟩ := (Query.mem_evaluate_iff bm25 I hNode id).mpr hMatch
    refine ⟨k, ?_, hDoc⟩
    rw [Query.search_hits, List.take_of_length_le]
    · exact List.mem_mergeSort.mpr hFound
    · rw [List.length_mergeSort]
      exact hLimit

/-- A search in the index that a run leaves finds the files of the last build or update that
were not deleted since and answer the query. -/
theorem search_finds {es : List DiskEvent} {d : Dir} {input : String}
    (hRun : (disk K).Run es d) (hHolds : d.Holds (some I))
    (hParse : Query.parse input = .ok node) :
    K.Finds (shelved es) I node limit (Query.search bm25 S I node limit) :=
  (standsFor_of_run hRun hHolds).finds bm25 S limit hParse

end Found

-- ---------------------------------------------------------------------------
-- A text and a binary file
-- ---------------------------------------------------------------------------

def textCorpus : let _ := textPlatform; Corpus :=
  let _ := textPlatform
  { versions := {textFile, dataFile}
    content := fun _ => textBytes
    honest := by
      intro cf hcf cf' hcf' hInode _ _
      rcases hcf with rfl | rfl <;> rcases hcf' with rfl | rfl
      · exact ⟨rfl, rfl⟩
      · simp [textFile, dataFile] at hInode
      · simp [textFile, dataFile] at hInode
      · exact ⟨rfl, rfl⟩
    hash_inj := fun _ _ _ _ _ => rfl }

theorem parse_text :
    let _ := textPlatform
    Query.parse "x" = .ok (.term "x") := by
  intro _
  have hLex : Query.lex "x" = .ok [(0, .word "x")] := by decide +kernel
  have hAtoms : (atoms "x").map Token.term = ["x"] := by decide +kernel
  have hNode : Query.textToNode (fun text => (atoms text).map Token.term) "x" =
      some (.term "x") := by
    unfold Query.textToNode
    simp only [hAtoms]
  unfold Query.parse Query.parseWith
  rw [hLex]
  simp [bind, Except.bind, pure, Except.pure, Query.parseOr, Query.parseOrRest, Query.parseAnd,
    Query.parseUnary, Query.parseAtom, hNode, Query.finishAnd, Query.finishOr]

theorem answers_text_iff (cf : CrawledFile) :
    let _ := textPlatform
    cf ∈ [textFile, dataFile] ∧ textCorpus.Answers (.term "x") cf ↔ cf = textFile := by
  intro _
  have hText : decodeText textBytes = some "x" := by decide +kernel
  have hPositions : textPositions "x" "x" = [0] := by decide +kernel
  constructor
  · intro h
    obtain ⟨hMem, hKind, -⟩ := h
    rcases List.mem_pair.mp hMem with rfl | rfl
    · rfl
    · cases hKind
  · intro h
    subst h
    refine ⟨List.mem_cons_self, rfl, "x", hText, ?_⟩
    rw [Query.Satisfies, hPositions]
    exact List.cons_ne_nil _ _

theorem shows_text (read : ReadFile) (hRead : ∀ path, read path = .ok textBytes) :
    let _ := textPlatform
    textCorpus.Shows read [textFile, dataFile] := by
  intro _
  exact ⟨fun cf hcf => List.mem_pair.mp hcf, fun cf _ _ => hRead cf.entry.path, by decide⟩

/-- After a build of the two files, `x` is found in the text. -/
theorem search_finds_text : ∃ _ : Platform, ∃ K es d I, (disk K).Run es d ∧ d.Holds (some I) ∧
    Query.parse "x" = .ok (.term "x") ∧ ∃ bm25 : Query.Bm25 Nat Nat Nat, ∃ S,
      (Query.search bm25 S I (.term "x") 1).totalMatches = 1 ∧
      ∃ h ∈ (Query.search bm25 S I (.term "x") 1).hits,
        I.doc h.doc = some (K.row textFile).record := by
  refine ⟨textPlatform, textCorpus, ?_⟩
  let _ := textPlatform
  obtain ⟨I, seg, retire, hBuild, hGives⟩ := SingleBuild.exists_gives
    (by decide +kernel) room_text (by decide +kernel)
  have hEmpty : Dir.Holds ∅ none := AList.lookup_empty _
  obtain ⟨d, hCommits, hHolds⟩ := Operation.commits_of_gives
    (.build textWorld mixedConfig [textFile, dataFile]) hEmpty (by simp [Operation.staged]) hGives
  have hRun : (disk textCorpus).Run
      [.commit (.build textWorld mixedConfig [textFile, dataFile]) none] d :=
    Machine.Run.init.step ⟨⟨room_text, shows_text _ fun _ => rfl⟩, hCommits⟩
  have hFound := search_finds (F := Nat) (A := Nat) (M := Nat)
    ⟨fun _ _ => 1, fun _ tf _ _ => tf.toNat, fun _ _ => 0⟩
    (.ofSort Query.byRank Query.byRank_trans Query.byRank_total) 1 hRun hHolds parse_text
  have hTotal := hFound.total
  have hOne : {cf | cf ∈ shelved [.commit (.build textWorld mixedConfig [textFile, dataFile])
      none] ∧ textCorpus.Answers (.term "x") cf} = {textFile} := Set.ext answers_text_iff
  rw [hOne, Set.ncard_singleton] at hTotal
  obtain ⟨hMem, hAnswers⟩ := (answers_text_iff textFile).mpr rfl
  exact ⟨_, d, I, hRun, hHolds, parse_text, _, _, hTotal,
    hFound.all (Nat.le_of_eq hTotal) textFile hMem hAnswers⟩

end Ripindex
