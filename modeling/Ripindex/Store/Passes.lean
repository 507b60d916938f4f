import Mathlib.Algebra.Order.BigOperators.Group.List
import Ripindex.Store.MergeRows

/-!
# Passes that succeed

A pass of `merge_index` fails only where the lock is held, the staging directory cannot be
listed, or the merges do not fit: the counters run out, or the paths of a group exceed the heap
of a doc table. With room a pass that planned something commits it.

## Results

* `preparePlan_isOk`      — the encoders accept what a group of segments is merged into;
* `run_prepareAll`        — every group of a plan is prepared;
* `run_mergeIndex_ok`     — a pass with room.
-/

namespace Ripindex

-- ---------------------------------------------------------------------------
-- New ids ascend
-- ---------------------------------------------------------------------------

/-- A document before another one: of an earlier source, or of the same at a smaller id. -/
def Precedes (g : List UInt32) (a b : SourceDoc) : Prop :=
  g.idxOf a.1 < g.idxOf b.1 ∨ (a.1 = b.1 ∧ a.2 < b.2)

theorem Precedes.asymm {g : List UInt32} {a b : SourceDoc} (h : Precedes g a b) :
    ¬ Precedes g b a := by
  intro h'
  rcases h with hLt | ⟨hEq, hLt⟩ <;> rcases h' with hLt' | ⟨hEq', hLt'⟩
  · omega
  · rw [hEq'] at hLt
    omega
  · rw [hEq] at hLt'
    omega
  · exact UInt32.lt_irrefl _ (UInt32.lt_trans hLt hLt')

/-- In a list in order, what precedes has the smaller place. -/
theorem idxOf_lt_of_pairwise {α : Type} [BEq α] [LawfulBEq α] {R : α → α → Prop}
    (hAsymm : ∀ a b, R a b → ¬ R b a) {l : List α} (hl : l.Pairwise R) {a b : α} (ha : a ∈ l)
    (hb : b ∈ l) (hab : R a b) : l.idxOf a < l.idxOf b := by
  by_contra hLe
  rcases Nat.lt_or_eq_of_le (Nat.le_of_not_lt hLe) with hLt | hEq
  · have hPair := List.pairwise_iff_getElem.mp hl _ _ (List.idxOf_lt_length_of_mem hb)
      (List.idxOf_lt_length_of_mem ha) hLt
    rw [List.getElem_idxOf, List.getElem_idxOf] at hPair
    exact hAsymm a b hab hPair
  · have hSame : b = a := by
      rw [← List.getElem_idxOf (List.idxOf_lt_length_of_mem hb),
        ← List.getElem_idxOf (List.idxOf_lt_length_of_mem ha)]
      simp only [hEq]
    subst hSame
    exact hAsymm b b hab hab

theorem pairwise_idxOf {α : Type} [BEq α] [LawfulBEq α] {l : List α} (h : l.Nodup) :
    l.Pairwise fun a b => l.idxOf a < l.idxOf b := by
  refine List.pairwise_iff_getElem.mpr ?_
  intro i j hi hj hij
  rwa [h.idxOf_getElem, h.idxOf_getElem]

theorem IdxFile.encodable_postings (f : IdxFile) (t : String) :
    Idx.Encodable none (f.postings t) := by
  unfold postings
  rcases hFind : f.terms.find? fun e => e.1 == t with _ | e
  · rw [hFind]
    exact ⟨.nil, by simp, by simp, by simp⟩
  · rw [hFind]
    exact e.2.encodable

namespace SourcesOf

variable {S : Index} {g : List UInt32} {segs : List Segment}

/-- The sources are in the order of their ids in the group. -/
theorem pairwise_segs (h : SourcesOf S g segs) : segs.Pairwise fun s t =>
    g.idxOf s.entry.segmentId < g.idxOf t.entry.segmentId := by
  have hIds := pairwise_idxOf h.nodup
  rw [← map_segmentId_of_mapM h.found, List.pairwise_map] at hIds
  rwa [map_segmentId_of_mapM h.found] at hIds

/-- The documents that a merge moves are in order. -/
theorem pairwise_movedRows (h : SourcesOf S g segs) :
    ((movedRows S.overlay segs).map Prod.fst).Pairwise (Precedes g) := by
  unfold movedRows
  rw [List.pairwise_map, List.pairwise_flatMap]
  constructor
  · intro s hs
    refine List.pairwise_filterMap.mpr (List.pairwise_lt_range.imp_of_mem ?_)
    intro i j hi hj hij e he e' he'
    obtain ⟨r, -, rfl⟩ := Option.map_eq_some_iff.mp he
    obtain ⟨r', -, rfl⟩ := Option.map_eq_some_iff.mp he'
    refine .inr ⟨rfl, ?_⟩
    rwa [UInt32.lt_iff_toNat_lt, toNat_ofNat_of_mem_range hi, toNat_ofNat_of_mem_range hj]
  · refine h.pairwise_segs.imp ?_
    intro s t hst e he e' he'
    obtain ⟨i, -, hKey, -⟩ := Segment.mem_sourceRows.mp he
    obtain ⟨j, -, hKey', -⟩ := Segment.mem_sourceRows.mp he'
    rw [hKey, hKey']
    exact .inl hst

variable [Platform]

/-- New ids are in the order of the documents. -/
theorem oldToNew_lt (h : SourcesOf S g segs)
    (hLen : (movedRows S.overlay segs).length < 2 ^ 32) {a b : SourceDoc} {x y : DocId}
    (ha : (oldToNewOf S segs).lookup a = some x) (hb : (oldToNewOf S segs).lookup b = some y)
    (hab : Precedes g a b) : x < y := by
  rw [h.oldToNew, lookup_renumber (nodup_movedRows _ h.ids_nodup)] at ha hb
  split_ifs at ha hb with hMemA hMemB
  obtain rfl := Option.some.inj ha
  obtain rfl := Option.some.inj hb
  have hA := List.idxOf_lt_length_of_mem hMemA
  have hB := List.idxOf_lt_length_of_mem hMemB
  rw [List.length_map] at hA hB
  rw [UInt32.lt_iff_toNat_lt, UInt32.toNat_ofNat_of_lt' (Nat.lt_trans hA hLen),
    UInt32.toNat_ofNat_of_lt' (Nat.lt_trans hB hLen)]
  exact idxOf_lt_of_pairwise (fun _ _ => Precedes.asymm) h.pairwise_movedRows hMemA hMemB hab

/-- The encoder accepts what a merge has for a term. -/
theorem encodable_remapTerms (h : SourcesOf S g segs)
    (hLen : (movedRows S.overlay segs).length < 2 ^ 32) (t : String) :
    Idx.Encodable none ((remapTerms (oldToNewOf S segs) segs).list t) := by
  rw [list_remapTerms (h.injective_oldToNew hLen) h.ids_nodup]
  have hSource : ∀ {s : Segment} {q : Posting},
      q ∈ (s.idx.postings t).flatMap (remapped (oldToNewOf S segs) s.entry.segmentId) →
        ∃ p ∈ s.idx.postings t, q.positions = p.positions ∧
          (oldToNewOf S segs).lookup (s.entry.segmentId, p.doc) = some q.doc := by
    intro s q hq
    obtain ⟨p, hp, hq⟩ := List.mem_flatMap.mp hq
    exact ⟨p, hp, (mem_remapped.mp hq).2, (mem_remapped.mp hq).1⟩
  have hPostings : ∀ s : Segment, Idx.Encodable none (s.idx.postings t) := fun s =>
    IdxFile.encodable_postings s.idx t
  refine ⟨List.pairwise_flatMap.mpr ⟨fun s hs => List.pairwise_flatMap.mpr ⟨fun p hp => ?_, ?_⟩,
    ?_⟩, by simp, ?_, ?_⟩
  · unfold remapped
    rcases (oldToNewOf S segs).lookup (s.entry.segmentId, p.doc) with _ | new
    · exact .nil
    · exact List.pairwise_singleton _ _
  · refine (hPostings s).docs_lt.imp ?_
    intro p p' hLt q hq q' hq'
    exact h.oldToNew_lt hLen (mem_remapped.mp hq).1 (mem_remapped.mp hq').1 (.inr ⟨rfl, hLt⟩)
  · refine h.pairwise_segs.imp ?_
    intro s s' hLt q hq q' hq'
    obtain ⟨p, -, -, hNew⟩ := hSource hq
    obtain ⟨p', -, -, hNew'⟩ := hSource hq'
    exact h.oldToNew_lt hLen hNew hNew' (.inl hLt)
  · intro q hq
    obtain ⟨s, -, hq⟩ := List.mem_flatMap.mp hq
    obtain ⟨p, hp, hPos, -⟩ := hSource hq
    rw [hPos]
    exact (hPostings s).positions_ne_nil p hp
  · intro q hq
    obtain ⟨s, -, hq⟩ := List.mem_flatMap.mp hq
    obtain ⟨p, hp, hPos, -⟩ := hSource hq
    rw [hPos]
    exact (hPostings s).positions_lt p hp

end SourcesOf

-- ---------------------------------------------------------------------------
-- Preparing
-- ---------------------------------------------------------------------------

section Prepare

variable [Platform] {I : Index} {g : List UInt32} {segs : List Segment}

/-- The records of the documents that merging the segments with these ids moves. -/
def movedRecords (I : Index) (g : List UInt32) : List DocMeta :=
  (survivors I (g.filterMap I.findSegment)).map Prod.snd

/-- The doc table of a merge can be encoded. -/
structure RecordsFit (records : List DocMeta) : Prop where
  length : records.length < 2 ^ 32
  paths : (records.map fun d => d.path.utf8ByteSize).sum < 2 ^ 32
  lens : ∀ d ∈ records, d.status ≠ .indexed → d.len = 0

omit [Platform] in
theorem movedRecords_eq (hSegs : g.mapM I.findSegment = some segs) :
    movedRecords I g = (survivors I segs).map Prod.snd := by
  have hFound : g.filterMap I.findSegment = segs := by
    induction g generalizing segs with
    | nil => exact Option.some.inj hSegs
    | cons id g ih =>
      rw [List.mapM_cons] at hSegs
      obtain ⟨s, hs, hSegs⟩ := Option.bind_eq_some_iff.mp hSegs
      obtain ⟨ss, hss, hSegs⟩ := Option.bind_eq_some_iff.mp hSegs
      obtain rfl : segs = s :: ss := (Option.some.inj hSegs).symm
      rw [List.filterMap_cons_some hs, ih hss]
  rw [movedRecords, hFound]

/-- The encoders accept what a group of segments is merged into. -/
theorem preparePlan_isOk (h : SourcesOf I g segs) (hFit : RecordsFit (movedRecords I g))
    (tag : StagingTag) : ∃ p, (preparePlan tag I g segs).result = .ok p := by
  rw [movedRecords_eq h.found] at hFit
  have hLen : (movedRows I.overlay segs).length < 2 ^ 32 := by
    have hRecords := hFit.length
    rwa [List.length_map, survivors_eq fun s hs => h.mem hs, List.length_map] at hRecords
  have hLists : ∀ e ∈ (Idx.sortedTerms (remapTerms (oldToNewOf I segs) segs)).entries,
      Idx.Encodable none e.2 := by
    intro e he
    have hList : (remapTerms (oldToNewOf I segs) segs).list e.1 = e.2 := by
      unfold TermMap.list
      rw [Idx.mem_sortedTerms.mp he]
      rfl
    exact hList ▸ h.encodable_remapTerms hLen e.1
  obtain ⟨⟨idx, counts⟩, hIdx⟩ := Idx.write_isOk hLists
  have hEncode : Doc.encode ((survivors I segs).map Prod.snd) =
      .ok ((survivors I segs).map Prod.snd) := by
    have hCheck := @Doc.checkDocs_isOk 0 _ (by simpa using hFit.paths) hFit.lens
    simp [Doc.encode, hCheck, bind, Except.bind, pure, Except.pure]
  have hParse : ∃ v, Doc.parse ((survivors I segs).map Prod.snd) = .ok v := by
    unfold Doc.parse
    rw [dif_pos hFit.length]
    exact ⟨_, rfl⟩
  obtain ⟨v, hParse⟩ := hParse
  exact ⟨_, Plan.bind_ok.mpr ⟨(), rfl, Plan.bind_ok.mpr ⟨_, Plan.ofFormat_result_ok.mpr hIdx,
    Plan.bind_ok.mpr ⟨(), rfl, Plan.bind_ok.mpr ⟨_, Plan.ofFormat_result_ok.mpr hEncode,
      Plan.bind_ok.mpr ⟨_, Plan.ofFormat_result_ok.mpr hParse,
        Plan.bind_ok.mpr ⟨(), rfl, rfl⟩⟩⟩⟩⟩⟩⟩

omit [Platform] in
theorem lookup_after_writeWhole (d : Dir) (n m : FileName) (f : FileData) :
    (after d (Plan.writeWhole n f).steps).lookup m = if m = n then some f else d.lookup m := by
  show (Dir.overwrite (AList.insert n FileData.torn d) n f).lookup m = _
  rw [Dir.lookup_overwrite]
  by_cases h : m = n
  · rw [if_pos h, if_pos h, AList.lookup_insert]
    rfl
  · rw [if_neg h, if_neg h, AList.lookup_insert_ne h]

omit [Platform] in
theorem runnable_writeWhole (d : Dir) (n : FileName) (f : FileData) :
    Runnable d (Plan.writeWhole n f).steps := ⟨trivial, trivial, trivial, trivial⟩

/-- Merges whose staged files are there, under tags that come before the next one. -/
structure StagedIn (s : FsState) (xs : List StagedMerge) : Prop where
  files : ∀ x ∈ xs, ∀ f ∈ x.files, s.dir.lookup f.1 = some f.2
  tags : (xs.map fun x => x.merge.tag).Nodup
  before : ∀ x ∈ xs, x.merge.tag.stamp < s.tags

/-- Preparing a merge leaves its staged files, and everything else as it was. -/
theorem run_prepareMerge {c : Pid} {s : FsState} {xs : List StagedMerge}
    (h : SourcesOf I g segs) (hFit : RecordsFit (movedRecords I g))
    (hHolds : s.dir.Holds (some I)) (hStaged : StagedIn s xs) :
    ∃ x : StagedMerge, ∃ d, FsE.runAlone c (prepareMerge I g) s =
        (.ok x.merge, ⟨d, s.lock, s.tags + 1⟩) ∧ x.Prepares I g segs ∧ d.Holds (some I) ∧
      StagedIn ⟨d, s.lock, s.tags + 1⟩ (xs ++ [x]) := by
  obtain ⟨p, hRes⟩ := preparePlan_isOk h hFit ⟨c, s.tags⟩
  obtain ⟨x, rfl, hTag, hPrepares, hSteps⟩ := preparePlan_ok hRes
  have hRunnable : Runnable s.dir (preparePlan ⟨c, s.tags⟩ I g segs).steps := by
    rw [hSteps]
    exact runnable_append.mpr ⟨runnable_writeWhole _ _ _, runnable_writeWhole _ _ _⟩
  have hAfter : ∀ n, (after s.dir (preparePlan ⟨c, s.tags⟩ I g segs).steps).lookup n =
      if n = .staged ⟨c, s.tags⟩ .doc then some (.doc x.records)
      else if n = .staged ⟨c, s.tags⟩ .idx then some (.idx x.idx) else s.dir.lookup n := by
    intro n
    rw [hSteps, after_append, lookup_after_writeWhole, lookup_after_writeWhole]
  have hOther : ∀ n, (∀ part, n ≠ .staged ⟨c, s.tags⟩ part) →
      (after s.dir (preparePlan ⟨c, s.tags⟩ I g segs).steps).lookup n = s.dir.lookup n := by
    intro n hn
    rw [hAfter, if_neg (hn _), if_neg (hn _)]
  have hOld : ∀ y ∈ xs, y.merge.tag ≠ ⟨c, s.tags⟩ := fun y hy hEq =>
    absurd (hStaged.before y hy) (by rw [hEq]; exact Nat.lt_irrefl _)
  refine ⟨x, after s.dir (preparePlan ⟨c, s.tags⟩ I g segs).steps, ?_, hPrepares, ?_,
    ⟨?_, ?_, ?_⟩⟩
  · obtain ⟨names, hNames⟩ := @eval_runSteps c ⟨s.dir, s.lock, s.tags + 1⟩ _ []
      hRunnable
    have hWritten : FsE.runAlone c
        (FsE.ofM (runSteps [] (preparePlan ⟨c, s.tags⟩ I g segs).steps))
          ⟨s.dir, s.lock, s.tags + 1⟩ = (.ok (names, .ok ()),
            ⟨after s.dir (preparePlan ⟨c, s.tags⟩ I g segs).steps, s.lock, s.tags + 1⟩) := by
      rw [FsE.runAlone_ofM, hNames]
      rfl
    have hCreate : FsE.runAlone c (FsE.call (Prog.op FsOp.createDirAll)) s = (.ok (), s) := rfl
    have hNext : FsE.runAlone c (FsE.ofM (Prog.op FsOp.stagingTag)) s =
        (.ok ⟨c, s.tags⟩, ⟨s.dir, s.lock, s.tags + 1⟩) := rfl
    unfold prepareMerge
    rw [h.found]
    simp only
    rw [FsE.runAlone_bind_ok hCreate, FsE.runAlone_bind_ok hNext, FsE.runAlone_bind_ok hWritten]
    simp only [hRes]
    rfl
  · refine Index.Backed.of_agree hHolds (hOther _ (by simp)) fun n hn => hOther n ?_
    rintro part rfl
    exact absurd (Index.isData_of_mem_referencedFiles hn) (by simp [FileName.isData])
  · intro y hy f hf
    rcases List.mem_append.mp hy with hy | hy
    · refine (hOther _ fun part hEq => ?_).trans (hStaged.files y hy f hf)
      simp only [StagedMerge.files, List.mem_cons, List.not_mem_nil, or_false] at hf
      rcases hf with rfl | rfl <;> exact hOld y hy (FileName.staged.inj hEq).1
    · obtain rfl := List.mem_singleton.mp hy
      simp only [StagedMerge.files, hTag, List.mem_cons, List.not_mem_nil, or_false] at hf
      rcases hf with rfl | rfl
      · rw [hAfter, if_neg (by simp), if_pos rfl]
      · rw [hAfter, if_pos rfl]
  · rw [List.map_append, List.nodup_append]
    refine ⟨hStaged.tags, by simp, ?_⟩
    rintro a ha b hb rfl
    obtain ⟨y, hy, hEq⟩ := List.mem_map.mp ha
    obtain rfl : a = x.merge.tag := by simpa using hb
    exact hOld y hy (hEq.trans hTag)
  · intro y hy
    rcases List.mem_append.mp hy with hy | hy
    · exact Nat.lt_succ_of_lt (hStaged.before y hy)
    · rw [List.mem_singleton.mp hy, hTag]
      exact Nat.lt_succ_self _

/-- Every group of a plan is prepared. -/
theorem run_prepareAll {c : Pid} {groups : List (List UInt32)} {done : List StagedMerge}
    {s : FsState} (hGroups : ∀ g ∈ groups, ∃ segs, SourcesOf I g segs)
    (hFit : ∀ g ∈ groups, RecordsFit (movedRecords I g)) (hHolds : s.dir.Holds (some I))
    (hStaged : StagedIn s done) :
    ∃ xs d tags, FsE.runAlone c (prepareAll I (done.map StagedMerge.merge) groups) s =
        (.ok ((done ++ xs).map StagedMerge.merge), ⟨d, s.lock, tags⟩) ∧
      List.Forall₂ (fun g x => ∃ segs, SourcesOf I g segs ∧ x.Prepares I g segs) groups xs ∧
      d.Holds (some I) ∧ StagedIn ⟨d, s.lock, tags⟩ (done ++ xs) := by
  induction groups generalizing done s with
  | nil => exact ⟨[], s.dir, s.tags, by rw [List.append_nil]; rfl, .nil, hHolds, by simpa⟩
  | cons g groups ih =>
    obtain ⟨⟨segs, hSources⟩, hRest⟩ := List.forall_mem_cons.mp hGroups
    obtain ⟨hHead, hTail⟩ := List.forall_mem_cons.mp hFit
    obtain ⟨x, d, hRun, hPrepares, hHolds', hStaged'⟩ :=
      run_prepareMerge (c := c) hSources hHead hHolds hStaged
    obtain ⟨xs, d', tags, hRuns, hAll, hEnd⟩ := ih hRest hTail hHolds' hStaged'
    refine ⟨x :: xs, d', tags, ?_, .cons ⟨segs, hSources, hPrepares⟩ hAll, ?_⟩
    · rw [prepareAll, FsE.runAlone_bind, FsE.runAlone_attempt, hRun]
      simp only
      rw [List.append_assoc, List.singleton_append, List.map_append, List.map_cons,
        List.map_nil] at hRuns
      exact hRuns
    · rwa [List.append_assoc, List.singleton_append] at hEnd

end Prepare

-- ---------------------------------------------------------------------------
-- Committing
-- ---------------------------------------------------------------------------

section Commit

variable [Platform] {I : Index} {now : Int64} {xs : List StagedMerge} {c : Pid} {s : FsState}

omit [Platform] in
/-- Merges fit where their documents and ids do together. -/
theorem mergesFit_of_sum {bound : Nat} {id : UInt32} {ps : List PreparedMerge}
    (hDocs : bound + (ps.map fun p => p.numDocs.toNat).sum < 2 ^ 32)
    (hIds : id.toNat + ps.length < 2 ^ 32) : MergesFit bound id ps := by
  induction ps generalizing bound id with
  | nil => exact Nat.le_of_lt hDocs
  | cons p ps ih =>
    rw [List.map_cons, List.sum_cons] at hDocs
    rw [List.length_cons] at hIds
    have hNext : (id + 1).toNat = id.toNat + 1 := by
      rw [UInt32.toNat_add, UInt32.toNat_one, Nat.mod_eq_of_lt (by omega)]
    exact ⟨by omega, by omega, ih (by omega) (by omega)⟩

/-- Staged merges with room, whose sources are all there, are committed. -/
theorem run_commitMerges_ok (hSome : xs ≠ []) (hFree : s.lock = none)
    (hHolds : s.dir.Holds (some I)) (hSound : I.Sound) (hStaged : StagedIn s xs)
    (hListed : SourcesListed I.manifest (xs.map StagedMerge.merge))
    (hRoom : MergeRoom I (xs.map StagedMerge.merge)) :
    ∃ d, FsE.runAlone c (commitMerges now (xs.map StagedMerge.merge)) s =
        (.ok (splicedIndex now I xs hRoom), s.withDir d) ∧
      d.Holds (some (splicedIndex now I xs hRoom)) := by
  have hPlan := mergePlan_of_listed now hListed
  have hGives := (mergePlan_gives hSound (congrArg Plan.result hPlan) hStaged.tags hRoom).2
  obtain ⟨d₁, hWrite, hHolds₁⟩ := run_writeAndCommit_gives (c := c)
    (s := { s with lock := some c }) hGives hHolds
    (fun f hf => by
      obtain ⟨x, hx, hFile⟩ := List.mem_flatMap.mp hf
      exact hStaged.files x hx f hFile)
    (by rw [hPlan]; exact runnable_finishAllSteps hStaged.files hStaged.tags)
  have hBody : FsE.runAlone c (commitLocked now (xs.map StagedMerge.merge))
      { s with lock := some c } = (.ok (), ⟨d₁, some c, s.tags⟩) := by
    unfold commitLocked
    rw [FsE.runAlone_bind, FsE.runAlone_attempt,
      run_openIndex_locked (s := { s with lock := some c }) hHolds (Option.some_ne_none c)]
    exact hWrite
  have hLock : FsE.runAlone c (withLock (commitLocked now (xs.map StagedMerge.merge))) s =
      (.ok (), s.withDir d₁) := by
    rw [run_withLock, if_pos hFree, hBody]
    exact Prod.ext rfl (release_of_free hFree d₁)
  obtain ⟨d, hOpen, hHolds'⟩ := run_openIndex_free (c := c) (s := s.withDir d₁) hHolds₁ hFree
  refine ⟨d, ?_, hHolds'⟩
  rw [commitMerges_eq now (by simpa using hSome), FsE.runAlone_bind_ok hLock]
  unfold reopen
  rw [FsE.runAlone_bind_ok hOpen]
  rfl

end Commit

-- ---------------------------------------------------------------------------
-- A pass with room
-- ---------------------------------------------------------------------------

section Pass

variable [Platform] {policy : MergePolicy} {I : Index} {xs : List StagedMerge} {c : Pid}
  {s : FsState}

/-- The counters suffice for merging the groups of segments, and each of them can be encoded. -/
structure GroupsFit (I : Index) (groups : List (List UInt32)) : Prop where
  ids : I.manifest.nextSegmentId.toNat + groups.length < 2 ^ 32
  docs : Index.endBound I.manifest.segments +
    (groups.map fun g => (movedRecords I g).length).sum < 2 ^ 32
  generation : I.manifest.generation.toNat + 1 < 2 ^ 64
  records : ∀ g ∈ groups, RecordsFit (movedRecords I g)

omit [Platform] in
theorem Index.Sound.distinctIds (hSound : I.Sound) : I.manifest.DistinctIds := by
  have hIds := hSound.ids_nodup
  rwa [show (fun s : Segment => s.entry.segmentId) = SegmentEntry.segmentId ∘ Segment.entry
    from rfl, ← List.map_map, I.entries_eq] at hIds

omit [Platform] in
/-- Segments that are listed are found. -/
theorem exists_mapM_findSegment {g : List UInt32}
    (h : ∀ id ∈ g, ∃ e ∈ I.manifest.segments, e.segmentId = id) :
    ∃ segs, g.mapM I.findSegment = some segs := by
  induction g with
  | nil => exact ⟨[], rfl⟩
  | cons id g ih =>
    obtain ⟨hHead, hTail⟩ := List.forall_mem_cons.mp h
    obtain ⟨segs, hSegs⟩ := ih hTail
    obtain ⟨e, he, hId⟩ := hHead
    obtain ⟨s, hs, rfl⟩ := Index.mem_manifest_segments.mp he
    obtain ⟨t, ht⟩ := Option.isSome_iff_exists.mp
      (List.find?_isSome.mpr ⟨s, hs, by simpa using hId⟩ :
        (I.segments.find? fun s => s.entry.segmentId == id).isSome = true)
    have hFind : I.findSegment id = some t := ht
    exact ⟨t :: segs, by rw [List.mapM_cons, hFind, hSegs]; rfl⟩

omit [Platform] in
/-- The groups of a plan are made of different segments of the index. -/
theorem exists_sources (hSound : I.Sound) {g : List UInt32}
    (hg : g ∈ planMerges policy I.manifest.segments) : ∃ segs, SourcesOf I g segs := by
  obtain ⟨segs, hSegs⟩ := exists_mapM_findSegment fun id hId =>
    exists_of_planned hSound.distinctIds (List.mem_flatten.mpr ⟨g, hg, hId⟩)
  exact ⟨segs, hSegs, (List.nodup_flatten.mp (planMerges_nodup hSound.distinctIds)).1 g hg⟩

omit [Platform] in
theorem map_eq_of_forall₂ {α β γ : Type} {R : α → β → Prop} {f : α → γ} {f' : β → γ}
    (h : ∀ a b, R a b → f a = f' b) {as : List α} {bs : List β} (hAll : List.Forall₂ R as bs) :
    as.map f = bs.map f' := by
  induction hAll with
  | nil => rfl
  | cons hHead _ ih => rw [List.map_cons, List.map_cons, h _ _ hHead, ih]

omit [Platform] in
theorem exists_of_forall₂ {α β : Type} {R : α → β → Prop} {as : List α} {bs : List β}
    (hAll : List.Forall₂ R as bs) {b : β} (hb : b ∈ bs) : ∃ a ∈ as, R a b := by
  induction hAll with
  | nil => cases hb
  | cons hHead _ ih =>
    rcases List.mem_cons.mp hb with rfl | hb
    · exact ⟨_, List.mem_cons_self, hHead⟩
    · obtain ⟨a, ha, hR⟩ := ih hb
      exact ⟨a, List.mem_cons_of_mem _ ha, hR⟩

/-- Merges prepared from the groups of a plan. -/
def PreparedFrom (policy : MergePolicy) (I : Index) (xs : List StagedMerge) : Prop :=
  List.Forall₂ (fun g x => ∃ segs, SourcesOf I g segs ∧ x.Prepares I g segs)
    (planMerges policy I.manifest.segments) xs

theorem PreparedFrom.sourceIds (h : PreparedFrom policy I xs) :
    xs.map (fun x => x.merge.sourceIds) = planMerges policy I.manifest.segments := by
  rw [← map_eq_of_forall₂ (f := id) (fun g x hx => ?_) h, List.map_id]
  obtain ⟨segs, -, hPrepares⟩ := hx
  exact hPrepares.sourceIds.symm

theorem PreparedFrom.numDocs (h : PreparedFrom policy I xs) :
    xs.map (fun x => x.merge.numDocs.toNat) =
      (planMerges policy I.manifest.segments).map fun g => (movedRecords I g).length := by
  refine (map_eq_of_forall₂ (fun g x hx => ?_) h).symm
  obtain ⟨segs, hSources, hPrepares⟩ := hx
  rw [movedRecords_eq hSources.found, ← hPrepares.records, x.length_records]

theorem PreparedFrom.listed (h : PreparedFrom policy I xs) (hSound : I.Sound) :
    SourcesListed I.manifest (xs.map StagedMerge.merge) := by
  intro p hp
  refine List.find?_eq_none.mpr fun id hId => ?_
  have hMem : id ∈ (planMerges policy I.manifest.segments).flatten := by
    rw [← mergedIds_of_sourceIds h.sourceIds]
    exact List.mem_flatMap.mpr ⟨p, hp, hId⟩
  obtain ⟨e, he, hEq⟩ := exists_of_planned hSound.distinctIds hMem
  have hAny : (I.manifest.segments.any fun e => e.segmentId == id) = true :=
    List.any_eq_true.mpr ⟨e, he, by simpa using hEq⟩
  rw [hAny]
  exact Bool.false_ne_true

theorem PreparedFrom.plannedFrom (h : PreparedFrom policy I xs) : PlannedFrom policy I xs := by
  refine ⟨h.sourceIds, fun x hx => ?_⟩
  obtain ⟨g, -, segs, hSources, hPrepares⟩ := exists_of_forall₂ h hx
  exact current_of_prepares hSources.found hPrepares rfl

/-- Merges prepared from the groups of a plan that fit have room. -/
theorem PreparedFrom.room (h : PreparedFrom policy I xs) (hSound : I.Sound)
    (hFit : GroupsFit I (planMerges policy I.manifest.segments)) :
    MergeRoom I (xs.map StagedMerge.merge) := by
  have hLength : xs.length = (planMerges policy I.manifest.segments).length := by
    rw [← h.sourceIds, List.length_map]
  have hKept := length_kept_add_planned policy hSound.distinctIds
  refine ⟨mergesFit_of_sum ?_ ?_, ?_, ?_, hFit.generation⟩
  · rw [List.map_map]
    exact h.numDocs ▸ hFit.docs
  · rw [List.length_map, hLength]
    exact hFit.ids
  · have hAll := I.manifest_ok.length_lt
    rw [List.length_map, hLength, keptEntries, mergedIds_of_sourceIds h.sourceIds]
    omega
  · have hIds : ((keptEntries I.manifest (xs.map StagedMerge.merge)).map
        SegmentEntry.segmentId).Nodup :=
      hSound.distinctIds.sublist (List.filter_sublist.map _)
    exact ((List.pairwise_map.mp hIds).imp fun hNe => Ne.symm hNe).isChain

theorem run_clearStaging_ok {entries : Except IoError (List (StagingTag × SegmentPart))}
    (hList : ∀ e, entries = .error e → e = .notFound) (hHolds : s.dir.Holds (some I)) :
    ∃ d, FsE.runAlone c (clearStaging entries) s = (.ok (), s.withDir d) ∧ d.Holds (some I) := by
  unfold clearStaging
  rcases entries with e | entries
  · obtain rfl := hList e rfl
    exact ⟨s.dir, rfl, hHolds⟩
  · obtain ⟨d, hEval, hLookup⟩ := eval_removeAll (c := c)
      (entries.map fun e => .staged e.1 e.2) s
    refine ⟨d, by rw [FsE.runAlone_ofM, hEval], Index.Backed.of_agree hHolds ?_ ?_⟩
    · rw [hLookup, if_neg (by simp)]
    · intro n hn
      rw [hLookup, if_neg]
      intro hMem
      obtain ⟨e, -, rfl⟩ := List.mem_map.mp hMem
      exact absurd (Index.isData_of_mem_referencedFiles hn) (by simp [FileName.isData])

/-- What a pass that succeeds leaves: the index it found if nothing is planned, and otherwise the
one that its merges are spliced into. -/
inductive PassLeaves (policy : MergePolicy) (I : Index) : Index → Prop
  | same (hNone : planMerges policy I.manifest.segments = []) : PassLeaves policy I I
  | merged {now : Int64} {xs : List StagedMerge}
      (hSome : planMerges policy I.manifest.segments ≠ []) (hPrepared : PreparedFrom policy I xs)
      (hRoom : MergeRoom I (xs.map StagedMerge.merge)) :
      PassLeaves policy I (splicedIndex now I xs hRoom)

/-- A pass that finds the lock free, lists the staging directory and has room succeeds. What it
planned it has committed. -/
theorem run_mergeIndex_ok (now : Int64)
    {entries : Except IoError (List (StagingTag × SegmentPart))}
    (hList : ∀ e, entries = .error e → e = .notFound) (hFree : s.lock = none)
    (hHolds : s.dir.Holds (some I)) (hSound : I.Sound)
    (hFit : planMerges policy I.manifest.segments ≠ [] →
      GroupsFit I (planMerges policy I.manifest.segments)) :
    ∃ J d tags, FsE.runAlone c (mergeIndex now entries policy) s = (.ok J, ⟨d, none, tags⟩) ∧
      d.Holds (some J) ∧ PassLeaves policy I J := by
  obtain ⟨d₁, hClear, hHolds₁⟩ := run_clearStaging_ok (c := c) hList hHolds
  obtain ⟨d₂, hOpen, hHolds₂⟩ := run_openIndex_free (c := c) (s := s.withDir d₁) hHolds₁ hFree
  unfold mergeIndex
  rw [FsE.runAlone_bind_ok hClear, FsE.runAlone_bind_ok hOpen]
  simp only [FsState.withDir_withDir]
  by_cases hNone : planMerges policy I.manifest.segments = []
  · refine ⟨I, d₂, s.tags, ?_, hHolds₂, .same hNone⟩
    rw [hNone, ← hFree]
    rfl
  have hFit' := hFit hNone
  obtain ⟨xs, d₃, tags, hPrepare, hXs, hHolds₃, hStaged⟩ := @run_prepareAll _ I c _ []
    (s.withDir d₂) (fun g hg => exists_sources hSound hg) hFit'.records hHolds₂
    ⟨by simp, by simp, by simp⟩
  rw [List.nil_append] at hPrepare hStaged
  have hPrepared : PreparedFrom policy I xs := hXs
  have hRoom := hPrepared.room hSound hFit'
  have hXsNe : xs ≠ [] := by
    rintro rfl
    exact hNone hPrepared.sourceIds.symm
  obtain ⟨d₄, hCommit, hHolds₄⟩ := @run_commitMerges_ok _ I now _ c ⟨d₃, s.lock, tags⟩
    hXsNe hFree hHolds₃ hSound hStaged (hPrepared.listed hSound) hRoom
  refine ⟨splicedIndex now I xs hRoom, d₄, tags, ?_, hHolds₄, .merged hNone hPrepared hRoom⟩
  have hSome : (planMerges policy I.manifest.segments).isEmpty = false := by
    rw [← Bool.not_eq_true, List.isEmpty_iff]
    exact hNone
  simp only [hSome, Bool.false_eq_true, if_false]
  rw [List.map_nil] at hPrepare
  rw [FsE.runAlone_bind_ok hPrepare]
  refine hCommit.trans ?_
  show (_, (⟨d₄, s.lock, tags⟩ : FsState)) = _
  rw [hFree]

theorem PassLeaves.sound {J : Index} (h : PassLeaves policy I J) (hSound : I.Sound) : J.Sound := by
  cases h with
  | same => exact hSound
  | merged hSome hPrepared hRoom => exact splicedIndex_sound hSound hRoom

theorem PassLeaves.lt {J : Index} (h : PassLeaves policy I J)
    (hThreshold : 0 ≤ policy.delFractionThreshold) (hSound : I.Sound)
    (hSome : planMerges policy I.manifest.segments ≠ []) :
    mergeSize J.manifest.segments < mergeSize I.manifest.segments := by
  cases h with
  | same hNone => exact absurd hNone hSome
  | merged _ hPrepared hRoom =>
    exact splicedManifest_lt hThreshold hSound.distinctIds hSome hPrepared.plannedFrom

end Pass

end Ripindex
