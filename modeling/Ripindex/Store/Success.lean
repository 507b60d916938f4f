import Mathlib.Algebra.Order.BigOperators.Group.List
import Ripindex.Index.Documents
import Ripindex.Store.Build

/-!
# Builds that succeed

`build_segments` fails only where a segment is beyond the limits of its formats. Files that
are within these limits together are so in every segment they are cut into.

## Results

* `encodable_docPostings` — the encoder accepts the posting lists of such files.
* `flushSegment_isOk`     — an accumulator that holds them is flushed.
* `buildSegments_isOk`    — they are built, whatever the cuts.
-/

namespace Ripindex

open Unicode

variable [Platform]

-- ---------------------------------------------------------------------------
-- Success
-- ---------------------------------------------------------------------------

/-- Files within the limits of one segment: its documents, its path heap and the positions
of a text. -/
structure WithinLimits (read : ReadFile) (files : List CrawledFile) : Prop where
  docs : files.length < 2 ^ 32
  paths : (files.map fun cf => cf.entry.path.utf8ByteSize).sum < 2 ^ 32
  atoms : ∀ cf ∈ files, ∀ bytes text, fileText read cf = some (bytes, text) →
    (atomRuns text).length < 2 ^ 32

theorem WithinLimits.sublist {read : ReadFile} {files files' : List CrawledFile}
    (h : WithinLimits read files) (hSub : files'.Sublist files) :
    WithinLimits read files' where
  docs := Nat.lt_of_le_of_lt hSub.length_le h.docs
  paths := Nat.lt_of_le_of_lt ((hSub.map _).sum_le_sum fun _ _ => Nat.zero_le _) h.paths
  atoms := fun cf hcf => h.atoms cf (hSub.subset hcf)

theorem recorded_path (read : ReadFile) (cf : CrawledFile) :
    (recorded read cf).path = cf.entry.path := by
  unfold recorded
  repeat' split
  all_goals rfl

theorem recorded_len {read : ReadFile} {cf : CrawledFile}
    (h : (recorded read cf).status ≠ .indexed) : (recorded read cf).len = 0 := by
  unfold recorded at h ⊢
  repeat' split
  all_goals simp_all [DocMeta.fromEntry]

theorem docPositions_pairwise {read : ReadFile} {files : List CrawledFile}
    (h : WithinLimits read files) {cf : CrawledFile} (hcf : cf ∈ files) (t : String) :
    (docPositions read cf t).Pairwise (· < ·) := by
  unfold docPositions
  split
  · rename_i bytes text hText
    exact (termPositions_tokenize t (h.atoms cf hcf bytes text hText)).1
  · exact List.Pairwise.nil

theorem mem_docPostings_positions {read : ReadFile} {t : String} {doc : DocId}
    {files : List CrawledFile} {q : Posting} (h : q ∈ docPostings read t doc files) :
    q.positions ≠ [] ∧ ∃ cf ∈ files, q.positions = docPositions read cf t := by
  induction files generalizing doc with
  | nil => simp [docPostings] at h
  | cons cf files ih =>
    rcases List.mem_append.mp h with hq | hq
    · obtain ⟨hNe, rfl⟩ := mem_posting_iff.mp hq
      exact ⟨hNe, cf, List.mem_cons_self, rfl⟩
    · obtain ⟨hNe, cf', hcf', hEq⟩ := ih hq
      exact ⟨hNe, cf', List.mem_cons_of_mem _ hcf', hEq⟩

theorem docPostings_pairwise {read : ReadFile} (t : String) {n : Nat}
    {files : List CrawledFile} (hLen : n + files.length ≤ 2 ^ 32) :
    (docPostings read t (UInt32.ofNat n) files).Pairwise fun p q => p.doc < q.doc := by
  induction files generalizing n with
  | nil => exact List.Pairwise.nil
  | cons cf files ih =>
    rw [List.length_cons] at hLen
    rw [docPostings, position_succ]
    refine List.pairwise_append.mpr ⟨?_, ih (by omega), fun p hp q hq => ?_⟩
    · unfold posting
      split
      · exact List.Pairwise.nil
      · exact List.pairwise_singleton _ _
    · obtain ⟨i, hi, hDoc⟩ := mem_docPostings hq
      rw [mem_posting hp, hDoc, ← UInt32.ofNat_add, UInt32.lt_iff_toNat_lt,
        UInt32.toNat_ofNat_of_lt' (Nat.lt_of_lt_of_le (by omega) hLen),
        UInt32.toNat_ofNat_of_lt' (Nat.lt_of_lt_of_le (by omega) hLen)]
      omega

/-- The encoder accepts the lists of files within the limits. -/
theorem encodable_docPostings {read : ReadFile} {files : List CrawledFile}
    (h : WithinLimits read files) (t : String) :
    Idx.Encodable none (docPostings read t 0 files) where
  docs_lt := docPostings_pairwise t (n := 0) (by have := h.docs; omega)
  prev_lt := by simp
  positions_ne_nil := fun p hp => (mem_docPostings_positions hp).1
  positions_lt := fun p hp => by
    obtain ⟨cf, hcf, hEq⟩ := (mem_docPostings_positions hp).2
    rw [hEq]
    exact docPositions_pairwise h hcf t

/-- A flush of files within the limits succeeds. -/
theorem flushSegment_isOk {read : ReadFile} {files : List CrawledFile} {acc : SegmentAcc}
    (hAcc : acc.Holds read files) (hFit : WithinLimits read files) (id : UInt32) :
    ∃ e, (flushSegment id acc).result = .ok e := by
  have hDocs := hAcc.docs hFit.docs
  have hLists : ∀ e ∈ (rebased acc.store acc.base).entries, Idx.Encodable none e.2 := by
    intro e he
    obtain ⟨⟨t, l⟩, hMem, rfl⟩ := List.mem_map.mp he
    have hList : acc.store.list t = l := by
      unfold TermMap.list
      rw [Idx.mem_sortedTerms.mp hMem]
      rfl
    have hShift := docPostings_rebase read t acc.base acc.base files
    rw [UInt32.sub_self, ← hAcc.list hFit.docs, hList] at hShift
    rw [hShift]
    exact encodable_docPostings hFit t
  obtain ⟨⟨idx, counts⟩, hIdx⟩ := Idx.write_isOk hLists
  have hCheck : Doc.checkDocs 0 acc.docs = .ok () := by
    refine Doc.checkDocs_isOk ?_ fun d hd => ?_
    · rw [hDocs, List.map_map, Nat.zero_add]
      simpa only [Function.comp_def, recorded_path] using hFit.paths
    · rw [hDocs] at hd
      obtain ⟨cf, -, rfl⟩ := List.mem_map.mp hd
      exact recorded_len
  have hEncode : Doc.encode acc.docs = .ok acc.docs := by
    simp [Doc.encode, hCheck, bind, Except.bind, pure, Except.pure]
  have hParse : ∃ v, Doc.parse acc.docs = .ok v := by
    unfold Doc.parse
    rw [dif_pos (by rw [hAcc.length_docs]; exact hFit.docs)]
    exact ⟨_, rfl⟩
  obtain ⟨v, hParse⟩ := hParse
  unfold flushSegment
  exact ⟨_, Plan.bind_ok.mpr ⟨(), rfl, Plan.bind_ok.mpr ⟨_, Plan.ofFormat_result_ok.mpr hIdx,
    Plan.bind_ok.mpr ⟨(), rfl, Plan.bind_ok.mpr ⟨_, Plan.ofFormat_result_ok.mpr hEncode,
      Plan.bind_ok.mpr ⟨_, Plan.ofFormat_result_ok.mpr hParse,
        Plan.bind_ok.mpr ⟨(), rfl, rfl⟩⟩⟩⟩⟩⟩⟩

theorem BuildState.flush_isOk {read : ReadFile} {files : List CrawledFile} {st : BuildState}
    (hAcc : st.acc.Holds read files) (hFit : WithinLimits read files) :
    ∃ st', st.flush.result = .ok st' := by
  obtain ⟨e, hFlush⟩ := flushSegment_isOk hAcc hFit st.nextId
  exact ⟨_, Plan.bind_ok.mpr ⟨e, hFlush, rfl⟩⟩

theorem buildShards_isOk {read : ReadFile} {cfg : BuildConfig} {base first : DocId}
    {id : UInt32} (fuel : Nat) {i : Nat} {done acc l : List CrawledFile}
    {segs : List Segment} {st : BuildState} (h : BuildInv read base id done acc segs st)
    (hFuel : l.length ≤ fuel)
    (hAlign : l ≠ [] → first + UInt32.ofNat (i * max cfg.shardSize 1) =
      base + UInt32.ofNat (done.length + acc.length))
    (hFit : WithinLimits read (done ++ acc ++ l)) :
    ∃ st', (buildShards read cfg first i st
      (chunksFuel (max cfg.shardSize 1) fuel l)).result = .ok st' := by
  induction fuel generalizing i done acc l segs st with
  | zero => exact ⟨st, rfl⟩
  | succ fuel ih =>
    by_cases hl : l = []
    · subst hl
      exact ⟨st, rfl⟩
    · set size := max cfg.shardSize 1 with hSize
      have hPos : 0 < size := by omega
      have hDrop := length_drop_le_fuel hl hPos hFuel
      simp only [chunksFuel_of_ne_nil hl, buildShards]
      rw [← hSize]
      have h₁ := h.absorb_next (hAlign hl) (l.take size)
      set st₁ : BuildState :=
        { st with acc := st.acc.absorb (indexShard read
            (first + UInt32.ofNat (i * size)) (l.take size)) (l.take size) }
      have hTake : acc ++ l.take size ≠ [] := by
        simp [hl, hPos.ne']
      have hAll : done ++ (acc ++ l.take size) ++ l.drop size = done ++ acc ++ l := by
        rw [List.append_assoc, List.append_assoc, List.append_assoc, List.take_append_drop]
      have hFlush : ∃ st₂, (if st₁.acc.overBudget cfg then st₁.flush
          else pure st₁ : Plan BuildState).result = .ok st₂ := by
        split
        · refine BuildState.flush_isOk h₁.holds (hFit.sublist ?_)
          rw [← hAll]
          exact (List.sublist_append_right _ _).trans (List.sublist_append_left _ _)
        · exact ⟨_, rfl⟩
      obtain ⟨st₂, hSt₂⟩ := hFlush
      obtain ⟨done₂, acc₂, new₂, hInv₂, hFiles₂, -⟩ := h₁.flushIf hTake hSt₂
      rw [List.append_nil] at hFiles₂
      obtain ⟨st', hSt'⟩ := ih hInv₂ hDrop (shard_aligned (hAlign hl) hFiles₂)
        (by rw [hFiles₂, hAll]; exact hFit)
      exact ⟨st', Plan.bind_ok.mpr ⟨st₂, hSt₂, hSt'⟩⟩

theorem buildBatches_isOk {read : ReadFile} {cfg : BuildConfig} {base : DocId}
    {id : UInt32} (hBatch : batchSize cfg ≠ 0) (fuel : Nat) {b : Nat}
    {done acc l : List CrawledFile} {segs : List Segment} {st : BuildState}
    (h : BuildInv read base id done acc segs st)
    (hFuel : l.length ≤ fuel)
    (hAlign : l ≠ [] → b * batchSize cfg = done.length + acc.length)
    (hFit : WithinLimits read (done ++ acc ++ l)) :
    ∃ st', (buildBatches read cfg base b st
      (chunksFuel (batchSize cfg) fuel l)).result = .ok st' := by
  induction fuel generalizing b done acc l segs st with
  | zero => exact ⟨st, rfl⟩
  | succ fuel ih =>
    by_cases hl : l = []
    · subst hl
      exact ⟨st, rfl⟩
    · have hDrop := length_drop_le_fuel hl (Nat.pos_of_ne_zero hBatch) hFuel
      simp only [chunksFuel_of_ne_nil hl, buildBatches]
      rw [hAlign hl]
      have hAll : done ++ acc ++ l.take (batchSize cfg) ++ l.drop (batchSize cfg) =
          done ++ acc ++ l := by
        rw [List.append_assoc, List.take_append_drop]
      have hShards : ∃ st₁, (buildShards read cfg
          (base + UInt32.ofNat (done.length + acc.length)) 0 st
          (chunks (max cfg.shardSize 1) (l.take (batchSize cfg)))).result = .ok st₁ :=
        buildShards_isOk _ h (Nat.le_refl _) (by simp)
          (hFit.sublist (hAll ▸ List.sublist_append_left _ _))
      obtain ⟨st₁, hSt₁⟩ := hShards
      obtain ⟨done₁, acc₁, new₁, hInv₁, hFiles₁, -⟩ :=
        buildShards_extends _ h (Nat.le_refl _) (by simp) hSt₁
      obtain ⟨st', hSt'⟩ := ih hInv₁ hDrop (batch_aligned (hAlign hl) hFiles₁)
        (by rw [hFiles₁, hAll]; exact hFit)
      exact ⟨st', Plan.bind_ok.mpr ⟨st₁, hSt₁, hSt'⟩⟩

/-- Building files within the limits succeeds, whatever the cuts, unless the batch size
wraps to 0. -/
theorem buildSegments_isOk {read : ReadFile} {files : List CrawledFile}
    (hFit : WithinLimits read files) (base : DocId) {cfg : BuildConfig}
    (hBatch : batchSize cfg ≠ 0) (id : UInt32) :
    ∃ r, (buildSegments read files base cfg id).result = .ok r := by
  have hInit := BuildInv.start read base id
  have hBatches : ∃ st₁, (buildBatches read cfg base 0 ⟨SegmentAcc.new base, [], id⟩
      (chunks (batchSize cfg) files)).result = .ok st₁ :=
    buildBatches_isOk hBatch _ hInit (Nat.le_refl _) (by simp) hFit
  obtain ⟨st₁, hSt₁⟩ := hBatches
  obtain ⟨done₁, acc₁, new₁, hInv₁, hFiles₁, -⟩ :=
    buildBatches_extends hBatch _ hInit (Nat.le_refl _) (by simp) hSt₁
  have hLast : ∃ st₂, (if st₁.acc.docs.isEmpty then pure st₁
      else st₁.flush : Plan BuildState).result = .ok st₂ := by
    split
    · exact ⟨_, rfl⟩
    · refine BuildState.flush_isOk hInv₁.holds (hFit.sublist ?_)
      have hAll : done₁ ++ acc₁ = files := by simpa using hFiles₁
      rw [← hAll]
      exact List.sublist_append_right _ _
  obtain ⟨st₂, hSt₂⟩ := hLast
  rw [buildSegments, if_neg hBatch]
  exact ⟨_, Plan.bind_ok.mpr ⟨st₁, hSt₁, Plan.bind_ok.mpr ⟨st₂, hSt₂, rfl⟩⟩⟩

end Ripindex
