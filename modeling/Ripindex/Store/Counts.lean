import Ripindex.Store.History

/-!
# The number of indexed documents

`Index::recompute_stats` takes the deleted documents of every status from the indexed ones of
a segment. What that gives is the number of live indexed documents exactly when no document
of another status was deleted beside one that is live and indexed.

## Results

* `indexedCount_eq_iff` — when `N` of BM25 is what `IndexReader` says it is.
-/

namespace Ripindex

-- ---------------------------------------------------------------------------
-- Counting by position
-- ---------------------------------------------------------------------------

theorem countP_range {α : Type} (p : α → Bool) (l : List α) :
    (List.range l.length).countP (fun i => l[i]?.any p) = l.countP p := by
  induction l with
  | nil => rfl
  | cons a l ih =>
    rw [List.length_cons, List.range_succ_eq_map, List.countP_cons, List.countP_map,
      List.countP_cons, ← ih]
    rfl

/-- A count split by a second predicate. -/
theorem countP_and_add {α : Type} (p q : α → Bool) (l : List α) :
    l.countP (fun a => p a && q a) + l.countP (fun a => p a && !q a) = l.countP p := by
  induction l with
  | nil => rfl
  | cons a l ih =>
    simp only [List.countP_cons]
    cases p a <;> cases q a <;> simp <;> omega

namespace Segment

/-- The local id is of a document with status `indexed`. -/
def isIndexed (s : Segment) (i : Nat) : Bool :=
  s.docs[i]?.any fun m => m.status = .indexed

/-- Documents of the segment that are indexed and not deleted. -/
def liveIndexed (s : Segment) : Nat :=
  (List.range s.docs.length).countP fun i =>
    s.isIndexed i && !s.isDeleted (UInt32.ofNat i)

/-- Deleted documents of another status. -/
def deletedOther (s : Segment) : Nat :=
  (List.range s.docs.length).countP fun i =>
    s.isDeleted (UInt32.ofNat i) && !s.isIndexed i

/-- No document of another status is deleted beside one that is live and indexed. -/
def Unmixed (s : Segment) : Prop :=
  (∀ i < s.docs.length, s.isDeleted (UInt32.ofNat i) → s.isIndexed i) ∨
    ∀ i < s.docs.length, s.isIndexed i → s.isDeleted (UInt32.ofNat i)

theorem toNat_numIndexed (s : Segment) :
    s.numIndexed.toNat = (List.range s.docs.length).countP s.isIndexed := by
  have hLe := List.countP_le_length (p := fun d : DocMeta => decide (d.status = .indexed))
    (l := s.docs)
  have hLt : s.docs.length < 2 ^ 32 := s.length_docs ▸ s.entry.numDocs.toNat_lt
  rw [numIndexed, Doc.numIndexed, UInt32.toNat_ofNat_of_lt' (Nat.lt_of_le_of_lt hLe hLt)]
  exact (countP_range _ _).symm

theorem isDeleted_eq (s : Segment) {i : Nat} (hi : i < s.docs.length) :
    s.isDeleted (UInt32.ofNat i) = s.bitmap.bits[i]?.any id := by
  have hLt : i < 2 ^ 32 :=
    Nat.lt_trans hi (s.length_docs ▸ s.entry.numDocs.toNat_lt)
  rw [← s.get_bitmap, Bitmap.get, UInt32.toNat_ofNat_of_lt' hLt, List.getD_eq_getElem?_getD]
  cases s.bitmap.bits[i]? <;> rfl

/-- The deletions an entry counts are those of its bitmap. -/
theorem toNat_numDeleted (s : Segment) (h : s.del = none → s.entry.numDeleted = 0) :
    s.entry.numDeleted.toNat =
      (List.range s.docs.length).countP fun i => s.isDeleted (UInt32.ofNat i) := by
  have hCount : s.bitmap.count = s.entry.numDeleted := by
    cases hDel : s.del with
    | none =>
      rw [h hDel, bitmap, hDel]
      simp [Bitmap.count, Bitmap.new, List.count_replicate]
    | some b =>
      rw [bitmap, hDel]
      exact s.count_del b hDel
  have hLen : s.bitmap.bits.length = s.docs.length := by
    rw [s.bitmap.length_bits, numDocs_bitmap, s.length_docs]
  rw [← hCount, Bitmap.toNat_count]
  have hBits : s.bitmap.bits.count true =
      (List.range s.docs.length).countP fun i => s.bitmap.bits[i]?.any id := by
    rw [← hLen, countP_range]
    exact List.countP_congr (by simp)
  rw [hBits]
  refine List.countP_congr fun i hi => ?_
  rw [s.isDeleted_eq (List.mem_range.mp hi)]

/-- What a segment contributes to `indexed_count`: with its live indexed documents it loses
the deleted ones of another status. -/
theorem numIndexed_sub_numDeleted (s : Segment) (h : s.del = none → s.entry.numDeleted = 0) :
    s.numIndexed.toNat - s.entry.numDeleted.toNat = s.liveIndexed - s.deletedOther := by
  have hIndexed := countP_and_add s.isIndexed (fun i => s.isDeleted (UInt32.ofNat i))
    (List.range s.docs.length)
  have hDeleted := countP_and_add (fun i => s.isDeleted (UInt32.ofNat i)) s.isIndexed
    (List.range s.docs.length)
  have hComm : (List.range s.docs.length).countP
      (fun i => s.isDeleted (UInt32.ofNat i) && s.isIndexed i) =
      (List.range s.docs.length).countP
        (fun i => s.isIndexed i && s.isDeleted (UInt32.ofNat i)) :=
    List.countP_congr fun i _ => by rw [Bool.and_comm]
  rw [toNat_numIndexed, s.toNat_numDeleted h, liveIndexed, deletedOther]
  omega

theorem unmixed_iff (s : Segment) :
    s.Unmixed ↔ s.deletedOther = 0 ∨ s.liveIndexed = 0 := by
  unfold Unmixed deletedOther liveIndexed
  simp only [List.countP_eq_zero, List.mem_range, Bool.and_eq_true, Bool.not_eq_true', not_and,
    Bool.not_eq_false]

/-- A segment contributes its live indexed documents exactly when it is unmixed. -/
theorem contributes_iff (s : Segment) (h : s.del = none → s.entry.numDeleted = 0) :
    s.numIndexed.toNat - s.entry.numDeleted.toNat = s.liveIndexed ↔ s.Unmixed := by
  rw [s.numIndexed_sub_numDeleted h, unmixed_iff]
  omega

end Segment

namespace Index

/-- Documents of the index that are indexed and not deleted. -/
def liveIndexed (I : Index) : Nat := (I.segments.map Segment.liveIndexed).sum

end Index

/-- Terms that are each at most as large have at most the sum, and the same one only if they
are the same. -/
theorem sum_map_le {α : Type} {f g : α → Nat} {l : List α} (h : ∀ a ∈ l, f a ≤ g a) :
    (l.map f).sum ≤ (l.map g).sum ∧
      ((l.map f).sum = (l.map g).sum ↔ ∀ a ∈ l, f a = g a) := by
  induction l with
  | nil => simp
  | cons a l ih =>
    obtain ⟨hHead, hTail⟩ := List.forall_mem_cons.mp h
    obtain ⟨hLe, hIff⟩ := ih hTail
    simp only [List.map_cons, List.sum_cons, List.forall_mem_cons, ← hIff]
    omega

/-- Ranges in order hold no more documents than the last one ends at. -/
theorem sum_numDocs_le {es : List SegmentEntry} {b : Nat}
    (hPair : es.Pairwise fun p e => p.endDoc ≤ e.baseDoc.toNat)
    (hBase : ∀ e ∈ es, b ≤ e.baseDoc.toNat) :
    b + (es.map fun e => e.numDocs.toNat).sum ≤ max b (Index.endBound es) := by
  induction es generalizing b with
  | nil => simp
  | cons e es ih =>
    obtain ⟨hHead, hTail⟩ := List.pairwise_cons.mp hPair
    have hRest := ih hTail hHead
    have hb := hBase e List.mem_cons_self
    rw [Index.endBound_cons, List.map_cons, List.sum_cons]
    rw [SegmentEntry.endDoc] at hRest ⊢
    omega

theorem liveIndexed_le (I : Index) : I.liveIndexed ≤ 2 ^ 32 := by
  have hDocs : I.liveIndexed ≤ (I.segments.map fun s => s.entry.numDocs.toNat).sum := by
    refine (sum_map_le fun s _ => ?_).1
    rw [Segment.liveIndexed, ← s.length_docs]
    exact List.countP_le_length.trans (List.length_range).le
  have hSum := sum_numDocs_le (b := 0) I.manifest_ok.pairwise_base (by simp)
  rw [← I.entries_eq, List.map_map] at hSum
  have hBound := I.endBound_le_of_ok
  rw [← I.entries_eq] at hBound
  have hMax : max 0 (Index.endBound (I.segments.map Segment.entry)) =
      Index.endBound (I.segments.map Segment.entry) := Nat.zero_max _
  rw [hMax, Nat.zero_add] at hSum
  exact hDocs.trans (hSum.trans hBound)

variable [Platform]

/-- `indexed_count` is the number of live indexed documents exactly when no segment mixes
deletions of other documents with live indexed ones, and that number fits. -/
theorem indexedCount_eq_iff {I : Index} (hI : Reached I) :
    I.indexedCount.toNat = I.liveIndexed ↔
      (∀ s ∈ I.segments, s.Unmixed) ∧ I.liveIndexed < 2 ^ 32 := by
  have hDel := hI.sound.numDeleted
  have hEach : ∀ s ∈ I.segments,
      s.numIndexed.toNat - s.entry.numDeleted.toNat ≤ s.liveIndexed := by
    intro s hs
    rw [s.numIndexed_sub_numDeleted (hDel s hs)]
    exact Nat.sub_le _ _
  obtain ⟨hLe, hIff⟩ := sum_map_le hEach
  have hUnmixed : (∀ s ∈ I.segments,
      s.numIndexed.toNat - s.entry.numDeleted.toNat = s.liveIndexed) ↔
        ∀ s ∈ I.segments, s.Unmixed :=
    forall₂_congr fun s hs => s.contributes_iff (hDel s hs)
  rw [← hUnmixed, ← hIff]
  have hBound := liveIndexed_le I
  have hVal : I.indexedCount.toNat = (I.segments.map fun s =>
      s.numIndexed.toNat - s.entry.numDeleted.toNat).sum % 2 ^ 32 := by
    rw [Index.indexedCount, UInt32.toNat_ofNat']
  change _ = (I.segments.map Segment.liveIndexed).sum ↔ _
  have hLive : I.liveIndexed = (I.segments.map Segment.liveIndexed).sum := rfl
  rw [hVal]
  -- The sum is at most the number of live indexed documents, which is at most `2 ^ 32`.
  rw [hLive] at hBound ⊢
  constructor
  · intro hEq
    have := Nat.mod_lt (I.segments.map fun s =>
      s.numIndexed.toNat - s.entry.numDeleted.toNat).sum (show 0 < 2 ^ 32 by decide)
    omega
  · rintro ⟨hEq, hLt⟩
    rw [hEq]
    exact Nat.mod_eq_of_lt hLt

-- ---------------------------------------------------------------------------
-- A text file and a binary one
-- ---------------------------------------------------------------------------

/-- An empty text `a` and a binary `b`. -/
def mixedFiles : List CrawledFile :=
  [⟨⟨"a", 1, 0, 0⟩, .text⟩, ⟨⟨"b", 2, 0, 1⟩, .binary⟩]

def mixedWorld : World where
  rootIsDir := true
  crawl := .ok mixedFiles
  reconcileRead := fun _ => .error .other
  indexRead := fun _ => .ok ⟨#[]⟩
  now := 0

def mixedConfig : BuildConfig := ⟨10, 10, 1000⟩

omit [Platform] in
/-- A first build puts them into one segment. -/
theorem exists_mixed_build :
    let _ := Platform.reference
    ∃ I s, SingleBuild mixedWorld mixedFiles I s := by
  intro _
  have hOk : (buildPlan mixedWorld mixedConfig mixedFiles none).result.isOk = true := by
    decide +kernel
  exact SingleBuild.exists_of hOk ⟨by decide +kernel, by decide +kernel, by decide +kernel⟩
    (by decide +kernel)

omit [Platform] in
/-- The statuses a build records for them. -/
theorem isIndexed_mixed :
    let _ := Platform.reference
    ∀ s : Segment, s.docs = mixedFiles.map (recorded mixedWorld.indexRead) →
      s.docs.length = 2 ∧ s.isIndexed 0 = true ∧ s.isIndexed 1 = false := by
  intro _ s hDocs
  unfold Segment.isIndexed
  rw [hDocs]
  exact ⟨by decide +kernel, by decide +kernel, by decide +kernel⟩

/-- With another empty text `c`. -/
def twoTexts : List CrawledFile := mixedFiles ++ [⟨⟨"c", 3, 0, 0⟩, .text⟩]

omit [Platform] in
/-- Where one of two texts is deleted and a binary file is not, the count is right. -/
theorem indexedCount_text_delete : ∃ _ : Platform, ∃ I, Reached I ∧
    (∃ s ∈ I.segments, s.isDeleted 0 = true ∧ s.isIndexed 0 = true) ∧ I.liveIndexed = 1 ∧
    I.indexedCount.toNat = I.liveIndexed := by
  refine ⟨Platform.reference, ?_⟩
  let _ := Platform.reference
  have hOk : (buildPlan { mixedWorld with crawl := .ok twoTexts } mixedConfig twoTexts
      none).result.isOk = true := by
    decide +kernel
  obtain ⟨I, s, hBuild⟩ := SingleBuild.exists_of hOk ⟨by decide +kernel, by decide +kernel,
    by decide +kernel⟩ (by decide +kernel)
  have hId : (0 : DocId) < s.entry.numDocs := by
    rw [UInt32.lt_iff_toNat_lt, hBuild.records.numDocs]
    decide
  have hReached : Reached (deletedIndex 0 I [0] (deletedManifest_ok (hBuild.deleteRoom 0))) :=
    .next (.first hBuild.commit) (.delete (hBuild.gives hId))
  have hSegs : (deletedIndex 0 I [0] (deletedManifest_ok (hBuild.deleteRoom 0))).segments =
      [s.tombstoned [0]] := hBuild.amendedSegments hId
  have hDocs := (s.docs_tombstoned [0]).trans hBuild.records.docs
  have hLen : (s.tombstoned [0]).docs.length = 3 := by
    rw [hDocs]
    rfl
  have hIndexed : (s.tombstoned [0]).isIndexed 0 = true ∧
      (s.tombstoned [0]).isIndexed 1 = false ∧ (s.tombstoned [0]).isIndexed 2 = true := by
    unfold Segment.isIndexed
    rw [hDocs]
    exact ⟨by decide +kernel, by decide +kernel, by decide +kernel⟩
  obtain ⟨hFirst, hSecond, hThird⟩ := hIndexed
  have hGone : (s.tombstoned [0]).isDeleted (UInt32.ofNat 0) = true :=
    (hBuild.isDeleted_tombstoned hId _).mpr rfl
  have hKept : (s.tombstoned [0]).isDeleted (UInt32.ofNat 2) = false := by
    rw [Bool.eq_false_iff, ne_eq, hBuild.isDeleted_tombstoned hId]
    decide
  have hLive : (s.tombstoned [0]).liveIndexed = 1 := by
    simp only [Segment.liveIndexed, hLen, List.range_succ, List.range_zero, List.nil_append,
      List.cons_append, List.countP_cons, List.countP_nil, hFirst, hSecond, hThird, hGone, hKept]
    rfl
  have hLiveAll : (deletedIndex 0 I [0] (deletedManifest_ok (hBuild.deleteRoom 0))).liveIndexed =
      1 := by
    rw [Index.liveIndexed, hSegs, List.map_singleton, List.sum_singleton, hLive]
  refine ⟨_, hReached, ⟨s.tombstoned [0], by simp [hSegs], hGone, hFirst⟩, hLiveAll,
    (indexedCount_eq_iff hReached).mpr ⟨fun t ht => ?_, by rw [hLiveAll]; decide⟩⟩
  rw [hSegs] at ht
  obtain rfl := List.mem_singleton.mp ht
  refine .inl fun i hi hDel => ?_
  have hZero := (hBuild.isDeleted_tombstoned hId _).mp hDel
  obtain rfl : i = 0 := by
    rw [← UInt32.toNat_inj, UInt32.toNat_ofNat_of_lt' (show i < 2 ^ 32 by omega)] at hZero
    exact hZero
  exact hFirst

omit [Platform] in
/-- Deleting the binary file takes the text out of the count. -/
theorem indexedCount_mixed_delete : ∃ _ : Platform, ∃ I, Reached I ∧
    I.indexedCount.toNat ≠ I.liveIndexed := by
  refine ⟨Platform.reference, ?_⟩
  let _ := Platform.reference
  obtain ⟨I, s, hBuild⟩ := exists_mixed_build
  have hId : (1 : DocId) < s.entry.numDocs := by
    rw [UInt32.lt_iff_toNat_lt, hBuild.records.numDocs]
    decide
  have hReached : Reached (deletedIndex 0 I [1] (deletedManifest_ok (hBuild.deleteRoom 1))) :=
    .next (.first hBuild.commit) (.delete (hBuild.gives hId))
  have hSegs : (deletedIndex 0 I [1] (deletedManifest_ok (hBuild.deleteRoom 1))).segments =
      [s.tombstoned [1]] := hBuild.amendedSegments hId
  refine ⟨_, hReached, fun hEq => ?_⟩
  obtain ⟨hLen, hFirst, hSecond⟩ := isIndexed_mixed (s.tombstoned [1])
    ((s.docs_tombstoned _).trans hBuild.records.docs)
  have hText : (s.tombstoned [1]).isDeleted (UInt32.ofNat 0) = false := by
    rw [Bool.eq_false_iff, ne_eq, hBuild.isDeleted_tombstoned hId]
    decide
  have hBinary : (s.tombstoned [1]).isDeleted (UInt32.ofNat 1) = true :=
    (hBuild.isDeleted_tombstoned hId _).mpr rfl
  -- One live indexed document, one deleted one of another status.
  have hLive : (s.tombstoned [1]).liveIndexed = 1 := by
    simp only [Segment.liveIndexed, hLen, List.range_succ, List.range_zero, List.nil_append,
      List.singleton_append, List.countP_cons, List.countP_nil, hFirst, hSecond, hText]
    rfl
  have hOther : (s.tombstoned [1]).deletedOther = 1 := by
    simp only [Segment.deletedOther, hLen, List.range_succ, List.range_zero, List.nil_append,
      List.singleton_append, List.countP_cons, List.countP_nil, hFirst, hSecond, hText, hBinary]
    rfl
  have hPart := (s.tombstoned [1]).numIndexed_sub_numDeleted
    (hReached.sound.numDeleted _ (by simp [hSegs]))
  rw [Index.indexedCount, Index.liveIndexed, hSegs] at hEq
  simp [hPart, hLive, hOther] at hEq

-- ---------------------------------------------------------------------------
-- A text that is not empty
-- ---------------------------------------------------------------------------

def textFile : CrawledFile := ⟨⟨"a", 1, 0, 1⟩, .text⟩

def dataFile : CrawledFile := ⟨⟨"b", 2, 0, 0⟩, .binary⟩

/-- The text `x`. -/
def textBytes : ByteArray := ⟨#[120]⟩

/-- With the hash of the one text that is read. -/
@[reducible] def textPlatform : Platform :=
  { Platform.reference with
    xxh3 := fun bytes => if bytes.data = #[120] then 0xeaf06c6480b2cd11 else 0 }

def textWorld : World where
  rootIsDir := true
  crawl := .ok [textFile, dataFile]
  reconcileRead := fun _ => .ok textBytes
  indexRead := fun _ => .ok textBytes
  now := 0

omit [Platform] in
theorem room_text :
    let _ := textPlatform
    BuildRoom textWorld mixedConfig [textFile, dataFile] none := by
  intro _
  exact ⟨by decide +kernel, by decide +kernel, by decide +kernel⟩

end Ripindex
