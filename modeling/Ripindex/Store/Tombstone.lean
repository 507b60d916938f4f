import Ripindex.Store.Evolve

/-!
# Tombstones

What `tombstone` and `tombstoneAll` do to segments: `Segment.tombstoned` is the segment
afterwards, `Segment.delFiles` the deletions file written for it, if any bit is new.

## Results

* `tombstone_result`, `tombstoneAll_result` — the plans always succeed;
* `tombstoneAll_installs` — they write the new deletions files and nothing else;
* `Segment.carried_tombstoned`, `Segment.isDeleted_tombstoned` — the segment afterwards.
-/

namespace Ripindex

-- ---------------------------------------------------------------------------
-- Bitmaps
-- ---------------------------------------------------------------------------

namespace Bitmap

@[simp] theorem numDocs_set (b : Bitmap) (i : UInt32) : (b.set i).numDocs = b.numDocs := rfl

theorem get_set (b : Bitmap) (i j : UInt32) :
    (b.set i).get j = (b.get j || (i = j && i < b.numDocs)) := by
  unfold get set
  simp only [List.getD_eq_getElem?_getD, List.getElem?_set, b.length_bits,
    UInt32.toNat_inj, UInt32.lt_iff_toNat_lt]
  by_cases h : i = j
  · subst h
    by_cases hLt : i.toNat < b.numDocs.toNat
    · simp [hLt]
    · have : b.bits[i.toNat]? = none := by
        rw [List.getElem?_eq_none_iff, b.length_bits]
        omega
      simp [hLt, this]
  · simp [h]

theorem get_new (n i : UInt32) : (new n).get i = false := by
  simp [get, new, List.getD_eq_getElem?_getD, List.getElem?_replicate]
  split <;> rfl

/-- The count does not wrap. -/
theorem toNat_count (b : Bitmap) : b.count.toNat = b.bits.count true := by
  apply UInt32.toNat_ofNat_of_lt'
  have := List.count_le_length (a := true) (l := b.bits)
  rw [b.length_bits] at this
  exact Nat.lt_of_le_of_lt this b.numDocs.toNat_lt

theorem count_le (b : Bitmap) : b.count ≤ b.numDocs := by
  rw [UInt32.le_iff_toNat_le, toNat_count, ← b.length_bits]
  exact List.count_le_length

end Bitmap

@[simp] theorem numDocs_setAll (b : Bitmap) (ls : List DocId) :
    (setAll b ls).1.numDocs = b.numDocs := by
  induction ls generalizing b with
  | nil => rfl
  | cons l ls ih => exact ih (b.set l)

/-- The bits set afterwards: those before and those given, in range. -/
theorem get_setAll (b : Bitmap) (ls : List DocId) (i : DocId) :
    (setAll b ls).1.get i ↔ b.get i ∨ i ∈ ls ∧ i < b.numDocs := by
  induction ls generalizing b with
  | nil => simp [setAll]
  | cons l ls ih =>
    have hStep : (setAll b (l :: ls)).1 = (setAll (b.set l) ls).1 := rfl
    rw [hStep, ih, Bitmap.get_set]
    simp only [Bitmap.numDocs_set, Bool.or_eq_true, Bool.and_eq_true, decide_eq_true_eq,
      List.mem_cons]
    constructor
    · rintro ((h | ⟨rfl, hLt⟩) | ⟨hMem, hLt⟩)
      · exact .inl h
      · exact .inr ⟨.inl rfl, hLt⟩
      · exact .inr ⟨.inr hMem, hLt⟩
    · rintro (h | ⟨rfl | hMem, hLt⟩)
      · exact .inl (.inl h)
      · exact .inl (.inr ⟨rfl, hLt⟩)
      · exact .inr ⟨hMem, hLt⟩

theorem Bitmap.set_of_not_newlySet {b : Bitmap} {i : DocId} (h : b.newlySet i = false) :
    b.set i = b := by
  apply Bitmap.ext
  change b.bits.set i.toNat true = b.bits
  apply List.ext_getElem?
  intro j
  rw [List.getElem?_set]
  split
  · rename_i hij
    subst hij
    split
    · rename_i hLt
      rw [b.length_bits] at hLt
      have hGet : b.get i = true := by
        simpa [newlySet, UInt32.lt_iff_toNat_lt, hLt] using h
      unfold get at hGet
      rw [List.getD_eq_getElem?_getD] at hGet
      cases hAt : b.bits[i.toNat]? with
      | none => simp [hAt] at hGet
      | some x => simpa [hAt] using hGet.symm
    · rename_i hLt
      rw [List.getElem?_eq_none_iff.mpr (by omega)]
  · rfl

/-- Without a new bit the bitmap is the same. -/
theorem setAll_of_unchanged {b : Bitmap} {ls : List DocId} (h : (setAll b ls).2 = false) :
    (setAll b ls).1 = b := by
  induction ls generalizing b with
  | nil => rfl
  | cons l ls ih =>
    have hStep : setAll b (l :: ls) =
        ((setAll (b.set l) ls).1, b.newlySet l || (setAll (b.set l) ls).2) := rfl
    rw [hStep] at h ⊢
    obtain ⟨hNew, hRest⟩ := Bool.or_eq_false_iff.mp h
    rw [ih hRest, Bitmap.set_of_not_newlySet hNew]

-- ---------------------------------------------------------------------------
-- One segment
-- ---------------------------------------------------------------------------

namespace Segment

theorem numDocs_bitmap (s : Segment) : s.bitmap.numDocs = s.entry.numDocs := by
  unfold bitmap
  cases h : s.del with
  | none => rfl
  | some b => exact s.numDocs_del b h

theorem get_bitmap (s : Segment) (i : DocId) : s.bitmap.get i = s.isDeleted i := by
  unfold bitmap isDeleted
  cases s.del with
  | none => exact Bitmap.get_new _ i
  | some b => rfl

/-- The deletions after tombstoning. -/
def newBitmap (s : Segment) (locals : List DocId) : Bitmap := (setAll s.bitmap locals).1

/-- Whether tombstoning deletes anything. -/
def changes (s : Segment) (locals : List DocId) : Bool := (setAll s.bitmap locals).2

theorem numDocs_newBitmap (s : Segment) (locals : List DocId) :
    (s.newBitmap locals).numDocs = s.entry.numDocs := by
  rw [newBitmap, numDocs_setAll, numDocs_bitmap]

/-- The deletions file tombstoning writes. -/
def delFiles (s : Segment) (locals : List DocId) : List (FileName × FileData) :=
  if s.changes locals then
    [(.del s.entry.segmentId (s.entry.delGen + 1), .del (s.newBitmap locals))]
  else []

/-- The deletions file tombstoning retires. -/
def retiredDel (s : Segment) (locals : List DocId) : List FileName :=
  if s.changes locals ∧ 0 < s.entry.delGen then
    [.del s.entry.segmentId s.entry.delGen]
  else []

/-- A new deletions file still has a number. -/
def HasDelRoom (s : Segment) (locals : List DocId) : Prop :=
  s.changes locals → s.entry.delGen.toNat + 1 < 2 ^ 32

instance (s : Segment) (locals : List DocId) : Decidable (s.HasDelRoom locals) := by
  unfold HasDelRoom
  infer_instance

variable [Platform]

/-- The segment with the deletions `b`, under the next generation. -/
def withDel (s : Segment) (b : Bitmap) (h : b.numDocs = s.entry.numDocs) : Segment where
  entry := s.entry.withDel b
  idx := s.idx
  docs := s.docs
  del := some b
  length_docs := s.length_docs
  numDocs_del := by rintro _ ⟨⟩; exact h
  count_del := by rintro _ ⟨⟩; rfl

/-- The segment after tombstoning local ids. -/
def tombstoned (s : Segment) (locals : List DocId) : Segment :=
  if s.changes locals then s.withDel (s.newBitmap locals) (s.numDocs_newBitmap locals) else s

@[simp] theorem segmentId_tombstoned (s : Segment) (locals : List DocId) :
    (s.tombstoned locals).entry.segmentId = s.entry.segmentId := by
  unfold tombstoned
  split <;> rfl

@[simp] theorem baseDoc_tombstoned (s : Segment) (locals : List DocId) :
    (s.tombstoned locals).entry.baseDoc = s.entry.baseDoc := by
  unfold tombstoned
  split <;> rfl

@[simp] theorem numDocs_tombstoned (s : Segment) (locals : List DocId) :
    (s.tombstoned locals).entry.numDocs = s.entry.numDocs := by
  unfold tombstoned
  split <;> rfl

@[simp] theorem endDoc_tombstoned (s : Segment) (locals : List DocId) :
    (s.tombstoned locals).entry.endDoc = s.entry.endDoc := by
  unfold SegmentEntry.endDoc
  rw [baseDoc_tombstoned, numDocs_tombstoned]

@[simp] theorem docs_tombstoned (s : Segment) (locals : List DocId) :
    (s.tombstoned locals).docs = s.docs := by
  unfold tombstoned
  split <;> rfl

@[simp] theorem idx_tombstoned (s : Segment) (locals : List DocId) :
    (s.tombstoned locals).idx = s.idx := by
  unfold tombstoned
  split <;> rfl

/-- The documents deleted afterwards: those before and those given, in range. -/
theorem isDeleted_tombstoned (s : Segment) (locals : List DocId) (i : DocId) :
    (s.tombstoned locals).isDeleted i ↔
      s.isDeleted i ∨ i ∈ locals ∧ i < s.entry.numDocs := by
  rw [← numDocs_bitmap, ← get_bitmap s, ← get_setAll, ← get_bitmap]
  unfold tombstoned
  split
  · rfl
  · rename_i h
    rw [setAll_of_unchanged (by simpa [changes] using h)]

theorem carried_tombstoned {s : Segment} {locals : List DocId} (h : s.HasDelRoom locals) :
    s.Carried (s.tombstoned locals) where
  segmentId := segmentId_tombstoned s locals
  baseDoc := baseDoc_tombstoned s locals
  idx := idx_tombstoned s locals
  docs := docs_tombstoned s locals
  deleted := fun i hi => (isDeleted_tombstoned s locals i).mpr (.inl hi)
  delGen_le := by
    unfold tombstoned
    split
    · rename_i hChange
      have := h hChange
      simp only [withDel, SegmentEntry.withDel, UInt32.le_iff_toNat_le, UInt32.toNat_add,
        UInt32.toNat_one]
      omega
    · exact UInt32.le_refl _
  eq_of_delGen := by
    unfold tombstoned
    split
    · rename_i hChange
      have := h hChange
      intro hEq
      have hNat := congrArg UInt32.toNat hEq
      simp only [withDel, SegmentEntry.withDel, UInt32.toNat_add, UInt32.toNat_one] at hNat
      omega
    · exact fun _ => rfl

end Segment

variable [Platform]

theorem tombstone_result (s : Segment) (locals : List DocId) :
    (tombstone s locals).result =
      .ok ((s.tombstoned locals).entry, s.retiredDel locals, s.changes locals) := by
  unfold tombstone Segment.tombstoned Segment.retiredDel
  change (if !s.changes locals then _ else _ : Plan _).result = _
  cases hChange : s.changes locals with
  | false => simp
  | true =>
    simp only [Bool.not_true, Bool.false_eq_true, if_false, if_true, true_and]
    rfl

theorem tombstone_installs (s : Segment) (locals : List DocId) :
    (tombstone s locals).Installs (s.delFiles locals) := by
  unfold tombstone Segment.delFiles
  change (if !s.changes locals then _ else _ : Plan _).Installs _
  cases hChange : s.changes locals with
  | false => exact Plan.installs_pure _
  | true => rfl

/-- A deletions file is not empty. -/
theorem FileData.len_pos {f : FileData} (h : f ≠ .torn) : 0 < f.len := by
  have hSeal : ∀ kind version body, 0 < (Format.sealBody kind version body).length := by
    intro kind version body
    simp only [Format.sealBody, Format.header, Format.u32Bytes, Format.leBytes,
      List.length_append, List.length_cons]
    omega
  cases f
  case torn => exact absurd rfl h
  all_goals exact hSeal _ _ _

/-- A segment after tombstoning is in a directory with its old files and the new deletions
file. -/
theorem Segment.Backed.tombstoned {s : Segment} {d d' : Dir} {locals : List DocId}
    (h : s.Backed d) (hRoom : s.HasDelRoom locals)
    (hFiles : ∀ f ∈ s.delFiles locals, d'.lookup f.1 = some f.2)
    (hAgree : ∀ n ∈ segmentFiles s.entry, d'.lookup n = d.lookup n) :
    (s.tombstoned locals).Backed d' := by
  have hOld := h.of_agree hAgree
  unfold delFiles at hFiles
  unfold Segment.tombstoned
  split
  · rename_i hChange
    rw [if_pos hChange] at hFiles
    refine ⟨hOld.idx, hOld.numTerms, hOld.doc, ?_, ?_⟩
    · rintro _ ⟨⟩
      exact ⟨hFiles _ List.mem_cons_self, rfl, rfl⟩
    · have := hRoom hChange
      simp only [withDel, SegmentEntry.withDel, UInt32.lt_iff_toNat_lt, UInt32.toNat_add,
        UInt32.toNat_one, UInt32.toNat_zero, Option.isSome_some, iff_true]
      omega
  · exact hOld

/-- An entry after tombstoning still passes the checks of the manifest. -/
theorem Segment.entryOk_tombstoned {s : Segment} {locals : List DocId} {next : UInt32}
    (h : Manifest.EntryOk next s.entry) (hRoom : s.HasDelRoom locals) :
    Manifest.EntryOk next (s.tombstoned locals).entry := by
  refine ⟨by simpa using h.id_lt, by simpa using h.end_le, ?_, ?_⟩
  · unfold tombstoned
    split
    · rename_i hChange
      have hGen := hRoom hChange
      have hLen : (FileData.del (s.newBitmap locals)).len ≠ 0 :=
        (FileData.len_pos (by simp)).ne'
      simp only [withDel, SegmentEntry.withDel, hLen, iff_false]
      intro hZero
      have := congrArg UInt32.toNat hZero
      simp only [UInt32.toNat_add, UInt32.toNat_one, UInt32.toNat_zero] at this
      omega
    · exact h.del_iff
  · unfold tombstoned
    split
    · have := (s.newBitmap locals).count_le
      rwa [numDocs_newBitmap] at this
    · exact h.deleted_le

-- ---------------------------------------------------------------------------
-- All segments of an index
-- ---------------------------------------------------------------------------

section All

variable (locals : Nat → List DocId) (i : Nat) (segs : List Segment)

/-- The segments from position `i` on after tombstoning. -/
def tombstonedAll : List Segment :=
  (segs.zipIdx i).map fun p => p.1.tombstoned (locals p.2)

omit [Platform] in
/-- The deletions files tombstoning writes. -/
def delFilesAll : List (FileName × FileData) :=
  (segs.zipIdx i).flatMap fun p => p.1.delFiles (locals p.2)

omit [Platform] in
/-- The deletions files tombstoning retires. -/
def retiredDels : List FileName :=
  (segs.zipIdx i).flatMap fun p => p.1.retiredDel (locals p.2)

omit [Platform] in
/-- Whether tombstoning deletes anything. -/
def changesAny : Bool :=
  (segs.zipIdx i).any fun p => p.1.changes (locals p.2)

omit [Platform] in
/-- Every new deletions file has a number. -/
def HasDelRoomAll : Prop :=
  ∀ p ∈ segs.zipIdx i, p.1.HasDelRoom (locals p.2)

end All

theorem tombstoneAll_result (locals : Nat → List DocId) (i : Nat) (segs : List Segment) :
    (tombstoneAll locals i segs).result =
      .ok ((tombstonedAll locals i segs).map Segment.entry, retiredDels locals i segs,
        changesAny locals i segs) := by
  induction segs generalizing i with
  | nil => rfl
  | cons s segs ih =>
    unfold tombstoneAll
    exact Plan.bind_ok.mpr ⟨_, tombstone_result s (locals i),
      Plan.bind_ok.mpr ⟨_, ih (i + 1), rfl⟩⟩

/-- Tombstoning writes the new deletions files and nothing else. -/
theorem tombstoneAll_installs (locals : Nat → List DocId) (i : Nat) (segs : List Segment) :
    (tombstoneAll locals i segs).Installs (delFilesAll locals i segs) := by
  induction segs generalizing i with
  | nil => exact Plan.installs_pure _
  | cons s segs ih =>
    unfold tombstoneAll
    have hFiles : delFilesAll locals i (s :: segs) =
        s.delFiles (locals i) ++ (delFilesAll locals (i + 1) segs ++ []) := by
      rw [List.append_nil]
      rfl
    rw [hFiles]
    exact (tombstone_installs s _).bind (tombstone_result s _)
      ((ih (i + 1)).bind (tombstoneAll_result locals (i + 1) segs) (Plan.installs_pure _))

theorem mem_tombstonedAll {locals : Nat → List DocId} {i : Nat} {segs : List Segment}
    {t : Segment} :
    t ∈ tombstonedAll locals i segs ↔
      ∃ p ∈ segs.zipIdx i, p.1.tombstoned (locals p.2) = t := List.mem_map

/-- Tombstoning keeps what does not depend on the deletions. -/
theorem map_tombstonedAll {α : Type} {f : Segment → α} (locals : Nat → List DocId) (i : Nat)
    (segs : List Segment) (hf : ∀ s ls, f (s.tombstoned ls) = f s) :
    (tombstonedAll locals i segs).map f = segs.map f := by
  unfold tombstonedAll
  rw [List.map_map]
  have hComp : (f ∘ fun p : Segment × Nat => p.1.tombstoned (locals p.2)) = f ∘ Prod.fst := by
    funext p
    exact hf _ _
  rw [hComp, ← List.map_map, List.zipIdx_map_fst]

/-- The ranges of the entries of a list are those of another one. -/
theorem endBound_tombstonedAll (locals : Nat → List DocId) (i : Nat) (segs : List Segment) :
    Index.endBound ((tombstonedAll locals i segs).map Segment.entry) =
      Index.endBound (segs.map Segment.entry) := by
  unfold Index.endBound
  rw [List.map_map, List.map_map]
  congr 1
  exact map_tombstonedAll locals i segs fun s ls => s.endDoc_tombstoned ls

end Ripindex
