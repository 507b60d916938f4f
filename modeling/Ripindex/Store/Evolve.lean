import Ripindex.Store.Installs

/-!
# How an index evolves

Every commit carries most segments over and adds new ones under new ids. `Index.Evolves`
says what any number of commits leaves of an earlier index, `Index.Grows` what they leave
when none of them is a rebuild. `Index.Writable` lists the names a writer may give to a
new file; they were never given to a file of an earlier index.

## Results

* `Index.Evolves.trans`, `Index.Grows.trans` — many commits compose;
* `Index.Evolves.not_mem_referencedFiles` — file names are not used again.
-/

namespace Ripindex

-- ---------------------------------------------------------------------------
-- Segments
-- ---------------------------------------------------------------------------

/-- `t` is `s` after some deletions: the same documents under the same ids, and a new
number for every new deletions file. -/
structure Segment.Carried (s t : Segment) : Prop where
  segmentId : t.entry.segmentId = s.entry.segmentId
  baseDoc : t.entry.baseDoc = s.entry.baseDoc
  idx : t.idx = s.idx
  docs : t.docs = s.docs
  deleted : ∀ i, s.isDeleted i → t.isDeleted i
  delGen_le : s.entry.delGen ≤ t.entry.delGen
  eq_of_delGen : t.entry.delGen = s.entry.delGen → t = s

namespace Segment

theorem Carried.refl (s : Segment) : s.Carried s where
  segmentId := rfl
  baseDoc := rfl
  idx := rfl
  docs := rfl
  deleted := fun _ h => h
  delGen_le := UInt32.le_refl _
  eq_of_delGen := fun _ => rfl

theorem Carried.trans {s t u : Segment} (h : s.Carried t) (h' : t.Carried u) :
    s.Carried u where
  segmentId := h'.segmentId.trans h.segmentId
  baseDoc := h'.baseDoc.trans h.baseDoc
  idx := h'.idx.trans h.idx
  docs := h'.docs.trans h.docs
  deleted := fun i hi => h'.deleted i (h.deleted i hi)
  delGen_le := UInt32.le_trans h.delGen_le h'.delGen_le
  eq_of_delGen := fun hEq => by
    have hTU : u.entry.delGen = t.entry.delGen :=
      UInt32.le_antisymm (hEq ▸ h.delGen_le) h'.delGen_le
    rw [h'.eq_of_delGen hTU]
    exact h.eq_of_delGen (hTU ▸ hEq)

theorem Carried.numDocs {s t : Segment} (h : s.Carried t) :
    t.entry.numDocs = s.entry.numDocs := by
  apply UInt32.toNat_inj.mp
  rw [← t.length_docs, ← s.length_docs, h.docs]

theorem Carried.endDoc {s t : Segment} (h : s.Carried t) :
    t.entry.endDoc = s.entry.endDoc := by
  rw [SegmentEntry.endDoc, SegmentEntry.endDoc, h.baseDoc, h.numDocs]

end Segment

-- ---------------------------------------------------------------------------
-- Indexes
-- ---------------------------------------------------------------------------

namespace Index

/-- What the code keeps true of an index beyond what `decode` checks. -/
structure Sound (I : Index) : Prop where
  ids_nodup : (I.segments.map fun s => s.entry.segmentId).Nodup
  numDeleted : ∀ s ∈ I.segments, s.del = none → s.entry.numDeleted = 0

theorem mem_manifest_segments {I : Index} {e : SegmentEntry} :
    e ∈ I.manifest.segments ↔ ∃ s ∈ I.segments, s.entry = e := by
  rw [← I.entries_eq, List.mem_map]

theorem segmentId_lt (I : Index) {s : Segment} (hs : s ∈ I.segments) :
    s.entry.segmentId < I.manifest.nextSegmentId :=
  (I.manifest_ok.entries _ (mem_manifest_segments.mpr ⟨s, hs, rfl⟩)).id_lt

/-- Global ids do not wrap around. -/
theorem toNat_global {I : Index} {s : Segment} (hs : s ∈ I.segments) {i : DocId}
    (hi : i.toNat < s.entry.numDocs.toNat) :
    (s.entry.baseDoc + i).toNat = s.entry.baseDoc.toNat + i.toNat := by
  have hEnd := (I.manifest_ok.entries _ (mem_manifest_segments.mpr ⟨s, hs, rfl⟩)).end_le
  unfold SegmentEntry.endDoc at hEnd
  rw [UInt32.toNat_add, Nat.mod_eq_of_lt (by omega)]

theorem mem_referencedFiles {I : Index} {n : FileName} :
    n ∈ referencedFiles I.manifest ↔
      (∃ s ∈ I.segments, n ∈ segmentFiles s.entry) ∨
        (0 < I.manifest.stateGen ∧ n = .overlay I.manifest.stateGen) := by
  rw [Ripindex.mem_referencedFiles, ← I.entries_eq]
  simp only [List.mem_map, exists_exists_and_eq_and]

theorem Sound.eq_of_segmentId {I : Index} (h : I.Sound) {s t : Segment}
    (hs : s ∈ I.segments) (ht : t ∈ I.segments)
    (hId : s.entry.segmentId = t.entry.segmentId) : s = t :=
  List.inj_on_of_nodup_map h.ids_nodup hs ht hId

/-- After any number of commits, rebuilds among them: a segment with an old id is the old
segment after some deletions. -/
structure Evolves (I J : Index) : Prop where
  next_le : I.manifest.nextSegmentId ≤ J.manifest.nextSegmentId
  carried : ∀ t ∈ J.segments, t.entry.segmentId < I.manifest.nextSegmentId →
    ∃ s ∈ I.segments, s.Carried t

theorem Evolves.refl (I : Index) : I.Evolves I where
  next_le := UInt32.le_refl _
  carried := fun t ht _ => ⟨t, ht, Segment.Carried.refl t⟩

theorem Evolves.trans {I J K : Index} (h : I.Evolves J) (h' : J.Evolves K) :
    I.Evolves K where
  next_le := UInt32.le_trans h.next_le h'.next_le
  carried := fun u hu hLt => by
    obtain ⟨t, ht, hTU⟩ := h'.carried u hu (UInt32.lt_of_lt_of_le hLt h.next_le)
    obtain ⟨s, hs, hST⟩ := h.carried t ht (hTU.segmentId ▸ hLt)
    exact ⟨s, hs, hST.trans hTU⟩

/-- After any number of commits without a rebuild: new segments come behind the ids in
use. -/
structure Grows (I J : Index) : Prop extends Evolves I J where
  bound_le : endBound I.manifest.segments ≤ endBound J.manifest.segments
  base_ge : ∀ t ∈ J.segments, I.manifest.nextSegmentId ≤ t.entry.segmentId →
    endBound I.manifest.segments ≤ t.entry.baseDoc.toNat

theorem Grows.refl (I : Index) : I.Grows I where
  toEvolves := Evolves.refl I
  bound_le := Nat.le_refl _
  base_ge := fun _ ht hGe =>
    absurd (I.segmentId_lt ht) (UInt32.not_lt.mpr hGe)

theorem Grows.trans {I J K : Index} (h : I.Grows J) (h' : J.Grows K) : I.Grows K where
  toEvolves := h.toEvolves.trans h'.toEvolves
  bound_le := Nat.le_trans h.bound_le h'.bound_le
  base_ge := fun u hu hGe => by
    by_cases hLt : u.entry.segmentId < J.manifest.nextSegmentId
    · obtain ⟨t, ht, hTU⟩ := h'.carried u hu hLt
      rw [hTU.baseDoc]
      exact h.base_ge t ht (hTU.segmentId ▸ hGe)
    · exact Nat.le_trans h.bound_le (h'.base_ge u hu (UInt32.not_lt.mp hLt))

theorem endBound_nil : endBound [] = 0 := rfl

theorem endBound_cons (e : SegmentEntry) (es : List SegmentEntry) :
    endBound (e :: es) = max e.endDoc (endBound es) := rfl

theorem endDoc_le_endBound {es : List SegmentEntry} {e : SegmentEntry} (h : e ∈ es) :
    e.endDoc ≤ endBound es := by
  induction es with
  | nil => cases h
  | cons x es ih =>
    rw [endBound_cons]
    rcases List.mem_cons.mp h with rfl | h
    · exact Nat.le_max_left _ _
    · exact Nat.le_trans (ih h) (Nat.le_max_right _ _)

theorem endBound_le {es : List SegmentEntry} {n : Nat} (h : ∀ e ∈ es, e.endDoc ≤ n) :
    endBound es ≤ n := by
  induction es with
  | nil => exact Nat.zero_le _
  | cons x es ih =>
    obtain ⟨hHead, hTail⟩ := List.forall_mem_cons.mp h
    exact Nat.max_le.mpr ⟨hHead, ih hTail⟩

theorem endBound_append (es fs : List SegmentEntry) :
    endBound (es ++ fs) = max (endBound es) (endBound fs) := by
  induction es with
  | nil => simp [endBound_nil]
  | cons e es ih => rw [List.cons_append, endBound_cons, ih, endBound_cons, Nat.max_assoc]

theorem endBound_le_of_ok (I : Index) : endBound I.manifest.segments ≤ 2 ^ 32 :=
  endBound_le fun e he => (I.manifest_ok.entries e he).end_le

-- ---------------------------------------------------------------------------
-- Names of new files
-- ---------------------------------------------------------------------------

/-- The names a writer over `I` may give to its files before the commit. -/
def Writable (I : Index) : FileName → Prop
  | .manifest | .staged _ _ => False
  | .tmp _ => True
  | .idx id | .doc id => I.manifest.nextSegmentId ≤ id
  | .del id gen => I.manifest.nextSegmentId ≤ id ∨
      ∃ s ∈ I.segments, s.entry.segmentId = id ∧ s.entry.delGen < gen
  | .overlay gen => gen ≠ I.manifest.stateGen

/-- An index names no temporary and no staged file, and not the manifest. -/
theorem isData_of_mem_referencedFiles {m : Manifest} {n : FileName}
    (h : n ∈ referencedFiles m) : n.isData := by
  rw [Ripindex.mem_referencedFiles] at h
  rcases h with ⟨e, -, hn⟩ | ⟨-, rfl⟩
  · rcases mem_segmentFiles.mp hn with rfl | rfl | ⟨-, rfl⟩ <;> rfl
  · rfl

/-- The files of a segment of `I` keep their names: a writer over a later index gives none
of them to a new file. -/
theorem Evolves.not_mem_segmentFiles {I J : Index} (h : I.Evolves J) (hI : I.Sound)
    {n : FileName} (hn : J.Writable n) {s : Segment} (hs : s ∈ I.segments) :
    n ∉ segmentFiles s.entry := by
  have hLt := UInt32.lt_of_lt_of_le (I.segmentId_lt hs) h.next_le
  rw [mem_segmentFiles]
  rintro (rfl | rfl | ⟨-, rfl⟩)
  · exact UInt32.not_lt.mpr hn hLt
  · exact UInt32.not_lt.mpr hn hLt
  · rcases hn with hGe | ⟨t, ht, hId, hGen⟩
    · exact UInt32.not_lt.mpr hGe hLt
    · obtain ⟨s', hs', hCarried⟩ := h.carried t ht (hId ▸ I.segmentId_lt hs)
      obtain rfl := hI.eq_of_segmentId hs hs' (hId.symm.trans hCarried.segmentId)
      exact UInt32.not_lt.mpr hCarried.delGen_le hGen

/-- A writer over a later index gives no name of `I` to a new file, unless it is that of an
overlay. -/
theorem Evolves.not_mem_referencedFiles {I J : Index} (h : I.Evolves J) (hI : I.Sound)
    {n : FileName} (hn : J.Writable n) (hOverlay : n ≠ .overlay I.manifest.stateGen) :
    n ∉ referencedFiles I.manifest := by
  rw [mem_referencedFiles]
  rintro (⟨s, hs, hFile⟩ | ⟨-, hEq⟩)
  · exact h.not_mem_segmentFiles hI hn hs hFile
  · exact hOverlay hEq

/-- A writer gives no name of the current index to a new file. -/
theorem Sound.not_mem_referencedFiles {I : Index} (hI : I.Sound) {n : FileName}
    (hn : I.Writable n) : n ∉ referencedFiles I.manifest :=
  (Evolves.refl I).not_mem_referencedFiles hI hn (by rintro rfl; exact hn rfl)

end Index

/-- The names a writer may give to its files before the commit, over an index or over
none. -/
def WritableOver (prev : Option Index) (n : FileName) : Prop :=
  match prev with
  | some I => I.Writable n
  | none => n ≠ .manifest ∧ n.isStaged = false

theorem Index.Writable.over {I : Index} {n : FileName} (h : I.Writable n) :
    WritableOver (some I) n := h

theorem WritableOver.ne_manifest {prev : Option Index} {n : FileName}
    (h : WritableOver prev n) : n ≠ .manifest := by
  rintro rfl
  cases prev with
  | none => exact h.1 rfl
  | some I => exact h

theorem WritableOver.not_staged {prev : Option Index} {n : FileName}
    (h : WritableOver prev n) : n.isStaged = false := by
  cases prev with
  | none => exact h.2
  | some I => cases n <;> simp_all [FileName.isStaged, WritableOver, Index.Writable]

theorem writableOver_tmp (prev : Option Index) (n : FileName) :
    WritableOver prev (.tmp n) := by
  cases prev with
  | none => exact ⟨by simp, rfl⟩
  | some I => trivial

end Ripindex
