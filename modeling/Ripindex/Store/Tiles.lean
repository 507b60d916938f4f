import Mathlib.Data.List.Chain
import Ripindex.Store.Build
import Ripindex.Store.Evolve

/-!
# The id ranges of new segments

Segments that tile a list of files have their ids and ranges in order, as long as the
document and segment ids do not run out.

## Results

* `Tiles.bounds`, `Tiles.chain` — their ranges are inside that of the files and in order;
* `Tiles.ids_nodup` — their ids are distinct.
-/

namespace Ripindex

variable [Platform]

theorem Segment.Records.numDocs {read : ReadFile} {files : List CrawledFile} {s : Segment}
    (h : s.Records read files) : s.entry.numDocs.toNat = files.length := by
  rw [← s.length_docs, h.docs, List.length_map]

omit [Platform] in
theorem toNat_add_ofNat {a : UInt32} {n : Nat} (h : a.toNat + n < 2 ^ 32) :
    (a + UInt32.ofNat n).toNat = a.toNat + n := by
  rw [UInt32.toNat_add, UInt32.toNat_ofNat_of_lt' (by omega : n < 2 ^ 32),
    Nat.mod_eq_of_lt h]

/-- There are ids for the documents and for the segments. -/
structure TilesRoom (base : DocId) (id : UInt32) (files : List CrawledFile)
    (segs : List Segment) : Prop where
  docs : base.toNat + files.length ≤ 2 ^ 32
  ids : id.toNat + segs.length < 2 ^ 32

/-- Where a segment of a tiling lies. -/
structure TilesBounds (base : DocId) (id : UInt32) (files : List CrawledFile)
    (segs : List Segment) (s : Segment) : Prop where
  base_le : base.toNat ≤ s.entry.baseDoc.toNat
  end_le : s.entry.endDoc ≤ base.toNat + files.length
  id_le : id.toNat ≤ s.entry.segmentId.toNat
  id_lt : s.entry.segmentId.toNat < id.toNat + segs.length

namespace Tiles

variable {read : ReadFile} {base : DocId} {id : UInt32} {files : List CrawledFile}
  {segs : List Segment}

theorem segs_eq_nil (h : Tiles read base id files segs) (hFiles : files = []) :
    segs = [] := by
  cases h with
  | nil => rfl
  | cons _ _ _ _ hNe => simp_all

theorem segs_ne_nil (h : Tiles read base id files segs) (hFiles : files ≠ []) :
    segs ≠ [] := by
  cases h with
  | nil => exact absurd rfl hFiles
  | cons => simp

/-- The room left behind the first segment, where there is a next one. -/
theorem room_rest {files rest : List CrawledFile} {s : Segment}
    (hRest : Tiles read (base + UInt32.ofNat files.length) (id + 1) rest segs)
    (hRoom : TilesRoom base id (files ++ rest) (s :: segs)) (hNe : segs ≠ []) :
    (base + UInt32.ofNat files.length).toNat = base.toNat + files.length ∧
      (id + 1).toNat = id.toNat + 1 ∧
      TilesRoom (base + UInt32.ofNat files.length) (id + 1) rest segs := by
  obtain ⟨hDocs, hIds⟩ := hRoom
  rw [List.length_append] at hDocs
  rw [List.length_cons] at hIds
  have hRestNe : 0 < rest.length :=
    List.length_pos_iff.mpr fun hNil => hNe (hRest.segs_eq_nil hNil)
  have hBase : (base + UInt32.ofNat files.length).toNat = base.toNat + files.length :=
    toNat_add_ofNat (by omega)
  have hId : (id + 1).toNat = id.toNat + 1 := by
    rw [UInt32.toNat_add, UInt32.toNat_one, Nat.mod_eq_of_lt (by omega)]
  exact ⟨hBase, hId, by omega, by omega⟩

/-- Every segment lies in the range of the files, under one of the ids. -/
theorem bounds (h : Tiles read base id files segs) (hRoom : TilesRoom base id files segs) :
    ∀ s ∈ segs, TilesBounds base id files segs s := by
  induction h with
  | nil => simp
  | @cons base id files rest s segs hBase hId _ hRecords _ _ hRest ih =>
    intro t ht
    rcases List.mem_cons.mp ht with rfl | ht
    · refine ⟨by rw [hBase], ?_, by rw [hId], by rw [hId]; simp⟩
      rw [SegmentEntry.endDoc, hBase, hRecords.numDocs, List.length_append]
      omega
    · obtain ⟨hBase', hId', hRoom'⟩ := room_rest hRest hRoom (List.ne_nil_of_mem ht)
      obtain ⟨h1, h2, h3, h4⟩ := ih hRoom' t ht
      rw [hBase'] at h1 h2
      rw [hId'] at h3 h4
      exact ⟨by omega, by rw [List.length_append]; omega, by omega,
        by rw [List.length_cons]; omega⟩

theorem flushed (h : Tiles read base id files segs) : ∀ s ∈ segs, s.Flushed := by
  induction h with
  | nil => simp
  | cons _ _ hFlushed _ _ _ _ ih => exact List.forall_mem_cons.mpr ⟨hFlushed, ih⟩

/-- The segments follow one another. -/
theorem chain (h : Tiles read base id files segs) (hRoom : TilesRoom base id files segs) :
    (segs.map Segment.entry).IsChain Manifest.Follows := by
  induction h with
  | nil => simp
  | @cons base id files rest s segs hBase hId _ hRecords _ _ hRest ih =>
    rw [List.map_cons, List.isChain_cons]
    constructor
    · intro e he
      obtain ⟨t, ht, rfl⟩ := List.mem_map.mp (List.mem_of_mem_head? he)
      obtain ⟨hBase', hId', hRoom'⟩ := room_rest hRest hRoom (List.ne_nil_of_mem ht)
      obtain ⟨h1, -, h3, -⟩ := hRest.bounds hRoom' t ht
      refine ⟨?_, fun hEq => ?_⟩
      · rw [SegmentEntry.endDoc, hBase, hRecords.numDocs, ← hBase']
        exact h1
      · rw [hEq, hId, hId'] at h3
        omega
    · by_cases hNil : segs = []
      · simp [hNil]
      · exact ih (room_rest hRest hRoom hNil).2.2

/-- No two segments share an id. -/
theorem ids_nodup (h : Tiles read base id files segs)
    (hRoom : TilesRoom base id files segs) :
    (segs.map fun s => s.entry.segmentId).Nodup := by
  induction h with
  | nil => simp
  | @cons base id files rest s segs hBase hId _ _ _ _ hRest ih =>
    by_cases hNil : segs = []
    · simp [hNil]
    · obtain ⟨-, hId', hRoom'⟩ := room_rest hRest hRoom hNil
      refine List.nodup_cons.mpr ⟨fun hMem => ?_, ih hRoom'⟩
      obtain ⟨t, ht, hEq⟩ := List.mem_map.mp hMem
      have := (hRest.bounds hRoom' t ht).id_le
      rw [hEq] at this
      simp only [hId, hId'] at this
      omega

end Tiles

end Ripindex
