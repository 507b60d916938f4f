import Ripindex.Format.Overlay
import Ripindex.Format.Fields

/-!
# The overlay as a finite map

`overlay::encode` and its reader: what is accepted is a map from documents to patches, in
ascending order, that `find` and `iter` agree on.

## Results

* `OverlayView.Lists.find`, `OverlayView.Lists.iter` — both read the same list;
* `overlay_finite_map` — encoded overlays and accepted files.
-/

namespace Ripindex

open Format

namespace OverlayView

-- ---------------------------------------------------------------------------
-- The patches of a view
-- ---------------------------------------------------------------------------

/-- The patches of the view with their paths, in ascending order. -/
structure Lists (v : OverlayView) (items : List (PatchRecord × String)) : Prop where
  length_eq : items.length = v.numPatches.toNat
  patch : ∀ i x, items[i]? = some x →
    v.patch (UInt32.ofNat i) = .ok (some x.1) ∧ v.pathOf x.1 = some x.2
  sorted : items.Pairwise fun x y => x.1.docId < y.1.docId

/-- The patches from `i` on, as the loop of `parse_verified` has checked them. -/
theorem lists_of_checkFrom {v : OverlayView} {fuel i : Nat} {prev : Option UInt32}
    (h : v.checkFrom fuel i prev = .ok ()) : ∃ items : List (PatchRecord × String),
      items.length = fuel ∧ (∀ j x, items[j]? = some x →
        v.patch (UInt32.ofNat (i + j)) = .ok (some x.1) ∧ v.pathOf x.1 = some x.2) ∧
      items.Pairwise (fun x y => x.1.docId < y.1.docId) ∧
      ∀ d ∈ prev, ∀ x ∈ items, d < x.1.docId := by
  induction fuel generalizing i prev with
  | zero =>
    refine ⟨[], rfl, fun j x hx => ?_, List.Pairwise.nil, fun _ _ => List.forall_mem_nil _⟩
    cases hx
  | succ fuel ih =>
    obtain ⟨r, hPatch, h⟩ := Chk.bind_ok h
    rcases r with _ | p
    · cases h
    simp only at h
    split_ifs at h with hOrder hPath
    · cases h
    · cases h
    obtain ⟨path, hPathOf⟩ : ∃ path, v.pathOf p = some path := by
      rcases hResult : v.pathOf p with _ | path
      · rw [hResult] at hPath
        exact absurd rfl hPath
      · exact ⟨path, rfl⟩
    obtain ⟨items, hLen, hItems, hSorted, hPrev⟩ := ih h
    have hAbove : ∀ x ∈ items, p.docId < x.1.docId := hPrev p.docId rfl
    refine ⟨(p, path) :: items, by rw [List.length_cons, hLen], ?_,
      List.pairwise_cons.mpr ⟨hAbove, hSorted⟩, ?_⟩
    · intro j x hx
      cases j with
      | zero =>
        obtain rfl := Option.some.inj hx
        exact ⟨hPatch, hPathOf⟩
      | succ j =>
        rw [Nat.add_succ, ← Nat.succ_add]
        exact hItems j x hx
    · -- The document behind `prev` is below all the others.
      rintro d rfl x hx
      have hLt : d < p.docId := UInt32.not_le.mp (by simpa using hOrder)
      rcases List.mem_cons.mp hx with rfl | hx
      · exact hLt
      · exact UInt32.lt_trans hLt (hAbove x hx)

/-- And the other way round. -/
theorem checkFrom_of_lists {v : OverlayView} {items : List (PatchRecord × String)} {i : Nat}
    {prev : Option UInt32}
    (hItems : ∀ j x, items[j]? = some x →
      v.patch (UInt32.ofNat (i + j)) = .ok (some x.1) ∧ v.pathOf x.1 = some x.2)
    (hSorted : items.Pairwise fun x y => x.1.docId < y.1.docId)
    (hPrev : ∀ d ∈ prev, ∀ x ∈ items, d < x.1.docId) :
    v.checkFrom items.length i prev = .ok () := by
  induction items generalizing i prev with
  | nil => rfl
  | cons x items ih =>
    obtain ⟨hPatch, hPath⟩ := hItems 0 x rfl
    rw [Nat.add_zero] at hPatch
    have hOrder : ¬ (prev.any fun d => decide (x.1.docId ≤ d)) = true := by
      rcases prev with _ | d
      · exact Bool.false_ne_true
      · have := hPrev d rfl x List.mem_cons_self
        simpa using UInt32.not_le.mpr this
    rw [List.length_cons, checkFrom, hPatch, Chk.ok_bind]
    simp only
    rw [if_neg hOrder, if_neg (by rw [hPath]; exact Bool.false_ne_true)]
    refine ih (fun j y hy => ?_) hSorted.of_cons ?_
    · rw [Nat.succ_add, ← Nat.add_succ]
      exact hItems (j + 1) y hy
    · intro d hd y hy
      obtain rfl : x.1.docId = d := Option.some.inj hd
      exact (List.pairwise_cons.mp hSorted).1 y hy

-- ---------------------------------------------------------------------------
-- Reading the map
-- ---------------------------------------------------------------------------

variable {v : OverlayView} {items : List (PatchRecord × String)}

/-- `iter` yields the patches. -/
theorem Lists.iter (h : v.Lists items) : v.iter = .ok items := by
  have hFrom : ∀ n i, i + n = items.length → v.iterFrom n i = .ok (items.drop i) := by
    intro n
    induction n with
    | zero =>
      intro i hi
      rw [iterFrom, List.drop_of_length_le (by omega)]
    | succ n ih =>
      intro i hi
      have hLt : i < items.length := by omega
      obtain ⟨hPatch, hPath⟩ := h.patch i items[i] (List.getElem?_eq_getElem hLt)
      rw [iterFrom, hPatch, Chk.ok_bind, ih (i + 1) (by omega), Chk.ok_bind,
        List.drop_eq_getElem_cons hLt]
      simp only [Option.bind_some, hPath, Option.map_some, Option.toList_some,
        List.singleton_append]
  have hAll := hFrom items.length 0 (Nat.zero_add _)
  rw [List.drop_zero] at hAll
  unfold OverlayView.iter
  rw [← h.length_eq]
  exact hAll

/-- Between places that are both excluded there is no patch of the document. -/
theorem find_eq_none {id : UInt32} {lo hi : Nat} (hEmpty : hi ≤ lo)
    (hBelow : ∀ i x, items[i]? = some x → i < lo → x.1.docId < id)
    (hAbove : ∀ i x, items[i]? = some x → hi ≤ i → id < x.1.docId) :
    items.find? (fun x => x.1.docId == id) = none := by
  refine List.find?_eq_none.mpr fun x hx => ?_
  obtain ⟨i, hi'⟩ := List.mem_iff_getElem?.mp hx
  rw [beq_iff_eq]
  rintro rfl
  rcases Nat.lt_or_ge i lo with hLt | hGe
  · exact UInt32.lt_irrefl _ (hBelow i x hi' hLt)
  · exact UInt32.lt_irrefl _ (hAbove i x hi' (Nat.le_trans hEmpty hGe))

/-- In a sorted list a patch is the only one of its document. -/
theorem find_eq_some (hSorted : items.Pairwise fun x y => x.1.docId < y.1.docId)
    {x : PatchRecord × String} (hx : x ∈ items) :
    items.find? (fun y => y.1.docId == x.1.docId) = some x := by
  induction items with
  | nil => cases hx
  | cons y items ih =>
    obtain ⟨hHead, hTail⟩ := List.pairwise_cons.mp hSorted
    rcases List.mem_cons.mp hx with rfl | hx
    · exact List.find?_cons_of_pos (beq_self_eq_true _)
    · have hNe : ¬ (y.1.docId == x.1.docId) = true := by
        rw [beq_iff_eq]
        exact fun hEq => UInt32.lt_irrefl _ (hEq ▸ hHead x hx)
      have hSkip : (y :: items).find? (fun z => z.1.docId == x.1.docId) =
          items.find? fun z => z.1.docId == x.1.docId := List.find?_cons_of_neg hNe
      rw [hSkip]
      exact ih hTail hx

/-- The binary search: patches before `lo` are of smaller documents, those from `hi` on of
greater ones. -/
theorem Lists.findIn (h : v.Lists items) (id : UInt32) {fuel lo hi : Nat}
    (hFuel : hi - lo ≤ fuel) (hHi : hi ≤ items.length)
    (hBelow : ∀ i x, items[i]? = some x → i < lo → x.1.docId < id)
    (hAbove : ∀ i x, items[i]? = some x → hi ≤ i → id < x.1.docId) :
    v.findIn id fuel lo hi = .ok (items.find? fun x => x.1.docId == id) := by
  have hCount : items.length < 2 ^ 32 := h.length_eq ▸ v.numPatches.toNat_lt
  induction fuel generalizing lo hi with
  | zero => rw [OverlayView.findIn, find_eq_none (by omega) hBelow hAbove]
  | succ fuel ih =>
    rw [OverlayView.findIn]
    by_cases hLt : lo < hi
    · rw [if_pos hLt, Chk.sub_ok (Nat.le_of_lt hLt), Chk.ok_bind, Chk.add32,
        if_pos (by omega), Chk.ok_bind]
      have hMid : lo + (hi - lo) / 2 < hi := by omega
      have hLo : lo ≤ lo + (hi - lo) / 2 := Nat.le_add_right _ _
      generalize lo + (hi - lo) / 2 = mid at hMid hLo ⊢
      have hMidLt : mid < items.length := Nat.lt_of_lt_of_le hMid hHi
      have hGet := List.getElem?_eq_getElem hMidLt
      obtain ⟨hPatch, hPath⟩ := h.patch mid items[mid] hGet
      -- The order carries what is known of the middle to one of its sides.
      have hOrder : ∀ (i j : Nat) (x y : PatchRecord × String), items[i]? = some x →
          items[j]? = some y → i < j → x.1.docId < y.1.docId := by
        intro i j x y hx hy hij
        obtain ⟨hi', rfl⟩ := List.getElem?_eq_some_iff.mp hx
        obtain ⟨hj', rfl⟩ := List.getElem?_eq_some_iff.mp hy
        exact List.pairwise_iff_getElem.mp h.sorted i j hi' hj' hij
      rw [hPatch, Chk.ok_bind]
      simp only
      by_cases hLess : items[mid].1.docId < id
      · rw [if_pos hLess, Chk.add32, if_pos (by omega), Chk.ok_bind]
        refine ih (by omega) hHi (fun i x hx hi' => ?_) hAbove
        rcases Nat.lt_or_eq_of_le (Nat.lt_succ_iff.mp hi') with hi' | rfl
        · exact UInt32.lt_trans (hOrder _ _ _ _ hx hGet hi') hLess
        · obtain rfl := Option.some.inj (hGet.symm.trans hx)
          exact hLess
      rw [if_neg hLess]
      by_cases hGreater : id < items[mid].1.docId
      · rw [if_pos hGreater]
        refine ih (by omega) (by omega) hBelow fun i x hx hi' => ?_
        rcases Nat.lt_or_eq_of_le hi' with hi' | rfl
        · exact UInt32.lt_trans hGreater (hOrder _ _ _ _ hGet hx hi')
        · obtain rfl := Option.some.inj (hGet.symm.trans hx)
          exact hGreater
      · -- Neither smaller nor greater: the patch is found.
        rw [if_neg hGreater, hPath]
        have hEq : items[mid].1.docId = id :=
          UInt32.le_antisymm (UInt32.not_lt.mp hGreater) (UInt32.not_lt.mp hLess)
        rw [← hEq, find_eq_some h.sorted (List.getElem_mem hMidLt)]
        rfl
    · rw [if_neg hLt, find_eq_none (by omega) hBelow hAbove]

/-- `find` looks a document up. -/
theorem Lists.find (h : v.Lists items) (id : UInt32) :
    v.find id = .ok (items.find? fun x => x.1.docId == id) := by
  unfold OverlayView.find
  rw [← h.length_eq]
  refine h.findIn id (Nat.sub_le _ _) (Nat.le_refl _) (fun _ _ _ hi => ?_) fun i x hx hi => ?_
  · exact absurd hi (Nat.not_lt_zero _)
  · exact absurd (List.getElem?_eq_some_iff.mp hx).1 (Nat.not_lt.mpr hi)

-- ---------------------------------------------------------------------------
-- Accepted files
-- ---------------------------------------------------------------------------

variable [Platform]

/-- Every accepted file holds a sorted list of patches. -/
theorem lists_of_parseVerified {bytes : List UInt8} (h : parseVerified bytes = .ok v) :
    ∃ items, v.Lists items := by
  obtain ⟨env, -, h⟩ := Chk.bind_ok h
  obtain ⟨body, -, h⟩ := Chk.bind_ok h
  split_ifs at h
  obtain ⟨numPatches, -, h⟩ := Chk.bind_ok h
  obtain ⟨pathsOff, -, h⟩ := Chk.bind_ok h
  obtain ⟨pathsLen, -, h⟩ := Chk.bind_ok h
  obtain ⟨recordsEnd, -, h⟩ := Chk.bind_ok h
  by_cases hOff : pathsOff ≠ recordsEnd
  · rw [if_pos hOff] at h
    cases h
  rw [if_neg hOff] at h
  obtain ⟨pathsEnd, -, h⟩ := Chk.bind_ok h
  by_cases hEnd : pathsEnd ≠ env.bodyEnd
  · rw [if_pos hEnd] at h
    cases h
  rw [if_neg hEnd] at h
  obtain ⟨paths, -, h⟩ := Chk.bind_ok h
  obtain ⟨⟨⟩, hCheck, h⟩ := Chk.bind_ok h
  obtain rfl := Except.ok.inj h
  obtain ⟨items, hLen, hItems, hSorted, -⟩ := lists_of_checkFrom hCheck
  refine ⟨items, hLen, fun i x hx => ?_, hSorted⟩
  have hItem := hItems i x hx
  rwa [Nat.zero_add] at hItem

end OverlayView

-- ---------------------------------------------------------------------------
-- Encoded overlays
-- ---------------------------------------------------------------------------

namespace Overlay

def pathBytes (p : Patch) : List UInt8 := p.path.toUTF8.toList

/-- A record, with the place of its path in the heap. -/
def patchBytes (x : Nat × Patch) : List UInt8 :=
  leBytes 4 x.2.docId.toNat ++ (leBytes 8 x.2.inode.toNat ++
    (leBytes 8 x.2.mtime.toUInt64.toNat ++ (leBytes 8 x.2.size.toNat ++
      (leBytes 4 x.1 ++ leBytes 4 x.2.path.utf8ByteSize))))

/-- The patches with the places of their paths. -/
def placed (o : Overlay) : List (Nat × Patch) :=
  heapOffsets (fun p => (pathBytes p).length) 0 o.patches

theorem length_pathBytes (p : Patch) : (pathBytes p).length = p.path.utf8ByteSize :=
  String.length_toUTF8_toList _

theorem length_patchBytes (x : Nat × Patch) : (patchBytes x).length = OverlayView.patchLen := by
  simp only [patchBytes, List.length_append, length_leBytes]
  rfl

theorem length_placed (o : Overlay) : o.placed.length = o.patches.length :=
  length_heapOffsets _ _ _

theorem patchesBytes_eq (off : Nat) (ps : List Patch) : patchesBytes off ps =
    (heapOffsets (fun p => (pathBytes p).length) off ps).flatMap patchBytes := by
  induction ps generalizing off with
  | nil => rfl
  | cons p ps ih =>
    rw [patchesBytes, heapOffsets, List.flatMap_cons, ← ih, length_pathBytes]
    simp only [patchBytes, u32Bytes, u64Bytes, i64Bytes, List.append_assoc]

theorem body_eq (o : Overlay) : o.body =
    leBytes 4 o.patches.length ++ (leBytes 4 0 ++
      (leBytes 8 (headerLen + OverlayView.bodyHeaderLen +
          o.patches.length * OverlayView.patchLen) ++
        (leBytes 8 (o.patches.flatMap pathBytes).length ++
          (o.placed.flatMap patchBytes ++ o.patches.flatMap pathBytes)))) := by
  have hRecs : (patchesBytes 0 o.patches).length =
      o.patches.length * OverlayView.patchLen := by
    rw [patchesBytes_eq, length_records length_patchBytes, length_heapOffsets]
  simp only [body]
  rw [hRecs, patchesBytes_eq]
  simp only [List.append_assoc]
  rfl

/-- What the reader makes of a placed patch. -/
def itemOf (x : Nat × Patch) : PatchRecord × String :=
  (⟨x.2.docId, x.2.inode.toNat, x.2.mtime.toUInt64.toNat, x.2.size.toNat, UInt32.ofNat x.1,
    UInt32.ofNat x.2.path.utf8ByteSize⟩, x.2.path)

/-- The complete file. -/
def bytes [Platform] (o : Overlay) : List UInt8 := sealBody .overlay formatVersion o.body

/-- The item shows the patch. -/
structure Shows (x : PatchRecord × String) (p : Patch) : Prop where
  docId : x.1.docId = p.docId
  inode : x.1.inode = p.inode.toNat
  mtime : (UInt64.ofNat x.1.mtimeNanos).toInt64 = p.mtime
  size : x.1.size = p.size.toNat
  path : x.2 = p.path

theorem length_body (o : Overlay) : o.body.length =
    24 + o.patches.length * 36 + (o.patches.flatMap pathBytes).length := by
  rw [body_eq]
  simp only [List.length_append, length_leBytes, length_records length_patchBytes, length_placed]
  unfold OverlayView.patchLen
  omega

/-- The records stand behind the header of the body, the heap behind the records. -/
theorem at_records (o : Overlay) :
    At o.body 24 (o.placed.flatMap patchBytes ++ o.patches.flatMap pathBytes) :=
  (At.of_eq (body_eq o)).behind.behind.behind.behind

/-- The path of a placed patch. -/
theorem at_path {o : Overlay} {x : Nat × Patch} (hx : x ∈ o.placed) :
    At (o.patches.flatMap pathBytes) x.1 (pathBytes x.2) ∧
      x.1 + x.2.path.utf8ByteSize ≤ (o.patches.flatMap pathBytes).length := by
  obtain ⟨hAt, hLe⟩ := at_heap (At.of_eq rfl) hx
  rw [Nat.zero_add, length_pathBytes] at hLe
  exact ⟨hAt, hLe⟩

/-- Lengths and offsets that are written in 32 bits. -/
structure Counted (o : Overlay) : Prop where
  heap : (o.patches.flatMap pathBytes).length < 2 ^ 32
  count : o.patches.length < 2 ^ 32

theorem Counted.numPatches_eq {o : Overlay} (h : Counted o) :
    (UInt32.ofNat o.patches.length).toNat = o.patches.length :=
  UInt32.toNat_ofNat_of_lt' h.count

section Encoded

variable [Platform] {o : Overlay}

theorem length_bytes (o : Overlay) : o.bytes.length = 16 + o.body.length + 16 :=
  length_sealBody _ _

theorem at_paths (o : Overlay) :
    At o.bytes (16 + 24 + o.patches.length * 36) (o.patches.flatMap pathBytes) := by
  have hRight := (at_records o).right
  rw [length_records length_patchBytes, length_placed] at hRight
  have hLen := length_body o
  have hLe : 24 + o.patches.length * OverlayView.patchLen ≤ o.body.length := by
    unfold OverlayView.patchLen
    omega
  have hAt := (at_sealBody .overlay o.body).trans hRight hLe
  rwa [← Nat.add_assoc] at hAt

theorem at_patchBytes {i : Nat} {x : Nat × Patch} (hx : o.placed[i]? = some x) :
    At o.bytes (16 + (24 + i * 36)) (patchBytes x) := by
  have hi : i < o.patches.length := by
    rw [← length_placed]
    exact (List.getElem?_eq_some_iff.mp hx).1
  have hLen := length_body o
  have hLe : 24 + i * OverlayView.patchLen ≤ o.body.length := by
    unfold OverlayView.patchLen
    omega
  exact (at_sealBody .overlay o.body).trans
    (at_record (at_records o).left length_patchBytes hx) hLe

/-- The view of an encoded overlay. -/
def viewOf (o : Overlay) : OverlayView where
  bytes := o.bytes
  env := ⟨headerLen + o.body.length, Platform.crc32 o.body⟩
  numPatches := UInt32.ofNat o.patches.length
  paths := o.patches.flatMap pathBytes

theorem Counted.length_bytes_lt (h : Counted o) : o.bytes.length < 2 ^ 64 := by
  have hHeap := h.heap
  have hCount := h.count
  have hLen := length_body o
  have hFile := length_bytes o
  omega

/-- A patch is read where it is placed. -/
theorem Counted.patch (h : Counted o) {i : Nat} {x : Nat × Patch} (hx : o.placed[i]? = some x) :
    (viewOf o).patch (UInt32.ofNat i) = .ok (some (itemOf x).1) := by
  have hi : i < o.patches.length := by
    rw [← length_placed]
    exact (List.getElem?_eq_some_iff.mp hx).1
  have hCount := h.count
  have hHeap := h.heap
  have hLt := h.length_bytes_lt
  have hIndex : (UInt32.ofNat i).toNat = i :=
    UInt32.toNat_ofNat_of_lt' (show i < 2 ^ 32 by omega)
  have hPathLe := (at_path (List.mem_of_getElem? hx)).2
  have hAt := at_patchBytes hx
  have hEnd : 16 + (24 + i * 36) + 36 ≤ o.bytes.length := by
    have hLen := length_body o
    have hFile := length_bytes o
    omega
  have hIn : ¬ (viewOf o).numPatches ≤ UInt32.ofNat i := by
    rw [viewOf, UInt32.le_iff_toNat_le, hIndex, h.numPatches_eq]
    omega
  have hAddress : headerLen + OverlayView.bodyHeaderLen + i * OverlayView.patchLen =
      16 + (24 + i * 36) := by
    unfold headerLen OverlayView.bodyHeaderLen OverlayView.patchLen
    omega
  unfold OverlayView.patch
  rw [if_neg hIn, OverlayView.recordAt_ok (by rw [hIndex]; omega), Chk.ok_bind, hIndex, hAddress]
  generalize 16 + (24 + i * 36) = pos at hAt hEnd
  have f4 := hAt.behind
  have f12 := f4.behind
  have f20 := f12.behind
  have f28 := f20.behind
  have f32 := f28.behind
  have hBytes : (viewOf o).bytes = o.bytes := rfl
  rw [hBytes, Chk.u32At_at (k := 0) hAt.left (by omega) hLt x.2.docId.toNat_lt]
  simp only [Chk.orNone]
  rw [Chk.u64At_at (k := 4) f4.left (by omega) hLt x.2.inode.toNat_lt]
  simp only
  rw [Chk.u64At_at (k := 12) f12.left (by omega) hLt x.2.mtime.toUInt64.toNat_lt]
  simp only
  rw [Chk.u64At_at (k := 20) f20.left (by omega) hLt x.2.size.toNat_lt]
  simp only
  rw [Chk.u32At_at (k := 28) f28.left (by omega) hLt (by omega)]
  simp only
  rw [Chk.u32At_at (k := 32) f32 (by omega) hLt (show x.2.path.utf8ByteSize < 2 ^ 32 by omega)]
  simp only [UInt32.ofNat_toNat]
  rfl

/-- The items of an encoded overlay. -/
theorem Counted.lists (h : Counted o) : (viewOf o).Lists (o.placed.map itemOf) := by
  refine ⟨?_, fun i x hx => ?_, ?_⟩
  · rw [List.length_map, length_placed]
    exact h.numPatches_eq.symm
  · rw [List.getElem?_map, Option.map_eq_some_iff] at hx
    obtain ⟨y, hy, rfl⟩ := hx
    obtain ⟨hPath, hLe⟩ := at_path (List.mem_of_getElem? hy)
    exact ⟨h.patch hy, heapText_at hPath hLe h.heap⟩
  · refine List.pairwise_map.mpr ?_
    have hSorted := o.docId_lt
    rw [← map_snd_heapOffsets (fun p => (pathBytes p).length) 0 o.patches] at hSorted
    exact (List.pairwise_map.mp hSorted).imp id

/-- An overlay whose patches can be counted is opened. -/
theorem Counted.parseVerified (h : Counted o) :
    OverlayView.parseVerified o.bytes = .ok (viewOf o) := by
  have hHeap := h.heap
  have hCount := h.count
  have hLt := h.length_bytes_lt
  have hLen := length_body o
  obtain ⟨hOpen, hRange⟩ := parseVerified_sealBody .overlay hLt
  have h0 := At.of_eq (body_eq o)
  have h8 := h0.behind.behind
  have h16 := h8.behind
  have r0 := readU32Le_at h0.left (by omega) h.count
  have r8 := readU64Le_at h8.left (by omega) (by
    unfold headerLen OverlayView.bodyHeaderLen OverlayView.patchLen
    omega)
  have r16 := readU64Le_at h16.left (by omega) (show _ < 2 ^ 64 by omega)
  simp only [Nat.zero_add, Nat.reduceAdd] at r8 r16
  have hSlice : slice o.bytes (headerLen + OverlayView.bodyHeaderLen +
      o.patches.length * OverlayView.patchLen) (o.patches.flatMap pathBytes).length =
        .ok (o.patches.flatMap pathBytes) :=
    slice_at (at_paths o) (by
      rw [length_bytes]
      unfold headerLen OverlayView.bodyHeaderLen OverlayView.patchLen
      omega)
  have hCheck : (viewOf o).checkFrom o.patches.length 0 none = .ok () := by
    have hFrom : (viewOf o).checkFrom (o.placed.map itemOf).length 0 none = .ok () :=
      OverlayView.checkFrom_of_lists (fun j x hx => by
        rw [Nat.zero_add]
        exact h.lists.patch j x hx) h.lists.sorted (fun d hd => nomatch hd)
    rwa [List.length_map, length_placed] at hFrom
  have hSum : Chk.add (headerLen + OverlayView.bodyHeaderLen +
      o.patches.length * OverlayView.patchLen) (o.patches.flatMap pathBytes).length =
        .ok (headerLen + o.body.length) := by
    unfold headerLen OverlayView.bodyHeaderLen OverlayView.patchLen
    rw [Chk.add_ok (by omega), hLen]
    congr 1
    omega
  have hShort : ¬ o.body.length < OverlayView.bodyHeaderLen := by
    unfold OverlayView.bodyHeaderLen
    omega
  unfold OverlayView.parseVerified
  rw [show o.bytes = sealBody .overlay formatVersion o.body from rfl, hOpen, Chk.ok_bind, hRange,
    Chk.ok_bind, if_neg hShort, r0, r8, r16]
  simp only [Chk.ofFormat, Chk.ok_bind, h.numPatches_eq, OverlayView.recordAt_ok hCount]
  rw [if_neg (not_not_intro rfl), hSum, Chk.ok_bind, if_neg (not_not_intro rfl)]
  show (Chk.ofFormat (slice o.bytes _ _) >>= _) = _
  rw [hSlice]
  show ((viewOf o).checkFrom o.patches.length 0 none >>= _) = _
  rw [hCheck]
  rfl

end Encoded

theorem encode_of_heap {o : Overlay} (h : (o.patches.flatMap pathBytes).length < 2 ^ 32) :
    encode o = .ok o := by
  have hCheck : ∀ ps heap, heap + (ps.flatMap pathBytes).length < 2 ^ 32 →
      checkPaths heap ps = .ok () := by
    intro ps
    induction ps with
    | nil => exact fun _ _ => rfl
    | cons p ps ih =>
      intro heap hHeap
      rw [List.flatMap_cons, List.length_append, length_pathBytes] at hHeap
      rw [checkPaths, if_neg (by omega)]
      exact ih _ (by omega)
  unfold encode
  rw [hCheck o.patches 0 (by rwa [Nat.zero_add])]
  rfl

-- ---------------------------------------------------------------------------
-- Reading back
-- ---------------------------------------------------------------------------

theorem shows_itemOf (x : Nat × Patch) : Shows (itemOf x) x.2 :=
  ⟨rfl, rfl, by simp [itemOf], rfl, rfl⟩

/-- The items read back show the patches, in order. -/
theorem shows_placed (o : Overlay) : List.Forall₂ Shows (o.placed.map itemOf) o.patches := by
  have hPatches : o.patches = o.placed.map Prod.snd :=
    (map_snd_heapOffsets (fun p => (pathBytes p).length) 0 o.patches).symm
  rw [hPatches, List.forall₂_map_left_iff, List.forall₂_map_right_iff]
  exact List.forall₂_same.mpr fun x _ => shows_itemOf x

/-- Looking a document up on both sides. -/
theorem find_shows {items : List (PatchRecord × String)} {ps : List Patch}
    (h : List.Forall₂ Shows items ps) (id : DocId) :
    Option.Rel Shows (items.find? fun x => x.1.docId == id) (ps.find? fun p => p.docId == id) := by
  induction h with
  | nil => exact .none
  | @cons x p items ps hShows _ ih =>
    by_cases hId : p.docId = id
    · have hItem : (x.1.docId == id) = true := by rw [hShows.docId, hId, beq_self_eq_true]
      have hPatch : (p.docId == id) = true := by rw [hId, beq_self_eq_true]
      rw [List.find?_cons, hItem, List.find?_cons, hPatch]
      exact .some hShows
    · have hPatch : (p.docId == id) = false := beq_false_of_ne hId
      have hItem : (x.1.docId == id) = false := by rw [hShows.docId, hPatch]
      rw [List.find?_cons, hItem, List.find?_cons, hPatch]
      exact ih

/-- The file is opened as the map it was made of. -/
def ReadsBack [Platform] (o : Overlay) : Prop :=
  ∃ v items, OverlayView.parseVerified o.bytes = .ok v ∧ v.iter = .ok items ∧
    List.Forall₂ Shows items o.patches ∧
    ∀ id, ∃ r, v.find id = .ok r ∧ Option.Rel Shows r (o.find id)

theorem readsBack_iff [Platform] {o : Overlay}
    (hHeap : (o.patches.flatMap pathBytes).length < 2 ^ 32) :
    o.ReadsBack ↔ o.patches.length < 2 ^ 32 := by
  constructor
  · rintro ⟨v, items, hParse, hIter, hShows, -⟩
    obtain ⟨items', hLists⟩ := OverlayView.lists_of_parseVerified hParse
    obtain rfl : items' = items := Except.ok.inj (hLists.iter.symm.trans hIter)
    rw [← hShows.length_eq, hLists.length_eq]
    exact v.numPatches.toNat_lt
  · intro hCount
    have hCounted : Counted o := ⟨hHeap, hCount⟩
    have hParse := hCounted.parseVerified
    have hLists := hCounted.lists
    exact ⟨o.viewOf, _, hParse, hLists.iter, shows_placed o, fun id =>
      ⟨_, hLists.find id, find_shows (shows_placed o) id⟩⟩

end Overlay

/-- The overlay is a finite map: sorted patches are encoded, and the file is opened as the map
of them exactly when they can be counted in 32 bits; and in every accepted file `find` gives
what `iter` yields. -/
theorem overlay_finite_map [Platform] :
    (∀ o : Overlay, (o.patches.flatMap Overlay.pathBytes).length < 2 ^ 32 →
      o.encode = .ok o ∧ (o.ReadsBack ↔ o.patches.length < 2 ^ 32)) ∧
    ∀ bytes v, OverlayView.parseVerified bytes = .ok v → ∃ items, v.iter = .ok items ∧
      ∀ id, ∃ r, v.find id = .ok r ∧ ∀ x, r = some x ↔ x ∈ items ∧ x.1.docId = id := by
  refine ⟨fun o hHeap => ⟨Overlay.encode_of_heap hHeap, Overlay.readsBack_iff hHeap⟩,
    fun bytes v hParse => ?_⟩
  obtain ⟨items, hLists⟩ := OverlayView.lists_of_parseVerified hParse
  refine ⟨items, hLists.iter, fun id => ⟨_, hLists.find id, fun x => ⟨fun hFind => ?_, ?_⟩⟩⟩
  · exact ⟨List.mem_of_find?_eq_some hFind, by simpa using List.find?_some hFind⟩
  · rintro ⟨hMem, rfl⟩
    exact OverlayView.find_eq_some hLists.sorted hMem

/-- Two patches, one of them with an empty path. -/
def Overlay.two : Overlay := ⟨[⟨3, 11, -5, 7, ""⟩, ⟨9, 12, 6, 0, "a/b"⟩], by decide⟩

theorem overlay_finite_map_two :
    let _ : Platform := .reference
    Overlay.two.encode = .ok Overlay.two ∧ Overlay.two.ReadsBack := by
  intro _
  obtain ⟨hEncode, hIff⟩ := overlay_finite_map.1 Overlay.two (by decide +kernel)
  exact ⟨hEncode, hIff.mpr (by decide)⟩

-- ---------------------------------------------------------------------------
-- A patch for every document
-- ---------------------------------------------------------------------------

/-- A patch with an empty path for each of the first `n` documents. -/
def Overlay.everyDoc (n : Nat) (h : n ≤ 2 ^ 32) : Overlay :=
  ⟨(List.range n).map fun i => ⟨UInt32.ofNat i, 0, 0, 0, ""⟩, by
    rw [List.pairwise_map]
    refine (List.pairwise_lt_range (n := n)).imp_of_mem fun {i j} hi hj hij => ?_
    rw [List.mem_range] at hi hj
    rw [UInt32.lt_iff_toNat_lt, UInt32.toNat_ofNat_of_lt' (show i < 2 ^ 32 by omega),
      UInt32.toNat_ofNat_of_lt' (show j < 2 ^ 32 by omega)]
    exact hij⟩

variable {n : Nat} (h : n ≤ 2 ^ 32)

theorem Overlay.heap_everyDoc : (Overlay.everyDoc n h).patches.flatMap pathBytes = [] := by
  refine List.flatMap_eq_nil_iff.mpr fun p hp => ?_
  obtain ⟨i, -, rfl⟩ := List.mem_map.mp hp
  exact List.eq_nil_of_length_eq_zero (length_pathBytes _)

theorem Overlay.length_everyDoc : (Overlay.everyDoc n h).patches.length = n := by
  rw [everyDoc, List.length_map, List.length_range]

/-- All `2 ^ 32` documents are one too many for the header. -/
theorem Overlay.not_readsBack_everyDoc [Platform] (hAll : n = 2 ^ 32) :
    ¬ (Overlay.everyDoc n h).ReadsBack := by
  intro hRead
  have hHeap : ((Overlay.everyDoc n h).patches.flatMap pathBytes).length < 2 ^ 32 := by
    rw [heap_everyDoc]
    decide
  have hCount := (readsBack_iff hHeap).mp hRead
  rw [length_everyDoc, hAll] at hCount
  exact Nat.lt_irrefl _ hCount

/-- With a patch for each of the `2 ^ 32` documents the overlay is encoded, and not read
back. -/
theorem everyPatch_lost :
    let _ : Platform := .reference
    let o := Overlay.everyDoc (2 ^ 32) (Nat.le_refl _)
    (o.patches.flatMap Overlay.pathBytes).length < 2 ^ 32 ∧ o.encode = .ok o ∧
      ¬ o.ReadsBack := by
  intro _ o
  have hHeap : (o.patches.flatMap Overlay.pathBytes).length < 2 ^ 32 := by
    rw [Overlay.heap_everyDoc]
    decide
  exact ⟨hHeap, Overlay.encode_of_heap hHeap, Overlay.not_readsBack_everyDoc _ rfl⟩

end Ripindex
