import Ripindex.Format.Del
import Ripindex.Format.Doc
import Ripindex.Format.IdxSafe
import Ripindex.Format.OverlayCodec

/-!
# All readers

Whatever bytes a file has, and as whatever kind it is opened.

## Results

* `readers_never_panic` — the files on which no reader panics.
-/

namespace Ripindex

open Format

-- ---------------------------------------------------------------------------
-- All readers
-- ---------------------------------------------------------------------------

/-- Whatever is called on the file, as whatever kind it is opened, nothing panics. -/
structure ReadersSafe [Platform] (bytes : List UInt8) : Prop where
  varint : ∀ pos, Chk.Safe (Format.Checked.readU64 bytes pos)
  idxParse : Chk.Safe (IdxView.parse bytes)
  idx : ∀ v, IdxView.parse bytes = .ok v →
    (∀ t, Chk.Safe (v.lookup t)) ∧ Chk.Safe v.terms ∧ Chk.Safe v.verify
  list : ∀ data docFreq, Chk.Safe (Checked.verify ⟨data, docFreq⟩)
  cursor : ∀ data ops, Chk.Safe (Checked.decodePositions ((DiskCursor.new data).run ops).2)
  docParse : Chk.Safe (DocTableView.parse bytes)
  doc : ∀ v, DocTableView.parse bytes = .ok v →
    (∀ i, Chk.Safe (v.record i) ∧ Chk.Safe (v.path i) ∧ Chk.Safe (v.docLenIfIndexed i)) ∧
      Chk.Safe v.verify
  overlayParse : Chk.Safe (OverlayView.parseVerified bytes)
  overlay : ∀ v, OverlayView.parseVerified bytes = .ok v →
    (∀ id, Chk.Safe (v.find id)) ∧ Chk.Safe v.iter
  del : Chk.Safe (DelView.parseVerified bytes)
  manifest : Chk.Safe (ManifestBytes.decode bytes)

/-- A term dictionary is read without panic exactly when the blocks that are opened fit. -/
theorem IdxView.fits_iff [Platform] {bytes : List UInt8} (h : bytes.length < 2 ^ 63) :
    IdxView.Fits bytes ↔ ∀ v, IdxView.parse bytes = .ok v →
      (∀ t, Chk.Safe (v.lookup t)) ∧ Chk.Safe v.terms ∧ Chk.Safe v.verify := by
  refine forall_congr' fun v => forall_congr' fun hv => ?_
  have hParsed := (IdxView.gives_parse h).of_ok hv
  simp only [hParsed.lookup_iff, hParsed.terms_iff, hParsed.verify_iff]
  exact ⟨fun hFits => ⟨hFits.lookup, hFits.terms, hFits.verify⟩,
    fun ⟨hLookup, hTerms, hVerify⟩ => ⟨hLookup, hTerms, hVerify⟩⟩

/-- The readers never panic exactly when the offsets of the blocks that are opened fit, the path
heaps fit and the deleted documents can be counted. -/
theorem readers_never_panic [Platform] (bytes : List UInt8) (h : bytes.length < 2 ^ 63) :
    ReadersSafe bytes ↔ IdxView.Fits bytes ∧ DocTableView.Fits bytes ∧
      OverlayView.Fits bytes ∧ DelView.Fits bytes := by
  have hLength : bytes.length < 2 ^ 64 := Nat.lt_trans h (by decide)
  constructor
  · intro hSafe
    exact ⟨(IdxView.fits_iff h).mpr hSafe.idx,
      (DocTableView.parse_iff hLength fun _ _ => trivial).mp hSafe.docParse,
      (OverlayView.parseVerified_iff hLength).mp hSafe.overlayParse,
      (DelView.parseVerified_iff hLength).mp hSafe.del⟩
  · rintro ⟨hIdx, hDoc, hOverlay, hDel⟩
    have hDocParse := (DocTableView.parse_iff hLength fun _ hv => hv).mpr hDoc
    refine ⟨fun pos => ?_, (IdxView.gives_parse h).safe, (IdxView.fits_iff h).mp hIdx,
      fun data docFreq => ?_, fun data ops => ?_, hDocParse.safe, fun v hv => ?_,
      (OverlayView.parseVerified_iff hLength).mpr hOverlay, fun v _ => ?_,
      (DelView.parseVerified_iff hLength).mpr hDel, ManifestBytes.gives_decode hLength⟩
    · rw [Format.Checked.readU64_eq hLength]
      exact Chk.safe_ofFormat _
    · rw [Checked.verify_eq]
      exact Chk.safe_ofFormat _
    · rw [Checked.decodePositions_eq (DiskCursor.run_bounded ops (DiskCursor.new_bounded data))]
      exact Chk.safe_ofFormat _
    · have hParsed := hDocParse.of_ok hv
      exact ⟨fun i => ⟨hParsed.record i, hParsed.path i, hParsed.docLenIfIndexed i⟩,
        hParsed.verify⟩
    · exact ⟨fun id => v.gives_find id, v.gives_iterFrom _ _⟩

-- ---------------------------------------------------------------------------
-- Files
-- ---------------------------------------------------------------------------

/-- Without a panic in the three parsers only the term dictionary is left to look at. -/
theorem fits_of_parsers [Platform] {bytes : List UInt8} (h : bytes.length < 2 ^ 64)
    (hIdx : IdxView.Fits bytes)
    (hDoc : (DocTableView.parse bytes).map (fun _ => ()) ≠ .error .panic)
    (hOverlay : (OverlayView.parseVerified bytes).map (fun _ => ()) ≠ .error .panic)
    (hDel : (DelView.parseVerified bytes).map (fun _ => ()) ≠ .error .panic) :
    IdxView.Fits bytes ∧ DocTableView.Fits bytes ∧ OverlayView.Fits bytes ∧
      DelView.Fits bytes := by
  have hSafe : ∀ {α : Type} {r : Chk α}, r.map (fun _ => ()) ≠ .error .panic → Chk.Safe r := by
    intro α r hMap
    refine Chk.safe_iff.mpr fun hPanic => hMap ?_
    rw [hPanic]
    rfl
  exact ⟨hIdx, (DocTableView.parse_iff h fun _ _ => trivial).mp (hSafe hDoc),
    (OverlayView.parseVerified_iff h).mp (hSafe hOverlay),
    (DelView.parseVerified_iff h).mp (hSafe hDel)⟩

/-- A file that is no term dictionary. -/
theorem IdxView.Fits.of_not_idx [Platform] {bytes : List UInt8}
    (h : (IdxView.parse bytes).isOk = false) : IdxView.Fits bytes := by
  intro v hv
  rw [hv] at h
  cases h

/-- A dictionary whose sparse entries are all in range. -/
theorem IdxView.OpenedFit.of_entries [Platform] {v : IdxView}
    (h : ∀ b < v.toc.numBlocks.toNat, ∀ first blockOff postingsRel,
      v.sparseEntry b = .ok (first, blockOff, postingsRel) →
        v.toc.dictOff + blockOff < 2 ^ 64 ∧ v.toc.postingsOff + postingsRel < 2 ^ 64)
    (hParsed : v.Parsed) : v.OpenedFit where
  lookup := fun t b hEnd first blockOff postingsRel hEntry => by
    have hb : b + 1 ≤ v.toc.numBlocks.toNat :=
      (hParsed.search _ (Nat.zero_le _) le_rfl).of_ok hEnd
    obtain ⟨hDict, hPostings⟩ := h b hb first blockOff postingsRel hEntry
    exact ⟨hDict, fun _ => hPostings⟩
  terms := fun b hb _ first blockOff postingsRel hEntry => by
    obtain ⟨hDict, hPostings⟩ := h b hb first blockOff postingsRel hEntry
    exact ⟨hDict, fun _ => hPostings⟩
  verify := fun _ b hb _ _ first blockOff postingsRel hEntry => by
    obtain ⟨hDict, hPostings⟩ := h b hb first blockOff postingsRel hEntry
    exact ⟨hPostings, fun _ => hDict⟩

/-- Where the sparse entry in the middle and the first one cannot be read, no block is opened. -/
theorem IdxView.OpenedFit.of_unreadable [Platform] {v : IdxView} {e e' : Stop}
    (hBlocks : v.toc.numBlocks.toNat = 3) (hFirst : v.sparseEntry 0 = .error e)
    (hMiddle : v.sparseEntry 1 = .error e') : v.OpenedFit where
  lookup := fun t b hEnd => by
    have hMid : v.sparseEntry ((0 + 3) / 2) = .error e' := hMiddle
    rw [hBlocks, IdxView.search, if_pos (by decide)] at hEnd
    simp only [hMid] at hEnd
    cases hEnd
  terms := fun b hb hBefore => by
    cases b with
    | zero =>
      intro first blockOff postingsRel hEntry
      rw [hFirst] at hEntry
      cases hEntry
    | succ b =>
      simp only [takeBlocks, takeBlock, block, hFirst] at hBefore
      cases hBefore
  verify := fun _ b hb p hBefore => by
    cases b with
    | zero =>
      intro first blockOff postingsRel hEntry
      rw [hFirst] at hEntry
      cases hEntry
    | succ b =>
      simp only [verifyBlocks_cons, verifyBlock, hFirst] at hBefore
      cases hBefore

/-- A dictionary of the term `a`, which document 0 has at position 0. -/
def oneTerm [Platform] : List UInt8 :=
  sealBody .idx formatVersion ([1, 0, 1, 1, 0] ++ [0, 1, 97, 1, 5] ++
    (leBytes 4 0 ++ [1, 97, 0, 0]) ++
    (leBytes 8 16 ++ leBytes 8 5 ++ leBytes 8 21 ++ leBytes 8 5 ++ leBytes 8 26 ++ leBytes 8 8 ++
      leBytes 8 1 ++ leBytes 4 1 ++ leBytes 4 64))

/-- A dictionary said to have three blocks: the sparse entries of the first two lie outside the
file, and the third one is at offset `2 ^ 64 - 1`. -/
def unopened [Platform] : List UInt8 :=
  sealBody .idx formatVersion (
    (leBytes 4 (2 ^ 32 - 1) ++ leBytes 4 (2 ^ 32 - 1) ++ leBytes 4 0 ++
      [0, 255, 255, 255, 255, 255, 255, 255, 255, 255, 1, 0]) ++
    (leBytes 8 16 ++ leBytes 8 0 ++ leBytes 8 16 ++ leBytes 8 0 ++ leBytes 8 16 ++ leBytes 8 24 ++
      leBytes 8 129 ++ leBytes 4 3 ++ leBytes 4 64))

/-- A document table with a file that is indexed and one that is not. -/
def twoDocs [Platform] : List UInt8 :=
  sealBody .doc formatVersion
    (Doc.body [⟨"a.txt", 5, 6, 1, 1, .indexed, 7⟩, ⟨"b.bin", 8, 9, 1, 0, .binary, 0⟩])

/-- The deletion of the second of ten documents. -/
def oneDeletion [Platform] : List UInt8 :=
  sealBody .del formatVersion (((Bitmap.new 10).set 1).body)

/-- The only block of `oneTerm` starts the dictionary, and its postings start the region. -/
theorem fits_oneTerm :
    let _ : Platform := .reference
    IdxView.Fits oneTerm := by
  intro _ v hv
  refine .of_entries ?_ ((IdxView.gives_parse (by decide +kernel)).of_ok hv)
  have hRead : (IdxView.parse oneTerm).map (fun v => (v.toc.numBlocks, v.toc.dictOff,
      v.toc.postingsOff, (v.sparseEntry 0).toOption.getD ([], 1, 1))) =
        .ok (1, 21, 16, [97], 0, 0) := by
    decide +kernel
  rw [hv] at hRead
  simp only [Except.map, Except.ok.injEq, Prod.mk.injEq] at hRead
  obtain ⟨hBlocks, hDict, hPostings, hEntry⟩ := hRead
  intro b hb first blockOff postingsRel hOk
  rw [hBlocks] at hb
  obtain rfl : b = 0 := Nat.lt_one_iff.mp hb
  rw [hOk] at hEntry
  obtain ⟨-, rfl, rfl⟩ : first = [97] ∧ blockOff = 0 ∧ postingsRel = 0 := by
    simpa [Except.toOption] using hEntry
  omega

/-- No block of `unopened` is opened. -/
theorem fits_unopened :
    let _ : Platform := .reference
    IdxView.Fits unopened := by
  intro _ v hv
  have hRead : (IdxView.parse unopened).map (fun v => (v.toc.numBlocks,
      (v.sparseEntry 0).isOk, (v.sparseEntry 1).isOk)) = .ok (3, false, false) := by
    decide +kernel
  rw [hv] at hRead
  simp only [Except.map, Except.ok.injEq, Prod.mk.injEq] at hRead
  obtain ⟨hBlocks, hFirst, hMiddle⟩ := hRead
  rcases hZero : v.sparseEntry 0 with e | entry
  · rcases hOne : v.sparseEntry 1 with e' | entry
    · exact .of_unreadable (congrArg UInt32.toNat hBlocks) hZero hOne
    · rw [hOne] at hMiddle
      cases hMiddle
  · rw [hZero] at hFirst
    cases hFirst

/-- Files of each kind, the second one with an offset that nothing adds up. -/
theorem readers_never_panic_files :
    let _ : Platform := .reference
    (ReadersSafe oneTerm ∧
      ((IdxView.parse oneTerm).bind fun v => v.lookup "a").toOption.any Option.isSome) ∧
    ReadersSafe unopened ∧
    (ReadersSafe twoDocs ∧ (DocTableView.parse twoDocs).isOk) ∧
    (ReadersSafe Overlay.two.bytes ∧ (OverlayView.parseVerified Overlay.two.bytes).isOk) ∧
    ReadersSafe oneDeletion ∧ (DelView.parseVerified oneDeletion).isOk := by
  intro _
  have hOverlay : OverlayView.parseVerified Overlay.two.bytes = .ok (Overlay.viewOf Overlay.two) :=
    Overlay.Counted.parseVerified ⟨by decide +kernel, by decide⟩
  refine ⟨⟨(readers_never_panic oneTerm (by decide +kernel)).mpr ?_, by decide +kernel⟩,
    (readers_never_panic unopened (by decide +kernel)).mpr ?_,
    ⟨(readers_never_panic twoDocs (by decide +kernel)).mpr ?_, by decide +kernel⟩,
    ⟨(readers_never_panic Overlay.two.bytes (by decide +kernel)).mpr ?_, ?_⟩,
    (readers_never_panic oneDeletion (by decide +kernel)).mpr ?_, by decide +kernel⟩
  · exact fits_of_parsers (by decide +kernel) fits_oneTerm (by decide +kernel) (by decide +kernel)
      (by decide +kernel)
  · exact fits_of_parsers (by decide +kernel) fits_unopened (by decide +kernel) (by decide +kernel)
      (by decide +kernel)
  · exact fits_of_parsers (by decide +kernel) (.of_not_idx (by decide +kernel)) (by decide +kernel)
      (by decide +kernel) (by decide +kernel)
  · refine fits_of_parsers (by decide +kernel) (.of_not_idx (by decide +kernel)) (by decide +kernel)
      ?_ (by decide +kernel)
    rw [hOverlay]
    exact nofun
  · rw [hOverlay]
    rfl
  · exact fits_of_parsers (by decide +kernel) (.of_not_idx (by decide +kernel)) (by decide +kernel)
      (by decide +kernel) (by decide +kernel)
/-- A document table whose path heap is said to have `2 ^ 64 - 1` bytes. -/
def hugeHeap [Platform] : List UInt8 :=
  sealBody .doc formatVersion (leBytes 4 0 ++ leBytes 4 0 ++ leBytes 8 0 ++ leBytes 8 48 ++
    leBytes 8 (2 ^ 64 - 1))

/-- The reader panics on it. -/
theorem hugeHeap_panics :
    let _ : Platform := .reference
    ¬ ReadersSafe hugeHeap := by
  intro _ hSafe
  have hPanic : (DocTableView.parse hugeHeap).map (fun _ => ()) = .error .panic := by
    decide +kernel
  have hParse := hSafe.docParse
  rcases hResult : DocTableView.parse hugeHeap with (_ | e) | v
  · rw [hResult] at hParse
    exact hParse rfl
  · rw [hResult] at hPanic
    cases hPanic
  · rw [hResult] at hPanic
    cases hPanic

end Ripindex
