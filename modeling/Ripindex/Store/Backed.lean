import Ripindex.Store.Writer

/-!
# What a directory holds

`Index.Backed d I` says that the manifest of `I` and every file it names are in `d`, with
the contents of `I` and the lengths and checksums of the manifest.

## Results

* `openIndex_ok_iff` — opening a directory gives `I` exactly when the directory backs `I`;
* `Index.Backed.of_agree` — only the manifest and the files it references matter;
* `Index.Backed.unique` — a directory backs at most one index.
-/

namespace Ripindex

-- ---------------------------------------------------------------------------
-- Evaluation of reading programs
-- ---------------------------------------------------------------------------

namespace ReadE

variable {α β : Type}

/-- What a reading program computes on a directory that does not change. -/
def eval (p : ReadE α) (d : Dir) : Except Error α := p.run.onDir d

@[simp] theorem eval_pure (a : α) (d : Dir) : eval (pure a : ReadE α) d = .ok a := rfl

@[simp] theorem eval_throw (e : Error) (d : Dir) :
    eval (throw e : ReadE α) d = .error e := rfl

theorem eval_bind (p : ReadE α) (f : α → ReadE β) (d : Dir) :
    eval (p >>= f) d = (eval p d).bind fun a => eval (f a) d := by
  unfold eval ReadM.onDir
  rw [ExceptT.run_bind, Prog.answer_bind]
  rcases Prog.answer _ (ExceptT.run p) with e | a <;> rfl

@[simp] theorem eval_map (f : α → β) (p : ReadE α) (d : Dir) :
    eval (f <$> p) d = (eval p d).map f := by
  rw [map_eq_pure_bind, eval_bind]
  rcases eval p d with e | a <;> rfl

/-- A sequence succeeds exactly when its parts do. -/
theorem eval_bind_ok {p : ReadE α} {f : α → ReadE β} {d : Dir} {b : β} :
    eval (p >>= f) d = .ok b ↔ ∃ a, eval p d = .ok a ∧ eval (f a) d = .ok b := by
  rw [eval_bind]
  rcases eval p d with e | a <;> simp [Except.bind]

end ReadE

theorem Dir.readFile_ok_iff {d : Dir} {n : FileName} {f : FileData} :
    d.readFile n = .ok f ↔ d.lookup n = some f := by
  unfold Dir.readFile
  cases d.lookup n <;> simp

-- ---------------------------------------------------------------------------
-- Files
-- ---------------------------------------------------------------------------

namespace FileData

theorem parseIdx_ok_iff {f : FileData} {x : IdxFile} : f.parseIdx = .ok x ↔ f = .idx x := by
  cases f <;> simp [parseIdx]

theorem parseDoc_ok_iff {f : FileData} {x : Doc.View} :
    f.parseDoc = .ok x ↔ f = .doc x.records := by
  cases f <;> simp only [parseDoc, Doc.parse, reduceCtorEq, doc.injEq]
  case doc records =>
    rcases x with ⟨recs, hLt⟩
    split
    · simp
    · simp only [false_iff, reduceCtorEq]
      rintro rfl
      contradiction

theorem parseDel_ok_iff {f : FileData} {x : Bitmap} : f.parseDel = .ok x ↔ f = .del x := by
  cases f <;> simp [parseDel]

theorem parseOverlay_ok_iff {f : FileData} {x : Overlay} :
    f.parseOverlay = .ok x ↔ f = .overlay x := by
  cases f <;> simp [parseOverlay]

theorem parseManifest_ok_iff {f : FileData} {m : Manifest} :
    f.parseManifest = .ok m ↔ f = manifestFile m ∧ m.Ok := by
  cases f <;> simp only [parseManifest, manifestFile, reduceCtorEq, false_and, manifest.injEq]
  case manifest version m' =>
    rw [Manifest.decode_ok_iff]
    constructor
    · rintro ⟨rfl, hOk, rfl⟩
      exact ⟨⟨rfl, rfl⟩, hOk⟩
    · rintro ⟨⟨rfl, rfl⟩, hOk⟩
      exact ⟨rfl, hOk, rfl⟩

end FileData

theorem UInt32.pos_iff_ne_zero {a : UInt32} : 0 < a ↔ a ≠ 0 := by
  constructor
  · rintro h rfl
    exact absurd h (by decide)
  · intro h
    exact UInt32.lt_of_le_of_ne (UInt32.le_iff_toNat_le.mpr (Nat.zero_le _)) (Ne.symm h)

variable [Platform]

/-- The directory has file `n` with contents `f`, of the recorded length and checksum. -/
structure FileIs (d : Dir) (n : FileName) (f : FileData) (len : Nat) (crc : UInt32) :
    Prop where
  lookup : d.lookup n = some f
  len_eq : f.len = len
  crc_eq : f.crc = crc

theorem eval_openChecked_ok {α : Type} {op : FileName → ReadOp} (hOp : ∀ n, (op n).name = n)
    {n : FileName} {len : Nat} {crc : UInt32} {parse : FileData → Except FormatError α}
    {d : Dir} {x : α} :
    (openChecked op n len crc parse).eval d = .ok x ↔
      ∃ f, FileIs d n f len crc ∧ parse f = .ok x := by
  unfold openChecked ReadE.eval ReadM.onDir
  simp only [ExceptT.run_mk, Prog.op_bind, Prog.answer_call, hOp]
  constructor
  · intro h
    rcases hRead : d.readFile n with e | f
    · simp [hRead] at h
    · rw [hRead] at h
      simp only at h
      split at h
      · cases h
      rename_i hLen
      rcases hParse : parse f with e | y
      · simp [hParse] at h
      · rw [hParse] at h
        simp only at h
        split at h
        · cases h
        rename_i hCrc
        cases h
        exact ⟨f, ⟨Dir.readFile_ok_iff.mp hRead, not_not.mp hLen, not_not.mp hCrc⟩, hParse⟩
  · rintro ⟨f, ⟨hLookup, hLen, hCrc⟩, hParse⟩
    simp only [Dir.readFile_ok_iff.mpr hLookup, hLen, hParse, hCrc, ne_eq, not_true, if_false]
    rfl

theorem eval_openChecked_mmap_ok {α : Type} {n : FileName} {len : Nat} {crc : UInt32}
    {parse : FileData → Except FormatError α} {d : Dir} {x : α} :
    (openChecked .mmap n len crc parse).eval d = .ok x ↔
      ∃ f, FileIs d n f len crc ∧ parse f = .ok x :=
  eval_openChecked_ok fun _ => rfl

theorem eval_openChecked_read_ok {α : Type} {n : FileName} {len : Nat} {crc : UInt32}
    {parse : FileData → Except FormatError α} {d : Dir} {x : α} :
    (openChecked .read n len crc parse).eval d = .ok x ↔
      ∃ f, FileIs d n f len crc ∧ parse f = .ok x :=
  eval_openChecked_ok fun _ => rfl

-- ---------------------------------------------------------------------------
-- Segments
-- ---------------------------------------------------------------------------

/-- The files of an open segment are in the directory. -/
structure Segment.Backed (d : Dir) (s : Segment) : Prop where
  idx : FileIs d (.idx s.entry.segmentId) (.idx s.idx) s.entry.idxLen s.entry.idxCrc
  numTerms : s.idx.terms.length = s.entry.numTerms
  doc : FileIs d (.doc s.entry.segmentId) (.doc s.docs) s.entry.docLen s.entry.docCrc
  del : ∀ b ∈ s.del, FileIs d (.del s.entry.segmentId s.entry.delGen) (.del b)
    s.entry.delLen s.entry.delCrc
  delGen : 0 < s.entry.delGen ↔ s.del.isSome

theorem eval_openIdx_ok {e : SegmentEntry} {d : Dir} {f : IdxFile} :
    (Segment.openIdx e).eval d = .ok f ↔
      FileIs d (.idx e.segmentId) (.idx f) e.idxLen e.idxCrc ∧
        f.terms.length = e.numTerms := by
  unfold Segment.openIdx
  simp only [ReadE.eval_bind_ok, eval_openChecked_mmap_ok,
    FileData.parseIdx_ok_iff]
  constructor
  · rintro ⟨g, ⟨_, hFile, rfl⟩, hTerms⟩
    split at hTerms
    · simp at hTerms
    · rename_i hNum
      obtain rfl : g = f := by simpa using hTerms
      exact ⟨hFile, not_not.mp hNum⟩
  · rintro ⟨hFile, hNum⟩
    exact ⟨f, ⟨_, hFile, rfl⟩, by simp [hNum]⟩

theorem eval_openDocs_ok {e : SegmentEntry} {d : Dir}
    {docs : { docs : List DocMeta // docs.length = e.numDocs.toNat }} :
    (Segment.openDocs e).eval d = .ok docs ↔
      FileIs d (.doc e.segmentId) (.doc docs.1) e.docLen e.docCrc := by
  unfold Segment.openDocs
  simp only [ReadE.eval_bind_ok, eval_openChecked_mmap_ok,
    FileData.parseDoc_ok_iff]
  constructor
  · rintro ⟨view, ⟨_, hFile, rfl⟩, hView⟩
    split at hView
    · obtain rfl := (Except.ok.inj hView : _ = docs)
      exact hFile
    · simp at hView
  · intro hFile
    have hLt : docs.1.length < 2 ^ 32 := by rw [docs.2]; exact UInt32.toNat_lt _
    have hNum : (⟨docs.1, hLt⟩ : Doc.View).numDocs = e.numDocs :=
      UInt32.toNat_inj.mp (by rw [Doc.View.toNat_numDocs, docs.2])
    exact ⟨⟨docs.1, hLt⟩, ⟨_, hFile, rfl⟩, by rw [dif_pos hNum]; rfl⟩

theorem eval_openDel_ok {e : SegmentEntry} {d : Dir}
    {del : { del : Option Bitmap // ∀ b ∈ del, b.numDocs = e.numDocs ∧ b.count = e.numDeleted }} :
    (Segment.openDel e).eval d = .ok del ↔
      (∀ b ∈ del.1, FileIs d (.del e.segmentId e.delGen) (.del b) e.delLen e.delCrc) ∧
        (0 < e.delGen ↔ del.1.isSome) := by
  unfold Segment.openDel
  split
  · rename_i hGen
    simp only [ReadE.eval_bind_ok, eval_openChecked_read_ok,
      FileData.parseDel_ok_iff]
    constructor
    · rintro ⟨b, ⟨_, hFile, rfl⟩, hChecks⟩
      split at hChecks
      · split at hChecks
        · obtain rfl := (Except.ok.inj hChecks : _ = del)
          exact ⟨by rintro _ ⟨⟩; exact hFile, by simp [hGen]⟩
        · simp at hChecks
      · simp at hChecks
    · rintro ⟨hFile, hSome⟩
      rcases del with ⟨_ | b, hb⟩
      · simp [hGen] at hSome
      · obtain ⟨hDocs, hCount⟩ := hb b rfl
        exact ⟨b, ⟨_, hFile b rfl, rfl⟩, by rw [dif_pos hDocs, dif_pos hCount]; rfl⟩
  · rename_i hGen
    rcases del with ⟨_ | b, hb⟩
    · simp [hGen]
    · simp [hGen, ReadE.eval, ReadM.onDir, pure, ExceptT.pure, ExceptT.mk, ExceptT.run]

/-- Opening the segment of an entry gives `s` exactly when the directory has its files. -/
theorem eval_openEntry_ok {e : SegmentEntry} {d : Dir} {s : { s : Segment // s.entry = e }} :
    (Segment.openEntry e).eval d = .ok s ↔ s.1.Backed d := by
  unfold Segment.openEntry
  simp only [ReadE.eval_bind_ok, eval_openIdx_ok, eval_openDocs_ok, eval_openDel_ok]
  constructor
  · rintro ⟨idx, ⟨hIdx, hTerms⟩, docs, hDocs, del, ⟨hDel, hGen⟩, hPure⟩
    obtain rfl := (Except.ok.inj hPure : _ = s)
    exact ⟨hIdx, hTerms, hDocs, hDel, hGen⟩
  · rcases s with ⟨s, rfl⟩
    rintro ⟨hIdx, hTerms, hDocs, hDel, hGen⟩
    exact ⟨s.idx, ⟨hIdx, hTerms⟩, ⟨s.docs, s.length_docs⟩, hDocs,
      ⟨s.del, fun b hb => ⟨s.numDocs_del b hb, s.count_del b hb⟩⟩, ⟨hDel, hGen⟩, rfl⟩

theorem eval_openSegments_ok {es : List SegmentEntry} {d : Dir}
    {ss : { ss : List Segment // ss.map Segment.entry = es }} :
    (openSegments es).eval d = .ok ss ↔ ∀ s ∈ ss.1, s.Backed d := by
  induction es with
  | nil =>
    rcases ss with ⟨ss, hss⟩
    obtain rfl : ss = [] := List.map_eq_nil_iff.mp hss
    simp [openSegments]
  | cons e es ih =>
    rcases ss with ⟨_ | ⟨s, ss⟩, hss⟩
    · simp at hss
    · obtain ⟨hs, hss⟩ := List.cons.inj hss
      simp only [openSegments, ReadE.eval_bind_ok, eval_openEntry_ok]
      constructor
      · rintro ⟨s', hs', ss', hss', hPure⟩
        have hEq := congrArg Subtype.val (Except.ok.inj hPure)
        obtain ⟨rfl, rfl⟩ := List.cons.inj hEq
        exact List.forall_mem_cons.mpr ⟨hs', ih.mp hss'⟩
      · intro h
        obtain ⟨hHead, hTail⟩ := List.forall_mem_cons.mp h
        exact ⟨⟨s, hs⟩, hHead, ⟨ss, hss⟩, ih.mpr hTail, rfl⟩

-- ---------------------------------------------------------------------------
-- Indexes
-- ---------------------------------------------------------------------------

/-- The manifest of an index and every file it names are in the directory. -/
structure Index.Backed (d : Dir) (I : Index) : Prop where
  manifest : d.lookup .manifest = some (manifestFile I.manifest)
  segments : ∀ s ∈ I.segments, s.Backed d
  overlay : 0 < I.manifest.stateGen → FileIs d (.overlay I.manifest.stateGen)
    (.overlay I.overlay) I.manifest.stateLen I.manifest.stateCrc
  no_overlay : I.manifest.stateGen = 0 → I.overlay = Overlay.empty

omit [Platform] in
@[ext] theorem Index.ext {I J : Index} (hManifest : I.manifest = J.manifest)
    (hSegments : I.segments = J.segments) (hOverlay : I.overlay = J.overlay) : I = J := by
  cases I
  cases J
  simp_all

theorem eval_openOverlay_ok {m : Manifest} {d : Dir} {o : Overlay} :
    (openOverlay m).eval d = .ok o ↔
      (0 < m.stateGen →
        FileIs d (.overlay m.stateGen) (.overlay o) m.stateLen m.stateCrc) ∧
      (m.stateGen = 0 → o = Overlay.empty) := by
  unfold openOverlay
  split
  · rename_i hGen
    have hNe := UInt32.pos_iff_ne_zero.mp hGen
    simp only [eval_openChecked_read_ok, FileData.parseOverlay_ok_iff]
    simp [hGen, hNe]
  · rename_i hGen
    have hEq : m.stateGen = 0 := not_not.mp (mt UInt32.pos_iff_ne_zero.mpr hGen)
    simp [hEq, eq_comm]

theorem eval_loadIndex_ok {m : { m : Manifest // m.Ok }} {d : Dir} {I : Index} :
    (loadIndex m).eval d = .ok I ↔
      I.manifest = m.1 ∧ (∀ s ∈ I.segments, s.Backed d) ∧
        (0 < m.1.stateGen →
          FileIs d (.overlay m.1.stateGen) (.overlay I.overlay) m.1.stateLen m.1.stateCrc) ∧
        (m.1.stateGen = 0 → I.overlay = Overlay.empty) := by
  unfold loadIndex
  simp only [ReadE.eval_bind_ok, eval_openSegments_ok, eval_openOverlay_ok]
  constructor
  · rintro ⟨ss, hss, o, ho, hPure⟩
    obtain rfl := (Except.ok.inj hPure : _ = I)
    exact ⟨rfl, hss, ho⟩
  · rcases m with ⟨m, hm⟩
    rintro ⟨rfl, hss, ho⟩
    exact ⟨⟨I.segments, I.entries_eq⟩, hss, I.overlay, ho, rfl⟩

omit [Platform] in
theorem acceptManifest_ok_some {f : FileData} {m : { m : Manifest // m.Ok }} :
    acceptManifest f = .ok (some m) ↔ f = manifestFile m.1 := by
  unfold acceptManifest
  split
  · rename_i m' h
    simp only [Except.ok.injEq, Option.some.injEq]
    obtain ⟨rfl, _⟩ := FileData.parseManifest_ok_iff.mp h
    constructor
    · rintro rfl
      rfl
    · intro hf
      simp only [manifestFile, FileData.manifest.injEq, true_and] at hf
      exact Subtype.ext hf
  · rename_i v h
    simp only [reduceCtorEq, false_iff]
    rintro rfl
    rw [FileData.parseManifest_ok_iff.mpr ⟨rfl, m.2⟩] at h
    cases h
  · rename_i e _ h
    simp only [reduceCtorEq, Except.ok.injEq, false_iff]
    rintro rfl
    rw [FileData.parseManifest_ok_iff.mpr ⟨rfl, m.2⟩] at h
    cases h

omit [Platform] in
/-- What reading the manifest gives on a fixed directory. -/
theorem eval_readManifest (d : Dir) :
    readManifest.eval d =
      match d.lookup .manifest with
      | none => .ok none
      | some f => acceptManifest f := by
  unfold readManifest ReadE.eval ReadM.onDir
  simp only [ExceptT.run_mk, Prog.op_bind, Prog.answer_call, ReadOp.name, Dir.readFile]
  cases d.lookup .manifest <;> rfl

omit [Platform] in
theorem eval_readManifest_some {d : Dir} {m : { m : Manifest // m.Ok }} :
    readManifest.eval d = .ok (some m) ↔ d.lookup .manifest = some (manifestFile m.1) := by
  rw [eval_readManifest]
  cases d.lookup .manifest with
  | none => simp
  | some f => simp [acceptManifest_ok_some]

/-- Opening a directory gives `I` exactly when the directory backs `I`. -/
theorem openIndex_ok_iff {d : Dir} {I : Index} :
    d.openIndex = .ok (some I) ↔ I.Backed d := by
  change (readIndex.eval d = _) ↔ _
  unfold readIndex
  rw [ReadE.eval_bind_ok]
  constructor
  · rintro ⟨_ | m, hm, hLoad⟩
    · simp at hLoad
    · simp only [ReadE.eval_map] at hLoad
      rcases hL : (loadIndex m).eval d with e | J
      · simp [hL, Except.map] at hLoad
      · obtain rfl : J = I := by simpa [hL, Except.map] using hLoad
        obtain ⟨hManifest, hSegs, hOv, hNo⟩ := eval_loadIndex_ok.mp hL
        exact ⟨hManifest ▸ eval_readManifest_some.mp hm, hSegs, hManifest ▸ hOv,
          hManifest ▸ hNo⟩
  · intro h
    refine ⟨some ⟨I.manifest, I.manifest_ok⟩, eval_readManifest_some.mpr h.manifest, ?_⟩
    have hLoad : (loadIndex ⟨I.manifest, I.manifest_ok⟩).eval d = .ok I :=
      eval_loadIndex_ok.mpr ⟨rfl, h.segments, h.overlay, h.no_overlay⟩
    simp only [ReadE.eval_map, hLoad, Except.map]

/-- A directory backs at most one index. -/
theorem Index.Backed.unique {d : Dir} {I J : Index} (hI : I.Backed d) (hJ : J.Backed d) :
    I = J := by
  have h := (openIndex_ok_iff.mpr hI).symm.trans (openIndex_ok_iff.mpr hJ)
  simpa using h

-- ---------------------------------------------------------------------------
-- Which files matter
-- ---------------------------------------------------------------------------

omit [Platform] in
theorem mem_segmentFiles {e : SegmentEntry} {n : FileName} :
    n ∈ segmentFiles e ↔
      n = .idx e.segmentId ∨ n = .doc e.segmentId ∨
        (0 < e.delGen ∧ n = .del e.segmentId e.delGen) := by
  unfold segmentFiles
  split <;> simp_all

omit [Platform] in
theorem mem_referencedFiles {m : Manifest} {n : FileName} :
    n ∈ referencedFiles m ↔
      (∃ e ∈ m.segments, n ∈ segmentFiles e) ∨
        (0 < m.stateGen ∧ n = .overlay m.stateGen) := by
  unfold referencedFiles
  split <;> simp_all

theorem FileIs.of_agree {d d' : Dir} {n : FileName} {f : FileData} {len : Nat}
    {crc : UInt32} (h : FileIs d n f len crc) (hAgree : d'.lookup n = d.lookup n) :
    FileIs d' n f len crc :=
  ⟨hAgree.trans h.lookup, h.len_eq, h.crc_eq⟩

theorem Segment.Backed.of_agree {d d' : Dir} {s : Segment} (h : s.Backed d)
    (hAgree : ∀ n ∈ segmentFiles s.entry, d'.lookup n = d.lookup n) : s.Backed d' where
  idx := h.idx.of_agree (hAgree _ (mem_segmentFiles.mpr (.inl rfl)))
  numTerms := h.numTerms
  doc := h.doc.of_agree (hAgree _ (mem_segmentFiles.mpr (.inr (.inl rfl))))
  del := fun b hb => (h.del b hb).of_agree (hAgree _ (mem_segmentFiles.mpr
    (.inr (.inr ⟨h.delGen.mpr (by rw [hb]; rfl), rfl⟩))))
  delGen := h.delGen

omit [Platform] in
theorem Index.mem_referencedFiles_of_mem (I : Index) {s : Segment} {n : FileName}
    (hs : s ∈ I.segments) (hn : n ∈ segmentFiles s.entry) :
    n ∈ referencedFiles I.manifest :=
  mem_referencedFiles.mpr (.inl ⟨s.entry, I.entries_eq ▸ List.mem_map_of_mem hs, hn⟩)

/-- Only the manifest and the files it references matter to what a directory holds. -/
theorem Index.Backed.of_agree {d d' : Dir} {I : Index} (h : I.Backed d)
    (hManifest : d'.lookup .manifest = d.lookup .manifest)
    (hAgree : ∀ n ∈ referencedFiles I.manifest, d'.lookup n = d.lookup n) : I.Backed d' where
  manifest := hManifest.trans h.manifest
  segments := fun s hs => (h.segments s hs).of_agree fun _ hn =>
    hAgree _ (I.mem_referencedFiles_of_mem hs hn)
  overlay := fun hGen => (h.overlay hGen).of_agree
    (hAgree _ (mem_referencedFiles.mpr (.inr ⟨hGen, rfl⟩)))
  no_overlay := h.no_overlay

end Ripindex
