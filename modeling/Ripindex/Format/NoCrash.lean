import Ripindex.Format.Views

/-!
# Malformed files and the readers

What a reader does with arbitrary bytes: every index and slice is in bounds, and the sums that
may overflow are those of offsets that the file gives.
-/

namespace Ripindex

open Format

-- ---------------------------------------------------------------------------
-- The envelope
-- ---------------------------------------------------------------------------

namespace Checked

theorem bodyEnd_of_parse {kind : Kind} {bytes : List UInt8} {env : Envelope}
    (h : Envelope.parse kind bytes = .ok env) :
    env.bodyEnd + footerLen = bytes.length ∧ headerLen ≤ env.bodyEnd := by
  unfold Envelope.parse at h
  by_cases hShort : bytes.length < headerLen + footerLen
  · rw [if_pos hShort] at h
    cases h
  rw [if_neg hShort] at h
  simp only [bind, Except.bind] at h
  -- Without one of the reads there is no envelope.
  rcases hVersion : readU32Le bytes 8 with e | version <;>
    rcases hFlags : readU32Le bytes 12 with e' | flags <;>
    rcases hLen : readU64Le bytes (bytes.length - footerLen) with e'' | bodyLen <;>
    rcases hCrc : readU32Le bytes (bytes.length - footerLen + 8) with e''' | crc <;>
    simp only [hVersion, hFlags, hLen, hCrc] at h <;> split_ifs at h
  obtain rfl := Except.ok.inj h
  unfold headerLen footerLen at *
  constructor
  · show bytes.length - 16 + 16 = _
    omega
  · show 16 ≤ bytes.length - 16
    omega

/-- What an envelope that was parsed says of the file. -/
structure Enveloped (kind : Kind) (bytes : List UInt8) (env : Envelope) : Prop where
  parse : Envelope.parse kind bytes = .ok env
  bodyEnd : env.bodyEnd + footerLen = bytes.length
  headerLen_le : headerLen ≤ env.bodyEnd

theorem gives_parse (kind : Kind) {bytes : List UInt8} (h : bytes.length < 2 ^ 64) :
    Chk.Gives (Format.Checked.parse kind bytes) (Enveloped kind bytes) := by
  rw [Format.Checked.parse_eq kind h]
  refine Chk.gives_ofFormat fun env hParse => ?_
  obtain ⟨hEnd, hHeader⟩ := bodyEnd_of_parse hParse
  exact ⟨hParse, hEnd, hHeader⟩

theorem Enveloped.body {kind : Kind} {bytes : List UInt8} {env : Envelope}
    (h : Enveloped kind bytes env) : Chk.range bytes headerLen env.bodyEnd =
      .ok (env.body bytes) := by
  refine Chk.range_ok h.headerLen_le ?_
  have := h.bodyEnd
  omega

theorem Enveloped.length_body {kind : Kind} {bytes : List UInt8} {env : Envelope}
    (h : Enveloped kind bytes env) : (env.body bytes).length + headerLen = env.bodyEnd := by
  have hEnd := h.bodyEnd
  have hHeader := h.headerLen_le
  rw [Envelope.body, List.length_drop, List.length_take]
  omega

variable [Platform]

/-- Either there is no envelope with a valid checksum, or there is one and it is returned. -/
theorem parseVerified_cases (kind : Kind) {bytes : List UInt8} (h : bytes.length < 2 ^ 64) :
    (∃ e, parseVerified kind bytes = .error (.err e) ∧
      ∀ env, Envelope.parse kind bytes = .ok env → env.verifyCrc bytes ≠ .ok ()) ∨
    ∃ env, parseVerified kind bytes = .ok env ∧ Enveloped kind bytes env ∧
      env.verifyCrc bytes = .ok () := by
  unfold parseVerified
  rw [Format.Checked.parse_eq kind h]
  rcases hParse : Envelope.parse kind bytes with e | env
  · exact .inl ⟨e, rfl, fun env hEnv => nomatch hEnv⟩
  obtain ⟨hEnd, hHeader⟩ := bodyEnd_of_parse hParse
  have hEnv : Enveloped kind bytes env := ⟨hParse, hEnd, hHeader⟩
  simp only [Chk.ofFormat, bind, Except.bind, hEnv.body]
  by_cases hCrc : Platform.crc32 (env.body bytes) = env.crc
  · rw [if_neg (not_not_intro hCrc)]
    exact .inr ⟨env, rfl, hEnv, if_pos hCrc⟩
  · rw [if_pos hCrc]
    refine .inl ⟨.checksum, rfl, fun env' hEnv' hVerified => ?_⟩
    obtain rfl := Except.ok.inj hEnv'
    rw [Envelope.verifyCrc, if_neg hCrc] at hVerified
    cases hVerified

end Checked

theorem readU32Le_of_le {buf : List UInt8} {pos : Nat} (h : pos + 4 ≤ buf.length) :
    ∃ x, readU32Le buf pos = .ok x := by
  unfold readU32Le slice
  rw [if_pos h]
  exact ⟨_, rfl⟩

theorem readU64Le_of_le {buf : List UInt8} {pos : Nat} (h : pos + 8 ≤ buf.length) :
    ∃ x, readU64Le buf pos = .ok x := by
  unfold readU64Le slice
  rw [if_pos h]
  exact ⟨_, rfl⟩

/-- A table of records and a path heap behind them: the heap that the header of the body
describes ends below `2 ^ 64`, if it starts where the records end. -/
def HeapFits (bodyHeaderLen recordLen offAt lenAt : Nat) (body : List UInt8) : Prop :=
  bodyHeaderLen ≤ body.length → ∀ n off len, readU32Le body 0 = .ok n →
    readU64Le body offAt = .ok off → readU64Le body lenAt = .ok len →
      off = headerLen + bodyHeaderLen + n.toNat * recordLen → off + len < 2 ^ 64

theorem heapFits_iff {bodyHeaderLen recordLen offAt lenAt : Nat} {body : List UInt8}
    {n : UInt32} {off len : Nat} (hLong : bodyHeaderLen ≤ body.length)
    (hn : readU32Le body 0 = .ok n) (hOff : readU64Le body offAt = .ok off)
    (hLen : readU64Le body lenAt = .ok len) :
    HeapFits bodyHeaderLen recordLen offAt lenAt body ↔
      (off = headerLen + bodyHeaderLen + n.toNat * recordLen → off + len < 2 ^ 64) := by
  refine ⟨fun hHeap => hHeap hLong n off len hn hOff hLen, ?_⟩
  intro hSum _ n' off' len' hn' hOff' hLen'
  obtain rfl := Except.ok.inj (hn.symm.trans hn')
  obtain rfl := Except.ok.inj (hOff.symm.trans hOff')
  obtain rfl := Except.ok.inj (hLen.symm.trans hLen')
  exact hSum

-- ---------------------------------------------------------------------------
-- Documents
-- ---------------------------------------------------------------------------

namespace DocTableView

/-- The path heap that the header of a document table describes. -/
def Fits (bytes : List UInt8) : Prop :=
  ∀ env, Envelope.parse .doc bytes = .ok env →
    HeapFits bodyHeaderLen recordLen 16 24 (env.body bytes)

/-- What `parse` has checked. -/
structure Parsed (v : DocTableView) : Prop where
  length_lt : v.bytes.length < 2 ^ 64
  bodyEnd : v.env.bodyEnd + footerLen = v.bytes.length
  headerLen_le : headerLen ≤ v.env.bodyEnd
  records : headerLen + bodyHeaderLen + v.numDocs.toNat * recordLen ≤ v.env.bodyEnd

theorem recordAt_ok {i : Nat} (h : i < 2 ^ 32) :
    recordAt i = .ok (headerLen + bodyHeaderLen + i * recordLen) := by
  unfold recordAt
  rw [Chk.mul, if_pos (by unfold recordLen; omega)]
  refine Chk.add_ok ?_
  unfold headerLen bodyHeaderLen recordLen
  omega

/-- A table is parsed without panic exactly when its heap fits. -/
theorem parse_iff {bytes : List UInt8} (h : bytes.length < 2 ^ 64) {P : DocTableView → Prop}
    (hP : ∀ v, Parsed v → P v) : Chk.Gives (parse bytes) P ↔ Fits bytes := by
  unfold parse
  rw [Format.Checked.parse_eq .doc h]
  rcases hParse : Envelope.parse .doc bytes with e | env
  · exact iff_of_true Chk.gives_err fun env hEnv => nomatch hParse.symm.trans hEnv
  obtain ⟨hEnd, hHeader⟩ := Checked.bodyEnd_of_parse hParse
  have hEnv : Checked.Enveloped .doc bytes env := ⟨hParse, hEnd, hHeader⟩
  have hBody := hEnv.length_body
  have hFits : Fits bytes ↔ HeapFits bodyHeaderLen recordLen 16 24 (env.body bytes) :=
    ⟨fun hFits => hFits env hParse, fun hHeap env' hEnv' => by
      obtain rfl := Except.ok.inj (hParse.symm.trans hEnv')
      exact hHeap⟩
  rw [hFits]
  show Chk.Gives (Chk.range bytes headerLen env.bodyEnd >>= _) _ ↔ _
  rw [hEnv.body]
  -- From here on only the body matters.
  generalize env.body bytes = body at hBody
  show Chk.Gives (if _ then _ else _) _ ↔ _
  by_cases hShort : body.length < bodyHeaderLen
  · rw [if_pos hShort]
    exact iff_of_true Chk.gives_err fun hLong => absurd hShort (Nat.not_lt.mpr hLong)
  rw [if_neg hShort]
  have hLong : bodyHeaderLen ≤ body.length := Nat.not_lt.mp hShort
  replace hShort : 32 ≤ body.length := hLong
  obtain ⟨n, hn⟩ := readU32Le_of_le (show 0 + 4 ≤ body.length by omega)
  obtain ⟨numIndexed, hIndexed⟩ := readU32Le_of_le (show 4 + 4 ≤ body.length by omega)
  obtain ⟨total, hTotal⟩ := readU64Le_of_le (show 8 + 8 ≤ body.length by omega)
  obtain ⟨off, hOff⟩ := readU64Le_of_le (show 16 + 8 ≤ body.length by omega)
  obtain ⟨len, hLen⟩ := readU64Le_of_le (show 24 + 8 ≤ body.length by omega)
  rw [heapFits_iff hLong hn hOff hLen]
  simp only [hn, hIndexed, hTotal, hOff, hLen, Chk.ofFormat, bind, Except.bind,
    recordAt_ok n.toNat_lt]
  by_cases hRecords : off ≠ headerLen + bodyHeaderLen + n.toNat * recordLen
  · rw [if_pos hRecords]
    exact iff_of_true Chk.gives_corrupt fun hEq => absurd hEq hRecords
  rw [if_neg hRecords]
  rw [not_not] at hRecords
  by_cases hSum : off + len < 2 ^ 64
  · rw [Chk.add_ok hSum]
    refine iff_of_true ?_ fun _ => hSum
    show Chk.Gives (if _ then _ else _) _
    split_ifs with hTile
    · exact Chk.gives_corrupt
    · exact Chk.gives_corrupt
    rw [not_not] at hTile
    refine (Chk.safe_ofFormat _).bind fun _ _ => ?_
    refine hP _ ⟨h, hEnd, hHeader, ?_⟩
    show headerLen + bodyHeaderLen + n.toNat * recordLen ≤ env.bodyEnd
    omega
  · -- The sum is taken, and overflows.
    rw [Chk.add, if_neg hSum]
    exact iff_of_false (fun hPanic => hPanic rfl) fun hAll => hSum (hAll hRecords)

variable {v : DocTableView}

theorem Parsed.record (h : v.Parsed) (i : UInt32) : Chk.Safe (v.record i) := by
  unfold DocTableView.record
  split_ifs with hi
  · exact trivial
  have hLt : i.toNat < v.numDocs.toNat := UInt32.lt_iff_toNat_lt.mp (UInt32.not_le.mp hi)
  have hBound := v.numDocs.toNat_lt
  have hRecords := h.records
  have hEnd := h.bodyEnd
  rw [recordAt_ok (by omega)]
  unfold headerLen bodyHeaderLen recordLen footerLen at *
  refine (Chk.gives_u64At (by omega)).orNone trivial fun _ _ => ?_
  refine (Chk.gives_u64At (by omega)).orNone trivial fun _ _ => ?_
  refine (Chk.gives_u64At (by omega)).orNone trivial fun _ _ => ?_
  refine (Chk.gives_u32At (by omega)).orNone trivial fun _ _ => ?_
  refine (Chk.gives_u32At (by omega)).orNone trivial fun _ _ => ?_
  refine (Chk.gives_u32At (by omega)).orNone trivial fun _ _ => ?_
  refine (Chk.gives_add (P := fun p => p < v.bytes.length) (by omega) (by omega)).bind
    fun _ hAt => ?_
  refine (Chk.gives_index (P := fun _ => True) hAt fun _ => trivial).bind fun _ _ => ?_
  exact (Chk.gives_u64At (by omega)).orNone trivial fun _ _ => trivial

theorem Parsed.path (h : v.Parsed) (i : UInt32) : Chk.Safe (v.path i) := by
  refine (h.record i).bind fun r _ => ?_
  cases r with
  | none => exact trivial
  | some r => exact trivial

theorem Parsed.docLenIfIndexed (h : v.Parsed) (i : UInt32) :
    Chk.Safe (v.docLenIfIndexed i) := by
  unfold DocTableView.docLenIfIndexed
  split_ifs with hi
  · exact trivial
  have hLt : i.toNat < v.numDocs.toNat := UInt32.lt_iff_toNat_lt.mp (UInt32.not_le.mp hi)
  have hBound := v.numDocs.toNat_lt
  have hRecords := h.records
  have hEnd := h.bodyEnd
  rw [recordAt_ok (by omega)]
  unfold headerLen bodyHeaderLen recordLen footerLen at *
  refine (Chk.gives_add (P := fun p => p < v.bytes.length) (by omega) (by omega)).bind
    fun _ hAt => ?_
  refine (Chk.gives_index (P := fun _ => True) hAt fun _ => trivial).bind fun _ _ => ?_
  split_ifs
  · exact trivial
  · exact (Chk.gives_u32At (by omega)).orNone trivial fun _ _ => trivial

/-- The loop of `verify` counts at most one document a turn. -/
theorem Parsed.verifyFrom (h : v.Parsed) {fuel i indexed total : Nat}
    (hi : i + fuel ≤ v.numDocs.toNat) (hIndexed : indexed ≤ i) (hTotal : total ≤ i * 2 ^ 32) :
    Chk.Safe (v.verifyFrom fuel i indexed total) := by
  induction fuel generalizing i indexed total with
  | zero => exact trivial
  | succ fuel ih =>
    have hBound := v.numDocs.toNat_lt
    have hRecords := h.records
    have hEnd := h.bodyEnd
    have hLength := h.length_lt
    refine (h.record _).bind fun r _ => ?_
    cases r with
    | none => exact Chk.gives_corrupt
    | some r =>
      have hLen := r.len.toNat_lt
      show Chk.Gives (if _ then _ else _) _
      by_cases hStatus : 3 < r.status.toNat
      · rw [if_pos hStatus]
        exact Chk.gives_corrupt
      rw [if_neg hStatus]
      by_cases hZero : r.status.toNat ≠ 1 ∧ r.len.toNat ≠ 0
      · rw [if_pos hZero]
        exact Chk.gives_corrupt
      -- The record was read, so that its reserved bytes lie in the file.
      rw [if_neg hZero, recordAt_ok (by omega)]
      unfold footerLen at hEnd
      unfold headerLen bodyHeaderLen recordLen at hRecords ⊢
      refine (Chk.gives_add (P := fun p => p = 16 + 32 + i * 48 + 37) (by omega) rfl).bind
        fun start hStart => ?_
      refine (Chk.gives_add (P := fun p => p = 16 + 32 + i * 48 + 40) (by omega) rfl).bind
        fun stop hStop => ?_
      rw [Chk.range_ok (by omega) (by omega)]
      show Chk.Gives (if _ then _ else _) _
      by_cases hReserved : (v.bytes.take stop).drop start ≠ [0, 0, 0]
      · rw [if_pos hReserved]
        exact Chk.gives_corrupt
      rw [if_neg hReserved]
      refine (h.path _).bind fun p _ => ?_
      cases p with
      | none => exact Chk.gives_corrupt
      | some p =>
        show Chk.Gives (if _ then _ else _) _
        split_ifs
        · -- An indexed document: both counters grow.
          rw [Chk.add32, if_pos (by omega)]
          show Chk.Gives (Chk.add _ _ >>= _) _
          rw [Chk.add_ok (by omega)]
          exact ih (by omega) (by omega) (by omega)
        · have hMore : total ≤ (i + 1) * 2 ^ 32 :=
            Nat.le_trans hTotal (Nat.mul_le_mul_right _ (Nat.le_succ i))
          exact ih (by omega) (by omega) hMore

theorem Parsed.verify [Platform] (h : v.Parsed) : Chk.Safe v.verify := by
  have hEnd := h.bodyEnd
  unfold DocTableView.verify
  rw [Chk.range_ok h.headerLen_le (by omega)]
  show Chk.Gives (if _ then _ else _) _
  split_ifs
  · exact Chk.gives_err
  have hEach := @Parsed.verifyFrom v h v.numDocs.toNat 0 0 0 (by omega) (by omega) (by omega)
  refine hEach.bind fun _ _ => ?_
  show Chk.Gives (if _ then _ else _) _
  split_ifs
  · exact Chk.gives_corrupt
  · exact trivial

end DocTableView

-- ---------------------------------------------------------------------------
-- Overlays
-- ---------------------------------------------------------------------------

namespace OverlayView

/-- The path heap that the header of an overlay with a valid checksum describes. -/
def Fits [Platform] (bytes : List UInt8) : Prop :=
  ∀ env, Envelope.parse .overlay bytes = .ok env → env.verifyCrc bytes = .ok () →
    HeapFits bodyHeaderLen patchLen 8 16 (env.body bytes)

theorem recordAt_ok {i : Nat} (h : i < 2 ^ 32) :
    recordAt i = .ok (headerLen + bodyHeaderLen + i * patchLen) := by
  unfold recordAt
  rw [Chk.mul, if_pos (by unfold patchLen; omega)]
  refine Chk.add_ok ?_
  unfold headerLen bodyHeaderLen patchLen
  omega

variable (v : OverlayView)

theorem gives_patch (i : UInt32) : Chk.Safe (v.patch i) := by
  unfold OverlayView.patch
  split_ifs with hi
  · exact trivial
  have hLt := i.toNat_lt
  rw [recordAt_ok hLt]
  unfold headerLen bodyHeaderLen patchLen
  refine (Chk.gives_u32At (by omega)).orNone trivial fun _ _ => ?_
  refine (Chk.gives_u64At (by omega)).orNone trivial fun _ _ => ?_
  refine (Chk.gives_u64At (by omega)).orNone trivial fun _ _ => ?_
  refine (Chk.gives_u64At (by omega)).orNone trivial fun _ _ => ?_
  refine (Chk.gives_u32At (by omega)).orNone trivial fun _ _ => ?_
  exact (Chk.gives_u32At (by omega)).orNone trivial fun _ _ => trivial

theorem gives_checkFrom (fuel i : Nat) (prev : Option UInt32) :
    Chk.Safe (v.checkFrom fuel i prev) := by
  induction fuel generalizing i prev with
  | zero => exact trivial
  | succ fuel ih =>
    refine (v.gives_patch _).bind fun p _ => ?_
    cases p with
    | none => exact Chk.gives_corrupt
    | some p =>
      show Chk.Gives (if _ then _ else _) _
      split_ifs
      · exact Chk.gives_corrupt
      · exact Chk.gives_corrupt
      · exact ih _ _

/-- The middle of a part of the patches is one of them. -/
theorem gives_findIn (docId : UInt32) {fuel lo hi : Nat} (hHi : hi < 2 ^ 32) :
    Chk.Safe (v.findIn docId fuel lo hi) := by
  induction fuel generalizing lo hi with
  | zero => exact trivial
  | succ fuel ih =>
    rw [OverlayView.findIn]
    split_ifs with hLt
    · rw [Chk.sub_ok (Nat.le_of_lt hLt)]
      show Chk.Gives (Chk.add32 _ _ >>= _) _
      -- The middle is below `hi`, and so is within 32 bits.
      have hMid : lo + (hi - lo) / 2 < hi := by omega
      rw [Chk.add32, if_pos (by omega)]
      refine (v.gives_patch _).bind fun p _ => ?_
      cases p with
      | none => exact trivial
      | some p =>
        show Chk.Gives (if _ then _ else _) _
        by_cases hLess : p.docId < docId
        · rw [if_pos hLess, Chk.add32, if_pos (by omega)]
          exact ih hHi
        rw [if_neg hLess]
        split_ifs
        · exact ih (by omega)
        · exact trivial
    · exact trivial

theorem gives_find (docId : UInt32) : Chk.Safe (v.find docId) :=
  v.gives_findIn docId v.numPatches.toNat_lt

theorem gives_iterFrom (fuel i : Nat) : Chk.Safe (v.iterFrom fuel i) := by
  induction fuel generalizing i with
  | zero => exact trivial
  | succ fuel ih => exact (v.gives_patch _).bind fun _ _ => (ih _).bind fun _ _ => trivial

/-- An overlay is parsed without panic exactly when its heap fits. -/
theorem parseVerified_iff [Platform] {bytes : List UInt8} (h : bytes.length < 2 ^ 64) :
    Chk.Safe (parseVerified bytes) ↔ Fits bytes := by
  unfold parseVerified
  rcases Checked.parseVerified_cases .overlay h with ⟨e, hParse, hNone⟩ | ⟨env, hParse, hEnv, hCrc⟩
  · rw [hParse]
    exact iff_of_true Chk.gives_err fun env hEnv hCrc => absurd hCrc (hNone env hEnv)
  rw [hParse]
  have hBody := hEnv.length_body
  have hFits : Fits bytes ↔ HeapFits bodyHeaderLen patchLen 8 16 (env.body bytes) :=
    ⟨fun hFits => hFits env hEnv.parse hCrc, fun hHeap env' hEnv' _ => by
      obtain rfl := Except.ok.inj (hEnv.parse.symm.trans hEnv')
      exact hHeap⟩
  rw [hFits]
  show Chk.Gives (Chk.range bytes headerLen env.bodyEnd >>= _) _ ↔ _
  rw [hEnv.body]
  clear hFits hCrc
  generalize env.body bytes = body at hBody
  show Chk.Gives (if _ then _ else _) _ ↔ _
  by_cases hShort : body.length < bodyHeaderLen
  · rw [if_pos hShort]
    exact iff_of_true Chk.gives_err fun hLong => absurd hShort (Nat.not_lt.mpr hLong)
  rw [if_neg hShort]
  have hLong : bodyHeaderLen ≤ body.length := Nat.not_lt.mp hShort
  replace hShort : 24 ≤ body.length := hLong
  obtain ⟨n, hn⟩ := readU32Le_of_le (show 0 + 4 ≤ body.length by omega)
  obtain ⟨off, hOff⟩ := readU64Le_of_le (show 8 + 8 ≤ body.length by omega)
  obtain ⟨len, hLen⟩ := readU64Le_of_le (show 16 + 8 ≤ body.length by omega)
  rw [heapFits_iff hLong hn hOff hLen]
  simp only [hn, hOff, hLen, Chk.ofFormat, bind, Except.bind, recordAt_ok n.toNat_lt]
  by_cases hRecords : off ≠ headerLen + bodyHeaderLen + n.toNat * patchLen
  · rw [if_pos hRecords]
    exact iff_of_true Chk.gives_corrupt fun hEq => absurd hEq hRecords
  rw [if_neg hRecords]
  rw [not_not] at hRecords
  by_cases hSum : off + len < 2 ^ 64
  · rw [Chk.add_ok hSum]
    refine iff_of_true ?_ fun _ => hSum
    show Chk.Gives (if _ then _ else _) _
    by_cases hTile : off + len ≠ env.bodyEnd
    · rw [if_pos hTile]
      exact Chk.gives_corrupt
    rw [if_neg hTile]
    rw [not_not] at hTile
    refine (Chk.safe_ofFormat _).bind
      fun paths _ => ?_
    exact (gives_checkFrom ⟨bytes, env, n, paths⟩ _ _ _).bind fun _ _ => trivial
  · rw [Chk.add, if_neg hSum]
    exact iff_of_false (fun hPanic => hPanic rfl) fun hAll => hSum (hAll hRecords)

end OverlayView

-- ---------------------------------------------------------------------------
-- Deletions
-- ---------------------------------------------------------------------------

namespace DelView

variable [Platform]

/-- The bits of a bitmap with a valid checksum and the right length are fewer than `2 ^ 32`. -/
def Fits (bytes : List UInt8) : Prop :=
  ∀ env, Envelope.parse .del bytes = .ok env → env.verifyCrc bytes = .ok () →
    bodyHeaderLen ≤ (env.body bytes).length → ∀ n, readU32Le (env.body bytes) 0 = .ok n →
      ((env.body bytes).drop bodyHeaderLen).length = (n.toNat + 7) / 8 →
        (((env.body bytes).drop bodyHeaderLen).map countOnes).sum < 2 ^ 32

omit [Platform] in
theorem popcount_eq (n : Nat) (bits : List UInt8) (hn : n < 2 ^ 32) :
    popcount n bits = if n + (bits.map countOnes).sum < 2 ^ 32
      then .ok (n + (bits.map countOnes).sum) else .error .panic := by
  induction bits generalizing n with
  | nil => exact (if_pos hn).symm
  | cons b bits ih =>
    rw [popcount, List.map_cons, List.sum_cons, Chk.add32, ← Nat.add_assoc]
    by_cases hAdd : n + countOnes b < 2 ^ 32
    · rw [if_pos hAdd]
      exact ih _ hAdd
    · rw [if_neg hAdd, if_neg (by omega)]
      rfl

/-- A bitmap is parsed without panic exactly when its bits can be counted. -/
theorem parseVerified_iff {bytes : List UInt8} (h : bytes.length < 2 ^ 64) :
    Chk.Safe (parseVerified bytes) ↔ Fits bytes := by
  unfold parseVerified
  rcases Checked.parseVerified_cases .del h with ⟨e, hParse, hNone⟩ | ⟨env, hParse, hEnv, hCrc⟩
  · rw [hParse]
    exact iff_of_true Chk.gives_err fun env hEnv hCrc => absurd hCrc (hNone env hEnv)
  rw [hParse]
  show Chk.Gives (Chk.range bytes headerLen env.bodyEnd >>= _) _ ↔ _
  rw [hEnv.body]
  show Chk.Gives (if _ then _ else _) _ ↔ _
  by_cases hShort : (env.body bytes).length < bodyHeaderLen
  · rw [if_pos hShort]
    refine iff_of_true Chk.gives_err fun env' hEnv' _ hLong => ?_
    obtain rfl := Except.ok.inj (hEnv.parse.symm.trans hEnv')
    omega
  rw [if_neg hShort]
  have hLong : 8 ≤ (env.body bytes).length := Nat.not_lt.mp hShort
  obtain ⟨n, hn⟩ := readU32Le_of_le (show 0 + 4 ≤ (env.body bytes).length by omega)
  obtain ⟨count, hCount⟩ := readU32Le_of_le (show 4 + 4 ≤ (env.body bytes).length by omega)
  simp only [hn, hCount, Chk.ofFormat, bind, Except.bind,
    Chk.range_ok (Nat.not_lt.mp hShort) (Nat.le_refl _), List.take_length]
  have hFits : Fits bytes ↔ (((env.body bytes).drop bodyHeaderLen).length = (n.toNat + 7) / 8 →
      (((env.body bytes).drop bodyHeaderLen).map countOnes).sum < 2 ^ 32) := by
    refine ⟨fun hFits => hFits env hEnv.parse hCrc hLong n hn, ?_⟩
    intro hSum env' hEnv' _ _ n' hn'
    obtain rfl := Except.ok.inj (hEnv.parse.symm.trans hEnv')
    obtain rfl := Except.ok.inj (hn.symm.trans hn')
    exact hSum
  rw [hFits]
  by_cases hLen : ((env.body bytes).drop bodyHeaderLen).length ≠ (n.toNat + 7) / 8
  · rw [if_pos hLen]
    exact iff_of_true Chk.gives_corrupt fun hEq => absurd hEq hLen
  rw [if_neg hLen, popcount_eq _ _ (by decide), Nat.zero_add]
  rw [not_not] at hLen
  -- Whether the loop over the bytes panics is a matter of the final sum alone.
  by_cases hSum : (((env.body bytes).drop bodyHeaderLen).map countOnes).sum < 2 ^ 32
  · rw [if_pos hSum]
    refine iff_of_true ?_ fun _ => hSum
    show Chk.Gives (if _ then _ else _) _
    split_ifs
    · exact Chk.gives_corrupt
    · exact Chk.gives_corrupt
    · exact trivial
  · rw [if_neg hSum]
    exact iff_of_false (fun hPanic => hPanic rfl) fun hAll => hSum (hAll hLen)

end DelView

-- ---------------------------------------------------------------------------
-- The manifest
-- ---------------------------------------------------------------------------

namespace ManifestBytes

theorem gives_decodeEntry (b : List UInt8) {at' : Nat} (h : at' + 72 < 2 ^ 64) :
    Chk.Safe (decodeEntry b at') := by
  unfold decodeEntry
  refine (Chk.gives_u32At (by omega)).bind fun _ _ => ?_
  refine (Chk.gives_u32At (by omega)).bind fun _ _ => ?_
  refine (Chk.gives_u32At (by omega)).bind fun _ _ => ?_
  refine (Chk.gives_u32At (by omega)).bind fun _ _ => ?_
  refine (Chk.gives_u32At (by omega)).bind fun _ _ => ?_
  refine (Chk.gives_u32At (by omega)).bind fun _ _ => ?_
  refine (Chk.gives_u32At (by omega)).bind fun _ _ => ?_
  refine (Chk.gives_u32At (by omega)).bind fun _ _ => ?_
  refine (Chk.gives_u64At (by omega)).bind fun _ _ => ?_
  refine (Chk.gives_u64At (by omega)).bind fun _ _ => ?_
  refine (Chk.gives_u64At (by omega)).bind fun _ _ => ?_
  refine (Chk.gives_u64At (by omega)).bind fun _ _ => ?_
  refine (Chk.gives_u64At (by omega)).bind fun _ _ => ?_
  exact (Chk.gives_u64At (by omega)).bind fun _ _ => trivial

theorem gives_endDoc (e : SegmentEntry) : Chk.Safe (endDoc e) := by
  have hBase := e.baseDoc.toNat_lt
  have hDocs := e.numDocs.toNat_lt
  exact Chk.gives_add (by omega) trivial

theorem gives_checkBehind (prev : Option SegmentEntry) (e : SegmentEntry) :
    Chk.Safe (checkBehind prev e) := by
  cases prev with
  | none => exact trivial
  | some p =>
    refine (gives_endDoc p).bind fun _ _ => ?_
    split_ifs
    · exact Chk.gives_corrupt
    · exact Chk.gives_corrupt
    · exact trivial

theorem gives_checkEntry (next : UInt32) (prev : Option SegmentEntry) (e : SegmentEntry) :
    Chk.Safe (checkEntry next prev e) := by
  unfold checkEntry
  by_cases hId : next ≤ e.segmentId
  · rw [if_pos hId]
    exact Chk.gives_corrupt
  rw [if_neg hId]
  refine (gives_checkBehind prev e).bind fun _ _ => (gives_endDoc e).bind fun stop _ => ?_
  by_cases hStop : 2 ^ 32 < stop
  · rw [if_pos hStop]
    exact Chk.gives_corrupt
  rw [if_neg hStop]
  by_cases hDel : (e.delGen = 0) ≠ (e.delLen = 0)
  · rw [if_pos hDel]
    exact Chk.gives_corrupt
  rw [if_neg hDel]
  split_ifs
  · exact Chk.gives_corrupt
  · exact trivial

theorem gives_decodeEntries (b : List UInt8) (next : UInt32) {fuel i : Nat}
    (prev : Option SegmentEntry) (h : i + fuel < 2 ^ 33) :
    Chk.Safe (decodeEntries b next fuel i prev) := by
  induction fuel generalizing i prev with
  | zero => exact trivial
  | succ fuel ih =>
    rw [decodeEntries, Chk.mul, if_pos (by unfold entryLen; omega)]
    show Chk.Gives (Chk.add _ _ >>= _) _
    rw [Chk.add_ok (by unfold entryLen bodyHeaderLen; omega)]
    refine (gives_decodeEntry b (by unfold entryLen bodyHeaderLen; omega)).bind fun e _ => ?_
    refine (gives_checkEntry next prev e).bind fun _ _ => ?_
    exact (ih (some e) (by omega)).bind fun _ _ => trivial

/-- A manifest is always decoded without panic. -/
theorem gives_decode [Platform] {bytes : List UInt8} (h : bytes.length < 2 ^ 64) :
    Chk.Safe (decode bytes) := by
  unfold decode
  rcases Checked.parseVerified_cases .manifest h with ⟨e, hParse, -⟩ | ⟨env, hParse, hEnv, -⟩
  · rw [hParse]
    exact Chk.gives_err
  rw [hParse]
  show Chk.Gives (Chk.range bytes headerLen env.bodyEnd >>= _) _
  rw [hEnv.body]
  show Chk.Gives (if _ then _ else _) _
  by_cases hShort : (env.body bytes).length < bodyHeaderLen
  · rw [if_pos hShort]
    exact Chk.gives_err
  rw [if_neg hShort]
  refine (Chk.safe_ofFormat _).bind fun generation _ => ?_
  refine (Chk.safe_ofFormat _).bind fun next _ => ?_
  refine (Chk.safe_ofFormat _).bind fun numSegments _ => ?_
  refine (Chk.safe_ofFormat _).bind fun committed _ => ?_
  refine (Chk.safe_ofFormat _).bind fun stateGen _ => ?_
  refine (Chk.safe_ofFormat _).bind fun stateCrc _ => ?_
  refine (Chk.safe_ofFormat _).bind fun stateLen _ => ?_
  refine (Chk.safe_ofFormat _).bind fun reserved _ => ?_
  by_cases hReserved : reserved ≠ 0
  · rw [if_pos hReserved]
    exact Chk.gives_corrupt
  rw [if_neg hReserved]
  by_cases hState : (stateGen = 0) ≠ (stateLen = 0)
  · rw [if_pos hState]
    exact Chk.gives_corrupt
  rw [if_neg hState]
  have hCount := numSegments.toNat_lt
  rw [Chk.mul, if_pos (by unfold entryLen; omega)]
  show Chk.Gives (Chk.add _ _ >>= _) _
  rw [Chk.add_ok (by unfold entryLen bodyHeaderLen; omega)]
  show Chk.Gives (if _ then _ else _) _
  split_ifs
  · exact Chk.gives_corrupt
  · exact (gives_decodeEntries _ _ none (by omega)).bind fun _ _ => trivial

end ManifestBytes

end Ripindex
