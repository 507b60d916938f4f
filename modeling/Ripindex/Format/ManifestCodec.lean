import Ripindex.Format.Fields
import Ripindex.Store.Names

/-!
# The manifest codec

`Manifest::encode` and `Manifest::decode` as inverses of each other, and what an accepted
manifest is.

## Results

* `manifest_bijection` — manifests and accepted files correspond;
* `manifest_sound` — what `decode` says of all pairs of segments.
-/

namespace Ripindex

open Format

-- ---------------------------------------------------------------------------
-- What decode checks of a manifest
-- ---------------------------------------------------------------------------

/-- The lengths and counts are `u64`. -/
structure SegmentEntry.Typed (e : SegmentEntry) : Prop where
  idxLen : e.idxLen < 2 ^ 64
  docLen : e.docLen < 2 ^ 64
  delLen : e.delLen < 2 ^ 64
  numTokens : e.numTokens < 2 ^ 64
  numPostings : e.numPostings < 2 ^ 64
  numTerms : e.numTerms < 2 ^ 64

instance (e : SegmentEntry) : Decidable e.Typed :=
  decidable_of_iff (e.idxLen < 2 ^ 64 ∧ e.docLen < 2 ^ 64 ∧ e.delLen < 2 ^ 64 ∧
      e.numTokens < 2 ^ 64 ∧ e.numPostings < 2 ^ 64 ∧ e.numTerms < 2 ^ 64)
    ⟨fun ⟨a, b, c, d, f, g⟩ => ⟨a, b, c, d, f, g⟩, fun ⟨a, b, c, d, f, g⟩ => ⟨a, b, c, d, f, g⟩⟩

namespace Manifest

structure Typed (m : Manifest) : Prop where
  stateLen : m.stateLen < 2 ^ 64
  segments : ∀ e ∈ m.segments, e.Typed

/-- The structural conditions, for any number of segments. -/
structure Structural (m : Manifest) : Prop where
  state_iff : m.stateGen = 0 ↔ m.stateLen = 0
  entries : ∀ e ∈ m.segments, EntryOk m.nextSegmentId e
  chain : m.segments.IsChain Follows

instance (m : Manifest) : Decidable m.Typed :=
  decidable_of_iff (m.stateLen < 2 ^ 64 ∧ ∀ e ∈ m.segments, e.Typed)
    ⟨fun ⟨a, b⟩ => ⟨a, b⟩, fun ⟨a, b⟩ => ⟨a, b⟩⟩

instance (next : UInt32) (e : SegmentEntry) : Decidable (EntryOk next e) :=
  decidable_of_iff (e.segmentId < next ∧ e.endDoc ≤ 2 ^ 32 ∧ (e.delGen = 0 ↔ e.delLen = 0) ∧
      e.numDeleted ≤ e.numDocs)
    ⟨fun ⟨a, b, c, d⟩ => ⟨a, b, c, d⟩, fun ⟨a, b, c, d⟩ => ⟨a, b, c, d⟩⟩

instance (p e : SegmentEntry) : Decidable (Follows p e) :=
  decidable_of_iff (p.endDoc ≤ e.baseDoc.toNat ∧ e.segmentId ≠ p.segmentId)
    ⟨fun ⟨a, b⟩ => ⟨a, b⟩, fun ⟨a, b⟩ => ⟨a, b⟩⟩

instance (m : Manifest) : Decidable m.Structural :=
  decidable_of_iff ((m.stateGen = 0 ↔ m.stateLen = 0) ∧
      (∀ e ∈ m.segments, EntryOk m.nextSegmentId e) ∧ m.segments.IsChain Follows)
    ⟨fun ⟨a, b, c⟩ => ⟨a, b, c⟩, fun ⟨a, b, c⟩ => ⟨a, b, c⟩⟩

/-- The complete file. -/
def encode [Platform] (m : Manifest) : List UInt8 := sealBody .manifest formatVersion m.body

end Manifest

-- ---------------------------------------------------------------------------
-- Entries
-- ---------------------------------------------------------------------------

namespace ManifestBytes

/-- The fields of an entry one after the other. -/
theorem entryBytes_eq (e : SegmentEntry) : Manifest.entryBytes e =
    leBytes 4 e.segmentId.toNat ++ (leBytes 4 e.delGen.toNat ++ (leBytes 4 e.baseDoc.toNat ++
    (leBytes 4 e.numDocs.toNat ++ (leBytes 4 e.numDeleted.toNat ++ (leBytes 4 e.idxCrc.toNat ++
    (leBytes 4 e.docCrc.toNat ++ (leBytes 4 e.delCrc.toNat ++ (leBytes 8 e.idxLen ++
    (leBytes 8 e.docLen ++ (leBytes 8 e.delLen ++ (leBytes 8 e.numTokens ++
    (leBytes 8 e.numPostings ++ leBytes 8 e.numTerms)))))))))))) := by
  simp only [Manifest.entryBytes, List.flatMap_cons, List.flatMap_nil, List.append_nil,
    List.append_assoc, u32Bytes]

theorem length_entryBytes (e : SegmentEntry) : (Manifest.entryBytes e).length = entryLen := by
  rw [entryBytes_eq]
  simp only [List.length_append, length_leBytes]
  rfl

/-- An entry is decoded where it stands. -/
theorem decodeEntry_at {b : List UInt8} {at' : Nat} {e : SegmentEntry}
    (h : At b at' (Manifest.entryBytes e)) (hLe : at' + entryLen ≤ b.length)
    (hb : b.length < 2 ^ 64) (hTyped : e.Typed) : decodeEntry b at' = .ok e := by
  rw [entryBytes_eq] at h
  unfold entryLen at hLe
  have h4 := h.behind
  have h8 := h4.behind
  have h12 := h8.behind
  have h16 := h12.behind
  have h20 := h16.behind
  have h24 := h20.behind
  have h28 := h24.behind
  have h32 := h28.behind
  have h40 := h32.behind
  have h48 := h40.behind
  have h56 := h48.behind
  have h64 := h56.behind
  have h72 := h64.behind
  unfold decodeEntry
  rw [Chk.u32At_at (k := 0) h.left (by omega) hb e.segmentId.toNat_lt,
    Chk.u32At_at (k := 4) h4.left (by omega) hb e.delGen.toNat_lt,
    Chk.u32At_at (k := 8) h8.left (by omega) hb e.baseDoc.toNat_lt,
    Chk.u32At_at (k := 12) h12.left (by omega) hb e.numDocs.toNat_lt,
    Chk.u32At_at (k := 16) h16.left (by omega) hb e.numDeleted.toNat_lt,
    Chk.u32At_at (k := 20) h20.left (by omega) hb e.idxCrc.toNat_lt,
    Chk.u32At_at (k := 24) h24.left (by omega) hb e.docCrc.toNat_lt,
    Chk.u32At_at (k := 28) h28.left (by omega) hb e.delCrc.toNat_lt,
    Chk.u64At_at (k := 32) h32.left (by omega) hb hTyped.idxLen,
    Chk.u64At_at (k := 40) h40.left (by omega) hb hTyped.docLen,
    Chk.u64At_at (k := 48) h48.left (by omega) hb hTyped.delLen,
    Chk.u64At_at (k := 56) h56.left (by omega) hb hTyped.numTokens,
    Chk.u64At_at (k := 64) h64.left (by omega) hb hTyped.numPostings,
    Chk.u64At_at (k := 72) h72 (by omega) hb hTyped.numTerms]
  simp only [UInt32.ofNat_toNat, bind, Except.bind]

/-- What is decoded as an entry stands there. -/
theorem at_of_decodeEntry {b : List UInt8} {at' : Nat} {e : SegmentEntry}
    (h : decodeEntry b at' = .ok e) : At b at' (Manifest.entryBytes e) ∧ e.Typed := by
  obtain ⟨_, h0, h⟩ := Chk.bind_ok h
  obtain ⟨_, h4, h⟩ := Chk.bind_ok h
  obtain ⟨_, h8, h⟩ := Chk.bind_ok h
  obtain ⟨_, h12, h⟩ := Chk.bind_ok h
  obtain ⟨_, h16, h⟩ := Chk.bind_ok h
  obtain ⟨_, h20, h⟩ := Chk.bind_ok h
  obtain ⟨_, h24, h⟩ := Chk.bind_ok h
  obtain ⟨_, h28, h⟩ := Chk.bind_ok h
  obtain ⟨_, h32, h⟩ := Chk.bind_ok h
  obtain ⟨_, h40, h⟩ := Chk.bind_ok h
  obtain ⟨_, h48, h⟩ := Chk.bind_ok h
  obtain ⟨_, h56, h⟩ := Chk.bind_ok h
  obtain ⟨_, h64, h⟩ := Chk.bind_ok h
  obtain ⟨_, h72, h⟩ := Chk.bind_ok h
  obtain rfl := Except.ok.inj h
  obtain ⟨a32, -, l32⟩ := Chk.of_u64At h32
  obtain ⟨a40, -, l40⟩ := Chk.of_u64At h40
  obtain ⟨a48, -, l48⟩ := Chk.of_u64At h48
  obtain ⟨a56, -, l56⟩ := Chk.of_u64At h56
  obtain ⟨a64, -, l64⟩ := Chk.of_u64At h64
  obtain ⟨a72, -, l72⟩ := Chk.of_u64At h72
  refine ⟨?_, l32, l40, l48, l56, l64, l72⟩
  rw [entryBytes_eq]
  exact (Chk.of_u32At h0).1.field <| (Chk.of_u32At h4).1.field <| (Chk.of_u32At h8).1.field <|
    (Chk.of_u32At h12).1.field <| (Chk.of_u32At h16).1.field <|
    (Chk.of_u32At h20).1.field <| (Chk.of_u32At h24).1.field <|
    (Chk.of_u32At h28).1.field <| a32.field <| a40.field <| a48.field <| a56.field <|
    a64.field a72

theorem endDoc_ok (e : SegmentEntry) : endDoc e = .ok e.endDoc := by
  have hBase := e.baseDoc.toNat_lt
  have hDocs := e.numDocs.toNat_lt
  exact Chk.add_ok (by omega)

/-- The checks of one entry. -/
theorem checkEntry_ok_iff {next : UInt32} {prev : Option SegmentEntry} {e : SegmentEntry} :
    checkEntry next prev e = .ok () ↔
      Manifest.EntryOk next e ∧ ∀ p ∈ prev, Manifest.Follows p e := by
  have hSame : checkEntry next prev e =
      Chk.ofFormat (Manifest.checkEntries next prev [e]) := by
    unfold checkEntry Manifest.checkEntries
    by_cases hId : next ≤ e.segmentId
    · rw [if_pos hId, if_pos hId]
      rfl
    rw [if_neg hId, if_neg hId]
    have hRest : (do
        let stop ← endDoc e
        if 2 ^ 32 < stop then Chk.corrupt "segment exceeds the u32 doc id space"
        else if (e.delGen = 0) ≠ (e.delLen = 0) then
          Chk.corrupt "del_gen and del_len disagree"
        else if e.numDocs < e.numDeleted then Chk.corrupt "num_deleted exceeds num_docs"
        else (.ok () : Chk Unit)) =
        Chk.ofFormat (if 2 ^ 32 < e.endDoc then
            .error (.corrupt "segment exceeds the u32 doc id space")
          else if (e.delGen = 0) ≠ (e.delLen = 0) then
            .error (.corrupt "del_gen and del_len disagree")
          else if e.numDocs < e.numDeleted then .error (.corrupt "num_deleted exceeds num_docs")
          else Manifest.checkEntries next (some e) []) := by
      rw [endDoc_ok]
      simp only [bind, Except.bind]
      split_ifs <;> rfl
    cases prev with
    | none => exact hRest
    | some p =>
      simp only [checkBehind, endDoc_ok p, bind, Except.bind, Option.any_some,
        decide_eq_true_eq]
      by_cases hBase : e.baseDoc.toNat < p.endDoc
      · rw [if_pos hBase, if_pos hBase]
        rfl
      rw [if_neg hBase, if_neg hBase]
      by_cases hSameId : e.segmentId = p.segmentId
      · rw [if_pos hSameId, if_pos hSameId]
        rfl
      rw [if_neg hSameId, if_neg hSameId]
      exact hRest
  have hOk : checkEntry next prev e = .ok () ↔ Manifest.checkEntries next prev [e] = .ok () := by
    rw [hSame]
    constructor
    · exact Chk.ofFormat_ok
    · intro h
      rw [h]
      rfl
  rw [hOk, Manifest.checkEntries_ok_iff]
  cases prev with
  | none => simp
  | some p => simp

-- ---------------------------------------------------------------------------
-- The list of entries
-- ---------------------------------------------------------------------------

theorem length_entries (es : List SegmentEntry) :
    (es.flatMap Manifest.entryBytes).length = es.length * entryLen := by
  induction es with
  | nil => exact (Nat.zero_mul _).symm
  | cons e es ih =>
    rw [List.flatMap_cons, List.length_append, length_entryBytes, ih, List.length_cons,
      Nat.succ_mul, Nat.add_comm]

/-- The address of entry `i`. -/
theorem entryAt_ok {b : List UInt8} {i : Nat} (hLe : bodyHeaderLen + i * entryLen ≤ b.length)
    (hb : b.length < 2 ^ 64) :
    (do
      let size ← Chk.mul i entryLen
      Chk.add bodyHeaderLen size) = .ok (bodyHeaderLen + i * entryLen) := by
  rw [Chk.mul, if_pos (by omega)]
  exact Chk.add_ok (by omega)

/-- Entries that stand one after the other are decoded, and checked one by one. -/
theorem decodeEntries_at {b : List UInt8} {next : UInt32} {es : List SegmentEntry} {i : Nat}
    {prev : Option SegmentEntry}
    (h : At b (bodyHeaderLen + i * entryLen) (es.flatMap Manifest.entryBytes))
    (hLe : bodyHeaderLen + (i + es.length) * entryLen ≤ b.length) (hb : b.length < 2 ^ 64)
    (hTyped : ∀ e ∈ es, e.Typed) (hOk : ∀ e ∈ es, Manifest.EntryOk next e)
    (hChain : (prev.toList ++ es).IsChain Manifest.Follows) :
    decodeEntries b next es.length i prev = .ok es := by
  induction es generalizing i prev with
  | nil => rfl
  | cons e es ih =>
    rw [List.length_cons] at hLe ⊢
    rw [List.flatMap_cons] at h
    have hSucc : bodyHeaderLen + (i + 1) * entryLen = bodyHeaderLen + i * entryLen + entryLen := by
      rw [Nat.succ_mul, Nat.add_assoc]
    have hMore : bodyHeaderLen + (i + 1) * entryLen ≤ b.length := by
      refine Nat.le_trans (Nat.add_le_add_left (Nat.mul_le_mul_right _ ?_) _) hLe
      omega
    have hEntry := decodeEntry_at h.left (by omega) hb (hTyped e List.mem_cons_self)
    have hCheck : checkEntry next prev e = .ok () := by
      refine checkEntry_ok_iff.mpr ⟨hOk e List.mem_cons_self, fun p hp => ?_⟩
      obtain rfl : prev = some p := hp
      exact (List.isChain_cons_cons.mp hChain).1
    have hRest : decodeEntries b next es.length (i + 1) (some e) = .ok es := by
      refine ih ?_ ?_ (fun f hf => hTyped f (List.mem_cons_of_mem _ hf))
        (fun f hf => hOk f (List.mem_cons_of_mem _ hf)) ?_
      · rw [hSucc, ← length_entryBytes e]
        exact h.right
      · rw [Nat.add_assoc, Nat.add_comm 1]
        exact hLe
      · cases prev with
        | none => exact hChain
        | some p => exact (List.isChain_cons_cons.mp hChain).2
    have hAddress := entryAt_ok (i := i) (by omega) hb
    obtain ⟨size, hSize, hAdd⟩ := Chk.bind_ok hAddress
    rw [decodeEntries]
    simp only [hSize, hAdd, hEntry, hCheck, hRest, bind, Except.bind]

/-- What is decoded as entries stands there and has been checked. -/
theorem at_of_decodeEntries {b : List UInt8} {next : UInt32} {n i : Nat}
    {prev : Option SegmentEntry} {es : List SegmentEntry}
    (h : decodeEntries b next n i prev = .ok es) :
    es.length = n ∧ At b (bodyHeaderLen + i * entryLen) (es.flatMap Manifest.entryBytes) ∧
      (∀ e ∈ es, e.Typed ∧ Manifest.EntryOk next e) ∧
      (prev.toList ++ es).IsChain Manifest.Follows := by
  induction n generalizing i prev es with
  | zero =>
    obtain rfl : [] = es := Except.ok.inj h
    refine ⟨rfl, At.nil _ _, List.forall_mem_nil _, ?_⟩
    cases prev with
    | none => exact List.IsChain.nil
    | some p => exact List.IsChain.singleton p
  | succ n ih =>
    obtain ⟨size, hSize, h⟩ := Chk.bind_ok h
    obtain ⟨at', hAt, h⟩ := Chk.bind_ok h
    obtain ⟨e, hEntry, h⟩ := Chk.bind_ok h
    obtain ⟨⟨⟩, hCheck, h⟩ := Chk.bind_ok h
    obtain ⟨rest, hRest, h⟩ := Chk.bind_ok h
    obtain rfl := Except.ok.inj h
    obtain rfl : size = i * entryLen := by
      unfold Chk.mul at hSize
      split_ifs at hSize
      exact (Except.ok.inj hSize).symm
    obtain rfl := Chk.add_eq_ok hAt
    obtain ⟨hStands, hTyped⟩ := at_of_decodeEntry hEntry
    obtain ⟨hOk, hFollows⟩ := checkEntry_ok_iff.mp hCheck
    obtain ⟨hLen, hAtRest, hAll, hChain⟩ := ih hRest
    refine ⟨by rw [List.length_cons, hLen], ?_, List.forall_mem_cons.mpr ⟨⟨hTyped, hOk⟩, hAll⟩,
      ?_⟩
    · rw [List.flatMap_cons]
      refine hStands.cat ?_
      rw [length_entryBytes, Nat.add_assoc, ← Nat.succ_mul]
      exact hAtRest
    · cases prev with
      | none => exact hChain
      | some p => exact List.isChain_cons_cons.mpr ⟨hFollows p rfl, hChain⟩

-- ---------------------------------------------------------------------------
-- The file
-- ---------------------------------------------------------------------------

/-- The header of the body, and the entries behind it. -/
theorem body_eq (m : Manifest) : m.body =
    leBytes 8 m.generation.toNat ++ (leBytes 4 m.nextSegmentId.toNat ++
    (leBytes 4 m.segments.length ++ (leBytes 8 m.committedUnixNanos.toUInt64.toNat ++
    (leBytes 4 m.stateGen.toNat ++ (leBytes 4 m.stateCrc.toNat ++ (leBytes 8 m.stateLen ++
    (leBytes 8 0 ++ m.segments.flatMap Manifest.entryBytes))))))) := by
  simp only [Manifest.body, u64Bytes, u32Bytes, i64Bytes, List.append_assoc]
  rfl

theorem length_body (m : Manifest) :
    m.body.length = bodyHeaderLen + m.segments.length * entryLen := by
  rw [body_eq]
  simp only [List.length_append, length_leBytes, length_entries]
  unfold bodyHeaderLen
  omega

variable [Platform]

/-- With a count of 32 bits, an encoded manifest is decoded. -/
theorem decode_encode {m : Manifest} (hTyped : m.Typed) (hOk : m.Structural)
    (hLen : m.segments.length < 2 ^ 32) : decode m.encode = .ok m := by
  have hBodyLen := length_body m
  have hBytes : (sealBody .manifest formatVersion m.body).length < 2 ^ 64 := by
    rw [length_sealBody, hBodyLen]
    unfold headerLen footerLen bodyHeaderLen entryLen
    omega
  have hb : m.body.length < 2 ^ 64 := by
    rw [length_sealBody] at hBytes
    omega
  obtain ⟨hOpen, hRange⟩ := parseVerified_sealBody .manifest hBytes
  have h0 := At.of_eq (body_eq m)
  have h8 := h0.behind
  have h12 := h8.behind
  have h16 := h12.behind
  have h24 := h16.behind
  have h28 := h24.behind
  have h32 := h28.behind
  have h40 := h32.behind
  have h48 : At m.body (bodyHeaderLen + 0 * entryLen)
      (m.segments.flatMap Manifest.entryBytes) := h40.behind
  have hShort : ¬ m.body.length < bodyHeaderLen := by omega
  have hLong : 48 ≤ m.body.length := Nat.not_lt.mp hShort
  have hEntries : decodeEntries m.body m.nextSegmentId m.segments.length 0 none =
      .ok m.segments := by
    refine decodeEntries_at h48 ?_ hb hTyped.segments hOk.entries hOk.chain
    rw [Nat.zero_add]
    exact Nat.le_of_eq hBodyLen.symm
  have hCount : (UInt32.ofNat m.segments.length).toNat = m.segments.length :=
    UInt32.toNat_ofNat_of_lt' hLen
  have hState : ¬ ((m.stateGen = 0) ≠ (m.stateLen = 0)) :=
    not_not_intro (propext hOk.state_iff)
  -- The header field by field.
  have r0 := readU64Le_at h0.left (by omega) m.generation.toNat_lt
  have r8 := readU32Le_at h8.left (by omega) m.nextSegmentId.toNat_lt
  have r12 := readU32Le_at h12.left (by omega) hLen
  have r16 := readU64Le_at h16.left (by omega) m.committedUnixNanos.toUInt64.toNat_lt
  have r24 := readU32Le_at h24.left (by omega) m.stateGen.toNat_lt
  have r28 := readU32Le_at h28.left (by omega) m.stateCrc.toNat_lt
  have r32 := readU64Le_at h32.left (by omega) hTyped.stateLen
  have r40 : readU64Le m.body 40 = .ok 0 := readU64Le_at h40.left (by omega) (by decide)
  have hMul : Chk.mul entryLen m.segments.length = .ok (entryLen * m.segments.length) :=
    if_pos (by unfold entryLen; omega)
  have hAdd : Chk.add bodyHeaderLen (entryLen * m.segments.length) = .ok m.body.length := by
    rw [hBodyLen, Nat.mul_comm]
    exact Chk.add_ok (by unfold bodyHeaderLen entryLen; omega)
  unfold decode Manifest.encode
  rw [hOpen, Chk.ok_bind, hRange, Chk.ok_bind, if_neg hShort]
  simp only [Nat.zero_add, Nat.reduceAdd] at r8 r12 r16 r24 r28 r32
  simp only [r0, r8, r12, r16, r24, r28, r32, r40, Chk.ofFormat, Chk.ok_bind,
    UInt32.ofNat_toNat, hCount, hMul, hAdd, hEntries, if_neg hState]
  rw [if_neg (by decide), if_neg (not_not_intro rfl), UInt64.ofNat_toNat, UInt64.ofNat_toNat,
    Int64.toInt64_toUInt64]

/-- What is decoded is the manifest that the file encodes, and has been checked. -/
theorem encode_of_decode {bytes : List UInt8} {m : Manifest} (h : decode bytes = .ok m) :
    m.encode = bytes ∧ m.Typed ∧ m.Ok := by
  obtain ⟨env, hOpen, h⟩ := Chk.bind_ok h
  obtain ⟨hBytes, hRange⟩ := eq_sealBody_of_parseVerified hOpen
  obtain ⟨b, hBody, h⟩ := Chk.bind_ok h
  obtain rfl := Except.ok.inj (hRange.symm.trans hBody)
  by_cases hShort : (env.body bytes).length < bodyHeaderLen
  · rw [if_pos hShort] at h
    cases h
  rw [if_neg hShort] at h
  obtain ⟨generation, r0, h⟩ := Chk.bind_ok h
  obtain ⟨next, r8, h⟩ := Chk.bind_ok h
  obtain ⟨numSegments, r12, h⟩ := Chk.bind_ok h
  obtain ⟨committed, r16, h⟩ := Chk.bind_ok h
  obtain ⟨stateGen, r24, h⟩ := Chk.bind_ok h
  obtain ⟨stateCrc, r28, h⟩ := Chk.bind_ok h
  obtain ⟨stateLen, r32, h⟩ := Chk.bind_ok h
  obtain ⟨reserved, r40, h⟩ := Chk.bind_ok h
  by_cases hReserved : reserved ≠ 0
  · rw [if_pos hReserved] at h
    cases h
  rw [if_neg hReserved] at h
  by_cases hState : (stateGen = 0) ≠ (stateLen = 0)
  · rw [if_pos hState] at h
    cases h
  rw [if_neg hState] at h
  obtain ⟨size, hSize, h⟩ := Chk.bind_ok h
  obtain ⟨expected, hExpected, h⟩ := Chk.bind_ok h
  by_cases hLen : (env.body bytes).length ≠ expected
  · rw [if_pos hLen] at h
    cases h
  rw [if_neg hLen] at h
  obtain ⟨es, hEntries, h⟩ := Chk.bind_ok h
  obtain rfl := Except.ok.inj h
  obtain ⟨hCount, hAt, hAll, hChain⟩ := at_of_decodeEntries hEntries
  obtain ⟨a0, -, hGeneration⟩ := At.of_readU64Le (Chk.ofFormat_ok r0)
  obtain ⟨a16, -, hCommitted⟩ := At.of_readU64Le (Chk.ofFormat_ok r16)
  obtain ⟨a32, -, hStateLen⟩ := At.of_readU64Le (Chk.ofFormat_ok r32)
  obtain ⟨a40, -, -⟩ := At.of_readU64Le (Chk.ofFormat_ok r40)
  have hFew : es.length < 2 ^ 32 := hCount ▸ numSegments.toNat_lt
  refine ⟨?_, ⟨hStateLen, fun e he => (hAll e he).1⟩,
    ⟨iff_of_eq (not_not.mp hState), hFew, fun e he => (hAll e he).2, hChain⟩⟩
  -- The body is the encoding: every field of it has been read, and there is nothing behind.
  have hBodyEq : env.body bytes = Manifest.body ⟨UInt64.ofNat generation, next,
      (UInt64.ofNat committed).toInt64, stateGen, stateCrc, stateLen, es⟩ := by
    refine At.eq_of_length ?_ ?_
    · rw [body_eq]
      simp only [UInt64.toUInt64_toInt64, UInt64.toNat_ofNat_of_lt' hGeneration,
        UInt64.toNat_ofNat_of_lt' hCommitted, hCount]
      refine a0.field <| (At.of_readU32Le (Chk.ofFormat_ok r8)).1.field <|
        (At.of_readU32Le (Chk.ofFormat_ok r12)).1.field <| a16.field <|
        (At.of_readU32Le (Chk.ofFormat_ok r24)).1.field <|
        (At.of_readU32Le (Chk.ofFormat_ok r28)).1.field <| a32.field <| ?_
      rw [not_not] at hReserved
      rw [hReserved] at a40
      exact a40.field hAt
    · obtain rfl : size = entryLen * numSegments.toNat := by
        unfold Chk.mul at hSize
        split_ifs at hSize
        exact (Except.ok.inj hSize).symm
      obtain rfl := Chk.add_eq_ok hExpected
      rw [length_body, not_not.mp hLen, ← hCount, Nat.mul_comm]
  unfold Manifest.encode
  rw [← hBodyEq]
  exact hBytes.symm

end ManifestBytes

/-- Encoding and decoding a manifest: one with the structural conditions is decoded from its
encoding exactly when its segments can be counted in 32 bits, and every accepted file is the
encoding of what is decoded. -/
theorem manifest_bijection [Platform] :
    (∀ m : Manifest, m.Typed → m.Structural →
      (ManifestBytes.decode m.encode = .ok m ↔ m.segments.length < 2 ^ 32)) ∧
    ∀ bytes m, ManifestBytes.decode bytes = .ok m → m.encode = bytes :=
  ⟨fun _ hTyped hOk => ⟨fun h => (ManifestBytes.encode_of_decode h).2.2.length_lt,
    ManifestBytes.decode_encode hTyped hOk⟩,
    fun _ _ h => (ManifestBytes.encode_of_decode h).1⟩

/-- A manifest with an overlay and three segments, two of which have deletions. -/
def Manifest.overlaid : Manifest :=
  ⟨7, 5, -12345, 3, 99, 88, [⟨2, 1, 0, 100, 3, 1, 2, 77, 300, 400, 61, 5, 6, 7⟩,
    ⟨0, 0, 100, 40, 0, 3, 4, 0, 200, 250, 0, 8, 9, 4⟩,
    ⟨4, 6, 150, 9, 9, 5, 6, 78, 100, 150, 42, 0, 0, 0⟩]⟩

theorem manifest_bijection_overlaid :
    let _ : Platform := .reference
    ManifestBytes.decode Manifest.overlaid.encode = .ok Manifest.overlaid := by
  intro _
  exact (manifest_bijection.1 Manifest.overlaid (by decide) (by decide)).mpr (by decide)

-- ---------------------------------------------------------------------------
-- More segments than a header counts
-- ---------------------------------------------------------------------------

/-- An empty segment without deletions. -/
def SegmentEntry.vacant (id : UInt32) : SegmentEntry :=
  ⟨id, 0, 0, 0, 0, 0, 0, 0, 0, 0, 0, 0, 0, 0⟩

/-- Empty segments with the ids 0 and 1 in turn, from `id` on. -/
def vacantFrom : Nat → Bool → List SegmentEntry
  | 0, _ => []
  | n + 1, id => SegmentEntry.vacant (if id then 1 else 0) :: vacantFrom n !id

theorem length_vacantFrom (n : Nat) (id : Bool) : (vacantFrom n id).length = n := by
  induction n generalizing id with
  | zero => rfl
  | succ n ih => rw [vacantFrom, List.length_cons, ih]

theorem mem_vacantFrom {n : Nat} {id : Bool} {e : SegmentEntry} (h : e ∈ vacantFrom n id) :
    ∃ i : Bool, e = SegmentEntry.vacant (if i then 1 else 0) := by
  induction n generalizing id with
  | zero => cases h
  | succ n ih =>
    rcases List.mem_cons.mp h with rfl | h
    · exact ⟨id, rfl⟩
    · exact ih h

theorem isChain_vacantFrom (n : Nat) (id : Bool) :
    (vacantFrom n id).IsChain Manifest.Follows := by
  induction n generalizing id with
  | zero => exact List.IsChain.nil
  | succ n ih =>
    cases n with
    | zero => exact List.IsChain.singleton _
    | succ n =>
      refine List.isChain_cons_cons.mpr ⟨⟨Nat.le_refl _, ?_⟩, ih !id⟩
      cases id <;> decide

def Manifest.vacant (n : Nat) : Manifest := ⟨1, 2, 0, 0, 0, 0, vacantFrom n false⟩

theorem Manifest.typed_vacant (n : Nat) : (Manifest.vacant n).Typed := by
  refine ⟨by show 0 < 2 ^ 64; decide, fun e he => ?_⟩
  obtain ⟨i, rfl⟩ := mem_vacantFrom he
  exact ⟨by show 0 < 2 ^ 64; decide, by show 0 < 2 ^ 64; decide, by show 0 < 2 ^ 64; decide,
    by show 0 < 2 ^ 64; decide, by show 0 < 2 ^ 64; decide, by show 0 < 2 ^ 64; decide⟩

theorem Manifest.structural_vacant (n : Nat) : (Manifest.vacant n).Structural := by
  refine ⟨⟨fun _ => rfl, fun _ => rfl⟩, fun e he => ?_, isChain_vacantFrom n false⟩
  obtain ⟨i, rfl⟩ := mem_vacantFrom he
  show EntryOk 2 _
  cases i <;> exact ⟨by decide, by decide, by decide, by decide⟩

/-- `2 ^ 32` segments: the count in the header is 0. -/
theorem manifest_not_decoded :
    let _ : Platform := .reference
    (Manifest.vacant (2 ^ 32)).Typed ∧ (Manifest.vacant (2 ^ 32)).Structural ∧
      ManifestBytes.decode (Manifest.vacant (2 ^ 32)).encode ≠ .ok (Manifest.vacant (2 ^ 32)) := by
  intro _
  refine ⟨Manifest.typed_vacant _, Manifest.structural_vacant _, fun h => ?_⟩
  have hLen : (vacantFrom (2 ^ 32) false).length < 2 ^ 32 :=
    (ManifestBytes.encode_of_decode h).2.2.length_lt
  rw [length_vacantFrom] at hLen
  exact Nat.lt_irrefl _ hLen

-- ---------------------------------------------------------------------------
-- All pairs of segments
-- ---------------------------------------------------------------------------

/-- What is expected of an accepted manifest. -/
structure Manifest.Distinct (m : Manifest) : Prop where
  ids : m.segments.Pairwise fun p e => p.segmentId ≠ e.segmentId
  ranges : m.segments.Pairwise fun p e => p.endDoc ≤ e.baseDoc.toNat
  endDoc_le : ∀ e ∈ m.segments, e.endDoc ≤ 2 ^ 32
  id_lt : ∀ e ∈ m.segments, e.segmentId < m.nextSegmentId
  files : m.segments.Pairwise fun p e => (segmentFiles p).Disjoint (segmentFiles e)

/-- Segments that are no neighbours have different ids. -/
def Manifest.DistantIds (m : Manifest) : Prop :=
  ∀ i j p e, i + 1 < j → m.segments[i]? = some p → m.segments[j]? = some e →
    p.segmentId ≠ e.segmentId

/-- The files of segments with different ids. -/
theorem disjoint_segmentFiles {p e : SegmentEntry} (h : p.segmentId ≠ e.segmentId) :
    (segmentFiles p).Disjoint (segmentFiles e) := by
  have hId : ∀ {e : SegmentEntry} {n : FileName}, n ∈ segmentFiles e →
      n = .idx e.segmentId ∨ n = .doc e.segmentId ∨ n = .del e.segmentId e.delGen := by
    intro e n hn
    unfold segmentFiles at hn
    split_ifs at hn <;> simp at hn <;> tauto
  intro n hp he
  rcases hId hp with rfl | rfl | rfl
  · rcases hId he with hEq | hEq | hEq
    · exact h (FileName.idx.inj hEq)
    · cases hEq
    · cases hEq
  · rcases hId he with hEq | hEq | hEq
    · cases hEq
    · exact h (FileName.doc.inj hEq)
    · cases hEq
  · rcases hId he with hEq | hEq | hEq
    · cases hEq
    · cases hEq
    · exact h (FileName.del.inj hEq).1

/-- Neighbours have been compared, so that only the others matter. -/
theorem Manifest.Ok.distinct_iff {m : Manifest} (h : m.Ok) : m.Distinct ↔ m.DistantIds := by
  constructor
  · intro hDistinct i j p e hLt hi hj
    obtain ⟨hiLt, rfl⟩ := List.getElem?_eq_some_iff.mp hi
    obtain ⟨hjLt, rfl⟩ := List.getElem?_eq_some_iff.mp hj
    exact List.pairwise_iff_getElem.mp hDistinct.ids i j hiLt hjLt (by omega)
  · intro hDistant
    have hIds : m.segments.Pairwise fun p e => p.segmentId ≠ e.segmentId := by
      refine List.pairwise_iff_getElem.mpr fun i j hi hj hLt => ?_
      by_cases hNext : i + 1 = j
      · -- `decode` has compared the two.
        subst hNext
        exact (List.isChain_iff_getElem.mp h.chain i hj).id_ne.symm
      · exact hDistant i j _ _ (by omega) (List.getElem?_eq_getElem hi)
          (List.getElem?_eq_getElem hj)
    exact ⟨hIds, h.pairwise_base, fun e he => (h.entries e he).end_le,
      fun e he => (h.entries e he).id_lt, hIds.imp disjoint_segmentFiles⟩

/-- An accepted manifest has distinct segments exactly when those that are no neighbours have
different ids. -/
theorem manifest_sound [Platform] (bytes : List UInt8) (m : Manifest)
    (h : ManifestBytes.decode bytes = .ok m) : m.Distinct ↔ m.DistantIds :=
  (ManifestBytes.encode_of_decode h).2.2.distinct_iff

/-- The ids 0, 1 and 2. -/
def Manifest.threeSegments : Manifest :=
  ⟨1, 3, 0, 0, 0, 0, [⟨0, 0, 0, 1, 0, 0, 0, 0, 0, 0, 0, 0, 0, 0⟩,
    ⟨1, 0, 1, 1, 0, 0, 0, 0, 0, 0, 0, 0, 0, 0⟩, ⟨2, 0, 2, 1, 0, 0, 0, 0, 0, 0, 0, 0, 0, 0⟩]⟩

/-- The ids 0, 1 and 0. -/
def Manifest.repeatedId : Manifest :=
  ⟨1, 2, 0, 0, 0, 0, [⟨0, 0, 0, 1, 0, 0, 0, 0, 0, 0, 0, 0, 0, 0⟩,
    ⟨1, 0, 1, 1, 0, 0, 0, 0, 0, 0, 0, 0, 0, 0⟩, ⟨0, 0, 2, 1, 0, 0, 0, 0, 0, 0, 0, 0, 0, 0⟩]⟩

theorem manifest_sound_three :
    let _ : Platform := .reference
    Manifest.threeSegments.Distinct := by
  intro _
  have hDecode := ManifestBytes.decode_encode (m := Manifest.threeSegments) (by decide)
    (by decide) (by decide)
  refine (manifest_sound _ _ hDecode).mpr fun i j p e hLt hi hj => ?_
  have hjLt : j < 3 := (List.getElem?_eq_some_iff.mp hj).1
  obtain rfl : i = 0 := by omega
  obtain rfl : j = 2 := by omega
  obtain rfl := Option.some.inj hi
  obtain rfl := Option.some.inj hj
  decide

/-- The manifest is accepted, and two of its segments have the same files. -/
theorem repeatedId_accepted :
    let _ : Platform := .reference
    ∃ bytes, ManifestBytes.decode bytes = .ok Manifest.repeatedId ∧
      ¬ Manifest.repeatedId.Distinct := by
  intro _
  refine ⟨Manifest.repeatedId.encode,
    ManifestBytes.decode_encode (by decide) (by decide) (by decide), fun h => ?_⟩
  have hIds := h.ids
  revert hIds
  decide

end Ripindex
