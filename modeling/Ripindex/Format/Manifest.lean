import Ripindex.Format.Envelope

/-!
# The manifest

`format/manifest.rs`: the list of segments one commit names, and the structural
checks every manifest must pass when it is read. File lengths and the counts of terms,
postings and tokens are `u64` values that nothing overflows; they are naturals here.
-/

namespace Ripindex

structure SegmentEntry where
  segmentId : UInt32
  /-- 0 = no deletions file. -/
  delGen : UInt32
  baseDoc : UInt32
  numDocs : UInt32
  numDeleted : UInt32
  idxCrc : UInt32
  docCrc : UInt32
  delCrc : UInt32
  idxLen : Nat
  docLen : Nat
  delLen : Nat
  numTokens : Nat
  numPostings : Nat
  numTerms : Nat
  deriving DecidableEq, Repr

structure Manifest where
  generation : UInt64
  nextSegmentId : UInt32
  committedUnixNanos : Int64
  /-- 0 = no overlay file. -/
  stateGen : UInt32
  stateCrc : UInt32
  stateLen : Nat
  segments : List SegmentEntry
  deriving DecidableEq, Repr

/-- One past the last global id of this segment (a `u64`). -/
def SegmentEntry.endDoc (e : SegmentEntry) : Nat :=
  e.baseDoc.toNat + e.numDocs.toNat

namespace Manifest

open Format

/-- The loop of `decode` over the entries, after entry `prev`. -/
def checkEntries (nextSegmentId : UInt32) :
    Option SegmentEntry → List SegmentEntry → Except FormatError Unit
  | _, [] => pure ()
  | prev, e :: es =>
    if nextSegmentId ≤ e.segmentId then
      .error (.corrupt "segment id not below next_segment_id")
    else if prev.any fun p => e.baseDoc.toNat < p.endDoc then
      .error (.corrupt "segment doc ranges overlap or are unordered")
    else if prev.any fun p => e.segmentId = p.segmentId then
      .error (.corrupt "duplicate segment id")
    else if 2 ^ 32 < e.endDoc then
      .error (.corrupt "segment exceeds the u32 doc id space")
    else if (e.delGen = 0) ≠ (e.delLen = 0) then
      .error (.corrupt "del_gen and del_len disagree")
    else if e.numDocs < e.numDeleted then
      .error (.corrupt "num_deleted exceeds num_docs")
    else checkEntries nextSegmentId (some e) es

/-- `Manifest::decode` on a file that holds a manifest of format `version`. The header
counts the entries modulo `2^32`. -/
def decode (version : UInt32) (m : Manifest) : Except FormatError Manifest :=
  if version ≠ formatVersion then .error (.version version)
  else if (m.stateGen = 0) ≠ (m.stateLen = 0) then
    .error (.corrupt "state_gen and state_len disagree")
  else if (UInt32.ofNat m.segments.length).toNat ≠ m.segments.length then
    .error (.corrupt "manifest body length")
  else do
    checkEntries m.nextSegmentId none m.segments
    pure m

def entryBytes (e : SegmentEntry) : List UInt8 :=
  [e.segmentId, e.delGen, e.baseDoc, e.numDocs, e.numDeleted, e.idxCrc, e.docCrc,
      e.delCrc].flatMap u32Bytes ++
    [e.idxLen, e.docLen, e.delLen, e.numTokens, e.numPostings, e.numTerms].flatMap (leBytes 8)

/-- The body of the manifest. -/
def body (m : Manifest) : List UInt8 :=
  u64Bytes m.generation ++ u32Bytes m.nextSegmentId ++ leBytes 4 m.segments.length ++
    i64Bytes m.committedUnixNanos ++ u32Bytes m.stateGen ++ u32Bytes m.stateCrc ++
    leBytes 8 m.stateLen ++ u64Bytes 0 ++ m.segments.flatMap entryBytes

-- ---------------------------------------------------------------------------
-- What `decode` accepts
-- ---------------------------------------------------------------------------

/-- One entry passes the checks that concern it alone. -/
structure EntryOk (nextSegmentId : UInt32) (e : SegmentEntry) : Prop where
  id_lt : e.segmentId < nextSegmentId
  end_le : e.endDoc ≤ 2 ^ 32
  del_iff : e.delGen = 0 ↔ e.delLen = 0
  deleted_le : e.numDeleted ≤ e.numDocs

/-- An entry may follow another one. -/
structure Follows (p e : SegmentEntry) : Prop where
  base_ge : p.endDoc ≤ e.baseDoc.toNat
  id_ne : e.segmentId ≠ p.segmentId

/-- The structural conditions on a manifest. -/
structure Ok (m : Manifest) : Prop where
  state_iff : m.stateGen = 0 ↔ m.stateLen = 0
  length_lt : m.segments.length < 2 ^ 32
  entries : ∀ e ∈ m.segments, EntryOk m.nextSegmentId e
  chain : m.segments.IsChain Follows

theorem checkEntries_ok_iff {nextSegmentId : UInt32} {prev : Option SegmentEntry}
    {es : List SegmentEntry} :
    checkEntries nextSegmentId prev es = .ok () ↔
      (∀ e ∈ es, EntryOk nextSegmentId e) ∧ (prev.toList ++ es).IsChain Follows := by
  induction es generalizing prev with
  | nil => cases prev <;> simp [checkEntries, pure, Except.pure]
  | cons e es ih =>
    have hStep : checkEntries nextSegmentId prev (e :: es) = .ok () ↔
        EntryOk nextSegmentId e ∧ (∀ p ∈ prev, Follows p e) ∧
          checkEntries nextSegmentId (some e) es = .ok () := by
      simp only [checkEntries]
      constructor
      · intro h
        split at h
        · cases h
        rename_i hId
        split at h
        · cases h
        rename_i hBase
        split at h
        · cases h
        rename_i hNe
        split at h
        · cases h
        rename_i hEnd
        split at h
        · cases h
        rename_i hDel
        split at h
        · cases h
        rename_i hCount
        refine ⟨⟨UInt32.not_le.mp hId, not_lt.mp hEnd, by simpa using hDel,
          UInt32.not_lt.mp hCount⟩, ?_, h⟩
        intro p hp
        obtain rfl : prev = some p := hp
        exact ⟨by simpa using hBase, by simpa using hNe⟩
      · rintro ⟨⟨hId, hEnd, hDel, hCount⟩, hPrev, hRest⟩
        have hBase : (prev.any fun p => decide (e.baseDoc.toNat < p.endDoc)) = false := by
          cases prev with
          | none => rfl
          | some p => simpa using (hPrev p rfl).base_ge
        have hNe : (prev.any fun p => decide (e.segmentId = p.segmentId)) = false := by
          cases prev with
          | none => rfl
          | some p => simpa using (hPrev p rfl).id_ne
        have hDel' : ¬ ((e.delGen = 0) ≠ (e.delLen = 0)) := by simpa using hDel
        rw [if_neg (UInt32.not_le.mpr hId), hBase, hNe, if_neg (by simp), if_neg (by simp),
          if_neg (not_lt.mpr hEnd), if_neg hDel', if_neg (UInt32.not_lt.mpr hCount), hRest]
    rw [hStep, ih]
    cases prev with
    | none => simp; tauto
    | some p => simp; tauto

/-- `decode` accepts exactly the manifests of the current version that meet the
structural conditions, and returns them unchanged. -/
theorem decode_ok_iff {version : UInt32} {m m' : Manifest} :
    decode version m = .ok m' ↔ version = formatVersion ∧ m.Ok ∧ m' = m := by
  unfold decode
  constructor
  · intro h
    split at h
    · cases h
    rename_i hVersion
    split at h
    · cases h
    rename_i hState
    split at h
    · cases h
    rename_i hLen
    rcases hCheck : checkEntries m.nextSegmentId none m.segments with _ | _
    · simp [hCheck, bind, Except.bind] at h
    obtain ⟨hEntries, hChain⟩ := checkEntries_ok_iff.mp hCheck
    simp only [hCheck, bind, Except.bind, pure, Except.pure, Except.ok.injEq] at h
    refine ⟨not_not.mp hVersion, ⟨by simpa using hState, ?_, hEntries, hChain⟩, h.symm⟩
    have := (UInt32.ofNat m.segments.length).toNat_lt
    omega
  · rintro ⟨rfl, ⟨hState, hLen, hEntries, hChain⟩, rfl⟩
    have hCheck : checkEntries m'.nextSegmentId none m'.segments = .ok () :=
      checkEntries_ok_iff.mpr ⟨hEntries, hChain⟩
    have hLen' : (UInt32.ofNat m'.segments.length).toNat = m'.segments.length :=
      UInt32.toNat_ofNat_of_lt' hLen
    have hState' : ¬ ((m'.stateGen = 0) ≠ (m'.stateLen = 0)) := by simpa using hState
    rw [if_neg (by simp), if_neg hState', if_neg (by simpa using hLen'), hCheck]
    rfl

/-- The ranges of a manifest are in order, also those of segments apart. -/
theorem Ok.pairwise_base {m : Manifest} (h : m.Ok) :
    m.segments.Pairwise fun p e => p.endDoc ≤ e.baseDoc.toNat := by
  have hChain : m.segments.IsChain fun p e : SegmentEntry => p.endDoc ≤ e.baseDoc.toNat :=
    h.chain.imp fun _ _ hF => hF.base_ge
  have : Trans (fun p e : SegmentEntry => p.endDoc ≤ e.baseDoc.toNat)
      (fun p e : SegmentEntry => p.endDoc ≤ e.baseDoc.toNat)
      (fun p e : SegmentEntry => p.endDoc ≤ e.baseDoc.toNat) :=
    ⟨fun {a b c} hab hbc => Nat.le_trans hab (Nat.le_trans (Nat.le_add_right _ _) hbc)⟩
  exact List.isChain_iff_pairwise.mp hChain

end Manifest

end Ripindex
