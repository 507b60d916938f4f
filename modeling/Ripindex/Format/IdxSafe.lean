import Ripindex.Format.NoCrash

/-!
# The blocks that are opened

What the reader of a term dictionary does with arbitrary bytes. The sums that may overflow are
those of the offsets that the sparse index gives for a block, taken where the block is opened:
for a term, by an iterator that has got so far, or by the full check.

## Results

* `Parsed.lookup_iff`, `Parsed.terms_iff`, `Parsed.verify_iff` — when each of them panics.
-/

namespace Ripindex

open Format

namespace IdxView

/-- What `parse` has checked. -/
structure Parsed (v : IdxView) : Prop where
  length_lt : v.bytes.length < 2 ^ 63
  bodyEnd : v.env.bodyEnd + footerLen = v.bytes.length
  tocLen_le : headerLen + tocLen ≤ v.env.bodyEnd
  tiles : v.toc.Tiles v.env.bodyEnd

theorem gives_parse {bytes : List UInt8} (h : bytes.length < 2 ^ 63) :
    Chk.Gives (parse bytes) Parsed := by
  unfold parse
  refine (Chk.gives_ofFormat fun env hEnv => Checked.bodyEnd_of_parse hEnv).bind
    fun env hEnv => ?_
  obtain ⟨hEnd, hHeader⟩ := hEnv
  by_cases hShort : env.bodyEnd - headerLen < tocLen
  · rw [if_pos hShort]
    exact Chk.gives_err
  rw [if_neg hShort]
  refine (Chk.safe_ofFormat _).bind
    fun toc _ => ?_
  split_ifs with hTiles
  · exact ⟨h, hEnd, by
      show headerLen + tocLen ≤ env.bodyEnd
      omega, hTiles⟩
  · exact Chk.gives_corrupt

/-- The sums that `block` takes of the two offsets of a sparse entry: the second one only if the
block lies in the dictionary. -/
def BlockFits (v : IdxView) (b : Nat) : Prop :=
  ∀ first blockOff postingsRel, v.sparseEntry b = .ok (first, blockOff, postingsRel) →
    v.toc.dictOff + blockOff < 2 ^ 64 ∧
      (blockOff ≤ v.toc.dictLen → v.toc.postingsOff + postingsRel < 2 ^ 64)

variable {v : IdxView}

/-- The regions lie in the file. -/
theorem Parsed.regions (h : v.Parsed) :
    v.toc.postingsOff + v.toc.postingsLen < 2 ^ 63 ∧ v.toc.dictOff + v.toc.dictLen < 2 ^ 63 ∧
      v.toc.sparseOff + v.toc.sparseLen < 2 ^ 63 ∧
        v.toc.sparseOff + 4 * v.toc.numBlocks.toNat < 2 ^ 63 := by
  have hLength := h.length_lt
  have hEnd := h.bodyEnd
  have hDict := h.tiles.dictOff
  have hSparse := h.tiles.sparseOff
  have hTile := h.tiles.end_eq
  have hLen := h.tiles.sparseLen
  omega

/-- A sparse entry stays in the file. -/
theorem Parsed.sparseEntry (h : v.Parsed) {b : Nat} (hb : b < v.toc.numBlocks.toNat) :
    Chk.Safe (v.sparseEntry b) := by
  obtain ⟨-, -, hSparse, hTable⟩ := h.regions
  have hLength := h.length_lt
  unfold IdxView.sparseEntry
  rw [Chk.add_ok (by omega)]
  refine (Chk.safe_ofFormat _).bind
    fun off _ => ?_
  have hOff := off.toNat_lt
  rw [Chk.add_ok (by omega)]
  show Chk.Gives (Chk.add _ _ >>= _) _
  rw [Chk.add_ok (by omega)]
  show Chk.Gives (Chk.add _ _ >>= _) _
  rw [Chk.add_ok (by omega)]
  show Chk.Gives (if _ then _ else _) _
  by_cases hRange : v.toc.sparseOff + v.toc.sparseLen ≤
      v.toc.sparseOff + 4 * v.toc.numBlocks.toNat + off.toNat
  · rw [if_pos hRange]
    exact Chk.gives_corrupt
  rw [if_neg hRange]
  refine (Chk.safe_ofFormat _).bind
    fun termLen _ => ?_
  -- The term was sliced from the file, so that its end is in it.
  refine (Chk.gives_ofFormat fun _ hSlice => slice_le hSlice).bind fun term hTerm => ?_
  show Chk.Gives (Chk.add _ _ >>= _) _
  rw [Chk.add_ok (by omega)]
  refine (Chk.safe_ofFormat _).bind fun _ _ => ?_
  refine (Chk.safe_ofFormat _).bind fun _ _ => ?_
  show Chk.Gives (if _ then _ else _) _
  split_ifs
  · exact Chk.gives_corrupt
  · exact trivial

/-- What is asked of the offsets of a sparse entry that is read is asked of the two read. -/
theorem forall_sparseEntry_iff {b blockOff postingsRel : Nat} {first : List UInt8}
    (h : v.sparseEntry b = .ok (first, blockOff, postingsRel)) {P : Nat → Nat → Prop} :
    (∀ first' blockOff' postingsRel', v.sparseEntry b = .ok (first', blockOff', postingsRel') →
      P blockOff' postingsRel') ↔ P blockOff postingsRel := by
  refine ⟨fun hAll => hAll _ _ _ h, fun hOne first' blockOff' postingsRel' hOk => ?_⟩
  obtain ⟨-, rfl, rfl⟩ : first = first' ∧ blockOff = blockOff' ∧ postingsRel = postingsRel' := by
    simpa using h.symm.trans hOk
  exact hOne

/-- A block is opened without panic exactly when its offsets fit. -/
theorem Parsed.block_iff (h : v.Parsed) {b : Nat} (hb : b < v.toc.numBlocks.toNat) :
    Chk.Safe (v.block b) ↔ v.BlockFits b := by
  obtain ⟨-, hDict, -, -⟩ := h.regions
  have hBlocks := h.tiles.numBlocks
  have hEntry := h.sparseEntry hb
  unfold IdxView.block
  rcases hSparse : v.sparseEntry b with e | ⟨first, blockOff, postingsRel⟩
  · rw [hSparse] at hEntry
    exact iff_of_true hEntry fun _ _ _ hOk => nomatch hSparse.symm.trans hOk
  have hFits : v.BlockFits b ↔ v.toc.dictOff + blockOff < 2 ^ 64 ∧
      (blockOff ≤ v.toc.dictLen → v.toc.postingsOff + postingsRel < 2 ^ 64) :=
    forall_sparseEntry_iff hSparse
  rw [hFits]
  show Chk.Safe (Chk.add _ _ >>= _) ↔ _
  by_cases hStart : v.toc.dictOff + blockOff < 2 ^ 64
  · rw [Chk.add_ok hStart, and_iff_right hStart]
    show Chk.Safe (Chk.add _ _ >>= _) ↔ _
    rw [Chk.add_ok (by omega)]
    show Chk.Safe (if _ then _ else _) ↔ _
    by_cases hOutside : v.toc.dictOff + v.toc.dictLen < v.toc.dictOff + blockOff
    · rw [if_pos hOutside]
      exact iff_of_true Chk.gives_corrupt fun hLe => by omega
    -- A block that there is has terms left: `num_blocks` was checked against `num_terms`.
    rw [if_neg hOutside, Chk.sub_ok (by unfold Idx.blockSize at *; omega)]
    show Chk.Safe (Chk.add _ _ >>= _) ↔ _
    by_cases hPostings : v.toc.postingsOff + postingsRel < 2 ^ 64
    · rw [Chk.add_ok hPostings]
      exact iff_of_true trivial fun _ => hPostings
    · rw [Chk.add, if_neg hPostings]
      exact iff_of_false (fun hSafe => hSafe rfl) fun hAll => hPostings (hAll (by omega))
  · rw [Chk.add, if_neg hStart]
    exact iff_of_false (fun hSafe => hSafe rfl) fun hBoth => hStart hBoth.1

/-- The blocks before the last one are full. -/
theorem remaining_of_block {b : Nat} {s : BlockScan} (h : v.block b = .ok s) :
    s.remaining = min (v.toc.numTerms - b * Idx.blockSize) Idx.blockSize := by
  obtain ⟨⟨first, blockOff, postingsRel⟩, -, h⟩ := Chk.bind_ok h
  obtain ⟨start, -, h⟩ := Chk.bind_ok h
  obtain ⟨stop, -, h⟩ := Chk.bind_ok h
  by_cases hOutside : stop < start
  · rw [if_pos hOutside] at h
    cases h
  rw [if_neg hOutside] at h
  obtain ⟨left, hLeft, h⟩ := Chk.bind_ok h
  obtain ⟨postingsPos, -, h⟩ := Chk.bind_ok h
  obtain rfl := Except.ok.inj h
  rw [Chk.sub_eq_ok hLeft]

theorem gives_nextEntry {bytes : List UInt8} (h : bytes.length < 2 ^ 63) (s : BlockScan) :
    Chk.Gives (s.nextEntry bytes) fun r => ∀ e s', r = some (e, s') →
      s'.remaining + 1 = s.remaining := by
  unfold BlockScan.nextEntry
  by_cases hNone : s.remaining = 0
  · rw [if_pos hNone]
    exact fun _ _ hEq => nomatch hEq
  rw [if_neg hNone]
  refine (Chk.safe_ofFormat _).bind fun _ _ => ?_
  refine (Chk.safe_ofFormat _).bind fun _ _ => ?_
  show Chk.Gives (if _ then _ else _) _
  split_ifs
  · exact Chk.gives_corrupt
  refine (Chk.gives_ofFormat fun _ hSlice => slice_le hSlice).bind fun term hTerm => ?_
  rw [Chk.add_ok (by omega)]
  refine (Chk.safe_ofFormat _).bind fun _ _ => ?_
  refine (Chk.safe_ofFormat _).bind fun _ _ => ?_
  show Chk.Gives (if _ then _ else _) _
  split_ifs
  · exact Chk.gives_corrupt
  · intro e s' hEq
    obtain ⟨-, rfl⟩ := Prod.mk.inj (Option.some.inj hEq)
    show s.remaining - 1 + 1 = s.remaining
    omega
  · exact Chk.gives_corrupt

/-- A list that is found lies in the postings region. -/
theorem Parsed.postingsAt (h : v.Parsed) (off len : Nat) (docFreq : UInt32) :
    Chk.Gives (v.postingsAt off len docFreq) fun _ => off + len < 2 ^ 63 := by
  obtain ⟨hRegion, -, -, -⟩ := h.regions
  unfold IdxView.postingsAt
  split_ifs
  · rw [Chk.add_ok (by omega)]
    show Chk.Gives (if _ then _ else _) _
    split_ifs
    · exact Chk.gives_corrupt
    · exact (Chk.safe_ofFormat _).bind
        fun _ _ => show off + len < 2 ^ 63 by omega
  · exact Chk.gives_corrupt

/-- The binary search stays among the blocks. -/
theorem Parsed.search (h : v.Parsed) (target : List UInt8) {fuel lo hi : Nat} (hLo : lo ≤ hi)
    (hHi : hi ≤ v.toc.numBlocks.toNat) :
    Chk.Gives (v.search target fuel lo hi) fun b => b ≤ v.toc.numBlocks.toNat := by
  induction fuel generalizing lo hi with
  | zero => exact Nat.le_trans hLo hHi
  | succ fuel ih =>
    rw [IdxView.search]
    by_cases hLt : lo < hi
    · rw [if_pos hLt]
      refine (h.sparseEntry (by omega)).bind fun _ _ => ?_
      show Chk.Gives (if _ then _ else _) _
      split_ifs
      · exact ih (by omega) hHi
      · exact ih (by omega) (by omega)
    · rw [if_neg hLt]
      exact Nat.le_trans hLo hHi

theorem Parsed.scanFor (h : v.Parsed) (target : List UInt8) (fuel : Nat) (s : BlockScan) :
    Chk.Safe (v.scanFor target fuel s) := by
  induction fuel generalizing s with
  | zero => exact trivial
  | succ fuel ih =>
    refine (gives_nextEntry h.length_lt s).bind fun r _ => ?_
    rcases r with _ | ⟨e, s'⟩
    · exact trivial
    show Chk.Gives (if _ then _ else _) _
    split_ifs
    · exact ih s'
    · exact (h.postingsAt _ _ _).bind fun _ _ => trivial
    · exact trivial

/-- A lookup panics exactly when its search ends behind a block whose offsets do not fit. -/
theorem Parsed.lookup_iff (h : v.Parsed) (t : String) :
    Chk.Safe (v.lookup t) ↔ ∀ b, v.search t.toUTF8.toList v.toc.numBlocks.toNat 0
      v.toc.numBlocks.toNat = .ok (b + 1) → v.BlockFits b := by
  have hSame : Chk.Safe (v.lookup t) ↔ Chk.Safe (v.lookupInner t.toUTF8.toList) := by
    unfold IdxView.lookup
    rcases v.lookupInner t.toUTF8.toList with (_ | e) | r
    · exact Iff.rfl
    · exact iff_of_true trivial Chk.gives_err
    · exact Iff.rfl
  rw [hSame]
  unfold IdxView.lookupInner
  simp only
  by_cases hZero : v.toc.numBlocks.toNat = 0
  · rw [if_pos hZero, hZero]
    refine iff_of_true trivial fun b hEnd => ?_
    have hNil : 0 = b + 1 := Except.ok.inj hEnd
    omega
  rw [if_neg hZero, Chk.safe_bind_iff]
  have hSearch := @Parsed.search v h t.toUTF8.toList v.toc.numBlocks.toNat _ _ (Nat.zero_le _)
    (Nat.le_refl _)
  constructor
  · rintro ⟨-, hRest⟩ b hEnd
    have hb : b + 1 ≤ v.toc.numBlocks.toNat := hSearch.of_ok hEnd
    have hOpen := hRest (b + 1) hEnd
    rw [if_neg (Nat.succ_ne_zero b)] at hOpen
    exact (h.block_iff hb).mp (Chk.safe_bind_iff.mp hOpen).1
  · intro hFits
    refine ⟨hSearch.safe, fun lo hEnd => ?_⟩
    cases lo with
    | zero => exact trivial
    | succ b =>
      have hb : b + 1 ≤ v.toc.numBlocks.toNat := hSearch.of_ok hEnd
      rw [if_neg (Nat.succ_ne_zero b)]
      exact Chk.safe_bind_iff.mpr ⟨(h.block_iff hb).mpr (hFits b hEnd),
        fun s _ => h.scanFor _ _ s⟩

theorem gives_termText (bytes : List UInt8) : Chk.Safe (termText bytes) := by
  unfold termText
  split
  · exact trivial
  · exact Chk.gives_corrupt

-- ---------------------------------------------------------------------------
-- An iterator, block by block
-- ---------------------------------------------------------------------------

/-- The entries of a block, as an iterator takes them. -/
def takeEntries (v : IdxView) : Nat → BlockScan → Chk Unit
  | 0, _ => .ok ()
  | fuel + 1, s => do
    match ← s.nextEntry v.bytes with
    | none => .ok ()
    | some (e, s) =>
      let _ ← termText e.term
      let _ ← v.postingsAt e.postingsOff e.postingsLen e.docFreq
      takeEntries v fuel s

/-- All the entries of a block. -/
def takeBlock (v : IdxView) (b : Nat) : Chk Unit := do
  let s ← v.block b
  v.takeEntries (s.remaining + 1) s

/-- The blocks from `b` on, as many as are asked for. -/
def takeBlocks (v : IdxView) : Nat → Nat → Chk Unit
  | 0, _ => .ok ()
  | n + 1, b => do
    v.takeBlock b
    takeBlocks v n (b + 1)

theorem takeBlocks_succ (v : IdxView) (n b : Nat) :
    v.takeBlocks (n + 1) b = v.takeBlocks n b >>= fun _ => v.takeBlock (b + n) := by
  induction n generalizing b with
  | zero =>
    rw [takeBlocks, takeBlocks, takeBlocks]
    rcases v.takeBlock b with e | a <;> rfl
  | succ n ih =>
    rw [takeBlocks, ih, takeBlocks, bind_assoc]
    have hNext : b + 1 + n = b + (n + 1) := by omega
    rw [hNext]

/-- What an iterator has still to take. -/
def rest (v : IdxView) (it : TermIter) : Chk Unit := do
  match it.scan with
  | none => .ok ()
  | some s => v.takeEntries (s.remaining + 1) s
  v.takeBlocks (v.toc.numBlocks.toNat - it.block) it.block

/-- How many entries that are at most. -/
def left (v : IdxView) (it : TermIter) : Nat :=
  (it.scan.elim 0 BlockScan.remaining) + (v.toc.numTerms - it.block * Idx.blockSize)

theorem Parsed.remaining_of_nextEntry (h : v.Parsed) {s s' : BlockScan} {e : IdxEntry}
    (hNext : s.nextEntry v.bytes = .ok (some (e, s'))) : s'.remaining + 1 = s.remaining :=
  (gives_nextEntry h.length_lt s).of_ok hNext e s' rfl

/-- Opening the next block keeps what is left. -/
theorem rest_of_block {b : Nat} {s : BlockScan} (hb : b < v.toc.numBlocks.toNat)
    (hBlock : v.block b = .ok s) :
    v.rest ⟨b, none⟩ = v.rest ⟨b + 1, some s⟩ ∧ v.left ⟨b + 1, some s⟩ = v.left ⟨b, none⟩ := by
  constructor
  · have hMore : v.toc.numBlocks.toNat - b = v.toc.numBlocks.toNat - (b + 1) + 1 := by omega
    simp only [rest, hMore, takeBlocks, takeBlock, hBlock, Chk.ok_bind]
  · have hRemaining := remaining_of_block hBlock
    unfold Idx.blockSize at hRemaining
    simp only [left, Option.elim_some, Option.elim_none, Idx.blockSize]
    omega

/-- What a call of `try_next` leaves of what there was. -/
structure Takes (v : IdxView) (it : TermIter)
    (r : Chk (Option ((String × UInt32 × EncodedList) × TermIter))) : Prop where
  error : ∀ e, r = .error e → v.rest it = .error e
  ends : r = .ok none → v.rest it = .ok ()
  next : ∀ x it', r = .ok (some (x, it')) → v.rest it' = v.rest it ∧ v.left it' < v.left it

theorem Takes.of_rest {it it' : TermIter}
    {r : Chk (Option ((String × UInt32 × EncodedList) × TermIter))} (h : v.Takes it' r)
    (hRest : v.rest it = v.rest it') (hLeft : v.left it' ≤ v.left it) : v.Takes it r where
  error := fun e he => hRest.trans (h.error e he)
  ends := fun hr => hRest.trans (h.ends hr)
  next := fun x it'' hr => by
    obtain ⟨hSame, hLess⟩ := h.next x it'' hr
    exact ⟨hSame.trans hRest.symm, Nat.lt_of_lt_of_le hLess hLeft⟩

theorem Takes.of_error {it : TermIter} {e : Stop} (h : v.rest it = .error e) :
    v.Takes it (.error e) := by
  refine ⟨fun e' he => ?_, fun he => (nomatch he), fun _ _ he => (nomatch he)⟩
  rw [h, Except.error.inj he]

theorem Parsed.tryNext_takes (h : v.Parsed) {fuel : Nat} {it : TermIter}
    (hFuel : 2 * (v.toc.numBlocks.toNat - it.block) + it.scan.elim 0 (fun _ => 1) < fuel) :
    v.Takes it (v.tryNext fuel it) := by
  induction fuel generalizing it with
  | zero => exact absurd hFuel (Nat.not_lt_zero _)
  | succ fuel ih =>
    obtain ⟨b, scan⟩ := it
    cases scan with
    | none =>
      rw [tryNext]
      by_cases hEnd : v.toc.numBlocks.toNat ≤ b
      · rw [if_pos hEnd]
        refine ⟨fun _ he => (nomatch he), fun _ => ?_, fun _ _ he => (nomatch he)⟩
        simp only [rest, Nat.sub_eq_zero_of_le hEnd, takeBlocks]
        rfl
      rw [if_neg hEnd]
      rcases hBlock : v.block b with e | s
      · have hMore : v.toc.numBlocks.toNat - b = v.toc.numBlocks.toNat - (b + 1) + 1 := by omega
        refine .of_error ?_
        simp only [rest, hMore, takeBlocks, takeBlock, hBlock]
        rfl
      · obtain ⟨hRest, hLeft⟩ := rest_of_block (Nat.not_le.mp hEnd) hBlock
        refine (@ih ⟨b + 1, some s⟩ ?_).of_rest hRest hLeft.le
        simp only [Option.elim_some, Option.elim_none] at hFuel ⊢
        omega
    | some s =>
      rw [tryNext]
      rcases hNext : s.nextEntry v.bytes with e | _ | ⟨e, s'⟩
      · simp only [hNext]
        refine Takes.of_error (e := e) ?_
        simp only [rest, takeEntries, hNext]
        rfl
      · -- The block is at its end.
        simp only [hNext]
        refine (@ih ⟨b, none⟩ ?_).of_rest ?_ ?_
        · simp only [Option.elim_some, Option.elim_none] at hFuel ⊢
          omega
        · simp only [rest, takeEntries, hNext]
          rfl
        · simp only [left, Option.elim_none, Nat.zero_add]
          omega
      · have hRemaining := h.remaining_of_nextEntry hNext
        simp only [hNext, Chk.ok_bind]
        rcases hTerm : termText e.term with e' | term
        · refine Takes.of_error (e := e') ?_
          simp only [rest, takeEntries, hNext, Chk.ok_bind, hTerm]
          rfl
        rcases hList : v.postingsAt e.postingsOff e.postingsLen e.docFreq with e' | list
        · refine Takes.of_error (e := e') ?_
          simp only [rest, takeEntries, hNext, Chk.ok_bind, hTerm, hList]
          rfl
        refine ⟨fun _ he => (nomatch he), fun he => (nomatch he), fun x it' he => ?_⟩
        obtain ⟨-, rfl⟩ := Prod.mk.inj (Option.some.inj (Except.ok.inj he))
        constructor
        · have hSame : v.takeEntries (s.remaining + 1) s =
              v.takeEntries (s'.remaining + 1) s' := by
            rw [takeEntries, hNext, hRemaining]
            simp only [Chk.ok_bind, hTerm, hList]
          simp only [rest, hSame]
        · simp only [left, Option.elim_some]
          omega

/-- An iterator takes what there is. -/
theorem Parsed.collect_eq (h : v.Parsed) {fuel : Nat} {it : TermIter}
    (hFuel : v.left it < fuel) : (v.collect fuel it).map (fun _ => ()) = v.rest it := by
  induction fuel generalizing it with
  | zero => exact absurd hFuel (Nat.not_lt_zero _)
  | succ fuel ih =>
    have hTakes := @Parsed.tryNext_takes v h (2 * v.toc.numBlocks.toNat + 2) it (by
      rcases it.scan with _ | s <;> simp only [Option.elim_none, Option.elim_some] <;> omega)
    rw [collect]
    rcases hCall : v.tryNext (2 * v.toc.numBlocks.toNat + 2) it with e | _ | ⟨x, it'⟩
    · exact (hTakes.error e hCall).symm
    · exact (hTakes.ends hCall).symm
    · obtain ⟨hRest, hLess⟩ := hTakes.next x it' hCall
      have hMore := @ih it' (by omega)
      rw [← hRest, ← hMore]
      simp only [Chk.ok_bind]
      rcases v.collect fuel it' with e | xs <;> rfl

theorem Parsed.terms_eq (h : v.Parsed) :
    v.terms.map (fun _ => ()) = v.takeBlocks v.toc.numBlocks.toNat 0 := by
  refine (h.collect_eq ?_).trans ?_
  · simp only [left, Option.elim_none, Nat.zero_mul, Nat.sub_zero, Nat.zero_add]
    exact Nat.lt_succ_self _
  · simp only [rest, Nat.sub_zero]
    rfl

theorem Parsed.takeEntries (h : v.Parsed) (fuel : Nat) (s : BlockScan) :
    Chk.Safe (v.takeEntries fuel s) := by
  induction fuel generalizing s with
  | zero => exact trivial
  | succ fuel ih =>
    refine (gives_nextEntry h.length_lt s).bind fun r _ => ?_
    rcases r with _ | ⟨e, s'⟩
    · exact trivial
    · exact (gives_termText _).bind fun _ _ => (h.postingsAt _ _ _).bind fun _ _ => ih s'

theorem Parsed.takeBlocks_iff (h : v.Parsed) {n : Nat} (hn : n ≤ v.toc.numBlocks.toNat) :
    Chk.Safe (v.takeBlocks n 0) ↔ ∀ b < n, v.takeBlocks b 0 = .ok () → v.BlockFits b := by
  induction n with
  | zero => exact iff_of_true trivial fun b hb => absurd hb (Nat.not_lt_zero b)
  | succ n ih =>
    have hOpen : Chk.Safe (v.takeBlock n) ↔ v.BlockFits n := by
      rw [takeBlock, Chk.safe_bind_iff, h.block_iff hn]
      exact and_iff_left fun s _ => h.takeEntries _ s
    rw [takeBlocks_succ, Nat.zero_add, Chk.safe_bind_iff, ih (Nat.le_of_succ_le hn), hOpen,
      Nat.forall_lt_succ_right]
    exact and_congr_right fun _ => ⟨fun hLast => hLast (), fun hLast _ => hLast⟩

/-- An iterator panics exactly when it gets to a block whose offsets do not fit. -/
theorem Parsed.terms_iff (h : v.Parsed) : Chk.Safe v.terms ↔
    ∀ b < v.toc.numBlocks.toNat, v.takeBlocks b 0 = .ok () → v.BlockFits b := by
  rw [← h.takeBlocks_iff le_rfl, ← h.terms_eq]
  rcases v.terms with (_ | e) | xs
  · exact Iff.rfl
  · exact iff_of_true Chk.gives_err Chk.gives_err
  · exact iff_of_true trivial trivial

-- ---------------------------------------------------------------------------
-- The full check, block by block
-- ---------------------------------------------------------------------------

theorem Parsed.posAfter (h : v.Parsed) (fuel : Nat) (s : BlockScan) :
    Chk.Safe (BlockScan.posAfter v.bytes fuel s) := by
  induction fuel generalizing s with
  | zero => exact trivial
  | succ fuel ih =>
    refine (gives_nextEntry h.length_lt s).bind fun r _ => ?_
    rcases r with _ | ⟨e, s'⟩
    · exact trivial
    · exact ih s'

/-- A block adds at most one to the count for each entry that remains of it. -/
theorem Parsed.verifyEntries (h : v.Parsed) (b : Nat) {fuel : Nat} (first : Option (List UInt8))
    (s : BlockScan) {p : Progress} (hCount : p.count + s.remaining < 2 ^ 63) :
    Chk.Gives (v.verifyEntries b fuel first s p) fun p' =>
      p'.count ≤ p.count + s.remaining := by
  induction fuel generalizing first s p with
  | zero => exact Nat.le_add_right _ _
  | succ fuel ih =>
    refine (gives_nextEntry h.length_lt s).bind fun r hr => ?_
    rcases r with _ | ⟨e, s'⟩
    · exact Nat.le_add_right _ _
    have hRemaining := hr e s' rfl
    show Chk.Gives (if _ then _ else _) _
    split_ifs
    · exact Chk.gives_corrupt
    · exact Chk.gives_corrupt
    refine (gives_termText _).bind fun _ _ => (h.postingsAt _ _ _).bind fun list hEnd => ?_
    refine (Chk.safe_ofFormat _).bind
      fun _ _ => ?_
    -- The count has room for the entry, and its postings end in the region.
    rw [Chk.add_ok (by omega)]
    show Chk.Gives (Chk.add _ _ >>= _) _
    rw [Chk.add_ok (by omega)]
    refine (ih none s' (p := ⟨p.count + 1, some e.term, _⟩) ?_).mono fun p' hp' => ?_
    · show p.count + 1 + s'.remaining < 2 ^ 63
      omega
    · have hStep : p'.count ≤ p.count + 1 + s'.remaining := hp'
      omega

/-- One turn of the loop of `verify`. -/
def verifyBlock (v : IdxView) (b : Nat) (p : Progress) : Chk Progress := do
  let (first, blockOff, postingsRel) ← v.sparseEntry b
  let start ← Chk.add v.toc.postingsOff postingsRel
  if start ≠ p.expected then
    Chk.corrupt s!"block {b}: sparse postings_off disagrees with running total"
  else do
    let s ← v.block b
    if 0 < b then do
      let last ← v.block (b - 1)
      let pos ← last.posAfter v.bytes (last.remaining + 1)
      let at' ← Chk.add v.toc.dictOff blockOff
      if pos ≠ at' then
        Chk.corrupt s!"block {b}: block_off disagrees with previous block end"
      else v.verifyEntries b (s.remaining + 1) (some first) s p
    else v.verifyEntries b (s.remaining + 1) (some first) s p

theorem verifyBlocks_cons (v : IdxView) (n b : Nat) (p : Progress) :
    v.verifyBlocks (n + 1) b p =
      v.verifyBlock b p >>= fun p' => v.verifyBlocks n (b + 1) p' := by
  rw [verifyBlocks, verifyBlock]
  rcases v.sparseEntry b with e | ⟨first, blockOff, postingsRel⟩
  · rfl
  simp only [Chk.ok_bind]
  rcases Chk.add v.toc.postingsOff postingsRel with e | start
  · rfl
  simp only [Chk.ok_bind]
  by_cases hExpected : start ≠ p.expected
  · rw [if_pos hExpected, if_pos hExpected]
    rfl
  rw [if_neg hExpected, if_neg hExpected]
  rcases v.block b with e | s
  · rfl
  simp only [Chk.ok_bind]
  by_cases hFirst : 0 < b
  · rw [if_pos hFirst, if_pos hFirst]
    rcases v.block (b - 1) with e | last
    · rfl
    simp only [Chk.ok_bind]
    rcases last.posAfter v.bytes (last.remaining + 1) with e | pos
    · rfl
    simp only [Chk.ok_bind]
    rcases Chk.add v.toc.dictOff blockOff with e | at'
    · rfl
    simp only [Chk.ok_bind]
    by_cases hPos : pos ≠ at'
    · rw [if_pos hPos, if_pos hPos]
      rfl
    · rw [if_neg hPos, if_neg hPos]
  · rw [if_neg hFirst, if_neg hFirst]

theorem verifyBlocks_succ (v : IdxView) (n b : Nat) (p : Progress) :
    v.verifyBlocks (n + 1) b p =
      v.verifyBlocks n b p >>= fun p' => v.verifyBlock (b + n) p' := by
  induction n generalizing b p with
  | zero =>
    rw [verifyBlocks_cons]
    show (v.verifyBlock b p >>= fun p' => .ok p') = v.verifyBlock b p
    rcases v.verifyBlock b p with e | p' <;> rfl
  | succ n ih =>
    rw [verifyBlocks_cons, verifyBlocks_cons, bind_assoc]
    have hNext : b + 1 + n = b + (n + 1) := by omega
    simp only [ih, hNext]

/-- The sums that a turn takes of the two offsets of a sparse entry: first that of the postings,
which is compared with the running total before the block is opened. -/
def SumsFit (v : IdxView) (b : Nat) (p : Progress) : Prop :=
  ∀ first blockOff postingsRel, v.sparseEntry b = .ok (first, blockOff, postingsRel) →
    v.toc.postingsOff + postingsRel < 2 ^ 64 ∧
      (v.toc.postingsOff + postingsRel = p.expected → v.toc.dictOff + blockOff < 2 ^ 64)

/-- What holds when the loop has come to block `b`. -/
structure Progress.At (v : IdxView) (b : Nat) (p : Progress) : Prop where
  count : p.count ≤ b * Idx.blockSize
  opened : 0 < b → ∃ s, v.block (b - 1) = .ok s

/-- A turn panics exactly when one of its sums does not fit. -/
theorem Parsed.verifyBlock_iff (h : v.Parsed) {b : Nat} {p : Progress}
    (hb : b < v.toc.numBlocks.toNat) (hAt : p.At v b) :
    Chk.Safe (v.verifyBlock b p) ↔ v.SumsFit b p := by
  have hEntry := h.sparseEntry hb
  have hBlocks := v.toc.numBlocks.toNat_lt
  unfold verifyBlock
  rcases hSparse : v.sparseEntry b with e | ⟨first, blockOff, postingsRel⟩
  · rw [hSparse] at hEntry
    exact iff_of_true hEntry fun _ _ _ hOk => nomatch hSparse.symm.trans hOk
  have hFits : v.SumsFit b p ↔ v.toc.postingsOff + postingsRel < 2 ^ 64 ∧
      (v.toc.postingsOff + postingsRel = p.expected → v.toc.dictOff + blockOff < 2 ^ 64) :=
    forall_sparseEntry_iff hSparse
  rw [hFits]
  show Chk.Safe (Chk.add _ _ >>= _) ↔ _
  by_cases hPostings : v.toc.postingsOff + postingsRel < 2 ^ 64
  · rw [Chk.add_ok hPostings, and_iff_right hPostings]
    show Chk.Safe (if _ then _ else _) ↔ _
    by_cases hExpected : v.toc.postingsOff + postingsRel ≠ p.expected
    · rw [if_pos hExpected]
      exact iff_of_true Chk.gives_corrupt fun hEq => absurd hEq hExpected
    rw [if_neg hExpected]
    rw [not_not] at hExpected
    -- The sum of the postings fits, so that the block can be opened if the other one does.
    have hOpen : Chk.Safe (v.block b) ↔ v.toc.dictOff + blockOff < 2 ^ 64 := by
      rw [h.block_iff hb, BlockFits, forall_sparseEntry_iff hSparse]
      exact and_iff_left fun _ => hPostings
    rw [Chk.safe_bind_iff, hOpen]
    constructor
    · exact fun hBoth _ => hBoth.1
    · intro hStart
      refine ⟨hStart hExpected, fun s hBlock => ?_⟩
      have hRemaining := remaining_of_block hBlock
      have hCount := hAt.count
      have hEntries : Chk.Safe (v.verifyEntries b (s.remaining + 1) (some first) s p) := by
        unfold Idx.blockSize at hRemaining hCount
        exact (h.verifyEntries b (some first) s (by omega)).safe
      by_cases hFirst : 0 < b
      · rw [if_pos hFirst]
        obtain ⟨last, hLast⟩ := hAt.opened hFirst
        rw [hLast, Chk.ok_bind]
        refine (h.posAfter _ last).bind fun pos _ => ?_
        rw [Chk.add_ok (hStart hExpected), Chk.ok_bind]
        split_ifs
        · exact Chk.gives_corrupt
        · exact hEntries
      · rw [if_neg hFirst]
        exact hEntries
  · rw [Chk.add, if_neg hPostings]
    exact iff_of_false (fun hSafe => hSafe rfl) fun hBoth => hPostings hBoth.1

/-- A turn that ends has opened its block and counted its entries. -/
theorem Parsed.at_of_verifyBlock (h : v.Parsed) {b : Nat} {p p' : Progress}
    (hb : b < v.toc.numBlocks.toNat) (hAt : p.At v b) (hTurn : v.verifyBlock b p = .ok p') :
    p'.At v (b + 1) := by
  have hBlocks := v.toc.numBlocks.toNat_lt
  have hCount := hAt.count
  obtain ⟨⟨first, blockOff, postingsRel⟩, -, hTurn⟩ := Chk.bind_ok hTurn
  obtain ⟨start, -, hTurn⟩ := Chk.bind_ok hTurn
  by_cases hExpected : start ≠ p.expected
  · rw [if_pos hExpected] at hTurn
    cases hTurn
  rw [if_neg hExpected] at hTurn
  obtain ⟨s, hBlock, hTurn⟩ := Chk.bind_ok hTurn
  have hEntries : v.verifyEntries b (s.remaining + 1) (some first) s p = .ok p' := by
    by_cases hFirst : 0 < b
    · rw [if_pos hFirst] at hTurn
      obtain ⟨last, -, hTurn⟩ := Chk.bind_ok hTurn
      obtain ⟨pos, -, hTurn⟩ := Chk.bind_ok hTurn
      obtain ⟨at', -, hTurn⟩ := Chk.bind_ok hTurn
      by_cases hPos : pos ≠ at'
      · rw [if_pos hPos] at hTurn
        cases hTurn
      · rwa [if_neg hPos] at hTurn
    · rwa [if_neg hFirst] at hTurn
  have hRemaining := remaining_of_block hBlock
  refine ⟨?_, fun _ => ⟨s, hBlock⟩⟩
  unfold Idx.blockSize at hRemaining hCount ⊢
  have hMore := (h.verifyEntries b (some first) s (by omega)).of_ok hEntries
  omega

/-- Where `verify` begins. -/
def startOf (v : IdxView) : Progress := ⟨0, none, v.toc.postingsOff⟩

theorem Parsed.at_of_verifyBlocks (h : v.Parsed) {b : Nat} {p : Progress}
    (hb : b ≤ v.toc.numBlocks.toNat) (hRun : v.verifyBlocks b 0 v.startOf = .ok p) :
    p.At v b := by
  induction b generalizing p with
  | zero =>
    obtain rfl := Except.ok.inj hRun
    exact ⟨Nat.zero_le _, fun hPos => absurd hPos (Nat.lt_irrefl 0)⟩
  | succ b ih =>
    rw [verifyBlocks_succ, Nat.zero_add] at hRun
    obtain ⟨p₁, hBefore, hTurn⟩ := Chk.bind_ok hRun
    exact h.at_of_verifyBlock hb (ih (Nat.le_of_succ_le hb) hBefore) hTurn

theorem Parsed.verifyBlocks_iff (h : v.Parsed) {n : Nat} (hn : n ≤ v.toc.numBlocks.toNat) :
    Chk.Safe (v.verifyBlocks n 0 v.startOf) ↔
      ∀ b < n, ∀ p, v.verifyBlocks b 0 v.startOf = .ok p → v.SumsFit b p := by
  induction n with
  | zero => exact iff_of_true trivial fun b hb => absurd hb (Nat.not_lt_zero b)
  | succ n ih =>
    rw [verifyBlocks_succ, Nat.zero_add, Chk.safe_bind_iff, ih (Nat.le_of_succ_le hn),
      Nat.forall_lt_succ_right]
    refine and_congr_right fun _ => forall_congr' fun p => ?_
    constructor
    · exact fun hTurn hRun =>
        (h.verifyBlock_iff hn (h.at_of_verifyBlocks (Nat.le_of_succ_le hn) hRun)).mp (hTurn hRun)
    · exact fun hFits hRun =>
        (h.verifyBlock_iff hn (h.at_of_verifyBlocks (Nat.le_of_succ_le hn) hRun)).mpr (hFits hRun)

/-- The full check panics exactly when, the checksum being right, it gets to a block whose
offsets do not fit. -/
theorem Parsed.verify_iff [Platform] (h : v.Parsed) : Chk.Safe v.verify ↔
    (v.env.verifyCrc v.bytes = .ok () → ∀ b < v.toc.numBlocks.toNat, ∀ p,
      v.verifyBlocks b 0 v.startOf = .ok p → v.SumsFit b p) := by
  obtain ⟨hRegion, -, -, -⟩ := h.regions
  unfold IdxView.verify
  rcases hCrc : v.env.verifyCrc v.bytes with e | ⟨⟩
  · exact iff_of_true Chk.gives_err fun hOk => nomatch hOk
  rw [← h.verifyBlocks_iff le_rfl]
  show Chk.Safe (v.verifyBlocks v.toc.numBlocks.toNat 0 v.startOf >>= _) ↔ _
  rw [Chk.safe_bind_iff]
  constructor
  · exact fun hBoth _ => hBoth.1
  · refine fun hSafe => ⟨hSafe rfl, fun p _ => ?_⟩
    split_ifs
    · exact Chk.gives_corrupt
    rw [Chk.add_ok (by omega), Chk.ok_bind]
    split_ifs
    · exact Chk.gives_corrupt
    · exact trivial

/-- The blocks that are opened: the one at which the search for some term ends, those that an
iterator gets to, and those that the full check gets to. -/
structure OpenedFit [Platform] (v : IdxView) : Prop where
  lookup : ∀ (t : String) b, v.search t.toUTF8.toList v.toc.numBlocks.toNat 0
    v.toc.numBlocks.toNat = .ok (b + 1) → v.BlockFits b
  terms : ∀ b < v.toc.numBlocks.toNat, v.takeBlocks b 0 = .ok () → v.BlockFits b
  verify : v.env.verifyCrc v.bytes = .ok () → ∀ b < v.toc.numBlocks.toNat, ∀ p,
    v.verifyBlocks b 0 v.startOf = .ok p → v.SumsFit b p

/-- The offsets of the blocks of a term dictionary that are opened. -/
def Fits [Platform] (bytes : List UInt8) : Prop :=
  ∀ v, IdxView.parse bytes = .ok v → v.OpenedFit

end IdxView

end Ripindex
