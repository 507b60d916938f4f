import Ripindex.Format.IdxView

/-!
# What the check of a posting list promises

`DiskPostingList::verify` walks a list once. Here it is shown that afterwards a cursor may be
used in any way: it never fails, and gives the postings that the walk has seen.

## Results

* `DiskCursor.Stands.step` — a cursor in a decodable list stays in it;
* `EncodedList.decodes_of_verify` — the list behind a check that succeeded.
-/

namespace Ripindex

open Format

-- ---------------------------------------------------------------------------
-- One posting
-- ---------------------------------------------------------------------------

/-- A delta leads upwards. -/
theorem lt_of_addDelta {zero overflow : String} {prev : Option UInt32} {d x : UInt32}
    (h : addDelta zero overflow prev d = .ok x) : ∀ q ∈ prev, q < x := by
  rintro q rfl
  rw [addDelta] at h
  split_ifs at h with hZero hFit
  obtain rfl := Except.ok.inj h
  have hPos : d.toNat ≠ 0 := fun hNat => hZero (UInt32.toNat_inj.mp hNat)
  rw [UInt32.lt_iff_toNat_lt, UInt32.toNat_add, Nat.mod_eq_of_lt hFit]
  omega

/-- Positions that are decoded ascend, and are as many as asked for. -/
theorem decodePositionsFrom_spec {slice : List UInt8} {n p p' : Nat} {prev : Option Position}
    {vs : List Position} (h : decodePositionsFrom slice n p prev = .ok (vs, p')) :
    vs.length = n ∧ vs.Pairwise (· < ·) ∧ ∀ q ∈ prev, ∀ x ∈ vs, q < x := by
  induction n generalizing p prev vs with
  | zero =>
    obtain ⟨rfl, -⟩ := Prod.mk.inj (Except.ok.inj h)
    exact ⟨rfl, List.Pairwise.nil, fun _ _ => List.forall_mem_nil _⟩
  | succ n ih =>
    rw [decodePositionsFrom] at h
    rcases hRead : readU32 slice p with e | ⟨d, q⟩
    · rw [hRead] at h
      cases h
    rw [hRead] at h
    replace h : (addDelta _ _ prev d >>= _) = _ := h
    rcases hDelta : addDelta "zero position delta" "position overflow" prev d with e | v
    · rw [hDelta] at h
      cases h
    rw [hDelta] at h
    replace h : (decodePositionsFrom slice n q (some v) >>= _) = _ := h
    rcases hRest : decodePositionsFrom slice n q (some v) with e | ⟨ws, r⟩
    · rw [hRest] at h
      cases h
    rw [hRest] at h
    obtain ⟨rfl, rfl⟩ := Prod.mk.inj (Except.ok.inj h)
    obtain ⟨hLen, hLt, hAbove⟩ := ih hRest
    have hAll : ∀ x ∈ ws, v < x := hAbove v rfl
    refine ⟨by rw [List.length_cons, hLen], List.pairwise_cons.mpr ⟨hAll, hLt⟩, ?_⟩
    intro q hq x hx
    have hFirst := lt_of_addDelta hDelta q hq
    rcases List.mem_cons.mp hx with rfl | hx
    · exact hFirst
    · exact UInt32.lt_trans hFirst (hAll x hx)

namespace DiskCursor

/-- The header at a place, after document `prev`. -/
def headerAt (data : List UInt8) (prev : Option DocId) (pos : Nat) :
    Except FormatError (Current × Nat) :=
  decodeHeader ⟨data, pos, 0, prev.map fun d => ⟨d, 0, 0, 0⟩, [], false, none⟩

/-- A header depends on nothing else. -/
theorem decodeHeader_eq (c : DiskCursor) :
    c.decodeHeader = headerAt c.data (c.cur.map Current.doc) c.pos := by
  unfold headerAt decodeHeader
  rcases c.cur with _ | cur
  · rfl
  · rfl

theorem headerAt_spec {data : List UInt8} {prev : Option DocId} {pos pos' : Nat} {cur : Current}
    (h : headerAt data prev pos = .ok (cur, pos')) :
    (∀ d ∈ prev, d < cur.doc) ∧ cur.tf ≠ 0 := by
  unfold headerAt decodeHeader at h
  simp only [Option.map_map] at h
  rcases hRead : readU32 data pos with e | ⟨delta, p⟩
  · rw [hRead] at h
    cases h
  rw [hRead] at h
  replace h : (addDelta _ _ (prev.map (Current.doc ∘ _)) delta >>= _) = _ := h
  have hPrev : prev.map (Current.doc ∘ fun d => ⟨d, 0, 0, 0⟩) = prev := by
    cases prev <;> rfl
  rw [hPrev] at h
  rcases hDelta : addDelta "zero doc delta" "doc id overflow" prev delta with e | doc
  · rw [hDelta] at h
    cases h
  rw [hDelta] at h
  replace h : (readU32 data p >>= _) = _ := h
  rcases hTf : readU32 data p with e | ⟨tf, q⟩
  · rw [hTf] at h
    cases h
  rw [hTf] at h
  replace h : (if tf = 0 then _ else readU32 data q >>= _) = _ := h
  by_cases hZero : tf = 0
  · rw [if_pos hZero] at h
    cases h
  rw [if_neg hZero] at h
  rcases hBytes : readU32 data q with e | ⟨n, start⟩
  · rw [hBytes] at h
    cases h
  rw [hBytes] at h
  replace h : (if start + n.toNat ≤ data.length then _ else _) = _ := h
  split_ifs at h with hFit
  obtain ⟨rfl, -⟩ := Prod.mk.inj (Except.ok.inj h)
  exact ⟨lt_of_addDelta hDelta, hZero⟩

/-- The positions behind a header. -/
def positionsAt (data : List UInt8) (cur : Current) : Except FormatError (List Position) := do
  let (vs, p) ← decodePositionsFrom (data.take cur.posEnd) cur.tf.toNat cur.posStart none
  if p = cur.posEnd then .ok vs
  else .error (.corrupt "pos_bytes disagrees with position varints")

theorem decodePositions_eq {c : DiskCursor} {cur : Current} (h : c.cur = some cur) :
    c.decodePositions = positionsAt c.data cur := by
  unfold decodePositions
  rw [h]
  rfl

theorem positionsAt_spec {data : List UInt8} {cur : Current} {vs : List Position}
    (h : positionsAt data cur = .ok vs) :
    vs.length = cur.tf.toNat ∧ vs.Pairwise (· < ·) := by
  unfold positionsAt at h
  rcases hRead : decodePositionsFrom (data.take cur.posEnd) cur.tf.toNat cur.posStart none with
    e | ⟨ws, p⟩
  · rw [hRead] at h
    cases h
  rw [hRead] at h
  replace h : (if p = cur.posEnd then Except.ok ws else _) = _ := h
  split_ifs at h
  obtain rfl := Except.ok.inj h
  obtain ⟨hLen, hLt, -⟩ := decodePositionsFrom_spec hRead
  exact ⟨hLen, hLt⟩

-- ---------------------------------------------------------------------------
-- A decodable list
-- ---------------------------------------------------------------------------

/-- Header and positions are those of the posting. -/
structure Reads (data : List UInt8) (cur : Current) (p : Posting) : Prop where
  doc_eq : cur.doc = p.doc
  positions_eq : positionsAt data cur = .ok p.positions

/-- The postings that are decoded from a place on, after document `prev`. -/
inductive Chain (data : List UInt8) : Option DocId → Nat → List Posting → Prop
  | nil {prev : Option DocId} {pos : Nat} : Chain data prev pos []
  | cons {prev : Option DocId} {pos pos' : Nat} {cur : Current} {p : Posting} {ps : List Posting}
    (hHeader : headerAt data prev pos = .ok (cur, pos')) (hReads : Reads data cur p)
    (hRest : Chain data (some p.doc) pos' ps) : Chain data prev pos (p :: ps)

/-- Postings that are decoded are as the format wants them. -/
theorem Chain.fits {data : List UInt8} {prev : Option DocId} {pos : Nat} {ps : List Posting}
    (h : Chain data prev pos ps) : Fits prev ps := by
  induction h with
  | nil => exact ⟨⟨List.Pairwise.nil, by simp, by simp, by simp⟩, by simp⟩
  | @cons prev pos pos' cur p ps hHeader hReads _ ih =>
    obtain ⟨hPrev, hTf⟩ := headerAt_spec hHeader
    obtain ⟨hLen, hLt⟩ := positionsAt_spec hReads.positions_eq
    rw [hReads.doc_eq] at hPrev
    have hDocs : ∀ q ∈ ps, p.doc < q.doc := ih.prev_lt p.doc rfl
    have hNe : p.positions ≠ [] := by
      intro hNil
      rw [hNil] at hLen
      exact hTf (UInt32.toNat_inj.mp hLen.symm)
    refine ⟨⟨List.pairwise_cons.mpr ⟨hDocs, ih.docs_lt⟩, fun d hd => ?_,
      List.forall_mem_cons.mpr ⟨hNe, ih.positions_ne_nil⟩,
      List.forall_mem_cons.mpr ⟨hLt, ih.positions_lt⟩⟩,
      List.forall_mem_cons.mpr ⟨hLen ▸ cur.tf.toNat_lt, ih.short⟩⟩
    refine List.forall_mem_cons.mpr ⟨hPrev d hd, fun q hq => ?_⟩
    exact UInt32.lt_trans (hPrev d hd) (hDocs q hq)

/-- The cursor stands in front of the postings. -/
structure Ahead (c : DiskCursor) (ps : List Posting) : Prop where
  error : c.error = none
  chain : Chain c.data (c.cur.map Current.doc) c.pos ps
  remaining : c.remaining.toNat = ps.length

/-- The postings still to come, the current one first. -/
inductive Stands (c : DiskCursor) : List Posting → Prop
  | done (hCur : c.cur = none) (hErr : c.error = none) : Stands c []
  | at {p : Posting} {ps : List Posting} {cur : Current} (hCur : c.cur = some cur)
      (hReads : Reads c.data cur p) (hDecoded : c.decoded = true → c.positions = p.positions)
      (hAhead : c.Ahead ps) : Stands c (p :: ps)

theorem Stands.error {c : DiskCursor} {ps : List Posting} (h : c.Stands ps) : c.error = none := by
  cases h with
  | done hCur hErr => exact hErr
  | «at» hCur hReads hDecoded hAhead => exact hAhead.error

-- ---------------------------------------------------------------------------
-- Steps of a cursor
-- ---------------------------------------------------------------------------

theorem Ahead.loadNext {c : DiskCursor} {ps : List Posting} (h : c.Ahead ps) :
    c.loadNext.Stands ps := by
  obtain ⟨hErr, hChain, hRem⟩ := h
  unfold DiskCursor.loadNext
  cases hChain with
  | nil =>
    have hZero : c.remaining = 0 := UInt32.toNat_inj.mp hRem
    rw [if_pos hZero]
    exact .done rfl hErr
  | @cons _ _ pos' cur p ps hHeader hReads hRest =>
    have hNonzero : ¬ c.remaining = 0 := by
      intro hZero
      rw [hZero, List.length_cons] at hRem
      exact absurd hRem (Nat.succ_ne_zero _).symm
    rw [if_neg hNonzero, decodeHeader_eq, hHeader]
    refine .at rfl hReads (fun hDec => nomatch hDec) ⟨hErr, ?_, ?_⟩
    · show Chain c.data (some cur.doc) pos' ps
      rw [hReads.doc_eq]
      exact hRest
    · rw [List.length_cons] at hRem
      have hOne : (1 : UInt32) ≤ c.remaining := by
        rw [UInt32.le_iff_toNat_le]
        show 1 ≤ c.remaining.toNat
        omega
      show (c.remaining - 1).toNat = ps.length
      rw [UInt32.toNat_sub_of_le _ _ hOne]
      show c.remaining.toNat - 1 = ps.length
      omega

/-- A cursor that has loaded a document. -/
theorem loadNext_current {c : DiskCursor} {cur : Current} (h : c.loadNext.cur = some cur) :
    c.loadNext.decoded = false ∧ c.loadNext.remaining.toNat + 1 = c.remaining.toNat := by
  unfold DiskCursor.loadNext at h ⊢
  by_cases hZero : c.remaining = 0
  · rw [if_pos hZero] at h
    cases h
  rw [if_neg hZero] at h ⊢
  rcases hHeader : c.decodeHeader with e | ⟨cur', pos'⟩
  · rw [hHeader] at h
    cases h
  have hNonzero : c.remaining.toNat ≠ 0 := fun hNat => hZero (UInt32.toNat_inj.mp hNat)
  have hOne : (1 : UInt32) ≤ c.remaining := by
    rw [UInt32.le_iff_toNat_le]
    show 1 ≤ c.remaining.toNat
    omega
  have hSub : (c.remaining - 1).toNat = c.remaining.toNat - 1 := UInt32.toNat_sub_of_le _ _ hOne
  refine ⟨rfl, ?_⟩
  show (c.remaining - 1).toNat + 1 = c.remaining.toNat
  omega

/-- What is loaded stood ahead. -/
theorem Stands.ahead {c : DiskCursor} {ps : List Posting} (h : c.loadNext.Stands ps)
    (hErr : c.error = none) : c.Ahead ps := by
  cases h with
  | done hNone hNoErr =>
    refine ⟨hErr, .nil, ?_⟩
    unfold DiskCursor.loadNext at hNone hNoErr
    by_cases hZero : c.remaining = 0
    · rw [hZero]
      rfl
    rw [if_neg hZero] at hNone hNoErr
    rcases hHeader : c.decodeHeader with e | ⟨cur', pos'⟩
    · rw [hHeader] at hNoErr
      cases hNoErr
    · rw [hHeader] at hNone
      cases hNone
  | @«at» p ps cur hCur hReads hDecoded hAhead =>
    obtain ⟨-, hRem⟩ := loadNext_current hCur
    have hZero : ¬ c.remaining = 0 := by
      intro hZero
      rw [hZero] at hRem
      cases hRem
    rcases hHeader : c.decodeHeader with e | ⟨cur', pos'⟩
    · unfold DiskCursor.loadNext at hCur
      rw [if_neg hZero, hHeader] at hCur
      cases hCur
    have hNext : c.loadNext = { c with pos := pos', cur := some cur',
                                       remaining := c.remaining - 1, decoded := false } := by
      unfold DiskCursor.loadNext
      rw [if_neg hZero, hHeader]
    have hChain := hAhead.chain
    rw [hNext] at hCur hReads hChain
    obtain rfl := Option.some.inj hCur
    rw [decodeHeader_eq] at hHeader
    refine ⟨hErr, .cons hHeader hReads ?_, ?_⟩
    · rw [← hReads.doc_eq]
      exact hChain
    · rw [List.length_cons, ← hAhead.remaining, hRem]

/-- Positions may be asked for at any time, also behind the last document. -/
theorem Stands.loadPositions {c : DiskCursor} {ps : List Posting} (h : c.Stands ps) :
    c.loadPositions.Stands ps ∧ ∀ p ∈ ps.head?, c.loadPositions.positions = p.positions := by
  unfold DiskCursor.loadPositions
  cases h with
  | done hCur hErr =>
    refine ⟨?_, fun p hp => nomatch hp⟩
    split_ifs with hDec
    · exact .done hCur hErr
    · have hStay : c.decodePositions = .ok c.positions := by
        unfold decodePositions
        rw [hCur]
      rw [hStay]
      exact .done hCur hErr
  | @«at» p ps cur hCur hReads hDecoded hAhead =>
    split_ifs with hDec
    · refine ⟨.at hCur hReads hDecoded hAhead, ?_⟩
      rintro _ ⟨⟩
      exact hDecoded hDec
    · rw [decodePositions_eq hCur, hReads.positions_eq]
      obtain ⟨hErr, hChain, hRem⟩ := hAhead
      refine ⟨.at hCur hReads (fun _ => rfl) ⟨hErr, hChain, hRem⟩, ?_⟩
      rintro _ ⟨⟩
      rfl

/-- A cursor in a list that can be decoded. -/
theorem follows_stands : Follows Stands where
  error := fun _ _ h => h.error
  done := by
    rintro c ⟨hCur, -⟩
    exact hCur
  current := by
    rintro c p ps (_ | ⟨hCur, hReads, -⟩)
    obtain ⟨hLen, -⟩ := positionsAt_spec hReads.positions_eq
    exact ⟨_, hCur, hReads.doc_eq, by rw [hLen, UInt32.ofNat_toNat]⟩
  remaining := by
    rintro c p ps (_ | ⟨-, -, -, hAhead⟩)
    exact hAhead.remaining
  next := by
    rintro c p ps (_ | ⟨-, -, -, hAhead⟩)
    exact hAhead.loadNext
  loaded := fun _ _ _ h => ⟨h.loadPositions.2 _ rfl, h.loadPositions.1⟩

/-- Whatever is called, the cursor stays in the list. -/
theorem Stands.step {c : DiskCursor} {ps : List Posting} (h : c.Stands ps) (op : CursorOp) :
    ∃ ps', (c.step op).2.Stands ps' := by
  cases op with
  | doc => exact ⟨ps, h⟩
  | advance => exact ⟨_, follows_stands.advance h⟩
  | seek target => exact ⟨_, follows_stands.seek h⟩
  | positions => exact ⟨ps, h.loadPositions.1⟩
  | termFreq => exact ⟨ps, h⟩

theorem Stands.run {c : DiskCursor} {ps : List Posting} (h : c.Stands ps) (ops : List CursorOp) :
    (c.run ops).2.error = none := by
  induction ops generalizing c ps with
  | nil => exact h.error
  | cons op ops ih =>
    obtain ⟨ps', hNext⟩ := h.step op
    exact ih hNext

end DiskCursor

-- ---------------------------------------------------------------------------
-- The check
-- ---------------------------------------------------------------------------

namespace EncodedList

open DiskCursor

/-- What the loop of `verify` has walked through without an error. -/
theorem stands_of_verifyLoop {fuel : Nat} {n count : UInt32} {c c' : DiskCursor}
    (h : verifyLoop fuel n c = (count, c')) (hErr : c'.error = none)
    (hFresh : ∀ cur, c.cur = some cur → c.decoded = false)
    (hCount : ∀ cur, c.cur = some cur →
      n.toNat + 1 + c.remaining.toNat = count.toNat) :
    ∃ ps, c.Stands ps ∧ n.toNat + ps.length = count.toNat := by
  induction fuel generalizing n c with
  | zero =>
    obtain ⟨rfl, rfl⟩ := Prod.mk.inj h
    rcases hCur : c.cur with _ | cur
    · exact ⟨[], .done hCur hErr, rfl⟩
    · -- There is fuel for every document.
      have := hCount cur hCur
      omega
  | succ fuel ih =>
    rw [verifyLoop] at h
    rcases hCur : c.cur with _ | cur
    · have hNone : c.doc.isNone = true := by
        unfold DiskCursor.doc
        rw [hCur]
        rfl
      rw [if_pos (Or.inl hNone)] at h
      obtain ⟨rfl, rfl⟩ := Prod.mk.inj h
      exact ⟨[], .done hCur hErr, rfl⟩
    have hDoc : c.doc = some cur.doc := by
      unfold DiskCursor.doc
      rw [hCur]
      rfl
    by_cases hFailed : c.error.isSome = true
    · rw [if_pos (Or.inr hFailed)] at h
      obtain ⟨-, rfl⟩ := Prod.mk.inj h
      rw [hErr] at hFailed
      cases hFailed
    have hNoErr : c.error = none := Option.not_isSome_iff_eq_none.mp hFailed
    have hGo : ¬ (c.doc.isNone = true ∨ c.error.isSome = true) := by
      rw [hDoc, hNoErr]
      simp
    rw [if_neg hGo] at h
    have hDec := hFresh cur hCur
    have hTotal := hCount cur hCur
    have hCountLt := count.toNat_lt
    simp only at h
    rcases hPositions : positionsAt c.data cur with e | vs
    · -- The positions cannot be read: the cursor has failed.
      have hLoad : c.loadPositions = { c.fail e with positions := [], decoded := true } := by
        unfold DiskCursor.loadPositions
        rw [hDec, decodePositions_eq hCur, hPositions]
        rfl
      have hStop : ∀ x, ((x, c.loadPositions) : UInt32 × DiskCursor) = (count, c') → False := by
        intro x hx
        obtain ⟨-, rfl⟩ := Prod.mk.inj hx
        rw [hLoad] at hErr
        cases hErr
      split_ifs at h with hLen
      · exact (hStop _ h).elim
      · have hDone : c.loadPositions.advance = c.loadPositions := by
          rw [hLoad]
          rfl
        rw [hDone] at h
        have hEnd : verifyLoop fuel (n + 1) c.loadPositions = (n + 1, c.loadPositions) := by
          cases fuel with
          | zero => rfl
          | succ fuel =>
            rw [verifyLoop, if_pos (Or.inl (by rw [hLoad]; rfl))]
        rw [hEnd] at h
        exact (hStop _ h).elim
    obtain ⟨hLen, -⟩ := positionsAt_spec hPositions
    have hLoad : c.loadPositions = { c with positions := vs, decoded := true } := by
      unfold DiskCursor.loadPositions
      rw [hDec, decodePositions_eq hCur, hPositions]
      rfl
    have hTf : c.termFreq = cur.tf := by
      unfold DiskCursor.termFreq
      rw [hCur]
      rfl
    rw [hTf, hLoad, if_neg (not_not_intro hLen)] at h
    have hOne : (n + 1).toNat = n.toNat + 1 := by
      rw [UInt32.toNat_add]
      show (n.toNat + 1) % 2 ^ 32 = _
      exact Nat.mod_eq_of_lt (by omega)
    have hMove : ({ c with positions := vs, decoded := true } : DiskCursor).advance =
        ({ c with positions := vs, decoded := true } : DiskCursor).loadNext := by
      unfold DiskCursor.advance
      rw [if_pos (by rw [hCur]; rfl)]
    rw [hMove] at h
    have hReads : Reads c.data cur ⟨cur.doc, vs⟩ := ⟨rfl, hPositions⟩
    obtain ⟨ps, hStands, hPs⟩ := ih h (fun _ hc => (loadNext_current hc).1) (fun _ hc => by
      obtain ⟨-, hRem⟩ := loadNext_current hc
      replace hRem : _ = c.remaining.toNat := hRem
      omega)
    obtain ⟨-, hChain, hRem⟩ := hStands.ahead hNoErr
    refine ⟨⟨cur.doc, vs⟩ :: ps, .at hCur hReads (fun h => ?_) ⟨hNoErr, hChain, hRem⟩, ?_⟩
    · rw [hDec] at h
      cases h
    · rw [List.length_cons]
      omega

/-- The list decodes as the postings: however its cursor is used, it does not fail, and answers
as a cursor in memory. -/
structure Decodes (l : EncodedList) (ps : List Posting) : Prop extends Fits none ps where
  length_eq : ps.length = l.docFreq.toNat
  agree : Agree (MemPostingCursor.new ps) (DiskCursor.new l.data)
  error : ∀ ops, ((DiskCursor.new l.data).run ops).2.error = none

/-- The list behind a check that succeeded. -/
theorem decodes_of_verify {l : EncodedList} (h : l.verify = .ok ()) : ∃ ps, l.Decodes ps := by
  unfold verify at h
  rcases hRead : readU32 l.data 0 with e | ⟨count, pos⟩
  · rw [hRead] at h
    cases h
  rw [hRead] at h
  simp only [bind, Except.bind] at h
  by_cases hFreq : count ≠ l.docFreq
  · rw [if_pos hFreq] at h
    cases h
  rw [if_neg hFreq] at h
  rw [not_not] at hFreq
  rcases hLoop : verifyLoop (count.toNat + 1) 0 (DiskCursor.new l.data) with ⟨n, c'⟩
  rw [hLoop] at h
  simp only at h
  rcases hErr : c'.error with _ | e
  · rw [hErr] at h
    simp only at h
    by_cases hEnd : n ≠ count ∨ c'.pos ≠ l.data.length
    · rw [if_pos hEnd] at h
      cases h
    obtain rfl : n = count := not_not.mp fun hNe => hEnd (Or.inl hNe)
    have hNew : DiskCursor.new l.data =
        (⟨l.data, pos, n, none, [], false, none⟩ : DiskCursor).loadNext := by
      unfold DiskCursor.new
      simp only [hRead]
    rw [hNew] at hLoop
    obtain ⟨ps, hStands, hLen⟩ := stands_of_verifyLoop hLoop hErr
      (fun _ hc => (loadNext_current hc).1) (fun _ hc => by
        obtain ⟨-, hRem⟩ := loadNext_current hc
        show 0 + 1 + _ = _
        rw [Nat.zero_add, Nat.add_comm]
        exact hRem)
    replace hLen : 0 + ps.length = n.toNat := hLen
    have hFits : Fits none ps := (hStands.ahead rfl).chain.fits
    rw [← hNew] at hStands
    refine ⟨ps, ⟨hFits, ?_, follows_stands.agree hFits.docs_lt hStands, hStands.run⟩⟩
    rw [← hFreq]
    omega
  · rw [hErr] at h
    cases h

end EncodedList

end Ripindex
