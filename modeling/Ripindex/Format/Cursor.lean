import Mathlib.Data.List.Basic
import Ripindex.Format.Idx
import Ripindex.Format.Varint
import Ripindex.Index.Cursor

/-!
# The cursor over encoded postings

`DiskCursor` of `format/idx.rs`: a lazy decoder over the bytes of one posting list. Headers are
decoded as the cursor moves, positions when they are asked for.

## Results

* `DiskCursor.agree_iff` — it answers as the in-memory cursor does, whatever is called in
  whatever order, exactly when the lengths of the list fit in `u32`.
-/

namespace Ripindex

open Format

structure Current where
  doc : DocId
  tf : UInt32
  posStart : Nat
  posEnd : Nat
  deriving DecidableEq, Repr

/-- A cursor that failed keeps the position it had: nothing reads it any more. -/
structure DiskCursor where
  data : List UInt8
  pos : Nat
  remaining : UInt32
  cur : Option Current
  positions : List Position
  decoded : Bool
  error : Option FormatError
  deriving DecidableEq, Repr

/-- The value a delta leads to: documents and positions are coded alike. -/
def addDelta (zero overflow : String) : Option UInt32 → UInt32 → Except FormatError UInt32
  | none, d => .ok d
  | some q, d =>
    if d = 0 then .error (.corrupt zero)
    else if q.toNat + d.toNat < 2 ^ 32 then .ok (q + d)
    else .error (.corrupt overflow)

/-- The loop of `decode_positions`: the positions of a slice with the place behind them. -/
def decodePositionsFrom (slice : List UInt8) :
    Nat → Nat → Option Position → Except FormatError (List Position × Nat)
  | 0, p, _ => .ok ([], p)
  | n + 1, p, prev => do
    let (d, p) ← readU32 slice p
    let v ← addDelta "zero position delta" "position overflow" prev d
    let (vs, p) ← decodePositionsFrom slice n p (some v)
    pure (v :: vs, p)

namespace DiskCursor

def fail (c : DiskCursor) (e : FormatError) : DiskCursor :=
  { c with error := some e, cur := none, remaining := 0 }

/-- The header at the position, with the position behind its positions. -/
def decodeHeader (c : DiskCursor) : Except FormatError (Current × Nat) := do
  let (delta, pos) ← readU32 c.data c.pos
  let doc ← addDelta "zero doc delta" "doc id overflow" (c.cur.map Current.doc) delta
  let (tf, pos) ← readU32 c.data pos
  if tf = 0 then .error (.corrupt "zero term frequency")
  else
    let (posBytes, posStart) ← readU32 c.data pos
    let posEnd := posStart + posBytes.toNat
    if posEnd ≤ c.data.length then .ok (⟨doc, tf, posStart, posEnd⟩, posEnd)
    else .error .truncated

def loadNext (c : DiskCursor) : DiskCursor :=
  if c.remaining = 0 then { c with cur := none }
  else
    match c.decodeHeader with
    | .ok (cur, pos) =>
      { c with pos := pos, cur := some cur, remaining := c.remaining - 1, decoded := false }
    | .error e => c.fail e

def new (data : List UInt8) : DiskCursor :=
  let c : DiskCursor := ⟨data, 0, 0, none, [], false, none⟩
  loadNext <|
    match readU32 data 0 with
    | .ok (n, pos) => { c with remaining := n, pos := pos }
    | .error e => c.fail e

def doc (c : DiskCursor) : Option DocId := c.cur.map Current.doc

def advance (c : DiskCursor) : DiskCursor := if c.cur.isSome then c.loadNext else c

/-- The loop of `seek`. Every turn takes one from `remaining` or ends the list. -/
def seekLoop (target : DocId) : Nat → DiskCursor → DiskCursor
  | 0, c => c
  | fuel + 1, c =>
    match c.cur with
    | none => c
    | some cur => if target ≤ cur.doc then c else seekLoop target fuel c.loadNext

def seek (c : DiskCursor) (target : DocId) : DiskCursor :=
  seekLoop target (c.remaining.toNat + 1) c

/-- `decode_positions`; without a current document the buffer stays. -/
def decodePositions (c : DiskCursor) : Except FormatError (List Position) :=
  match c.cur with
  | none => .ok c.positions
  | some cur => do
    let (vs, p) ← decodePositionsFrom (c.data.take cur.posEnd) cur.tf.toNat cur.posStart none
    if p = cur.posEnd then .ok vs
    else .error (.corrupt "pos_bytes disagrees with position varints")

/-- `positions`: the cursor afterwards, whose buffer is what is returned. -/
def loadPositions (c : DiskCursor) : DiskCursor :=
  if c.decoded then c
  else
    match c.decodePositions with
    | .ok vs => { c with positions := vs, decoded := true }
    | .error e => { c.fail e with positions := [], decoded := true }

def termFreq (c : DiskCursor) : UInt32 := (c.cur.map Current.tf).getD 0

def step : CursorOp → DiskCursor → CursorResult × DiskCursor
  | .doc, c => (.doc c.doc, c)
  | .advance, c => (.doc c.advance.doc, c.advance)
  | .seek target, c => (.doc (c.seek target).doc, c.seek target)
  | .positions, c => (.positions c.loadPositions.positions, c.loadPositions)
  | .termFreq, c => (.termFreq c.termFreq, c)

def run : List CursorOp → DiskCursor → List CursorResult × DiskCursor
  | [], c => ([], c)
  | op :: ops, c => ((step op c).1 :: (run ops (step op c).2).1, (run ops (step op c).2).2)

/-- The two cursors answer alike, whatever is called in whatever order, as long as positions and
frequencies are asked for while a document is current; and the disk cursor does not fail. -/
def Agree (m : MemPostingCursor) (c : DiskCursor) : Prop :=
  ∀ ops results m', m.run ops = some (results, m') →
    (c.run ops).1 = results ∧ (c.run ops).2.error = none

end DiskCursor

-- ---------------------------------------------------------------------------
-- Deltas
-- ---------------------------------------------------------------------------

/-- Subtracting what came before, as the encoder does, is undone. -/
theorem addDelta_sub {zero overflow : String} {prev : Option UInt32} {x : UInt32}
    (h : ∀ q ∈ prev, q < x) : addDelta zero overflow prev (x - prev.getD 0) = .ok x := by
  cases prev with
  | none =>
    show Except.ok (x - 0) = _
    rw [UInt32.sub_zero]
  | some q =>
    have hLt : q < x := h q rfl
    have hNat : q.toNat < x.toNat := UInt32.lt_iff_toNat_lt.mp hLt
    have hSub : (x - q).toNat = x.toNat - q.toNat :=
      UInt32.toNat_sub_of_le _ _ (UInt32.le_of_lt hLt)
    have hx := x.toNat_lt
    have hNe : ¬ x - q = 0 := by
      intro hZero
      rw [hZero] at hSub
      have : (0 : UInt32).toNat = 0 := rfl
      omega
    show (if x - q = 0 then _ else if q.toNat + (x - q).toNat < 2 ^ 32 then
      Except.ok (q + (x - q)) else _) = _
    rw [if_neg hNe, if_pos (by omega)]
    congr 1
    exact UInt32.toNat_inj.mp (by rw [UInt32.toNat_add, hSub]; omega)

/-- Strictly ascending numbers of 32 bits: there are at most `2 ^ 32`. -/
theorem length_le_of_ascending {prev : Option UInt32} {xs : List UInt32}
    (hLt : xs.Pairwise (· < ·)) (hPrev : ∀ q ∈ prev, ∀ x ∈ xs, q < x) :
    xs.length + (prev.map fun q => q.toNat + 1).getD 0 ≤ 2 ^ 32 := by
  induction xs generalizing prev with
  | nil =>
    cases prev with
    | none => decide
    | some q =>
      have hq := q.toNat_lt
      show 0 + (q.toNat + 1) ≤ 2 ^ 32
      omega
  | cons x xs ih =>
    obtain ⟨hx, hLt⟩ := List.pairwise_cons.mp hLt
    have hRest : xs.length + (x.toNat + 1) ≤ 2 ^ 32 := @ih (some x) hLt fun q hq y hy => by
      obtain rfl : x = q := by simpa using hq
      exact hx y hy
    cases prev with
    | none =>
      show xs.length + 1 + 0 ≤ 2 ^ 32
      omega
    | some q =>
      have hq := UInt32.lt_iff_toNat_lt.mp (hPrev q rfl x List.mem_cons_self)
      show xs.length + 1 + (q.toNat + 1) ≤ 2 ^ 32
      omega

/-- A varint is short beside its value. -/
theorem putVarintFuel_length_le (f x : Nat) :
    2 * (putVarintFuel f x).length ≤ x + 2 ∧
      (0 < x → 2 * (putVarintFuel f x).length ≤ x + 1) := by
  induction f generalizing x with
  | zero =>
    show 2 * 1 ≤ x + 2 ∧ (0 < x → 2 * 1 ≤ x + 1)
    omega
  | succ f ih =>
    rw [putVarintFuel]
    split_ifs with hSmall
    · show 2 * 1 ≤ x + 2 ∧ (0 < x → 2 * 1 ≤ x + 1)
      omega
    · have hRest := (ih (x / 128)).2 (by omega)
      rw [List.length_cons]
      omega

/-- Deltas of ascending positions: each takes half its value, and they add up to the last. -/
theorem positionsBytes_length_le {q : Position} {ps : List Position}
    (hLt : ps.Pairwise (· < ·)) (hPrev : ∀ p ∈ ps, q < p) :
    2 * (Idx.positionsBytes (some q) ps).length + q.toNat ≤ ps.length + (2 ^ 32 - 1) := by
  induction ps generalizing q with
  | nil =>
    have hq := q.toNat_lt
    show 2 * 0 + q.toNat ≤ 0 + (2 ^ 32 - 1)
    omega
  | cons p ps ih =>
    obtain ⟨hp, hLt⟩ := List.pairwise_cons.mp hLt
    have hqp := hPrev p List.mem_cons_self
    have hSub : (p - q).toNat = p.toNat - q.toNat :=
      UInt32.toNat_sub_of_le _ _ (UInt32.le_of_lt hqp)
    rw [UInt32.lt_iff_toNat_lt] at hqp
    have hHead : 2 * (putU32 (p - q)).length ≤ (p - q).toNat + 1 :=
      (putVarintFuel_length_le 9 _).2 (by omega)
    have hRest := ih hLt hp
    show 2 * (putU32 (p - q) ++ Idx.positionsBytes (some p) ps).length + q.toNat ≤ _
    rw [List.length_append, List.length_cons]
    omega

/-- The length of a posting's positions fits where their number does. -/
theorem positionsBytes_length_lt {ps : List Position} (hLt : ps.Pairwise (· < ·))
    (hLen : ps.length < 2 ^ 32) : (Idx.positionsBytes none ps).length < 2 ^ 32 := by
  cases ps with
  | nil => decide
  | cons p ps =>
    obtain ⟨hp, hLt⟩ := List.pairwise_cons.mp hLt
    have hHead : 2 * (putU32 (p - 0)).length ≤ (p - 0).toNat + 2 :=
      (putVarintFuel_length_le 9 _).1
    have hRest := positionsBytes_length_le hLt hp
    rw [UInt32.sub_zero] at hHead
    rw [List.length_cons] at hLen
    show (putU32 (p - 0) ++ Idx.positionsBytes (some p) ps).length < _
    rw [UInt32.sub_zero, List.length_append]
    omega

/-- The encoded positions are decoded. -/
theorem decodePositionsFrom_positionsBytes {slice : List UInt8} {prev : Option Position}
    {ps : List Position} {p : Nat} (hAt : At slice p (Idx.positionsBytes prev ps))
    (hLt : ps.Pairwise (· < ·)) (hPrev : ∀ q ∈ prev, ∀ x ∈ ps, q < x) :
    decodePositionsFrom slice ps.length p prev =
      .ok (ps, p + (Idx.positionsBytes prev ps).length) := by
  induction ps generalizing prev p with
  | nil => rfl
  | cons x ps ih =>
    obtain ⟨hx, hLt⟩ := List.pairwise_cons.mp hLt
    replace hAt : At slice p (putU32 (x - prev.getD 0) ++ Idx.positionsBytes (some x) ps) := hAt
    have hDelta : addDelta "zero position delta" "position overflow" prev (x - prev.getD 0) =
        .ok x := addDelta_sub fun q hq => hPrev q hq x List.mem_cons_self
    have hRest := @ih (some x) _ hAt.right hLt fun q hq y hy => by
      obtain rfl : x = q := by simpa using hq
      exact hx y hy
    rw [List.length_cons, decodePositionsFrom, readU32_putU32 hAt.left]
    simp only [bind, Except.bind, pure, Except.pure, hDelta, hRest, Idx.positionsBytes,
      List.length_append, Nat.add_assoc]

-- ---------------------------------------------------------------------------
-- The simulation
-- ---------------------------------------------------------------------------

/-- What the encoder asks of the postings after document `prev`, with lengths that fit in
`u32`. -/
structure Fits (prev : Option DocId) (ps : List Posting) : Prop extends Idx.Encodable prev ps where
  short : ∀ p ∈ ps, p.positions.length < 2 ^ 32

theorem Fits.tail {prev : Option DocId} {p : Posting} {ps : List Posting}
    (h : Fits prev (p :: ps)) : Fits (some p.doc) ps :=
  ⟨h.toEncodable.tail, fun q hq => h.short q (List.mem_cons_of_mem _ hq)⟩

theorem Fits.drop {ps : List Posting} (h : Fits none ps) (n : Nat) : Fits none (ps.drop n) where
  docs_lt := h.docs_lt.sublist (List.drop_sublist _ _)
  prev_lt := by simp
  positions_ne_nil := fun p hp => h.positions_ne_nil p (List.mem_of_mem_drop hp)
  positions_lt := fun p hp => h.positions_lt p (List.mem_of_mem_drop hp)
  short := fun p hp => h.short p (List.mem_of_mem_drop hp)

namespace DiskCursor

/-- The cursor stands in front of the bytes of `ps`. -/
structure Pending (c : DiskCursor) (ps : List Posting) : Prop where
  error : c.error = none
  pos_le : c.pos ≤ c.data.length
  at_pos : At c.data c.pos (Idx.postingsBytesFrom (c.cur.map Current.doc) ps)
  remaining : c.remaining.toNat = ps.length

/-- The current document is that of the posting, and its positions lie where the header says. -/
structure Shows (c : DiskCursor) (p : Posting) (cur : Current) : Prop where
  cur_eq : c.cur = some cur
  doc_eq : cur.doc = p.doc
  tf_eq : cur.tf = UInt32.ofNat p.positions.length
  at_start : At c.data cur.posStart (Idx.positionsBytes none p.positions)
  posEnd_eq : cur.posEnd = cur.posStart + (Idx.positionsBytes none p.positions).length
  decoded : c.decoded = true → c.positions = p.positions

/-- The postings still to come, the current one first. -/
inductive Tracks (c : DiskCursor) : List Posting → Prop
  | done (hCur : c.cur = none) (hErr : c.error = none) : Tracks c []
  | at {p : Posting} {ps : List Posting} {cur : Current} (hShows : c.Shows p cur)
      (hPending : c.Pending ps) : Tracks c (p :: ps)

theorem Tracks.error {c : DiskCursor} {ps : List Posting} (h : c.Tracks ps) : c.error = none := by
  cases h with
  | done hCur hErr => exact hErr
  | «at» hShows hPending => exact hPending.error

/-- The header in front of the cursor, up to the check of the frequency. -/
theorem decodeHeader_pending {c : DiskCursor} {p : Posting} {ps : List Posting}
    (h : c.Pending (p :: ps)) (hPrev : ∀ d ∈ c.cur.map Current.doc, d < p.doc) :
    ∃ pos, At c.data pos
        (putU32 (UInt32.ofNat (Idx.positionsBytes none p.positions).length) ++
          (Idx.positionsBytes none p.positions ++ Idx.postingsBytesFrom (some p.doc) ps)) ∧
      pos ≤ c.data.length ∧
      pos + (putU32 (UInt32.ofNat (Idx.positionsBytes none p.positions).length)).length +
          (Idx.positionsBytes none p.positions).length +
            (Idx.postingsBytesFrom (some p.doc) ps).length =
        c.pos + (Idx.postingsBytesFrom (c.cur.map Current.doc) (p :: ps)).length ∧
      c.decodeHeader =
        if UInt32.ofNat p.positions.length = 0 then .error (.corrupt "zero term frequency")
        else
          readU32 c.data pos >>= fun (n, start) =>
            if start + n.toNat ≤ c.data.length then
              .ok (⟨p.doc, UInt32.ofNat p.positions.length, start, start + n.toNat⟩,
                start + n.toNat)
            else .error .truncated := by
  have hDoc := h.at_pos
  rw [Idx.postingsBytesFrom] at hDoc
  have hTf := hDoc.right
  have hLe1 := hDoc.left.length_le h.pos_le
  refine ⟨_, hTf.right, hTf.left.length_le hLe1, ?_, ?_⟩
  · rw [Idx.postingsBytesFrom]
    simp only [List.length_append]
    omega
  unfold decodeHeader
  rw [readU32_putU32 hDoc.left]
  show (addDelta _ _ _ _ >>= _) = _
  rw [addDelta_sub hPrev]
  show (readU32 _ _ >>= _) = _
  rw [readU32_putU32 hTf.left]
  rfl

theorem Pending.remaining_ne_zero {c : DiskCursor} {p : Posting} {ps : List Posting}
    (h : c.Pending (p :: ps)) : ¬ c.remaining = 0 := by
  intro hZero
  have hRem := h.remaining
  rw [hZero, List.length_cons] at hRem
  have : (0 : UInt32).toNat = 0 := rfl
  omega

/-- Loading a posting whose number of positions fits. -/
theorem Pending.loadNext {c : DiskCursor} {p : Posting} {ps : List Posting}
    (h : c.Pending (p :: ps)) (hOk : Idx.Encodable (c.cur.map Current.doc) (p :: ps))
    (hLen : p.positions.length < 2 ^ 32) :
    ∃ cur, c.loadNext.Shows p cur ∧ c.loadNext.Pending ps ∧ c.loadNext.data = c.data ∧
      c.loadNext.pos + (Idx.postingsBytesFrom (some p.doc) ps).length =
        c.pos + (Idx.postingsBytesFrom (c.cur.map Current.doc) (p :: ps)).length := by
  obtain ⟨pos, hAt, hPos, hTotal, hHeader⟩ := decodeHeader_pending h
    fun d hd => hOk.prev_lt d hd p List.mem_cons_self
  have hBytes := positionsBytes_length_lt (hOk.positions_lt p List.mem_cons_self) hLen
  have hTf : ¬ UInt32.ofNat p.positions.length = 0 := by
    intro hZero
    have hNat := UInt32.toNat_ofNat_of_lt' hLen
    rw [hZero] at hNat
    exact hOk.positions_ne_nil p List.mem_cons_self (List.length_eq_zero_iff.mp hNat.symm)
  have hEnd := hAt.right.left.length_le (hAt.left.length_le hPos)
  have hToNat := UInt32.toNat_ofNat_of_lt' hBytes
  rw [if_neg hTf, readU32_putU32 hAt.left] at hHeader
  simp only [bind, Except.bind, hToNat, if_pos hEnd] at hHeader
  unfold DiskCursor.loadNext
  rw [if_neg h.remaining_ne_zero, hHeader]
  refine ⟨_, ⟨rfl, rfl, rfl, hAt.right.left, rfl, fun hDec => ?_⟩, ⟨h.error, hEnd, ?_, ?_⟩,
    rfl, hTotal⟩
  · cases hDec
  · exact hAt.right.right
  · have hRem := h.remaining
    rw [List.length_cons] at hRem
    have hOne : (1 : UInt32) ≤ c.remaining := by
      rw [UInt32.le_iff_toNat_le]
      show 1 ≤ c.remaining.toNat
      omega
    show (c.remaining - 1).toNat = ps.length
    rw [UInt32.toNat_sub_of_le _ _ hOne]
    show c.remaining.toNat - 1 = ps.length
    omega

/-- Loading what comes next. -/
theorem loadNext_tracks {c : DiskCursor} {ps : List Posting} (h : c.Pending ps)
    (hFits : Fits (c.cur.map Current.doc) ps) : c.loadNext.Tracks ps := by
  cases ps with
  | nil =>
    have hZero : c.remaining = 0 := UInt32.toNat_inj.mp h.remaining
    unfold loadNext
    rw [if_pos hZero]
    exact .done rfl h.error
  | cons p ps =>
    obtain ⟨cur, hShows, hPending, -⟩ :=
      h.loadNext hFits.toEncodable (hFits.short p List.mem_cons_self)
    exact .at hShows hPending

/-- A posting of `2 ^ 32` positions is written with the frequency zero, which the reader
refuses. -/
theorem loadNext_error {c : DiskCursor} {p : Posting} {ps : List Posting}
    (h : c.Pending (p :: ps)) (hPrev : ∀ d ∈ c.cur.map Current.doc, d < p.doc)
    (hLen : p.positions.length = 2 ^ 32) : c.loadNext.error ≠ none := by
  obtain ⟨pos, -, -, -, hHeader⟩ := decodeHeader_pending h hPrev
  have hTf : UInt32.ofNat p.positions.length = 0 := by
    rw [hLen]
    rfl
  rw [if_pos hTf] at hHeader
  unfold loadNext
  rw [if_neg h.remaining_ne_zero, hHeader]
  intro hErr
  cases hErr

/-- The bytes a cursor reads are its list's. -/
theorem decodePositions_shows {c : DiskCursor} {p : Posting} {cur : Current}
    (h : c.Shows p cur) (hLt : p.positions.Pairwise (· < ·))
    (hLen : p.positions.length < 2 ^ 32) : c.decodePositions = .ok p.positions := by
  have hSlice : At (c.data.take cur.posEnd) cur.posStart
      (Idx.positionsBytes none p.positions) :=
    ⟨[], by rw [h.posEnd_eq, h.at_start.take, List.append_nil]⟩
  have hRead := decodePositionsFrom_positionsBytes hSlice hLt (by simp)
  unfold decodePositions
  rw [h.cur_eq]
  show (decodePositionsFrom _ cur.tf.toNat _ _ >>= _) = _
  rw [h.tf_eq, UInt32.toNat_ofNat_of_lt' hLen, hRead]
  show (if cur.posStart + _ = cur.posEnd then _ else _) = _
  rw [if_pos h.posEnd_eq.symm]

theorem loadPositions_tracks {c : DiskCursor} {p : Posting} {ps : List Posting}
    {prev : Option DocId} (h : c.Tracks (p :: ps)) (hFits : Fits prev (p :: ps)) :
    c.loadPositions.positions = p.positions ∧ c.loadPositions.Tracks (p :: ps) := by
  unfold loadPositions
  cases h with
  | «at» hShows hPending =>
    split_ifs with hDec
    · exact ⟨hShows.decoded hDec, .at hShows hPending⟩
    · rw [decodePositions_shows hShows (hFits.positions_lt p List.mem_cons_self)
        (hFits.short p List.mem_cons_self)]
      obtain ⟨hCur, hDoc, hTf, hStart, hEnd, -⟩ := hShows
      obtain ⟨hErr, hPos, hAt, hRem⟩ := hPending
      exact ⟨rfl, .at ⟨hCur, hDoc, hTf, hStart, hEnd, fun _ => rfl⟩ ⟨hErr, hPos, hAt, hRem⟩⟩

theorem tail_tracks {c : DiskCursor} {p : Posting} {ps : List Posting} {prev : Option DocId}
    (h : c.Tracks (p :: ps)) (hFits : Fits prev (p :: ps)) : c.loadNext.Tracks ps := by
  cases h with
  | «at» hShows hPending =>
    refine loadNext_tracks hPending ?_
    rw [hShows.cur_eq, Option.map_some, hShows.doc_eq]
    exact hFits.tail

-- ---------------------------------------------------------------------------
-- Following a list
-- ---------------------------------------------------------------------------

/-- A relation between a cursor and the postings ahead of it, the current one first, that the
calls keep. -/
structure Follows (R : DiskCursor → List Posting → Prop) : Prop where
  error : ∀ c ps, R c ps → c.error = none
  done : ∀ c, R c [] → c.cur = none
  current : ∀ c p ps, R c (p :: ps) →
    ∃ cur, c.cur = some cur ∧ cur.doc = p.doc ∧ cur.tf = UInt32.ofNat p.positions.length
  remaining : ∀ c p ps, R c (p :: ps) → c.remaining.toNat = ps.length
  next : ∀ c p ps, R c (p :: ps) → R c.loadNext ps
  loaded : ∀ c p ps, R c (p :: ps) →
    c.loadPositions.positions = p.positions ∧ R c.loadPositions (p :: ps)

section Follows

variable {R : DiskCursor → List Posting → Prop} {c : DiskCursor} {ps : List Posting}

theorem Follows.doc (hR : Follows R) (h : R c ps) : c.doc = ps.head?.map Posting.doc := by
  unfold DiskCursor.doc
  cases ps with
  | nil =>
    rw [hR.done c h]
    rfl
  | cons p ps =>
    obtain ⟨cur, hCur, hDoc, -⟩ := hR.current c p ps h
    rw [hCur]
    exact congrArg some hDoc

theorem Follows.advance (hR : Follows R) (h : R c ps) : R c.advance (ps.drop 1) := by
  unfold DiskCursor.advance
  cases ps with
  | nil =>
    rw [hR.done c h]
    exact h
  | cons p ps =>
    obtain ⟨cur, hCur, -⟩ := hR.current c p ps h
    rw [if_pos (by rw [hCur, Option.isSome_some])]
    exact hR.next c p ps h

theorem Follows.seekLoop (hR : Follows R) {target : DocId} {fuel : Nat} (h : R c ps)
    (hFuel : ps.length ≤ fuel) :
    R (DiskCursor.seekLoop target fuel c) (ps.dropWhile fun p => p.doc < target) := by
  induction ps generalizing fuel c with
  | nil =>
    have hStay : DiskCursor.seekLoop target fuel c = c := by
      cases fuel with
      | zero => rfl
      | succ fuel => rw [DiskCursor.seekLoop, hR.done c h]
    rw [hStay, List.dropWhile_nil]
    exact h
  | cons p ps ih =>
    obtain ⟨fuel, rfl⟩ : ∃ k, fuel = k + 1 :=
      ⟨fuel - 1, by rw [List.length_cons] at hFuel; omega⟩
    obtain ⟨cur, hCur, hDoc, -⟩ := hR.current c p ps h
    rw [DiskCursor.seekLoop, hCur]
    show R (if target ≤ cur.doc then c else _) _
    rw [hDoc, List.dropWhile_cons]
    split_ifs with hHere hLt hLt
    · exact absurd (of_decide_eq_true hLt) (UInt32.not_lt.mpr hHere)
    · exact h
    · exact ih (hR.next c p ps h) (by rw [List.length_cons] at hFuel; omega)
    · exact absurd (UInt32.not_le.mp hHere) (by simpa using hLt)

theorem Follows.seek (hR : Follows R) {target : DocId} (h : R c ps) :
    R (c.seek target) (ps.dropWhile fun p => p.doc < target) := by
  refine hR.seekLoop h ?_
  cases ps with
  | nil => exact Nat.zero_le _
  | cons p ps =>
    rw [hR.remaining c p ps h]
    exact Nat.le_refl _

theorem Follows.termFreq (hR : Follows R) {p : Posting} (h : R c (p :: ps)) :
    c.termFreq = UInt32.ofNat p.positions.length := by
  unfold DiskCursor.termFreq
  obtain ⟨cur, hCur, -, hTf⟩ := hR.current c p ps h
  rw [hCur]
  exact hTf

/-- One call on both cursors. -/
theorem Follows.agree_step (hR : Follows R) {m m' : MemPostingCursor} {op : CursorOp}
    {r : CursorResult} (hDocs : m.postings.Pairwise fun p q => p.doc < q.doc)
    (h : R c (m.postings.drop m.idx)) (hStep : m.step op = some (r, m')) :
    (c.step op).1 = r ∧ m'.postings = m.postings ∧
      R (c.step op).2 (m'.postings.drop m'.idx) := by
  cases op with
  | doc =>
    obtain ⟨rfl, rfl⟩ : CursorResult.doc m.doc = r ∧ m = m' := by
      simpa [MemPostingCursor.step] using hStep
    refine ⟨?_, rfl, h⟩
    show CursorResult.doc c.doc = _
    rw [hR.doc h, m.doc_eq]
  | advance =>
    obtain ⟨rfl, rfl⟩ : CursorResult.doc m.advance.doc = r ∧ m.advance = m' := by
      simpa [MemPostingCursor.step] using hStep
    have hNext := hR.advance h
    rw [← m.advance_drop, ← m.advance_postings] at hNext
    refine ⟨?_, m.advance_postings, hNext⟩
    show CursorResult.doc c.advance.doc = _
    rw [hR.doc hNext, m.advance.doc_eq]
  | seek target =>
    obtain ⟨rfl, rfl⟩ : CursorResult.doc (m.seek target).doc = r ∧ m.seek target = m' := by
      simpa [MemPostingCursor.step] using hStep
    have hNext := @Follows.seek R c _ hR target h
    rw [← MemPostingCursor.seek_drop hDocs, ← m.seek_postings target] at hNext
    refine ⟨?_, m.seek_postings target, hNext⟩
    show CursorResult.doc (c.seek target).doc = _
    rw [hR.doc hNext, (m.seek target).doc_eq]
  | positions =>
    obtain ⟨p, hp, rfl, rfl⟩ : ∃ p, m.current = some p ∧
        CursorResult.positions p.positions = r ∧ m = m' := by
      simpa [MemPostingCursor.step] using hStep
    obtain ⟨ps, hDrop⟩ := m.drop_of_current hp
    rw [hDrop] at h
    obtain ⟨hRead, hNext⟩ := hR.loaded c p ps h
    exact ⟨congrArg CursorResult.positions hRead, rfl, hDrop ▸ hNext⟩
  | termFreq =>
    obtain ⟨p, hp, rfl, rfl⟩ : ∃ p, m.current = some p ∧
        CursorResult.termFreq (UInt32.ofNat p.positions.length) = r ∧ m = m' := by
      simpa [MemPostingCursor.step] using hStep
    obtain ⟨ps, hDrop⟩ := m.drop_of_current hp
    refine ⟨?_, rfl, h⟩
    rw [hDrop] at h
    exact congrArg CursorResult.termFreq (hR.termFreq h)

/-- Whatever is called, and in whatever order. -/
theorem Follows.agree (hR : Follows R) {m : MemPostingCursor}
    (hDocs : m.postings.Pairwise fun p q => p.doc < q.doc) (h : R c (m.postings.drop m.idx)) :
    Agree m c := by
  intro ops
  induction ops generalizing m c with
  | nil =>
    intro results m' hRun
    obtain ⟨rfl, rfl⟩ : [] = results ∧ m = m' := by
      simpa [MemPostingCursor.run] using hRun
    exact ⟨rfl, hR.error c _ h⟩
  | cons op ops ih =>
    intro results m' hRun
    rcases hStep : m.step op with _ | ⟨r, m₁⟩
    · simp [MemPostingCursor.run, hStep] at hRun
    rcases hOps : m₁.run ops with _ | ⟨rs, m₂⟩
    · simp [MemPostingCursor.run, hStep, hOps] at hRun
    obtain ⟨rfl, rfl⟩ : r :: rs = results ∧ m₂ = m' := by
      simpa [MemPostingCursor.run, hStep, hOps] using hRun
    obtain ⟨hr, hPostings, hNext⟩ := hR.agree_step hDocs h hStep
    obtain ⟨hrs, hErr⟩ := ih (hPostings ▸ hDocs) hNext rs m₂ hOps
    exact ⟨by rw [run, hr, hrs], hErr⟩

end Follows

/-- A cursor over the bytes of a list that fits. -/
theorem follows_tracks : Follows fun c ps => c.Tracks ps ∧ ∃ prev, Fits prev ps where
  error := fun _ _ h => h.1.error
  done := by
    rintro c ⟨⟨hCur, -⟩, -⟩
    exact hCur
  current := by
    rintro c p ps ⟨_ | ⟨hShows, -⟩, -⟩
    exact ⟨_, hShows.cur_eq, hShows.doc_eq, hShows.tf_eq⟩
  remaining := by
    rintro c p ps ⟨_ | ⟨-, hPending⟩, -⟩
    exact hPending.remaining
  next := fun _ _ _ ⟨hTracks, _, hFits⟩ => ⟨tail_tracks hTracks hFits, _, hFits.tail⟩
  loaded := fun _ _ _ ⟨hTracks, prev, hFits⟩ =>
    have hLoaded := loadPositions_tracks hTracks hFits
    ⟨hLoaded.1, hLoaded.2, prev, hFits⟩

-- ---------------------------------------------------------------------------
-- Agreement
-- ---------------------------------------------------------------------------

/-- The cursors stand at the same posting of a list that fits. -/
structure Same (m : MemPostingCursor) (c : DiskCursor) : Prop where
  fits : Fits none m.postings
  tracks : c.Tracks (m.postings.drop m.idx)

theorem Same.agree {m : MemPostingCursor} {c : DiskCursor} (h : Same m c) : Agree m c :=
  follows_tracks.agree h.fits.docs_lt ⟨h.tracks, none, h.fits.drop m.idx⟩

theorem Agree.error {m : MemPostingCursor} {c : DiskCursor} (h : Agree m c) : c.error = none :=
  (h [] [] m rfl).2

theorem Agree.doc {m : MemPostingCursor} {c : DiskCursor} (h : Agree m c) : c.doc = m.doc := by
  have hDoc := (h [.doc] [.doc m.doc] m rfl).1
  simpa [run, step] using hDoc

theorem Agree.advance {m : MemPostingCursor} {c : DiskCursor} (h : Agree m c) :
    Agree m.advance c.advance := by
  intro ops results m' hRun
  have hAll := h (.advance :: ops) (.doc m.advance.doc :: results) m' (by
    simp [MemPostingCursor.run, MemPostingCursor.step, hRun])
  exact ⟨(List.cons.inj hAll.1).2, hAll.2⟩

/-- A cursor that has come to a posting of `2 ^ 32` positions does not agree any more. -/
theorem Pending.short {m : MemPostingCursor} {c : DiskCursor} {ps : List Posting}
    (h : c.Pending ps) (hOk : Idx.Encodable (c.cur.map Current.doc) ps)
    (hAgree : Agree m c.loadNext) : ∀ p ∈ ps, p.positions.length < 2 ^ 32 := by
  induction ps generalizing m c with
  | nil => simp
  | cons p ps ih =>
    have hPrev : ∀ d ∈ c.cur.map Current.doc, d < p.doc :=
      fun d hd => hOk.prev_lt d hd p List.mem_cons_self
    have hLe := @length_le_of_ascending none p.positions
      (hOk.positions_lt p List.mem_cons_self) (by simp)
    replace hLe : p.positions.length ≤ 2 ^ 32 := hLe
    have hLen : p.positions.length < 2 ^ 32 := by
      rcases Nat.lt_or_eq_of_le hLe with hLt | hEq
      · exact hLt
      · exact absurd hAgree.error (loadNext_error h hPrev hEq)
    -- The posting is loaded, and the next one is in front of the cursor.
    obtain ⟨cur, hShows, hPending, -⟩ := h.loadNext hOk hLen
    have hMove : c.loadNext.advance = c.loadNext.loadNext := by
      unfold DiskCursor.advance
      rw [hShows.cur_eq]
      rfl
    have hNext := hAgree.advance
    rw [hMove] at hNext
    refine List.forall_mem_cons.mpr ⟨hLen, ih hPending ?_ hNext⟩
    rw [hShows.cur_eq, Option.map_some, hShows.doc_eq]
    exact hOk.tail

/-- The cursor of `new` before it loads the first posting. -/
def opened (list : DiskPostingList) : DiskCursor where
  data := Idx.postingsBytes list
  pos := (putU32 (UInt32.ofNat list.postings.length)).length
  remaining := UInt32.ofNat list.postings.length
  cur := none
  positions := []
  decoded := false
  error := none

theorem new_postingsBytes (list : DiskPostingList) :
    new (Idx.postingsBytes list) = (opened list).loadNext := by
  have hAt : At (Idx.postingsBytes list) 0 (putU32 (UInt32.ofNat list.postings.length)) :=
    ⟨Idx.postingsBytesFrom none list.postings, rfl⟩
  unfold new
  rw [readU32_putU32 hAt]
  simp only [Nat.zero_add, opened]

theorem opened_pending {list : DiskPostingList} (hLen : list.postings.length < 2 ^ 32) :
    (opened list).Pending list.postings := by
  have hAt : At (Idx.postingsBytes list) 0 (putU32 (UInt32.ofNat list.postings.length) ++
      Idx.postingsBytesFrom none list.postings) :=
    ⟨[], (List.append_nil _).symm⟩
  have hRest := hAt.right
  have hLe := hAt.left.length_le (Nat.zero_le _)
  rw [Nat.zero_add] at hRest hLe
  exact ⟨rfl, hLe, hRest, UInt32.toNat_ofNat_of_lt' hLen⟩

/-- A list of `2 ^ 32` postings is written with the length zero. -/
theorem Agree.length_lt {list : DiskPostingList}
    (h : Agree (MemPostingCursor.new list.postings) (new (Idx.postingsBytes list))) :
    list.postings.length < 2 ^ 32 := by
  have hLe := @length_le_of_ascending none (list.postings.map Posting.doc)
    (List.pairwise_map.mpr list.docs_lt) (by simp)
  replace hLe : (list.postings.map Posting.doc).length ≤ 2 ^ 32 := hLe
  rw [List.length_map] at hLe
  rcases Nat.lt_or_eq_of_le hLe with hLt | hEq
  · exact hLt
  · exfalso
    have hZero : (opened list).remaining = 0 := by
      show UInt32.ofNat list.postings.length = 0
      rw [hEq]
      rfl
    have hNone : (new (Idx.postingsBytes list)).doc = none := by
      rw [new_postingsBytes]
      unfold loadNext
      rw [if_pos hZero]
      rfl
    have hSome : (MemPostingCursor.new list.postings).doc =
        (list.postings.head?).map Posting.doc := by
      rw [MemPostingCursor.doc_eq]
      rfl
    have hDoc := h.doc
    rw [hNone, hSome] at hDoc
    have hNil : list.postings = [] :=
      List.head?_eq_none_iff.mp (Option.map_eq_none_iff.mp hDoc.symm)
    rw [hNil] at hEq
    cases hEq

/-- The cursor over the encoded list and the one over the list itself. -/
theorem agree_iff (list : DiskPostingList) :
    Agree (MemPostingCursor.new list.postings) (new (Idx.postingsBytes list)) ↔
      list.postings.length < 2 ^ 32 ∧
        ∀ p ∈ list.postings, p.positions.length < 2 ^ 32 := by
  constructor
  · intro hAgree
    have hLen := hAgree.length_lt
    rw [new_postingsBytes] at hAgree
    exact ⟨hLen, (opened_pending hLen).short list.encodable hAgree⟩
  · rintro ⟨hLen, hShort⟩
    have hFits : Fits none list.postings := ⟨list.encodable, hShort⟩
    have hTracks := loadNext_tracks (opened_pending hLen) hFits
    rw [← new_postingsBytes] at hTracks
    exact (Same.mk hFits hTracks).agree

end DiskCursor

/-- `encode_postings` accepts exactly the lists that strictly ascend, and its bytes are read as
the list itself exactly when neither the postings nor the positions of one of them are `2 ^ 32`. -/
theorem diskCursor_agrees (ps : MemPostingList) :
    ((∃ e, Idx.encodePostings ps = .ok e) ↔
      (ps.Pairwise fun p q => p.doc < q.doc) ∧
        ∀ p ∈ ps, p.positions ≠ [] ∧ p.positions.Pairwise (· < ·)) ∧
    ∀ list tokens, Idx.encodePostings ps = .ok (list, tokens) →
      (DiskCursor.Agree (MemPostingCursor.new ps) (DiskCursor.new (Idx.postingsBytes list)) ↔
        ps.length < 2 ^ 32 ∧ ∀ p ∈ ps, p.positions.length < 2 ^ 32) := by
  refine ⟨?_, fun list tokens hEnc => ?_⟩
  · rw [Idx.encodePostings_isOk]
    constructor
    · intro hOk
      exact ⟨hOk.docs_lt, fun p hp => ⟨hOk.positions_ne_nil p hp, hOk.positions_lt p hp⟩⟩
    · rintro ⟨hDocs, hPos⟩
      exact ⟨hDocs, by simp, fun p hp => (hPos p hp).1, fun p hp => (hPos p hp).2⟩
  · rw [← Idx.encodePostings_postings hEnc]
    exact DiskCursor.agree_iff list

/-- Two documents, whose cursors agree. -/
theorem diskCursor_agrees_two :
    ∃ list tokens, Idx.encodePostings [⟨3, [0, 200]⟩, ⟨70000, [5]⟩] = .ok (list, tokens) ∧
      DiskCursor.Agree (MemPostingCursor.new [⟨3, [0, 200]⟩, ⟨70000, [5]⟩])
        (DiskCursor.new (Idx.postingsBytes list)) := by
  obtain ⟨hIff, hAgree⟩ := diskCursor_agrees [⟨3, [0, 200]⟩, ⟨70000, [5]⟩]
  obtain ⟨⟨list, tokens⟩, hEnc⟩ := hIff.mpr (by decide)
  exact ⟨list, tokens, hEnc, (hAgree list tokens hEnc).mpr (by decide)⟩

/-- The term occurs at the start of each of the first `n` documents. -/
def everyDoc (n : Nat) : MemPostingList :=
  (List.range n).map fun i => ⟨UInt32.ofNat i, [0]⟩

theorem everyDoc_ascending {n : Nat} (hn : n ≤ 2 ^ 32) :
    (everyDoc n).Pairwise fun p q => p.doc < q.doc := by
  refine List.pairwise_map.mpr ((List.pairwise_lt_range (n := n)).imp_of_mem ?_)
  intro i j hi hj hLt
  have hi' : i < 2 ^ 32 := Nat.lt_of_lt_of_le (List.mem_range.mp hi) hn
  have hj' : j < 2 ^ 32 := Nat.lt_of_lt_of_le (List.mem_range.mp hj) hn
  show UInt32.ofNat i < UInt32.ofNat j
  rw [UInt32.lt_iff_toNat_lt, UInt32.toNat_ofNat_of_lt' hi', UInt32.toNat_ofNat_of_lt' hj']
  exact hLt

/-- All document ids that there are: the list is accepted, and read as an empty one. -/
theorem everyDoc_disagrees :
    ∃ list tokens, Idx.encodePostings (everyDoc (2 ^ 32)) = .ok (list, tokens) ∧
      ¬ DiskCursor.Agree (MemPostingCursor.new (everyDoc (2 ^ 32)))
        (DiskCursor.new (Idx.postingsBytes list)) := by
  have hOk : Idx.Encodable none (everyDoc (2 ^ 32)) :=
    ⟨everyDoc_ascending (Nat.le_refl _), by simp, by simp [everyDoc], by simp [everyDoc]⟩
  obtain ⟨⟨list, tokens⟩, hEnc⟩ := Idx.encodePostings_isOk.mpr hOk
  refine ⟨list, tokens, hEnc, fun hAgree => ?_⟩
  have hList := Idx.encodePostings_postings hEnc
  rw [← hList] at hAgree
  have hLen := hAgree.length_lt
  rw [hList, everyDoc, List.length_map, List.length_range] at hLen
  exact Nat.lt_irrefl _ hLen

end Ripindex
