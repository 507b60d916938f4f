import Ripindex.Format.IdxView

/-!
# Reads that may panic

Indexing, slicing and arithmetic as the machine does them, and what a reader gives when none
of them fails. The leaves of the readers are repeated here with every such site.

## Results

* `Chk.Gives.bind`, `Chk.safe_bind_iff` — the rules for a sequence of reads;
* `Checked.parse_eq`, `Checked.readU64_eq`, `Checked.decodePositions_eq`, `Checked.verify_eq` —
  the sites in the leaves never fail.
-/

namespace Ripindex.Format

namespace Chk

variable {α β : Type}

def mul (a b : Nat) : Chk Nat := if a * b < 2 ^ 64 then .ok (a * b) else .error .panic

/-- The sum of two numbers of 32 bits. -/
def add32 (a b : Nat) : Chk Nat := if a + b < 2 ^ 32 then .ok (a + b) else .error .panic

def index (buf : List UInt8) (i : Nat) : Chk UInt8 :=
  match buf[i]? with
  | some b => .ok b
  | none => .error .panic

/-- `&buf[start..stop]`. -/
def range (buf : List UInt8) (start stop : Nat) : Chk (List UInt8) :=
  if start ≤ stop ∧ stop ≤ buf.length then .ok ((buf.take stop).drop start)
  else .error .panic

def u32At (buf : List UInt8) (at' k : Nat) : Chk UInt32 := do
  let p ← add at' k
  ofFormat (readU32Le buf p)

def u64At (buf : List UInt8) (at' k : Nat) : Chk Nat := do
  let p ← add at' k
  ofFormat (readU64Le buf p)

/-- `x.ok()?` in a function that returns an option. -/
def orNone (x : Chk α) (k : α → Chk (Option β)) : Chk (Option β) :=
  match x with
  | .ok a => k a
  | .error (.err _) => .ok none
  | .error .panic => .error .panic

/-- No panic, and a value is as described. -/
def Gives (x : Chk α) (P : α → Prop) : Prop :=
  match x with
  | .ok a => P a
  | .error s => s ≠ .panic

/-- No panic. -/
def Safe (x : Chk α) : Prop := Gives x fun _ => True

theorem Gives.mono {x : Chk α} {P Q : α → Prop} (h : Gives x P) (hPQ : ∀ a, P a → Q a) :
    Gives x Q := by
  rcases x with s | a
  · exact h
  · exact hPQ a h

theorem Gives.safe {x : Chk α} {P : α → Prop} (h : Gives x P) : Safe x :=
  h.mono fun _ _ => trivial

theorem Gives.bind {x : Chk α} {f : α → Chk β} {P : α → Prop} {Q : β → Prop}
    (h : Gives x P) (hf : ∀ a, P a → Gives (f a) Q) : Gives (x >>= f) Q := by
  rcases x with s | a
  · exact h
  · exact hf a h

theorem safe_iff {x : Chk α} : Safe x ↔ x ≠ .error .panic := by
  rcases x with (_ | e) | a
  · exact iff_of_false (fun h => h rfl) fun h => h rfl
  · exact iff_of_true nofun nofun
  · exact iff_of_true trivial nofun

theorem bind_ok {x : Chk α} {f : α → Chk β} {b : β} (h : x >>= f = .ok b) :
    ∃ a, x = .ok a ∧ f a = .ok b := by
  rcases x with s | a
  · cases h
  · exact ⟨a, rfl, h⟩

theorem ok_bind (a : α) (f : α → Chk β) : ((.ok a : Chk α) >>= f) = f a := rfl

theorem ofFormat_ok {x : Except FormatError α} {a : α} (h : ofFormat x = .ok a) :
    x = .ok a := by
  rcases x with e | a'
  · cases h
  · exact congrArg Except.ok (Except.ok.inj h)

theorem add_eq_ok {a b c : Nat} (h : add a b = .ok c) : c = a + b := by
  unfold add at h
  split_ifs at h
  exact (Except.ok.inj h).symm

theorem sub_eq_ok {a b c : Nat} (h : sub a b = .ok c) : c = a - b := by
  unfold sub at h
  split_ifs at h
  exact (Except.ok.inj h).symm

/-- A sequence panics where one of its reads does. -/
theorem safe_bind_iff {x : Chk α} {f : α → Chk β} :
    Safe (x >>= f) ↔ Safe x ∧ ∀ a, x = .ok a → Safe (f a) := by
  rcases x with s | a
  · exact (and_iff_left_of_imp fun _ _ h => nomatch h).symm
  · constructor
    · intro h
      refine ⟨trivial, fun b hb => ?_⟩
      obtain rfl := Except.ok.inj hb
      exact h
    · exact fun h => h.2 a rfl

theorem Gives.of_ok {x : Chk α} {P : α → Prop} {a : α} (h : Gives x P) (hx : x = .ok a) :
    P a := by
  rw [hx] at h
  exact h

theorem Gives.orNone {x : Chk α} {k : α → Chk (Option β)} {P : α → Prop}
    {Q : Option β → Prop} (h : Gives x P) (hNone : Q none) (hk : ∀ a, P a → Gives (k a) Q) :
    Gives (orNone x k) Q := by
  rcases x with (_ | e) | a
  · exact h
  · exact hNone
  · exact hk a h

theorem gives_err {e : FormatError} {P : α → Prop} : Gives (.error (.err e)) P :=
  fun h => nomatch h

theorem gives_corrupt {reason : String} {P : α → Prop} : Gives (corrupt reason) P := gives_err

theorem gives_ofFormat {x : Except FormatError α} {P : α → Prop} (h : ∀ a, x = .ok a → P a) :
    Gives (ofFormat x) P := by
  rcases x with e | a
  · exact gives_err
  · exact h a rfl

theorem safe_ofFormat (x : Except FormatError α) : Safe (ofFormat x) :=
  gives_ofFormat fun _ _ => trivial

theorem gives_add {a b : Nat} {P : Nat → Prop} (h : a + b < 2 ^ 64) (hP : P (a + b)) :
    Gives (add a b) P := by
  rw [add_ok h]
  exact hP

theorem gives_index {buf : List UInt8} {i : Nat} {P : UInt8 → Prop} (h : i < buf.length)
    (hP : ∀ b, P b) : Gives (index buf i) P := by
  rw [index, List.getElem?_eq_getElem h]
  exact hP _

theorem range_ok {buf : List UInt8} {start stop : Nat} (hStart : start ≤ stop)
    (hStop : stop ≤ buf.length) : range buf start stop = .ok ((buf.take stop).drop start) :=
  if_pos ⟨hStart, hStop⟩

theorem gives_u32At {buf : List UInt8} {at' k : Nat} (h : at' + k < 2 ^ 64) :
    Safe (u32At buf at' k) :=
  (gives_add h trivial : Safe _).bind fun _ _ => safe_ofFormat _

theorem gives_u64At {buf : List UInt8} {at' k : Nat} (h : at' + k < 2 ^ 64) :
    Safe (u64At buf at' k) :=
  (gives_add h trivial : Safe _).bind fun _ _ => safe_ofFormat _

end Chk

-- ---------------------------------------------------------------------------
-- Where a read ends
-- ---------------------------------------------------------------------------

theorem slice_le {buf bs : List UInt8} {pos len : Nat} (h : slice buf pos len = .ok bs) :
    pos + len ≤ buf.length := by
  unfold slice at h
  split_ifs at h with hLe
  exact hLe

-- ---------------------------------------------------------------------------
-- The leaves
-- ---------------------------------------------------------------------------

namespace Checked

/-- `read_u64` with its addition. -/
def readU64From (buf : List UInt8) : Nat → Nat → Nat → Nat → Chk (Nat × Nat)
  | 0, _, _, _ => Chk.corrupt "varint longer than 10 bytes"
  | fuel + 1, pos, v, shift =>
    match buf[pos]? with
    | none => .error (.err .truncated)
    | some byte => do
      let pos ← Chk.add pos 1
      if shift = 63 ∧ 1 < byte then Chk.corrupt "varint overflows u64"
      else
        let v' := v + byte.toNat % 128 * 2 ^ shift
        if byte < 128 then .ok (v', pos) else readU64From buf fuel pos v' (shift + 7)

def readU64 (buf : List UInt8) (pos : Nat) : Chk (Nat × Nat) := readU64From buf 10 pos 0 0

theorem readU64_eq {buf : List UInt8} (h : buf.length < 2 ^ 64) (pos : Nat) :
    readU64 buf pos = Chk.ofFormat (Format.readU64 buf pos) := by
  -- By induction on the bytes that may still be read; `pos` is below the length at each.
  have hFrom : ∀ fuel pos v shift, readU64From buf fuel pos v shift =
      Chk.ofFormat (Format.readU64From buf fuel pos v shift) := by
    intro fuel
    induction fuel with
    | zero => exact fun _ _ _ => rfl
    | succ fuel ih =>
      intro pos v shift
      rw [readU64From, Format.readU64From]
      rcases hByte : buf[pos]? with _ | byte
      · rfl
      have hLt : pos < buf.length := (List.getElem?_eq_some_iff.mp hByte).1
      have hNext : pos + 1 < 2 ^ 64 := by omega
      simp only [Chk.add_ok hNext, bind, Except.bind]
      split_ifs
      · rfl
      · rfl
      · exact ih _ _ _
  exact hFrom 10 pos 0 0

/-- `envelope::parse`. -/
def parse (kind : Kind) (bytes : List UInt8) : Chk Envelope :=
  if bytes.length < headerLen + footerLen then .error (.err .truncated)
  else do
    let magic ← Chk.range bytes 0 8
    if magic ≠ kind.magic then .error (.err .badMagic)
    else do
      let version ← Chk.ofFormat (readU32Le bytes 8)
      if version ≠ formatVersion then .error (.err (.version version))
      else do
        let flags ← Chk.ofFormat (readU32Le bytes 12)
        if flags ≠ 0 then Chk.corrupt "non-zero header flags"
        else do
          let footerAt ← Chk.sub bytes.length footerLen
          let magicAt ← Chk.add footerAt 12
          let tail ← Chk.range bytes magicAt bytes.length
          if tail ≠ "FSRF".toUTF8.toList then Chk.corrupt "bad footer magic"
          else do
            let bodyLen ← Chk.ofFormat (readU64Le bytes footerAt)
            let behind ← Chk.sub bytes.length headerLen
            let between ← Chk.sub behind footerLen
            if bodyLen ≠ between then
              let len := bytes.length
              Chk.corrupt s!"body_len {bodyLen} does not match file length {len}"
            else do
              let crc ← Chk.u32At bytes footerAt 8
              .ok ⟨footerAt, crc⟩

theorem parse_eq (kind : Kind) {bytes : List UInt8} (h : bytes.length < 2 ^ 64) :
    parse kind bytes = Chk.ofFormat (Envelope.parse kind bytes) := by
  unfold parse Envelope.parse
  by_cases hShort : bytes.length < headerLen + footerLen
  · rw [if_pos hShort, if_pos hShort]
    rfl
  rw [if_neg hShort, if_neg hShort]
  have hLong : 32 ≤ bytes.length := Nat.not_lt.mp hShort
  rw [Chk.range_ok (Nat.zero_le 8) (by omega), Chk.sub_ok (show footerLen ≤ _ by
    unfold footerLen
    omega), Chk.sub_ok (show headerLen ≤ _ by
    unfold headerLen
    omega)]
  have hAt : bytes.length - footerLen + 12 < 2 ^ 64 := by
    unfold footerLen
    omega
  have hCrcAt : bytes.length - footerLen + 8 < 2 ^ 64 := by omega
  have hLe : bytes.length - footerLen + 12 ≤ bytes.length := by
    unfold footerLen
    omega
  have hBetween : footerLen ≤ bytes.length - headerLen := by
    unfold footerLen headerLen
    omega
  simp only [bind, Except.bind, List.drop_zero, Chk.add_ok hAt, Chk.range_ok hLe (Nat.le_refl _),
    List.take_length, Chk.sub_ok hBetween, Chk.u32At, Chk.add_ok hCrcAt]
  -- Every site is in bounds; what is left are the reads and the checks, which are the same.
  rcases readU32Le bytes 8 with e | version <;> rcases readU32Le bytes 12 with e' | flags <;>
    rcases readU64Le bytes (bytes.length - footerLen) with e'' | bodyLen <;>
    rcases readU32Le bytes (bytes.length - footerLen + 8) with e''' | crc <;>
    simp only [Chk.ofFormat] <;> split_ifs <;> rfl

end Checked

end Ripindex.Format

-- ---------------------------------------------------------------------------
-- Cursors
-- ---------------------------------------------------------------------------

namespace Ripindex

open Format

namespace Checked

/-- `decode_positions` with its slice. -/
def decodePositions (c : DiskCursor) : Chk (List Position) :=
  match c.cur with
  | none => .ok c.positions
  | some cur => do
    let bytes ← Chk.range c.data 0 cur.posEnd
    let (vs, p) ← Chk.ofFormat (decodePositionsFrom bytes cur.tf.toNat cur.posStart none)
    if p = cur.posEnd then .ok vs
    else Chk.corrupt "pos_bytes disagrees with position varints"

/-- The loop of `DiskPostingList::verify` with its count of 32 bits. -/
def verifyLoop : Nat → Nat → DiskCursor → Chk (Nat × DiskCursor)
  | 0, n, cur => .ok (n, cur)
  | fuel + 1, n, cur =>
    if cur.doc.isNone ∨ cur.error.isSome then .ok (n, cur)
    else
      let tf := cur.termFreq
      let cur := cur.loadPositions
      if cur.positions.length ≠ tf.toNat then .ok (n, cur)
      else do
        let n ← Chk.add32 n 1
        verifyLoop fuel n cur.advance

end Checked

namespace DiskCursor

/-- The positions of the current document lie in the data. -/
def Bounded (c : DiskCursor) : Prop := ∀ cur ∈ c.cur, cur.posEnd ≤ c.data.length

theorem bounded_of_cur {c : DiskCursor} (h : c.cur = none) : c.Bounded := fun cur hCur => by
  rw [h] at hCur
  cases hCur

theorem decodeHeader_le {c : DiskCursor} {cur : Current} {pos : Nat}
    (h : c.decodeHeader = .ok (cur, pos)) : cur.posEnd ≤ c.data.length := by
  unfold decodeHeader at h
  simp only [bind, Except.bind] at h
  rcases hDelta : readU32 c.data c.pos with e | ⟨delta, p⟩
  · simp [hDelta] at h
  simp only [hDelta] at h
  rcases hDoc : addDelta "zero doc delta" "doc id overflow" (c.cur.map Current.doc) delta
    with e | doc
  · simp [hDoc] at h
  simp only [hDoc] at h
  rcases hTf : readU32 c.data p with e | ⟨tf, p'⟩
  · simp [hTf] at h
  simp only [hTf] at h
  split_ifs at h
  rcases hBytes : readU32 c.data p' with e | ⟨posBytes, posStart⟩
  · simp [hBytes] at h
  simp only [hBytes] at h
  split_ifs at h with hLe
  obtain ⟨rfl, -⟩ := Prod.mk.inj (Except.ok.inj h)
  exact hLe

/-- A turn reads on in the same data, and takes one from what remains or ends the list. -/
theorem loadNext_spec (c : DiskCursor) : c.loadNext.data = c.data ∧ c.loadNext.Bounded ∧
    (c.loadNext.cur = none ∨ c.loadNext.remaining.toNat + 1 = c.remaining.toNat) := by
  unfold loadNext
  by_cases hZero : c.remaining = 0
  · -- The list is at its end: no document is current.
    rw [if_pos hZero]
    exact ⟨rfl, bounded_of_cur rfl, .inl rfl⟩
  rw [if_neg hZero]
  rcases hHeader : c.decodeHeader with e | ⟨cur, pos⟩
  · -- A header that cannot be decoded ends the list as well.
    exact ⟨rfl, bounded_of_cur rfl, .inl rfl⟩
  have hLe : cur.posEnd ≤ c.data.length := decodeHeader_le hHeader
  refine ⟨rfl, ?_, .inr ?_⟩
  · intro cur' hCur
    obtain rfl : cur = cur' := Option.some.inj hCur
    exact hLe
  · -- `remaining` is not zero here, so that taking one from it does not wrap.
    have hPos : 0 < c.remaining.toNat := by
      refine Nat.pos_of_ne_zero fun h => hZero (UInt32.toNat_inj.mp h)
    show (c.remaining - 1).toNat + 1 = _
    rw [UInt32.toNat_sub_of_le _ _ (by
      rw [UInt32.le_iff_toNat_le]
      exact hPos)]
    exact Nat.sub_add_cancel hPos

theorem advance_spec (c : DiskCursor) (h : c.Bounded) : c.advance.data = c.data ∧
    c.advance.Bounded ∧
      (c.advance.cur = none ∨ c.advance.remaining.toNat + 1 = c.remaining.toNat) := by
  unfold advance
  split_ifs with hCur
  · exact c.loadNext_spec
  · exact ⟨rfl, h, .inl (by simpa using hCur)⟩

theorem seekLoop_spec (target : DocId) (fuel : Nat) {c : DiskCursor} (h : c.Bounded) :
    (seekLoop target fuel c).Bounded := by
  induction fuel generalizing c with
  | zero => exact h
  | succ fuel ih =>
    rw [seekLoop]
    rcases hCur : c.cur with _ | cur
    · exact h
    simp only
    split_ifs
    · exact h
    · exact ih c.loadNext_spec.2.1

theorem loadPositions_spec (c : DiskCursor) (h : c.Bounded) : c.loadPositions.Bounded ∧
    c.loadPositions.remaining.toNat ≤ c.remaining.toNat := by
  unfold loadPositions
  split_ifs
  · exact ⟨h, Nat.le_refl _⟩
  rcases c.decodePositions with e | vs
  · exact ⟨bounded_of_cur rfl, Nat.zero_le _⟩
  · exact ⟨h, Nat.le_refl _⟩

theorem new_bounded (data : List UInt8) : (new data).Bounded := (loadNext_spec _).2.1

theorem run_bounded (ops : List CursorOp) {c : DiskCursor} (h : c.Bounded) :
    (c.run ops).2.Bounded := by
  induction ops generalizing c with
  | nil => exact h
  | cons op ops ih =>
    refine ih ?_
    cases op with
    | doc => exact h
    | advance => exact (c.advance_spec h).2.1
    | seek target => exact seekLoop_spec target _ h
    | positions => exact (c.loadPositions_spec h).1
    | termFreq => exact h

end DiskCursor

namespace Checked

/-- The slice of `decode_positions` is in bounds. -/
theorem decodePositions_eq {c : DiskCursor} (h : c.Bounded) :
    decodePositions c = Chk.ofFormat c.decodePositions := by
  unfold decodePositions DiskCursor.decodePositions
  rcases hCur : c.cur with _ | cur
  · rfl
  simp only [Chk.range_ok (Nat.zero_le _) (h cur hCur), List.drop_zero, bind, Except.bind]
  rcases decodePositionsFrom (c.data.take cur.posEnd) cur.tf.toNat cur.posStart none
    with e | ⟨vs, p⟩
  · rfl
  simp only [Chk.ofFormat]
  split_ifs
  · rfl
  · rfl

/-- The count of `verify` stays within 32 bits: every turn takes one from what remains. -/
theorem verifyLoop_eq {fuel n : Nat} {c : DiskCursor} (h : c.Bounded)
    (hn : n + c.remaining.toNat + 1 < 2 ^ 32 ∨ c.cur = none) :
    ∃ m cur, verifyLoop fuel n c = .ok (m, cur) ∧
      EncodedList.verifyLoop fuel (UInt32.ofNat n) c = (UInt32.ofNat m, cur) := by
  induction fuel generalizing n c with
  | zero => exact ⟨n, c, rfl, rfl⟩
  | succ fuel ih =>
    rw [verifyLoop, EncodedList.verifyLoop]
    by_cases hEnd : c.doc.isNone ∨ c.error.isSome
    · rw [if_pos hEnd, if_pos hEnd]
      exact ⟨n, c, rfl, rfl⟩
    rw [if_neg hEnd, if_neg hEnd]
    obtain ⟨hBounded, hRemaining⟩ := c.loadPositions_spec h
    simp only
    by_cases hLen : c.loadPositions.positions.length ≠ c.termFreq.toNat
    · rw [if_pos hLen, if_pos hLen]
      exact ⟨n, _, rfl, rfl⟩
    rw [if_neg hLen, if_neg hLen]
    have hCur : c.cur ≠ none := by
      intro hNone
      exact hEnd (.inl (by rw [DiskCursor.doc, hNone]; rfl))
    -- A document is current, so that the count has room for it.
    have hRoom := hn.resolve_right hCur
    have hAdd : n + 1 < 2 ^ 32 := by omega
    obtain ⟨-, hNext, hLess⟩ := c.loadPositions.advance_spec hBounded
    have hCount : n + 1 + c.loadPositions.advance.remaining.toNat + 1 < 2 ^ 32 ∨
        c.loadPositions.advance.cur = none := by
      rcases hLess with hNone | hLess
      · exact .inr hNone
      · exact .inl (by omega)
    obtain ⟨m, cur, hChecked, hPlain⟩ := ih hNext hCount
    refine ⟨m, cur, ?_, ?_⟩
    · rw [Chk.add32, if_pos hAdd]
      exact hChecked
    · rw [← hPlain]
      congr 1
      exact (UInt32.ofNat_add n 1).symm

/-- `DiskPostingList::verify`. -/
def verify (l : EncodedList) : Chk Unit := do
  let (count, _) ← Chk.ofFormat (readU32 l.data 0)
  if count ≠ l.docFreq then
    Chk.corrupt "posting list doc_count disagrees with dictionary doc_freq"
  else do
    let (n, cur) ← verifyLoop (count.toNat + 1) 0 (DiskCursor.new l.data)
    match cur.error with
    | some e => .error (.err e)
    | none =>
      if n ≠ count.toNat ∨ cur.pos ≠ l.data.length then
        Chk.corrupt "posting list length disagrees with doc_count"
      else .ok ()

theorem verifyLoop_lt {fuel n m : Nat} {c cur : DiskCursor} (hn : n < 2 ^ 32)
    (h : verifyLoop fuel n c = .ok (m, cur)) : m < 2 ^ 32 := by
  induction fuel generalizing n c with
  | zero =>
    obtain ⟨rfl, -⟩ := Prod.mk.inj (Except.ok.inj h)
    exact hn
  | succ fuel ih =>
    rw [verifyLoop] at h
    simp only at h
    split_ifs at h
    · obtain ⟨rfl, -⟩ := Prod.mk.inj (Except.ok.inj h)
      exact hn
    · obtain ⟨rfl, -⟩ := Prod.mk.inj (Except.ok.inj h)
      exact hn
    · rw [Chk.add32] at h
      by_cases hAdd : n + 1 < 2 ^ 32
      · rw [if_pos hAdd] at h
        exact ih hAdd h
      · rw [if_neg hAdd] at h
        cases h

theorem verify_eq (l : EncodedList) : verify l = Chk.ofFormat l.verify := by
  unfold verify EncodedList.verify
  rcases readU32 l.data 0 with e | ⟨count, pos⟩
  · rfl
  simp only [bind, Except.bind, Chk.ofFormat]
  by_cases hCount : count ≠ l.docFreq
  · rw [if_pos hCount, if_pos hCount]
    rfl
  rw [if_neg hCount, if_neg hCount]
  have hRoom : 0 + (DiskCursor.new l.data).remaining.toNat + 1 < 2 ^ 32 ∨
      (DiskCursor.new l.data).cur = none := by
    obtain ⟨start, hNew⟩ : ∃ start : DiskCursor, DiskCursor.new l.data = start.loadNext := ⟨_, rfl⟩
    rw [hNew]
    obtain ⟨-, -, hNone | hLess⟩ := start.loadNext_spec
    · exact .inr hNone
    · refine .inl ?_
      rw [Nat.zero_add]
      exact Nat.lt_of_le_of_lt (Nat.le_of_eq hLess) (UInt32.toNat_lt _)
  -- Both loops stop at the same cursor; the counts agree because neither leaves 32 bits.
  obtain ⟨m, cur, hChecked, hPlain⟩ :=
    @verifyLoop_eq (count.toNat + 1) 0 _ (DiskCursor.new_bounded l.data) hRoom
  have hm : m < 2 ^ 32 := verifyLoop_lt (by decide) hChecked
  have hSame : UInt32.ofNat m ≠ count ↔ m ≠ count.toNat := by
    rw [ne_eq, ne_eq, ← UInt32.toNat_inj, UInt32.toNat_ofNat_of_lt' hm]
  rw [hChecked]
  replace hPlain : EncodedList.verifyLoop (count.toNat + 1) 0 (DiskCursor.new l.data) =
      (UInt32.ofNat m, cur) := hPlain
  rw [hPlain]
  simp only [hSame]
  rcases cur.error with _ | e
  · simp only
    split_ifs
    · rfl
    · rfl
  · rfl

end Checked

end Ripindex
