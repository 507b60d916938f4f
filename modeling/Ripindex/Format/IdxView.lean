import Ripindex.Format.Bytes
import Ripindex.Format.Cursor

/-!
# The reader of the term dictionary

`IdxView` of `format/idx.rs` over the bytes of a whole file. Sums that the source does not
check are `Chk.add`; loops are bounded by what they count down.
-/

namespace Ripindex

open Format

def tocLen : Nat := 64

structure Toc where
  postingsOff : Nat
  postingsLen : Nat
  dictOff : Nat
  dictLen : Nat
  sparseOff : Nat
  sparseLen : Nat
  numTerms : Nat
  numBlocks : UInt32
  blockSize : UInt32

def Toc.decode (b : List UInt8) : Except FormatError Toc := do
  let postingsOff ← readU64Le b 0
  let postingsLen ← readU64Le b 8
  let dictOff ← readU64Le b 16
  let dictLen ← readU64Le b 24
  let sparseOff ← readU64Le b 32
  let sparseLen ← readU64Le b 40
  let numTerms ← readU64Le b 48
  let numBlocks ← readU32Le b 56
  let blockSize ← readU32Le b 60
  pure ⟨postingsOff, postingsLen, dictOff, dictLen, sparseOff, sparseLen, numTerms, numBlocks,
    blockSize⟩

/-- The regions follow one another from the header to the table of contents, which ends at
`bodyEnd`. -/
structure Toc.Tiles (t : Toc) (bodyEnd : Nat) : Prop where
  postingsOff : t.postingsOff = headerLen
  dictOff : t.postingsOff + t.postingsLen = t.dictOff
  sparseOff : t.dictOff + t.dictLen = t.sparseOff
  end_eq : t.sparseOff + t.sparseLen = bodyEnd - tocLen
  blockSize : t.blockSize.toNat = Idx.blockSize
  numBlocks : t.numBlocks.toNat = (t.numTerms + Idx.blockSize - 1) / Idx.blockSize
  sparseLen : 4 * t.numBlocks.toNat ≤ t.sparseLen

instance (t : Toc) (bodyEnd : Nat) : Decidable (t.Tiles bodyEnd) :=
  decidable_of_iff (t.postingsOff = headerLen ∧ t.postingsOff + t.postingsLen = t.dictOff ∧
      t.dictOff + t.dictLen = t.sparseOff ∧ t.sparseOff + t.sparseLen = bodyEnd - tocLen ∧
      t.blockSize.toNat = Idx.blockSize ∧
      t.numBlocks.toNat = (t.numTerms + Idx.blockSize - 1) / Idx.blockSize ∧
      4 * t.numBlocks.toNat ≤ t.sparseLen)
    ⟨fun ⟨a, b, c, d, e, f, g⟩ => ⟨a, b, c, d, e, f, g⟩,
      fun ⟨a, b, c, d, e, f, g⟩ => ⟨a, b, c, d, e, f, g⟩⟩

structure IdxView where
  bytes : List UInt8
  env : Envelope
  toc : Toc

/-- A term's encoded postings: `DiskPostingList` of the source. -/
structure EncodedList where
  data : List UInt8
  docFreq : UInt32
  deriving DecidableEq, Repr

structure IdxEntry where
  term : List UInt8
  docFreq : UInt32
  postingsOff : Nat
  postingsLen : Nat

/-- Front-coded scan of one dictionary block. -/
structure BlockScan where
  pos : Nat
  stop : Nat
  remaining : Nat
  term : List UInt8
  postingsPos : Nat

namespace EncodedList

/-- The loop of `verify`: the documents counted, with the cursor that stopped. -/
def verifyLoop : Nat → UInt32 → DiskCursor → UInt32 × DiskCursor
  | 0, n, cur => (n, cur)
  | fuel + 1, n, cur =>
    if cur.doc.isNone ∨ cur.error.isSome then (n, cur)
    else
      let tf := cur.termFreq
      let cur := cur.loadPositions
      if cur.positions.length ≠ tf.toNat then (n, cur)
      else verifyLoop fuel (n + 1) cur.advance

/-- Decode everything, checking deltas and the doc count against `doc_freq`. -/
def verify (l : EncodedList) : Except FormatError Unit := do
  let (count, _) ← readU32 l.data 0
  if count ≠ l.docFreq then
    .error (.corrupt "posting list doc_count disagrees with dictionary doc_freq")
  else
    let (n, cur) := verifyLoop (count.toNat + 1) 0 (DiskCursor.new l.data)
    match cur.error with
    | some e => .error e
    | none =>
      if n ≠ count ∨ cur.pos ≠ l.data.length then
        .error (.corrupt "posting list length disagrees with doc_count")
      else .ok ()

end EncodedList

/-- The next entry of the block, `none` at its end. -/
def BlockScan.nextEntry (bytes : List UInt8) (s : BlockScan) :
    Chk (Option (IdxEntry × BlockScan)) :=
  if s.remaining = 0 then .ok none
  else do
    let (shared, pos) ← Chk.ofFormat (readU32 bytes s.pos)
    let (suffixLen, pos) ← Chk.ofFormat (readU32 bytes pos)
    if s.term.length < shared.toNat then
      Chk.corrupt "front-coding prefix longer than previous term"
    else
      let suffix ← Chk.ofFormat (slice bytes pos suffixLen.toNat)
      let pos ← Chk.add pos suffixLen.toNat
      let term := s.term.take shared.toNat ++ suffix
      let (docFreq, pos) ← Chk.ofFormat (readU32 bytes pos)
      let (postingsLen, pos) ← Chk.ofFormat (readU64 bytes pos)
      if s.stop < pos then Chk.corrupt "dictionary entry overruns region"
      else if s.postingsPos + postingsLen < 2 ^ 64 then
        .ok (some (⟨term, docFreq, s.postingsPos, postingsLen⟩,
          ⟨pos, s.stop, s.remaining - 1, term, s.postingsPos + postingsLen⟩))
      else Chk.corrupt "postings offset overflow"

/-- `pos_after_block`. -/
def BlockScan.posAfter (bytes : List UInt8) : Nat → BlockScan → Chk Nat
  | 0, s => .ok s.pos
  | fuel + 1, s => do
    match ← s.nextEntry bytes with
    | none => .ok s.pos
    | some (_, s) => posAfter bytes fuel s

namespace IdxView

/-- Envelope, table of contents, and that its regions tile the body. -/
def parse (bytes : List UInt8) : Chk IdxView := do
  let env ← Chk.ofFormat (Envelope.parse .idx bytes)
  if env.bodyEnd - headerLen < tocLen then .error (.err .truncated)
  else
    let toc ← Chk.ofFormat (Toc.decode ((bytes.take env.bodyEnd).drop (env.bodyEnd - tocLen)))
    if toc.Tiles env.bodyEnd then .ok ⟨bytes, env, toc⟩
    else Chk.corrupt "idx TOC regions do not tile the body"

variable (v : IdxView)

/-- `(first term, block_off, postings_off)` of a block. -/
def sparseEntry (b : Nat) : Chk (List UInt8 × Nat × Nat) := do
  let at' ← Chk.add v.toc.sparseOff (4 * b)
  let off ← Chk.ofFormat (readU32Le v.bytes at')
  let entries ← Chk.add v.toc.sparseOff (4 * v.toc.numBlocks.toNat)
  let sparseEnd ← Chk.add v.toc.sparseOff v.toc.sparseLen
  let pos ← Chk.add entries off.toNat
  if sparseEnd ≤ pos then Chk.corrupt "sparse entry offset out of range"
  else
    let (termLen, pos) ← Chk.ofFormat (readU32 v.bytes pos)
    let term ← Chk.ofFormat (slice v.bytes pos termLen.toNat)
    let pos ← Chk.add pos termLen.toNat
    let (blockOff, pos) ← Chk.ofFormat (readU64 v.bytes pos)
    let (postingsOff, pos) ← Chk.ofFormat (readU64 v.bytes pos)
    if sparseEnd < pos then Chk.corrupt "sparse entry overruns region"
    else .ok (term, blockOff, postingsOff)

def block (b : Nat) : Chk BlockScan := do
  let (_, blockOff, postingsRel) ← v.sparseEntry b
  let start ← Chk.add v.toc.dictOff blockOff
  let stop ← Chk.add v.toc.dictOff v.toc.dictLen
  if stop < start then Chk.corrupt "block offset outside dictionary"
  else
    let left ← Chk.sub v.toc.numTerms (b * Idx.blockSize)
    let postingsPos ← Chk.add v.toc.postingsOff postingsRel
    .ok ⟨start, stop, min left Idx.blockSize, [], postingsPos⟩

def postingsAt (off len : Nat) (docFreq : UInt32) : Chk EncodedList :=
  if off + len < 2 ^ 64 then do
    let regionEnd ← Chk.add v.toc.postingsOff v.toc.postingsLen
    if regionEnd < off + len then
      Chk.corrupt "posting list extends past the postings region"
    else
      let data ← Chk.ofFormat (slice v.bytes off len)
      .ok ⟨data, docFreq⟩
  else Chk.corrupt "postings offset overflow"

/-- The binary search of `lookup_inner`: the first block in `lo..hi` whose first term is
greater than the target. -/
def search (target : List UInt8) : Nat → Nat → Nat → Chk Nat
  | 0, lo, _ => .ok lo
  | fuel + 1, lo, hi =>
    if lo < hi then do
      let mid := lo + (hi - lo) / 2
      let (first, _, _) ← v.sparseEntry mid
      if first ≤ target then search target fuel (mid + 1) hi
      else search target fuel lo mid
    else .ok lo

/-- The scan of `lookup_inner`. -/
def scanFor (target : List UInt8) : Nat → BlockScan → Chk (Option EncodedList)
  | 0, _ => .ok none
  | fuel + 1, s => do
    match ← s.nextEntry v.bytes with
    | none => .ok none
    | some (e, s) =>
      if e.term < target then scanFor target fuel s
      else if e.term = target then do
        let l ← v.postingsAt e.postingsOff e.postingsLen e.docFreq
        .ok (some l)
      else .ok none

def lookupInner (target : List UInt8) : Chk (Option EncodedList) :=
  let nb := v.toc.numBlocks.toNat
  if nb = 0 then .ok none
  else do
    let lo ← v.search target nb 0 nb
    if lo = 0 then .ok none
    else
      let s ← v.block (lo - 1)
      v.scanFor target (s.remaining + 1) s

/-- Decode errors are logged and reported as absence. -/
def lookup (term : String) : Chk (Option EncodedList) :=
  match v.lookupInner term.toUTF8.toList with
  | .error (.err _) => .ok none
  | r => r

-- ---------------------------------------------------------------------------
-- All terms
-- ---------------------------------------------------------------------------

/-- The text of a term. -/
def termText (bytes : List UInt8) : Chk String :=
  match String.fromUTF8? bytes.toByteArray with
  | some t => .ok t
  | none => Chk.corrupt "term is not UTF-8"

structure TermIter where
  block : Nat
  scan : Option BlockScan

/-- `try_next`: with the iterator afterwards, or `none` at the end. Every turn opens a block
or ends one. -/
def tryNext : Nat → TermIter → Chk (Option ((String × UInt32 × EncodedList) × TermIter))
  | 0, _ => .ok none
  | fuel + 1, it => do
    match it.scan with
    | none =>
      if v.toc.numBlocks.toNat ≤ it.block then .ok none
      else do
        let s ← v.block it.block
        tryNext fuel ⟨it.block + 1, some s⟩
    | some s =>
      match ← s.nextEntry v.bytes with
      | some (e, s) =>
        let term ← termText e.term
        let list ← v.postingsAt e.postingsOff e.postingsLen e.docFreq
        .ok (some ((term, e.docFreq, list), ⟨it.block, some s⟩))
      | none => tryNext fuel ⟨it.block, none⟩

/-- Everything an iterator yields. -/
def collect : Nat → TermIter → Chk (List (String × UInt32 × EncodedList))
  | 0, _ => .ok []
  | fuel + 1, it => do
    match ← v.tryNext (2 * v.toc.numBlocks.toNat + 2) it with
    | none => .ok []
    | some (x, it) =>
      let xs ← collect fuel it
      .ok (x :: xs)

/-- `terms`, run to its end. -/
def terms : Chk (List (String × UInt32 × EncodedList)) :=
  v.collect (v.toc.numTerms + 1) ⟨0, none⟩

-- ---------------------------------------------------------------------------
-- The full check
-- ---------------------------------------------------------------------------

/-- What `verify` threads through its loops. -/
structure Progress where
  count : Nat
  prev : Option (List UInt8)
  expected : Nat

/-- The entries of one block; `first` is the term of the sparse index, there until the first
entry. -/
def verifyEntries (b : Nat) :
    Nat → Option (List UInt8) → BlockScan → Progress → Chk Progress
  | 0, _, _, p => .ok p
  | fuel + 1, first, s, p => do
    match ← s.nextEntry v.bytes with
    | none => .ok p
    | some (e, s) =>
      if first.any fun t => e.term ≠ t then
        Chk.corrupt s!"block {b}: sparse term differs from first entry"
      else if p.prev.any fun t => e.term ≤ t then Chk.corrupt "terms out of order"
      else do
        let _ ← termText e.term
        let list ← v.postingsAt e.postingsOff e.postingsLen e.docFreq
        Chk.ofFormat list.verify
        let count ← Chk.add p.count 1
        let expected ← Chk.add e.postingsOff e.postingsLen
        verifyEntries b fuel none s ⟨count, some e.term, expected⟩

/-- The blocks from `b` on. -/
def verifyBlocks : Nat → Nat → Progress → Chk Progress
  | 0, _, p => .ok p
  | fuel + 1, b, p => do
    let (first, blockOff, postingsRel) ← v.sparseEntry b
    let start ← Chk.add v.toc.postingsOff postingsRel
    if start ≠ p.expected then
      Chk.corrupt s!"block {b}: sparse postings_off disagrees with running total"
    else do
      let s ← v.block b
      if 0 < b then do
        let last ← v.block (b - 1)
        let pos ← last.posAfter v.bytes (last.remaining + 1)
        let at' ← Chk.add v.toc.dictOff blockOff
        if pos ≠ at' then
          Chk.corrupt s!"block {b}: block_off disagrees with previous block end"
        else do
          let p ← v.verifyEntries b (s.remaining + 1) (some first) s p
          verifyBlocks fuel (b + 1) p
      else do
        let p ← v.verifyEntries b (s.remaining + 1) (some first) s p
        verifyBlocks fuel (b + 1) p

/-- The checksum, and then every block, entry, sparse entry and posting list. -/
def verify [Platform] : Chk Unit := do
  Chk.ofFormat (v.env.verifyCrc v.bytes)
  let p ← v.verifyBlocks v.toc.numBlocks.toNat 0 ⟨0, none, v.toc.postingsOff⟩
  if p.count ≠ v.toc.numTerms then Chk.corrupt "num_terms disagrees with dictionary"
  else do
    let regionEnd ← Chk.add v.toc.postingsOff v.toc.postingsLen
    if p.expected ≠ regionEnd then Chk.corrupt "postings region has trailing bytes"
    else .ok ()

-- ---------------------------------------------------------------------------
-- The binary search
-- ---------------------------------------------------------------------------

section Search

variable {v : IdxView} {first : Nat → List UInt8}

/-- Over ascending first terms the search ends before the first one above the target. -/
theorem search_firsts
    (hEntry : ∀ b, b < v.toc.numBlocks.toNat → ∃ x, v.sparseEntry b = .ok (first b, x))
    (hAsc : ∀ a b, a < b → b < v.toc.numBlocks.toNat → first a < first b)
    {target : List UInt8} {fuel lo hi : Nat} (hFuel : hi - lo ≤ fuel) (hLe : lo ≤ hi)
    (hHi : hi ≤ v.toc.numBlocks.toNat) (hBefore : ∀ b, b < lo → ¬ target < first b)
    (hBehind : ∀ b, hi ≤ b → b < v.toc.numBlocks.toNat → target < first b) :
    ∃ r, v.search target fuel lo hi = .ok r ∧ r ≤ v.toc.numBlocks.toNat ∧
      (∀ b, b < r → ¬ target < first b) ∧
      ∀ b, r ≤ b → b < v.toc.numBlocks.toNat → target < first b := by
  induction fuel generalizing lo hi with
  | zero =>
    obtain rfl : lo = hi := by omega
    exact ⟨lo, rfl, hHi, hBefore, hBehind⟩
  | succ fuel ih =>
    rw [IdxView.search]
    split_ifs with hLt
    · have hMid : lo + (hi - lo) / 2 < hi := by omega
      obtain ⟨x, hx⟩ := hEntry _ (Nat.lt_of_lt_of_le hMid hHi)
      generalize hm : lo + (hi - lo) / 2 = mid at hMid hx
      simp only [hx, bind, Except.bind]
      have hMidGe : lo ≤ mid := by omega
      show ∃ r, (if first mid ≤ target then v.search target fuel (mid + 1) hi
        else v.search target fuel lo mid) = .ok r ∧ _
      split_ifs with hFirst
      · refine ih (by omega) (by omega) hHi (fun b hb => ?_) hBehind
        -- The terms before the middle are smaller.
        rcases Nat.lt_or_eq_of_le (Nat.le_of_lt_succ hb) with hLess | rfl
        · exact fun hGt => hFirst (List.lt_trans hGt (hAsc b mid hLess (by omega)))
        · exact hFirst
      · refine ih (by omega) hMidGe (by omega) hBefore fun b hb hbn => ?_
        -- Those behind it are larger.
        have hGt : target < first mid := Decidable.not_not.mp hFirst
        rcases Nat.lt_or_eq_of_le hb with hLess | rfl
        · exact List.lt_trans hGt (hAsc mid b hLess hbn)
        · exact hGt
    · obtain rfl : lo = hi := by omega
      exact ⟨lo, rfl, hHi, hBefore, hBehind⟩

end Search

end IdxView

end Ripindex
