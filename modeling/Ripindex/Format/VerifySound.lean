import Ripindex.Format.Fields
import Ripindex.Format.IdxFaithful
import Ripindex.Format.IdxSafe
import Ripindex.Format.ListSound

/-!
# What the check of a dictionary promises

`IdxView::verify` goes through the blocks once. Here it is shown that the iterator and the
lookup, which opens one block by the sparse index, agree on every file that it accepts.

## Results

* `IdxView.blocks_of_verify` — what was checked, block by block;
* `IdxView.Blocks.terms`, `IdxView.Blocks.lookupInner` — the iterator and the lookup;
* `verify_sound` — all that the query path relies on.
-/

namespace Ripindex

open Format

/-- A term and its postings. -/
abbrev TermList := String × EncodedList

namespace TermList

def key (x : TermList) : List UInt8 := x.1.toUTF8.toList

/-- What the iterator yields. -/
def item (x : TermList) : String × UInt32 × EncodedList := (x.1, x.2.docFreq, x.2)

end TermList

namespace IdxView

variable {v : IdxView}

-- ---------------------------------------------------------------------------
-- A block
-- ---------------------------------------------------------------------------

/-- The terms that a scan goes through without an error. -/
inductive Scans (v : IdxView) : BlockScan → List TermList → Prop
  | nil {s : BlockScan} (hNext : s.nextEntry v.bytes = .ok none) : Scans v s []
  | cons {s s' : BlockScan} {e : IdxEntry} {x : TermList} {xs : List TermList}
      (hNext : s.nextEntry v.bytes = .ok (some (e, s'))) (hTerm : e.term = x.key)
      (hList : v.postingsAt e.postingsOff e.postingsLen e.docFreq = .ok x.2)
      (hRest : Scans v s' xs) : Scans v s (x :: xs)

theorem eq_of_termText {bytes : List UInt8} {t : String} (h : termText bytes = .ok t) :
    bytes = t.toUTF8.toList := by
  unfold termText at h
  rcases hText : String.fromUTF8? bytes.toByteArray with _ | s
  · rw [hText] at h
    cases h
  rw [hText] at h
  obtain rfl := Except.ok.inj h
  unfold String.fromUTF8? at hText
  split_ifs at hText with hValid
  obtain rfl := Option.some.inj hText
  show bytes = ByteArray.toList (bytes.toByteArray)
  rw [ByteArray.toList_eq_data, List.toList_data_toByteArray]

theorem termText_key (x : TermList) : termText x.key = .ok x.1 := by
  unfold termText TermList.key
  rw [ByteArray.toByteArray_toList, String.fromUTF8?_toUTF8]

theorem docFreq_of_postingsAt {off len : Nat} {docFreq : UInt32} {l : EncodedList}
    (h : v.postingsAt off len docFreq = .ok l) : l.docFreq = docFreq := by
  unfold postingsAt at h
  split_ifs at h with hFit
  · obtain ⟨regionEnd, -, h⟩ := Chk.bind_ok h
    split_ifs at h with hIn
    · cases h
    obtain ⟨data, -, h⟩ := Chk.bind_ok h
    obtain rfl := Except.ok.inj h
    rfl
  · cases h

/-- Scanning takes one from what remains, or ends with nothing left. -/
theorem nextEntry_cases {s : BlockScan} {r : Option (IdxEntry × BlockScan)}
    (h : s.nextEntry v.bytes = .ok r) :
    (s.remaining = 0 ∧ r = none) ∨ ∃ e s', r = some (e, s') ∧ s'.remaining + 1 = s.remaining := by
  unfold BlockScan.nextEntry at h
  by_cases hZero : s.remaining = 0
  · rw [if_pos hZero] at h
    exact .inl ⟨hZero, (Except.ok.inj h).symm⟩
  rw [if_neg hZero] at h
  obtain ⟨⟨shared, p₁⟩, -, h⟩ := Chk.bind_ok h
  obtain ⟨⟨suffixLen, p₂⟩, -, h⟩ := Chk.bind_ok h
  simp only at h
  split_ifs at h with hPrefix
  · cases h
  obtain ⟨suffix, -, h⟩ := Chk.bind_ok h
  obtain ⟨p₃, -, h⟩ := Chk.bind_ok h
  obtain ⟨⟨docFreq, p₄⟩, -, h⟩ := Chk.bind_ok h
  obtain ⟨⟨postingsLen, p₅⟩, -, h⟩ := Chk.bind_ok h
  simp only at h
  split_ifs at h with hEnd hFit
  · cases h
  · refine .inr ⟨_, _, (Except.ok.inj h).symm, ?_⟩
    show s.remaining - 1 + 1 = s.remaining
    omega
  · cases h

theorem remaining_of_nextEntry {s s' : BlockScan} {e : IdxEntry}
    (h : s.nextEntry v.bytes = .ok (some (e, s'))) : s'.remaining + 1 = s.remaining := by
  rcases nextEntry_cases h with ⟨-, hNone⟩ | ⟨e', s'', hSome, hRem⟩
  · cases hNone
  · obtain ⟨-, rfl⟩ := Prod.mk.inj (Option.some.inj hSome)
    exact hRem

theorem nextEntry_none {s : BlockScan} (h : s.nextEntry v.bytes = .ok none) :
    s.remaining = 0 := by
  rcases nextEntry_cases h with ⟨hZero, -⟩ | ⟨e', s'', hSome, -⟩
  · exact hZero
  · cases hSome

theorem Scans.length_eq {s : BlockScan} {xs : List TermList} (h : v.Scans s xs) :
    xs.length = s.remaining := by
  induction h with
  | nil hNext => exact (nextEntry_none hNext).symm
  | cons hNext _ _ _ ih => rw [List.length_cons, ih, remaining_of_nextEntry hNext]

/-- The scan of a lookup: keys ascend, so it may stop at the first one that is not before the
target. -/
theorem Scans.scanFor {s : BlockScan} {xs : List TermList} {target : List UInt8} {fuel : Nat}
    (h : v.Scans s xs) (hLt : xs.Pairwise fun x y => x.key < y.key) (hFuel : xs.length < fuel) :
    v.scanFor target fuel s = .ok ((xs.find? fun x => x.key == target).map Prod.snd) := by
  induction h generalizing fuel with
  | nil hNext =>
    obtain ⟨fuel, rfl⟩ : ∃ k, fuel = k + 1 := ⟨fuel - 1, by omega⟩
    rw [IdxView.scanFor, hNext]
    rfl
  | @cons s s' e x xs hNext hTerm hList _ ih =>
    obtain ⟨fuel, rfl⟩ : ∃ k, fuel = k + 1 := ⟨fuel - 1, by omega⟩
    obtain ⟨hHead, hTail⟩ := List.pairwise_cons.mp hLt
    rw [IdxView.scanFor, hNext, Chk.ok_bind]
    show (if e.term < target then v.scanFor target fuel s'
      else if e.term = target then _ else _ : Chk (Option EncodedList)) = _
    rw [hTerm]
    split_ifs with hLess hEq
    · -- Not there yet.
      have hNe : (x.key == target) = false := by
        rw [beq_eq_false_iff_ne]
        rintro rfl
        exact absurd hLess (List.lt_irrefl _)
      rw [List.find?_cons_of_neg (by rw [hNe]; decide)]
      exact ih hTail (by
        rw [List.length_cons] at hFuel
        omega)
    · rw [List.find?_cons_of_pos (by rw [hEq, beq_self_eq_true]), hList]
      rfl
    · -- Passed: the rest is greater still.
      have hNone : (x :: xs).find? (fun x => x.key == target) = none := by
        refine List.find?_eq_none.mpr fun y hy hEqY => ?_
        have hY : y.key = target := beq_iff_eq.mp hEqY
        rcases List.mem_cons.mp hy with rfl | hMem
        · exact hEq hY
        · exact hLess (hY ▸ hHead y hMem)
      rw [hNone]
      rfl

-- ---------------------------------------------------------------------------
-- The blocks of a checked file
-- ---------------------------------------------------------------------------

/-- One block: it is opened and scanned, and the sparse index has its first term. -/
structure Holds (v : IdxView) (b : Nat) (xs : List TermList) : Prop where
  block : ∃ s, v.block b = .ok s ∧ v.Scans s xs
  first : ∃ first off rel, v.sparseEntry b = .ok (first, off, rel) ∧
    ∀ x ∈ xs.head?, x.key = first

/-- All blocks: their terms ascend, and every list decodes. -/
structure Blocks (v : IdxView) (blocks : List (List TermList)) : Prop where
  length_eq : blocks.length = v.toc.numBlocks.toNat
  holds : ∀ b xs, blocks[b]? = some xs → v.Holds b xs
  ne_nil : ∀ xs ∈ blocks, xs ≠ []
  sorted : blocks.flatten.Pairwise fun x y => x.key < y.key
  decodes : ∀ x ∈ blocks.flatten, ∃ ps, x.2.Decodes ps

-- ---------------------------------------------------------------------------
-- From the check to the blocks
-- ---------------------------------------------------------------------------

/-- The terms ascend from `prev` on. -/
def Above (prev : Option (List UInt8)) (xs : List TermList) : Prop :=
  xs.Pairwise (fun x y => x.key < y.key) ∧ ∀ p ∈ prev, ∀ x ∈ xs, p < x.key

/-- What the loop over a block has seen. -/
theorem scans_of_verifyEntries {b fuel : Nat} {first : Option (List UInt8)} {s : BlockScan}
    {p p' : Progress} (h : v.verifyEntries b fuel first s p = .ok p')
    (hFuel : s.remaining < fuel) :
    ∃ xs, v.Scans s xs ∧ (∀ t ∈ first, ∀ x ∈ xs.head?, x.key = t) ∧ Above p.prev xs ∧
      (∀ x ∈ xs, ∃ ps, x.2.Decodes ps) ∧ p'.count = p.count + xs.length ∧
      p'.prev = (xs.getLast?.map TermList.key).or p.prev := by
  induction fuel generalizing first s p with
  | zero => exact absurd hFuel (Nat.not_lt_zero _)
  | succ fuel ih =>
    rw [verifyEntries] at h
    obtain ⟨r, hNext, h⟩ := Chk.bind_ok h
    rcases r with _ | ⟨e, s'⟩
    · obtain rfl := Except.ok.inj h
      exact ⟨[], .nil hNext, (by rintro _ _ _ ⟨⟩),
        ⟨List.Pairwise.nil, fun _ _ => List.forall_mem_nil _⟩, List.forall_mem_nil _, rfl, rfl⟩
    simp only at h
    by_cases hFirst : (first.any fun t => decide (e.term ≠ t)) = true
    · rw [if_pos hFirst] at h
      cases h
    rw [if_neg hFirst] at h
    by_cases hOrder : (p.prev.any fun t => decide (e.term ≤ t)) = true
    · rw [if_pos hOrder] at h
      cases h
    rw [if_neg hOrder] at h
    obtain ⟨t, hText, h⟩ := Chk.bind_ok h
    obtain ⟨l, hList, h⟩ := Chk.bind_ok h
    obtain ⟨⟨⟩, hVerify, h⟩ := Chk.bind_ok h
    obtain ⟨count, hCount, h⟩ := Chk.bind_ok h
    obtain ⟨expected, -, h⟩ := Chk.bind_ok h
    obtain ⟨xs, hScans, -, ⟨hSorted, hAbove⟩, hDecodes, hTotal, hLast⟩ := ih h (by
      have := remaining_of_nextEntry hNext
      omega)
    have hTerm : e.term = t.toUTF8.toList := eq_of_termText hText
    have hHead : ∀ x ∈ xs, e.term < x.key := hAbove e.term rfl
    refine ⟨(t, l) :: xs, .cons hNext hTerm hList hScans, ?_, ⟨?_, ?_⟩, ?_, ?_, ?_⟩
    · rintro t' rfl x ⟨⟩
      show t.toUTF8.toList = t'
      rw [← hTerm]
      by_contra hNe
      exact hFirst (by simpa using hNe)
    · refine List.pairwise_cons.mpr ⟨fun x hx => ?_, hSorted⟩
      show t.toUTF8.toList < x.key
      rw [← hTerm]
      exact hHead x hx
    · -- The term is behind the one before it, and the rest behind the term.
      intro q hq x hx
      have hLt : q < e.term := by
        by_contra hNot
        refine hOrder ?_
        rw [hq]
        simpa using hNot
      rcases List.mem_cons.mp hx with rfl | hx
      · show q < t.toUTF8.toList
        rw [← hTerm]
        exact hLt
      · exact List.lt_trans hLt (hHead x hx)
    · exact List.forall_mem_cons.mpr
        ⟨EncodedList.decodes_of_verify (Chk.ofFormat_ok hVerify), hDecodes⟩
    · rw [hTotal, List.length_cons]
      show count + xs.length = _
      rw [Chk.add_eq_ok hCount]
      omega
    · rw [hLast]
      show (xs.getLast?.map TermList.key).or (some e.term) = _
      rw [hTerm]
      cases xs with
      | nil => rfl
      | cons x xs =>
        rw [List.getLast?_cons_cons]
        obtain ⟨y, hy⟩ : ∃ y, (x :: xs).getLast? = some y :=
          ⟨_, List.getLast?_eq_some_getLast (List.cons_ne_nil _ _)⟩
        rw [hy]
        rfl

/-- The last term of all is that of the last block, if it has one. -/
theorem Above.append {prev : Option (List UInt8)} {xs ys : List TermList} (h : Above prev xs)
    (hNext : Above ((xs.getLast?.map TermList.key).or prev) ys) : Above prev (xs ++ ys) := by
  obtain ⟨hXs, hPrev⟩ := h
  obtain ⟨hYs, hLast⟩ := hNext
  rcases List.eq_nil_or_concat xs with rfl | ⟨zs, z, rfl⟩
  · exact ⟨hYs, hLast⟩
  rw [List.concat_eq_append] at hXs hPrev hLast ⊢
  have hBetween : ∀ y ∈ ys, z.key < y.key := hLast z.key (by simp)
  have hAll : ∀ x ∈ zs ++ [z], ∀ y ∈ ys, x.key < y.key := by
    intro x hx y hy
    rcases List.mem_append.mp hx with hx | hx
    · have hZ : x.key < z.key :=
        (List.pairwise_append.mp hXs).2.2 x hx z (List.mem_singleton_self z)
      exact List.lt_trans hZ (hBetween y hy)
    · obtain rfl := List.mem_singleton.mp hx
      exact hBetween y hy
  refine ⟨List.pairwise_append.mpr ⟨hXs, hYs, hAll⟩, fun p hp y hy => ?_⟩
  rcases List.mem_append.mp hy with hy | hy
  · exact hPrev p hp y hy
  · exact List.lt_trans (hPrev p hp z (by simp)) (hBetween y hy)

/-- What the loop over the blocks from `b` on has seen. -/
theorem blocks_of_verifyBlocks {fuel b : Nat} {p p' : Progress}
    (h : v.verifyBlocks fuel b p = .ok p') :
    ∃ blocks : List (List TermList), blocks.length = fuel ∧
      (∀ i xs, blocks[i]? = some xs → v.Holds (b + i) xs) ∧ Above p.prev blocks.flatten ∧
      (∀ x ∈ blocks.flatten, ∃ ps, x.2.Decodes ps) ∧
      p'.count = p.count + blocks.flatten.length := by
  induction fuel generalizing b p with
  | zero =>
    obtain rfl := Except.ok.inj h
    exact ⟨[], rfl, (fun _ _ hx => nomatch hx),
      ⟨List.Pairwise.nil, fun _ _ => List.forall_mem_nil _⟩, List.forall_mem_nil _, rfl⟩
  | succ fuel ih =>
    rw [verifyBlocks] at h
    obtain ⟨⟨first, off, rel⟩, hSparse, h⟩ := Chk.bind_ok h
    obtain ⟨start, -, h⟩ := Chk.bind_ok h
    by_cases hStart : start ≠ p.expected
    · rw [if_pos hStart] at h
      cases h
    rw [if_neg hStart] at h
    obtain ⟨s, hBlock, h⟩ := Chk.bind_ok h
    -- The comparison with the block before does not matter here.
    obtain ⟨p₁, hEntries, hRest⟩ : ∃ p₁,
        v.verifyEntries b (s.remaining + 1) (some first) s p = .ok p₁ ∧
          v.verifyBlocks fuel (b + 1) p₁ = .ok p' := by
      split_ifs at h with hb
      · obtain ⟨last, -, h⟩ := Chk.bind_ok h
        obtain ⟨pos, -, h⟩ := Chk.bind_ok h
        obtain ⟨at', -, h⟩ := Chk.bind_ok h
        split_ifs at h with hPos
        · cases h
        · exact Chk.bind_ok h
      · exact Chk.bind_ok h
    obtain ⟨xs, hScans, hFirst, hAbove, hDecodes, hCount, hLast⟩ :=
      scans_of_verifyEntries hEntries (Nat.lt_succ_self _)
    obtain ⟨blocks, hLen, hHolds, hAbove', hDecodes', hCount'⟩ := ih hRest
    rw [hLast] at hAbove'
    refine ⟨xs :: blocks, by rw [List.length_cons, hLen], ?_, ?_, ?_, ?_⟩
    · intro i ys hi
      cases i with
      | zero =>
        obtain rfl := Option.some.inj hi
        exact ⟨⟨s, hBlock, hScans⟩, first, off, rel, hSparse, hFirst first rfl⟩
      | succ i =>
        rw [Nat.add_succ, ← Nat.succ_add]
        exact hHolds i ys hi
    · rw [List.flatten_cons]
      exact hAbove.append hAbove'
    · rw [List.flatten_cons]
      intro x hx
      rcases List.mem_append.mp hx with hx | hx
      · exact hDecodes x hx
      · exact hDecodes' x hx
    · rw [hCount', hCount, List.flatten_cons, List.length_append, Nat.add_assoc]

/-- What was checked, block by block. -/
theorem blocks_of_verify [Platform] {bytes : List UInt8} (hParse : parse bytes = .ok v)
    (hVerify : v.verify = .ok ()) :
    ∃ blocks, v.Blocks blocks ∧ blocks.flatten.length = v.toc.numTerms := by
  have hTiles : v.toc.Tiles v.env.bodyEnd := by
    obtain ⟨env, -, hParse⟩ := Chk.bind_ok hParse
    split_ifs at hParse
    obtain ⟨toc, -, hParse⟩ := Chk.bind_ok hParse
    split_ifs at hParse with hOk
    · obtain rfl := Except.ok.inj hParse
      exact hOk
    · cases hParse
  obtain ⟨⟨⟩, -, hVerify⟩ := Chk.bind_ok hVerify
  obtain ⟨p, hBlocks, hVerify⟩ := Chk.bind_ok hVerify
  by_cases hCount : p.count ≠ v.toc.numTerms
  · rw [if_pos hCount] at hVerify
    cases hVerify
  rw [not_not] at hCount
  obtain ⟨blocks, hLen, hHolds, ⟨hSorted, -⟩, hDecodes, hTotal⟩ := blocks_of_verifyBlocks hBlocks
  replace hTotal : p.count = 0 + blocks.flatten.length := hTotal
  refine ⟨blocks, ⟨hLen, fun b xs hb => ?_, fun xs hxs => ?_, hSorted, hDecodes⟩, by omega⟩
  · have hAt := hHolds b xs hb
    rwa [Nat.zero_add] at hAt
  · -- Every block has a term: there are as many as the terms need.
    obtain ⟨b, hb⟩ := List.mem_iff_getElem?.mp hxs
    obtain ⟨s, hBlock, hScans⟩ := (hHolds b xs hb).block
    have hLt := (List.getElem?_eq_some_iff.mp hb).1
    have hNum := hTiles.numBlocks
    rw [← hLen] at hNum
    rw [Nat.zero_add] at hBlock
    have hRem := remaining_of_block hBlock
    rintro rfl
    have hZero := hScans.length_eq
    rw [List.length_nil] at hZero
    unfold Idx.blockSize at hNum hRem
    omega

-- ---------------------------------------------------------------------------
-- Lookup
-- ---------------------------------------------------------------------------

namespace Blocks

variable {blocks : List (List TermList)}

/-- Blocks ascend as wholes. -/
theorem key_lt (h : v.Blocks blocks) {a b : Nat} (hab : a < b) {xs ys : List TermList}
    (ha : blocks[a]? = some xs) (hb : blocks[b]? = some ys) :
    ∀ x ∈ xs, ∀ y ∈ ys, x.key < y.key := by
  have hPairs := (List.pairwise_flatten.mp h.sorted).2
  obtain ⟨ha', rfl⟩ := List.getElem?_eq_some_iff.mp ha
  obtain ⟨hb', rfl⟩ := List.getElem?_eq_some_iff.mp hb
  exact List.pairwise_iff_getElem.mp hPairs a b ha' hb' hab

/-- The key that a block starts with. -/
def first (blocks : List (List TermList)) (b : Nat) : List UInt8 :=
  ((blocks[b]?.bind List.head?).map TermList.key).getD []

/-- A block with its first term. -/
theorem exists_block (h : v.Blocks blocks) {b : Nat} (hb : b < v.toc.numBlocks.toNat) :
    ∃ x xs, blocks[b]? = some (x :: xs) ∧ first blocks b = x.key := by
  rw [← h.length_eq] at hb
  have hGet := List.getElem?_eq_getElem hb
  rcases hXs : blocks[b] with _ | ⟨x, xs⟩
  · exact absurd hXs (h.ne_nil _ (List.getElem_mem hb))
  · rw [hXs] at hGet
    exact ⟨x, xs, hGet, by rw [first, hGet]; rfl⟩

theorem sparseEntry_first (h : v.Blocks blocks) {b : Nat} (hb : b < v.toc.numBlocks.toNat) :
    ∃ x, v.sparseEntry b = .ok (first blocks b, x) := by
  obtain ⟨x, xs, hGet, hFirst⟩ := h.exists_block hb
  obtain ⟨t, off, rel, hSparse, hHead⟩ := (h.holds b _ hGet).first
  exact ⟨(off, rel), by rw [hFirst, hHead x rfl, hSparse]⟩

theorem first_lt (h : v.Blocks blocks) {a b : Nat} (hab : a < b)
    (hb : b < v.toc.numBlocks.toNat) : first blocks a < first blocks b := by
  obtain ⟨x, xs, ha, hx⟩ := h.exists_block (Nat.lt_trans hab hb)
  obtain ⟨y, ys, hb, hy⟩ := h.exists_block hb
  rw [hx, hy]
  exact h.key_lt hab ha hb x List.mem_cons_self y List.mem_cons_self

/-- The binary search. -/
theorem search (h : v.Blocks blocks) {target : List UInt8} {fuel lo hi : Nat}
    (hFuel : hi - lo ≤ fuel) (hLe : lo ≤ hi) (hHi : hi ≤ v.toc.numBlocks.toNat)
    (hBefore : ∀ b, b < lo → ¬ target < first blocks b)
    (hBehind : ∀ b, hi ≤ b → b < v.toc.numBlocks.toNat → target < first blocks b) :
    ∃ r, v.search target fuel lo hi = .ok r ∧ r ≤ v.toc.numBlocks.toNat ∧
      (∀ b, b < r → ¬ target < first blocks b) ∧
      ∀ b, r ≤ b → b < v.toc.numBlocks.toNat → target < first blocks b :=
  search_firsts (fun _ hb => h.sparseEntry_first hb) (fun _ _ hab hb => h.first_lt hab hb)
    hFuel hLe hHi hBefore hBehind

theorem first_le (h : v.Blocks blocks) {b : Nat} {xs : List TermList}
    (hb : blocks[b]? = some xs) : ∀ x ∈ xs, ¬ x.key < first blocks b := by
  intro x hx
  rw [first, hb]
  cases xs with
  | nil => cases hx
  | cons y ys =>
    show ¬ x.key < y.key
    rcases List.mem_cons.mp hx with rfl | hx
    · exact List.lt_irrefl _
    · have hBlock := (List.pairwise_flatten.mp h.sorted).1 _ (List.mem_of_getElem? hb)
      have hLt := (List.pairwise_cons.mp hBlock).1 x hx
      exact fun hGt => List.lt_irrefl _ (List.lt_trans hGt hLt)

/-- In ascending terms a key has one list. -/
theorem find_iff {xs : List TermList} (hSorted : xs.Pairwise fun x y => x.key < y.key)
    {target : List UInt8} {l : EncodedList} :
    (xs.find? fun x => x.key == target).map Prod.snd = some l ↔
      ∃ x ∈ xs, x.key = target ∧ x.2 = l := by
  constructor
  · intro hFind
    obtain ⟨x, hx, rfl⟩ := Option.map_eq_some_iff.mp hFind
    exact ⟨x, List.mem_of_find?_eq_some hx, by simpa using List.find?_some hx, rfl⟩
  · rintro ⟨x, hx, rfl, rfl⟩
    induction xs with
    | nil => cases hx
    | cons y ys ih =>
      obtain ⟨hHead, hTail⟩ := List.pairwise_cons.mp hSorted
      rcases List.mem_cons.mp hx with rfl | hx
      · rw [List.find?_cons, beq_self_eq_true]
        rfl
      · have hNe : (y.key == x.key) = false := by
          rw [beq_eq_false_iff_ne]
          intro hEq
          have hLt := hHead x hx
          rw [hEq] at hLt
          exact List.lt_irrefl _ hLt
        rw [List.find?_cons, hNe]
        exact ih hTail hx

/-- A term is looked up among those of all blocks. -/
theorem lookupInner (h : v.Blocks blocks) (target : List UInt8) :
    ∃ r, v.lookupInner target = .ok r ∧
      ∀ l, r = some l ↔ ∃ x ∈ blocks.flatten, x.key = target ∧ x.2 = l := by
  unfold IdxView.lookupInner
  by_cases hNone : v.toc.numBlocks.toNat = 0
  · -- No block at all.
    have hNil : blocks = [] := List.length_eq_zero_iff.mp (h.length_eq.trans hNone)
    refine ⟨none, if_pos hNone, fun l => iff_of_false (fun hSome => nomatch hSome) ?_⟩
    rintro ⟨x, hx, -⟩
    rw [hNil] at hx
    cases hx
  obtain ⟨r, hr, hLe, hBefore, hBehind⟩ := @search _ _ h target v.toc.numBlocks.toNat 0
    v.toc.numBlocks.toNat (by omega) (Nat.zero_le _) (Nat.le_refl _)
    (fun b hb => absurd hb (Nat.not_lt_zero _)) (fun b hb hbn => by omega)
  simp only [hNone, if_false, hr, bind, Except.bind]
  -- A block with the target is the one before `r`.
  have hOnly : ∀ b xs, blocks[b]? = some xs → ∀ x ∈ xs, x.key = target → b + 1 = r := by
    rintro b xs hb x hx rfl
    have hbLt : b < v.toc.numBlocks.toNat := by
      rw [← h.length_eq]
      exact (List.getElem?_eq_some_iff.mp hb).1
    have hBelow : b < r := by
      by_contra hNot
      exact h.first_le hb x hx (hBehind b (Nat.not_lt.mp hNot) hbLt)
    by_contra hNe
    obtain ⟨y, ys, hNext, hFirst⟩ := h.exists_block (show b + 1 < v.toc.numBlocks.toNat by omega)
    refine hBefore (b + 1) (by omega) ?_
    rw [hFirst]
    exact h.key_lt (Nat.lt_succ_self b) hb hNext x hx y List.mem_cons_self
  have hFind : ∀ x ∈ blocks.flatten, x.key = target → ∃ b xs, blocks[b]? = some xs ∧ x ∈ xs ∧
      b + 1 = r := by
    intro x hx hKey
    obtain ⟨xs, hxs, hMem⟩ := List.mem_flatten.mp hx
    obtain ⟨b, hb⟩ := List.mem_iff_getElem?.mp hxs
    exact ⟨b, xs, hb, hMem, hOnly b xs hb x hMem hKey⟩
  by_cases hZero : r = 0
  · -- The target is before every term.
    refine ⟨none, by rw [if_pos hZero], fun l => iff_of_false (fun hSome => nomatch hSome) ?_⟩
    rintro ⟨x, hx, hKey, -⟩
    obtain ⟨b, xs, -, -, hEq⟩ := hFind x hx hKey
    omega
  · obtain ⟨b, rfl⟩ : ∃ b, r = b + 1 := ⟨r - 1, by omega⟩
    obtain ⟨y, ys, hb, -⟩ := h.exists_block (show b < v.toc.numBlocks.toNat by omega)
    obtain ⟨s, hBlock, hScans⟩ := (h.holds b _ hb).block
    have hSorted := (List.pairwise_flatten.mp h.sorted).1 _ (List.mem_of_getElem? hb)
    have hScan := @Scans.scanFor _ _ _ target (s.remaining + 1) hScans hSorted
      (by rw [hScans.length_eq]; exact Nat.lt_succ_self _)
    refine ⟨_, ?_, fun l => (@find_iff _ hSorted target l).trans ⟨?_, ?_⟩⟩
    · rw [if_neg hZero, Nat.add_sub_cancel, hBlock]
      exact hScan
    · rintro ⟨x, hx, hKey, hl⟩
      exact ⟨x, List.mem_flatten.mpr ⟨_, List.mem_of_getElem? hb, hx⟩, hKey, hl⟩
    · rintro ⟨x, hx, hKey, hl⟩
      obtain ⟨a, xs, ha, hMem, hEq⟩ := hFind x hx hKey
      obtain rfl : a = b := by omega
      obtain rfl := Option.some.inj (ha.symm.trans hb)
      exact ⟨x, hMem, hKey, hl⟩

-- ---------------------------------------------------------------------------
-- The iterator
-- ---------------------------------------------------------------------------

/-- The terms that an iterator has before it. -/
inductive Rest (v : IdxView) (blocks : List (List TermList)) : TermIter → List TermList → Prop
  | outside (b : Nat) : Rest v blocks ⟨b, none⟩ (blocks.drop b).flatten
  | inside {s : BlockScan} {xs : List TermList} (b : Nat) (hScans : v.Scans s xs) :
      Rest v blocks ⟨b, some s⟩ (xs ++ (blocks.drop b).flatten)

theorem tryNext_inside {b fuel : Nat} {s : BlockScan} {x : TermList} {xs : List TermList}
    (hScans : v.Scans s (x :: xs)) :
    ∃ it, v.tryNext (fuel + 1) ⟨b, some s⟩ = .ok (some (x.item, it)) ∧
      Rest v blocks it (xs ++ (blocks.drop b).flatten) := by
  cases hScans with
  | @cons _ s' e _ _ hNext hTerm hList hRest =>
    refine ⟨⟨b, some s'⟩, ?_, .inside b hRest⟩
    rw [IdxView.tryNext]
    simp only [bind, Except.bind, hNext, hTerm, termText_key, hList]
    rw [← docFreq_of_postingsAt hList]
    rfl

/-- Between two blocks. -/
theorem tryNext_outside (h : v.Blocks blocks) (b fuel : Nat) :
    ((blocks.drop b).flatten = [] → v.tryNext (fuel + 1) ⟨b, none⟩ = .ok none) ∧
      ∀ x xs, (blocks.drop b).flatten = x :: xs →
        ∃ it, v.tryNext (fuel + 2) ⟨b, none⟩ = .ok (some (x.item, it)) ∧ Rest v blocks it xs := by
  rcases Nat.lt_or_ge b v.toc.numBlocks.toNat with hb | hb
  · obtain ⟨y, ys, hGet, -⟩ := h.exists_block hb
    obtain ⟨hLt, hEq⟩ := List.getElem?_eq_some_iff.mp hGet
    have hDrop : (blocks.drop b).flatten = y :: (ys ++ (blocks.drop (b + 1)).flatten) := by
      rw [List.drop_eq_getElem_cons hLt, hEq, List.flatten_cons, List.cons_append]
    obtain ⟨s, hBlock, hScans⟩ := (h.holds b _ hGet).block
    refine ⟨fun hNil => absurd (hDrop.symm.trans hNil) (List.cons_ne_nil _ _), ?_⟩
    intro x xs hCons
    obtain ⟨rfl, rfl⟩ := List.cons.inj (hDrop.symm.trans hCons)
    obtain ⟨it, hNext, hRest⟩ := @tryNext_inside v blocks (b + 1) fuel s y ys hScans
    refine ⟨it, ?_, hRest⟩
    rw [IdxView.tryNext]
    simp only [bind, Except.bind, if_neg (Nat.not_le.mpr hb), hBlock]
    exact hNext
  · have hNil : blocks.drop b = [] := List.drop_eq_nil_of_le (by rw [h.length_eq]; exact hb)
    rw [hNil]
    refine ⟨fun _ => ?_, fun x xs hCons => absurd hCons.symm (List.cons_ne_nil x xs)⟩
    rw [IdxView.tryNext]
    simp only [if_pos hb]

/-- One step of the iterator. -/
theorem tryNext_rest (h : v.Blocks blocks) {it : TermIter} {xs : List TermList}
    (hIt : Rest v blocks it xs) (fuel : Nat) :
    (xs = [] → v.tryNext (fuel + 3) it = .ok none) ∧
      ∀ y ys, xs = y :: ys → ∃ it', v.tryNext (fuel + 3) it = .ok (some (y.item, it')) ∧
        Rest v blocks it' ys := by
  cases hIt with
  | outside b => exact ⟨(h.tryNext_outside b (fuel + 2)).1, (h.tryNext_outside b (fuel + 1)).2⟩
  | @inside s xs b hScans =>
    cases xs with
    | nil =>
      -- The block is at its end.
      have hStep : v.tryNext (fuel + 3) ⟨b, some s⟩ = v.tryNext (fuel + 2) ⟨b, none⟩ := by
        cases hScans with
        | nil hNext =>
          rw [IdxView.tryNext]
          simp only [bind, Except.bind, hNext]
      rw [List.nil_append, hStep]
      exact ⟨(h.tryNext_outside b (fuel + 1)).1, (h.tryNext_outside b fuel).2⟩
    | cons x xs =>
      refine ⟨fun hNil => (List.cons_ne_nil _ _ hNil).elim, ?_⟩
      rintro _ _ ⟨⟩
      exact tryNext_inside hScans

theorem collect_rest (h : v.Blocks blocks) {it : TermIter} {xs : List TermList}
    (hIt : Rest v blocks it xs) {fuel : Nat} (hFuel : xs.length < fuel)
    (hSome : 0 < v.toc.numBlocks.toNat) : v.collect fuel it = .ok (xs.map TermList.item) := by
  have hTurns : 2 * v.toc.numBlocks.toNat + 2 = 2 * v.toc.numBlocks.toNat - 1 + 3 := by omega
  induction xs generalizing it fuel with
  | nil =>
    obtain ⟨fuel, rfl⟩ : ∃ k, fuel = k + 1 := ⟨fuel - 1, by omega⟩
    rw [IdxView.collect, hTurns, (h.tryNext_rest hIt _).1 rfl]
    rfl
  | cons x xs ih =>
    obtain ⟨fuel, rfl⟩ : ∃ k, fuel = k + 1 := ⟨fuel - 1, by omega⟩
    obtain ⟨it', hNext, hIt'⟩ := (h.tryNext_rest hIt (2 * v.toc.numBlocks.toNat - 1)).2 x xs rfl
    rw [IdxView.collect, hTurns, hNext]
    simp only [bind, Except.bind]
    rw [ih hIt' (by rw [List.length_cons] at hFuel; omega)]
    rfl

/-- Iterating yields the terms of all blocks in order. -/
theorem terms (h : v.Blocks blocks) (hNum : blocks.flatten.length = v.toc.numTerms) :
    v.terms = .ok (blocks.flatten.map TermList.item) := by
  unfold IdxView.terms
  by_cases hSome : 0 < v.toc.numBlocks.toNat
  · have hStart := @Rest.outside v blocks 0
    rw [List.drop_zero] at hStart
    exact h.collect_rest hStart (by rw [hNum]; exact Nat.lt_succ_self _) hSome
  · have hNil : blocks = [] := List.length_eq_zero_iff.mp (by rw [h.length_eq]; omega)
    have hEnd : v.toc.numBlocks.toNat ≤ 0 := by omega
    rw [← hNum, hNil, List.flatten_nil, List.length_nil, IdxView.collect, IdxView.tryNext]
    simp only [bind, Except.bind, if_pos hEnd]
    rfl

end Blocks

end IdxView

-- ---------------------------------------------------------------------------
-- The query path
-- ---------------------------------------------------------------------------

/-- A file that is opened and verified: the iterator yields ascending terms, a term is looked
up exactly if the iterator yields it, with the same list, and every list decodes, however its
cursor is used. -/
theorem verify_sound [Platform] {bytes : List UInt8} {v : IdxView}
    (hParse : IdxView.parse bytes = .ok v) (hVerify : v.verify = .ok ()) :
    ∃ items, v.terms = .ok items ∧
      items.Pairwise (fun x y => x.1.toUTF8.toList < y.1.toUTF8.toList) ∧
      (∀ t, ∃ r, v.lookup t = .ok r ∧ ∀ l, r = some l ↔ (t, l.docFreq, l) ∈ items) ∧
      ∀ x ∈ items, x.2.1 = x.2.2.docFreq ∧ ∃ ps, x.2.2.Decodes ps := by
  obtain ⟨blocks, hBlocks, hNum⟩ := IdxView.blocks_of_verify hParse hVerify
  refine ⟨_, hBlocks.terms hNum, List.pairwise_map.mpr hBlocks.sorted, fun t => ?_, ?_⟩
  · obtain ⟨r, hLookup, hIff⟩ := hBlocks.lookupInner t.toUTF8.toList
    refine ⟨r, by rw [IdxView.lookup, hLookup], fun l => (hIff l).trans ⟨?_, ?_⟩⟩
    · rintro ⟨x, hx, hKey, rfl⟩
      obtain rfl : x.1 = t := String.toUTF8_toList_inj.mp hKey
      exact List.mem_map.mpr ⟨x, hx, rfl⟩
    · intro hMem
      obtain ⟨x, hx, hItem⟩ := List.mem_map.mp hMem
      obtain ⟨rfl, hRest⟩ := Prod.mk.inj hItem
      exact ⟨x, hx, rfl, (Prod.mk.inj hRest).2⟩
  · intro y hy
    obtain ⟨x, hx, rfl⟩ := List.mem_map.mp hy
    exact ⟨rfl, hBlocks.decodes x hx⟩

/-- Two terms, one of them in two documents. -/
def Idx.twoTerms : List (String × MemPostingList) :=
  [("a", [⟨0, [0]⟩]), ("c", [⟨0, [3]⟩, ⟨1, [0, 7]⟩])]

theorem verify_sound_two :
    let _ : Platform := .reference
    ∃ file v items, IdxView.parse file = .ok v ∧ v.terms = .ok items ∧
      items.Pairwise (fun x y => x.1.toUTF8.toList < y.1.toUTF8.toList) ∧
      (∀ t, ∃ r, v.lookup t = .ok r ∧ ∀ l, r = some l ↔ (t, l.docFreq, l) ∈ items) ∧
      ∀ x ∈ items, x.2.1 = x.2.2.docFreq ∧ ∃ ps, x.2.2.Decodes ps := by
  intro _
  have hLists : ∀ e ∈ Idx.twoTerms, e.2.Pairwise (fun p q => p.doc < q.doc) ∧
      ∀ p ∈ e.2, p.positions ≠ [] ∧ p.positions.Pairwise (· < ·) := by decide +kernel
  have hEnc : ∀ e ∈ Idx.twoTerms, ∃ x, Idx.encodePostings e.2 = .ok x := by
    intro e he
    obtain ⟨hDocs, hPos⟩ := hLists e he
    exact Idx.encodePostings_isOk.mpr
      ⟨hDocs, by simp, fun p hp => (hPos p hp).1, fun p hp => (hPos p hp).2⟩
  obtain ⟨file, summary, -, hIff⟩ :=
    Idx.faithful_iff (by decide +kernel) hEnc (by decide +kernel)
  obtain ⟨v, hFaithful⟩ := hIff.mpr (by decide +kernel)
  obtain ⟨items, hItems⟩ := verify_sound hFaithful.parse hFaithful.verify
  exact ⟨file, v, items, hFaithful.parse, hItems⟩

end Ripindex
