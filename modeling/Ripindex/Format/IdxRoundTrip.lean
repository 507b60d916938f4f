import Ripindex.Format.IdxRegions
import Ripindex.Format.IdxView
import Ripindex.Lib.Text

/-!
# The round trip of the term dictionary
-/

namespace Ripindex

open Format Idx

-- ---------------------------------------------------------------------------
-- Scanning a block
-- ---------------------------------------------------------------------------

/-- The regions of the file lie within it. -/
structure IdxView.Sized (v : IdxView) : Prop where
  length_lt : v.bytes.length < 2 ^ 64
  region_le : v.toc.postingsOff + v.toc.postingsLen ≤ v.bytes.length

/-- The scan stands in front of the entries, the last ones of their block. -/
structure BlockScan.On (v : IdxView) (s : BlockScan) (es : List Raw) : Prop where
  at_pos : At v.bytes s.pos (chain s.term es)
  pos_le : s.pos ≤ v.bytes.length
  remaining : s.remaining = es.length
  stop : s.pos + (chain s.term es).length ≤ s.stop
  at_postings : At v.bytes s.postingsPos (es.flatMap Raw.data)
  postings_le : s.postingsPos + (es.flatMap Raw.data).length ≤
    v.toc.postingsOff + v.toc.postingsLen

/-- The scan behind the entry `e`. -/
def BlockScan.after (s : BlockScan) (e : Raw) : BlockScan :=
  ⟨s.pos + (entryBytes s.term e).length, s.stop, s.remaining - 1, e.term,
    s.postingsPos + e.data.length⟩

variable {v : IdxView}

theorem BlockScan.On.nextEntry_nil {s : BlockScan} (h : s.On v []) :
    s.nextEntry v.bytes = .ok none := by
  have hZero : s.remaining = 0 := h.remaining
  unfold BlockScan.nextEntry
  rw [if_pos hZero]

/-- The next entry is the first one in front of the scan. -/
theorem BlockScan.On.nextEntry {s : BlockScan} {e : Raw} {es : List Raw} (hv : v.Sized)
    (h : s.On v (e :: es)) (hTerm : e.term.length ≤ maxTermBytes) :
    s.nextEntry v.bytes =
        .ok (some (⟨e.term, e.docFreq, s.postingsPos, e.data.length⟩, s.after e)) ∧
      (s.after e).On v es := by
  have hAt := h.at_pos
  have hPost := h.at_postings
  have hStop := h.stop
  have hRegion := h.postings_le
  rw [chain] at hAt hStop
  rw [List.flatMap_cons] at hPost hRegion
  rw [List.length_append] at hStop hRegion
  have hSmall := hv.length_lt
  have hRegionLe := hv.region_le
  have hLe := hAt.left.length_le h.pos_le
  obtain ⟨hPrefix, hShared⟩ := commonPrefix_le s.term e.term
  generalize hC : commonPrefix s.term e.term = c at hPrefix hShared
  have hBytes : entryBytes s.term e = putVarint c ++ (putVarint (e.term.length - c) ++
      (e.term.drop c ++ (putU32 e.docFreq ++ putVarint e.data.length))) := by
    rw [entryBytes, hC]
  have hEntry := hAt.left
  have hLen := congrArg List.length hBytes
  rw [hBytes] at hEntry
  simp only [List.length_append, List.length_drop] at hLen
  unfold maxTermBytes at hTerm
  -- The fields one after the other.
  have hRead1 := readU32_putVarint hEntry.left (by omega)
  have hRead2 := readU32_putVarint hEntry.right.left (by omega)
  have hRead3 := slice_at hEntry.right.right.left (by omega)
  have hRead4 := readU32_putU32 hEntry.right.right.right.left
  have hRead5 := readU64_putVarint hEntry.right.right.right.right (by omega)
  have hC32 : (UInt32.ofNat c).toNat = c := UInt32.toNat_ofNat_of_lt' (by
    show c < 2 ^ 32
    omega)
  have hSuffix : (UInt32.ofNat (e.term.length - c)).toNat = e.term.length - c :=
    UInt32.toNat_ofNat_of_lt' (by
      show e.term.length - c < 2 ^ 32
      omega)
  rw [List.length_drop] at hRead3 hRead4 hRead5
  constructor
  · unfold BlockScan.nextEntry
    have hSome : ¬ s.remaining = 0 := by
      rw [h.remaining, List.length_cons]
      omega
    have hAdd : Chk.add (s.pos + (putVarint c).length + (putVarint (e.term.length - c)).length)
        (e.term.length - c) = .ok (s.pos + (putVarint c).length +
          (putVarint (e.term.length - c)).length + (e.term.length - c)) :=
      Chk.add_ok (by omega)
    have hEnd : ¬ s.stop < s.pos + (putVarint c).length +
        (putVarint (e.term.length - c)).length + (e.term.length - c) +
        (putU32 e.docFreq).length + (putVarint e.data.length).length := by omega
    have hFit : s.postingsPos + e.data.length < 2 ^ 64 := by omega
    have hTake : s.term.take c ++ e.term.drop c = e.term := by
      rw [← hC]
      exact take_commonPrefix _ _
    rw [if_neg hSome, hRead1]
    simp only [Chk.ofFormat, bind, Except.bind, hRead2, hC32, hSuffix,
      if_neg (Nat.not_lt.mpr hPrefix), hRead3, hAdd, hRead4, hRead5, if_neg hEnd, if_pos hFit,
      hTake]
    unfold BlockScan.after
    congr 4
    omega
  · unfold BlockScan.after
    refine ⟨hAt.right, hLe, ?_, ?_, hPost.right, ?_⟩
    · show s.remaining - 1 = es.length
      rw [h.remaining, List.length_cons, Nat.add_sub_cancel]
    · show s.pos + (entryBytes s.term e).length + (chain e.term es).length ≤ s.stop
      omega
    · show s.postingsPos + e.data.length + (es.flatMap Raw.data).length ≤ _
      omega

/-- The postings of the next entry. -/
theorem BlockScan.On.postingsAt {s : BlockScan} {e : Raw} {es : List Raw} (hv : v.Sized)
    (h : s.On v (e :: es)) :
    v.postingsAt s.postingsPos e.data.length e.docFreq = .ok ⟨e.data, e.docFreq⟩ := by
  have hPost := h.at_postings
  have hRegion := h.postings_le
  rw [List.flatMap_cons] at hPost hRegion
  rw [List.length_append] at hRegion
  have hSmall := hv.length_lt
  have hRegionLe := hv.region_le
  have hSlice := slice_at hPost.left (by omega)
  unfold IdxView.postingsAt
  rw [if_pos (by omega), Chk.add_ok (by omega)]
  show (if v.toc.postingsOff + v.toc.postingsLen < s.postingsPos + e.data.length then _
    else _ : Chk EncodedList) = _
  rw [if_neg (by omega), hSlice]
  rfl

/-- Scanning for a term in ascending entries. -/
theorem scanFor_on {s : BlockScan} {es : List Raw} {target : List UInt8} {fuel : Nat}
    (hv : v.Sized) (h : s.On v es) (hTerm : ∀ e ∈ es, e.term.length ≤ maxTermBytes)
    (hLt : es.Pairwise fun e f => e.term < f.term) (hFuel : es.length < fuel) :
    v.scanFor target fuel s =
      .ok ((es.find? fun e => e.term == target).map fun e => ⟨e.data, e.docFreq⟩) := by
  induction es generalizing s fuel with
  | nil =>
    obtain ⟨fuel, rfl⟩ : ∃ k, fuel = k + 1 := ⟨fuel - 1, by omega⟩
    rw [IdxView.scanFor, h.nextEntry_nil]
    rfl
  | cons e es ih =>
    obtain ⟨fuel, rfl⟩ : ∃ k, fuel = k + 1 := ⟨fuel - 1, by omega⟩
    obtain ⟨hHead, hTail⟩ := List.pairwise_cons.mp hLt
    obtain ⟨hNext, hAfter⟩ := h.nextEntry hv (hTerm e List.mem_cons_self)
    have hPost := h.postingsAt hv
    rw [IdxView.scanFor, hNext]
    show (if e.term < target then v.scanFor target fuel (s.after e)
      else if e.term = target then _ else _ : Chk (Option EncodedList)) = _
    split_ifs with hLess hEq
    · -- Not there yet.
      have hNe : (e.term == target) = false := by
        rw [beq_eq_false_iff_ne]
        rintro rfl
        exact absurd hLess (List.lt_irrefl _)
      rw [List.find?_cons_of_neg (by rw [hNe]; decide)]
      exact ih hAfter (fun f hf => hTerm f (List.mem_cons_of_mem _ hf)) hTail (by
        rw [List.length_cons] at hFuel
        omega)
    · rw [List.find?_cons_of_pos (by rw [hEq, beq_self_eq_true])]
      show (v.postingsAt s.postingsPos e.data.length e.docFreq >>= _) = _
      rw [hPost]
      rfl
    · -- Passed: the rest is greater still.
      have hNone : ((e :: es).find? fun e => e.term == target) = none := by
        refine List.find?_eq_none.mpr fun f hf hEqF => ?_
        have hF : f.term = target := beq_iff_eq.mp hEqF
        rcases List.mem_cons.mp hf with rfl | hMem
        · exact hEq hF
        · exact hLess (hF ▸ hHead f hMem)
      rw [hNone]
      rfl

-- ---------------------------------------------------------------------------
-- Blocks of a written file
-- ---------------------------------------------------------------------------

/-- The entries of a block. -/
def blockOf (raws : List Raw) (b : Nat) : List Raw := (raws.drop (b * blockSize)).take blockSize

/-- The view is of the file written from the entries. -/
structure IdxView.Written (v : IdxView) (raws : List Raw) : Prop extends v.Sized where
  short : ∀ e ∈ raws, e.term.length ≤ maxTermBytes
  sorted : raws.Pairwise fun e f => e.term < f.term
  numTerms : v.toc.numTerms = raws.length
  numBlocks : v.toc.numBlocks.toNat = (raws.length + blockSize - 1) / blockSize
  at_postings : At v.bytes v.toc.postingsOff (raws.flatMap Raw.data)
  postingsLen : v.toc.postingsLen = (raws.flatMap Raw.data).length
  at_dict : At v.bytes v.toc.dictOff (dictFrom 0 [] raws)
  dictLen : v.toc.dictLen = (dictFrom 0 [] raws).length
  dict_le : v.toc.dictOff + v.toc.dictLen ≤ v.bytes.length
  sparse : ∀ b e, raws[b * blockSize]? = some e → v.sparseEntry b =
    .ok (e.term, dictOffset raws (b * blockSize), postingsOffset raws (b * blockSize))

theorem length_blockOf (raws : List Raw) (b : Nat) :
    (blockOf raws b).length = min (raws.length - b * blockSize) blockSize := by
  rw [blockOf, List.length_take, List.length_drop, Nat.min_comm]

/-- The entries before a block, the block and those behind it. -/
theorem split_blockOf (raws : List Raw) (b : Nat) :
    raws = raws.take (b * blockSize) ++ (blockOf raws b ++ raws.drop ((b + 1) * blockSize)) := by
  have hDrop : raws.drop ((b + 1) * blockSize) =
      (raws.drop (b * blockSize)).drop blockSize := by
    rw [List.drop_drop, Nat.add_mul, Nat.one_mul]
  rw [hDrop, blockOf, List.take_append_drop, List.take_append_drop]

theorem mem_blockOf {raws : List Raw} {b : Nat} {e : Raw} (h : e ∈ blockOf raws b) : e ∈ raws :=
  List.mem_of_mem_drop (List.mem_of_mem_take h)

/-- The dictionary around a block. -/
theorem dictFrom_blockOf (raws : List Raw) (b : Nat) (hb : b * blockSize ≤ raws.length) :
    ∃ rest, dictFrom 0 [] raws = dictFrom 0 [] (raws.take (b * blockSize)) ++
      (chain [] (blockOf raws b) ++ rest) ∧
      ((b + 1) * blockSize ≤ raws.length →
        dictFrom 0 [] (raws.take ((b + 1) * blockSize)) =
          dictFrom 0 [] (raws.take (b * blockSize)) ++ chain [] (blockOf raws b)) := by
  have hTake : (raws.take (b * blockSize)).length = b * blockSize := by
    rw [List.length_take, Nat.min_eq_left hb]
  have hZero : (0 + (raws.take (b * blockSize)).length) % blockSize = 0 := by
    rw [hTake, Nat.zero_add, Nat.mul_mod_left]
  have hChain : ∀ prev, dictFrom (0 + (raws.take (b * blockSize)).length) prev (blockOf raws b) =
      chain [] (blockOf raws b) := by
    intro prev
    have hFit : (0 + (raws.take (b * blockSize)).length) % blockSize + (blockOf raws b).length ≤
        blockSize := by
      rw [hZero, length_blockOf]
      omega
    rw [dictFrom_eq_chain hFit, if_pos hZero]
  refine ⟨dictFrom (0 + (raws.take (b * blockSize)).length + (blockOf raws b).length)
    (lastTerm (lastTerm [] (raws.take (b * blockSize))) (blockOf raws b))
      (raws.drop ((b + 1) * blockSize)), ?_, ?_⟩
  · conv_lhs => rw [split_blockOf raws b]
    rw [dictFrom_append, dictFrom_append, hChain]
  · intro hNext
    have hSplit : raws.take ((b + 1) * blockSize) =
        raws.take (b * blockSize) ++ blockOf raws b := by
      rw [blockOf, Nat.add_mul, Nat.one_mul, List.take_add]
    rw [hSplit, dictFrom_append, hChain]

theorem flatMap_blockOf (raws : List Raw) (b : Nat) :
    raws.flatMap Raw.data = (raws.take (b * blockSize)).flatMap Raw.data ++
      ((blockOf raws b).flatMap Raw.data ++
        (raws.drop ((b + 1) * blockSize)).flatMap Raw.data) := by
  conv_lhs => rw [split_blockOf raws b]
  rw [List.flatMap_append, List.flatMap_append]

namespace IdxView.Written

variable {raws : List Raw}

theorem lt_numBlocks (h : v.Written raws) (b : Nat) :
    b < v.toc.numBlocks.toNat ↔ b * blockSize < raws.length := by
  rw [h.numBlocks]
  unfold blockSize
  omega

/-- The scan that `block` starts. -/
def start (v : IdxView) (raws : List Raw) (b : Nat) : BlockScan :=
  ⟨v.toc.dictOff + dictOffset raws (b * blockSize), v.toc.dictOff + v.toc.dictLen,
    min (raws.length - b * blockSize) blockSize, [],
    v.toc.postingsOff + postingsOffset raws (b * blockSize)⟩

theorem block (h : v.Written raws) {b : Nat} (hb : b * blockSize < raws.length) :
    v.block b = .ok (start v raws b) ∧ (start v raws b).On v (blockOf raws b) := by
  obtain ⟨rest, hDict, -⟩ := dictFrom_blockOf raws b (Nat.le_of_lt hb)
  have hData := flatMap_blockOf raws b
  have hDictLen := congrArg List.length hDict
  have hDataLen := congrArg List.length hData
  have hAtDict := h.at_dict
  have hAtPost := h.at_postings
  rw [hDict] at hAtDict
  rw [hData] at hAtPost
  rw [← h.dictLen] at hDictLen
  rw [← h.postingsLen] at hDataLen
  simp only [List.length_append] at hDictLen hDataLen
  have hSmall := h.length_lt
  have hRegion := h.region_le
  have hDictLe := h.dict_le
  obtain ⟨e, he⟩ : ∃ e, raws[b * blockSize]? = some e := ⟨_, List.getElem?_eq_getElem hb⟩
  have hSparse := h.sparse b e he
  have hOff1 : dictOffset raws (b * blockSize) =
      (dictFrom 0 [] (raws.take (b * blockSize))).length := rfl
  have hOff2 : postingsOffset raws (b * blockSize) =
      ((raws.take (b * blockSize)).flatMap Raw.data).length := rfl
  rw [← hOff1] at hDictLen
  rw [← hOff2] at hDataLen
  constructor
  · unfold IdxView.block
    rw [hSparse]
    simp only [bind, Except.bind]
    rw [Chk.add_ok (by omega), Chk.add_ok (by omega), h.numTerms]
    simp only []
    rw [if_neg (by omega), Chk.sub_ok (by omega)]
    simp only []
    rw [Chk.add_ok (by omega)]
    rfl
  · refine ⟨hAtDict.right.left, ?_, (length_blockOf raws b).symm, ?_, hAtPost.right.left, ?_⟩
    · show v.toc.dictOff + dictOffset raws (b * blockSize) ≤ _
      omega
    · show v.toc.dictOff + dictOffset raws (b * blockSize) + (chain [] (blockOf raws b)).length ≤
        v.toc.dictOff + v.toc.dictLen
      omega
    · show v.toc.postingsOff + postingsOffset raws (b * blockSize) + _ ≤ _
      omega

-- ---------------------------------------------------------------------------
-- Lookup
-- ---------------------------------------------------------------------------

/-- The term that a block starts with. -/
def first (raws : List Raw) (b : Nat) : List UInt8 :=
  ((raws[b * blockSize]?).map Raw.term).getD []

theorem sparseEntry_first (h : v.Written raws) {b : Nat} (hb : b * blockSize < raws.length) :
    ∃ x, v.sparseEntry b = .ok (first raws b, x) := by
  have he := List.getElem?_eq_getElem hb
  refine ⟨(dictOffset raws (b * blockSize), postingsOffset raws (b * blockSize)), ?_⟩
  rw [h.sparse b _ he, first, he]
  rfl

/-- The first terms of blocks ascend. -/
theorem first_lt (h : v.Written raws) {a b : Nat} (hab : a < b)
    (hb : b * blockSize < raws.length) : first raws a < first raws b := by
  have ha : a * blockSize < b * blockSize := Nat.mul_lt_mul_of_pos_right hab (by decide)
  have hLt := List.pairwise_iff_getElem.mp h.sorted _ _ (by omega) hb ha
  rw [first, first, List.getElem?_eq_getElem hb, List.getElem?_eq_getElem (by omega)]
  exact hLt

/-- The binary search. -/
theorem search (h : v.Written raws) {target : List UInt8} {fuel lo hi : Nat}
    (hFuel : hi - lo ≤ fuel) (hLe : lo ≤ hi) (hHi : hi ≤ v.toc.numBlocks.toNat)
    (hBefore : ∀ b, b < lo → ¬ target < first raws b)
    (hBehind : ∀ b, hi ≤ b → b < v.toc.numBlocks.toNat → target < first raws b) :
    ∃ r, v.search target fuel lo hi = .ok r ∧ r ≤ v.toc.numBlocks.toNat ∧
      (∀ b, b < r → ¬ target < first raws b) ∧
      ∀ b, r ≤ b → b < v.toc.numBlocks.toNat → target < first raws b :=
  search_firsts (fun b hb => h.sparseEntry_first ((h.lt_numBlocks b).mp hb))
    (fun _ b hab hb => h.first_lt hab ((h.lt_numBlocks b).mp hb)) hFuel hLe hHi hBefore hBehind

theorem first_le_of_mem (h : v.Written raws) {b : Nat} {e : Raw}
    (he : e ∈ raws.drop (b * blockSize)) : ¬ e.term < first raws b := by
  obtain ⟨k, hk⟩ := List.mem_iff_getElem?.mp he
  rw [List.getElem?_drop] at hk
  obtain ⟨hLt, rfl⟩ := List.getElem?_eq_some_iff.mp hk
  rw [first, List.getElem?_eq_getElem (by omega)]
  show ¬ raws[b * blockSize + k].term < raws[b * blockSize].term
  rcases Nat.eq_zero_or_pos k with rfl | hPos
  · exact List.lt_irrefl _
  · have hOrder := List.pairwise_iff_getElem.mp h.sorted (b * blockSize) (b * blockSize + k)
      (by omega) hLt (by omega)
    exact fun hGt => List.lt_irrefl _ (List.lt_trans hGt hOrder)

theorem lt_first_of_mem (h : v.Written raws) {b : Nat} (hb : b * blockSize < raws.length)
    {e : Raw} (he : e ∈ raws.take (b * blockSize)) : e.term < first raws b := by
  obtain ⟨k, hk⟩ := List.mem_iff_getElem?.mp he
  rw [List.getElem?_take] at hk
  split_ifs at hk with hLess
  obtain ⟨hLt, rfl⟩ := List.getElem?_eq_some_iff.mp hk
  rw [first, List.getElem?_eq_getElem hb]
  exact List.pairwise_iff_getElem.mp h.sorted k (b * blockSize) hLt hb hLess

/-- A term is looked up among the stored ones. -/
theorem lookupInner (h : v.Written raws) (target : List UInt8) :
    v.lookupInner target =
      .ok ((raws.find? fun e => e.term == target).map fun e => ⟨e.data, e.docFreq⟩) := by
  unfold IdxView.lookupInner
  by_cases hNone : v.toc.numBlocks.toNat = 0
  · -- No block at all.
    have hNil : raws = [] := by
      have hNum := h.numBlocks
      rw [hNone] at hNum
      refine List.length_eq_zero_iff.mp ?_
      unfold blockSize at hNum
      omega
    simp only [hNone, if_true, hNil]
    rfl
  obtain ⟨r, hr, hLe, hBefore, hBehind⟩ := @search _ _ h target v.toc.numBlocks.toNat 0
    v.toc.numBlocks.toNat (by omega) (Nat.zero_le _) (Nat.le_refl _)
    (fun b hb => absurd hb (Nat.not_lt_zero _)) (fun b hb hbn => by omega)
  simp only [hNone, if_false, hr, bind, Except.bind]
  by_cases hZero : r = 0
  · -- The target is before every term.
    have hFirst := hBehind 0 (by omega) (by omega)
    have hFind : (raws.find? fun e => e.term == target) = none := by
      refine List.find?_eq_none.mpr fun e he hEq => ?_
      rw [beq_iff_eq] at hEq
      have hGe := @first_le_of_mem _ _ h 0 e (by rwa [Nat.zero_mul, List.drop_zero])
      exact hGe (hEq ▸ hFirst)
    rw [if_pos hZero, hFind]
    rfl
  · obtain ⟨b, rfl⟩ : ∃ b, r = b + 1 := ⟨r - 1, by omega⟩
    have hb : b * blockSize < raws.length := (h.lt_numBlocks b).mp (by omega)
    obtain ⟨hBlock, hOn⟩ := h.block hb
    have hScan := @scanFor_on v _ _ target ((start v raws b).remaining + 1) h.toSized hOn
      (fun e he => h.short e (mem_blockOf he))
      ((h.sorted.sublist (List.drop_sublist _ _)).sublist (List.take_sublist _ _))
      (by rw [hOn.remaining]; omega)
    rw [if_neg hZero, Nat.add_sub_cancel, hBlock]
    simp only []
    rw [hScan]
    -- Other blocks do not have the target.
    have hPre : ((raws.take (b * blockSize)).find? fun e => e.term == target) = none := by
      refine List.find?_eq_none.mpr fun e he hEq => ?_
      rw [beq_iff_eq] at hEq
      exact hBefore b (by omega) (hEq ▸ h.lt_first_of_mem hb he)
    have hPost : ((raws.drop ((b + 1) * blockSize)).find? fun e => e.term == target) = none := by
      refine List.find?_eq_none.mpr fun e he hEq => ?_
      rw [beq_iff_eq] at hEq
      have hLt : (b + 1) * blockSize < raws.length := by
        by_contra hNot
        rw [List.drop_eq_nil_of_le (by omega)] at he
        cases he
      exact h.first_le_of_mem he (hEq ▸ hBehind (b + 1) (Nat.le_refl _)
        ((h.lt_numBlocks _).mpr hLt))
    congr 2
    conv_rhs => rw [split_blockOf raws b]
    rw [List.find?_append, hPre, List.find?_append, hPost]
    simp

end IdxView.Written

-- ---------------------------------------------------------------------------
-- All terms
-- ---------------------------------------------------------------------------

theorem termText_utf8 (t : String) : IdxView.termText t.toUTF8.toList = .ok t := by
  unfold IdxView.termText
  rw [ByteArray.toByteArray_toList, String.fromUTF8?_toUTF8]

/-- What the iterator yields for an entry. -/
def itemOf (e : String × DiskPostingList) : String × UInt32 × EncodedList :=
  (e.1, (rawOf e).docFreq, ⟨(rawOf e).data, (rawOf e).docFreq⟩)

section Terms

variable {entries : List (String × DiskPostingList)}

/-- The entries still to come. -/
inductive IdxView.TermIter.On (v : IdxView) (entries : List (String × DiskPostingList)) :
    IdxView.TermIter → List (String × DiskPostingList) → Prop
  | outside (b : Nat) : On v entries ⟨b, none⟩ (entries.drop (b * blockSize))
  | inside {s : BlockScan} {xs : List (String × DiskPostingList)} (b : Nat)
    (hOn : s.On v (xs.map rawOf)) (hShort : ∀ e ∈ xs.map rawOf, e.term.length ≤ maxTermBytes) :
    On v entries ⟨b, some s⟩ (xs ++ entries.drop (b * blockSize))

theorem blockOf_map (b : Nat) : blockOf (entries.map rawOf) b =
    ((entries.drop (b * blockSize)).take blockSize).map rawOf := by
  rw [blockOf, ← List.map_drop, ← List.map_take]

theorem tryNext_inside {b fuel : Nat} {s : BlockScan} {x : String × DiskPostingList}
    {xs : List (String × DiskPostingList)} (hv : v.Sized) (hOn : s.On v ((x :: xs).map rawOf))
    (hShort : ∀ e ∈ (x :: xs).map rawOf, e.term.length ≤ maxTermBytes) :
    ∃ it, v.tryNext (fuel + 1) ⟨b, some s⟩ = .ok (some (itemOf x, it)) ∧
      it.On v entries (xs ++ entries.drop (b * blockSize)) := by
  obtain ⟨hNext, hAfter⟩ := BlockScan.On.nextEntry hv hOn (hShort _ List.mem_cons_self)
  have hPost := BlockScan.On.postingsAt hv hOn
  have hText : IdxView.termText (rawOf x).term = .ok x.1 := termText_utf8 x.1
  refine ⟨⟨b, some (s.after (rawOf x))⟩, ?_, .inside b hAfter fun e he =>
    hShort e (List.mem_cons_of_mem _ he)⟩
  rw [IdxView.tryNext]
  simp only [bind, Except.bind, hNext, hText, hPost]
  rfl

theorem tryNext_outside {b fuel : Nat} (h : v.Written (entries.map rawOf))
    {x : String × DiskPostingList} {xs : List (String × DiskPostingList)}
    (hDrop : entries.drop (b * blockSize) = x :: xs) :
    ∃ it, v.tryNext (fuel + 2) ⟨b, none⟩ = .ok (some (itemOf x, it)) ∧ it.On v entries xs := by
  have hb : b * blockSize < (entries.map rawOf).length := by
    rw [List.length_map]
    by_contra hNot
    rw [List.drop_eq_nil_of_le (by omega)] at hDrop
    cases hDrop
  obtain ⟨hBlock, hOn⟩ := h.block hb
  have hTake : (entries.drop (b * blockSize)).take blockSize =
      x :: xs.take (blockSize - 1) := by
    rw [hDrop]
    rfl
  have hShort : ∀ e ∈ blockOf (entries.map rawOf) b, e.term.length ≤ maxTermBytes :=
    fun e he => h.short e (mem_blockOf he)
  rw [blockOf_map, hTake] at hOn hShort
  obtain ⟨it, hNext, hIt⟩ := @tryNext_inside v entries (b + 1) fuel _ x _ h.toSized hOn hShort
  refine ⟨it, ?_, ?_⟩
  · have hOpen : ¬ v.toc.numBlocks.toNat ≤ b := Nat.not_le.mpr ((h.lt_numBlocks b).mpr hb)
    rw [IdxView.tryNext]
    simp only [bind, Except.bind, if_neg hOpen, hBlock]
    exact hNext
  · have hRest : xs.take (blockSize - 1) ++ entries.drop ((b + 1) * blockSize) = xs := by
      have hMore : entries.drop ((b + 1) * blockSize) = xs.drop (blockSize - 1) := by
        rw [Nat.add_mul, Nat.one_mul, ← List.drop_drop, hDrop]
        rfl
      rw [hMore, List.take_append_drop]
    rwa [hRest] at hIt

theorem tryNext_end {b fuel : Nat} (h : v.Written (entries.map rawOf))
    (hDrop : entries.drop (b * blockSize) = []) :
    v.tryNext (fuel + 1) ⟨b, none⟩ = .ok none := by
  have hEnd : v.toc.numBlocks.toNat ≤ b := by
    rw [← Nat.not_lt, h.lt_numBlocks, List.length_map, Nat.not_lt]
    exact List.drop_eq_nil_iff.mp hDrop
  rw [IdxView.tryNext]
  simp only [if_pos hEnd]

/-- One step of the iterator. -/
theorem tryNext_on (h : v.Written (entries.map rawOf)) {it : IdxView.TermIter}
    {es : List (String × DiskPostingList)} (hIt : it.On v entries es) (fuel : Nat) :
    (es = [] → v.tryNext (fuel + 3) it = .ok none) ∧
      ∀ x xs, es = x :: xs → ∃ it', v.tryNext (fuel + 3) it = .ok (some (itemOf x, it')) ∧
        it'.On v entries xs := by
  cases hIt with
  | outside b =>
    exact ⟨fun hDrop => tryNext_end h hDrop, fun x xs hDrop => tryNext_outside h hDrop⟩
  | @inside s xs b hOn hShort =>
    cases xs with
    | nil =>
      -- The block is at its end.
      have hStep : v.tryNext (fuel + 3) ⟨b, some s⟩ = v.tryNext (fuel + 2) ⟨b, none⟩ := by
        rw [IdxView.tryNext]
        simp only [bind, Except.bind, BlockScan.On.nextEntry_nil hOn]
      rw [List.nil_append, hStep]
      exact ⟨fun hDrop => tryNext_end h hDrop, fun x xs hDrop => tryNext_outside h hDrop⟩
    | cons x xs =>
      refine ⟨fun hNil => (List.cons_ne_nil _ _ hNil).elim, ?_⟩
      rintro _ _ ⟨⟩
      exact tryNext_inside h.toSized hOn hShort

theorem collect_on (h : v.Written (entries.map rawOf)) {it : IdxView.TermIter}
    {es : List (String × DiskPostingList)} (hIt : it.On v entries es) {fuel : Nat}
    (hFuel : es.length < fuel) (hBlocks : 0 < v.toc.numBlocks.toNat) :
    v.collect fuel it = .ok (es.map itemOf) := by
  induction es generalizing it fuel with
  | nil =>
    obtain ⟨fuel, rfl⟩ : ∃ k, fuel = k + 1 := ⟨fuel - 1, by omega⟩
    have hNext := (tryNext_on h hIt (2 * v.toc.numBlocks.toNat - 1)).1 rfl
    rw [show 2 * v.toc.numBlocks.toNat - 1 + 3 = 2 * v.toc.numBlocks.toNat + 2 by omega] at hNext
    rw [IdxView.collect, hNext]
    rfl
  | cons x xs ih =>
    obtain ⟨fuel, rfl⟩ : ∃ k, fuel = k + 1 := ⟨fuel - 1, by omega⟩
    obtain ⟨it', hNext, hIt'⟩ := (tryNext_on h hIt (2 * v.toc.numBlocks.toNat - 1)).2 x xs rfl
    rw [show 2 * v.toc.numBlocks.toNat - 1 + 3 = 2 * v.toc.numBlocks.toNat + 2 by omega] at hNext
    rw [IdxView.collect, hNext]
    simp only [bind, Except.bind]
    rw [ih hIt' (by rw [List.length_cons] at hFuel; omega)]
    rfl

/-- Iterating yields the stored terms in order. -/
theorem terms_written (h : v.Written (entries.map rawOf)) :
    v.terms = .ok (entries.map itemOf) := by
  unfold IdxView.terms
  rw [h.numTerms, List.length_map]
  by_cases hBlocks : 0 < v.toc.numBlocks.toNat
  · have hStart := @IdxView.TermIter.On.outside v entries 0
    rw [Nat.zero_mul, List.drop_zero] at hStart
    exact collect_on h hStart (Nat.lt_succ_self _) hBlocks
  · have hNil : entries = [] := by
      have hLt := h.lt_numBlocks 0
      rw [Nat.zero_mul, List.length_map] at hLt
      exact List.length_eq_zero_iff.mp (by omega)
    subst hNil
    have hEnd : v.toc.numBlocks.toNat ≤ 0 := by omega
    rw [List.length_nil, IdxView.collect, IdxView.tryNext]
    simp only [bind, Except.bind, if_pos hEnd]
    rfl

end Terms

-- ---------------------------------------------------------------------------
-- The full check
-- ---------------------------------------------------------------------------

namespace DiskCursor

/-- The bytes of the postings behind the current one. -/
def restBytes : List Posting → List UInt8
  | [] => []
  | p :: ps => Idx.postingsBytesFrom (some p.doc) ps

theorem loadPositions_pos (c : DiskCursor) :
    c.loadPositions.pos = c.pos ∧ c.loadPositions.data = c.data := by
  unfold loadPositions
  split_ifs
  · exact ⟨rfl, rfl⟩
  · split <;> exact ⟨rfl, rfl⟩

theorem loadPositions_cur {c : DiskCursor} {p : Posting} {ps : List Posting}
    (h : c.Tracks (p :: ps)) : c.cur.isSome = true := by
  cases h with
  | «at» hShows hPending => rw [hShows.cur_eq, Option.isSome_some]

/-- The bytes left over shrink as the cursor moves. -/
theorem tail_end {c : DiskCursor} {p : Posting} {ps : List Posting} {prev : Option DocId}
    (h : c.Tracks (p :: ps)) (hFits : Fits prev (p :: ps))
    (hEnd : c.pos + (restBytes (p :: ps)).length = c.data.length) :
    c.loadNext.data = c.data ∧ c.loadNext.pos + (restBytes ps).length = c.data.length := by
  cases h with
  | @«at» _ _ cur hShows hPending =>
    cases ps with
    | nil =>
      have hZero : c.remaining = 0 := UInt32.toNat_inj.mp hPending.remaining
      unfold loadNext
      rw [if_pos hZero]
      exact ⟨rfl, hEnd⟩
    | cons q ps =>
      have hCur : c.cur.map Current.doc = some p.doc := by
        rw [hShows.cur_eq, Option.map_some, hShows.doc_eq]
      have hTail := hFits.tail
      obtain ⟨_, -, -, hData, hPos⟩ := hPending.loadNext (hCur ▸ hTail.toEncodable)
        (hTail.short q List.mem_cons_self)
      rw [hCur] at hPos
      exact ⟨hData, hPos.trans hEnd⟩

end DiskCursor

/-- The loop of `verify` counts the postings and ends at the end of the data. -/
theorem verifyLoop_tracks {c : DiskCursor} {ps : List Posting} {prev : Option DocId}
    {fuel : Nat} {n : UInt32} (h : c.Tracks ps) (hFits : Fits prev ps)
    (hEnd : c.pos + (DiskCursor.restBytes ps).length = c.data.length)
    (hFuel : ps.length < fuel) :
    ∃ c', EncodedList.verifyLoop fuel n c = (n + UInt32.ofNat ps.length, c') ∧
      c'.error = none ∧ c'.pos = c.data.length := by
  induction ps generalizing c prev fuel n with
  | nil =>
    obtain ⟨fuel, rfl⟩ : ∃ k, fuel = k + 1 := ⟨fuel - 1, by omega⟩
    cases h with
    | done hCur hErr =>
      have hDoc : c.doc.isNone = true ∨ c.error.isSome = true := .inl (by
        rw [DiskCursor.doc, hCur]
        rfl)
      refine ⟨c, ?_, hErr, hEnd⟩
      rw [EncodedList.verifyLoop, if_pos hDoc]
      congr 1
      exact (UInt32.add_zero n).symm
  | cons p ps ih =>
    obtain ⟨fuel, rfl⟩ : ∃ k, fuel = k + 1 := ⟨fuel - 1, by omega⟩
    have hTf := DiskCursor.follows_tracks.termFreq ⟨h, _, hFits⟩
    have hDoc : ¬ (c.doc.isNone = true ∨ c.error.isSome = true) := by
      rw [DiskCursor.follows_tracks.doc ⟨h, _, hFits⟩, h.error]
      simp
    obtain ⟨hRead, hLoaded⟩ := DiskCursor.loadPositions_tracks h hFits
    obtain ⟨hPos, hData⟩ := c.loadPositions_pos
    have hEnd' : c.loadPositions.pos + (DiskCursor.restBytes (p :: ps)).length =
        c.loadPositions.data.length := by
      rw [hPos, hData, hEnd]
    obtain ⟨hNextData, hNextEnd⟩ := DiskCursor.tail_end hLoaded hFits hEnd'
    have hMove : c.loadPositions.advance = c.loadPositions.loadNext := by
      unfold DiskCursor.advance
      rw [DiskCursor.loadPositions_cur hLoaded]
      rfl
    obtain ⟨c', hLoop, hErr, hLast⟩ := @ih c.loadPositions.loadNext (some p.doc) fuel (n + 1)
      (DiskCursor.tail_tracks hLoaded hFits) hFits.tail (by rw [hNextData, hNextEnd])
      (by rw [List.length_cons] at hFuel; omega)
    refine ⟨c', ?_, hErr, by rw [hLast, hNextData, hData]⟩
    have hLen : ¬ c.loadPositions.positions.length ≠ c.termFreq.toNat := by
      rw [hRead, hTf, UInt32.toNat_ofNat_of_lt' (hFits.short p List.mem_cons_self)]
      simp
    rw [EncodedList.verifyLoop, if_neg hDoc]
    simp only [if_neg hLen]
    rw [hMove, hLoop]
    congr 1
    apply UInt32.toNat_inj.mp
    simp only [UInt32.toNat_add, UInt32.toNat_ofNat', List.length_cons]
    show ((n.toNat + 1) % 2 ^ 32 + ps.length % 2 ^ 32) % 2 ^ 32 =
      (n.toNat + (ps.length + 1) % 2 ^ 32) % 2 ^ 32
    omega

/-- An encoded list whose lengths fit passes its check. -/
theorem verify_postingsBytes {list : DiskPostingList} (hLen : list.postings.length < 2 ^ 32)
    (hShort : ∀ p ∈ list.postings, p.positions.length < 2 ^ 32) :
    EncodedList.verify ⟨Idx.postingsBytes list, MemPostingList.docFreq list.postings⟩ =
      .ok () := by
  have hFits : Fits none list.postings := ⟨list.encodable, hShort⟩
  have hTracks := DiskCursor.loadNext_tracks (DiskCursor.opened_pending hLen) hFits
  have hAt : At (Idx.postingsBytes list) 0 (putU32 (UInt32.ofNat list.postings.length)) :=
    ⟨Idx.postingsBytesFrom none list.postings, rfl⟩
  have hNat := UInt32.toNat_ofNat_of_lt' hLen
  have hEnd : (DiskCursor.opened list).loadNext.pos +
      (DiskCursor.restBytes list.postings).length =
        (DiskCursor.opened list).loadNext.data.length := by
    have hTotal : (Idx.postingsBytes list).length =
        (putU32 (UInt32.ofNat list.postings.length)).length +
          (Idx.postingsBytesFrom none list.postings).length := by
      rw [Idx.postingsBytes, List.length_append]
    have hPend := DiskCursor.opened_pending hLen
    rcases hPs : list.postings with _ | ⟨p, ps⟩
    · have hZero : (DiskCursor.opened list).remaining = 0 := by
        show UInt32.ofNat list.postings.length = 0
        rw [hPs]
        rfl
      unfold DiskCursor.loadNext
      rw [if_pos hZero]
      show (putU32 (UInt32.ofNat list.postings.length)).length + 0 =
        (Idx.postingsBytes list).length
      rw [hTotal, hPs]
      rfl
    · rw [hPs] at hPend hFits
      obtain ⟨_, -, -, hData, hPos⟩ := hPend.loadNext hFits.toEncodable
        (hFits.short p List.mem_cons_self)
      rw [hData]
      show _ + (Idx.postingsBytesFrom (some p.doc) ps).length = (Idx.postingsBytes list).length
      have hOpened : (DiskCursor.opened list).pos =
          (putU32 (UInt32.ofNat list.postings.length)).length := rfl
      rw [hPos, hTotal, hOpened, hPs]
      rfl
  obtain ⟨c', hLoop, hErr, hLast⟩ := @verifyLoop_tracks _ _ _ (list.postings.length + 1) 0
    hTracks hFits hEnd (Nat.lt_succ_self _)
  have hDataEq : (DiskCursor.opened list).loadNext.data = Idx.postingsBytes list := by
    unfold DiskCursor.loadNext
    split_ifs
    · rfl
    · split <;> rfl
  unfold EncodedList.verify
  simp only [bind, Except.bind, readU32_putU32 hAt]
  have hSame : ¬ UInt32.ofNat list.postings.length ≠ MemPostingList.docFreq list.postings :=
    fun hNe => hNe rfl
  rw [if_neg hSame, hNat, DiskCursor.new_postingsBytes, hLoop]
  simp only [hErr]
  rw [if_neg]
  rintro (hCount | hPos)
  · exact hCount (UInt32.zero_add _)
  · exact hPos (by rw [hLast, hDataEq])

/-- How far `verify` is when it has checked the entries. -/
def IdxView.progress (v : IdxView) (raws : List Raw) : IdxView.Progress :=
  ⟨raws.length, raws.getLast?.map Raw.term,
    v.toc.postingsOff + (raws.flatMap Raw.data).length⟩

/-- An entry that passes the checks of its own. -/
structure Idx.Raw.Sound (e : Raw) : Prop where
  text : ∃ t : String, IdxView.termText e.term = .ok t
  list : EncodedList.verify ⟨e.data, e.docFreq⟩ = .ok ()

theorem posAfter_on {s : BlockScan} {es : List Raw} {fuel : Nat} (hv : v.Sized) (h : s.On v es)
    (hTerm : ∀ e ∈ es, e.term.length ≤ maxTermBytes) (hFuel : es.length < fuel) :
    s.posAfter v.bytes fuel = .ok (s.pos + (chain s.term es).length) := by
  induction es generalizing s fuel with
  | nil =>
    obtain ⟨fuel, rfl⟩ : ∃ k, fuel = k + 1 := ⟨fuel - 1, by omega⟩
    rw [BlockScan.posAfter, h.nextEntry_nil]
    rfl
  | cons e es ih =>
    obtain ⟨fuel, rfl⟩ : ∃ k, fuel = k + 1 := ⟨fuel - 1, by omega⟩
    obtain ⟨hNext, hAfter⟩ := h.nextEntry hv (hTerm e List.mem_cons_self)
    have hRest := ih hAfter (fun f hf => hTerm f (List.mem_cons_of_mem _ hf)) (by
      rw [List.length_cons] at hFuel
      omega : es.length < fuel)
    rw [BlockScan.posAfter, hNext]
    show (s.after e).posAfter v.bytes fuel = _
    rw [hRest, chain, List.length_append, ← Nat.add_assoc]
    rfl

/-- The entries of a block pass the checks. -/
theorem verifyEntries_on {b : Nat} {s : BlockScan} {done es : List Raw} {fuel : Nat}
    {first : Option (List UInt8)} (hv : v.Sized) (h : s.On v es)
    (hPos : s.postingsPos = v.toc.postingsOff + (done.flatMap Raw.data).length)
    (hTerm : ∀ e ∈ es, e.term.length ≤ maxTermBytes)
    (hLt : (done ++ es).Pairwise fun e f => e.term < f.term) (hSound : ∀ e ∈ es, e.Sound)
    (hFirst : ∀ t ∈ first, ∀ e ∈ es.head?, e.term = t)
    (hCount : (done ++ es).length < 2 ^ 64) (hFuel : es.length < fuel) :
    v.verifyEntries b fuel first s (v.progress done) = .ok (v.progress (done ++ es)) := by
  induction es generalizing s done fuel first with
  | nil =>
    obtain ⟨fuel, rfl⟩ : ∃ k, fuel = k + 1 := ⟨fuel - 1, by omega⟩
    rw [IdxView.verifyEntries, h.nextEntry_nil, List.append_nil]
    rfl
  | cons e es ih =>
    obtain ⟨fuel, rfl⟩ : ∃ k, fuel = k + 1 := ⟨fuel - 1, by omega⟩
    obtain ⟨hNext, hAfter⟩ := h.nextEntry hv (hTerm e List.mem_cons_self)
    have hPost := h.postingsAt hv
    have hRegion := h.postings_le
    have hSmall := hv.length_lt
    have hRegionLe := hv.region_le
    obtain ⟨⟨t, hText⟩, hList⟩ := hSound e List.mem_cons_self
    have hSame : ¬ (first.any fun t => decide (e.term ≠ t)) = true := by
      intro hAny
      obtain ⟨t, ht, hNe⟩ := (Option.any_eq_true _ _).mp hAny
      exact of_decide_eq_true hNe (hFirst t ht e rfl)
    -- The last term before is smaller.
    have hOrder : ¬ ((v.progress done).prev.any fun t => decide (e.term ≤ t)) = true := by
      intro hAny
      obtain ⟨t, ht, hLe⟩ := (Option.any_eq_true _ _).mp hAny
      obtain ⟨f, hf, rfl⟩ := Option.map_eq_some_iff.mp ht
      have hLess := (List.pairwise_append.mp hLt).2.2 f (List.mem_of_getLast? hf) e
        List.mem_cons_self
      exact of_decide_eq_true hLe hLess
    rw [List.flatMap_cons, List.length_append] at hRegion
    rw [List.length_append, List.length_cons] at hCount
    have hAdd : Chk.add (v.progress done).count 1 = .ok (done.length + 1) :=
      Chk.add_ok (by show done.length + 1 < 2 ^ 64; omega)
    have hEnd : Chk.add s.postingsPos e.data.length = .ok (s.postingsPos + e.data.length) :=
      Chk.add_ok (by omega)
    have hNextProgress : (⟨done.length + 1, some e.term, s.postingsPos + e.data.length⟩ :
        IdxView.Progress) = v.progress (done ++ [e]) := by
      unfold IdxView.progress
      rw [List.length_append, List.length_singleton, List.getLast?_append,
        List.getLast?_singleton, List.flatMap_append, List.flatMap_singleton,
        List.length_append, hPos, Nat.add_assoc]
      rfl
    have hRest := @ih (s.after e) (done ++ [e]) fuel none hAfter (by
        rw [List.flatMap_append, List.flatMap_singleton, List.length_append, ← Nat.add_assoc,
          ← hPos]
        rfl) (fun f hf => hTerm f (List.mem_cons_of_mem _ hf))
      (by rwa [List.append_assoc, List.singleton_append])
      (fun f hf => hSound f (List.mem_cons_of_mem _ hf)) (by simp)
      (by rw [List.append_assoc, List.singleton_append, List.length_append, List.length_cons]
          omega) (by rw [List.length_cons] at hFuel; omega)
    rw [List.append_assoc, List.singleton_append] at hRest
    rw [IdxView.verifyEntries, hNext]
    simp only [bind, Except.bind]
    rw [if_neg hSame, if_neg hOrder, hText]
    simp only [hPost, hList, Chk.ofFormat, hAdd, hEnd, hNextProgress]
    exact hRest

namespace IdxView.Written

variable {raws : List Raw}

theorem take_blockOf (raws : List Raw) (b : Nat) :
    raws.take (b * blockSize) ++ blockOf raws b = raws.take ((b + 1) * blockSize) := by
  rw [blockOf, Nat.add_mul, Nat.one_mul, List.take_add]

/-- The blocks from `b` on pass the checks. -/
theorem verifyBlocks (h : v.Written raws) (hSound : ∀ e ∈ raws, e.Sound)
    (hCount : raws.length < 2 ^ 64) {fuel b : Nat}
    (hFuel : b + fuel = v.toc.numBlocks.toNat) :
    v.verifyBlocks fuel b (v.progress (raws.take (b * blockSize))) = .ok (v.progress raws) := by
  induction fuel generalizing b with
  | zero =>
    -- All entries are behind.
    have hAll : raws.take (b * blockSize) = raws := by
      refine List.take_of_length_le ?_
      have hNot := (h.lt_numBlocks b).not.mp (by omega)
      omega
    rw [hAll]
    rfl
  | succ fuel ih =>
    have hb : b * blockSize < raws.length := (h.lt_numBlocks b).mp (by omega)
    obtain ⟨hBlock, hOn⟩ := h.block hb
    have he := List.getElem?_eq_getElem hb
    have hSparse := h.sparse b _ he
    obtain ⟨rest, hDict, -⟩ := dictFrom_blockOf raws b (Nat.le_of_lt hb)
    have hDictLen := congrArg List.length hDict
    have hDataLen := congrArg List.length (flatMap_blockOf raws b)
    rw [← h.dictLen] at hDictLen
    rw [← h.postingsLen] at hDataLen
    simp only [List.length_append] at hDictLen hDataLen
    have hOff1 : dictOffset raws (b * blockSize) =
        (dictFrom 0 [] (raws.take (b * blockSize))).length := rfl
    have hOff2 : postingsOffset raws (b * blockSize) =
        ((raws.take (b * blockSize)).flatMap Raw.data).length := rfl
    have hSmall := h.length_lt
    have hRegion := h.region_le
    have hDictLe := h.dict_le
    have hStart : Chk.add v.toc.postingsOff (postingsOffset raws (b * blockSize)) =
        .ok (v.toc.postingsOff + postingsOffset raws (b * blockSize)) := Chk.add_ok (by omega)
    have hSplit := take_blockOf raws b
    have hEntries := @verifyEntries_on v b (start v raws b) (raws.take (b * blockSize))
      (blockOf raws b) ((start v raws b).remaining + 1)
      (some raws[b * blockSize].term) h.toSized hOn rfl
      (fun e he => h.short e (mem_blockOf he))
      (by rw [hSplit]; exact h.sorted.sublist (List.take_sublist _ _))
      (fun e he => hSound e (mem_blockOf he))
      (by
        rintro _ ⟨⟩ e he'
        have hHead : (blockOf raws b).head? = some raws[b * blockSize] := by
          rw [blockOf, List.head?_take, if_neg (by decide), List.head?_drop, he]
        rw [hHead] at he'
        rw [← Option.some.inj he'])
      (by
        rw [hSplit, List.length_take]
        omega)
      (by rw [hOn.remaining]; omega)
    rw [hSplit] at hEntries
    have hNext := @ih (b + 1) (by omega)
    rw [IdxView.verifyBlocks, hSparse]
    simp only [bind, Except.bind, hStart]
    have hSame : ¬ v.toc.postingsOff + postingsOffset raws (b * blockSize) ≠
        (v.progress (raws.take (b * blockSize))).expected := fun hNe => hNe rfl
    rw [if_neg hSame, hBlock]
    simp only []
    by_cases hPos : 0 < b
    · -- The block before it ends where this one starts.
      obtain ⟨a, rfl⟩ : ∃ a, b = a + 1 := ⟨b - 1, by omega⟩
      have ha : a * blockSize < raws.length := by
        unfold blockSize at hb ⊢
        omega
      obtain ⟨hLast, hLastOn⟩ := h.block ha
      have hAfter := @posAfter_on v _ _ ((start v raws a).remaining + 1) h.toSized hLastOn
        (fun e he => h.short e (mem_blockOf he)) (by rw [hLastOn.remaining]; omega)
      obtain ⟨-, -, hTake⟩ := dictFrom_blockOf raws a (Nat.le_of_lt ha)
      have hTakeLen := congrArg List.length (hTake (Nat.le_of_lt hb))
      rw [List.length_append] at hTakeLen
      have hAddDict : Chk.add v.toc.dictOff (dictOffset raws ((a + 1) * blockSize)) =
          .ok (v.toc.dictOff + dictOffset raws ((a + 1) * blockSize)) := Chk.add_ok (by omega)
      have hEndEq : ¬ (start v raws a).pos + (chain (start v raws a).term (blockOf raws a)).length ≠
          v.toc.dictOff + dictOffset raws ((a + 1) * blockSize) := by
        intro hNe
        refine hNe ?_
        show v.toc.dictOff + (dictFrom 0 [] (raws.take (a * blockSize))).length +
          (chain [] (blockOf raws a)).length = _
        rw [hOff1, hTakeLen, Nat.add_assoc]
      rw [if_pos hPos, Nat.add_sub_cancel, hLast]
      simp only [hAfter, hAddDict]
      rw [if_neg hEndEq, hEntries]
      exact hNext
    · rw [if_neg hPos, hEntries]
      exact hNext

/-- The file passes its full check. -/
theorem verify [Platform] (h : v.Written raws) (hSound : ∀ e ∈ raws, e.Sound)
    (hCount : raws.length < 2 ^ 64) (hCrc : v.env.verifyCrc v.bytes = .ok ()) :
    v.verify = .ok () := by
  have hBlocks := @verifyBlocks _ _ h hSound hCount v.toc.numBlocks.toNat 0 (Nat.zero_add _)
  have hStart : v.progress (raws.take (0 * blockSize)) = ⟨0, none, v.toc.postingsOff⟩ := by
    rw [Nat.zero_mul]
    rfl
  rw [hStart] at hBlocks
  have hSmall := h.length_lt
  have hRegion := h.region_le
  have hEnd : Chk.add v.toc.postingsOff v.toc.postingsLen =
      .ok (v.toc.postingsOff + v.toc.postingsLen) := Chk.add_ok (by omega)
  unfold IdxView.verify
  simp only [bind, Except.bind, hCrc, Chk.ofFormat, hBlocks, hEnd]
  have hNum : ¬ (v.progress raws).count ≠ v.toc.numTerms := fun hNe => hNe h.numTerms.symm
  have hLast : ¬ (v.progress raws).expected ≠ v.toc.postingsOff + v.toc.postingsLen := by
    rw [h.postingsLen]
    exact fun hNe => hNe rfl
  rw [if_neg hNum, if_neg hLast]

end IdxView.Written

-- ---------------------------------------------------------------------------
-- The written file
-- ---------------------------------------------------------------------------

section File

variable [Platform] {r : Regions} {raws : List Raw}

/-- The table of contents of the regions. -/
def Idx.Regions.tocOf (r : Regions) : Toc where
  postingsOff := headerLen
  postingsLen := r.postings.length
  dictOff := headerLen + r.postings.length
  dictLen := r.dict.length
  sparseOff := headerLen + r.postings.length + r.dict.length
  sparseLen := r.sparse.length
  numTerms := r.numTerms
  numBlocks := UInt32.ofNat r.sparseOffsets.length
  blockSize := UInt32.ofNat Idx.blockSize

omit [Platform] in
theorem decode_toc (hBody : headerLen + r.body.length < 2 ^ 64)
    (hBlocks : r.sparseOffsets.length < 2 ^ 32) (hTerms : r.numTerms < 2 ^ 64) :
    Toc.decode r.toc = .ok r.tocOf := by
  have hLen := length_toc r
  have hTotal : r.body.length =
      r.postings.length + (r.dict.length + (r.sparse.length + r.toc.length)) := by
    simp only [Regions.body, List.length_append]
  have hEq : r.toc = leBytes 8 headerLen ++ (leBytes 8 r.postings.length ++
      (leBytes 8 (headerLen + r.postings.length) ++ (leBytes 8 r.dict.length ++
        (leBytes 8 (headerLen + r.postings.length + r.dict.length) ++
          (leBytes 8 r.sparse.length ++ (leBytes 8 r.numTerms ++
            (leBytes 4 r.sparseOffsets.length ++ leBytes 4 Idx.blockSize))))))) := by
    simp only [Regions.toc, List.flatMap_cons, List.flatMap_nil, List.append_assoc,
      List.nil_append]
  generalize r.toc = b at hEq hLen hTotal
  have h0 := At.of_eq hEq
  have h8 := h0.right
  have h16 := h8.right
  have h24 := h16.right
  have h32 := h24.right
  have h40 := h32.right
  have h48 := h40.right
  have h56 := h48.right
  have h60 := h56.right
  simp only [length_leBytes] at h8 h16 h24 h32 h40 h48 h56 h60
  have hHead : headerLen = 16 := rfl
  have hRead0 : readU64Le b 0 = _ := readU64Le_at h0.left (by omega) (by omega)
  have hRead8 : readU64Le b 8 = _ := readU64Le_at h8.left (by omega) (by omega)
  have hRead16 : readU64Le b 16 = _ := readU64Le_at h16.left (by omega) (by omega)
  have hRead24 : readU64Le b 24 = _ := readU64Le_at h24.left (by omega) (by omega)
  have hRead32 : readU64Le b 32 = _ := readU64Le_at h32.left (by omega) (by omega)
  have hRead40 : readU64Le b 40 = _ := readU64Le_at h40.left (by omega) (by omega)
  have hRead48 : readU64Le b 48 = _ := readU64Le_at h48.left (by omega) hTerms
  have hRead56 : readU32Le b 56 = _ := readU32Le_at h56.left (by omega) hBlocks
  have hRead60 : readU32Le b 60 = _ := readU32Le_at h60 (by omega) (by decide)
  unfold Toc.decode
  simp only [bind, Except.bind, hRead0, hRead8, hRead16, hRead24, hRead32, hRead40, hRead48,
    hRead56, hRead60]
  rfl

/-- The view of a written file. -/
def Idx.Regions.view (r : Regions) : IdxView :=
  ⟨sealBody .idx formatVersion r.body, ⟨headerLen + r.body.length, Platform.crc32 r.body⟩,
    r.tocOf⟩

omit [Platform] in
theorem length_sparse (r : Regions) :
    r.sparse.length = 4 * r.sparseOffsets.length + r.sparseEntries.length := by
  rw [Regions.sparse, List.length_append, length_flatMap_leBytes]

omit [Platform] in
theorem length_idxBody (r : Regions) : r.body.length =
    r.postings.length + (r.dict.length + (r.sparse.length + r.toc.length)) := by
  simp only [Regions.body, List.length_append]

omit [Platform] in
theorem length_idxHeader : (header .idx formatVersion).length = 16 := by
  simp only [header, List.length_append, Kind.length_magic, u32Bytes, length_leBytes]

/-- The regions stand behind the header, one behind the other. -/
theorem at_idxBody (r : Regions) :
    At (sealBody .idx formatVersion r.body) 16
      (r.postings ++ (r.dict ++ (r.sparse ++ r.toc))) := by
  refine ⟨footer (UInt64.ofNat r.body.length) (Platform.crc32 r.body), ?_⟩
  rw [← Regions.body, sealBody, List.append_assoc]
  exact List.drop_left' length_idxHeader

omit [Platform] in
/-- The table of contents is the last region. -/
theorem toc_region (r : Regions) :
    (header .idx formatVersion ++ r.body).drop (headerLen + r.body.length - tocLen) = r.toc := by
  have hTocLen := length_toc r
  have hBody := length_idxBody r
  have hHead : headerLen = 16 := rfl
  have hSplit : header .idx formatVersion ++ r.body =
      (header .idx formatVersion ++ (r.postings ++ (r.dict ++ r.sparse))) ++ r.toc := by
    rw [Regions.body]
    simp only [List.append_assoc]
  rw [hSplit]
  refine List.drop_left' ?_
  simp only [List.length_append, length_idxHeader]
  unfold tocLen
  omega

omit [Platform] in
theorem tocOf_tiles (h : r.Holds raws) (hBlocks : r.sparseOffsets.length < 2 ^ 32) :
    r.tocOf.Tiles (headerLen + r.body.length) := by
  have hTocLen := length_toc r
  have hBody := length_idxBody r
  have hBlocks32 : (UInt32.ofNat r.sparseOffsets.length).toNat = r.sparseOffsets.length :=
    UInt32.toNat_ofNat_of_lt' hBlocks
  refine ⟨rfl, rfl, rfl, ?_, rfl, ?_, ?_⟩
  · show headerLen + r.postings.length + r.dict.length + r.sparse.length = _
    unfold tocLen
    omega
  · show (UInt32.ofNat r.sparseOffsets.length).toNat = _
    rw [hBlocks32, h.length_offsets]
    show _ = (r.numTerms + Idx.blockSize - 1) / Idx.blockSize
    rw [h.numTerms]
  · show 4 * (UInt32.ofNat r.sparseOffsets.length).toNat ≤ r.sparse.length
    have hSparseLen := length_sparse r
    rw [hBlocks32]
    omega

/-- The entry of a block in the sparse region is that of its first term. -/
theorem view_sparseEntry (h : r.Holds raws) (hShort : ∀ e ∈ raws, e.term.length ≤ maxTermBytes)
    (hFile : (sealBody .idx formatVersion r.body).length < 2 ^ 64)
    (hSparse : r.sparse.length < 2 ^ 32) {b : Nat} {e : Raw}
    (he : raws[b * blockSize]? = some e) :
    r.view.sparseEntry b =
      .ok (e.term, dictOffset raws (b * blockSize), postingsOffset raws (b * blockSize)) := by
  obtain ⟨hTotal, -, -, -⟩ := Envelope.parse_sealBody .idx hFile
  have hBody := length_idxBody r
  have hSparseLen := length_sparse r
  have hHead : headerLen = 16 := rfl
  have hFoot : footerLen = 16 := rfl
  have hBlocks32 : (UInt32.ofNat r.sparseOffsets.length).toNat = r.sparseOffsets.length :=
    UInt32.toNat_ofNat_of_lt' (by show r.sparseOffsets.length < 2 ^ 32; omega)
  have hAtBody := at_idxBody r
  generalize hFileEq : sealBody .idx formatVersion r.body = file at *
  have hBytes : r.view.bytes = file := hFileEq
  have hAtSparse := hAtBody.right.right.left
  have hb : b * blockSize < raws.length := (List.getElem?_eq_some_iff.mp he).1
  obtain ⟨off, e', hOff, he', hOffLt, hAtEntry⟩ := h.sparse b hb
  obtain rfl : e = e' := Option.some.inj (he.symm.trans he')
  have hbLt : b < r.sparseOffsets.length := (List.getElem?_eq_some_iff.mp hOff).1
  have hTerm := hShort e (List.mem_of_getElem? he)
  have hOffLen := hAtEntry.length_le (Nat.le_of_lt hOffLt)
  have hSparsePos : headerLen + r.postings.length + r.dict.length = 16 + r.postings.length +
    r.dict.length := rfl
  -- The offset in the table, and the entry it leads to.
  have hTable : At file (16 + r.postings.length + r.dict.length + 4 * b) (leBytes 4 off) := by
    refine hAtSparse.trans ?_ (by omega)
    exact (flatMap_leBytes_at hOff).append (by rw [length_flatMap_leBytes]; omega)
  have hEntries : At file (16 + r.postings.length + r.dict.length +
      4 * r.sparseOffsets.length + off)
        (sparseBytes e (dictOffset raws (b * blockSize))
          (postingsOffset raws (b * blockSize))) := by
    rw [Nat.add_assoc _ (4 * r.sparseOffsets.length)]
    refine hAtSparse.trans ?_ (by omega)
    have hRight : At r.sparse (4 * r.sparseOffsets.length) r.sparseEntries :=
      ⟨[], by rw [Regions.sparse, List.drop_left' (length_flatMap_leBytes _),
        List.append_nil]⟩
    exact hRight.trans hAtEntry (Nat.le_of_lt hOffLt)
  have hDictLe : dictOffset raws (b * blockSize) ≤ r.dict.length := by
    rw [h.dict]
    obtain ⟨rest, hSplit, -⟩ := dictFrom_blockOf raws b (Nat.le_of_lt hb)
    rw [hSplit, List.length_append]
    exact Nat.le_add_right _ _
  have hPostLe : postingsOffset raws (b * blockSize) ≤ r.postings.length := by
    rw [h.postings, flatMap_blockOf raws b, List.length_append]
    exact Nat.le_add_right _ _
  unfold maxTermBytes at hTerm
  generalize hD : dictOffset raws (b * blockSize) = dOff at *
  generalize hP : postingsOffset raws (b * blockSize) = pOff at *
  rw [sparseBytes] at hEntries hOffLen
  simp only [List.length_append] at hOffLen
  have hRead := readU32Le_at hTable (by omega) (by omega)
  have hLe : 16 + r.postings.length + r.dict.length + 4 * r.sparseOffsets.length + off ≤
      file.length := by omega
  have hRead1 := readU32_putVarint hEntries.left (by omega)
  have hRead2 := slice_at hEntries.right.left (by omega)
  have hRead3 := readU64_putVarint hEntries.right.right.left (by omega)
  have hRead4 := readU64_putVarint hEntries.right.right.right (by omega)
  have hOff32 : (UInt32.ofNat off).toNat = off := UInt32.toNat_ofNat_of_lt' (by
    show off < 2 ^ 32
    omega)
  have hTerm32 : (UInt32.ofNat e.term.length).toNat = e.term.length :=
    UInt32.toNat_ofNat_of_lt' (by
      show e.term.length < 2 ^ 32
      omega)
  unfold IdxView.sparseEntry
  rw [hBytes]
  show (Chk.add (16 + r.postings.length + r.dict.length) (4 * b) >>= _) = _
  rw [Chk.add_ok (by omega)]
  simp only [bind, Except.bind, hRead, Chk.ofFormat, hOff32]
  show (Chk.add (16 + r.postings.length + r.dict.length)
    (4 * (UInt32.ofNat r.sparseOffsets.length).toNat) >>= _) = _
  rw [hBlocks32, Chk.add_ok (by omega)]
  show (Chk.add (16 + r.postings.length + r.dict.length) r.sparse.length >>= _) = _
  rw [Chk.add_ok (by omega)]
  show (Chk.add (16 + r.postings.length + r.dict.length + 4 * r.sparseOffsets.length) off
    >>= _) = _
  rw [Chk.add_ok (by omega)]
  simp only [bind, Except.bind]
  rw [if_neg (by omega)]
  simp only [hRead1, hTerm32, hRead2]
  rw [Chk.add_ok (by omega)]
  simp only [hRead3, hRead4]
  rw [if_neg (by omega)]

/-- The file is accepted, and read as what was written. -/
theorem parse_sealBody (h : r.Holds raws) (hShort : ∀ e ∈ raws, e.term.length ≤ maxTermBytes)
    (hSorted : raws.Pairwise fun e f => e.term < f.term)
    (hFile : (sealBody .idx formatVersion r.body).length < 2 ^ 64)
    (hSparse : r.sparse.length < 2 ^ 32) :
    IdxView.parse (sealBody .idx formatVersion r.body) = .ok r.view ∧ r.view.Written raws ∧
      raws.length < 2 ^ 64 ∧ r.view.env.verifyCrc r.view.bytes = .ok () := by
  obtain ⟨hTotal, hParse, hTake, hCrc⟩ := Envelope.parse_sealBody .idx hFile
  have hTocLen := length_toc r
  have hBody := length_idxBody r
  have hSparseLen := length_sparse r
  have hDictCount := length_le_dictFrom 0 [] raws
  rw [← h.dict] at hDictCount
  have hHead : headerLen = 16 := rfl
  have hFoot : footerLen = 16 := rfl
  have hBlocks : r.sparseOffsets.length < 2 ^ 32 := by omega
  have hBlocks32 : (UInt32.ofNat r.sparseOffsets.length).toNat = r.sparseOffsets.length :=
    UInt32.toNat_ofNat_of_lt' hBlocks
  have hDecode := @decode_toc r (by omega) hBlocks (by rw [h.numTerms]; omega)
  have hAtBody := at_idxBody r
  have hEntry := @view_sparseEntry _ r raws h hShort hFile hSparse
  generalize hFileEq : sealBody .idx formatVersion r.body = file at *
  have hBytes : r.view.bytes = file := hFileEq
  refine ⟨?_, ?_, by omega, ?_⟩
  · have hLong : ¬ headerLen + r.body.length - headerLen < tocLen := by
      unfold tocLen
      omega
    have hRegion : (file.take (headerLen + r.body.length)).drop
        (headerLen + r.body.length - tocLen) = r.toc := by
      rw [hTake, toc_region]
    unfold IdxView.parse
    simp only [bind, Except.bind, hParse, Chk.ofFormat]
    rw [if_neg hLong, hRegion, hDecode]
    simp only []
    rw [if_pos (tocOf_tiles h hBlocks), Regions.view, hFileEq]
  · refine ⟨⟨?_, ?_⟩, hShort, hSorted, h.numTerms, ?_, ?_, ?_, ?_, ?_, ?_, fun b e => hEntry⟩
    · rwa [hBytes]
    · rw [hBytes]
      show headerLen + r.postings.length ≤ file.length
      omega
    · show (UInt32.ofNat r.sparseOffsets.length).toNat = _
      rw [hBlocks32, h.length_offsets]
    · rw [hBytes, ← h.postings]
      exact hAtBody.left
    · rw [← h.postings]
      rfl
    · rw [hBytes, ← h.dict]
      exact hAtBody.right.left
    · rw [← h.dict]
      rfl
    · rw [hBytes]
      show headerLen + r.postings.length + r.dict.length ≤ file.length
      omega
  · show Envelope.verifyCrc ⟨headerLen + r.body.length, Platform.crc32 r.body⟩
      (sealBody .idx formatVersion r.body) = _
    rw [hFileEq]
    exact hCrc

end File

end Ripindex
