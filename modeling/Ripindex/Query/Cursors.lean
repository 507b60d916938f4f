import Mathlib.Data.List.TakeWhile
import Ripindex.Query.Exec

/-!
# Walking posting lists

A term's walk and a phrase's leapfrog both visit the documents of their first cursor. Neither
misses one: what `seek` skips lies before every later target.

## Results

* `align_some`, `align_none` — what an alignment skips is not in every list;
* `phraseLoop_eq` — the loop of a phrase, as a filter of its first list.
-/

namespace Ripindex.Query

/-- Positions of a document in what is left of a list. -/
def findDoc (c : Cursor) (d : DocId) : Option (List Position) :=
  (c.find? fun p => p.doc == d).map Posting.positions

/-- Documents ascend. -/
def Ascending (c : Cursor) : Prop := c.Pairwise fun p q => p.doc < q.doc

theorem findDoc_cons (p : Posting) (c : Cursor) (d : DocId) :
    findDoc (p :: c) d = if p.doc = d then some p.positions else findDoc c d := by
  unfold findDoc
  by_cases h : p.doc = d <;> simp [h]

theorem findDoc_eq_none_of_lt {c : Cursor} {d : DocId} (h : ∀ p ∈ c, d < p.doc) :
    findDoc c d = none := by
  unfold findDoc
  rw [Option.map_eq_none_iff, List.find?_eq_none]
  intro p hp hEq
  have hLt := h p hp
  rw [beq_iff_eq.mp hEq] at hLt
  exact UInt32.lt_irrefl _ hLt

/-- `c'` ascends and agrees with `c` from document `t` on. -/
structure Later (t : DocId) (c c' : Cursor) : Prop where
  ascending : Ascending c'
  findDoc_eq : ∀ d, t ≤ d → findDoc c' d = findDoc c d

theorem Later.refl (t : DocId) {c : Cursor} (h : Ascending c) : Later t c c :=
  ⟨h, fun _ _ => rfl⟩

theorem Later.trans {t t' : DocId} {c c' c'' : Cursor} (h : Later t c c')
    (h' : Later t' c' c'') (hLe : t ≤ t') : Later t' c c'' :=
  ⟨h'.ascending, fun d hd =>
    (h'.findDoc_eq d hd).trans (h.findDoc_eq d (UInt32.le_trans hLe hd))⟩

theorem Later.mono {t t' : DocId} {c c' : Cursor} (h : Later t c c') (hLe : t ≤ t') :
    Later t' c c' :=
  ⟨h.ascending, fun d hd => h.findDoc_eq d (UInt32.le_trans hLe hd)⟩

/-- Seeking loses nothing from its target on. -/
theorem later_seek {c : Cursor} (h : Ascending c) (t : DocId) : Later t c (c.seek t) := by
  refine ⟨h.sublist (List.dropWhile_sublist _), fun d hd => ?_⟩
  induction c with
  | nil => rfl
  | cons p c ih =>
    unfold Cursor.seek
    by_cases hLt : p.doc < t
    · rw [List.dropWhile_cons_of_pos (by simpa using hLt), findDoc_cons, if_neg]
      · exact ih (List.pairwise_cons.mp h).2
      · rintro rfl
        exact UInt32.not_le.mpr hLt hd
    · rw [List.dropWhile_cons_of_neg (by simpa using hLt)]

/-- What a seek stops at is not before the target, and nothing between is in the list. -/
theorem seek_cons {c : Cursor} (h : Ascending c) {t : DocId} {p : Posting} {rest : Cursor}
    (hSeek : c.seek t = p :: rest) :
    t ≤ p.doc ∧ ∀ d, t ≤ d → d < p.doc → findDoc c d = none := by
  have hLater := later_seek h t
  constructor
  · have hNot := List.head?_dropWhile_not (fun p : Posting => p.doc < t) c
    rw [show (c.dropWhile fun p => decide (p.doc < t)) = p :: rest from hSeek] at hNot
    simpa using hNot
  · intro d hd hLt
    rw [← hLater.findDoc_eq d hd]
    have hAsc := hLater.ascending
    rw [hSeek] at hAsc ⊢
    refine findDoc_eq_none_of_lt fun q hq => ?_
    rcases List.mem_cons.mp hq with rfl | hMem
    · exact hLt
    · exact UInt32.lt_trans hLt ((List.pairwise_cons.mp hAsc).1 q hMem)

theorem seek_nil {c : Cursor} (h : Ascending c) {t : DocId} (hSeek : c.seek t = []) :
    ∀ d, t ≤ d → findDoc c d = none := by
  intro d hd
  rw [← (later_seek h t).findDoc_eq d hd, hSeek]
  rfl

-- ---------------------------------------------------------------------------
-- Aligning
-- ---------------------------------------------------------------------------

/-- The cursor stands at document `t`. -/
def At (t : DocId) (c : Cursor) : Prop := ∃ p rest, c = p :: rest ∧ p.doc = t

/-- What an attempt to align the other cursors at `t` tells. -/
def AlignedSpec (t : DocId) (cs : List Cursor) : Aligned → Prop
  | .exhausted => ∃ c ∈ cs, ∀ d, t ≤ d → findDoc c d = none
  | .aligned cs' => List.Forall₂ (fun c c' => Later t c c' ∧ At t c') cs cs'
  | .overshot d cs' => t < d ∧ (∃ c ∈ cs, ∀ x, t ≤ x → x < d → findDoc c x = none) ∧
      List.Forall₂ (Later t) cs cs'

theorem seekOthers_spec {t : DocId} {cs : List Cursor} (h : ∀ c ∈ cs, Ascending c) :
    AlignedSpec t cs (seekOthers t cs) := by
  induction cs with
  | nil => exact .nil
  | cons c cs ih =>
    obtain ⟨hc, hcs⟩ := List.forall_mem_cons.mp h
    have hLater := later_seek hc t
    rw [seekOthers]
    rcases hSeek : c.seek t with _ | ⟨p, rest⟩
    · exact ⟨c, List.mem_cons_self, seek_nil hc hSeek⟩
    · obtain ⟨hLe, hGap⟩ := seek_cons hc hSeek
      rw [hSeek] at hLater
      by_cases hEq : p.doc = t
      · simp only [if_pos hEq]
        have hRest := ih hcs
        rcases hOthers : seekOthers t cs with _ | cs' | ⟨d, cs'⟩
        · rw [hOthers] at hRest
          obtain ⟨c', hc', hNone⟩ := hRest
          exact ⟨c', List.mem_cons_of_mem _ hc', hNone⟩
        · rw [hOthers] at hRest
          exact .cons ⟨hLater, p, rest, rfl, hEq⟩ hRest
        · rw [hOthers] at hRest
          obtain ⟨hLt, ⟨c', hc', hNone⟩, hAll⟩ := hRest
          exact ⟨hLt, ⟨c', List.mem_cons_of_mem _ hc', hNone⟩, .cons hLater hAll⟩
      · simp only [if_neg hEq]
        refine ⟨UInt32.lt_of_le_of_ne hLe (Ne.symm hEq), ⟨c, List.mem_cons_self, hGap⟩,
          .cons hLater ?_⟩
        exact List.forall₂_same.mpr fun c' hc' => .refl t (hcs c' hc')

/-- The document is in every list. -/
def InAll (cs : List Cursor) (d : DocId) : Prop := ∀ c ∈ cs, findDoc c d ≠ none

theorem inAll_of_later {t : DocId} {cs cs' : List Cursor} (h : List.Forall₂ (Later t) cs cs')
    {d : DocId} (hd : t ≤ d) : InAll cs' d ↔ InAll cs d := by
  induction h with
  | nil => exact Iff.rfl
  | cons hHead _ ih =>
    unfold InAll at ih ⊢
    rw [List.forall_mem_cons, List.forall_mem_cons, hHead.findDoc_eq d hd, ih]

/-- What an alignment of the other cursors with `first` tells. -/
def AlignSpec (first : Cursor) (others : List Cursor) :
    Option (Posting × Cursor × List Cursor) → Prop
  | none => ∀ p ∈ first, ¬ InAll others p.doc
  | some (p, rest, others') =>
    ∃ skipped, first = skipped ++ p :: rest ∧ (∀ q ∈ skipped, ¬ InAll others q.doc) ∧
      List.Forall₂ (fun c c' => Later p.doc c c' ∧ At p.doc c') others others'

theorem forall₂_trans {α β γ : Type} {R : α → β → Prop} {S : β → γ → Prop}
    {T : α → γ → Prop} {as : List α} {bs : List β} {cs : List γ} (h : List.Forall₂ R as bs)
    (h' : List.Forall₂ S bs cs) (hT : ∀ a b c, R a b → S b c → T a c) :
    List.Forall₂ T as cs := by
  induction h generalizing cs with
  | nil =>
    cases h'
    exact .nil
  | cons hHead _ ih =>
    cases h' with
    | cons hHead' hTail' => exact .cons (hT _ _ _ hHead hHead') (ih hTail')

theorem forall₂_right {α β : Type} {R : α → β → Prop} {P : β → Prop} {as : List α}
    {bs : List β} (h : List.Forall₂ R as bs) (hP : ∀ a b, R a b → P b) : ∀ b ∈ bs, P b := by
  induction h with
  | nil => simp
  | cons hHead _ ih => exact List.forall_mem_cons.mpr ⟨hP _ _ hHead, ih⟩

/-- Documents that are not in every list can be skipped before an alignment. -/
theorem AlignSpec.skip {t : DocId} {a b : Cursor} {others cs : List Cursor}
    {r : Option (Posting × Cursor × List Cursor)} (h : AlignSpec b cs r)
    (ha : ∀ q ∈ a, ¬ InAll others q.doc) (hb : ∀ q ∈ b, t ≤ q.doc)
    (hLater : List.Forall₂ (Later t) others cs) : AlignSpec (a ++ b) others r := by
  rcases r with _ | ⟨p, rest, others'⟩
  · intro q hq
    rcases List.mem_append.mp hq with hq | hq
    · exact ha q hq
    · rw [← inAll_of_later hLater (hb q hq)]
      exact h q hq
  · obtain ⟨skipped, rfl, hSkip, hAll⟩ := h
    have hp : t ≤ p.doc := hb p (by simp)
    refine ⟨a ++ skipped, by simp, fun q hq => ?_, ?_⟩
    · rcases List.mem_append.mp hq with hq | hq
      · exact ha q hq
      · rw [← inAll_of_later hLater (hb q (by simp [hq]))]
        exact hSkip q hq
    · exact forall₂_trans hLater hAll fun _ _ _ h h' => ⟨h.trans h'.1 hp, h'.2⟩

/-- With enough fuel, an alignment skips only documents that are not in every list. -/
theorem align_spec {fuel : Nat} {first : Cursor} {others : List Cursor}
    (hFuel : first.length < fuel) (hFirst : Ascending first)
    (hOthers : ∀ c ∈ others, Ascending c) :
    AlignSpec first others (align fuel first others) := by
  induction fuel generalizing first others with
  | zero => omega
  | succ fuel ih =>
    cases first with
    | nil =>
      intro p hp
      cases hp
    | cons p rest =>
      obtain ⟨hHead, hTail⟩ := List.pairwise_cons.mp hFirst
      have hGe : ∀ q ∈ p :: rest, p.doc ≤ q.doc := by
        intro q hq
        rcases List.mem_cons.mp hq with rfl | hMem
        · exact UInt32.le_refl _
        · exact UInt32.le_of_lt (hHead q hMem)
      have hSpec := seekOthers_spec (t := p.doc) hOthers
      rw [align]
      rcases hSeek : seekOthers p.doc others with _ | cs' | ⟨d, cs'⟩
      · -- A cursor ended: no later document is in its list.
        rw [hSeek] at hSpec
        obtain ⟨c, hc, hNone⟩ := hSpec
        intro q hq hAll
        exact hAll c hc (hNone q.doc (hGe q hq))
      · rw [hSeek] at hSpec
        exact ⟨[], rfl, by simp, hSpec⟩
      · -- A cursor overshot: the first one skips to the document it stands at.
        rw [hSeek] at hSpec
        obtain ⟨hLt, ⟨c, hc, hNone⟩, hLater⟩ := hSpec
        have hSkip : Cursor.seek (p :: rest) d =
            rest.dropWhile fun q => decide (q.doc < d) := by
          unfold Cursor.seek
          rw [List.dropWhile_cons_of_pos (by simpa using hLt)]
        have hSplit : p :: rest = (p :: rest.takeWhile fun q => decide (q.doc < d)) ++
            rest.dropWhile fun q => decide (q.doc < d) := by
          rw [List.cons_append, List.takeWhile_append_dropWhile]
        have hLen : (rest.dropWhile fun q => decide (q.doc < d)).length ≤ rest.length :=
          (List.dropWhile_sublist _).length_le
        rw [List.length_cons] at hFuel
        have hRec := @ih (rest.dropWhile fun q => decide (q.doc < d)) cs'
          (by omega) (hTail.sublist (List.dropWhile_sublist _))
          (forall₂_right hLater fun _ _ h => h.ascending)
        show AlignSpec (p :: rest) others (align fuel (Cursor.seek (p :: rest) d) cs')
        rw [hSkip, hSplit]
        refine hRec.skip (fun q hq hAll => ?_) (fun q hq => ?_) hLater
        · have hMem : q ∈ p :: rest := by
            rw [hSplit]
            exact List.mem_append_left _ hq
          refine hAll c hc (hNone q.doc (hGe q hMem) ?_)
          rcases List.mem_cons.mp hq with rfl | hq
          · exact hLt
          · simpa using List.mem_takeWhile_imp hq
        · exact hGe q (List.mem_cons_of_mem _ ((List.dropWhile_sublist _).subset hq))

-- ---------------------------------------------------------------------------
-- The loop over a phrase's documents
-- ---------------------------------------------------------------------------

/-- Positions of every other term in a document of the first one. -/
def otherPositions (others : List Cursor) (d : DocId) : List (List Position) :=
  others.map fun c => (findDoc c d).getD []

/-- Where a term is absent nothing matches. -/
theorem followsAt_of_absent {p : Position} {k : Nat} {pss : List (List Position)}
    (h : [] ∈ pss) : followsAt p k pss = false := by
  induction pss generalizing k with
  | nil => cases h
  | cons ps pss ih =>
    rw [followsAt]
    rcases List.mem_cons.mp h with rfl | h
    · simp
    · rw [ih h, Bool.and_false]

theorem phraseMatches_of_not_inAll {others : List Cursor} {p : Posting}
    (h : ¬ InAll others p.doc) :
    phraseMatches (p.positions :: otherPositions others p.doc) = 0 := by
  have hMem : [] ∈ otherPositions others p.doc := by
    unfold InAll at h
    push Not at h
    obtain ⟨c, hc, hNone⟩ := h
    exact List.mem_map.mpr ⟨c, hc, by rw [hNone]; rfl⟩
  rw [phraseMatches, List.countP_eq_zero.mpr]
  · rfl
  · intro q _
    rw [followsAt_of_absent hMem]
    simp

theorem otherPositions_of_later {t : DocId} {others others' : List Cursor}
    (h : List.Forall₂ (Later t) others others') {d : DocId} (hd : t ≤ d) :
    otherPositions others' d = otherPositions others d := by
  induction h with
  | nil => rfl
  | cons hHead _ ih =>
    unfold otherPositions at ih ⊢
    rw [List.map_cons, List.map_cons, hHead.findDoc_eq d hd, ih]

/-- Cursors that stand at a document give its positions. -/
theorem positions_of_at {t : DocId} {others others' : List Cursor}
    (h : List.Forall₂ (fun c c' => Later t c c' ∧ At t c') others others') :
    others'.map Cursor.positions = otherPositions others t := by
  induction h with
  | nil => rfl
  | cons hHead _ ih =>
    obtain ⟨hLater, p, rest, rfl, rfl⟩ := hHead
    unfold otherPositions at ih ⊢
    rw [List.map_cons, List.map_cons, ih, ← hLater.findDoc_eq _ (UInt32.le_refl _),
      findDoc_cons, if_pos rfl]
    rfl

variable {F A M : Type} (bm25 : Bm25 F A M) (stats : Stats A) (seg : Segment) (idf : F)

/-- The hit of a phrase in a document of its first term, if it is one. -/
def phraseHit (others : List Cursor) (p : Posting) : Option (Hit M) :=
  match seg.docLen p.doc with
  | none => none
  | some len =>
    let tf := phraseMatches (p.positions :: otherPositions others p.doc)
    if 0 < tf then some ⟨p.doc, bm25.score idf tf len stats.avgLen⟩ else none

theorem phraseHit_of_not_inAll {others : List Cursor} {p : Posting}
    (h : ¬ InAll others p.doc) : phraseHit bm25 stats seg idf others p = none := by
  unfold phraseHit
  rw [phraseMatches_of_not_inAll h]
  cases seg.docLen p.doc <;> simp

/-- The loop of a phrase visits the documents of its first term, and keeps the hits. -/
theorem phraseLoop_eq {fuel : Nat} {first : Cursor} {others : List Cursor}
    (hFuel : first.length < fuel) (hFirst : Ascending first)
    (hOthers : ∀ c ∈ others, Ascending c) :
    phraseLoop bm25 stats seg idf fuel first others =
      first.filterMap (phraseHit bm25 stats seg idf others) := by
  induction fuel generalizing first others with
  | zero => omega
  | succ fuel ih =>
    have hSpec := align_spec (Nat.lt_succ_self first.length) hFirst hOthers
    rw [phraseLoop]
    rcases hAlign : align (first.length + 1) first others with _ | ⟨p, rest, others'⟩
    · rw [hAlign] at hSpec
      refine (List.filterMap_eq_nil_iff.mpr fun p hp => ?_).symm
      exact phraseHit_of_not_inAll bm25 stats seg idf (hSpec p hp)
    · rw [hAlign] at hSpec
      obtain ⟨skipped, rfl, hSkip, hAt⟩ := hSpec
      have hLater : List.Forall₂ (Later p.doc) others others' := hAt.imp fun _ _ h => h.1
      have hRest := hFirst.sublist (List.sublist_append_right skipped (p :: rest))
      obtain ⟨hHead, hTail⟩ := List.pairwise_cons.mp hRest
      rw [List.length_append, List.length_cons] at hFuel
      have hRec := @ih rest others' (by omega) hTail
        (forall₂_right hLater fun _ _ h => h.ascending)
      have hSame : rest.filterMap (phraseHit bm25 stats seg idf others') =
          rest.filterMap (phraseHit bm25 stats seg idf others) := by
        refine List.filterMap_congr fun q hq => ?_
        unfold phraseHit
        rw [otherPositions_of_later hLater (UInt32.le_of_lt (hHead q hq))]
      have hNone : skipped.filterMap (phraseHit bm25 stats seg idf others) = [] :=
        List.filterMap_eq_nil_iff.mpr fun q hq =>
          phraseHit_of_not_inAll bm25 stats seg idf (hSkip q hq)
      rw [List.filterMap_append, hNone, List.nil_append, List.filterMap_cons]
      simp only [hRec, hSame, positions_of_at hAt, phraseHit]
      rcases seg.docLen p.doc with _ | len
      · rfl
      · simp only
        split_ifs <;> rfl

theorem termLoop_eq (c : Cursor) :
    termLoop bm25 stats seg idf c = c.filterMap fun p => (seg.docLen p.doc).map fun len =>
      ⟨p.doc, bm25.score idf (UInt32.ofNat p.positions.length) len stats.avgLen⟩ := by
  induction c with
  | nil => rfl
  | cons p c ih =>
    rw [termLoop, List.filterMap_cons, ih]
    cases seg.docLen p.doc <;> rfl

end Ripindex.Query
