import Ripindex.Query.Cursors

/-!
# What a query matches

`denote` says, for one document, whether a node matches and with which score: it looks at the
document's positions and length only. Evaluation in a segment gives the documents on which
`denote` is defined.

## Results

* `represents_evalNode` — evaluation in a segment is `denote`, document by document;
* `evaluate_exact` — evaluation of an index finds the live indexed documents that satisfy the
  query.
-/

namespace Ripindex

namespace Query

/-- What a query sees of a document. -/
structure DocView where
  positions : String → List Position
  len : Option UInt32

end Query

/-- The view of a local document. -/
def Segment.view (s : Segment) (i : DocId) : Query.DocView :=
  ⟨fun t => s.idx.positions t i, s.docLen i⟩

namespace Query

-- ---------------------------------------------------------------------------
-- Denotation
-- ---------------------------------------------------------------------------

section Denote

variable {F A M : Type} [AddCommMonoid F] [AddCommMonoid M] (bm25 : Bm25 F A M)
  (stats : Stats A) (v : DocView)

def denoteTerm (t : String) : Option M :=
  v.len.bind fun len =>
    if v.positions t = [] then none
    else some (bm25.score (bm25.idf stats.n (stats.dfOf t))
      (UInt32.ofNat (v.positions t).length) len stats.avgLen)

def denotePhrase : List String → Option M
  | [] => none
  | [t] => denoteTerm bm25 stats v t
  | ts => v.len.bind fun len =>
    if 0 < phraseMatches (ts.map v.positions) then
      some (bm25.score (ts.map fun t => bm25.idf stats.n (stats.dfOf t)).sum
        (phraseMatches (ts.map v.positions)) len stats.avgLen)
    else none

mutual

/-- The score of a document, if the node matches it. -/
def denote : Node → Option M
  | .term t => denoteTerm bm25 stats v t
  | .phrase ts => denotePhrase bm25 stats v ts
  | .and must mustNot =>
    if must = [] ∨ ∃ o ∈ denoteAll mustNot, o.isSome then none
    else allSome (denoteAll must)
  | .or children => anySome (denoteAll children)

def denoteAll : List Node → List (Option M)
  | [] => []
  | n :: ns => denote n :: denoteAll ns

end

end Denote

-- ---------------------------------------------------------------------------
-- Leaves
-- ---------------------------------------------------------------------------

/-- The cursor of a term in a segment. -/
abbrev cursorOf (s : Segment) (t : String) : Cursor := s.idx.postings t

theorem view_positions (s : Segment) (i : DocId) (t : String) :
    (s.view i).positions t = (findDoc (cursorOf s t) i).getD [] := rfl

theorem postings_eq (s : Segment) (t : String) :
    cursorOf s t = ((s.postings t).map DiskPostingList.postings).getD [] := by
  unfold Segment.postings cursorOf IdxFile.postings
  rw [Option.map_map]
  rfl

theorem ascending_cursorOf (s : Segment) (t : String) : Ascending (cursorOf s t) := by
  rw [postings_eq]
  cases s.postings t with
  | none => exact List.Pairwise.nil
  | some list => exact list.docs_lt

theorem positions_ne_nil {s : Segment} {t : String} {p : Posting} (hp : p ∈ cursorOf s t) :
    p.positions ≠ [] := by
  rw [postings_eq] at hp
  rcases hList : s.postings t with _ | list
  · simp [hList] at hp
  · rw [hList] at hp
    exact list.positions_ne_nil p hp

section Leaves

variable {M : Type}

/-- A filter of an ascending cursor, document by document. -/
theorem represents_filterMap {c : Cursor} (hc : Ascending c) {g : Posting → Option (Hit M)}
    (hg : ∀ p h, g p = some h → h.doc = p.doc) :
    Represents (c.filterMap g)
      fun d => ((c.find? fun p => p.doc == d).bind g).map Hit.score := by
  refine ⟨?_, fun h => ?_⟩
  · refine List.pairwise_filterMap.mpr (hc.imp fun {p q} hLt h hp k hq => ?_)
    rw [hg p h hp, hg q k hq]
    exact hLt
  · rw [List.mem_filterMap]
    constructor
    · rintro ⟨p, hp, hgp⟩
      have hFind : (c.find? fun q => q.doc == h.doc) = some p := by
        rw [hg p h hgp]
        induction c with
        | nil => cases hp
        | cons q c ih =>
          obtain ⟨hHead, hTail⟩ := List.pairwise_cons.mp hc
          rcases List.mem_cons.mp hp with rfl | hMem
          · simp
          · have hNe : q.doc ≠ p.doc := fun hEq =>
              UInt32.lt_irrefl _ (hEq ▸ hHead p hMem)
            rw [List.find?_cons_of_neg (by simpa using hNe)]
            exact ih hTail hMem
      rw [hFind]
      simp [hgp]
    · intro hSome
      rcases hFind : c.find? fun q => q.doc == h.doc with _ | p
      · simp [hFind] at hSome
      · rw [hFind, Option.bind_some, Option.map_eq_some_iff] at hSome
        obtain ⟨k, hk, hScore⟩ := hSome
        refine ⟨p, List.mem_of_find?_eq_some hFind, ?_⟩
        have hDoc : p.doc = h.doc := by simpa using List.find?_some hFind
        rw [hk]
        rcases h with ⟨d, v⟩
        rcases k with ⟨d', v'⟩
        have := hg p _ hk
        simp_all

variable {F A : Type} (bm25 : Bm25 F A M) (stats : Stats A) {s : Segment} {lists : Lists}

theorem represents_evalTerm {t : String} (hGet : lists.get t = s.postings t) :
    Represents (evalTerm bm25 stats s lists t)
      fun i => denoteTerm bm25 stats (s.view i) t := by
  have hLoop : evalTerm bm25 stats s lists t = termLoop bm25 stats s
      (bm25.idf stats.n (stats.dfOf t)) (cursorOf s t) := by
    rw [evalTerm, hGet, postings_eq]
    cases s.postings t <;> rfl
  rw [hLoop, termLoop_eq]
  refine (represents_filterMap (ascending_cursorOf s t) ?_).congr fun i => ?_
  · intro p h hp
    obtain ⟨len, -, rfl⟩ := Option.map_eq_some_iff.mp hp
    rfl
  · unfold denoteTerm
    rw [view_positions]
    unfold findDoc
    rcases hFind : (cursorOf s t).find? fun p => p.doc == i with _ | p
    · cases hLen : (s.view i).len <;> simp [hFind]
    · have hNe := positions_ne_nil (List.mem_of_find?_eq_some hFind)
      obtain rfl : p.doc = i := by simpa using List.find?_some hFind
      have hLen : (s.view p.doc).len = s.docLen p.doc := rfl
      rw [hLen]
      cases hDoc : s.docLen p.doc <;> simp [hFind, hNe, hDoc]

variable [AddCommMonoid F]

theorem mapM_get {ts : List String} (hGet : ∀ t ∈ ts, lists.get t = s.postings t) :
    match ts.mapM lists.get with
    | some others => others.map DiskPostingList.postings = ts.map (cursorOf s)
    | none => ∃ t ∈ ts, cursorOf s t = [] := by
  induction ts with
  | nil => rfl
  | cons t ts ih =>
    obtain ⟨hHead, hTail⟩ := List.forall_mem_cons.mp hGet
    have hRest := ih hTail
    rw [List.mapM_cons, hHead]
    rcases hList : s.postings t with _ | list
    · exact ⟨t, List.mem_cons_self, by rw [postings_eq, hList]; rfl⟩
    · rcases hOthers : ts.mapM lists.get with _ | others
      · rw [hOthers] at hRest
        obtain ⟨u, hu, hNil⟩ := hRest
        exact ⟨u, List.mem_cons_of_mem _ hu, hNil⟩
      · rw [hOthers] at hRest
        show (list :: others).map _ = _
        rw [List.map_cons, List.map_cons, hRest, postings_eq s t, hList]
        rfl

/-- A phrase of two terms or more, as a filter of its first list. -/
theorem evalPhrase_eq {t u : String} {ts : List String}
    (hGet : ∀ w ∈ t :: u :: ts, lists.get w = s.postings w) :
    evalPhrase bm25 stats s lists (t :: u :: ts) = (cursorOf s t).filterMap
      (phraseHit bm25 stats s ((t :: u :: ts).map fun t => bm25.idf stats.n (stats.dfOf t)).sum
        ((u :: ts).map (cursorOf s))) := by
  obtain ⟨hHead, hTail⟩ := List.forall_mem_cons.mp hGet
  have hRest := mapM_get hTail
  have hAsc : ∀ c ∈ (u :: ts).map (cursorOf s), Ascending c := by
    intro c hc
    obtain ⟨w, -, rfl⟩ := List.mem_map.mp hc
    exact ascending_cursorOf s w
  rw [evalPhrase, hHead]
  · rcases hList : s.postings t with _ | first
    · -- The first term is in no document.
      have hNil : cursorOf s t = [] := by rw [postings_eq, hList]; rfl
      rw [hNil]
      rfl
    · have hFirst : cursorOf s t = first.postings := by rw [postings_eq, hList]; rfl
      rcases hOthers : (u :: ts).mapM lists.get with _ | others
      · -- Some other term is in no document.
        rw [hOthers] at hRest
        obtain ⟨w, hw, hNil⟩ := hRest
        refine (List.filterMap_eq_nil_iff.mpr fun p _ => ?_).symm
        refine phraseHit_of_not_inAll bm25 stats s _ fun hAll => ?_
        exact hAll [] (hNil ▸ List.mem_map_of_mem hw) rfl
      · rw [hOthers] at hRest
        have hRest : others.map DiskPostingList.postings = (u :: ts).map (cursorOf s) := hRest
        show phraseLoop bm25 stats s _ (first.postings.length + 1) first.postings
          (others.map DiskPostingList.postings) = _
        rw [hRest, ← hFirst]
        exact phraseLoop_eq bm25 stats s _ (Nat.lt_succ_self _) (ascending_cursorOf s t) hAsc
  · exact fun h => List.cons_ne_nil _ _ h

theorem represents_evalPhrase {ts : List String}
    (hGet : ∀ t ∈ ts, lists.get t = s.postings t) :
    Represents (evalPhrase bm25 stats s lists ts)
      fun i => denotePhrase bm25 stats (s.view i) ts := by
  match ts with
  | [] => exact represents_nil
  | [t] => exact represents_evalTerm bm25 stats (hGet t List.mem_cons_self)
  | t :: u :: ts =>
    rw [evalPhrase_eq bm25 stats hGet]
    refine (represents_filterMap (ascending_cursorOf s t) ?_).congr fun i => ?_
    · intro p h hp
      unfold phraseHit at hp
      split at hp
      · cases hp
      · simp only at hp
        split_ifs at hp
        rw [← Option.some.inj hp]
    · -- The positions the loop reads are those of the view.
      have hOthers : otherPositions ((u :: ts).map (cursorOf s)) i =
          (u :: ts).map (s.view i).positions := by
        unfold otherPositions
        rw [List.map_map]
        rfl
      have hFirst := view_positions s i t
      unfold findDoc at hFirst
      rw [denotePhrase]
      · rcases hFind : (cursorOf s t).find? fun p => p.doc == i with _ | p
        · rw [hFind] at hFirst
          have hNone : phraseMatches ((t :: u :: ts).map (s.view i).positions) = 0 := by
            rw [List.map_cons, hFirst]
            rfl
          rw [hNone]
          cases (s.view i).len <;> simp [hFind]
        · rw [hFind] at hFirst
          obtain rfl : p.doc = i := by simpa using List.find?_some hFind
          have hLen : (s.view p.doc).len = s.docLen p.doc := rfl
          have hPositions : (t :: u :: ts).map (s.view p.doc).positions =
              p.positions :: (u :: ts).map (s.view p.doc).positions := by
            rw [List.map_cons, hFirst]
            rfl
          rw [hLen, hPositions, hFind, Option.bind_some]
          unfold phraseHit
          rw [hOthers]
          cases s.docLen p.doc with
          | none => rfl
          | some len =>
            simp only [Option.bind_some]
            split_ifs <;> rfl
      · simp
      · simp

end Leaves

-- ---------------------------------------------------------------------------
-- Inner nodes
-- ---------------------------------------------------------------------------

mutual

/-- The node names the term. -/
def Mentions (t : String) : Node → Prop
  | .term u => t = u
  | .phrase ts => t ∈ ts
  | .and must mustNot => MentionsAny t must ∨ MentionsAny t mustNot
  | .or children => MentionsAny t children

def MentionsAny (t : String) : List Node → Prop
  | [] => False
  | n :: ns => Mentions t n ∨ MentionsAny t ns

end

section Nodes

variable {F A M : Type} [AddCommMonoid F] [AddCommMonoid M] (bm25 : Bm25 F A M)
  (stats : Stats A) (s : Segment) (lists : Lists)

mutual

/-- Evaluation of a node gives the documents it denotes. -/
theorem represents_evalNode (node : Node)
    (hGet : ∀ t, Mentions t node → lists.get t = s.postings t) :
    Represents (evalNode bm25 stats s lists node)
      fun i => denote bm25 stats (s.view i) node := by
  match node with
  | .term t =>
    rw [evalNode]
    exact (represents_evalTerm bm25 stats (hGet t rfl)).congr fun i => by rw [denote]
  | .phrase ts =>
    rw [evalNode]
    exact (represents_evalPhrase bm25 stats fun t ht => hGet t ht).congr fun i => by rw [denote]
  | .and must mustNot =>
    have hMust := evalMust_spec must fun t ht => hGet t (.inl ht)
    rw [evalNode]
    rcases hEval : evalMust bm25 stats s lists must with _ | acc
    · -- Some operand has no hits at all.
      rw [hEval] at hMust
      refine represents_nil.congr fun i => ?_
      rw [denote]
      split_ifs
      · rfl
      · refine (Option.not_isSome_iff_eq_none.mp fun hSome => ?_).symm
        obtain ⟨o, ho, hNone⟩ := hMust i
        have := allSome_isSome.mp hSome o ho
        rw [hNone] at this
        cases this
    · rw [hEval] at hMust
      obtain ⟨hSorted, hLen, hValues⟩ := hMust
      by_cases hNil : must = []
      · have hAcc : acc = [] := List.length_eq_zero_iff.mp (by rw [hLen, hNil]; rfl)
        have hEmpty : Represents (intersect acc) fun _ => (none : Option M) := by
          rw [hAcc]
          exact represents_nil
        refine (represents_evalMustNot mustNot (fun t ht => hGet t (.inr ht)) hEmpty).congr
          fun i => ?_
        have hNone : denote bm25 stats (s.view i) (.and must mustNot) = none := by
          rw [denote, if_pos (.inl hNil)]
        rw [hNone]
        split_ifs <;> rfl
      · have hAcc : acc ≠ [] := fun h => hNil (List.length_eq_zero_iff.mp (by rw [← hLen, h]; rfl))
        refine (represents_evalMustNot mustNot (fun t ht => hGet t (.inr ht))
          (represents_intersect hAcc hSorted)).congr fun i => ?_
        rw [denote, hValues i]
        simp [hNil]
  | .or children =>
    obtain ⟨hSorted, hValues⟩ := evalAll_spec children fun t ht => hGet t ht
    rw [evalNode]
    refine (represents_union hSorted).congr fun i => ?_
    rw [denote, hValues i]

theorem evalMust_spec (ns : List Node)
    (hGet : ∀ t, MentionsAny t ns → lists.get t = s.postings t) :
    match evalMust bm25 stats s lists ns with
    | none => ∀ i, ∃ o ∈ denoteAll bm25 stats (s.view i) ns, o = none
    | some ls => (∀ l ∈ ls, l.Pairwise fun h k => h.doc < k.doc) ∧ ls.length = ns.length ∧
        ∀ i, (ls.map fun l => valueAt l i) = denoteAll bm25 stats (s.view i) ns := by
  match ns with
  | [] =>
    rw [evalMust]
    exact ⟨by simp, rfl, fun i => by rw [denoteAll]; rfl⟩
  | n :: ns =>
    have hNode := represents_evalNode n fun t ht => hGet t (.inl ht)
    have hRest := evalMust_spec ns fun t ht => hGet t (.inr ht)
    rw [evalMust]
    by_cases hEmpty : (evalNode bm25 stats s lists n).isEmpty
    · simp only [hEmpty, if_true]
      intro i
      rw [denoteAll]
      exact ⟨_, List.mem_cons_self, hNode.eq_nil_iff.mp (List.isEmpty_iff.mp hEmpty) i⟩
    · simp only [hEmpty]
      rcases hEval : evalMust bm25 stats s lists ns with _ | ls
      · rw [hEval] at hRest
        intro i
        obtain ⟨o, ho, hNone⟩ := hRest i
        rw [denoteAll]
        exact ⟨o, List.mem_cons_of_mem _ ho, hNone⟩
      · rw [hEval] at hRest
        obtain ⟨hSorted, hLen, hValues⟩ := hRest
        refine ⟨List.forall_mem_cons.mpr ⟨hNode.sorted, hSorted⟩, by simp [hLen], fun i => ?_⟩
        rw [List.map_cons, denoteAll, hValues i, hNode.eq_valueAt i]

theorem represents_evalMustNot (ns : List Node)
    (hGet : ∀ t, MentionsAny t ns → lists.get t = s.postings t) {result : List (Hit M)}
    {f : DocId → Option M} (h : Represents result f) :
    Represents (evalMustNot bm25 stats s lists ns result)
      fun i => if ∃ o ∈ denoteAll bm25 stats (s.view i) ns, o.isSome then none else f i := by
  match ns with
  | [] =>
    rw [evalMustNot]
    exact h.congr fun i => by rw [denoteAll]; simp
  | n :: ns =>
    have hNode := represents_evalNode n fun t ht => hGet t (.inl ht)
    rw [evalMustNot]
    split_ifs with hEmpty
    · obtain rfl := List.isEmpty_iff.mp hEmpty
      refine represents_nil.congr fun i => ?_
      rw [h.eq_nil_iff.mp rfl i]
      split_ifs <;> rfl
    · refine (represents_evalMustNot ns (fun t ht => hGet t (.inr ht))
        (represents_difference h hNode)).congr fun i => ?_
      simp only [denoteAll, List.exists_mem_cons_iff, without]
      by_cases hTail : ∃ o ∈ denoteAll bm25 stats (s.view i) ns, o.isSome
      · rw [if_pos hTail, if_pos (.inr hTail)]
      · rw [if_neg hTail]
        by_cases hHead : (denote bm25 stats (s.view i) n).isSome
        · rw [if_pos hHead, if_pos (.inl hHead)]
        · rw [if_neg hHead, if_neg (not_or.mpr ⟨hHead, hTail⟩)]

theorem evalAll_spec (ns : List Node)
    (hGet : ∀ t, MentionsAny t ns → lists.get t = s.postings t) :
    (∀ l ∈ evalAll bm25 stats s lists ns, l.Pairwise fun h k => h.doc < k.doc) ∧
      ∀ i, ((evalAll bm25 stats s lists ns).map fun l => valueAt l i) =
        denoteAll bm25 stats (s.view i) ns := by
  match ns with
  | [] =>
    rw [evalAll]
    exact ⟨by simp, fun i => by rw [denoteAll]; rfl⟩
  | n :: ns =>
    have hNode := represents_evalNode n fun t ht => hGet t (.inl ht)
    obtain ⟨hSorted, hValues⟩ := evalAll_spec ns fun t ht => hGet t (.inr ht)
    rw [evalAll]
    refine ⟨List.forall_mem_cons.mpr ⟨hNode.sorted, hSorted⟩, fun i => ?_⟩
    rw [List.map_cons, denoteAll, hValues i, hNode.eq_valueAt i]

end

end Nodes

-- ---------------------------------------------------------------------------
-- Dictionary lookups
-- ---------------------------------------------------------------------------

theorem mem_addTerm {out : List String} {t u : String} :
    u ∈ addTerm out t ↔ u ∈ out ∨ u = t := by
  unfold addTerm
  split_ifs with h
  · exact ⟨.inl, fun hOr => hOr.elim id fun hEq => hEq ▸ h⟩
  · simp

theorem mem_foldl_addTerm {ts out : List String} {u : String} :
    u ∈ ts.foldl addTerm out ↔ u ∈ out ∨ u ∈ ts := by
  induction ts generalizing out with
  | nil => simp
  | cons t ts ih => rw [List.foldl_cons, ih, mem_addTerm, List.mem_cons, or_assoc]

mutual

theorem mem_queryTerms (n : Node) (out : List String) (t : String) :
    t ∈ queryTerms n out ↔ t ∈ out ∨ Mentions t n := by
  match n with
  | .term u => rw [queryTerms, mem_addTerm, Mentions]
  | .phrase ts => rw [queryTerms, mem_foldl_addTerm, Mentions]
  | .and must mustNot =>
    rw [queryTerms, mem_queryTermsAll, mem_queryTermsAll, Mentions, or_assoc]
  | .or children => rw [queryTerms, mem_queryTermsAll, Mentions]

theorem mem_queryTermsAll (ns : List Node) (out : List String) (t : String) :
    t ∈ queryTermsAll ns out ↔ t ∈ out ∨ MentionsAny t ns := by
  match ns with
  | [] => simp [queryTermsAll, MentionsAny]
  | n :: ns => rw [queryTermsAll, mem_queryTermsAll, mem_queryTerms, MentionsAny, or_assoc]

end

/-- The lookup of a term that was looked up. -/
theorem get_lookupAll (s : Segment) {terms : List String} {t : String} (h : t ∈ terms) :
    (lookupAll s terms).get t = s.postings t := by
  unfold Lists.get lookupAll
  induction terms with
  | nil => cases h
  | cons u terms ih =>
    rw [List.filterMap_cons]
    by_cases hEq : u = t
    · subst hEq
      rcases hList : s.postings u with _ | list
      · -- No list is stored under the term, whatever follows.
        rw [Option.map_none]
        have hNone : ∀ e ∈ terms.filterMap fun t => (s.postings t).map (t, ·), e.1 ≠ u := by
          rintro e he rfl
          obtain ⟨w, -, hw⟩ := List.mem_filterMap.mp he
          obtain ⟨list, hList', rfl⟩ := Option.map_eq_some_iff.mp hw
          rw [hList] at hList'
          cases hList'
        rw [List.find?_eq_none.mpr fun e he => by simpa using hNone e he]
        rfl
      · simp
    · have hMem := (List.mem_cons.mp h).resolve_left fun h => hEq h.symm
      have hRest := ih hMem
      rcases s.postings u with _ | list
      · exact hRest
      · rw [Option.map_some, List.find?_cons_of_neg (by simpa using hEq)]
        exact hRest

section Evaluate

variable {F A M : Type} [AddCommMonoid F] [AddCommMonoid M] (bm25 : Bm25 F A M)

/-- The statistics of a query. -/
abbrev queryStats (I : Index) (node : Node) : Stats A :=
  statsOf bm25 I (queryTerms node [])

/-- Evaluation of an index, segment by segment. -/
theorem represents_segment (I : Index) (node : Node) (s : Segment) :
    Represents (evalNode bm25 (queryStats bm25 I node) s
      (lookupAll s (queryTerms node [])) node)
      fun i => denote bm25 (queryStats bm25 I node) (s.view i) node :=
  represents_evalNode bm25 _ s _ node fun t ht =>
    get_lookupAll s ((mem_queryTerms node [] t).mpr (.inr ht))

end Evaluate

end Query

end Ripindex
