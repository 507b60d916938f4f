import Ripindex.Query.Parser

/-!
# The query grammar

The grammar in the header of `query/parser.rs` as derivations over the lexer's tokens, each
with the tree it prescribes, and the parser against it.

A derivation records whether it has an *early* `AND`: one whose conjunction has, before it,
only operands that yield no terms. The parser takes such an `AND` for a leading one.

## Results

* `derives_of_fuel`       — what the parser's functions return derives from what they consume.
* `parseOr_fuel`          — `5 n + 5` units of fuel are enough for `n` tokens.
* `parseWith_of_derives`  — what derives without an early `AND` is accepted, with the same
  tree, and what derives with one is not.
* `parse_grammar_iff`     — the parser is the grammar exactly where no `AND` is early.
-/

namespace Ripindex.Query

-- ---------------------------------------------------------------------------
-- Derivations
-- ---------------------------------------------------------------------------

/-- The operands of a conjunction that yield terms, in order, negated or not. -/
abbrev Operands := List (Node × Bool)

def musts (ops : Operands) : List Node :=
  (ops.filter fun op => !op.2).map Prod.fst

def mustNots (ops : Operands) : List Node :=
  (ops.filter fun op => op.2).map Prod.fst

/-- The node of a conjunction: a single positive operand stands for itself. -/
def conjNode (ops : Operands) : Node :=
  match musts ops, mustNots ops with
  | [node], [] => node
  | must, mustNot => .and must mustNot

/-- What a run of tokens stands for. -/
inductive Meaning
  | query (node : Node)
  | ors (children : List Node)
  | conj (operands : Operands)
  | unary (operand : Option (Node × Bool))
  | atom (node : Option Node)

/-- Derivations of the grammar. The flag says whether an `AND` of the derivation comes before
any operand of its conjunction that yields terms. -/
inductive Derives (terms : String → List String) : Bool → Toks → Meaning → Prop
  | query {early ts children} :
      Derives terms early ts (.ors children) →
      Derives terms early ts (.query (finishOr children))
  | and {early ts ops} :
      Derives terms early ts (.conj ops) → musts ops ≠ [] →
      Derives terms early ts (.ors [conjNode ops])
  | or {early early' ts ts' children ops} (i : Nat) :
      Derives terms early ts (.ors children) →
      Derives terms early' ts' (.conj ops) → musts ops ≠ [] →
      Derives terms (early || early') (ts ++ (i, .or) :: ts')
        (.ors (children ++ [conjNode ops]))
  | first {early ts operand} :
      Derives terms early ts (.unary operand) →
      Derives terms early ts (.conj operand.toList)
  | adjacent {early early' ts ts' ops operand} :
      Derives terms early ts (.conj ops) → Derives terms early' ts' (.unary operand) →
      Derives terms (early || early') (ts ++ ts') (.conj (ops ++ operand.toList))
  | explicit {early early' ts ts' ops operand} (i : Nat) :
      Derives terms early ts (.conj ops) → Derives terms early' ts' (.unary operand) →
      Derives terms (early || early' || ops.isEmpty) (ts ++ (i, .and) :: ts')
        (.conj (ops ++ operand.toList))
  | plain {early ts node} :
      Derives terms early ts (.atom node) →
      Derives terms early ts (.unary (node.map (·, false)))
  | minus {early ts node} (i : Nat) :
      Derives terms early ts (.atom node) →
      Derives terms early ((i, .minus) :: ts) (.unary (node.map (·, true)))
  | paren {early ts node} (i j : Nat) :
      Derives terms early ts (.query node) →
      Derives terms early ((i, .lparen) :: (ts ++ [(j, .rparen)])) (.atom (some node))
  | word (i : Nat) (w : String) :
      Derives terms false [(i, .word w)] (.atom (textToNode terms w))
  | phrase (i : Nat) (p : String) :
      Derives terms false [(i, .phrase p)] (.atom (textToNode terms p))

variable {terms : String → List String}

-- ---------------------------------------------------------------------------
-- Steps of the parser
-- ---------------------------------------------------------------------------

/-- Whether the loop of `parse_and` stops at the next token. -/
def endsAnd : Toks → Bool
  | [] | (_, .or) :: _ | (_, .rparen) :: _ => true
  | _ => false

theorem parseAnd_end {fuel : Nat} {must mustNot : List Node} {toks : Toks}
    (h : endsAnd toks = true) :
    parseAnd terms (fuel + 1) must mustNot toks = finishAnd must mustNot toks := by
  unfold endsAnd at h
  split at h <;> first | rfl | cases h

theorem parseAnd_operand {fuel : Nat} {must mustNot : List Node} {toks : Toks}
    (h : startsOperand toks = true) :
    parseAnd terms (fuel + 1) must mustNot toks = (do
      let (operand, rest) ← parseUnary terms fuel toks
      match operand with
      | some (node, true) => parseAnd terms fuel must (mustNot ++ [node]) rest
      | some (node, false) => parseAnd terms fuel (must ++ [node]) mustNot rest
      | none => parseAnd terms fuel must mustNot rest) := by
  unfold startsOperand at h
  split at h <;> first | rfl | cases h

/-- The next token of a conjunction ends it, is an `AND`, or begins an operand. -/
theorem next_cases (toks : Toks) :
    endsAnd toks = true ∨ (∃ i rest, toks = (i, .and) :: rest) ∨ startsOperand toks = true := by
  match toks with
  | [] => exact .inl rfl
  | (_, .or) :: _ => exact .inl rfl
  | (_, .rparen) :: _ => exact .inl rfl
  | (i, .and) :: rest => exact .inr (.inl ⟨i, rest, rfl⟩)
  | (_, .word _) :: _ => exact .inr (.inr rfl)
  | (_, .phrase _) :: _ => exact .inr (.inr rfl)
  | (_, .minus) :: _ => exact .inr (.inr rfl)
  | (_, .lparen) :: _ => exact .inr (.inr rfl)

theorem finishAnd_ops (ops : Operands) (toks : Toks) (h : musts ops ≠ []) :
    finishAnd (musts ops) (mustNots ops) toks = .ok (conjNode ops, toks) := by
  unfold finishAnd conjNode
  rw [if_neg h]
  split <;> simp_all

/-- The loop of `parse_and` over the operands collected so far. -/
theorem parseAnd_ops {fuel : Nat} {ops : Operands} {toks : Toks}
    (h : startsOperand toks = true) :
    parseAnd terms (fuel + 1) (musts ops) (mustNots ops) toks = (do
      let (operand, rest) ← parseUnary terms fuel toks
      parseAnd terms fuel (musts (ops ++ operand.toList)) (mustNots (ops ++ operand.toList))
        rest) := by
  rw [parseAnd_operand h]
  congr 1
  funext ⟨operand, rest⟩
  rcases operand with _ | ⟨node, _ | _⟩ <;> simp [musts, mustNots]

theorem ops_eq_nil_iff (ops : Operands) : musts ops = [] ∧ mustNots ops = [] ↔ ops = [] := by
  constructor
  · rintro ⟨hMust, hNot⟩
    rcases ops with _ | ⟨⟨node, _ | _⟩, ops⟩
    · rfl
    · simp [musts] at hMust
    · simp [mustNots] at hNot
  · rintro rfl
    exact ⟨rfl, rfl⟩

-- ---------------------------------------------------------------------------
-- What the parser accepts derives
-- ---------------------------------------------------------------------------

/-- Every derivation begins with a token that begins an operand. -/
theorem Derives.startsOperand {early : Bool} {ts : Toks} {m : Meaning}
    (h : Derives terms early ts m) (rest : Toks) : startsOperand (ts ++ rest) = true := by
  induction h generalizing rest with
  | query _ ih => exact ih rest
  | and _ _ ih => exact ih rest
  | or i _ _ _ ih _ =>
    rw [List.append_assoc]
    exact ih _
  | first _ ih => exact ih rest
  | adjacent _ _ ih _ =>
    rw [List.append_assoc]
    exact ih _
  | explicit i _ _ ih _ =>
    rw [List.append_assoc]
    exact ih _
  | plain _ ih => exact ih rest
  | minus => rfl
  | paren => rfl
  | word => rfl
  | phrase => rfl

theorem Derives.length_pos {early : Bool} {ts : Toks} {m : Meaning}
    (h : Derives terms early ts m) : 0 < ts.length := by
  have hStart := h.startsOperand []
  cases ts with
  | nil => cases hStart
  | cons => exact Nat.succ_pos _

/-- What the loop of `parse_and` has read: nothing, a conjunction, or a conjunction and an
`AND` that an operand follows. -/
inductive AndRead (terms : String → List String) (before : Toks) (ops : Operands) (toks : Toks) :
    Prop
  | start : before = [] → ops = [] → AndRead terms before ops toks
  | conj : Derives terms false before (.conj ops) → AndRead terms before ops toks
  | explicit (ts : Toks) (i : Nat) : before = ts ++ [(i, .and)] →
      Derives terms false ts (.conj ops) → ops ≠ [] → startsOperand toks = true →
      AndRead terms before ops toks

/-- One more operand. -/
theorem AndRead.step {before ts rest : Toks} {ops : Operands} {operand : Option (Node × Bool)}
    (h : AndRead terms before ops (ts ++ rest))
    (hOperand : Derives terms false ts (.unary operand)) :
    Derives terms false (before ++ ts) (.conj (ops ++ operand.toList)) := by
  cases h with
  | start hBefore hOps =>
    subst hBefore hOps
    exact .first hOperand
  | conj hConj => exact .adjacent hConj hOperand
  | explicit ts' i hBefore hConj hNe hStart =>
    subst hBefore
    have hEmpty : ops.isEmpty = false := by simpa using hNe
    have := Derives.explicit i hConj hOperand
    rw [hEmpty] at this
    rw [List.append_assoc]
    exact this

/-- An end of the conjunction is reached only behind a conjunction, or at once. -/
theorem AndRead.of_end {before toks : Toks} {ops : Operands} (h : AndRead terms before ops toks)
    (hStart : startsOperand toks = false) (hNe : ops ≠ []) :
    Derives terms false before (.conj ops) := by
  cases h with
  | start _ hOps => exact absurd hOps hNe
  | conj hConj => exact hConj
  | explicit _ _ _ _ _ hStart' => rw [hStart] at hStart'; cases hStart'

theorem startsOperand_of_endsAnd {toks : Toks} (h : endsAnd toks = true) :
    startsOperand toks = false := by
  unfold endsAnd at h
  split at h <;> first | rfl | cases h

/-- Whether the loop of `parse_or` stops at the next token. -/
def endsOr : Toks → Bool
  | [] | (_, .rparen) :: _ => true
  | _ => false

theorem endsOr_of_endsAnd {toks : Toks} (h : endsAnd toks = true)
    (hNotOr : ∀ i rest, toks = (i, .or) :: rest → False) : endsOr toks = true := by
  unfold endsAnd at h
  split at h
  · rfl
  · exact absurd rfl (hNotOr _ _)
  · rfl
  · cases h

/-- What the functions of the parser return derives from the tokens they consume. -/
theorem derives_of_fuel (fuel : Nat) :
    (∀ {toks node rest}, parseOr terms fuel toks = .ok (node, rest) →
      ∃ ts, toks = ts ++ rest ∧ Derives terms false ts (.query node) ∧ endsOr rest = true) ∧
    (∀ {before children toks node rest}, Derives terms false before (.ors children) →
      endsAnd toks = true → parseOrRest terms fuel children toks = .ok (node, rest) →
      ∃ ts, toks = ts ++ rest ∧ Derives terms false (before ++ ts) (.query node) ∧
        endsOr rest = true) ∧
    (∀ {before ops toks node rest}, AndRead terms before ops toks →
      parseAnd terms fuel (musts ops) (mustNots ops) toks = .ok (node, rest) →
      ∃ ts ops', toks = ts ++ rest ∧ Derives terms false (before ++ ts) (.conj ops') ∧
        musts ops' ≠ [] ∧ node = conjNode ops' ∧ endsAnd rest = true) ∧
    (∀ {toks operand rest}, parseUnary terms fuel toks = .ok (operand, rest) →
      ∃ ts, toks = ts ++ rest ∧ Derives terms false ts (.unary operand)) ∧
    (∀ {toks node rest}, parseAtom terms fuel toks = .ok (node, rest) →
      ∃ ts, toks = ts ++ rest ∧ Derives terms false ts (.atom node)) := by
  induction fuel with
  | zero =>
    refine ⟨?_, ?_, ?_, ?_, ?_⟩
    all_goals intros
    all_goals simp_all [parseOr, parseOrRest, parseAnd, parseUnary, parseAtom]
  | succ fuel ih =>
    obtain ⟨hOr, hOrRest, hAnd, hUnary, hAtom⟩ := ih
    have hAndStart : ∀ {toks node rest}, parseAnd terms fuel [] [] toks = .ok (node, rest) →
        ∃ ts ops, toks = ts ++ rest ∧ Derives terms false ts (.conj ops) ∧ musts ops ≠ [] ∧
          node = conjNode ops ∧ endsAnd rest = true :=
      fun h => @hAnd [] [] _ _ _ (.start rfl rfl) h
    refine ⟨?_, ?_, ?_, ?_, ?_⟩
    · intro toks node rest h
      rw [parseOr] at h
      obtain ⟨⟨child, rest'⟩, hChild, hRest⟩ := bind_ok h
      obtain ⟨ts, ops, hToks, hTs, hNe, rfl, hEnd⟩ := hAndStart hChild
      obtain ⟨ts', hToks', hTs', hEnd'⟩ := hOrRest (.and hTs hNe) hEnd hRest
      exact ⟨ts ++ ts', by rw [hToks, hToks', List.append_assoc], hTs', hEnd'⟩
    · intro before children toks node rest hBefore hEnd h
      unfold parseOrRest at h
      split at h
      · rename_i i rest₀
        split_ifs at h
        obtain ⟨⟨child, rest'⟩, hChild, hRest⟩ := bind_ok h
        obtain ⟨ts, ops, hToks, hTs, hNe, rfl, hEnd'⟩ := hAndStart hChild
        obtain ⟨ts', hToks', hTs', hEnd''⟩ := hOrRest (.or i hBefore hTs hNe) hEnd' hRest
        exact ⟨(i, .or) :: (ts ++ ts'), by rw [hToks, hToks']; simp, by simpa using hTs', hEnd''⟩
      · rename_i hNotOr
        cases h
        refine ⟨[], rfl, by simpa using Derives.query hBefore, ?_⟩
        exact endsOr_of_endsAnd hEnd hNotOr
    · intro before ops toks node rest hRead h
      rcases next_cases toks with hEnd | ⟨i, rest₀, rfl⟩ | hStart
      · rw [parseAnd_end hEnd] at h
        have hNe : musts ops ≠ [] := by
          intro hNil
          rw [hNil] at h
          simp only [finishAnd, if_true] at h
          split_ifs at h
          split at h <;> cases h
        rw [finishAnd_ops ops toks hNe] at h
        cases h
        have hConj := hRead.of_end (startsOperand_of_endsAnd hEnd) (by rintro rfl; exact hNe rfl)
        exact ⟨[], ops, rfl, by simpa using hConj, hNe, rfl, hEnd⟩
      · rw [parseAnd] at h
        split_ifs at h with hBad
        rw [ops_eq_nil_iff, not_or] at hBad
        have hConj := hRead.of_end rfl hBad.1
        obtain ⟨ts, ops', hToks, hTs, hNe, hNode, hEnd⟩ :=
          hAnd (.explicit before i rfl hConj hBad.1 (by simpa using hBad.2)) h
        exact ⟨(i, .and) :: ts, ops', by rw [hToks]; rfl, by simpa using hTs, hNe, hNode, hEnd⟩
      · rw [parseAnd_ops hStart] at h
        obtain ⟨⟨operand, rest'⟩, hOperand, hRest⟩ := bind_ok h
        obtain ⟨ts, rfl, hTs⟩ := hUnary hOperand
        obtain ⟨ts', ops', hToks, hTs', hNe, hNode, hEnd⟩ := hAnd (.conj (hRead.step hTs)) hRest
        exact ⟨ts ++ ts', ops', by rw [hToks, List.append_assoc], by simpa using hTs', hNe,
          hNode, hEnd⟩
    · intro toks operand rest h
      unfold parseUnary at h
      split at h
      · obtain ⟨⟨node, rest'⟩, hNode, hRest⟩ := bind_ok h
        obtain ⟨ts, rfl, hTs⟩ := hAtom hNode
        cases hRest
        exact ⟨_ :: ts, rfl, .minus _ hTs⟩
      · obtain ⟨⟨node, rest'⟩, hNode, hRest⟩ := bind_ok h
        obtain ⟨ts, hToks, hTs⟩ := hAtom hNode
        cases hRest
        exact ⟨ts, hToks, .plain hTs⟩
    · intro toks node rest h
      unfold parseAtom at h
      split at h
      · cases h
      · rename_i i toks
        obtain ⟨⟨inner, rest'⟩, hInner, hRest⟩ := bind_ok h
        obtain ⟨ts, rfl, hTs, -⟩ := hOr hInner
        dsimp only at hRest
        split at hRest
        · cases hRest
          rename_i j
          exact ⟨(i, .lparen) :: (ts ++ [(j, .rparen)]), by simp, .paren i j hTs⟩
        · cases hRest
      · cases h
        exact ⟨[_], rfl, .word _ _⟩
      · cases h
        exact ⟨[_], rfl, .phrase _ _⟩
      · cases h

-- ---------------------------------------------------------------------------
-- Fuel
-- ---------------------------------------------------------------------------

/-- Running out of fuel is the only result that more fuel changes. -/
theorem bind_settled {α β : Type} {x x' : ParseM α} {f f' : α → ParseM β}
    (hx : x ≠ .error none → x' = x) (hf : ∀ a, f a ≠ .error none → f' a = f a)
    (h : x >>= f ≠ .error none) : x' >>= f' = x >>= f := by
  rcases x with e | a
  · have hNe : (.error e : ParseM α) ≠ .error none := fun hEq => h (by cases hEq; rfl)
    rw [hx hNe]
    rfl
  · rw [hx (by simp)]
    exact hf a h

theorem fuel_succ (fuel : Nat) :
    (∀ toks, parseOr terms fuel toks ≠ .error none →
      parseOr terms (fuel + 1) toks = parseOr terms fuel toks) ∧
    (∀ children toks, parseOrRest terms fuel children toks ≠ .error none →
      parseOrRest terms (fuel + 1) children toks = parseOrRest terms fuel children toks) ∧
    (∀ must mustNot toks, parseAnd terms fuel must mustNot toks ≠ .error none →
      parseAnd terms (fuel + 1) must mustNot toks = parseAnd terms fuel must mustNot toks) ∧
    (∀ toks, parseUnary terms fuel toks ≠ .error none →
      parseUnary terms (fuel + 1) toks = parseUnary terms fuel toks) ∧
    (∀ toks, parseAtom terms fuel toks ≠ .error none →
      parseAtom terms (fuel + 1) toks = parseAtom terms fuel toks) := by
  induction fuel with
  | zero =>
    refine ⟨?_, ?_, ?_, ?_, ?_⟩
    all_goals intros
    all_goals simp_all [parseOr, parseOrRest, parseAnd, parseUnary, parseAtom]
  | succ fuel ih =>
    obtain ⟨hOr, hOrRest, hAnd, hUnary, hAtom⟩ := ih
    refine ⟨?_, ?_, ?_, ?_, ?_⟩
    · intro toks h
      rw [parseOr] at h ⊢
      rw [parseOr]
      exact bind_settled (hAnd _ _ _) (fun a => hOrRest _ _) h
    · intro children toks h
      unfold parseOrRest at h ⊢
      split at h
      · rename_i i rest
        by_cases hStart : startsOperand rest = true
        · simp only [hStart, if_true] at h ⊢
          exact bind_settled (hAnd _ _ _) (fun a => hOrRest _ _) h
        · simp only [if_neg hStart]
      · rfl
    · intro must mustNot toks h
      rcases next_cases toks with hEnd | ⟨i, rest, rfl⟩ | hStart
      · rw [parseAnd_end hEnd, parseAnd_end hEnd]
      · rw [parseAnd] at h ⊢
        rw [parseAnd]
        split_ifs at h ⊢
        · rfl
        · exact hAnd _ _ _ h
      · rw [parseAnd_operand hStart] at h ⊢
        rw [parseAnd_operand hStart]
        refine bind_settled (hUnary _) (fun a ha => ?_) h
        obtain ⟨operand, rest⟩ := a
        rcases operand with _ | ⟨node, _ | _⟩ <;> exact hAnd _ _ _ ha
    · intro toks h
      unfold parseUnary at h ⊢
      split at h
      · exact bind_settled (hAtom _) (fun _ _ => rfl) h
      · exact bind_settled (hAtom _) (fun _ _ => rfl) h
    · intro toks h
      unfold parseAtom at h ⊢
      split at h
      · rfl
      · exact bind_settled (hOr _) (fun _ _ => rfl) h
      · rfl
      · rfl
      · rfl

/-- More fuel keeps a result. -/
theorem parseOr_mono {fuel fuel' : Nat} {toks : Toks} (hLe : fuel ≤ fuel')
    (h : parseOr terms fuel toks ≠ .error none) :
    parseOr terms fuel' toks = parseOr terms fuel toks := by
  induction hLe with
  | refl => rfl
  | step _ ih => rw [(fuel_succ _).1 toks (ih ▸ h), ih]

/-- A bind runs out of fuel in one of its two parts. -/
theorem bind_ne_none {α β : Type} {x : ParseM α} {f : α → ParseM β} (hx : x ≠ .error none)
    (hf : ∀ a, x = .ok a → f a ≠ .error none) : x >>= f ≠ .error none := by
  rcases x with e | a
  · intro h
    exact hx (by cases h; rfl)
  · exact hf a rfl

theorem enough_fuel (fuel : Nat) :
    (∀ toks : Toks, 5 * toks.length + 5 ≤ fuel → parseOr terms fuel toks ≠ .error none) ∧
    (∀ children (toks : Toks), 5 * toks.length + 4 ≤ fuel →
      parseOrRest terms fuel children toks ≠ .error none) ∧
    (∀ ops (toks : Toks), 5 * toks.length + 4 ≤ fuel →
      parseAnd terms fuel (musts ops) (mustNots ops) toks ≠ .error none) ∧
    (∀ toks : Toks, 5 * toks.length + 3 ≤ fuel → parseUnary terms fuel toks ≠ .error none) ∧
    (∀ toks : Toks, 5 * toks.length + 2 ≤ fuel → parseAtom terms fuel toks ≠ .error none) := by
  induction fuel with
  | zero => refine ⟨?_, ?_, ?_, ?_, ?_⟩ <;> intros <;> omega
  | succ fuel ih =>
    obtain ⟨hOr, hOrRest, hAnd, hUnary, hAtom⟩ := ih
    have hAndStart : ∀ {toks : Toks}, 5 * toks.length + 4 ≤ fuel →
        parseAnd terms fuel [] [] toks ≠ .error none := fun h => hAnd [] _ h
    -- A conjunction leaves no more tokens than it is given, an operand fewer.
    have hAndLen : ∀ {toks node rest}, parseAnd terms fuel [] [] toks = .ok (node, rest) →
        rest.length ≤ toks.length := by
      intro toks node rest h
      obtain ⟨ts, _, rfl, -⟩ := @(derives_of_fuel fuel).2.2.1 [] [] _ _ _ (.start rfl rfl) h
      simp
    have hUnaryLen : ∀ {toks operand rest},
        parseUnary terms fuel toks = .ok (operand, rest) → rest.length < toks.length := by
      intro toks operand rest h
      obtain ⟨ts, rfl, hTs⟩ := (derives_of_fuel fuel).2.2.2.1 h
      have := hTs.length_pos
      rw [List.length_append]
      omega
    refine ⟨?_, ?_, ?_, ?_, ?_⟩
    · intro toks hFuel
      rw [parseOr]
      refine bind_ne_none (hAndStart (by omega)) fun a ha => hOrRest _ _ ?_
      have := hAndLen ha
      omega
    · intro children toks hFuel
      unfold parseOrRest
      split
      · rename_i i rest
        rw [List.length_cons] at hFuel
        split_ifs
        · refine bind_ne_none (hAndStart (by omega)) fun a ha => hOrRest _ _ ?_
          have := hAndLen ha
          omega
        · simp
      · simp
    · intro ops toks hFuel
      rcases next_cases toks with hEnd | ⟨i, rest, rfl⟩ | hStart
      · rw [parseAnd_end hEnd]
        unfold finishAnd
        split_ifs
        · simp
        · split <;> simp
        · split <;> simp
      · rw [List.length_cons] at hFuel
        rw [parseAnd]
        split_ifs
        · simp
        · exact hAnd _ _ (by omega)
      · rw [parseAnd_ops hStart]
        refine bind_ne_none (hUnary _ (by omega)) fun a ha => hAnd _ _ ?_
        have := hUnaryLen ha
        omega
    · intro toks hFuel
      unfold parseUnary
      split
      · rw [List.length_cons] at hFuel
        exact bind_ne_none (hAtom _ (by omega)) fun _ _ => by simp [pure, Except.pure]
      · exact bind_ne_none (hAtom _ (by omega)) fun _ _ => by simp [pure, Except.pure]
    · intro toks hFuel
      unfold parseAtom
      split
      · simp
      · rw [List.length_cons] at hFuel
        refine bind_ne_none (hOr _ (by omega)) fun a _ => ?_
        obtain ⟨node, rest⟩ := a
        dsimp only
        split <;> simp [pure, Except.pure]
      · simp
      · simp
      · simp

/-- The fuel `parse` gives is enough, and more of it changes nothing. -/
theorem parseOr_fuel (toks : Toks) :
    parseOr terms (5 * toks.length + 5) toks ≠ .error none ∧
      ∀ fuel, 5 * toks.length + 5 ≤ fuel →
        parseOr terms fuel toks = parseOr terms (5 * toks.length + 5) toks :=
  have hNe := (enough_fuel (5 * toks.length + 5)).1 toks (Nat.le_refl _)
  ⟨hNe, fun _ hLe => parseOr_mono hLe hNe⟩

-- ---------------------------------------------------------------------------
-- What derives is accepted
-- ---------------------------------------------------------------------------

/-- With enough fuel the result is `r`. -/
def Settles {α : Type} (f : Nat → ParseM α) (r : ParseM α) : Prop :=
  ∃ enough, ∀ fuel, enough ≤ fuel → f fuel = r

/-- With enough fuel the result is an error of the parser. -/
def Fails {α : Type} (f : Nat → ParseM α) : Prop :=
  ∃ e, Settles f (.error (some e))

section

variable {α β : Type} {f : Nat → ParseM α} {g : Nat → α → ParseM β}

theorem Settles.of_step {f' : Nat → ParseM α} {r : ParseM α}
    (hStep : ∀ fuel, f' (fuel + 1) = f fuel) (h : Settles f r) : Settles f' r := by
  obtain ⟨enough, hEnough⟩ := h
  refine ⟨enough + 1, fun fuel hLe => ?_⟩
  obtain ⟨n, rfl⟩ := Nat.exists_eq_add_of_le hLe
  rw [show enough + 1 + n = enough + n + 1 by omega, hStep]
  exact hEnough _ (Nat.le_add_right ..)

theorem Settles.const (r : ParseM α) : Settles (fun _ => r) r :=
  ⟨0, fun _ _ => rfl⟩

theorem Settles.bind {a : α} {r : ParseM β} (h : Settles f (.ok a))
    (hNext : Settles (fun fuel => g fuel a) r) : Settles (fun fuel => f fuel >>= g fuel) r := by
  obtain ⟨n, hn⟩ := h
  obtain ⟨m, hm⟩ := hNext
  refine ⟨max n m, fun fuel hLe => ?_⟩
  dsimp only
  rw [hn fuel (by omega)]
  exact hm fuel (by omega)

theorem Fails.of_step {f' : Nat → ParseM α} (hStep : ∀ fuel, f' (fuel + 1) = f fuel)
    (h : Fails f) : Fails f' :=
  let ⟨e, hE⟩ := h
  ⟨e, hE.of_step hStep⟩

theorem Fails.bind (h : Fails f) : Fails (fun fuel => f fuel >>= g fuel) := by
  obtain ⟨e, n, hn⟩ := h
  refine ⟨e, n, fun fuel hLe => ?_⟩
  dsimp only
  rw [hn fuel hLe]
  rfl

end

/-- What the parser does with a derived run of tokens that `rest` follows: with an early `AND`
it fails, without one it goes on behind the run. -/
def Reads (terms : String → List String) (early : Bool) (ts : Toks) : Meaning → Prop
  | .query node => ∀ rest, endsOr rest = true →
    if early then Fails fun fuel => parseOr terms fuel (ts ++ rest)
    else Settles (fun fuel => parseOr terms fuel (ts ++ rest)) (.ok (node, rest))
  | .ors children => ∀ rest, endsAnd rest = true →
    if early then Fails fun fuel => parseOr terms fuel (ts ++ rest)
    else ∀ r, Settles (fun fuel => parseOrRest terms fuel children rest) r →
      Settles (fun fuel => parseOr terms fuel (ts ++ rest)) r
  | .conj ops => ∀ rest,
    if early then Fails fun fuel => parseAnd terms fuel [] [] (ts ++ rest)
    else ∀ r, Settles (fun fuel => parseAnd terms fuel (musts ops) (mustNots ops) rest) r →
      Settles (fun fuel => parseAnd terms fuel [] [] (ts ++ rest)) r
  | .unary operand => ∀ rest,
    if early then Fails fun fuel => parseUnary terms fuel (ts ++ rest)
    else Settles (fun fuel => parseUnary terms fuel (ts ++ rest)) (.ok (operand, rest))
  | .atom node => ∀ rest,
    if early then Fails fun fuel => parseAtom terms fuel (ts ++ rest)
    else Settles (fun fuel => parseAtom terms fuel (ts ++ rest)) (.ok (node, rest))

/-- A conjunction that ends is the node of its operands. -/
theorem settles_end {ops : Operands} {rest : Toks} (hNe : musts ops ≠ [])
    (hEnd : endsAnd rest = true) :
    Settles (fun fuel => parseAnd terms fuel (musts ops) (mustNots ops) rest)
      (.ok (conjNode ops, rest)) := by
  refine .of_step (fun fuel => ?_) (Settles.const _)
  rw [parseAnd_end hEnd, finishAnd_ops ops rest hNe]

/-- An operand is read and collected. -/
theorem settles_operand {ops : Operands} {ts rest : Toks} {early : Bool}
    {operand : Option (Node × Bool)} (hTs : Derives terms early ts (.unary operand))
    (h : Reads terms false ts (.unary operand)) {r : ParseM (Node × Toks)}
    (hNext : Settles (fun fuel => parseAnd terms fuel (musts (ops ++ operand.toList))
      (mustNots (ops ++ operand.toList)) rest) r) :
    Settles (fun fuel => parseAnd terms fuel (musts ops) (mustNots ops) (ts ++ rest)) r :=
  .of_step (fun _ => parseAnd_ops (hTs.startsOperand rest))
    (Settles.bind (by simpa [Reads] using h rest) hNext)

theorem fails_operand {ops : Operands} {ts rest : Toks} {operand : Option (Node × Bool)}
    (hTs : Derives terms true ts (.unary operand)) (h : Reads terms true ts (.unary operand)) :
    Fails fun fuel => parseAnd terms fuel (musts ops) (mustNots ops) (ts ++ rest) :=
  .of_step (fun _ => parseAnd_ops (hTs.startsOperand rest))
    (Fails.bind (by simpa [Reads] using h rest))

theorem parseUnary_plain {early : Bool} {ts : Toks} {node : Option Node} (fuel : Nat)
    (hTs : Derives terms early ts (.atom node)) (rest : Toks) :
    parseUnary terms (fuel + 1) (ts ++ rest) = (do
      let (node, rest') ← parseAtom terms fuel (ts ++ rest)
      pure (node.map (·, false), rest')) := by
  cases hTs <;> rfl

/-- The parser reads whatever derives. -/
theorem reads_of_derives {early : Bool} {ts : Toks} {m : Meaning}
    (h : Derives terms early ts m) : Reads terms early ts m := by
  induction h with
  | @query early ts children h ih =>
    intro rest hEnd
    have hEnd' : endsAnd rest = true := by
      unfold endsOr at hEnd
      split at hEnd <;> first | rfl | cases hEnd
    have hRun := ih rest hEnd'
    cases early with
    | true => exact hRun
    | false =>
      refine hRun _ (.of_step (fun fuel => ?_) (Settles.const _))
      unfold endsOr at hEnd
      split at hEnd <;> first | rfl | cases hEnd
  | @and early ts ops h hNe ih =>
    intro rest hEnd
    have hRun := ih rest
    cases early with
    | true => exact .of_step (fun _ => rfl) (Fails.bind hRun)
    | false =>
      intro r hNext
      exact .of_step (fun _ => rfl) (Settles.bind (hRun _ (settles_end hNe hEnd)) hNext)
  | @or early early' ts ts' children ops i h h' hNe ih ih' =>
    intro rest hEnd
    have hRun := ih ((i, .or) :: (ts' ++ rest)) rfl
    have hRun' := ih' rest
    have hSplit : ts ++ (i, .or) :: ts' ++ rest = ts ++ (i, .or) :: (ts' ++ rest) := by simp
    have hStep : ∀ fuel, parseOrRest terms (fuel + 1) children ((i, .or) :: (ts' ++ rest)) =
        (do
          let out ← parseAnd terms fuel [] [] (ts' ++ rest)
          parseOrRest terms fuel (children ++ [out.1]) out.2) := by
      intro fuel
      rw [parseOrRest, if_pos (h'.startsOperand rest)]
    rw [hSplit]
    cases early with
    | true => exact hRun
    | false =>
      cases early' with
      | true =>
        obtain ⟨e, hE⟩ : Fails fun fuel =>
            parseOrRest terms fuel children ((i, .or) :: (ts' ++ rest)) :=
          .of_step hStep (Fails.bind hRun')
        exact ⟨e, hRun _ hE⟩
      | false =>
        intro r hNext
        exact hRun _ (.of_step hStep (Settles.bind (hRun' _ (settles_end hNe hEnd)) hNext))
  | @first early ts operand h ih =>
    intro rest
    cases early with
    | true => exact @fails_operand _ [] _ _ _ h ih
    | false =>
      intro r hNext
      exact @settles_operand _ [] _ _ _ _ h ih _ (by simpa using hNext)
  | @adjacent early early' ts ts' ops operand h h' ih ih' =>
    intro rest
    have hRun := ih (ts' ++ rest)
    rw [List.append_assoc]
    cases early with
    | true => exact hRun
    | false =>
      cases early' with
      | true =>
        obtain ⟨e, hE⟩ := @fails_operand _ ops _ rest _ h' ih'
        exact ⟨e, hRun _ hE⟩
      | false =>
        intro r hNext
        exact hRun _ (settles_operand h' ih' hNext)
  | @explicit early early' ts ts' ops operand i h h' ih ih' =>
    intro rest
    have hRun := ih ((i, .and) :: (ts' ++ rest))
    have hSplit : ts ++ (i, .and) :: ts' ++ rest = ts ++ (i, .and) :: (ts' ++ rest) := by simp
    rw [hSplit]
    cases early with
    | true => exact hRun
    | false =>
      by_cases hOps : ops = []
      · -- Nothing has been collected: this `AND` is taken for a leading one.
        subst hOps
        have hFails : Fails fun fuel => parseAnd terms fuel [] [] ((i, .and) :: (ts' ++ rest)) :=
          ⟨_, .of_step (fun _ => rfl) (Settles.const _)⟩
        obtain ⟨e, hE⟩ := hFails
        rw [List.isEmpty_nil, Bool.or_true]
        exact ⟨e, hRun _ hE⟩
      · have hEmpty : ops.isEmpty = false := by simpa using hOps
        have hStep : ∀ fuel, parseAnd terms (fuel + 1) (musts ops) (mustNots ops)
            ((i, .and) :: (ts' ++ rest)) =
            parseAnd terms fuel (musts ops) (mustNots ops) (ts' ++ rest) := by
          intro fuel
          rw [parseAnd, if_neg]
          rw [ops_eq_nil_iff, h'.startsOperand rest]
          simp [hOps]
        rw [hEmpty, Bool.or_false]
        cases early' with
        | true =>
          obtain ⟨e, hE⟩ := @fails_operand _ ops _ rest _ h' ih'
          exact ⟨e, hRun _ (hE.of_step hStep)⟩
        | false =>
          intro r hNext
          exact hRun _ (.of_step hStep (settles_operand h' ih' hNext))
  | @plain early ts node h ih =>
    intro rest
    have hRun := ih rest
    cases early with
    | true => exact .of_step (fun fuel => parseUnary_plain fuel h rest) (Fails.bind hRun)
    | false =>
      exact .of_step (fun fuel => parseUnary_plain fuel h rest)
        (Settles.bind hRun (Settles.const _))
  | @minus early ts node i h ih =>
    intro rest
    have hRun := ih rest
    cases early with
    | true => exact .of_step (fun _ => rfl) (Fails.bind hRun)
    | false => exact .of_step (fun _ => rfl) (Settles.bind hRun (Settles.const _))
  | @paren early ts node i j h ih =>
    intro rest
    have hRun := ih ((j, .rparen) :: rest) rfl
    have hSplit : (i, Tok.lparen) :: (ts ++ [(j, .rparen)]) ++ rest =
        (i, .lparen) :: (ts ++ (j, .rparen) :: rest) := by simp
    rw [hSplit]
    cases early with
    | true => exact .of_step (fun _ => rfl) (Fails.bind hRun)
    | false => exact .of_step (fun _ => rfl) (Settles.bind hRun (Settles.const _))
  | word i w =>
    intro rest
    exact .of_step (fun _ => rfl) (Settles.const _)
  | phrase i p =>
    intro rest
    exact .of_step (fun _ => rfl) (Settles.const _)

-- ---------------------------------------------------------------------------
-- The parser and the grammar
-- ---------------------------------------------------------------------------

theorem parseWith_ok_iff {input : String} {node : Node} :
    parseWith terms input = .ok node ↔
      ∃ toks, lex input = .ok toks ∧ toks ≠ [] ∧
        parseOr terms (5 * toks.length + 5) toks = .ok (node, []) := by
  constructor
  · intro h
    obtain ⟨toks, hLex, h⟩ := bind_ok h
    split_ifs at h with hNil
    · cases h
    · refine ⟨toks, hLex, hNil, ?_⟩
      split at h
      · rename_i hOr
        cases h
        exact hOr
      all_goals cases h
  · rintro ⟨toks, hLex, hNe, hOr⟩
    simp [parseWith, hLex, hNe, hOr, bind, Except.bind, pure, Except.pure]

/-- What the parser accepts derives from the grammar, without an early `AND`. -/
theorem derives_of_parse {input : String} {node : Node} (h : parseWith terms input = .ok node) :
    ∃ toks, lex input = .ok toks ∧ Derives terms false toks (.query node) := by
  obtain ⟨toks, hLex, -, hOr⟩ := parseWith_ok_iff.mp h
  obtain ⟨ts, hToks, hTs, -⟩ := (derives_of_fuel _).1 hOr
  rw [List.append_nil] at hToks
  exact ⟨toks, hLex, hToks ▸ hTs⟩

/-- What derives without an early `AND` is accepted, with its tree; what derives with one is
rejected. -/
theorem parseWith_of_derives {input : String} {toks : Toks} {early : Bool} {node : Node}
    (hLex : lex input = .ok toks) (h : Derives terms early toks (.query node)) :
    if early then ∀ node', parseWith terms input ≠ .ok node'
    else parseWith terms input = .ok node := by
  have hRun := reads_of_derives h [] rfl
  obtain ⟨-, hMore⟩ := @parseOr_fuel terms toks
  cases early with
  | true =>
    obtain ⟨e, enough, hEnough⟩ := hRun
    intro node' hOk
    obtain ⟨toks', hLex', -, hOr⟩ := parseWith_ok_iff.mp hOk
    obtain rfl : toks = toks' := by
      rw [hLex] at hLex'
      cases hLex'
      rfl
    have hFuel := hEnough (max enough (5 * toks.length + 5)) (by omega)
    dsimp only at hFuel
    rw [List.append_nil, hMore _ (by omega), hOr] at hFuel
    cases hFuel
  | false =>
    obtain ⟨enough, hEnough⟩ := hRun
    have hFuel := hEnough (max enough (5 * toks.length + 5)) (by omega)
    dsimp only at hFuel
    rw [List.append_nil, hMore _ (by omega)] at hFuel
    exact parseWith_ok_iff.mpr ⟨toks, hLex, List.ne_nil_of_length_pos h.length_pos, hFuel⟩

/-- The parser accepts an input exactly when its tokens derive from the grammar, and then
returns the tree the grammar prescribes. -/
def FollowsGrammar (terms : String → List String) (input : String) : Prop :=
  ∀ node, parseWith terms input = .ok node ↔
    ∃ toks early, lex input = .ok toks ∧ Derives terms early toks (.query node)

/-- The parser follows the grammar on an input exactly when the input is no query with an
`AND` that only operands without terms precede in its conjunction. -/
theorem parse_grammar_iff (terms : String → List String) (input : String) :
    FollowsGrammar terms input ↔
      ¬∃ toks node, lex input = .ok toks ∧ Derives terms true toks (.query node) := by
  constructor
  · rintro h ⟨toks, node, hLex, hEarly⟩
    have hOk := (h node).mpr ⟨toks, true, hLex, hEarly⟩
    exact parseWith_of_derives hLex hEarly node hOk
  · intro hNone node
    constructor
    · intro hOk
      obtain ⟨toks, hLex, hTs⟩ := derives_of_parse hOk
      exact ⟨toks, false, hLex, hTs⟩
    · rintro ⟨toks, early, hLex, hTs⟩
      cases early with
      | true => exact absurd ⟨toks, node, hLex, hTs⟩ hNone
      | false => exact parseWith_of_derives hLex hTs

/-- `!!! AND a`: the operand without terms vanishes and the `AND` is refused. -/
theorem not_follows_grammar_skipped :
    ¬FollowsGrammar (fun w => if w = "a" then ["a"] else []) "!!! AND a" := by
  intro h
  have hLex : lex "!!! AND a" = .ok [(0, .word "!!!"), (4, .and), (8, .word "a")] := by
    decide +kernel
  refine (parse_grammar_iff _ _).mp h ⟨_, .term "a", hLex, ?_⟩
  exact .query (.and (.explicit 4 (.first (.plain (.word 0 "!!!"))) (.plain (.word 8 "a")))
    (by decide))

end Ripindex.Query
