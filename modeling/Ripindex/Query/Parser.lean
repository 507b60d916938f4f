import Ripindex.Query.Exec
import Ripindex.Tokenizer

/-!
# The query parser

`query/parser.rs`. The parser's functions take what is left of the tokens and return what
they leave; each call spends a unit of fuel, and five for every token and five more are
enough, because only a token that is consumed leads from an atom back to a query.

## Results

* `wellFormed_of_parse` — what the parser produces is well formed.
-/

namespace Ripindex.Query

inductive QueryError
  | empty
  | unexpected (found : String) (pos : Nat)
  | unterminatedPhrase (pos : Nat)
  | unbalancedParen (pos : Nat)
  | onlyNegation
  deriving DecidableEq, Repr

inductive Tok
  | word (w : String)
  | phrase (p : String)
  | and
  | or
  | minus
  | lparen
  | rparen
  deriving DecidableEq, Repr

def Tok.describe : Tok → String
  | word w => w
  | phrase p => "\"" ++ p ++ "\""
  | and => "AND"
  | or => "OR"
  | minus => "-"
  | lparen => "("
  | rparen => ")"

-- ---------------------------------------------------------------------------
-- Lexer
-- ---------------------------------------------------------------------------

/-- `char::is_whitespace`. -/
def isWhitespace (c : Char) : Bool :=
  (0x09 ≤ c.toNat && c.toNat ≤ 0x0D) || (0x2000 ≤ c.toNat && c.toNat ≤ 0x200A) ||
    [0x20, 0x85, 0xA0, 0x1680, 0x2028, 0x2029, 0x202F, 0x205F, 0x3000].contains c.toNat

/-- Characters that end a word. -/
def endsWord (c : Char) : Bool :=
  isWhitespace c || c == '(' || c == ')' || c == '"'

/-- The token of a word. -/
def wordTok (w : String) : Tok :=
  if w = "AND" then .and else if w = "OR" then .or else .word w

/-- Tokens with their byte offsets, from byte `i` on. -/
def lexFrom (i : Nat) (cs : List Char) : Except QueryError (List (Nat × Tok)) :=
  match cs with
  | [] => pure []
  | c :: cs =>
    if isWhitespace c then lexFrom (i + c.utf8Size) cs
    else if c = '(' then do pure ((i, .lparen) :: (← lexFrom (i + 1) cs))
    else if c = ')' then do pure ((i, .rparen) :: (← lexFrom (i + 1) cs))
    else if c = '"' then
      let text := cs.takeWhile fun d => d != '"'
      match _hRest : cs.dropWhile fun d => d != '"' with
      | [] => throw (.unterminatedPhrase i)
      | _ :: rest => do
        pure ((i, .phrase (String.ofList text)) :: (← lexFrom (i + 2 + utf8Len text) rest))
    else if c = '-' then
      -- Negation only when something follows directly.
      if cs.head?.any fun d => !isWhitespace d then do
        pure ((i, .minus) :: (← lexFrom (i + 1) cs))
      else lexFrom (i + 1) cs
    else
      let word := c :: cs.takeWhile fun d => !endsWord d
      do pure ((i, wordTok (String.ofList word)) ::
        (← lexFrom (i + utf8Len word) (cs.dropWhile fun d => !endsWord d)))
termination_by cs.length
decreasing_by
  all_goals simp only [List.length_cons]
  all_goals first
    | omega
    | exact Nat.lt_succ_of_le (List.dropWhile_suffix _).length_le
    | (have h := (List.dropWhile_suffix (l := cs) fun d => d != '"').length_le
       rw [_hRest, List.length_cons] at h
       omega)

def lex (src : String) : Except QueryError (List (Nat × Tok)) :=
  lexFrom 0 src.toList

-- ---------------------------------------------------------------------------
-- Parser
-- ---------------------------------------------------------------------------

section Parse

/-- What is left of the tokens. -/
abbrev Toks := List (Nat × Tok)

/-- A result of the parser; the error is `none` where there is too little fuel. -/
abbrev ParseM := Except (Option QueryError)

/-- Whether the next token can begin an operand. -/
def startsOperand : Toks → Bool
  | (_, .word _) :: _ | (_, .phrase _) :: _ | (_, .minus) :: _ | (_, .lparen) :: _ => true
  | _ => false

/-- The end of `parse_or`. -/
def finishOr : List Node → Node
  | [child] => child
  | children => .or children

/-- The end of `parse_and`. -/
def finishAnd (must mustNot : List Node) (toks : Toks) : ParseM (Node × Toks) :=
  if must = [] then
    if mustNot ≠ [] then .error (some .onlyNegation)
    else
      match toks with
      | (i, tok) :: _ => .error (some (.unexpected tok.describe i))
      | [] => .error (some .empty)
  else
    match must, mustNot with
    | [node], [] => .ok (node, toks)
    | _, _ => .ok (.and must mustNot, toks)

-- The terms of a word or quoted phrase; `parse` takes the tokenizer's.
variable (terms : String → List String)

/-- Atoms of a word or quoted phrase. -/
def textToNode (text : String) : Option Node :=
  match terms text with
  | [] => none
  | [t] => some (.term t)
  | ts => some (.phrase ts)

mutual

def parseOr : Nat → Toks → ParseM (Node × Toks)
  | 0, _ => .error none
  | fuel + 1, toks => do
    let (child, rest) ← parseAnd fuel [] [] toks
    parseOrRest fuel [child] rest

/-- The loop of `parse_or`. -/
def parseOrRest : Nat → List Node → Toks → ParseM (Node × Toks)
  | 0, _, _ => .error none
  | fuel + 1, children, toks =>
    match toks with
    | (i, .or) :: rest =>
      if startsOperand rest then do
        let (child, rest') ← parseAnd fuel [] [] rest
        parseOrRest fuel (children ++ [child]) rest'
      else .error (some (.unexpected "OR" i))
    | toks => .ok (finishOr children, toks)

/-- The loop of `parse_and`. -/
def parseAnd : Nat → List Node → List Node → Toks → ParseM (Node × Toks)
  | 0, _, _, _ => .error none
  | fuel + 1, must, mustNot, toks =>
    match toks with
    | [] => finishAnd must mustNot []
    | (i, .or) :: rest => finishAnd must mustNot ((i, .or) :: rest)
    | (i, .rparen) :: rest => finishAnd must mustNot ((i, .rparen) :: rest)
    | (i, .and) :: rest =>
      if (must = [] ∧ mustNot = []) ∨ startsOperand rest = false then
        .error (some (.unexpected "AND" i))
      else parseAnd fuel must mustNot rest
    | toks => do
      let (operand, rest) ← parseUnary fuel toks
      match operand with
      | some (node, true) => parseAnd fuel must (mustNot ++ [node]) rest
      | some (node, false) => parseAnd fuel (must ++ [node]) mustNot rest
      | none => parseAnd fuel must mustNot rest

/-- An operand and whether it is negated; `none` where it has no terms. -/
def parseUnary : Nat → Toks → ParseM (Option (Node × Bool) × Toks)
  | 0, _ => .error none
  | fuel + 1, toks =>
    match toks with
    | (_, .minus) :: rest => do
      let (node, rest') ← parseAtom fuel rest
      pure (node.map (·, true), rest')
    | toks => do
      let (node, rest') ← parseAtom fuel toks
      pure (node.map (·, false), rest')

def parseAtom : Nat → Toks → ParseM (Option Node × Toks)
  | 0, _ => .error none
  | fuel + 1, toks =>
    match toks with
    | [] => .error (some .empty)
    | (i, .lparen) :: rest => do
      let (node, rest') ← parseOr fuel rest
      match rest' with
      | (_, .rparen) :: rest'' => pure (some node, rest'')
      | _ => .error (some (.unbalancedParen i))
    | (_, .word w) :: rest => .ok (textToNode terms w, rest)
    | (_, .phrase p) :: rest => .ok (textToNode terms p, rest)
    | (i, tok) :: _ => .error (some (.unexpected tok.describe i))

end

/-- Parse a query string, given the terms of its words. -/
def parseWith (input : String) : Except QueryError Node := do
  let toks ← lex input
  if toks = [] then throw .empty
  match parseOr terms (5 * toks.length + 5) toks with
  | .ok (node, []) => pure node
  | .ok (_, (i, .rparen) :: _) => throw (.unbalancedParen i)
  | .ok (_, (i, tok) :: _) => throw (.unexpected tok.describe i)
  | .error (some e) => throw e
  -- The fuel is enough.
  | .error none => throw .empty

/-- Parse a query string. -/
def parse [Unicode] (input : String) : Except QueryError Node :=
  parseWith (fun text => (atoms text).map Token.term) input

end Parse

-- ---------------------------------------------------------------------------
-- Well-formed queries
-- ---------------------------------------------------------------------------

mutual

/-- What every query of the parser keeps to: a phrase has two terms or more, `must` is not
empty, and an inner node has two operands or more. -/
def WellFormed : Node → Prop
  | .term _ => True
  | .phrase ts => 2 ≤ ts.length
  | .and must mustNot => must ≠ [] ∧ 2 ≤ must.length + mustNot.length ∧
      WellFormedAll must ∧ WellFormedAll mustNot
  | .or children => 2 ≤ children.length ∧ WellFormedAll children

def WellFormedAll : List Node → Prop
  | [] => True
  | n :: ns => WellFormed n ∧ WellFormedAll ns

end

theorem wellFormedAll_iff {ns : List Node} : WellFormedAll ns ↔ ∀ n ∈ ns, WellFormed n := by
  induction ns with
  | nil => simp [WellFormedAll]
  | cons n ns ih => rw [WellFormedAll, ih, List.forall_mem_cons]

theorem wellFormedAll_snoc {ns : List Node} {n : Node} (hAll : WellFormedAll ns)
    (hNode : WellFormed n) : WellFormedAll (ns ++ [n]) := by
  rw [wellFormedAll_iff] at hAll ⊢
  intro m hm
  rcases List.mem_append.mp hm with hMem | hMem
  · exact hAll m hMem
  · rwa [List.mem_singleton.mp hMem]

theorem wellFormed_finishOr {children : List Node} (hNe : children ≠ [])
    (h : WellFormedAll children) : WellFormed (finishOr children) := by
  match children, hNe with
  | [child], _ => exact h.1
  | _ :: _ :: _, _ => exact ⟨by simp, h⟩

theorem wellFormed_finishAnd {must mustNot : List Node} {toks rest : Toks} {n : Node}
    (hMust : WellFormedAll must) (hMustNot : WellFormedAll mustNot)
    (h : finishAnd must mustNot toks = .ok (n, rest)) : WellFormed n := by
  unfold finishAnd at h
  split_ifs at h with hNe hNot
  · split at h <;> cases h
  · split at h
    · cases h
      exact hMust.1
    · rename_i hSingle
      cases h
      refine ⟨hNe, ?_, hMust, hMustNot⟩
      -- One positive operand alone is not an `And`.
      match must, mustNot, hNe, hSingle with
      | [node], [], _, hSingle => exact (hSingle node rfl rfl).elim
      | [_], _ :: _, _, _ =>
        simp only [List.length_cons]
        omega
      | _ :: _ :: _, _, _, _ =>
        simp only [List.length_cons]
        omega

theorem bind_ok {ε α β : Type} {x : Except ε α} {f : α → Except ε β} {b : β}
    (h : x >>= f = .ok b) : ∃ a, x = .ok a ∧ f a = .ok b := by
  cases x with
  | error e => cases h
  | ok a => exact ⟨a, rfl, h⟩

section Parse

variable {terms : String → List String}

theorem wellFormed_textToNode {text : String} {n : Node} (h : textToNode terms text = some n) :
    WellFormed n := by
  unfold textToNode at h
  split at h
  · cases h
  · cases h
    trivial
  · rename_i hNil hOne
    cases h
    show 2 ≤ List.length _
    match hTerms : terms text with
    | [] => exact absurd hTerms hNil
    | [t] => exact absurd hTerms (hOne t)
    | _ :: _ :: _ => simp

/-- Every function of the parser returns well-formed nodes, when it is given such nodes. -/
theorem wellFormed_of_fuel (fuel : Nat) :
    (∀ {toks n rest}, parseOr terms fuel toks = .ok (n, rest) → WellFormed n) ∧
    (∀ {children toks n rest}, children ≠ [] → WellFormedAll children →
      parseOrRest terms fuel children toks = .ok (n, rest) → WellFormed n) ∧
    (∀ {must mustNot toks n rest}, WellFormedAll must → WellFormedAll mustNot →
      parseAnd terms fuel must mustNot toks = .ok (n, rest) → WellFormed n) ∧
    (∀ {toks n b rest}, parseUnary terms fuel toks = .ok (some (n, b), rest) → WellFormed n) ∧
    (∀ {toks n rest}, parseAtom terms fuel toks = .ok (some n, rest) → WellFormed n) := by
  induction fuel with
  | zero =>
    refine ⟨?_, ?_, ?_, ?_, ?_⟩
    all_goals intros
    all_goals simp_all [parseOr, parseOrRest, parseAnd, parseUnary, parseAtom]
  | succ fuel ih =>
    obtain ⟨hOr, hOrRest, hAnd, hUnary, hAtom⟩ := ih
    have hNil : WellFormedAll [] := trivial
    refine ⟨?_, ?_, ?_, ?_, ?_⟩
    · intro toks n rest h
      rw [parseOr] at h
      obtain ⟨⟨child, rest'⟩, hChild, h⟩ := bind_ok h
      have hOne : WellFormedAll [child] := ⟨hAnd hNil hNil hChild, trivial⟩
      exact hOrRest (by simp) hOne h
    · intro children toks n rest hNe hChildren h
      unfold parseOrRest at h
      split at h
      · split_ifs at h
        obtain ⟨⟨child, rest'⟩, hChild, h⟩ := bind_ok h
        exact hOrRest (by simp)
          (wellFormedAll_snoc hChildren (hAnd hNil hNil hChild)) h
      · cases h
        exact wellFormed_finishOr hNe hChildren
    · intro must mustNot toks n rest hMust hMustNot h
      unfold parseAnd at h
      split at h
      · exact wellFormed_finishAnd hMust hMustNot h
      · exact wellFormed_finishAnd hMust hMustNot h
      · exact wellFormed_finishAnd hMust hMustNot h
      · split_ifs at h
        exact hAnd hMust hMustNot h
      · obtain ⟨⟨operand, rest'⟩, hOperand, h⟩ := bind_ok h
        rcases operand with _ | ⟨node, _ | _⟩
        · exact hAnd hMust hMustNot h
        · exact hAnd (wellFormedAll_snoc hMust (hUnary hOperand)) hMustNot h
        · exact hAnd hMust (wellFormedAll_snoc hMustNot (hUnary hOperand)) h
    · intro toks n b rest h
      unfold parseUnary at h
      split at h
      all_goals
        obtain ⟨⟨node, rest'⟩, hNode, h⟩ := bind_ok h
        simp only [pure, Except.pure, Except.ok.injEq, Prod.mk.injEq,
          Option.map_eq_some_iff] at h
        obtain ⟨⟨m, rfl, hm, -⟩, -⟩ := h
        exact hm ▸ hAtom hNode
    · intro toks n rest h
      unfold parseAtom at h
      split at h
      · cases h
      · obtain ⟨⟨node, rest'⟩, hNode, h⟩ := bind_ok h
        dsimp only at h
        split at h
        · cases h
          exact hOr hNode
        · cases h
      · exact wellFormed_textToNode (congrArg Prod.fst (Except.ok.inj h))
      · exact wellFormed_textToNode (congrArg Prod.fst (Except.ok.inj h))
      · cases h

/-- What the parser produces is well formed. -/
theorem wellFormed_of_parseWith {input : String} {n : Node}
    (h : parseWith terms input = .ok n) : WellFormed n := by
  unfold parseWith at h
  obtain ⟨toks, -, h⟩ := bind_ok h
  split_ifs at h
  · cases h
  · split at h
    · rename_i hOr
      cases h
      exact (wellFormed_of_fuel _).1 hOr
    all_goals cases h

theorem wellFormed_of_parse [Unicode] {input : String} {n : Node} (h : parse input = .ok n) :
    WellFormed n :=
  wellFormed_of_parseWith h

end Parse

end Ripindex.Query
