import Ripindex.Index.DocTable

/-!
# The tokenizer

`tokenizer.rs`: text is cut into UAX #29 words, each word into runs of characters
that are not cut characters, and a run with an alphanumeric character is an *atom*.
Every atom takes one position; on the index side its identifier parts are emitted
at the same position.
-/

namespace Ripindex

/-- The Unicode tables the tokenizer reads: `unicode-segmentation` and the standard
library's character properties. -/
class Unicode where
  /-- `split_word_bound_indices`: the text cut at its UAX #29 word boundaries. -/
  splitWordBounds : String → List (List Char)
  isAlphanumeric : Char → Bool
  isUppercase : Char → Bool
  isNumeric : Char → Bool
  isAlphabetic : Char → Bool
  toLowercase : String → String

open Unicode

/-- A term occurrence; `span` is the byte range of the source atom. -/
structure Token where
  term : String
  position : Position
  span : Nat × Nat

/-- Number of UTF-8 bytes of a run of characters. -/
def utf8Len (cs : List Char) : Nat :=
  (cs.map fun c => c.utf8Size).sum

/-- `char::is_ascii_punctuation`. -/
def isAsciiPunctuation (c : Char) : Bool :=
  (0x21 ≤ c.toNat && c.toNat ≤ 0x2F) || (0x3A ≤ c.toNat && c.toNat ≤ 0x40) ||
    (0x5B ≤ c.toNat && c.toNat ≤ 0x60) || (0x7B ≤ c.toNat && c.toNat ≤ 0x7E)

/-- Characters that split a UAX #29 word into atoms. -/
def isCut (c : Char) : Bool :=
  if c.toNat < 0x80 then
    isAsciiPunctuation c && c != '_'
  else
    [ -- MidLetter
      0x00B7, 0x0387, 0x055F, 0x05F4, 0x2027, 0xFE13, 0xFE55, 0xFF1A,
      -- MidNumLet
      0x2018, 0x2019, 0x2024, 0xFE52, 0xFF07, 0xFF0E,
      -- MidNum
      0x037E, 0x0589, 0x060C, 0x060D, 0x066C, 0x07F8, 0x2044,
      0xFE10, 0xFE14, 0xFE50, 0xFE54, 0xFF0C, 0xFF1B].contains c.toNat

inductive CharClass
  | upper | lower | digit
  /-- Combining marks and format characters: continue whatever run we are in. -/
  | other
  deriving DecidableEq

variable [Unicode]

/-- Unicode-lowercase. -/
def fold (s : List Char) : String :=
  if s.any isUppercase then toLowercase (String.ofList s) else String.ofList s

def charClass (c : Char) : CharClass :=
  if isUppercase c then .upper
  else if isNumeric c then .digit
  else if isAlphabetic c then .lower
  else .other

/-- The loop of `split_camel` after its first character: `prev` is the character
before, `part` the part being read, last character first. -/
def splitCamelFrom (prev : Char) (part : List Char) : List Char → List (List Char)
  | [] => [part.reverse]
  | c :: cs =>
    let afterNonUpper := charClass prev ≠ .upper ∧ charClass prev ≠ .other
    let acronymEnd := charClass prev = .upper ∧ cs.head?.any fun n => charClass n = .lower
    if charClass c = .upper ∧ (afterNonUpper ∨ acronymEnd) then
      part.reverse :: splitCamelFrom c [c] cs
    else
      splitCamelFrom c (c :: part) cs

/-- camelCase split of an underscore-free segment. -/
def splitCamel : List Char → List (List Char)
  | [] => [[]]
  | c :: cs => splitCamelFrom c [c] cs

/-- Split one atom into identifier parts, in their original case; empty when the atom
is a single part identical to itself. -/
def identifierParts (atom : List Char) : List (List Char) :=
  let parts := ((atom.splitOn '_').filter fun s => !s.isEmpty).flatMap splitCamel
  match parts with
  | [part] => if utf8Len part = utf8Len atom then [] else [part]
  | _ => parts

omit [Unicode] in
/-- What is left of a word after its first atom is shorter than the word. -/
theorem length_dropWhile_atom_lt {rest cs : List Char} {c : Char}
    (hRun : rest.dropWhile isCut = c :: cs) :
    ((c :: cs).dropWhile fun x => !isCut x).length < rest.length := by
  have hc : isCut c = false := by
    simpa [hRun] using List.head?_dropWhile_not isCut rest
  have hle : (rest.dropWhile isCut).length ≤ rest.length :=
    (List.dropWhile_suffix isCut).length_le
  have hcs := (List.dropWhile_suffix (l := cs) fun x => !isCut x).length_le
  rw [hRun, List.length_cons] at hle
  simp only [List.dropWhile_cons, hc, Bool.not_false, if_true]
  omega

/-- The atoms of one word that starts at byte `base`, each with its byte offset
(`Tokens::next_atom`, over one word). -/
def atomsOfWord (base : Nat) (rest : List Char) : List (Nat × List Char) :=
  match _hRun : rest.dropWhile isCut with
  | [] => []
  | c :: cs =>
    let start := base + utf8Len (rest.takeWhile isCut)
    let atom := (c :: cs).takeWhile fun x => !isCut x
    let remainder := (c :: cs).dropWhile fun x => !isCut x
    let later := atomsOfWord (start + utf8Len atom) remainder
    if atom.any isAlphanumeric then (start, atom) :: later else later
termination_by rest.length
decreasing_by exact length_dropWhile_atom_lt _hRun

/-- The atoms of the words of a text, the first word starting at byte `base`. -/
def atomsOfWords (base : Nat) : List (List Char) → List (Nat × List Char)
  | [] => []
  | w :: ws => atomsOfWord base w ++ atomsOfWords (base + utf8Len w) ws

/-- The tokens of one atom: the whole atom, then (index side) its identifier parts
whose folded term is new. -/
def atomTokens (splitIdentifiers : Bool) (position : Position) (start : Nat)
    (atom : List Char) : List Token :=
  let span := (start, start + utf8Len atom)
  let whole := fold atom
  let parts := if splitIdentifiers then identifierParts atom else []
  let terms := parts.foldl (fun pending part =>
    let term := fold part
    if term ≠ whole ∧ term ∉ pending then pending ++ [term] else pending) []
  ⟨whole, position, span⟩ :: terms.map fun term => ⟨term, position, span⟩

/-- Positions are handed out in source order, starting at `position`. -/
def tokensFrom (splitIdentifiers : Bool) (position : Position) :
    List (Nat × List Char) → List Token
  | [] => []
  | (start, atom) :: later =>
    atomTokens splitIdentifiers position start atom ++
      tokensFrom splitIdentifiers (position + 1) later

/-- Index-side tokenization: every atom plus its identifier parts. -/
def tokenize (text : String) : List Token :=
  tokensFrom true 0 (atomsOfWords 0 (splitWordBounds text))

/-- Query-side tokenization: whole atoms only. -/
def atoms (text : String) : List Token :=
  tokensFrom false 0 (atomsOfWords 0 (splitWordBounds text))

end Ripindex
