import Mathlib.Data.UInt
import Ripindex.Query.Hits
import Ripindex.Store.Reader

/-!
# Evaluating queries

`query/parser.rs` (the `Node` type) and `query/exec.rs`. A cursor is what is left of its
posting list; `seek` skips the documents before its target. `idf` and the score of a hit are
parameters, and scores are summed exactly.

The loop over a phrase's documents and the alignment inside it run on fuel: the first cursor
moves forward in every turn of either, so the number of its postings is enough.
-/

namespace Ripindex

namespace Segment

/-- `SegmentReader::postings`. -/
def postings (s : Segment) (term : String) : Option DiskPostingList :=
  (s.idx.terms.find? fun e => e.1 == term).map Prod.snd

/-- `SegmentReader::doc_len`: the length of a live indexed document. -/
def docLen (s : Segment) (i : DocId) : Option UInt32 :=
  if s.isDeleted i then none
  else
    match s.docs[i.toNat]? with
    | some m => if m.status = .indexed then some m.len else none
    | none => none

/-- `Segment::total_len`: the lengths of the indexed documents, deleted ones included. -/
def totalLen (s : Segment) : Nat :=
  (s.docs.map fun m => if m.status = .indexed then m.len.toNat else 0).sum

end Segment

namespace Query

/-- A parsed query. -/
inductive Node
  | term (t : String)
  | phrase (ts : List String)
  | and (must mustNot : List Node)
  | or (children : List Node)

/-- BM25 with its floating point left open: `idf` of `N` and `df`, the score of a hit from
`idf`, `tf`, the document's length and `avgdl`, and `avgdl` from the total length and the
number of indexed documents. -/
structure Bm25 (F A M : Type) where
  idf : UInt32 → UInt32 → F
  score : F → UInt32 → UInt32 → A → M
  avgLen : Nat → Nat → A

/-- Global statistics of one evaluation. -/
structure Stats (A : Type) where
  n : UInt32
  avgLen : A
  df : List (String × UInt32)

/-- `stats.df[t]`. -/
def Stats.dfOf {A : Type} (stats : Stats A) (t : String) : UInt32 :=
  ((stats.df.find? fun e => e.1 == t).map Prod.snd).getD 0

-- ---------------------------------------------------------------------------
-- Query terms
-- ---------------------------------------------------------------------------

/-- Push a term that is not there yet. -/
def addTerm (out : List String) (t : String) : List String :=
  if t ∈ out then out else out ++ [t]

mutual

/-- Every distinct term the query names. -/
def queryTerms : Node → List String → List String
  | .term t, out => addTerm out t
  | .phrase ts, out => ts.foldl addTerm out
  | .and must mustNot, out => queryTermsAll mustNot (queryTermsAll must out)
  | .or children, out => queryTermsAll children out

def queryTermsAll : List Node → List String → List String
  | [], out => out
  | n :: ns, out => queryTermsAll ns (queryTerms n out)

end

/-- The posting lists one segment has for the query's terms. -/
abbrev Lists := List (String × DiskPostingList)

def Lists.get (lists : Lists) (t : String) : Option DiskPostingList :=
  (lists.find? fun e => e.1 == t).map Prod.snd

/-- One dictionary lookup a term. -/
def lookupAll (s : Segment) (terms : List String) : Lists :=
  terms.filterMap fun t => (s.postings t).map (t, ·)

-- ---------------------------------------------------------------------------
-- Cursors
-- ---------------------------------------------------------------------------

/-- What a cursor has not passed yet. -/
abbrev Cursor := List Posting

def Cursor.seek (c : Cursor) (target : DocId) : Cursor :=
  c.dropWhile fun p => p.doc < target

/-- The other cursors of a phrase after an attempt to align them with the first. -/
inductive Aligned
  | exhausted
  | aligned (cs : List Cursor)
  | overshot (doc : DocId) (cs : List Cursor)

/-- Seek the cursors to `target` one after the other, until one overshoots or ends. -/
def seekOthers (target : DocId) : List Cursor → Aligned
  | [] => .aligned []
  | c :: cs =>
    match c.seek target with
    | [] => .exhausted
    | p :: rest =>
      if p.doc = target then
        match seekOthers target cs with
        | .aligned cs' => .aligned ((p :: rest) :: cs')
        | .overshot d cs' => .overshot d ((p :: rest) :: cs')
        | .exhausted => .exhausted
      else .overshot p.doc ((p :: rest) :: cs)

/-- Align every cursor with the first; when one overshoots, the first adopts its document
and the alignment starts over. `none` when a cursor ends. -/
def align : Nat → Cursor → List Cursor → Option (Posting × Cursor × List Cursor)
  | 0, _, _ => none
  | _ + 1, [], _ => none
  | fuel + 1, p :: rest, others =>
    match seekOthers p.doc others with
    | .exhausted => none
    | .aligned others' => some (p, rest, others')
    | .overshot d others' => align fuel (Cursor.seek (p :: rest) d) others'

/-- Positions of the current document of a cursor. -/
def Cursor.positions (c : Cursor) : List Position :=
  (c.head?.map Posting.positions).getD []

/-- Whether `terms[k + 1]` occurs at `p + k + 1` for every `k`; `rest` are their positions
from the `k`th on. -/
def followsAt (p : Position) : Nat → List (List Position) → Bool
  | _, [] => true
  | k, ps :: rest =>
    (if p.toNat + k + 1 < 2 ^ 32 then decide (p + UInt32.ofNat (k + 1) ∈ ps) else false) &&
      followsAt p (k + 1) rest

/-- Phrase occurrences in one document. -/
def phraseMatches : List (List Position) → UInt32
  | [] => 0
  | first :: rest => UInt32.ofNat (first.countP fun p => followsAt p 0 rest)

-- ---------------------------------------------------------------------------
-- Nodes
-- ---------------------------------------------------------------------------

section Eval

variable {F A M : Type} (bm25 : Bm25 F A M) (stats : Stats A) (seg : Segment) (lists : Lists)

/-- The walk of a term's cursor. -/
def termLoop (idf : F) : Cursor → List (Hit M)
  | [] => []
  | p :: rest =>
    match seg.docLen p.doc with
    | some len =>
      ⟨p.doc, bm25.score idf (UInt32.ofNat p.positions.length) len stats.avgLen⟩ ::
        termLoop idf rest
    | none => termLoop idf rest

def evalTerm (t : String) : List (Hit M) :=
  match lists.get t with
  | none => []
  | some list => termLoop bm25 stats seg (bm25.idf stats.n (stats.dfOf t)) list.postings

/-- The loop over a phrase's documents. -/
def phraseLoop (idf : F) : Nat → Cursor → List Cursor → List (Hit M)
  | 0, _, _ => []
  | fuel + 1, first, others =>
    match align (first.length + 1) first others with
    | none => []
    | some (p, rest, others') =>
      let later := phraseLoop idf fuel rest others'
      match seg.docLen p.doc with
      | none => later
      | some len =>
        let tf := phraseMatches (p.positions :: others'.map Cursor.positions)
        if 0 < tf then ⟨p.doc, bm25.score idf tf len stats.avgLen⟩ :: later else later

variable [AddCommMonoid F]

def evalPhrase : List String → List (Hit M)
  | [] => []
  | [t] => evalTerm bm25 stats seg lists t
  | t :: ts =>
    match lists.get t, ts.mapM lists.get with
    | some first, some others =>
      let idf := ((t :: ts).map fun t => bm25.idf stats.n (stats.dfOf t)).sum
      phraseLoop bm25 stats seg idf (first.postings.length + 1) first.postings
        (others.map DiskPostingList.postings)
    | _, _ => []

variable [AddCommMonoid M]

mutual

def evalNode : Node → List (Hit M)
  | .term t => evalTerm bm25 stats seg lists t
  | .phrase ts => evalPhrase bm25 stats seg lists ts
  | .and must mustNot =>
    match evalMust must with
    | none => []
    | some acc => evalMustNot mustNot (intersect acc)
  | .or children => union (evalAll children)

/-- The operands of an `And`; `none` as soon as one is empty. -/
def evalMust : List Node → Option (List (List (Hit M)))
  | [] => some []
  | n :: ns =>
    let l := evalNode n
    if l.isEmpty then none else (evalMust ns).map (l :: ·)

/-- Remove what the negated operands match, while something is left. -/
def evalMustNot : List Node → List (Hit M) → List (Hit M)
  | [], result => result
  | n :: ns, result =>
    if result.isEmpty then result else evalMustNot ns (difference result (evalNode n))

def evalAll : List Node → List (List (Hit M))
  | [] => []
  | n :: ns => evalNode n :: evalAll ns

end

end Eval

-- ---------------------------------------------------------------------------
-- Indexes
-- ---------------------------------------------------------------------------

/-- `doc_freq`. -/
def docFreq (list : DiskPostingList) : UInt32 := UInt32.ofNat list.postings.length

/-- `avg_len`'s operands: total length and number of the indexed documents. -/
def lengths (I : Index) : Nat × Nat :=
  ((I.segments.map Segment.totalLen).sum, (I.segments.map fun s => s.numIndexed.toNat).sum)

section Evaluate

variable {F A M : Type} (bm25 : Bm25 F A M)

/-- The statistics `evaluate` computes. -/
def statsOf (I : Index) (terms : List String) : Stats A where
  n := I.indexedCount
  avgLen := bm25.avgLen (lengths I).1 (lengths I).2
  df := terms.map fun t => (t, ((I.segments.map fun s => lookupAll s terms).filterMap
    fun lists => (Lists.get lists t).map docFreq).sum)

variable [AddCommMonoid F] [AddCommMonoid M]

/-- Evaluate `node` over every segment. -/
def evaluate (I : Index) (node : Node) : List (Hit M) :=
  let terms := queryTerms node []
  let stats := statsOf bm25 I terms
  I.segments.flatMap fun s =>
    (evalNode bm25 stats s (lookupAll s terms) node).map fun h =>
      ⟨s.entry.baseDoc + h.doc, h.score⟩

end Evaluate

end Query

end Ripindex
