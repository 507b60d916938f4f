import Ripindex.Platform
import Ripindex.Format.Envelope

/-!
# Indexing files

The map step of `index/builder.rs`: one shard of files becomes a private term map and
the outcomes of its documents.
-/

namespace Ripindex

/-- Kinds of I/O error the program distinguishes. -/
inductive IoError
  | notFound | wouldBlock | other
  deriving DecidableEq, Repr

structure BuildConfig where
  /-- Files per shard. -/
  shardSize : Nat
  /-- Flush a segment once it holds this many docs, -/
  docsPerSegment : Nat
  /-- or once its accounted postings heap reaches this many bytes. -/
  segmentBytes : Nat

/-- How file contents are read while documents are indexed. -/
abbrev ReadFile := String → Except IoError ByteArray

/-- Output of the map step for one shard. -/
structure Shard where
  firstDoc : DocId
  terms : TermMap
  /-- `(doc, length in atoms, content hash)` of text that indexed cleanly. -/
  docLens : List (DocId × UInt32 × UInt64)
  /-- Text that failed to read (no hash) or to decode. -/
  skipped : List (DocId × Option UInt64)
  /-- `Binary` and `TooLarge` documents, never read. -/
  nonText : List (DocId × DocStatus)

/-- UTF-8 decode, byte-order mark stripped. -/
def decodeText (bytes : ByteArray) : Option String :=
  (String.fromUTF8? bytes).map fun text =>
    match text.toList with
    | c :: cs => if c.toNat = 0xFEFF then String.ofList cs else text
    | [] => text

variable [Platform]

/-- xxh3-64 of raw bytes. -/
def hashBytes (bytes : ByteArray) : UInt64 := Platform.xxh3 bytes

/-- Record the tokens of one document. -/
def pushTokens (doc : DocId) (terms : TermMap) (tokens : List Token) : TermMap :=
  tokens.foldl (fun terms tok => terms.push tok.term doc tok.position) terms

/-- Length in atoms: one past the last token's position. -/
def atomCount (tokens : List Token) : UInt32 :=
  tokens.foldl (fun _ tok => tok.position + 1) 0

/-- Tokenize one document into `terms`; its length in atoms. -/
def indexDocument (doc : DocId) (text : String) (terms : TermMap) : UInt32 × TermMap :=
  (atomCount (tokenize text), pushTokens doc terms (tokenize text))

/-- One turn of `index_shard`'s loop. -/
def Shard.addFile (read : ReadFile) (shard : Shard) (doc : DocId) (cf : CrawledFile) :
    Shard :=
  match cf.kind with
  | .binary => { shard with nonText := shard.nonText ++ [(doc, .binary)] }
  | .tooLarge => { shard with nonText := shard.nonText ++ [(doc, .tooLarge)] }
  | .text =>
    match read cf.entry.path with
    | .ok bytes =>
      match decodeText bytes with
      | some text =>
        let (len, terms) := indexDocument doc text shard.terms
        { shard with
          terms := terms
          docLens := shard.docLens ++ [(doc, len, hashBytes bytes)] }
      | none => { shard with skipped := shard.skipped ++ [(doc, some (hashBytes bytes))] }
    | .error _ => { shard with skipped := shard.skipped ++ [(doc, none)] }

/-- The loop of `index_shard`: file `i` of the shard is document `firstDoc + i`. -/
def indexFilesFrom (read : ReadFile) (i : Nat) (shard : Shard) :
    List CrawledFile → Shard
  | [] => shard
  | cf :: files =>
    indexFilesFrom read (i + 1) (shard.addFile read (shard.firstDoc + UInt32.ofNat i) cf)
      files

/-- Map step for one shard. Infallible. -/
def indexShard (read : ReadFile) (firstDoc : DocId) (files : List CrawledFile) : Shard :=
  indexFilesFrom read 0 ⟨firstDoc, ∅, [], [], []⟩ files

end Ripindex
