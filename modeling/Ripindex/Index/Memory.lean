import Mathlib.Data.List.AList
import Ripindex.Index.DocTable

/-!
# In-memory postings

`index/memory.rs`: `MemPostingList` is the list of its postings, and the term store
a finite map from terms to posting lists.
-/

namespace Ripindex

/-- One document's entry in a posting list. -/
structure Posting where
  doc : DocId
  positions : List Position
  deriving DecidableEq, Repr

abbrev MemPostingList := List Posting

/-- Record `position` for `doc`: the last posting is extended when it is the same
document's, and a repeat of its last position is dropped. -/
def MemPostingList.push : MemPostingList → DocId → Position → MemPostingList
  | [], doc, position => [⟨doc, [position]⟩]
  | [last], doc, position =>
    if last.doc = doc then
      if last.positions.getLast? = some position then [last]
      else [{ last with positions := last.positions ++ [position] }]
    else [last, ⟨doc, [position]⟩]
  | p :: q :: rest, doc, position => p :: push (q :: rest) doc position

/-- `doc_freq`: the length, cast to `u32`. -/
def MemPostingList.docFreq (list : MemPostingList) : UInt32 := UInt32.ofNat list.length

/-- `HashMap<String, MemPostingList>`. -/
abbrev TermMap := AList fun _ : String => MemPostingList

/-- The posting list of a term, empty where the term has none. -/
def TermMap.list (terms : TermMap) (term : String) : MemPostingList :=
  (terms.lookup term).getD []

/-- Record one occurrence of `term`. -/
def TermMap.push (terms : TermMap) (term : String) (doc : DocId) (position : Position) :
    TermMap :=
  terms.insert term ((terms.list term).push doc position)

/-- `MemTermStore::merge_shard`: fold a shard's map in, by plain append. -/
def TermMap.mergeShard (store shard : TermMap) : TermMap :=
  if store.keys = [] then shard
  else shard.entries.foldl (fun acc e => acc.insert e.1 (acc.list e.1 ++ e.2)) store

end Ripindex
