import Ripindex.Store.Writer

/-!
# Reconciling a crawl with the last commit

`store/state.rs`: a file whose `(inode, mtime, size)` is unchanged is skipped; what
metadata cannot decide is decided by reading and hashing the file.
-/

namespace Ripindex

/-- One doc's last-committed state. -/
structure FileState where
  docId : DocId
  inode : UInt64
  mtime : Int64
  size : UInt64
  contentHash : UInt64
  status : DocStatus
  deriving DecidableEq

/-- `path → state` and `inode → path` over everything the index records. -/
structure StateIndex where
  byPath : AList fun _ : String => FileState
  byInode : AList fun _ : UInt64 => String

namespace StateIndex

def empty : StateIndex := ⟨∅, ∅⟩

/-- Record one document. -/
def add (st : StateIndex) (d : DocId × DocMeta) : StateIndex where
  byInode := if d.2.inode ≠ 0 then st.byInode.insert d.2.inode d.2.path else st.byInode
  byPath := st.byPath.insert d.2.path
    { docId := d.1
      inode := d.2.inode
      mtime := d.2.mtime
      size := d.2.size
      contentHash := d.2.contentHash
      status := d.2.status }

def fromDocs (docs : List (DocId × DocMeta)) : StateIndex :=
  docs.foldl add empty

end StateIndex

/-- One unit of work of the incremental writer. -/
inductive Change
  | delete (id : DocId)
  | patch (p : Patch)
  /-- `bytes` when reconcile has read the file already. -/
  | reindex (cf : CrawledFile) (bytes : Option ByteArray)

/-- The plan of a reconcile, with its cost. -/
structure Reconciled where
  changes : List Change
  filesExamined : Nat
  bytesRead : Nat

def Reconciled.isEmpty (r : Reconciled) : Bool := r.changes.isEmpty

/-- The mutable state of `reconcile`'s loop. -/
structure ReconcileState where
  plan : Reconciled
  seen : List String
  consumedOld : List String

namespace ReconcileState

def init : ReconcileState := ⟨⟨[], 0, 0⟩, [], []⟩

def push (st : ReconcileState) (changes : List Change) : ReconcileState :=
  { st with plan := { st.plan with changes := st.plan.changes ++ changes } }

def see (st : ReconcileState) (path : String) : ReconcileState :=
  { st with seen := path :: st.seen }

def consume (st : ReconcileState) (path : String) : ReconcileState :=
  { st with consumedOld := path :: st.consumedOld }

def examine (st : ReconcileState) : ReconcileState :=
  { st with plan := { st.plan with filesExamined := st.plan.filesExamined + 1 } }

def charge (st : ReconcileState) (bytes : ByteArray) : ReconcileState :=
  { st with plan := { st.plan with bytesRead := st.plan.bytesRead + bytes.size } }

end ReconcileState

/-- The patch that makes a recorded doc stand for a crawled file. -/
def patchOf (id : DocId) (cf : CrawledFile) : Change :=
  .patch ⟨id, cf.entry.inode, cf.entry.mtime, cf.entry.size, cf.entry.path⟩

/-- Whether reading the file can confirm the recorded content. -/
def canConfirm (prior : FileState) (cf : CrawledFile) : Bool :=
  cf.kind = .text && prior.status.wasRead

variable [Platform]

/-- A file whose path is recorded. -/
def reconcileKnown (read : ReadFile) (st : ReconcileState) (cf : CrawledFile)
    (prior : FileState) : ReconcileState :=
  let e := cf.entry
  if prior.inode = e.inode ∧ prior.mtime = e.mtime ∧ prior.size = e.size then
    st.see e.path
  else if canConfirm prior cf then
    match read e.path with
    | .ok bytes =>
      let st := st.charge bytes
      if hashBytes bytes = prior.contentHash then
        (st.push [patchOf prior.docId cf]).see e.path
      else
        (st.push [.delete prior.docId, .reindex cf (some bytes)]).see e.path
    | .error _ => (st.push [.delete prior.docId]).see e.path
  else
    (st.push [.delete prior.docId, .reindex cf none]).see e.path

/-- The recorded doc a file at an unrecorded path may have been renamed from. -/
def renameSource (prev : StateIndex) (st : ReconcileState) (cf : CrawledFile) :
    Option (String × FileState) :=
  if cf.entry.inode = 0 then none
  else do
    let oldPath ← prev.byInode.lookup cf.entry.inode
    if oldPath ∈ st.consumedOld then none
    else
      let prior ← prev.byPath.lookup oldPath
      some (oldPath, prior)

/-- A genuinely new file. -/
def reconcileNew (st : ReconcileState) (cf : CrawledFile) : ReconcileState :=
  (st.push [.reindex cf none]).see cf.entry.path

/-- A file at an unrecorded path whose inode is recorded under `oldPath`. -/
def reconcileRenamed (read : ReadFile) (st : ReconcileState) (cf : CrawledFile)
    (oldPath : String) (prior : FileState) : ReconcileState :=
  let e := cf.entry
  if prior.mtime = e.mtime ∧ prior.size = e.size then
    ((st.push [patchOf prior.docId cf]).consume oldPath).see e.path
  else if canConfirm prior cf then
    match read e.path with
    | .ok bytes =>
      let st := (st.charge bytes).consume oldPath
      if hashBytes bytes = prior.contentHash then
        (st.push [patchOf prior.docId cf]).see e.path
      else
        (st.push [.delete prior.docId, .reindex cf (some bytes)]).see e.path
    | .error _ => reconcileNew st cf
  else
    -- Moved and probably changed: tombstone, then record a fresh file.
    reconcileNew ((st.push [.delete prior.docId]).consume oldPath) cf

/-- One turn of `reconcile`'s loop. -/
def reconcileFile (prev : StateIndex) (read : ReadFile) (st : ReconcileState)
    (cf : CrawledFile) : ReconcileState :=
  let st := st.examine
  match prev.byPath.lookup cf.entry.path with
  | some prior => reconcileKnown read st cf prior
  | none =>
    match renameSource prev st cf with
    | some (oldPath, prior) => reconcileRenamed read st cf oldPath prior
    | none => reconcileNew st cf

/-- Recorded paths that were neither seen nor consumed are gone. -/
def reconcileGone (prev : StateIndex) (st : ReconcileState) : ReconcileState :=
  st.push ((prev.byPath.entries.filter fun e =>
    e.1 ∉ st.seen ∧ e.1 ∉ st.consumedOld).map fun e => .delete e.2.docId)

/-- Compare the recorded state against a fresh crawl and plan how to converge. -/
def reconcile (prev : StateIndex) (read : ReadFile) (crawled : List CrawledFile) :
    Reconciled :=
  (reconcileGone prev (crawled.foldl (reconcileFile prev read) .init)).plan

end Ripindex
