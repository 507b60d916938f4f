import Ripindex.Index.Builder
import Ripindex.Lib.Prog
import Ripindex.Store.Names

/-!
# The file system

`fs.rs`: the operations of the `Fs` trait as the alphabet of the store's programs, and
the machine that executes them for one of several processes. The machine keeps the
entries of the index directory, the holder of `LOCK` and the supply of staging tags
(`pid ^ now`, taken to be different at every use). `LOCK` itself holds diagnostics only
and is left out of the directory.

An operation can be made to fail by a fault; a failed write or sync leaves its file torn.
-/

namespace Ripindex

/-- The entries of the index directory and its staging directory. -/
abbrev Dir := AList fun _ : FileName => FileData

/-- Operations of the file system, one constructor a trait method. -/
inductive FsOp
  | createDirAll
  | create (n : FileName)
  | write (n : FileName) (f : FileData)
  | sync (n : FileName)
  | rename (a b : FileName)
  | remove (n : FileName)
  | read (n : FileName)
  | mmap (n : FileName)
  | listDir
  | syncDir
  | lock
  | unlock
  | stagingTag

/-- What an operation returns. -/
@[reducible] def FsOp.Res : FsOp → Type
  | read _ | mmap _ => Except IoError FileData
  | listDir => Except IoError (List FileName)
  | unlock => Unit
  | stagingTag => StagingTag
  | createDirAll | create _ | write _ _ | sync _ | rename _ _ | remove _ | syncDir | lock =>
    Except IoError Unit

/-- A process. -/
abbrev Pid := Nat

structure FsState where
  dir : Dir
  lock : Option Pid
  tags : Nat

namespace Dir

/-- Contents of a file, or `NotFound`. -/
def readFile (d : Dir) (n : FileName) : Except IoError FileData :=
  match d.lookup n with
  | some f => .ok f
  | none => .error .notFound

/-- Replace the contents of an existing file. -/
def overwrite (d : Dir) (n : FileName) (f : FileData) : Dir :=
  if n ∈ d then d.insert n f else d

/-- Move `a` onto `b`, replacing it. -/
def rename (d : Dir) (a b : FileName) : Dir :=
  match d.lookup a with
  | some f => (d.erase a).insert b f
  | none => d

/-- The names `list_dir` of the index directory returns. -/
def list (d : Dir) : List FileName :=
  d.keys.filter fun n => !n.isStaged

end Dir

namespace FsState

/-- The state after a change of the directory. -/
def withDir (s : FsState) (d : Dir) : FsState := { s with dir := d }

@[simp] theorem withDir_dir (s : FsState) (d : Dir) : (s.withDir d).dir = d := rfl

@[simp] theorem withDir_lock (s : FsState) (d : Dir) : (s.withDir d).lock = s.lock := rfl

@[simp] theorem withDir_tags (s : FsState) (d : Dir) : (s.withDir d).tags = s.tags := rfl

/-- The lock of a process is released, by the process or by its death. -/
def release (s : FsState) (pid : Pid) : FsState :=
  if s.lock = some pid then { s with lock := none } else s

theorem release_dir (s : FsState) (pid : Pid) : (s.release pid).dir = s.dir := by
  unfold release
  split <;> rfl

end FsState

/-- Execute one operation for process `pid`; `fault` makes it fail. -/
def FsOp.exec (pid : Pid) (fault : Bool) : (op : FsOp) → FsState → op.Res × FsState
  | .createDirAll, s => (if fault then .error .other else .ok (), s)
  | .create n, s =>
    if fault then (.error .other, s) else (.ok (), s.withDir (s.dir.insert n .torn))
  | .write n f, s =>
    if fault then (.error .other, s.withDir (s.dir.overwrite n .torn))
    else (.ok (), s.withDir (s.dir.overwrite n f))
  | .sync n, s =>
    if fault then (.error .other, s.withDir (s.dir.overwrite n .torn)) else (.ok (), s)
  | .rename a b, s =>
    if fault then (.error .other, s)
    else if a ∈ s.dir then (.ok (), s.withDir (s.dir.rename a b))
    else (.error .notFound, s)
  | .remove n, s =>
    if fault then (.error .other, s)
    else if n ∈ s.dir then (.ok (), s.withDir (s.dir.erase n))
    else (.error .notFound, s)
  | .read n, s | .mmap n, s => (if fault then .error .other else s.dir.readFile n, s)
  | .listDir, s => (if fault then .error .other else .ok s.dir.list, s)
  | .syncDir, s => (if fault then .error .other else .ok (), s)
  | .lock, s =>
    if fault then (.error .other, s)
    else if s.lock = none then (.ok (), { s with lock := some pid })
    else (.error .wouldBlock, s)
  | .unlock, s => ((), s.release pid)
  | .stagingTag, s => (⟨pid, s.tags⟩, { s with tags := s.tags + 1 })

-- ---------------------------------------------------------------------------
-- Programs
-- ---------------------------------------------------------------------------

/-- Why a file is rejected. -/
inductive Reason
  | io (e : IoError)
  | format (e : FormatError)
  | length (actual expected : Nat)
  | text (s : String)
  deriving DecidableEq, Repr

/-- Fatal errors (`error.rs`); a `Corrupt` without a file is about the directory. -/
inductive Error
  | notADirectory
  | io (e : IoError)
  | format (e : FormatError)
  | corrupt (file : Option FileName) (reason : Reason)
  | incompatible (version : UInt32)
  | noIndex
  | locked
  | vanished (file : FileName)
  /-- The thread panics. -/
  | panicked
  deriving DecidableEq, Repr

/-- Programs over the file system. -/
abbrev FsM := Prog FsOp FsOp.Res

/-- Programs over the file system that may fail (`Result`). -/
abbrev FsE := ExceptT Error FsM

namespace FsE

/-- Run a program that cannot fail. -/
def ofM {α : Type} (p : FsM α) : FsE α := ExceptT.lift p

/-- Issue an operation and turn its error into a fatal one (`?`). -/
def call {α : Type} (p : FsM (Except IoError α)) : FsE α :=
  ExceptT.mk do
    match ← p with
    | .ok a => pure (.ok a)
    | .error e => pure (.error (.io e))

/-- Run a program that may fail and look at its outcome. -/
def attempt {α : Type} (p : FsE α) : FsE (Except Error α) := ExceptT.lift p.run

/-- Raise an outcome. -/
def ofExcept {α : Type} (r : Except Error α) : FsE α := ExceptT.mk (pure r)

end FsE

-- ---------------------------------------------------------------------------
-- Reading programs
-- ---------------------------------------------------------------------------

/-- The operations of a program that only opens files. -/
inductive ReadOp
  | read (n : FileName)
  | mmap (n : FileName)

/-- The file an operation opens. -/
def ReadOp.name : ReadOp → FileName
  | read n | mmap n => n

/-- The operation as one of the file system. -/
def ReadOp.issue : ReadOp → FsM (Except IoError FileData)
  | read n => Prog.op (FsOp.read n)
  | mmap n => Prog.op (FsOp.mmap n)

abbrev ReadM := Prog ReadOp fun _ => Except IoError FileData

/-- Reading programs that may fail. -/
abbrev ReadE := ExceptT Error ReadM

namespace ReadM

variable {α : Type}

/-- What a reading program computes on a directory that does not change. -/
def onDir (p : ReadM α) (d : Dir) : α :=
  p.answer fun op => d.readFile op.name

/-- A reading program as a program over the file system. -/
def toFsM (p : ReadM α) : FsM α :=
  p.lift ReadOp.issue

end ReadM

end Ripindex
