import Ripindex.Store.Reader

/-!
# Plans

Every writer of the store first creates files, then commits one manifest. What it does
before the commit is a `Plan`: the file operations in order, and the value or the error
it ends with. A plan computes, `runSteps` executes its operations and collects the names
of the files a failed writer tidies up.
-/

namespace Ripindex

/-- A file operation of a writer before its commit. -/
inductive FileStep
  | create (n : FileName)
  | write (n : FileName) (f : FileData)
  | sync (n : FileName)
  | rename (a b : FileName)

namespace FileStep

/-- The name pushed to `new_files` just before the operation. -/
def newFile : FileStep → Option FileName
  | create n => some n
  | rename _ b => some b
  | write _ _ | sync _ => none

/-- The operation. -/
def issue : FileStep → FsM (Except IoError Unit)
  | create n => Prog.op (FsOp.create n)
  | write n f => Prog.op (FsOp.write n f)
  | sync n => Prog.op (FsOp.sync n)
  | rename a b => Prog.op (FsOp.rename a b)

/-- The directory after the operation. -/
def apply (d : Dir) : FileStep → Dir
  | create n => d.insert n .torn
  | write n f => d.overwrite n f
  | sync _ => d
  | rename a b => d.rename a b

end FileStep

/-- File operations in order, and how they end. -/
structure Plan (α : Type) where
  steps : List FileStep
  result : Except Error α

namespace Plan

variable {α β : Type}

instance : Monad Plan where
  pure a := ⟨[], .ok a⟩
  bind p f :=
    match p.result with
    | .ok a => ⟨p.steps ++ (f a).steps, (f a).result⟩
    | .error e => ⟨p.steps, .error e⟩

/-- Stop with an error. -/
def fail (e : Error) : Plan α := ⟨[], .error e⟩

/-- Only operations. -/
def emit (steps : List FileStep) : Plan Unit := ⟨steps, .ok ()⟩

/-- The outcome of an encoder (`?` on a `FormatError`). -/
def ofFormat (r : Except FormatError α) : Plan α :=
  ⟨[], r.mapError Error.format⟩

/-- `write_whole`: create, write, sync, close. -/
def writeWhole (n : FileName) (f : FileData) : Plan Unit :=
  emit [.create n, .write n f, .sync n]

/-- Write a file under its temporary name and move it into place. -/
def writeFinal (n : FileName) (f : FileData) : Plan Unit := do
  writeWhole (.tmp n) f
  emit [.rename (.tmp n) n]

@[simp] theorem pure_steps (a : α) : (pure a : Plan α).steps = [] := rfl

@[simp] theorem pure_result (a : α) : (pure a : Plan α).result = .ok a := rfl

@[simp] theorem emit_steps (steps : List FileStep) : (emit steps).steps = steps := rfl

@[simp] theorem emit_result (steps : List FileStep) : (emit steps).result = .ok () := rfl

@[simp] theorem ofFormat_steps (r : Except FormatError α) : (ofFormat r).steps = [] := rfl

theorem ofFormat_result_ok {r : Except FormatError α} {a : α} :
    (ofFormat r).result = .ok a ↔ r = .ok a := by
  cases r <;> simp [ofFormat, Except.mapError]

/-- A sequence succeeds exactly when its parts do, and then performs the operations of
both. -/
theorem bind_ok {p : Plan α} {f : α → Plan β} {b : β} :
    (p >>= f).result = .ok b ↔
      ∃ a, p.result = .ok a ∧ (f a).result = .ok b := by
  simp only [bind]
  rcases hp : p.result with e | a <;> simp

theorem bind_steps {p : Plan α} {f : α → Plan β} {a : α} (h : p.result = .ok a) :
    (p >>= f).steps = p.steps ++ (f a).steps := by
  simp only [bind, h]

theorem bind_steps_error {p : Plan α} {f : α → Plan β} {e : Error}
    (h : p.result = .error e) : (p >>= f).steps = p.steps := by
  simp only [bind, h]

@[simp] theorem writeFinal_steps (n : FileName) (f : FileData) :
    (writeFinal n f).steps =
      [.create (.tmp n), .write (.tmp n) f, .sync (.tmp n), .rename (.tmp n) n] := rfl

@[simp] theorem writeFinal_result (n : FileName) (f : FileData) :
    (writeFinal n f).result = .ok () := rfl

end Plan

/-- Execute the operations of a plan until one fails; the names pushed to `new_files`
so far come along. -/
def runSteps (newFiles : List FileName) :
    List FileStep → FsM (List FileName × Except Error Unit)
  | [] => pure (newFiles, .ok ())
  | step :: rest => do
    match ← step.issue with
    | .ok () => runSteps (newFiles ++ step.newFile.toList) rest
    | .error e => pure (newFiles ++ step.newFile.toList, .error (.io e))

end Ripindex
