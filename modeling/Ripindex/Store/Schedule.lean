import Ripindex.Store.Opens

/-!
# Runs with a schedule of faults

One process runs alone, and a schedule says which of its operations fail. Attempts to lock,
reads and changes are numbered apart, each in the order in which they are issued; removals
succeed. The trial keeps the names that the process created or renamed to.

## Results

* `run_openIndex_held` — under a lock, opening gives the index on disk or an error;
* `eval_runSteps_scheduled` — a plan is performed up to its first operation that fails;
* `run_commit_scheduled` — what is left of a commit that fails.
-/

namespace Ripindex

/-- Which operations fail: the attempts to lock, the reads and the changes, by number. -/
structure Schedule where
  lock : Nat → Bool
  read : Nat → Bool
  change : Nat → Bool

/-- A file system under observation: the operations of each kind so far, and the names put
in place. -/
structure Trial where
  fs : FsState
  locks : Nat
  reads : Nat
  changes : Nat
  made : List FileName

/-- Whether the next operation fails. -/
def Schedule.fails (F : Schedule) (t : Trial) : FsOp → Bool
  | .lock => F.lock t.locks
  | .read _ | .mmap _ | .listDir => F.read t.reads
  | .createDirAll | .create _ | .write _ _ | .sync _ | .rename _ _ | .syncDir =>
    F.change t.changes
  | .remove _ | .unlock | .stagingTag => false

namespace Trial

/-- Nothing has happened yet. -/
def start (s : FsState) : Trial := ⟨s, 0, 0, 0, []⟩

def counted (t : Trial) : FsOp → Trial
  | .lock => { t with locks := t.locks + 1 }
  | .read _ | .mmap _ | .listDir => { t with reads := t.reads + 1 }
  | .createDirAll | .create _ | .write _ _ | .sync _ | .rename _ _ | .syncDir =>
    { t with changes := t.changes + 1 }
  | .remove _ | .unlock | .stagingTag => t

/-- The name an operation puts in place. -/
def makes (t : Trial) (fault : Bool) : FsOp → List FileName
  | .create n => if fault then [] else [n]
  | .rename a b => if fault = false ∧ a ∈ t.fs.dir then [b] else []
  | _ => []

/-- Execute one operation for process `c`. -/
def exec (F : Schedule) (c : Pid) (o : FsOp) (t : Trial) : o.Res × Trial :=
  let fault := F.fails t o
  let out := o.exec c fault t.fs
  (out.1, { t.counted o with fs := out.2, made := t.made ++ t.makes fault o })

end Trial

variable {α β : Type} {F : Schedule} {c : Pid} {t : Trial}

/-- The run of a program to its end. -/
def Schedule.run (F : Schedule) (c : Pid) (p : FsE α) (t : Trial) : Except Error α × Trial :=
  p.run.eval (Trial.exec F c) t

namespace Schedule

@[simp] theorem run_pure (a : α) : F.run c (pure a : FsE α) t = (.ok a, t) := rfl

@[simp] theorem run_throw (e : Error) : F.run c (throw e : FsE α) t = (.error e, t) := rfl

@[simp] theorem run_ofExcept (r : Except Error α) : F.run c (FsE.ofExcept r) t = (r, t) := rfl

theorem run_bind (p : FsE α) (f : α → FsE β) :
    F.run c (p >>= f) t =
      match F.run c p t with
      | (.ok a, t') => F.run c (f a) t'
      | (.error e, t') => (.error e, t') := by
  unfold run
  rw [ExceptT.run_bind, Prog.eval_bind]
  rcases Prog.eval _ (ExceptT.run p) t with ⟨e | a, t'⟩ <;> rfl

theorem run_bind_ok {p : FsE α} {f : α → FsE β} {a : α} {t' : Trial}
    (h : F.run c p t = (.ok a, t')) : F.run c (p >>= f) t = F.run c (f a) t' := by
  rw [run_bind, h]

theorem run_bind_error {p : FsE α} {f : α → FsE β} {e : Error} {t' : Trial}
    (h : F.run c p t = (.error e, t')) : F.run c (p >>= f) t = (.error e, t') := by
  rw [run_bind, h]

theorem run_ofM (p : FsM α) :
    F.run c (FsE.ofM p) t =
      (.ok (p.eval (Trial.exec F c) t).1, (p.eval (Trial.exec F c) t).2) := by
  unfold run FsE.ofM
  rw [ExceptT.run_lift, map_eq_pure_bind, Prog.eval_bind]
  rfl

theorem run_attempt (p : FsE α) :
    F.run c (FsE.attempt p) t = (.ok (F.run c p t).1, (F.run c p t).2) :=
  run_ofM p.run

end Schedule

-- ---------------------------------------------------------------------------
-- Reading
-- ---------------------------------------------------------------------------

namespace ReadM

variable {q : ReadM (Except Error α)} {X : IoError → Prop} {ns : List FileName}

/-- One read of a program. -/
theorem eval_call (o : ReadOp) (k : Except IoError FileData → ReadM (Except Error α))
    (t : Trial) :
    (toFsM (.call o k)).eval (Trial.exec F c) t =
      (k (if F.read t.reads then .error .other else t.fs.dir.readFile o.name)).toFsM.eval
        (Trial.exec F c) { t with reads := t.reads + 1 } := by
  show ((o.issue >>= fun r => (k r).lift ReadOp.issue) : FsM _).eval _ t = _
  rw [Prog.eval_bind]
  have hMade : t.made ++ [] = t.made := List.append_nil _
  cases o with
  | read n =>
    show ((k _).toFsM).eval _ _ = _
    simp only [ReadOp.issue, Prog.eval_op, Trial.exec, Schedule.fails, FsOp.exec, Trial.counted,
      Trial.makes, hMade, ReadOp.name]
    rfl
  | mmap n =>
    show ((k _).toFsM).eval _ _ = _
    simp only [ReadOp.issue, Prog.eval_op, Trial.exec, Schedule.fails, FsOp.exec, Trial.counted,
      Trial.makes, hMade, ReadOp.name]
    rfl

/-- A reading program changes nothing, and gives what the directory holds or an error. -/
theorem Opens.eval (h : q.Opens X t.fs.dir.Answers ns) (hX : X .other) :
    ∃ k r, q.toFsM.eval (Trial.exec F c) t = (r, { t with reads := t.reads + k }) ∧
      (r = q.onDir t.fs.dir ∨ ∃ e, r = .error e) := by
  induction q generalizing ns t with
  | ret r => exact ⟨0, r, rfl, .inl rfl⟩
  | call o k ih =>
    obtain ⟨rest, rfl, hStops, hNext⟩ := h
    obtain ⟨e, hFault, -⟩ := hStops _ hX
    rw [eval_call]
    by_cases hRead : F.read t.reads = true
    · rw [if_pos hRead, hFault]
      exact ⟨1, .error e, rfl, .inr ⟨e, rfl⟩⟩
    · rw [if_neg hRead]
      obtain ⟨j, r, hEval, hRes⟩ := ih (t.fs.dir.readFile o.name)
        (t := { t with reads := t.reads + 1 }) (hNext _ rfl)
      exact ⟨1 + j, r, by rw [hEval, Nat.add_assoc], hRes⟩

/-- It gives what the directory holds if no read fails. -/
theorem Opens.eval_of_clear (h : q.Opens X t.fs.dir.Answers ns) {a : α}
    (hRes : q.onDir t.fs.dir = .ok a) (hClear : ∀ i < ns.length, F.read (t.reads + i) = false) :
    q.toFsM.eval (Trial.exec F c) t = (.ok a, { t with reads := t.reads + ns.length }) := by
  induction q generalizing ns t with
  | ret r =>
    obtain rfl : r = .ok a := hRes
    obtain rfl : ns = [] := h
    rfl
  | call o k ih =>
    obtain ⟨rest, rfl, -, hNext⟩ := h
    rw [List.length_cons] at hClear ⊢
    have hHead : F.read t.reads = false := hClear 0 (by omega)
    rw [eval_call, if_neg (by rw [hHead]; decide)]
    rw [ih (t.fs.dir.readFile o.name) (t := { t with reads := t.reads + 1 }) (hNext _ rfl) hRes
      fun i hi => by rw [← hClear (i + 1) (by omega)]; congr 1; simp only; omega]
    congr 2
    simp only
    omega

/-- If a read fails it ends with an error, and not with a vanished file. -/
theorem Opens.eval_of_fault (h : q.Opens X t.fs.dir.Answers ns) (hX : X .other) {a : α}
    (hRes : q.onDir t.fs.dir = .ok a) {i : Nat} (hi : i < ns.length)
    (hFault : F.read (t.reads + i) = true) :
    ∃ e k, q.toFsM.eval (Trial.exec F c) t = (.error e, { t with reads := t.reads + k }) ∧
      ∀ n, e ≠ .vanished n := by
  induction q generalizing ns t i with
  | ret r =>
    obtain rfl : r = .ok a := hRes
    obtain rfl : ns = [] := h
    cases hi
  | call o k ih =>
    obtain ⟨rest, rfl, hStops, hNext⟩ := h
    obtain ⟨e, hStop, hVan⟩ := hStops _ hX
    have hNot : ∀ n, e ≠ .vanished n := fun n hEq => absurd ((hVan n).mp hEq).1 (by decide)
    rw [eval_call]
    by_cases hRead : F.read t.reads = true
    · rw [if_pos hRead, hStop]
      exact ⟨e, 1, rfl, hNot⟩
    · rw [if_neg hRead]
      -- The failing read is a later one.
      obtain _ | i := i
      · exact absurd hFault hRead
      · rw [List.length_cons] at hi
        obtain ⟨e, j, hEval, hNot⟩ := ih (t.fs.dir.readFile o.name)
          (t := { t with reads := t.reads + 1 }) (hNext _ rfl) hRes (i := i) (by omega)
          (by rw [← hFault]; congr 1; simp only; omega)
        exact ⟨e, 1 + j, by rw [hEval, Nat.add_assoc], hNot⟩

end ReadM

-- ---------------------------------------------------------------------------
-- Opening
-- ---------------------------------------------------------------------------

section Open

variable [Platform]

/-- Under a lock an attempt to open sweeps nothing. -/
theorem run_openOnce_held (h : t.fs.lock ≠ none) :
    F.run c openOnce t = F.run c (FsE.ofRead readIndex) { t with locks := t.locks + 1 } := by
  have hProbe : ∃ e, Trial.exec F c .lock t = (.error e, { t with locks := t.locks + 1 }) := by
    have hMade : t.made ++ [] = t.made := List.append_nil _
    by_cases hFault : F.lock t.locks = true
    · exact ⟨.other, by simp [Trial.exec, Schedule.fails, FsOp.exec, Trial.counted, Trial.makes,
        hFault]⟩
    · exact ⟨.wouldBlock, by simp [Trial.exec, Schedule.fails, FsOp.exec, Trial.counted,
        Trial.makes, hFault, h]⟩
  obtain ⟨e, hExec⟩ := hProbe
  unfold openOnce
  rw [Schedule.run_bind, Schedule.run_ofM, Prog.eval_op, hExec]
  generalize ({ t with locks := t.locks + 1 } : Trial) = t'
  show F.run c (FsE.attempt (readAndSweep false) >>= fun r =>
    FsE.ofExcept r >>= _) t' = _
  unfold readIndex readAndSweep
  rw [Schedule.run_bind, Schedule.run_attempt, Schedule.run_bind, FsE.ofRead_bind,
    Schedule.run_bind (FsE.ofRead readManifest)]
  rcases F.run c (FsE.ofRead readManifest) t' with ⟨e | _ | m, t''⟩
  · rfl
  · rfl
  · show F.run c (some <$> FsE.ofRead (loadIndex m)) t'' =
      F.run c (FsE.ofRead (some <$> loadIndex m)) t''
    rw [FsE.ofRead_map]

section Attempt

variable {n : Nat} {last : Option FileName} {t' : Trial}

/-- An attempt under a lock. -/
theorem run_openAttempts_ok {r : Option Index} (h : t.fs.lock ≠ none)
    (hRead : F.run c (FsE.ofRead readIndex) { t with locks := t.locks + 1 } = (.ok r, t')) :
    F.run c (openAttempts last (n + 1)) t = (.ok r, t') := by
  unfold openAttempts
  rw [Schedule.run_bind, Schedule.run_attempt, run_openOnce_held h, hRead]
  rfl

/-- One that misses a file is followed by the next. -/
theorem run_openAttempts_vanished {p : FileName} (h : t.fs.lock ≠ none)
    (hRead : F.run c (FsE.ofRead readIndex) { t with locks := t.locks + 1 } =
      (.error (.vanished p), t')) :
    F.run c (openAttempts last (n + 1)) t = F.run c (openAttempts (some p) n) t' := by
  conv_lhs => unfold openAttempts
  rw [Schedule.run_bind, Schedule.run_attempt, run_openOnce_held h, hRead]

theorem run_openAttempts_error {e : Error} (h : t.fs.lock ≠ none) (hNot : ∀ p, e ≠ .vanished p)
    (hRead : F.run c (FsE.ofRead readIndex) { t with locks := t.locks + 1 } = (.error e, t')) :
    F.run c (openAttempts last (n + 1)) t = (.error e, t') := by
  unfold openAttempts
  rw [Schedule.run_bind, Schedule.run_attempt, run_openOnce_held h, hRead]
  cases e with
  | vanished p => exact absurd rfl (hNot p)
  | _ => rfl

end Attempt

/-- Under a lock opening changes nothing, and gives the index on disk or an error. -/
theorem run_openAttempts_held (n : Nat) (last : Option FileName) (h : t.fs.lock ≠ none) :
    ∃ i j r, F.run c (openAttempts last n) t =
        (r, { t with locks := t.locks + i, reads := t.reads + j }) ∧
      (r = t.fs.dir.openIndex ∨ ∃ e, r = .error e) := by
  induction n generalizing last t with
  | zero => exact ⟨0, 0, _, rfl, .inr ⟨_, rfl⟩⟩
  | succ n ih =>
    obtain ⟨ns, hOpens, -⟩ := opens_readIndex t.fs.dir
    obtain ⟨j, r, hEval, hRes⟩ :=
      ReadM.Opens.eval (F := F) (c := c) (t := { t with locks := t.locks + 1 }) hOpens (by decide)
    have hRun : F.run c (FsE.ofRead readIndex) { t with locks := t.locks + 1 } =
        (r, { t with locks := t.locks + 1, reads := t.reads + j }) := hEval
    rcases r with e | I
    · by_cases hVan : ∃ p, e = .vanished p
      · obtain ⟨p, rfl⟩ := hVan
        obtain ⟨i, k, r, hRest, hRes⟩ :=
          ih (t := { t with locks := t.locks + 1, reads := t.reads + j }) (some p) h
        refine ⟨1 + i, j + k, r, (run_openAttempts_vanished h hRun).trans ?_, hRes⟩
        rw [← Nat.add_assoc, ← Nat.add_assoc]
        exact hRest
      · rw [not_exists] at hVan
        exact ⟨1, j, .error e, run_openAttempts_error h hVan hRun, .inr ⟨e, rfl⟩⟩
    · exact ⟨1, j, .ok I, run_openAttempts_ok h hRun, hRes⟩

/-- Under a lock opening gives an index exactly if it is on disk and no read of its files
fails. -/
theorem run_openIndex_held (h : t.fs.lock ≠ none) :
    ∃ i j r, F.run c openIndex t =
        (r, { t with locks := t.locks + i, reads := t.reads + j }) ∧
      ∀ I, r = .ok (some I) ↔ t.fs.dir.openIndex = .ok (some I) ∧
        ∀ i ≤ (referencedFiles I.manifest).length, F.read (t.reads + i) = false := by
  obtain ⟨i, j, r, hRun, hRes⟩ :=
    run_openAttempts_held (F := F) (c := c) maxAttempts none h
  refine ⟨i, j, r, hRun, fun I => ?_⟩
  by_cases hOpen : t.fs.dir.openIndex = .ok (some I)
  · obtain ⟨ns, hOpens, hNames⟩ := opens_readIndex t.fs.dir
    obtain rfl := hNames I hOpen
    -- The first attempt decides.
    by_cases hClear : ∀ i ≤ (referencedFiles I.manifest).length, F.read (t.reads + i) = false
    · have hEval := ReadM.Opens.eval_of_clear (F := F) (c := c)
        (t := { t with locks := t.locks + 1 }) hOpens hOpen
        fun i hi => hClear i (Nat.lt_succ_iff.mp hi)
      have hRead : F.run c (FsE.ofRead readIndex) { t with locks := t.locks + 1 } = _ := hEval
      have hFirst := hRun.symm.trans (run_openAttempts_ok h hRead)
      exact iff_of_true (Prod.mk.inj hFirst).1 ⟨hOpen, hClear⟩
    · obtain ⟨k, hk, hFault⟩ : ∃ k ≤ (referencedFiles I.manifest).length,
          F.read (t.reads + k) = true := by
        simpa using hClear
      obtain ⟨e, l, hEval, hNot⟩ := ReadM.Opens.eval_of_fault (F := F) (c := c)
        (t := { t with locks := t.locks + 1 }) hOpens (by decide) hOpen (Nat.lt_succ_iff.mpr hk)
          hFault
      have hRead : F.run c (FsE.ofRead readIndex) { t with locks := t.locks + 1 } = _ := hEval
      have hFirst := hRun.symm.trans (run_openAttempts_error h hNot hRead)
      rw [(Prod.mk.inj hFirst).1]
      exact iff_of_false (by rintro ⟨⟩) fun hBoth => hClear hBoth.2
  · refine iff_of_false ?_ fun hBoth => hOpen hBoth.1
    rintro rfl
    rcases hRes with hEq | ⟨e, hEq⟩
    · exact hOpen hEq.symm
    · cases hEq

end Open

-- ---------------------------------------------------------------------------
-- Changes
-- ---------------------------------------------------------------------------

instance (d : Dir) : DecidablePred (FileStep.Ready d)
  | .rename a _ => inferInstanceAs (Decidable (a ∈ d))
  | .create _ | .write _ _ | .sync _ => instDecidableTrue

/-- The file that is torn if the operation fails. -/
def FileStep.tears : FileStep → List FileName
  | .write n _ | .sync n => [n]
  | .create _ | .rename _ _ => []

/-- How many operations of a plan are performed before the first that fails, in the directory
`d` and with number `i` for the next change. -/
def performed (fails : Nat → Bool) (d : Dir) (i : Nat) : List FileStep → Nat
  | [] => 0
  | step :: steps =>
    if fails i = true ∨ ¬ step.Ready d then 0
    else performed fails (step.apply d) (i + 1) steps + 1

/-- The names that operations create or rename to. -/
def newFiles (steps : List FileStep) : List FileName := steps.filterMap FileStep.newFile

theorem performed_le (fails : Nat → Bool) (d : Dir) (i : Nat) (steps : List FileStep) :
    performed fails d i steps ≤ steps.length := by
  induction steps generalizing d i with
  | nil => exact Nat.le_refl 0
  | cons step steps ih =>
    unfold performed
    rw [List.length_cons]
    split
    · omega
    · exact Nat.succ_le_succ (ih _ _)

theorem newFiles_cons (step : FileStep) (steps : List FileStep) :
    newFiles (step :: steps) = step.newFile.toList ++ newFiles steps := by
  unfold newFiles
  cases h : step.newFile <;> simp [h]

/-- An operation that is performed. -/
theorem eval_issue_of_ready {step : FileStep} (hFault : F.change t.changes = false)
    (hReady : step.Ready t.fs.dir) :
    step.issue.eval (Trial.exec F c) t =
      (.ok (), { t with
        fs := t.fs.withDir (step.apply t.fs.dir)
        changes := t.changes + 1
        made := t.made ++ step.newFile.toList }) := by
  cases step with
  | rename a b =>
    have hMem : a ∈ t.fs.dir := hReady
    simp only [FileStep.issue, Prog.eval_op, Trial.exec, Schedule.fails, FsOp.exec, Trial.counted,
      Trial.makes, hFault, hMem, Bool.false_eq_true, if_false, if_true, and_self]
    rfl
  | _ =>
    simp only [FileStep.issue, Prog.eval_op, Trial.exec, Schedule.fails, FsOp.exec, Trial.counted,
      Trial.makes, hFault, Bool.false_eq_true, if_false]
    rfl

/-- An operation that fails may tear its file, and removes none. -/
theorem eval_issue_of_fails (step : FileStep)
    (h : F.change t.changes = true ∨ ¬ step.Ready t.fs.dir) :
    ∃ e d, step.issue.eval (Trial.exec F c) t =
        (.error e, { t with fs := t.fs.withDir d, changes := t.changes + 1 }) ∧
      (∀ n ∉ step.tears, d.lookup n = t.fs.dir.lookup n) ∧ ∀ n ∈ t.fs.dir, n ∈ d := by
  have hMade : t.made ++ [] = t.made := List.append_nil _
  have hTorn : ∀ m : FileName, (∀ n ∉ [m],
        (t.fs.dir.overwrite m .torn).lookup n = t.fs.dir.lookup n) ∧
      ∀ n ∈ t.fs.dir, n ∈ t.fs.dir.overwrite m .torn := by
    intro m
    refine ⟨fun n hn => ?_, fun n hn => ?_⟩
    · rw [Dir.lookup_overwrite, if_neg (by simpa using hn)]
    · obtain ⟨f, hf⟩ := Dir.mem_iff_lookup.mp hn
      rw [Dir.mem_iff_lookup, Dir.lookup_overwrite]
      split
      · rename_i hEq
        exact ⟨.torn, by rw [← hEq, hf]; rfl⟩
      · exact ⟨f, hf⟩
  by_cases hFault : F.change t.changes = true
  · cases step with
    | create n =>
      refine ⟨.other, t.fs.dir, ?_, fun _ _ => rfl, fun _ => id⟩
      simp only [FileStep.issue, Prog.eval_op, Trial.exec, Schedule.fails, FsOp.exec,
        Trial.counted, Trial.makes, hFault, if_true, hMade]
      rfl
    | write n f =>
      refine ⟨.other, t.fs.dir.overwrite n .torn, ?_, hTorn n⟩
      simp only [FileStep.issue, Prog.eval_op, Trial.exec, Schedule.fails, FsOp.exec,
        Trial.counted, Trial.makes, hFault, if_true, hMade]
    | sync n =>
      refine ⟨.other, t.fs.dir.overwrite n .torn, ?_, hTorn n⟩
      simp only [FileStep.issue, Prog.eval_op, Trial.exec, Schedule.fails, FsOp.exec,
        Trial.counted, Trial.makes, hFault, if_true, hMade]
    | rename a b =>
      refine ⟨.other, t.fs.dir, ?_, fun _ _ => rfl, fun _ => id⟩
      simp only [FileStep.issue, Prog.eval_op, Trial.exec, Schedule.fails, FsOp.exec,
        Trial.counted, Trial.makes, hFault, if_true, reduceCtorEq, false_and, if_false, hMade]
      rfl
  · have hNot := h.resolve_left hFault
    cases step with
    | rename a b =>
      have hMem : a ∉ t.fs.dir := hNot
      refine ⟨.notFound, t.fs.dir, ?_, fun _ _ => rfl, fun _ => id⟩
      simp only [FileStep.issue, Prog.eval_op, Trial.exec, Schedule.fails, FsOp.exec,
        Trial.counted, Trial.makes, hFault, hMem, if_false, and_false, hMade]
      rfl
    | _ => exact absurd trivial hNot

/-- A plan that is performed to its end. -/
theorem eval_runSteps_of_performed (acc : List FileName) {steps : List FileStep}
    (h : performed F.change t.fs.dir t.changes steps = steps.length) :
    (runSteps acc steps).eval (Trial.exec F c) t =
      ((acc ++ newFiles steps, .ok ()), { t with
        fs := t.fs.withDir (after t.fs.dir steps)
        changes := t.changes + steps.length
        made := t.made ++ newFiles steps }) := by
  induction steps generalizing acc t with
  | nil =>
    simp only [newFiles, List.filterMap_nil, List.append_nil]
    rfl
  | cons step steps ih =>
    unfold performed at h
    split_ifs at h with hFails
    rw [not_or, not_not, Bool.not_eq_true] at hFails
    rw [runSteps, Prog.eval_bind, eval_issue_of_ready hFails.1 hFails.2]
    show (runSteps (acc ++ step.newFile.toList) steps).eval (Trial.exec F c) _ = _
    rw [ih _ (Nat.succ.inj h), newFiles_cons, List.length_cons]
    simp only [List.append_assoc, FsState.withDir_dir, FsState.withDir_withDir, after,
      List.foldl_cons, Nat.add_assoc, Nat.add_comm 1]

/-- A plan that fails on its way. -/
theorem eval_runSteps_of_fails (acc : List FileName) {steps : List FileStep} {j : Nat}
    (hj : performed F.change t.fs.dir t.changes steps = j) (h : j < steps.length) :
    ∃ e d, (runSteps acc steps).eval (Trial.exec F c) t =
        ((acc ++ newFiles (steps.take (j + 1)), .error e), { t with
          fs := t.fs.withDir d
          changes := t.changes + j + 1
          made := t.made ++ newFiles (steps.take j) }) ∧
      ∀ n, (∀ step ∈ steps, n ∉ step.tears) →
        d.lookup n = (after t.fs.dir (steps.take j)).lookup n := by
  induction steps generalizing acc t j with
  | nil => cases h
  | cons step steps ih =>
    unfold performed at hj
    split_ifs at hj with hFails
    · subst hj
      obtain ⟨e, d, hIssue, hTorn, -⟩ := eval_issue_of_fails (c := c) step hFails
      refine ⟨.io e, d, ?_, fun n hn => hTorn n (hn step List.mem_cons_self)⟩
      rw [runSteps, Prog.eval_bind, hIssue, List.take_succ_cons, newFiles_cons]
      simp only [newFiles, List.take_zero, List.filterMap_nil, List.append_nil]
      rfl
    · rw [not_or, not_not, Bool.not_eq_true] at hFails
      subst hj
      rw [runSteps, Prog.eval_bind, eval_issue_of_ready hFails.1 hFails.2]
      rw [List.length_cons] at h
      obtain ⟨e, d, hRest, hLookup⟩ := ih (acc ++ step.newFile.toList) (t := { t with
        fs := t.fs.withDir (step.apply t.fs.dir)
        changes := t.changes + 1
        made := t.made ++ step.newFile.toList }) rfl (Nat.lt_of_succ_lt_succ h)
      refine ⟨e, d, ?_, fun n hn => ?_⟩
      · show (runSteps (acc ++ step.newFile.toList) steps).eval (Trial.exec F c) _ = _
        rw [hRest]
        simp only [List.take_succ_cons, newFiles_cons, List.append_assoc, FsState.withDir_dir,
          FsState.withDir_withDir, Nat.add_assoc, Nat.add_comm 1]
      · rw [hLookup n fun s hs => hn s (List.mem_cons_of_mem _ hs), List.take_succ_cons]
        rfl

/-- Removals succeed. -/
theorem eval_removeAll_scheduled (ns : List FileName) (t : Trial) :
    ∃ d, (removeAll ns).eval (Trial.exec F c) t = ((), { t with fs := t.fs.withDir d }) ∧
      ∀ n, d.lookup n = if n ∈ ns then none else t.fs.dir.lookup n := by
  have hEval : ∀ t : Trial, (removeAll ns).eval (Trial.exec F c) t =
      ((), { t with fs := ((removeAll ns).eval (FsOp.exec c false) t.fs).2 }) := by
    induction ns with
    | nil => exact fun _ => rfl
    | cons m ns ih =>
      intro t
      have hExec : Trial.exec F c (.remove m) t =
          ((FsOp.exec c false (.remove m) t.fs).1,
            { t with fs := (FsOp.exec c false (.remove m) t.fs).2 }) := by
        have hMade : t.made ++ [] = t.made := List.append_nil _
        simp only [Trial.exec, Schedule.fails, Trial.counted, Trial.makes, hMade]
      show (removeAll ns).eval (Trial.exec F c) (Trial.exec F c (.remove m) t).2 = _
      rw [hExec, ih]
      rfl
  obtain ⟨d, hAlone, hLookup⟩ := eval_removeAll (c := c) ns t.fs
  exact ⟨d, by rw [hEval, hAlone], hLookup⟩

-- ---------------------------------------------------------------------------
-- Commits
-- ---------------------------------------------------------------------------

namespace Schedule

theorem run_call (p : FsM (Except IoError α)) (t : Trial) :
    F.run c (FsE.call p) t =
      ((p.eval (Trial.exec F c) t).1.mapError .io, (p.eval (Trial.exec F c) t).2) := by
  unfold run FsE.call
  rw [ExceptT.run_mk, Prog.eval_bind]
  rcases p.eval (Trial.exec F c) t with ⟨_ | _, _⟩ <;> rfl

/-- A step that is performed or tears no other file. -/
theorem run_step (step : FileStep) (hReady : step.Ready t.fs.dir) :
    (F.change t.changes = false ∧ F.run c (FsE.call step.issue) t =
      (.ok (), { t with
        fs := t.fs.withDir (step.apply t.fs.dir)
        changes := t.changes + 1
        made := t.made ++ step.newFile.toList })) ∨
    (F.change t.changes = true ∧ ∃ e d, F.run c (FsE.call step.issue) t =
        (.error e, { t with fs := t.fs.withDir d, changes := t.changes + 1 }) ∧
      (∀ n ∉ step.tears, d.lookup n = t.fs.dir.lookup n) ∧ ∀ n ∈ t.fs.dir, n ∈ d) := by
  by_cases hFault : F.change t.changes = true
  · obtain ⟨e, d, hEval, hRest⟩ := eval_issue_of_fails (c := c) step (.inl hFault)
    exact .inr ⟨hFault, .io e, d, by rw [run_call, hEval]; rfl, hRest⟩
  · rw [Bool.not_eq_true] at hFault
    exact .inl ⟨hFault, by rw [run_call, eval_issue_of_ready hFault hReady]; rfl⟩

/-- Filling a file changes no other, whether or not it fails. -/
theorem run_fill {n : FileName} {step : FileStep}
    (hStep : (∃ f, step = .write n f) ∨ step = .sync n) (t : Trial) :
    ∃ r d, F.run c (FsE.call step.issue) t =
        (r, { t with fs := t.fs.withDir d, changes := t.changes + 1 }) ∧
      (∀ m ≠ n, d.lookup m = t.fs.dir.lookup m) ∧ ∀ m ∈ t.fs.dir, m ∈ d := by
  have hOver : ∀ (f : FileData), (∀ m ≠ n,
      (t.fs.dir.overwrite n f).lookup m = t.fs.dir.lookup m) ∧
        ∀ m ∈ t.fs.dir, m ∈ t.fs.dir.overwrite n f := by
    intro f
    refine ⟨fun m hm => by rw [Dir.lookup_overwrite, if_neg hm], fun m hm => ?_⟩
    unfold Dir.overwrite
    split
    · exact (AList.mem_insert _).mpr (.inr hm)
    · exact hm
  have hReady : step.Ready t.fs.dir := by
    rcases hStep with ⟨f, rfl⟩ | rfl <;> trivial
  obtain ⟨-, hRun⟩ | ⟨-, e, d, hRun, hKeep, hMem⟩ := run_step (F := F) (c := c) step hReady
  · rcases hStep with ⟨f, rfl⟩ | rfl
    · exact ⟨.ok (), t.fs.dir.overwrite n f, by rw [hRun]; simp [FileStep.apply, FileStep.newFile],
        hOver f⟩
    · exact ⟨.ok (), t.fs.dir, by rw [hRun]; simp [FileStep.apply, FileStep.newFile],
        fun _ _ => rfl, fun _ => id⟩
  · refine ⟨_, d, hRun, fun m hm => hKeep m ?_, hMem⟩
    rcases hStep with ⟨f, rfl⟩ | rfl <;> simpa [FileStep.tears] using hm

/-- What follows the rename of a commit does not fail. -/
theorem run_retire (retire : List FileName) (t : Trial) :
    ∃ t', F.run c (do
        let _ ← FsE.ofM (Prog.op FsOp.syncDir)
        FsE.ofM (removeAll retire)) t = (.ok (), t') ∧ t'.made = t.made := by
  obtain ⟨d, hEval, -⟩ := eval_removeAll_scheduled (F := F) (c := c) retire
    (Trial.exec F c .syncDir t).2
  have hSync : F.run c (FsE.ofM (Prog.op FsOp.syncDir)) t =
      (.ok (Trial.exec F c .syncDir t).1, (Trial.exec F c .syncDir t).2) := run_ofM _
  refine ⟨{ (Trial.exec F c .syncDir t).2 with
    fs := (Trial.exec F c .syncDir t).2.fs.withDir d }, ?_, List.append_nil _⟩
  rw [run_bind_ok hSync, run_ofM, hEval]

/-- A commit that has created its temporary manifest renames it, or leaves it. -/
theorem run_commit_created (m : Manifest) (retire : List FileName)
    (hTmp : .tmp .manifest ∈ t.fs.dir) :
    ∃ r t', F.run c (do
        FsE.call (FileStep.write (.tmp .manifest) (manifestFile m)).issue
        FsE.call (FileStep.sync (.tmp .manifest)).issue
        FsE.call (FileStep.rename (.tmp .manifest) .manifest).issue
        let _ ← FsE.ofM (Prog.op FsOp.syncDir)
        FsE.ofM (removeAll retire)) t = (r, t') ∧
      ((r = .ok () ∧ .manifest ∈ t'.made) ∨
        ∃ e d k, r = .error e ∧ t' = { t with fs := t.fs.withDir d, changes := k } ∧
          .tmp .manifest ∈ d ∧ ∀ n ≠ .tmp .manifest, d.lookup n = t.fs.dir.lookup n) := by
  obtain ⟨r, d, hWrite, hKeep, hMem⟩ := run_fill (F := F) (c := c) (n := .tmp .manifest)
    (.inl ⟨manifestFile m, rfl⟩) t
  rcases r with e | ⟨⟩
  · exact ⟨_, _, run_bind_error hWrite, .inr ⟨e, d, _, rfl, rfl, hMem _ hTmp, hKeep⟩⟩
  obtain ⟨r, d', hSync, hKeep', hMem'⟩ := run_fill (F := F) (c := c) (n := .tmp .manifest)
    (.inr rfl) { t with fs := t.fs.withDir d, changes := t.changes + 1 }
  have hTmp' : FileName.tmp .manifest ∈ d' := hMem' _ (hMem _ hTmp)
  have hBoth : ∀ n ≠ FileName.tmp .manifest, d'.lookup n = t.fs.dir.lookup n := fun n hn =>
    (hKeep' n hn).trans (hKeep n hn)
  rcases r with e | ⟨⟩
  · exact ⟨_, _, (run_bind_ok hWrite).trans (run_bind_error hSync),
      .inr ⟨e, d', _, rfl, rfl, hTmp', hBoth⟩⟩
  obtain ⟨-, hRename⟩ | ⟨-, e, d'', hRename, hKeep'', hMem''⟩ := run_step (F := F) (c := c)
    (t := { t with fs := t.fs.withDir d', changes := t.changes + 1 + 1 })
    (.rename (.tmp .manifest) .manifest) hTmp'
  · obtain ⟨t', hEnd, hMade⟩ := run_retire (F := F) (c := c) retire _
    refine ⟨.ok (), t', (run_bind_ok hWrite).trans ((run_bind_ok hSync).trans
      ((run_bind_ok hRename).trans hEnd)), .inl ⟨rfl, ?_⟩⟩
    rw [hMade]
    exact List.mem_append_right _ List.mem_cons_self
  · exact ⟨_, _, (run_bind_ok hWrite).trans ((run_bind_ok hSync).trans (run_bind_error hRename)),
      .inr ⟨e, d'', _, rfl, rfl, hMem'' _ hTmp', fun n hn =>
        (hKeep'' n List.not_mem_nil).trans (hBoth n hn)⟩⟩

/-- How a commit ends: well; or before its temporary manifest is created; or behind that, and
before it is renamed. -/
theorem run_commit_scheduled (m : Manifest) (retire : List FileName) (t : Trial) :
    ∃ r t', F.run c (commit m retire) t = (r, t') ∧
      ((r = .ok () ∧ .manifest ∈ t'.made) ∨
        (∃ e d k, r = .error e ∧ t' = { t with fs := t.fs.withDir d, changes := k } ∧
          (F.change t.changes = true ∨ F.change (t.changes + 1) = true) ∧
            ∀ n, d.lookup n = t.fs.dir.lookup n) ∨
        ∃ e d k, r = .error e ∧
          t' = { t with
            fs := t.fs.withDir d, changes := k, made := t.made ++ [.tmp .manifest] } ∧
          F.change t.changes = false ∧ F.change (t.changes + 1) = false ∧
            .tmp .manifest ∈ d ∧ ∀ n ≠ .tmp .manifest, d.lookup n = t.fs.dir.lookup n) := by
  have hMade : t.made ++ [] = t.made := List.append_nil _
  have hCommit : commit m retire = (do
      FsE.call (Prog.op FsOp.syncDir)
      FsE.call (FileStep.create (.tmp .manifest)).issue
      FsE.call (FileStep.write (.tmp .manifest) (manifestFile m)).issue
      FsE.call (FileStep.sync (.tmp .manifest)).issue
      FsE.call (FileStep.rename (.tmp .manifest) .manifest).issue
      let _ ← FsE.ofM (Prog.op FsOp.syncDir)
      FsE.ofM (removeAll retire)) := by
    unfold commit writeWhole
    simp only [bind_assoc]
    rfl
  rw [hCommit]
  by_cases hSync : F.change t.changes = true
  · have hRun : F.run c (FsE.call (Prog.op FsOp.syncDir)) t =
        (.error (.io .other), { t with changes := t.changes + 1 }) := by
      rw [run_call, Prog.eval_op]
      simp only [Trial.exec, fails, FsOp.exec, Trial.counted, Trial.makes, hSync, if_true, hMade]
      rfl
    exact ⟨_, _, run_bind_error hRun, .inr (.inl ⟨_, t.fs.dir, _, rfl, rfl, .inl hSync,
      fun _ => rfl⟩)⟩
  rw [Bool.not_eq_true] at hSync
  have hRun : F.run c (FsE.call (Prog.op FsOp.syncDir)) t =
      (.ok (), { t with changes := t.changes + 1 }) := by
    rw [run_call, Prog.eval_op]
    simp only [Trial.exec, fails, FsOp.exec, Trial.counted, Trial.makes, hSync, hMade]
    rfl
  obtain ⟨hCreate, hStep⟩ | ⟨hCreate, e, d, hStep, hKeep, -⟩ := run_step (F := F) (c := c)
    (t := { t with changes := t.changes + 1 }) (.create (.tmp .manifest)) trivial
  · obtain ⟨r, t', hRest, hEnd⟩ := run_commit_created (F := F) (c := c) m retire
      (t := { t with
        fs := t.fs.withDir (FileStep.apply t.fs.dir (.create (.tmp .manifest)))
        changes := t.changes + 1 + 1
        made := t.made ++ [.tmp .manifest] })
      (Dir.mem_iff_lookup.mpr ⟨_, AList.lookup_insert _⟩)
    refine ⟨r, t', (run_bind_ok hRun).trans ((run_bind_ok hStep).trans hRest), ?_⟩
    rcases hEnd with hDone | ⟨e, d, k, hErr, hState, hTmp, hKeep⟩
    · exact .inl hDone
    · exact .inr (.inr ⟨e, d, k, hErr, hState, hSync, hCreate, hTmp, fun n hn =>
        (hKeep n hn).trans (AList.lookup_insert_ne hn)⟩)
  · exact ⟨_, _, (run_bind_ok hRun).trans (run_bind_error hStep), .inr (.inl ⟨e, d, _, rfl, rfl,
      .inr hCreate, fun n => hKeep n List.not_mem_nil⟩)⟩

/-- The operations of a plan that are performed before the first that fails. -/
def done (F : Schedule) (plan : CommitPlan) (d : Dir) (i : Nat) : List FileStep :=
  plan.steps.take (performed F.change d i plan.steps)

/-- The names pushed to `new_files`: also that of an operation that fails. -/
def pushed (F : Schedule) (plan : CommitPlan) (d : Dir) (i : Nat) : List FileName :=
  newFiles (plan.steps.take (performed F.change d i plan.steps + 1))

/-- All operations of the plan are performed, and neither the directory sync of the commit
nor the creation of its temporary manifest fails. -/
def CreatesTmp (F : Schedule) (plan : CommitPlan) (d : Dir) (i : Nat) : Prop :=
  performed F.change d i plan.steps = plan.steps.length ∧ plan.result.isOk ∧
    F.change (i + plan.steps.length) = false ∧ F.change (i + plan.steps.length + 1) = false

/-- What a writer has done that fails before its commit. -/
structure Stopped (F : Schedule) (plan : CommitPlan) (t t' : Trial) : Prop where
  made : ∀ n, n ∈ t'.made ↔ n ∈ t.made ∨ n ∈ newFiles (F.done plan t.fs.dir t.changes) ∨
    F.CreatesTmp plan t.fs.dir t.changes ∧ n = .tmp .manifest
  kept : ∀ n ≠ .tmp .manifest, (∀ step ∈ plan.steps, n ∉ step.tears) →
    t'.fs.dir.lookup n = (after t.fs.dir (F.done plan t.fs.dir t.changes)).lookup n
  tmp : F.CreatesTmp plan t.fs.dir t.changes → .tmp .manifest ∈ t'.fs.dir

/-- What it leaves, after it removed its new files. -/
structure Abandoned (F : Schedule) (plan : CommitPlan) (t t' : Trial) : Prop where
  made : ∀ n, n ∈ t'.made ↔ n ∈ t.made ∨ n ∈ newFiles (F.done plan t.fs.dir t.changes) ∨
    F.CreatesTmp plan t.fs.dir t.changes ∧ n = .tmp .manifest
  removed : ∀ n ∈ F.pushed plan t.fs.dir t.changes, n ∉ t'.fs.dir
  kept : ∀ n ∉ F.pushed plan t.fs.dir t.changes, n ≠ .tmp .manifest →
    (∀ step ∈ plan.steps, n ∉ step.tears) →
      t'.fs.dir.lookup n = (after t.fs.dir (F.done plan t.fs.dir t.changes)).lookup n
  tmp : F.CreatesTmp plan t.fs.dir t.changes → .tmp .manifest ∉ newFiles plan.steps →
    .tmp .manifest ∈ t'.fs.dir

/-- The end of a writer that fails. -/
theorem run_tidy (names : List FileName) (e : Error) (t : Trial) :
    ∃ d, F.run c (do
        FsE.ofM (removeAll names)
        throw e : FsE Unit) t = (.error e, { t with fs := t.fs.withDir d }) ∧
      (∀ n ∈ names, n ∉ d) ∧ ∀ n ∉ names, d.lookup n = t.fs.dir.lookup n := by
  obtain ⟨d, hEval, hLookup⟩ := eval_removeAll_scheduled (F := F) (c := c) names t
  refine ⟨d, ?_, fun n hn => ?_, fun n hn => ?_⟩
  · have hRun : F.run c (FsE.ofM (removeAll names)) t =
        (.ok (), { t with fs := t.fs.withDir d }) := by
      rw [run_ofM, hEval]
    rw [run_bind_ok hRun, run_throw]
  · rw [← AList.lookup_eq_none, hLookup, if_pos hn]
  · rw [hLookup, if_neg hn]

/-- A writer that stopped removes its new files. -/
theorem Stopped.tidy {plan : CommitPlan} {names : List FileName} {e : Error}
    {t₁ t' : Trial} {r : Except Error Unit} (hStop : F.Stopped plan t t₁)
    (hNames : names = F.pushed plan t.fs.dir t.changes)
    (h : F.run c (do
      FsE.ofM (removeAll names)
      throw e : FsE Unit) t₁ = (r, t')) : (∃ e, r = .error e) ∧ F.Abandoned plan t t' := by
  subst hNames
  obtain ⟨d, hTidy, hGone, hKeep⟩ :=
    run_tidy (F := F) (c := c) (F.pushed plan t.fs.dir t.changes) e t₁
  obtain ⟨rfl, rfl⟩ := Prod.mk.inj (hTidy.symm.trans h)
  refine ⟨⟨e, rfl⟩, hStop.made, hGone, fun n hn hNe hTear =>
    (hKeep n hn).trans (hStop.kept n hNe hTear), ?_⟩
  intro hCreates hNot
  obtain ⟨f, hf⟩ := Dir.mem_iff_lookup.mp (hStop.tmp hCreates)
  refine Dir.mem_iff_lookup.mpr ⟨f, (hKeep _ fun hMem => hNot ?_).trans hf⟩
  exact (List.Sublist.filterMap _ (List.take_sublist _ _)).subset hMem

/-- A writer that fails leaves what its plan has done, without the files it created; one that
succeeds has committed, if it has something to commit. -/
theorem run_writeAndCommit_scheduled {plan : CommitPlan} {r : Except Error Unit} {t' : Trial}
    (h : F.run c (writeAndCommit plan) t = (r, t')) :
    ((∃ e, r = .error e) ∧ F.Abandoned plan t t') ∨
      (r = .ok () ∧ (plan.result = .ok none ∨ .manifest ∈ t'.made)) := by
  obtain ⟨j, hj⟩ : ∃ j, performed F.change t.fs.dir t.changes plan.steps = j := ⟨_, rfl⟩
  unfold writeAndCommit at h
  rw [run_bind, run_ofM] at h
  rcases Nat.lt_or_eq_of_le (hj ▸ performed_le F.change t.fs.dir t.changes plan.steps)
    with hLt | hEq
  · -- An operation of the plan fails.
    obtain ⟨e, d, hSteps, hLookup⟩ := eval_runSteps_of_fails (c := c) [] hj hLt
    rw [hSteps] at h
    have hNot : ¬ F.CreatesTmp plan t.fs.dir t.changes := fun hTmp => by
      have := hTmp.1
      omega
    have hStop : F.Stopped plan t { t with
        fs := t.fs.withDir d
        changes := t.changes + j + 1
        made := t.made ++ newFiles (plan.steps.take j) } := by
      refine ⟨fun n => ?_, fun n _ hTear => ?_, fun hTmp => absurd hTmp hNot⟩
      · simp only [done, hj, List.mem_append, hNot, false_and, or_false]
      · rw [done, hj]
        exact hLookup n hTear
    exact .inl (hStop.tidy (by rw [pushed, hj]; rfl) h)
  · -- The plan is performed: it ends in an error, or a commit follows.
    subst hEq
    rw [eval_runSteps_of_performed (c := c) [] hj] at h
    have hDone : F.done plan t.fs.dir t.changes = plan.steps := by rw [done, hj, List.take_length]
    have hPushed : [] ++ newFiles plan.steps = F.pushed plan t.fs.dir t.changes := by
      rw [pushed, hj, List.take_of_length_le (Nat.le_succ _)]
      rfl
    rcases hRes : plan.result with e | _ | ⟨m, retire⟩
    · rw [hRes] at h
      have hNot : ¬ F.CreatesTmp plan t.fs.dir t.changes := fun hTmp => by
        have := hTmp.2.1
        rw [hRes] at this
        cases this
      have hStop : F.Stopped plan t { t with
          fs := t.fs.withDir (after t.fs.dir plan.steps)
          changes := t.changes + plan.steps.length
          made := t.made ++ newFiles plan.steps } := by
        refine ⟨fun n => ?_, fun n _ _ => by rw [hDone]; rfl, fun hTmp => absurd hTmp hNot⟩
        simp only [hDone, List.mem_append, hNot, false_and, or_false]
      exact .inl (hStop.tidy hPushed h)
    · rw [hRes] at h
      exact .inr ⟨(Prod.mk.inj h).1.symm, .inl rfl⟩
    · rw [hRes] at h
      obtain ⟨r', t₁, hCommit, hEnd⟩ := run_commit_scheduled (F := F) (c := c) m retire
        { t with
          fs := t.fs.withDir (after t.fs.dir plan.steps)
          changes := t.changes + plan.steps.length
          made := t.made ++ newFiles plan.steps }
      simp only at h
      rw [run_bind, run_attempt, hCommit] at h
      rcases hEnd with ⟨rfl, hDoneTo⟩ | ⟨e, d, k, rfl, rfl, hEarly, hLookup⟩ |
        ⟨e, d, k, rfl, rfl, hSync, hCreate, hMem, hLookup⟩
      · obtain ⟨hOk, rfl⟩ := Prod.mk.inj h
        exact .inr ⟨hOk.symm, .inr hDoneTo⟩
      · have hNot : ¬ F.CreatesTmp plan t.fs.dir t.changes := by
          rintro ⟨-, -, hSync, hCreate⟩
          rcases hEarly with hEarly | hEarly
          · rw [hSync] at hEarly
            cases hEarly
          · rw [hCreate] at hEarly
            cases hEarly
        have hStop : F.Stopped plan t { t with
            fs := t.fs.withDir d, changes := k, made := t.made ++ newFiles plan.steps } := by
          refine ⟨fun n => ?_, fun n _ _ => by rw [hDone]; exact hLookup n,
            fun hTmp => absurd hTmp hNot⟩
          simp only [hDone, List.mem_append, hNot, false_and, or_false]
        exact .inl (hStop.tidy hPushed h)
      · have hTmp : F.CreatesTmp plan t.fs.dir t.changes := ⟨hj, by rw [hRes]; rfl, hSync, hCreate⟩
        have hStop : F.Stopped plan t { t with
            fs := t.fs.withDir d
            changes := k
            made := t.made ++ newFiles plan.steps ++ [.tmp .manifest] } := by
          refine ⟨fun n => ?_, fun n hNe _ => by rw [hDone]; exact hLookup n hNe, fun _ => hMem⟩
          simp only [hDone, List.mem_append, List.mem_singleton, hTmp, true_and, or_assoc]
        exact .inl (hStop.tidy hPushed h)

-- ---------------------------------------------------------------------------
-- Locks
-- ---------------------------------------------------------------------------

variable [Platform]

/-- The lock is taken if it is free and the attempt does not fail. -/
theorem run_takeLock (F : Schedule) (c : Pid) (t : Trial) :
    (t.fs.lock = none ∧ F.lock t.locks = false ∧ ∃ t₁, F.run c takeLock t = (.ok (), t₁) ∧
      t₁.fs = { t.fs with lock := some c } ∧ t₁.reads = t.reads ∧ t₁.changes = t.changes ∧
        t₁.made = t.made) ∨
    (¬ (t.fs.lock = none ∧ F.lock t.locks = false) ∧
      ∃ e k, F.run c takeLock t = (.error e, { t with locks := t.locks + k })) := by
  have hMade : t.made ++ [] = t.made := List.append_nil _
  have hFail : ∀ t : Trial, F.lock t.locks = true →
      Trial.exec F c .lock t = (.error .other, { t with locks := t.locks + 1 }) := by
    intro t hFault
    have hMade : t.made ++ [] = t.made := List.append_nil _
    simp only [Trial.exec, fails, FsOp.exec, Trial.counted, Trial.makes, hFault, if_true, hMade]
  unfold takeLock
  by_cases hFree : t.fs.lock = none
  · by_cases hFault : F.lock t.locks = true
    · refine .inr ⟨fun h => by rw [hFault] at h; exact absurd h.2 (by decide), .io .other, 1, ?_⟩
      rw [takeLockPolls, run_bind, run_ofM, Prog.eval_op, hFail t hFault]
      rfl
    · rw [Bool.not_eq_true] at hFault
      refine .inl ⟨hFree, hFault,
        { t with fs := { t.fs with lock := some c }, locks := t.locks + 1 }, ?_,
        rfl, rfl, rfl, rfl⟩
      rw [takeLockPolls, run_bind, run_ofM, Prog.eval_op]
      simp only [Trial.exec, fails, FsOp.exec, Trial.counted, Trial.makes, hFault, hFree,
        Bool.false_eq_true, if_false, if_true, hMade]
      rfl
  · refine .inr ⟨fun h => hFree h.1, ?_⟩
    clear hMade
    induction Platform.lockPolls + 1 generalizing t with
    | zero => exact ⟨.locked, 0, rfl⟩
    | succ n ih =>
      have hMade : t.made ++ [] = t.made := List.append_nil _
      rw [takeLockPolls, run_bind, run_ofM, Prog.eval_op]
      by_cases hFault : F.lock t.locks = true
      · rw [hFail t hFault]
        exact ⟨.io .other, 1, rfl⟩
      · have hBusy : Trial.exec F c .lock t =
            (.error .wouldBlock, { t with locks := t.locks + 1 }) := by
          rw [Bool.not_eq_true] at hFault
          simp only [Trial.exec, fails, FsOp.exec, Trial.counted, Trial.makes, hFault, hFree,
            Bool.false_eq_true, if_false, hMade]
        rw [hBusy]
        obtain ⟨e, k, hRest⟩ := ih { t with locks := t.locks + 1 } hFree
        exact ⟨e, 1 + k, by rw [← Nat.add_assoc]; exact hRest⟩

/-- What runs under the lock, once it is taken. -/
theorem run_withLock {body : FsE α} {t₁ t₂ : Trial} {r : Except Error α}
    (h : F.run c takeLock t = (.ok (), t₁)) (hBody : F.run c body t₁ = (r, t₂)) :
    F.run c (withLock body) t = (r, { t₂ with fs := t₂.fs.release c }) := by
  have hMade : t₂.made ++ [] = t₂.made := List.append_nil _
  unfold withLock
  rw [run_bind_ok h, run_bind, run_attempt, hBody]
  simp only [run_bind, run_ofM, run_ofExcept, Prog.eval_op, Trial.exec, FsOp.exec,
    Trial.counted, Trial.makes, hMade]

-- ---------------------------------------------------------------------------
-- Sweeps
-- ---------------------------------------------------------------------------

/-- The index on disk is as before, and nothing was put in place. -/
structure Quiet (t t' : Trial) : Prop where
  same : t.fs.dir.SameIndex t'.fs.dir
  made : t'.made = t.made

omit [Platform] in
theorem Quiet.refl (t : Trial) : Quiet t t := ⟨.refl _, rfl⟩

omit [Platform] in
theorem Quiet.trans {t t' t'' : Trial} (h : Quiet t t') (h' : Quiet t' t'') : Quiet t t'' :=
  ⟨h.same.trans h'.same, h'.made.trans h.made⟩

omit [Platform] in
theorem quiet_bind {p : FsE α} {f : α → FsE β} (hp : Quiet t (F.run c p t).2)
    (hf : ∀ a t', F.run c p t = (.ok a, t') → Quiet t' (F.run c (f a) t').2) :
    Quiet t (F.run c (p >>= f) t).2 := by
  rw [run_bind]
  rcases hRun : F.run c p t with ⟨e | a, t'⟩
  · rw [hRun] at hp
    exact hp
  · rw [hRun] at hp
    exact hp.trans (hf a t' hRun)

omit [Platform] in
theorem quiet_ofRead {p : ReadE α} {X : IoError → Prop} {ns : List FileName} (hp : p.Opens X ns)
    (hX : X .other) (t : Trial) : Quiet t (F.run c (FsE.ofRead p) t).2 := by
  obtain ⟨k, r, hEval, -⟩ := ReadM.Opens.eval (F := F) (c := c) (t := t)
    (ReadM.Opens.mono (B := t.fs.dir.Answers) hp fun _ _ _ => trivial) hX
  have hRun : F.run c (FsE.ofRead p) t = _ := hEval
  rw [hRun]
  exact ⟨.refl _, rfl⟩

omit [Platform] in
/-- The sweep removes nothing that the manifest on disk names. -/
theorem quiet_sweep {m : Manifest} (hm : t.fs.dir.lookup .manifest = some (manifestFile m)) :
    Quiet t (F.run c (sweep m) t).2 := by
  have hMade : t.made ++ [] = t.made := List.append_nil _
  have hList : ∃ r, F.run c (FsE.call (Prog.op FsOp.listDir)) t =
      (r, { t with reads := t.reads + 1 }) := by
    rw [run_call, Prog.eval_op]
    simp only [Trial.exec, FsOp.exec, Trial.counted, Trial.makes, hMade]
    exact ⟨_, rfl⟩
  obtain ⟨r, hList⟩ := hList
  refine quiet_bind (by rw [hList]; exact ⟨.refl _, rfl⟩) fun names t' hRun => ?_
  obtain rfl : { t with reads := t.reads + 1 } = t' := (Prod.mk.inj (hList.symm.trans hRun)).2
  obtain ⟨d, hEval, hLookup⟩ := eval_removeAll_scheduled (F := F) (c := c)
    (names.filter fun n => n.isCleanable && n ∉ referencedFiles m) { t with reads := t.reads + 1 }
  rw [run_ofM, hEval]
  refine ⟨⟨?_, fun m' hm' n hn => ?_⟩, rfl⟩
  · rw [FsState.withDir_dir, hLookup, if_neg]
    simp [FileName.isCleanable]
  · -- The manifest on disk is the one the sweep goes by.
    obtain rfl : m' = m := by
      have hEq : some (manifestFile m') = some (manifestFile m) := hm'.symm.trans hm
      simpa [manifestFile] using hEq
    rw [FsState.withDir_dir, hLookup, if_neg]
    simp [hn]

omit [Platform] in
theorem quiet_readAndSweep (cleanupLock : Bool) (t : Trial) :
    Quiet t (F.run c (readAndSweep cleanupLock) t).2 := by
  refine quiet_bind (quiet_ofRead ReadE.opens_readManifest (by decide) t) fun m t' hRun => ?_
  obtain ⟨k, r, hEval, hRes⟩ := ReadM.Opens.eval (F := F) (c := c) (t := t)
    (ReadM.Opens.mono (B := t.fs.dir.Answers) ReadE.opens_readManifest fun _ _ _ => trivial)
      (by decide)
  obtain ⟨rfl, rfl⟩ := Prod.mk.inj (hEval.symm.trans hRun)
  have hRead : readManifest.eval t.fs.dir = .ok m := by
    rcases hRes with hRes | ⟨e, hRes⟩
    · exact hRes.symm
    · cases hRes
  cases m with
  | none => exact .refl _
  | some m =>
    cases cleanupLock with
    | false => exact .refl _
    | true => exact quiet_bind (quiet_sweep (eval_readManifest_some.mp hRead)) fun _ _ _ => .refl _

theorem quiet_openOnce (t : Trial) : Quiet t (F.run c openOnce t).2 := by
  have hLock : ∀ t : Trial, Quiet t (F.run c (FsE.ofM (Prog.op FsOp.lock)) t).2 := by
    intro t
    rw [run_ofM, Prog.eval_op]
    refine ⟨?_, List.append_nil _⟩
    have hDir : (FsOp.exec c (F.lock t.locks) .lock t.fs).2.dir = t.fs.dir := by
      simp only [FsOp.exec]
      split_ifs <;> rfl
    show t.fs.dir.SameIndex (FsOp.exec c (F.lock t.locks) .lock t.fs).2.dir
    rw [hDir]
    exact .refl _
  have hUnlock : ∀ t : Trial, Quiet t (F.run c (FsE.ofM (Prog.op FsOp.unlock)) t).2 := by
    intro t
    rw [run_ofM, Prog.eval_op]
    refine ⟨?_, List.append_nil _⟩
    show t.fs.dir.SameIndex (t.fs.release c).dir
    rw [FsState.release_dir]
    exact .refl _
  have hLoad : ∀ {load : Option { m : Manifest // m.Ok } → FsE (Option Index)} r (t : Trial),
      load none = pure none → (∀ m, load (some m) = some <$> FsE.ofRead (loadIndex m)) →
      Quiet t (F.run c (FsE.ofExcept r >>= load) t).2 := by
    intro load r t hNone hSome
    refine quiet_bind (.refl _) fun m t' _ => ?_
    rcases m with _ | m
    · rw [hNone]
      exact .refl _
    · rw [hSome, ← FsE.ofRead_map, map_eq_pure_bind]
      exact quiet_ofRead (X := fun _ => True)
        ((ReadE.opens_loadIndex m).bind_nil fun _ => ReadE.opens_pure _) trivial t'
  refine quiet_bind (hLock t) fun probe t' _ => ?_
  refine quiet_bind ?_ fun r t'' _ => ?_
  · rw [run_attempt]
    exact quiet_readAndSweep _ t'
  · cases probe with
    | ok => exact quiet_bind (hUnlock t'') fun _ _ _ => hLoad r _ rfl fun _ => rfl
    | error => exact hLoad r t'' rfl fun _ => rfl

/-- Opening only sweeps. -/
theorem quiet_openIndex (t : Trial) : Quiet t (F.run c openIndex t).2 := by
  suffices h : ∀ n last t, Quiet t (F.run c (openAttempts last n) t).2 from h _ _ t
  intro n
  induction n with
  | zero => exact fun _ _ => .refl _
  | succ n ih =>
    intro last t
    refine quiet_bind (by rw [run_attempt]; exact quiet_openOnce t) fun r t' _ => ?_
    rcases r with e | r
    · cases e with
      | vanished p => exact ih _ _
      | _ => exact .refl _
    · exact .refl _

theorem quiet_reopen (t : Trial) : Quiet t (F.run c reopen t).2 := by
  refine quiet_bind (quiet_openIndex t) fun r t' _ => ?_
  cases r <;> exact .refl _

end Schedule

end Ripindex
