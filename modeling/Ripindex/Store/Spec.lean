import Ripindex.Store.Sys

/-!
# What the programs of the store do

Specifications of the store's programs under a contract, as assertions about the state
before and after. `Sys.View pid rl D h` is what the holder of the lock knows: the directory is
`D` but for staged files of others, and the committed indexes are `h`.

## Results

* `Sys.View.openIndex` — what the holder of the lock sees opens to the current index;
* `wp_runSteps` — executing the operations of a plan;
* `wp_commit`, `wp_writeAndCommit` — a writer commits one index or none.
-/

namespace Ripindex

variable [Platform]

/-- How processes run: which operations may fail, in which states the lock may be taken, and
what others do between two operations. -/
structure Mode where
  mayFault : FsOp → Sys → Prop
  admits : Pid → Sys → Prop
  rely : Pid → Sys → Sys → Prop
  rely_ok : ∀ pid S S', S.Good → rely pid S S' → Sys.Rely pid S S'

namespace Mode

/-- What an operation of process `pid` may result in. -/
def step (M : Mode) (pid : Pid) (o : FsOp) (S : Sys) (r : o.Res) (S' : Sys) : Prop :=
  ∃ fault : Bool, (fault = true → M.mayFault o S) ∧
    (o = .lock → fault = false → S.fs.lock = none → M.admits pid S) ∧
    S.exec pid fault o = (r, S')

/-- The contract of process `pid`. -/
def contract (M : Mode) (pid : Pid) : Contract FsOp FsOp.Res Sys where
  step := M.step pid
  rely := M.rely pid
  allows := Sys.Allows pid

end Mode

variable {M : Mode} {pid : Pid}

-- ---------------------------------------------------------------------------
-- Programs that may fail
-- ---------------------------------------------------------------------------

/-- Assertions for the two ways a program that may fail can end. -/
def Ends {ε α : Type} (P : α → Sys → Prop) (E : Sys → Prop) : Except ε α → Sys → Prop
  | .ok a, S => P a S
  | .error _, S => E S

namespace FsE

variable {α β σ : Type} {S : σ} {C : Contract FsOp FsOp.Res σ}

omit [Platform] in
theorem wp_bind {p : FsE α} {f : α → FsE β} {P : Except Error α → σ → Prop}
    {Q : Except Error β → σ → Prop} (h : p.run.wp C P S)
    (hOk : ∀ a S, P (.ok a) S → (f a).run.wp C Q S)
    (hError : ∀ e S, P (.error e) S → Q (.error e) S) : (p >>= f).run.wp C Q S := by
  rw [ExceptT.run_bind]
  refine Prog.wp_seq h ?_
  intro r S hr
  cases r with
  | ok a => exact hOk a S hr
  | error e => exact hError e S hr

omit [Platform] in
@[simp] theorem wp_pure {a : α} {Q : Except Error α → σ → Prop} :
    (pure a : FsE α).run.wp C Q S ↔ Q (.ok a) S := Iff.rfl

omit [Platform] in
@[simp] theorem wp_throw {e : Error} {Q : Except Error α → σ → Prop} :
    (throw e : FsE α).run.wp C Q S ↔ Q (.error e) S := Iff.rfl

omit [Platform] in
@[simp] theorem wp_ofExcept {r : Except Error α} {Q : Except Error α → σ → Prop} :
    (ofExcept r).run.wp C Q S ↔ Q r S := Iff.rfl

omit [Platform] in
theorem wp_ofM {p : FsM α} {Q : Except Error α → σ → Prop}
    (h : p.wp C (fun a => Q (.ok a)) S) : (ofM p).run.wp C Q S := by
  change (p >>= fun a => Prog.ret (.ok a)).wp C Q S
  exact Prog.wp_bind h

omit [Platform] in
theorem wp_attempt {p : FsE α} {Q : Except Error (Except Error α) → σ → Prop}
    (h : p.run.wp C (fun r => Q (.ok r)) S) : (attempt p).run.wp C Q S :=
  wp_ofM h

variable {S : Sys} {C : Contract FsOp FsOp.Res Sys}
  {P : α → Sys → Prop} {Q : β → Sys → Prop} {E : Sys → Prop}

omit [Platform] in
/-- A sequence whose parts fail in the same way. -/
theorem wp_seq {p : FsE α} {f : α → FsE β} (h : p.run.wp C (Ends P E) S)
    (hf : ∀ a S, P a S → (f a).run.wp C (Ends Q E) S) : (p >>= f).run.wp C (Ends Q E) S :=
  wp_bind h hf fun _ _ hE => hE

omit [Platform] in
/-- An operation whose error is fatal. -/
theorem wp_call {p : FsM (Except IoError α)} (h : p.wp C (Ends P E) S) :
    (call p).run.wp C (Ends P E) S := by
  refine Prog.wp_seq h ?_
  intro r S hr
  cases r <;> exact hr

omit [Platform] in
/-- An outcome that is looked at. -/
theorem wp_catch {p : FsE α} {Q : Except Error (Except Error α) → Sys → Prop}
    (h : p.run.wp C (Ends P E) S) (hOk : ∀ a S, P a S → Q (.ok (.ok a)) S)
    (hError : ∀ e S, E S → Q (.ok (.error e)) S) : (attempt p).run.wp C Q S := by
  refine wp_attempt (Prog.wp_mono h fun r S hr => ?_)
  cases r with
  | ok a => exact hOk a S hr
  | error e => exact hError e S hr

end FsE

-- ---------------------------------------------------------------------------
-- Under the lock
-- ---------------------------------------------------------------------------

namespace Sys

/-- The process holds the lock, which it has given up before as `rl` says, and `h` is the
history. -/
structure Held (pid : Pid) (rl : List (Option Index)) (h : List Index) (S : Sys) : Prop where
  good : S.Good
  lock : S.fs.lock = some pid
  hist : S.hist = h
  released : S.released pid = rl

/-- What the process knows while it holds the lock. -/
structure View (pid : Pid) (rl : List (Option Index)) (D : Dir) (h : List Index) (S : Sys) :
    Prop extends Held pid rl h S where
  lookup : ∀ n, n.foreign pid = false → S.dir.lookup n = D.lookup n

variable {rl : List (Option Index)} {D : Dir} {h : List Index} {S S' : Sys}

theorem Held.current (hS : Held pid rl h S) : S.current = h.head? := by
  rw [Sys.current, hS.hist]

theorem Held.rely (hS : Held pid rl h S) (hR : M.rely pid S S') :
    Held pid rl h S' ∧ S'.faulted pid = S.faulted pid := by
  have hRely := M.rely_ok pid S S' hS.good hR
  obtain ⟨hLock, hHist, -⟩ := hRely.held hS.lock
  exact ⟨⟨hRely.good, hLock, hHist.trans hS.hist, hRely.released.trans hS.released⟩,
    hRely.faulted⟩

theorem View.rely (hV : View pid rl D h S) (hR : M.rely pid S S') :
    View pid rl D h S' ∧ S'.faulted pid = S.faulted pid := by
  obtain ⟨hHeld, hFault⟩ := hV.toHeld.rely hR
  refine ⟨⟨hHeld, fun n hn => ?_⟩, hFault⟩
  have hRely := M.rely_ok pid S S' hV.good hR
  rw [← hV.lookup n hn]
  by_cases hStaged : n.isStaged = true
  · exact hRely.own n hStaged hn
  · exact (hRely.held hV.lock).2.2 n (by simpa using hStaged)

omit [Platform] in
theorem foreign_of_not_staged {n : FileName} (h : n.isStaged = false) :
    n.foreign pid = false := by
  cases n <;> simp_all [FileName.isStaged, FileName.foreign]

omit [Platform] in
theorem foreign_of_mem_referencedFiles {m : Manifest} {n : FileName}
    (h : n ∈ referencedFiles m) : n.foreign pid = false := by
  apply foreign_of_not_staged
  by_contra hStaged
  exact not_mem_referencedFiles_of_staged (by simpa using hStaged) h

/-- Opening what the holder of the lock sees gives the current index. -/
theorem View.openIndex (hV : View pid rl D h S) : D.openIndex = .ok h.head? := by
  have hCur := hV.current
  cases hHead : h.head? with
  | none =>
    have hNone := hV.good.absent (hCur.trans hHead)
    rw [hV.lookup _ rfl] at hNone
    change readIndex.eval D = _
    unfold readIndex
    rw [ReadE.eval_bind, eval_readManifest, hNone]
    rfl
  | some I =>
    refine openIndex_ok_iff.mpr ((hV.good.backed I (hCur.trans hHead)).of_agree
      (hV.lookup _ rfl).symm fun n hn => (hV.lookup n ?_).symm)
    exact foreign_of_mem_referencedFiles hn

/-- The process may remove the file while `cur` is current. -/
def Removable (pid : Pid) (cur : Option Index) (n : FileName) : Prop :=
  (n.isStaged = true ∧ n.foreign pid = false) ∨
    (n.isStaged = false ∧ n ≠ .manifest ∧ ∀ I ∈ cur, n ∉ referencedFiles I.manifest)

theorem Held.mayRemove (hS : Held pid rl h S) {n : FileName}
    (hn : Removable pid h.head? n) : MayRemove pid S n := by
  rcases hn with hOwn | ⟨hStaged, hNe, hNot⟩
  · exact .inl hOwn
  · exact .inr ⟨hS.lock, hStaged, hNe, hS.current ▸ hNot⟩

theorem Held.mayWrite (hS : Held pid rl h S) {n : FileName}
    (hn : WritableOver h.head? n) : MayWrite pid S n :=
  .inr ⟨hS.lock, hS.current ▸ hn⟩

theorem Held.removable (hS : Held pid rl h S) {n : FileName}
    (hn : WritableOver h.head? n) : Removable pid h.head? n := by
  rcases (hS.mayWrite hn).mayRemove hS.good with hOwn | ⟨-, hStaged, hNe, hNot⟩
  · exact .inl hOwn
  · exact .inr ⟨hStaged, hNe, hS.current ▸ hNot⟩

theorem released_exec {o : FsOp} (h : o ≠ .unlock) {fault : Bool} :
    (S.exec pid fault o).2.released = S.released := by
  change S.releasedAfter pid o = _
  unfold releasedAfter
  split
  · exact absurd rfl h
  · rfl

/-- An allowed operation that neither commits nor unlocks keeps the lock and the history. -/
theorem Held.exec (hS : Held pid rl h S) {o : FsOp} (hAllow : Allows pid o S)
    (hCommit : ¬ IsCommit o) (hUnlock : o ≠ .unlock) (fault : Bool) :
    Held pid rl h (S.exec pid fault o).2 where
  good := hS.good.exec hAllow fault
  lock := by
    change (o.exec pid fault S.fs).2.lock = some pid
    rcases lock_exec pid fault o S.fs with hSame | ⟨-, hNone, -⟩ | ⟨hEq, -⟩
    · rw [hSame, hS.lock]
    · rw [hS.lock] at hNone
      cases hNone
    · exact absurd hEq hUnlock
  hist := (hist_exec_of_not_commit hCommit).trans hS.hist
  released := (congrFun (released_exec hUnlock) pid).trans hS.released

theorem faulted_exec_false (o : FsOp) (S : Sys) :
    (S.exec pid false o).2.faulted pid = S.faulted pid := by
  change S.faultedAfter pid false o pid = _
  cases o <;> rfl

theorem faulted_exec_true {o : FsOp} (ho : o ≠ .lock) (S : Sys) :
    (S.exec pid true o).2.faulted pid = true := by
  change S.faultedAfter pid true o pid = _
  unfold faultedAfter
  split <;> simp_all

/-- An operation that failed stays failed. -/
theorem faulted_exec (o : FsOp) (fault : Bool) (h : S.faulted pid = true) :
    (S.exec pid fault o).2.faulted pid = true := by
  change S.faultedAfter pid fault o pid = _
  unfold faultedAfter
  split
  · exact h
  · split
    · exact h
    · exact Function.update_self _ _ _
  · exact Function.update_self _ _ _

/-- An operation that touches nothing keeps the view. -/
theorem View.exec (hV : View pid rl D h S) {o : FsOp} (hAllow : Allows pid o S)
    (hTouches : touches o = []) (hUnlock : o ≠ .unlock) (fault : Bool) :
    View pid rl D h (S.exec pid fault o).2 where
  toHeld := hV.toHeld.exec hAllow (by rintro rfl; simp [touches] at hTouches) hUnlock fault
  lookup := fun n hn => by
    rw [← hV.lookup n hn]
    exact lookup_exec (by simp [hTouches])

end Sys

section Rules

variable {rl : List (Option Index)} {D : Dir} {h : List Index} {S : Sys} {α : Type}

open Sys

/-- An operation of the holder of the lock: it is allowed, and both outcomes are covered. -/
theorem wp_held {o : FsOp} {k : o.Res → FsM α} {Q : α → Sys → Prop} (Inv : Sys → Prop)
    (hInv : Inv S) (hStable : ∀ S S', Inv S → M.rely pid S S' →
      Inv S' ∧ S'.faulted pid = S.faulted pid)
    (hAllow : ∀ S, Inv S → Sys.Allows pid o S)
    (hNext : ∀ S₁, Inv S₁ → S₁.faulted pid = S.faulted pid → ∀ fault : Bool,
      (k (S₁.exec pid fault o).1).wp (M.contract pid) Q (S₁.exec pid fault o).2) :
    (Prog.call o k).wp (M.contract pid) Q S := by
  intro S₁ hR
  obtain ⟨hInv₁, hFault₁⟩ := hStable S S₁ hInv hR
  refine ⟨hAllow S₁ hInv₁, fun r S₂ hStep => ?_⟩
  obtain ⟨fault, -, -, hExec⟩ := hStep
  have hOut := hNext S₁ hInv₁ hFault₁ fault
  rw [hExec] at hOut
  exact hOut

/-- Removing files keeps the lock and the history. -/
theorem wp_removeAll {ns : List FileName} (hS : Held pid rl h S)
    (hNs : ∀ n ∈ ns, Removable pid h.head? n) :
    (removeAll ns).wp (M.contract pid) (fun _ S' => Held pid rl h S' ∧
      (S.faulted pid = true → S'.faulted pid = true)) S := by
  induction ns generalizing S with
  | nil => exact ⟨hS, id⟩
  | cons n ns ih =>
    obtain ⟨hHead, hTail⟩ := List.forall_mem_cons.mp hNs
    refine wp_held (Held pid rl h) hS (fun _ _ hInv hR => hInv.rely hR)
      (fun S' hInv => hInv.mayRemove hHead) fun S₁ hS₁ hF fault => ?_
    have hAllow : Allows pid (.remove n) S₁ := hS₁.mayRemove hHead
    refine Prog.wp_mono (ih (hS₁.exec hAllow (by rintro ⟨⟩) (by rintro ⟨⟩) fault) hTail)
      fun _ S' h' => ⟨h'.1, fun hFault => h'.2 (faulted_exec _ _ (hF.trans hFault))⟩

/-- One operation of a plan succeeds, or fails and keeps the lock and the history. -/
theorem wp_step {step : FileStep} {staged : List FileName} (hV : View pid rl D h S)
    (hOver : step.Over h.head? staged)
    (hStaged : ∀ n ∈ staged, n.isStaged = true ∧ n.foreign pid = false) :
    step.issue.wp (M.contract pid) (Ends
      (fun _ S' => View pid rl (step.apply D) h S' ∧ S'.faulted pid = S.faulted pid)
      (fun S' => Held pid rl h S' ∧ (step.Ready D → S'.faulted pid = true))) S := by
  have hTmp : ∀ {S' : Sys} {n : FileName}, View pid rl D h S' → (∃ m, n = .tmp m) →
      MayWrite pid S' n := by
    rintro S' _ hV' ⟨m, rfl⟩
    exact hV'.mayWrite (writableOver_tmp _ m)
  have hTmpOwn : ∀ {n : FileName}, (∃ m, n = .tmp m) → n.foreign pid = false := by
    rintro _ ⟨m, rfl⟩
    rfl
  cases step with
  | create n =>
    refine wp_held (View pid rl D h) hV (fun _ _ hInv hR => hInv.rely hR)
      (fun S' hInv => hTmp hInv hOver) fun S₁ hV₁ hF fault => ?_
    have hAllow : Allows pid (.create n) S₁ := hTmp hV₁ hOver
    have hHeld := hV₁.toHeld.exec hAllow (by rintro ⟨⟩) (by rintro ⟨⟩) fault
    cases fault with
    | true => exact ⟨hHeld, fun _ => faulted_exec_true (by simp) _⟩
    | false =>
      refine ⟨⟨hHeld, fun m hm => ?_⟩, hF⟩
      change (S₁.dir.insert n .torn : Dir).lookup m = (D.insert n .torn : Dir).lookup m
      rw [Dir.lookup_insert, Dir.lookup_insert, hV₁.lookup m hm]
  | write n f =>
    refine wp_held (View pid rl D h) hV (fun _ _ hInv hR => hInv.rely hR)
      (fun S' hInv => hTmp hInv hOver) fun S₁ hV₁ hF fault => ?_
    have hAllow : Allows pid (.write n f) S₁ := hTmp hV₁ hOver
    have hHeld := hV₁.toHeld.exec hAllow (by rintro ⟨⟩) (by rintro ⟨⟩) fault
    cases fault with
    | true => exact ⟨hHeld, fun _ => faulted_exec_true (by simp) _⟩
    | false =>
      refine ⟨⟨hHeld, fun m hm => ?_⟩, hF⟩
      change (S₁.dir.overwrite n f).lookup m = (D.overwrite n f).lookup m
      rw [Dir.lookup_overwrite, Dir.lookup_overwrite, hV₁.lookup m hm,
        hV₁.lookup n (hTmpOwn hOver)]
  | sync n =>
    refine wp_held (View pid rl D h) hV (fun _ _ hInv hR => hInv.rely hR)
      (fun S' hInv => hTmp hInv hOver) fun S₁ hV₁ hF fault => ?_
    have hAllow : Allows pid (.sync n) S₁ := hTmp hV₁ hOver
    have hHeld := hV₁.toHeld.exec hAllow (by rintro ⟨⟩) (by rintro ⟨⟩) fault
    cases fault with
    | true => exact ⟨hHeld, fun _ => faulted_exec_true (by simp) _⟩
    | false => exact ⟨⟨hHeld, hV₁.lookup⟩, hF⟩
  | rename a b =>
    obtain ⟨hA, hB, -⟩ := hOver
    have hOwnA : a.foreign pid = false := by
      rcases hA with hA | hA
      · exact hTmpOwn hA
      · exact (hStaged a hA).2
    have hAllow : ∀ {S' : Sys}, View pid rl D h S' → Allows pid (.rename a b) S' := by
      intro S' hV'
      refine ⟨?_, .inl (hV'.mayWrite hB)⟩
      rcases hA with hA | hA
      · exact (hTmp hV' hA).mayRemove hV'.good
      · exact .inl (hStaged a hA)
    have hCommit : ¬ IsCommit (.rename a b) := by
      rintro ⟨⟩
      exact hB.ne_manifest rfl
    refine wp_held (View pid rl D h) hV (fun _ _ hInv hR => hInv.rely hR)
      (fun S' hInv => hAllow hInv) fun S₁ hV₁ hF fault => ?_
    have hHeld := hV₁.toHeld.exec (hAllow hV₁) hCommit (by rintro ⟨⟩) fault
    cases fault with
    | true => exact ⟨hHeld, fun _ => faulted_exec_true (by simp) _⟩
    | false =>
      have hMem : a ∈ S₁.fs.dir ↔ a ∈ D := by
        rw [Dir.mem_iff_lookup, Dir.mem_iff_lookup, ← hV₁.lookup a hOwnA]
        rfl
      by_cases hReady : a ∈ S₁.fs.dir
      · have hExec : S₁.exec pid false (.rename a b) = (.ok (),
            (S₁.exec pid false (.rename a b)).2) := by
          refine Prod.ext ?_ rfl
          change (FsOp.exec pid false (.rename a b) S₁.fs).1 = _
          simp only [FsOp.exec, Bool.false_eq_true, if_false, if_pos hReady]
        have hDir : (S₁.exec pid false (.rename a b)).2.dir = S₁.fs.dir.rename a b := by
          change (FsOp.exec pid false (.rename a b) S₁.fs).2.dir = _
          simp only [FsOp.exec, Bool.false_eq_true, if_false, if_pos hReady]
          rfl
        rw [hExec]
        refine ⟨⟨hHeld, fun m hm => ?_⟩, hF⟩
        obtain ⟨f, hf⟩ := Dir.mem_iff_lookup.mp (hMem.mp hReady)
        have hf' : S₁.fs.dir.lookup a = some f := (hV₁.lookup a hOwnA).trans hf
        rw [hDir, FileStep.apply, Dir.lookup_rename hf, Dir.lookup_rename hf']
        split
        · rfl
        · split
          · rfl
          · exact hV₁.lookup m hm
      · have hExec : S₁.exec pid false (.rename a b) = (.error .notFound,
            (S₁.exec pid false (.rename a b)).2) := by
          refine Prod.ext ?_ rfl
          change (FsOp.exec pid false (.rename a b) S₁.fs).1 = _
          simp only [FsOp.exec, Bool.false_eq_true, if_false, if_neg hReady]
        rw [hExec]
        exact ⟨hHeld, fun hR => absurd (hMem.mpr hR) hReady⟩

/-- Executing the operations of a plan: all succeed, or one fails, and the files created
so far may be removed. -/
theorem wp_runSteps {steps : List FileStep} {staged acc : List FileName}
    (hV : View pid rl D h S) (hOver : ∀ step ∈ steps, step.Over h.head? staged)
    (hStaged : ∀ n ∈ staged, n.isStaged = true ∧ n.foreign pid = false)
    (hAcc : ∀ n ∈ acc, Removable pid h.head? n) :
    (runSteps acc steps).wp (M.contract pid) (fun out S' =>
      (∀ n ∈ out.1, Removable pid h.head? n) ∧ Ends
        (fun _ S' => View pid rl (after D steps) h S' ∧ S'.faulted pid = S.faulted pid)
        (fun S' => Held pid rl h S' ∧ (Runnable D steps → S'.faulted pid = true)) out.2 S') S := by
  induction steps generalizing D S acc with
  | nil => exact ⟨hAcc, hV, rfl⟩
  | cons step steps ih =>
    obtain ⟨hHead, hTail⟩ := List.forall_mem_cons.mp hOver
    have hNew : ∀ n ∈ acc ++ step.newFile.toList, Removable pid h.head? n := by
      intro n hn
      rcases List.mem_append.mp hn with hn | hn
      · exact hAcc n hn
      · have hFree : WritableOver h.head? n := by
          cases step with
          | create m =>
            obtain rfl : n = m := by simpa [FileStep.newFile] using hn
            obtain ⟨m', rfl⟩ := hHead
            exact writableOver_tmp _ m'
          | rename a b =>
            obtain rfl : n = b := by simpa [FileStep.newFile] using hn
            exact hHead.2.1
          | write m f => simp [FileStep.newFile] at hn
          | sync m => simp [FileStep.newFile] at hn
        exact hV.removable hFree
    refine Prog.wp_seq (wp_step hV hHead hStaged) ?_
    intro r S₁ hr
    cases r with
    | ok u =>
      obtain ⟨hV₁, hF₁⟩ := hr
      refine Prog.wp_mono (ih hV₁ hTail hNew) fun out S' hOut => ⟨hOut.1, ?_⟩
      obtain ⟨newFiles, r⟩ := out
      cases r with
      | ok u => exact ⟨hOut.2.1, hOut.2.2.trans hF₁⟩
      | error e => exact ⟨hOut.2.1, fun hR => hOut.2.2 hR.2⟩
    | error e =>
      exact ⟨hNew, hr.1, fun hR => hr.2 hR.1⟩

/-- An operation has failed under the lock, and the history is as before. -/
def Failed (pid : Pid) (rl : List (Option Index)) (h : List Index) (S : Sys) : Prop :=
  Held pid rl h S ∧ S.faulted pid = true

/-- A directory sync under the lock. -/
theorem wp_syncDir (hV : View pid rl D h S) :
    (Prog.op FsOp.syncDir).wp (M.contract pid) (Ends
      (fun _ S' => View pid rl D h S' ∧ S'.faulted pid = S.faulted pid) (Failed pid rl h)) S := by
  refine wp_held (View pid rl D h) hV (fun _ _ hInv hR => hInv.rely hR)
    (fun _ _ => trivial) fun S₁ hV₁ hF fault => ?_
  have hAllow : Allows pid .syncDir S₁ := trivial
  have hV₂ := hV₁.exec hAllow rfl (by rintro ⟨⟩) fault
  cases fault with
  | true => exact ⟨hV₂.toHeld, faulted_exec_true (by simp) _⟩
  | false => exact ⟨hV₂, hF⟩

/-- What the holder of the lock commits: an index that the directory holds once the manifest
is in place. -/
structure Commits (D : Dir) (cur : Option Index) (retire : List FileName) (I : Index) :
    Prop where
  sound : I.Sound
  evolves : ∀ J ∈ cur, J.Evolves I
  backed : I.Backed (after D (Plan.writeFinal .manifest (manifestFile I.manifest)).steps)
  retire : ∀ n ∈ retire, n.isData ∧ n ∉ referencedFiles I.manifest

omit [Platform] in
theorem isStaged_of_isData {n : FileName} (h : n.isData) : n.isStaged = false := by
  cases n <;> simp_all [FileName.isData, FileName.isStaged]

/-- The rename that commits: afterwards the new index is current, or nothing happened and an
operation has failed. -/
theorem wp_rename_manifest {retire : List FileName} {I : Index}
    (hV : View pid rl (after D [.create (.tmp .manifest),
      .write (.tmp .manifest) (manifestFile I.manifest), .sync (.tmp .manifest)]) h S)
    (hF : S.faulted pid = false) (hC : Commits D h.head? retire I) :
    (Prog.op (FsOp.rename (.tmp .manifest) .manifest)).wp (M.contract pid)
      (Ends (fun _ => Held pid rl (I :: h)) (Failed pid rl h)) S := by
  set D' := after D [.create (.tmp .manifest),
    .write (.tmp .manifest) (manifestFile I.manifest), .sync (.tmp .manifest)] with hD'
  have hTmp : D'.lookup (.tmp .manifest) = some (manifestFile I.manifest) := by
    simp [hD', after, FileStep.apply, Dir.lookup_overwrite]
  -- Whoever sees `D'` sees the directory of the commit after the rename.
  have hBacked : ∀ {S' : Sys}, View pid rl D' h S' →
      I.Backed (S'.dir.rename (.tmp .manifest) .manifest) := by
    intro S' hV'
    have hTmp' : S'.dir.lookup (.tmp .manifest) = some (manifestFile I.manifest) :=
      (hV'.lookup _ rfl).trans hTmp
    have hAgree : ∀ n, n.foreign pid = false →
        (S'.dir.rename (.tmp .manifest) .manifest).lookup n =
          (after D (Plan.writeFinal .manifest (manifestFile I.manifest)).steps).lookup n := by
      intro n hn
      have hSteps : after D (Plan.writeFinal .manifest (manifestFile I.manifest)).steps =
          D'.rename (.tmp .manifest) .manifest := rfl
      rw [hSteps, Dir.lookup_rename hTmp', Dir.lookup_rename hTmp]
      split
      · rfl
      · split
        · rfl
        · exact hV'.lookup n hn
    exact hC.backed.of_agree (hAgree _ rfl) fun n hn =>
      hAgree n (foreign_of_mem_referencedFiles hn)
  have hAllow : ∀ {S' : Sys}, View pid rl D' h S' → S'.faulted pid = false →
      Allows pid (.rename (.tmp .manifest) .manifest) S' := by
    intro S' hV' hF'
    refine ⟨(hV'.mayWrite (writableOver_tmp _ _)).mayRemove hV'.good,
      .inr ⟨rfl, rfl, hV'.lock, hF', I, hBacked hV', hC.sound, ?_⟩⟩
    rw [hV'.current]
    exact hC.evolves
  refine wp_held (fun S' => View pid rl D' h S' ∧ S'.faulted pid = false) ⟨hV, hF⟩
    (fun S₁ S₂ hInv hR => ?_) (fun S' hInv => hAllow hInv.1 hInv.2) fun S₁ hInv hF' fault => ?_
  · obtain ⟨hV', hF'⟩ := hInv.1.rely hR
    exact ⟨⟨hV', hF'.trans hInv.2⟩, hF'⟩
  · obtain ⟨hV₁, hF₁⟩ := hInv
    have hLock : (S₁.exec pid fault (.rename (.tmp .manifest) .manifest)).2.fs.lock =
        some pid := by
      change (FsOp.exec pid fault (.rename (.tmp .manifest) .manifest) S₁.fs).2.lock = _
      rcases lock_exec pid fault (.rename (.tmp .manifest) .manifest) S₁.fs with
        hSame | ⟨hEq, -⟩ | ⟨hEq, -⟩
      · rw [hSame, hV₁.lock]
      · cases hEq
      · cases hEq
    have hGood := hV₁.good.exec (hAllow hV₁ hF₁) fault
    have hReleased : (S₁.exec pid fault (.rename (.tmp .manifest) .manifest)).2.released pid =
        rl := hV₁.released
    cases fault with
    | true => exact ⟨⟨hGood, hLock, hV₁.hist, hReleased⟩, faulted_exec_true (by simp) _⟩
    | false =>
      have hMem : FileName.tmp .manifest ∈ S₁.dir :=
        Dir.mem_iff_lookup.mpr ⟨_, (hV₁.lookup _ rfl).trans hTmp⟩
      obtain ⟨hRes, hDir, hHist, -⟩ := exec_rename_manifest pid hMem
      rw [hRes]
      refine ⟨hGood, hLock, ?_, hReleased⟩
      rw [hHist, histAfter, openIndex_ok_iff.mpr (hBacked hV₁), hV₁.hist]

/-- Writing a temporary file, as its three operations. -/
theorem wp_writeWhole {n : FileName} {f : FileData} (hV : View pid rl D h S)
    (hF : S.faulted pid = false) :
    (writeWhole (.tmp n) f).run.wp (M.contract pid) (Ends
      (fun _ S' => View pid rl (after D (Plan.writeWhole (.tmp n) f).steps) h S' ∧
        S'.faulted pid = false) (Failed pid rl h)) S := by
  have hCall : ∀ (step : FileStep) {S₁ : Sys} {D₁ : Dir}, View pid rl D₁ h S₁ →
      S₁.faulted pid = false → step.Over h.head? [] → step.Ready D₁ →
      (FsE.call step.issue).run.wp (M.contract pid) (Ends
        (fun _ S' => View pid rl (step.apply D₁) h S' ∧ S'.faulted pid = false)
        (Failed pid rl h)) S₁ := by
    intro step S₁ D₁ hV₁ hF₁ hOver hReady
    refine FsE.wp_call (Prog.wp_mono (wp_step hV₁ hOver (by simp)) fun r S' hr => ?_)
    cases r with
    | ok u => exact ⟨hr.1, hr.2.trans hF₁⟩
    | error e => exact ⟨hr.1, hr.2 hReady⟩
  have hTmp : ∃ m, FileName.tmp n = .tmp m := ⟨n, rfl⟩
  unfold writeWhole
  refine FsE.wp_seq (hCall (.create (.tmp n)) hV hF hTmp trivial) ?_
  intro _ S₁ h₁
  refine FsE.wp_seq (hCall (.write (.tmp n) f) h₁.1 h₁.2 hTmp trivial) ?_
  intro _ S₂ h₂
  exact hCall (.sync (.tmp n)) h₂.1 h₂.2 hTmp trivial

/-- A commit puts the index in place, or fails and nothing is committed. -/
theorem wp_commit {retire : List FileName} {I : Index} (hV : View pid rl D h S)
    (hF : S.faulted pid = false) (hC : Commits D h.head? retire I) :
    (commit I.manifest retire).run.wp (M.contract pid)
      (Ends (fun _ => Held pid rl (I :: h)) (Failed pid rl h)) S := by
  unfold commit
  refine FsE.wp_seq (FsE.wp_call (wp_syncDir hV)) ?_
  intro _ S₁ h₁
  refine FsE.wp_seq (wp_writeWhole h₁.1 (h₁.2.trans hF)) ?_
  intro _ S₂ h₂
  refine FsE.wp_seq (FsE.wp_call (wp_rename_manifest h₂.1 h₂.2 hC)) ?_
  intro _ S₃ h₃
  -- What fails from here on is only logged.
  refine FsE.wp_seq (P := fun _ => Held pid rl (I :: h)) (FsE.wp_ofM ?_) fun _ S₄ h₄ => ?_
  · refine wp_held (Held pid rl (I :: h)) h₃ (fun _ _ hInv hR => hInv.rely hR)
      (fun _ _ => trivial) fun S' hS' _ fault => ?_
    have hAllow : Allows pid .syncDir S' := trivial
    exact hS'.exec hAllow (by rintro ⟨⟩) (by rintro ⟨⟩) fault
  · refine FsE.wp_ofM (Prog.wp_mono (wp_removeAll h₄ fun n hn => .inr ?_)
      fun _ _ h' => h'.1)
    obtain ⟨hData, hNot⟩ := hC.retire n hn
    refine ⟨isStaged_of_isData hData, (FileName.ne_manifest_of_isData hData).1, ?_⟩
    rintro _ ⟨⟩
    exact hNot

/-- A writer ends with one more index, with nothing to commit, or with an error and the
history as before. -/
theorem wp_writeAndCommit {plan : CommitPlan} {staged : List FileName} {G : Index → Prop}
    (hV : View pid rl D h S) (hF : S.faulted pid = false)
    (hOver : plan.All (FileStep.Over h.head? staged))
    (hStaged : ∀ n ∈ staged, n.isStaged = true ∧ n.foreign pid = false)
    (hGives : ∀ m retire, plan.result = .ok (some (m, retire)) →
      ∃ I, G I ∧ I.manifest = m ∧ Commits (after D plan.steps) h.head? retire I) :
    (writeAndCommit plan).run.wp (M.contract pid) (Ends
      (fun _ S' => (plan.result = .ok none ∧ Held pid rl h S') ∨
        ∃ I, G I ∧ Held pid rl (I :: h) S')
      (fun S' => Held pid rl h S' ∧ (Runnable D plan.steps →
        (∃ e, plan.result = .error e) ∨ S'.faulted pid = true))) S := by
  unfold writeAndCommit
  refine FsE.wp_seq (P := fun out S' => (∀ n ∈ out.1, Removable pid h.head? n) ∧ Ends
      (fun _ S' => View pid rl (after D plan.steps) h S' ∧ S'.faulted pid = S.faulted pid)
      (fun S' => Held pid rl h S' ∧ (Runnable D plan.steps → S'.faulted pid = true)) out.2 S')
    (FsE.wp_ofM (wp_runSteps hV hOver hStaged (by simp))) ?_
  rintro ⟨newFiles, written⟩ S₁ ⟨hNew, hWritten⟩
  refine FsE.wp_seq (P := Ends
      (fun _ S' => (plan.result = .ok none ∧ Held pid rl h S') ∨
        ∃ I, G I ∧ Held pid rl (I :: h) S')
      (fun S' => Held pid rl h S' ∧ (Runnable D plan.steps →
        (∃ e, plan.result = .error e) ∨ S'.faulted pid = true))) ?_ fun r S₂ hr => ?_
  · rcases written with e | u
    · exact ⟨hWritten.1, fun hRun => .inr (hWritten.2 hRun)⟩
    · rcases hRes : plan.result with e | _ | ⟨m, retire⟩
      · exact ⟨hWritten.1.toHeld, fun _ => .inl ⟨e, rfl⟩⟩
      · exact .inl ⟨rfl, hWritten.1.toHeld⟩
      · obtain ⟨I, hG, rfl, hC⟩ := hGives m retire hRes
        refine FsE.wp_catch (wp_commit hWritten.1 (hWritten.2.trans hF) hC)
          (fun _ S' hS' => .inr ⟨I, hG, hS'⟩) fun _ S' hS' => ⟨hS'.1, fun _ => .inr hS'.2⟩
  · rcases r with e | u
    · refine FsE.wp_seq (P := fun _ S' => Held pid rl h S' ∧ (Runnable D plan.steps →
          (∃ e, plan.result = .error e) ∨ S'.faulted pid = true))
        (FsE.wp_ofM (Prog.wp_mono (wp_removeAll hr.1 hNew) fun _ S' h' => ?_)) fun _ _ h' => h'
      exact ⟨h'.1, fun hRun => (hr.2 hRun).imp_right h'.2⟩
    · exact hr

end Rules

end Ripindex
