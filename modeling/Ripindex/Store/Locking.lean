import Ripindex.Store.Limits
import Ripindex.Store.Merge
import Ripindex.Store.Opens
import Ripindex.Store.Spec

/-!
# Writers and the lock

What `open` and the writers do under the lock and outside it, in any mode in which reads do
not fail. Outside the lock a process knows `F` of the history; a predicate it may rely on is
one that the others keep (`Mode.Keeps`).

## Results

* `wp_openIndex_held`, `wp_openIndex_away` — opening, under the lock and without it;
* `wp_withLock`, `wp_withLock_reopen` — a body under the lock;
* `Operation.wp_buildIndex`, `Operation.wp_updateIndex`, `Operation.wp_commitMerges` — a writer
  commits its plan over what it finds, or nothing.
-/

namespace Ripindex

-- ---------------------------------------------------------------------------
-- Reading programs
-- ---------------------------------------------------------------------------

namespace ReadE

variable {α : Type}

/-- The program opens no staged file. -/
def Unstaged (p : ReadE α) : Prop := p.run.Only fun o => o.name.isStaged = false

/-- What opens unstaged files. -/
theorem Opens.unstaged {X : IoError → Prop} {p : ReadE α} {ns : List FileName}
    (hp : p.Opens X ns)
    (hNs : ∀ n ∈ ns, n.isStaged = false) : p.Unstaged := by
  unfold Unstaged
  exact ReadM.Opens.only hp hNs

theorem unstaged_loadIndex [Platform] (m : { m : Manifest // m.Ok }) :
    (loadIndex m).Unstaged := by
  refine (opens_loadIndex (X := fun _ => True) m).unstaged fun n hn => ?_
  rw [← Bool.not_eq_true]
  exact fun hStaged => Sys.not_mem_referencedFiles_of_staged hStaged hn

theorem unstaged_readManifest : readManifest.Unstaged := by
  refine ⟨rfl, fun r => ?_⟩
  cases r with
  | ok f => trivial
  | error e => cases e <;> trivial

end ReadE

variable [Platform]

-- ---------------------------------------------------------------------------
-- Modes
-- ---------------------------------------------------------------------------

/-- The operations that may fail; a read that fails makes `open` fail, and is left out. -/
def FsOp.fallible : FsOp → Bool
  | createDirAll | create _ | write _ _ | sync _ | rename _ _ | remove _ | listDir | syncDir |
    lock => true
  | read _ | mmap _ | unlock | stagingTag => false

namespace Mode

/-- Only the operations that are fallible fail. -/
def Reads (M : Mode) : Prop := ∀ o S, M.mayFault o S → o.fallible = true

/-- What others do keeps `F` of the history. -/
def Keeps (M : Mode) (pid : Pid) (F : List Index → Prop) : Prop :=
  ∀ S S', M.rely pid S S' → F S.hist → F S'.hist

end Mode

namespace Sys

/-- A directory that holds an index, or none, before any process has begun. -/
def start (s : FsState) (prev : Option Index) : Sys :=
  ⟨s, prev.toList, s.dir, fun _ => false, fun _ => []⟩

theorem Good.start {s : FsState} {prev : Option Index} (hHolds : s.dir.Holds prev)
    (hSound : ∀ I ∈ prev, I.Sound) : (start s prev).Good := by
  cases prev with
  | none => exact ⟨by simp [current, Sys.start], by simp [current, Sys.start], fun _ => hHolds,
      by simp [Sys.start], .nil⟩
  | some I =>
    refine ⟨?_, ?_, ?_, ?_, List.pairwise_singleton _ _⟩
    · rintro _ ⟨⟩
      exact hHolds
    · rintro _ ⟨⟩
      exact hHolds
    · rintro ⟨⟩
    · exact fun J hJ => hSound J (Option.mem_toList.mp hJ)

/-- The process does not hold the lock, and `F` holds of the history. -/
structure Away (pid : Pid) (F : List Index → Prop) (S : Sys) : Prop where
  good : S.Good
  lock : S.fs.lock ≠ some pid
  hist : F S.hist

/-- Between the locked parts of a task: the process has given the lock up as `rl` says, none
of its operations has failed, and its staged files are as in `D`. -/
structure Outside (pid : Pid) (rl : List (Option Index)) (F : List Index → Prop) (D : Dir)
    (S : Sys) : Prop extends Away pid F S where
  released : S.released pid = rl
  unfaulted : S.faulted pid = false
  own : ∀ n, n.isStaged = true → n.foreign pid = false → S.dir.lookup n = D.lookup n

end Sys

section Locking

variable {M : Mode} {pid : Pid} {rl : List (Option Index)} {h : List Index} {D : Dir} {S S' : Sys}
  {F G : List Index → Prop} {α : Type}

open Sys

theorem Sys.Away.rely (hF : M.Keeps pid F) (hS : Away pid F S) (hR : M.rely pid S S') :
    Away pid F S' :=
  have hRely := M.rely_ok pid S S' hS.good hR
  ⟨hRely.good, hRely.not_held hS.lock, hF S S' hR hS.hist⟩

theorem Sys.Outside.rely (hF : M.Keeps pid F) (hS : Outside pid rl F D S)
    (hR : M.rely pid S S') : Outside pid rl F D S' :=
  have hRely := M.rely_ok pid S S' hS.good hR
  ⟨hS.toAway.rely hF hR, hRely.released.trans hS.released, hRely.faulted.trans hS.unfaulted,
    fun n hn hOwn => (hRely.own n hn hOwn).trans (hS.own n hn hOwn)⟩

theorem Sys.Away.mono (hFG : ∀ h, F h → G h) (hS : Away pid F S) : Away pid G S :=
  ⟨hS.good, hS.lock, hFG _ hS.hist⟩

/-- An operation that does not take the lock. -/
theorem Sys.Away.exec (hS : Away pid F S) {o : FsOp} (hAllow : Allows pid o S)
    (hLock : o ≠ .lock) (fault : Bool) : Away pid F (S.exec pid fault o).2 where
  good := hS.good.exec hAllow fault
  lock := by
    change (o.exec pid fault S.fs).2.lock ≠ some pid
    rcases lock_exec pid fault o S.fs with hSame | ⟨hEq, -⟩ | ⟨-, -, hNone⟩
    · rw [hSame]
      exact hS.lock
    · exact absurd hEq hLock
    · rw [hNone]
      simp
  hist := by
    by_cases hCommit : IsCommit o
    · exact absurd (hAllow.lock_of_commit hCommit) hS.lock
    · rw [hist_exec_of_not_commit hCommit]
      exact hS.hist

/-- The lock is taken, or taking it fails. -/
theorem Sys.Away.exec_lock (hS : Away pid F S) (fault : Bool) :
    ((∃ e, (S.exec pid fault .lock).1 = .error e) ∧ Away pid F (S.exec pid fault .lock).2) ∨
      (fault = false ∧ S.fs.lock = none ∧ (S.exec pid fault .lock).1 = .ok () ∧
        View pid (S.released pid) S.dir S.hist (S.exec pid fault .lock).2 ∧
          (S.exec pid fault .lock).2.faulted pid = S.faulted pid) := by
  have hAllow : Allows pid .lock S := trivial
  have hGood := hS.good.exec hAllow fault
  have hHist : (S.exec pid fault .lock).2.hist = S.hist :=
    hist_exec_of_not_commit (by rintro ⟨⟩)
  by_cases hTaken : fault = false ∧ S.fs.lock = none
  · obtain ⟨rfl, hNone⟩ := hTaken
    have hExec : FsOp.exec pid false .lock S.fs = (.ok (), { S.fs with lock := some pid }) := by
      simp only [FsOp.exec, Bool.false_eq_true, if_false, if_pos hNone]
    refine .inr ⟨rfl, hNone, congrArg Prod.fst hExec,
      ⟨⟨hGood, ?_, hHist, rfl⟩, fun n _ => ?_⟩, rfl⟩
    · exact congrArg (fun out => out.2.lock) hExec
    · exact congrArg (fun out => out.2.dir.lookup n) hExec
  · have hExec : ∃ e, FsOp.exec pid fault .lock S.fs = (.error e, S.fs) := by
      cases fault with
      | true => exact ⟨_, rfl⟩
      | false =>
        have hHeld : ¬ S.fs.lock = none := fun hNone => hTaken ⟨rfl, hNone⟩
        refine ⟨.wouldBlock, ?_⟩
        simp only [FsOp.exec, Bool.false_eq_true, if_false, if_neg hHeld]
    obtain ⟨e, hExec⟩ := hExec
    refine .inl ⟨⟨e, congrArg Prod.fst hExec⟩, hGood, ?_, by rw [hHist]; exact hS.hist⟩
    exact (congrArg (fun out => out.2.lock) hExec).symm ▸ hS.lock

/-- Giving the lock up. -/
theorem Sys.Held.exec_unlock (hS : Held pid rl h S) (hF : F h) (fault : Bool) :
    Away pid F (S.exec pid fault .unlock).2 ∧
      (S.exec pid fault .unlock).2.released pid = rl ++ [h.head?] where
  left := by
    have hAllow : Allows pid .unlock S := trivial
    refine ⟨hS.good.exec hAllow fault, ?_, ?_⟩
    · change (S.fs.release pid).lock ≠ some pid
      rw [FsState.release, if_pos hS.lock]
      simp
    · rw [hist_exec_of_not_commit (by rintro ⟨⟩), hS.hist]
      exact hF
  right := by
    change S.releasedAfter pid .unlock pid = _
    rw [releasedAfter, if_pos hS.lock, Function.update_self, hS.released, hS.current]

-- ---------------------------------------------------------------------------
-- Rules
-- ---------------------------------------------------------------------------

/-- An operation that keeps a stable assertion so far: both outcomes are covered. -/
theorem wp_op {o : FsOp} {k : o.Res → FsM α} {Q : α → Sys → Prop} (Inv : Sys → Prop)
    (hInv : Inv S) (hStable : ∀ S S', Inv S → M.rely pid S S' → Inv S')
    (hAllow : ∀ S, Inv S → Allows pid o S)
    (hNext : ∀ S₁, Inv S₁ → ∀ fault : Bool, (fault = true → M.mayFault o S₁) →
      (o = .lock → fault = false → S₁.fs.lock = none → M.admits pid S₁) →
      (k (S₁.exec pid fault o).1).wp (M.contract pid) Q (S₁.exec pid fault o).2) :
    (Prog.call o k).wp (M.contract pid) Q S := by
  intro S₁ hR
  have hInv₁ := hStable S S₁ hInv hR
  refine ⟨hAllow S₁ hInv₁, fun r S₂ hStep => ?_⟩
  obtain ⟨fault, hMay, hAdmits, hExec⟩ := hStep
  have hOut := hNext S₁ hInv₁ fault hMay hAdmits
  rw [hExec] at hOut
  exact hOut

/-- A reading program keeps a stable assertion. Where the assertion fixes what is read of the
files it opens, so is the result. -/
theorem wp_reads (hM : M.Reads) (Inv : Sys → Prop)
    (hStable : ∀ S S', Inv S → M.rely pid S S' → Inv S') {P : ReadOp → Prop}
    (hSees : ∀ S, Inv S → ∀ o, P o → S.dir.readFile o.name = D.readFile o.name) (q : ReadM α)
    (hInv : Inv S) :
    q.toFsM.wp (M.contract pid) (fun r S' => (q.Only P → r = q.onDir D) ∧ Inv S') S := by
  induction q generalizing S with
  | ret a => exact ⟨fun _ => rfl, hInv⟩
  | call o k ih =>
    have hNext : ∀ S₁, Inv S₁ → (ReadM.toFsM (k (S₁.dir.readFile o.name))).wp (M.contract pid)
        (fun r S' => ((P o ∧ ∀ r, (k r).Only P) → r = ReadM.onDir (k (D.readFile o.name)) D) ∧
          Inv S') S₁ := fun S₁ hInv₁ => Prog.wp_mono (ih _ hInv₁) fun r S' hOut =>
      ⟨fun hOnly => by rw [hOut.1 (hOnly.2 _), hSees S₁ hInv₁ o hOnly.1], hOut.2⟩
    change ((o.issue >>= fun r => (k r).lift ReadOp.issue) : FsM _).wp _ _ S
    cases o with
    | read n =>
      refine wp_op Inv hInv hStable (fun _ _ => trivial) ?_
      intro S₁ hInv₁ fault hMay _
      cases fault with
      | true => cases hM _ _ (hMay rfl)
      | false => exact hNext S₁ hInv₁
    | mmap n =>
      refine wp_op Inv hInv hStable (fun _ _ => trivial) ?_
      intro S₁ hInv₁ fault hMay _
      cases fault with
      | true => cases hM _ _ (hMay rfl)
      | false => exact hNext S₁ hInv₁

-- ---------------------------------------------------------------------------
-- Opening under the lock
-- ---------------------------------------------------------------------------

/-- What the holder of the lock knows, with whether an operation has failed. -/
def Known (pid : Pid) (rl : List (Option Index)) (D : Dir) (h : List Index) (b : Bool) (S : Sys) :
    Prop :=
  View pid rl D h S ∧ S.faulted pid = b

theorem Known.rely {b : Bool} (hK : Known pid rl D h b S) (hR : M.rely pid S S') :
    Known pid rl D h b S' := by
  obtain ⟨hV, hF⟩ := hK.1.rely hR
  exact ⟨hV, hF.trans hK.2⟩

/-- Under the lock a program that opens no staged file returns what the directory holds. -/
theorem wp_ofRead_held (hM : M.Reads) {p : ReadE α} (hp : p.Unstaged) {b : Bool}
    (hK : Known pid rl D h b S) :
    (FsE.ofRead p).run.wp (M.contract pid)
      (fun r S' => r = p.eval D ∧ Known pid rl D h b S') S := by
  refine Prog.wp_mono (wp_reads (D := D) (P := fun o => o.name.isStaged = false) hM
    (Known pid rl D h b) (fun _ _ hInv hR => hInv.rely hR) (fun S' hK' o ho => ?_) p.run hK)
      fun r S' hOut => ⟨hOut.1 hp, hOut.2⟩
  unfold Dir.readFile
  rw [hK'.1.lookup _ (foreign_of_not_staged ho)]

/-- Taking the lock a process holds already fails, and nothing changes. -/
theorem exec_lock_held {b : Bool} (hK : Known pid rl D h b S) (fault : Bool) :
    (S.exec pid fault .lock).1.isOk = false ∧
      Known pid rl D h b (S.exec pid fault .lock).2 := by
  have hAllow : Allows pid .lock S := trivial
  refine ⟨?_, hK.1.exec hAllow rfl (by rintro ⟨⟩) fault, ?_⟩
  · change (FsOp.exec pid fault .lock S.fs).1.isOk = false
    have hNe : ¬ S.fs.lock = none := by
      rw [hK.1.lock]
      simp
    cases fault <;> simp [FsOp.exec, hNe, Except.isOk, Except.toBool]
  · change S.faultedAfter pid fault .lock pid = b
    rw [← hK.2]
    cases fault <;> simp [faultedAfter, hK.1.lock]

/-- One attempt to open under the lock. -/
theorem wp_openOnce_held (hM : M.Reads) {b : Bool} (hK : Known pid rl D h b S) :
    openOnce.run.wp (M.contract pid)
      (fun r S' => r = .ok h.head? ∧ Known pid rl D h b S') S := by
  unfold openOnce
  refine wp_op (Known pid rl D h b) hK (fun _ _ hInv hR => hInv.rely hR) (fun _ _ => trivial)
    fun S₁ hK₁ fault _ _ => ?_
  obtain ⟨hErr, hK₂⟩ := exec_lock_held hK₁ fault
  generalize S₁.exec pid fault .lock = out at hErr hK₂ ⊢
  obtain ⟨probe, S₂⟩ := out
  obtain ⟨e, rfl⟩ : ∃ e, probe = .error e := by
    cases probe with
    | ok u => cases hErr
    | error e => exact ⟨e, rfl⟩
  change (FsE.attempt (readAndSweep false) >>= fun r =>
    FsE.ofExcept r >>= _).run.wp _ _ S₂
  -- The directory opens to the current index, so that neither part fails.
  have hOpen := hK.1.openIndex
  rw [openIndex_eq_of_same (.refl D)] at hOpen
  refine FsE.wp_bind (P := fun r S' => r = .ok (readManifest.eval D) ∧ Known pid rl D h b S')
    (FsE.wp_attempt ?_) ?_ (by simp)
  · unfold readAndSweep
    refine FsE.wp_bind (wp_ofRead_held hM ReadE.unstaged_readManifest hK₂) ?_ ?_
    · rintro m S₃ ⟨hEq, hK₃⟩
      rw [← hEq]
      cases m <;> exact ⟨rfl, hK₃⟩
    · rintro e S₃ ⟨hEq, hK₃⟩
      exact ⟨congrArg Except.ok hEq, hK₃⟩
  · rintro r S₃ ⟨hEq, hK₃⟩
    obtain rfl := Except.ok.inj hEq
    cases hRead : readManifest.eval D with
    | error e =>
      rw [hRead] at hOpen
      cases hOpen
    | ok m =>
      rw [hRead] at hOpen
      cases m with
      | none => exact ⟨hOpen, hK₃⟩
      | some m =>
        change (some <$> FsE.ofRead (loadIndex m) : FsE _).run.wp _ _ S₃
        change ReadE.eval (some <$> loadIndex m) D = _ at hOpen
        rw [map_eq_pure_bind]
        rw [ReadE.eval_map] at hOpen
        refine FsE.wp_bind (wp_ofRead_held hM (ReadE.unstaged_loadIndex m) hK₃) ?_ ?_
        · rintro I S₄ ⟨hEq, hK₄⟩
          rw [← hEq] at hOpen
          exact ⟨hOpen, hK₄⟩
        · rintro e S₄ ⟨hEq, hK₄⟩
          rw [← hEq] at hOpen
          cases hOpen

/-- Opening under the lock gives the current index. -/
theorem wp_openIndex_held (hM : M.Reads) {b : Bool} (hK : Known pid rl D h b S) :
    openIndex.run.wp (M.contract pid)
      (fun r S' => r = .ok h.head? ∧ Known pid rl D h b S') S := by
  unfold openIndex maxAttempts openAttempts
  refine FsE.wp_bind (P := fun r S' => r = .ok (.ok h.head?) ∧ Known pid rl D h b S')
    (FsE.wp_attempt (Prog.wp_mono (wp_openOnce_held hM hK) ?_)) ?_ ?_
  · rintro _ S' ⟨rfl, hRest⟩
    exact ⟨rfl, hRest⟩
  · rintro _ S' ⟨hEq, hRest⟩
    obtain rfl := Except.ok.inj hEq
    exact ⟨rfl, hRest⟩
  · rintro e S' ⟨hEq, -⟩
    cases hEq

-- ---------------------------------------------------------------------------
-- Opening without the lock
-- ---------------------------------------------------------------------------

/-- A reading program does not take the lock. -/
theorem wp_ofRead_away (hM : M.Reads) (hF : M.Keeps pid F) (p : ReadE α) (hS : Away pid F S) :
    (FsE.ofRead p).run.wp (M.contract pid) (fun _ => Away pid F) S :=
  Prog.wp_mono (wp_reads (D := S.dir) (P := fun _ => False) hM (Away pid F)
    (fun _ _ hInv hR => hInv.rely hF hR) (by simp) p.run hS) fun _ _ hOut => hOut.2

/-- The manifest in the directory is that of the current index. -/
theorem Sys.Good.readManifest (hS : S.Good) :
    readManifest.eval S.dir = .ok (S.current.map fun I => ⟨I.manifest, I.manifest_ok⟩) := by
  rcases hCur : S.current with _ | I
  · rw [eval_readManifest, hS.absent hCur]
    rfl
  · exact eval_readManifest_some.mpr (hS.backed I hCur).manifest

/-- What the holder of the lock reads is the manifest of the current index. -/
theorem Sys.View.readManifest (hV : View pid rl D h S) :
    readManifest.eval D = .ok (h.head?.map fun I => ⟨I.manifest, I.manifest_ok⟩) := by
  rw [← hV.current, ← hV.good.readManifest, eval_readManifest, eval_readManifest, hV.lookup _ rfl]

/-- The sweep by the manifest of the current index fails only if listing the directory does. -/
theorem wp_sweep_held {I : Index} (hI : h.head? = some I) (hS : Held pid rl h S) :
    (sweep I.manifest).run.wp (M.contract pid) (fun r S' => Held pid rl h S' ∧
      ∀ e, r = .error e → (∃ e', e = .io e') ∧ S'.faulted pid = true) S := by
  unfold sweep
  refine FsE.wp_bind (P := fun r S' => Held pid rl h S' ∧
    ∀ e, r = .error e → (∃ e', e = .io e') ∧ S'.faulted pid = true) ?_ ?_
      fun e S₁ hOut => ⟨hOut.1, fun _ hEq => hOut.2 _ (congrArg _ (Except.error.inj hEq))⟩
  · refine wp_held (Held pid rl h) hS (fun _ _ hInv hR => hInv.rely hR) (fun _ _ => trivial)
      fun S₁ hS₁ _ fault => ?_
    have hAllow : Allows pid .listDir S₁ := trivial
    have hH := hS₁.exec hAllow (by rintro ⟨⟩) (by rintro ⟨⟩) fault
    cases fault with
    | true =>
      refine ⟨hH, ?_⟩
      rintro _ ⟨⟩
      exact ⟨⟨_, rfl⟩, faulted_exec_true (by simp) _⟩
    | false => exact ⟨hH, by rintro e ⟨⟩⟩
  · rintro names S₁ ⟨hH, -⟩
    refine FsE.wp_ofM (Prog.wp_mono (wp_removeAll hH fun n hn => ?_)
      fun _ _ h' => ⟨h'.1, by rintro e ⟨⟩⟩)
    obtain ⟨-, hClean⟩ := List.mem_filter.mp hn
    simp only [Bool.and_eq_true, decide_eq_true_eq] at hClean
    refine .inr ⟨?_, ?_, ?_⟩
    · cases n <;> simp_all [FileName.isCleanable, FileName.isStaged]
    · rintro rfl
      simp [FileName.isCleanable] at hClean
    · rw [hI]
      rintro _ ⟨⟩
      exact hClean.2

/-- Reading the manifest and sweeping keeps the lock and the history, and gives the manifest of
the current index if the directory can be listed. -/
theorem wp_readAndSweep_held (hM : M.Reads) {b : Bool} (hK : Known pid rl D h b S) :
    (readAndSweep true).run.wp (M.contract pid) (fun r S' => Held pid rl h S' ∧
      (r = .ok (h.head?.map fun I => ⟨I.manifest, I.manifest_ok⟩) ∨
        (∃ e, r = .error (.io e)) ∧ S'.faulted pid = true)) S := by
  have hRead := hK.1.readManifest
  unfold readAndSweep
  refine FsE.wp_bind (wp_ofRead_held hM ReadE.unstaged_readManifest hK) ?_ ?_
  · rintro m S₁ ⟨hm, hK₁⟩
    obtain rfl := Except.ok.inj (hm.trans hRead)
    rcases hHead : h.head? with _ | I
    · exact ⟨hK₁.1.toHeld, .inl rfl⟩
    change (sweep I.manifest >>= fun _ => pure (some _)).run.wp _ _ S₁
    refine FsE.wp_bind (wp_sweep_held hHead hK₁.1.toHeld)
      (fun _ _ hOut => ⟨hOut.1, .inl rfl⟩) fun e S₂ hOut => ?_
    obtain ⟨⟨e', rfl⟩, hFault⟩ := hOut.2 e rfl
    exact ⟨hOut.1, .inr ⟨⟨_, rfl⟩, hFault⟩⟩
  · rintro e S₁ ⟨hEq, -⟩
    cases hEq.trans hRead

/-- Loading what a manifest names, without the lock. -/
theorem wp_load_away (hM : M.Reads) (hF : M.Keeps pid F)
    (r : Except Error (Option { m : Manifest // m.Ok })) (hS : Away pid F S) :
    (FsE.ofExcept r >>= fun m => match m with
      | none => pure none
      | some m => some <$> FsE.ofRead (loadIndex m)).run.wp (M.contract pid)
        (fun _ => Away pid F) S := by
  rcases r with e | _ | m
  · exact hS
  · exact hS
  · change (some <$> FsE.ofRead (loadIndex m) : FsE _).run.wp _ _ S
    rw [map_eq_pure_bind]
    exact FsE.wp_bind (wp_ofRead_away hM hF (loadIndex m) hS) (fun _ _ hOut => hOut)
      fun _ _ hOut => hOut

/-- One attempt to open may take the lock and sweep, and commits nothing. -/
theorem wp_openOnce_away (hM : M.Reads) (hF : M.Keeps pid F) (hS : Away pid F S) :
    openOnce.run.wp (M.contract pid) (fun _ => Away pid F) S := by
  unfold openOnce
  refine wp_op (Away pid F) hS (fun _ _ hInv hR => hInv.rely hF hR) (fun _ _ => trivial)
    fun S₁ hS₁ fault _ _ => ?_
  rcases hS₁.exec_lock fault with ⟨⟨e, hErr⟩, hAway⟩ | ⟨-, -, hTaken, hView, hSame⟩
  · generalize S₁.exec pid fault .lock = out at hErr hAway ⊢
    obtain ⟨probe, S₂⟩ := out
    obtain rfl : probe = .error e := hErr
    change (FsE.attempt (readAndSweep false) >>= fun r =>
      FsE.ofExcept r >>= fun m => match m with
        | none => pure none
        | some m => some <$> FsE.ofRead (loadIndex m)).run.wp _ _ S₂
    refine FsE.wp_bind (P := fun _ => Away pid F) (FsE.wp_attempt ?_)
      (fun r S₃ hS₃ => wp_load_away hM hF r hS₃) fun _ _ hOut => hOut
    unfold readAndSweep
    refine FsE.wp_bind (wp_ofRead_away hM hF readManifest hAway) (fun m S₃ hS₃ => ?_)
      fun _ _ hOut => hOut
    cases m <;> exact hS₃
  · generalize S₁.exec pid fault .lock = out at hTaken hView hSame ⊢
    obtain ⟨probe, S₂⟩ := out
    obtain rfl : probe = .ok () := hTaken
    change (FsE.attempt (readAndSweep true) >>= fun r =>
      FsE.ofM (Prog.op FsOp.unlock) >>= fun _ => FsE.ofExcept r >>= fun m => match m with
        | none => pure none
        | some m => some <$> FsE.ofRead (loadIndex m)).run.wp _ _ S₂
    refine FsE.wp_bind (P := fun r S' => r.isOk = true ∧ Held pid (S₁.released pid) S₁.hist S')
      (FsE.wp_attempt (Prog.wp_mono (wp_readAndSweep_held hM ⟨hView, hSame⟩)
        fun _ _ hOut => ⟨rfl, hOut.1⟩)) (fun r S₃ hOut => ?_) (by simp [Except.isOk, Except.toBool])
    refine wp_held (Held pid (S₁.released pid) S₁.hist) hOut.2 (fun _ _ hInv hR => hInv.rely hR)
      (fun _ _ => trivial) fun S₄ hH _ fault => ?_
    exact wp_load_away hM hF r (hH.exec_unlock hS₁.hist fault).1

theorem wp_openIndex_away (hM : M.Reads) (hF : M.Keeps pid F) (hS : Away pid F S) :
    openIndex.run.wp (M.contract pid) (fun _ => Away pid F) S := by
  have hAttempts : ∀ (n : Nat) (last : Option FileName) {S : Sys}, Away pid F S →
      (openAttempts last n).run.wp (M.contract pid) (fun _ => Away pid F) S := by
    intro n
    induction n with
    | zero => exact fun _ _ hS => hS
    | succ n ih =>
      intro last S hS
      unfold openAttempts
      refine FsE.wp_bind (P := fun _ => Away pid F) (FsE.wp_attempt (wp_openOnce_away hM hF hS))
        (fun r S₁ hS₁ => ?_) fun _ _ hOut => hOut
      split
      · exact hS₁
      · exact ih _ hS₁
      · exact hS₁
  exact hAttempts maxAttempts none hS

/-- The final `open` of a writer commits nothing. -/
theorem wp_reopen (hM : M.Reads) (hF : M.Keeps pid F) (hS : Away pid F S) :
    reopen.run.wp (M.contract pid) (fun _ => Away pid F) S := by
  unfold reopen
  refine FsE.wp_bind (P := fun _ => Away pid F) (wp_openIndex_away hM hF hS)
    (fun r S₁ hS₁ => ?_) fun _ _ hOut => hOut
  cases r <;> exact hS₁

-- ---------------------------------------------------------------------------
-- Taking the lock
-- ---------------------------------------------------------------------------

/-- The process has just taken the lock in the state `S₀`. -/
structure Taken (M : Mode) (pid : Pid) (rl : List (Option Index)) (F : List Index → Prop)
    (D : Dir) (S₀ S : Sys) : Prop where
  admitted : M.admits pid S₀
  outside : Outside pid rl F D S₀
  known : Known pid rl S₀.dir S₀.hist false S

/-- The lock is taken with nothing changed, or not at all. -/
theorem wp_takeLock (hF : M.Keeps pid F) (hS : Outside pid rl F D S) :
    takeLock.run.wp (M.contract pid)
      (Ends (fun _ S' => ∃ S₀, Taken M pid rl F D S₀ S') (Away pid F)) S := by
  have hPolls : ∀ (n : Nat) {S : Sys}, Outside pid rl F D S →
      (takeLockPolls n).run.wp (M.contract pid)
        (Ends (fun _ S' => ∃ S₀, Taken M pid rl F D S₀ S') (Away pid F)) S := by
    intro n
    induction n with
    | zero => exact fun hS => hS.toAway
    | succ n ih =>
      intro S hS
      unfold takeLockPolls
      refine wp_op (Outside pid rl F D) hS (fun _ _ hInv hR => hInv.rely hF hR)
        (fun _ _ => trivial) fun S₁ hS₁ fault _ hAdmits => ?_
      rcases hS₁.exec_lock fault with ⟨⟨e, hErr⟩, hAway⟩ | ⟨hFault, hFree, hTaken, hView, hSame⟩
      · -- Without a fault a poll that fails leaves everything as it was.
        have hWait : e = .wouldBlock → Outside pid rl F D (S₁.exec pid fault .lock).2 := by
          rintro rfl
          cases fault with
          | true => cases hErr
          | false => exact ⟨hAway, hS₁.released, hS₁.unfaulted, fun n hn hOwn =>
              (lookup_exec (by simp [touches])).trans (hS₁.own n hn hOwn)⟩
        generalize S₁.exec pid fault .lock = out at hErr hAway hWait ⊢
        obtain ⟨r, S₂⟩ := out
        obtain rfl : r = .error e := hErr
        cases e with
        | wouldBlock => exact ih (hWait rfl)
        | _ => exact hAway
      · generalize S₁.exec pid fault .lock = out at hTaken hView hSame ⊢
        obtain ⟨r, S₂⟩ := out
        obtain rfl : r = .ok () := hTaken
        rw [hS₁.released] at hView
        exact ⟨S₁, hAdmits rfl hFault hFree, hS₁, hView, hSame.trans hS₁.unfaulted⟩
  exact hPolls _ hS

/-- A body under the lock: what is committed there is what is committed. -/
theorem wp_withLock {body : FsE α} {H : α → List Index → Bool → Prop} (hM : M.Reads)
    (hF : M.Keeps pid F) (hFG : ∀ h, F h → G h) (hS : Outside pid rl F D S)
    (hBody : ∀ S₀ S₁, Taken M pid rl F D S₀ S₁ → body.run.wp (M.contract pid) (fun r S' =>
      ∃ h', G h' ∧ Held pid rl h' S' ∧ ∀ a, r = .ok a → H a h' (S'.faulted pid)) S₁) :
    (withLock body).run.wp (M.contract pid) (fun r S' => Away pid G S' ∧ ∀ a, r = .ok a →
      ∃ h', H a h' (S'.faulted pid) ∧ S'.released pid = rl ++ [h'.head?]) S := by
  unfold withLock
  refine FsE.wp_bind (wp_takeLock hF hS) ?_ fun e S₁ hAway => ⟨hAway.mono hFG, by simp⟩
  rintro _ S₁ ⟨S₀, hTaken⟩
  refine FsE.wp_bind (P := fun r S' => ∃ r' h', r = .ok r' ∧ G h' ∧ Held pid rl h' S' ∧
    ∀ a, r' = .ok a → H a h' (S'.faulted pid)) (FsE.wp_attempt (Prog.wp_mono (hBody S₀ S₁ hTaken)
      fun r S' ⟨h', hOut⟩ => ⟨r, h', rfl, hOut⟩)) ?_ ?_
  · rintro r S₂ ⟨_, h', ⟨⟩, hG, hHeld, hH⟩
    refine wp_op (fun S' => Held pid rl h' S' ∧ S'.faulted pid = S₂.faulted pid) ⟨hHeld, rfl⟩
      (fun S' S'' hInv hR => ?_) (fun _ _ => trivial) fun S₃ hInv fault hMay _ => ?_
    · obtain ⟨hHeld', hSame⟩ := hInv.1.rely hR
      exact ⟨hHeld', hSame.trans hInv.2⟩
    · cases fault with
      | true => cases hM _ _ (hMay rfl)
      | false =>
        obtain ⟨hAway, hReleased⟩ := hInv.1.exec_unlock hG false
        refine ⟨hAway, fun a ha => ⟨h', ?_, hReleased⟩⟩
        rw [faulted_exec_false, hInv.2]
        exact hH a ha
  · rintro e S₂ ⟨_, _, hEq, -⟩
    cases hEq

end Locking

-- ---------------------------------------------------------------------------
-- Writers
-- ---------------------------------------------------------------------------

namespace Operation

/-- What the program finds outside the index directory: the crawl gives the files, and the
merges were staged by the process itself. -/
def Prepared (pid : Pid) (d : Dir) : Operation → Prop
  | build w _ files | update w _ files => w.crawl = .ok files
  | delete _ _ => True
  | merge _ xs => ∀ x ∈ xs, x.merge.tag.pid = pid ∧ ∀ f ∈ x.files, d.lookup f.1 = some f.2

/-- The index `B` is what the operation commits over `prev`, with all that its plan gives. -/
def Leads (op : Operation) (prev : Option Index) (B : Index) : Prop :=
  ∃ retire, (op.plan prev).Gives prev op.staged B retire

/-- Nothing, or what the operation commits, was committed after `h`. -/
def Appends (op : Operation) (h h' : List Index) : Prop :=
  h' = h ∨ ∃ B, op.Leads h.head? B ∧ h' = B :: h

/-- The same, with room for the operation, a directory that it was prepared for, and all that its
plan gives. -/
def Adds (op : Operation) (pid : Pid) (h h' : List Index) : Prop :=
  h' = h ∨ ∃ B retire, op.HasRoom h.head? ∧
    (∃ d, op.Prepared pid d ∧ ∀ I ∈ h.head?, I.Backed d) ∧
    (op.plan h.head?).Gives h.head? op.staged B retire ∧ h' = B :: h

variable {M : Mode} {op : Operation} {pid : Pid} {rl : List (Option Index)} {h : List Index}
  {D : Dir} {S : Sys} {F G : List Index → Prop}

open Sys

theorem Adds.appends {h' : List Index} (hAdds : op.Adds pid h h') : op.Appends h h' := by
  rcases hAdds with rfl | ⟨B, retire, -, -, hGives, rfl⟩
  · exact .inl rfl
  · exact .inr ⟨B, ⟨retire, hGives⟩, rfl⟩

theorem HasRoom.room {prev : Option Index} (hRoom : op.HasRoom prev) : op.Room prev := by
  match op, prev with
  | build _ _ _, _ => exact hRoom
  | update _ _ _, none => exact hRoom
  | update _ _ _, some I => exact hRoom
  | delete _ _, some I => exact hRoom
  | merge _ _, some I => exact hRoom.2
  | delete _ _, none => trivial
  | merge _ _, none => trivial

/-- What is prepared is in the staged files of the process itself. -/
theorem Prepared.of_own {d d' : Dir} (hPrep : op.Prepared pid d)
    (hOwn : ∀ n, n.isStaged = true → n.foreign pid = false → d'.lookup n = d.lookup n) :
    op.Prepared pid d' := by
  cases op with
  | merge now xs =>
    refine fun x hx => ⟨(hPrep x hx).1, fun f hf => ?_⟩
    rw [← (hPrep x hx).2 f hf]
    simp only [StagedMerge.files, List.mem_cons, List.not_mem_nil, or_false] at hf
    rcases hf with rfl | rfl <;> exact hOwn _ rfl (by simp [FileName.foreign, (hPrep x hx).1])
  | build | update | delete => exact hPrep

theorem Prepared.staged {d : Dir} (hPrep : op.Prepared pid d) :
    ∀ f ∈ op.staged, d.lookup f.1 = some f.2 := by
  intro f hf
  cases op with
  | merge now xs =>
    obtain ⟨x, hx, hFile⟩ := List.mem_flatMap.mp hf
    exact (hPrep x hx).2 f hFile
  | build | update | delete => cases hf

/-- The plan of the operation, carried out under the lock. -/
theorem wp_writeAndCommit_plan (hK : Known pid rl D h false S) (hRoom : op.HasRoom h.head?)
    (hPrep : op.Prepared pid D) :
    (writeAndCommit (op.plan h.head?)).run.wp (M.contract pid)
      (fun _ S' => ∃ h', op.Adds pid h h' ∧ Held pid rl h' S') S := by
  have hV := hK.1
  have hSound : ∀ I ∈ h.head?, I.Sound := fun I hI =>
    hV.good.sound_current I (hV.current.trans hI)
  have hHolds : ∀ I ∈ h.head?, I.Backed D := fun I hI =>
    openIndex_ok_iff.mp (hV.openIndex.trans (congrArg Except.ok hI))
  have hStaged : ∀ n ∈ op.stagedNames, n.isStaged = true ∧ n.foreign pid = false := by
    intro n hn
    refine ⟨isStaged_of_mem hn, ?_⟩
    cases op with
    | merge now xs =>
      obtain ⟨x, hx, hName⟩ := List.mem_flatMap.mp hn
      simp only [StagedMerge.names, List.mem_cons, List.not_mem_nil, or_false] at hName
      rcases hName with rfl | rfl <;> simp [FileName.foreign, (hPrep x hx).1]
    | build | update | delete => cases hn
  have hFiles := hPrep.staged
  refine Prog.wp_mono (wp_writeAndCommit
    (G := fun B => ∃ retire, (op.plan h.head?).Gives h.head? op.staged B retire) hV hK.2
    (plan_all hRoom.room) hStaged fun m retire hRes => ?_) ?_
  · obtain ⟨J, rfl, hGives, -⟩ := gives_leaves hSound hRes hRoom
    refine ⟨J, ⟨retire, hGives⟩, rfl, hGives.sound, hGives.evolves, ?_, hGives.retire_data⟩
    have hBacked := hGives.backed D hHolds hFiles
    rwa [Dir.committed, after_append] at hBacked
  · rintro r S' hOut
    cases r with
    | error e => exact ⟨h, .inl rfl, hOut.1⟩
    | ok u =>
      rcases hOut with ⟨-, hHeld⟩ | ⟨B, ⟨retire, hGives⟩, hHeld⟩
      · exact ⟨h, .inl rfl, hHeld⟩
      · exact ⟨_, .inr ⟨B, retire, hRoom, ⟨D, hPrep, hHolds⟩, hGives, rfl⟩, hHeld⟩

/-- The plan of an operation under the lock and then the final `open`. -/
theorem wp_withLock_reopen {body : FsE Unit} (hM : M.Reads) (hF : M.Keeps pid F)
    (hG : M.Keeps pid G) (hFG : ∀ h, F h → G h)
    (hCommit : ∀ S₀ h', M.admits pid S₀ → F S₀.hist → op.Adds pid S₀.hist h' → G h')
    (hS : Outside pid rl F D S)
    (hBody : ∀ S₀ S₁, Taken M pid rl F D S₀ S₁ → body.run.wp (M.contract pid)
      (fun _ S' => ∃ h', op.Adds pid S₀.hist h' ∧ Held pid rl h' S') S₁) :
    (withLock body >>= fun _ => reopen).run.wp (M.contract pid) (fun _ => Away pid G) S := by
  refine FsE.wp_bind (wp_withLock (H := fun _ _ _ => True) hM hF hFG hS
    fun S₀ S₁ hTaken => Prog.wp_mono (hBody S₀ S₁ hTaken) ?_)
      (fun _ S₁ hOut => wp_reopen hM hG hOut.1) fun _ _ hOut => hOut.1
  rintro r S' ⟨h', hAdds, hHeld⟩
  exact ⟨h', hCommit S₀ _ hTaken.admitted hTaken.outside.hist hAdds, hHeld, fun _ _ => trivial⟩

/-- Creating the directory fails, or changes nothing. -/
theorem wp_createDirAll (hF : M.Keeps pid F) (hS : Outside pid rl F D S) :
    (FsE.call (Prog.op FsOp.createDirAll)).run.wp (M.contract pid)
      (Ends (fun _ => Outside pid rl F D) (Away pid F)) S := by
  refine FsE.wp_call (wp_op (Outside pid rl F D) hS (fun _ _ hInv hR => hInv.rely hF hR)
    (fun _ _ => trivial) fun S₁ hS₁ fault _ _ => ?_)
  have hAllow : Allows pid .createDirAll S₁ := trivial
  have hAway := hS₁.toAway.exec hAllow (by rintro ⟨⟩) fault
  cases fault with
  | true => exact hAway
  | false => exact ⟨hAway, hS₁.released, hS₁.unfaulted, hS₁.own⟩

/-- A build commits its plan over the index it finds under the lock, or nothing. -/
theorem wp_buildIndex {w : World} {cfg : BuildConfig} {files : List CrawledFile}
    (hM : M.Reads) (hF : M.Keeps pid F) (hG : M.Keeps pid G) (hFG : ∀ h, F h → G h)
    (hCommit : ∀ S₀ h', M.admits pid S₀ → F S₀.hist → (build w cfg files).Adds pid S₀.hist h' →
      G h')
    (hCrawl : ∀ files', w.crawl = .ok files' → files' = files)
    (hRoom : w.crawl = .ok files → ∀ S₀, M.admits pid S₀ → Outside pid rl F D S₀ →
      (build w cfg files).HasRoom S₀.hist.head?)
    (hS : Outside pid rl F D S) :
    (buildIndex w cfg).run.wp (M.contract pid) (fun _ => Away pid G) S := by
  unfold buildIndex
  split
  · exact hS.toAway.mono hFG
  · refine FsE.wp_bind (wp_createDirAll hF hS) (fun _ S₁ hS₁ => ?_)
      fun _ _ hAway => hAway.mono hFG
    refine wp_withLock_reopen hM hF hG hFG hCommit hS₁ ?_
    intro S₀ S₂ hTaken
    refine FsE.wp_bind (wp_openIndex_held hM hTaken.known) ?_ (by rintro e S₃ ⟨⟨⟩, -⟩)
    rintro _ S₃ ⟨⟨⟩, hK⟩
    cases hFiles : w.crawl with
    | error e => exact ⟨_, .inl rfl, hK.1.toHeld⟩
    | ok files' =>
      obtain rfl := hCrawl files' hFiles
      exact wp_writeAndCommit_plan hK (hRoom hFiles S₀ hTaken.admitted hTaken.outside) hFiles

/-- The second part of an update, under the lock. -/
theorem wp_updateLocked {w : World} {cfg : BuildConfig} {files : List CrawledFile}
    (hM : M.Reads) (hCrawl : ∀ files', w.crawl = .ok files' → files' = files)
    (hRoom : w.crawl = .ok files → ∀ I ∈ h.head?, (updateChanges w I files).isEmpty = false →
      (update w cfg files).HasRoom (some I))
    (hK : Known pid rl D h false S) :
    (updateLocked w cfg).run.wp (M.contract pid)
      (fun _ S' => ∃ h', (update w cfg files).Adds pid h h' ∧ Held pid rl h' S') S := by
  unfold updateLocked
  refine FsE.wp_bind (wp_openIndex_held hM hK) ?_ (by rintro e S₁ ⟨⟨⟩, -⟩)
  rintro _ S₁ ⟨⟨⟩, hK₁⟩
  cases hHead : h.head? with
  | none => exact ⟨h, .inl rfl, hK₁.1.toHeld⟩
  | some I =>
    change (FsE.ofExcept w.crawl >>= fun files =>
      if (updateChanges w I files).isEmpty then pure (some I)
      else writeAndCommit (updatePlan w cfg I (updateChanges w I files).changes) >>=
        fun _ => pure none).run.wp _ _ S₁
    cases hFiles : w.crawl with
    | error e => exact ⟨_, .inl rfl, hK₁.1.toHeld⟩
    | ok files' =>
      obtain rfl := hCrawl files' hFiles
      change (if (updateChanges w I files').isEmpty then pure (some I)
        else writeAndCommit (updatePlan w cfg I (updateChanges w I files').changes) >>=
          fun _ => pure none : FsE _).run.wp _ _ S₁
      split
      · exact ⟨h, .inl rfl, hK₁.1.toHeld⟩
      · rename_i hEmpty
        have hPlan : (update w cfg files').plan h.head? =
            updatePlan w cfg I (updateChanges w I files').changes := by
          rw [hHead, plan, if_neg hEmpty]
        rw [← hPlan]
        refine FsE.wp_bind (wp_writeAndCommit_plan hK₁ ?_ hFiles) (fun _ _ hOut => hOut)
          fun _ _ hOut => hOut
        rw [hHead]
        exact hRoom hFiles I hHead (by simpa using hEmpty)

/-- An update looks at the index under the lock, gives the lock up, and then builds where there
was no index, or commits its plan over the index it finds then. -/
theorem wp_updateIndex {w : World} {cfg : BuildConfig} {files : List CrawledFile}
    (hM : M.Reads) (hF : M.Keeps pid F) (hG : M.Keeps pid G) (hFG : ∀ h, F h → G h)
    (hCommit : ∀ S₀ h', M.admits pid S₀ → F S₀.hist → (update w cfg files).Adds pid S₀.hist h' →
      G h')
    (hCommitBuild : ∀ h₀ S₀ h', F h₀ → h₀.head? = none → M.admits pid S₀ → F S₀.hist →
      (build w cfg files).Adds pid S₀.hist h' →
      G h')
    (hCrawl : ∀ files', w.crawl = .ok files' → files' = files)
    (hRoom : w.crawl = .ok files → ∀ I, ∀ S₀, M.admits pid S₀ → S₀.Good →
      S₀.released pid = rl ++ [some I] → F S₀.hist → ∀ J ∈ S₀.hist.head?,
        (updateChanges w J files).isEmpty = false → (update w cfg files).HasRoom (some J))
    (hRoomBuild : ∀ h₀, F h₀ → h₀.head? = none → w.crawl = .ok files → ∀ S₀,
      M.admits pid S₀ → S₀.Good → S₀.released pid = rl ++ [none] → F S₀.hist →
        (build w cfg files).HasRoom S₀.hist.head?)
    (hS : Outside pid rl F D S) :
    (updateIndex w cfg).run.wp (M.contract pid) (fun _ => Away pid G) S := by
  unfold updateIndex
  split
  · exact hS.toAway.mono hFG
  · refine FsE.wp_bind (wp_createDirAll hF hS) (fun _ S₁ hS₁ => ?_)
      fun _ _ hAway => hAway.mono hFG
    -- The index is opened once to see whether there is one.
    refine FsE.wp_bind (wp_withLock (G := F) (H := fun prev h' b => prev = h'.head? ∧ b = false ∧
      F h') hM hF (fun _ => id) hS₁ fun S₀ S₂ hTaken => Prog.wp_mono
        (wp_openIndex_held hM hTaken.known) ?_) ?_ fun _ _ hOut => hOut.1.mono hFG
    · rintro _ S₃ ⟨rfl, hK⟩
      refine ⟨_, hTaken.outside.hist, hK.1.toHeld, ?_⟩
      rintro _ ⟨⟩
      exact ⟨rfl, hK.2, hTaken.outside.hist⟩
    · rintro prev S₂ ⟨hAway, hPrev⟩
      obtain ⟨h₀, ⟨rfl, hUnfaulted, hF₀⟩, hReleased⟩ := hPrev prev rfl
      have hS₂ : Outside pid (rl ++ [h₀.head?]) F S₂.dir S₂ :=
        ⟨hAway, hReleased, hUnfaulted, fun _ _ _ => rfl⟩
      split
      · rename_i hNone
        have hHead : h₀.head? = none := by simpa using hNone
        rw [hHead] at hS₂
        exact wp_buildIndex hM hF hG hFG (hCommitBuild h₀ · · hF₀ hHead) hCrawl
          (fun hFiles S₀ hAdmits hOut => hRoomBuild h₀ hF₀ hHead hFiles S₀ hAdmits hOut.good
            hOut.released hOut.hist) hS₂
      · rename_i hSome
        obtain ⟨I, hHead⟩ : ∃ I, h₀.head? = some I := by
          cases hHead : h₀.head? with
          | none => simp [hHead] at hSome
          | some I => exact ⟨I, rfl⟩
        rw [hHead] at hS₂
        refine FsE.wp_bind (wp_withLock (G := G) (H := fun _ _ _ => True) hM hF hFG hS₂
          fun S₀ S₃ hTaken => Prog.wp_mono (wp_updateLocked hM hCrawl (fun hFiles =>
            hRoom hFiles I S₀ hTaken.admitted hTaken.outside.good hTaken.outside.released
              hTaken.outside.hist) hTaken.known) ?_) ?_ fun _ _ hOut => hOut.1
        · rintro r S₄ ⟨h', hAdds, hHeld⟩
          exact ⟨h', hCommit S₀ _ hTaken.admitted hTaken.outside.hist hAdds, hHeld,
            fun _ _ => trivial⟩
        · rintro r S₃ ⟨hAway₃, -⟩
          cases r with
          | some I => exact hAway₃
          | none => exact wp_reopen hM hG hAway₃

/-- Removing the staged files of merges commits nothing. -/
theorem wp_discardAll {xs : List StagedMerge} (hS : Held pid rl h S)
    (hPrep : ∀ x ∈ xs, x.merge.tag.pid = pid) :
    (discardAll (xs.map StagedMerge.merge)).wp (M.contract pid)
      (fun _ => Held pid rl h) S := by
  induction xs generalizing S with
  | nil => exact hS
  | cons x xs ih =>
    obtain ⟨hHead, hTail⟩ := List.forall_mem_cons.mp hPrep
    refine Prog.wp_seq (wp_removeAll hS fun n hn => ?_) fun _ S₁ hS₁ => ih hS₁.1 hTail
    simp only [List.mem_cons, List.not_mem_nil, or_false] at hn
    rcases hn with rfl | rfl <;>
      exact .inl ⟨rfl, by simp [FileName.foreign, hHead]⟩

/-- The commit of prepared merges. -/
theorem wp_commitMerges {now : Int64} {xs : List StagedMerge} (hM : M.Reads)
    (hF : M.Keeps pid F) (hG : M.Keeps pid G) (hFG : ∀ h, F h → G h)
    (hCommit : ∀ S₀ h', M.admits pid S₀ → F S₀.hist → (merge now xs).Adds pid S₀.hist h' → G h')
    (hRoom : ∀ S₀, M.admits pid S₀ → Outside pid rl F D S₀ →
      (merge now xs).HasRoom S₀.hist.head?)
    (hPrep : (merge now xs).Prepared pid D) (hS : Outside pid rl F D S) :
    (commitMerges now (xs.map StagedMerge.merge)).run.wp (M.contract pid)
      (fun _ => Away pid G) S := by
  unfold commitMerges
  split
  · refine FsE.wp_bind (P := fun _ => Away pid F) (wp_openIndex_away hM hF hS.toAway)
      (fun r S₁ hS₁ => ?_) fun _ _ hAway => hAway.mono hFG
    cases r <;> exact hS₁.mono hFG
  · refine wp_withLock_reopen hM hF hG hFG hCommit hS ?_
    intro S₀ S₁ hTaken
    refine FsE.wp_bind (P := fun r S' => r = .ok (.ok S₀.hist.head?) ∧
      Known pid rl S₀.dir S₀.hist false S') (FsE.wp_attempt (Prog.wp_mono
        (wp_openIndex_held hM hTaken.known) ?_)) ?_ (by rintro e S₂ ⟨⟨⟩, -⟩)
    · rintro _ S₂ ⟨rfl, hK⟩
      exact ⟨rfl, hK⟩
    · rintro _ S₂ ⟨⟨⟩, hK⟩
      have hPrep₀ := hPrep.of_own hTaken.outside.own
      have hRoom₀ := hRoom S₀ hTaken.admitted hTaken.outside
      cases hHead : S₀.hist.head? with
      | some I =>
        have hPlan : (merge now xs).plan S₀.hist.head? =
            mergePlan now I (xs.map StagedMerge.merge) := by
          rw [hHead]
          rfl
        change (writeAndCommit (mergePlan now I (xs.map StagedMerge.merge))).run.wp _ _ S₂
        rw [← hPlan]
        exact wp_writeAndCommit_plan hK hRoom₀ hPrep₀
      | none =>
        refine FsE.wp_bind (P := fun _ => Held pid rl S₀.hist) (FsE.wp_ofM
          (wp_discardAll hK.1.toHeld fun x hx => (hPrep₀ x hx).1)) (fun _ _ hH => ?_)
            fun _ _ hH => ⟨_, .inl rfl, hH⟩
        exact ⟨_, .inl rfl, hH⟩

end Operation

end Ripindex
