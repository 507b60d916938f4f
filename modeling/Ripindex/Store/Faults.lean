import Ripindex.Store.Locking

/-!
# A writer with faults

One writer runs alone; any of its operations on files, names and the lock may fail, and it
may be cut after any of them. What is then on disk is decided by one operation, the rename
of its commit.

## Results

* `Operation.wp_program` — a writer commits its plan, or nothing;
* `Operation.all_or_nothing` — wherever it is cut.
-/

namespace Ripindex

variable [Platform]

-- ---------------------------------------------------------------------------
-- Alone
-- ---------------------------------------------------------------------------

/-- A process alone: nothing happens between its operations, of which some may fail. -/
def Mode.alone : Mode where
  mayFault := fun o _ => o.fallible = true
  admits := fun _ _ => True
  rely := fun _ S S' => S' = S
  rely_ok := by
    rintro pid S _ hS rfl
    exact Sys.Rely.refl hS

theorem Mode.alone_reads : Mode.alone.Reads := fun _ _ hMay => hMay

theorem Mode.alone_keeps (pid : Pid) (F : List Index → Prop) : Mode.alone.Keeps pid F := by
  rintro S _ rfl
  exact id

namespace Operation

/-- The program of the operation; the handle of a deletion is up to date. -/
def program : Operation → Option Index → FsE Index
  | build w cfg _, _ => buildIndex w cfg
  | update w cfg _, _ => updateIndex w cfg
  | delete now ids, some I => deleteDocs now I ids
  | delete _ _, none => throw .noIndex
  | merge now xs, _ => commitMerges now (xs.map StagedMerge.merge)

variable {op : Operation} {pid : Pid} {h : List Index} {S : Sys} {rl : List (Option Index)}

open Sys

/-- The program of an operation with room commits its plan, or nothing. -/
theorem wp_program (hS : Outside pid rl (· = h) S.dir S) (hRoom : op.HasRoom h.head?)
    (hPrep : op.Prepared pid S.dir) :
    (op.program h.head?).run.wp (Mode.alone.contract pid) (fun _ => Away pid (op.Appends h)) S := by
  have hFG : ∀ h', h' = h → op.Appends h h' := fun h' hEq => .inl hEq
  have hCommit : ∀ (S₀ : Sys) h₂, Mode.alone.admits pid S₀ → S₀.hist = h →
      op.Adds pid S₀.hist h₂ → op.Appends h h₂ := by
    rintro S₀ h₂ - rfl
    exact Adds.appends
  have hOne : ∀ {w : World} {files : List CrawledFile}, w.crawl = .ok files →
      ∀ files', w.crawl = .ok files' → files' = files := by
    intro w files hCrawl files' hCrawl'
    rw [hCrawl] at hCrawl'
    exact (Except.ok.inj hCrawl').symm
  cases op with
  | build w cfg files =>
    refine wp_buildIndex Mode.alone_reads (Mode.alone_keeps _ _) (Mode.alone_keeps _ _) hFG hCommit
      (hOne hPrep) (fun _ S₀ _ hOut => ?_) hS
    rw [hOut.hist]
    exact hRoom
  | update w cfg files =>
    refine wp_updateIndex Mode.alone_reads (Mode.alone_keeps _ _) (Mode.alone_keeps _ _) hFG hCommit
      ?_ (hOne hPrep) ?_ ?_ hS
    · -- Over no index an update is a build.
      rintro h₀ S₀ h₂ rfl hHead - hHist hAdds
      have hAppends := hAdds.appends
      rw [hHist] at hAppends
      unfold Appends Leads at hAppends ⊢
      rw [hHead] at hAppends ⊢
      exact hAppends
    · rintro - I S₀ - - - rfl J hJ -
      rwa [Option.mem_def.mp hJ] at hRoom
    · rintro _ rfl hHead - S₀ - - - hHist
      rw [hHist]
      rw [hHead] at hRoom ⊢
      exact hRoom
  | delete now ids =>
    cases hHead : h.head? with
    | none => exact hS.toAway.mono fun h₁ hEq => .inl hEq
    | some I =>
      have hPlan : (delete now ids).plan h.head? = deletePlan now I ids := by
        rw [hHead]
        rfl
      refine wp_withLock_reopen Mode.alone_reads (Mode.alone_keeps _ _) (Mode.alone_keeps _ _)
        hFG hCommit hS fun S₀ S₁ hTaken => ?_
      have hHist := hTaken.outside.hist
      have hK := hTaken.known
      rw [hHist] at hK ⊢
      rw [← hPlan]
      exact wp_writeAndCommit_plan hK hRoom trivial
  | merge now xs =>
    refine wp_commitMerges Mode.alone_reads (Mode.alone_keeps _ _) (Mode.alone_keeps _ _) hFG
      hCommit (fun S₀ _ hOut => ?_) hPrep hS
    rw [hOut.hist]
    exact hRoom

end Operation

-- ---------------------------------------------------------------------------
-- Cuts
-- ---------------------------------------------------------------------------

/-- A file system that is observed: how many operations there were, whether one of them
failed by a fault, and whether a manifest was renamed into place. -/
structure Bench where
  fs : FsState
  count : Nat
  failed : Bool
  renamed : Bool

namespace Bench

/-- Nothing has happened yet. -/
def start (s : FsState) : Bench := ⟨s, 0, false, false⟩

/-- The operation puts a manifest in place. -/
def commits (t : Bench) (fault : Bool) (o : FsOp) : Bool :=
  match o, fault with
  | .rename (.tmp .manifest) .manifest, false => decide (FileName.tmp .manifest ∈ t.fs.dir)
  | _, _ => false

/-- Execute one operation, which fails if its number is among `faults` and it can fail. -/
def exec (faults : Nat → Bool) (pid : Pid) (o : FsOp) (t : Bench) : o.Res × Bench :=
  let fault := faults t.count && o.fallible
  let out := o.exec pid fault t.fs
  (out.1,
    { fs := out.2
      count := t.count + 1
      failed := t.failed || fault
      renamed := t.renamed || t.commits fault o })

/-- The process ends, and whoever opens the directory then gets `I`. -/
def Reopens (t : Bench) (pid : Pid) (I : Option Index) : Prop :=
  ∀ c, ∃ s', FsE.runAlone c openIndex (t.fs.release pid) = (.ok I, s')

end Bench

section Cut

variable {pid : Pid} {S : Sys} {α : Type}

open Sys

/-- A commit adds one index to the history, and nothing else does. -/
theorem length_hist_exec {o : FsOp} (hAllow : Allows pid o S) (fault : Bool) :
    (S.exec pid fault o).2.hist.length =
      S.hist.length + if S.commits fault o then 1 else 0 := by
  by_cases hCommits : S.commits fault o = true
  · have hShape : o = .rename (.tmp .manifest) .manifest ∧ fault = false ∧
        FileName.tmp .manifest ∈ S.dir := by
      unfold Sys.commits at hCommits
      split at hCommits
      · exact ⟨rfl, rfl, by simpa using hCommits⟩
      · cases hCommits
    obtain ⟨rfl, rfl, hMem⟩ := hShape
    obtain ⟨-, hWrite | ⟨-, -, hPub⟩⟩ := hAllow
    · exact absurd rfl hWrite.ne_manifest
    · obtain ⟨I, hBacked, -⟩ := hPub.next
      obtain ⟨-, -, hHist, -⟩ := exec_rename_manifest pid hMem
      rw [hHist, histAfter, openIndex_ok_iff.mpr hBacked, if_pos hCommits]
      rfl
  · have hSame : (S.exec pid fault o).2.hist = S.hist := if_neg hCommits
    rw [hSame, if_neg hCommits]
    rfl

/-- A program that keeps to its contract can end. -/
theorem exists_end {p : FsM α} {Q : α → Sys → Prop}
    (h : p.wp (Mode.alone.contract pid) Q S) : ∃ a S', Q a S' ∧ S.hist <:+ S'.hist := by
  induction p generalizing S with
  | ret a => exact ⟨a, S, h, List.suffix_refl _⟩
  | call o k ih =>
    obtain ⟨hAllow, hNext⟩ := h S rfl
    obtain ⟨a, S', hQ, hSuffix⟩ := ih _ (hNext _ _ ⟨false, by simp, fun _ _ _ => trivial, rfl⟩)
    exact ⟨a, S', hQ, (hist_exec hAllow false).trans hSuffix⟩

omit [Platform] in
theorem Bench.commits_eq {t : Bench} (hFs : S.fs = t.fs) (fault : Bool) (o : FsOp) :
    t.commits fault o = S.commits fault o := by
  obtain ⟨fs, count, failed, renamed⟩ := t
  obtain rfl : S.fs = fs := hFs
  rfl

/-- Wherever a program is cut: the directory opens to the newest index of the history, the
history has grown exactly if a manifest was renamed, and it is a part of one the program can
end with. -/
theorem wp_evalN (faults : Nat → Bool) {p : FsM α} {Q : α → Sys → Prop} {t : Bench}
    (hS : S.Good) (hFs : S.fs = t.fs) (h : p.wp (Mode.alone.contract pid) Q S) (n : Nat) :
    ∃ S' : Sys, S'.Good ∧ S'.fs = (p.evalN (Bench.exec faults pid) n t).2.fs ∧ S.hist <:+ S'.hist ∧
      ((p.evalN (Bench.exec faults pid) n t).2.renamed = true ↔
        t.renamed = true ∨ S.hist.length < S'.hist.length) ∧
      ∃ a S'', Q a S'' ∧ S'.hist <:+ S''.hist := by
  induction p generalizing S t n with
  | ret a => exact ⟨S, hS, by simpa [Prog.evalN] using hFs, List.suffix_refl _,
      by simp [Prog.evalN], a, S, h, List.suffix_refl _⟩
  | call o k ih =>
    cases n with
    | zero => exact ⟨S, hS, hFs, List.suffix_refl _, by simp [Prog.evalN], exists_end h⟩
    | succ n =>
      obtain ⟨hAllow, hNext⟩ := h S rfl
      set fault := faults t.count && o.fallible with hFault
      have hGood := hS.exec hAllow fault
      have hLen := length_hist_exec hAllow fault
      have hGrows := hist_exec hAllow fault
      have hOut : (t.exec faults pid o).1 = (S.exec pid fault o).1 ∧
          (S.exec pid fault o).2.fs = (t.exec faults pid o).2.fs := by
        unfold Bench.exec Sys.exec
        rw [hFs, hFault]
        exact ⟨rfl, rfl⟩
      have hMay : fault = true → o.fallible = true := fun hTrue => by
        rw [hFault, Bool.and_eq_true] at hTrue
        exact hTrue.2
      have hRest := hNext (S.exec pid fault o).1 (S.exec pid fault o).2
        ⟨fault, hMay, fun _ _ _ => trivial, rfl⟩
      obtain ⟨S', hGood', hFs', hSuffix, hRenamed, hEnd⟩ :=
        ih _ hGood hOut.2 hRest n
      rw [← hOut.1] at hFs' hRenamed
      refine ⟨S', hGood', hFs', hGrows.trans hSuffix, hRenamed.trans ?_, hEnd⟩
      have hLe := hSuffix.length_le
      change (t.renamed || t.commits fault o) = true ∨ _ ↔ _
      rw [Bench.commits_eq hFs, Bool.or_eq_true]
      cases hC : S.commits fault o with
      | true =>
        rw [hC, if_pos rfl] at hLen
        simp only [or_true, true_or, true_iff]
        exact .inr (by omega)
      | false =>
        rw [hC] at hLen
        simp only [Bool.false_eq_true, or_false, if_false, Nat.add_zero] at hLen ⊢
        rw [hLen]

/-- Opening a directory that holds an index, or none, returns it. -/
theorem run_openIndex_of_holds {prev : Option Index} {c : Pid} {s : FsState}
    (h : s.dir.Holds prev) : ∃ s', FsE.runAlone c openIndex s = (.ok prev, s') := by
  cases prev with
  | some I =>
    obtain ⟨s', hRun, -⟩ := run_openIndex_of_backed (c := c) h
    exact ⟨s', hRun⟩
  | none =>
    obtain ⟨s₁, hSame, hOnce⟩ := run_openOnce (c := c) s
    have hNone : s₁.dir.openIndex = .ok none := by
      change readIndex.eval s₁.dir = _
      unfold readIndex
      rw [ReadE.eval_bind, eval_readManifest, hSame.1, show s.dir.lookup .manifest = none from h]
      rfl
    refine ⟨s₁, ?_⟩
    change FsE.runAlone c (openAttempts none maxAttempts) s = _
    unfold maxAttempts openAttempts
    rw [FsE.runAlone_bind, FsE.runAlone_attempt, hOnce, hNone]
    rfl

end Cut

namespace Operation

variable {op : Operation} {prev : Option Index} {pid : Pid} {s : FsState}

/-- The state of the directory after at most `n` operations of the program. -/
def cut (op : Operation) (prev : Option Index) (pid : Pid) (faults : Nat → Bool) (n : Nat)
    (s : FsState) : Bench :=
  ((op.program prev).run.evalN (Bench.exec faults pid) n (.start s)).2

/-- Before the rename the directory holds what it held, afterwards what the operation
commits. -/
theorem holds_cut (hHolds : s.dir.Holds prev) (hSound : ∀ I ∈ prev, I.Sound)
    (hLock : s.lock = none) (hRoom : op.HasRoom prev) (hPrep : op.Prepared pid s.dir)
    (faults : Nat → Bool) (n : Nat) :
    ((op.cut prev pid faults n s).renamed = false ∧
      (op.cut prev pid faults n s).fs.dir.Holds prev) ∨
    ((op.cut prev pid faults n s).renamed = true ∧
      ∃ B, op.Leads prev B ∧ (op.cut prev pid faults n s).fs.dir.Holds (some B)) := by
  have hOut : Sys.Outside pid [] (· = prev.toList) s.dir (.start s prev) := by
    refine ⟨⟨.start hHolds hSound, ?_, rfl⟩, rfl, rfl, fun _ _ _ => rfl⟩
    change s.lock ≠ some pid
    rw [hLock]
    simp
  have hHead : prev.toList.head? = prev := by
    cases prev <;> rfl
  have hWp : (op.program prev.toList.head?).run.wp (Mode.alone.contract pid) _
      (Sys.start s prev) := wp_program hOut (by rwa [hHead]) hPrep
  rw [hHead] at hWp
  obtain ⟨S', hGood, hFs, hSuffix, hRenamed, -, S'', hEnd, hRest⟩ :=
    wp_evalN (t := .start s) faults hOut.good rfl hWp n
  have hAppends := hEnd.hist
  generalize S''.hist = h' at hAppends hRest
  change prev.toList <:+ S'.hist at hSuffix
  -- What can be opened is the newest index of the history.
  have hDir : ∀ I, S'.current = I →
      (op.cut prev pid faults n s).fs.dir.Holds I := by
    intro I hI
    have hState : (op.cut prev pid faults n s).fs.dir = S'.dir := congrArg FsState.dir hFs.symm
    rw [hState]
    cases I with
    | none => exact hGood.absent hI
    | some I => exact hGood.backed I hI
  have hSame : S'.hist = prev.toList → (op.cut prev pid faults n s).renamed = false ∧
      (op.cut prev pid faults n s).fs.dir.Holds prev := by
    intro hHist
    refine ⟨?_, hDir prev (by rw [Sys.current, hHist, hHead])⟩
    rw [← Bool.not_eq_true]
    refine mt hRenamed.mp ?_
    rw [hHist]
    simp [Bench.start, Sys.start]
  rcases hAppends with rfl | ⟨B, hLeads, rfl⟩
  · exact .inl (hSame (hRest.eq_of_length_le hSuffix.length_le))
  · rcases List.suffix_cons_iff.mp hRest with hHist | hOld
    · rw [hHead] at hLeads
      refine .inr ⟨hRenamed.mpr (.inr ?_), B, hLeads, hDir (some B) ?_⟩
      · rw [hHist]
        exact Nat.lt_succ_self _
      · rw [Sys.current, hHist]
        rfl
    · exact .inl (hSame (hOld.eq_of_length_le hSuffix.length_le))

/-- A writer with room is all or nothing: wherever it is cut and whichever of its operations
fail, opening gives what there was as long as no manifest was renamed into place, and what
the writer commits once it was. -/
theorem all_or_nothing (hHolds : s.dir.Holds prev) (hSound : ∀ I ∈ prev, I.Sound)
    (hLock : s.lock = none) (hRoom : op.HasRoom prev) (hPrep : op.Prepared pid s.dir)
    (faults : Nat → Bool) (n : Nat) :
    ((op.cut prev pid faults n s).renamed = false ∧
      (op.cut prev pid faults n s).Reopens pid prev) ∨
    ((op.cut prev pid faults n s).renamed = true ∧
      ∃ B, op.Leads prev B ∧ (op.cut prev pid faults n s).Reopens pid (some B)) := by
  have hOpen : ∀ I, (op.cut prev pid faults n s).fs.dir.Holds I →
      (op.cut prev pid faults n s).Reopens pid I := fun I hI c =>
    run_openIndex_of_holds (by rwa [FsState.release_dir])
  rcases holds_cut hHolds hSound hLock hRoom hPrep faults n with
    ⟨hRenamed, hOld⟩ | ⟨hRenamed, B, hLeads, hNew⟩
  · exact .inl ⟨hRenamed, hOpen prev hOld⟩
  · exact .inr ⟨hRenamed, B, hLeads, hOpen _ hNew⟩

/-- A first build of one file. -/
def smallBuild : Operation :=
  build (LiveHistory.smallWorld [LiveHistory.smallFile]) LiveHistory.smallConfig
    [LiveHistory.smallFile]

omit [Platform] in
/-- Without a fault it commits, in an empty directory. -/
theorem all_or_nothing_small : ∃ _ : Platform, ∃ B, smallBuild.Leads none B ∧
    (smallBuild.cut none 0 (fun _ => false) 18 ⟨∅, none, 0⟩).Reopens 0 (some B) := by
  refine ⟨Platform.reference, ?_⟩
  let _ := Platform.reference
  have hRenamed : (smallBuild.cut none 0 (fun _ => false) 18 ⟨∅, none, 0⟩).renamed = true := by
    decide +kernel
  rcases @all_or_nothing _ smallBuild none 0 ⟨∅, none, 0⟩ (AList.lookup_empty _) (by simp) rfl
    (LiveHistory.small_builds (.inr rfl)).2 rfl (fun _ => false) 18 with ⟨hNot, -⟩ | ⟨-, hNew⟩
  · rw [hRenamed] at hNot
    cases hNot
  · exact hNew

omit [Platform] in
/-- A build opens the index under its lock, and the probe of the lock there may fail without
any consequence: the build goes on and commits. -/
theorem probe_fault_commits : ∃ _ : Platform, ¬ ∀ (op : Operation) (prev : Option Index)
    (pid : Pid) (s : FsState) (k n : Nat), s.dir.Holds prev → (∀ I ∈ prev, I.Sound) →
      s.lock = none → op.HasRoom prev → op.Prepared pid s.dir →
        (op.cut prev pid (fun i => i == k) (k + 1) s).failed = true →
          (op.cut prev pid (fun i => i == k) (k + 1) s).renamed = false →
            (op.cut prev pid (fun i => i == k) n s).Reopens pid prev := by
  refine ⟨Platform.reference, fun hAll => ?_⟩
  let _ := Platform.reference
  have hRoom := (LiveHistory.small_builds (.inr rfl)).2
  have hHolds : (∅ : Dir).Holds none := AList.lookup_empty _
  obtain ⟨s', hRun⟩ := hAll smallBuild none 0 ⟨∅, none, 0⟩ 2 18 hHolds (by simp) rfl hRoom rfl
    (by decide +kernel) (by decide +kernel) 0
  have hRenamed : (smallBuild.cut none 0 (fun i => i == 2) 18 ⟨∅, none, 0⟩).renamed = true := by
    decide +kernel
  rcases @holds_cut _ smallBuild none 0 ⟨∅, none, 0⟩ hHolds (by simp) rfl hRoom rfl
    (fun i => i == 2) 18 with ⟨hNot, -⟩ | ⟨-, B, -, hNew⟩
  · rw [hRenamed] at hNot
    cases hNot
  · rw [← FsState.release_dir _ 0] at hNew
    obtain ⟨s'', hRun'⟩ := run_openIndex_of_holds (c := 0) hNew
    cases hRun.symm.trans hRun'

end Operation

end Ripindex
