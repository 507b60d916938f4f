import Ripindex.Store.PowerLoss

/-!
# Writers and power losses

`commit` syncs the directory after it has renamed the manifest, and then removes the files that it
retired, also when the sync has failed. A power loss may then undo the rename and keep a removal:
the manifest before is back, and a file that it names is not. A sweep after a writer was killed
between the rename and the sync does the same. Every other run of the writers leaves one of the
two manifests with all its files, wherever the power fails.

## Results

* `power_loss_complete`   — what a power loss leaves, as long as files of the manifest before are
  kept while the rename of the last one is not durable;
* `removal_exposes_files` — a build whose second sync fails.
-/

namespace Ripindex

variable [Platform]

-- ---------------------------------------------------------------------------
-- Writers
-- ---------------------------------------------------------------------------

/-- What a process does: a task, or a deletion through a handle. -/
inductive Writer
  | task (t : Task)
  | delete (now : Int64) (I : Index) (ids : List DocId)

namespace Writer

def program : Writer → FsM Unit
  | task t => t.program
  | delete now I ids => (deleteDocs now I ids).run >>= fun _ => pure ()

/-- The counters suffice, and the handle of a deletion is that of the last commit. -/
def HasRoom : Writer → List (Option Index) → Option Index → Prop
  | task t, rl, cur => t.HasRoom rl cur
  | delete now I ids, [], cur => cur = some I ∧ (Operation.delete now ids).Fits cur
  | delete _ _ _, _ :: _, _ => True

open Sys

/-- A writer keeps to its contract. -/
theorem wp_program (w : Writer) {pid : Pid} {S : Sys}
    (hS : Outside pid [] (fun _ => True) S.dir S) :
    w.program.wp ((Mode.shared w.HasRoom).contract pid) (fun _ => Away pid fun _ => True) S := by
  cases w with
  | task t => exact t.wp_program hS
  | delete now I ids =>
    refine Prog.wp_seq (M := fun _ => Away pid fun _ => True) ?_ fun _ _ hAway => hAway
    have hReads := Mode.shared_reads (Writer.delete now I ids).HasRoom
    have hKeeps := Mode.shared_keeps (Writer.delete now I ids).HasRoom pid
    have hCommit : ∀ h h', (Operation.delete now ids).Adds pid h h' → True :=
      fun _ _ _ => trivial
    refine Operation.wp_withLock_reopen hReads hKeeps hKeeps (fun _ => id)
      (fun S₀ h' _ _ hAdds => hCommit S₀.hist h' hAdds) hS fun S₀ S₁ hTaken => ?_
    have hRoom := hTaken.admitted
    change Writer.HasRoom _ (S₀.released pid) S₀.current at hRoom
    rw [hTaken.outside.released] at hRoom
    obtain ⟨hCur, hFits⟩ := hRoom
    have hPlan : (Operation.delete now ids).plan S₀.hist.head? = deletePlan now I ids := by
      rw [show S₀.hist.head? = some I from hCur]
      rfl
    rw [← hPlan]
    exact Operation.wp_writeAndCommit_plan hTaken.known
      (hFits.hasRoom hTaken.outside.good.sound_current) trivial

/-- It syncs before it moves files into place. -/
theorem wp_ordered (w : Writer) (g : SyncState) (hg : g.renamed = false) :
    w.program.wp SyncState.contract (fun _ g' => g'.renamed = false) g := by
  cases w with
  | task t => exact t.wp_ordered hg
  | delete now I ids =>
    exact Prog.wp_seq (syncsFirst_deleteDocs now I ids g ⟨Set.empty_subset _, hg⟩) fun _ _ h => h.2

end Writer

/-- The writers on a directory with the disk under it. -/
def writersOnDisk (keeps : Disk FileName FileData → Sys → FsOp → Bool → Prop) :
    Pool FsOp FsOp.Res (Sys × Disk FileName FileData) Pid Writer :=
  diskPool Writer.program Writer.HasRoom keeps

-- ---------------------------------------------------------------------------
-- Power losses
-- ---------------------------------------------------------------------------

section PowerLoss

variable {prev : Option Index} {s : FsState}

theorem writers_fit : (sharedPool Writer.program Writer.HasRoom).Fits
    (fun pid S S' => Sys.Rely pid S S') Sys.Allows (fun pid S => S.fs.lock ≠ some pid) Sys.Good :=
  sharedPool_fit fun w _ _ => w.wp_program

theorem onDisk_of_writers (hHolds : s.dir.Holds prev) (hPrev : ∀ I ∈ prev, I.Sound)
    (hLock : s.lock = none) {c : (writersOnDisk KeepsReplaced).Conf}
    (hRun : (writersOnDisk KeepsReplaced).Run
      ((writersOnDisk KeepsReplaced).Idle (.start s prev, s.dir.mounted)) c) :
    AllInOrder (fun _ _ _ _ => True) prev.toList c :=
  AllInOrder.idle.run knownOf_keepsReplaced writers_fit Writer.wp_ordered hHolds hPrev hLock .refl
    hRun

/-- With the manifest durable nothing before the current index can come back. -/
theorem OnDisk.of_settled {start : List Index} {S : Sys} {K : Disk FileName FileData}
    (h : OnDisk start S K) (hSettled : ¬ K.Unsettled .manifest) : OnDisk S.hist S K :=
  { h with
    grown := List.suffix_refl _
    swapping := fun hWaits => absurd hWaits hSettled }

/-- Let the manifest of the current index be durable. Whatever writers then do, fail and are
killed, as long as none removes or replaces a file of the manifest before while the rename of the
last one is not durable: a power loss leaves the index that was committed last, or the one before
it, which is not older than the one at the beginning, with all its files. -/
theorem power_loss_complete (hHolds : s.dir.Holds prev) (hPrev : ∀ I ∈ prev, I.Sound)
    (hLock : s.lock = none) {c c' : (writersOnDisk KeepsReplaced).Conf}
    (hRun : (writersOnDisk KeepsReplaced).Run
      ((writersOnDisk KeepsReplaced).Idle (.start s prev, s.dir.mounted)) c)
    (hDurable : ¬ c.state.2.Unsettled .manifest)
    (hLater : (writersOnDisk KeepsReplaced).Run c c')
    {d : Dir} (hLoss : c'.state.2.Survives fun n => d.lookup n) :
    d.Holds c'.state.1.hist.head? ∨
      ∃ B h, c'.state.1.hist = B :: h ∧ c.state.1.hist <:+ h ∧ d.Holds h.head? := by
  obtain ⟨hDisk, hProcs⟩ := onDisk_of_writers hHolds hPrev hLock hRun
  obtain ⟨hGood, -⟩ := sound_of_run writers_fit hHolds hPrev hLock (hRun.trans hLater)
  have hNow := AllInOrder.run knownOf_keepsReplaced writers_fit Writer.wp_ordered hHolds hPrev hLock
    hRun ⟨hDisk.of_settled hDurable, hProcs⟩ hLater
  rcases hNow.disk.survives hGood hLoss with hLast | ⟨-, B, h, hHist, hGrown, hBefore⟩
  · exact .inl hLast
  · exact .inr ⟨B, h, hHist, hGrown, hBefore⟩

end PowerLoss

section Examples

open LiveHistory

/-- The build of one file. -/
def smallWriter : Writer := .task smallTask

/-- A process for which the sync of the directory fails right after the rename of a manifest. -/
def Sys.execUnsynced (pid : Pid) (o : FsOp) (s : Sys × Disk FileName FileData) :
    o.Res × (Sys × Disk FileName FileData) :=
  let fault := match o with
    | .syncDir => (s.2.pending.getLast?.bind fun c => c.on .manifest).isSome
    | _ => false
  ((s.1.exec pid fault o).1, (s.1.exec pid fault o).2, stepDisk fault o s.2)

/-- A whole build, and another one up to the rename of its manifest. -/
def rebuiltOnce : List (Pool.Turn Pid) :=
  [.start 0] ++ opsOf 0 25 ++ [.finish 0, .start 0] ++ opsOf 0 18

/-- The manifest of an index is about to be replaced; when the sync fails, the first file is
removed. -/
structure Poised (S : Sys) (K : Disk FileName FileData) (p : FsM Unit) : Prop where
  good : S.Good
  shows : ∀ n, S.dir.lookup n = K.lookup n
  settled : ¬ K.Unsettled .manifest
  hist : S.hist.length = 1
  grows : (S.exec 0 false (.rename (.tmp .manifest) .manifest)).2.hist.length = 2
  ready : FileName.tmp .manifest ∈ S.dir
  changes : S.dir.lookup (.tmp .manifest) ≠ S.dir.lookup .manifest
  names : ∃ I ∈ S.current, .idx 0 ∈ referencedFiles I.manifest
  program : ∃ k k' k'', p = .call (.rename (.tmp .manifest) .manifest) k ∧
    k (.ok ()) = .call .syncDir k' ∧ k' (.error .other) = .call (.remove (.idx 0)) k''

/-- The generation of a manifest. -/
def generationOf : Option FileData → Option UInt64
  | some (.manifest _ m) => some m.generation
  | _ => none

/-- The next three operations replace the manifest, fail to sync it and remove the first file. -/
def replacesAndRemoves : FsM Unit → Bool
  | .call (.rename (.tmp .manifest) .manifest) k =>
    match k (.ok ()) with
    | .call .syncDir k' =>
      match k' (.error .other) with
      | .call (.remove (.idx 0)) _ => true
      | _ => false
    | _ => false
  | _ => false

omit [Platform] in
theorem program_of_replacesAndRemoves {p : FsM Unit} (h : replacesAndRemoves p = true) :
    ∃ k k' k'', p = .call (.rename (.tmp .manifest) .manifest) k ∧
      k (.ok ()) = .call .syncDir k' ∧ k' (.error .other) = .call (.remove (.idx 0)) k'' := by
  unfold replacesAndRemoves at h
  split at h
  · rename_i k
    split at h
    · rename_i k' hSync
      split at h
      · rename_i k'' hRemove
        exact ⟨k, k', k'', rfl, hSync, hRemove⟩
      · cases h
    · cases h
  · cases h

/-- Whether a configuration is so. -/
def poised (c : (writersOnDisk KeepsReplaced).Conf) : Bool :=
  !decide (c.state.2.Unsettled .manifest) && decide (c.state.1.hist.length = 1) &&
    decide ((c.state.1.exec 0 false (.rename (.tmp .manifest) .manifest)).2.hist.length = 2) &&
    decide (FileName.tmp .manifest ∈ c.state.1.dir) &&
    decide (generationOf (c.state.1.dir.lookup (.tmp .manifest)) = some 2) &&
    decide (generationOf (c.state.1.dir.lookup .manifest) = some 1) &&
    c.state.1.current.any (fun I => decide (.idx 0 ∈ referencedFiles I.manifest)) &&
    (c.procs 0).any fun x => replacesAndRemoves x.2

theorem poised_of_poised {c : (writersOnDisk KeepsReplaced).Conf} (hGood : c.state.1.Good)
    (hShows : ∀ n, c.state.1.dir.lookup n = c.state.2.lookup n) (h : poised c = true) :
    ∃ w p, c.procs 0 = some (w, p) ∧ Poised c.state.1 c.state.2 p := by
  unfold poised at h
  simp only [Bool.and_eq_true, Bool.not_eq_true', decide_eq_false_iff_not, decide_eq_true_eq,
    Option.any_eq_true] at h
  obtain ⟨⟨⟨⟨⟨⟨⟨hSettled, hHist⟩, hGrows⟩, hReady⟩, hNew⟩, hOld⟩, hNames⟩,
    ⟨w, p⟩, hProc, hNext⟩ := h
  refine ⟨w, p, hProc, hGood, hShows, hSettled, hHist, hGrows, hReady, fun hEq => ?_, hNames,
    program_of_replacesAndRemoves hNext⟩
  rw [hEq, hOld] at hNew
  exact absurd hNew (by decide)

omit [Platform] in
/-- The sync of the first build fails, and that is made good by the first sync of the second. -/
theorem exists_poised :
    let _ := Platform.reference
    ∃ (c : (writersOnDisk KeepsReplaced).Conf) (w : Writer) (p : FsM Unit),
      (writersOnDisk KeepsReplaced).Run
        ((writersOnDisk KeepsReplaced).Idle (.start ⟨∅, none, 0⟩ none, Dir.mounted ∅)) c ∧
      c.procs 0 = some (w, p) ∧ Poised c.state.1 c.state.2 p := by
  intro _
  let ok : Pid → Sys × Disk FileName FileData → Bool := fun pid s =>
    s.1.roomToBuild (smallWorld [smallFile]) smallConfig [smallFile] pid &&
      (s.1.replaced.isNone || !decide (s.2.Unsettled .manifest))
  have hStep : ∀ pid o s, ok pid s = true →
      (writersOnDisk KeepsReplaced).step pid smallWriter o s (Sys.execUnsynced pid o s).1
        (Sys.execUnsynced pid o s).2 := by
    intro pid o s hOk
    obtain ⟨hRoom, hKept⟩ := Bool.and_eq_true_iff.mp hOk
    refine ⟨_, ?_, fun hO _ hFree => ?_, rfl, rfl, fun hWaits _ I hI => ?_⟩
    · cases o <;> simp [FsOp.fallible]
    · exact s.1.hasRoom_of_roomToBuild rfl hRoom hFree
    · -- Nothing was replaced.
      rw [Option.mem_def.mp hI] at hKept
      simp [hWaits] at hKept
  have hEnd : ((writersOnDisk KeepsReplaced).turns (fun _ => smallWriter) Sys.execUnsynced ok
      rebuiltOnce ((writersOnDisk KeepsReplaced).Idle
        (.start ⟨∅, none, 0⟩ none, Dir.mounted ∅))).any poised = true := by
    decide +kernel
  obtain ⟨c, hTurns, hChecks⟩ := (Option.any_eq_true _ _).mp hEnd
  obtain ⟨hRun, -⟩ := Pool.Run.of_turns hStep (Pool.Conf.performs_idle _) hTurns
  have hEmpty : (∅ : Dir).Holds none := AList.lookup_empty _
  obtain ⟨w, p, hProc, hPoised⟩ := poised_of_poised
    (sound_of_run (s := ⟨∅, none, 0⟩) writers_fit hEmpty (by simp) rfl hRun).1
    (onDisk_of_writers (s := ⟨∅, none, 0⟩) hEmpty (by simp) rfl hRun).disk.shows hChecks
  exact ⟨c, w, p, hRun, hProc, hPoised⟩

namespace Poised

variable {S : Sys} {K : Disk FileName FileData} {p : FsM Unit}

theorem lookup_manifest (h : Poised S K p) :
    (S.exec 0 false (.rename (.tmp .manifest) .manifest)).2.dir.lookup .manifest =
      S.dir.lookup (.tmp .manifest) := by
  obtain ⟨f, hf⟩ := Dir.mem_iff_lookup.mp h.ready
  rw [(Sys.exec_rename_manifest 0 h.ready).2.1, Dir.lookup_rename hf, if_pos rfl, hf]

theorem hist_eq (h : Poised S K p) :
    ∃ B, (S.exec 0 false (.rename (.tmp .manifest) .manifest)).2.hist = B :: S.hist := by
  have hGrows := h.grows
  rw [(Sys.exec_rename_manifest 0 h.ready).2.2.1] at hGrows ⊢
  unfold Sys.histAfter at hGrows ⊢
  rcases hOpen : (S.dir.rename (.tmp .manifest) .manifest).openIndex with e | _ | B
  · rw [hOpen, h.hist] at hGrows
    cases hGrows
  · rw [hOpen, h.hist] at hGrows
    cases hGrows
  · exact ⟨B, rfl⟩

/-- The directory that a power loss leaves of the one manifest with the removal of a file. -/
theorem survives (h : Poised S K p) :
    (stepDisk false (.remove (.idx 0)) (stepDisk false (.rename (.tmp .manifest) .manifest)
      K)).Survives fun n => (S.dir.erase (.idx 0)).lookup n := by
  have hLookup : (fun n => (S.dir.erase (.idx 0)).lookup n) = (K.remove (.idx 0)).lookup := by
    funext n
    rw [Disk.lookup_remove, Dir.lookup_erase, h.shows]
  rw [hLookup]
  exact Disk.survives_rename_remove (by simp) (by simp)

/-- It is not what was committed before. -/
theorem not_holds (h : Poised S K p) : ¬ Dir.Holds (S.dir.erase (.idx 0)) S.hist.head? := by
  intro hHolds
  obtain ⟨I, hI, hn⟩ := h.names
  rw [show S.hist.head? = some I from hI] at hHolds
  obtain ⟨f, hf, -⟩ := Index.Backed.agree hHolds (h.good.backed I hI) hn
  rw [Dir.lookup_erase, if_pos rfl] at hf
  cases hf

end Poised

/-- The manifest says what the directory holds. -/
theorem Dir.Holds.manifest_eq {d d' : Dir} {prev : Option Index} (h : d.Holds prev)
    (h' : d'.Holds prev) : d.lookup .manifest = d'.lookup .manifest := by
  cases prev with
  | none => exact Eq.trans h (Eq.symm h')
  | some I => exact (Index.Backed.manifest h).trans (Index.Backed.manifest h').symm

omit [Platform] in
/-- The second manifest is in place, and a power loss undoes that. -/
theorem power_loss_complete_rebuilt : ∃ _ : Platform,
    ∃ (c c' : (writersOnDisk KeepsReplaced).Conf) (d : Dir), (writersOnDisk KeepsReplaced).Run
      ((writersOnDisk KeepsReplaced).Idle (.start ⟨∅, none, 0⟩ none, Dir.mounted ∅)) c ∧
    (writersOnDisk KeepsReplaced).Run c c' ∧ c'.state.2.Survives (fun n => d.lookup n) ∧
    c.state.1.hist.length = 1 ∧ ∃ B, c'.state.1.hist = B :: c.state.1.hist ∧
      d.Holds c.state.1.hist.head? := by
  refine ⟨Platform.reference, ?_⟩
  let _ := Platform.reference
  obtain ⟨c, w, p, hRun, hProc, hPoised⟩ := exists_poised
  obtain ⟨k, -, -, rfl, -, -⟩ := hPoised.program
  have hStep : (writersOnDisk KeepsReplaced).Step c _ := .op 0 hProc
    (s := ((c.state.1.exec 0 false (.rename (.tmp .manifest) .manifest)).2,
      stepDisk false (.rename (.tmp .manifest) .manifest) c.state.2))
    ⟨false, by simp, by simp, rfl, rfl, fun hWaits => absurd hWaits hPoised.settled⟩
  have hLoss : (stepDisk false (.rename (.tmp .manifest) .manifest) c.state.2).Survives
      fun n => c.state.1.dir.lookup n := by
    rw [show (fun n => c.state.1.dir.lookup n) = c.state.2.lookup from funext hPoised.shows]
    exact survives_stepDisk
  obtain ⟨B, hHist⟩ := hPoised.hist_eq
  have hEmpty : (∅ : Dir).Holds none := AList.lookup_empty _
  refine ⟨c, _, c.state.1.dir, hRun, .single hStep, hLoss, hPoised.hist, B, hHist, ?_⟩
  rcases @power_loss_complete _ none ⟨∅, none, 0⟩ hEmpty (by simp) rfl c _ hRun hPoised.settled
    (.single hStep) c.state.1.dir hLoss with hNew | ⟨B', h, hEq, -, hOld⟩
  · -- The manifests differ.
    obtain ⟨hGood, -⟩ := sound_of_run (s := ⟨∅, none, 0⟩) writers_fit hEmpty (by simp) rfl
      (hRun.tail hStep)
    exact absurd (hPoised.lookup_manifest.symm.trans (hGood.holds.manifest_eq hNew))
      hPoised.changes
  · obtain ⟨-, rfl⟩ := List.cons.inj (hHist.symm.trans hEq)
    exact hOld

/-- A run is one under fewer conditions. -/
theorem run_unless {keeps : Disk FileName FileData → Sys → FsOp → Bool → Prop}
    {c c' : (writersOnDisk keeps).Conf} (h : (writersOnDisk keeps).Run c c') :
    (writersOnDisk fun _ _ _ _ => True).Run ⟨c.state, c.procs⟩ ⟨c'.state, c'.procs⟩ := by
  induction h with
  | refl => exact .refl
  | tail _ hStep ih =>
    refine ih.tail ?_
    cases hStep with
    | start i w hIdle => exact .start i w hIdle
    | op i hProc hOp =>
      obtain ⟨fault, hMay, hAdm, hExec, hDisk, -⟩ := hOp
      exact .op i hProc ⟨fault, hMay, hAdm, hExec, hDisk, trivial⟩
    | finish i hProc => exact .finish i hProc
    | stop i hProc => exact .stop i hProc

/-- An operation that may fail. -/
theorem exists_step {c : (writersOnDisk fun _ _ _ _ => True).Conf} {i : Pid} {w : Writer}
    {o : FsOp} {k : o.Res → FsM Unit} (fault : Bool) (hMay : fault = true → o.fallible = true)
    (hO : o ≠ .lock) (hProc : c.procs i = some (w, .call o k)) :
    ∃ c', (writersOnDisk fun _ _ _ _ => True).Step c c' ∧
      c'.procs i = some (w, k (c.state.1.exec i fault o).1) ∧
      c'.state = ((c.state.1.exec i fault o).2, stepDisk fault o c.state.2) :=
  ⟨_, .op i hProc ⟨fault, hMay, fun h => absurd h hO, rfl, rfl, trivial⟩,
    Function.update_self _ _ _, rfl⟩

/-- The manifest is renamed, the sync fails, and the first file is removed. -/
theorem Poised.run {c : (writersOnDisk fun _ _ _ _ => True).Conf} {w : Writer} {p : FsM Unit}
    (h : Poised c.state.1 c.state.2 p) (hProc : c.procs 0 = some (w, p)) :
    ∃ c', (writersOnDisk fun _ _ _ _ => True).Run c c' ∧
      c'.state.2 = stepDisk false (.remove (.idx 0))
        (stepDisk false (.rename (.tmp .manifest) .manifest) c.state.2) ∧
      c'.state.1.dir.lookup .manifest = c.state.1.dir.lookup (.tmp .manifest) ∧
      ∃ B, c'.state.1.hist = B :: c.state.1.hist := by
  obtain ⟨k, k', k'', rfl, hSync, hRemove⟩ := h.program
  obtain ⟨c₁, hFirst, hProc₁, hState₁⟩ := exists_step false (by simp) (by simp) hProc
  rw [show (c.state.1.exec 0 false (.rename (.tmp .manifest) .manifest)).1 = .ok () from
    (Sys.exec_rename_manifest 0 h.ready).1, hSync] at hProc₁
  obtain ⟨c₂, hSecond, hProc₂, hState₂⟩ := exists_step true (fun _ => rfl) (by simp) hProc₁
  rw [show (c₁.state.1.exec 0 true .syncDir).1 = .error .other from rfl, hRemove] at hProc₂
  obtain ⟨c₃, hThird, -, hState₃⟩ := exists_step false (by simp) (by simp) hProc₂
  refine ⟨c₃, .tail (.tail (.single hFirst) hSecond) hThird, ?_, ?_, ?_⟩
  · rw [hState₃, hState₂, hState₁]
    rfl
  · rw [← h.lookup_manifest, hState₃, hState₂, hState₁]
    exact (Sys.lookup_exec (by simp [Sys.touches])).trans
      (Sys.lookup_exec (by simp [Sys.touches]))
  · obtain ⟨B, hB⟩ := h.hist_eq
    refine ⟨B, ?_⟩
    rw [hState₃, hState₂, hState₁, ← hB]
    exact (Sys.hist_exec_of_not_commit (by simp [Sys.IsCommit])).trans
      (Sys.hist_exec_of_not_commit (by simp [Sys.IsCommit]))

omit [Platform] in
/-- After a sync that failed the first file is removed, and a power loss keeps only that. -/
theorem removal_exposes_files : ∃ _ : Platform, ¬ ∀ (prev : Option Index) (s : FsState)
    (c c' : (writersOnDisk fun _ _ _ _ => True).Conf) (d : Dir), s.dir.Holds prev →
      (∀ I ∈ prev, I.Sound) → s.lock = none → (writersOnDisk fun _ _ _ _ => True).Run
        ((writersOnDisk fun _ _ _ _ => True).Idle (.start s prev, s.dir.mounted)) c →
      ¬ c.state.2.Unsettled .manifest → (writersOnDisk fun _ _ _ _ => True).Run c c' →
      c'.state.2.Survives (fun n => d.lookup n) → d.Holds c'.state.1.hist.head? ∨
        ∃ B h, c'.state.1.hist = B :: h ∧ c.state.1.hist <:+ h ∧ d.Holds h.head? := by
  refine ⟨Platform.reference, fun hAll => ?_⟩
  let _ := Platform.reference
  obtain ⟨c, w, p, hRun, hProc, hPoised⟩ := exists_poised
  obtain ⟨c', hRun', hDisk, hManifest, B, hHist⟩ :=
    Poised.run (c := ⟨c.state, c.procs⟩) hPoised hProc
  have hEmpty : (∅ : Dir).Holds none := AList.lookup_empty _
  have hLoss : c'.state.2.Survives fun n => (c.state.1.dir.erase (.idx 0)).lookup n := by
    rw [hDisk]
    exact hPoised.survives
  rcases hAll none ⟨∅, none, 0⟩ ⟨c.state, c.procs⟩ c' (c.state.1.dir.erase (.idx 0)) hEmpty
    (by simp) rfl (run_unless hRun) hPoised.settled hRun' hLoss with hNew | ⟨B', h, hEq, -, hOld⟩
  · -- The manifest is the one before.
    obtain ⟨hGood, -⟩ := sound_of_run (s := ⟨∅, none, 0⟩) writers_fit hEmpty (by simp) rfl
      ((run_unless hRun).trans hRun')
    have hSame := hGood.holds.manifest_eq hNew
    rw [hManifest, Dir.lookup_erase, if_neg (by simp)] at hSame
    exact hPoised.changes hSame
  · obtain ⟨-, rfl⟩ := List.cons.inj (hHist.symm.trans hEq)
    exact hPoised.not_holds hOld

end Examples

end Ripindex
