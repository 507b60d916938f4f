import Ripindex.Lib.Guest
import Ripindex.Store.Interleave

/-!
# Opening among writers

`open` reads the manifest and then the files it names one by one, while other processes commit.
A file of a segment is never replaced by another of its name. An overlay is: its generation
starts again at 1 after an index without one. As long as no new overlay takes the name of one
that was current since `open` began, what `open` returns is an index that was current while it
ran, and no race makes it fail but the twentieth missing file.

## Results

* `wp_openIndex_since` — what `open` returns, as long as no file it may look for is replaced;
* `open_among_writers` — opening in any run of the processes.
-/

namespace Ripindex

variable [Platform]

/-- The index was current at some point after the history `h₀`, or none was. -/
def CurrentSince (h₀ : List Index) (cur : Option Index) (h : List Index) : Prop :=
  ∃ h₁, h₀ <:+ h₁ ∧ h₁ <:+ h ∧ h₁.head? = cur

section CurrentSince

variable {h₀ h h' : List Index} {cur : Option Index} {I : Index}

omit [Platform] in
theorem CurrentSince.now (hSince : h₀ <:+ h) : CurrentSince h₀ h.head? h :=
  ⟨h, hSince, List.suffix_refl h, rfl⟩

omit [Platform] in
theorem CurrentSince.mono (hCur : CurrentSince h₀ cur h) (hGrow : h <:+ h') :
    CurrentSince h₀ cur h' := by
  obtain ⟨h₁, hSince, hBefore, hHead⟩ := hCur
  exact ⟨h₁, hSince, hBefore.trans hGrow, hHead⟩

omit [Platform] in
theorem CurrentSince.since (hCur : CurrentSince h₀ cur h) : h₀ <:+ h := by
  obtain ⟨h₁, hSince, hBefore, -⟩ := hCur
  exact hSince.trans hBefore

omit [Platform] in
theorem CurrentSince.mem (hCur : CurrentSince h₀ (some I) h) : I ∈ h := by
  obtain ⟨h₁, -, hBefore, hHead⟩ := hCur
  exact hBefore.subset (List.mem_of_mem_head? hHead)

end CurrentSince

-- ---------------------------------------------------------------------------
-- Files that are not replaced
-- ---------------------------------------------------------------------------

namespace Sys

/-- The files of every index current since `h₀` stay as they are, or go. -/
def Kept (h₀ : List Index) (S S' : Sys) : Prop :=
  ∀ J, CurrentSince h₀ (some J) S.hist → ∀ n ∈ referencedFiles J.manifest,
    S'.dir.lookup n = S.dir.lookup n ∨ S'.dir.lookup n = none

/-- The operation puts no file under the name of the overlay of an index current since `h₀`. -/
def NewOverlay (h₀ : List Index) (S : Sys) (o : FsOp) : Prop :=
  ∀ J, CurrentSince h₀ (some J) S.hist → 0 < J.manifest.stateGen →
    FileName.overlay J.manifest.stateGen ∉ puts o

/-- The process has read the manifest of `I` when the directory was `D`, and since then its files
are as they were or gone. -/
structure Sees (pid : Pid) (h₀ : List Index) (I : Index) (D : Dir) (S : Sys) : Prop
    extends Away pid (CurrentSince h₀ (some I)) S where
  backed : I.Backed D
  kept : ∀ n ∈ referencedFiles I.manifest, S.dir.lookup n = D.lookup n ∨ S.dir.lookup n = none

variable {pid : Pid} {h₀ : List Index} {S S' S'' : Sys}

omit [Platform] in
theorem Kept.of_dir (hDir : S'.dir = S.dir) : Kept h₀ S S' := fun _ _ _ _ => .inl (by rw [hDir])

omit [Platform] in
theorem Kept.trans (h : Kept h₀ S S') (h' : Kept h₀ S' S'') (hHist : S.hist <:+ S'.hist) :
    Kept h₀ S S'' := by
  intro J hJ n hn
  rcases h' J (hJ.mono hHist) n hn with hSame | hNone
  · rw [hSame]
    exact h J hJ n hn
  · exact .inr hNone

/-- Allowed operations replace no file but overlays. -/
theorem Kept.exec (hS : S.Good) {o : FsOp} (hAllow : Allows pid o S) (hNew : S.NewOverlay h₀ o)
    (fault : Bool) : Kept h₀ S (S.exec pid fault o).2 := by
  intro J hJ n hn
  rcases Index.mem_referencedFiles.mp hn with ⟨s, hs, hFile⟩ | ⟨hGen, rfl⟩
  · exact kept_exec hS hAllow fault hJ.mem hs hFile
  · exact lookup_exec_or_none (hNew J hJ hGen)

end Sys

/-- Processes that keep the files of the indexes current since `h₀`. -/
def Mode.keeping (h₀ : List Index) : Mode where
  mayFault := fun o _ => o.fallible = true
  admits := fun _ _ => True
  rely := fun pid S S' => Sys.Rely pid S S' ∧ Sys.Kept h₀ S S'
  rely_ok := fun _ _ _ _ hR => hR.1

section Opening

variable {pid : Pid} {h₀ : List Index} {S S' : Sys} {α : Type}

open Sys

theorem Mode.keeping_reads : (Mode.keeping h₀).Reads := fun _ _ hMay => hMay

theorem Mode.keeping_keeps {F : List Index → Prop} (hF : ∀ h h', h <:+ h' → F h → F h') :
    (Mode.keeping h₀).Keeps pid F := fun _ _ hR => hF _ _ hR.1.hist

theorem Sys.Sees.rely {I : Index} {D : Dir} (hS : Sees pid h₀ I D S)
    (hR : (Mode.keeping h₀).rely pid S S') : Sees pid h₀ I D S' where
  toAway := hS.toAway.rely (Mode.keeping_keeps fun _ _ hGrow hCur => hCur.mono hGrow) hR
  backed := hS.backed
  kept := by
    intro n hn
    rcases hR.2 I hS.hist n hn with hSame | hNone
    · rw [hSame]
      exact hS.kept n hn
    · exact .inr hNone

/-- The current index, as the process reads its manifest. -/
theorem Sys.Sees.now {I : Index} (hS : Away pid (h₀ <:+ ·) S) (hCur : S.current = some I) :
    Sees pid h₀ I S.dir S where
  good := hS.good
  lock := hS.lock
  hist := hCur ▸ CurrentSince.now hS.hist
  backed := hS.good.backed I hCur
  kept := fun _ _ => .inl rfl

-- ---------------------------------------------------------------------------
-- Reading among writers
-- ---------------------------------------------------------------------------

/-- A program that opens files which are as in `D` or gone gives what it gives on `D`, or misses
one of them. -/
theorem wp_reads_kept {M : Mode} (hM : M.Reads) {D : Dir} {Inv : Sys → Prop}
    (hStable : ∀ S S', Inv S → M.rely pid S S' → Inv S') {ns : List FileName}
    (hKept : ∀ S, Inv S → ∀ n ∈ ns, S.dir.lookup n = D.lookup n ∨ S.dir.lookup n = none)
    {q : ReadM (Except Error α)} (hq : q.Opens (fun _ => True) (fun _ _ => True) ns)
    (hInv : Inv S) :
    q.toFsM.wp (M.contract pid)
      (fun r S' => (r = q.onDir D ∨ ∃ n, r = .error (.vanished n)) ∧ Inv S') S := by
  induction q generalizing S ns with
  | ret r => exact ⟨.inl rfl, hInv⟩
  | call o k ih =>
    obtain ⟨rest, rfl, hStop, hNext⟩ := hq
    have hRest : ∀ S, Inv S → ∀ n ∈ rest,
        S.dir.lookup n = D.lookup n ∨ S.dir.lookup n = none := fun S hS n hn =>
      hKept S hS n (List.mem_cons_of_mem _ hn)
    have hRead : ∀ S₁, Inv S₁ → (ReadM.toFsM (k (S₁.dir.readFile o.name))).wp (M.contract pid)
        (fun r S' => (r = ReadM.onDir (k (D.readFile o.name)) D ∨ ∃ n, r = .error (.vanished n)) ∧
          Inv S') S₁ := by
      intro S₁ hInv₁
      rcases hKept S₁ hInv₁ o.name List.mem_cons_self with hSame | hNone
      · have hFile : S₁.dir.readFile o.name = D.readFile o.name := by
          unfold Dir.readFile
          rw [hSame]
        rw [hFile]
        exact ih _ hRest (hNext _ trivial) hInv₁
      · have hFile : S₁.dir.readFile o.name = .error .notFound := by
          unfold Dir.readFile
          rw [hNone]
        obtain ⟨e, hEnd, hVanished⟩ := hStop .notFound trivial
        rw [hFile, hEnd]
        exact ⟨.inr ⟨o.name, congrArg Except.error ((hVanished _).mpr ⟨rfl, rfl⟩)⟩, hInv₁⟩
    change ((o.issue >>= fun r => (k r).lift ReadOp.issue) : FsM _).wp _ _ S
    cases o with
    | read n =>
      refine wp_op Inv hInv hStable (fun _ _ => trivial) fun S₁ hInv₁ fault hMay _ => ?_
      cases fault with
      | true => cases hM _ _ (hMay rfl)
      | false => exact hRead S₁ hInv₁
    | mmap n =>
      refine wp_op Inv hInv hStable (fun _ _ => trivial) fun S₁ hInv₁ fault hMay _ => ?_
      cases fault with
      | true => cases hM _ _ (hMay rfl)
      | false => exact hRead S₁ hInv₁

/-- What an attempt to open may end with: an index that was current, or none when none was; an
error as in `E`; or that of an operation that failed. -/
def Opened (E : Error → Prop) (pid : Pid) (h₀ : List Index) :
    Except Error (Option Index) → Sys → Prop
  | .ok cur, S => CurrentSince h₀ cur S.hist
  | .error e, S => E e ∨ (∃ io, e = .io io) ∧ S.faulted pid = true

/-- What reading the manifest gives: that of an index that was current. -/
def Chosen (pid : Pid) (h₀ : List Index) :
    Except Error (Option { m : Manifest // m.Ok }) → Sys → Prop
  | .ok none, S => CurrentSince h₀ none S.hist
  | .ok (some m), S => ∃ I D, m = ⟨I.manifest, I.manifest_ok⟩ ∧ Sees pid h₀ I D S
  | .error e, S => (∃ io, e = .io io) ∧ S.faulted pid = true

/-- An error of an attempt after which there is another one. -/
def Error.IsVanished (e : Error) : Prop := ∃ n, e = .vanished n

/-- Loading what the manifest names. -/
theorem wp_loadIndex_since {I : Index} {D : Dir} (hS : Sees pid h₀ I D S) :
    (FsE.ofRead (loadIndex ⟨I.manifest, I.manifest_ok⟩)).run.wp
      ((Mode.keeping h₀).contract pid)
      (fun r S' => (r = .ok I ∨ ∃ n, r = .error (.vanished n)) ∧ Sees pid h₀ I D S') S := by
  have hLoad : (loadIndex ⟨I.manifest, I.manifest_ok⟩).eval D = .ok I :=
    eval_loadIndex_ok.mpr ⟨rfl, hS.backed.segments, hS.backed.overlay, hS.backed.no_overlay⟩
  rw [← hLoad]
  exact wp_reads_kept Mode.keeping_reads (fun _ _ hInv hR => hInv.rely hR)
    (fun S hS => hS.kept) (ReadE.opens_loadIndex ⟨I.manifest, I.manifest_ok⟩) hS

/-- The second half of an attempt. -/
theorem wp_load_since {r : Except Error (Option { m : Manifest // m.Ok })}
    {f : Option { m : Manifest // m.Ok } → FsE (Option Index)} (hNone : f none = pure none)
    (hSome : ∀ m, f (some m) = some <$> FsE.ofRead (loadIndex m))
    (hS : Away pid (h₀ <:+ ·) S) (hr : Chosen pid h₀ r S) :
    (FsE.ofExcept r >>= f).run.wp ((Mode.keeping h₀).contract pid)
      (fun r S' => Opened Error.IsVanished pid h₀ r S' ∧ Away pid (h₀ <:+ ·) S') S := by
  rcases r with e | _ | m
  · exact ⟨.inr hr, hS⟩
  · change (f none).run.wp _ _ S
    rw [hNone]
    exact ⟨hr, hS⟩
  · obtain ⟨I, D, rfl, hSees⟩ := hr
    change (f (some _)).run.wp _ _ S
    rw [hSome, map_eq_pure_bind]
    refine FsE.wp_bind (wp_loadIndex_since hSees) ?_ ?_
    · rintro J S' ⟨hJ | ⟨n, hn⟩, hSees'⟩
      · obtain rfl := Except.ok.inj hJ
        exact ⟨hSees'.hist, hSees'.toAway.mono fun _ hCur => hCur.since⟩
      · cases hn
    · rintro e S' ⟨hJ | ⟨n, hn⟩, hSees'⟩
      · cases hJ
      · exact ⟨.inl ⟨n, Except.error.inj hn⟩, hSees'.toAway.mono fun _ hCur => hCur.since⟩

/-- The manifest of the current index. -/
theorem Chosen.now (hS : Away pid (h₀ <:+ ·) S) :
    Chosen pid h₀ (.ok (S.current.map fun I => ⟨I.manifest, I.manifest_ok⟩)) S := by
  rcases hCur : S.current with _ | I
  · have hNone : CurrentSince h₀ S.current S.hist := .now hS.hist
    rwa [hCur] at hNone
  · exact ⟨I, S.dir, rfl, .now hS hCur⟩

omit [Platform] in
/-- Reading the manifest is one operation. -/
theorem run_readManifest :
    ∃ accept : Except IoError FileData → Except Error (Option { m : Manifest // m.Ok }),
      readManifest.run = .call (.read .manifest) fun r => .ret (accept r) := by
  refine ⟨fun r => readManifest.run.answer fun _ => r, congrArg (Prog.call _) (funext fun r => ?_)⟩
  rcases r with e | f
  · cases e <;> rfl
  · rfl

/-- Reading the manifest without the lock. -/
theorem wp_readAndSweep_since (hS : Away pid (h₀ <:+ ·) S) :
    (readAndSweep false).run.wp ((Mode.keeping h₀).contract pid)
      (fun r S' => Chosen pid h₀ r S' ∧ Away pid (h₀ <:+ ·) S') S := by
  have hStable : ∀ S S', Away pid (h₀ <:+ ·) S → (Mode.keeping h₀).rely pid S S' →
      Away pid (h₀ <:+ ·) S' := fun _ _ hInv hR =>
    hInv.rely (Mode.keeping_keeps fun _ _ hGrow hSince => hSince.trans hGrow) hR
  obtain ⟨accept, hRun⟩ := run_readManifest
  have hEval : ∀ d : Dir, readManifest.eval d = accept (d.readFile .manifest) := fun d => by
    unfold ReadE.eval
    rw [hRun]
    rfl
  unfold readAndSweep
  refine FsE.wp_bind (P := fun r S' => Chosen pid h₀ r S' ∧ Away pid (h₀ <:+ ·) S') ?_ ?_
    fun _ _ hOut => hOut
  · unfold FsE.ofRead
    rw [hRun]
    refine wp_op _ hS hStable (fun _ _ => trivial) fun S₁ hS₁ fault hMay _ => ?_
    cases fault with
    | true => cases Mode.keeping_reads _ _ (hMay rfl)
    | false =>
      refine ⟨?_, hS₁⟩
      change Chosen pid h₀ (accept (S₁.dir.readFile .manifest)) S₁
      rw [← hEval, hS₁.good.readManifest]
      exact .now hS₁
  · rintro m S₁ hOut
    cases m <;> exact hOut

/-- One attempt to open. -/
theorem wp_openOnce_since (hS : Away pid (h₀ <:+ ·) S) :
    openOnce.run.wp ((Mode.keeping h₀).contract pid)
      (fun r S' => Opened Error.IsVanished pid h₀ r S' ∧ Away pid (h₀ <:+ ·) S') S := by
  unfold openOnce
  refine wp_op (Away pid (h₀ <:+ ·)) hS (fun _ _ hInv hR => hInv.rely
    (Mode.keeping_keeps fun _ _ hGrow hSince => hSince.trans hGrow) hR) (fun _ _ => trivial)
      fun S₁ hS₁ fault _ _ => ?_
  rcases hS₁.exec_lock fault with ⟨⟨e, hErr⟩, hAway⟩ | ⟨-, -, hTaken, hView, hSame⟩
  · generalize S₁.exec pid fault .lock = out at hErr hAway ⊢
    obtain ⟨probe, S₂⟩ := out
    obtain rfl : probe = .error e := hErr
    change (FsE.attempt (readAndSweep false) >>= fun r => FsE.ofExcept r >>= _).run.wp _ _ S₂
    refine FsE.wp_bind (P := fun r S' => ∃ r', r = .ok r' ∧ Chosen pid h₀ r' S' ∧
      Away pid (h₀ <:+ ·) S') (FsE.wp_attempt (Prog.wp_mono (wp_readAndSweep_since hAway)
        fun r _ hOut => ⟨r, rfl, hOut⟩)) ?_ ?_
    · rintro r S₃ ⟨_, hr, hChosen, hAway₃⟩
      obtain rfl := Except.ok.inj hr
      exact wp_load_since rfl (fun _ => rfl) hAway₃ hChosen
    · rintro e S₃ ⟨_, hr, -⟩
      cases hr
  · generalize S₁.exec pid fault .lock = out at hTaken hView hSame ⊢
    obtain ⟨probe, S₂⟩ := out
    obtain rfl : probe = .ok () := hTaken
    change (FsE.attempt (readAndSweep true) >>= fun r =>
      FsE.ofM (Prog.op FsOp.unlock) >>= fun _ => FsE.ofExcept r >>= _).run.wp _ _ S₂
    refine FsE.wp_bind (P := fun r S' => ∃ r', r = .ok r' ∧
      Held pid (S₁.released pid) S₁.hist S' ∧
        (r' = .ok (S₁.hist.head?.map fun I => ⟨I.manifest, I.manifest_ok⟩) ∨
          (∃ e, r' = .error (.io e)) ∧ S'.faulted pid = true)) (FsE.wp_attempt (Prog.wp_mono
            (wp_readAndSweep_held Mode.keeping_reads ⟨hView, hSame⟩)
              fun r _ hOut => ⟨r, rfl, hOut⟩)) ?_ ?_
    · rintro r S₃ ⟨_, hr, hHeld, hOut⟩
      obtain rfl := Except.ok.inj hr
      refine wp_held (Held pid (S₁.released pid) S₁.hist) hHeld (fun _ _ hInv hR => hInv.rely hR)
        (fun _ _ => trivial) fun S₄ hH hFault fault => ?_
      have hAway := (hH.exec_unlock (F := (h₀ <:+ ·)) hS₁.hist fault).1
      refine wp_load_since rfl (fun _ => rfl) hAway ?_
      rcases hOut with rfl | ⟨hIo, hFaulted⟩
      · have hHist : (S₄.exec pid fault .unlock).2.hist = S₁.hist :=
          (hist_exec_of_not_commit (by rintro ⟨⟩)).trans hH.hist
        have hNow := Chosen.now hAway
        rwa [current, hHist] at hNow
      · obtain ⟨io, rfl⟩ := hIo
        exact ⟨⟨io, rfl⟩, faulted_exec _ _ (hFault.trans hFaulted)⟩
    · rintro e S₃ ⟨_, hr, -⟩
      cases hr

/-- The error of `open` when a file was missing in all attempts. -/
def Error.IsGivenUp (e : Error) : Prop :=
  ∃ last, e = .corrupt last
    (.text "still missing after 20 attempts to reconcile with a concurrent commit")

/-- As long as no file of an index current since `h₀` is replaced, `open` returns an index that
was current, or gives up, or one of its operations fails. -/
theorem wp_openIndex_since (hS : Away pid (h₀ <:+ ·) S) :
    openIndex.run.wp ((Mode.keeping h₀).contract pid) (Opened Error.IsGivenUp pid h₀) S := by
  have hAttempts : ∀ (n : Nat) (last : Option FileName) {S : Sys}, Away pid (h₀ <:+ ·) S →
      (openAttempts last n).run.wp ((Mode.keeping h₀).contract pid)
        (Opened Error.IsGivenUp pid h₀) S := by
    intro n
    induction n with
    | zero => exact fun last _ _ => .inl ⟨last, rfl⟩
    | succ n ih =>
      intro last S hS
      unfold openAttempts
      refine FsE.wp_bind (P := fun r S' => ∃ r', r = .ok r' ∧
        Opened Error.IsVanished pid h₀ r' S' ∧ Away pid (h₀ <:+ ·) S') (FsE.wp_attempt
          (Prog.wp_mono (wp_openOnce_since hS) fun r _ hOut => ⟨r, rfl, hOut⟩)) ?_ ?_
      · rintro r S₁ ⟨_, hr, hOut, hS₁⟩
        obtain rfl := Except.ok.inj hr
        split
        · exact hOut
        · exact ih _ hS₁
        · rename_i hNot
          rcases hOut with ⟨p, rfl⟩ | hIo
          · exact absurd rfl (hNot p)
          · exact .inr hIo
      · rintro e S₁ ⟨_, hr, -⟩
        cases hr
  exact hAttempts maxAttempts none hS

end Opening

-- ---------------------------------------------------------------------------
-- Opening in a run
-- ---------------------------------------------------------------------------

/-- The processes, while the counters suffice and no overlay takes the name of one that was
current since `h₀`. -/
def freshProcesses (h₀ : List Index) : Pool FsOp FsOp.Res Sys Pid Task :=
  (processes Task.HasRoom).restrict fun S o => S.NewOverlay h₀ o

section Fresh

variable {h₀ : List Index}

open Sys

/-- The contracts fit together, and no file of an index current since `h₀` is replaced. -/
theorem freshProcesses_fit : (freshProcesses h₀).Fits
    (fun pid S S' => Rely pid S S' ∧ Kept h₀ S S') Sys.Allows
    (fun pid S => S.fs.lock ≠ some pid) Sys.Good := by
  refine processes_fit.restrict (fun _ => .of_dir rfl)
    (fun _ _ _ _ hR hKept hKept' => hKept.trans hKept' hR.hist) ?_ (fun _ _ => .of_dir rfl)
      fun _ _ => .of_dir dir_release
  rintro pid t o S r S' hS hAllow ⟨fault, -, -, hExec⟩ hNew
  obtain rfl : (S.exec pid fault o).2 = S' := congrArg Prod.snd hExec
  exact .exec hS hAllow hNew fault

/-- A process opens while others build, update, merge and open, in any order of their operations.
As long as the counters suffice and no overlay takes the name of one that was current since it
began, what it gets is an index that was current meanwhile, or none if none was; otherwise a file
was missing in all attempts, or one of its operations failed. -/
theorem open_among_writers {s : FsState} {prev : Option Index} (hHolds : s.dir.Holds prev)
    (hSound : ∀ I ∈ prev, I.Sound) (hLock : s.lock = none) {c : (processes Task.HasRoom).Conf}
    (hRun : (processes Task.HasRoom).Run ((processes Task.HasRoom).Idle (.start s prev)) c)
    {pid : Pid} (hIdle : c.procs pid = none) {c' : (freshProcesses c.state.hist).Conf}
    {r : Except Error (Option Index)}
    (hOpen : (freshProcesses c.state.hist).GuestRun pid .openIndex
      ⟨⟨c.state.enter pid, c.procs⟩, openIndex.run⟩ ⟨c', .ret r⟩) :
    Opened Error.IsGivenUp pid c.state.hist r c'.state := by
  have hFree : ∀ pid, (Sys.start s prev).fs.lock ≠ some pid := fun pid => by
    change s.lock ≠ some pid
    rw [hLock]
    simp
  obtain ⟨hGood, hAll⟩ := Pool.Run.sound processes_fit (.start hHolds hSound) hFree hRun
  have hFits := @freshProcesses_fit _ c.state.hist
  have hAway : Away pid (c.state.hist <:+ ·) (c.state.enter pid) :=
    ⟨hGood.enter, (hAll.soundAt pid).of_idle hIdle, List.suffix_refl _⟩
  refine Pool.GuestRun.sound hFits (Q := Opened Error.IsGivenUp pid c.state.hist) ?_ ?_ hOpen
  · -- What others do later takes nothing back.
    rintro (e | cur) S S' hR hOut
    · exact hOut.imp_right fun hIo => ⟨hIo.1, hR.1.faulted.trans hIo.2⟩
    · exact hOut.mono hR.1.hist
  · refine ⟨hGood.enter, hIdle, fun j hj => ?_, ?_⟩
    · have hAt := Pool.SoundAt.restrict (R := fun S o => S.NewOverlay c.state.hist o)
        (K := Kept c.state.hist) (hAll.soundAt j)
      exact hAt.other hFits rfl ((hFits.enter pid _ hGood).2 j (Ne.symm hj))
    · refine Prog.wp_contract (C := (Mode.keeping c.state.hist).contract pid) ?_
        (fun _ _ hR => hR) (fun _ _ hAllow => hAllow) (wp_openIndex_since hAway)
      rintro o S r S' ⟨⟨fault, hMay, -, hExec⟩, -⟩
      exact ⟨fault, hMay, fun _ _ _ => trivial, hExec⟩

end Fresh

section Examples

open LiveHistory

/-- Process 0 builds twice, the second time up to the rename of the manifest. -/
def rebuilding : List (Pool.Turn Pid) :=
  [.start 0] ++ opsOf 0 25 ++ [.finish 0, .start 0] ++ opsOf 0 18

/-- Process 1 reads the manifest, the second build is committed and the files of the first one are
removed, and process 1 goes on. -/
def openedMeanwhile : List (Option (Pool.Turn Pid)) :=
  [none, none] ++ (opsOf 0 4).map some ++ List.replicate 5 none

omit [Platform] in
/-- A process that opens has read the manifest of an index when another one replaces it. -/
theorem open_among_writers_overlap : ∃ _ : Platform, ∃ c, (processes Task.HasRoom).Run
    ((processes Task.HasRoom).Idle (.start ⟨∅, none, 0⟩ none)) c ∧ c.state.hist.length = 1 ∧
      ∃ c' I, (freshProcesses c.state.hist).GuestRun 1 .openIndex
        ⟨⟨c.state.enter 1, c.procs⟩, openIndex.run⟩ ⟨c', .ret (.ok (some I))⟩ ∧
          c'.state.hist.length = 2 ∧ CurrentSince c.state.hist (some I) c'.state.hist := by
  refine ⟨Platform.reference, ?_⟩
  let _ := Platform.reference
  let task : Pid → Task := fun pid => if pid = 1 then .openIndex else smallTask
  -- The counters suffice, and no index has an overlay.
  let ok : Pid → Sys → Bool := fun pid S =>
    S.roomToBuild (smallWorld [smallFile]) smallConfig [smallFile] pid &&
      S.hist.all fun J => J.manifest.stateGen = 0
  have hAdmits : ∀ pid S, ok pid S = true → S.fs.lock = none →
      (task pid).HasRoom (S.released pid) S.current := by
    intro pid S hOk hFree
    by_cases hOne : pid = 1
    · simp only [task, if_pos hOne]
      exact trivial
    · simp only [task, if_neg hOne]
      exact S.hasRoom_of_roomToBuild rfl (Bool.and_eq_true_iff.mp hOk).1 hFree
  have hStep : ∀ pid o S, ok pid S = true →
      (processes Task.HasRoom).step pid (task pid) o S (S.exec pid false o).1
        (S.exec pid false o).2 := fun pid _ S hOk =>
    ⟨false, by simp, fun _ _ => hAdmits pid S hOk, rfl⟩
  have hEnd : ((processes Task.HasRoom).turns task (Sys.exec · false) ok rebuilding
      ((processes Task.HasRoom).Idle (.start ⟨∅, none, 0⟩ none))).any (fun c =>
        c.state.hist.length = 1 && (c.procs 1).isNone &&
          ((freshProcesses c.state.hist).guestTurns task (Sys.exec · false) ok 1 openedMeanwhile
            ⟨⟨c.state.enter 1, c.procs⟩, openIndex.run⟩).any fun x =>
              x.conf.state.hist.length = 2 && (x.prog.value.bind fun r => r.toOption.join).isSome) =
      true := by
    decide +kernel
  obtain ⟨c, hTurns, hChecks⟩ := (Option.any_eq_true _ _).mp hEnd
  simp only [Bool.and_eq_true, decide_eq_true_eq, Option.isNone_iff_eq_none] at hChecks
  obtain ⟨⟨hOne, hIdle⟩, hGuest⟩ := hChecks
  obtain ⟨x, hGuestTurns, hChecks⟩ := (Option.any_eq_true _ _).mp hGuest
  simp only [Bool.and_eq_true, decide_eq_true_eq, Option.isSome_iff_exists] at hChecks
  obtain ⟨hTwo, I, hI⟩ := hChecks
  obtain ⟨hRun, hPerforms⟩ := Pool.Run.of_turns hStep (Pool.Conf.performs_idle _) hTurns
  have hFresh : ∀ pid o S, ok pid S = true → S.NewOverlay c.state.hist o := by
    intro pid o S hOk J hJ hGen
    have hZero : J.manifest.stateGen = 0 := by
      simpa using List.all_eq_true.mp (Bool.and_eq_true_iff.mp hOk).2 J hJ.mem
    rw [hZero] at hGen
    exact absurd hGen (by decide)
  have hOpen := Pool.GuestRun.of_guestTurns (P := freshProcesses c.state.hist)
    (fun pid o S hOk => ⟨hStep pid o S hOk, hFresh pid o S hOk⟩) hPerforms hGuestTurns
  obtain ⟨c', p⟩ := x
  obtain ⟨r, hValue, hJoin⟩ := Option.bind_eq_some_iff.mp hI
  obtain rfl : r = .ok (some I) := by
    rcases r with e | cur
    · cases hJoin
    · exact congrArg Except.ok hJoin
  obtain rfl := Prog.eq_ret_of_value hValue
  exact ⟨c, hRun, hOne, c', I, hOpen, hTwo, @open_among_writers _ ⟨∅, none, 0⟩ none
    (AList.lookup_empty _) (by simp) rfl c hRun 1 hIdle _ _ hOpen⟩

/-- A file that is renamed again and again. -/
def renamedWorld (path : String) : World := smallWorld [⟨⟨path, 1, 0, 1⟩, .binary⟩]

/-- Process 0 performs a whole task. -/
def perform (t : Task) (S : Sys) : Sys := (t.program.eval (Sys.exec 0 false) (S.enter 0)).2

/-- An error that tells of a file of another length. -/
def isLengthError : Except Error (Option Index) → Bool
  | .error (.corrupt _ (.length _ _)) => true
  | _ => false

omit [Platform] in
theorem not_opened_of_isLengthError {pid : Pid} {h₀ : List Index}
    {r : Except Error (Option Index)} {S : Sys} (h : isLengthError r = true) :
    ¬ Opened Error.IsGivenUp pid h₀ r S := by
  unfold isLengthError at h
  split at h
  · rintro (⟨last, ⟨⟩⟩ | ⟨⟨io, ⟨⟩⟩, -⟩)
  · cases h

omit [Platform] in
/-- A process opens an index with an overlay, and reads its manifest and segments. Then another
one rebuilds the index and updates it after a rename: the new overlay has the name of the old one
and another length, and the first process takes it for damaged. -/
theorem open_reads_other_overlay : ∃ _ : Platform, ¬ ∀ (s : FsState) (prev : Option Index)
    (c : (processes fun _ _ _ => True).Conf) (pid : Pid) (c' : (processes fun _ _ _ => True).Conf)
    (r : Except Error (Option Index)), s.dir.Holds prev → (∀ I ∈ prev, I.Sound) →
      s.lock = none → (processes fun _ _ _ => True).Run
        ((processes fun _ _ _ => True).Idle (.start s prev)) c → c.procs pid = none →
          (processes fun _ _ _ => True).GuestRun pid .openIndex
            ⟨⟨c.state.enter pid, c.procs⟩, openIndex.run⟩ ⟨c', .ret r⟩ →
              Opened Error.IsGivenUp pid c.state.hist r c'.state := by
  refine ⟨Platform.reference, fun hAll => ?_⟩
  let _ := Platform.reference
  let P := processes fun _ _ _ => True
  let S₀ := Sys.start ⟨∅, none, 0⟩ none
  let S₁ := perform (.update (renamedWorld "b") smallConfig)
    (perform (.build (renamedWorld "a") smallConfig) (S₀.enter 1))
  let S₂ := perform (.update (renamedWorld "cc") smallConfig)
    (perform (.build (renamedWorld "b") smallConfig)
      (openIndex.run.advance (Sys.exec 1 false) 6 S₁).2)
  have hStep : ∀ (pid : Pid) (t : Task) (o : FsOp) (S : Sys),
      P.step pid t o S (S.exec pid false o).1 (S.exec pid false o).2 := fun pid t o S =>
    ⟨false, by simp, fun _ _ _ => trivial, rfl⟩
  have hTask : ∀ (t : Task) (S : Sys) (p : FsM (Except Error (Option Index))),
      P.GuestRun 1 .openIndex ⟨P.Idle S, p⟩ ⟨P.Idle (perform t S), p⟩ :=
    fun t => Pool.GuestRun.task (by decide) (Sys.exec 0 false) (hStep 0 t)
  have hGuest : ∀ (n : Nat) (S : Sys) (p : FsM (Except Error (Option Index))),
      P.GuestRun 1 .openIndex ⟨P.Idle S, p⟩
        ⟨P.Idle (p.advance (Sys.exec 1 false) n S).2, (p.advance (Sys.exec 1 false) n S).1⟩ :=
    fun n S p => Pool.GuestRun.advance (A := fun _ => True) (Sys.exec 1 false)
      (fun o S _ => hStep 1 .openIndex o S) n fun _ _ => trivial
  let p := (openIndex.run.advance (Sys.exec 1 false) 6 S₁).1
  have hEnd : (p.advance (Sys.exec 1 false) 1 S₂).1.value.map isLengthError = some true := by
    decide +kernel
  obtain ⟨r, hValue, hLength⟩ := Option.map_eq_some_iff.mp hEnd
  have hRun := (hTask (.build (renamedWorld "a") smallConfig) (S₀.enter 1) openIndex.run).trans
    ((hTask (.update (renamedWorld "b") smallConfig) _ _).trans ((hGuest 6 S₁ _).trans
      ((hTask (.build (renamedWorld "b") smallConfig) _ p).trans
        ((hTask (.update (renamedWorld "cc") smallConfig) _ p).trans (hGuest 1 S₂ p)))))
  rw [Prog.eq_ret_of_value hValue] at hRun
  exact not_opened_of_isLengthError hLength (hAll ⟨∅, none, 0⟩ none (P.Idle S₀) 1 _ r
    (AList.lookup_empty _)
    (by simp) rfl .refl rfl hRun)

end Examples

end Ripindex
