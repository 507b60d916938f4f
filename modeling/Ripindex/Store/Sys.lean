import Ripindex.Lib.Guarantee
import Ripindex.Store.Commits

/-!
# Processes on one index directory

`Sys` is the file system together with the history of the indexes committed so far, and
for each process whether an operation of it has failed. A process may work on its own
staged files at any time, and on other files only while it holds `LOCK`, and then only on
names that are free or that the current manifest does not name. The manifest changes
through a rename to an index the current one evolves to.

## Results

* `Sys.Good.exec` — allowed operations keep the current manifest closed over its files;
* `Sys.rely_exec` — what a process may do is what the others rely on.
-/

namespace Ripindex

variable [Platform]

/-- The file system, the committed indexes with the newest first, and the directory as the
last commit left it. For each process and its current task: whether an operation of it has
failed, and the index that was current each time it gave up the lock. -/
structure Sys where
  fs : FsState
  hist : List Index
  snapshot : Dir
  faulted : Pid → Bool
  released : Pid → List (Option Index)

/-- A staged file of another process. -/
def FileName.foreign (pid : Pid) : FileName → Bool
  | staged tag _ => tag.pid ≠ pid
  | _ => false

namespace Sys

/-- The entries of the directory. -/
def dir (S : Sys) : Dir := S.fs.dir

/-- The current index. -/
def current (S : Sys) : Option Index := S.hist.head?

/-- The operation puts a manifest in place. -/
def commits (S : Sys) (fault : Bool) (o : FsOp) : Bool :=
  match o, fault with
  | .rename (.tmp .manifest) .manifest, false => decide (FileName.tmp .manifest ∈ S.dir)
  | _, _ => false

/-- The history after a commit that leaves the directory `d`: what can then be opened is
the newest index. -/
def histAfter (S : Sys) (d : Dir) : List Index :=
  match d.openIndex with
  | .ok (some I) => I :: S.hist
  | _ => S.hist

/-- The failed processes after an operation. That a process fails to take the lock it holds
already makes no difference and does not count. -/
def faultedAfter (S : Sys) (pid : Pid) (fault : Bool) (o : FsOp) : Pid → Bool :=
  match o, fault with
  | _, false => S.faulted
  | .lock, true =>
    if S.fs.lock = some pid then S.faulted else Function.update S.faulted pid true
  | _, true => Function.update S.faulted pid true

def releasedAfter (S : Sys) (pid : Pid) (o : FsOp) : Pid → List (Option Index) :=
  match o with
  | .unlock =>
    if S.fs.lock = some pid then
      Function.update S.released pid (S.released pid ++ [S.current])
    else S.released
  | _ => S.released

/-- Execute one operation for process `pid`. -/
def exec (pid : Pid) (fault : Bool) (o : FsOp) (S : Sys) : o.Res × Sys :=
  let out := o.exec pid fault S.fs
  (out.1,
    { fs := out.2
      hist := if S.commits fault o then S.histAfter out.2.dir else S.hist
      snapshot := if S.commits fault o then out.2.dir else S.snapshot
      faulted := S.faultedAfter pid fault o
      released := S.releasedAfter pid o })

/-- The process begins a task. -/
def enter (S : Sys) (pid : Pid) : Sys :=
  { S with
    faulted := Function.update S.faulted pid false
    released := Function.update S.released pid [] }

/-- The process ends, and its lock is released. -/
def release (S : Sys) (pid : Pid) : Sys := { S with fs := S.fs.release pid }

/-- The manifest is absent until something is committed; afterwards the current index is
in the directory, and it evolved from all earlier ones. -/
structure Good (S : Sys) : Prop where
  backed : ∀ I ∈ S.current, I.Backed S.dir
  snapshot : ∀ I ∈ S.current, I.Backed S.snapshot
  absent : S.current = none → S.dir.lookup .manifest = none
  sound : ∀ I ∈ S.hist, I.Sound
  evolves : S.hist.Pairwise fun I J => J.Evolves I

-- ---------------------------------------------------------------------------
-- What a process may do
-- ---------------------------------------------------------------------------

/-- The process may give the name to a new file. -/
def MayWrite (pid : Pid) (S : Sys) (n : FileName) : Prop :=
  (n.isStaged = true ∧ n.foreign pid = false) ∨
    (S.fs.lock = some pid ∧ WritableOver S.current n)

/-- The process may remove the file. -/
def MayRemove (pid : Pid) (S : Sys) (n : FileName) : Prop :=
  (n.isStaged = true ∧ n.foreign pid = false) ∨
    (S.fs.lock = some pid ∧ n.isStaged = false ∧ n ≠ .manifest ∧
      ∀ I ∈ S.current, n ∉ referencedFiles I.manifest)

/-- The process may commit the directory `d`. -/
structure Publishes (pid : Pid) (S : Sys) (d : Dir) : Prop where
  lock : S.fs.lock = some pid
  unfaulted : S.faulted pid = false
  next : ∃ I : Index, I.Backed d ∧ I.Sound ∧ ∀ J ∈ S.current, J.Evolves I

/-- The operations a process may issue. -/
def Allows (pid : Pid) (o : FsOp) (S : Sys) : Prop :=
  match o with
  | .create n | .write n _ | .sync n => MayWrite pid S n
  | .remove n => MayRemove pid S n
  | .rename a b => MayRemove pid S a ∧ (MayWrite pid S b ∨
      (a = .tmp .manifest ∧ b = .manifest ∧ Publishes pid S (S.dir.rename a b)))
  | .createDirAll | .read _ | .mmap _ | .listDir | .syncDir | .lock | .unlock |
    .stagingTag => True

/-- What a process relies on others to do. -/
structure Rely (pid : Pid) (S S' : Sys) : Prop where
  good : S'.Good
  own : ∀ n, n.isStaged = true → n.foreign pid = false → S'.dir.lookup n = S.dir.lookup n
  held : S.fs.lock = some pid → S'.fs.lock = some pid ∧ S'.hist = S.hist ∧
    ∀ n, n.isStaged = false → S'.dir.lookup n = S.dir.lookup n
  not_held : S.fs.lock ≠ some pid → S'.fs.lock ≠ some pid
  faulted : S'.faulted pid = S.faulted pid
  released : S'.released pid = S.released pid
  hist : S.hist <:+ S'.hist
  tags : S.fs.tags ≤ S'.fs.tags
  kept : ∀ J ∈ S.hist, ∀ s ∈ J.segments, ∀ n ∈ segmentFiles s.entry,
    S'.dir.lookup n = S.dir.lookup n ∨ S'.dir.lookup n = none

variable {pid q : Pid} {S S' S'' : Sys}

theorem Good.sound_current (h : S.Good) : ∀ I ∈ S.current, I.Sound :=
  fun I hI => h.sound I (List.mem_of_mem_head? hI)

/-- Every index of the history evolved to the current one. -/
theorem Good.evolves_current (h : S.Good) {I J : Index} (hI : I ∈ S.current)
    (hJ : J ∈ S.hist) : J.Evolves I := by
  unfold current at hI
  rcases hHist : S.hist with _ | ⟨K, l⟩
  · simp [hHist] at hJ
  · have hPair := h.evolves
    rw [hHist] at hI hJ hPair
    obtain rfl : K = I := by simpa using hI
    rcases List.mem_cons.mp hJ with rfl | hJ
    · exact Index.Evolves.refl J
    · exact (List.pairwise_cons.mp hPair).1 J hJ

theorem Good.current_of_mem (_ : S.Good) {J : Index} (hJ : J ∈ S.hist) :
    ∃ I, S.current = some I := by
  unfold current
  rcases hHist : S.hist with _ | ⟨K, l⟩
  · simp [hHist] at hJ
  · exact ⟨K, rfl⟩

omit [Platform] in
theorem MayWrite.ne_manifest {n : FileName} (h : MayWrite pid S n) : n ≠ .manifest := by
  rcases h with ⟨hStaged, -⟩ | ⟨-, hFree⟩
  · rintro rfl
    simp [FileName.isStaged] at hStaged
  · exact hFree.ne_manifest

omit [Platform] in
theorem MayRemove.ne_manifest {n : FileName} (h : MayRemove pid S n) : n ≠ .manifest := by
  rcases h with ⟨hStaged, -⟩ | ⟨-, -, hNe, -⟩
  · rintro rfl
    simp [FileName.isStaged] at hStaged
  · exact hNe

omit [Platform] in
theorem not_mem_referencedFiles_of_staged {m : Manifest} {n : FileName}
    (h : n.isStaged = true) : n ∉ referencedFiles m := by
  intro hn
  have := Index.isData_of_mem_referencedFiles hn
  cases n <;> simp_all [FileName.isStaged, FileName.isData]

omit [Platform] in
theorem MayRemove.not_mem {n : FileName} (h : MayRemove pid S n) :
    ∀ I ∈ S.current, n ∉ referencedFiles I.manifest := by
  rcases h with ⟨hStaged, -⟩ | ⟨-, -, -, hNot⟩
  · exact fun I _ => not_mem_referencedFiles_of_staged hStaged
  · exact hNot

/-- A name that is free may also be removed. -/
theorem MayWrite.mayRemove {n : FileName} (hS : S.Good) (h : MayWrite pid S n) :
    MayRemove pid S n := by
  rcases h with hOwn | ⟨hLock, hFree⟩
  · exact .inl hOwn
  · refine .inr ⟨hLock, hFree.not_staged, hFree.ne_manifest, fun I hI => ?_⟩
    rw [Option.mem_def.mp hI] at hFree
    exact (hS.sound_current I hI).not_mem_referencedFiles hFree

/-- No file of a segment in the history has a free name. -/
theorem MayWrite.not_mem_segmentFiles {n : FileName} (hS : S.Good) (h : MayWrite pid S n)
    {J : Index} (hJ : J ∈ S.hist) {s : Segment} (hs : s ∈ J.segments) :
    n ∉ segmentFiles s.entry := by
  rcases h with ⟨hStaged, -⟩ | ⟨-, hFree⟩
  · intro hn
    exact not_mem_referencedFiles_of_staged hStaged (J.mem_referencedFiles_of_mem hs hn)
  · obtain ⟨I, hI⟩ := hS.current_of_mem hJ
    rw [hI] at hFree
    exact (hS.evolves_current hI hJ).not_mem_segmentFiles (hS.sound J hJ) hFree hs

-- ---------------------------------------------------------------------------
-- What an operation changes
-- ---------------------------------------------------------------------------

omit [Platform] in
/-- The names an operation may change. -/
def touches : FsOp → List FileName
  | .create n | .write n _ | .sync n | .remove n => [n]
  | .rename a b => [a, b]
  | .createDirAll | .read _ | .mmap _ | .listDir | .syncDir | .lock | .unlock |
    .stagingTag => []

omit [Platform] in
theorem lookup_exec {fault : Bool} {o : FsOp} {s : FsState} {n : FileName}
    (h : n ∉ touches o) : (o.exec pid fault s).2.dir.lookup n = s.dir.lookup n := by
  cases o <;> simp only [touches, List.mem_cons, List.not_mem_nil, or_false, not_or,
    not_false_eq_true] at h <;> cases fault <;>
    simp only [FsOp.exec, Bool.false_eq_true, if_true, if_false]
  case create n' => rw [FsState.withDir_dir, Dir.lookup_insert, if_neg h]
  case write.false n' f => rw [FsState.withDir_dir, Dir.lookup_overwrite, if_neg h]
  case write.true n' f => rw [FsState.withDir_dir, Dir.lookup_overwrite, if_neg h]
  case sync.true n' => rw [FsState.withDir_dir, Dir.lookup_overwrite, if_neg h]
  case rename.false a b =>
    split
    · rw [FsState.withDir_dir, Dir.lookup_rename_of_ne h.1 h.2]
    · rfl
  case remove.false n' =>
    split
    · rw [FsState.withDir_dir, Dir.lookup_erase, if_neg h]
    · rfl
  case lock.false =>
    split <;> rfl
  all_goals
    unfold FsState.release
    split <;> rfl

/-- The operation that commits. -/
def IsCommit (o : FsOp) : Prop := o = .rename (.tmp .manifest) .manifest

omit [Platform] in
theorem commits_eq_false {fault : Bool} {o : FsOp} (h : ¬ IsCommit o) :
    S.commits fault o = false := by
  unfold commits
  split
  · exact absurd rfl h
  · rfl

/-- An operation that is no commit keeps the history. -/
theorem hist_exec_of_not_commit {fault : Bool} {o : FsOp} (h : ¬ IsCommit o) :
    (S.exec pid fault o).2.hist = S.hist := by
  simp [exec, commits_eq_false h]

theorem snapshot_exec_of_not_commit {fault : Bool} {o : FsOp} (h : ¬ IsCommit o) :
    (S.exec pid fault o).2.snapshot = S.snapshot := by
  simp [exec, commits_eq_false h]

/-- An operation that is no commit touches only names the process may remove. -/
theorem Allows.mayRemove {o : FsOp} (h : Allows pid o S) (hS : S.Good) (hO : ¬ IsCommit o) :
    ∀ n ∈ touches o, MayRemove pid S n := by
  intro n hn
  cases o with
  | create m | write m _ | sync m =>
    rw [List.mem_singleton.mp hn]
    exact MayWrite.mayRemove hS h
  | remove m =>
    rw [List.mem_singleton.mp hn]
    exact h
  | rename a b =>
    obtain ⟨hA, hB | ⟨rfl, rfl, -⟩⟩ := h
    · simp only [touches, List.mem_cons, List.not_mem_nil, or_false] at hn
      rcases hn with rfl | rfl
      · exact hA
      · exact hB.mayRemove hS
    · exact absurd rfl hO
  | createDirAll | read _ | mmap _ | listDir | syncDir | lock | unlock | stagingTag =>
    cases hn

/-- With the same history and the same contents under the names that matter, the state is
still good. -/
theorem Good.of_agree (hS : S.Good) (hHist : S'.hist = S.hist)
    (hSnapshot : S'.snapshot = S.snapshot)
    (hManifest : S'.dir.lookup .manifest = S.dir.lookup .manifest)
    (hFiles : ∀ I ∈ S.current, ∀ n ∈ referencedFiles I.manifest,
      S'.dir.lookup n = S.dir.lookup n) : S'.Good := by
  have hCur : S'.current = S.current := by
    unfold current
    rw [hHist]
  refine ⟨?_, ?_, ?_, hHist ▸ hS.sound, hHist ▸ hS.evolves⟩
  · rw [hCur]
    exact fun I hI => (hS.backed I hI).of_agree hManifest (hFiles I hI)
  · rw [hCur, hSnapshot]
    exact hS.snapshot
  · rw [hCur, hManifest]
    exact hS.absent

/-- The rename that commits, when it happens. -/
theorem exec_rename_manifest (pid : Pid) (hMem : FileName.tmp .manifest ∈ S.dir) :
    (S.exec pid false (.rename (.tmp .manifest) .manifest)).1 = .ok () ∧
      (S.exec pid false (.rename (.tmp .manifest) .manifest)).2.dir =
        S.dir.rename (.tmp .manifest) .manifest ∧
      (S.exec pid false (.rename (.tmp .manifest) .manifest)).2.hist =
        S.histAfter (S.dir.rename (.tmp .manifest) .manifest) ∧
      (S.exec pid false (.rename (.tmp .manifest) .manifest)).2.snapshot =
        S.dir.rename (.tmp .manifest) .manifest := by
  have hMem' : FileName.tmp .manifest ∈ S.fs.dir := hMem
  simp [exec, FsOp.exec, commits, hMem', dir]

/-- What a commit makes of the state: nothing, or one more index. -/
theorem exec_commit (fault : Bool)
    (hAllow : Allows pid (.rename (.tmp .manifest) .manifest) S) :
    ((S.exec pid fault (.rename (.tmp .manifest) .manifest)).2.hist = S.hist ∧
      (S.exec pid fault (.rename (.tmp .manifest) .manifest)).2.snapshot = S.snapshot ∧
      (S.exec pid fault (.rename (.tmp .manifest) .manifest)).2.dir = S.dir) ∨
    ∃ I : Index, I.Sound ∧ (∀ J ∈ S.current, J.Evolves I) ∧
      (S.exec pid fault (.rename (.tmp .manifest) .manifest)).2.hist = I :: S.hist ∧
      (S.exec pid fault (.rename (.tmp .manifest) .manifest)).2.snapshot =
        S.dir.rename (.tmp .manifest) .manifest ∧
      (S.exec pid fault (.rename (.tmp .manifest) .manifest)).2.dir =
        S.dir.rename (.tmp .manifest) .manifest ∧
      I.Backed (S.dir.rename (.tmp .manifest) .manifest) := by
  obtain ⟨-, hWrite | ⟨-, -, hPub⟩⟩ := hAllow
  · exact absurd rfl hWrite.ne_manifest
  cases fault with
  | true => exact .inl ⟨rfl, rfl, rfl⟩
  | false =>
    by_cases hMem : FileName.tmp .manifest ∈ S.dir
    · obtain ⟨I, hBacked, hSound, hEvolves⟩ := hPub.next
      obtain ⟨-, hDir, hHist, hSnapshot⟩ := exec_rename_manifest pid hMem
      refine .inr ⟨I, hSound, hEvolves, ?_, hSnapshot, hDir, hBacked⟩
      rw [hHist, histAfter, openIndex_ok_iff.mpr hBacked]
    · have hMem' : FileName.tmp .manifest ∉ S.fs.dir := hMem
      refine .inl ?_
      simp [exec, FsOp.exec, commits, hMem', dir]

/-- Allowed operations keep the current manifest closed over its files. -/
theorem Good.exec (hS : S.Good) {o : FsOp} (hAllow : Allows pid o S) (fault : Bool) :
    (S.exec pid fault o).2.Good := by
  by_cases hO : IsCommit o
  · obtain rfl : o = .rename (.tmp .manifest) .manifest := hO
    rcases exec_commit fault hAllow with
      ⟨hHist, hSnapshot, hDir⟩ | ⟨I, hSound, hEvolves, hHist, hSnapshot, hDir, hBacked⟩
    · exact hS.of_agree hHist hSnapshot (by rw [hDir]) fun I _ n _ => by rw [hDir]
    · refine ⟨?_, ?_, ?_, ?_, ?_⟩
      · unfold current
        rw [hHist, hDir]
        rintro _ ⟨⟩
        exact hBacked
      · unfold current
        rw [hHist, hSnapshot]
        rintro _ ⟨⟩
        exact hBacked
      · unfold current
        rw [hHist]
        simp
      · rw [hHist]
        exact List.forall_mem_cons.mpr ⟨hSound, hS.sound⟩
      · rw [hHist]
        refine List.pairwise_cons.mpr ⟨fun J hJ => ?_, hS.evolves⟩
        obtain ⟨K, hK⟩ := hS.current_of_mem hJ
        exact (hS.evolves_current hK hJ).trans (hEvolves K hK)
  · have hRemove := hAllow.mayRemove hS hO
    refine hS.of_agree (hist_exec_of_not_commit hO) (snapshot_exec_of_not_commit hO)
      (lookup_exec fun hn => ?_)
      fun I hI n hn => lookup_exec fun hTouch => ?_
    · exact (hRemove _ hn).ne_manifest rfl
    · exact (hRemove n hTouch).not_mem I hI hn

-- ---------------------------------------------------------------------------
-- What others rely on
-- ---------------------------------------------------------------------------

theorem Rely.refl (hS : S.Good) : Rely pid S S where
  good := hS
  own := fun _ _ _ => rfl
  held := fun h => ⟨h, rfl, fun _ _ => rfl⟩
  not_held := id
  faulted := rfl
  released := rfl
  hist := List.suffix_refl _
  tags := Nat.le_refl _
  kept := fun _ _ _ _ _ _ => .inl rfl

theorem Rely.trans (h : Rely pid S S') (h' : Rely pid S' S'') : Rely pid S S'' where
  good := h'.good
  own := fun n hStaged hOwn => (h'.own n hStaged hOwn).trans (h.own n hStaged hOwn)
  held := fun hLock => by
    obtain ⟨hLock', hHist, hFiles⟩ := h.held hLock
    obtain ⟨hLock'', hHist', hFiles'⟩ := h'.held hLock'
    exact ⟨hLock'', hHist'.trans hHist, fun n hn => (hFiles' n hn).trans (hFiles n hn)⟩
  not_held := fun hLock => h'.not_held (h.not_held hLock)
  faulted := h'.faulted.trans h.faulted
  released := h'.released.trans h.released
  hist := h.hist.trans h'.hist
  tags := Nat.le_trans h.tags h'.tags
  kept := fun J hJ s hs n hn => by
    rcases h'.kept J (h.hist.subset hJ) s hs n hn with hSame | hNone
    · rw [hSame]
      exact h.kept J hJ s hs n hn
    · exact .inr hNone

omit [Platform] in
/-- The lock after an operation of `pid`. -/
theorem lock_exec (pid : Pid) (fault : Bool) (o : FsOp) (s : FsState) :
    (o.exec pid fault s).2.lock = s.lock ∨
      (o = .lock ∧ s.lock = none ∧ (o.exec pid fault s).2.lock = some pid) ∨
      (o = .unlock ∧ s.lock = some pid ∧ (o.exec pid fault s).2.lock = none) := by
  cases o <;> cases fault <;> simp only [FsOp.exec, Bool.false_eq_true, if_true, if_false]
  case lock.false =>
    by_cases h : s.lock = none <;> simp [h]
  case unlock.false | unlock.true =>
    unfold FsState.release
    by_cases h : s.lock = some pid <;> simp [h]
  case rename.false => split <;> exact .inl rfl
  case remove.false => split <;> exact .inl rfl
  all_goals exact .inl (by first | rfl | trivial)

omit [Platform] in
theorem tags_exec (fault : Bool) (o : FsOp) (s : FsState) :
    s.tags ≤ (o.exec pid fault s).2.tags := by
  cases o <;> cases fault <;> simp only [FsOp.exec, Bool.false_eq_true, if_true, if_false]
  case lock.false => split <;> exact Nat.le_refl _
  case unlock.false | unlock.true =>
    unfold FsState.release
    split <;> exact Nat.le_refl _
  case rename.false => split <;> exact Nat.le_refl _
  case remove.false => split <;> exact Nat.le_refl _
  case stagingTag.false | stagingTag.true => exact Nat.le_succ _
  all_goals exact Nat.le_refl _

omit [Platform] in
/-- A name another process may touch without the lock is none of `q`. -/
theorem MayRemove.foreign {n : FileName} (h : MayRemove pid S n) (hq : pid ≠ q)
    (hLock : S.fs.lock ≠ some pid) : n.isStaged = true ∧ n.foreign q = true := by
  rcases h with ⟨hStaged, hOwn⟩ | ⟨hHeld, -⟩
  · refine ⟨hStaged, ?_⟩
    cases n <;> simp_all [FileName.isStaged, FileName.foreign]
  · exact absurd hHeld hLock

omit [Platform] in
theorem MayRemove.not_own {n : FileName} (h : MayRemove pid S n) (hq : pid ≠ q) :
    ¬ (n.isStaged = true ∧ n.foreign q = false) := by
  rintro ⟨hStaged, hOwn⟩
  rcases h with ⟨-, hOwn'⟩ | ⟨-, hNot, -⟩
  · cases n <;> simp_all [FileName.isStaged, FileName.foreign]
  · rw [hNot] at hStaged
    cases hStaged

theorem hist_exec {o : FsOp} (hAllow : Allows pid o S) (fault : Bool) :
    S.hist <:+ (S.exec pid fault o).2.hist := by
  by_cases hO : IsCommit o
  · obtain rfl : o = .rename (.tmp .manifest) .manifest := hO
    rcases exec_commit fault hAllow with ⟨hHist, -⟩ | ⟨I, -, -, hHist, -⟩
    · exact hHist ▸ List.suffix_refl _
    · exact hHist ▸ List.suffix_cons _ _
  · have hSame : (S.exec pid fault o).2.hist = S.hist := hist_exec_of_not_commit hO
    exact hSame ▸ List.suffix_refl _

/-- A commit is an operation of the holder of the lock. -/
theorem Allows.lock_of_commit {o : FsOp} (h : Allows pid o S) (hO : IsCommit o) :
    S.fs.lock = some pid := by
  obtain rfl : o = .rename (.tmp .manifest) .manifest := hO
  obtain ⟨-, hWrite | ⟨-, -, hPub⟩⟩ := h
  · exact absurd rfl hWrite.ne_manifest
  · exact hPub.lock

omit [Platform] in
/-- The name under which an operation puts a file. -/
def puts : FsOp → List FileName
  | .create n | .write n _ | .sync n | .rename _ n => [n]
  | .remove _ | .createDirAll | .read _ | .mmap _ | .listDir | .syncDir | .lock | .unlock |
    .stagingTag => []

omit [Platform] in
/-- Under any other name a file stays as it is, or goes. -/
theorem lookup_exec_or_none {fault : Bool} {o : FsOp} {s : FsState} {n : FileName}
    (h : n ∉ puts o) : (o.exec pid fault s).2.dir.lookup n = s.dir.lookup n ∨
      (o.exec pid fault s).2.dir.lookup n = none := by
  by_cases hTouch : n ∈ touches o
  · cases fault with
    | true =>
      refine .inl ?_
      cases o with
      | remove m => rfl
      | rename a b => rfl
      | _ => exact absurd hTouch h
    | false =>
      cases o with
      | remove m =>
        obtain rfl : n = m := List.mem_singleton.mp hTouch
        simp only [FsOp.exec, Bool.false_eq_true, if_false]
        split
        · exact .inr (by rw [FsState.withDir_dir, Dir.lookup_erase, if_pos rfl])
        · exact .inl rfl
      | rename a b =>
        have hB : n ≠ b := by simpa [puts] using h
        obtain rfl : n = a := by simpa [touches, hB] using hTouch
        simp only [FsOp.exec, Bool.false_eq_true, if_false]
        split
        · rename_i hMem
          obtain ⟨f, hf⟩ := Dir.mem_iff_lookup.mp hMem
          exact .inr (by rw [FsState.withDir_dir, Dir.lookup_rename hf, if_neg hB, if_pos rfl])
        · exact .inl rfl
      | _ => exact absurd hTouch h
  · exact .inl (lookup_exec hTouch)

/-- A file of a segment in the history is never replaced. -/
theorem kept_exec (hS : S.Good) {o : FsOp} (hAllow : Allows pid o S) (fault : Bool)
    {J : Index} (hJ : J ∈ S.hist) {s : Segment} (hs : s ∈ J.segments) {n : FileName}
    (hn : n ∈ segmentFiles s.entry) :
    (S.exec pid fault o).2.dir.lookup n = S.dir.lookup n ∨
      (S.exec pid fault o).2.dir.lookup n = none := by
  have hData := Index.isData_of_mem_referencedFiles (J.mem_referencedFiles_of_mem hs hn)
  have hWrite : ∀ {m : FileName}, MayWrite pid S m → n ∉ [m] := fun hm hMem =>
    (List.mem_singleton.mp hMem ▸ hm.not_mem_segmentFiles hS hJ hs) hn
  refine lookup_exec_or_none ?_
  cases o with
  | create m | write m _ | sync m => exact hWrite hAllow
  | rename a b =>
    obtain ⟨-, hB | ⟨-, rfl, -⟩⟩ := hAllow
    · exact hWrite hB
    · intro hMem
      rw [List.mem_singleton.mp hMem] at hData
      simp [FileName.isData] at hData
  | remove _ | createDirAll | read _ | mmap _ | listDir | syncDir | lock | unlock | stagingTag =>
    exact List.not_mem_nil

theorem faulted_exec_of_ne {fault : Bool} {o : FsOp} (hq : pid ≠ q) :
    (S.exec pid fault o).2.faulted q = S.faulted q := by
  change S.faultedAfter pid fault o q = _
  unfold faultedAfter
  split
  · rfl
  · split
    · rfl
    · exact Function.update_of_ne (Ne.symm hq) _ _
  · exact Function.update_of_ne (Ne.symm hq) _ _

theorem released_exec_of_ne {fault : Bool} {o : FsOp} (hq : pid ≠ q) :
    (S.exec pid fault o).2.released q = S.released q := by
  change S.releasedAfter pid o q = _
  unfold releasedAfter
  split
  · split
    · exact Function.update_of_ne (Ne.symm hq) _ _
    · rfl
  · rfl

/-- What a process may do is what the others rely on. -/
theorem rely_exec (hS : S.Good) {o : FsOp} (hAllow : Allows pid o S) (fault : Bool)
    (hq : pid ≠ q) : Rely q S (S.exec pid fault o).2 := by
  have hFs : (S.exec pid fault o).2.fs = (o.exec pid fault S.fs).2 := rfl
  refine ⟨hS.exec hAllow fault, ?_, ?_, ?_, faulted_exec_of_ne hq, released_exec_of_ne hq,
    hist_exec hAllow fault, tags_exec fault o S.fs,
    fun J hJ s hs n hn => kept_exec hS hAllow fault hJ hs hn⟩
  · intro n hStaged hOwn
    refine lookup_exec fun hTouch => ?_
    by_cases hO : IsCommit o
    · obtain rfl : o = .rename (.tmp .manifest) .manifest := hO
      simp only [touches, List.mem_cons, List.not_mem_nil, or_false] at hTouch
      rcases hTouch with rfl | rfl <;> simp [FileName.isStaged] at hStaged
    · exact (hAllow.mayRemove hS hO n hTouch).not_own hq ⟨hStaged, hOwn⟩
  · intro hLock
    have hNot : S.fs.lock ≠ some pid := by
      rw [hLock]
      simpa using Ne.symm hq
    have hO : ¬ IsCommit o := fun hO => hNot (hAllow.lock_of_commit hO)
    refine ⟨?_, hist_exec_of_not_commit hO, fun n hn => lookup_exec fun hTouch => ?_⟩
    · rw [hFs]
      rcases lock_exec pid fault o S.fs with h | ⟨-, hNone, -⟩ | ⟨-, hHeld, -⟩
      · rw [h, hLock]
      · rw [hNone] at hLock
        cases hLock
      · exact absurd hHeld hNot
    · have := ((hAllow.mayRemove hS hO n hTouch).foreign hq hNot).1
      rw [hn] at this
      cases this
  · intro hLock
    rw [hFs]
    rcases lock_exec pid fault o S.fs with h | ⟨-, -, h⟩ | ⟨-, -, h⟩
    · rwa [h]
    · rw [h]
      simpa using hq
    · rw [h]
      simp

omit [Platform] in
theorem dir_release : (S.release pid).dir = S.dir := FsState.release_dir S.fs pid

theorem Good.release (hS : S.Good) : (S.release pid).Good :=
  hS.of_agree rfl rfl (by rw [dir_release]) fun _ _ n _ => by rw [dir_release]

theorem Good.enter (hS : S.Good) : (S.enter pid).Good :=
  hS.of_agree rfl rfl rfl fun _ _ _ _ => rfl

/-- The end of a process only releases its lock. -/
theorem rely_release (hS : S.Good) (hq : pid ≠ q) : Rely q S (S.release pid) := by
  refine ⟨hS.release, fun n _ _ => by rw [dir_release],
    fun hLock => ⟨?_, rfl, fun n _ => by rw [dir_release]⟩,
    fun hLock => ?_, rfl, rfl, List.suffix_refl _, ?_,
    fun _ _ _ _ n _ => .inl (by rw [dir_release])⟩
  · unfold release FsState.release
    rw [if_neg (by rw [hLock]; simpa using Ne.symm hq)]
    exact hLock
  · unfold release FsState.release
    split
    · simp
    · exact hLock
  · unfold release FsState.release
    split <;> exact Nat.le_refl _

/-- The start of a task concerns no other process. -/
theorem rely_enter (hS : S.Good) (hq : pid ≠ q) : Rely q S (S.enter pid) where
  good := hS.enter
  own := fun _ _ _ => rfl
  held := fun h => ⟨h, rfl, fun _ _ => rfl⟩
  not_held := id
  faulted := Function.update_of_ne (Ne.symm hq) _ _
  released := Function.update_of_ne (Ne.symm hq) _ _
  hist := List.suffix_refl _
  tags := Nat.le_refl _
  kept := fun _ _ _ _ _ _ => .inl rfl

end Sys

end Ripindex
