import Ripindex.Lib.Disk
import Ripindex.Store.Serial
import Ripindex.Store.SyncOrder

/-!
# Power losses

Under the directory as processes see it there is a disk, which keeps changes of the directory in
memory until the directory is synced, and contents until the file is. When the power fails it may
keep or lose each of these changes.

A manifest is renamed into place when every file that it names is durable; until the next sync of
the directory a power loss leaves this manifest or the one before, and the files of both are there
as long as nobody removes any (`KeepsReplaced`). The code removes files when that sync fails, and
after the writer was killed before it; with both left out (`Careful`) none is removed.

## Results

* `OnDisk.step`                — what an operation of a process keeps;
* `OnDisk.survives`            — what a power loss leaves;
* `power_loss_keeps_commits`   — in every run: the last commit, or the one before while it is not
  yet durable;
* `Restarts.serial`            — what any number of power losses leave.
-/

namespace Ripindex

-- ---------------------------------------------------------------------------
-- The disk under the directory
-- ---------------------------------------------------------------------------

/-- What an operation does to the disk. -/
def FsOp.onDisk (fault : Bool) : FsOp → Option (DiskOp FileName FileData)
  | .create n => if fault then none else some (.create n .torn)
  | .write n f => some (.write n (if fault then .torn else f))
  | .sync n => some (if fault then .write n .torn else .sync n)
  | .rename a b => if fault then none else some (.rename a b)
  | .remove n => if fault then none else some (.remove n)
  | .syncDir => if fault then none else some .syncDir
  | .createDirAll | .read _ | .mmap _ | .listDir | .lock | .unlock | .stagingTag => none

/-- The disk after an operation. -/
def stepDisk (fault : Bool) (o : FsOp) (K : Disk FileName FileData) : Disk FileName FileData :=
  match o.onDisk fault with
  | some op => K.exec op
  | none => K

/-- A disk on which a directory is durable. -/
def Dir.mounted (d : Dir) : Disk FileName FileData :=
  .settled (fun n => if n ∈ d then some (d.keys.idxOf n) else none)
    (fun i => ((d.keys[i]?).bind d.lookup).getD .torn) d.keys.length

section Disk

variable {K : Disk FileName FileData} {d : Dir} {n : FileName} {o : FsOp} {fault : Bool}
  {op : DiskOp FileName FileData} {pid : Pid} {s : FsState}

theorem sound_mounted (d : Dir) : d.mounted.Sound := by
  refine Disk.sound_settled (fun n m i hn hm => ?_) fun n i hn => ?_
  · grind [List.idxOf_inj, AList.mem_keys]
  · split at hn
    · rename_i hMem
      obtain rfl := Option.some.inj hn
      exact List.idxOf_lt_length_of_mem hMem
    · cases hn

theorem lookup_mounted (d : Dir) (n : FileName) : d.mounted.lookup n = d.lookup n := by
  change Option.map _ (if n ∈ d then some (d.keys.idxOf n) else none) = d.lookup n
  split
  · rename_i hMem
    obtain ⟨f, hf⟩ := Dir.mem_iff_lookup.mp hMem
    have hKey : d.keys[d.keys.idxOf n]? = some n := List.getElem?_idxOf hMem
    change some (((d.keys[d.keys.idxOf n]?).bind d.lookup).getD .torn) = _
    rw [hKey, Option.bind_some, hf]
    rfl
  · rename_i hNot
    exact (AList.lookup_eq_none.mpr hNot).symm

theorem touches_onDisk (h : o.onDisk fault = some op) (hn : n ∈ op.touches) :
    n ∈ Sys.touches o := by
  cases o <;> cases fault <;>
    simp only [FsOp.onDisk, if_true, if_false, Bool.false_eq_true, Option.some.injEq, reduceCtorEq]
      at h <;>
    subst h <;> exact hn

/-- The disk shows what processes see. -/
theorem lookup_stepDisk (hK : K.Sound) (hShows : ∀ n, s.dir.lookup n = K.lookup n) (n : FileName) :
    (o.exec pid fault s).2.dir.lookup n = (stepDisk fault o K).lookup n := by
  have hOverwrite : ∀ m f, (s.dir.overwrite m f).lookup n = (K.write m f).lookup n := fun m f => by
    rw [Dir.lookup_overwrite, Disk.lookup_write hK, hShows, hShows]
  have hMem : ∀ m, m ∈ s.dir ↔ (K.lookup m).isSome := fun m => by
    rw [← hShows, AList.lookup_isSome]
  cases o with
  | create m =>
    cases fault with
    | true => exact hShows n
    | false =>
      change (s.dir.insert m .torn : Dir).lookup n = (K.create m .torn).lookup n
      rw [Dir.lookup_insert, Disk.lookup_create hK, hShows]
  | write m f =>
    cases fault with
    | true => exact hOverwrite m .torn
    | false => exact hOverwrite m f
  | sync m =>
    cases fault with
    | true => exact hOverwrite m .torn
    | false => exact (hShows n).trans (Disk.lookup_sync m n).symm
  | rename a b =>
    cases fault with
    | true => exact hShows n
    | false =>
      change (FsOp.exec pid false (.rename a b) s).2.dir.lookup n = (K.rename a b).lookup n
      simp only [FsOp.exec, Bool.false_eq_true, if_false]
      split
      · rename_i hA
        obtain ⟨f, hf⟩ := Option.isSome_iff_exists.mp ((hMem a).mp hA)
        rw [FsState.withDir_dir, Dir.lookup_rename ((hShows a).trans hf),
          Disk.lookup_rename hf, hShows]
      · rename_i hA
        have hNone : K.entries a = none := by
          rw [hMem, Option.not_isSome_iff_eq_none] at hA
          exact Option.map_eq_none_iff.mp hA
        rw [hShows]
        unfold Disk.rename
        rw [hNone]
  | remove m =>
    cases fault with
    | true => exact hShows n
    | false =>
      change (FsOp.exec pid false (.remove m) s).2.dir.lookup n = (K.remove m).lookup n
      simp only [FsOp.exec, Bool.false_eq_true, if_false]
      rw [Disk.lookup_remove, ← hShows]
      split
      · rw [FsState.withDir_dir, Dir.lookup_erase]
      · rename_i hM
        split
        · rename_i hEq
          rw [hEq]
          exact AList.lookup_eq_none.mpr hM
        · rfl
  | syncDir => cases fault <;> exact hShows n
  | lock =>
    cases fault with
    | true => exact hShows n
    | false =>
      simp only [FsOp.exec, Bool.false_eq_true, if_false]
      split <;> exact hShows n
  | unlock =>
    change (s.release pid).dir.lookup n = K.lookup n
    rw [FsState.release_dir]
    exact hShows n
  | createDirAll | read _ | mmap _ | listDir | stagingTag => exact hShows n

theorem sound_stepDisk (hK : K.Sound) : (stepDisk fault o K).Sound := by
  unfold stepDisk
  split
  · exact hK.exec _
  · exact hK

theorem certain_stepDisk {V : Set (Option FileData)} (hK : K.Sound) (h : K.Certain n V)
    (hn : n ∉ Sys.touches o) : (stepDisk fault o K).Certain n V := by
  unfold stepDisk
  split
  · rename_i op hOp
    exact h.exec hK fun hTouch => hn (touches_onDisk hOp hTouch)
  · exact h

theorem unsettled_stepDisk (hSync : o = .syncDir → fault = true) (hn : n ∉ Sys.touches o) :
    (stepDisk fault o K).Unsettled n ↔ K.Unsettled n := by
  unfold stepDisk
  split
  · rename_i op hOp
    refine Disk.unsettled_exec ?_ fun hTouch => hn (touches_onDisk hOp hTouch)
    rintro rfl
    cases o <;> cases fault <;> simp_all [FsOp.onDisk]
  · rfl

/-- A synced file stays synced when the process that acts is in order. -/
theorem synced_stepDisk (hK : K.Sound) (h : K.Synced n)
    (hWrite : ∀ f, o ≠ .create n ∧ o ≠ .write n f ∧ (o = .sync n → fault = false))
    (hMove : ∀ a, o = .rename a n → K.Synced a) : (stepDisk fault o K).Synced n := by
  unfold stepDisk
  split
  · rename_i op hOp
    refine h.exec hK (fun f => ⟨?_, ?_⟩) fun a => ?_
    · rintro rfl
      have hNot := (hWrite .torn).1
      cases o <;> cases fault <;> simp_all [FsOp.onDisk]
    · rintro rfl
      obtain ⟨-, hNot, hSync⟩ := hWrite f
      obtain ⟨-, hNot', -⟩ := hWrite .torn
      cases o <;> cases fault <;> simp_all [FsOp.onDisk]
    · rintro rfl
      cases o <;> cases fault <;> simp_all [FsOp.onDisk]
  · exact h

theorem synced_stepDisk_of_not_mem (hK : K.Sound) (h : K.Synced n) (hn : n ∉ Sys.touches o) :
    (stepDisk fault o K).Synced n := by
  refine synced_stepDisk hK h (fun f => ⟨?_, ?_, ?_⟩) fun a => ?_
  all_goals
    rintro rfl
    exact absurd (by simp [Sys.touches]) hn

/-- A power loss may undo the last operation. -/
theorem survives_stepDisk : (stepDisk fault o K).Survives K.lookup := by
  unfold stepDisk
  split
  · exact K.survives_exec _
  · exact K.survives_lookup

end Disk

-- ---------------------------------------------------------------------------
-- What is durable
-- ---------------------------------------------------------------------------

variable [Platform]

/-- The index that the last commit replaced. -/
def Sys.replaced (S : Sys) : Option Index := S.hist.tail.head?

/-- While the rename of the manifest is not durable, no operation removes or replaces a file that
the manifest before names. -/
def KeepsReplaced (K : Disk FileName FileData) (S : Sys) (o : FsOp) (fault : Bool) : Prop :=
  K.Unsettled .manifest → fault = false → ∀ I ∈ S.replaced, ∀ n ∈ referencedFiles I.manifest,
    n ∉ Sys.touches o

/-- While the rename of the manifest is not durable, the sync of the directory does not fail, and
the lock is not taken. -/
def Careful (K : Disk FileName FileData) (S : Sys) (o : FsOp) (fault : Bool) : Prop :=
  K.Unsettled .manifest →
    (o = .syncDir → fault = false) ∧ (o = .lock → fault = true ∨ S.fs.lock ≠ none)

/-- Every power loss leaves the data files as they are. -/
def Clean (S : Sys) (K : Disk FileName FileData) : Prop :=
  ∀ n, n.isData = true → K.Certain n {S.dir.lookup n}

/-- Every power loss leaves the files that the index names. -/
def Complete (I : Option Index) (S : Sys) (K : Disk FileName FileData) : Prop :=
  ∀ J ∈ I, ∀ n ∈ referencedFiles J.manifest, K.Certain n {S.dir.lookup n}

/-- Every power loss leaves this manifest or the one before, and the files of that one too. -/
structure Swapping (start : List Index) (S : Sys) (K : Disk FileName FileData) : Prop where
  complete : Complete S.replaced S K
  two : ∃ x, K.Certain .manifest {S.dir.lookup .manifest, x} ∧ ∃ I h, S.hist = I :: h ∧
    start <:+ h ∧ ∀ d : Dir, d.lookup .manifest = x →
      (∀ J ∈ h.head?, ∀ n ∈ referencedFiles J.manifest, d.lookup n = S.dir.lookup n) →
        d.Holds h.head?

/-- What holds of the disk among processes that began with the history `start`. -/
structure OnDisk (start : List Index) (S : Sys) (K : Disk FileName FileData) : Prop where
  sound : K.Sound
  shows : ∀ n, S.dir.lookup n = K.lookup n
  synced : ∀ n, n.isScratch = false → K.Synced n
  grown : start <:+ S.hist
  complete : Complete S.current S K
  settled : ¬ K.Unsettled .manifest → K.Certain .manifest {S.dir.lookup .manifest}
  swapping : K.Unsettled .manifest → Swapping start S K

/-- What a process has synced is so. -/
structure SyncState.Holds (pid : Pid) (g : SyncState) (S : Sys) (K : Disk FileName FileData) :
    Prop where
  files : ∀ n ∈ g.files, n.foreign pid = false → n.isStaged = true ∨ S.fs.lock = some pid →
    K.Synced n
  dir : g.dir = true → S.fs.lock = some pid → Clean S K ∧ ¬ K.Unsettled .manifest

/-- A process that holds the lock while the manifest is not durable has just renamed it. -/
def SyncState.Renamed (pid : Pid) (g : SyncState) (S : Sys) (K : Disk FileName FileData) : Prop :=
  S.fs.lock = some pid → K.Unsettled .manifest → g.renamed = true

section Durable

variable {start : List Index} {S : Sys} {K : Disk FileName FileData} {pid : Pid} {g : SyncState}
  {o : FsOp} {fault : Bool} {n : FileName}

omit [Platform] in
theorem FileName.isScratch_of_isData (h : n.isData = true) : n.isScratch = false := by
  cases n <;> first | rfl | cases h

/-- What is not touched is as certain as it was. -/
theorem Clean.step (hK : K.Sound) (h : Clean S K)
    (hData : ∀ n, n.isData = true → n ∉ Sys.touches o) :
    Clean (S.exec pid fault o).2 (stepDisk fault o K) := by
  intro n hn
  have hSame : (S.exec pid fault o).2.dir.lookup n = S.dir.lookup n :=
    Sys.lookup_exec (hData n hn)
  rw [hSame]
  exact certain_stepDisk hK (h n hn) (hData n hn)

/-- What is not touched, unless by an operation that fails, is as certain as it was. -/
theorem certain_exec (hK : K.Sound) (hOrder : g.Allows o) (hn : n.isData = true)
    (hNot : fault = false → n ∉ Sys.touches o) (h : K.Certain n {S.dir.lookup n}) :
    (stepDisk fault o K).Certain n {(S.exec pid fault o).2.dir.lookup n} ∧
      (S.exec pid fault o).2.dir.lookup n = S.dir.lookup n := by
  by_cases hTouch : n ∈ Sys.touches o
  · obtain rfl : fault = true := by
      rw [← Bool.not_eq_false]
      exact fun hFault => hNot hFault hTouch
    have hNotScratch := FileName.isScratch_of_isData hn
    cases o with
    | create m | write m f | sync m =>
      obtain rfl := List.mem_singleton.mp hTouch
      cases hNotScratch.symm.trans hOrder.2
    | rename a b | remove m => exact ⟨h, rfl⟩
    | createDirAll | read m | mmap m | listDir | syncDir | lock | unlock | stagingTag =>
      cases hTouch
  · have hSame : (S.exec pid fault o).2.dir.lookup n = S.dir.lookup n := Sys.lookup_exec hTouch
    exact ⟨hSame ▸ certain_stepDisk hK h hTouch, hSame⟩

/-- What a process moves is synced. -/
theorem SyncState.Holds.synced (h : g.Holds pid S K) {a b : FileName}
    (hAllow : Sys.Allows pid (.rename a b) S) (hOrder : g.Allows (.rename a b)) : K.Synced a := by
  rcases hAllow.1 with ⟨hStaged, hOwn⟩ | ⟨hLock, hStaged, -⟩
  · exact h.files a hOrder.2.1 hOwn (.inl hStaged)
  · exact h.files a hOrder.2.1 (Sys.foreign_of_not_staged hStaged) (.inr hLock)

/-- No operation in order leaves a file that a manifest may name without its contents synced. -/
theorem OnDisk.synced_step (hDisk : OnDisk start S K) (hAllow : Sys.Allows pid o S)
    (hOrder : g.Allows o) (h : g.Holds pid S K) (hn : n.isScratch = false) :
    (stepDisk fault o K).Synced n := by
  refine synced_stepDisk hDisk.sound (hDisk.synced n hn) (fun f => ⟨?_, ?_, ?_⟩) ?_
  · rintro rfl
    cases hn.symm.trans hOrder.2
  · rintro rfl
    cases hn.symm.trans hOrder.2
  · rintro rfl
    cases hn.symm.trans hOrder.2
  · rintro a rfl
    exact h.synced hAllow hOrder

/-- Only the manifest and the files that it names matter. -/
theorem Dir.Holds.of_agree {d d' : Dir} {prev : Option Index} (h : d.Holds prev)
    (hManifest : d'.lookup .manifest = d.lookup .manifest)
    (hFiles : ∀ I ∈ prev, ∀ n ∈ referencedFiles I.manifest, d'.lookup n = d.lookup n) :
    d'.Holds prev := by
  cases prev with
  | none => exact hManifest.trans h
  | some I => exact Index.Backed.of_agree h hManifest (hFiles I rfl)

/-- The directory is synced. -/
theorem OnDisk.syncDir (hDisk : OnDisk start S K) :
    OnDisk start (S.exec pid false .syncDir).2 (stepDisk false .syncDir K) ∧
      Clean (S.exec pid false .syncDir).2 (stepDisk false .syncDir K) := by
  have hCertain : ∀ n, n.isScratch = false →
      (stepDisk false .syncDir K).Certain n {S.dir.lookup n} := fun n hn => by
    rw [hDisk.shows]
    exact (hDisk.synced n hn).certain hDisk.sound
  have hSettled : ¬ (stepDisk false .syncDir K).Unsettled .manifest :=
    K.not_unsettled_syncDir .manifest
  refine ⟨⟨sound_stepDisk hDisk.sound, lookup_stepDisk hDisk.sound hDisk.shows, hDisk.synced,
    hDisk.grown, fun I _ n hn => hCertain n ?_, fun _ => hCertain _ rfl,
    fun h => absurd h hSettled⟩, fun n hn => hCertain n (FileName.isScratch_of_isData hn)⟩
  exact FileName.isScratch_of_isData (Index.isData_of_mem_referencedFiles hn)

/-- The manifest is renamed into place: a power loss leaves it or the one before. -/
theorem OnDisk.commit (hDisk : OnDisk start S K) (hS : S.Good)
    (hAllow : Sys.Allows pid (.rename (.tmp .manifest) .manifest) S)
    (hOrder : g.Allows (.rename (.tmp .manifest) .manifest)) (h : g.Holds pid S K)
    (hMem : FileName.tmp .manifest ∈ S.dir) :
    OnDisk start (S.exec pid false (.rename (.tmp .manifest) .manifest)).2
      (stepDisk false (.rename (.tmp .manifest) .manifest) K) := by
  have hLock : S.fs.lock = some pid := hAllow.lock_of_commit rfl
  obtain ⟨hClean, hSettled⟩ := h.dir (hOrder.2.2 rfl) hLock
  have hTmp : (K.entries (.tmp .manifest)).isSome := by
    have hLookup : (K.lookup (.tmp .manifest)).isSome := by
      rw [← hDisk.shows, AList.lookup_isSome]
      exact hMem
    unfold Disk.lookup at hLookup
    rwa [Option.isSome_map] at hLookup
  obtain ⟨f, hf⟩ := Dir.mem_iff_lookup.mp hMem
  obtain ⟨I, hHist, hDir⟩ : ∃ I : Index,
      (S.exec pid false (.rename (.tmp .manifest) .manifest)).2.hist = I :: S.hist ∧
        (S.exec pid false (.rename (.tmp .manifest) .manifest)).2.dir =
          S.dir.rename (.tmp .manifest) .manifest := by
    rcases Sys.exec_commit false hAllow with ⟨-, -, hDir⟩ | ⟨I, -, -, hHist, -, hDir, -⟩
    · -- The file cannot stay where it was.
      rw [(Sys.exec_rename_manifest pid hMem).2.1] at hDir
      have hGone : (S.dir.rename (.tmp .manifest) .manifest).lookup (.tmp .manifest) = none := by
        rw [Dir.lookup_rename hf]
        rfl
      rw [hDir, hf] at hGone
      cases hGone
    · exact ⟨I, hHist, hDir⟩
  have hData : ∀ n : FileName, n.isData = true →
      n ∉ Sys.touches (.rename (.tmp .manifest) .manifest) := by
    intro n hn hTouch
    simp only [Sys.touches, List.mem_cons, List.not_mem_nil, or_false] at hTouch
    rcases hTouch with rfl | rfl <;> cases hn
  have hManifest : (S.exec pid false (.rename (.tmp .manifest) .manifest)).2.dir.lookup .manifest =
      K.lookup (.tmp .manifest) := by
    rw [hDir, Dir.lookup_rename hf, if_pos rfl, ← hDisk.shows, hf]
  have hKept : Clean (S.exec pid false (.rename (.tmp .manifest) .manifest)).2
      (stepDisk false (.rename (.tmp .manifest) .manifest) K) := hClean.step hDisk.sound hData
  have hComplete : ∀ J, Complete J (S.exec pid false (.rename (.tmp .manifest) .manifest)).2
      (stepDisk false (.rename (.tmp .manifest) .manifest) K) := fun J L _ n hn =>
    hKept n (Index.isData_of_mem_referencedFiles hn)
  refine ⟨sound_stepDisk hDisk.sound, lookup_stepDisk hDisk.sound hDisk.shows,
    fun n hn => hDisk.synced_step hAllow hOrder h hn, ?_, hComplete _,
    fun hNot => absurd (Disk.unsettled_rename hTmp) hNot, fun _ => ⟨hComplete _,
      S.dir.lookup .manifest, ?_, I, S.hist, hHist, hDisk.grown, fun d hOld hSame => ?_⟩⟩
  · rw [hHist]
    exact hDisk.grown.trans (List.suffix_cons _ _)
  · rw [hManifest]
    exact (hDisk.settled hSettled).rename_onto hDisk.sound (h.synced hAllow hOrder) hTmp
  · -- The files of the manifest before are there as well.
    refine hS.holds.of_agree hOld fun J hJ n hn => (hSame J hJ n hn).trans ?_
    exact Sys.lookup_exec (hData n (Index.isData_of_mem_referencedFiles hn))

/-- Every other operation leaves the manifest and the files that it names as they are. -/
theorem OnDisk.other (hDisk : OnDisk start S K) (hS : S.Good) (hAllow : Sys.Allows pid o S)
    (hOrder : g.Allows o) (h : g.Holds pid S K) (hKeeps : KeepsReplaced K S o fault)
    (hO : ¬ Sys.IsCommit o) (hSync : o = .syncDir → fault = true) :
    OnDisk start (S.exec pid fault o).2 (stepDisk fault o K) := by
  have hRemove := hAllow.mayRemove hS hO
  have hManifest : FileName.manifest ∉ Sys.touches o := fun hn => (hRemove _ hn).ne_manifest rfl
  have hUnsettled := unsettled_stepDisk (K := K) hSync hManifest
  have hHist : (S.exec pid fault o).2.hist = S.hist := Sys.hist_exec_of_not_commit hO
  have hLookup : (S.exec pid fault o).2.dir.lookup .manifest = S.dir.lookup .manifest :=
    Sys.lookup_exec hManifest
  refine ⟨sound_stepDisk hDisk.sound, lookup_stepDisk hDisk.sound hDisk.shows,
    fun n hn => hDisk.synced_step hAllow hOrder h hn, hHist ▸ hDisk.grown, ?_, fun hSettled => ?_,
    fun hWaits => ?_⟩
  · intro I hI n hn
    have hCur : I ∈ S.current := by
      unfold Sys.current at hI ⊢
      rwa [hHist] at hI
    exact (certain_exec hDisk.sound hOrder (Index.isData_of_mem_referencedFiles hn)
      (fun _ hTouch => (hRemove n hTouch).not_mem I hCur hn) (hDisk.complete I hCur n hn)).1
  · exact hLookup ▸
      certain_stepDisk hDisk.sound (hDisk.settled (mt hUnsettled.mpr hSettled)) hManifest
  · have hBefore := hUnsettled.mp hWaits
    obtain ⟨hComplete, x, hCertain, I, rest, hEq, hGrown, hOld⟩ := hDisk.swapping hBefore
    have hReplaced : S.replaced = rest.head? := by
      rw [Sys.replaced, hEq]
      rfl
    have hKept : ∀ J ∈ S.replaced, ∀ n ∈ referencedFiles J.manifest,
        (stepDisk fault o K).Certain n {(S.exec pid fault o).2.dir.lookup n} ∧
          (S.exec pid fault o).2.dir.lookup n = S.dir.lookup n := fun J hJ n hn =>
      certain_exec hDisk.sound hOrder (Index.isData_of_mem_referencedFiles hn)
        (fun hFault => hKeeps hBefore hFault J hJ n hn) (hComplete J hJ n hn)
    refine ⟨fun J hJ n hn => (hKept J ?_ n hn).1, x,
      hLookup ▸ certain_stepDisk hDisk.sound hCertain hManifest, I, rest, hHist ▸ hEq, hGrown,
      fun d hx hSame => hOld d hx fun J hJ n hn => (hSame J hJ n hn).trans ?_⟩
    · unfold Sys.replaced at hJ ⊢
      rwa [hHist] at hJ
    · exact (hKept J (hReplaced ▸ hJ) n hn).2

theorem exec_rename_ok {a b : FileName} (hMem : a ∈ S.dir) :
    (S.exec pid false (.rename a b)).1 = .ok () := by
  have hMem' : a ∈ S.fs.dir := hMem
  change (FsOp.exec pid false (.rename a b) S.fs).1 = _
  simp only [FsOp.exec, Bool.false_eq_true, if_false, if_pos hMem']

/-- A rename that fails does nothing. -/
theorem exec_rename_failed (pid : Pid) (hShows : ∀ n, S.dir.lookup n = K.lookup n) {a : FileName}
    (b : FileName) (hNot : ¬ (fault = false ∧ a ∈ S.dir)) :
    (∃ e, (S.exec pid fault (.rename a b)).1 = .error e) ∧
      (S.exec pid fault (.rename a b)).2.fs = S.fs ∧
      (S.exec pid fault (.rename a b)).2.hist = S.hist ∧
      stepDisk fault (.rename a b) K = K := by
  cases fault with
  | true => exact ⟨⟨_, rfl⟩, rfl, by simp [Sys.exec, Sys.commits], rfl⟩
  | false =>
    have hA : a ∉ S.fs.dir := fun hMem => hNot ⟨rfl, hMem⟩
    have hExec : FsOp.exec pid false (.rename a b) S.fs = (.error .notFound, S.fs) := by
      simp only [FsOp.exec, Bool.false_eq_true, if_false, if_neg hA]
    refine ⟨⟨_, congrArg Prod.fst hExec⟩, congrArg Prod.snd hExec, ?_, ?_⟩
    · have hCommits : S.commits false (.rename a b) = false := by
        unfold Sys.commits
        split
        · rename_i hEq _
          obtain ⟨rfl, -⟩ : a = .tmp .manifest ∧ b = .manifest := by simpa using hEq
          exact decide_eq_false hA
        · rfl
      exact if_neg (by rw [hCommits]; exact Bool.false_ne_true)
    · have hNone : K.entries a = none := by
        have hNoFile : S.dir.lookup a = none := AList.lookup_eq_none.mpr hA
        exact Option.map_eq_none_iff.mp ((hShows a).symm.trans hNoFile)
      change K.rename a b = K
      unfold Disk.rename
      rw [hNone]

theorem OnDisk.congr {S' : Sys} (hDisk : OnDisk start S K) (hDir : S'.dir = S.dir)
    (hHist : S'.hist = S.hist) : OnDisk start S' K where
  sound := hDisk.sound
  shows := fun n => hDir ▸ hDisk.shows n
  synced := hDisk.synced
  grown := hHist ▸ hDisk.grown
  complete := fun I hI n hn => by
    rw [hDir]
    refine hDisk.complete I ?_ n hn
    unfold Sys.current at hI ⊢
    rwa [hHist] at hI
  settled := fun h => hDir ▸ hDisk.settled h
  swapping := fun h => by
    obtain ⟨hComplete, hTwo⟩ := hDisk.swapping h
    unfold Complete Sys.replaced at hComplete
    rw [← hDir, ← hHist] at hComplete hTwo
    exact ⟨hComplete, hTwo⟩

/-- What an operation of a process keeps. -/
theorem OnDisk.step (hDisk : OnDisk start S K) (hS : S.Good) (hAllow : Sys.Allows pid o S)
    (hOrder : g.Allows o) (h : g.Holds pid S K) (hKeeps : KeepsReplaced K S o fault) :
    OnDisk start (S.exec pid fault o).2 (stepDisk fault o K) := by
  by_cases hO : Sys.IsCommit o
  · obtain rfl : o = .rename (.tmp .manifest) .manifest := hO
    by_cases hMem : fault = false ∧ FileName.tmp .manifest ∈ S.dir
    · obtain ⟨rfl, hMem⟩ := hMem
      exact hDisk.commit hS hAllow hOrder h hMem
    · obtain ⟨-, hFs, hHist, hSame⟩ := exec_rename_failed pid hDisk.shows .manifest hMem
      rw [hSame]
      exact hDisk.congr (congrArg FsState.dir hFs) hHist
  · by_cases hSync : o = .syncDir ∧ fault = false
    · obtain ⟨rfl, rfl⟩ := hSync
      exact hDisk.syncDir.1
    · exact hDisk.other hS hAllow hOrder h hKeeps hO fun hEq => by
        rw [← Bool.not_eq_false]
        exact fun hFault => hSync ⟨hEq, hFault⟩

-- ---------------------------------------------------------------------------
-- What a process knows
-- ---------------------------------------------------------------------------

/-- A file counts as synced because it was before and is not written, or because it is synced. -/
theorem SyncState.mem_files_next (hn : n ∈ (g.next o (S.exec pid fault o).1).files) :
    (o = .sync n ∧ fault = false) ∨ (n ∈ g.files ∧ (o = .lock → n.isStaged = true) ∧
      ∀ f, o ≠ .create n ∧ o ≠ .write n f ∧ (o = .sync n → fault = false)) := by
  cases o with
  | create m =>
    have hNe : m ≠ n := fun hEq => hn.2 hEq.symm
    exact .inr ⟨hn.1, by simp, fun f => by simp [hNe]⟩
  | write m f =>
    have hNe : m ≠ n := fun hEq => hn.2 hEq.symm
    exact .inr ⟨hn.1, by simp, fun f => by simp [hNe]⟩
  | sync m =>
    cases fault with
    | true =>
      have hNe : m ≠ n := fun hEq => hn.2 hEq.symm
      exact .inr ⟨hn.1, by simp, fun f => by simp [hNe]⟩
    | false =>
      rcases hn with rfl | hn
      · exact .inl ⟨rfl, rfl⟩
      · exact .inr ⟨hn, by simp, fun f => by simp⟩
  | rename a b =>
    refine .inr ⟨?_, by simp, fun f => by simp⟩
    revert hn
    generalize (S.exec pid fault (.rename a b)).1 = r
    cases r <;> exact id
  | lock => exact .inr ⟨hn.1, fun _ => hn.2, fun f => by simp⟩
  | remove m | syncDir | createDirAll | read m | mmap m | listDir | unlock | stagingTag =>
    exact .inr ⟨hn, by simp, fun f => by simp⟩

/-- Only by taking the lock a process comes to hold it. -/
theorem held_before (hLock : (S.exec pid fault o).2.fs.lock = some pid) (hO : o ≠ .lock) :
    S.fs.lock = some pid := by
  rcases Sys.lock_exec pid fault o S.fs with hSame | ⟨hEq, -, -⟩ | ⟨-, -, hNone⟩
  · exact hSame.symm.trans hLock
  · exact absurd hEq hO
  · cases hNone.symm.trans hLock

theorem SyncState.Holds.files_step (h : g.Holds pid S K) (hDisk : OnDisk start S K)
    (hAllow : Sys.Allows pid o S) (hOrder : g.Allows o) :
    ∀ n ∈ (g.next o (S.exec pid fault o).1).files, n.foreign pid = false →
      n.isStaged = true ∨ (S.exec pid fault o).2.fs.lock = some pid →
        (stepDisk fault o K).Synced n := by
  intro n hn hOwn hMine
  rcases SyncState.mem_files_next hn with ⟨rfl, rfl⟩ | ⟨hOld, hLock, hWrite⟩
  · exact K.synced_sync n
  · refine synced_stepDisk hDisk.sound (h.files n hOld hOwn ?_) hWrite fun a hEq => ?_
    · rcases hMine with hStaged | hMine
      · exact .inl hStaged
      · by_cases hEq : o = .lock
        · exact .inl (hLock hEq)
        · exact .inr (held_before hMine hEq)
    · subst hEq
      exact h.synced hAllow hOrder

/-- Scratch files are nothing to what is durable. -/
theorem SyncState.Holds.dir_scratch (h : g.Holds pid S K) (hDisk : OnDisk start S K)
    (hDir : g.dir = true) (hLock : S.fs.lock = some pid) (hSync : o = .syncDir → fault = true)
    (hScratch : ∀ n ∈ Sys.touches o, n.isScratch = true) :
    Clean (S.exec pid fault o).2 (stepDisk fault o K) ∧
      ¬ (stepDisk fault o K).Unsettled .manifest := by
  obtain ⟨hClean, hSettled⟩ := h.dir hDir hLock
  have hNot : ∀ n : FileName, n.isScratch = false → n ∉ Sys.touches o := fun n hn hTouch => by
    cases hn.symm.trans (hScratch n hTouch)
  exact ⟨hClean.step hDisk.sound fun n hn => hNot n (FileName.isScratch_of_isData hn),
    mt (unsettled_stepDisk hSync (hNot .manifest rfl)).mp hSettled⟩

theorem SyncState.Holds.dir_step (h : g.Holds pid S K) (hDisk : OnDisk start S K)
    (hOrder : g.Allows o) (hDir : (g.next o (S.exec pid fault o).1).dir = true)
    (hLock : (S.exec pid fault o).2.fs.lock = some pid) :
    Clean (S.exec pid fault o).2 (stepDisk fault o K) ∧
      ¬ (stepDisk fault o K).Unsettled .manifest := by
  have hHeld := held_before hLock
  cases o with
  | create m | write m f | sync m =>
    have hBefore : g.dir = true := by
      revert hDir
      first | exact id | (generalize (S.exec pid fault (.sync m)).1 = r; cases r <;> exact id)
    refine h.dir_scratch hDisk hBefore (hHeld (by simp)) (by simp) fun n hn => ?_
    rw [List.mem_singleton.mp hn]
    exact hOrder.2
  | rename a b =>
    by_cases hMem : fault = false ∧ a ∈ S.dir
    · obtain ⟨rfl, hMem⟩ := hMem
      rw [exec_rename_ok hMem] at hDir
      cases hDir
    · obtain ⟨⟨e, hError⟩, hFs, -, hSame⟩ := exec_rename_failed pid hDisk.shows b hMem
      rw [hError] at hDir
      have hClean := h.dir hDir (hHeld (by simp))
      unfold Clean Sys.dir at hClean ⊢
      rwa [hSame, hFs]
  | syncDir =>
    cases fault with
    | true => cases hDir
    | false => exact ⟨hDisk.syncDir.2, K.not_unsettled_syncDir .manifest⟩
  | remove m => cases hDir
  | lock => cases hDir
  | createDirAll | read m | mmap m | listDir | unlock | stagingTag =>
    exact h.dir_scratch hDisk hDir (hHeld (by simp)) (by simp) fun _ hTouch => by cases hTouch

/-- What a process has synced is so after an operation of it. -/
theorem SyncState.Holds.step (h : g.Holds pid S K) (hDisk : OnDisk start S K)
    (hAllow : Sys.Allows pid o S) (hOrder : g.Allows o) :
    (g.next o (S.exec pid fault o).1).Holds pid (S.exec pid fault o).2 (stepDisk fault o K) where
  files := h.files_step hDisk hAllow hOrder
  dir := h.dir_step hDisk hOrder

omit [Platform] in
/-- A staged file belongs to one process. -/
theorem FileName.owner_unique {p q : Pid} (hStaged : n.isStaged = true)
    (hp : n.foreign p = false) (hq : n.foreign q = false) : p = q := by
  cases n with
  | staged tag part =>
    have hP : tag.pid = p := by simpa [FileName.foreign] using hp
    have hQ : tag.pid = q := by simpa [FileName.foreign] using hq
    exact hP.symm.trans hQ
  | manifest | idx _ | doc _ | del _ _ | overlay _ | tmp _ => cases hStaged

/-- Other processes do not take a lock that is held. -/
theorem held_before_other {q : Pid} (hNe : q ≠ pid)
    (hLock : (S.exec pid fault o).2.fs.lock = some q) : S.fs.lock = some q := by
  rcases Sys.lock_exec pid fault o S.fs with hSame | ⟨-, -, hTaken⟩ | ⟨-, -, hNone⟩
  · exact hSame.symm.trans hLock
  · exact absurd (Option.some.inj (hLock.symm.trans hTaken)) hNe
  · cases hNone.symm.trans hLock

/-- They touch staged files of their own, and others under the lock. -/
theorem touches_of_allows (hS : S.Good) (hAllow : Sys.Allows pid o S) :
    ∀ n ∈ Sys.touches o, (n.isStaged = true ∧ n.foreign pid = false) ∨
      (n.isStaged = false ∧ S.fs.lock = some pid) := by
  intro n hn
  by_cases hO : Sys.IsCommit o
  · refine .inr ⟨?_, hAllow.lock_of_commit hO⟩
    obtain rfl : o = .rename (.tmp .manifest) .manifest := hO
    simp only [Sys.touches, List.mem_cons, List.not_mem_nil, or_false] at hn
    rcases hn with rfl | rfl <;> rfl
  · exact (hAllow.mayRemove hS hO n hn).imp_right fun hRemove => ⟨hRemove.2.1, hRemove.1⟩

/-- What is not staged is left to the process that holds the lock. -/
theorem not_mem_touches_other {q : Pid} (hNe : q ≠ pid) (hS : S.Good)
    (hAllow : Sys.Allows pid o S) (hLock : S.fs.lock = some q) (hn : n.isStaged = false) :
    n ∉ Sys.touches o := by
  intro hTouch
  rcases touches_of_allows hS hAllow n hTouch with ⟨hStaged, -⟩ | ⟨-, hMine⟩
  · cases hn.symm.trans hStaged
  · exact hNe (Option.some.inj (hLock.symm.trans hMine))

omit [Platform] in
/-- What waits to be durable and was not touched waited before. -/
theorem unsettled_before (hn : n ∉ Sys.touches o) (h : (stepDisk fault o K).Unsettled n) :
    K.Unsettled n := by
  refine (unsettled_stepDisk ?_ hn).mp h
  rintro rfl
  rw [← Bool.not_eq_false]
  rintro rfl
  exact K.not_unsettled_syncDir n h

/-- Other processes leave what a process has synced. -/
theorem SyncState.Holds.other {q : Pid} (h : g.Holds q S K) (hNe : q ≠ pid)
    (hDisk : OnDisk start S K) (hS : S.Good) (hAllow : Sys.Allows pid o S) :
    g.Holds q (S.exec pid fault o).2 (stepDisk fault o K) := by
  refine ⟨fun n hn hOwn hMine => ?_, fun hDir hLock => ?_⟩
  · have hMine := hMine.imp_right (held_before_other hNe)
    refine synced_stepDisk_of_not_mem hDisk.sound (h.files n hn hOwn hMine) fun hTouch => ?_
    cases hStaged : n.isStaged with
    | true =>
      rcases touches_of_allows hS hAllow n hTouch with ⟨-, hTheirs⟩ | ⟨hNot, -⟩
      · exact hNe (FileName.owner_unique hStaged hOwn hTheirs)
      · cases hNot.symm.trans hStaged
    | false =>
      refine not_mem_touches_other hNe hS hAllow (hMine.resolve_left ?_) hStaged hTouch
      rw [hStaged]
      exact Bool.false_ne_true
  · have hLock := held_before_other hNe hLock
    obtain ⟨hClean, hSettled⟩ := h.dir hDir hLock
    exact ⟨hClean.step hDisk.sound fun n hn =>
      not_mem_touches_other hNe hS hAllow hLock (isStaged_of_isData hn),
      mt (unsettled_before (not_mem_touches_other hNe hS hAllow hLock rfl)) hSettled⟩

-- ---------------------------------------------------------------------------
-- Careful processes
-- ---------------------------------------------------------------------------

omit [Platform] in
/-- A process in order acts on nothing but the directory after it has renamed the manifest. -/
theorem SyncState.Renamed.settled (h : g.Renamed pid S K) (hOrder : g.Allows o)
    (hO : o ≠ .syncDir) (hLock : S.fs.lock = some pid) : ¬ K.Unsettled .manifest :=
  fun hUnsettled => hO (hOrder.1 (h hLock hUnsettled))

/-- So it keeps the files of the manifest before. -/
theorem SyncState.Renamed.keepsReplaced (h : g.Renamed pid S K) (hS : S.Good)
    (hAllow : Sys.Allows pid o S) (hOrder : g.Allows o) : KeepsReplaced K S o fault := by
  intro hWaits _ I _ n hn hTouch
  have hData := Index.isData_of_mem_referencedFiles hn
  rcases touches_of_allows hS hAllow n hTouch with ⟨hStaged, -⟩ | ⟨-, hLock⟩
  · rw [isStaged_of_isData hData] at hStaged
    cases hStaged
  · refine h.settled hOrder ?_ hLock hWaits
    rintro rfl
    cases hTouch

theorem SyncState.Renamed.step (h : g.Renamed pid S K) (hDisk : OnDisk start S K)
    (hAllow : Sys.Allows pid o S) (hOrder : g.Allows o) (hCareful : Careful K S o fault) :
    (g.next o (S.exec pid fault o).1).Renamed pid (S.exec pid fault o).2 (stepDisk fault o K) := by
  intro hLock hWaits
  have hHeld := held_before hLock
  -- Otherwise the manifest is durable, and stays so.
  have hSettled : o ≠ .lock → o ≠ .syncDir → FileName.manifest ∉ Sys.touches o → False :=
    fun hO hSync hNot => h.settled hOrder hSync (hHeld hO)
      ((unsettled_stepDisk (fun hEq => absurd hEq hSync) hNot).mp hWaits)
  cases o with
  | create m | write m f | sync m =>
    refine (hSettled (by simp) (by simp) fun hMem => ?_).elim
    exact Sys.MayWrite.ne_manifest hAllow (List.mem_singleton.mp hMem).symm
  | remove m =>
    refine (hSettled (by simp) (by simp) fun hMem => ?_).elim
    exact Sys.MayRemove.ne_manifest hAllow (List.mem_singleton.mp hMem).symm
  | rename a b =>
    by_cases hMem : fault = false ∧ a ∈ S.dir
    · obtain ⟨rfl, hMem⟩ := hMem
      rw [exec_rename_ok hMem]
      refine decide_eq_true (of_not_not fun hB => hSettled (by simp) (by simp) fun hTouch => ?_)
      simp only [Sys.touches, List.mem_cons, List.not_mem_nil, or_false] at hTouch
      rcases hTouch with hEq | hEq
      · exact hAllow.1.ne_manifest hEq.symm
      · exact hB hEq.symm
    · obtain ⟨⟨e, hError⟩, -, -, hSame⟩ := exec_rename_failed pid hDisk.shows b hMem
      rw [hError]
      rw [hSame] at hWaits
      exact h (hHeld (by simp)) hWaits
  | syncDir =>
    cases fault with
    | true => cases (hCareful hWaits).1 rfl
    | false => exact absurd hWaits (K.not_unsettled_syncDir .manifest)
  | lock =>
    rcases (hCareful hWaits).2 rfl with rfl | hTaken
    · exact h hLock hWaits
    · rcases Sys.lock_exec pid fault .lock S.fs with hSame | ⟨-, hFree, -⟩ | ⟨hEq, -, -⟩
      · exact h (hSame.symm.trans hLock) hWaits
      · exact absurd hFree hTaken
      · cases hEq
  | createDirAll | read m | mmap m | listDir | unlock | stagingTag =>
    exact h (hHeld (by simp)) hWaits

theorem SyncState.Renamed.other {q : Pid} (h : g.Renamed q S K) (hNe : q ≠ pid) (hS : S.Good)
    (hAllow : Sys.Allows pid o S) :
    g.Renamed q (S.exec pid fault o).2 (stepDisk fault o K) := by
  intro hLock hWaits
  have hLock := held_before_other hNe hLock
  exact h hLock (unsettled_before (not_mem_touches_other hNe hS hAllow hLock rfl) hWaits)

-- ---------------------------------------------------------------------------
-- What a power loss leaves
-- ---------------------------------------------------------------------------

/-- What a power loss leaves: what is committed, or what was before, as long as the manifest is not
durable. -/
theorem OnDisk.survives (hDisk : OnDisk start S K) (hS : S.Good) {d : Dir}
    (hLoss : K.Survives fun n => d.lookup n) :
    d.Holds S.hist.head? ∨ (K.Unsettled .manifest ∧ ∃ I h, S.hist = I :: h ∧ start <:+ h ∧
      d.Holds h.head?) := by
  by_cases hWaits : K.Unsettled .manifest
  · obtain ⟨hComplete, x, hCertain, I, h, hHist, hGrown, hOld⟩ := hDisk.swapping hWaits
    rcases hCertain.survives hLoss with hNew | hBefore
    · exact .inl (hS.holds.of_agree hNew fun J hJ n hn =>
        (hDisk.complete J hJ n hn).survives hLoss)
    · refine .inr ⟨hWaits, I, h, hHist, hGrown, hOld d hBefore fun J hJ n hn => ?_⟩
      refine (hComplete J ?_ n hn).survives hLoss
      rw [Sys.replaced, hHist]
      exact hJ
  · exact .inl (hS.holds.of_agree ((hDisk.settled hWaits).survives hLoss) fun J hJ n hn =>
      (hDisk.complete J hJ n hn).survives hLoss)

/-- A directory that is durable. -/
theorem OnDisk.mounted {s : FsState} {prev : Option Index} :
    OnDisk prev.toList (.start s prev) s.dir.mounted := by
  have hCertain : ∀ n, s.dir.mounted.Certain n {s.dir.lookup n} := fun n => by
    rw [← lookup_mounted]
    exact Disk.certain_settled (sound_mounted s.dir)
  have hSettled : ¬ s.dir.mounted.Unsettled .manifest := by
    rintro ⟨c, hc, -⟩
    cases hc
  exact ⟨sound_mounted _, fun n => (lookup_mounted _ n).symm, fun _ _ _ _ => rfl,
    List.suffix_refl _, fun _ _ n _ => hCertain n, fun _ => hCertain _,
    fun h => absurd h hSettled⟩

end Durable

-- ---------------------------------------------------------------------------
-- Runs
-- ---------------------------------------------------------------------------

/-- Programs on a directory with the disk under it, as far as the operations are as `keeps` says. -/
def diskPool {W : Type} (prog : W → FsM Unit)
    (admits : W → List (Option Index) → Option Index → Prop)
    (keeps : Disk FileName FileData → Sys → FsOp → Bool → Prop) :
    Pool FsOp FsOp.Res (Sys × Disk FileName FileData) Pid W where
  prog := fun _ w => prog w
  step := fun pid w o s r s' => ∃ fault : Bool, (fault = true → o.fallible = true) ∧
    (o = .lock → fault = false → s.1.fs.lock = none → admits w (s.1.released pid) s.1.current) ∧
    s.1.exec pid fault o = (r, s'.1) ∧ stepDisk fault o s.2 = s'.2 ∧ keeps s.2 s.1 o fault
  enter := fun pid s => (s.1.enter pid, s.2)
  stop := fun pid s => (s.1.release pid, s.2)

/-- Processes on a directory with the disk under it. -/
def onDisks (admits : Task → Option Index → Prop) :
    Pool FsOp FsOp.Res (Sys × Disk FileName FileData) Pid Task :=
  diskPool Task.program (Task.Admits admits) Careful

/-- What the processes know, as `known` says, is enough to keep the files of the manifest before,
and they go on to know it. -/
structure KnownOf (keeps : Disk FileName FileData → Sys → FsOp → Bool → Prop)
    (known : Pid → SyncState → Sys → Disk FileName FileData → Prop) : Prop where
  keepsReplaced : ∀ {pid g S K o fault}, known pid g S K → S.Good → Sys.Allows pid o S →
    g.Allows o → keeps K S o fault → KeepsReplaced K S o fault
  free : ∀ {pid g S K}, S.fs.lock ≠ some pid → known pid g S K
  step : ∀ {start pid g S K o fault}, known pid g S K → OnDisk start S K → Sys.Allows pid o S →
    g.Allows o → keeps K S o fault →
      known pid (g.next o (S.exec pid fault o).1) (S.exec pid fault o).2 (stepDisk fault o K)
  other : ∀ {pid q g S K o fault}, known q g S K → q ≠ pid → S.Good → Sys.Allows pid o S →
    known q g (S.exec pid fault o).2 (stepDisk fault o K)
  congr : ∀ {pid g S S' K}, known pid g S K →
    (S'.fs.lock = some pid → S.fs.lock = some pid) → known pid g S' K

theorem knownOf_careful : KnownOf Careful SyncState.Renamed where
  keepsReplaced h hS hAllow hOrder _ := h.keepsReplaced hS hAllow hOrder
  free hNot := fun hLock => absurd hLock hNot
  step h hDisk hAllow hOrder hCareful := h.step hDisk hAllow hOrder hCareful
  other h hNe hS hAllow := h.other hNe hS hAllow
  congr h hHeld := fun hLock => h (hHeld hLock)

/-- Where nothing else is asked, nothing has to be known. -/
theorem knownOf_keepsReplaced : KnownOf KeepsReplaced fun _ _ _ _ => True where
  keepsReplaced _ _ _ _ hKeeps := hKeeps
  free _ := trivial
  step _ _ _ _ _ := trivial
  other _ _ _ _ := trivial
  congr _ _ := trivial

section Runs

variable {admits : Task → Option Index → Prop} {prev : Option Index} {s : FsState} {W : Type}
  {prog : W → FsM Unit} {may : W → List (Option Index) → Option Index → Prop}
  {keeps : Disk FileName FileData → Sys → FsOp → Bool → Prop}
  {known : Pid → SyncState → Sys → Disk FileName FileData → Prop}

/-- What processes see of a configuration. -/
def seen (c : (diskPool prog may keeps).Conf) : (sharedPool prog may).Conf :=
  ⟨c.state.1, c.procs⟩

theorem step_seen {c c' : (diskPool prog may keeps).Conf}
    (h : (diskPool prog may keeps).Step c c') :
    (sharedPool prog may).Step (seen c) (seen c') := by
  cases h with
  | start i w hIdle => exact .start i w hIdle
  | op i hProc hStep =>
    obtain ⟨fault, hMay, hAdm, hExec, -, -⟩ := hStep
    exact .op i hProc ⟨fault, hMay, hAdm, hExec⟩
  | finish i hProc => exact .finish i hProc
  | stop i hProc => exact .stop i hProc

theorem run_seen {c c' : (diskPool prog may keeps).Conf}
    (h : (diskPool prog may keeps).Run c c') :
    (sharedPool prog may).Run (seen c) (seen c') := by
  induction h with
  | refl => exact .refl
  | tail _ hStep ih => exact ih.tail (step_seen hStep)

omit [Platform] in
/-- The processes after one of them has gone on. -/
theorem forall_procs_update {procs : Pid → Option (W × FsM Unit)} {i : Pid}
    {x : Option (W × FsM Unit)} {Q : Pid → FsM Unit → Prop}
    (hTurn : ∀ w p, x = some (w, p) → Q i p)
    (hOthers : ∀ pid, pid ≠ i → ∀ w p, procs pid = some (w, p) → Q pid p) :
    ∀ pid w p, Function.update procs i x pid = some (w, p) → Q pid p := by
  intro pid w p hProc
  by_cases hPid : pid = i
  · subst hPid
    rw [Function.update_self] at hProc
    exact hTurn w p hProc
  · rw [Function.update_of_ne hPid] at hProc
    exact hOthers pid hPid w p hProc

/-- The rest of the program is in order. -/
def GoesOn (known : Pid → SyncState → Sys → Disk FileName FileData → Prop) (S : Sys)
    (K : Disk FileName FileData) (pid : Pid) (p : FsM Unit) : Prop :=
  ∃ g : SyncState, p.wp SyncState.contract (fun _ g' => g'.renamed = false) g ∧
    g.Holds pid S K ∧ known pid g S K

/-- A change that leaves the directory and takes no lock. -/
theorem GoesOn.congr (hKnown : KnownOf keeps known) {S S' : Sys} {K : Disk FileName FileData}
    {pid : Pid} {p : FsM Unit} (h : GoesOn known S K pid p) (hDir : S'.dir = S.dir)
    (hHeld : S'.fs.lock = some pid → S.fs.lock = some pid) : GoesOn known S' K pid p := by
  obtain ⟨g, hWp, hg, hk⟩ := h
  refine ⟨g, hWp, ⟨fun n hn hOwn hMine => hg.files n hn hOwn (hMine.imp_right hHeld),
    fun hSynced hLock => ?_⟩, hKnown.congr hk hHeld⟩
  have hClean := hg.dir hSynced (hHeld hLock)
  unfold Clean at hClean ⊢
  rwa [hDir]

omit [Platform] in
/-- A process that stops gives up the lock, if it has it. -/
theorem lock_of_release {s : FsState} {i pid : Pid} (h : (s.release i).lock = some pid) :
    s.lock = some pid := by
  unfold FsState.release at h
  split at h
  · cases h
  · exact h

/-- What is committed is on disk, and every process goes on in order. -/
structure AllInOrder (known : Pid → SyncState → Sys → Disk FileName FileData → Prop)
    (start : List Index) (c : (diskPool prog may keeps).Conf) : Prop where
  disk : OnDisk start c.state.1 c.state.2
  procs : ∀ pid w p, c.procs pid = some (w, p) → GoesOn known c.state.1 c.state.2 pid p

/-- A step of one process keeps that. -/
theorem AllInOrder.step {start : List Index} (hKnown : KnownOf keeps known)
    (hOrdered : ∀ (w : W) (g : SyncState), g.renamed = false →
      (prog w).wp SyncState.contract (fun _ g' => g'.renamed = false) g)
    {c c' : (diskPool prog may keeps).Conf} (hGood : c.state.1.Good)
    (hSound : Pool.Sound (sharedPool prog may) (fun pid S S' => Sys.Rely pid S S') Sys.Allows
      (fun pid S => S.fs.lock ≠ some pid) (seen c))
    (h : AllInOrder known start c) (hStep : (diskPool prog may keeps).Step c c') :
    AllInOrder known start c' := by
  obtain ⟨hDisk, hProcs⟩ := h
  cases hStep with
  | start i w hIdle =>
    refine ⟨hDisk.congr rfl rfl, forall_procs_update (fun w' p hProc => ?_)
      fun pid _ w' p hProc => (hProcs pid w' p hProc).congr hKnown rfl id⟩
    obtain ⟨rfl, rfl⟩ := Prod.mk.inj (Option.some.inj hProc)
    have hNot : ¬ _ := (hSound.soundAt i).of_idle hIdle
    refine ⟨⟨∅, false, false⟩, hOrdered w _ rfl, ⟨fun n hn => hn.elim, fun hDir => ?_⟩,
      hKnown.free hNot⟩
    cases hDir
  | @op i w o k r s' hProc hOp =>
    obtain ⟨fault, -, -, hExec, hStepDisk, hKeeps⟩ := hOp
    obtain ⟨S', K'⟩ := s'
    obtain rfl : (c.state.1.exec i fault o).1 = r := congrArg Prod.fst hExec
    obtain rfl : (c.state.1.exec i fault o).2 = S' := congrArg Prod.snd hExec
    obtain rfl : stepDisk fault o c.state.2 = K' := hStepDisk
    have hAllow : Sys.Allows i o c.state.1 := by
      have hAt := hSound.soundAt i
      unfold Pool.SoundAt at hAt
      rw [show (seen c).procs i = _ from hProc] at hAt
      exact (hAt c.state.1 (.refl hGood)).1
    obtain ⟨g, hWp, hg, hk⟩ := hProcs i w _ hProc
    obtain ⟨hOrder, hRest⟩ := hWp g rfl
    have hReplaced := hKnown.keepsReplaced hk hGood hAllow hOrder hKeeps
    refine ⟨hDisk.step hGood hAllow hOrder hg hReplaced,
      forall_procs_update (fun w' p hProc' => ?_) fun pid hPid w' p hProc' => ?_⟩
    · obtain ⟨rfl, rfl⟩ := Prod.mk.inj (Option.some.inj hProc')
      exact ⟨_, hRest _ _ rfl, hg.step hDisk hAllow hOrder,
        hKnown.step hk hDisk hAllow hOrder hKeeps⟩
    · obtain ⟨g', hWp', hg', hk'⟩ := hProcs pid w' p hProc'
      exact ⟨g', hWp', hg'.other hPid hDisk hGood hAllow, hKnown.other hk' hPid hGood hAllow⟩
  | finish i hProc =>
    exact ⟨hDisk, forall_procs_update (fun w p hNone => by cases hNone) fun pid _ => hProcs pid⟩
  | @stop i w p hProc =>
    exact ⟨hDisk.congr (FsState.release_dir _ _) rfl,
      forall_procs_update (fun w p hNone => by cases hNone) fun pid _ w' p' hProc' =>
        (hProcs pid w' p' hProc').congr hKnown (FsState.release_dir _ _) lock_of_release⟩

/-- In every run the processes keep to their contracts. -/
theorem sound_of_run
    (hFits : (sharedPool prog may).Fits (fun pid S S' => Sys.Rely pid S S') Sys.Allows
      (fun pid S => S.fs.lock ≠ some pid) Sys.Good)
    (hHolds : s.dir.Holds prev) (hPrev : ∀ I ∈ prev, I.Sound) (hLock : s.lock = none)
    {c : (diskPool prog may keeps).Conf}
    (hRun : (diskPool prog may keeps).Run
      ((diskPool prog may keeps).Idle (.start s prev, s.dir.mounted)) c) :
    c.state.1.Good ∧ Pool.Sound (sharedPool prog may) (fun pid S S' => Sys.Rely pid S S')
      Sys.Allows (fun pid S => S.fs.lock ≠ some pid) (seen c) := by
  refine Pool.Run.sound hFits (.start hHolds hPrev) (fun pid => ?_) (run_seen hRun)
  change s.lock ≠ some pid
  rw [hLock]
  simp

/-- What is in order stays so in every run. -/
theorem AllInOrder.run {start : List Index} (hKnown : KnownOf keeps known)
    (hFits : (sharedPool prog may).Fits (fun pid S S' => Sys.Rely pid S S') Sys.Allows
      (fun pid S => S.fs.lock ≠ some pid) Sys.Good)
    (hOrdered : ∀ (w : W) (g : SyncState), g.renamed = false →
      (prog w).wp SyncState.contract (fun _ g' => g'.renamed = false) g)
    (hHolds : s.dir.Holds prev) (hPrev : ∀ I ∈ prev, I.Sound) (hLock : s.lock = none)
    {c c' : (diskPool prog may keeps).Conf}
    (hRun : (diskPool prog may keeps).Run
      ((diskPool prog may keeps).Idle (.start s prev, s.dir.mounted)) c)
    (h : AllInOrder known start c) (hLater : (diskPool prog may keeps).Run c c') :
    AllInOrder known start c' := by
  induction hLater with
  | refl => exact h
  | tail hMid hStep ih =>
    obtain ⟨hGood, hSound⟩ := sound_of_run hFits hHolds hPrev hLock (hRun.trans hMid)
    exact ih.step hKnown hOrdered hGood hSound hStep

/-- At the start all is on disk. -/
theorem AllInOrder.idle :
    AllInOrder known prev.toList ((diskPool prog may keeps).Idle (.start s prev, s.dir.mounted)) :=
  ⟨.mounted, fun pid w p hProc => by cases hProc⟩

/-- In every run of careful tasks what is committed is on disk. -/
theorem onDisk_of_run (hHolds : s.dir.Holds prev) (hPrev : ∀ I ∈ prev, I.Sound)
    (hLock : s.lock = none) {c : (onDisks admits).Conf}
    (hRun : (onDisks admits).Run ((onDisks admits).Idle (.start s prev, s.dir.mounted)) c) :
    c.state.1.Good ∧ OnDisk prev.toList c.state.1 c.state.2 := by
  have hFits := processes_fit_of admits
  obtain ⟨hGood, -⟩ := sound_of_run hFits hHolds hPrev hLock hRun
  exact ⟨hGood, (AllInOrder.idle.run knownOf_careful hFits (fun t _ => t.wp_ordered) hHolds hPrev
    hLock .refl hRun).disk⟩

/-- Whatever processes do on a directory, and wherever the power fails: the directory is left with
the last index that was committed, or the one before as long as the rename of the last manifest is
not durable. -/
theorem power_loss_keeps_commits (hHolds : s.dir.Holds prev) (hPrev : ∀ I ∈ prev, I.Sound)
    (hLock : s.lock = none) {c : (onDisks admits).Conf}
    (hRun : (onDisks admits).Run ((onDisks admits).Idle (.start s prev, s.dir.mounted)) c)
    {d : Dir} (hLoss : c.state.2.Survives fun n => d.lookup n) :
    ∃ log, Serial admits prev log ∧ c.state.1.dir.Holds (lastOf prev log) ∧
      (d.Holds (lastOf prev log) ∨ (c.state.2.Unsettled .manifest ∧
        ∃ last rest, log = last :: rest ∧ d.Holds (lastOf prev rest))) := by
  obtain ⟨hGood, hDisk⟩ := onDisk_of_run hHolds hPrev hLock hRun
  have hSeen : (processes (Task.Admits admits)).Run
      ((processes (Task.Admits admits)).Idle (.start s prev)) (seen c) := run_seen hRun
  obtain ⟨-, log, hLog, hHist⟩ := serialHistory_of_run hHolds hPrev hLock hSeen
  change c.state.1.hist = _ at hHist
  have hHoldsNow := Sys.Good.holds hGood
  change c.state.1.dir.Holds c.state.1.hist.head? at hHoldsNow
  rw [hHist] at hHoldsNow
  refine ⟨log, hLog, hHoldsNow, ?_⟩
  rcases hDisk.survives hGood hLoss with hLast | ⟨hWaits, I, h, hEq, hGrown, hBefore⟩
  · change d.Holds c.state.1.hist.head? at hLast
    rw [hHist] at hLast
    exact .inl hLast
  · change c.state.1.hist = _ at hEq
    rw [hHist] at hEq
    cases log with
    | nil =>
      -- The history has grown.
      have hLength := hGrown.length_le
      rw [List.map_nil, List.nil_append] at hEq
      rw [hEq, List.length_cons] at hLength
      omega
    | cons last rest =>
      obtain ⟨-, rfl⟩ := List.cons.inj hEq
      exact .inr ⟨hWaits, last, rest, rfl, hBefore⟩

-- ---------------------------------------------------------------------------
-- Restarts
-- ---------------------------------------------------------------------------

/-- The directories that power losses leave of an empty one, among processes that run in between. -/
inductive Restarts (admits : Task → Option Index → Prop) : Dir → Prop
  | new : Restarts admits ∅
  | loss {s : FsState} {prev : Option Index} {c : (onDisks admits).Conf} {d : Dir}
      (hBefore : Restarts admits s.dir) (hHolds : s.dir.Holds prev) (hLock : s.lock = none)
      (hRun : (onDisks admits).Run ((onDisks admits).Idle (.start s prev, s.dir.mounted)) c)
      (hLoss : c.state.2.Survives fun n => d.lookup n) : Restarts admits d

theorem lastOf_append (more log : List (Operation × Index)) :
    lastOf prev (more ++ log) = lastOf (lastOf prev log) more := by
  unfold lastOf
  cases more <;> simp

/-- Serial executions one after the other. -/
theorem Serial.append {more log : List (Operation × Index)}
    (hMore : Serial admits (lastOf prev log) more) (hLog : Serial admits prev log) :
    Serial admits prev (more ++ log) := by
  induction hMore with
  | start => exact hLog
  | commit _ hDoes hAdmits hMakes hLeaves ih =>
    rw [← lastOf_append] at hAdmits hMakes hLeaves
    exact .commit ih hDoes hAdmits hMakes hLeaves

/-- However often the power fails, the directory is left with an index of a serial execution. -/
theorem Restarts.serial {d : Dir} (h : Restarts admits d) :
    ∃ log, Serial admits none log ∧ d.Holds (lastOf none log) := by
  induction h with
  | new => exact ⟨[], .start, AList.lookup_empty _⟩
  | @loss s prev c d hBefore hHolds hLock hRun hLoss ih =>
    obtain ⟨log, hLog, hLast⟩ := ih
    obtain rfl : prev = lastOf none log := hHolds.unique hLast
    obtain ⟨more, hMore, -, hEnd⟩ :=
      power_loss_keeps_commits hHolds (hLog.sound (by simp)) hLock hRun hLoss
    rcases hEnd with hNew | ⟨-, last, rest, rfl, hOld⟩
    · exact ⟨more ++ log, hMore.append hLog, by rwa [lastOf_append]⟩
    · refine ⟨rest ++ log, ?_, by rwa [lastOf_append]⟩
      cases hMore with
      | commit hRest => exact hRest.append hLog

end Runs

section Examples

/-- An operation of a process that does not fail, on the disk as well. -/
def Sys.execOnDisk (pid : Pid) (o : FsOp) (s : Sys × Disk FileName FileData) :
    o.Res × (Sys × Disk FileName FileData) :=
  ((s.1.exec pid false o).1, (s.1.exec pid false o).2, stepDisk false o s.2)

/-- A power loss may undo the last operation of a program. -/
theorem survives_evalN {α : Type} (pid : Pid) (p : FsM α) (n : Nat)
    (s : Sys × Disk FileName FileData) :
    (p.evalN (Sys.execOnDisk pid) (n + 1) s).2.2.Survives
      (p.evalN (Sys.execOnDisk pid) n s).2.2.lookup := by
  rcases Prog.evalN_succ (Sys.execOnDisk pid) n p s with hSame | ⟨o, hNext⟩
  · rw [hSame]
    exact Disk.survives_lookup _
  · rw [hNext]
    exact survives_stepDisk

omit [Platform] in
/-- A build is cut after it renamed the manifest, and the power loss undoes that. -/
theorem power_loss_keeps_commits_small : ∃ _ : Platform, ∃ c, ∃ d : Dir,
    (onDisks fun _ _ => True).Run
      ((onDisks fun _ _ => True).Idle (.start ⟨∅, none, 0⟩ none, Dir.mounted ∅)) c ∧
    (c.state.1.dir.lookup .manifest).isSome ∧ d.lookup .manifest = none ∧
    c.state.2.Survives (fun n => d.lookup n) ∧
    ∃ log, Serial (fun _ _ => True) none log ∧ c.state.1.dir.Holds (lastOf none log) ∧
      (d.Holds (lastOf none log) ∨ (c.state.2.Unsettled .manifest ∧
        ∃ last rest, log = last :: rest ∧ d.Holds (lastOf none rest))) := by
  refine ⟨Platform.reference, ?_⟩
  let _ := Platform.reference
  -- The lock is taken once, over no index.
  have hAdmits : ∀ S : Sys,
      (S.fs.lock.isSome || (S.hist.isEmpty && (S.released 0).isEmpty)) = true →
      S.fs.lock = none → smallTask.Admits (fun _ _ => True) (S.released 0) S.current := by
    intro S hA hFree
    obtain ⟨hHist, hReleased⟩ : S.hist = [] ∧ S.released 0 = [] := by simpa [hFree] using hA
    rw [Sys.current, hHist, hReleased]
    refine ⟨?_, trivial⟩
    rintro files ⟨⟩
    exact (LiveHistory.small_builds (.inr rfl)).2
  have hRuns := fun n => Pool.Run.alone (P := onDisks fun _ _ => True) (i := 0) (w := smallTask)
    (A := fun s => (s.1.fs.lock.isSome || (s.1.hist.isEmpty && (s.1.released 0).isEmpty)) = true ∧
      ¬ s.2.Unsettled .manifest) (Sys.execOnDisk 0)
    (fun _ S hA => ⟨false, by simp, fun _ _ => hAdmits S.1 hA.1, rfl, rfl, fun h => absurd h hA.2⟩)
    (.start ⟨∅, none, 0⟩ none, Dir.mounted ∅) n
  obtain ⟨c₁, hRun₁, hState₁, -⟩ := hRuns 16 (by decide +kernel)
  obtain ⟨c, hRun, hState, -⟩ := hRuns (16 + 1) (by decide +kernel)
  obtain ⟨-, hDisk₁⟩ :=
    @onDisk_of_run _ _ none ⟨∅, none, 0⟩ (AList.lookup_empty _) (by simp) rfl c₁ hRun₁
  have hLoss : c.state.2.Survives fun n => c₁.state.1.dir.lookup n := by
    have hUndo := survives_evalN 0 ((onDisks fun _ _ => True).prog 0 smallTask) 16
      ((onDisks fun _ _ => True).enter 0 (.start ⟨∅, none, 0⟩ none, Dir.mounted ∅))
    rw [← hState, ← hState₁] at hUndo
    rwa [show (fun n => c₁.state.1.dir.lookup n) = c₁.state.2.lookup from funext hDisk₁.shows]
  refine ⟨c, c₁.state.1.dir, hRun, ?_, ?_, hLoss, @power_loss_keeps_commits _ _ none ⟨∅, none, 0⟩
    (AList.lookup_empty _) (by simp) rfl c hRun _ hLoss⟩
  · rw [hState]
    decide +kernel
  · rw [hState₁]
    decide +kernel

end Examples

end Ripindex
