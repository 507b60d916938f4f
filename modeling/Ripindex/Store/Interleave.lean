import Ripindex.Lib.Schedule
import Ripindex.Store.Locking
import Ripindex.Store.MergeIndex

/-!
# Any number of processes

Processes build, update, merge and open on one index directory, in any order of their
operations; some of these may fail, and a process may stop after any of them. The lock is
exclusive, and a process that stops gives it up.

The segment ids, the generations of deletions and overlays and the document ids are counted up
without a check. As long as they suffice for what a process may commit over the index it finds
when it takes the lock, every file the manifest on disk names is there, with the contents it had
when that manifest was committed.

## Results

* `wp_prepareAll` — preparing merges works on staged files of the process;
* `Task.wp_program` — every task keeps to the contract of the others;
* `manifest_closed` — the manifest is closed over its files, in every run.
-/

namespace Ripindex

variable [Platform]

-- ---------------------------------------------------------------------------
-- Staged files
-- ---------------------------------------------------------------------------

namespace Sys

/-- Outside the lock, with the tags below `t` given out. -/
structure Staging (pid : Pid) (rl : List (Option Index)) (F : List Index → Prop) (D : Dir)
    (t : Nat) (S : Sys) : Prop extends Outside pid rl F D S where
  tags : t ≤ S.fs.tags

end Sys

section Staging

variable {M : Mode} {pid : Pid} {rl : List (Option Index)} {F : List Index → Prop} {D D' : Dir}
  {t : Nat} {S S' : Sys}

open Sys

theorem Sys.Staging.rely (hF : M.Keeps pid F) (hS : Staging pid rl F D t S)
    (hR : M.rely pid S S') : Staging pid rl F D t S' :=
  ⟨hS.toOutside.rely hF hR,
    Nat.le_trans hS.tags (M.rely_ok pid S S' hS.good hR).tags⟩

/-- An operation that succeeds, outside the lock. -/
theorem Sys.Staging.exec (hS : Staging pid rl F D t S) {o : FsOp} (hAllow : Allows pid o S)
    (hLock : o ≠ .lock) (hUnlock : o ≠ .unlock)
    (hOwn : ∀ n, n.isStaged = true → n.foreign pid = false →
      (S.exec pid false o).2.dir.lookup n = D'.lookup n) :
    Staging pid rl F D' t (S.exec pid false o).2 where
  toAway := hS.toAway.exec hAllow hLock false
  released := (congrFun (released_exec hUnlock) pid).trans hS.released
  unfaulted := (faulted_exec_false o S).trans hS.unfaulted
  own := hOwn
  tags := Nat.le_trans hS.tags (tags_exec false o S.fs)

/-- One operation on a staged file. -/
theorem wp_stage {tag : StagingTag} {step : FileStep} (hF : M.Keeps pid F) (hTag : tag.pid = pid)
    (hStep : step.Stages tag) (hS : Staging pid rl F D t S) :
    step.issue.wp (M.contract pid)
      (Ends (fun _ => Staging pid rl F (step.apply D) t) (Away pid F)) S := by
  have hOwnTag : ∀ part, (FileName.staged tag part).foreign pid = false := by
    simp [FileName.foreign, hTag]
  have hStable : ∀ S S', Staging pid rl F D t S → M.rely pid S S' → Staging pid rl F D t S' :=
    fun _ _ hInv hR => hInv.rely hF hR
  have hWrite : ∀ (S : Sys) part, MayWrite pid S (.staged tag part) := fun _ part =>
    .inl ⟨rfl, hOwnTag part⟩
  cases step with
  | create n =>
    obtain ⟨part, rfl⟩ := hStep
    refine wp_op (Staging pid rl F D t) hS hStable (fun _ _ => hWrite _ part)
      fun S₁ hS₁ fault _ _ => ?_
    have hAllow : Allows pid (.create (.staged tag part)) S₁ := hWrite _ part
    cases fault with
    | true => exact hS₁.toAway.exec hAllow (by rintro ⟨⟩) true
    | false =>
      refine hS₁.exec hAllow (by rintro ⟨⟩) (by rintro ⟨⟩) ?_
      intro m hm hOwn
      change (S₁.dir.insert _ .torn : Dir).lookup m = (D.insert _ .torn : Dir).lookup m
      rw [Dir.lookup_insert, Dir.lookup_insert, hS₁.own m hm hOwn]
  | write n f =>
    obtain ⟨part, rfl⟩ := hStep
    refine wp_op (Staging pid rl F D t) hS hStable (fun _ _ => hWrite _ part)
      fun S₁ hS₁ fault _ _ => ?_
    have hAllow : Allows pid (.write (.staged tag part) f) S₁ := hWrite _ part
    cases fault with
    | true => exact hS₁.toAway.exec hAllow (by rintro ⟨⟩) true
    | false =>
      refine hS₁.exec hAllow (by rintro ⟨⟩) (by rintro ⟨⟩) ?_
      intro m hm hOwn
      change (S₁.dir.overwrite _ f).lookup m = (D.overwrite _ f).lookup m
      rw [Dir.lookup_overwrite, Dir.lookup_overwrite, hS₁.own m hm hOwn,
        hS₁.own _ rfl (hOwnTag part)]
  | sync n =>
    obtain ⟨part, rfl⟩ := hStep
    refine wp_op (Staging pid rl F D t) hS hStable (fun _ _ => hWrite _ part)
      fun S₁ hS₁ fault _ _ => ?_
    have hAllow : Allows pid (.sync (.staged tag part)) S₁ := hWrite _ part
    cases fault with
    | true => exact hS₁.toAway.exec hAllow (by rintro ⟨⟩) true
    | false => exact hS₁.exec hAllow (by rintro ⟨⟩) (by rintro ⟨⟩) hS₁.own
  | rename a b => exact hStep.elim

/-- The operations of a plan on staged files. -/
theorem wp_stageAll {tag : StagingTag} {steps : List FileStep} (hF : M.Keeps pid F)
    (hTag : tag.pid = pid) (hSteps : ∀ step ∈ steps, step.Stages tag) (acc : List FileName)
    (hS : Staging pid rl F D t S) :
    (runSteps acc steps).wp (M.contract pid) (fun out => Ends
      (fun _ => Staging pid rl F (after D steps) t) (Away pid F) out.2) S := by
  induction steps generalizing D S acc with
  | nil => exact hS
  | cons step steps ih =>
    obtain ⟨hHead, hTail⟩ := List.forall_mem_cons.mp hSteps
    refine Prog.wp_seq (wp_stage hF hTag hHead hS) ?_
    intro r S₁ hr
    cases r with
    | ok u => exact ih hTail _ hr
    | error e => exact hr

/-- Removing staged files outside the lock. -/
theorem wp_removeAll_away {ns : List FileName} (hF : M.Keeps pid F)
    (hNs : ∀ n ∈ ns, n.isStaged = true ∧ n.foreign pid = false) (hS : Away pid F S) :
    (removeAll ns).wp (M.contract pid) (fun _ => Away pid F) S := by
  induction ns generalizing S with
  | nil => exact hS
  | cons n ns ih =>
    obtain ⟨hHead, hTail⟩ := List.forall_mem_cons.mp hNs
    refine wp_op (Away pid F) hS (fun _ _ hInv hR => hInv.rely hF hR) (fun _ _ => .inl hHead)
      fun S₁ hS₁ fault _ _ => ?_
    have hAllow : Allows pid (.remove n) S₁ := .inl hHead
    exact ih hTail (hS₁.exec hAllow (by rintro ⟨⟩) fault)

theorem wp_discardAll_away {xs : List StagedMerge} (hF : M.Keeps pid F)
    (hOwn : ∀ x ∈ xs, x.merge.tag.pid = pid) (hS : Away pid F S) :
    (discardAll (xs.map StagedMerge.merge)).wp (M.contract pid) (fun _ => Away pid F) S := by
  induction xs generalizing S with
  | nil => exact hS
  | cons x xs ih =>
    obtain ⟨hHead, hTail⟩ := List.forall_mem_cons.mp hOwn
    refine Prog.wp_seq (wp_removeAll_away hF ?_ hS) fun _ S₁ hS₁ => ih hTail hS₁
    intro n hn
    simp only [List.mem_cons, List.not_mem_nil, or_false] at hn
    rcases hn with rfl | rfl <;> exact ⟨rfl, by simp [FileName.foreign, hHead]⟩

-- ---------------------------------------------------------------------------
-- Preparing merges
-- ---------------------------------------------------------------------------

/-- The merge was staged by the process under a tag below `t`, and its files are in `d`. -/
structure StagedMerge.InPlace (x : StagedMerge) (pid : Pid) (t : Nat) (d : Dir) : Prop where
  pid_eq : x.merge.tag.pid = pid
  stamp_lt : x.merge.tag.stamp < t
  files : ∀ f ∈ x.files, d.lookup f.1 = some f.2

/-- The merge is one of the group `g` of segments of `I`. -/
def StagedMerge.PreparesGroup (I : Index) (x : StagedMerge) (g : List UInt32) : Prop :=
  ∃ segs, g.mapM I.findSegment = some segs ∧ x.Prepares I g segs

omit [Platform] in
/-- What a plan leaves in the staging directory. -/
theorem lookup_after_prepare {tag : StagingTag} (d : Dir) (x : IdxFile) (records : List DocMeta)
    (n : FileName) :
    (after d ((Plan.writeWhole (.staged tag .idx) (.idx x)).steps ++
      (Plan.writeWhole (.staged tag .doc) (.doc records)).steps)).lookup n =
        if n = .staged tag .doc then some (.doc records)
        else if n = .staged tag .idx then some (.idx x) else d.lookup n := by
  simp only [Plan.writeWhole, Plan.emit, after, List.foldl_append, List.foldl_cons, List.foldl_nil,
    FileStep.apply, Dir.lookup_overwrite, Dir.lookup_insert]
  by_cases hDoc : n = .staged tag .doc
  · subst hDoc
    simp
  · by_cases hIdx : n = .staged tag .idx
    · subst hIdx
      simp
    · simp [hDoc, hIdx]

/-- A prepared merge is in place next to those prepared before, under a tag of its own. -/
theorem wp_prepareMerge {I : Index} {g : List UInt32} {xs : List StagedMerge} (hM : M.Reads)
    (hF : M.Keeps pid F) (hXs : ∀ x ∈ xs, x.InPlace pid t D) (hS : Staging pid rl F D t S) :
    (prepareMerge I g).run.wp (M.contract pid) (Ends
      (fun p S' => ∃ x : StagedMerge, ∃ D' t', x.merge = p ∧ x.PreparesGroup I g ∧
        t ≤ x.merge.tag.stamp ∧ (∀ y ∈ x :: xs, y.InPlace pid t' D') ∧
          Staging pid rl F D' t' S') (Away pid F)) S := by
  have hStable : ∀ S S', Staging pid rl F D t S → M.rely pid S S' → Staging pid rl F D t S' :=
    fun _ _ hInv hR => hInv.rely hF hR
  unfold prepareMerge
  split
  · exact hS.toAway
  rename_i segs hSegs
  refine FsE.wp_seq (P := fun _ => Staging pid rl F D t) (FsE.wp_call (wp_op _ hS hStable
    (fun _ _ => trivial) fun S₁ hS₁ fault _ _ => ?_)) fun _ S₁ hS₁ => ?_
  · have hAllow : Allows pid .createDirAll S₁ := trivial
    cases fault with
    | true => exact hS₁.toAway.exec hAllow (by rintro ⟨⟩) true
    | false => exact hS₁.exec hAllow (by rintro ⟨⟩) (by rintro ⟨⟩) hS₁.own
  -- The tag is new.
  refine FsE.wp_seq (P := fun (tag : StagingTag) S' => tag.pid = pid ∧ t ≤ tag.stamp ∧
    Staging pid rl F D (tag.stamp + 1) S') (FsE.wp_ofM (wp_op _ hS₁ hStable (fun _ _ => trivial)
      fun S₂ hS₂ fault hMay _ => ?_)) ?_
  · have hAllow : Allows pid .stagingTag S₂ := trivial
    cases fault with
    | true => cases hM _ _ (hMay rfl)
    | false => exact ⟨rfl, hS₂.tags,
        (hS₂.exec hAllow (by rintro ⟨⟩) (by rintro ⟨⟩) hS₂.own).toOutside, Nat.le_refl _⟩
  rintro tag S₂ ⟨hPid, hStamp, hS₂⟩
  have hStage := wp_stageAll hF hPid (preparePlan_stages tag I g segs) [] hS₂
  refine FsE.wp_seq (P := fun (out : List FileName × Except Error Unit) => Ends
    (fun _ => Staging pid rl F (after D (preparePlan tag I g segs).steps) (tag.stamp + 1))
      (Away pid F) out.2) (FsE.wp_ofM hStage) ?_
  rintro ⟨_, written⟩ S₃ hS₃
  refine FsE.wp_seq (P := fun _ => Staging pid rl F (after D (preparePlan tag I g segs).steps)
    (tag.stamp + 1)) (by cases written <;> exact hS₃) fun _ S₄ hS₄ => ?_
  cases hRes : (preparePlan tag I g segs).result with
  | error e => exact hS₄.toAway
  | ok p =>
    obtain ⟨x, hMerge, rfl, hPrepares, hSteps⟩ := preparePlan_ok hRes
    refine ⟨x, _, _, hMerge, ⟨segs, hSegs, hPrepares⟩, hStamp, ?_, hS₄⟩
    rw [hSteps]
    refine List.forall_mem_cons.mpr ⟨⟨hPid, Nat.lt_succ_self _, ?_⟩, fun y hy =>
      ⟨(hXs y hy).pid_eq, Nat.lt_succ_of_lt (Nat.lt_of_lt_of_le (hXs y hy).stamp_lt hStamp), ?_⟩⟩
    · simp [StagedMerge.files, lookup_after_prepare]
    · intro f hf
      have hNe : y.merge.tag ≠ x.merge.tag := fun hEq => by
        have hLt := (hXs y hy).stamp_lt
        rw [hEq] at hLt
        omega
      rw [lookup_after_prepare, ← (hXs y hy).files f hf]
      simp only [StagedMerge.files, List.mem_cons, List.not_mem_nil, or_false] at hf
      rcases hf with rfl | rfl <;> simp [hNe]

/-- Preparing the groups one after the other. -/
theorem wp_prepareAll {I : Index} {groups done : List (List UInt32)} {xs : List StagedMerge}
    (hM : M.Reads) (hF : M.Keeps pid F) (hXs : ∀ x ∈ xs, x.InPlace pid t D)
    (hTags : (xs.map fun x => x.merge.tag).Nodup)
    (hDone : List.Forall₂ (StagedMerge.PreparesGroup I) xs done)
    (hS : Staging pid rl F D t S) :
    (prepareAll I (xs.map StagedMerge.merge) groups).run.wp (M.contract pid) (Ends
      (fun ps S' => ∃ (ys : List StagedMerge) (D' : Dir), ps = ys.map StagedMerge.merge ∧
        (∃ t', ∀ y ∈ ys, y.InPlace pid t' D') ∧ (ys.map fun y => y.merge.tag).Nodup ∧
          List.Forall₂ (StagedMerge.PreparesGroup I) ys (done ++ groups) ∧
            Outside pid rl F D' S') (Away pid F)) S := by
  induction groups generalizing xs done D t S with
  | nil => exact ⟨xs, D, rfl, ⟨t, hXs⟩, hTags, by rwa [List.append_nil], hS.toOutside⟩
  | cons g groups ih =>
    unfold prepareAll
    refine FsE.wp_bind (FsE.wp_catch (Q := fun r S' => ∃ r', r = .ok r' ∧ Ends
      (fun p S' => ∃ x : StagedMerge, ∃ D' t', x.merge = p ∧ x.PreparesGroup I g ∧
        t ≤ x.merge.tag.stamp ∧ (∀ y ∈ x :: xs, y.InPlace pid t' D') ∧
          Staging pid rl F D' t' S') (Away pid F) r' S') (wp_prepareMerge hM hF hXs hS)
            (fun p S₁ hp => ⟨_, rfl, hp⟩) fun e S₁ he => ⟨_, rfl, he⟩) ?_ ?_
    · rintro r S₁ ⟨_, ⟨⟩, hr⟩
      split
      · obtain ⟨x, D', t', rfl, hGroup, hStamp, hAll, hS₁⟩ := hr
        obtain ⟨hNew, hOld⟩ := List.forall_mem_cons.mp hAll
        have hAppend :
            xs.map StagedMerge.merge ++ [x.merge] = (xs ++ [x]).map StagedMerge.merge := by
          rw [List.map_append, List.map_singleton]
        have hGroups : done ++ g :: groups = (done ++ [g]) ++ groups := by simp
        rw [hAppend, hGroups]
        refine ih ?_ ?_ ?_ hS₁
        · intro y hy
          rcases List.mem_append.mp hy with hy | hy
          · exact hOld y hy
          · exact List.mem_singleton.mp hy ▸ hNew
        · rw [List.map_append, List.map_singleton, List.nodup_append]
          refine ⟨hTags, List.nodup_singleton _, ?_⟩
          intro a ha b hb hEq
          obtain ⟨y, hy, rfl⟩ := List.mem_map.mp ha
          rw [List.mem_singleton.mp hb] at hEq
          have hLt := (hXs y hy).stamp_lt
          rw [hEq] at hLt
          omega
        · exact List.rel_append hDone (.cons hGroup .nil)
      · exact hr
      · refine FsE.wp_bind (P := fun _ => Away pid F) (FsE.wp_ofM (wp_discardAll_away hF
          (fun x hx => (hXs x hx).pid_eq) hr)) (fun _ _ hAway => hAway) fun _ _ hAway => hAway
    · rintro e S₁ ⟨_, hEq, -⟩
      cases hEq

end Staging

-- ---------------------------------------------------------------------------
-- Tasks
-- ---------------------------------------------------------------------------

/-- What a process does: one of the writers, the preparation of merges of a snapshot followed by
their commit, or `open` with its sweep. -/
inductive Task
  | build (w : World) (cfg : BuildConfig)
  | update (w : World) (cfg : BuildConfig)
  | merge (now : Int64) (snapshot : Index) (groups : List (List UInt32))
  | openIndex

namespace Task

/-- The program of a task; what it returns is of no concern here. -/
def program : Task → FsM Unit
  | build w cfg => (buildIndex w cfg).run >>= fun _ => pure ()
  | update w cfg => (updateIndex w cfg).run >>= fun _ => pure ()
  | merge now snapshot groups =>
    (prepareAll snapshot [] groups >>= fun prepared => commitMerges now prepared).run >>=
      fun _ => pure ()
  | openIndex => Ripindex.openIndex.run >>= fun _ => pure ()

/-- The counters suffice for what the task may commit when it takes the lock over the index
`cur`, having given the lock up before as `rl` says: an update commits under its second lock,
and where it found no index under the first it builds. -/
def HasRoom : Task → List (Option Index) → Option Index → Prop
  | build w cfg, [], cur => ∀ files, w.crawl = .ok files → BuildRoom w cfg files cur
  | update w cfg, [none], cur => ∀ files, w.crawl = .ok files → BuildRoom w cfg files cur
  | update w cfg, [some _], some I => ∀ files, w.crawl = .ok files →
      (updateChanges w I files).isEmpty = false → (Operation.update w cfg files).Fits (some I)
  | merge now snapshot groups, [], cur => ∀ xs : List StagedMerge,
      List.Forall₂ (StagedMerge.PreparesGroup snapshot) xs groups →
        (xs.map fun x => x.merge.tag).Nodup → (Operation.merge now xs).Fits cur
  | _, _, _ => True

end Task

/-- Processes that run together; `admits` says over which index one may take the lock, by how it
has given the lock up before in its task. -/
def Mode.shared (admits : List (Option Index) → Option Index → Prop) : Mode where
  mayFault := fun o _ => o.fallible = true
  admits := fun pid S => admits (S.released pid) S.current
  rely := Sys.Rely
  rely_ok := fun _ _ _ _ hR => hR

/-- Programs that run together on one index directory. -/
def sharedPool {W : Type} (prog : W → FsM Unit)
    (admits : W → List (Option Index) → Option Index → Prop) :
    Pool FsOp FsOp.Res Sys Pid W where
  prog := fun _ w => prog w
  step := fun pid w => (Mode.shared (admits w)).step pid
  enter := fun pid S => S.enter pid
  stop := fun pid S => S.release pid

/-- The processes on one index directory. -/
def processes (admits : Task → List (Option Index) → Option Index → Prop) :
    Pool FsOp FsOp.Res Sys Pid Task :=
  sharedPool Task.program admits

section Tasks

variable {pid : Pid} {S : Sys}

open Sys

theorem Mode.shared_reads (admits : List (Option Index) → Option Index → Prop) :
    (Mode.shared admits).Reads := fun _ _ hMay => hMay

theorem Mode.shared_keeps (admits : List (Option Index) → Option Index → Prop) (pid : Pid) :
    (Mode.shared admits).Keeps pid fun _ => True := fun _ _ _ _ => trivial

/-- The operations that a task may carry out. -/
inductive Task.Does (pid : Pid) : Task → Operation → Prop
  | build {w : World} {cfg : BuildConfig} {files : List CrawledFile}
      (hCrawl : w.crawl = .ok files) : Does pid (.build w cfg) (.build w cfg files)
  | update {w : World} {cfg : BuildConfig} {files : List CrawledFile}
      (hCrawl : w.crawl = .ok files) : Does pid (.update w cfg) (.update w cfg files)
  /-- Where it found no index an update builds. -/
  | first {w : World} {cfg : BuildConfig} {files : List CrawledFile}
      (hCrawl : w.crawl = .ok files) : Does pid (.update w cfg) (.build w cfg files)
  | merge {now : Int64} {snapshot : Index} {groups : List (List UInt32)} {xs : List StagedMerge}
      (hGroups : List.Forall₂ (StagedMerge.PreparesGroup snapshot) xs groups)
      (hOwn : ∀ x ∈ xs, x.merge.tag.pid = pid) :
      Does pid (.merge now snapshot groups) (.merge now xs)

/-- A task that begins with the lock free of it keeps to its contract, and gives the lock up.
Of the history it keeps what its operations keep. -/
theorem Task.wp_keeps (t : Task) {M : Mode} {F : List Index → Prop} (hM : M.Reads)
    (hF : M.Keeps pid F)
    (hAdmits : ∀ S₀, M.admits pid S₀ → t.HasRoom (S₀.released pid) S₀.current)
    (hCommit : ∀ op, t.Does pid op → ∀ S₀ h', M.admits pid S₀ → F S₀.hist →
      op.Adds pid S₀.hist h' → F h')
    (hS : Outside pid [] F S.dir S) :
    t.program.wp (M.contract pid) (fun _ => Away pid F) S := by
  have hSound : ∀ {S₀ : Sys}, S₀.Good → ∀ I ∈ S₀.hist.head?, I.Sound := fun hGood =>
    hGood.sound_current
  -- An operation that was prepared has its crawl.
  have hPrepared : ∀ op : Operation, (∀ d, op.Prepared pid d → t.Does pid op) →
      ∀ S₀ h', M.admits pid S₀ → F S₀.hist → op.Adds pid S₀.hist h' → F h' := by
    intro op hDoes S₀ h' hAdm hFh hAdds
    rcases hAdds with rfl | ⟨B, retire, hRoom, hPrep, hGives, hEq⟩
    · exact hFh
    · exact hCommit op (hDoes _ hPrep.choose_spec.1) S₀ h' hAdm hFh
        (.inr ⟨B, retire, hRoom, hPrep, hGives, hEq⟩)
  cases t with
  | build w cfg =>
    refine Prog.wp_seq (M := fun _ => Away pid F) ?_ fun _ _ hAway => hAway
    have hCommits (files : List CrawledFile) :=
      hPrepared (.build w cfg files) fun _ => Task.Does.build
    cases hCrawl : w.crawl with
    | error e =>
      have hNone : ∀ files', w.crawl = .ok files' → files' = [] := by simp [hCrawl]
      exact Operation.wp_buildIndex hM hF hF (fun _ => id) (hCommits []) hNone (by simp [hCrawl]) hS
    | ok files =>
      have hOnly : ∀ files', w.crawl = .ok files' → files' = files := by simp [hCrawl]
      refine Operation.wp_buildIndex hM hF hF (fun _ => id) (hCommits files) hOnly
        (fun _ S₀ hAdm hOut => ?_) hS
      have hRoom := hAdmits S₀ hAdm
      rw [hOut.released] at hRoom
      exact hRoom files hCrawl
  | update w cfg =>
    refine Prog.wp_seq (M := fun _ => Away pid F) ?_ fun _ _ hAway => hAway
    have hCommits (files : List CrawledFile) :=
      hPrepared (.update w cfg files) fun _ => Task.Does.update
    have hBuilds (files : List CrawledFile) :=
      hPrepared (.build w cfg files) fun _ => Task.Does.first
    cases hCrawl : w.crawl with
    | error e =>
      have hNone : ∀ files', w.crawl = .ok files' → files' = [] := by simp [hCrawl]
      exact Operation.wp_updateIndex hM hF hF (fun _ => id) (hCommits [])
        (fun _ S₀ h' _ _ => hBuilds [] S₀ h') hNone (by simp [hCrawl]) (by simp [hCrawl]) hS
    | ok files =>
      have hOnly : ∀ files', w.crawl = .ok files' → files' = files := by simp [hCrawl]
      refine Operation.wp_updateIndex hM hF hF (fun _ => id) (hCommits files)
        (fun _ S₀ h' _ _ => hBuilds files S₀ h') hOnly ?_ ?_ hS
      · intro _ I S₀ hAdm hGood hReleased _ J hJ hChanges
        have hRoom := hAdmits S₀ hAdm
        change Task.HasRoom _ (S₀.released pid) S₀.hist.head? at hRoom
        rw [hReleased, Option.mem_def.mp hJ] at hRoom
        refine Operation.Fits.hasRoom (hRoom files hCrawl hChanges) ?_
        rintro _ ⟨⟩
        exact hSound hGood J hJ
      · intro _ _ _ _ S₀ hAdm _ hReleased _
        have hRoom := hAdmits S₀ hAdm
        change Task.HasRoom _ (S₀.released pid) S₀.hist.head? at hRoom
        rw [hReleased] at hRoom
        exact hRoom files hCrawl
  | merge now snapshot groups =>
    refine Prog.wp_seq (M := fun _ => Away pid F) ?_ fun _ _ hAway => hAway
    have hPrepare := @wp_prepareAll _ _ _ _ _ _ S.fs.tags S snapshot groups [] [] hM hF (by simp)
      .nil .nil ⟨hS, Nat.le_refl _⟩
    refine FsE.wp_bind hPrepare ?_ fun _ _ hAway => hAway
    rintro _ S₁ ⟨xs, D, rfl, ⟨t, hXs⟩, hTags, hGroups, hS₁⟩
    have hOwn : ∀ x ∈ xs, x.merge.tag.pid = pid := fun x hx => (hXs x hx).pid_eq
    refine Operation.wp_commitMerges hM hF hF (fun _ => id)
      (hPrepared (.merge now xs) fun _ _ => .merge hGroups hOwn) (fun S₀ hAdm hOut => ?_)
      (fun x hx => ⟨hOwn x hx, (hXs x hx).files⟩) hS₁
    have hRoom := hAdmits S₀ hAdm
    change Task.HasRoom _ (S₀.released pid) S₀.hist.head? at hRoom
    rw [hOut.released] at hRoom
    exact Operation.Fits.hasRoom (hRoom xs hGroups hTags) (hSound hOut.good)
  | openIndex =>
    exact Prog.wp_seq (wp_openIndex_away hM hF hS.toAway) fun _ _ hAway => hAway

/-- A task that begins with the lock free of it keeps to its contract, and gives the lock up. -/
theorem Task.wp_program (t : Task) (hS : Outside pid [] (fun _ => True) S.dir S) :
    t.program.wp ((Mode.shared t.HasRoom).contract pid) (fun _ => Away pid fun _ => True) S :=
  t.wp_keeps (Mode.shared_reads t.HasRoom) (Mode.shared_keeps t.HasRoom pid) (fun _ => id)
    (fun _ _ _ _ _ _ _ => trivial) hS

/-- The contracts of programs fit together when each keeps to its own. -/
theorem sharedPool_fit {W : Type} {prog : W → FsM Unit}
    {admits : W → List (Option Index) → Option Index → Prop}
    (hProg : ∀ (w : W) {pid : Pid} {S : Sys}, Outside pid [] (fun _ => True) S.dir S →
      (prog w).wp ((Mode.shared (admits w)).contract pid) (fun _ => Away pid fun _ => True) S) :
    (sharedPool prog admits).Fits (fun pid S S' => Rely pid S S')
      Sys.Allows (fun pid S => S.fs.lock ≠ some pid) Sys.Good where
  refl := fun _ _ hS => .refl hS
  trans := fun _ _ _ _ h h' => h.trans h'
  pre_stable := fun _ _ _ hR hPre => hR.not_held hPre
  task := fun pid w S hS hPre => Prog.wp_mono (hProg w ⟨⟨hS.enter, hPre, trivial⟩,
    Function.update_self _ _ _, Function.update_self _ _ _, fun _ _ _ => rfl⟩)
      fun _ _ hAway => hAway.lock
  op := by
    rintro pid w o S r S' hS hAllow ⟨fault, -, -, hExec⟩
    obtain rfl : (S.exec pid fault o).2 = S' := congrArg Prod.snd hExec
    exact ⟨hS.exec hAllow fault, fun q hq => rely_exec hS hAllow fault hq⟩
  enter := fun _ _ hS => ⟨hS.enter, fun _ hq => rely_enter hS hq⟩
  stop := fun _ _ hS => ⟨hS.release, fun _ hq => rely_release hS hq⟩
  stop_pre := fun pid S _ => by
    change (S.fs.release pid).lock ≠ some pid
    unfold FsState.release
    split
    · simp
    · assumption

/-- The contracts of the processes fit together. -/
theorem processes_fit : (processes Task.HasRoom).Fits (fun pid S S' => Rely pid S S')
    Sys.Allows (fun pid S => S.fs.lock ≠ some pid) Sys.Good :=
  sharedPool_fit fun t _ _ => t.wp_program

end Tasks

-- ---------------------------------------------------------------------------
-- The manifest
-- ---------------------------------------------------------------------------

/-- Every file the manifest on disk names is there, with the contents it had when that manifest
was committed. -/
def Sys.Closed (S : Sys) : Prop :=
  ∀ v m, S.dir.lookup .manifest = some (.manifest v m) → ∀ n ∈ referencedFiles m,
    ∃ f, S.snapshot.lookup n = some f ∧ S.dir.lookup n = some f

/-- Two directories that hold an index agree on its files. -/
theorem Index.Backed.agree {I : Index} {d d' : Dir} (h : I.Backed d) (h' : I.Backed d')
    {n : FileName} (hn : n ∈ referencedFiles I.manifest) :
    ∃ f, d.lookup n = some f ∧ d'.lookup n = some f := by
  rcases Index.mem_referencedFiles.mp hn with ⟨s, hs, hFile⟩ | ⟨hGen, rfl⟩
  · have hB := h.segments s hs
    have hB' := h'.segments s hs
    rcases mem_segmentFiles.mp hFile with rfl | rfl | ⟨hPos, rfl⟩
    · exact ⟨_, hB.idx.lookup, hB'.idx.lookup⟩
    · exact ⟨_, hB.doc.lookup, hB'.doc.lookup⟩
    · obtain ⟨b, hb⟩ := Option.isSome_iff_exists.mp (hB.delGen.mp hPos)
      exact ⟨_, (hB.del b hb).lookup, (hB'.del b hb).lookup⟩
  · exact ⟨_, (h.overlay hGen).lookup, (h'.overlay hGen).lookup⟩

theorem Sys.Good.closed {S : Sys} (hS : S.Good) : S.Closed := by
  intro v m hManifest n hn
  cases hCur : S.current with
  | none =>
    rw [hS.absent hCur] at hManifest
    cases hManifest
  | some I =>
    have hBacked := hS.backed I hCur
    rw [hBacked.manifest] at hManifest
    obtain ⟨-, rfl⟩ : Format.formatVersion = v ∧ I.manifest = m := by
      simpa [manifestFile] using hManifest
    exact (hS.snapshot I hCur).agree hBacked hn

/-- Whatever the processes do in whatever order, as long as the counters suffice whenever one
takes the lock, the manifest on disk is closed over its files. -/
theorem manifest_closed {s : FsState} {prev : Option Index} (hHolds : s.dir.Holds prev)
    (hSound : ∀ I ∈ prev, I.Sound) (hLock : s.lock = none) {c : (processes Task.HasRoom).Conf}
    (hRun : (processes Task.HasRoom).Run ((processes Task.HasRoom).Idle (.start s prev)) c) :
    c.state.Closed := by
  have hFree : ∀ pid, (Sys.start s prev).fs.lock ≠ some pid := fun pid => by
    change s.lock ≠ some pid
    rw [hLock]
    simp
  exact (Pool.Run.sound processes_fit (.start hHolds hSound) hFree hRun).1.closed

-- ---------------------------------------------------------------------------
-- Ids that run out
-- ---------------------------------------------------------------------------

section Wrap

variable {c : Pid} {s : FsState}

/-- The file system of a run without faults. -/
theorem Sys.eval_fs {α : Type} (pid : Pid) (p : FsM α) (S : Sys) :
    (p.eval (Sys.exec pid false) S).2.fs = (p.eval (FsOp.exec pid false) S.fs).2 := by
  induction p generalizing S with
  | ret a => rfl
  | call o k ih => exact ih _ _

/-- The manifest and its files after the final `open` of a writer, whatever it returns. -/
theorem run_reopen_same (s : FsState) :
    s.dir.SameIndex (FsE.runAlone c reopen s).2.dir := by
  obtain ⟨s', hSame, ⟨e, hRun⟩ | hRun⟩ := run_openAttempts (c := c) maxAttempts none s
  all_goals
    have hState : (FsE.runAlone c reopen s).2 = s' := by
      unfold reopen
      rw [FsE.runAlone_bind, show FsE.runAlone c openIndex s = _ from hRun]
      try rcases s'.dir.openIndex with e | _ | I
      all_goals rfl
    rw [hState]
    exact hSame

/-- A build succeeds when its segments do. -/
theorem buildPlan_isOk {w : World} {cfg : BuildConfig} {files : List CrawledFile}
    {prev : Option Index}
    (h : (buildSegments w.indexRead files 0 cfg (nextSegmentIdOf prev)).result.isOk = true) :
    (buildPlan w cfg files prev).result.isOk = true := by
  rcases hRes : (buildSegments w.indexRead files 0 cfg (nextSegmentIdOf prev)).result with e | r
  · rw [hRes] at h
    cases h
  · cases prev <;> exact congrArg Except.isOk (Plan.bind_ok.mpr ⟨r, hRes, rfl⟩)

/-- The first segment of a tiling has the first id. -/
theorem Tiles.exists_first {read : ReadFile} {base : DocId} {id : UInt32}
    {files : List CrawledFile} {segs : List Segment} (h : Tiles read base id files segs)
    (hNe : segs ≠ []) : ∃ t ∈ segs, t.entry.segmentId = id := by
  cases h with
  | nil => exact absurd rfl hNe
  | cons _ hId => exact ⟨_, List.mem_cons_self, hId⟩

/-- A build of two segments over an index that has given out all ids but the last numbers its
second segment 0. Where the index has a segment 0, the build retires the files it has just
written. -/
theorem run_buildIndex_wraps {w : World} {cfg : BuildConfig} {files : List CrawledFile} {I : Index}
    (hRoot : w.rootIsDir = true) (hCrawl : w.crawl = .ok files)
    (hOk : (buildPlan w cfg files (some I)).result.isOk = true)
    (hNext : I.manifest.nextSegmentId + 1 = 0) (hCount : segmentCount w.indexRead files 0 cfg = 2)
    (hZero : ∃ t ∈ I.segments, t.entry.segmentId = 0) (hBacked : I.Backed s.dir)
    (hFree : s.lock = none) :
    ∃ m, (FsE.runAlone c (buildIndex w cfg) s).2.dir.lookup .manifest = some (manifestFile m) ∧
      FileName.doc 0 ∈ referencedFiles m ∧
        (FsE.runAlone c (buildIndex w cfg) s).2.dir.lookup (.doc 0) = none := by
  obtain ⟨m, retire, hRes⟩ := buildPlan_result_of_isOk hOk
  obtain ⟨segs, hTiles, hLen, hM, hRetire, hInst⟩ := buildPlan_ok hRes
  obtain ⟨s₁, hOpen, -⟩ := run_openIndex_of_backed (c := c) (s := { s with lock := some c }) hBacked
  obtain ⟨d, hWrite, hLookup⟩ := run_writeAndCommit (c := c) (s := s₁)
    (by rw [show (buildPlan w cfg files (some I)).steps = _ from hInst]
        exact runnable_installs _ _) hRes
  have hNamed : FileName.doc 0 ∈ referencedFiles m := by
    obtain ⟨t, ht, hId⟩ : ∃ t ∈ segs, t.entry.segmentId = 0 := by
      rw [hCount] at hLen
      cases hTiles with
      | nil => cases hLen
      | cons _ _ _ _ _ _ hRest =>
        obtain ⟨t, ht, hId⟩ := hRest.exists_first (by rintro rfl; cases hLen)
        exact ⟨t, List.mem_cons_of_mem _ ht, hId.trans hNext⟩
    rw [hM]
    refine List.mem_append_left _ (List.mem_flatMap.mpr ⟨t.entry, List.mem_map_of_mem ht, ?_⟩)
    exact mem_segmentFiles.mpr (.inr (.inl (by rw [hId])))
  have hRetired : FileName.doc 0 ∈ retire := by
    obtain ⟨t, ht, hId⟩ := hZero
    rw [hRetire]
    refine List.mem_filter.mpr ⟨?_, by decide⟩
    refine List.mem_append_left _ (List.mem_append_left _ (List.mem_flatMap.mpr ⟨t, ht, ?_⟩))
    exact mem_segmentFiles.mpr (.inr (.inl (by rw [hId])))
  have hBody : FsE.runAlone c (do
      let prev ← openIndex
      let files ← FsE.ofExcept w.crawl
      writeAndCommit (buildPlan w cfg files prev)) { s with lock := some c } =
        (.ok (), s₁.withDir d) := by
    rw [FsE.runAlone_bind_ok hOpen, hCrawl]
    exact hWrite
  have hRun : (FsE.runAlone c (buildIndex w cfg) s).2 =
      (FsE.runAlone c reopen ((s₁.withDir d).release c)).2 := by
    unfold buildIndex
    rw [hRoot]
    change (FsE.runAlone c (withLock _ >>= fun _ => reopen) s).2 = _
    rw [FsE.runAlone_bind, run_withLock, if_pos hFree, hBody]
  have hSame := run_reopen_same (c := c) ((s₁.withDir d).release c)
  rw [← hRun, FsState.release_dir, FsState.withDir_dir] at hSame
  have hManifest : d.lookup .manifest = some (manifestFile m) := by
    rw [hLookup, if_neg, Dir.lookup_committed, if_pos rfl]
    rw [hRetire]
    exact fun hMem => by simpa using (List.mem_filter.mp hMem).2
  refine ⟨m, hSame.1.trans hManifest, hNamed, ?_⟩
  rw [hSame.2 m hManifest _ hNamed, hLookup, if_pos hRetired]

/-- A build that runs alone. -/
theorem exists_run_build (w : World) (cfg : BuildConfig) (S : Sys) :
    ∃ c, (processes fun _ _ _ => True).Run ((processes fun _ _ _ => True).Idle S) c ∧
      c.state.fs = (FsE.runAlone 0 (buildIndex w cfg) S.fs).2 := by
  obtain ⟨n, hEval⟩ :=
    Prog.exists_evalN_eq (Sys.exec 0 false) (Task.build w cfg).program (S.enter 0)
  obtain ⟨c, hRun, hState, -⟩ := Pool.Run.alone (P := processes fun _ _ _ => True) (i := 0)
    (w := .build w cfg) (A := fun _ => True) (Sys.exec 0 false)
      (fun _ _ _ => ⟨false, by simp, fun _ _ _ => trivial, rfl⟩) S n fun _ _ => trivial
  refine ⟨c, hRun, ?_⟩
  have hEnd := congrArg Sys.fs (hState.trans hEval)
  rw [Sys.eval_fs, Task.program, Prog.eval_bind] at hEnd
  exact hEnd

/-- After such a build the manifest is not closed over its files. -/
theorem exists_run_not_closed {w : World} {cfg : BuildConfig} {files : List CrawledFile}
    {I : Index} (hRoot : w.rootIsDir = true) (hCrawl : w.crawl = .ok files)
    (hOk : (buildPlan w cfg files (some I)).result.isOk = true)
    (hNext : I.manifest.nextSegmentId + 1 = 0) (hCount : segmentCount w.indexRead files 0 cfg = 2)
    (hZero : ∃ t ∈ I.segments, t.entry.segmentId = 0) (hBacked : I.Backed s.dir)
    (hFree : s.lock = none) :
    ∃ c, (processes fun _ _ _ => True).Run
      ((processes fun _ _ _ => True).Idle (.start s (some I))) c ∧ ¬ c.state.Closed := by
  obtain ⟨m, hManifest, hNamed, hGone⟩ := run_buildIndex_wraps (c := 0) hRoot hCrawl hOk hNext
    hCount hZero hBacked hFree
  obtain ⟨c, hRun, hFs⟩ := exists_run_build w cfg (.start s (some I))
  refine ⟨c, hRun, fun hClosed => ?_⟩
  have hDir : c.state.dir = (FsE.runAlone 0 (buildIndex w cfg) s).2.dir := congrArg FsState.dir hFs
  obtain ⟨f, -, hFile⟩ := hClosed _ m (by rw [hDir]; exact hManifest) _ hNamed
  rw [hDir, hGone] at hFile
  cases hFile

end Wrap

section Examples

open LiveHistory

/-- A first build of one file. -/
def smallTask : Task := .build (smallWorld [smallFile]) smallConfig

/-- The lock is held, it has been given up before, or the counters suffice for a build. -/
def Sys.roomToBuild (w : World) (cfg : BuildConfig) (files : List CrawledFile) (pid : Pid)
    (S : Sys) : Bool :=
  S.fs.lock.isSome || !(S.released pid).isEmpty || decide (BuildRoom w cfg files S.current)

theorem Sys.hasRoom_of_roomToBuild {w : World} {cfg : BuildConfig} {files : List CrawledFile}
    {pid : Pid} {S : Sys} (hCrawl : w.crawl = .ok files)
    (h : S.roomToBuild w cfg files pid = true) (hFree : S.fs.lock = none) :
    (Task.build w cfg).HasRoom (S.released pid) S.current := by
  unfold roomToBuild at h
  rw [hFree] at h
  rcases hReleased : S.released pid with _ | ⟨r, rl⟩
  · intro files' hFiles
    obtain rfl := Except.ok.inj (hCrawl.symm.trans hFiles)
    simpa [hReleased] using h
  · exact trivial

/-- The next `n` operations of a process. -/
def opsOf (pid : Pid) (n : Nat) : List (Pool.Turn Pid) := List.replicate n (.op pid)

/-- Two processes begin to build, and the first one commits. -/
def firstCommits : List (Pool.Turn Pid) :=
  [.start 0, .start 1, .op 0, .op 1] ++ opsOf 0 18

/-- The second one builds; before it commits, the first one reads the manifest to open what it has
built, and after that the files of this manifest are gone. The first one opens the new index. -/
def secondCommits : List (Pool.Turn Pid) :=
  opsOf 1 17 ++ opsOf 0 2 ++ opsOf 1 4 ++ opsOf 0 5 ++ [.op 1, .finish 0]

omit [Platform] in
/-- Of two processes that build at the same time the second one commits while the first one opens
what it has built, and what is on disk then is closed. -/
theorem manifest_closed_overlap : ∃ _ : Platform, ∃ c, (processes Task.HasRoom).Run
    ((processes Task.HasRoom).Idle (.start ⟨∅, none, 0⟩ none)) c ∧
      c.state.hist.length = 2 ∧ (c.state.dir.lookup .manifest).isSome ∧ c.state.Closed := by
  refine ⟨Platform.reference, ?_⟩
  let _ := Platform.reference
  have hEnd : ((processes Task.HasRoom).turns (fun _ => smallTask) (Sys.exec · false)
      (fun pid S => S.roomToBuild (smallWorld [smallFile]) smallConfig [smallFile] pid)
      (firstCommits ++ secondCommits)
      ((processes Task.HasRoom).Idle (.start ⟨∅, none, 0⟩ none))).any (fun c =>
        c.state.hist.length = 2 && (c.state.dir.lookup .manifest).isSome) = true := by
    decide +kernel
  obtain ⟨c, hTurns, hChecks⟩ := (Option.any_eq_true _ _).mp hEnd
  obtain ⟨hTwo, hManifest⟩ := by simpa only [Bool.and_eq_true, decide_eq_true_eq] using hChecks
  obtain ⟨hRun, -⟩ := Pool.Run.of_turns (P := processes Task.HasRoom) (fun pid _ S hOk =>
    ⟨false, by simp, fun _ _ => S.hasRoom_of_roomToBuild rfl hOk, rfl⟩)
      (Pool.Conf.performs_idle _) hTurns
  exact ⟨c, hRun, hTwo, hManifest,
    @manifest_closed _ ⟨∅, none, 0⟩ none (AList.lookup_empty _) (by simp) rfl c hRun⟩

/-- Two files, of one segment each. -/
def twoFiles : List CrawledFile := [smallFile, ⟨⟨"b", 2, 0, 1⟩, .binary⟩]

omit [Platform] in
/-- Without that condition a build over an index that has given out all ids but the last removes
a file of its own commit. -/
theorem wrapped_id_unlisted : ∃ _ : Platform, ¬ ∀ (s : FsState) (prev : Option Index)
    (c : (processes fun _ _ _ => True).Conf), s.dir.Holds prev → (∀ I ∈ prev, I.Sound) →
      s.lock = none → (processes fun _ _ _ => True).Run
        ((processes fun _ _ _ => True).Idle (.start s prev)) c → c.state.Closed := by
  refine ⟨Platform.reference, fun hAll => ?_⟩
  let _ := Platform.reference
  -- The index of a first build of one file, with the last id next.
  obtain ⟨hOk, hRoom⟩ := small_builds (.inr rfl)
  obtain ⟨segs, hM, hCommit, hTiles⟩ := Commit.of_build hOk hRoom
  have hBacked : ∃ d, (builtIndex (smallWorld [smallFile]) none segs hM).Backed d := by
    cases hCommit with
    | build hGives => exact ⟨_, hGives.backed ∅ (by simp) (by simp)⟩
  obtain ⟨d, hBacked⟩ := hBacked
  let I := (builtIndex (smallWorld [smallFile]) none segs hM).withLastId
  have hSegs : (buildSegments (smallWorld twoFiles).indexRead twoFiles 0 smallConfig
      0xFFFFFFFF).result.isOk = true := by decide +kernel
  have hCount : segmentCount (smallWorld twoFiles).indexRead twoFiles 0 smallConfig = 2 := by
    decide +kernel
  obtain ⟨c, hRun, hNot⟩ := exists_run_not_closed
    (s := ⟨d.insert .manifest (manifestFile I.manifest), none, 0⟩) (I := I) rfl rfl
      (buildPlan_isOk hSegs) (show (0xFFFFFFFF : UInt32) + 1 = 0 by decide) hCount
        (hTiles.exists_first (hTiles.segs_ne_nil (by simp))) hBacked.withLastId rfl
  refine hNot (hAll ⟨d.insert .manifest (manifestFile I.manifest), none, 0⟩ (some I) c
    hBacked.withLastId ?_ rfl hRun)
  rintro _ ⟨⟩
  exact ⟨hCommit.sound.ids_nodup, hCommit.sound.numDeleted⟩

end Examples

end Ripindex
