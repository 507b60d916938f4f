import Ripindex.Query.Found
import Ripindex.Store.PowerLoss

/-!
# Searches among writers

Processes build, update and merge in whatever order. Their commits are those of a serial
execution, so the index on disk stands for the files of the last crawl that was committed, and a
search finds those of them that answer. A power loss leaves a directory of which the same is true.

## Results

* `Serial.standsFor`              — the files of a serial execution;
* `search_finds_shared`           — a search in what is on disk at any moment of any run;
* `search_finds_after_power_loss` — the same of a run on what power losses have left.
-/

namespace Ripindex

variable [Platform] {K : Corpus}

/-- Whatever the task does, it does over crawls of the corpus. -/
def Task.Follows (K : Corpus) (t : Task) (cur : Option Index) : Prop :=
  ∀ pid op, t.Does pid op → op.Witnesses K cur

/-- The files that a serial execution leaves. -/
def filed : List (Operation × Index) → List CrawledFile
  | [] => []
  | (op, _) :: log => (op.command (lastOf none log)).apply (filed log)

/-- The index of a serial execution stands for its files. -/
theorem Serial.standsFor {log : List (Operation × Index)}
    (h : Serial (Task.Follows K) none log) :
    (∀ I ∈ lastOf none log, StandsFor K I (filed log)) ∧
      (lastOf none log = none → filed log = []) := by
  induction h with
  | start => exact ⟨by simp [lastOf], fun _ => rfl⟩
  | commit _ hDoes hAdmits hMakes hLeaves ih =>
    refine ⟨?_, by simp [lastOf]⟩
    intro I hI
    obtain rfl := Option.some.inj hI
    exact .step hMakes hLeaves (hAdmits _ _ hDoes) ih.1 ih.2

/-- At any moment of any run of processes that start with an empty directory, a search in what is
on disk finds the files of the last crawl that was committed, as far as they answer the query. -/
theorem search_finds_shared {F A M : Type} [AddCommMonoid F] [AddCommMonoid M] [LinearOrder M]
    (bm25 : Query.Bm25 F A M) (S : SelectNth (Query.byRank (M := M))) (limit : Nat)
    {s : FsState} (hEmpty : s.dir.Holds none) (hLock : s.lock = none)
    {c : (processes (Task.Admits (Task.Follows K))).Conf}
    (hRun : (processes (Task.Admits (Task.Follows K))).Run
      ((processes (Task.Admits (Task.Follows K))).Idle (.start s none)) c)
    {I : Index} (hOpen : c.state.dir.openIndex = .ok (some I)) {input : String}
    {node : Query.Node} (hParse : Query.parse input = .ok node) :
    ∃ log, Serial (Task.Follows K) none log ∧ lastOf none log = some I ∧
      K.Finds (filed log) I node limit (Query.search bm25 S I node limit) := by
  obtain ⟨hGood, log, hLog, hHist⟩ := serialHistory_of_run hEmpty (by simp) hLock hRun
  have hHolds := hGood.holds
  rw [hHist] at hHolds
  have hLast : lastOf none log = some I := hHolds.unique (openIndex_ok_iff.mp hOpen)
  exact ⟨log, hLog, hLast, (hLog.standsFor.1 I hLast).finds bm25 S limit hParse⟩

/-- A build over a crawl of the corpus. -/
theorem Task.follows_build {w : World} {cfg : BuildConfig} {files : List CrawledFile}
    (hCrawl : w.crawl = .ok files) (hShows : K.Shows w.indexRead files) (cur : Option Index) :
    Task.Follows K (.build w cfg) cur := by
  intro pid op hDoes
  generalize hTask : Task.build w cfg = t at hDoes
  obtain ⟨hFiles⟩ | ⟨hFiles⟩ | ⟨hFiles⟩ | ⟨hFiles⟩ := hDoes
  · injection hTask with hWorld hCfg
    subst hWorld hCfg
    obtain rfl := Except.ok.inj (hCrawl.symm.trans hFiles)
    exact hShows
  all_goals cases hTask

/-- Before the text is there. -/
def dataWorld : World := { textWorld with crawl := .ok [dataFile] }

/-- The task of building the text and the binary file. -/
def textTask : Task := .build textWorld mixedConfig

omit [Platform] in
theorem shows_data :
    let _ := textPlatform
    textCorpus.Shows dataWorld.indexRead [dataFile] := by
  intro _
  exact ⟨fun cf hcf => .inr (List.mem_singleton.mp hcf), fun _ _ _ => rfl, by decide⟩

omit [Platform] in
/-- A process that builds the binary file commits, and opens the index when another one has built
that file and the text. `x` is searched in what is on disk then. -/
theorem search_finds_shared_overlap : ∃ _ : Platform, ∃ K c I,
    (processes (Task.Admits (Task.Follows K))).Run
      ((processes (Task.Admits (Task.Follows K))).Idle (.start ⟨∅, none, 0⟩ none)) c ∧
    c.state.hist.length = 2 ∧
    c.state.dir.openIndex = .ok (some I) ∧ Query.parse "x" = .ok (.term "x") ∧
    ∃ bm25 : Query.Bm25 Nat Nat Nat, ∃ S log, Serial (Task.Follows K) none log ∧
      lastOf none log = some I ∧
      K.Finds (filed log) I (.term "x") 1 (Query.search bm25 S I (.term "x") 1) := by
  refine ⟨textPlatform, textCorpus, ?_⟩
  let _ := textPlatform
  let world : Pid → World := fun pid => if pid = 0 then dataWorld else textWorld
  let files : Pid → List CrawledFile := fun pid =>
    if pid = 0 then [dataFile] else [textFile, dataFile]
  let ok : Pid → Sys → Bool := fun pid S =>
    S.roomToBuild (world pid) mixedConfig (files pid) pid
  let P := processes (Task.Admits (Task.Follows textCorpus))
  have hEnd : (P.turns (fun pid => .build (world pid) mixedConfig) (Sys.exec · false) ok
      (firstCommits ++ secondCommits) (P.Idle (.start ⟨∅, none, 0⟩ none))).any (fun c =>
        c.state.hist.length = 2) = true := by
    decide +kernel
  obtain ⟨c, hTurns, hTwo⟩ := (Option.any_eq_true _ _).mp hEnd
  have hAdmits : ∀ pid S, ok pid S = true → S.fs.lock = none →
      (Task.build (world pid) mixedConfig).Admits (Task.Follows textCorpus) (S.released pid)
        S.current := by
    intro pid S hOk hFree
    by_cases hZero : pid = 0
    · simp only [ok, world, files, if_pos hZero] at hOk ⊢
      exact ⟨S.hasRoom_of_roomToBuild rfl hOk hFree, Task.follows_build rfl shows_data _⟩
    · simp only [ok, world, files, if_neg hZero] at hOk ⊢
      exact ⟨S.hasRoom_of_roomToBuild rfl hOk hFree,
        Task.follows_build rfl (shows_text _ fun _ => rfl) _⟩
  obtain ⟨hRun, -⟩ := Pool.Run.of_turns (P := P) (fun pid _ S hOk =>
    ⟨false, by simp, fun _ _ => hAdmits pid S hOk, rfl⟩) (Pool.Conf.performs_idle _) hTurns
  obtain ⟨hGood, -⟩ := @serialHistory_of_run _ _ none ⟨∅, none, 0⟩ (AList.lookup_empty _) (by simp)
    rfl c hRun
  have hHolds := hGood.holds
  rcases hCur : c.state.hist with _ | ⟨I, older⟩
  · rw [hCur] at hTwo
    cases hTwo
  · rw [hCur] at hHolds hTwo
    have hOpen := openIndex_ok_iff.mpr hHolds
    exact ⟨c, I, hRun, hCur ▸ of_decide_eq_true hTwo, hOpen, parse_text,
      ⟨fun _ _ => 1, fun _ tf _ _ => tf.toNat, fun _ _ => 0⟩,
      .ofSort Query.byRank Query.byRank_trans Query.byRank_total,
      search_finds_shared (s := ⟨∅, none, 0⟩) _ _ 1 (AList.lookup_empty _) rfl hRun hOpen
        parse_text⟩

-- ---------------------------------------------------------------------------
-- After power losses
-- ---------------------------------------------------------------------------

/-- At any moment of any run on what power losses have left of an empty directory, a search in what
is on disk finds the files of the crawls whose commits are left, as far as they answer the query. -/
theorem search_finds_after_power_loss {F A M : Type} [AddCommMonoid F] [AddCommMonoid M]
    [LinearOrder M] (bm25 : Query.Bm25 F A M) (S : SelectNth (Query.byRank (M := M))) (limit : Nat)
    {s : FsState} {prev : Option Index} (hLeft : Restarts (Task.Follows K) s.dir)
    (hHolds : s.dir.Holds prev) (hLock : s.lock = none)
    {c : (processes (Task.Admits (Task.Follows K))).Conf}
    (hRun : (processes (Task.Admits (Task.Follows K))).Run
      ((processes (Task.Admits (Task.Follows K))).Idle (.start s prev)) c)
    {I : Index} (hOpen : c.state.dir.openIndex = .ok (some I)) {input : String}
    {node : Query.Node} (hParse : Query.parse input = .ok node) :
    ∃ log, Serial (Task.Follows K) none log ∧ lastOf none log = some I ∧
      K.Finds (filed log) I node limit (Query.search bm25 S I node limit) := by
  obtain ⟨log, hLog, hLast⟩ := hLeft.serial
  obtain rfl : prev = lastOf none log := hHolds.unique hLast
  obtain ⟨hGood, more, hMore, hHist⟩ :=
    serialHistory_of_run hHolds (hLog.sound (by simp)) hLock hRun
  have hHoldsNow := hGood.holds
  rw [hHist] at hHoldsNow
  have hNow : lastOf none (more ++ log) = some I := by
    rw [lastOf_append]
    exact hHoldsNow.unique (openIndex_ok_iff.mp hOpen)
  have hAll := hMore.append hLog
  exact ⟨more ++ log, hAll, hNow, (hAll.standsFor.1 I hNow).finds bm25 S limit hParse⟩

omit [Platform] in
/-- A power loss undoes the commit of a build, the build is run again on the files that are left,
and `x` is searched. -/
theorem search_finds_after_power_loss_text : ∃ _ : Platform, ∃ K, ∃ s : FsState, ∃ c I,
    Restarts (Task.Follows K) s.dir ∧ s.dir.lookup .manifest = none ∧ s.dir.keys ≠ [] ∧
    (processes (Task.Admits (Task.Follows K))).Run
      ((processes (Task.Admits (Task.Follows K))).Idle (.start s none)) c ∧
    c.state.dir.openIndex = .ok (some I) ∧ Query.parse "x" = .ok (.term "x") ∧
    ∃ bm25 : Query.Bm25 Nat Nat Nat, ∃ S log, Serial (Task.Follows K) none log ∧
      lastOf none log = some I ∧
      K.Finds (filed log) I (.term "x") 1 (Query.search bm25 S I (.term "x") 1) := by
  refine ⟨textPlatform, textCorpus, ?_⟩
  let _ := textPlatform
  -- The lock is taken once, over no index.
  have hAdmits : ∀ S : Sys,
      (S.fs.lock.isSome || (S.hist.isEmpty && (S.released 0).isEmpty)) = true →
      S.fs.lock = none →
        textTask.Admits (Task.Follows textCorpus) (S.released 0) S.current := by
    intro S hA hFree
    obtain ⟨hHist, hReleased⟩ : S.hist = [] ∧ S.released 0 = [] := by simpa [hFree] using hA
    rw [Sys.current, hHist, hReleased]
    refine ⟨?_, Task.follows_build rfl (shows_text _ fun _ => rfl) _⟩
    intro files hFiles
    obtain rfl := Except.ok.inj hFiles
    exact room_text
  have hRuns := fun n => Pool.Run.alone (P := onDisks (Task.Follows textCorpus)) (i := 0)
    (w := textTask)
    (A := fun s => (s.1.fs.lock.isSome || (s.1.hist.isEmpty && (s.1.released 0).isEmpty)) = true ∧
      ¬ s.2.Unsettled .manifest) (Sys.execOnDisk 0)
    (fun _ S hA => ⟨false, by simp, fun _ _ => hAdmits S.1 hA.1, rfl, rfl,
      fun h => absurd h hA.2⟩) (.start ⟨∅, none, 0⟩ none, Dir.mounted ∅) n
  obtain ⟨c₁, hRun₁, hState₁, -⟩ := hRuns 16 (by decide +kernel)
  obtain ⟨c₂, hRun₂, hState₂, -⟩ := hRuns (16 + 1) (by decide +kernel)
  obtain ⟨-, hDisk₁⟩ :=
    @onDisk_of_run _ _ none ⟨∅, none, 0⟩ (AList.lookup_empty _) (by simp) rfl c₁ hRun₁
  have hLoss : c₂.state.2.Survives fun n => c₁.state.1.dir.lookup n := by
    have hUndo := survives_evalN 0 ((onDisks (Task.Follows textCorpus)).prog 0 textTask) 16
      ((onDisks (Task.Follows textCorpus)).enter 0 (.start ⟨∅, none, 0⟩ none, Dir.mounted ∅))
    rw [← hState₁, ← hState₂] at hUndo
    rwa [show (fun n => c₁.state.1.dir.lookup n) = c₁.state.2.lookup from funext hDisk₁.shows]
  have hLeft : Restarts (Task.Follows textCorpus) c₁.state.1.dir :=
    @Restarts.loss _ _ ⟨∅, none, 0⟩ none _ _ .new (AList.lookup_empty _) rfl hRun₂ hLoss
  have hNone : c₁.state.1.dir.lookup .manifest = none := by
    rw [hState₁]
    decide +kernel
  have hSome : c₁.state.1.dir.keys ≠ [] := by
    rw [hState₁]
    decide +kernel
  obtain ⟨c, hRun, hState, -⟩ := Pool.Run.alone
    (P := processes (Task.Admits (Task.Follows textCorpus))) (i := 0) (w := textTask)
      (Sys.exec 0 false) (fun _ S hA => ⟨false, by simp, fun _ _ => hAdmits S hA, rfl⟩)
        (.start ⟨c₁.state.1.dir, none, 0⟩ none) 17 (by rw [hState₁]; decide +kernel)
  have hManifest : (c.state.dir.lookup .manifest).isSome := by
    rw [hState, hState₁]
    decide +kernel
  have hBefore : c₁.state.1.dir.Holds none := hNone
  obtain ⟨hGood, -⟩ := @serialHistory_of_run _ _ none ⟨_, none, 0⟩ hBefore (by simp) rfl c hRun
  have hHolds := hGood.holds
  rcases hCur : c.state.hist.head? with _ | I
  · rw [hCur] at hHolds
    rw [show c.state.dir.lookup .manifest = none from hHolds] at hManifest
    cases hManifest
  · rw [hCur] at hHolds
    have hOpen := openIndex_ok_iff.mpr hHolds
    exact ⟨⟨_, none, 0⟩, c, I, hLeft, hNone, hSome, hRun, hOpen, parse_text,
      ⟨fun _ _ => 1, fun _ tf _ _ => tf.toNat, fun _ _ => 0⟩,
      .ofSort Query.byRank Query.byRank_trans Query.byRank_total,
      search_finds_after_power_loss (s := ⟨_, none, 0⟩) _ _ 1 hLeft hBefore rfl hRun hOpen
        parse_text⟩

end Ripindex
