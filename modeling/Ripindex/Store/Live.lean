import Ripindex.Store.History

/-!
# Long-lived handles

`store/live.rs`: a `LiveIndex` serves a snapshot of the index and is refreshed from the
directory.

* `LiveHistory` — one handle whose refreshes do not overlap, over a directory that may lose
  its manifest;
* `LiveState` — any number of overlapping refreshes and of snapshots held by queries.

## Results

* `LiveHistory.refreshes_iff_of_run` — when a refresh leaves the index it has read;
* `LiveState.dropSafe_of_run`, `LiveState.generation_le_of_run` — files of live segments
  stay, and the generation served does not decrease.
-/

namespace Ripindex

variable [Platform]

-- ---------------------------------------------------------------------------
-- Snapshots
-- ---------------------------------------------------------------------------

/-- A segment of a snapshot; `retire` asks for its files to be removed with it. -/
structure LiveSegment where
  inner : Segment
  retire : Bool

/-- What a handle serves. -/
structure Snapshot0 where
  generation : UInt64
  segments : List LiveSegment
  overlay : Overlay

/-- A freshly opened index as a snapshot. -/
def wrap (I : Index) : Snapshot0 where
  generation := I.manifest.generation
  segments := I.segments.map fun s => ⟨s, false⟩
  overlay := I.overlay

namespace Snapshot0

/-- The snapshot has exactly the segments, deletions and overlay of the index. -/
def Serves (snap : Snapshot0) (I : Index) : Prop :=
  snap.segments.map LiveSegment.inner = I.segments ∧ snap.overlay = I.overlay

/-- Mark the segments that `fresh` does not name. -/
def mark (fresh : Index) (snap : Snapshot0) : Snapshot0 :=
  { snap with
    segments := snap.segments.map fun s =>
      if s.inner.entry.segmentId ∈ fresh.manifest.segments.map SegmentEntry.segmentId then s
      else { s with retire := true } }

/-- What dropping the snapshot removes. -/
def removedFiles (snap : Snapshot0) : List FileName :=
  (snap.segments.filter LiveSegment.retire).flatMap fun s => segmentFiles s.inner.entry

omit [Platform] in
theorem serves_wrap (I : Index) : (wrap I).Serves I := by
  refine ⟨?_, rfl⟩
  simp [wrap, Function.comp_def]

end Snapshot0

-- ---------------------------------------------------------------------------
-- One handle, refreshed from time to time
-- ---------------------------------------------------------------------------

/-- `LiveIndex::refresh` over what opening the directory gives: whether anything changed, and
the snapshot served afterwards. -/
def refresh (fresh : Option Index) (cur : Snapshot0) : Bool × Snapshot0 :=
  match fresh with
  | none => (false, cur) -- the index vanished: keep serving the last good snapshot
  | some I => if I.manifest.generation = cur.generation then (false, cur) else (true, wrap I)

/-- The index in the directory, if its manifest is usable, and the snapshot served; the index
that this was made from, and the commits since that one was read, the newest first. -/
structure LiveHistory where
  disk : Option Index
  live : Snapshot0
  source : Index
  since : List Index

namespace LiveHistory

/-- The handle has just been opened. -/
def opened (I : Index) : LiveHistory := ⟨some I, wrap I, I, []⟩

/-- A whole `LiveIndex::refresh`. -/
def refreshed (s : LiveHistory) : LiveHistory :=
  let (changed, live) := refresh s.disk s.live
  { s with
    live
    source := if changed then s.disk.getD s.source else s.source
    since := if changed then [] else s.since }

inductive Step : LiveHistory → LiveHistory → Prop
  | commit {s : LiveHistory} {J : Index} (h : Commit s.disk J) :
    Step s { s with disk := some J, since := J :: s.since }
  /-- The manifest is lost or becomes unreadable. -/
  | lose {s : LiveHistory} : Step s { s with disk := none }
  | refresh {s : LiveHistory} : Step s s.refreshed

/-- A refresh now leaves what it reads. -/
def Refreshes (s : LiveHistory) : Prop :=
  ∀ I ∈ s.disk, s.refreshed.live.Serves I

/-- The generation tells the index in the directory from the one that is served: if it was
committed since that one was read, it has another generation or the same content. -/
def Told (s : LiveHistory) : Prop :=
  ∀ J ∈ s.since.head?, s.disk = some J →
    J.manifest.generation = s.source.manifest.generation →
      J.segments = s.source.segments ∧ J.overlay = s.source.overlay

abbrev Run : LiveHistory → LiveHistory → Prop := Relation.ReflTransGen Step

/-- The snapshot is that of `source`, and the index in the directory is the last one
committed since, or `source` itself. -/
structure Inv (s : LiveHistory) : Prop where
  live : s.live = wrap s.source
  disk : ∀ I ∈ s.disk, I ∈ s.since.head? ∨ s.since = [] ∧ I = s.source

omit [Platform] in
theorem refreshed_of_none {s : LiveHistory} (h : s.disk = none) : s.refreshed = s := by
  obtain ⟨disk, live, source, since⟩ := s
  obtain rfl : disk = none := h
  rfl

omit [Platform] in
theorem refreshed_of_eq {s : LiveHistory} {I : Index} (h : s.disk = some I)
    (hGen : I.manifest.generation = s.live.generation) : s.refreshed = s := by
  obtain ⟨disk, live, source, since⟩ := s
  obtain rfl : disk = some I := h
  simp [refreshed, Ripindex.refresh, hGen]

omit [Platform] in
theorem refreshed_of_ne {s : LiveHistory} {I : Index} (h : s.disk = some I)
    (hGen : I.manifest.generation ≠ s.live.generation) : s.refreshed = opened I := by
  simp [refreshed, h, Ripindex.refresh, hGen, opened]

omit [Platform] in
theorem inv_opened (I : Index) : (opened I).Inv :=
  ⟨rfl, fun _ hI => .inr ⟨rfl, (Option.some.inj hI).symm⟩⟩

theorem Inv.step {s s' : LiveHistory} (h : s.Inv) (hStep : Step s s') : s'.Inv := by
  cases hStep with
  | commit hCommit => exact ⟨h.live, fun I hI => .inl hI⟩
  | lose => exact ⟨h.live, fun I hI => nomatch hI⟩
  | refresh =>
    rcases hDisk : s.disk with _ | I
    · rw [refreshed_of_none hDisk]
      exact h
    · by_cases hGen : I.manifest.generation = s.live.generation
      · rw [refreshed_of_eq hDisk hGen]
        exact h
      · rw [refreshed_of_ne hDisk hGen]
        exact inv_opened I

theorem Run.inv {I : Index} {s : LiveHistory} (h : Run (opened I) s) : s.Inv := by
  induction h with
  | refl => exact inv_opened I
  | tail _ hStep ih => exact ih.step hStep

omit [Platform] in
theorem Inv.refreshes_iff {s : LiveHistory} (h : s.Inv) : s.Refreshes ↔ s.Told := by
  rcases hDisk : s.disk with _ | I
  · refine iff_of_true (fun I hI => ?_) (fun J _ hJ => ?_)
    · rw [hDisk] at hI
      cases hI
    · rw [hDisk] at hJ
      cases hJ
  have hServes : s.Refreshes ↔ s.refreshed.live.Serves I := by
    constructor
    · exact fun hAll => hAll I hDisk
    · intro hOne J hJ
      obtain rfl := Option.some.inj (hDisk.symm.trans hJ)
      exact hOne
  rw [hServes]
  by_cases hGen : I.manifest.generation = s.live.generation
  · -- The refresh keeps the snapshot of `source`.
    rw [refreshed_of_eq hDisk hGen, h.live]
    have hSource : I.manifest.generation = s.source.manifest.generation := by
      rw [hGen, h.live]
      rfl
    have hKept := Snapshot0.serves_wrap s.source
    constructor
    · rintro ⟨hSegs, hOverlay⟩ J - hJ -
      obtain rfl := Option.some.inj (hDisk.symm.trans hJ)
      exact ⟨hSegs.symm.trans hKept.1, hOverlay.symm.trans hKept.2⟩
    · intro hTold
      rcases h.disk I hDisk with hHead | ⟨-, rfl⟩
      · obtain ⟨hSegs, hOverlay⟩ := hTold I hHead hDisk hSource
        exact ⟨hKept.1.trans hSegs.symm, hKept.2.trans hOverlay.symm⟩
      · exact hKept
  · rw [refreshed_of_ne hDisk hGen]
    refine iff_of_true (Snapshot0.serves_wrap I) fun J _ hJ hEq => ?_
    obtain rfl := Option.some.inj (hDisk.symm.trans hJ)
    rw [h.live] at hGen
    exact absurd hEq hGen

/-- After any run, a refresh leaves the index that it reads exactly if the generation tells
this index from the one that is served. -/
theorem refreshes_iff_of_run {I : Index} {s : LiveHistory} (hRun : Run (opened I) s) :
    s.Refreshes ↔ s.Told :=
  (Run.inv hRun).refreshes_iff

/-- A crawl of the one binary file `a`, or of none. -/
def smallWorld (files : List CrawledFile) : World :=
  ⟨true, .ok files, fun _ => .error .other, fun _ => .error .other, 0⟩

def smallFile : CrawledFile := ⟨⟨"a", 1, 0, 1⟩, .binary⟩

def smallConfig : BuildConfig := ⟨1, 1, 1000⟩

omit [Platform] in
/-- Over a reference platform, small builds succeed. -/
theorem small_builds {files : List CrawledFile} (h : files = [] ∨ files = [smallFile]) :
    let _ := Platform.reference
    (buildPlan (smallWorld files) smallConfig files none).result.isOk = true ∧
      BuildRoom (smallWorld files) smallConfig files none := by
  intro _
  rcases h with rfl | rfl
  · exact ⟨by decide +kernel, by decide +kernel, by decide +kernel, by decide +kernel⟩
  · exact ⟨by decide +kernel, by decide +kernel, by decide +kernel, by decide +kernel⟩

/-- The index of an empty root. -/
def emptyIndex : Index :=
  builtIndex (smallWorld []) none [] (builtManifest_ok
    (show Tiles (fun _ => .error .other) 0 0 [] [] from .nil _ _) ⟨by decide, by decide⟩)

omit [Platform] in
/-- A file is found in an empty root. -/
theorem small_build_over_empty :
    let _ := Platform.reference
    (buildPlan (smallWorld [smallFile]) smallConfig [smallFile] (some emptyIndex)).result.isOk =
        true ∧
      BuildRoom (smallWorld [smallFile]) smallConfig [smallFile] (some emptyIndex) := by
  intro _
  exact ⟨by decide +kernel, by decide +kernel, by decide +kernel, by decide +kernel⟩

omit [Platform] in
theorem commit_emptyIndex :
    let _ := Platform.reference
    Commit none emptyIndex := by
  intro _
  obtain ⟨hOk, hRoom⟩ := small_builds (.inl rfl)
  obtain ⟨segs, hM, hCommit, hTiles⟩ := Commit.of_build hOk hRoom
  obtain rfl := hTiles.segs_eq_nil rfl
  exact hCommit

omit [Platform] in
/-- The index `I` is served when the manifest is lost; the rebuild `J` over a root that was
emptied has the same generation, but the next commit `K` comes before the refresh. -/
theorem refreshes_of_overtaken : ∃ _ : Platform, ∃ (I J K : Index) (s : LiveHistory),
    Run (opened I) s ∧ s.since = [K, J] ∧ J.manifest.generation = I.manifest.generation ∧
      J.segments ≠ I.segments ∧ s.Refreshes ∧ s.refreshed = opened K ∧
      s.refreshed.Refreshes := by
  refine ⟨Platform.reference, ?_⟩
  let _ := Platform.reference
  obtain ⟨hOk, hRoom⟩ := small_builds (.inr rfl)
  obtain ⟨hOk', hRoom'⟩ := small_build_over_empty
  obtain ⟨segs, hM, -, hTiles⟩ := Commit.of_build hOk hRoom
  obtain ⟨segs', hM', hCommit', -⟩ := Commit.of_build hOk' hRoom'
  let I := builtIndex (smallWorld [smallFile]) none segs hM
  let K := builtIndex (smallWorld [smallFile]) (some emptyIndex) segs' hM'
  let s : LiveHistory := ⟨some K, wrap I, I, [K, emptyIndex]⟩
  have hRun : Run (opened I) s :=
    .tail (.tail (.single .lose) (.commit commit_emptyIndex)) (.commit hCommit')
  have hGen : K.manifest.generation ≠ I.manifest.generation := by
    show (0 + 1 + 1 : UInt64) ≠ 0 + 1
    decide
  have hTold : s.Told := by
    intro J hJ _ hEq
    obtain rfl : K = J := Option.some.inj hJ
    exact absurd hEq hGen
  refine ⟨I, emptyIndex, K, s, hRun, rfl, rfl, (hTiles.segs_ne_nil (by simp)).symm,
    (refreshes_iff_of_run hRun).mpr hTold, refreshed_of_ne rfl hGen, ?_⟩
  have hRun' : Run (opened I) s.refreshed := hRun.tail .refresh
  refine (refreshes_iff_of_run hRun').mpr fun J hJ => ?_
  rw [refreshed_of_ne rfl hGen] at hJ
  cases hJ

omit [Platform] in
/-- A handle is opened on an empty index, the manifest is lost, and the rebuild finds a
file: its generation is the one being served. -/
theorem refresh_after_rebuild_not_serves : ∃ _ : Platform,
    ¬ ∀ (I : Index) (s : LiveHistory), Run (opened I) s → s.Refreshes := by
  refine ⟨Platform.reference, fun hAll => ?_⟩
  let _ := Platform.reference
  obtain ⟨hOk, hRoom⟩ := small_builds (.inr rfl)
  obtain ⟨segs, hM, hCommit, hTiles⟩ := Commit.of_build hOk hRoom
  let J := builtIndex (smallWorld [smallFile]) none segs hM
  have hRun : Run (opened emptyIndex) ⟨some J, wrap emptyIndex, emptyIndex, [J]⟩ :=
    .tail (.single .lose) (.commit hCommit)
  have hServes := hAll _ _ hRun J rfl
  -- Both are of generation 1, so the refresh keeps what it has.
  rw [refreshed_of_eq rfl rfl] at hServes
  exact hTiles.segs_ne_nil (by simp) hServes.1.symm

end LiveHistory

-- ---------------------------------------------------------------------------
-- Overlapping refreshes
-- ---------------------------------------------------------------------------

/-- The `Arc` of a snapshot, named in the order of creation. -/
abbrev SnapId := Nat

/-- A call of `refresh` between two of its steps. -/
inductive Refreshing
  /-- It has opened the index in the directory. -/
  | opened (fresh : Index)
  /-- It holds the snapshot it found current. -/
  | read (fresh : Index) (old : SnapId)
  /-- It has marked the segments of that snapshot. -/
  | marked (fresh : Index) (old : SnapId)

/-- The index called `fresh`, and the snapshot held. -/
def Refreshing.fresh : Refreshing → Index
  | opened I | read I _ | marked I _ => I

def Refreshing.holds : Refreshing → Option SnapId
  | opened _ => none
  | read _ old | marked _ old => some old

/-- The commits to the directory, the newest first; the snapshots that are not dropped yet;
which one is current; which ones queries hold; and the refreshes under way. -/
structure LiveState where
  hist : List Index
  heap : SnapId → Option Snapshot0
  cur : SnapId
  next : SnapId
  held : Nat → Option SnapId
  calls : Nat → Option Refreshing

namespace LiveState

open LiveHistory (smallWorld smallFile smallConfig emptyIndex small_builds
  small_build_over_empty)

/-- The index in the directory. -/
def disk (s : LiveState) : Option Index := s.hist.head?

/-- A handle has just been opened. -/
def opened (I : Index) : LiveState where
  hist := [I]
  heap := Function.update (fun _ => none) 0 (some (wrap I))
  cur := 0
  next := 1
  held := fun _ => none
  calls := fun _ => none

def setCall (s : LiveState) (c : Nat) (r : Option Refreshing) : LiveState :=
  { s with calls := Function.update s.calls c r }

def setHeld (s : LiveState) (u : Nat) (id : Option SnapId) : LiveState :=
  { s with held := Function.update s.held u id }

/-- `LiveIndex::generation`. -/
def generation (s : LiveState) : Option UInt64 := (s.heap s.cur).map Snapshot0.generation

/-- No reference to the snapshot is left. -/
def Unreferenced (s : LiveState) (id : SnapId) : Prop :=
  id ≠ s.cur ∧ (∀ u, s.held u ≠ some id) ∧ ∀ c r, s.calls c = some r → r.holds ≠ some id

inductive Step : LiveState → LiveState → Prop
  | commit {s : LiveState} {J : Index} (h : Commit s.disk J) :
    Step s { s with hist := J :: s.hist }
  | openDisk {s : LiveState} (c : Nat) {I : Index} (hCall : s.calls c = none)
    (hDisk : s.disk = some I) : Step s (s.setCall c (some (.opened I)))
  | read {s : LiveState} (c : Nat) {I : Index} (hCall : s.calls c = some (.opened I)) :
    Step s (s.setCall c (some (.read I s.cur)))
  /-- The generations are equal: nothing to do. -/
  | same {s : LiveState} (c : Nat) {I : Index} {old : SnapId} {snap : Snapshot0}
    (hCall : s.calls c = some (.read I old)) (hOld : s.heap old = some snap)
    (hEq : I.manifest.generation = snap.generation) : Step s (s.setCall c none)
  | mark {s : LiveState} (c : Nat) {I : Index} {old : SnapId} {snap : Snapshot0}
    (hCall : s.calls c = some (.read I old)) (hOld : s.heap old = some snap)
    (hNe : I.manifest.generation ≠ snap.generation) :
    Step s { s.setCall c (some (.marked I old)) with
      heap := Function.update s.heap old (some (snap.mark I)) }
  | swap {s : LiveState} (c : Nat) {I : Index} {old : SnapId}
    (hCall : s.calls c = some (.marked I old)) :
    Step s { s.setCall c none with
      heap := Function.update s.heap s.next (some (wrap I))
      cur := s.next
      next := s.next + 1 }
  | snapshot {s : LiveState} (u : Nat) (hHeld : s.held u = none) :
    Step s (s.setHeld u (some s.cur))
  | release {s : LiveState} (u : Nat) : Step s (s.setHeld u none)
  /-- The last reference is gone: `LiveSegment::drop` of every segment. -/
  | drop {s : LiveState} (id : SnapId) (h : s.Unreferenced id) :
    Step s { s with heap := Function.update s.heap id none }

abbrev Run : LiveState → LiveState → Prop := Relation.ReflTransGen Step

/-- What dropping a snapshot removes is not named by the manifest in the directory. -/
def DropSafe (s : LiveState) : Prop :=
  ∀ id snap, s.heap id = some snap → s.Unreferenced id →
    ∀ n ∈ snap.removedFiles, ∀ I ∈ s.disk, n ∉ referencedFiles I.manifest

/-- The generation in the directory grows, a refresh marks no snapshot of a later generation
than the index it opened, and replaces none. -/
structure Orderly (s s' : LiveState) : Prop where
  grows : ∀ J ∈ s'.disk, s'.hist ≠ s.hist →
    ∀ I ∈ s.disk, I.manifest.generation < J.manifest.generation
  mark : ∀ c I old snap, s.calls c = some (.read I old) →
    s'.calls c = some (.marked I old) → s.heap old = some snap →
      snap.generation ≤ I.manifest.generation
  swap : ∀ c I old snap, s.calls c = some (.marked I old) → s'.calls c = none →
    s.heap s.cur = some snap → snap.generation ≤ I.manifest.generation

omit [Platform] in
theorem Orderly.of_calls {s s' : LiveState} (hHist : s'.hist = s.hist)
    (hCalls : s'.calls = s.calls) : Orderly s s' where
  grows := fun _ _ hNe => absurd hHist hNe
  mark := by
    rintro c I old snap hCall hNext -
    rw [hCalls, hCall] at hNext
    cases hNext
  swap := by
    rintro c I old snap hCall hNext -
    rw [hCalls, hCall] at hNext
    cases hNext

omit [Platform] in
/-- One refresh takes a step: if it marks or swaps, the snapshot is no newer than its index. -/
theorem Orderly.of_update {s s' : LiveState} {c : Nat} {r : Option Refreshing}
    (hHist : s'.hist = s.hist) (hCalls : s'.calls = Function.update s.calls c r)
    (hMark : ∀ I old snap, s.calls c = some (.read I old) → r = some (.marked I old) →
      s.heap old = some snap → snap.generation ≤ I.manifest.generation)
    (hSwap : ∀ I old snap, s.calls c = some (.marked I old) → r = none →
      s.heap s.cur = some snap → snap.generation ≤ I.manifest.generation) : Orderly s s' where
  grows := fun _ _ hNe => absurd hHist hNe
  mark := by
    intro d I old snap hCall hNext
    rw [hCalls] at hNext
    by_cases hd : d = c
    · subst hd
      rw [Function.update_self] at hNext
      exact hMark I old snap hCall hNext
    · rw [Function.update_of_ne hd, hCall] at hNext
      cases hNext
  swap := by
    intro d I old snap hCall hNext
    rw [hCalls] at hNext
    by_cases hd : d = c
    · subst hd
      rw [Function.update_self] at hNext
      exact hSwap I old snap hCall hNext
    · rw [Function.update_of_ne hd, hCall] at hNext
      cases hNext

omit [Platform] in
/-- A refresh takes a step that neither marks nor swaps. -/
theorem Orderly.setCall {s : LiveState} {c : Nat} {r : Option Refreshing}
    (hOld : ∀ I old, s.calls c ≠ some (.marked I old))
    (hNew : ∀ I old, r ≠ some (.marked I old)) : Orderly s (s.setCall c r) :=
  .of_update rfl rfl (fun I old _ _ hEq => absurd hEq (hNew I old))
    fun I old _ hCall => absurd hCall (hOld I old)

abbrev OrderlyRun : LiveState → LiveState → Prop :=
  Relation.ReflTransGen fun s s' => Step s s' ∧ Orderly s s'

-- ---------------------------------------------------------------------------
-- The history
-- ---------------------------------------------------------------------------

/-- Later indexes of the history evolved from earlier ones and have later generations. -/
def Ordered (l : List Index) : Prop :=
  l.Pairwise fun J I => I.Evolves J ∧ I.manifest.generation < J.manifest.generation

omit [Platform] in
/-- The generation tells which index came first. -/
theorem Ordered.evolves {l : List Index} (h : Ordered l) {I J : Index} (hI : I ∈ l)
    (hJ : J ∈ l) (hLt : I.manifest.generation < J.manifest.generation) : I.Evolves J := by
  induction l with
  | nil => cases hI
  | cons K l ih =>
    obtain ⟨hHead, hTail⟩ := List.pairwise_cons.mp h
    rcases List.mem_cons.mp hI with rfl | hI'
    · rcases List.mem_cons.mp hJ with rfl | hJ'
      · exact absurd hLt (UInt64.lt_irrefl _)
      · exact absurd (UInt64.lt_trans hLt (hHead J hJ').2) (UInt64.lt_irrefl _)
    · rcases List.mem_cons.mp hJ with rfl | hJ'
      · exact (hHead I hI').1
      · exact ih hTail hI' hJ'

omit [Platform] in
theorem Ordered.evolves_head {l : List Index} (h : Ordered l) {I J : Index} (hI : I ∈ l)
    (hJ : J ∈ l.head?) : I.Evolves J := by
  cases l with
  | nil => cases hI
  | cons K l =>
    obtain rfl : K = J := by simpa using hJ
    rcases List.mem_cons.mp hI with rfl | hI'
    · exact Index.Evolves.refl I
    · exact ((List.pairwise_cons.mp h).1 I hI').1

omit [Platform] in
/-- A segment that a later index does not name is named by none after it: its files are
gone from every later manifest. -/
theorem not_mem_referencedFiles_of_gone {I F D : Index} (hF : I.Evolves F) (hD : F.Evolves D)
    {s : Segment} (hs : s ∈ I.segments)
    (hGone : s.entry.segmentId ∉ F.manifest.segments.map SegmentEntry.segmentId)
    {n : FileName} (hn : n ∈ segmentFiles s.entry) : n ∉ referencedFiles D.manifest := by
  intro hMem
  rcases Index.mem_referencedFiles.mp hMem with ⟨t, ht, hFile⟩ | ⟨-, rfl⟩
  · -- A file name carries the id of its segment.
    have hId : t.entry.segmentId = s.entry.segmentId := by
      rw [mem_segmentFiles] at hn hFile
      rcases hn with rfl | rfl | ⟨-, rfl⟩ <;> simp at hFile <;> simp [hFile]
    have hLt : t.entry.segmentId < F.manifest.nextSegmentId :=
      hId ▸ UInt32.lt_of_lt_of_le (I.segmentId_lt hs) hF.next_le
    obtain ⟨s', hs', hCarried⟩ := hD.carried t ht hLt
    refine hGone (List.mem_map.mpr ⟨s'.entry, Index.mem_manifest_segments.mpr ⟨s', hs', rfl⟩, ?_⟩)
    exact hCarried.segmentId.symm.trans hId
  · simp [mem_segmentFiles] at hn

-- ---------------------------------------------------------------------------
-- The invariant
-- ---------------------------------------------------------------------------

/-- The snapshot was opened as `I`; a marked segment is not in some later index. -/
structure SnapOk (l : List Index) (snap : Snapshot0) (I : Index) : Prop where
  mem : I ∈ l
  serves : snap.segments.map LiveSegment.inner = I.segments
  generation : snap.generation = I.manifest.generation
  marked : ∀ s ∈ snap.segments, s.retire → ∃ F ∈ l, I.Evolves F ∧
    s.inner.entry.segmentId ∉ F.manifest.segments.map SegmentEntry.segmentId

structure Inv (s : LiveState) : Prop where
  ordered : Ordered s.hist
  snaps : ∀ id snap, s.heap id = some snap → ∃ I, SnapOk s.hist snap I
  calls : ∀ c r, s.calls c = some r → r.fresh ∈ s.hist

omit [Platform] in
theorem SnapOk.mono {l : List Index} {snap : Snapshot0} {I J : Index} (h : SnapOk l snap I) :
    SnapOk (J :: l) snap I where
  mem := List.mem_cons_of_mem _ h.mem
  serves := h.serves
  generation := h.generation
  marked := fun s hs hR => by
    obtain ⟨F, hF, hRest⟩ := h.marked s hs hR
    exact ⟨F, List.mem_cons_of_mem _ hF, hRest⟩

omit [Platform] in
theorem snapOk_wrap {l : List Index} {I : Index} (hI : I ∈ l) : SnapOk l (wrap I) I where
  mem := hI
  serves := (Snapshot0.serves_wrap I).1
  generation := rfl
  marked := fun s hs hR => by
    obtain ⟨t, -, rfl⟩ := List.mem_map.mp hs
    cases hR

omit [Platform] in
/-- Marking for an index that came later. -/
theorem SnapOk.mark {l : List Index} {snap : Snapshot0} {I F : Index} (h : SnapOk l snap I)
    (hF : F ∈ l) (hEvolves : I.Evolves F) : SnapOk l (snap.mark F) I where
  mem := h.mem
  serves := by
    rw [← h.serves, Snapshot0.mark, List.map_map]
    refine List.map_congr_left fun s _ => ?_
    simp only [Function.comp_apply]
    split <;> rfl
  generation := h.generation
  marked := fun s hs hR => by
    obtain ⟨t, ht, rfl⟩ := List.mem_map.mp hs
    by_cases hIn : t.inner.entry.segmentId ∈ F.manifest.segments.map SegmentEntry.segmentId
    · rw [if_pos hIn] at hR ⊢
      exact h.marked t ht hR
    · rw [if_neg hIn]
      exact ⟨F, hF, hEvolves, hIn⟩

omit [Platform] in
theorem Inv.dropSafe {s : LiveState} (h : s.Inv) : s.DropSafe := by
  intro id snap hSnap _ n hn D hD
  obtain ⟨I, hOk⟩ := h.snaps id snap hSnap
  obtain ⟨t, ht, hFile⟩ := List.mem_flatMap.mp hn
  obtain ⟨hMem, hRetire⟩ := List.mem_filter.mp ht
  obtain ⟨F, hF, hEvolves, hGone⟩ := hOk.marked t hMem hRetire
  have hSeg : t.inner ∈ I.segments := hOk.serves ▸ List.mem_map_of_mem hMem
  exact not_mem_referencedFiles_of_gone hEvolves (h.ordered.evolves_head hF hD) hSeg hGone hFile

omit [Platform] in
/-- A change of one call keeps what is known of all of them. -/
theorem Inv.calls_update {s : LiveState} (h : s.Inv) {c : Nat} {r' : Option Refreshing}
    (hNew : ∀ r, r' = some r → r.fresh ∈ s.hist) :
    ∀ d r, Function.update s.calls c r' d = some r → r.fresh ∈ s.hist := by
  intro d r hr
  by_cases hd : d = c
  · subst hd
    rw [Function.update_self] at hr
    exact hNew r hr
  · rw [Function.update_of_ne hd] at hr
    exact h.calls d r hr

theorem Inv.step {s s' : LiveState} (h : s.Inv) (hStep : Step s s') (hOrderly : Orderly s s') :
    s'.Inv := by
  cases hStep with
  | @commit J hCommit =>
    refine ⟨?_, fun id snap hSnap => ?_, fun c r hr => List.mem_cons_of_mem _ (h.calls c r hr)⟩
    · refine List.pairwise_cons.mpr ⟨fun I hI => ?_, h.ordered⟩
      obtain ⟨K, hK⟩ : ∃ K, s.disk = some K := by
        cases hHist : s.hist with
        | nil => simp [hHist] at hI
        | cons K l => exact ⟨K, by simp [disk, hHist]⟩
      have hEvolves : K.Evolves J := (hK ▸ hCommit).evolves
      have hLt := hOrderly.grows J rfl (by simp) K hK
      refine ⟨(h.ordered.evolves_head hI hK).trans hEvolves, ?_⟩
      -- The index in the directory has the latest generation of all before it.
      have hLe : I.manifest.generation ≤ K.manifest.generation := by
        cases hHist : s.hist with
        | nil => simp [hHist] at hI
        | cons K' l =>
          obtain rfl : K' = K := by simpa [disk, hHist] using hK
          rw [hHist] at hI
          have hOrd := h.ordered
          rw [hHist] at hOrd
          rcases List.mem_cons.mp hI with rfl | hI'
          · exact UInt64.le_refl _
          · exact UInt64.le_of_lt ((List.pairwise_cons.mp hOrd).1 I hI').2
      exact UInt64.lt_of_le_of_lt hLe hLt
    · obtain ⟨I, hI⟩ := h.snaps id snap hSnap
      exact ⟨I, hI.mono⟩
  | @openDisk c I hCall hDisk =>
    refine ⟨h.ordered, h.snaps, h.calls_update ?_⟩
    rintro _ ⟨⟩
    exact List.mem_of_mem_head? hDisk
  | @read c I hCall =>
    refine ⟨h.ordered, h.snaps, h.calls_update ?_⟩
    rintro _ ⟨⟩
    exact h.calls c (.opened I) hCall
  | same c hCall hOld hEq => exact ⟨h.ordered, h.snaps, h.calls_update (by simp)⟩
  | @mark c I old snap hCall hOld hNe =>
    have hFresh : I ∈ s.hist := h.calls c (.read I old) hCall
    refine ⟨h.ordered, fun id t ht => ?_, h.calls_update ?_⟩
    · by_cases hid : id = old
      · subst hid
        obtain rfl : snap.mark I = t := by simpa using ht
        obtain ⟨K, hK⟩ := h.snaps id snap hOld
        -- The snapshot marked is not of a later generation, and of another one.
        have hLe := hOrderly.mark c I id snap hCall (by simp [setCall]) hOld
        have hLt : K.manifest.generation < I.manifest.generation :=
          hK.generation ▸ UInt64.lt_of_le_of_ne hLe (Ne.symm hNe)
        exact ⟨K, hK.mark hFresh (h.ordered.evolves hK.mem hFresh hLt)⟩
      · exact h.snaps id t (by simpa [Function.update_of_ne hid] using ht)
    · rintro _ ⟨⟩
      exact hFresh
  | @swap c I old hCall =>
    refine ⟨h.ordered, fun id t ht => ?_, h.calls_update (by simp)⟩
    by_cases hid : id = s.next
    · subst hid
      obtain rfl : wrap I = t := by simpa using ht
      exact ⟨I, snapOk_wrap (h.calls c (.marked I old) hCall)⟩
    · exact h.snaps id t (by simpa [Function.update_of_ne hid] using ht)
  | snapshot u hHeld => exact ⟨h.ordered, h.snaps, h.calls⟩
  | release u => exact ⟨h.ordered, h.snaps, h.calls⟩
  | drop id hUnref =>
    refine ⟨h.ordered, fun id' t ht => ?_, h.calls⟩
    by_cases hid : id' = id
    · subst hid
      simp at ht
    · exact h.snaps id' t (by simpa [Function.update_of_ne hid] using ht)

omit [Platform] in
theorem inv_opened (I : Index) : (opened I).Inv where
  ordered := List.pairwise_singleton _ _
  snaps := by
    intro id snap hSnap
    by_cases hid : id = 0
    · subst hid
      obtain rfl : wrap I = snap := by simpa [opened] using hSnap
      exact ⟨I, snapOk_wrap List.mem_cons_self⟩
    · simp [opened, Function.update_of_ne hid] at hSnap
  calls := by simp [opened]

theorem OrderlyRun.inv {I : Index} {s : LiveState} (hRun : OrderlyRun (opened I) s) : s.Inv := by
  induction hRun with
  | refl => exact inv_opened I
  | tail _ hStep ih => exact ih.step hStep.1 hStep.2

/-- A step that is orderly does not turn the generation served back. -/
theorem generation_step {s s' : LiveState} (hStep : Step s s') (hOrderly : Orderly s s')
    {g : UInt64} (hGen : s.generation = some g) : ∃ g', s'.generation = some g' ∧ g ≤ g' := by
  have hSame : s'.heap s'.cur = s.heap s.cur → ∃ g', s'.generation = some g' ∧ g ≤ g' := by
    intro hEq
    refine ⟨g, ?_, UInt64.le_refl g⟩
    rw [generation, hEq]
    exact hGen
  obtain ⟨cur, hCur, rfl⟩ := Option.map_eq_some_iff.mp hGen
  cases hStep with
  | commit _ => exact hSame rfl
  | openDisk c _ _ => exact hSame rfl
  | read c _ => exact hSame rfl
  | same c _ _ _ => exact hSame rfl
  | snapshot u _ => exact hSame rfl
  | release u => exact hSame rfl
  | drop id hUnref => exact hSame (Function.update_of_ne (Ne.symm hUnref.1) _ _)
  | @mark c I old snap hCall hOld hNe =>
    by_cases hid : s.cur = old
    · -- Marking keeps the generation.
      refine ⟨snap.generation, ?_, ?_⟩
      · simp only [generation, setCall, hid, Function.update_self, Option.map_some]
        rfl
      · rw [hid, hOld] at hCur
        obtain rfl := Option.some.inj hCur
        exact UInt64.le_refl _
    · exact hSame (Function.update_of_ne hid _ _)
  | @swap c I old hCall =>
    refine ⟨I.manifest.generation, ?_, hOrderly.swap c I old cur hCall (by simp [setCall]) hCur⟩
    simp only [generation, Function.update_self, Option.map_some]
    rfl

theorem generation_le_of_run {s s' : LiveState} (hRun : OrderlyRun s s') {g : UInt64}
    (hGen : s.generation = some g) : ∃ g', s'.generation = some g' ∧ g ≤ g' := by
  induction hRun with
  | refl => exact ⟨g, hGen, UInt64.le_refl g⟩
  | tail _ hStep ih =>
    obtain ⟨g₁, hGen₁, hLe⟩ := ih
    obtain ⟨g₂, hGen₂, hLe'⟩ := generation_step hStep.1 hStep.2 hGen₁
    exact ⟨g₂, hGen₂, UInt64.le_trans hLe hLe'⟩

/-- In an orderly run no file that the manifest in the directory names is removed with a
snapshot, and the generation served never decreases. -/
theorem live_of_orderly {I : Index} {s s' : LiveState} (hRun : OrderlyRun (opened I) s)
    (hRest : OrderlyRun s s') : s'.DropSafe ∧
      ∃ g g', s.generation = some g ∧ s'.generation = some g' ∧ g ≤ g' := by
  obtain ⟨g, hGen, -⟩ := generation_le_of_run hRun (g := I.manifest.generation)
    (by simp [generation, opened, wrap])
  obtain ⟨g', hGen', hLe⟩ := generation_le_of_run hRest hGen
  exact ⟨(OrderlyRun.inv (hRun.trans hRest)).dropSafe, g, g', hGen, hGen', hLe⟩

omit [Platform] in
/-- The rebuild over a root that was emptied. -/
theorem exists_commit_emptied :
    let _ := Platform.reference
    ∀ I : Index, I.manifest.generation.toNat + 1 < 2 ^ 64 →
      ∃ K, Commit (some I) K ∧ K.manifest.segments = [] := by
  intro _ I hGen
  have hOk : (buildPlan (smallWorld []) smallConfig [] (some I)).result.isOk = true := rfl
  have hRoom : BuildRoom (smallWorld []) smallConfig [] (some I) := by
    refine ⟨by decide, ?_, hGen⟩
    have hZero : segmentCount (smallWorld []).indexRead [] 0 smallConfig = 0 := by
      decide +kernel
    rw [hZero]
    exact I.manifest.nextSegmentId.toNat_lt
  obtain ⟨segs, hM, hCommit, hTiles⟩ := Commit.of_build hOk hRoom
  obtain rfl := hTiles.segs_eq_nil rfl
  exact ⟨_, hCommit, rfl⟩

omit [Platform] in
/-- A query holds the snapshot of a file when the root is emptied and the handle refreshed;
with the end of the query the files of the segment go. -/
theorem live_of_emptied : ∃ _ : Platform, ∃ (I : Index) (s s' : LiveState) (snap : Snapshot0),
    OrderlyRun (opened I) s ∧ s.heap 0 = some snap ∧ s.Unreferenced 0 ∧
      snap.removedFiles ≠ [] ∧ s.DropSafe ∧
      Step s s' ∧ s'.heap 0 = none ∧ s'.DropSafe ∧
      ∃ g g', s.generation = some g ∧ s'.generation = some g' ∧ g ≤ g' := by
  refine ⟨Platform.reference, ?_⟩
  let _ := Platform.reference
  obtain ⟨hOk, hRoom⟩ := small_builds (.inr rfl)
  obtain ⟨segs, hM, -, hTiles⟩ := Commit.of_build hOk hRoom
  let I := builtIndex (smallWorld [smallFile]) none segs hM
  obtain ⟨K, hCommit, hNone⟩ := exists_commit_emptied I
    (show (0 + 1 : UInt64).toNat + 1 < 2 ^ 64 by decide)
  have hLt : I.manifest.generation < K.manifest.generation := by
    rw [hCommit.generation_eq]
    show (0 + 1 : UInt64) < 0 + 1 + 1
    decide
  have hNe : K.manifest.generation ≠ (wrap I).generation := (UInt64.ne_of_lt hLt).symm
  have hLe : (wrap I).generation ≤ K.manifest.generation := UInt64.le_of_lt hLt
  let s₁ : LiveState := { opened I with hist := K :: (opened I).hist }
  let s₂ := s₁.setCall 0 (some (.opened K))
  let s₃ := s₂.setHeld 0 (some 0)
  let s₄ := s₃.setCall 0 (some (.read K 0))
  let s₅ : LiveState := { s₄.setCall 0 (some (.marked K 0)) with
    heap := Function.update s₄.heap 0 (some ((wrap I).mark K)) }
  let s₆ : LiveState := { s₅.setCall 0 none with
    heap := Function.update s₅.heap 1 (some (wrap K)), cur := 1, next := 2 }
  let s₇ := s₆.setHeld 0 none
  let s₈ : LiveState := { s₇ with heap := Function.update s₇.heap 0 none }
  have h₁ : OrderlyRun (opened I) s₁ := by
    refine .single ⟨.commit hCommit, fun J hJ _ I' hI' => ?_, ?_, ?_⟩
    · obtain rfl : K = J := Option.some.inj hJ
      obtain rfl : I = I' := Option.some.inj hI'
      exact hLt
    · rintro c F old snap hCall
      cases hCall
    · rintro c F old snap hCall
      cases hCall
  have h₂ : OrderlyRun (opened I) s₂ := h₁.tail ⟨.openDisk 0 rfl rfl, .setCall nofun nofun⟩
  have h₃ : OrderlyRun (opened I) s₃ := h₂.tail ⟨.snapshot 0 rfl, .of_calls rfl rfl⟩
  have h₄ : OrderlyRun (opened I) s₄ := h₃.tail ⟨.read 0 rfl, .setCall nofun nofun⟩
  have h₅ : OrderlyRun (opened I) s₅ := by
    refine h₄.tail ⟨.mark 0 rfl rfl hNe, .of_update rfl rfl ?_ fun _ _ _ _ hEq => by cases hEq⟩
    intro F old snap hCall _ hSnap
    cases hCall
    obtain rfl : wrap I = snap := Option.some.inj hSnap
    exact hLe
  have h₆ : OrderlyRun (opened I) s₆ := by
    refine h₅.tail ⟨.swap 0 rfl, .of_update rfl rfl (fun _ _ _ _ hEq => by cases hEq) ?_⟩
    intro F old snap hCall _ hSnap
    cases hCall
    obtain rfl : (wrap I).mark K = snap := Option.some.inj hSnap
    exact hLe
  have h₇ : OrderlyRun (opened I) s₇ := h₆.tail ⟨.release 0, .of_calls rfl rfl⟩
  have hUnref : s₇.Unreferenced 0 := by
    refine ⟨Nat.zero_ne_one, fun u hu => ?_, fun c r hr => ?_⟩
    · simp [s₇, s₆, s₅, s₄, s₃, s₂, s₁, LiveState.setCall, setHeld, opened,
        Function.update_idem] at hu
    · simp [s₇, s₆, s₅, s₄, s₃, s₂, s₁, LiveState.setCall, setHeld, opened,
        Function.update_idem] at hr
  have hDrop : Step s₇ s₈ := .drop 0 hUnref
  have hRest : OrderlyRun s₇ s₈ := .single ⟨hDrop, .of_calls rfl rfl⟩
  have hFiles : ((wrap I).mark K).removedFiles ≠ [] := by
    obtain ⟨t, ht⟩ := List.exists_mem_of_ne_nil segs (hTiles.segs_ne_nil (by simp))
    refine List.ne_nil_of_mem (a := .idx t.entry.segmentId) ?_
    refine List.mem_flatMap.mpr ⟨⟨t, true⟩, List.mem_filter.mpr ⟨?_, rfl⟩,
      mem_segmentFiles.mpr (.inl rfl)⟩
    exact List.mem_map.mpr ⟨⟨t, false⟩, List.mem_map.mpr ⟨t, ht, rfl⟩, by simp [hNone]⟩
  obtain ⟨hSafe, hGen⟩ := live_of_orderly h₇ hRest
  exact ⟨I, s₇, s₈, (wrap I).mark K, h₇, rfl, hUnref, hFiles, (live_of_orderly h₇ .refl).1, hDrop,
    rfl, hSafe, hGen⟩

omit [Platform] in
/-- A refresh that opened the older index finishes last: it marks the segments of the newer
one, and dropping them removes files that the manifest names. -/
theorem overlapping_refreshes_not_dropSafe : ∃ _ : Platform,
    ¬ ∀ (I : Index) (s : LiveState), Run (opened I) s → s.DropSafe := by
  refine ⟨Platform.reference, fun hAll => ?_⟩
  let _ := Platform.reference
  obtain ⟨hOk, hRoom⟩ := small_build_over_empty
  obtain ⟨segs, hM, hCommit, hTiles⟩ := Commit.of_build hOk hRoom
  set J := builtIndex _ (some emptyIndex) segs hM with hJ
  have hGen : J.manifest.generation ≠ emptyIndex.manifest.generation := by
    show (0 + 1 + 1 : UInt64) ≠ 0 + 1
    decide
  -- Refresh 0 opens the empty index, refresh 1 the one with a file.
  let s₁ := (opened emptyIndex).setCall 0 (some (.opened emptyIndex))
  let s₂ : LiveState := { s₁ with hist := J :: s₁.hist }
  let s₃ := s₂.setCall 1 (some (.opened J))
  let s₄ := s₃.setCall 1 (some (.read J 0))
  let s₅ : LiveState := { s₄.setCall 1 (some (.marked J 0)) with
    heap := Function.update s₄.heap 0 (some ((wrap emptyIndex).mark J)) }
  let s₆ : LiveState := { s₅.setCall 1 none with
    heap := Function.update s₅.heap 1 (some (wrap J)), cur := 1, next := 2 }
  -- Refresh 0 goes on with the snapshot of refresh 1.
  let s₇ := s₆.setCall 0 (some (.read emptyIndex 1))
  let s₈ : LiveState := { s₇.setCall 0 (some (.marked emptyIndex 1)) with
    heap := Function.update s₇.heap 1 (some ((wrap J).mark emptyIndex)) }
  let s₉ : LiveState := { s₈.setCall 0 none with
    heap := Function.update s₈.heap 2 (some (wrap emptyIndex)), cur := 2, next := 3 }
  have hOld : s₄.heap 0 = some (wrap emptyIndex) := rfl
  have hNew : s₇.heap 1 = some (wrap J) := rfl
  have hRun : Run (opened emptyIndex) s₉ := by
    refine .tail (.tail (.tail (.tail (.tail (.tail (.tail (.tail (.single
      (.openDisk (s := opened emptyIndex) 0 rfl rfl : Step _ s₁)) (.commit hCommit : Step _ s₂))
      (.openDisk 1 rfl rfl : Step _ s₃)) (.read 1 rfl : Step _ s₄))
      (.mark 1 rfl hOld hGen : Step _ s₅))
      (.swap 1 rfl : Step _ s₆)) (.read 0 rfl : Step _ s₇))
      (.mark 0 rfl hNew (Ne.symm hGen) : Step _ s₈))
      (.swap 0 rfl : Step _ s₉)
  obtain ⟨t, ht⟩ := List.exists_mem_of_ne_nil segs (hTiles.segs_ne_nil (by simp))
  have hUnref : s₉.Unreferenced 1 := by
    refine ⟨?_, by rintro u ⟨⟩, fun c r hr => ?_⟩
    · show 1 ≠ 2
      decide
    by_cases h0 : c = 0
    · subst h0
      cases hr
    · by_cases h1 : c = 1
      · subst h1
        cases hr
      · simp [s₉, s₈, s₇, s₆, s₅, s₄, s₃, s₂, s₁, setCall, opened, h0, h1] at hr
  refine hAll _ _ hRun 1 ((wrap J).mark emptyIndex) rfl hUnref (.idx t.entry.segmentId) ?_ J rfl
    (Index.mem_referencedFiles.mpr (.inl ⟨t, ht, mem_segmentFiles.mpr (.inl rfl)⟩))
  refine List.mem_flatMap.mpr ⟨⟨t, true⟩, List.mem_filter.mpr ⟨?_, rfl⟩,
    mem_segmentFiles.mpr (.inl rfl)⟩
  refine List.mem_map.mpr ⟨⟨t, false⟩, List.mem_map.mpr ⟨t, ht, rfl⟩, ?_⟩
  simp [emptyIndex, builtIndex, builtManifest]

end LiveState

end Ripindex
