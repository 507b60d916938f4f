import Ripindex.Store.Sequential

/-!
# What is read

Opening reads files by name, one after the other; which ones, the manifest says.

## Results

* `opens_loadIndex`, `opens_readIndex` — loading reads the files that the manifest references;
* `Dir.SameIndex.openIndex_eq` — what opening gives depends on them and the manifest alone.
-/

namespace Ripindex

variable {α β : Type}

-- ---------------------------------------------------------------------------
-- Programs that open files
-- ---------------------------------------------------------------------------

namespace ReadM

/-- The program opens the files `ns` one after the other, or stops before with an error. A read
that fails as in `X` makes it stop, with a vanished file if the file is not there. Only answers
in `A` count. -/
def Opens (X : IoError → Prop) (A : FileName → Except IoError FileData → Prop) :
    List FileName → ReadM (Except Error α) → Prop
  | ns, .ret (.ok _) => ns = []
  | _, .ret (.error _) => True
  | ns, .call o k => ∃ rest, ns = o.name :: rest ∧
      (∀ e, X e → ∃ e', k (.error e) = .ret (.error e') ∧
        ∀ n, e' = .vanished n ↔ e = .notFound ∧ n = o.name) ∧
          ∀ r, A o.name r → Opens X A rest (k r)

variable {X : IoError → Prop} {A : FileName → Except IoError FileData → Prop}
  {ns ms : List FileName}

/-- What follows on a program that opens files. -/
theorem Opens.bind {q : ReadM (Except Error α)} (hq : q.Opens X A ns)
    {g : Except Error α → ReadM (Except Error β)} (hOk : ∀ a, (g (.ok a)).Opens X A ms)
    (hErr : ∀ e, g (.error e) = .ret (.error e)) : (q >>= g).Opens X A (ns ++ ms) := by
  induction q generalizing ns with
  | ret r =>
    cases r with
    | ok a =>
      obtain rfl : ns = [] := hq
      exact hOk a
    | error e =>
      rw [Prog.ret_bind, hErr]
      trivial
  | call o k ih =>
    obtain ⟨rest, rfl, hFault, hNext⟩ := hq
    refine ⟨rest ++ ms, rfl, fun e he => ?_, fun r hr => ih r (hNext r hr)⟩
    obtain ⟨e', hStop, hVan⟩ := hFault e he
    refine ⟨e', ?_, hVan⟩
    show (k (.error e) >>= g) = _
    rw [hStop]
    exact hErr e'

/-- On directories that agree on these files the program gives the same. -/
theorem Opens.onDir_congr {q : ReadM (Except Error α)} {d d' : Dir}
    (hq : q.Opens X (fun _ _ => True) ns) (h : ∀ n ∈ ns, d'.lookup n = d.lookup n) :
    q.onDir d' = q.onDir d := by
  induction q generalizing ns with
  | ret r => rfl
  | call o k ih =>
    obtain ⟨rest, rfl, -, hNext⟩ := hq
    obtain ⟨hHead, hRest⟩ := List.forall_mem_cons.mp h
    have hRead : d'.readFile o.name = d.readFile o.name := by
      unfold Dir.readFile
      rw [hHead]
    show ReadM.onDir (k (d'.readFile o.name)) d' = ReadM.onDir (k (d.readFile o.name)) d
    rw [hRead]
    exact ih _ (hNext _ trivial) hRest

/-- Every operation of the program is one on these files. -/
theorem Opens.only {q : ReadM (Except Error α)} (hq : q.Opens X (fun _ _ => True) ns)
    {P : FileName → Prop} (hNs : ∀ n ∈ ns, P n) : q.Only fun o => P o.name := by
  induction q generalizing ns with
  | ret r => trivial
  | call o k ih =>
    obtain ⟨rest, rfl, -, hNext⟩ := hq
    obtain ⟨hHead, hRest⟩ := List.forall_mem_cons.mp hNs
    exact ⟨hHead, fun r => ih r (hNext r trivial) hRest⟩

theorem Opens.mono {B : FileName → Except IoError FileData → Prop}
    {q : ReadM (Except Error α)} (hq : q.Opens X A ns) (hB : ∀ n r, B n r → A n r) :
    q.Opens X B ns := by
  induction q generalizing ns with
  | ret r => cases r <;> exact hq
  | call o k ih =>
    obtain ⟨rest, rfl, hFault, hNext⟩ := hq
    exact ⟨rest, rfl, hFault, fun r hr => ih r (hNext r (hB _ _ hr))⟩

end ReadM

namespace ReadE

/-- `ReadM.Opens` whatever the answers are. -/
def Opens (X : IoError → Prop) (ns : List FileName) (p : ReadE α) : Prop :=
  p.run.Opens X (fun _ _ => True) ns

variable {X : IoError → Prop} {ns ms : List FileName}

theorem opens_pure (a : α) : Opens X [] (pure a : ReadE α) := rfl

theorem Opens.bind {p : ReadE α} {f : α → ReadE β} (hp : p.Opens X ns)
    (hf : ∀ a, (f a).Opens X ms) : (p >>= f).Opens X (ns ++ ms) := by
  unfold Opens
  rw [ExceptT.run_bind]
  exact ReadM.Opens.bind hp hf fun _ => rfl

/-- What follows opens no file. -/
theorem Opens.bind_nil {p : ReadE α} {f : α → ReadE β} (hp : p.Opens X ns)
    (hf : ∀ a, (f a).Opens X []) : (p >>= f).Opens X ns := by
  have h := hp.bind hf
  rwa [List.append_nil] at h

variable [Platform]

theorem opens_openChecked {op : FileName → ReadOp} {n : FileName} (hOp : (op n).name = n)
    (len : Nat) (crc : UInt32) (parse : FileData → Except FormatError α) :
    (openChecked op n len crc parse).Opens X [n] := by
  refine ⟨[], by rw [hOp], fun e _ => ⟨openErr n e, rfl, fun m => ?_⟩, ?_⟩
  · rw [hOp]
    cases e <;> simp [openErr, eq_comm]
  · rintro (e | f) -
    · trivial
    change ReadM.Opens _ _ [] (if f.len ≠ len then _ else _)
    split
    · trivial
    · split
      · trivial
      · split
        · trivial
        · rfl

theorem opens_openEntry (e : SegmentEntry) : (Segment.openEntry e).Opens X (segmentFiles e) := by
  have hIdx : (Segment.openIdx e).Opens X [.idx e.segmentId] := by
    refine (opens_openChecked rfl _ _ _).bind_nil ?_
    intro f
    split
    · trivial
    · rfl
  have hDoc : (Segment.openDocs e).Opens X [.doc e.segmentId] := by
    refine (opens_openChecked rfl _ _ _).bind_nil ?_
    intro view
    split
    · rfl
    · trivial
  have hDel : (Segment.openDel e).Opens X
      (if 0 < e.delGen then [.del e.segmentId e.delGen] else []) := by
    unfold Segment.openDel
    split
    · refine (opens_openChecked rfl _ _ _).bind_nil ?_
      intro b
      split
      · split
        · rfl
        · trivial
      · trivial
    · rfl
  exact hIdx.bind fun _ => hDoc.bind fun _ => hDel.bind_nil fun _ => opens_pure _

theorem opens_openSegments (es : List SegmentEntry) :
    (openSegments es).Opens X (es.flatMap segmentFiles) := by
  induction es with
  | nil => exact opens_pure _
  | cons e es ih =>
    exact (opens_openEntry e).bind fun _ => ih.bind_nil fun _ => opens_pure _

omit [Platform] in
theorem opens_readManifest : readManifest.Opens (· ≠ .notFound) [.manifest] := by
  refine ⟨[], rfl, fun e he => ⟨.io e, ?_, ?_⟩, ?_⟩
  · cases e <;> first | rfl | exact absurd rfl he
  · exact fun n => iff_of_false (by rintro ⟨⟩) fun h => he h.1
  · rintro (e | f) -
    · cases e <;> trivial
    · show ReadM.Opens _ _ [] (Prog.ret (acceptManifest f))
      rcases acceptManifest f with e | m
      · trivial
      · rfl

/-- Loading opens the files that the manifest references, each once. -/
theorem opens_loadIndex (m : { m : Manifest // m.Ok }) :
    (loadIndex m).Opens X (referencedFiles m.1) := by
  refine (opens_openSegments _).bind fun _ => Opens.bind_nil ?_ fun _ => opens_pure _
  unfold openOverlay
  split
  · exact opens_openChecked rfl _ _ _
  · exact opens_pure _

end ReadE

/-- Answers that a directory gives. -/
def Dir.Answers (d : Dir) (n : FileName) (r : Except IoError FileData) : Prop := r = d.readFile n

namespace ReadM

/-- A sequence of reading programs. -/
theorem toFsM_bind (q : ReadM α) (f : α → ReadM β) :
    (q >>= f).toFsM = (q.toFsM >>= fun a => (f a).toFsM) := by
  induction q with
  | ret a => rfl
  | call o k ih =>
    show (o.issue >>= fun r => toFsM (k r >>= f)) = (o.issue >>= fun r => toFsM (k r)) >>= _
    rw [bind_assoc]
    exact congrArg _ (funext ih)

end ReadM

theorem FsE.ofRead_bind (p : ReadE α) (f : α → ReadE β) :
    FsE.ofRead (p >>= f) = FsE.ofRead p >>= fun a => FsE.ofRead (f a) := by
  refine ExceptT.ext ?_
  show (p >>= f).run.toFsM = _
  rw [ExceptT.run_bind, ExceptT.run_bind, ReadM.toFsM_bind]
  refine congrArg _ (funext fun r => ?_)
  cases r <;> rfl

theorem FsE.ofRead_map (f : α → β) (p : ReadE α) :
    FsE.ofRead (f <$> p) = f <$> FsE.ofRead p := by
  rw [map_eq_pure_bind, map_eq_pure_bind, FsE.ofRead_bind]
  rfl

-- ---------------------------------------------------------------------------
-- Opening
-- ---------------------------------------------------------------------------

variable [Platform]

/-- What opening reads in a directory. -/
theorem opens_readIndex (d : Dir) :
    ∃ ns, readIndex.run.Opens (· ≠ .notFound) d.Answers ns ∧
      ∀ I, d.openIndex = .ok (some I) → ns = .manifest :: referencedFiles I.manifest := by
  refine ⟨.manifest :: (readManifest.eval d).toOption.join.elim [] fun m =>
    referencedFiles m.1, ⟨_, rfl, fun e he => ⟨.io e, ?_, ?_⟩, ?_⟩, ?_⟩
  · cases e <;> first | rfl | exact absurd rfl he
  · exact fun n => iff_of_false (by rintro ⟨⟩) fun h => he h.1
  · rintro r rfl
    rw [eval_readManifest]
    unfold Dir.readFile
    simp only [ReadOp.name]
    cases d.lookup .manifest with
    | none => rfl
    | some f =>
      show ReadM.Opens _ _ ((acceptManifest f).toOption.join.elim [] fun m => referencedFiles m.1)
        (ExceptT.bindCont _ (acceptManifest f))
      rcases acceptManifest f with e | _ | m
      · trivial
      · rfl
      · refine ReadM.Opens.mono (A := fun _ _ => True) ?_ fun _ _ _ => trivial
        exact (ReadE.opens_loadIndex m).bind_nil fun _ => ReadE.opens_pure _
  · intro I hI
    have hManifest := (openIndex_ok_iff.mp hI).manifest
    rw [eval_readManifest_some (m := ⟨I.manifest, I.manifest_ok⟩) |>.mpr hManifest]
    rfl

/-- What opening gives depends on the manifest and the files it names. -/
theorem Dir.SameIndex.openIndex_eq {d d' : Dir} (h : d.SameIndex d') :
    d'.openIndex = d.openIndex := by
  rw [openIndex_eq_of_same h, openIndex_eq_of_same (.refl d)]
  rcases hRead : readManifest.eval d with e | _ | m
  · rfl
  · rfl
  · have hAgree := h.2 m.1 (eval_readManifest_some.mp hRead)
    have hOpens : (loadIndex m >>= fun I => pure (some I)).Opens (fun _ => True) _ :=
      (ReadE.opens_loadIndex m).bind_nil fun _ => ReadE.opens_pure _
    exact hOpens.onDir_congr hAgree

end Ripindex
