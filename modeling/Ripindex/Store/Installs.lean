import Ripindex.Store.Backed

/-!
# The effect of a plan

A plan that succeeds has written files under their temporary names and moved them into
place. `Plan.Installs p fs` says that this is all it did, for the files `fs`; `after`
gives the directory it leaves.

## Results

* `lookup_after_installs` — an installed file has its contents;
* `lookup_after_installs_of_not_mem` — every other file is as before.
-/

namespace Ripindex

-- ---------------------------------------------------------------------------
-- Directories
-- ---------------------------------------------------------------------------

namespace Dir

theorem lookup_insert (d : Dir) (n m : FileName) (f : FileData) :
    (d.insert n f : Dir).lookup m = if m = n then some f else d.lookup m := by
  split
  · rename_i h
    rw [h, AList.lookup_insert]
  · rename_i h
    rw [AList.lookup_insert_ne h]

theorem lookup_erase (d : Dir) (n m : FileName) :
    (AList.erase n d).lookup m = if m = n then none else d.lookup m := by
  split
  · rename_i h
    rw [h, AList.lookup_erase]
  · rename_i h
    rw [AList.lookup_erase_ne h]

theorem mem_iff_lookup {d : Dir} {n : FileName} : n ∈ d ↔ ∃ f, d.lookup n = some f := by
  rw [← AList.lookup_isSome, Option.isSome_iff_exists]

theorem lookup_overwrite (d : Dir) (n m : FileName) (f : FileData) :
    (d.overwrite n f).lookup m =
      if m = n then (d.lookup n).map fun _ => f else d.lookup m := by
  unfold overwrite
  split
  · rename_i h
    obtain ⟨g, hg⟩ := mem_iff_lookup.mp h
    rw [lookup_insert, hg]
    rfl
  · rename_i h
    have hNone : d.lookup n = none := AList.lookup_eq_none.mpr h
    split
    · rename_i hm
      rw [hm, hNone]
      rfl
    · rfl

theorem lookup_rename {d : Dir} {a b : FileName} {f : FileData} (h : d.lookup a = some f)
    (m : FileName) :
    (d.rename a b).lookup m =
      if m = b then some f else if m = a then none else d.lookup m := by
  unfold rename
  rw [h]
  simp only [lookup_insert, lookup_erase]

/-- A rename changes only the two names. -/
theorem lookup_rename_of_ne {d : Dir} {a b m : FileName} (ha : m ≠ a) (hb : m ≠ b) :
    (d.rename a b).lookup m = d.lookup m := by
  unfold rename
  cases d.lookup a with
  | none => rfl
  | some f => simp only [lookup_insert, lookup_erase, ha, hb, if_false]

end Dir

-- ---------------------------------------------------------------------------
-- Steps
-- ---------------------------------------------------------------------------

/-- The names an operation changes. -/
def FileStep.touches : FileStep → List FileName
  | .create n | .write n _ => [n]
  | .sync _ => []
  | .rename a b => [a, b]

/-- The directory after the operations. -/
def after (d : Dir) (steps : List FileStep) : Dir :=
  steps.foldl FileStep.apply d

@[simp] theorem after_nil (d : Dir) : after d [] = d := rfl

theorem after_append (d : Dir) (xs ys : List FileStep) :
    after d (xs ++ ys) = after (after d xs) ys :=
  List.foldl_append

/-- The operation finds the file it moves. -/
def FileStep.Ready (d : Dir) : FileStep → Prop
  | .rename a _ => a ∈ d
  | .create _ | .write _ _ | .sync _ => True

/-- Every operation finds the file it moves. -/
def Runnable (d : Dir) : List FileStep → Prop
  | [] => True
  | step :: steps => step.Ready d ∧ Runnable (step.apply d) steps

theorem runnable_append {d : Dir} {xs ys : List FileStep} :
    Runnable d (xs ++ ys) ↔ Runnable d xs ∧ Runnable (after d xs) ys := by
  induction xs generalizing d with
  | nil => simp [Runnable]
  | cons x xs ih => simp [Runnable, ih, after, and_assoc]

theorem FileStep.lookup_apply {d : Dir} {step : FileStep} {m : FileName}
    (h : m ∉ step.touches) : (step.apply d).lookup m = d.lookup m := by
  cases step with
  | create n => simp_all [FileStep.apply, touches]
  | write n f => simp_all [FileStep.apply, touches, Dir.lookup_overwrite]
  | sync n => rfl
  | rename a b =>
    simp only [touches, List.mem_cons, List.not_mem_nil, or_false, not_or] at h
    exact Dir.lookup_rename_of_ne h.1 h.2

/-- Operations change only the names they touch. -/
theorem lookup_after {steps : List FileStep} {d : Dir} {m : FileName}
    (h : ∀ step ∈ steps, m ∉ step.touches) : (after d steps).lookup m = d.lookup m := by
  induction steps generalizing d with
  | nil => rfl
  | cons step steps ih =>
    obtain ⟨hStep, hSteps⟩ := List.forall_mem_cons.mp h
    exact (ih hSteps).trans (FileStep.lookup_apply hStep)

-- ---------------------------------------------------------------------------
-- Installed files
-- ---------------------------------------------------------------------------

/-- Names of committed data files. -/
def FileName.isData : FileName → Bool
  | idx _ | doc _ | del _ _ | overlay _ => true
  | manifest | tmp _ | staged _ _ => false

/-- Write files under their temporary names and move them into place, one by one. -/
def installs (fs : List (FileName × FileData)) : List FileStep :=
  fs.flatMap fun f => (Plan.writeFinal f.1 f.2).steps

@[simp] theorem installs_nil : installs [] = [] := rfl

theorem installs_append (fs gs : List (FileName × FileData)) :
    installs (fs ++ gs) = installs fs ++ installs gs :=
  List.flatMap_append

theorem installs_cons (f : FileName × FileData) (fs : List (FileName × FileData)) :
    installs (f :: fs) = (Plan.writeFinal f.1 f.2).steps ++ installs fs := rfl

/-- One file written and moved into place. -/
theorem lookup_after_writeFinal (d : Dir) (n m : FileName) (f : FileData) :
    (after d (Plan.writeFinal n f).steps).lookup m =
      if m = n then some f else if m = .tmp n then none else d.lookup m := by
  simp only [Plan.writeFinal_steps, after, List.foldl_cons, List.foldl_nil, FileStep.apply]
  have hTmp : (Dir.overwrite (AList.insert n.tmp FileData.torn d) n.tmp f).lookup n.tmp =
      some f := by
    rw [Dir.lookup_overwrite]
    simp
  rw [Dir.lookup_rename hTmp]
  by_cases h : m = n
  · simp [h]
  · by_cases hm : m = n.tmp
    · simp [hm]
    · simp [h, hm, Dir.lookup_overwrite]

/-- Files that were just written can be moved. -/
theorem runnable_writeFinal (d : Dir) (n : FileName) (f : FileData) :
    Runnable d (Plan.writeFinal n f).steps := by
  simp only [Plan.writeFinal_steps, Runnable, FileStep.Ready, FileStep.apply, true_and,
    and_true]
  rw [Dir.mem_iff_lookup]
  exact ⟨f, by simp [Dir.lookup_overwrite]⟩

theorem runnable_installs (d : Dir) (fs : List (FileName × FileData)) :
    Runnable d (installs fs) := by
  induction fs generalizing d with
  | nil => trivial
  | cons f fs ih =>
    rw [installs_cons, runnable_append]
    exact ⟨runnable_writeFinal d f.1 f.2, ih _⟩

/-- A file that is neither installed nor the temporary name of an installed one is as
before. -/
theorem lookup_after_installs_of_not_mem {fs : List (FileName × FileData)} {d : Dir}
    {m : FileName} (h : ∀ f ∈ fs, m ≠ f.1 ∧ m ≠ .tmp f.1) :
    (after d (installs fs)).lookup m = d.lookup m := by
  induction fs generalizing d with
  | nil => rfl
  | cons f fs ih =>
    obtain ⟨⟨hName, hTmp⟩, hRest⟩ := List.forall_mem_cons.mp h
    rw [installs_cons, after_append, ih hRest, lookup_after_writeFinal, if_neg hName,
      if_neg hTmp]

theorem FileName.ne_tmp_of_isData {n m : FileName} (h : n.isData) : n ≠ .tmp m := by
  rintro rfl
  simp [isData] at h

/-- An installed file has its contents, if the names are distinct. -/
theorem lookup_after_installs {fs : List (FileName × FileData)} {d : Dir}
    (hData : ∀ f ∈ fs, f.1.isData) (hNodup : (fs.map Prod.fst).Nodup)
    {n : FileName} {f : FileData} (h : (n, f) ∈ fs) :
    (after d (installs fs)).lookup n = some f := by
  induction fs generalizing d with
  | nil => cases h
  | cons g fs ih =>
    obtain ⟨hNot, hNodup'⟩ := List.nodup_cons.mp hNodup
    obtain ⟨hHead, hData'⟩ := List.forall_mem_cons.mp hData
    rw [installs_cons, after_append]
    rcases List.mem_cons.mp h with rfl | h
    · rw [lookup_after_installs_of_not_mem, lookup_after_writeFinal, if_pos rfl]
      intro x hx
      refine ⟨?_, FileName.ne_tmp_of_isData hHead⟩
      intro hEq
      exact hNot (List.mem_map.mpr ⟨x, hx, hEq.symm⟩)
    · exact ih hData' hNodup' h

-- ---------------------------------------------------------------------------
-- Plans
-- ---------------------------------------------------------------------------

namespace Plan

variable {α β : Type}

/-- Every operation of the plan is a `P`. -/
def All (P : FileStep → Prop) (p : Plan α) : Prop :=
  ∀ step ∈ p.steps, P step

section All

variable {P : FileStep → Prop}

theorem all_pure (a : α) : (pure a : Plan α).All P := by simp [All]

theorem all_fail (e : Error) : (fail e : Plan α).All P := by simp [All, fail]

theorem all_ofFormat (r : Except FormatError α) : (ofFormat r).All P := by simp [All]

theorem all_emit {steps : List FileStep} (h : ∀ step ∈ steps, P step) : (emit steps).All P :=
  h

/-- Both parts of a sequence, the second for the value of the first. -/
theorem All.bind {p : Plan α} {f : α → Plan β} (hp : p.All P)
    (hf : ∀ a, p.result = .ok a → (f a).All P) : (p >>= f).All P := by
  unfold All
  rcases h : p.result with e | a
  · rwa [bind_steps_error h]
  · rw [bind_steps h]
    intro step hStep
    rcases List.mem_append.mp hStep with hStep | hStep
    · exact hp step hStep
    · exact hf a h step hStep

theorem All.mono {Q : FileStep → Prop} {p : Plan α} (h : p.All P)
    (hPQ : ∀ step, P step → Q step) : p.All Q :=
  fun step hStep => hPQ step (h step hStep)

end All

/-- The plan's operations install the files `fs`. -/
def Installs (p : Plan α) (fs : List (FileName × FileData)) : Prop :=
  p.steps = installs fs

theorem installs_pure (a : α) : (pure a : Plan α).Installs [] := rfl

theorem installs_writeFinal (n : FileName) (f : FileData) :
    (writeFinal n f).Installs [(n, f)] := by
  simp [Installs, installs]

theorem Installs.bind {p : Plan α} {f : α → Plan β} {a : α}
    {fs gs : List (FileName × FileData)} (hp : p.Installs fs) (ha : p.result = .ok a)
    (hf : (f a).Installs gs) : (p >>= f).Installs (fs ++ gs) := by
  unfold Installs at *
  rw [bind_steps ha, installs_append, hp, hf]

theorem Installs.ofFormat_bind {r : Except FormatError α} {f : α → Plan β} {a : α}
    {fs : List (FileName × FileData)} (ha : r = .ok a) (hf : (f a).Installs fs) :
    (ofFormat r >>= f).Installs fs := by
  have hRes := ofFormat_result_ok.mpr ha
  unfold Installs at *
  rw [bind_steps hRes, ofFormat_steps, List.nil_append, hf]

end Plan

end Ripindex
