import Ripindex.Lib.Guarantee

/-!
# What holds at the end of every task

A program that keeps to its contract can be run to its end from wherever it is. So a property
of the state that holds when tasks end, and that goes back from the state after an operation to
the state before, holds in between as well, however the processes take turns and stop.

## Results

* `Prog.wp_back`   — such a property holds wherever a program is;
* `Pool.Run.keeps` — it holds in every state of a run.
-/

namespace Prog

variable {Op : Type} {Res : Op → Type} {α σ : Type} {C : Contract Op Res σ} {Inv P : σ → Prop}

/-- From any state the program can go on to its end, and the property comes back from there. -/
theorem wp_back (hRefl : ∀ s, Inv s → C.rely s s)
    (hBack : ∀ o s, Inv s → C.allows o s → ∃ r s', C.step o s r s' ∧ Inv s' ∧ (P s' → P s))
    {p : Prog Op Res α} {Q : α → σ → Prop} (hQ : ∀ a s, Q a s → P s) {s : σ} (hInv : Inv s)
    (h : p.wp C Q s) : P s := by
  induction p generalizing s with
  | ret a => exact hQ a s h
  | call o k ih =>
    obtain ⟨hAllow, hRest⟩ := h s (hRefl s hInv)
    obtain ⟨r, s', hStep, hInv', hP⟩ := hBack o s hInv hAllow
    exact hP (ih r hInv' (hRest r s' hStep))

end Prog

namespace Pool

variable {Op : Type} {Res : Op → Type} {σ ι W : Type} [DecidableEq ι] {P : Pool Op Res σ ι W}
  {rely : ι → σ → σ → Prop} {allows : ι → Op → σ → Prop} {pre : ι → σ → Prop}
  {Inv G F : σ → Prop}

omit [DecidableEq ι] in
/-- One more invariant. -/
theorem Fits.also (hFits : P.Fits rely allows pre Inv)
    (hOp : ∀ i w o s r s', Inv s → allows i o s → P.step i w o s r s' → G s → G s')
    (hEnter : ∀ i s, G s → G (P.enter i s)) (hStop : ∀ i s, G s → G (P.stop i s)) :
    P.Fits rely allows pre fun s => Inv s ∧ G s where
  refl := fun i s hInv => hFits.refl i s hInv.1
  trans := hFits.trans
  pre_stable := hFits.pre_stable
  task := fun i w s hInv => hFits.task i w s hInv.1
  op := fun i w o s r s' hInv hAllow hStep =>
    have h := hFits.op i w o s r s' hInv.1 hAllow hStep
    ⟨⟨h.1, hOp i w o s r s' hInv.1 hAllow hStep hInv.2⟩, h.2⟩
  enter := fun i s hInv =>
    have h := hFits.enter i s hInv.1
    ⟨⟨h.1, hEnter i s hInv.2⟩, h.2⟩
  stop := fun i s hInv =>
    have h := hFits.stop i s hInv.1
    ⟨⟨h.1, hStop i s hInv.2⟩, h.2⟩
  stop_pre := fun i s hInv => hFits.stop_pre i s hInv.1

/-- What a process relies on when the others keep `F` as well. -/
def Keeping (rely : ι → σ → σ → Prop) (F : σ → Prop) (i : ι) (s s' : σ) : Prop :=
  rely i s s' ∧ (F s → F s')

/-- Process `i` keeps to its contract, and its task ends in `F`. -/
def KeepsAt (P : Pool Op Res σ ι W) (rely : ι → σ → σ → Prop) (allows : ι → Op → σ → Prop)
    (pre : ι → σ → Prop) (F : σ → Prop) (c : P.Conf) (i : ι) : Prop :=
  match c.procs i with
  | none => pre i c.state
  | some (w, p) =>
    p.wp ⟨P.step i w, Keeping rely F i, allows i⟩ (fun _ s => pre i s ∧ F s) c.state

omit [DecidableEq ι] in
theorem KeepsAt.other (hFits : P.Fits rely allows pre Inv) {c c' : P.Conf} {i : ι}
    (h : KeepsAt P rely allows pre F c i) (hSame : c'.procs i = c.procs i)
    (hRely : Keeping rely F i c.state c'.state) : KeepsAt P rely allows pre F c' i := by
  unfold KeepsAt at h ⊢
  rw [hSame]
  rcases hProc : c.procs i with _ | ⟨w, p⟩
  · rw [hProc] at h
    exact hFits.pre_stable i _ _ hRely.1 h
  · rw [hProc] at h
    refine Prog.wp_of_rely (fun s s' s'' h h' => ?_) (fun _ s s' hR hPre => ?_) h hRely
    · exact ⟨hFits.trans i s s' s'' h.1 h'.1, fun hF => h'.2 (h.2 hF)⟩
    · exact ⟨hFits.pre_stable i s s' hR.1 hPre.1, hR.2 hPre.2⟩

/-- What holds whenever a task ends, and goes back over operations, holds in every run. -/
theorem Run.keeps (hFits : P.Fits rely allows pre Inv)
    (hBack : ∀ i w o s, Inv s → allows i o s → ∃ r s', P.step i w o s r s' ∧ (F s' → F s))
    (hEnter : ∀ i s, F s → F (P.enter i s)) (hStop : ∀ i s, F s → F (P.stop i s))
    (hTask : ∀ i w s, Inv s → pre i s → F s →
      (P.prog i w).wp ⟨P.step i w, Keeping rely F i, allows i⟩ (fun _ s => pre i s ∧ F s)
        (P.enter i s))
    {s : σ} (hInv : Inv s) (hF : F s) (hPre : ∀ i, pre i s) {c : P.Conf}
    (hRun : P.Run (P.Idle s) c) :
    Inv c.state ∧ F c.state ∧ ∀ i, KeepsAt P rely allows pre F c i := by
  induction hRun with
  | refl => exact ⟨hInv, hF, hPre⟩
  | @tail c c' _ hStep ih =>
    obtain ⟨hInv, hF, hAt⟩ := ih
    -- The process whose turn it is.
    have hTurn : ∃ i, (∀ j, j ≠ i → c'.procs j = c.procs j) ∧ Inv c'.state ∧ F c'.state ∧
        (∀ j, i ≠ j → rely j c.state c'.state) ∧ KeepsAt P rely allows pre F c' i := by
      unfold KeepsAt at hAt ⊢
      cases hStep with
      | start i w hIdle =>
        have h := hAt i
        rw [hIdle] at h
        obtain ⟨hInv', hOthers⟩ := hFits.enter i c.state hInv
        refine ⟨i, fun j hj => Function.update_of_ne hj _ _, hInv', hEnter i _ hF, hOthers, ?_⟩
        simpa using hTask i w _ hInv h hF
      | @op i w o k r s hProc hOp =>
        have h := hAt i
        rw [hProc] at h
        obtain ⟨hAllow, hRest⟩ := h c.state ⟨hFits.refl i _ hInv, id⟩
        obtain ⟨hInv', hOthers⟩ := hFits.op i w o _ _ _ hInv hAllow hOp
        -- The rest of the program can end.
        have hStepBack : ∀ o s, Inv s → allows i o s →
            ∃ r s', P.step i w o s r s' ∧ Inv s' ∧ (F s' → F s) := by
          intro o s hs hAllow
          obtain ⟨r, s', hStep, hF⟩ := hBack i w o s hs hAllow
          exact ⟨r, s', hStep, (hFits.op i w o s r s' hs hAllow hStep).1, hF⟩
        have hF' : F s := Prog.wp_back (C := ⟨P.step i w, Keeping rely F i, allows i⟩)
          (fun s hs => ⟨hFits.refl i s hs, id⟩) hStepBack (fun _ _ hQ => hQ.2) hInv'
            (hRest _ _ hOp)
        refine ⟨i, fun j hj => Function.update_of_ne hj _ _, hInv', hF', hOthers, ?_⟩
        simpa using hRest _ _ hOp
      | @finish i w hProc =>
        have h := hAt i
        rw [hProc] at h
        exact ⟨i, fun j hj => Function.update_of_ne hj _ _, hInv, hF,
          fun j _ => hFits.refl j _ hInv, by simpa using h.1⟩
      | @stop i w p hProc =>
        obtain ⟨hInv', hOthers⟩ := hFits.stop i c.state hInv
        exact ⟨i, fun j hj => Function.update_of_ne hj _ _, hInv', hStop i _ hF, hOthers,
          by simpa using hFits.stop_pre i _ hInv⟩
    obtain ⟨i, hSame, hInv', hF', hRely, hTurn⟩ := hTurn
    refine ⟨hInv', hF', fun j => ?_⟩
    by_cases hji : j = i
    · exact hji ▸ hTurn
    · exact (hAt j).other hFits (hSame j hji) ⟨hRely j (Ne.symm hji), fun _ => hF'⟩

end Pool
