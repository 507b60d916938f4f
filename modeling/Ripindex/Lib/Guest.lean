import Ripindex.Lib.Guarantee

/-!
# A guest among the processes of a pool

A program with a result runs as process `g` among the processes of a pool, while `g` itself
performs no task of the pool. If the contracts of the pool fit together and the program keeps to
that of `g`, its result is as its postcondition says.

## Results

* `Pool.GuestRun.sound` — the postcondition of a guest that has ended;
* `Pool.GuestRun.advance`, `Pool.GuestRun.task` — runs in which one process acts at a time.
-/

namespace Pool

variable {Op : Type} {Res : Op → Type} {σ ι W α : Type}

/-- The pool, and what is left of the program of the guest. -/
structure Guest (P : Pool Op Res σ ι W) (α : Type) where
  conf : P.Conf
  prog : Prog Op Res α

variable (P : Pool Op Res σ ι W) [DecidableEq ι]

/-- A step of another process, or one of the guest `g`, which acts as in the task `w`. -/
inductive GuestStep (g : ι) (w : W) : P.Guest α → P.Guest α → Prop
  | other {c c' : P.Conf} {p : Prog Op Res α} (hStep : P.Step c c') (hIdle : c'.procs g = none) :
      GuestStep g w ⟨c, p⟩ ⟨c', p⟩
  | op {c : P.Conf} {o : Op} {k : Res o → Prog Op Res α} {r : Res o} {s : σ}
      (hStep : P.step g w o c.state r s) : GuestStep g w ⟨c, .call o k⟩ ⟨⟨s, c.procs⟩, k r⟩

abbrev GuestRun (g : ι) (w : W) : P.Guest α → P.Guest α → Prop :=
  Relation.ReflTransGen (P.GuestStep g w)

variable {P} {rely : ι → σ → σ → Prop} {allows : ι → Op → σ → Prop} {pre : ι → σ → Prop}
  {Inv : σ → Prop}

/-- The guest and the other processes keep to their contracts from here on. -/
structure GuestSound (rely : ι → σ → σ → Prop) (allows : ι → Op → σ → Prop)
    (pre : ι → σ → Prop) (Inv : σ → Prop) (g : ι) (w : W) (Q : α → σ → Prop) (x : P.Guest α) :
    Prop where
  inv : Inv x.conf.state
  idle : x.conf.procs g = none
  others : ∀ j, j ≠ g → SoundAt P rely allows pre x.conf j
  guest : x.prog.wp ⟨P.step g w, rely g, allows g⟩ Q x.conf.state

variable {g : ι} {w : W} {Q : α → σ → Prop}

theorem GuestSound.step (hFits : P.Fits rely allows pre Inv)
    (hQ : ∀ a s s', rely g s s' → Q a s → Q a s') {x y : P.Guest α}
    (h : GuestSound rely allows pre Inv g w Q x) (hStep : P.GuestStep g w x y) :
    GuestSound rely allows pre Inv g w Q y := by
  cases hStep with
  | @other c c' p hStep hIdle =>
    obtain ⟨i, hStarts, hSame, hSound⟩ := hStep.soundAt hFits h.inv
    have hNe : i ≠ g := by
      rintro rfl
      exact hStarts h.idle hIdle
    obtain ⟨hInv, hRely, hAt⟩ := hSound (h.others i hNe)
    refine ⟨hInv, hIdle, fun j hj => ?_, Prog.wp_of_rely (hFits.trans g) hQ h.guest (hRely g hNe)⟩
    by_cases hji : j = i
    · exact hji ▸ hAt
    · exact (h.others j hj).other hFits (hSame j hji) (hRely j (Ne.symm hji))
  | @op c o k r s hOp =>
    obtain ⟨hAllow, hRest⟩ := h.guest c.state (hFits.refl g _ h.inv)
    obtain ⟨hInv, hRely⟩ := hFits.op g w o _ _ _ h.inv hAllow hOp
    refine ⟨hInv, h.idle, fun j hj => ?_, hRest _ _ hOp⟩
    exact (h.others j hj).other hFits rfl (hRely j (Ne.symm hj))

/-- A guest that starts among processes that keep to their contracts ends as it should. -/
theorem GuestRun.sound (hFits : P.Fits rely allows pre Inv)
    (hQ : ∀ a s s', rely g s s' → Q a s → Q a s') {x : P.Guest α}
    (h : GuestSound rely allows pre Inv g w Q x) {c : P.Conf} {a : α}
    (hRun : P.GuestRun g w x ⟨c, .ret a⟩) : Q a c.state := by
  have hAll : ∀ y, P.GuestRun g w x y → GuestSound rely allows pre Inv g w Q y := by
    intro y hRun
    induction hRun with
    | refl => exact h
    | tail _ hStep ih => exact ih.step hFits hQ hStep
  exact (hAll _ hRun).guest

-- ---------------------------------------------------------------------------
-- One process at a time
-- ---------------------------------------------------------------------------

/-- The guest runs for `n` operations on a deterministic machine, from states in which the pool
admits them. -/
theorem GuestRun.advance (step : (o : Op) → σ → Res o × σ) {A : σ → Prop}
    (hStep : ∀ o s, A s → P.step g w o s (step o s).1 (step o s).2) {p : Prog Op Res α}
    {c : P.Conf} (n : Nat) (hA : ∀ k < n, A (p.advance step k c.state).2) :
    P.GuestRun g w ⟨c, p⟩
      ⟨⟨(p.advance step n c.state).2, c.procs⟩, (p.advance step n c.state).1⟩ := by
  induction n generalizing p c with
  | zero => cases p <;> exact .refl
  | succ n ih =>
    cases p with
    | ret a => exact .refl
    | call o k =>
      refine .head (.op (hStep o c.state (hA 0 (Nat.succ_pos n)))) ?_
      exact @ih (k (step o c.state).1) ⟨(step o c.state).2, c.procs⟩ fun k hk =>
        hA (k + 1) (Nat.succ_lt_succ hk)

/-- Another process performs a whole task. -/
theorem GuestRun.task {i : ι} (hi : i ≠ g) {w' : W} (step : (o : Op) → σ → Res o × σ)
    (hStep : ∀ o s, P.step i w' o s (step o s).1 (step o s).2) (s : σ) (p : Prog Op Res α) :
    P.GuestRun g w ⟨P.Idle s, p⟩
      ⟨P.Idle ((P.prog i w').eval step (P.enter i s)).2, p⟩ := by
  have hIdle : ∀ x : Option (W × Prog Op Res Unit),
      Function.update (P.Idle s).procs i x g = none := fun x =>
    Function.update_of_ne (Ne.symm hi) _ _
  have hNone : Function.update (P.Idle s).procs i none = (P.Idle s).procs :=
    Function.update_eq_self i _
  have hRest : ∀ (q : Prog Op Res Unit) (t : σ), P.GuestRun g w
      ⟨⟨t, Function.update (P.Idle s).procs i (some (w', q))⟩, p⟩
      ⟨P.Idle (q.eval step t).2, p⟩ := by
    intro q
    induction q with
    | ret a =>
      intro t
      have hEnd := Step.finish (P := P) (c := ⟨t, Function.update (P.Idle s).procs i
        (some (w', .ret a))⟩) i (Function.update_self _ _ _)
      rw [Function.update_idem, hNone] at hEnd
      exact .single (.other hEnd rfl)
    | call o k ih =>
      intro t
      have hOp := Step.op (P := P) (c := ⟨t, Function.update (P.Idle s).procs i
        (some (w', .call o k))⟩) i (Function.update_self _ _ _) (hStep o t)
      rw [Function.update_idem] at hOp
      exact .head (.other hOp (hIdle _)) (ih _ _)
  exact .head (.other (.start i w' rfl) (hIdle _)) (hRest _ _)

end Pool
