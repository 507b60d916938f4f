import Mathlib.Control.Lawful
import Mathlib.Logic.Relation

/-!
# Programs over a signature of operations

`Prog Op Res α` is a finite program that issues operations `o : Op`, looks at
their results in `Res o` and ends with a value of type `α`: the free monad over
the signature. A program is plain data, so the same program can be run to the
end, cut after any number of operations, or interleaved with other programs.

* `Prog.eval`  — the run of a program against a deterministic machine;
* `Prog.evalN` — the same run cut after a number of operations;
* `Prog.advance` — what is left of the program then;
* `Prog.answer` — the value of a program whose operations have fixed answers;
* `Prog.lift`  — the same program over a larger signature;
* `Prog.Only`  — the operations a program may issue.
-/

/-- A program: done with a value, or one operation and what to do with its result. -/
inductive Prog (Op : Type) (Res : Op → Type) (α : Type) : Type
  | ret (a : α) : Prog Op Res α
  | call (op : Op) (k : Res op → Prog Op Res α) : Prog Op Res α

namespace Prog

variable {Op : Type} {Res : Op → Type} {α β γ σ : Type}

/-- Continue `p` with `f` on its value. -/
protected def bind : Prog Op Res α → (α → Prog Op Res β) → Prog Op Res β
  | ret a, f => f a
  | call op k, f => call op fun r => (k r).bind f

instance : Monad (Prog Op Res) where
  pure := ret
  bind := Prog.bind

/-- The program that issues one operation and returns its result. -/
def op (o : Op) : Prog Op Res (Res o) :=
  call o ret

@[simp] theorem pure_eq (a : α) : (pure a : Prog Op Res α) = ret a := rfl

@[simp] theorem ret_bind (a : α) (f : α → Prog Op Res β) : (ret a >>= f) = f a := rfl

@[simp] theorem call_bind (o : Op) (k : Res o → Prog Op Res α) (f : α → Prog Op Res β) :
    (call o k >>= f) = call o fun r => k r >>= f := rfl

@[simp] theorem op_bind (o : Op) (f : Res o → Prog Op Res β) : (op o >>= f) = call o f := rfl

theorem bind_ret (p : Prog Op Res α) : (p >>= ret) = p := by
  induction p with
  | ret a => rfl
  | call o k ih => simp only [call_bind, ih]

theorem bind_bind (p : Prog Op Res α) (f : α → Prog Op Res β) (g : β → Prog Op Res γ) :
    ((p >>= f) >>= g) = (p >>= fun a => f a >>= g) := by
  induction p with
  | ret a => rfl
  | call o k ih => simp only [call_bind, ih]

instance : LawfulMonad (Prog Op Res) :=
  LawfulMonad.mk' _ bind_ret (fun _ _ => rfl) bind_bind

-- ---------------------------------------------------------------------------
-- Runs against a deterministic machine
-- ---------------------------------------------------------------------------

/-- Run a program to its end on the machine `step`. -/
def eval (step : (o : Op) → σ → Res o × σ) : Prog Op Res α → σ → α × σ
  | ret a, s => (a, s)
  | call o k, s => eval step (k (step o s).1) (step o s).2

/-- Run at most `n` operations of a program: the value if the program ended, and
the state reached. -/
def evalN (step : (o : Op) → σ → Res o × σ) : Nat → Prog Op Res α → σ → Option α × σ
  | _, ret a, s => (some a, s)
  | 0, call _ _, s => (none, s)
  | n + 1, call o k, s => evalN step n (k (step o s).1) (step o s).2

/-- What is left of a program after `n` operations, and the state reached. -/
def advance (step : (o : Op) → σ → Res o × σ) : Nat → Prog Op Res α → σ → Prog Op Res α × σ
  | _, ret a, s => (ret a, s)
  | 0, call o k, s => (call o k, s)
  | n + 1, call o k, s => advance step n (k (step o s).1) (step o s).2

/-- The value of a program that has ended. -/
def value : Prog Op Res α → Option α
  | ret a => some a
  | call _ _ => none

theorem eq_ret_of_value {p : Prog Op Res α} {a : α} (h : p.value = some a) : p = ret a := by
  cases p with
  | ret b => exact congrArg ret (Option.some.inj h)
  | call o k => cases h

section Eval

variable (step : (o : Op) → σ → Res o × σ)

@[simp] theorem eval_ret (a : α) (s : σ) : (ret a : Prog Op Res α).eval step s = (a, s) := rfl

@[simp] theorem eval_call (o : Op) (k : Res o → Prog Op Res α) (s : σ) :
    (call o k).eval step s = (k (step o s).1).eval step (step o s).2 := rfl

@[simp] theorem eval_op (o : Op) (s : σ) : (op o : Prog Op Res _).eval step s = step o s := rfl

/-- Running a sequence is running its parts one after the other. -/
theorem eval_bind (p : Prog Op Res α) (f : α → Prog Op Res β) (s : σ) :
    (p >>= f).eval step s = (f (p.eval step s).1).eval step (p.eval step s).2 := by
  induction p generalizing s with
  | ret a => rfl
  | call o k ih => simp only [call_bind, eval_call, ih]

/-- Enough operations run a program to its end. -/
theorem exists_evalN_eq (p : Prog Op Res α) (s : σ) :
    ∃ n, (p.evalN step n s).2 = (p.eval step s).2 := by
  induction p generalizing s with
  | ret a => exact ⟨0, rfl⟩
  | call o k ih =>
    obtain ⟨n, hn⟩ := ih (step o s).1 (step o s).2
    exact ⟨n + 1, hn⟩

/-- One more operation is one more step of the machine, unless the program has ended. -/
theorem evalN_succ (n : Nat) (p : Prog Op Res α) (s : σ) :
    (p.evalN step (n + 1) s).2 = (p.evalN step n s).2 ∨
      ∃ o, (p.evalN step (n + 1) s).2 = (step o (p.evalN step n s).2).2 := by
  induction n generalizing p s with
  | zero =>
    cases p with
    | ret a => exact .inl rfl
    | call o k =>
      refine .inr ⟨o, ?_⟩
      change ((k (step o s).1).evalN step 0 (step o s).2).2 = (step o s).2
      cases k (step o s).1 <;> rfl
  | succ n ih =>
    cases p with
    | ret a => exact .inl rfl
    | call o k => exact ih (k (step o s).1) (step o s).2

end Eval

-- ---------------------------------------------------------------------------
-- Fixed answers
-- ---------------------------------------------------------------------------

/-- The value of a program when every operation `o` has the answer `h o`. -/
def answer (h : (o : Op) → Res o) : Prog Op Res α → α
  | ret a => a
  | call o k => (k (h o)).answer h

@[simp] theorem answer_ret (h : (o : Op) → Res o) (a : α) :
    (ret a : Prog Op Res α).answer h = a := rfl

@[simp] theorem answer_call (h : (o : Op) → Res o) (o : Op) (k : Res o → Prog Op Res α) :
    (call o k).answer h = (k (h o)).answer h := rfl

@[simp] theorem answer_op (h : (o : Op) → Res o) (o : Op) :
    (op o : Prog Op Res _).answer h = h o := rfl

theorem answer_bind (h : (o : Op) → Res o) (p : Prog Op Res α) (f : α → Prog Op Res β) :
    (p >>= f).answer h = (f (p.answer h)).answer h := by
  induction p with
  | ret a => rfl
  | call o k ih => simp only [call_bind, answer_call, ih]

-- ---------------------------------------------------------------------------
-- Lifting to a larger signature
-- ---------------------------------------------------------------------------

/-- The same program over the signature `Op'`, each operation issued by a program of
the larger signature. -/
def lift {Op' : Type} {Res' : Op' → Type} (h : (o : Op) → Prog Op' Res' (Res o)) :
    Prog Op Res α → Prog Op' Res' α
  | ret a => ret a
  | call o k => h o >>= fun r => (k r).lift h

-- ---------------------------------------------------------------------------
-- The operations of a program
-- ---------------------------------------------------------------------------

/-- Whatever the results, the program issues only operations in `P`. -/
def Only (P : Op → Prop) : Prog Op Res α → Prop
  | ret _ => True
  | call o k => P o ∧ ∀ r, (k r).Only P

theorem Only.bind {P : Op → Prop} {p : Prog Op Res α} {f : α → Prog Op Res β} (hp : p.Only P)
    (hf : ∀ a, (f a).Only P) : (p >>= f).Only P := by
  induction p with
  | ret a => exact hf a
  | call o k ih => exact ⟨hp.1, fun r => ih r (hp.2 r)⟩

end Prog
