import Mathlib.Logic.Basic

/-! # Programs over atomic operations

A program is a tree of atomic operations. Its sequential meaning runs the tree to its end on one
state; its concurrent meaning (`Lib/Interleave.lean`) lets several programs take turns, one operation
at a time. A program that cannot go on (a loop out of fuel, an access that faults) halts. -/

namespace Lib

/-- A program that returns an `α`: it has returned, it performs one operation and goes on with its
    answer, or it cannot go on. -/
inductive Prog (Op : Type → Type 1) (α : Type) : Type 1 where
  | ret (a : α)
  | step {β : Type} (op : Op β) (k : β → Prog Op α)
  | halt

namespace Prog
variable {Op : Type → Type 1} {α β γ : Type}

def bind : Prog Op α → (α → Prog Op β) → Prog Op β
  | ret a, f => f a
  | step op k, f => step op fun x => bind (k x) f
  | halt, _ => halt

instance : Monad (Prog Op) where
  pure := ret
  bind := bind

@[simp] theorem ret_bind (a : α) (f : α → Prog Op β) : (ret a >>= f) = f a := rfl

@[simp] theorem pure_eq (a : α) : (pure a : Prog Op α) = ret a := rfl

@[simp] theorem step_bind {δ : Type} (op : Op δ) (k : δ → Prog Op α) (f : α → Prog Op β) :
    (step op k >>= f) = step op fun x => k x >>= f := rfl

@[simp] theorem halt_bind (f : α → Prog Op β) : (halt >>= f) = halt := rfl

@[simp] theorem bind_assoc (p : Prog Op α) (f : α → Prog Op β) (g : β → Prog Op γ) :
    (p >>= f >>= g) = p >>= fun a => f a >>= g := by
  induction p with
  | ret a => rfl
  | step op k ih => exact congrArg (step op) (funext fun x => ih x)
  | halt => rfl

/-- A program is not the rest of itself. -/
theorem rest_ne {δ : Type} (op : Op δ) (k : δ → Prog Op α) (y : δ) : k y ≠ step op k := by
  suffices h : ∀ (p : Prog Op α) {δ : Type} (op : Op δ) (k : δ → Prog Op α) (y : δ), p = step op k → k y ≠ p from
    h _ op k y rfl
  intro p
  induction p with
  | ret a => nofun
  | halt => nofun
  | step op' k' ih =>
    rintro δ op k y ⟨⟩ hy
    exact ih y op' k' y hy rfl

section Run
variable {σ : Type} (exec : {δ : Type} → Op δ → σ → Option (δ × σ))

/-- The sequential meaning: the result and the final state, or nothing if the program faults or halts. -/
def run : Prog Op α → σ → Option (α × σ)
  | ret a, s => some (a, s)
  | step op k, s => match exec op s with
    | some (x, s') => run (k x) s'
    | none => none
  | halt, _ => none

variable {exec} {s s' : σ}

theorem run_bind (p : Prog Op α) (f : α → Prog Op β) (s : σ) :
    run exec (p >>= f) s = (run exec p s).bind fun r => run exec (f r.1) r.2 := by
  induction p generalizing s with
  | ret a => rfl
  | step op k ih =>
    simp only [step_bind, run]
    cases exec op s with
    | none => rfl
    | some r => exact ih r.1 r.2
  | halt => rfl

/-- The first part of a program runs, and the second goes on from there. -/
theorem run_bind_of {p : Prog Op α} {a : α} (h : run exec p s = some (a, s')) (f : α → Prog Op β) :
    run exec (p >>= f) s = run exec (f a) s' := by
  rw [run_bind, h]
  rfl

end Run
end Prog
end Lib
