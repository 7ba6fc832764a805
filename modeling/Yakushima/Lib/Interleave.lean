import Mathlib.Logic.Function.Basic
import Yakushima.Lib.Prog

/-! # Interleavings

Threads that make calls on one shared state. A thread is between two calls or inside one, and then it
has a program left; a step of the system is one operation of one thread, or the beginning or the end of
a call. -/

namespace Lib

/-- A thread: the calls that returned and their answers, the last one first, and the call that it is in
    with the rest of its program. -/
structure Thread (Op : Type → Type 1) (C A : Type) : Type 1 where
  done : List (C × A)
  active : Option (C × Prog Op A)

structure Config (Op : Type → Type 1) (σ τ C A : Type) : Type 1 where
  state : σ
  thread : τ → Thread Op C A

/-- What the operations do, and which calls a thread may begin after the ones it has made. -/
structure System (Op : Type → Type 1) (σ τ C A : Type) : Type 2 where
  performs : {δ : Type} → Op δ → σ → δ → σ → Prop
  invokes : τ → List (C × A) → C → Prog Op A → Prop

variable {Op : Type → Type 1} {σ τ C A : Type}

/-- No thread has made a call. -/
def Config.start (Op : Type → Type 1) (τ C A : Type) (s : σ) : Config Op σ τ C A := ⟨s, fun _ => ⟨[], none⟩⟩

namespace System
variable [DecidableEq τ] (S : System Op σ τ C A)

/-- A step of the thread `t`. -/
inductive Step (t : τ) (c : Config Op σ τ C A) : Config Op σ τ C A → Prop where
  | invoke {x : C} {p : Prog Op A} (idle : (c.thread t).active = none) (allowed : S.invokes t (c.thread t).done x p) :
      Step t c ⟨c.state, Function.update c.thread t ⟨(c.thread t).done, some (x, p)⟩⟩
  | op {δ : Type} {x : C} {o : Op δ} {k : δ → Prog Op A} {y : δ} {s : σ}
      (active : (c.thread t).active = some (x, .step o k))
      (performs : S.performs o c.state y s) :
      Step t c ⟨s, Function.update c.thread t ⟨(c.thread t).done, some (x, k y)⟩⟩
  | ret {x : C} {a : A} (active : (c.thread t).active = some (x, .ret a)) :
      Step t c ⟨c.state, Function.update c.thread t ⟨(x, a) :: (c.thread t).done, none⟩⟩

/-- A run of `n` steps. -/
structure Trace (init : Config Op σ τ C A) (n : Nat) : Type 1 where
  conf : Nat → Config Op σ τ C A
  start : conf 0 = init
  step : ∀ i < n, ∃ t, S.Step t (conf i) (conf (i + 1))

variable {S} {t u : τ} {c c' init : Config Op σ τ C A} {n : Nat}

theorem Step.other (h : S.Step t c c') (hu : u ≠ t) : c'.thread u = c.thread u := by
  cases h <;> exact Function.update_of_ne hu _ _

/-- What holds at first and is kept by every step of the run holds all along. -/
theorem Trace.invariant {P : Config Op σ τ C A → Prop} (T : S.Trace init n) (h0 : P init)
    (hstep : ∀ i < n, ∀ t, S.Step t (T.conf i) (T.conf (i + 1)) → P (T.conf i) → P (T.conf (i + 1))) :
    ∀ i ≤ n, P (T.conf i)
  | 0, _ => by
    rw [T.start]
    exact h0
  | i + 1, hi => by
    obtain ⟨t, ht⟩ := T.step i hi
    exact hstep i hi t ht (T.invariant h0 hstep i (Nat.le_of_succ_le hi))

end System

/-! ## Calls with one effective step -/

section Linearizes
variable (performs : {δ : Type} → Op δ → σ → δ → σ → Prop) (φ : σ → A → σ → Prop)

/-- The program leaves the state as it is until a last step, which relates the states before and after
    it and the answer by `φ`. -/
def Linearizes : Prog Op A → Prop
  | .ret _ => False
  | .step o k => ∀ s y s', performs o s y s' → (s' = s ∧ Linearizes (k y)) ∨ ∃ a, k y = .ret a ∧ φ s a s'
  | .halt => True

variable {performs} {φ} {B : Type}

/-- The answer of a program with one effective step is passed on. -/
theorem Linearizes.map {f : A → B} {ψ : σ → B → σ → Prop} (hf : ∀ s a s', φ s a s' → ψ s (f a) s') :
    ∀ {p : Prog Op A}, Linearizes performs φ p → Linearizes performs ψ (p >>= fun a => pure (f a))
  | .ret _, h => absurd h id
  | .step o k, h => by
    intro s y s' hp
    rcases h s y s' hp with ⟨hs, hk⟩ | ⟨a, hk, hφ⟩
    · exact Or.inl ⟨hs, hk.map hf⟩
    · refine Or.inr ⟨f a, ?_, hf s a s' hφ⟩
      show (k y >>= fun a => pure (f a)) = _
      rw [hk]
      rfl
  | .halt, _ => trivial

end Linearizes
end Lib
