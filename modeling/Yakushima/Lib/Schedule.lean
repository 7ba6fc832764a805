import Yakushima.Lib.Outline

/-! # Schedules

A run of a system that is computed from its schedule: which thread begins which call, and which thread goes on. -/

namespace Lib
variable {Op : Type → Type 1} {σ τ C A : Type} [DecidableEq τ] {S : System Op σ τ C A}

inductive Move (τ C : Type) where
  | invoke (t : τ) (x : C)
  | go (t : τ)

/-- One of the things that each operation may do, and one of the programs of each call. -/
structure Driver (S : System Op σ τ C A) where
  exec : {δ : Type} → Op δ → σ → Option (δ × σ)
  call : τ → List (C × A) → C → Option (Prog Op A)
  performs : ∀ {δ : Type} (o : Op δ) s y s', exec o s = some (y, s') → S.performs o s y s'
  invokes : ∀ t done x p, call t done x = some p → S.invokes t done x p

namespace Driver
variable (D : Driver S)

def move (c : Config Op σ τ C A) : Move τ C → Option (Config Op σ τ C A)
  | .invoke t x => match (c.thread t).active with
    | none => (D.call t (c.thread t).done x).map
      fun p => ⟨c.state, Function.update c.thread t ⟨(c.thread t).done, some (x, p)⟩⟩
    | some _ => none
  | .go t => match (c.thread t).active with
    | some (x, .step o k) => (D.exec o c.state).map
      fun r => ⟨r.2, Function.update c.thread t ⟨(c.thread t).done, some (x, k r.1)⟩⟩
    | some (x, .ret a) => some ⟨c.state, Function.update c.thread t ⟨(x, a) :: (c.thread t).done, none⟩⟩
    | _ => none

def follow : List (Move τ C) → Config Op σ τ C A → Option (Config Op σ τ C A)
  | [], c => some c
  | m :: moves, c => (D.move c m).bind (follow moves)

variable {D} {c c' : Config Op σ τ C A} {m : Move τ C} {t : τ}

theorem follow_append (l l' : List (Move τ C)) (c : Config Op σ τ C A) :
    D.follow (l ++ l') c = (D.follow l c).bind (D.follow l') := by
  induction l generalizing c with
  | nil => rfl
  | cons m l ih =>
    show (D.move c m).bind (D.follow (l ++ l')) = ((D.move c m).bind (D.follow l)).bind (D.follow l')
    rw [Option.bind_assoc]
    exact congrArg _ (funext ih)

theorem step_of_move (h : D.move c m = some c') : ∃ t, S.Step t c c' := by
  cases m with
  | invoke t x =>
    simp only [move] at h
    split at h
    · rename_i hidle
      obtain ⟨p, hp, rfl⟩ := Option.map_eq_some_iff.mp h
      exact ⟨t, .invoke hidle (D.invokes _ _ _ _ hp)⟩
    · cases h
  | go t =>
    simp only [move] at h
    split at h
    · rename_i x δ o k hactive
      obtain ⟨⟨y, s⟩, hr, rfl⟩ := Option.map_eq_some_iff.mp h
      exact ⟨t, .op hactive (D.performs _ _ _ _ hr)⟩
    · rename_i x a hactive
      cases h
      exact ⟨t, .ret hactive⟩
    · cases h

theorem follow_take {moves : List (Move τ C)} (h : (D.follow moves c).isSome) (i : Nat) :
    (D.follow (moves.take i) c).isSome := by
  rw [← List.take_append_drop i moves, follow_append] at h
  cases hc : D.follow (moves.take i) c with
  | none => simp [hc] at h
  | some c' => rfl

theorem follow_take_succ {moves : List (Move τ C)} (h : (D.follow moves c).isSome) {i : Nat} (hm : moves[i]? = some m) :
    D.move ((D.follow (moves.take i) c).getD c) m = some ((D.follow (moves.take (i + 1)) c).getD c) := by
  obtain ⟨c', hc'⟩ := Option.isSome_iff_exists.mp (follow_take h (i + 1))
  have hsucc : D.follow (moves.take (i + 1)) c = (D.follow (moves.take i) c).bind (D.follow [m]) := by
    rw [List.take_add_one, hm, follow_append]
    rfl
  obtain ⟨c₁, hc₁⟩ := Option.isSome_iff_exists.mp (follow_take h i)
  rw [hc', hc₁] at hsucc ⊢
  show D.move c₁ m = some c'
  rw [Option.bind_some] at hsucc
  obtain ⟨c₂, hc₂, hc₃⟩ := Option.bind_eq_some_iff.mp hsucc.symm
  rw [hc₂]
  exact hc₃

/-- The run of a schedule that goes through. -/
def trace (D : Driver S) (moves : List (Move τ C)) (c : Config Op σ τ C A) (h : (D.follow moves c).isSome) :
    S.Trace c moves.length where
  conf := fun i => (D.follow (moves.take i) c).getD c
  start := rfl
  step := fun _ hi => step_of_move (follow_take_succ h (List.getElem?_eq_getElem hi))

end Driver

/-- What is to be seen of the operation that the thread performs next. -/
def Thread.next {ρ : Type} (f : {δ : Type} → Op δ → Option ρ) (th : Thread Op C A) : Option ρ := match th.active with
  | some (_, .step o _) => f o
  | _ => none

/-- The call of the thread that is about to return, and its answer. -/
def Thread.answer (th : Thread Op C A) : Option (C × A) := match th.active with
  | some (x, .ret a) => some (x, a)
  | _ => none

/-- The call that the thread is in. -/
def Thread.call (th : Thread Op C A) : Option C := th.active.map Prod.fst

theorem Thread.exists_of_next {ρ : Type} {f : {δ : Type} → Op δ → Option ρ} {th : Thread Op C A} {r : ρ}
    (h : th.next f = some r) :
    ∃ (δ : Type) (o : Op δ) (x : C) (k : δ → Prog Op A), th.active = some (x, .step o k) ∧ f o = some r := by
  unfold Thread.next at h
  split at h
  · rename_i x δ o k hactive
    exact ⟨δ, o, x, k, hactive, h⟩
  · cases h

theorem Thread.active_of_answer {th : Thread Op C A} {x : C} {a : A} (h : th.answer = some (x, a)) :
    th.active = some (x, .ret a) := by
  unfold Thread.answer at h
  split at h
  · rename_i x' a' hactive
    cases h
    exact hactive
  · cases h

namespace Driver
variable {D : Driver S} {moves : List (Move τ C)} {c : Config Op σ τ C A} {h : (D.follow moves c).isSome} {i : Nat} {t : τ}

theorem acts {δ : Type} {o : Op δ} {x : C} {k : δ → Prog Op A} (hm : moves[i]? = some (.go t))
    (hactive : (((D.trace moves c h).conf i).thread t).active = some (x, .step o k)) :
    ∃ y, S.Acts t o y ((D.trace moves c h).conf i) ((D.trace moves c h).conf (i + 1)) := by
  have hmove : D.move ((D.trace moves c h).conf i) (.go t) = some ((D.trace moves c h).conf (i + 1)) :=
    follow_take_succ h hm
  simp only [move, hactive] at hmove
  obtain ⟨⟨y, s⟩, hr, hc⟩ := Option.map_eq_some_iff.mp hmove
  rw [← hc]
  exact ⟨y, D.performs _ _ _ _ hr, x, k, hactive, rfl⟩

theorem returns {x : C} {a : A} (hm : moves[i]? = some (.go t))
    (ha : (((D.trace moves c h).conf i).thread t).answer = some (x, a)) :
    ((D.trace moves c h).conf i).Returns t x a ((D.trace moves c h).conf (i + 1)) := by
  have hactive := Thread.active_of_answer ha
  have hmove : D.move ((D.trace moves c h).conf i) (.go t) = some ((D.trace moves c h).conf (i + 1)) :=
    follow_take_succ h hm
  simp only [move, hactive, Option.some.injEq] at hmove
  rw [← hmove]
  exact ⟨rfl, hactive, rfl⟩

end Driver
end Lib
