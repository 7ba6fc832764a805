import Yakushima.Lib.Interleave

/-! # Outlines

An outline of a system names the places that a thread goes through in its calls. If every program that may be
invoked follows the outline, then a run of the system is a run through places: invariants are stated about the
state and the places of all threads, and no longer mention programs. -/

namespace Lib
variable {Op : Type → Type 1} {σ τ C A : Type} [DecidableEq τ]

/-- The thread `t` performs `o` with the answer `y` on the way from `c` to `c'`. -/
structure System.Acts (S : System Op σ τ C A) {δ : Type} (t : τ) (o : Op δ) (y : δ) (c c' : Config Op σ τ C A) : Prop where
  performs : S.performs o c.state y c'.state
  threads : ∃ x k, (c.thread t).active = some (x, .step o k) ∧
    c'.thread = Function.update c.thread t ⟨(c.thread t).done, some (x, k y)⟩

/-- The thread `t` begins the call `x`. -/
structure System.Begins (S : System Op σ τ C A) (t : τ) (x : C) (c c' : Config Op σ τ C A) : Prop where
  state : c'.state = c.state
  idle : (c.thread t).active = none
  threads : ∃ p, S.invokes t (c.thread t).done x p ∧ c'.thread = Function.update c.thread t ⟨(c.thread t).done, some (x, p)⟩

/-- The call `x` of the thread `t` returns `a`. -/
structure Config.Returns (t : τ) (x : C) (a : A) (c c' : Config Op σ τ C A) : Prop where
  state : c'.state = c.state
  active : (c.thread t).active = some (x, .ret a)
  threads : c'.thread = Function.update c.thread t ⟨(x, a) :: (c.thread t).done, none⟩

/-- Places of the threads: the first ones, those between calls, and how they change. -/
structure Outline (Op : Type → Type 1) (τ C A : Type) (γ : τ → Type) where
  place : ∀ t, γ t
  rests : ∀ t, List (C × A) → γ t → Prop
  begins : ∀ t, C → γ t → γ t → Prop
  moves : ∀ t {δ : Type}, Op δ → δ → γ t → γ t → Prop

namespace Outline
variable {γ : τ → Type} {B B' : Type} (O : Outline Op τ C A γ) (S : System Op σ τ C A)

/-- The program goes from the place `g` through the places of the outline and returns at one with `post`. -/
def Follows (t : τ) (post : B → γ t → Prop) : Prog Op B → γ t → Prop
  | .ret a, g => post a g
  | .step o k, g => ∀ s y s', S.performs o s y s' → ∃ g', O.moves t o y g g' ∧ Follows t post (k y) g'
  | .halt, _ => True

/-- Every program that may be invoked follows the outline. -/
structure Valid : Prop where
  start : ∀ t, O.rests t [] (O.place t)
  call : ∀ t done x p g, O.rests t done g → S.invokes t done x p →
    ∃ g', O.begins t x g g' ∧ O.Follows S t (fun a => O.rests t ((x, a) :: done)) p g'

/-- The place fits to what the thread does. -/
def At (t : τ) (th : Thread Op C A) (g : γ t) : Prop := match th.active with
  | none => O.rests t th.done g
  | some (x, p) => O.Follows S t (fun a => O.rests t ((x, a) :: th.done)) p g

/-- A step of the thread `t` with the places before and after it. -/
inductive Step (t : τ) (c : Config Op σ τ C A) (G : ∀ t, γ t) (c' : Config Op σ τ C A) (G' : ∀ t, γ t) : Prop where
  | begins (x : C) (h : S.Begins t x c c') (hg : O.begins t x (G t) (G' t)) (others : ∀ u, u ≠ t → G' u = G u)
  | acts {δ : Type} (o : Op δ) (y : δ) (h : S.Acts t o y c c') (hg : O.moves t o y (G t) (G' t))
    (others : ∀ u, u ≠ t → G' u = G u)
  | returns (x : C) (a : A) (h : c.Returns t x a c') (hg : O.rests t ((x, a) :: (c.thread t).done) (G t)) (same : G' = G)

variable {S} in
/-- The places along a run. -/
structure Run {init : Config Op σ τ C A} {n : Nat} (T : S.Trace init n) where
  places : Nat → ∀ t, γ t
  start : places 0 = O.place
  fits : ∀ i ≤ n, ∀ t, O.At S t ((T.conf i).thread t) (places i t)
  step : ∀ i < n, ∃ t, O.Step S t (T.conf i) (places i) (T.conf (i + 1)) (places (i + 1))

variable {O S} {t : τ} {c c' : Config Op σ τ C A} {G : ∀ t, γ t} {g : γ t}

/-! ### Programs that follow an outline -/

omit [DecidableEq τ] in
theorem Follows.mono {post post' : B → γ t → Prop} (hpost : ∀ b g, post b g → post' b g) :
    ∀ {p : Prog Op B} {g : γ t}, O.Follows S t post p g → O.Follows S t post' p g
  | .ret b, g, h => hpost b g h
  | .step o k, g, h => by
    intro s y s' hp
    obtain ⟨g', hm, hk⟩ := h s y s' hp
    exact ⟨g', hm, hk.mono hpost⟩
  | .halt, _, _ => trivial

omit [DecidableEq τ] in
theorem Follows.bind {mid : B → γ t → Prop} {post : B' → γ t → Prop} {f : B → Prog Op B'}
    (hf : ∀ b g, mid b g → O.Follows S t post (f b) g) :
    ∀ {p : Prog Op B} {g : γ t}, O.Follows S t mid p g → O.Follows S t post (p >>= f) g
  | .ret b, g, h => hf b g h
  | .step o k, g, h => by
    intro s y s' hp
    obtain ⟨g', hm, hk⟩ := h s y s' hp
    exact ⟨g', hm, hk.bind hf⟩
  | .halt, _, _ => trivial

/-! ### Runs -/

theorem Step.thread_other {G' : ∀ t, γ t} {u : τ} (h : O.Step S t c G c' G') (hu : u ≠ t) : c'.thread u = c.thread u := by
  cases h with
  | begins x h _ _ =>
    obtain ⟨p, -, hp⟩ := h.threads
    rw [hp, Function.update_of_ne hu]
  | acts o y h _ _ =>
    obtain ⟨x, k, -, hk⟩ := h.threads
    rw [hk, Function.update_of_ne hu]
  | returns x a h _ _ => rw [h.threads, Function.update_of_ne hu]

theorem Step.place_other {G' : ∀ t, γ t} {u : τ} (h : O.Step S t c G c' G') (hu : u ≠ t) : G' u = G u := by
  cases h with
  | begins _ _ _ others => exact others u hu
  | acts _ _ _ _ others => exact others u hu
  | returns _ _ _ _ same => rw [same]

/-- The thread that takes a step is not what it was. -/
theorem Step.thread_ne {G' : ∀ t, γ t} (h : O.Step S t c G c' G') : c'.thread t ≠ c.thread t := by
  intro hsame
  cases h with
  | begins x h _ _ =>
    obtain ⟨p, -, hp⟩ := h.threads
    have hidle := h.idle
    rw [← hsame, hp, Function.update_self] at hidle
    cases hidle
  | acts o y h _ _ =>
    obtain ⟨x, k, hactive, hk⟩ := h.threads
    rw [hk, Function.update_self] at hsame
    have hrest := (congrArg Thread.active hsame).trans hactive
    exact Prog.rest_ne o k y (Prod.ext_iff.mp (Option.some.inj hrest)).2
  | returns x a h _ _ =>
    have hactive := h.active
    rw [← hsame, h.threads, Function.update_self] at hactive
    cases hactive

/-- An operation that is performed in a step is the move of the step. -/
theorem Step.moves {δ : Type} {u : τ} {o : Op δ} {y : δ} {G' : ∀ t, γ t} (h : O.Step S t c G c' G')
    (ha : S.Acts u o y c c') :
    t = u ∧ ∃ y', O.moves u o y' (G u) (G' u) := by
  obtain ⟨x, k, hactive, hk⟩ := ha.threads
  have htu : t = u := by
    by_contra hne
    exact h.thread_ne (by rw [hk, Function.update_of_ne hne])
  subst htu
  refine ⟨rfl, ?_⟩
  cases h with
  | begins x' h _ _ =>
    rw [h.idle] at hactive
    cases hactive
  | @acts δ' o' y' h hg _ =>
    obtain ⟨x', k', hactive', -⟩ := h.threads
    cases hactive.symm.trans hactive'
    exact ⟨y', hg⟩
  | returns x' a h _ _ =>
    rw [h.active] at hactive
    cases hactive

/-- A step of the system is one of the outline. -/
theorem Valid.step (hO : O.Valid S) (hG : ∀ u, O.At S u (c.thread u) (G u)) (h : S.Step t c c') :
    ∃ G', O.Step S t c G c' G' ∧ ∀ u, O.At S u (c'.thread u) (G' u) := by
  have hat := hG t
  -- The places of the others stay, and so do their threads.
  have hothers : ∀ {g' : γ t}, O.At S t (c'.thread t) g' → ∀ u, O.At S u (c'.thread u) (Function.update G t g' u) := by
    intro g' hg' u
    by_cases hu : u = t
    · subst hu
      rwa [Function.update_self]
    · rw [Function.update_of_ne hu, h.other hu]
      exact hG u
  cases h with
  | @invoke x p idle allowed =>
    rw [At, idle] at hat
    obtain ⟨g', hb, hf⟩ := hO.call t _ x p _ hat allowed
    refine ⟨Function.update G t g', .begins x ⟨rfl, idle, p, allowed, rfl⟩ (by rwa [Function.update_self])
      fun u hu => Function.update_of_ne hu _ _, hothers ?_⟩
    simpa only [At, Function.update_self] using hf
  | @op δ x o k y s active performs =>
    rw [At, active] at hat
    obtain ⟨g', hm, hf⟩ := hat _ _ _ performs
    refine ⟨Function.update G t g', .acts o y ⟨performs, x, k, active, rfl⟩ (by rwa [Function.update_self])
      fun u hu => Function.update_of_ne hu _ _,
      hothers ?_⟩
    simpa only [At, Function.update_self] using hf
  | @ret x a active =>
    rw [At, active] at hat
    refine ⟨G, .returns x a ⟨rfl, active, rfl⟩ hat rfl, ?_⟩
    have hrest : O.At S t (Function.update c.thread t ⟨(x, a) :: (c.thread t).done, none⟩ t) (G t) := by
      rw [At, Function.update_self]
      exact hat
    have hall := hothers hrest
    rwa [Function.update_eq_self] at hall

/-- A run of the system is one of the outline. -/
theorem Valid.exists_run (hO : O.Valid S) {s₀ : σ} {n : Nat} (T : S.Trace (.start Op τ C A s₀) n) : Nonempty (O.Run T) := by
  have h0 : ∀ u, O.At S u ((T.conf 0).thread u) (O.place u) := by
    rw [T.start]
    exact hO.start
  suffices hm : ∀ m ≤ n, ∃ P : Nat → ∀ t, γ t, P 0 = O.place ∧ (∀ i ≤ m, ∀ t, O.At S t ((T.conf i).thread t) (P i t)) ∧
      ∀ i < m, ∃ t, O.Step S t (T.conf i) (P i) (T.conf (i + 1)) (P (i + 1)) by
    obtain ⟨P, hstart, hfits, hstep⟩ := hm n (Nat.le_refl n)
    exact ⟨⟨P, hstart, hfits, hstep⟩⟩
  intro m
  induction m with
  | zero =>
    refine fun _ => ⟨fun _ => O.place, rfl, fun i hi => ?_, fun i hi => absurd hi (Nat.not_lt_zero i)⟩
    obtain rfl := Nat.le_zero.mp hi
    exact h0
  | succ m ih =>
    intro hm
    obtain ⟨P, hstart, hfits, hstep⟩ := ih (Nat.le_of_succ_le hm)
    obtain ⟨t, ht⟩ := T.step m hm
    obtain ⟨G', hG', hat⟩ := hO.step (hfits m (Nat.le_refl m)) ht
    have hle : ∀ {i}, i ≤ m → Function.update P (m + 1) G' i = P i := fun hi => Function.update_of_ne (by omega) _ _
    refine ⟨Function.update P (m + 1) G', by rw [hle (Nat.zero_le m), hstart], fun i hi => ?_, fun i hi => ?_⟩
    · rcases Nat.le_succ_iff.mp hi with hi | rfl
      · rw [hle hi]
        exact hfits i hi
      · rw [Function.update_self]
        exact hat
    · rw [hle (Nat.lt_succ_iff.mp hi)]
      rcases Nat.lt_succ_iff_lt_or_eq.mp hi with hi | rfl
      · rw [hle hi]
        exact hstep i hi
      · rw [Function.update_self]
        exact ⟨t, hG'⟩

/-- What holds at first and is kept by every step of the run holds all along. -/
theorem Run.invariant {init : Config Op σ τ C A} {n : Nat} {T : S.Trace init n}
    (R : O.Run T) {P : Nat → Prop} {m : Nat} (h0 : P m)
    (hstep : ∀ i < n, m ≤ i → ∀ t, O.Step S t (T.conf i) (R.places i) (T.conf (i + 1)) (R.places (i + 1)) →
      P i → P (i + 1)) :
    ∀ i, m ≤ i → i ≤ n → P i := by
  intro i hi hn
  obtain ⟨d, rfl⟩ := Nat.exists_eq_add_of_le hi
  induction d with
  | zero => exact h0
  | succ d ih =>
    obtain ⟨t, ht⟩ := R.step (m + d) hn
    exact hstep (m + d) hn (Nat.le_add_right m d) t ht (ih (Nat.le_add_right m d) (Nat.le_of_succ_le hn))

end Outline

end Lib
