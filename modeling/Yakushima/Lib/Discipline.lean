import Yakushima.Lib.Outline

/-! # Disciplines

A discipline says what a thread may do by what it has: its view of the shared state, which no state contains. A
program that obeys it does so whatever the answers of its operations are, but those that are impossible. The
invariant that ties the state to the views of all threads rules these out and is kept by every move, so it holds
all along a run. -/

namespace Lib
variable {Op : Type → Type 1} {σ τ C A γ : Type}

/-- How the operations change the view of the thread that performs them, and the answers that a thread with this
    view never gets. -/
structure Discipline (Op : Type → Type 1) (γ : Type) where
  moves : {δ : Type} → Op δ → δ → γ → γ → Prop
  impossible : {δ : Type} → Op δ → δ → γ → Prop

namespace Discipline
variable (D : Discipline Op γ)

/-- The program may do what it does from the view `g`, and returns with `post`. -/
def Obeys {B : Type} (post : B → γ → Prop) : Prog Op B → γ → Prop
  | .ret b, g => post b g
  | .step o k, g => ∀ y, D.impossible o y g ∨ ∃ g', D.moves o y g g' ∧ Obeys post (k y) g'
  | .halt, _ => True

variable {D} {B B' : Type} {g : γ}

theorem Obeys.mono {post post' : B → γ → Prop} (hpost : ∀ b g, post b g → post' b g) :
    ∀ {p : Prog Op B} {g : γ}, D.Obeys post p g → D.Obeys post' p g
  | .ret b, g, h => hpost b g h
  | .step o k, g, h => by
    intro y
    rcases h y with hy | ⟨g', hm, hk⟩
    · exact Or.inl hy
    · exact Or.inr ⟨g', hm, hk.mono hpost⟩
  | .halt, _, _ => trivial

theorem Obeys.bind {mid : B → γ → Prop} {post : B' → γ → Prop} {f : B → Prog Op B'}
    (hf : ∀ b g, mid b g → D.Obeys post (f b) g) :
    ∀ {p : Prog Op B} {g : γ}, D.Obeys mid p g → D.Obeys post (p >>= f) g
  | .ret b, g, h => hf b g h
  | .step o k, g, h => by
    intro y
    rcases h y with hy | ⟨g', hm, hk⟩
    · exact Or.inl hy
    · exact Or.inr ⟨g', hm, hk.bind hf⟩
  | .halt, _, _ => trivial

/-! ### Runs -/

section Run
variable [DecidableEq τ] (S : System Op σ τ C A) (I : σ → (τ → γ) → Prop) (rests : γ → Prop)

/-- The invariant `I` rules the impossible answers out and is kept by the moves, and every program that may be
    invoked between calls obeys the discipline and ends between calls. -/
structure Upheld (D : Discipline Op γ) : Prop where
  possible : ∀ {s s' : σ} {G : τ → γ} {t : τ} {δ : Type} {o : Op δ} {y : δ}, I s G → S.performs o s y s' →
    ¬ D.impossible o y (G t)
  moved : ∀ {s s' : σ} {G : τ → γ} {t : τ} {δ : Type} {o : Op δ} {y : δ} {g : γ}, I s G → S.performs o s y s' →
    D.moves o y (G t) g →
    I s' (Function.update G t g)
  call : ∀ {t : τ} {done : List (C × A)} {x : C} {p : Prog Op A} {g : γ}, rests g → S.invokes t done x p →
    D.Obeys (fun _ => rests) p g

/-- The view fits to what the thread does. -/
def Fits (D : Discipline Op γ) (th : Thread Op C A) (g : γ) : Prop := match th.active with
  | none => rests g
  | some (_, p) => D.Obeys (fun _ => rests) p g

/-- A step of the system with the views before and after it. -/
inductive Advance (D : Discipline Op γ) (c : Config Op σ τ C A) (G : τ → γ) (c' : Config Op σ τ C A)
    (G' : τ → γ) : Prop where
  | quiet (state : c'.state = c.state) (same : G' = G)
  | acts {δ : Type} (t : τ) (o : Op δ) (y : δ) (h : S.Acts t o y c c') (hm : D.moves o y (G t) (G' t))
    (others : ∀ u, u ≠ t → G' u = G u)

variable {S} in
/-- The views along a run. -/
structure Run (D : Discipline Op γ) {init : Config Op σ τ C A} {n : Nat} (T : S.Trace init n) where
  views : Nat → τ → γ
  fits : ∀ i ≤ n, ∀ t, D.Fits rests ((T.conf i).thread t) (views i t)
  inv : ∀ i ≤ n, I (T.conf i).state (views i)
  step : ∀ i < n, D.Advance S (T.conf i) (views i) (T.conf (i + 1)) (views (i + 1))

variable {S I rests} {c c' : Config Op σ τ C A} {G : τ → γ} {t : τ}

/-- A step that the thread `u` takes with an operation moves the view of `u` alone. -/
theorem Advance.of_acts {G' : τ → γ} {u : τ} {δ : Type} {o : Op δ} {y : δ} (h : D.Advance S c G c' G')
    (ha : S.Acts u o y c c') :
    c'.state = c.state ∧ G' = G ∨ ∃ (δ' : Type) (o' : Op δ') (y' : δ'), S.performs o' c.state y' c'.state ∧
      D.moves o' y' (G u) (G' u) ∧
      ∀ v, v ≠ u → G' v = G v := by
  cases h with
  | quiet state same => exact Or.inl ⟨state, same⟩
  | @acts δ' t o' y' h' hm others =>
    obtain ⟨x, k, hactive, hk⟩ := ha.threads
    obtain ⟨x', k', -, hk'⟩ := h'.threads
    have htu : u = t := by
      by_contra hne
      have hrest := congrArg Thread.active (congrFun (hk.symm.trans hk') u)
      rw [Function.update_self, Function.update_of_ne hne, hactive] at hrest
      exact Prog.rest_ne o k y (Prod.ext_iff.mp (Option.some.inj hrest)).2
    subst htu
    exact Or.inr ⟨δ', o', y', h'.performs, hm, others⟩

/-- A step of the system is one of the discipline. -/
theorem Upheld.step (hD : D.Upheld S I rests) (hfits : ∀ u, D.Fits rests (c.thread u) (G u)) (hinv : I c.state G)
    (h : S.Step t c c') :
    ∃ G', D.Advance S c G c' G' ∧ (∀ u, D.Fits rests (c'.thread u) (G' u)) ∧ I c'.state G' := by
  have hat := hfits t
  -- The views of the others stay, and so do their threads.
  have hothers : ∀ {g' : γ}, D.Fits rests (c'.thread t) g' →
    ∀ u, D.Fits rests (c'.thread u) (Function.update G t g' u) := by
    intro g' hg' u
    by_cases hu : u = t
    · subst hu
      rwa [Function.update_self]
    · rw [Function.update_of_ne hu, h.other hu]
      exact hfits u
  have hquiet : c'.state = c.state → D.Fits rests (c'.thread t) (G t) →
      ∃ G', D.Advance S c G c' G' ∧ (∀ u, D.Fits rests (c'.thread u) (G' u)) ∧ I c'.state G' := by
    intro hs hg
    have hall := hothers hg
    rw [Function.update_eq_self] at hall
    exact ⟨G, .quiet hs rfl, hall, hs ▸ hinv⟩
  cases h with
  | @invoke x p idle allowed =>
    rw [Fits, idle] at hat
    refine hquiet rfl ?_
    simpa only [Fits, Function.update_self] using hD.call hat allowed
  | @op δ x o k y s active performs =>
    rw [Fits, active] at hat
    rcases hat y with hy | ⟨g', hm, hk⟩
    · exact absurd hy (hD.possible hinv performs)
    · refine ⟨Function.update G t g', .acts t o y ⟨performs, x, k, active, rfl⟩ (by rwa [Function.update_self])
        fun u hu => Function.update_of_ne hu _ _,
        hothers ?_, hD.moved hinv performs hm⟩
      simpa only [Fits, Function.update_self] using hk
  | @ret x a active =>
    rw [Fits, active] at hat
    refine hquiet rfl ?_
    simp only [Fits, Function.update_self]
    exact hat

/-- A run of the system is one of the discipline. -/
theorem Upheld.exists_run (hD : D.Upheld S I rests) {s₀ : σ} {n : Nat} (T : S.Trace (.start Op τ C A s₀) n)
    (hinv : I s₀ fun _ => g) (hrest : rests g) :
    Nonempty (D.Run I rests T) := by
  suffices hm : ∀ m ≤ n, ∃ V : Nat → τ → γ, (∀ i ≤ m, ∀ t, D.Fits rests ((T.conf i).thread t) (V i t)) ∧
    (∀ i ≤ m, I (T.conf i).state (V i)) ∧
      ∀ i < m, D.Advance S (T.conf i) (V i) (T.conf (i + 1)) (V (i + 1)) by
    obtain ⟨V, hfits, hI, hstep⟩ := hm n (Nat.le_refl n)
    exact ⟨⟨V, hfits, hI, hstep⟩⟩
  intro m
  induction m with
  | zero =>
    refine fun _ => ⟨fun _ _ => g, fun i hi t => ?_, fun i hi => ?_, fun i hi => absurd hi (Nat.not_lt_zero i)⟩ <;>
      obtain rfl := Nat.le_zero.mp hi <;> rw [T.start]
    · exact hrest
    · exact hinv
  | succ m ih =>
    intro hm
    obtain ⟨V, hfits, hI, hstep⟩ := ih (Nat.le_of_succ_le hm)
    obtain ⟨t, ht⟩ := T.step m hm
    obtain ⟨G', hadv, hfits', hI'⟩ := hD.step (hfits m (Nat.le_refl m)) (hI m (Nat.le_refl m)) ht
    have hle : ∀ {i}, i ≤ m → Function.update V (m + 1) G' i = V i := fun hi => Function.update_of_ne (by lia) _ _
    refine ⟨Function.update V (m + 1) G', fun i hi => ?_, fun i hi => ?_, fun i hi => ?_⟩
    · rcases Nat.le_succ_iff.mp hi with hi | rfl
      · rw [hle hi]
        exact hfits i hi
      · rw [Function.update_self]
        exact hfits'
    · rcases Nat.le_succ_iff.mp hi with hi | rfl
      · rw [hle hi]
        exact hI i hi
      · rw [Function.update_self]
        exact hI'
    · rw [hle (Nat.lt_succ_iff.mp hi)]
      rcases Nat.lt_succ_iff_lt_or_eq.mp hi with hi | rfl
      · rw [hle hi]
        exact hstep i hi
      · rw [Function.update_self]
        exact hadv

end Run
end Discipline
end Lib
