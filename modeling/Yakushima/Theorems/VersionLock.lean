import Mathlib.Order.Interval.Finset.Nat
import Yakushima.Lib.Schedule
import Yakushima.Model.Concurrent

/-! # The version protocol

Every call on a version word has one effective step. A run of any number of threads is therefore a
sequence of whole calls on the word, and what the readers rely on follows from how these move the lock,
the dirty flags and the two counters. -/

namespace Yakushima
open M Lib

/-- The version word of a node. -/
def wordAt (n : NodeId) (s : State) : Option Version := (s.node n).map Node.version

section
variable {n : NodeId} {s s' : State}

theorem performs_load {f : Field Version} {v : Version} (h : Performs (.load n f) s v s') :
    s' = s ∧ ∃ nd, s.node n = some nd ∧ nd.get f = v := by
  rcases h with h | ⟨h, -⟩
  · simp only [exec] at h
    split at h
    · rename_i nd hnd
      split at h
      · cases h
        exact ⟨rfl, nd, hnd, rfl⟩
      · cases h
    · cases h
  · exact absurd h id

/-- A compare-and-swap stores over the word that it expects, or nothing happens. -/
theorem performs_cas {expected desired : Version} {y : Bool × Version}
    (h : Performs (.casVersion n expected desired) s y s') :
    (y.1 = false ∧ s' = s) ∨ (y.1 = true ∧ wordAt n s = some expected ∧ wordAt n s' = some desired) := by
  rcases h with h | ⟨⟨nd, -, rfl⟩, hs⟩
  · simp only [exec] at h
    split at h
    · rename_i nd hnd
      split at h
      · rename_i hv
        cases h
        exact Or.inr ⟨rfl, by rw [wordAt, hnd, ← hv]; rfl, by simp [wordAt, State.setNode]⟩
      · cases h
        exact Or.inl ⟨rfl, rfl⟩
    · cases h
  · exact Or.inl ⟨rfl, hs⟩

/-! ### The calls -/

/-- What the word must be for the effective step of a call. -/
def VersionCall.Enabled (v : Version) : VersionCall → Prop
  | .lock => v.locked = false
  | .getStableVersion => v.stable = true
  | _ => True

/-- The effective step of a call. -/
def VersionCall.Effect (n : NodeId) (x : VersionCall) (s : State) (a : Option Version) (s' : State) : Prop :=
  ∃ v, wordAt n s = some v ∧ x.Enabled v ∧ wordAt n s' = some (x.update v) ∧ (x = .getStableVersion → a = some v)

theorem linearizes_casLoop {f : Version → Version} (fuel : Nat) (expected : Version) :
    Linearizes Performs (fun s (_ : Unit) s' => ∃ v, wordAt n s = some v ∧ wordAt n s' = some (f v))
      (casLoop n f fuel expected) := by
  induction fuel generalizing expected with
  | zero => trivial
  | succ fuel ih =>
    intro s y s' h
    rcases performs_cas h with ⟨hy, hs⟩ | ⟨hy, hs, hs'⟩
    · refine Or.inl ⟨hs, ?_⟩
      show Linearizes Performs _ (if y.1 = true then pure () else casLoop n f fuel y.2)
      rw [hy]
      exact ih y.2
    · refine Or.inr ⟨(), ?_, expected, hs, hs'⟩
      show (if y.1 = true then pure () else casLoop n f fuel y.2) = _
      rw [hy]
      rfl

theorem linearizes_atomicUpdate {f : Version → Version} (fuel : Nat) :
    Linearizes Performs (fun s (_ : Unit) s' => ∃ v, wordAt n s = some v ∧ wordAt n s' = some (f v))
      (atomicUpdate fuel n f) :=
  fun _ v _ h => Or.inl ⟨(performs_load h).1, linearizes_casLoop fuel v⟩

theorem linearizes_lock (fuel : Nat) : Linearizes Performs
    (fun s (_ : Unit) s' => ∃ v, wordAt n s = some v ∧ v.locked = false ∧ wordAt n s' = some (.setLocked true v))
    (lock n fuel) := by
  induction fuel with
  | zero => trivial
  | succ fuel ih =>
    intro s v s' h
    refine Or.inl ⟨(performs_load h).1, ?_⟩
    show Linearizes Performs _ (if v.locked = true then lock n fuel else _)
    split
    · exact ih
    · rename_i hl
      intro s y s' h
      rcases performs_cas h with ⟨hy, hs⟩ | ⟨hy, hs, hs'⟩
      · refine Or.inl ⟨hs, ?_⟩
        show Linearizes Performs _ (if y.1 = true then pure () else lock n fuel)
        rw [hy]
        exact ih
      · refine Or.inr ⟨(), ?_, v, hs, by simpa using hl, hs'⟩
        show (if y.1 = true then pure () else lock n fuel) = _
        rw [hy]
        rfl

theorem linearizes_getStableVersion (fuel : Nat) : Linearizes Performs
    (fun s v s' => wordAt n s = some v ∧ v.stable = true ∧ s' = s) (getStableVersion n fuel) := by
  induction fuel with
  | zero => trivial
  | succ fuel ih =>
    intro s v s' h
    obtain ⟨hs, nd, hnd, hv⟩ := performs_load h
    show (_ ∧ Linearizes Performs _ (if v.stable = true then pure v else getStableVersion n fuel)) ∨
      ∃ a, (if v.stable = true then pure v else getStableVersion n fuel) = _ ∧ _
    split
    · rename_i hst
      exact Or.inr ⟨v, rfl, by rw [wordAt, hnd, ← hv]; rfl, hst, hs⟩
    · exact Or.inl ⟨hs, ih⟩

theorem VersionCall.linearizes (x : VersionCall) (fuel : Nat) : Linearizes Performs (x.Effect n) (x.prog n fuel) := by
  have hupdate : ∀ {f : Version → Version}, x.update = f → (∀ v, x.Enabled v) → x ≠ .getStableVersion →
      Linearizes Performs (x.Effect n) (atomicUpdate fuel n f >>= fun _ => pure none) := fun hf hen hx =>
    (linearizes_atomicUpdate fuel).map fun _ _ _ ⟨v, hv, hv'⟩ => ⟨v, hv, hen v, hf ▸ hv', fun h => absurd h hx⟩
  cases x with
  | lock => exact (linearizes_lock fuel).map fun _ _ _ ⟨v, hv, hl, hv'⟩ => ⟨v, hv, hl, hv', nofun⟩
  | getStableVersion =>
    exact (linearizes_getStableVersion fuel).map fun _ v _ ⟨hv, hst, hs⟩ => ⟨v, hv, hst, hs ▸ hv, fun _ => rfl⟩
  | _ => exact hupdate rfl (fun _ => trivial) nofun

/-! ### Threads -/

abbrev VersionThread := Thread Op VersionCall (Option Version)

namespace VersionThread

/-- The calls of the thread whose effective step is done, the last one first. -/
def effected (th : VersionThread) : List VersionCall :=
  match th.active with
  | some (x, .ret _) => x :: th.done.map Prod.fst
  | _ => th.done.map Prod.fst

/-- The thread is between its `lock` and its `unlock`. -/
def HasLock (th : VersionThread) : Prop := VersionCall.holding (effected th) = true

/-- A call that a thread is in may be made by it, and is before or behind its one effective step. -/
def Sound (n : NodeId) (th : VersionThread) : Prop := ∀ x p, th.active = some (x, p) →
  (∃ a, p = .ret a) ∨ Linearizes Performs (x.Effect n) p ∧ x.Allowed (VersionCall.holding (th.done.map Prod.fst))

theorem effected_of_linearizes {th : VersionThread} {x : VersionCall} {p : M (Option Version)}
    (ha : th.active = some (x, p)) (hp : Linearizes Performs (x.Effect n) p) : effected th = th.done.map Prod.fst := by
  cases p with
  | ret a => exact absurd hp id
  | _ => simp [effected, ha]

end VersionThread
open VersionThread

section
variable {τ : Type} [DecidableEq τ] {c c' : Config Op State τ VersionCall (Option Version)} {t : τ}

/-- A step of the system is the effective step of a call, or it changes neither the word nor what is effected. -/
theorem versionSystem_step (hc : ∀ u, Sound n (c.thread u)) (h : (versionSystem n τ).Step t c c') :
    (∀ u, Sound n (c'.thread u)) ∧ (∀ u, u ≠ t → effected (c'.thread u) = effected (c.thread u)) ∧
    ((c'.state = c.state ∧ effected (c'.thread t) = effected (c.thread t)) ∨
      ∃ x a, x.Allowed (VersionCall.holding (effected (c.thread t))) ∧ x.Effect n c.state a c'.state ∧
        (c'.thread t).active = some (x, .ret a) ∧ effected (c'.thread t) = x :: effected (c.thread t)) := by
  have hothers : ∀ u, u ≠ t → c'.thread u = c.thread u := fun u hu => h.other hu
  have hsound : Sound n (c'.thread t) → ∀ u, Sound n (c'.thread u) := by
    intro ht u
    by_cases hu : u = t
    · exact hu ▸ ht
    · rw [hothers u hu]
      exact hc u
  suffices hmain : Sound n (c'.thread t) ∧ _ from
    ⟨hsound hmain.1, fun u hu => by rw [hothers u hu], hmain.2⟩
  cases h with
  | @invoke x p idle allowed =>
    obtain ⟨hx, fuel, rfl⟩ := allowed
    have hlin := x.linearizes (n := n) fuel
    simp only [Function.update_self]
    refine ⟨?_, Or.inl ⟨trivial, ?_⟩⟩
    · rintro y q ⟨⟩
      exact Or.inr ⟨hlin, hx⟩
    · rw [effected_of_linearizes (n := n) rfl hlin, effected, idle]
  | @op δ x o k y s active performs =>
    have hlin : Linearizes Performs (x.Effect n) (.step o k) ∧
      x.Allowed (VersionCall.holding ((c.thread t).done.map Prod.fst)) := by
      rcases hc t x _ active with ⟨a, ha⟩ | hlin
      · cases ha
      · exact hlin
    have heff := effected_of_linearizes active hlin.1
    simp only [Function.update_self]
    rcases hlin.1 c.state y s performs with ⟨hs, hk⟩ | ⟨a, hk, hφ⟩
    · refine ⟨?_, Or.inl ⟨hs, ?_⟩⟩
      · rintro y q ⟨⟩
        exact Or.inr ⟨hk, hlin.2⟩
      · rw [heff, effected_of_linearizes (n := n) rfl hk]
    · refine ⟨?_, Or.inr ⟨x, a, heff ▸ hlin.2, hφ, by rw [hk], ?_⟩⟩
      · rintro y q ⟨⟩
        exact Or.inl ⟨a, hk⟩
      · rw [heff, hk]
        rfl
  | @ret x a active =>
    simp only [Function.update_self]
    refine ⟨?_, Or.inl ⟨trivial, ?_⟩⟩
    · rintro y q ⟨⟩
    · simp [effected, active]

end

/-! ### The invariant -/

/-- Whether the critical section that these calls end in, the last one first, holds the call `y`. -/
def VersionCall.began (y : VersionCall) : List VersionCall → Bool
  | [] => false
  | .lock :: _ => false
  | .unlock :: _ => false
  | x :: l => x == y || began y l

/-- The counters are within their bits. -/
def Version.Sized (v : Version) : Prop := v.vinsertDelete < Version.counterSize ∧ v.vsplit < Version.counterSize

/-- What the word says of the calls that had their effect in each thread. -/
structure Protocol {τ : Type} (v : Version) (E : τ → List VersionCall) : Prop where
  single : ∀ t u, VersionCall.holding (E t) = true → VersionCall.holding (E u) = true → t = u
  locked : v.locked = true ↔ ∃ t, VersionCall.holding (E t) = true
  inserting : ∀ t, VersionCall.began .setInsertingDeleting (E t) = true → VersionCall.holding (E t) = true ∧
    v.insertingDeleting = true
  splitting : ∀ t, VersionCall.began .setSplitting (E t) = true → VersionCall.holding (E t) = true ∧ v.splitting = true
  sized : v.Sized

/-- The calls that neither lock nor unlock. -/
def VersionCall.Plain (x : VersionCall) : Prop := x ≠ .lock ∧ x ≠ .unlock

theorem VersionCall.Plain.holding {x : VersionCall} (hx : x.Plain) (l : List VersionCall) :
    holding (x :: l) = holding l := by
  cases x with
  | lock => exact absurd rfl hx.1
  | unlock => exact absurd rfl hx.2
  | _ => rfl

theorem VersionCall.Plain.began {x y : VersionCall} (hx : x.Plain) (l : List VersionCall) :
    began y (x :: l) = (x == y || began y l) := by
  cases x with
  | lock => exact absurd rfl hx.1
  | unlock => exact absurd rfl hx.2
  | _ => rfl

theorem VersionCall.began_ends {x y : VersionCall} (hx : ¬ x.Plain) (l : List VersionCall) : began y (x :: l) = false := by
  cases x with
  | lock => rfl
  | unlock => rfl
  | _ => exact absurd ⟨by simp, by simp⟩ hx

theorem Version.unlocked_flags (v : Version) : v.unlocked.locked = false ∧ v.unlocked.insertingDeleting = false ∧
    v.unlocked.splitting = false := by
  obtain ⟨vi, l, id, sp, vs, d, r, b⟩ := v
  cases id <;> cases sp <;> exact ⟨rfl, rfl, rfl⟩

/-- A call that neither locks nor unlocks keeps the lock, and the dirty flags but for setting them. -/
theorem VersionCall.Plain.update {x : VersionCall} (hx : x.Plain) (v : Version) : (x.update v).locked = v.locked ∧
    (v.insertingDeleting = true ∨ x = .setInsertingDeleting → (x.update v).insertingDeleting = true) ∧
    (v.splitting = true ∨ x = .setSplitting → (x.update v).splitting = true) := by
  cases x with
  | lock => exact absurd rfl hx.1
  | unlock => exact absurd rfl hx.2
  | _ => simp [VersionCall.update, Version.incVinsertDelete, Version.setBorder, Version.setDeleted, Version.setRoot,
      Version.setInsertingDeleting, Version.setSplitting]

/-- A counter stays or is incremented. -/
theorem VersionCall.update_counters (x : VersionCall) (v : Version) :
    ((x.update v).vinsertDelete = v.vinsertDelete ∨
      (x.update v).vinsertDelete = (v.vinsertDelete + 1) % Version.counterSize) ∧
    ((x.update v).vsplit = v.vsplit ∨ (x.update v).vsplit = (v.vsplit + 1) % Version.counterSize) := by
  obtain ⟨vi, l, id, sp, vs, d, r, b⟩ := v
  cases x <;> cases id <;> cases sp <;> simp [VersionCall.update, Version.unlocked, Version.incVinsertDelete,
    Version.incVsplit,
    Version.setBorder, Version.setDeleted, Version.setRoot, Version.setInsertingDeleting, Version.setSplitting,
      Version.setLocked]

theorem VersionCall.update_sized (x : VersionCall) {v : Version} (h : v.Sized) : (x.update v).Sized := by
  have hpos : 0 < Version.counterSize := Nat.two_pow_pos 29
  obtain ⟨h1, h2⟩ := x.update_counters v
  exact ⟨h1.elim (fun e => e ▸ h.1) fun e => e ▸ Nat.mod_lt _ hpos, h2.elim (fun e => e ▸ h.2)
    fun e => e ▸ Nat.mod_lt _ hpos⟩

/-- A dirty flag is cleared only together with an increment of its counter. -/
theorem VersionCall.update_clears (x : VersionCall) (v : Version) :
    (v.insertingDeleting = true → (x.update v).insertingDeleting = false →
      (x.update v).vinsertDelete = (v.vinsertDelete + 1) % Version.counterSize) ∧
    (v.splitting = true → (x.update v).splitting = false → (x.update v).vsplit = (v.vsplit + 1) % Version.counterSize) := by
  obtain ⟨vi, l, id, sp, vs, d, r, b⟩ := v
  cases x <;> cases id <;> cases sp <;> simp [VersionCall.update, Version.unlocked, Version.incVinsertDelete,
    Version.incVsplit,
    Version.setBorder, Version.setDeleted, Version.setRoot, Version.setInsertingDeleting, Version.setSplitting,
      Version.setLocked]

section
variable {τ : Type} {v : Version} {E E' : τ → List VersionCall} {t : τ} {x : VersionCall}

theorem Protocol.start {v : Version} (hl : v.locked = false) (hv : v.Sized) : Protocol (τ := τ) v fun _ => [] where
  single := fun _ _ h => absurd h (by simp [VersionCall.holding])
  locked := by simp [hl, VersionCall.holding]
  inserting := fun _ h => absurd h (by simp [VersionCall.began])
  splitting := fun _ h => absurd h (by simp [VersionCall.began])
  sized := hv

/-- The effective step of a call keeps the invariant. -/
theorem Protocol.step (h : Protocol v E) (hx : x.Allowed (VersionCall.holding (E t))) (hen : x.Enabled v)
    (ht : E' t = x :: E t) (hu : ∀ u, u ≠ t → E' u = E u) : Protocol (x.update v) E' := by
  have hsized := x.update_sized h.sized
  -- A call that locks or unlocks is at an end of a critical section, so the sections of the others go on.
  have hclean : ¬ x.Plain → ∀ y u, VersionCall.began y (E' u) = true → u ≠ t ∧ VersionCall.began y (E u) = true := by
    intro hx y u hb
    by_cases hut : u = t
    · rw [hut, ht, VersionCall.began_ends hx] at hb
      cases hb
    · exact ⟨hut, hu u hut ▸ hb⟩
  by_cases hlock : x = .lock
  · subst hlock
    -- Nobody has the lock before, and the caller alone has it after.
    have hfree : ∀ u, VersionCall.holding (E u) = false := by
      intro u
      by_contra hh
      exact absurd (h.locked.mpr ⟨u, by simpa using hh⟩) (by rw [hen]; simp)
    have hheld : ∀ u, VersionCall.holding (E' u) = true → u = t := by
      intro u hh
      by_contra hne
      rw [hu u hne, hfree u] at hh
      cases hh
    refine ⟨fun u w h1 h2 => (hheld u h1).trans (hheld w h2).symm, ⟨fun _ => ⟨t, by rw [ht]; rfl⟩, fun _ => rfl⟩,
      fun u hb => ?_, fun u hb => ?_, hsized⟩
    · exact absurd ((h.inserting u (hclean (fun hp => hp.1 rfl) _ u hb).2).1) (by simp [hfree u])
    · exact absurd ((h.splitting u (hclean (fun hp => hp.1 rfl) _ u hb).2).1) (by simp [hfree u])
  · by_cases hunlock : x = .unlock
    · subst hunlock
      -- The caller had the lock, and nobody has it after.
      have hfree : ∀ u, VersionCall.holding (E' u) = false := by
        intro u
        by_cases hut : u = t
        · rw [hut, ht]
          rfl
        · rw [hu u hut]
          by_contra hh
          exact hut (h.single u t (by simpa using hh) hx)
      refine ⟨fun u w h1 => absurd h1 (by simp [hfree u]), ?_, fun u hb => ?_, fun u hb => ?_, hsized⟩
      · simp [hfree, VersionCall.update, v.unlocked_flags.1]
      · obtain ⟨hut, hb'⟩ := hclean (fun hp => hp.2 rfl) _ u hb
        exact absurd (h.single u t (h.inserting u hb').1 hx) hut
      · obtain ⟨hut, hb'⟩ := hclean (fun hp => hp.2 rfl) _ u hb
        exact absurd (h.single u t (h.splitting u hb').1 hx) hut
    · have hplain : x.Plain := ⟨hlock, hunlock⟩
      have hhold : ∀ u, VersionCall.holding (E' u) = VersionCall.holding (E u) := by
        intro u
        by_cases hut : u = t
        · rw [hut, ht, hplain.holding]
        · rw [hu u hut]
      have hbegan : ∀ y u, VersionCall.began y (E' u) = true → (u = t ∧ x = y) ∨ VersionCall.began y (E u) = true := by
        intro y u hb
        by_cases hut : u = t
        · rw [hut, ht, hplain.began, Bool.or_eq_true, beq_iff_eq] at hb
          exact hb.imp (fun e => ⟨hut, e⟩) fun e => hut ▸ e
        · exact Or.inr (hu u hut ▸ hb)
      obtain ⟨hl, hid, hsp⟩ := hplain.update v
      refine ⟨fun u w h1 h2 => h.single u w (hhold u ▸ h1) (hhold w ▸ h2), ?_, fun u hb => ?_, fun u hb => ?_, hsized⟩
      · simp only [hl, hhold]
        exact h.locked
      · rcases hbegan _ u hb with ⟨rfl, rfl⟩ | hb
        · exact ⟨(hhold u).trans hx, hid (Or.inr rfl)⟩
        · exact ⟨(hhold u).trans (h.inserting u hb).1, hid (Or.inl (h.inserting u hb).2)⟩
      · rcases hbegan _ u hb with ⟨rfl, rfl⟩ | hb
        · exact ⟨(hhold u).trans hx, hsp (Or.inr rfl)⟩
        · exact ⟨(hhold u).trans (h.splitting u hb).1, hsp (Or.inl (h.splitting u hb).2)⟩

end

/-! ### Runs -/

section
variable {τ : Type} [DecidableEq τ] {v₀ : Version} {N : Nat} {init : Config Op State τ VersionCall (Option Version)}

/-- The step `i` of the run is the effective step of the call `x` of the thread `t`. -/
def Effects (T : (versionSystem n τ).Trace init N) (i : Nat) (t : τ) (x : VersionCall) : Prop :=
  effected ((T.conf (i + 1)).thread t) = x :: effected ((T.conf i).thread t)

/-- In the step `i` of the run a `get_stable_version` of the thread `t` finds the word `v` that it will answer. -/
def ReadsStable (T : (versionSystem n τ).Trace init N) (i : Nat) (t : τ) (v : Version) : Prop :=
  Effects T i t .getStableVersion ∧ ((T.conf (i + 1)).thread t).active = some (.getStableVersion, .ret (some v))

/-- The number of the steps from `i` to `j` in which a counter of the word was incremented. -/
def increments (T : (versionSystem n τ).Trace init N) (counter : Version → Nat) (i j : Nat) : Nat :=
  ((Finset.Ico i j).filter fun l =>
    (wordAt n (T.conf l).state).map counter ≠ (wordAt n (T.conf (l + 1)).state).map counter).card

/-- The critical section that the thread is in has begun to insert, to delete or to split. -/
def MarksDirty (th : VersionThread) : Prop :=
  VersionCall.began .setInsertingDeleting (effected th) = true ∨ VersionCall.began .setSplitting (effected th) = true

/-- What holds of every configuration of a run. -/
structure VersionInv (n : NodeId) (c : Config Op State τ VersionCall (Option Version)) (v : Version) : Prop where
  word : wordAt n c.state = some v
  sound : ∀ t, Sound n (c.thread t)
  protocol : Protocol v fun t => effected (c.thread t)

/-- A step leaves the word and the effected calls alone, or is the effective step of a call. -/
theorem VersionInv.step {c c' : Config Op State τ VersionCall (Option Version)} {t : τ} {v : Version} (h : VersionInv n c v)
    (hstep : (versionSystem n τ).Step t c c') :
    (VersionInv n c' v ∧ ∀ u, effected (c'.thread u) = effected (c.thread u)) ∨
    ∃ x a, VersionInv n c' (x.update v) ∧ x.Enabled v ∧ (c'.thread t).active = some (x, .ret a) ∧
      (x = .getStableVersion → a = some v) ∧ effected (c'.thread t) = x :: effected (c.thread t) ∧
      ∀ u, u ≠ t → effected (c'.thread u) = effected (c.thread u) := by
  obtain ⟨hs, hu, ⟨hst, ht⟩ | ⟨x, a, hal, ⟨w, hw, hen, hw', ha⟩, hact, heff⟩⟩ := versionSystem_step h.sound hstep
  · have hsame : ∀ u, effected (c'.thread u) = effected (c.thread u) := by
      intro u
      by_cases hut : u = t
      · rw [hut, ht]
      · exact hu u hut
    refine Or.inl ⟨⟨hst ▸ h.word, hs, ?_⟩, hsame⟩
    rw [funext hsame]
    exact h.protocol
  · obtain rfl : w = v := Option.some.inj (hw.symm.trans h.word)
    exact Or.inr ⟨x, a, ⟨hw', hs, h.protocol.step hal hen heff hu⟩, hen, hact, ha, heff, hu⟩

variable {s₀ : State}

/-- The word of every configuration of a run. -/
theorem versionInv_of_trace (T : (versionSystem n τ).Trace (.start Op τ VersionCall (Option Version) s₀) N)
    (hs : wordAt n s₀ = some v₀) (hl : v₀.locked = false) (hv : v₀.Sized) : ∀ i ≤ N, ∃ v, VersionInv n (T.conf i) v := by
  have h0 : VersionInv n (.start Op τ VersionCall (Option Version) s₀) v₀ :=
    ⟨hs, fun _ _ _ h => absurd h (by simp [Config.start]), Protocol.start hl hv⟩
  refine T.invariant (P := fun c => ∃ v, VersionInv n c v) ⟨v₀, h0⟩ fun i _ t hstep ⟨v, hinv⟩ => ?_
  rcases hinv.step hstep with ⟨h, -⟩ | ⟨x, a, h, -⟩
  · exact ⟨v, h⟩
  · exact ⟨x.update v, h⟩

section
variable {T : (versionSystem n τ).Trace init N} {i j : Nat} {t : τ} {x : VersionCall} {v v' : Version}

omit [DecidableEq τ] in
theorem VersionInv.unique {c : Config Op State τ VersionCall (Option Version)} (h : VersionInv n c v)
    (h' : VersionInv n c v') : v' = v :=
  Option.some.inj (h'.word.symm.trans h.word)

/-- From one configuration of a run to the next, the word stays or a call has its effect on it. -/
theorem VersionInv.next (hi : i < N) (h : VersionInv n (T.conf i) v) (h' : VersionInv n (T.conf (i + 1)) v') :
    v' = v ∨ ∃ x : VersionCall, v' = x.update v := by
  obtain ⟨u, hu⟩ := T.step i hi
  rcases h.step hu with ⟨h1, -⟩ | ⟨x, a, h1, -⟩
  · exact Or.inl (h1.unique h')
  · exact Or.inr ⟨x, h1.unique h'⟩

/-- The effective step of a call of the thread `t` is a step of this thread. -/
theorem VersionInv.effects (hi : i < N) (h : VersionInv n (T.conf i) v) (he : Effects T i t x) :
    x.Enabled v ∧ VersionInv n (T.conf (i + 1)) (x.update v) ∧
      ∃ a, ((T.conf (i + 1)).thread t).active = some (x, .ret a) ∧ (x = .getStableVersion → a = some v) := by
  obtain ⟨u, hu⟩ := T.step i hi
  unfold Effects at he
  rcases h.step hu with ⟨-, hsame⟩ | ⟨y, a, h1, hen, hact, ha, heff, hother⟩
  · exact absurd ((hsame t).symm.trans he) (by simp)
  · by_cases htu : t = u
    · subst htu
      obtain ⟨rfl, -⟩ := List.cons.inj (heff.symm.trans he)
      exact ⟨hen, h1, a, hact, ha⟩
    · exact absurd ((hother t htu).symm.trans he) (by simp)

/-- A `get_stable_version` answers the word of the moment of its load, and the word is stable then. -/
theorem ReadsStable.word (hi : i < N) (h : VersionInv n (T.conf i) v') (hr : ReadsStable T i t v) :
    v' = v ∧ v.stable = true := by
  obtain ⟨hen, -, a, hact, ha⟩ := h.effects hi hr.1
  have heq : some v = a := by
    have := Option.some.inj (hr.2.symm.trans hact)
    simpa using this
  rw [ha rfl] at heq
  obtain rfl := Option.some.inj heq
  exact ⟨rfl, hen⟩

theorem increments_succ (counter : Version → Nat) (hij : i ≤ j) :
    increments T counter i (j + 1) = increments T counter i j +
    if (wordAt n (T.conf j).state).map counter ≠ (wordAt n (T.conf (j + 1)).state).map counter then 1 else 0 := by
  unfold increments
  rw [show j + 1 = j.succ from rfl, Nat.Ico_succ_right_eq_insert_Ico hij, Finset.filter_insert]
  split
  · rw [Finset.card_insert_of_notMem (by simp)]
  · rfl

/-- A counter of the word moves by its increments, modulo its size. -/
theorem counter_eq {counter : Version → Nat} (hinv : ∀ l ≤ N, ∃ v, VersionInv n (T.conf l) v)
    (hlt : ∀ v : Version, v.Sized → counter v < Version.counterSize)
    (hstep : ∀ (x : VersionCall) v,
      counter (x.update v) = counter v ∨ counter (x.update v) = (counter v + 1) % Version.counterSize)
    (hij : i ≤ j) (hj : j ≤ N) (h : VersionInv n (T.conf i) v)
    (h' : VersionInv n (T.conf j) v') :
    counter v' = (counter v + increments T counter i j) % Version.counterSize := by
  induction j, hij using Nat.le_induction generalizing v' with
  | base =>
    obtain rfl := h.unique h'
    simp [increments, Nat.mod_eq_of_lt (hlt _ h.protocol.sized)]
  | succ j hij ih =>
    obtain ⟨w, hw⟩ := hinv j (by omega)
    have hw' := ih (by omega) hw
    rw [increments_succ counter hij, hw.word, h'.word]
    have hcase : counter v' = counter w ∨ counter v' = (counter w + 1) % Version.counterSize := by
      rcases hw.next hj h' with rfl | ⟨x, rfl⟩
      · exact Or.inl rfl
      · exact hstep x w
    by_cases heq : counter w = counter v'
    · simp [heq.symm, hw']
    · have hne : ¬ (some w).map counter = (some v').map counter := by simpa using heq
      rw [if_pos hne, hcase.resolve_left fun e => heq e.symm, hw', ← Nat.add_assoc, Nat.mod_add_mod]

/-- A state of which something holds, and a later one of which it does not. -/
theorem exists_last {P : Nat → Prop} {i j : Nat} (hij : i ≤ j) (hi : P i) (hj : ¬ P j) : ∃ l, i ≤ l ∧ l < j ∧ P l ∧
    ¬ P (l + 1) := by
  induction j, hij using Nat.le_induction with
  | base => exact absurd hi hj
  | succ j hij ih =>
    by_cases h : P j
    · exact ⟨j, hij, Nat.lt_succ_self j, h, hj⟩
    · obtain ⟨l, h1, h2, h3⟩ := ih h
      exact ⟨l, h1, Nat.lt_succ_of_lt h2, h3⟩

/-- A dirty flag that was set at a moment between two equal stable words came with at least as many increments of
    its counter as the counter has values. -/
theorem counterSize_le_increments (flag : Version → Bool) (counter : Version → Nat) {m : Nat} {w : Version}
    (hinv : ∀ l ≤ N, ∃ v, VersionInv n (T.conf l) v) (hlt : ∀ v : Version, v.Sized → counter v < Version.counterSize)
    (hstep : ∀ (x : VersionCall) v, counter (x.update v) = counter v ∨
      counter (x.update v) = (counter v + 1) % Version.counterSize)
      (hclear : ∀ (x : VersionCall) v, flag v = true → flag (x.update v) = false →
        counter (x.update v) = (counter v + 1) % Version.counterSize)
    (him : i ≤ m) (hmj : m ≤ j) (hj : j ≤ N) (h : VersionInv n (T.conf i) v) (h' : VersionInv n (T.conf j) v)
    (hm : VersionInv n (T.conf m) w) (hw : flag w = true) (hv : flag v = false) :
    Version.counterSize ≤ increments T counter i j := by
  have hsize : Version.counterSize = 2 ^ 29 := rfl
  have hend : ¬ ∃ u, VersionInv n (T.conf j) u ∧ flag u = true := by
    rintro ⟨u, hu, hf⟩
    rw [h'.unique hu, hv] at hf
    cases hf
  obtain ⟨l, hml, hlj, ⟨u, hu, hfu⟩, hnot⟩ :=
    exists_last (P := fun l => ∃ u, VersionInv n (T.conf l) u ∧ flag u = true) hmj ⟨w, hm, hw⟩ hend
  obtain ⟨u', hu'⟩ := hinv (l + 1) (by omega)
  have hfu' : flag u' = false := by
    by_contra hc
    exact hnot ⟨u', hu', by simpa using hc⟩
  have hsucc : counter u' = (counter u + 1) % Version.counterSize := by
    rcases hu.next (by omega) hu' with rfl | ⟨x, rfl⟩
    · rw [hfu] at hfu'
      cases hfu'
    · exact hclear x u hfu hfu'
  -- The step that cleared the flag is counted.
  have hpos : 0 < increments T counter i j := by
    refine Finset.card_pos.mpr ⟨l, Finset.mem_filter.mpr ⟨Finset.mem_Ico.mpr ⟨by omega, hlj⟩, ?_⟩⟩
    have hult := hlt u hu.protocol.sized
    rw [hu.word, hu'.word, Option.map_some, Option.map_some, hsucc]
    intro hc
    have heq := Option.some.inj hc
    rw [hsize] at hult heq
    omega
  have hcount := counter_eq hinv hlt hstep (by omega) hj h h'
  have hvlt := hlt v h.protocol.sized
  rw [hsize] at hcount hvlt ⊢
  omega

/-- Between two stable reads of one word no thread with a dirty critical section had the lock. -/
theorem no_dirty_section {k m : Nat} {u : τ} (hinv : ∀ l ≤ N, ∃ v, VersionInv n (T.conf l) v) (hj : j < N)
    (hi : ReadsStable T i t v) (hj' : ReadsStable T j t v)
    (hid : increments T Version.vinsertDelete i j < Version.counterSize)
    (hsp : increments T Version.vsplit i j < Version.counterSize) (hik : i ≤ k) (hkj : k ≤ j)
    (hheld : ∀ l, min k m ≤ l → l ≤ max k m → HasLock ((T.conf l).thread u)) : ¬ MarksDirty ((T.conf m).thread u) := by
  obtain ⟨w, hw⟩ := hinv i (by omega)
  obtain ⟨w', hw'⟩ := hinv j (by omega)
  obtain ⟨rfl, hst⟩ := hi.word (by omega) hw
  obtain ⟨rfl, -⟩ := hj'.word hj hw'
  simp only [Version.stable, Bool.and_eq_true, Bool.not_eq_true'] at hst
  obtain ⟨⟨hfid, hflock⟩, hfsp⟩ := hst
  -- Nobody has the lock at the two reads, so the whole section lies between them.
  have hfree : ∀ {l}, VersionInv n (T.conf l) w' → ¬ HasLock ((T.conf l).thread u) := fun hl hh =>
    absurd (hl.protocol.locked.mpr ⟨u, hh⟩) (by rw [hflock]; simp)
  have him : i ≤ m := by
    by_contra hc
    exact hfree hw (hheld i (by omega) (by omega))
  have hmj : m ≤ j := by
    by_contra hc
    exact hfree hw' (hheld j (by omega) (by omega))
  obtain ⟨x, hx⟩ := hinv m (by omega)
  rintro (hd | hd)
  · have := counterSize_le_increments Version.insertingDeleting Version.vinsertDelete hinv (fun _ h => h.1)
      (fun x v => (x.update_counters v).1) (fun x v => (x.update_clears v).1) him hmj (by omega) hw hw' hx
        (hx.protocol.inserting u hd).2 hfid
    omega
  · have := counterSize_le_increments Version.splitting Version.vsplit hinv (fun _ h => h.2)
      (fun x v => (x.update_counters v).2) (fun x v => (x.update_clears v).2) him hmj (by omega) hw hw' hx
        (hx.protocol.splitting u hd).2 hfsp
    omega

/-- The root flag that a `set_root` left stays until the next one. -/
theorem root_kept {tf : Bool} (hinv : ∀ l ≤ N, ∃ v, VersionInv n (T.conf l) v) (he : Effects T i t (.setRoot tf))
    (hij : i < j) (hj : j ≤ N) (hnone : ∀ l u tf', i < l → l < j → ¬ Effects T l u (.setRoot tf'))
    (h : VersionInv n (T.conf j) v) : v.root = tf := by
  induction j, hij using Nat.le_induction generalizing v with
  | base =>
    obtain ⟨w, hw⟩ := hinv i (by omega)
    obtain ⟨-, h', -⟩ := hw.effects (by omega) he
    rw [h'.unique h]
    rfl
  | succ j hij ih =>
    obtain ⟨w, hw⟩ := hinv j (by omega)
    have hroot := ih (by omega) (fun l u tf' h1 h2 => hnone l u tf' h1 (by omega)) hw
    obtain ⟨u, hu⟩ := T.step j (by omega)
    rcases hw.step hu with ⟨h', -⟩ | ⟨x, a, h', -, -, -, heff, -⟩
    · rw [h'.unique h, hroot]
    · rw [h'.unique h, ← hroot]
      have hx : ∀ tf', x ≠ .setRoot tf' := fun tf' hx => hnone j u tf' hij (Nat.lt_succ_self j) (hx ▸ heff)
      obtain ⟨vi, l, id, sp, vs, d, r, b⟩ := w
      cases x with
      | setRoot tf' => exact absurd rfl (hx tf')
      | unlock => cases id <;> cases sp <;> rfl
      | _ => rfl

/-! ### What the callers rely on -/

/-- At most one thread is between its `lock` and its `unlock`. -/
def Excludes (T : (versionSystem n τ).Trace init N) : Prop :=
  ∀ i ≤ N, ∀ t u, HasLock ((T.conf i).thread t) → HasLock ((T.conf i).thread u) → t = u

/-- A reader that finds one stable word twice, with fewer increments of the counters in between than they have
    values, was not overtaken: whoever had the lock at a moment `k` in between began neither to insert, to delete
    nor to split at any moment `m` of the same critical section. -/
def Validates (T : (versionSystem n τ).Trace init N) : Prop :=
  ∀ i j t v, i ≤ j → j < N → ReadsStable T i t v → ReadsStable T j t v →
    increments T Version.vinsertDelete i j < Version.counterSize → increments T Version.vsplit i j < Version.counterSize →
    ∀ k u m, i ≤ k → k ≤ j → m ≤ N → (∀ l, min k m ≤ l → l ≤ max k m → HasLock ((T.conf l).thread u)) →
      ¬ MarksDirty ((T.conf m).thread u)

/-- What an `unlock` leaves of the word `v`: the lock and the dirty flags are clear, each counter was incremented if its
    dirty flag was set, and the other flags are those of `v`. -/
structure Version.Released (v v' : Version) : Prop where
  locked : v'.locked = false
  insertingDeleting : v'.insertingDeleting = false
  splitting : v'.splitting = false
  vinsertDelete : v'.vinsertDelete = if v.insertingDeleting then (v.vinsertDelete + 1) % counterSize else v.vinsertDelete
  vsplit : v'.vsplit = if v.splitting then (v.vsplit + 1) % counterSize else v.vsplit
  deleted : v'.deleted = v.deleted
  root : v'.root = v.root
  border : v'.border = v.border

theorem Version.released_unlocked (v : Version) : v.Released v.unlocked := by
  obtain ⟨vi, l, id, sp, vs, d, r, b⟩ := v
  cases id <;> cases sp <;> exact ⟨rfl, rfl, rfl, rfl, rfl, rfl, rfl, rfl⟩

/-- The word is the first one with the effect of every call applied once, in one order that keeps the order of each
    thread. In particular a root flag stays until the next `set_root`, and an `unlock` increments the counters of the
    word of its moment by the dirty flags that it finds. -/
structure KeepsUpdates (v₀ : Version) (T : (versionSystem n τ).Trace init N) : Prop where
  order : ∀ i ≤ N, ∃ L : List (τ × VersionCall), wordAt n (T.conf i).state = some (L.foldl (fun v e => e.2.update v) v₀) ∧
    ∀ t, ((L.filter fun e => e.1 = t).map Prod.snd).reverse = effected ((T.conf i).thread t)
  root : ∀ i j t tf v, i < j → j ≤ N → Effects T i t (.setRoot tf) →
    (∀ l u tf', i < l → l < j → ¬ Effects T l u (.setRoot tf')) →
    wordAt n (T.conf j).state = some v → v.root = tf
  unlock : ∀ i t v, i < N → Effects T i t .unlock → wordAt n (T.conf i).state = some v →
    ∃ v', wordAt n (T.conf (i + 1)).state = some v' ∧ v.Released v'
  counters : ∀ i j v v', i ≤ j → j ≤ N → wordAt n (T.conf i).state = some v → wordAt n (T.conf j).state = some v' →
    v'.vinsertDelete = (v.vinsertDelete + increments T Version.vinsertDelete i j) % Version.counterSize ∧
    v'.vsplit = (v.vsplit + increments T Version.vsplit i j) % Version.counterSize

theorem exists_order (T : (versionSystem n τ).Trace (.start Op τ VersionCall (Option Version) s₀) N)
    (hs : wordAt n s₀ = some v₀) (hinv : ∀ l ≤ N, ∃ v, VersionInv n (T.conf l) v) : ∀ i ≤ N, ∃ L : List (τ × VersionCall),
      wordAt n (T.conf i).state = some (L.foldl (fun v e => e.2.update v) v₀) ∧
      ∀ t, ((L.filter fun e => e.1 = t).map Prod.snd).reverse = effected ((T.conf i).thread t) := by
  intro i
  induction i with
  | zero => exact fun _ => ⟨[], by rw [T.start]; exact hs, fun t => by rw [T.start]; rfl⟩
  | succ i ih =>
    intro hi
    obtain ⟨L, hL, hE⟩ := ih (by omega)
    obtain ⟨v, hv⟩ := hinv i (by omega)
    obtain ⟨u, hu⟩ := T.step i hi
    rcases hv.step hu with ⟨h', hsame⟩ | ⟨x, a, h', -, -, -, heff, hother⟩
    · refine ⟨L, ?_, fun t => (hE t).trans (hsame t).symm⟩
      rw [h'.word, ← hv.word, hL]
    · refine ⟨L ++ [(u, x)], ?_, fun t => ?_⟩
      · rw [h'.word, List.foldl_append, ← Option.some.inj (hL.symm.trans hv.word)]
        rfl
      · by_cases htu : t = u
        · subst htu
          rw [heff, List.filter_append, List.map_append, List.reverse_append, hE]
          simp
        · rw [hother t htu, List.filter_append, List.map_append, List.reverse_append, hE]
          have hut : ¬ u = t := fun h => htu h.symm
          simp [hut]

/-- Any number of threads that call `lock`, `unlock`, `get_stable_version`, the setters and `atomic_inc_vinsert` on one
    version word, in any interleaving. -/
theorem version_protocol (hs : wordAt n s₀ = some v₀) (hl : v₀.locked = false) (hv : v₀.Sized)
    (T : (versionSystem n τ).Trace (.start Op τ VersionCall (Option Version) s₀) N) : Excludes T ∧ Validates T ∧
    KeepsUpdates v₀ T := by
  have hinv := versionInv_of_trace T hs hl hv
  have hword : ∀ {i v}, i ≤ N → wordAt n (T.conf i).state = some v → VersionInv n (T.conf i) v := by
    intro i v hi hw
    obtain ⟨w, h⟩ := hinv i hi
    exact Option.some.inj (h.word.symm.trans hw) ▸ h
  refine ⟨fun i hi t u => ?_, fun i j t v _ hj hri hrj hid hsp k u m hik hkj _ hheld => ?_,
    exists_order T hs hinv, ?_, ?_, ?_⟩
  · obtain ⟨v, h⟩ := hinv i hi
    exact h.protocol.single t u
  · exact no_dirty_section hinv hj hri hrj hid hsp hik hkj hheld
  · exact fun i j t tf v hij hj he hnone hw => root_kept hinv he hij hj hnone (hword hj hw)
  · intro i t v hi he hw
    obtain ⟨-, h', -⟩ := (hword (by omega) hw).effects hi he
    exact ⟨v.unlocked, h'.word, v.released_unlocked⟩
  · intro i j v v' hij hj hw hw'
    have h := hword (by omega) hw
    have h' := hword hj hw'
    exact ⟨counter_eq hinv (fun _ h => h.1) (fun x v => (x.update_counters v).1) hij hj h h',
      counter_eq hinv (fun _ h => h.2) (fun x v => (x.update_counters v).2) hij hj h h'⟩

end

end

/-! ### A schedule with contention -/

instance (held : Bool) (x : VersionCall) : Decidable (x.Allowed held) := by
  cases x <;> unfold VersionCall.Allowed <;> infer_instance

/-- The calls that are allowed, and every operation done without a weak failure. -/
def versionDriver (n : NodeId) (τ : Type) : Driver (versionSystem n τ) where
  exec := exec
  call := fun _ done x => if x.Allowed (VersionCall.holding (done.map Prod.fst)) then some (x.prog n 3) else none
  performs := fun _ _ _ _ h => Or.inl h
  invokes := by
    intro t done x p h
    split at h
    · rename_i hx
      cases h
      exact ⟨hx, 3, rfl⟩
    · cases h

/-- A call of a thread that no other thread meets, in three steps: load, compare-and-swap and return. -/
def undisturbed (t : Nat) (x : VersionCall) : List (Move Nat VersionCall) := .invoke t x :: List.replicate 3 (.go t)

/-- Thread 0 locks and begins to insert while thread 1 waits for the lock; thread 3 sets the root flag between the load
    and the compare-and-swap of thread 0's `unlock`, which has to try again. Thread 1 then takes the lock and gives it
    back unused; thread 2 reads a stable word before and after its second such section. -/
def contention : List (Move Nat VersionCall) :=
  undisturbed 0 .lock ++ [.invoke 1 .lock, .go 1] ++ undisturbed 0 .setInsertingDeleting ++ [.invoke 0 .unlock, .go 0] ++
  undisturbed 3 (.setRoot true) ++ List.replicate 3 (.go 0) ++ List.replicate 3 (.go 1) ++ undisturbed 1 .unlock ++
  [.invoke 2 .getStableVersion, .go 2, .go 2] ++ undisturbed 1 .lock ++ undisturbed 1
    .unlock ++ [.invoke 2 .getStableVersion, .go 2, .go 2]

def contendedRun : (versionSystem 0 Nat).Trace
    (.start Op Nat VersionCall (Option Version) (State.init.setNode 0 (.fresh .border))) contention.length :=
  (versionDriver 0 Nat).trace contention _ (by decide +kernel)

theorem version_protocol_contended : (HasLock ((contendedRun.conf 10).thread 0) ∧
    MarksDirty ((contendedRun.conf 10).thread 0)) ∧
    ((contendedRun.conf 10).thread 1).call = some .lock ∧
    (Effects contendedRun 14 3 (.setRoot true) ∧ Effects contendedRun 17 0 .unlock) ∧
    HasLock ((contendedRun.conf 32).thread 1) ∧
    (∃ v, ReadsStable contendedRun 27 2 v ∧ ReadsStable contendedRun 38 2 v) ∧
    Excludes contendedRun ∧ Validates contendedRun ∧ KeepsUpdates .init contendedRun :=
  ⟨⟨by unfold HasLock; decide +kernel, Or.inl (by decide +kernel)⟩, by decide +kernel,
    ⟨by unfold Effects; decide +kernel, by unfold Effects; decide +kernel⟩, by unfold HasLock; decide +kernel,
    ⟨⟨1, false, false, false, 0, false, true, false⟩,
      ⟨by unfold Effects; decide +kernel, Thread.active_of_answer (by decide +kernel)⟩,
      ⟨by unfold Effects; decide +kernel, Thread.active_of_answer (by decide +kernel)⟩⟩,
    version_protocol rfl rfl ⟨by decide, by decide⟩ contendedRun⟩

end
end Yakushima
