import Yakushima.Theorems.Session

/-! # Sessions are exclusive

Who owns a slot of the session table at each moment of a run. -/

namespace Yakushima
namespace Session
open Lib

variable {N : Nat} {τ : Type}

/-! ### Slots -/

abbrev Conf (N : Nat) (τ : Type) := Config (Op N) (State N) (Actor τ) (Call N) (Option (Fin N))

/-- How far the thread `t` is with the slot `tk`. -/
def phase (P : ∀ a : Actor τ, Places N a) (t : τ) (tk : Fin N) : Phase := SessionPlace.slot (P (.session t)) tk

/-- What one step can do to a slot: the phase of its thread, its flag and its epoch. -/
inductive SlotStep : Phase → Bool × Nat → Phase → Bool × Nat → Prop where
  | gain {ph : Phase} {b : Nat} : SlotStep ph (false, b) .gained (true, b)
  | read {r : Bool × Nat} {e : Nat} : SlotStep .gained r (.read e) r
  | publish {r : Bool} {b e : Nat} : SlotStep (.read e) (r, b) (.held e) (r, e)
  | leave {r : Bool × Nat} {e : Nat} : SlotStep (.held e) r (.leaving e) r
  | clear {r : Bool} {b e : Nat} : SlotStep (.leaving e) (r, b) .cleared (r, 0)
  | release {r : Bool} {b : Nat} : SlotStep .cleared (r, b) .absent (false, b)

/-- The flag and the epoch of a slot. -/
def State.word (s : State N) (tk : Fin N) : Bool × Nat := ((s.info tk).running, (s.info tk).beginEpoch)

theorem State.word_setInfo (s : State N) (tk tk' : Fin N) (f : ThreadInfo → ThreadInfo) :
    (s.setInfo tk f).word tk' = if tk' = tk then ((f (s.info tk)).running, (f (s.info tk)).beginEpoch) else s.word tk' := by
  by_cases h : tk' = tk
  · subst h
    simp [State.word, State.setInfo]
  · simp [State.word, State.setInfo, h]

theorem State.word_setContainer (s : State N) (tk tk' : Fin N) (c : Garbage) (f : Container Nat → Container Nat) :
    (s.setContainer tk c f).word tk' = s.word tk' := by
  rw [State.setContainer, State.word_setInfo]
  split
  · rename_i h
    rw [h]
    rfl
  · rfl

/-- The operations that change neither a flag nor a begin epoch. -/
def Op.Silent {δ : Type} : Op N δ → Prop
  | .casRunning _ _ _ | .storeRunning _ _ | .storeBeginEpoch _ _ => False
  | _ => True

theorem word_of_silent {δ : Type} {o : Op N δ} {s s' : State N} {y : δ} (ho : o.Silent) (h : Performs o s y s') :
    s'.word = s.word := by
  rcases h with h | ⟨-, rfl⟩
  · cases o with
    | casRunning | storeRunning | storeBeginEpoch => exact absurd ho id
    | push tk c e =>
      cases h
      exact funext fun tk' => State.word_setContainer s tk tk' c (·.push (e, s.retired))
    | tryPop | storeCache =>
      cases h
      exact funext fun tk => State.word_setContainer ..
    | _ =>
      cases h
      rfl
  · rfl

theorem performs_storeBeginEpoch {s s' : State N} {tk : Fin N} {e : Nat} {y : Unit}
    (h : Performs (.storeBeginEpoch tk e) s y s') :
    s' = s.setInfo tk ({ · with beginEpoch := e }) := by
  rcases h with h | ⟨h, -⟩
  · cases h
    rfl
  · exact absurd h id

theorem performs_storeRunning {s s' : State N} {tk : Fin N} {tf : Bool} {y : Unit}
    (h : Performs (.storeRunning tk tf) s y s') :
    s' = s.setInfo tk ({ · with running := tf }) := by
  rcases h with h | ⟨h, -⟩
  · cases h
    rfl
  · exact absurd h id

theorem performs_casRunning {s s' : State N} {tk : Fin N} {expected desired : Bool} {y : Bool × Bool}
    (h : Performs (.casRunning tk expected desired) s y s') :
    (y.1 = false ∧ s' = s) ∨
    (y.1 = true ∧ (s.info tk).running = expected ∧ s' = s.setInfo tk ({ · with running := desired })) := by
  rcases h with h | ⟨h, rfl⟩
  · simp only [exec] at h
    split at h
    · rename_i hr
      cases h
      exact Or.inr ⟨rfl, hr, rfl⟩
    · cases h
      exact Or.inl ⟨rfl, rfl⟩
  · exact Or.inl ⟨by rw [h], rfl⟩

section
variable [DecidableEq τ] {a : Actor τ} {c c' : Conf N τ} {P P' : ∀ a : Actor τ, Places N a}

/-- What a step of the thread `a` does to the slots. -/
inductive SlotsStep (a : Actor τ) (c : Conf N τ) (P : ∀ a : Actor τ, Places N a) (c' : Conf N τ)
    (P' : ∀ a : Actor τ, Places N a) : Prop where
  | quiet (word : c'.state.word = c.state.word) (same : phase P' = phase P)
  | slot (t : τ) (tk : Fin N) (ha : a = .session t)
      (step : SlotStep (phase P t tk) (c.state.word tk) (phase P' t tk) (c'.state.word tk))
      (words : ∀ tk', tk' ≠ tk → c'.state.word tk' = c.state.word tk')
      (phases : ∀ u tk', u ≠ t ∨ tk' ≠ tk → phase P' u tk' = phase P u tk')
      (reads : ∀ e, phase P' t tk = .read e → (system N τ).Acts a .loadEpoch e c c')
      (publishes : ∀ e, phase P' t tk = .held e → (system N τ).Acts a (.storeBeginEpoch tk e) () c c')
      (leaves : ∀ e, phase P' t tk = .leaving e → (system N τ).Begins a (.leave tk) c c')

/-- The phases of a thread change as its place does. -/
theorem phase_eq {t : τ} {f : Fin N → Phase} (others : ∀ u, u ≠ .session t → P' u = P u)
    (hf : SessionPlace.slot (P' (.session t)) = f) :
    phase P' = fun u => if u = t then f else phase P u := by
  funext u
  by_cases hu : u = t
  · subst hu
    rw [if_pos rfl, ← hf]
    rfl
  · rw [if_neg hu]
    unfold phase
    rw [others _ fun h => hu (Actor.session.inj h)]

theorem phase_same {t : τ} (others : ∀ u, u ≠ .session t → P' u = P u)
    (hf : SessionPlace.slot (P' (.session t)) = SessionPlace.slot (P (.session t))) : phase P' = phase P := by
  rw [phase_eq others hf]
  funext u
  split
  · rename_i hu
    subst hu
    rfl
  · rfl

theorem phase_update {t u : τ} {tk tk' : Fin N} {ph : Phase} (others : ∀ u, u ≠ .session t → P' u = P u)
    (hf : SessionPlace.slot (P' (.session t)) = Function.update (SessionPlace.slot (P (.session t))) tk ph) :
    phase P' t tk = ph ∧ (u ≠ t ∨ tk' ≠ tk → phase P' u tk' = phase P u tk') := by
  rw [phase_eq others hf]
  refine ⟨by simp, fun h => ?_⟩
  by_cases hu : u = t
  · subst hu
    simp only [if_true]
    exact Function.update_of_ne (h.resolve_left fun h => h rfl) _ _
  · simp [hu]

/-- The phase of one slot changes, and the state at most at this slot. -/
theorem SlotsStep.of_update {t : τ} (tk : Fin N) {ph : Phase} (ph' : Phase) {w : Bool × Nat} (w' : Bool × Nat)
    (others : ∀ u, u ≠ .session t → P' u = P u)
    (hf : SessionPlace.slot (P' (.session t)) = Function.update (SessionPlace.slot (P (.session t))) tk ph')
    (hph : SessionPlace.slot (P (.session t)) tk = ph) (hw : c.state.word tk = w) (hw' : c'.state.word tk = w')
    (hstep : SlotStep ph w ph' w') (words : ∀ tk', tk' ≠ tk → c'.state.word tk' = c.state.word tk')
    (reads : ∀ e, ph' = .read e → (system N τ).Acts (.session t) .loadEpoch e c c')
    (publishes : ∀ e, ph' = .held e → (system N τ).Acts (.session t) (.storeBeginEpoch tk e) () c c')
    (leaves : ∀ e, ph' = .leaving e → (system N τ).Begins (.session t) (.leave tk) c c') :
    SlotsStep (.session t) c P c' P' := by
  have hP' : phase P' t tk = ph' := (@phase_update _ _ _ _ _ _ t tk tk ph' others hf).1
  refine .slot t tk rfl ?_ words (fun u tk' h => (phase_update others hf).2 h) (fun e he => reads e (hP' ▸ he))
    (fun e he => publishes e (hP' ▸ he))
    fun e he => leaves e (hP' ▸ he)
  rw [hP', hw, hw']
  exact (show phase P t tk = ph from hph) ▸ hstep

theorem SlotsStep.of_session {t : τ} {δ : Type} {o : Op N δ} {y : δ} (h : (system N τ).Acts (.session t) o y c c')
    (hg : SessionPlace.Moves o y (P (.session t)) (P' (.session t))) (others : ∀ u, u ≠ .session t → P' u = P u) :
    SlotsStep (.session t) c P c' P' := by
  have hquiet : o.Silent → SessionPlace.slot (P' (.session t)) = SessionPlace.slot (P (.session t)) →
    SlotsStep (.session t) c P c' P' :=
    fun ho hs => .quiet (word_of_silent ho h.performs) (phase_same others hs)
  cases o with
  | loadRunning tk => exact hquiet trivial (by rw [hg])
  | casRunning tk expected desired =>
    obtain ⟨rfl, rfl, hg⟩ := hg
    rcases performs_casRunning h.performs with ⟨hy, hs⟩ | ⟨hy, hr, hs⟩
    · refine .quiet (by rw [hs]) (phase_same others ?_)
      rw [hg, hy]
      rfl
    · rw [hy, if_pos rfl] at hg
      have hw : c.state.word tk = (false, (c.state.info tk).beginEpoch) := Prod.ext hr rfl
      refine .of_update tk .gained (true, (c.state.info tk).beginEpoch) others (by rw [hg]; rfl) rfl hw ?_ .gain
        (fun tk' htk => ?_) nofun nofun nofun
      · rw [hs, State.word_setInfo, if_pos rfl]
      · rw [hs, State.word_setInfo, if_neg htk]
  | loadEpoch =>
    obtain ⟨-, tk, hph, hg⟩ := hg
    have hw := word_of_silent (o := (.loadEpoch : Op N Nat)) trivial h.performs
    refine .of_update tk (.read y) _ others (by rw [hg]; rfl) hph rfl (by rw [hw]) .read (fun _ _ => by rw [hw])
      (fun e he => ?_) nofun nofun
    cases he
    exact h
  | storeBeginEpoch tk e =>
    have hs := performs_storeBeginEpoch h.performs
    have hw : c'.state.word tk = ((c.state.info tk).running, e) := by rw [hs, State.word_setInfo, if_pos rfl]
    have hw' : ∀ tk', tk' ≠ tk → c'.state.word tk' = c.state.word tk' :=
      fun tk' htk => by rw [hs, State.word_setInfo, if_neg htk]
    rcases hg with ⟨hph, hg⟩ | ⟨⟨e', hph⟩, rfl, hg⟩
    · refine .of_update tk _ _ others (by rw [hg]; rfl) hph rfl hw .publish hw' nofun (fun e he => ?_) nofun
      cases he
      exact h
    · exact .of_update tk _ _ others (by rw [hg]; rfl) hph rfl hw .clear hw' nofun nofun nofun
  | storeRunning tk tf =>
    obtain ⟨rfl, hph, hg⟩ := hg
    have hs := performs_storeRunning h.performs
    refine .of_update tk _ (false, (c.state.info tk).beginEpoch) others (by rw [hg]; rfl) hph rfl ?_ .release
      (fun tk' htk => ?_) nofun nofun nofun
    · rw [hs, State.word_setInfo, if_pos rfl]
    · rw [hs, State.word_setInfo, if_neg htk]
  | loadBeginEpoch tk => exact hquiet trivial (by rw [hg.2])
  | push tk c e => exact hquiet trivial (by rw [hg.2.2])
  | _ => exact absurd hg id

omit [DecidableEq τ] in
theorem phase_other (others : ∀ u, u ≠ a → P' u = P u) (ha : ∀ t, a ≠ .session t) : phase P' = phase P := by
  funext u
  unfold phase
  rw [others _ fun h => ha u h.symm]

/-- A thread that is in no session changes no slot. -/
theorem SlotsStep.of_silent {δ : Type} {o : Op N δ} {y : δ} (ha : ∀ t, a ≠ .session t)
    (h : (system N τ).Acts a o y c c') (ho : o.Silent) (others : ∀ u, u ≠ a → P' u = P u) : SlotsStep a c P c' P' := by
  exact .quiet (word_of_silent ho h.performs) (phase_other others ha)

theorem SlotsStep.of_begins {x : Call N} (h : (system N τ).Begins a x c c') (hg : (outline N τ).begins a x (P a) (P' a))
    (others : ∀ u, u ≠ a → P' u = P u) :
    SlotsStep a c P c' P' := by
  have hquiet : phase P' = phase P → SlotsStep a c P c' P' := .quiet (by rw [h.state])
  cases a with
  | session t =>
    cases x with
    | leave tk =>
      obtain ⟨-, -, -, e, hph, hg⟩ := hg
      refine .of_update tk _ _ others hg hph rfl (by rw [h.state]) .leave
        (fun _ _ => by rw [h.state]) nofun nofun fun _ _ => h
    | _ => exact hquiet (phase_same others hg.2.2.2)
  | epoch => exact hquiet (phase_other others nofun)
  | gc => exact hquiet (phase_other others nofun)

theorem SlotsStep.of_step (h : (outline N τ).Step (system N τ) a c P c' P') : SlotsStep a c P c' P' := by
  cases h with
  | begins x h hg others => exact .of_begins h hg others
  | @acts δ o y h hg others =>
    cases a with
    | session t => exact .of_session h hg others
    | epoch =>
      refine .of_silent nofun h ?_ others
      cases o with
      | casRunning | storeRunning | storeBeginEpoch => exact hg
      | _ => trivial
    | gc =>
      refine .of_silent nofun h ?_ others
      cases o with
      | casRunning | storeRunning | storeBeginEpoch => exact hg
      | _ => trivial
  | returns x a h hg same => exact .quiet (by rw [h.state]) (by rw [same])

/-! ### Ownership -/

/-- The begin epoch of a slot in this phase. -/
def Phase.epoch : Phase → Nat
  | .held e | .leaving e => e
  | _ => 0

/-- A slot is owned by at most one thread, its flag says whether it is, and its begin epoch is that of its phase. -/
structure Owned (s : State N) (P : ∀ a : Actor τ, Places N a) : Prop where
  single : ∀ t u tk, phase P t tk ≠ .absent → phase P u tk ≠ .absent → t = u
  word : ∀ t tk, phase P t tk ≠ .absent → s.word tk = (true, (phase P t tk).epoch)
  free : ∀ tk, (∀ t, phase P t tk = .absent) → s.word tk = (false, 0)

omit [DecidableEq τ] in
/-- A step of a slot that nobody else has. -/
theorem Owned.slotStep {t : τ} {tk : Fin N} {ph' : Phase} {w' : Bool × Nat} (h : Owned c.state P)
    (hstep : SlotStep (phase P t tk) (c.state.word tk) ph' w') :
    (∀ u, u ≠ t → phase P u tk = .absent) ∧ w' = if ph' = .absent then (false, 0) else (true, ph'.epoch) := by
  have hne : ∀ {ph}, ph = phase P t tk → ph ≠ .absent → (∀ u, u ≠ t → phase P u tk = .absent) ∧
    c.state.word tk = (true, ph.epoch) := by
    rintro _ rfl hph
    refine ⟨fun u hu => ?_, h.word t tk hph⟩
    by_contra hc
    exact hu (h.single u t tk hc hph)
  generalize hph : phase P t tk = ph at hstep
  generalize hw : c.state.word tk = w at hstep
  cases hstep with
  | gain =>
    have habsent : ∀ u, phase P u tk = .absent := by
      intro u
      by_contra hc
      have hword := h.word u tk hc
      rw [hw] at hword
      cases hword
    have hfree := h.free tk habsent
    rw [hw] at hfree
    cases hfree
    exact ⟨fun u _ => habsent u, rfl⟩
  | read =>
    obtain ⟨hothers, hword⟩ := hne hph.symm nofun
    exact ⟨hothers, hw.symm.trans hword⟩
  | leave =>
    obtain ⟨hothers, hword⟩ := hne hph.symm nofun
    exact ⟨hothers, hw.symm.trans hword⟩
  | publish | clear =>
    obtain ⟨hothers, hword⟩ := hne hph.symm nofun
    rw [hw] at hword
    cases hword
    exact ⟨hothers, rfl⟩
  | release =>
    obtain ⟨hothers, hword⟩ := hne hph.symm nofun
    rw [hw] at hword
    cases hword
    exact ⟨hothers, rfl⟩

theorem Owned.step (h : Owned c.state P) (hstep : SlotsStep a c P c' P') : Owned c'.state P' := by
  cases hstep with
  | quiet word same =>
    refine ⟨?_, ?_, ?_⟩
    · rw [same]
      exact h.single
    · rw [same, word]
      exact h.word
    · rw [same, word]
      exact h.free
  | slot t tk ha step words phases reads publishes leaves =>
    obtain ⟨hothers, hword⟩ := h.slotStep step
    have hnobody : ∀ u, u ≠ t → phase P' u tk = .absent := fun u hu => (phases u tk (Or.inl hu)).trans (hothers u hu)
    have howner : ∀ u, phase P' u tk ≠ .absent → u = t := fun u hu => by_contra fun hne => hu (hnobody u hne)
    refine ⟨fun u v tk' hu hv => ?_, fun u tk' hu => ?_, fun tk' hall => ?_⟩
    · by_cases htk : tk' = tk
      · subst htk
        rw [howner u hu, howner v hv]
      · rw [phases _ _ (Or.inr htk)] at hu hv
        exact h.single u v tk' hu hv
    · by_cases htk : tk' = tk
      · subst htk
        obtain rfl := howner u hu
        rw [hword, if_neg hu]
      · rw [phases _ _ (Or.inr htk)] at hu ⊢
        rw [words tk' htk]
        exact h.word u tk' hu
    · by_cases htk : tk' = tk
      · subst htk
        rw [hword, if_pos (hall t)]
      · rw [words tk' htk]
        exact h.free tk' fun u => (phases u tk' (Or.inr htk)) ▸ hall u

/-- A thread that is in a session stays in it until it leaves. -/
theorem Owned.held {t : τ} {tk : Fin N} {e : Nat} (h : Owned c.state P) (hstep : SlotsStep a c P c' P')
    (he : phase P t tk = .held e) (hleave : ¬ (system N τ).Begins (.session t) (.leave tk) c c') :
    phase P' t tk = .held e := by
  cases hstep with
  | quiet word same => rw [same, he]
  | slot u tk' ha step words phases reads publishes leaves =>
    by_cases hut : u = t ∧ tk' = tk
    · obtain ⟨rfl, rfl⟩ := hut
      have hword := h.word u tk' (by rw [he]; nofun)
      rw [he, hword] at step
      generalize hph : phase P' u tk' = ph' at step
      generalize c'.state.word tk' = w' at step
      cases step with
      | leave => exact absurd (ha ▸ leaves _ hph) hleave
    · rw [phases t tk ?_, he]
      by_contra hc
      rw [not_or, not_not, not_not] at hc
      exact hut ⟨hc.1.symm, hc.2.symm⟩

end

/-! ### Runs -/

/-- The thread is in the session: it got the token and did not call `leave` with it. -/
def Holds (c : Conf N τ) (t : τ) (tk : Fin N) : Prop :=
  holding tk (c.thread (.session t)).done = true ∧ ∀ p, (c.thread (.session t)).active ≠ some (.leave tk, p)

section
variable [DecidableEq τ] {n : Nat} {T : (system N τ).Trace (.start (Op N) (Actor τ) (Call N) (Option (Fin N)) (.init N)) n}
  {i r : Nat} {t : τ} {tk : Fin N}

/-- The call that the thread is in at the moment `i` has read the global epoch `e`. -/
def ReadsEpoch (T : (system N τ).Trace (.start (Op N) (Actor τ) (Call N) (Option (Fin N)) (.init N)) n) (i : Nat)
    (t : τ) (e : Nat) : Prop :=
  ∃ j < i, (system N τ).Acts (.session t) .loadEpoch e (T.conf j) (T.conf (j + 1)) ∧
    ((T.conf j).thread (.session t)).done = ((T.conf i).thread (.session t)).done

/-- The global epoch has not wrapped around up to the moment `i`. -/
def NotWrapped (T : (system N τ).Trace (.start (Op N) (Actor τ) (Call N) (Option (Fin N)) (.init N)) n) (i : Nat) : Prop :=
  ∀ j < i, (T.conf j).state.epoch ≤ (T.conf (j + 1)).state.epoch

theorem epoch_pos (hi : NotWrapped T i) : 0 < (T.conf i).state.epoch := by
  induction i with
  | zero =>
    rw [T.start]
    exact Nat.one_pos
  | succ i ih => exact Nat.lt_of_lt_of_le (ih fun j hj => hi j (by omega)) (hi i (by omega))

/-- What the places say of the threads at the moment `i`. -/
structure Inv (T : (system N τ).Trace (.start (Op N) (Actor τ) (Call N) (Option (Fin N)) (.init N)) n)
    (P : ∀ a : Actor τ, Places N a) (i : Nat) :
    Prop where
  owned : Owned (T.conf i).state P
  call : ∀ t x p, ((T.conf i).thread (.session t)).active = some (x, p) → SessionPlace.call (P (.session t)) = x
  holds : ∀ t tk, Holds (T.conf i) t tk → ∃ e, phase P t tk = .held e
  entered : ∀ t tk e, SessionPlace.entered (P (.session t)) = some (tk, e) →
    ((T.conf i).thread (.session t)).active ≠ none →
    ReadsEpoch T i t e ∧ holding tk ((T.conf i).thread (.session t)).done = false

theorem ReadsEpoch.succ {e : Nat} (h : ReadsEpoch T i t e)
    (hdone : ((T.conf (i + 1)).thread (.session t)).done = ((T.conf i).thread (.session t)).done) :
    ReadsEpoch T (i + 1) t e := by
  obtain ⟨j, hj, hacts, hd⟩ := h
  exact ⟨j, Nat.lt_succ_of_lt hj, hacts, hd.trans hdone.symm⟩

variable {P P' : ∀ a : Actor τ, Places N a} {a : Actor τ}

theorem Inv.step_call (h : Inv T P i) (hs : (outline N τ).Step (system N τ) a (T.conf i) P (T.conf (i + 1)) P') (x : Call N)
    (p : M N (Option (Fin N))) (hx : ((T.conf (i + 1)).thread (.session t)).active = some (x, p)) :
    SessionPlace.call (P' (.session t)) = x := by
  by_cases hat : .session t = a
  · subst hat
    cases hs with
    | begins y hb hg _ =>
      obtain ⟨q, -, hq⟩ := hb.threads
      rw [hq, Function.update_self] at hx
      cases hx
      exact hg.1
    | @acts δ o y ha hg _ =>
      obtain ⟨z, k, hactive, hk⟩ := ha.threads
      rw [hk, Function.update_self] at hx
      cases hx
      rw [← h.call t _ _ hactive]
      exact SessionPlace.Moves.call hg
    | returns y b hr _ _ =>
      rw [hr.threads, Function.update_self] at hx
      cases hx
  · rw [hs.thread_other hat] at hx
    rw [hs.place_other hat]
    exact h.call t x p hx

theorem Inv.step_holds (h : Inv T P i) (hs : (outline N τ).Step (system N τ) a (T.conf i) P (T.conf (i + 1)) P')
    (hh : Holds (T.conf (i + 1)) t tk) : ∃ e, phase P' t tk = .held e := by
  have hleave : ¬ (system N τ).Begins (.session t) (.leave tk) (T.conf i) (T.conf (i + 1)) := by
    intro hb
    obtain ⟨p, -, hp⟩ := hb.threads
    exact hh.2 p (by rw [hp, Function.update_self])
  have hkept : Holds (T.conf i) t tk → ∃ e, phase P' t tk = .held e := by
    intro hi
    obtain ⟨e, he⟩ := h.holds t tk hi
    exact ⟨e, h.owned.held (.of_step hs) he hleave⟩
  by_cases hat : .session t = a
  · subst hat
    cases hs with
    | begins x hb _ _ =>
      obtain ⟨p, -, hp⟩ := hb.threads
      refine hkept ⟨?_, by rw [hb.idle]; nofun⟩
      have hdone := hh.1
      rwa [hp, Function.update_self] at hdone
    | acts o y ha _ _ =>
      obtain ⟨x, k, hactive, hk⟩ := ha.threads
      rw [Holds, hk, Function.update_self] at hh
      refine hkept ⟨hh.1, fun p hp => ?_⟩
      rw [hactive] at hp
      cases hp
      exact hh.2 _ rfl
    | returns x b hr hg same =>
      rw [Holds, hr.threads, Function.update_self] at hh
      rw [same]
      exact SessionPlace.Rests.of_holding hg hh.1
  · refine hkept ?_
    rwa [Holds, hs.thread_other hat] at hh

theorem Inv.step_entered {e : Nat} (h : Inv T P i) (hs : (outline N τ).Step (system N τ) a (T.conf i) P (T.conf (i + 1)) P')
    (he : SessionPlace.entered (P' (.session t)) = some (tk, e))
    (hactive : ((T.conf (i + 1)).thread (.session t)).active ≠ none) :
    ReadsEpoch T (i + 1) t e ∧ holding tk ((T.conf (i + 1)).thread (.session t)).done = false := by
  by_cases hat : .session t = a
  · subst hat
    cases hs with
    | begins x hb hg _ =>
      rw [hg.2.1] at he
      cases he
    | @acts δ o y ha hg _ =>
      obtain ⟨x, k, hx, hk⟩ := ha.threads
      have hdone : ((T.conf (i + 1)).thread (.session t)).done =
        ((T.conf i).thread (.session t)).done := by rw [hk, Function.update_self]
      have hkept : SessionPlace.entered (P' (.session t)) = SessionPlace.entered (P (.session t)) →
          ReadsEpoch T (i + 1) t e ∧ holding tk ((T.conf (i + 1)).thread (.session t)).done = false := by
        intro heq
        obtain ⟨hread, hnot⟩ := h.entered t tk e (heq ▸ he) (by rw [hx]; nofun)
        exact ⟨hread.succ hdone, hdone ▸ hnot⟩
      cases o with
      | loadRunning => exact hkept (by rw [hg])
      | casRunning =>
        refine hkept ?_
        rw [hg.2.2]
        split <;> rfl
      | loadEpoch =>
        obtain ⟨hcall, tk', hgained, hg⟩ := hg
        rw [hg] at he
        cases he
        refine ⟨⟨i, Nat.lt_succ_self i, ha, hdone.symm⟩, ?_⟩
        -- The slot was free, so the thread did not have it before.
        by_contra hc
        have hheld : Holds (T.conf i) t tk := by
          refine ⟨by simpa [hdone] using hc, fun p hp => ?_⟩
          rw [h.call t _ _ hp] at hcall
          cases hcall
        obtain ⟨e', he'⟩ := h.holds t tk hheld
        exact absurd (hgained.symm.trans he') nofun
      | storeBeginEpoch => exact hkept (by rcases hg with ⟨-, hg⟩ | ⟨-, -, hg⟩ <;> rw [hg] <;> rfl)
      | storeRunning => exact hkept (by rw [hg.2.2]; rfl)
      | loadBeginEpoch => exact hkept (by rw [hg.2])
      | push => exact hkept (by rw [hg.2.2])
      | _ => exact absurd hg id
    | returns x b hr _ _ =>
      rw [hr.threads, Function.update_self] at hactive
      exact absurd rfl hactive
  · rw [hs.thread_other hat] at hactive ⊢
    rw [hs.place_other hat] at he
    obtain ⟨hread, hnot⟩ := h.entered t tk e he hactive
    exact ⟨hread.succ (by rw [hs.thread_other hat]), hnot⟩

theorem Inv.start (R : (outline N τ).Run T) : Inv T (R.places 0) 0 := by
  have hph : ∀ t tk, phase (R.places 0) t tk = .absent := by
    intro t tk
    rw [R.start]
    rfl
  refine ⟨⟨fun t u tk ht => absurd (hph t tk) ht, fun t tk ht => absurd (hph t tk) ht, fun tk _ => ?_⟩, ?_, ?_, ?_⟩
  · rw [T.start]
    rfl
  · intro t x p hx
    rw [T.start] at hx
    cases hx
  · intro t tk hh
    rw [T.start] at hh
    cases hh.1
  · intro t tk e he
    rw [R.start] at he
    cases he

theorem inv_of_run (R : (outline N τ).Run T) (i : Nat) (hi : i ≤ n) : Inv T (R.places i) i :=
  R.invariant (P := fun i => Inv T (R.places i) i) (.start R)
    (fun _ _ _ _ hs h =>
      ⟨h.owned.step (.of_step hs), fun _ => h.step_call hs, fun _ _ => h.step_holds hs, fun _ _ _ => h.step_entered hs⟩)
    i (Nat.zero_le i) hi

/-- A thread is in its session from the return of `enter` until it calls `leave`. -/
theorem held_since (R : (outline N τ).Run T) {e : Nat} (he : phase (R.places r) t tk = .held e) (hri : r ≤ i) (hi : i ≤ n)
    (hleave : ∀ l, r < l → l ≤ i → ∀ p, ((T.conf l).thread (.session t)).active ≠ some (.leave tk, p)) :
    phase (R.places i) t tk = .held e := by
  refine R.invariant (P := fun j => j ≤ i → phase (R.places j) t tk = .held e) (fun _ => he)
    (fun j hj hrj a hs ih hji => ?_) i hri hi (Nat.le_refl i)
  refine (inv_of_run R j (by omega)).owned.held (.of_step hs) (ih (by omega)) fun hb => ?_
  obtain ⟨p, -, hp⟩ := hb.threads
  exact hleave (j + 1) (by omega) hji p (by rw [hp, Function.update_self])

/-- What an `enter` leaves when it returns. -/
theorem enter_returns (R : (outline N τ).Run T) (hr : r < n)
    (h : (T.conf r).Returns (.session t) .enter (some tk) (T.conf (r + 1))) :
    ∃ e, phase (R.places (r + 1)) t tk = .held e ∧ phase (R.places r) t tk = .held e ∧ ReadsEpoch T r t e ∧
      holding tk ((T.conf r).thread (.session t)).done = false := by
  have hfits := R.fits r (by omega) (.session t)
  rw [Outline.At, h.active] at hfits
  obtain ⟨e, hentered, hheld⟩ := SessionPlace.Rests.entered hfits tk _ rfl
  obtain ⟨hread, hnot⟩ := (inv_of_run R r (by omega)).entered t tk e hentered (by rw [h.active]; simp)
  refine ⟨e, held_since R hheld (Nat.le_succ r) hr fun l hl hl' p hp => ?_, hheld, hread, hnot⟩
  obtain rfl : l = r + 1 := by omega
  rw [h.threads, Function.update_self] at hp
  cases hp

/-- The sessions of a run: nobody gets a token that someone has, two threads never have one token, and from the return of
    `enter` until the thread calls `leave` the flag of the slot is set and its begin epoch is the one that this `enter`
    read. -/
theorem sessions_exclusive_and_published {N : Nat} {τ : Type} [DecidableEq τ] {n : Nat}
    (T : (system N τ).Trace (.start (Op N) (Actor τ) (Call N) (Option (Fin N)) (.init N)) n) :
    (∀ i ≤ n, ∀ t u tk, Holds (T.conf i) t tk → Holds (T.conf i) u tk → t = u) ∧
    (∀ r < n, ∀ t tk, (T.conf r).Returns (.session t) .enter (some tk) (T.conf (r + 1)) → (∀ u, ¬ Holds (T.conf r) u tk) ∧
      ∃ e, ReadsEpoch T r t e ∧ (NotWrapped T r → e ≠ 0) ∧ ∀ i, r < i → i ≤ n →
        (∀ l, r < l → l ≤ i → ∀ p, ((T.conf l).thread (.session t)).active ≠ some (.leave tk, p)) →
        ((T.conf i).state.info tk).running = true ∧ ((T.conf i).state.info tk).beginEpoch = e) := by
  obtain ⟨R⟩ := outline_valid.exists_run T
  refine ⟨fun i hi t u tk ht hu => ?_, fun r hr t tk hret => ?_⟩
  · have hinv := inv_of_run R i hi
    obtain ⟨e, he⟩ := hinv.holds t tk ht
    obtain ⟨e', he'⟩ := hinv.holds u tk hu
    exact hinv.owned.single t u tk (by rw [he]; nofun) (by rw [he']; nofun)
  · obtain ⟨e, hheld, hheld', hread, hnot⟩ := enter_returns R hr hret
    refine ⟨fun u hu => ?_, e, hread, fun hwrap => ?_, fun i hri hi hleave => ?_⟩
    · have hinv := inv_of_run R r (by omega)
      obtain ⟨e', he'⟩ := hinv.holds u tk hu
      obtain rfl := hinv.owned.single u t tk (by rw [he']; nofun) (by rw [hheld']; nofun)
      rw [hu.1] at hnot
      cases hnot
    · obtain ⟨j, hj, hacts, -⟩ := hread
      have hpos := epoch_pos (T := T) (i := j) fun l hl => hwrap l (by omega)
      rcases hacts.performs with h | ⟨h, -⟩
      · have he : (T.conf j).state.epoch = e := congrArg Prod.fst h
        exact he ▸ Nat.ne_of_gt hpos
      · exact absurd h id
    · have hword := (inv_of_run R i hi).owned.word t tk
      rw [held_since R hheld hri hi fun l hl => hleave l (by omega)] at hword
      exact Prod.ext_iff.mp (hword nofun)

end

end Session
end Yakushima
