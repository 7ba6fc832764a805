import Yakushima.Lib.Schedule
import Yakushima.Theorems.SessionSlot

/-! # Reclamation by epochs

A session that publishes its epoch in time is at most one epoch behind the global one, and an object that is retired in
a session is then not freed while any session of that moment goes on. -/

namespace Yakushima
namespace Session
open Lib

variable {N : Nat} {τ : Type}

/-! ### The clock -/

theorem pred_of_pos {e : Nat} (h : 1 ≤ e) (he : e < epochSize) : pred e = e - 1 := by
  have hsize : epochSize = 2 ^ 64 := rfl
  have heq : e + maxEpoch = e - 1 + epochSize := by
    rw [maxEpoch, hsize]
    omega
  rw [pred, heq, Nat.add_mod_right, Nat.mod_eq_of_lt (by omega)]

/-- The epochs of a moment: the begin epochs are at most one behind, those that the verification scan has passed are
    not behind, and everything that may become a `gc_epoch` is behind. -/
structure Clock (s : State N) (g : EpochPlace N) (d : GcPlace) : Prop where
  pos : 1 ≤ s.epoch
  size : s.epoch < epochSize
  gcEpoch : s.gcEpoch < s.epoch
  begins : ∀ tk, (s.info tk).beginEpoch = 0 ∨ (s.info tk).beginEpoch = s.epoch ∨ (s.info tk).beginEpoch + 1 = s.epoch
  verifying : ∀ cur table, g = .verifying cur table →
    cur = s.epoch ∧ ∀ tk, tk ∉ table → (s.info tk).beginEpoch = 0 ∨ (s.info tk).beginEpoch = s.epoch
  scanning : ∀ table m, g = .scanning table m → 1 ≤ m ∧ (m ≤ s.epoch ∨ m = maxEpoch)
  storing : ∀ e, g = .storing e → e < s.epoch
  collecting : ∀ e h, d = .collecting e h → e < s.epoch

/-- What the session `tk` with the begin epoch `e` needs so that an object with the tag `r` is not freed. -/
structure Protected (s : State N) (g : EpochPlace N) (d : GcPlace) (tk : Fin N) (e r : Nat) : Prop where
  begin : e ≤ r + 1
  gcEpoch : s.gcEpoch ≤ r
  scanning : ∀ table m, g = .scanning table m → tk ∈ table ∨ m ≤ r + 1 ∨ s.epoch ≤ r + 1
  storing : ∀ v, g = .storing v → v ≤ r
  collecting : ∀ v h, d = .collecting v h → v ≤ r

section
variable {s s' : State N} {g g' : EpochPlace N} {d d' : GcPlace} {tk : Fin N} {e r : Nat} {δ : Type} {o : Op N δ} {y : δ}

/-- The operations that change no epoch but begin epochs. -/
def Op.Still {δ : Type} : Op N δ → Prop
  | .incEpoch | .storeGcEpoch _ => False
  | _ => True

theorem epochs_of_still (ho : o.Still) (h : Performs o s y s') : s'.epoch = s.epoch ∧ s'.gcEpoch = s.gcEpoch := by
  rcases h with h | ⟨-, rfl⟩
  · cases o with
    | incEpoch | storeGcEpoch => exact absurd ho id
    | casRunning tk expected desired =>
      simp only [exec] at h
      split at h <;> cases h <;> exact ⟨rfl, rfl⟩
    | _ =>
      cases h
      exact ⟨rfl, rfl⟩
  · exact ⟨rfl, rfl⟩

theorem State.beginEpoch_of_word (h : s'.word = s.word) (tk : Fin N) : (s'.info tk).beginEpoch = (s.info tk).beginEpoch :=
  congrArg Prod.snd (congrFun h tk)

/-- A step that keeps the epochs and publishes begin epochs in time. -/
theorem Clock.of_begins (h : Clock s g d) (he : s'.epoch = s.epoch) (hgc : s'.gcEpoch = s.gcEpoch)
    (hb : ∀ tk, (s'.info tk).beginEpoch = (s.info tk).beginEpoch ∨ (s'.info tk).beginEpoch = 0 ∨
      (s'.info tk).beginEpoch = s.epoch ∨
      ((s'.info tk).beginEpoch + 1 = s.epoch ∧ ∀ cur table, g = .verifying cur table → tk ∈ table)) : Clock s' g d where
  pos := he ▸ h.pos
  size := he ▸ h.size
  gcEpoch := by
    rw [he, hgc]
    exact h.gcEpoch
  begins := by
    intro tk
    rw [he]
    rcases hb tk with hb | hb | hb | ⟨hb, -⟩
    · rw [hb]
      exact h.begins tk
    · exact Or.inl hb
    · exact Or.inr (Or.inl hb)
    · exact Or.inr (Or.inr hb)
  verifying := by
    intro cur table hg
    obtain ⟨hcur, hpassed⟩ := h.verifying cur table hg
    rw [he]
    refine ⟨hcur, fun tk htk => ?_⟩
    rcases hb tk with hb | hb | hb | ⟨-, hb⟩
    · rw [hb]
      exact hpassed tk htk
    · exact Or.inl hb
    · exact Or.inr hb
    · exact absurd (hb cur table hg) htk
  scanning := by
    rw [he]
    exact h.scanning
  storing := by
    rw [he]
    exact h.storing
  collecting := by
    rw [he]
    exact h.collecting

theorem exec_of_epoch (hg : EpochPlace.Moves o y g g') (h : Performs o s y s') : exec o s = (y, s') := by
  rcases h with h | ⟨h, -⟩
  · exact h
  · cases o with
    | casRunning => exact absurd hg id
    | _ => exact absurd h id

theorem exec_of_gc (hd : GcPlace.Moves o y d d') (h : Performs o s y s') : exec o s = (y, s') := by
  rcases h with h | ⟨h, -⟩
  · exact h
  · cases o with
    | casRunning => exact absurd hd id
    | _ => exact absurd h id

/-- The epoch thread moves on while the epochs stay. -/
theorem Clock.of_place (h : Clock s g d)
    (hverifying : ∀ cur table, g' = .verifying cur table →
      cur = s.epoch ∧ ∀ tk, tk ∉ table → (s.info tk).beginEpoch = 0 ∨ (s.info tk).beginEpoch = s.epoch)
    (hscanning : ∀ table m, g' = .scanning table m → 1 ≤ m ∧ (m ≤ s.epoch ∨ m = maxEpoch))
    (hstoring : ∀ e, g' = .storing e → e < s.epoch) : Clock s g' d :=
  ⟨h.pos, h.size, h.gcEpoch, h.begins, hverifying, hscanning, hstoring, h.collecting⟩

/-- A step of the epoch thread, without a wrap around. -/
theorem Clock.epoch (h : Clock s g d) (hg : EpochPlace.Moves o y g g') (hp : Performs o s y s')
    (hwrap : s.epoch ≤ s'.epoch) : Clock s' g' d := by
  have hexec := exec_of_epoch hg hp
  have hsize : epochSize = 2 ^ 64 := rfl
  have hlt := h.size
  have hpos := h.pos
  cases o with
  | loadEpoch =>
    cases hexec
    rcases hg with ⟨rfl, rfl⟩ | ⟨rfl, rfl⟩
    · refine h.of_place ?_ nofun nofun
      rintro cur table ⟨⟩
      exact ⟨rfl, fun tk htk => absurd (List.mem_finRange tk) htk⟩
    · refine h.of_place nofun nofun ?_
      intro e he
      rw [← EpochPlace.storing.inj he, pred_of_pos hpos hlt]
      omega
  | loadBeginEpoch tk =>
    cases hexec
    rcases hg with ⟨cur, table, rfl, rfl⟩ | ⟨table, m, rfl, rfl⟩
    · obtain ⟨hcur, hpassed⟩ := h.verifying _ _ rfl
      split
      · exact h.of_place nofun nofun nofun
      · rename_i hb
        refine h.of_place ?_ nofun nofun
        rintro cur' table' ⟨⟩
        refine ⟨hcur, fun tk' htk' => ?_⟩
        by_cases htk : tk' = tk
        · subst htk
          omega
        · exact hpassed tk' (by simp [htk, htk'])
    · obtain ⟨hm, hle⟩ := h.scanning _ _ rfl
      have hb := h.begins tk
      refine h.of_place nofun ?_ nofun
      rintro table' m' ⟨⟩
      split
      · have hmin : Nat.min m (s.info tk).beginEpoch ≤ m ∧ Nat.min m (s.info tk).beginEpoch ≤ (s.info tk).beginEpoch :=
          ⟨Nat.min_le_left .., Nat.min_le_right ..⟩
        have hmin' : 1 ≤ Nat.min m (s.info tk).beginEpoch := Nat.le_min.mpr ⟨hm, by omega⟩
        exact ⟨hmin', Or.inl (by omega)⟩
      · exact ⟨hm, hle⟩
  | incEpoch =>
    obtain ⟨⟨cur, rfl⟩, rfl⟩ := hg
    cases hexec
    obtain ⟨-, hpassed⟩ := h.verifying _ _ rfl
    -- Without a wrap around the new epoch is one more than the old one, which all begin epochs have.
    have hnext : (s.epoch + 1) % epochSize = s.epoch + 1 := by
      simp only at hwrap
      rw [hsize] at *
      omega
    have hgc := h.gcEpoch
    refine ⟨?_, ?_, ?_, fun tk => ?_, nofun, ?_, nofun, fun e hh hd => ?_⟩
    · exact Nat.le_trans hpos hwrap
    · exact Nat.mod_lt _ (by rw [hsize]; omega)
    · exact Nat.lt_of_lt_of_le hgc hwrap
    · show (s.info tk).beginEpoch = 0 ∨ (s.info tk).beginEpoch = (s.epoch + 1) % epochSize ∨
        (s.info tk).beginEpoch + 1 = (s.epoch + 1) % epochSize
      have hb := hpassed tk List.not_mem_nil
      omega
    · rintro table m ⟨⟩
      exact ⟨by decide, Or.inr rfl⟩
    · exact Nat.lt_of_lt_of_le (h.collecting e hh hd) hwrap
  | storeGcEpoch e =>
    obtain ⟨hg, rfl⟩ := hg
    cases hexec
    have hgc : e < s.epoch := by
      rcases hg with ⟨m, rfl, hne, he⟩ | rfl
      · obtain ⟨hm, hle⟩ := h.scanning _ _ rfl
        have hle := hle.resolve_right hne
        rw [he, pred_of_pos hm (by omega)]
        omega
      · exact h.storing e rfl
    exact ⟨hpos, hlt, hgc, h.begins, nofun, nofun, nofun, h.collecting⟩
  | _ => exact absurd hg id

/-- The gc thread reads the `gc_epoch` and keeps it. -/
theorem GcPlace.Moves.collecting (hd : GcPlace.Moves o y d d') (h : Performs o s y s') {e : Nat} {hand : Option Elem}
    (hd' : d' = .collecting e hand) : e = s.gcEpoch ∨ ∃ hand', d = .collecting e hand' := by
  cases o with
  | loadGcEpoch =>
    cases exec_of_gc hd h
    cases hd.symm.trans hd'
    exact Or.inl rfl
  | loadCache | tryPop =>
    obtain ⟨e', hand', rfl, hd⟩ := hd
    cases hd.symm.trans hd'
    exact Or.inr ⟨_, rfl⟩
  | empty => exact Or.inr ⟨hand, hd.symm.trans hd'⟩
  | storeCache =>
    obtain ⟨e', hand', rfl, -, hd⟩ := hd
    cases hd.symm.trans hd'
    exact Or.inr ⟨_, rfl⟩
  | delete =>
    obtain ⟨e', rfl, -, hd⟩ := hd
    cases hd.symm.trans hd'
    exact Or.inr ⟨_, rfl⟩
  | _ => exact absurd hd id

theorem GcPlace.Moves.still (hd : GcPlace.Moves o y d d') : o.Still ∧ o.Silent := by
  cases o with
  | casRunning | storeRunning | storeBeginEpoch | incEpoch | storeGcEpoch => exact absurd hd id
  | _ => exact ⟨trivial, trivial⟩

/-- A step of the gc thread. -/
theorem Clock.gc (h : Clock s g d) (hd : GcPlace.Moves o y d d') (hp : Performs o s y s') : Clock s' g d' := by
  obtain ⟨he, hgc⟩ := epochs_of_still hd.still.1 hp
  have hb := State.beginEpoch_of_word (word_of_silent hd.still.2 hp)
  have h' : Clock s' g d := h.of_begins he hgc fun tk => Or.inl (hb tk)
  refine ⟨h'.pos, h'.size, h'.gcEpoch, h'.begins, h'.verifying, h'.scanning, h'.storing, fun e hand hd' => ?_⟩
  rcases hd.collecting hp hd' with rfl | ⟨hand', hd⟩
  · rw [he]
    exact h.gcEpoch
  · exact h'.collecting e hand' hd

/-! ### Protection -/

/-- An object that is retired now is protected from what is there. -/
theorem Clock.protects (h : Clock s g d) (hr : s.epoch ≤ r + 1) (he : e ≤ s.epoch) : Protected s g d tk e r where
  begin := Nat.le_trans he hr
  gcEpoch := by
    have hgc := h.gcEpoch
    omega
  scanning := fun _ _ _ => Or.inr (Or.inr hr)
  storing := by
    intro v hv
    have hlt := h.storing v hv
    omega
  collecting := by
    intro v hand hv
    have hlt := h.collecting v hand hv
    omega

theorem Protected.still (h : Protected s g d tk e r) (he : s'.epoch = s.epoch) (hgc : s'.gcEpoch = s.gcEpoch) :
    Protected s' g d tk e r :=
  ⟨h.begin, hgc ▸ h.gcEpoch, he ▸ h.scanning, h.storing, h.collecting⟩

/-- A step of the epoch thread while the session goes on. -/
theorem Protected.epoch (h : Protected s g d tk e r) (hc : Clock s g d) (hb : (s.info tk).beginEpoch = e) (he : e ≠ 0)
    (hg : EpochPlace.Moves o y g g') (hp : Performs o s y s') : Protected s' g' d tk e r := by
  have hexec := exec_of_epoch hg hp
  have hsize : epochSize = 2 ^ 64 := rfl
  have hmax : maxEpoch = epochSize - 1 := rfl
  have hlt := hc.size
  have hpos := hc.pos
  cases o with
  | loadEpoch =>
    cases hexec
    rcases hg with ⟨rfl, rfl⟩ | ⟨rfl, rfl⟩
    · exact ⟨h.begin, h.gcEpoch, nofun, nofun, h.collecting⟩
    · refine ⟨h.begin, h.gcEpoch, nofun, ?_, h.collecting⟩
      intro v hv
      rw [← EpochPlace.storing.inj hv, pred_of_pos hpos hlt]
      rcases h.scanning _ _ rfl with hs | hs | hs
      · cases hs
      · omega
      · omega
  | loadBeginEpoch tk' =>
    cases hexec
    rcases hg with ⟨cur, table, rfl, rfl⟩ | ⟨table, m, rfl, rfl⟩
    · refine ⟨h.begin, h.gcEpoch, ?_, ?_, h.collecting⟩ <;> split <;> nofun
    · refine ⟨h.begin, h.gcEpoch, ?_, nofun, h.collecting⟩
      rintro table' m' ⟨⟩
      have hbegin := h.begin
      rcases h.scanning _ _ rfl with hs | hs | hs
      · rcases List.mem_cons.mp hs with rfl | hs
        · rw [if_pos (by rw [hb]; exact he), hb]
          exact Or.inr (Or.inl (Nat.le_trans (Nat.min_le_right ..) hbegin))
        · exact Or.inl hs
      · refine Or.inr (Or.inl ?_)
        split
        · exact Nat.le_trans (Nat.min_le_left ..) hs
        · exact hs
      · exact Or.inr (Or.inr hs)
  | incEpoch =>
    obtain ⟨-, rfl⟩ := hg
    cases hexec
    refine ⟨h.begin, h.gcEpoch, ?_, nofun, h.collecting⟩
    rintro table m ⟨⟩
    exact Or.inl (List.mem_finRange tk)
  | storeGcEpoch v =>
    obtain ⟨hg, rfl⟩ := hg
    cases hexec
    refine ⟨h.begin, ?_, nofun, nofun, h.collecting⟩
    show v ≤ r
    rcases hg with ⟨m, rfl, hne, hv⟩ | rfl
    · obtain ⟨hm, hle⟩ := hc.scanning _ _ rfl
      have hle := hle.resolve_right hne
      rw [hv, pred_of_pos hm (by omega)]
      rcases h.scanning _ _ rfl with hs | hs | hs
      · cases hs
      · omega
      · omega
    · exact h.storing v rfl
  | _ => exact absurd hg id

/-- A step of the gc thread. -/
theorem Protected.gc (h : Protected s g d tk e r) (hd : GcPlace.Moves o y d d') (hp : Performs o s y s') :
    Protected s' g d' tk e r := by
  obtain ⟨he, hgc⟩ := epochs_of_still hd.still.1 hp
  refine ⟨h.begin, hgc ▸ h.gcEpoch, he ▸ h.scanning, h.storing, fun v hand hd' => ?_⟩
  rcases hd.collecting hp hd' with rfl | ⟨hand', hd⟩
  · exact h.gcEpoch
  · exact h.collecting v hand' hd

end

/-! ### The verification scan -/

/-- The program of the epoch thread from the end of a verification scan on. -/
def verifyRest (fuel : Nat) (verified : Bool) : M N (Option (Fin N)) :=
  (if verified then pure () else verifyLoop fuel) >>= fun _ => advance >>= fun _ => pure none

/-- The epoch thread is in a verification scan that has passed the slot. -/
def Passed (c : Conf N τ) (tk : Fin N) : Prop :=
  ∃ fuel cur table, (c.thread .epoch).active = some (.epochRound, verify cur table >>= verifyRest fuel) ∧ tk ∉ table

/-- What is left of the program of the epoch thread while it verifies. -/
def Shaped (th : Thread (Op N) (Call N) (Option (Fin N))) : EpochPlace N → Prop
  | .starting => ∃ fuel, th.active = some (.epochRound, verifyRest fuel false)
  | .verifying cur table => ∃ fuel, th.active = some (.epochRound, verify cur table >>= verifyRest fuel)
  | _ => True

section
variable {th : Thread (Op N) (Call N) (Option (Fin N))} {g g' : EpochPlace N} {δ : Type} {o : Op N δ} {y : δ} {x : Call N}
  {k : δ → M N (Option (Fin N))}

theorem prog_epochRound (fuel : Nat) : Call.prog fuel (.epochRound : Call N) = verifyRest fuel false := by
  show (verifyLoop fuel >>= fun _ => advance) >>= (fun _ => pure none) = verifyLoop fuel >>= fun _ => advance >>=
    fun _ => pure none
  rw [Prog.bind_assoc]

theorem verifyRest_succ (fuel : Nat) : verifyRest (N := N) (fuel + 1) false =
    .step .loadEpoch fun cur => verify cur (List.finRange N) >>= verifyRest fuel := by
  show Prog.step _ (fun cur => (verify cur (List.finRange N) >>= fun b => if b then pure () else verifyLoop fuel) >>= _) = _
  congr 1
  funext cur
  rw [Prog.bind_assoc]
  rfl

theorem Shaped.step (h : Shaped th g) (hactive : th.active = some (x, .step o k)) (hg : EpochPlace.Moves o y g g') :
    Shaped ⟨th.done, some (x, k y)⟩ g' := by
  cases o with
  | loadEpoch =>
    rcases hg with ⟨rfl, rfl⟩ | ⟨rfl, rfl⟩
    · obtain ⟨fuel, hfuel⟩ := h
      cases fuel with
      | zero => cases hactive.symm.trans hfuel
      | succ fuel =>
        rw [verifyRest_succ] at hfuel
        cases hactive.symm.trans hfuel
        exact ⟨fuel, rfl⟩
    · trivial
  | loadBeginEpoch tk =>
    rcases hg with ⟨cur, table, rfl, rfl⟩ | ⟨table, m, rfl, rfl⟩
    · obtain ⟨fuel, hfuel⟩ := h
      cases hactive.symm.trans hfuel
      split
      · rename_i hy
        refine ⟨fuel, ?_⟩
        show some (Call.epochRound, (if y ≠ 0 ∧ y ≠ cur then pure false else verify cur table) >>= verifyRest fuel) = _
        rw [if_pos hy]
        rfl
      · rename_i hy
        refine ⟨fuel, ?_⟩
        show some (Call.epochRound, (if y ≠ 0 ∧ y ≠ cur then pure false else verify cur table) >>= verifyRest fuel) = _
        rw [if_neg hy]
    · trivial
  | incEpoch =>
    obtain ⟨-, rfl⟩ := hg
    trivial
  | storeGcEpoch e =>
    obtain ⟨-, rfl⟩ := hg
    trivial
  | _ => exact absurd hg id

end

/-! ### Elements -/

/-- The element is in a container, or in the hand of the gc thread. -/
def Contains (s : State N) (d : GcPlace) (el : Elem) : Prop := (∃ tk c, el ∈ ((s.info tk).gcInfo c).held) ∨
    ∃ e, d = .collecting e (some el)

/-- The elements that an operation puts into a container. -/
def Op.Adds {δ : Type} (s : State N) (el : Elem) : Op N δ → Prop
  | .push _ _ e => el = (e, s.retired)
  | .storeCache _ _ x => x = some el
  | _ => False

def Op.Pushes {δ : Type} : Op N δ → Prop
  | .push _ _ _ => True
  | _ => False

section
variable {s s' : State N} {d d' : GcPlace} {el : Elem} {δ : Type} {o : Op N δ} {y : δ}

theorem gcInfo_setInfo {tk tk' : Fin N} {c : Garbage} {f : ThreadInfo → ThreadInfo} (hf : ∀ i, (f i).gcInfo = i.gcInfo) :
    ((s.setInfo tk f).info tk').gcInfo c = (s.info tk').gcInfo c := by
  by_cases h : tk' = tk
  · subst h
    simp [State.setInfo, hf]
  · simp [State.setInfo, h]

theorem gcInfo_setContainer {tk tk' : Fin N} {c c' : Garbage} {f : Container Nat → Container Nat} :
    ((s.setContainer tk c f).info tk').gcInfo c' = if tk' = tk ∧ c' = c then f ((s.info tk).gcInfo c)
    else (s.info tk').gcInfo c' := by
  by_cases h : tk' = tk
  · subst h
    by_cases hc : c' = c
    · subst hc
      simp [State.setContainer, State.setInfo]
    · simp [State.setContainer, State.setInfo, hc]
  · simp [State.setContainer, State.setInfo, h]

theorem held_of_setContainer (tk : Fin N) {tk' : Fin N} {c c' : Garbage} {f : Container Nat → Container Nat} {Q : Prop}
    (hf : ∀ q : Container Nat, el ∈ (f q).held → el ∈ q.held ∨ Q)
    (h : el ∈ (((s.setContainer tk c f).info tk').gcInfo c').held) :
    (∃ tk c, el ∈ ((s.info tk).gcInfo c).held) ∨ Q := by
  rw [gcInfo_setContainer] at h
  split at h
  · exact (hf _ h).imp_left fun h => ⟨tk, c, h⟩
  · exact Or.inl ⟨tk', c', h⟩

/-- An element in a container was in one, or it is put there. -/
theorem held_of_performs {tk : Fin N} {c : Garbage} (h : Performs o s y s') (hel : el ∈ ((s'.info tk).gcInfo c).held) :
    (∃ tk c, el ∈ ((s.info tk).gcInfo c).held) ∨ o.Adds s el := by
  rcases h with h | ⟨-, rfl⟩
  · cases o with
    | casRunning tk' expected desired =>
      simp only [exec] at h
      split at h <;> cases h
      · exact Or.inl ⟨tk, c, by rwa [gcInfo_setInfo (by simp)] at hel⟩
      · exact Or.inl ⟨tk, c, hel⟩
    | storeRunning | storeBeginEpoch =>
      cases h
      exact Or.inl ⟨tk, c, by rwa [gcInfo_setInfo (by simp)] at hel⟩
    | push tk' c' e =>
      cases h
      refine held_of_setContainer (s := s) tk' (c := c') (f := (·.push (e, s.retired))) (fun q hq => ?_) hel
      show el ∈ q.held ∨ el = (e, s.retired)
      simpa [Container.held, Container.push, or_assoc] using hq
    | tryPop tk' c' =>
      cases h
      refine (held_of_setContainer _ (Q := False) (fun q hq => Or.inl ?_) hel).imp_right False.elim
      simp only [Container.held, List.mem_append] at hq ⊢
      exact hq.imp_right List.mem_of_mem_tail
    | storeCache tk' c' x =>
      cases h
      refine held_of_setContainer _ (fun q hq => ?_) hel
      simp only [Container.held, List.mem_append, Option.mem_toList] at hq ⊢
      exact hq.elim Or.inr fun hq => Or.inl (Or.inr hq)
    | _ =>
      cases h
      exact Or.inl ⟨tk, c, hel⟩
  · exact Or.inl ⟨tk, c, hel⟩

theorem retired_of_performs (h : Performs o s y s') : (o.Pushes ∧ s'.retired = s.retired + 1) ∨
    (¬ o.Pushes ∧ s'.retired = s.retired) := by
  rcases h with h | ⟨hw, rfl⟩
  · cases o with
    | push =>
      cases h
      exact Or.inl ⟨trivial, rfl⟩
    | casRunning tk expected desired =>
      simp only [exec] at h
      split at h <;> cases h <;> exact Or.inr ⟨id, rfl⟩
    | _ =>
      cases h
      exact Or.inr ⟨id, rfl⟩
  · cases o with
    | push => exact absurd hw id
    | _ => exact Or.inr ⟨id, rfl⟩

/-- What is in the hand of the gc thread was in a container or in its hand. -/
theorem hand_of_gc (hd : GcPlace.Moves o y d d') (h : Performs o s y s') {e : Nat}
    (hel : d' = .collecting e (some el)) : Contains s d el := by
  have hexec := exec_of_gc hd h
  cases o with
  | loadGcEpoch => cases hd.symm.trans hel
  | loadCache tk c =>
    obtain ⟨e', hand, -, hd⟩ := hd
    cases hd.symm.trans hel
    have hcache : ((s.info tk).gcInfo c).cache = some el := congrArg Prod.fst hexec
    exact Or.inl ⟨tk, c, by simp [Container.held, hcache]⟩
  | tryPop tk c =>
    obtain ⟨e', hand, -, hd⟩ := hd
    cases hd.symm.trans hel
    have hhead : ((s.info tk).gcInfo c).queue.head? = some el := congrArg Prod.fst hexec
    exact Or.inl ⟨tk, c, List.mem_append_right _ (List.mem_of_mem_head? hhead)⟩
  | empty => exact Or.inr ⟨e, hd.symm.trans hel⟩
  | storeCache =>
    obtain ⟨e', hand, -, -, hd⟩ := hd
    cases hd.symm.trans hel
  | delete =>
    obtain ⟨e', -, -, hd⟩ := hd
    cases hd.symm.trans hel
  | _ => exact absurd hd id

theorem Contains.gc (hd : GcPlace.Moves o y d d') (h : Performs o s y s') (hel : Contains s' d' el) : Contains s d el := by
  rcases hel with ⟨tk, c, hel⟩ | ⟨e, hel⟩
  · rcases held_of_performs h hel with hel | hadds
    · exact Or.inl hel
    · cases o with
      | storeCache tk c x =>
        obtain ⟨e, hand, rfl, hx, -⟩ := hd
        have hx' : hand = some el := by
          rcases hx with rfl | rfl
          · cases hadds
          · exact hadds
        exact Or.inr ⟨e, by rw [hx']⟩
      | push => exact absurd hd id
      | _ => exact absurd hadds id
  · exact hand_of_gc hd h hel

end

/-! ### Runs -/

section
variable [DecidableEq τ] {n : Nat}
  {T : (system N τ).Trace (.start (Op N) (Actor τ) (Call N) (Option (Fin N)) (.init N)) n} {i : Nat}

/-- Every `enter` publishes the epoch in time: it stores the global epoch of the moment, or the one before it while no
    verification scan has passed the slot. -/
def Timely (T : (system N τ).Trace (.start (Op N) (Actor τ) (Call N) (Option (Fin N)) (.init N)) n) : Prop :=
  ∀ i < n, ∀ t tk e, (system N τ).Acts (.session t) (.storeBeginEpoch tk e) () (T.conf i) (T.conf (i + 1)) → e ≠ 0 →
    e = (T.conf i).state.epoch ∨ (e + 1 = (T.conf i).state.epoch ∧ ¬ Passed (T.conf i) tk)

/-- What the places say of the epochs at the moment `i`. -/
structure Reclaim (c : Conf N τ) (P : ∀ a : Actor τ, Places N a) : Prop where
  clock : Clock c.state (P .epoch) (P .gc)
  shaped : Shaped (c.thread .epoch) (P .epoch)
  tag : ∀ t tk e, SessionPlace.tag (P (.session t)) = some (tk, e) → phase P t tk = .held e
  pos : ∀ t tk e, phase P t tk = .read e ∨ phase P t tk = .held e → 1 ≤ e

variable {c c' : Conf N τ} {P P' : ∀ a : Actor τ, Places N a} {a : Actor τ}

theorem Reclaim.step_pos (h : Reclaim c P) (hs : SlotsStep a c P c' P') : ∀ t tk e, phase P' t tk = .read e ∨
    phase P' t tk = .held e → 1 ≤ e := by
  intro t tk e he
  cases hs with
  | quiet word same =>
    rw [same] at he
    exact h.pos t tk e he
  | slot u tk' ha step words phases reads publishes leaves =>
    by_cases hut : u = t ∧ tk' = tk
    · obtain ⟨rfl, rfl⟩ := hut
      rcases he with he | he
      · have hread := (reads e he).performs
        rcases hread with hread | ⟨hread, -⟩
        · have hepoch : c.state.epoch = e := congrArg Prod.fst hread
          exact hepoch ▸ h.clock.pos
        · exact absurd hread id
      · rw [he] at step
        generalize hph : phase P u tk' = ph at step
        generalize c.state.word tk' = w at step
        generalize c'.state.word tk' = w' at step
        cases step with
        | publish => exact h.pos u tk' e (Or.inl hph)
    · refine h.pos t tk e ?_
      rwa [phases t tk (by by_contra hc; rw [not_or, not_not, not_not] at hc; exact hut ⟨hc.1.symm, hc.2.symm⟩)] at he

theorem Reclaim.step_tag (h : Reclaim c P) (hown : Owned c.state P) (hs : (outline N τ).Step (system N τ) a c P c' P')
    (t : τ) (tk : Fin N) (e : Nat) (he : SessionPlace.tag (P' (.session t)) = some (tk, e)) : phase P' t tk = .held e := by
  have hkept : ¬ (system N τ).Begins (.session t) (.leave tk) c c' →
    SessionPlace.tag (P' (.session t)) = SessionPlace.tag (P (.session t)) →
      phase P' t tk = .held e := fun hb htag => hown.held (.of_step hs) (h.tag t tk e (htag ▸ he)) hb
  by_cases hat : .session t = a
  · subst hat
    have hs' := hs
    cases hs with
    | begins x hb hg _ =>
      rw [hg.2.2.1] at he
      cases he
    | @acts δ o y ha hg others =>
      have hb : ¬ (system N τ).Begins (.session t) (.leave tk) c c' := by
        intro hb
        obtain ⟨x, k, hactive, -⟩ := ha.threads
        rw [hb.idle] at hactive
        cases hactive
      cases o with
      | loadRunning => exact hkept hb (by rw [hg])
      | casRunning =>
        refine hkept hb ?_
        rw [hg.2.2]
        split <;> rfl
      | loadEpoch =>
        obtain ⟨-, tk', -, hg⟩ := hg
        exact hkept hb (by rw [hg]; rfl)
      | storeBeginEpoch => exact hkept hb (by rcases hg with ⟨-, hg⟩ | ⟨-, -, hg⟩ <;> rw [hg] <;> rfl)
      | storeRunning => exact hkept hb (by rw [hg.2.2]; rfl)
      | loadBeginEpoch tk' =>
        obtain ⟨⟨e', he'⟩, hg⟩ := hg
        rw [hg] at he
        cases he
        rcases ha.performs with hread | ⟨hread, -⟩
        · -- The begin epoch of the slot is the one of its phase.
          have hbegin : (c.state.info tk).beginEpoch = e := congrArg Prod.fst hread
          have hword := hown.word t tk (by rw [phase, he']; nofun)
          rw [show phase P t tk = .held e' from he'] at hword
          have heq : e' = e := (congrArg Prod.snd hword).symm.trans hbegin
          exact hown.held (.of_step hs') (heq ▸ he') hb
        · exact absurd hread id
      | push => exact hkept hb (by rw [hg.2.2])
      | _ => exact absurd hg id
    | returns x b hr _ same =>
      rw [same] at he ⊢
      exact h.tag t tk e he
  · refine hkept ?_ (by rw [hs.place_other hat])
    intro hb
    have hidle := hb.idle
    obtain ⟨p, -, hp⟩ := hb.threads
    rw [← hs.thread_other hat, hp, Function.update_self] at hidle
    cases hidle

theorem SessionPlace.Moves.still {δ : Type} {o : Op N δ} {y : δ} {g g' : SessionPlace N}
    (h : SessionPlace.Moves o y g g') : o.Still := by
  cases o with
  | incEpoch | storeGcEpoch => exact absurd h id
  | _ => trivial

/-- A begin epoch changes to 0, or to an epoch that is published in time. -/
theorem Reclaim.step_begins (h : Reclaim c P) (hs : SlotsStep a c P c' P')
    (htimely : ∀ t tk e, (system N τ).Acts (.session t) (.storeBeginEpoch tk e) () c c' → e ≠ 0 →
      e = c.state.epoch ∨ (e + 1 = c.state.epoch ∧ ¬ Passed c tk)) (tk : Fin N) :
    (c'.state.info tk).beginEpoch = (c.state.info tk).beginEpoch ∨ (c'.state.info tk).beginEpoch = 0 ∨
    (c'.state.info tk).beginEpoch = c.state.epoch ∨
      ((c'.state.info tk).beginEpoch + 1 = c.state.epoch ∧ ∀ cur table, P .epoch = EpochPlace.verifying cur table →
        tk ∈ table) := by
  cases hs with
  | quiet word same => exact Or.inl (State.beginEpoch_of_word word tk)
  | slot t tk' ha step words phases reads publishes leaves =>
    by_cases htk : tk = tk'
    · subst htk ha
      have hw : c.state.word tk = ((c.state.info tk).running, (c.state.info tk).beginEpoch) := rfl
      have hw' : c'.state.word tk = ((c'.state.info tk).running, (c'.state.info tk).beginEpoch) := rfl
      rw [hw, hw'] at step
      generalize hph : phase P t tk = ph at step
      generalize hph' : phase P' t tk = ph' at step
      generalize (c.state.info tk).beginEpoch = b at step ⊢
      generalize hb' : (c'.state.info tk).beginEpoch = b' at step ⊢
      generalize (c.state.info tk).running = f at step
      generalize (c'.state.info tk).running = f' at step
      cases step with
      | gain | read | leave | release => exact Or.inl rfl
      | clear => exact Or.inr (Or.inl rfl)
      | publish =>
        have hpos := h.pos t tk _ (Or.inl hph)
        rcases htimely t tk _ (publishes _ hph') (by omega) with he | ⟨he, hpassed⟩
        · exact Or.inr (Or.inr (Or.inl he))
        · refine Or.inr (Or.inr (Or.inr ⟨he, fun cur table hg => ?_⟩))
          by_contra hnot
          have hshaped := h.shaped
          rw [hg] at hshaped
          obtain ⟨fuel, hfuel⟩ := hshaped
          exact hpassed ⟨fuel, cur, table, hfuel, hnot⟩
    · exact Or.inl (congrArg Prod.snd (words tk htk))

theorem Reclaim.step_clock (h : Reclaim c P) (hs : (outline N τ).Step (system N τ) a c P c' P')
    (hwrap : c.state.epoch ≤ c'.state.epoch)
    (htimely : ∀ t tk e, (system N τ).Acts (.session t) (.storeBeginEpoch tk e) () c c' → e ≠ 0 →
      e = c.state.epoch ∨ (e + 1 = c.state.epoch ∧ ¬ Passed c tk)) : Clock c'.state (P' .epoch) (P' .gc) := by
  cases a with
  | session t =>
    have hb := h.step_begins (.of_step hs) htimely
    have hsame : c'.state.epoch = c.state.epoch ∧ c'.state.gcEpoch = c.state.gcEpoch := by
      cases hs with
      | begins x hb _ _ => exact ⟨by rw [hb.state], by rw [hb.state]⟩
      | acts o y ha hg _ => exact epochs_of_still (SessionPlace.Moves.still hg) ha.performs
      | returns x b hr _ _ => exact ⟨by rw [hr.state], by rw [hr.state]⟩
    rw [hs.place_other (u := .epoch) nofun, hs.place_other (u := .gc) nofun]
    exact h.clock.of_begins hsame.1 hsame.2 hb
  | epoch =>
    rw [hs.place_other (u := .gc) nofun]
    cases hs with
    | begins x hb hg _ =>
      rw [hb.state, hg.2]
      exact h.clock.of_place nofun nofun nofun
    | acts o y ha hg _ => exact h.clock.epoch hg ha.performs hwrap
    | returns x b hr _ same =>
      rw [hr.state, same]
      exact h.clock
  | gc =>
    rw [hs.place_other (u := .epoch) nofun]
    cases hs with
    | begins x hb hg _ =>
      rw [hb.state, hg]
      exact h.clock
    | acts o y ha hg _ => exact h.clock.gc hg ha.performs
    | returns x b hr _ same =>
      rw [hr.state, same]
      exact h.clock

theorem Reclaim.step_shaped (h : Reclaim c P) (hs : (outline N τ).Step (system N τ) a c P c' P') :
    Shaped (c'.thread .epoch) (P' .epoch) := by
  by_cases hae : .epoch = a
  · subst hae
    cases hs with
    | begins x hb hg _ =>
      obtain ⟨p, ⟨hx, fuel, rfl⟩, hp⟩ := hb.threads
      rw [hp, Function.update_self, hg.2]
      cases x with
      | epochRound => exact ⟨fuel, by rw [prog_epochRound]⟩
      | _ => cases hx
    | acts o y ha hg _ =>
      obtain ⟨x, k, hactive, hk⟩ := ha.threads
      rw [hk, Function.update_self]
      exact h.shaped.step hactive hg
    | returns x b hr hg same =>
      have hidle : P .epoch = EpochPlace.idle := hg
      rw [same, hidle]
      trivial
  · rw [hs.thread_other hae, hs.place_other hae]
    exact h.shaped

theorem Reclaim.start (R : (outline N τ).Run T) : Reclaim (T.conf 0) (R.places 0) := by
  rw [R.start, T.start]
  exact {
    clock := ⟨Nat.le_refl 1, Nat.one_lt_two_pow (by decide), Nat.one_pos, fun _ => Or.inl rfl, nofun, nofun, nofun, nofun⟩
    shaped := trivial
    tag := nofun
    pos := fun _ _ _ h => absurd h (by rintro (h | h) <;> cases h) }

theorem reclaim_of_run (R : (outline N τ).Run T) (hwrap : NotWrapped T n) (htimely : Timely T) (i : Nat) (hi : i ≤ n) :
    Reclaim (T.conf i) (R.places i) := by
  refine R.invariant (P := fun i => Reclaim (T.conf i) (R.places i)) (.start R) (fun j hj _ a hs h => ?_) i
    (Nat.zero_le i) hi
  have hown := (inv_of_run R j (by omega)).owned
  exact ⟨h.step_clock hs (hwrap j hj) (htimely j hj), h.step_shaped hs, h.step_tag hown hs, h.step_pos (.of_step hs)⟩

/-! ### Retired objects -/

/-- An element of a moment was there before, or it is pushed now. -/
theorem contains_step {el : Elem} (hs : (outline N τ).Step (system N τ) a c P c' P') (hel : Contains c'.state (P' .gc) el) :
    Contains c.state (P .gc) el ∨
      (el.2 = c.state.retired ∧ ∃ t tk g, (system N τ).Acts (.session t) (.push tk g el.1) () c c' ∧
        c'.state.retired = c.state.retired + 1) := by
  cases hs with
  | begins x hb hg others =>
    refine Or.inl ?_
    have hgc : P' .gc = P .gc := by
      by_cases ha : .gc = a
      · subst ha
        exact hg
      · exact others _ ha
    rwa [hb.state, hgc] at hel
  | returns x b hr _ same =>
    refine Or.inl ?_
    rwa [hr.state, same] at hel
  | @acts δ o y ha hg others =>
    cases a with
    | gc => exact Or.inl (hel.gc hg ha.performs)
    | epoch =>
      rw [others .gc nofun] at hel
      rcases hel with ⟨tk, k, hel⟩ | hel
      · rcases held_of_performs ha.performs hel with hel | hadds
        · exact Or.inl (Or.inl hel)
        · cases o with
          | push | storeCache => exact absurd hg id
          | _ => exact absurd hadds id
      · exact Or.inl (Or.inr hel)
    | session t =>
      rw [others .gc nofun] at hel
      rcases hel with ⟨tk, k, hel⟩ | hel
      · rcases held_of_performs ha.performs hel with hel | hadds
        · exact Or.inl (Or.inl hel)
        · cases o with
          | push tk k e =>
            obtain rfl : el = (e, c.state.retired) := hadds
            refine Or.inr ⟨rfl, t, tk, k, ha, ?_⟩
            rcases retired_of_performs ha.performs with ⟨-, h⟩ | ⟨h, -⟩
            · exact h
            · exact absurd trivial h
          | storeCache => exact absurd hg id
          | _ => exact absurd hadds id
      · exact Or.inl (Or.inr hel)

theorem retired_step (hs : (outline N τ).Step (system N τ) a c P c' P') : c.state.retired ≤ c'.state.retired := by
  cases hs with
  | begins x hb _ _ => rw [hb.state]
  | returns x b hr _ _ => rw [hr.state]
  | acts o y ha _ _ =>
    rcases retired_of_performs ha.performs with ⟨-, h⟩ | ⟨-, h⟩ <;> omega

/-- The elements are named by retirements that were made. -/
theorem contains_retired (R : (outline N τ).Run T) (i : Nat) (hi : i ≤ n) :
    ∀ el, Contains (T.conf i).state (R.places i .gc) el → el.2 < (T.conf i).state.retired := by
  refine R.invariant
    (P := fun i => ∀ el, Contains (T.conf i).state (R.places i .gc) el → el.2 < (T.conf i).state.retired) ?_
    (fun j hj _ a hs ih el hel => ?_) i (Nat.zero_le i) hi
  · intro el hel
    rw [T.start, R.start] at hel
    rcases hel with ⟨tk, k, hel⟩ | ⟨e, hel⟩ <;> cases hel
  · rcases contains_step hs hel with hel | ⟨hnew, t, tk, k, -, hretired⟩
    · exact Nat.lt_of_lt_of_le (ih el hel) (retired_step hs)
    · omega

theorem retired_of_push {t : τ} {tk : Fin N} {k : Garbage} {e : Nat}
    (h : (system N τ).Acts (.session t) (.push tk k e) () c c') :
    c'.state.retired = c.state.retired + 1 := by
  rcases retired_of_performs h.performs with ⟨-, h⟩ | ⟨h, -⟩
  · exact h
  · exact absurd trivial h

/-- The element of a retirement keeps the tag with which it was pushed. -/
theorem tag_since {q : Nat} {u : τ} {tk : Fin N} {k : Garbage} {r : Nat} (R : (outline N τ).Run T) (hq : q < n)
    (hpush : (system N τ).Acts (.session u) (.push tk k r) () (T.conf q) (T.conf (q + 1))) (i : Nat) (hqi : q < i)
    (hi : i ≤ n) :
    (T.conf q).state.retired < (T.conf i).state.retired ∧
      ∀ el, Contains (T.conf i).state (R.places i .gc) el → el.2 = (T.conf q).state.retired → el.1 = r := by
  refine R.invariant (m := q + 1) (P := fun i => (T.conf q).state.retired < (T.conf i).state.retired ∧
    ∀ el, Contains (T.conf i).state (R.places i .gc) el → el.2 = (T.conf q).state.retired → el.1 = r)
      ⟨?_, fun el hel hx => ?_⟩
    (fun j hj hqj a hs ih => ⟨?_, fun el hel hx => ?_⟩) i hqi hi
  · rw [retired_of_push hpush]
    exact Nat.lt_succ_self _
  · obtain ⟨a, hs⟩ := R.step q hq
    rcases contains_step hs hel with hel | ⟨-, t, tk', k', hpush', -⟩
    · have hlt := contains_retired R q (by omega) el hel
      omega
    · -- The step performs one operation.
      obtain ⟨x, f, hactive, -⟩ := hpush.threads
      obtain ⟨rfl, -⟩ := hs.moves hpush
      obtain ⟨htu, -⟩ := hs.moves hpush'
      cases htu
      obtain ⟨x', f', hactive', -⟩ := hpush'.threads
      cases hactive.symm.trans hactive'
      rfl
  · exact Nat.lt_of_lt_of_le ih.1 (retired_step hs)
  · rcases contains_step hs hel with hel | ⟨hnew, -⟩
    · exact ih.2 el hel hx
    · have hlt := ih.1
      omega

/-- A session that goes on protects what was retired in its time. -/
theorem protected_since {q f : Nat} {t u : τ} {tk tk' : Fin N} {k : Garbage} {e r : Nat} (R : (outline N τ).Run T)
    (hwrap : NotWrapped T n) (htimely : Timely T) (hf : f ≤ n)
    (hpush : (system N τ).Acts (.session u) (.push tk' k r) () (T.conf q) (T.conf (q + 1)))
    (hheld : ∀ i, q ≤ i → i ≤ f → phase (R.places i) t tk = .held e) (i : Nat) (hqi : q < i) (hi : i ≤ f) :
    Protected (T.conf i).state (R.places i .epoch) (R.places i .gc) tk e r := by
  have hall := reclaim_of_run R hwrap htimely
  have hbegin : ∀ i, q ≤ i → i ≤ f → ((T.conf i).state.info tk).beginEpoch = e := by
    intro i hqi hi
    have hword := (inv_of_run R i (by omega)).owned.word t tk
    rw [hheld i hqi hi] at hword
    exact congrArg Prod.snd (hword nofun)
  have hpos : e ≠ 0 := by
    have := (hall q (by omega)).pos t tk e (Or.inr (hheld q (Nat.le_refl q) (by omega)))
    omega
  refine R.invariant (m := q + 1)
    (P := fun i => i ≤ f → Protected (T.conf i).state (R.places i .epoch) (R.places i .gc) tk e r) (fun hq => ?_)
    (fun j hj hqj a hs ih hjf => ?_) i hqi (by omega) hi
  · -- The tag of the object is the begin epoch of the session that retires it.
    obtain ⟨a, hs⟩ := R.step q (by omega)
    obtain ⟨rfl, _, hg⟩ := hs.moves hpush
    obtain ⟨-, htag, -⟩ := hg
    have hclock := (hall q (by omega)).clock
    have hu := (hall q (by omega)).tag u tk' r htag
    have hr := (hall q (by omega)).pos u tk' r (Or.inr hu)
    have hwordu := (inv_of_run R q (by omega)).owned.word u tk' (by rw [hu]; nofun)
    rw [hu] at hwordu
    have hbu : ((T.conf q).state.info tk').beginEpoch = r := congrArg Prod.snd hwordu
    have hepoch := (epochs_of_still (o := .push tk' k r) trivial hpush.performs).1
    have h1 := hclock.begins tk'
    have h2 := hclock.begins tk
    rw [hbu] at h1
    rw [hbegin q (Nat.le_refl q) (by omega)] at h2
    exact (hall (q + 1) (by omega)).clock.protects (by rw [hepoch]; omega) (by rw [hepoch]; omega)
  · have hprot := ih (by omega)
    cases a with
    | session v =>
      have hsame : (T.conf (j + 1)).state.epoch = (T.conf j).state.epoch ∧
        (T.conf (j + 1)).state.gcEpoch = (T.conf j).state.gcEpoch := by
        cases hs with
        | begins x hb _ _ => exact ⟨by rw [hb.state], by rw [hb.state]⟩
        | acts o y ha hg _ => exact epochs_of_still (SessionPlace.Moves.still hg) ha.performs
        | returns x b hr _ _ => exact ⟨by rw [hr.state], by rw [hr.state]⟩
      rw [hs.place_other (u := .epoch) nofun, hs.place_other (u := .gc) nofun]
      exact hprot.still hsame.1 hsame.2
    | epoch =>
      rw [hs.place_other (u := .gc) nofun]
      cases hs with
      | begins x hb hg _ =>
        rw [hb.state, hg.2]
        exact ⟨hprot.begin, hprot.gcEpoch, nofun, nofun, hprot.collecting⟩
      | acts o y ha hg _ => exact hprot.epoch (hall j (by omega)).clock (hbegin j (by omega) (by omega)) hpos hg ha.performs
      | returns x b hr _ same =>
        rw [hr.state, same]
        exact hprot
    | gc =>
      rw [hs.place_other (u := .epoch) nofun]
      cases hs with
      | begins x hb hg _ =>
        rw [hb.state, hg]
        exact hprot
      | acts o y ha hg _ => exact hprot.gc hg ha.performs
      | returns x b hr _ same =>
        rw [hr.state, same]
        exact hprot

/-- No object is freed while a session goes on whose `enter` had returned when the object was retired. -/
def Reclaims (T : (system N τ).Trace (.start (Op N) (Actor τ) (Call N) (Option (Fin N)) (.init N)) n) : Prop :=
  ∀ r q f, r < q → q < f → f < n → ∀ t tk, (T.conf r).Returns (.session t) .enter (some tk) (T.conf (r + 1)) →
    ∀ u tk' k e, (system N τ).Acts (.session u) (.push tk' k e) () (T.conf q) (T.conf (q + 1)) →
    ∀ el, (system N τ).Acts .gc (.delete el) () (T.conf f) (T.conf (f + 1)) → el.2 = (T.conf q).state.retired →
    ∃ l, r < l ∧ l ≤ f ∧ ∃ p, ((T.conf l).thread (.session t)).active = some (.leave tk, p)

theorem reclaims_of_timely {N : Nat} {τ : Type} [DecidableEq τ] {n : Nat}
    {T : (system N τ).Trace (.start (Op N) (Actor τ) (Call N) (Option (Fin N)) (.init N)) n} (hwrap : NotWrapped T n)
    (htimely : Timely T) :
    Reclaims T := by
  intro r q f hrq hqf hf t tk hret u tk' k e hpush el hdelete hel
  obtain ⟨R⟩ := outline_valid.exists_run T
  obtain ⟨b, hheld, -⟩ := enter_returns R (by omega) hret
  by_contra hleave
  have hsince : ∀ i, q ≤ i → i ≤ f → phase (R.places i) t tk = .held b := by
    intro i hqi hi
    refine held_since R hheld (by omega) (by omega) fun l hl hli p hp => ?_
    exact hleave ⟨l, by omega, by omega, p, hp⟩
  have hprot := protected_since R hwrap htimely (by omega) hpush hsince f hqf (Nat.le_refl f)
  -- What is freed is in the hand of the gc thread, with a tag before the `gc_epoch` that it read.
  obtain ⟨a, hs⟩ := R.step f hf
  obtain ⟨rfl, _, hg⟩ := hs.moves hdelete
  obtain ⟨v, hhand, hlt, -⟩ := hg
  have htag := (tag_since R (by omega) hpush f hqf (by omega)).2 el (Or.inr ⟨v, hhand⟩) hel
  have hle := hprot.collecting v _ hhand
  omega

end

/-! ### Two schedules -/

/-- The calls that are allowed, and every operation done without a weak failure. -/
def driver (N : Nat) (τ : Type) : Driver (system N τ) where
  exec := fun o s => some (exec o s)
  call := fun a done x => if x.allowed done a then some (x.prog 2) else none
  performs := fun _ _ _ _ h => Or.inl (Option.some.inj h)
  invokes := by
    intro a done x p h
    split at h
    · rename_i hx
      cases h
      exact ⟨hx, 2, rfl⟩
    · cases h

def pushed {δ : Type} : Op N δ → Option (Fin N × Garbage × Nat)
  | .push tk c e => some (tk, c, e)
  | _ => none

def deleted {δ : Type} : Op N δ → Option Elem
  | .delete el => some el
  | _ => none

def stored {δ : Type} : Op N δ → Option Nat
  | .storeBeginEpoch _ e => some e
  | _ => none

/-- An `enter` reads the epoch and stores it before the epoch thread goes on; the session retires an object and leaves.
    After another round of the epoch thread the gc thread frees the object. -/
def promptEnter : List (Move (Actor Unit) (Call 1)) :=
  .invoke (.session ()) .enter :: List.replicate 5 (.go (.session ())) ++ .invoke .epoch .epochRound :: List.replicate 6
    (.go .epoch) ++
  .invoke (.session ()) (.retire 0 .node) :: List.replicate 3 (.go (.session ())) ++
  .invoke (.session ()) (.leave 0) :: List.replicate 3
    (.go (.session ())) ++ .invoke .epoch .epochRound :: List.replicate 7 (.go .epoch) ++
  .invoke .gc .gcRound :: List.replicate 5 (.go .gc)

def promptRun : (system 1 Unit).Trace (.start (Op 1) (Actor Unit) (Call 1) (Option (Fin 1)) (.init 1)) 35 :=
  (driver 1 Unit).trace promptEnter _ (by decide +kernel)

theorem reclaims_of_timely_prompt : ((promptRun.conf 34).thread .gc).next deleted = some (1, 0) ∧ NotWrapped promptRun 35 ∧
    Timely promptRun ∧ Reclaims promptRun := by
  have hwrap : NotWrapped promptRun 35 := by
    unfold NotWrapped
    decide +kernel
  have hall : ∀ i < 35, (((promptRun.conf i).thread (.session ())).next stored).all
      (fun e => e = 0 || e = (promptRun.conf i).state.epoch) = true := by decide +kernel
  have htimely : Timely promptRun := by
    intro i hi t tk e ha hpos
    obtain ⟨x, k, hactive, -⟩ := ha.threads
    have hi' := hall i hi
    have hnext : ((promptRun.conf i).thread (.session ())).next stored = some e := by
      unfold Thread.next
      rw [hactive]
      rfl
    rw [hnext] at hi'
    simp only [Option.all_some, Bool.or_eq_true, decide_eq_true_eq] at hi'
    exact Or.inl (hi'.resolve_left hpos)
  exact ⟨by decide +kernel, hwrap, htimely, reclaims_of_timely hwrap htimely⟩

/-- An `enter` reads the epoch 1 and stores it two rounds of the epoch thread later. It returns, the session retires an
    object, and the gc thread frees it. -/
def lateEnter : List (Move (Actor Unit) (Call 1)) :=
  .invoke (.session ()) .enter :: List.replicate 3 (.go (.session ())) ++ .invoke .epoch .epochRound :: List.replicate 7
    (.go .epoch) ++
  .invoke .epoch .epochRound :: List.replicate 7 (.go .epoch) ++ List.replicate 2 (.go (.session ())) ++
  .invoke (.session ()) (.retire 0 .node) :: List.replicate 3
    (.go (.session ())) ++ .invoke .gc .gcRound :: List.replicate 5 (.go .gc)

def lateRun : (system 1 Unit).Trace (.start (Op 1) (Actor Unit) (Call 1) (Option (Fin 1)) (.init 1)) 32 :=
  (driver 1 Unit).trace lateEnter _ (by decide +kernel)

theorem late_enter_frees : NotWrapped lateRun 32 ∧ ¬ Reclaims lateRun := by
  refine ⟨by unfold NotWrapped; decide +kernel, fun h => ?_⟩
  have hret : (lateRun.conf 21).Returns (.session ()) .enter (some 0) (lateRun.conf 22) :=
    Driver.returns rfl (by decide +kernel)
  have hpush : ((lateRun.conf 24).thread (.session ())).next pushed = some (0, .node, 1) := by decide +kernel
  have hdelete : ((lateRun.conf 31).thread .gc).next deleted = some (1, 0) := by decide +kernel
  obtain ⟨δ, o, x, k, hactive, ho⟩ := Thread.exists_of_next hpush
  obtain ⟨δ', o', x', k', hactive', ho'⟩ := Thread.exists_of_next hdelete
  cases o with
  | push tk c e =>
    cases ho
    cases o' with
    | delete el =>
      cases ho'
      obtain ⟨_, hacts⟩ := Driver.acts rfl hactive
      obtain ⟨_, hacts'⟩ := Driver.acts rfl hactive'
      obtain ⟨l, h1, h2, p, hp⟩ := h 21 24 31 (by decide) (by decide) (by decide) () 0 hret () 0 .node 1 hacts
        (1, 0) hacts' (by decide +kernel)
      have hnone : ∀ l < 32, 21 < l → ((lateRun.conf l).thread (.session ())).call ≠ some (.leave 0) := by decide +kernel
      exact hnone l (by omega) h1 (by rw [Thread.call, hp]; rfl)
    | _ => cases ho'
  | _ => cases ho

end Session
end Yakushima
