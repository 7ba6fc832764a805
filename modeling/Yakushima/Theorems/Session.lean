import Yakushima.Lib.Outline
import Yakushima.Model.Session

/-! # The outline of the sessions

The places that the threads on the session table go through, for the threads with sessions, for the epoch thread and for
the gc thread. -/

namespace Yakushima
namespace Session
open Lib

variable {N : Nat} {τ : Type}

/-! ### Places -/

/-- How far a thread is with a slot of the table. The epoch is the one that its `enter` read. -/
inductive Phase where
  | absent
  | gained
  | read (e : Nat)
  | held (e : Nat)
  | leaving (e : Nat)
  | cleared
deriving DecidableEq

/-- A thread with its last call, its slots, the epoch that the call read for a slot to enter, and the one for an object
    to retire. -/
structure SessionPlace (N : Nat) where
  call : Call N
  slot : Fin N → Phase
  entered : Option (Fin N × Nat)
  tag : Option (Fin N × Nat)

def SessionPlace.set (g : SessionPlace N) (tk : Fin N) (ph : Phase) : SessionPlace N :=
  { g with slot := Function.update g.slot tk ph }

inductive EpochPlace (N : Nat) where
  | idle
  | starting
  /-- The verification scan, with the part of the table before it. -/
  | verifying (cur : Nat) (table : List (Fin N))
  | scanning (table : List (Fin N)) (min : Nat)
  | storing (e : Nat)

/-- The gc thread with the `gc_epoch` that it read and the element in its hand. -/
inductive GcPlace where
  | idle
  | collecting (gcEpoch : Nat) (hand : Option Elem)

@[reducible] def Places (N : Nat) : Actor τ → Type
  | .session _ => SessionPlace N
  | .epoch => EpochPlace N
  | .gc => GcPlace

/-- What a thread between two calls knows of its slots. -/
structure SessionPlace.Rests (done : List (Call N × Option (Fin N))) (g : SessionPlace N) : Prop where
  slot : ∀ tk, if holding tk done = true then ∃ e, g.slot tk = .held e else g.slot tk = .absent
  entered : ∀ tk l, done = (.enter, some tk) :: l → ∃ e, g.entered = some (tk, e) ∧ g.slot tk = .held e

/-- A call of a session begins. -/
def SessionPlace.Begins (x : Call N) (g g' : SessionPlace N) : Prop := g'.call = x ∧ g'.entered = none ∧ g'.tag = none ∧
  match x with
  | .leave tk => ∃ e, g.slot tk = .held e ∧ g'.slot = Function.update g.slot tk (.leaving e)
  | _ => g'.slot = g.slot

def SessionPlace.Moves : {δ : Type} → Op N δ → δ → SessionPlace N → SessionPlace N → Prop
  | _, .loadRunning _, _, g, g' => g' = g
  | _, .casRunning tk expected desired, y, g, g' => expected = false ∧ desired = true ∧ g' = if y.1
    then g.set tk .gained else g
  | _, .loadEpoch, e, g, g' => g.call = .enter ∧ ∃ tk, g.slot tk = .gained ∧
    g' = { g.set tk (.read e) with entered := some (tk, e) }
  | _, .storeBeginEpoch tk e, _, g, g' =>
    (g.slot tk = .read e ∧ g' = g.set tk (.held e)) ∨ ((∃ e', g.slot tk = .leaving e') ∧ e = 0 ∧ g' = g.set tk .cleared)
  | _, .storeRunning tk tf, _, g, g' => tf = false ∧ g.slot tk = .cleared ∧ g' = g.set tk .absent
  | _, .loadBeginEpoch tk, e, g, g' => (∃ e', g.slot tk = .held e') ∧ g' = { g with tag := some (tk, e) }
  | _, .push tk _ e, _, g, g' => (∃ e', g.slot tk = .held e') ∧ g.tag = some (tk, e) ∧ g' = g
  | _, _, _, _, _ => False

theorem SessionPlace.Moves.call {δ : Type} {o : Op N δ} {y : δ} {g g' : SessionPlace N}
    (h : SessionPlace.Moves o y g g') : g'.call = g.call := by
  cases o with
  | loadRunning => rw [h]
  | casRunning =>
    rw [h.2.2]
    split <;> rfl
  | loadEpoch =>
    obtain ⟨-, tk, -, rfl⟩ := h
    rfl
  | storeBeginEpoch =>
    rcases h with ⟨-, rfl⟩ | ⟨-, -, rfl⟩ <;> rfl
  | storeRunning => rw [h.2.2]; rfl
  | loadBeginEpoch => rw [h.2]
  | push => rw [h.2.2]
  | _ => exact absurd h id

def EpochPlace.Moves : {δ : Type} → Op N δ → δ → EpochPlace N → EpochPlace N → Prop
  | _, .loadEpoch, e, g, g' => (g = .starting ∧ g' = .verifying e (List.finRange N)) ∨
    (g = .scanning [] maxEpoch ∧ g' = .storing (pred e))
  | _, .loadBeginEpoch tk, e, g, g' =>
    (∃ cur table, g = .verifying cur (tk :: table) ∧ g' = if e ≠ 0 ∧ e ≠ cur then .starting else .verifying cur table) ∨
    (∃ table m, g = .scanning (tk :: table) m ∧ g' = .scanning table (if e ≠ 0 then Nat.min m e else m))
  | _, .incEpoch, _, g, g' => (∃ cur, g = .verifying cur []) ∧ g' = .scanning (List.finRange N) maxEpoch
  | _, .storeGcEpoch e, _, g, g' => ((∃ m, g = .scanning [] m ∧ m ≠ maxEpoch ∧ e = pred m) ∨ g = .storing e) ∧ g' = .idle
  | _, _, _, _, _ => False

def GcPlace.Moves : {δ : Type} → Op N δ → δ → GcPlace → GcPlace → Prop
  | _, .loadGcEpoch, e, _, g' => g' = .collecting e none
  | _, .loadCache _ _, y, g, g' => ∃ e h, g = .collecting e h ∧ g' = .collecting e y
  | _, .tryPop _ _, y, g, g' => ∃ e h, g = .collecting e h ∧ g' = .collecting e y
  | _, .empty _ _, _, g, g' => g' = g
  | _, .storeCache _ _ x, _, g, g' => ∃ e h, g = .collecting e h ∧ (x = none ∨ x = h) ∧ g' = .collecting e none
  | _, .delete x, _, g, g' => ∃ e, g = .collecting e (some x) ∧ x.1 < e ∧ g' = .collecting e none
  | _, _, _, _, _ => False

def outline (N : Nat) (τ : Type) : Outline (Op N) (Actor τ) (Call N) (Option (Fin N)) (Places N) where
  place
    | .session _ => ⟨.enter, fun _ => .absent, none, none⟩
    | .epoch => EpochPlace.idle
    | .gc => GcPlace.idle
  rests
    | .session _, done, g => SessionPlace.Rests done g
    | .epoch, _, g => g = EpochPlace.idle
    | .gc, _, _ => True
  begins
    | .session _, x, g, g' => SessionPlace.Begins x g g'
    | .epoch, _, g, g' => g = EpochPlace.idle ∧ g' = EpochPlace.starting
    | .gc, _, g, g' => g' = g
  moves := fun t _ o y => match t with
    | .session _ => SessionPlace.Moves o y
    | .epoch => EpochPlace.Moves o y
    | .gc => GcPlace.Moves o y

/-! ### The programs follow the outline -/

section
variable {t : τ} {g : SessionPlace N} {tk : Fin N} {done : List (Call N × Option (Fin N))}

theorem SessionPlace.set_slot (g : SessionPlace N) (tk : Fin N) (ph : Phase) : (g.set tk ph).slot tk = ph :=
  Function.update_self ..

theorem follows_gainLoop (fuel : Nat) (expected : Bool) : (outline N τ).Follows (system N τ) (.session t)
    (fun b g' => g' = if b then SessionPlace.set g tk .gained else g) (gainLoop tk fuel expected) g := by
  induction fuel generalizing expected with
  | zero => trivial
  | succ fuel ih =>
    cases expected with
    | true => exact rfl
    | false =>
      intro s y s' h
      refine ⟨if y.1 then g.set tk .gained else g, ⟨rfl, rfl, rfl⟩, ?_⟩
      show (outline N τ).Follows _ _ _ (if y.1 = true then pure true else gainLoop tk fuel y.2) _
      cases y.1 with
      | true => exact rfl
      | false => exact ih y.2

theorem follows_assignThreadInfo (hg : g.call = .enter) (fuel : Nat) (table : List (Fin N)) :
    (outline N τ).Follows (system N τ) (.session t) (fun a g' => match a with
      | none => g' = g
      | some tk => ∃ e, g' = { SessionPlace.set g tk (.held e) with entered := some (tk, e) })
        (assignThreadInfo fuel table) g := by
  induction table with
  | nil => exact rfl
  | cons tk table ih =>
    have hgain : (outline N τ).Follows (system N τ) (.session t)
      (fun b g' => g' = if b then SessionPlace.set g tk .gained else g)
        (gainTheRight fuel tk) g := fun s y s' h => ⟨g, rfl, follows_gainLoop fuel y⟩
    refine hgain.bind fun b g' hg' => ?_
    cases b with
    | false => exact hg' ▸ ih
    | true =>
      subst hg'
      intro s e s' h
      refine ⟨{ g.set tk (.read e) with entered := some (tk, e) }, ⟨hg, tk, g.set_slot .., by simp [SessionPlace.set]⟩,
        fun s y s' h => ?_⟩
      refine ⟨{ g.set tk (.held e) with entered := some (tk, e) }, Or.inl ⟨g.set_slot .., ?_⟩, e, rfl⟩
      simp [SessionPlace.set]

theorem SessionPlace.Rests.of_holding (h : g.Rests done) (hh : holding tk done = true) : ∃ e, g.slot tk = .held e := by
  have htk := h.slot tk
  rwa [if_pos hh] at htk

theorem SessionPlace.Rests.enter {g' : SessionPlace N} {e : Nat} (h : g.Rests done)
    (hslot : g'.slot = Function.update g.slot tk (.held e)) (hentered : g'.entered = some (tk, e)) :
    g'.Rests ((.enter, some tk) :: done) where
  slot := by
    intro tk'
    rw [hslot]
    by_cases htk : tk' = tk
    · subst htk
      simp [holding]
    · have hne : ¬ tk = tk' := fun h => htk h.symm
      simpa [holding, Function.update_of_ne htk, hne] using h.slot tk'
  entered := by
    rintro tk' l ⟨⟩
    exact ⟨e, hentered, by rw [hslot, Function.update_self]⟩

theorem SessionPlace.Rests.leave {g' : SessionPlace N} (h : g.Rests done) (a : Option (Fin N))
    (hg' : g'.slot = Function.update g.slot tk .absent) : g'.Rests ((.leave tk, a) :: done) where
  slot := by
    intro tk'
    rw [hg']
    by_cases htk : tk' = tk
    · subst htk
      simp [holding]
    · have hne : ¬ tk = tk' := fun h => htk h.symm
      simpa [holding, Function.update_of_ne htk, hne] using h.slot tk'
  entered := by
    rintro tk' l ⟨⟩

/-- A call that neither enters nor leaves. -/
theorem SessionPlace.Rests.other {x : Call N} {a : Option (Fin N)} {g' : SessionPlace N} (h : g.Rests done)
    (hx : ∀ tk, holding tk ((x, a) :: done) = holding tk done) (hxa : ∀ tk, (x, a) ≠ (.enter, some tk))
    (hg' : g'.slot = g.slot) :
    g'.Rests ((x, a) :: done) where
  slot := by
    intro tk
    rw [hx, hg']
    exact h.slot tk
  entered := by
    rintro tk l hl
    exact absurd (List.cons.inj hl).1 (hxa tk)

theorem follows_session {x : Call N} (h : g.Rests done) (hx : x.allowed done (Actor.session t) = true) (fuel : Nat) :
    ∃ g', SessionPlace.Begins x g g' ∧
      (outline N τ).Follows (system N τ) (.session t) (fun a => SessionPlace.Rests ((x, a) :: done)) (x.prog fuel) g' := by
  cases x with
  | enter =>
    refine ⟨{ g with call := .enter, entered := none, tag := none }, ⟨rfl, rfl, rfl, rfl⟩,
      (follows_assignThreadInfo rfl fuel _).mono fun a g' ha => ?_⟩
    cases a with
    | none => exact h.other (fun _ => rfl) nofun (by rw [ha])
    | some tk =>
      obtain ⟨e, rfl⟩ := ha
      exact h.enter rfl rfl
  | leave tk =>
    obtain ⟨e, he⟩ := h.of_holding hx
    refine ⟨{ g.set tk (.leaving e) with call := .leave tk, entered := none, tag := none }, ⟨rfl, rfl, rfl, e, he, rfl⟩,
      fun s y s' hp => ?_⟩
    refine ⟨{ g.set tk .cleared with call := .leave tk, entered := none, tag := none },
      Or.inr ⟨⟨e, g.set_slot ..⟩, rfl, by simp [SessionPlace.set]⟩, fun s y s' hp => ?_⟩
    exact ⟨{ g.set tk .absent with call := .leave tk, entered := none, tag := none },
      ⟨rfl, g.set_slot .., by simp [SessionPlace.set]⟩, h.leave none rfl⟩
  | retire tk c =>
    have hheld := h.of_holding hx
    refine ⟨{ g with call := .retire tk c, entered := none, tag := none }, ⟨rfl, rfl, rfl, rfl⟩, fun s e s' hp => ?_⟩
    refine ⟨{ g with call := .retire tk c, entered := none, tag := some (tk, e) }, ⟨hheld, rfl⟩, fun s y s' hp => ?_⟩
    exact ⟨{ g with call := .retire tk c, entered := none, tag := some (tk, e) }, ⟨hheld, rfl, rfl⟩,
      h.other (fun _ => rfl) nofun rfl⟩
  | epochRound => cases hx
  | gcRound => cases hx

end

section
variable {g : EpochPlace N}

theorem follows_verify (cur : Nat) (table : List (Fin N)) : (outline N τ).Follows (system N τ) .epoch
    (fun b g' => g' = if b then EpochPlace.verifying cur [] else EpochPlace.starting) (verify cur table)
    (EpochPlace.verifying cur table) := by
  induction table with
  | nil => exact rfl
  | cons tk table ih =>
    intro s e s' h
    by_cases he : e ≠ 0 ∧ e ≠ cur
    · refine ⟨.starting, Or.inl ⟨cur, table, rfl, (if_pos he).symm⟩, ?_⟩
      show (outline N τ).Follows _ _ _ (if e ≠ 0 ∧ e ≠ cur then pure false else verify cur table) _
      rw [if_pos he]
      exact rfl
    · refine ⟨.verifying cur table, Or.inl ⟨cur, table, rfl, (if_neg he).symm⟩, ?_⟩
      show (outline N τ).Follows _ _ _ (if e ≠ 0 ∧ e ≠ cur then pure false else verify cur table) _
      rw [if_neg he]
      exact ih

theorem follows_verifyLoop (fuel : Nat) :
    (outline N τ).Follows (system N τ) .epoch (fun _ g' => ∃ cur, g' = EpochPlace.verifying cur []) (verifyLoop fuel)
    (EpochPlace.starting : EpochPlace N) := by
  induction fuel with
  | zero => trivial
  | succ fuel ih =>
    intro s cur s' h
    refine ⟨.verifying cur (List.finRange N), Or.inl ⟨rfl, rfl⟩, (follows_verify cur _).bind fun b g' hg' => ?_⟩
    cases b with
    | true => exact ⟨cur, hg'⟩
    | false => exact hg' ▸ ih

theorem follows_minScan (table : List (Fin N)) (m : Nat) : (outline N τ).Follows (system N τ) .epoch
    (fun m' g' => g' = EpochPlace.scanning [] m') (minScan table m) (EpochPlace.scanning table m) := by
  induction table generalizing m with
  | nil => exact rfl
  | cons tk table ih =>
    exact fun s e s' h => ⟨.scanning table (if e ≠ 0 then Nat.min m e else m), Or.inr ⟨table, m, rfl, rfl⟩, ih _⟩

theorem follows_epochRound (fuel : Nat) : (outline N τ).Follows (system N τ) .epoch (fun _ g' => g' = EpochPlace.idle)
    (epochRound fuel) (EpochPlace.starting : EpochPlace N) := by
  refine (follows_verifyLoop fuel).bind fun _ g' hg' => ?_
  intro s y s' h
  refine ⟨.scanning (List.finRange N) maxEpoch, ⟨hg', rfl⟩, (follows_minScan _ _).bind fun m g'' hg'' => ?_⟩
  subst hg''
  split
  · rename_i hm
    exact fun s y s' h => ⟨.idle, ⟨Or.inl ⟨m, rfl, hm, rfl⟩, rfl⟩, rfl⟩
  · rename_i hm
    have hmax : m = maxEpoch := by simpa using hm
    subst hmax
    exact fun s e s' h => ⟨.storing (pred e), Or.inr ⟨rfl, rfl⟩, fun s y s' h => ⟨.idle, ⟨Or.inr rfl, rfl⟩, rfl⟩⟩

end

section
variable {tk : Fin N}

/-- The gc thread has read a `gc_epoch`. -/
def GcPlace.Collects (e : Nat) (g : GcPlace) : Prop := ∃ h, g = .collecting e h

theorem follows_popLoop (fuel : Nat) (e : Nat) (g : GcPlace) (hg : g.Collects e) : (outline N τ).Follows (system N τ) .gc
    (fun elem g' => g' = GcPlace.collecting e (some elem)) (popLoop tk fuel) g := by
  induction fuel generalizing g with
  | zero => trivial
  | succ fuel ih =>
    obtain ⟨h, rfl⟩ := hg
    intro s y s' hp
    refine ⟨.collecting e y, ⟨e, h, rfl, rfl⟩, ?_⟩
    cases y with
    | none => exact ih _ ⟨none, rfl⟩
    | some elem => exact rfl

theorem follows_gcNodeLoop (popFuel fuel : Nat) (e : Nat) (g : GcPlace) (hg : g.Collects e) :
    (outline N τ).Follows (system N τ) .gc
    (fun _ _ => True) (gcNodeLoop popFuel tk e fuel) g := by
  induction fuel generalizing g with
  | zero => trivial
  | succ fuel ih =>
    intro s y s' hp
    refine ⟨g, rfl, ?_⟩
    show (outline N τ).Follows _ _ _ (if y = true then pure () else _) _
    split
    · trivial
    · refine (follows_popLoop popFuel e g hg).bind fun elem g' hg' => ?_
      subst hg'
      split
      · exact fun s y s' h => ⟨.collecting e none, ⟨e, some elem, rfl, Or.inr rfl, rfl⟩, trivial⟩
      · rename_i hlt
        exact fun s y s' h => ⟨.collecting e none, ⟨e, rfl, Nat.lt_of_not_le hlt, rfl⟩, ih _ ⟨none, rfl⟩⟩

theorem follows_gcValueLoop (fuel : Nat) (e : Nat) (g : GcPlace) (hg : g.Collects e) :
    (outline N τ).Follows (system N τ) .gc
    (fun _ _ => True) (gcValueLoop tk e fuel) g := by
  induction fuel generalizing g with
  | zero => trivial
  | succ fuel ih =>
    intro s y s' hp
    refine ⟨g, rfl, ?_⟩
    show (outline N τ).Follows _ _ _ (if y = true then pure () else _) _
    split
    · trivial
    · obtain ⟨h, rfl⟩ := hg
      intro s y s' hp
      refine ⟨.collecting e y, ⟨e, h, rfl, rfl⟩, ?_⟩
      cases y with
      | none => exact ih _ ⟨none, rfl⟩
      | some elem =>
        show (outline N τ).Follows _ _ _ (if e ≤ elem.1 then _ else _) _
        split
        · exact fun s y s' h => ⟨.collecting e none, ⟨e, some elem, rfl, Or.inr rfl, rfl⟩, trivial⟩
        · rename_i hlt
          exact fun s y s' h => ⟨.collecting e none, ⟨e, rfl, Nat.lt_of_not_le hlt, rfl⟩, ih _ ⟨none, rfl⟩⟩

theorem follows_gcContainer {loop : Nat → M N Unit} {c : Garbage} (g : GcPlace)
    (hloop : ∀ e g, GcPlace.Collects e g → (outline N τ).Follows (system N τ) .gc (fun _ _ => True) (loop e) g) :
    (outline N τ).Follows (system N τ) .gc (fun _ _ => True) (gcContainer loop tk c) g := by
  refine fun s e s' hp => ⟨.collecting e none, rfl, fun s y s' hp => ⟨.collecting e y, ⟨e, none, rfl, rfl⟩, ?_⟩⟩
  cases y with
  | none => exact hloop e _ ⟨none, rfl⟩
  | some elem =>
    show (outline N τ).Follows _ _ _ (if e ≤ elem.1 then _ else _) _
    split
    · trivial
    · rename_i hlt
      refine fun s y s' h => ⟨.collecting e none, ⟨e, rfl, Nat.lt_of_not_le hlt, rfl⟩, fun s y s' h => ?_⟩
      exact ⟨.collecting e none, ⟨e, none, rfl, Or.inl rfl, rfl⟩, hloop e _ ⟨none, rfl⟩⟩

theorem follows_gcTable (fuel : Nat) (table : List (Fin N)) (g : GcPlace) :
    (outline N τ).Follows (system N τ) .gc (fun _ _ => True) (gcTable fuel table) g := by
  induction table generalizing g with
  | nil => trivial
  | cons tk table ih =>
    refine (follows_gcContainer g fun e g hg => follows_gcNodeLoop fuel fuel e g hg).bind fun _ g' _ => ?_
    exact (follows_gcContainer g' fun e g hg => follows_gcValueLoop fuel e g hg).bind fun _ g'' _ => ih g''

end

theorem outline_valid : (outline N τ).Valid (system N τ) where
  start := fun
    | .session _ => ⟨fun _ => rfl, nofun⟩
    | .epoch => rfl
    | .gc => trivial
  call := by
    rintro (t | _ | _) done x p g hg ⟨hx, fuel, rfl⟩
    · exact follows_session hg hx fuel
    · cases x with
      | epochRound =>
        obtain rfl := hg
        exact ⟨EpochPlace.starting, ⟨rfl, rfl⟩, (follows_epochRound fuel).bind fun _ _ hg' => hg'⟩
      | _ => cases hx
    · cases x with
      | gcRound =>
        refine ⟨g, rfl, (follows_gcTable fuel _ g).bind fun _ _ _ => ?_⟩
        exact trivial
      | _ => cases hx

end Session
end Yakushima
