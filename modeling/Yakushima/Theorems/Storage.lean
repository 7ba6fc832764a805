import Yakushima.Lib.Schedule
import Yakushima.Model.Storage

/-! # Storages that are created and deleted in parallel

A `delete_storage` destroys the tree that it looked up, and removes what the name is bound to later. In a run in which
these never differ every tree that is taken out of the directory is destroyed, once. -/

namespace Yakushima
namespace Storage
open Lib

variable {τ : Type} [DecidableEq τ] {n : Nat}

/-! ### Places -/

/-- Where a thread is, with what it has in its hand. -/
inductive Place where
  | idle
  | called (x : Call)
  | made (name : Key) (b : NodeId)
  | refused (name : Key) (b : NodeId) (st : Status)
  | found (name : Key) (ti : TreeId)
  | taken (name : Key) (ti : TreeId)
  | loaded (name : Key) (ti : TreeId) (r : NodeId)
  | spent (name : Key) (ti : TreeId) (r : NodeId)
  | answers (x : Call) (st : Status)

namespace Place

/-- The call of a thread at a place, and the rest of its program. -/
def active : Place → Option (Call × M Status)
  | idle => none
  | called x => some (x, x.prog)
  | made name b => some (.create name, do
      let st ← perform (.putUnique name b)
      if st ≠ .ok then perform (.deleteBorder b)
      pure st)
  | refused name b st => some (.create name, do
      perform (.deleteBorder b)
      pure st)
  | found name ti => some (.delete name, deleteFound name ti)
  | taken name ti => some (.delete name, do
      match ← perform (.loadRoot ti) with
      | some tablesRoot => do
        perform (.destroy tablesRoot)
        perform (.storeRoot ti none)
      | none => pure ()
      pure .ok)
  | loaded name ti r => some (.delete name, do
      perform (.destroy r)
      perform (.storeRoot ti none)
      pure .ok)
  | spent name ti _ => some (.delete name, do
      perform (.storeRoot ti none)
      pure .ok)
  | answers x st => some (x, .ret st)

/-- The border that `create_storage` made and has not put yet. -/
def border : Place → Option NodeId
  | made _ b | refused _ b _ => some b
  | _ => none

/-- The tree that `delete_storage` is to destroy. -/
def claim : Place → Option TreeId
  | taken _ ti | loaded _ ti _ | spent _ ti _ => some ti
  | _ => none

/-- The root that `delete_storage` loaded. -/
def handed : Place → Option (TreeId × NodeId)
  | loaded _ ti r | spent _ ti r => some (ti, r)
  | _ => none

/-- The root that `delete_storage` destroyed and that the instance still has. -/
def destroyed : Place → Option (TreeId × NodeId)
  | spent _ ti r => some (ti, r)
  | _ => none

/-- What a thread does from a place. -/
inductive Moves (s : State) : Place → State → Place → Prop where
  | begins (x : Call) : Moves s .idle s (.called x)
  | newBorder (name : Key) : Moves s (.called (.create name)) { s with nextNode := s.nextNode + 1 } (.made name s.nextNode)
  | put (name : Key) (b : NodeId) (h : s.directory name = none) :
      Moves s (.made name b)
        { s with
          directory := Function.update s.directory name (some s.nextTree)
          root := Function.update s.root s.nextTree (some b)
          nextTree := s.nextTree + 1 }
        (.answers (.create name) .ok)
  | putRefused (name : Key) (b : NodeId) (h : s.directory name ≠ none) :
      Moves s (.made name b) s (.refused name b .warnUniqueRestriction)
  | deleteBorder (name : Key) (b : NodeId) (st : Status) :
      Moves s (.refused name b st) { s with freed := b :: s.freed } (.answers (.create name) st)
  | missing (name : Key) (h : s.directory name = none) :
      Moves s (.called (.delete name)) s (.answers (.delete name) .warnNotExist)
  | found (name : Key) (ti : TreeId) (h : s.directory name = some ti) : Moves s (.called (.delete name)) s (.found name ti)
  | removeMissed (name : Key) (ti : TreeId) (h : s.directory name = none) :
      Moves s (.found name ti) s (.answers (.delete name) .warnConcurrentOperations)
  | remove (name : Key) (ti : TreeId) (h : s.directory name ≠ none) :
      Moves s (.found name ti) { s with directory := Function.update s.directory name none } (.taken name ti)
  | loadNull (name : Key) (ti : TreeId) (h : s.root ti = none) : Moves s (.taken name ti) s (.answers (.delete name) .ok)
  | load (name : Key) (ti : TreeId) (r : NodeId) (h : s.root ti = some r) : Moves s (.taken name ti) s (.loaded name ti r)
  | destroy (name : Key) (ti : TreeId) (r : NodeId) : Moves s (.loaded name ti r) { s with freed := r :: s.freed }
    (.spent name ti r)
  | storeRoot (name : Key) (ti : TreeId) (r : NodeId) :
      Moves s (.spent name ti r) { s with root := Function.update s.root ti none } (.answers (.delete name) .ok)
  | returns (x : Call) (st : Status) : Moves s (.answers x st) s .idle

end Place

abbrev Conf (τ : Type) := Config Op State τ Call Status

/-- The places fit to the programs of the threads. -/
def At (c : Conf τ) (P : τ → Place) : Prop := ∀ t, (c.thread t).active = (P t).active

variable {c c' : Conf τ} {P : τ → Place} {t : τ}

/-- An operation of a thread is a move from its place. -/
theorem exists_move {x : Call} {δ : Type} {o : Op δ} {k : δ → M Status} {y : δ} {s s' : State} {g : Place}
    (hg : g.active = some (x, .step o k)) (hp : exec o s = (y, s')) : ∃ g', Place.Moves s g s' g' ∧
    g'.active = some (x, k y) := by
  cases g with
  | idle => cases hg
  | called z => cases z with
    | create name =>
      cases hg
      cases hp
      exact ⟨_, .newBorder name, rfl⟩
    | delete name =>
      cases hg
      cases hp
      cases hd : s.directory name with
      | none => exact ⟨_, .missing name hd, rfl⟩
      | some ti => exact ⟨_, .found name ti hd, rfl⟩
  | made name b =>
    cases hg
    by_cases hd : s.directory name = none
    · simp only [exec, if_pos hd] at hp
      cases hp
      exact ⟨_, .put name b hd, rfl⟩
    · simp only [exec, if_neg hd] at hp
      cases hp
      exact ⟨_, .putRefused name b hd, rfl⟩
  | refused name b st =>
    cases hg
    cases hp
    exact ⟨_, .deleteBorder name b st, rfl⟩
  | found name ti =>
    cases hg
    by_cases hd : s.directory name = none
    · simp only [exec, if_pos hd] at hp
      cases hp
      exact ⟨_, .removeMissed name ti hd, rfl⟩
    · simp only [exec, if_neg hd] at hp
      cases hp
      exact ⟨_, .remove name ti hd, rfl⟩
  | taken name ti =>
    cases hg
    cases hp
    cases hr : s.root ti with
    | none => exact ⟨_, .loadNull name ti hr, rfl⟩
    | some r => exact ⟨_, .load name ti r hr, rfl⟩
  | loaded name ti r =>
    cases hg
    cases hp
    exact ⟨_, .destroy name ti r, rfl⟩
  | spent name ti r =>
    cases hg
    cases hp
    exact ⟨_, .storeRoot name ti r, rfl⟩
  | answers z st => cases hg

/-- A step of the system is a move of one thread. -/
theorem exists_places (hat : At c P) (h : (system τ).Step t c c') :
    ∃ g', Place.Moves c.state (P t) c'.state g' ∧ At c' (Function.update P t g') := by
  have hothers : ∀ {g' : Place}, (c'.thread t).active = g'.active → At c' (Function.update P t g') := by
    intro g' hg' u
    by_cases hu : u = t
    · subst hu
      rwa [Function.update_self]
    · rw [Function.update_of_ne hu, h.other hu]
      exact hat u
  have hactive := hat t
  cases h with
  | @invoke x p idle allowed =>
    obtain rfl := allowed
    rw [idle] at hactive
    have hidle : P t = .idle := by
      generalize P t = g at hactive
      cases g <;> first | rfl | cases hactive
    rw [hidle]
    exact ⟨_, .begins x, hothers (by simp only [Function.update_self]; rfl)⟩
  | @op δ x o k y s active performs =>
    obtain ⟨g', hm, hg'⟩ := exists_move (hactive.symm.trans active) performs
    exact ⟨g', hm, hothers (by simp only [Function.update_self]; exact hg'.symm)⟩
  | @ret x a active =>
    rw [active] at hactive
    obtain hret : P t = .answers x a := by
      generalize P t = g at hactive
      cases g with
      | called z => cases z <;> cases hactive
      | answers z st => cases hactive; rfl
      | _ => cases hactive
    rw [hret]
    exact ⟨_, .returns x a, hothers (by simp only [Function.update_self]; rfl)⟩

theorem acts_remove {name : Key} {ti : TreeId} (hat : At c P) (h : (system τ).Step t c c') (hg : P t = .found name ti)
    (hd : c.state.directory name ≠ none) : (system τ).Acts t (.remove name) .ok c c' := by
  have hactive := hat t
  rw [hg] at hactive
  cases h with
  | @invoke x p idle allowed => cases idle.symm.trans hactive
  | @ret x a active => cases active.symm.trans hactive
  | @op δ x o k y s active performs =>
    cases active.symm.trans hactive
    have hp : exec (.remove name) c.state = (y, s) := performs
    simp only [exec, if_neg hd] at hp
    cases hp
    exact ⟨by simp only [system, exec, if_neg hd], _, _, active, rfl⟩

/-! ### What a step keeps -/

/-- Who has the trees and the nodes. -/
structure Inv (s : State) (P : τ → Place) : Prop where
  named : ∀ name ti, s.directory name = some ti → ti < s.nextTree ∧ (∃ r, s.root ti = some r) ∧
    ∀ name', s.directory name' = some ti → name' = name
  claimed : ∀ t ti, (P t).claim = some ti → ti < s.nextTree ∧ (∀ name, s.directory name ≠ some ti) ∧
    ∀ u, (P u).claim = some ti → u = t
  handed : ∀ t ti r, (P t).handed = some (ti, r) → s.root ti = some r
  root : ∀ ti r, s.root ti = some r → ti < s.nextTree ∧ r < s.nextNode ∧ ∀ ti', s.root ti' = some r → ti' = ti
  border : ∀ t b, (P t).border = some b → b < s.nextNode ∧ b ∉ s.freed ∧ (∀ ti, s.root ti ≠ some b) ∧
    ∀ u, (P u).border = some b → u = t
  destroyed : ∀ t ti r, (P t).destroyed = some (ti, r) → r ∈ s.freed
  freed : ∀ r ∈ s.freed, r < s.nextNode ∧ ∀ ti, s.root ti = some r → ∃ t, (P t).destroyed = some (ti, r)
  once : s.freed.Nodup

namespace Inv
variable {s : State}

omit [DecidableEq τ] in
/-- The root of a tree that is not being destroyed is not freed. -/
theorem not_freed {ti : TreeId} {r : NodeId} (h : Inv s P) (hr : s.root ti = some r)
    (hno : ∀ t, (P t).destroyed ≠ some (ti, r)) : r ∉ s.freed := by
  intro hmem
  obtain ⟨t, ht⟩ := (h.freed r hmem).2 ti hr
  exact hno t ht

omit [DecidableEq τ] in
theorem start : Inv State.init fun _ : τ => .idle where
  named := nofun
  claimed := nofun
  handed := nofun
  root := nofun
  border := nofun
  destroyed := nofun
  freed := nofun
  once := List.nodup_nil

theorem update_eq_some {α β : Type} [DecidableEq α] {f : α → Option β} {a x : α} {v : Option β} {y : β}
    (h : Function.update f a v x = some y) :
    (x = a ∧ v = some y) ∨ (x ≠ a ∧ f x = some y) := by
  by_cases hx : x = a
  · subst hx
    rw [Function.update_self] at h
    exact Or.inl ⟨rfl, h⟩
  · rw [Function.update_of_ne hx] at h
    exact Or.inr ⟨hx, h⟩

theorem update_some {α : Type} {f : Place → Option α} {g' : Place} {u : τ} {x : α}
    (h : f (Function.update P t g' u) = some x) :
    (u = t ∧ f g' = some x) ∨ (u ≠ t ∧ f (P u) = some x) := by
  by_cases hu : u = t
  · subst hu
    rw [Function.update_self] at h
    exact Or.inl ⟨rfl, h⟩
  · rw [Function.update_of_ne hu] at h
    exact Or.inr ⟨hu, h⟩

/-- A thread that gets nothing new in its hand. -/
theorem update_sub {α : Type} {f : Place → Option α} {g' : Place} (hsub : ∀ x, f g' = some x → f (P t) = some x)
    {u : τ} {x : α} (h : f (Function.update P t g' u) = some x) : f (P u) = some x := by
  rcases update_some h with ⟨rfl, hx⟩ | ⟨-, hx⟩
  · exact hsub x hx
  · exact hx

/-- What a thread has in its hand stays there while others move. -/
theorem some_update {α : Type} {f : Place → Option α} {g' : Place} {x : α} (hg : f (P t) = some x → f g' = some x)
    (h : ∃ u, f (P u) = some x) :
    ∃ u, f (Function.update P t g' u) = some x := by
  obtain ⟨u, hu⟩ := h
  refine ⟨u, ?_⟩
  by_cases hne : u = t
  · subst hne
    rw [Function.update_self]
    exact hg hu
  · rwa [Function.update_of_ne hne]

/-- A move that leaves the state, and after which the thread has no more in its hand than before. -/
theorem quiet {g' : Place} (h : Inv s P) (hborder : ∀ b, g'.border = some b → (P t).border = some b)
    (hclaim : ∀ ti, g'.claim = some ti → (P t).claim = some ti) (hhanded : ∀ x, g'.handed = some x → s.root x.1 = some x.2)
    (hdestroyed : g'.destroyed = (P t).destroyed) : Inv s (Function.update P t g') where
  named := h.named
  claimed := by
    intro u ti hu
    obtain ⟨hlt, hdir, huniq⟩ := h.claimed u ti (update_sub hclaim hu)
    exact ⟨hlt, hdir, fun v hv => huniq v (update_sub hclaim hv)⟩
  handed := by
    intro u ti r hu
    rcases update_some hu with ⟨-, hu⟩ | ⟨-, hu⟩
    · exact hhanded _ hu
    · exact h.handed u ti r hu
  root := h.root
  border := by
    intro u b hu
    obtain ⟨hlt, hfreed, hroot, huniq⟩ := h.border u b (update_sub hborder hu)
    exact ⟨hlt, hfreed, hroot, fun v hv => huniq v (update_sub hborder hv)⟩
  destroyed := fun u ti r hu => h.destroyed u ti r (update_sub (fun x hx => hdestroyed ▸ hx) hu)
  freed := fun r hr => ⟨(h.freed r hr).1, fun ti hti => some_update (fun hx => hdestroyed ▸ hx) ((h.freed r hr).2 ti hti)⟩
  once := h.once

theorem newBorder {name : Key} (h : Inv s P) (hg : P t = .called (.create name)) :
    Inv { s with nextNode := s.nextNode + 1 } (Function.update P t (.made name s.nextNode)) where
  named := h.named
  claimed := by
    intro u ti hu
    obtain ⟨hlt, hdir, huniq⟩ := h.claimed u ti (update_sub nofun hu)
    exact ⟨hlt, hdir, fun v hv => huniq v (update_sub nofun hv)⟩
  handed := fun u ti r hu => h.handed u ti r (update_sub nofun hu)
  root := by
    intro ti r hr
    obtain ⟨hti, hlt, huniq⟩ := h.root ti r hr
    exact ⟨hti, Nat.lt_succ_of_lt hlt, huniq⟩
  border := by
    intro u b hu
    rcases update_some hu with ⟨rfl, hb⟩ | ⟨hne, hb⟩
    · cases hb
      refine ⟨Nat.lt_succ_self _, fun hmem => Nat.lt_irrefl _ (h.freed _ hmem).1,
        fun ti hti => Nat.lt_irrefl _ (h.root ti _ hti).2.1, fun v hv => ?_⟩
      rcases update_some hv with ⟨rfl, -⟩ | ⟨-, hv⟩
      · rfl
      · exact absurd (h.border v _ hv).1 (Nat.lt_irrefl _)
    · obtain ⟨hlt, hfreed, hroot, huniq⟩ := h.border u b hb
      refine ⟨Nat.lt_succ_of_lt hlt, hfreed, hroot, fun v hv => ?_⟩
      rcases update_some hv with ⟨-, hv⟩ | ⟨-, hv⟩
      · cases hv
        exact absurd hlt (Nat.lt_irrefl _)
      · exact huniq v hv
  destroyed := fun u ti r hu => h.destroyed u ti r (update_sub nofun hu)
  freed := by
    intro r hr
    refine ⟨Nat.lt_succ_of_lt (h.freed r hr).1, fun ti hti => some_update (fun hx => ?_) ((h.freed r hr).2 ti hti)⟩
    rw [hg] at hx
    cases hx
  once := h.once

/-- The border of a thread that puts it or gives it up is nobody's afterwards. -/
theorem border_gone {b : NodeId} (h : Inv s P) (x : Call) (st : Status) (hb : (P t).border = some b)
    (hd : (P t).destroyed = none) :
    Inv s (Function.update P t (.answers x st)) ∧ b < s.nextNode ∧ b ∉ s.freed ∧ (∀ ti, s.root ti ≠ some b) ∧
      ∀ u, ((Function.update P t (.answers x st)) u).border ≠ some b := by
  obtain ⟨hlt, hfreed, hroot, huniq⟩ := h.border t b hb
  refine ⟨h.quiet nofun nofun nofun hd.symm, hlt, hfreed, hroot, fun u hu => ?_⟩
  rcases update_some hu with ⟨-, hu⟩ | ⟨hne, hu⟩
  · cases hu
  · exact hne (huniq u hu)

theorem put {name : Key} {b : NodeId} (h : Inv s P) (hg : P t = .made name b) (hd : s.directory name = none) :
    Inv
      { s with
        directory := Function.update s.directory name (some s.nextTree)
        root := Function.update s.root s.nextTree (some b)
        nextTree := s.nextTree + 1 }
      (Function.update P t (.answers (.create name) .ok)) := by
  obtain ⟨hq, hlt, hfreed, hroot, hborder⟩ := h.border_gone (.create name) .ok (by rw [hg]; rfl) (by rw [hg]; rfl)
  generalize Function.update P t (.answers (.create name) .ok) = P' at hq hborder
  -- The new tree is not one of the old ones.
  have hdir : ∀ {name' ti}, s.directory name' = some ti → ti ≠ s.nextTree := fun hti => Nat.ne_of_lt (hq.named _ _ hti).1
  have hnew : ∀ {ti r}, s.root ti = some r → ti ≠ s.nextTree := fun hti => Nat.ne_of_lt (hq.root _ _ hti).1
  have hroots : ∀ {ti r}, Function.update s.root s.nextTree (some b) ti = some r → (ti = s.nextTree ∧ r = b) ∨
    s.root ti = some r := by
    intro ti r hr
    rcases update_eq_some hr with ⟨hti, hr⟩ | ⟨-, hr⟩
    · exact Or.inl ⟨hti, (Option.some.inj hr).symm⟩
    · exact Or.inr hr
  have hdirs : ∀ {name' ti}, Function.update s.directory name (some s.nextTree) name' = some ti →
      (name' = name ∧ ti = s.nextTree) ∨ s.directory name' = some ti := by
    intro name' ti hti
    rcases update_eq_some hti with ⟨hname, hti⟩ | ⟨-, hti⟩
    · exact Or.inl ⟨hname, (Option.some.inj hti).symm⟩
    · exact Or.inr hti
  exact {
    named := by
      intro name' ti hti
      rcases hdirs hti with ⟨rfl, rfl⟩ | hti
      · refine ⟨Nat.lt_succ_self _, ⟨b, Function.update_self ..⟩, fun name'' h' => ?_⟩
        rcases hdirs h' with ⟨h', -⟩ | h'
        · exact h'
        · exact absurd rfl (hdir h')
      · obtain ⟨hlt, ⟨r, hr⟩, huniq⟩ := hq.named name' ti hti
        refine ⟨Nat.lt_succ_of_lt hlt, ⟨r, (Function.update_of_ne (hnew hr) _ _).trans hr⟩, fun name'' h' => ?_⟩
        rcases hdirs h' with ⟨-, h'⟩ | h'
        · exact absurd h' (hdir hti)
        · exact huniq name'' h'
    claimed := by
      intro u ti hu
      obtain ⟨hlt, hno, huniq⟩ := hq.claimed u ti hu
      refine ⟨Nat.lt_succ_of_lt hlt, fun name' hname => ?_, huniq⟩
      rcases hdirs hname with ⟨-, rfl⟩ | hname
      · exact Nat.lt_irrefl _ hlt
      · exact hno name' hname
    handed := by
      intro u ti r hu
      have hr := hq.handed u ti r hu
      exact (Function.update_of_ne (hnew hr) _ _).trans hr
    root := by
      intro ti r hr
      rcases hroots hr with ⟨rfl, rfl⟩ | hold
      · refine ⟨Nat.lt_succ_self _, hlt, fun ti' h' => ?_⟩
        rcases hroots h' with ⟨h', -⟩ | h'
        · exact h'
        · exact absurd h' (hroot ti')
      · obtain ⟨hti, hrn, huniq⟩ := hq.root ti r hold
        refine ⟨Nat.lt_succ_of_lt hti, hrn, fun ti' h' => ?_⟩
        rcases hroots h' with ⟨-, rfl⟩ | h'
        · exact absurd hold (hroot ti)
        · exact huniq ti' h'
    border := by
      intro u b' hu
      obtain ⟨hlt', hfreed', hroot', huniq⟩ := hq.border u b' hu
      refine ⟨hlt', hfreed', fun ti hti => ?_, huniq⟩
      rcases hroots hti with ⟨-, rfl⟩ | hti
      · exact hborder u hu
      · exact hroot' ti hti
    destroyed := hq.destroyed
    freed := by
      intro r hr
      refine ⟨(hq.freed r hr).1, fun ti hti => ?_⟩
      rcases hroots hti with ⟨-, rfl⟩ | hti
      · exact absurd hr hfreed
      · exact (hq.freed r hr).2 ti hti
    once := hq.once }

theorem deleteBorder {name : Key} {b : NodeId} {st : Status} (h : Inv s P) (hg : P t = .refused name b st) :
    Inv { s with freed := b :: s.freed } (Function.update P t (.answers (.create name) st)) := by
  obtain ⟨hq, hlt, hfreed, hroot, hborder⟩ := h.border_gone (.create name) st (by rw [hg]; rfl) (by rw [hg]; rfl)
  generalize Function.update P t (.answers (.create name) st) = P' at hq hborder
  exact {
    named := hq.named
    claimed := hq.claimed
    handed := hq.handed
    root := hq.root
    border := by
      intro u b' hu
      obtain ⟨hlt', hfreed', hroot', huniq⟩ := hq.border u b' hu
      refine ⟨hlt', fun hmem => ?_, hroot', huniq⟩
      rcases List.mem_cons.mp hmem with rfl | hmem
      · exact hborder u hu
      · exact hfreed' hmem
    destroyed := fun u ti r hu => List.mem_cons_of_mem _ (hq.destroyed u ti r hu)
    freed := by
      intro r hr
      rcases List.mem_cons.mp hr with rfl | hr
      · exact ⟨hlt, fun ti hti => absurd hti (hroot ti)⟩
      · exact hq.freed r hr
    once := List.nodup_cons.mpr ⟨hfreed, hq.once⟩ }

/-- The `remove` takes out the tree that the call found. -/
theorem remove {name : Key} {ti : TreeId} (h : Inv s P) (hg : P t = .found name ti) (hd : s.directory name = some ti) :
    Inv { s with directory := Function.update s.directory name none } (Function.update P t (.taken name ti)) := by
  have hdirs : ∀ {name' ti'}, Function.update s.directory name none name' = some ti' → name' ≠ name ∧
    s.directory name' = some ti' := by
    intro name' ti' h'
    rcases update_eq_some h' with ⟨-, h'⟩ | h'
    · cases h'
    · exact h'
  exact {
    named := by
      intro name' ti' h'
      obtain ⟨hlt, hroot, huniq⟩ := h.named name' ti' (hdirs h').2
      exact ⟨hlt, hroot, fun name'' h'' => huniq name'' (hdirs h'').2⟩
    claimed := by
      intro u ti' hu
      rcases update_some hu with ⟨rfl, hclaim⟩ | ⟨hne, hclaim⟩
      · cases hclaim
        obtain ⟨hlt, -, huniq⟩ := h.named name ti hd
        refine ⟨hlt, fun name' h' => (hdirs h').1 (huniq name' (hdirs h').2), fun v hv => ?_⟩
        rcases update_some hv with ⟨rfl, -⟩ | ⟨-, hv⟩
        · rfl
        · exact absurd hd ((h.claimed v ti hv).2.1 name)
      · obtain ⟨hlt, hno, huniq⟩ := h.claimed u ti' hclaim
        refine ⟨hlt, fun name' h' => hno name' (hdirs h').2, fun v hv => ?_⟩
        rcases update_some hv with ⟨-, hv'⟩ | ⟨-, hv'⟩
        · cases hv'
          exact absurd hd (hno name)
        · exact huniq v hv'
    handed := fun u ti' r hu => h.handed u ti' r (update_sub nofun hu)
    root := h.root
    border := by
      intro u b hu
      obtain ⟨hlt, hfreed, hroot, huniq⟩ := h.border u b (update_sub nofun hu)
      exact ⟨hlt, hfreed, hroot, fun v hv => huniq v (update_sub nofun hv)⟩
    destroyed := fun u ti' r hu => h.destroyed u ti' r (update_sub nofun hu)
    freed := by
      intro r hr
      refine ⟨(h.freed r hr).1, fun ti' hti' => some_update (fun hx => ?_) ((h.freed r hr).2 ti' hti')⟩
      rw [hg] at hx
      cases hx
    once := h.once }

theorem destroy {name : Key} {ti : TreeId} {r : NodeId} (h : Inv s P) (hg : P t = .loaded name ti r) :
    r ∉ s.freed ∧ Inv { s with freed := r :: s.freed } (Function.update P t (.spent name ti r)) := by
  have hroot : s.root ti = some r := h.handed t ti r (by rw [hg]; rfl)
  have hclaim : (P t).claim = some ti := by rw [hg]; rfl
  -- Another thread that destroyed the root would have claimed the tree.
  have hfreed : r ∉ s.freed := by
    refine h.not_freed hroot fun u hu => ?_
    have hu' : (P u).claim = some ti := by
      generalize P u = g at hu
      cases g <;> cases hu
      rfl
    obtain rfl := (h.claimed t ti hclaim).2.2 u hu'
    rw [hg] at hu
    cases hu
  refine ⟨hfreed, ?_⟩
  have hsub : ∀ x, (Place.spent name ti r).claim = some x → (P t).claim = some x := by
    rw [hg]
    exact fun _ hx => hx
  exact {
    named := h.named
    claimed := by
      intro u ti' hu
      obtain ⟨hlt, hno, huniq⟩ := h.claimed u ti' (update_sub hsub hu)
      exact ⟨hlt, hno, fun v hv => huniq v (update_sub hsub hv)⟩
    handed := by
      refine fun u ti' r' hu => h.handed u ti' r' (update_sub ?_ hu)
      rw [hg]
      exact fun _ hx => hx
    root := h.root
    border := by
      intro u b hu
      obtain ⟨hlt, hnot, hno, huniq⟩ := h.border u b (update_sub nofun hu)
      refine ⟨hlt, fun hmem => ?_, hno, fun v hv => huniq v (update_sub nofun hv)⟩
      rcases List.mem_cons.mp hmem with rfl | hmem
      · exact hno ti hroot
      · exact hnot hmem
    destroyed := by
      intro u ti' r' hu
      rcases update_some hu with ⟨-, hu'⟩ | ⟨-, hu'⟩
      · cases hu'
        exact List.mem_cons_self
      · exact List.mem_cons_of_mem _ (h.destroyed u ti' r' hu')
    freed := by
      intro r' hr'
      rcases List.mem_cons.mp hr' with rfl | hr'
      · refine ⟨(h.root ti r' hroot).2.1, fun ti' hti' => ⟨t, ?_⟩⟩
        rw [Function.update_self, (h.root ti r' hroot).2.2 ti' hti']
        rfl
      · refine ⟨(h.freed r' hr').1, fun ti' hti' => some_update (fun hx => ?_) ((h.freed r' hr').2 ti' hti')⟩
        rw [hg] at hx
        cases hx
    once := List.nodup_cons.mpr ⟨hfreed, h.once⟩ }

theorem storeRoot {name : Key} {ti : TreeId} {r : NodeId} (h : Inv s P) (hg : P t = .spent name ti r) :
    Inv { s with root := Function.update s.root ti none } (Function.update P t (.answers (.delete name) .ok)) := by
  have hclaim : (P t).claim = some ti := by rw [hg]; rfl
  obtain ⟨-, hno, hclaims⟩ := h.claimed t ti hclaim
  have hroots : ∀ {ti' r'}, Function.update s.root ti none ti' = some r' → ti' ≠ ti ∧ s.root ti' = some r' := by
    intro ti' r' h'
    rcases update_eq_some h' with ⟨-, h'⟩ | h'
    · cases h'
    · exact h'
  exact {
    named := by
      intro name' ti' h'
      obtain ⟨hlt, ⟨r', hr'⟩, huniq⟩ := h.named name' ti' h'
      have hne : ti' ≠ ti := by
        rintro rfl
        exact hno name' h'
      exact ⟨hlt, ⟨r', (Function.update_of_ne hne _ _).trans hr'⟩, huniq⟩
    claimed := by
      intro u ti' hu
      obtain ⟨hlt, hno', huniq⟩ := h.claimed u ti' (update_sub nofun hu)
      exact ⟨hlt, hno', fun v hv => huniq v (update_sub nofun hv)⟩
    handed := by
      intro u ti' r' hu
      rcases update_some hu with ⟨-, hu'⟩ | ⟨hne, hu'⟩
      · cases hu'
      · have hti : ti' ≠ ti := by
          rintro rfl
          refine hne (hclaims u ?_)
          generalize P u = g at hu'
          cases g <;> cases hu' <;> rfl
        exact (Function.update_of_ne hti _ _).trans (h.handed u ti' r' hu')
    root := by
      intro ti' r' h'
      obtain ⟨hlt, hr', huniq⟩ := h.root ti' r' (hroots h').2
      exact ⟨hlt, hr', fun ti'' h'' => huniq ti'' (hroots h'').2⟩
    border := by
      intro u b hu
      obtain ⟨hlt, hnot, hnr, huniq⟩ := h.border u b (update_sub nofun hu)
      exact ⟨hlt, hnot, fun ti' h' => hnr ti' (hroots h').2, fun v hv => huniq v (update_sub nofun hv)⟩
    destroyed := fun u ti' r' hu => h.destroyed u ti' r' (update_sub nofun hu)
    freed := by
      intro r' hr'
      refine ⟨(h.freed r' hr').1, fun ti' h' => some_update (fun hx => ?_) ((h.freed r' hr').2 ti' (hroots h').2)⟩
      rw [hg] at hx
      cases hx
      exact absurd rfl (hroots h').1
    once := h.once }

/-- A move keeps the invariant, when what it removes from the directory is what the call found. -/
theorem move {s' : State} {g' : Place} (h : Inv s P) (hm : Place.Moves s (P t) s' g')
    (hsame : ∀ name ti, P t = .found name ti → ∀ ti', s.directory name = some ti' → ti' = ti) :
    Inv s' (Function.update P t g') := by
  generalize hg : P t = g at hm
  cases hm with
  | begins x => exact h.quiet nofun nofun nofun (by rw [hg]; rfl)
  | newBorder name => exact h.newBorder hg
  | put name b hd => exact h.put hg hd
  | putRefused name b hd =>
    refine h.quiet ?_ nofun nofun (by rw [hg]; rfl)
    rw [hg]
    exact fun _ hb => hb
  | deleteBorder name b st => exact h.deleteBorder hg
  | missing name hd => exact h.quiet nofun nofun nofun (by rw [hg]; rfl)
  | found name ti hd => exact h.quiet nofun nofun nofun (by rw [hg]; rfl)
  | removeMissed name ti hd => exact h.quiet nofun nofun nofun (by rw [hg]; rfl)
  | remove name ti hd =>
    obtain ⟨ti', hti'⟩ := Option.ne_none_iff_exists'.mp hd
    obtain rfl := hsame name ti hg ti' hti'
    exact h.remove hg hti'
  | loadNull name ti hr => exact h.quiet nofun nofun nofun (by rw [hg]; rfl)
  | load name ti r hr =>
    refine h.quiet nofun ?_ ?_ (by rw [hg]; rfl)
    · rw [hg]
      exact fun _ hti => hti
    · rintro x ⟨⟩
      exact hr
  | destroy name ti r => exact (h.destroy hg).2
  | storeRoot name ti r => exact h.storeRoot hg
  | returns x st => exact h.quiet nofun nofun nofun (by rw [hg]; rfl)

end Inv

/-! ### What becomes of a tree -/

/-- The tree `ti` with the root `r` is in the directory under the name, or a thread is about to destroy it, or its
    root is freed. -/
def Kept (name : Key) (ti : TreeId) (r : NodeId) (s : State) (P : τ → Place) : Prop :=
  (s.directory name = some ti ∧ s.root ti = some r) ∨ (∃ t, (P t).claim = some ti ∧ s.root ti = some r) ∨ r ∈ s.freed

theorem Kept.move {s s' : State} {g' : Place} {name : Key} {ti : TreeId} {r : NodeId} (h : Kept name ti r s P) (H : Inv s P)
    (hm : Place.Moves s (P t) s' g')
    (hsame : ∀ name ti, P t = .found name ti → ∀ ti', s.directory name = some ti' → ti' = ti) :
    Kept name ti r s' (Function.update P t g') := by
  -- A claim is given up only when the root is null or freed.
  have hclaims : (∃ u, (P u).claim = some ti ∧ s.root ti = some r) → ((P t).claim = some ti → g'.claim = some ti) →
      ∃ u, ((Function.update P t g') u).claim = some ti ∧ s.root ti = some r := by
    rintro ⟨u, hu, hr⟩ hg
    obtain ⟨v, hv⟩ := Inv.some_update (f := Place.claim) hg ⟨u, hu⟩
    exact ⟨v, hv, hr⟩
  generalize hg : P t = g at hm hclaims
  cases hm with
  | begins x => exact h.imp_right (Or.imp_left fun hc => hclaims hc nofun)
  | newBorder name' => exact h.imp_right (Or.imp_left fun hc => hclaims hc nofun)
  | put name' b hd =>
    rcases h with ⟨hti, hr⟩ | hc | hmem
    · have hne : name ≠ name' := by
        rintro rfl
        rw [hd] at hti
        cases hti
      have hlt := (H.named name ti hti).1
      exact Or.inl ⟨(Function.update_of_ne hne _ _).trans hti, (Function.update_of_ne (Nat.ne_of_lt hlt) _ _).trans hr⟩
    · obtain ⟨u, hu, hr⟩ := hclaims hc nofun
      exact Or.inr (Or.inl ⟨u, hu, (Function.update_of_ne (Nat.ne_of_lt (H.root ti r hr).1) _ _).trans hr⟩)
    · exact Or.inr (Or.inr hmem)
  | putRefused name' b hd => exact h.imp_right (Or.imp_left fun hc => hclaims hc nofun)
  | deleteBorder name' b st => exact h.imp_right (Or.imp (fun hc => hclaims hc nofun) (List.mem_cons_of_mem _))
  | missing name' hd => exact h.imp_right (Or.imp_left fun hc => hclaims hc nofun)
  | found name' ti' hd => exact h.imp_right (Or.imp_left fun hc => hclaims hc nofun)
  | removeMissed name' ti' hd => exact h.imp_right (Or.imp_left fun hc => hclaims hc nofun)
  | remove name' ti' hd =>
    rcases h with ⟨hti, hr⟩ | hc | hmem
    · by_cases hname : name = name'
      · subst hname
        obtain rfl := hsame name ti' hg ti hti
        exact Or.inr (Or.inl ⟨t, by rw [Function.update_self]; rfl, hr⟩)
      · exact Or.inl ⟨(Function.update_of_ne hname _ _).trans hti, hr⟩
    · exact Or.inr (Or.inl (hclaims hc nofun))
    · exact Or.inr (Or.inr hmem)
  | loadNull name' ti' hr' =>
    refine h.imp_right (Or.imp_left fun hc => hclaims hc fun hti => ?_)
    obtain ⟨-, -, hr⟩ := hc
    cases hti
    rw [hr'] at hr
    cases hr
  | load name' ti' r' hr' => exact h.imp_right (Or.imp_left fun hc => hclaims hc fun hti => hti)
  | destroy name' ti' r' => exact h.imp_right (Or.imp (fun hc => hclaims hc fun hti => hti) (List.mem_cons_of_mem _))
  | storeRoot name' ti' r' =>
    have hclaim : (P t).claim = some ti' := by rw [hg]; rfl
    by_cases hne : ti = ti'
    · subst hne
      have hr' : s.root ti = some r' := H.handed t ti r' (by rw [hg]; rfl)
      have hfreed : r' ∈ s.freed := H.destroyed t ti r' (by rw [hg]; rfl)
      rcases h with ⟨-, hr⟩ | ⟨-, -, hr⟩ | hmem
      · cases hr.symm.trans hr'
        exact Or.inr (Or.inr hfreed)
      · cases hr.symm.trans hr'
        exact Or.inr (Or.inr hfreed)
      · exact Or.inr (Or.inr hmem)
    · rcases h with ⟨hti, hr⟩ | hc | hmem
      · exact Or.inl ⟨hti, (Function.update_of_ne hne _ _).trans hr⟩
      · obtain ⟨u, hu, hr⟩ := hclaims hc fun hti => absurd (Option.some.inj hti).symm hne
        exact Or.inr (Or.inl ⟨u, hu, (Function.update_of_ne hne _ _).trans hr⟩)
      · exact Or.inr (Or.inr hmem)
  | returns x st => exact h.imp_right (Or.imp_left fun hc => hclaims hc nofun)

/-! ### Runs -/

variable {T : (system τ).Trace (.start Op τ Call Status .init) n}

/-- Whenever the `remove` of a `delete_storage` comes to a name that is bound, it is bound to the tree that the call
    found. -/
def RemovesFound (T : (system τ).Trace (.start Op τ Call Status .init) n) : Prop :=
  ∀ i < n, ∀ t x name ti, ((T.conf i).thread t).active = some (x, deleteFound name ti) →
    ∀ st, (system τ).Acts t (.remove name) st (T.conf i) (T.conf (i + 1)) →
    ∀ ti', (T.conf i).state.directory name = some ti' → ti' = ti

/-- The trees of a run: no node is freed twice, the root of a tree in the directory is not freed, and when all calls have
    returned the root of every tree that left the directory is freed. -/
structure Accounted (T : (system τ).Trace (.start Op τ Call Status .init) n) : Prop where
  once : ∀ i ≤ n, (T.conf i).state.freed.Nodup
  mapped : ∀ i ≤ n, ∀ name ti, (T.conf i).state.directory name = some ti →
    ∃ r, (T.conf i).state.root ti = some r ∧ r ∉ (T.conf i).state.freed
  removed : (∀ t, ((T.conf n).thread t).active = none) → ∀ i ≤ n, ∀ name ti r, (T.conf i).state.directory name = some ti →
    (T.conf i).state.root ti = some r → (T.conf n).state.directory name ≠ some ti → r ∈ (T.conf n).state.freed

/-- A step of a run, from places that fit. -/
theorem RemovesFound.step {i : Nat} (h : RemovesFound T) (hi : i < n) (hat : At (T.conf i) P) (H : Inv (T.conf i).state P) :
    ∃ P', At (T.conf (i + 1)) P' ∧ Inv (T.conf (i + 1)).state P' ∧
      ∀ name ti r, Kept name ti r (T.conf i).state P → Kept name ti r (T.conf (i + 1)).state P' := by
  obtain ⟨t, ht⟩ := T.step i hi
  obtain ⟨g', hm, hat'⟩ := exists_places hat ht
  have hsame : ∀ name ti, P t = .found name ti → ∀ ti', (T.conf i).state.directory name = some ti' → ti' = ti := by
    intro name ti hg ti' hti'
    have hactive := hat t
    rw [hg] at hactive
    exact h i hi t _ name ti hactive _ (acts_remove hat ht hg (by rw [hti']; nofun)) ti' hti'
  exact ⟨_, hat', H.move hm hsame, fun _ _ _ hk => hk.move H hm hsame⟩

theorem RemovesFound.exists_places (h : RemovesFound T) : ∀ i ≤ n, ∃ P, At (T.conf i) P ∧ Inv (T.conf i).state P := by
  intro i
  induction i with
  | zero =>
    refine fun _ => ⟨fun _ => .idle, ?_, ?_⟩
    · rw [T.start]
      exact fun _ => rfl
    · rw [T.start]
      exact Inv.start
  | succ i ih =>
    intro hi
    obtain ⟨P, hat, H⟩ := ih (Nat.le_of_succ_le hi)
    obtain ⟨P', hat', H', -⟩ := h.step hi hat H
    exact ⟨P', hat', H'⟩

/-- A tree of the directory stays accounted for. -/
theorem RemovesFound.exists_kept {i : Nat} {name : Key} {ti : TreeId} {r : NodeId} (h : RemovesFound T) (hi : i ≤ n)
    (hd : (T.conf i).state.directory name = some ti) (hr : (T.conf i).state.root ti = some r) :
    ∃ P, At (T.conf n) P ∧ Kept name ti r (T.conf n).state P := by
  suffices hj : ∀ j, i ≤ j → j ≤ n → ∃ P, At (T.conf j) P ∧ Inv (T.conf j).state P ∧ Kept name ti r (T.conf j).state P by
    obtain ⟨P, hat, -, hk⟩ := hj n hi (Nat.le_refl n)
    exact ⟨P, hat, hk⟩
  intro j hij
  induction j, hij using Nat.le_induction with
  | base =>
    intro _
    obtain ⟨P, hat, H⟩ := h.exists_places i hi
    exact ⟨P, hat, H, Or.inl ⟨hd, hr⟩⟩
  | succ j hij ih =>
    intro hj
    obtain ⟨P, hat, H, hk⟩ := ih (Nat.le_of_succ_le hj)
    obtain ⟨P', hat', H', hkept⟩ := h.step hj hat H
    exact ⟨P', hat', H', hkept _ _ _ hk⟩

/-- In every run in which no `delete_storage` removes another tree than it found, the trees are destroyed as they are to
    be. -/
theorem accounted_of_removesFound {τ : Type}
    [DecidableEq τ] {n : Nat} {T : (system τ).Trace (.start Op τ Call Status .init) n} (h : RemovesFound T) :
    Accounted T where
  once := by
    intro i hi
    obtain ⟨P, -, H⟩ := h.exists_places i hi
    exact H.once
  mapped := by
    intro i hi name ti hd
    obtain ⟨P, -, H⟩ := h.exists_places i hi
    obtain ⟨-, ⟨r, hr⟩, -⟩ := H.named name ti hd
    refine ⟨r, hr, H.not_freed hr fun t ht => (H.claimed t ti ?_).2.1 name hd⟩
    generalize P t = g at ht
    cases g <;> cases ht
    rfl
  removed := by
    intro hidle i hi name ti r hd hr hgone
    obtain ⟨P, hat, hk⟩ := h.exists_kept hi hd hr
    rcases hk with ⟨hd', -⟩ | ⟨t, hclaim, -⟩ | hmem
    · exact absurd hd' hgone
    · -- A thread between its calls claims nothing.
      have hactive := hat t
      rw [hidle t] at hactive
      generalize P t = g at hclaim hactive
      cases g <;> cases hclaim <;> cases hactive
    · exact hmem

/-! ### Two schedules -/

def driver (τ : Type) [DecidableEq τ] : Driver (system τ) where
  exec := fun o s => some (exec o s)
  call := fun _ _ x => some x.prog
  performs := fun _ _ _ _ h => Option.some.inj h
  invokes := fun _ _ _ _ h => (Option.some.inj h).symm

/-- The name and the tree of a call of `delete_storage` that has found the tree. -/
def target : M Status → Option (Key × TreeId)
  | .step (.remove name) k => match k .ok with
    | .step (.loadRoot ti) _ => some (name, ti)
    | _ => none
  | _ => none

/-- Two threads find the storage; one of them removes and destroys it before the other comes to its `remove`. -/
def twoDeletes : List (Move Bool Call) :=
  .invoke false (.create []) :: List.replicate 3
    (.go false) ++ [.invoke false (.delete []), .go false, .invoke true (.delete [])] ++
  List.replicate 6 (.go true) ++ List.replicate 2 (.go false)

def twoDeletesRun : (system Bool).Trace (.start Op Bool Call Status .init) 15 :=
  (driver Bool).trace twoDeletes _ (by decide +kernel)

theorem accounted_of_removesFound_two : RemovesFound twoDeletesRun ∧ Accounted twoDeletesRun := by
  have hall : ∀ i < 15, ∀ t, (((twoDeletesRun.conf i).thread t).active.bind (target ·.2)).all
      (fun p => ((twoDeletesRun.conf i).state.directory p.1).all (· == p.2)) = true := by decide +kernel
  have hfound : RemovesFound twoDeletesRun := by
    intro i hi t x name ti hactive st _ ti' hti'
    have hi' := hall i hi t
    rw [hactive] at hi'
    simpa [target, deleteFound, perform, hti'] using hi'
  exact ⟨hfound, accounted_of_removesFound hfound⟩

/-- The threads 0 and 1 find the storage; 1 removes it and loads its root; 2 creates the storage again; 0 removes the new
    one and destroys the old one, and so does 1. -/
def createdBetween : List (Move (Fin 3) Call) :=
  .invoke 0 (.create []) :: List.replicate 3 (.go 0) ++ [.invoke 0 (.delete []), .go 0, .invoke 1 (.delete [])] ++
  List.replicate 3 (.go 1) ++ .invoke 2 (.create []) :: List.replicate 3 (.go 2) ++ List.replicate 5
    (.go 0) ++ List.replicate 3 (.go 1)

def createdBetweenRun : (system (Fin 3)).Trace (.start Op (Fin 3) Call Status .init) 22 :=
  (driver (Fin 3)).trace createdBetween _ (by decide +kernel)

/-- All calls have returned, the name is bound to no tree, the first tree was destroyed twice and the second one never. -/
theorem deletes_found_other : (∀ t, ((createdBetweenRun.conf 22).thread t).active.isNone = true) ∧
    (createdBetweenRun.conf 22).state.directory [] = none ∧ (createdBetweenRun.conf 22).state.freed = [0, 0] ∧
    (createdBetweenRun.conf 22).state.root 1 = some 1 ∧ ¬ Accounted createdBetweenRun := by
  have hfreed : (createdBetweenRun.conf 22).state.freed = [0, 0] := by decide +kernel
  refine ⟨by decide +kernel, by decide +kernel, hfreed, by decide +kernel, fun h => ?_⟩
  have honce := h.once 22 (Nat.le_refl _)
  rw [hfreed] at honce
  exact absurd honce (by decide)

end Storage
end Yakushima
