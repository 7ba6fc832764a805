import Yakushima.Lib.Sequence
import Yakushima.Theorems.OwnershipSplits

/-! # Writers exclude each other

Threads put, remove, get and scan in any interleaving. Whoever changes a node that others can reach has its lock, changes
keys only after the word of the node says so, and the word says so until a counter has moved. -/

namespace Yakushima

/-- The node that an operation is about. -/
def Op.node {β : Type} : Op β → Option NodeId
  | .load n _ | .store n _ _ | .casVersion n _ _ | .fetchAddNKeys n _ | .shiftLeftKeys n _ _
  | .shiftRightKeys n _ _ | .isBorder n | .deleteNode n | .pushNode _ n => some n
  | _ => none

namespace Protocol
open M Lib

variable {τ : Type} [DecidableEq τ] {s s' : State} {G : τ → View} {t u : τ} {g g' : View} {n m : NodeId} {nd nd' : Node}
variable {H : Multiset (NodeId × Bool)}

/-! ### Steps on the node of another -/

theorem View.Publishes.held (h : g.Publishes g') : g'.held = g.held := by
  rcases h with rfl | ⟨-, rfl⟩ <;> rfl

theorem View.Publishes.own_none (h : g.Publishes g') (ho : g.own n = none) : g'.own n = none := by
  rcases h with rfl | ⟨-, rfl⟩
  · exact ho
  · rfl

theorem View.Rewrites.other {change : Node → Node} (h : g.Rewrites m change g') (ho : g.own n = none) :
    n ≠ m ∧ g'.own n = none := by
  obtain ⟨md, hm, hg⟩ := h
  have hne : n ≠ m := by
    rintro rfl
    rw [ho] at hm
    cases hm
  refine ⟨hne, ?_⟩
  rcases hg with ⟨-, rfl⟩ | ⟨-, -, rfl⟩
  · exact (Function.update_of_ne hne _ _).trans ho
  · exact (Function.update_of_ne hne _ _).trans ho

/-- An operation that the discipline allows edits a node that is not the thread's own, or leaves it alone. -/
theorem Edit.of_acts {β : Type} {o : Op β} {y : β} (hp : Performs o s y s') (ha : Acts o y g g') (ho : g.own n = none)
    (hnd : s.node n = some nd) (hfree : s.node s.nextNode = none) : g'.own n = none ∧ ∃ nd', s'.node n = some nd' ∧
    Edit n g.held nd nd' := by
  -- The node `m` becomes `md'`, which is an edit if it is this one.
  have hset : ∀ {m : NodeId} {md md' : Node}, s.node m = some md → (n = m → Edit n g.held md md') →
      ∃ nd', (s.setNode m md').node n = some nd' ∧ Edit n g.held nd nd' := by
    intro m md md' hmd hedit
    by_cases hnm : n = m
    · subst hnm
      cases hnd.symm.trans hmd
      exact ⟨md', if_pos rfl, hedit rfl⟩
    · exact ⟨nd, (if_neg hnm).trans hnd, .refl⟩
  cases Outcome.of_acts hp ha with
  | quiet node _ _ _ own _ _ _ => exact ⟨by rw [own]; exact ho, nd, by rw [node]; exact hnd, .refl⟩
  | members _ hmd _ _ edit =>
    refine ⟨ho, hset hmd ?_⟩
    rintro rfl
    exact edit
  | swaps _ hmd hs =>
    refine ⟨by cases hs <;> exact ho, hset hmd ?_⟩
    rintro rfl
    exact .swap hs
  | rewrites hr hmd => exact ⟨(hr.other ho).2, hset hmd fun hnm => absurd hnm (hr.other ho).1⟩
  | allocates =>
    have hne : n ≠ s.nextNode := by
      rintro rfl
      rw [hfree] at hnd
      cases hnd
    exact ⟨(Function.update_of_ne hne _ _).trans ho, nd, (if_neg hne).trans hnd, .refl⟩
  | @releases m md hm _ =>
    have hne : n ≠ m := by
      rintro rfl
      rw [ho] at hm
      cases hm
    exact ⟨(Function.update_of_ne hne _ _).trans ho, nd, (if_neg hne).trans hnd, .refl⟩

omit [DecidableEq τ] in
theorem Edit.of_moves {β : Type} {o : Op β} {y : β} (h : Sound s G) (hp : Performs o s y s') (hm : Moves o y (G t) g)
    (ho : (G t).own n = none) (hnd : s.node n = some nd) : g.own n = none ∧ ∃ nd', s'.node n = some nd' ∧
    Edit n (G t).held nd nd' := by
  obtain ⟨g₁, g₂, h₁, ha, h₂⟩ := hm
  rw [← h₁.held]
  obtain ⟨hown, hedit⟩ := Edit.of_acts hp ha (h₁.own_none ho) hnd h.nextNode_free
  exact ⟨h₂.own_none hown, hedit⟩

/-! ### The discipline is upheld -/

theorem rests_of_abandons {K : Set NodeId} {e : Bool} (hH : e = false → H = 0) (h : Abandons nothing K e H g) :
    Rests g := by
  obtain ⟨hheld, hown, -, he⟩ := h
  refine ⟨fun n => by rw [hown]; rfl, fun hf => ?_⟩
  have hne : ¬ g.failed = true := by
    rw [hf]
    exact Bool.false_ne_true
  rw [hheld.resolve_right hne]
  exact hH (Bool.eq_false_iff.mpr (hne ∘ he))

theorem ends_call {fuel : Nat} {ti : TreeId} {K : Set NodeId} {c : Call} (hc : c.Clear) :
    Ends nothing K H (c.prog fuel (pure ()) ti) H := by
  cases c with
  | scan args => exact (Keeps.bind keeps_scan fun _ _ _ _ => Keeps.ret (Q := Any) trivial).ends
  | point c =>
    refine Ends.then ?_ fun _ _ _ _ => Keeps.ret trivial
    cases c with
    | put token args => exact (keeps_put hc).ends.then fun _ _ _ _ => Keeps.ret trivial
    | remove token key => exact ends_remove.then fun _ _ _ _ => Keeps.ret trivial
    | get key => exact keeps_get.ends.then fun _ _ _ _ => Keeps.ret trivial

theorem upheld : discipline.Upheld (treeSystem τ) Sound Rests where
  possible := Sound.possible
  moved := Sound.moves
  call := by
    rintro t done x p ⟨held, own, known, failed⟩ ⟨hown, hheld⟩ ⟨hc, fuel, rfl⟩
    obtain rfl : own = nothing := funext hown
    exact (ends_call hc failed).mono fun _ _ => rests_of_abandons hheld

/-! ### Runs -/

/-- A run of the threads, from the empty memory. -/
abbrev TreeRun (τ : Type) [DecidableEq τ] (N : Nat) :=
  (treeSystem τ).Trace (.start Op τ (TreeId × Call) Answer State.init) N

/-- The node is reached from a root, along any pointers. -/
inductive Reached (s : State) : NodeId → Prop where
  | root {ti : TreeId} {n : NodeId} (h : s.root ti = some n) : Reached s n
  | points {m n : NodeId} {nd : Node} (h : Reached s m) (hm : s.node m = some nd) (hn : nd.Points n) : Reached s n

def Locked (s : State) (n : NodeId) : Prop := ∃ nd, s.node n = some nd ∧ nd.version.locked = true

/-- The word of a node. -/
def word (s : State) (n : NodeId) : Version := ((s.node n).map Node.version).getD .init

variable {N : Nat}

section
variable (T : TreeRun τ N) (i : Nat) (t : τ) (n : NodeId)

/-- The step `i` is an operation of the thread. -/
def ActsAt : Prop := ∃ (β : Type) (o : Op β) (y : β), (treeSystem τ).Acts t o y (T.conf i) (T.conf (i + 1))

/-- In the step `i` the thread changes what the node holds under its lock. -/
structure Writes : Prop where
  acts : ActsAt T i t
  changes : ∃ nd nd', (T.conf i).state.node n = some nd ∧ (T.conf (i + 1)).state.node n = some nd' ∧
    nd'.content ≠ nd.content

end

omit [DecidableEq τ] in
theorem Sound.reached (h : Sound s G) (hn : Reached s n) : Public s G n := by
  induction hn with
  | root hr => exact h.roots _ _ hr
  | points hm hnd hp ih => exact h.points _ _ _ ih hnd hp

omit [DecidableEq τ] in
theorem Sound.locked_of_holds (h : Sound s G) (hn : (G t).Holds n) : Locked s n := by
  obtain ⟨b, hb⟩ := hn
  obtain ⟨nd, hnd, hl, -⟩ := h.held t n b hb
  exact ⟨nd, hnd, hl⟩

/-! ### Accesses -/

/-- A node that a thread reaches is allocated. -/
theorem Sound.allocated_of_publishes (h : Sound s G) (hg : (G t).Publishes g) (hn : g.Reaches n) :
    (s.node n).isSome = true := by
  have hs := h.publishes hg
  rcases hn with hn | hn
  · exact (hs.known t n (by rwa [Function.update_self])).1
  · obtain ⟨nd, ho⟩ := Option.isSome_iff_exists.mp hn
    exact Option.isSome_of_eq_some (hs.own t n nd (by rwa [Function.update_self]))

theorem View.Rewrites.reaches {change : Node → Node} (h : g.Rewrites n change g') : g.Reaches n := by
  obtain ⟨nd, ho, -⟩ := h
  exact Or.inr (Option.isSome_of_eq_some ho)

omit [DecidableEq τ] in
/-- An operation that the discipline allows is about a node that the thread reaches. -/
theorem reaches_of_acts {β : Type} {o : Op β} {y : β} (ha : Acts o y g g') (hn : o.node = some n) : g.Reaches n := by
  cases o with
  | load m f =>
    obtain rfl := Option.some.inj hn
    exact ha.imp (·.1) (·.1)
  | store m f x =>
    obtain rfl := Option.some.inj hn
    exact ha.elim (fun h => Or.inl h.1.1) View.Rewrites.reaches
  | casVersion m expected desired =>
    obtain rfl := Option.some.inj hn
    rcases ha with ⟨-, h, -⟩ | ⟨-, ⟨h, -⟩ | h⟩
    · exact h
    · exact Or.inl h
    · exact h.reaches
  | fetchAddNKeys m d =>
    obtain rfl := Option.some.inj hn
    exact ha.elim (fun h => Or.inl h.1.1) View.Rewrites.reaches
  | shiftLeftKeys m _ _ | shiftRightKeys m _ _ =>
    obtain rfl := Option.some.inj hn
    exact Or.inl ha.1.1
  | isBorder m =>
    obtain rfl := Option.some.inj hn
    exact ha.1
  | deleteNode m =>
    obtain rfl := Option.some.inj hn
    obtain ⟨⟨nd, ho, -⟩, -⟩ := ha
    exact Or.inr (Option.isSome_of_eq_some ho)
  | pushNode token m =>
    obtain rfl := Option.some.inj hn
    exact Or.inl ha.1
  | newNode _ | loadRoot _ | storeRoot _ _ | casRoot _ _ _ | newBlock _ | loadBlock _ | removeDeleteFlag _
  | deleteBlock _ | pushValue _ _ _ _ | logError _ => cases hn

omit [DecidableEq τ] in
/-- An operation on the node of another, which the thread did not lock, may have an answer. -/
theorem exists_possible {β : Type} {o : Op β} (hn : o.node = some n) (ho : g.own n = none) (hh : ¬ g.Holds n) :
    ∃ y, ¬ Impossible o y g := by
  have hforeign : ∀ nd, g.own n ≠ some nd := fun nd he => by
    rw [ho] at he
    cases he
  cases o with
  | load m f =>
    obtain rfl := Option.some.inj hn
    refine ⟨(Node.fresh .border).get f, ?_⟩
    rintro (⟨nd, he, -⟩ | hm)
    · exact hforeign nd he
    · cases f with
      | version =>
        obtain ⟨b, hb, -⟩ := hm
        exact hh ⟨b, hb⟩
      | _ => exact hm
  | casVersion m expected desired => exact ⟨(false, expected), fun hy => Bool.false_ne_true hy.1⟩
  | isBorder m =>
    obtain rfl := Option.some.inj hn
    refine ⟨true, ?_⟩
    rintro ⟨nd, he, -⟩
    exact hforeign nd he
  | store _ _ _ | fetchAddNKeys _ _ | shiftLeftKeys _ _ _ | shiftRightKeys _ _ _ | deleteNode _ | pushNode _ _ =>
    exact ⟨(), id⟩
  | newNode _ | loadRoot _ | storeRoot _ _ | casRoot _ _ _ | newBlock _ | loadBlock _ | removeDeleteFlag _
  | deleteBlock _ | pushValue _ _ _ _ | logError _ => cases hn

/-- The next operation of a program that obeys the discipline accesses an allocated node. -/
theorem Sound.allocated (h : Sound s G) {β : Type} {o : Op β} {k : β → M Answer} {post : Answer → View → Prop}
    (hk : discipline.Obeys post (.step o k) (G t)) (hn : o.node = some n) : (s.node n).isSome = true := by
  cases ho : (G t).own n with
  | some nd => exact Option.isSome_of_eq_some (h.own t n nd ho)
  | none =>
    by_cases hh : (G t).Holds n
    · obtain ⟨nd, hnd, -⟩ := h.locked_of_holds hh
      exact Option.isSome_of_eq_some hnd
    · obtain ⟨y, hy⟩ := exists_possible hn ho hh
      obtain ⟨g', ⟨g₁, g₂, h₁, ha, -⟩, -⟩ := (hk y).resolve_left hy
      exact h.allocated_of_publishes h₁ (reaches_of_acts ha hn)

/-- What a thread is about to delete is not reached. -/
theorem Sound.deleted (h : Sound s G) {k : Unit → M Answer} {post : Answer → View → Prop}
    (hk : discipline.Obeys post (.step (.deleteNode n) k) (G t)) : ¬ Reached s n := by
  intro hn
  obtain ⟨g', ⟨g₁, g₂, h₁, ⟨⟨nd, ho, -⟩, -⟩, -⟩, -⟩ := (hk ()).resolve_left id
  have hpub := ((h.publishes h₁).reached hn).2 t
  rw [Function.update_self, ho] at hpub
  cases hpub

/-! ### Views along a run -/

theorem exists_run (T : TreeRun τ N) : Nonempty (discipline.Run Sound Rests T) :=
  upheld.exists_run T sound_start ⟨fun _ => rfl, fun _ => rfl⟩

variable {T : TreeRun τ N} (R : discipline.Run Sound Rests T) {i j l : Nat}
include R

/-- The step of a thread edits a node that is not its own with the locks that the thread has. -/
theorem ActsAt.edit (hi : i < N) (ha : ActsAt T i t) (hown : (R.views i t).own n = none)
    (hnd : (T.conf i).state.node n = some nd) (hnd' : (T.conf (i + 1)).state.node n = some nd') :
    Edit n (R.views i t).held nd nd' := by
  obtain ⟨β, o, y, ha⟩ := ha
  rcases (R.step i hi).of_acts ha with ⟨hs, -⟩ | ⟨β', o', y', hp, hm, -⟩
  · rw [hs, hnd] at hnd'
    cases hnd'
    exact .refl
  · obtain ⟨-, md, hmd, hedit⟩ := Edit.of_moves (R.inv i (Nat.le_of_lt hi)) hp hm hown hnd
    cases hmd.symm.trans hnd'
    exact hedit

theorem Writes.holds (hi : i < N) (hw : Writes T i t n) (hown : (R.views i t).own n = none) : (R.views i t).Holds n := by
  obtain ⟨ha, nd, nd', hnd, hnd', hne⟩ := hw
  exact (ha.edit R hi hown hnd hnd').content.resolve_left hne

end Protocol

/-! ## Results -/

section
open Protocol Lib
variable {τ : Type} [DecidableEq τ] {N : Nat}

end
end Yakushima
