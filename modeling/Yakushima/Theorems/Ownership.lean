import Mathlib.Data.Multiset.ZeroCons
import Mathlib.Data.Set.Basic
import Yakushima.Lib.Discipline
import Yakushima.Model.Concurrent
import Yakushima.Theorems.Run

/-! # What a thread owns

The discipline of the threads that work on trees: whose lock a thread has, which nodes no one else can reach, and which
ones it came across. A node is changed by the holder of its lock, or before anyone else can reach it; its keys are
changed only while its word says so. Only the parent, the previous border and the root flag of a node are changed by
others. -/

namespace Yakushima

/-- A dirty flag is set. -/
def Version.dirty (v : Version) : Bool := v.insertingDeleting || v.splitting

/-- The node that the value of a member points to. -/
def Field.ptr {β : Type} : Field β → β → Ptr
  | .parent, p | .child _, p | .prev, p | .next, p => p
  | .lv _, x => x.getNextLayer
  | _, _ => none

/-- A member of the node points to `m`. -/
def Node.Points (nd : Node) (m : NodeId) : Prop := ∃ (β : Type) (f : Field β), f.ptr (nd.get f) = some m

namespace Protocol

/-- Own nodes can be shown to others: they point to nodes that are known or own, and they are dirty only under a lock. -/
def Closed (own : NodeId → Option Node) (known : Set NodeId) : Prop := ∀ n nd, own n = some nd →
  (nd.version.dirty = true → nd.version.locked = true) ∧ ∀ m, nd.Points m → m ∈ known ∨ (own m).isSome = true

/-- What a thread has. -/
structure View where
  /-- The nodes whose locks it has, and whether it set a dirty flag there. -/
  held : Multiset (NodeId × Bool)
  /-- The nodes that no one else can reach, with their members. -/
  own : NodeId → Option Node
  /-- The nodes of the others that it came across. -/
  known : Set NodeId
  /-- It reported an error. -/
  failed : Bool

namespace View

/-- A thread that has made no call. -/
def start : View := ⟨0, fun _ => none, ∅, false⟩

def learn (g : View) (p : Ptr) : View := { g with known := {m | m ∈ g.known ∨ p = some m} }

def setOwn (g : View) (n : NodeId) (nd : Option Node) : View := { g with own := Function.update g.own n nd }

def hold (g : View) (n : NodeId) (b : Bool) : View := { g with held := (n, b) ::ₘ g.held }

/-- Its own nodes become those of all. -/
def publish (g : View) : View := { g with own := fun _ => none, known := {m | m ∈ g.known ∨ (g.own m).isSome = true} }

variable (g : View) (n : NodeId)

/-- It has the lock of the node. -/
def Holds : Prop := ∃ b, (n, b) ∈ g.held

/-- The node is its own or it came across it. -/
def Reaches : Prop := n ∈ g.known ∨ (g.own n).isSome = true

/-- The thread may publish its own nodes. -/
def Publishes (g' : View) : Prop := g' = g ∨ Closed g.own g.known ∧ g' = g.publish

/-- The members of others' nodes that it may change. -/
def Stores {β : Type} : Field β → Prop
  | .version => False
  | .parent | .prev => True
  | .keySlice _ | .keyLength _ | .nKeys => (n, true) ∈ g.held
  | .child _ | .permutation | .lv _ | .next => g.Holds n

/-- The members of one of its own nodes change; it may lock it. -/
def Rewrites (change : Node → Node) (g' : View) : Prop := ∃ nd, g.own n = some nd ∧
  (((change nd).version = nd.version ∨ nd.version.locked = false ∧ (change nd).version.locked = false) ∧
    g' = g.setOwn n (some (change nd)) ∨
    nd.version.locked = false ∧ (change nd).version.locked = true ∧
      g' = (g.setOwn n (some (change nd))).hold n (change nd).version.dirty)

/-- A compare-and-swap of others' words stores `desired` over `expected`: it takes the lock, releases it, sets a dirty
    flag or the deleted flag under it, or changes the root flag of any node. -/
inductive Swaps (expected desired : Version) : View → Prop where
  | lock (free : expected.locked = false) (h : desired = .setLocked true expected) : Swaps expected desired (g.hold n false)
  | unlock {b R} (has : g.held = (n, b) ::ₘ R) (h : desired = expected.unlocked) :
      Swaps expected desired { g with held := R }
  | mark {b R} (has : g.held = (n, b) ::ₘ R)
      (h : desired = .setInsertingDeleting true expected ∨ desired = .setSplitting true expected) :
      Swaps expected desired { g with held := (n, true) ::ₘ R }
  | setDeleted {tf} (has : g.Holds n) (h : desired = .setDeleted tf expected) : Swaps expected desired g
  | setRoot {tf} (h : desired = .setRoot tf expected) : Swaps expected desired g

end View

/-- What an operation does to the view. -/
def Acts {β : Type} : Op β → β → View → View → Prop
  | .load n f, y, g, g' => n ∈ g.known ∧ g' = g.learn (f.ptr y) ∨ (g.own n).isSome = true ∧ g' = g
  | .store n f x, _, g, g' =>
    (n ∈ g.known ∧ g.Stores n f ∧ (∀ m ∈ f.ptr x, m ∈ g.known)) ∧ g' = g ∨ g.Rewrites n (·.set f x) g'
  | .casVersion n expected desired, y, g, g' =>
    y.1 = false ∧ g.Reaches n ∧ g' = g ∨
    y.1 = true ∧ (n ∈ g.known ∧ g.Swaps n expected desired g' ∨ g.Rewrites n ({ · with version := desired }) g')
  | .fetchAddNKeys n d, _, g, g' =>
    (n ∈ g.known ∧ (n, true) ∈ g.held) ∧ g' = g ∨ g.Rewrites n (fun nd => { nd with nKeys := (nd.nKeys + d) % 256 }) g'
  | .shiftLeftKeys n _ _, _, g, g' => (n ∈ g.known ∧ (n, true) ∈ g.held) ∧ g' = g
  | .shiftRightKeys n _ _, _, g, g' => (n ∈ g.known ∧ (n, true) ∈ g.held) ∧ g' = g
  | .isBorder n, _, g, g' => g.Reaches n ∧ g' = g
  | .newNode kind, n, g, g' => g' = g.setOwn n (some (.fresh kind))
  | .deleteNode n, _, g, g' => (∃ nd, g.own n = some nd ∧ nd.version.locked = false) ∧ g' = g.setOwn n none
  | .loadRoot _, p, g, g' => g' = g.learn p
  | .storeRoot _ p, _, g, g' => (∀ n ∈ p, n ∈ g.known) ∧ g' = g
  | .casRoot _ _ desired, y, g, g' => (y.1 = true → ∀ n ∈ desired, n ∈ g.known) ∧ g' = g
  | .newBlock _, _, g, g' => g' = g
  | .loadBlock _, _, g, g' => g' = g
  | .removeDeleteFlag _, _, g, g' => g' = g
  | .deleteBlock _, _, g, g' => g' = g
  | .pushNode _ n, _, g, g' => n ∈ g.known ∧ g' = g
  | .pushValue _ _ _ _, _, g, g' => g' = g
  | .logError _, _, g, g' => g' = { g with failed := true }

/-- An operation may come with a publication before or after it. -/
def Moves {β : Type} (o : Op β) (y : β) (g g' : View) : Prop :=
  ∃ g₁ g₂, g.Publishes g₁ ∧ Acts o y g₁ g₂ ∧ g₂.Publishes g'

/-- The word of a node that a thread locked is locked, and dirty as it left it. -/
def View.Misreads (g : View) (n : NodeId) {β : Type} : Field β → β → Prop
  | .version, v => ∃ b, (n, b) ∈ g.held ∧ ¬ (v.locked = true ∧ v.dirty = b)
  | _, _ => False

/-- The answers that a thread never gets: its own nodes are as it left them, so are the words that it locked, and a new
    node is new. -/
def Impossible {β : Type} (o : Op β) (y : β) (g : View) : Prop := match o, y with
  | .load n f, y => (∃ nd, g.own n = some nd ∧ y ≠ nd.get f) ∨ g.Misreads n f y
  | .casVersion n expected _, y => y.1 = true ∧ ∃ nd, g.own n = some nd ∧ nd.version ≠ expected
  | .isBorder n, y => ∃ nd, g.own n = some nd ∧ y ≠ decide (nd.kind = .border)
  | .newNode _, n => g.Reaches n
  | _, _ => False

def discipline : Lib.Discipline Op View := ⟨Moves, Impossible⟩

/-- What a thread has between two calls: no own nodes, and no locks unless it reported an error. -/
def Rests (g : View) : Prop := (∀ n, g.own n = none) ∧ (g.failed = false → g.held = 0)

/-! ## The invariant -/

section Invariant
variable {τ : Type}

/-- The node is allocated, and every thread may reach it. -/
def Public (s : State) (G : τ → View) (n : NodeId) : Prop := (s.node n).isSome = true ∧ ∀ t, (G t).own n = none

/-- The memory is as the threads see it. -/
structure Sound (s : State) (G : τ → View) : Prop where
  bounded : ∀ n nd, s.node n = some nd → n < s.nextNode
  own : ∀ t n nd, (G t).own n = some nd → s.node n = some nd
  apart : ∀ t u n, ((G t).own n).isSome = true → ((G u).own n).isSome = true → t = u
  known : ∀ t, ∀ n ∈ (G t).known, Public s G n
  roots : ∀ ti n, s.root ti = some n → Public s G n
  points : ∀ m nd n, Public s G m → s.node m = some nd → nd.Points n → Public s G n
  held : ∀ t n b, (n, b) ∈ (G t).held → ∃ nd, s.node n = some nd ∧ nd.version.locked = true ∧ nd.version.dirty = b
  once : ∀ t, (G t).held.Nodup
  single : ∀ t u n, (G t).Holds n → (G u).Holds n → t = u
  mine : ∀ t u n, ((G t).own n).isSome = true → (G u).Holds n → u = t
  locked : ∀ n nd, s.node n = some nd → nd.version.locked = true → ∃ t, (n, nd.version.dirty) ∈ (G t).held
  clean : ∀ n nd, Public s G n → s.node n = some nd → nd.version.dirty = true → nd.version.locked = true
  reported : ∀ t, (G t).failed = true → s.log ≠ []

theorem sound_start : Sound State.init fun _ : τ => View.start where
  bounded := fun _ _ h => absurd h (Option.some_ne_none _).symm
  own := fun _ _ _ h => absurd h (Option.some_ne_none _).symm
  apart := fun _ _ _ h => absurd h Bool.false_ne_true
  known := fun _ _ h => absurd h id
  roots := fun _ _ h => absurd h (Option.some_ne_none _).symm
  points := fun _ _ _ _ h => absurd h (Option.some_ne_none _).symm
  held := fun _ _ _ h => absurd h (Multiset.notMem_zero _)
  once := fun _ => Multiset.nodup_zero
  single := fun _ _ _ ⟨_, h⟩ => absurd h (Multiset.notMem_zero _)
  mine := fun _ _ _ h => absurd h Bool.false_ne_true
  locked := fun _ _ h => absurd h (Option.some_ne_none _).symm
  clean := fun _ _ _ h => absurd h (Option.some_ne_none _).symm
  reported := fun _ h => absurd h Bool.false_ne_true

variable [DecidableEq τ] {s s' : State} {G : τ → View} {t : τ} {g : View} {n m : NodeId} {nd nd' : Node}

/-! ### Changes of one view -/

omit [DecidableEq τ] in
theorem Sound.nextNode_free (h : Sound s G) : s.node s.nextNode = none := by
  cases hn : s.node s.nextNode with
  | none => rfl
  | some nd => exact absurd (h.bounded _ _ hn) (Nat.lt_irrefl _)

omit [DecidableEq τ] in
/-- A node that is some thread's own is not public. -/
theorem Public.not_own (hn : Public s G n) (hown : (G t).own n = some nd) : False := by
  rw [hn.2 t] at hown
  cases hown

/-- A part of the views that the new view of a thread leaves alone. -/
theorem update_part {δ : Type} (part : View → δ) (hg : part g = part (G t)) (u : τ) :
    part (Function.update G t g u) = part (G u) := by
  by_cases hu : u = t
  · subst hu
    rw [Function.update_self, hg]
  · rw [Function.update_of_ne hu]

theorem public_update (hown : g.own = (G t).own) : Public s (Function.update G t g) n ↔ Public s G n := by
  simp only [Public, update_part View.own hown]

/-- A thread comes across nodes that are public. -/
theorem Sound.see (h : Sound s G) (hown : g.own = (G t).own) (hheld : g.held = (G t).held)
    (hfailed : g.failed = true → s.log ≠ []) (hknown : ∀ n ∈ g.known, Public s G n) : Sound s (Function.update G t g) where
  bounded := h.bounded
  own := fun u => by
    rw [update_part View.own hown]
    exact h.own u
  apart := fun u v => by
    rw [update_part View.own hown, update_part View.own hown]
    exact h.apart u v
  known := fun u m hm => by
    rw [public_update hown]
    by_cases hu : u = t
    · subst hu
      rw [Function.update_self] at hm
      exact hknown m hm
    · rw [Function.update_of_ne hu] at hm
      exact h.known u m hm
  roots := fun ti m hm => (public_update hown).mpr (h.roots ti m hm)
  points := fun m nd k hm hnd hk => (public_update hown).mpr (h.points m nd k ((public_update hown).mp hm) hnd hk)
  held := fun u => by
    rw [update_part View.held hheld]
    exact h.held u
  once := fun u => by
    rw [update_part View.held hheld]
    exact h.once u
  single := fun u v m => by
    simp only [View.Holds, update_part View.held hheld]
    exact h.single u v m
  mine := fun u v m => by
    simp only [View.Holds, update_part View.held hheld, update_part View.own hown]
    exact h.mine u v m
  locked := fun m nd hnd hl => by
    simp only [update_part View.held hheld]
    exact h.locked m nd hnd hl
  clean := fun m nd hm => h.clean m nd ((public_update hown).mp hm)
  reported := fun u hu => by
    by_cases hut : u = t
    · subst hut
      rw [Function.update_self] at hu
      exact hfailed hu
    · rw [Function.update_of_ne hut] at hu
      exact h.reported u hu

/-- Own nodes are published. -/
theorem Sound.publish (h : Sound s G) (hc : Closed (G t).own (G t).known) :
    Sound s (Function.update G t (G t).publish) := by
  have hpub : ∀ {m}, Public s (Function.update G t (G t).publish) m ↔ Public s G m ∨ ((G t).own m).isSome = true := by
    intro m
    constructor
    · rintro ⟨hm, hall⟩
      cases ho : (G t).own m with
      | some nd => exact Or.inr rfl
      | none =>
        refine Or.inl ⟨hm, fun u => ?_⟩
        by_cases hu : u = t
        · rw [hu, ho]
        · simpa only [Function.update_of_ne hu] using hall u
    · intro hm
      have hothers : ∀ u, u ≠ t → (G u).own m = none := by
        intro u hu
        rcases hm with hm | hm
        · exact hm.2 u
        · cases ho : (G u).own m with
          | none => rfl
          | some nd => exact absurd (h.apart u t m (by rw [ho]; rfl) hm) hu
      refine ⟨?_, fun u => ?_⟩
      · rcases hm with hm | hm
        · exact hm.1
        · obtain ⟨nd, hnd⟩ := Option.isSome_iff_exists.mp hm
          rw [h.own t m nd hnd]
          rfl
      · by_cases hu : u = t
        · rw [hu, Function.update_self]
          rfl
        · rw [Function.update_of_ne hu]
          exact hothers u hu
  have hheld : ∀ u, (Function.update G t (G t).publish u).held = (G u).held := update_part View.held rfl
  have hfailed : ∀ u, (Function.update G t (G t).publish u).failed = (G u).failed := update_part View.failed rfl
  have hreach : ∀ {m}, (G t).Reaches m → Public s (Function.update G t (G t).publish) m := fun hm =>
    hpub.mpr (hm.imp (h.known t _) id)
  have hown : ∀ u m nd, (Function.update G t (G t).publish u).own m = some nd → (G u).own m = some nd := by
    intro u m nd ho
    by_cases hu : u = t
    · subst hu
      rw [Function.update_self] at ho
      cases ho
    · rwa [Function.update_of_ne hu] at ho
  have hsome : ∀ u m, ((Function.update G t (G t).publish u).own m).isSome = true → ((G u).own m).isSome = true := by
    intro u m ho
    obtain ⟨nd, hnd⟩ := Option.isSome_iff_exists.mp ho
    rw [hown u m nd hnd]
    rfl
  exact {
    bounded := h.bounded
    own := fun u m nd ho => h.own u m nd (hown u m nd ho)
    apart := fun u v m hu hv => h.apart u v m (hsome u m hu) (hsome v m hv)
    known := fun u m hm => by
      by_cases hu : u = t
      · subst hu
        rw [Function.update_self] at hm
        exact hreach hm
      · rw [Function.update_of_ne hu] at hm
        exact hpub.mpr (Or.inl (h.known u m hm))
    roots := fun ti m hm => hpub.mpr (Or.inl (h.roots ti m hm))
    points := fun m nd k hm hnd hk => by
      rcases hpub.mp hm with hm | hm
      · exact hpub.mpr (Or.inl (h.points m nd k hm hnd hk))
      · obtain ⟨nd', ho⟩ := Option.isSome_iff_exists.mp hm
        cases (h.own t m nd' ho).symm.trans hnd
        exact hreach ((hc m nd ho).2 k hk)
    held := fun u => by
      rw [hheld]
      exact h.held u
    once := fun u => by
      rw [hheld]
      exact h.once u
    single := fun u v m => by
      simp only [View.Holds, hheld]
      exact h.single u v m
    mine := fun u v m hu => by
      simp only [View.Holds, hheld]
      exact h.mine u v m (hsome u m hu)
    locked := fun m nd hnd hl => by
      simp only [hheld]
      exact h.locked m nd hnd hl
    clean := fun m nd hm hnd => by
      rcases hpub.mp hm with hm | hm
      · exact h.clean m nd hm hnd
      · obtain ⟨nd', ho⟩ := Option.isSome_iff_exists.mp hm
        cases (h.own t m nd' ho).symm.trans hnd
        exact (hc m nd ho).1
    reported := fun u hu => h.reported u (hfailed u ▸ hu) }

/-- The thread keeps its view, or publishes its own nodes. -/
theorem Sound.publishes (h : Sound s G) (hg : (G t).Publishes g) : Sound s (Function.update G t g) := by
  rcases hg with rfl | ⟨hc, rfl⟩
  · rwa [Function.update_eq_self]
  · exact h.publish hc

/-! ### Changes of the memory -/

omit [DecidableEq τ] in
/-- No node changes. -/
theorem Sound.frame (h : Sound s G) (hnode : s'.node = s.node) (hnext : s'.nextNode = s.nextNode)
    (hroot : ∀ ti m, s'.root ti = some m → Public s G m) (hlog : s.log ≠ [] → s'.log ≠ []) : Sound s' G := by
  have hpub : ∀ {m}, Public s' G m ↔ Public s G m := by
    intro m
    rw [Public, Public, hnode]
  exact {
    bounded := by
      rw [hnode, hnext]
      exact h.bounded
    own := by
      rw [hnode]
      exact h.own
    apart := h.apart
    known := fun u m hm => hpub.mpr (h.known u m hm)
    roots := fun ti m hm => hpub.mpr (hroot ti m hm)
    points := fun m nd k hm hnd hk => hpub.mpr (h.points m nd k (hpub.mp hm) (hnode ▸ hnd) hk)
    held := by
      rw [hnode]
      exact h.held
    once := h.once
    single := h.single
    mine := h.mine
    locked := by
      rw [hnode]
      exact h.locked
    clean := fun m nd hm hnd => h.clean m nd (hpub.mp hm) (hnode ▸ hnd)
    reported := fun u hu => hlog (h.reported u hu) }

/-- An allocated node changes. -/
theorem setNode_isSome (hnd : s.node n = some nd) : ((s.setNode n nd').node m).isSome = (s.node m).isSome := by
  by_cases hm : m = n
  · rw [hm, State.setNode_node_same, hnd]
    rfl
  · rw [State.setNode_node_ne hm]

omit [DecidableEq τ] in
theorem public_setNode (hnd : s.node n = some nd) : Public (s.setNode n nd') G m ↔ Public s G m := by
  rw [Public, Public, setNode_isSome hnd]

omit [DecidableEq τ] in
/-- A public node changes, but not its lock and whether it is dirty. -/
theorem Sound.setNode (h : Sound s G) (hn : Public s G n) (hnd : s.node n = some nd)
    (hl : nd'.version.locked = nd.version.locked) (hd : nd'.version.dirty = nd.version.dirty)
    (hp : ∀ m, nd'.Points m → Public s G m) : Sound (s.setNode n nd') G where
  bounded := fun m md hm => by
    by_cases hmn : m = n
    · exact hmn ▸ h.bounded n nd hnd
    · exact h.bounded m md (State.setNode_node_ne hmn ▸ hm)
  own := fun u m md ho => by
    have hmn : m ≠ n := fun hmn => hn.not_own (hmn ▸ ho)
    rw [State.setNode_node_ne hmn]
    exact h.own u m md ho
  apart := h.apart
  known := fun u m hm => (public_setNode hnd).mpr (h.known u m hm)
  roots := fun ti m hm => (public_setNode hnd).mpr (h.roots ti m hm)
  points := fun m md k hm hmd hk => by
    rw [public_setNode hnd] at hm ⊢
    by_cases hmn : m = n
    · subst hmn
      cases (State.setNode_node_same _ _ _).symm.trans hmd
      exact hp k hk
    · exact h.points m md k hm (State.setNode_node_ne hmn ▸ hmd) hk
  held := fun u m b hm => by
    obtain ⟨md, hmd, hml, hmb⟩ := h.held u m b hm
    by_cases hmn : m = n
    · subst hmn
      cases hnd.symm.trans hmd
      exact ⟨nd', State.setNode_node_same _ _ _, hl.trans hml, hd.trans hmb⟩
    · exact ⟨md, (State.setNode_node_ne hmn).trans hmd, hml, hmb⟩
  once := h.once
  single := h.single
  mine := h.mine
  locked := fun m md hmd hml => by
    by_cases hmn : m = n
    · subst hmn
      cases (State.setNode_node_same _ _ _).symm.trans hmd
      rw [hd]
      exact h.locked m nd hnd (hl.symm.trans hml)
    · exact h.locked m md (State.setNode_node_ne hmn ▸ hmd) hml
  clean := fun m md hm hmd hmb => by
    rw [public_setNode hnd] at hm
    by_cases hmn : m = n
    · subst hmn
      cases (State.setNode_node_same _ _ _).symm.trans hmd
      exact hl.trans (h.clean m nd hm hnd (hd.symm.trans hmb))
    · exact h.clean m md hm (State.setNode_node_ne hmn ▸ hmd) hmb
  reported := h.reported

/-- The word of a public node changes together with what the thread has of it. -/
theorem Sound.setWord (h : Sound s G) (hn : Public s G n)
    (hnd : s.node n = some nd) {w : Version} {H : Multiset (NodeId × Bool)} (hfree : ∀ u, u ≠ t → ¬ (G u).Holds n)
    (hother : ∀ m b, m ≠ n → ((m, b) ∈ H ↔ (m, b) ∈ (G t).held))
    (hself : ∀ b, (n, b) ∈ H ↔ w.locked = true ∧ w.dirty = b) (honce : H.Nodup)
    (hclean : w.dirty = true → w.locked = true) :
    Sound (s.setNode n { nd with version := w }) (Function.update G t { G t with held := H }) := by
  have hown : ∀ u, (Function.update G t { G t with held := H } u).own = (G u).own := update_part View.own rfl
  have hknown : ∀ u, (Function.update G t { G t with held := H } u).known = (G u).known := update_part View.known rfl
  have hfailed : ∀ u, (Function.update G t { G t with held := H } u).failed = (G u).failed := update_part View.failed rfl
  have hpub : ∀ {m}, Public (s.setNode n { nd with version := w }) (Function.update G t { G t with held := H }) m ↔
    Public s G m := by
    intro m
    rw [public_update (by rfl), public_setNode hnd]
  -- What a thread has of another node stays, and what it has of this one is this thread's.
  have hmem : ∀ {u m b}, m ≠ n → ((m, b) ∈ (Function.update G t { G t with held := H } u).held ↔ (m, b) ∈ (G u).held) := by
    intro u m b hm
    by_cases hu : u = t
    · subst hu
      rw [Function.update_self]
      exact hother m b hm
    · rw [Function.update_of_ne hu]
  have hmine : ∀ {u b}, (n, b) ∈ (Function.update G t { G t with held := H } u).held ↔ u = t ∧ w.locked = true ∧
    w.dirty = b := by
    intro u b
    by_cases hu : u = t
    · subst hu
      rw [Function.update_self]
      exact (hself b).trans (by simp)
    · rw [Function.update_of_ne hu]
      exact ⟨fun hm => absurd ⟨b, hm⟩ (hfree u hu), fun hm => absurd hm.1 hu⟩
  exact {
    bounded := fun m md hm => by
      by_cases hmn : m = n
      · exact hmn ▸ h.bounded n nd hnd
      · exact h.bounded m md (State.setNode_node_ne hmn ▸ hm)
    own := fun u m md ho => by
      rw [hown] at ho
      have hmn : m ≠ n := fun hmn => hn.not_own (hmn ▸ ho)
      rw [State.setNode_node_ne hmn]
      exact h.own u m md ho
    apart := fun u v m => by
      rw [hown, hown]
      exact h.apart u v m
    known := fun u m hm => hpub.mpr (h.known u m (hknown u ▸ hm))
    roots := fun ti m hm => hpub.mpr (h.roots ti m hm)
    points := fun m md k hm hmd hk => by
      refine hpub.mpr ?_
      by_cases hmn : m = n
      · subst hmn
        cases (State.setNode_node_same _ _ _).symm.trans hmd
        obtain ⟨β, f, hf⟩ := hk
        refine h.points m nd k hn hnd ⟨β, f, ?_⟩
        cases f <;> exact hf
      · exact h.points m md k (hpub.mp hm) (State.setNode_node_ne hmn ▸ hmd) hk
    held := fun u m b hm => by
      by_cases hmn : m = n
      · subst hmn
        obtain ⟨-, hl, hd⟩ := hmine.mp hm
        exact ⟨_, State.setNode_node_same _ _ _, hl, hd⟩
      · obtain ⟨md, hmd, hml, hmb⟩ := h.held u m b ((hmem hmn).mp hm)
        exact ⟨md, (State.setNode_node_ne hmn).trans hmd, hml, hmb⟩
    once := fun u => by
      by_cases hu : u = t
      · subst hu
        rw [Function.update_self]
        exact honce
      · rw [Function.update_of_ne hu]
        exact h.once u
    single := fun u v m ⟨b, hb⟩ ⟨b', hb'⟩ => by
      by_cases hmn : m = n
      · subst hmn
        exact (hmine.mp hb).1.trans (hmine.mp hb').1.symm
      · exact h.single u v m ⟨b, (hmem hmn).mp hb⟩ ⟨b', (hmem hmn).mp hb'⟩
    mine := fun u v m hu ⟨b, hb⟩ => by
      rw [hown] at hu
      by_cases hmn : m = n
      · subst hmn
        rw [hn.2 u] at hu
        cases hu
      · exact h.mine u v m hu ⟨b, (hmem hmn).mp hb⟩
    locked := fun m md hmd hml => by
      by_cases hmn : m = n
      · subst hmn
        cases (State.setNode_node_same _ _ _).symm.trans hmd
        exact ⟨t, hmine.mpr ⟨rfl, hml, rfl⟩⟩
      · obtain ⟨u, hu⟩ := h.locked m md (State.setNode_node_ne hmn ▸ hmd) hml
        exact ⟨u, (hmem hmn).mpr hu⟩
    clean := fun m md hm hmd => by
      by_cases hmn : m = n
      · subst hmn
        cases (State.setNode_node_same _ _ _).symm.trans hmd
        exact hclean
      · exact h.clean m md (hpub.mp hm) (State.setNode_node_ne hmn ▸ hmd)
    reported := fun u hu => h.reported u (hfailed u ▸ hu) }

omit [DecidableEq τ] in
/-- A node that is the thread's own, or free, is no one else's. -/
theorem Sound.apart_of_own (h : Sound s G) (hn : ((G t).own n).isSome = true ∨ s.node n = none) {u : τ} (hu : u ≠ t) :
    (G u).own n = none ∧ ¬ (G u).Holds n := by
  constructor
  · cases ho : (G u).own n with
    | none => rfl
    | some nd =>
      rcases hn with hn | hn
      · exact absurd (h.apart u t n (by rw [ho]; rfl) hn) hu
      · rw [h.own u n nd ho] at hn
        cases hn
  · rintro ⟨b, hb⟩
    rcases hn with hn | hn
    · exact hu (h.mine t u n hn ⟨b, hb⟩)
    · obtain ⟨nd, hnd, -⟩ := h.held u n b hb
      cases hn.symm.trans hnd

omit [DecidableEq τ] in
theorem not_public_of_own (hn : ((G t).own n).isSome = true ∨ s.node n = none) : ¬ Public s G n := by
  rintro ⟨hs, hall⟩
  rcases hn with hn | hn
  · rw [hall t] at hn
    cases hn
  · rw [hn] at hs
    cases hs

section
variable {x : Option Node} {H : Multiset (NodeId × Bool)} {u : τ}

theorem own_update_ne (hm : m ≠ n) :
    (Function.update G t { (G t).setOwn n x with held := H } u).own m = (G u).own m := by
  by_cases hu : u = t
  · subst hu
    rw [Function.update_self]
    exact Function.update_of_ne hm _ _
  · rw [Function.update_of_ne hu]

theorem own_update_self :
    (Function.update G t { (G t).setOwn n x with held := H } u).own n = if u = t then x else (G u).own n := by
  by_cases hu : u = t
  · subst hu
    rw [Function.update_self, if_pos rfl]
    exact Function.update_self _ _ _
  · rw [Function.update_of_ne hu, if_neg hu]

end

/-- An own node of the thread changes, is allocated or is deleted. -/
theorem Sound.ownNode (h : Sound s G) {x : Option Node} {H : Multiset (NodeId × Bool)}
    (hn : ((G t).own n).isSome = true ∨ s.node n = none) (hnode : ∀ m, s'.node m = if m = n then x else s.node m)
    (hnext : s.nextNode ≤ s'.nextNode) (hbound : n < s'.nextNode) (hroot : s'.root = s.root) (hlog : s'.log = s.log)
    (hother : ∀ m b, m ≠ n → ((m, b) ∈ H ↔ (m, b) ∈ (G t).held))
    (hself : ∀ b, (n, b) ∈ H ↔ ∃ nd, x = some nd ∧ nd.version.locked = true ∧ nd.version.dirty = b) (honce : H.Nodup) :
    Sound s' (Function.update G t { (G t).setOwn n x with held := H }) := by
  have hothers : ∀ u, u ≠ t → (G u).own n = none ∧ ¬ (G u).Holds n := fun u hu => h.apart_of_own hn hu
  have hnotpub : ¬ Public s G n := not_public_of_own hn
  have hne : ∀ {m}, m ≠ n → s'.node m = s.node m := fun hm => (hnode _).trans (if_neg hm)
  have heq : s'.node n = x := (hnode n).trans (if_pos rfl)
  have hown : ∀ u m, m ≠ n → (Function.update G t { (G t).setOwn n x with held := H } u).own m = (G u).own m :=
    fun u m hm => own_update_ne hm
  have hmy : ∀ u, (Function.update G t { (G t).setOwn n x with held := H } u).own n = if u = t then x else none :=
    fun u => (own_update_self).trans (ite_congr rfl (fun _ => rfl) fun hu => (hothers u hu).1)
  have hknown : ∀ u, (Function.update G t { (G t).setOwn n x with held := H } u).known = (G u).known :=
    update_part View.known rfl
  have hfailed : ∀ u, (Function.update G t { (G t).setOwn n x with held := H } u).failed = (G u).failed :=
    update_part View.failed rfl
  have hpub : ∀ {m}, Public s' (Function.update G t { (G t).setOwn n x with held := H }) m ↔ Public s G m := by
    intro m
    by_cases hm : m = n
    · subst hm
      refine iff_of_false ?_ hnotpub
      rintro ⟨hs, hall⟩
      have hx := (hmy t).symm.trans (hall t)
      rw [if_pos rfl] at hx
      rw [heq, hx] at hs
      cases hs
    · simp only [Public, hne hm, hown _ m hm]
  have hmem : ∀ {u m b}, m ≠ n →
    ((m, b) ∈ (Function.update G t { (G t).setOwn n x with held := H } u).held ↔ (m, b) ∈ (G u).held) := by
    intro u m b hm
    by_cases hu : u = t
    · subst hu
      rw [Function.update_self]
      exact hother m b hm
    · rw [Function.update_of_ne hu]
  have hmine : ∀ {u b}, (n, b) ∈ (Function.update G t { (G t).setOwn n x with held := H } u).held ↔
      u = t ∧ ∃ nd, x = some nd ∧ nd.version.locked = true ∧ nd.version.dirty = b := by
    intro u b
    by_cases hu : u = t
    · subst hu
      rw [Function.update_self]
      exact (hself b).trans (by simp)
    · rw [Function.update_of_ne hu]
      exact ⟨fun hm => absurd ⟨b, hm⟩ (hothers u hu).2, fun hm => absurd hm.1 hu⟩
  exact {
    bounded := fun m md hm => by
      by_cases hmn : m = n
      · exact hmn ▸ hbound
      · exact Nat.lt_of_lt_of_le (h.bounded m md ((hne hmn).symm.trans hm)) hnext
    own := fun u m md ho => by
      by_cases hmn : m = n
      · subst hmn
        rw [hmy] at ho
        split at ho
        · exact heq.trans ho
        · cases ho
      · rw [hown u m hmn] at ho
        exact (hne hmn).trans (h.own u m md ho)
    apart := fun u v m hu hv => by
      by_cases hmn : m = n
      · subst hmn
        rw [hmy] at hu hv
        split at hu <;> split at hv
        · rename_i hu' hv'
          exact hu'.trans hv'.symm
        all_goals simp_all
      · rw [hown _ m hmn] at hu hv
        exact h.apart u v m hu hv
    known := fun u m hm => hpub.mpr (h.known u m (hknown u ▸ hm))
    roots := fun ti m hm => hpub.mpr (h.roots ti m (hroot ▸ hm))
    points := fun m md k hm hmd hk => by
      rw [hpub] at hm ⊢
      have hmn : m ≠ n := fun hmn => hnotpub (hmn ▸ hm)
      exact h.points m md k hm ((hne hmn).symm.trans hmd) hk
    held := fun u m b hm => by
      by_cases hmn : m = n
      · subst hmn
        obtain ⟨-, nd, rfl, hl, hd⟩ := hmine.mp hm
        exact ⟨nd, heq, hl, hd⟩
      · obtain ⟨md, hmd, hml, hmb⟩ := h.held u m b ((hmem hmn).mp hm)
        exact ⟨md, (hne hmn).trans hmd, hml, hmb⟩
    once := fun u => by
      by_cases hu : u = t
      · subst hu
        rw [Function.update_self]
        exact honce
      · rw [Function.update_of_ne hu]
        exact h.once u
    single := fun u v m ⟨b, hb⟩ ⟨b', hb'⟩ => by
      by_cases hmn : m = n
      · subst hmn
        exact (hmine.mp hb).1.trans (hmine.mp hb').1.symm
      · exact h.single u v m ⟨b, (hmem hmn).mp hb⟩ ⟨b', (hmem hmn).mp hb'⟩
    mine := fun u v m hu ⟨b, hb⟩ => by
      by_cases hmn : m = n
      · subst hmn
        obtain ⟨rfl, -⟩ := hmine.mp hb
        by_contra hne
        rw [hmy, if_neg fun h => hne h.symm] at hu
        cases hu
      · rw [hown u m hmn] at hu
        exact h.mine u v m hu ⟨b, (hmem hmn).mp hb⟩
    locked := fun m md hmd hml => by
      by_cases hmn : m = n
      · subst hmn
        exact ⟨t, hmine.mpr ⟨rfl, md, heq.symm.trans hmd, hml, rfl⟩⟩
      · obtain ⟨u, hu⟩ := h.locked m md ((hne hmn).symm.trans hmd) hml
        exact ⟨u, (hmem hmn).mpr hu⟩
    clean := fun m md hm hmd => by
      rw [hpub] at hm
      have hmn : m ≠ n := fun hmn => hnotpub (hmn ▸ hm)
      exact h.clean m md hm ((hne hmn).symm.trans hmd)
    reported := fun u hu => hlog ▸ h.reported u (hfailed u ▸ hu) }

end Invariant
end Protocol
end Yakushima
