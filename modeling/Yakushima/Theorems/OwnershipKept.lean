import Yakushima.Theorems.Ownership

/-! # What threads do keeps what they own

Every operation that the discipline lets a thread do keeps the invariant, whatever the other threads have. -/

namespace Yakushima

/-- What a node holds under its lock: all but the word, the parent and the previous border. -/
def Node.content (nd : Node) : Node := { nd with version := .init, parent := none, prev := none }

/-- The keys and their number, as the node itself has them. -/
def Node.keys (nd : Node) : (Nat → KeySlice) × (Nat → Nat) × Nat := (nd.keySlice, nd.keyLength, nd.nKeys)

namespace Protocol
open Lib

variable {τ : Type} [DecidableEq τ] {s s' : State} {G : τ → View} {t : τ} {g g' : View} {n m : NodeId} {nd nd' : Node}

/-! ### Words -/

theorem dirty_unlocked (v : Version) : v.unlocked.dirty = false := by
  obtain ⟨vi, l, id, sp, vs, d, r, b⟩ := v
  cases id <;> cases sp <;> rfl

theorem locked_unlocked (v : Version) : v.unlocked.locked = false := rfl

theorem dirty_mark {v w : Version} (h : w = .setInsertingDeleting true v ∨ w = .setSplitting true v) : w.dirty = true := by
  rcases h with rfl | rfl
  · rfl
  · exact Bool.or_true _

theorem locked_mark {v w : Version} (h : w = .setInsertingDeleting true v ∨ w = .setSplitting true v) :
    w.locked = v.locked := by
  rcases h with rfl | rfl <;> rfl

theorem succ_counter_ne (k : Nat) : (k + 1) % Version.counterSize ≠ k := by
  have hsize : Version.counterSize = 536870912 := rfl
  rw [hsize]
  lia

theorem vinsertDelete_unlocked (v : Version) :
    v.unlocked.vinsertDelete = if v.insertingDeleting = true then (v.vinsertDelete + 1) % Version.counterSize
      else v.vinsertDelete := by
  obtain ⟨vi, l, id, sp, vs, d, r, b⟩ := v
  cases id <;> cases sp <;> rfl

theorem vsplit_unlocked (v : Version) :
    v.unlocked.vsplit = if v.splitting = true then (v.vsplit + 1) % Version.counterSize else v.vsplit := by
  obtain ⟨vi, l, id, sp, vs, d, r, b⟩ := v
  cases id <;> cases sp <;> rfl

/-! ### Members -/

/-- A stored member points where its value does; the others point where they did. -/
theorem points_set {β : Type} {f : Field β} {x : β} (h : (nd.set f x).Points m) : nd.Points m ∨ f.ptr x = some m := by
  obtain ⟨δ, f', hf⟩ := h
  suffices hcase : f'.ptr ((nd.set f x).get f') = f'.ptr (nd.get f') ∨ f'.ptr ((nd.set f x).get f') = f.ptr x by
    rcases hcase with hc | hc
    · exact Or.inl ⟨δ, f', hc ▸ hf⟩
    · exact Or.inr (hc ▸ hf)
  cases f with
  | child i =>
    cases f' with
    | child j =>
      simp only [Field.ptr, Node.get, Node.set, upd]
      split <;> simp
    | _ => exact Or.inl rfl
  | lv i =>
    cases f' with
    | lv j =>
      simp only [Field.ptr, Node.get, Node.set, upd]
      split <;> simp
    | _ => exact Or.inl rfl
  | _ => cases f' <;> first | exact Or.inl rfl | exact Or.inr rfl

theorem version_set {β : Type} {f : Field β} {x : β} (h : g.Stores n f) : (nd.set f x).version = nd.version := by
  cases f with
  | version => exact absurd h id
  | _ => rfl

/-- The keys and their number point nowhere. -/
theorem points_keys {ks : Nat → KeySlice} {kl : Nat → Nat} {k : Nat}
    (h : ({ nd with keySlice := ks, keyLength := kl, nKeys := k } : Node).Points m) :
    nd.Points m := by
  obtain ⟨δ, f, hf⟩ := h
  refine ⟨δ, f, ?_⟩
  cases f <;> exact hf

theorem points_version {w : Version} (h : ({ nd with version := w } : Node).Points m) : nd.Points m := by
  obtain ⟨δ, f, hf⟩ := h
  refine ⟨δ, f, ?_⟩
  cases f <;> exact hf

/-! ### Nodes of others -/

/-- What the step of a thread with the locks `H` does to a node that is not its own. -/
structure Edit (n : NodeId) (H : Multiset (NodeId × Bool)) (nd nd' : Node) : Prop where
  content : nd'.content = nd.content ∨ ∃ b, (n, b) ∈ H
  keys : nd'.keys = nd.keys ∨ (n, true) ∈ H
  word : nd'.version.setRoot false = nd.version.setRoot false ∨ nd.version.locked = false ∧
    nd'.version = nd.version.setLocked true ∨ ∃ b, (n, b) ∈ H
  inserts : nd'.version.vinsertDelete = nd.version.vinsertDelete ∨
    nd'.version.vinsertDelete = (nd.version.vinsertDelete + 1) % Version.counterSize
  splits : nd'.version.vsplit = nd.version.vsplit ∨ nd'.version.vsplit = (nd.version.vsplit + 1) % Version.counterSize
  /-- A dirty flag is cleared with a step of a counter. -/
  dirty : nd.version.dirty = true → nd'.version.dirty = true ∨ nd'.version.vinsertDelete ≠ nd.version.vinsertDelete ∨
    nd'.version.vsplit ≠ nd.version.vsplit

theorem Edit.refl : Edit n H nd nd := ⟨Or.inl rfl, Or.inl rfl, Or.inl rfl, Or.inl rfl, Or.inl rfl, Or.inl⟩

theorem Edit.members (hv : nd'.version = nd.version) (hc : nd'.content = nd.content ∨ ∃ b, (n, b) ∈ H)
    (hk : nd'.keys = nd.keys ∨ (n, true) ∈ H) :
    Edit n H nd nd' := by
  refine ⟨hc, hk, ?_, ?_, ?_, ?_⟩ <;> rw [hv]
  · exact Or.inl rfl
  · exact Or.inl rfl
  · exact Or.inl rfl
  · exact Or.inl

theorem Edit.store {β : Type} {f : Field β} {x : β} (h : g.Stores n f) : Edit n g.held nd (nd.set f x) := by
  refine .members (version_set h) ?_ ?_ <;> cases f
  all_goals first
    | exact absurd h id
    | exact Or.inl rfl
    | exact Or.inr h
    | exact Or.inr ⟨true, h⟩

/-- Without its lock, the word of a node changes by being locked, and in its root flag. -/
theorem View.Swaps.word {v desired : Version} (h : g.Swaps n v desired g') :
    desired.setRoot false = v.setRoot false ∨ v.locked = false ∧ desired = v.setLocked true ∨ ∃ b, (n, b) ∈ g.held := by
  cases h with
  | lock free h => exact Or.inr (Or.inl ⟨free, h⟩)
  | unlock has h => exact Or.inr (Or.inr ⟨_, has ▸ Multiset.mem_cons_self _ _⟩)
  | mark has h => exact Or.inr (Or.inr ⟨_, has ▸ Multiset.mem_cons_self _ _⟩)
  | setDeleted has h => exact Or.inr (Or.inr has)
  | setRoot h => exact Or.inl (h ▸ rfl)

theorem Edit.swap {desired : Version} (h : g.Swaps n nd.version desired g') :
    Edit n g.held nd { nd with version := desired } := by
  have hword := h.word
  have hsame : desired.vinsertDelete = nd.version.vinsertDelete → desired.vsplit = nd.version.vsplit →
      (nd.version.dirty = true → desired.dirty = true) → Edit n g.held nd { nd with version := desired } := fun hi hs hd =>
    ⟨Or.inl rfl, Or.inl rfl, hword, Or.inl hi, Or.inl hs, fun h => Or.inl (hd h)⟩
  cases h with
  | lock free h => exact hsame (h ▸ rfl) (h ▸ rfl) fun hd => h ▸ hd
  | mark has h =>
    exact hsame (by rcases h with rfl | rfl <;> rfl) (by rcases h with rfl | rfl <;> rfl) fun _ => dirty_mark h
  | setDeleted has h => exact hsame (h ▸ rfl) (h ▸ rfl) fun hd => h ▸ hd
  | setRoot h => exact hsame (h ▸ rfl) (h ▸ rfl) fun hd => h ▸ hd
  | unlock has h =>
    subst h
    refine ⟨Or.inl rfl, Or.inl rfl, hword, ?_, ?_, fun hd => Or.inr ?_⟩ <;> simp only [vinsertDelete_unlocked,
      vsplit_unlocked]
    · split
      · exact Or.inr rfl
      · exact Or.inl rfl
    · split
      · exact Or.inr rfl
      · exact Or.inl rfl
    · rcases (Bool.or_eq_true _ _).mp hd with hd | hd
      · exact Or.inl (by rw [if_pos hd]; exact succ_counter_ne _)
      · exact Or.inr (by rw [if_pos hd]; exact succ_counter_ne _)

/-! ### Operations -/

theorem performs_load_inv {β : Type} {f : Field β} {y : β} (h : Performs (.load n f) s y s') :
    s' = s ∧ ∃ nd, s.node n = some nd ∧ y = nd.get f := by
  rcases h with h | ⟨h, -⟩
  · simp only [exec] at h
    split at h
    · rename_i nd hnd
      split at h
      · cases h
        exact ⟨rfl, nd, hnd, rfl⟩
      · cases h
    · cases h
  · exact absurd h id

theorem performs_store_inv {β : Type} {f : Field β} {x : β} {y : Unit} (h : Performs (.store n f x) s y s') :
    ∃ nd, s.node n = some nd ∧ s' = s.setNode n (nd.set f x) := by
  rcases h with h | ⟨h, -⟩
  · simp only [exec] at h
    split at h
    · rename_i nd hnd
      split at h
      · cases h
        exact ⟨nd, hnd, rfl⟩
      · cases h
    · cases h
  · exact absurd h id

theorem performs_cas_inv {expected desired : Version} {y : Bool × Version}
    (h : Performs (.casVersion n expected desired) s y s') :
    (y.1 = false ∧ s' = s) ∨
      y.1 = true ∧ ∃ nd, s.node n = some nd ∧ nd.version = expected ∧ s' = s.setNode n { nd with version := desired } := by
  rcases h with h | ⟨⟨nd, -, rfl⟩, hs⟩
  · simp only [exec] at h
    split at h
    · rename_i nd hnd
      split at h
      · rename_i hv
        cases h
        exact Or.inr ⟨rfl, nd, hnd, hv, rfl⟩
      · cases h
        exact Or.inl ⟨rfl, rfl⟩
    · cases h
  · exact Or.inl ⟨rfl, hs⟩

theorem performs_fetchAdd_inv {d : Nat} {y : Unit} (h : Performs (.fetchAddNKeys n d) s y s') :
    ∃ nd, s.node n = some nd ∧ s' = s.setNode n { nd with nKeys := (nd.nKeys + d) % 256 } := by
  rcases h with h | ⟨h, -⟩
  · simp only [exec] at h
    split at h
    · rename_i nd hnd
      split at h
      · cases h
        exact ⟨nd, hnd, rfl⟩
      · cases h
    · cases h
  · exact absurd h id

theorem performs_shift_inv {o : Op Unit} {y : Unit}
    (ho : ∃ start size, o = .shiftLeftKeys n start size ∨ o = .shiftRightKeys n start size) (h : Performs o s y s') :
    ∃ nd ks kl, s.node n = some nd ∧ s' = s.setNode n { nd with keySlice := ks, keyLength := kl } := by
  obtain ⟨start, size, rfl | rfl⟩ := ho <;> rcases h with h | ⟨h, -⟩
  all_goals first
    | exact absurd h id
    | simp only [exec] at h
      split at h
      · rename_i nd hnd
        split at h
        · cases h
          exact ⟨nd, _, _, hnd, rfl⟩
        · cases h
      · cases h

theorem performs_isBorder_inv {y : Bool} (h : Performs (.isBorder n) s y s') : s' = s ∧ ∃ nd, s.node n = some nd ∧
    y = decide (nd.kind = .border) := by
  rcases h with h | ⟨h, -⟩
  · simp only [exec] at h
    split at h
    · rename_i nd hnd
      cases h
      exact ⟨rfl, nd, hnd, rfl⟩
    · cases h
  · exact absurd h id

theorem performs_newNode_inv {kind : Kind} {y : NodeId} (h : Performs (.newNode kind) s y s') :
    y = s.nextNode ∧ s' = { s.setNode s.nextNode (.fresh kind) with nextNode := s.nextNode + 1 } := by
  rcases h with h | ⟨h, -⟩
  · cases h
    exact ⟨rfl, rfl⟩
  · exact absurd h id

theorem performs_deleteNode_inv {y : Unit} (h : Performs (.deleteNode n) s y s') :
    s' = { s with node := fun m => if m = n then none else s.node m } := by
  rcases h with h | ⟨h, -⟩
  · simp only [exec] at h
    split at h
    · cases h
      rfl
    · cases h
  · exact absurd h id

/-- The other operations leave the nodes alone, and the roots are what they were or what is stored. -/
structure Aside (s s' : State) (stored : Ptr) : Prop where
  node : s'.node = s.node
  nextNode : s'.nextNode = s.nextNode
  root : ∀ ti m, s'.root ti = some m → s.root ti = some m ∨ stored = some m
  log : s.log ≠ [] → s'.log ≠ []

theorem aside_setRoot (ti : TreeId) (p : Ptr) : Aside s { s with root := fun u => if u = ti then p else s.root u } p where
  node := rfl
  nextNode := rfl
  root := fun tj m h => by
    change (if tj = ti then p else s.root tj) = some m at h
    split at h
    · exact Or.inr h
    · exact Or.inl h
  log := id

/-- The operations on blocks and containers. -/
def OfBlocks {β : Type} : Op β → Prop
  | .newBlock _ | .loadBlock _ | .removeDeleteFlag _ | .deleteBlock _ | .pushNode _ _ | .pushValue _ _ _ _ => True
  | _ => False

theorem aside_of_blocks {β : Type} {o : Op β} {y : β} (h : Performs o s y s') (ho : OfBlocks o) : Aside s s' none := by
  have haside : ∀ {s' : State}, s'.node = s.node → s'.nextNode = s.nextNode → s'.root = s.root → s'.log = s.log →
    Aside s s' none :=
    fun hn hx hr hl => ⟨hn, hx, fun ti m hm => Or.inl (hr ▸ hm), fun h => hl ▸ h⟩
  cases o with
  | newBlock _ | pushNode _ _ | pushValue _ _ _ _ =>
    rcases h with h | ⟨h, -⟩
    · cases h
      exact haside rfl rfl rfl rfl
    · exact absurd h id
  | loadBlock _ | removeDeleteFlag _ | deleteBlock _ =>
    rcases h with h | ⟨h, -⟩
    · simp only [exec] at h
      split at h
      · cases h
        exact haside rfl rfl rfl rfl
      · cases h
    · exact absurd h id
  | _ => exact absurd ho id

/-! ### What the thread does to nodes -/

/-- Members of a public node change, but not its word. -/
theorem Sound.setMembers (h : Sound s G) (hn : n ∈ (G t).known) (hnd : s.node n = some nd) (hv : nd'.version = nd.version)
    (hp : ∀ m, nd'.Points m → nd.Points m ∨ m ∈ (G t).known) : Sound (s.setNode n nd') (Function.update G t (G t)) := by
  rw [Function.update_eq_self]
  have hpub := h.known t n hn
  refine h.setNode hpub hnd (by rw [hv]) (by rw [hv]) fun m hm => ?_
  rcases hp m hm with hm | hm
  · exact h.points n nd m hpub hnd hm
  · exact h.known t m hm

theorem Sound.rewrites (h : Sound s G) {change : Node → Node} (hr : (G t).Rewrites n change g) (hnd : s.node n = some nd) :
    Sound (s.setNode n (change nd)) (Function.update G t g) := by
  obtain ⟨nd', ho, hr⟩ := hr
  obtain rfl : nd' = nd := Option.some.inj ((h.own t n nd' ho).symm.trans hnd)
  have hown : ((G t).own n).isSome = true := by
    rw [ho]
    rfl
  have hbound := h.bounded n nd' hnd
  have hnode : ∀ m, (s.setNode n (change nd')).node m = if m = n then some (change nd') else s.node m := fun _ => rfl
  have hheld : ∀ b, (n, b) ∈ (G t).held → nd'.version.locked = true ∧ nd'.version.dirty = b := by
    intro b hb
    obtain ⟨md, hmd, hl, hd⟩ := h.held t n b hb
    cases hnd.symm.trans hmd
    exact ⟨hl, hd⟩
  rcases hr with ⟨hv, rfl⟩ | ⟨hl, hl', rfl⟩
  · refine h.ownNode (Or.inl hown) hnode (Nat.le_refl _) hbound rfl rfl (fun _ _ _ => Iff.rfl)
      (fun b => ⟨fun hb => ?_, ?_⟩) (h.once t)
    · rcases hv with hv | ⟨hl, -⟩
      · rw [← hv] at hheld
        exact ⟨_, rfl, hheld b hb⟩
      · rw [(hheld b hb).1] at hl
        cases hl
    · rintro ⟨_, ⟨⟩, hl, hd⟩
      rcases hv with hv | ⟨-, hl'⟩
      · rw [hv] at hl hd
        obtain ⟨u, hu⟩ := h.locked n nd' hnd hl
        rw [hd] at hu
        exact h.mine t u n hown ⟨b, hu⟩ ▸ hu
      · rw [hl] at hl'
        cases hl'
  · have hfree : ∀ b, (n, b) ∉ (G t).held := by
      intro b hb
      rw [(hheld b hb).1] at hl
      cases hl
    refine h.ownNode (Or.inl hown) hnode (Nat.le_refl _) hbound rfl rfl (fun m b hm => ?_) (fun b => ⟨fun hb => ?_, ?_⟩)
      (Multiset.nodup_cons.mpr ⟨hfree _, h.once t⟩)
    · exact Multiset.mem_cons.trans (or_iff_right fun heq => hm (Prod.ext_iff.mp heq).1)
    · rcases Multiset.mem_cons.mp hb with heq | hb
      · exact ⟨_, rfl, hl', (Prod.ext_iff.mp heq).2.symm⟩
      · exact absurd hb (hfree b)
    · rintro ⟨_, ⟨⟩, -, rfl⟩
      exact Multiset.mem_cons_self _ _

/-- The word of a public node changes by a compare-and-swap. -/
theorem Sound.swaps (h : Sound s G) {desired : Version} (hn : n ∈ (G t).known) (hnd : s.node n = some nd)
    (hs : (G t).Swaps n nd.version desired g) : Sound (s.setNode n { nd with version := desired })
    (Function.update G t g) := by
  have hpub := h.known t n hn
  have hheld : ∀ {u b}, (n, b) ∈ (G u).held → nd.version.locked = true ∧ nd.version.dirty = b := by
    intro u b hb
    obtain ⟨md, hmd, hl, hd⟩ := h.held u n b hb
    cases hnd.symm.trans hmd
    exact ⟨hl, hd⟩
  -- Only the root flag or the deleted flag changes.
  have hflags : ∀ {w : Version}, w.locked = nd.version.locked → w.dirty = nd.version.dirty →
      Sound (s.setNode n { nd with version := w }) (Function.update G t (G t)) := by
    intro w hl hd
    rw [Function.update_eq_self]
    exact h.setNode hpub hnd hl hd fun m hm => h.points n nd m hpub hnd (points_version hm)
  -- The thread has the lock, and what it has of other nodes is `R`.
  have hrest : ∀ {b R}, (G t).held = (n, b) ::ₘ R → (∀ u, u ≠ t → ¬ (G u).Holds n) ∧ R.Nodup ∧ (∀ b', (n, b') ∉ R) ∧
      ∀ m b', m ≠ n → ((m, b') ∈ R ↔ (m, b') ∈ (G t).held) := by
    intro b R has
    have hb : (n, b) ∈ (G t).held := by
      rw [has]
      exact Multiset.mem_cons_self _ _
    have honce := h.once t
    rw [has, Multiset.nodup_cons] at honce
    refine ⟨fun u hu hh => hu (h.single u t n hh ⟨b, hb⟩), honce.2, fun b' hb' => ?_, fun m b' hm => ?_⟩
    · have hmem : (n, b') ∈ (G t).held := by
        rw [has]
        exact Multiset.mem_cons_of_mem hb'
      obtain rfl := (hheld hb).2.symm.trans (hheld hmem).2
      exact honce.1 hb'
    · rw [has]
      exact (Multiset.mem_cons.trans (or_iff_right fun heq => hm (Prod.ext_iff.mp heq).1)).symm
  cases hs with
  | lock free hd =>
    subst hd
    have hfree : ∀ u, ¬ (G u).Holds n := by
      rintro u ⟨b, hb⟩
      rw [(hheld hb).1] at free
      cases free
    have hclean : nd.version.dirty = false := by
      cases hdirty : nd.version.dirty with
      | false => rfl
      | true =>
        rw [h.clean n nd hpub hnd hdirty] at free
        cases free
    refine h.setWord hpub hnd (fun u _ => hfree u) (fun m b hm => ?_) (fun b => ⟨fun hb => ?_, ?_⟩)
      (Multiset.nodup_cons.mpr ⟨fun hb => hfree t ⟨_, hb⟩, h.once t⟩) fun _ => rfl
    · exact Multiset.mem_cons.trans (or_iff_right fun heq => hm (Prod.ext_iff.mp heq).1)
    · rcases Multiset.mem_cons.mp hb with heq | hb
      · exact ⟨rfl, hclean.trans (Prod.ext_iff.mp heq).2.symm⟩
      · exact absurd ⟨b, hb⟩ (hfree t)
    · rintro ⟨-, hb⟩
      rw [← hb, show (Version.setLocked true nd.version).dirty = false from hclean]
      exact Multiset.mem_cons_self _ _
  | @unlock b R has hd =>
    subst hd
    obtain ⟨hfree, honce, hnot, hother⟩ := hrest has
    refine h.setWord hpub hnd hfree hother (fun b' => iff_of_false (hnot b') fun hl => ?_) honce fun hd => ?_
    · rw [locked_unlocked] at hl
      cases hl.1
    · rw [dirty_unlocked] at hd
      cases hd
  | @mark b R has hd =>
    obtain ⟨hfree, honce, hnot, hother⟩ := hrest has
    have hl : desired.locked = true := by
      rw [locked_mark hd]
      refine (hheld (u := t) (b := b) ?_).1
      rw [has]
      exact Multiset.mem_cons_self _ _
    refine h.setWord hpub hnd hfree (fun m b' hm => ?_) (fun b' => ⟨fun hb' => ?_, ?_⟩)
      (Multiset.nodup_cons.mpr ⟨hnot _, honce⟩) fun _ => hl
    · exact (Multiset.mem_cons.trans (or_iff_right fun heq => hm (Prod.ext_iff.mp heq).1)).trans (hother m b' hm)
    · rcases Multiset.mem_cons.mp hb' with heq | hb'
      · exact ⟨hl, (dirty_mark hd).trans (Prod.ext_iff.mp heq).2.symm⟩
      · exact absurd hb' (hnot b')
    · rintro ⟨-, rfl⟩
      rw [dirty_mark hd]
      exact Multiset.mem_cons_self _ _
  | setDeleted has hd =>
    obtain ⟨tf, rfl⟩ : ∃ tf, desired = .setDeleted tf nd.version := ⟨_, hd⟩
    exact hflags rfl rfl
  | setRoot hd =>
    obtain ⟨tf, rfl⟩ : ∃ tf, desired = .setRoot tf nd.version := ⟨_, hd⟩
    exact hflags rfl rfl

/-! ### Steps -/

omit [DecidableEq τ] in
/-- Nobody gets an impossible answer. -/
theorem Sound.possible {β : Type} {o : Op β} {y : β} (h : Sound s G) (hp : Performs o s y s') : ¬ Impossible o y (G t) := by
  cases o with
  | load n f =>
    obtain ⟨-, nd, hnd, rfl⟩ := performs_load_inv hp
    rintro (⟨nd', ho, hne⟩ | hm)
    · cases (h.own t n nd' ho).symm.trans hnd
      exact hne rfl
    · cases f with
      | version =>
        obtain ⟨b, hb, hne⟩ := hm
        obtain ⟨nd', hnd', hl, hd⟩ := h.held t n b hb
        cases hnd'.symm.trans hnd
        exact hne ⟨hl, hd⟩
      | _ => exact hm
  | casVersion n expected desired =>
    rintro ⟨hy, nd', ho, hne⟩
    rcases performs_cas_inv hp with ⟨hy', -⟩ | ⟨-, nd, hnd, hv, -⟩
    · rw [hy] at hy'
      cases hy'
    · cases (h.own t n nd' ho).symm.trans hnd
      exact hne hv
  | isBorder n =>
    obtain ⟨-, nd, hnd, rfl⟩ := performs_isBorder_inv hp
    rintro ⟨nd', ho, hne⟩
    cases (h.own t n nd' ho).symm.trans hnd
    exact hne rfl
  | newNode kind =>
    obtain ⟨rfl, -⟩ := performs_newNode_inv hp
    rintro (hn | hn)
    · have hs := (h.known t _ hn).1
      rw [h.nextNode_free] at hs
      cases hs
    · obtain ⟨nd, ho⟩ := Option.isSome_iff_exists.mp hn
      cases (h.own t _ nd ho).symm.trans h.nextNode_free
  | _ => exact id

/-- What an operation does to the memory and to the view of its thread: it leaves the nodes alone, changes the node of
    another or one of its own, allocates a node or releases one of its own. -/
inductive Outcome (s : State) (g : View) : State → View → Prop where
  | quiet {s' : State} {g' : View} (node : s'.node = s.node) (nextNode : s'.nextNode = s.nextNode)
      (root : ∀ ti m, s'.root ti = some m → s.root ti = some m ∨ m ∈ g.known) (log : s.log ≠ [] → s'.log ≠ [])
        (own : g'.own = g.own)
      (held : g'.held = g.held) (failed : g'.failed = true → g.failed = true ∨ s'.log ≠ [])
      (known : ∀ m ∈ g'.known, m ∈ g.known ∨ (∃ ti, s.root ti = some m) ∨ ∃ n ∈ g.known, ∃ nd, s.node n = some nd ∧
        nd.Points m) : Outcome s g s' g'
  | members {n : NodeId} {nd nd' : Node} (hn : n ∈ g.known) (hnd : s.node n = some nd) (hv : nd'.version = nd.version)
      (hp : ∀ m, nd'.Points m → nd.Points m ∨ m ∈ g.known) (edit : Edit n g.held nd nd') : Outcome s g (s.setNode n nd') g
  | swaps {n : NodeId} {nd : Node} {desired : Version} {g' : View} (hn : n ∈ g.known) (hnd : s.node n = some nd)
      (hs : g.Swaps n nd.version desired g') : Outcome s g (s.setNode n { nd with version := desired }) g'
  | rewrites {n : NodeId} {nd : Node} {change : Node → Node} {g' : View} (hr : g.Rewrites n change g')
      (hnd : s.node n = some nd) :
      Outcome s g (s.setNode n (change nd)) g'
  | allocates {kind : Kind} :
      Outcome s g { s.setNode s.nextNode (.fresh kind) with nextNode := s.nextNode + 1 }
        (g.setOwn s.nextNode (some (.fresh kind)))
  | releases {n : NodeId} {nd : Node} (ho : g.own n = some nd) (hl : nd.version.locked = false) :
      Outcome s g { s with node := fun m => if m = n then none else s.node m } (g.setOwn n none)

omit [DecidableEq τ] in
theorem Outcome.same {p : Ptr} (ha : Aside s s' p) (hp : ∀ m ∈ p, m ∈ g.known) : Outcome s g s' g :=
  .quiet ha.node ha.nextNode (fun ti m hm => (ha.root ti m hm).imp_right (hp m)) ha.log rfl rfl Or.inl fun _ hm => Or.inl hm

/-- The outcome of an operation that the discipline allows. -/
theorem Outcome.of_acts {β : Type} {o : Op β} {y : β} (hp : Performs o s y s') (ha : Acts o y g g') :
    Outcome s g s' g' := by
  have hstay : Outcome s g s g := .quiet rfl rfl (fun _ _ hm => Or.inl hm) id rfl rfl Or.inl fun _ hm => Or.inl hm
  have hlearn : ∀ {p : Ptr},
    (∀ m, p = some m → (∃ ti, s.root ti = some m) ∨ ∃ n ∈ g.known, ∃ nd, s.node n = some nd ∧ nd.Points m) →
      Outcome s g s (g.learn p) := fun hp => .quiet rfl rfl (fun _ _ hm => Or.inl hm) id rfl rfl Or.inl
        fun m hm => hm.imp_right (hp m)
  cases o with
  | load n f =>
    obtain ⟨rfl, nd, hnd, rfl⟩ := performs_load_inv hp
    rcases ha with ⟨hn, rfl⟩ | ⟨-, rfl⟩
    · exact hlearn fun m hm => Or.inr ⟨n, hn, nd, hnd, _, f, hm⟩
    · exact hstay
  | store n f x =>
    obtain ⟨nd, hnd, rfl⟩ := performs_store_inv hp
    rcases ha with ⟨⟨hn, hst, hx⟩, rfl⟩ | hr
    · exact .members hn hnd (version_set hst) (fun m hm => (points_set hm).imp_right (hx m)) (.store hst)
    · exact .rewrites hr hnd
  | casVersion n expected desired =>
    rcases performs_cas_inv hp with ⟨hy, rfl⟩ | ⟨hy, nd, hnd, rfl, rfl⟩
    · rcases ha with ⟨-, -, rfl⟩ | ⟨hy', -⟩
      · exact hstay
      · rw [hy] at hy'
        cases hy'
    · rcases ha with ⟨hy', -⟩ | ⟨-, ⟨hn, hs⟩ | hr⟩
      · rw [hy] at hy'
        cases hy'
      · exact .swaps hn hnd hs
      · exact .rewrites hr hnd
  | fetchAddNKeys n d =>
    obtain ⟨nd, hnd, rfl⟩ := performs_fetchAdd_inv hp
    rcases ha with ⟨⟨hn, hb⟩, rfl⟩ | hr
    · exact .members hn hnd rfl (fun m hm => Or.inl (points_keys hm)) (.members rfl (Or.inr ⟨true, hb⟩) (Or.inr hb))
    · exact .rewrites hr hnd
  | shiftLeftKeys n start size =>
    obtain ⟨nd, ks, kl, hnd, rfl⟩ := performs_shift_inv ⟨start, size, Or.inl rfl⟩ hp
    obtain ⟨⟨hn, hb⟩, rfl⟩ := ha
    exact .members hn hnd rfl (fun m hm => Or.inl (points_keys hm)) (.members rfl (Or.inr ⟨true, hb⟩) (Or.inr hb))
  | shiftRightKeys n start size =>
    obtain ⟨nd, ks, kl, hnd, rfl⟩ := performs_shift_inv ⟨start, size, Or.inr rfl⟩ hp
    obtain ⟨⟨hn, hb⟩, rfl⟩ := ha
    exact .members hn hnd rfl (fun m hm => Or.inl (points_keys hm)) (.members rfl (Or.inr ⟨true, hb⟩) (Or.inr hb))
  | isBorder n =>
    obtain ⟨rfl, -⟩ := performs_isBorder_inv hp
    obtain ⟨-, rfl⟩ := ha
    exact hstay
  | newNode kind =>
    obtain ⟨rfl, rfl⟩ := performs_newNode_inv hp
    obtain rfl := ha
    exact .allocates
  | deleteNode n =>
    obtain rfl := performs_deleteNode_inv hp
    obtain ⟨⟨nd, ho, hl⟩, rfl⟩ := ha
    exact .releases ho hl
  | loadRoot ti =>
    obtain rfl := ha
    rcases hp with hp | ⟨hp, -⟩
    · cases hp
      exact hlearn fun m hm => Or.inl ⟨ti, hm⟩
    · exact absurd hp id
  | storeRoot ti p =>
    obtain ⟨hk, rfl⟩ := ha
    rcases hp with hp | ⟨hp, -⟩
    · cases hp
      exact .same (aside_setRoot ti p) hk
    · exact absurd hp id
  | casRoot ti expected desired =>
    obtain ⟨hk, rfl⟩ := ha
    rcases hp with hp | ⟨-, rfl⟩
    · simp only [exec] at hp
      split at hp <;> cases hp
      · exact .same (aside_setRoot ti desired) (hk rfl)
      · exact hstay
    · exact hstay
  | logError e =>
    obtain rfl := ha
    rcases hp with hp | ⟨hp, -⟩
    · cases hp
      have hlog : s.log ++ [e] ≠ [] := List.append_ne_nil_of_right_ne_nil _ (List.cons_ne_nil e [])
      exact .quiet rfl rfl (fun _ _ hm => Or.inl hm) (fun _ => hlog) rfl rfl (fun _ => Or.inr hlog) fun _ hm => Or.inl hm
    · exact absurd hp id
  | newBlock _ | loadBlock _ | removeDeleteFlag _ | deleteBlock _ | pushValue _ _ _ _ =>
    obtain rfl := ha
    exact .same (aside_of_blocks hp trivial) fun m hm => absurd hm (Option.not_mem_none m)
  | pushNode token n =>
    obtain ⟨-, rfl⟩ := ha
    exact .same (aside_of_blocks hp trivial) fun m hm => absurd hm (Option.not_mem_none m)

/-- What an operation does to the view fits to what it does to the memory. -/
theorem Sound.acts {β : Type} {o : Op β} {y : β} (h : Sound s G) (hp : Performs o s y s') (ha : Acts o y (G t) g) :
    Sound s' (Function.update G t g) := by
  cases Outcome.of_acts hp ha with
  | quiet node nextNode root log own held failed known =>
    have hs := h.frame node nextNode (fun ti m hm => (root ti m hm).elim (h.roots ti m) (h.known t m)) log
    refine hs.see own held (fun hf => (failed hf).elim (fun hf => log (h.reported t hf)) id) fun m hm => ?_
    have hpub : Public s G m := by
      rcases known m hm with hm | ⟨ti, hm⟩ | ⟨k, hk, nd, hnd, hm⟩
      · exact h.known t m hm
      · exact h.roots ti m hm
      · exact h.points k nd m (h.known t k hk) hnd hm
    exact ⟨by rw [node]; exact hpub.1, hpub.2⟩
  | members hn hnd hv points _ => exact h.setMembers hn hnd hv points
  | swaps hn hnd hs => exact h.swaps hn hnd hs
  | rewrites hr hnd => exact h.rewrites hr hnd
  | allocates =>
    refine h.ownNode (Or.inr h.nextNode_free) (fun _ => rfl) (Nat.le_succ _) (Nat.lt_succ_self _) rfl rfl
      (fun _ _ _ => Iff.rfl)
      (fun b => iff_of_false (fun hb => ?_) ?_) (h.once t)
    · obtain ⟨nd, hnd, -⟩ := h.held t _ b hb
      cases hnd.symm.trans h.nextNode_free
    · rintro ⟨_, ⟨⟩, hl, -⟩
      cases hl
  | @releases n nd ho hl =>
    have hnd := h.own t n nd ho
    refine h.ownNode (Or.inl (Option.isSome_of_eq_some ho)) (fun _ => rfl) (Nat.le_refl _) (h.bounded n nd hnd) rfl rfl
      (fun _ _ _ => Iff.rfl)
      (fun b => iff_of_false (fun hb => ?_) ?_) (h.once t)
    · obtain ⟨md, hmd, hml, -⟩ := h.held t n b hb
      cases hnd.symm.trans hmd
      rw [hl] at hml
      cases hml
    · rintro ⟨_, hx, -⟩
      cases hx

theorem Sound.moves {β : Type} {o : Op β} {y : β} (h : Sound s G) (hp : Performs o s y s') (hm : Moves o y (G t) g) :
    Sound s' (Function.update G t g) := by
  obtain ⟨g₁, g₂, h₁, ha, h₂⟩ := hm
  have hs₁ := h.publishes h₁
  have hs₂ := hs₁.acts (t := t) (g := g₂) hp (by rwa [Function.update_self])
  rw [Function.update_idem] at hs₂
  have hs₃ := hs₂.publishes (t := t) (g := g) (by rwa [Function.update_self])
  rwa [Function.update_idem] at hs₃

end Protocol
end Yakushima
