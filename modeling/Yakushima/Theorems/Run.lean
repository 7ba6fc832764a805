import Yakushima.Model.Call

/-! # Sequential runs of the basic operations

What a load, a store and the functions on version words do when no other thread is at work. A compound
function is described by its result and by the memory it leaves; most change nodes only. -/

namespace Yakushima
open M

/-! ### Nodes -/

namespace State

@[simp] theorem setNode_node_same (s : State) (n : NodeId) (nd : Node) : (s.setNode n nd).node n = some nd := by
  simp [setNode]

theorem setNode_node_ne {s : State} {n m : NodeId} {nd : Node} (h : m ≠ n) : (s.setNode n nd).node m = s.node m := by
  simp [setNode, h]

@[simp] theorem setNode_setNode (s : State) (n : NodeId) (a b : Node) : (s.setNode n a).setNode n b = s.setNode n b := by
  simp only [setNode, State.mk.injEq, and_self, and_true]
  funext m
  split <;> rfl

theorem setNode_stays {s : State} {n m : NodeId} {nd md : Node} (h : s.node m = some md) :
    ∃ md', (s.setNode n nd).node m = some md' := by
  by_cases hm : m = n
  · subst hm
    exact ⟨nd, setNode_node_same _ _ _⟩
  · exact ⟨md, (setNode_node_ne hm).trans h⟩

theorem setNode_self {s : State} {n : NodeId} {nd : Node} (h : s.node n = some nd) : s.setNode n nd = s := by
  cases s
  simp only [setNode, State.mk.injEq, and_self, and_true]
  funext m
  split
  · next hm =>
    subst hm
    exact h.symm
  · rfl

@[simp] theorem setNode_nextNode (s : State) (n : NodeId) (nd : Node) : (s.setNode n nd).nextNode = s.nextNode := rfl

@[simp] theorem setNode_root (s : State) (n : NodeId) (nd : Node) : (s.setNode n nd).root = s.root := rfl

@[simp] theorem setNode_block (s : State) (n : NodeId) (nd : Node) : (s.setNode n nd).block = s.block := rfl

/-- What a memory holds besides its nodes. -/
def others (s : State) :=
  (s.block, s.nextBlock, s.root, s.beginEpoch, s.nodeContainer, s.valueContainer, s.log)

theorem eq_of_node {s t : State} (hn : ∀ x, s.node x = t.node x) (hm : s.nextNode = t.nextNode)
    (ho : s.others = t.others) : s = t := by
  cases s
  cases t
  simp only [others, Prod.mk.injEq] at ho
  simp_all [funext_iff]

/-- The memory with one more node. -/
def alloc (s : State) (nd : Node) : State := { s.setNode s.nextNode nd with nextNode := s.nextNode + 1 }

@[simp] theorem alloc_node_same (s : State) (nd : Node) : (s.alloc nd).node s.nextNode = some nd :=
  setNode_node_same _ _ _

theorem alloc_node_ne {s : State} {m : NodeId} {nd : Node} (h : m ≠ s.nextNode) : (s.alloc nd).node m = s.node m :=
  setNode_node_ne h

@[simp] theorem alloc_nextNode (s : State) (nd : Node) : (s.alloc nd).nextNode = s.nextNode + 1 := rfl

@[simp] theorem alloc_root (s : State) (nd : Node) : (s.alloc nd).root = s.root := rfl

@[simp] theorem alloc_block (s : State) (nd : Node) : (s.alloc nd).block = s.block := rfl

@[simp] theorem alloc_setNode (s : State) (a b : Node) : (s.alloc a).setNode s.nextNode b = s.alloc b :=
  congrArg (fun t : State => ({ t with nextNode := s.nextNode + 1 } : State)) (setNode_setNode s s.nextNode a b)

/-- The memory in which the border at a pointer, if there is one, has `p` before it. -/
def setPrevAt (s : State) (x p : Ptr) : State :=
  { s with node := fun y => if x = some y then (s.node y).map (·.set .prev p) else s.node y }

theorem setPrevAt_node_same {s : State} {x : NodeId} {p : Ptr} :
    (s.setPrevAt (some x) p).node x = (s.node x).map (·.set .prev p) := by
  simp [setPrevAt]

theorem setPrevAt_node_ne {s : State} {x p : Ptr} {y : NodeId} (h : x ≠ some y) : (s.setPrevAt x p).node y = s.node y := by
  simp [setPrevAt, h]

end State

/-- A node with another version word. -/
def Node.mapVersion (nd : Node) (f : Version → Version) : Node := { nd with version := f nd.version }

namespace Node
variable (nd : Node) (f g : Version → Version)

@[simp] theorem mapVersion_version : (nd.mapVersion f).version = f nd.version := rfl

@[simp] theorem mapVersion_mapVersion : (nd.mapVersion f).mapVersion g = nd.mapVersion fun v => g (f v) := rfl

@[simp] theorem mapVersion_kind : (nd.mapVersion f).kind = nd.kind := rfl

@[simp] theorem mapVersion_parent : (nd.mapVersion f).parent = nd.parent := rfl

@[simp] theorem mapVersion_permutation : (nd.mapVersion f).permutation = nd.permutation := rfl

@[simp] theorem mapVersion_nKeys : (nd.mapVersion f).nKeys = nd.nKeys := rfl

@[simp] theorem mapVersion_lv : (nd.mapVersion f).lv = nd.lv := rfl

@[simp] theorem mapVersion_child : (nd.mapVersion f).child = nd.child := rfl

@[simp] theorem mapVersion_prev : (nd.mapVersion f).prev = nd.prev := rfl

@[simp] theorem mapVersion_next : (nd.mapVersion f).next = nd.next := rfl

@[simp] theorem mapVersion_keySlice : (nd.mapVersion f).keySlice = nd.keySlice := rfl

@[simp] theorem mapVersion_keyLength : (nd.mapVersion f).keyLength = nd.keyLength := rfl

end Node

section
variable {s : State} {n : NodeId} {nd : Node} {α : Type} {fuel : Nat}

/-- The first part of a program runs, and the second goes on from there. -/
theorem run_bind_of {β : Type} {p : M β} {b : β} {s' : State} (h : run p s = some (b, s')) (k : β → M α) :
    run (p >>= k) s = run (k b) s' := Lib.Prog.run_bind_of h k

@[simp] theorem run_ret (a : α) : run (.ret a) s = some (a, s) := rfl

@[simp] theorem run_pure (a : α) : run (pure a) s = some (a, s) := rfl

@[simp] theorem upd_same {β : Type} (f : Nat → β) (i : Nat) (x : β) : upd f i x i = x := by simp [upd]

theorem upd_ne {β : Type} {f : Nat → β} {i j : Nat} {x : β} (h : j ≠ i) : upd f i x j = f j := by simp [upd, h]

theorem run_load {β : Type} {f : Field β} (hn : s.node n = some nd) (ha : f.admits nd.kind = true) :
    run (load n f) s = some (nd.get f, s) := by
  simp [run, load, op, Lib.Prog.run, exec, hn, ha]

theorem run_load_bind {β : Type} {f : Field β} (hn : s.node n = some nd) (ha : f.admits nd.kind = true) (k : β → M α) :
    run (load n f >>= k) s = run (k (nd.get f)) s := run_bind_of (run_load hn ha) k

theorem run_store {β : Type} {f : Field β} (hn : s.node n = some nd) (ha : f.admits nd.kind = true) (x : β) :
    run (store n f x) s = some ((), s.setNode n (nd.set f x)) := by
  simp [run, store, op, Lib.Prog.run, exec, hn, ha]

theorem run_store_bind {β : Type} {f : Field β} (hn : s.node n = some nd) (ha : f.admits nd.kind = true) (x : β)
    (k : Unit → M α) : run (store n f x >>= k) s = run (k ()) (s.setNode n (nd.set f x)) :=
  run_bind_of (run_store hn ha x) k

/-! The members one by one. -/

theorem admits_keySlice {i : Nat} {kind : Kind} (hi : i < 15) : (Field.keySlice i).admits kind = true :=
  decide_eq_true (p := i < keySliceLength) hi

theorem admits_keyLength {i : Nat} {kind : Kind} (hi : i < 15) : (Field.keyLength i).admits kind = true :=
  decide_eq_true (p := i < keySliceLength) hi

theorem admits_child {i : Nat} {kind : Kind} (hk : kind = .interior) (hi : i < 16) :
    (Field.child i).admits kind = true := by
  subst hk
  exact decide_eq_true (p := i < childLength) hi

theorem admits_lv {i : Nat} {kind : Kind} (hk : kind = .border) (hi : i < 15) : (Field.lv i).admits kind = true := by
  subst hk
  exact decide_eq_true (p := i < keySliceLength) hi

theorem run_load_parent (hn : s.node n = some nd) (k : Ptr → M α) :
    run (load n .parent >>= k) s = run (k nd.parent) s := run_load_bind hn rfl k

theorem run_load_keySlice {i : Nat} (hn : s.node n = some nd) (hi : i < 15) (k : KeySlice → M α) :
    run (load n (.keySlice i) >>= k) s = run (k (nd.keySlice i)) s :=
  run_load_bind hn (admits_keySlice hi) k

theorem run_load_keyLength {i : Nat} (hn : s.node n = some nd) (hi : i < 15) (k : Nat → M α) :
    run (load n (.keyLength i) >>= k) s = run (k (nd.keyLength i)) s :=
  run_load_bind hn (admits_keyLength hi) k

theorem run_load_nKeys (hn : s.node n = some nd) (hk : nd.kind = .interior) (k : Nat → M α) :
    run (load n .nKeys >>= k) s = run (k nd.nKeys) s := run_load_bind hn (by simp [Field.admits, hk]) k

theorem run_load_child {i : Nat} (hn : s.node n = some nd) (hk : nd.kind = .interior) (hi : i < 16) (k : Ptr → M α) :
    run (load n (.child i) >>= k) s = run (k (nd.child i)) s :=
  run_load_bind hn (admits_child hk hi) k

theorem run_load_permutation (hn : s.node n = some nd) (hk : nd.kind = .border) (k : Nat → M α) :
    run (load n .permutation >>= k) s = run (k nd.permutation) s := run_load_bind hn (by simp [Field.admits, hk]) k

theorem run_load_lv {i : Nat} (hn : s.node n = some nd) (hk : nd.kind = .border) (hi : i < 15) (k : LinkOrValue → M α) :
    run (load n (.lv i) >>= k) s = run (k (nd.lv i)) s :=
  run_load_bind hn (admits_lv hk hi) k

theorem run_load_prev (hn : s.node n = some nd) (hk : nd.kind = .border) (k : Ptr → M α) :
    run (load n .prev >>= k) s = run (k nd.prev) s := run_load_bind hn (by simp [Field.admits, hk]) k

theorem run_load_next (hn : s.node n = some nd) (hk : nd.kind = .border) (k : Ptr → M α) :
    run (load n .next >>= k) s = run (k nd.next) s := run_load_bind hn (by simp [Field.admits, hk]) k

theorem run_store_parent (hn : s.node n = some nd) (x : Ptr) (k : Unit → M α) :
    run (store n .parent x >>= k) s = run (k ()) (s.setNode n (nd.set .parent x)) := run_store_bind hn rfl x k

theorem run_store_version (hn : s.node n = some nd) (x : Version) (k : Unit → M α) :
    run (store n .version x >>= k) s = run (k ()) (s.setNode n (nd.set .version x)) := run_store_bind hn rfl x k

theorem run_store_keySlice {i : Nat} (hn : s.node n = some nd) (hi : i < 15) (x : KeySlice) (k : Unit → M α) :
    run (store n (.keySlice i) x >>= k) s = run (k ()) (s.setNode n (nd.set (.keySlice i) x)) :=
  run_store_bind hn (admits_keySlice hi) x k

theorem run_store_keyLength {i : Nat} (hn : s.node n = some nd) (hi : i < 15) (x : Nat) (k : Unit → M α) :
    run (store n (.keyLength i) x >>= k) s = run (k ()) (s.setNode n (nd.set (.keyLength i) x)) :=
  run_store_bind hn (admits_keyLength hi) x k

theorem run_store_nKeys (hn : s.node n = some nd) (hk : nd.kind = .interior) (x : Nat) (k : Unit → M α) :
    run (store n .nKeys x >>= k) s = run (k ()) (s.setNode n (nd.set .nKeys x)) :=
  run_store_bind hn (by simp [Field.admits, hk]) x k

theorem run_store_child {i : Nat} (hn : s.node n = some nd) (hk : nd.kind = .interior) (hi : i < 16) (x : Ptr)
    (k : Unit → M α) :
    run (store n (.child i) x >>= k) s = run (k ()) (s.setNode n (nd.set (.child i) x)) :=
  run_store_bind hn (admits_child hk hi) x k

theorem run_store_permutation (hn : s.node n = some nd) (hk : nd.kind = .border) (x : Nat) (k : Unit → M α) :
    run (store n .permutation x >>= k) s = run (k ()) (s.setNode n (nd.set .permutation x)) :=
  run_store_bind hn (by simp [Field.admits, hk]) x k

theorem run_store_lv {i : Nat} (hn : s.node n = some nd) (hk : nd.kind = .border) (hi : i < 15) (x : LinkOrValue)
    (k : Unit → M α) : run (store n (.lv i) x >>= k) s = run (k ()) (s.setNode n (nd.set (.lv i) x)) :=
  run_store_bind hn (admits_lv hk hi) x k

theorem run_store_prev (hn : s.node n = some nd) (hk : nd.kind = .border) (x : Ptr) (k : Unit → M α) :
    run (store n .prev x >>= k) s = run (k ()) (s.setNode n (nd.set .prev x)) :=
  run_store_bind hn (by simp [Field.admits, hk]) x k

theorem run_store_next (hn : s.node n = some nd) (hk : nd.kind = .border) (x : Ptr) (k : Unit → M α) :
    run (store n .next x >>= k) s = run (k ()) (s.setNode n (nd.set .next x)) :=
  run_store_bind hn (by simp [Field.admits, hk]) x k

/-- `set_prev` through a pointer that may be null. -/
theorem run_setPrevAt {x p : Ptr} (h : ∀ y, x = some y → ∃ nd, s.node y = some nd ∧ nd.kind = .border) :
    run (match x with
      | some y => store y .prev p
      | none => pure ()) s = some ((), s.setPrevAt x p) := by
  cases x with
  | none => simp [State.setPrevAt]
  | some y =>
    obtain ⟨nd, hn, hk⟩ := h y rfl
    simp only
    rw [run_store hn (by simp [Field.admits, hk])]
    refine congrArg (fun t => some ((), t)) (State.eq_of_node (fun z => ?_) rfl rfl)
    by_cases hz : z = y
    · subst hz
      rw [State.setNode_node_same, State.setPrevAt_node_same, hn]
      rfl
    · rw [State.setNode_node_ne hz, State.setPrevAt_node_ne (by simpa using fun h => hz h.symm)]

theorem run_newNode (kind : Kind) (k : NodeId → M α) :
    run (op (.newNode kind) >>= k) s = run (k s.nextNode) (s.alloc (.fresh kind)) := rfl

/-! ### Version words -/

theorem run_getBody (hn : s.node n = some nd) : run (getBody n) s = some (nd.version, s) := run_load hn rfl

theorem run_getBody_bind (hn : s.node n = some nd) (k : Version → M α) :
    run (getBody n >>= k) s = run (k nd.version) s := run_bind_of (run_getBody hn) k

theorem run_getVersionBorder (hn : s.node n = some nd) (k : Bool → M α) :
    run (getVersionBorder n >>= k) s = run (k nd.version.border) s := run_getBody_bind hn _

theorem run_getVersionDeleted (hn : s.node n = some nd) (k : Bool → M α) :
    run (getVersionDeleted n >>= k) s = run (k nd.version.deleted) s := run_getBody_bind hn _

theorem run_getVersionRoot (hn : s.node n = some nd) (k : Bool → M α) :
    run (getVersionRoot n >>= k) s = run (k nd.version.root) s := run_getBody_bind hn _

theorem run_getVersionVinsertDelete (hn : s.node n = some nd) (k : Nat → M α) :
    run (getVersionVinsertDelete n >>= k) s = run (k nd.version.vinsertDelete) s := run_getBody_bind hn _

theorem run_getVersionVsplit (hn : s.node n = some nd) (k : Nat → M α) :
    run (getVersionVsplit n >>= k) s = run (k nd.version.vsplit) s := run_getBody_bind hn _

/-- A neighbour that is there and still the one that the node names. -/
theorem run_isStale {p : NodeId} {pd : Node} {f : Field Ptr} (hn : s.node n = some nd) (ha : f.admits nd.kind = true)
    (hf : nd.get f = some p) (hp : s.node p = some pd) (hd : pd.version.deleted = false) (k : Bool → M α) :
    run (isStale n p f >>= k) s = run (k false) s := by
  refine run_bind_of ?_ k
  rw [isStale, run_getVersionDeleted hp, if_neg (by simp [hd]), run_load_bind hn ha, hf]
  simp

theorem run_atomicUpdate (hn : s.node n = some nd) (hf : 0 < fuel) (f : Version → Version) :
    run (atomicUpdate fuel n f) s = some ((), s.setNode n (nd.mapVersion f)) := by
  obtain ⟨k, rfl⟩ : ∃ k, fuel = k + 1 := ⟨fuel - 1, by omega⟩
  rw [atomicUpdate, run_getBody_bind hn]
  simp [casLoop, run, op, Lib.Prog.run, exec, hn, Node.mapVersion]

theorem run_atomicUpdate_bind (hn : s.node n = some nd) (hf : 0 < fuel) (f : Version → Version) (k : Unit → M α) :
    run (atomicUpdate fuel n f >>= k) s = run (k ()) (s.setNode n (nd.mapVersion f)) :=
  run_bind_of (run_atomicUpdate hn hf f) k

theorem run_lock (hn : s.node n = some nd) (hl : nd.version.locked = false) (hf : 0 < fuel) :
    run (lock n fuel) s = some ((), s.setNode n (nd.mapVersion (.setLocked true))) := by
  obtain ⟨k, rfl⟩ : ∃ k, fuel = k + 1 := ⟨fuel - 1, by omega⟩
  rw [lock, run_getBody_bind hn]
  simp [hl, run, op, Lib.Prog.run, exec, hn, Node.mapVersion]

theorem run_lock_bind (hn : s.node n = some nd) (hl : nd.version.locked = false) (hf : 0 < fuel) (k : Unit → M α) :
    run (lock n fuel >>= k) s = run (k ()) (s.setNode n (nd.mapVersion (.setLocked true))) :=
  run_bind_of (run_lock hn hl hf) k

theorem run_getStableVersion (hn : s.node n = some nd) (hs : nd.version.stable = true) (hf : 0 < fuel) :
    run (getStableVersion n fuel) s = some (nd.version, s) := by
  obtain ⟨k, rfl⟩ : ∃ k, fuel = k + 1 := ⟨fuel - 1, by omega⟩
  rw [getStableVersion, run_getBody_bind hn]
  simp [hs]

theorem run_getStableVersion_bind (hn : s.node n = some nd) (hs : nd.version.stable = true) (hf : 0 < fuel)
    (k : Version → M α) : run (getStableVersion n fuel >>= k) s = run (k nd.version) s :=
  run_bind_of (run_getStableVersion hn hs hf) k

theorem run_lockParent_none (hn : s.node n = some nd) (hp : nd.parent = none) (hf : 0 < fuel) :
    run (lockParent fuel n) s = some (none, s) := by
  obtain ⟨k, rfl⟩ : ∃ k, fuel = k + 1 := ⟨fuel - 1, by omega⟩
  rw [lockParent, run_load_bind hn rfl]
  simp [Node.get, hp, lockParentLoop]

theorem run_lockParent_some {p : NodeId} {pd : Node} (hn : s.node n = some nd) (hp : nd.parent = some p)
    (hne : n ≠ p) (hpd : s.node p = some pd) (hl : pd.version.locked = false) (hf : 0 < fuel) :
    run (lockParent fuel n) s = some (some p, s.setNode p (pd.mapVersion (.setLocked true))) := by
  obtain ⟨k, rfl⟩ : ∃ k, fuel = k + 1 := ⟨fuel - 1, by omega⟩
  rw [lockParent, run_load_bind hn rfl]
  simp only [Node.get, hp, lockParentLoop]
  rw [run_lock_bind hpd hl (by omega), run_load_bind (by rw [State.setNode_node_ne hne, hn]) rfl]
  simp [Node.get, hp]

end

/-! ### Programs that return -/

section
variable {α β : Type} {s s₁ s₂ : State} {a : α} {b : β}

theorem Returns.ret (a : α) (s : State) : Returns (fun _ => pure a) s a s := ⟨0, fun _ _ => rfl⟩

theorem Returns.bind {p : Nat → M α} {q : α → Nat → M β} (h : Returns p s a s₁) (h' : Returns (q a) s₁ b s₂) :
    Returns (fun fuel => p fuel >>= fun x => q x fuel) s b s₂ := by
  obtain ⟨N, hN⟩ := h
  obtain ⟨N', hN'⟩ := h'
  refine ⟨N + N', fun fuel hf => ?_⟩
  rw [run_bind_of (hN fuel (by omega))]
  exact hN' fuel (by omega)

theorem Returns.map {p : Nat → M α} (h : Returns p s a s₁) (f : α → β) :
    Returns (fun fuel => p fuel >>= fun x => pure (f x)) s (f a) s₁ :=
  h.bind ⟨0, fun _ _ => rfl⟩

theorem Returns.det {p : Nat → M α} {a' : α} (h : Returns p s a s₁) (h' : Returns p s a' s₂) : a = a' ∧ s₁ = s₂ := by
  obtain ⟨N, hN⟩ := h
  obtain ⟨N', hN'⟩ := h'
  have := (hN (N + N') (by omega)).symm.trans (hN' (N + N') (by omega))
  simpa using this

/-- What a program returns with every large bound can be read off its run with any of them. -/
theorem Returns.eval {γ : Type} {p : Nat → M α} (h : Returns p s a s₁) (f : α × State → γ) {k : Nat} {x : γ}
    (he : ∀ n, (run (p (n + k)) s).map f = some x) : f (a, s₁) = x := by
  obtain ⟨N, hN⟩ := h
  have hrun := he N
  rw [hN (N + k) (Nat.le_add_right N k)] at hrun
  exact Option.some.inj hrun

theorem Returns.of_map {p : Nat → M α} {f : α → β} (hf : Function.Injective f)
    (h : Returns (fun fuel => p fuel >>= fun y => pure (f y)) s (f a) s₁) : Returns p s a s₁ := by
  obtain ⟨K, hK⟩ := h
  refine ⟨K, fun fuel hk => ?_⟩
  have hrun := hK fuel hk
  change Lib.Prog.run exec (p fuel >>= fun y => pure (f y)) s = some (f a, s₁) at hrun
  rw [Lib.Prog.run_bind] at hrun
  obtain ⟨r, hr, hfr⟩ := Option.bind_eq_some_iff.mp hrun
  obtain ⟨hx, hs⟩ := Prod.mk.inj (Option.some.inj hfr)
  rw [show run (p fuel) s = some r from hr]
  exact congrArg some (Prod.ext (hf hx) hs)

/-- One more round of fuel does not matter. -/
theorem Returns.succ {p : Nat → M α} (h : Returns (fun k => p (k + 1)) s a s₁) : Returns p s a s₁ := by
  obtain ⟨N, hN⟩ := h
  refine ⟨N + 1, fun fuel hf => ?_⟩
  obtain ⟨k, rfl⟩ : ∃ k, fuel = k + 1 := ⟨fuel - 1, by omega⟩
  exact hN k (by omega)

end

end Yakushima
