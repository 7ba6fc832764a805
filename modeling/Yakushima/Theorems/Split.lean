import Yakushima.Theorems.Grow

/-! # Splits of interiors

`interior_split` turns the layer into the one of `Ctx.addRight`, with any number of full interiors above
the split node. When it reaches the root of the layer, the place that points to the layer, the root pointer
of the tree or a slot of the border above, is led to the new root. -/

namespace Yakushima
open M

/-! ### The place that points to a layer -/

/-- What a memory holds besides its nodes and roots. -/
def State.rest (s : State) := (s.block, s.nextBlock, s.beginEpoch, s.nodeContainer, s.valueContainer, s.log)

def State.setRoot (s : State) (ti : TreeId) (p : Ptr) : State :=
  { s with root := fun u => if u = ti then p else s.root u }

/-- The layer with the root `root` is reached from the root pointer, or from a slot of the border `par`,
    which is at rest. -/
structure Upper (s : State) (ti : TreeId) (par : Ptr) (root : NodeId) : Prop where
  tree : par = none → s.root ti = some root
  border : ∀ p, par = some p → ∃ pd, s.node p = some pd ∧ pd.kind = .border ∧ pd.version.border = true ∧
    pd.version.deleted = false ∧ pd.version.stable = true ∧ ∃ i < 15, pd.lv i = .link root

/-- A border whose slot for the layer root `old` was led to `new`, and its version to `v`. -/
def Relinked (old new : NodeId) (v : Version) (pd pd' : Node) : Prop :=
  ∃ i < 15, pd.lv i = .link old ∧ pd' = { pd with lv := upd pd.lv i (.link new), version := v }

/-- What happened to the place that points to a layer whose root was `old` and is now `new`. A border
    that was led to a new root has the version that `bump` makes of its old one. -/
inductive Above (bump : Version → Version) (s s' : State) (ti : TreeId) (par : Ptr) (old new : NodeId) : Prop where
  | kept (heq : new = old) (root : s'.root = s.root) (border : ∀ p, par = some p → s'.node p = s.node p)
  | tree (hpar : par = none) (root : s'.root = (s.setRoot ti (some new)).root)
  | link (p : NodeId) (pd pd' : Node) (hpar : par = some p) (root : s'.root = s.root) (before : s.node p = some pd)
      (after : s'.node p = some pd') (slot : Relinked old new (bump pd.version) pd pd')

namespace Version

/-- The version of a node after an insertion into it. -/
def inserted (v : Version) : Version := unlocked (setInsertingDeleting true (setLocked true v))

@[simp] theorem inserted_stable (v : Version) : v.inserted.stable = true := unlocked_stable _

@[simp] theorem inserted_root (v : Version) : v.inserted.root = v.root := unlocked_root _

@[simp] theorem inserted_border (v : Version) : v.inserted.border = v.border := unlocked_border _

@[simp] theorem inserted_deleted (v : Version) : v.inserted.deleted = v.deleted := unlocked_deleted _

end Version

theorem getNextLayer_eq_some {lv : LinkOrValue} {m : NodeId} : lv.getNextLayer = some m ↔ lv = .link m := by
  cases lv <;> simp [LinkOrValue.getNextLayer]

section
variable {s : State} {n : NodeId} {nd : Node}

/-- `get_lv` answers the first slot that links to the node, whether it is live or not. -/
theorem run_getLv_first {child : NodeId} {i : Nat} (hn : s.node n = some nd) (hk : nd.kind = .border) (hi : i < 15)
    (hl : nd.lv i = .link child) (hfirst : ∀ j < i, nd.lv j ≠ .link child) : run (getLv n child) s = some (some i, s) := by
  have hloop : ∀ l : List Nat, (∀ j ∈ l, j < 15) → l.find? (fun j => (nd.lv j).getNextLayer = some child) = some i →
      run (getLvLoop n child l) s = some (some i, s) := by
    intro l
    induction l with
    | nil => exact fun _ h => by cases h
    | cons j l ih =>
      intro hb hfind
      rw [getLvLoop, run_load_lv hn hk (hb j List.mem_cons_self)]
      by_cases hj : (nd.lv j).getNextLayer = some child
      · rw [List.find?_cons_of_pos (by simpa using hj)] at hfind
        cases hfind
        rw [if_pos hj]
        rfl
      · rw [List.find?_cons_of_neg (by simpa using hj)] at hfind
        rw [if_neg hj]
        exact ih (fun k hk => hb k (List.mem_cons_of_mem _ hk)) hfind
  refine hloop (List.range 15) (fun j hj => List.mem_range.mp hj)
    (List.find?_range_eq_some.mpr ⟨?_, List.mem_range.mpr hi, fun j hj => ?_⟩)
  · simpa using getNextLayer_eq_some.mpr hl
  · simpa using fun h => hfirst j hj (getNextLayer_eq_some.mp h)

theorem run_getLv {child : NodeId} (hn : s.node n = some nd) (hk : nd.kind = .border)
    (h : ∃ i < 15, nd.lv i = .link child) : ∃ i < 15, nd.lv i = .link child ∧ run (getLv n child) s = some (some i, s) := by
  classical
  obtain ⟨hlt, hl⟩ := Nat.find_spec h
  refine ⟨Nat.find h, hlt, hl, run_getLv_first hn hk hlt hl fun j hj hlj => ?_⟩
  exact Nat.find_min h hj ⟨Nat.lt_trans hj hlt, hlj⟩

/-! ### Trees whose root is held -/

variable {link : KeySlice → Ptr} {dead : NodeId → Prop}

/-- A tree whose root holds its members, whoever has it locked, with all other nodes at rest. -/
structure Held (link : KeySlice → Ptr) (dead : NodeId → Prop) (s : State) (t : BTree) (nd : Node) : Prop where
  node : s.node t.id = some nd
  body : t.body.Ok
  members : MembersOk link dead nd t.body
  inner : NodesOk link dead s t.inner

theorem mem_ids_of_inner {t : BTree} {p : NodeId × Desc} (h : p ∈ t.inner) : p.1 ∈ t.ids := by
  rw [BTree.ids, BTree.descs_eq]
  exact List.mem_cons_of_mem _ (List.mem_map.mpr ⟨p, h, rfl⟩)

theorem inner_ne_root {t : BTree} (hnd : t.ids.Nodup) {p : NodeId × Desc} (h : p ∈ t.inner) : p.1 ≠ t.id := by
  rw [BTree.ids, BTree.descs_eq, List.map_cons, List.nodup_cons] at hnd
  rintro heq
  exact hnd.1 (heq ▸ List.mem_map.mpr ⟨p, h, rfl⟩)

/-- The root of a held tree is released under a parent. -/
theorem Held.release {s' : State} {t : BTree} {nd' : Node} {p : Ptr} {root : Bool} (h : Held link dead s t nd)
    (hn' : s'.node t.id = some nd') (hm : MembersOk link dead nd' t.body) (hp : nd'.parent = p)
    (hr : nd'.version.root = root) (hs : nd'.version.stable = true) (hi : ∀ p ∈ t.inner, s'.node p.1 = s.node p.1) :
    NodesOk link dead s' (t.descs p root) := by
  rw [BTree.descs_eq]
  intro x hx
  rcases List.mem_cons.mp hx with rfl | hx
  · exact ⟨nd', hn', ⟨⟨hp, hr, h.body, hm⟩, hs⟩⟩
  · exact h.inner.frame hi x hx

/-- The nodes of a layer at rest as a held root. -/
theorem held_of_nodesOk {t : BTree} {p : Ptr} {root : Bool} (h : NodesOk link dead s (t.descs p root)) :
    ∃ nd, Held link dead s t nd ∧ NodeOk link dead nd ⟨p, root, t.body⟩ := by
  rw [BTree.descs_eq] at h
  obtain ⟨nd, hn, hok⟩ := h _ List.mem_cons_self
  exact ⟨nd, ⟨hn, hok.body, hok.members, h.mono_left fun q hq => List.mem_cons_of_mem _ hq⟩, hok⟩

/-! ### A new root -/

/-- The memory after a new interior was put over the nodes `l` and `r` of which `l` was the root of the
    layer. -/
structure NewRoot (s s' : State) (ti : TreeId) (par : Ptr) (l r : NodeId) (ld rd : Node) (k : KeyTuple) : Prop where
  left : s'.node l = some ((ld.under s.nextNode).mapVersion Version.unlocked)
  right : s'.node r = some ((rd.under s.nextNode).mapVersion Version.unlocked)
  root : s'.node s.nextNode = some (((Node.newParent l r k).mapVersion Version.unlocked).set .parent par)
  frame : ∀ x, x ≠ l → x ≠ r → x ≠ s.nextNode → par ≠ some x → s'.node x = s.node x
  above : Above Version.inserted s s' ti par l s.nextNode
  next : s'.nextNode = s.nextNode + 1
  rest : s'.rest = s.rest

theorem NewRoot.nodesOk {s' : State} {ti : TreeId} {par : Ptr} {t u : BTree} {ld rd : Node} {k : KeyTuple}
    (h : NewRoot s s' ti par t.id u.id ld rd k) (ht : Held link dead s t ld) (hu : Held link dead s u rd)
    (hk : k.Encoded) (hk0 : k.length ≠ 0) (hnd : (t.ids ++ u.ids).Nodup) (hlt : ∀ x ∈ t.ids ++ u.ids, x < s.nextNode)
    (hpar : ∀ p, par = some p → p ∉ t.ids ++ u.ids) :
    NodesOk link dead s' ((BTree.interior s.nextNode t [(k, u)]).descs par true) := by
  obtain ⟨hndt, hndu, hdis⟩ := List.nodup_append.mp hnd
  have hunder : ∀ {nd : Node} {b : Body}, MembersOk link dead nd b →
      MembersOk link dead ((nd.under s.nextNode).mapVersion Version.unlocked) b := by
    intro nd b h
    exact ((membersOk_setParent (p := some s.nextNode)).mpr (h.mapVersion (f := .setRoot false) rfl rfl)).mapVersion
      (Version.unlocked_border _) (Version.unlocked_deleted _)
  have hframe : ∀ x ∈ t.ids ++ u.ids, x ≠ t.id → x ≠ u.id → s'.node x = s.node x := fun x hx h1 h2 =>
    h.frame x h1 h2 (Nat.ne_of_lt (hlt x hx)) fun hp => hpar x hp hx
  have hleft : NodesOk link dead s' (t.descs (some s.nextNode) false) := by
    refine ht.release h.left (hunder ht.members) rfl ?_ (Version.unlocked_stable _) fun p hp => ?_
    · simp [Node.under, Node.set, Node.mapVersion, Version.setRoot]
    · have hmem := mem_ids_of_inner hp
      refine hframe p.1 (List.mem_append_left _ hmem) (inner_ne_root hndt hp) ?_
      rintro heq
      exact hdis p.1 hmem u.id (BTree.id_mem_ids u) heq
  have hright : NodesOk link dead s' (u.descs (some s.nextNode) false) := by
    refine hu.release h.right (hunder hu.members) rfl ?_ (Version.unlocked_stable _) fun p hp => ?_
    · simp [Node.under, Node.set, Node.mapVersion, Version.setRoot]
    · have hmem := mem_ids_of_inner hp
      refine hframe p.1 (List.mem_append_right _ hmem) ?_ (inner_ne_root hndu hp)
      rintro heq
      exact hdis t.id (BTree.id_mem_ids t) p.1 hmem heq.symm
  intro x hx
  simp only [BTree.descs, BTree.descsRest, List.append_nil, List.mem_cons, List.mem_append] at hx
  rcases hx with rfl | hx | hx
  · refine ⟨_, h.root, ⟨⟨rfl, ?_, ?_, ?_⟩, ?_⟩⟩
    · simp [Node.set, Node.mapVersion, Node.newParent]
    · exact ⟨by simp, by simp, by simpa using ⟨hk, hk0⟩⟩
    · exact (membersOk_setParent (p := par)).mpr
        ((membersOk_newParent t.id u.id k).mapVersion (Version.unlocked_border _) (Version.unlocked_deleted _))
    · exact Version.unlocked_stable _
  · exact hleft x hx
  · exact hright x hx

section
variable {ti : TreeId} {l r : NodeId} {ld rd : Node} {k : KeyTuple}

/-- The memory right after `create_interior_parent_of_interior`. -/
def State.withParent (s : State) (l r : NodeId) (ld rd : Node) (k : KeyTuple) : State :=
  ((s.setNode l (ld.under s.nextNode)).setNode r (rd.under s.nextNode)).alloc (Node.newParent l r k)

theorem withParent_left (hne : l ≠ r) (hll : l < s.nextNode) :
    (s.withParent l r ld rd k).node l = some (ld.under s.nextNode) := by
  refine (State.alloc_node_ne (by exact Nat.ne_of_lt hll)).trans ?_
  rw [State.setNode_node_ne hne, State.setNode_node_same]

theorem withParent_right (hrl : r < s.nextNode) : (s.withParent l r ld rd k).node r = some (rd.under s.nextNode) := by
  refine (State.alloc_node_ne (by exact Nat.ne_of_lt hrl)).trans ?_
  rw [State.setNode_node_same]

theorem withParent_root : (s.withParent l r ld rd k).node s.nextNode = some (Node.newParent l r k) :=
  State.alloc_node_same _ _

theorem withParent_frame {x : NodeId} (h1 : x ≠ l) (h2 : x ≠ r) (h3 : x ≠ s.nextNode) :
    (s.withParent l r ld rd k).node x = s.node x := by
  refine (State.alloc_node_ne (by exact h3)).trans ?_
  rw [State.setNode_node_ne h2, State.setNode_node_ne h1]

theorem run_versionUnlock {α : Type} {fuel : Nat} (hf : 0 < fuel) (hn : s.node n = some nd) (c : Unit → M α) :
    run (versionUnlock fuel n >>= c) s = run (c ()) (s.setNode n (nd.mapVersion Version.unlocked)) :=
  run_atomicUpdate_bind hn hf _ c

/-- The end of a split below the root pointer of the tree. -/
theorem run_splitRoot {fuel : Nat} {m : NodeId} {md : Node} (hf : 0 < fuel) (hl : s.node l = some ld)
    (hr : s.node r = some rd) (hm : s.node m = some md) (hne : l ≠ r) (hlm : l ≠ m) (hrm : r ≠ m) :
    run (splitRoot fuel ti l r m) s = some ((), (((s.setNode l (ld.mapVersion Version.unlocked)).setNode r
      (rd.mapVersion Version.unlocked)).setRoot ti (some m)).setNode m (md.mapVersion Version.unlocked)) := by
  rw [splitRoot, run_versionUnlock hf hl, run_versionUnlock hf ((State.setNode_node_ne hne.symm).trans hr)]
  refine (run_bind_of (by rfl) _).trans ?_
  refine run_atomicUpdate ?_ hf _
  exact ((State.setNode_node_ne hrm.symm).trans (State.setNode_node_ne hlm.symm)).trans hm

/-- Putting a new root over two nodes at the top of the tree. -/
theorem newRoot_tree (hl : s.node l = some ld) (hr : s.node r = some rd) (hne : l ≠ r) (hll : l < s.nextNode)
    (hrl : r < s.nextNode) : ∃ s', (∀ fuel > 0, run (do
        let p ← createInteriorParent fuel l r k.slice k.length
        splitRoot fuel ti l r p) s = some ((), s')) ∧ NewRoot s s' ti none l r ld rd k := by
  have hlm : l ≠ s.nextNode := Nat.ne_of_lt hll
  have hrm : r ≠ s.nextNode := Nat.ne_of_lt hrl
  let s1 := s.withParent l r ld rd k
  refine ⟨((((s1.setNode l ((ld.under s.nextNode).mapVersion Version.unlocked)).setNode r
    ((rd.under s.nextNode).mapVersion Version.unlocked)).setRoot ti (some s.nextNode)).setNode s.nextNode
    ((Node.newParent l r k).mapVersion Version.unlocked)), fun fuel hf => ?_, ?_⟩
  · rw [run_bind_of (run_createInteriorParent hf hl hr hne hll hrl)]
    exact run_splitRoot (s := s1) hf (withParent_left hne hll) (withParent_right hrl) withParent_root hne hlm hrm
  · constructor
    · rw [State.setNode_node_ne hlm]
      refine (State.setNode_node_ne hne).trans (State.setNode_node_same _ _ _)
    · rw [State.setNode_node_ne hrm]
      exact State.setNode_node_same _ _ _
    · exact State.setNode_node_same _ _ _
    · intro x h1 h2 h3 _
      rw [State.setNode_node_ne h3]
      refine (State.setNode_node_ne h2).trans ((State.setNode_node_ne h1).trans (withParent_frame h1 h2 h3))
    · exact .tree rfl rfl
    · rfl
    · rfl

theorem run_interiorSplitParent_tree (hl : s.node l = some ld) (hr : s.node r = some rd) (hne : l ≠ r)
    (hll : l < s.nextNode) (hrl : r < s.nextNode) (hp : ld.parent = none) (hroot : s.root ti = some l) :
    ∃ s', (∀ fuel > 0, ∀ sp, run (interiorSplitParent fuel ti sp l r k.slice k.length) s = some ((), s')) ∧
      NewRoot s s' ti none l r ld rd k := by
  obtain ⟨s', hrun, hnew⟩ := newRoot_tree (k := k) hl hr hne hll hrl
  refine ⟨s', fun fuel hf sp => ?_, hnew⟩
  rw [interiorSplitParent, run_bind_of (run_lockParent_none hl hp hf)]
  simp only
  refine (run_bind_of (?_ : _ = some (some l, s)) _).trans ?_
  · rw [← hroot]
    rfl
  · rw [run_when_neg (by simp)]
    exact hrun fuel hf

/-- The memory after a new root was linked from the border `p` through its slot `i`. -/
def State.withLink (s : State) (l r p i : NodeId) (ld rd pd : Node) (k : KeyTuple) : State :=
  ((((s.setNode p { pd with
      lv := upd pd.lv i (.link s.nextNode)
      version := pd.version.inserted }).setNode l
    ((ld.under s.nextNode).mapVersion Version.unlocked)).setNode r
    ((rd.under s.nextNode).mapVersion Version.unlocked)).alloc
    (((Node.newParent l r k).mapVersion Version.unlocked).set .parent (some p)))

theorem newRoot_withLink {p i : NodeId} {pd : Node} (hne : l ≠ r) (hll : l < s.nextNode) (hrl : r < s.nextNode)
    (hpd : s.node p = some pd) (hpl : p ≠ l) (hpr : p ≠ r) (hpm : p < s.nextNode) (hi : i < 15)
    (hlink : pd.lv i = .link l) : NewRoot s (s.withLink l r p i ld rd pd k) ti (some p) l r ld rd k := by
  have hlm : l ≠ s.nextNode := Nat.ne_of_lt hll
  have hrm : r ≠ s.nextNode := Nat.ne_of_lt hrl
  have hpm' : p ≠ s.nextNode := Nat.ne_of_lt hpm
  constructor
  · refine (State.alloc_node_ne (by exact hlm)).trans ?_
    rw [State.setNode_node_ne hne, State.setNode_node_same]
  · refine (State.alloc_node_ne (by exact hrm)).trans ?_
    rw [State.setNode_node_same]
  · exact State.alloc_node_same _ _
  · intro x h1 h2 h3 h4
    refine (State.alloc_node_ne (by exact h3)).trans ?_
    rw [State.setNode_node_ne h2, State.setNode_node_ne h1, State.setNode_node_ne fun h => h4 (congrArg some h.symm)]
  · refine .link p pd _ rfl rfl hpd ?_ ⟨i, hi, hlink, rfl⟩
    refine (State.alloc_node_ne (by exact hpm')).trans ?_
    rw [State.setNode_node_ne hpr, State.setNode_node_ne hpl, State.setNode_node_same]
  · rfl
  · rfl

theorem run_interiorSplitParent_border {p : NodeId} {pd : Node} (hl : s.node l = some ld) (hr : s.node r = some rd)
    (hne : l ≠ r) (hll : l < s.nextNode) (hrl : r < s.nextNode) (hp : ld.parent = some p) (hpd : s.node p = some pd)
    (hpl : p ≠ l) (hpr : p ≠ r) (hpm : p < s.nextNode) (hk : pd.kind = .border) (hb : pd.version.border = true)
    (hd : pd.version.deleted = false) (hs : pd.version.stable = true) (hlink : ∃ i < 15, pd.lv i = .link l) :
    ∃ s', (∀ fuel > 0, ∀ sp, run (interiorSplitParent fuel ti sp l r k.slice k.length) s = some ((), s')) ∧
      NewRoot s s' ti (some p) l r ld rd k := by
  have hlm : l ≠ s.nextNode := Nat.ne_of_lt hll
  have hrm : r ≠ s.nextNode := Nat.ne_of_lt hrl
  have hpm' : p ≠ s.nextNode := Nat.ne_of_lt hpm
  have hlock : pd.version.locked = false := (Version.stable_iff.mp hs).2.1
  -- The memory with the border above locked and inserting, and the new root over the two nodes.
  let pd1 := (pd.mapVersion (.setLocked true)).mapVersion (.setInsertingDeleting true)
  let s1 := s.setNode p pd1
  have hl1 : s1.node l = some ld := (State.setNode_node_ne hpl.symm).trans hl
  have hr1 : s1.node r = some rd := (State.setNode_node_ne hpr.symm).trans hr
  let s2 := s1.withParent l r ld rd k
  have hl2 : s2.node l = some (ld.under s.nextNode) := withParent_left (s := s1) hne hll
  have hr2 : s2.node r = some (rd.under s.nextNode) := withParent_right (s := s1) hrl
  have hm2 : s2.node s.nextNode = some (Node.newParent l r k) := withParent_root (s := s1)
  have hp2 : s2.node p = some pd1 := (withParent_frame (s := s1) hpl hpr hpm').trans (State.setNode_node_same _ _ _)
  let s3 := (s2.setNode l ((ld.under s.nextNode).mapVersion Version.unlocked)).setNode r
    ((rd.under s.nextNode).mapVersion Version.unlocked)
  have hm3 : s3.node s.nextNode = some (Node.newParent l r k) :=
    (State.setNode_node_ne hrm.symm).trans ((State.setNode_node_ne hlm.symm).trans hm2)
  have hp3 : s3.node p = some pd1 := (State.setNode_node_ne hpr).trans ((State.setNode_node_ne hpl).trans hp2)
  obtain ⟨i, hi, hli, hget⟩ := run_getLv (s := s3) hp3 hk hlink
  refine ⟨s.withLink l r p i ld rd pd k, fun fuel hf sp => ?_,
    newRoot_withLink hne hll hrl hpd hpl hpr hpm hi hli⟩
  rw [interiorSplitParent, run_bind_of (run_lockParent_some hl hp hpl.symm hpd hlock hf)]
  simp only
  rw [run_isStale ((State.setNode_node_ne hpl.symm).trans hl) rfl (by exact hp) (State.setNode_node_same _ _ _)
    (by exact hd),
    run_when_neg Bool.false_ne_true, run_getVersionBorder (State.setNode_node_same _ _ _), if_pos (by exact hb),
      setVersionInsertingDeleting,
    run_atomicUpdate_bind (State.setNode_node_same _ _ _) hf, State.setNode_setNode]
  refine (run_bind_of (run_createInteriorParent (s := s1) hf hl1 hr1 hne hll hrl) _).trans ?_
  refine (run_versionUnlock (s := s2) hf hl2 _).trans ?_
  refine (run_versionUnlock hf ((State.setNode_node_ne hne.symm).trans hr2) _).trans ?_
  refine (run_bind_of hget _).trans ?_
  simp only [setNextLayer]
  refine (run_store_lv (s := s3) hp3 hk hi _ _).trans ?_
  refine (run_store_parent ((State.setNode_node_ne hpm'.symm).trans hm3) _ _).trans ?_
  refine (run_versionUnlock hf (State.setNode_node_same _ _ _) _).trans ?_
  refine (run_atomicUpdate (?_ : _ = some (pd1.set (.lv i) (.link s.nextNode))) hf _).trans ?_
  · exact (State.setNode_node_ne hpm').trans ((State.setNode_node_ne hpm').trans (State.setNode_node_same _ _ _))
  · refine congrArg (fun t => some ((), t)) (State.eq_of_node (fun x => ?_) rfl rfl)
    simp only [State.setNode, State.withLink, State.alloc, s3, s2, State.withParent, s1]
    by_cases hxp : x = p
    · simp [hxp, hpm', hpl, hpr, pd1, Node.set, Node.mapVersion, Version.inserted]
    · by_cases hxm : x = s.nextNode
      · simp [hxm, hpm'.symm, Node.set, Node.mapVersion]
      · by_cases hxr : x = r
        · simp [hxr, hrm, hpr.symm]
        · by_cases hxl : x = l <;> simp [hxl, hxr, hxp, hxm, hlm, hne, hpl.symm]

end
end
section
variable {s : State} {ti : TreeId} {l r p : NodeId} {ld rd pd : Node} {k : KeyTuple}

/-- The memory in which two nodes are released, the second under the parent `q`, while their parent `p`
    is locked. -/
def State.handOver (s : State) (l r p : NodeId) (q : Ptr) (ld rd pd : Node) : State :=
  ((s.setNode p (pd.mapVersion (.setLocked true))).setNode l (ld.mapVersion Version.unlocked)).setNode r
    ((rd.set .parent q).mapVersion Version.unlocked)

theorem run_interiorSplitParent_interior {fuel : Nat} (sp : NodeId → NodeId → KeySlice → Nat → M Unit) (hf : 0 < fuel)
    (hl : s.node l = some ld) (hr : s.node r = some rd) (hlr : l ≠ r) (hp : ld.parent = some p) (hpd : s.node p = some pd)
    (hpl : p ≠ l) (hpr : p ≠ r) (hk : pd.kind = .interior) (hb : pd.version.border = false)
    (hd : pd.version.deleted = false) (hs : pd.version.stable = true) :
    run (interiorSplitParent fuel ti sp l r k.slice k.length) s =
      run (if pd.nKeys = keySliceLength then sp p r k.slice k.length
        else do
          interiorInsert fuel p r k.slice k.length
          versionUnlock fuel p) (s.handOver l r p (some p) ld rd pd) := by
  have hlock : pd.version.locked = false := (Version.stable_iff.mp hs).2.1
  rw [interiorSplitParent, run_bind_of (run_lockParent_some hl hp hpl.symm hpd hlock hf)]
  simp only
  rw [run_isStale ((State.setNode_node_ne hpl.symm).trans hl) rfl (by exact hp) (State.setNode_node_same _ _ _)
    (by exact hd),
    run_when_neg Bool.false_ne_true, run_getVersionBorder (State.setNode_node_same _ _ _),
      if_neg (by simp [Version.setLocked, hb]),
    run_versionUnlock hf ((State.setNode_node_ne hpl.symm).trans hl),
    run_store_parent ((State.setNode_node_ne hlr.symm).trans ((State.setNode_node_ne hpr.symm).trans hr)),
    run_versionUnlock hf (State.setNode_node_same _ _ _), State.setNode_setNode]
  refine (run_load_nKeys (?_ : _ = some (pd.mapVersion (.setLocked true))) hk _).trans rfl
  exact (State.setNode_node_ne hpr).trans ((State.setNode_node_ne hpl).trans (State.setNode_node_same _ _ _))

theorem handOver_left {q : Ptr} (hlr : l ≠ r) :
    (s.handOver l r p q ld rd pd).node l = some (ld.mapVersion Version.unlocked) :=
  (State.setNode_node_ne hlr).trans (State.setNode_node_same _ _ _)

theorem handOver_right {q : Ptr} :
    (s.handOver l r p q ld rd pd).node r = some ((rd.set .parent q).mapVersion Version.unlocked) :=
  State.setNode_node_same _ _ _

theorem handOver_parent {q : Ptr} (hpl : p ≠ l) (hpr : p ≠ r) :
    (s.handOver l r p q ld rd pd).node p = some (pd.mapVersion (.setLocked true)) :=
  (State.setNode_node_ne hpr).trans ((State.setNode_node_ne hpl).trans (State.setNode_node_same _ _ _))

theorem handOver_frame {x : NodeId} {q : Ptr} (h1 : x ≠ p) (h2 : x ≠ l) (h3 : x ≠ r) :
    (s.handOver l r p q ld rd pd).node x = s.node x :=
  (State.setNode_node_ne h3).trans ((State.setNode_node_ne h2).trans (State.setNode_node_ne h1))

end

/-! ### The halves of a full interior -/

/-- The borders keep their keys and their place in the leaf chain, and those outside `touched` keep their version. -/
def KeepsBorders (touched : NodeId → Prop) (s s' : State) : Prop :=
  ∀ x nd, s.node x = some nd → nd.kind = .border → x < s.nextNode →
    ∃ nd', s'.node x = some nd' ∧ nd'.kind = .border ∧ nd'.key = nd.key ∧ nd'.prev = nd.prev ∧ nd'.next = nd.next ∧
      (¬ touched x → nd'.version = nd.version)

theorem KeepsBorders.trans {touched touched' : NodeId → Prop} {s s' s'' : State} (h : KeepsBorders touched s s')
    (h' : KeepsBorders touched' s' s'') (hle : s.nextNode ≤ s'.nextNode) :
    KeepsBorders (fun x => touched x ∨ touched' x) s s'' := by
  intro x nd hn hk hlt
  obtain ⟨nd', hn', hk', hs', hp', hq', hv'⟩ := h x nd hn hk hlt
  obtain ⟨nd'', hn'', hk'', hs'', hp'', hq'', hv''⟩ := h' x nd' hn' hk' (Nat.lt_of_lt_of_le hlt hle)
  refine ⟨nd'', hn'', hk'', hs''.trans hs', hp''.trans hp', hq''.trans hq', fun ht => ?_⟩
  rw [not_or] at ht
  exact (hv'' ht.2).trans (hv' ht.1)

theorem KeepsBorders.mono {touched touched' : NodeId → Prop} {s s' : State} (h : KeepsBorders touched s s')
    (ht : ∀ x nd, s.node x = some nd → nd.kind = .border → x < s.nextNode → touched x → touched' x) :
    KeepsBorders touched' s s' := by
  intro x nd hn hk hlt
  obtain ⟨nd', hn', hk', hs', hp', hq', hv'⟩ := h x nd hn hk hlt
  exact ⟨nd', hn', hk', hs', hp', hq', fun h => hv' fun h' => h (ht x nd hn hk hlt h')⟩

theorem keepsBorders_handOver {s : State} {l r p : NodeId} {q : Ptr} {ld rd pd : Node} (f : Version → Version)
    (hl : s.node l = some ld) (hr : s.node r = some rd) (hp : s.node p = some pd) (hlr : l ≠ r) (hpl : p ≠ l)
    (hpr : p ≠ r) :
    KeepsBorders (fun x => x = l ∨ x = r ∨ x = p) s (s.handOver l r p q (ld.mapVersion f) (rd.mapVersion f) pd) := by
  intro x nd hn hk _
  by_cases hxp : x = p
  · subst hxp
    obtain rfl : nd = pd := Option.some.inj (hn.symm.trans hp)
    exact ⟨_, handOver_parent hpl hpr, hk, rfl, rfl, rfl, fun h => absurd (Or.inr (Or.inr rfl)) h⟩
  · by_cases hxl : x = l
    · subst hxl
      obtain rfl : nd = ld := Option.some.inj (hn.symm.trans hl)
      exact ⟨_, handOver_left hlr, hk, rfl, rfl, rfl, fun h => absurd (Or.inl rfl) h⟩
    · by_cases hxr : x = r
      · subst hxr
        obtain rfl : nd = rd := Option.some.inj (hn.symm.trans hr)
        exact ⟨_, handOver_right, hk, rfl, rfl, rfl, fun h => absurd (Or.inr (Or.inl rfl)) h⟩
      · exact ⟨nd, (handOver_frame hxp hxl hxr).trans hn, hk, rfl, rfl, rfl, fun _ => rfl⟩

section
variable (link : KeySlice → Ptr) (dead : NodeId → Prop)

/-- The memory when the interior of the frame `f` is locked to take `u` after the node `t`. -/
structure SplitPre (s : State) (ti : TreeId) (par : Ptr) (f : Frame) (c : Ctx) (t : BTree) (k : KeyTuple) (u : BTree)
    (pd : Node) : Prop where
  outer : NodesOk link dead s (Ctx.descs par true c f.id)
  trees : ∀ y ∈ f.trees t, NodesOk link dead s (y.descs (some f.id) false)
  new : ∃ q, NodesOk link dead s (u.descs q false)
  node : s.node f.id = some pd
  parent : pd.parent = Ctx.parent par c
  root : pd.version.root = Ctx.isRoot true c
  body : (Body.interior f.pivots (f.kids t.id)).Ok
  members : MembersOk link dead pd (.interior f.pivots (f.kids t.id))
  key : k.Encoded ∧ k.length ≠ 0
  sorted : (Ctx.flatLeft (f :: c) ++ (t.flat ++ k.mark :: u.flat) ++ Ctx.flatRight (f :: c)).Pairwise (· < ·)
  nodup : (Ctx.ids (f :: c) ++ (t.ids ++ u.ids)).Nodup
  lt : ∀ x ∈ Ctx.ids (f :: c) ++ (t.ids ++ u.ids), x < s.nextNode
  upper : Upper s ti par (Ctx.rootId c f.id)
  above : ∀ p, par = some p → p ∉ Ctx.ids (f :: c) ++ (t.ids ++ u.ids) ∧ p < s.nextNode

end

namespace SplitPre
variable {link : KeySlice → Ptr} {dead : NodeId → Prop} {s : State} {ti : TreeId} {par : Ptr} {f : Frame} {c : Ctx}
  {t u : BTree} {k : KeyTuple} {pd : Node}

theorem left_lt (h : SplitPre link dead s ti par f c t k u pd) : ∀ x ∈ f.left, x.2.code < k.code := by
  intro x hx
  have hs := (List.pairwise_append.mp (List.pairwise_append.mp h.sorted).1).2.2 x.2.mark ?_ k.mark (by simp)
  · simp only [KeyTuple.mark] at hs
    omega
  · simp only [Ctx.flatLeft, Frame.flatLeft, List.mem_append, List.mem_flatMap]
    exact Or.inr ⟨x, hx, by simp⟩

theorem lt_right (h : SplitPre link dead s ti par f c t k u pd) : ∀ x ∈ f.right, k.code < x.1.code := by
  intro x hx
  have hs := (List.pairwise_append.mp h.sorted).2.2 k.mark (by simp) x.1.mark ?_
  · simp only [KeyTuple.mark] at hs
    omega
  · simp only [Ctx.flatRight, Frame.flatRight, List.mem_append, List.mem_flatMap]
    exact Or.inl ⟨x, hx, by simp⟩

/-- The identities of the interior, of its children and of the new node, all different. -/
theorem ids_nodup (h : SplitPre link dead s ti par f c t k u pd) :
    (f.id :: ((f.trees t).flatMap BTree.ids ++ u.ids)).Nodup := by
  have hp := ((Ctx.ids_cons f c).append_right (t.ids ++ u.ids)).nodup_iff.mp h.nodup
  have hsub : (f.ids ++ (t.ids ++ u.ids)).Nodup := by
    refine hp.sublist ?_
    exact (List.sublist_append_left f.ids (Ctx.ids c)).append_right _
  refine (List.Perm.nodup_iff ?_).mpr hsub
  simp only [Frame.trees, Frame.ids, List.flatMap_append, List.flatMap_cons, List.flatMap_map]
  rw [List.perm_iff_count]
  intro x
  simp only [List.count_append, List.count_cons]
  omega

omit f c t u in
theorem mem_ids {f : Frame} {c : Ctx} {t u : BTree} {x : NodeId}
    (hx : x ∈ f.id :: ((f.trees t).flatMap BTree.ids ++ u.ids)) : x ∈ Ctx.ids (f :: c) ++ (t.ids ++ u.ids) := by
  rw [((Ctx.ids_cons f c).append_right (t.ids ++ u.ids)).mem_iff]
  simp only [Frame.trees, Frame.ids, List.flatMap_append, List.flatMap_cons, List.flatMap_map, List.mem_cons,
    List.mem_append] at hx ⊢
  tauto

theorem mem_lt (h : SplitPre link dead s ti par f c t k u pd) {x : NodeId}
    (hx : x ∈ f.id :: ((f.trees t).flatMap BTree.ids ++ u.ids)) : x < s.nextNode := h.lt x (mem_ids hx)

/-- The memory in which the upper half of the children has moved to the new interior. -/
structure Halved (link : KeySlice → Ptr) (dead : NodeId → Prop) (s s' : State) (f : Frame) (t u : BTree) (pd : Node)
    (lp rp : List KeyTuple) (K₁ K₂ : List BTree) (ld rd : Node) : Prop where
  left : s'.node f.id = some ld
  right : s'.node s.nextNode = some rd
  leftMembers : MembersOk link dead ld (.interior lp (K₁.map BTree.id))
  rightMembers : MembersOk link dead rd (.interior rp (K₂.map BTree.id))
  parent : ld.parent = pd.parent
  leftRoot : ld.version.root = pd.version.root
  rightRoot : rd.version.root = pd.version.root
  leftTrees : ∀ y ∈ K₁, NodesOk link dead s' (y.descs (some f.id) false)
  rightTrees : ∀ y ∈ K₂, NodesOk link dead s' (y.descs (some s.nextNode) false)
  new : ∃ q, NodesOk link dead s' (u.descs q false)
  frame : ∀ x, x ∉ f.id :: ((f.trees t).flatMap BTree.ids ++ u.ids) → x < s.nextNode → s'.node x = s.node x
  next : s'.nextNode = s.nextNode + 1
  roots : s'.root = s.root
  rest : s'.rest = s.rest
  borders : KeepsBorders (fun _ => False) s s'

theorem move (h : SplitPre link dead s ti par f c t k u pd) {lp rp : List KeyTuple} {mid : KeyTuple} {K₁ K₂ : List BTree}
    (hpiv : f.pivots = lp ++ mid :: rp) (hK : f.trees t = K₁ ++ K₂) (hlp : lp.length = 7) (hrp : rp.length = 7)
    (hK₁ : K₁.length = 8) (hK₂ : K₂.length = 8) :
    ∃ s' ld rd, (∀ fuel > 0, run (interiorSplitMove fuel f.id) s = some ((s.nextNode, mid.slice, mid.length), s')) ∧
      Halved link dead s s' f t u pd lp rp K₁ K₂ ld rd := by
  have hids := h.ids_nodup
  have hlt := fun x hx => h.mem_lt (x := x) hx
  rw [hK, List.flatMap_append] at hids hlt
  obtain ⟨hfid, hids⟩ := List.nodup_cons.mp hids
  obtain ⟨hids', hu, hdisu⟩ := List.nodup_append.mp hids
  obtain ⟨hn₁, hn₂, hdis⟩ := List.nodup_append.mp hids'
  have hroot : ∀ y ∈ K₂, y.id ∈ K₂.flatMap BTree.ids := fun y hy => List.mem_flatMap.mpr ⟨y, hy, y.id_mem_ids⟩
  have hfp : f.id < s.nextNode := hlt _ List.mem_cons_self
  have hm := h.members
  rw [hpiv, f.kids_eq_trees, hK, List.map_append] at hm
  have hnode : ∀ y ∈ K₁ ++ K₂, ∃ nd, s.node y.id = some nd := by
    intro y hy
    obtain ⟨nd, hn, -⟩ := h.trees y (hK ▸ hy) _ (by rw [BTree.descs_eq]; exact List.mem_cons_self)
    exact ⟨nd, hn⟩
  obtain ⟨g, ld, rd, hrun, hgl, hgr, hml, hmr, hpar, hvl, hvr, hgc, hgo⟩ := run_interiorSplitMove h.node hfp hm hlp hrp
    (by rw [List.length_map, hK₁]) (by rw [List.length_map, hK₂]) fun x hx => by
      obtain ⟨y, hy, rfl⟩ := List.mem_map.mp hx
      have hmem := List.mem_append_left u.ids (List.mem_append_right (K₁.flatMap BTree.ids) (hroot y hy))
      exact ⟨fun he => hfid (he ▸ hmem), hlt _ (List.mem_cons_of_mem _ hmem), hnode y (List.mem_append_right _ hy)⟩
  refine ⟨_, ld, rd, hrun, hgl, hgr, hml, hmr, hpar, by rw [hvl]; rfl, by rw [hvr]; rfl, ?_, ?_, ?_, ?_, rfl, rfl, rfl, ?_⟩
  · -- The children that stay.
    intro y hy
    refine (h.trees y (by rw [hK]; exact List.mem_append_left _ hy)).frame fun p hp => ?_
    have hp1 : p.1 ∈ K₁.flatMap BTree.ids := List.mem_flatMap.mpr ⟨y, hy, BTree.mem_ids_of_desc hp⟩
    have hmem := List.mem_append_left u.ids (List.mem_append_left (K₂.flatMap BTree.ids) hp1)
    refine hgo p.1 (fun he => hfid (he ▸ hmem)) (Nat.ne_of_lt (hlt _ (List.mem_cons_of_mem _ hmem))) fun hx => ?_
    obtain ⟨z, hz, hze⟩ := List.mem_map.mp hx
    exact hdis p.1 hp1 z.id (hroot z hz) hze.symm
  · -- The children that move.
    intro y hy
    have hy' : y ∈ f.trees t := by rw [hK]; exact List.mem_append_right _ hy
    obtain ⟨nd, hn⟩ := hnode y (List.mem_append_right _ hy)
    refine (h.trees y hy').reparent ((List.nodup_flatMap.mp hn₂).1 y hy) hn
      (hgc y.id (List.mem_map.mpr ⟨y, hy, rfl⟩) nd hn) fun x hx hne => ?_
    have hx2 : x ∈ K₂.flatMap BTree.ids := List.mem_flatMap.mpr ⟨y, hy, hx⟩
    have hmem := List.mem_append_left u.ids (List.mem_append_right (K₁.flatMap BTree.ids) hx2)
    refine hgo x (fun he => hfid (he ▸ hmem)) (Nat.ne_of_lt (hlt _ (List.mem_cons_of_mem _ hmem))) fun hxr => ?_
    obtain ⟨z, hz, rfl⟩ := List.mem_map.mp hxr
    have hzy : z ≠ y := fun he => hne (congrArg BTree.id he)
    exact Lib.not_mem_of_nodup_flatMap hn₂ hz hy hzy z.id_mem_ids hx
  · obtain ⟨q, hq⟩ := h.new
    refine ⟨q, hq.frame fun p hp => ?_⟩
    have hpu : p.1 ∈ u.ids := BTree.mem_ids_of_desc hp
    have hmem := List.mem_append_right (K₁.flatMap BTree.ids ++ K₂.flatMap BTree.ids) hpu
    refine hgo p.1 (fun he => hfid (he ▸ hmem)) (Nat.ne_of_lt (hlt _ (List.mem_cons_of_mem _ hmem))) fun hx => ?_
    obtain ⟨z, hz, hze⟩ := List.mem_map.mp hx
    exact hdisu z.id (List.mem_append_right _ (hroot z hz)) p.1 hpu hze
  · intro x hx hxlt
    rw [hK, List.flatMap_append] at hx
    refine hgo x (fun he => hx (he ▸ List.mem_cons_self)) (Nat.ne_of_lt hxlt) fun hxr => hx ?_
    obtain ⟨z, hz, rfl⟩ := List.mem_map.mp hxr
    exact List.mem_cons_of_mem _ (List.mem_append_left _ (List.mem_append_right _ (hroot z hz)))
  · intro x nd hn hk hxlt
    have hxf : x ≠ f.id := by
      rintro rfl
      obtain rfl : nd = pd := Option.some.inj (hn.symm.trans h.node)
      exact absurd (hk.symm.trans h.members.1) (by decide)
    by_cases hxr : x ∈ K₂.map BTree.id
    · exact ⟨_, hgc x hxr nd hn, hk, rfl, rfl, rfl, fun _ => rfl⟩
    · exact ⟨nd, (hgo x hxf (Nat.ne_of_lt hxlt) hxr).trans hn, hk, rfl, rfl, rfl, fun _ => rfl⟩

/-- The insertion into one of the halves changes only the half and the new child. -/
theorem Halved.insert {s' : State} {lp rp : List KeyTuple} {K₁ K₂ : List BTree} {ld rd ud td td' : Node} {target : NodeId}
    (h : SplitPre link dead s ti par f c t k u pd) (hA : Halved link dead s s' f t u pd lp rp K₁ K₂ ld rd)
    (hK : f.trees t = K₁ ++ K₂) (ht : target = f.id ∨ target = s.nextNode) (htd : s'.node target = some td)
    (hki : td.kind = .interior) (hu : s'.node u.id = some ud) :
    (∀ y ∈ K₁, NodesOk link dead ((s'.setNode u.id (ud.set .parent (some target))).setNode target td')
      (y.descs (some f.id) false)) ∧
    (∀ y ∈ K₂, NodesOk link dead ((s'.setNode u.id (ud.set .parent (some target))).setNode target td')
      (y.descs (some s.nextNode) false)) ∧
    NodesOk link dead ((s'.setNode u.id (ud.set .parent (some target))).setNode target td') (u.descs (some target) false) ∧
    (∀ x, x ∉ f.id :: ((f.trees t).flatMap BTree.ids ++ u.ids) → x < s.nextNode →
      ((s'.setNode u.id (ud.set .parent (some target))).setNode target td').node x = s.node x) ∧
    KeepsBorders (fun _ => False) s ((s'.setNode u.id (ud.set .parent (some target))).setNode target td') := by
  have hids := h.ids_nodup
  have hlt := fun x hx => h.mem_lt (x := x) hx
  obtain ⟨hfid, hids⟩ := List.nodup_cons.mp hids
  obtain ⟨-, hund, hdisu⟩ := List.nodup_append.mp hids
  have htree : ∀ x ∈ (f.trees t).flatMap BTree.ids, x ≠ u.id ∧ x ≠ target := by
    intro x hx
    refine ⟨hdisu x hx u.id u.id_mem_ids, ?_⟩
    rcases ht with rfl | rfl
    · exact fun he => hfid (he ▸ List.mem_append_left _ hx)
    · exact Nat.ne_of_lt (hlt x (List.mem_cons_of_mem _ (List.mem_append_left _ hx)))
  have hut : ∀ x ∈ u.ids, x ≠ target := by
    intro x hx
    rcases ht with rfl | rfl
    · exact fun he => hfid (he ▸ List.mem_append_right _ hx)
    · exact Nat.ne_of_lt (hlt x (List.mem_cons_of_mem _ (List.mem_append_right _ hx)))
  have hframe : ∀ x, x ≠ u.id → x ≠ target →
      ((s'.setNode u.id (ud.set .parent (some target))).setNode target td').node x = s'.node x := fun x h1 h2 =>
    (State.setNode_node_ne h2).trans (State.setNode_node_ne h1)
  have hkid : ∀ y ∈ K₁ ++ K₂, ∀ x ∈ y.ids, x ≠ u.id ∧ x ≠ target := fun y hy x hx =>
    htree x (List.mem_flatMap.mpr ⟨y, hK ▸ hy, hx⟩)
  refine ⟨fun y hy => ?_, fun y hy => ?_, ?_, fun x hx hxlt => ?_, ?_⟩
  · refine (hA.leftTrees y hy).frame fun p hp => ?_
    obtain ⟨h1, h2⟩ := hkid y (List.mem_append_left _ hy) p.1 (BTree.mem_ids_of_desc hp)
    exact hframe p.1 h1 h2
  · refine (hA.rightTrees y hy).frame fun p hp => ?_
    obtain ⟨h1, h2⟩ := hkid y (List.mem_append_right _ hy) p.1 (BTree.mem_ids_of_desc hp)
    exact hframe p.1 h1 h2
  · obtain ⟨q, hq⟩ := hA.new
    exact hq.reparent hund hu ((State.setNode_node_ne (hut _ u.id_mem_ids)).trans (State.setNode_node_same _ _ _))
      fun x hx hne => hframe x hne (hut x hx)
  · rw [hframe x, hA.frame x hx hxlt]
    · exact fun he => hx (he ▸ List.mem_cons_of_mem _ (List.mem_append_right _ u.id_mem_ids))
    · rcases ht with rfl | rfl
      · exact fun he => hx (he ▸ List.mem_cons_self)
      · exact Nat.ne_of_lt hxlt
  · intro x nd hn hkx hxlt
    obtain ⟨nd', hn', hk', hp', hq', hv'⟩ := hA.borders x nd hn hkx hxlt
    by_cases hxt : x = target
    · subst hxt
      obtain rfl : nd' = td := Option.some.inj (hn'.symm.trans htd)
      exact absurd (hk'.symm.trans hki) (by decide)
    · by_cases hxu : x = u.id
      · subst hxu
        obtain rfl : nd' = ud := Option.some.inj (hn'.symm.trans hu)
        exact ⟨_, (State.setNode_node_ne hxt).trans (State.setNode_node_same _ _ _), hk', hp', hq', hv'⟩
      · exact ⟨nd', (hframe x hxu hxt).trans hn', hk', hp', hq', hv'⟩

/-- The memory in which the interior is split and holds the new child. -/
structure Halves (link : KeySlice → Ptr) (dead : NodeId → Prop) (s s' : State) (f : Frame) (t u : BTree) (pd : Node)
    (l r : BTree) (ld rd : Node) : Prop where
  left : Held link dead s' l ld
  right : Held link dead s' r rd
  parent : ld.parent = pd.parent
  leftRoot : ld.version.root = pd.version.root
  rightRoot : rd.version.root = pd.version.root
  frame : ∀ x, x ∉ f.id :: ((f.trees t).flatMap BTree.ids ++ u.ids) → x < s.nextNode → s'.node x = s.node x
  next : s'.nextNode = s.nextNode + 1
  roots : s'.root = s.root
  rest : s'.rest = s.rest
  borders : KeepsBorders (fun _ => False) s s'

theorem nodesOk_plug_inner {g : Frame} {x : BTree} (h : ∀ y ∈ g.trees x, NodesOk link dead s (y.descs (some g.id) false)) :
    NodesOk link dead s (g.plug x).inner := by
  intro p hp
  obtain ⟨y, hy, hyp⟩ := Frame.mem_plug_inner.mp hp
  exact h y hy p hyp

theorem body_plug_ok {g : Frame} {x : BTree} (h1 : 1 ≤ g.pivots.length) (h15 : g.pivots.length ≤ 15)
    (hk : ∀ p ∈ g.pivots, p.Encoded ∧ p.length ≠ 0) : (g.plug x).body.Ok := by
  rw [Frame.plug_body]
  exact ⟨h1, h15, hk⟩

/-- The first two parts of `interior_split`, with the two halves and the pivot between them. -/
def HalvesAt (link : KeySlice → Ptr) (dead : NodeId → Prop) (s : State) (f : Frame) (t : BTree) (k : KeyTuple)
    (u : BTree) (pd : Node) (x : BTree × KeyTuple × BTree) : Prop :=
  ∃ s' ld rd, (∀ fuel > 0, ∀ cont : NodeId → KeySlice → Nat → M Unit, run (do
        let (n', slice, length) ← interiorSplitMove fuel f.id
        interiorSplitInsert fuel f.id n' u.id k.slice k.length slice length
        cont n' slice length) s = run (cont s.nextNode x.2.1.slice x.2.1.length) s') ∧
      Halves link dead s s' f t u pd x.1 x.2.2 ld rd ∧ x.2.1.Encoded ∧ x.2.1.length ≠ 0

/-- The new child goes to the lower half. -/
theorem halves_low (h : SplitPre link dead s ti par f c t k u pd) {a rest : List (KeyTuple × BTree)}
    {k' : KeyTuple} {r : BTree} (hr : f.right = a ++ (k', r) :: rest) (hla : f.left.length + a.length = 7)
    (hrest : rest.length = 7) :
    HalvesAt link dead s f t k u pd (Frame.plug ⟨f.id, f.left, (k, u) :: a⟩ t, k', .interior s.nextNode r rest) := by
  have henc : ∀ p ∈ f.pivots, p.Encoded ∧ p.length ≠ 0 := h.body.2.2
  have hpiv : f.pivots = (f.left.map (·.2) ++ a.map (·.1)) ++ k' :: rest.map (·.1) := by
    simp [Frame.pivots, hr]
  have hlow : ∀ p ∈ f.left.map (·.2) ++ a.map (·.1), p.Encoded ∧ p.length ≠ 0 := fun p hp =>
    henc p (hpiv ▸ List.mem_append_left _ hp)
  have hK : f.trees t = (f.left.map (·.1) ++ t :: a.map (·.2)) ++ (r :: rest.map (·.2)) := by
    simp [Frame.trees, hr]
  obtain ⟨sA, ld, rd, hrun, hA⟩ := h.move hpiv hK (by simpa using hla) (by simpa using hrest) (by simp; omega)
    (by simp; omega)
  obtain ⟨q, hq⟩ := hA.new
  obtain ⟨ud, hu, -⟩ := hq _ (by rw [BTree.descs_eq]; exact List.mem_cons_self)
  have hkk' : k.code < k'.code := h.lt_right (k', r) (by rw [hr]; simp)
  have hk' := henc k' (by rw [hpiv]; simp)
  have hm := hA.leftMembers
  rw [show (f.left.map (·.1) ++ t :: a.map (·.2)).map BTree.id =
    (f.left.map (·.1.id) ++ [t.id]) ++ a.map (·.2.id) by simp [Function.comp_def]] at hm
  have hne : u.id ≠ f.id := fun he => (List.nodup_cons.mp h.ids_nodup).1 (he ▸ List.mem_append_right _ u.id_mem_ids)
  obtain ⟨ld', hrun', hm', hv', hp'⟩ := run_interiorSplitInsert (l := f.id) (r := s.nextNode) (k := k)
    (if_pos hkk').symm hA.left hu hne hm (by simp) (by simp; omega) (fun p hp => (hlow p hp).1) h.key.1 h.key.2 hk'.1 hk'.2
    (fun p hp => by
      obtain ⟨x, hx, rfl⟩ := List.mem_map.mp hp
      exact (h.left_lt x hx).le)
    (fun p hp => by
      obtain ⟨x, hx, rfl⟩ := List.mem_map.mp hp
      exact h.lt_right x (by rw [hr]; exact List.mem_append_left _ hx))
  obtain ⟨hl', hr', hu', hframe, hchain⟩ := hA.insert h hK (Or.inl rfl) hA.left hm.1 hu
  refine ⟨_, ld', rd, fun fuel hf cont => ?_,
    ⟨⟨State.setNode_node_same _ _ _, ?_, ?_, ?_⟩, ⟨?_, ?_, ?_, ?_⟩, hp'.trans hA.parent,
    (congrArg Version.root hv').trans hA.leftRoot, hA.rightRoot, hframe, hA.next, hA.roots, hA.rest, hchain⟩, hk'⟩
  · rw [run_bind_of (hrun fuel hf)]
    exact run_bind_of (hrun' fuel hf) _
  · refine body_plug_ok ?_ ?_ fun p hp => ?_
    · simp only [Frame.pivots, List.length_append, List.length_map, List.length_cons]
      omega
    · simp only [Frame.pivots, List.length_append, List.length_map, List.length_cons]
      omega
    · simp only [Frame.pivots, List.map_cons, List.mem_append, List.mem_cons] at hp
      rcases hp with hp | rfl | hp
      · exact hlow p (List.mem_append_left _ hp)
      · exact h.key
      · exact hlow p (List.mem_append_right _ hp)
  · rw [Frame.plug_body]
    simpa [Frame.pivots, Frame.kids] using hm'
  · refine nodesOk_plug_inner fun y hy => ?_
    simp only [Frame.trees, List.map_cons, List.mem_append, List.mem_cons] at hy
    rcases hy with hy | rfl | rfl | hy
    · exact hl' y (List.mem_append_left _ hy)
    · exact hl' y (by simp)
    · exact hu'
    · exact hl' y (List.mem_append_right _ (List.mem_cons_of_mem _ hy))
  · refine (State.setNode_node_ne ?_).trans ((State.setNode_node_ne ?_).trans hA.right)
    · exact (Nat.ne_of_lt (h.mem_lt List.mem_cons_self)).symm
    · exact (Nat.ne_of_lt (h.mem_lt (List.mem_cons_of_mem _ (List.mem_append_right _ u.id_mem_ids)))).symm
  · exact ⟨by simp [hrest], by simp [hrest],
      fun p hp => henc p (hpiv ▸ List.mem_append_right _ (List.mem_cons_of_mem _ hp))⟩
  · simpa [BTree.body, Function.comp_def] using hA.rightMembers
  · intro x hx
    simp only [BTree.inner, BTree.descsRest_eq, List.mem_append, List.mem_flatMap] at hx
    rcases hx with hx | ⟨y, hy, hx⟩
    · exact hr' r (by simp) x hx
    · exact hr' y.2 (List.mem_cons_of_mem _ (List.mem_map.mpr ⟨y, hy, rfl⟩)) x hx

/-- The new child goes to the upper half. -/
theorem halves_high (h : SplitPre link dead s ti par f c t k u pd) {a rest : List (BTree × KeyTuple)} {l : BTree}
    {k' : KeyTuple} (hl : f.left = a ++ (l, k') :: rest) (hla : a.length = 7) (hrest : rest.length + f.right.length = 7) :
    HalvesAt link dead s f t k u pd
      (Frame.plug ⟨f.id, a, []⟩ l, k', Frame.plug ⟨s.nextNode, rest, (k, u) :: f.right⟩ t) := by
  have henc : ∀ p ∈ f.pivots, p.Encoded ∧ p.length ≠ 0 := h.body.2.2
  have hpiv : f.pivots = a.map (·.2) ++ k' :: (rest.map (·.2) ++ f.right.map (·.1)) := by
    simp [Frame.pivots, hl]
  have hhigh : ∀ p ∈ rest.map (·.2) ++ f.right.map (·.1), p.Encoded ∧ p.length ≠ 0 := fun p hp =>
    henc p (hpiv ▸ List.mem_append_right _ (List.mem_cons_of_mem _ hp))
  have hK : f.trees t = (a.map (·.1) ++ [l]) ++ (rest.map (·.1) ++ t :: f.right.map (·.2)) := by
    simp [Frame.trees, hl]
  obtain ⟨sA, ld, rd, hrun, hA⟩ := h.move hpiv hK (by simpa using hla) (by simpa using hrest) (by simp [hla])
    (by simp; omega)
  obtain ⟨q, hq⟩ := hA.new
  obtain ⟨ud, hu, -⟩ := hq _ (by rw [BTree.descs_eq]; exact List.mem_cons_self)
  have hkk' : k'.code < k.code := h.left_lt (l, k') (by rw [hl]; simp)
  have hk' := henc k' (by rw [hpiv]; simp)
  have hm := hA.rightMembers
  rw [show (rest.map (·.1) ++ t :: f.right.map (·.2)).map BTree.id =
    (rest.map (·.1.id) ++ [t.id]) ++ f.right.map (·.2.id) by simp [Function.comp_def]] at hm
  have hne : u.id ≠ s.nextNode := Nat.ne_of_lt (h.mem_lt (List.mem_cons_of_mem _ (List.mem_append_right _ u.id_mem_ids)))
  obtain ⟨rd', hrun', hm', hv', hp'⟩ := run_interiorSplitInsert (l := f.id) (r := s.nextNode) (k := k)
    (if_neg (Nat.not_lt.mpr hkk'.le)).symm hA.right hu hne hm (by simp) (by simp; omega)
      (fun p hp => (hhigh p hp).1) h.key.1 h.key.2
    hk'.1 hk'.2
    (fun p hp => by
      obtain ⟨x, hx, rfl⟩ := List.mem_map.mp hp
      exact (h.left_lt x (by rw [hl]; exact List.mem_append_right _ (List.mem_cons_of_mem _ hx))).le)
    (fun p hp => by
      obtain ⟨x, hx, rfl⟩ := List.mem_map.mp hp
      exact h.lt_right x hx)
  obtain ⟨hl', hr', hu', hframe, hchain⟩ := hA.insert h hK (Or.inr rfl) hA.right hm.1 hu
  refine ⟨_, ld, rd', fun fuel hf cont => ?_,
    ⟨⟨?_, ?_, ?_, ?_⟩, ⟨State.setNode_node_same _ _ _, ?_, ?_, ?_⟩, hA.parent, hA.leftRoot,
    (congrArg Version.root hv').trans hA.rightRoot, hframe, hA.next, hA.roots, hA.rest, hchain⟩, hk'⟩
  · rw [run_bind_of (hrun fuel hf)]
    exact run_bind_of (hrun' fuel hf) _
  · have hfu : f.id ≠ u.id := fun he => (List.nodup_cons.mp h.ids_nodup).1 (he ▸ List.mem_append_right _ u.id_mem_ids)
    exact (State.setNode_node_ne (Nat.ne_of_lt (h.mem_lt List.mem_cons_self))).trans
      ((State.setNode_node_ne hfu).trans hA.left)
  · refine body_plug_ok (by simp [Frame.pivots, hla]) (by simp [Frame.pivots, hla]) fun p hp => ?_
    simp only [Frame.pivots, List.map_nil, List.append_nil] at hp
    exact henc p (hpiv ▸ List.mem_append_left _ hp)
  · rw [Frame.plug_body]
    simpa [Frame.pivots, Frame.kids, Function.comp_def] using hA.leftMembers
  · refine nodesOk_plug_inner fun y hy => ?_
    simp only [Frame.trees, List.map_nil] at hy
    exact hl' y hy
  · refine body_plug_ok ?_ ?_ fun p hp => ?_
    · simp only [Frame.pivots, List.length_append, List.length_map, List.length_cons]
      omega
    · simp only [Frame.pivots, List.length_append, List.length_map, List.length_cons]
      omega
    · simp only [Frame.pivots, List.map_cons, List.mem_append, List.mem_cons] at hp
      rcases hp with hp | rfl | hp
      · exact hhigh p (List.mem_append_left _ hp)
      · exact h.key
      · exact hhigh p (List.mem_append_right _ hp)
  · rw [Frame.plug_body]
    simpa [Frame.pivots, Frame.kids] using hm'
  · refine nodesOk_plug_inner fun y hy => ?_
    simp only [Frame.trees, List.map_cons, List.mem_append, List.mem_cons] at hy
    rcases hy with hy | rfl | rfl | hy
    · exact hr' y (List.mem_append_left _ hy)
    · exact hr' y (by simp)
    · exact hu'
    · exact hr' y (List.mem_append_right _ (List.mem_cons_of_mem _ hy))

/-- The first two parts of `interior_split`. -/
theorem halves (h : SplitPre link dead s ti par f c t k u pd) (hfull : f.pivots.length = 15) :
    HalvesAt link dead s f t k u pd (f.split t k u s.nextNode) := by
  rcases f.split_cases hfull t k u s.nextNode with ⟨a, rest, k', r, hr, hla, hrest, hsplit⟩ | ⟨a, rest, l, k', hl, hla,
    hrest, hsplit⟩
  · exact hsplit ▸ h.halves_low hr hla hrest
  · exact hsplit ▸ h.halves_high hl hla hrest

end SplitPre

/-! ### The chain of splits -/

/-- The memory after `t` has got the right sibling `u`; only versions of borders in `touched` have changed. -/
structure SplitPost (link : KeySlice → Ptr) (dead touched : NodeId → Prop) (s s' : State) (ti : TreeId)
    (par : Ptr) (c : Ctx) (t : BTree) (k : KeyTuple) (u : BTree) : Prop where
  nodes : NodesOk link dead s' ((Ctx.addRight c t k u s.nextNode).descs par true)
  frame : ∀ x, x ∉ Ctx.ids c ++ (t.ids ++ u.ids) → x < s.nextNode → par ≠ some x → s'.node x = s.node x
  above : Above Version.inserted s s' ti par (Ctx.rootId c t.id) (Ctx.addRight c t k u s.nextNode).id
  next : s'.nextNode = s.nextNode + Ctx.splits c
  rest : s'.rest = s.rest
  borders : KeepsBorders touched s s'

section
variable {link : KeySlice → Ptr} {dead : NodeId → Prop} {s : State} {ti : TreeId} {par : Ptr} {f : Frame} {c : Ctx}
  {t u : BTree} {k : KeyTuple} {pd : Node}

theorem Ctx.id_mem_ids (f : Frame) (c : Ctx) : f.id ∈ Ctx.ids (f :: c) :=
  (Ctx.ids_cons f c).mem_iff.mpr (List.mem_append_left _ List.mem_cons_self)

theorem Ctx.mem_ids_of_desc {par : Ptr} {root : Bool} {c : Ctx} {n : NodeId} {p : NodeId × Desc}
    (h : p ∈ Ctx.descs par root c n) : p.1 ∈ Ctx.ids c := by
  rw [← Ctx.map_fst_descs par root c n]
  exact List.mem_map.mpr ⟨p, h, rfl⟩

/-- The outer nodes do not include the interior of the innermost frame. -/
theorem Ctx.outer_ne {f : Frame} {c : Ctx} {l : List NodeId} (hnd : (Ctx.ids (f :: c) ++ l).Nodup) {x : NodeId}
    (hx : x ∈ Ctx.ids c) : x ∉ f.ids ∧ x ∉ l := by
  have hp := ((Ctx.ids_cons f c).append_right l).nodup_iff.mp hnd
  rw [List.append_assoc] at hp
  obtain ⟨-, hcl, hd⟩ := List.nodup_append.mp hp
  exact ⟨fun hf => hd x hf x (List.mem_append_left _ hx) rfl, fun hl => (List.nodup_append.mp hcl).2.2 x hx x hl rfl⟩

/-- A parent with room takes the new sibling. -/
theorem SplitPre.settle (h : SplitPre link dead s ti par f c t k u pd) (hroom : f.pivots.length < 15)
    (hu : NodesOk link dead s (u.descs (some f.id) false)) :
    ∃ s', (∀ fuel > 0, run (do
        interiorInsert fuel f.id u.id k.slice k.length
        versionUnlock fuel f.id) s = some ((), s')) ∧
      SplitPost link dead (fun x => par = some x) s s' ti par (f :: c) t k u := by
  have henc : ∀ p ∈ f.pivots, p.Encoded ∧ p.length ≠ 0 := h.body.2.2
  have hm := h.members
  rw [show f.pivots = f.left.map (·.2) ++ f.right.map (·.1) from rfl,
    show f.kids t.id = (f.left.map (·.1.id) ++ [t.id]) ++ f.right.map (·.2.id) by simp [Frame.kids]] at hm
  obtain ⟨pd', hrun, hm', hv, hp, -, -⟩ := run_interiorInsert (k := k) h.node hm (by simp) hroom
    (fun p hp => (henc p hp).1) h.key.1
    (fun p hp => by
      obtain ⟨x, hx, rfl⟩ := List.mem_map.mp hp
      exact (h.left_lt x hx).le)
    (fun p hp => by
      obtain ⟨x, hx, rfl⟩ := List.mem_map.mp hp
      exact h.lt_right x hx)
  have hfid := (List.nodup_cons.mp h.ids_nodup).1
  have hframe : ∀ x, x ≠ f.id → ((s.setNode f.id pd').setNode f.id (pd'.mapVersion Version.unlocked)).node x = s.node x :=
    fun x hx => (State.setNode_node_ne hx).trans (State.setNode_node_ne hx)
  have hadd : Ctx.addRight (f :: c) t k u s.nextNode = Ctx.plug c ((f.addAfter k u).plug t) := by
    rw [Ctx.addRight, if_pos hroom]
  refine ⟨_, fun fuel hf => (run_bind_of (hrun fuel hf) _).trans (run_atomicUpdate (State.setNode_node_same _ _ _) hf _),
    ?_, ?_, ?_, ?_, rfl, ?_⟩
  · rw [hadd]
    intro x hx
    rcases Ctx.mem_plug_descs.mp hx with hx | hx
    · refine h.outer.frame (fun p hp => hframe p.1 ?_) x hx
      intro he
      exact (Ctx.outer_ne h.nodup (Ctx.mem_ids_of_desc hp)).1 (he ▸ List.mem_cons_self)
    · rw [BTree.descs_eq] at hx
      rcases List.mem_cons.mp hx with rfl | hx
      · refine ⟨_, State.setNode_node_same _ _ _, ⟨⟨hp.trans h.parent, ?_, ?_, ?_⟩, Version.unlocked_stable _⟩⟩
        · rw [Node.mapVersion_version, Version.unlocked_root, hv]
          exact h.root
        · rw [Frame.plug_body]
          refine ⟨?_, ?_, ?_⟩
          · simp only [Frame.pivots, Frame.addAfter, List.map_cons, List.length_append, List.length_cons]
            omega
          · simp only [Frame.pivots, Frame.addAfter, List.map_cons, List.length_append, List.length_cons,
              List.length_map] at hroom ⊢
            omega
          · intro p hp
            simp only [Frame.pivots, Frame.addAfter, List.map_cons, List.mem_append, List.mem_cons] at hp
            rcases hp with hp | rfl | hp
            · exact henc p (List.mem_append_left _ hp)
            · exact h.key
            · exact henc p (List.mem_append_right _ hp)
        · rw [Frame.plug_body]
          refine MembersOk.mapVersion ?_ (Version.unlocked_border _) (Version.unlocked_deleted _)
          simpa [Frame.pivots, Frame.kids, Frame.addAfter] using hm'
      · obtain ⟨y, hy, hxd⟩ := Frame.mem_plug_inner.mp hx
        have hy' : y = u ∨ y ∈ f.trees t := by
          simp only [Frame.trees, Frame.addAfter, List.map_cons, List.mem_append, List.mem_cons] at hy ⊢
          tauto
        rcases hy' with rfl | hy'
        · refine hu.frame (fun p hp => hframe p.1 ?_) x hxd
          exact fun he => hfid (he ▸ List.mem_append_right _ (BTree.mem_ids_of_desc hp))
        · refine (h.trees y hy').frame (fun p hp => hframe p.1 ?_) x hxd
          exact fun he => hfid (he ▸ List.mem_append_left _ (List.mem_flatMap.mpr ⟨y, hy', BTree.mem_ids_of_desc hp⟩))
  · intro x hx _ _
    exact hframe x fun he => hx (he ▸ List.mem_append_left _ (Ctx.id_mem_ids f c))
  · refine .kept ?_ rfl fun p hp => hframe p ?_
    · rw [hadd, Ctx.plug_id]
      rfl
    · exact fun he => (h.above p hp).1 (he ▸ List.mem_append_left _ (Ctx.id_mem_ids f c))
  · rw [Ctx.splits, if_pos hroom]
    rfl
  · intro x nd hn hk _
    have hx : x ≠ f.id := by
      rintro rfl
      obtain rfl : nd = pd := Option.some.inj (hn.symm.trans h.node)
      exact absurd (hk.symm.trans h.members.1) (by decide)
    exact ⟨nd, (hframe x hx).trans hn, hk, rfl, rfl, rfl, fun _ => rfl⟩

/-- Two trees whose roots are held are handed to the interior above them, which is locked. -/
theorem SplitPre.of_held {s' : State} {l r : BTree} {ld ld' rd rd' : Node} {q : Ptr}
    (houter : NodesOk link dead s (Ctx.descs par true (f :: c) l.id)) (hpd : s.node f.id = some pd)
    (hl : Held link dead s l ld) (hr : Held link dead s r rd)
    (hp' : s'.node f.id = some (pd.mapVersion (.setLocked true)))
    (hl' : s'.node l.id = some ld') (hlok : NodeOk link dead ld' ⟨some f.id, false, l.body⟩)
    (hr' : s'.node r.id = some rd') (hrok : NodeOk link dead rd' ⟨q, false, r.body⟩)
    (hframe : ∀ x, x ≠ f.id → x ≠ l.id → x ≠ r.id → s'.node x = s.node x)
    (hnext : s'.nextNode = s.nextNode) (hroots : s'.root = s.root) (hk : k.Encoded ∧ k.length ≠ 0)
    (hsorted : (Ctx.flatLeft (f :: c) ++ (l.flat ++ k.mark :: r.flat) ++ Ctx.flatRight (f :: c)).Pairwise (· < ·))
    (hnd : (Ctx.ids (f :: c) ++ (l.ids ++ r.ids)).Nodup)
    (hlt : ∀ x ∈ Ctx.ids (f :: c) ++ (l.ids ++ r.ids), x < s.nextNode)
    (hupper : Upper s ti par (Ctx.rootId c f.id))
    (habove : ∀ p, par = some p → p ∉ Ctx.ids (f :: c) ++ (l.ids ++ r.ids) ∧ p < s.nextNode) :
    SplitPre link dead s' ti par f c l k r (pd.mapVersion (.setLocked true)) ∧
      NodesOk link dead s' (r.descs q false) := by
  obtain ⟨-, hlr, hdis⟩ := List.nodup_append.mp hnd
  obtain ⟨hndl, hndr, hdis'⟩ := List.nodup_append.mp hlr
  have hfl : ∀ x ∈ l.ids ++ r.ids, x ≠ f.id := fun x hx he => hdis f.id (Ctx.id_mem_ids f c) x hx he.symm
  have hctx : ∀ x ∈ Ctx.ids (f :: c), x ≠ l.id ∧ x ≠ r.id := fun x hx =>
    ⟨hdis x hx l.id (List.mem_append_left _ l.id_mem_ids), hdis x hx r.id (List.mem_append_right _ r.id_mem_ids)⟩
  have hok : NodeOk link dead pd ⟨Ctx.parent par c, Ctx.isRoot true c, .interior f.pivots (f.kids l.id)⟩ := by
    obtain ⟨nd, hn, hok⟩ := houter _ (by rw [Ctx.descs, Frame.descs]; exact List.mem_cons_self)
    obtain rfl : nd = pd := Option.some.inj (hn.symm.trans hpd)
    exact hok
  have htree : NodesOk link dead s' (l.descs (some f.id) false) := by
    refine hl.release hl' hlok.members hlok.parent hlok.root hlok.stable fun p hp => ?_
    have hmem := mem_ids_of_inner hp
    exact hframe p.1 (hfl _ (List.mem_append_left _ hmem)) (inner_ne_root hndl hp) fun he =>
      hdis' p.1 hmem r.id r.id_mem_ids he
  have hnew : NodesOk link dead s' (r.descs q false) := by
    refine hr.release hr' hrok.members hrok.parent hrok.root hrok.stable fun p hp => ?_
    have hmem := mem_ids_of_inner hp
    exact hframe p.1 (hfl _ (List.mem_append_right _ hmem)) (fun he => hdis' l.id l.id_mem_ids p.1 hmem he.symm)
      (inner_ne_root hndr hp)
  refine ⟨⟨?_, ?_, ⟨q, hnew⟩, hp', hok.parent, hok.root, hok.body, hok.members.mapVersion rfl rfl, hk, hsorted, hnd,
    fun x hx => hnext ▸ hlt x hx, ⟨fun hp => hroots ▸ hupper.tree hp, fun p hp => ?_⟩,
    fun p hp => hnext ▸ habove p hp⟩, hnew⟩
  · refine (houter.mono_left fun p hp => ?_).frame fun p hp => ?_
    · rw [Ctx.descs]
      exact List.mem_append_right _ hp
    · have hmem := Ctx.mem_ids_of_desc hp
      have hmem' : p.1 ∈ Ctx.ids (f :: c) := (Ctx.ids_cons f c).mem_iff.mpr (List.mem_append_right _ hmem)
      refine hframe p.1 (fun he => (Ctx.outer_ne hnd hmem).1 (he ▸ List.mem_cons_self)) ?_ ?_
      · exact (hctx p.1 hmem').1
      · exact (hctx p.1 hmem').2
  · intro y hy
    have hy' : y = l ∨ ∃ z, (z ∈ f.left ∧ y = z.1) ∨ ∃ z, z ∈ f.right ∧ y = z.2 := by
      simp only [Frame.trees, List.mem_append, List.mem_cons, List.mem_map] at hy
      rcases hy with ⟨z, hz, rfl⟩ | rfl | ⟨z, hz, rfl⟩
      · exact Or.inr ⟨z, Or.inl ⟨hz, rfl⟩⟩
      · exact Or.inl rfl
      · exact Or.inr ⟨(z.2, z.1), Or.inr ⟨z, hz, rfl⟩⟩
    by_cases hyl : y = l
    · subst hyl
      exact htree
    · have hsub : ∀ p ∈ y.descs (some f.id) false, p ∈ Ctx.descs par true (f :: c) l.id ∧ p.1 ∈ f.ids.tail := by
        intro p hp
        rcases hy' with h | ⟨z, ⟨hz, rfl⟩ | ⟨z, hz, rfl⟩⟩
        · exact absurd h hyl
        · refine ⟨?_, ?_⟩
          · simp only [Ctx.descs, Frame.descs, List.mem_append, List.mem_cons, List.mem_flatMap]
            exact Or.inl (Or.inr (Or.inl ⟨z, hz, hp⟩))
          · simp only [Frame.ids, List.tail_cons, List.mem_append, List.mem_flatMap]
            exact Or.inl ⟨z, hz, BTree.mem_ids_of_desc hp⟩
        · refine ⟨?_, ?_⟩
          · simp only [Ctx.descs, Frame.descs, List.mem_append, List.mem_cons, List.mem_flatMap]
            exact Or.inl (Or.inr (Or.inr ⟨z, hz, hp⟩))
          · simp only [Frame.ids, List.tail_cons, List.mem_append, List.mem_flatMap]
            exact Or.inr ⟨z, hz, BTree.mem_ids_of_desc hp⟩
      refine (houter.mono_left fun p hp => (hsub p hp).1).frame fun p hp => ?_
      have hmem : p.1 ∈ Ctx.ids (f :: c) := Ctx.mem_ids_of_desc (hsub p hp).1
      refine hframe p.1 (fun he => ?_) (hctx p.1 hmem).1 (hctx p.1 hmem).2
      have hfnd : f.ids.Nodup := by
        have := ((Ctx.ids_cons f c).append_right (l.ids ++ r.ids)).nodup_iff.mp hnd
        exact (List.nodup_append.mp (List.nodup_append.mp this).1).1
      exact (List.nodup_cons.mp hfnd).1 (he ▸ (hsub p hp).2)
  · obtain ⟨nd, hn, h⟩ := hupper.border p hp
    have hp' := (habove p hp).1
    refine ⟨nd, (hframe p ?_ ?_ ?_).trans hn, h⟩
    · exact fun he => hp' (he ▸ List.mem_append_left _ (Ctx.id_mem_ids f c))
    · exact fun he => hp' (he ▸ List.mem_append_right _ (List.mem_append_left _ l.id_mem_ids))
    · exact fun he => hp' (he ▸ List.mem_append_right _ (List.mem_append_right _ r.id_mem_ids))

theorem NewRoot.splitPost {s' : State} {ld rd : Node} (h : NewRoot s s' ti par t.id u.id ld rd k)
    (ht : Held link dead s t ld) (hu : Held link dead s u rd) (hk : k.Encoded ∧ k.length ≠ 0)
    (hnd : (t.ids ++ u.ids).Nodup) (hlt : ∀ x ∈ t.ids ++ u.ids, x < s.nextNode)
    (habove : ∀ p, par = some p → p ∉ t.ids ++ u.ids ∧ p < s.nextNode) :
    SplitPost link dead (fun x => par = some x ∨ x = t.id ∨ x = u.id) s s' ti par [] t k u where
  nodes := h.nodesOk ht hu hk.1 hk.2 hnd hlt fun p hp => (habove p hp).1
  frame := by
    intro x hx hxlt hpar
    simp only [Ctx.ids, Ctx.descs, List.map_nil, List.nil_append, List.mem_append, not_or] at hx
    exact h.frame x (fun he => hx.1 (he ▸ t.id_mem_ids)) (fun he => hx.2 (he ▸ u.id_mem_ids)) (Nat.ne_of_lt hxlt) hpar
  above := h.above
  next := h.next
  rest := h.rest
  borders := by
    intro x nd hn hkx hxlt
    by_cases hxt : x = t.id
    · subst hxt
      obtain rfl : nd = ld := Option.some.inj (hn.symm.trans ht.node)
      exact ⟨_, h.left, hkx, rfl, rfl, rfl, fun ht => absurd (Or.inr (Or.inl rfl)) ht⟩
    · by_cases hxu : x = u.id
      · subst hxu
        obtain rfl : nd = rd := Option.some.inj (hn.symm.trans hu.node)
        exact ⟨_, h.right, hkx, rfl, rfl, rfl, fun ht => absurd (Or.inr (Or.inr rfl)) ht⟩
      · by_cases hxp : par = some x
        · rcases h.above with ⟨-, -, hb⟩ | ⟨hp, -⟩ | ⟨p, pd, pd', hp, -, hbef, haft, hslot⟩
          · exact ⟨nd, (hb x hxp).trans hn, hkx, rfl, rfl, rfl, fun _ => rfl⟩
          · rw [hp] at hxp
            exact absurd hxp (by simp)
          · obtain rfl : p = x := Option.some.inj (hp.symm.trans hxp)
            obtain rfl : nd = pd := Option.some.inj (hn.symm.trans hbef)
            obtain ⟨i, -, -, rfl⟩ := hslot
            exact ⟨_, haft, hkx, rfl, rfl, rfl, fun ht => absurd (Or.inl hxp) ht⟩
        · exact ⟨nd, (h.frame x hxt hxu (Nat.ne_of_lt hxlt) hxp).trans hn, hkx, rfl, rfl, rfl, fun _ => rfl⟩

/-- The split of a full interior, and then what its two halves lead to above. -/
theorem SplitPost.of_split {touched touched' : NodeId → Prop} {s₁ s' : State} (hfull : f.pivots.length = 15)
    (hframe : ∀ x, x ∉ Ctx.ids (f :: c) ++ (t.ids ++ u.ids) → x < s.nextNode → s₁.node x = s.node x)
    (hnext : s₁.nextNode = s.nextNode + 1) (hroots : s₁.root = s.root) (hrest : s₁.rest = s.rest)
    (hborders : KeepsBorders (fun _ => False) s s₁)
    (htouched : ∀ x nd, s.node x = some nd → nd.kind = .border → x < s.nextNode → touched x → touched' x)
    (habove : ∀ p, par = some p → p ∉ Ctx.ids (f :: c) ++ (t.ids ++ u.ids) ∧ p < s.nextNode)
    (h : SplitPost link dead touched s₁ s' ti par c (f.split t k u s.nextNode).1 (f.split t k u s.nextNode).2.1
      (f.split t k u s.nextNode).2.2) : SplitPost link dead touched' s s' ti par (f :: c) t k u := by
  have hadd : Ctx.addRight (f :: c) t k u s.nextNode = Ctx.addRight c (f.split t k u s.nextNode).1
      (f.split t k u s.nextNode).2.1 (f.split t k u s.nextNode).2.2 s₁.nextNode := by
    rw [Ctx.addRight, if_neg (by omega), hnext]
  refine ⟨hadd ▸ h.nodes, fun x hx hlt hpar => ?_, ?_, ?_, h.rest.trans hrest,
    (hborders.trans h.borders (by rw [hnext]; lia)).mono fun x nd hn hk hlt ht => htouched x nd hn hk hlt
      (ht.resolve_left id)⟩
  · refine (h.frame x (fun hx' => ?_) (by rw [hnext]; lia) hpar).trans (hframe x hx hlt)
    rw [List.mem_append, (Frame.split_ids hfull t k u s.nextNode).mem_iff] at hx'
    rw [List.mem_append, (Ctx.ids_cons f c).mem_iff] at hx
    simp only [List.mem_append, List.mem_cons] at hx hx'
    rcases hx' with hx' | rfl | hx' | hx'
    · exact hx (Or.inl (Or.inr hx'))
    · exact absurd hlt (Nat.lt_irrefl _)
    · exact hx (Or.inl (Or.inl hx'))
    · exact hx (Or.inr hx')
  · have hid : Ctx.rootId c (f.split t k u s.nextNode).1.id = Ctx.rootId (f :: c) t.id := by
      rw [(Frame.split_id hfull t k u s.nextNode).1]
      rfl
    have habv := h.above
    rw [hid, ← hadd] at habv
    rcases habv with ⟨heq, hr, hb⟩ | ⟨hp, hr⟩ | ⟨p, pd, pd', hp, hr, hbef, haft, hslot⟩
    · exact .kept heq (hr.trans hroots) fun p hp => (hb p hp).trans (hframe p (habove p hp).1 (habove p hp).2)
    · refine .tree hp (hr.trans ?_)
      simp only [State.setRoot, hroots]
    · exact .link p pd pd' hp (hr.trans hroots) ((hframe p (habove p hp).1 (habove p hp).2).symm.trans hbef) haft hslot
  · rw [h.next, hnext, Ctx.splits, if_neg (by omega)]
    lia

/-- What was done to the nodes around the new sibling before it was handed up. -/
theorem SplitPost.prelude {touched touched' : NodeId → Prop} {s₁ s' : State}
    (hframe : ∀ x, x ∉ Ctx.ids c ++ (t.ids ++ u.ids) → s₁.node x = s.node x) (hnext : s₁.nextNode = s.nextNode)
    (hroots : s₁.root = s.root) (hrest : s₁.rest = s.rest) (hborders : KeepsBorders touched' s s₁)
    (habove : ∀ p, par = some p → p ∉ Ctx.ids c ++ (t.ids ++ u.ids))
    (h : SplitPost link dead touched s₁ s' ti par c t k u) :
    SplitPost link dead (fun x => touched' x ∨ touched x) s s' ti par c t k u := by
  refine ⟨hnext ▸ h.nodes, fun x hx hlt hpar => (h.frame x hx (hnext ▸ hlt) hpar).trans (hframe x hx),
    ?_, by rw [h.next, hnext],
    h.rest.trans hrest, hborders.trans h.borders (hnext ▸ Nat.le_refl _)⟩
  have habv := h.above
  rw [hnext] at habv
  rcases habv with ⟨heq, hr, hb⟩ | ⟨hp, hr⟩ | ⟨p, pd, pd', hp, hr, hbef, haft, hslot⟩
  · exact .kept heq (hr.trans hroots) fun p hp => (hb p hp).trans (hframe p (habove p hp))
  · refine .tree hp (hr.trans ?_)
    simp only [State.setRoot, hroots]
  · exact .link p pd pd' hp (hr.trans hroots) ((hframe p (habove p hp)).symm.trans hbef) haft hslot

/-- The interiors of a context in memory have at most 15 pivots. -/
theorem NodesOk.sized {n : NodeId} (h : NodesOk link dead s (Ctx.descs par true c n)) : Ctx.Sized c := by
  intro g hg
  suffices ∃ p root m, (g.id, ⟨p, root, .interior g.pivots (g.kids m)⟩) ∈ Ctx.descs par true c n by
    obtain ⟨p, root, m, hmem⟩ := this
    obtain ⟨nd, -, hok⟩ := h _ hmem
    exact hok.body.2.1
  clear h
  induction c generalizing n with
  | nil => simp at hg
  | cons f c ih =>
    rw [Ctx.descs]
    rcases List.mem_cons.mp hg with rfl | hg
    · exact ⟨_, _, n, List.mem_append_left _ List.mem_cons_self⟩
    · obtain ⟨p, root, m, hmem⟩ := ih (n := f.id) hg
      exact ⟨p, root, m, List.mem_append_right _ hmem⟩

/-- The identities after a split: those before it and the new interior. -/
theorem SplitPre.split_perm (hfull : f.pivots.length = 15) (m : NodeId) :
    (Ctx.ids c ++ ((f.split t k u m).1.ids ++ (f.split t k u m).2.2.ids)).Perm
      (m :: (Ctx.ids (f :: c) ++ (t.ids ++ u.ids))) := by
  refine ((Frame.split_ids hfull t k u m).append_left _).trans ?_
  refine List.Perm.trans ?_ (((Ctx.ids_cons f c).append_right _).cons _).symm
  rw [List.perm_iff_count]
  intro x
  simp only [List.count_append, List.count_cons]
  omega

/-- What stays true of the layer around a split interior. -/
theorem SplitPre.around (h : SplitPre link dead s ti par f c t k u pd) (hfull : f.pivots.length = 15) {s₁ : State}
    {l r : BTree} {ld rd : Node} (hh : SplitPre.Halves link dead s s₁ f t u pd l r ld rd)
    (hl : l = (f.split t k u s.nextNode).1) (hr : r = (f.split t k u s.nextNode).2.2) :
    (Ctx.ids c ++ (l.ids ++ r.ids)).Nodup ∧ (∀ x ∈ Ctx.ids c ++ (l.ids ++ r.ids), x < s₁.nextNode) ∧
    (∀ p, par = some p → p ∉ Ctx.ids c ++ (l.ids ++ r.ids) ∧ p < s₁.nextNode) ∧
    (∀ x, x ∉ Ctx.ids (f :: c) ++ (t.ids ++ u.ids) → x < s.nextNode → s₁.node x = s.node x) ∧
    Upper s₁ ti par (Ctx.rootId c f.id) := by
  have hperm := SplitPre.split_perm (c := c) (t := t) (k := k) (u := u) hfull s.nextNode
  rw [← hl, ← hr] at hperm
  have hframe : ∀ x, x ∉ Ctx.ids (f :: c) ++ (t.ids ++ u.ids) → x < s.nextNode → s₁.node x = s.node x :=
    fun x hx hlt => hh.frame x (fun hx' => hx (mem_ids hx')) hlt
  have hnext := hh.next
  refine ⟨hperm.nodup_iff.mpr (List.nodup_cons.mpr ⟨fun hm => absurd (h.lt _ hm) (Nat.lt_irrefl _), h.nodup⟩), ?_, ?_,
    hframe, ⟨fun hp => hh.roots ▸ h.upper.tree hp, fun p hp => ?_⟩⟩
  · intro x hx
    rcases List.mem_cons.mp (hperm.mem_iff.mp hx) with rfl | hx
    · rw [hnext]
      exact Nat.lt_succ_self _
    · have := h.lt x hx
      rw [hnext]
      lia
  · intro p hp
    obtain ⟨hp1, hp2⟩ := h.above p hp
    refine ⟨fun hx => ?_, by rw [hnext]; lia⟩
    rcases List.mem_cons.mp (hperm.mem_iff.mp hx) with rfl | hx
    · exact Nat.lt_irrefl _ hp2
    · exact hp1 hx
  · obtain ⟨nd, hn, hnd⟩ := h.upper.border p hp
    exact ⟨nd, (hframe p (h.above p hp).1 (h.above p hp).2).trans hn, hnd⟩

/-- The root of a layer is split: the new root goes under the root pointer or into a border. -/
theorem run_interiorSplit_root (h : SplitPre link dead s ti par f [] t k u pd) (hfull : f.pivots.length = 15) :
    ∃ s', (∀ fuel > 0, ∀ j, run (interiorSplit fuel ti (j + 1) f.id u.id k.slice k.length) s = some ((), s')) ∧
      SplitPost link dead (fun x => par = some x) s s' ti par [f] t k u := by
  obtain ⟨s₁, ld, rd, hrun, hh, hk'⟩ := h.halves hfull
  obtain ⟨hid, hid'⟩ := Frame.split_id hfull t k u s.nextNode
  obtain ⟨hnd, hlt, habove, hframe, hupper⟩ := h.around hfull hh rfl rfl
  simp only [Ctx.ids, Ctx.descs, List.map_nil, List.nil_append] at hnd hlt habove
  have hll := hlt _ (List.mem_append_left _ (BTree.id_mem_ids _))
  have hrl := hlt _ (List.mem_append_right _ (BTree.id_mem_ids _))
  have hne : (f.split t k u s.nextNode).1.id ≠ (f.split t k u s.nextNode).2.2.id := by
    rw [hid, hid']
    exact Nat.ne_of_lt (h.mem_lt List.mem_cons_self)
  have hpar : ld.parent = par := hh.parent.trans h.parent
  -- The root of the layer was split: the new root goes under the root pointer or a border.
  have hnew : ∃ s', (∀ fuel > 0, ∀ sp, run (interiorSplitParent fuel ti sp (f.split t k u s.nextNode).1.id
        (f.split t k u s.nextNode).2.2.id (f.split t k u s.nextNode).2.1.slice (f.split t k u s.nextNode).2.1.length) s₁ =
          some ((), s')) ∧
      NewRoot s₁ s' ti par (f.split t k u s.nextNode).1.id (f.split t k u s.nextNode).2.2.id ld rd
        (f.split t k u s.nextNode).2.1 := by
    cases hp : par with
    | none =>
      subst hp
      exact run_interiorSplitParent_tree hh.left.node hh.right.node hne hll hrl hpar (by rw [hid]; exact hupper.tree rfl)
    | some p =>
      subst hp
      obtain ⟨nd, hn, hk, hb, hd, hs, hlink⟩ := hupper.border p rfl
      obtain ⟨hp1, hp2⟩ := habove p rfl
      rw [List.mem_append, not_or] at hp1
      exact run_interiorSplitParent_border hh.left.node hh.right.node hne hll hrl hpar hn
        (fun he => hp1.1 (he ▸ BTree.id_mem_ids _)) (fun he => hp1.2 (he ▸ BTree.id_mem_ids _)) hp2 hk hb hd hs
        (by rw [hid]; exact hlink)
  obtain ⟨s', hrun', hpost⟩ := hnew
  refine ⟨s', fun fuel hf j => ?_, ?_⟩
  · rw [interiorSplit]
    refine (hrun fuel hf _).trans ?_
    have := hrun' fuel hf (interiorSplit fuel ti j)
    rwa [hid, hid'] at this
  · refine SplitPost.of_split hfull hframe hh.next hh.roots hh.rest hh.borders (fun x nd hn hk hlt ht => ?_) h.above
      (hpost.splitPost hh.left hh.right hk' hnd hlt habove)
    -- The halves of the interior are no borders of before.
    rcases ht with ht | ht | ht
    · exact ht
    · rw [ht, hid] at hn
      obtain rfl : nd = pd := Option.some.inj (hn.symm.trans h.node)
      exact absurd (hk.symm.trans h.members.1) (by decide)
    · rw [ht, hid'] at hlt
      exact absurd hlt (Nat.lt_irrefl _)

/-- An interior below another one is split: what is left is the split of the interior above, or an insert into it. -/
theorem run_interiorSplit_below {g : Frame} (h : SplitPre link dead s ti par f (g :: c) t k u pd)
    (hfull : f.pivots.length = 15) :
    ∃ s₂ l k' r gd, SplitPre link dead s₂ ti par g c l k' r gd ∧ NodesOk link dead s₂ (r.descs (some g.id) false) ∧
      (∀ fuel > 0, ∀ j, run (interiorSplit fuel ti (j + 1) f.id u.id k.slice k.length) s =
        run (if g.pivots.length = 15 then interiorSplit fuel ti j g.id r.id k'.slice k'.length
          else do
            interiorInsert fuel g.id r.id k'.slice k'.length
            versionUnlock fuel g.id) s₂) ∧
      ∀ s', SplitPost link dead (fun x => par = some x) s₂ s' ti par (g :: c) l k' r →
        SplitPost link dead (fun x => par = some x) s s' ti par (f :: g :: c) t k u := by
  obtain ⟨s₁, ld, rd, hrun, hh, hk'⟩ := h.halves hfull
  obtain ⟨hid, hid'⟩ := Frame.split_id hfull t k u s.nextNode
  obtain ⟨hnd, hlt, habove, hframe, hupper⟩ := h.around hfull hh rfl rfl
  have hflat := Frame.split_flat hfull t k u s.nextNode
  have hof : ∀ {s₂ s' : State},
    (∀ x, x ∉ Ctx.ids (f :: g :: c) ++ (t.ids ++ u.ids) → x < s.nextNode → s₂.node x = s.node x) →
      s₂.nextNode = s.nextNode + 1 → s₂.root = s.root → s₂.rest = s.rest → KeepsBorders (fun _ => False) s s₂ →
      SplitPost link dead (fun x => par = some x) s₂ s' ti par (g :: c) (f.split t k u s.nextNode).1
        (f.split t k u s.nextNode).2.1 (f.split t k u s.nextNode).2.2 →
      SplitPost link dead (fun x => par = some x) s s' ti par (f :: g :: c) t k u :=
    fun h1 h2 h3 h4 h5 h6 => SplitPost.of_split hfull h1 h2 h3 h4 h5 (fun _ _ _ _ _ ht => ht) h.above h6
  generalize f.split t k u s.nextNode = sp at *
  obtain ⟨l, k', r⟩ := sp
  simp only at hid hid' hh hk' hnd hlt habove hflat hof hrun
  have hfl : f.id ∈ Ctx.ids (f :: g :: c) := Ctx.id_mem_ids f (g :: c)
  -- The interior above, at rest.
  have houter : NodesOk link dead s₁ (Ctx.descs par true (g :: c) l.id) := by
    rw [hid]
    refine h.outer.frame fun p hp => ?_
    have hmem := Ctx.mem_ids_of_desc hp
    obtain ⟨h1, h2⟩ := Ctx.outer_ne h.nodup hmem
    refine hh.frame p.1 (fun hx => ?_) (h.lt _ (List.mem_append_left _
      ((Ctx.ids_cons f (g :: c)).mem_iff.mpr (List.mem_append_right _ hmem))))
    simp only [Frame.trees, Frame.ids, List.flatMap_append, List.flatMap_cons, List.flatMap_map, List.mem_cons,
      List.mem_append] at hx h1 h2
    tauto
  obtain ⟨gd, hgd, hgok⟩ := houter _ (by rw [Ctx.descs, Frame.descs]; exact List.mem_cons_self)
  have hgmem : g.id ∈ Ctx.ids (g :: c) := Ctx.id_mem_ids g c
  obtain ⟨-, hlr, hdis⟩ := List.nodup_append.mp hnd
  have hlr' : l.id ≠ r.id := (List.nodup_append.mp hlr).2.2 _ l.id_mem_ids _ r.id_mem_ids
  have hgl : g.id ≠ l.id := hdis _ hgmem _ (List.mem_append_left _ l.id_mem_ids)
  have hgr : g.id ≠ r.id := hdis _ hgmem _ (List.mem_append_right _ r.id_mem_ids)
  have hroot : ld.version.root = false := hh.leftRoot.trans h.root
  have hroot' : rd.version.root = false := hh.rightRoot.trans h.root
  have hpar : ld.parent = some g.id := hh.parent.trans h.parent
  have hsorted : (Ctx.flatLeft (g :: c) ++ (l.flat ++ k'.mark :: r.flat) ++ Ctx.flatRight (g :: c)).Pairwise (· < ·) := by
    rw [hflat]
    simpa [Ctx.flatLeft, Ctx.flatRight] using h.sorted
  obtain ⟨hpre, hnew⟩ := @SplitPre.of_held _ _ _ _ _ _ _ k' _ (s₁.handOver l.id r.id g.id (some g.id) ld rd gd) _ _ _
    _ _ _ _ houter hgd hh.left hh.right
    (handOver_parent hgl hgr) (handOver_left hlr')
    ⟨⟨hpar, (Version.unlocked_root _).trans hroot, hh.left.body,
      hh.left.members.mapVersion (Version.unlocked_border _) (Version.unlocked_deleted _)⟩, Version.unlocked_stable _⟩
    handOver_right
    ⟨⟨rfl, (Version.unlocked_root _).trans hroot', hh.right.body,
      (membersOk_setParent.mpr hh.right.members).mapVersion (Version.unlocked_border _) (Version.unlocked_deleted _)⟩,
      Version.unlocked_stable _⟩
    (fun x h1 h2 h3 => handOver_frame h1 h2 h3) rfl rfl hk' hsorted hnd hlt hupper habove
  have hparent := fun fuel (hf : 0 < fuel) sp => @run_interiorSplitParent_interior _ ti _ _ _ _ _ _ k' _ sp
    hf hh.left.node
    hh.right.node hlr' hpar hgd hgl hgr hgok.members.1 hgok.members.2.1 hgok.members.2.2.1 hgok.stable
  have hkeys : gd.nKeys = g.pivots.length := nKeys_of_members hgok.members
  have hborders : KeepsBorders (fun _ => False) s (s₁.handOver l.id r.id g.id (some g.id) ld rd gd) := by
    refine (hh.borders.trans (keepsBorders_handOver id hh.left.node hh.right.node hgd hlr' hgl hgr)
      (by rw [hh.next]; lia)).mono fun x nd hn hk hlt ht => ?_
    rcases ht with ht | rfl | rfl | rfl
    · exact ht
    · rw [hid] at hn
      obtain rfl : nd = pd := Option.some.inj (hn.symm.trans h.node)
      exact absurd (hk.symm.trans h.members.1) (by decide)
    · rw [hid'] at hlt
      exact absurd hlt (Nat.lt_irrefl _)
    · obtain ⟨gd', hn', hok⟩ := h.outer _ (by rw [Ctx.descs, Frame.descs]; exact List.mem_cons_self)
      obtain rfl : nd = gd' := Option.some.inj (hn.symm.trans hn')
      exact absurd (hk.symm.trans hok.members.1) (by decide)
  have hframe' : ∀ x, x ∉ Ctx.ids (f :: g :: c) ++ (t.ids ++ u.ids) → x < s.nextNode →
      (s₁.handOver l.id r.id g.id (some g.id) ld rd gd).node x = s.node x := by
    intro x hx hlt
    refine (handOver_frame (fun he => hx ?_) (fun he => hx ?_) fun he => ?_).trans (hframe x hx hlt)
    · rw [he]
      exact List.mem_append_left _ ((Ctx.ids_cons f (g :: c)).mem_iff.mpr (List.mem_append_right _ hgmem))
    · rw [he, hid]
      exact List.mem_append_left _ hfl
    · rw [he, hid'] at hlt
      exact Nat.lt_irrefl _ hlt
  refine ⟨_, l, k', r, _, hpre, hnew, fun fuel hf j => ?_, fun s' => hof hframe' hh.next hh.roots hh.rest hborders⟩
  rw [interiorSplit]
  refine (hrun fuel hf _).trans ?_
  rw [← hid, ← hid']
  refine (hparent fuel hf _).trans ?_
  rw [hkeys]
  rfl

/-- `interior_split` on a full interior, through all full interiors above it. -/
theorem run_interiorSplit : ∀ {c : Ctx} {s : State} {f : Frame} {t u : BTree} {k : KeyTuple} {pd : Node},
    SplitPre link dead s ti par f c t k u pd → f.pivots.length = 15 →
    ∃ s', (∃ N, ∀ fuel j, N ≤ fuel → N ≤ j →
        run (interiorSplit fuel ti j f.id u.id k.slice k.length) s = some ((), s')) ∧
      SplitPost link dead (fun x => par = some x) s s' ti par (f :: c) t k u := by
  intro c
  induction c with
  | nil =>
    intro s f t u k pd h hfull
    obtain ⟨s', hs', hpost⟩ := run_interiorSplit_root h hfull
    refine ⟨s', ⟨1, fun fuel j hf hj => ?_⟩, hpost⟩
    obtain ⟨j, rfl⟩ : ∃ i, j = i + 1 := ⟨j - 1, by omega⟩
    exact hs' fuel hf j
  | cons g c ih =>
    intro s f t u k pd h hfull
    obtain ⟨s₂, l, k', r, gd, hpre, hnew, hrun, hpost⟩ := run_interiorSplit_below h hfull
    by_cases hgfull : g.pivots.length = 15
    · obtain ⟨s', ⟨N, hN⟩, hpost'⟩ := ih hpre hgfull
      refine ⟨s', ⟨N + 1, fun fuel j hf hj => ?_⟩, hpost s' hpost'⟩
      obtain ⟨j, rfl⟩ : ∃ i, j = i + 1 := ⟨j - 1, by omega⟩
      rw [hrun fuel (by omega), if_pos hgfull]
      exact hN fuel j (by omega) (by omega)
    · obtain ⟨s', hs', hpost'⟩ := hpre.settle (Nat.lt_of_le_of_ne hpre.body.2.1 hgfull) hnew
      refine ⟨s', ⟨1, fun fuel j hf hj => ?_⟩, hpost s' hpost'⟩
      obtain ⟨j, rfl⟩ : ∃ i, j = i + 1 := ⟨j - 1, by omega⟩
      rw [hrun fuel hf, if_neg hgfull]
      exact hs' fuel hf

end
end Yakushima
