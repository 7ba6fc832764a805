import Yakushima.Theorems.PermutationList
import Yakushima.Theorems.Run
import Yakushima.Theorems.Tree

/-! # Layers in memory

`LayerOk` says that the memory holds a given tree as one layer: every node of the tree is there with its
parent, flags and members, the marks are in order, and the leaf chain links the borders from left to
right. -/

namespace Yakushima
open M Permutation

/-! ### Members of nodes as lists -/

namespace Node

def key (nd : Node) (i : Nat) : KeyTuple := ⟨nd.keySlice i, nd.keyLength i⟩

def slot (nd : Node) (i : Nat) : KeyTuple × LinkOrValue := (nd.key i, nd.lv i)

/-- The live slots of a border in key order. -/
def slots (nd : Node) : List (KeyTuple × LinkOrValue) := (slotsOf nd.permutation).map nd.slot

/-- The pivots of an interior. -/
def pivots (nd : Node) : List KeyTuple := (List.range nd.nKeys).map nd.key

/-- The children of an interior. -/
def kids (nd : Node) : List Ptr := (List.range (nd.nKeys + 1)).map nd.child

theorem pivots_length (nd : Node) : nd.pivots.length = nd.nKeys := by simp [pivots]

theorem pivots_getElem? (nd : Node) (i : Nat) : nd.pivots[i]? = if i < nd.nKeys then some (nd.key i) else none := by
  simp only [pivots, List.getElem?_map]
  by_cases h : i < nd.nKeys <;> simp [h]

theorem kids_getElem? (nd : Node) (i : Nat) : nd.kids[i]? = if i < nd.nKeys + 1 then some (nd.child i) else none := by
  simp only [kids, List.getElem?_map]
  by_cases h : i < nd.nKeys + 1 <;> simp [h]

theorem slots_length (nd : Node) : nd.slots.length = getCnk nd.permutation := by simp [slots, slotsOf_length]

end Node

/-- The slot of an entry, when the layer behind slice `sl` has the root `link sl`. -/
def Entry.slot (link : KeySlice → Ptr) (e : Entry) : KeyTuple × LinkOrValue :=
  (e.key, match e.content with
    | .value v => .value v
    | .layer => match link e.key.slice with
      | some n => .link n
      | none => .empty)

/-- The members that a border or an interior may have in any layer. -/
def Body.Ok : Body → Prop
  | .border es => es.length ≤ 15 ∧ ∀ e ∈ es, e.key.Encoded ∧ (e.content = .layer ↔ e.key.length = 9)
  | .interior pivots _ => 1 ≤ pivots.length ∧ pivots.length ≤ 15 ∧ ∀ k ∈ pivots, k.Encoded ∧ k.length ≠ 0

/-- A slot outside the permutation owns nothing: it is cleared, or left with an inline word or with the
    link of a node that is gone. -/
def Unowned (dead : NodeId → Prop) : LinkOrValue → Prop
  | .empty => True
  | .link m => dead m
  | .value (.word _) => True
  | .value (.heap _) => False

/-- The members of a node are those of a body. -/
def MembersOk (link : KeySlice → Ptr) (dead : NodeId → Prop) (nd : Node) : Body → Prop
  | .border es => nd.kind = .border ∧ nd.version.border = true ∧ (es ≠ [] → nd.version.deleted = false) ∧
      (slotsOf nd.permutation).Nodup ∧ (∀ i ∈ slotsOf nd.permutation, i < 15) ∧
      nd.slots = es.map (Entry.slot link) ∧ ∀ i < 15, i ∉ slotsOf nd.permutation → Unowned dead (nd.lv i)
  | .interior pivots kids => nd.kind = .interior ∧ nd.version.border = false ∧ nd.version.deleted = false ∧
      nd.pivots = pivots ∧ nd.kids = kids.map some

/-- A node holds what is asked of it. -/
structure NodeFits (link : KeySlice → Ptr) (dead : NodeId → Prop) (nd : Node) (d : Desc) : Prop where
  parent : nd.parent = d.parent
  root : nd.version.root = d.root
  body : d.body.Ok
  members : MembersOk link dead nd d.body

/-- A node holds what is asked of it, and no operation is at work on it. -/
structure NodeOk (link : KeySlice → Ptr) (dead : NodeId → Prop) (nd : Node) (d : Desc) : Prop
    extends NodeFits link dead nd d where
  stable : nd.version.stable = true

/-- The leaf chain runs through the borders of a list, from `p` before it to `q` after it. -/
def Chain (s : State) (p : Ptr) : List NodeId → Ptr → Prop
  | [], _ => True
  | b :: bs, q => (∃ nd, s.node b = some nd ∧ nd.prev = p ∧ nd.next = bs.head?.or q) ∧ Chain s (some b) bs q

/-- The memory holds the layer `t` under the parent `par`. -/
structure LayerOk (s : State) (par : Ptr) (link : KeySlice → Ptr) (dead : NodeId → Prop) (t : BTree) : Prop where
  nodes : ∀ p ∈ t.descs par true, ∃ nd, s.node p.1 = some nd ∧ NodeOk link dead nd p.2
  nodup : t.ids.Nodup
  sorted : t.flat.Pairwise (· < ·)
  nonempty : ∀ b ∈ t.borders, b.2 = [] → t = .border b.1 []
  chain : Chain s none (t.borders.map (·.1)) none

theorem Version.stable_iff {v : Version} :
    v.stable = true ↔ v.insertingDeleting = false ∧ v.locked = false ∧ v.splitting = false := by
  simp [Version.stable, and_assoc]

/-! ### The leaf chain -/

theorem chain_append {s : State} {p q : Ptr} {l₁ l₂ : List NodeId} :
    Chain s p (l₁ ++ l₂) q ↔ Chain s p l₁ (l₂.head?.or q) ∧ Chain s (l₁.getLast?.or p) l₂ q := by
  induction l₁ generalizing p with
  | nil => simp [Chain]
  | cons b l ih =>
    have hl : (b :: l).getLast?.or p = l.getLast?.or (some b) := by
      cases l with
      | nil => rfl
      | cons c l => simp [List.getLast?_eq_some_getLast]
    have hh : (l ++ l₂).head?.or q = l.head?.or (l₂.head?.or q) := by cases l <;> simp
    simp only [List.cons_append, Chain, ih, hl, hh, and_assoc]

/-- A chain reads only the chain members of its nodes. -/
theorem Chain.congr {s s' : State} {p q : Ptr} {l : List NodeId} (h : Chain s p l q)
    (hs : ∀ b ∈ l, ∀ nd, s.node b = some nd → ∃ nd', s'.node b = some nd' ∧ nd'.prev = nd.prev ∧ nd'.next = nd.next) :
    Chain s' p l q := by
  induction l generalizing p with
  | nil => trivial
  | cons b l ih =>
    obtain ⟨⟨nd, hn, hp, hq⟩, hc⟩ := h
    obtain ⟨nd', hn', hp', hq'⟩ := hs b List.mem_cons_self nd hn
    exact ⟨⟨nd', hn', hp'.trans hp, hq'.trans hq⟩, ih hc fun c hc' => hs c (List.mem_cons_of_mem _ hc')⟩

/-- A new border right after `b`. -/
theorem Chain.insertAfter {s s' : State} {L R : List NodeId} {b nb : NodeId} {bd bd' nbd : Node}
    (h : Chain s none (L ++ b :: R) none) (hnd : (L ++ b :: R).Nodup)
    (hb : s.node b = some bd) (hb' : s'.node b = some bd') (hbp : bd'.prev = bd.prev) (hbn : bd'.next = some nb)
    (hnb : s'.node nb = some nbd) (hnp : nbd.prev = some b) (hnn : nbd.next = bd.next)
    (hR : ∀ x, R.head? = some x → ∃ nd nd', s.node x = some nd ∧ s'.node x = some nd' ∧ nd'.prev = some nb ∧
      nd'.next = nd.next)
    (ho : ∀ x ∈ L ++ R, R.head? ≠ some x → ∀ nd, s.node x = some nd →
      ∃ nd', s'.node x = some nd' ∧ nd'.prev = nd.prev ∧ nd'.next = nd.next) :
    Chain s' none (L ++ b :: nb :: R) none := by
  obtain ⟨hL, ⟨nd, hn, hp, hq⟩, hR'⟩ := chain_append.mp h
  obtain rfl : nd = bd := Option.some.inj (hn.symm.trans hb)
  have hndR : R.Nodup := (List.nodup_cons.mp (List.nodup_append.mp hnd).2.1).2
  refine chain_append.mpr ⟨hL.congr fun x hx nd hxn => ?_, ⟨bd', hb', hbp.trans hp, by simp [hbn]⟩,
    ⟨nbd, hnb, hnp, hnn.trans hq⟩, ?_⟩
  · refine ho x (List.mem_append_left _ hx) ?_ nd hxn
    intro hh
    exact (List.nodup_append.mp hnd).2.2 x hx x (List.mem_cons_of_mem _ (List.mem_of_mem_head? hh)) rfl
  · cases R with
    | nil => trivial
    | cons x R =>
      obtain ⟨⟨nd, hxn, -, hxq⟩, hR''⟩ := hR'
      obtain ⟨nd1, nd', hx, hx', hpx, hqx⟩ := hR x rfl
      obtain rfl : nd = nd1 := Option.some.inj (hxn.symm.trans hx)
      refine ⟨⟨nd', hx', hpx, hqx.trans hxq⟩, hR''.congr fun y hy ndy hyn => ?_⟩
      refine ho y (by simp [hy]) ?_ ndy hyn
      rintro ⟨⟩
      exact (List.nodup_cons.mp hndR).1 hy

/-- The border `b` leaves the chain. -/
theorem Chain.remove {s s' : State} {L R : List NodeId} {b : NodeId}
    (h : Chain s none (L ++ b :: R) none) (hnd : (L ++ b :: R).Nodup)
    (hs : ∀ x ∈ L ++ R, ∀ nd, s.node x = some nd → ∃ nd', s'.node x = some nd' ∧
      nd'.prev = (if R.head? = some x then L.getLast? else nd.prev) ∧
      nd'.next = (if L.getLast? = some x then R.head? else nd.next)) :
    Chain s' none (L ++ R) none := by
  obtain ⟨hL, -, hR⟩ := chain_append.mp h
  have hdis := (List.nodup_append.mp hnd).2.2
  have hndR : R.Nodup := (List.nodup_cons.mp (List.nodup_append.mp hnd).2.1).2
  refine chain_append.mpr ⟨?_, ?_⟩
  · have hstep : ∀ (l' l : List NodeId) (p : Ptr), l' ++ l = L → Chain s p l (some b) →
        Chain s' p l (R.head?.or none) := by
      intro l' l p hl hc
      induction l generalizing l' p with
      | nil => trivial
      | cons x l ih =>
        obtain ⟨⟨nd, hx, hp, hq⟩, hc⟩ := hc
        have hxL : x ∈ L := hl ▸ by simp
        obtain ⟨nd', hx', hp', hq'⟩ := hs x (List.mem_append_left _ hxL) nd hx
        have hnR : R.head? ≠ some x := fun hh =>
          hdis x hxL x (List.mem_cons_of_mem _ (List.mem_of_mem_head? hh)) rfl
        rw [if_neg hnR] at hp'
        refine ⟨⟨nd', hx', hp'.trans hp, hq'.trans ?_⟩, ih (l' ++ [x]) (some x) (by simpa using hl) hc⟩
        cases l with
        | nil =>
          have : L.getLast? = some x := by rw [← hl]; simp
          simp [this]
        | cons y l =>
          have hlast : L.getLast? ≠ some x := by
            rw [← hl]
            have hndL := (List.nodup_append.mp hnd).1
            rw [← hl, List.nodup_append, List.nodup_cons] at hndL
            intro hh
            have hmem : x ∈ y :: l := by
              rw [List.getLast?_append] at hh
              simp only [List.getLast?_cons_cons] at hh
              cases hg : (y :: l).getLast? with
              | none => simp at hg
              | some z =>
                rw [hg] at hh
                simp only [Option.some_or, Option.some.injEq] at hh
                exact hh ▸ List.mem_of_getLast? hg
            exact hndL.2.1.1 hmem
          rw [if_neg hlast, hq]
          rfl
    exact hstep [] L none rfl hL
  · cases R with
    | nil => trivial
    | cons x R =>
      obtain ⟨⟨nd, hx, hp, hq⟩, hR⟩ := hR
      obtain ⟨nd', hx', hp', hq'⟩ := hs x (by simp) nd hx
      have hxL : ∀ y ∈ x :: R, L.getLast? ≠ some y := fun y hy hh =>
        hdis y (List.mem_of_getLast? hh) y (List.mem_cons_of_mem _ hy) rfl
      rw [if_pos List.head?_cons] at hp'
      rw [if_neg (hxL x List.mem_cons_self)] at hq'
      refine ⟨⟨nd', hx', by simpa using hp', hq'.trans hq⟩, hR.congr fun y hy ndy hyn => ?_⟩
      obtain ⟨ndy', hy', hpy, hqy⟩ := hs y (by simp [hy]) ndy hyn
      have hne : (x :: R).head? ≠ some y := by
        rintro ⟨⟩
        exact (List.nodup_cons.mp hndR).1 hy
      rw [if_neg hne] at hpy
      rw [if_neg (hxL y (List.mem_cons_of_mem _ hy))] at hqy
      exact ⟨ndy', hy', hpy, hqy⟩

/-! ### Nodes that hold the same members -/

section
variable {link link' : KeySlice → Ptr} {dead dead' : NodeId → Prop} {nd : Node} {b : Body} {d : Desc}

/-- The slices of the layer entries. -/
def Body.HasLayer (sl : KeySlice) : Body → Prop
  | .border es => ∃ e ∈ es, e.key.slice = sl ∧ e.content = .layer
  | .interior _ _ => False

theorem Entry.slot_congr {e : Entry} (h : e.content = .layer → link' e.key.slice = link e.key.slice) :
    e.slot link' = e.slot link := by
  unfold slot
  cases hc : e.content with
  | value v => rfl
  | layer => rw [h hc]

theorem Unowned.mono (hd : ∀ m, dead m → dead' m) : ∀ {lv : LinkOrValue}, Unowned dead lv → Unowned dead' lv
  | .empty, h => h
  | .link _, h => hd _ h
  | .value (.word _), h => h
  | .value (.heap _), h => h

/-- More nodes may be gone, and only the roots of the layers behind the entries matter. -/
theorem MembersOk.mono (h : MembersOk link dead nd b) (hd : ∀ m, dead m → dead' m)
    (hl : ∀ sl, b.HasLayer sl → link' sl = link sl) : MembersOk link' dead' nd b := by
  cases b with
  | interior pivots kids => exact h
  | border es =>
    obtain ⟨h1, h2, h3, h4, h5, h6, h7⟩ := h
    refine ⟨h1, h2, h3, h4, h5, h6.trans (List.map_congr_left fun e he => ?_), fun i hi hni => (h7 i hi hni).mono hd⟩
    exact (Entry.slot_congr fun hc => hl _ ⟨e, he, rfl, hc⟩).symm

theorem NodeOk.mono (h : NodeOk link dead nd d) (hd : ∀ m, dead m → dead' m)
    (hl : ∀ sl, d.body.HasLayer sl → link' sl = link sl) : NodeOk link' dead' nd d :=
  ⟨⟨h.parent, h.root, h.body, h.members.mono hd hl⟩, h.stable⟩

theorem membersOk_setParent {p : Ptr} : MembersOk link dead (nd.set .parent p) b ↔ MembersOk link dead nd b := by
  cases b <;> exact Iff.rfl

theorem membersOk_setPrev {p : Ptr} : MembersOk link dead (nd.set .prev p) b ↔ MembersOk link dead nd b := by
  cases b <;> exact Iff.rfl

theorem membersOk_setNext {p : Ptr} : MembersOk link dead (nd.set .next p) b ↔ MembersOk link dead nd b := by
  cases b <;> exact Iff.rfl

theorem MembersOk.mapVersion {f : Version → Version} (h : MembersOk link dead nd b)
    (hb : (f nd.version).border = nd.version.border) (hd : (f nd.version).deleted = nd.version.deleted) :
    MembersOk link dead (nd.mapVersion f) b := by
  cases b with
  | border es =>
    obtain ⟨h1, h2, h3, h4⟩ := h
    exact ⟨h1, hb.trans h2, fun he => hd.trans (h3 he), h4⟩
  | interior pivots kids =>
    obtain ⟨h1, h2, h3, h4⟩ := h
    exact ⟨h1, hb.trans h2, hd.trans h3, h4⟩

theorem NodeOk.reparent (h : NodeOk link dead nd d) (p : Ptr) :
    NodeOk link dead (nd.set .parent p) { d with parent := p } :=
  ⟨⟨rfl, h.root, h.body, membersOk_setParent.mpr h.members⟩, h.stable⟩

theorem NodeOk.setPrev (h : NodeOk link dead nd d) (p : Ptr) : NodeOk link dead (nd.set .prev p) d :=
  ⟨⟨h.parent, h.root, h.body, membersOk_setPrev.mpr h.members⟩, h.stable⟩

theorem NodeOk.setNext (h : NodeOk link dead nd d) (p : Ptr) : NodeOk link dead (nd.set .next p) d :=
  ⟨⟨h.parent, h.root, h.body, membersOk_setNext.mpr h.members⟩, h.stable⟩

end

namespace Version

@[simp] theorem unlocked_stable (v : Version) : v.unlocked.stable = true := by
  unfold unlocked stable setLocked setSplitting setInsertingDeleting incVsplit incVinsertDelete
  cases h1 : v.insertingDeleting <;> cases h2 : v.splitting <;> simp [h1, h2]

@[simp] theorem unlocked_root (v : Version) : v.unlocked.root = v.root := by
  unfold unlocked setLocked setSplitting setInsertingDeleting incVsplit incVinsertDelete
  cases h1 : v.insertingDeleting <;> cases h2 : v.splitting <;> simp [h2]

@[simp] theorem unlocked_border (v : Version) : v.unlocked.border = v.border := by
  unfold unlocked setLocked setSplitting setInsertingDeleting incVsplit incVinsertDelete
  cases h1 : v.insertingDeleting <;> cases h2 : v.splitting <;> simp [h2]

@[simp] theorem unlocked_deleted (v : Version) : v.unlocked.deleted = v.deleted := by
  unfold unlocked setLocked setSplitting setInsertingDeleting incVsplit incVinsertDelete
  cases h1 : v.insertingDeleting <;> cases h2 : v.splitting <;> simp [h2]

end Version

/-! ### Nodes of a layer -/

/-- Every node of a list is there and holds what is asked of it. -/
def NodesOk (link : KeySlice → Ptr) (dead : NodeId → Prop) (s : State) (l : List (NodeId × Desc)) : Prop :=
  ∀ p ∈ l, ∃ nd, s.node p.1 = some nd ∧ NodeOk link dead nd p.2

namespace NodesOk
variable {link link' : KeySlice → Ptr} {dead dead' : NodeId → Prop} {s s' : State} {l l' : List (NodeId × Desc)}

theorem mono_left (h : NodesOk link dead s l) (hl : ∀ p ∈ l', p ∈ l) : NodesOk link dead s l' := fun p hp => h p (hl p hp)

theorem append (h : NodesOk link dead s l) (h' : NodesOk link dead s l') : NodesOk link dead s (l ++ l') := by
  intro p hp
  rcases List.mem_append.mp hp with hp | hp
  · exact h p hp
  · exact h' p hp

theorem frame (h : NodesOk link dead s l) (hs : ∀ p ∈ l, s'.node p.1 = s.node p.1) : NodesOk link dead s' l := by
  intro p hp
  obtain ⟨nd, hn, hok⟩ := h p hp
  exact ⟨nd, (hs p hp).trans hn, hok⟩

theorem mono (h : NodesOk link dead s l) (hd : ∀ m, dead m → dead' m)
    (hl : ∀ p ∈ l, ∀ sl, p.2.body.HasLayer sl → link' sl = link sl) : NodesOk link' dead' s l := by
  intro p hp
  obtain ⟨nd, hn, hok⟩ := h p hp
  exact ⟨nd, hn, hok.mono hd (hl p hp)⟩

/-- A tree whose root gets another parent. -/
theorem reparent {t : BTree} {p q : Ptr} {root : Bool} {nd : Node} (h : NodesOk link dead s (t.descs p root))
    (hnd : t.ids.Nodup) (hn : s.node t.id = some nd) (hn' : s'.node t.id = some (nd.set .parent q))
    (hs : ∀ m ∈ t.ids, m ≠ t.id → s'.node m = s.node m) : NodesOk link dead s' (t.descs q root) := by
  intro x hx
  rw [BTree.descs_eq] at hx h
  rcases List.mem_cons.mp hx with rfl | hx
  · obtain ⟨nd', hnd', hok⟩ := h _ List.mem_cons_self
    obtain rfl : nd' = nd := Option.some.inj (hnd'.symm.trans hn)
    exact ⟨_, hn', hok.reparent q⟩
  · obtain ⟨nd', hnd', hok⟩ := h x (List.mem_cons_of_mem _ hx)
    have hmem : x.1 ∈ t.inner.map (·.1) := List.mem_map.mpr ⟨x, hx, rfl⟩
    rw [BTree.ids, BTree.descs_eq, List.map_cons, List.nodup_cons] at hnd
    refine ⟨nd', (hs x.1 ?_ ?_).trans hnd', hok⟩
    · rw [BTree.ids, BTree.descs_eq, List.map_cons]
      exact List.mem_cons_of_mem _ hmem
    · intro h
      exact hnd.1 (h ▸ hmem)

end NodesOk

/-- The layer has an entry for the layer behind a slice. -/
def BTree.HasLayer (t : BTree) (sl : KeySlice) : Prop := ∃ e ∈ t.entries, e.key.slice = sl ∧ e.content = .layer

theorem BTree.hasLayer_of_desc {t : BTree} {par : Ptr} {root : Bool} {p : NodeId × Desc} {sl : KeySlice}
    (hp : p ∈ t.descs par root) (h : p.2.body.HasLayer sl) : t.HasLayer sl := by
  obtain ⟨n, q, rt, b⟩ := p
  cases b with
  | interior pivots kids => exact h.elim
  | border es =>
    obtain ⟨e, he, h⟩ := h
    exact ⟨e, BTree.mem_entries.mpr ⟨n, es, BTree.desc_border hp, he⟩, h⟩

namespace LayerOk
variable {s s' : State} {par : Ptr} {link link' : KeySlice → Ptr} {dead dead' : NodeId → Prop} {t : BTree}

theorem nodesOk (h : LayerOk s par link dead t) : NodesOk link dead s (t.descs par true) := h.nodes

/-- A layer whose nodes are not touched. -/
theorem frame (h : LayerOk s par link dead t) (hs : ∀ n ∈ t.ids, s'.node n = s.node n)
    (hd : ∀ m, dead m → dead' m) (hl : ∀ sl, t.HasLayer sl → link' sl = link sl) : LayerOk s' par link' dead' t where
  nodes := (h.nodesOk.mono hd fun p hp sl hsl => hl sl (BTree.hasLayer_of_desc hp hsl)).frame fun p hp =>
    hs p.1 (BTree.mem_ids_of_desc hp)
  nodup := h.nodup
  sorted := h.sorted
  nonempty := h.nonempty
  chain := h.chain.congr fun b hb nd hn => by
    obtain ⟨⟨i, es⟩, hi, rfl⟩ := List.mem_map.mp hb
    exact ⟨nd, (hs i (BTree.border_mem_ids hi)).trans hn, rfl, rfl⟩

/-- A layer whose root gets another parent. -/
theorem reparent {q : Ptr} {nd : Node} (h : LayerOk s par link dead t) (hn : s.node t.id = some nd)
    (hn' : s'.node t.id = some (nd.set .parent q)) (hs : ∀ m ∈ t.ids, m ≠ t.id → s'.node m = s.node m) :
    LayerOk s' q link dead t where
  nodes := h.nodesOk.reparent h.nodup hn hn' hs
  nodup := h.nodup
  sorted := h.sorted
  nonempty := h.nonempty
  chain := h.chain.congr fun b hb bd hbn => by
    obtain ⟨⟨i, es⟩, hi, rfl⟩ := List.mem_map.mp hb
    by_cases hit : i = t.id
    · subst hit
      obtain rfl : bd = nd := Option.some.inj (hbn.symm.trans hn)
      exact ⟨_, hn', rfl, rfl⟩
    · exact ⟨bd, (hs i (BTree.border_mem_ids hi) hit).trans hbn, rfl, rfl⟩

/-- The node in a context. -/
theorem node_at {c : Ctx} {u : BTree} (h : LayerOk s par link dead (Ctx.plug c u)) :
    ∃ nd, s.node u.id = some nd ∧ NodeOk link dead nd ⟨Ctx.parent par c, Ctx.isRoot true c, u.body⟩ :=
  h.nodes _ (Ctx.mem_descs_plug par true c u)

/-- The interior around the hole of a context. -/
theorem frame_at {c : Ctx} {f : Frame} {u : BTree} (h : LayerOk s par link dead (Ctx.plug (f :: c) u)) :
    ∃ nd, s.node f.id = some nd ∧
      NodeOk link dead nd ⟨Ctx.parent par c, Ctx.isRoot true c, .interior f.pivots (f.kids u.id)⟩ :=
  h.nodes (f.id, _) (Ctx.mem_plug_descs.mpr (Or.inl (by simp [Ctx.descs, Frame.descs])))

/-- A node below the root of its layer is not deleted. -/
theorem not_deleted {c : Ctx} {f : Frame} {u : BTree} {nd : Node} (h : LayerOk s par link dead (Ctx.plug (f :: c) u))
    (hn : s.node u.id = some nd) : nd.version.deleted = false := by
  obtain ⟨nd', hn', hok⟩ := h.node_at
  obtain rfl : nd' = nd := Option.some.inj (hn'.symm.trans hn)
  cases u with
  | interior i f r => exact hok.members.2.2.1
  | border b es =>
    refine hok.members.2.2.1 fun he => ?_
    have hb : (b, es) ∈ (Ctx.plug (f :: c) (.border b es)).borders := by
      rw [Ctx.plug_borders]
      simp [BTree.borders]
    exact Ctx.plug_cons_ne_border _ _ _ _ _ (h.nonempty _ hb he)

end LayerOk
end Yakushima
