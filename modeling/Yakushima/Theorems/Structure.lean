import Yakushima.Theorems.Refinement

/-! # The shape of a tree in memory

The structural invariant, said over the memory alone: the nodes of a layer are those that the children of
interiors lead to from its root, and the layers of a tree are those that the live slots of borders link to. -/

namespace Yakushima
open M Permutation

/-- `x` is in the part of a layer below `r`: the children of interiors lead to it. -/
inductive InLayer (s : State) (r : NodeId) : NodeId → Prop where
  | root : InLayer s r r
  | child {x y : NodeId} {nd : Node} {i : Nat} (h : InLayer s r x) (hn : s.node x = some nd) (hk : nd.kind = .interior)
      (hi : i ≤ nd.nKeys)
      (hc : nd.child i = some y) : InLayer s r y

/-- The roots of the layers of a tree, with whether the layer is the first one. -/
inductive LayerRoot (s : State) (ti : TreeId) : Bool → NodeId → Prop where
  | first {r : NodeId} (h : s.root ti = some r) : LayerRoot s ti true r
  | next {first : Bool} {r b m : NodeId} {nd : Node} {i : Nat} (h : LayerRoot s ti first r) (hb : InLayer s r b)
      (hn : s.node b = some nd)
      (hk : nd.kind = .border) (hi : i ∈ slotsOf nd.permutation) (hl : nd.lv i = .link m) : LayerRoot s ti false m

/-- The borders below a node from left to right. -/
inductive Traversal (s : State) : NodeId → List NodeId → Prop where
  | border {n : NodeId} {nd : Node} (hn : s.node n = some nd) (hk : nd.kind = .border) : Traversal s n [n]
  | interior {n : NodeId} {nd : Node} {c : Nat → NodeId} {l : Nat → List NodeId} (hn : s.node n = some nd)
      (hk : nd.kind = .interior)
      (hc : ∀ i ≤ nd.nKeys, nd.child i = some (c i)) (h : ∀ i ≤ nd.nKeys, Traversal s (c i) (l i)) :
      Traversal s n ((List.range (nd.nKeys + 1)).flatMap l)

/-- The shape of a border `b` of a layer. -/
structure BorderShape (s : State) (first : Bool) (b : NodeId) (nd : Node) : Prop where
  count : getCnk nd.permutation ≤ 15
  nodup : (slotsOf nd.permutation).Nodup
  bound : ∀ i ∈ slotsOf nd.permutation, i < 15
  sorted : ((slotsOf nd.permutation).map fun i => (nd.key i).code).Pairwise (· < ·)
  short : ∀ i ∈ slotsOf nd.permutation, nd.keyLength i ≤ 8 → (∃ v, nd.lv i = .value v) ∧
    ∀ x ∈ (nd.keySlice i).bytes.drop (nd.keyLength i), x = 0
  long : ∀ i ∈ slotsOf nd.permutation, 8 < nd.keyLength i → nd.keyLength i = 9 ∧ ∃ m md, nd.lv i = .link m ∧
    s.node m = some md ∧ md.parent = some b
  positive : first = false → ∀ i ∈ slotsOf nd.permutation, nd.keyLength i ≠ 0

/-- The shape of an interior `n` of a layer. -/
structure InteriorShape (s : State) (n : NodeId) (nd : Node) : Prop where
  count : 1 ≤ nd.nKeys ∧ nd.nKeys ≤ 15
  sorted : ((List.range nd.nKeys).map fun i => (nd.key i).code).Pairwise (· < ·)
  positive : ∀ i < nd.nKeys, nd.keyLength i ≠ 0
  children : ∀ i ≤ nd.nKeys, ∃ c cd, nd.child i = some c ∧ s.node c = some cd ∧ cd.parent = some n
  between : ∀ i ≤ nd.nKeys, ∀ c, nd.child i = some c → ∀ b bd, InLayer s c b → s.node b = some bd → bd.kind = .border →
    ∀ j ∈ slotsOf bd.permutation, (∀ p, i = p + 1 → (nd.key p).code ≤ (bd.key j).code) ∧
      (i < nd.nKeys → (bd.key j).code < (nd.key i).code)

/-- The structural invariant of a tree. -/
structure Structured (s : State) (ti : TreeId) : Prop where
  present : ∀ first r x, LayerRoot s ti first r → InLayer s r x → ∃ nd, s.node x = some nd
  borders : ∀ first r b nd, LayerRoot s ti first r → InLayer s r b → s.node b = some nd → nd.kind = .border →
    BorderShape s first b nd
  interiors : ∀ first r n nd, LayerRoot s ti first r → InLayer s r n → s.node n = some nd → nd.kind = .interior →
    InteriorShape s n nd
  chain : ∀ first r, LayerRoot s ti first r → ∃ l, Traversal s r l ∧ Chain s none l none
  filled : ∀ first r b nd, LayerRoot s ti first r → InLayer s r b → s.node b = some nd → nd.kind = .border →
    getCnk nd.permutation = 0 →
    s.root ti = some b

/-! ### Frames by position -/

theorem Frame.exists_spine : ∀ (i : Nat) (f : BTree) (r : List (KeyTuple × BTree)), i ≤ r.length →
    ∃ (l : List (BTree × KeyTuple)) (u : BTree) (r' : List (KeyTuple × BTree)), (spine l u).1 = f ∧
      (spine l u).2 ++ r' = r ∧ l.length = i := by
  intro i
  induction i with
  | zero => exact fun f r _ => ⟨[], f, r, rfl, rfl, rfl⟩
  | succ i ih =>
    intro f r hi
    cases r with
    | nil => simp at hi
    | cons x r =>
      obtain ⟨k, g⟩ := x
      obtain ⟨l, u, r', hf, hr, hl⟩ := ih g r (by simpa using hi)
      exact ⟨(f, k) :: l, u, r', rfl, by simp [spine, hf, hr], by simp [hl]⟩

/-- An interior is a frame around its child at a position. -/
theorem Frame.exists_plug_at {n : NodeId} {f : BTree} {r : List (KeyTuple × BTree)} {i : Nat} (hi : i ≤ r.length) :
    ∃ (fr : Frame) (u : BTree), BTree.interior n f r = fr.plug u ∧ fr.left.length = i := by
  obtain ⟨l, u, r', hf, hr, hl⟩ := Frame.exists_spine i f r hi
  exact ⟨⟨n, l, r'⟩, u, by rw [plug, hf, hr], hl⟩

theorem Ctx.plug_plug (c c' : Ctx) (u : BTree) : Ctx.plug c (Ctx.plug c' u) = Ctx.plug (c' ++ c) u := by
  induction c' generalizing u with
  | nil => rfl
  | cons f c' ih => exact ih (f.plug u)

section
variable {s : State} {ti : TreeId} {par : Ptr} {link : KeySlice → Ptr} {A : Forest} {dead : NodeId → Prop} {c : Ctx}
  {u : BTree} {x : NodeId} {nd : Node}

theorem LayerOk.node_eq (h : LayerOk s par link dead (Ctx.plug c u)) (hn : s.node u.id = some nd) :
    NodeOk link dead nd ⟨Ctx.parent par c, Ctx.isRoot true c, u.body⟩ := by
  obtain ⟨nd', hn', hok⟩ := h.node_at
  obtain rfl : nd' = nd := Option.some.inj (hn'.symm.trans hn)
  exact hok

/-- The child of an interior of a layer at a position. -/
theorem LayerOk.child_at (h : LayerOk s par link dead (Ctx.plug c u)) (hn : s.node u.id = some nd)
    (hk : nd.kind = .interior) {i : Nat} (hi : i ≤ nd.nKeys) : ∃ (fr : Frame) (w : BTree), u = fr.plug w ∧
    fr.left.length = i ∧ nd.child i = some w.id ∧ nd.pivots = fr.pivots := by
  have hok := h.node_eq hn
  cases u with
  | border b es => exact absurd (hk.symm.trans hok.members.1) (by simp)
  | interior n f r =>
    obtain ⟨-, -, -, hp, hkids⟩ := hok.members
    have hlen : nd.nKeys = r.length := by
      rw [← nd.pivots_length, hp]
      simp
    obtain ⟨fr, w, hplug, hl⟩ := Frame.exists_plug_at (n := n) (f := f) (r := r) (i := i) (by omega)
    have hbody := Frame.plug_body fr w
    rw [← hplug, BTree.body, Body.interior.injEq] at hbody
    refine ⟨fr, w, hplug, hl, ?_, hp.trans hbody.1⟩
    have hget := nd.kids_getElem? i
    rw [if_pos (by omega), hkids, hbody.2, List.getElem?_map, Frame.kids, List.getElem?_append_right (by simp [hl])] at hget
    simp only [List.length_map, hl, Nat.sub_self, List.getElem?_cons_zero, Option.map_some, Option.some.injEq] at hget
    exact hget.symm

/-- The nodes of a layer below a node are those of its subtree. -/
theorem LayerOk.inLayer (h : LayerOk s par link dead (Ctx.plug c u)) (hx : InLayer s u.id x) :
    ∃ c' w, u = Ctx.plug c' w ∧ w.id = x := by
  induction hx with
  | root => exact ⟨[], u, rfl, rfl⟩
  | child hx hn hk hi hc ih =>
    obtain ⟨c', w, rfl, rfl⟩ := ih
    rw [Ctx.plug_plug] at h
    obtain ⟨fr, v, rfl, -, hchild, -⟩ := h.child_at hn hk hi
    exact ⟨fr :: c', v, rfl, Option.some.inj (hchild.symm.trans hc)⟩

/-- Every node of a layer is below its root. -/
theorem LayerOk.inLayer_plug : ∀ {c : Ctx} {u : BTree}, LayerOk s par link dead (Ctx.plug c u) →
    InLayer s (Ctx.plug c u).id u.id
  | [], _, _ => .root
  | f :: c, u, h => by
    obtain ⟨nd, hn, hok⟩ := LayerOk.node_at (c := c) (u := f.plug u) h
    have hm := hok.members
    rw [Frame.plug_body] at hm
    obtain ⟨hk, -, -, -, hkids⟩ := hm
    have hlen : f.left.length < nd.nKeys + 1 := by
      have := congrArg List.length hkids
      simp only [Node.kids, Frame.kids, List.length_map, List.length_range, List.length_append, List.length_cons] at this
      omega
    refine .child (LayerOk.inLayer_plug (c := c) (u := f.plug u) h) hn hk (i := f.left.length) (by omega) ?_
    have hget := nd.kids_getElem? f.left.length
    rw [if_pos hlen, hkids, List.getElem?_map, Frame.kids, List.getElem?_append_right (by simp)] at hget
    simpa using hget.symm

theorem NodeFits.rank_of_mem {root : Bool} {es : List Entry} (h : NodeFits link dead nd ⟨par, root, .border es⟩) {i : Nat}
    (hi : i ∈ slotsOf nd.permutation) : ∃ e ∈ es, nd.slot i = e.slot link := by
  obtain ⟨r, hr⟩ := List.mem_iff_getElem?.mp hi
  obtain ⟨e, he, hs⟩ := rank_of_slot h hr
  exact ⟨e, List.mem_of_getElem? he, hs⟩

theorem Ctx.mem_borders {c : Ctx} {b : NodeId} {es : List Entry} : (b, es) ∈ (Ctx.plug c (.border b es)).borders := by
  rw [Ctx.plug_borders]
  simp [BTree.borders]

/-- The border of a layer at a node of that class. -/
theorem LayerOk.border_at (h : LayerOk s par link dead (Ctx.plug c u)) (hn : s.node u.id = some nd)
    (hk : nd.kind = .border) :
    ∃ es, u = .border u.id es := by
  have hok := h.node_eq hn
  cases u with
  | border b es => exact ⟨es, rfl⟩
  | interior n f r => exact absurd (hk.symm.trans hok.members.1) (by simp)

/-- The roots of the layers in memory are those of the forest. -/
theorem Holds.layerRoot (h : Holds s ti A dead) {first : Bool} {r : NodeId} (hr : LayerRoot s ti first r) :
    ∃ π t, A π = some t ∧ t.id = r ∧ (first = true ↔ π = []) := by
  induction hr with
  | first hr =>
    rw [h.root] at hr
    obtain ⟨t, ht, rfl⟩ := Option.map_eq_some_iff.mp hr
    exact ⟨[], t, ht, rfl, by simp⟩
  | next hr hb hn hk hi hl ih =>
    obtain ⟨π, t, ht, rfl, -⟩ := ih
    have hL := h.layers ht
    obtain ⟨c', w, rfl, rfl⟩ := LayerOk.inLayer (c := []) hL hb
    obtain ⟨es, hw⟩ := hL.border_at hn hk
    have hok := hL.node_eq hn
    rw [hw] at hok
    obtain ⟨e, he, hs⟩ := hok.toNodeFits.rank_of_mem hi
    obtain ⟨-, hlink⟩ := slot_link.mp ((congrArg Prod.snd hs).symm.trans hl)
    obtain ⟨v, hv, hid⟩ := Option.map_eq_some_iff.mp hlink
    exact ⟨_, v, hv, hid, by simp⟩

/-! ### What the forest gives -/

theorem KeyTuple.Encoded.padding {k : KeyTuple} (h : k.Encoded) : ∀ x ∈ k.slice.bytes.drop k.length, x = 0 := by
  have hz : k.slice.bytes.drop k.length = List.replicate (k.slice.bytes.drop k.length).length 0 :=
    beNat_inj (by simp) (by rw [h.padded, beNat_replicate_zero])
  intro x hx
  rw [hz] at hx
  exact (List.mem_replicate.mp hx).2

/-- The entries of a border are in order. -/
theorem LayerOk.codes_sorted {b : NodeId} {es : List Entry} (h : LayerOk s par link dead (Ctx.plug c (.border b es))) :
    (es.map fun e => e.key.code).Pairwise (· < ·) := by
  have hes : (es.map Entry.mark).Pairwise (· < ·) :=
    (List.pairwise_append.mp (List.pairwise_append.mp h.border_sorted).1).2.1
  rw [List.pairwise_map] at hes ⊢
  refine hes.imp fun {x y} hxy => ?_
  simp only [Entry.mark] at hxy
  omega

theorem Holds.borderShape (h : Holds s ti A dead) {π : Path} {b : NodeId} {es : List Entry} {first : Bool}
    (ht : A π = some (Ctx.plug c (.border b es))) (hn : s.node b = some nd) (hf : first = true ↔ π = []) :
    BorderShape s first b nd := by
  have hL := h.layers ht
  have hok := hL.node_eq (u := .border b es) hn
  have hb : (b, es) ∈ (Ctx.plug c (.border b es)).borders := Ctx.mem_borders
  obtain ⟨-, -, -, hnodup, hbound, -, -⟩ := hok.members
  have hentry : ∀ i ∈ slotsOf nd.permutation, ∃ e ∈ es, e ∈ (Ctx.plug c (.border b es)).entries ∧ nd.key i = e.key ∧
      nd.lv i = (e.slot (A.link π)).2 := by
    intro i hi
    obtain ⟨e, he, hs⟩ := hok.toNodeFits.rank_of_mem hi
    exact ⟨e, he, BTree.mem_entries.mpr ⟨b, es, hb, he⟩, congrArg Prod.fst hs, congrArg Prod.snd hs⟩
  refine ⟨?_, hnodup, hbound, ?_, fun i hi hlen => ?_, fun i hi hlen => ?_, fun hfirst i hi hzero => ?_⟩
  · rw [cnk_eq_length hok.toNodeFits]
    exact hok.body.1
  · have hkeys := map_key_slots hok.toNodeFits
    have hcodes : ((slotsOf nd.permutation).map fun i => (nd.key i).code) = es.map fun e => e.key.code := by
      simpa [Function.comp_def] using congrArg (List.map KeyTuple.code) hkeys
    rw [hcodes]
    exact hL.codes_sorted
  · obtain ⟨e, he, hmem, hkey, hlv⟩ := hentry i hi
    obtain ⟨henc, hlay⟩ := hok.body.2 e he
    have hke : nd.keyLength i = e.key.length := congrArg KeyTuple.length hkey
    refine ⟨?_, ?_⟩
    · cases hc : e.content with
      | value v => exact ⟨v, by rw [hlv, Entry.slot, hc]⟩
      | layer => exact absurd (hlay.mp hc) (by omega)
    · have hpad := henc.padding
      rw [← hkey] at hpad
      exact hpad
  · obtain ⟨e, he, hmem, hkey, hlv⟩ := hentry i hi
    obtain ⟨henc, hlay⟩ := hok.body.2 e he
    have hke : nd.keyLength i = e.key.length := congrArg KeyTuple.length hkey
    have h9 : e.key.length = 9 := by
      have := henc.length_le
      omega
    obtain ⟨u, hu, hpar⟩ := h.behind ht hb he (hlay.mpr h9)
    obtain ⟨md, hmd, hmok⟩ := LayerOk.node_at (c := []) (h.layers hu)
    refine ⟨hke.trans h9, u.id, md, ?_, hmd, hmok.parent.trans hpar⟩
    rw [hlv]
    refine slot_link.mpr ⟨hlay.mpr h9, ?_⟩
    rw [Forest.link, hu]
    rfl
  · obtain ⟨e, he, hmem, hkey, -⟩ := hentry i hi
    cases π with
    | nil => exact absurd (hf.mpr rfl) (by simp [hfirst])
    | cons sl π => exact h.ok.positive ht e hmem ((congrArg KeyTuple.length hkey).symm.trans hzero)

/-- The marks below a child are between the pivots around it. -/
theorem LayerOk.between {fr : Frame} {e : Entry} (h : LayerOk s par link dead (Ctx.plug c (fr.plug u)))
    (he : e ∈ u.entries) :
    (∀ k ∈ fr.left.map (·.2), k.code ≤ e.key.code) ∧ ∀ k ∈ fr.right.map (·.1), e.key.code < k.code := by
  have hs := h.sorted
  rw [Ctx.plug_flat, Frame.plug_flat] at hs
  have hs' := (List.pairwise_append.mp (List.pairwise_append.mp hs).1).2.1
  rw [List.pairwise_append, List.pairwise_append] at hs'
  have hm := BTree.mark_mem_flat he
  refine ⟨fun k hk => ?_, fun k hk => ?_⟩
  · obtain ⟨x, hx, rfl⟩ := List.mem_map.mp hk
    have hlt := hs'.1.2.2 x.2.mark (List.mem_flatMap.mpr ⟨x, hx, by simp⟩) _ hm
    simp only [KeyTuple.mark, Entry.mark] at hlt
    omega
  · obtain ⟨x, hx, rfl⟩ := List.mem_map.mp hk
    have hlt := hs'.2.2 _ (List.mem_append_right _ hm) x.1.mark (List.mem_flatMap.mpr ⟨x, hx, by simp⟩)
    simp only [KeyTuple.mark, Entry.mark] at hlt
    omega

theorem Frame.pivots_left {fr : Frame} {p : Nat} {k : KeyTuple} (hp : p < fr.left.length) (hk : fr.pivots[p]? = some k) :
    k ∈ fr.left.map (·.2) := by
  rw [pivots, List.getElem?_append_left (by simpa using hp)] at hk
  exact List.mem_of_getElem? hk

theorem Frame.pivots_right {fr : Frame} {p : Nat} {k : KeyTuple} (hp : fr.left.length ≤ p) (hk : fr.pivots[p]? = some k) :
    k ∈ fr.right.map (·.1) := by
  rw [pivots, List.getElem?_append_right (by simpa using hp)] at hk
  exact List.mem_of_getElem? hk

theorem LayerOk.interiorShape (h : LayerOk s par link dead (Ctx.plug c u)) (hn : s.node u.id = some nd)
    (hk : nd.kind = .interior) :
    InteriorShape s u.id nd := by
  have hok := h.node_eq hn
  have hchild := fun i hi => h.child_at hn hk (i := i) hi
  cases u with
  | border b es => exact absurd (hk.symm.trans hok.members.1) (by simp)
  | interior n f r =>
    obtain ⟨-, -, -, hp, -⟩ := hok.members
    obtain ⟨hp1, hp15, hpk⟩ := hok.body
    have hlen : nd.nKeys = (r.map (·.1)).length := by rw [← nd.pivots_length, hp]
    refine ⟨⟨by omega, by omega⟩, ?_, fun i hi => ?_, fun i hi => ?_, fun i hi d hd b bd hb hbn hbk j hj => ?_⟩
    · have hs := h.sorted
      rw [Ctx.plug_flat] at hs
      have hcodes := BTree.pivots_sorted (List.pairwise_append.mp (List.pairwise_append.mp hs).1).2.1
      have hkeys : ((List.range nd.nKeys).map fun i => (nd.key i).code) = r.map (·.1.code) := by
        simpa [Node.pivots, Function.comp_def] using congrArg (List.map KeyTuple.code) hp
      rw [hkeys]
      exact hcodes
    · have hi' := nd.pivots_getElem? i
      rw [if_pos hi, hp] at hi'
      exact (hpk _ (List.mem_of_getElem? hi')).2
    · obtain ⟨fr, w, hplug, -, hw, -⟩ := hchild i hi
      rw [hplug] at h
      obtain ⟨cd, hcd, hcok⟩ := LayerOk.node_at (c := fr :: c) h
      refine ⟨w.id, cd, hw, hcd, hcok.parent.trans ?_⟩
      rw [hplug]
      rfl
    · obtain ⟨fr, w, hplug, hl, hw, hpiv⟩ := hchild i hi
      obtain rfl : w.id = d := Option.some.inj (hw.symm.trans hd)
      rw [hplug] at h
      obtain ⟨c', x, rfl, rfl⟩ := LayerOk.inLayer (c := fr :: c) h hb
      have hx := h
      rw [show Ctx.plug c (fr.plug (Ctx.plug c' x)) = Ctx.plug (c' ++ fr :: c) x from Ctx.plug_plug (fr :: c) c' x] at hx
      obtain ⟨es, hxe⟩ := hx.border_at hbn hbk
      have hxok := hx.node_eq hbn
      rw [hxe] at hxok
      obtain ⟨e, he, hes⟩ := hxok.toNodeFits.rank_of_mem hj
      have hmem : e ∈ (Ctx.plug c' x).entries := by
        rw [hxe]
        exact BTree.mem_entries.mpr ⟨_, es, Ctx.mem_borders, he⟩
      obtain ⟨hleft, hright⟩ := h.between hmem
      rw [show bd.key j = e.key from congrArg Prod.fst hes]
      refine ⟨fun p hip => hleft _ (Frame.pivots_left (p := p) (by omega) ?_),
        fun hlt => hright _ (Frame.pivots_right (p := i) (by omega) ?_)⟩
      · rw [← hpiv, nd.pivots_getElem?, if_pos (by omega)]
      · rw [← hpiv, nd.pivots_getElem?, if_pos hlt]

/-- The traversal of a part of a layer meets its borders in order. -/
theorem LayerOk.traversal (h : LayerOk s par link dead (Ctx.plug c u)) : Traversal s u.id (u.borders.map (·.1)) := by
  induction u generalizing c with
  | border b es =>
    obtain ⟨nd, hn, hok⟩ := h.node_at
    exact .border hn hok.members.1
  | interior n f r hf hr =>
    obtain ⟨nd, hn, hok⟩ := h.node_at
    have hk := hok.members.1
    obtain ⟨-, -, -, hp, hkids⟩ := hok.members
    have hlen : nd.nKeys = r.length := by
      rw [← nd.pivots_length, hp]
      simp
    -- The children by their positions.
    let w : Nat → BTree := fun i => (f :: r.map (·.2)).getD i f
    have hw : ∀ i ≤ nd.nKeys, (f :: r.map (·.2))[i]? = some (w i) := by
      intro i hi
      have : i < (f :: r.map (·.2)).length := by
        simp only [List.length_cons, List.length_map]
        omega
      simp [w, List.getD, List.getElem?_eq_getElem this]
    have hborders : (BTree.interior n f r).borders.map (·.1) = (List.range (nd.nKeys + 1)).flatMap
      fun i => (w i).borders.map (·.1) := by
      have hall : f :: r.map (·.2) = (List.range (nd.nKeys + 1)).map w := by
        refine List.ext_getElem? fun i => ?_
        rw [List.getElem?_map]
        by_cases hi : i ≤ nd.nKeys
        · rw [hw i hi, List.getElem?_range (by omega)]
          rfl
        · rw [List.getElem?_eq_none (by simp; omega), List.getElem?_eq_none (by simp; omega)]
          rfl
      rw [← List.flatMap_map w fun t : BTree => t.borders.map (·.1), ← hall]
      simp [BTree.borders, BTree.bordersRest_eq, List.map_flatMap, List.flatMap_map]
    rw [hborders]
    refine .interior (c := fun i => (w i).id) hn hk (fun i hi => ?_) fun i hi => ?_
    · have hget := nd.kids_getElem? i
      rw [if_pos (by omega), hkids, List.getElem?_map] at hget
      have hid : (f.id :: r.map (·.2.id))[i]? = some (w i).id := by
        have := congrArg (Option.map BTree.id) (hw i hi)
        rw [← List.getElem?_map] at this
        simpa [Function.comp_def] using this
      rw [hid] at hget
      exact (Option.some.inj hget).symm
    · have hmem := List.mem_of_getElem? (hw i hi)
      have hfr : ∃ fr : Frame, BTree.interior n f r = fr.plug (w i) := by
        refine Frame.exists_plug n f r ?_
        rcases List.mem_cons.mp hmem with he | he
        · exact Or.inl he
        · obtain ⟨⟨k, t⟩, hx, he⟩ := List.mem_map.mp he
          exact Or.inr ⟨k, he ▸ hx⟩
      obtain ⟨fr, hplug⟩ := hfr
      rw [hplug] at h
      rcases List.mem_cons.mp hmem with he | he
      · rw [he] at h ⊢
        exact hf (c := fr :: c) h
      · obtain ⟨x, hx, he⟩ := List.mem_map.mp he
        rw [← he] at h ⊢
        exact hr x hx (c := fr :: c) h

theorem Holds.structured (h : Holds s ti A dead) : Structured s ti := by
  -- A node of a layer, in its context.
  have hat : ∀ {first : Bool} {r x : NodeId}, LayerRoot s ti first r → InLayer s r x →
    ∃ π c w, A π = some (Ctx.plug c w) ∧ w.id = x ∧
      (first = true ↔ π = []) := by
    intro first r x hr hx
    obtain ⟨π, t, ht, rfl, hf⟩ := h.layerRoot hr
    obtain ⟨c, w, rfl, rfl⟩ := LayerOk.inLayer (c := []) (h.layers ht) hx
    exact ⟨π, c, w, ht, rfl, hf⟩
  refine ⟨fun first r x hr hx => ?_, fun first r b nd hr hb hn hk => ?_, fun first r n nd hr hx hn hk => ?_,
    fun first r hr => ?_,
    fun first r b nd hr hb hn hk hz => ?_⟩
  · obtain ⟨π, c, w, ht, rfl, -⟩ := hat hr hx
    obtain ⟨nd, hn, -⟩ := (h.layers ht).node_at
    exact ⟨nd, hn⟩
  · obtain ⟨π, c, w, ht, rfl, hf⟩ := hat hr hb
    obtain ⟨es, hw⟩ := (h.layers ht).border_at hn hk
    rw [hw] at ht
    exact h.borderShape ht hn hf
  · obtain ⟨π, c, w, ht, rfl, -⟩ := hat hr hx
    exact (h.layers ht).interiorShape hn hk
  · obtain ⟨π, t, ht, rfl, -⟩ := h.layerRoot hr
    exact ⟨_, LayerOk.traversal (c := []) (h.layers ht), (h.layers ht).chain⟩
  · obtain ⟨π, c, w, ht, rfl, -⟩ := hat hr hb
    obtain ⟨es, hw⟩ := (h.layers ht).border_at hn hk
    rw [hw] at ht hn
    have hok := (h.layers ht).node_eq (u := .border w.id es) hn
    have hes : es = [] := List.eq_nil_of_length_eq_zero ((cnk_eq_length hok.toNodeFits).symm.trans hz)
    subst hes
    have htree := (h.layers ht).nonempty _ Ctx.mem_borders rfl
    rw [htree] at ht
    cases π with
    | nil =>
      rw [h.root, ht]
      rfl
    | cons sl π => exact absurd rfl (h.ok.nonempty ht)

/-- Every sequence of calls leaves a tree in shape, if the inline words that are put have clear tag bits. -/
theorem calls_keep_structure {m : MapState} (h : Start ti s m) (calls : List PointCall) (hc : ∀ c ∈ calls, c.Clear) :
    ∃ as s',
    Returns (fun fuel => runAll (calls.map fun c => c.prog fuel (pure ()) ti)) s as s' ∧ Structured s' ti := by
  obtain ⟨A, hA⟩ := h.refinesIn
  obtain ⟨as, s', m', hret, -, B, dead, hB⟩ := hA.run calls hc
  exact ⟨as, s', hret (pure ()), hB.holds.structured⟩

theorem calls_keep_structure_sample : ∃ as s',
    Returns (fun fuel => runAll (sampleCalls.map fun c => c.prog fuel (pure ()) 0)) State.init as s' ∧
    Structured s' 0 := calls_keep_structure (.null rfl) sampleCalls (by decide)

/-- A word with the bit `kChildFlag` is put under a short key: the slot is read as a link. -/
theorem tagged_word_breaks_structure : ¬ ∀ (s : State) (ti : TreeId) (m : MapState), Start ti s m →
    ∀ calls : List PointCall, ∃ as s',
    Returns (fun fuel => runAll (calls.map fun c => c.prog fuel (pure ()) ti)) s as s' ∧ Structured s' ti := by
  intro hall
  obtain ⟨as, s', hret, hst⟩ := hall State.init 0 ⟨false, ∅⟩ (.null rfl) [.put 0 ⟨[1], .word 0x8000000000001000, false⟩]
  have hroot : s'.root 0 = some 0 := hret.eval (fun r => r.2.root 0) (k := 64) fun n => by cbv
  have hnode : (s'.node 0).map (fun nd => (nd.kind, slotsOf nd.permutation, nd.keyLength 0, nd.lv 0)) =
    some (.border, [0], 1, .link 4095) :=
    hret.eval (fun r => (r.2.node 0).map fun nd => (nd.kind, slotsOf nd.permutation, nd.keyLength 0, nd.lv 0)) (k := 64)
      fun n => by cbv
  obtain ⟨nd, hn, hnd⟩ := Option.map_eq_some_iff.mp hnode
  simp only [Prod.mk.injEq] at hnd
  obtain ⟨hk, hslots, hlen, hlv⟩ := hnd
  have hshape := hst.borders true 0 0 nd (.first hroot) .root hn hk
  obtain ⟨⟨v, hv⟩, -⟩ := hshape.short 0 (by simp [hslots]) (by lia)
  exact absurd (hlv.symm.trans hv) (by simp)

/-- A key of two layers, and under a short key the word that the slot of the first one holds: the link to the second
    layer. -/
def linkedTwice : List PointCall :=
  [.put 0 ⟨[97, 97, 97, 97, 97, 97, 97, 97, 98], .word 5, false⟩, .put 0 ⟨[1], .word 0x8000000000000002, false⟩]

def linkedTwiceState : State :=
  ((run (runAll (linkedTwice.map fun c => c.prog 64 (pure ()) 0)) State.init).getD ([], State.init)).2

theorem linkedTwice_returns : Returns (fun fuel => runAll (linkedTwice.map fun c => c.prog fuel (pure ()) 0)) State.init
    [.put ⟨.ok, some (.value (.word 5)), some 0⟩, .put ⟨.ok, some (.link 1), some 0⟩] linkedTwiceState := by
  refine ⟨64, fun fuel hf => ?_⟩
  obtain ⟨n, rfl⟩ := Nat.exists_eq_add_of_le' hf
  cbv

end
end Yakushima
