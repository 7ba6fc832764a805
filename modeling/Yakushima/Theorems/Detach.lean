import Yakushima.Theorems.Garbage
import Yakushima.Theorems.Structure

/-! # What a removal takes out of a tree

`remove` detaches the borders that are left without keys, other than the root of the tree, and the interior
that is left with one child. The detached nodes go to the garbage container of the session, and nothing that
is still in the tree leads to them. -/

namespace Yakushima
open M Permutation

/-- Each node of a tree has a context. -/
theorem Ctx.exists_of_id {t : BTree} {x : NodeId} (h : x ∈ t.ids) : ∃ c w, t = plug c w ∧ w.id = x := by
  induction t with
  | border i es =>
    have hx : x = i := by simpa [BTree.ids, BTree.descs] using h
    exact ⟨[], _, rfl, hx.symm⟩
  | interior i f r hf hr =>
    rw [BTree.ids_interior, List.mem_cons, List.mem_append, List.mem_flatMap] at h
    rcases h with rfl | h | ⟨y, hy, h⟩
    · exact ⟨[], _, rfl, rfl⟩
    · obtain ⟨c, w, hc, hw⟩ := hf h
      obtain ⟨fr, hfr⟩ := Frame.exists_plug i f r (Or.inl rfl)
      exact ⟨c ++ [fr], w, by rw [plug_append, ← hc, hfr], hw⟩
    · obtain ⟨c, w, hc, hw⟩ := hr y hy h
      obtain ⟨fr, hfr⟩ := Frame.exists_plug i f r (Or.inr ⟨y.1, hy⟩)
      exact ⟨c ++ [fr], w, by rw [plug_append, ← hc, hfr], hw⟩

/-- A node that the root pointer of a tree leads to. -/
def Reachable (s : State) (ti : TreeId) (x : NodeId) : Prop := ∃ first r, LayerRoot s ti first r ∧ InLayer s r x

section
variable {s s' : State} {ti : TreeId} {A B : Forest} {dead dead' : NodeId → Prop} {token : Token} {π σ : Path}
  {t t' : BTree} {e x : Entry} {lost : List NodeId}

/-- The layers of a forest are the layers that live slots link to. -/
theorem Holds.layerRoot_of_mem (h : Holds s ti A dead) : ∀ {π : Path} {t : BTree}, A π = some t →
    ∃ first, LayerRoot s ti first t.id
  | [], t, ht => ⟨true, .first (by rw [h.root, ht]; rfl)⟩
  | sl :: π, u, hu => by
    obtain ⟨t, b, es, e, ht, hb, he, hkey, hc, -, hlink⟩ := h.above hu
    obtain ⟨first, hr⟩ := h.layerRoot_of_mem ht
    obtain ⟨c, rfl⟩ := Ctx.exists_of_border hb
    obtain ⟨nd, hn, hok⟩ := (h.layers ht).node_at
    obtain ⟨r, hre⟩ := List.mem_iff_getElem?.mp he
    obtain ⟨i, hi, -, hslot⟩ := slot_of_rank hok.toNodeFits hre
    refine ⟨false, .next hr ((h.layers ht).inLayer_plug) hn hok.members.1 (List.mem_of_getElem? hi)
      ((congrArg Prod.snd hslot).trans ?_)⟩
    exact slot_link.mpr ⟨hc, by rw [hkey]; exact hlink⟩

theorem Holds.reachable_iff (h : Holds s ti A dead) {x : NodeId} : Reachable s ti x ↔ ∃ π t, A π = some t ∧ x ∈ t.ids := by
  constructor
  · rintro ⟨first, r, hr, hx⟩
    obtain ⟨π, t, ht, rfl, -⟩ := h.layerRoot hr
    obtain ⟨c, w, rfl, rfl⟩ := LayerOk.inLayer (c := []) (h.layers ht) hx
    exact ⟨π, _, ht, Ctx.mem_plug_ids.mpr (Or.inr w.id_mem_ids)⟩
  · rintro ⟨π, t, ht, hx⟩
    obtain ⟨first, hr⟩ := h.layerRoot_of_mem ht
    obtain ⟨c, w, rfl, rfl⟩ := Ctx.exists_of_id hx
    exact ⟨first, _, hr, (h.layers ht).inLayer_plug⟩

/-- A node that a node of the tree names as its parent or as its neighbour is in the tree. -/
theorem Holds.named_reachable (h : Holds s ti A dead) {m n : NodeId} {md : Node} (hm : Reachable s ti m)
    (hn : s.node m = some md) (hmn : md.parent = some n ∨ md.kind = .border ∧ (md.next = some n ∨ md.prev = some n)) :
    Reachable s ti n := by
  obtain ⟨π, t, ht, hmt⟩ := h.reachable_iff.mp hm
  obtain ⟨c, w, rfl, rfl⟩ := Ctx.exists_of_id hmt
  have hok := (h.layers ht).node_eq hn
  rw [h.reachable_iff]
  rcases hmn with hp | ⟨hk, hpn⟩
  · have hpar := hok.parent.symm.trans hp
    cases c with
    | nil =>
      obtain ⟨sl, ρ, u, es, rfl, hu, hb⟩ := h.parent_mem ht hpar
      exact ⟨ρ, u, hu, BTree.border_mem_ids hb⟩
    | cons f c =>
      obtain rfl : f.id = n := Option.some.inj hpar
      exact ⟨π, _, ht, Ctx.mem_plug_ids.mpr (Or.inl (Ctx.id_mem_ids f c))⟩
  · obtain ⟨es, hw⟩ := (h.layers ht).border_at hn hk
    rw [hw] at ht hn
    obtain ⟨hprev, hnext⟩ := (h.layers ht).next_border hn
    refine ⟨π, _, ht, mem_plug_border_ids.mpr (Or.inl ?_)⟩
    rcases hpn with hx | hx
    · rw [hnext] at hx
      obtain ⟨⟨y, fs⟩, hy, rfl⟩ := List.mem_map.mp (List.mem_of_mem_head? hx)
      exact Ctx.border_mem_ids (Or.inr hy)
    · rw [hprev] at hx
      obtain ⟨⟨y, fs⟩, hy, rfl⟩ := List.mem_map.mp (List.mem_of_getLast? hx)
      exact Ctx.border_mem_ids (Or.inl hy)

/-- A border is left without keys; the root of the tree stays in it even so. -/
def LeftEmpty (s s' : State) (ti : TreeId) (n : NodeId) : Prop :=
  (∃ nd, s.node n = some nd ∧ nd.kind = .border) ∧ Emptied s' n ∧ s.root ti ≠ some n

/-- An interior is left with a single child by the borders that are left without keys. -/
def LeftSingle (s s' : State) (ti : TreeId) (n : NodeId) : Prop :=
  ∃ nd, s.node n = some nd ∧ nd.kind = .interior ∧ ∃! i, i ≤ nd.nKeys ∧ ∃ c, nd.child i = some c ∧ ¬ LeftEmpty s s' ti c

theorem Ctx.shrink_kid {f' : Frame} {y : BTree} {c : Ctx} {z : NodeId} (hz : z ∈ f'.kids y.id) :
    z ∈ (Ctx.shrink c f' y).ids := by
  rw [Ctx.shrink]
  split
  · next hnil =>
    obtain ⟨hl, hr⟩ := f'.eq_of_pivots_nil hnil
    simp only [Frame.kids, hl, hr, List.map_nil, List.nil_append, List.mem_singleton] at hz
    exact Ctx.mem_plug_ids.mpr (Or.inr (hz ▸ y.id_mem_ids))
  · refine Ctx.mem_plug_ids.mpr (Or.inr ((f'.plug_ids_perm y).mem_iff.mpr ?_))
    simp only [Frame.kids, List.mem_append, List.mem_map, List.mem_cons] at hz
    simp only [Frame.ids, List.mem_append, List.mem_cons, List.mem_flatMap]
    rcases hz with ⟨w, hw, rfl⟩ | rfl | ⟨w, hw, rfl⟩
    · exact Or.inl (Or.inr (Or.inl ⟨w, hw, w.1.id_mem_ids⟩))
    · exact Or.inr y.id_mem_ids
    · exact Or.inl (Or.inr (Or.inr ⟨w, hw, w.2.id_mem_ids⟩))

/-- The place of the interior `n`, which had the members `nd`, went to its child `y`. -/
structure Replaced (s s' : State) (ti : TreeId) (n y : NodeId) (nd yd : Node) : Prop where
  child : ∃ i ≤ nd.nKeys, nd.child i = some y
  node : s'.node y = some yd
  parent : yd.parent = nd.parent
  interior : ∀ p pd, nd.parent = some p → s.node p = some pd → pd.kind = .interior → yd.version.root = false ∧
    ∃ pd' i, s'.node p = some pd' ∧ i ≤ pd.nKeys ∧ pd.child i = some n ∧ pd'.child i = some y
  border : ∀ p pd, nd.parent = some p → s.node p = some pd → pd.kind = .border → yd.version.root = true ∧
    ∃ pd' i, s'.node p = some pd' ∧ i ∈ slotsOf pd.permutation ∧ pd.lv i = .link n ∧ pd'.lv i = .link y
  tree : nd.parent = none → yd.version.root = true ∧ s'.root ti = some y

/-- A layer that is one empty border after a loss was that border before. -/
theorem LayerLoss.id_of_empty {par : Ptr} {link : KeySlice → Ptr} {n : NodeId} (hl : LayerLoss x t t')
    (hL : LayerOk s par link dead t) (ht' : t' = .border n []) : t.id = n := by
  rcases hl with ⟨c, b, lo, hi, hne⟩ | ⟨b⟩ | ⟨c, f, f', y, b, hcl⟩
  · cases c with
    | nil =>
      simp only [Ctx.plug, BTree.border.injEq] at ht'
      exact absurd ht'.2 hne
    | cons g c => exact absurd ht' (Ctx.plug_cons_ne_border g c _ _ _)
  · simp only [BTree.border.injEq, and_true] at ht'
    exact ht'
  · have hb := Ctx.shrink_borders (c := c) hcl
    rw [ht'] at hb
    have hmem : (n, []) ∈ Ctx.bordersLeft (f :: c) ++ Ctx.bordersRight (f :: c) := by
      rw [← hb]
      simp [BTree.borders]
    exact absurd rfl (hL.ctx_nonempty (List.mem_append.mp hmem))

/-- A layer that is one border keeps it. -/
theorem LayerLoss.mem_of_border {n : NodeId} {es : List Entry} (hl : LayerLoss x t t') (ht : t = .border n es) :
    n ∈ t'.ids := by
  rcases hl with ⟨c, b, lo, hi, hne⟩ | ⟨b⟩ | ⟨c, f, f', y, b, hcl⟩
  · cases c with
    | nil =>
      simp only [Ctx.plug, BTree.border.injEq] at ht
      exact mem_plug_border_ids.mpr (Or.inr ht.1.symm)
    | cons g c => exact absurd ht (Ctx.plug_cons_ne_border g c _ _ _)
  · simp only [BTree.border.injEq] at ht
    rw [ht.1]
    exact BTree.id_mem_ids (.border n [])
  · exact absurd ht (Ctx.plug_cons_ne_border f c _ _ _)

/-- The nodes that leave a layer: the emptied border, and its interior when that has one child left. -/
theorem LayerLoss.gone_cases {n : NodeId} (hl : LayerLoss x t t') (hn : n ∈ t.ids) (hn' : n ∉ t'.ids) : ∃ c f f' y b,
    t = Ctx.plug (f :: c) (.border b [x]) ∧ t' = Ctx.shrink c f' y ∧ f.Closes f' y ∧
      (n = b ∨ n = f.id ∧ f'.pivots = []) := by
  rcases hl with ⟨c, b, lo, hi, hne⟩ | ⟨b⟩ | ⟨c, f, f', y, b, hcl⟩
  · exact absurd (mem_plug_border_ids.mpr (mem_plug_border_ids.mp hn)) hn'
  · exact absurd hn hn'
  · refine ⟨c, f, f', y, b, rfl, rfl, hcl, ?_⟩
    rcases mem_plug_border_ids.mp hn with hnc | hnb
    · rcases List.mem_append.mp ((Ctx.shrink_ids hcl).mem_iff.mp hnc) with hg | hs
      · rw [Frame.gone] at hg
        split at hg
        · next hnil => exact Or.inr ⟨(List.mem_singleton.mp hg).trans hcl.id, hnil⟩
        · exact absurd hg List.not_mem_nil
      · exact absurd hs hn'
    · exact Or.inl hnb

/-- The child in the hole of a frame, as the interior has it. -/
theorem LayerOk.child_hole {c : Ctx} {g : Frame} {u : BTree} {par : Ptr} {link : KeySlice → Ptr} {gd : Node}
    (hL : LayerOk s par link dead (Ctx.plug (g :: c) u)) (hg : s.node g.id = some gd) :
    gd.kind = .interior ∧ g.left.length ≤ gd.nKeys ∧ gd.child g.left.length = some u.id := by
  have hok := LayerOk.node_eq (c := c) (u := g.plug u) hL hg
  rw [Frame.plug_body] at hok
  refine ⟨hok.members.1, ?_, child_of_members hok.members (Frame.kids_hole g u.id)⟩
  rw [nKeys_of_members hok.members]
  simp [Frame.pivots]

namespace Cascade
variable (h : Cascade s s' token ti A dead π σ e x t t' lost) (H : Holds s ti A dead)
include h H

/-- An interior that leaves gives its place to the child that is left. -/
theorem interior_lost {n : NodeId} {nd : Node} (hl : n ∈ lost) (hn : s.node n = some nd) (hk : nd.kind = .interior) :
    ∃ c f f' y b,
    t = Ctx.plug (f :: c) (.border b [x]) ∧ t' = Ctx.plug c y ∧ f.Closes f' y ∧ n = f.id ∧ f'.pivots = [] := by
  rcases (h.lost_iff n).mp hl with ⟨hnt, hnt'⟩ | ⟨ρ, w, hρ, hlen, hw, hnw⟩
  · obtain ⟨c, f, f', y, b, ht, ht', hcl, rfl | ⟨rfl, hnil⟩⟩ := h.loss.gone_cases hnt hnt'
    · have hsur := h.survivor
      rw [ht] at hsur
      exact absurd (hk.symm.trans ((H.layers hsur).node_eq hn).members.1) (by decide)
    · exact ⟨c, f, f', y, b, ht, by rw [ht', Ctx.shrink, if_pos hnil], hcl, rfl, hnil⟩
  · obtain ⟨b, z, hb, -⟩ := h.vanished ρ hρ hlen
    obtain rfl : BTree.border b [z] = w := Option.some.inj (hb.symm.trans hw)
    obtain rfl : n = b := by simpa [BTree.ids, BTree.descs] using hnw
    exact absurd (hk.symm.trans (LayerOk.node_eq (c := []) (u := .border n [z]) (H.layers hb) hn).members.1) (by decide)

/-- An interior that leaves gives its place to a child. -/
theorem replaced {n : NodeId} {nd : Node} (hl : n ∈ lost) (hn : s.node n = some nd) (hk : nd.kind = .interior) :
    ∃ y yd, Replaced s s' ti n y nd yd := by
  obtain ⟨c, f, f', y, b, ht, ht', hcl, rfl, hnil⟩ := h.interior_lost H hl hn hk
  have hsur := h.survivor
  rw [ht] at hsur
  have hL := H.layers hsur
  have hL' := h.layer
  rw [ht'] at hL'
  have hshrink : t' = Ctx.shrink c f' y := by rw [ht', Ctx.shrink, if_pos hnil]
  have hne : y.id ≠ f.id := by
    intro heq
    have hnd := (Ctx.shrink_ids hcl).nodup_iff.mp hL.ids_nodup.1
    refine (List.nodup_append.mp hnd).2.2 f.id ?_ y.id ?_ heq.symm
    · rw [Frame.gone, if_pos hnil, hcl.id]
      exact List.mem_singleton_self _
    · rw [← hshrink, ht']
      exact Ctx.mem_plug_ids.mpr (Or.inr y.id_mem_ids)
  obtain ⟨yd, hyd, hyok⟩ := hL'.node_at
  have hfok := LayerOk.node_eq (c := c) (u := f.plug (.border b [x])) hL hn
  have hfid : t.id = Ctx.rootId c f.id := by
    rw [ht]
    exact Ctx.plug_id (f :: c) _
  have hyid : t'.id = Ctx.rootId c y.id := by
    rw [ht']
    exact Ctx.plug_id c y
  have hchild : ∃ i ≤ nd.nKeys, nd.child i = some y.id := by
    have hok := hfok
    rw [Frame.plug_body] at hok
    have hpos : 0 < nd.nKeys := by
      rw [nKeys_of_members hok.members]
      exact hok.body.1
    exact ⟨1 - f.left.length, by omega, child_of_members hok.members (hcl.last hnil).1⟩
  refine ⟨y.id, yd, hchild, hyd, hyok.parent.trans hfok.parent.symm, ?_, ?_, ?_⟩
  · intro p pd hp hpd hpk
    have hpar := hfok.parent.symm.trans hp
    cases c with
    | nil =>
      obtain ⟨sl, ρ, u, es, -, hu, hb⟩ := H.parent_mem hsur hpar
      obtain ⟨c', rfl⟩ := Ctx.exists_of_border hb
      exact absurd (hpk.symm.trans ((H.layers hu).node_eq hpd).members.1) (by decide)
    | cons g c =>
      obtain rfl : g.id = p := Option.some.inj hpar
      obtain ⟨-, hle, hch⟩ := LayerOk.child_hole (u := f.plug (.border b [x])) hL hpd
      obtain ⟨gd, hgd, -⟩ := LayerOk.node_at (c := c) (u := g.plug y) hL'
      obtain ⟨-, -, hch'⟩ := LayerOk.child_hole hL' hgd
      exact ⟨hyok.root, gd, g.left.length, hgd, hle, hch, hch'⟩
  · intro p pd hp hpd hpk
    have hpar := hfok.parent.symm.trans hp
    cases c with
    | nil =>
      refine ⟨hyok.root, ?_⟩
      rcases h.above with ⟨heq, -⟩ | ⟨hnone, -⟩ | ⟨p', pd', pd'', hp', -, hbef, haft, i, hi, hlink, hpd''⟩
      · exact absurd (hyid.symm.trans (heq.trans hfid)) hne
      · exact absurd (hnone.symm.trans hpar) (by simp)
      · obtain rfl : p' = p := Option.some.inj (hp'.symm.trans hpar)
        obtain rfl : pd' = pd := Option.some.inj (hbef.symm.trans hpd)
        rw [hfid] at hlink
        rw [hyid] at hpd''
        refine ⟨pd'', i, haft, ?_, hlink, ?_⟩
        · -- A slot outside the permutation would name a node that is gone.
          by_contra hnot
          obtain ⟨sl, ρ, u, es, -, hu, hb⟩ := H.parent_mem hsur hpar
          obtain ⟨c', rfl⟩ := Ctx.exists_of_border hb
          have hun := ((H.layers hu).node_eq (u := .border p' es) hpd).members.2.2.2.2.2.2 i hi hnot
          rw [hlink] at hun
          exact H.alive hsur (mem_plug_border_ids.mpr (Or.inl (Ctx.id_mem_ids f []))) hun
        · rw [hpd'']
          simp [Ctx.rootId]
    | cons g c =>
      obtain rfl : g.id = p := Option.some.inj hpar
      exact absurd (hpk.symm.trans (LayerOk.child_hole (u := f.plug (.border b [x])) hL hpd).1) (by decide)
  · intro hp
    have hpar := hfok.parent.symm.trans hp
    cases c with
    | nil =>
      refine ⟨hyok.root, ?_⟩
      rcases h.above with ⟨heq, -⟩ | ⟨-, hs⟩ | ⟨p', -, -, hp', -⟩
      · exact absurd (hyid.symm.trans (heq.trans hfid)) hne
      · rw [hs, hyid]
        simp [State.setRoot, Ctx.rootId]
      · exact absurd (hp'.symm.trans hpar) (by simp)
    | cons g c => exact absurd hpar (by simp [Ctx.parent])

variable (he : A.Has π e) (hv : e.content ≠ .layer)
include he hv

theorem lost_reachable {n : NodeId} : n ∈ lost ↔ Reachable s ti n ∧ ¬ Reachable s' ti n := by
  have H' := h.holds H he hv
  rw [H.reachable_iff, H'.reachable_iff]
  constructor
  · intro hn
    refine ⟨?_, fun ⟨ρ, u, hu, hnu⟩ => H'.alive hu hnu (Or.inr hn)⟩
    rcases (h.lost_iff n).mp hn with ⟨hnt, -⟩ | ⟨ρ, u, -, -, hu, hnu⟩
    · exact ⟨σ, t, h.survivor, hnt⟩
    · exact ⟨ρ, u, hu, hnu⟩
  · rintro ⟨⟨ρ, u, hu, hnu⟩, hno⟩
    refine (h.lost_iff n).mpr ?_
    by_cases hσ : ρ = σ
    · subst hσ
      obtain rfl : t = u := Option.some.inj (h.survivor.symm.trans hu)
      exact Or.inl ⟨hnu, fun hn' => hno ⟨ρ, t', Forest.without_self, hn'⟩⟩
    · by_cases hgone : σ.length < ρ.length ∧ ρ <:+ π
      · exact Or.inr ⟨ρ, u, hgone.2, hgone.1, hu, hnu⟩
      · exact absurd ⟨ρ, u, (Forest.without_eq hσ hgone).trans hu, hnu⟩ hno

/-- A border that is still in the tree and empty was the root of the tree all along. -/
theorem root_of_emptied {n : NodeId} (hn : Reachable s' ti n) (hem : Emptied s' n) : s.root ti = some n := by
  have H' := h.holds H he hv
  obtain ⟨first, r, hr, hx⟩ := hn
  obtain ⟨nd, hnd, hk, hz⟩ := hem
  have hroot := H'.structured.filled first r n nd hr hx hnd hk hz
  rcases h.above with ⟨-, hs, -⟩ | ⟨hpar, hs⟩ | ⟨p, pd, pd', -, hs, -⟩
  · rwa [hs] at hroot
  · have hid : t'.id = n := by
      rw [hs] at hroot
      simpa [State.setRoot] using hroot
    -- The layer is the first one, and all of it is the empty border.
    obtain ⟨es, ht'⟩ := LayerOk.border_at (c := []) h.layer (by rw [hid]; exact hnd) hk
    rw [hid] at ht'
    have hes : es = [] := by
      have hok := LayerOk.node_eq (c := []) (u := .border n es) (ht' ▸ h.layer) hnd
      exact List.eq_nil_of_length_eq_zero ((cnk_eq_length hok.toNodeFits).symm.trans hz)
    subst hes
    have hσ : σ = [] := by
      cases hσ : σ with
      | nil => rfl
      | cons sl ρ =>
        have hsur := h.survivor
        rw [hσ] at hsur hpar
        obtain ⟨-, b, -, -, -, -, -, -, -, hp, -⟩ := H.above hsur
        rw [hp] at hpar
        exact absurd hpar (by simp)
    rw [H.root, ← hσ, h.survivor]
    exact congrArg some (h.loss.id_of_empty (H.layers h.survivor) ht')
  · rwa [hs] at hroot

/-- The borders that are left without keys are those that leave. -/
theorem leftEmpty_iff {n : NodeId} {nd : Node} (hr : Reachable s ti n) (hn : s.node n = some nd) :
    LeftEmpty s s' ti n ↔ n ∈ lost ∧ nd.kind = .border := by
  constructor
  · rintro ⟨⟨nd', hn', hk⟩, hem, hroot⟩
    obtain rfl : nd = nd' := Option.some.inj (hn.symm.trans hn')
    exact ⟨(h.lost_reachable H he hv).mpr ⟨hr, fun hr' => hroot (h.root_of_emptied H he hv hr' hem)⟩, hk⟩
  · rintro ⟨hl, hk⟩
    refine ⟨⟨nd, hn, hk⟩, h.emptied n hl nd hn hk, fun hroot => ?_⟩
    rw [H.root] at hroot
    obtain ⟨u, hu, rfl⟩ := Option.map_eq_some_iff.mp hroot
    rcases (h.lost_iff u.id).mp hl with ⟨hnt, hnt'⟩ | ⟨ρ, w, -, hlen, hw, hnw⟩
    · obtain rfl := H.ok.disjoint h.survivor hu hnt u.id_mem_ids
      obtain rfl : t = u := Option.some.inj (h.survivor.symm.trans hu)
      obtain ⟨es, ht⟩ := LayerOk.border_at (c := []) (H.layers hu) hn hk
      exact hnt' (h.loss.mem_of_border ht)
    · obtain rfl := H.ok.disjoint hw hu hnw u.id_mem_ids
      exact absurd hlen (Nat.not_lt_zero _)

/-- The children of the interior around an emptied border. -/
theorem leave_child {c : Ctx} {f f' : Frame} {y : BTree} {b : NodeId} {pd : Node}
    (ht : t = Ctx.plug (f :: c) (.border b [x])) (ht' : t' = Ctx.shrink c f' y) (hcl : f.Closes f' y)
    (hpd : s.node f.id = some pd) :
    pd.nKeys = f.pivots.length ∧ f.left.length ≤ pd.nKeys ∧
    ∀ i ≤ pd.nKeys, ∃ z, pd.child i = some z ∧ (LeftEmpty s s' ti z ↔ i = f.left.length) := by
  have hsur := h.survivor
  rw [ht] at hsur
  have hL := H.layers hsur
  have hok : NodeOk (A.link σ) dead pd ⟨Ctx.parent (A.parent σ) c, Ctx.isRoot true c, .interior f.pivots (f.kids b)⟩ := by
    have := LayerOk.node_eq (c := c) (u := f.plug (.border b [x])) hL hpd
    rwa [Frame.plug_body] at this
  have hkeys := nKeys_of_members hok.members
  have hkids : pd.kids = (f.kids b).map some := hok.members.2.2.2.2
  have hlen : f.left.length ≤ f.pivots.length := by simp [Frame.pivots]
  obtain ⟨bd, hbd, hbok⟩ := LayerOk.node_at (c := f :: c) (u := .border b [x]) hL
  have hbreach : Reachable s ti b := H.reachable_iff.mpr ⟨σ, _, hsur, mem_plug_border_ids.mpr (Or.inr rfl)⟩
  refine ⟨hkeys, hkeys ▸ hlen, fun i hi => ?_⟩
  have hc := pd.kids_getElem? i
  rw [if_pos (Nat.lt_succ_of_le hi), hkids, List.getElem?_map] at hc
  obtain ⟨z, hz, hzc⟩ := Option.map_eq_some_iff.mp hc
  refine ⟨z, hzc.symm, ?_⟩
  by_cases hhole : i = f.left.length
  · have hzb : z = b := by
      rw [hhole, Frame.kids_hole] at hz
      exact (Option.some.inj hz).symm
    subst hzb
    refine iff_of_true ((h.leftEmpty_iff H he hv hbreach hbd).mpr ⟨?_, hbok.members.1⟩) hhole
    refine (h.lost_iff z).mpr (Or.inl ⟨ht ▸ mem_plug_border_ids.mpr (Or.inr rfl), fun hz' => ?_⟩)
    rw [ht'] at hz'
    exact hL.ids_nodup.2 ((Ctx.shrink_ids hcl).mem_iff.mpr (List.mem_append_right _ hz'))
  · refine iff_of_false (fun hem => ?_) hhole
    have hmem : z ∈ t'.ids := by
      rw [ht']
      refine Ctx.shrink_kid ?_
      rw [hcl.kids b, List.mem_eraseIdx_iff_getElem?]
      exact ⟨i, hhole, hz⟩
    have hreach : Reachable s' ti z := (h.holds H he hv).reachable_iff.mpr ⟨σ, t', Forest.without_self, hmem⟩
    exact hem.2.2 (h.root_of_emptied H he hv hreach hem.2.1)

/-- An interior with an emptied border among its children is the one around it. -/
theorem parent_of_emptied {n z : NodeId} {zd nd : Node} (hz : s.node z = some zd) (hzr : Reachable s ti z)
    (hem : LeftEmpty s s' ti z) (hp : zd.parent = some n) (hn : s.node n = some nd) (hk : nd.kind = .interior) :
    ∃ c f f' y b,
    t = Ctx.plug (f :: c) (.border b [x]) ∧ t' = Ctx.shrink c f' y ∧ f.Closes f' y ∧ n = f.id := by
  obtain ⟨hzl, hzk⟩ := (h.leftEmpty_iff H he hv hzr hz).mp hem
  rcases (h.lost_iff z).mp hzl with ⟨hzt, hzt'⟩ | ⟨ρ, w, hρ, hlen, hw, hzw⟩
  · obtain ⟨c, f, f', y, b, ht, ht', hcl, hzb⟩ := h.loss.gone_cases hzt hzt'
    refine ⟨c, f, f', y, b, ht, ht', hcl, ?_⟩
    have hsur := h.survivor
    rw [ht] at hsur
    rcases hzb with rfl | ⟨rfl, -⟩
    · have hbok := LayerOk.node_eq (c := f :: c) (u := .border z [x]) (H.layers hsur) hz
      exact Option.some.inj (hp.symm.trans hbok.parent)
    · have hfok := LayerOk.node_eq (c := c) (u := f.plug (.border b [x])) (H.layers hsur) hz
      rw [Frame.plug_body] at hfok
      exact absurd (hzk.symm.trans hfok.members.1) (by decide)
  · -- The border above a layer is no interior.
    obtain ⟨b, y, hb, -⟩ := h.vanished ρ hρ hlen
    obtain rfl : BTree.border b [y] = w := Option.some.inj (hb.symm.trans hw)
    obtain rfl : z = b := by simpa [BTree.ids, BTree.descs] using hzw
    have hbok := LayerOk.node_eq (c := []) (u := .border z [y]) (H.layers hb) hz
    obtain ⟨sl, ρ', u, es, rfl, hu, hnb⟩ := H.parent_mem hb (hbok.parent.symm.trans hp)
    obtain ⟨c, rfl⟩ := Ctx.exists_of_border hnb
    exact absurd (hk.symm.trans ((H.layers hu).node_eq hn).members.1) (by decide)

/-- The nodes that leave the tree are the borders left without keys and the interiors left with a single child. -/
theorem lost_iff_left {n : NodeId} (hr : Reachable s ti n) : n ∈ lost ↔ LeftEmpty s s' ti n ∨ LeftSingle s s' ti n := by
  obtain ⟨first, r, hroot, hin⟩ := hr
  obtain ⟨nd, hn⟩ := H.structured.present first r n hroot hin
  have hr : Reachable s ti n := ⟨first, r, hroot, hin⟩
  have hborder := h.leftEmpty_iff H he hv hr hn
  constructor
  · intro hl
    cases hk : nd.kind with
    | border => exact Or.inl (hborder.mpr ⟨hl, hk⟩)
    | interior =>
      obtain ⟨c, f, f', y, b, ht, ht', hcl, rfl, hnil⟩ := h.interior_lost H hl hn hk
      obtain ⟨hkeys, hle, hchild⟩ := h.leave_child H he hv ht (by rw [ht', Ctx.shrink, if_pos hnil]) hcl hn
      have hone : nd.nKeys = 1 := by
        have := hcl.pivots_length
        rw [hnil, List.length_nil] at this
        omega
      refine Or.inr ⟨nd, hn, hk, 1 - f.left.length, ⟨by omega, ?_⟩, ?_⟩
      · obtain ⟨z, hz, hem⟩ := hchild (1 - f.left.length) (by omega)
        exact ⟨z, hz, fun hz' => by have := hem.mp hz'; omega⟩
      · rintro j ⟨hj, z, hz, hne⟩
        obtain ⟨z', hz', hem⟩ := hchild j hj
        obtain rfl : z' = z := Option.some.inj (hz'.symm.trans hz)
        have : j ≠ f.left.length := fun hj => hne (hem.mpr hj)
        omega
  · rintro (hem | ⟨nd', hn', hk, i, ⟨hi, -⟩, huniq⟩)
    · exact (hborder.mp hem).1
    · obtain rfl : nd = nd' := Option.some.inj (hn.symm.trans hn')
      have hshape := H.structured.interiors first r n nd hroot hin hn hk
      -- Some child is an emptied border.
      obtain ⟨j, hj, hji⟩ : ∃ j ≤ nd.nKeys, j ≠ i := by
        have := hshape.count.1
        by_cases h0 : i = 0
        · exact ⟨1, this, by omega⟩
        · exact ⟨0, Nat.zero_le _, fun h => h0 h.symm⟩
      obtain ⟨z, zd, hz, hzd, hzp⟩ := hshape.children j hj
      have hem : LeftEmpty s s' ti z := by
        by_contra hne
        exact hji (huniq j ⟨hj, z, hz, hne⟩)
      obtain ⟨c, f, f', y, b, ht, ht', hcl, rfl⟩ :=
        h.parent_of_emptied H he hv hzd ⟨first, r, hroot, hin.child hn hk hj hz⟩ hem hzp hn hk
      obtain ⟨hkeys, hle, hchild⟩ := h.leave_child H he hv ht ht' hcl hn
      have honly : ∀ j ≤ nd.nKeys, j ≠ f.left.length → j = i := fun j hj hne => by
        obtain ⟨w, hw, hwe⟩ := hchild j hj
        exact huniq j ⟨hj, w, hw, fun he => hne (hwe.mp he)⟩
      have hnil : f'.pivots = [] := by
        refine List.length_eq_zero_iff.mp ?_
        have hlen := hcl.pivots_length
        by_contra hpos
        -- With three children or more, two are left.
        have h0 := honly 0 (by omega)
        have h1 := honly 1 (by omega)
        have h2 := honly 2 (by omega)
        omega
      have hsur := h.survivor
      rw [ht] at hsur
      have hfmem := Ctx.id_mem_ids f c
      refine (h.lost_iff f.id).mpr (Or.inl ⟨ht ▸ mem_plug_border_ids.mpr (Or.inl hfmem), fun hf' => ?_⟩)
      rw [ht'] at hf'
      have hnd := (Ctx.shrink_ids hcl).nodup_iff.mp (H.layers hsur).ids_nodup.1
      refine (List.nodup_append.mp hnd).2.2 f.id ?_ f.id hf' rfl
      rw [Frame.gone, if_pos hnil, hcl.id]
      exact List.mem_singleton_self _

end Cascade

/-- What a removal of the session `token` takes out of the tree `ti`: the nodes `lost`. -/
structure Detaches (s s' : State) (token : Token) (ti : TreeId) (lost : List NodeId) : Prop where
  pushed : s'.nodeContainer = s.nodeContainer ++ lost.map fun n => ⟨token, s.beginEpoch token, n⟩
  once : lost.Nodup
  detached : ∀ n, n ∈ lost ↔ Reachable s ti n ∧ ¬ Reachable s' ti n
  exactly : ∀ n, Reachable s ti n → (n ∈ lost ↔ LeftEmpty s s' ti n ∨ LeftSingle s s' ti n)
  unnamed : ∀ m md, Reachable s' ti m → s'.node m = some md → ∀ n ∈ lost, md.parent ≠ some n ∧
    (md.kind = .border → md.next ≠ some n ∧ md.prev ≠ some n)
  replaced : ∀ n nd, n ∈ lost → s.node n = some nd → nd.kind = .interior → ∃ y yd, Replaced s s' ti n y nd yd

/-- The forest `B` is `A` without the entry `e` of the layer at `π`. The layers from `π` up to below `σ` were borders
    with one entry and are gone; the layer `t` at `σ` lost the entry `x`, which is `e` or the link to the last layer
    that is gone, and became `t'`; the other layers are as they were. -/
structure ForestLoss (A B : Forest) (π σ : Path) (e x : Entry) (t t' : BTree) : Prop where
  suffix : σ <:+ π
  emptied : ∀ ρ, ρ <:+ π → σ.length < ρ.length → (∃ b y, A ρ = some (.border b [y])) ∧ B ρ = none
  entry : (σ = π ∧ x = e) ∨ ∃ sl, (sl :: σ) <:+ π ∧ x.key = ⟨sl, 9⟩ ∧ x.content = .layer
  before : A σ = some t
  after : B σ = some t'
  loss : LayerLoss x t t'
  others : ∀ ρ, ρ ≠ σ → ¬ (σ.length < ρ.length ∧ ρ <:+ π) → B ρ = A ρ

theorem Cascade.forestLoss (h : Cascade s s' token ti A dead π σ e x t t' lost) :
    ForestLoss A (A.without π σ t') π σ e x t t' where
  suffix := h.suffix
  emptied := fun ρ hρ hlen => by
    obtain ⟨b, y, hb, -⟩ := h.vanished ρ hρ hlen
    refine ⟨⟨b, y, hb⟩, ?_⟩
    rw [Forest.without, if_neg (fun heq => by rw [heq] at hlen; omega), if_pos ⟨hlen, hρ⟩]
  entry := h.entry
  before := h.survivor
  after := Forest.without_self
  loss := h.loss
  others := fun _ h1 h2 => Forest.without_eq h1 h2

theorem State.releaseContent_nodeContainer (s : State) (token : Token) (c : Content) :
    (s.releaseContent token c).nodeContainer = s.nodeContainer ∧ (s.releaseContent token c).beginEpoch = s.beginEpoch := by
  cases c with
  | layer => exact ⟨rfl, rfl⟩
  | value v =>
    cases v with
    | word w => exact ⟨rfl, rfl⟩
    | heap v =>
      simp only [releaseContent, release]
      cases s.block v <;> exact ⟨rfl, rfl⟩

theorem Cascade.detaches (h : Cascade s s' token ti A dead π σ e x t t' lost) (H : Holds s ti A dead) (he : A.Has π e)
    (hv : e.content ≠ .layer) : Detaches s s' token ti lost where
  pushed := by
    have hr := h.rest
    simp only [State.rest, Prod.mk.injEq] at hr
    rw [hr.2.2.2.1, State.pushAll]
    obtain ⟨h1, h2⟩ := s.releaseContent_nodeContainer token e.content
    rw [h1, h2]
  once := h.once
  detached := fun _ => h.lost_reachable H he hv
  exactly := fun _ hr => h.lost_iff_left H he hv hr
  unnamed := fun m md hm hmd n hn => by
    have H' := h.holds H he hv
    have hno := ((h.lost_reachable H he hv).mp hn).2
    refine ⟨fun hp => hno (H'.named_reachable hm hmd (Or.inl hp)), fun hk => ⟨fun hx => ?_, fun hx => ?_⟩⟩
    · exact hno (H'.named_reachable hm hmd (Or.inr ⟨hk, Or.inl hx⟩))
    · exact hno (H'.named_reachable hm hmd (Or.inr ⟨hk, Or.inr hx⟩))
  replaced := fun _ _ hn hnd hk => h.replaced H hn hnd hk

/-- In every tree that calls make whose inline words have clear tag bits, `remove` of a bound key ends, and detaches just
    the nodes that it leaves without a use. -/
theorem remove_detaches_emptied {m : MapState} (h : Start ti s m) (calls : List PointCall) (hc : ∀ c ∈ calls, c.Clear) :
    ∃ as s₁,
    Returns (fun fuel => runAll (calls.map fun c => c.prog fuel (pure ()) ti)) s as s₁ ∧
      ∀ token key p len, Returns (fun fuel => get fuel (pure ()) ti key) s₁ (.ok, some (p, len)) s₁ →
        ∃ s₂ lost, Returns (fun fuel => remove fuel (pure ()) token ti key) s₁ .ok s₂ ∧ Detaches s₁ s₂ token ti lost ∧
          ∃ A B dead dead' σ x t t', Holds s₁ ti A dead ∧ Holds s₂ ti B dead' ∧
            ForestLoss A B (keyPath key) σ ⟨.ofKey (keyRest key), .value p⟩ x t t' := by
  obtain ⟨A, hA⟩ := h.refinesIn
  obtain ⟨as, s₁, m₁, hret, -, B, dead, hB⟩ := hA.run calls hc
  refine ⟨as, s₁, hret (pure ()), fun token key p len hg => ?_⟩
  have H := hB.holds
  have hb := H.binds_of_get hg
  obtain ⟨r, s₂, N, hN, hr⟩ := run_remove H token key
  rcases hr with ⟨v, σ, x, t, t', lost, hv, rfl, hcas⟩ | ⟨hno, -⟩
  · obtain rfl := H.binds_inj hb hv
    have hval : (⟨.ofKey (keyRest key), .value p⟩ : Entry).content ≠ .layer := by simp
    exact ⟨s₂, lost, ⟨N, fun fuel hf => hN (pure ()) fuel hf⟩, hcas.detaches H hv hval, B, _, dead, _, σ, x, t, t', H,
      hcas.holds H hv hval,
      hcas.forestLoss⟩
  · exact absurd hb (hno p)

/-- A key of two layers, which are all there is. -/
theorem remove_detaches_emptied_long : ∃ as s₁ p len s₂ lost,
    Returns (fun fuel =>
      runAll (([.put 0 ⟨[1, 2, 3, 4, 5, 6, 7, 8, 9], .word 7, false⟩] : List PointCall).map
      fun c => c.prog fuel (pure ()) 0))
      State.init as s₁ ∧
    Returns (fun fuel => get fuel (pure ()) 0 [1, 2, 3, 4, 5, 6, 7, 8, 9]) s₁ (.ok, some (p, len)) s₁ ∧
    Returns (fun fuel => remove fuel (pure ()) 0 0 [1, 2, 3, 4, 5, 6, 7, 8, 9]) s₁ .ok s₂ ∧ Detaches s₁ s₂ 0 0 lost := by
  obtain ⟨as, s₁, hret, hall⟩ := remove_detaches_emptied (.null rfl : Start 0 State.init ⟨false, ∅⟩)
    [.put 0 ⟨[1, 2, 3, 4, 5, 6, 7, 8, 9], .word 7, false⟩] (by decide)
  obtain ⟨A, hA⟩ := (Start.null rfl : Start 0 State.init ⟨false, ∅⟩).refinesIn
  obtain ⟨as', s₁', m₁, hret', hrun, B, dead, hB⟩ :=
    hA.run [.put 0 ⟨[1, 2, 3, 4, 5, 6, 7, 8, 9], .word 7, false⟩] (by decide)
  obtain ⟨rfl, rfl⟩ := hret.det (hret' (pure ()))
  obtain ⟨b, hlook⟩ : ∃ b, m₁.map.lookup [1, 2, 3, 4, 5, 6, 7, 8, 9] = some b := by
    cases hrun with
    | cons hstep hrest =>
      cases hrest
      cases hstep with
      | put token args v node hu hf => exact ⟨_, Finmap.lookup_insert _⟩
      | putUnique token args b hu hb => simp at hu
  have hbind := (hB.binds [1, 2, 3, 4, 5, 6, 7, 8, 9] b.ptr).mpr ⟨b.value, hlook⟩
  obtain ⟨r, N, hN, hr⟩ := run_get hB.holds [1, 2, 3, 4, 5, 6, 7, 8, 9]
  rcases hr with ⟨p, -, rfl⟩ | ⟨hno, -⟩
  · have hget : Returns (fun fuel => get fuel (pure ()) 0 [1, 2, 3, 4, 5, 6, 7, 8, 9]) s₁ _ s₁ :=
      ⟨N, fun fuel hf => hN (pure ()) fuel hf⟩
    obtain ⟨s₂, lost, hrem, hdet, -⟩ := hall 0 _ p _ hget
    exact ⟨as, s₁, p, _, s₂, lost, hret, hget, hrem, hdet⟩
  · exact absurd hbind (hno _)

/-- The slot of a short key looks like a link to the emptied layer and comes first: it is removed in the place of the
    link, which goes on leading to the detached border. -/
theorem tagged_word_keeps_link : ¬ ∀ (s : State) (ti : TreeId) (m : MapState), Start ti s m →
    ∀ calls : List PointCall, ∃ as s₁,
    Returns (fun fuel => runAll (calls.map fun c => c.prog fuel (pure ()) ti)) s as s₁ ∧
      ∀ token key p len, Returns (fun fuel => get fuel (pure ()) ti key) s₁ (.ok, some (p, len)) s₁ →
        ∃ s₂ lost, Returns (fun fuel => remove fuel (pure ()) token ti key) s₁ .ok s₂ ∧ Detaches s₁ s₂ token ti lost := by
  intro hall
  obtain ⟨as, s₁, hret, hrem⟩ := hall State.init 0 ⟨false, ∅⟩ (.null rfl) linkedTwice
  obtain ⟨-, rfl⟩ := hret.det linkedTwice_returns
  have hget : Returns (fun fuel => get fuel (pure ()) 0 [97, 97, 97, 97, 97, 97, 97, 97, 98]) linkedTwiceState
    (.ok, some (.word 5, 8))
      linkedTwiceState := by
    refine ⟨64, fun fuel hf => ?_⟩
    obtain ⟨n, rfl⟩ := Nat.exists_eq_add_of_le' hf
    cbv
  obtain ⟨s₂, lost, hret₂, hdet⟩ := hrem 0 _ _ _ hget
  have hroot : s₂.root 0 = some 0 := hret₂.eval (fun r => r.2.root 0) (k := 64) fun n => by cbv
  have hborder : (s₂.node 0).map (fun nd => (nd.kind, slotsOf nd.permutation, nd.lv 0)) = some (.border, [0], .link 1) :=
    hret₂.eval (fun r => (r.2.node 0).map fun nd => (nd.kind, slotsOf nd.permutation, nd.lv 0)) (k := 64) fun n => by cbv
  have hpushed : s₂.nodeContainer = linkedTwiceState.nodeContainer ++ [⟨0, 0, 1⟩] :=
    hret₂.eval (fun r => r.2.nodeContainer) (k := 64) fun n => by cbv
  obtain ⟨nd, hn, hnd⟩ := Option.map_eq_some_iff.mp hborder
  simp only [Prod.mk.injEq] at hnd
  obtain ⟨hk, hslots, hlink⟩ := hnd
  have hlost : 1 ∈ lost := by
    have hmem := List.append_cancel_left (hdet.pushed.symm.trans hpushed)
    cases lost with
    | nil => simp at hmem
    | cons x lost =>
      simp only [List.map_cons, List.cons.injEq, Garbage.mk.injEq] at hmem
      rw [hmem.1.2.2]
      exact List.mem_cons_self
  exact ((hdet.detached 1).mp hlost).2
    ⟨false, 1, .next (.first hroot) .root hn hk (by rw [hslots]; exact List.mem_singleton_self 0) hlink, .root⟩

end
end Yakushima
