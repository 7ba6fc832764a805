import Yakushima.Theorems.LayerDelete

/-! # The layers of a tree

A tree of the code is a forest of layers. A layer is named by the slices on the way to it, the nearest
first; the layer at `sl :: π` hangs under the entry of the slice `sl` in the layer at `π`. `Holds` says
that the memory holds a given forest below a root pointer. -/

namespace Yakushima
open M Permutation

/-- The slices that lead to a layer, the last one first. -/
abbrev Path := List KeySlice

abbrev Forest := Path → Option BTree

/-! ### The borders of a layer by its entries -/

/-- The border that holds the entry of the layer behind a slice. -/
def BTree.linkBorder (t : BTree) (sl : KeySlice) : Ptr :=
  (t.borders.find? fun b => b.2.any fun e => decide (e.key.slice = sl ∧ e.content = .layer)).map (·.1)

/-- The entries are in order when the marks are. -/
theorem BTree.entries_sublist_flat (t : BTree) : (t.entries.map Entry.mark).Sublist t.flat := by
  induction t with
  | border i es => simp [entries, borders, flat]
  | interior i f r hf hr =>
    simp only [entries, borders, bordersRest_eq, flat, flatRest_eq, List.flatMap_append, List.map_append]
    refine hf.append ?_
    clear hf
    induction r with
    | nil => simp
    | cons x r ih =>
      simp only [List.flatMap_cons, List.flatMap_append, List.map_append]
      exact ((hr x List.mem_cons_self).cons _).append (ih fun p hp => hr p (List.mem_cons_of_mem _ hp))

section
variable {s s' : State} {par : Ptr} {link : KeySlice → Ptr} {dead : NodeId → Prop} {t : BTree}

theorem LayerOk.entries_sorted (h : LayerOk s par link dead t) : (t.entries.map Entry.mark).Pairwise (· < ·) :=
  h.sorted.sublist t.entries_sublist_flat

theorem LayerOk.marks_nodup (h : LayerOk s par link dead t) : (t.entries.map Entry.mark).Nodup :=
  h.entries_sorted.imp fun hlt => Nat.ne_of_lt hlt

/-- An entry is known by its key. -/
theorem LayerOk.entry_inj (h : LayerOk s par link dead t) {e e' : Entry} (he : e ∈ t.entries) (he' : e' ∈ t.entries)
    (hk : e.key = e'.key) : e = e' :=
  List.inj_on_of_nodup_map h.marks_nodup he he' (by rw [Entry.mark, Entry.mark, hk])

/-- An entry is in one border. -/
theorem LayerOk.border_inj (h : LayerOk s par link dead t) {x x' : NodeId × List Entry} {e : Entry} (hx : x ∈ t.borders)
    (hx' : x' ∈ t.borders) (he : e ∈ x.2) (he' : e ∈ x'.2) : x = x' := by
  by_contra hne
  exact Lib.not_mem_of_nodup_flatMap (List.Nodup.of_map _ h.marks_nodup) hx hx' hne he he'

theorem LayerOk.layer_key (h : LayerOk s par link dead t) {e : Entry} (he : e ∈ t.entries) (hc : e.content = .layer) :
    e.key = ⟨e.key.slice, 9⟩ := by
  have := (h.entry_ok he).2.mp hc
  obtain ⟨⟨sl, l⟩, c⟩ := e
  simp only at this ⊢
  rw [this]

/-- The layer entries are known by their slices. -/
theorem LayerOk.layer_inj (h : LayerOk s par link dead t) {e e' : Entry} (he : e ∈ t.entries) (he' : e' ∈ t.entries)
    (hc : e.content = .layer) (hc' : e'.content = .layer) (hs : e.key.slice = e'.key.slice) : e = e' := by
  refine h.entry_inj he he' ?_
  rw [h.layer_key he hc, h.layer_key he' hc', hs]

theorem LayerOk.linkBorder_eq (h : LayerOk s par link dead t) {b : NodeId} {es : List Entry} {e : Entry}
    (hb : (b, es) ∈ t.borders) (he : e ∈ es) (hc : e.content = .layer) : t.linkBorder e.key.slice = some b := by
  rw [BTree.linkBorder]
  cases hf : t.borders.find? fun b => b.2.any fun x => decide (x.key.slice = e.key.slice ∧ x.content = .layer) with
  | none =>
    have := List.find?_eq_none.mp hf (b, es) hb
    simp only [List.any_eq_true, decide_eq_true_eq, not_exists, not_and] at this
    exact absurd hc (this e he rfl)
  | some x =>
    have hany := List.find?_some hf
    obtain ⟨y, hy, hyt⟩ := List.any_eq_true.mp hany
    have hx := List.mem_of_find?_eq_some hf
    obtain ⟨hys, hyc⟩ := of_decide_eq_true hyt
    have hye : y = e := h.layer_inj (BTree.mem_entries.mpr ⟨x.1, x.2, hx, hy⟩)
      (BTree.mem_entries.mpr ⟨b, es, hb, he⟩) hyc hc hys
    have := h.border_inj hx hb hy (by rw [hye]; exact he)
    rw [this]
    rfl

theorem BTree.HasLayer.border {sl : KeySlice} (h : t.HasLayer sl) : ∃ b es e, (b, es) ∈ t.borders ∧ e ∈ es ∧
    e.key.slice = sl ∧
    e.content = .layer := by
  obtain ⟨e, he, hs, hc⟩ := h
  obtain ⟨b, es, hb, he⟩ := BTree.mem_entries.mp he
  exact ⟨b, es, e, hb, he, hs, hc⟩

end

/-! ### A layer below gets another root -/

theorem slot_link {link : KeySlice → Ptr} {e : Entry} {m : NodeId} :
    (e.slot link).2 = .link m ↔ e.content = .layer ∧ link e.key.slice = some m := by
  cases hc : e.content with
  | value v => simp [Entry.slot, hc]
  | layer => cases hl : link e.key.slice <;> simp [Entry.slot, hc, hl]

/-- A change of a version word that keeps it at rest and its flags. -/
structure Bumps (bump : Version → Version) : Prop where
  stable : ∀ v, v.stable = true → (bump v).stable = true
  root : ∀ v, (bump v).root = v.root
  border : ∀ v, (bump v).border = v.border
  deleted : ∀ v, (bump v).deleted = v.deleted

theorem bumps_id : Bumps id := ⟨fun _ h => h, fun _ => rfl, fun _ => rfl, fun _ => rfl⟩

theorem bumps_inserted : Bumps Version.inserted :=
  ⟨fun v _ => v.inserted_stable, Version.inserted_root, Version.inserted_border, Version.inserted_deleted⟩

/-- The roots of the layers below, with the one behind a slice replaced. -/
def relink (link : KeySlice → Ptr) (sl : KeySlice) (new : NodeId) : KeySlice → Ptr :=
  fun x => if x = sl then some new else link x

section
variable {s s' : State} {ti : TreeId} {par : Ptr} {link : KeySlice → Ptr} {dead : NodeId → Prop} {t : BTree} {p : NodeId}
  {es : List Entry} {e : Entry} {old new : NodeId} {pd pd' : Node} {bump : Version → Version}

/-- The members of a border whose slot for a layer was led to another root. -/
theorem MembersOk.relink {v : Version} (h : MembersOk link dead pd (.border es)) (hs : (es.map Entry.mark).Nodup)
    (he : e ∈ es) (hl : ∀ x ∈ es, (x.slot link).2 = .link old ↔ x = e)
    (hlayer : ∀ x ∈ es, x.content = .layer → x.key.slice = e.key.slice → x = e) (halive : ¬ dead old)
    (hb : v.border = pd.version.border) (hd : v.deleted = pd.version.deleted) (hr : Relinked old new v pd pd') :
    MembersOk (relink link e.key.slice new) dead pd' (.border es) := by
  obtain ⟨h1, h2, h3, h4, h5, h6, h7⟩ := h
  obtain ⟨i, hi, hil, rfl⟩ := hr
  have hrank : ∀ {r j : Nat}, (slotsOf pd.permutation)[r]? = some j → ∃ x, es[r]? = some x ∧ pd.slot j = x.slot link := by
    intro r j hj
    have hr : pd.slots[r]? = some (pd.slot j) := by rw [Node.slots, List.getElem?_map, hj]; rfl
    rw [h6, List.getElem?_map] at hr
    obtain ⟨x, hx, hslot⟩ := Option.map_eq_some_iff.mp hr
    exact ⟨x, hx, hslot.symm⟩
  have hnd : es.Nodup := List.Nodup.of_map _ hs
  -- The slot is live: a slot outside the permutation would point to a node that is gone.
  have hlive : i ∈ slotsOf pd.permutation := by
    by_contra hni
    have := h7 i hi hni
    rw [hil] at this
    exact halive this
  obtain ⟨ri, hri⟩ := List.mem_iff_getElem?.mp hlive
  have heri : es[ri]? = some e := by
    obtain ⟨x, hx, hxs⟩ := hrank hri
    rw [hx, (hl x (List.mem_of_getElem? hx)).mp ((congrArg Prod.snd hxs).symm.trans hil)]
  refine ⟨h1, hb.trans h2, fun hne => hd.trans (h3 hne), h4, h5, ?_, fun j hj hnj => ?_⟩
  · rw [Node.slots]
    refine List.ext_getElem? fun r => ?_
    rw [List.getElem?_map, List.getElem?_map]
    simp only
    cases hj : (slotsOf pd.permutation)[r]? with
    | none =>
      have hlen : es.length ≤ r := by
        have hl6 := congrArg List.length h6
        rw [List.length_map, Node.slots, List.length_map] at hl6
        rw [← hl6]
        exact List.getElem?_eq_none_iff.mp hj
      rw [List.getElem?_eq_none hlen]
      rfl
    | some j =>
      obtain ⟨x, hx, hxs⟩ := hrank hj
      rw [hx]
      refine congrArg some ?_
      have hxm := List.mem_of_getElem? hx
      by_cases hxe : x = e
      · subst hxe
        have hrr : r = ri := (List.getElem?_inj (List.getElem?_eq_some_iff.mp hx).1 hnd).mp (hx.trans heri.symm)
        obtain rfl : j = i := Option.some.inj (hj.symm.trans (hrr ▸ hri))
        have hc : x.content = .layer := (slot_link.mp ((hl x hxm).mpr rfl)).1
        have hk : pd.key j = x.key := congrArg Prod.fst hxs
        have hslot : x.slot (Yakushima.relink link x.key.slice new) = (x.key, .link new) :=
          Prod.ext rfl (slot_link.mpr ⟨hc, if_pos rfl⟩)
        rw [hslot, Node.slot]
        simp only [upd_same]
        exact Prod.ext hk rfl
      · have hji : j ≠ i := by
          rintro rfl
          exact hxe ((hl x hxm).mp ((congrArg Prod.snd hxs).symm.trans hil))
        have hkeep : x.slot (Yakushima.relink link e.key.slice new) = x.slot link :=
          Entry.slot_congr fun hc => if_neg fun hs => hxe (hlayer x hxm hc hs)
        rw [hkeep, ← hxs, Node.slot, Node.slot]
        simp only [upd_ne hji]
        rfl
  · have hji : j ≠ i := fun h => hnj (h ▸ hlive)
    simp only [upd_ne hji]
    exact h7 j hj hnj

/-- The layer above one whose root was replaced. -/
theorem LayerOk.relink (h : LayerOk s par link dead t) (hp : (p, es) ∈ t.borders) (he : e ∈ es)
    (hl : ∀ x ∈ t.entries, (x.slot link).2 = .link old ↔ x = e) (halive : ¬ dead old) (hbump : Bumps bump)
    (ha : Above bump s s' ti (some p) old new) (hs : ∀ n ∈ t.ids, n ≠ p → s'.node n = s.node n) :
    LayerOk s' par (relink link e.key.slice new) dead t := by
  have hmem : ∀ {b : NodeId} {fs : List Entry} {x : Entry}, (b, fs) ∈ t.borders → x ∈ fs → x ∈ t.entries := fun hb hx =>
    BTree.mem_entries.mpr ⟨_, _, hb, hx⟩
  obtain ⟨hc, hold⟩ := slot_link.mp ((hl e (hmem hp he)).mpr rfl)
  rcases ha with ⟨rfl, -, hb⟩ | ⟨hpar, -⟩ | ⟨q, pd, pd', hpar, -, hbef, haft, hslot⟩
  · refine h.frame (fun n hn => ?_) (fun _ hd => hd) fun sl _ => ?_
    · by_cases hnp : n = p
      · exact hnp ▸ hb p rfl
      · exact hs n hn hnp
    · by_cases hsl : sl = e.key.slice
      · rw [Yakushima.relink, if_pos hsl, hsl, hold]
      · exact if_neg hsl
  · exact absurd hpar (by simp)
  · obtain rfl : p = q := Option.some.inj hpar
    have hpd : ∃ par' rt, NodeOk link dead pd ⟨par', rt, .border es⟩ ∧ (p, ⟨par', rt, .border es⟩) ∈ t.descs par true := by
      obtain ⟨par', rt, hd⟩ := BTree.border_desc hp par true
      obtain ⟨nd, hn, hok⟩ := h.nodes _ hd
      obtain rfl : nd = pd := Option.some.inj (hn.symm.trans hbef)
      exact ⟨par', rt, hok, hd⟩
    obtain ⟨par', rt, hok, hd⟩ := hpd
    have hver : pd'.version = bump pd.version ∧ pd'.parent = pd.parent ∧ pd'.prev = pd.prev ∧ pd'.next = pd.next := by
      obtain ⟨i, -, -, rfl⟩ := hslot
      exact ⟨rfl, rfl, rfl, rfl⟩
    have hesub : (es.map Entry.mark).Nodup := by
      refine h.marks_nodup.sublist (List.Sublist.map _ ?_)
      rw [BTree.entries]
      obtain ⟨l₁, l₂, hl⟩ := List.append_of_mem hp
      rw [hl, List.flatMap_append, List.flatMap_cons]
      exact (List.sublist_append_left _ _).trans (List.sublist_append_right _ _)
    have hmembers : MembersOk (Yakushima.relink link e.key.slice new) dead pd' (.border es) :=
      hok.members.relink hesub he (fun x hx => hl x (hmem hp hx))
        (fun x hx hxc hxs => h.layer_inj (hmem hp hx) (hmem hp he) hxc hc hxs) halive (hbump.border _)
          (hbump.deleted _) hslot
    refine ⟨fun x hx => ?_, h.nodup, h.sorted, h.nonempty, ?_⟩
    · by_cases hxp : x.1 = p
      · have hxe : x = (p, ⟨par', rt, .border es⟩) := by
          have hnd := h.nodup
          rw [← BTree.map_fst_descs par true] at hnd
          exact List.inj_on_of_nodup_map hnd hx hd hxp
        subst hxe
        refine ⟨pd', haft, ⟨⟨hver.2.1.trans hok.parent, ?_, hok.body, hmembers⟩, ?_⟩⟩
        · rw [hver.1, hbump.root]
          exact hok.root
        · rw [hver.1]
          exact hbump.stable _ hok.stable
      · obtain ⟨nd, hn, hxok⟩ := h.nodes x hx
        refine ⟨nd, (hs x.1 (BTree.mem_ids_of_desc hx) hxp).trans hn, hxok.mono (fun _ hd => hd) fun sl hsl => if_neg ?_⟩
        rintro rfl
        obtain ⟨n, q, r, body⟩ := x
        cases body with
        | interior pivots kids => exact hsl
        | border fs =>
          obtain ⟨y, hy, hys, hyc⟩ := hsl
          have hb' := BTree.desc_border hx
          have hye : y = e := h.layer_inj (hmem hb' hy) (hmem hp he) hyc hc hys
          exact hxp (congrArg Prod.fst (h.border_inj hb' hp hy (by rw [hye]; exact he)))
    · refine h.chain.congr fun b hb nd hn => ?_
      by_cases hbp : b = p
      · subst hbp
        obtain rfl : nd = pd := Option.some.inj (hn.symm.trans hbef)
        exact ⟨pd', haft, hver.2.2⟩
      · obtain ⟨⟨n, fs⟩, hn', rfl⟩ := List.mem_map.mp hb
        exact ⟨nd, (hs n (BTree.border_mem_ids hn') hbp).trans hn, rfl, rfl⟩

end

/-! ### Forests -/

namespace Forest
variable (A : Forest)

/-- The roots of the layers below the layer at a path. -/
def link (π : Path) (sl : KeySlice) : Ptr := (A (sl :: π)).map BTree.id

/-- The border that the layer at a path hangs under. -/
def parent : Path → Ptr
  | [] => none
  | sl :: π => (A π).bind fun t => t.linkBorder sl

/-- What a forest is, whatever memory holds it. -/
structure Ok : Prop where
  linked : ∀ sl π, (∃ u, A (sl :: π) = some u) ↔ ∃ t, A π = some t ∧ t.HasLayer sl
  disjoint : ∀ {π ρ t u x}, A π = some t → A ρ = some u → x ∈ t.ids → x ∈ u.ids → π = ρ
  nonempty : ∀ {sl π t}, A (sl :: π) = some t → t.entries ≠ []
  positive : ∀ {sl π t}, A (sl :: π) = some t → ∀ e ∈ t.entries, e.key.length ≠ 0
  bounded : ∃ D, ∀ π t, A π = some t → π.length ≤ D

/-- The entries of a forest with the layers they are in. -/
def Has (π : Path) (e : Entry) : Prop := ∃ t, A π = some t ∧ e ∈ t.entries

end Forest

/-- The memory holds the forest `A` below the root pointer of the tree `ti`. The nodes of `dead` are gone;
    stale slots may still point to them. -/
structure Holds (s : State) (ti : TreeId) (A : Forest) (dead : NodeId → Prop) : Prop where
  ok : A.Ok
  root : s.root ti = (A []).map BTree.id
  layers : ∀ {π t}, A π = some t → LayerOk s (A.parent π) (A.link π) dead t
  fresh : ∀ {π t x}, A π = some t → x ∈ t.ids → x < s.nextNode
  alive : ∀ {π t x}, A π = some t → x ∈ t.ids → ¬ dead x
  gone : ∀ x, dead x → x < s.nextNode
  blocks : ∀ {π e v}, A.Has π e → e.content = .value (.heap v) → v < s.nextBlock ∧ ∃ b, s.block v = some b
  owned : ∀ {π ρ e e' v}, A.Has π e → A.Has ρ e' → e.content = .value (.heap v) → e'.content = .value (.heap v) →
    π = ρ ∧ e = e'

theorem path_ne_cons (sl : KeySlice) (π : Path) : π ≠ sl :: π := fun h => by
  have := congrArg List.length h
  simp at this

namespace Holds
variable {s : State} {ti : TreeId} {A : Forest} {dead : NodeId → Prop} {π : Path} {t : BTree} {sl : KeySlice}

/-- The border above a layer, with the entry of the layer. -/
theorem above (h : Holds s ti A dead) {u : BTree} (hu : A (sl :: π) = some u) : ∃ t b es e, A π = some t ∧
    (b, es) ∈ t.borders ∧
    e ∈ es ∧ e.key = ⟨sl, 9⟩ ∧ e.content = .layer ∧ A.parent (sl :: π) = some b ∧ A.link π sl = some u.id := by
  obtain ⟨t, ht, hl⟩ := (h.ok.linked sl π).mp ⟨u, hu⟩
  obtain ⟨b, es, e, hb, he, rfl, hc⟩ := hl.border
  have hL := h.layers ht
  refine ⟨t, b, es, e, ht, hb, he, hL.layer_key (BTree.mem_entries.mpr ⟨b, es, hb, he⟩) hc, hc, ?_, ?_⟩
  · rw [Forest.parent, ht]
    exact hL.linkBorder_eq hb he hc
  · rw [Forest.link, hu]
    rfl

/-- The layer behind an entry. -/
theorem behind (h : Holds s ti A dead) (ht : A π = some t) {b : NodeId} {es : List Entry} {e : Entry}
    (hb : (b, es) ∈ t.borders) (he : e ∈ es) (hc : e.content = .layer) : ∃ u, A (e.key.slice :: π) = some u ∧
    A.parent (e.key.slice :: π) = some b := by
  obtain ⟨u, hu⟩ := (h.ok.linked e.key.slice π).mpr ⟨t, ht, e, BTree.mem_entries.mpr ⟨b, es, hb, he⟩, rfl, hc⟩
  refine ⟨u, hu, ?_⟩
  rw [Forest.parent, ht]
  exact (h.layers ht).linkBorder_eq hb he hc

theorem parent_mem (h : Holds s ti A dead) (ht : A π = some t) {p : NodeId} (hp : A.parent π = some p) :
    ∃ sl ρ u es, π = sl :: ρ ∧ A ρ = some u ∧ (p, es) ∈ u.borders := by
  cases π with
  | nil => exact absurd hp (by simp [Forest.parent])
  | cons sl ρ =>
    obtain ⟨u, b, es, e, hu, hb, -, -, -, hpar, -⟩ := h.above ht
    obtain rfl : b = p := Option.some.inj (hpar.symm.trans hp)
    exact ⟨sl, ρ, u, es, rfl, hu, hb⟩

theorem parent_out (h : Holds s ti A dead) (ht : A π = some t) {p : NodeId} (hp : A.parent π = some p) :
    p ∉ t.ids ∧ p < s.nextNode := by
  obtain ⟨sl, ρ, u, es, rfl, hu, hb⟩ := h.parent_mem ht hp
  refine ⟨fun hpt => ?_, h.fresh hu (BTree.border_mem_ids hb)⟩
  exact path_ne_cons sl ρ (h.ok.disjoint hu ht (BTree.border_mem_ids hb) hpt)

/-- The layers below a layer hang under its borders. -/
theorem below (h : Holds s ti A dead) (ht : A π = some t) : Below s (A.parent π) (A.link π) t := by
  have hlink : ∀ {e : Entry} {m : NodeId}, (e.slot (A.link π)).2 = .link m → e.content = .layer ∧
    ∃ u, A (e.key.slice :: π) = some u ∧ u.id = m := by
    intro e m hm
    obtain ⟨hc, hl⟩ := slot_link.mp hm
    obtain ⟨u, hu, hid⟩ := Option.map_eq_some_iff.mp hl
    exact ⟨hc, u, hu, hid⟩
  refine ⟨fun b es e m hb he hm => ?_, fun e he e' he' m hm hm' => ?_⟩
  · obtain ⟨hc, u, hu, rfl⟩ := hlink hm
    have hpar : A.parent (e.key.slice :: π) = some b := by
      rw [Forest.parent, ht]
      exact (h.layers ht).linkBorder_eq hb he hc
    refine ⟨fun hmt => path_ne_cons _ π (h.ok.disjoint ht hu hmt u.id_mem_ids), h.fresh hu u.id_mem_ids, fun hp => ?_, ?_⟩
    · obtain ⟨sl, ρ, v, fs, rfl, hv, hpb⟩ := h.parent_mem ht hp
      have := h.ok.disjoint hv hu (BTree.border_mem_ids hpb) u.id_mem_ids
      have := congrArg List.length this
      simp only [List.length_cons] at this
      omega
    · obtain ⟨md, hmd, hok⟩ := LayerOk.node_at (c := []) (h.layers hu)
      exact ⟨md, hmd, hok.parent.trans hpar⟩
  · obtain ⟨hc, u, hu, hid⟩ := hlink hm
    obtain ⟨hc', u', hu', hid'⟩ := hlink hm'
    have := h.ok.disjoint hu hu' u.id_mem_ids (by rw [hid, ← hid']; exact u'.id_mem_ids)
    exact (h.layers ht).layer_inj he he' hc hc' (List.cons.inj this).1

/-- The place that points to a layer, in a memory that holds the layer above. -/
theorem upper_in (h : Holds s ti A dead) {s' : State} (hroot : s'.root ti = s.root ti) (ht : A π = some t)
    (hl : ∀ sl ρ u, π = sl :: ρ → A ρ = some u → LayerOk s' (A.parent ρ) (A.link ρ) dead u) :
    Upper s' ti (A.parent π) t.id := by
  refine ⟨fun hp => ?_, fun p hp => ?_⟩
  · cases π with
    | nil => rw [hroot, h.root, ht]; rfl
    | cons sl ρ =>
      obtain ⟨-, b, -, -, -, -, -, -, -, hpar, -⟩ := h.above ht
      exact absurd (hpar.symm.trans hp) (by simp)
  · cases π with
    | nil => exact absurd hp (by simp [Forest.parent])
    | cons sl ρ =>
      obtain ⟨u, b, es, e, hu, hb, he, hkey, hc, hpar, hlink⟩ := h.above ht
      obtain rfl : b = p := Option.some.inj (hpar.symm.trans hp)
      obtain ⟨q, rt, hd⟩ := BTree.border_desc hb (A.parent ρ) true
      obtain ⟨pd, hpd, hok⟩ := (hl sl ρ u rfl hu).nodes _ hd
      obtain ⟨r, hr⟩ := List.mem_iff_getElem?.mp he
      obtain ⟨i, hi, hi15, hslot⟩ := slot_of_rank hok.toNodeFits hr
      refine ⟨pd, hpd, hok.members.1, hok.members.2.1, hok.members.2.2.1 (List.ne_nil_of_mem he), hok.stable, i, hi15, ?_⟩
      refine (congrArg Prod.snd hslot).trans (slot_link.mpr ⟨hc, ?_⟩)
      rw [hkey]
      exact hlink

theorem upper (h : Holds s ti A dead) (ht : A π = some t) : Upper s ti (A.parent π) t.id :=
  h.upper_in rfl ht fun _ _ _ _ hu => h.layers hu

end Holds
end Yakushima
