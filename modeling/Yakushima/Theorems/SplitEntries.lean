import Yakushima.Theorems.Put

/-! # The entries of a border that splits

`border_split` on a full border: the entries of the two borders after it, the pivot between them, the layers
behind the moved entries and the places of the borders in the leaf chain. -/

namespace Yakushima
open M Permutation

section
variable {s s' s₂ : State} {ti : TreeId} {A : Forest} {dead : NodeId → Prop} {par : Ptr} {link : KeySlice → Ptr}
  {c : Ctx} {b target : NodeId} {es lo hi es₁ es₂ : List Entry} {front : Entry} {bd ld rd : Node} {key : Key}
  {v : ValuePtr} {π : Path} {rank : Nat}

/-- A key between the sides of a context is in none of its borders. -/
theorem Ctx.Between.absent (hbt : Ctx.Between c (KeyTuple.ofKey key).code) (hes : ∀ e ∈ es, e.key ≠ .ofKey key) :
    ∀ e ∈ (Ctx.plug c (.border b es)).entries, e.key ≠ .ofKey key := by
  intro e he hk
  rw [entries_plug, List.mem_append, List.mem_append] at he
  rcases he with (he | he) | he
  · have := hbt.1 _ (Ctx.mark_mem_flatLeft he)
    rw [Entry.mark, hk] at this
    exact Nat.lt_irrefl _ this
  · exact hes e he hk
  · have := hbt.2 _ (Ctx.mark_mem_flatRight he)
    rw [Entry.mark, hk] at this
    exact Nat.lt_irrefl _ this

/-- A layer behind a new entry is behind none of the old entries of a border. -/
theorem LayerOk.slot_linkWith (h : LayerOk s par link dead (Ctx.plug c (.border b es))) {m : NodeId}
    (habs : ∀ e ∈ (Ctx.plug c (.border b es)).entries, e.key ≠ .ofKey key) {e : Entry} (he : e ∈ es) :
    e.slot (linkWith link key m) = e.slot link := by
  exact Entry.slot_congr fun hc => h.linkWith_eq habs ⟨e, mem_plug_entries he, rfl, hc⟩

/-- The slots of the entries with a new one are those of the old entries with the slot of the new one. -/
theorem LayerOk.slots_insert (h : LayerOk s par link dead (Ctx.plug c (.border b (lo ++ hi)))) {m : NodeId}
    (habs : ∀ e ∈ (Ctx.plug c (.border b (lo ++ hi))).entries, e.key ≠ .ofKey key) :
    (lo ++ entryOf key v :: hi).map (Entry.slot (linkWith link key m)) =
      ((lo ++ hi).map (Entry.slot link)).insertIdx lo.length (.ofKey key, lvOf key v m) := by
  have hlen : lo.length = (lo.map (Entry.slot link)).length := (List.length_map _).symm
  rw [List.map_append, List.map_append, List.map_cons, entryOf_slot, hlen, Lib.insertIdx_append_length,
    List.map_congr_left fun e he => h.slot_linkWith habs (List.mem_append_left _ he),
    List.map_congr_left fun e he => h.slot_linkWith habs (List.mem_append_right _ he)]

/-- The sizes of the halves: each has only entries of its half of the old border and perhaps the new one. -/
theorem BorderSplitPost.sizes (h : BorderSplitPost link dead s s₂ s' ti par c b lo hi es₁ front es₂ bd ld rd key v target)
    (hfull : (lo ++ hi).length = 15) :
    es₁.length = 8 ∧ (front :: es₂).length = 8 ∨ es₁.length = 9 ∧ (front :: es₂).length = 7 := by
  have hnd : (es₁ ++ front :: es₂).Nodup := by
    have := (List.pairwise_append.mp (List.pairwise_append.mp h.sorted).1).2.1
    exact (this.imp Nat.ne_of_lt).of_map _ fun x y hxy he => hxy (by rw [he])
  obtain ⟨hnd₁, hnd₂, -⟩ := List.nodup_append.mp hnd
  have hle₁ : es₁.length ≤ (entryOf key v :: (lo ++ hi).take 8).length :=
    (List.subperm_of_subset hnd₁ fun e he => List.mem_cons.mpr (h.halves.keptLeft e he)).length_le
  have hle₂ : (front :: es₂).length ≤ (entryOf key v :: (lo ++ hi).drop 8).length :=
    (List.subperm_of_subset hnd₂ fun e he => List.mem_cons.mpr (h.halves.keptRight e he)).length_le
  have hsum := congrArg List.length h.split
  rw [List.length_append] at hsum hfull
  simp only [List.length_append, List.length_cons, List.length_take, List.length_drop] at hle₁ hle₂ hsum ⊢
  omega

/-- The nodes behind the entries of the right half have the new border as their parent. -/
theorem BorderSplitPost.links (h : InsertPlace s ti par link dead c b lo hi bd key)
    (P : BorderSplitPost link dead s s₂ s' ti par c b lo hi es₁ front es₂ bd ld rd key v target) {e : Entry}
    (he : e ∈ front :: es₂) {m : NodeId} (hm : (e.slot (linkWith link key (s.nextNode + 1))).2 = .link m) :
    ∃ md, s'.node m = some md ∧ md.parent = some s.nextNode := by
  have hnext := P.nextNode.1
  rcases P.halves.keptRight e he with rfl | hold
  · -- The new entry: its layer, if any, was made under the border that took it.
    have hlong : 8 < key.length := by
      by_contra hshort
      rw [entryOf_slot, lvOf, if_pos (by omega)] at hm
      exact absurd hm (by simp)
    rw [entryOf_slot, lvOf, if_neg (by omega)] at hm
    obtain rfl : s.nextNode + 1 = m := LinkOrValue.link.inj hm
    have hlayers : 0 < layers key := by
      rw [layers]
      omega
    have htarget : target = s.nextNode := by
      rcases P.halves.newEntry with ⟨-, hl⟩ | ⟨ht, -⟩
      · have := (List.pairwise_append.mp (List.pairwise_append.mp P.sorted).1).2.1
        rw [List.map_append, List.pairwise_append] at this
        exact absurd (this.2.2 _ (List.mem_map_of_mem hl) _ (List.mem_map_of_mem he)) (Nat.lt_irrefl _)
      · exact ht
    exact ⟨_, P.newLayers h 0 hlayers, by rw [htarget]; rfl⟩
  · rw [h.layer.slot_linkWith h.absent (List.mem_of_mem_drop hold)] at hm
    have hl : LinksTo link ((lo ++ hi).drop 8) m := ⟨e, hold, hm⟩
    obtain ⟨hmc, hmb, hmlt, hmp, md, hmd, -⟩ := h.links hl
    rw [P.frame_end (fun hx => (mem_plug_border_ids.mp hx).elim hmc hmb) (Nat.ne_of_lt hmlt) (by lia) hmp,
      P.halves.moved_node h hl, hmd]
    exact ⟨_, rfl, rfl⟩

/-- The memory `s'` after the full border `b`, which had the members `bd` in `s`, was split for a key of a rank. The
    right border has the first identity that was free in `s`; a new layer behind the key, if the key needs one, has the
    next. -/
structure SplitEntries (s s' : State) (b : NodeId) (bd ld rd : Node) (key : Key) (v : ValuePtr) (rank : Nat) : Prop where
  left : s'.node b = some ld
  right : s'.node s.nextNode = some rd
  entries : ld.slots ++ rd.slots = bd.slots.insertIdx rank (.ofKey key, lvOf key v (s.nextNode + 1))
  sorted : ((ld.slots ++ rd.slots).map (·.1.code)).Pairwise (· < ·)
  sizes : ld.slots.length = 8 ∧ rd.slots.length = 8 ∨ ld.slots.length = 9 ∧ rd.slots.length = 7
  links : ∀ x ∈ rd.slots, ∀ m, x.2 = .link m → ∃ md, s'.node m = some md ∧ md.parent = some s.nextNode
  first : rd.slots.head?.map (·.1) = some (rd.key 0)
  length : (rd.key 0).length ≠ 0
  above : ∀ x ∈ ld.slots, x.1.code < (rd.key 0).code
  chainLeft : ld.prev = bd.prev ∧ ld.next = some s.nextNode
  chainRight : rd.prev = some b ∧ rd.next = bd.next
  chainNext : ∀ x, bd.next = some x → ∃ xd, s'.node x = some xd ∧ xd.prev = some s.nextNode

/-- A border of a layer after a split, with the members that were there before the new border went into the tree. -/
theorem SplitPost.border {t u : BTree} {k : KeyTuple} {touched : NodeId → Prop}
    (h : SplitPost link dead touched s₂ s' ti par c t k u) (hsized : Ctx.Sized c) {x : NodeId} {nd : Node}
    (hx : (x, es) ∈ t.borders ∨ (x, es) ∈ u.borders) (hn : s₂.node x = some nd) (hk : nd.kind = .border)
    (hlt : x < s₂.nextNode) :
    ∃ nd', s'.node x = some nd' ∧ nd'.key = nd.key ∧ nd'.prev = nd.prev ∧ nd'.next = nd.next ∧
      nd'.slots = es.map (Entry.slot link) := by
  have hmem : (x, es) ∈ (Ctx.addRight c t k u s₂.nextNode).borders := by
    rw [Ctx.addRight_borders hsized]
    simp only [List.mem_append]
    tauto
  obtain ⟨p, root, hd⟩ := BTree.border_desc hmem par true
  obtain ⟨nd', hn', hok⟩ := h.nodes _ hd
  obtain ⟨nd'', hn'', -, hkey, hprev, hnext, -⟩ := h.borders x nd hn hk hlt
  obtain rfl : nd' = nd'' := Option.some.inj (hn'.symm.trans hn'')
  exact ⟨nd', hn', hkey, hprev, hnext, hok.members.2.2.2.2.2.1⟩

/-- `border_split` puts a key into a full border. The border is one of a tree and the key belongs to it; the rank is the
    one that `compute_rank_if_insert` gives. The layer after it is the one in which the parent got the right border
    behind the key in its slot 0. -/
theorem border_split_orders_entries (H : Holds s ti A dead) (ht : A π = some (Ctx.plug c (.border b es)))
    (hb : s.node b = some bd) (hfull : getCnk bd.permutation = 15) (hbt : Ctx.Between c (KeyTuple.ofKey key).code)
    (habs : ∀ x ∈ bd.slots, x.1 ≠ .ofKey key) :
    ∃ rank s' ld rd es₁ es₂,
      run (computeRankIfInsert b (.ofKey key) (keyLength key)) (s.setNode b (bd.mapVersion (.setLocked true))) =
        some (rank, s.setNode b (bd.mapVersion (.setLocked true))) ∧
      (∃ N, ∀ fuel ≥ N,
        run (borderSplit fuel ti b key v rank) (s.setNode b (bd.mapVersion Version.inserting)) = some (.value v, s')) ∧
      SplitEntries s s' b bd ld rd key v rank ∧
      NodesOk (linkWith (A.link π) key (s.nextNode + 1)) dead s'
        ((Ctx.addRight c (.border b es₁) (rd.key 0) (.border s.nextNode es₂) (s.nextNode + 1 + layers key)).descs
          (A.parent π) true) := by
  have h := H.layers ht
  obtain ⟨nd, hn, hok⟩ := h.node_at
  obtain rfl : nd = bd := Option.some.inj (hn.symm.trans hb)
  have hslots : nd.slots = es.map (Entry.slot (A.link π)) := hok.members.2.2.2.2.2.1
  have hlen : es.length = 15 := (cnk_eq_length hok.toNodeFits).symm.trans hfull
  have habs' : ∀ e ∈ es, e.key ≠ .ofKey key :=
    fun e he => habs (e.slot (A.link π)) (by rw [hslots]; exact List.mem_map_of_mem he)
  have hne : ∀ e ∈ es, e.key.code ≠ (KeyTuple.ofKey key).code := fun e he hc =>
    habs' e he (KeyTuple.code_inj (hok.body.2 e he).1.length_le (KeyTuple.ofKey_encoded key).length_le hc)
  have hsorted : (es.map Entry.mark).Pairwise (· < ·) :=
    (List.pairwise_append.mp (List.pairwise_append.mp h.border_sorted).1).2.1
  have habsAll := hbt.absent (b := b) habs'
  obtain ⟨lo, hi, rfl, hrank, hlo, hhi⟩ := exists_rank hsorted hne
  have hplace : InsertPlace s ti (A.parent π) (A.link π) dead c b lo hi nd key :=
    ⟨h, H.below ht, hb, fun x hx => H.fresh ht hx,
    fun p hp => H.parent_out ht hp, H.upper ht, hbt, hlo, hhi, habsAll⟩
  obtain ⟨s₂, s', es₁, front, es₂, ld, rd, target, hrun, hpost⟩ := run_borderSplit (v := v) hplace hlen
  have hlocked : NodeFits (A.link π) dead (nd.mapVersion (.setLocked true))
    ⟨Ctx.parent (A.parent π) c, Ctx.isRoot true c, .border (lo ++ hi)⟩ :=
    ⟨hok.parent, hok.root, hok.body, hok.members.mapVersion rfl rfl⟩
  have hnext₂ : s₂.nextNode = s.nextNode + 1 + layers key := hpost.halves.next
  have hblt : b < s.nextNode := H.fresh ht (mem_plug_border_ids.mpr (Or.inr rfl))
  have hleft := hpost.halves.leftHead
  have hright := hpost.halves.rightHead
  simp only [Node.head, Prod.mk.injEq] at hleft hright
  -- The two borders at the end.
  obtain ⟨ld', hld, -, hlp, hln, hls⟩ := hpost.post.border h.sized (Or.inl (List.mem_singleton_self _)) hpost.halves.left
    (hleft.1.trans hok.members.1) (by rw [hnext₂]; lia)
  obtain ⟨rd', hrd, hrk, hrp, hrn, hrs⟩ := hpost.post.border h.sized (Or.inr (List.mem_singleton_self _)) hpost.halves.right
    (hright.1.trans hok.members.1) (by rw [hnext₂]; exact (by lia : s.nextNode < s.nextNode + 1 + layers key))
  have hkey0 : rd'.key 0 = front.key := by rw [hrk, hpost.pivot]
  have hcodes : ((es₁ ++ front :: es₂).map (fun e => e.key.code)).Pairwise (· < ·) := by
    have := (List.pairwise_append.mp (List.pairwise_append.mp hpost.sorted).1).2.1
    rw [List.pairwise_map] at this ⊢
    refine this.imp fun hm => ?_
    simp only [Entry.mark] at hm
    omega
  refine ⟨lo.length, s', ld', rd', es₁, front :: es₂,
    run_computeRankIfInsert (State.setNode_node_same _ _ _) hlocked hsorted hne hrank, hrun,
    ⟨hld, hrd, ?_, ?_, ?_, ?_, ?_, ?_, ?_, ⟨hlp.trans hleft.2.2.2.1, hln.trans hleft.2.2.2.2⟩,
      ⟨hrp.trans hright.2.2.2.1, hrn.trans hright.2.2.2.2⟩,
      ?_⟩, ?_⟩
  · rw [hls, hrs, ← List.map_append, hpost.split, hslots]
    exact h.slots_insert habsAll
  · rw [hls, hrs, ← List.map_append, List.map_map]
    exact hcodes
  · rw [hls, hrs, List.length_map, List.length_map]
    exact hpost.sizes hlen
  · intro x hx m hm
    rw [hrs] at hx
    obtain ⟨e, he, rfl⟩ := List.mem_map.mp hx
    exact hpost.links hplace he hm
  · rw [hrs, hkey0]
    rfl
  · rw [hkey0]
    exact hpost.length
  · intro x hx
    rw [hls] at hx
    obtain ⟨e, he, rfl⟩ := List.mem_map.mp hx
    rw [List.map_append, List.pairwise_append] at hcodes
    rw [hkey0]
    exact hcodes.2.2 _ (List.mem_map_of_mem he) _ (List.mem_map_of_mem List.mem_cons_self)
  · intro x hx
    obtain ⟨hxc, xd, hxd, hxk⟩ := h.next_ok hb hx
    have hxb : x ≠ b := fun he => h.ids_nodup.2 (he ▸ hxc)
    have hx₂ : s₂.node x = some (xd.set .prev (some s.nextNode)) := by
      rw [hpost.halves.sibling x hx, State.setNode_node_ne hxb, hxd]
      rfl
    have hxlt : x < s.nextNode := H.fresh ht (mem_plug_border_ids.mpr (Or.inl hxc))
    obtain ⟨xd', hxd', -, -, hp', -⟩ := hpost.post.borders x _ hx₂ hxk (by rw [hnext₂]; lia)
    exact ⟨xd', hxd', hp'⟩
  · rw [hkey0, ← hnext₂]
    exact hpost.post.nodes

/-- The entries of the one-byte keys from 1 to 15. -/
def fifteenEntries : List Entry := (List.range 15).map fun i => ⟨.ofKey [UInt8.ofNat (i + 1)], .value (.word 0)⟩

/-- A root border with the one-byte keys from 1 to 15. -/
def fifteenKeys : Node :=
  { Node.emptyRoot with
    keySlice := fun i => .ofKey [UInt8.ofNat (i + 1)]
    keyLength := fun _ => 1
    lv := fun _ => .value (.word 0)
    permutation := Permutation.splitDest 15 }

/-- The memory of the tree 0, which is one full border. -/
def fifteenState : State :=
  { State.init with
    node := fun x => if x = 0 then some fifteenKeys else none
    nextNode := 1
    root := fun u => if u = 0 then some 0 else none }

def fifteenForest : Forest := fun π => if π = [] then some (.border 0 fifteenEntries) else none

theorem fifteenForest_some {π : Path} {t : BTree} (h : fifteenForest π = some t) :
    π = [] ∧ t = .border 0 fifteenEntries := by
  by_cases hπ : π = []
  · subst hπ
    exact ⟨rfl, (Option.some.inj h).symm⟩
  · rw [fifteenForest, if_neg hπ] at h
    exact absurd h (by simp)

theorem fifteenState_holds : Holds fifteenState 0 fifteenForest fun _ => False := by
  have hword : ∀ e ∈ fifteenEntries, e.content = .value (.word 0) := by decide
  have hhas : ∀ {π e}, fifteenForest.Has π e → e.content = .value (.word 0) := by
    rintro π e ⟨t, ht, he⟩
    obtain ⟨-, rfl⟩ := fifteenForest_some ht
    exact hword e (by simpa [BTree.entries, BTree.borders] using he)
  refine ⟨⟨fun sl π => ⟨?_, ?_⟩, fun hu hw _ _ => ?_, fun hu => ?_, fun hu e he => ?_, 0, fun π t ht => ?_⟩, rfl,
    fun {π t} ht => ?_,
    fun {π t x} ht hx => ?_, fun _ _ => id, fun x hx => hx.elim, fun he hv => ?_, fun he _ hv _ => ?_⟩
  · rintro ⟨u, hu⟩
    exact absurd (fifteenForest_some hu).1 (by simp)
  · rintro ⟨t, ht, e, he, -, hc⟩
    rw [hhas ⟨t, ht, he⟩] at hc
    exact absurd hc (by simp)
  · rw [(fifteenForest_some hu).1, (fifteenForest_some hw).1]
  · exact absurd (fifteenForest_some hu).1 (by simp)
  · exact absurd (fifteenForest_some hu).1 (by simp)
  · rw [(fifteenForest_some ht).1]
    exact Nat.le_refl _
  · obtain ⟨rfl, rfl⟩ := fifteenForest_some ht
    refine ⟨fun p hp => ?_, by simp [BTree.ids, BTree.descs], by decide +kernel, ?_, ⟨⟨_, rfl, rfl, rfl⟩, trivial⟩⟩
    · simp only [BTree.descs, List.mem_singleton] at hp
      subst hp
      refine ⟨fifteenKeys, rfl, ⟨⟨rfl, rfl, ⟨by decide, ?_⟩, rfl, rfl, fun _ => rfl, by decide, by decide, ?_, ?_⟩, rfl⟩⟩
      · intro e he
        obtain ⟨i, hi, rfl⟩ := List.mem_map.mp he
        exact ⟨KeyTuple.ofKey_encoded _, by simp [KeyTuple.ofKey, keyLength, sliceSize]⟩
      · rfl
      · intro i hi hni
        exact trivial
    · intro p hp hnil
      obtain rfl : p = (0, fifteenEntries) := by simpa [BTree.borders] using hp
      exact absurd hnil (by decide)
  · obtain ⟨rfl, rfl⟩ := fifteenForest_some ht
    obtain rfl : x = 0 := by simpa [BTree.ids, BTree.descs] using hx
    exact Nat.one_pos
  · rw [hhas he] at hv
    exact absurd hv (by simp)
  · rw [hhas he] at hv
    exact absurd hv (by simp)

/-- A key longer than a slice goes into a full border. -/
theorem border_split_orders_entries_fifteen : ∃ rank s' ld rd es₁ es₂,
    run (computeRankIfInsert 0 (.ofKey [8, 0, 0, 0, 0, 0, 0, 0, 0]) 9)
      (fifteenState.setNode 0 (fifteenKeys.mapVersion (.setLocked true))) =
      some (rank, fifteenState.setNode 0 (fifteenKeys.mapVersion (.setLocked true))) ∧
    (∃ N, ∀ fuel ≥ N, run (borderSplit fuel 0 0 [8, 0, 0, 0, 0, 0, 0, 0, 0] (.value (.word 1)) rank)
      (fifteenState.setNode 0 (fifteenKeys.mapVersion Version.inserting)) = some (.value (.word 1), s')) ∧
    SplitEntries fifteenState s' 0 fifteenKeys ld rd [8, 0, 0, 0, 0, 0, 0, 0, 0] (.word 1) rank ∧
    NodesOk (linkWith (fifteenForest.link []) [8, 0, 0, 0, 0, 0, 0, 0, 0] 2) (fun _ => False) s'
      ((Ctx.addRight [] (.border 0 es₁) (rd.key 0) (.border 1 es₂) 3).descs none true) :=
  border_split_orders_entries fifteenState_holds (c := []) rfl rfl (by decide)
    (by simp [Ctx.Between, Ctx.flatLeft, Ctx.flatRight]) (by decide +kernel)

end
end Yakushima
