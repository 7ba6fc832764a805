import Yakushima.Theorems.BorderSplit

/-! # Insertion into a layer

`insert_lv` on the border for a key turns the layer into one with the entry of the key at its place, with
or without splits. The layers behind other entries stay behind them; the layers that a long key needs are
new. -/

namespace Yakushima
open M Permutation

/-! ### The order of a layer with a new entry -/

theorem entryOf_content (key : Key) (v : ValuePtr) :
    (entryOf key v).content = .layer ↔ (entryOf key v).key.length = 9 := by
  by_cases h : key.length ≤ 8
  · simp [entryOf, h, KeyTuple.ofKey, keyLength_of_le h]
    omega
  · simp [entryOf, h, KeyTuple.ofKey, keyLength_of_gt (Nat.lt_of_not_le h)]

/-- A new entry between the two sides of its context. -/
theorem sorted_insert {A B : List Nat} {lo hi : List Entry} {e : Entry}
    (h : (A ++ (lo ++ hi).map Entry.mark ++ B).Pairwise (· < ·)) (hA : ∀ m ∈ A, m < e.mark) (hB : ∀ m ∈ B, e.mark < m)
    (hlo : ∀ x ∈ lo, x.mark < e.mark) (hhi : ∀ x ∈ hi, e.mark < x.mark) :
    (A ++ (lo ++ e :: hi).map Entry.mark ++ B).Pairwise (· < ·) := by
  simp only [List.map_append, List.map_cons, List.pairwise_append, List.pairwise_cons, List.mem_append, List.mem_map,
    List.mem_cons] at h ⊢
  obtain ⟨⟨hAA, ⟨hll, hhh, hlh⟩, hAe⟩, hBB, hAB⟩ := h
  refine ⟨⟨hAA, ⟨hll, ⟨?_, hhh⟩, ?_⟩, ?_⟩, hBB, ?_⟩
  · rintro _ ⟨x, hx, rfl⟩
    exact hhi x hx
  · rintro _ ⟨x, hx, rfl⟩ y (rfl | ⟨z, hz, rfl⟩)
    · exact hlo x hx
    · exact hlh _ ⟨x, hx, rfl⟩ _ ⟨z, hz, rfl⟩
  · rintro x hx y (⟨z, hz, rfl⟩ | rfl | ⟨z, hz, rfl⟩)
    · exact hAe x hx _ (Or.inl ⟨z, hz, rfl⟩)
    · exact hA x hx
    · exact hAe x hx _ (Or.inr ⟨z, hz, rfl⟩)
  · rintro x (hx | ⟨z, hz, rfl⟩ | rfl | ⟨z, hz, rfl⟩) y hy
    · exact hAB x (Or.inl hx) y hy
    · exact hAB _ (Or.inr (Or.inl ⟨z, hz, rfl⟩)) y hy
    · exact hB y hy
    · exact hAB _ (Or.inr (Or.inr ⟨z, hz, rfl⟩)) y hy

/-- The pivot between the halves of a border comes right before the first entry of the upper half. -/
theorem sorted_pivot {A B : List Nat} {lo hi : List Entry} {e : Entry} (hlo : lo ≠ [])
    (h : (A ++ (lo ++ e :: hi).map Entry.mark ++ B).Pairwise (· < ·)) :
    (A ++ (lo.map Entry.mark ++ e.key.mark :: (e :: hi).map Entry.mark) ++ B).Pairwise (· < ·) := by
  have hem : e.key.mark + 1 = e.mark := rfl
  have heven : ∀ x : Entry, x.mark < e.mark → x.mark < e.key.mark := by
    intro x hx
    simp only [Entry.mark, KeyTuple.mark] at hx ⊢
    omega
  obtain ⟨y, l, rfl⟩ := List.exists_cons_of_ne_nil hlo
  simp only [List.map_append, List.map_cons, List.pairwise_append, List.pairwise_cons, List.mem_append, List.mem_map,
    List.mem_cons] at h ⊢
  obtain ⟨⟨hAA, ⟨⟨hyl, hll⟩, ⟨heh, hhh⟩, hlh⟩, hAe⟩, hBB, hAB⟩ := h
  have hye : y.mark < e.mark := hlh _ (Or.inl rfl) _ (Or.inl rfl)
  refine ⟨⟨hAA, ⟨⟨hyl, hll⟩, ⟨?_, heh, hhh⟩, ?_⟩, ?_⟩, hBB, ?_⟩
  · rintro x (rfl | ⟨z, hz, rfl⟩)
    · omega
    · have := heh _ ⟨z, hz, rfl⟩
      omega
  · rintro x hx z (rfl | rfl | ⟨w, hw, rfl⟩)
    · rcases hx with rfl | ⟨w, hw, rfl⟩
      · exact heven y hye
      · exact heven w (hlh _ (Or.inr ⟨w, hw, rfl⟩) _ (Or.inl rfl))
    · exact hlh x hx _ (Or.inl rfl)
    · exact hlh x hx _ (Or.inr ⟨w, hw, rfl⟩)
  · rintro x hx z (hz | rfl | rfl | ⟨w, hw, rfl⟩)
    · exact hAe x hx z (Or.inl hz)
    · have := hAe x hx _ (Or.inl (Or.inl rfl))
      have := heven y hye
      omega
    · exact hAe x hx _ (Or.inr (Or.inl rfl))
    · exact hAe x hx _ (Or.inr (Or.inr ⟨w, hw, rfl⟩))
  · rintro x (hx | hx | rfl | rfl | ⟨w, hw, rfl⟩) z hz
    · exact hAB x (Or.inl hx) z hz
    · exact hAB x (Or.inr (Or.inl hx)) z hz
    · have := hAB e.mark (Or.inr (Or.inr (Or.inl rfl))) z hz
      omega
    · exact hAB _ (Or.inr (Or.inr (Or.inl rfl))) z hz
    · exact hAB _ (Or.inr (Or.inr (Or.inr ⟨w, hw, rfl⟩))) z hz

/-! ### What an insertion does to a layer -/

/-- The layers behind the entries of a layer are different and hang under its borders. -/
structure Below (s : State) (par : Ptr) (link : KeySlice → Ptr) (t : BTree) : Prop where
  under : ∀ b es e m, (b, es) ∈ t.borders → e ∈ es → (e.slot link).2 = .link m →
    m ∉ t.ids ∧ m < s.nextNode ∧ par ≠ some m ∧ ∃ md, s.node m = some md ∧ md.parent = some b
  inj : ∀ e ∈ t.entries, ∀ e' ∈ t.entries, ∀ m, (e.slot link).2 = .link m → (e'.slot link).2 = .link m → e = e'

/-- The memory after the layer `t` got the entry of a key and became `t'`. The border `b` for the key was
    found, the entry is now in `target`, and the new layers of a long key have the identities from `m` on. -/
structure Inserted (link : KeySlice → Ptr) (dead : NodeId → Prop) (s s' : State) (ti : TreeId) (par : Ptr) (t t' : BTree)
    (b : NodeId) (key : Key) (v : ValuePtr) (m target : NodeId) : Prop where
  layer : LayerOk s' par (linkWith link key m) dead t'
  entries : ∃ L R, t.entries = L ++ R ∧ t'.entries = L ++ entryOf key v :: R
  ids : ∀ x ∈ t'.ids, x ∈ t.ids ∨ s.nextNode ≤ x ∧ x < s'.nextNode ∧ (x < m ∨ m + layers key ≤ x)
  kept : ∀ x ∈ t.ids, x ∈ t'.ids
  fresh : s.nextNode ≤ m ∧ m + layers key ≤ s'.nextNode
  holder : ∃ es, (target, es) ∈ t'.borders ∧ entryOf key v ∈ es
  newLayers : NewLayers s' m key v target
  below : ∀ b es e x, (b, es) ∈ t'.borders → e ∈ es → e ≠ entryOf key v → (e.slot link).2 = .link x →
    s'.node x = (s.node x).map (·.set .parent (some b))
  frame : ∀ x, x ∉ t.ids → x < s.nextNode → par ≠ some x → ¬ LinksTo link t.entries x → s'.node x = s.node x
  above : Above Version.inserted s s' ti par t.id t'.id
  rest : s'.rest = s.rest
  version : ∃ bd bd', s.node b = some bd ∧ s'.node b = some bd' ∧
    bd'.version.vinsertDelete = (bd.version.vinsertDelete + 1) % Version.counterSize
  versions : ∀ x nd, s.node x = some nd → nd.kind = .border → x < s.nextNode → x ≠ b → par ≠ some x →
    ∃ nd', s'.node x = some nd' ∧ nd'.version = nd.version
  news : ∀ x, s.nextNode ≤ x → x < s'.nextNode → x ∈ t'.ids ∨ m ≤ x ∧ x < m + layers key

section
variable {s : State} {ti : TreeId} {par : Ptr} {link : KeySlice → Ptr} {dead : NodeId → Prop} {t : BTree} {key : Key}
  {v : ValuePtr} {m b : NodeId} {es : List Entry} {c : Ctx}

theorem LayerOk.entry_ok (h : LayerOk s par link dead t) {e : Entry} (he : e ∈ t.entries) :
    e.key.Encoded ∧ (e.content = .layer ↔ e.key.length = 9) := by
  obtain ⟨b, es, hb, he⟩ := BTree.mem_entries.mp he
  obtain ⟨p, rt, hd⟩ := BTree.border_desc hb par true
  obtain ⟨nd, -, hok⟩ := h.nodes _ hd
  exact hok.body.2 e he

/-- A new layer is behind none of the slices there are, when the key is not in the layer. -/
theorem LayerOk.linkWith_eq (h : LayerOk s par link dead t) (habs : ∀ e ∈ t.entries, e.key ≠ .ofKey key) {sl : KeySlice}
    (hsl : t.HasLayer sl) : linkWith link key m sl = link sl := by
  obtain ⟨e, he, rfl, hc⟩ := hsl
  refine if_neg fun hlong => habs e he ?_
  have h9 := (h.entry_ok he).2.mp hc
  obtain ⟨⟨slice, length⟩, content⟩ := e
  simp only at h9 hlong
  simp [KeyTuple.ofKey, hlong.2, h9, keyLength_of_gt hlong.1]

/-- The borders of a tree are different nodes when its nodes are. -/
theorem BTree.borders_ids_sublist (t : BTree) : (t.borders.map (·.1)).Sublist t.ids := by
  induction t with
  | border i es => simp [borders, ids, descs]
  | interior i f r hf hr =>
    rw [borders, bordersRest_eq, ids_interior, List.map_append]
    refine List.Sublist.cons _ (hf.append ?_)
    rw [List.map_flatMap]
    clear hf
    induction r with
    | nil => simp
    | cons x r ih =>
      rw [List.flatMap_cons, List.flatMap_cons]
      exact (hr x List.mem_cons_self).append (ih fun p hp => hr p (List.mem_cons_of_mem _ hp))

theorem entries_plug (c : Ctx) (b : NodeId) (es : List Entry) : (Ctx.plug c (.border b es)).entries =
    (Ctx.bordersLeft c).flatMap (·.2) ++ es ++ (Ctx.bordersRight c).flatMap (·.2) := by
  simp [BTree.entries, Ctx.plug_borders, BTree.borders]

/-- The border of a layer and its place in the order. -/
theorem LayerOk.border_sorted (h : LayerOk s par link dead (Ctx.plug c (.border b es))) :
    (Ctx.flatLeft c ++ es.map Entry.mark ++ Ctx.flatRight c).Pairwise (· < ·) := by
  have := h.sorted
  rwa [Ctx.plug_flat] at this

/-- The identities of a layer, with those of one border taken out. -/
theorem LayerOk.ids_nodup (h : LayerOk s par link dead (Ctx.plug c (.border b es))) :
    (Ctx.ids c).Nodup ∧ b ∉ Ctx.ids c := by
  have := (Ctx.plug_ids_perm c (.border b es)).nodup_iff.mp h.nodup
  obtain ⟨h1, -, h2⟩ := List.nodup_append.mp this
  exact ⟨h1, fun hb => h2 b hb b (BTree.id_mem_ids (.border b es)) rfl⟩

theorem mem_plug_border_ids {x : NodeId} : x ∈ (Ctx.plug c (.border b es)).ids ↔ x ∈ Ctx.ids c ∨ x = b := by
  rw [Ctx.mem_plug_ids]
  simp [BTree.ids, BTree.descs]

/-- The border after the one in a context. -/
theorem LayerOk.next_border (h : LayerOk s par link dead (Ctx.plug c (.border b es))) {bd : Node}
    (hb : s.node b = some bd) :
    bd.prev = ((Ctx.bordersLeft c).map (·.1)).getLast? ∧ bd.next = ((Ctx.bordersRight c).map (·.1)).head? := by
  have hch := h.chain
  rw [Ctx.plug_borders] at hch
  simp only [BTree.borders, List.append_assoc, List.map_append, List.map_cons, List.singleton_append] at hch
  obtain ⟨-, ⟨nd, hn, hp, hq⟩, -⟩ := chain_append.mp hch
  obtain rfl : nd = bd := Option.some.inj (hn.symm.trans hb)
  exact ⟨by simpa using hp, by simpa using hq⟩

/-- The borders of a context are among its nodes. -/
theorem Ctx.border_mem_ids {x : NodeId} {fs : List Entry} (h : (x, fs) ∈ Ctx.bordersLeft c ∨ (x, fs) ∈ Ctx.bordersRight c) :
    x ∈ Ctx.ids c := by
  have hmem : (x, fs) ∈ (Ctx.plug c (.border (x + 1) [])).borders := by
    rw [Ctx.plug_borders, List.mem_append, List.mem_append]
    rcases h with h | h
    · exact Or.inl (Or.inl h)
    · exact Or.inr h
  rcases mem_plug_border_ids.mp (BTree.border_mem_ids hmem) with h | h
  · exact h
  · lia

/-- The other borders of a layer are not empty. -/
theorem LayerOk.ctx_nonempty (h : LayerOk s par link dead (Ctx.plug c (.border b es))) {x : NodeId} {fs : List Entry}
    (hx : (x, fs) ∈ Ctx.bordersLeft c ∨ (x, fs) ∈ Ctx.bordersRight c) : fs ≠ [] := by
  intro hfs
  have hmem : (x, fs) ∈ (Ctx.plug c (.border b es)).borders := by
    rw [Ctx.plug_borders, List.mem_append, List.mem_append]
    rcases hx with hx | hx
    · exact Or.inl (Or.inl hx)
    · exact Or.inr hx
  have ht := h.nonempty _ hmem hfs
  cases c with
  | nil => simp [Ctx.bordersLeft, Ctx.bordersRight] at hx
  | cons f c => exact Ctx.plug_cons_ne_border f c _ _ _ ht

/-- An empty border is the root of its layer. -/
theorem LayerOk.ctx_eq_nil (h : LayerOk s par link dead (Ctx.plug c (.border b []))) : c = [] := by
  have ht := h.nonempty (b, []) (by simp [Ctx.plug_borders, BTree.borders]) rfl
  cases c with
  | nil => rfl
  | cons f c => exact absurd ht (Ctx.plug_cons_ne_border f c _ _ _)

/-- The interiors of a layer have at most 15 pivots. -/
theorem LayerOk.sized {u : BTree} (h : LayerOk s par link dead (Ctx.plug c u)) : Ctx.Sized c :=
  NodesOk.sized (n := u.id) fun p hp => h.nodes p (Ctx.mem_plug_descs.mpr (Or.inl hp))

/-- The version of a border to which an entry is being added. -/
def Version.inserting (v : Version) : Version := setDeleted false (setInsertingDeleting true (setLocked true v))

theorem Version.unlocked_vinsertDelete {v : Version} (h : v.insertingDeleting = true) :
    v.unlocked.vinsertDelete = (v.vinsertDelete + 1) % counterSize := by
  unfold unlocked setLocked setSplitting setInsertingDeleting incVsplit incVinsertDelete
  cases v.splitting <;> simp [h]

/-- The head of `insert_lv`, up to the test for a split. -/
theorem run_insertLv_head {bd : Node} {fuel : Nat} {rank : Nat} (hf : 0 < fuel)
    (h : LayerOk s par link dead (Ctx.plug c (.border b es))) (hb : s.node b = some bd) :
    run (insertLv fuel ti b key v rank) (s.setNode b (bd.mapVersion (.setLocked true))) =
      run (if es.length = 15 then borderSplit fuel ti b key v rank
        else do
          let slot ← getEmptySlot b
          let created ← insertLvAt fuel fuel b slot key v rank
          versionUnlock fuel b
          pure created) (s.setNode b (bd.mapVersion Version.inserting)) := by
  obtain ⟨nd, hn, hok⟩ := h.node_at
  obtain rfl : nd = bd := Option.some.inj (hn.symm.trans hb)
  have hcnk := cnk_eq_length hok.toNodeFits
  rw [insertLv, setVersionInsertingDeleting, run_atomicUpdate_bind (State.setNode_node_same _ _ _) hf,
    State.setNode_setNode,
    run_load_permutation (State.setNode_node_same _ _ _) (by exact hok.members.1)]
  have hcnk' : getCnk ((nd.mapVersion (.setLocked true)).mapVersion (.setInsertingDeleting true)).permutation =
    es.length := hcnk
  dsimp only
  rw [hcnk']
  by_cases he : es = []
  · -- The emptied root border is revived.
    subst he
    obtain rfl := h.ctx_eq_nil
    have hroot : nd.version.root = true := hok.root
    rw [run_when_pos List.length_nil, reviveRoot, setVersionDeleted]
    simp only [Lib.Prog.bind_assoc]
    rw [run_getVersionRoot (State.setNode_node_same _ _ _),
      run_when_neg (by simp [hroot, Version.setInsertingDeleting, Version.setLocked]),
      run_atomicUpdate_bind (State.setNode_node_same _ _ _) hf, State.setNode_setNode]
    rfl
  · have hlen : ¬ es.length = 0 := fun h0 => he (List.length_eq_zero_iff.mp h0)
    have hdel : nd.version.deleted = false := hok.members.2.2.1 he
    have hv : (nd.mapVersion (.setLocked true)).mapVersion (.setInsertingDeleting true) =
      nd.mapVersion Version.inserting := by
      simp [Node.mapVersion, Version.inserting, Version.setInsertingDeleting, Version.setLocked, Version.setDeleted, hdel]
    rw [run_when_neg hlen, hv]
    rfl

theorem plug_border_borders (c : Ctx) (b : NodeId) (es : List Entry) :
    (Ctx.plug c (.border b es)).borders = Ctx.bordersLeft c ++ (b, es) :: Ctx.bordersRight c := by
  rw [Ctx.plug_borders]
  simp [BTree.borders]

theorem plug_border_ids_perm (c : Ctx) (b : NodeId) (es es' : List Entry) :
    (Ctx.plug c (.border b es)).ids.Perm (Ctx.plug c (.border b es')).ids :=
  (Ctx.plug_ids_perm c (.border b es)).trans (Ctx.plug_ids_perm c (.border b es')).symm

theorem mem_plug_entries {e : Entry} (he : e ∈ es) : e ∈ (Ctx.plug c (.border b es)).entries := by
  rw [entries_plug]
  exact List.mem_append_left _ (List.mem_append_right _ he)

/-- The border after a border of a layer. -/
theorem LayerOk.next_ok (h : LayerOk s par link dead (Ctx.plug c (.border b es))) {bd : Node}
    (hb : s.node b = some bd) {x : NodeId} (hx : bd.next = some x) : x ∈ Ctx.ids c ∧ ∃ xd, s.node x = some xd ∧
    xd.kind = .border := by
  rw [(h.next_border hb).2] at hx
  obtain ⟨⟨y, fs⟩, hy, rfl⟩ := List.mem_map.mp (List.mem_of_mem_head? hx)
  refine ⟨Ctx.border_mem_ids (Or.inr hy), ?_⟩
  have hyb : (y, fs) ∈ (Ctx.plug c (.border b es)).borders := by
    rw [plug_border_borders]
    exact List.mem_append_right _ (List.mem_cons_of_mem _ hy)
  obtain ⟨p, rt, hd⟩ := BTree.border_desc hyb par true
  obtain ⟨yd, hyd, hyok⟩ := h.nodes _ hd
  exact ⟨yd, hyd, hyok.members.1⟩

/-- The layers behind some of the entries of a border. -/
theorem Below.links (h : Below s par link (Ctx.plug c (.border b es))) {es' : List Entry}
    (hes : ∀ e ∈ es', e ∈ es) {m : NodeId} (hm : LinksTo link es' m) :
    m ∉ Ctx.ids c ∧ m ≠ b ∧ m < s.nextNode ∧ par ≠ some m ∧ ∃ md, s.node m = some md ∧ md.parent = some b := by
  obtain ⟨e, he, hem⟩ := hm
  have hmem : (b, es) ∈ (Ctx.plug c (.border b es)).borders := by
    rw [plug_border_borders]
    simp
  obtain ⟨h1, h2⟩ := h.under b _ e m hmem (hes e he) hem
  rw [mem_plug_border_ids, not_or] at h1
  exact ⟨h1.1, h1.2, h2⟩

theorem Ctx.mem_ids_of_borders {x : NodeId} (h : x ∈ (Ctx.bordersLeft c).map (·.1) ++ (Ctx.bordersRight c).map (·.1)) :
    x ∈ Ctx.ids c := by
  rcases List.mem_append.mp h with hx | hx
  · obtain ⟨⟨y, fs⟩, hy, rfl⟩ := List.mem_map.mp hx
    exact Ctx.border_mem_ids (Or.inl hy)
  · obtain ⟨⟨y, fs⟩, hy, rfl⟩ := List.mem_map.mp hx
    exact Ctx.border_mem_ids (Or.inr hy)

/-- The borders of a layer in which some of them have new entries: only the root of the layer may be empty. -/
theorem LayerOk.rest_nonempty (h : LayerOk s par link dead (Ctx.plug c (.border b es))) {l : List (NodeId × List Entry)}
    (hl : ∀ x ∈ l, x.2 ≠ []) {t' : BTree} (ht' : t'.borders = Ctx.bordersLeft c ++ (l ++ Ctx.bordersRight c)) :
    ∀ x ∈ t'.borders, x.2 = [] → t' = .border x.1 [] := by
  rintro ⟨x, fs⟩ hx hfs
  rw [ht', List.mem_append, List.mem_append] at hx
  rcases hx with hx | hx | hx
  · exact absurd hfs (h.ctx_nonempty (Or.inl hx))
  · exact absurd hfs (hl _ hx)
  · exact absurd hfs (h.ctx_nonempty (Or.inr hx))

/-! ### A place for an entry -/

/-- A border with a place for the entry of a key between `lo` and `hi`, in its layer. -/
structure InsertPlace (s : State) (ti : TreeId) (par : Ptr) (link : KeySlice → Ptr) (dead : NodeId → Prop)
    (c : Ctx) (b : NodeId) (lo hi : List Entry) (bd : Node) (key : Key) : Prop where
  layer : LayerOk s par link dead (Ctx.plug c (.border b (lo ++ hi)))
  below : Below s par link (Ctx.plug c (.border b (lo ++ hi)))
  node : s.node b = some bd
  fresh : ∀ x ∈ (Ctx.plug c (.border b (lo ++ hi))).ids, x < s.nextNode
  outside : ∀ p, par = some p → p ∉ (Ctx.plug c (.border b (lo ++ hi))).ids ∧ p < s.nextNode
  upper : Upper s ti par (Ctx.plug c (.border b (lo ++ hi))).id
  between : Ctx.Between c (KeyTuple.ofKey key).code
  low : ∀ e ∈ lo, e.key.code < (KeyTuple.ofKey key).code
  high : ∀ e ∈ hi, (KeyTuple.ofKey key).code < e.key.code
  absent : ∀ e ∈ (Ctx.plug c (.border b (lo ++ hi))).entries, e.key ≠ .ofKey key

namespace InsertPlace
variable {lo hi : List Entry} {bd : Node} (h : InsertPlace s ti par link dead c b lo hi bd key)
include h

theorem node_ok : NodeOk link dead bd ⟨Ctx.parent par c, Ctx.isRoot true c, .border (lo ++ hi)⟩ := by
  obtain ⟨nd, hn, hok⟩ := h.layer.node_at
  obtain rfl : nd = bd := Option.some.inj (hn.symm.trans h.node)
  exact hok

theorem border_lt : b < s.nextNode := h.fresh b (mem_plug_border_ids.mpr (Or.inr rfl))

theorem ctx_lt {x : NodeId} (hx : x ∈ Ctx.ids c) : x ≠ b ∧ x < s.nextNode :=
  ⟨fun he => h.layer.ids_nodup.2 (he ▸ hx), h.fresh x (mem_plug_border_ids.mpr (Or.inl hx))⟩

theorem members : MembersOk link dead (bd.mapVersion Version.inserting) (.border (lo ++ hi)) := by
  obtain ⟨h1, h2, -, h4⟩ := h.node_ok.members
  exact ⟨h1, h2, fun _ => rfl, h4⟩

theorem next {x : NodeId} (hx : bd.next = some x) : x ∈ Ctx.ids c ∧ ∃ xd, s.node x = some xd ∧ xd.kind = .border :=
  h.layer.next_ok h.node hx

theorem links {m : NodeId} (hm : LinksTo link ((lo ++ hi).drop 8) m) :
    m ∉ Ctx.ids c ∧ m ≠ b ∧ m < s.nextNode ∧ par ≠ some m ∧ ∃ md, s.node m = some md ∧ md.parent = some b :=
  h.below.links (fun _ he => List.mem_of_mem_drop he) hm

theorem entry_ok {e : Entry} (he : e ∈ lo ++ entryOf key v :: hi) : e.key.Encoded ∧
    (e.content = .layer ↔ e.key.length = 9) := by
  rw [List.mem_append, List.mem_cons] at he
  rcases he with he | rfl | he
  · exact h.layer.entry_ok (mem_plug_entries (List.mem_append_left _ he))
  · exact ⟨KeyTuple.ofKey_encoded key, entryOf_content key v⟩
  · exact h.layer.entry_ok (mem_plug_entries (List.mem_append_right _ he))

/-- The order of the layer with the new entry. -/
theorem sorted (v : ValuePtr) :
    (Ctx.flatLeft c ++ (lo ++ entryOf key v :: hi).map Entry.mark ++ Ctx.flatRight c).Pairwise (· < ·) := by
  refine sorted_insert h.layer.border_sorted (fun x hx => h.between.1 x hx) (fun x hx => h.between.2 x hx)
    (fun x hx => ?_) fun x hx => ?_
  · have := h.low x hx
    simp only [Entry.mark, entryOf]
    omega
  · have := h.high x hx
    simp only [Entry.mark, entryOf]
    omega

/-- The slots of the nodes outside the border lead where they led. -/
theorem desc_ok {p : NodeId × Desc} (m : NodeId) (hp : p ∈ Ctx.descs par true c b) :
    ∃ xd, s.node p.1 = some xd ∧ NodeOk (linkWith link key m) dead xd p.2 := by
  have hp' : p ∈ (Ctx.plug c (.border b (lo ++ hi))).descs par true := Ctx.mem_plug_descs.mpr (Or.inl hp)
  obtain ⟨xd, hxd, hok⟩ := h.layer.nodes p hp'
  exact ⟨xd, hxd, hok.mono (fun _ hd => hd) fun sl hsl => h.layer.linkWith_eq h.absent (BTree.hasLayer_of_desc hp' hsl)⟩

end InsertPlace

/-! ### A border with room -/

section
variable {lo hi : List Entry} {bd bd' : Node} {s₁ : State}

/-- The memory after `insert_lv` on a border with room, `s₁` and `bd'` after its `insert_lv_at`. -/
def unlockedAfter (s₁ : State) (b : NodeId) (bd' : Node) : State := s₁.setNode b (bd'.mapVersion Version.unlocked)

theorem unlockedAfter_node : (unlockedAfter s₁ b bd').node b = some (bd'.mapVersion Version.unlocked) :=
  State.setNode_node_same _ _ _

theorem EntryInserted.frame_unlocked
    (hi1 : EntryInserted link dead (s.setNode b (bd.mapVersion Version.inserting)) s₁ b
      (bd.mapVersion Version.inserting) bd' lo hi key v) {x : NodeId} (hx : x ≠ b) (hlt : x < s.nextNode) :
      (unlockedAfter s₁ b bd').node x = s.node x := by
  rw [unlockedAfter, State.setNode_node_ne hx, hi1.frame x hlt hx, State.setNode_node_ne hx]

/-- The layer with the new entry. -/
theorem EntryInserted.layer (h : InsertPlace s ti par link dead c b lo hi bd key) (hroom : (lo ++ hi).length < 15)
    (hi1 : EntryInserted link dead (s.setNode b (bd.mapVersion Version.inserting)) s₁ b
      (bd.mapVersion Version.inserting) bd' lo hi key v) :
    LayerOk (unlockedAfter s₁ b bd') par (linkWith link key s.nextNode) dead
      (Ctx.plug c (.border b (lo ++ entryOf key v :: hi))) := by
  have hhead := hi1.head
  simp only [Node.head, Prod.mk.injEq] at hhead
  have hok := h.node_ok
  refine ⟨fun p hp => ?_, ?_, ?_, ?_, ?_⟩
  · rcases Ctx.mem_plug_descs.mp hp with hp | hp
    · obtain ⟨xd, hx, hxok⟩ := h.desc_ok s.nextNode hp
      obtain ⟨hne, hlt⟩ := h.ctx_lt (Ctx.mem_ids_of_desc hp)
      exact ⟨xd, (hi1.frame_unlocked hne hlt).trans hx, hxok⟩
    · simp only [BTree.descs, List.mem_singleton] at hp
      subst hp
      refine ⟨_, unlockedAfter_node, ⟨⟨hhead.2.2.1.trans hok.parent, ?_, ?_, ?_⟩, Version.unlocked_stable _⟩⟩
      · rw [Node.mapVersion_version, Version.unlocked_root, hhead.2.1]
        exact hok.root
      · refine ⟨?_, fun e he => h.entry_ok he⟩
        simp only [List.length_append, List.length_cons] at hroom ⊢
        omega
      · exact hi1.members.mapVersion (Version.unlocked_border _) (Version.unlocked_deleted _)
  · exact (plug_border_ids_perm c b (lo ++ entryOf key v :: hi) (lo ++ hi)).nodup_iff.mpr h.layer.nodup
  · rw [Ctx.plug_flat]
    exact h.sorted v
  · exact h.layer.rest_nonempty (l := [(b, lo ++ entryOf key v :: hi)]) (by simp) (plug_border_borders _ _ _)
  · have hch := h.layer.chain
    rw [plug_border_borders] at hch ⊢
    simp only [List.map_append, List.map_cons] at hch ⊢
    refine hch.congr fun x hx xd hxd => ?_
    by_cases hxb : x = b
    · subst hxb
      obtain rfl : xd = bd := Option.some.inj (hxd.symm.trans h.node)
      exact ⟨_, unlockedAfter_node, hhead.2.2.2.1, hhead.2.2.2.2⟩
    · have hxc : x ∈ Ctx.ids c := by
        refine Ctx.mem_ids_of_borders ?_
        rw [List.mem_append, List.mem_cons] at hx
        exact List.mem_append.mpr (hx.imp id fun hx => hx.resolve_left hxb)
      exact ⟨xd, (hi1.frame_unlocked hxb (h.ctx_lt hxc).2).trans hxd, rfl, rfl⟩

/-- The layers behind the old entries. -/
theorem EntryInserted.below (h : InsertPlace s ti par link dead c b lo hi bd key)
    (hi1 : EntryInserted link dead (s.setNode b (bd.mapVersion Version.inserting)) s₁ b
      (bd.mapVersion Version.inserting) bd' lo hi key v) {b' : NodeId} {es' : List Entry} {e : Entry} {x : NodeId}
    (hbe : (b', es') ∈ (Ctx.plug c (.border b (lo ++ entryOf key v :: hi))).borders) (he : e ∈ es')
    (hne : e ≠ entryOf key v) (hx : (e.slot link).2 = .link x) : (unlockedAfter s₁ b bd').node x =
    (s.node x).map (·.set .parent (some b')) := by
  have hold : ∃ es'', (b', es'') ∈ (Ctx.plug c (.border b (lo ++ hi))).borders ∧ e ∈ es'' := by
    rw [plug_border_borders] at hbe ⊢
    rcases List.mem_append.mp hbe with hbe | hbe
    · exact ⟨es', List.mem_append_left _ hbe, he⟩
    · rcases List.mem_cons.mp hbe with hbe | hbe
      · simp only [Prod.mk.injEq] at hbe
        obtain ⟨rfl, rfl⟩ := hbe
        refine ⟨lo ++ hi, by simp, ?_⟩
        rw [List.mem_append, List.mem_cons] at he
        rw [List.mem_append]
        tauto
      · exact ⟨es', List.mem_append_right _ (List.mem_cons_of_mem _ hbe), he⟩
  obtain ⟨es'', hbe', he'⟩ := hold
  obtain ⟨h1, h2, -, xd, hxd, hxp⟩ := h.below.under b' es'' e x hbe' he' hx
  rw [hi1.frame_unlocked (fun heq => h1 (mem_plug_border_ids.mpr (Or.inr heq))) h2, hxd]
  cases xd
  simp only at hxp
  simp [Node.set, hxp]

/-- `insert_lv` on a border with room. -/
theorem run_insertLv_room (h : InsertPlace s ti par link dead c b lo hi bd key) (hroom : (lo ++ hi).length < 15) :
    ∃ s', (∀ fuel > layers key, run (insertLv fuel ti b key v lo.length) (s.setNode b (bd.mapVersion (.setLocked true))) =
        some (.value v, s')) ∧
      Inserted link dead s s' ti par (Ctx.plug c (.border b (lo ++ hi)))
        (Ctx.plug c (.border b (lo ++ entryOf key v :: hi))) b key v
        s.nextNode b := by
  obtain ⟨s₁, bd', hrun, hi1⟩ := run_insertEntry (v := v) (s := s.setNode b (bd.mapVersion Version.inserting))
    (State.setNode_node_same _ _ _) (by exact h.border_lt) h.members hroom rfl
    fun e he => ⟨(h.layer.entry_ok (mem_plug_entries he)).2, h.absent e (mem_plug_entries he)⟩
  have hperm := plug_border_ids_perm c b (lo ++ entryOf key v :: hi) (lo ++ hi)
  have hothers := hi1.others
  simp only [State.others, Prod.mk.injEq] at hothers
  refine ⟨unlockedAfter s₁ b bd', fun fuel hf => ?_,
    ⟨hi1.layer h hroom, ?_, ?_, ?_, ?_, ?_, ?_, ?_, ?_, ?_, ?_, ?_, ?_, ?_⟩⟩
  · have hseq : run (do
        let slot ← getEmptySlot b
        let created ← insertLvAt fuel fuel b slot key v lo.length
        versionUnlock fuel b
        pure created) (s.setNode b (bd.mapVersion Version.inserting)) = run (do
        let created ← (do
          let slot ← getEmptySlot b
          insertLvAt fuel fuel b slot key v lo.length)
        versionUnlock fuel b
        pure created) (s.setNode b (bd.mapVersion Version.inserting)) := by
      rw [Lib.Prog.bind_assoc]
    rw [run_insertLv_head (by omega) h.layer h.node, if_neg (by omega), hseq, run_bind_of (hrun fuel hf),
      run_versionUnlock (by omega) hi1.node]
    rfl
  · refine ⟨(Ctx.bordersLeft c).flatMap (·.2) ++ lo, hi ++ (Ctx.bordersRight c).flatMap (·.2), ?_, ?_⟩
    · rw [entries_plug]
      simp
    · rw [entries_plug]
      simp
  · exact fun x hx => Or.inl (hperm.mem_iff.mp hx)
  · exact fun x hx => hperm.mem_iff.mpr hx
  · exact ⟨Nat.le_refl _, Nat.le_of_eq hi1.next.symm⟩
  · exact ⟨lo ++ entryOf key v :: hi, by rw [plug_border_borders]; simp, by simp⟩
  · intro i hilt
    have hblt := h.border_lt
    rw [unlockedAfter, State.setNode_node_ne (by lia)]
    exact hi1.newLayers i hilt
  · exact fun b' es' e x hbe he hne hx => hi1.below h hbe he hne hx
  · exact fun x hx hxlt _ _ => hi1.frame_unlocked (fun heq => hx (mem_plug_border_ids.mpr (Or.inr heq))) hxlt
  · refine .kept ?_ hothers.2.2.1 fun p hp =>
      hi1.frame_unlocked (fun heq => (h.outside p hp).1 (mem_plug_border_ids.mpr (Or.inr heq))) (h.outside p hp).2
    rw [Ctx.plug_id, Ctx.plug_id]
    rfl
  · obtain ⟨h1, h2, -, h4, h5, h6, h7⟩ := hothers
    simp only [State.rest, Prod.mk.injEq]
    exact ⟨h1, h2, h4, h5, h6, h7⟩
  · refine ⟨bd, _, h.node, unlockedAfter_node, ?_⟩
    have hhead := hi1.head
    simp only [Node.head, Prod.mk.injEq] at hhead
    rw [Node.mapVersion_version, hhead.2.1]
    exact Version.unlocked_vinsertDelete rfl
  · exact fun x xd hxd _ hxlt hxb _ => ⟨xd, (hi1.frame_unlocked hxb hxlt).trans hxd, rfl⟩
  · exact fun x h1 h2 => Or.inr ⟨h1, Nat.lt_of_lt_of_eq h2 hi1.next⟩

end

/-! ### A full border -/

section
variable {lo hi es₁ es₂ : List Entry} {front : Entry} {bd ld rd : Node} {s₂ s' : State} {target : NodeId}

/-- The nodes of a layer in which a border got a sibling. -/
theorem mem_halves_ids (es : List Entry) {n x : NodeId} :
    x ∈ Ctx.ids c ++ ((BTree.border b es₁).ids ++ (BTree.border n es₂).ids) ↔
      x ∈ (Ctx.plug c (.border b es)).ids ∨ x = n := by
  rw [mem_plug_border_ids]
  simp [BTree.ids, BTree.descs, or_assoc]

theorem InsertPlace.halves_nodup (h : InsertPlace s ti par link dead c b lo hi bd key) (es₁ es₂ : List Entry) :
    (Ctx.ids c ++ ((BTree.border b es₁).ids ++ (BTree.border s.nextNode es₂).ids)).Nodup := by
  simp only [BTree.ids, BTree.descs, List.map_cons, List.map_nil, List.cons_append, List.nil_append]
  refine List.nodup_append.mpr ⟨h.layer.ids_nodup.1, ?_, fun x hx y hy => ?_⟩
  · simpa using Nat.ne_of_lt h.border_lt
  · obtain ⟨h1, h2⟩ := h.ctx_lt hx
    rcases List.mem_cons.mp hy with rfl | hy
    · exact h1
    · rw [List.mem_singleton.mp hy]
      exact Nat.ne_of_lt h2

/-- The first entry of an upper half is not the empty key. -/
theorem InsertPlace.front_length (h : InsertPlace s ti par link dead c b lo hi bd key) (hne : es₁ ≠ [])
    (hsplit : es₁ ++ front :: es₂ = lo ++ entryOf key v :: hi) : front.key.length ≠ 0 := by
  obtain ⟨x, l, rfl⟩ := List.exists_cons_of_ne_nil hne
  have hs := (List.pairwise_append.mp (List.pairwise_append.mp (h.sorted v)).1).2.1
  rw [← hsplit, List.map_append, List.pairwise_append] at hs
  have hlt := hs.2.2 x.mark (by simp) front.mark (by simp)
  simp only [Entry.mark] at hlt
  have hmem : front ∈ lo ++ entryOf key v :: hi := hsplit ▸ List.mem_append_right _ List.mem_cons_self
  exact length_ne_zero_of_lt (h.entry_ok hmem).1 (by omega : x.key.code < _)

namespace BorderHalves
variable (h : InsertPlace s ti par link dead c b lo hi bd key)
  (hh : BorderHalves link dead (s.setNode b (bd.mapVersion Version.inserting)) s₂ b (lo ++ hi) es₁ es₂
    (bd.mapVersion Version.inserting)
    ld rd key v target)
include hh

theorem frame_of {x : NodeId} (hb : x ≠ b) (hlt : x < s.nextNode) (hnext : bd.next ≠ some x)
    (hl : ¬ LinksTo link ((lo ++ hi).drop 8) x) :
    s₂.node x = s.node x :=
  (hh.frame x hb hlt hnext hl).trans (State.setNode_node_ne hb)

include h

theorem parent_kept {p : NodeId} (hp : par = some p) : s₂.node p = s.node p := by
  obtain ⟨h1, h2⟩ := h.outside p hp
  rw [mem_plug_border_ids, not_or] at h1
  exact hh.frame_of h1.2 h2 (fun hx => h1.1 (h.next hx).1) fun hl => (h.links hl).2.2.2.1 hp

theorem sibling_node {x : NodeId} {xd : Node} (hx : bd.next = some x) (hxd : s.node x = some xd) :
    s₂.node x = some (xd.set .prev (some s.nextNode)) := by
  rw [hh.sibling x hx, State.setNode_node_ne (h.ctx_lt (h.next hx).1).1, hxd]
  rfl

theorem ctx_node {x : NodeId} (hx : x ∈ Ctx.ids c) (hnext : bd.next ≠ some x) : s₂.node x = s.node x :=
  hh.frame_of (h.ctx_lt hx).1 (h.ctx_lt hx).2 hnext fun hl => (h.links hl).1 hx

theorem moved_node {x : NodeId} (hx : LinksTo link ((lo ++ hi).drop 8) x) :
    s₂.node x = (s.node x).map (·.set .parent (some s.nextNode)) := by
  rw [hh.moved x hx, State.setNode_node_ne (h.links hx).2.1]
  rfl

/-- The other nodes of the layer. -/
theorem outer_ok : NodesOk (linkWith link key (s.nextNode + 1)) dead s₂ (Ctx.descs par true c b) := by
  intro p hp
  obtain ⟨xd, hxd, hok⟩ := h.desc_ok (s.nextNode + 1) hp
  by_cases hnx : bd.next = some p.1
  · exact ⟨_, hh.sibling_node h hnx hxd, hok.setPrev _⟩
  · exact ⟨xd, (hh.ctx_node h (Ctx.mem_ids_of_desc hp) hnx).trans hxd, hok⟩

/-- What points to the layer. -/
theorem upper : Upper s₂ ti par (Ctx.rootId c b) := by
  refine ⟨fun hp => ?_, fun p hp => ?_⟩
  · have hroot := hh.others
    simp only [State.others, Prod.mk.injEq] at hroot
    rw [hroot.2.2.1]
    have htree := h.upper.tree hp
    rwa [Ctx.plug_id] at htree
  · obtain ⟨pd, hpd, hrest⟩ := h.upper.border p hp
    rw [Ctx.plug_id] at hrest
    exact ⟨pd, (hh.parent_kept h hp).trans hpd, hrest⟩

end BorderHalves

/-- What `border_split` leaves of a full border: the two halves `es₁` and `front :: es₂` with the new entry, as they are in
    the memory `s₂` before the new border goes into the tree, and the memory `s'` after that. -/
structure BorderSplitPost (link : KeySlice → Ptr) (dead : NodeId → Prop) (s s₂ s' : State) (ti : TreeId) (par : Ptr)
    (c : Ctx) (b : NodeId) (lo hi es₁ : List Entry) (front : Entry) (es₂ : List Entry) (bd ld rd : Node) (key : Key)
    (v : ValuePtr) (target : NodeId) : Prop where
  split : es₁ ++ front :: es₂ = lo ++ entryOf key v :: hi
  nonempty : es₁ ≠ []
  sorted : (Ctx.flatLeft c ++ (es₁ ++ front :: es₂).map Entry.mark ++ Ctx.flatRight c).Pairwise (· < ·)
  pivot : rd.key 0 = front.key
  length : front.key.length ≠ 0
  halves : BorderHalves link dead (s.setNode b (bd.mapVersion Version.inserting)) s₂ b (lo ++ hi) es₁ (front :: es₂)
    (bd.mapVersion Version.inserting) ld rd key v target
  post : SplitPost (linkWith link key (s.nextNode + 1)) dead (fun x => x = b ∨ x = s.nextNode ∨ par = some x) s₂ s' ti
    par c (.border b es₁)
    front.key (.border s.nextNode (front :: es₂))
  version : ∃ ld', s'.node b = some ld' ∧ ld'.version = Version.unlocked (.setRoot false ld.version)

/-- `border_split`. -/
theorem run_borderSplit (h : InsertPlace s ti par link dead c b lo hi bd key) (hfull : (lo ++ hi).length = 15) :
    ∃ s₂ s' es₁ front es₂ ld rd target, (∃ N, ∀ fuel ≥ N, run (borderSplit fuel ti b key v lo.length)
        (s.setNode b (bd.mapVersion Version.inserting)) = some (.value v, s')) ∧
      BorderSplitPost link dead s s₂ s' ti par c b lo hi es₁ front es₂ bd ld rd key v target := by
  obtain ⟨s₁, bd₁, nbd₁, hmove, hhalved⟩ := run_borderSplitMove (s := s.setNode b (bd.mapVersion Version.inserting))
    (State.setNode_node_same _ _ _) h.border_lt h.members hfull
    (fun x hx => by
      obtain ⟨hxc, xd, hxd, hxk⟩ := h.next hx
      exact ⟨(h.ctx_lt hxc).1, (h.ctx_lt hxc).2, xd, (State.setNode_node_ne (h.ctx_lt hxc).1).trans hxd, hxk⟩)
    (fun m hm => by
      obtain ⟨hmc, hmb, h2, -, md, hmd, -⟩ := h.links hm
      exact ⟨hmb, h2, fun hx => hmc (h.next hx).1, md, (State.setNode_node_ne hmb).trans hmd⟩)
  obtain ⟨s₂, es₁, es₂, ld, rd, target, hins, hsplit, hne₁, hlen₁, hlen₂, hh⟩ :=
    HalvedPlace.insert (v := v) ⟨hhalved, h.border_lt, hfull, fun e he => h.layer.entry_ok (mem_plug_entries he),
      (List.pairwise_append.mp (List.pairwise_append.mp h.layer.border_sorted).1).2.1, h.low, h.high, rfl,
      fun x hx => h.ctx_lt (h.next hx).1, fun m hm => ⟨(h.links hm).2.1, (h.links hm).2.2.1⟩⟩
  obtain ⟨front, hfront, hkey0⟩ := hh.pivot
  obtain ⟨es₂', rfl⟩ : ∃ l, es₂ = front :: l := ⟨es₂.tail, List.eq_cons_of_mem_head? hfront⟩
  have hleft := hh.leftHead
  simp only [Node.head, Prod.mk.injEq] at hleft
  have hok : ∀ e ∈ es₁ ++ front :: es₂', e.key.Encoded ∧ (e.content = .layer ↔ e.key.length = 9) :=
    fun e he => h.entry_ok (hsplit ▸ he)
  have hnext : s₂.nextNode = s.nextNode + 1 + layers key := hh.next
  have hsorted := h.sorted v
  rw [← hsplit] at hsorted
  have hlength := h.front_length hne₁ hsplit
  have houter := hh.outer_ok h
  obtain ⟨s', ⟨N, hN⟩, hpost, hversion⟩ := run_borderSplitParent (c := c) (s := s₂) (l := b) (r := s.nextNode)
    ⟨hh.left, ⟨hlen₁, fun e he => hok e (List.mem_append_left _ he)⟩, hh.leftMembers,
      fun _ hp => by simp [BTree.inner] at hp⟩
    ⟨hh.right, ⟨hlen₂, fun e he => hok e (List.mem_append_right _ he)⟩, hh.rightMembers,
      fun _ hp => by simp [BTree.inner] at hp⟩
    hkey0 ⟨(hok front (by simp)).1, hlength⟩ (hleft.2.2.1.trans h.node_ok.parent) houter
    (sorted_pivot hne₁ hsorted) (h.halves_nodup _ _)
    (fun x hx => by
      rcases (mem_halves_ids (lo ++ hi)).mp hx with hx | rfl
      · have := h.fresh x hx
        lia
      · lia)
    (hh.upper h)
    (fun p hp => by
      obtain ⟨h1, h2⟩ := h.outside p hp
      refine ⟨fun hx => ?_, by lia⟩
      rcases (mem_halves_ids _).mp hx with hx | hx
      · exact h1 hx
      · lia)
  refine ⟨s₂, s', es₁, front, es₂', ld, rd, target, ⟨N + layers key + 1, fun fuel hf => ?_⟩, hsplit, hne₁, hsorted,
    hkey0, hlength, hh, hpost,
    hversion⟩
  rw [borderSplit, run_bind_of (hmove fuel (by omega))]
  refine (run_bind_of (hins fuel (by omega)) _).trans ?_
  exact (run_bind_of (hN fuel (by omega)) _).trans rfl

namespace BorderSplitPost
variable (h : InsertPlace s ti par link dead c b lo hi bd key)
  (P : BorderSplitPost link dead s s₂ s' ti par c b lo hi es₁ front es₂ bd ld rd key v target)

/-- The layer with the new border behind the old one. -/
def tree (c : Ctx) (b n m : NodeId) (es₁ : List Entry) (front : Entry) (es₂ : List Entry) : BTree :=
  Ctx.addRight c (.border b es₁) front.key (.border n (front :: es₂)) m

include P in
theorem nextNode : s₂.nextNode = s.nextNode + 1 + layers key ∧ s'.nextNode = s₂.nextNode + Ctx.splits c :=
  ⟨P.halves.next, P.post.next⟩

include P in
/-- The nodes outside the layer that the end of the split leaves alone. -/
theorem frame_end {x : NodeId} (hx : x ∉ (Ctx.plug c (.border b (lo ++ hi))).ids) (hn : x ≠ s.nextNode)
    (hlt : x < s₂.nextNode) (hp : par ≠ some x) : s'.node x = s₂.node x :=
  P.post.frame x (fun hmem => ((mem_halves_ids _).mp hmem).elim hx hn) hlt hp

include h

theorem tree_borders (n m : NodeId) : (tree c b n m es₁ front es₂).borders =
    Ctx.bordersLeft c ++ (b, es₁) :: (n, front :: es₂) :: Ctx.bordersRight c := by
  rw [tree, Ctx.addRight_borders h.layer.sized]
  simp only [BTree.borders, List.cons_append, List.nil_append, List.append_assoc]

theorem tree_ids (n m : NodeId) : (tree c b n m es₁ front es₂).ids.Perm
    ((Ctx.ids c ++ ((BTree.border b es₁).ids ++ (BTree.border n (front :: es₂)).ids)) ++ List.range' m (Ctx.splits c)) :=
  Ctx.addRight_ids h.layer.sized _ _ _ _

theorem mem_tree_ids {n m x : NodeId} : x ∈ (tree c b n m es₁ front es₂).ids ↔
    x ∈ (Ctx.plug c (.border b (lo ++ hi))).ids ∨ x = n ∨ m ≤ x ∧ x < m + Ctx.splits c := by
  rw [(tree_ids h n m).mem_iff, List.mem_append, mem_halves_ids (lo ++ hi), List.mem_range'_1, or_assoc]

include P

/-- The leaf chain: the new border comes right after the old one. -/
theorem chain : Chain s' none ((tree c b s.nextNode s₂.nextNode es₁ front es₂).borders.map (·.1)) none := by
  have hnext := P.nextNode.1
  have hblt := h.border_lt
  have hleft := P.halves.leftHead
  have hright := P.halves.rightHead
  simp only [Node.head, Prod.mk.injEq] at hleft hright
  have hkind := h.node_ok.members.1
  have hch := h.layer.chain
  rw [plug_border_borders] at hch
  rw [tree_borders h]
  simp only [List.map_append, List.map_cons] at hch ⊢
  have hnd : ((Ctx.bordersLeft c).map (·.1) ++ b :: (Ctx.bordersRight c).map (·.1)).Nodup := by
    have hids := h.layer.nodup.sublist (BTree.borders_ids_sublist _)
    rw [plug_border_borders] at hids
    simpa using hids
  obtain ⟨bd', hbd', -, -, hbp, hbq, -⟩ := P.post.borders b ld P.halves.left (hleft.1.trans hkind) (by lia)
  obtain ⟨nbd', hnbd', -, -, hnp, hnq, -⟩ := P.post.borders s.nextNode rd P.halves.right (hright.1.trans hkind) (by lia)
  refine hch.insertAfter hnd h.node hbd' (hbp.trans hleft.2.2.2.1) (hbq.trans hleft.2.2.2.2) hnbd'
    (hnp.trans hright.2.2.2.1)
    (hnq.trans hright.2.2.2.2) (fun x hx => ?_) fun x hx hxn xd hxd => ?_
  · have hnx : bd.next = some x := (h.layer.next_border h.node).2.trans hx
    obtain ⟨hxc, xd, hxd, hxk⟩ := h.next hnx
    have hxlt := (h.ctx_lt hxc).2
    obtain ⟨xd', hxd', -, -, hp', hq', -⟩ := P.post.borders x _ (P.halves.sibling_node h hnx hxd) hxk (by lia)
    exact ⟨xd, xd', hxd, hxd', hp', hq'⟩
  · have hxc := Ctx.mem_ids_of_borders hx
    have hxlt := (h.ctx_lt hxc).2
    have hx₂ : s₂.node x = some xd :=
      (P.halves.ctx_node h hxc fun hnx => hxn ((h.layer.next_border h.node).2.symm.trans hnx)).trans hxd
    have hxk : xd.kind = .border := by
      have hxb : x ∈ (Ctx.plug c (.border b (lo ++ hi))).borders.map (·.1) := by
        rw [plug_border_borders]
        simp only [List.map_append, List.map_cons, List.mem_append, List.mem_cons] at hx ⊢
        tauto
      obtain ⟨⟨y, fs⟩, hy, rfl⟩ := List.mem_map.mp hxb
      obtain ⟨p, rt, hd⟩ := BTree.border_desc hy par true
      obtain ⟨yd, hyd, hyok⟩ := h.layer.nodes _ hd
      obtain rfl : yd = xd := Option.some.inj (hyd.symm.trans hxd)
      exact hyok.members.1
    obtain ⟨xd', hxd', -, -, hp', hq', -⟩ := P.post.borders x _ hx₂ hxk (by lia)
    exact ⟨xd', hxd', hp', hq'⟩

theorem layer : LayerOk s' par (linkWith link key (s.nextNode + 1)) dead
    (tree c b s.nextNode s₂.nextNode es₁ front es₂) := by
  have hnext := P.nextNode.1
  refine ⟨P.post.nodes, ?_, ?_, ?_, P.chain h⟩
  · refine (tree_ids h _ _).nodup_iff.mpr
      (List.nodup_append.mpr ⟨h.halves_nodup _ _, List.nodup_range', fun x hx y hy => ?_⟩)
    have hy' := (List.mem_range'_1.mp hy).1
    rcases (mem_halves_ids (lo ++ hi)).mp hx with hx | rfl
    · have := h.fresh x hx
      lia
    · lia
  · rw [tree, Ctx.addRight_flat h.layer.sized]
    exact sorted_pivot P.nonempty P.sorted
  · exact h.layer.rest_nonempty (l := [(b, es₁), (s.nextNode, front :: es₂)]) (by simp [P.nonempty]) (tree_borders h _ _)

/-- The layers behind the old entries. -/
theorem below {b' : NodeId} {es' : List Entry} {e : Entry} {x : NodeId}
    (hbe : (b', es') ∈ (tree c b s.nextNode s₂.nextNode es₁ front es₂).borders) (he : e ∈ es') (hnew : e ≠ entryOf key v)
    (hx : (e.slot link).2 = .link x) : s'.node x = (s.node x).map (·.set .parent (some b')) := by
  have hnext := P.nextNode.1
  have hstay : ∀ es'', (b', es'') ∈ (Ctx.plug c (.border b (lo ++ hi))).borders → e ∈ es'' →
      ¬ LinksTo link ((lo ++ hi).drop 8) x → s'.node x = (s.node x).map (·.set .parent (some b')) := by
    intro es'' hb'' he'' hnl
    obtain ⟨h1, h2, h3, xd, hxd, hxp⟩ := h.below.under b' es'' e x hb'' he'' hx
    rw [P.frame_end h1 (Nat.ne_of_lt h2) (by lia) h3]
    rw [mem_plug_border_ids, not_or] at h1
    rw [P.halves.frame_of h1.2 h2 (fun hnx => h1.1 (h.next hnx).1) hnl, hxd]
    cases xd
    simp only at hxp
    simp [Node.set, hxp]
  have hctx : (b', es') ∈ Ctx.bordersLeft c ∨ (b', es') ∈ Ctx.bordersRight c →
    s'.node x = (s.node x).map (·.set .parent (some b')) := by
    intro hbc
    have hb'' : (b', es') ∈ (Ctx.plug c (.border b (lo ++ hi))).borders := by
      rw [plug_border_borders, List.mem_append, List.mem_cons]
      tauto
    refine hstay es' hb'' he fun hl => ?_
    obtain ⟨-, -, -, xd, hxd, hxp⟩ := h.below.under b' es' e x hb'' he hx
    obtain ⟨-, -, -, -, xd', hxd', hxp'⟩ := h.links hl
    obtain rfl : xd = xd' := Option.some.inj (hxd.symm.trans hxd')
    exact (h.ctx_lt (Ctx.border_mem_ids hbc)).1 (Option.some.inj (hxp.symm.trans hxp'))
  rw [tree_borders h] at hbe
  rcases List.mem_append.mp hbe with hbe | hbe
  · exact hctx (Or.inl hbe)
  simp only [List.mem_cons, Prod.mk.injEq] at hbe
  rcases hbe with ⟨rfl, rfl⟩ | ⟨rfl, rfl⟩ | hbe
  · -- An entry of the lower half leads to no layer of the upper one.
    have hlow := (P.halves.keptLeft e he).resolve_left hnew
    refine hstay (lo ++ hi) (by rw [plug_border_borders]; simp) (List.mem_of_mem_take hlow) ?_
    rintro ⟨e', he', hx'⟩
    obtain rfl := h.below.inj e (mem_plug_entries (List.mem_of_mem_take hlow)) e'
      (mem_plug_entries (List.mem_of_mem_drop he')) x hx hx'
    have hes := (List.pairwise_append.mp (List.pairwise_append.mp h.layer.border_sorted).1).2.1
    rw [← List.take_append_drop 8 (lo ++ hi), List.map_append, List.pairwise_append] at hes
    exact absurd (hes.2.2 e.mark (List.mem_map.mpr ⟨e, hlow, rfl⟩) e.mark (List.mem_map.mpr ⟨e, he', rfl⟩))
      (Nat.lt_irrefl _)
  · have hl : LinksTo link ((lo ++ hi).drop 8) x := ⟨e, (P.halves.keptRight e he).resolve_left hnew, hx⟩
    obtain ⟨h1, hxb, h2, h3, -⟩ := h.links hl
    rw [P.frame_end (fun hx => (mem_plug_border_ids.mp hx).elim h1 hxb) (Nat.ne_of_lt h2) (by lia) h3,
      P.halves.moved_node h hl]
  · exact hctx (Or.inr hbe)

theorem above : Above Version.inserted s s' ti par (Ctx.plug c (.border b (lo ++ hi))).id
    (tree c b s.nextNode s₂.nextNode es₁ front es₂).id := by
  have hothers := P.halves.others
  simp only [State.others, Prod.mk.injEq] at hothers
  have hroot := hothers.2.2.1
  have hid : (Ctx.plug c (.border b (lo ++ hi))).id = Ctx.rootId c b := Ctx.plug_id c _
  rw [hid]
  rcases P.post.above with ⟨heq, hr, hbb⟩ | ⟨hp, hr⟩ | ⟨p, pd, pd', hp, hr, hbef, haft, hslot⟩
  · exact .kept heq (hr.trans hroot) fun p hp => (hbb p hp).trans (P.halves.parent_kept h hp)
  · refine .tree hp (hr.trans ?_)
    simp only [State.setRoot, hroot]
    rfl
  · exact .link p pd pd' hp (hr.trans hroot) ((P.halves.parent_kept h hp).symm.trans hbef) haft hslot

/-- The versions of the other borders. -/
theorem versions {x : NodeId} {xd : Node} (hxd : s.node x = some xd) (hxk : xd.kind = .border) (hlt : x < s.nextNode)
    (hxb : x ≠ b) (hxp : par ≠ some x) : ∃ xd', s'.node x = some xd' ∧ xd'.version = xd.version := by
  have hnext := P.nextNode.1
  have hx₂ : ∃ xd₂, s₂.node x = some xd₂ ∧ xd₂.kind = .border ∧ xd₂.version = xd.version := by
    by_cases hnx : bd.next = some x
    · exact ⟨_, P.halves.sibling_node h hnx hxd, hxk, rfl⟩
    · by_cases hl : LinksTo link ((lo ++ hi).drop 8) x
      · exact ⟨xd.set .parent (some s.nextNode), by rw [P.halves.moved_node h hl, hxd]; rfl, hxk, rfl⟩
      · exact ⟨xd, (P.halves.frame_of hxb hlt hnx hl).trans hxd, hxk, rfl⟩
  obtain ⟨xd₂, hxd₂, hxk₂, hv₂⟩ := hx₂
  obtain ⟨xd', hxd', -, -, -, -, hv'⟩ := P.post.borders x xd₂ hxd₂ hxk₂ (by lia)
  refine ⟨xd', hxd', (hv' ?_).trans hv₂⟩
  rintro (h1 | h1 | h1)
  · exact hxb h1
  · exact absurd h1 (Nat.ne_of_lt hlt)
  · exact hxp h1

/-- The entries of the layer, with the new one at its place. -/
theorem entries : ∃ L R, (Ctx.plug c (.border b (lo ++ hi))).entries = L ++ R ∧
    (tree c b s.nextNode s₂.nextNode es₁ front es₂).entries = L ++ entryOf key v :: R := by
  refine ⟨(Ctx.bordersLeft c).flatMap (·.2) ++ lo, hi ++ (Ctx.bordersRight c).flatMap (·.2), ?_, ?_⟩
  · rw [entries_plug]
    simp
  · rw [BTree.entries, tree_borders h]
    simp only [List.flatMap_append, List.flatMap_cons]
    rw [← List.append_assoc es₁, P.split]
    simp

theorem holder : ∃ es, (target, es) ∈ (tree c b s.nextNode s₂.nextNode es₁ front es₂).borders ∧ entryOf key v ∈ es := by
  rw [tree_borders h]
  rcases P.halves.newEntry with ⟨rfl, he⟩ | ⟨rfl, he⟩
  · exact ⟨es₁, by simp, he⟩
  · exact ⟨front :: es₂, List.mem_append_right _ (by simp), he⟩

/-- Everything outside the layer and the layers below it. -/
theorem frame {x : NodeId} (hx : x ∉ (Ctx.plug c (.border b (lo ++ hi))).ids) (hlt : x < s.nextNode) (hp : par ≠ some x)
    (hl : ¬ LinksTo link (Ctx.plug c (.border b (lo ++ hi))).entries x) : s'.node x = s.node x := by
  have hnext := P.nextNode.1
  rw [P.frame_end hx (Nat.ne_of_lt hlt) (by lia) hp]
  rw [mem_plug_border_ids, not_or] at hx
  refine P.halves.frame_of hx.2 hlt (fun hnx => hx.1 (h.next hnx).1) ?_
  rintro ⟨e, he, hex⟩
  exact hl ⟨e, mem_plug_entries (List.mem_of_mem_drop he), hex⟩

theorem newLayers : NewLayers s' (s.nextNode + 1) key v target := by
  intro i hilt
  have hnext := P.nextNode.1
  refine (P.frame_end (fun hx => ?_) (by lia) (by lia) fun hp => ?_).trans (P.halves.newLayers i hilt)
  · have := h.fresh _ hx
    lia
  · have := (h.outside _ hp).2
    lia

/-- The layer has got the entry. -/
theorem inserted : Inserted link dead s s' ti par (Ctx.plug c (.border b (lo ++ hi)))
    (tree c b s.nextNode s₂.nextNode es₁ front es₂) b key v
    (s.nextNode + 1) target := by
  obtain ⟨hnext, hnext'⟩ := P.nextNode
  refine ⟨P.layer h, P.entries h, fun x hx => ?_, fun x hx => (mem_tree_ids h).mpr (Or.inl hx),
    ⟨Nat.le_succ _, by lia⟩, P.holder h,
    P.newLayers h, fun b' es' e x hbe he hnew hx => P.below h hbe he hnew hx,
      fun x hx hlt hp hl => P.frame h hx hlt hp hl, P.above h, ?_, ?_,
    fun x xd hxd hxk hlt hxb hxp => P.versions h hxd hxk hlt hxb hxp, fun x h1 h2 => ?_⟩
  · rcases (mem_tree_ids h).mp hx with hx | rfl | ⟨h1, h2⟩
    · exact Or.inl hx
    · exact Or.inr ⟨Nat.le_refl _, by lia, Or.inl (Nat.lt_succ_self _)⟩
    · exact Or.inr ⟨by lia, by lia, Or.inr (by lia)⟩
  · have hothers := P.halves.others
    simp only [State.others, Prod.mk.injEq] at hothers
    obtain ⟨g1, g2, -, g4, g5, g6, g7⟩ := hothers
    rw [P.post.rest]
    simp only [State.rest, Prod.mk.injEq]
    exact ⟨g1, g2, g4, g5, g6, g7⟩
  · obtain ⟨ld', hld', hv⟩ := P.version
    refine ⟨bd, ld', h.node, hld', ?_⟩
    have hleft := P.halves.leftHead
    simp only [Node.head, Prod.mk.injEq] at hleft
    rw [hv, hleft.2.1]
    exact Version.unlocked_vinsertDelete rfl
  · rcases Nat.eq_or_lt_of_le h1 with rfl | h1
    · exact Or.inl ((mem_tree_ids h).mpr (Or.inr (Or.inl rfl)))
    · rcases Nat.lt_or_ge x (s.nextNode + 1 + layers key) with h3 | h3
      · exact Or.inr ⟨h1, h3⟩
      · exact Or.inl ((mem_tree_ids h).mpr (Or.inr (Or.inr ⟨by lia, by lia⟩)))

end BorderSplitPost

/-- `insert_lv` on a full border. -/
theorem run_insertLv_split (h : InsertPlace s ti par link dead c b lo hi bd key) (hfull : (lo ++ hi).length = 15) :
    ∃ s' t' target,
      (∃ N, ∀ fuel ≥ N,
        run (insertLv fuel ti b key v lo.length) (s.setNode b (bd.mapVersion (.setLocked true))) = some (.value v, s')) ∧
      Inserted link dead s s' ti par (Ctx.plug c (.border b (lo ++ hi))) t' b key v (s.nextNode + 1) target := by
  obtain ⟨s₂, s', es₁, front, es₂, ld, rd, target, ⟨N, hrun⟩, hpost⟩ := run_borderSplit (v := v) h hfull
  refine ⟨s', _, target, ⟨N + 1, fun fuel hf => ?_⟩, hpost.inserted h⟩
  rw [run_insertLv_head (by omega) h.layer h.node, if_pos hfull]
  exact hrun fuel (by omega)

/-- `insert_lv`. -/
theorem run_insertLv (h : InsertPlace s ti par link dead c b lo hi bd key) :
    ∃ s' t' m target,
      (∃ N, ∀ fuel ≥ N,
        run (insertLv fuel ti b key v lo.length) (s.setNode b (bd.mapVersion (.setLocked true))) = some (.value v, s')) ∧
      Inserted link dead s s' ti par (Ctx.plug c (.border b (lo ++ hi))) t' b key v m target := by
  rcases Nat.lt_or_ge (lo ++ hi).length 15 with hroom | hfull
  · obtain ⟨s', hrun, hins⟩ := run_insertLv_room (v := v) h hroom
    exact ⟨s', _, _, b, ⟨layers key + 1, hrun⟩, hins⟩
  · obtain ⟨s', t', target, hrun, hins⟩ := run_insertLv_split (v := v) h (Nat.le_antisymm h.node_ok.body.1 hfull)
    exact ⟨s', t', _, target, hrun, hins⟩

end
end
end Yakushima
