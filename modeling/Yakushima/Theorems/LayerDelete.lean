import Yakushima.Theorems.BorderDelete

/-! # Deletion from a layer

What `delete_of` on a locked border does to the layer of the border: the layer without the entry, or
nothing of the layer when it was its last entry and the layer is not the first. -/

namespace Yakushima
open M Permutation

/-! ### The layer without a border -/

section
variable {f f' : Frame} {y : BTree} {c : Ctx}

theorem Frame.eq_of_pivots_nil (h : f.pivots = []) : f.left = [] ∧ f.right = [] := by
  simp only [pivots, List.append_eq_nil_iff, List.map_eq_nil_iff] at h
  exact h

theorem Ctx.shrink_borders (h : f.Closes f' y) :
    (Ctx.shrink c f' y).borders = Ctx.bordersLeft (f :: c) ++ Ctx.bordersRight (f :: c) := by
  have hy := h.borders
  rw [Ctx.shrink]
  split
  · next hnil =>
    obtain ⟨hl, hr⟩ := f'.eq_of_pivots_nil hnil
    have : (f'.plug y).borders = y.borders := by simp [Frame.plug_borders, Frame.bordersLeft, Frame.bordersRight, hl, hr]
    rw [Ctx.plug_borders, ← this, hy]
    simp [Ctx.bordersLeft, Ctx.bordersRight]
  · rw [Ctx.plug_borders, hy]
    simp [Ctx.bordersLeft, Ctx.bordersRight]

theorem Ctx.shrink_flat (h : f.Closes f' y) :
    (Ctx.shrink c f' y).flat.Sublist (Ctx.flatLeft (f :: c) ++ Ctx.flatRight (f :: c)) := by
  have hy := h.flat
  have hout : ∀ u : BTree, u.flat.Sublist (f.flatLeft ++ f.flatRight) →
      (Ctx.plug c u).flat.Sublist (Ctx.flatLeft (f :: c) ++ Ctx.flatRight (f :: c)) := by
    intro u hu
    rw [Ctx.plug_flat, Ctx.flatLeft, Ctx.flatRight]
    have := (hu.append_left (Ctx.flatLeft c)).append_right (Ctx.flatRight c)
    simpa [List.append_assoc] using this
  rw [Ctx.shrink]
  split
  · next hnil =>
    obtain ⟨hl, hr⟩ := f'.eq_of_pivots_nil hnil
    have : (f'.plug y).flat = y.flat := by simp [Frame.plug_flat, Frame.flatLeft, Frame.flatRight, hl, hr]
    exact hout y (this ▸ hy)
  · exact hout _ hy

theorem Ctx.shrink_ids (h : f.Closes f' y) : (Ctx.ids (f :: c)).Perm (f'.gone ++ (Ctx.shrink c f' y).ids) := by
  have hy := h.ids
  refine (Ctx.ids_cons f c).trans ?_
  rw [Ctx.shrink, Frame.gone]
  split
  · next hnil =>
    obtain ⟨hl, hr⟩ := f'.eq_of_pivots_nil hnil
    have hp := (f'.plug_ids_perm y).symm.trans hy
    simp only [Frame.ids, hl, hr, List.flatMap_nil, List.append_nil] at hp
    have hp' := (hp.symm.append_right (Ctx.ids c))
    refine hp'.trans ?_
    rw [List.append_assoc]
    refine List.Perm.append_left _ ?_
    exact (List.perm_append_comm).trans (Ctx.plug_ids_perm c y).symm
  · rw [List.nil_append]
    refine (hy.symm.append_right _).trans ?_
    exact (List.perm_append_comm).trans (Ctx.plug_ids_perm c (f'.plug y)).symm

end

theorem BTree.borders_ne_nil (t : BTree) : t.borders ≠ [] := by
  induction t with
  | border i es => simp [borders]
  | interior i f r hf hr => simp [borders, hf]

/-- How a layer changes when it loses the entry `x`: the border keeps other entries, or it is the whole tree, or it is
    emptied and leaves its interior, which leaves with it when one child is left and gives that child its place. -/
inductive LayerLoss (x : Entry) : BTree → BTree → Prop where
  | keep (c : Ctx) (b : NodeId) (lo hi : List Entry) (h : lo ++ hi ≠ []) :
      LayerLoss x (Ctx.plug c (.border b (lo ++ x :: hi))) (Ctx.plug c (.border b (lo ++ hi)))
  | root (b : NodeId) : LayerLoss x (.border b [x]) (.border b [])
  | leave (c : Ctx) (f f' : Frame) (y : BTree) (b : NodeId) (h : f.Closes f' y) :
      LayerLoss x (Ctx.plug (f :: c) (.border b [x])) (Ctx.shrink c f' y)

/-- A border was left without entries. -/
def Emptied (s : State) (n : NodeId) : Prop := ∃ nd, s.node n = some nd ∧ nd.kind = .border ∧ getCnk nd.permutation = 0

theorem MembersOk.cnk_eq_zero {link : KeySlice → Ptr} {dead : NodeId → Prop} {nd : Node}
    (h : MembersOk link dead nd (.border [])) :
    getCnk nd.permutation = 0 := by
  have := congrArg List.length h.2.2.2.2.2.1
  rwa [Node.slots_length] at this

/-- The memory after the layer `t` lost the entry `e` and became `t'`, and the nodes `gone` left it. -/
structure Removed (link : KeySlice → Ptr) (dead : NodeId → Prop) (s s' : State) (token : Token) (ti : TreeId) (par : Ptr)
    (t t' : BTree) (e : Entry) (gone : List NodeId) : Prop where
  layer : LayerOk s' par link dead t'
  entries : ∃ L R, t.entries = L ++ e :: R ∧ t'.entries = L ++ R
  filled : par ≠ none → t'.entries ≠ []
  ids : t.ids.Perm (gone ++ t'.ids)
  borders : ∀ b es, (b, es) ∈ t'.borders → ∃ es', (b, es') ∈ t.borders ∧ ∀ x ∈ es, x ∈ es'
  frame : ∀ x, x ∉ t.ids → par ≠ some x → s'.node x = s.node x
  above : Above id s s' ti par t.id t'.id
  next : s'.nextNode = s.nextNode
  rest : s'.rest = ((s.releaseContent token e.content).pushAll token gone).rest
  stays : ∀ x nd, s.node x = some nd → ∃ nd', s'.node x = some nd'
  loss : LayerLoss e t t'
  emptied : ∀ n ∈ gone, ∀ nd, s.node n = some nd → nd.kind = .border → Emptied s' n

theorem Above.congr {bump : Version → Version} {s₁ s₂ s s' : State} {ti : TreeId} {par : Ptr} {old new : NodeId}
    (h : Above bump s s' ti par old new) (hr : s.root = s₁.root) (hr' : s₂.root = s'.root)
    (hp : ∀ p, par = some p → s.node p = s₁.node p) (hp' : ∀ p, par = some p → s₂.node p = s'.node p) :
    Above bump s₁ s₂ ti par old new := by
  rcases h with ⟨heq, hroot, hb⟩ | ⟨hpar, hroot⟩ | ⟨p, pd, pd', hpar, hroot, hbef, haft, hslot⟩
  · exact .kept heq (hr'.trans (hroot.trans hr)) fun p h => (hp' p h).trans ((hb p h).trans (hp p h))
  · refine .tree hpar (hr'.trans (hroot.trans ?_))
    simp only [State.setRoot, hr]
  · exact .link p pd pd' hpar (hr'.trans (hroot.trans hr)) ((hp p hpar).symm.trans hbef) ((hp' p hpar).trans haft) hslot

section
variable {s : State} {b : NodeId} {bd : Node} {link : KeySlice → Ptr} {dead dead' : NodeId → Prop} {token : Token}
  {par : Ptr} {c : Ctx} {lo hi : List Entry} {e : Entry} {ti : TreeId}

/-- A border that keeps an entry. -/
theorem run_borderDeleteOf_keep (h : LayerOk s par link dead (Ctx.plug c (.border b (lo ++ e :: hi))))
    (hb : s.node b = some bd) (hblock : ∀ v, e.content = .value (.heap v) → ∃ x, s.block v = some x)
    (hd : ∀ m, dead m → dead' m) (he : ∀ m, (e.slot link).2 = .link m → dead' m)
    (hpar : ∀ p, par = some p → p ∉ (Ctx.plug c (.border b (lo ++ e :: hi))).ids) (hne : lo ++ hi ≠ []) :
    ∃ s', (∀ fuel > 0, ∀ k > 0, run (borderDeleteOf fuel token ti k b e.key.slice e.key.length e.content.isValue)
        (s.setNode b (bd.mapVersion (.setLocked true))) = some ((), s')) ∧
      Removed link dead' s s' token ti par (Ctx.plug c (.border b (lo ++ e :: hi)))
        (Ctx.plug c (.border b (lo ++ hi))) e [] := by
  obtain ⟨nd, hn, hok⟩ := h.node_at
  obtain rfl : nd = bd := Option.some.inj (hn.symm.trans hb)
  obtain ⟨bd', hhead, hmem, hrun⟩ := run_borderDeleteOf_head h hb hblock hd he
  simp only [Node.head, Node.mapVersion_kind, Node.mapVersion_version, Node.mapVersion_parent, Node.mapVersion_prev,
    Node.mapVersion_next, Prod.mk.injEq] at hhead
  obtain ⟨hk, hv, hp, hpv, hnx⟩ := hhead
  have hv' : bd'.version.unlocked = nd.version := by rw [hv, Version.unlocked_setLocked hok.stable]
  let s' := (s.releaseContent token e.content).setNode b (bd'.mapVersion Version.unlocked)
  have hframe : ∀ x, x ≠ b → s'.node x = s.node x := fun x hx =>
    (State.setNode_node_ne hx).trans (congrFun (State.releaseContent_node s token e.content) x)
  have hb' : s'.node b = some (bd'.mapVersion Version.unlocked) := State.setNode_node_same _ _ _
  have hperm := plug_border_ids_perm c b (lo ++ e :: hi) (lo ++ hi)
  have hlen : ¬ (lo ++ hi).length = 0 := fun h0 => hne (List.length_eq_zero_iff.mp h0)
  refine ⟨s', fun fuel hf k hk0 => ?_, ⟨⟨?_, hperm.nodup_iff.mp h.nodup, ?_, ?_, ?_⟩, ?_, ?_, ?_, ?_, ?_, ?_, ?_, ?_, ?_,
    .keep c b lo hi hne, fun n hn => absurd hn List.not_mem_nil⟩⟩
  · obtain ⟨k, rfl⟩ : ∃ j, k = j + 1 := ⟨k - 1, by omega⟩
    rw [hrun, if_neg hlen, versionUnlock, run_atomicUpdate (State.setNode_node_same _ _ _) hf, State.setNode_setNode]
  · intro p hp'
    rcases Ctx.mem_plug_descs.mp hp' with hp' | hp'
    · obtain ⟨xd, hx, hxok⟩ := h.nodes p (Ctx.mem_plug_descs.mpr (Or.inl hp'))
      exact ⟨xd, (hframe p.1 fun heq => h.ids_nodup.2 (heq ▸ Ctx.mem_ids_of_desc hp')).trans hx, hxok.mono hd
        fun _ _ => rfl⟩
    · simp only [BTree.descs, List.mem_singleton] at hp'
      subst hp'
      refine ⟨_, hb', ⟨⟨hp.trans hok.parent, ?_, ?_, ?_⟩, Version.unlocked_stable _⟩⟩
      · rw [Node.mapVersion_version, hv']
        exact hok.root
      · obtain ⟨hl, hes⟩ := hok.body
        refine ⟨?_, fun x hx => hes x ?_⟩
        · simp only [List.length_append, List.length_cons] at hl ⊢
          omega
        · rw [List.mem_append] at hx ⊢
          rcases hx with hx | hx
          · exact Or.inl hx
          · exact Or.inr (List.mem_cons_of_mem _ hx)
      · exact hmem.mapVersion (Version.unlocked_border _) (Version.unlocked_deleted _)
  · refine List.Pairwise.sublist ?_ h.sorted
    rw [Ctx.plug_flat, Ctx.plug_flat]
    refine (List.Sublist.append_left ?_ _).append_right _
    exact (List.Sublist.append_left (List.sublist_cons_self e hi) lo).map _
  · exact h.rest_nonempty (l := [(b, lo ++ hi)]) (fun x hx => List.mem_singleton.mp hx ▸ hne) (plug_border_borders _ _ _)
  · have hch := h.chain
    rw [plug_border_borders] at hch ⊢
    simp only [List.map_append, List.map_cons] at hch ⊢
    refine hch.congr fun x hx xd hxd => ?_
    by_cases hxb : x = b
    · subst hxb
      obtain rfl : xd = nd := Option.some.inj (hxd.symm.trans hb)
      exact ⟨_, hb', hpv, hnx⟩
    · exact ⟨xd, (hframe x hxb).trans hxd, rfl, rfl⟩
  · refine ⟨(Ctx.bordersLeft c).flatMap (·.2) ++ lo, hi ++ (Ctx.bordersRight c).flatMap (·.2), ?_, ?_⟩
    · rw [entries_plug]
      simp
    · rw [entries_plug]
      simp
  · intro _ hnil
    rw [entries_plug] at hnil
    exact hne (List.append_eq_nil_iff.mp (List.append_eq_nil_iff.mp hnil).1).2
  · exact hperm
  · intro x fs hx
    rw [plug_border_borders] at hx
    simp only [plug_border_borders]
    rcases List.mem_append.mp hx with hx | hx
    · exact ⟨fs, List.mem_append_left _ hx, fun z hz => hz⟩
    · rcases List.mem_cons.mp hx with hx | hx
      · obtain ⟨rfl, rfl⟩ := Prod.mk.inj hx
        refine ⟨_, List.mem_append_right _ List.mem_cons_self, fun z hz => ?_⟩
        rw [List.mem_append] at hz ⊢
        rcases hz with hz | hz
        · exact Or.inl hz
        · exact Or.inr (List.mem_cons_of_mem _ hz)
      · exact ⟨fs, List.mem_append_right _ (List.mem_cons_of_mem _ hx), fun z hz => hz⟩
  · exact fun x hx _ => hframe x fun heq => hx (mem_plug_border_ids.mpr (Or.inr heq))
  · refine .kept ?_ (State.releaseContent_root s token e.content) fun p hp' => hframe p fun heq =>
      hpar p hp' (mem_plug_border_ids.mpr (Or.inr heq))
    rw [Ctx.plug_id, Ctx.plug_id]
    rfl
  · exact State.releaseContent_nextNode s token e.content
  · rw [State.pushAll_nil]
    rfl
  · intro x xd hx
    by_cases hxb : x = b
    · subst hxb
      exact ⟨_, hb'⟩
    · exact ⟨xd, (hframe x hxb).trans hx⟩

/-- The root of the whole tree loses its last entry. -/
theorem run_borderDeleteOf_root (h : LayerOk s none link dead (.border b [e])) (hb : s.node b = some bd)
    (hblock : ∀ v, e.content = .value (.heap v) → ∃ x, s.block v = some x) (hd : ∀ m, dead m → dead' m)
    (he : ∀ m, (e.slot link).2 = .link m → dead' m) (hroot : s.root ti = some b) :
    ∃ s', (∀ fuel > 0, ∀ k > 0, run (borderDeleteOf fuel token ti k b e.key.slice e.key.length e.content.isValue)
        (s.setNode b (bd.mapVersion (.setLocked true))) = some ((), s')) ∧
      Removed link dead' s s' token ti none (.border b [e]) (.border b []) e [] := by
  obtain ⟨nd, hn, hok⟩ := LayerOk.node_at (c := []) h
  obtain rfl : nd = bd := Option.some.inj (hn.symm.trans hb)
  obtain ⟨bd', hhead, hmem, hrun⟩ := @run_borderDeleteOf_head _ _ _ _ _ _ _ _ [] [] _ _ _ h hb hblock hd he
  simp only [Node.head, Node.mapVersion_kind, Node.mapVersion_version, Node.mapVersion_parent, Node.mapVersion_prev,
    Node.mapVersion_next, Prod.mk.injEq] at hhead
  obtain ⟨hk, hv, hp, hpv, hnx⟩ := hhead
  obtain ⟨hprev, hnext⟩ := LayerOk.next_border (c := []) h hb
  have hprev' : bd'.prev = none := hpv.trans hprev
  have hnext' : bd'.next = none := hnx.trans hnext
  have hpar' : bd'.parent = none := hp.trans hok.parent
  have hkind : bd'.kind = .border := hk.trans hok.members.1
  let f : Version → Version := fun v => Version.unlocked (.setDeleted true v)
  let s' := (s.releaseContent token e.content).setNode b (bd'.mapVersion f)
  have hframe : ∀ x, x ≠ b → s'.node x = s.node x := fun x hx =>
    (State.setNode_node_ne hx).trans (congrFun (State.releaseContent_node s token e.content) x)
  have hb' : s'.node b = some (bd'.mapVersion f) := State.setNode_node_same _ _ _
  refine ⟨s', fun fuel hf k hk0 => ?_,
    ⟨⟨?_, h.nodup, ?_, ?_, ?_⟩, ?_, fun hn => absurd rfl hn, List.Perm.refl _, ?_, ?_, ?_, ?_, ?_,
    ?_, .root b, fun n hn => absurd hn List.not_mem_nil⟩⟩
  · obtain ⟨k, rfl⟩ : ∃ j, k = j + 1 := ⟨k - 1, by omega⟩
    rw [hrun, if_pos (by simp), leaveTree, setVersionDeleted, run_atomicUpdate_bind (State.setNode_node_same _ _ _) hf,
      State.setNode_setNode]
    have hload : ∀ (k : Ptr → M Unit) (x : Node), run (op (.loadRoot ti) >>= k)
      ((s.releaseContent token e.content).setNode b x) =
        run (k (some b)) ((s.releaseContent token e.content).setNode b x) := by
      intro k x
      refine run_bind_of ?_ k
      have hr : ((s.releaseContent token e.content).setNode b x).root ti = some b := by
        rw [State.setNode_root, State.releaseContent_root, hroot]
      simp [run, op, Lib.Prog.run, exec, hr]
    have hu :=
      run_unlinkPrev (s := (s.releaseContent token e.content).setNode b (bd'.mapVersion (.setDeleted true))) (b := b)
      (State.setNode_node_same _ _ _) (by exact hkind) (fun q hq => absurd (hq.symm.trans (by exact hprev')) (by simp))
      (fun q hq => absurd (hq.symm.trans (by exact hnext')) (by simp)) fuel hf fuel hf
    rw [hload, run_when_neg (by simp), run_bind_of hu]
    have hun : ((s.releaseContent token e.content).setNode b (bd'.mapVersion (.setDeleted true))).unlink
        (bd'.mapVersion (.setDeleted true)) = (s.releaseContent token e.content).setNode b
          (bd'.mapVersion (.setDeleted true)) := by
      refine State.eq_of_node (fun x => State.unlink_frame ?_ ?_) rfl rfl
      · simp [hprev']
      · simp [hnext']
    rw [hun, run_bind_of (run_lockParent_none (State.setNode_node_same _ _ _) (by exact hpar') hf)]
    simp only
    rw [versionUnlock, run_atomicUpdate (State.setNode_node_same _ _ _) hf, State.setNode_setNode]
    rfl
  · intro p hp'
    simp only [BTree.descs, List.mem_singleton] at hp'
    subst hp'
    refine ⟨_, hb', ⟨⟨hpar', ?_, ?_, ?_⟩, Version.unlocked_stable _⟩⟩
    · simp only [Node.mapVersion_version, f, Version.unlocked_root, hv]
      exact hok.root
    · exact ⟨Nat.zero_le _, fun x hx => absurd hx List.not_mem_nil⟩
    · obtain ⟨m1, m2, -, m4⟩ := hmem
      refine ⟨m1, (Version.unlocked_border _).trans m2, fun hnil => absurd rfl hnil, m4⟩
  · simp [BTree.flat]
  · simp [BTree.borders]
  · refine ⟨⟨_, hb', hprev', hnext'⟩, trivial⟩
  · exact ⟨[], [], by simp [BTree.entries, BTree.borders]⟩
  · intro x fs hx
    simp only [BTree.borders, List.mem_singleton, Prod.mk.injEq] at hx
    obtain ⟨rfl, rfl⟩ := hx
    exact ⟨[e], by simp [BTree.borders], by simp⟩
  · intro x hx _
    exact hframe x fun heq => hx (by simp [BTree.ids, BTree.descs, heq])
  · exact .kept rfl (State.releaseContent_root s token e.content) fun p hp' => absurd hp' (by simp)
  · exact State.releaseContent_nextNode s token e.content
  · rw [State.pushAll_nil]
    rfl
  · intro x xd hx
    by_cases hxb : x = b
    · subst hxb
      exact ⟨_, hb'⟩
    · exact ⟨xd, (hframe x hxb).trans hx⟩

/-- The neighbours of a border in the leaf chain. -/
theorem LayerOk.neighbours {es : List Entry} (h : LayerOk s par link dead (Ctx.plug c (.border b es)))
    (hb : s.node b = some bd) :
    (∀ p, bd.prev = some p → p ∈ Ctx.ids c ∧ p ≠ b ∧ ∃ pd, s.node p = some pd ∧ pd.kind = .border ∧
      pd.version.stable = true ∧
      pd.version.deleted = false) ∧
    ∀ x, bd.next = some x → x ∈ Ctx.ids c ∧ x ≠ b ∧ bd.prev ≠ some x ∧ ∃ xd, s.node x = some xd ∧ xd.kind = .border := by
  obtain ⟨hprev, hnext⟩ := h.next_border hb
  have hnode : ∀ x fs, (x, fs) ∈ Ctx.bordersLeft c ∨ (x, fs) ∈ Ctx.bordersRight c → x ∈ Ctx.ids c ∧ x ≠ b ∧
      ∃ xd, s.node x = some xd ∧ xd.kind = .border ∧ xd.version.stable = true ∧ xd.version.deleted = false := by
    intro x fs hx
    have hxc := Ctx.border_mem_ids hx
    have hxb : (x, fs) ∈ (Ctx.plug c (.border b es)).borders := by
      rw [Ctx.plug_borders, List.mem_append, List.mem_append]
      rcases hx with hx | hx
      · exact Or.inl (Or.inl hx)
      · exact Or.inr hx
    obtain ⟨p, rt, hd⟩ := BTree.border_desc hxb par true
    obtain ⟨xd, hxd, hxok⟩ := h.nodes _ hd
    exact ⟨hxc, fun he => h.ids_nodup.2 (he ▸ hxc), xd, hxd, hxok.members.1, hxok.stable,
      hxok.members.2.2.1 (h.ctx_nonempty hx)⟩
  refine ⟨fun p hp => ?_, fun x hx => ?_⟩
  · rw [hprev] at hp
    obtain ⟨⟨y, fs⟩, hy, rfl⟩ := List.mem_map.mp (List.mem_of_getLast? hp)
    exact hnode y fs (Or.inl hy)
  · rw [hnext] at hx
    obtain ⟨⟨y, fs⟩, hy, rfl⟩ := List.mem_map.mp (List.mem_of_mem_head? hx)
    obtain ⟨h1, h2, xd, h3, h4, -⟩ := hnode y fs (Or.inr hy)
    refine ⟨h1, h2, fun hp => ?_, xd, h3, h4⟩
    rw [hprev] at hp
    have hnd := h.nodup.sublist (BTree.borders_ids_sublist _)
    rw [Ctx.plug_borders] at hnd
    simp only [BTree.borders, List.append_assoc, List.map_append, List.map_cons] at hnd
    exact (List.nodup_append.mp hnd).2.2 _ (List.mem_of_getLast? hp) y
      (List.mem_cons_of_mem _ (by simpa using ⟨fs, hy⟩)) rfl

/-- A border below an interior with one entry left, in its layer. -/
structure LastEntry (link : KeySlice → Ptr) (dead : NodeId → Prop) (s : State) (ti : TreeId) (par : Ptr) (f : Frame)
    (c : Ctx) (b : NodeId) (e : Entry) (bd pd : Node) : Prop where
  layer : LayerOk s par link dead (Ctx.plug (f :: c) (.border b [e]))
  node : s.node b = some bd
  parent : s.node f.id = some pd
  fresh : ∀ x ∈ (Ctx.plug (f :: c) (.border b [e])).ids, x < s.nextNode
  outside : ∀ p, par = some p → p ∉ (Ctx.plug (f :: c) (.border b [e])).ids
  upper : Upper s ti par (Ctx.plug (f :: c) (.border b [e])).id

/-- The memory when the emptied border `b` has left the leaf chain and its parent `p` is locked. -/
def State.outOfChain (s : State) (b : NodeId) (bd : Node) (p : NodeId) (pd : Node) : State :=
  (((s.setNode b bd).unlink bd).setNode b (bd.mapVersion .left)).setNode p (pd.mapVersion (.setLocked true))

namespace LastEntry
variable {f f' : Frame} {y : BTree} {pd bd' : Node} {s₀ s₃ : State} (h : LastEntry link dead s ti par f c b e bd pd)
include h

theorem ids_mem {x : NodeId} (hx : x ∈ Ctx.ids (f :: c)) : x ∈ (Ctx.plug (f :: c) (.border b [e])).ids ∧ x ≠ b :=
  ⟨mem_plug_border_ids.mpr (Or.inl hx), fun he => h.layer.ids_nodup.2 (he ▸ hx)⟩

theorem parent_ne : f.id ≠ b := (h.ids_mem (Ctx.id_mem_ids f c)).2

theorem outer : NodesOk link dead s (Ctx.descs par true (f :: c) b) :=
  fun p hp => h.layer.nodes p (Ctx.mem_plug_descs.mpr (Or.inl hp))

theorem parent_ok : NodeOk link dead pd ⟨Ctx.parent par c, Ctx.isRoot true c, .interior f.pivots (f.kids b)⟩ := by
  obtain ⟨nd, hn, hok⟩ := h.layer.frame_at
  obtain rfl : nd = pd := Option.some.inj (hn.symm.trans h.parent)
  exact hok

/-- The parent is an interior, so it is not in the leaf chain. -/
theorem border_ne_parent {x : NodeId} {xd : Node} (hx : s.node x = some xd) (hk : xd.kind = .border) : x ≠ f.id := by
  rintro rfl
  obtain rfl : xd = pd := Option.some.inj (hx.symm.trans h.parent)
  exact absurd (hk.symm.trans h.parent_ok.members.1) (by decide)

theorem neighbours : (∀ p, bd.prev = some p → p ∈ Ctx.ids (f :: c) ∧ p ≠ f.id ∧ ∃ pd, s.node p = some pd ∧
    pd.kind = .border ∧
      pd.version.stable = true ∧ pd.version.deleted = false) ∧
    ∀ x, bd.next = some x → x ∈ Ctx.ids (f :: c) ∧ x ≠ f.id ∧ bd.prev ≠ some x ∧ ∃ xd, s.node x = some xd ∧
      xd.kind = .border := by
  obtain ⟨hprev, hnext⟩ := h.layer.neighbours h.node
  refine ⟨fun p hp => ?_, fun x hx => ?_⟩
  · obtain ⟨h1, -, qd, h3, h4, h5⟩ := hprev p hp
    exact ⟨h1, h.border_ne_parent h3 h4, qd, h3, h4, h5⟩
  · obtain ⟨h1, -, h3, xd, h4, h5⟩ := hnext x hx
    exact ⟨h1, h.border_ne_parent h4 h5, h3, xd, h4, h5⟩

variable (hs₀ : s₀.node = s.node) (hpv : bd'.prev = bd.prev) (hnx : bd'.next = bd.next)
include hs₀ hpv hnx

/-- The nodes outside the layer. -/
theorem frame_outside {x : NodeId} (hx : x ∉ (Ctx.plug (f :: c) (.border b [e])).ids) :
    (s₀.outOfChain b bd' f.id pd).node x = s.node x := by
  rw [mem_plug_border_ids, not_or] at hx
  have hprev : bd'.prev ≠ some x := fun hp => hx.1 (h.neighbours.1 x (hpv ▸ hp)).1
  have hnext : bd'.next ≠ some x := fun hn => hx.1 (h.neighbours.2 x (hnx ▸ hn)).1
  have hxf : x ≠ f.id := by
    rintro rfl
    exact hx.1 (Ctx.id_mem_ids f c)
  rw [State.outOfChain, State.setNode_node_ne hxf, State.setNode_node_ne hx.2, State.unlink_frame hprev hnext,
    State.setNode_node_ne hx.2, hs₀]

omit h hpv hnx in
/-- The other nodes of the layer. -/
theorem nodesOk {l : List (NodeId × Desc)} (hl : NodesOk link dead s l) (hne : ∀ p ∈ l, p.1 ≠ b ∧ p.1 ≠ f.id) :
    NodesOk link dead (s₀.outOfChain b bd' f.id pd) l := by
  have hset : NodesOk link dead (s₀.setNode b bd') l :=
    hl.frame fun p hp => (State.setNode_node_ne (hne p hp).1).trans (congrFun hs₀ p.1)
  exact hset.unlink.frame fun p hp => (State.setNode_node_ne (hne p hp).2).trans (State.setNode_node_ne (hne p hp).1)

/-- The memory in which the parent drops the border. -/
theorem leavePre (hroot : s₀.root = s.root) :
    LeavePre link dead (s₀.outOfChain b bd' f.id pd) ti par f c b (pd.mapVersion (.setLocked true)) := by
  obtain ⟨hcnd, hbc⟩ := h.layer.ids_nodup
  obtain ⟨hfnd, hcf⟩ := Ctx.frame_ids_nodup hcnd
  have hok := h.parent_ok
  refine ⟨?_, fun x hx => ?_, State.setNode_node_same _ _ _, hok.parent, hok.root, hok.body,
    hok.members.mapVersion rfl rfl, hcnd, hbc,
    ?_, fun p hp hx => h.outside p hp (h.ids_mem hx).1⟩
  · refine nodesOk hs₀ (fun p hp => h.outer p (List.mem_append_right _ hp)) fun p hp => ?_
    have hpc := Ctx.mem_ids_of_desc hp
    exact ⟨(h.ids_mem ((Ctx.ids_cons f c).mem_iff.mpr (List.mem_append_right _ hpc))).2,
      fun he => hcf _ hpc (he ▸ List.mem_cons_self)⟩
  · refine nodesOk hs₀ (fun p hp => h.outer p (List.mem_append_left _ (List.mem_cons_of_mem _ ?_))) fun p hp => ?_
    · rw [List.mem_append, List.mem_flatMap, List.mem_flatMap]
      rcases hx with ⟨k, hk⟩ | ⟨k, hk⟩
      · exact Or.inl ⟨_, hk, hp⟩
      · exact Or.inr ⟨_, hk, hp⟩
    · have hpx : p.1 ∈ f.left.flatMap (fun z => z.1.ids) ++ f.right.flatMap (fun z => z.2.ids) := by
        rw [List.mem_append, List.mem_flatMap, List.mem_flatMap]
        rcases hx with ⟨k, hk⟩ | ⟨k, hk⟩
        · exact Or.inl ⟨_, hk, BTree.mem_ids_of_desc hp⟩
        · exact Or.inr ⟨_, hk, BTree.mem_ids_of_desc hp⟩
      refine ⟨(h.ids_mem ((Ctx.ids_cons f c).mem_iff.mpr (List.mem_append_left _ (List.mem_cons_of_mem _ hpx)))).2,
        fun he => ?_⟩
      exact (List.nodup_cons.mp hfnd).1 (he ▸ hpx)
  · have hupper := h.upper
    rw [Ctx.plug_id] at hupper
    refine ⟨fun hnone => (congrFun hroot ti).trans (hupper.tree hnone), fun p hp => ?_⟩
    obtain ⟨ppd, hppd, hrest⟩ := hupper.border p hp
    exact ⟨ppd, (h.frame_outside hs₀ hpv hnx (h.outside p hp)).trans hppd, hrest⟩

/-- The leaf chain without the border. -/
theorem chain (hlt : (s₀.outOfChain b bd' f.id pd).nextNode = s.nextNode) (hcl : f.Closes f' y)
    (hpost : LeavePost link dead (s₀.outOfChain b bd' f.id pd) s₃ token ti par f f' y c) :
    Chain s₃ none ((Ctx.shrink c f' y).borders.map (·.1)) none := by
  have hch := h.layer.chain
  have hnd := h.layer.nodup.sublist (BTree.borders_ids_sublist _)
  rw [plug_border_borders, List.map_append, List.map_cons] at hch hnd
  rw [Ctx.shrink_borders hcl, List.map_append]
  obtain ⟨hpe, hne⟩ := h.layer.next_border h.node
  refine hch.remove hnd fun x hx xd hxd => ?_
  obtain ⟨hxmem, hxb⟩ := h.ids_mem (Ctx.mem_ids_of_borders hx)
  have hxk : xd.kind = .border := by
    have hxb : x ∈ (Ctx.plug (f :: c) (.border b [e])).borders.map (·.1) := by
      rw [plug_border_borders]
      simp only [List.map_append, List.map_cons, List.mem_append, List.mem_cons] at hx ⊢
      tauto
    obtain ⟨⟨z, fs⟩, hz, rfl⟩ := List.mem_map.mp hxb
    obtain ⟨p, rt, hdz⟩ := BTree.border_desc hz par true
    obtain ⟨zd, hzd, hzok⟩ := h.layer.nodes _ hdz
    obtain rfl : zd = xd := Option.some.inj (hzd.symm.trans hxd)
    exact hzok.members.1
  have hxs : (s₀.setNode b bd').node x = some xd := (State.setNode_node_ne hxb).trans ((congrFun hs₀ x).trans hxd)
  obtain ⟨xd', hxd', hxp, hxn, hxset⟩ := State.unlink_node bd' hxs
  have hx₂ : (s₀.outOfChain b bd' f.id pd).node x = some xd' :=
    (State.setNode_node_ne (h.border_ne_parent hxd hxk)).trans ((State.setNode_node_ne hxb).trans hxd')
  have hxk' : xd'.kind = .border := by rcases hxset with rfl | rfl | rfl | rfl <;> exact hxk
  obtain ⟨xd'', hx₃, -, -, hp₃, hn₃, -⟩ := hpost.borders x xd' hx₂ hxk' (hlt.symm ▸ h.fresh x hxmem)
  refine ⟨xd'', hx₃, ?_, ?_⟩
  · rw [hp₃, hxp, hpv, hnx, hpe, hne]
  · rw [hn₃, hxn, hpv, hnx, hpe, hne]

/-- The layer without the border. -/
theorem shrunk (hlt : (s₀.outOfChain b bd' f.id pd).nextNode = s.nextNode) (hd : ∀ m, dead m → dead' m)
    (hcl : f.Closes f' y) (hpost : LeavePost link dead (s₀.outOfChain b bd' f.id pd) s₃ token ti par f f' y c) :
    LayerOk s₃ par link dead' (Ctx.shrink c f' y) := by
  refine ⟨hpost.nodes.mono hd fun _ _ _ _ => rfl, ?_, ?_, ?_, h.chain hs₀ hpv hnx hlt hcl hpost⟩
  · exact (List.nodup_append.mp ((Ctx.shrink_ids hcl).nodup_iff.mp h.layer.ids_nodup.1)).2.1
  · refine List.Pairwise.sublist (Ctx.shrink_flat hcl) (List.Pairwise.sublist ?_ h.layer.border_sorted)
    exact (List.sublist_append_left _ _).append_right _
  · exact h.layer.rest_nonempty (l := []) (by simp) (Ctx.shrink_borders hcl)

omit h hpv hnx in
theorem stays {x : NodeId} {xd : Node} (hx : s.node x = some xd) : ∃ xd',
    (s₀.outOfChain b bd' f.id pd).node x = some xd' := by
  by_cases hxf : x = f.id
  · subst hxf
    exact ⟨_, State.setNode_node_same _ _ _⟩
  · by_cases hxb : x = b
    · subst hxb
      exact ⟨_, (State.setNode_node_ne hxf).trans (State.setNode_node_same _ _ _)⟩
    · obtain ⟨xd', hxd', -⟩ := State.unlink_node bd' ((State.setNode_node_ne hxb).trans ((congrFun hs₀ x).trans hx))
      exact ⟨xd', (State.setNode_node_ne hxf).trans ((State.setNode_node_ne hxb).trans hxd')⟩

/-- What left the layer is empty. -/
theorem emptied (hcl : f.Closes f' y) (hpost : LeavePost link dead (s₀.outOfChain b bd' f.id pd) s₃ token ti par f f' y c)
    (hk : bd'.kind = .border) (hcnk : getCnk bd'.permutation = 0) : ∀ n ∈ f'.gone ++ [b], ∀ nd, s.node n = some nd →
    nd.kind = .border →
      Emptied s₃ n := by
  intro n hn nd hnd hndk
  rcases List.mem_append.mp hn with hn | hn
  · refine absurd ?_ (h.border_ne_parent hnd hndk)
    rw [Frame.gone] at hn
    split at hn
    · rw [List.mem_singleton.mp hn, hcl.id]
    · exact absurd hn List.not_mem_nil
  · obtain rfl := List.mem_singleton.mp hn
    have hb₂ : (s₀.outOfChain n bd' f.id pd).node n = some (bd'.mapVersion .left) :=
      (State.setNode_node_ne h.parent_ne.symm).trans (State.setNode_node_same _ _ _)
    refine ⟨bd'.mapVersion .left, (hpost.frame n h.layer.ids_nodup.2 fun hp => h.outside n hp ?_).trans hb₂, hk, hcnk⟩
    exact mem_plug_border_ids.mpr (Or.inr rfl)

end LastEntry

theorem Ctx.mem_shrink_borders {f f' : Frame} {y : BTree} (hcl : f.Closes f' y) {x : NodeId} {fs : List Entry}
    (hx : (x, fs) ∈ (Ctx.shrink c f' y).borders) : (x, fs) ∈ Ctx.bordersLeft (f :: c) ∨
    (x, fs) ∈ Ctx.bordersRight (f :: c) := by
  rw [Ctx.shrink_borders hcl] at hx
  exact List.mem_append.mp hx

/-- A border below an interior loses its last entry: it leaves the layer. -/
theorem run_borderDeleteOf_leave {f f' : Frame} {y : BTree} {pd : Node} (h : LastEntry link dead s ti par f c b e bd pd)
    (hblock : ∀ v, e.content = .value (.heap v) → ∃ x, s.block v = some x) (hd : ∀ m, dead m → dead' m)
    (hcl : f.Closes f' y) :
    ∃ s', (∀ fuel > 0, ∀ k > 0, run (borderDeleteOf fuel token ti k b e.key.slice e.key.length e.content.isValue)
        (s.setNode b (bd.mapVersion (.setLocked true))) = some ((), s')) ∧
      Removed link dead' s s' token ti par (Ctx.plug (f :: c) (.border b [e])) (Ctx.shrink c f' y) e (f'.gone ++ [b]) := by
  obtain ⟨nd, hn, hok⟩ := h.layer.node_at
  obtain rfl : nd = bd := Option.some.inj (hn.symm.trans h.node)
  obtain ⟨bd', hhead, hmem, hrun⟩ := @run_borderDeleteOf_head _ _ _ _ _ _ _ _ _ [] _ _ _ h.layer h.node hblock
    (fun _ _ => trivial)
    fun _ _ => trivial
  simp only [Node.head, Node.mapVersion_kind, Node.mapVersion_version, Node.mapVersion_parent, Node.mapVersion_prev,
    Node.mapVersion_next, Prod.mk.injEq] at hhead
  obtain ⟨hk, -, hp, hpv, hnx⟩ := hhead
  obtain ⟨hprev, hnext⟩ := h.neighbours
  have hkind : bd'.kind = .border := hk.trans hok.members.1
  -- The memory after the entry left.
  have hs₀ := State.releaseContent_node s token e.content
  have hother : ∀ x, x ≠ b → ((s.releaseContent token e.content).setNode b bd').node x = s.node x := fun x hx =>
    (State.setNode_node_ne hx).trans (congrFun hs₀ x)
  have hleave :=
    @run_leaveTree_parent _ _ _ token ti _ _ (State.setNode_node_same (s.releaseContent token e.content) b bd') hkind
    (fun q hq => by
      obtain ⟨h1, -, qd, h3, h4⟩ := hprev q (hpv ▸ hq)
      exact ⟨(h.ids_mem h1).2, qd, (hother q (h.ids_mem h1).2).trans h3, h4⟩)
    (fun x hx => by
      obtain ⟨h1, -, h3, xd, h4, h5⟩ := hnext x (hnx ▸ hx)
      exact ⟨(h.ids_mem h1).2, hpv ▸ h3, xd, (hother x (h.ids_mem h1).2).trans h4, h5⟩)
    (hp.trans hok.parent) h.parent_ne (fun hx => (hprev f.id (hpv ▸ hx)).2.1 rfl)
      (fun hx => (hnext f.id (hnx ▸ hx)).2.1 rfl)
    ((hother _ h.parent_ne).trans h.parent) (Version.stable_iff.mp h.parent_ok.stable).2.1
  -- The memory after the border left the chain, and after the parent dropped it.
  have hlt : ((s.releaseContent token e.content).outOfChain b bd' f.id pd).nextNode = s.nextNode :=
    State.releaseContent_nextNode s token e.content
  obtain ⟨s₃, hrun₃, hpost⟩ :=
    run_interiorDeleteOf token (h.leavePre hs₀ hpv hnx (State.releaseContent_root s token e.content)) hcl
  have hshrunk := h.shrunk hs₀ hpv hnx hlt hd hcl hpost
  have hemptied := h.emptied hs₀ hpv hnx hcl hpost hkind hmem.cnk_eq_zero
  refine ⟨s₃.push token b, fun fuel hf k hk0 => ?_,
    ⟨hshrunk.frame (fun _ _ => rfl) (fun _ hm => hm) fun _ _ => rfl, ?_, ?_, ?_, ?_, fun x hx hpx => ?_, ?_,
    hpost.next.trans hlt, ?_, fun x xd hx => ?_, .leave c f f' y b hcl, hemptied⟩⟩
  · obtain ⟨k, rfl⟩ : ∃ j, k = j + 1 := ⟨k - 1, by omega⟩
    have hfd : ((s.releaseContent token e.content).outOfChain b bd' f.id pd).node f.id =
      some (pd.mapVersion (.setLocked true)) :=
      State.setNode_node_same _ _ _
    rw [hrun, if_pos (by simp), hleave _ fuel hf]
    refine (run_bind_of (b := ()) ?_ _).trans rfl
    rw [leaveParent]
    refine (run_getVersionBorder hfd _).trans ?_
    rw [if_neg (by simp [Version.setLocked, h.parent_ok.members.2.1])]
    exact hrun₃ fuel hf
  · refine ⟨(Ctx.bordersLeft (f :: c)).flatMap (·.2), (Ctx.bordersRight (f :: c)).flatMap (·.2), ?_, ?_⟩
    · rw [entries_plug]
      simp
    · rw [BTree.entries, Ctx.shrink_borders hcl, List.flatMap_append]
  · intro _ hnil
    obtain ⟨⟨x, fs⟩, hx⟩ := List.exists_mem_of_ne_nil _ (Ctx.shrink c f' y).borders_ne_nil
    refine h.layer.ctx_nonempty (Ctx.mem_shrink_borders hcl hx) (List.eq_nil_iff_forall_not_mem.mpr fun z hz => ?_)
    have hmem := BTree.mem_entries.mpr ⟨x, fs, hx, hz⟩
    rw [hnil] at hmem
    exact absurd hmem List.not_mem_nil
  · have hbi : (BTree.border b [e]).ids = [b] := by simp [BTree.ids, BTree.descs]
    refine (Ctx.plug_ids_perm (f :: c) (.border b [e])).trans ?_
    rw [hbi]
    refine ((Ctx.shrink_ids hcl).append_right [b]).trans ?_
    rw [List.append_assoc, List.append_assoc]
    exact List.Perm.append_left _ List.perm_append_comm
  · intro x fs hx
    refine ⟨fs, ?_, fun z hz => hz⟩
    rw [Ctx.plug_borders, List.mem_append, List.mem_append]
    rcases Ctx.mem_shrink_borders hcl hx with hx | hx
    · exact Or.inl (Or.inl hx)
    · exact Or.inr hx
  · exact (hpost.frame x (fun hxc => hx (h.ids_mem hxc).1) hpx).trans (h.frame_outside hs₀ hpv hnx hx)
  · rw [Ctx.plug_id]
    exact hpost.above.congr (State.releaseContent_root s token e.content) rfl
      (fun p hp => h.frame_outside hs₀ hpv hnx (h.outside p hp)) fun p _ => rfl
  · have hr := hpost.rest
    have h₂ : ((s.releaseContent token e.content).outOfChain b bd' f.id pd).rest =
      (s.releaseContent token e.content).rest := rfl
    simp only [State.rest, State.pushAll, State.push, Prod.mk.injEq] at hr h₂ ⊢
    obtain ⟨r1, r2, r3, r4, r5, r6⟩ := hr
    obtain ⟨q1, q2, q3, q4, q5, q6⟩ := h₂
    refine ⟨r1.trans q1, r2.trans q2, r3.trans q3, ?_, r5.trans q5, r6.trans q6⟩
    rw [r4, r3, q3, q4]
    simp
  · obtain ⟨xd', hxd'⟩ : ∃ xd', (State.outOfChain _ b bd' f.id pd).node x = some xd' := LastEntry.stays hs₀ hx
    exact hpost.stays x xd' hxd'

/-- The search for the slot that links to a layer. -/
theorem run_searchLink {p : NodeId} {pd : Node} {m : NodeId} (hp : s.node p = some pd) (hk : pd.kind = .border) :
    ∀ {l : List Nat}, (∀ i ∈ l, i < 15) → (∃ i ∈ l, pd.lv i = .link m) →
      ∃ i ∈ l, pd.lv i = .link m ∧ run (searchLink p m l) s = some (some i, s)
  | [], _, h => by
    obtain ⟨i, hi, -⟩ := h
    exact absurd hi List.not_mem_nil
  | j :: l, hb, h => by
    rw [searchLink, run_load_lv hp hk (hb j List.mem_cons_self)]
    by_cases hj : pd.lv j = .link m
    · refine ⟨j, List.mem_cons_self, hj, ?_⟩
      rw [if_pos (getNextLayer_eq_some.mpr hj)]
      rfl
    · have h' : ∃ i ∈ l, pd.lv i = .link m := by
        obtain ⟨i, hi, hl⟩ := h
        rcases List.mem_cons.mp hi with rfl | hi
        · exact absurd hl hj
        · exact ⟨i, hi, hl⟩
      obtain ⟨i, hi, hl, hrun⟩ := run_searchLink hp hk (fun i hi => hb i (List.mem_cons_of_mem _ hi)) h'
      refine ⟨i, List.mem_cons_of_mem _ hi, hl, ?_⟩
      rw [if_neg fun h => hj (getNextLayer_eq_some.mp h), hrun]

/-- The last border of a layer below the first loses its last entry: the entry of the layer leaves the
    border above. -/
theorem run_borderDeleteOf_vanish {p : NodeId} {pd : Node} {ulink : KeySlice → Ptr} {upar : Ptr} {uroot : Bool}
    {ues : List Entry} {ue : Entry} (h : LayerOk s (some p) link dead (.border b [e])) (hb : s.node b = some bd)
    (hblock : ∀ v, e.content = .value (.heap v) → ∃ x, s.block v = some x) (hpb : p ≠ b) (hpd : s.node p = some pd)
    (hpok : NodeOk ulink dead pd ⟨upar, uroot, .border ues⟩) (hue : ue ∈ ues) (hul : (ue.slot ulink).2 = .link b)
    (huniq : ∀ x ∈ ues, (x.slot ulink).2 = .link b → x = ue) :
    ∃ bd', bd'.kind = .border ∧ getCnk bd'.permutation = 0 ∧ ∀ fuel > 0, ∀ k,
      run (borderDeleteOf fuel token ti (k + 1) b e.key.slice e.key.length e.content.isValue)
        (s.setNode b (bd.mapVersion (.setLocked true))) = run (do
          borderDeleteOf fuel token ti k p ue.key.slice ue.key.length false
          op (.pushNode token b))
            (((s.releaseContent token e.content).setNode b bd').setNode p (pd.mapVersion (.setLocked true))) := by
  obtain ⟨nd, hn, hok⟩ := LayerOk.node_at (c := []) h
  obtain rfl : nd = bd := Option.some.inj (hn.symm.trans hb)
  obtain ⟨bd', hhead, hmem0, hrun⟩ := @run_borderDeleteOf_head _ _ _ _ _ _ _ _ [] [] _ _ _ h hb hblock
    (fun _ _ => trivial) fun _ _ => trivial
  simp only [Node.head, Node.mapVersion_kind, Node.mapVersion_version, Node.mapVersion_parent, Node.mapVersion_prev,
    Node.mapVersion_next, Prod.mk.injEq] at hhead
  obtain ⟨hk, hv, hp, hpv, hnx⟩ := hhead
  obtain ⟨hprev, hnext⟩ := LayerOk.next_border (c := []) h hb
  have hprev' : bd'.prev = none := hpv.trans hprev
  have hnext' : bd'.next = none := hnx.trans hnext
  let s1 := (s.releaseContent token e.content).setNode b bd'
  have hpd1 : s1.node p = some pd :=
    (State.setNode_node_ne hpb).trans ((congrFun (State.releaseContent_node s token e.content) p).trans hpd)
  have hleave := @run_leaveTree_parent s1 b _ token ti _ _ (State.setNode_node_same _ _ _)
    (hk.trans hok.members.1) (fun q hq => absurd (hq.symm.trans hprev') (by simp))
      (fun q hq => absurd (hq.symm.trans hnext') (by simp))
    (hp.trans hok.parent) hpb (by simp [hprev']) (by simp [hnext']) hpd1 (Version.stable_iff.mp hpok.stable).2.1
  have hun : s1.unlink bd' = s1 :=
    State.eq_of_node (fun x => State.unlink_frame (by simp [hprev']) (by simp [hnext'])) rfl rfl
  rw [hun] at hleave
  let s2 := (s1.setNode b (bd'.mapVersion .left)).setNode p (pd.mapVersion (.setLocked true))
  have hp2 : s2.node p = some (pd.mapVersion (.setLocked true)) := State.setNode_node_same _ _ _
  obtain ⟨r, hr⟩ := List.mem_iff_getElem?.mp hue
  obtain ⟨j, hj, hj15, hjslot⟩ := slot_of_rank hpok.toNodeFits hr
  obtain ⟨i, hi, hil, hsearch⟩ := run_searchLink hp2 (by exact hpok.members.1)
    (l := slotsOf pd.permutation) hpok.members.2.2.2.2.1
    ⟨j, List.mem_of_getElem? hj, (congrArg Prod.snd hjslot).trans hul⟩
  -- The slot that links to the border is the one of the entry.
  have hkey : pd.key i = ue.key := by
    obtain ⟨r', hr'⟩ := List.mem_iff_getElem?.mp hi
    obtain ⟨x, hx, hxs⟩ := rank_of_slot hpok.toNodeFits hr'
    have hxe : x = ue := huniq x (List.mem_of_getElem? hx) ((congrArg Prod.snd hxs).symm.trans hil)
    rw [hxe] at hxs
    exact congrArg Prod.fst hxs
  have hi15 := hpok.members.2.2.2.2.1 i hi
  refine ⟨bd'.mapVersion .left, hk.trans hok.members.1, hmem0.cnk_eq_zero, fun fuel hf k => ?_⟩
  rw [hrun, if_pos (by simp), hleave _ fuel hf, State.setNode_setNode, leaveParent]
  simp only [Lib.Prog.bind_assoc]
  have hs2 : ((s.releaseContent token e.content).setNode b (bd'.mapVersion .left)).setNode p
    (pd.mapVersion (.setLocked true)) = s2 := by
    simp only [s2, s1, State.setNode_setNode]
  rw [hs2]
  refine (run_getVersionBorder hp2 _).trans ?_
  rw [if_pos (by exact hpok.members.2.1)]
  simp only [Lib.Prog.bind_assoc]
  refine (run_load_permutation hp2 (by exact hpok.members.1) _).trans ?_
  refine (run_bind_of hsearch _).trans ?_
  simp only [Lib.Prog.bind_assoc]
  refine (run_load_keySlice hp2 hi15 _).trans ?_
  refine (run_load_keyLength hp2 hi15 _).trans ?_
  have hsl : pd.keySlice i = ue.key.slice := congrArg KeyTuple.slice hkey
  have hlen : pd.keyLength i = ue.key.length := congrArg KeyTuple.length hkey
  rw [Node.mapVersion_keySlice, Node.mapVersion_keyLength, hsl, hlen]

end
end Yakushima
