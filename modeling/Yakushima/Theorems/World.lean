import Mathlib.Logic.Equiv.Basic
import Yakushima.Model.GarbageCollection
import Yakushima.Theorems.Clean
import Yakushima.Theorems.Resources

/-! # Trees side by side

A memory with all its trees, each with the map that it refines. Every allocated node and heap block belongs to one
tree, or it was retired in a session and waits in its garbage containers. A call on one tree leaves the others
alone. -/

namespace Yakushima
open M Permutation

/-- The trees hold the forests `F` and refine the maps `m`; there are `N` sessions. -/
structure World (N : Nat) (s : State) (F : TreeId → Forest) (m : TreeId → MapState) : Prop where
  refines : ∀ ti, ∃ dead, RefinesIn s ti (F ti) dead (m ti)
  nodes : Lib.Ledger (fun x => s.node x ≠ none) (fun ti x => x ∈ (F ti).owned.nodes) (s.nodeContainer.map (·.target))
  blocks : Lib.Ledger (fun v => s.block v ≠ none) (fun ti v => v ∈ (F ti).owned.blocks) (s.valueContainer.map (·.target.1))
  bounded : s.Bounded
  nodeTokens : ∀ g ∈ s.nodeContainer, g.token < N
  valueTokens : ∀ g ∈ s.valueContainer, g.token < N
  /-- The values fit their headers. -/
  representable : ∀ ti, (m ti).Representable
  /-- No error was reported. -/
  log : s.log = []

section
variable {N : Nat} {s s' : State} {ti tj : TreeId} {A A' : Forest} {dead dead' : NodeId → Prop} {m m' : MapState}
  {F : TreeId → Forest} {W : TreeId → MapState} {own : Option Token} {α : Type}

/-- A tree whose nodes and blocks did not change, under another root pointer. -/
theorem RefinesIn.frame (h : RefinesIn s ti A dead m) (hroot : s'.root tj = s.root ti)
    (hnode : ∀ x ∈ A.owned.nodes, s'.node x = s.node x) (hblock : ∀ v ∈ A.owned.blocks, s'.block v = s.block v)
    (hn : s.nextNode ≤ s'.nextNode) (hb : s.nextBlock ≤ s'.nextBlock) :
    RefinesIn s' tj A dead m := by
  have H := h.holds
  refine ⟨⟨H.ok, hroot.trans H.root, fun ht => ?_, fun ht hx => Nat.lt_of_lt_of_le (H.fresh ht hx) hn, H.alive,
    fun x hx => Nat.lt_of_lt_of_le (H.gone x hx) hn, fun {π e v} he hv => ?_, H.owned⟩, h.rooted, h.binds, fun k b hk => ?_⟩
  · exact (H.layers ht).frame (fun x hx => hnode x ⟨_, _, ht, hx⟩) (fun _ h => h) fun _ _ => rfl
  · obtain ⟨hlt, x, hx⟩ := H.blocks he hv
    exact ⟨Nat.lt_of_lt_of_le hlt hb, x, (hblock v ⟨π, e, he, hv⟩).trans hx⟩
  · have hstored := h.stored k b hk
    obtain ⟨p, arg⟩ := b
    cases p with
    | word w => cases arg <;> exact hstored
    | heap v =>
      cases arg with
      | word w' => exact hstored
      | heap bytes align => exact (hblock v (H.mem_owned_blocks.mpr ⟨k, (h.binds k _).mpr ⟨_, hk⟩⟩)).trans hstored

theorem World.node_owned (h : World N s F W) {x : NodeId} (hx : x ∈ (F ti).owned.nodes) : x < s.nextNode ∧
    s.node x ≠ none := by
  obtain ⟨dead, hr⟩ := h.refines ti
  have hne := hr.holds.node_owned hx
  exact ⟨Nat.lt_of_not_le fun hle => hne (h.bounded.1 x hle), hne⟩

theorem World.block_owned (h : World N s F W) {v : ValueId} (hv : v ∈ (F ti).owned.blocks) : v < s.nextBlock ∧
    s.block v ≠ none := by
  obtain ⟨dead, hr⟩ := h.refines ti
  obtain ⟨hlt, b, hb⟩ := hr.holds.block_owned hv
  exact ⟨hlt, by simp [hb]⟩

/-- The tree `ti` takes a step, and the others stay as they are. -/
theorem World.step (h : World N s F W) (hmoved : Moved own s s' ti (F ti) A') (hown : ∀ t, own = some t → t < N)
    (h' : RefinesIn s' ti A' dead' m') (hm : m'.Representable) (hb : s'.Bounded) (hlog : s'.log = s.log) :
    World N s' (Function.update F ti A') (Function.update W ti m') := by
  obtain ⟨pushed, gone, hq, htok, hleft, hshift⟩ := hmoved.nodes
  obtain ⟨pushed', gone', hq', htok', hleft', hshift'⟩ := hmoved.blocks
  refine ⟨fun tj => ?_, ?_, ?_, hb, fun g hg => ?_, fun g hg => ?_, fun tj => ?_, hlog.trans h.log⟩
  · by_cases hj : tj = ti
    · subst hj
      exact ⟨dead', by simpa only [Function.update_self] using h'⟩
    · simp only [Function.update_of_ne hj]
      obtain ⟨dead, hr⟩ := h.refines tj
      refine ⟨dead, hr.frame (hmoved.roots tj hj) (fun x hx => ?_) (fun v hv => ?_) hmoved.nextNode hmoved.nextBlock⟩
      · exact hmoved.nodesOut x (h.node_owned hx).1 fun hx' => hj (h.nodes.single hx hx')
      · exact hmoved.blocksOut v (h.block_owned hv).1 fun hv' => hj (h.blocks.single hv hv')
  · rw [hq, List.map_append]
    refine h.nodes.step (i := ti) (by simpa only [Function.update_self, id] using hshift)
      (fun j hj => by simp only [Function.update_of_ne hj])
      (fun x hx => not_not.mpr (h.bounded.1 x hx.1))
        (hshift.allocated_iff (fun x hx => (h.node_owned hx).2) (fun x hx => h'.holds.node_owned hx)
        hleft (fun x hx hne => by rw [hmoved.nodesOut x hx hne]) (fun x hx => not_not.mpr (h.bounded.1 x hx))
          fun x hx => not_not.mpr (hb.1 x hx))
  · rw [hq', List.map_append]
    refine h.blocks.step (i := ti) (by simpa only [Function.update_self] using hshift')
      (fun j hj => by simp only [Function.update_of_ne hj])
      (fun x hx => not_not.mpr (h.bounded.2 x hx.1))
        (hshift'.allocated_iff (fun x hx => (h.block_owned hx).2) (fun x hx => ?_)
        hleft' (fun x hx hne => by rw [hmoved.blocksOut x hx hne]) (fun x hx => not_not.mpr (h.bounded.2 x hx))
          fun x hx => not_not.mpr (hb.2 x hx))
    obtain ⟨-, b, hbx⟩ := h'.holds.block_owned hx
    simp [hbx]
  · rw [hq] at hg
    exact (List.mem_append.mp hg).elim (h.nodeTokens g) fun hg => hown _ (htok g hg)
  · rw [hq'] at hg
    exact (List.mem_append.mp hg).elim (h.valueTokens g) fun hg => hown _ (htok' g hg)
  · by_cases hj : tj = ti
    · subst hj
      rwa [Function.update_self]
    · rw [Function.update_of_ne hj]
      exact h.representable tj

/-! ### Calls on a tree -/

/-- Without a root there is no binding. -/
theorem RefinesIn.eq_null (h : RefinesIn s ti A dead m) (hroot : s.root ti = none) : (A = fun _ => none) ∧
    m = ⟨false, ∅⟩ := by
  have hA : A [] = none := by
    by_contra hne
    exact h.root_iff.mp hne hroot
  refine ⟨funext fun π => h.holds.empty hA π, ?_⟩
  have hrooted : m.rooted = false := h.rooted.mp hA
  obtain ⟨rooted, map⟩ := m
  obtain rfl : map = ∅ := Finmap.ext_lookup fun k => by
    rw [Finmap.lookup_empty]
    exact h.unrooted hroot k
  exact congrArg (fun r => (⟨r, ∅⟩ : MapState)) hrooted

theorem RefinesIn.moved (h : RefinesIn s ti A dead m) (hm : m.Representable)
    (h' : RefinesIn s' ti A' dead' m') {c : PointCall} (hc : c.Clear) {a : PointAnswer}
    (hret : Returns (fun fuel => c.prog fuel (pure ()) ti) s a s') : Moved c.session s s' ti A A' := by
  have H := h.holds
  cases c with
  | get key =>
    obtain ⟨r, N, hN, -⟩ := run_get H key
    obtain ⟨-, rfl⟩ := hret.det (Returns.map ⟨N, fun fuel hf => hN (pure ()) fuel hf⟩ _)
    exact (Moved.refl H).congr H h'.holds
  | put token args =>
    obtain ⟨r, s₁, N, hN, hr⟩ := run_put H token args hc
    obtain ⟨-, rfl⟩ := hret.det (Returns.map ⟨N, fun fuel hf => hN (pure ()) fuel hf⟩ _)
    exact hr.moved H (h.ownsBlocks hm) h'.holds
  | remove token key =>
    obtain ⟨r, s₁, N, hN, hr⟩ := run_remove H token key
    obtain ⟨-, rfl⟩ := hret.det (Returns.map ⟨N, fun fuel hf => hN (pure ()) fuel hf⟩ _)
    exact hr.moved H h'.holds

/-- A call of `put`, `remove` or `get` on one tree. -/
theorem World.call (h : World N s F W) (ti : TreeId) {c : PointCall} (hc : ∀ t, c.session = some t → t < N)
    (hrep : c.Representable) :
    ∃ a s' m' A', Returns (fun fuel => c.prog fuel (pure ()) ti) s a s' ∧ MapStep ValueArg.len (W ti) c a m' ∧
      World N s' (Function.update F ti A') (Function.update W ti m') ∧ (∀ tj, tj ≠ ti → s'.root tj = s.root tj) := by
  obtain ⟨dead, hr⟩ := h.refines ti
  obtain ⟨a, s', m', A', dead', hret, hstep, h', -, hch⟩ := hr.step hrep.clear
  obtain ⟨hstep', hm'⟩ := hstep.representable (h.representable ti) hrep
  exact ⟨a, s', m', A', hret (pure ()), hstep',
    h.step (hr.moved (h.representable ti) h' hrep.clear (hret (pure ()))) hc h' hm'
    ((hret (pure ())).bounded h.bounded) hch.log, hch.roots⟩

theorem RefinesIn.get_returns (h : RefinesIn s ti A dead m) (hm : m.Representable) (key : Key) :
    ∃ r, Returns (fun fuel => get fuel (pure ()) ti key) s r s ∧
    ((∃ b, m.map.lookup key = some b ∧ r = (.ok, some (b.ptr, b.value.len))) ∨ m.map.lookup key = none ∧
      r = (.warnNotExist, none)) := by
  obtain ⟨r, N, hN, hr⟩ := run_get h.holds key
  refine ⟨r, ⟨N, fun fuel hf => hN _ fuel hf⟩, ?_⟩
  rcases hr with ⟨v, hv, rfl⟩ | ⟨hno, rfl⟩
  · obtain ⟨arg, ha⟩ := (h.binds key v).mp hv
    exact Or.inl ⟨_, ha, by rw [(h.stored key _ ha).lenOf, (hm key _ ha).storedLen]⟩
  · exact Or.inr ⟨h.lookup_none.mpr hno, rfl⟩

theorem MapStep.rooted {len : ValueArg → Nat} {c : PointCall} {a : PointAnswer} (h : MapStep len m c a m')
    (hr : m.rooted = true) : m'.rooted = true := by
  cases h <;> first | exact hr | rfl

theorem World.root_none (h : World N s F W) {ti : TreeId} (hW : W ti = ⟨false, ∅⟩) : s.root ti = none := by
  obtain ⟨dead, hr⟩ := h.refines ti
  by_contra hne
  have := hr.rooted_iff.mp hne
  rw [hW] at this
  cases this

/-- `put` under the unique restriction, on one of the trees. -/
theorem World.putUnique (h : World N s F W) (ti : TreeId) (token : Fin N) (key : Key) {value : ValueArg}
    (hv : value.Representable) : ∃ r s' m' A',
    Returns (fun fuel => put fuel (pure ()) token ti ⟨key, value, true⟩) s r s' ∧ World N s' (Function.update F ti A')
      (Function.update W ti m') ∧
      (∀ tj, tj ≠ ti → s'.root tj = s.root tj) ∧
      (((W ti).map.lookup key = none ∧ ∃ p node, r = ⟨.ok, some (.value p), node⟩ ∧ Binding.Fits ⟨p, value⟩ ∧
          m' = ⟨true, (W ti).map.insert key ⟨p, value⟩⟩) ∨
        ∃ b, (W ti).map.lookup key = some b ∧ r = ⟨.warnUniqueRestriction, none, none⟩ ∧ m' = W ti) := by
  obtain ⟨a, s', m', A', hret, hstep, h', hroots⟩ := h.call ti (c := .put token ⟨key, value, true⟩)
    (fun t ht => Option.some.inj ht ▸ token.isLt) hv
  have hput : ∀ {r}, a = .put r → Returns (fun fuel => put fuel (pure ()) token ti ⟨key, value, true⟩) s r s' := by
    rintro r rfl
    exact Returns.of_map (fun _ _ h => PointAnswer.put.inj h) hret
  cases hstep with
  | put token args p node hu hp => exact ⟨_, s', _, A', hput rfl, h', hroots, Or.inl ⟨hu rfl, p, node, rfl, hp, rfl⟩⟩
  | putUnique token args b hu hb => exact ⟨_, s', _, A', hput rfl, h', hroots, Or.inr ⟨b, hb, rfl, rfl⟩⟩

/-- `remove` of a bound key, on one of the trees. -/
theorem World.remove (h : World N s F W) (ti : TreeId) (token : Fin N) {key : Key} {b : Binding}
    (hb : (W ti).map.lookup key = some b) :
    ∃ s' A', Returns (fun fuel => Yakushima.remove fuel (pure ()) token ti key) s .ok s' ∧
      World N s' (Function.update F ti A') (Function.update W ti ⟨(W ti).rooted, (W ti).map.erase key⟩) := by
  obtain ⟨a, s', m', A', hret, hstep, h', -⟩ := h.call ti (c := .remove token key)
    (fun t ht => Option.some.inj ht ▸ token.isLt) trivial
  cases hstep with
  | removeBound token key b' hb' => exact ⟨s', A', Returns.of_map (fun _ _ h => PointAnswer.remove.inj h) hret, h'⟩
  | removeUnbound token key hn => exact absurd (hn.symm.trans hb) (by simp)

/-! ### Trees that come and go -/

theorem Holds.owned_empty (H : Holds s ti A dead) (hroot : s.root ti = none) : (∀ x, x ∉ A.owned.nodes) ∧
    ∀ v, v ∉ A.owned.blocks := by
  have hA : A [] = none := by
    rw [H.root, Option.map_eq_none_iff] at hroot
    exact hroot
  constructor
  · rintro x ⟨π, t, ht, -⟩
    exact absurd (ht.symm.trans (H.empty hA π)) (by simp)
  · rintro v ⟨π, e, ⟨t, ht, -⟩, -⟩
    exact absurd (ht.symm.trans (H.empty hA π)) (by simp)

/-- The nodes of a new tree: its root border. -/
theorem Holds.created_nodes (H : Holds (s.emptyTree ti) ti A dead) : (∀ x, x ∈ A.owned.nodes ↔ x = s.nextNode) ∧
    ∀ v, v ∉ A.owned.blocks := by
  have hs : Holds (s.emptyTree ti) ti (Forest.single s.nextNode) fun _ => False := holds_emptyTree s ti fun _ h => h.elim
  constructor
  · intro x
    rw [H.owned_nodes_eq hs]
    constructor
    · rintro ⟨π, t, ht, hx⟩
      obtain ⟨-, rfl⟩ := Forest.single_some ht
      simpa [BTree.ids, BTree.descs] using hx
    · rintro rfl
      exact ⟨[], _, rfl, BTree.id_mem_ids _⟩
  · intro v hv
    obtain ⟨π, e, he, -⟩ := (H.owned_blocks_eq hs).mp hv
    exact Holds.single_not_has he

/-- A tree without a root gets an empty root border. -/
theorem World.create (h : World N s F W) (hroot : s.root ti = none) :
    ∃ A', World N (s.emptyTree ti) (Function.update F ti A')
    (Function.update W ti ⟨true, ∅⟩) ∧ (∀ x, x ∈ A'.owned.nodes ↔ x = s.nextNode) ∧ ∀ v, v ∉ A'.owned.blocks := by
  obtain ⟨dead, hr⟩ := h.refines ti
  obtain ⟨A', h'⟩ := (.created s : Start ti _ _).refinesIn
  obtain ⟨hnone, hnone'⟩ := hr.holds.owned_empty hroot
  obtain ⟨hnodes, hblocks⟩ := h'.holds.created_nodes
  have hold : ∀ x, x ≠ s.nextNode → (s.emptyTree ti).node x = s.node x := fun x hx => State.alloc_node_ne hx
  refine ⟨A', h.step ⟨fun tj hj => if_neg hj, fun x hx _ => hold x (Nat.ne_of_lt hx), fun _ _ _ => rfl, Nat.le_succ _,
    Nat.le_refl _, ?_, ?_⟩ (fun t (ht : none = some t) => absurd ht (by simp)) h' .empty ?_ rfl, hnodes, hblocks⟩
  · refine .grown rfl (fun x hx => absurd hx (hnone x)) fun x => ?_
    rw [hnodes]
    constructor
    · rintro rfl
      exact Or.inl ⟨Nat.le_refl _, Nat.lt_succ_self _⟩
    · exact fun hx => hx.elim (fun hx => Nat.le_antisymm (Nat.le_of_lt_succ hx.2) hx.1) fun hx => absurd hx (hnone x)
  · refine .grown rfl (fun v hv => absurd hv (hnone' v)) fun v => ?_
    exact ⟨fun hv => absurd hv (hblocks v), fun hv => hv.elim (fun hv => absurd hv.2 (Nat.not_lt.mpr hv.1))
      fun hv => absurd hv (hnone' v)⟩
  · refine ⟨fun x hx => ?_, h.bounded.2⟩
    have hx' : s.nextNode < x := hx
    exact (hold x (Nat.ne_of_gt hx')).trans (h.bounded.1 x (Nat.le_of_lt hx'))

/-- The memory without the tree `ti`, which has no root any more. -/
noncomputable def State.dropTree (s : State) (ti : TreeId) (A : Forest) : State :=
  { s.free A.owned with root := fun u => if u = ti then none else s.root u }

/-- A tree is released as a whole. -/
theorem World.drop (h : World N s F W) (ti : TreeId) :
    World N (s.dropTree ti (F ti)) (Function.update F ti fun _ => none) (Function.update W ti ⟨false, ∅⟩) := by
  obtain ⟨A', h'⟩ := (.null (if_pos rfl) : Start ti (s.dropTree ti (F ti)) _).refinesIn
  have hA : A' [] = none := by
    have hroot := h'.holds.root
    rw [show (s.dropTree ti (F ti)).root ti = none from if_pos rfl] at hroot
    exact Option.map_eq_none_iff.mp hroot.symm
  obtain rfl : A' = fun _ => none := funext fun π => h'.holds.empty hA π
  have hnone : ∀ x, x ∉ (Forest.owned fun _ => none).nodes := by
    rintro x ⟨π, t, ht, -⟩
    cases ht
  have hnone' : ∀ v, v ∉ (Forest.owned fun _ => none).blocks := by
    rintro v ⟨π, e, ⟨t, ht, -⟩, -⟩
    cases ht
  have hbounded : (s.dropTree ti (F ti)).Bounded := by
    refine ⟨fun x hx => ?_, fun v hv => ?_⟩
    · exact (State.free_node_out fun ho => absurd (h.node_owned ho).1 (Nat.not_lt.mpr hx)).trans (h.bounded.1 x hx)
    · exact (State.free_block_out fun ho => absurd (h.block_owned ho).1 (Nat.not_lt.mpr hv)).trans (h.bounded.2 v hv)
  refine h.step ⟨fun tj hj => if_neg hj, fun x _ hx => State.free_node_out hx, fun v _ hv => State.free_block_out hv,
    Nat.le_refl _, Nat.le_refl _, ?_, ?_⟩ (fun t (ht : none = some t) => absurd ht (by simp)) h' .empty hbounded rfl
  · refine ⟨[], fun x => x ∈ (F ti).owned.nodes, (List.append_nil _).symm, by simp, fun x hx => ?_,
      fun x => ?_, by simp, fun _ hx => hx,
      List.nodup_nil⟩
    · exact iff_of_false (not_not.mpr (State.free_node_in hx)) (not_not.mpr hx)
    · exact iff_of_false (hnone x) fun hx => hx.elim (fun hx => absurd hx.2 (Nat.not_lt.mpr hx.1)) fun hx => hx.2.2 hx.1
  · refine ⟨[], fun v => v ∈ (F ti).owned.blocks, (List.append_nil _).symm, by simp, fun v hv => ?_,
      fun v => ?_, by simp, fun _ hv => hv,
      List.nodup_nil⟩
    · exact iff_of_false (not_not.mpr (State.free_block_in hv)) (not_not.mpr hv)
    · exact iff_of_false (hnone' v) fun hv => hv.elim (fun hv => absurd hv.2 (Nat.not_lt.mpr hv.1)) fun hv => hv.2.2 hv.1

theorem State.dropTree_single {n : NodeId} (hnodes : ∀ x, x ∈ A.owned.nodes ↔ x = n) (hblocks : ∀ v, v ∉ A.owned.blocks) :
    s.dropTree ti A =
      { s with node := fun x => if x = n then none else s.node x, root := fun u => if u = ti then none else s.root u } := by
  refine State.eq_of_parts (fun x => ?_) (fun v => State.free_block_out (hblocks v)) rfl
  by_cases hx : x = n
  · exact (State.free_node_in ((hnodes x).mpr hx)).trans (if_pos hx).symm
  · exact (State.free_node_out fun hm => hx ((hnodes x).mp hm)).trans (if_neg hx).symm

theorem State.swap_roots {n : NodeId} (hi : s.root ti = some n) (hj : s.root tj = none) :
    ({ s with root := fun u => if u = ti then none else if u = tj then some n else s.root u } : State) =
      { s with root := fun u => s.root (Equiv.swap ti tj u) } := by
  congr 1
  funext u
  rw [Equiv.swap_apply_def]
  by_cases h1 : u = ti
  · rw [if_pos h1, if_pos h1, hj]
  · rw [if_neg h1, if_neg h1]
    by_cases h2 : u = tj
    · rw [if_pos h2, if_pos h2, hi]
    · rw [if_neg h2, if_neg h2]

/-- The trees under other positions. -/
theorem World.swap (h : World N s F W) (σ : TreeId ≃ TreeId) :
    World N { s with root := fun ti => s.root (σ ti) } (fun ti => F (σ ti)) fun ti => W (σ ti) where
  refines := fun ti => by
    obtain ⟨dead, hr⟩ := h.refines (σ ti)
    exact ⟨dead, hr.frame rfl (fun _ _ => rfl) (fun _ _ => rfl) (Nat.le_refl _) (Nat.le_refl _)⟩
  nodes := h.nodes.reindex σ
  blocks := h.blocks.reindex σ
  bounded := h.bounded
  nodeTokens := h.nodeTokens
  valueTokens := h.valueTokens
  representable := fun ti => h.representable (σ ti)
  log := h.log

/-! ### Garbage -/

/-- Some retired nodes are released. -/
theorem World.releaseNodes (h : World N s F W) {released : List NodeId} {rest : List (Garbage NodeId)}
    (hperm : (s.nodeContainer.map (·.target)).Perm (released ++ rest.map (·.target))) (htok : ∀ g ∈ rest, g.token < N) :
    World N { s with node := fun x => if x ∈ released then none else s.node x, nodeContainer := rest } F W where
  refines := fun ti => by
    obtain ⟨dead, hr⟩ := h.refines ti
    refine ⟨dead, hr.frame rfl (fun x hx => if_neg fun hrel => ?_) (fun _ _ => rfl) (Nat.le_refl _) (Nat.le_refl _)⟩
    exact h.nodes.apart x (hperm.mem_iff.mpr (List.mem_append_left _ hrel)) ti hx
  nodes := h.nodes.release hperm fun x => by
    by_cases hx : x ∈ released <;> simp [hx]
  blocks := h.blocks
  bounded := ⟨fun x hx => by simp [h.bounded.1 x hx], h.bounded.2⟩
  nodeTokens := htok
  valueTokens := h.valueTokens
  representable := h.representable
  log := h.log

/-- Some retired heap blocks are released. -/
theorem World.releaseValues (h : World N s F W) {released : List ValueId} {rest : List (Garbage ValueTarget)}
    (hperm : (s.valueContainer.map (·.target.1)).Perm (released ++ rest.map (·.target.1)))
    (htok : ∀ g ∈ rest, g.token < N) :
    World N { s with block := fun v => if v ∈ released then none else s.block v, valueContainer := rest } F W where
  refines := fun ti => by
    obtain ⟨dead, hr⟩ := h.refines ti
    refine ⟨dead, hr.frame rfl (fun _ _ => rfl) (fun v hv => if_neg fun hrel => ?_) (Nat.le_refl _) (Nat.le_refl _)⟩
    exact h.blocks.apart v (hperm.mem_iff.mpr (List.mem_append_left _ hrel)) ti hv
  nodes := h.nodes
  blocks := h.blocks.release hperm fun v => by
    by_cases hv : v ∈ released <;> simp [hv]
  bounded := ⟨h.bounded.1, fun v hv => by simp [h.bounded.2 v hv]⟩
  nodeTokens := h.nodeTokens
  valueTokens := htok
  representable := h.representable
  log := h.log

/-- A session begins or ends. -/
theorem World.setBeginEpoch (h : World N s F W) (f : Token → Epoch) : World N { s with beginEpoch := f } F W where
  refines := fun ti => by
    obtain ⟨dead, hr⟩ := h.refines ti
    exact ⟨dead, hr.frame rfl (fun _ _ => rfl) (fun _ _ => rfl) (Nat.le_refl _) (Nat.le_refl _)⟩
  nodes := h.nodes
  blocks := h.blocks
  bounded := h.bounded
  nodeTokens := h.nodeTokens
  valueTokens := h.valueTokens
  representable := h.representable
  log := h.log

end
end Yakushima
