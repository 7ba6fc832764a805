import Mathlib.Data.Set.Function
import Yakushima.Theorems.Detach

/-! # What `destroy` releases

A region is what a part of a tree owns: its nodes and the heap blocks of its values, those of the layers
below included. `destroy` of a node, with the deletion of the node that follows it everywhere, releases
the region of the node; the rest of the memory stays as it is. -/

namespace Yakushima
open M Permutation

/-- Nodes and heap blocks. -/
structure Region where
  nodes : Set NodeId
  blocks : Set ValueId

namespace Region

/-- What the members of a list own together. -/
def all {ι : Type} (own : ι → Region) (l : List ι) : Region where
  nodes := {x | ∃ a ∈ l, x ∈ (own a).nodes}
  blocks := {v | ∃ a ∈ l, v ∈ (own a).blocks}

/-- A region with one more node. -/
def addNode (R : Region) (n : NodeId) : Region := ⟨insert n R.nodes, R.blocks⟩

/-- Two regions share nothing. -/
def Apart (R Q : Region) : Prop := (∀ x ∈ R.nodes, x ∉ Q.nodes) ∧ ∀ v ∈ R.blocks, v ∉ Q.blocks

/-- The layers from a path on. -/
def layer (A : Forest) (π : Path) : Region where
  nodes := {x | ∃ ρ t, π <:+ ρ ∧ A ρ = some t ∧ x ∈ t.ids}
  blocks := {v | ∃ ρ e, π <:+ ρ ∧ A.Has ρ e ∧ e.content = .value (.heap v)}

/-- What an entry of the layer at a path owns. -/
def entry (A : Forest) (π : Path) (e : Entry) : Region :=
  match e.content with
  | .value (.heap v) => ⟨∅, {v}⟩
  | .value (.word _) => ⟨∅, ∅⟩
  | .layer => layer A (e.key.slice :: π)

/-- A tree inside the layer at a path, with the layers below. -/
def tree (A : Forest) (π : Path) (u : BTree) : Region where
  nodes := {x | x ∈ u.ids ∨ ∃ e ∈ u.entries, x ∈ (entry A π e).nodes}
  blocks := {v | ∃ e ∈ u.entries, v ∈ (entry A π e).blocks}

theorem mem_entry_nodes {A : Forest} {π : Path} {e : Entry} {x : NodeId} :
    x ∈ (entry A π e).nodes ↔ e.content = .layer ∧ x ∈ (layer A (e.key.slice :: π)).nodes := by
  cases hc : e.content with
  | layer => simp [entry, hc]
  | value p => cases p <;> simp [entry, hc]

theorem mem_entry_blocks {A : Forest} {π : Path} {e : Entry} {v : ValueId} :
    v ∈ (entry A π e).blocks ↔
      e.content = .value (.heap v) ∨ e.content = .layer ∧ v ∈ (layer A (e.key.slice :: π)).blocks := by
  cases hc : e.content with
  | layer => simp [entry, hc]
  | value p => cases p <;> simp [entry, hc, eq_comm]

end Region

namespace State

open Classical in
/-- The memory without a region. -/
noncomputable def free (s : State) (R : Region) : State :=
  { s with
    node := fun x => if x ∈ R.nodes then none else s.node x
    block := fun v => if v ∈ R.blocks then none else s.block v }

/-- Two memories hold the same in a region. -/
def Agrees (s s' : State) (R : Region) : Prop := R.nodes.EqOn s.node s'.node ∧ R.blocks.EqOn s.block s'.block

end State

section
variable {s s' : State} {R Q : Region} {n : NodeId} {nd : Node}

theorem State.free_node_in {x : NodeId} (h : x ∈ R.nodes) : (s.free R).node x = none := if_pos h

theorem State.free_block_in {v : ValueId} (h : v ∈ R.blocks) : (s.free R).block v = none := if_pos h

theorem State.free_node_out {x : NodeId} (h : x ∉ R.nodes) : (s.free R).node x = s.node x := if_neg h

theorem State.free_block_out {v : ValueId} (h : v ∉ R.blocks) : (s.free R).block v = s.block v := if_neg h

theorem State.eq_of_parts (hn : ∀ x, s.node x = s'.node x) (hb : ∀ v, s.block v = s'.block v)
    (hr : { s with node := s'.node, block := s'.block } = s') : s = s' := by
  have hn' : s.node = s'.node := funext hn
  have hb' : s.block = s'.block := funext hb
  rw [← hr, ← hn', ← hb']

theorem State.free_free : (s.free R).free Q = s.free ⟨R.nodes ∪ Q.nodes, R.blocks ∪ Q.blocks⟩ := by
  refine State.eq_of_parts (fun x => ?_) (fun v => ?_) rfl
  · by_cases hQ : x ∈ Q.nodes
    · rw [free_node_in hQ, free_node_in (Or.inr hQ)]
    · rw [free_node_out hQ]
      by_cases hR : x ∈ R.nodes
      · rw [free_node_in hR, free_node_in (Or.inl hR)]
      · rw [free_node_out hR, free_node_out (not_or.mpr ⟨hR, hQ⟩)]
  · by_cases hQ : v ∈ Q.blocks
    · rw [free_block_in hQ, free_block_in (Or.inr hQ)]
    · rw [free_block_out hQ]
      by_cases hR : v ∈ R.blocks
      · rw [free_block_in hR, free_block_in (Or.inl hR)]
      · rw [free_block_out hR, free_block_out (not_or.mpr ⟨hR, hQ⟩)]

theorem State.free_empty : s.free ⟨∅, ∅⟩ = s :=
  State.eq_of_parts (fun _ => if_neg (Set.notMem_empty _)) (fun _ => if_neg (Set.notMem_empty _)) rfl

theorem State.free_setNode (h : n ∉ R.nodes) : (s.free R).setNode n nd = (s.setNode n nd).free R := by
  refine State.eq_of_parts (fun x => ?_) (fun v => rfl) rfl
  by_cases hx : x = n
  · subst hx
    simp [free, h]
  · simp [free, setNode, hx]

theorem State.free_all_cons {ι : Type} {own : ι → Region} {a : ι} {l : List ι} :
    (s.free (own a)).free (Region.all own l) = s.free (Region.all own (a :: l)) := by
  rw [free_free]
  congr 1
  simp only [Region.all, List.mem_cons, exists_eq_or_imp, Region.mk.injEq]
  exact ⟨rfl, rfl⟩

theorem State.Agrees.mono (h : s.Agrees s' R) (hn : Q.nodes ⊆ R.nodes) (hb : Q.blocks ⊆ R.blocks) : s.Agrees s' Q :=
  ⟨h.1.mono hn, h.2.mono hb⟩

/-- Releasing a region leaves the others alone. -/
theorem State.Agrees.free_left (h : s.Agrees s' Q) (ha : R.Apart Q) : (s.free R).Agrees s' Q :=
  ⟨fun _ hx => (State.free_node_out fun hR => ha.1 _ hR hx).trans (h.1 hx),
    fun _ hv => (State.free_block_out fun hR => ha.2 _ hR hv).trans (h.2 hv)⟩

theorem State.Agrees.setNode_left (h : s.Agrees s' Q) (hn : n ∉ Q.nodes) : (s.setNode n nd).Agrees s' Q :=
  ⟨fun _ hx => (State.setNode_node_ne (ne_of_mem_of_not_mem hx hn)).trans (h.1 hx), h.2⟩

/-- A node whose region below is released is deleted. -/
theorem run_deleteNode_free (h : n ∉ R.nodes) :
    run (op (.deleteNode n)) ((s.setNode n nd).free R) = some ((), s.free (R.addNode n)) := by
  have hn : ((s.setNode n nd).free R).node n = some nd := (State.free_node_out h).trans (State.setNode_node_same _ _ _)
  have hx : exec (.deleteNode n) ((s.setNode n nd).free R) = some ((), s.free (R.addNode n)) := by
    simp only [exec, hn, Option.some.injEq, Prod.mk.injEq, true_and]
    refine State.eq_of_parts (fun x => ?_) (fun v => rfl) rfl
    by_cases hx : x = n
    · exact (if_pos hx).trans (State.free_node_in (Or.inl hx)).symm
    · refine (if_neg hx).trans ?_
      by_cases hR : x ∈ R.nodes
      · rw [State.free_node_in hR, State.free_node_in (Or.inr hR)]
      · rw [State.free_node_out hR, State.free_node_out (not_or.mpr ⟨hx, hR⟩), State.setNode_node_ne hx]
  simp only [op, run, Lib.Prog.run, hx]

end

/-! ### The loops of `destroy` -/

/-- A loop over positions of a node, each of which owns a region apart from the others: a round releases the
    region of its position and may write the node, which keeps what the positions still to come read. -/
theorem returns_forEach_free {ι : Type} (own : ι → Region) (reads : Node → Nat → ι → Prop)
    (body : Nat → Nat → M Unit) {n : NodeId} (s₀ : State) : ∀ (l : List (Nat × ι)) {s : State} {nd : Node},
    (∀ p ∈ l, ∀ s nd, s.node n = some nd → reads nd p.1 p.2 → s.Agrees s₀ (own p.2) → ∃ nd',
      (∀ i y, i ≠ p.1 → reads nd i y → reads nd' i y) ∧
        Returns (fun fuel => body fuel p.1) s () ((s.setNode n nd').free (own p.2))) →
    s.node n = some nd → (∀ p ∈ l, reads nd p.1 p.2) → (l.map (·.1)).Nodup →
    l.Pairwise (fun p q => (own p.2).Apart (own q.2)) → (∀ p ∈ l, n ∉ (own p.2).nodes) → (∀ p ∈ l, s.Agrees s₀ (own p.2)) →
    ∃ nd', Returns (fun fuel => forEach (body fuel) (l.map (·.1))) s ()
      ((s.setNode n nd').free (Region.all own (l.map (·.2))))
  | [], s, nd, _, hn, _, _, _, _, _ => by
    refine ⟨nd, 0, fun fuel _ => ?_⟩
    rw [State.setNode_self hn]
    have he : Region.all own (([] : List (Nat × ι)).map (·.2)) = ⟨∅, ∅⟩ := by simp [Region.all]
    rw [he, State.free_empty]
    rfl
  | p :: l, s, nd, hbody, hn, hr, hnd, hap, hout, hag => by
    obtain ⟨nd₁, hkeep, hret⟩ := hbody p List.mem_cons_self s nd hn (hr p List.mem_cons_self) (hag p List.mem_cons_self)
    have hnp := hout p List.mem_cons_self
    rw [List.map_cons, List.nodup_cons] at hnd
    rw [List.pairwise_cons] at hap
    have hn₁ : ((s.setNode n nd₁).free (own p.2)).node n = some nd₁ :=
      (State.free_node_out hnp).trans (State.setNode_node_same _ _ _)
    obtain ⟨nd₂, hret₂⟩ := returns_forEach_free own reads body s₀ l (fun q hq => hbody q (List.mem_cons_of_mem _ hq)) hn₁
      (fun q hq => hkeep q.1 q.2 (fun h => hnd.1 (List.mem_map.mpr ⟨q, hq, h⟩)) (hr q (List.mem_cons_of_mem _ hq)))
        hnd.2 hap.2
      (fun q hq => hout q (List.mem_cons_of_mem _ hq))
      fun q hq => ((hag q (List.mem_cons_of_mem _ hq)).setNode_left (hout q (List.mem_cons_of_mem _ hq))).free_left
        (hap.1 q hq)
    refine ⟨nd₂, ?_⟩
    rw [State.free_setNode hnp, State.setNode_setNode, @State.free_all_cons _ _ own p.2] at hret₂
    exact hret.bind (q := fun _ fuel => forEach (body fuel) (l.map (·.1))) hret₂

/-! ### The regions of a forest -/

section
variable {s s₀ : State} {ti : TreeId} {A : Forest} {dead : NodeId → Prop} {π ρ : Path} {t u w : BTree} {e e' : Entry}

theorem Forest.Ok.suffix_closed (h : A.Ok) {σ : Path} : ∀ {ρ : Path} {u : BTree}, A ρ = some u → σ <:+ ρ → ∃ t, A σ = some t
  | [], u, hu, hs => ⟨u, by rw [List.eq_nil_of_suffix_nil hs]; exact hu⟩
  | sl :: ρ, u, hu, hs => by
    rcases suffix_cons hs with rfl | hs
    · exact ⟨u, hu⟩
    · obtain ⟨t, ht, -⟩ := (h.linked sl ρ).mp ⟨u, hu⟩
      exact h.suffix_closed ht hs

/-- The region of a layer is that of its tree. -/
theorem Holds.layer_eq_tree (H : Holds s ti A dead) (ht : A π = some t) : Region.layer A π = Region.tree A π t := by
  have hlong : ∀ {ρ w}, π <:+ ρ → ρ ≠ π → A ρ = some w → ∃ e ∈ t.entries, e.content = .layer ∧
    (e.key.slice :: π) <:+ ρ := by
    intro ρ w hs hne hw
    obtain ⟨sl, hsl⟩ := exists_cons_suffix hs hne.symm
    obtain ⟨u, hu⟩ := H.ok.suffix_closed hw hsl
    obtain ⟨t', ht', e, he, rfl, hc⟩ := (H.ok.linked sl π).mp ⟨u, hu⟩
    obtain rfl : t' = t := Option.some.inj (ht'.symm.trans ht)
    exact ⟨e, he, hc, hsl⟩
  simp only [Region.layer, Region.tree, Region.mk.injEq]
  refine ⟨Set.ext fun x => ⟨?_, ?_⟩, Set.ext fun v => ⟨?_, ?_⟩⟩
  · rintro ⟨ρ, w, hs, hw, hx⟩
    by_cases hρ : ρ = π
    · subst hρ
      exact Or.inl (Option.some.inj (hw.symm.trans ht) ▸ hx)
    · obtain ⟨e, he, hc, hsl⟩ := hlong hs hρ hw
      refine Or.inr ⟨e, he, ?_⟩
      rw [Region.entry, hc]
      exact ⟨ρ, w, hsl, hw, hx⟩
  · rintro (hx | ⟨e, he, hx⟩)
    · exact ⟨π, t, List.suffix_rfl, ht, hx⟩
    · obtain ⟨ρ, w, hs, hw, hx⟩ := Region.mem_entry_nodes.mp hx |>.2
      exact ⟨ρ, w, (List.suffix_cons _ _).trans hs, hw, hx⟩
  · rintro ⟨ρ, y, hs, ⟨w, hw, hy⟩, hv⟩
    by_cases hρ : ρ = π
    · subst hρ
      obtain rfl : w = t := Option.some.inj (hw.symm.trans ht)
      refine ⟨y, hy, ?_⟩
      rw [Region.entry, hv]
      exact rfl
    · obtain ⟨e, he, hc, hsl⟩ := hlong hs hρ hw
      refine ⟨e, he, ?_⟩
      rw [Region.entry, hc]
      exact ⟨ρ, y, hsl, ⟨w, hw, hy⟩, hv⟩
  · rintro ⟨e, he, hv⟩
    rcases Region.mem_entry_blocks.mp hv with hc | ⟨hc, ρ, y, hs, hy, hv⟩
    · exact ⟨π, e, List.suffix_rfl, ⟨t, ht, he⟩, hc⟩
    · exact ⟨ρ, y, (List.suffix_cons _ _).trans hs, hy, hv⟩

theorem cons_not_suffix {sl : KeySlice} : ¬ (sl :: π) <:+ π := fun h => by
  have := h.length_le
  simp at this

/-- The nodes of a layer are not below one of its entries. -/
theorem Holds.not_mem_entry (H : Holds s ti A dead) (ht : A π = some t) {x : NodeId} (hx : x ∈ t.ids) :
    x ∉ (Region.entry A π e).nodes := by
  intro hxe
  obtain ⟨-, ρ, w, hs, hw, hxw⟩ := Region.mem_entry_nodes.mp hxe
  obtain rfl := H.ok.disjoint ht hw hx hxw
  exact cons_not_suffix hs

theorem Holds.entry_apart (H : Holds s ti A dead) (ht : A π = some t) (he : e ∈ t.entries) (he' : e' ∈ t.entries)
    (hne : e ≠ e') :
    (Region.entry A π e).Apart (Region.entry A π e') := by
  have hslice : e.content = .layer → e'.content = .layer → e.key.slice ≠ e'.key.slice := fun hc hc' hs =>
    hne ((H.layers ht).layer_inj he he' hc hc' hs)
  refine ⟨fun x hx hx' => ?_, fun v hv hv' => ?_⟩
  · obtain ⟨hc, ρ, w, hs, hw, hxw⟩ := Region.mem_entry_nodes.mp hx
    obtain ⟨hc', ρ', w', hs', hw', hxw'⟩ := Region.mem_entry_nodes.mp hx'
    obtain rfl := H.ok.disjoint hw hw' hxw hxw'
    exact hslice hc hc' (suffix_eq_of_cons hs hs')
  · -- A block has one owner, and the owner lies behind one of the two entries only.
    rcases Region.mem_entry_blocks.mp hv with hc | ⟨hc, ρ, y, hs, hy, hyv⟩ <;>
      rcases Region.mem_entry_blocks.mp hv' with hc' | ⟨hc', ρ', y', hs', hy', hyv'⟩
    · exact hne (H.owned ⟨t, ht, he⟩ ⟨t, ht, he'⟩ hc hc').2
    · obtain ⟨rfl, -⟩ := H.owned ⟨t, ht, he⟩ hy' hc hyv'
      exact cons_not_suffix hs'
    · obtain ⟨rfl, -⟩ := H.owned ⟨t, ht, he'⟩ hy hc' hyv
      exact cons_not_suffix hs
    · obtain ⟨rfl, -⟩ := H.owned hy hy' hyv hyv'
      exact hslice hc hc' (suffix_eq_of_cons hs hs')

/-- Two trees side by side in a layer. -/
theorem Holds.tree_apart (H : Holds s ti A dead) (ht : A π = some t) (hu : u.ids ⊆ t.ids) (hw : w.ids ⊆ t.ids)
    (hue : u.entries ⊆ t.entries) (hwe : w.entries ⊆ t.entries) (hids : u.ids.Disjoint w.ids)
    (hes : u.entries.Disjoint w.entries) :
    (Region.tree A π u).Apart (Region.tree A π w) := by
  have hentry : ∀ {e e'}, e ∈ u.entries → e' ∈ w.entries → (Region.entry A π e).Apart (Region.entry A π e') := fun he he' =>
    H.entry_apart ht (hue he) (hwe he') fun h => hes he (h ▸ he')
  refine ⟨?_, ?_⟩
  · rintro x (hx | ⟨e, he, hx⟩) (hx' | ⟨e', he', hx'⟩)
    · exact hids hx hx'
    · exact H.not_mem_entry ht (hu hx) hx'
    · exact H.not_mem_entry ht (hw hx') hx
    · exact (hentry he he').1 _ hx hx'
  · rintro v ⟨e, he, hv⟩ ⟨e', he', hv'⟩
    exact (hentry he he').2 _ hv hv'

end

/-! ### `destroy` -/

/-- One round of the loop over the slots of a border. -/
def destroySlot (k : Nat) (n : NodeId) (index : Nat) : M Unit := do
  let lv ← load n (.lv index)
  match lv with
  | .link child => do
    destroy k child
    op (.deleteNode child)
  | .value (.heap v) => do
    if ← needDelete (.heap v) then op (.deleteBlock v)
  | _ => pure ()
  store n (.lv index) .empty

/-- One round of the loop over the children of an interior. -/
def destroyChild (k : Nat) (n : NodeId) (i : Nat) : M Unit := do
  let child ← deref (← load n (.child i))
  destroy k child
  op (.deleteNode child)

/-- `destroy` of a node and the deletion of the node. -/
def destroyNode (k : Nat) (n : NodeId) : M Unit := do
  destroy k n
  op (.deleteNode n)

theorem destroy_succ (k : Nat) (n : NodeId) : destroy (k + 1) n = (do
    if ← op (.isBorder n) then do
      let body ← load n .permutation
      forEach (destroySlot k n) (Permutation.slotsOf body)
    else do
      let nKeys ← load n .nKeys
      forEach (destroyChild k n) (List.range (nKeys + 1))) := rfl

section
variable {s s₀ : State} {ti : TreeId} {A : Forest} {dead : NodeId → Prop} {π : Path} {t : BTree} {e : Entry}
  {b : NodeId} {nd : Node} {i : Nat}

/-- The round for the slot of an entry releases what the entry owns. -/
theorem returns_destroySlot (H : Holds s₀ ti A dead) (hown : OwnsBlocks s₀ A) (ht : A π = some t) (he : e ∈ t.entries)
    (hbelow : ∀ sl w, A (sl :: π) = some w → ∀ s : State, s.Agrees s₀ (Region.layer A (sl :: π)) →
      Returns (fun k => destroyNode k w.id) s () (s.free (Region.layer A (sl :: π))))
    (hn : s.node b = some nd) (hk : nd.kind = .border) (hi : i < 15) (hlv : nd.lv i = (e.slot (A.link π)).2)
    (hb : b ∈ t.ids) (hag : s.Agrees s₀ (Region.entry A π e)) :
    Returns (fun k => destroySlot k b i) s () ((s.setNode b (nd.set (.lv i) .empty)).free (Region.entry A π e)) := by
  have hout : b ∉ (Region.entry A π e).nodes := H.not_mem_entry ht hb
  have hstore : ∀ s' : State, s'.node b = some nd → run (store b (.lv i) .empty) s' = some
    ((), s'.setNode b (nd.set (.lv i) .empty)) :=
    fun s' hn' => run_store hn' (admits_lv hk hi) _
  have hn' : (s.free (Region.entry A π e)).node b = some nd := (State.free_node_out hout).trans hn
  rw [← State.free_setNode hout]
  cases hc : e.content with
  | layer =>
    obtain ⟨w, hw⟩ := (H.ok.linked e.key.slice π).mpr ⟨t, ht, e, he, rfl, hc⟩
    have hlink : nd.lv i = .link w.id := hlv.trans (slot_link.mpr ⟨hc, by rw [Forest.link, hw]; rfl⟩)
    have hreg : Region.entry A π e = Region.layer A (e.key.slice :: π) := by rw [Region.entry, hc]
    rw [hreg] at hag hn' ⊢
    obtain ⟨N, hN⟩ := hbelow _ w hw s hag
    refine ⟨N, fun fuel hf => ?_⟩
    unfold destroySlot
    rw [run_load_lv hn hk hi, hlink]
    have hrun := run_bind_of (hN fuel hf) fun _ => store b (.lv i) .empty
    simp only [destroyNode, Lib.Prog.bind_assoc] at hrun
    exact hrun.trans (hstore _ hn')
  | value p =>
    have hval : nd.lv i = .value p := by
      rw [hlv, Entry.slot, hc]
    refine ⟨0, fun fuel _ => ?_⟩
    unfold destroySlot
    rw [run_load_lv hn hk hi, hval]
    cases p with
    | word w =>
      have hreg : Region.entry A π e = ⟨∅, ∅⟩ := by rw [Region.entry, hc]
      rw [hreg, State.free_empty]
      exact hstore s hn
    | heap v =>
      have hreg : Region.entry A π e = ⟨∅, {v}⟩ := by rw [Region.entry, hc]
      rw [hreg] at hag hn' ⊢
      obtain ⟨-, blk, hblk⟩ := H.blocks ⟨t, ht, he⟩ hc
      have hdel := hown _ v blk (H.binds_keyAt ⟨t, ht, he⟩ hc) hblk
      have hv : s.block v = some blk := (hag.2 (Set.mem_singleton v)).trans hblk
      have hload : run (needDelete (.heap v)) s = some (true, s) := by
        simp only [needDelete, op, run, Lib.Prog.run, exec, hv, Lib.Prog.step_bind, Lib.Prog.ret_bind,
          Lib.Prog.pure_eq, hdel]
      have hfree : run (op (.deleteBlock v)) s = some ((), s.free ⟨∅, {v}⟩) := by
        simp only [op, run, Lib.Prog.run, exec, hv, Option.some.injEq, Prod.mk.injEq, true_and]
        refine State.eq_of_parts (fun x => ?_) (fun u => ?_) rfl
        · exact (State.free_node_out (Set.notMem_empty x)).symm
        · by_cases hu : u = v
          · exact (if_pos hu).trans (State.free_block_in hu).symm
          · exact (if_neg hu).trans (State.free_block_out hu).symm
      exact (run_bind_of hload _).trans ((run_bind_of hfree _).trans (hstore _ hn'))

theorem Region.tree_border (A : Forest) (π : Path) (b : NodeId) (es : List Entry) :
    Region.tree A π (.border b es) = (Region.all (Region.entry A π) es).addNode b := by
  simp only [tree, all, addNode, BTree.ids, BTree.descs, BTree.entries, BTree.borders, List.map_cons, List.map_nil,
    List.mem_singleton,
    List.flatMap_cons, List.flatMap_nil, List.append_nil]
  rfl

/-- The children of an interior from left to right. -/
def BTree.kids (f : BTree) (r : List (KeyTuple × BTree)) : List BTree := f :: r.map (·.2)

theorem BTree.ids_kids (i : NodeId) (f : BTree) (r : List (KeyTuple × BTree)) :
    (interior i f r).ids = i :: (kids f r).flatMap ids := by
  rw [ids_interior, kids, List.flatMap_cons, List.flatMap_map]

theorem BTree.entries_kids (i : NodeId) (f : BTree) (r : List (KeyTuple × BTree)) :
    (interior i f r).entries = (kids f r).flatMap entries := by
  rw [entries, borders, bordersRest_eq, kids, List.flatMap_cons, List.flatMap_map, List.flatMap_append, List.flatMap_assoc]
  rfl

theorem Region.tree_interior (A : Forest) (π : Path) (i : NodeId) (f : BTree) (r : List (KeyTuple × BTree)) :
    Region.tree A π (.interior i f r) = (Region.all (Region.tree A π) (BTree.kids f r)).addNode i := by
  simp only [tree, all, addNode, BTree.ids_kids, BTree.entries_kids, List.mem_cons, List.mem_flatMap, Region.mk.injEq]
  refine ⟨Set.ext fun x => ?_, Set.ext fun v => ?_⟩
  · constructor
    · rintro ((h | ⟨w, hw, h⟩) | ⟨e, ⟨w, hw, he⟩, h⟩)
      · exact Or.inl h
      · exact Or.inr ⟨w, hw, Or.inl h⟩
      · exact Or.inr ⟨w, hw, Or.inr ⟨e, he, h⟩⟩
    · rintro (h | ⟨w, hw, h | ⟨e, he, h⟩⟩)
      · exact Or.inl (Or.inl h)
      · exact Or.inl (Or.inr ⟨w, hw, h⟩)
      · exact Or.inr ⟨e, ⟨w, hw, he⟩, h⟩
  · constructor
    · rintro ⟨e, ⟨w, hw, he⟩, h⟩
      exact ⟨w, hw, e, he, h⟩
    · rintro ⟨w, hw, e, he, h⟩
      exact ⟨e, ⟨w, hw, he⟩, h⟩

theorem run_isBorder {s : State} {n : NodeId} {nd : Node} {α : Type} (hn : s.node n = some nd) (k : Bool → M α) :
    run (op (.isBorder n) >>= k) s = run (k (nd.kind = .border)) s := by
  simp only [op, run, Lib.Prog.step_bind, Lib.Prog.ret_bind, Lib.Prog.run, exec, hn]

theorem Ctx.ids_subset_plug (c : Ctx) (u : BTree) : u.ids ⊆ (plug c u).ids := fun _ hx => mem_plug_ids.mpr (Or.inr hx)

theorem Ctx.entries_sublist_plug (c : Ctx) (u : BTree) : u.entries.Sublist (plug c u).entries := by
  rw [BTree.entries, BTree.entries, plug_borders, List.flatMap_append, List.flatMap_append]
  exact (List.sublist_append_right _ _).trans (List.sublist_append_left _ _)

theorem LayerOk.entries_nodup {par : Ptr} {link : KeySlice → Ptr} (h : LayerOk s par link dead t) : t.entries.Nodup :=
  List.Nodup.of_map _ h.marks_nodup

/-- `destroy` of a node returns when its loop does. -/
theorem returns_destroy {n : NodeId} {R : Region} (nd' : Node) (hn : s.node n = some nd) (hout : n ∉ R.nodes)
    (h : Returns (fun k => if nd.kind = .border then forEach (destroySlot k n) (slotsOf nd.permutation)
      else forEach (destroyChild k n) (List.range (nd.nKeys + 1))) s () ((s.setNode n nd').free R)) :
    Returns (fun k => destroyNode k n) s () (s.free (R.addNode n)) := by
  have hdes : Returns (fun k => destroy k n) s () ((s.setNode n nd').free R) := by
    refine Returns.succ ?_
    obtain ⟨N, hN⟩ := h
    refine ⟨N, fun k hf => ?_⟩
    have hrun := hN k hf
    simp only [destroy_succ]
    rw [run_isBorder hn]
    cases hk : nd.kind with
    | border =>
      simp only [if_pos hk] at hrun
      exact (run_load_permutation hn hk _).trans hrun
    | interior =>
      simp only [hk, reduceCtorEq, if_false] at hrun
      exact (run_load_nKeys hn hk _).trans hrun
  exact hdes.bind (q := fun _ _ => op (.deleteNode n)) ⟨0, fun _ _ => run_deleteNode_free hout⟩

/-- A border is released with what its entries own. -/
theorem returns_destroyBorder (H : Holds s₀ ti A dead) (hown : OwnsBlocks s₀ A) {c : Ctx} {es : List Entry}
    (ht : A π = some (Ctx.plug c (.border b es)))
    (hbelow : ∀ sl w, A (sl :: π) = some w → ∀ s : State, s.Agrees s₀ (Region.layer A (sl :: π)) →
      Returns (fun k => destroyNode k w.id) s () (s.free (Region.layer A (sl :: π))))
    (hag : s.Agrees s₀ (Region.tree A π (.border b es))) :
    Returns (fun k => destroyNode k b) s () (s.free (Region.tree A π (.border b es))) := by
  have hL := H.layers ht
  have hb : b ∈ (Ctx.plug c (.border b es)).ids := Ctx.ids_subset_plug c _ (BTree.id_mem_ids _)
  have hes : es.Sublist (Ctx.plug c (.border b es)).entries := by
    simpa [BTree.entries, BTree.borders] using Ctx.entries_sublist_plug c (.border b es)
  obtain ⟨nd, hn₀, hok⟩ := hL.node_at
  have hn : s.node b = some nd := (hag.1 (Or.inl (BTree.id_mem_ids _))).trans hn₀
  obtain ⟨hk, -, -, hnd, -, hslots, -⟩ := hok.members
  have hlen : (slotsOf nd.permutation).length = es.length := by
    have := congrArg List.length hslots
    rwa [List.length_map, Node.slots, List.length_map] at this
  have hfst : ((slotsOf nd.permutation).zip es).map (·.1) = slotsOf nd.permutation := List.map_fst_zip hlen.le
  have hsnd : ((slotsOf nd.permutation).zip es).map (·.2) = es := List.map_snd_zip hlen.ge
  have hmem : ∀ {p}, p ∈ (slotsOf nd.permutation).zip es → p.2 ∈ es := fun hp => (List.of_mem_zip hp).2
  rw [Region.tree_border] at hag ⊢
  obtain ⟨nd', hret⟩ :=
    returns_forEach_free (Region.entry A π) (fun x j e => x.kind = .border ∧ j < 15 ∧ x.lv j = (e.slot (A.link π)).2)
    (fun k => destroySlot k b) s₀ ((slotsOf nd.permutation).zip es)
    (fun p hp s nd hn hr hag => ⟨nd.set (.lv p.1) .empty, fun j e hj hr => ⟨hr.1, hr.2.1, (upd_ne hj).trans hr.2.2⟩,
      returns_destroySlot H hown ht (hes.subset (hmem hp)) hbelow hn hr.1 hr.2.1 hr.2.2 hb hag⟩) hn
    (fun p hp => by
      obtain ⟨rank, hr⟩ := List.mem_iff_getElem?.mp hp
      obtain ⟨hj, he⟩ := List.getElem?_zip_eq_some.mp hr
      obtain ⟨j, hj', hj15, hslot⟩ := slot_of_rank hok.toNodeFits he
      obtain rfl : p.1 = j := Option.some.inj (hj.symm.trans hj')
      exact ⟨hk, hj15, congrArg Prod.snd hslot⟩)
    (by rwa [hfst])
    (by
      rw [← List.pairwise_map (f := Prod.snd) (R := fun e e' => (Region.entry A π e).Apart (Region.entry A π e')), hsnd]
      exact (hL.entries_nodup.sublist hes).imp_of_mem fun he he' hne => H.entry_apart ht (hes.subset he)
        (hes.subset he') hne)
    (fun p _ => H.not_mem_entry ht hb)
    fun p hp => hag.mono (fun x hx => Or.inr ⟨p.2, hmem hp, hx⟩) fun v hv => ⟨p.2, hmem hp, hv⟩
  rw [hfst, hsnd] at hret
  refine returns_destroy nd' hn ?_ (by simpa only [if_pos hk] using hret)
  rintro ⟨e, he, hbe⟩
  exact H.not_mem_entry ht hb hbe

/-- An interior is released when its children can be. -/
theorem returns_destroyInterior (H : Holds s₀ ti A dead) {c : Ctx} {n : NodeId} {f : BTree} {r : List (KeyTuple × BTree)}
    (ht : A π = some (Ctx.plug c (.interior n f r)))
    (hkids : ∀ w ∈ BTree.kids f r, ∀ s : State, s.Agrees s₀ (Region.tree A π w) →
      Returns (fun k => destroyNode k w.id) s () (s.free (Region.tree A π w)))
    (hag : s.Agrees s₀ (Region.tree A π (.interior n f r))) :
    Returns (fun k => destroyNode k n) s () (s.free (Region.tree A π (.interior n f r))) := by
  have hL := H.layers ht
  have hids := (Ctx.ids_subset_plug c (.interior n f r))
  have hent := Ctx.entries_sublist_plug c (.interior n f r)
  have hn' : n ∈ (Ctx.plug c (.interior n f r)).ids := hids (BTree.id_mem_ids _)
  obtain ⟨nd, hn₀, hok⟩ := hL.node_at
  have hn : s.node n = some nd := (hag.1 (Or.inl (BTree.id_mem_ids _))).trans hn₀
  obtain ⟨hk, -, -, hpiv, hchild⟩ := hok.members
  have hchild' : nd.kids = (BTree.kids f r).map fun w => some w.id := by
    rw [hchild, BTree.kids]
    simp [Function.comp_def]
  have hlen : (List.range (nd.nKeys + 1)).length = (BTree.kids f r).length := by
    simpa [Node.kids] using congrArg List.length hchild'
  have hn15 : nd.nKeys ≤ 15 := by
    have := hok.body.2.1
    rwa [← hpiv, Node.pivots_length] at this
  have hfst : ((List.range (nd.nKeys + 1)).zip (BTree.kids f r)).map (·.1) = List.range (nd.nKeys + 1) :=
    List.map_fst_zip hlen.le
  have hsnd : ((List.range (nd.nKeys + 1)).zip (BTree.kids f r)).map (·.2) = BTree.kids f r := List.map_snd_zip hlen.ge
  have hmem : ∀ {p}, p ∈ (List.range (nd.nKeys + 1)).zip (BTree.kids f r) → p.2 ∈ BTree.kids f r :=
    fun hp => (List.of_mem_zip hp).2
  have hndi : (n :: (BTree.kids f r).flatMap BTree.ids).Nodup := by
    have := hL.nodup
    rw [(Ctx.plug_ids_perm c _).nodup_iff] at this
    rw [← BTree.ids_kids]
    exact (List.nodup_append.mp this).2.1
  have hnde : ((BTree.kids f r).flatMap BTree.entries).Nodup := by
    rw [← BTree.entries_kids n]
    exact hL.entries_nodup.sublist hent
  rw [BTree.ids_kids] at hids
  rw [BTree.entries_kids] at hent
  have hkid : ∀ {w}, w ∈ BTree.kids f r → w.ids ⊆ (Ctx.plug c (.interior n f r)).ids ∧
    w.entries ⊆ (Ctx.plug c (.interior n f r)).entries :=
    fun hw => ⟨fun x hx => hids (List.mem_cons_of_mem _ (List.mem_flatMap.mpr ⟨_, hw, hx⟩)),
      fun e he => hent.subset (List.mem_flatMap.mpr ⟨_, hw, he⟩)⟩
  have hout : ∀ w ∈ BTree.kids f r, n ∉ (Region.tree A π w).nodes := by
    rintro w hw (hnw | ⟨e, -, hne⟩)
    · exact (List.nodup_cons.mp hndi).1 (List.mem_flatMap.mpr ⟨w, hw, hnw⟩)
    · exact H.not_mem_entry ht hn' hne
  rw [Region.tree_interior] at hag ⊢
  obtain ⟨nd', hret⟩ :=
    returns_forEach_free (Region.tree A π) (fun x j w => x.kind = .interior ∧ j < 16 ∧ x.child j = some w.id)
    (fun k => destroyChild k n) s₀ ((List.range (nd.nKeys + 1)).zip (BTree.kids f r))
    (fun p hp s nd hn hr hag => ⟨nd, fun _ _ _ h => h, by
      rw [State.setNode_self hn]
      obtain ⟨N, hN⟩ := hkids p.2 (hmem hp) s hag
      refine ⟨N, fun k hf => ?_⟩
      unfold destroyChild
      rw [run_load_child hn hr.1 hr.2.1, hr.2.2]
      exact hN k hf⟩) hn
    (fun p hp => by
      obtain ⟨rank, hr⟩ := List.mem_iff_getElem?.mp hp
      obtain ⟨hj, hw⟩ := List.getElem?_zip_eq_some.mp hr
      have hread := congrArg (·[rank]?) hchild'
      simp only [Node.kids, List.getElem?_map, hj, hw, Option.map_some, Option.some.injEq] at hread
      have hj' := List.mem_range.mp (List.mem_of_getElem? hj)
      exact ⟨hk, by omega, hread⟩)
    (by rw [hfst]; exact List.nodup_range)
    (by
      rw [← List.pairwise_map (f := Prod.snd) (R := fun w w' => (Region.tree A π w).Apart (Region.tree A π w')), hsnd]
      refine ((List.nodup_flatMap.mp (List.nodup_cons.mp hndi).2).2.and (List.nodup_flatMap.mp hnde).2).imp_of_mem
        fun hw hw' hdis => ?_
      exact H.tree_apart ht (hkid hw).1 (hkid hw').1 (hkid hw).2 (hkid hw').2 hdis.1 hdis.2)
    (fun p hp => hout p.2 (hmem hp))
    fun p hp => hag.mono (fun x hx => Or.inr ⟨p.2, hmem hp, hx⟩) fun v hv => ⟨p.2, hmem hp, hv⟩
  rw [hfst, hsnd] at hret
  refine returns_destroy nd' hn ?_ (by simpa only [hk, reduceCtorEq, if_false] using hret)
  rintro ⟨w, hw, hnw⟩
  exact hout w hw hnw

/-- A tree inside a layer is released when the layers below can be. -/
theorem returns_destroyTree (H : Holds s₀ ti A dead) (hown : OwnsBlocks s₀ A) (ht : A π = some t)
    (hbelow : ∀ sl w, A (sl :: π) = some w → ∀ s : State, s.Agrees s₀ (Region.layer A (sl :: π)) →
      Returns (fun k => destroyNode k w.id) s () (s.free (Region.layer A (sl :: π)))) :
    ∀ (u : BTree) {c : Ctx}, t = Ctx.plug c u → ∀ s : State, s.Agrees s₀ (Region.tree A π u) →
      Returns (fun k => destroyNode k u.id) s () (s.free (Region.tree A π u)) := by
  intro u
  induction u with
  | border b es =>
    rintro c rfl s hag
    exact returns_destroyBorder H hown ht hbelow hag
  | interior i f r hf hr =>
    rintro c rfl s hag
    refine returns_destroyInterior H ht (fun w hw => ?_) hag
    rcases List.mem_cons.mp hw with rfl | hw
    · obtain ⟨fr, hfr⟩ := Frame.exists_plug i w r (Or.inl rfl)
      exact hf (c := fr :: c) (by rw [hfr]; rfl)
    · obtain ⟨x, hx, rfl⟩ := List.mem_map.mp hw
      obtain ⟨fr, hfr⟩ := Frame.exists_plug i f r (Or.inr ⟨x.1, hx⟩)
      exact hr x hx (c := fr :: c) (by rw [hfr]; rfl)

/-- `destroy` of the root of a layer and its deletion release the layer with those below it. -/
theorem Holds.returns_destroyLayer (H : Holds s₀ ti A dead) (hown : OwnsBlocks s₀ A) :
    ∀ (d : Nat) {π : Path} {t : BTree}, A π = some t →
    (∀ ρ u, A ρ = some u → ρ.length < π.length + d) → ∀ s : State, s.Agrees s₀ (Region.layer A π) →
      Returns (fun k => destroyNode k t.id) s () (s.free (Region.layer A π)) := by
  intro d
  induction d with
  | zero =>
    intro π t ht hd
    exact absurd (hd π t ht) (Nat.lt_irrefl _)
  | succ d ih =>
    intro π t ht hd s hag
    rw [H.layer_eq_tree ht] at hag ⊢
    refine returns_destroyTree H hown ht (fun sl w hw => ih hw fun ρ u hu => ?_) t (c := []) rfl s hag
    have := hd ρ u hu
    rw [List.length_cons]
    omega

/-- What a forest owns. -/
def Forest.owned (A : Forest) : Region where
  nodes := {x | ∃ π t, A π = some t ∧ x ∈ t.ids}
  blocks := {v | ∃ π e, A.Has π e ∧ e.content = .value (.heap v)}

theorem Forest.owned_eq_layer (A : Forest) : A.owned = Region.layer A [] := by
  simp only [owned, Region.layer, Region.mk.injEq]
  refine ⟨Set.ext fun x => ⟨?_, ?_⟩, Set.ext fun v => ⟨?_, ?_⟩⟩
  · rintro ⟨π, t, ht, hx⟩
    exact ⟨π, t, List.nil_suffix, ht, hx⟩
  · rintro ⟨π, t, -, ht, hx⟩
    exact ⟨π, t, ht, hx⟩
  · rintro ⟨π, e, he, hv⟩
    exact ⟨π, e, List.nil_suffix, he, hv⟩
  · rintro ⟨π, e, -, he, hv⟩
    exact ⟨π, e, he, hv⟩

/-- A forest owns the heap blocks that keys are bound to. -/
theorem Holds.mem_owned_blocks (H : Holds s ti A dead) {v : ValueId} : v ∈ A.owned.blocks ↔
    ∃ key, A.Binds key (.heap v) := by
  constructor
  · rintro ⟨π, e, he, hv⟩
    exact ⟨_, H.binds_keyAt he hv⟩
  · rintro ⟨key, hb⟩
    exact ⟨_, _, hb, rfl⟩

theorem Holds.node_owned (H : Holds s ti A dead) {x : NodeId} (hx : x ∈ A.owned.nodes) : s.node x ≠ none := by
  obtain ⟨π, t, ht, hx⟩ := hx
  obtain ⟨d, hd⟩ := BTree.exists_desc_of_mem_ids (A.parent π) true hx
  obtain ⟨nd, hn, -⟩ := (H.layers ht).nodes _ hd
  rw [hn]
  exact Option.some_ne_none nd

/-- `destroy` of the root of a tree and its deletion release the nodes that the root leads to and the heap
    blocks bound in the tree, and nothing else. -/
theorem Holds.returns_destroyRoot (H : Holds s ti A dead) (hown : OwnsBlocks s A) {r : NodeId} (hr : s.root ti = some r) :
    Returns (fun k => destroyNode k r) s () (s.free A.owned) := by
  obtain ⟨t, ht, rfl⟩ := Option.map_eq_some_iff.mp (H.root.symm.trans hr)
  obtain ⟨D, hD⟩ := H.ok.bounded
  rw [A.owned_eq_layer]
  refine H.returns_destroyLayer hown (D + 1) ht (fun ρ u hu => ?_) s ⟨fun _ _ => rfl, fun _ _ => rfl⟩
  have := hD ρ u hu
  simp only [List.length_nil]
  omega

end

/-- The memory `s'` is `s` without the tree `ti`, which binds what `m` binds. -/
structure Destroyed (s s' : State) (ti : TreeId) (m : MapState) : Prop where
  nodes : ∀ x, Reachable s ti x → s.node x ≠ none ∧ s'.node x = none
  otherNodes : ∀ x, ¬ Reachable s ti x → s'.node x = s.node x
  blocks : ∀ k v arg, m.map.lookup k = some ⟨.heap v, arg⟩ → s.block v ≠ none ∧ s'.block v = none
  otherBlocks : ∀ v, (∀ k arg, m.map.lookup k ≠ some ⟨.heap v, arg⟩) → s'.block v = s.block v
  rest : { s with node := s'.node, block := s'.block } = s'

theorem RefinesIn.destroyed {s : State} {ti : TreeId} {A : Forest} {dead : NodeId → Prop} {m : MapState}
    (h : RefinesIn s ti A dead m) :
    Destroyed s (s.free A.owned) ti m where
  nodes := fun x hx => by
    have hown : x ∈ A.owned.nodes := h.holds.reachable_iff.mp hx
    exact ⟨h.holds.node_owned hown, State.free_node_in hown⟩
  otherNodes := fun x hx => State.free_node_out fun hown => hx (h.holds.reachable_iff.mpr hown)
  blocks := fun k v arg hk => by
    have hb : A.Binds k (.heap v) := (h.binds k (.heap v)).mpr ⟨arg, hk⟩
    obtain ⟨-, b, hv⟩ := h.holds.blocks hb rfl
    refine ⟨?_, State.free_block_in (h.holds.mem_owned_blocks.mpr ⟨k, hb⟩)⟩
    rw [hv]
    exact Option.some_ne_none b
  otherBlocks := fun v hno => State.free_block_out fun hv => by
    obtain ⟨k, hb⟩ := h.holds.mem_owned_blocks.mp hv
    obtain ⟨arg, hk⟩ := (h.binds k (.heap v)).mp hb
    exact hno k arg hk
  rest := rfl

end Yakushima
