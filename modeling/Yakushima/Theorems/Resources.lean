import Yakushima.Lib.Ledger
import Yakushima.Theorems.Destroy

/-! # What a call does to the nodes and heap blocks

A call on a tree gets new nodes and blocks for the tree, retires some of the old ones into the garbage containers of
its session and releases some at once. Everything else in the memory stays as it is. -/

namespace Yakushima
open M Permutation

/-! ### Identities come from the counters -/

/-- Nothing is allocated under an identity that was not handed out. -/
def State.Bounded (s : State) : Prop := (∀ x, s.nextNode ≤ x → s.node x = none) ∧ ∀ v, s.nextBlock ≤ v → s.block v = none

section
variable {s s' : State} {α β : Type}

theorem State.Bounded.setNode {n : NodeId} {nd nd' : Node} (h : s.Bounded) (hn : s.node n = some nd) :
    (s.setNode n nd').Bounded := by
  refine ⟨fun x hx => ?_, h.2⟩
  have hne : x ≠ n := by
    rintro rfl
    exact absurd (hn.symm.trans (h.1 x hx)) (by simp)
  exact (State.setNode_node_ne hne).trans (h.1 x hx)

theorem exec_bounded {o : Op β} {y : β} (h : exec o s = some (y, s')) (hb : s.Bounded) : s'.Bounded := by
  cases o with
  | newNode kind =>
    simp only [exec, Option.some.injEq, Prod.mk.injEq] at h
    obtain ⟨-, rfl⟩ := h
    refine ⟨fun x hx => ?_, hb.2⟩
    have hx' : s.nextNode < x := hx
    exact (State.setNode_node_ne (Nat.ne_of_gt hx')).trans (hb.1 x (Nat.le_of_lt hx'))
  | newBlock b =>
    simp only [exec, Option.some.injEq, Prod.mk.injEq] at h
    obtain ⟨-, rfl⟩ := h
    refine ⟨hb.1, fun v hv => ?_⟩
    have hv' : s.nextBlock < v := hv
    exact (if_neg (Nat.ne_of_gt hv')).trans (hb.2 v (Nat.le_of_lt hv'))
  | load n f | isBorder n =>
    cases hn : s.node n with
    | none => simp [exec, hn] at h
    | some nd =>
      obtain rfl : s = s' := by
        simp only [exec, hn] at h
        grind
      exact hb
  | store n f x | casVersion n expected desired | fetchAddNKeys n d | shiftLeftKeys n start size
  | shiftRightKeys n start size =>
    cases hn : s.node n with
    | none => simp [exec, hn] at h
    | some nd =>
      obtain ⟨nd', rfl⟩ : ∃ nd', s' = s.setNode n nd' := by
        have hself := State.setNode_self hn
        simp only [exec, hn] at h
        grind
      exact hb.setNode hn
  | deleteNode n =>
    cases hn : s.node n with
    | none => simp [exec, hn] at h
    | some nd =>
      simp only [exec, hn, Option.some.injEq, Prod.mk.injEq] at h
      obtain ⟨-, rfl⟩ := h
      refine ⟨fun x hx => ?_, hb.2⟩
      have := hb.1 x hx
      simp [this]
  | loadBlock v =>
    cases hv : s.block v with
    | none => simp [exec, hv] at h
    | some b =>
      simp only [exec, hv, Option.some.injEq, Prod.mk.injEq] at h
      exact h.2 ▸ hb
  | removeDeleteFlag v | deleteBlock v =>
    cases hv : s.block v with
    | none => simp [exec, hv] at h
    | some b =>
      simp only [exec, hv, Option.some.injEq, Prod.mk.injEq] at h
      obtain ⟨-, rfl⟩ := h
      refine ⟨hb.1, fun u hu => ?_⟩
      have hne : u ≠ v := by
        rintro rfl
        exact absurd (hv.symm.trans (hb.2 u hu)) (by simp)
      exact (if_neg hne).trans (hb.2 u hu)
  | casRoot t expected desired =>
    simp only [exec] at h
    split at h <;> cases h <;> exact hb
  | loadRoot t | storeRoot t p | pushNode token n | pushValue token v size align | logError e =>
    simp only [exec, Option.some.injEq, Prod.mk.injEq] at h
    obtain ⟨-, rfl⟩ := h
    exact hb

theorem run_bounded {p : M α} {a : α} (h : run p s = some (a, s')) (hb : s.Bounded) : s'.Bounded := by
  induction p generalizing s with
  | ret x =>
    cases h
    exact hb
  | step o k ih =>
    simp only [run, Lib.Prog.run] at h
    cases ho : exec o s with
    | none => simp [ho] at h
    | some r =>
      rw [ho] at h
      exact ih r.1 h (exec_bounded ho hb)
  | halt => cases h

theorem Returns.bounded {p : Nat → M α} {a : α} (h : Returns p s a s') (hb : s.Bounded) : s'.Bounded := by
  obtain ⟨N, hN⟩ := h
  exact run_bounded (hN N (Nat.le_refl N)) hb

end
/-! ### What a call on a tree does to the ledgers -/

/-- What a call of the session `own` does to the resources of a tree: what it retires goes to the containers of the
    session, and what is still allocated of the old ones was not released. -/
def Accounts {α : Type} (own : Option Token) (target : α → Nat) (queue queue' : List (Garbage α)) (next next' : Nat)
    (left : Nat → Prop) (mine mine' : Nat → Prop) : Prop := ∃ pushed gone, queue' = queue ++ pushed ∧
    (∀ g ∈ pushed, own = some g.token) ∧
  (∀ x, mine x → (left x ↔ ¬ gone x)) ∧ Lib.Shift (fun x => next ≤ x ∧ x < next') gone
    (pushed.map fun g => target g.target) mine mine'

/-- What became of the nodes of a tree. -/
def NodesMoved (own : Option Token) (s s' : State) (A A' : Forest) : Prop :=
  Accounts own id s.nodeContainer s'.nodeContainer s.nextNode s'.nextNode (fun x => s'.node x ≠ none)
    (· ∈ A.owned.nodes) (· ∈ A'.owned.nodes)

/-- What became of the heap blocks of a tree. -/
def BlocksMoved (own : Option Token) (s s' : State) (A A' : Forest) : Prop :=
  Accounts own Prod.fst s.valueContainer s'.valueContainer s.nextBlock s'.nextBlock (fun v => s'.block v ≠ none)
    (· ∈ A.owned.blocks)
    (· ∈ A'.owned.blocks)

/-- What a call on the tree `ti`, which held the forest `A` and then holds `A'`, does to a memory. -/
structure Moved (own : Option Token) (s s' : State) (ti : TreeId) (A A' : Forest) : Prop where
  roots : ∀ tj, tj ≠ ti → s'.root tj = s.root tj
  nodesOut : ∀ x < s.nextNode, x ∉ A.owned.nodes → s'.node x = s.node x
  blocksOut : ∀ v < s.nextBlock, v ∉ A.owned.blocks → s'.block v = s.block v
  nextNode : s.nextNode ≤ s'.nextNode
  nextBlock : s.nextBlock ≤ s'.nextBlock
  nodes : NodesMoved own s s' A A'
  blocks : BlocksMoved own s s' A A'

section
variable {s s' : State} {ti : TreeId} {A A' B : Forest} {dead dead' : NodeId → Prop} {key : Key} {token : Token}
  {args : PutArgs} {r : PutResult}

/-- Nothing is retired or released. -/
theorem Accounts.grown {α : Type} {own : Option Token} {target : α → Nat} {queue queue' : List (Garbage α)}
    {next next' : Nat} {left mine mine' : Nat → Prop} (hq : queue' = queue) (hleft : ∀ x, mine x → left x)
    (h : ∀ x, mine' x ↔ (next ≤ x ∧ x < next') ∨ mine x) : Accounts own target queue queue' next next' left mine mine' := by
  refine ⟨[], fun _ => False, ?_, by simp, fun x hx => iff_of_true (hleft x hx) fun h => h,
    ⟨fun x => ?_, by simp, by simp, List.nodup_nil⟩⟩
  · rw [hq, List.append_nil]
  · rw [h]
    simp

theorem Accounts.refl {α : Type} {own : Option Token} {target : α → Nat} {queue : List (Garbage α)} {next : Nat}
    {left mine : Nat → Prop} (hleft : ∀ x, mine x → left x) : Accounts own target queue queue next next left mine mine :=
  .grown rfl hleft fun _ => ⟨Or.inr, fun h => h.resolve_left fun h => absurd h.2 (Nat.not_lt.mpr h.1)⟩

/-- Two forests in one memory own the same nodes. -/
theorem Holds.owned_nodes_eq (h : Holds s ti A dead) (h' : Holds s ti B dead') {x : NodeId} : x ∈ A.owned.nodes ↔
    x ∈ B.owned.nodes :=
  h.reachable_iff.symm.trans h'.reachable_iff

/-- The nodes after an insertion are the old ones and all that were allocated for it. -/
theorem Inserted.owned_nodes {π : Path} {t t' : BTree} {b m target : NodeId} {v : ValuePtr}
    (h : Inserted (A.link π) dead s s' ti (A.parent π) t t' b key v m target) (H : Holds s ti A dead) (ht : A π = some t)
    (habs : ∀ e ∈ t.entries, e.key ≠ .ofKey key) {x : NodeId} :
    x ∈ (A.extend π t' key v m).owned.nodes ↔ (s.nextNode ≤ x ∧ x < s'.nextNode) ∨ x ∈ A.owned.nodes := by
  have hm := h.fresh
  constructor
  · rintro ⟨ρ, u, hu, hx⟩
    rcases h.ids_cases ht hu hx with ⟨w, hw, hx⟩ | ⟨-, h1, h2, -⟩ | ⟨i, hi, -, rfl⟩
    · exact Or.inr ⟨ρ, w, hw, hx⟩
    · exact Or.inl ⟨h1, h2⟩
    · exact Or.inl ⟨by lia, by lia⟩
  · rintro (⟨h1, h2⟩ | ⟨ρ, u, hu, hx⟩)
    · rcases h.news x h1 h2 with hx | ⟨h3, h4⟩
      · exact ⟨π, t', Forest.extend_self, hx⟩
      · have hi : x - m < layers key := by lia
        refine ⟨_, _, Forest.extend_new hi, ?_⟩
        rw [newLayer_ids, List.mem_singleton]
        lia
    · by_cases hρ : ρ = π
      · subst hρ
        obtain rfl := Option.some.inj (hu.symm.trans ht)
        exact ⟨ρ, t', Forest.extend_self, h.kept x hx⟩
      · exact ⟨ρ, u, H.extend_of_some ht habs hu hρ, hx⟩

/-- A live slot of a border in the tree holds the block. -/
def Owns (s : State) (ti : TreeId) (v : ValueId) : Prop := ∃ b bd i, Reachable s ti b ∧ s.node b = some bd ∧
    bd.kind = .border ∧
  i ∈ slotsOf bd.permutation ∧ bd.lv i = .value (.heap v)

theorem Holds.owns_iff (H : Holds s ti A dead) {v : ValueId} : Owns s ti v ↔ v ∈ A.owned.blocks := by
  constructor
  · rintro ⟨b, bd, i, hb, hn, hk, hi, hlv⟩
    obtain ⟨π, t, ht, hbt⟩ := H.reachable_iff.mp hb
    obtain ⟨c, w, rfl, rfl⟩ := Ctx.exists_of_id hbt
    obtain ⟨nd, hnd, hok⟩ := (H.layers ht).node_at
    obtain rfl : nd = bd := Option.some.inj (hnd.symm.trans hn)
    cases w with
    | interior i f r => exact absurd (hk.symm.trans hok.members.1) (by simp)
    | border b es =>
      obtain ⟨rank, hr⟩ := List.mem_iff_getElem?.mp hi
      obtain ⟨e, he, hslot⟩ := rank_of_slot hok.toNodeFits hr
      have hs : (e.slot (A.link π)).2 = .value (.heap v) := (congrArg Prod.snd hslot).symm.trans hlv
      refine ⟨π, e,
        ⟨_, ht, BTree.mem_entries.mpr ⟨b, es, by simp [Ctx.plug_borders, BTree.borders], List.mem_of_getElem? he⟩⟩, ?_⟩
      cases hc : e.content with
      | value p => simpa [Entry.slot, hc] using hs
      | layer => cases hl : A.link π e.key.slice <;> simp [Entry.slot, hc, hl] at hs
  · rintro ⟨π, e, ⟨t, ht, he⟩, hc⟩
    obtain ⟨b, es, hb, hmem⟩ := BTree.mem_entries.mp he
    obtain ⟨c, rfl⟩ := Ctx.exists_of_border hb
    obtain ⟨nd, hn, hok⟩ := (H.layers ht).node_at
    obtain ⟨rank, hr⟩ := List.mem_iff_getElem?.mp hmem
    obtain ⟨i, hi, -, hslot⟩ := slot_of_rank hok.toNodeFits hr
    refine ⟨b, nd, i, H.reachable_iff.mpr ⟨π, _, ht, BTree.border_mem_ids hb⟩, hn, hok.members.1,
      List.mem_of_getElem? hi, ?_⟩
    exact (congrArg Prod.snd hslot).trans (by simp [Entry.slot, hc])

theorem Holds.owned_blocks_eq (h : Holds s ti A dead) (h' : Holds s ti B dead') {v : ValueId} : v ∈ A.owned.blocks ↔
    v ∈ B.owned.blocks :=
  h.owns_iff.symm.trans h'.owns_iff

/-- Which of the forests in the memory is taken does not matter. -/
theorem Moved.congr {own : Option Token} (h : Moved own s s' ti A A') (h' : Holds s' ti A' dead)
    (hB : Holds s' ti B dead') :
    Moved own s s' ti A B := by
  have hn : (· ∈ B.owned.nodes) = (· ∈ A'.owned.nodes) := funext fun x => propext (hB.owned_nodes_eq h')
  have hb : (· ∈ B.owned.blocks) = (· ∈ A'.owned.blocks) := funext fun x => propext (hB.owned_blocks_eq h')
  exact ⟨h.roots, h.nodesOut, h.blocksOut, h.nextNode, h.nextBlock, by unfold NodesMoved; rw [hn]; exact h.nodes,
    by unfold BlocksMoved; rw [hb]; exact h.blocks⟩

/-- A block is bound to one key. -/
theorem Holds.binds_key_inj (H : Holds s ti A dead) {k k' : Key} {v : ValueId} (h : A.Binds k (.heap v))
    (h' : A.Binds k' (.heap v)) : k = k' := by
  obtain ⟨hp, he⟩ := H.owned h h' rfl rfl
  rw [Entry.mk.injEq] at he
  exact place_inj hp he.1

theorem Forest.update_owned_nodes {π : Path} {t t' : BTree} (ht : A π = some t)
    (hids : ∀ x, x ∈ t'.ids ↔ x ∈ t.ids) {x : NodeId} :
    x ∈ (Forest.owned (Function.update A π (some t'))).nodes ↔ x ∈ A.owned.nodes := by
  constructor
  · rintro ⟨ρ, u, hu, hx⟩
    by_cases hρ : ρ = π
    · subst hρ
      rw [Function.update_self] at hu
      obtain rfl := Option.some.inj hu
      exact ⟨ρ, t, ht, (hids x).mp hx⟩
    · rw [Function.update_of_ne hρ] at hu
      exact ⟨ρ, u, hu, hx⟩
  · rintro ⟨ρ, u, hu, hx⟩
    by_cases hρ : ρ = π
    · subst hρ
      obtain rfl := Option.some.inj (hu.symm.trans ht)
      exact ⟨ρ, t', Function.update_self .., (hids x).mpr hx⟩
    · exact ⟨ρ, u, (Function.update_of_ne hρ ..).trans hu, hx⟩

/-- The nodes of a tree after a `put`. -/
theorem PutAnswer.owned_nodes (h : PutAnswer s s' token ti A dead args r) (H : Holds s ti A dead)
    (H' : Holds s' ti A' dead') {x : NodeId} :
    x ∈ A'.owned.nodes ↔ (s.nextNode ≤ x ∧ x < s'.nextNode) ∨ x ∈ A.owned.nodes := by
  cases h with
  | root hA hr h =>
    have habs : ∀ e ∈ (BTree.border s.nextNode []).entries,
      e.key ≠ .ofKey args.key := by simp [BTree.entries, BTree.borders]
    have H₁ : Holds ((s.created args.value).emptyTree ti) ti (Forest.single s.nextNode) dead := holds_putRoot H
    have hins := Inserted.holds (A := Forest.single s.nextNode) (π := []) h H₁ rfl habs
      (fun hne => absurd rfl hne) fun w hw =>
      ⟨(H.createdValue args.value hw).1, fun ρ y hy => absurd hy Holds.single_not_has⟩
    have hnext : ((s.created args.value).emptyTree ti).nextNode = s.nextNode + 1 :=
      congrArg (· + 1) (s.created_nextNode args.value)
    have hle := h.fresh
    rw [hnext] at hle
    rw [H'.owned_nodes_eq hins, Inserted.owned_nodes (A := Forest.single s.nextNode) (π := []) h H₁ rfl habs, hnext]
    constructor
    · rintro (hx | ⟨ρ, t, ht, hx⟩)
      · exact Or.inl ⟨by lia, hx.2⟩
      · obtain ⟨-, rfl⟩ := Forest.single_some ht
        obtain rfl : x = s.nextNode := by simpa [BTree.ids, BTree.descs] using hx
        exact Or.inl ⟨Nat.le_refl _, by lia⟩
    · rintro (hx | ⟨ρ, t, ht, -⟩)
      · rcases Nat.eq_or_lt_of_le hx.1 with rfl | hlt
        · exact Or.inr ⟨[], _, rfl, BTree.id_mem_ids _⟩
        · exact Or.inl ⟨hlt, hx.2⟩
      · exact absurd (ht.symm.trans (H.empty hA ρ)) (by simp)
  | insert j t t' c b es bd m target hj ht hl hr h =>
    have habs := hl.absent rfl
    have hpos : layerPath [] args.key j ≠ [] → args.key.drop (8 * j) ≠ [] := by
      intro hne hnil
      have hlen := congrArg List.length hnil
      rw [List.length_drop, List.length_nil] at hlen
      have hj0 : j ≠ 0 := by
        rintro rfl
        exact hne rfl
      simp only [layers] at hj
      omega
    have hins := h.holds (H.created args.value) ht habs hpos fun w hw => H.createdValue args.value hw
    rw [H'.owned_nodes_eq hins, h.owned_nodes (H.created args.value) ht habs, State.created_nextNode]
  | unique v hv hu hr hs =>
    subst hs
    rw [H'.owned_nodes_eq H]
    exact ⟨Or.inr, fun h => h.resolve_left fun h => absurd h.2 (Nat.not_lt.mpr h.1)⟩
  | update v c b lo hi bd i hv hu ht hb hi' hr hs =>
    subst hs
    have hnext :
      (((s.created args.value).retire token args.value.isInline v).setNode b
        (bd.set (.lv i) (.value (s.createdValue args.value)))).nextNode =
        s.nextNode := ((s.created args.value).retire_next token args.value.isInline v).1.trans
          (s.created_nextNode args.value)
    rw [H'.owned_nodes_eq (H.update ht hb hi' rfl args.value args.value.isInline), hnext,
      Forest.update_owned_nodes ht fun x => by simp only [mem_plug_border_ids]]
    exact ⟨Or.inr, fun h => h.resolve_left fun h => absurd h.2 (Nat.not_lt.mpr h.1)⟩

/-! ### Heap blocks -/

theorem State.createdValue_heap_iff (s : State) (arg : ValueArg) {v : ValueId} :
    s.createdValue arg = .heap v ↔ s.nextBlock ≤ v ∧ v < (s.created arg).nextBlock := by
  cases arg with
  | word w => simp [createdValue, created]
  | heap bytes align =>
    simp only [createdValue, created, ValuePtr.heap.injEq]
    constructor
    · rintro rfl
      exact ⟨Nat.le_refl _, Nat.lt_succ_self _⟩
    · exact fun h => Nat.le_antisymm h.1 (Nat.le_of_lt_succ h.2)

/-- The blocks of a tree after a key was bound to `w`. -/
theorem Holds.rebinds_blocks (H : Holds s ti A dead) (H' : Holds s' ti A' dead') {w : ValuePtr}
    (h : A.Rebinds A' key w) {v : ValueId} :
    v ∈ A'.owned.blocks ↔ w = .heap v ∨ v ∈ A.owned.blocks ∧ ¬ A.Binds key (.heap v) := by
  rw [H'.mem_owned_blocks, H.mem_owned_blocks]
  constructor
  · rintro ⟨k, hk⟩
    rcases (h k _).mp hk with ⟨-, hw⟩ | ⟨hne, hk⟩
    · exact Or.inl hw.symm
    · exact Or.inr ⟨⟨k, hk⟩, fun hkey => hne (H.binds_key_inj hk hkey)⟩
  · rintro (rfl | ⟨⟨k, hk⟩, hno⟩)
    · exact ⟨key, (h key _).mpr (Or.inl ⟨rfl, rfl⟩)⟩
    · refine ⟨k, (h k _).mpr (Or.inr ⟨?_, hk⟩)⟩
      rintro rfl
      exact hno hk

/-- The blocks of a tree after a key was unbound. -/
theorem Holds.unbinds_blocks (H : Holds s ti A dead) (H' : Holds s' ti A' dead')
    (h : ∀ k w, A'.Binds k w ↔ k ≠ key ∧ A.Binds k w) {v : ValueId} :
    v ∈ A'.owned.blocks ↔ v ∈ A.owned.blocks ∧ ¬ A.Binds key (.heap v) := by
  rw [H'.mem_owned_blocks, H.mem_owned_blocks]
  constructor
  · rintro ⟨k, hk⟩
    obtain ⟨hne, hk⟩ := (h k _).mp hk
    exact ⟨⟨k, hk⟩, fun hkey => hne (H.binds_key_inj hk hkey)⟩
  · rintro ⟨⟨k, hk⟩, hno⟩
    refine ⟨k, (h k _).mpr ⟨?_, hk⟩⟩
    rintro rfl
    exact hno hk

theorem Holds.block_owned (H : Holds s ti A dead) {v : ValueId} (hv : v ∈ A.owned.blocks) : v < s.nextBlock ∧
    ∃ b, s.block v = some b := by
  obtain ⟨π, e, he, hc⟩ := hv
  obtain ⟨hlt, b, hb⟩ := H.blocks he hc
  exact ⟨hlt, b, hb⟩

/-- A value is bound to a key that no heap block is bound to. -/
theorem blocksMoved_created {own : Option Token} {arg : ValueArg} (H : Holds s ti A dead) (H' : Holds s' ti A' dead')
    (hre : A.Rebinds A' key (s.createdValue arg)) (hno : ∀ v, ¬ A.Binds key (.heap v))
    (hblock : s'.block = (s.created arg).block) (hnext : s'.nextBlock = (s.created arg).nextBlock)
    (hcont : s'.valueContainer = s.valueContainer) : BlocksMoved own s s' A A' := by
  refine .grown hcont (fun v hv => ?_) fun v => ?_
  · obtain ⟨hlt, b, hb⟩ := H.block_owned hv
    rw [hblock, State.created_block hlt, hb]
    simp
  · rw [hnext, ← s.createdValue_heap_iff arg, H.rebinds_blocks H' hre]
    simp [hno]

theorem PutAnswer.blocksMoved (h : PutAnswer s s' token ti A dead args r) (H : Holds s ti A dead)
    (hown : OwnsBlocks s A) (H' : Holds s' ti A' dead') (hre : A.Rebinds A' args.key (s.createdValue args.value))
    (hr : r.status = .ok) :
    BlocksMoved (some token) s s' A A' := by
  cases h with
  | root hA hr h =>
    have hrest := h.rest
    simp only [State.rest, Prod.mk.injEq] at hrest
    refine blocksMoved_created H H' hre (fun v => ?_) hrest.1 hrest.2.1
      (hrest.2.2.2.2.1.trans (s.created_valueContainer args.value))
    rintro ⟨t, ht, -⟩
    exact absurd (ht.symm.trans (H.empty hA _)) (by simp)
  | insert j t t' c b es bd m target hj ht hl hr h =>
    have hrest := h.rest
    simp only [State.rest, Prod.mk.injEq] at hrest
    exact blocksMoved_created H H' hre (fun v => H.not_binds hj ht (hl.absent rfl)) hrest.1 hrest.2.1
      (hrest.2.2.2.2.1.trans (s.created_valueContainer args.value))
  | unique v hv hu hr' hs =>
    rw [hr'] at hr
    cases hr
  | update p c b lo hi bd i hv hu ht hb hi' hr' hs =>
    subst hs
    cases p with
    | word w =>
      exact blocksMoved_created H H' hre (fun v hk => by simpa using H.binds_inj hv hk) rfl rfl
        (s.created_valueContainer args.value)
    | heap v =>
      obtain ⟨hlt, x, hx⟩ := H.blocks hv rfl
      have hd := hown _ v x hv hx
      have hx' : (s.created args.value).block v = some x := (State.created_block hlt).trans hx
      have hmine : v ∈ A.owned.blocks := H.mem_owned_blocks.mpr ⟨_, hv⟩
      have hkey : ∀ u, A.Binds args.key (.heap u) ↔ u = v := fun u =>
        ⟨fun hu => by simpa using H.binds_inj hu hv, fun hu => hu ▸ hv⟩
      have hkept : ∀ u ∈ A.owned.blocks, ∃ y, (s.created args.value).block u = some y := fun u hu => by
        obtain ⟨hlt, y, hy⟩ := H.block_owned hu
        exact ⟨y, (State.created_block hlt).trans hy⟩
      have hmine' : ∀ u, u ∈ A'.owned.blocks ↔
          (s.nextBlock ≤ u ∧ u < (s.created args.value).nextBlock) ∨ u ∈ A.owned.blocks ∧ u ≠ v := fun u => by
        rw [H.rebinds_blocks H' hre, s.createdValue_heap_iff, hkey]
      cases hin : args.value.isInline with
      | true =>
        refine ⟨[], (· = v), ?_, by simp, fun u hu => ?_, ⟨fun u => ?_, by simp, fun u hu => hu ▸ hmine, List.nodup_nil⟩⟩
        · simp only [State.retire, hx', hd, if_true, State.setNode, State.created_valueContainer, List.append_nil]
        · obtain ⟨y, hy⟩ := hkept u hu
          by_cases huv : u = v
          · simp [State.retire, hx', hd, State.setNode, huv]
          · simp [State.retire, hx', hd, State.setNode, huv, hy]
        · simpa [State.retire, hx', hd, State.setNode] using hmine' u
      | false =>
        refine ⟨[⟨token, (s.created args.value).beginEpoch token, v, x.gcSize, x.align⟩], fun _ => False, ?_, by simp,
          fun u hu => ?_,
          ⟨fun u => ?_, fun u hu => ?_, fun u hu => hu.elim, List.nodup_singleton v⟩⟩
        · simp [State.retire, hx', hd, State.setNode, State.created_valueContainer]
        · obtain ⟨y, hy⟩ := hkept u hu
          simp [State.retire, hx', hd, State.setNode, hy]
        · simpa [State.retire, hx', hd, State.setNode] using hmine' u
        · rw [List.mem_singleton.mp hu]
          exact ⟨hmine, fun h => h⟩

theorem State.retire_nodeContainer (s : State) (token : Token) (isInline : Bool) (v : ValuePtr) :
    (s.retire token isInline v).nodeContainer = s.nodeContainer := by
  rcases s.retire_cases token isInline v with h | ⟨w, x, -, -, -, h⟩ <;> rw [h]
  cases isInline <;> rfl

theorem State.created_nodeContainer (s : State) (arg : ValueArg) : (s.created arg).nodeContainer = s.nodeContainer := by
  cases arg <;> rfl

theorem PutAnswer.nodeContainer_eq (h : PutAnswer s s' token ti A dead args r) : s'.nodeContainer = s.nodeContainer := by
  cases h with
  | root hA hr h | insert j t t' c b es bd m target hj ht hl hr h =>
    have hrest := h.rest
    simp only [State.rest, Prod.mk.injEq] at hrest
    exact hrest.2.2.2.1.trans (s.created_nodeContainer args.value)
  | unique v hv hu hr hs => rw [hs]
  | update v c b lo hi bd i hv hu ht hb hi' hr hs =>
    rw [hs]
    exact ((s.created args.value).retire_nodeContainer token args.value.isInline v).trans
      (s.created_nodeContainer args.value)

theorem Moved.refl {own : Option Token} (H : Holds s ti A dead) : Moved own s s ti A A where
  roots := fun _ _ => rfl
  nodesOut := fun _ _ _ => rfl
  blocksOut := fun _ _ _ => rfl
  nextNode := Nat.le_refl _
  nextBlock := Nat.le_refl _
  nodes := .refl fun _ hx => H.node_owned hx
  blocks := .refl fun v hv => by
    obtain ⟨-, b, hb⟩ := H.block_owned hv
    simp [hb]

/-- A call that changes what `Changed` says, with what it does to the ledgers. -/
theorem Changed.moved {own : Option Token} (h : Changed s s' ti A key) (H : Holds s ti A dead)
    (hn : NodesMoved own s s' A A') (hb : BlocksMoved own s s' A A') : Moved own s s' ti A A' where
  roots := h.roots
  nodesOut := fun x hlt hx => h.nodes x hlt fun π t ht hxt => hx ⟨π, t, ht, hxt⟩
  blocksOut := fun v hlt hv => h.blocks v hlt fun hb => hv (H.mem_owned_blocks.mpr ⟨key, hb⟩)
  nextNode := h.nextNode
  nextBlock := h.nextBlock
  nodes := hn
  blocks := hb

theorem PutAnswer.moved (h : PutAnswer s s' token ti A dead args r) (H : Holds s ti A dead) (hown : OwnsBlocks s A)
    (H' : Holds s' ti A' dead') :
    Moved (some token) s s' ti A A' := by
  obtain ⟨B, HB, hst⟩ := h.holds H
  refine Moved.congr ?_ HB H'
  rcases hst with ⟨⟨node, hr⟩, -, hre, -⟩ | ⟨-, -, -, rfl, rfl⟩
  · refine (h.changed H).moved H ?_ (h.blocksMoved H hown HB hre (by rw [hr]))
    exact .grown h.nodeContainer_eq (fun x hx => HB.node_owned ((h.owned_nodes H HB).mpr (Or.inr hx)))
      fun x => h.owned_nodes H HB
  · exact Moved.refl H

/-- A key that was bound to `p` is unbound. -/
theorem blocksMoved_released {p : ValuePtr} {lost : List NodeId} (H : Holds s ti A dead) (H' : Holds s' ti A' dead')
    (hp : A.Binds key p) (hbinds : ∀ k w, A'.Binds k w ↔ k ≠ key ∧ A.Binds k w)
    (hblock : s'.block = ((s.releaseContent token (.value p)).pushAll token lost).block)
    (hnext : s'.nextBlock = ((s.releaseContent token (.value p)).pushAll token lost).nextBlock)
    (hcont : s'.valueContainer = ((s.releaseContent token (.value p)).pushAll token lost).valueContainer) :
    BlocksMoved (some token) s s' A A' := by
  have hnext' : s'.nextBlock = s.nextBlock := hnext.trans (s.releaseContent_nextBlock token (.value p))
  have hmine : ∀ v, v ∈ A'.owned.blocks ↔ v ∈ A.owned.blocks ∧ p ≠ .heap v := fun v => by
    rw [H.unbinds_blocks H' hbinds]
    refine and_congr_right fun _ => not_congr ⟨fun hv => H.binds_inj hp hv, fun hv => hv ▸ hp⟩
  cases p with
  | word w =>
    refine .grown hcont (fun v hv => ?_) fun v => ?_
    · obtain ⟨-, b, hb⟩ := H.block_owned hv
      have : s'.block v = some b := (congrFun hblock v).trans hb
      simp [this]
    · rw [hmine, hnext']
      simp
  | heap w =>
    have hw : w ∈ A.owned.blocks := H.mem_owned_blocks.mpr ⟨key, hp⟩
    obtain ⟨-, x, hx⟩ := H.block_owned hw
    refine ⟨[⟨token, s.beginEpoch token, w, x.gcSize, x.align⟩], fun _ => False, ?_, by simp, fun v hv => ?_,
      ⟨fun v => ?_, fun v hv => ?_, fun v hv => hv.elim, List.nodup_singleton w⟩⟩
    · rw [hcont]
      simp [State.releaseContent, State.release, State.pushAll, hx]
    · obtain ⟨-, b, hb⟩ := H.block_owned hv
      rw [hblock]
      by_cases hvw : v = w
      · simp [State.releaseContent, State.release, State.pushAll, hx, hvw]
      · simp [State.releaseContent, State.release, State.pushAll, hx, hvw, hb]
    · rw [hmine, hnext']
      simp [eq_comm]
    · rw [List.mem_singleton.mp hv]
      exact ⟨hw, fun h => h⟩

theorem RemoveAnswer.moved {st : Status} (h : RemoveAnswer s s' token ti A dead key st) (H : Holds s ti A dead)
    (H' : Holds s' ti A' dead') :
    Moved (some token) s s' ti A A' := by
  obtain ⟨B, dead'', HB, -, -, hbinds, -⟩ := h.holds H
  refine Moved.congr ?_ HB H'
  have hch := h.changed H
  rcases h with ⟨p, σ, x, t, t', lost, hp, -, h⟩ | ⟨hno, -, rfl⟩
  · have hdet := h.detaches H hp (by simp)
    have hrest := h.rest
    simp only [State.rest, Prod.mk.injEq] at hrest
    have hold : ∀ {n}, n ∈ B.owned.nodes → n ∈ A.owned.nodes := by
      intro n hn
      obtain ⟨ρ, u, hu, hn⟩ := ((HB.owned_nodes_eq (h.holds H hp (by simp))).mp hn)
      obtain ⟨w, hw, hids, -⟩ := h.before H hu
      exact ⟨ρ, w, hw, hids n hn⟩
    have htargets : (lost.map fun n => (⟨token, s.beginEpoch token, n⟩ : Garbage NodeId)).map
      (fun g => id g.target) = lost :=
      (List.map_map ..).trans (List.map_id lost)
    refine hch.moved H ⟨_, fun _ => False, hdet.pushed, by simp, fun n hn => ?_, ?_⟩ ?_
    · obtain ⟨nd, hnd⟩ := Option.ne_none_iff_exists'.mp (H.node_owned hn)
      obtain ⟨nd', hnd'⟩ := h.stays n nd hnd
      simp [hnd']
    · rw [htargets]
      refine ⟨fun n => ?_, fun n hn => ⟨H.reachable_iff.mp ((hdet.detached n).mp hn).1, fun h => h⟩, by simp, hdet.once⟩
      have hiff := hdet.detached n
      rw [H.reachable_iff, HB.reachable_iff] at hiff
      constructor
      · exact fun hn => Or.inr ⟨hold hn, fun hl => (hiff.mp hl).2 hn, fun h => h⟩
      · rintro (hn | ⟨hn, hl, -⟩)
        · exact absurd (Nat.lt_of_lt_of_eq hn.2 h.next) (Nat.not_lt.mpr hn.1)
        · by_contra hno
          exact hl (hiff.mpr ⟨hn, hno⟩)
    · exact blocksMoved_released H HB hp hbinds hrest.1 hrest.2.1 hrest.2.2.2.2.1
  · exact Moved.congr (Moved.refl H) H HB

end
end Yakushima
