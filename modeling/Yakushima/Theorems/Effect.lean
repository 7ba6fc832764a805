import Yakushima.Theorems.Put

/-! # What an operation changes

A `put` or `remove` of a key leaves a memory that holds a forest again, with the binding of this key changed.
It does not touch the nodes outside the tree, the other root pointers and the blocks that other keys own. -/

namespace Yakushima
open M Permutation

/-- What an operation on a key of the tree `ti`, which holds the forest `A`, may change. -/
structure Changed (s s' : State) (ti : TreeId) (A : Forest) (key : Key) : Prop where
  nodes : ∀ x < s.nextNode, (∀ π t, A π = some t → x ∉ t.ids) → s'.node x = s.node x
  roots : ∀ tj, tj ≠ ti → s'.root tj = s.root tj
  blocks : ∀ v < s.nextBlock, ¬ A.Binds key (.heap v) → s'.block v = s.block v
  nextNode : s.nextNode ≤ s'.nextNode
  nextBlock : s.nextBlock ≤ s'.nextBlock
  beginEpoch : s'.beginEpoch = s.beginEpoch
  log : s'.log = s.log

section
variable {s s' : State} {ti tj : TreeId} {A B : Forest} {dead : NodeId → Prop} {key : Key} {token : Token}

theorem Changed.refl (s : State) (ti : TreeId) (A : Forest) (key : Key) : Changed s s ti A key :=
  ⟨fun _ _ _ => rfl, fun _ _ => rfl, fun _ _ _ => rfl, Nat.le_refl _, Nat.le_refl _, rfl, rfl⟩

/-- Another tree whose nodes and blocks did not change. -/
theorem Holds.frame (H : Holds s tj B dead) (hroot : s'.root tj = s.root tj)
    (hnode : ∀ π t, B π = some t → ∀ x ∈ t.ids, s'.node x = s.node x)
    (hblock : ∀ π e v, B.Has π e → e.content = .value (.heap v) → s'.block v = s.block v)
    (hn : s.nextNode ≤ s'.nextNode) (hb : s.nextBlock ≤ s'.nextBlock) : Holds s' tj B dead where
  ok := H.ok
  root := hroot.trans H.root
  layers := fun ht => (H.layers ht).frame (hnode _ _ ht) (fun _ h => h) fun _ _ => rfl
  fresh := fun ht hx => Nat.lt_of_lt_of_le (H.fresh ht hx) hn
  alive := H.alive
  gone := fun x hx => Nat.lt_of_lt_of_le (H.gone x hx) hn
  blocks := fun he hv => by
    obtain ⟨hlt, x, hx⟩ := H.blocks he hv
    exact ⟨Nat.lt_of_lt_of_le hlt hb, x, (hblock _ _ _ he hv).trans hx⟩
  owned := H.owned

/-- The nodes that an insertion leaves alone. -/
theorem Inserted.nodes_eq {π : Path} {t t' : BTree} {b m target : NodeId} {k : Key} {v : ValuePtr}
    (h : Inserted (A.link π) dead s s' ti (A.parent π) t t' b k v m target) (H : Holds s ti A dead)
    (ht : A π = some t) {x : NodeId} (hlt : x < s.nextNode) (hx : ∀ π t, A π = some t → x ∉ t.ids) :
    s'.node x = s.node x := by
  refine h.frame x (hx π t ht) hlt (fun hp => ?_) ?_
  · obtain ⟨sl, ρ, u, es, -, hu, hb⟩ := H.parent_mem ht hp
    exact hx ρ u hu (BTree.border_mem_ids hb)
  · rintro ⟨e, he, hl⟩
    obtain ⟨hc, hlk⟩ := slot_link.mp hl
    obtain ⟨w, hw, rfl⟩ := Option.map_eq_some_iff.mp hlk
    exact hx _ w hw w.id_mem_ids

theorem Above.root_ne {bump : Version → Version} {par : Ptr} {old new : NodeId} (h : Above bump s s' ti par old new)
    (hne : tj ≠ ti) :
    s'.root tj = s.root tj := by
  rcases h with ⟨-, hr, -⟩ | ⟨-, hr⟩ | ⟨-, -, -, -, hr, -⟩
  · rw [hr]
  · rw [hr]
    exact if_neg hne
  · rw [hr]

/-- The bindings after a `put` that answered OK. -/
def Forest.Rebinds (A A' : Forest) (key : Key) (v : ValuePtr) : Prop :=
  ∀ k w, A'.Binds k w ↔ k = key ∧ w = v ∨ k ≠ key ∧ A.Binds k w

theorem State.created_logs (s : State) (arg : ValueArg) : (s.created arg).beginEpoch = s.beginEpoch ∧
    (s.created arg).log = s.log := by
  cases arg <;> exact ⟨rfl, rfl⟩

theorem State.retire_logs (s : State) (token : Token) (isInline : Bool) (v : ValuePtr) :
    (s.retire token isInline v).beginEpoch = s.beginEpoch ∧ (s.retire token isInline v).log = s.log := by
  rcases s.retire_cases token isInline v with h | ⟨w, x, -, -, -, h⟩ <;> rw [h]
  · exact ⟨rfl, rfl⟩
  · cases isInline <;> exact ⟨rfl, rfl⟩

variable {args : PutArgs} {r : PutResult}

/-- The tree that the null root branch of `put` starts from. -/
theorem holds_putRoot (H : Holds s ti A dead) : Holds ((s.created args.value).emptyTree ti) ti
    (Forest.single s.nextNode) dead := by
  have h := holds_emptyTree (s.created args.value) ti fun x hx => by
    rw [State.created_nextNode]
    exact H.gone x hx
  rwa [State.created_nextNode] at h

theorem PutAnswer.changed (h : PutAnswer s s' token ti A dead args r) (H : Holds s ti A dead) :
    Changed s s' ti A args.key := by
  obtain ⟨hepoch, hlog⟩ := s.created_logs args.value
  cases h with
  | root hA hr h =>
    have hrest := h.rest
    simp only [State.rest, Prod.mk.injEq] at hrest
    obtain ⟨h1, h2, h3, -, -, h6⟩ := hrest
    have hnext : ((s.created args.value).emptyTree ti).nextNode = s.nextNode + 1 := by
      rw [← s.created_nextNode args.value]
      rfl
    have hfresh := h.fresh
    rw [hnext] at hfresh
    refine ⟨fun x hlt hx => ?_, fun tj hne => ?_, fun v hv _ => ?_, by lia, ?_, h3.trans hepoch, h6.trans hlog⟩
    · have hne : x ≠ s.nextNode := Nat.ne_of_lt hlt
      have := Inserted.nodes_eq (A := Forest.single s.nextNode) (π := []) h (holds_putRoot H) rfl (x := x) (by lia)
        fun π t ht hxt => by
        obtain ⟨-, rfl⟩ := Forest.single_some ht
        exact hne (by simpa [BTree.ids, BTree.descs] using hxt)
      rw [this]
      have halloc : ((s.created args.value).emptyTree ti).node x = (s.created args.value).node x :=
        State.alloc_node_ne (by rw [State.created_nextNode]; exact hne)
      rw [halloc, State.created_node]
    · rw [h.above.root_ne hne]
      have : ((s.created args.value).emptyTree ti).root tj = (s.created args.value).root tj := if_neg hne
      rw [this, State.created_root]
    · rw [h1]
      exact State.created_block hv
    · rw [h2]
      exact s.created_nextBlock_le args.value
  | insert j t t' c b es bd m target hj ht hl hr h =>
    have hrest := h.rest
    simp only [State.rest, Prod.mk.injEq] at hrest
    obtain ⟨h1, h2, h3, -, -, h6⟩ := hrest
    have hfresh := h.fresh
    rw [State.created_nextNode] at hfresh
    refine ⟨fun x hlt hx => ?_, fun tj hne => ?_, fun v hv _ => ?_, by lia, ?_, h3.trans hepoch, h6.trans hlog⟩
    · rw [h.nodes_eq (H.created args.value) ht (by rw [State.created_nextNode]; exact hlt) hx, State.created_node]
    · rw [h.above.root_ne hne, State.created_root]
    · rw [h1]
      exact State.created_block hv
    · rw [h2]
      exact s.created_nextBlock_le args.value
  | unique v hv hu hr hs =>
    subst hs
    exact Changed.refl s' ti A args.key
  | update v c b lo hi bd i hv hu ht hb hi' hr hs =>
    subst hs
    obtain ⟨hn, hnb⟩ := (s.created args.value).retire_next token args.value.isInline v
    obtain ⟨hepoch', hlog'⟩ := (s.created args.value).retire_logs token args.value.isInline v
    refine ⟨fun x hlt hx => ?_, fun tj hne => ?_, fun w hw hno => ?_, ?_, ?_, hepoch'.trans hepoch, hlog'.trans hlog⟩
    · have hxb : x ≠ b := by
        rintro rfl
        exact hx _ _ ht (mem_plug_border_ids.mpr (Or.inr rfl))
      rw [State.setNode_node_ne hxb, State.retire_node, State.created_node]
    · have := congrFun ((s.created args.value).retire_root token args.value.isInline v) tj
      exact this.trans (congrFun (s.created_root args.value) tj)
    · have hne : v ≠ .heap w := fun h => hno (h ▸ hv)
      exact (State.retire_block hne).trans (State.created_block hw)
    · exact Nat.le_of_eq (hn.trans (s.created_nextNode args.value)).symm
    · exact Nat.le_trans (s.created_nextBlock_le args.value) (Nat.le_of_eq hnb.symm)

theorem Holds.single_not_has {n : NodeId} {π : Path} {e : Entry} : ¬ (Forest.single n).Has π e := by
  rintro ⟨t, ht, he⟩
  obtain ⟨-, rfl⟩ := Forest.single_some ht
  simp [BTree.entries, BTree.borders] at he

theorem State.created_block_new {arg : ValueArg} {bytes : List UInt8} {align : Nat} (h : arg = .heap bytes align) :
    (s.created arg).block s.nextBlock = some (blockOf bytes align) := by
  rw [h]
  exact if_pos rfl

/-- The memory after `put` holds a forest again. -/
theorem PutAnswer.holds (h : PutAnswer s s' token ti A dead args r) (H : Holds s ti A dead) : ∃ A', Holds s' ti A' dead ∧
    ((∃ node, r = ⟨.ok, some (s.createdValue args.value), node⟩) ∧
      (args.uniqueRestriction = true → ∀ v, ¬ A.Binds args.key v) ∧
        A.Rebinds A' args.key (s.createdValue args.value) ∧
        (∀ bytes align, args.value = .heap bytes align → s'.block s.nextBlock = some (blockOf bytes align)) ∨
      r = ⟨.warnUniqueRestriction, none, none⟩ ∧ args.uniqueRestriction = true ∧ (∃ v, A.Binds args.key v) ∧ A' = A ∧
        s' = s) := by
  have hnewBlock : ∀ {s₁ : State}, s'.rest = s₁.rest → s'.block = s₁.block := fun hr => congrArg Prod.fst hr
  cases h with
  | root hA hr h =>
    have hno : ∀ k w, ¬ A.Binds k w := by
      rintro k w ⟨t, ht, -⟩
      exact absurd (ht.symm.trans (H.empty hA _)) (by simp)
    have H₁ : Holds ((s.created args.value).emptyTree ti) ti (Forest.single s.nextNode) dead := holds_putRoot H
    have habs : ∀ e ∈ (BTree.border s.nextNode []).entries,
      e.key ≠ .ofKey args.key := by simp [BTree.entries, BTree.borders]
    have hins := Inserted.holds (A := Forest.single s.nextNode) (π := []) h H₁ rfl habs
      (fun hne => absurd rfl hne) fun w hw =>
      ⟨(H.createdValue args.value hw).1, fun ρ y hy => absurd hy Holds.single_not_has⟩
    have hb := fun k w => Inserted.binds_iff (A := Forest.single s.nextNode) (j := 0) (k := k) (w := w) h H₁
      (Nat.zero_le _) rfl habs
    refine ⟨_, hins, Or.inl ⟨⟨_, hr⟩, fun _ v => hno _ v, fun k w => (hb k w).trans ⟨?_, ?_⟩, fun bytes align harg => ?_⟩⟩
    · rintro (hk | hk)
      · exact absurd hk Holds.single_not_has
      · exact Or.inl hk
    · rintro (hk | ⟨-, hk⟩)
      · exact Or.inr hk
      · exact absurd hk (hno k w)
    · rw [hnewBlock h.rest]
      exact State.created_block_new harg
  | insert j t t' c b es bd m target hj ht hl hr h =>
    have habs := hl.absent rfl
    have hno : ∀ w, ¬ A.Binds args.key w := fun w => H.not_binds hj ht habs
    have hins := h.holds (H.created args.value) ht habs (fun hne hnil => ?_) fun w hw => H.createdValue args.value hw
    · refine ⟨_, hins,
        Or.inl ⟨⟨_, hr⟩, fun _ => hno, fun k w => (h.binds_iff (H.created args.value) hj ht habs).trans ⟨?_, ?_⟩,
        fun bytes align harg => ?_⟩⟩
      · rintro (hk | hk)
        · refine Or.inr ⟨?_, hk⟩
          rintro rfl
          exact hno w hk
        · exact Or.inl hk
      · rintro (hk | ⟨-, hk⟩)
        · exact Or.inr hk
        · exact Or.inl hk
      · rw [hnewBlock h.rest]
        exact State.created_block_new harg
    · -- The rest of the key is empty only in the first layer.
      have hlen := congrArg List.length hnil
      rw [List.length_drop, List.length_nil] at hlen
      have hj0 : j ≠ 0 := by
        rintro rfl
        exact hne rfl
      simp only [layers] at hj
      omega
  | unique v hv hu hr hs => exact ⟨A, hs ▸ H, Or.inr ⟨hr, hu, ⟨v, hv⟩, rfl, hs⟩⟩
  | update v c b lo hi bd i hv hu ht hb hi' hr hs =>
    subst hs
    refine ⟨_, H.update ht hb hi' rfl args.value args.value.isInline,
      Or.inl ⟨⟨_, hr⟩, fun h => ?_, fun k w => ?_, fun bytes align harg => ?_⟩⟩
    · exact absurd (hu.symm.trans h) (by simp)
    · rw [Forest.Binds, Forest.has_update ht fun y => mem_entries_setValue (H.layers ht)]
      constructor
      · rintro (⟨hp, he⟩ | ⟨hb, hne⟩)
        · rw [Entry.mk.injEq, Content.value.injEq] at he
          exact Or.inl ⟨place_inj hp he.1, he.2⟩
        · refine Or.inr ⟨?_, hb⟩
          rintro rfl
          exact hne ⟨rfl, by rw [H.binds_inj hv hb]⟩
      · rintro (⟨rfl, rfl⟩ | ⟨hne, hb⟩)
        · exact Or.inl ⟨rfl, rfl⟩
        · refine Or.inr ⟨hb, fun he => hne (place_inj he.1 ?_)⟩
          rw [Entry.mk.injEq] at he
          exact he.2.1
    · have hne : v ≠ .heap s.nextBlock := by
        rintro rfl
        exact absurd (H.blocks hv rfl).1 (Nat.lt_irrefl _)
      exact (State.retire_block hne).trans (State.created_block_new harg)

/-! ### `remove` -/

variable {st : Status}

theorem State.release_logs (s : State) (token : Token) (v : ValuePtr) :
    (s.release token v).beginEpoch = s.beginEpoch ∧ (s.release token v).log = s.log := by
  cases v with
  | word w => exact ⟨rfl, rfl⟩
  | heap v =>
    simp only [release]
    cases s.block v <;> exact ⟨rfl, rfl⟩

theorem State.release_block {v : ValuePtr} {w : ValueId} (h : v ≠ .heap w) : (s.release token v).block w = s.block w := by
  cases v with
  | word u => rfl
  | heap v =>
    have hne : w ≠ v := fun heq => h (by rw [heq])
    simp only [release]
    cases s.block v with
    | none => rfl
    | some x => exact if_neg hne

theorem RemoveAnswer.changed (h : RemoveAnswer s s' token ti A dead key st) (H : Holds s ti A dead) :
    Changed s s' ti A key := by
  rcases h with ⟨v, σ, x, t, t', lost, hv, -, h⟩ | ⟨-, -, rfl⟩
  · have hr := h.rest
    simp only [State.rest, Prod.mk.injEq] at hr
    obtain ⟨h1, h2, h3, -, -, h6⟩ := hr
    obtain ⟨hepoch, hlog⟩ := s.release_logs token v
    refine ⟨fun n _ hn => h.frame n (fun ρ u _ _ hu => hn ρ u hu) fun hp => ?_, fun tj hne => h.above.root_ne hne,
      fun w _ hw => ?_,
      Nat.le_of_eq h.next.symm, ?_, h3.trans hepoch, h6.trans hlog⟩
    · obtain ⟨sl, ρ, u, es, -, hu, hb⟩ := H.parent_mem h.survivor hp
      exact hn ρ u hu (BTree.border_mem_ids hb)
    · rw [h1]
      have hne : v ≠ .heap w := fun heq => hw (heq ▸ hv)
      exact State.release_block hne
    · rw [h2]
      exact Nat.le_of_eq (s.releaseContent_nextBlock token (.value v)).symm
  · exact Changed.refl s' ti A key

/-- The memory after `remove` holds a forest again. -/
theorem RemoveAnswer.holds (h : RemoveAnswer s s' token ti A dead key st) (H : Holds s ti A dead) :
    ∃ A' dead', Holds s' ti A' dead' ∧
    (∀ n, dead n → dead' n) ∧ (A' [] = none ↔ A [] = none) ∧ (∀ k w, A'.Binds k w ↔ k ≠ key ∧ A.Binds k w) ∧
    (st = .ok ∧ (∃ v, A.Binds key v) ∨
      st = (if A [] = none then .okRootIsNull else .okNotFound) ∧ (∀ v, ¬ A.Binds key v) ∧ s' = s) := by
  rcases h with ⟨v, σ, x, t, t', lost, hv, hst, h⟩ | ⟨hno, hst, rfl⟩
  · refine ⟨_, _, h.holds H hv (by simp), fun n hn => Or.inl hn, ?_, fun k w => (h.binds_iff H hv).trans and_comm,
      Or.inl ⟨hst, v, hv⟩⟩
    by_cases hσ : σ = []
    · subst hσ
      rw [Forest.without_self, h.survivor]
      simp
    · rw [Forest.without_eq (fun heq => hσ heq.symm) (by simp)]
  · refine ⟨A, dead, H, fun _ hn => hn, Iff.rfl, fun k w => ⟨fun hk => ⟨?_, hk⟩, fun hk => hk.2⟩, Or.inr ⟨hst, hno, rfl⟩⟩
    rintro rfl
    exact hno w hk

end
end Yakushima
