import Yakushima.Theorems.Point
import Yakushima.Theorems.Value

/-! # The update path of `put`

A `put` of a bound key stores the new value into the slot of the key. A heap value that stood there goes to
the garbage container when the new value is a heap value, and is deleted on the spot when the new value is an
inline word. -/

namespace Yakushima
open M Permutation

section
variable {s s' : State} {par : Ptr} {link : KeySlice → Ptr} {dead : NodeId → Prop} {c : Ctx} {b : NodeId} {bd : Node}
  {lo hi : List Entry} {e : Entry} {i : Nat} {old new : ValuePtr}

/-- A border with the value of one entry replaced. -/
theorem MembersOk.setValue (h : MembersOk link dead bd (.border (lo ++ e :: hi)))
    (hi' : (slotsOf bd.permutation)[lo.length]? = some i) :
    MembersOk link dead (bd.set (.lv i) (.value new)) (.border (lo ++ ⟨e.key, .value new⟩ :: hi)) := by
  obtain ⟨h1, h2, h3, h4, h5, h6, h7⟩ := h
  have hmem : i ∈ slotsOf bd.permutation := List.mem_of_getElem? hi'
  obtain ⟨L, R, hL, hlen⟩ : ∃ L R, slotsOf bd.permutation = L ++ i :: R ∧ L.length = lo.length := by
    obtain ⟨hlt, hget⟩ := List.getElem?_eq_some_iff.mp hi'
    refine ⟨(slotsOf bd.permutation).take lo.length, (slotsOf bd.permutation).drop (lo.length + 1), ?_, ?_⟩
    · rw [← hget, List.getElem_cons_drop, List.take_append_drop]
    · rw [List.length_take, Nat.min_eq_left (Nat.le_of_lt hlt)]
  have hnd : i ∉ L ∧ i ∉ R := by
    rw [hL] at h4
    have := List.nodup_cons.mp (List.perm_middle.nodup_iff.mp h4)
    exact ⟨fun h => this.1 (List.mem_append_left _ h), fun h => this.1 (List.mem_append_right _ h)⟩
  have hslot : ∀ j, j ≠ i → (bd.set (.lv i) (.value new)).slot j = bd.slot j := by
    intro j hj
    simp only [Node.set, Node.slot, Node.key, upd_ne hj]
  refine ⟨h1, h2, fun _ => h3 (by simp), h4, h5, ?_, fun j hj hnj => ?_⟩
  · rw [Node.slots, hL, List.map_append, List.map_cons, List.map_append, List.map_cons] at h6
    obtain ⟨hlo, hrest⟩ := List.append_inj h6 (by simp [hlen])
    obtain ⟨he, hhi⟩ := List.cons.inj hrest
    have hperm : (bd.set (.lv i) (.value new)).permutation = bd.permutation := rfl
    rw [Node.slots, hperm, hL, List.map_append, List.map_cons, List.map_append, List.map_cons, ← hlo, ← hhi]
    have hkey : bd.key i = e.key := congrArg Prod.fst he
    congr 1
    · exact List.map_congr_left fun j hj => hslot j fun h => hnd.1 (h ▸ hj)
    · congr 1
      · refine Prod.ext hkey ?_
        simp only [Node.set, Node.slot, upd_same, Entry.slot]
      · exact List.map_congr_left fun j hj => hslot j fun h => hnd.2 (h ▸ hj)
  · have hji : j ≠ i := fun h => hnj (h ▸ hmem)
    have : (bd.set (.lv i) (.value new)).lv j = bd.lv j := by simp only [Node.set, upd_ne hji]
    rw [this]
    exact h7 j hj hnj

/-- A layer with the value of one entry replaced. -/
theorem LayerOk.setValue (h : LayerOk s par link dead (Ctx.plug c (.border b (lo ++ e :: hi)))) (hb : s.node b = some bd)
    (hi' : (slotsOf bd.permutation)[lo.length]? = some i) (hc : e.content = .value old)
    (hb' : s'.node b = some (bd.set (.lv i) (.value new))) (hs : ∀ x, x ≠ b → s'.node x = s.node x) :
    LayerOk s' par link dead (Ctx.plug c (.border b (lo ++ ⟨e.key, .value new⟩ :: hi))) := by
  obtain ⟨nd, hn, hok⟩ := h.node_at
  obtain rfl : nd = bd := Option.some.inj (hn.symm.trans hb)
  have hborders : ∀ es, (Ctx.plug c (.border b es)).borders = Ctx.bordersLeft c ++ (b, es) :: Ctx.bordersRight c := by
    intro es
    rw [Ctx.plug_borders]
    simp [BTree.borders]
  refine ⟨fun p hp => ?_, ?_, ?_, ?_, ?_⟩
  · rcases Ctx.mem_plug_descs.mp hp with hp | hp
    · obtain ⟨xd, hx, hxok⟩ := h.nodes p (Ctx.mem_plug_descs.mpr (Or.inl hp))
      exact ⟨xd, (hs p.1 fun heq => h.ids_nodup.2 (heq ▸ Ctx.mem_ids_of_desc hp)).trans hx, hxok⟩
    · simp only [BTree.descs, List.mem_singleton] at hp
      subst hp
      refine ⟨_, hb', ⟨⟨hok.parent, hok.root, ?_, hok.members.setValue hi'⟩, hok.stable⟩⟩
      obtain ⟨hl, hes⟩ := hok.body
      refine ⟨by simpa using hl, fun x hx => ?_⟩
      rw [List.mem_append, List.mem_cons] at hx
      rcases hx with hx | rfl | hx
      · exact hes x (List.mem_append_left _ hx)
      · obtain ⟨henc, hlayer⟩ := hes e (by simp)
        refine ⟨henc, ?_⟩
        rw [← hlayer, hc]
        simp
      · exact hes x (List.mem_append_right _ (List.mem_cons_of_mem _ hx))
  · have hperm : (Ctx.plug c (.border b (lo ++ ⟨e.key, .value new⟩ :: hi))).ids.Perm
      (Ctx.plug c (.border b (lo ++ e :: hi))).ids :=
      (Ctx.plug_ids_perm c _).trans (Ctx.plug_ids_perm c (.border b (lo ++ e :: hi))).symm
    exact hperm.nodup_iff.mpr h.nodup
  · have := h.border_sorted
    rw [Ctx.plug_flat]
    simpa [BTree.flat, Entry.mark] using this
  · rintro ⟨x, fs⟩ hx hfs
    rw [hborders] at hx
    rcases List.mem_append.mp hx with hx | hx
    · exact absurd hfs (h.ctx_nonempty (Or.inl hx))
    · rcases List.mem_cons.mp hx with hx | hx
      · exact absurd ((Prod.mk.inj hx).2.symm.trans hfs) (by simp)
      · exact absurd hfs (h.ctx_nonempty (Or.inr hx))
  · have hch := h.chain
    rw [hborders] at hch ⊢
    simp only [List.map_append, List.map_cons] at hch ⊢
    refine hch.congr fun x hx xd hxd => ?_
    by_cases hxb : x = b
    · subst hxb
      obtain rfl : xd = nd := Option.some.inj (hxd.symm.trans hb)
      exact ⟨_, hb', rfl, rfl⟩
    · exact ⟨xd, (hs x hxb).trans hxd, rfl, rfl⟩

/-! ### Values -/

/-- The memory after `create_value`. -/
def State.created (s : State) : ValueArg → State
  | .word _ => s
  | .heap bytes align => { s with
      block := fun v => if v = s.nextBlock then some (blockOf bytes align) else s.block v
      nextBlock := s.nextBlock + 1 }

/-- What `create_value` answers. -/
def State.createdValue (s : State) : ValueArg → ValuePtr
  | .word w => .word (Fin.ofNat (2 ^ 62) w.toNat)
  | .heap _ _ => .heap s.nextBlock

theorem run_createValue {α : Type} {arg : ValueArg} (hc : arg.Clear) (k : LinkOrValue → M α) :
    run (createValue arg >>= k) s = run (k (s.createdValue arg)) (s.created arg) := by
  cases arg with
  | word w =>
    rw [createValue, LinkOrValue.ofWord_of_clear hc]
    rfl
  | heap bytes align => rfl

@[simp] theorem State.created_node (s : State) (arg : ValueArg) : (s.created arg).node = s.node := by cases arg <;> rfl

@[simp] theorem State.created_nextNode (s : State) (arg : ValueArg) : (s.created arg).nextNode = s.nextNode := by
  cases arg <;> rfl

@[simp] theorem State.created_root (s : State) (arg : ValueArg) : (s.created arg).root = s.root := by cases arg <;> rfl

theorem State.created_setNode (s : State) (arg : ValueArg) (n : NodeId) (nd : Node) :
    (s.setNode n nd).created arg = (s.created arg).setNode n nd := by cases arg <;> rfl

theorem State.createdValue_setNode (s : State) (arg : ValueArg) (n : NodeId) (nd : Node) :
    (s.setNode n nd).createdValue arg = s.createdValue arg := by cases arg <;> rfl

theorem State.created_block {arg : ValueArg} {v : ValueId} (h : v < s.nextBlock) : (s.created arg).block v = s.block v := by
  cases arg with
  | word w => rfl
  | heap bytes align => exact if_neg (Nat.ne_of_lt h)

theorem State.created_nextBlock_le (s : State) (arg : ValueArg) : s.nextBlock ≤ (s.created arg).nextBlock := by
  cases arg with
  | word w => exact Nat.le_refl _
  | heap bytes align => exact Nat.le_succ _

/-- What `put` does with the value it replaces: a block that is no longer owned stays where it is. -/
def State.retire (s : State) (token : Token) (isInline : Bool) : ValuePtr → State
  | .word _ => s
  | .heap v => match s.block v with
    | some x =>
      if x.needDelete then
        if isInline then { s with block := fun u => if u = v then none else s.block u }
        else { s with valueContainer := s.valueContainer ++ [⟨token, s.beginEpoch token, (v, x.gcSize, x.align)⟩] }
      else s
    | none => s

/-- Nothing happens to the value, or a block that is still owned is deleted or handed over. -/
theorem State.retire_cases (s : State) (token : Token) (isInline : Bool) (v : ValuePtr) : s.retire token isInline v = s ∨
    ∃ w x, v = .heap w ∧ s.block w = some x ∧ x.needDelete = true ∧ s.retire token isInline v =
      if isInline then { s with block := fun u => if u = w then none else s.block u }
      else { s with valueContainer := s.valueContainer ++ [⟨token, s.beginEpoch token, (w, x.gcSize, x.align)⟩] } := by
  cases v with
  | word w => exact Or.inl rfl
  | heap w =>
    cases hx : s.block w with
    | none => exact Or.inl (by simp only [retire, hx])
    | some x =>
      by_cases hd : x.needDelete = true
      · exact Or.inr ⟨w, x, rfl, hx, hd, by simp only [retire, hx, if_pos hd]⟩
      · exact Or.inl (by simp only [retire, hx, if_neg hd])

theorem State.retire_node (s : State) (token : Token) (isInline : Bool) (v : ValuePtr) :
    (s.retire token isInline v).node = s.node := by
  rcases s.retire_cases token isInline v with h | ⟨w, x, -, -, -, h⟩ <;> rw [h]
  cases isInline <;> rfl

/-- `take_old_value` on a block that is still owned. -/
theorem run_takeOldValue {α : Type} {v : ValueId} {x : Block} (hx : s.block v = some x) (hd : x.needDelete = true)
    (keepOld : Bool) (k : Option ValueId → M α) : run (takeOldValue keepOld (.heap v) >>= k) s =
      if keepOld then run (k (some v)) s
        else run (k none) { s with block := fun u => if u = v then none else s.block u } := by
  cases keepOld <;> simp [takeOldValue, needDelete, run, op, Lib.Prog.run, exec, hx, hd]

/-- The same on a block that is not. -/
theorem run_takeOldValue_disowned {α : Type} {v : ValueId} {x : Block} (hx : s.block v = some x)
    (hd : x.needDelete = false) (keepOld : Bool) (k : Option ValueId → M α) :
    run (takeOldValue keepOld (.heap v) >>= k) s = run (k none) s := by
  simp [takeOldValue, needDelete, run, op, Lib.Prog.run, exec, hx, hd]

theorem run_pushValueContainer {α : Type} {v : ValueId} {x : Block} {token : Token} (hx : s.block v = some x)
    (k : Unit → M α) :
    run (pushValueContainer token v >>= k) s =
      run (k ())
        { s with valueContainer := s.valueContainer ++ [⟨token, s.beginEpoch token, (v, x.gcSize, x.align)⟩] } := by
  simp [pushValueContainer, run, op, Lib.Prog.run, exec, hx]

/-- The update of a slot under the lock. -/
theorem run_putUpdate {fuel : Nat} {token : Token} {args : PutArgs} (hc : args.value.Clear) (hf : 0 < fuel)
    (hb : s.node b = some bd) (hk : bd.kind = .border) (hst : bd.version.stable = true) (hi' : i < 15)
    (hlv : bd.lv i = .value old) (hblock : ∀ v, old = .heap v → v < s.nextBlock ∧ ∃ x, s.block v = some x) :
    run (putUpdate fuel token args b i) (s.setNode b (bd.mapVersion (.setLocked true))) =
      some (⟨.ok, some (s.createdValue args.value), none⟩,
        ((s.created args.value).retire token args.value.isInline old).setNode b
          (bd.set (.lv i) (.value (s.createdValue args.value)))) := by
  have hlock : ((bd.mapVersion (.setLocked true)).set (.lv i) (.value (s.createdValue args.value))).mapVersion
      Version.unlocked = bd.set (.lv i) (.value (s.createdValue args.value)) := by
    simp only [Node.mapVersion, Node.set, Version.unlocked_setLocked hst]
  rw [putUpdate, run_createValue hc, State.created_setNode, State.createdValue_setNode, setValue]
  simp only [Lib.Prog.bind_assoc]
  rw [run_load_lv (State.setNode_node_same _ _ _) (by exact hk) hi']
  have hlv' : ((bd.mapVersion (.setLocked true)).lv i) = .value old := hlv
  rw [hlv', LinkOrValue.getValue_value]
  cases old with
  | word w =>
    simp only [takeOldValue, Lib.Prog.pure_eq, Lib.Prog.ret_bind]
    rw [run_store_lv (State.setNode_node_same _ _ _) (by exact hk) hi', State.setNode_setNode, versionUnlock,
      run_atomicUpdate_bind (State.setNode_node_same _ _ _) hf, State.setNode_setNode, hlock]
    rfl
  | heap v =>
    obtain ⟨hlt, x, hx⟩ := hblock v rfl
    have hx' : (s.created args.value).block v = some x := (State.created_block hlt).trans hx
    by_cases hd : x.needDelete = true
    swap
    · rw [run_takeOldValue_disowned (x := x) (by exact hx') (by simpa using hd)]
      simp only [Lib.Prog.pure_eq, Lib.Prog.ret_bind]
      rw [run_store_lv (State.setNode_node_same _ _ _) (by exact hk) hi', State.setNode_setNode, versionUnlock,
        run_atomicUpdate_bind (State.setNode_node_same _ _ _) hf, State.setNode_setNode, hlock]
      simp only [State.retire, hx', if_neg hd]
      rfl
    rw [run_takeOldValue (x := x) (by exact hx') hd]
    cases hin : args.value.isInline with
    | false =>
      rw [if_pos (by rfl)]
      simp only [Lib.Prog.pure_eq, Lib.Prog.ret_bind]
      rw [run_store_lv (State.setNode_node_same _ _ _) (by exact hk) hi', State.setNode_setNode, versionUnlock,
        run_atomicUpdate_bind (State.setNode_node_same _ _ _) hf, State.setNode_setNode, hlock,
          run_pushValueContainer (x := x) (by exact hx')]
      simp only [State.retire, hx', hd, if_true]
      rfl
    | true =>
      rw [if_neg (by simp)]
      simp only [Lib.Prog.pure_eq, Lib.Prog.ret_bind]
      rw [run_store_lv (by exact if_pos rfl) (by exact hk) hi', versionUnlock,
        run_atomicUpdate_bind (State.setNode_node_same _ _ _) hf, State.setNode_setNode, hlock]
      simp only [State.retire, hx', hd, if_true]
      refine congrArg (fun t => some (_, t)) (State.eq_of_node (fun y => ?_) rfl rfl)
      by_cases hy : y = b
      · subst hy
        rw [State.setNode_node_same, State.setNode_node_same]
      · rw [State.setNode_node_ne hy, State.setNode_node_ne hy, State.setNode_node_ne hy]

/-! ### The forest after an update -/

variable {ti : TreeId} {A : Forest} {π : Path} {token : Token} {arg : ValueArg}

/-- The bindings of a forest in which one value was replaced. -/
theorem Forest.has_update {t t' : BTree} {e' : Entry} (ht : A π = some t)
    (hm : ∀ y, y ∈ t'.entries ↔ y = e' ∨ y ∈ t.entries ∧ y ≠ e) {ρ : Path} {y : Entry} :
    Forest.Has (Function.update A π (some t')) ρ y ↔ ρ = π ∧ y = e' ∨ A.Has ρ y ∧ ¬ (ρ = π ∧ y = e) := by
  by_cases hρ : ρ = π
  · subst hρ
    rw [Has, Function.update_self]
    constructor
    · rintro ⟨u, hu, hy⟩
      obtain rfl := Option.some.inj hu
      rcases (hm y).mp hy with rfl | ⟨hy, hne⟩
      · exact Or.inl ⟨rfl, rfl⟩
      · exact Or.inr ⟨⟨t, ht, hy⟩, fun h => hne h.2⟩
    · rintro (⟨-, rfl⟩ | ⟨⟨u, hu, hy⟩, hne⟩)
      · exact ⟨t', rfl, (hm _).mpr (Or.inl rfl)⟩
      · obtain rfl : t = u := Option.some.inj (ht.symm.trans hu)
        exact ⟨t', rfl, (hm y).mpr (Or.inr ⟨hy, fun h => hne ⟨rfl, h⟩⟩)⟩
  · rw [Has, Function.update_of_ne hρ]
    constructor
    · exact fun h => Or.inr ⟨h, fun h' => hρ h'.1⟩
    · rintro (⟨h, -⟩ | ⟨h, -⟩)
      · exact absurd h hρ
      · exact h

/-- The memory after `create_value` holds the same forest, and the new block is none of its blocks. -/
theorem Holds.created (H : Holds s ti A dead) (arg : ValueArg) : Holds (s.created arg) ti A dead := by
  refine ⟨H.ok, by rw [State.created_root]; exact H.root,
    fun ht => (H.layers ht).frame (fun _ _ => by rw [State.created_node]) (fun _ h => h)
    fun _ _ => rfl, fun ht hx => by rw [State.created_nextNode]; exact H.fresh ht hx, H.alive,
    fun x hx => by rw [State.created_nextNode]; exact H.gone x hx, fun he hv => ?_, H.owned⟩
  obtain ⟨hlt, x, hx⟩ := H.blocks he hv
  exact ⟨Nat.lt_of_lt_of_le hlt (s.created_nextBlock_le arg), x, (State.created_block hlt).trans hx⟩

theorem Holds.createdValue (H : Holds s ti A dead) (arg : ValueArg) {w : ValueId} (hw : s.createdValue arg = .heap w) :
    (w < (s.created arg).nextBlock ∧ ∃ x, (s.created arg).block w = some x) ∧
      ∀ ρ y, A.Has ρ y → y.content ≠ .value (.heap w) := by
  cases arg with
  | word u => simp [State.createdValue] at hw
  | heap bytes align =>
    obtain rfl : s.nextBlock = w := by simpa [State.createdValue] using hw
    refine ⟨⟨Nat.lt_succ_self _, blockOf bytes align, if_pos rfl⟩, fun ρ y hy hv => ?_⟩
    exact absurd (H.blocks hy hv).1 (Nat.lt_irrefl _)

theorem State.retire_root (s : State) (token : Token) (isInline : Bool) (v : ValuePtr) :
    (s.retire token isInline v).root = s.root := by
  rcases s.retire_cases token isInline v with h | ⟨w, x, -, -, -, h⟩ <;> rw [h]
  cases isInline <;> rfl

theorem State.retire_next (s : State) (token : Token) (isInline : Bool) (v : ValuePtr) :
    (s.retire token isInline v).nextNode = s.nextNode ∧ (s.retire token isInline v).nextBlock = s.nextBlock := by
  rcases s.retire_cases token isInline v with h | ⟨w, x, -, -, -, h⟩ <;> rw [h]
  · exact ⟨rfl, rfl⟩
  · cases isInline <;> exact ⟨rfl, rfl⟩

theorem State.retire_block {isInline : Bool} {v : ValueId} {o : ValuePtr} (h : o ≠ .heap v) :
    (s.retire token isInline o).block v = s.block v := by
  rcases s.retire_cases token isInline o with hr | ⟨w, x, rfl, -, -, hr⟩ <;> rw [hr]
  have hne : v ≠ w := fun heq => h (by rw [heq])
  cases isInline with
  | false => rfl
  | true => exact if_neg hne

/-- The borders that the layers hang under stay when a value is replaced. -/
theorem linkBorder_setValue (c : Ctx) (b : NodeId) (lo hi : List Entry) (hc : e.content = .value old) (sl : KeySlice) :
    (Ctx.plug c (.border b (lo ++ ⟨e.key, .value new⟩ :: hi))).linkBorder sl =
    (Ctx.plug c (.border b (lo ++ e :: hi))).linkBorder sl := by
  simp only [BTree.linkBorder, Ctx.plug_borders, BTree.borders, List.append_assoc, List.singleton_append,
    List.find?_append, List.find?_cons,
    List.any_append, List.any_cons, hc, reduceCtorEq, and_false, decide_false, Bool.false_or]
  cases (Ctx.bordersLeft c).find? _ with
  | some x => rfl
  | none =>
    simp only [Option.none_or]
    split <;> rfl

theorem mem_entries_setValue {y : Entry} (h : LayerOk s par link dead (Ctx.plug c (.border b (lo ++ e :: hi)))) :
    y ∈ (Ctx.plug c (.border b (lo ++ ⟨e.key, .value new⟩ :: hi))).entries ↔
      y = ⟨e.key, .value new⟩ ∨ y ∈ (Ctx.plug c (.border b (lo ++ e :: hi))).entries ∧ y ≠ e := by
  have hnd := h.marks_nodup.of_map
  rw [entries_plug] at hnd ⊢
  rw [entries_plug]
  have hne : ∀ y, y ∈ (Ctx.bordersLeft c).flatMap (·.2) ∨ y ∈ lo ∨ y ∈ hi ∨
    y ∈ (Ctx.bordersRight c).flatMap (·.2) → y ≠ e := by
    rintro y hy rfl
    have hp : ((Ctx.bordersLeft c).flatMap (·.2) ++ (lo ++ y :: hi) ++ (Ctx.bordersRight c).flatMap (·.2)) =
        ((Ctx.bordersLeft c).flatMap (·.2) ++ lo) ++ y :: (hi ++ (Ctx.bordersRight c).flatMap (·.2)) := by simp
    rw [hp] at hnd
    refine (List.nodup_cons.mp (List.perm_middle.nodup_iff.mp hnd)).1 ?_
    simp only [List.mem_append]
    tauto
  simp only [List.mem_append, List.mem_cons]
  constructor
  · rintro ((hy | hy | hy | hy) | hy)
    · exact Or.inr ⟨Or.inl (Or.inl hy), hne y (Or.inl hy)⟩
    · exact Or.inr ⟨Or.inl (Or.inr (Or.inl hy)), hne y (Or.inr (Or.inl hy))⟩
    · exact Or.inl hy
    · exact Or.inr ⟨Or.inl (Or.inr (Or.inr (Or.inr hy))), hne y (Or.inr (Or.inr (Or.inl hy)))⟩
    · exact Or.inr ⟨Or.inr hy, hne y (Or.inr (Or.inr (Or.inr hy)))⟩
  · rintro (hy | ⟨(hy | hy | hy | hy) | hy, hye⟩)
    · exact Or.inl (Or.inr (Or.inr (Or.inl hy)))
    · exact Or.inl (Or.inl hy)
    · exact Or.inl (Or.inr (Or.inl hy))
    · exact absurd hy hye
    · exact Or.inl (Or.inr (Or.inr (Or.inr hy)))
    · exact Or.inr hy

/-! ### A layer in the place of another -/

/-- A layer with the nodes and the layers below of another one. -/
structure BTree.Alike (t' t : BTree) : Prop where
  ids : ∀ x, x ∈ t'.ids ↔ x ∈ t.ids
  id : t'.id = t.id
  layers : ∀ sl, t'.HasLayer sl ↔ t.HasLayer sl
  border : ∀ sl, t'.linkBorder sl = t.linkBorder sl

theorem BTree.Alike.rfl {t : BTree} : t.Alike t := ⟨fun _ => Iff.rfl, Eq.refl _, fun _ => Iff.rfl, fun _ => Eq.refl _⟩

namespace Forest
variable {t t' u w : BTree} {ρ : Path}

/-- Every layer of the new forest was there, with the same nodes and layers below. -/
theorem alike_of_update (ht : A π = some t) (hs : t'.Alike t) (hu : Function.update A π (some t') ρ = some u) :
    ∃ w, A ρ = some w ∧ u.Alike w := by
  by_cases hρ : ρ = π
  · subst hρ
    rw [Function.update_self] at hu
    obtain rfl := Option.some.inj hu
    exact ⟨t, ht, hs⟩
  · rw [Function.update_of_ne hρ] at hu
    exact ⟨u, hu, .rfl⟩

theorem alike_update (ht : A π = some t) (hs : t'.Alike t) (hw : A ρ = some w) :
    ∃ u, Function.update A π (some t') ρ = some u ∧ u.Alike w := by
  by_cases hρ : ρ = π
  · subst hρ
    obtain rfl : t = w := Option.some.inj (ht.symm.trans hw)
    exact ⟨t', Function.update_self _ _ _, hs⟩
  · exact ⟨w, (Function.update_of_ne hρ _ _).trans hw, .rfl⟩

theorem map_id_update (ht : A π = some t) (hs : t'.Alike t) (ρ : Path) :
    (Function.update A π (some t') ρ).map BTree.id = (A ρ).map BTree.id := by
  by_cases hρ : ρ = π
  · subst hρ
    rw [Function.update_self, ht, Option.map_some, Option.map_some, hs.id]
  · rw [Function.update_of_ne hρ]

theorem link_update (ht : A π = some t) (hs : t'.Alike t) (ρ : Path) (sl : KeySlice) :
    Forest.link (Function.update A π (some t')) ρ sl = A.link ρ sl := map_id_update ht hs (sl :: ρ)

theorem parent_update (ht : A π = some t) (hs : t'.Alike t) (ρ : Path) :
    Forest.parent (Function.update A π (some t')) ρ = A.parent ρ := by
  cases ρ with
  | nil => rfl
  | cons sl ρ =>
    rw [Forest.parent, Forest.parent]
    by_cases hρ : ρ = π
    · subst hρ
      rw [Function.update_self, ht, Option.bind_some, Option.bind_some, hs.border]
    · rw [Function.update_of_ne hρ]

theorem Ok.update (h : A.Ok) (ht : A π = some t) (hs : t'.Alike t) (hne : t'.entries ≠ [])
    (hpos : ∀ y ∈ t'.entries, ∃ x ∈ t.entries, y.key = x.key) : Forest.Ok (Function.update A π (some t')) where
  linked sl ρ := by
    constructor
    · rintro ⟨u, hu⟩
      obtain ⟨w, hw, -⟩ := alike_of_update ht hs hu
      obtain ⟨q, hq, hsl⟩ := (h.linked sl ρ).mp ⟨w, hw⟩
      obtain ⟨q', hq', hq⟩ := alike_update ht hs hq
      exact ⟨q', hq', (hq.layers sl).mpr hsl⟩
    · rintro ⟨u, hu, hsl⟩
      obtain ⟨w, hw, huw⟩ := alike_of_update ht hs hu
      obtain ⟨q, hq⟩ := (h.linked sl ρ).mpr ⟨w, hw, (huw.layers sl).mp hsl⟩
      obtain ⟨q', hq', -⟩ := alike_update ht hs hq
      exact ⟨q', hq'⟩
  disjoint hu hw hx hx' := by
    obtain ⟨u', hu', huu⟩ := alike_of_update ht hs hu
    obtain ⟨w', hw', hww⟩ := alike_of_update ht hs hw
    exact h.disjoint hu' hw' ((huu.ids _).mp hx) ((hww.ids _).mp hx')
  nonempty {sl ρ u} hu := by
    by_cases hρ : sl :: ρ = π
    · subst hρ
      rw [Function.update_self] at hu
      obtain rfl := Option.some.inj hu
      exact hne
    · rw [Function.update_of_ne hρ] at hu
      exact h.nonempty hu
  positive {sl ρ u} hu y hy := by
    by_cases hρ : sl :: ρ = π
    · subst hρ
      rw [Function.update_self] at hu
      obtain rfl := Option.some.inj hu
      obtain ⟨x, hx, hxy⟩ := hpos y hy
      exact hxy ▸ h.positive ht x hx
    · rw [Function.update_of_ne hρ] at hu
      exact h.positive hu y hy
  bounded := by
    obtain ⟨D, hD⟩ := h.bounded
    refine ⟨D, fun ρ u hu => ?_⟩
    obtain ⟨w, hw, -⟩ := alike_of_update ht hs hu
    exact hD ρ w hw

end Forest

/-- A value that is replaced changes neither the nodes nor the layers below. -/
theorem alike_setValue (h : LayerOk s par link dead (Ctx.plug c (.border b (lo ++ e :: hi))))
    (hc : e.content = .value old) :
    (Ctx.plug c (.border b (lo ++ ⟨e.key, .value new⟩ :: hi))).Alike (Ctx.plug c (.border b (lo ++ e :: hi))) where
  ids x := by rw [mem_plug_border_ids, mem_plug_border_ids]
  id := by rw [Ctx.plug_id, Ctx.plug_id]; rfl
  layers sl := by
    constructor
    · rintro ⟨y, hy, hys, hyc⟩
      rcases (mem_entries_setValue h).mp hy with rfl | ⟨hy, -⟩
      · exact absurd hyc (by simp)
      · exact ⟨y, hy, hys, hyc⟩
    · rintro ⟨y, hy, hys, hyc⟩
      refine ⟨y, (mem_entries_setValue h).mpr (Or.inr ⟨hy, ?_⟩), hys, hyc⟩
      rintro rfl
      exact absurd (hc.symm.trans hyc) (by simp)
  border sl := linkBorder_setValue c b lo hi hc sl

/-- The memory holds the forest in which a value was replaced. -/
theorem Holds.update (H : Holds s ti A dead) (ht : A π = some (Ctx.plug c (.border b (lo ++ e :: hi))))
    (hb : s.node b = some bd) (hi' : (slotsOf bd.permutation)[lo.length]? = some i) (hc : e.content = .value old)
    (arg : ValueArg) (isInline : Bool) :
    Holds (((s.created arg).retire token isInline old).setNode b (bd.set (.lv i) (.value (s.createdValue arg)))) ti
      (Function.update A π (some (Ctx.plug c (.border b (lo ++ ⟨e.key, .value (s.createdValue arg)⟩ :: hi))))) dead := by
  set new := s.createdValue arg with hnew
  set t := Ctx.plug c (.border b (lo ++ e :: hi)) with htdef
  set t' := Ctx.plug c (.border b (lo ++ ⟨e.key, .value new⟩ :: hi)) with htdef'
  set s' := ((s.created arg).retire token isInline old).setNode b (bd.set (.lv i) (.value new)) with hs'
  have hL : LayerOk s (A.parent π) (A.link π) dead t := H.layers ht
  have hmem : ∀ y, y ∈ t'.entries ↔ y = ⟨e.key, .value new⟩ ∨ y ∈ t.entries ∧ y ≠ e := fun y => mem_entries_setValue hL
  have hsame : t'.Alike t := alike_setValue hL hc
  have het : e ∈ t.entries :=
    BTree.mem_entries.mpr ⟨b, lo ++ e :: hi, by simp [htdef, Ctx.plug_borders, BTree.borders], by simp⟩
  have hhas : A.Has π e := ⟨t, ht, het⟩
  have hentry : ∀ {ρ y}, Forest.Has (Function.update A π (some t')) ρ y ↔ ρ = π ∧ y = ⟨e.key, .value new⟩ ∨
      A.Has ρ y ∧ ¬ (ρ = π ∧ y = e) := Forest.has_update ht hmem
  have hnode : ∀ x, x ≠ b → s'.node x = s.node x := fun x hx => by
    rw [hs', State.setNode_node_ne hx, State.retire_node, State.created_node]
  have hb' : s'.node b = some (bd.set (.lv i) (.value new)) := State.setNode_node_same _ _ _
  have hnext : s'.nextNode = s.nextNode := (State.retire_next _ _ _ _).1.trans (s.created_nextNode arg)
  have hblk : ∀ {v : ValueId}, old ≠ .heap v → s'.block v = (s.created arg).block v := fun hv => State.retire_block hv
  have hfresh : ∀ {v}, (⟨e.key, .value new⟩ : Entry).content = .value (.heap v) →
      (v < (s.created arg).nextBlock ∧ ∃ x, (s.created arg).block v = some x) ∧
        ∀ ρ y, A.Has ρ y → y.content ≠ .value (.heap v) := fun hv => H.createdValue arg (by simpa using hv)
  refine ⟨H.ok.update ht hsame (List.ne_nil_of_mem ((hmem _).mpr (Or.inl rfl))) fun y hy => ?_, ?_, fun {ρ u} hu => ?_,
    fun {ρ u x} hu hx => ?_, fun {ρ u x} hu hx => ?_, fun x hx => hnext ▸ H.gone x hx, fun {ρ y v} hy hv => ?_,
    fun {ρ τ y z v} hy hz hyv hzv => ?_⟩
  · rcases (hmem y).mp hy with rfl | ⟨hy, -⟩
    · exact ⟨e, het, rfl⟩
    · exact ⟨y, hy, rfl⟩
  · have hroot : s'.root ti = s.root ti := by
      rw [hs', State.setNode_root, State.retire_root, State.created_root]
    rw [hroot, H.root, Forest.map_id_update ht hsame]
  · rw [Forest.parent_update ht hsame]
    have hlink := Forest.link_update ht hsame ρ
    by_cases hρ : ρ = π
    · subst hρ
      rw [Function.update_self] at hu
      obtain rfl := Option.some.inj hu
      exact (hL.setValue hb hi' hc hb' hnode).frame (fun _ _ => rfl) (fun _ h => h) fun sl _ => hlink sl
    · rw [Function.update_of_ne hρ] at hu
      refine (H.layers hu).frame (fun x hx => hnode x ?_) (fun _ h => h) fun sl _ => hlink sl
      rintro rfl
      exact hρ (H.ok.disjoint hu ht hx (mem_plug_border_ids.mpr (Or.inr rfl)))
  · obtain ⟨w, hw, huw⟩ := Forest.alike_of_update ht hsame hu
    exact hnext ▸ H.fresh hw ((huw.ids x).mp hx)
  · obtain ⟨w, hw, huw⟩ := Forest.alike_of_update ht hsame hu
    exact H.alive hw ((huw.ids x).mp hx)
  · have hnb : s'.nextBlock = (s.created arg).nextBlock := (State.retire_next _ _ _ _).2
    rw [hnb]
    rcases hentry.mp hy with ⟨rfl, rfl⟩ | ⟨hyA, hne⟩
    · obtain ⟨hblock, hnone⟩ := hfresh hv
      rw [hblk fun ho => hnone _ _ hhas (by rw [hc, ho])]
      exact hblock
    · obtain ⟨hlt, x, hx⟩ := H.blocks hyA hv
      refine ⟨Nat.lt_of_lt_of_le hlt (s.created_nextBlock_le arg), x, ?_⟩
      rw [hblk fun ho => hne (H.owned hyA hhas hv (by rw [hc, ho])), State.created_block hlt]
      exact hx
  · rcases hentry.mp hy with ⟨rfl, rfl⟩ | ⟨hyA, -⟩
    · rcases hentry.mp hz with ⟨rfl, rfl⟩ | ⟨hzA, -⟩
      · exact ⟨rfl, rfl⟩
      · exact absurd hzv ((hfresh hyv).2 _ _ hzA)
    · rcases hentry.mp hz with ⟨rfl, rfl⟩ | ⟨hzA, -⟩
      · exact absurd hyv ((hfresh hzv).2 _ _ hyA)
      · exact H.owned hyA hzA hyv hzv

end
end Yakushima
