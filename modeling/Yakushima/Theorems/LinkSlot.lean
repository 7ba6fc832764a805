import Yakushima.Theorems.BorderDelete
import Yakushima.Theorems.Put
import Yakushima.Theorems.Split

/-! # The slot of a child

`get_lv` looks for the slot of a child among all slots of a border, the ones outside the permutation too. There an old
link is left when the layer below it was emptied, and the address of its node may come back under another slot. -/

namespace Yakushima
open M Permutation

/-! ### The operations on the slots of a border -/

/-- `insert_lv_at` into the empty slot, `delete_at` of a rank and `set_next_layer` on a slot. A link may have any
    address. -/
inductive SlotOp where
  | insertLvAt (rank : Nat) (k : KeyTuple) (lv : LinkOrValue)
  | deleteAt (rank : Nat)
  | setNextLayer (pos : Nat) (nextLayer : NodeId)
deriving DecidableEq

/-- A live slot links to the node. -/
def Node.Links (bd : Node) (child : NodeId) : Prop := ∃ i ∈ slotsOf bd.permutation, bd.lv i = .link child

instance (bd : Node) (child : NodeId) : Decidable (bd.Links child) :=
  inferInstanceAs (Decidable (∃ i ∈ slotsOf bd.permutation, bd.lv i = .link child))

namespace SlotOp

/-- What the callers see to: there is room, the rank or the slot is live, and no live slot links to the new node. -/
def Allowed (bd : Node) : SlotOp → Prop
  | insertLvAt rank _ lv => getCnk bd.permutation < 15 ∧ rank ≤ getCnk bd.permutation ∧ ∀ m, lv = .link m → ¬ bd.Links m
  | deleteAt rank => rank < getCnk bd.permutation
  | setNextLayer pos nextLayer => pos ∈ slotsOf bd.permutation ∧ (∃ m, bd.lv pos = .link m) ∧ ¬ bd.Links nextLayer

def apply (bd : Node) : SlotOp → Node
  | insertLvAt rank k lv => bd.insertSlot ((Permutation.getEmptySlot bd.permutation).getD 0) rank k lv
  | deleteAt rank => bd.eraseSlot rank (getIndexOfRank bd.permutation rank)
  | setNextLayer pos nextLayer => bd.set (.lv pos) (.link nextLayer)

/-- A node that is linked again does not find an old link to its address in a slot before its own. -/
def Unshadowed (bd : Node) : SlotOp → Prop
  | setNextLayer pos nextLayer => ∀ j < pos, j ∉ slotsOf bd.permutation → bd.lv j ≠ .link nextLayer
  | _ => True

end SlotOp

/-! ### What the operations keep -/

variable {bd : Node} {op : SlotOp}

/-- The live slots are in the border and link to different nodes. -/
structure SlotsOk (bd : Node) : Prop where
  kind : bd.kind = .border
  nodup : (slotsOf bd.permutation).Nodup
  lt : ∀ i ∈ slotsOf bd.permutation, i < 15
  apart : ∀ i ∈ slotsOf bd.permutation, ∀ j ∈ slotsOf bd.permutation, ∀ m, bd.lv i = .link m → bd.lv j = .link m → i = j

/-- No slot before a live link links to the same node. -/
def LinksFirst (bd : Node) : Prop := ∀ i ∈ slotsOf bd.permutation, ∀ m, bd.lv i = .link m → ∀ j < i, bd.lv j ≠ .link m

theorem cleared_eq_link {lv : LinkOrValue} {m : NodeId} : lv.cleared = .link m ↔ lv = .link m := by
  rcases lv with _ | _ | v
  · exact Iff.rfl
  · exact Iff.rfl
  · cases v <;> simp [LinkOrValue.cleared]

/-- An insertion fills the first slot that is not live. -/
theorem insertLvAt_apply {rank : Nat} {k : KeyTuple} {lv : LinkOrValue} (hc : getCnk bd.permutation < 15)
    (hr : rank ≤ getCnk bd.permutation) :
    ∃ i, i < 15 ∧ i ∉ slotsOf bd.permutation ∧ (∀ j < i, j ∈ slotsOf bd.permutation) ∧
      (slotsOf ((SlotOp.insertLvAt rank k lv).apply bd).permutation).Perm (i :: slotsOf bd.permutation) ∧
      ((SlotOp.insertLvAt rank k lv).apply bd).lv = upd bd.lv i lv := by
  obtain ⟨i, hi, hlt, hnot, hbefore⟩ := getEmptySlot_spec hc
  refine ⟨i, hlt, hnot, hbefore, ?_, ?_⟩
  · rw [SlotOp.apply, hi, Option.getD_some, Node.insertSlot_slotsOf hr hc hlt]
    exact List.perm_insertIdx _ _ (by rwa [slotsOf_length])
  · rw [SlotOp.apply, hi, Option.getD_some, Node.insertSlot]

/-- A deletion takes a slot out of the live ones and leaves the links. -/
theorem deleteAt_apply {rank : Nat} (hr : rank < getCnk bd.permutation) :
    (slotsOf ((SlotOp.deleteAt rank).apply bd).permutation).Sublist (slotsOf bd.permutation) ∧
      ∀ j m, ((SlotOp.deleteAt rank).apply bd).lv j = .link m ↔ bd.lv j = .link m := by
  refine ⟨?_, fun j m => ?_⟩
  · rw [SlotOp.apply, Node.eraseSlot, slotsOf_delete hr]
    exact List.eraseIdx_sublist _ _
  · by_cases hj : j = getIndexOfRank bd.permutation rank
    · subst hj
      simp only [SlotOp.apply, Node.eraseSlot, upd_same]
      exact cleared_eq_link
    · simp only [SlotOp.apply, Node.eraseSlot, upd_ne hj]

theorem SlotsOk.apply (h : SlotsOk bd) (ha : op.Allowed bd) : SlotsOk (op.apply bd) := by
  cases op with
  | insertLvAt rank k lv =>
    obtain ⟨hc, hr, hnew⟩ := ha
    obtain ⟨i, hlt, hnot, -, hperm, hlv⟩ := @insertLvAt_apply bd rank k lv hc hr
    have hmem : ∀ {j}, j ∈ slotsOf ((SlotOp.insertLvAt rank k lv).apply bd).permutation → j = i ∨
      (j ≠ i ∧ j ∈ slotsOf bd.permutation) := by
      intro j hj
      rcases List.mem_cons.mp (hperm.mem_iff.mp hj) with rfl | hj
      · exact Or.inl rfl
      · exact Or.inr ⟨fun hji => hnot (hji ▸ hj), hj⟩
    refine ⟨h.kind, hperm.nodup_iff.mpr (List.nodup_cons.mpr ⟨hnot, h.nodup⟩), fun j hj => ?_,
      fun j hj j' hj' m hl hl' => ?_⟩
    · rcases hmem hj with rfl | ⟨-, hj⟩
      · exact hlt
      · exact h.lt j hj
    · rw [hlv] at hl hl'
      rcases hmem hj with rfl | ⟨hne, hj⟩ <;> rcases hmem hj' with rfl | ⟨hne', hj'⟩
      · rfl
      · rw [upd_same] at hl
        rw [upd_ne hne'] at hl'
        exact absurd ⟨j', hj', hl'⟩ (hnew m hl)
      · rw [upd_same] at hl'
        rw [upd_ne hne] at hl
        exact absurd ⟨j, hj, hl⟩ (hnew m hl')
      · rw [upd_ne hne] at hl
        rw [upd_ne hne'] at hl'
        exact h.apart j hj j' hj' m hl hl'
  | deleteAt rank =>
    obtain ⟨hsub, hlinks⟩ := deleteAt_apply ha
    exact ⟨h.kind, hsub.nodup h.nodup, fun j hj => h.lt j (hsub.subset hj), fun j hj j' hj' m hl hl' =>
      h.apart j (hsub.subset hj) j' (hsub.subset hj') m ((hlinks j m).mp hl) ((hlinks j' m).mp hl')⟩
  | setNextLayer pos nextLayer =>
    obtain ⟨hpos, -, hnew⟩ := ha
    refine ⟨h.kind, h.nodup, h.lt, fun j hj j' hj' m hl hl' => ?_⟩
    simp only [SlotOp.apply, Node.set] at hj hj' hl hl'
    by_cases hjp : j = pos <;> by_cases hjp' : j' = pos
    · rw [hjp, hjp']
    · subst hjp
      rw [upd_same] at hl
      rw [upd_ne hjp'] at hl'
      cases hl
      exact absurd ⟨j', hj', hl'⟩ hnew
    · subst hjp'
      rw [upd_same] at hl'
      rw [upd_ne hjp] at hl
      cases hl'
      exact absurd ⟨j, hj, hl⟩ hnew
    · rw [upd_ne hjp] at hl
      rw [upd_ne hjp'] at hl'
      exact h.apart j hj j' hj' m hl hl'

/-- An operation keeps the live links first exactly if it is not shadowed. -/
theorem LinksFirst.apply_iff (h : LinksFirst bd) (ha : op.Allowed bd) : LinksFirst (op.apply bd) ↔ op.Unshadowed bd := by
  cases op with
  | insertLvAt rank k lv =>
    refine iff_of_true ?_ trivial
    obtain ⟨hc, hr, hnew⟩ := ha
    obtain ⟨i, -, hnot, hbefore, hperm, hlv⟩ := @insertLvAt_apply bd rank k lv hc hr
    intro j hj m hl j' hlt
    rw [hlv] at hl ⊢
    rcases List.mem_cons.mp (hperm.mem_iff.mp hj) with rfl | hj
    · -- All slots before the new one are live.
      rw [upd_same] at hl
      rw [upd_ne (Nat.ne_of_lt hlt)]
      exact fun hl' => hnew m hl ⟨j', hbefore j' hlt, hl'⟩
    · rw [upd_ne fun hji : j = i => hnot (hji ▸ hj)] at hl
      by_cases hji : j' = i
      · subst hji
        rw [upd_same]
        exact fun hl' => hnew m hl' ⟨j, hj, hl⟩
      · rw [upd_ne hji]
        exact h j hj m hl j' hlt
  | deleteAt rank =>
    refine iff_of_true ?_ trivial
    obtain ⟨hsub, hlinks⟩ := deleteAt_apply ha
    exact fun j hj m hl j' hlt hl' => h j (hsub.subset hj) m ((hlinks j m).mp hl) j' hlt ((hlinks j' m).mp hl')
  | setNextLayer pos nextLayer =>
    obtain ⟨hpos, -, hnew⟩ := ha
    constructor
    · intro hf j hlt _ hl
      have hself : ((SlotOp.setNextLayer pos nextLayer).apply bd).lv pos =
        .link nextLayer := by simp only [SlotOp.apply, Node.set, upd_same]
      refine hf pos hpos nextLayer hself j hlt ?_
      simpa only [SlotOp.apply, Node.set, upd_ne (Nat.ne_of_lt hlt)] using hl
    · intro hu j hj m hl j' hlt hl'
      simp only [SlotOp.apply, Node.set] at hj hl hl'
      by_cases hjp : j = pos
      · subst hjp
        rw [upd_same] at hl
        rw [upd_ne (Nat.ne_of_lt hlt)] at hl'
        cases hl
        by_cases hlive : j' ∈ slotsOf bd.permutation
        · exact hnew ⟨j', hlive, hl'⟩
        · exact hu j' hlt hlive hl'
      · rw [upd_ne hjp] at hl
        by_cases hjp' : j' = pos
        · subst hjp'
          rw [upd_same] at hl'
          cases hl'
          exact hnew ⟨j, hj, hl⟩
        · rw [upd_ne hjp'] at hl'
          exact h j hj m hl j' hlt hl'

/-! ### The programs of the operations -/

def LinkOrValue.content : LinkOrValue → Content
  | .value v => .value v
  | _ => .layer

/-- A call of the code on the slots of a border. -/
inductive SlotCall where
  | insertLvAt (rank : Nat) (key : Key) (v : ValuePtr)
  | deleteAt (rank : Nat)
  | setNextLayer (pos : Nat) (nextLayer : NodeId)

namespace SlotCall

/-- The call as `insert_lv`, `delete_of` and the callers of `set_next_layer` make it. -/
def prog (token : Token) (n : NodeId) (fuel : Nat) : SlotCall → M Unit
  | insertLvAt rank key v => do
    let index ← Yakushima.getEmptySlot n
    let _ ← Yakushima.insertLvAt fuel fuel n index key v rank
    pure ()
  | deleteAt rank => do
    let body ← load n .permutation
    let lv ← load n (.lv (getIndexOfRank body rank))
    Yakushima.deleteAt token n rank (getIndexOfRank body rank) lv.content.isValue
  | setNextLayer pos nextLayer => Yakushima.setNextLayer n (some pos) nextLayer

/-- The operation of the call: the next layers of a long key get the next addresses. -/
def slotOp (s : State) : SlotCall → SlotOp
  | insertLvAt rank key v => .insertLvAt rank (.ofKey key) (lvOf key v s.nextNode)
  | deleteAt rank => .deleteAt rank
  | setNextLayer pos nextLayer => .setNextLayer pos nextLayer

/-- A heap value that is inserted is there. -/
def Backed (s : State) : SlotCall → Prop
  | insertLvAt _ _ (.heap v) => ∃ b, s.block v = some b
  | _ => True

end SlotCall

/-- The border `n` of a memory: no slot outside the permutation holds a heap value, and the others' blocks are there. -/
structure OnSlots (s : State) (n : NodeId) (bd : Node) : Prop where
  node : s.node n = some bd
  lt : n < s.nextNode
  slots : SlotsOk bd
  free : ∀ i, i ∉ slotsOf bd.permutation → ∀ v, bd.lv i ≠ .value (.heap v)
  blocks : ∀ i v, bd.lv i = .value (.heap v) → ∃ b, s.block v = some b

section
variable {s : State} {n : NodeId} {fuel : Nat} {token : Token}

theorem run_initBorder (hn : s.node n = some (.fresh .border)) (hf : 0 < fuel) :
    run (initBorder fuel n) s = some ((), s.setNode n .emptyRoot) := by
  rw [initBorder, setVersionRoot, run_atomicUpdate_bind hn hf, setVersionBorder,
    run_atomicUpdate (State.setNode_node_same _ _ _) hf,
    State.setNode_setNode, Node.mapVersion_mapVersion]
  rfl

theorem State.releaseContent_block {c : Content} {v : ValueId} (h : ∃ b, s.block v = some b) :
    ∃ b, (s.releaseContent token c).block v = some b := by
  obtain ⟨b, hb⟩ := h
  cases c with
  | layer => exact ⟨b, hb⟩
  | value u =>
    cases u with
    | word w => exact ⟨b, hb⟩
    | heap u =>
      simp only [releaseContent, release]
      cases hu : s.block u with
      | none => exact ⟨b, hb⟩
      | some bu =>
        by_cases hvu : v = u
        · exact ⟨_, if_pos hvu⟩
        · exact ⟨b, (if_neg hvu).trans hb⟩

theorem content_heap {lv : LinkOrValue} {v : ValueId} (h : lv.content = .value (.heap v)) : lv = .value (.heap v) := by
  cases lv with
  | value u => exact congrArg LinkOrValue.value (Content.value.inj h)
  | _ => cases h

/-- A slot as an entry holds it. -/
theorem slot_content (lv : LinkOrValue) : ∃ link : KeySlice → Ptr, lv = (Entry.slot link ⟨⟨.zero, 0⟩, lv.content⟩).2 := by
  cases lv with
  | empty => exact ⟨fun _ => none, rfl⟩
  | link m => exact ⟨fun _ => some m, rfl⟩
  | value v => exact ⟨fun _ => none, rfl⟩

theorem LinkOrValue.cleared_ne_heap {lv : LinkOrValue} {v : ValueId} : lv.cleared ≠ .value (.heap v) := by
  cases lv with
  | value u => cases u <;> nofun
  | _ => nofun

theorem OnSlots.returns_insertLvAt {rank : Nat} {key : Key} {v : ValuePtr} (h : OnSlots s n bd)
    (ha : ((SlotCall.insertLvAt rank key v).slotOp s).Allowed bd) (hb : (SlotCall.insertLvAt rank key v).Backed s) :
    ∃ s', Returns (fun fuel => (SlotCall.insertLvAt rank key v).prog token n fuel) s () s' ∧
      OnSlots s' n (((SlotCall.insertLvAt rank key v).slotOp s).apply bd) := by
  have hok := h.slots.apply ha
  obtain ⟨hc, hr, -⟩ := ha
  obtain ⟨i, hi, hi15, hnot, -⟩ := getEmptySlot_spec hc
  have hslot : run (getEmptySlot n) s = some (i, s) := by
    have hall : (slotsOf bd.permutation).all (fun j => decide (j < keySliceLength)) = true :=
      List.all_eq_true.mpr fun i hi => decide_eq_true (h.slots.lt i hi)
    rw [Yakushima.getEmptySlot, run_load_permutation h.node h.slots.kind, if_pos hall, hi]
    rfl
  have happly : ((SlotCall.insertLvAt rank key v).slotOp s).apply bd = bd.insertSlot i rank (.ofKey key)
    (lvOf key v s.nextNode) := by
    rw [SlotCall.slotOp, SlotOp.apply, hi, Option.getD_some]
  have hmem : ∀ j, j ∈ slotsOf (bd.insertSlot i rank (.ofKey key) (lvOf key v s.nextNode)).permutation ↔
      j = i ∨ j ∈ slotsOf bd.permutation := by
    intro j
    rw [Node.insertSlot_slotsOf hr hc hi15, List.mem_insertIdx (by rwa [slotsOf_length])]
  obtain ⟨f, hrun, hnode, -⟩ := @run_insertLvAt v (layers key) s n bd i rank key rfl h.node h.lt h.slots.kind hc hi15
    (h.free i hnot)
  have hret : Returns (fun fuel => (SlotCall.insertLvAt rank key v).prog token n fuel) s ()
      { s with node := f, nextNode := s.nextNode + layers key } :=
    ⟨layers key + 1, fun fuel hf => (run_bind_of hslot _).trans ((run_bind_of (hrun fuel fuel (by lia) hf) _).trans rfl)⟩
  rw [happly] at hok ⊢
  refine ⟨_, hret, hnode, Nat.lt_add_right _ h.lt, hok, fun j hj u hu => ?_, fun j u hu => ?_⟩
  · rw [hmem, not_or] at hj
    simp only [Node.insertSlot, upd_ne hj.1] at hu
    exact h.free j hj.2 u hu
  · simp only [Node.insertSlot] at hu
    by_cases hj : j = i
    · subst hj
      rw [upd_same, lvOf] at hu
      split at hu
      · cases hu
        exact hb
      · cases hu
    · rw [upd_ne hj] at hu
      exact h.blocks j u hu

theorem OnSlots.returns_deleteAt {rank : Nat} (h : OnSlots s n bd) (hr : rank < getCnk bd.permutation) :
    ∃ s', Returns (fun fuel => (SlotCall.deleteAt rank).prog token n fuel) s () s' ∧
      OnSlots s' n ((SlotOp.deleteAt rank).apply bd) := by
  generalize hi : getIndexOfRank bd.permutation rank = i
  have hat : (slotsOf bd.permutation)[rank]? = some i := by rw [slotsOf_getElem?, if_pos hr, ← getIndexOfRank_eq, hi]
  have hlt := h.slots.lt i (List.mem_of_getElem? hat)
  have happly : (SlotOp.deleteAt rank).apply bd = bd.eraseSlot rank i := by rw [SlotOp.apply, hi]
  have hok : SlotsOk ((SlotOp.deleteAt rank).apply bd) := h.slots.apply hr
  obtain ⟨link, hlink⟩ := slot_content (bd.lv i)
  have hret : Returns (fun fuel => (SlotCall.deleteAt rank).prog token n fuel) s ()
      ((s.releaseContent token (bd.lv i).content).setNode n (bd.eraseSlot rank i)) := by
    refine ⟨0, fun fuel _ => ?_⟩
    show run (SlotCall.prog token n fuel (.deleteAt rank)) s = _
    rw [SlotCall.prog, run_load_permutation h.node h.slots.kind, hi, run_load_lv h.node h.slots.kind hlt]
    exact run_deleteAt h.node h.slots.kind hlt hr hlink fun v hv => h.blocks i v (content_heap hv)
  rw [happly] at hok ⊢
  refine ⟨_, hret, State.setNode_node_same _ _ _, ?_, hok, fun j hj u hu => ?_, fun j u hu => ?_⟩
  · rw [State.setNode_nextNode, State.releaseContent_nextNode]
    exact h.lt
  · by_cases hji : j = i
    · subst hji
      simp only [Node.eraseSlot, upd_same] at hu
      exact LinkOrValue.cleared_ne_heap hu
    · simp only [Node.eraseSlot, upd_ne hji] at hu
      -- No other slot leaves the permutation.
      refine h.free j (fun hmem => hj ?_) u hu
      obtain ⟨r, hr'⟩ := List.mem_iff_getElem?.mp hmem
      rw [Node.eraseSlot, slotsOf_delete hr, List.mem_eraseIdx_iff_getElem?]
      exact ⟨r, fun hrr => hji (Option.some.inj (hr'.symm.trans (hrr ▸ hat))), hr'⟩
  · rw [State.setNode_block]
    refine State.releaseContent_block (h.blocks j u ?_)
    by_cases hji : j = i
    · subst hji
      simp only [Node.eraseSlot, upd_same] at hu
      exact absurd hu LinkOrValue.cleared_ne_heap
    · simpa only [Node.eraseSlot, upd_ne hji] using hu

theorem OnSlots.returns_setNextLayer {pos : Nat} {m : NodeId} (h : OnSlots s n bd)
    (ha : (SlotOp.setNextLayer pos m).Allowed bd) :
    ∃ s', Returns (fun fuel => (SlotCall.setNextLayer pos m).prog token n fuel) s () s' ∧
      OnSlots s' n ((SlotOp.setNextLayer pos m).apply bd) := by
  have hlv : ∀ j u, ((SlotOp.setNextLayer pos m).apply bd).lv j = .value (.heap u) → bd.lv j = .value (.heap u) := by
    intro j u hu
    simp only [SlotOp.apply, Node.set] at hu
    by_cases hj : j = pos
    · subst hj
      rw [upd_same] at hu
      cases hu
    · rwa [upd_ne hj] at hu
  exact ⟨_, ⟨0, fun fuel _ => run_store h.node (admits_lv h.slots.kind (h.slots.lt pos ha.1)) _⟩,
    State.setNode_node_same _ _ _, h.lt, h.slots.apply ha, fun j hj u hu => h.free j hj u (hlv j u hu),
    fun j u hu => h.blocks j u (hlv j u hu)⟩

/-- Each call does its operation on the border. -/
theorem SlotCall.returns_apply (token : Token) (c : SlotCall) (h : OnSlots s n bd) (ha : (c.slotOp s).Allowed bd)
    (hb : c.Backed s) :
    ∃ s', Returns (fun fuel => c.prog token n fuel) s () s' ∧ OnSlots s' n ((c.slotOp s).apply bd) := by
  cases c with
  | insertLvAt rank key v => exact h.returns_insertLvAt ha hb
  | deleteAt rank => exact h.returns_deleteAt ha
  | setNextLayer pos m => exact h.returns_setNextLayer ha

end

/-! ### Runs -/

/-- The slot that `get_lv` finds for a child of a live slot is live. -/
def FindsLive (bd : Node) : Prop := ∀ (s : State) (n child : NodeId), s.node n = some bd → bd.Links child →
  ∃ i ∈ slotsOf bd.permutation, bd.lv i = .link child ∧ run (getLv n child) s = some (some i, s)

theorem SlotsOk.findsLive_iff (h : SlotsOk bd) : FindsLive bd ↔ LinksFirst bd := by
  constructor
  · intro hf i hi m hl j hlt hlj
    classical
    obtain ⟨i', hi', hl', hrun⟩ := hf { State.init with node := fun _ => some bd } 0 m rfl ⟨i, hi, hl⟩
    obtain rfl := h.apart i hi i' hi' m hl hl'
    -- The first slot that links to the child comes before the live one.
    have hex : ∃ k, bd.lv k = .link m := ⟨j, hlj⟩
    have hle : Nat.find hex ≤ j := Nat.find_min' hex hlj
    have hi15 := h.lt i hi
    have hfirst := @run_getLv_first { State.init with node := fun _ => some bd } 0 bd m (Nat.find hex) rfl h.kind
      (by omega) (Nat.find_spec hex)
      fun k hk => Nat.find_min hex hk
    rw [hrun, Option.some.injEq, Prod.mk.injEq, Option.some.injEq] at hfirst
    omega
  · rintro hf s n child hn ⟨i, hi, hl⟩
    exact ⟨i, hi, hl, run_getLv_first hn h.kind (h.lt i hi) hl (hf i hi child hl)⟩

/-- A border from its `init_border()` on, with the operations on its slots. -/
structure SlotTrace (n : Nat) where
  node : Nat → Node
  op : Nat → SlotOp
  start : node 0 = .emptyRoot
  allowed : ∀ i < n, (op i).Allowed (node i)
  step : ∀ i < n, node (i + 1) = (op i).apply (node i)

variable {n : Nat}

theorem SlotTrace.slotsOk (T : SlotTrace n) : ∀ i ≤ n, SlotsOk (T.node i)
  | 0, _ => by
    rw [T.start]
    exact ⟨rfl, List.nodup_nil, nofun, nofun⟩
  | i + 1, hi => by
    rw [T.step i hi]
    exact (T.slotsOk i (Nat.le_of_succ_le hi)).apply (T.allowed i hi)

/-- The memories that a border goes through from its `init_border()` on, with the calls on its slots. -/
structure SlotRun (token : Token) (b : NodeId) (n : Nat) where
  state : Nat → State
  call : Nat → SlotCall
  start : OnSlots (state 0) b .emptyRoot
  allowed : ∀ i < n, ∀ bd, (state i).node b = some bd → ((call i).slotOp (state i)).Allowed bd
  backed : ∀ i < n, (call i).Backed (state i)
  step : ∀ i < n, Returns (fun fuel => (call i).prog token b fuel) (state i) () (state (i + 1))

theorem SlotRun.onSlots {token : Token} {b : NodeId} (R : SlotRun token b n) : ∀ i ≤ n, ∃ bd, OnSlots (R.state i) b bd
  | 0, _ => ⟨.emptyRoot, R.start⟩
  | i + 1, hi => by
    obtain ⟨bd, h⟩ := R.onSlots i (Nat.le_of_succ_le hi)
    obtain ⟨s', hret, h'⟩ := (R.call i).returns_apply token h (R.allowed i hi bd h.node) (R.backed i hi)
    obtain ⟨-, rfl⟩ := hret.det (R.step i hi)
    exact ⟨_, h'⟩

/-- A run of the calls does their operations one after the other. -/
theorem SlotRun.trace {token : Token} {b : NodeId} (R : SlotRun token b n) :
    ∃ T : SlotTrace n, (∀ i ≤ n, (R.state i).node b = some (T.node i)) ∧ ∀ i < n, T.op i = (R.call i).slotOp
      (R.state i) := by
  let node : Nat → Node := fun i => ((R.state i).node b).getD .emptyRoot
  have hnode : ∀ i bd, (R.state i).node b = some bd → node i = bd := fun i bd h => by simp only [node, h, Option.getD_some]
  refine ⟨⟨node, fun i => (R.call i).slotOp (R.state i), hnode 0 _ R.start.node, fun i hi => ?_, fun i hi => ?_⟩,
    fun i hi => ?_,
    fun _ _ => rfl⟩
  · obtain ⟨bd, h⟩ := R.onSlots i (Nat.le_of_lt hi)
    rw [hnode i bd h.node]
    exact R.allowed i hi bd h.node
  · obtain ⟨bd, h⟩ := R.onSlots i (Nat.le_of_lt hi)
    obtain ⟨s', hret, h'⟩ := (R.call i).returns_apply token h (R.allowed i hi bd h.node) (R.backed i hi)
    obtain ⟨-, rfl⟩ := hret.det (R.step i hi)
    rw [hnode i bd h.node, hnode (i + 1) _ h'.node]
  · obtain ⟨bd, h⟩ := R.onSlots i hi
    exact h.node.trans (congrArg some (hnode i bd h.node).symm)

/-- `get_lv` finds a live slot all along exactly if no node is linked again behind an old link to its address. -/
theorem get_lv_finds_live_iff (T : SlotTrace n) : (∀ i ≤ n, FindsLive (T.node i)) ↔
    ∀ i < n, (T.op i).Unshadowed (T.node i) := by
  have hok := T.slotsOk
  constructor
  · intro h i hi
    have hfirst := (hok i (Nat.le_of_lt hi)).findsLive_iff.mp (h i (Nat.le_of_lt hi))
    have hnext := (hok (i + 1) hi).findsLive_iff.mp (h (i + 1) hi)
    rw [T.step i hi] at hnext
    exact (hfirst.apply_iff (T.allowed i hi)).mp hnext
  · intro h i hi
    refine (hok i hi).findsLive_iff.mpr ?_
    induction i with
    | zero =>
      rw [T.start]
      exact nofun
    | succ i ih =>
      rw [T.step i hi]
      exact ((ih (Nat.le_of_succ_le hi)).apply_iff (T.allowed i hi)).mpr (h i hi)

/-- Two layers are linked, the first one is emptied, and the root of the second one is replaced by a node at the address
    that the first one had. -/
def relinkOps : List SlotOp :=
  [.insertLvAt 0 (.ofKey (List.replicate 9 1)) (.link 7), .insertLvAt 1 (.ofKey (List.replicate 9 2)) (.link 8),
    .deleteAt 0, .setNextLayer 1 7]

def relinkTrace : SlotTrace 4 where
  node := fun i => (relinkOps.take i).foldl SlotOp.apply .emptyRoot
  op := fun i => relinkOps.getD i (.deleteAt 0)
  start := rfl
  allowed := by
    intro i hi
    match i with
    | 0 => exact ⟨by decide, by decide, fun m hm => by cases hm; decide⟩
    | 1 => exact ⟨by decide, by decide, fun m hm => by cases hm; decide⟩
    | 2 => exact show 0 < _ by decide
    | 3 => exact ⟨by decide, ⟨8, by decide⟩, by decide⟩
    | _ + 4 => omega
  step := by
    intro i hi
    match i with
    | 0 | 1 | 2 | 3 => rfl
    | _ + 4 => omega

/-- After the replacement `get_lv` answers the slot 0 for the child of the slot 1. -/
theorem get_lv_finds_stale : (relinkTrace.node 4).Links 7 ∧ slotsOf (relinkTrace.node 4).permutation = [1] ∧
    (run (getLv 0 7) { State.init with node := fun _ => some (relinkTrace.node 4) }).map Prod.fst = some (some 0) ∧
    ¬ ∀ i ≤ 4, FindsLive (relinkTrace.node i) := by
  have hslots : slotsOf (relinkTrace.node 4).permutation = [1] := by decide
  have hlinks : (relinkTrace.node 4).Links 7 := by decide
  have hrun : run (getLv 0 7) { State.init with node := fun _ => some (relinkTrace.node 4) } =
      some (some 0, { State.init with node := fun _ => some (relinkTrace.node 4) }) :=
    run_getLv_first rfl rfl (by decide) (by decide) nofun
  refine ⟨hlinks, hslots, by rw [hrun]; rfl, fun h => ?_⟩
  obtain ⟨i, hi, -, hi'⟩ :=
    h 4 (Nat.le_refl 4) { State.init with node := fun _ => some (relinkTrace.node 4) } 0 7 rfl hlinks
  rw [hslots, List.mem_singleton] at hi
  rw [hrun, Option.some.injEq, Prod.mk.injEq, Option.some.injEq] at hi'
  omega

end Yakushima
