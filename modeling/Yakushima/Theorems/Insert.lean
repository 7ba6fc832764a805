import Yakushima.Lib.ArrayList
import Yakushima.Theorems.Lookup

/-! # Insertion into a border

`insert_lv_at` on a border with a free slot: the new entry takes its rank, and a key longer than a slice
makes one new border for each further layer. -/

namespace Yakushima
open M Permutation

/-! ### The border itself -/

/-- A border with one more live slot. -/
def Node.insertSlot (nd : Node) (index rank : Nat) (k : KeyTuple) (lv : LinkOrValue) : Node :=
  { nd with
    keySlice := upd nd.keySlice index k.slice
    keyLength := upd nd.keyLength index k.length
    lv := upd nd.lv index lv
    permutation := Permutation.insert (Permutation.incKeyNum nd.permutation) rank index }

section
variable {nd : Node} {index rank : Nat} {k : KeyTuple} {lv : LinkOrValue}

theorem Node.insertSlot_slot_same : (nd.insertSlot index rank k lv).slot index = (k, lv) := by
  simp [insertSlot, slot, key]

theorem Node.insertSlot_slot_ne {i : Nat} (h : i ≠ index) : (nd.insertSlot index rank k lv).slot i = nd.slot i := by
  simp [insertSlot, slot, key, upd_ne h]

theorem Node.insertSlot_slotsOf (hr : rank ≤ getCnk nd.permutation) (hc : getCnk nd.permutation < 15) (hi : index < 15) :
    slotsOf (nd.insertSlot index rank k lv).permutation = (slotsOf nd.permutation).insertIdx rank index :=
  slotsOf_insert hr hc hi

theorem Node.insertSlot_slots (hr : rank ≤ getCnk nd.permutation) (hc : getCnk nd.permutation < 15) (hi : index < 15)
    (hfree : index ∉ slotsOf nd.permutation) :
    (nd.insertSlot index rank k lv).slots = nd.slots.insertIdx rank (k, lv) := by
  rw [slots, insertSlot_slotsOf hr hc hi, List.map_insertIdx, insertSlot_slot_same, slots]
  congr 1
  refine List.map_congr_left fun i hmem => insertSlot_slot_ne ?_
  rintro rfl
  exact hfree hmem

/-- The members of a border with a new entry. -/
theorem MembersOk.insertSlot {link link' : KeySlice → Ptr} {dead dead' : NodeId → Prop} {es : List Entry} {e : Entry}
    (h : MembersOk link dead nd (.border es)) (hd : nd.version.deleted = false)
    (hr : rank ≤ es.length) (hc : es.length < 15) (hi : index < 15) (hfree : index ∉ slotsOf nd.permutation)
    (hdead : ∀ m, dead m → dead' m) (hlink : ∀ e ∈ es, e.slot link' = e.slot link) (he : e.slot link' = (k, lv)) :
    MembersOk link' dead' (nd.insertSlot index rank k lv) (.border (es.insertIdx rank e)) := by
  obtain ⟨hkind, hb, -, hnd, hbound, hs, hun⟩ := h
  have hcnk : getCnk nd.permutation = es.length := by rw [← nd.slots_length, hs, List.length_map]
  have hso := @Node.insertSlot_slotsOf nd index rank k lv (hcnk ▸ hr) (hcnk ▸ hc) hi
  have hmem : ∀ j, j ∈ slotsOf (nd.insertSlot index rank k lv).permutation ↔ j = index ∨ j ∈ slotsOf nd.permutation := by
    intro j
    rw [hso, List.mem_insertIdx (by rw [slotsOf_length, hcnk]; exact hr)]
  refine ⟨hkind, hb, fun _ => hd, ?_, ?_, ?_, ?_⟩
  · rw [hso]
    exact (List.perm_insertIdx index (slotsOf nd.permutation) (by rw [slotsOf_length, hcnk]; exact hr)).nodup_iff.mpr
      (List.nodup_cons.mpr ⟨hfree, hnd⟩)
  · intro j hj
    rcases (hmem j).mp hj with rfl | hj
    · exact hi
    · exact hbound j hj
  · rw [Node.insertSlot_slots (hcnk ▸ hr) (hcnk ▸ hc) hi hfree, hs, ← he, List.map_insertIdx]
    congr 1
    exact List.map_congr_left fun e he => (hlink e he).symm
  · intro j hj hnot
    have hne : j ≠ index := fun h => hnot ((hmem j).mpr (Or.inl h))
    have := hun j hj fun h => hnot ((hmem j).mpr (Or.inr h))
    have hlv : (nd.insertSlot index rank k lv).lv j = nd.lv j := by simp [Node.insertSlot, upd_ne hne]
    rw [hlv]
    cases hv : nd.lv j with
    | empty => trivial
    | link m =>
      rw [hv] at this
      exact hdead m this
    | value v =>
      rw [hv] at this
      cases v with
      | word w => trivial
      | heap v => exact this.elim

end

/-- The members of a border that a change of its entries leaves alone. -/
def Node.head (nd : Node) := (nd.kind, nd.version, nd.parent, nd.prev, nd.next)

/-! ### Runs on one border -/

section
variable {s : State} {n : NodeId} {nd : Node}

theorem run_when_neg {α : Type} {c : Prop} [Decidable c] {p : M Unit} (h : ¬ c) (k : Unit → M α) :
    run (when c p >>= k) s = run (k ()) s := by
  rw [when, if_neg h]
  rfl

theorem run_when_pos {α : Type} {c : Prop} [Decidable c] {p : M Unit} (h : c) (k : Unit → M α) :
    run (when c p >>= k) s = run (p >>= k) s := by
  rw [when, if_pos h]

theorem run_incKeyNum (hn : s.node n = some nd) (hk : nd.kind = .border) (hc : getCnk nd.permutation < 15) :
    run (incKeyNum n) s = some ((), s.setNode n (nd.set .permutation (Permutation.incKeyNum nd.permutation))) := by
  rw [incKeyNum, run_load_permutation hn hk, run_when_neg (by simpa [keySliceLength] using hc),
    run_store hn (by simp [Field.admits, hk])]

theorem run_decKeyNum (hn : s.node n = some nd) (hk : nd.kind = .border) (hc : 0 < getCnk nd.permutation) :
    run (decKeyNum n) s = some ((), s.setNode n (nd.set .permutation (Permutation.decKeyNum nd.permutation))) := by
  rw [decKeyNum, run_load_permutation hn hk, run_when_neg (by omega), run_store hn (by simp [Field.admits, hk])]

theorem run_insertRank (hn : s.node n = some nd) (hk : nd.kind = .border) (rank pos : Nat) :
    run (insertRank n rank pos) s =
      some ((), s.setNode n (nd.set .permutation (Permutation.insert nd.permutation rank pos))) := by
  rw [insertRank, run_load_permutation hn hk, run_store hn (by simp [Field.admits, hk])]

theorem run_getEmptySlot (hn : s.node n = some nd) (hk : nd.kind = .border) (hc : getCnk nd.permutation < 15)
    (hb : ∀ i ∈ slotsOf nd.permutation, i < 15) :
    ∃ i, run (getEmptySlot n) s = some (i, s) ∧ i < 15 ∧ i ∉ slotsOf nd.permutation := by
  obtain ⟨i, hi, hlt, hnot, -⟩ := getEmptySlot_spec hc
  refine ⟨i, ?_, hlt, hnot⟩
  have hall : (slotsOf nd.permutation).all (fun j => decide (j < keySliceLength)) = true :=
    List.all_eq_true.mpr fun i hi => decide_eq_true (hb i hi)
  rw [getEmptySlot, run_load_permutation hn hk, if_pos hall, hi]
  rfl

/-- `set_value` on a slot that owns no block. -/
theorem run_setValue {pos : Nat} (hn : s.node n = some nd) (hk : nd.kind = .border) (hp : pos < 15)
    (hv : ∀ v, nd.lv pos ≠ .value (.heap v)) (new : ValuePtr) (keepOld : Bool) :
    run (setValue n pos new keepOld) s = some ((.value new, none), s.setNode n (nd.set (.lv pos) (.value new))) := by
  have hold : ∃ w, (nd.lv pos).getValue = .word w := by
    cases h : nd.lv pos with
    | empty => exact ⟨0, rfl⟩
    | link m => exact ⟨0, rfl⟩
    | value v =>
      cases v with
      | word w => exact ⟨w, rfl⟩
      | heap v => exact absurd h (hv v)
  obtain ⟨w, hw⟩ := hold
  rw [setValue, run_load_lv hn hk hp, hw, takeOldValue]
  simp only [Lib.Prog.pure_eq, Lib.Prog.ret_bind]
  rw [run_store_lv hn hk hp]
  rfl

/-- The end of `insert_lv_at`: the permutation. -/
theorem run_insertPerm {α : Type} (hn : s.node n = some nd) (hk : nd.kind = .border) (hc : getCnk nd.permutation < 15)
    (rank pos : Nat) (a : α) :
    run (incKeyNum n >>= fun _ => insertRank n rank pos >>= fun _ => .ret a) s =
      some (a, s.setNode n (nd.set .permutation (Permutation.insert (Permutation.incKeyNum nd.permutation) rank pos))) := by
  rw [run_bind_of (run_incKeyNum hn hk hc), run_bind_of (run_insertRank (State.setNode_node_same _ _ _) (by exact hk) _ _)]
  simp [Node.set]

/-- `insert_lv_at` of a key that ends in this layer. -/
theorem run_insertLvAt_value {fuel j index rank : Nat} {key : Key} {v : ValuePtr} (hn : s.node n = some nd)
    (hk : nd.kind = .border) (hc : getCnk nd.permutation < 15) (hi : index < 15)
    (hv : ∀ v, nd.lv index ≠ .value (.heap v)) (hlen : key.length ≤ 8) :
    run (insertLvAt fuel (j + 1) n index key v rank) s =
      some (.value v, s.setNode n (nd.insertSlot index rank (.ofKey key) (.value v))) := by
  have h8 : ¬ sliceSize < key.length := by simpa [sliceSize] using hlen
  rw [insertLvAt, if_neg h8]
  simp only [Lib.Prog.bind_assoc]
  rw [run_store_keySlice hn hi, run_store_keyLength (State.setNode_node_same _ _ _) hi,
    run_bind_of (run_setValue (State.setNode_node_same _ _ _) (by exact hk) hi (by exact hv) v false)]
  simp only [Lib.Prog.pure_eq, Lib.Prog.ret_bind]
  rw [run_insertPerm (State.setNode_node_same _ _ _) (by exact hk) (by exact hc)]
  simp [Node.insertSlot, Node.set, KeyTuple.ofKey, keyLength, h8]

/-! ### New layers -/

/-- The number of layers that a key needs below the one it starts in. -/
def layers (key : Key) : Nat := (key.length - 1) / 8

theorem layers_drop {key : Key} (h : 8 < key.length) : layers key = layers (key.drop 8) + 1 := by
  simp only [layers, List.length_drop]
  omega

theorem layers_eq_zero {key : Key} : layers key = 0 ↔ key.length ≤ 8 := by
  simp only [layers]
  omega

/-- The word of the slot of a key whose next layer, if it needs one, has the root `next`. -/
def lvOf (key : Key) (v : ValuePtr) (next : NodeId) : LinkOrValue := if key.length ≤ 8 then .value v else .link next

/-- A border as `init_border` leaves it before its first entry, as the root of a layer. -/
def Node.freshLayer (par : Ptr) : Node :=
  { Node.fresh .border with
    version := { Version.init with vinsertDelete := 1, root := true, border := true }
    parent := par }

theorem run_getEmptySlot_empty (hn : s.node n = some nd) (hk : nd.kind = .border) (hp : nd.permutation = 0) :
    run (getEmptySlot n) s = some (0, s) := by
  rw [getEmptySlot, run_load_permutation hn hk, hp]
  rfl

/-- `init_border` of a border that was just allocated. -/
theorem run_initBorderHead {fuel : Nat} (hn : s.node n = some (.fresh .border)) (hf : 0 < fuel) (root : Bool) :
    run (initBorderHead fuel n root) s = some (0, s.setNode n
      { Node.fresh .border with version := { Version.init with vinsertDelete := 1, root := root, border := true } }) := by
  rw [initBorderHead, initBorder]
  simp only [Lib.Prog.bind_assoc, setVersionRoot, setVersionBorder, atomicIncVinsert]
  rw [run_atomicUpdate_bind hn hf, run_atomicUpdate_bind (State.setNode_node_same _ _ _) hf,
    run_atomicUpdate_bind (State.setNode_node_same _ _ _) hf, run_atomicUpdate_bind (State.setNode_node_same _ _ _) hf]
  simp only [State.setNode_setNode, Node.mapVersion_mapVersion]
  rw [run_getEmptySlot_empty (State.setNode_node_same _ _ _) rfl rfl]
  rfl


/-- `insert_lv_at` on a border with a free slot: the border gets the entry, and the layers below it are
    made. -/
theorem run_insertLvAt {v : ValuePtr} : ∀ (L : Nat) {s : State} {n : NodeId} {nd : Node} {index rank : Nat} {key : Key},
    layers key = L → s.node n = some nd → n < s.nextNode → nd.kind = .border → getCnk nd.permutation < 15 → index < 15 →
    (∀ v, nd.lv index ≠ .value (.heap v)) →
    ∃ f, (∀ fuel j, 0 < fuel → L < j → run (insertLvAt fuel j n index key v rank) s =
        some (.value v, { s with node := f, nextNode := s.nextNode + layers key })) ∧
      f n = some (nd.insertSlot index rank (.ofKey key) (lvOf key v s.nextNode)) ∧
      (∀ m < s.nextNode, m ≠ n → f m = s.node m) ∧
      ∀ i < layers key, f (s.nextNode + i) = some
        ((Node.freshLayer (some (if i = 0 then n else s.nextNode + i - 1))).insertSlot 0 0 (.ofKey (key.drop (8 * (i + 1))))
          (lvOf (key.drop (8 * (i + 1))) v (s.nextNode + i + 1))) := by
  intro L
  induction L with
  | zero =>
    intro s n nd index rank key hL hn hlt hk hc hi hv
    have hlen := layers_eq_zero.mp hL
    refine ⟨(s.setNode n (nd.insertSlot index rank (.ofKey key) (.value v))).node, fun fuel j hf hj => ?_, ?_, ?_, ?_⟩
    · obtain ⟨j, rfl⟩ : ∃ i, j = i + 1 := ⟨j - 1, by omega⟩
      rw [run_insertLvAt_value hn hk hc hi hv hlen, hL]
      rfl
    · simp [lvOf, hlen]
    · intro m _ hm
      exact State.setNode_node_ne hm
    · omega
  | succ L ih =>
    intro s n nd index rank key hL hn hlt hk hc hi hv
    have hlen : ¬ key.length ≤ 8 := fun h => by
      have := layers_eq_zero.mpr h
      omega
    have h8 : sliceSize < key.length := by simpa [sliceSize] using hlen
    have hlay := layers_drop (by omega : 8 < key.length)
    have hne : n ≠ s.nextNode := Nat.ne_of_lt hlt
    let nd1 : Node := (nd.set (.keySlice index) (.ofKey key)).set (.keyLength index) (sliceSize + 1)
    -- The memory that the inner call starts from.
    let s1 : State := (s.setNode n nd1).alloc (Node.freshLayer none)
    have hs1 : s1.node s.nextNode = some (Node.freshLayer none) := State.alloc_node_same (s.setNode n nd1) _
    have hs1n : s1.node n = some nd1 := (State.alloc_node_ne (by exact hne)).trans (State.setNode_node_same _ _ _)
    obtain ⟨f, hrun, hfm, hframe, hlayers⟩ := @ih s1 s.nextNode _ 0 _ (key.drop 8)
      (by omega) hs1 (Nat.lt_succ_self _) rfl (by decide) (by decide) (by intro v; exact LinkOrValue.noConfusion)
    have hfn : f n = some nd1 := (hframe n (Nat.lt_succ_of_lt hlt) hne).trans hs1n
    refine ⟨fun x => if x = n then some (nd.insertSlot index rank (.ofKey key) (.link s.nextNode))
      else if x = s.nextNode then some ((Node.freshLayer (some n)).insertSlot 0 0 (.ofKey (key.drop 8))
        (lvOf (key.drop 8) v (s.nextNode + 1))) else f x, ?_, ?_, ?_, ?_⟩
    · intro fuel j hf hj
      obtain ⟨j, rfl⟩ : ∃ i, j = i + 1 := ⟨j - 1, by omega⟩
      rw [insertLvAt, if_pos h8]
      simp only [Lib.Prog.bind_assoc]
      rw [run_store_keySlice hn hi, run_store_keyLength (State.setNode_node_same _ _ _) hi, run_newNode,
        State.setNode_setNode, run_bind_of (run_initBorderHead (State.alloc_node_same _ _) hf true),
        State.alloc_setNode, run_bind_of (by exact hrun fuel j hf (by omega)),
        run_store_parent (by exact hfm : _ = some ((Node.freshLayer none).insertSlot 0 0 (.ofKey (key.drop 8))
          (lvOf (key.drop 8) v (s.nextNode + 1)))),
        run_store_lv ((State.setNode_node_ne (by exact hne)).trans (by exact hfn)) (by exact hk) hi]
      simp only [Lib.Prog.pure_eq, Lib.Prog.ret_bind]
      rw [run_insertPerm (State.setNode_node_same _ _ _) (by exact hk) (by exact hc), State.setNode_setNode]
      refine congrArg (fun t => some (LinkOrValue.value v, t)) (State.eq_of_node (fun x => ?_) ?_ rfl)
      · by_cases hxn : x = n
        · simp [hxn, State.setNode, Node.insertSlot, nd1, Node.set, KeyTuple.ofKey, keyLength, h8]
        · by_cases hxm : x = s.nextNode
          · subst hxm
            simp [hxn, State.setNode, Node.insertSlot, Node.set, Node.freshLayer]
          · simp [hxn, hxm, State.setNode]
      · simp only [State.setNode_nextNode, s1, State.alloc_nextNode, hlay]
        lia
    · simp [lvOf, hlen]
    · intro x hx hxn
      have hxm : x ≠ s.nextNode := Nat.ne_of_lt hx
      simp only [if_neg hxn, if_neg hxm]
      rw [hframe x (Nat.lt_succ_of_lt hx) hxm]
      exact (State.alloc_node_ne (by exact hxm)).trans (State.setNode_node_ne hxn)
    · intro i hi
      rcases Nat.eq_zero_or_pos i with rfl | hpos
      · simp [hne.symm]
      · obtain ⟨i, rfl⟩ : ∃ j, i = j + 1 := ⟨i - 1, by omega⟩
        have h := hlayers i (by omega)
        have hx : s.nextNode + (i + 1) = s.nextNode + 1 + i := by lia
        have h1 : s.nextNode + 1 + i ≠ n := by lia
        have h2 : s.nextNode + 1 + i ≠ s.nextNode := by lia
        simp only [hx, if_neg h1, if_neg h2]
        simp only [s1, State.alloc_nextNode, State.setNode_nextNode, List.drop_drop] at h
        have hd : 8 + 8 * (i + 1) = 8 * (i + 1 + 1) := by omega
        have hp : (if i = 0 then s.nextNode else s.nextNode + 1 + i - 1) = s.nextNode + 1 + i - 1 := by
          split <;> lia
        have hnx : s.nextNode + 1 + i = s.nextNode + (i + 1) := by lia
        rw [h, hd, hp, if_neg (by omega), hnx]

/-! ### The entry of a key -/

/-- The entry that `put` makes for a key. -/
def entryOf (key : Key) (v : ValuePtr) : Entry := ⟨.ofKey key, if key.length ≤ 8 then .value v else .layer⟩

/-- The roots of the next layers, when the layer behind the first slice of a long key has the root `m`. -/
def linkWith (link : KeySlice → Ptr) (key : Key) (m : NodeId) : KeySlice → Ptr :=
  fun sl => if 8 < key.length ∧ sl = .ofKey key then some m else link sl

/-- The layers below the border `p` that `insert_lv_at` made for a key, with the identities from `m` on. -/
def NewLayers (s : State) (m : NodeId) (key : Key) (v : ValuePtr) (p : NodeId) : Prop :=
  ∀ i < layers key, s.node (m + i) = some
    ((Node.freshLayer (some (if i = 0 then p else m + i - 1))).insertSlot 0 0 (.ofKey (key.drop (8 * (i + 1))))
      (lvOf (key.drop (8 * (i + 1))) v (m + i + 1)))

variable {link : KeySlice → Ptr} {dead : NodeId → Prop} {key : Key} {v : ValuePtr} {m : NodeId}

theorem entryOf_slot : (entryOf key v).slot (linkWith link key m) = (.ofKey key, lvOf key v m) := by
  by_cases h : key.length ≤ 8
  · simp [Entry.slot, entryOf, lvOf, h]
  · simp [Entry.slot, entryOf, lvOf, linkWith, h, KeyTuple.ofKey, Nat.lt_of_not_le h]

/-- The entries of other keys keep their slots. -/
theorem slot_linkWith {e : Entry} (hc : e.content = .layer ↔ e.key.length = 9) (hne : e.key ≠ .ofKey key) :
    e.slot (linkWith link key m) = e.slot link := by
  refine Entry.slot_congr fun hl => if_neg fun h => hne ?_
  have h9 := hc.mp hl
  obtain ⟨⟨slice, length⟩, content⟩ := e
  simp only at h9 h
  simp [KeyTuple.ofKey, h.2, h9, keyLength, sliceSize, h.1]

/-- The memory after a border got the entry of a key. -/
structure EntryInserted (link : KeySlice → Ptr) (dead : NodeId → Prop) (s s' : State) (n : NodeId) (nd nd' : Node)
    (lo hi : List Entry) (key : Key) (v : ValuePtr) : Prop where
  node : s'.node n = some nd'
  head : nd'.head = nd.head
  members : MembersOk (linkWith link key s.nextNode) dead nd' (.border (lo ++ entryOf key v :: hi))
  slots : ∀ i ∈ slotsOf nd.permutation, nd'.slot i = nd.slot i
  newLayers : NewLayers s' s.nextNode key v n
  frame : ∀ x < s.nextNode, x ≠ n → s'.node x = s.node x
  others : s'.others = s.others
  next : s'.nextNode = s.nextNode + layers key

/-- `get_empty_slot` and `insert_lv_at` on a border with room. -/
theorem run_insertEntry {lo hi : List Entry} (hn : s.node n = some nd) (hlt : n < s.nextNode)
    (hm : MembersOk link dead nd (.border (lo ++ hi))) (hroom : (lo ++ hi).length < 15) (hd : nd.version.deleted = false)
    (hc : ∀ e ∈ lo ++ hi, (e.content = .layer ↔ e.key.length = 9) ∧ e.key ≠ .ofKey key) :
    ∃ s' nd', (∀ fuel > layers key, run (do
        let slot ← getEmptySlot n
        insertLvAt fuel fuel n slot key v lo.length) s = some (.value v, s')) ∧
          EntryInserted link dead s s' n nd nd' lo hi key v := by
  have hcnk : getCnk nd.permutation = (lo ++ hi).length := by
    rw [← nd.slots_length, hm.2.2.2.2.2.1, List.length_map]
  obtain ⟨i, hslot, hi15, hfree⟩ := run_getEmptySlot hn hm.1 (by omega) hm.2.2.2.2.1
  have hun := hm.2.2.2.2.2.2 i hi15 hfree
  obtain ⟨f, hrun, hfn, hframe, hlayers⟩ := run_insertLvAt (v := v) (layers key) rfl hn hlt hm.1 (by omega)
    hi15 fun w hw => by
      rw [hw] at hun
      exact hun
  refine ⟨{ s with node := f, nextNode := s.nextNode + layers key }, _, fun fuel hf => ?_, hfn, rfl, ?_, ?_,
    hlayers, hframe,
    rfl, rfl⟩
  · rw [run_bind_of hslot]
    exact hrun fuel fuel (by omega) hf
  · have hrank : lo.length ≤ (lo ++ hi).length := by simp
    have := hm.insertSlot (e := entryOf key v) hd hrank hroom hi15 hfree (fun _ h => h)
      (fun e he => slot_linkWith (hc e he).1 (hc e he).2)
      (entryOf_slot (m := s.nextNode))
    rwa [Lib.insertIdx_append_length] at this
  · intro j hj
    refine Node.insertSlot_slot_ne ?_
    rintro rfl
    exact hfree hj

end
end Yakushima
