import Yakushima.Theorems.Split

/-! # Splits of borders

`border_split` moves the upper entries of a full border to a new border right after it, inserts the new
entry into one of the two and hands the new border to the parent. The roots of the layers behind the moved
entries get the new border as their parent. -/

namespace Yakushima
open M Permutation

/-! ### The moving loop -/

/-- A border without the entry of a rank; its slot is cleared. -/
def Node.dropSlot (nd : Node) (rank : Nat) : Node :=
  { nd with
    keySlice := upd nd.keySlice (getIndexOfRank nd.permutation rank) .zero
    keyLength := upd nd.keyLength (getIndexOfRank nd.permutation rank) 0
    lv := upd nd.lv (getIndexOfRank nd.permutation rank) .empty
    permutation := Permutation.decKeyNum (Permutation.deleteRank nd.permutation rank) }

/-- A border with one slot filled, whether live or not. -/
def Node.putSlot (nd : Node) (i : Nat) (x : KeyTuple × LinkOrValue) : Node :=
  { nd with
    keySlice := upd nd.keySlice i x.1.slice
    keyLength := upd nd.keyLength i x.1.length
    lv := upd nd.lv i x.2 }

/-- The memory in which the root of a moved layer is led to its new parent. -/
def State.adopt (s : State) (p : NodeId) : LinkOrValue → State
  | .link m => { s with node := fun x => if x = m then (s.node x).map (·.set .parent (some p)) else s.node x }
  | _ => s

section
variable {s : State} {b nb : NodeId} {bd nbd : Node}

theorem State.adopt_node_ne {p x : NodeId} {lv : LinkOrValue} (h : lv ≠ .link x) : (s.adopt p lv).node x = s.node x := by
  cases lv with
  | link m =>
    have hx : x ≠ m := fun hx => h (by rw [hx])
    simp [adopt, hx]
  | _ => rfl

theorem State.adopt_node_same {p x : NodeId} : (s.adopt p (.link x)).node x = (s.node x).map (·.set .parent (some p)) := by
  simp [adopt]

theorem State.adopt_others {p : NodeId} {lv : LinkOrValue} : (s.adopt p lv).others = s.others := by
  cases lv <;> rfl

theorem State.adopt_nextNode {p : NodeId} {lv : LinkOrValue} : (s.adopt p lv).nextNode = s.nextNode := by
  cases lv <;> rfl

theorem Node.putSlot_slot_same (nd : Node) (i : Nat) (x : KeyTuple × LinkOrValue) : (nd.putSlot i x).slot i = x := by
  simp [putSlot, slot, key]

theorem Node.putSlot_slot_ne {nd : Node} {i j : Nat} {x : KeyTuple × LinkOrValue} (h : j ≠ i) :
    (nd.putSlot i x).slot j = nd.slot j := by
  simp [putSlot, slot, key, upd_ne h]

theorem Node.dropSlot_slotsOf {nd : Node} {rank : Nat} (hr : rank < getCnk nd.permutation) :
    slotsOf (nd.dropSlot rank).permutation = (slotsOf nd.permutation).eraseIdx rank := slotsOf_delete hr

theorem Node.dropSlot_slot_ne {nd : Node} {rank j : Nat} (h : j ≠ getIndexOfRank nd.permutation rank) :
    (nd.dropSlot rank).slot j = nd.slot j := by
  simp [dropSlot, slot, key, upd_ne h]

theorem getIndexOfRank_mem {body rank : Nat} (hr : rank < getCnk body) : getIndexOfRank body rank ∈ slotsOf body :=
  List.mem_map.mpr ⟨rank, List.mem_range.mpr hr, rfl⟩

/-- The live slots without the one of a rank. -/
theorem Node.dropSlot_slots {nd : Node} {rank : Nat} (hr : rank < getCnk nd.permutation)
    (hnd : (slotsOf nd.permutation).Nodup) :
    (nd.dropSlot rank).slots = nd.slots.eraseIdx rank := by
  rw [slots, dropSlot_slotsOf hr, slots, List.eraseIdx_map]
  refine List.map_congr_left fun j hj => dropSlot_slot_ne ?_
  rintro rfl
  have hlen : rank < (slotsOf nd.permutation).length := by rwa [slotsOf_length]
  have hget : (slotsOf nd.permutation)[rank] = getIndexOfRank nd.permutation rank := by simp [slotsOf]
  have hmem :=
    (hnd.mem_erase_iff (a := getIndexOfRank nd.permutation rank) (b := getIndexOfRank nd.permutation rank)).not.mpr
    (by simp)
  rw [← hget, hnd.erase_getElem] at hmem
  exact hmem (hget ▸ hj)

/-- One round of the moving loop. -/
theorem run_moveEntry {i : Nat} (hb : s.node b = some bd) (hnb : s.node nb = some nbd) (hne : nb ≠ b)
    (hk : bd.kind = .border) (hk' : nbd.kind = .border) (hi : i < 15)
    (hr : 8 < getCnk bd.permutation) (hsrc : getIndexOfRank bd.permutation 8 < 15)
    (hl : ∀ m, bd.lv (getIndexOfRank bd.permutation 8) = .link m → m ≠ b ∧ m ≠ nb ∧ ∃ md, s.node m = some md) :
    run (moveEntry b nb i) s = some ((), ((s.adopt nb (bd.lv (getIndexOfRank bd.permutation 8))).setNode nb
      (nbd.putSlot i (bd.slot (getIndexOfRank bd.permutation 8)))).setNode b (bd.dropSlot 8)) := by
  have hr8 : remainingSize = 8 := rfl
  simp only [moveEntry, hr8]
  rw [run_load_permutation hb hk]
  generalize hsl : getIndexOfRank bd.permutation 8 = src at hsrc hl ⊢
  rw [run_load_keySlice hb hsrc, run_store_keySlice hnb hi,
    run_load_keyLength ((State.setNode_node_ne hne.symm).trans hb) hsrc,
    run_store_keyLength (State.setNode_node_same _ _ _) hi, State.setNode_setNode,
    run_load_lv ((State.setNode_node_ne hne.symm).trans hb) hk hsrc,
    run_store_lv (State.setNode_node_same _ _ _) (by exact hk') hi, State.setNode_setNode]
  -- The root of the layer behind the entry.
  refine (run_bind_of (?_ : _ = some ((), (s.adopt nb (bd.lv src)).setNode nb (nbd.putSlot i (bd.slot src)))) _).trans ?_
  · cases hlv : bd.lv src with
    | link m =>
      obtain ⟨hmb, hmn, md, hmd⟩ := hl m hlv
      simp only [LinkOrValue.getNextLayer]
      rw [run_store ((State.setNode_node_ne hmn).trans hmd) rfl]
      refine congrArg (fun t => some ((), t)) (State.eq_of_node (fun x => ?_) rfl rfl)
      by_cases hxm : x = m
      · subst hxm
        rw [State.setNode_node_same, State.setNode_node_ne hmn, State.adopt_node_same, hmd]
        rfl
      · rw [State.setNode_node_ne hxm]
        by_cases hxn : x = nb
        · subst hxn
          simp [Node.putSlot, Node.set, Node.slot, Node.key, hlv]
        · rw [State.setNode_node_ne hxn, State.setNode_node_ne hxn,
            State.adopt_node_ne (by simpa using fun h => hxm h.symm)]
    | empty => simp [LinkOrValue.getNextLayer, State.adopt, Node.putSlot, Node.set, Node.slot, Node.key, hlv]
    | value v => simp [LinkOrValue.getNextLayer, State.adopt, Node.putSlot, Node.set, Node.slot, Node.key, hlv]
  · have hb' : ((s.adopt nb (bd.lv src)).setNode nb (nbd.putSlot i (bd.slot src))).node b = some bd := by
      rw [State.setNode_node_ne hne.symm, State.adopt_node_ne fun h => (hl b h).1 rfl, hb]
    simp only [initBorderAt, setKey, deleteRank, Lib.Prog.bind_assoc]
    rw [run_store_keySlice hb' hsrc, run_store_keyLength (State.setNode_node_same _ _ _) hsrc,
      run_store_lv (State.setNode_node_same _ _ _) (by exact hk) hsrc,
      run_load_permutation (State.setNode_node_same _ _ _) (by exact hk),
      run_store_permutation (State.setNode_node_same _ _ _) (by exact hk),
      run_decKeyNum (State.setNode_node_same _ _ _) (by exact hk)
        (Nat.lt_of_lt_of_eq (Nat.zero_lt_of_lt hr) (getCnk_deleteRank hr).symm)]
    simp [Node.dropSlot, Node.set, hsl]

/-- The memory after the entries `rs` went from `b` to the slots from `j` on of `nb`. -/
structure EntriesMoved (s s' : State) (b nb : NodeId) (bd nbd bd' nbd' : Node) (j : Nat)
    (low rs : List (KeyTuple × LinkOrValue)) : Prop where
  left : s'.node b = some bd'
  right : s'.node nb = some nbd'
  leftHead : bd'.head = bd.head
  rightHead : nbd'.head = nbd.head
  leftSlotsOf : slotsOf bd'.permutation = (slotsOf bd.permutation).take low.length
  leftSlots : bd'.slots = low
  leftFree : ∀ i ∉ slotsOf bd'.permutation, bd'.lv i = .empty ∨ i ∉ slotsOf bd.permutation ∧ bd'.lv i = bd.lv i
  rightPermutation : nbd'.permutation = nbd.permutation
  rightSlots : ∀ i x, rs[i]? = some x → nbd'.slot (j + i) = x
  rightOthers : ∀ i, i < j ∨ j + rs.length ≤ i → nbd'.slot i = nbd.slot i
  moved : ∀ x, x ≠ b → x ≠ nb → (∃ y ∈ rs, y.2 = .link x) → s'.node x = (s.node x).map (·.set .parent (some nb))
  frame : ∀ x, x ≠ b → x ≠ nb → (∀ y ∈ rs, y.2 ≠ .link x) → s'.node x = s.node x
  others : s'.others = s.others
  next : s'.nextNode = s.nextNode

/-- The moving loop. -/
theorem run_moveEntries (hne : nb ≠ b) {low : List (KeyTuple × LinkOrValue)} (hlow : low.length = 8) :
    ∀ (rs : List (KeyTuple × LinkOrValue)) {s : State} {bd nbd : Node} {j : Nat}, s.node b = some bd →
      s.node nb = some nbd →
    bd.kind = .border → nbd.kind = .border → (slotsOf bd.permutation).Nodup → (∀ i ∈ slotsOf bd.permutation, i < 15) →
    bd.slots = low ++ rs → j + rs.length ≤ 15 →
    (∀ x ∈ rs, ∀ m, x.2 = .link m → m ≠ b ∧ m ≠ nb ∧ ∃ md, s.node m = some md) →
    ∃ s' bd' nbd', run (forEach (moveEntry b nb) (List.range' j rs.length)) s = some ((), s') ∧
      EntriesMoved s s' b nb bd nbd bd' nbd' j low rs := by
  intro rs
  induction rs with
  | nil =>
    intro s bd nbd j hb hnb hk hk' hnd hlt hslots hj hl
    have hlen : (slotsOf bd.permutation).length = low.length := by
      have := congrArg List.length hslots
      simpa [Node.slots] using this
    refine ⟨s, bd, nbd, rfl, hb, hnb, rfl, rfl, ?_, by simpa using hslots, fun i hi => Or.inr ⟨hi, rfl⟩, rfl, by simp,
      fun _ _ => rfl, fun x _ _ hx => absurd hx (by simp), fun x _ _ _ => rfl, rfl, rfl⟩
    rw [← hlen, List.take_length]
  | cons x rs ih =>
    intro s bd nbd j hb hnb hk hk' hnd hlt hslots hj hl
    have hcnk : getCnk bd.permutation = 9 + rs.length := by
      have := congrArg List.length hslots
      rw [Node.slots_length, List.length_append, List.length_cons, hlow] at this
      omega
    have hr : 8 < getCnk bd.permutation := by omega
    -- The entry of rank 8 is the first of those to move.
    have hx : bd.slot (getIndexOfRank bd.permutation 8) = x := by
      have h8 : bd.slots[8]? = some x := by rw [hslots, List.getElem?_append_right (by omega), hlow]; rfl
      rw [Node.slots, List.getElem?_map, slotsOf_getElem?, if_pos hr, ← getIndexOfRank_eq] at h8
      simpa using h8
    have hxlv : bd.lv (getIndexOfRank bd.permutation 8) = x.2 := congrArg Prod.snd hx
    have hstep := run_moveEntry (i := j) hb hnb hne hk hk' (by rw [List.length_cons] at hj; omega) hr
      (hlt _ (getIndexOfRank_mem hr)) (fun m hm => hl x List.mem_cons_self m (hxlv ▸ hm))
    rw [hx, hxlv] at hstep
    generalize hs1 : ((s.adopt nb x.2).setNode nb (nbd.putSlot j x)).setNode b (bd.dropSlot 8) = s1 at hstep
    have hso := Node.dropSlot_slotsOf hr
    have hsub : ∀ i ∈ slotsOf (bd.dropSlot 8).permutation, i ∈ slotsOf bd.permutation := by
      intro i hi
      rw [hso] at hi
      exact List.mem_of_mem_eraseIdx hi
    have hb1 : s1.node b = some (bd.dropSlot 8) := by rw [← hs1, State.setNode_node_same]
    have hnb1 : s1.node nb = some (nbd.putSlot j x) := by rw [← hs1, State.setNode_node_ne hne, State.setNode_node_same]
    have hother : ∀ y, y ≠ b → y ≠ nb → s1.node y = (s.adopt nb x.2).node y := by
      intro y h1 h2
      rw [← hs1, State.setNode_node_ne h1, State.setNode_node_ne h2]
    obtain ⟨s', bd', nbd', hrun, h⟩ := ih (s := s1) (j := j + 1) hb1 hnb1 hk hk'
      (by rw [hso]; exact hnd.eraseIdx 8) (fun i hi => hlt i (hsub i hi))
      (by
        rw [Node.dropSlot_slots hr hnd, hslots, List.eraseIdx_append_of_length_le (by omega), hlow]
        rfl)
      (by rw [List.length_cons] at hj; omega)
      (fun y hy m hm => by
        obtain ⟨h1, h2, md, hmd⟩ := hl y (List.mem_cons_of_mem _ hy) m hm
        refine ⟨h1, h2, ?_⟩
        rw [hother m h1 h2]
        by_cases hxm : x.2 = .link m
        · rw [hxm, State.adopt_node_same, hmd]
          exact ⟨_, rfl⟩
        · exact ⟨md, (State.adopt_node_ne hxm).trans hmd⟩)
    refine ⟨s', bd', nbd', ?_, h.left, h.right, h.leftHead, h.rightHead, ?_, h.leftSlots, ?_, h.rightPermutation,
      ?_, ?_, ?_, ?_,
      ?_, ?_⟩
    · rw [List.length_cons, List.range'_succ, forEach, run_bind_of hstep]
      exact hrun
    · rw [h.leftSlotsOf, hso, hlow]
      exact List.take_eraseIdx_eq_take_of_le _ _ _ (Nat.le_refl 8)
    · intro i hi
      rcases h.leftFree i hi with he | ⟨hni, he⟩
      · exact Or.inl he
      · by_cases hsrc : i = getIndexOfRank bd.permutation 8
        · left
          rw [he, hsrc]
          simp [Node.dropSlot]
        · refine Or.inr ⟨fun hmem => hni ?_, he.trans (by simp [Node.dropSlot, upd_ne hsrc])⟩
          rw [hso, List.mem_eraseIdx_iff_getElem?]
          obtain ⟨r, hr', rfl⟩ := List.mem_map.mp hmem
          refine ⟨r, fun he => hsrc (by rw [he]), ?_⟩
          rw [slotsOf_getElem?, if_pos (List.mem_range.mp hr'), getIndexOfRank_eq]
    · intro i y hy
      cases i with
      | zero =>
        obtain rfl : x = y := by simpa using hy
        rw [Nat.add_zero, h.rightOthers j (Or.inl (Nat.lt_succ_self j)), Node.putSlot_slot_same]
      | succ i =>
        have := h.rightSlots i y (by simpa using hy)
        rwa [Nat.add_assoc, Nat.add_comm 1 i] at this
    · intro i hi
      rw [List.length_cons] at hi
      rw [h.rightOthers i (by omega), Node.putSlot_slot_ne (by omega)]
    · rintro y h1 h2 ⟨z, hz, hzy⟩
      have hmap : ∀ o : Option Node, (o.map (·.set .parent (some nb))).map (·.set .parent (some nb)) =
          o.map (·.set .parent (some nb)) := by
        intro o
        cases o <;> rfl
      by_cases hrs : ∃ w ∈ rs, w.2 = .link y
      · rw [h.moved y h1 h2 hrs, hother y h1 h2]
        by_cases hxy : x.2 = .link y
        · rw [hxy, State.adopt_node_same, hmap]
        · rw [State.adopt_node_ne hxy]
      · have hnot : ∀ w ∈ rs, w.2 ≠ .link y := fun w hw he => hrs ⟨w, hw, he⟩
        have hxy : x.2 = .link y := by
          rcases List.mem_cons.mp hz with rfl | hz
          · exact hzy
          · exact absurd hzy (hnot z hz)
        rw [h.frame y h1 h2 hnot, hother y h1 h2, hxy, State.adopt_node_same]
    · intro y h1 h2 hy
      rw [h.frame y h1 h2 fun w hw => hy w (List.mem_cons_of_mem _ hw), hother y h1 h2,
        State.adopt_node_ne (hy x List.mem_cons_self)]
    · rw [h.others, ← hs1]
      exact State.adopt_others
    · rw [h.next, ← hs1]
      exact State.adopt_nextNode

/-! ### The two halves -/

/-- A node has the parent of the layer behind one of the entries. -/
def LinksTo (link : KeySlice → Ptr) (es : List Entry) (x : NodeId) : Prop := ∃ e ∈ es, (e.slot link).2 = .link x

/-- The memory after the upper entries of the full border `b` went to a new border. -/
structure BorderHalved (link : KeySlice → Ptr) (dead : NodeId → Prop) (s s' : State) (b : NodeId) (es : List Entry)
    (bd bd' nbd : Node) : Prop where
  left : s'.node b = some bd'
  right : s'.node s.nextNode = some nbd
  leftMembers : MembersOk link dead bd' (.border (es.take 8))
  rightMembers : MembersOk link dead nbd (.border (es.drop 8))
  leftHead : bd'.head = (bd.kind, .setSplitting true bd.version, bd.parent, bd.prev, some s.nextNode)
  rightHead : nbd.head = (bd.kind, .setSplitting true bd.version, none, some b, bd.next)
  rightSlots : slotsOf nbd.permutation = List.range 7
  sibling : ∀ x, bd.next = some x → s'.node x = (s.node x).map (·.set .prev (some s.nextNode))
  moved : ∀ x, LinksTo link (es.drop 8) x → s'.node x = (s.node x).map (·.set .parent (some s.nextNode))
  frame : ∀ x, x ≠ b → x ≠ s.nextNode → bd.next ≠ some x → ¬ LinksTo link (es.drop 8) x → s'.node x = s.node x
  others : s'.others = s.others
  next : s'.nextNode = s.nextNode + 1

variable {link : KeySlice → Ptr} {dead : NodeId → Prop}

/-- A border that is split, before its entries move. -/
def Node.splitting (bd : Node) (nb : NodeId) : Node := (bd.mapVersion (.setSplitting true)).set .next (some nb)

/-- The new border behind `b`, before the entries move. -/
def Node.sibling (bd : Node) (b : NodeId) : Node :=
  (((Node.fresh .border).set .next bd.next).set .prev (some b)).set .version (.setSplitting true bd.version)

/-- The memory with an empty new border behind `b`. -/
def State.withSibling (s : State) (b : NodeId) (bd : Node) : State :=
  ((s.setNode b (bd.splitting s.nextNode)).alloc (bd.sibling b)).setPrevAt bd.next (some s.nextNode)

section
variable (hlt : b < s.nextNode)
  (hnext : ∀ x, bd.next = some x → x ≠ b ∧ x < s.nextNode ∧ ∃ xd, s.node x = some xd ∧ xd.kind = .border)
include hlt hnext

theorem State.withSibling_left : (s.withSibling b bd).node b = some (bd.splitting s.nextNode) := by
  rw [withSibling, setPrevAt_node_ne fun h => (hnext b h).1 rfl]
  exact (alloc_node_ne (by exact Nat.ne_of_lt hlt)).trans (setNode_node_same _ _ _)

omit hlt in
theorem State.withSibling_right : (s.withSibling b bd).node s.nextNode = some (bd.sibling b) := by
  rw [withSibling, setPrevAt_node_ne fun h => Nat.lt_irrefl _ (hnext _ h).2.1]
  exact alloc_node_same _ _

omit hlt hnext in
theorem State.withSibling_frame {x : NodeId} (h1 : x ≠ b) (h2 : x ≠ s.nextNode) (h3 : bd.next ≠ some x) :
    (s.withSibling b bd).node x = s.node x := by
  rw [withSibling, setPrevAt_node_ne h3]
  exact (alloc_node_ne (by exact h2)).trans (setNode_node_ne h1)

omit hlt in
theorem State.withSibling_next {x : NodeId} (hx : bd.next = some x) :
    (s.withSibling b bd).node x = (s.node x).map (·.set .prev (some s.nextNode)) := by
  obtain ⟨h1, h2, -⟩ := hnext x hx
  rw [withSibling, hx, setPrevAt_node_same]
  exact congrArg (Option.map _) ((alloc_node_ne (by exact Nat.ne_of_lt h2)).trans (setNode_node_ne h1))

/-- `border_split` up to its moving loop. -/
theorem run_borderSplitMove_head {fuel : Nat} (hb : s.node b = some bd) (hk : bd.kind = .border) (hf : 0 < fuel) :
    run (borderSplitMove fuel b) s = run (do
      forEach (moveEntry b s.nextNode) (List.range (keySliceLength - remainingSize))
      store s.nextNode .permutation (Permutation.splitDest (keySliceLength - remainingSize))
      pure s.nextNode) (s.withSibling b bd) := by
  have hbn : b ≠ s.nextNode := Nat.ne_of_lt hlt
  rw [borderSplitMove, setVersionSplitting, run_atomicUpdate_bind hb hf, run_newNode, initBorder]
  simp only [Lib.Prog.bind_assoc, setVersionRoot, setVersionBorder]
  have hne : b ≠ (s.setNode b (bd.mapVersion (.setSplitting true))).nextNode := hbn
  rw [run_atomicUpdate_bind (State.alloc_node_same _ _) hf, State.alloc_setNode,
    run_atomicUpdate_bind (State.alloc_node_same _ _) hf, State.alloc_setNode,
    run_load_next ((State.alloc_node_ne hne).trans (State.setNode_node_same _ _ _)) hk,
    run_store_next (State.alloc_node_same _ _) rfl, State.alloc_setNode,
    run_store_prev (State.alloc_node_same _ _) rfl, State.alloc_setNode,
    run_getBody_bind ((State.alloc_node_ne hne).trans (State.setNode_node_same _ _ _)),
    run_store_version (State.alloc_node_same _ _), State.alloc_setNode,
    run_store_next ((State.alloc_node_ne hne).trans (State.setNode_node_same _ _ _)) hk]
  have hstate : ((s.setNode b (bd.mapVersion (.setSplitting true))).alloc (bd.sibling b)).setNode b
      (bd.splitting s.nextNode) = (s.setNode b (bd.splitting s.nextNode)).alloc (bd.sibling b) := by
    refine State.eq_of_node (fun x => ?_) rfl rfl
    by_cases hxb : x = b
    · subst hxb
      rw [State.setNode_node_same]
      exact ((State.alloc_node_ne (by exact hbn)).trans (State.setNode_node_same _ _ _)).symm
    · rw [State.setNode_node_ne hxb]
      by_cases hxm : x = s.nextNode
      · subst hxm
        exact (State.alloc_node_same _ _).trans (State.alloc_node_same (s.setNode b _) _).symm
      · rw [State.alloc_node_ne (by exact hxm), State.setNode_node_ne hxb]
        exact ((State.alloc_node_ne (by exact hxm)).trans (State.setNode_node_ne hxb)).symm
  refine Eq.trans (congrArg (run _) hstate) (run_bind_of (run_setPrevAt fun y hy => ?_) _)
  obtain ⟨h1, h2, xd, hx, hkx⟩ := hnext y hy
  exact ⟨xd, (State.alloc_node_ne (by exact Nat.ne_of_lt h2)).trans ((State.setNode_node_ne h1).trans hx), hkx⟩

end

section
variable {es : List Entry} {s₁ s' : State} {nb : NodeId} {bd' nbd' : Node}
  (hm : MembersOk link dead bd (.border es)) (hlen : es.length = 15)
  (h : EntriesMoved s₁ s' b nb (bd.splitting nb) (bd.sibling b) bd' nbd' 0 ((es.take 8).map (Entry.slot link))
    ((es.drop 8).map (Entry.slot link)))
include hm hlen h

/-- The old border keeps the lower entries. -/
theorem EntriesMoved.leftMembers : MembersOk link dead bd' (.border (es.take 8)) := by
  obtain ⟨hk, hborder, hdel, hnd, hbound, hslots, hfree⟩ := hm
  have hleft := h.leftHead
  simp only [Node.head, Prod.mk.injEq] at hleft
  have hlow : ((es.take 8).map (Entry.slot link)).length = 8 := by simp [hlen]
  have hof : slotsOf bd'.permutation = (slotsOf bd.permutation).take 8 := hlow ▸ h.leftSlotsOf
  refine ⟨hleft.1.trans hk, ?_, fun _ => ?_, ?_, fun i hi => ?_, h.leftSlots, fun i hi hni => ?_⟩
  · rw [hleft.2.1]
    exact hborder
  · rw [hleft.2.1]
    exact hdel fun he => by simp [he] at hlen
  · rw [hof]
    exact hnd.sublist (List.take_sublist _ _)
  · rw [hof] at hi
    exact hbound i (List.mem_of_mem_take hi)
  · rcases h.leftFree i hni with he | ⟨hni', he⟩
    · rw [he]
      trivial
    · rw [he]
      exact hfree i hi hni'

/-- The new border has the upper ones. -/
theorem EntriesMoved.rightMembers :
    MembersOk link dead (nbd'.set .permutation (splitDest 7)) (.border (es.drop 8)) := by
  obtain ⟨-, hborder, hdel, -⟩ := hm
  have hright := h.rightHead
  simp only [Node.head, Prod.mk.injEq] at hright
  have hrs : ((es.drop 8).map (Entry.slot link)).length = 7 := by simp [hlen]
  have hso := slotsOf_splitDest (n := 7) (by omega)
  refine ⟨hright.1, ?_, fun _ => ?_, hso ▸ List.nodup_range, fun i hi => ?_, ?_, fun i hi hni => ?_⟩
  · exact (congrArg Version.border hright.2.1).trans hborder
  · exact (congrArg Version.deleted hright.2.1).trans (hdel fun he => by simp [he] at hlen)
  · have := List.mem_range.mp (hso ▸ hi)
    omega
  · refine (congrArg (List.map _) hso).trans (List.ext_getElem? fun i => ?_)
    rw [List.getElem?_map]
    by_cases hi : i < 7
    · obtain ⟨y, hy⟩ : ∃ y, ((es.drop 8).map (Entry.slot link))[i]? = some y :=
        ⟨_, List.getElem?_eq_getElem (by rw [hrs]; exact hi)⟩
      rw [List.getElem?_range hi, hy]
      have := h.rightSlots i y hy
      rw [Nat.zero_add] at this
      exact congrArg some this
    · rw [List.getElem?_eq_none (by simpa using hi), List.getElem?_eq_none (by rw [hrs]; omega)]
      rfl
  · have hi7 : 7 ≤ i := Nat.not_lt.mp fun hlt => hni (hso ▸ List.mem_range.mpr hlt)
    have hlv : nbd'.lv i = .empty := congrArg Prod.snd (h.rightOthers i (Or.inr (by rw [hrs]; omega)))
    simp only [Node.set, hlv]
    trivial

end

/-- The first part of `border_split`. -/
theorem run_borderSplitMove {es : List Entry} (hb : s.node b = some bd) (hlt : b < s.nextNode)
    (hm : MembersOk link dead bd (.border es)) (hlen : es.length = 15)
    (hnext : ∀ x, bd.next = some x → x ≠ b ∧ x < s.nextNode ∧ ∃ xd, s.node x = some xd ∧ xd.kind = .border)
    (hl : ∀ m, LinksTo link (es.drop 8) m → m ≠ b ∧ m < s.nextNode ∧ bd.next ≠ some m ∧ ∃ md, s.node m = some md) :
    ∃ s' bd' nbd, (∀ fuel > 0, run (borderSplitMove fuel b) s = some (s.nextNode, s')) ∧
      BorderHalved link dead s s' b es bd bd' nbd := by
  obtain ⟨hk, hborder, hdel, hnd, hbound, hslots, hfree⟩ := id hm
  have hbn : b ≠ s.nextNode := Nat.ne_of_lt hlt
  have hlow : ((es.take 8).map (Entry.slot link)).length = 8 := by simp [hlen]
  have hrs : ((es.drop 8).map (Entry.slot link)).length = 7 := by simp [hlen]
  have hslots1 : (bd.splitting s.nextNode).slots =
      (es.take 8).map (Entry.slot link) ++ (es.drop 8).map (Entry.slot link) := by
    rw [← List.map_append, List.take_append_drop]
    exact hslots
  have hlinks : ∀ x, (∃ y ∈ (es.drop 8).map (Entry.slot link), y.2 = .link x) ↔ LinksTo link (es.drop 8) x := by
    intro x
    simp only [LinksTo, List.mem_map, exists_exists_and_eq_and]
  obtain ⟨s3, bd', nbd', hrun, h⟩ := run_moveEntries hbn.symm hlow _ (j := 0) (State.withSibling_left hlt hnext)
    (State.withSibling_right hnext) hk rfl hnd hbound hslots1 (by omega) (fun x hx m hxm => by
      obtain ⟨h1, h2, h3, md, hmd⟩ := hl m ((hlinks m).mp ⟨x, hx, hxm⟩)
      exact ⟨h1, Nat.ne_of_lt h2, md, (State.withSibling_frame h1 (Nat.ne_of_lt h2) h3).trans hmd⟩)
  refine ⟨s3.setNode s.nextNode (nbd'.set .permutation (splitDest 7)), bd', nbd'.set .permutation (splitDest 7),
    fun fuel hf => ?_, ⟨(State.setNode_node_ne hbn).trans h.left, State.setNode_node_same _ _ _, h.leftMembers hm hlen,
      h.rightMembers hm hlen, h.leftHead, h.rightHead.trans (by rw [hk]; rfl), slotsOf_splitDest (by omega),
      fun x hx => ?_, fun x hx => ?_, fun x h1 h2 h3 h4 => ?_, h.others, h.next⟩⟩
  · rw [run_borderSplitMove_head hlt hnext hb hk hf]
    rw [hrs, ← List.range_eq_range'] at hrun
    refine (run_bind_of (by exact hrun) _).trans ?_
    exact run_store_permutation h.right (congrArg Prod.fst h.rightHead) _ _
  · have hnl : ∀ y ∈ (es.drop 8).map (Entry.slot link), y.2 ≠ .link x := fun y hy he =>
      (hl x ((hlinks x).mp ⟨y, hy, he⟩)).2.2.1 hx
    obtain ⟨h1, h2, -⟩ := hnext x hx
    rw [State.setNode_node_ne (Nat.ne_of_lt h2), h.frame x h1 (Nat.ne_of_lt h2) hnl, State.withSibling_next hnext hx]
  · obtain ⟨h1, h2, h3, -⟩ := hl x hx
    rw [State.setNode_node_ne (Nat.ne_of_lt h2), h.moved x h1 (Nat.ne_of_lt h2) ((hlinks x).mpr hx),
      State.withSibling_frame h1 (Nat.ne_of_lt h2) h3]
  · rw [State.setNode_node_ne h2, h.frame x h1 h2 (fun y hy he => h4 ((hlinks x).mp ⟨y, hy, he⟩)),
      State.withSibling_frame h1 h2 h3]

/-- The memory after the split of a full border, with the entry of the key in one of the two halves. -/
structure BorderHalves (link : KeySlice → Ptr) (dead : NodeId → Prop) (s s' : State) (b : NodeId) (es lo hi : List Entry)
    (bd ld rd : Node) (key : Key) (v : ValuePtr) (target : NodeId) : Prop where
  left : s'.node b = some ld
  right : s'.node s.nextNode = some rd
  leftMembers : MembersOk (linkWith link key (s.nextNode + 1)) dead ld (.border lo)
  rightMembers : MembersOk (linkWith link key (s.nextNode + 1)) dead rd (.border hi)
  leftHead : ld.head = (bd.kind, .setSplitting true bd.version, bd.parent, bd.prev, some s.nextNode)
  rightHead : rd.head = (bd.kind, .setSplitting true bd.version, none, some b, bd.next)
  pivot : ∃ e, hi.head? = some e ∧ rd.key 0 = e.key
  newEntry : target = b ∧ entryOf key v ∈ lo ∨ target = s.nextNode ∧ entryOf key v ∈ hi
  keptLeft : ∀ e ∈ lo, e = entryOf key v ∨ e ∈ es.take 8
  keptRight : ∀ e ∈ hi, e = entryOf key v ∨ e ∈ es.drop 8
  newLayers : NewLayers s' (s.nextNode + 1) key v target
  sibling : ∀ x, bd.next = some x → s'.node x = (s.node x).map (·.set .prev (some s.nextNode))
  moved : ∀ x, LinksTo link (es.drop 8) x → s'.node x = (s.node x).map (·.set .parent (some s.nextNode))
  frame : ∀ x, x ≠ b → x < s.nextNode → bd.next ≠ some x → ¬ LinksTo link (es.drop 8) x → s'.node x = s.node x
  others : s'.others = s.others
  next : s'.nextNode = s.nextNode + 1 + layers key

/-- A key of length 0 comes before all others. -/
theorem length_ne_zero_of_lt {k k' : KeyTuple} (hk : k.Encoded) (h : k'.code < k.code) : k.length ≠ 0 := by
  intro h0
  have hp := hk.padded
  rw [h0, List.drop_zero] at hp
  simp only [KeyTuple.code, KeySlice.num, h0, hp] at h
  omega

/-- A border in two halves, with a place for the entry of a key between `lo` and `hi`. -/
structure HalvedPlace (link : KeySlice → Ptr) (dead : NodeId → Prop) (s s₁ : State) (b : NodeId) (lo hi : List Entry)
    (bd bd' nbd : Node) (key : Key) : Prop where
  halved : BorderHalved link dead s s₁ b (lo ++ hi) bd bd' nbd
  lt : b < s.nextNode
  full : (lo ++ hi).length = 15
  ok : ∀ e ∈ lo ++ hi, e.key.Encoded ∧ (e.content = .layer ↔ e.key.length = 9)
  sorted : ((lo ++ hi).map Entry.mark).Pairwise (· < ·)
  low : ∀ e ∈ lo, e.key.code < (KeyTuple.ofKey key).code
  high : ∀ e ∈ hi, (KeyTuple.ofKey key).code < e.key.code
  live : bd.version.deleted = false
  next : ∀ x, bd.next = some x → x ≠ b ∧ x < s.nextNode
  links : ∀ m, LinksTo link ((lo ++ hi).drop 8) m → m ≠ b ∧ m < s.nextNode

namespace HalvedPlace
variable {s₁ : State} {lo hi : List Entry} {bd' : Node} {key : Key} {v : ValuePtr} {front : Entry}
  (h : HalvedPlace link dead s s₁ b lo hi bd bd' nbd key)
include h

theorem entry {e : Entry} (he : e ∈ lo ++ hi) : (e.content = .layer ↔ e.key.length = 9) ∧ e.key ≠ .ofKey key := by
  refine ⟨(h.ok e he).2, fun heq => ?_⟩
  rcases List.mem_append.mp he with he | he
  · exact absurd (h.low e he) (by rw [heq]; exact Nat.lt_irrefl _)
  · exact absurd (h.high e he) (by rw [heq]; exact Nat.lt_irrefl _)

/-- A half without the new entry. -/
theorem keep {nd : Node} {l : List Entry} (hsub : ∀ e ∈ l, e ∈ lo ++ hi) (hm : MembersOk link dead nd (.border l)) :
    MembersOk (linkWith link key (s.nextNode + 1)) dead nd (.border l) := by
  refine hm.mono (fun _ h => h) ?_
  rintro sl ⟨e, he, rfl, hc⟩
  obtain ⟨hc9, hk⟩ := h.entry (hsub e he)
  refine if_neg fun hlong => hk ?_
  have h9 := hc9.mp hc
  obtain ⟨⟨slice, length⟩, content⟩ := e
  simp only at h9 hlong
  simp [KeyTuple.ofKey, hlong.2, h9, keyLength_of_gt hlong.1]

/-- The slot 0 of the new border holds its first entry. -/
theorem key_front (hfront : (lo ++ hi)[8]? = some front) : nbd.key 0 = front.key := by
  have hsl : nbd.slots[0]? = some (front.slot link) := by
    rw [h.halved.rightMembers.2.2.2.2.2.1, List.getElem?_map, List.getElem?_drop, hfront]
    rfl
  rw [Node.slots, h.halved.rightSlots, List.getElem?_map] at hsl
  have hsl' : nbd.slot 0 = front.slot link := by simpa using hsl
  exact congrArg Prod.fst hsl'

theorem front_length (hfront : (lo ++ hi)[8]? = some front) : front.key.length ≠ 0 := by
  have hfull := h.full
  have hs := h.sorted
  rw [List.pairwise_map, List.pairwise_iff_getElem] at hs
  have h08 := hs 0 8 (by omega) (by omega) (by omega)
  have h8 : (lo ++ hi)[8] = front := by
    rw [List.getElem?_eq_getElem (by omega)] at hfront
    exact Option.some.inj hfront
  rw [h8] at h08
  simp only [Entry.mark] at h08
  exact length_ne_zero_of_lt (h.ok front (List.mem_of_getElem? hfront)).1 (by omega : (lo ++ hi)[0].key.code < _)

/-- The rank agrees with the comparison with the first entry. -/
theorem rank_iff (hfront : (lo ++ hi)[8]? = some front) : front.key.code < (KeyTuple.ofKey key).code ↔ 8 < lo.length := by
  constructor
  · intro hlt
    by_contra hle
    rw [List.getElem?_append_right (by omega)] at hfront
    exact absurd (h.high front (List.mem_of_getElem? hfront)) (by omega)
  · intro hlt
    rw [List.getElem?_append_left hlt] at hfront
    exact h.low front (List.mem_of_getElem? hfront)

theorem run_eq (hfront : (lo ++ hi)[8]? = some front) (fuel : Nat) :
    run (borderSplitInsert fuel b s.nextNode key v lo.length) s₁ =
      run (if (KeyTuple.ofKey key).code < front.key.code then do
          let slot ← getEmptySlot b
          insertLvAt fuel fuel b slot key v lo.length
        else do
          let slot ← getEmptySlot s.nextNode
          insertLvAt fuel fuel s.nextNode slot key v (lo.length - remainingSize)) s₁ := by
  have hmem := List.mem_of_getElem? hfront
  have hcode : (KeyTuple.ofKey key).code ≠ front.key.code := fun heq =>
    (h.entry hmem).2 (KeyTuple.code_inj (h.ok front hmem).1.length_le (KeyTuple.ofKey_encoded key).length_le heq.symm)
  have hgoes := KeyTuple.goesLower_iff (KeyTuple.ofKey_encoded key) (h.ok front hmem).1 hcode (h.front_length hfront)
    fun hlt => Nat.le_of_lt ((h.rank_iff hfront).mp hlt)
  rw [borderSplitInsert, run_load_keySlice h.halved.right (by omega), run_load_keyLength h.halved.right (by omega)]
  have hkey := h.key_front hfront
  have hslice : nbd.keySlice 0 = front.key.slice := congrArg KeyTuple.slice hkey
  have hlength : nbd.keyLength 0 = front.key.length := congrArg KeyTuple.length hkey
  rw [hslice, hlength]
  by_cases hc : (KeyTuple.ofKey key).code < front.key.code
  · rw [if_pos hc, if_pos (by exact hgoes.mpr hc)]
  · rw [if_neg hc, if_neg fun hg => hc (hgoes.mp (by exact hg))]

/-- The key goes to the lower half. -/
theorem insert_low (hfront : (lo ++ hi)[8]? = some front) (hcmp : (KeyTuple.ofKey key).code < front.key.code) :
    ∃ s' es₁ es₂ ld,
      (∀ fuel > layers key, run (borderSplitInsert fuel b s.nextNode key v lo.length) s₁ = some (.value v, s')) ∧
      es₁ ++ es₂ = lo ++ entryOf key v :: hi ∧ es₁.length = 9 ∧ es₂.length = 7 ∧
      BorderHalves link dead s s' b (lo ++ hi) es₁ es₂ bd ld nbd key v b := by
  obtain ⟨hh, hlt, hlen⟩ := And.intro h.halved (And.intro h.lt h.full)
  have hbn : b ≠ s.nextNode := Nat.ne_of_lt hlt
  have hleft := hh.leftHead
  simp only [Node.head, Prod.mk.injEq] at hleft
  have hlo8 : lo.length ≤ 8 := Nat.not_lt.mp fun hlt' => absurd ((h.rank_iff hfront).mpr hlt') (by omega)
  have htake : (lo ++ hi).take 8 = lo ++ hi.take (8 - lo.length) := by rw [List.take_append, List.take_of_length_le hlo8]
  have hdrop : (lo ++ hi).drop 8 = hi.drop (8 - lo.length) := by
    rw [List.drop_append, List.drop_of_length_le hlo8, List.nil_append]
  have hm := hh.leftMembers
  rw [htake] at hm
  have htl : (lo ++ hi.take (8 - lo.length)).length = 8 := by
    rw [← htake, List.length_take]
    omega
  obtain ⟨s', ld, hrun, hi'⟩ := run_insertEntry (v := v) hh.left (by rw [hh.next]; lia) hm (by omega)
    (by rw [hleft.2.1]; exact h.live) (fun e he => h.entry (List.mem_of_mem_take (htake ▸ he)))
  have hm' := hi'.members
  have hnew := hi'.newLayers
  rw [hh.next] at hm' hnew
  have hframe : ∀ x, x ≠ b → x < s.nextNode + 1 → s'.node x = s₁.node x :=
    fun x hx hxlt => hi'.frame x (by rw [hh.next]; lia) hx
  refine ⟨s', lo ++ entryOf key v :: hi.take (8 - lo.length), hi.drop (8 - lo.length), ld, fun fuel hf => ?_, ?_, ?_, ?_,
    ⟨hi'.node, ?_, hm', ?_, hi'.head.trans hh.leftHead, hh.rightHead, ⟨front, ?_, h.key_front hfront⟩,
      Or.inl ⟨rfl, by simp⟩, ?_, ?_,
      hnew, ?_, ?_, ?_, hi'.others.trans hh.others, ?_⟩⟩
  · rw [h.run_eq hfront, if_pos hcmp]
    exact hrun fuel hf
  · rw [List.append_assoc, List.cons_append, List.take_append_drop]
  · simp only [List.length_append, List.length_cons] at htl ⊢
    omega
  · rw [← hdrop, List.length_drop, hlen]
  · rw [hframe _ hbn.symm (Nat.lt_succ_self _), hh.right]
  · exact h.keep (fun e he => List.mem_of_mem_drop (hdrop ▸ he)) (hdrop ▸ hh.rightMembers)
  · rw [← hdrop, List.head?_drop, hfront]
  · intro e he
    rw [htake]
    simp only [List.mem_append, List.mem_cons] at he ⊢
    tauto
  · exact fun e he => Or.inr (hdrop ▸ he)
  · intro x hx
    obtain ⟨h1, h2⟩ := h.next x hx
    rw [hframe x h1 (by lia), hh.sibling x hx]
  · intro x hx
    obtain ⟨h1, h2⟩ := h.links x hx
    rw [hframe x h1 (by lia), hh.moved x hx]
  · intro x h1 h2 h3 h4
    rw [hframe x h1 (by lia), hh.frame x h1 (Nat.ne_of_lt h2) h3 h4]
  · rw [hi'.next, hh.next]

/-- The key goes to the upper half. -/
theorem insert_high (hfront : (lo ++ hi)[8]? = some front) (hcmp : ¬ (KeyTuple.ofKey key).code < front.key.code) :
    ∃ s' es₁ es₂ rd,
      (∀ fuel > layers key, run (borderSplitInsert fuel b s.nextNode key v lo.length) s₁ = some (.value v, s')) ∧
      es₁ ++ es₂ = lo ++ entryOf key v :: hi ∧ es₁.length = 8 ∧ es₂.length = 8 ∧
      BorderHalves link dead s s' b (lo ++ hi) es₁ es₂ bd bd' rd key v s.nextNode := by
  obtain ⟨hh, hlt, hlen⟩ := And.intro h.halved (And.intro h.lt h.full)
  have hbn : b ≠ s.nextNode := Nat.ne_of_lt hlt
  have hright := hh.rightHead
  simp only [Node.head, Prod.mk.injEq] at hright
  have hmem := List.mem_of_getElem? hfront
  have hne : front.key.code ≠ (KeyTuple.ofKey key).code := fun heq =>
    (h.entry hmem).2 (KeyTuple.code_inj (h.ok front hmem).1.length_le (KeyTuple.ofKey_encoded key).length_le heq)
  have hlo8 : 8 < lo.length := (h.rank_iff hfront).mp (by omega)
  have htake : (lo ++ hi).take 8 = lo.take 8 := List.take_append_of_le_length (by omega)
  have hdrop : (lo ++ hi).drop 8 = lo.drop 8 ++ hi := List.drop_append_of_le_length (by omega)
  have hm := hh.rightMembers
  rw [hdrop] at hm
  have hdl : (lo.drop 8 ++ hi).length = 7 := by rw [← hdrop, List.length_drop, hlen]
  have hzero : (0 : Nat) ∈ slotsOf nbd.permutation := by
    rw [hh.rightSlots]
    exact List.mem_range.mpr (by omega)
  obtain ⟨s', rd, hrun, hi'⟩ := run_insertEntry (v := v) hh.right (by rw [hh.next]; lia) hm (by omega)
    (by rw [hright.2.1]; exact h.live) (fun e he => h.entry (List.mem_of_mem_drop (hdrop ▸ he)))
  have hm' := hi'.members
  have hnew := hi'.newLayers
  rw [hh.next] at hm' hnew
  have hframe : ∀ x < s.nextNode, s'.node x = s₁.node x := fun x hx => hi'.frame x (by rw [hh.next]; lia) (Nat.ne_of_lt hx)
  have hr : lo.length - remainingSize = (lo.drop 8).length := by
    rw [List.length_drop]
    rfl
  refine ⟨s', lo.take 8, lo.drop 8 ++ entryOf key v :: hi, rd, fun fuel hf => ?_, ?_, ?_, ?_,
    ⟨?_, hi'.node, ?_, hm', hh.leftHead, hi'.head.trans hh.rightHead, ⟨front, ?_, ?_⟩, Or.inr ⟨rfl, by simp⟩, ?_, ?_,
      hnew, ?_, ?_, ?_,
      hi'.others.trans hh.others, ?_⟩⟩
  · rw [h.run_eq hfront, if_neg hcmp, hr]
    exact hrun fuel hf
  · rw [← List.append_assoc, List.take_append_drop]
  · rw [List.length_take]
    omega
  · simp only [List.length_append, List.length_cons] at hdl ⊢
    omega
  · rw [hframe b hlt, hh.left]
  · exact h.keep (fun e he => List.mem_of_mem_take (htake ▸ he)) (htake ▸ hh.leftMembers)
  · rw [List.getElem?_append_left hlo8] at hfront
    rw [List.head?_append, List.head?_drop, hfront]
    rfl
  · exact (congrArg Prod.fst (hi'.slots 0 hzero)).trans (h.key_front hfront)
  · exact fun e he => Or.inr (htake ▸ he)
  · intro e he
    rw [hdrop]
    simp only [List.mem_append, List.mem_cons] at he ⊢
    tauto
  · intro x hx
    rw [hframe x (h.next x hx).2, hh.sibling x hx]
  · intro x hx
    rw [hframe x (h.links x hx).2, hh.moved x hx]
  · intro x h1 h2 h3 h4
    rw [hframe x h2, hh.frame x h1 (Nat.ne_of_lt h2) h3 h4]
  · rw [hi'.next, hh.next]

/-- The first two parts of `border_split`. -/
theorem insert : ∃ s' es₁ es₂ ld rd target,
    (∀ fuel > layers key, run (borderSplitInsert fuel b s.nextNode key v lo.length) s₁ = some (.value v, s')) ∧
      es₁ ++ es₂ = lo ++ entryOf key v :: hi ∧ es₁ ≠ [] ∧ es₁.length ≤ 15 ∧ es₂.length ≤ 15 ∧
      BorderHalves link dead s s' b (lo ++ hi) es₁ es₂ bd ld rd key v target := by
  have hfull := h.full
  have hfront : (lo ++ hi)[8]? = some (lo ++ hi)[8] := List.getElem?_eq_getElem (by omega)
  by_cases hcmp : (KeyTuple.ofKey key).code < (lo ++ hi)[8].key.code
  · obtain ⟨s', es₁, es₂, ld, hrun, hsplit, h₁, h₂, hh⟩ := h.insert_low (v := v) hfront hcmp
    exact ⟨s', es₁, es₂, ld, nbd, b, hrun, hsplit, List.ne_nil_of_length_pos (by omega), by omega, by omega, hh⟩
  · obtain ⟨s', es₁, es₂, rd, hrun, hsplit, h₁, h₂, hh⟩ := h.insert_high (v := v) hfront hcmp
    exact ⟨s', es₁, es₂, bd', rd, s.nextNode, hrun, hsplit, List.ne_nil_of_length_pos (by omega), by omega, by omega, hh⟩

end HalvedPlace

/-! ### The parent of the split border -/

section
variable {ti : TreeId} {par : Ptr} {l r : NodeId} {ld rd : Node} {k : KeyTuple}

theorem run_createInteriorParentOfBorder {fuel : Nat} (hr : s.node r = some rd) (hk : rd.key 0 = k) :
    run (createInteriorParentOfBorder fuel l r) s = run (createInteriorParent fuel l r k.slice k.length) s := by
  rw [createInteriorParentOfBorder, run_load_keySlice hr (by omega), run_load_keyLength hr (by omega), ← hk]
  rfl

/-- The split of the root border of a tree. -/
theorem run_borderSplitParent_tree (hl : s.node l = some ld) (hr : s.node r = some rd) (hk : rd.key 0 = k) (hne : l ≠ r)
    (hll : l < s.nextNode) (hrl : r < s.nextNode) (hp : ld.parent = none) (hroot : s.root ti = some l) :
    ∃ s', (∀ fuel > 0, run (borderSplitParent fuel ti l r) s = some ((), s')) ∧ NewRoot s s' ti none l r ld rd k := by
  obtain ⟨s', hrun, hnew⟩ := newRoot_tree (k := k) hl hr hne hll hrl
  refine ⟨s', fun fuel hf => ?_, hnew⟩
  rw [borderSplitParent, run_bind_of (run_lockParent_none hl hp hf)]
  simp only
  refine (run_bind_of (?_ : _ = some (some l, s)) _).trans ?_
  · rw [← hroot]
    rfl
  · rw [run_when_neg (by simp), ← hrun fuel hf]
    simp only [run, Lib.Prog.run_bind]
    exact congrArg (fun o => Option.bind o _) (run_createInteriorParentOfBorder hr hk)

/-- The split of the root border of a layer below another. -/
theorem run_borderSplitParent_border {p : NodeId} {pd : Node} (hl : s.node l = some ld) (hr : s.node r = some rd)
    (hkey : rd.key 0 = k) (hne : l ≠ r) (hll : l < s.nextNode) (hrl : r < s.nextNode) (hp : ld.parent = some p)
    (hpd : s.node p = some pd) (hpl : p ≠ l) (hpr : p ≠ r) (hpm : p < s.nextNode) (hk : pd.kind = .border)
    (hb : pd.version.border = true) (hs : pd.version.stable = true) (hlink : ∃ i < 15, pd.lv i = .link l) :
    ∃ s', (∀ fuel > 0, run (borderSplitParent fuel ti l r) s = some ((), s')) ∧ NewRoot s s' ti (some p) l r ld rd k := by
  have hlm : l ≠ s.nextNode := Nat.ne_of_lt hll
  have hrm : r ≠ s.nextNode := Nat.ne_of_lt hrl
  have hpm' : p ≠ s.nextNode := Nat.ne_of_lt hpm
  have hlock : pd.version.locked = false := (Version.stable_iff.mp hs).2.1
  -- The memory with the border above locked and inserting, and the new root over the two borders.
  let pd1 := (pd.mapVersion (.setLocked true)).mapVersion (.setInsertingDeleting true)
  let s1 := s.setNode p pd1
  have hl1 : s1.node l = some ld := (State.setNode_node_ne hpl.symm).trans hl
  have hr1 : s1.node r = some rd := (State.setNode_node_ne hpr.symm).trans hr
  let s2 := s1.withParent l r ld rd k
  have hl2 : s2.node l = some (ld.under s.nextNode) := withParent_left (s := s1) hne hll
  have hr2 : s2.node r = some (rd.under s.nextNode) := withParent_right (s := s1) hrl
  have hm2 : s2.node s.nextNode = some (Node.newParent l r k) := withParent_root (s := s1)
  have hp2 : s2.node p = some pd1 := (withParent_frame (s := s1) hpl hpr hpm').trans (State.setNode_node_same _ _ _)
  let md := ((Node.newParent l r k).set .parent (some p)).mapVersion Version.unlocked
  let s3 := ((s2.setNode l ((ld.under s.nextNode).mapVersion Version.unlocked)).setNode r
    ((rd.under s.nextNode).mapVersion Version.unlocked)).setNode s.nextNode md
  have hm3 : ((s2.setNode l ((ld.under s.nextNode).mapVersion Version.unlocked)).setNode r
      ((rd.under s.nextNode).mapVersion Version.unlocked)).node s.nextNode = some (Node.newParent l r k) :=
    (State.setNode_node_ne hrm.symm).trans ((State.setNode_node_ne hlm.symm).trans hm2)
  have hp3 : s3.node p = some pd1 :=
    (State.setNode_node_ne hpm').trans ((State.setNode_node_ne hpr).trans ((State.setNode_node_ne hpl).trans hp2))
  obtain ⟨i, hi, hli, hget⟩ := run_getLv (s := s3) hp3 hk hlink
  refine ⟨s.withLink l r p i ld rd pd k, fun fuel hf => ?_, newRoot_withLink hne hll hrl hpd hpl hpr hpm hi hli⟩
  rw [borderSplitParent, run_bind_of (run_lockParent_some hl hp hpl.symm hpd hlock hf)]
  simp only
  rw [run_load_parent ((State.setNode_node_ne hpl.symm).trans hl), run_when_neg (by simp [hp]),
    run_getVersionBorder (State.setNode_node_same _ _ _), if_pos (by exact hb), setVersionInsertingDeleting,
    run_atomicUpdate_bind (State.setNode_node_same _ _ _) hf, State.setNode_setNode]
  refine (run_bind_of (?_ : _ = some (s.nextNode, s2)) _).trans ?_
  · rw [run_createInteriorParentOfBorder (s := s1) hr1 hkey]
    exact run_createInteriorParent hf hl1 hr1 hne hll hrl
  refine (run_versionUnlock (s := s2) hf hl2 _).trans ?_
  refine (run_versionUnlock hf ((State.setNode_node_ne hne.symm).trans hr2) _).trans ?_
  refine (run_store_parent hm3 _ _).trans ?_
  refine (run_versionUnlock hf (State.setNode_node_same _ _ _) _).trans ?_
  rw [State.setNode_setNode]
  refine (run_bind_of hget _).trans ?_
  simp only [setNextLayer]
  refine (run_store_lv (s := s3) hp3 hk hi _ _).trans ?_
  refine (run_atomicUpdate (State.setNode_node_same _ _ _) hf _).trans ?_
  rw [State.setNode_setNode]
  refine congrArg (fun t => some ((), t)) (State.eq_of_node (fun x => ?_) rfl rfl)
  simp only [State.setNode, State.withLink, State.alloc, s3, s2, State.withParent, s1, md]
  by_cases hxp : x = p
  · simp [hxp, hpm', hpl, hpr, pd1, Node.set, Node.mapVersion, Version.inserted]
  · by_cases hxm : x = s.nextNode
    · simp [hxm, hpm'.symm, Node.set, Node.mapVersion]
    · by_cases hxr : x = r
      · simp [hxr, hrm, hpr.symm]
      · by_cases hxl : x = l <;> simp [hxl, hxr, hxp, hxm, hlm, hne, hpl.symm]

/-- The split of a border below an interior, up to what happens in the interior. -/
theorem run_borderSplitParent_interior {p : NodeId} {pd : Node} {fuel : Nat} (hf : 0 < fuel) (hl : s.node l = some ld)
    (hr : s.node r = some rd) (hkey : rd.key 0 = k) (hne : l ≠ r) (hp : ld.parent = some p) (hpd : s.node p = some pd)
    (hpl : p ≠ l) (hpr : p ≠ r) (hk : pd.kind = .interior) (hb : pd.version.border = false)
    (hd : pd.version.deleted = false) (hs : pd.version.stable = true) :
    run (borderSplitParent fuel ti l r) s =
      if pd.nKeys = 15 then
        run (interiorSplit fuel ti fuel p r k.slice k.length)
          (s.handOver l r p rd.parent (ld.mapVersion (.setRoot false)) (rd.mapVersion (.setRoot false)) pd)
      else
        run (do
          interiorInsert fuel p r k.slice k.length
          versionUnlock fuel p)
          (s.handOver l r p (some p) (ld.mapVersion (.setRoot false)) (rd.mapVersion (.setRoot false)) pd) := by
  have hlock : pd.version.locked = false := (Version.stable_iff.mp hs).2.1
  rw [borderSplitParent, run_bind_of (run_lockParent_some hl hp hpl.symm hpd hlock hf)]
  simp only
  have hl1 : (s.setNode p (pd.mapVersion (.setLocked true))).node l = some ld := (State.setNode_node_ne hpl.symm).trans hl
  have hr1 : (s.setNode p (pd.mapVersion (.setLocked true))).node r = some rd := (State.setNode_node_ne hpr.symm).trans hr
  rw [run_load_parent hl1, run_when_neg (by simp [hp]), run_getVersionBorder (State.setNode_node_same _ _ _),
    if_neg (by simp [Version.setLocked, hb]), run_getVersionDeleted (State.setNode_node_same _ _ _),
    run_when_neg (by simp [Version.setLocked, hd])]
  simp only [setVersionRoot, versionUnlock]
  rw [run_atomicUpdate_bind hl1 hf, run_atomicUpdate_bind ((State.setNode_node_ne hne.symm).trans hr1) hf,
    run_atomicUpdate_bind ((State.setNode_node_ne hne).trans (State.setNode_node_same _ _ _)) hf,
    State.setNode_comm hne.symm, State.setNode_setNode,
    run_atomicUpdate_bind (State.setNode_node_same _ _ _) hf, State.setNode_setNode]
  refine (run_load_nKeys (?_ : _ = some (pd.mapVersion (.setLocked true))) hk _).trans ?_
  · exact (State.setNode_node_ne hpr).trans ((State.setNode_node_ne hpl).trans (State.setNode_node_same _ _ _))
  · by_cases hn : pd.nKeys = 15
    · rw [if_pos hn, if_pos (by exact hn), run_load_keySlice (State.setNode_node_same _ _ _) (by omega),
        run_load_keyLength (State.setNode_node_same _ _ _) (by omega), ← hkey]
      rfl
    · rw [if_neg hn, if_neg (by exact hn), run_store_parent (State.setNode_node_same _ _ _), State.setNode_setNode,
        run_load_keySlice (State.setNode_node_same _ _ _) (by omega),
        run_load_keyLength (State.setNode_node_same _ _ _) (by omega), ← hkey]
      rfl

/-- The last part of `border_split`: the new border goes into the tree, at any depth. -/
theorem run_borderSplitParent {c : Ctx} {es₁ es₂ : List Entry} (hl : Held link dead s (.border l es₁) ld)
    (hr : Held link dead s (.border r es₂) rd) (hkey : rd.key 0 = k) (hk : k.Encoded ∧ k.length ≠ 0)
    (hpar : ld.parent = Ctx.parent par c) (houter : NodesOk link dead s (Ctx.descs par true c l))
    (hsorted : (Ctx.flatLeft c ++ ((BTree.border l es₁).flat ++ k.mark :: (BTree.border r es₂).flat) ++
      Ctx.flatRight c).Pairwise (· < ·))
    (hnd : (Ctx.ids c ++ ((BTree.border l es₁).ids ++ (BTree.border r es₂).ids)).Nodup)
    (hlt : ∀ x ∈ Ctx.ids c ++ ((BTree.border l es₁).ids ++ (BTree.border r es₂).ids), x < s.nextNode)
    (hupper : Upper s ti par (Ctx.rootId c l))
    (habove : ∀ p, par = some p → p ∉ Ctx.ids c ++ ((BTree.border l es₁).ids ++ (BTree.border r es₂).ids) ∧
      p < s.nextNode) :
    ∃ s', (∃ N, ∀ fuel ≥ N, run (borderSplitParent fuel ti l r) s = some ((), s')) ∧
      SplitPost link dead (fun x => x = l ∨ x = r ∨ par = some x) s s' ti par c (.border l es₁) k (.border r es₂) ∧
      ∃ ld', s'.node l = some ld' ∧ ld'.version = Version.unlocked (.setRoot false ld.version) := by
  have hll : l < s.nextNode := hlt l (by simp [BTree.ids, BTree.descs])
  have hrl : r < s.nextNode := hlt r (by simp [BTree.ids, BTree.descs])
  obtain ⟨-, hlr, hdis⟩ := List.nodup_append.mp hnd
  have hne : l ≠ r := (List.nodup_append.mp hlr).2.2 l (BTree.id_mem_ids (.border l es₁)) r
    (BTree.id_mem_ids (.border r es₂))
  cases c with
  | nil =>
    simp only [Ctx.ids, Ctx.descs, List.map_nil, List.nil_append] at hnd hlt habove
    -- The border was the root of its layer.
    have hnew : ∃ s', (∀ fuel > 0, run (borderSplitParent fuel ti l r) s = some ((), s')) ∧
      NewRoot s s' ti par l r ld rd k := by
      cases par with
      | none => exact run_borderSplitParent_tree hl.node hr.node hkey hne hll hrl hpar (hupper.tree rfl)
      | some p =>
        obtain ⟨nd, hn, hkb, hb, -, hs, hlink⟩ := hupper.border p rfl
        obtain ⟨hp1, hp2⟩ := habove p rfl
        rw [List.mem_append, not_or] at hp1
        exact run_borderSplitParent_border hl.node hr.node hkey hne hll hrl hpar hn
          (fun he => hp1.1 (he ▸ BTree.id_mem_ids (.border l es₁)))
            (fun he => hp1.2 (he ▸ BTree.id_mem_ids (.border r es₂))) hp2 hkb
          hb hs hlink
    obtain ⟨s', hrun, hpost⟩ := hnew
    have hsp := NewRoot.splitPost (t := .border l es₁) (u := .border r es₂) hpost hl hr hk hnd hlt habove
    refine ⟨s', ⟨1, fun fuel hf => hrun fuel hf⟩, ⟨hsp.nodes, hsp.frame, hsp.above, hsp.next, hsp.rest, ?_⟩, _,
      hpost.left, rfl⟩
    exact hsp.borders.mono fun x nd _ _ _ ht => by
      simp only [BTree.id] at ht
      tauto
  | cons f c =>
    obtain ⟨pd, hpd, hpok⟩ := houter _ (by rw [Ctx.descs, Frame.descs]; exact List.mem_cons_self)
    have hfmem : f.id ∈ Ctx.ids (f :: c) := Ctx.id_mem_ids f c
    have hpl : f.id ≠ l := hdis _ hfmem _ (List.mem_append_left _ (BTree.id_mem_ids (.border l es₁)))
    have hpr : f.id ≠ r := hdis _ hfmem _ (List.mem_append_right _ (BTree.id_mem_ids (.border r es₂)))
    have hrun := fun fuel (hf : 0 < fuel) => @run_borderSplitParent_interior _ ti l r _ _ _ _ _ _ hf hl.node hr.node
      hkey hne hpar hpd hpl hpr
      hpok.members.1 hpok.members.2.1 hpok.members.2.2.1 hpok.stable
    have hkeys : pd.nKeys = f.pivots.length := nKeys_of_members hpok.members
    have hpre := fun q => @SplitPre.of_held _ _ _ _ _ _ _ k _
      (s.handOver l r f.id q (ld.mapVersion (.setRoot false)) (rd.mapVersion (.setRoot false)) pd)
      _ _ _ _ _ _ q houter hpd hl hr (handOver_parent hpl hpr) (handOver_left hne)
      ⟨⟨hpar, Version.unlocked_root _, hl.body, (hl.members.mapVersion (f := .setRoot false) rfl rfl).mapVersion
        (Version.unlocked_border _) (Version.unlocked_deleted _)⟩, Version.unlocked_stable _⟩
      handOver_right
      ⟨⟨rfl, Version.unlocked_root _, hr.body,
        (membersOk_setParent.mpr (hr.members.mapVersion (f := .setRoot false) rfl rfl)).mapVersion
        (Version.unlocked_border _) (Version.unlocked_deleted _)⟩, Version.unlocked_stable _⟩
      (fun x h1 h2 h3 => handOver_frame h1 h2 h3) rfl rfl hk hsorted hnd hlt hupper habove
    -- What the interior does with the new border, from either memory.
    have hend : ∀ {q : Ptr} {s' : State}, SplitPost link dead (fun x => par = some x)
        (s.handOver l r f.id q (ld.mapVersion (.setRoot false)) (rd.mapVersion (.setRoot false)) pd) s' ti par (f :: c)
        (.border l es₁) k (.border r es₂) →
        SplitPost link dead (fun x => x = l ∨ x = r ∨ par = some x) s s' ti par (f :: c) (.border l es₁) k (.border r es₂) ∧
        ∃ ld', s'.node l = some ld' ∧ ld'.version = Version.unlocked (.setRoot false ld.version) := by
      intro q s' hpost
      constructor
      · have hb := keepsBorders_handOver (q := q) (.setRoot false) hl.node hr.node hpd hne hpl hpr
        have hsp := hpost.prelude (fun x hx => handOver_frame (fun he => hx (he ▸ List.mem_append_left _ hfmem))
          (fun he => hx (he ▸ List.mem_append_right _ (List.mem_append_left _ (BTree.id_mem_ids (.border l es₁)))))
          (fun he => hx (he ▸ List.mem_append_right _ (List.mem_append_right _ (BTree.id_mem_ids (.border r es₂))))))
            rfl rfl rfl
          hb (fun p hp => (habove p hp).1)
        refine ⟨hsp.nodes, hsp.frame, hsp.above, hsp.next, hsp.rest, hsp.borders.mono fun x nd hn hkx _ ht => ?_⟩
        rcases ht with (h | h | h) | h
        · exact Or.inl h
        · exact Or.inr (Or.inl h)
        · subst h
          obtain rfl : nd = pd := Option.some.inj (hn.symm.trans hpd)
          exact absurd (hkx.symm.trans hpok.members.1) (by decide)
        · exact Or.inr (Or.inr h)
      · obtain ⟨ld', hn', -, -, -, -, hv⟩ := hpost.borders l _ (handOver_left hne) hl.members.1 hll
        refine ⟨ld', hn', hv fun hp => (habove l hp).1 ?_⟩
        exact List.mem_append_right _ (List.mem_append_left _ (BTree.id_mem_ids (.border l es₁)))
    by_cases hfull : f.pivots.length = 15
    · obtain ⟨s', ⟨N, hN⟩, hpost⟩ := run_interiorSplit (hpre rd.parent).1 hfull
      refine ⟨s', ⟨N + 1, fun fuel hf => ?_⟩, hend hpost⟩
      rw [hrun fuel (by omega), if_pos (hkeys.trans hfull)]
      exact hN fuel fuel (by omega) (by omega)
    · have hroom : f.pivots.length < 15 := by
        have := hpok.body.2.1
        omega
      obtain ⟨hp, hnew⟩ := hpre (some f.id)
      obtain ⟨s', hs', hpost⟩ := hp.settle hroom hnew
      refine ⟨s', ⟨1, fun fuel hf => ?_⟩, hend hpost⟩
      rw [hrun fuel hf, if_neg (by rw [hkeys]; exact hfull)]
      exact hs' fuel hf

end

end
end Yakushima
