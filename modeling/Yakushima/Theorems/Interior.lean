import Yakushima.Theorems.Insert

/-! # Interiors

What the functions of an interior do to its pivots and children: the insertion of a child, the move of
the upper half to a new interior, and the removal of a child. -/

namespace Yakushima
open M

section
variable {s : State} {n : NodeId} {nd : Node} {k : KeyTuple} {link : KeySlice → Ptr} {dead : NodeId → Prop}

/-! ### `interior_node::insert` -/

theorem run_searchPivot (hn : s.node n = some nd) (hk : k.Encoded) :
    ∀ {l : List Nat}, (∀ i ∈ l, i < 15 ∧ (nd.key i).Encoded) →
      run (searchPivot n k.slice k.length l) s = some (l.find? fun i => decide (k.code < (nd.key i).code), s)
  | [], _ => rfl
  | i :: l, hl => by
    obtain ⟨hi, he⟩ := hl i List.mem_cons_self
    have hp : pivotLess k.slice k.length (nd.keySlice i) (nd.keyLength i) = true ↔ _ := KeyTuple.pivotLess_iff hk he
    rw [searchPivot, run_load_keyLength hn hi, run_load_keySlice hn hi, List.find?_cons]
    by_cases hlt : pivotLess k.slice k.length (nd.keySlice i) (nd.keyLength i) = true
    · rw [if_pos hlt, decide_eq_true (hp.mp hlt)]
      rfl
    · rw [if_neg hlt, decide_eq_false fun h => hlt (hp.mpr h)]
      exact run_searchPivot hn hk fun j hj => hl j (List.mem_cons_of_mem _ hj)

/-- The children from `a` to `a + m` moved up by one. -/
def shiftUp (f : Nat → Ptr) (a m : Nat) : Nat → Ptr := fun j => if a ≤ j ∧ j < a + m then f (j - 1) else f j

theorem run_shiftRightLoop {a : Nat} (ha : 1 ≤ a) : ∀ (m : Nat) {s : State} {nd : Node}, a + m ≤ 16 →
    s.node n = some nd → nd.kind = .interior →
    run (forEach (fun i => do
      let c ← load n (.child (i - 1))
      store n (.child i) c) (List.range' a m).reverse) s =
      some ((), s.setNode n { nd with child := shiftUp nd.child a m })
  | 0, s, nd, _, hn, _ => by
    have : ({ nd with child := shiftUp nd.child a 0 } : Node) = nd := by
      have hf : shiftUp nd.child a 0 = nd.child := by
        funext j
        simp only [shiftUp]
        rw [if_neg (by omega)]
      rw [hf]
    rw [this, State.setNode_self hn]
    rfl
  | m + 1, s, nd, ham, hn, hk => by
    rw [List.range'_concat, List.reverse_append, List.reverse_singleton, List.singleton_append, forEach, Nat.one_mul]
    simp only [Lib.Prog.bind_assoc]
    rw [run_load_child hn hk (by omega), run_store_child hn hk (by omega),
      run_shiftRightLoop ha m (by omega) (State.setNode_node_same _ _ _) (by exact hk), State.setNode_setNode]
    refine congrArg (fun x => some ((), s.setNode n x)) ?_
    simp only [Node.set, Node.mk.injEq, and_self, and_true, true_and]
    funext j
    simp only [shiftUp, upd]
    split_ifs <;> first | rfl | omega | (congr 1; omega)

theorem run_setKey {i : Nat} (hn : s.node n = some nd) (hi : i < 15) (slice : KeySlice) (length : Nat) :
    run (setKey n i slice length) s =
      some ((), s.setNode n ((nd.set (.keySlice i) slice).set (.keyLength i) length)) := by
  rw [setKey, run_store_keySlice hn hi, run_store (State.setNode_node_same _ _ _) (admits_keyLength hi),
    State.setNode_setNode]

theorem run_shiftRightKeys {α : Type} {i : Nat} (hn : s.node n = some nd) (hi : i + 1 < 15) (c : Unit → M α) :
    run (op (.shiftRightKeys n i 1) >>= c) s = run (c ()) (s.setNode n
      { nd with keySlice := State.shiftRight nd.keySlice i 1, keyLength := State.shiftRight nd.keyLength i 1 }) := by
  have h : i + 1 < keySliceLength := hi
  simp [run, op, Lib.Prog.run, exec, hn, h]

theorem run_fetchAddNKeys {d : Nat} (hn : s.node n = some nd) (hk : nd.kind = .interior) :
    run (op (.fetchAddNKeys n d)) s = some ((), s.setNode n { nd with nKeys := (nd.nKeys + d) % 256 }) := by
  simp [run, op, Lib.Prog.run, exec, hn, hk]

/-- The pivots and children of an interior with `k` and `child` inserted at pivot position `i`. -/
def Node.insertChild (nd : Node) (i : Nat) (k : KeyTuple) (child : NodeId) : Node :=
  { nd with
    keySlice := fun j => if j = i then k.slice
      else if i < j ∧ j < 15 ∧ i < nd.nKeys then nd.keySlice (j - 1) else nd.keySlice j
    keyLength := fun j => if j = i then k.length
      else if i < j ∧ j < 15 ∧ i < nd.nKeys then nd.keyLength (j - 1) else nd.keyLength j
    child := fun j => if j = i + 1 then some child else if i + 1 < j ∧ j < nd.nKeys + 2 then nd.child (j - 1)
      else nd.child j
    nKeys := nd.nKeys + 1 }

theorem Node.insertChild_pivots {i : Nat} {child : NodeId} (hi : i ≤ nd.nKeys) (h15 : nd.nKeys < 15) :
    (nd.insertChild i k child).pivots = nd.pivots.insertIdx i k := by
  refine Lib.map_range_insert hi (fun j hj => ?_) ?_ fun j hij hj => ?_
  · simp only [key, insertChild, if_neg (show ¬ j = i by omega), if_neg (show ¬ (i < j ∧ j < 15 ∧ i < nd.nKeys) by omega)]
  · simp [key, insertChild]
  · simp only [key, insertChild, if_neg (show ¬ j + 1 = i by omega), 
      if_pos (show i < j + 1 ∧ j + 1 < 15 ∧ i < nd.nKeys by omega),
      Nat.add_sub_cancel]

theorem Node.insertChild_kids {i : Nat} {child : NodeId} (hi : i ≤ nd.nKeys) :
    (nd.insertChild i k child).kids = nd.kids.insertIdx (i + 1) (some child) := by
  have hn : (nd.insertChild i k child).nKeys = nd.nKeys + 1 := rfl
  rw [kids, hn]
  refine Lib.map_range_insert (by omega) (fun j hj => ?_) ?_ fun j hij hj => ?_
  · simp only [insertChild, if_neg (show ¬ j = i + 1 by omega), if_neg (show ¬ (i + 1 < j ∧ j < nd.nKeys + 2) by omega)]
  · simp [insertChild]
  · simp only [insertChild, if_neg (show ¬ j + 1 = i + 1 by omega),
      if_pos (show i + 1 < j + 1 ∧ j + 1 < nd.nKeys + 2 by omega), Nat.add_sub_cancel]

/-- The run of `interior_node::insert`: the pivot goes before the first pivot above it. -/
theorem run_interiorInsert_pos {fuel : Nat} {child : NodeId} (hf : 0 < fuel) (hn : s.node n = some nd)
    (hkind : nd.kind = .interior) (h15 : nd.nKeys < 15) (henc : ∀ p ∈ nd.pivots, p.Encoded) (hk : k.Encoded) :
    run (interiorInsert fuel n child k.slice k.length) s = some ((), s.setNode n
      ((nd.mapVersion (.setInsertingDeleting true)).insertChild (childPos nd.pivots k.code) k child)) := by
  have hpos : childPos nd.pivots k.code = (List.range nd.nKeys).findIdx fun i => decide (k.code < (nd.key i).code) := by
    rw [childPos, Node.pivots, List.findIdx_map]
    rfl
  have hle : childPos nd.pivots k.code ≤ nd.nKeys := by
    have := childPos_le nd.pivots k.code
    rwa [nd.pivots_length] at this
  have hl : ∀ i ∈ List.range nd.nKeys, i < 15 ∧ (nd.key i).Encoded := by
    intro i hi
    have := List.mem_range.mp hi
    exact ⟨by omega, henc _ (List.mem_map.mpr ⟨i, hi, rfl⟩)⟩
  rw [interiorInsert, setVersionInsertingDeleting, run_atomicUpdate_bind hn hf,
    run_load_nKeys (State.setNode_node_same _ _ _) (by exact hkind), Node.mapVersion_nKeys,
    run_bind_of (run_searchPivot (State.setNode_node_same _ _ _) hk (by exact hl))]
  have hfind : (List.range nd.nKeys).find? (fun i => decide (k.code < (nd.key i).code)) =
      if childPos nd.pivots k.code < nd.nKeys then some (childPos nd.pivots k.code) else none := by
    rw [hpos]
    exact Lib.find?_range _ _
  have hm : (nd.nKeys + 1) % 256 = nd.nKeys + 1 := Nat.mod_eq_of_lt (by omega)
  have hkey : ∀ i, (nd.mapVersion (.setInsertingDeleting true)).key i = nd.key i := fun _ => rfl
  simp only [hkey, hfind]
  clear hpos hl
  generalize childPos nd.pivots k.code = i at *
  by_cases hlt : i < nd.nKeys
  · rw [if_pos hlt]
    simp only
    rw [run_shiftRightKeys (State.setNode_node_same _ _ _) (by omega),
      run_bind_of (run_setKey (State.setNode_node_same _ _ _) (by omega) _ _)]
    have hshift : ∀ {s' : State} {nd' : Node}, s'.node n = some nd' → nd'.kind = .interior → nd'.nKeys = nd.nKeys →
        run (shiftRightChildren n (i + 1)) s' =
          some ((), s'.setNode n { nd' with child := shiftUp nd'.child (i + 2) (nd.nKeys - i) }) := by
      intro s' nd' hn' hk' hnk
      rw [shiftRightChildren, run_load_nKeys hn' hk', show nd'.nKeys + 1 - (i + 1) = nd.nKeys - i by omega]
      exact run_shiftRightLoop (a := i + 2) (by omega) (nd.nKeys - i) (by omega) hn' hk'
    rw [run_bind_of (hshift (State.setNode_node_same _ _ _) (by exact hkind) (by rfl)),
      run_store_child (State.setNode_node_same _ _ _) (by exact hkind) (by omega), nKeysIncrement,
      run_fetchAddNKeys (State.setNode_node_same _ _ _) (by exact hkind)]
    simp only [State.setNode_setNode]
    refine congrArg (fun x => some ((), s.setNode n x)) ?_
    simp only [Node.set, Node.insertChild, Node.mapVersion, hm, Node.mk.injEq, true_and, and_true]
    refine ⟨?_, ?_, ?_⟩ <;> funext j <;> simp only [upd, shiftUp, State.shiftRight, keySliceLength] <;> grind
  · rw [if_neg hlt]
    have hi : i = nd.nKeys := by omega
    simp only
    rw [run_bind_of (run_setKey (State.setNode_node_same _ _ _) (by omega) _ _),
      run_store_child (State.setNode_node_same _ _ _) (by exact hkind) (by omega), nKeysIncrement,
      run_fetchAddNKeys (State.setNode_node_same _ _ _) (by exact hkind)]
    simp only [State.setNode_setNode]
    refine congrArg (fun x => some ((), s.setNode n x)) ?_
    simp only [Node.set, Node.insertChild, Node.mapVersion, hi, hm, Node.mk.injEq, true_and, and_true]
    refine ⟨?_, ?_, ?_⟩ <;> funext j <;> simp only [upd] <;> grind

theorem childPos_append {lp rp : List KeyTuple} {code : Nat} (hle : ∀ p ∈ lp, p.code ≤ code)
    (hlt : ∀ p ∈ rp, code < p.code) : childPos (lp ++ rp) code = lp.length := by
  induction lp with
  | nil =>
    cases rp with
    | nil => rfl
    | cons p rp => simp [childPos, List.findIdx_cons, hlt p List.mem_cons_self]
  | cons p lp ih =>
    have h := ih fun q hq => hle q (List.mem_cons_of_mem _ hq)
    simp only [childPos] at h
    simp [childPos, List.findIdx_cons, Nat.not_lt.mpr (hle p List.mem_cons_self), h]

/-- `interior_node::insert` of a child after the children `lk`. -/
theorem run_interiorInsert {child : NodeId} {lp rp : List KeyTuple} {lk rk : List NodeId} (hn : s.node n = some nd)
    (hm : MembersOk link dead nd (.interior (lp ++ rp) (lk ++ rk)))
    (hlen : lk.length = lp.length + 1) (h15 : (lp ++ rp).length < 15) (henc : ∀ p ∈ lp ++ rp, p.Encoded) (hk : k.Encoded)
    (hle : ∀ p ∈ lp, p.code ≤ k.code) (hlt : ∀ p ∈ rp, k.code < p.code) :
    ∃ nd', (∀ fuel > 0, run (interiorInsert fuel n child k.slice k.length) s = some ((), s.setNode n nd')) ∧
      MembersOk link dead nd' (.interior (lp ++ k :: rp) (lk ++ child :: rk)) ∧
      nd'.version = nd.version.setInsertingDeleting true ∧ nd'.parent = nd.parent ∧ nd'.prev = nd.prev ∧
      nd'.next = nd.next := by
  obtain ⟨hkind, hb, hd, hp, hkids⟩ := hm
  have hnk : nd.nKeys = (lp ++ rp).length := by rw [← hp, nd.pivots_length]
  have hrun : ∀ fuel > 0, run (interiorInsert fuel n child k.slice k.length) s = _ := fun fuel hf =>
    run_interiorInsert_pos hf hn hkind (hnk ▸ h15) (hp ▸ henc) hk
  rw [hp, childPos_append hle hlt] at hrun
  have hi : lp.length ≤ nd.nKeys := by rw [hnk, List.length_append]; omega
  refine ⟨_, hrun, ⟨hkind, hb, hd, ?_, ?_⟩, rfl, rfl, rfl, rfl⟩
  · rw [Node.insertChild_pivots (by exact hi) (by exact hnk ▸ h15)]
    exact (congrArg (List.insertIdx · lp.length k) hp).trans (Lib.insertIdx_append_length lp rp k)
  · rw [Node.insertChild_kids (by exact hi)]
    refine (congrArg (List.insertIdx · (lp.length + 1) (some child)) hkids).trans ?_
    rw [← hlen, List.map_append, List.map_append, List.map_cons, ← List.length_map (f := some)]
    exact Lib.insertIdx_append_length _ _ _

/-! ### The upper half moves to a new interior -/

/-- The keys from `a` to `a + m` of a node cleared. -/
def Node.clearKeys (nd : Node) (a m : Nat) : Node :=
  { nd with
    keySlice := fun j => if a ≤ j ∧ j < a + m then .zero else nd.keySlice j
    keyLength := fun j => if a ≤ j ∧ j < a + m then 0 else nd.keyLength j }

/-- The keys from `a` to `a + m` of `src` copied to the positions `start` lower. -/
def Node.copyKeys (nd src : Node) (start a m : Nat) : Node :=
  { nd with
    keySlice := fun j => if a ≤ j + start ∧ j + start < a + m then src.keySlice (j + start) else nd.keySlice j
    keyLength := fun j => if a ≤ j + start ∧ j + start < a + m then src.keyLength (j + start) else nd.keyLength j }

theorem State.setNode_comm {s : State} {a b : NodeId} {x y : Node} (h : a ≠ b) :
    (s.setNode a x).setNode b y = (s.setNode b y).setNode a x := by
  refine State.eq_of_node (fun m => ?_) rfl rfl
  simp only [State.setNode]
  split_ifs with h1 h2 <;> simp_all

theorem run_moveKeysLoop {right : NodeId} {start : Nat} (hne : n ≠ right) :
    ∀ (m a : Nat) {s : State} {nd rd : Node}, start ≤ a → a + m ≤ 15 → s.node n = some nd → s.node right = some rd →
    run (forEach (fun i => do
      let slice ← load n (.keySlice i)
      let length ← load n (.keyLength i)
      setKey right (i - start) slice length
      setKey n i .zero 0) (List.range' a m)) s =
      some ((), (s.setNode n (nd.clearKeys a m)).setNode right (rd.copyKeys nd start a m))
  | 0, a, s, nd, rd, _, _, hn, hr => by
    have h1 : nd.clearKeys a 0 = nd := by
      unfold Node.clearKeys
      congr 1 <;> funext j <;> rw [if_neg (by omega)]
    have h2 : rd.copyKeys nd start a 0 = rd := by
      unfold Node.copyKeys
      congr 1 <;> funext j <;> rw [if_neg (by omega)]
    rw [h1, h2, State.setNode_self hn, State.setNode_self hr]
    rfl
  | m + 1, a, s, nd, rd, hs, ham, hn, hr => by
    rw [List.range'_succ, forEach]
    simp only [Lib.Prog.bind_assoc]
    rw [run_load_keySlice hn (by omega), run_load_keyLength hn (by omega), run_bind_of (run_setKey hr (by omega) _ _),
      run_bind_of (run_setKey ((State.setNode_node_ne hne).trans hn) (by omega) _ _),
      run_moveKeysLoop hne m (a + 1) (by omega) (by omega) (State.setNode_node_same _ _ _)
        ((State.setNode_node_ne hne.symm).trans (State.setNode_node_same _ _ _)),
      State.setNode_setNode, State.setNode_comm hne.symm, State.setNode_setNode]
    have h1 : ((nd.set (.keySlice a) .zero).set (.keyLength a) 0).clearKeys (a + 1) m = nd.clearKeys a (m + 1) := by
      simp only [Node.clearKeys, Node.set, Node.mk.injEq, true_and, and_true]
      refine ⟨?_, ?_⟩ <;> funext j <;> simp only [upd] <;> grind
    have h2 : ((rd.set (.keySlice (a - start)) (nd.keySlice a)).set (.keyLength (a - start)) (nd.keyLength a)).copyKeys
        ((nd.set (.keySlice a) .zero).set (.keyLength a) 0) start (a + 1) m = rd.copyKeys nd start a (m + 1) := by
      simp only [Node.copyKeys, Node.set, Node.mk.injEq, true_and, and_true]
      refine ⟨?_, ?_⟩ <;> funext j <;> simp only [upd] <;> grind
    rw [h1, h2]

theorem run_moveKeyToBaseRange {right : NodeId} {rd : Node} (hne : n ≠ right) (hn : s.node n = some nd)
    (hr : s.node right = some rd) : run (moveKeyToBaseRange n right splitChildrenPoints) s =
      some ((), (s.setNode n (nd.clearKeys 8 7)).setNode right (rd.copyKeys nd 8 8 7)) :=
  run_moveKeysLoop hne 7 8 (by decide) (by decide) hn hr

/-- The children from `a` to `a + m` of an interior cleared. -/
def Node.clearChildren (nd : Node) (a m : Nat) : Node :=
  { nd with child := fun j => if a ≤ j ∧ j < a + m then none else nd.child j }

/-- The children from `a` to `a + m` of `src` copied to the positions `start` lower. -/
def Node.copyChildren (nd src : Node) (start a m : Nat) : Node :=
  { nd with child := fun j => if a ≤ j + start ∧ j + start < a + m then src.child (j + start) else nd.child j }

theorem run_moveChildrenLoop {right : NodeId} {start : Nat} (hne : n ≠ right) :
    ∀ (m a : Nat) {s : State} {nd rd : Node}, start ≤ a → a + m ≤ 16 → s.node n = some nd → s.node right = some rd →
    nd.kind = .interior → rd.kind = .interior →
    (∀ j, a ≤ j → j < a + m → ∃ c cd, nd.child j = some c ∧ c ≠ n ∧ c ≠ right ∧ s.node c = some cd) →
    ∃ f, run (forEach (fun i => do
        let c ← load n (.child i)
        store right (.child (i - start)) c
        let c ← deref c
        store c .parent (some right)
        store n (.child i) none) (List.range' a m)) s = some ((), { s with node := f }) ∧
      f n = some (nd.clearChildren a m) ∧ f right = some (rd.copyChildren nd start a m) ∧
      (∀ j c cd, a ≤ j → j < a + m → nd.child j = some c → s.node c = some cd →
        f c = some (cd.set .parent (some right))) ∧
      ∀ x, x ≠ n → x ≠ right → (∀ j, a ≤ j → j < a + m → nd.child j ≠ some x) → f x = s.node x
  | 0, a, s, nd, rd, _, _, hn, hr, _, _, _ => by
    have h1 : nd.clearChildren a 0 = nd := by
      unfold Node.clearChildren
      congr 1
      funext j
      rw [if_neg (by omega)]
    have h2 : rd.copyChildren nd start a 0 = rd := by
      unfold Node.copyChildren
      congr 1
      funext j
      rw [if_neg (by omega)]
    exact ⟨s.node, rfl, by rw [h1, hn], by rw [h2, hr], fun j _ _ _ _ => by omega, fun _ _ _ _ => rfl⟩
  | m + 1, a, s, nd, rd, hs, ham, hn, hr, hk, hkr, hc => by
    obtain ⟨c, cd, hca, hcn, hcr, hcd⟩ := hc a (by omega) (by omega)
    -- The memory after one round.
    let nd1 := nd.set (.child a) none
    let rd1 := rd.set (.child (a - start)) (some c)
    let s1 := ((s.setNode right rd1).setNode c (cd.set .parent (some right))).setNode n nd1
    have hn1 : s1.node n = some nd1 := State.setNode_node_same _ _ _
    have hr1 : s1.node right = some rd1 := by
      simp only [s1]
      rw [State.setNode_node_ne hne.symm, State.setNode_node_ne hcr.symm, State.setNode_node_same]
    have hc1 : s1.node c = some (cd.set .parent (some right)) := by
      simp only [s1]
      rw [State.setNode_node_ne hcn, State.setNode_node_same]
    have ho1 : ∀ x, x ≠ n → x ≠ right → x ≠ c → s1.node x = s.node x := by
      intro x h1 h2 h3
      simp only [s1]
      rw [State.setNode_node_ne h1, State.setNode_node_ne h3, State.setNode_node_ne h2]
    have hchild : ∀ j, a + 1 ≤ j → nd1.child j = nd.child j := fun j hj => upd_ne (by omega)
    obtain ⟨f, hrun, hfn, hfr, hfc, hfo⟩ := @run_moveChildrenLoop _ start hne m (a + 1) s1 _ _ (by omega) (by omega)
      hn1 hr1 hk hkr fun j hj hj' => by
        obtain ⟨c', cd', h1, h2, h3, h4⟩ := hc j (by omega) (by omega)
        by_cases hcc : c' = c
        · subst hcc
          exact ⟨c', _, (hchild j hj).trans h1, h2, h3, hc1⟩
        · exact ⟨c', cd', (hchild j hj).trans h1, h2, h3, (ho1 c' h2 h3 hcc).trans h4⟩
    refine ⟨f, ?_, ?_, ?_, ?_, ?_⟩
    · rw [List.range'_succ, forEach]
      simp only [Lib.Prog.bind_assoc]
      rw [run_load_child hn hk (by omega), run_store_child hr hkr (by omega), hca, deref]
      simp only [Lib.Prog.ret_bind]
      rw [run_store_parent ((State.setNode_node_ne hcr).trans hcd),
        run_store_child ((State.setNode_node_ne hcn.symm).trans ((State.setNode_node_ne hne).trans hn)) hk (by omega)]
      exact hrun
    · rw [hfn]
      simp only [nd1, Node.clearChildren, Node.set, Option.some.injEq, Node.mk.injEq, true_and, and_true]
      funext j
      simp only [upd]
      grind
    · rw [hfr]
      simp only [rd1, Node.copyChildren, Node.set, Option.some.injEq, Node.mk.injEq, true_and, and_true]
      funext j
      simp only [nd1, Node.set, upd]
      grind
    · intro j c' cd' hj hj' hcj hcd'
      by_cases hlast : ∃ i, a + 1 ≤ i ∧ i < a + 1 + m ∧ nd.child i = some c'
      · obtain ⟨i, hi, hi', hci⟩ := hlast
        by_cases hcc : c' = c
        · subst hcc
          obtain rfl : cd = cd' := Option.some.inj (hcd.symm.trans hcd')
          have h := hfc i c' (cd.set .parent (some right)) hi hi' ((hchild i hi).trans hci) hc1
          exact h
        · obtain ⟨c'', cd'', h1, h2, h3, h4⟩ := hc i (by omega) (by omega)
          obtain rfl : c'' = c' := Option.some.inj (h1.symm.trans hci)
          exact hfc i c'' cd' hi hi' ((hchild i hi).trans hci) ((ho1 c'' h2 h3 hcc).trans hcd')
      · have hja : j = a := by
          by_contra hne'
          exact hlast ⟨j, by omega, by omega, hcj⟩
        subst hja
        obtain rfl : c' = c := Option.some.inj (hcj.symm.trans hca)
        obtain rfl : cd = cd' := Option.some.inj (hcd.symm.trans hcd')
        rw [hfo c' hcn hcr, hc1]
        intro i hi hi' hci
        exact hlast ⟨i, hi, hi', (hchild i hi).symm.trans hci⟩
    · intro x hxn hxr hx
      have hxc : x ≠ c := fun h => hx a (by omega) (by omega) (h ▸ hca)
      rw [hfo x hxn hxr fun j hj hj' h => hx j (by omega) (by omega) ((hchild j hj).symm.trans h), ho1 x hxn hxr hxc]

/-- The members of an interior by its arrays. -/
theorem interior_members {pivots : List KeyTuple} {kids : List NodeId} (hkind : nd.kind = .interior)
    (hb : nd.version.border = false) (hd : nd.version.deleted = false) (hp : nd.nKeys = pivots.length)
    (hk : kids.length = pivots.length + 1) (hkey : ∀ i x, pivots[i]? = some x → nd.key i = x)
    (hchild : ∀ i x, kids[i]? = some x → nd.child i = some x) : MembersOk link dead nd (.interior pivots kids) := by
  refine ⟨hkind, hb, hd, ?_, ?_⟩
  · apply List.ext_getElem?
    intro i
    rw [nd.pivots_getElem?, hp]
    split
    · next h => rw [List.getElem?_eq_getElem h, hkey i _ (List.getElem?_eq_getElem h)]
    · next h => rw [List.getElem?_eq_none (by omega)]
  · apply List.ext_getElem?
    intro i
    rw [nd.kids_getElem?, hp, ← hk, List.getElem?_map]
    split
    · next h => rw [List.getElem?_eq_getElem h, hchild i _ (List.getElem?_eq_getElem h)]; rfl
    · next h => rw [List.getElem?_eq_none (by omega)]; rfl

section
variable {pivots : List KeyTuple} {kids : List NodeId}

theorem key_of_members (h : MembersOk link dead nd (.interior pivots kids)) {i : Nat} {x : KeyTuple}
    (hx : pivots[i]? = some x) : nd.key i = x := by
  have := nd.pivots_getElem? i
  rw [h.2.2.2.1, hx] at this
  split at this
  · exact (Option.some.inj this).symm
  · exact absurd this (by simp)

theorem child_of_members (h : MembersOk link dead nd (.interior pivots kids)) {i : Nat} {x : NodeId}
    (hx : kids[i]? = some x) : nd.child i = some x := by
  have := nd.kids_getElem? i
  rw [h.2.2.2.2, List.getElem?_map, hx] at this
  split at this
  · exact (Option.some.inj this).symm
  · exact absurd this (by simp)

theorem nKeys_of_members (h : MembersOk link dead nd (.interior pivots kids)) : nd.nKeys = pivots.length := by
  rw [← h.2.2.2.1, nd.pivots_length]

end

/-- The first part of `interior_split`, on a full interior. -/
theorem run_interiorSplitMove {lp rp : List KeyTuple} {mid : KeyTuple} {lk rk : List NodeId}
    (hn : s.node n = some nd) (hlt : n < s.nextNode) (hm : MembersOk link dead nd (.interior (lp ++ mid :: rp) (lk ++ rk)))
    (hlp : lp.length = 7) (hrp : rp.length = 7) (hlk : lk.length = 8) (hrk : rk.length = 8)
    (hc : ∀ c ∈ rk, c ≠ n ∧ c < s.nextNode ∧ ∃ cd, s.node c = some cd) :
    ∃ (f : NodeId → Option Node) (nd' rd : Node),
      (∀ fuel > 0, run (interiorSplitMove fuel n) s =
        some ((s.nextNode, mid.slice, mid.length), { s with node := f, nextNode := s.nextNode + 1 })) ∧
      f n = some nd' ∧ f s.nextNode = some rd ∧
      MembersOk link dead nd' (.interior lp lk) ∧ MembersOk link dead rd (.interior rp rk) ∧
      nd'.parent = nd.parent ∧ nd'.version = nd.version.setSplitting true ∧ rd.version = nd.version.setSplitting true ∧
      (∀ c ∈ rk, ∀ cd, s.node c = some cd → f c = some (cd.set .parent (some s.nextNode))) ∧
      ∀ x, x ≠ n → x ≠ s.nextNode → x ∉ rk → f x = s.node x := by
  have hkind : nd.kind = .interior := hm.1
  have hne : n ≠ s.nextNode := Nat.ne_of_lt hlt
  have hkey : ∀ i x, (lp ++ mid :: rp)[i]? = some x → nd.key i = x := fun i x h => key_of_members hm h
  have hch : ∀ i x, (lk ++ rk)[i]? = some x → nd.child i = some x := fun i x h => child_of_members hm h
  have hrk' : ∀ j, 8 ≤ j → j < 16 → ∃ c ∈ rk, nd.child j = some c := by
    intro j hj hj'
    have hlen : j - 8 < rk.length := by omega
    refine ⟨rk[j - 8], List.getElem_mem hlen, hch j _ ?_⟩
    rw [List.getElem?_append_right (by omega), hlk, List.getElem?_eq_getElem hlen]
  let nd1 := nd.mapVersion (.setSplitting true)
  let rd1 := ((Node.fresh .interior).mapVersion (.setBorder false)).set .version nd1.version
  -- The memory before the children move.
  let nd2 := (nd1.clearKeys 8 7).set .nKeys 7
  let rd2 := (rd1.copyKeys nd1 8 8 7).set .nKeys 7
  let s2 := ((s.alloc rd2).setNode n nd2)
  have hn2 : s2.node n = some nd2 := State.setNode_node_same _ _ _
  have hr2 : s2.node s.nextNode = some rd2 := (State.setNode_node_ne hne.symm).trans (State.alloc_node_same s _)
  have ho2 : ∀ x, x ≠ n → x ≠ s.nextNode → s2.node x = s.node x := fun x h1 h2 =>
    (State.setNode_node_ne h1).trans (State.alloc_node_ne h2)
  obtain ⟨f, hrun, hfn, hfr, hfc, hfo⟩ := @run_moveChildrenLoop _ _ 8 hne 8 8 s2 _ _ (by omega) (by omega) hn2 hr2
    hkind rfl fun j hj hj' => by
      obtain ⟨c, hcm, hcj⟩ := hrk' j hj (by omega)
      obtain ⟨h1, h2, cd, h3⟩ := hc c hcm
      exact ⟨c, cd, hcj, h1, Nat.ne_of_lt h2, (ho2 c h1 (Nat.ne_of_lt h2)).trans h3⟩
  have hmove : run (moveChildrenToInteriorRange n s.nextNode splitChildrenPoints) s2 =
    some ((), { s2 with node := f }) := hrun
  refine ⟨fun x => if x = n then some (((nd2.clearChildren 8 8).set (.keySlice 7) .zero).set (.keyLength 7) 0) else f x,
    _, _, ?_, if_pos rfl, (if_neg hne.symm).trans hfr, ?_, ?_, ?_, ?_, ?_, ?_, ?_⟩
  · intro fuel hf
    rw [interiorSplitMove, setVersionSplitting, run_atomicUpdate_bind hn hf, run_newNode, State.setNode_nextNode,
      initInterior, setVersionBorder, run_atomicUpdate_bind (by exact State.alloc_node_same (s.setNode n nd1) _) hf,
      run_getBody_bind ((State.setNode_node_ne hne).trans
        ((State.alloc_node_ne (by exact hne)).trans (State.setNode_node_same _ _ _))),
      run_store_version (State.setNode_node_same _ _ _), State.setNode_setNode]
    have hs1 : ((s.setNode n nd1).alloc (.fresh .interior)).setNode s.nextNode rd1 = (s.setNode n nd1).alloc rd1 :=
      State.alloc_setNode (s.setNode n nd1) _ _
    refine (congrArg (run _) hs1).trans ?_
    refine (run_bind_of (run_moveKeyToBaseRange hne
      ((State.alloc_node_ne (by exact hne)).trans (State.setNode_node_same _ _ _))
      (State.alloc_node_same (s.setNode n nd1) _)) _).trans ?_
    refine (run_store_nKeys ((State.setNode_node_ne hne).trans (State.setNode_node_same _ _ (nd1.clearKeys 8 7)))
      hkind _ _).trans ?_
    refine (run_store_nKeys
      ((State.setNode_node_ne hne.symm).trans (State.setNode_node_same _ _ _)) rfl _ _).trans ?_
    have hs2 : (((((s.setNode n nd1).alloc rd1).setNode n (nd1.clearKeys 8 7)).setNode s.nextNode
        (rd1.copyKeys nd1 8 8 7)).setNode n nd2).setNode s.nextNode rd2 = s2 := by
      refine State.eq_of_node (fun m => ?_) rfl rfl
      simp only [State.setNode, State.alloc, s2]
      split_ifs <;> simp_all
    refine (congrArg (run _) hs2).trans ?_
    refine (run_bind_of hmove _).trans ?_
    refine (run_load_keySlice (i := 7) hfn (by omega) _).trans ?_
    refine (run_load_keyLength (i := 7) hfn (by omega) _).trans ?_
    refine (run_bind_of (run_setKey (i := 7) hfn (by omega) _ _) _).trans ?_
    have h7 : nd.key 7 = mid := hkey 7 mid (by rw [List.getElem?_append_right (by omega), hlp]; rfl)
    have h7s : (nd2.clearChildren 8 8).keySlice 7 = mid.slice := congrArg KeyTuple.slice h7
    have h7l : (nd2.clearChildren 8 8).keyLength 7 = mid.length := congrArg KeyTuple.length h7
    rw [h7s, h7l]
    exact congrArg (fun t => some (_, t)) (State.eq_of_node (fun m => rfl) rfl rfl)
  · refine interior_members hkind hm.2.1 hm.2.2.1 (by rw [hlp]; rfl) (by omega) (fun i x hx => ?_) fun i x hx => ?_
    · have hi : i < 7 := by
        obtain ⟨h, -⟩ := List.getElem?_eq_some_iff.mp hx
        omega
      rw [← hkey i x (by rw [List.getElem?_append_left (by omega), hx])]
      simp only [Node.key, Node.set, nd2, nd1, Node.clearChildren, Node.clearKeys, upd, Node.mapVersion]
      grind
    · have hi : i < 8 := by
        obtain ⟨h, -⟩ := List.getElem?_eq_some_iff.mp hx
        omega
      rw [← hch i x (by rw [List.getElem?_append_left (by omega), hx])]
      simp only [Node.set, nd2, nd1, Node.clearChildren, Node.clearKeys, Node.mapVersion]
      grind
  · refine interior_members rfl hm.2.1 hm.2.2.1 (by rw [hrp]; rfl) (by omega) (fun i x hx => ?_) fun i x hx => ?_
    · have hi : i < 7 := by
        obtain ⟨h, -⟩ := List.getElem?_eq_some_iff.mp hx
        omega
      rw [← hkey (i + 8) x (by
        rw [List.getElem?_append_right (by omega), hlp, show i + 8 - 7 = i + 1 by omega, List.getElem?_cons_succ, hx])]
      simp only [Node.key, Node.set, rd2, rd1, nd1, Node.copyChildren, Node.copyKeys, Node.mapVersion]
      grind
    · have hi : i < 8 := by
        obtain ⟨h, -⟩ := List.getElem?_eq_some_iff.mp hx
        omega
      rw [← hch (i + 8) x (by rw [List.getElem?_append_right (by omega), hlk, Nat.add_sub_cancel, hx])]
      simp only [Node.set, rd2, rd1, nd2, nd1, Node.copyChildren, Node.copyKeys, Node.clearKeys, Node.mapVersion]
      grind
  · rfl
  · rfl
  · rfl
  · intro c hcm cd hcd
    obtain ⟨h1, h2, -⟩ := hc c hcm
    obtain ⟨i, hi⟩ := List.getElem?_of_mem hcm
    have hi8 : i < 8 := by
      obtain ⟨h, -⟩ := List.getElem?_eq_some_iff.mp hi
      omega
    refine (if_neg h1).trans (hfc (i + 8) c cd (by omega) (by omega) ?_ ((ho2 c h1 (Nat.ne_of_lt h2)).trans hcd))
    exact hch (i + 8) c (by rw [List.getElem?_append_right (by omega), hlk, Nat.add_sub_cancel, hi])
  · intro x h1 h2 h3
    refine (if_neg h1).trans ((hfo x h1 h2 ?_).trans (ho2 x h1 h2))
    intro j hj hj' hcj
    obtain ⟨c, hcm, hcj'⟩ := hrk' j hj (by omega)
    exact h3 (Option.some.inj (hcj.symm.trans hcj') ▸ hcm)

/-- The second part of `interior_split`: `target` is the interior that the new key belongs to. -/
theorem run_interiorSplitInsert {l r u target : NodeId} {mid : KeyTuple} {td ud : Node}
    {lp rp : List KeyTuple} {lk rk : List NodeId} (htarget : target = if k.code < mid.code then l else r)
    (ht : s.node target = some td) (hu : s.node u = some ud) (hne : u ≠ target)
    (hm : MembersOk link dead td (.interior (lp ++ rp) (lk ++ rk)))
    (hlen : lk.length = lp.length + 1) (h15 : (lp ++ rp).length < 15) (henc : ∀ p ∈ lp ++ rp, p.Encoded) (hk : k.Encoded)
    (hk0 : k.length ≠ 0) (hmid : mid.Encoded) (hmid0 : mid.length ≠ 0)
    (hle : ∀ p ∈ lp, p.code ≤ k.code) (hlt : ∀ p ∈ rp, k.code < p.code) :
    ∃ td', (∀ fuel > 0, run (interiorSplitInsert fuel l r u k.slice k.length mid.slice mid.length) s =
        some ((), (s.setNode u (ud.set .parent (some target))).setNode target td')) ∧
      MembersOk link dead td' (.interior (lp ++ k :: rp) (lk ++ u :: rk)) ∧
      td'.version = td.version.setInsertingDeleting true ∧ td'.parent = td.parent := by
  obtain ⟨td', hrun, hm', hv, hp, -, -⟩ := run_interiorInsert (k := k)
    (s := s.setNode u (ud.set .parent (some target))) ((State.setNode_node_ne hne.symm).trans ht) hm hlen h15
      henc hk hle hlt
  refine ⟨td', fun fuel hf => ?_, hm', hv, hp⟩
  rw [interiorSplitInsert, run_when_neg (by simp [hk0, hmid0])]
  have hless := KeyTuple.pivotLess_iff hk hmid
  by_cases hc : k.code < mid.code
  · rw [if_pos hc] at htarget
    subst htarget
    rw [if_pos (hless.mpr hc), run_store_parent hu]
    exact hrun fuel hf
  · rw [if_neg hc] at htarget
    subst htarget
    rw [if_neg fun h => hc (hless.mp h), run_store_parent hu]
    exact hrun fuel hf

/-! ### A new parent -/

/-- The interior that `create_interior_parent_of_interior` makes. -/
def Node.newParent (l r : NodeId) (k : KeyTuple) : Node :=
  { Node.fresh .interior with
    version := { Version.init with root := true, insertingDeleting := true, locked := true }
    keySlice := upd (Node.fresh .interior).keySlice 0 k.slice
    keyLength := upd (Node.fresh .interior).keyLength 0 k.length
    child := upd (upd (Node.fresh .interior).child 0 (some l)) 1 (some r)
    nKeys := 1 }

theorem membersOk_newParent (l r : NodeId) (k : KeyTuple) :
    MembersOk link dead (Node.newParent l r k) (.interior [k] [l, r]) := by
  refine interior_members rfl rfl rfl rfl rfl (fun i x hx => ?_) fun i x hx => ?_
  · cases i with
    | zero => simpa [Node.key, Node.newParent] using hx
    | succ i => simp at hx
  · rcases i with _ | _ | i
    · simpa [Node.newParent, upd] using hx
    · simpa [Node.newParent, upd] using hx
    · simp at hx

/-- A node that gets a parent and stops being the root of its layer. -/
def Node.under (nd : Node) (p : NodeId) : Node := (nd.mapVersion (.setRoot false)).set .parent (some p)

/-- `create_interior_parent_of_interior`: a new interior over two nodes. -/
theorem run_createInteriorParent {fuel : Nat} {l r : NodeId} {ld rd : Node} (hf : 0 < fuel) (hl : s.node l = some ld)
    (hr : s.node r = some rd) (hne : l ≠ r) (hll : l < s.nextNode) (hrl : r < s.nextNode) :
    run (createInteriorParent fuel l r k.slice k.length) s = some (s.nextNode,
      ((s.setNode l (ld.under s.nextNode)).setNode r (rd.under s.nextNode)).alloc (Node.newParent l r k)) := by
  have hlm : l ≠ s.nextNode := Nat.ne_of_lt hll
  have hrm : r ≠ s.nextNode := Nat.ne_of_lt hrl
  let s1 := (s.setNode l (ld.mapVersion (.setRoot false))).setNode r (rd.mapVersion (.setRoot false))
  have hs1l : s1.node l = some (ld.mapVersion (.setRoot false)) :=
    (State.setNode_node_ne hne).trans (State.setNode_node_same _ _ _)
  have hs1r : s1.node r = some (rd.mapVersion (.setRoot false)) := State.setNode_node_same _ _ _
  rw [createInteriorParent, setVersionRoot, run_atomicUpdate_bind hl hf, setVersionRoot,
    run_atomicUpdate_bind ((State.setNode_node_ne hne.symm).trans hr) hf]
  refine (run_newNode (s := s1) .interior _).trans ?_
  simp only [initInterior, setVersionBorder, setVersionRoot, setVersionInsertingDeleting]
  -- The new interior, until its children are told.
  rw [run_atomicUpdate_bind (State.alloc_node_same _ _) hf, State.alloc_setNode,
    run_atomicUpdate_bind (State.alloc_node_same _ _) hf, State.alloc_setNode,
    run_atomicUpdate_bind (State.alloc_node_same _ _) hf, State.alloc_setNode,
    run_lock_bind (State.alloc_node_same _ _) rfl hf, State.alloc_setNode,
    run_bind_of (run_setKey (State.alloc_node_same _ _) (by decide) _ _), State.alloc_setNode,
    run_store_child (State.alloc_node_same _ _) rfl (by decide), State.alloc_setNode,
    run_store_child (State.alloc_node_same _ _) rfl (by decide), State.alloc_setNode, nKeysIncrement,
    run_bind_of (run_fetchAddNKeys (State.alloc_node_same _ _) rfl), State.alloc_setNode]
  refine (run_store_parent ((State.alloc_node_ne (by exact hlm)).trans hs1l) _ _).trans ?_
  refine (run_store_parent ((State.setNode_node_ne hne.symm).trans ((State.alloc_node_ne (by exact hrm)).trans hs1r))
    _ _).trans ?_
  refine congrArg (fun t => some (s.nextNode, t)) (State.eq_of_node (fun x => ?_) rfl rfl)
  simp only [State.setNode, State.alloc, s1]
  by_cases hxr : x = r
  · simp [hxr, hrm, Node.under]
  · by_cases hxl : x = l
    · simp [hxl, hlm, hne, Node.under]
    · by_cases hxm : x = s.nextNode
      · simp only [hxm, hlm.symm, hrm.symm, ↓reduceIte]
        rfl
      · simp [hxr, hxl, hxm]

end
end Yakushima
