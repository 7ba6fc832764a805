import Yakushima.Theorems.Shrink

/-! # Deletion from an interior

`interior_node::delete_of`: an interior with at least two pivots drops the child and a pivot; one with a
single pivot collapses, and its other child takes its place. -/

namespace Yakushima
open M Permutation

section
variable {s : State} {n : NodeId} {nd : Node} {link : KeySlice → Ptr} {dead : NodeId → Prop}

/-! ### Dropping a child -/

/-- The children from `a` to `a + m` moved down by one. -/
def shiftDown (f : Nat → Ptr) (a m : Nat) : Nat → Ptr := fun j => if a ≤ j + 1 ∧ j + 1 < a + m then f (j + 1) else f j

theorem run_shiftLeftLoop : ∀ (m : Nat) {a : Nat} {s : State} {nd : Node}, 1 ≤ a → a + m ≤ 16 →
    s.node n = some nd → nd.kind = .interior →
    run (forEach (fun i => do
      let c ← load n (.child i)
      store n (.child (i - 1)) c) (List.range' a m)) s =
      some ((), s.setNode n { nd with child := shiftDown nd.child a m })
  | 0, a, s, nd, _, _, hn, _ => by
    have : ({ nd with child := shiftDown nd.child a 0 } : Node) = nd := by
      have hf : shiftDown nd.child a 0 = nd.child := by
        funext j
        simp only [shiftDown]
        rw [if_neg (by omega)]
      rw [hf]
    rw [this, State.setNode_self hn]
    rfl
  | m + 1, a, s, nd, ha, ham, hn, hk => by
    rw [List.range'_succ, forEach]
    simp only [Lib.Prog.bind_assoc]
    rw [run_load_child hn hk (by omega), run_store_child hn hk (by omega),
      run_shiftLeftLoop m (by omega) (by omega) (State.setNode_node_same _ _ _) (by exact hk), State.setNode_setNode]
    refine congrArg (fun x => some ((), s.setNode n x)) ?_
    simp only [Node.set, Node.mk.injEq, and_self, and_true, true_and]
    funext j
    simp only [shiftDown, upd]
    grind

theorem run_shiftLeftChildren {a : Nat} (ha : 1 ≤ a) (ha' : a ≤ 16) (hn : s.node n = some nd) (hk : nd.kind = .interior) :
    run (shiftLeftChildren n a 1) s = some ((), s.setNode n { nd with child := shiftDown nd.child a (16 - a) }) :=
  run_shiftLeftLoop (16 - a) ha (by omega) hn hk

theorem run_shiftLeftKeys {α : Type} {i : Nat} (hn : s.node n = some nd) (hi : 1 ≤ i) (hi' : i < 15) (c : Unit → M α) :
    run (op (.shiftLeftKeys n i 1) >>= c) s = run (c ()) (s.setNode n
      { nd with keySlice := State.shiftLeft nd.keySlice i 1, keyLength := State.shiftLeft nd.keyLength i 1 }) := by
  have h : 1 ≤ i ∧ i < keySliceLength := ⟨hi, hi'⟩
  simp [run, op, Lib.Prog.run, exec, hn, h]

/-- The interior without the child at `i` and the pivot at `i - 1`. -/
def Node.dropChild (nd : Node) (i : Nat) : Node :=
  { nd with
    keySlice := fun j => if j = nd.nKeys - 1 then .zero
      else if i - 1 ≤ j ∧ j + 1 < 15 ∧ i < nd.nKeys then nd.keySlice (j + 1) else nd.keySlice j
    keyLength := fun j => if j = nd.nKeys - 1 then 0
      else if i - 1 ≤ j ∧ j + 1 < 15 ∧ i < nd.nKeys then nd.keyLength (j + 1) else nd.keyLength j
    child := fun j => if j = nd.nKeys then none
      else if i ≤ j ∧ j + 1 < 16 ∧ i < nd.nKeys then nd.child (j + 1) else nd.child j
    nKeys := nd.nKeys - 1
    version := nd.version.unlocked }

theorem run_dropChild {i fuel : Nat} (hf : 0 < fuel) (hn : s.node n = some nd) (hk : nd.kind = .interior)
    (h2 : 2 ≤ nd.nKeys) (h15 : nd.nKeys ≤ 15) (hi : i ≤ nd.nKeys) :
    run (dropChild fuel n i nd.nKeys) s = some ((), s.setNode n (nd.dropChild i)) := by
  have hm : (nd.nKeys + 255) % 256 = nd.nKeys - 1 := by omega
  -- The end that the three cases share.
  have hend : ∀ {s' : State} {nd' : Node}, s'.node n = some nd' → nd'.kind = .interior → nd'.nKeys = nd.nKeys →
      run (do
        setKey n (nd.nKeys - 1) .zero 0
        nKeysDecrement n
        versionUnlock fuel n) s' = some ((), s'.setNode n { nd' with
          keySlice := upd nd'.keySlice (nd.nKeys - 1) .zero
          keyLength := upd nd'.keyLength (nd.nKeys - 1) 0
          nKeys := nd.nKeys - 1
          version := nd'.version.unlocked }) := by
    intro s' nd' hn' hk' hnk
    rw [run_bind_of (run_setKey hn' (by omega) _ _), nKeysDecrement,
      run_bind_of (run_fetchAddNKeys (State.setNode_node_same _ _ _) (by exact hk')), versionUnlock,
      run_atomicUpdate (State.setNode_node_same _ _ _) hf]
    simp only [State.setNode_setNode]
    refine congrArg (fun x => some ((), s'.setNode n x)) ?_
    simp only [Node.set, Node.mapVersion, hnk, hm]
  rw [dropChild]
  by_cases h0 : i = 0
  · subst h0
    rw [if_pos rfl]
    simp only [Lib.Prog.bind_assoc]
    rw [run_shiftLeftKeys hn (by omega) (by omega),
      run_bind_of (run_shiftLeftChildren (by omega) (by omega) (State.setNode_node_same _ _ _) (by exact hk)),
      run_store_child (State.setNode_node_same _ _ _) (by exact hk) (by omega),
      hend (State.setNode_node_same _ _ _) (by exact hk) (by rfl)]
    simp only [State.setNode_setNode]
    refine congrArg (fun x => some ((), s.setNode n x)) ?_
    simp only [Node.set, Node.dropChild, Node.mk.injEq, true_and, and_true]
    refine ⟨?_, ?_, ?_⟩ <;> funext j <;> simp only [upd, shiftDown, State.shiftLeft, keySliceLength] <;> grind
  · rw [if_neg h0]
    by_cases hl : i = nd.nKeys
    · subst hl
      rw [if_pos rfl, run_store_child hn hk (by omega), hend (State.setNode_node_same _ _ _) (by exact hk) (by rfl)]
      simp only [State.setNode_setNode]
      refine congrArg (fun x => some ((), s.setNode n x)) ?_
      simp only [Node.set, Node.dropChild, Node.mk.injEq, true_and, and_true]
      refine ⟨?_, ?_, ?_⟩ <;> funext j <;> simp only [upd] <;> grind
    · rw [if_neg hl]
      simp only [Lib.Prog.bind_assoc]
      rw [run_shiftLeftKeys hn (by omega) (by omega),
        run_bind_of (run_shiftLeftChildren (by omega) (by omega) (State.setNode_node_same _ _ _) (by exact hk)),
        run_store_child (State.setNode_node_same _ _ _) (by exact hk) (by omega),
        hend (State.setNode_node_same _ _ _) (by exact hk) (by rfl)]
      simp only [State.setNode_setNode]
      refine congrArg (fun x => some ((), s.setNode n x)) ?_
      simp only [Node.set, Node.dropChild, Node.mk.injEq, true_and, and_true]
      refine ⟨?_, ?_, ?_⟩ <;> funext j <;> simp only [upd, shiftDown, State.shiftLeft, keySliceLength] <;> grind

theorem MembersOk.kids_length {ps : List KeyTuple} {ks : List NodeId} (h : MembersOk link dead nd (.interior ps ks)) :
    ks.length = ps.length + 1 := by
  have := congrArg List.length h.2.2.2.2
  rw [Node.kids, List.length_map, List.length_range, List.length_map, nKeys_of_members h] at this
  exact this.symm

/-- The members of an interior that dropped a child. -/
theorem MembersOk.dropChild {ps : List KeyTuple} {ks : List NodeId} {i : Nat} (h : MembersOk link dead nd (.interior ps ks))
    (h2 : 2 ≤ ps.length) (h15 : ps.length ≤ 15) (hi : i < ks.length) :
    MembersOk link dead (nd.dropChild i) (.interior (ps.eraseIdx (i - 1)) (ks.eraseIdx i)) := by
  have hkl := h.kids_length
  have hnk := nKeys_of_members h
  refine interior_members h.1 ((Version.unlocked_border _).trans h.2.1)
    ((Version.unlocked_deleted _).trans h.2.2.1) ?_ ?_ ?_ ?_
  · rw [List.length_eraseIdx_of_lt (by omega)]
    exact congrArg (· - 1) hnk
  · rw [List.length_eraseIdx_of_lt (by omega), List.length_eraseIdx_of_lt (by omega)]
    omega
  · intro j x hx
    have hj : j < ps.length - 1 := by
      have := (List.getElem?_eq_some_iff.mp hx).1
      rwa [List.length_eraseIdx_of_lt (by omega)] at this
    rw [List.getElem?_eraseIdx] at hx
    have hj1 : ¬ j = nd.nKeys - 1 := by omega
    by_cases hji : j < i - 1
    · rw [if_pos hji] at hx
      rw [← key_of_members h hx]
      simp only [Node.key, Node.dropChild, if_neg hj1, if_neg (show ¬ (i - 1 ≤ j ∧ j + 1 < 15 ∧ i < nd.nKeys) by omega)]
    · rw [if_neg hji] at hx
      rw [← key_of_members h hx]
      by_cases hil : i < nd.nKeys
      · simp only [Node.key, Node.dropChild, if_neg hj1, if_pos (show i - 1 ≤ j ∧ j + 1 < 15 ∧ i < nd.nKeys by omega)]
      · omega
  · intro j x hx
    have hj : j < ks.length - 1 := by
      have := (List.getElem?_eq_some_iff.mp hx).1
      rwa [List.length_eraseIdx_of_lt (by omega)] at this
    rw [List.getElem?_eraseIdx] at hx
    have hj1 : ¬ j = nd.nKeys := by omega
    by_cases hji : j < i
    · rw [if_pos hji] at hx
      rw [← child_of_members h hx]
      simp only [Node.dropChild, if_neg hj1, if_neg (show ¬ (i ≤ j ∧ j + 1 < 16 ∧ i < nd.nKeys) by omega)]
    · rw [if_neg hji] at hx
      rw [← child_of_members h hx]
      by_cases hil : i < nd.nKeys
      · simp only [Node.dropChild, if_neg hj1, if_pos (show i ≤ j ∧ j + 1 < 16 ∧ i < nd.nKeys by omega)]
      · omega

/-! ### The collapse -/

/-- The interior that has handed its last child over. -/
def Node.collapsed (nd : Node) : Node :=
  { nd with
    version := Version.unlocked (.setRoot false (.setDeleted true nd.version))
    nKeys := (nd.nKeys + 255) % 256 }

def State.push (s : State) (token : Token) (n : NodeId) : State :=
  { s with nodeContainer := s.nodeContainer ++ [⟨token, s.beginEpoch token, n⟩] }

/-- The interior while it hands its last child over. -/
def Node.collapsing (nd : Node) : Node :=
  { nd with
    version := .setRoot false (.setDeleted true nd.version)
    nKeys := (nd.nKeys + 255) % 256 }

theorem run_collapse {token : Token} {ti : TreeId} {i fuel : Nat} (hf : 0 < fuel) (hn : s.node n = some nd)
    (hk : nd.kind = .interior) :
    run (collapse fuel token ti n i) s = run (do
      let pn ← lockParent fuel n
      (match pn with
        | none => collapseRoot fuel ti n i
        | some p => collapseInto fuel n i p)
      versionUnlock fuel n
      op (.pushNode token n)) (s.setNode n nd.collapsing) := by
  rw [collapse, setVersionDeleted, setVersionRoot, run_atomicUpdate_bind hn hf,
    run_atomicUpdate_bind (State.setNode_node_same _ _ _) hf,
    nKeysDecrement, run_bind_of (run_fetchAddNKeys (State.setNode_node_same _ _ _) (by exact hk))]
  simp only [State.setNode_setNode]
  rfl

/-- The end of the collapse. -/
theorem run_collapse_end {token : Token} {fuel : Nat} (hf : 0 < fuel) (hn : s.node n = some nd.collapsing) :
    run (do
      versionUnlock fuel n
      op (.pushNode token n)) s = some ((), (s.setNode n nd.collapsed).push token n) := by
  rw [run_versionUnlock hf hn]
  rfl

section
variable {token : Token} {ti : TreeId} {y p : NodeId} {yd pd : Node} {i : Nat}

/-- A lock that was taken and released changes nothing. -/
theorem Version.unlocked_setLocked {v : Version} (h : v.stable = true) : unlocked (setLocked true v) = v := by
  obtain ⟨h1, h2, h3⟩ := stable_iff.mp h
  unfold unlocked setLocked
  cases v
  simp_all

/-- The collapse of the root of the tree. -/
theorem run_collapse_tree (hn : s.node n = some nd) (hk : nd.kind = .interior) (hp : nd.parent = none) (hi : i < 16)
    (hc : nd.child i = some y) (hy : s.node y = some yd) (hne : y ≠ n) : ∀ fuel > 0,
    run (collapse fuel token ti n i) s = some ((),
      ((((s.setNode n nd.collapsed).setNode y ((yd.mapVersion (.setRoot true)).set .parent none)).setRoot ti (some y)).push
        token n)) := by
  intro fuel hf
  rw [run_collapse hf hn hk, run_bind_of (run_lockParent_none (State.setNode_node_same _ _ _) (by exact hp) hf)]
  simp only [collapseRoot, setVersionRoot, Lib.Prog.bind_assoc]
  have hc' : nd.collapsing.child i = some y := hc
  rw [run_load_child (State.setNode_node_same _ _ _) (by exact hk) hi, hc']
  simp only [deref, Lib.Prog.ret_bind]
  rw [run_atomicUpdate_bind ((State.setNode_node_ne hne).trans hy) hf,
    run_load_child ((State.setNode_node_ne hne.symm).trans (State.setNode_node_same _ _ _)) (by exact hk) hi, hc']
  let s2 := ((s.setNode n nd.collapsing).setNode y (yd.mapVersion (.setRoot true))).setRoot ti (some y)
  have hn2 : s2.node n = some nd.collapsing := (State.setNode_node_ne hne.symm).trans (State.setNode_node_same _ _ _)
  have hy2 : s2.node y = some (yd.mapVersion (.setRoot true)) := State.setNode_node_same _ _ _
  refine (run_bind_of (b := ()) (by rfl) _).trans ?_
  refine (run_load_child hn2 (by exact hk) hi _).trans ?_
  rw [hc']
  simp only [Lib.Prog.ret_bind]
  refine (run_store_parent hy2 _ _).trans ?_
  refine (run_collapse_end hf (?_ : _ = some (Node.collapsing nd))).trans ?_
  · exact (State.setNode_node_ne hne.symm).trans hn2
  · refine congrArg (fun t => some ((), t)) (State.eq_of_node (fun x => ?_) rfl rfl)
    simp only [State.push, State.setRoot, State.setNode, s2]
    by_cases hxn : x = n
    · simp [hxn, hne.symm]
    · by_cases hxy : x = y <;> simp [hxn, hxy, hne]

/-- The collapse of the root of a layer below the border `p`. -/
theorem run_collapse_border (hn : s.node n = some nd) (hk : nd.kind = .interior) (hp : nd.parent = some p) (hi : i < 16)
    (hc : nd.child i = some y) (hy : s.node y = some yd) (hne : y ≠ n) (hpd : s.node p = some pd) (hpn : p ≠ n)
    (hpy : p ≠ y) (hpk : pd.kind = .border) (hpb : pd.version.border = true) (hps : pd.version.stable = true)
    (hlink : ∃ j < 15, pd.lv j = .link n) : ∃ j < 15, pd.lv j = .link n ∧ ∀ fuel > 0,
    run (collapse fuel token ti n i) s = some ((),
      ((((s.setNode n nd.collapsed).setNode p { pd with lv := upd pd.lv j (.link y) }).setNode y
        ((yd.mapVersion (.setRoot true)).set .parent (some p))).push token n)) := by
  have hlock : pd.version.locked = false := (Version.stable_iff.mp hps).2.1
  have hv := Version.unlocked_setLocked hps
  let s1 := (s.setNode n nd.collapsing).setNode p (pd.mapVersion (.setLocked true))
  have hp1 : s1.node p = some (pd.mapVersion (.setLocked true)) := State.setNode_node_same _ _ _
  have hn1 : s1.node n = some nd.collapsing := (State.setNode_node_ne hpn.symm).trans (State.setNode_node_same _ _ _)
  have hy1 : s1.node y = some yd := (State.setNode_node_ne hpy.symm).trans ((State.setNode_node_ne hne).trans hy)
  have hc' : nd.collapsing.child i = some y := hc
  obtain ⟨j, hj, hlj, hget⟩ := run_getLv (s := s1) hp1 hpk hlink
  refine ⟨j, hj, hlj, fun fuel hf => ?_⟩
  rw [run_collapse hf hn hk, run_bind_of (run_lockParent_some (State.setNode_node_same _ _ _) (by exact hp) hpn.symm
    ((State.setNode_node_ne hpn).trans hpd) hlock hf)]
  simp only [collapseInto, Lib.Prog.bind_assoc]
  refine (run_getVersionBorder hp1 _).trans ?_
  rw [if_pos (by exact hpb)]
  simp only [Lib.Prog.bind_assoc]
  refine (run_bind_of hget _).trans ?_
  refine (run_load_child hn1 (by exact hk) hi _).trans ?_
  rw [hc']
  simp only [deref, Lib.Prog.ret_bind, setNextLayer]
  refine (run_store_lv hp1 (by exact hpk) hj _ _).trans ?_
  refine (run_atomicUpdate_bind ((State.setNode_node_ne hpy.symm).trans hy1) hf _ _).trans ?_
  refine (run_load_child ((State.setNode_node_ne hne.symm).trans ((State.setNode_node_ne hpn.symm).trans hn1))
    (by exact hk) hi _).trans ?_
  rw [hc']
  simp only [Lib.Prog.ret_bind]
  refine (run_store_parent (State.setNode_node_same _ _ _) _ _).trans ?_
  rw [State.setNode_setNode]
  refine (run_versionUnlock hf ((State.setNode_node_ne hpy).trans (State.setNode_node_same _ _ _)) _).trans ?_
  refine (run_collapse_end hf (?_ : _ = some (Node.collapsing nd))).trans ?_
  · exact (State.setNode_node_ne hpn.symm).trans
      ((State.setNode_node_ne hne.symm).trans ((State.setNode_node_ne hpn.symm).trans hn1))
  · refine congrArg (fun t => some ((), t)) (State.eq_of_node (fun x => ?_) rfl rfl)
    simp only [State.push, State.setNode, s1]
    by_cases hxn : x = n
    · simp [hxn, hne.symm, hpn.symm]
    · by_cases hxy : x = y
      · simp [hxy, hne, hpy.symm]
      · by_cases hxp : x = p <;> simp [hxn, hxy, hxp, hpn, hpy, Node.mapVersion, Node.set, hv]

theorem run_swapChildLoop {n new : NodeId} : ∀ {l : List Nat} {j : Nat}, s.node p = some pd → pd.kind = .interior →
    (∀ x ∈ l, x < 16) → l.find? (fun x => decide (pd.child x = some n)) = some j →
    run (swapChildLoop p (some n) (some new) l) s = some ((), s.setNode p (pd.set (.child j) (some new)))
  | x :: l, j, hp, hk, hb, hj => by
    rw [swapChildLoop, run_load_child hp hk (hb x List.mem_cons_self)]
    by_cases hx : pd.child x = some n
    · obtain rfl : x = j := by simpa [List.find?_cons, hx] using hj
      rw [if_pos hx, run_store hp (admits_child hk (hb x List.mem_cons_self))]
    · rw [if_neg hx]
      refine run_swapChildLoop hp hk (fun z hz => hb z (List.mem_cons_of_mem _ hz)) ?_
      simpa [List.find?_cons, hx] using hj

/-- The collapse of an interior below the interior `p`. -/
theorem run_collapse_interior {j : Nat} (hn : s.node n = some nd) (hk : nd.kind = .interior) (hp : nd.parent = some p)
    (hi : i < 16) (hc : nd.child i = some y) (hy : s.node y = some yd) (hne : y ≠ n) (hpd : s.node p = some pd)
    (hpn : p ≠ n) (hpy : p ≠ y) (hpk : pd.kind = .interior) (hpb : pd.version.border = false)
    (hps : pd.version.stable = true) (hfind : (List.range 16).find? (fun x => decide (pd.child x = some n)) = some j) :
    ∀ fuel > 0,
    run (collapse fuel token ti n i) s = some ((),
      ((((s.setNode n nd.collapsed).setNode p (pd.set (.child j) (some y))).setNode y (yd.set .parent (some p))).push
        token n)) := by
  have hlock : pd.version.locked = false := (Version.stable_iff.mp hps).2.1
  have hv := Version.unlocked_setLocked hps
  let s1 := (s.setNode n nd.collapsing).setNode p (pd.mapVersion (.setLocked true))
  have hp1 : s1.node p = some (pd.mapVersion (.setLocked true)) := State.setNode_node_same _ _ _
  have hn1 : s1.node n = some nd.collapsing := (State.setNode_node_ne hpn.symm).trans (State.setNode_node_same _ _ _)
  have hy1 : s1.node y = some yd := (State.setNode_node_ne hpy.symm).trans ((State.setNode_node_ne hne).trans hy)
  have hc' : nd.collapsing.child i = some y := hc
  intro fuel hf
  rw [run_collapse hf hn hk, run_bind_of (run_lockParent_some (State.setNode_node_same _ _ _) (by exact hp) hpn.symm
    ((State.setNode_node_ne hpn).trans hpd) hlock hf)]
  simp only [collapseInto, Lib.Prog.bind_assoc]
  refine (run_getVersionBorder hp1 _).trans ?_
  rw [if_neg (by simp [Version.setLocked, hpb])]
  simp only [Lib.Prog.bind_assoc]
  refine (run_load_child hn1 (by exact hk) hi _).trans ?_
  rw [hc', swapChild]
  refine (run_bind_of (run_swapChildLoop hp1 hpk (fun x hx => List.mem_range.mp hx) (by exact hfind)) _).trans ?_
  refine (run_load_child ((State.setNode_node_ne hpn.symm).trans hn1) (by exact hk) hi _).trans ?_
  rw [hc']
  simp only [deref, Lib.Prog.ret_bind]
  refine (run_store_parent ((State.setNode_node_ne hpy.symm).trans hy1) _ _).trans ?_
  refine (run_versionUnlock hf ((State.setNode_node_ne hpy).trans (State.setNode_node_same _ _ _)) _).trans ?_
  refine (run_collapse_end hf (?_ : _ = some (Node.collapsing nd))).trans ?_
  · exact (State.setNode_node_ne hpn.symm).trans
      ((State.setNode_node_ne hne.symm).trans ((State.setNode_node_ne hpn.symm).trans hn1))
  · refine congrArg (fun t => some ((), t)) (State.eq_of_node (fun x => ?_) rfl rfl)
    simp only [State.push, State.setNode, s1]
    by_cases hxn : x = n
    · simp [hxn, hne.symm, hpn.symm]
    · by_cases hxy : x = y
      · simp [hxy, hne, hpy.symm]
      · by_cases hxp : x = p <;> simp [hxn, hxy, hxp, hpn, hpy, Node.mapVersion, Node.set, hv]

end

/-! ### The layer -/

/-- The position of the hole among the children. -/
theorem Frame.kids_hole (f : Frame) (n : NodeId) : (f.kids n)[f.left.length]? = some n := by
  simp [Frame.kids]

/-- A node that is not in the frame is a child only in the hole. -/
theorem Frame.kids_eq_hole {f : Frame} {n : NodeId} (hn : n ∉ f.ids) {j : Nat} (hj : (f.kids n)[j]? = some n) :
    j = f.left.length := by
  have hmem : ∀ x ∈ f.left.map (·.1.id) ++ f.right.map (·.2.id), x ∈ f.ids := by
    intro x hx
    refine List.mem_cons_of_mem _ ?_
    rw [List.mem_append, List.mem_flatMap, List.mem_flatMap]
    rcases List.mem_append.mp hx with hx | hx
    · obtain ⟨z, hz, rfl⟩ := List.mem_map.mp hx
      exact Or.inl ⟨z, hz, z.1.id_mem_ids⟩
    · obtain ⟨z, hz, rfl⟩ := List.mem_map.mp hx
      exact Or.inr ⟨z, hz, z.2.id_mem_ids⟩
  rw [Frame.kids] at hj
  rcases Nat.lt_trichotomy j f.left.length with h | h | h
  · rw [List.getElem?_append_left (by simpa using h)] at hj
    exact absurd (hmem n (List.mem_append_left _ (List.mem_of_getElem? hj))) hn
  · exact h
  · rw [List.getElem?_append_right (by simp; omega), List.length_map] at hj
    obtain ⟨m, hm⟩ : ∃ m, j - f.left.length = m + 1 := ⟨j - f.left.length - 1, by omega⟩
    rw [hm, List.getElem?_cons_succ] at hj
    exact absurd (hmem n (List.mem_append_right _ (List.mem_of_getElem? hj))) hn

/-- The first position of the hole's node among the children in memory. -/
theorem find_child {f : Frame} {n : NodeId} (hm : MembersOk link dead nd (.interior f.pivots (f.kids n))) (hn : n ∉ f.ids)
    {l : Nat} (hl : f.pivots.length < l) :
    (List.range l).find? (fun x => decide (nd.child x = some n)) = some f.left.length := by
  have hlen : f.left.length ≤ f.pivots.length := by simp [Frame.pivots]
  refine List.find?_range_eq_some.mpr ⟨?_, ?_, ?_⟩
  · exact decide_eq_true (child_of_members hm (f.kids_hole n))
  · exact List.mem_range.mpr (by omega)
  · intro j hj
    simp only [Bool.not_eq_true', decide_eq_false_iff_not]
    intro hc
    obtain ⟨x, hx⟩ : ∃ x, (f.kids n)[j]? = some x :=
      ⟨_, List.getElem?_eq_getElem (by rw [hm.kids_length]; omega)⟩
    have hcx := child_of_members hm hx
    obtain rfl : x = n := Option.some.inj (hcx.symm.trans hc)
    have := Frame.kids_eq_hole hn hx
    omega

theorem run_searchChildPtr {child : NodeId} : ∀ {l : List Nat} {i : Nat}, s.node n = some nd → nd.kind = .interior →
    (∀ x ∈ l, x < 16) → l.find? (fun x => decide (nd.child x = some child)) = some i →
    run (searchChildPtr n child l) s = some (some i, s)
  | x :: l, i, hn, hk, hb, hi => by
    rw [searchChildPtr, run_load_child hn hk (hb x List.mem_cons_self)]
    by_cases hx : nd.child x = some child
    · obtain rfl : x = i := by simpa [List.find?_cons, hx] using hi
      rw [if_pos hx]
      rfl
    · rw [if_neg hx]
      refine run_searchChildPtr hn hk (fun z hz => hb z (List.mem_cons_of_mem _ hz)) ?_
      simpa [List.find?_cons, hx] using hi

/-- The memory when the interior of the frame `f` is locked to drop the child `b` in its hole. -/
structure LeavePre (link : KeySlice → Ptr) (dead : NodeId → Prop) (s : State) (ti : TreeId) (par : Ptr)
    (f : Frame) (c : Ctx) (b : NodeId) (pd : Node) : Prop where
  outer : NodesOk link dead s (Ctx.descs par true c f.id)
  trees : ∀ x, (∃ k, (x, k) ∈ f.left) ∨ (∃ k, (k, x) ∈ f.right) → NodesOk link dead s (x.descs (some f.id) false)
  node : s.node f.id = some pd
  parent : pd.parent = Ctx.parent par c
  root : pd.version.root = Ctx.isRoot true c
  body : (Body.interior f.pivots (f.kids b)).Ok
  members : MembersOk link dead pd (.interior f.pivots (f.kids b))
  nodup : (Ctx.ids (f :: c)).Nodup
  out : b ∉ Ctx.ids (f :: c)
  upper : Upper s ti par (Ctx.rootId c f.id)
  above : ∀ p, par = some p → p ∉ Ctx.ids (f :: c)

/-- The layer without the child in the hole of the frame that closes to `f'` around `y`: an interior that
    is left with one child gives it its place. -/
def Ctx.shrink (c : Ctx) (f' : Frame) (y : BTree) : BTree :=
  if f'.pivots = [] then Ctx.plug c y else Ctx.plug c (f'.plug y)

/-- The nodes that leave the layer above the child. -/
def Frame.gone (f' : Frame) : List NodeId := if f'.pivots = [] then [f'.id] else []

def State.pushAll (s : State) (token : Token) (l : List NodeId) : State :=
  { s with nodeContainer := s.nodeContainer ++ l.map fun n => ⟨token, s.beginEpoch token, n⟩ }

/-- The memory after the child has left. -/
structure LeavePost (link : KeySlice → Ptr) (dead : NodeId → Prop) (s s' : State) (token : Token) (ti : TreeId) (par : Ptr)
    (f f' : Frame) (y : BTree) (c : Ctx) : Prop where
  nodes : NodesOk link dead s' ((Ctx.shrink c f' y).descs par true)
  frame : ∀ x, x ∉ Ctx.ids (f :: c) → par ≠ some x → s'.node x = s.node x
  above : Above id s s' ti par (Ctx.rootId c f.id) (Ctx.shrink c f' y).id
  borders : KeepsBorders (fun _ => True) s s'
  next : s'.nextNode = s.nextNode
  rest : s'.rest = (s.pushAll token f'.gone).rest
  stays : ∀ x nd, s.node x = some nd → ∃ nd', s'.node x = some nd'

theorem Frame.gone_nil {f' : Frame} (h : f'.pivots ≠ []) : f'.gone = [] := if_neg h

theorem State.pushAll_nil (s : State) (token : Token) : s.pushAll token [] = s := by simp [pushAll]

variable {token : Token} {ti : TreeId} {par : Ptr} {f f' : Frame} {c : Ctx} {b : NodeId} {pd : Node} {y : BTree}

theorem Ctx.frame_ids_nodup (h : (Ctx.ids (f :: c)).Nodup) : f.ids.Nodup ∧ ∀ x ∈ Ctx.ids c, x ∉ f.ids := by
  have hp := (Ctx.ids_cons f c).nodup_iff.mp h
  obtain ⟨h1, -, h3⟩ := List.nodup_append.mp hp
  exact ⟨h1, fun x hx hf => h3 x hf x hx rfl⟩

theorem LeavePre.head (h : LeavePre link dead s ti par f c b pd) {fuel : Nat} (hf : 0 < fuel) :
    run (interiorDeleteOf fuel token ti f.id b) s =
      run (if pd.nKeys = 1 then collapse fuel token ti f.id (1 - f.left.length)
        else dropChild fuel f.id f.left.length pd.nKeys)
        (s.setNode f.id (pd.mapVersion (.setInsertingDeleting true))) := by
  have hm : MembersOk link dead (pd.mapVersion (.setInsertingDeleting true)) (.interior f.pivots (f.kids b)) :=
    h.members.mapVersion rfl rfl
  have hbf : b ∉ f.ids := fun hb => h.out ((Ctx.ids_cons f c).mem_iff.mpr (List.mem_append_left _ hb))
  have hlen : f.pivots.length = pd.nKeys := (nKeys_of_members h.members).symm
  have h15 := h.body.2.1
  have h1 := h.body.1
  have hfind := find_child hm hbf (l := pd.nKeys + 1) (by omega)
  rw [interiorDeleteOf, setVersionInsertingDeleting, run_atomicUpdate_bind h.node hf,
    run_load_nKeys (State.setNode_node_same _ _ _) (by exact h.members.1), Node.mapVersion_nKeys, run_when_neg (by omega),
    run_bind_of (run_searchChildPtr (State.setNode_node_same _ _ _) (by exact h.members.1)
      (fun x hx => by have := List.mem_range.mp hx; omega) hfind)]

/-- An interior with at least two pivots drops the child. -/
theorem LeavePre.drop (h : LeavePre link dead s ti par f c b pd) (hcl : f.Closes f' y) (h2 : 2 ≤ f.pivots.length) :
    ∃ s', (∀ fuel > 0, run (interiorDeleteOf fuel token ti f.id b) s = some ((), s')) ∧
      LeavePost link dead s s' token ti par f f' y c := by
  have hlen := hcl.pivots_length
  have hne : f'.pivots ≠ [] := fun he => by simp [he] at hlen; omega
  have hsh : Ctx.shrink c f' y = Ctx.plug c (f'.plug y) := if_neg hne
  have hm : MembersOk link dead (pd.mapVersion (.setInsertingDeleting true)) (.interior f.pivots (f.kids b)) :=
    h.members.mapVersion rfl rfl
  have hnk := nKeys_of_members h.members
  have h15 := h.body.2.1
  have hll : f.left.length ≤ f.pivots.length := by simp [Frame.pivots]
  obtain ⟨hfnd, hcf⟩ := Ctx.frame_ids_nodup h.nodup
  have hframe : ∀ x, x ≠ f.id →
    (s.setNode f.id ((pd.mapVersion (.setInsertingDeleting true)).dropChild f.left.length)).node x =
      s.node x := fun x hx => State.setNode_node_ne hx
  refine ⟨s.setNode f.id ((pd.mapVersion (.setInsertingDeleting true)).dropChild f.left.length), fun fuel hf => ?_, ?_⟩
  · rw [h.head hf, if_neg (by omega)]
    have := run_dropChild (i := f.left.length) hf
      (State.setNode_node_same s f.id (pd.mapVersion (.setInsertingDeleting true)))
      h.members.1 (by rw [Node.mapVersion_nKeys]; omega) (by rw [Node.mapVersion_nKeys]; omega)
      (by rw [Node.mapVersion_nKeys]; omega)
    rwa [State.setNode_setNode] at this
  · refine ⟨?_, ?_, ?_, ?_, rfl, ?_, ?_⟩
    · rw [hsh]
      intro p hp
      rcases Ctx.mem_plug_descs.mp hp with hp | hp
      · rw [Frame.plug_id, hcl.id] at hp
        refine h.outer.frame (fun q hq => hframe q.1 fun he => hcf q.1 (Ctx.mem_ids_of_desc hq) ?_) p hp
        rw [he]
        exact List.mem_cons_self
      · rw [BTree.descs_eq, Frame.plug_id, hcl.id] at hp
        rcases List.mem_cons.mp hp with rfl | hp
        · refine ⟨_, State.setNode_node_same _ _ _, ⟨⟨h.parent, (Version.unlocked_root _).trans h.root, ?_, ?_⟩,
            Version.unlocked_stable _⟩⟩
          · rw [Frame.plug_body]
            refine ⟨by omega, by omega, fun k hk => h.body.2.2 k ?_⟩
            rw [hcl.pivots] at hk
            exact List.mem_of_mem_eraseIdx hk
          · rw [Frame.plug_body, hcl.pivots, hcl.kids b]
            exact hm.dropChild h2 h15 (by rw [hm.kids_length]; omega)
        · obtain ⟨x, hx, hxd⟩ := Frame.mem_plug_inner.mp hp
          rw [hcl.id] at hxd
          have hx' := hcl.trees.mp hx
          refine (h.trees x hx').frame (fun q hq => hframe q.1 fun he => ?_) p hxd
          refine (List.nodup_cons.mp hfnd).1 (he ▸ ?_)
          rw [List.mem_append, List.mem_flatMap, List.mem_flatMap]
          rcases hx' with ⟨k, hk⟩ | ⟨k, hk⟩
          · exact Or.inl ⟨(x, k), hk, BTree.mem_ids_of_desc hq⟩
          · exact Or.inr ⟨(k, x), hk, BTree.mem_ids_of_desc hq⟩
    · intro x hx _
      exact hframe x fun he => hx (he ▸ Ctx.id_mem_ids f c)
    · refine .kept ?_ rfl fun p hp => hframe p fun he => h.above p hp (he ▸ Ctx.id_mem_ids f c)
      rw [hsh, Ctx.plug_id, Frame.plug_id, hcl.id]
    · intro x nd hn hk _
      have hx : x ≠ f.id := by
        rintro rfl
        obtain rfl : nd = pd := Option.some.inj (hn.symm.trans h.node)
        exact absurd (hk.symm.trans h.members.1) (by decide)
      exact ⟨nd, (hframe x hx).trans hn, hk, rfl, rfl, rfl, fun _ => rfl⟩
    · rw [Frame.gone_nil hne, State.pushAll_nil]
      rfl
    · exact fun x nd hn => State.setNode_stays hn

/-- The child that is left of an interior with two. -/
theorem Frame.Closes.last (hcl : f.Closes f' y) (h : f'.pivots = []) :
    (f.kids b)[1 - f.left.length]? = some y.id ∧ ((∃ k, (y, k) ∈ f.left) ∨ ∃ k, (k, y) ∈ f.right) := by
  rcases hcl with ⟨l, k, hl, rfl⟩ | ⟨k, r, hl, hr, rfl⟩
  · simp only [Frame.pivots, List.append_eq_nil_iff, List.map_eq_nil_iff] at h
    simp [Frame.kids, hl, h.1]
  · simp only [Frame.pivots, List.map_nil, List.nil_append, List.map_eq_nil_iff] at h
    simp [Frame.kids, hl, hr]

/-- The members of an interior whose child in the hole was replaced. -/
theorem MembersOk.swapChild {n m : NodeId} (h : MembersOk link dead nd (.interior f.pivots (f.kids n))) :
    MembersOk link dead (nd.set (.child f.left.length) (some m)) (.interior f.pivots (f.kids m)) := by
  refine interior_members h.1 h.2.1 h.2.2.1 (show nd.nKeys = _ from nKeys_of_members h) ?_
    (fun i x hx => key_of_members h hx) ?_
  · simp [Frame.kids, Frame.pivots]
    omega
  · intro i x hx
    simp only [Node.set, upd]
    by_cases hi : i = f.left.length
    · subst hi
      rw [f.kids_hole] at hx
      rw [if_pos rfl, hx]
    · rw [if_neg hi]
      refine child_of_members h ?_
      rw [← hx, Frame.kids, Frame.kids]
      rcases Nat.lt_or_gt_of_ne hi with hlt | hgt
      · rw [List.getElem?_append_left (by simpa using hlt), List.getElem?_append_left (by simpa using hlt)]
      · rw [List.getElem?_append_right (by simp; omega), List.getElem?_append_right (by simp; omega), List.length_map]
        obtain ⟨j, hj⟩ : ∃ j, i - f.left.length = j + 1 := ⟨i - f.left.length - 1, by omega⟩
        rw [hj, List.getElem?_cons_succ, List.getElem?_cons_succ]

/-- What the collapse of the node `n` does to the memory: it marks `n` deleted, hands its place to `y` and
    changes at most the parent `q` besides. -/
structure Collapsed (s s' : State) (token : Token) (n y : NodeId) (q : Ptr) (nd yd yd' : Node) : Prop where
  gone : s.node n = some nd ∧ nd.kind = .interior ∧ s'.node n = some nd.collapsed
  child : s.node y = some yd ∧ s'.node y = some yd'
  place : yd'.kind = yd.kind ∧ yd'.key = yd.key ∧ yd'.prev = yd.prev ∧ yd'.next = yd.next
  parent : ∀ p, q = some p → ∃ pd pd', s.node p = some pd ∧ s'.node p = some pd' ∧ pd'.kind = pd.kind ∧ pd'.key = pd.key ∧
    pd'.prev = pd.prev ∧ pd'.next = pd.next
  frame : ∀ x, x ≠ n → x ≠ y → q ≠ some x → s'.node x = s.node x
  next : s'.nextNode = s.nextNode
  rest : s'.rest = (s.push token n).rest

theorem Collapsed.stays {s' : State} {n y : NodeId} {q : Ptr} {nd yd yd' : Node}
    (h : Collapsed s s' token n y q nd yd yd') {x : NodeId} {xd : Node} (hx : s.node x = some xd) :
    ∃ xd', s'.node x = some xd' ∧
      (xd.kind = .border → xd'.kind = .border ∧ xd'.key = xd.key ∧ xd'.prev = xd.prev ∧ xd'.next = xd.next) := by
  by_cases hxy : x = y
  · subst hxy
    obtain rfl : xd = yd := Option.some.inj (hx.symm.trans h.child.1)
    exact ⟨yd', h.child.2, fun hk => ⟨h.place.1.trans hk, h.place.2⟩⟩
  · by_cases hxn : x = n
    · subst hxn
      obtain rfl : xd = nd := Option.some.inj (hx.symm.trans h.gone.1)
      exact ⟨_, h.gone.2.2, fun hk => absurd (hk.symm.trans h.gone.2.1) (by decide)⟩
    · by_cases hxq : q = some x
      · obtain ⟨pd, pd', hp, hp', hk, hpl⟩ := h.parent x hxq
        obtain rfl : xd = pd := Option.some.inj (hx.symm.trans hp)
        exact ⟨pd', hp', fun h => ⟨hk.trans h, hpl⟩⟩
      · exact ⟨xd, (h.frame x hxn hxy hxq).trans hx, fun h => ⟨h, rfl, rfl, rfl⟩⟩

/-- The memory when an interior begins to drop a child. -/
def State.dropping (s : State) (n : NodeId) (nd : Node) : State := s.setNode n (nd.mapVersion (.setInsertingDeleting true))

/-- An interior with one pivot that drops the child `b`: the child `y` is left. -/
structure LastChild (link : KeySlice → Ptr) (dead : NodeId → Prop) (s : State) (ti : TreeId) (par : Ptr)
    (f : Frame) (c : Ctx) (b : NodeId) (pd : Node) (y : BTree) (yd : Node) : Prop where
  pre : LeavePre link dead s ti par f c b pd
  one : f.pivots.length = 1
  child : (f.kids b)[1 - f.left.length]? = some y.id
  sibling : (∃ k, (y, k) ∈ f.left) ∨ ∃ k, (k, y) ∈ f.right
  held : Held link dead s y yd
  stable : yd.version.stable = true

namespace LastChild
variable {yd : Node} {s' : State} (h : LastChild link dead s ti par f c b pd y yd)
include h

theorem ids {x : NodeId} (hx : x ∈ y.ids) : x ∈ f.ids ∧ x ≠ f.id := by
  have hmem : x ∈ f.left.flatMap (fun z => z.1.ids) ++ f.right.flatMap (fun z => z.2.ids) := by
    rw [List.mem_append, List.mem_flatMap, List.mem_flatMap]
    rcases h.sibling with ⟨k, hk⟩ | ⟨k, hk⟩
    · exact Or.inl ⟨(y, k), hk, hx⟩
    · exact Or.inr ⟨(k, y), hk, hx⟩
  exact ⟨List.mem_cons_of_mem _ hmem, fun he => (List.nodup_cons.mp (Ctx.frame_ids_nodup h.pre.nodup).1).1 (he ▸ hmem)⟩

theorem ctx_ids {x : NodeId} (hx : x ∈ y.ids) : x ∈ Ctx.ids (f :: c) :=
  (Ctx.ids_cons f c).mem_iff.mpr (List.mem_append_left _ (h.ids hx).1)

theorem nodup : y.ids.Nodup := by
  obtain ⟨hl, hr, -⟩ := List.nodup_append.mp (List.nodup_cons.mp (Ctx.frame_ids_nodup h.pre.nodup).1).2
  rcases h.sibling with ⟨k, hk⟩ | ⟨k, hk⟩
  · exact (List.nodup_flatMap.mp hl).1 (y, k) hk
  · exact (List.nodup_flatMap.mp hr).1 (k, y) hk

theorem id_ne : y.id ≠ f.id := (h.ids y.id_mem_ids).2

theorem inner {p : NodeId × Desc} (hp : p ∈ y.inner) : p.1 ≠ y.id ∧ p.1 ≠ f.id ∧ par ≠ some p.1 :=
  ⟨inner_ne_root h.nodup hp, (h.ids (mem_ids_of_inner hp)).2,
    fun hpar => h.pre.above _ hpar (h.ctx_ids (mem_ids_of_inner hp))⟩

theorem node_dropping : (s.dropping f.id pd).node y.id = some yd := (State.setNode_node_ne h.id_ne).trans h.held.node

theorem child_dropping : (pd.mapVersion (.setInsertingDeleting true)).child (1 - f.left.length) = some y.id :=
  child_of_members h.pre.members h.child

theorem run_eq {fuel : Nat} (hf : 0 < fuel) : run (interiorDeleteOf fuel token ti f.id b) s =
    run (collapse fuel token ti f.id (1 - f.left.length)) (s.dropping f.id pd) := by
  rw [h.pre.head hf, if_pos (by rw [nKeys_of_members h.pre.members, h.one])]
  rfl

/-- What is left to show once the nodes of the layer and the place above it are known. -/
theorem post (yd' : Node) (hnil : f'.pivots = []) (hid : f'.id = f.id)
    (hc : Collapsed (s.dropping f.id pd) s' token f.id y.id pd.parent (pd.mapVersion (.setInsertingDeleting true)) yd yd')
    (hn : NodesOk link dead s' ((Ctx.plug c y).descs par true))
    (ha : Above id s s' ti par (Ctx.rootId c f.id) (Ctx.plug c y).id) :
    LeavePost link dead s s' token ti par f f' y c := by
  have hsh : Ctx.shrink c f' y = Ctx.plug c y := if_pos hnil
  have hfx : ∀ x, x ≠ f.id → (s.dropping f.id pd).node x = s.node x := fun x hx => State.setNode_node_ne hx
  refine ⟨hsh ▸ hn, fun x hx hpx => ?_, hsh ▸ ha, fun x nd hn hk _ => ?_, hc.next, ?_, fun x nd hn => ?_⟩
  · have hxf : x ≠ f.id := fun he => hx (he ▸ Ctx.id_mem_ids f c)
    refine (hc.frame x hxf (fun he => hx (he ▸ h.ctx_ids y.id_mem_ids)) ?_).trans (hfx x hxf)
    rw [h.pre.parent]
    cases c with
    | nil => exact hpx
    | cons g c =>
      rintro hg
      obtain rfl : g.id = x := Option.some.inj hg
      exact hx ((Ctx.ids_cons f _).mem_iff.mpr (List.mem_append_right _ (Ctx.id_mem_ids g c)))
  · have hxf : x ≠ f.id := by
      rintro rfl
      obtain rfl : nd = pd := Option.some.inj (hn.symm.trans h.pre.node)
      exact absurd (hk.symm.trans h.pre.members.1) (by decide)
    obtain ⟨nd', hn', hkeep⟩ := hc.stays ((hfx x hxf).trans hn)
    obtain ⟨h1, h2, h3, h4⟩ := hkeep hk
    exact ⟨nd', hn', h1, h2, h3, h4, fun ht => absurd trivial ht⟩
  · rw [Frame.gone, if_pos hnil, hid]
    exact hc.rest
  · by_cases hxf : x = f.id
    · subst hxf
      exact ⟨_, hc.gone.2.2⟩
    · obtain ⟨nd', hn', -⟩ := hc.stays ((hfx x hxf).trans hn)
      exact ⟨nd', hn'⟩

end LastChild

/-- The interior was the root of the tree: the child gets its place. -/
theorem LastChild.collapse_tree {yd : Node} (h : LastChild link dead s ti none f [] b pd y yd) (hnil : f'.pivots = [])
    (hid : f'.id = f.id) :
    ∃ s', (∀ fuel > 0, run (interiorDeleteOf fuel token ti f.id b) s = some ((), s')) ∧
      LeavePost link dead s s' token ti none f f' y [] := by
  have hpos : 1 - f.left.length < 16 := by omega
  have hnp : (pd.mapVersion (.setInsertingDeleting true)).parent = none := h.pre.parent
  have hn₁ : (s.dropping f.id pd).node f.id = some (pd.mapVersion (.setInsertingDeleting true)) :=
    State.setNode_node_same _ _ _
  refine ⟨_, fun fuel hf => (h.run_eq hf).trans
    (run_collapse_tree hn₁ h.pre.members.1 hnp hpos h.child_dropping h.node_dropping h.id_ne fuel hf), ?_⟩
  refine h.post ((yd.mapVersion (.setRoot true)).set .parent none) hnil hid
    ⟨⟨hn₁, h.pre.members.1, ?_⟩, ⟨h.node_dropping, State.setNode_node_same _ _ _⟩, ⟨rfl, rfl, rfl, rfl⟩, fun p hp => ?_,
      fun x hxf hxy _ => ?_, rfl, rfl⟩ ?_ ?_
  · exact (State.setNode_node_ne h.id_ne.symm).trans (State.setNode_node_same _ _ _)
  · exact absurd (hp.symm.trans hnp) (by simp)
  · exact (State.setNode_node_ne hxy).trans (State.setNode_node_ne hxf)
  · refine h.held.release (State.setNode_node_same _ _ _) (membersOk_setParent.mpr (h.held.members.mapVersion rfl rfl))
      rfl rfl h.stable
      fun p hp => ?_
    obtain ⟨hi1, hi2, -⟩ := h.inner hp
    exact (State.setNode_node_ne hi1).trans ((State.setNode_node_ne hi2).trans (State.setNode_node_ne hi2))
  · exact .tree rfl rfl

/-- The interior was the root of its layer: the child gets its place in the border above. -/
theorem LastChild.collapse_border {p : NodeId} {yd : Node} (h : LastChild link dead s ti (some p) f [] b pd y yd)
    (hnil : f'.pivots = []) (hid : f'.id = f.id) :
    ∃ s', (∀ fuel > 0, run (interiorDeleteOf fuel token ti f.id b) s = some ((), s')) ∧
      LeavePost link dead s s' token ti (some p) f f' y [] := by
  have hpos : 1 - f.left.length < 16 := by omega
  have hnp : (pd.mapVersion (.setInsertingDeleting true)).parent = some p := h.pre.parent
  have hn₁ : (s.dropping f.id pd).node f.id = some (pd.mapVersion (.setInsertingDeleting true)) :=
    State.setNode_node_same _ _ _
  obtain ⟨ppd, hpd, hpk, hpb, hpdel, hps, hlink⟩ := h.pre.upper.border p rfl
  have hpf : p ≠ f.id := fun he => h.pre.above p rfl (he ▸ Ctx.id_mem_ids f [])
  have hpy : p ≠ y.id := fun he => h.pre.above p rfl (he ▸ h.ctx_ids y.id_mem_ids)
  have hpd₁ : (s.dropping f.id pd).node p = some ppd := (State.setNode_node_ne hpf).trans hpd
  obtain ⟨j, hj, hlj, hcol⟩ :=
    run_collapse_border hn₁ h.pre.members.1 hnp hpos h.child_dropping h.node_dropping h.id_ne hpd₁ hpf hpy
    hpk hpb hps hlink
  refine ⟨_, fun fuel hf => (h.run_eq hf).trans (hcol fuel hf), ?_⟩
  refine h.post ((yd.mapVersion (.setRoot true)).set .parent (some p)) hnil hid
    ⟨⟨hn₁, h.pre.members.1, ?_⟩, ⟨h.node_dropping, State.setNode_node_same _ _ _⟩, ⟨rfl, rfl, rfl, rfl⟩, fun q hq => ?_,
      fun x hxf hxy hxp => ?_, rfl, rfl⟩ ?_ ?_
  · exact (State.setNode_node_ne h.id_ne.symm).trans
      ((State.setNode_node_ne hpf.symm).trans (State.setNode_node_same _ _ _))
  · obtain rfl : p = q := Option.some.inj (hnp.symm.trans hq)
    exact ⟨ppd, _, hpd₁, (State.setNode_node_ne hpy).trans (State.setNode_node_same _ _ _), rfl, rfl, rfl, rfl⟩
  · refine (State.setNode_node_ne hxy).trans ((State.setNode_node_ne fun he => hxp ?_).trans (State.setNode_node_ne hxf))
    exact he ▸ hnp
  · refine h.held.release (State.setNode_node_same _ _ _) (membersOk_setParent.mpr (h.held.members.mapVersion rfl rfl))
      rfl rfl h.stable
      fun q hq => ?_
    obtain ⟨hi1, hi2, hi3⟩ := h.inner hq
    exact (State.setNode_node_ne hi1).trans ((State.setNode_node_ne fun he => hi3 (congrArg some he.symm)).trans
      ((State.setNode_node_ne hi2).trans (State.setNode_node_ne hi2)))
  · refine .link p ppd _ rfl rfl hpd ?_ ⟨j, hj, hlj, rfl⟩
    exact (State.setNode_node_ne hpy).trans (State.setNode_node_same _ _ _)

/-- The interior was below another one: the child gets its place there. -/
theorem LastChild.collapse_interior {g : Frame} {yd : Node} (h : LastChild link dead s ti par f (g :: c) b pd y yd)
    (hnil : f'.pivots = []) (hid : f'.id = f.id) :
    ∃ s', (∀ fuel > 0, run (interiorDeleteOf fuel token ti f.id b) s = some ((), s')) ∧
      LeavePost link dead s s' token ti par f f' y (g :: c) := by
  obtain ⟨-, hcf⟩ := Ctx.frame_ids_nodup h.pre.nodup
  have hpos : 1 - f.left.length < 16 := by omega
  have hnp : (pd.mapVersion (.setInsertingDeleting true)).parent = some g.id := h.pre.parent
  have hn₁ : (s.dropping f.id pd).node f.id = some (pd.mapVersion (.setInsertingDeleting true)) :=
    State.setNode_node_same _ _ _
  have hgc : ∀ x ∈ g.ids, x ∈ Ctx.ids (g :: c) := fun x hx => (Ctx.ids_cons g c).mem_iff.mpr (List.mem_append_left _ hx)
  have hgid := Ctx.id_mem_ids g c
  have hgf : g.id ≠ f.id := fun he => hcf g.id hgid (he ▸ List.mem_cons_self)
  have hgy : ∀ x ∈ y.ids, x ≠ g.id := fun x hx he => hcf g.id hgid (he ▸ (h.ids hx).1)
  have hgnd : (Ctx.ids (g :: c)).Nodup := (List.nodup_append.mp ((Ctx.ids_cons f _).nodup_iff.mp h.pre.nodup)).2.1
  have hfg : f.id ∉ g.ids := fun he => hcf f.id (hgc _ he) List.mem_cons_self
  obtain ⟨gd, hgd, hgok⟩ := h.pre.outer (g.id, ⟨Ctx.parent par c, Ctx.isRoot true c, .interior g.pivots (g.kids f.id)⟩)
    (by simp [Ctx.descs, Frame.descs])
  have hgd₁ : (s.dropping f.id pd).node g.id = some gd := (State.setNode_node_ne hgf).trans hgd
  have hg15 : g.pivots.length ≤ 15 := hgok.body.2.1
  have hcol := @run_collapse_interior (s.dropping f.id pd) _ _ token ti _ _ _ _ _ _ hn₁ h.pre.members.1 hnp hpos
    h.child_dropping
    h.node_dropping h.id_ne hgd₁ hgf (hgy _ y.id_mem_ids).symm hgok.members.1 hgok.members.2.1 hgok.stable
    (find_child hgok.members hfg (by omega))
  refine ⟨_, fun fuel hf => (h.run_eq hf).trans (hcol fuel hf), ?_⟩
  have hother : ∀ x, x ≠ f.id → x ≠ y.id → x ≠ g.id →
      (((((s.dropping f.id pd).setNode f.id (pd.mapVersion (.setInsertingDeleting true)).collapsed).setNode g.id
        (gd.set (.child g.left.length) (some y.id))).setNode y.id (yd.set .parent (some g.id))).push token f.id).node
          x = s.node x :=
    fun x h1 h2 h3 =>
      (State.setNode_node_ne h2).trans
        ((State.setNode_node_ne h3).trans ((State.setNode_node_ne h1).trans (State.setNode_node_ne h1)))
  refine h.post (yd.set .parent (some g.id)) hnil hid
    ⟨⟨hn₁, h.pre.members.1, ?_⟩, ⟨h.node_dropping, State.setNode_node_same _ _ _⟩, ⟨rfl, rfl, rfl, rfl⟩, fun q hq => ?_,
      fun x hxf hxy hxp => ?_, rfl, rfl⟩ (fun p hp => ?_) ?_
  · exact (State.setNode_node_ne h.id_ne.symm).trans
      ((State.setNode_node_ne hgf.symm).trans (State.setNode_node_same _ _ _))
  · obtain rfl : g.id = q := Option.some.inj (hnp.symm.trans hq)
    exact ⟨gd, _, hgd₁, (State.setNode_node_ne (hgy _ y.id_mem_ids).symm).trans (State.setNode_node_same _ _ _), rfl,
      rfl, rfl, rfl⟩
  · exact (hother x hxf hxy fun he => hxp (he ▸ hnp)).trans (State.setNode_node_ne hxf).symm
  · rcases Ctx.mem_plug_descs.mp hp with hp | hp
    · rw [Ctx.descs, Frame.descs, List.cons_append, List.mem_cons] at hp
      rcases hp with rfl | hp
      · exact ⟨_, (State.setNode_node_ne (hgy _ y.id_mem_ids).symm).trans (State.setNode_node_same _ _ _),
          ⟨⟨hgok.parent, hgok.root, hgok.body, hgok.members.swapChild⟩, hgok.stable⟩⟩
      · have hin : p ∈ Ctx.descs par true (g :: c) f.id := List.mem_cons_of_mem _ hp
        have hpc : p.1 ∈ Ctx.ids (g :: c) := Ctx.mem_ids_of_desc hin
        have hpg : p.1 ≠ g.id := by
          intro he
          rw [← Ctx.map_fst_descs par true (g :: c) f.id, Ctx.descs, Frame.descs, List.cons_append, List.map_cons] at hgnd
          exact (List.nodup_cons.mp hgnd).1 (List.mem_map.mpr ⟨p, hp, he⟩)
        obtain ⟨nd, hn, hok⟩ := h.pre.outer p hin
        refine ⟨nd, (hother p.1 (fun he => hcf _ hpc (he ▸ List.mem_cons_self)) (fun he => hcf _ hpc ?_) hpg).trans hn, hok⟩
        exact he ▸ (h.ids y.id_mem_ids).1
    · refine ((h.pre.trees y h.sibling).reparent (q := some g.id) h.nodup h.held.node (State.setNode_node_same _ _ _)
        fun m hm hmy => ?_) p hp
      exact hother m (h.ids hm).2 hmy (hgy m hm)
  · refine .kept ?_ rfl fun p hp => hother p ?_ ?_ ?_
    · rw [Ctx.plug_id]
      rfl
    · exact fun he => h.pre.above p hp (he ▸ Ctx.id_mem_ids f _)
    · exact fun he => h.pre.above p hp (he ▸ h.ctx_ids y.id_mem_ids)
    · exact fun he => h.pre.above p hp (he ▸ (Ctx.ids_cons f _).mem_iff.mpr (List.mem_append_right _ hgid))

/-- An interior with one pivot collapses. -/
theorem LeavePre.collapse (h : LeavePre link dead s ti par f c b pd) (hcl : f.Closes f' y) (h1 : f.pivots.length = 1) :
    ∃ s', (∀ fuel > 0, run (interiorDeleteOf fuel token ti f.id b) s = some ((), s')) ∧
      LeavePost link dead s s' token ti par f f' y c := by
  have hlen := hcl.pivots_length
  have hnil : f'.pivots = [] := List.length_eq_zero_iff.mp (by omega)
  obtain ⟨hpos, hyf⟩ := hcl.last (b := b) hnil
  obtain ⟨yd, hheld, hyok⟩ := held_of_nodesOk (h.trees y hyf)
  have hlast : LastChild link dead s ti par f c b pd y yd := ⟨h, h1, hpos, hyf, hheld, hyok.stable⟩
  cases c with
  | nil =>
    cases par with
    | none => exact hlast.collapse_tree hnil hcl.id
    | some p => exact hlast.collapse_border hnil hcl.id
  | cons g c => exact hlast.collapse_interior hnil hcl.id

/-- An interior that is locked drops a child. -/
theorem run_interiorDeleteOf (token : Token) (h : LeavePre link dead s ti par f c b pd) (hcl : f.Closes f' y) :
    ∃ s', (∀ fuel > 0, run (interiorDeleteOf fuel token ti f.id b) s = some ((), s')) ∧
      LeavePost link dead s s' token ti par f f' y c := by
  by_cases h2 : 2 ≤ f.pivots.length
  · exact h.drop hcl h2
  · have h1 : 1 ≤ f.pivots.length := h.body.1
    exact h.collapse hcl (by omega)

end
end Yakushima
