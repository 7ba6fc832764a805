import Yakushima.Lib.ArrayList
import Yakushima.Theorems.Layer

/-! # Lookups

`find_border` descends to the border that the pivots choose for a key, and the searches of a border find
the slot of the key or the rank it would have. -/

namespace Yakushima
open M Permutation

/-! ### Lookup in an interior -/

section
variable {s : State} {n : NodeId} {nd : Node} {slice : KeySlice} {length : Nat}

/-- The search of `get_child_of` finds the child before the first pivot above the key. -/
theorem run_searchChild (hn : s.node n = some nd) (hk : nd.kind = .interior) :
    ∀ {l : List Nat}, (∀ i ∈ l, i < 15 ∧ (nd.key i).Encoded) →
      run (searchChild n slice length l) s =
        some ((l.find? fun i => (KeyTuple.norm slice length).code < (nd.key i).code).bind nd.child, s)
  | [], _ => rfl
  | i :: l, hl => by
    obtain ⟨hi, he⟩ := hl i List.mem_cons_self
    have hg : goLeft slice length (nd.keySlice i) (nd.keyLength i) = true ↔ _ := KeyTuple.goLeft_iff slice length he
    rw [searchChild, run_load_keyLength hn hi, run_load_keySlice hn hi, List.find?_cons]
    by_cases hlt : goLeft slice length (nd.keySlice i) (nd.keyLength i) = true
    · rw [if_pos hlt, run_load hn (admits_child hk (by omega)), decide_eq_true (hg.mp hlt)]
      rfl
    · rw [if_neg hlt, run_searchChild hn hk fun j hj => hl j (List.mem_cons_of_mem _ hj),
        decide_eq_false fun h => hlt (hg.mpr h)]

/-- The position of the child for a code: that of the first pivot above it, or the last child. -/
def childPos (pivots : List KeyTuple) (code : Nat) : Nat := pivots.findIdx fun k => decide (code < k.code)

theorem childPos_le (pivots : List KeyTuple) (code : Nat) : childPos pivots code ≤ pivots.length :=
  List.findIdx_le_length

/-- `get_child_of` on a tree at rest. -/
theorem run_getChildOf {link : KeySlice → Ptr} {dead : NodeId → Prop} {par : Ptr} {root : Bool}
    {pivots : List KeyTuple} {kids : List NodeId} {c : NodeId} {cd : Node} {fuel k : Nat}
    {retry : M Unit} (hn : s.node n = some nd) (hok : NodeOk link dead nd ⟨par, root, .interior pivots kids⟩)
    (hc : kids[childPos pivots (KeyTuple.norm slice length).code]? = some c)
    (hcn : s.node c = some cd) (hcs : cd.version.stable = true) (hcd : cd.version.deleted = false)
    (hf : 0 < fuel) (hk : 0 < k) :
    run (getChildOf fuel retry n slice length k nd.version) s = some ((some c, cd.version), s) := by
  obtain ⟨k, rfl⟩ : ∃ j, k = j + 1 := ⟨k - 1, by omega⟩
  obtain ⟨hkind, -, -, hp, hkids⟩ := hok.members
  obtain ⟨-, h15, henc⟩ := hok.body
  rw [← hp, Node.pivots_length] at h15
  set code := (KeyTuple.norm slice length).code with hcode
  have hle : childPos pivots code ≤ nd.nKeys := by
    rw [← nd.pivots_length, hp]
    exact childPos_le ..
  have hchild : nd.child (childPos pivots code) = some c := by
    have h1 := nd.kids_getElem? (childPos pivots code)
    rw [if_pos (by omega), hkids, List.getElem?_map, hc] at h1
    exact (Option.some.inj h1).symm
  have henc' : ∀ i ∈ List.range nd.nKeys, i < 15 ∧ (nd.key i).Encoded := by
    intro i hi
    have hi := List.mem_range.mp hi
    refine ⟨by omega, (henc (nd.key i) ?_).1⟩
    rw [← hp]
    exact List.mem_map.mpr ⟨i, List.mem_range.mpr hi, rfl⟩
  -- The search stops at the position of the child, or runs through all pivots.
  have hfind : (List.range nd.nKeys).find? (fun i => decide (code < (nd.key i).code)) =
      if childPos pivots code < nd.nKeys then some (childPos pivots code) else none := by
    have hpos : childPos pivots code = (List.range nd.nKeys).findIdx fun i => decide (code < (nd.key i).code) := by
      rw [childPos, ← hp, Node.pivots, List.findIdx_map]
      rfl
    rw [hpos]
    exact Lib.find?_range _ _
  have hload : run (orLastChild n nd.nKeys
      (((List.range nd.nKeys).find? (fun i => decide (code < (nd.key i).code))).bind nd.child)) s = some (some c, s) := by
    rw [hfind]
    split_ifs with hlt
    · simp only [Option.bind_some, hchild]
      rfl
    · have heq : childPos pivots code = nd.nKeys := by omega
      rw [Option.bind_none, orLastChild, run_load hn (admits_child hkind (by omega)), Node.get, ← heq, hchild]
  have hsearch := @run_searchChild _ _ _ slice length hn hkind _ henc'
  rw [← hcode] at hsearch
  rw [getChildOf, run_load_nKeys hn hkind, run_bind_of hsearch, run_bind_of hload]
  simp only
  rw [run_getStableVersion_bind hcn hcs hf, run_getStableVersion_bind hn hok.stable hf, if_pos ⟨rfl, hcd⟩]
  rfl

/-! ### `find_border` -/

/-- The code belongs between the two sides of the context. -/
def Ctx.Between (c : Ctx) (code : Nat) : Prop :=
  (∀ m ∈ Ctx.flatLeft c, m < 2 * code + 1) ∧ ∀ m ∈ Ctx.flatRight c, 2 * code + 1 < m

variable {par : Ptr} {link : KeySlice → Ptr} {dead : NodeId → Prop}

/-- One step down: the child for the code, with the frame around it. -/
theorem exists_child {c : Ctx} {i : NodeId} {f : BTree} {r : List (KeyTuple × BTree)} {code : Nat}
    (h : LayerOk s par link dead (Ctx.plug c (.interior i f r))) (hb : Ctx.Between c code) :
    ∃ (fr : Frame) (u : BTree), BTree.interior i f r = fr.plug u ∧ (u = f ∨ ∃ x ∈ r, u = x.2) ∧
      (f.id :: r.map (·.2.id))[childPos (r.map (·.1)) code]? = some u.id ∧ Ctx.Between (fr :: c) code := by
  have hs := h.sorted
  rw [Ctx.plug_flat, List.pairwise_append, List.pairwise_append] at hs
  have hflat := hs.1.2.1
  obtain ⟨fr, u, hfr, hu, hl, hle, hlt⟩ := Frame.exists_between i code f r (BTree.pivots_sorted hflat)
  have hflat' := hflat
  rw [hfr, Frame.plug_flat, List.pairwise_append, List.pairwise_append] at hflat'
  refine ⟨fr, u, hfr, hu, ?_, ?_, ?_⟩
  · have hk : f.id :: r.map (·.2.id) = fr.kids u.id := by
      have := congrArg BTree.body hfr
      simp only [Frame.plug, BTree.body, Body.interior.injEq] at this
      rw [this.2, List.map_append, ← List.cons_append, Frame.spine_kids]
      simp [Frame.kids]
    rw [hk, childPos, ← hl, Frame.kids]
    simp
  · intro m hm
    rw [Ctx.flatLeft, List.mem_append] at hm
    rcases hm with hm | hm
    · exact hb.1 m hm
    · exact Frame.flatLeft_lt hflat'.1.1 hle m hm
  · intro m hm
    rw [Ctx.flatRight, List.mem_append] at hm
    rcases hm with hm | hm
    · exact Frame.lt_flatRight hflat'.2.1 hlt m hm
    · exact hb.2 m hm

/-- The descent ends at the border for the code. -/
theorem run_descend {u : BTree} {c : Ctx} (h : LayerOk s par link dead (Ctx.plug c u))
    (hb : Ctx.Between c (KeyTuple.norm slice length).code) (hn : s.node u.id = some nd) :
    ∃ (c' : Ctx) (b : NodeId) (es : List Entry) (bd : Node), Ctx.plug c u = Ctx.plug c' (.border b es) ∧
      Ctx.Between c' (KeyTuple.norm slice length).code ∧ s.node b = some bd ∧
      ∃ N, ∀ retry fuel k, N ≤ fuel → N ≤ k →
        run (descend fuel retry slice length k u.id nd.version) s = some (some (some b, bd.version), s) := by
  induction u generalizing c nd with
  | border b es =>
    obtain ⟨nd', hn', hok⟩ := h.node_at
    obtain rfl : nd' = nd := Option.some.inj (hn'.symm.trans hn)
    refine ⟨c, b, es, nd', rfl, hb, hn, 1, fun retry fuel k _ hk => ?_⟩
    obtain ⟨k, rfl⟩ : ∃ j, k = j + 1 := ⟨k - 1, by omega⟩
    have hcast : run (toBorder b) s = some (some b, s) := by
      have hn : s.node b = some nd' := hn
      simp [toBorder, run, op, Lib.Prog.run, exec, hn, hok.members.1]
    rw [descend, if_pos hok.members.2.1]
    exact run_bind_of hcast _
  | interior i f r hf hr =>
    obtain ⟨nd', hn', hok⟩ := h.node_at
    obtain rfl : nd' = nd := Option.some.inj (hn'.symm.trans hn)
    obtain ⟨fr, u, hfr, hu, hkid, hb'⟩ := exists_child h hb
    have h' : LayerOk s par link dead (Ctx.plug (fr :: c) u) := by
      rw [Ctx.plug, ← hfr]
      exact h
    obtain ⟨cd, hcn, hcok⟩ := h'.node_at
    have ih : ∃ (c' : Ctx) (b : NodeId) (es : List Entry) (bd : Node), Ctx.plug (fr :: c) u = Ctx.plug c' (.border b es) ∧
        Ctx.Between c' (KeyTuple.norm slice length).code ∧ s.node b = some bd ∧
        ∃ N, ∀ retry fuel k, N ≤ fuel → N ≤ k →
          run (descend fuel retry slice length k u.id cd.version) s = some (some (some b, bd.version), s) := by
      rcases hu with rfl | ⟨x, hx, rfl⟩
      · exact hf h' hb' hcn
      · exact hr x hx h' hb' hcn
    obtain ⟨c', b, es, bd, hplug, hbt, hbn, N, hN⟩ := ih
    refine ⟨c', b, es, bd, ?_, hbt, hbn, N + 1, fun retry fuel k hfuel hk => ?_⟩
    · rw [← hplug, Ctx.plug, ← hfr]
    · obtain ⟨k, rfl⟩ : ∃ j, k = j + 1 := ⟨k - 1, by omega⟩
      have hchild := @run_getChildOf _ _ _ _ _ _ _ _ _ _ _ _ _ fuel fuel retry hn hok hkid hcn
        hcok.stable (h'.not_deleted hcn) (by omega) (by omega)
      have hborder : ¬ (nd'.version.border = true) := by simp [hok.members.2.1]
      rw [descend, if_neg hborder, run_bind_of hchild]
      exact hN retry fuel k (by omega) (by omega)

/-- `find_border` on a layer at rest finds the border for the code. -/
theorem run_findBorder {t : BTree} (h : LayerOk s par link dead t) (slice : KeySlice) (length : Nat) :
    ∃ (c : Ctx) (b : NodeId) (es : List Entry) (bd : Node), t = Ctx.plug c (.border b es) ∧
      Ctx.Between c (KeyTuple.norm slice length).code ∧ s.node b = some bd ∧
      ∃ N, ∀ retry, ∀ fuel ≥ N,
        run (findBorder fuel retry (some t.id) slice length fuel .ok) s = some ((.ok, some b, bd.version), s) := by
  obtain ⟨nd, hn, hok⟩ := LayerOk.node_at (c := []) h
  obtain ⟨c, b, es, bd, hplug, hbt, hbn, N, hN⟩ :=
    run_descend (c := []) h (by simp [Ctx.Between, Ctx.flatLeft, Ctx.flatRight]) hn
  refine ⟨c, b, es, bd, hplug, hbt, hbn, N + 1, fun retry fuel hfuel => ?_⟩
  obtain ⟨k, rfl⟩ : ∃ j, fuel = j + 1 := ⟨fuel - 1, by omega⟩
  have hroot : ¬ (nd.version.root = false) := by simp [hok.root, Ctx.isRoot]
  rw [findBorder, when, if_neg (by simp)]
  simp only [Lib.Prog.pure_eq, Lib.Prog.ret_bind, deref]
  rw [run_getStableVersion_bind hn hok.stable (by omega), if_neg hroot]
  by_cases hdel : nd.version.deleted = true
  · -- Only an empty root border is deleted.
    rw [if_pos hdel]
    cases t with
    | interior i f r =>
      have := hok.members.2.2.1
      simp [hdel] at this
    | border i fs =>
      have hc : c = [] := by
        cases c with
        | nil => rfl
        | cons f c => exact absurd hplug.symm (Ctx.plug_cons_ne_border f c _ i fs)
      subst hc
      simp only [Ctx.plug, BTree.border.injEq] at hplug
      obtain ⟨rfl, rfl⟩ := hplug
      obtain rfl : nd = bd := Option.some.inj (hn.symm.trans hbn)
      have hcast : run (toBorder i) s = some (some i, s) := by
        have hn : s.node i = some nd := hn
        simp [toBorder, run, op, Lib.Prog.run, exec, hn, hok.members.1]
      exact run_bind_of hcast _
  · rw [if_neg hdel, run_bind_of (hN retry (k + 1) (k + 1) (by omega) (by omega))]
    rfl

/-! ### Searches in a border -/

/-- The slots of a search: they are in bounds and their keys are encoded and in order. -/
structure SearchOk (nd : Node) (l : List Nat) : Prop where
  bound : ∀ i ∈ l, i < 15
  encoded : ∀ i ∈ l, (nd.key i).Encoded
  sorted : (l.map fun i => (nd.key i).code).Pairwise (· < ·)

namespace SearchOk
variable {i : Nat} {l : List Nat} {k : KeyTuple}

theorem tail (h : SearchOk nd (i :: l)) : SearchOk nd l :=
  ⟨fun j hj => h.bound j (List.mem_cons_of_mem _ hj), fun j hj => h.encoded j (List.mem_cons_of_mem _ hj),
    (List.pairwise_cons.mp h.sorted).2⟩

/-- Every later key is above the first. -/
theorem lt_of_mem (h : SearchOk nd (i :: l)) {j : Nat} (hj : j ∈ l) : (nd.key i).code < (nd.key j).code :=
  (List.pairwise_cons.mp h.sorted).1 _ (List.mem_map.mpr ⟨j, hj, rfl⟩)

theorem find_none (h : SearchOk nd (i :: l)) (hlt : k.code ≤ (nd.key i).code) :
    l.find? (fun j => decide (nd.key j = k)) = none := by
  refine List.find?_eq_none.mpr fun j hj => ?_
  have := h.lt_of_mem hj
  simp only [decide_eq_true_eq]
  intro hk
  rw [hk] at this
  omega

end SearchOk

variable {k : KeyTuple}

/-- The comparison at a slot, by the order of the codes. -/
theorem probe_key (hk : k.Encoded) {i : Nat} (hi : (nd.key i).Encoded) :
    (nd.key i = k ∧ probe k.slice k.length (nd.keySlice i) (nd.keyLength i) = .hit) ∨
    (k.code < (nd.key i).code ∧ probe k.slice k.length (nd.keySlice i) (nd.keyLength i) = .miss) ∨
    ((nd.key i).code < k.code ∧ probe k.slice k.length (nd.keySlice i) (nd.keyLength i) = .next) := by
  have h : probe k.slice k.length (nd.keySlice i) (nd.keyLength i) = _ := KeyTuple.probe_eq hk hi
  rw [h]
  rcases Nat.lt_trichotomy k.code (nd.key i).code with hlt | heq | hgt
  · exact Or.inr (Or.inl ⟨hlt, by rw [Nat.compare_eq_lt.mpr hlt]⟩)
  · exact Or.inl ⟨(KeyTuple.code_inj hk.length_le hi.length_le heq).symm, by rw [Nat.compare_eq_eq.mpr heq]⟩
  · exact Or.inr (Or.inr ⟨hgt, by rw [Nat.compare_eq_gt.mpr hgt]⟩)

theorem key_ne_of_code {a b : KeyTuple} (h : a.code ≠ b.code) : ¬ a = b := fun hab => h (congrArg KeyTuple.code hab)

theorem run_searchLv (hn : s.node n = some nd) (hk : k.Encoded) : ∀ {l : List Nat}, SearchOk nd l →
    run (searchLv n k.slice k.length l) s = some (l.find? (fun i => decide (nd.key i = k)), s)
  | [], _ => rfl
  | i :: l, hl => by
    have hi := hl.bound i List.mem_cons_self
    rw [searchLv, run_load_keySlice hn hi, run_load_keyLength hn hi, List.find?_cons]
    rcases probe_key hk (hl.encoded i List.mem_cons_self) with ⟨h, hp⟩ | ⟨h, hp⟩ | ⟨h, hp⟩
    · simp only [hp, decide_eq_true h]
      rfl
    · simp only [hp, decide_eq_false (key_ne_of_code h.ne'), hl.find_none h.le]
      rfl
    · simp only [hp, decide_eq_false (key_ne_of_code h.ne)]
      exact run_searchLv hn hk hl.tail

theorem run_searchLvWithoutLock (hn : s.node n = some nd) (hk : k.Encoded) :
    ∀ {l : List Nat} (found : Option Nat), SearchOk nd l →
      run (searchLvWithoutLock n k.slice k.length found l) s =
        some ((l.find? (fun i => decide (nd.key i = k))).or found, s)
  | [], found, _ => by cases found <;> rfl
  | i :: l, found, hl => by
    have hi := hl.bound i List.mem_cons_self
    rw [searchLvWithoutLock, run_load_keySlice hn hi, run_load_keyLength hn hi, List.find?_cons]
    rcases probe_key hk (hl.encoded i List.mem_cons_self) with ⟨h, hp⟩ | ⟨h, hp⟩ | ⟨h, hp⟩
    · -- The slots after the hit hold larger keys, so the found slot stays.
      simp only [hp, decide_eq_true h]
      rw [run_searchLvWithoutLock hn hk _ hl.tail, hl.find_none (by rw [h])]
      rfl
    · simp only [hp, decide_eq_false (key_ne_of_code h.ne'), hl.find_none h.le]
      rfl
    · simp only [hp, decide_eq_false (key_ne_of_code h.ne)]
      exact run_searchLvWithoutLock hn hk found hl.tail

/-- The test that `compute_rank_if_insert` makes at a slot is the one of the lookups. -/
theorem computeRankLoop_probe (n : NodeId) (slice : KeySlice) (length i index : Nat) (rest : List Nat) :
    computeRankLoop n slice length i (index :: rest) = (do
      let target ← load n (.keySlice index)
      let targetLength ← load n (.keyLength index)
      match probe slice length target targetLength with
      | .hit => do
        logError .computeRankUnexpectedPath
        pure 0
      | .miss => pure i
      | .next => computeRankLoop n slice length (i + 1) rest) := by
  rw [computeRankLoop]
  refine congrArg _ (funext fun target => congrArg _ (funext fun targetLength => ?_))
  unfold probe
  by_cases h0 : length = 0 ∧ targetLength = 0
  · rw [if_pos h0, if_pos h0]
  · rw [if_neg h0, if_neg h0]
    cases slice.memcmp target sliceSize with
    | lt => rfl
    | gt => rfl
    | eq =>
      simp only
      split
      · rfl
      · split
        · rfl
        · rfl

theorem run_computeRankLoop (hn : s.node n = some nd) (hk : k.Encoded) :
    ∀ {l : List Nat} (r : Nat), SearchOk nd l → (∀ i ∈ l, nd.key i ≠ k) →
      run (computeRankLoop n k.slice k.length r l) s =
        some (r + l.findIdx (fun i => decide (k.code < (nd.key i).code)), s)
  | [], r, _, _ => rfl
  | i :: l, r, hl, hne => by
    have hi := hl.bound i List.mem_cons_self
    rw [computeRankLoop_probe, run_load_keySlice hn hi, run_load_keyLength hn hi, List.findIdx_cons]
    rcases probe_key hk (hl.encoded i List.mem_cons_self) with ⟨h, -⟩ | ⟨h, hp⟩ | ⟨h, hp⟩
    · exact absurd h (hne i List.mem_cons_self)
    · simp only [hp, decide_eq_true h]
      rfl
    · simp only [hp, decide_eq_false (show ¬ k.code < (nd.key i).code by omega), cond_false]
      rw [run_computeRankLoop hn hk (r + 1) hl.tail fun j hj => hne j (List.mem_cons_of_mem _ hj),
        Nat.add_assoc, Nat.add_comm 1]

/-- The test of `border_node::delete_of` decides equality of the keys. -/
theorem searchKey_test (hk : k.Encoded) {i : Nat} (he : (nd.key i).Encoded) :
    ((k.length = 0 ∧ nd.keyLength i = 0) ∨
      (k.length = nd.keyLength i ∧ k.slice.memcmp (nd.keySlice i) sliceSize = .eq)) ↔ nd.key i = k := by
  rw [KeySlice.memcmp_eight, Nat.compare_eq_eq]
  constructor
  · rintro (⟨h0, h1⟩ | ⟨hl, hs⟩)
    · have hks := hk.num_eq
      have hes := he.num_eq
      have h1' : (nd.key i).length = 0 := h1
      rw [h0] at hks
      rw [h1'] at hes
      refine KeyTuple.code_inj he.length_le hk.length_le ?_
      simp only [KeyTuple.code, hks, hes, h0, h1', List.take_zero]
    · refine KeyTuple.code_inj he.length_le hk.length_le ?_
      simp only [KeyTuple.code, Node.key, hl, hs]
  · rintro rfl
    exact Or.inr ⟨rfl, rfl⟩

theorem run_searchKey (hn : s.node n = some nd) (hk : k.Encoded) :
    ∀ {l : List Nat} (r : Nat) {j i : Nat}, SearchOk nd l → l[j]? = some i → nd.key i = k →
      run (searchKey n k.slice k.length r l) s = some (some (r + j, i), s)
  | a :: l, r, j, i, hl, hj, hi => by
    have ha := hl.bound a List.mem_cons_self
    have htest := searchKey_test hk (hl.encoded a List.mem_cons_self)
    rw [searchKey, run_load_keyLength hn ha, run_load_keySlice hn ha]
    cases j with
    | zero =>
      obtain rfl : a = i := Option.some.inj hj
      rw [if_pos (htest.mpr hi)]
      rfl
    | succ j =>
      have hmem : i ∈ l := List.mem_of_getElem? hj
      have hne : nd.key a ≠ k := by
        intro h
        have := hl.lt_of_mem hmem
        rw [h, hi] at this
        omega
      rw [if_neg fun h => hne (htest.mp h), run_searchKey hn hk (r + 1) hl.tail (by simpa using hj) hi]
      simp only [Option.some.injEq, Prod.mk.injEq, and_true]
      omega

/-! ### The entries of a border -/

section
variable {par : Ptr} {root : Bool} {es : List Entry}

/-- The slots of the live keys of a border, with their entries. -/
theorem slot_of_rank (h : NodeFits link dead nd ⟨par, root, .border es⟩) {r : Nat} {e : Entry} (he : es[r]? = some e) :
    ∃ i, (slotsOf nd.permutation)[r]? = some i ∧ i < 15 ∧ nd.slot i = e.slot link := by
  obtain ⟨-, -, -, -, hb, hs, -⟩ := h.members
  have hr : nd.slots[r]? = some (e.slot link) := by rw [hs, List.getElem?_map, he]; rfl
  rw [Node.slots, List.getElem?_map] at hr
  obtain ⟨i, hi, hslot⟩ := Option.map_eq_some_iff.mp hr
  exact ⟨i, hi, hb i (List.mem_of_getElem? hi), hslot⟩

/-- The entry of a live slot. -/
theorem rank_of_slot (h : NodeFits link dead nd ⟨par, root, .border es⟩) {r i : Nat}
    (hi : (slotsOf nd.permutation)[r]? = some i) : ∃ e, es[r]? = some e ∧ nd.slot i = e.slot link := by
  obtain ⟨-, -, -, -, -, hs, -⟩ := h.members
  have hr : nd.slots[r]? = some (nd.slot i) := by rw [Node.slots, List.getElem?_map, hi]; rfl
  rw [hs, List.getElem?_map] at hr
  obtain ⟨e, he, hslot⟩ := Option.map_eq_some_iff.mp hr
  exact ⟨e, he, hslot.symm⟩

theorem map_key_slots (h : NodeFits link dead nd ⟨par, root, .border es⟩) :
    (slotsOf nd.permutation).map nd.key = es.map Entry.key := by
  have := congrArg (List.map Prod.fst) h.members.2.2.2.2.2.1
  simpa [Node.slots, Node.slot, Entry.slot, Function.comp_def] using this

theorem cnk_eq_length (h : NodeFits link dead nd ⟨par, root, .border es⟩) : getCnk nd.permutation = es.length := by
  rw [← nd.slots_length, h.members.2.2.2.2.2.1, List.length_map]

/-- The searches of a border whose entries are in order. -/
theorem searchOk_of_fits (h : NodeFits link dead nd ⟨par, root, .border es⟩)
    (hs : (es.map Entry.mark).Pairwise (· < ·)) : SearchOk nd (slotsOf nd.permutation) := by
  refine ⟨h.members.2.2.2.2.1, fun i hi => ?_, ?_⟩
  · have hmem : nd.key i ∈ es.map Entry.key := by
      rw [← map_key_slots h]
      exact List.mem_map.mpr ⟨i, hi, rfl⟩
    obtain ⟨e, he, hk⟩ := List.mem_map.mp hmem
    rw [← hk]
    exact (h.body.2 e he).1
  · have : (slotsOf nd.permutation).map (fun i => (nd.key i).code) = es.map fun e => e.key.code := by
      have := congrArg (List.map KeyTuple.code) (map_key_slots h)
      simpa [Function.comp_def] using this
    rw [this]
    rw [List.pairwise_map] at hs ⊢
    refine hs.imp fun hab => ?_
    simp only [Entry.mark] at hab
    omega

end

/-- `get_lv_of` on a border at rest. -/
theorem run_getLvOf {fuel : Nat} {retry : M Unit} {root : Bool} {es : List Entry} (hn : s.node n = some nd)
    (h : NodeOk link dead nd ⟨par, root, .border es⟩) (hs : (es.map Entry.mark).Pairwise (· < ·)) (hk : k.Encoded)
    (hf : 0 < fuel) :
    run (getLvOf fuel retry n k.slice k.length) s =
      some (((slotsOf nd.permutation).find? (fun i => decide (nd.key i = k)), nd.version), s) := by
  have hsearch := run_searchLv hn hk (searchOk_of_fits h.toNodeFits hs)
  rw [getLvOf, run_getStableVersion_bind hn h.stable hf]
  obtain ⟨f, rfl⟩ : ∃ j, fuel = j + 1 := ⟨fuel - 1, by omega⟩
  rw [getLvOfLoop, run_load_permutation hn h.members.1, run_bind_of hsearch, run_getStableVersion_bind hn h.stable hf,
    if_pos rfl]
  rfl

end
end Yakushima
