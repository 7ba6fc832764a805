import Yakushima.Theorems.Split

/-! # A chain of interior splits

What `interior_split` makes of a layer, read off its levels and its pivots: a new node comes right after the
one it was split from, a pivot that goes up is neither doubled nor lost, and the order of the borders
stays. -/

namespace Yakushima
open M Permutation

namespace BTree

/-- The nodes at a depth from left to right. -/
def level : Nat → BTree → List NodeId
  | 0, t => [t.id]
  | _ + 1, border _ _ => []
  | d + 1, interior _ f r => level d f ++ r.flatMap fun x => level d x.2

mutual
/-- The pivots of all interiors in order. -/
def inorder : BTree → List KeyTuple
  | border _ _ => []
  | interior _ f r => inorder f ++ inorderRest r

def inorderRest : List (KeyTuple × BTree) → List KeyTuple
  | [] => []
  | (k, t) :: r => k :: (inorder t ++ inorderRest r)
end

theorem inorderRest_eq (r : List (KeyTuple × BTree)) : inorderRest r = r.flatMap fun x => x.1 :: x.2.inorder := by
  induction r with
  | nil => rfl
  | cons x r ih => obtain ⟨k, t⟩ := x; simp [inorderRest, ih]

/-- The pivots are in the order of the layer. -/
theorem inorder_marks_sublist (t : BTree) : (t.inorder.map KeyTuple.mark).Sublist t.flat := by
  induction t with
  | border i es => simp [inorder]
  | interior i f r hf hr =>
    rw [inorder, inorderRest_eq, flat, flatRest_eq, List.map_append]
    refine hf.append ?_
    clear hf
    induction r with
    | nil => simp
    | cons x r ih =>
      rw [List.flatMap_cons, List.flatMap_cons, List.map_append, List.map_cons]
      exact ((hr x List.mem_cons_self).cons_cons _).append (ih fun p hp => hr p (List.mem_cons_of_mem _ hp))

theorem inorder_sorted {t : BTree} (h : t.flat.Pairwise (· < ·)) : (t.inorder.map KeyTuple.code).Pairwise (· < ·) := by
  have hm := h.sublist t.inorder_marks_sublist
  rw [List.pairwise_map] at hm ⊢
  refine hm.imp fun hlt => ?_
  simp only [KeyTuple.mark] at hlt
  omega

end BTree

namespace Frame

theorem spine_level (d : Nat) (l : List (BTree × KeyTuple)) (t : BTree) :
    (spine l t).1.level d ++ (spine l t).2.flatMap (fun x => x.2.level d) =
    l.flatMap (fun x => x.1.level d) ++ t.level d := by
  induction l with
  | nil => simp [spine]
  | cons x l ih => obtain ⟨u, k⟩ := x; simp [spine, ih]

theorem spine_inorder (l : List (BTree × KeyTuple)) (t : BTree) :
    (spine l t).1.inorder ++ (spine l t).2.flatMap (fun x => x.1 :: x.2.inorder) =
      l.flatMap (fun x => x.1.inorder ++ [x.2]) ++ t.inorder := by
  induction l with
  | nil => simp [spine]
  | cons x l ih => obtain ⟨u, k⟩ := x; simp [spine, ih]

theorem plug_level (f : Frame) (t : BTree) (d : Nat) : (f.plug t).level (d + 1) =
    f.left.flatMap (fun x => x.1.level d) ++ t.level d ++ f.right.flatMap (fun x => x.2.level d) := by
  rw [plug, BTree.level, List.flatMap_append, ← List.append_assoc, spine_level]

theorem plug_inorder (f : Frame) (t : BTree) : (f.plug t).inorder =
    f.left.flatMap (fun x => x.1.inorder ++ [x.2]) ++ t.inorder ++ f.right.flatMap (fun x => x.1 :: x.2.inorder) := by
  rw [plug, BTree.inorder, BTree.inorderRest_eq, List.flatMap_append, ← List.append_assoc, spine_inorder]

section
variable {f : Frame} (hf : f.pivots.length = 15) (t : BTree) (k : KeyTuple) (u : BTree) (m : NodeId)
include hf

theorem split_level (d : Nat) : (f.split t k u m).1.level (d + 1) ++ (f.split t k u m).2.2.level (d + 1) =
    f.left.flatMap (fun x => x.1.level d) ++ t.level d ++ u.level d ++ f.right.flatMap (fun x => x.2.level d) := by
  rcases split_cases hf t k u m with ⟨a, rest, k', r, hr, -, -, h⟩ | ⟨a, rest, l, k', hl, -, -, h⟩
  · rw [h]
    simp [plug_level, hr, BTree.level]
  · rw [h]
    simp [plug_level, hl]

theorem split_inorder : (f.split t k u m).1.inorder ++ (f.split t k u m).2.1 :: (f.split t k u m).2.2.inorder =
    f.left.flatMap (fun x => x.1.inorder ++ [x.2]) ++ t.inorder ++ k :: u.inorder ++ f.right.flatMap
      (fun x => x.1 :: x.2.inorder) := by
  rcases split_cases hf t k u m with ⟨a, rest, k', r, hr, -, -, h⟩ | ⟨a, rest, l, k', hl, -, -, h⟩
  · rw [h]
    simp [plug_inorder, hr, BTree.inorder, BTree.inorderRest_eq]
  · rw [h]
    simp [plug_inorder, hl]

end
end Frame

namespace Ctx

/-- The nodes left of the hole, `d` levels below it. -/
def levelLeft : Ctx → Nat → List NodeId
  | [], _ => []
  | f :: c, d => levelLeft c (d + 1) ++ f.left.flatMap fun x => x.1.level d

def levelRight : Ctx → Nat → List NodeId
  | [], _ => []
  | f :: c, d => (f.right.flatMap fun x => x.2.level d) ++ levelRight c (d + 1)

def inorderLeft : Ctx → List KeyTuple
  | [] => []
  | f :: c => inorderLeft c ++ f.left.flatMap fun x => x.1.inorder ++ [x.2]

def inorderRight : Ctx → List KeyTuple
  | [] => []
  | f :: c => (f.right.flatMap fun x => x.1 :: x.2.inorder) ++ inorderRight c

/-- The number of consecutive full interiors above the hole. -/
def fulls : Ctx → Nat
  | [] => 0
  | f :: c => if f.pivots.length < 15 then 0 else fulls c + 1

/-- The number of levels that a new sibling adds: one when all interiors above the hole are full. -/
def grown : Ctx → Nat
  | [] => 1
  | f :: c => if f.pivots.length < 15 then 0 else grown c

theorem plug_level (c : Ctx) (t : BTree) (d : Nat) :
    (plug c t).level (c.length + d) = levelLeft c d ++ t.level d ++ levelRight c d := by
  induction c generalizing t d with
  | nil => simp [plug, levelLeft, levelRight]
  | cons f c ih =>
    rw [List.length_cons, Nat.add_right_comm, Nat.add_assoc, plug, ih, Frame.plug_level]
    simp [levelLeft, levelRight]

/-- The levels above the hole do not depend on what is in it. -/
theorem plug_level_congr {c : Ctx} {i : Nat} {f : Frame} (hf : (c : List Frame)[i]? = some f) (t u : BTree) :
    (plug c t).level (c.length - 1 - i) = (plug c u).level (c.length - 1 - i) := by
  induction c generalizing t u i with
  | nil => simp at hf
  | cons g c ih =>
    rw [List.length_cons, Nat.add_sub_cancel, plug, plug]
    cases i with
    | zero =>
      have h := fun x => plug_level c (g.plug x) 0
      simp only [BTree.level, Frame.plug_id, Nat.add_zero] at h
      rw [Nat.sub_zero, h t, h u]
    | succ i =>
      rw [Nat.sub_add_eq, Nat.sub_right_comm]
      exact ih (by simpa using hf) _ _

theorem plug_inorder (c : Ctx) (t : BTree) : (plug c t).inorder = inorderLeft c ++ t.inorder ++ inorderRight c := by
  induction c generalizing t with
  | nil => simp [plug, inorderLeft, inorderRight]
  | cons f c ih => simp [plug, inorderLeft, inorderRight, ih, Frame.plug_inorder]

theorem addRight_inorder {c : Ctx} (hc : Sized c) (t : BTree) (k : KeyTuple) (u : BTree) (m : NodeId) :
    (addRight c t k u m).inorder = inorderLeft c ++ (t.inorder ++ k :: u.inorder) ++ inorderRight c := by
  induction c generalizing t k u m with
  | nil => simp [addRight, BTree.inorder, BTree.inorderRest, inorderLeft, inorderRight]
  | cons f c ih =>
    rw [addRight]
    split_ifs with h
    · rw [plug_inorder, Frame.plug_inorder]
      simp [Frame.addAfter, inorderLeft, inorderRight]
    · have hf : f.pivots.length = 15 := by
        have := hc f List.mem_cons_self
        omega
      rw [ih (fun g hg => hc g (List.mem_cons_of_mem _ hg)), Frame.split_inorder hf]
      simp [inorderLeft, inorderRight]

/-- The levels from the one of the hole on: the nodes of the new sibling come right after those of the old node. -/
theorem addRight_level {c : Ctx} (hc : Sized c) (t : BTree) (k : KeyTuple) (u : BTree) (m : NodeId) (d : Nat) :
    (addRight c t k u m).level (c.length + d + grown c) = levelLeft c d ++ (t.level d ++ u.level d) ++ levelRight c d := by
  induction c generalizing t k u m d with
  | nil => simp [addRight, grown, BTree.level, levelLeft, levelRight]
  | cons f c ih =>
    rw [addRight, grown, List.length_cons, Nat.add_right_comm c.length 1 d, Nat.add_assoc c.length d 1]
    split_ifs with h
    · rw [Nat.add_zero, plug_level, Frame.plug_level]
      simp [Frame.addAfter, levelLeft, levelRight]
    · have hf : f.pivots.length = 15 := by
        have := hc f List.mem_cons_self
        omega
      rw [ih (fun g hg => hc g (List.mem_cons_of_mem _ hg)), Frame.split_level hf]
      simp [levelLeft, levelRight]

/-- The levels above the hole: a full interior is followed by the one split from it. -/
theorem addRight_level_above {c : Ctx} (hc : Sized c) (t : BTree) (k : KeyTuple) (u : BTree)
    (m : NodeId) {i : Nat} {f : Frame} (hf : (c : List Frame)[i]? = some f) :
    ∃ L R, (plug c t).level (c.length - 1 - i) = L ++ f.id :: R ∧
      (addRight c t k u m).level (c.length - 1 - i + grown c) =
      L ++ f.id :: ((if i < fulls c then [m + i] else []) ++ R) := by
  induction c generalizing t k u m i with
  | nil => simp at hf
  | cons g c ih =>
    have hc' : Sized c := fun g hg => hc g (List.mem_cons_of_mem _ hg)
    rw [List.length_cons, Nat.add_sub_cancel, plug, addRight, grown, fulls]
    cases i with
    | zero =>
      obtain rfl : g = f := by simpa using hf
      refine ⟨levelLeft c 0, levelRight c 0, by rw [Nat.sub_zero]; simpa [BTree.level] using plug_level c (g.plug t) 0, ?_⟩
      rw [Nat.sub_zero]
      split_ifs with h h' h'
      · exact absurd h' (Nat.lt_irrefl 0)
      · simpa [BTree.level, Frame.addAfter] using plug_level c ((g.addAfter k u).plug t) 0
      · have hg : g.pivots.length = 15 := by
          have := hc g List.mem_cons_self
          omega
        obtain ⟨h1, h2⟩ := Frame.split_id hg t k u m
        simpa [BTree.level, h1, h2] using addRight_level hc' (g.split t k u m).1 (g.split t k u m).2.1
          (g.split t k u m).2.2 (m + 1) 0
      · exact absurd (Nat.succ_pos _) h'
    | succ i =>
      have hf' : (c : List Frame)[i]? = some f := by simpa using hf
      rw [Nat.sub_add_eq, Nat.sub_right_comm]
      split_ifs with h h' h'
      · exact absurd h' (Nat.not_lt_zero _)
      · obtain ⟨L, R, h1, -⟩ := ih hc' (g.plug t) k u m hf'
        exact ⟨L, R, h1, (plug_level_congr hf' _ _).trans h1⟩
      · obtain ⟨L, R, h1, h2⟩ := ih hc' (g.split t k u m).1 (g.split t k u m).2.1 (g.split t k u m).2.2 (m + 1) hf'
        rw [if_pos (Nat.lt_of_succ_lt_succ h')] at h2
        refine ⟨L, R, (plug_level_congr hf' _ _).trans h1, h2.trans ?_⟩
        rw [Nat.add_assoc, Nat.add_comm 1 i]
      · obtain ⟨L, R, h1, h2⟩ := ih hc' (g.split t k u m).1 (g.split t k u m).2.1 (g.split t k u m).2.2 (m + 1) hf'
        rw [if_neg fun hi => h' (Nat.succ_lt_succ hi)] at h2
        exact ⟨L, R, (plug_level_congr hf' _ _).trans h1, h2⟩

end Ctx

/-- The children of an interior of a tree are nodes of the tree that have it as their parent. -/
theorem BTree.desc_kid {t : BTree} {x y : NodeId} {par p : Ptr} {root rt : Bool} {pivots : List KeyTuple}
    {kids : List NodeId} (h : (x, ⟨p, rt, .interior pivots kids⟩) ∈ t.descs par root) (hy : y ∈ kids) :
    ∃ d, (y, d) ∈ t.descs par root ∧ d.parent = some x := by
  induction t generalizing par root with
  | border i es => simp [descs] at h
  | interior i f r hf hr =>
    simp only [descs, descsRest_eq, List.mem_cons, List.mem_append, List.mem_flatMap, Prod.mk.injEq, Desc.mk.injEq,
      Body.interior.injEq] at h ⊢
    rcases h with ⟨rfl, -, -, -, rfl⟩ | h | ⟨z, hz, h⟩
    · rcases List.mem_cons.mp hy with rfl | hy
      · exact ⟨_, Or.inr (Or.inl (by rw [descs_eq]; exact List.mem_cons_self)), rfl⟩
      · obtain ⟨z, hz, rfl⟩ := List.mem_map.mp hy
        exact ⟨_, Or.inr (Or.inr ⟨z, hz, by rw [descs_eq]; exact List.mem_cons_self⟩), rfl⟩
    · obtain ⟨d, hd, hp⟩ := hf h
      exact ⟨d, Or.inr (Or.inl hd), hp⟩
    · obtain ⟨d, hd, hp⟩ := hr z hz h
      exact ⟨d, Or.inr (Or.inr ⟨z, hz, hd⟩), hp⟩

section
variable {link : KeySlice → Ptr} {dead : NodeId → Prop} {s s' : State} {ti : TreeId} {par : Ptr} {f : Frame} {c : Ctx}
  {t u : BTree} {k : KeyTuple} {pd : Node}

/-- No child of an interior is null, and each child leads back to the interior. -/
def ChildrenOk (s : State) (t : BTree) : Prop :=
  ∀ x nd, x ∈ t.ids → s.node x = some nd → nd.kind = .interior →
    ∀ i < nd.nKeys + 1, ∃ y yd, nd.child i = some y ∧ s.node y = some yd ∧ yd.parent = some x

theorem NodesOk.children {root : Bool} (h : NodesOk link dead s (t.descs par root)) : ChildrenOk s t := by
  intro x nd hx hn hk i hi
  obtain ⟨⟨p, rt, body⟩, hd⟩ := BTree.exists_desc_of_mem_ids par root hx
  obtain ⟨nd', hn', hok⟩ := h _ hd
  obtain rfl : nd' = nd := Option.some.inj (hn'.symm.trans hn)
  cases body with
  | border es => exact absurd (hk.symm.trans hok.members.1) (by decide)
  | interior pivots kids =>
    have hkids : nd'.kids = kids.map some := hok.members.2.2.2.2
    have hc := nd'.kids_getElem? i
    rw [if_pos hi, hkids, List.getElem?_map] at hc
    obtain ⟨y, hy, hyc⟩ := Option.map_eq_some_iff.mp hc
    obtain ⟨d, hdy, hdp⟩ := BTree.desc_kid hd (List.mem_of_getElem? hy)
    obtain ⟨yd, hyd, hyok⟩ := h _ hdy
    exact ⟨y, yd, hyc.symm, hyd, hyok.parent.trans hdp⟩

/-- A layer, in which the node `t` has just been split into `t` and `u` with the pivot `k` between them, before and
    after the splits of the interiors above. The interiors made by the splits have the identities from `m` on. -/
structure SplitChain (c : Ctx) (t : BTree) (k : KeyTuple) (u : BTree) (m : NodeId) (t' : BTree) : Prop where
  borders : ∃ L R, (Ctx.plug c t).borders = L ++ t.borders ++ R ∧ t'.borders = L ++ (t.borders ++ u.borders) ++ R
  pivots : ∃ L R, (Ctx.plug c t).inorder = L ++ t.inorder ++ R ∧ t'.inorder = L ++ (t.inorder ++ k :: u.inorder) ++ R
  sorted : (t'.inorder.map KeyTuple.code).Pairwise (· < ·)
  above : ∀ i f, (c : List Frame)[i]? = some f → ∃ L R, (Ctx.plug c t).level (c.length - 1 - i) = L ++ f.id :: R ∧
    t'.level (c.length - 1 - i + Ctx.grown c) = L ++ f.id :: ((if i < Ctx.fulls c then [m + i] else []) ++ R)
  below : ∀ d, ∃ L R, (Ctx.plug c t).level (c.length + d) = L ++ t.level d ++ R ∧
    t'.level (c.length + d + Ctx.grown c) = L ++ (t.level d ++ u.level d) ++ R
  nodes : t'.ids.Perm ((Ctx.plug c t).ids ++ u.ids ++ List.range' m (Ctx.splits c))

theorem splitChain_addRight (hc : Ctx.Sized c) (m : NodeId)
    (hs : (Ctx.flatLeft c ++ (t.flat ++ k.mark :: u.flat) ++ Ctx.flatRight c).Pairwise (· < ·)) :
    SplitChain c t k u m (Ctx.addRight c t k u m) where
  borders := ⟨_, _, Ctx.plug_borders c t, Ctx.addRight_borders hc t k u m⟩
  pivots := ⟨_, _, Ctx.plug_inorder c t, Ctx.addRight_inorder hc t k u m⟩
  sorted := BTree.inorder_sorted (by rwa [Ctx.addRight_flat hc])
  above := fun _ _ hf => Ctx.addRight_level_above hc t k u m hf
  below := fun d => ⟨_, _, Ctx.plug_level c t d, Ctx.addRight_level hc t k u m d⟩
  nodes := by
    refine (Ctx.addRight_ids hc t k u m).trans (List.Perm.append_right _ ?_)
    rw [← List.append_assoc]
    exact (Ctx.plug_ids_perm c t).symm.append_right _

/-- `interior_split` on a full interior that got a new child. -/
theorem interior_split_keeps_order (h : SplitPre link dead s ti par f c t k u pd) (hfull : f.pivots.length = 15) :
    ∃ s' t', (∃ N, ∀ fuel j, N ≤ fuel → N ≤ j →
      run (interiorSplit fuel ti j f.id u.id k.slice k.length) s = some ((), s')) ∧
      SplitChain (f :: c) t k u s.nextNode t' ∧ NodesOk link dead s' (t'.descs par true) ∧ ChildrenOk s' t' ∧
      Above Version.inserted s s' ti par (Ctx.rootId (f :: c) t.id) t'.id ∧ s'.nextNode = s.nextNode + Ctx.splits
        (f :: c) := by
  obtain ⟨s', hrun, hpost⟩ := run_interiorSplit h hfull
  have hsized : Ctx.Sized (f :: c) := by
    intro g hg
    rcases List.mem_cons.mp hg with rfl | hg
    · exact Nat.le_of_eq hfull
    · exact h.outer.sized g hg
  exact ⟨s', _, hrun, splitChain_addRight hsized s.nextNode h.sorted, hpost.nodes, hpost.nodes.children,
    hpost.above, hpost.next⟩

/-- The entry of a one-byte key. -/
def byteEntry (i : Nat) : Entry := ⟨.ofKey [UInt8.ofNat i], .value (.word 0)⟩

/-- A border below an interior, with the one-byte key `i`. -/
def byteBorder (p : Ptr) (i : Nat) : Node :=
  { Node.fresh .border with
    version := { Version.init with border := true }
    parent := p
    keySlice := fun _ => .ofKey [UInt8.ofNat i]
    keyLength := fun _ => 1
    permutation := 1
    lv := fun _ => .value (.word 0) }

theorem byteBorder_ok (p : Ptr) (i : Nat) :
    NodeOk (fun _ => none) (fun _ => False) (byteBorder p i) ⟨p, false, .border [byteEntry i]⟩ := by
  have hslots : slotsOf (byteBorder p i).permutation = [0] := by
    change slotsOf 1 = [0]
    decide
  refine ⟨⟨rfl, rfl, ⟨by simp, ?_⟩, rfl, rfl, fun _ => rfl, by simp [hslots], by simp [hslots], ?_,
    fun _ _ _ => trivial⟩, rfl⟩
  · intro e he
    rw [List.mem_singleton.mp he]
    exact ⟨KeyTuple.ofKey_encoded _, by simp [byteEntry, KeyTuple.ofKey, keyLength, sliceSize]⟩
  · rw [Node.slots, hslots]
    rfl

/-- A full root interior with the borders 1 to 16 as its children, whose first child is in the hole. -/
def fullFrame : Frame :=
  ⟨0, [], (List.range 15).map fun j => (.ofKey [UInt8.ofNat (4 * (j + 2))], .border (j + 2) [byteEntry (4 * (j + 2))])⟩

def fullInterior : Node :=
  { Node.fresh .interior with
    version := { Version.init with locked := true, root := true }
    keySlice := fun i => .ofKey [UInt8.ofNat (4 * (i + 2))]
    keyLength := fun _ => 1
    nKeys := 15
    child := fun i => some (i + 1) }

/-- The memory in which the border 1 has been split and the border 17 is handed to the full interior 0. -/
def handedUp : State :=
  { State.init with
    node := fun x => if x = 0 then some fullInterior else if x = 17 then some (byteBorder none 6)
      else some (byteBorder (some 0) (4 * x))
    nextNode := 18
    root := fun _ => some 0 }

theorem handedUp_pre : SplitPre (fun _ => none) (fun _ => False) handedUp 0 none fullFrame []
    (.border 1 [byteEntry 4]) (.ofKey [6]) (.border 17 [byteEntry 6]) fullInterior where
  outer := fun p hp => absurd hp List.not_mem_nil
  trees := by
    intro y hy p hp
    obtain ⟨j, hj, rfl⟩ : ∃ j : Nat, j < 16 ∧ y = .border (j + 1) [byteEntry (4 * (j + 1))] := by
      simp only [Frame.trees, fullFrame, List.map_nil, List.nil_append, List.map_map, List.mem_cons, List.mem_map,
        List.mem_range] at hy
      rcases hy with rfl | ⟨j, hj, rfl⟩
      · exact ⟨0, by decide, rfl⟩
      · exact ⟨j + 1, by omega, rfl⟩
    obtain rfl := List.mem_singleton.mp hp
    refine ⟨byteBorder (some 0) (4 * (j + 1)), ?_, byteBorder_ok _ _⟩
    have h17 : j + 1 ≠ 17 := by omega
    simp [handedUp, h17]
  new := ⟨none, fun p hp => by
    obtain rfl := List.mem_singleton.mp hp
    exact ⟨_, rfl, byteBorder_ok _ _⟩⟩
  node := rfl
  parent := rfl
  root := rfl
  body := by
    refine ⟨by decide, by decide, fun p hp => ?_⟩
    simp only [Frame.pivots, fullFrame, List.map_nil, List.nil_append, List.map_map, List.mem_map] at hp
    obtain ⟨j, -, rfl⟩ := hp
    exact ⟨KeyTuple.ofKey_encoded _, by simp [KeyTuple.ofKey, keyLength, sliceSize]⟩
  members := ⟨rfl, rfl, rfl, rfl, rfl⟩
  key := ⟨KeyTuple.ofKey_encoded _, by decide⟩
  sorted := by decide +kernel
  nodup := by decide +kernel
  lt := by decide +kernel
  upper := ⟨fun _ => rfl, fun p hp => absurd hp (by simp)⟩
  above := fun p hp => absurd hp (by simp)

/-- The full root is split. -/
theorem interior_split_keeps_order_root : ∃ s' t',
    (∃ N, ∀ fuel j, N ≤ fuel → N ≤ j → run (interiorSplit fuel 0 j 0 17 (.ofKey [6]) 1) handedUp = some ((), s')) ∧
    SplitChain [fullFrame] (.border 1 [byteEntry 4]) (.ofKey [6]) (.border 17 [byteEntry 6]) 18 t' ∧
    NodesOk (fun _ => none) (fun _ => False) s' (t'.descs none true) ∧ ChildrenOk s' t' ∧
    Above Version.inserted handedUp s' 0 none 0 t'.id ∧ s'.nextNode = 20 :=
  interior_split_keeps_order handedUp_pre (by decide)

end
end Yakushima
