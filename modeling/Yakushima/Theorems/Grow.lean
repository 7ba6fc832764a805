import Yakushima.Theorems.Interior

/-! # A node gets a right sibling

The tree side of `border_split` and `interior_split`: a node of a layer is followed by a new sibling and
the pivot between them. A parent with room takes both; a full one is split in its turn, and above the root
a new root is made. New interiors get the identities from `m` on. -/

namespace Yakushima

namespace Frame

/-- The frame with a further child right after the hole. -/
def addAfter (f : Frame) (k : KeyTuple) (u : BTree) : Frame := { f with right := (k, u) :: f.right }

/-- A full interior split, with `t` in the hole and `u` right after it: the lower interior, the pivot
    and the upper interior. -/
def split (f : Frame) (t : BTree) (k : KeyTuple) (u : BTree) (m : NodeId) : BTree × KeyTuple × BTree :=
  if f.left.length ≤ 7 then
    match f.right.drop (7 - f.left.length) with
    | (k', r) :: rest => (Frame.plug ⟨f.id, f.left, (k, u) :: f.right.take (7 - f.left.length)⟩ t, k', .interior m r rest)
    | [] => (t, k, u)
  else
    match f.left.drop 7 with
    | (l, k') :: rest => (Frame.plug ⟨f.id, f.left.take 7, []⟩ l, k', Frame.plug ⟨m, rest, (k, u) :: f.right⟩ t)
    | [] => (t, k, u)

/-- The two shapes of a split. -/
theorem split_cases {f : Frame} (hf : f.pivots.length = 15) (t : BTree) (k : KeyTuple) (u : BTree) (m : NodeId) :
    (∃ (a rest : List (KeyTuple × BTree)) (k' : KeyTuple) (r : BTree), f.right = a ++ (k', r) :: rest ∧
      f.left.length + a.length = 7 ∧ rest.length = 7 ∧
      f.split t k u m = (Frame.plug ⟨f.id, f.left, (k, u) :: a⟩ t, k', .interior m r rest)) ∨
    (∃ (a rest : List (BTree × KeyTuple)) (l : BTree) (k' : KeyTuple), f.left = a ++ (l, k') :: rest ∧
      a.length = 7 ∧ rest.length + f.right.length = 7 ∧
      f.split t k u m = (Frame.plug ⟨f.id, a, []⟩ l, k', Frame.plug ⟨m, rest, (k, u) :: f.right⟩ t)) := by
  have hlen : f.left.length + f.right.length = 15 := by simpa [pivots] using hf
  unfold split
  split_ifs with h
  · left
    cases hd : f.right.drop (7 - f.left.length) with
    | nil =>
      have := congrArg List.length hd
      simp only [List.length_drop, List.length_nil] at this
      omega
    | cons x rest =>
      obtain ⟨k', r⟩ := x
      have hl := congrArg List.length hd
      simp only [List.length_drop, List.length_cons] at hl
      refine ⟨f.right.take (7 - f.left.length), rest, k', r, ?_, ?_, by omega, rfl⟩
      · rw [← hd, List.take_append_drop]
      · rw [List.length_take]
        omega
  · right
    cases hd : f.left.drop 7 with
    | nil =>
      have := congrArg List.length hd
      simp only [List.length_drop, List.length_nil] at this
      omega
    | cons x rest =>
      obtain ⟨l, k'⟩ := x
      have hl := congrArg List.length hd
      simp only [List.length_drop, List.length_cons] at hl
      refine ⟨f.left.take 7, rest, l, k', ?_, ?_, by omega, rfl⟩
      · rw [← hd, List.take_append_drop]
      · rw [List.length_take]
        omega

section
variable {f : Frame} (hf : f.pivots.length = 15) (t : BTree) (k : KeyTuple) (u : BTree) (m : NodeId)
include hf

theorem split_id : (f.split t k u m).1.id = f.id ∧ (f.split t k u m).2.2.id = m := by
  rcases split_cases hf t k u
    m with ⟨a, rest, k', r, -, -, -, h⟩ | ⟨a, rest, l, k', -, -, -, h⟩ <;> rw [h] <;> exact ⟨rfl, rfl⟩

theorem split_flat : (f.split t k u m).1.flat ++ (f.split t k u m).2.1.mark :: (f.split t k u m).2.2.flat =
    f.flatLeft ++ t.flat ++ k.mark :: u.flat ++ f.flatRight := by
  rcases split_cases hf t k u m with ⟨a, rest, k', r, hr, -, -, h⟩ | ⟨a, rest, l, k', hl, -, -, h⟩
  · rw [h]
    simp [plug_flat, flatLeft, flatRight, hr, BTree.flat, BTree.flatRest_eq]
  · rw [h]
    simp [plug_flat, flatLeft, flatRight, hl]

theorem split_borders : (f.split t k u m).1.borders ++ (f.split t k u m).2.2.borders =
    f.bordersLeft ++ t.borders ++ u.borders ++ f.bordersRight := by
  rcases split_cases hf t k u m with ⟨a, rest, k', r, hr, -, -, h⟩ | ⟨a, rest, l, k', hl, -, -, h⟩
  · rw [h]
    simp [plug_borders, bordersLeft, bordersRight, hr, BTree.borders, BTree.bordersRest_eq]
  · rw [h]
    simp [plug_borders, bordersLeft, bordersRight, hl]

end

/-- The children of the interior, with `t` in the hole. -/
def trees (f : Frame) (t : BTree) : List BTree := f.left.map (·.1) ++ t :: f.right.map (·.2)

theorem kids_eq_trees (f : Frame) (t : BTree) : f.kids t.id = (f.trees t).map BTree.id := by
  simp [kids, trees, Function.comp_def]

theorem mem_plug_inner {f : Frame} {t : BTree} {x : NodeId × Desc} :
    x ∈ (f.plug t).inner ↔ ∃ y ∈ f.trees t, x ∈ y.descs (some f.id) false := by
  rw [plug, BTree.inner, BTree.descsRest_eq, List.flatMap_append, ← List.append_assoc, spine_descs]
  simp only [trees, List.mem_append, List.mem_flatMap, List.mem_cons, List.mem_map]
  constructor
  · rintro ((⟨y, hy, h⟩ | h) | ⟨y, hy, h⟩)
    · exact ⟨y.1, Or.inl ⟨y, hy, rfl⟩, h⟩
    · exact ⟨t, Or.inr (Or.inl rfl), h⟩
    · exact ⟨y.2, Or.inr (Or.inr ⟨y, hy, rfl⟩), h⟩
  · rintro ⟨y, ⟨z, hz, rfl⟩ | rfl | ⟨z, hz, rfl⟩, h⟩
    · exact Or.inl (Or.inl ⟨z, hz, h⟩)
    · exact Or.inl (Or.inr h)
    · exact Or.inr ⟨z, hz, h⟩

theorem plug_body (f : Frame) (t : BTree) : (f.plug t).body = .interior f.pivots (f.kids t.id) := by
  have hk : (spine f.left t).1.id :: ((spine f.left t).2 ++ f.right).map (·.2.id) = f.kids t.id := by
    rw [List.map_append, ← List.cons_append, spine_kids]
    simp [kids]
  have hp : ((spine f.left t).2 ++ f.right).map (·.1) = f.pivots := by
    rw [List.map_append, spine_pivots]
    rfl
  rw [plug, BTree.body, hk, hp]

/-- The identities of a frame outside its hole. -/
def ids (f : Frame) : List NodeId :=
  f.id :: (f.left.flatMap (fun x => x.1.ids) ++ f.right.flatMap (fun x => x.2.ids))

theorem plug_ids_perm (f : Frame) (t : BTree) : (f.plug t).ids.Perm (f.ids ++ t.ids) := by
  have h := (f.plug_descs_perm t none false).map (·.1)
  rw [List.map_append, BTree.map_fst_descs, BTree.map_fst_descs] at h
  refine h.trans (List.Perm.of_eq ?_)
  simp only [descs, ids, List.map_cons, List.map_append, List.map_flatMap, BTree.map_fst_descs]

theorem split_ids {f : Frame} (hf : f.pivots.length = 15) (t : BTree) (k : KeyTuple) (u : BTree) (m : NodeId) :
    ((f.split t k u m).1.ids ++ (f.split t k u m).2.2.ids).Perm (m :: (f.ids ++ (t.ids ++ u.ids))) := by
  rcases split_cases hf t k u m with ⟨a, rest, k', r, hr, -, -, h⟩ | ⟨a, rest, l, k', hl, -, -, h⟩
  · rw [h]
    refine ((plug_ids_perm _ t).append_right _).trans ?_
    simp only [BTree.ids_interior, ids, hr, List.flatMap_append, List.flatMap_cons]
    rw [List.perm_iff_count]
    intro x
    simp only [List.count_append, List.count_cons]
    omega
  · rw [h]
    refine ((plug_ids_perm _ l).append (plug_ids_perm _ t)).trans ?_
    simp only [ids, hl, List.flatMap_append, List.flatMap_cons, List.flatMap_nil]
    rw [List.perm_iff_count]
    intro x
    simp only [List.count_append, List.count_cons, List.count_nil]
    omega

end Frame

namespace Ctx

/-- The number of interiors that a new sibling makes. -/
def splits : Ctx → Nat
  | [] => 1
  | f :: c => if f.pivots.length < 15 then 0 else splits c + 1

/-- The tree when `t` gets the right sibling `u` with the pivot `k`. -/
def addRight : Ctx → BTree → KeyTuple → BTree → NodeId → BTree
  | [], t, k, u, m => .interior m t [(k, u)]
  | f :: c, t, k, u, m =>
    if f.pivots.length < 15 then plug c ((f.addAfter k u).plug t)
    else addRight c (f.split t k u m).1 (f.split t k u m).2.1 (f.split t k u m).2.2 (m + 1)

/-- Every interior of a context has between 1 and 15 pivots. -/
def Sized (c : Ctx) : Prop := ∀ f ∈ c, f.pivots.length ≤ 15

theorem addRight_flat {c : Ctx} (hc : Sized c) (t : BTree) (k : KeyTuple) (u : BTree) (m : NodeId) :
    (addRight c t k u m).flat = flatLeft c ++ (t.flat ++ k.mark :: u.flat) ++ flatRight c := by
  induction c generalizing t k u m with
  | nil => simp [addRight, BTree.flat, BTree.flatRest, flatLeft, flatRight]
  | cons f c ih =>
    rw [addRight]
    split_ifs with h
    · rw [plug_flat, Frame.plug_flat]
      simp [Frame.addAfter, Frame.flatLeft, Frame.flatRight, flatLeft, flatRight]
    · have hf : f.pivots.length = 15 := by
        have := hc f List.mem_cons_self
        omega
      rw [ih (fun g hg => hc g (List.mem_cons_of_mem _ hg)), Frame.split_flat hf]
      simp [flatLeft, flatRight]

theorem addRight_borders {c : Ctx} (hc : Sized c) (t : BTree) (k : KeyTuple) (u : BTree) (m : NodeId) :
    (addRight c t k u m).borders = bordersLeft c ++ (t.borders ++ u.borders) ++ bordersRight c := by
  induction c generalizing t k u m with
  | nil => simp [addRight, BTree.borders, BTree.bordersRest, bordersLeft, bordersRight]
  | cons f c ih =>
    rw [addRight]
    split_ifs with h
    · rw [plug_borders, Frame.plug_borders]
      simp [Frame.addAfter, Frame.bordersLeft, Frame.bordersRight, bordersLeft, bordersRight]
    · have hf : f.pivots.length = 15 := by
        have := hc f List.mem_cons_self
        omega
      rw [ih (fun g hg => hc g (List.mem_cons_of_mem _ hg)), Frame.split_borders hf]
      simp [bordersLeft, bordersRight]

theorem ids_cons (f : Frame) (c : Ctx) : (ids (f :: c)).Perm (f.ids ++ ids c) := by
  refine List.Perm.of_eq ?_
  simp only [ids, descs, List.map_append, Frame.descs, List.map_cons, List.map_flatMap, BTree.map_fst_descs, Frame.ids]
  rw [map_fst_descs, map_fst_descs]

theorem addRight_ids {c : Ctx} (hc : Sized c) (t : BTree) (k : KeyTuple) (u : BTree) (m : NodeId) :
    (addRight c t k u m).ids.Perm (ids c ++ (t.ids ++ u.ids) ++ List.range' m (splits c)) := by
  induction c generalizing t k u m with
  | nil =>
    simp only [addRight, BTree.ids_interior, List.flatMap_cons, List.flatMap_nil, List.append_nil, ids, descs,
      List.map_nil, List.nil_append, splits, List.range'_one]
    exact (List.perm_append_singleton _ _).symm
  | cons f c ih =>
    rw [addRight, splits]
    split_ifs with h
    · refine (plug_ids_perm c _).trans ?_
      refine ((Frame.plug_ids_perm _ t).append_left _).trans ?_
      refine List.Perm.trans ?_ (((ids_cons f c).append_right _).append_right _).symm
      simp only [Frame.ids, Frame.addAfter, List.flatMap_cons]
      rw [List.perm_iff_count]
      intro x
      simp only [List.count_append, List.count_cons, List.range'_zero, List.count_nil]
      omega
    · have hf : f.pivots.length = 15 := by
        have := hc f List.mem_cons_self
        omega
      refine (ih (fun g hg => hc g (List.mem_cons_of_mem _ hg)) _ _ _ _).trans ?_
      refine (((Frame.split_ids hf t k u m).append_left _).append_right _).trans ?_
      refine List.Perm.trans ?_ (((ids_cons f c).append_right _).append_right _).symm
      rw [List.perm_iff_count]
      intro x
      simp only [List.count_append, List.count_cons, List.range'_succ]
      omega

end Ctx
end Yakushima
