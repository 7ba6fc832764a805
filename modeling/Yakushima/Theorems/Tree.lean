import Yakushima.Theorems.Key

/-! # The trees of a layer

A layer is a B+ tree of borders and interiors. A tree is read in three ways: the list of its nodes with
what each of them must hold (`descs`), its borders from left to right (`borders`), and the codes of its
pivots and entries in order (`flat`), by whose order the layer is a search tree. A context is the part
of a tree around one of its nodes; the three readings of a tree are those of the context around those
of the node. -/

namespace Yakushima

/-- What an entry of a border holds. -/
inductive Content where
  | value (v : ValuePtr)
  | layer
deriving DecidableEq

/-- An entry of a border: its key, and its value or the layer behind it. -/
structure Entry where
  key : KeyTuple
  content : Content
deriving DecidableEq

/-- A tree of a layer; an interior has a first child and further children with their pivots. -/
inductive BTree where
  | border (id : NodeId) (es : List Entry)
  | interior (id : NodeId) (first : BTree) (rest : List (KeyTuple × BTree))

/-- What a node holds, by its class. -/
inductive Body where
  | border (es : List Entry)
  | interior (pivots : List KeyTuple) (kids : List NodeId)

/-- What is asked of a node: its parent, whether it is a layer root, and its members. -/
structure Desc where
  parent : Ptr
  root : Bool
  body : Body

/-- The place of an entry in the order of a layer. An entry comes right after a pivot of its key. -/
def Entry.mark (e : Entry) : Nat := 2 * e.key.code + 1

/-- The place of a pivot in the order of a layer. -/
def KeyTuple.mark (k : KeyTuple) : Nat := 2 * k.code

namespace BTree

def id : BTree → NodeId
  | border i _ => i
  | interior i _ _ => i

mutual
/-- The nodes of a tree under a parent, with what each of them holds. -/
def descs (parent : Ptr) (root : Bool) : BTree → List (NodeId × Desc)
  | border i es => [(i, ⟨parent, root, .border es⟩)]
  | interior i f r =>
    (i, ⟨parent, root, .interior (r.map (·.1)) (f.id :: r.map (·.2.id))⟩) :: (descs (some i) false f ++ descsRest i r)

def descsRest (parent : NodeId) : List (KeyTuple × BTree) → List (NodeId × Desc)
  | [] => []
  | (_, t) :: r => descs (some parent) false t ++ descsRest parent r
end

mutual
/-- The borders from left to right. -/
def borders : BTree → List (NodeId × List Entry)
  | border i es => [(i, es)]
  | interior _ f r => borders f ++ bordersRest r

def bordersRest : List (KeyTuple × BTree) → List (NodeId × List Entry)
  | [] => []
  | (_, t) :: r => borders t ++ bordersRest r
end

mutual
/-- The marks of the pivots and entries from left to right. -/
def flat : BTree → List Nat
  | border _ es => es.map Entry.mark
  | interior _ f r => flat f ++ flatRest r

def flatRest : List (KeyTuple × BTree) → List Nat
  | [] => []
  | (k, t) :: r => k.mark :: (flat t ++ flatRest r)
end

def ids (t : BTree) : List NodeId := (t.descs none false).map (·.1)

/-- What the root of a tree holds. -/
def body : BTree → Body
  | border _ es => .border es
  | interior _ f r => .interior (r.map (·.1)) (f.id :: r.map (·.2.id))

/-- The nodes of a tree below its root. -/
def inner : BTree → List (NodeId × Desc)
  | border _ _ => []
  | interior i f r => f.descs (some i) false ++ descsRest i r

theorem descs_eq (par : Ptr) (root : Bool) (t : BTree) : t.descs par root = (t.id, ⟨par, root, t.body⟩) :: t.inner := by
  cases t <;> rfl

/-- The entries from left to right. -/
def entries (t : BTree) : List Entry := t.borders.flatMap (·.2)

mutual
/-- Induction over a tree, with the children of an interior taken together. -/
@[induction_eliminator]
theorem ind {P : BTree → Prop} (border : ∀ i es, P (border i es))
    (interior : ∀ i f r, P f → (∀ p ∈ r, P p.2) → P (interior i f r)) : ∀ t, P t
  | .border i es => border i es
  | .interior i f r => interior i f r (ind border interior f) (indRest border interior r)

theorem indRest {P : BTree → Prop} (border : ∀ i es, P (.border i es))
    (interior : ∀ i f r, P f → (∀ p ∈ r, P p.2) → P (.interior i f r)) :
    ∀ (r : List (KeyTuple × BTree)), ∀ p ∈ r, P p.2
  | [], _, h => absurd h List.not_mem_nil
  | (k, t) :: r, p, h => by
    rcases List.mem_cons.mp h with rfl | h
    · exact ind border interior t
    · exact indRest border interior r p h
end

theorem descsRest_eq (p : NodeId) (r : List (KeyTuple × BTree)) :
    descsRest p r = r.flatMap fun x => x.2.descs (some p) false := by
  induction r with
  | nil => rfl
  | cons x r ih => obtain ⟨k, t⟩ := x; simp [descsRest, ih]

theorem bordersRest_eq (r : List (KeyTuple × BTree)) : bordersRest r = r.flatMap fun x => x.2.borders := by
  induction r with
  | nil => rfl
  | cons x r ih => obtain ⟨k, t⟩ := x; simp [bordersRest, ih]

theorem flatRest_eq (r : List (KeyTuple × BTree)) : flatRest r = r.flatMap fun x => x.1.mark :: x.2.flat := by
  induction r with
  | nil => rfl
  | cons x r ih => obtain ⟨k, t⟩ := x; simp [flatRest, ih]

/-- The identities of a tree do not depend on what is above it. -/
theorem map_fst_descs (par : Ptr) (root : Bool) (t : BTree) : (t.descs par root).map (·.1) = t.ids := by
  cases t <;> simp [ids, descs]

theorem mem_ids {t : BTree} {n : NodeId} : n ∈ t.ids ↔ ∃ d, (n, d) ∈ t.descs none false := by
  simp [ids]

theorem mem_ids_of_desc {t : BTree} {par : Ptr} {root : Bool} {n : NodeId} {d : Desc}
    (h : (n, d) ∈ t.descs par root) : n ∈ t.ids := by
  rw [← map_fst_descs par root]
  exact List.mem_map.mpr ⟨(n, d), h, rfl⟩

theorem exists_desc_of_mem_ids {t : BTree} (par : Ptr) (root : Bool) {n : NodeId} (h : n ∈ t.ids) :
    ∃ d, (n, d) ∈ t.descs par root := by
  rw [← map_fst_descs par root] at h
  obtain ⟨⟨m, d⟩, hm, rfl⟩ := List.mem_map.mp h
  exact ⟨d, hm⟩

theorem id_mem_ids (t : BTree) : t.id ∈ t.ids := by cases t <;> simp [ids, descs, id]

theorem ids_interior (i : NodeId) (f : BTree) (r : List (KeyTuple × BTree)) :
    (interior i f r).ids = i :: (f.ids ++ r.flatMap fun x => x.2.ids) := by
  simp only [ids, descs, descsRest_eq, List.map_cons, List.map_append, List.map_flatMap]
  rw [map_fst_descs, map_fst_descs]
  simp only [map_fst_descs]

/-- A border of a tree is one of its nodes. -/
theorem border_desc {t : BTree} {b : NodeId} {es : List Entry} (h : (b, es) ∈ t.borders) (par : Ptr) (root : Bool) :
    ∃ p rt, (b, ⟨p, rt, .border es⟩) ∈ t.descs par root := by
  induction t generalizing par root with
  | border i fs =>
    simp only [borders, List.mem_singleton, Prod.mk.injEq] at h
    obtain ⟨rfl, rfl⟩ := h
    exact ⟨par, root, by simp [descs]⟩
  | interior i f r hf hr =>
    simp only [borders, bordersRest_eq, List.mem_append, List.mem_flatMap] at h
    simp only [descs, descsRest_eq, List.mem_cons, List.mem_append, List.mem_flatMap]
    rcases h with h | ⟨x, hx, h⟩
    · obtain ⟨p, rt, h⟩ := hf h (some i) false
      exact ⟨p, rt, Or.inr (Or.inl h)⟩
    · obtain ⟨p, rt, h⟩ := hr x hx h (some i) false
      exact ⟨p, rt, Or.inr (Or.inr ⟨x, hx, h⟩)⟩

theorem border_mem_ids {t : BTree} {b : NodeId} {es : List Entry} (h : (b, es) ∈ t.borders) : b ∈ t.ids := by
  obtain ⟨p, rt, hd⟩ := border_desc h none false
  exact mem_ids_of_desc hd

/-- A node that holds entries is a border of the tree. -/
theorem desc_border {t : BTree} {b : NodeId} {es : List Entry} {par p : Ptr} {root rt : Bool}
    (h : (b, ⟨p, rt, .border es⟩) ∈ t.descs par root) : (b, es) ∈ t.borders := by
  induction t generalizing par root with
  | border i fs =>
    simp only [descs, List.mem_singleton, Prod.mk.injEq, Desc.mk.injEq, Body.border.injEq] at h
    simp [borders, h.1, h.2.2.2]
  | interior i f r hf hr =>
    simp only [descs, descsRest_eq, List.mem_cons, List.mem_append, List.mem_flatMap, Prod.mk.injEq, Desc.mk.injEq,
      reduceCtorEq, and_false, false_or] at h
    simp only [borders, bordersRest_eq, List.mem_append, List.mem_flatMap]
    rcases h with h | ⟨x, hx, h⟩
    · exact Or.inl (hf h)
    · exact Or.inr ⟨x, hx, hr x hx h⟩

theorem mem_entries {t : BTree} {e : Entry} : e ∈ t.entries ↔ ∃ b es, (b, es) ∈ t.borders ∧ e ∈ es := by
  simp [entries]

/-- The entries are among the marks. -/
theorem mark_mem_flat {t : BTree} {e : Entry} (h : e ∈ t.entries) : e.mark ∈ t.flat := by
  induction t with
  | border i es =>
    simp only [entries, borders, List.flatMap_cons, List.flatMap_nil, List.append_nil] at h
    exact List.mem_map.mpr ⟨e, h, rfl⟩
  | interior i f r hf hr =>
    simp only [entries, borders, bordersRest_eq, List.flatMap_append, List.mem_append, List.flatMap_assoc,
      List.mem_flatMap] at h
    simp only [flat, flatRest_eq, List.mem_append, List.mem_flatMap]
    rcases h with ⟨b, hb, he⟩ | ⟨x, hx, b, hb, he⟩
    · exact Or.inl (hf (List.mem_flatMap.mpr ⟨b, hb, he⟩))
    · exact Or.inr ⟨x, hx, List.mem_cons_of_mem _ (hr x hx (List.mem_flatMap.mpr ⟨b, hb, he⟩))⟩

end BTree

/-! ### Contexts -/

/-- An interior around one of its children: the children to the left with the pivots after them, and
    those to the right with the pivots before them. -/
structure Frame where
  id : NodeId
  left : List (BTree × KeyTuple)
  right : List (KeyTuple × BTree)

namespace Frame

/-- The first child and the others when the left part stands before `t`. -/
def spine : List (BTree × KeyTuple) → BTree → BTree × List (KeyTuple × BTree)
  | [], t => (t, [])
  | (u, k) :: l, t => (u, (k, (spine l t).1) :: (spine l t).2)

/-- The interior with `t` in the place of the child. -/
def plug (f : Frame) (t : BTree) : BTree := .interior f.id (spine f.left t).1 ((spine f.left t).2 ++ f.right)

def pivots (f : Frame) : List KeyTuple := f.left.map (·.2) ++ f.right.map (·.1)

/-- The children's identities with `n` in the place of the child. -/
def kids (f : Frame) (n : NodeId) : List NodeId := f.left.map (·.1.id) ++ n :: f.right.map (·.2.id)

/-- The nodes of the interior outside the child, for a child `n`. -/
def descs (parent : Ptr) (root : Bool) (f : Frame) (n : NodeId) : List (NodeId × Desc) :=
  (f.id, ⟨parent, root, .interior f.pivots (f.kids n)⟩) ::
    (f.left.flatMap (fun x => x.1.descs (some f.id) false) ++ f.right.flatMap (fun x => x.2.descs (some f.id) false))

def bordersLeft (f : Frame) : List (NodeId × List Entry) := f.left.flatMap fun x => x.1.borders

def bordersRight (f : Frame) : List (NodeId × List Entry) := f.right.flatMap fun x => x.2.borders

def flatLeft (f : Frame) : List Nat := f.left.flatMap fun x => x.1.flat ++ [x.2.mark]

def flatRight (f : Frame) : List Nat := f.right.flatMap fun x => x.1.mark :: x.2.flat

theorem spine_pivots (l : List (BTree × KeyTuple)) (t : BTree) : (spine l t).2.map (·.1) = l.map (·.2) := by
  induction l with
  | nil => rfl
  | cons x l ih => obtain ⟨u, k⟩ := x; simp [spine, ih]

theorem spine_kids (l : List (BTree × KeyTuple)) (t : BTree) :
    (spine l t).1.id :: (spine l t).2.map (·.2.id) = l.map (·.1.id) ++ [t.id] := by
  induction l with
  | nil => rfl
  | cons x l ih => obtain ⟨u, k⟩ := x; simp [spine, ih]

theorem spine_borders (l : List (BTree × KeyTuple)) (t : BTree) :
    (spine l t).1.borders ++ (spine l t).2.flatMap (fun x => x.2.borders) =
    l.flatMap (fun x => x.1.borders) ++ t.borders := by
  induction l with
  | nil => simp [spine]
  | cons x l ih => obtain ⟨u, k⟩ := x; simp [spine, ih]

theorem spine_flat (l : List (BTree × KeyTuple)) (t : BTree) :
    (spine l t).1.flat ++ (spine l t).2.flatMap (fun x => x.1.mark :: x.2.flat) =
      l.flatMap (fun x => x.1.flat ++ [x.2.mark]) ++ t.flat := by
  induction l with
  | nil => simp [spine]
  | cons x l ih => obtain ⟨u, k⟩ := x; simp [spine, ih]

theorem spine_descs (l : List (BTree × KeyTuple)) (t : BTree) (p : NodeId) :
    (spine l t).1.descs (some p) false ++ (spine l t).2.flatMap (fun x => x.2.descs (some p) false) =
      l.flatMap (fun x => x.1.descs (some p) false) ++ t.descs (some p) false := by
  induction l with
  | nil => simp [spine]
  | cons x l ih => obtain ⟨u, k⟩ := x; simp [spine, ih]

@[simp] theorem plug_id (f : Frame) (t : BTree) : (f.plug t).id = f.id := rfl

theorem plug_borders (f : Frame) (t : BTree) : (f.plug t).borders = f.bordersLeft ++ t.borders ++ f.bordersRight := by
  rw [plug, BTree.borders, BTree.bordersRest_eq, List.flatMap_append, ← List.append_assoc, spine_borders]
  rfl

theorem plug_flat (f : Frame) (t : BTree) : (f.plug t).flat = f.flatLeft ++ t.flat ++ f.flatRight := by
  rw [plug, BTree.flat, BTree.flatRest_eq, List.flatMap_append, ← List.append_assoc, spine_flat]
  rfl

theorem plug_descs_perm (f : Frame) (t : BTree) (par : Ptr) (root : Bool) :
    ((f.plug t).descs par root).Perm (f.descs par root t.id ++ t.descs (some f.id) false) := by
  rw [plug, BTree.descs, BTree.descsRest_eq, List.flatMap_append, ← List.append_assoc, spine_descs]
  have hk : (spine f.left t).1.id :: ((spine f.left t).2 ++ f.right).map (·.2.id) = f.kids t.id := by
    rw [List.map_append, ← List.cons_append, spine_kids]
    simp [kids]
  have hp : ((spine f.left t).2 ++ f.right).map (·.1) = f.pivots := by
    rw [List.map_append, spine_pivots]
    rfl
  rw [hk, hp, descs, List.cons_append]
  refine List.Perm.cons _ ?_
  rw [List.append_assoc, List.append_assoc]
  exact List.Perm.append_left _ List.perm_append_comm

/-- An interior is a frame around each of its children. -/
theorem exists_plug (i : NodeId) (f : BTree) (r : List (KeyTuple × BTree)) {u : BTree}
    (hu : u = f ∨ ∃ k, (k, u) ∈ r) : ∃ fr : Frame, BTree.interior i f r = fr.plug u := by
  suffices ∃ (l : List (BTree × KeyTuple)) (r' : List (KeyTuple × BTree)),
      (spine l u).1 = f ∧ (spine l u).2 ++ r' = r by
    obtain ⟨l, r', hf, hr⟩ := this
    exact ⟨⟨i, l, r'⟩, by rw [plug, hf, hr]⟩
  induction r generalizing f with
  | nil =>
    obtain rfl : u = f := by simpa using hu
    exact ⟨[], [], rfl, rfl⟩
  | cons x r ih =>
    obtain ⟨k, t⟩ := x
    by_cases huf : u = f
    · exact ⟨[], (k, t) :: r, huf, rfl⟩
    · have hu' : u = t ∨ ∃ k', (k', u) ∈ r := by
        rcases hu with h | ⟨k', h⟩
        · exact absurd h huf
        · rcases List.mem_cons.mp h with h | h
          · exact Or.inl (Prod.mk.inj h).2
          · exact Or.inr ⟨k', h⟩
      obtain ⟨l, r', hf, hr⟩ := ih t hu'
      exact ⟨(f, k) :: l, r', rfl, by simp [spine, hf, hr]⟩

end Frame

/-- The frame around the child for a code. -/
theorem Frame.exists_between (i code : Nat) (f : BTree) (r : List (KeyTuple × BTree))
    (hr : (r.map (·.1.code)).Pairwise (· < ·)) :
    ∃ (fr : Frame) (u : BTree), BTree.interior i f r = fr.plug u ∧ (u = f ∨ ∃ x ∈ r, u = x.2) ∧
      fr.left.length = (r.map (·.1)).findIdx (fun k => decide (code < k.code)) ∧
      (∀ x ∈ fr.left, x.2.code ≤ code) ∧ (∀ x ∈ fr.right, code < x.1.code) := by
  suffices ∃ (l : List (BTree × KeyTuple)) (r' : List (KeyTuple × BTree)) (u : BTree),
      (spine l u).1 = f ∧ (spine l u).2 ++ r' = r ∧ (u = f ∨ ∃ x ∈ r, u = x.2) ∧
      l.length = (r.map (·.1)).findIdx (fun k => decide (code < k.code)) ∧
      (∀ x ∈ l, x.2.code ≤ code) ∧ (∀ x ∈ r', code < x.1.code) by
    obtain ⟨l, r', u, hf, hr, h⟩ := this
    exact ⟨⟨i, l, r'⟩, u, by rw [plug, hf, hr], h⟩
  induction r generalizing f with
  | nil => exact ⟨[], [], f, rfl, rfl, Or.inl rfl, rfl, by simp, by simp⟩
  | cons x r ih =>
    obtain ⟨k, t⟩ := x
    rw [List.map_cons, List.pairwise_cons] at hr
    by_cases hk : code < k.code
    · refine ⟨[], (k, t) :: r, f, rfl, rfl, Or.inl rfl, by simp [List.findIdx_cons, hk], by simp, ?_⟩
      intro x hx
      rcases List.mem_cons.mp hx with rfl | hx
      · exact hk
      · exact hk.trans (hr.1 _ (List.mem_map.mpr ⟨x, hx, rfl⟩))
    · obtain ⟨l, r', u, hf, hr', hu, hl, hle, hlt⟩ := ih t hr.2
      refine ⟨(f, k) :: l, r', u, rfl, by simp [spine, hf, hr'], Or.inr ?_, by simp [List.findIdx_cons, hk, hl], ?_, hlt⟩
      · rcases hu with rfl | ⟨x, hx, rfl⟩
        · exact ⟨(k, u), List.mem_cons_self, rfl⟩
        · exact ⟨x, List.mem_cons_of_mem _ hx, rfl⟩
      · intro x hx
        rcases List.mem_cons.mp hx with rfl | hx
        · exact Nat.not_lt.mp hk
        · exact hle x hx

/-- The pivots of an interior are in order when its marks are. -/
theorem BTree.pivots_sorted {i : NodeId} {f : BTree} {r : List (KeyTuple × BTree)}
    (h : (BTree.interior i f r).flat.Pairwise (· < ·)) : (r.map (·.1.code)).Pairwise (· < ·) := by
  rw [flat, flatRest_eq, List.pairwise_append] at h
  replace h := h.2.1
  induction r with
  | nil => simp
  | cons x r ih =>
    rw [List.flatMap_cons, List.pairwise_append] at h
    rw [List.map_cons, List.pairwise_cons]
    refine ⟨?_, ih h.2.1⟩
    intro c hc
    obtain ⟨y, hy, rfl⟩ := List.mem_map.mp hc
    have := h.2.2 _ List.mem_cons_self _ (List.mem_flatMap.mpr ⟨y, hy, List.mem_cons_self⟩)
    simp only [KeyTuple.mark] at this
    omega

/-- The marks left of the child for a code are below it, when the pivots are. -/
theorem Frame.flatLeft_lt {fr : Frame} {code : Nat} (hs : fr.flatLeft.Pairwise (· < ·))
    (h : ∀ x ∈ fr.left, x.2.code ≤ code) : ∀ m ∈ fr.flatLeft, m < 2 * code + 1 := by
  intro m hm
  obtain ⟨x, hx, hm⟩ := List.mem_flatMap.mp hm
  have hx' := h x hx
  have hp := (List.pairwise_flatMap.mp hs).1 x hx
  rw [List.pairwise_append] at hp
  rcases List.mem_append.mp hm with hm | hm
  · have := hp.2.2 m hm x.2.mark (by simp)
    simp only [KeyTuple.mark] at this
    omega
  · rw [List.mem_singleton.mp hm, KeyTuple.mark]
    omega

/-- The marks right of the child for a code are above it, when the pivots are. -/
theorem Frame.lt_flatRight {fr : Frame} {code : Nat} (hs : fr.flatRight.Pairwise (· < ·))
    (h : ∀ x ∈ fr.right, code < x.1.code) : ∀ m ∈ fr.flatRight, 2 * code + 1 < m := by
  intro m hm
  obtain ⟨x, hx, hm⟩ := List.mem_flatMap.mp hm
  have hx' := h x hx
  have hp := (List.pairwise_flatMap.mp hs).1 x hx
  rw [List.pairwise_cons] at hp
  rcases List.mem_cons.mp hm with rfl | hm
  · rw [KeyTuple.mark]
    omega
  · have := hp.1 m hm
    simp only [KeyTuple.mark] at this
    omega

/-- A context: the frames around a node, from its parent up to the root of the layer. -/
abbrev Ctx := List Frame

namespace Ctx

/-- The tree with `t` in the place of the node. -/
def plug : Ctx → BTree → BTree
  | [], t => t
  | f :: c, t => plug c (f.plug t)

/-- The parent of the node, when the parent of the root is `par`. -/
def parent (par : Ptr) : Ctx → Ptr
  | [] => par
  | f :: _ => some f.id

/-- Whether the node is the root of the layer. -/
def isRoot (root : Bool) : Ctx → Bool
  | [] => root
  | _ :: _ => false

/-- The nodes outside the node, whose identity is `n`. -/
def descs (par : Ptr) (root : Bool) : Ctx → NodeId → List (NodeId × Desc)
  | [], _ => []
  | f :: c, n => f.descs (parent par c) (isRoot root c) n ++ descs par root c f.id

def bordersLeft : Ctx → List (NodeId × List Entry)
  | [] => []
  | f :: c => bordersLeft c ++ f.bordersLeft

def bordersRight : Ctx → List (NodeId × List Entry)
  | [] => []
  | f :: c => f.bordersRight ++ bordersRight c

def flatLeft : Ctx → List Nat
  | [] => []
  | f :: c => flatLeft c ++ f.flatLeft

def flatRight : Ctx → List Nat
  | [] => []
  | f :: c => f.flatRight ++ flatRight c

/-- The root of the layer when the node's identity is `n`. -/
def rootId : Ctx → NodeId → NodeId
  | [], n => n
  | f :: c, _ => rootId c f.id

theorem plug_borders (c : Ctx) (t : BTree) : (plug c t).borders = bordersLeft c ++ t.borders ++ bordersRight c := by
  induction c generalizing t with
  | nil => simp [plug, bordersLeft, bordersRight]
  | cons f c ih => simp [plug, bordersLeft, bordersRight, ih, Frame.plug_borders]

theorem plug_flat (c : Ctx) (t : BTree) : (plug c t).flat = flatLeft c ++ t.flat ++ flatRight c := by
  induction c generalizing t with
  | nil => simp [plug, flatLeft, flatRight]
  | cons f c ih => simp [plug, flatLeft, flatRight, ih, Frame.plug_flat]

theorem plug_id (c : Ctx) (t : BTree) : (plug c t).id = rootId c t.id := by
  induction c generalizing t with
  | nil => rfl
  | cons f c ih => exact ih (f.plug t)

theorem plug_descs_perm (par : Ptr) (root : Bool) (c : Ctx) (t : BTree) :
    ((plug c t).descs par root).Perm (descs par root c t.id ++ t.descs (parent par c) (isRoot root c)) := by
  induction c generalizing t with
  | nil => simp [plug, descs, parent, isRoot]
  | cons f c ih =>
    refine (ih (f.plug t)).trans ?_
    rw [descs]
    refine (List.Perm.append_left _ (f.plug_descs_perm t _ _)).trans ?_
    rw [Frame.plug_id, ← List.append_assoc]
    exact List.Perm.append_right _ List.perm_append_comm

theorem mem_plug_descs {par : Ptr} {root : Bool} {c : Ctx} {t : BTree} {x : NodeId × Desc} :
    x ∈ (plug c t).descs par root ↔ x ∈ descs par root c t.id ∨ x ∈ t.descs (parent par c) (isRoot root c) := by
  rw [(plug_descs_perm par root c t).mem_iff, List.mem_append]

/-- The identities of the nodes outside the node. -/
def ids (c : Ctx) : List NodeId := (descs none false c 0).map (·.1)

theorem map_fst_descs (par : Ptr) (root : Bool) (c : Ctx) (n : NodeId) : (descs par root c n).map (·.1) = ids c := by
  suffices ∀ par root par' root' n m, (descs par root c n).map (·.1) = (descs par' root' c m).map (·.1) from this ..
  induction c with
  | nil => intros; rfl
  | cons f c ih =>
    intro par root par' root' n m
    simp only [descs, Frame.descs, List.map_append, List.map_cons]
    rw [ih par root par' root' f.id f.id]

theorem plug_ids_perm (c : Ctx) (t : BTree) : (plug c t).ids.Perm (ids c ++ t.ids) := by
  have h := (plug_descs_perm none false c t).map (·.1)
  rwa [List.map_append, map_fst_descs, BTree.map_fst_descs, BTree.map_fst_descs] at h

theorem mem_plug_ids {c : Ctx} {t : BTree} {n : NodeId} : n ∈ (plug c t).ids ↔ n ∈ ids c ∨ n ∈ t.ids := by
  rw [(plug_ids_perm c t).mem_iff, List.mem_append]

theorem plug_append (c : Ctx) (f : Frame) (t : BTree) : plug (c ++ [f]) t = f.plug (plug c t) := by
  induction c generalizing t with
  | nil => rfl
  | cons g c ih => exact ih (g.plug t)

/-- A tree around a node below its root is an interior. -/
theorem plug_cons_ne_border (f : Frame) (c : Ctx) (t : BTree) (b : NodeId) (es : List Entry) :
    plug (f :: c) t ≠ .border b es := by
  induction c generalizing f t with
  | nil => exact BTree.noConfusion
  | cons g c ih => exact ih g (f.plug t)

/-- The node in a context. -/
theorem mem_descs_plug (par : Ptr) (root : Bool) (c : Ctx) (t : BTree) :
    (t.id, ⟨parent par c, isRoot root c, t.body⟩) ∈ (plug c t).descs par root := by
  rw [mem_plug_descs, BTree.descs_eq]
  exact Or.inr List.mem_cons_self

/-- Each border of a tree has a context. -/
theorem exists_of_border {t : BTree} {b : NodeId} {es : List Entry} (h : (b, es) ∈ t.borders) :
    ∃ c, t = plug c (.border b es) := by
  induction t with
  | border i fs =>
    simp only [BTree.borders, List.mem_singleton, Prod.mk.injEq] at h
    exact ⟨[], by rw [plug, h.1, h.2]⟩
  | interior i f r hf hr =>
    simp only [BTree.borders, BTree.bordersRest_eq, List.mem_append, List.mem_flatMap] at h
    rcases h with h | ⟨x, hx, h⟩
    · obtain ⟨c, hc⟩ := hf h
      obtain ⟨fr, hfr⟩ := Frame.exists_plug i f r (Or.inl rfl)
      exact ⟨c ++ [fr], by rw [plug_append, ← hc, hfr]⟩
    · obtain ⟨c, hc⟩ := hr x hx h
      obtain ⟨fr, hfr⟩ := Frame.exists_plug i f r (Or.inr ⟨x.1, hx⟩)
      exact ⟨c ++ [fr], by rw [plug_append, ← hc, hfr]⟩

end Ctx
end Yakushima
