import Yakushima.Theorems.InsertLv

/-! # A node leaves its parent

The tree side of `interior_node::delete_of`: the interior around an emptied child loses it, together with
the pivot to its left, or to its right when it was the first. The neighbour that shared this pivot stands in
the hole of what is left of the interior. -/

namespace Yakushima

namespace Frame

/-- The frame `f` without its hole is `f'` around the child `y`. -/
inductive Closes (f f' : Frame) (y : BTree) : Prop where
  | left (l : List (BTree × KeyTuple)) (k : KeyTuple) (hl : f.left = l ++ [(y, k)]) (hf : f' = ⟨f.id, l, f.right⟩)
  | right (k : KeyTuple) (r : List (KeyTuple × BTree)) (hl : f.left = []) (hr : f.right = (k, y) :: r)
      (hf : f' = ⟨f.id, [], r⟩)

theorem exists_closes {f : Frame} (h : f.pivots ≠ []) : ∃ f' y, f.Closes f' y := by
  rcases List.eq_nil_or_concat f.left with hl | ⟨l, ⟨y, k⟩, hl⟩
  · cases hr : f.right with
    | nil => exact absurd (by simp [pivots, hl, hr]) h
    | cons x r =>
      obtain ⟨k, y⟩ := x
      exact ⟨⟨f.id, [], r⟩, y, .right k r hl hr rfl⟩
  · rw [List.concat_eq_append] at hl
    exact ⟨⟨f.id, l, f.right⟩, y, .left l k hl rfl⟩

section
variable {f f' : Frame} {y : BTree} (h : f.Closes f' y)
include h

theorem Closes.id : f'.id = f.id := by
  rcases h with ⟨l, k, hl, rfl⟩ | ⟨k, r, hl, hr, rfl⟩ <;> rfl

theorem Closes.borders : (f'.plug y).borders = f.bordersLeft ++ f.bordersRight := by
  rcases h with ⟨l, k, hl, rfl⟩ | ⟨k, r, hl, hr, rfl⟩
  · simp [plug_borders, bordersLeft, bordersRight, hl]
  · simp [plug_borders, bordersLeft, bordersRight, hl, hr]

theorem Closes.flat : ((f'.plug y).flat).Sublist (f.flatLeft ++ f.flatRight) := by
  rcases h with ⟨l, k, hl, rfl⟩ | ⟨k, r, hl, hr, rfl⟩
  · simp only [plug_flat, flatLeft, flatRight, hl, List.flatMap_append, List.flatMap_cons, List.flatMap_nil,
      List.append_nil]
    refine List.Sublist.append_right ?_ _
    rw [← List.append_assoc]
    exact List.sublist_append_left _ _
  · simp only [plug_flat, flatLeft, flatRight, hl, hr, List.flatMap_cons, List.flatMap_nil, List.nil_append,
      List.cons_append]
    exact List.sublist_cons_self _ _

theorem Closes.ids : ((f'.plug y).ids).Perm f.ids := by
  refine (plug_ids_perm f' y).trans ?_
  rcases h with ⟨l, k, hl, rfl⟩ | ⟨k, r, hl, hr, rfl⟩
  · simp only [Frame.ids, hl, List.flatMap_append, List.flatMap_cons, List.flatMap_nil]
    rw [List.perm_iff_count]
    intro x
    simp only [List.count_append, List.count_cons, List.count_nil]
    omega
  · simp only [Frame.ids, hl, hr, List.flatMap_cons, List.flatMap_nil]
    rw [List.perm_iff_count]
    intro x
    simp only [List.count_append, List.count_cons, List.count_nil]
    omega

theorem Closes.pivots : f'.pivots = f.pivots.eraseIdx (f.left.length - 1) := by
  rcases h with ⟨l, k, hl, rfl⟩ | ⟨k, r, hl, hr, rfl⟩
  · simp only [Frame.pivots, hl, List.map_append, List.map_cons, List.map_nil, List.length_append, List.length_singleton,
      Nat.add_sub_cancel, List.append_assoc]
    rw [List.eraseIdx_append_of_length_le (by simp)]
    simp
  · simp [Frame.pivots, hl, hr]

theorem Closes.pivots_length : f'.pivots.length + 1 = f.pivots.length := by
  rcases h with ⟨l, k, hl, rfl⟩ | ⟨k, r, hl, hr, rfl⟩
  · simp only [Frame.pivots, hl, List.map_append, List.length_append, List.length_map, List.length_singleton]
    omega
  · simp [Frame.pivots, hl, hr]

theorem Closes.kids (n : NodeId) : f'.kids y.id = (f.kids n).eraseIdx f.left.length := by
  have hk : (f.kids n).eraseIdx f.left.length = f.left.map (·.1.id) ++ f.right.map (·.2.id) := by
    rw [Frame.kids, List.eraseIdx_append_of_length_le (by simp)]
    simp
  rw [hk]
  rcases h with ⟨l, k, hl, rfl⟩ | ⟨k, r, hl, hr, rfl⟩
  · simp [Frame.kids, hl]
  · simp [Frame.kids, hl, hr]

/-- The children other than the hole. -/
theorem Closes.trees {x : BTree} : x ∈ f'.trees y ↔ (∃ k, (x, k) ∈ f.left) ∨ ∃ k, (k, x) ∈ f.right := by
  rcases h with ⟨l, k, hl, rfl⟩ | ⟨k, r, hl, hr, rfl⟩
  · simp only [Frame.trees, hl, List.mem_append, List.mem_map, List.mem_cons, List.not_mem_nil, or_false, Prod.exists,
      exists_and_right, exists_eq_right, Prod.mk.injEq]
    constructor
    · rintro (⟨k', hx⟩ | rfl | ⟨k', hx⟩)
      · exact Or.inl ⟨k', Or.inl hx⟩
      · exact Or.inl ⟨k, Or.inr ⟨rfl, rfl⟩⟩
      · exact Or.inr ⟨k', hx⟩
    · rintro (⟨k', hx | ⟨rfl, rfl⟩⟩ | ⟨k', hx⟩)
      · exact Or.inl ⟨k', hx⟩
      · exact Or.inr (Or.inl rfl)
      · exact Or.inr (Or.inr ⟨k', hx⟩)
  · simp only [Frame.trees, hl, hr, List.map_nil, List.nil_append, List.mem_cons, List.mem_map,
      List.not_mem_nil, Prod.exists,
      exists_eq_right, exists_false, false_or, Prod.mk.injEq]
    constructor
    · rintro (rfl | ⟨k', hx⟩)
      · exact ⟨k, Or.inl ⟨rfl, rfl⟩⟩
      · exact ⟨k', Or.inr hx⟩
    · rintro ⟨k', ⟨rfl, rfl⟩ | hx⟩
      · exact Or.inl rfl
      · exact Or.inr ⟨k', hx⟩

end
end Frame
end Yakushima
