import Mathlib.Data.List.Basic
import Mathlib.Data.List.InsertIdx

/-! # Arrays read as lists

The first entries of an array, a function on positions, as a list: what shifting a part of the array by
one position does to the list. -/

namespace Lib
variable {α : Type} {f g : Nat → α}

/-- The part from `i` on moved up and `x` stored at `i`. -/
theorem map_range_insert {n i : Nat} {x : α} (hi : i ≤ n) (hlt : ∀ j < i, g j = f j) (heq : g i = x)
    (hgt : ∀ j, i ≤ j → j < n → g (j + 1) = f j) :
    (List.range (n + 1)).map g = ((List.range n).map f).insertIdx i x := by
  apply List.ext_getElem?
  intro j
  rw [List.getElem?_insertIdx]
  simp only [List.length_map, List.length_range, List.getElem?_map]
  rcases Nat.lt_trichotomy j i with h | rfl | h
  · rw [if_pos h, List.getElem?_range (by omega), List.getElem?_range (by omega)]
    simp [hlt j h]
  · rw [if_neg (by omega), if_pos rfl, if_pos hi, List.getElem?_range (by omega)]
    simp [heq]
  · rw [if_neg (by omega), if_neg (by omega)]
    by_cases hj : j < n + 1
    · rw [List.getElem?_range hj, List.getElem?_range (by omega)]
      have := hgt (j - 1) (by omega) (by omega)
      rw [Nat.sub_add_cancel (by omega)] at this
      simp [this]
    · rw [List.getElem?_eq_none (by simpa using hj), List.getElem?_eq_none (by simp; omega)]
      rfl

/-- The first position that satisfies a predicate, by search and by counting. -/
theorem find?_range (p : Nat → Bool) (n : Nat) :
    (List.range n).find? p = if (List.range n).findIdx p < n then some ((List.range n).findIdx p) else none := by
  split
  · next hlt =>
    have hget := List.findIdx_getElem (w := Nat.lt_of_lt_of_eq hlt (List.length_range (n := n)).symm)
    rw [List.getElem_range] at hget
    refine List.find?_range_eq_some.mpr ⟨hget, List.mem_range.mpr hlt, fun j hj => ?_⟩
    simpa using List.not_of_lt_findIdx hj
  · next hge =>
    refine List.find?_range_eq_none.mpr fun i hi => ?_
    have hlt : i < (List.range n).findIdx p := by omega
    simpa using List.not_of_lt_findIdx hlt

theorem insertIdx_append_length (a b : List α) (x : α) : (a ++ b).insertIdx a.length x = a ++ x :: b := by
  induction a with
  | nil => simp
  | cons y a ih => simp [ih]

/-- Different elements contribute different parts to a concatenation without duplicates. -/
theorem not_mem_of_nodup_flatMap {β : Type} {l : List α} {h : α → List β} (hnd : (l.flatMap h).Nodup) {a b : α}
    (ha : a ∈ l) (hb : b ∈ l) (hne : a ≠ b) {x : β} (hx : x ∈ h a) : x ∉ h b := by
  induction l with
  | nil => simp at ha
  | cons c l ih =>
    rw [List.flatMap_cons, List.nodup_append] at hnd
    rcases List.mem_cons.mp ha with rfl | ha'
    · rcases List.mem_cons.mp hb with rfl | hb'
      · exact absurd rfl hne
      · exact fun hx' => hnd.2.2 x hx x (List.mem_flatMap.mpr ⟨b, hb', hx'⟩) rfl
    · rcases List.mem_cons.mp hb with rfl | hb'
      · exact fun hx' => hnd.2.2 x hx' x (List.mem_flatMap.mpr ⟨a, ha', hx⟩) rfl
      · exact ih hnd.2.1 ha' hb'

/-- The place of a new number among those of a sorted list. -/
theorem exists_place {α : Type} (f : α → Nat) {k : Nat} : ∀ {l : List α}, (l.map f).Pairwise (· < ·) → (∀ x ∈ l, f x ≠ k) →
    ∃ lo hi, l = lo ++ hi ∧ lo.length = l.findIdx (fun x => decide (k < f x)) ∧ (∀ x ∈ lo, f x < k) ∧
      ∀ x ∈ hi, k < f x := by
  intro l
  induction l with
  | nil => exact fun _ _ => ⟨[], [], rfl, rfl, by simp, by simp⟩
  | cons x l ih =>
    intro hs hne
    rw [List.map_cons, List.pairwise_cons] at hs
    by_cases hx : k < f x
    · refine ⟨[], x :: l, rfl, by simp [List.findIdx_cons, hx], by simp, fun y hy => ?_⟩
      rcases List.mem_cons.mp hy with rfl | hy
      · exact hx
      · exact Nat.lt_trans hx (hs.1 (f y) (List.mem_map_of_mem hy))
    · obtain ⟨lo, hi, rfl, hlen, hlo, hhi⟩ := ih hs.2 fun y hy => hne y (List.mem_cons_of_mem _ hy)
      refine ⟨x :: lo, hi, rfl, by simp [List.findIdx_cons, hx, hlen], fun y hy => ?_, hhi⟩
      rcases List.mem_cons.mp hy with rfl | hy
      · exact Nat.lt_of_le_of_ne (Nat.not_lt.mp hx) (hne y List.mem_cons_self)
      · exact hlo y hy

/-- A sorted list stays sorted when a number goes to its place. -/
theorem sorted_place {α : Type} {f : α → Nat} {k : Nat} {lo hi : List α} (hs : ((lo ++ hi).map f).Pairwise (· < ·))
    (hlo : ∀ x ∈ lo, f x < k) (hhi : ∀ x ∈ hi, k < f x) : (((lo ++ hi).map f).insertIdx lo.length k).Pairwise (· < ·) := by
  rw [List.map_append, show lo.length = (lo.map f).length by simp, insertIdx_append_length]
  rw [List.map_append, List.pairwise_append] at hs
  refine List.pairwise_append.mpr ⟨hs.1, List.pairwise_cons.mpr ⟨?_, hs.2.1⟩, ?_⟩
  · intro y hy
    obtain ⟨x, hx, rfl⟩ := List.mem_map.mp hy
    exact hhi x hx
  · intro y hy z hz
    rcases List.mem_cons.mp hz with rfl | hz
    · obtain ⟨x, hx, rfl⟩ := List.mem_map.mp hy
      exact hlo x hx
    · exact hs.2.2 y hy z hz

end Lib
