import Yakushima.Theorems.Cascade

/-! # The forest after an insertion

The layer that an entry was inserted into is replaced, and a long key adds one layer with a single border
for each further slice. -/

namespace Yakushima
open M Permutation

/-- The path below `π` after `i` slices of a key. -/
def layerPath (π : Path) (key : Key) : Nat → Path
  | 0 => π
  | i + 1 => .ofKey (key.drop (8 * i)) :: layerPath π key i

/-- The new layer that holds what is left of a key after `i + 1` slices. -/
def newLayer (key : Key) (v : ValuePtr) (m : NodeId) (i : Nat) : BTree :=
  .border (m + i) [entryOf (key.drop (8 * (i + 1))) v]

/-- The forest in which the layer at `π` is `t'`, with the new layers of a key below it. -/
def Forest.extend (A : Forest) (π : Path) (t' : BTree) (key : Key) (v : ValuePtr) (m : NodeId) : Forest :=
  fun ρ => if ρ = π then some t' else
    match (List.range (layers key)).find? fun i => decide (ρ = layerPath π key (i + 1)) with
    | some i => some (newLayer key v m i)
    | none => A ρ

section
variable {A : Forest} {π : Path} {t t' : BTree} {key : Key} {v : ValuePtr} {m : NodeId}

theorem layerPath_length (π : Path) (key : Key) (i : Nat) : (layerPath π key i).length = π.length + i := by
  induction i with
  | zero => rfl
  | succ i ih => rw [layerPath, List.length_cons, ih, Nat.add_assoc]

theorem layerPath_inj {i j : Nat} (h : layerPath π key i = layerPath π key j) : i = j := by
  have := congrArg List.length h
  rw [layerPath_length, layerPath_length] at this
  omega

theorem layerPath_ne (i : Nat) : layerPath π key (i + 1) ≠ π := fun h => by
  have := congrArg List.length h
  rw [layerPath_length] at this
  omega

namespace Forest

theorem extend_self : A.extend π t' key v m π = some t' := if_pos rfl

theorem extend_new {i : Nat} (hi : i < layers key) :
    A.extend π t' key v m (layerPath π key (i + 1)) = some (newLayer key v m i) := by
  have hf : (List.range (layers key)).find? (fun j => decide (layerPath π key (i + 1) = layerPath π key (j + 1))) =
    some i := by
    refine List.find?_range_eq_some.mpr ⟨by simp, List.mem_range.mpr hi, fun j hj => ?_⟩
    simp only [Bool.not_eq_true', decide_eq_false_iff_not]
    intro h
    have := layerPath_inj h
    omega
  rw [extend, if_neg (layerPath_ne i), hf]

theorem extend_old {ρ : Path} (h1 : ρ ≠ π) (h2 : ∀ i < layers key, ρ ≠ layerPath π key (i + 1)) :
    A.extend π t' key v m ρ = A ρ := by
  have hf : (List.range (layers key)).find? (fun j => decide (ρ = layerPath π key (j + 1))) = none := by
    refine List.find?_eq_none.mpr fun i hi => ?_
    simpa using h2 i (List.mem_range.mp hi)
  rw [extend, if_neg h1, hf]

theorem extend_cases {ρ : Path} {u : BTree} (h : A.extend π t' key v m ρ = some u) :
    (ρ = π ∧ u = t') ∨ (∃ i < layers key, ρ = layerPath π key (i + 1) ∧ u = newLayer key v m i) ∨
      (ρ ≠ π ∧ (∀ i < layers key, ρ ≠ layerPath π key (i + 1)) ∧ A ρ = some u) := by
  by_cases h1 : ρ = π
  · subst h1
    rw [extend_self] at h
    exact Or.inl ⟨rfl, (Option.some.inj h).symm⟩
  · by_cases h2 : ∃ i < layers key, ρ = layerPath π key (i + 1)
    · obtain ⟨i, hi, rfl⟩ := h2
      rw [extend_new hi] at h
      exact Or.inr (Or.inl ⟨i, hi, rfl, (Option.some.inj h).symm⟩)
    · have h2' : ∀ i < layers key, ρ ≠ layerPath π key (i + 1) := fun i hi he => h2 ⟨i, hi, he⟩
      rw [extend_old h1 h2'] at h
      exact Or.inr (Or.inr ⟨h1, h2', h⟩)

end Forest

theorem lt_length_of_layers {i : Nat} (hi : i < layers key) : 8 * (i + 1) < key.length := by
  simp only [layers] at hi
  omega

theorem layers_drop_mul (key : Key) (i : Nat) : layers (key.drop (8 * i)) = layers key - i := by
  simp only [layers, List.length_drop]
  omega

theorem newLayer_entries (i : Nat) : (newLayer key v m i).entries = [entryOf (key.drop (8 * (i + 1))) v] := by
  simp [newLayer, BTree.entries, BTree.borders]

theorem newLayer_ids (i : Nat) : (newLayer key v m i).ids = [m + i] := by simp [newLayer, BTree.ids, BTree.descs]

theorem entryOf_layer_iff (key : Key) (v : ValuePtr) : (entryOf key v).content = .layer ↔ 8 < key.length := by
  by_cases h : key.length ≤ 8
  · simp [entryOf, h]
  · simp [entryOf, h]
    omega

theorem newLayer_hasLayer {i : Nat} {sl : KeySlice} : (newLayer key v m i).HasLayer sl ↔
    8 * (i + 1) + 8 < key.length ∧ sl = .ofKey (key.drop (8 * (i + 1))) := by
  rw [BTree.HasLayer, newLayer_entries]
  simp only [List.mem_singleton, exists_eq_left, entryOf_layer_iff, List.length_drop]
  constructor
  · rintro ⟨rfl, h⟩
    exact ⟨by omega, rfl⟩
  · rintro ⟨h, rfl⟩
    exact ⟨rfl, by omega⟩

theorem freshLayer_slotsOf (par : Ptr) : slotsOf (Node.freshLayer par).permutation = [] := by
  have h : (Node.freshLayer par).permutation = 0 := rfl
  rw [h, slotsOf, getCnk_init]
  rfl

/-- A border that was just made has no entries. -/
theorem freshLayer_members (link : KeySlice → Ptr) (dead : NodeId → Prop) (par : Ptr) :
    MembersOk link dead (Node.freshLayer par) (.border []) := by
  refine ⟨rfl, rfl, fun h => absurd rfl h, ?_, ?_, ?_, fun i _ _ => trivial⟩
  · rw [freshLayer_slotsOf]
    exact List.nodup_nil
  · rw [freshLayer_slotsOf]
    intro i hi
    exact absurd hi List.not_mem_nil
  · rw [Node.slots, freshLayer_slotsOf]
    rfl

/-- A layer of one border with one entry, as `init_border` leaves it. -/
theorem freshLayer_ok {s : State} {par : Ptr} {link : KeySlice → Ptr} {dead : NodeId → Prop} {n : NodeId} {next : NodeId}
    (hn : s.node n = some ((Node.freshLayer par).insertSlot 0 0 (.ofKey key) (lvOf key v next)))
    (hl : 8 < key.length → link (.ofKey key) = some next) : LayerOk s par link dead (.border n [entryOf key v]) := by
  have hslot : (entryOf key v).slot link = (.ofKey key, lvOf key v next) := by
    by_cases h : key.length ≤ 8
    · simp [Entry.slot, entryOf, lvOf, h]
    · simp [Entry.slot, entryOf, lvOf, h, KeyTuple.ofKey, hl (Nat.lt_of_not_le h)]
  have hfree : (0 : Nat) ∉ Permutation.slotsOf
    (Node.freshLayer par).permutation := by rw [freshLayer_slotsOf]; exact List.not_mem_nil
  have hmem := (freshLayer_members link dead par).insertSlot (e := entryOf key v) (k := .ofKey key) rfl (Nat.le_refl _)
    (by simp) (by omega) hfree
    (fun _ h => h) (fun e he => absurd he List.not_mem_nil) hslot
  refine ⟨fun p hp => ?_, ?_, ?_, ?_, ?_⟩
  · simp only [BTree.descs, List.mem_singleton] at hp
    subst hp
    refine ⟨_, hn, ⟨⟨rfl, rfl, ⟨by simp, fun e he => ?_⟩, hmem⟩, rfl⟩⟩
    rw [List.mem_singleton.mp he]
    exact ⟨KeyTuple.ofKey_encoded key, entryOf_content key v⟩
  · simp [BTree.ids, BTree.descs]
  · simp [BTree.flat]
  · simp [BTree.borders]
  · exact ⟨⟨_, hn, rfl, rfl⟩, trivial⟩

end

section
variable {s s' : State} {ti : TreeId} {A : Forest} {dead : NodeId → Prop} {π : Path} {t t' : BTree} {key : Key}
  {v : ValuePtr} {b m target : NodeId}

/-- The new layers of a key that is not in the layer were not there. -/
theorem Holds.layerPath_none (H : Holds s ti A dead) (ht : A π = some t) (habs : ∀ e ∈ t.entries, e.key ≠ .ofKey key) :
    ∀ i < Yakushima.layers key, A (layerPath π key (i + 1)) = none := by
  intro i hi
  induction i with
  | zero =>
    have hlen : 8 < key.length := by have := lt_length_of_layers hi; omega
    cases hu : A (layerPath π key 1) with
    | none => rfl
    | some u =>
      obtain ⟨w, c, es, e, hw, hc, he, hkey, -⟩ := H.above hu
      obtain rfl : t = w := Option.some.inj (ht.symm.trans hw)
      refine absurd ?_ (habs e (BTree.mem_entries.mpr ⟨c, es, hc, he⟩))
      rw [hkey, KeyTuple.ofKey, keyLength_of_gt hlen]
      simp
  | succ i ih =>
    cases hu : A (layerPath π key (i + 1 + 1)) with
    | none => rfl
    | some u =>
      obtain ⟨w, hw, -⟩ := (H.ok.linked _ (layerPath π key (i + 1))).mp ⟨u, hu⟩
      exact absurd (hw.symm.trans (ih (by omega))) (by simp)

/-- The old layers other than `π` are still there. -/
theorem Holds.extend_of_some (H : Holds s ti A dead) (ht : A π = some t)
    (habs : ∀ e ∈ t.entries, e.key ≠ .ofKey key) {ρ : Path} {u : BTree} (hu : A ρ = some u) (hne : ρ ≠ π) :
    A.extend π t' key v m ρ = some u := by
  rw [Forest.extend_old hne, hu]
  rintro i hi rfl
  exact absurd (hu.symm.trans (H.layerPath_none ht habs i hi)) (by simp)

namespace Inserted
variable (h : Inserted (A.link π) dead s s' ti (A.parent π) t t' b key v m target)

include h in
theorem mem_entries {y : Entry} : y ∈ t'.entries ↔ y = entryOf key v ∨ y ∈ t.entries := by
  obtain ⟨L, R, hL, hR⟩ := h.entries
  rw [hL, hR]
  simp only [List.mem_append, List.mem_cons]
  constructor
  · rintro (hy | hy | hy)
    · exact Or.inr (Or.inl hy)
    · exact Or.inl hy
    · exact Or.inr (Or.inr hy)
  · rintro (hy | hy | hy)
    · exact Or.inr (Or.inl hy)
    · exact Or.inl hy
    · exact Or.inr (Or.inr hy)

include h in
theorem hasLayer_iff {sl : KeySlice} : t'.HasLayer sl ↔ (8 < key.length ∧ sl = .ofKey key) ∨ t.HasLayer sl := by
  constructor
  · rintro ⟨y, hy, hys, hyc⟩
    rcases h.mem_entries.mp hy with rfl | hy
    · exact Or.inl ⟨(entryOf_layer_iff key v).mp hyc, hys.symm⟩
    · exact Or.inr ⟨y, hy, hys, hyc⟩
  · rintro (⟨hlen, rfl⟩ | ⟨y, hy, hys, hyc⟩)
    · exact ⟨entryOf key v, h.mem_entries.mpr (Or.inl rfl), rfl, (entryOf_layer_iff key v).mpr hlen⟩
    · exact ⟨y, h.mem_entries.mpr (Or.inr hy), hys, hyc⟩

variable (H : Holds s ti A dead) (ht : A π = some t) (habs : ∀ e ∈ t.entries, e.key ≠ .ofKey key)
include h H ht habs

theorem linked {sl : KeySlice} {ρ : Path} : (∃ u, A.extend π t' key v m (sl :: ρ) = some u) ↔
    ∃ w, A.extend π t' key v m ρ = some w ∧ w.HasLayer sl := by
  constructor
  · rintro ⟨u, hu⟩
    rcases Forest.extend_cases hu with ⟨rfl, rfl⟩ | ⟨i, hi, hρ, rfl⟩ | ⟨hne, hnew, hA⟩
    · obtain ⟨w, hw, hsl⟩ := (H.ok.linked sl ρ).mp ⟨t, ht⟩
      exact ⟨w, H.extend_of_some ht habs hw (path_ne_cons sl ρ), hsl⟩
    · rw [layerPath] at hρ
      obtain ⟨rfl, rfl⟩ := List.cons.inj hρ
      have hlen := lt_length_of_layers hi
      cases i with
      | zero => exact ⟨t', Forest.extend_self, h.hasLayer_iff.mpr (Or.inl ⟨by omega, by simp⟩)⟩
      | succ i => exact ⟨_, Forest.extend_new (Nat.lt_of_succ_lt hi), newLayer_hasLayer.mpr ⟨by omega, rfl⟩⟩
    · obtain ⟨w, hw, hsl⟩ := (H.ok.linked sl ρ).mp ⟨u, hA⟩
      by_cases hρ : ρ = π
      · subst hρ
        obtain rfl : t = w := Option.some.inj (ht.symm.trans hw)
        exact ⟨t', Forest.extend_self, h.hasLayer_iff.mpr (Or.inr hsl)⟩
      · exact ⟨w, H.extend_of_some ht habs hw hρ, hsl⟩
  · rintro ⟨w, hw, hsl⟩
    rcases Forest.extend_cases hw with ⟨rfl, rfl⟩ | ⟨i, hi, rfl, rfl⟩ | ⟨hne, hnew, hA⟩
    · rcases h.hasLayer_iff.mp hsl with ⟨hlen, rfl⟩ | hsl
      · have h0 : 0 < layers key := by
          simp only [layers]
          omega
        have := @Forest.extend_new A ρ w key v m 0 h0
        exact ⟨_, by simpa [layerPath] using this⟩
      · obtain ⟨u, hu⟩ := (H.ok.linked sl ρ).mpr ⟨t, ht, hsl⟩
        exact ⟨u, H.extend_of_some ht habs hu (path_ne_cons sl ρ).symm⟩
    · obtain ⟨hlen, rfl⟩ := newLayer_hasLayer.mp hsl
      have hi' : i + 1 < layers key := by
        simp only [layers]
        omega
      exact ⟨_, Forest.extend_new hi'⟩
    · obtain ⟨u, hu⟩ := (H.ok.linked sl ρ).mpr ⟨w, hA, hsl⟩
      by_cases hπ : sl :: ρ = π
      · exact ⟨t', hπ ▸ Forest.extend_self⟩
      · exact ⟨u, H.extend_of_some ht habs hu hπ⟩

omit H habs in
/-- The nodes of the layers after the insertion. -/
theorem ids_cases {ρ : Path} {u : BTree} {n : NodeId} (hu : A.extend π t' key v m ρ = some u) (hn : n ∈ u.ids) :
    (∃ w, A ρ = some w ∧ n ∈ w.ids) ∨
      (ρ = π ∧ s.nextNode ≤ n ∧ n < s'.nextNode ∧ (n < m ∨ m + layers key ≤ n)) ∨
      ∃ i < layers key, ρ = layerPath π key (i + 1) ∧ n = m + i := by
  rcases Forest.extend_cases hu with ⟨rfl, rfl⟩ | ⟨i, hi, rfl, rfl⟩ | ⟨-, -, hA⟩
  · rcases h.ids n hn with hn | ⟨h1, h2, h3⟩
    · exact Or.inl ⟨t, ht, hn⟩
    · exact Or.inr (Or.inl ⟨rfl, h1, h2, h3⟩)
  · rw [newLayer_ids, List.mem_singleton] at hn
    exact Or.inr (Or.inr ⟨i, hi, rfl, hn⟩)
  · exact Or.inl ⟨u, hA, hn⟩

theorem forest_ok (hpos : π ≠ [] → key ≠ []) : (A.extend π t' key v m).Ok where
  linked := fun sl ρ => h.linked H ht habs
  disjoint := fun {ρ ρ' u w n} hu hw hn hn' => by
    have hold : ∀ {ρ : Path} {u : BTree}, A ρ = some u → n ∈ u.ids → n < s.nextNode := fun hu hn => H.fresh hu hn
    have hm := h.fresh
    rcases h.ids_cases ht hu hn with ⟨u', hu', hn₁⟩ | ⟨rfl, h1, -, h2⟩ | ⟨i, hi, rfl, h1⟩
    · rcases h.ids_cases ht hw hn' with ⟨w', hw', hn₂⟩ | ⟨-, h3, -⟩ | ⟨j, hj, -, h3⟩
      · exact H.ok.disjoint hu' hw' hn₁ hn₂
      · have := hold hu' hn₁
        lia
      · have := hold hu' hn₁
        lia
    · rcases h.ids_cases ht hw hn' with ⟨w', hw', hn₂⟩ | ⟨rfl, -⟩ | ⟨j, hj, -, h3⟩
      · have := hold hw' hn₂
        lia
      · rfl
      · lia
    · rcases h.ids_cases ht hw hn' with ⟨w', hw', hn₂⟩ | ⟨-, -, -, h3⟩ | ⟨j, hj, rfl, h3⟩
      · have := hold hw' hn₂
        lia
      · lia
      · have : i = j := by lia
        rw [this]
  nonempty := fun {sl ρ u} hu => by
    rcases Forest.extend_cases hu with ⟨-, rfl⟩ | ⟨i, -, -, rfl⟩ | ⟨-, -, hA⟩
    · exact List.ne_nil_of_mem (h.mem_entries.mpr (Or.inl rfl))
    · simp [newLayer_entries]
    · exact H.ok.nonempty hA
  positive := fun {sl ρ u} hu y hy => by
    have hkl : ∀ {k : Key}, k ≠ [] → (entryOf k v).key.length ≠ 0 := by
      intro k hk
      have : k.length ≠ 0 := fun h0 => hk (List.length_eq_zero_iff.mp h0)
      simp only [entryOf, KeyTuple.ofKey, keyLength]
      split <;> omega
    rcases Forest.extend_cases hu with ⟨rfl, rfl⟩ | ⟨i, hi, -, rfl⟩ | ⟨-, -, hA⟩
    · rcases h.mem_entries.mp hy with rfl | hy
      · exact hkl (hpos (by simp))
      · exact H.ok.positive ht y hy
    · rw [newLayer_entries, List.mem_singleton] at hy
      rw [hy]
      refine hkl fun hnil => ?_
      have hlen := lt_length_of_layers hi
      have := congrArg List.length hnil
      rw [List.length_drop, List.length_nil] at this
      omega
    · exact H.ok.positive hA y hy
  bounded := by
    obtain ⟨D, hD⟩ := H.ok.bounded
    refine ⟨D + π.length + layers key, fun ρ u hu => ?_⟩
    rcases Forest.extend_cases hu with ⟨rfl, -⟩ | ⟨i, hi, rfl, -⟩ | ⟨-, -, hA⟩
    · omega
    · rw [layerPath_length]
      omega
    · have := hD ρ u hA
      omega

omit h in
/-- The layers behind the old entries of the old layers other than `π`. -/
theorem link_eq {ρ : Path} {u : BTree} {sl : KeySlice} (hu : A ρ = some u) (hsl : u.HasLayer sl) (hπ : sl :: ρ ≠ π) :
    (A.extend π t' key v m).link ρ sl = A.link ρ sl := by
  obtain ⟨w, hw⟩ := (H.ok.linked sl ρ).mpr ⟨u, hu, hsl⟩
  rw [Forest.link, Forest.link, H.extend_of_some ht habs hw hπ, hw]

/-- The roots of the layers below the layer that got the entry. -/
theorem link_self {sl : KeySlice} (hsl : t'.HasLayer sl) :
    (A.extend π t' key v m).link π sl = linkWith (A.link π) key m sl := by
  by_cases hnew : 8 < key.length ∧ sl = .ofKey key
  · have h0 : 0 < layers key := by
      simp only [layers]
      omega
    have := @Forest.extend_new A π t' key v m 0 h0
    rw [linkWith, if_pos hnew, Forest.link, hnew.2]
    simp only [layerPath, Nat.mul_zero, List.drop_zero] at this
    rw [this]
    rfl
  · rw [linkWith, if_neg hnew]
    exact link_eq H ht habs ht ((h.hasLayer_iff.mp hsl).resolve_left hnew) (path_ne_cons sl π).symm

omit habs in
/-- A node of an old layer that is neither the layer, nor right above or below it. -/
theorem frame_layer {ρ : Path} {u : BTree} (hu : A ρ = some u) (hne : ρ ≠ π) {n : NodeId} (hn : n ∈ u.ids)
    (hp : A.parent π ≠ some n) (hb : ∀ sl, ρ = sl :: π → n ≠ u.id) : s'.node n = s.node n := by
  refine h.frame n (fun hnt => hne (H.ok.disjoint hu ht hn hnt)) (H.fresh hu hn) hp ?_
  rintro ⟨e, he, hl⟩
  obtain ⟨hc, hlk⟩ := slot_link.mp hl
  obtain ⟨w, hw, rfl⟩ := Option.map_eq_some_iff.mp hlk
  obtain rfl := H.ok.disjoint hu hw hn w.id_mem_ids
  obtain rfl : u = w := Option.some.inj (hu.symm.trans hw)
  exact hb _ rfl rfl

/-- The layers after the insertion. -/
theorem layers_ok {ρ : Path} {u : BTree} (hu : A.extend π t' key v m ρ = some u) :
    LayerOk s' ((A.extend π t' key v m).parent ρ) ((A.extend π t' key v m).link ρ) dead u := by
  rcases Forest.extend_cases hu with ⟨rfl, rfl⟩ | ⟨i, hi, rfl, rfl⟩ | ⟨hne, hnew, hA⟩
  · -- The layer that got the entry.
    have hpar : (A.extend ρ u key v m).parent ρ = A.parent ρ := by
      cases ρ with
      | nil => rfl
      | cons sl ρ =>
        obtain ⟨w, hw, -⟩ := (H.ok.linked sl ρ).mp ⟨t, ht⟩
        rw [Forest.parent, Forest.parent, H.extend_of_some ht habs hw (path_ne_cons sl ρ), hw]
    rw [hpar]
    exact h.layer.frame (fun _ _ => rfl) (fun _ hd => hd) fun sl hsl => h.link_self H ht habs hsl
  · -- A new layer.
    have hnode := h.newLayers i hi
    have hpar : (A.extend π t' key v m).parent (layerPath π key (i + 1)) = some (if i = 0 then target else m + i - 1) := by
      rw [layerPath, Forest.parent]
      have hlen := lt_length_of_layers hi
      cases i with
      | zero =>
        obtain ⟨es, hes, he⟩ := h.holder
        rw [layerPath, Forest.extend_self]
        simp only [Option.bind_some, if_pos, Nat.mul_zero, List.drop_zero]
        exact h.layer.linkBorder_eq hes he ((entryOf_layer_iff key v).mpr (by omega))
      | succ i =>
        rw [Forest.extend_new (Nat.lt_of_succ_lt hi)]
        simp only [Option.bind_some, Nat.add_eq_zero_iff, Nat.one_ne_zero, and_false, if_false]
        have hc : (entryOf (key.drop (8 * (i + 1))) v).content = .layer :=
          (entryOf_layer_iff _ v).mpr (by rw [List.length_drop]; omega)
        have hlast : m + (i + 1) - 1 = m + i := by lia
        have hsl : (entryOf (key.drop (8 * (i + 1))) v).key.slice = KeySlice.ofKey (key.drop (8 * (i + 1))) := rfl
        rw [hlast, newLayer, BTree.linkBorder]
        simp [BTree.borders, hc, hsl]
    rw [hpar]
    refine freshLayer_ok hnode fun hlong => ?_
    have hi' : i + 1 < layers key := by
      rw [List.length_drop] at hlong
      simp only [layers]
      omega
    have := @Forest.extend_new A π t' key v m _ hi'
    rw [layerPath] at this
    rw [Forest.link, this]
    rfl
  · have hlink : ∀ sl, sl :: ρ ≠ π → u.HasLayer sl → (A.extend π t' key v m).link ρ sl = A.link ρ sl := fun sl hsl hl =>
      link_eq H ht habs hA hl hsl
    by_cases hbelow : ∃ sl, ρ = sl :: π
    · -- A layer right below, whose root may have got another parent.
      obtain ⟨sl, rfl⟩ := hbelow
      obtain ⟨w, hw, hsl⟩ := (h.linked H ht habs).mp ⟨u, hu⟩
      obtain rfl : t' = w := Option.some.inj (Forest.extend_self.symm.trans hw)
      obtain ⟨w', c, es', e', hw', hc', he', hkey', hec', -, hlink'⟩ := H.above hA
      obtain rfl : t = w' := Option.some.inj (ht.symm.trans hw')
      have het : e' ∈ t'.entries := h.mem_entries.mpr (Or.inr (BTree.mem_entries.mpr ⟨c, es', hc', he'⟩))
      obtain ⟨p, es, hp, he⟩ := BTree.mem_entries.mp het
      have hpar : (A.extend π t' key v m).parent (sl :: π) = some p := by
        rw [Forest.parent, Forest.extend_self]
        have := h.layer.linkBorder_eq hp he hec'
        rw [hkey'] at this
        exact this
      rw [hpar]
      have hl : (e'.slot (A.link π)).2 = .link u.id := slot_link.mpr ⟨hec', by rw [hkey']; exact hlink'⟩
      have hne' : e' ≠ entryOf key v := fun heq =>
        habs e' (BTree.mem_entries.mpr ⟨c, es', hc', he'⟩) (by rw [heq]; rfl)
      have hroot := h.below p es e' u.id hp he hne' hl
      obtain ⟨ud, hud, -⟩ := LayerOk.node_at (c := []) (H.layers hA)
      have hud' : s.node u.id = some ud := hud
      rw [hud'] at hroot
      have hre := (H.layers hA).reparent (q := some p) hud' hroot fun n hn hnu => h.frame_layer H ht hA hne hn
        (fun hpn => ?_) fun _ _ => hnu
      · exact hre.frame (fun _ _ => rfl) (fun _ hd => hd) fun sl' hsl' => hlink sl' (fun he => by
          have := congrArg List.length he
          simp only [List.length_cons] at this
          omega) hsl'
      · obtain ⟨sl', τ, w, fs, rfl, hw, hb⟩ := H.parent_mem ht hpn
        have := congrArg List.length (H.ok.disjoint hw hA (BTree.border_mem_ids hb) hn)
        simp only [List.length_cons] at this
        omega
    · have hpar : (A.extend π t' key v m).parent ρ = A.parent ρ := by
        cases ρ with
        | nil => rfl
        | cons sl ρ =>
          obtain ⟨w, hw, -⟩ := (H.ok.linked sl ρ).mp ⟨u, hA⟩
          rw [Forest.parent, Forest.parent, H.extend_of_some ht habs hw (fun he => hbelow ⟨sl, he ▸ rfl⟩), hw]
      rw [hpar]
      by_cases hπ : ∃ sl, π = sl :: ρ
      · -- The layer right above.
        obtain ⟨sl, rfl⟩ := hπ
        obtain ⟨w, p, es, y, hw, hp, hy, hkey, hyc, hpar', hlk⟩ := H.above ht
        obtain rfl : u = w := Option.some.inj (hA.symm.trans hw)
        have habove := h.above
        rw [hpar'] at habove
        have hsl : y.key.slice = sl := by rw [hkey]
        have hrel := (H.layers hA).relink hp hy (fun z hz => ?_) (H.alive ht t.id_mem_ids) bumps_inserted habove
          fun n hn hnp => h.frame_layer H ht hA hne hn (by rw [hpar']; exact fun he => hnp (Option.some.inj he).symm)
            fun sl' he => absurd ⟨sl', he⟩ hbelow
        · refine hrel.frame (fun _ _ => rfl) (fun _ hd => hd) fun z hz => ?_
          by_cases hz' : z = sl
          · rw [hz', Forest.link, Forest.extend_self, relink, if_pos hsl.symm]
            rfl
          · rw [hlink z (fun he => hz' (List.cons.inj he).1) hz, relink, if_neg (hsl ▸ hz')]
        · constructor
          · intro hzl
            obtain ⟨hzc, hzs⟩ := slot_link.mp hzl
            obtain ⟨w', hw', hid⟩ := Option.map_eq_some_iff.mp hzs
            have := H.ok.disjoint hw' ht w'.id_mem_ids (hid ▸ t.id_mem_ids)
            refine (H.layers hA).layer_inj hz (BTree.mem_entries.mpr ⟨p, es, hp, hy⟩) hzc hyc ?_
            rw [hsl]
            exact (List.cons.inj this).1
          · rintro rfl
            exact slot_link.mpr ⟨hyc, by rw [hsl]; exact hlk⟩
      · refine (H.layers hA).frame
          (fun n hn => h.frame_layer H ht hA hne hn (fun hpn => ?_) fun sl' he => absurd ⟨sl', he⟩ hbelow)
          (fun _ hd => hd) fun sl hsl => hlink sl (fun he => hπ ⟨sl, he.symm⟩) hsl
        obtain ⟨sl', τ, w, fs, rfl, hw, hb⟩ := H.parent_mem ht hpn
        obtain rfl := H.ok.disjoint hw hA (BTree.border_mem_ids hb) hn
        exact hπ ⟨sl', rfl⟩

omit habs in
theorem root_eq : s'.root ti = ((A.extend π t' key v m) []).map BTree.id := by
  have hroot := H.root
  by_cases hπ : π = []
  · subst hπ
    rw [Forest.extend_self]
    rw [ht] at hroot
    rcases h.above with ⟨heq, hr, -⟩ | ⟨-, hr⟩ | ⟨p, -, -, hpar, -⟩
    · rw [hr, hroot, Option.map_some, Option.map_some, heq]
    · rw [hr]
      simp [State.setRoot]
    · exact absurd hpar (by simp [Forest.parent])
  · have hnew : ∀ i < layers key, ([] : Path) ≠ layerPath π key (i + 1) := by simp [layerPath]
    rw [Forest.extend_old (fun he => hπ he.symm) hnew, ← hroot]
    rcases h.above with ⟨-, hr, -⟩ | ⟨hpar, -⟩ | ⟨-, -, -, -, hr, -⟩
    · rw [hr]
    · obtain ⟨sl, τ, rfl⟩ := List.exists_cons_of_ne_nil hπ
      obtain ⟨-, b, -, -, -, -, -, -, -, hpar', -⟩ := H.above ht
      exact absurd (hpar'.symm.trans hpar) (by simp)
    · rw [hr]

/-- The entries after the insertion: the old ones and one for each slice of the key. -/
theorem has_iff {ρ : Path} {y : Entry} : (A.extend π t' key v m).Has ρ y ↔
    A.Has ρ y ∨ ∃ i ≤ layers key, ρ = layerPath π key i ∧ y = entryOf (key.drop (8 * i)) v := by
  constructor
  · rintro ⟨u, hu, hy⟩
    rcases Forest.extend_cases hu with ⟨rfl, rfl⟩ | ⟨i, hi, rfl, rfl⟩ | ⟨-, -, hA⟩
    · rcases h.mem_entries.mp hy with rfl | hy
      · exact Or.inr ⟨0, Nat.zero_le _, rfl, by simp⟩
      · exact Or.inl ⟨t, ht, hy⟩
    · rw [newLayer_entries, List.mem_singleton] at hy
      exact Or.inr ⟨i + 1, hi, rfl, hy⟩
    · exact Or.inl ⟨u, hA, hy⟩
  · rintro (⟨u, hu, hy⟩ | ⟨i, hi, rfl, rfl⟩)
    · by_cases hρ : ρ = π
      · subst hρ
        obtain rfl : t = u := Option.some.inj (ht.symm.trans hu)
        exact ⟨t', Forest.extend_self, h.mem_entries.mpr (Or.inr hy)⟩
      · exact ⟨u, H.extend_of_some ht habs hu hρ, hy⟩
    · cases i with
      | zero => exact ⟨t', Forest.extend_self, h.mem_entries.mpr (Or.inl (by simp))⟩
      | succ i => exact ⟨_, Forest.extend_new hi, by rw [newLayer_entries]; simp⟩

omit h H ht habs in
/-- The new entry of a heap value is the last one. -/
theorem heap_entry {i : Nat} {w : ValueId} (hi : i ≤ layers key)
    (hw : (entryOf (key.drop (8 * i)) v).content = .value (.heap w)) :
    i = layers key ∧ v = .heap w := by
  by_cases hlen : (key.drop (8 * i)).length ≤ 8
  · simp only [entryOf, if_pos hlen, Content.value.injEq] at hw
    rw [List.length_drop] at hlen
    refine ⟨?_, hw⟩
    simp only [layers] at hi ⊢
    omega
  · simp only [entryOf, if_neg hlen, reduceCtorEq] at hw

/-- The memory holds the forest with the new entry, when the value is one that no entry has yet. -/
theorem holds (hpos : π ≠ [] → key ≠ []) (hv : ∀ w, v = .heap w → (w < s.nextBlock ∧ ∃ b, s.block w = some b) ∧
    ∀ ρ y, A.Has ρ y → y.content ≠ .value (.heap w)) : Holds s' ti (A.extend π t' key v m) dead := by
  have hrest := h.rest
  simp only [State.rest, Prod.mk.injEq] at hrest
  obtain ⟨hblock, hnext, -⟩ := hrest
  have hle : s.nextNode ≤ s'.nextNode := by
    have := h.fresh
    lia
  refine ⟨h.forest_ok H ht habs hpos, h.root_eq H ht, fun hu => h.layers_ok H ht habs hu, fun {ρ u n} hu hn => ?_,
    fun {ρ u n} hu hn hd => ?_, fun n hn => ?_, fun {ρ y w} hy hw => ?_, fun {ρ τ y z w} hy hz hyw hzw => ?_⟩
  · have hm := h.fresh
    rcases h.ids_cases ht hu hn with ⟨u', hu', hn⟩ | ⟨-, -, h2, -⟩ | ⟨i, hi, -, h1⟩
    · have := H.fresh hu' hn
      lia
    · exact h2
    · lia
  · have hm := h.fresh
    have hold := H.gone n hd
    rcases h.ids_cases ht hu hn with ⟨u', hu', hn⟩ | ⟨-, h1, -⟩ | ⟨i, hi, -, h1⟩
    · exact H.alive hu' hn hd
    · lia
    · lia
  · have := H.gone n hn
    lia
  · rw [hnext, hblock]
    rcases (h.has_iff H ht habs).mp hy with hy | ⟨i, hi, -, rfl⟩
    · exact H.blocks hy hw
    · exact (hv w (heap_entry hi hw).2).1
  · rcases (h.has_iff H ht habs).mp hy with hy | ⟨i, hi, rfl, rfl⟩
    · rcases (h.has_iff H ht habs).mp hz with hz | ⟨j, hj, rfl, rfl⟩
      · exact H.owned hy hz hyw hzw
      · exact absurd hyw ((hv w (heap_entry hj hzw).2).2 _ _ hy)
    · rcases (h.has_iff H ht habs).mp hz with hz | ⟨j, hj, rfl, rfl⟩
      · exact absurd hzw ((hv w (heap_entry hi hyw).2).2 _ _ hz)
      · have : i = j := (heap_entry hi hyw).1.trans (heap_entry hj hzw).1.symm
        rw [this]
        exact ⟨rfl, rfl⟩

end Inserted
end
end Yakushima
