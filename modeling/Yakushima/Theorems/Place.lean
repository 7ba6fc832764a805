import Yakushima.Theorems.Extend

/-! # The place of a key

A key has its value in one layer: the slices before the last one are the path to the layer, and the rest
of the key is the key of the entry there. `Forest.Binds` reads a forest as a map from keys to values. -/

namespace Yakushima
open M Permutation

/-- The bytes of the slices on the way to a layer. -/
def pathBytes : Path → Key
  | [] => []
  | sl :: π => pathBytes π ++ sl.bytes

/-- The key of a value entry of the layer at `π`. -/
def keyAt (π : Path) (k : KeyTuple) : Key := pathBytes π ++ k.slice.bytes.take k.length

/-- The path of the layer that a key has its value in. -/
def keyPath (key : Key) : Path := layerPath [] key (layers key)

/-- What is left of a key in that layer. -/
def keyRest (key : Key) : Key := key.drop (8 * layers key)

theorem keyRest_length (key : Key) : (keyRest key).length ≤ 8 := by
  rw [keyRest, List.length_drop, layers]
  omega

theorem pathBytes_length (π : Path) : (pathBytes π).length = 8 * π.length := by
  induction π with
  | nil => rfl
  | cons sl π ih =>
    rw [pathBytes, List.length_append, ih, sl.size, List.length_cons]
    omega

theorem layerPath_add (key : Key) (j i : Nat) :
    layerPath (layerPath [] key j) (key.drop (8 * j)) i = layerPath [] key (j + i) := by
  induction i with
  | zero => rfl
  | succ i ih =>
    rw [layerPath, ih, Nat.add_succ, layerPath, List.drop_drop]
    congr 3
    omega

/-- The bytes of a full slice. -/
theorem ofKey_bytes {key : Key} (h : 8 ≤ key.length) : (KeySlice.ofKey key).bytes = key.take 8 :=
  List.take_append_of_le_length h

theorem ofKey_bytes_append (sl : KeySlice) (r : Key) : KeySlice.ofKey (sl.bytes ++ r) = sl := by
  have hlen : 8 ≤ (sl.bytes ++ r).length := by rw [List.length_append, sl.size]; omega
  have hb := ofKey_bytes hlen
  rw [List.take_append_of_le_length (Nat.le_of_eq sl.size.symm), List.take_of_length_le (Nat.le_of_eq sl.size)] at hb
  cases sl
  cases hk : KeySlice.ofKey _
  simp_all

theorem pathBytes_layerPath {key : Key} {i : Nat} (h : 8 * i ≤ key.length) :
    pathBytes (layerPath [] key i) = key.take (8 * i) := by
  induction i with
  | zero => rfl
  | succ i ih =>
    rw [layerPath, pathBytes, ih (by omega), ofKey_bytes (by rw [List.length_drop]; omega), ← List.take_add]
    rfl

/-- A short key is the first bytes of its slice. -/
theorem ofKey_take {key : Key} (h : key.length ≤ 8) : (KeySlice.ofKey key).bytes.take key.length = key := by
  rw [KeySlice.ofKey, List.take_take, Nat.min_eq_left h, List.take_left']
  rfl

/-- The key at the place of a key. -/
theorem keyAt_place (key : Key) : keyAt (keyPath key) (.ofKey (keyRest key)) = key := by
  have hr := keyRest_length key
  have hl : 8 * layers key ≤ key.length := by
    simp only [layers]
    omega
  rw [keyAt, keyPath, pathBytes_layerPath hl, KeyTuple.ofKey, keyLength_of_le hr, ofKey_take hr, keyRest,
    List.take_append_drop]

theorem place_inj {key key' : Key} (hp : keyPath key = keyPath key')
    (hr : KeyTuple.ofKey (keyRest key) = .ofKey (keyRest key')) :
    key = key' := by
  rw [← keyAt_place key, ← keyAt_place key', hp, hr]

theorem layerPath_pathBytes (π : Path) (r : Key) : layerPath [] (pathBytes π ++ r) π.length = π := by
  induction π generalizing r with
  | nil => rfl
  | cons sl π ih =>
    have hd : (pathBytes π ++ (sl.bytes ++ r)).drop (8 * π.length) = sl.bytes ++ r := by
      rw [← pathBytes_length π, List.drop_left]
    rw [pathBytes, List.append_assoc, List.length_cons, layerPath, ih, hd, ofKey_bytes_append]

section
variable {π : Path} {k : KeyTuple}

theorem keyAt_length (hk : k.length ≤ 8) : (keyAt π k).length = 8 * π.length + k.length := by
  rw [keyAt, List.length_append, pathBytes_length, List.length_take, k.slice.size, Nat.min_eq_left hk]

/-- The place of the key at a place; below the first layer no key is empty. -/
theorem place_keyAt (he : k.Encoded) (hk : k.length ≤ 8) (hpos : π ≠ [] → k.length ≠ 0) :
    keyPath (keyAt π k) = π ∧ KeyTuple.ofKey (keyRest (keyAt π k)) = k := by
  have hlen := keyAt_length (π := π) hk
  have hl : layers (keyAt π k) = π.length := by
    rw [layers, hlen]
    cases π with
    | nil =>
      simp only [List.length_nil]
      omega
    | cons sl π =>
      have := hpos (by simp)
      simp only [List.length_cons]
      omega
  have hrest : keyRest (keyAt π k) = k.slice.bytes.take k.length := by
    rw [keyRest, hl, keyAt, ← pathBytes_length π, List.drop_left]
  have hshort : (k.slice.bytes.take k.length).length = k.length := by
    rw [List.length_take, k.slice.size, Nat.min_eq_left hk]
  refine ⟨?_, ?_⟩
  · rw [keyPath, hl, keyAt, layerPath_pathBytes]
  · have hslice : KeySlice.ofKey (k.slice.bytes.take k.length) = k.slice :=
      congrArg KeyTuple.slice (KeyTuple.norm_of_encoded he)
    rw [hrest, KeyTuple.ofKey, keyLength_of_le (by omega), hslice, hshort]

end

/-! ### A forest as a map -/

/-- The forest binds a key to a value. -/
def Forest.Binds (A : Forest) (key : Key) (v : ValuePtr) : Prop := A.Has (keyPath key) ⟨.ofKey (keyRest key), .value v⟩

section
variable {s s' : State} {ti : TreeId} {A : Forest} {dead : NodeId → Prop} {key : Key} {v w : ValuePtr}

theorem entryOf_keyRest (key : Key) (v : ValuePtr) : entryOf (keyRest key) v = ⟨.ofKey (keyRest key), .value v⟩ := by
  rw [entryOf, if_pos (keyRest_length key)]

/-- A key is bound to one value. -/
theorem Holds.binds_inj (H : Holds s ti A dead) (hv : A.Binds key v) (hw : A.Binds key w) : v = w := by
  obtain ⟨t, ht, hv⟩ := hv
  obtain ⟨u, hu, hw⟩ := hw
  obtain rfl : t = u := Option.some.inj (ht.symm.trans hu)
  have := congrArg Entry.content ((H.layers ht).entry_inj hv hw rfl)
  simpa using this

/-- A value entry of a forest is the binding of one key. -/
theorem Holds.binds_keyAt (H : Holds s ti A dead) {π : Path} {e : Entry} (he : A.Has π e) (hc : e.content = .value v) :
    A.Binds (keyAt π e.key) v := by
  obtain ⟨t, ht, hmem⟩ := he
  obtain ⟨henc, hlayer⟩ := (H.layers ht).entry_ok hmem
  have hlen : e.key.length ≤ 8 := by
    have h9 := henc.length_le
    have : e.key.length ≠ 9 := fun h => by simp [hlayer.mpr h] at hc
    omega
  have hpos : π ≠ [] → e.key.length ≠ 0 := by
    cases π with
    | nil => simp
    | cons sl π => exact fun _ => H.ok.positive ht e hmem
  obtain ⟨hp, hr⟩ := place_keyAt henc hlen hpos
  refine ⟨t, hp.symm ▸ ht, ?_⟩
  rw [hr, ← hc]
  exact hmem

/-- A key whose entry is missing in one of the layers on its way is not bound. -/
theorem Holds.not_binds (H : Holds s ti A dead) {j : Nat} {t : BTree} (hj : j ≤ Yakushima.layers key)
    (ht : A (layerPath [] key j) = some t) (habs : ∀ e ∈ t.entries, e.key ≠ .ofKey (key.drop (8 * j))) :
    ¬ A.Binds key v := by
  rintro ⟨u, hu, he⟩
  rcases Nat.eq_or_lt_of_le hj with rfl | hlt
  · obtain rfl : t = u := Option.some.inj (ht.symm.trans hu)
    exact habs _ he rfl
  · have hnone := H.layerPath_none ht habs (Yakushima.layers key - j - 1) (by rw [layers_drop_mul]; omega)
    rw [layerPath_add, show j + (Yakushima.layers key - j - 1 + 1) = Yakushima.layers key by omega] at hnone
    exact absurd (hu.symm.trans hnone) (by simp)

/-- The bindings after an insertion. -/
theorem Inserted.binds_iff {j : Nat} {t t' : BTree} {b m target : NodeId} {k : Key}
    (h : Inserted (A.link (layerPath [] key j)) dead s s' ti (A.parent (layerPath [] key j)) t t' b
      (key.drop (8 * j)) v m target) (H : Holds s ti A dead) (hj : j ≤ layers key) (ht : A (layerPath [] key j) = some t)
    (habs : ∀ e ∈ t.entries, e.key ≠ .ofKey (key.drop (8 * j))) :
    (A.extend (layerPath [] key j) t' (key.drop (8 * j)) v m).Binds k w ↔ A.Binds k w ∨ k = key ∧ w = v := by
  rw [Forest.Binds, h.has_iff H ht habs]
  refine or_congr Iff.rfl ⟨?_, ?_⟩
  · rintro ⟨i, hi, hp, he⟩
    rw [layers_drop_mul] at hi
    rw [layerPath_add] at hp
    rw [List.drop_drop, show 8 * j + 8 * i = 8 * (j + i) by omega] at he
    by_cases hlen : (key.drop (8 * (j + i))).length ≤ 8
    · have hji : j + i = layers key := by
        rw [List.length_drop] at hlen
        simp only [layers] at hi hj ⊢
        omega
      rw [hji] at hp he
      rw [← keyRest, entryOf_keyRest, Entry.mk.injEq, Content.value.injEq] at he
      exact ⟨place_inj hp he.1, he.2⟩
    · rw [entryOf, if_neg hlen, Entry.mk.injEq] at he
      exact absurd he.2 (by simp)
  · rintro ⟨rfl, rfl⟩
    refine ⟨layers k - j, by rw [layers_drop_mul], ?_, ?_⟩
    · rw [layerPath_add, Nat.add_sub_cancel' hj, keyPath]
    · rw [List.drop_drop, show 8 * j + 8 * (layers k - j) = 8 * layers k by omega, ← keyRest, entryOf_keyRest]

/-- The value entries after a deletion. -/
theorem Cascade.has_value_iff {token : Token} {π σ : Path} {e x : Entry} {t t' : BTree} {lost : List NodeId}
    (h : Cascade s s' token ti A dead π σ e x t t' lost) (H : Holds s ti A dead) {ρ : Path} {y : Entry}
    (hy : y.content ≠ .layer) :
    (A.without π σ t').Has ρ y ↔ A.Has ρ y ∧ ¬ (ρ = π ∧ y = e) := by
  refine ⟨fun hw => ⟨h.has_before H hw, h.has_ne H hw⟩, ?_⟩
  rintro ⟨⟨u, hu, hyu⟩, hne⟩
  by_cases hσ : ρ = σ
  · subst hσ
    obtain rfl : t = u := Option.some.inj (h.survivor.symm.trans hu)
    refine ⟨t', Forest.without_self, (h.mem_entries H).mpr ⟨hyu, ?_⟩⟩
    rintro rfl
    rcases h.entry with ⟨rfl, rfl⟩ | ⟨-, -, -, hx⟩
    · exact hne ⟨rfl, rfl⟩
    · exact hy hx
  · refine ⟨u, (Forest.without_eq hσ ?_).trans hu, hyu⟩
    rintro ⟨hlen, hsuf⟩
    obtain ⟨b, z, hz, hze⟩ := h.vanished ρ hsuf hlen
    obtain rfl : .border b [z] = u := Option.some.inj (hz.symm.trans hu)
    obtain rfl : y = z := by simpa [BTree.entries, BTree.borders] using hyu
    by_cases hρ : ρ = π
    · exact hne ⟨hρ, hze hρ⟩
    · -- The layer below vanished too, so the entry is that of a layer.
      obtain ⟨sl, hsl⟩ := exists_cons_suffix hsuf hρ
      obtain ⟨b', z', hz', -⟩ := h.vanished (sl :: ρ) hsl (Nat.lt_succ_of_lt hlen)
      obtain ⟨u', hu', z'', hz'', -, hc⟩ := (H.ok.linked sl ρ).mp ⟨_, hz'⟩
      obtain rfl : .border b [y] = u' := Option.some.inj (hu.symm.trans hu')
      obtain rfl : z'' = y := by simpa [BTree.entries, BTree.borders] using hz''
      exact hy hc

/-- The bindings after a deletion. -/
theorem Cascade.binds_iff {token : Token} {σ : Path} {x : Entry} {t t' : BTree} {lost : List NodeId} {k : Key}
    (h : Cascade s s' token ti A dead (keyPath key) σ ⟨.ofKey (keyRest key), .value v⟩ x t t' lost) (H : Holds s ti A dead)
    (hv : A.Binds key v) : (A.without (keyPath key) σ t').Binds k w ↔ A.Binds k w ∧ k ≠ key := by
  rw [Forest.Binds, h.has_value_iff H (by simp)]
  constructor
  · rintro ⟨hb, hne⟩
    refine ⟨hb, ?_⟩
    rintro rfl
    exact hne ⟨rfl, by rw [H.binds_inj hv hb]⟩
  · rintro ⟨hb, hne⟩
    refine ⟨hb, fun ⟨hp, he⟩ => hne (place_inj hp ?_)⟩
    rw [Entry.mk.injEq] at he
    exact he.1

end
end Yakushima
