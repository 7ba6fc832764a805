import Yakushima.Theorems.KeyOrder

/-! # The lookups of one border

The loops over the permutation of a border: two lookups for `get`, `put` and `remove`, the search of `delete_of`
and the search for the rank of a new key. -/

namespace Yakushima
open M Permutation

section
variable {s : State} {n : NodeId} {nd : Node} {first : Bool} {k : KeyTuple}

theorem beNat_of_zeros : ∀ {l : List UInt8}, (∀ x ∈ l, x = 0) → beNat l = 0
  | [], _ => rfl
  | x :: l, h => by
    rw [beNat, h x List.mem_cons_self, beNat_of_zeros fun y hy => h y (List.mem_cons_of_mem _ hy)]
    simp

/-- The live slots of a border in its shape are fit for the searches. -/
theorem BorderShape.searchOk (h : BorderShape s first n nd) : SearchOk nd (slotsOf nd.permutation) := by
  refine ⟨h.bound, fun i hi => ?_, h.sorted⟩
  rcases Nat.lt_or_ge 8 (nd.keyLength i) with h9 | h8
  · obtain ⟨hl, -⟩ := h.long i hi h9
    have hlen : (nd.key i).length = 9 := hl
    refine ⟨hlen.le, ?_⟩
    rw [hlen, List.drop_of_length_le (by rw [(nd.key i).slice.size]; omega)]
    rfl
  · exact ⟨Nat.le_succ_of_le h8, beNat_of_zeros (h.short i hi h8).2⟩

/-- The search of `delete_of` finds the slot that the lookups find, and its rank. -/
theorem run_searchKey_find (hn : s.node n = some nd) (hk : k.Encoded) : ∀ {l : List Nat} (r : Nat), SearchOk nd l →
    ∃ x, run (searchKey n k.slice k.length r l) s = some (x, s) ∧
      x.map Prod.snd = l.find? (fun i => decide (nd.key i = k)) ∧
      ∀ rank i, x = some (rank, i) → ∃ j, rank = r + j ∧ l[j]? = some i
  | [], r, _ => ⟨none, rfl, rfl, fun _ _ h => absurd h (by simp)⟩
  | a :: l, r, hl => by
    have ha := hl.bound a List.mem_cons_self
    have htest := searchKey_test hk (hl.encoded a List.mem_cons_self)
    rw [searchKey, run_load_keyLength hn ha, run_load_keySlice hn ha, List.find?_cons]
    by_cases hka : nd.key a = k
    · rw [if_pos (htest.mpr hka), decide_eq_true hka]
      refine ⟨some (r, a), rfl, rfl, fun rank i h => ?_⟩
      simp only [Option.some.injEq, Prod.mk.injEq] at h
      exact ⟨0, h.1.symm, congrArg some h.2⟩
    · rw [if_neg fun h => hka (htest.mp h), decide_eq_false hka]
      obtain ⟨x, hrun, hfind, hrank⟩ := run_searchKey_find hn hk (r + 1) hl.tail
      refine ⟨x, hrun, hfind, fun rank i h => ?_⟩
      obtain ⟨j, hj, hget⟩ := hrank rank i h
      exact ⟨j + 1, by omega, by simpa using hget⟩

/-- Two live slots of a border have different keys. -/
theorem SearchOk.key_inj {l : List Nat} (h : SearchOk nd l) {i j : Nat} (hi : i ∈ l) (hj : j ∈ l)
    (hij : nd.key i = nd.key j) : i = j := by
  have hnd : (l.map fun i => (nd.key i).code).Nodup := h.sorted.imp Nat.ne_of_lt
  exact List.inj_on_of_nodup_map hnd hi hj (congrArg KeyTuple.code hij)

/-- A new key at its rank keeps the live keys in order. -/
theorem insertSlot_codes {lo hi : List Nat} {index : Nat} {l : LinkOrValue} (hs : SearchOk nd (slotsOf nd.permutation))
    (heq : slotsOf nd.permutation = lo ++ hi) (hlo : ∀ i ∈ lo, (nd.key i).code < k.code)
    (hhi : ∀ i ∈ hi, k.code < (nd.key i).code) (hc : getCnk nd.permutation < 15) (hi15 : index < 15)
    (hfree : index ∉ slotsOf nd.permutation) :
    slotsOf (nd.insertSlot index lo.length k l).permutation = (slotsOf nd.permutation).insertIdx lo.length index ∧
      ((slotsOf (nd.insertSlot index lo.length k l).permutation).map
        fun i => ((nd.insertSlot index lo.length k l).key i).code).Pairwise (· < ·) := by
  have hle : lo.length ≤ getCnk nd.permutation := by
    rw [← slotsOf_length, heq]
    simp
  have hslots := @Node.insertSlot_slotsOf nd index lo.length k l hle hc hi15
  refine ⟨hslots, ?_⟩
  have hsorted := Lib.sorted_place (heq ▸ hs.sorted) hlo hhi
  rw [← heq] at hsorted
  have hnew : (nd.insertSlot index lo.length k l).key index = k := congrArg Prod.fst Node.insertSlot_slot_same
  have hold : (slotsOf nd.permutation).map (fun i => ((nd.insertSlot index lo.length k l).key i).code) =
      (slotsOf nd.permutation).map fun i => (nd.key i).code := by
    refine List.map_congr_left fun i hi' => ?_
    have hne : i ≠ index := fun hii => hfree (hii ▸ hi')
    exact congrArg KeyTuple.code (congrArg Prod.fst (Node.insertSlot_slot_ne hne))
  rw [hslots, List.map_insertIdx, hnew, hold]
  exact hsorted

/-- The lookups of a border select one slot or none, and the rank of a new key is its place. -/
theorem border_lookups_agree (hn : s.node n = some nd) (hkind : nd.kind = .border) (hst : nd.version.stable = true)
    (h : BorderShape s first n nd) (hk : k.Encoded) :
    ∃ pos : Option Nat,
      (∀ retry, ∀ fuel > 0, run (getLvOf fuel retry n k.slice k.length) s = some ((pos, nd.version), s)) ∧
      run (getLvOfWithoutLock n k.slice k.length) s = some (pos, s) ∧
      (∃ x, run (searchKey n k.slice k.length 0 (slotsOf nd.permutation)) s = some (x, s) ∧ x.map Prod.snd = pos ∧
        ∀ rank i, x = some (rank, i) → (slotsOf nd.permutation)[rank]? = some i) ∧
      (∀ i, pos = some i ↔ i ∈ slotsOf nd.permutation ∧ nd.key i = k) ∧
      (∀ i j, pos = some i → j ∈ slotsOf nd.permutation → nd.key j = k → j = i) ∧
      (pos = none → ∃ rank, run (computeRankIfInsert n k.slice k.length) s = some (rank, s) ∧
        rank = ((slotsOf nd.permutation).filter fun i => (nd.key i).code < k.code).length ∧
        ∀ key (v : ValuePtr) index, k = .ofKey key → n < s.nextNode → getCnk nd.permutation < 15 → index < 15 →
          index ∉ slotsOf nd.permutation →
          (∀ w, nd.lv index ≠ .value (.heap w)) → ∃ s' nd', (∀ fuel j, 0 < fuel → layers key < j →
            run (insertLvAt fuel j n index key v rank) s = some (.value v, s')) ∧ s'.node n = some nd' ∧
            slotsOf nd'.permutation = (slotsOf nd.permutation).insertIdx rank index ∧
            ((slotsOf nd'.permutation).map fun i => (nd'.key i).code).Pairwise (· < ·)) := by
  have hs := h.searchOk
  obtain ⟨x, hx, hfind, hrank⟩ := run_searchKey_find hn hk 0 hs
  have hmem : ∀ i, (slotsOf nd.permutation).find? (fun i => decide (nd.key i = k)) = some i ↔
    i ∈ slotsOf nd.permutation ∧ nd.key i = k := by
    intro i
    constructor
    · exact fun hf => ⟨List.mem_of_find?_eq_some hf, by simpa using List.find?_some hf⟩
    · rintro ⟨hi, hki⟩
      cases hf : (slotsOf nd.permutation).find? (fun i => decide (nd.key i = k)) with
      | none => exact absurd hki (by simpa using List.find?_eq_none.mp hf i hi)
      | some j =>
        have hkj : nd.key j = k := by simpa using List.find?_some hf
        rw [hs.key_inj hi (List.mem_of_find?_eq_some hf) (hki.trans hkj.symm)]
  refine ⟨(slotsOf nd.permutation).find? (fun i => decide (nd.key i = k)), fun retry fuel hf => ?_, ?_,
    ⟨x, hx, hfind, fun rank i he => ?_⟩, hmem,
    fun i j hi hj hkj => ?_, fun hnone => ?_⟩
  · rw [getLvOf, run_getStableVersion_bind hn hst hf]
    obtain ⟨f, rfl⟩ : ∃ j, fuel = j + 1 := ⟨fuel - 1, by omega⟩
    rw [getLvOfLoop, run_load_permutation hn hkind, run_bind_of (run_searchLv hn hk hs),
      run_getStableVersion_bind hn hst hf, if_pos rfl]
    rfl
  · rw [getLvOfWithoutLock, run_load_permutation hn hkind, run_searchLvWithoutLock hn hk none hs, Option.or_none]
  · obtain ⟨j, rfl, hj⟩ := hrank rank i he
    rwa [Nat.zero_add]
  · obtain ⟨hi', hki⟩ := (hmem i).mp hi
    exact hs.key_inj hj hi' (hkj.trans hki.symm)
  · have habs : ∀ i ∈ slotsOf nd.permutation, nd.key i ≠ k := fun i hi => by simpa using List.find?_eq_none.mp hnone i hi
    have hcode : ∀ i ∈ slotsOf nd.permutation, (nd.key i).code ≠ k.code := fun i hi he =>
      habs i hi (KeyTuple.code_inj (hs.encoded i hi).length_le hk.length_le he)
    obtain ⟨lo, hi, heq, hlen, hlo, hhi⟩ := Lib.exists_place (fun i => (nd.key i).code) hs.sorted hcode
    refine ⟨lo.length, ?_, ?_, fun key v index hkey hlt hc hi15 hfree hheap => ?_⟩
    · rw [computeRankIfInsert, run_load_permutation hn hkind, run_computeRankLoop hn hk 0 hs habs, Nat.zero_add, hlen]
    · rw [heq, List.filter_append, List.filter_eq_self.mpr (by simpa using hlo), List.filter_eq_nil_iff.mpr fun i hi' => by
        simpa using (hhi i hi').le, List.append_nil]
    · obtain ⟨f, hrun, hfn, -⟩ := @run_insertLvAt v (layers key) s n nd index lo.length key rfl hn hlt hkind hc hi15 hheap
      obtain ⟨hslots, hsorted⟩ := insertSlot_codes (l := lvOf key v s.nextNode) hs heq hlo hhi hc hi15 hfree
      rw [hkey] at hslots hsorted
      exact ⟨_, _, hrun, hfn, hslots, hsorted⟩

/-- A border with the keys `[5]` and `[5, 0]` and a link to the layer of the longer keys with the same slice. -/
def nulBorder : Node := { Node.fresh .border with
  version := ⟨0, false, false, false, 0, false, true, true⟩
  keySlice := upd (fun _ => .ofKey [5]) 0 (.ofKey [5, 0])
  keyLength := upd (upd (upd (fun _ => 0) 3 1) 0 2) 7 9
  permutation := 0x7033
  lv := upd (upd (upd (fun _ => .empty) 3 (.value (.word 7))) 0 (.value (.word 8))) 7 (.link 1) }

def nulState : State :=
  { (State.init.setNode 0 nulBorder).setNode 1 { Node.fresh .border with parent := some 0 } with nextNode := 2 }

theorem nulBorder_shape : BorderShape nulState true 0 nulBorder := by
  have hslots : slotsOf nulBorder.permutation = [3, 0, 7] := by decide
  have hcases : ∀ i ∈ slotsOf nulBorder.permutation, i = 3 ∨ i = 0 ∨ i = 7 := by simp [hslots]
  refine ⟨by decide, by decide, by decide, by decide, fun i hi h8 => ?_, fun i hi h8 => ?_, fun h => by cases h⟩
  · rcases hcases i hi with rfl | rfl | rfl
    · exact ⟨⟨_, rfl⟩, (KeyTuple.ofKey_encoded [5]).padding⟩
    · exact ⟨⟨_, rfl⟩, (KeyTuple.ofKey_encoded [5, 0]).padding⟩
    · exact absurd h8 (by decide)
  · rcases hcases i hi with rfl | rfl | rfl
    · exact absurd h8 (by decide)
    · exact absurd h8 (by decide)
    · exact ⟨by decide, 1, _, rfl, rfl, rfl⟩

theorem border_lookups_agree_nul :
    (∃ pos, run (getLvOfWithoutLock 0 (KeySlice.ofKey [5, 0]) 2) nulState = some (pos, nulState) ∧ pos = some 0) ∧
      ∃ rank, run (computeRankIfInsert 0 (KeySlice.ofKey [5, 0, 0]) 3) nulState = some (rank, nulState) ∧ rank = 2 := by
  obtain ⟨pos, -, hpos, -, hiff, -⟩ := border_lookups_agree (k := .ofKey [5, 0]) (s := nulState) rfl rfl rfl nulBorder_shape
    (KeyTuple.ofKey_encoded [5, 0])
  obtain ⟨pos', -, -, -, hiff', -, hrank⟩ := border_lookups_agree (k := .ofKey [5, 0, 0])
    (s := nulState) rfl rfl rfl nulBorder_shape
    (KeyTuple.ofKey_encoded [5, 0, 0])
  refine ⟨⟨pos, hpos, (hiff 0).mpr (by decide)⟩, ?_⟩
  have hnone : pos' = none := by
    refine Option.eq_none_iff_forall_ne_some.mpr fun i hi => ?_
    have hno : ∀ i ∈ slotsOf nulBorder.permutation, nulBorder.key i ≠ KeyTuple.ofKey [5, 0, 0] := by decide
    obtain ⟨hmem, hkey⟩ := (hiff' i).mp hi
    exact hno i hmem hkey
  obtain ⟨rank, hrun, hlen, -⟩ := hrank hnone
  exact ⟨rank, hrun, hlen.trans (by decide)⟩

end
end Yakushima
