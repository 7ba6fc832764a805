import Mathlib.Data.List.Nodup
import Mathlib.Data.List.Perm.Subperm
import Yakushima.Model.Permutation

/-! # The permutation as a list

A permutation word stands for the list of its first `cnk` slots. Each operation of `permutation.h` is
followed nibble by nibble, and is then an operation on this list. -/

namespace Yakushima
namespace Permutation

/-! ### Nibbles -/

/-- Nibble `i` of a word; nibble 0 is the count and nibble `r + 1` the slot of rank `r`. -/
def nib (body i : Nat) : Nat := (body >>> (4 * i)) &&& 15

theorem nib_lt (body i : Nat) : nib body i < 16 := Nat.lt_succ_of_le Nat.and_le_right

theorem testBit_nib (body i t : Nat) : (nib body i).testBit t = (decide (t < 4) && body.testBit (4 * i + t)) := by
  rw [nib, Nat.testBit_and, Nat.testBit_shiftRight, show (15 : Nat) = 2 ^ 4 - 1 from rfl,
    Nat.testBit_two_pow_sub_one, Bool.and_comm]

theorem nib_or (a b i : Nat) : nib (a ||| b) i = nib a i ||| nib b i := by
  simp only [nib, Nat.shiftRight_or_distrib, Nat.and_or_distrib_right]

theorem nib_zero (i : Nat) : nib 0 i = 0 := by simp [nib]

theorem nib_shiftRight (a j i : Nat) : nib (a >>> (4 * j)) i = nib a (i + j) := by
  simp only [nib, ← Nat.shiftRight_add]
  congr 2
  omega

theorem nib_shiftLeft (a j i : Nat) : nib (a <<< (4 * j)) i = if i < j then 0 else nib a (i - j) := by
  refine Nat.eq_of_testBit_eq fun t => ?_
  rw [testBit_nib, Nat.testBit_shiftLeft]
  by_cases ht : t < 4
  · by_cases h : i < j
    · simp [h, show ¬ 4 * j ≤ 4 * i + t by omega]
    · simp [h, testBit_nib, ht, show 4 * j ≤ 4 * i + t by omega, show 4 * i + t - 4 * j = 4 * (i - j) + t by omega]
  · split <;> simp [ht, testBit_nib]

theorem nib_mod (a i : Nat) : nib (a % wordSize) i = if i < 16 then nib a i else 0 := by
  refine Nat.eq_of_testBit_eq fun t => ?_
  rw [testBit_nib, wordSize, Nat.testBit_mod_two_pow]
  by_cases ht : t < 4
  · by_cases h : i < 16
    · simp [h, testBit_nib, ht, show 4 * i + t < 64 by omega]
    · simp [h, show ¬ 4 * i + t < 64 by omega]
  · split <;> simp [ht, testBit_nib]

theorem nib_of_lt_sixteen {n : Nat} (h : n < 16) (i : Nat) : nib n i = if i = 0 then n else 0 := by
  split
  · next hi =>
    subst hi
    simpa [nib] using Nat.and_two_pow_sub_one_of_lt_two_pow (n := 4) h
  · next hi =>
    have : n >>> (4 * i) = 0 := Nat.shiftRight_eq_zero _ _ (Nat.lt_of_lt_of_le h
      (Nat.pow_le_pow_right (n := 2) (by omega) (show 4 ≤ 4 * i by omega)))
    simp [nib, this]

theorem nib_clearCnk (a i : Nat) : nib (clearCnk a) i = if i = 0 then 0 else nib a i := by
  have h := nib_shiftLeft (a >>> 4) 1 i
  have h' := nib_shiftRight a 1 (i - 1)
  simp only [Nat.mul_one] at h h'
  simp only [clearCnk, pkeyBitSize, h, h']
  by_cases hi : i = 0
  · simp [hi]
  · rw [if_neg (by omega), if_neg hi, show i - 1 + 1 = i by omega]

theorem nib_shl (a j i : Nat) : nib (shl a (pkeyBitSize * j)) i = if i < 16 ∧ j ≤ i then nib a (i - j) else 0 := by
  simp only [shl, pkeyBitSize, nib_mod, nib_shiftLeft]
  grind

theorem getCnk_eq (body : Nat) : getCnk body = nib body 0 := by simp [getCnk, nib, cnkMask]

theorem getIndexOfRank_eq (body rank : Nat) : getIndexOfRank body rank = nib body (rank + 1) := by
  simp only [getIndexOfRank, nib, cnkMask, pkeyBitSize, ← Nat.shiftRight_add]
  congr 2
  omega

theorem getCnk_lt (body : Nat) : getCnk body < 16 := getCnk_eq body ▸ nib_lt _ _

theorem slotsOf_length (body : Nat) : (slotsOf body).length = getCnk body := by simp [slotsOf]

theorem slotsOf_getElem? (body i : Nat) :
    (slotsOf body)[i]? = if i < getCnk body then some (nib body (i + 1)) else none := by
  simp only [slotsOf, List.getElem?_map]
  by_cases h : i < getCnk body <;> simp [h, getIndexOfRank_eq]

/-! ### The operations, nibble by nibble -/

theorem nib_withCnk {n : Nat} (h : n < 16) (a i : Nat) :
    nib (clearCnk a ||| n) i = if i = 0 then n else nib a i := by
  rw [nib_or, nib_clearCnk, nib_of_lt_sixteen h]
  by_cases hi : i = 0 <;> simp [hi]

theorem nib_incKeyNum {body : Nat} (h : getCnk body < 15) (i : Nat) :
    nib (incKeyNum body) i = if i = 0 then getCnk body + 1 else nib body i := nib_withCnk (by omega) _ _

theorem nib_decKeyNum {body : Nat} (h : 0 < getCnk body) (i : Nat) :
    nib (decKeyNum body) i = if i = 0 then getCnk body - 1 else nib body i := by
  have hlt := getCnk_lt body
  have : (getCnk body + wordSize - 1) % wordSize = getCnk body - 1 := by
    simp only [wordSize]
    omega
  rw [decKeyNum, this]
  exact nib_withCnk (by omega) _ _

/-- The part below the position, as both `insert` and `delete_rank` cut it out. -/
theorem nib_right {rank i : Nat} (body : Nat) (hr : rank < 15) (hi : i ≠ 0) :
    nib (if rank = 0 then 0 else shl body (pkeyBitSize * (keySliceLength - rank)) >>>
      (pkeyBitSize * (keySliceLength - rank))) i = if i ≤ rank then nib body i else 0 := by
  by_cases h0 : rank = 0
  · simp [h0, hi, nib_zero]
  · rw [if_neg h0]
    have := nib_shiftRight (shl body (pkeyBitSize * (keySliceLength - rank))) (keySliceLength - rank) i
    rw [show pkeyBitSize = 4 from rfl] at this ⊢
    rw [this, show (4 : Nat) = pkeyBitSize from rfl, nib_shl]
    have hk : keySliceLength = 15 := rfl
    by_cases hir : i ≤ rank
    · rw [if_pos hir, if_pos (by omega), Nat.add_sub_cancel]
    · rw [if_neg hir, if_neg (by omega)]

theorem nib_deleteRank {body rank : Nat} (hr : rank < getCnk body) (i : Nat) :
    nib (deleteRank body rank) i = if i = 0 then getCnk body
      else if i ≤ rank then nib body i
      else if i < 16 ∧ rank + 1 ≠ getCnk body then nib body (i + 1) else 0 := by
  have hlt := getCnk_lt body
  rw [deleteRank, nib_withCnk hlt, nib_or]
  by_cases hi : i = 0
  · simp [hi]
  · simp only [hi, ↓reduceIte]
    have hleft : nib (if rank + 1 = getCnk body ∨ rank = keySliceLength - 1 then 0
        else shl (body >>> (pkeyBitSize * (rank + 2))) (pkeyBitSize * (rank + 1))) i =
        if rank < i ∧ i < 16 ∧ rank + 1 ≠ getCnk body then nib body (i + 1) else 0 := by
      by_cases hc : rank + 1 = getCnk body ∨ rank = keySliceLength - 1
      · rw [if_pos hc, nib_zero, if_neg]
        simp only [keySliceLength] at hc
        omega
      · rw [if_neg hc, nib_shl, show pkeyBitSize = 4 from rfl, nib_shiftRight]
        simp only [keySliceLength] at hc
        by_cases hir : rank < i ∧ i < 16
        · rw [if_pos (by omega), if_pos (by omega)]
          congr 1
          omega
        · rw [if_neg (by omega), if_neg (by omega)]
    rw [nib_right body (by omega) hi, hleft]
    by_cases hir : i ≤ rank
    · simp [hir, Nat.not_lt.mpr hir]
    · simp [hir, Nat.lt_of_not_le hir]

theorem nib_insert {body rank pos : Nat} (hr : rank < getCnk body) (hp : pos < 16) (i : Nat) :
    nib (insert body rank pos) i = if i = 0 then getCnk body
      else if i ≤ rank then nib body i
      else if i = rank + 1 then pos
      else if i < 16 ∧ rank + 1 ≠ getCnk body then nib body (i - 1) else 0 := by
  have hlt := getCnk_lt body
  rw [insert, nib_withCnk hlt, nib_or, nib_or]
  by_cases hi : i = 0
  · simp [hi]
  · simp only [hi, ↓reduceIte]
    have htarget : nib (shl pos (pkeyBitSize * (rank + 1))) i = if i = rank + 1 then pos else 0 := by
      rw [nib_shl, nib_of_lt_sixteen hp]
      by_cases hir : i = rank + 1
      · simp [hir]
        omega
      · by_cases hij : i < 16 ∧ rank + 1 ≤ i
        · simp [hir, hij]
          omega
        · rw [if_neg hir, if_neg (by omega)]
    have hleft : nib (if rank + 1 = getCnk body then 0
        else shl (body >>> (pkeyBitSize * (rank + 1))) (pkeyBitSize * (rank + 2))) i =
        if rank + 1 < i ∧ i < 16 ∧ rank + 1 ≠ getCnk body then nib body (i - 1) else 0 := by
      by_cases hc : rank + 1 = getCnk body
      · simp [hc, nib_zero]
      · rw [if_neg hc, nib_shl, show pkeyBitSize = 4 from rfl, nib_shiftRight]
        by_cases hir : rank + 1 < i ∧ i < 16
        · rw [if_pos (by omega), if_pos (by omega)]
          congr 1
          omega
        · rw [if_neg (by omega), if_neg (by omega)]
    rw [nib_right body (by omega) hi, htarget, hleft]
    rcases Nat.lt_trichotomy i (rank + 1) with h | h | h
    · simp [show i ≤ rank by omega, show i ≠ rank + 1 by omega, show ¬ rank + 1 < i by omega]
    · simp [h, show ¬ rank + 1 ≤ rank by omega]
    · simp [show ¬ i ≤ rank by omega, show i ≠ rank + 1 by omega, h]

/-! ### The operations on the list -/

theorem getCnk_deleteRank {body rank : Nat} (hr : rank < getCnk body) : getCnk (deleteRank body rank) = getCnk body := by
  rw [getCnk_eq, nib_deleteRank hr]
  rfl

/-- `delete_rank` and `dec_key_num` erase a position. -/
theorem slotsOf_delete {body rank : Nat} (hr : rank < getCnk body) :
    slotsOf (decKeyNum (deleteRank body rank)) = (slotsOf body).eraseIdx rank := by
  have hd := nib_deleteRank hr
  have hc := getCnk_deleteRank hr
  have hlt := getCnk_lt body
  have hn := nib_decKeyNum (by omega : 0 < getCnk (deleteRank body rank))
  have hc' : getCnk (decKeyNum (deleteRank body rank)) = getCnk body - 1 := by rw [getCnk_eq, hn, hc]; rfl
  apply List.ext_getElem?
  intro i
  rw [slotsOf_getElem?, List.getElem?_eraseIdx, slotsOf_getElem?, slotsOf_getElem?, hc', hn, hd]
  grind

/-- `inc_key_num` and `insert` insert at a position. -/
theorem slotsOf_insert {body rank pos : Nat} (hr : rank ≤ getCnk body) (hc : getCnk body < 15) (hp : pos < 15) :
    slotsOf (insert (incKeyNum body) rank pos) = (slotsOf body).insertIdx rank pos := by
  have hn := nib_incKeyNum hc
  have hc' : getCnk (incKeyNum body) = getCnk body + 1 := by rw [getCnk_eq, hn]; rfl
  have hi := @nib_insert (incKeyNum body) rank pos (by omega) (by omega)
  have hc'' : getCnk (insert (incKeyNum body) rank pos) = getCnk body + 1 := by rw [getCnk_eq, hi, hc']; rfl
  apply List.ext_getElem?
  intro i
  rw [slotsOf_getElem?, List.getElem?_insertIdx, slotsOf_getElem?, slotsOf_getElem?, hc'', hi, hn, hn, hc', slotsOf_length]
  grind

/-- `get_empty_slot` answers the least slot that is not in the list. -/
theorem getEmptySlot_spec {body : Nat} (hc : getCnk body < 15) :
    ∃ i, getEmptySlot body = some i ∧ i < 15 ∧ i ∉ slotsOf body ∧ ∀ j < i, j ∈ slotsOf body := by
  by_cases h0 : getCnk body = 0
  · refine ⟨0, by simp [getEmptySlot, h0], by omega, ?_, by omega⟩
    simp [slotsOf, h0]
  · cases hf : (List.range keySliceLength).find? fun i => !(slotsOf body).contains i with
    | none =>
      -- Fifteen slots would fit into a list of fewer.
      have hall : ∀ i < 15, i ∈ slotsOf body := by
        intro i hi
        have := List.find?_eq_none.mp hf i (List.mem_range.mpr hi)
        simpa using this
      have hsub : (List.range 15).Subperm (slotsOf body) :=
        List.subperm_of_subset List.nodup_range fun i hi => hall i (List.mem_range.mp hi)
      have := hsub.length_le
      rw [List.length_range, slotsOf_length] at this
      omega
    | some i =>
      refine ⟨i, by rw [getEmptySlot, if_neg h0, hf], ?_, ?_, ?_⟩
      · exact List.mem_range.mp (List.mem_of_find?_eq_some hf)
      · simpa using List.find?_some hf
      · intro j hj
        obtain ⟨-, k, hk, hik, hlt⟩ := List.find?_eq_some_iff_getElem.mp hf
        rw [List.getElem_range] at hik
        subst hik
        have := hlt j hj
        simpa using this

/-- `split_dest` lists the first slots. -/
theorem slotsOf_splitDest {n : Nat} (hn : n ≤ 15) : slotsOf (splitDest n) = List.range n := by
  have : ∀ m ≤ 15, slotsOf (splitDest m) = List.range m := by decide
  exact this n hn

/-! ### The word as a list -/

/-- The list that a word stands for: its first `cnk` index nibbles. -/
def indexes (body : Nat) : List Nat := (List.range (body % 16)).map fun i => body / 16 ^ (i + 1) % 16

/-- A 64-bit word whose indexes are distinct and below 15; the nibbles above the count are arbitrary. -/
structure WellFormed (body : Nat) : Prop where
  word : body < wordSize
  nodup : (indexes body).Nodup
  bound : ∀ i ∈ indexes body, i < 15

theorem nib_eq_div (body i : Nat) : nib body i = body / 16 ^ i % 16 := by
  rw [nib, Nat.shiftRight_eq_div_pow, show (15 : Nat) = 2 ^ 4 - 1 from rfl, Nat.and_two_pow_sub_one_eq_mod, Nat.pow_mul]

theorem getCnk_eq_mod (body : Nat) : getCnk body = body % 16 := by simp [getCnk_eq, nib_eq_div]

theorem indexes_eq (body : Nat) : indexes body = slotsOf body := by
  rw [indexes, slotsOf, getCnk_eq_mod]
  refine List.map_congr_left fun i _ => ?_
  rw [getIndexOfRank_eq, nib_eq_div]

theorem shl_lt (body n : Nat) : shl body n < wordSize := Nat.mod_lt _ (Nat.two_pow_pos 64)

theorem clearCnk_le (body : Nat) : clearCnk body ≤ body := by
  rw [clearCnk, Nat.shiftRight_eq_div_pow, Nat.shiftLeft_eq]
  exact Nat.div_mul_le_self _ _

theorem or_cnk_lt {body n : Nat} (h : body < wordSize) (hn : n < 16) : clearCnk body ||| n < wordSize :=
  Nat.or_lt_two_pow (Nat.lt_of_le_of_lt (clearCnk_le body) h) (Nat.lt_of_lt_of_le hn (by decide))

/-- The part below the position is a part of the word. -/
theorem right_lt (body rank : Nat) : (if rank = 0 then 0 else shl body (pkeyBitSize * (keySliceLength - rank)) >>>
    (pkeyBitSize * (keySliceLength - rank))) < wordSize := by
  split
  · exact Nat.two_pow_pos 64
  · exact Nat.lt_of_le_of_lt (Nat.shiftRight_le _ _) (shl_lt _ _)

theorem insert_lt (body rank pos : Nat) : insert body rank pos < wordSize := by
  refine or_cnk_lt (Nat.or_lt_two_pow (Nat.or_lt_two_pow ?_ (shl_lt _ _)) (right_lt _ _)) (getCnk_lt body)
  split
  · exact Nat.two_pow_pos 64
  · exact shl_lt _ _

theorem deleteRank_lt (body rank : Nat) : deleteRank body rank < wordSize := by
  refine or_cnk_lt (Nat.or_lt_two_pow ?_ (right_lt _ _)) (getCnk_lt body)
  split
  · exact Nat.two_pow_pos 64
  · exact shl_lt _ _

theorem decKeyNum_lt {body : Nat} (h : body < wordSize) (hc : 0 < getCnk body) : decKeyNum body < wordSize := by
  have hlt := getCnk_lt body
  refine or_cnk_lt h ?_
  simp only [wordSize]
  omega

theorem splitDest_lt {n : Nat} (hn : n ≤ 15) : splitDest n < wordSize := by
  have : ∀ m ≤ 15, splitDest m < wordSize := by decide
  exact this n hn

/-- The operations of a permutation are those of the list that it stands for. -/
theorem permutation_refines_list {body : Nat} (h : WellFormed body) :
    (∀ rank ≤ (indexes body).length, (indexes body).length < 15 → ∃ pos, getEmptySlot body = some pos ∧
      (pos ∉ indexes body ∧ ∀ j < pos, j ∈ indexes body) ∧
      indexes (insert (incKeyNum body) rank pos) = (indexes body).insertIdx rank pos ∧
        WellFormed (insert (incKeyNum body) rank pos)) ∧
    (∀ rank < (indexes body).length, indexes (decKeyNum (deleteRank body rank)) = (indexes body).eraseIdx rank ∧
      WellFormed (decKeyNum (deleteRank body rank))) ∧
    (∀ i, ∀ hi : i < (indexes body).length, getIndexOfRank body i = (indexes body)[i]) ∧
    (∀ n ≤ 15, indexes (splitDest n) = List.range n ∧ WellFormed (splitDest n)) := by
  obtain ⟨hword, hnd, hb⟩ := h
  simp only [indexes_eq] at hnd hb ⊢
  refine ⟨fun rank hr hc => ?_, fun rank hr => ?_, fun i hi => ?_, fun n hn => ?_⟩
  · rw [slotsOf_length] at hr hc
    obtain ⟨pos, hpos, hlt, hfree, hleast⟩ := getEmptySlot_spec hc
    have hins := slotsOf_insert hr hc hlt
    have hmem : ∀ {j}, j ∈ (slotsOf body).insertIdx rank pos ↔ j = pos ∨ j ∈ slotsOf body :=
      List.mem_insertIdx (by rw [slotsOf_length]; exact hr)
    refine ⟨pos, hpos, ⟨hfree, hleast⟩, hins, insert_lt _ _ _, ?_, ?_⟩
    · rw [indexes_eq, hins]
      exact (List.perm_insertIdx pos (slotsOf body) (by rw [slotsOf_length]; exact hr)).nodup_iff.mpr
        (List.nodup_cons.mpr ⟨hfree, hnd⟩)
    · rw [indexes_eq, hins]
      intro j hj
      rcases hmem.mp hj with rfl | hj
      · exact hlt
      · exact hb j hj
  · rw [slotsOf_length] at hr
    have hdel := slotsOf_delete hr
    have hpos : 0 < getCnk (deleteRank body rank) := by
      rw [getCnk_deleteRank hr]
      omega
    refine ⟨hdel, decKeyNum_lt (deleteRank_lt _ _) hpos, ?_, ?_⟩
    · rw [indexes_eq, hdel]
      exact hnd.sublist (List.eraseIdx_sublist _ _)
    · rw [indexes_eq, hdel]
      exact fun j hj => hb j (List.mem_of_mem_eraseIdx hj)
  · simp [slotsOf]
  · have hsplit := slotsOf_splitDest hn
    refine ⟨hsplit, splitDest_lt hn, ?_, ?_⟩
    · rw [indexes_eq, hsplit]
      exact List.nodup_range
    · rw [indexes_eq, hsplit]
      intro j hj
      have := List.mem_range.mp hj
      omega

theorem permutation_refines_list_two : WellFormed 0x102 ∧ indexes (decKeyNum (deleteRank 0x102 0)) = [1] := by
  have h : WellFormed 0x102 := ⟨by decide, by decide, by decide⟩
  exact ⟨h, ((permutation_refines_list h).2.1 0 (by decide)).1⟩

theorem getCnk_init : getCnk 0 = 0 := rfl

end Permutation
end Yakushima
