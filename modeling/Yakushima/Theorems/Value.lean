import Yakushima.Lib.TagBit
import Yakushima.Model.Node

/-! # Value headers and slot words

When the header of a heap value tells the truth about its block, and when a slot word is read as what was stored. -/

namespace Yakushima

/-! ### Tagged pointers -/

namespace Value
variable {page val : Size} {blocks : Blocks}

theorem kValPtrFlag_eq : kValPtrFlag = BitVec.twoPow 64 62 := by decide

/-- A word below the tags is no pointer to a block. -/
theorem removePtrFlag_of_lt (h : val.toNat < 2 ^ 62) : removePtrFlag val = val := by
  rw [removePtrFlag, kValPtrFlag_eq]
  exact Lib.and_not_twoPow (Lib.getLsbD_of_toNat_lt h le_rfl)

theorem removePtrFlag_tagged (h : page.toNat < 2 ^ 62) : removePtrFlag (tagged page) = page := by
  rw [removePtrFlag, tagged, kValPtrFlag_eq]
  exact Lib.or_twoPow_and_not (Lib.getLsbD_of_toNat_lt h le_rfl)

theorem tagged_ne (h : page.toNat < 2 ^ 62) : page ≠ tagged page := by
  intro heq
  have hbit : page.getLsbD 62 = (tagged page).getLsbD 62 := congrArg (fun y : Size => y.getLsbD 62) heq
  rw [tagged, kValPtrFlag_eq, Lib.getLsbD_or_twoPow (by decide), Lib.getLsbD_of_toNat_lt h le_rfl] at hbit
  cases hbit

/-! ### Headers -/

/-- The block of a value that `create_value<false>` made at the address `page`. -/
def created (blocks : Blocks) (page vLen vAlign : Size) : Blocks :=
  fun a => if a = page then some (createValue vLen vAlign).header else blocks a

/-- What is read back of the header is what was allocated, and the body lies behind the header within the block. -/
structure HeaderAgrees (blocks : Blocks) (page vLen vAlign : Size) : Prop where
  len : getLen (created blocks page vLen vAlign) (tagged page) = some vLen
  gcInfo : getGcInfo (created blocks page vLen vAlign) (tagged page) =
    some (page, (createValue vLen vAlign).total, (createValue vLen vAlign).align)
  delete : deleteValue (created blocks page vLen vAlign) (tagged page) =
    some (some (page, (createValue vLen vAlign).total, (createValue vLen vAlign).align))
  body : ∃ b, getBody (created blocks page vLen vAlign) (tagged page) = some b ∧ page.toNat + 8 ≤ b.toNat ∧
    b.toNat + vLen.toNat ≤ page.toNat + (createValue vLen vAlign).total.toNat

section
variable {vLen vAlign : Size}

theorem created_page : created blocks page vLen vAlign page = some (createValue vLen vAlign).header := if_pos rfl

theorem align_toNat : (createValue vLen vAlign).align.toNat = max vAlign.toNat 8 := by
  simp only [createValue]
  split
  · rename_i h
    have : vAlign.toNat < 8 := h
    rw [max_eq_right (Nat.le_of_lt this)]
    rfl
  · rename_i h
    have : ¬ vAlign.toNat < 8 := h
    rw [max_eq_left (Nat.not_lt.mp this)]

/-- The numbers that decide: the stored length and alignment, and their sum in 32 bits. -/
theorem createValue_toNat (hfit : vLen.toNat + max vAlign.toNat 8 < 2 ^ 64) :
    (createValue vLen vAlign).total.toNat = vLen.toNat + max vAlign.toNat 8 ∧
    (createValue vLen vAlign).header.len.toNat = vLen.toNat % 2 ^ 32 ∧
    (createValue vLen vAlign).header.align.toNat = max vAlign.toNat 8 % 2 ^ 16 ∧
    (blockSize (createValue vLen vAlign).header).toNat = (vLen.toNat % 2 ^ 32 + max vAlign.toNat 8 % 2 ^ 16) % 2 ^ 32 := by
  have hal := @align_toNat vLen vAlign
  have htotal : (createValue vLen vAlign).total = vLen + (createValue vLen vAlign).align := rfl
  have hlen : (createValue vLen vAlign).header.len.toNat = vLen.toNat % 2 ^ 32 := by
    rw [createValue, BitVec.toNat_setWidth]
  have halign : (createValue vLen vAlign).header.align.toNat = max vAlign.toNat 8 % 2 ^ 16 := by
    rw [← hal]
    exact BitVec.toNat_setWidth _ _
  refine ⟨?_, hlen, halign, ?_⟩
  · rw [htotal, BitVec.toNat_add, hal, Nat.mod_eq_of_lt hfit]
  · have h16 : max vAlign.toNat 8 % 2 ^ 16 < 2 ^ 16 := Nat.mod_lt _ (by decide)
    rw [blockSize, BitVec.toNat_setWidth, BitVec.toNat_add, BitVec.toNat_setWidth, hlen, halign]
    omega

/-- The header of a heap value agrees with its block if and only if the alignment fits into 16 bits and the size into 32. -/
theorem header_agrees_iff (hpow : ∃ k, vAlign.toNat = 2 ^ k) (hpage : page.toNat < 2 ^ 62)
    (hfit : page.toNat + vLen.toNat + max vAlign.toNat 8 < 2 ^ 64) :
    HeaderAgrees blocks page vLen vAlign ↔ vAlign.toNat ≤ 2 ^ 15 ∧ vLen.toNat + max vAlign.toNat 8 < 2 ^ 32 := by
  obtain ⟨htotal, hlen, halign, hsize⟩ := @createValue_toNat vLen vAlign (by omega)
  have hal := @align_toNat vLen vAlign
  have hne : ¬ page = tagged page := tagged_ne hpage
  -- The power of two: an alignment of more than 15 bits has its low 16 bits clear.
  have hsmall : max vAlign.toNat 8 % 2 ^ 16 = max vAlign.toNat 8 → vAlign.toNat ≤ 2 ^ 15 := by
    intro h
    obtain ⟨k, hk⟩ := hpow
    rcases Nat.lt_or_ge k 16 with hlt | hge
    · rw [hk]
      exact Nat.pow_le_pow_right Nat.two_pos (by omega)
    · have hdvd : 2 ^ 16 ∣ vAlign.toNat := hk ▸ Nat.pow_dvd_pow 2 hge
      omega
  constructor
  · intro h
    have hgc := h.gcInfo
    simp only [getGcInfo, removePtrFlag_tagged hpage, if_neg hne, created_page, Option.map_some, Option.some.injEq,
      Prod.mk.injEq, true_and] at hgc
    have h1 := congrArg BitVec.toNat hgc.1
    have h2 := congrArg BitVec.toNat hgc.2
    rw [hsize, htotal] at h1
    rw [BitVec.toNat_setWidth, halign, hal] at h2
    refine ⟨hsmall (by omega), by omega⟩
  · rintro ⟨h15, h32⟩
    have hmod : max vAlign.toNat 8 % 2 ^ 16 = max vAlign.toNat 8 := Nat.mod_eq_of_lt (by omega)
    have hlen' : ((createValue vLen vAlign).header.len.setWidth 64 : Size) = vLen := by
      refine BitVec.eq_of_toNat_eq ?_
      rw [BitVec.toNat_setWidth, hlen]
      omega
    have halign' : ((createValue vLen vAlign).header.align.setWidth 64 : Size) = (createValue vLen vAlign).align := by
      refine BitVec.eq_of_toNat_eq ?_
      rw [BitVec.toNat_setWidth, halign, hal]
      omega
    have hsize' : blockSize (createValue vLen vAlign).header = (createValue vLen vAlign).total := by
      refine BitVec.eq_of_toNat_eq ?_
      rw [hsize, htotal]
      omega
    refine ⟨?_, ?_, ?_, page + (createValue vLen vAlign).align, ?_, ?_, ?_⟩
    · simp only [getLen, removePtrFlag_tagged hpage, if_neg hne, created_page, Option.map_some, hlen']
    · simp only [getGcInfo, removePtrFlag_tagged hpage, if_neg hne, created_page, Option.map_some, hsize', halign']
    · simp only [deleteValue, removePtrFlag_tagged hpage, if_neg hne, created_page, Option.map_some, hsize', halign']
    · simp only [getBody, removePtrFlag_tagged hpage, if_neg hne, created_page, Option.map_some, halign']
    · rw [BitVec.toNat_add, hal]
      omega
    · rw [BitVec.toNat_add, hal, htotal]
      omega

theorem header_agrees_iff_small : HeaderAgrees (fun _ => none) 4096 24 16 :=
  (header_agrees_iff ⟨4, by decide⟩ (by decide) (by decide)).mpr ⟨by decide, by decide⟩

/-- A block of 2^32 bytes is recorded with the size 0. -/
theorem header_of_large_value : (∃ k, (8 : Size).toNat = 2 ^ k) ∧ (4096 : Size).toNat < 2 ^ 62 ∧
    (4096 : Size).toNat + (4294967288 : Size).toNat + max (8 : Size).toNat 8 < 2 ^ 64 ∧
    getGcInfo (created (fun _ => none) 4096 4294967288 8) (tagged 4096) = some (4096, 0, 8) ∧
    (createValue 4294967288 8).total = 4294967296 ∧ ¬ HeaderAgrees (fun _ => none) 4096 4294967288 8 := by
  have hgc : getGcInfo (created (fun _ => none) 4096 4294967288 8) (tagged 4096) = some (4096, 0, 8) := by decide
  have htotal : (createValue 4294967288 8).total = 4294967296 := by decide
  refine ⟨⟨3, by decide⟩, by decide, by decide, hgc, htotal, fun h => ?_⟩
  have := hgc.symm.trans h.gcInfo
  rw [htotal] at this
  exact absurd this (by decide)

end
end Value
/-! ### Slot words -/

namespace Slot
open Value

theorem kChildFlag_eq : kChildFlag = BitVec.twoPow 64 63 := by decide

/-- What a word in a slot is read as. -/
theorem getValue_of_child {x : Size} (h : x.getLsbD 63 = true) : getValue x = 0 := by
  have hne : x &&& kChildFlag ≠ 0 := by
    rw [kChildFlag_eq, Ne, Lib.and_twoPow_eq_zero (by decide), h]
    simp
  have hpos : 0 < x &&& kChildFlag := BitVec.lt_def.mpr (Nat.pos_of_ne_zero fun h0 => hne (BitVec.eq_of_toNat_eq h0))
  rw [getValue, if_pos (Or.inl hpos)]

theorem getValue_of_not_child {x : Size} (h : x.getLsbD 63 = false) : getValue x = if x = kValPtrFlag then 0 else x := by
  have hz : x &&& kChildFlag = 0 := by rwa [kChildFlag_eq, Lib.and_twoPow_eq_zero (by decide)]
  rw [getValue, hz]
  simp

theorem getNextLayer_of_not_child {x : Size} (h : x.getLsbD 63 = false) : getNextLayer x = 0 := by
  rw [getNextLayer, if_pos]
  rwa [kChildFlag_eq, Lib.and_twoPow_eq_zero (by decide)]

theorem getNextLayer_link {n : Size} (h : n.toNat < 2 ^ 62) : getNextLayer (n ||| kChildFlag) = n := by
  have hbit : (n ||| kChildFlag).getLsbD 63 = true := by
    rw [kChildFlag_eq, Lib.getLsbD_or_twoPow (by decide)]
    simp
  rw [getNextLayer, if_neg, kChildFlag_eq]
  · exact Lib.or_twoPow_and_not (Lib.getLsbD_of_toNat_lt h (by decide))
  · rw [kChildFlag_eq, Lib.and_twoPow_eq_zero (by decide), ← kChildFlag_eq, hbit]
    simp

theorem getValue_link (n : Size) : getValue (n ||| kChildFlag) = 0 := by
  refine getValue_of_child ?_
  rw [kChildFlag_eq, Lib.getLsbD_or_twoPow (by decide)]
  simp

/-- The slot is read as what was stored. -/
def Put.Decodes (m : Memory) : Put → Prop
  | .word w _ => getNextLayer m.childOrV = 0 ∧ isValuePtr (getValue m.childOrV) = false ∧
    Value.needDelete m.blocks (getValue m.childOrV) = some false ∧
    Value.getLen m.blocks (getValue m.childOrV) = some 8 ∧ Value.getBody m.blocks (getValue m.childOrV) = some w
  | .heap page _ _ _ => getValue m.childOrV = tagged page ∧ getNextLayer m.childOrV = 0
  | .link n => getNextLayer m.childOrV = n ∧ getValue m.childOrV = 0
  | .init => getNextLayer m.childOrV = 0 ∧ getValue m.childOrV = 0

/-- What the callers may store: a heap value lies in a new block, and addresses are below the tags. -/
def Put.Admits (m : Memory) : Put → Prop
  | .word _ _ => True
  | .heap page _ _ _ => 0 < page.toNat ∧ page.toNat < 2 ^ 62 ∧ m.blocks page = none
  | .link n => n.toNat < 2 ^ 62
  | .init => True

/-- Every one of the calls may be made where it is made. -/
def Admissible : Memory → List Put → Prop
  | _, [] => True
  | m, p :: ps => p.Admits m ∧ ∀ m', p.run m = some m' → Admissible m' ps

/-- Every one of the calls returns, and the slot is then read as what it stored. -/
def Faithful : Memory → List Put → Prop
  | _, [] => True
  | m, p :: ps => ∃ m', p.run m = some m' ∧ p.Decodes m' ∧ Faithful m' ps

/-- An inline word has no tag. -/
def Put.Untagged : Put → Prop
  | .word w _ => w.toNat < 2 ^ 62
  | _ => True

/-- The word of a slot: a link, nothing, an inline word without a tag, or the tagged address of a block. -/
inductive Sound (m : Memory) : Prop where
  | link (h : m.childOrV.getLsbD 63 = true)
  | empty (h : m.childOrV = kValPtrFlag)
  | word (h : m.childOrV.toNat < 2 ^ 62)
  | heap {page : Size} (h : m.childOrV = tagged page) (hpos : 0 < page.toNat) (hlt : page.toNat < 2 ^ 62)
    (hb : m.blocks page ≠ none)

section
variable {m m' : Memory} {page : Size}

theorem tagged_not_child (h : page.toNat < 2 ^ 62) : (tagged page).getLsbD 63 = false := by
  rw [tagged, kValPtrFlag_eq, Lib.getLsbD_or_twoPow (by decide), Lib.getLsbD_of_toNat_lt h (by decide)]
  rfl

theorem tagged_ne_flag (hpos : 0 < page.toNat) (h : page.toNat < 2 ^ 62) : tagged page ≠ kValPtrFlag := by
  intro heq
  have hz : removePtrFlag (tagged page) = removePtrFlag kValPtrFlag := congrArg removePtrFlag heq
  rw [removePtrFlag_tagged h] at hz
  have : page.toNat = 0 := congrArg BitVec.toNat (hz.trans (by decide : removePtrFlag kValPtrFlag = 0))
  omega

theorem getValue_tagged (hpos : 0 < page.toNat) (h : page.toNat < 2 ^ 62) : getValue (tagged page) = tagged page := by
  rw [getValue_of_not_child (tagged_not_child h), if_neg (tagged_ne_flag hpos h)]

theorem lt_ne_flag {x : Size} (h : x.toNat < 2 ^ 62) : x ≠ kValPtrFlag := by
  rintro rfl
  exact absurd h (by decide)

/-- `set_value` on a sound slot stores, and frees no block but the one that the slot held. -/
theorem Sound.setValue (h : Sound m) (new : Size) (keepOld : Bool) : ∃ m', Slot.setValue new keepOld m = some m' ∧
    m'.childOrV = new ∧
    ∀ a, m'.blocks a = m.blocks a ∨ m.childOrV = tagged a ∧ a.toNat < 2 ^ 62 := by
  unfold Slot.setValue
  cases h with
  | link h =>
    rw [getValue_of_child h]
    exact ⟨_, rfl, rfl, fun _ => Or.inl rfl⟩
  | empty h =>
    rw [getValue_of_not_child (by rw [h]; decide), if_pos h]
    exact ⟨_, rfl, rfl, fun _ => Or.inl rfl⟩
  | word h =>
    rw [getValue_of_not_child (Lib.getLsbD_of_toNat_lt h (by decide)), if_neg (lt_ne_flag h)]
    simp only [Value.needDelete, removePtrFlag_of_lt h, if_true]
    split
    · exact ⟨_, rfl, rfl, fun _ => Or.inl rfl⟩
    · exact ⟨_, rfl, rfl, fun _ => Or.inl rfl⟩
  | @heap page h hpos hlt hb =>
    rw [h, getValue_tagged hpos hlt]
    have hne : ¬ page = tagged page := tagged_ne hlt
    obtain ⟨hd, hhd⟩ := Option.ne_none_iff_exists'.mp hb
    simp only [Value.needDelete, removePtrFlag_tagged hlt, if_neg hne, hhd, Option.map_some]
    split
    · exact ⟨_, rfl, rfl, fun _ => Or.inl rfl⟩
    · cases hd.needDelete with
      | false => exact ⟨_, rfl, rfl, fun _ => Or.inl rfl⟩
      | true =>
        simp only
        split
        · exact ⟨_, rfl, rfl, fun _ => Or.inl rfl⟩
        · refine ⟨_, rfl, rfl, fun a => ?_⟩
          by_cases ha : a = page
          · exact Or.inr ⟨by rw [ha], ha ▸ hlt⟩
          · exact Or.inl (if_neg ha)

/-- An inline word is read back if and only if it has no tag. -/
theorem word_decodes_iff {w : Size} {keepOld : Bool} (h : m.childOrV = w) : (Put.word w keepOld).Decodes m ↔
    w.toNat < 2 ^ 62 := by
  simp only [Put.Decodes, h]
  constructor
  · rintro ⟨-, hptr, -, -, hbody⟩
    by_contra hge
    have hbit : w.getLsbD 63 = true ∨ w.getLsbD 63 = false ∧ w.getLsbD 62 = true := by
      by_contra hno
      simp only [not_or, not_and, Bool.not_eq_true] at hno
      refine hge (Lib.toNat_lt_of_getLsbD fun j hj => ?_)
      rcases Nat.lt_or_ge j 64 with hlt | h64
      · rcases Nat.eq_or_lt_of_le hj with rfl | hj
        · exact hno.2 hno.1
        · rw [show j = 63 by omega]
          exact hno.1
      · exact BitVec.getLsbD_of_ge w j h64
    have hnz : w ≠ 0 := by
      rintro rfl
      exact hge (by decide)
    rcases hbit with h63 | ⟨h63, h62⟩
    · rw [getValue_of_child h63] at hbody
      exact hnz (Option.some.inj hbody).symm
    · rw [getValue_of_not_child h63] at hbody hptr
      split at hbody
      · exact hnz (Option.some.inj hbody).symm
      · rename_i hflag
        rw [if_neg hflag] at hptr
        have hz : w &&& kValPtrFlag ≠ 0 := by
          rw [kValPtrFlag_eq, Ne, Lib.and_twoPow_eq_zero (by decide), h62]
          simp
        have hpos : 0 < w &&& kValPtrFlag := BitVec.lt_def.mpr (Nat.pos_of_ne_zero fun h0 => hz (BitVec.eq_of_toNat_eq h0))
        rw [isValuePtr, decide_eq_true hpos] at hptr
        cases hptr
  · intro hlt
    have h63 : w.getLsbD 63 = false := Lib.getLsbD_of_toNat_lt hlt (by decide)
    have hz : w &&& kValPtrFlag = 0 := by
      rw [kValPtrFlag_eq, Lib.and_twoPow_eq_zero (by decide)]
      exact Lib.getLsbD_of_toNat_lt hlt le_rfl
    rw [getNextLayer_of_not_child h63, getValue_of_not_child h63, if_neg (lt_ne_flag hlt)]
    refine ⟨rfl, ?_, ?_, ?_, ?_⟩
    · rw [isValuePtr, hz]
      rfl
    · simp only [Value.needDelete, removePtrFlag_of_lt hlt, if_true]
    · simp only [Value.getLen, removePtrFlag_of_lt hlt, if_true]
    · simp only [Value.getBody, removePtrFlag_of_lt hlt, if_true]

/-- One call on a sound slot. -/
theorem Sound.run (h : Sound m) {p : Put} (ha : p.Admits m) : ∃ m', p.run m = some m' ∧ (p.Decodes m' ↔ p.Untagged) ∧
    (p.Untagged → Sound m') := by
  cases p with
  | word w keepOld =>
    obtain ⟨m', hrun, hw, -⟩ := h.setValue w keepOld
    exact ⟨m', hrun, word_decodes_iff hw, fun hlt => .word (by rw [hw]; exact hlt)⟩
  | heap page vLen vAlign keepOld =>
    obtain ⟨hpos, hlt, hfree⟩ := ha
    -- The new block is not the one that the slot held.
    have hm : Sound { m with
        blocks := fun a => if a = page then some (Value.createValue vLen vAlign).header else m.blocks a } := by
      cases h with
      | link h => exact .link h
      | empty h => exact .empty h
      | word h => exact .word h
      | @heap old h hpos hlt hb =>
        refine .heap h hpos hlt ?_
        have hne : old ≠ page := fun he => hb (he ▸ hfree)
        simpa [hne] using hb
    obtain ⟨m', hrun, hw, hblocks⟩ := hm.setValue (tagged page) keepOld
    refine ⟨m', hrun,
      iff_of_true
      ⟨by rw [hw, getValue_tagged hpos hlt], by rw [hw, getNextLayer_of_not_child (tagged_not_child hlt)]⟩ trivial,
      fun _ => .heap hw hpos hlt ?_⟩
    rcases hblocks page with hb | ⟨heq, -⟩
    · rw [hb]
      simp
    · cases h with
      | link h => exact absurd (h.symm.trans (heq ▸ tagged_not_child hlt)) (by simp)
      | empty h => exact absurd (heq.symm.trans h) (tagged_ne_flag hpos hlt)
      | word h =>
        have h62 : (tagged page).getLsbD 62 = false := Lib.getLsbD_of_toNat_lt (heq ▸ h) le_rfl
        rw [tagged, kValPtrFlag_eq, Lib.getLsbD_or_twoPow (by decide)] at h62
        simp at h62
      | @heap old h _ hlt' hb =>
        have : page = old := by rw [← removePtrFlag_tagged hlt, ← removePtrFlag_tagged hlt', ← heq, ← h]
        exact absurd hfree (this ▸ hb)
  | link n =>
    refine ⟨_, rfl, iff_of_true ⟨getNextLayer_link ha, getValue_link n⟩ trivial, fun _ => .link ?_⟩
    rw [setNextLayer, kChildFlag_eq, Lib.getLsbD_or_twoPow (by decide)]
    simp
  | init =>
    exact ⟨_, rfl, iff_of_true ⟨(by decide : getNextLayer kValPtrFlag = 0), (by decide : getValue kValPtrFlag = 0)⟩
      trivial, fun _ => .empty rfl⟩

theorem Sound.faithful_iff {ps : List Put} (h : Sound m) (ha : Admissible m ps) : Faithful m ps ↔ ∀ p ∈ ps, p.Untagged := by
  induction ps generalizing m with
  | nil => exact iff_of_true trivial fun _ h => absurd h List.not_mem_nil
  | cons p ps ih =>
    obtain ⟨m', hrun, hdec, hsound⟩ := h.run ha.1
    rw [List.forall_mem_cons]
    constructor
    · rintro ⟨m'', hrun', hd, hf⟩
      obtain rfl : m' = m'' := Option.some.inj (hrun.symm.trans hrun')
      have hu := hdec.mp hd
      exact ⟨hu, (ih (hsound hu) (ha.2 m' hrun)).mp hf⟩
    · rintro ⟨hu, hall⟩
      exact ⟨m', hrun, hdec.mpr hu, (ih (hsound hu) (ha.2 m' hrun)).mpr hall⟩

/-- A slot is read as what was stored last, all along a sequence of stores, if and only if no inline word has one of
    its two top bits set. -/
theorem slot_decodes_iff {blocks : Blocks} {ps : List Put} (ha : Admissible ⟨kValPtrFlag, blocks⟩ ps) :
    Faithful ⟨kValPtrFlag, blocks⟩ ps ↔ ∀ p ∈ ps, p.Untagged :=
  Sound.faithful_iff (.empty rfl) ha

theorem slot_decodes_iff_some : Faithful ⟨kValPtrFlag, fun _ => none⟩
    [.word 7 false, .heap 4096 8 8 true, .link 8192, .init] := by
  have ha : Admissible ⟨kValPtrFlag, fun _ => none⟩ [.word 7 false, .heap 4096 8 8 true, .link 8192, .init] := by
    refine ⟨trivial,
      fun m hm =>
      ⟨⟨by decide, by decide, ?_⟩,
      fun _ _ => ⟨(by decide : (8192 : Size).toNat < 2 ^ 62), fun _ _ => ⟨trivial, fun _ _ => trivial⟩⟩⟩⟩
    obtain rfl := Option.some.inj hm
    rfl
  exact (slot_decodes_iff ha).mpr (by simp [Put.Untagged])

/-- The inline word 2^63 + 4096 is read as a link to the node at 4096. -/
theorem tagged_word_is_link : Admissible ⟨kValPtrFlag, fun _ => none⟩ [.word 0x8000000000001000 false] ∧
    getNextLayer 0x8000000000001000 = 4096 ∧ ¬ Faithful ⟨kValPtrFlag, fun _ => none⟩ [.word 0x8000000000001000 false] := by
  refine ⟨⟨trivial, fun _ _ => trivial⟩, by decide, ?_⟩
  rintro ⟨m', hrun, hdec, -⟩
  obtain rfl := Option.some.inj hrun
  exact absurd hdec.1 (by decide)

end

end Slot

/-- A slot reads a word with clear tag bits as this inline value. -/
theorem LinkOrValue.ofWord_of_clear {w : Size} (h : w.toNat < 2 ^ 62) :
    ofWord w = .value (.word (Fin.ofNat (2 ^ 62) w.toNat)) := by
  have hbit : w.getLsbD 63 = false := Lib.getLsbD_of_toNat_lt h (by decide)
  have hptr : Value.isValuePtr w = false := by
    rw [Value.isValuePtr, Value.kValPtrFlag_eq, (Lib.and_twoPow_eq_zero (by decide)).mpr
      (Lib.getLsbD_of_toNat_lt h (by decide))]
    rfl
  have hvalue : Slot.getValue w = w := by rw [Slot.getValue_of_not_child hbit, if_neg (Slot.lt_ne_flag h)]
  rw [ofWord, Slot.getNextLayer_of_not_child hbit, hvalue, if_neg (fun h => h rfl), if_neg (fun h => h rfl), hptr]
  rfl

end Yakushima
