import Yakushima.Theorems.Structure
import Yakushima.Spec.Range

/-! # The order of keys

The tests of `scan` against the ends of the interval compare bytes of slices and of full keys. They decide the
order of the keys, also for all keys of a layer at once. -/

namespace Yakushima
open M Permutation

theorem append_lt_append {a b : Key} (c : Key) : c ++ a < c ++ b ↔ a < b := by
  induction c with
  | nil => rfl
  | cons x c ih => simp [ih]

theorem lt_append {a c : Key} (h : c ≠ []) : a < a ++ c := by
  conv_lhs => rw [← List.append_nil a]
  rw [append_lt_append]
  cases c with
  | nil => exact absurd rfl h
  | cons x c => exact List.nil_lt_cons x c

theorem memcmp_lt {a b : List UInt8} {n : Nat} (h : memcmp a b n = .lt) (c d : List UInt8) : a ++ c < b ++ d := by
  induction n generalizing a b with
  | zero => simp [memcmp] at h
  | succ n ih =>
    cases a with
    | nil => simp [memcmp] at h
    | cons x a =>
      cases b with
      | nil => simp [memcmp] at h
      | cons y b =>
        rw [List.cons_append, List.cons_append, List.cons_lt_cons_iff]
        simp only [memcmp] at h
        cases hc : compare x.toNat y.toNat with
        | lt => exact Or.inl (UInt8.lt_iff_toNat_lt.mpr (Nat.compare_eq_lt.mp hc))
        | eq =>
          rw [hc] at h
          exact Or.inr ⟨UInt8.toNat_inj.mp (Nat.compare_eq_eq.mp hc), ih h⟩
        | gt => simp [hc] at h

theorem memcmp_swap (a b : List UInt8) (n : Nat) : memcmp b a n = (memcmp a b n).swap := by
  induction n generalizing a b with
  | zero => simp [memcmp]
  | succ n ih =>
    cases a with
    | nil => cases b <;> simp [memcmp]
    | cons x a =>
      cases b with
      | nil => simp [memcmp]
      | cons y b =>
        simp only [memcmp, ih a b, ← Nat.compare_swap x.toNat y.toNat]
        cases compare x.toNat y.toNat <;> rfl

theorem memcmp_gt {a b : List UInt8} {n : Nat} (h : memcmp a b n = .gt) (c d : List UInt8) : b ++ d < a ++ c :=
  memcmp_lt (by rw [memcmp_swap, h]; rfl) d c

theorem memcmp_eq {a b : List UInt8} {n : Nat} (h : memcmp a b n = .eq) (ha : n ≤ a.length) (hb : n ≤ b.length) :
    a.take n = b.take n := by
  rw [memcmp_eq_compare ha hb, Nat.compare_eq_eq] at h
  exact beNat_inj (by simp; omega) h

theorem memcmp_take {a b : List UInt8} {n i j : Nat} (hi : n ≤ i) (hj : n ≤ j) :
    memcmp (a.take i) (b.take j) n = memcmp a b n := by
  induction n generalizing a b i j with
  | zero => simp [memcmp]
  | succ n ih =>
    obtain ⟨i, rfl⟩ : ∃ m, i = m + 1 := ⟨i - 1, by omega⟩
    obtain ⟨j, rfl⟩ : ∃ m, j = m + 1 := ⟨j - 1, by omega⟩
    cases a with
    | nil => simp [memcmp]
    | cons x a =>
      cases b with
      | nil => simp [memcmp]
      | cons y b => simp only [List.take_succ_cons, memcmp, ih (Nat.le_of_succ_le_succ hi) (Nat.le_of_succ_le_succ hj)]

/-! ### Keys inside a layer -/

namespace KeyTuple

/-- The bytes that an entry adds to the prefix of its layer. -/
def bytes (k : KeyTuple) : Key := k.slice.bytes.take k.length

theorem bytes_of_nine {k : KeyTuple} (h : k.length = 9) : k.bytes = k.slice.bytes := by
  rw [bytes, h, List.take_of_length_le (by rw [k.slice.size]; omega)]

/-- The order of the codes is the order of the keys, whatever follows the slices of long keys. -/
theorem bytes_lt {a b : KeyTuple} (ha : a.Encoded) (hb : b.Encoded) (h : a.code < b.code) {x y : Key}
    (hx : a.length ≤ 8 → x = []) (hy : b.length = 9 → y ≠ []) : a.bytes ++ x < b.bytes ++ y := by
  obtain ⟨-, heq, hgt⟩ := prefix_compare hb rfl
  rw [norm_of_encoded ha] at heq hgt
  set c := min (min a.length b.length) 8 with hc
  have hca : c ≤ a.length := by omega
  have hcb : c ≤ b.length := by omega
  cases hm : a.slice.memcmp b.slice c with
  | lt =>
    rw [KeySlice.memcmp, ← memcmp_take hca hcb] at hm
    exact memcmp_lt hm x y
  | eq =>
    have hlt := (heq hm).mp h
    have ha9 := hb.length_le
    have hcl : c = a.length := by omega
    have htake := memcmp_eq hm (by rw [a.slice.size]; omega) (by rw [b.slice.size]; omega)
    rw [hcl] at htake
    have hsplit : b.bytes ++ y = a.bytes ++ (b.bytes.drop a.length ++ y) := by
      have hpre : a.slice.bytes.take a.length = (b.slice.bytes.take b.length).take a.length := by
        rw [htake, List.take_take, Nat.min_eq_left (by omega)]
      rw [bytes, bytes, hpre, ← List.append_assoc, List.take_append_drop]
    rw [hx (by omega), List.append_nil, hsplit]
    refine lt_append fun hnil => ?_
    rw [List.append_eq_nil_iff] at hnil
    by_cases hb9 : b.length = 9
    · exact hy hb9 hnil.2
    · have hlen := congrArg List.length hnil.1
      simp only [List.length_drop, bytes, List.length_take, b.slice.size, List.length_nil] at hlen
      omega
  | gt => exact absurd (hgt hm) (by omega)

/-- A key is the bytes of its entry and, if it is long, what follows them. -/
theorem ofKey_bytes_append_drop (key : Key) : (ofKey key).bytes ++ key.drop 8 = key := by
  rcases Nat.lt_or_ge 8 key.length with h | h
  · rw [bytes_of_nine (keyLength_of_gt h), ofKey, Yakushima.ofKey_bytes (by omega), List.take_append_drop]
  · rw [bytes, ofKey, keyLength_of_le h, ofKey_take h, List.drop_of_length_le h, List.append_nil]

theorem lt_key {a : KeyTuple} (ha : a.Encoded) {key : Key} (h : a.code < (ofKey key).code) {x : Key}
    (hx : a.length ≤ 8 → x = []) :
    a.bytes ++ x < key := by
  rw [← ofKey_bytes_append_drop key]
  refine bytes_lt ha (ofKey_encoded key) h hx fun h9 hnil => ?_
  have hlen : 8 < key.length := by
    by_contra hle
    simp only [ofKey, keyLength_of_le (Nat.not_lt.mp hle)] at h9
    omega
  have := congrArg List.length hnil
  simp only [List.length_drop, List.length_nil] at this
  omega

theorem key_lt {a : KeyTuple} (ha : a.Encoded) {key : Key} (h : (ofKey key).code < a.code) {x : Key}
    (hx : a.length = 9 → x ≠ []) :
    key < a.bytes ++ x := by
  conv_lhs => rw [← ofKey_bytes_append_drop key]
  refine bytes_lt (ofKey_encoded key) ha h (fun h8 => ?_) hx
  have hle : key.length ≤ 8 := by
    by_contra hgt
    simp only [ofKey, keyLength_of_gt (Nat.not_le.mp hgt)] at h8
    omega
  exact List.drop_of_length_le hle

/-! ### The four comparisons -/

/-- The order inside a border: `memcmp` of the eight bytes, then the length. -/
def Less (a b : KeyTuple) : Prop :=
  a.slice.memcmp b.slice sliceSize = .lt ∨ (a.slice.memcmp b.slice sliceSize = .eq ∧ a.length < b.length)

theorem less_iff {a b : KeyTuple} (ha : a.length ≤ 9) (hb : b.length ≤ 9) : a.Less b ↔ a.code < b.code := by
  unfold Less code
  rw [KeySlice.memcmp_eight, Nat.compare_eq_lt, Nat.compare_eq_eq]
  omega

theorem ofKey_length_le (a : Key) : (ofKey a).length ≤ 9 := (ofKey_encoded a).length_le

/-- The encoding decides the order of the keys. -/
theorem lt_of_less {a b : Key} (h : (ofKey a).Less (ofKey b)) : a < b := by
  rw [less_iff (ofKey_length_le a) (ofKey_length_le b)] at h
  have hx : (ofKey a).length ≤ 8 → a.drop 8 = [] := by
    intro h8
    refine List.drop_of_length_le ?_
    by_contra hgt
    simp only [ofKey, keyLength_of_gt (Nat.not_le.mp hgt)] at h8
    omega
  have := lt_key (ofKey_encoded a) h hx
  rwa [ofKey_bytes_append_drop] at this

/-- Two keys have one encoding only if they are equal or go on in the same lower layer. -/
theorem ofKey_eq_iff {a b : Key} : ofKey a = ofKey b ↔ a = b ∨ 8 < a.length ∧ 8 < b.length ∧ a.take 8 = b.take 8 := by
  constructor
  · intro h
    have hlen : keyLength a = keyLength b := congrArg KeyTuple.length h
    have hslice : KeySlice.ofKey a = KeySlice.ofKey b := congrArg KeyTuple.slice h
    rcases Nat.lt_or_ge 8 a.length with ha | ha <;> rcases Nat.lt_or_ge 8 b.length with hb | hb
    · refine Or.inr ⟨ha, hb, ?_⟩
      rw [← Yakushima.ofKey_bytes ha.le, ← Yakushima.ofKey_bytes hb.le, hslice]
    · rw [keyLength_of_gt ha, keyLength_of_le hb] at hlen
      omega
    · rw [keyLength_of_le ha, keyLength_of_gt hb] at hlen
      omega
    · rw [keyLength_of_le ha, keyLength_of_le hb] at hlen
      left
      rw [← ofKey_take ha, ← ofKey_take hb, hslice, hlen]
  · rintro (rfl | ⟨ha, hb, htake⟩)
    · rfl
    · have hslice : KeySlice.ofKey a = KeySlice.ofKey b := by
        unfold KeySlice.ofKey
        simp only [List.take_append_of_le_length ha.le, List.take_append_of_le_length hb.le, htake]
      rw [ofKey, ofKey, hslice, keyLength_of_gt ha, keyLength_of_gt hb]

theorem less_trichotomy (a b : Key) : (ofKey a).Less (ofKey b) ∨ ofKey a = ofKey b ∨ (ofKey b).Less (ofKey a) := by
  have ha := ofKey_length_le a
  have hb := ofKey_length_le b
  rw [less_iff ha hb, less_iff hb ha]
  rcases Nat.lt_trichotomy (ofKey a).code (ofKey b).code with h | h | h
  · exact Or.inl h
  · exact Or.inr (Or.inl (code_inj ha hb h))
  · exact Or.inr (Or.inr h)

open Classical in
/-- The comparison of the border lookups, which `compute_rank_if_insert` makes too, the go-left test of
    `get_child_of` and the test of `interior_node::insert` and `interior_split` decide one order. It is a strict
    total order on the encodings, and the order of the keys unless both go on below one slice. -/
theorem key_comparisons_agree : (∀ a b : Key,
      probe (ofKey a).slice (ofKey a).length (ofKey b).slice (ofKey b).length =
        (if (ofKey a).Less (ofKey b) then .miss else if ofKey a = ofKey b then .hit else .next) ∧
      (goLeft (ofKey a).slice (ofKey a).length (ofKey b).slice (ofKey b).length = true ↔ (ofKey a).Less (ofKey b)) ∧
      (pivotLess (ofKey a).slice (ofKey a).length (ofKey b).slice (ofKey b).length = true ↔ (ofKey a).Less (ofKey b)) ∧
      (8 < a.length → 8 < b.length → a.take 8 = b.take 8 → ofKey a = ofKey b) ∧
      (¬ (8 < a.length ∧ 8 < b.length ∧ a.take 8 = b.take 8) → ((ofKey a).Less (ofKey b) ↔ a < b))) ∧
    (∀ a : Key, ¬ (ofKey a).Less (ofKey a)) ∧
    (∀ a b c : Key, (ofKey a).Less (ofKey b) → (ofKey b).Less (ofKey c) → (ofKey a).Less (ofKey c)) ∧
    (∀ a b : Key, (ofKey a).Less (ofKey b) ∨ ofKey a = ofKey b ∨ (ofKey b).Less (ofKey a)) ∧
    ∀ (n : NodeId) (slice : KeySlice) (length i index : Nat) (rest : List Nat), computeRankLoop n slice length i
      (index :: rest) = (do
      let target ← load n (.keySlice index)
      let targetLength ← load n (.keyLength index)
      match probe slice length target targetLength with
      | .hit => do
        logError .computeRankUnexpectedPath
        pure 0
      | .miss => pure i
      | .next => computeRankLoop n slice length (i + 1) rest) := by
  have hless : ∀ a b : Key, (ofKey a).Less (ofKey b) ↔ (ofKey a).code < (ofKey b).code := fun a b =>
    less_iff (ofKey_length_le a) (ofKey_length_le b)
  refine ⟨fun a b => ⟨?_, ?_, ?_, ?_, ?_⟩, fun a => ?_, fun a b c => ?_, less_trichotomy, computeRankLoop_probe⟩
  · rw [probe_eq (ofKey_encoded a) (ofKey_encoded b), hless]
    rcases Nat.lt_trichotomy (ofKey a).code (ofKey b).code with h | h | h
    · rw [Nat.compare_eq_lt.mpr h, if_pos h]
    · rw [Nat.compare_eq_eq.mpr h, if_neg (by omega), if_pos (code_inj (ofKey_length_le a) (ofKey_length_le b) h)]
    · rw [Nat.compare_eq_gt.mpr h, if_neg (by omega), if_neg fun he => by rw [he] at h; omega]
  · rw [goLeft_iff _ _ (ofKey_encoded b), norm_of_encoded (ofKey_encoded a), hless]
  · rw [pivotLess_iff (ofKey_encoded a) (ofKey_encoded b), hless]
  · exact fun ha hb htake => ofKey_eq_iff.mpr (Or.inr ⟨ha, hb, htake⟩)
  · intro hne
    refine ⟨lt_of_less, fun hlt => ?_⟩
    rcases less_trichotomy a b with h | h | h
    · exact h
    · rcases ofKey_eq_iff.mp h with rfl | hsame
      · exact absurd hlt (List.lt_irrefl _)
      · exact absurd hsame hne
    · exact absurd (List.lt_trans hlt (lt_of_less h)) (List.lt_irrefl _)
  · rw [hless]
    omega
  · rw [hless, hless, hless]
    omega

end KeyTuple

/-! ### The tests of `scan` -/

section
variable {args args' : ScanArgs} {k : KeyTuple} {p x r : Key} {e : ScanEndpoint}

theorem not_inRight_of_lt (hinf : args.rEnd ≠ .inf) (h : args.rKey < x) : ¬ args.InRight x := by
  intro hin
  unfold ScanArgs.InRight at hin
  cases hr : args.rEnd with
  | inf => exact hinf hr
  | inclusive =>
    rw [hr] at hin
    exact hin h
  | exclusive =>
    rw [hr] at hin
    exact List.lt_irrefl _ (List.lt_trans h hin)

theorem inRight_of_lt (h : x < args.rKey) : args.InRight x := by
  unfold ScanArgs.InRight
  cases args.rEnd with
  | inf => trivial
  | inclusive => exact List.le_of_lt h
  | exclusive => exact h

theorem not_inLeft_of_lt (hinf : args.lEnd ≠ .inf) (h : x < args.lKey) : ¬ args.InLeft x := by
  intro hin
  unfold ScanArgs.InLeft at hin
  cases hl : args.lEnd with
  | inf => exact hinf hl
  | inclusive =>
    rw [hl] at hin
    exact hin h
  | exclusive =>
    rw [hl] at hin
    exact List.lt_irrefl _ (List.lt_trans h hin)

theorem inLeft_of_lt (h : args.lKey < x) : args.InLeft x := by
  unfold ScanArgs.InLeft
  cases args.lEnd with
  | inf => trivial
  | inclusive => exact List.le_of_lt h
  | exclusive => exact h

/-- Two strings that agree as far as the shorter one goes. -/
theorem prefix_of_memcmp {a b : Key} (h : memcmp a b (min a.length b.length) = .eq) (hl : a.length ≤ b.length) :
    b = a ++ b.drop a.length := by
  have ht := memcmp_eq h (by omega) (by omega)
  rw [Nat.min_eq_left hl, List.take_length] at ht
  conv_lhs => rw [← List.take_append_drop a.length b, ← ht]

theorem withinRight_iff : withinRight args x = true ↔ args.InRight x := by
  unfold withinRight
  by_cases hinf : args.rEnd = .inf
  · simp [hinf, ScanArgs.InRight]
  · rw [if_neg hinf]
    cases hm : memcmp args.rKey x (min args.rKey.length x.length) with
    | lt =>
      have hlt := memcmp_lt hm [] []
      simp only [List.append_nil] at hlt
      simpa using not_inRight_of_lt hinf hlt
    | gt =>
      have hlt := memcmp_gt hm [] []
      simp only [List.append_nil] at hlt
      simpa using inRight_of_lt hlt
    | eq =>
      simp only [decide_eq_true_eq]
      rcases Nat.lt_trichotomy x.length args.rKey.length with hl | hl | hl
      · have hpre := prefix_of_memcmp (a := x) (b := args.rKey) (by rw [memcmp_swap, Nat.min_comm, hm]; rfl)
          (Nat.le_of_lt hl)
        have hlt : x < args.rKey := by
          rw [hpre]
          refine lt_append fun hnil => ?_
          have := congrArg List.length hnil
          simp only [List.length_drop, List.length_nil] at this
          omega
        exact iff_of_true (Or.inl hl) (inRight_of_lt hlt)
      · have hpre := prefix_of_memcmp hm (Nat.le_of_eq hl.symm)
        rw [List.drop_of_length_le (by omega), List.append_nil] at hpre
        unfold ScanArgs.InRight
        cases hr : args.rEnd with
        | inf => exact absurd hr hinf
        | inclusive => exact iff_of_true (Or.inr ⟨hl.symm, rfl⟩) (by rw [hpre]; exact List.le_refl _)
        | exclusive => exact iff_of_false (by simp; omega) (by rw [hpre]; exact List.lt_irrefl _)
      · have hpre := prefix_of_memcmp hm (Nat.le_of_lt hl)
        have hlt : args.rKey < x := by
          rw [hpre]
          refine lt_append fun hnil => ?_
          have := congrArg List.length hnil
          simp only [List.length_drop, List.length_nil] at this
          omega
        exact iff_of_false (by omega) (not_inRight_of_lt hinf hlt)

/-- The layer behind a link that is right of the interval. -/
theorem not_inRight_of_rightArg (h : rightArg args p = none) (hx : x ≠ []) : ¬ args.InRight (p ++ x) := by
  unfold rightArg at h
  by_cases hinf : args.rEnd = .inf
  · simp [hinf] at h
  · rw [if_neg hinf] at h
    cases hm : memcmp args.rKey p (min args.rKey.length p.length) with
    | lt =>
      have hlt := memcmp_lt hm [] x
      rw [List.append_nil] at hlt
      exact not_inRight_of_lt hinf hlt
    | gt => simp [hm] at h
    | eq =>
      simp only [hm, ite_eq_left_iff, reduceCtorEq, imp_false, Decidable.not_not] at h
      have hpre := prefix_of_memcmp hm h
      refine not_inRight_of_lt hinf ?_
      rw [hpre, List.append_assoc]
      exact lt_append (by simp [hx])

/-- The right end handed to the layer behind a link. -/
theorem inRight_of_rightArg (h : rightArg args p = some (r, e)) (hr : args'.rKey = r) (he : args'.rEnd = e) :
    args'.InRight (p ++ x) ↔ args.InRight (p ++ x) := by
  subst hr he
  unfold rightArg at h
  by_cases hinf : args.rEnd = .inf
  · rw [if_pos hinf, Option.some.injEq, Prod.mk.injEq] at h
    simp [ScanArgs.InRight, hinf, ← h.2]
  · rw [if_neg hinf] at h
    cases hm : memcmp args.rKey p (min args.rKey.length p.length) with
    | lt => simp [hm] at h
    | gt =>
      simp only [hm, Option.some.injEq, Prod.mk.injEq] at h
      have hlt := memcmp_gt hm [] x
      rw [List.append_nil] at hlt
      refine iff_of_true ?_ (inRight_of_lt hlt)
      simp [ScanArgs.InRight, ← h.2]
    | eq =>
      simp only [hm] at h
      split at h
      · simp at h
      · simp only [Option.some.injEq, Prod.mk.injEq] at h
        simp only [ScanArgs.InRight, h.1, h.2]

theorem belowLeft_iff (hk : k.Encoded) (hlen : k.length ≤ 8) : belowLeft args k.slice k.length = true ↔
    ¬ args.InLeft k.bytes := by
  unfold belowLeft
  by_cases hinf : args.lEnd = .inf
  · simp [hinf, ScanArgs.InLeft]
  · have hgt : (KeyTuple.ofKey args.lKey).code < k.code → args.InLeft k.bytes := fun h => by
      have := KeyTuple.key_lt hk h (x := []) (by omega)
      rw [List.append_nil] at this
      exact inLeft_of_lt this
    have hlt : k.code < (KeyTuple.ofKey args.lKey).code → ¬ args.InLeft k.bytes := fun h => by
      have := KeyTuple.lt_key hk h (x := []) fun _ => rfl
      rw [List.append_nil] at this
      exact not_inLeft_of_lt hinf this
    have hl9 := (KeyTuple.ofKey_encoded args.lKey).length_le
    have hol : (KeyTuple.ofKey args.lKey).length = keyLength args.lKey := rfl
    rw [if_neg hinf, KeySlice.memcmp_eight]
    simp only [KeyTuple.code, KeyTuple.ofKey] at hgt hlt
    cases hm : compare (KeySlice.ofKey args.lKey).num k.slice.num with
    | lt =>
      rw [Nat.compare_eq_lt] at hm
      have := hgt (by omega)
      simpa using this
    | gt =>
      rw [Nat.compare_eq_gt] at hm
      have := hlt (by omega)
      simpa using this
    | eq =>
      rw [Nat.compare_eq_eq] at hm
      simp only [decide_eq_true_eq]
      have hcases : keyLength args.lKey = args.lKey.length ∨ keyLength args.lKey = 9 ∧ 8 < args.lKey.length := by
        rcases Nat.lt_or_ge 8 args.lKey.length with h8 | h8
        · exact Or.inr ⟨keyLength_of_gt h8, h8⟩
        · exact Or.inl (keyLength_of_le h8)
      rcases Nat.lt_trichotomy k.length (keyLength args.lKey) with hl | hl | hl
      · exact iff_of_true (Or.inl (by omega)) (hlt (by omega))
      · have hkey : k.bytes = args.lKey := by
          have hke : k = KeyTuple.ofKey args.lKey :=
            KeyTuple.code_inj (by omega) hl9 (by simp only [KeyTuple.code, KeyTuple.ofKey, hm, hl])
          have hap := KeyTuple.ofKey_bytes_append_drop args.lKey
          rw [List.drop_of_length_le (by omega), List.append_nil] at hap
          rw [hke, hap]
        unfold ScanArgs.InLeft
        cases hle : args.lEnd with
        | inf => exact absurd hle hinf
        | inclusive => exact iff_of_false (by simp; omega) (by simp only [not_not, hkey]; exact List.le_refl _)
        | exclusive => exact iff_of_true (Or.inr ⟨by omega, rfl⟩) (by rw [hkey]; exact List.lt_irrefl _)
      · refine iff_of_false (by omega) (not_not.mpr (hgt (by omega)))

/-- The layer behind a link that is left of the interval. -/
theorem not_inLeft_of_leftArg (hk : k.Encoded) (h9 : k.length = 9) (h : leftArg args k.slice = none) :
    ¬ args.InLeft (k.bytes ++ x) := by
  unfold leftArg at h
  by_cases hinf : args.lEnd = .inf
  · simp [hinf] at h
  · rw [if_neg hinf, KeySlice.memcmp_eight] at h
    cases hm : compare (KeySlice.ofKey args.lKey).num k.slice.num with
    | lt => simp [hm] at h
    | eq => simp [hm] at h
    | gt =>
      rw [Nat.compare_eq_gt] at hm
      exact not_inLeft_of_lt hinf (KeyTuple.lt_key hk (by simp only [KeyTuple.code, KeyTuple.ofKey]; omega) (by omega))

/-- The left end handed to the layer behind a link. -/
theorem inLeft_of_leftArg (hk : k.Encoded) (h9 : k.length = 9) (h : leftArg args k.slice = some (r, e))
    (hr : args'.lKey = r) (he : args'.lEnd = e) (hx : x ≠ []) : args'.InLeft x ↔ args.InLeft (k.bytes ++ x) := by
  subst hr he
  unfold leftArg at h
  by_cases hinf : args.lEnd = .inf
  · rw [if_pos hinf, Option.some.injEq, Prod.mk.injEq] at h
    simp [ScanArgs.InLeft, hinf, ← h.2]
  · have hgt : (KeyTuple.ofKey args.lKey).code < k.code → args.InLeft (k.bytes ++ x) := fun h =>
      inLeft_of_lt (KeyTuple.key_lt hk h fun _ => hx)
    have hl9 := (KeyTuple.ofKey_encoded args.lKey).length_le
    rw [if_neg hinf, KeySlice.memcmp_eight] at h
    cases hm : compare (KeySlice.ofKey args.lKey).num k.slice.num with
    | gt => simp [hm] at h
    | lt =>
      simp only [hm, Option.some.injEq, Prod.mk.injEq] at h
      rw [Nat.compare_eq_lt] at hm
      refine iff_of_true ?_ (hgt ?_)
      · simp [ScanArgs.InLeft, ← h.2]
      · simp only [KeyTuple.code, KeyTuple.ofKey] at hl9 ⊢
        omega
    | eq =>
      simp only [hm, Option.some.injEq, Prod.mk.injEq] at h
      rw [Nat.compare_eq_eq] at hm
      obtain ⟨hkey, hend⟩ := h
      by_cases h8 : 8 < args.lKey.length
      · rw [if_pos (by exact h8)] at hkey
        have hsplit : args.lKey = k.bytes ++ args'.lKey := by
          have := KeyTuple.ofKey_bytes_append_drop args.lKey
          have hsl : KeySlice.ofKey args.lKey = k.slice := KeySlice.num_inj hm
          rw [KeyTuple.bytes_of_nine (keyLength_of_gt h8), KeyTuple.ofKey, hsl, ← KeyTuple.bytes_of_nine h9] at this
          rw [← hkey]
          exact this.symm
        unfold ScanArgs.InLeft
        rw [← hend, hsplit]
        cases args.lEnd with
        | inf => rfl
        | inclusive => exact not_congr (append_lt_append k.bytes).symm
        | exclusive => exact (append_lt_append k.bytes).symm
      · rw [if_neg (by exact h8)] at hkey
        refine iff_of_true ?_ (hgt ?_)
        · refine inLeft_of_lt ?_
          rw [← hkey]
          exact lt_append (a := []) hx
        · simp only [KeyTuple.code, KeyTuple.ofKey, keyLength_of_le (Nat.not_lt.mp h8), hm, h9]
          omega

end

end Yakushima
