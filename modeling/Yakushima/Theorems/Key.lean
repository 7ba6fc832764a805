import Yakushima.Lib.Radix
import Yakushima.Model.Scan

/-! # Keys of a layer and their order

Inside a layer a key is a slice and a length. Every comparison of the source decides one order, that of
a number made of the two: the slice read as a big-endian number, then the length. -/

namespace Yakushima

/-! ### Bytes as numbers -/

/-- The big-endian number of a string of bytes. -/
def beNat : List UInt8 → Nat
  | [] => 0
  | b :: bs => b.toNat * 256 ^ bs.length + beNat bs

theorem beNat_lt (bs : List UInt8) : beNat bs < 256 ^ bs.length := by
  induction bs with
  | nil => simp [beNat]
  | cons b bs ih =>
    have h := Lib.radix_lt_of_lt (a := 0) ih b.toNat_lt
    rw [Nat.add_zero] at h
    rwa [beNat, List.length_cons, Nat.pow_succ']

theorem beNat_append (a b : List UInt8) : beNat (a ++ b) = beNat a * 256 ^ b.length + beNat b := by
  induction a with
  | nil => simp [beNat]
  | cons x a ih =>
    simp only [List.cons_append, beNat, ih, List.length_append, Nat.pow_add]
    ring

theorem beNat_replicate_zero (n : Nat) : beNat (List.replicate n 0) = 0 := by
  induction n with
  | zero => rfl
  | succ n ih => simp [List.replicate_succ, beNat, ih]

theorem beNat_inj : ∀ {a b : List UInt8}, a.length = b.length → beNat a = beNat b → a = b
  | [], [], _, _ => rfl
  | x :: a, y :: b, hl, h => by
    simp only [List.length_cons, Nat.add_right_cancel_iff] at hl
    simp only [beNat, hl] at h
    obtain ⟨hx, hab⟩ := Lib.radix_inj (hl ▸ beNat_lt a) (beNat_lt b) h
    rw [UInt8.toNat_inj.mp hx, beNat_inj hl hab]
  | [], _ :: _, hl, _ => by simp at hl
  | _ :: _, [], hl, _ => by simp at hl

/-- `memcmp` compares the numbers of the bytes it looks at. -/
theorem memcmp_eq_compare : ∀ {a b : List UInt8} {n : Nat}, n ≤ a.length → n ≤ b.length →
    memcmp a b n = compare (beNat (a.take n)) (beNat (b.take n))
  | _, _, 0, _, _ => by simp [memcmp, beNat]
  | x :: a, y :: b, n + 1, ha, hb => by
    simp only [List.length_cons, Nat.add_le_add_iff_right] at ha hb
    have la : (a.take n).length = n := List.length_take_of_le ha
    have lb : (b.take n).length = n := List.length_take_of_le hb
    have h1 := beNat_lt (a.take n)
    have h2 := beNat_lt (b.take n)
    rw [la] at h1
    rw [lb] at h2
    simp only [memcmp, List.take_succ_cons, beNat, la, lb]
    rw [Lib.radix_compare h1 h2, memcmp_eq_compare ha hb]
    cases compare x.toNat y.toNat <;> rfl
  | [], _, n + 1, ha, _ => by simp at ha
  | _ :: _, [], n + 1, _, hb => by simp at hb

/-! ### Slices -/

namespace KeySlice

/-- The slice as a number; its order is that of `memcmp` on all eight bytes. -/
def num (s : KeySlice) : Nat := beNat s.bytes

theorem num_inj {a b : KeySlice} (h : a.num = b.num) : a = b := by
  have := beNat_inj (a.size.trans b.size.symm) h
  cases a
  cases b
  simp_all

theorem memcmp_eight (a b : KeySlice) : a.memcmp b sliceSize = compare a.num b.num := by
  have h := memcmp_eq_compare (n := 8) (a := a.bytes) (b := b.bytes) a.size.ge b.size.ge
  rwa [List.take_of_length_le a.size.le, List.take_of_length_le b.size.le] at h

/-- A slice as the number of its first `n` bytes and that of the others. -/
theorem num_split (s : KeySlice) (n : Nat) :
    s.num = beNat (s.bytes.take n) * 256 ^ (8 - n) + beNat (s.bytes.drop n) ∧
      beNat (s.bytes.drop n) < 256 ^ (8 - n) := by
  have hl : (s.bytes.drop n).length = 8 - n := by simp [s.size]
  refine ⟨?_, hl ▸ beNat_lt _⟩
  conv_lhs => rw [num, ← List.take_append_drop n s.bytes, beNat_append, hl]

theorem memcmp_le (a b : KeySlice) {n : Nat} (hn : n ≤ 8) :
    a.memcmp b n = compare (beNat (a.bytes.take n)) (beNat (b.bytes.take n)) :=
  memcmp_eq_compare (a.size ▸ hn) (b.size ▸ hn)

end KeySlice

theorem keyLength_of_le {key : Key} (h : key.length ≤ 8) : keyLength key = key.length :=
  if_neg (by simpa [sliceSize] using h)

theorem keyLength_of_gt {key : Key} (h : 8 < key.length) : keyLength key = 9 := if_pos h

/-- `base_node::key_tuple`: a key inside a layer. -/
structure KeyTuple where
  slice : KeySlice
  length : Nat
deriving DecidableEq, Repr

namespace KeyTuple

/-- The number by whose order a layer is sorted. -/
def code (k : KeyTuple) : Nat := k.slice.num * 16 + k.length

/-- A key as `put` encodes it: the length is at most 9 and the bytes after it are zero. -/
structure Encoded (k : KeyTuple) : Prop where
  length_le : k.length ≤ 9
  padded : beNat (k.slice.bytes.drop k.length) = 0

/-- The encoding of a key (`interface_put.h`, "prepare key_slice"). -/
def ofKey (k : Key) : KeyTuple := ⟨.ofKey k, keyLength k⟩

theorem code_inj {a b : KeyTuple} (ha : a.length ≤ 9) (hb : b.length ≤ 9) (h : a.code = b.code) : a = b := by
  unfold code at h
  have hs : a.slice = b.slice := KeySlice.num_inj (by omega)
  have hl : a.length = b.length := by omega
  cases a
  cases b
  simp_all

/-- What a comparison sees of a slice and a length: the bytes up to the length, and at most 9. -/
def norm (slice : KeySlice) (length : Nat) : KeyTuple :=
  ⟨.ofKey (slice.bytes.take length), min length 9⟩

theorem ofKey_take_num (slice : KeySlice) (n : Nat) :
    (KeySlice.ofKey (slice.bytes.take n)).num = beNat (slice.bytes.take n) * 256 ^ (8 - n) := by
  have hl : (slice.bytes.take n).length = min n 8 := by simp [slice.size]
  have hb : (KeySlice.ofKey (slice.bytes.take n)).bytes = slice.bytes.take n ++ List.replicate (8 - n) 0 := by
    simp only [KeySlice.ofKey, List.take_append, List.take_replicate, hl]
    rw [List.take_of_length_le (by omega)]
    congr 2
    omega
  rw [KeySlice.num, hb, beNat_append, beNat_replicate_zero, List.length_replicate, Nat.add_zero]

theorem bytes_ofKey_take (slice : KeySlice) (n : Nat) :
    (KeySlice.ofKey (slice.bytes.take n)).bytes = slice.bytes.take n ++ List.replicate (8 - n) 0 := by
  have hl : (slice.bytes.take n).length = min n 8 := by simp [slice.size]
  simp only [KeySlice.ofKey, List.take_append, List.take_replicate, hl]
  rw [List.take_of_length_le (by omega)]
  congr 2
  omega

theorem norm_encoded (slice : KeySlice) (length : Nat) : (norm slice length).Encoded := by
  refine ⟨Nat.min_le_right _ _, ?_⟩
  simp only [norm, bytes_ofKey_take]
  rcases Nat.le_total length 8 with h | h
  · rw [List.drop_append_of_le_length (by simp [slice.size]; omega), List.drop_eq_nil_of_le (by simp; omega),
      List.nil_append, beNat_replicate_zero]
  · rw [List.drop_eq_nil_of_le (by simp [slice.size]; omega)]
    rfl

/-- The number of an encoded key: its bytes, padded. -/
theorem ofKey_encoded (key : Key) : (ofKey key).Encoded := by
  by_cases h : 8 < key.length
  · have hl : (ofKey key).length = 9 := keyLength_of_gt h
    refine ⟨hl.le, ?_⟩
    rw [hl, List.drop_of_length_le (by rw [(ofKey key).slice.size]; omega)]
    rfl
  · have hle : key.length ≤ 8 := by omega
    have hl : (ofKey key).length = key.length := keyLength_of_le hle
    refine ⟨by omega, ?_⟩
    rw [hl]
    simp only [ofKey, KeySlice.ofKey]
    rw [List.take_append, List.take_of_length_le hle, List.drop_left, List.take_replicate, beNat_replicate_zero]

theorem Encoded.num_eq {k : KeyTuple} (h : k.Encoded) :
    k.slice.num = beNat (k.slice.bytes.take k.length) * 256 ^ (8 - k.length) := by
  rw [(k.slice.num_split k.length).1, h.padded, Nat.add_zero]

theorem norm_of_encoded {k : KeyTuple} (h : k.Encoded) : norm k.slice k.length = k := by
  have hs : KeySlice.ofKey (k.slice.bytes.take k.length) = k.slice :=
    KeySlice.num_inj (by rw [ofKey_take_num, h.num_eq])
  simp only [norm, hs, Nat.min_eq_left h.length_le]

/-- Comparing the first `min length p.length` bytes, and then the lengths, compares the codes. -/
theorem prefix_compare {slice : KeySlice} {length : Nat} {p : KeyTuple} (hp : p.Encoded) {c : Nat}
    (hc : c = min (min length p.length) 8) :
    (slice.memcmp p.slice c = .lt → (norm slice length).code < p.code) ∧
    (slice.memcmp p.slice c = .eq → ((norm slice length).code < p.code ↔ length < p.length)) ∧
    (slice.memcmp p.slice c = .gt → p.code < (norm slice length).code) := by
  have hl9 := hp.length_le
  obtain ⟨hn, hn'⟩ := (norm slice length).slice.num_split c
  obtain ⟨hq, hq'⟩ := p.slice.num_split c
  -- The first `c` bytes of the normalised slice are those of the slice.
  have htake : (norm slice length).slice.bytes.take c = slice.bytes.take c := by
    simp only [norm, bytes_ofKey_take]
    rw [List.take_append_of_le_length (by simp [slice.size]; omega), List.take_take, Nat.min_eq_left (by omega)]
  rw [htake] at hn
  rw [slice.memcmp_le p.slice (by omega)]
  simp only [code]
  have hlen : (norm slice length).length = min length 9 := rfl
  refine ⟨fun h => ?_, fun h => ?_, fun h => ?_⟩
  · have := Lib.radix_lt_of_lt (a := beNat (p.slice.bytes.drop c)) hn' (Nat.compare_eq_lt.mp h)
    omega
  · rw [Nat.compare_eq_eq.mp h] at hn
    by_cases hlt : length < p.length
    · have h0 : beNat ((norm slice length).slice.bytes.drop c) = 0 := by
        have := (norm_encoded slice length).padded
        rwa [hlen, show min length 9 = c by omega] at this
      omega
    · have h0 : beNat (p.slice.bytes.drop c) = 0 := by
        rcases Nat.le_total p.length 8 with h8 | h8
        · rw [show c = p.length by omega]
          exact hp.padded
        · rw [List.drop_eq_nil_of_le (by rw [p.slice.size]; omega)]
          rfl
      omega
  · have := Lib.radix_lt_of_lt (a := beNat ((norm slice length).slice.bytes.drop c)) hq' (Nat.compare_eq_gt.mp h)
    omega

/-- The go-left test of `get_child_of` decides the order of the codes, for any slice and length. -/
theorem goLeft_iff (slice : KeySlice) (length : Nat) {p : KeyTuple} (hp : p.Encoded) :
    goLeft slice length p.slice p.length = true ↔ (norm slice length).code < p.code := by
  unfold goLeft
  obtain ⟨h1, h2, h3⟩ := @prefix_compare slice length _ hp _ rfl
  have hc : (if sliceSize < (if length < p.length then length else p.length) then sliceSize
      else if length < p.length then length else p.length) = min (min length p.length) 8 := by
    unfold sliceSize
    split <;> split at * <;> omega
  simp only [hc]
  cases h : slice.memcmp p.slice (min (min length p.length) 8) with
  | lt => simp [h1 h]
  | eq => simp [h2 h]
  | gt => simpa using (h3 h).le

/-- The test of `interior_node::insert` and `interior_split` decides the order of the codes. -/
theorem pivotLess_iff {k p : KeyTuple} (hk : k.Encoded) (hp : p.Encoded) :
    pivotLess k.slice k.length p.slice p.length = true ↔ k.code < p.code := by
  unfold pivotLess
  have hk9 := hk.length_le
  have hp9 := hp.length_le
  obtain ⟨h1, h2, h3⟩ := prefix_compare hp rfl
  rw [norm_of_encoded hk] at h1 h2 h3
  have hc : (if sliceSize < k.length ∧ sliceSize < p.length then 8
      else if k.length < p.length then k.length else p.length) = min (min k.length p.length) 8 := by
    unfold sliceSize
    split <;> try split
    all_goals omega
  simp only [hc]
  cases h : k.slice.memcmp p.slice (min (min k.length p.length) 8) with
  | lt => simp [h1 h]
  | eq => simp [h2 h]
  | gt => simpa using (h3 h).le

/-- The comparison of `border_split` decides the order of the codes, when the rank agrees with it. -/
theorem goesLower_iff {k p : KeyTuple} (hk : k.Encoded) (hp : p.Encoded) (hne : k.code ≠ p.code)
    (hp0 : p.length ≠ 0) {rank : Nat} (hr : p.code < k.code → remainingSize ≤ rank) :
    goesLower k.slice k.length p.slice p.length rank = true ↔ k.code < p.code := by
  unfold goesLower
  have hk9 := hk.length_le
  have hp9 := hp.length_le
  obtain ⟨h1, h2, h3⟩ := prefix_compare hp rfl
  rw [norm_of_encoded hk] at h1 h2 h3
  have hc : (if sliceSize < k.length ∧ sliceSize < p.length then sliceSize
      else if k.length < p.length then k.length else p.length) = min (min k.length p.length) 8 := by
    unfold sliceSize
    split <;> try split
    all_goals omega
  simp only [hc]
  rcases Nat.lt_or_gt_of_ne hne with hlt | hgt
  · cases h : k.slice.memcmp p.slice (min (min k.length p.length) 8) with
    | lt => simp [hlt]
    | eq => simp [hlt, (h2 h).mp hlt]
    | gt => exact absurd (h3 h) (by omega)
  · have hr := hr hgt
    have hk0 : k.length ≠ 0 := by
      intro h0
      have hz : k.slice.memcmp p.slice (min (min k.length p.length) 8) = .eq := by
        rw [h0]
        simp [KeySlice.memcmp, memcmp]
      exact absurd ((h2 hz).mpr (by omega)) (by omega)
    cases h : k.slice.memcmp p.slice (min (min k.length p.length) 8) with
    | lt => exact absurd (h1 h) (by omega)
    | eq =>
      have hle : ¬ k.length < p.length := fun hlt => absurd ((h2 h).mpr hlt) (by omega)
      simp [hk0, hle, Nat.not_lt.mpr hr, hgt.le]
    | gt => simp [hk0, hgt.le]

/-- The lookups of a border: a hit is an equal code, a miss a smaller one. -/
theorem probe_eq {k t : KeyTuple} (hk : k.Encoded) (ht : t.Encoded) :
    probe k.slice k.length t.slice t.length =
      match compare k.code t.code with
      | .eq => .hit
      | .lt => .miss
      | .gt => .next := by
  have hk9 := hk.length_le
  have ht9 := ht.length_le
  unfold probe
  rw [KeySlice.memcmp_eight]
  by_cases h0 : k.length = 0 ∧ t.length = 0
  · have hks := hk.padded
    have hts := ht.padded
    rw [h0.1, List.drop_zero] at hks
    rw [h0.2, List.drop_zero] at hts
    have hcode : k.code = t.code := by
      simp only [code, KeySlice.num, hks, hts, h0.1, h0.2]
    simp [h0, hcode]
  · rw [if_neg h0]
    have hcmp : compare k.code t.code = (compare k.slice.num t.slice.num).then (compare k.length t.length) :=
      Lib.radix_compare (by omega) (by omega)
    rw [hcmp]
    cases hs : compare k.slice.num t.slice.num with
    | lt => simp
    | gt => simp
    | eq =>
      simp only [Ordering.eq_then]
      rcases Nat.lt_trichotomy k.length t.length with h | h | h
      · rw [Nat.compare_eq_lt.mpr h]
        simp [h, h.ne, sliceSize]
        omega
      · simp [h]
      · rw [Nat.compare_eq_gt.mpr h]
        simp [h.ne', Nat.not_lt.mpr h.le, sliceSize]
        omega

end KeyTuple

end Yakushima
