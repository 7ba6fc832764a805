import Mathlib.Algebra.Ring.Nat
import Mathlib.Data.Nat.Basic

/-! # Tag bits

Words that carry a flag in one bit: setting it, testing it and taking it off. -/

namespace Lib
variable {w i : Nat} {x : BitVec w}

theorem getLsbD_of_toNat_lt {n : Nat} (h : x.toNat < 2 ^ n) (hi : n ≤ i) : x.getLsbD i = false :=
  Nat.testBit_lt_two_pow (Nat.lt_of_lt_of_le h (Nat.pow_le_pow_right Nat.two_pos hi))

/-- A word without the tag is left as it is when the tag is taken off. -/
theorem and_not_twoPow (h : x.getLsbD i = false) : x &&& ~~~BitVec.twoPow w i = x := by
  refine BitVec.eq_of_getLsbD_eq fun j hj => ?_
  rw [BitVec.getLsbD_and, BitVec.getLsbD_not, BitVec.getLsbD_twoPow]
  by_cases hij : i = j
  · subst hij
    simp [h]
  · simp [hij, hj]

/-- Taking the tag off a tagged word gives the word. -/
theorem or_twoPow_and_not (h : x.getLsbD i = false) : (x ||| BitVec.twoPow w i) &&& ~~~BitVec.twoPow w i = x := by
  refine BitVec.eq_of_getLsbD_eq fun j hj => ?_
  rw [BitVec.getLsbD_and, BitVec.getLsbD_or, BitVec.getLsbD_not, BitVec.getLsbD_twoPow]
  by_cases hij : i = j
  · subst hij
    simp [h]
  · simp [hij, hj]

theorem getLsbD_or_twoPow {j : Nat} (hi : i < w) :
    (x ||| BitVec.twoPow w i).getLsbD j = (x.getLsbD j || decide (i = j)) := by
  rw [BitVec.getLsbD_or, BitVec.getLsbD_twoPow]
  simp [hi]

theorem and_twoPow_eq_zero (hi : i < w) : x &&& BitVec.twoPow w i = 0 ↔ x.getLsbD i = false := by
  rw [BitVec.and_twoPow]
  cases hx : x.getLsbD i with
  | false => simp
  | true =>
    simp only [if_true, Bool.true_eq_false, iff_false]
    intro h
    have := congrArg (fun y => BitVec.getLsbD y i) h
    simp [hi] at this

/-- A word whose bits from `n` on are not set. -/
theorem toNat_lt_of_getLsbD {n : Nat} (h : ∀ j, n ≤ j → x.getLsbD j = false) : x.toNat < 2 ^ n :=
  Nat.lt_pow_two_of_testBit _ h

end Lib
