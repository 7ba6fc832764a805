import Mathlib.Tactic.Ring

/-! # Numbers of two digits

Comparison of `x * B + t` with `y * B + a` where the low digits are below the base: the high digits
decide, then the low ones. -/

namespace Lib

theorem radix_lt_of_lt {x y t a B : Nat} (ht : t < B) (h : x < y) : x * B + t < y * B + a := by
  have := Nat.mul_le_mul_right B (Nat.succ_le_of_lt h)
  rw [Nat.succ_mul] at this
  omega

theorem radix_compare {x y t a B : Nat} (ht : t < B) (ha : a < B) :
    compare (x * B + t) (y * B + a) = (compare x y).then (compare t a) := by
  rcases Nat.lt_trichotomy x y with h | rfl | h
  · rw [Nat.compare_eq_lt.mpr h, Nat.compare_eq_lt.mpr (radix_lt_of_lt ht h)]
    rfl
  · rw [Nat.compare_eq_eq.mpr rfl]
    rcases Nat.lt_trichotomy t a with h | rfl | h
    · rw [Nat.compare_eq_lt.mpr h, Nat.compare_eq_lt.mpr (by omega)]
      rfl
    · rw [Nat.compare_eq_eq.mpr rfl, Nat.compare_eq_eq.mpr rfl]
      rfl
    · rw [Nat.compare_eq_gt.mpr h, Nat.compare_eq_gt.mpr (by omega)]
      rfl
  · rw [Nat.compare_eq_gt.mpr h, Nat.compare_eq_gt.mpr (radix_lt_of_lt ha h)]
    rfl

theorem radix_inj {x y t a B : Nat} (ht : t < B) (ha : a < B) (h : x * B + t = y * B + a) : x = y ∧ t = a := by
  rcases Nat.lt_trichotomy x y with hlt | rfl | hlt
  · exact absurd h (radix_lt_of_lt ht hlt).ne
  · exact ⟨rfl, by omega⟩
  · exact absurd h (radix_lt_of_lt ha hlt).ne'

end Lib
