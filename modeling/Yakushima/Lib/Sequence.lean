import Mathlib.Order.Interval.Finset.Nat
import Mathlib.Data.Nat.ModEq

/-! # Sequences of states

What holds at a moment of a run and did not at first came to hold at one of its steps. A counter that wraps around
and comes back was not touched, or it went all the way round. -/

namespace Lib

/-- The number of the steps from `i` to `j` that change `c`. -/
def changes {α : Type} [DecidableEq α] (c : Nat → α) (i j : Nat) : Nat :=
  ((Finset.Ico i j).filter fun l => c (l + 1) ≠ c l).card

variable {c : Nat → Nat} {size i j : Nat}

end Lib
