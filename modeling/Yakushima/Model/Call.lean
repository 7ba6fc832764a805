import Yakushima.Model.Scan

/-! # Sequences of calls

The calls that a thread makes on one tree, one after the other. -/

namespace Yakushima
open M

/-- A call of `put`, `remove` or `get`. -/
inductive PointCall where
  | put (token : Token) (args : PutArgs)
  | remove (token : Token) (key : Key)
  | get (key : Key)
deriving DecidableEq, Repr

/-- The key that a call is about. -/
def PointCall.key : PointCall → Key
  | .put _ args => args.key
  | .remove _ key => key
  | .get key => key

/-- The session of a call. -/
def PointCall.session : PointCall → Option Token
  | .put token _ => some token
  | .remove token _ => some token
  | .get _ => none

/-- The tag bits of the inline word that the call puts, if it puts one, are clear. -/
def PointCall.Clear : PointCall → Prop
  | .put _ args => args.value.Clear
  | .remove _ _ | .get _ => True

/-- The value that the call puts, if it puts one, has clear tag bits and fits its header. -/
def PointCall.Representable : PointCall → Prop
  | .put _ args => args.value.Representable
  | .remove _ _ | .get _ => True

instance PointCall.instDecidableClear : DecidablePred PointCall.Clear
  | .put _ args => inferInstanceAs (Decidable args.value.Clear)
  | .remove _ _ | .get _ => .isTrue trivial

instance PointCall.instDecidableRepresentable : DecidablePred PointCall.Representable
  | .put _ args => inferInstanceAs (Decidable args.value.Representable)
  | .remove _ _ | .get _ => .isTrue trivial

/-- What a call gives back. -/
inductive PointAnswer where
  | put (r : PutResult)
  | remove (st : Status)
  | get (r : Status × Option (ValuePtr × Nat))
deriving DecidableEq, Repr

variable (fuel : Nat) (retry : M Unit) (ti : TreeId)

def PointCall.prog : PointCall → M PointAnswer
  | .put token args => do pure (.put (← Yakushima.put fuel retry token ti args))
  | .remove token key => do pure (.remove (← Yakushima.remove fuel retry token ti key))
  | .get key => do pure (.get (← Yakushima.get fuel retry ti key))

/-- A call of any operation on a tree; a `scan` clears the vectors it is given. -/
inductive Call where
  | point (c : PointCall)
  | scan (args : ScanArgs)
deriving DecidableEq, Repr

def Call.Clear : Call → Prop
  | .point c => c.Clear
  | .scan _ => True

instance Call.instDecidableClear : DecidablePred Call.Clear
  | .point c => inferInstanceAs (Decidable c.Clear)
  | .scan _ => .isTrue trivial

inductive Answer where
  | point (a : PointAnswer)
  | scan (r : Status × ScanOut)
deriving DecidableEq, Repr

def Call.prog : Call → M Answer
  | .point c => do pure (.point (← c.prog fuel retry ti))
  | .scan args => do pure (.scan (← Yakushima.scan fuel retry ti args ⟨[], []⟩))

/-- The program returns: its bound on rounds does not matter once it is large enough. -/
def Returns {α : Type} (p : Nat → M α) (s : State) (a : α) (s' : State) : Prop :=
  ∃ N, ∀ fuel ≥ N, run (p fuel) s = some (a, s')

/-- A sequence of calls, each given as a program. -/
def runAll {α : Type} : List (M α) → M (List α)
  | [] => pure []
  | c :: cs => do
    let a ← c
    let as ← runAll cs
    pure (a :: as)

end Yakushima
