import Yakushima.Lib.Interleave
import Yakushima.Model.Call

/-! # Threads on one memory

What an operation may do when threads take turns, the calls that threads make on one version word, and those that
they make on the trees of a memory. -/

namespace Yakushima
open M

/-- `compare_exchange_weak` may fail on the word that it expects. -/
def FailsWeakly (s : State) : {β : Type} → Op β → β → Prop
  | _, .casVersion n _ _, y => ∃ nd, s.node n = some nd ∧ y = (false, nd.version)
  | _, .casRoot ti _ _, y => y = (false, s.root ti)
  | _, _, _ => False

/-- What an operation may do while other threads take their turns. -/
def Performs {β : Type} (o : Op β) (s : State) (y : β) (s' : State) : Prop :=
  exec o s = some (y, s') ∨ FailsWeakly s o y ∧ s' = s

/-- The calls on a `node_version64`. No caller clears the dirty flags but by `unlock`. -/
inductive VersionCall where
  | lock | unlock | getStableVersion | incVinsert
  | setBorder (tf : Bool) | setDeleted (tf : Bool) | setRoot (tf : Bool)
  | setInsertingDeleting | setSplitting
deriving DecidableEq, Repr

namespace VersionCall

/-- What the call does to the word. -/
def update : VersionCall → Version → Version
  | lock => .setLocked true
  | unlock => .unlocked
  | getStableVersion => id
  | incVinsert => .incVinsertDelete
  | setBorder tf => .setBorder tf
  | setDeleted tf => .setDeleted tf
  | setRoot tf => .setRoot tf
  | setInsertingDeleting => .setInsertingDeleting true
  | setSplitting => .setSplitting true

/-- The call on the word of the node `n`; `get_stable_version` answers the word. -/
def prog (n : NodeId) (fuel : Nat) : VersionCall → M (Option Version)
  | lock => do
    Yakushima.lock n fuel
    pure none
  | unlock => do
    versionUnlock fuel n
    pure none
  | getStableVersion => do
    let sv ← Yakushima.getStableVersion n fuel
    pure (some sv)
  | incVinsert => do
    atomicIncVinsert fuel n
    pure none
  | setBorder tf => do
    setVersionBorder fuel n tf
    pure none
  | setDeleted tf => do
    setVersionDeleted fuel n tf
    pure none
  | setRoot tf => do
    setVersionRoot fuel n tf
    pure none
  | setInsertingDeleting => do
    setVersionInsertingDeleting fuel n true
    pure none
  | setSplitting => do
    setVersionSplitting fuel n true
    pure none

/-- Whether a thread that made these calls, the last one first, has the lock. -/
def holding : List VersionCall → Bool
  | [] => false
  | lock :: _ => true
  | unlock :: _ => false
  | _ :: l => holding l

/-- The callers lock what they do not hold, and unlock, begin to insert or delete and begin to split what
    they hold. -/
def Allowed (held : Bool) : VersionCall → Prop
  | lock => held = false
  | unlock | setInsertingDeleting | setSplitting => held = true
  | _ => True

end VersionCall

/-- The threads that make calls on the version word of the node `n`. -/
def versionSystem (n : NodeId) (τ : Type) : Lib.System Op State τ VersionCall (Option Version) where
  performs := Performs
  invokes := fun _ done x p => x.Allowed (VersionCall.holding (done.map Prod.fst)) ∧ ∃ fuel, p = x.prog n fuel

/-- The threads that call `put`, `remove`, `get` and `scan` on the trees of one memory. The inline words that they put
    have clear tag bits. -/
def treeSystem (τ : Type) : Lib.System Op State τ (TreeId × Call) Answer where
  performs := Performs
  invokes := fun _ _ x p => x.2.Clear ∧ ∃ fuel, p = x.2.prog fuel (pure ()) x.1

end Yakushima
