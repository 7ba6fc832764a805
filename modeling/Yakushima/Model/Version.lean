import Mathlib.Algebra.Ring.Nat
import Mathlib.Data.Nat.Basic

/-! # Version words (`version.h`)

The body of `node_version64`: two counters of 29 bits and six flags in one atomic word. -/

namespace Yakushima

/-- `node_version64_body`. -/
structure Version where
  vinsertDelete : Nat
  locked : Bool
  insertingDeleting : Bool
  splitting : Bool
  vsplit : Nat
  deleted : Bool
  root : Bool
  border : Bool
deriving DecidableEq, Repr

namespace Version

/-- The counters are bit fields of 29 bits. -/
def counterSize : Nat := 2 ^ 29

/-- `node_version64_body::init`. -/
def init : Version := ⟨0, false, false, false, 0, false, false, false⟩

instance : Inhabited Version := ⟨init⟩

def incVinsertDelete (v : Version) : Version :=
  { v with vinsertDelete := (v.vinsertDelete + 1) % counterSize }

def incVsplit (v : Version) : Version := { v with vsplit := (v.vsplit + 1) % counterSize }

def setBorder (tf : Bool) (v : Version) : Version := { v with border := tf }

def setDeleted (tf : Bool) (v : Version) : Version := { v with deleted := tf }

def setInsertingDeleting (tf : Bool) (v : Version) : Version := { v with insertingDeleting := tf }

def setLocked (tf : Bool) (v : Version) : Version := { v with locked := tf }

def setRoot (tf : Bool) (v : Version) : Version := { v with root := tf }

def setSplitting (tf : Bool) (v : Version) : Version := { v with splitting := tf }

/-- The word that `node_version64::unlock` tries to store over `v`. -/
def unlocked (v : Version) : Version :=
  let v := if v.insertingDeleting then setInsertingDeleting false v.incVinsertDelete else v
  let v := if v.splitting then setSplitting false v.incVsplit else v
  setLocked false v

/-- The test of `node_version64::get_stable_version`. -/
def stable (v : Version) : Bool := !v.insertingDeleting && !v.locked && !v.splitting

end Version
end Yakushima
