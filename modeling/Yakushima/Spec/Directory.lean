import Yakushima.Model.Directory
import Yakushima.Spec.Range

/-! # What the storages are for: a map of maps

The abstract directory is a finite map from names to storages, and each storage is a map with the instance under
which it is given out. Sessions and garbage do not show. -/

namespace Yakushima
namespace Directory

structure Store where
  tree : TreeId
  content : MapState

/-- `rooted` tells whether a storage was created since the start or the last `destroy`. -/
structure DirState where
  rooted : Bool
  stores : Finmap fun _ : Key => Store

def DirState.init : DirState := ⟨false, ∅⟩

/-- What a scan of a storage answers: an error and the vectors it was given if the interval is rejected, else `OK` and
    tuples of its bindings. -/
structure ScanAnswer (m : MapState) (args : ScanArgs) (out : ScanOut) (r : Status × ScanOut) : Prop where
  rejected : args.Rejected → r = (.errBadUsage, out)
  status : ¬ args.Rejected → r.1 = .ok
  given : ¬ args.Rejected → ∃ hidden shown, Bindings ValueArg.len m args (hidden ++ shown) ∧
    GivenOut args hidden shown r.2.tuples

/-- One call on the directory, with its answer. -/
inductive DirStep {N : Nat} (d : DirState) : Call N → Answer → DirState → Prop where
  | create (token : Fin N) (name : Key) (ti : TreeId) (h : d.stores.lookup name = none)
      (hti : ∀ n S, d.stores.lookup n = some S → S.tree ≠ ti) :
      DirStep d (.create token name) (.status .ok) ⟨true, d.stores.insert name ⟨ti, ⟨true, ∅⟩⟩⟩
  | createBound (token : Fin N) (name : Key) (S : Store) (h : d.stores.lookup name = some S) :
      DirStep d (.create token name) (.status .warnUniqueRestriction) d
  | delete (token : Fin N) (name : Key) (S : Store) (h : d.stores.lookup name = some S) :
      DirStep d (.delete token name) (.status .ok) ⟨d.rooted, d.stores.erase name⟩
  | deleteUnbound (token : Fin N) (name : Key) (h : d.stores.lookup name = none) :
      DirStep d (.delete token name) (.status .warnNotExist) d
  | find (name : Key) (S : Store) (h : d.stores.lookup name = some S) : DirStep d (.find name) (.found (.ok, some S.tree)) d
  | findUnbound (name : Key) (h : d.stores.lookup name = none) : DirStep d (.find name) (.found (.warnNotExist, none)) d
  | list (l : List (Key × TreeId)) (hs : (l.map (·.1)).Pairwise (· < ·))
      (hl : ∀ name ti, (name, ti) ∈ l ↔ ∃ S, d.stores.lookup name = some S ∧ S.tree = ti) :
      DirStep d .list (.listed (if l = [] then .warnNotExist else .ok, l)) d
  | point (name : Key) (c : PointCall) (hc : ∀ t, c.session = some t → t < N) (S : Store) (a : PointAnswer) (m' : MapState)
      (h : d.stores.lookup name = some S) (hs : MapStep ValueArg.len S.content c a m') :
      DirStep d (.point name c hc) (.point a) ⟨d.rooted, d.stores.insert name ⟨S.tree, m'⟩⟩
  | pointUnbound (name : Key) (c : PointCall) (hc : ∀ t, c.session = some t → t < N) (h : d.stores.lookup name = none) :
      DirStep d (.point name c hc) (.point (missing c)) d
  | scan (name : Key) (args : ScanArgs) (out : ScanOut) (S : Store) (r : Status × ScanOut)
      (h : d.stores.lookup name = some S) (hr : ScanAnswer S.content args out r) :
      DirStep d (.scan name args out) (.scan r) d
  | scanUnbound (name : Key) (args : ScanArgs) (out : ScanOut) (h : d.stores.lookup name = none) :
      DirStep d (.scan name args out) (.scan (.warnStorageNotExist, out)) d
  | beginEpoch (token : Fin N) (e : Epoch) : DirStep d (.beginEpoch token e) .done d
  | gcNode (token : Fin N) (gcEpoch : Epoch) : DirStep d (.gcNode token gcEpoch) .done d
  | gcValue (token : Fin N) (gcEpoch : Epoch) : DirStep d (.gcValue token gcEpoch) .done d
  | destroy (h : d.rooted = true) : DirStep d .destroy (.status .okDestroyAll) .init
  | destroyNull (h : d.rooted = false) : DirStep d .destroy (.status .okRootIsNull) d

/-- A sequence of calls on the directory. -/
inductive DirRun {N : Nat} : DirState → List (Call N) → List Answer → DirState → Prop where
  | nil (d : DirState) : DirRun d [] [] d
  | cons {d d₁ d₂ : DirState} {c : Call N} {a : Answer} {cs : List (Call N)} {as : List Answer} (h : DirStep d c a d₁)
      (hs : DirRun d₁ cs as d₂) : DirRun d (c :: cs) (a :: as) d₂

end Directory
end Yakushima
