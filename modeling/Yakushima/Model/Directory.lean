import Yakushima.Model.Call
import Yakushima.Model.GarbageCollection

/-! # Storages (`storage_impl.h`, `interface_helper.h`, `interface_destroy.h`)

The directory is a tree whose keys are the names of the storages and whose values are their `tree_instance`s. It has
the position 0, the local `new_instance` of `create_storage` has the position 1, and the instance in a heap block the
position of the block and two more. A token is what `enter` found: the position of one of the `N` sessions. -/

namespace Yakushima
namespace Directory
open M

variable (fuel : Nat) (retry : M Unit)

/-- `get_storages()`. -/
def storages : TreeId := 0

/-- `new_instance` of `create_storage`. -/
def newInstance : TreeId := 1

def instanceAt (v : ValueId) : TreeId := v + 2

/-- The instance that a body pointer leads to; no inline word is one. -/
def instanceOf : ValuePtr → M TreeId
  | .heap v => pure (instanceAt v)
  | .word _ => .halt

/-- The bytes of an instance: its root pointer. -/
def instanceBytes (root : NodeId) : List UInt8 := (List.range 8).map fun i => UInt8.ofNat (root / 256 ^ i)

/-- The copy of `new_instance` in the block that `put` made of it. -/
def copyInstance : Option LinkOrValue → Ptr → M Unit
  | some (.value p), root => do
    let ti ← instanceOf p
    op (.storeRoot ti root)
  | _, _ => .halt

/-- `create_storage`. -/
def createStorage (token : Token) (name : Key) : M Status := do
  let newBorder ← op (.newNode .border)
  initBorder fuel newBorder
  op (.storeRoot newInstance (some newBorder))
  let r ← put fuel retry token storages ⟨name, .heap (instanceBytes newBorder) 8, true⟩
  (if r.status = .ok then copyInstance r.created (some newBorder) else op (.deleteNode newBorder))
  -- `new_instance` ends here.
  op (.storeRoot newInstance none)
  pure r.status

/-- `root->destroy()`, `delete root` and `store_root_ptr(nullptr)` for a root that is not null. -/
def releaseTree (ti : TreeId) : M Unit := do
  match ← op (.loadRoot ti) with
  | none => pure ()
  | some root => do
    Yakushima.destroy fuel root
    op (.deleteNode root)
    op (.storeRoot ti none)

/-- `ret.first`. -/
def firstOf : Option (ValuePtr × Nat) → M TreeId
  | some out => instanceOf out.1
  | none => .halt

/-- `delete_storage`. -/
def deleteStorage (token : Token) (name : Key) : M Status := do
  let (rc, ret) ← get fuel retry storages name
  if rc = .warnNotExist then pure .warnNotExist
  else do
    let st ← remove fuel retry token storages name
    if st = .ok then do
      let ti ← firstOf ret
      releaseTree fuel ti
      pure .ok
    else pure .warnConcurrentOperations

/-- `find_storage`. -/
def findStorage (name : Key) : M (Status × Option TreeId) := do
  let (rc, ret) ← get fuel retry storages name
  if rc = .warnNotExist then pure (.warnNotExist, none)
  else do
    let ti ← firstOf ret
    pure (.ok, some ti)

/-- The interval without ends. -/
def everything : ScanArgs := ⟨[], .inf, [], .inf, 0, false⟩

def instancesOf : List (Key × ValuePtr × Nat) → M (List (Key × TreeId))
  | [] => pure []
  | (name, p, _) :: tuples => do
    let ti ← instanceOf p
    let rest ← instancesOf tuples
    pure ((name, ti) :: rest)

/-- `list_storages`. -/
def listStorages : M (Status × List (Key × TreeId)) := do
  let (_, out) ← scan fuel retry storages everything ⟨[], []⟩
  if out.tuples = [] then pure (.warnNotExist, [])
  else do
    let l ← instancesOf out.tuples
    pure (.ok, l)

/-- The operations on a storage by its name: `missing` is the answer if there is none. -/
def withStorage {α : Type} (name : Key) (missing : α) (f : TreeId → M α) : M α := do
  let (ret, ti) ← findStorage fuel retry name
  if ret ≠ .ok then pure missing
  else match ti with
    | some ti => f ti
    | none => .halt

/-- What `put`, `remove` and `get` answer without a storage. -/
def missing : PointCall → PointAnswer
  | .put _ _ => .put ⟨.warnStorageNotExist, none, none⟩
  | .remove _ _ => .remove .warnStorageNotExist
  | .get _ => .get (.warnStorageNotExist, none)

/-- `destroy` of everything. -/
def destroy : M Status := do
  let root ← op (.loadRoot storages)
  if root = none then pure .okRootIsNull
  else do
    let (_, out) ← scan fuel retry storages everything ⟨[], []⟩
    forEach (fun elem => do
      let ti ← instanceOf elem.2.1
      releaseTree fuel ti) out.tuples
    releaseTree fuel storages
    pure .okDestroyAll

/-! ### Garbage

The containers of a session are the elements that were pushed in it; one in a cache is the first of them. -/

/-- What `f` makes of the container of a session: what it frees, and the containers after it. -/
def sweep {α : Type} (token : Token) (f : Container α → List (Epoch × α) × Container α) (l : List (Garbage α)) :
    List (Epoch × α) × List (Garbage α) :=
  let (freed, c) := f ⟨none, (l.filter (·.token = token)).map fun g => (g.epoch, g.target)⟩
  (freed, l.filter (·.token ≠ token) ++ c.held.map fun e => ⟨token, e.1, e.2⟩)

/-- `gc_node`, and the part of `fin` for the nodes. -/
def freeNodes (token : Token) (f : Container NodeId → List (Epoch × NodeId) × Container NodeId) (s : State) :
    Option State :=
  let (freed, rest) := sweep token f s.nodeContainer
  (run (forEach (fun e => op (.deleteNode e.2)) freed) s).map fun r => { r.2 with nodeContainer := rest }

/-- `gc_value`, and the part of `fin` for the values. -/
def freeValues (token : Token) (f : Container ValueTarget → List (Epoch × ValueTarget) × Container ValueTarget)
    (s : State) : Option State :=
  let (freed, rest) := sweep token f s.valueContainer
  (run (forEach (fun e => op (.deleteBlock e.2.1)) freed) s).map fun r => { r.2 with valueContainer := rest }

/-- `fin` of the sessions of the table. -/
def finTable : List Token → State → Option State
  | [], s => some s
  | token :: table, s => ((freeNodes token Container.fin s).bind (freeValues token Container.fin)).bind (finTable table)

/-- `fin`, after the two background threads have ended. -/
def fin (N : Nat) (s : State) : Option State :=
  (run (destroy fuel retry) s).bind fun r => finTable (List.range N) r.2

/-! ### Sequences of calls -/

/-- The calls of one thread. `beginEpoch` stands for `enter` and `leave`, which set the begin epoch of a session;
    `gcNode` and `gcValue` for the work of the gc thread in a session, with the epoch that it read. -/
inductive Call (N : Nat) where
  | create (token : Fin N) (name : Key)
  | delete (token : Fin N) (name : Key)
  | find (name : Key)
  | list
  | point (name : Key) (c : PointCall) (hc : ∀ t, c.session = some t → t < N)
  | scan (name : Key) (args : ScanArgs) (out : ScanOut)
  | beginEpoch (token : Fin N) (e : Epoch)
  | gcNode (token : Fin N) (gcEpoch : Epoch)
  | gcValue (token : Fin N) (gcEpoch : Epoch)
  | destroy

/-- A value that the call puts into a storage fits its header. -/
def Call.Representable {N : Nat} : Call N → Prop
  | .point _ c _ => c.Representable
  | _ => True

instance Call.instDecidableRepresentable {N : Nat} : DecidablePred (@Call.Representable N)
  | .point _ c _ => inferInstanceAs (Decidable c.Representable)
  | .create _ _ | .delete _ _ | .find _ | .list | .scan _ _ _ | .beginEpoch _ _ | .gcNode _ _ | .gcValue _ _
  | .destroy => .isTrue trivial

inductive Answer where
  | status (st : Status)
  | found (r : Status × Option TreeId)
  | listed (r : Status × List (Key × TreeId))
  | point (a : PointAnswer)
  | scan (r : Status × ScanOut)
  | done
deriving DecidableEq, Repr

variable (fuel : Nat)

/-- A call, with the memory after it; nothing if it faults or does not return within the fuel. -/
def Call.exec {N : Nat} : Call N → State → Option (Answer × State)
  | .create token name, s => (run (createStorage fuel (pure ()) token name) s).map fun r => (.status r.1, r.2)
  | .delete token name, s => (run (deleteStorage fuel (pure ()) token name) s).map fun r => (.status r.1, r.2)
  | .find name, s => (run (findStorage fuel (pure ()) name) s).map fun r => (.found r.1, r.2)
  | .list, s => (run (listStorages fuel (pure ())) s).map fun r => (.listed r.1, r.2)
  | .point name c _, s => (run (withStorage fuel (pure ()) name (missing c) (c.prog fuel (pure ()))) s).map
    fun r => (.point r.1, r.2)
  | .scan name args out, s =>
    (run (withStorage fuel (pure ()) name (.warnStorageNotExist, out)
      fun ti => Yakushima.scan fuel (pure ()) ti args out) s).map fun r =>
      (.scan r.1, r.2)
  | .beginEpoch token e, s => some (.done, { s with beginEpoch := Function.update s.beginEpoch token e })
  | .gcNode token gcEpoch, s => (freeNodes token (Container.gc gcEpoch) s).map fun s => (.done, s)
  | .gcValue token gcEpoch, s => (freeValues token (Container.gc gcEpoch) s).map fun s => (.done, s)
  | .destroy, s => (run (Directory.destroy fuel (pure ())) s).map fun r => (.status r.1, r.2)

/-- A sequence of calls. -/
def runCalls {N : Nat} : List (Call N) → State → Option (List Answer × State)
  | [], s => some ([], s)
  | c :: calls, s => (c.exec fuel s).bind fun r => (runCalls calls r.2).map fun rs => (r.1 :: rs.1, rs.2)

end Directory
end Yakushima
