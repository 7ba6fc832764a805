import Yakushima.Lib.Interleave
import Yakushima.Model.Memory

/-! # Storages in parallel (`storage_impl.h`)

Threads that create and delete storages. The directory is a map from names to the positions of `tree_instance`s; its
`put`, `get` and `remove` are single steps here, and so are the accesses to the root pointer of a storage and the
`destroy` of its nodes. The sessions that both calls open and close are left out: they keep the memory of the
`tree_instance`s, so a position is not used twice. -/

namespace Yakushima
namespace Storage

structure State where
  /-- `get_storages()`. -/
  directory : Key → Option TreeId
  /-- `root_` of the instances. -/
  root : TreeId → Ptr
  nextTree : TreeId
  nextNode : NodeId
  /-- The nodes that were destroyed or deleted, the last one first. -/
  freed : List NodeId

/-- No storage was created. -/
def State.init : State := ⟨fun _ => none, fun _ => none, 0, 0, []⟩

inductive Op : Type → Type 1 where
  /-- `new border_node()` and `init_border()`. -/
  | newBorder : Op NodeId
  /-- `put` of an instance with the root `border`, under the unique restriction. -/
  | putUnique (name : Key) (border : NodeId) : Op Status
  /-- `delete new_border`. -/
  | deleteBorder (border : NodeId) : Op Unit
  | get (name : Key) : Op (Option TreeId)
  | remove (name : Key) : Op Status
  | loadRoot (ti : TreeId) : Op Ptr
  /-- `tables_root->destroy()` and `delete tables_root`. -/
  | destroy (n : NodeId) : Op Unit
  | storeRoot (ti : TreeId) (p : Ptr) : Op Unit

def exec {β : Type} : Op β → State → β × State
  | .newBorder, s => (s.nextNode, { s with nextNode := s.nextNode + 1 })
  | .putUnique name border, s =>
    if s.directory name = none then
      (.ok, { s with
        directory := Function.update s.directory name (some s.nextTree)
        root := Function.update s.root s.nextTree (some border)
        nextTree := s.nextTree + 1 })
    else (.warnUniqueRestriction, s)
  | .deleteBorder border, s => ((), { s with freed := border :: s.freed })
  | .get name, s => (s.directory name, s)
  | .remove name, s =>
    if s.directory name = none then (.okNotFound, s)
    else (.ok, { s with directory := Function.update s.directory name none })
  | .loadRoot ti, s => (s.root ti, s)
  | .destroy n, s => ((), { s with freed := n :: s.freed })
  | .storeRoot ti p, s => ((), { s with root := Function.update s.root ti p })

abbrev M := Lib.Prog Op

def perform {β : Type} (o : Op β) : M β := .step o .ret

def createStorage (name : Key) : M Status := do
  let newBorder ← perform .newBorder
  let st ← perform (.putUnique name newBorder)
  if st ≠ .ok then perform (.deleteBorder newBorder)
  pure st

/-- `delete_storage` from its `remove` on, with the instance that it got. -/
def deleteFound (name : Key) (ti : TreeId) : M Status := do
  let st ← perform (.remove name)
  if st = .ok then do
    match ← perform (.loadRoot ti) with
    | some tablesRoot => do
      perform (.destroy tablesRoot)
      perform (.storeRoot ti none)
    | none => pure ()
    pure .ok
  else pure .warnConcurrentOperations

def deleteStorage (name : Key) : M Status := do
  match ← perform (.get name) with
  | none => pure .warnNotExist
  | some ti => deleteFound name ti

inductive Call where
  | create (name : Key)
  | delete (name : Key)
deriving DecidableEq

def Call.prog : Call → M Status
  | .create name => createStorage name
  | .delete name => deleteStorage name

/-- Any number of threads with any calls. -/
def system (τ : Type) : Lib.System Op State τ Call Status where
  performs := fun o s y s' => exec o s = (y, s')
  invokes := fun _ _ x p => p = x.prog

end Storage
end Yakushima
