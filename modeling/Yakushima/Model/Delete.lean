import Yakushima.Model.Node

/-! # Deletion from a border and its cascade (`border_node.h`, `interior_node.h`) -/

namespace Yakushima
open M

variable (fuel : Nat)

/-- What the collapse of `interior_node::delete_of` does to the parent of `n` when `n` is the root of
    the tree: the child at position `i` takes its place. -/
def collapseRoot (ti : TreeId) (n i : NodeId) : M Unit := do
  let sibling ← deref (← load n (.child i))
  setVersionRoot fuel sibling true
  let sibling ← load n (.child i)
  op (.storeRoot ti sibling)
  let sibling ← deref (← load n (.child i))
  store sibling .parent none

/-- The same when `n` has the locked parent `p`: a border above or an interior. -/
def collapseInto (n i p : NodeId) : M Unit := do
  let parentIsBorder ← getVersionBorder p
  (if parentIsBorder then do
    let lv ← getLv p n
    let sibling ← deref (← load n (.child i))
    setNextLayer p lv sibling
    setVersionRoot fuel sibling true
  else do
    let sibling ← load n (.child i)
    swapChild p (some n) sibling)
  let sibling ← deref (← load n (.child i))
  store sibling .parent (some p)
  versionUnlock fuel p

/-- The collapse branch of `interior_node::delete_of`: `n` had two children, and the one at position `i`
    is left. -/
def collapse (token : Token) (ti : TreeId) (n i : NodeId) : M Unit := do
  setVersionDeleted fuel n true
  setVersionRoot fuel n false
  nKeysDecrement n
  let pn ← lockParent fuel n
  (match pn with
    | none => collapseRoot fuel ti n i
    | some p => collapseInto fuel n i p)
  versionUnlock fuel n
  op (.pushNode token n)

/-- The other branch of `interior_node::delete_of`: the child at position `i` of `nKey + 1` leaves. -/
def dropChild (n : NodeId) (i nKey : Nat) : M Unit := do
  (if i = 0 then do
    op (.shiftLeftKeys n 1 1)
    shiftLeftChildren n 1 1
    store n (.child nKey) none
  else if i = nKey then store n (.child i) none
  else do
    op (.shiftLeftKeys n i 1)
    shiftLeftChildren n (i + 1) 1
    store n (.child nKey) none)
  setKey n (nKey - 1) .zero 0
  nKeysDecrement n
  versionUnlock fuel n

/-- The search of `interior_node::delete_of`. -/
def searchChildPtr (n child : NodeId) : List Nat → M (Option Nat)
  | [] => pure none
  | i :: is => do
    let c ← load n (.child i)
    if c = some child then pure (some i) else searchChildPtr n child is

/-- `interior_node::delete_of`: `n` is locked. -/
def interiorDeleteOf (token : Token) (ti : TreeId) (n child : NodeId) : M Unit := do
  setVersionInsertingDeleting fuel n true
  let nKey ← load n .nKeys
  when (nKey = 0) (logError .interiorDeleteOfNoKeys)
  match ← searchChildPtr n child (List.range (nKey + 1)) with
  | some i => if nKey = 1 then collapse fuel token ti n (1 - i) else dropChild fuel n i nKey
  | none => logError .interiorDeleteOfPrecondition

/-- The search of `border_node::delete_of`: the rank and the slot of the key. -/
def searchKey (n : NodeId) (slice : KeySlice) (length : Nat) : Nat → List Nat → M (Option (Nat × Nat))
  | _, [] => pure none
  | i, index :: rest => do
    let targetLength ← load n (.keyLength index)
    let target ← load n (.keySlice index)
    if (length = 0 ∧ targetLength = 0) ∨ (length = targetLength ∧ slice.memcmp target sliceSize = .eq) then
      pure (some (i, index))
    else searchKey n slice length (i + 1) rest

/-- The search of `border_node::delete_of(child)`: the slot that links to the child. -/
def searchLink (n child : NodeId) : List Nat → M (Option Nat)
  | [] => pure none
  | index :: rest => do
    let lv ← load n (.lv index)
    if lv.getNextLayer = some child then pure (some index) else searchLink n child rest

/-- `set_prev` of the border after `n`, if there is one. -/
def setPrevOfNext (n : NodeId) (p : Ptr) : M Unit := do
  match ← load n .next with
  | some nx => store nx .prev p
  | none => pure ()

/-- The loop at `retry_prev_lock`: take the emptied border out of the leaf chain. -/
def unlinkPrev (n : NodeId) : Nat → M Unit
  | 0 => .halt
  | k + 1 => do
    let prev ← load n .prev
    match prev with
    | some p => do
      lock p fuel
      if ← isStale n p .prev then do
        versionUnlock fuel p
        unlinkPrev n k
      else do
        let next ← load n .next
        store p .next next
        setPrevOfNext n (some p)
        versionUnlock fuel p
    | none => setPrevOfNext n none

/-- `destroy` of a border and of an interior, and of the slots of a border: the nodes and blocks below
    are released. The threads that the source may spawn for it are joined before it returns. -/
def destroy : Nat → NodeId → M Unit
  | 0, _ => .halt
  | k + 1, n => do
    if ← op (.isBorder n) then do
      let body ← load n .permutation
      forEach (fun index => do
        let lv ← load n (.lv index)
        match lv with
        | .link child => do
          destroy k child
          op (.deleteNode child)
        | .value (.heap v) => do
          if ← needDelete (.heap v) then op (.deleteBlock v)
        | _ => pure ()
        store n (.lv index) .empty) (Permutation.slotsOf body)
    else do
      let nKeys ← load n .nKeys
      forEach (fun i => do
        let child ← deref (← load n (.child i))
        destroy k child
        op (.deleteNode child)) (List.range (nKeys + 1))

/-- What `border_node::delete_of` does to the locked parent `p` of an emptied border `n`: a border above
    loses the entry of the emptied layer through `deleteEntry`, which is `delete_of` of that border. -/
def leaveParent (token : Token) (ti : TreeId) (deleteEntry : KeySlice → Nat → M Unit) (p n : NodeId) : M Unit := do
  if ← getVersionBorder p then do
    let pBody ← load p .permutation
    match ← searchLink p n (Permutation.slotsOf pBody) with
    | some index => do
      let slice ← load p (.keySlice index)
      let length ← load p (.keyLength index)
      deleteEntry slice length
    | none => logError .deleteOfChildNotFound
  else interiorDeleteOf fuel token ti p n

/-- `border_node::delete_of`: `n` is locked and holds the key. When it becomes empty it leaves the leaf
    chain and its parent; an emptied layer leaves the border above in turn. -/
def borderDeleteOf (token : Token) (ti : TreeId) : Nat → NodeId → KeySlice → Nat → Bool → M Unit
  | 0, _, _, _, _ => .halt
  | k + 1, n, slice, length, targetIsValue => do
    let body ← load n .permutation
    match ← searchKey n slice length 0 (Permutation.slotsOf body) with
    | none => logError .deleteOfKeyNotFound
    | some (rank, index) => do
      deleteAt token n rank index targetIsValue
      if Permutation.getCnk body = 1 then do
        setVersionDeleted fuel n true
        let root ← op (.loadRoot ti)
        when (root ≠ some n) (setVersionRoot fuel n false)
        unlinkPrev fuel n fuel
        match ← lockParent fuel n with
        | none => versionUnlock fuel n
        | some p => do
          setVersionRoot fuel n false
          versionUnlock fuel n
          leaveParent fuel token ti (fun slice length => borderDeleteOf token ti k p slice length false) p n
          op (.pushNode token n)
      else versionUnlock fuel n

end Yakushima
