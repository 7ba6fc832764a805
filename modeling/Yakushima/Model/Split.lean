import Yakushima.Model.Node

/-! # Insertion into a border and splits (`border_helper.h`, `interior_helper.h`) -/

namespace Yakushima
open M

variable (fuel : Nat)

/-- `create_interior_parent_of_border` and `create_interior_parent_of_interior`: a new root interior
    over two nodes, locked and inserting. The first takes its pivot from slot 0 of the right border. -/
def createInteriorParent (left right : NodeId) (slice : KeySlice) (length : Nat) : M NodeId := do
  setVersionRoot fuel left false
  setVersionRoot fuel right false
  let ni ← op (.newNode .interior)
  initInterior fuel ni
  setVersionRoot fuel ni true
  setVersionInsertingDeleting fuel ni true
  lock ni fuel
  setKey ni 0 slice length
  store ni (.child 0) (some left)
  store ni (.child 1) (some right)
  nKeysIncrement ni
  store left .parent (some ni)
  store right .parent (some ni)
  pure ni

def createInteriorParentOfBorder (left right : NodeId) : M NodeId := do
  let slice ← load right (.keySlice 0)
  let length ← load right (.keyLength 0)
  createInteriorParent fuel left right slice length

/-- `pivot_key_pos` of `interior_split`. -/
def pivotKeyPos : Nat := keySliceLength / 2

/-- `split_children_points` of `interior_split`. -/
def splitChildrenPoints : Nat := pivotKeyPos + 1

/-- The first part of `interior_split`: the upper half of the full and locked `interior` goes to a new
    interior. It answers the new interior and the pivot between the two. -/
def interiorSplitMove (interior : NodeId) : M (NodeId × KeySlice × Nat) := do
  setVersionSplitting fuel interior true
  let newInterior ← op (.newNode .interior)
  initInterior fuel newInterior
  -- The new interior is initially locked.
  let v ← getBody interior
  store newInterior .version v
  moveKeyToBaseRange interior newInterior splitChildrenPoints
  store interior .nKeys pivotKeyPos
  store newInterior .nKeys (if pivotKeyPos % 2 = 1 then pivotKeyPos else pivotKeyPos - 1)
  moveChildrenToInteriorRange interior newInterior splitChildrenPoints
  let pivotKey ← load interior (.keySlice pivotKeyPos)
  let pivotLength ← load interior (.keyLength pivotKeyPos)
  setKey interior pivotKeyPos .zero 0
  pure (newInterior, pivotKey, pivotLength)

/-- The second part of `interior_split`: the insertion into one of the two interiors. -/
def interiorSplitInsert (interior newInterior child : NodeId) (slice : KeySlice) (length : Nat) (pivotKey : KeySlice)
    (pivotLength : Nat) : M Unit := do
  when (length = 0 ∨ pivotLength = 0) (logError .interiorSplitZeroLength)
  if pivotLess slice length pivotKey pivotLength then do
    store child .parent (some interior)
    interiorInsert fuel interior child slice length
  else do
    store child .parent (some newInterior)
    interiorInsert fuel newInterior child slice length

/-- The end of both splits when the old node was the root of the tree. -/
def splitRoot (ti : TreeId) (left right p : NodeId) : M Unit := do
  versionUnlock fuel left
  versionUnlock fuel right
  op (.storeRoot ti (some p))
  versionUnlock fuel p

/-- The last part of `interior_split`: the new interior goes into the parent of `interior`; a full parent
    is split by `splitParent`, which is `interior_split` itself. -/
def interiorSplitParent (ti : TreeId) (splitParent : NodeId → NodeId → KeySlice → Nat → M Unit)
    (interior newInterior : NodeId) (pivotKey : KeySlice) (pivotLength : Nat) : M Unit := do
  match ← lockParent fuel interior with
  | none => do
    let root ← op (.loadRoot ti)
    when (root ≠ some interior) (logError .interiorSplitRoot)
    let p ← createInteriorParent fuel interior newInterior pivotKey pivotLength
    splitRoot fuel ti interior newInterior p
  | some p => do
    let stale ← isStale interior p .parent
    when stale (logError .interiorSplitParent)
    if ← getVersionBorder p then do
      setVersionInsertingDeleting fuel p true
      let newP ← createInteriorParent fuel interior newInterior pivotKey pivotLength
      versionUnlock fuel interior
      versionUnlock fuel newInterior
      let lv ← getLv p interior
      setNextLayer p lv newP
      store newP .parent (some p)
      versionUnlock fuel newP
      versionUnlock fuel p
    else do
      versionUnlock fuel interior
      store newInterior .parent (some p)
      versionUnlock fuel newInterior
      let nKeys ← load p .nKeys
      if nKeys = keySliceLength then splitParent p newInterior pivotKey pivotLength
      else do
        interiorInsert fuel p newInterior pivotKey pivotLength
        versionUnlock fuel p

/-- `interior_split`: `interior` is full and locked; `child` is inserted under the given key. -/
def interiorSplit (ti : TreeId) : Nat → NodeId → NodeId → KeySlice → Nat → M Unit
  | 0, _, _, _, _ => .halt
  | k + 1, interior, child, slice, length => do
    let (newInterior, pivotKey, pivotLength) ← interiorSplitMove fuel interior
    interiorSplitInsert fuel interior newInterior child slice length pivotKey pivotLength
    interiorSplitParent fuel ti (interiorSplit ti k) interior newInterior pivotKey pivotLength

/-- `remaining_size` of `border_split`. -/
def remainingSize : Nat := keySliceLength / 2 + 1

/-- One round of the moving loop of `border_split`: the entry of rank `remaining_size` goes to slot
    `indexCtr` of the new border. -/
def moveEntry (border newBorder indexCtr : Nat) : M Unit := do
  let body ← load border .permutation
  let src := Permutation.getIndexOfRank body remainingSize
  let slice ← load border (.keySlice src)
  store newBorder (.keySlice indexCtr) slice
  let length ← load border (.keyLength src)
  store newBorder (.keyLength indexCtr) length
  let lv ← load border (.lv src)
  store newBorder (.lv indexCtr) lv
  (match lv.getNextLayer with
    | some nl => store nl .parent (some newBorder)
    | none => pure ())
  initBorderAt border src
  deleteRank border remainingSize
  decKeyNum border

/-- The comparison by which `border_split` puts the new key into the lower border. -/
def goesLower (slice : KeySlice) (length : Nat) (front : KeySlice) (frontLength rank : Nat) : Bool :=
  let compLength := if sliceSize < length ∧ sliceSize < frontLength then sliceSize
    else if length < frontLength then length else frontLength
  let cmp := slice.memcmp front compLength
  length = 0 ∨ cmp = .lt ∨ (cmp = .eq ∧ length < frontLength) ∨ (cmp = .eq ∧ rank < remainingSize)

/-- The first part of `border_split`: a new border after the full and locked `border` takes its upper
    entries. -/
def borderSplitMove (border : NodeId) : M NodeId := do
  setVersionSplitting fuel border true
  let newBorder ← op (.newNode .border)
  initBorder fuel newBorder
  let next ← load border .next
  store newBorder .next next
  store newBorder .prev (some border)
  -- The new border is initially locked.
  let v ← getBody border
  store newBorder .version v
  store border .next (some newBorder)
  (match next with
    | some nx => store nx .prev (some newBorder)
    | none => pure ())
  forEach (moveEntry border newBorder) (List.range (keySliceLength - remainingSize))
  store newBorder .permutation (Permutation.splitDest (keySliceLength - remainingSize))
  pure newBorder

/-- The second part of `border_split`: the insertion into one of the two borders. -/
def borderSplitInsert (border newBorder : NodeId) (key : Key) (newValue : LinkOrValue) (rank : Nat) : M LinkOrValue := do
  let front ← load newBorder (.keySlice 0)
  let frontLength ← load newBorder (.keyLength 0)
  if goesLower (.ofKey key) (keyLength key) front frontLength rank then do
    let slot ← getEmptySlot border
    insertLvAt fuel fuel border slot key newValue rank
  else do
    let slot ← getEmptySlot newBorder
    insertLvAt fuel fuel newBorder slot key newValue (rank - remainingSize)

/-- The last part of `border_split`: the new border goes into the parent of `border`. -/
def borderSplitParent (ti : TreeId) (border newBorder : NodeId) : M Unit := do
  match ← lockParent fuel border with
  | none => do
    let root ← op (.loadRoot ti)
    when (root ≠ some border) (logError .borderSplitRoot)
    let p ← createInteriorParentOfBorder fuel border newBorder
    splitRoot fuel ti border newBorder p
  | some p => do
    let check ← load border .parent
    when (check ≠ some p) (logError .borderSplitParent)
    if ← getVersionBorder p then do
      setVersionInsertingDeleting fuel p true
      let pi ← createInteriorParentOfBorder fuel border newBorder
      versionUnlock fuel border
      versionUnlock fuel newBorder
      store pi .parent (some p)
      versionUnlock fuel pi
      let lv ← getLv p border
      setNextLayer p lv pi
      versionUnlock fuel p
    else do
      when (← getVersionDeleted p) (logError .borderSplitParentDeleted)
      setVersionRoot fuel border false
      setVersionRoot fuel newBorder false
      versionUnlock fuel border
      versionUnlock fuel newBorder
      let nKeys ← load p .nKeys
      if nKeys = keySliceLength then do
        let slice ← load newBorder (.keySlice 0)
        let length ← load newBorder (.keyLength 0)
        interiorSplit fuel ti fuel p newBorder slice length
      else do
        store newBorder .parent (some p)
        let slice ← load newBorder (.keySlice 0)
        let length ← load newBorder (.keyLength 0)
        interiorInsert fuel p newBorder slice length
        versionUnlock fuel p

/-- `border_split`: `border` is full and locked. -/
def borderSplit (ti : TreeId) (border : NodeId) (key : Key) (newValue : LinkOrValue) (rank : Nat) : M LinkOrValue := do
  let newBorder ← borderSplitMove fuel border
  let created ← borderSplitInsert fuel border newBorder key newValue rank
  borderSplitParent fuel ti border newBorder
  pure created

/-- The revival of an emptied root border by `insert_lv`. -/
def reviveRoot (border : NodeId) : M Unit := do
  when ((← getVersionRoot border) = false) (logError .insertLvProgrammingError)
  setVersionDeleted fuel border false

/-- `insert_lv`: `border` is locked and has no slot of the key. In every case the version pointer given
    to `inserted_node_version_ptr` is that of `border`. -/
def insertLv (ti : TreeId) (border : NodeId) (key : Key) (newValue : LinkOrValue) (rank : Nat) : M LinkOrValue := do
  setVersionInsertingDeleting fuel border true
  let body ← load border .permutation
  let cnk := Permutation.getCnk body
  when (cnk = 0) (reviveRoot fuel border)
  if cnk = keySliceLength then borderSplit fuel ti border key newValue rank
  else do
    let slot ← getEmptySlot border
    let created ← insertLvAt fuel fuel border slot key newValue rank
    versionUnlock fuel border
    pure created

end Yakushima
