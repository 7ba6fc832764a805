import Yakushima.Model.Value

/-! # Nodes (`version.h`, `base_node.h`, `interior_node.h`, `border_node.h`)

The member functions of the nodes, as programs. Every loop that waits or retries takes a bound on its
rounds and halts when it runs out; `fuel` is this bound in all of them. What the holder of a node's
lock reads of the permutation and of the next pointer cannot change under it, so one load stands for its
repeated reads. `retry` is what a function does before it jumps back to an earlier point of its source: it
is nothing in the code, and marks the places where a concurrent operation was noticed. -/

namespace Yakushima
open M

variable (fuel : Nat) (retry : M Unit)

/-! ## Version words -/

/-- `node_version64::get_body`. -/
def getBody (n : NodeId) : M Version := load n .version

/-! `get_version_border`, `get_version_deleted`, `get_version_root`, `get_version_vinsert_delete` and
`get_version_vsplit`: each is a load of the word of its own. -/

def getVersionBorder (n : NodeId) : M Bool := do pure (← getBody n).border

def getVersionDeleted (n : NodeId) : M Bool := do pure (← getBody n).deleted

def getVersionRoot (n : NodeId) : M Bool := do pure (← getBody n).root

def getVersionVinsertDelete (n : NodeId) : M Nat := do pure (← getBody n).vinsertDelete

def getVersionVsplit (n : NodeId) : M Nat := do pure (← getBody n).vsplit

/-- `p->get_version_deleted() || p != f`: whether the node `p` found in the member `f` of `n` is gone. -/
def isStale (n p : NodeId) (f : Field Ptr) : M Bool := do
  if ← getVersionDeleted p then pure true
  else do
    let check ← load n f
    pure (decide (check ≠ some p))

/-- The loop shared by `unlock`, `atomic_inc_vinsert` and the setters: try to store `f expected` over
    `expected`, and start again from the word found. -/
def casLoop (n : NodeId) (f : Version → Version) : Nat → Version → M Unit
  | 0, _ => .halt
  | fuel + 1, expected => do
    let (stored, found) ← op (.casVersion n expected (f expected))
    if stored then pure () else casLoop n f fuel found

def atomicUpdate (n : NodeId) (f : Version → Version) : M Unit := do
  let expected ← getBody n
  casLoop n f fuel expected

def atomicIncVinsert (n : NodeId) : M Unit := atomicUpdate fuel n Version.incVinsertDelete

def setVersionBorder (n : NodeId) (tf : Bool) : M Unit := atomicUpdate fuel n (Version.setBorder tf)

def setVersionDeleted (n : NodeId) (tf : Bool) : M Unit := atomicUpdate fuel n (Version.setDeleted tf)

def setVersionInsertingDeleting (n : NodeId) (tf : Bool) : M Unit :=
  atomicUpdate fuel n (Version.setInsertingDeleting tf)

/-- `set_version_root` and `atomic_set_version_root`. -/
def setVersionRoot (n : NodeId) (tf : Bool) : M Unit := atomicUpdate fuel n (Version.setRoot tf)

def setVersionSplitting (n : NodeId) (tf : Bool) : M Unit := atomicUpdate fuel n (Version.setSplitting tf)

/-- `unlock` and `version_unlock`. -/
def versionUnlock (n : NodeId) : M Unit := atomicUpdate fuel n Version.unlocked

/-- `node_version64::lock`; the pauses of its inner and outer loop are no steps. -/
def lock (n : NodeId) : Nat → M Unit
  | 0 => .halt
  | fuel + 1 => do
    let expected ← getBody n
    if expected.locked then lock n fuel
    else
      let (stored, _) ← op (.casVersion n expected (Version.setLocked true expected))
      if stored then pure () else lock n fuel

/-- `node_version64::get_stable_version`. -/
def getStableVersion (n : NodeId) : Nat → M Version
  | 0 => .halt
  | fuel + 1 => do
    let sv ← getBody n
    if sv.stable then pure sv else getStableVersion n fuel

/-! ## `base_node` -/

/-- The loop of `lock_parent`, from the parent it read last. -/
def lockParentLoop (n : NodeId) : Nat → Ptr → M Ptr
  | 0, _ => .halt
  | _ + 1, none => pure none
  | k + 1, some p => do
    lock p fuel
    let check ← load n .parent
    if check = some p then pure (some p)
    else
      versionUnlock fuel p
      lockParentLoop n k check

def lockParent (n : NodeId) : M Ptr := do
  let p ← load n .parent
  lockParentLoop fuel n fuel p

def setKey (n : NodeId) (index : Nat) (slice : KeySlice) (length : Nat) : M Unit := do
  store n (.keySlice index) slice
  store n (.keyLength index) length

/-- A loop over positions that runs one body for each. -/
def forEach {α : Type} (body : α → M Unit) : List α → M Unit
  | [] => pure ()
  | i :: is => do
    body i
    forEach body is

def moveKeyToBaseRange (n right : NodeId) (start : Nat) : M Unit :=
  forEach (fun i => do
    let slice ← load n (.keySlice i)
    let length ← load n (.keyLength i)
    setKey right (i - start) slice length
    setKey n i .zero 0) (List.range' start (keySliceLength - start))

/-! ## `interior_node` -/

/-- `init_interior` of a node that was just allocated: its members are as `init_base` and the fills
    leave them. -/
def initInterior (n : NodeId) : M Unit := setVersionBorder fuel n false

/-- The go-left test of `get_child_of`. -/
def goLeft (slice : KeySlice) (length : Nat) (pivot : KeySlice) (pivotLength : Nat) : Bool :=
  let compLength := if length < pivotLength then length else pivotLength
  match slice.memcmp pivot (if sliceSize < compLength then sliceSize else compLength) with
  | .lt => true
  | .eq => length < pivotLength
  | .gt => false

/-- The search loop of `get_child_of`: the child left of the first pivot above the key. -/
def searchChild (n : NodeId) (slice : KeySlice) (length : Nat) : List Nat → M Ptr
  | [] => pure none
  | i :: is => do
    let pivotLength ← load n (.keyLength i)
    let pivot ← load n (.keySlice i)
    if goLeft slice length pivot pivotLength then load n (.child i)
    else searchChild n slice length is

/-- The last child stands in when the search found none. -/
def orLastChild (n : NodeId) (nKey : Nat) : Ptr → M Ptr
  | some c => pure (some c)
  | none => load n (.child nKey)

/-- `get_child_of`: the child and its version, or null to start again from the root. -/
def getChildOf (n : NodeId) (slice : KeySlice) (length : Nat) : Nat → Version → M (Ptr × Version)
  | 0, _ => .halt
  | k + 1, v => do
    let nKey ← load n .nKeys
    let left ← searchChild n slice length (List.range nKey)
    let ret ← orLastChild n nKey left
    match ret with
    | none => do
      retry
      pure (none, v)
    | some c =>
      let childV ← getStableVersion c fuel
      let checkV ← getStableVersion n fuel
      if v = checkV ∧ childV.deleted = false then pure (some c, childV)
      else do
        retry
        if v.vsplit ≠ checkV.vsplit ∨ checkV.deleted then pure (none, v)
        else getChildOf n slice length k checkV

/-- The comparison of `interior_node::insert` and `interior_split`. -/
def pivotLess (slice : KeySlice) (length : Nat) (pivot : KeySlice) (pivotLength : Nat) : Bool :=
  let compLength := if sliceSize < length ∧ sliceSize < pivotLength then 8
    else if length < pivotLength then length else pivotLength
  match slice.memcmp pivot compLength with
  | .lt => true
  | .eq => length < pivotLength
  | .gt => false

/-- `shift_right_children`. -/
def shiftRightChildren (n : NodeId) (start : Nat) : M Unit := do
  let nKey ← load n .nKeys
  forEach (fun i => do
    let c ← load n (.child (i - 1))
    store n (.child i) c) (List.range' (start + 1) (nKey + 1 - start)).reverse

/-- `shift_left_children`. -/
def shiftLeftChildren (n : NodeId) (start size : Nat) : M Unit :=
  forEach (fun i => do
    let c ← load n (.child i)
    store n (.child (i - size)) c) (List.range' start (childLength - start))

def nKeysIncrement (n : NodeId) : M Unit := op (.fetchAddNKeys n 1)

def nKeysDecrement (n : NodeId) : M Unit := op (.fetchAddNKeys n 255)

/-- The search of `interior_node::insert`: the first pivot above the new one. -/
def searchPivot (n : NodeId) (slice : KeySlice) (length : Nat) : List Nat → M (Option Nat)
  | [] => pure none
  | i :: is => do
    let pivotLength ← load n (.keyLength i)
    let pivot ← load n (.keySlice i)
    if pivotLess slice length pivot pivotLength then pure (some i)
    else searchPivot n slice length is

/-- `interior_node::insert`. -/
def interiorInsert (n child : NodeId) (slice : KeySlice) (length : Nat) : M Unit := do
  setVersionInsertingDeleting fuel n true
  let nKey ← load n .nKeys
  match ← searchPivot n slice length (List.range nKey) with
  | some i =>
    op (.shiftRightKeys n i 1)
    setKey n i slice length
    shiftRightChildren n (i + 1)
    store n (.child (i + 1)) (some child)
    nKeysIncrement n
  | none =>
    setKey n nKey slice length
    store n (.child (nKey + 1)) (some child)
    nKeysIncrement n

def moveChildrenToInteriorRange (n right : NodeId) (start : Nat) : M Unit :=
  forEach (fun i => do
    let c ← load n (.child i)
    store right (.child (i - start)) c
    let c ← deref c
    store c .parent (some right)
    store n (.child i) none) (List.range' start (childLength - start))

/-- The search of `swap_child`. -/
def swapChildLoop (n : NodeId) (old new : Ptr) : List Nat → M Unit
  | [] => logError .swapChildUnreachable
  | i :: is => do
    let c ← load n (.child i)
    if c = old then store n (.child i) new else swapChildLoop n old new is

def swapChild (n : NodeId) (old new : Ptr) : M Unit := swapChildLoop n old new (List.range childLength)

/-! ## `border_node` -/

/-- `init_border()` of a node that was just allocated. -/
def initBorder (n : NodeId) : M Unit := do
  setVersionRoot fuel n true
  setVersionBorder fuel n true

/-- `init_border(pos)`. -/
def initBorderAt (n : NodeId) (pos : Nat) : M Unit := do
  setKey n pos .zero 0
  store n (.lv pos) .empty

/-- `permutation::get_empty_slot`: the bitset rejects an index of 15. -/
def getEmptySlot (n : NodeId) : M Nat := do
  let body ← load n .permutation
  if (Permutation.slotsOf body).all (· < keySliceLength) then
    match Permutation.getEmptySlot body with
    | some i => pure i
    | none => do
      logError .getEmptySlotProgrammingError
      pure 0
  else .halt

def incKeyNum (n : NodeId) : M Unit := do
  let body ← load n .permutation
  when (keySliceLength ≤ Permutation.getCnk body) (logError .incKeyNumOverflow)
  store n .permutation (Permutation.incKeyNum body)

def insertRank (n : NodeId) (rank pos : Nat) : M Unit := do
  let body ← load n .permutation
  store n .permutation (Permutation.insert body rank pos)

def deleteRank (n : NodeId) (rank : Nat) : M Unit := do
  let body ← load n .permutation
  store n .permutation (Permutation.deleteRank body rank)

/-- The source does not look for a count of 0 here; the model reports it. -/
def decKeyNum (n : NodeId) : M Unit := do
  let body ← load n .permutation
  when (Permutation.getCnk body = 0) (logError .decKeyNumUnderflow)
  store n .permutation (Permutation.decKeyNum body)

/-- What a key does at one live slot, in the lookups: it is there, it is not in the node, or the loop
    goes on. -/
inductive Probe where
  | hit | miss | next
deriving DecidableEq

/-- The comparison of `get_lv_of` and `get_lv_of_without_lock` at one slot. -/
def probe (slice : KeySlice) (length : Nat) (target : KeySlice) (targetLength : Nat) : Probe :=
  if length = 0 ∧ targetLength = 0 then .hit
  else match slice.memcmp target sliceSize with
    | .eq => if (sliceSize < length ∧ sliceSize < targetLength) ∨ length = targetLength then .hit
      else if length < targetLength then .miss else .next
    | .lt => .miss
    | .gt => .next

/-- One pass of `get_lv_of` over the live slots. -/
def searchLv (n : NodeId) (slice : KeySlice) (length : Nat) : List Nat → M (Option Nat)
  | [] => pure none
  | index :: rest => do
    let target ← load n (.keySlice index)
    let targetLength ← load n (.keyLength index)
    match probe slice length target targetLength with
    | .hit => pure (some index)
    | .miss => pure none
    | .next => searchLv n slice length rest

/-- The loop of `get_lv_of`, from the stable version it took last. -/
def getLvOfLoop (n : NodeId) (slice : KeySlice) (length : Nat) : Nat → Version → M (Option Nat × Version)
  | 0, _ => .halt
  | k + 1, v => do
    let body ← load n .permutation
    let pos ← searchLv n slice length (Permutation.slotsOf body)
    let vCheck ← getStableVersion n fuel
    if v = vCheck then pure (pos, v)
    else do
      retry
      getLvOfLoop n slice length k vCheck

/-- `get_lv_of`: the slot (`lv_pos`) or null, and the version it was found under. -/
def getLvOf (n : NodeId) (slice : KeySlice) (length : Nat) : M (Option Nat × Version) := do
  let v ← getStableVersion n fuel
  getLvOfLoop fuel retry n slice length fuel v

/-- The loop of `get_lv_of_without_lock`; unlike `get_lv_of` it does not stop at a hit. -/
def searchLvWithoutLock (n : NodeId) (slice : KeySlice) (length : Nat) : Option Nat → List Nat → M (Option Nat)
  | found, [] => pure found
  | found, index :: rest => do
    let target ← load n (.keySlice index)
    let targetLength ← load n (.keyLength index)
    match probe slice length target targetLength with
    | .hit => searchLvWithoutLock n slice length (some index) rest
    | .miss => pure found
    | .next => searchLvWithoutLock n slice length found rest

def getLvOfWithoutLock (n : NodeId) (slice : KeySlice) (length : Nat) : M (Option Nat) := do
  let body ← load n .permutation
  searchLvWithoutLock n slice length none (Permutation.slotsOf body)

/-- The search of `get_lv(next_layer)`, over all slots. -/
def getLvLoop (n : NodeId) (nextLayer : NodeId) : List Nat → M (Option Nat)
  | [] => do
    logError .getLvNotFound
    pure none
  | i :: is => do
    let lv ← load n (.lv i)
    if lv.getNextLayer = some nextLayer then pure (some i) else getLvLoop n nextLayer is

def getLv (n : NodeId) (nextLayer : NodeId) : M (Option Nat) := getLvLoop n nextLayer (List.range keySliceLength)

/-- `lv->set_next_layer(node)` through the answer of `get_lv`; a null answer faults. -/
def setNextLayer (n : NodeId) (pos : Option Nat) (node : NodeId) : M Unit :=
  match pos with
  | some i => store n (.lv i) (.link node)
  | none => .halt

/-- The loop of `compute_rank_if_insert`, from rank `i`. -/
def computeRankLoop (n : NodeId) (slice : KeySlice) (length : Nat) : Nat → List Nat → M Nat
  | i, [] => pure i
  | i, index :: rest => do
    let target ← load n (.keySlice index)
    let targetLength ← load n (.keyLength index)
    if length = 0 ∧ targetLength = 0 then do
      logError .computeRankUnexpectedPath
      pure 0
    else match slice.memcmp target sliceSize with
      | .eq =>
        if (sliceSize < length ∧ sliceSize < targetLength) ∨ length = targetLength then do
          logError .computeRankUnexpectedPath
          pure 0
        else if length < targetLength then pure i
        else computeRankLoop n slice length (i + 1) rest
      | .lt => pure i
      | .gt => computeRankLoop n slice length (i + 1) rest

def computeRankIfInsert (n : NodeId) (slice : KeySlice) (length : Nat) : M Nat := do
  let body ← load n .permutation
  computeRankLoop n slice length 0 (Permutation.slotsOf body)

/-! ## Values (`value.h`, `link_or_value.h`) -/

/-- The value given to `put`: an inline word, or the bytes of a heap value and its alignment. -/
inductive ValueArg where
  | word (w : Size)
  | heap (bytes : List UInt8) (align : Nat)
deriving DecidableEq, Repr

/-- The node or the block at an address: the one of identity `n` is at the address `n + 1`. -/
def identityOf (address : Size) : Nat := address.toNat - 1

/-- What a slot holds when the word is stored in it, by the tests of `get_next_layer`, `get_value` and
    `is_value_ptr`. -/
def LinkOrValue.ofWord (w : Size) : LinkOrValue :=
  if Slot.getNextLayer w ≠ 0 then .link (identityOf (Slot.getNextLayer w))
  else if Slot.getValue w ≠ w then .empty
  else if Value.isValuePtr w then .value (.heap (identityOf (Value.removePtrFlag w)))
  else .value (.word (Fin.ofNat (2 ^ 62) w.toNat))

/-- The bytes of a number of `width` bytes in memory, the lowest one first. -/
def bytesOf (width n : Nat) : List UInt8 := (List.range width).map fun i => UInt8.ofNat (n / 256 ^ i)

def numberOf (bytes : List UInt8) : Nat := bytes.foldr (fun b n => b.toNat + 256 * n) 0

/-- The block that `create_value` makes: the header that the constructor of `value` stores, and the body that is copied
    to the position `align_`. The members `len_`, `align_` and `need_delete_` are the bytes 0 to 6 of the block. -/
def blockOf (bytes : List UInt8) (align : Nat) : Block :=
  let stored := (if align < 8 then 8 else align) % 2 ^ 16
  if 8 ≤ stored then ⟨bytes.length % 2 ^ 32, stored, true, bytes⟩
  else
    -- The alignment did not fit: the body falls on the header, whose members are then what the copy left there.
    let header := bytesOf 4 bytes.length ++ bytesOf 2 stored ++ [1, 0]
    let page := header.take stored ++ bytes ++ header.drop (stored + bytes.length)
    let found := numberOf ((page.drop 4).take 2)
    ⟨numberOf (page.take 4), found, page.getD 6 0 ≠ 0, page.drop found⟩

namespace ValueArg

/-- The tag bits of an inline word are clear. -/
def Clear : ValueArg → Prop
  | word w => w.toNat < 2 ^ 62
  | heap _ _ => True

/-- Moreover the header of a heap value has room for its length and its alignment. -/
def Representable : ValueArg → Prop
  | word w => w.toNat < 2 ^ 62
  | heap bytes align => bytes.length < 2 ^ 32 ∧ align < 2 ^ 16

instance instDecidableClear : DecidablePred Clear
  | word w => inferInstanceAs (Decidable (w.toNat < 2 ^ 62))
  | heap _ _ => .isTrue trivial

instance instDecidableRepresentable : DecidablePred Representable
  | word w => inferInstanceAs (Decidable (w.toNat < 2 ^ 62))
  | heap bytes align => inferInstanceAs (Decidable (bytes.length < 2 ^ 32 ∧ align < 2 ^ 16))

end ValueArg

/-- `value::create_value`: the `value*` as the slot will read it. -/
def createValue : ValueArg → M LinkOrValue
  | .word w => pure (.ofWord w)
  | .heap bytes align => do
    let v ← op (.newBlock (blockOf bytes align))
    pure (ValuePtr.heap v)

/-- `value::need_delete`. -/
def needDelete : ValuePtr → M Bool
  | .word _ => pure false
  | .heap v => do
    let b ← op (.loadBlock v)
    pure b.needDelete

/-- `value::get_len`. -/
def getLen : ValuePtr → M Nat
  | .word _ => pure 8
  | .heap v => do
    let b ← op (.loadBlock v)
    pure b.len

/-- The block size that `get_gc_info` computes in 32 bits. -/
def Block.gcSize (b : Block) : Nat := (b.len + b.align) % 2 ^ 32

/-- `push_value_container` with what `get_gc_info` answers. -/
def pushValueContainer (token : Token) (v : ValueId) : M Unit := do
  let b ← op (.loadBlock v)
  op (.pushValue token v b.gcSize b.align)

/-- What `set_value` does with the value it finds: a block that is still owned goes to the caller if it
    passes `old_value` (`keepOld`), else it is deleted. -/
def takeOldValue (keepOld : Bool) : ValuePtr → M (Option ValueId)
  | .word _ => pure none
  | .heap v => do
    if ← needDelete (.heap v) then
      if keepOld then pure (some v)
      else do
        op (.deleteBlock v)
        pure none
    else pure none

/-- `link_or_value::set_value`: the body pointer for `created_value_ptr`, and the block for `old_value`. -/
def setValue (n : NodeId) (pos : Nat) (new : LinkOrValue) (keepOld : Bool) : M (LinkOrValue × Option ValueId) := do
  let lv ← load n (.lv pos)
  let old ← takeOldValue keepOld lv.getValue
  store n (.lv pos) new
  pure (new, old)

/-- The part of `delete_at` for a slot that holds a value: a heap block is handed to the garbage
    container and the slot is cleared. -/
def releaseValue (token : Token) (n : NodeId) (pos : Nat) : M Unit := do
  let lv ← load n (.lv pos)
  match lv.getValue with
  | .heap v => do
    op (.removeDeleteFlag v)
    pushValueContainer token v
    store n (.lv pos) .empty
  | .word _ => pure ()

/-- `border_node::delete_at`. -/
def deleteAt (token : Token) (n : NodeId) (rank pos : Nat) (targetIsValue : Bool) : M Unit := do
  when targetIsValue (releaseValue token n pos)
  deleteRank n rank
  decKeyNum n

/-- `init_border(key_view, new_value, created_value_ptr, root)` up to its `insert_lv_at`: the slot that
    it inserts into. -/
def initBorderHead (n : NodeId) (root : Bool) : M Nat := do
  initBorder fuel n
  setVersionRoot fuel n root
  atomicIncVinsert fuel n
  getEmptySlot n

/-- `insert_lv_at`, with the chain of `init_border` calls that a key longer than a slice makes: each
    round stores one slice and, unless it is the last, allocates the root border of the next layer.
    It answers the body pointer for `created_value_ptr`. -/
def insertLvAt : Nat → NodeId → Nat → Key → LinkOrValue → Nat → M LinkOrValue
  | 0, _, _, _, _, _ => .halt
  | k + 1, n, index, key, newValue, rank => do
    let created ← (
      if sliceSize < key.length then do
        store n (.keySlice index) (.ofKey key)
        store n (.keyLength index) (sliceSize + 1)
        let nextLayerBorder ← op (.newNode .border)
        let slot ← initBorderHead fuel nextLayerBorder true
        let created ← insertLvAt k nextLayerBorder slot (key.drop sliceSize) newValue 0
        store nextLayerBorder .parent (some n)
        store n (.lv index) (.link nextLayerBorder)
        pure created
      else do
        store n (.keySlice index) (.ofKey key)
        store n (.keyLength index) key.length
        let (created, _) ← setValue n index newValue false
        pure created)
    incKeyNum n
    insertRank n rank index
    pure created

end Yakushima
