import Yakushima.Model.Split
import Yakushima.Model.Delete

/-! # Point operations (`common_helper.h`, `interface_put.h`, `interface_get.h`, `interface_remove.h`)

The jumps of the source between its labels are the recursive calls of one loop over the labels. -/

namespace Yakushima
open M

variable (fuel : Nat) (retry : M Unit)

/-! ## `find_border` -/

/-- `dynamic_cast<border_node*>(n)`. -/
def toBorder (n : NodeId) : M Ptr := do
  if ← op (.isBorder n) then pure (some n) else pure none

/-- The descent of `find_border` from `n`, whose stable version is `v`: the border and its stable
    version, or null to start again. -/
def descend (slice : KeySlice) (length : Nat) : Nat → NodeId → Version → M (Option (Ptr × Version))
  | 0, _, _ => .halt
  | k + 1, n, v => do
    if v.border then
      let b ← toBorder n
      pure (some (b, v))
    else
      let (child, v) ← getChildOf fuel retry n slice length fuel v
      match child with
      | none => pure none
      | some c => descend slice length k c v

/-- `find_border`. -/
def findBorder (root : Ptr) (slice : KeySlice) (length : Nat) : Nat → Status → M (Status × Ptr × Version)
  | 0, _ => .halt
  | k + 1, special => do
    when (root = none) (logError .findBorderNullRoot)
    let n ← deref root
    let v ← getStableVersion n fuel
    if v.root = false then do
      retry
      pure (.warnRetryFromRootOfAll, none, .init)
    else if v.deleted then do
      let b ← toBorder n
      pure (special, b, v)
    else
      match ← descend fuel retry slice length fuel n v with
      | some (b, v) => pure (special, b, v)
      | none => do
        retry
        findBorder root slice length k .warnConcurrentOperations

/-! ## `get` -/

/-- The labels of `get` and `remove`. -/
inductive Label where
  | retryFromRoot
  | retryFindBorder (root : Ptr) (traverseKey : Key)
  | retryFetchLv (targetBorder : NodeId) (vAtFb : Version) (traverseKey : Key)

/-- The border is gone or may be the wrong one for a key found under `vAtFb`. -/
def Version.wrongNode (v vAtFb : Version) : Bool :=
  v.vsplit ≠ vAtFb.vsplit ∨ (v.deleted ∧ v.root = false)

def getLoop (ti : TreeId) (key : Key) : Nat → Label → M (Status × Option (ValuePtr × Nat))
  | 0, _ => .halt
  | k + 1, .retryFromRoot => do
    let root ← op (.loadRoot ti)
    if root = none then pure (.warnNotExist, none)
    else getLoop ti key k (.retryFindBorder root key)
  | k + 1, .retryFindBorder root traverseKey => do
    when (root = none) (logError .unexpectedProcess)
    let (special, targetBorder, vAtFb) ←
      findBorder fuel retry root (.ofKey traverseKey) (keyLength traverseKey) fuel .ok
    if special = .warnRetryFromRootOfAll then do
      retry
      getLoop ti key k .retryFromRoot
    else do
      let b ← deref targetBorder
      getLoop ti key k (.retryFetchLv b vAtFb traverseKey)
  | k + 1, .retryFetchLv b vAtFb traverseKey => do
    let (lvPos, vAtFetchLv) ← getLvOf fuel retry b (.ofKey traverseKey) (keyLength traverseKey)
    if vAtFetchLv.wrongNode vAtFb then do
      retry
      getLoop ti key k .retryFromRoot
    else match lvPos with
      | none => pure (.warnNotExist, none)
      | some pos => do
        let length ← load b (.keyLength pos)
        let lv ← load b (.lv pos)
        let finalCheck ← getStableVersion b fuel
        if finalCheck.wrongNode vAtFb then do
          retry
          getLoop ti key k .retryFromRoot
        else if finalCheck.vinsertDelete ≠ vAtFetchLv.vinsertDelete then do
          retry
          getLoop ti key k (.retryFetchLv b vAtFb traverseKey)
        else if length ≤ sliceSize then do
          let len ← getLen lv.getValue
          pure (.ok, some (lv.getValue, len))
        else getLoop ti key k (.retryFindBorder lv.getNextLayer (traverseKey.drop sliceSize))

/-- `get`: the status and, on success, the body pointer and the length. -/
def get (ti : TreeId) (key : Key) : M (Status × Option (ValuePtr × Nat)) := getLoop fuel retry ti key fuel .retryFromRoot

/-! ## `remove` -/

def removeLoop (token : Token) (ti : TreeId) (key : Key) : Nat → Label → M Status
  | 0, _ => .halt
  | k + 1, .retryFromRoot => do
    let root ← op (.loadRoot ti)
    if root = none then pure .okRootIsNull
    else removeLoop token ti key k (.retryFindBorder root key)
  | k + 1, .retryFindBorder root traverseKey => do
    when (root = none) (logError .unexpectedProcess)
    let (special, targetBorder, vAtFb) ←
      findBorder fuel retry root (.ofKey traverseKey) (keyLength traverseKey) fuel .ok
    if special = .warnRetryFromRootOfAll then do
      retry
      removeLoop token ti key k .retryFromRoot
    else match targetBorder with
      | none => do
        retry
        removeLoop token ti key k .retryFromRoot
      | some b => removeLoop token ti key k (.retryFetchLv b vAtFb traverseKey)
  | k + 1, .retryFetchLv b vAtFb traverseKey => do
    let slice := KeySlice.ofKey traverseKey
    let (lvPos, vAtFetchLv) ← getLvOf fuel retry b slice (keyLength traverseKey)
    if vAtFetchLv.wrongNode vAtFb then do
      retry
      removeLoop token ti key k .retryFromRoot
    else match lvPos with
      | none => do
        let finalCheck ← getStableVersion b fuel
        if finalCheck.vinsertDelete ≠ vAtFetchLv.vinsertDelete then do
          retry
          removeLoop token ti key k (.retryFetchLv b vAtFb traverseKey)
        else pure .okNotFound
      | some pos => do
        let length ← load b (.keyLength pos)
        if length ≤ sliceSize then do
          lock b fuel
          let finalCheck ← getBody b
          if finalCheck.wrongNode vAtFb then do
            versionUnlock fuel b
            retry
            removeLoop token ti key k .retryFromRoot
          else if finalCheck.vinsertDelete ≠ vAtFetchLv.vinsertDelete then do
            versionUnlock fuel b
            retry
            removeLoop token ti key k (.retryFetchLv b vAtFb traverseKey)
          else
            -- The key may have been deleted meanwhile: deletions are not counted.
            match ← getLvOfWithoutLock b slice (keyLength traverseKey) with
            | none => do
              versionUnlock fuel b
              pure .okNotFound
            | some _ => do
              borderDeleteOf fuel token ti fuel b slice (keyLength traverseKey) true
              pure .ok
        else do
          let lv ← load b (.lv pos)
          let finalCheck ← getStableVersion b fuel
          if finalCheck.wrongNode vAtFb then do
            retry
            removeLoop token ti key k .retryFromRoot
          else if finalCheck.vinsertDelete ≠ vAtFetchLv.vinsertDelete then do
            retry
            removeLoop token ti key k (.retryFetchLv b vAtFb traverseKey)
          else removeLoop token ti key k (.retryFindBorder lv.getNextLayer (traverseKey.drop sliceSize))

def remove (token : Token) (ti : TreeId) (key : Key) : M Status := removeLoop fuel retry token ti key fuel .retryFromRoot

/-! ## `put` -/

/-- The arguments of `put` that its loop keeps. -/
structure PutArgs where
  key : Key
  value : ValueArg
  uniqueRestriction : Bool
deriving DecidableEq, Repr

/-- `kIsInline`. -/
def ValueArg.isInline : ValueArg → Bool
  | .word _ => true
  | .heap _ _ => false

/-- What `put` gives back: the status, `created_value_ptr` and the node whose version
    `inserted_node_version_ptr` points to. -/
structure PutResult where
  status : Status
  created : Option LinkOrValue
  insertedNode : Ptr
deriving DecidableEq, Repr

/-- The null root branch of `put` up to the publication of the new border. -/
def putNewBorder (args : PutArgs) : M (NodeId × LinkOrValue) := do
  let newBorder ← op (.newNode .border)
  let v ← createValue args.value
  let slot ← initBorderHead fuel newBorder true
  let created ← insertLvAt fuel fuel newBorder slot args.key v 0
  pure (newBorder, created)

/-- The update path of `put`, on the locked border: store the value into the slot and release the lock;
    the old block of a heap value goes to the garbage container. -/
def putUpdate (token : Token) (args : PutArgs) (b pos : NodeId) : M PutResult := do
  let v ← createValue args.value
  let (created, old) ← setValue b pos v (!args.value.isInline)
  versionUnlock fuel b
  (match old with
    | some o => pushValueContainer token o
    | none => pure ())
  pure ⟨.ok, some created, none⟩

/-- The labels of `put`. -/
inductive PutLabel where
  | rootNullptr
  | retryFromRoot
  | retryFindBorder (root : Ptr) (traverseKey : Key)
  | retryFetchLv (targetBorder : NodeId) (vAtFb : Version) (traverseKey : Key)

/-- The loop that publishes the new border, and whether it did: a compare-and-swap that failed although the root is
    still null is tried again with the same border. -/
def publishRoot (ti : TreeId) (newBorder : NodeId) : Nat → M Bool
  | 0 => .halt
  | k + 1 => do
    let (stored, expected) ← op (.casRoot ti none (some newBorder))
    if stored then pure true
    else if expected ≠ none then pure false
    else publishRoot ti newBorder k

/-- The border is gone, or may be the wrong one for a key found under `vAtFb`: the test of `put` on the version as it is
    now, with a load for each of its reads. -/
def nowWrongNode (b : NodeId) (vAtFb : Version) : M Bool := do
  let gone ← (do
    if ← getVersionDeleted b then pure (!(← getVersionRoot b))
    else pure false)
  if gone then pure true
  else pure (decide ((← getVersionVsplit b) ≠ vAtFb.vsplit))

/-- What `put` tests of its target border before it relies on the slot fetched under `vAtFetchLv`: the label to go back
    to, if there is one. -/
def recheck (b : NodeId) (vAtFb vAtFetchLv : Version) (traverseKey : Key) : M (Option PutLabel) := do
  if ← nowWrongNode b vAtFb then pure (some .retryFromRoot)
  else do
    let vinsertDelete ← getVersionVinsertDelete b
    if vinsertDelete ≠ vAtFetchLv.vinsertDelete then pure (some (.retryFetchLv b vAtFb traverseKey))
    else pure none

/-- `put` from one of its labels. -/
def putLoop (token : Token) (ti : TreeId) (args : PutArgs) : Nat → PutLabel → M PutResult
  | 0, _ => .halt
  | k + 1, .rootNullptr => do
    let expected ← op (.loadRoot ti)
    if expected = none then do
      let (newBorder, created) ← putNewBorder fuel args
      if ← publishRoot ti newBorder fuel then pure ⟨.ok, some created, some newBorder⟩
      else do
        destroy fuel newBorder
        op (.deleteNode newBorder)
        retry
        putLoop token ti args k .retryFromRoot
    else putLoop token ti args k .retryFromRoot
  | k + 1, .retryFromRoot => do
    let root ← op (.loadRoot ti)
    if root = none then putLoop token ti args k .rootNullptr
    else putLoop token ti args k (.retryFindBorder root args.key)
  | k + 1, .retryFindBorder root traverseKey => do
    when (root = none) (logError .unexpectedProcess)
    let (special, targetBorder, vAtFb) ←
      findBorder fuel retry root (.ofKey traverseKey) (keyLength traverseKey) fuel .ok
    if special = .warnRetryFromRootOfAll ∧ ¬(vAtFb.root ∧ vAtFb.deleted) then do
      retry
      putLoop token ti args k .retryFromRoot
    else do
      let b ← deref targetBorder
      putLoop token ti args k (.retryFetchLv b vAtFb traverseKey)
  | k + 1, .retryFetchLv b vAtFb traverseKey => do
    let slice := KeySlice.ofKey traverseKey
    let length := keyLength traverseKey
    let (lvPos, vAtFetchLv) ← getLvOf fuel retry b slice length
    if vAtFetchLv.wrongNode vAtFb then do
      retry
      putLoop token ti args k .retryFromRoot
    else match lvPos with
      | none => do
        lock b fuel
        match ← recheck b vAtFb vAtFetchLv traverseKey with
        | some label => do
          versionUnlock fuel b
          retry
          putLoop token ti args k label
        | none => do
          let value ← createValue args.value
          let rank ← computeRankIfInsert b slice length
          let created ← insertLv fuel ti b traverseKey value rank
          pure ⟨.ok, some created, some b⟩
      | some pos => do
        let targetLength ← load b (.keyLength pos)
        if targetLength ≤ sliceSize ∧ length ≤ sliceSize then
          if args.uniqueRestriction then pure ⟨.warnUniqueRestriction, none, none⟩
          else do
            lock b fuel
            match ← recheck b vAtFb vAtFetchLv traverseKey with
            | some label => do
              versionUnlock fuel b
              retry
              putLoop token ti args k label
            | none => putUpdate fuel token args b pos
        else do
          -- A slot of length at most 8 found for a longer key: a parallel operation came between.
          let interrupted ← (if targetLength ≤ sliceSize then recheck b vAtFb vAtFetchLv traverseKey else pure none)
          match interrupted with
          | some label => do
            retry
            putLoop token ti args k label
          | none => do
            let lv ← load b (.lv pos)
            let finalCheck ← getStableVersion b fuel
            if finalCheck.wrongNode vAtFb then do
              retry
              putLoop token ti args k .retryFromRoot
            else if finalCheck.vinsertDelete ≠ vAtFetchLv.vinsertDelete then do
              retry
              putLoop token ti args k (.retryFetchLv b vAtFb traverseKey)
            else do
              when (lv.getNextLayer = none) (logError .unexpectedProcess)
              putLoop token ti args k (.retryFindBorder lv.getNextLayer (traverseKey.drop sliceSize))

def put (token : Token) (ti : TreeId) (args : PutArgs) : M PutResult :=
  putLoop fuel retry token ti args fuel .rootNullptr

end Yakushima
