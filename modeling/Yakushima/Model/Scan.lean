import Yakushima.Model.Interface

/-! # Range scans (`scan_helper.h`, `interface_scan.h`)

A scan walks the leaf chain of a layer and goes down into the layers behind its links. Its two output
vectors are passed along; a retry cuts them back to the sizes they had where it resumes. -/

namespace Yakushima
open M

variable (fuel : Nat) (retry : M Unit)

/-- The output parameters: `tuple_list` and `node_version_vec`. -/
structure ScanOut where
  tuples : List (Key × ValuePtr × Nat)
  versions : List (Version × NodeId)
deriving DecidableEq, Repr

/-- `clean_up_tuple_list_nvc`: erase what was appended after the sizes of `start`. -/
def ScanOut.cleanUp (out start : ScanOut) : ScanOut :=
  ⟨out.tuples.take start.tuples.length, out.versions.take start.versions.length⟩

/-- The interval of a scan, its limit and whether it collects versions (`node_version_vec` not null). -/
structure ScanArgs where
  lKey : Key
  lEnd : ScanEndpoint
  rKey : Key
  rEnd : ScanEndpoint
  maxSize : Nat
  collect : Bool
deriving DecidableEq, Repr

/-- `node_version_vec->emplace_back`, if the vector is given. -/
def ScanOut.record (out : ScanOut) (args : ScanArgs) (v : Version) (n : NodeId) : ScanOut :=
  if args.collect then { out with versions := out.versions ++ [(v, n)] } else out

/-- `scan_check_retry`: the status and the version to go on with. -/
def scanCheckRetry (bn : NodeId) (vAtFb : Version) : M (Status × Version) := do
  let check ← getStableVersion bn fuel
  if check ≠ vAtFb then do
    retry
    if check.vsplit ≠ vAtFb.vsplit ∨ check.deleted then pure (.okRetryFromRoot, vAtFb)
    else pure (.okRetryAfterFb, check)
  else pure (.ok, vAtFb)

/-- The left bound handed to the layer behind a link, unless all of the layer is below the bound. -/
def leftArg (args : ScanArgs) (ks : KeySlice) : Option (Key × ScanEndpoint) :=
  if args.lEnd = .inf then some ([], .inf)
  else match (KeySlice.ofKey args.lKey).memcmp ks sliceSize with
    | .lt => some ([], .inf)
    | .eq => some (if sliceSize < args.lKey.length then args.lKey.drop sliceSize else [], args.lEnd)
    | .gt => none

/-- The right bound handed to the layer behind a link, unless all of the layer is above the bound. -/
def rightArg (args : ScanArgs) (fullKey : Key) : Option (Key × ScanEndpoint) :=
  if args.rEnd = .inf then some ([], .inf)
  else match memcmp args.rKey fullKey (min args.rKey.length fullKey.length) with
    | .lt => none
    | .eq => if args.rKey.length ≤ fullKey.length then none else some (args.rKey, args.rEnd)
    | .gt => some ([], .inf)

/-- A value entry is below the left bound. -/
def belowLeft (args : ScanArgs) (ks : KeySlice) (kl : Nat) : Bool :=
  if args.lEnd = .inf then false
  else match (KeySlice.ofKey args.lKey).memcmp ks sliceSize with
    | .gt => true
    | .eq => kl < args.lKey.length ∨ (args.lKey.length = kl ∧ args.lEnd = .exclusive)
    | .lt => false

/-- A value entry is within the right bound. -/
def withinRight (args : ScanArgs) (fullKey : Key) : Bool :=
  if args.rEnd = .inf then true
  else match memcmp args.rKey fullKey (min args.rKey.length fullKey.length) with
    | .gt => true
    | .eq => fullKey.length < args.rKey.length ∨ (args.rKey.length = fullKey.length ∧ args.rEnd = .inclusive)
    | .lt => false

/-- The prefix of the layer with the bytes of an entry appended. -/
def appendSlice (keyPrefix : Key) (ks : KeySlice) (kl : Nat) : Key :=
  keyPrefix ++ ks.bytes.take (if kl < sliceSize then kl else sliceSize)

/-- How the loop of `scan_border` over the entries ends: all entries are done, `OK_SCAN_END`, from the
    root again, or this border again under the given version. -/
inductive EntriesEnd where
  | finished (out : ScanOut) (pushed : Bool)
  | scanEnd (out : ScanOut)
  | retryFromRoot
  | retry (vAtFb : Version)

/-- The scan of the layer behind a link: its root, the bounds, the vectors and the key prefix. -/
abbrev LayerScan := Ptr → ScanArgs → ScanOut → Key → M (Status × ScanOut)

/-- `in_range`. -/
def inRange (args : ScanArgs) (bn : NodeId) (vAtFb : Version) (fullKey : Key) (vp : ValuePtr) (out : ScanOut) :
    M (Status × ScanOut) := do
  let len ← getLen vp
  let out := ({ out with tuples := out.tuples ++ [(fullKey, vp, len)] } : ScanOut).record args vAtFb bn
  if args.maxSize ≠ 0 ∧ args.maxSize ≤ out.tuples.length then pure (.okScanEnd, out)
  else pure (.ok, out)

/-- The loop of `scan_border` over the entries of `bn`, given by their slots. -/
def scanEntries (scanNext : LayerScan) (args : ScanArgs) (bn : NodeId) (vAtFb : Version) (keyPrefix : Key) :
    List Nat → ScanOut → Bool → M EntriesEnd
  | [], out, pushed => pure (.finished out pushed)
  | index :: rest, out, pushed => do
    let ks ← load bn (.keySlice index)
    let kl ← load bn (.keyLength index)
    let fullKey := appendSlice keyPrefix ks kl
    let vp ← load bn (.lv index)
    let nextLayer ← load bn (.lv index)
    let (check, v) ← scanCheckRetry fuel retry bn vAtFb
    if check = .okRetryFromRoot then pure .retryFromRoot
    else if check = .okRetryAfterFb then pure (.retry v)
    else if sliceSize < kl then
      match leftArg args ks with
      | none => scanEntries scanNext args bn vAtFb keyPrefix rest out pushed
      | some (lKey, lEnd) => match rightArg args fullKey with
        | none => pure (.scanEnd out)
        | some (rKey, rEnd) => do
          let (st, out) ← scanNext nextLayer.getNextLayer { args with lKey, lEnd, rKey, rEnd } out fullKey
          if st ≠ .ok then do
            retry
            pure (.retry vAtFb)
          else scanEntries scanNext args bn vAtFb keyPrefix rest out pushed
    else if belowLeft args ks kl then scanEntries scanNext args bn vAtFb keyPrefix rest out pushed
    else if withinRight args fullKey then do
      let (st, out) ← inRange args bn vAtFb fullKey vp.getValue out
      if st ≠ .ok then pure (.scanEnd out)
      else scanEntries scanNext args bn vAtFb keyPrefix rest out true
    else pure (.scanEnd (if pushed then out else out.record args vAtFb bn))

/-- `scan_border`: the status, the border and the version to go on with, and the vectors. -/
def scanBorder (scanNext : LayerScan) (args : ScanArgs) (bn : NodeId) (keyPrefix : Key) (start : ScanOut) :
    Nat → Version → M (Status × NodeId × Version × ScanOut)
  | 0, _ => .halt
  | k + 1, vAtFb => do
    let next ← load bn .next
    let body ← load bn .permutation
    match ← scanEntries fuel retry scanNext args bn vAtFb keyPrefix (Permutation.slotsOf body) start false with
    | .scanEnd out => pure (.okScanEnd, bn, vAtFb, out)
    | .retryFromRoot => pure (.okRetryFromRoot, bn, vAtFb, start)
    | .retry v => scanBorder scanNext args bn keyPrefix start k v
    | .finished out pushed => do
      let out := if pushed then out else out.record args vAtFb bn
      let nextVersion ← (match next with
        | some nx => getStableVersion nx fuel
        | none => pure .init)
      let (check, v) ← scanCheckRetry fuel retry bn vAtFb
      if check = .okRetryFromRoot then pure (.okRetryFromRoot, bn, vAtFb, out.cleanUp start)
      else if check = .okRetryAfterFb then scanBorder scanNext args bn keyPrefix start k v
      else match next with
        | none => pure (.okScanEnd, bn, vAtFb, out)
        | some nx => pure (.okScanContinue, nx, nextVersion, out)

/-- The loop of the scan of a layer over its borders; `none` is its `goto retry`. -/
def scanLayerLoop (scanNext : LayerScan) (args : ScanArgs) (keyPrefix : Key) :
    Nat → NodeId → Version → ScanOut → M (Option (Status × ScanOut))
  | 0, _, _, _ => .halt
  | k + 1, bn, v, out => do
    let (st, bn', v', out') ← scanBorder fuel retry scanNext args bn keyPrefix out fuel v
    match st with
    | .okScanEnd => pure (some (.ok, out'))
    | .okScanContinue => scanLayerLoop scanNext args keyPrefix k bn' v' out'
    | .okRetryFromRoot => pure none
    | .okRetryAfterFb => do
      retry
      let re ← getStableVersion bn' fuel
      if v'.vsplit ≠ re.vsplit ∨ re.deleted then pure (some (.okRetryAfterFb, out'))
      else if v'.vinsertDelete ≠ re.vinsertDelete then
        scanLayerLoop scanNext args keyPrefix k bn' re (out'.cleanUp out)
      else scanLayerLoop scanNext args keyPrefix k bn' v' out'
    | _ => scanLayerLoop scanNext args keyPrefix k bn' v' out'

/-- The label `retry` of the scan of a layer. -/
def scanLayerRetry (scanNext : LayerScan) (root : Ptr) (args : ScanArgs) (start : ScanOut) (keyPrefix : Key) :
    Nat → M (Status × ScanOut)
  | 0 => .halt
  | k + 1 => do
    let n ← deref root
    let deleted := (← getBody n).deleted
    let isRoot := (← getBody n).root
    if deleted ∨ isRoot = false then do
      retry
      pure (.okRetryFromRoot, start)
    else do
      -- The size of the key is narrowed to `key_length_type`, one byte.
      let (special, b, v) ← findBorder fuel retry root (.ofKey args.lKey) (args.lKey.length % 256) fuel .ok
      if special = .warnRetryFromRootOfAll then do
        retry
        pure (.okRetryAfterFb, start)
      else do
        let b ← deref b
        match ← scanLayerLoop fuel retry scanNext args keyPrefix fuel b v start with
        | some r => pure r
        | none => do
          retry
          scanLayerRetry scanNext root args start keyPrefix k

/-- `scan` of the layer below a link. -/
def scanLayer : Nat → LayerScan
  | 0 => fun _ _ _ _ => .halt
  | k + 1 => fun root args out keyPrefix => scanLayerRetry fuel retry (scanLayer k) root args out keyPrefix fuel

/-- The loop of the scan of a tree over the borders of its first layer; `none` is `retry_from_root`. -/
def scanLoop (args : ScanArgs) : Nat → NodeId → Version → ScanOut → M (Option (Status × ScanOut))
  | 0, _, _, _ => .halt
  | k + 1, bn, v, out => do
    if v.deleted ∧ v.root then
      pure (some (.ok, ({ out with versions := [] } : ScanOut).record args v bn))
    else do
      let (st, bn', v', out') ← scanBorder fuel retry (scanLayer fuel retry fuel) args bn [] out fuel v
      match st with
      | .okScanEnd => pure (some (.ok, out'))
      | .okScanContinue => scanLoop args k bn' v' out'
      | .okRetryFromRoot => pure none
      | _ => do
        logError .scanUnreachable
        scanLoop args k bn' v' out'

/-- The label `retry_from_root` of the scan of a tree. -/
def scanRetry (ti : TreeId) (args : ScanArgs) : Nat → M (Status × ScanOut)
  | 0 => .halt
  | k + 1 => do
    let root ← op (.loadRoot ti)
    if root = none then pure (.okRootIsNull, ⟨[], []⟩)
    else do
      let (special, b, v) ← findBorder fuel retry root (.ofKey args.lKey) (args.lKey.length % 256) fuel .ok
      if special = .warnRetryFromRootOfAll then do
        retry
        scanRetry ti args k
      else do
        let b ← deref b
        match ← scanLoop fuel retry args fuel b v ⟨[], []⟩ with
        | some r => pure r
        | none => do
          retry
          scanRetry ti args k

/-- `scan` of a tree, into vectors that hold `out`. A `string_view` of a null pointer and a size, which
    the source rejects as well, is no key here. -/
def scan (ti : TreeId) (args : ScanArgs) (out : ScanOut) : M (Status × ScanOut) :=
  if args.lKey = args.rKey ∧ (args.lEnd = .exclusive ∨ args.rEnd = .exclusive) then pure (.errBadUsage, out)
  else scanRetry fuel retry ti args fuel

end Yakushima
