import Mathlib.Algebra.Ring.Nat
import Mathlib.Data.List.Basic

/-! # Statuses, endpoints and key slices (`scheme.h`)

A key is a string of bytes. Inside one layer of the tree it is known by its slice, the first eight
bytes in memory order padded with zeros, and its length, which is 9 for every key longer than eight
bytes (`interface_put.h`, "prepare key_slice"). -/

namespace Yakushima

/-- `status` (`scheme.h`). -/
inductive Status where
  | warnBadUsage | warnConcurrentOperations | warnExist | warnNotExist | warnInvalidToken
  | warnRetryFromRootOfAll | warnStorageNotExist | warnMaxSessions | warnUniqueRestriction
  | ok | okDestroyAll | okDestroyBorder | okDestroyInterior | okNotFound | okRetryFetchLv
  | okRetryAfterFb | okRetryFromRoot | okRootIsDeleted | okRootIsNull | okScanContinue | okScanEnd
  | errArgument | errBadUsage | errBoundary | errFatal | errUnknownRoot
deriving DecidableEq, Repr

/-- `scan_endpoint` (`scheme.h`). -/
inductive ScanEndpoint where
  | exclusive | inclusive | inf
deriving DecidableEq, Repr

/-- `key_slice_length`: the number of slots of a border and of pivots of an interior. -/
def keySliceLength : Nat := 15

/-- `child_length` (`interior_node.h`). -/
def childLength : Nat := keySliceLength + 1

/-- `sizeof(key_slice_type)`. -/
def sliceSize : Nat := 8

abbrev Key := List UInt8

/-- `key_slice_type`: eight bytes, read and written only by `memcpy` and `memcmp`. -/
structure KeySlice where
  bytes : List UInt8
  size : bytes.length = 8
deriving DecidableEq, Repr

namespace KeySlice

/-- `key_slice_type key_slice(0)`. -/
def zero : KeySlice := ⟨List.replicate 8 0, rfl⟩

instance : Inhabited KeySlice := ⟨zero⟩

/-- `memcpy` of the first eight bytes, or of all of a shorter key, into a zeroed slice. -/
def ofKey (k : Key) : KeySlice :=
  ⟨(k ++ List.replicate 8 0).take 8, by simp⟩

end KeySlice

/-- `memcmp(a, b, n)`: the first difference among the first `n` bytes decides. -/
def memcmp : List UInt8 → List UInt8 → Nat → Ordering
  | _, _, 0 => .eq
  | a :: as, b :: bs, n + 1 => match compare a.toNat b.toNat with
    | .eq => memcmp as bs n
    | o => o
  | _, _, _ + 1 => .eq

/-- `memcmp` on two slices. -/
def KeySlice.memcmp (a b : KeySlice) (n : Nat) : Ordering := Yakushima.memcmp a.bytes b.bytes n

/-- The length a key has inside a layer: its size, or 9 when it is longer than a slice. -/
def keyLength (k : Key) : Nat := if sliceSize < k.length then sliceSize + 1 else k.length

end Yakushima
