import Yakushima.Model.Scheme

/-! # Permutation words (`permutation.h`)

A 64-bit word: the low nibble is the number of live keys, and the nibbles above it are the slots of
these keys in key order. The functions are those of the class, from one loaded body to the body they
store. -/

namespace Yakushima
namespace Permutation

/-- `std::uint64_t`. -/
def wordSize : Nat := 2 ^ 64

/-- `pkey_bit_size` (and `cnk_bit_size`). -/
def pkeyBitSize : Nat := 4

/-- `cnk_mask`. -/
def cnkMask : Nat := 15

/-- `body & ~cnk_mask`. -/
def clearCnk (body : Nat) : Nat := (body >>> pkeyBitSize) <<< pkeyBitSize

/-- A left shift of a `std::uint64_t`. -/
def shl (body n : Nat) : Nat := (body <<< n) % wordSize

def getCnk (body : Nat) : Nat := body &&& cnkMask

def getIndexOfRank (body rank : Nat) : Nat := (body >>> pkeyBitSize) >>> (pkeyBitSize * rank) &&& cnkMask

/-- `dec_key_num`: the decremented count is or-ed back, so a count of 0 would set every bit. -/
def decKeyNum (body : Nat) : Nat := clearCnk body ||| ((getCnk body + wordSize - 1) % wordSize)

def incKeyNum (body : Nat) : Nat := clearCnk body ||| (getCnk body + 1)

def deleteRank (body rank : Nat) : Nat :=
  let cnk := getCnk body
  let left := if rank + 1 = cnk ∨ rank = keySliceLength - 1 then 0
    else shl (body >>> (pkeyBitSize * (rank + 2))) (pkeyBitSize * (rank + 1))
  let right := if rank = 0 then 0
    else shl body (pkeyBitSize * (keySliceLength - rank)) >>> (pkeyBitSize * (keySliceLength - rank))
  clearCnk (left ||| right) ||| cnk

def insert (body rank pos : Nat) : Nat :=
  let cnk := getCnk body
  let target := shl pos (pkeyBitSize * (rank + 1))
  let left := if rank + 1 = cnk then 0
    else shl (body >>> (pkeyBitSize * (rank + 1))) (pkeyBitSize * (rank + 2))
  let right := if rank = 0 then 0
    else shl body (pkeyBitSize * (keySliceLength - rank)) >>> (pkeyBitSize * (keySliceLength - rank))
  clearCnk (left ||| target ||| right) ||| cnk

/-- The slots set in the bitset of `get_empty_slot` after `cnk` steps. -/
def slotsOf (body : Nat) : List Nat := (List.range (getCnk body)).map (getIndexOfRank body)

/-- `get_empty_slot`: the least slot that no live key uses; `none` stands for the branch that logs a
    programming error and answers 0. -/
def getEmptySlot (body : Nat) : Option Nat :=
  if getCnk body = 0 then some 0
  else (List.range keySliceLength).find? fun i => !(slotsOf body).contains i

def splitDest (num : Nat) : Nat :=
  ((List.range num).drop 1).foldl (fun body i => body ||| shl i (pkeyBitSize * (i + 1))) 0 ||| num

end Permutation
end Yakushima
