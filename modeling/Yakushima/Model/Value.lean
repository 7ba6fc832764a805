import Yakushima.Model.Memory

/-! # Value headers and slot words (`value.h`, `link_or_value.h`)

The two classes at the width of the machine: a `value*` and a slot are words of 64 bits with two tag bits, and the
header of a heap value has a length of 32 bits and an alignment of 16. The null pointer is the word 0. -/

namespace Yakushima

/-- `uintptr_t`, `std::size_t` and `std::align_val_t`. -/
abbrev Size := BitVec 64

/-- The members of `value`. -/
structure Header where
  len : BitVec 32
  align : BitVec 16
  needDelete : Bool
deriving DecidableEq, Repr

namespace Value

/-- `value::kValPtrFlag` and `link_or_value::kValPtrFlag`. -/
def kValPtrFlag : Size := 0b01#64 <<< 62

/-- The headers of the allocated blocks, by their addresses. -/
abbrev Blocks := Size → Option Header

/-- What `create_value<false>` asks of `operator new`, and the header that it constructs there. -/
structure Allocation where
  total : Size
  align : Size
  header : Header
deriving DecidableEq, Repr

/-- `create_value<false>`, up to the copy of the body. -/
def createValue (vLen vAlign : Size) : Allocation :=
  let vAlign := if vAlign < 8 then 8 else vAlign
  let totalLen := vLen + vAlign
  ⟨totalLen, vAlign, ⟨vLen.setWidth 32, vAlign.setWidth 16, true⟩⟩

/-- The pointer that `create_value<false>` makes of the address it got. -/
def tagged (page : Size) : Size := page ||| kValPtrFlag

def removePtrFlag (val : Size) : Size := val &&& ~~~kValPtrFlag

def isValuePtr (val : Size) : Bool := 0 < val &&& kValPtrFlag

/-- `need_delete`; a read of a header that is not there faults. -/
def needDelete (blocks : Blocks) (val : Size) : Option Bool :=
  let v := removePtrFlag val
  if v = val then some false else (blocks v).map Header.needDelete

def getBody (blocks : Blocks) (val : Size) : Option Size :=
  let v := removePtrFlag val
  if v = val then some v else (blocks v).map fun h => v + h.align.setWidth 64

def getLen (blocks : Blocks) (val : Size) : Option Size :=
  let v := removePtrFlag val
  if v = val then some 8 else (blocks v).map fun h => h.len.setWidth 64

/-- `len_ + align_`: an `unsigned int`. -/
def blockSize (h : Header) : Size := (h.len + h.align.setWidth 32).setWidth 64

/-- `get_gc_info`: the address, the size and the alignment. -/
def getGcInfo (blocks : Blocks) (val : Size) : Option (Size × Size × Size) :=
  let v := removePtrFlag val
  if v = val then some (0, 0, 0) else (blocks v).map fun h => (v, blockSize h, h.align.setWidth 64)

/-- The address, the size and the alignment that `delete_value` gives to `operator delete`, if it calls it. -/
def deleteValue (blocks : Blocks) (val : Size) : Option (Option (Size × Size × Size)) :=
  let v := removePtrFlag val
  if v = val then some none else (blocks v).map fun h => some (v, blockSize h, h.align.setWidth 64)

end Value

namespace Slot
open Value

/-- `link_or_value::kChildFlag`. -/
def kChildFlag : Size := 0b10#64 <<< 62

def getNextLayer (childOrV : Size) : Size := if childOrV &&& kChildFlag = 0 then 0 else childOrV &&& ~~~kChildFlag

def getValue (childOrV : Size) : Size := if 0 < childOrV &&& kChildFlag ∨ childOrV = kValPtrFlag then 0 else childOrV

/-- A slot and the heap values. -/
structure Memory where
  childOrV : Size
  blocks : Blocks

/-- A slot as it is constructed. -/
def Memory.init : Memory := ⟨kValPtrFlag, fun _ => none⟩

def initLv (m : Memory) : Memory := { m with childOrV := kValPtrFlag }

/-- `set_value`; `keepOld` says that the caller passes `old_value`. -/
def setValue (newValue : Size) (keepOld : Bool) (m : Memory) : Option Memory :=
  let curV := getValue m.childOrV
  if curV = 0 then some { m with childOrV := newValue }
  else match Value.needDelete m.blocks curV with
    | none => none
    | some false => some { m with childOrV := newValue }
    | some true =>
      if keepOld then some { m with childOrV := newValue }
      else some ⟨newValue, fun a => if a = removePtrFlag curV then none else m.blocks a⟩

def setNextLayer (newNextLayer : Size) (m : Memory) : Memory := { m with childOrV := newNextLayer ||| kChildFlag }

/-- What is stored in a slot: an inline word, a new heap value at the address that `operator new` gave, the address of
    a node, or nothing. -/
inductive Put where
  | word (w : Size) (keepOld : Bool)
  | heap (page vLen vAlign : Size) (keepOld : Bool)
  | link (n : Size)
  | init
deriving DecidableEq, Repr

def Put.run : Put → Memory → Option Memory
  | .word w keepOld, m => setValue w keepOld m
  | .heap page vLen vAlign keepOld, m =>
    setValue (tagged page) keepOld
      { m with blocks := fun a => if a = page then some (Value.createValue vLen vAlign).header else m.blocks a }
  | .link n, m => some (setNextLayer n m)
  | .init, m => some (initLv m)

end Slot
end Yakushima
