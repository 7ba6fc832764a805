import Yakushima.Lib.Prog
import Yakushima.Model.Version
import Yakushima.Model.Permutation

/-! # Nodes, memory and its atomic operations

The memory of one process: the nodes, the heap blocks of values, the root pointers of the tree
instances, the garbage containers of the sessions and the error log. A node is one record for both
classes; its class decides which members it has. Every load, store and compare-and-swap of a member
is one operation; an access through a null or freed pointer, to a member the class does not have or
to a position that `.at()` rejects faults. Allocation answers an identity that was never used. -/

namespace Yakushima

abbrev NodeId := Nat

/-- `base_node*` and `border_node*`: `none` is the null pointer. -/
abbrev Ptr := Option NodeId

abbrev ValueId := Nat

/-- The position of a `tree_instance`. -/
abbrev TreeId := Nat

/-- `Token`: the position of the session in the thread info table. -/
abbrev Token := Nat

abbrev Epoch := Nat

/-- An inline value that a slot gives back: a word whose two top bits, the tags of `link_or_value`, are clear. What a
    slot makes of the other words is said by `LinkOrValue.ofWord`. -/
abbrev Word := Fin (2 ^ 62)

instance Word.instNeZero : NeZero (2 ^ 62) := ⟨by decide⟩

/-- `value*` as a slot holds it, and the body pointer made of it: the tagged address of a heap block,
    or an inline word. The null pointer is the inline word 0. -/
inductive ValuePtr where
  | heap (v : ValueId)
  | word (w : Word)
deriving DecidableEq, Repr

namespace ValuePtr

def null : ValuePtr := word 0

/-- `value::is_value_ptr`. -/
def isValuePtr : ValuePtr → Bool
  | heap _ => true
  | word _ => false

end ValuePtr

/-- `link_or_value`: the word of a slot by its tag bits. `empty` is the word that `init_lv` stores. -/
inductive LinkOrValue where
  | empty
  | link (n : NodeId)
  | value (v : ValuePtr)
deriving DecidableEq, Repr

namespace LinkOrValue

instance : Coe ValuePtr LinkOrValue := ⟨value⟩

/-- `get_next_layer`. -/
def getNextLayer : LinkOrValue → Ptr
  | link n => some n
  | _ => none

/-- `get_value`. -/
def getValue : LinkOrValue → ValuePtr
  | value v => v
  | _ => .null

end LinkOrValue

/-- The class of a node (`dynamic_cast`). -/
inductive Kind where
  | border | interior
deriving DecidableEq, Repr

/-- `base_node`, `interior_node` and `border_node`. -/
structure Node where
  kind : Kind
  version : Version
  parent : Ptr
  keySlice : Nat → KeySlice
  keyLength : Nat → Nat
  nKeys : Nat
  child : Nat → Ptr
  permutation : Nat
  lv : Nat → LinkOrValue
  prev : Ptr
  next : Ptr

/-- An array with one position replaced. -/
def upd {α : Type} (f : Nat → α) (i : Nat) (x : α) : Nat → α := fun j => if j = i then x else f j

/-- A node as its default constructor leaves it. -/
def Node.fresh (kind : Kind) : Node where
  kind := kind
  version := .init
  parent := none
  keySlice := fun _ => .zero
  keyLength := fun _ => 0
  nKeys := 0
  child := fun _ => none
  permutation := 0
  lv := fun _ => .empty
  prev := none
  next := none

/-- The members of a node. -/
inductive Field : Type → Type where
  | version : Field Version
  | parent : Field Ptr
  | keySlice (i : Nat) : Field KeySlice
  | keyLength (i : Nat) : Field Nat
  | nKeys : Field Nat
  | child (i : Nat) : Field Ptr
  | permutation : Field Nat
  | lv (i : Nat) : Field LinkOrValue
  | prev : Field Ptr
  | next : Field Ptr

/-- The class has the member and `.at()` accepts the position. -/
def Field.admits {β : Type} (kind : Kind) : Field β → Bool
  | version | parent => true
  | keySlice i | keyLength i => i < keySliceLength
  | nKeys => kind = .interior
  | child i => kind = .interior && i < childLength
  | permutation | prev | next => kind = .border
  | lv i => kind = .border && i < keySliceLength

def Node.get {β : Type} (nd : Node) : Field β → β
  | .version => nd.version
  | .parent => nd.parent
  | .keySlice i => nd.keySlice i
  | .keyLength i => nd.keyLength i
  | .nKeys => nd.nKeys
  | .child i => nd.child i
  | .permutation => nd.permutation
  | .lv i => nd.lv i
  | .prev => nd.prev
  | .next => nd.next

def Node.set {β : Type} (nd : Node) : Field β → β → Node
  | .version, x => { nd with version := x }
  | .parent, x => { nd with parent := x }
  | .keySlice i, x => { nd with keySlice := upd nd.keySlice i x }
  | .keyLength i, x => { nd with keyLength := upd nd.keyLength i x }
  | .nKeys, x => { nd with nKeys := x }
  | .child i, x => { nd with child := upd nd.child i x }
  | .permutation, x => { nd with permutation := x }
  | .lv i, x => { nd with lv := upd nd.lv i x }
  | .prev, x => { nd with prev := x }
  | .next, x => { nd with next := x }

/-- A heap block of a value (`value.h`): its header and its body. -/
structure Block where
  len : Nat
  align : Nat
  needDelete : Bool
  body : List UInt8
deriving DecidableEq, Repr

/-- The places that report an error to the log and go on, and a decrement of a key count of 0. -/
inductive LogError where
  | deleteOfChildNotFound | deleteOfKeyNotFound | getLvNotFound | computeRankUnexpectedPath
  | insertLvProgrammingError | getEmptySlotProgrammingError | interiorDeleteOfNoKeys
  | interiorDeleteOfPrecondition | swapChildUnreachable | interiorSplitZeroLength | borderSplitRoot
  | borderSplitParent | borderSplitParentDeleted | interiorSplitRoot | interiorSplitParent
  | incKeyNumOverflow | decKeyNumUnderflow | findBorderNullRoot | unexpectedProcess | scanUnreachable
deriving DecidableEq, Repr

/-- An element pushed to a garbage container: the session, its begin epoch and the target. -/
structure Garbage (α : Type) where
  token : Token
  epoch : Epoch
  target : α
deriving DecidableEq, Repr

/-- The memory. -/
structure State where
  node : NodeId → Option Node
  /-- Every node identity handed out so far is smaller. -/
  nextNode : NodeId
  block : ValueId → Option Block
  nextBlock : ValueId
  root : TreeId → Ptr
  beginEpoch : Token → Epoch
  nodeContainer : List (Garbage NodeId)
  valueContainer : List (Garbage (ValueId × Nat × Nat))
  log : List LogError

/-- A memory without nodes, blocks and trees. -/
def State.init : State where
  node := fun _ => none
  nextNode := 0
  block := fun _ => none
  nextBlock := 0
  root := fun _ => none
  beginEpoch := fun _ => 0
  nodeContainer := []
  valueContainer := []
  log := []

/-- The atomic operations. -/
inductive Op : Type → Type 1 where
  | load {β : Type} (n : NodeId) (f : Field β) : Op β
  | store {β : Type} (n : NodeId) (f : Field β) (x : β) : Op Unit
  /-- `compare_exchange`: whether it stored, and the word it found. -/
  | casVersion (n : NodeId) (expected desired : Version) : Op (Bool × Version)
  /-- `n_keys_.fetch_add(d)` modulo 256. -/
  | fetchAddNKeys (n : NodeId) (d : Nat) : Op Unit
  /-- The two `memmove`s of `shift_left_base_member`. -/
  | shiftLeftKeys (n : NodeId) (start size : Nat) : Op Unit
  /-- The two `memmove`s of `shift_right_base_member`. -/
  | shiftRightKeys (n : NodeId) (start size : Nat) : Op Unit
  /-- `dynamic_cast<border_node*>`, by whether it succeeds. -/
  | isBorder (n : NodeId) : Op Bool
  | newNode (kind : Kind) : Op NodeId
  /-- `delete` of a node that no one else can reach. -/
  | deleteNode (n : NodeId) : Op Unit
  | loadRoot (t : TreeId) : Op Ptr
  | storeRoot (t : TreeId) (p : Ptr) : Op Unit
  | casRoot (t : TreeId) (expected desired : Ptr) : Op (Bool × Ptr)
  | newBlock (b : Block) : Op ValueId
  | loadBlock (v : ValueId) : Op Block
  | removeDeleteFlag (v : ValueId) : Op Unit
  | deleteBlock (v : ValueId) : Op Unit
  | pushNode (token : Token) (n : NodeId) : Op Unit
  | pushValue (token : Token) (v : ValueId) (size align : Nat) : Op Unit
  | logError (e : LogError) : Op Unit

namespace State

def setNode (s : State) (n : NodeId) (nd : Node) : State :=
  { s with node := fun m => if m = n then some nd else s.node m }

/-- `memmove` by `size` positions down from `start` to the end of the key arrays. -/
def shiftLeft {α : Type} (f : Nat → α) (start size : Nat) : Nat → α :=
  fun j => if start - size ≤ j ∧ j + size < keySliceLength then f (j + size) else f j

/-- `memmove` by `size` positions up from `start` to the end of the key arrays. -/
def shiftRight {α : Type} (f : Nat → α) (start size : Nat) : Nat → α :=
  fun j => if start + size ≤ j ∧ j < keySliceLength then f (j - size) else f j

end State

open State in
/-- One atomic operation: its answer and the memory after it, or nothing if it faults. -/
def exec {β : Type} : Op β → State → Option (β × State)
  | .load n f, s => match s.node n with
    | some nd => if f.admits nd.kind then some (nd.get f, s) else none
    | none => none
  | .store n f x, s => match s.node n with
    | some nd => if f.admits nd.kind then some ((), s.setNode n (nd.set f x)) else none
    | none => none
  | .casVersion n expected desired, s => match s.node n with
    | some nd => if nd.version = expected then some ((true, expected), s.setNode n { nd with version := desired })
      else some ((false, nd.version), s)
    | none => none
  | .fetchAddNKeys n d, s => match s.node n with
    | some nd => if nd.kind = .interior then some ((), s.setNode n { nd with nKeys := (nd.nKeys + d) % 256 }) else none
    | none => none
  | .shiftLeftKeys n start size, s => match s.node n with
    | some nd => if size ≤ start ∧ start < keySliceLength then
        some ((),
          s.setNode n
          { nd with keySlice := shiftLeft nd.keySlice start size, keyLength := shiftLeft nd.keyLength start size })
      else none
    | none => none
  | .shiftRightKeys n start size, s => match s.node n with
    | some nd => if start + size < keySliceLength then
        some ((),
          s.setNode n
          { nd with keySlice := shiftRight nd.keySlice start size, keyLength := shiftRight nd.keyLength start size })
      else none
    | none => none
  | .isBorder n, s => match s.node n with
    | some nd => some (nd.kind = .border, s)
    | none => none
  | .newNode kind, s =>
    some (s.nextNode, { s.setNode s.nextNode (.fresh kind) with nextNode := s.nextNode + 1 })
  | .deleteNode n, s => match s.node n with
    | some _ => some ((), { s with node := fun m => if m = n then none else s.node m })
    | none => none
  | .loadRoot t, s => some (s.root t, s)
  | .storeRoot t p, s => some ((), { s with root := fun u => if u = t then p else s.root u })
  | .casRoot t expected desired, s =>
    if s.root t = expected then some ((true, expected), { s with root := fun u => if u = t then desired else s.root u })
    else some ((false, s.root t), s)
  | .newBlock b, s =>
    some (s.nextBlock,
      { s with block := fun v => if v = s.nextBlock then some b else s.block v, nextBlock := s.nextBlock + 1 })
  | .loadBlock v, s => match s.block v with
    | some b => some (b, s)
    | none => none
  | .removeDeleteFlag v, s => match s.block v with
    | some b => some ((), { s with block := fun u => if u = v then some { b with needDelete := false } else s.block u })
    | none => none
  | .deleteBlock v, s => match s.block v with
    | some _ => some ((), { s with block := fun u => if u = v then none else s.block u })
    | none => none
  | .pushNode token n, s =>
    some ((), { s with nodeContainer := s.nodeContainer ++ [⟨token, s.beginEpoch token, n⟩] })
  | .pushValue token v size align, s =>
    some ((), { s with valueContainer := s.valueContainer ++ [⟨token, s.beginEpoch token, (v, size, align)⟩] })
  | .logError e, s => some ((), { s with log := s.log ++ [e] })

/-- Programs of this memory. -/
abbrev M := Lib.Prog Op

/-- The sequential meaning of a program. -/
abbrev run {α : Type} (p : M α) (s : State) : Option (α × State) := Lib.Prog.run exec p s

namespace M

def op {β : Type} (o : Op β) : M β := .step o .ret

def load {β : Type} (n : NodeId) (f : Field β) : M β := op (.load n f)

def store {β : Type} (n : NodeId) (f : Field β) (x : β) : M Unit := op (.store n f x)

def logError (e : LogError) : M Unit := op (.logError e)

/-- A statement under a condition. -/
def when (c : Prop) [Decidable c] (p : M Unit) : M Unit := if c then p else pure ()

/-- An access through a pointer: the null pointer faults. -/
def deref : Ptr → M NodeId
  | some n => .ret n
  | none => .halt

end M
end Yakushima
