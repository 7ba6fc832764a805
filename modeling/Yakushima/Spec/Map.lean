import Mathlib.Data.Finmap
import Yakushima.Model.Call

/-! # What a tree is for: a finite map

The abstract tree is a finite map from keys to values. A value is kept under a pointer, which `put` chooses
and `get` gives out; the map also knows whether the tree has a root yet, because `remove` tells that apart. -/

namespace Yakushima

/-- A value with the pointer under which it is kept. -/
structure Binding where
  ptr : ValuePtr
  value : ValueArg
deriving DecidableEq, Repr

/-- The number of bytes of a value. -/
def ValueArg.len : ValueArg → Nat
  | .word _ => 8
  | .heap bytes _ => bytes.length

structure MapState where
  rooted : Bool
  map : Finmap fun _ : Key => Binding

/-- An inline word is its own pointer, any other value is in a heap block. -/
def Binding.Fits : Binding → Prop
  | ⟨.word w, .word w'⟩ => w.val = w'.toNat
  | ⟨.heap _, .heap _ _⟩ => True
  | _ => False

section
variable (len : ValueArg → Nat)

/-- One call on the map, with its answer; `len` is the length that the map gives out for a value. -/
inductive MapStep (m : MapState) : PointCall → PointAnswer → MapState → Prop where
  | getBound (key : Key) (b : Binding) (h : m.map.lookup key = some b) :
      MapStep m (.get key) (.get (.ok, some (b.ptr, len b.value))) m
  | getUnbound (key : Key) (h : m.map.lookup key = none) : MapStep m (.get key) (.get (.warnNotExist, none)) m
  | putUnique (token : Token) (args : PutArgs) (b : Binding) (hu : args.uniqueRestriction = true)
      (h : m.map.lookup args.key = some b) : MapStep m (.put token args) (.put ⟨.warnUniqueRestriction, none, none⟩) m
  | put (token : Token) (args : PutArgs) (p : ValuePtr) (node : Ptr)
      (hu : args.uniqueRestriction = true → m.map.lookup args.key = none) (hp : Binding.Fits ⟨p, args.value⟩) :
      MapStep m (.put token args) (.put ⟨.ok, some (.value p), node⟩) ⟨true, m.map.insert args.key ⟨p, args.value⟩⟩
  | removeBound (token : Token) (key : Key) (b : Binding) (h : m.map.lookup key = some b) :
      MapStep m (.remove token key) (.remove .ok) ⟨m.rooted, m.map.erase key⟩
  | removeUnbound (token : Token) (key : Key) (h : m.map.lookup key = none) :
      MapStep m (.remove token key) (.remove (if m.rooted then .okNotFound else .okRootIsNull)) m

/-- A sequence of calls on the map. -/
inductive MapRun : MapState → List PointCall → List PointAnswer → MapState → Prop where
  | nil (m : MapState) : MapRun m [] [] m
  | cons {m m₁ m₂ : MapState} {c : PointCall} {a : PointAnswer} {cs : List PointCall} {as : List PointAnswer}
      (h : MapStep len m c a m₁) (hs : MapRun m₁ cs as m₂) : MapRun m (c :: cs) (a :: as) m₂

end
end Yakushima
