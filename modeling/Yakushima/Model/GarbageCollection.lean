import Yakushima.Model.Memory

/-! # Garbage containers (`garbage_collection.h`)

The garbage of one session: a queue of nodes and one of values, each with a cache of one element for what was
taken out of the queue too early. Targets are not null, so an empty cache is `none`. -/

namespace Yakushima

/-- A container and its cache. -/
structure Container (α : Type) where
  cache : Option (Epoch × α)
  queue : List (Epoch × α)
deriving DecidableEq, Repr

namespace Container
variable {α : Type}

def empty : Container α := ⟨none, []⟩

/-- `push_node_container` and `push_value_container`. -/
def push (c : Container α) (e : Epoch × α) : Container α := { c with queue := c.queue ++ [e] }

/-- The loop of `gc_node` and `gc_value` over the queue: what it frees and what it leaves. -/
def gcLoop (gcEpoch : Epoch) : List (Epoch × α) → List (Epoch × α) × Container α
  | [] => ([], empty)
  | e :: queue =>
    if gcEpoch ≤ e.1 then ([], ⟨some e, queue⟩)
    else
      let (freed, c) := gcLoop gcEpoch queue
      (e :: freed, c)

/-- `gc_node` and `gc_value`. -/
def gc (gcEpoch : Epoch) (c : Container α) : List (Epoch × α) × Container α :=
  match c.cache with
  | some e =>
    if gcEpoch ≤ e.1 then ([], c)
    else
      let (freed, c) := gcLoop gcEpoch c.queue
      (e :: freed, c)
  | none => gcLoop gcEpoch c.queue

/-- The part of `fin` for one container. -/
def fin (c : Container α) : List (Epoch × α) × Container α := (c.cache.toList ++ c.queue, empty)

/-- What the container holds, in the order of the pushes. -/
def held (c : Container α) : List (Epoch × α) := c.cache.toList ++ c.queue

end Container

/-- A value to be freed: its address, its size and its alignment. -/
abbrev ValueTarget := ValueId × Nat × Nat

/-- `garbage_collection`, with the static `gc_epoch_`, and what was freed so far. -/
structure GarbageCollection where
  gcEpoch : Epoch
  nodes : Container NodeId
  values : Container ValueTarget
  freedNodes : List (Epoch × NodeId)
  freedValues : List (Epoch × ValueTarget)
deriving DecidableEq, Repr

inductive GcCall where
  | pushNode (e : Epoch × NodeId)
  | pushValue (e : Epoch × ValueTarget)
  | setGcEpoch (epoch : Epoch)
  | gc
deriving DecidableEq, Repr

namespace GarbageCollection

def init : GarbageCollection := ⟨0, .empty, .empty, [], []⟩

def gc (g : GarbageCollection) : GarbageCollection :=
  let (freedNodes, nodes) := g.nodes.gc g.gcEpoch
  let (freedValues, values) := g.values.gc g.gcEpoch
  { g with nodes, values, freedNodes := g.freedNodes ++ freedNodes, freedValues := g.freedValues ++ freedValues }

def fin (g : GarbageCollection) : GarbageCollection :=
  let (freedNodes, nodes) := g.nodes.fin
  let (freedValues, values) := g.values.fin
  { g with nodes, values, freedNodes := g.freedNodes ++ freedNodes, freedValues := g.freedValues ++ freedValues }

def call (g : GarbageCollection) : GcCall → GarbageCollection
  | .pushNode e => { g with nodes := g.nodes.push e }
  | .pushValue e => { g with values := g.values.push e }
  | .setGcEpoch epoch => { g with gcEpoch := epoch }
  | .gc => g.gc

/-- A sequence of calls on a new object. -/
def run (calls : List GcCall) : GarbageCollection := calls.foldl call init

end GarbageCollection
end Yakushima
