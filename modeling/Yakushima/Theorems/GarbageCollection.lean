import Yakushima.Model.GarbageCollection

/-! # What the garbage containers free

A container frees what was pushed in the order of the pushes: what it has freed and what it still holds are
together what was pushed. -/

namespace Yakushima

namespace Container
variable {α : Type} {gcEpoch : Epoch} {c : Container α}

/-- A cache with an element stands at the front of the queue. -/
theorem gc_eq_gcLoop (gcEpoch : Epoch) (c : Container α) : c.gc gcEpoch = gcLoop gcEpoch c.held := by
  obtain ⟨cache, queue⟩ := c
  cases cache with
  | none => rfl
  | some e => simp only [gc, held, Option.toList_some, List.cons_append, List.nil_append, gcLoop]

theorem gcLoop_held (gcEpoch : Epoch) (queue : List (Epoch × α)) :
    (gcLoop gcEpoch queue).1 ++ (gcLoop gcEpoch queue).2.held = queue := by
  induction queue with
  | nil => rfl
  | cons e queue ih =>
    simp only [gcLoop]
    split
    · rfl
    · exact congrArg (e :: ·) ih

theorem gcLoop_due {queue : List (Epoch × α)} : ∀ x ∈ (gcLoop gcEpoch queue).1, x.1 < gcEpoch := by
  induction queue with
  | nil => exact fun _ h => absurd h List.not_mem_nil
  | cons e queue ih =>
    simp only [gcLoop]
    split
    · exact fun _ h => absurd h List.not_mem_nil
    · rename_i h
      intro x hx
      rcases List.mem_cons.mp hx with rfl | hx
      · exact Nat.not_le.mp h
      · exact ih x hx

/-- With epochs in order, the loop stops at the first element that is not due, and nothing behind it is due. -/
theorem gcLoop_filter {queue : List (Epoch × α)} (hs : (queue.map Prod.fst).Pairwise (· ≤ ·)) :
    (gcLoop gcEpoch queue).2.held = queue.filter fun x => gcEpoch ≤ x.1 := by
  induction queue with
  | nil => rfl
  | cons e queue ih =>
    rw [List.map_cons, List.pairwise_cons] at hs
    simp only [gcLoop]
    split
    · rename_i h
      refine (List.filter_eq_self.mpr fun x hx => ?_).symm
      rcases List.mem_cons.mp hx with rfl | hx
      · simpa using h
      · simpa using Nat.le_trans h (hs.1 x.1 (List.mem_map_of_mem hx))
    · rename_i h
      rw [List.filter_cons_of_neg (by simpa using h)]
      exact ih hs.2

theorem push_held (e : Epoch × α) : (c.push e).held = c.held ++ [e] := by simp [push, held]

theorem fin_held : c.fin.1 = c.held := rfl

end Container

namespace GarbageCollection
open Container

/-- The nodes that the calls push, in order. -/
def pushedNodes (calls : List GcCall) : List (Epoch × NodeId) :=
  calls.filterMap fun | .pushNode e => some e | _ => none

/-- The values that the calls push, in order. -/
def pushedValues (calls : List GcCall) : List (Epoch × ValueTarget) :=
  calls.filterMap fun | .pushValue e => some e | _ => none

/-- What is freed and what is held. -/
def nodesOf (g : GarbageCollection) : List (Epoch × NodeId) := g.freedNodes ++ g.nodes.held

def valuesOf (g : GarbageCollection) : List (Epoch × ValueTarget) := g.freedValues ++ g.values.held

/-- A call moves elements from the containers to what is freed, in order, and appends what it pushes. -/
theorem call_account (g : GarbageCollection) (x : GcCall) :
    (g.call x).nodesOf = g.nodesOf ++ pushedNodes [x] ∧ (g.call x).valuesOf = g.valuesOf ++ pushedValues [x] := by
  cases x with
  | pushNode e => exact ⟨by simp [call, nodesOf, pushedNodes, push_held], by simp [call, valuesOf, pushedValues]⟩
  | pushValue e => exact ⟨by simp [call, nodesOf, pushedNodes], by simp [call, valuesOf, pushedValues, push_held]⟩
  | setGcEpoch epoch => exact ⟨by simp [call, nodesOf, pushedNodes], by simp [call, valuesOf, pushedValues]⟩
  | gc =>
    refine ⟨?_, ?_⟩
    · simp only [call, gc, nodesOf, gc_eq_gcLoop, List.append_assoc, gcLoop_held]
      simp [pushedNodes]
    · simp only [call, gc, valuesOf, gc_eq_gcLoop, List.append_assoc, gcLoop_held]
      simp [pushedValues]

theorem foldl_account (calls : List GcCall) (g : GarbageCollection) :
    (calls.foldl call g).nodesOf = g.nodesOf ++ pushedNodes calls ∧
    (calls.foldl call g).valuesOf = g.valuesOf ++ pushedValues calls := by
  induction calls generalizing g with
  | nil => exact ⟨by simp [pushedNodes], by simp [pushedValues]⟩
  | cons x calls ih =>
    obtain ⟨hn, hv⟩ := ih (g.call x)
    obtain ⟨hn', hv'⟩ := call_account g x
    refine ⟨?_, ?_⟩
    · rw [List.foldl_cons, hn, hn', List.append_assoc]
      exact congrArg (g.nodesOf ++ ·) (@List.filterMap_append _ _ [x] calls _).symm
    · rw [List.foldl_cons, hv, hv', List.append_assoc]
      exact congrArg (g.valuesOf ++ ·) (@List.filterMap_append _ _ [x] calls _).symm

/-- After every sequence of calls: what is freed and what is held, in this order, are the pushes; `fin` frees the
    rest, so that each push is freed once; a `gc` frees only what is older than the epoch it read; and with pushes in
    the order of their epochs it leaves what it held that is not older, in the order of the pushes. -/
theorem garbage_freed_once_when_due (calls : List GcCall) :
    ((run calls).freedNodes ++ (run calls).nodes.held = pushedNodes calls ∧
      (run calls).freedValues ++ (run calls).values.held = pushedValues calls) ∧
    ((run calls).fin.freedNodes = pushedNodes calls ∧ (run calls).fin.freedValues = pushedValues calls) ∧
    (∃ N V, (run (calls ++ [.gc])).freedNodes = (run calls).freedNodes ++ N ∧
      (run (calls ++ [.gc])).freedValues = (run calls).freedValues ++ V ∧
      (∀ x ∈ N, x.1 < (run calls).gcEpoch) ∧ ∀ x ∈ V, x.1 < (run calls).gcEpoch) ∧
    (((pushedNodes calls).map Prod.fst).Pairwise (· ≤ ·) →
      (run (calls ++ [.gc])).nodes.held = (run calls).nodes.held.filter fun x => (run calls).gcEpoch ≤ x.1) ∧
    (((pushedValues calls).map Prod.fst).Pairwise (· ≤ ·) →
      (run (calls ++ [.gc])).values.held = (run calls).values.held.filter fun x => (run calls).gcEpoch ≤ x.1) := by
  obtain ⟨hn, hv⟩ := foldl_account calls init
  have hn : (run calls).freedNodes ++ (run calls).nodes.held = pushedNodes calls := hn
  have hv : (run calls).freedValues ++ (run calls).values.held = pushedValues calls := hv
  have hgc : run (calls ++ [.gc]) = (run calls).gc := by
    rw [run, List.foldl_append]
    rfl
  rw [hgc]
  refine ⟨⟨hn, hv⟩, ⟨hn, hv⟩,
    ⟨((run calls).nodes.gc (run calls).gcEpoch).1, ((run calls).values.gc (run calls).gcEpoch).1, rfl, rfl, ?_, ?_⟩,
    fun hs => ?_, fun hs => ?_⟩
  · rw [gc_eq_gcLoop]
    exact gcLoop_due
  · rw [gc_eq_gcLoop]
    exact gcLoop_due
  · rw [← hn, List.map_append] at hs
    simp only [gc, gc_eq_gcLoop]
    exact gcLoop_filter (List.pairwise_append.mp hs).2.1
  · rw [← hv, List.map_append] at hs
    simp only [gc, gc_eq_gcLoop]
    exact gcLoop_filter (List.pairwise_append.mp hs).2.1

end GarbageCollection
end Yakushima
