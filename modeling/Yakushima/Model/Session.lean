import Yakushima.Lib.Interleave
import Yakushima.Model.GarbageCollection

/-! # Sessions (`thread_info.h`, `thread_info_table.h`, `epoch.h`, `manager_thread.h`)

Threads that enter and leave sessions and retire garbage in them, the epoch thread and the gc thread, on one
table of `N` sessions. The runs are those between `init` and `fin`: the flags that end the two background threads
stay false. What is retired plays no role here, so an object is named by the number of its retirement. -/

namespace Yakushima
namespace Session

/-- `Epoch` is an `std::uint64_t`. -/
def epochSize : Nat := 2 ^ 64

/-- `UINT64_MAX`. -/
def maxEpoch : Nat := epochSize - 1

/-- `e - 1`. -/
def pred (e : Nat) : Nat := (e + maxEpoch) % epochSize

/-- The two containers of a `garbage_collection`. -/
inductive Garbage where
  | node | value
deriving DecidableEq, Repr

/-- An element of a container: its epoch and what is to be freed. -/
abbrev Elem := Nat × Nat

/-- `thread_info`. -/
structure ThreadInfo where
  beginEpoch : Nat
  running : Bool
  gcInfo : Garbage → Container Nat

/-- `thread_info_table_`, `epoch_` and `gc_epoch_`, and how many objects were retired. -/
structure State (N : Nat) where
  info : Fin N → ThreadInfo
  epoch : Nat
  gcEpoch : Nat
  retired : Nat

variable {N : Nat}

/-- After `init`. -/
def State.init (N : Nat) : State N := ⟨fun _ => ⟨0, false, fun _ => .empty⟩, 1, 0, 0⟩

namespace State

def setInfo (s : State N) (tk : Fin N) (f : ThreadInfo → ThreadInfo) : State N :=
  { s with info := Function.update s.info tk (f (s.info tk)) }

def setContainer (s : State N) (tk : Fin N) (c : Garbage) (f : Container Nat → Container Nat) : State N :=
  s.setInfo tk fun i => { i with gcInfo := Function.update i.gcInfo c (f (i.gcInfo c)) }

end State

/-- The atomic operations. -/
inductive Op (N : Nat) : Type → Type 1 where
  | loadRunning (tk : Fin N) : Op N Bool
  /-- `compare_exchange_weak`: whether it stored, and the flag it found. -/
  | casRunning (tk : Fin N) (expected desired : Bool) : Op N (Bool × Bool)
  | storeRunning (tk : Fin N) (tf : Bool) : Op N Unit
  | loadBeginEpoch (tk : Fin N) : Op N Nat
  | storeBeginEpoch (tk : Fin N) (e : Nat) : Op N Unit
  | loadEpoch : Op N Nat
  | incEpoch : Op N Unit
  | loadGcEpoch : Op N Nat
  | storeGcEpoch (e : Nat) : Op N Unit
  | push (tk : Fin N) (c : Garbage) (e : Nat) : Op N Unit
  | empty (tk : Fin N) (c : Garbage) : Op N Bool
  | tryPop (tk : Fin N) (c : Garbage) : Op N (Option Elem)
  | loadCache (tk : Fin N) (c : Garbage) : Op N (Option Elem)
  | storeCache (tk : Fin N) (c : Garbage) (e : Option Elem) : Op N Unit
  | delete (e : Elem) : Op N Unit

def exec {β : Type} : Op N β → State N → β × State N
  | .loadRunning tk, s => ((s.info tk).running, s)
  | .casRunning tk expected desired, s =>
    if (s.info tk).running = expected then ((true, expected), s.setInfo tk ({ · with running := desired }))
    else ((false, (s.info tk).running), s)
  | .storeRunning tk tf, s => ((), s.setInfo tk ({ · with running := tf }))
  | .loadBeginEpoch tk, s => ((s.info tk).beginEpoch, s)
  | .storeBeginEpoch tk e, s => ((), s.setInfo tk ({ · with beginEpoch := e }))
  | .loadEpoch, s => (s.epoch, s)
  | .incEpoch, s => ((), { s with epoch := (s.epoch + 1) % epochSize })
  | .loadGcEpoch, s => (s.gcEpoch, s)
  | .storeGcEpoch e, s => ((), { s with gcEpoch := e })
  | .push tk c e, s => ((), { s.setContainer tk c (·.push (e, s.retired)) with retired := s.retired + 1 })
  | .empty tk c, s => (((s.info tk).gcInfo c).queue.isEmpty, s)
  | .tryPop tk c, s => (((s.info tk).gcInfo c).queue.head?, s.setContainer tk c fun q => { q with queue := q.queue.tail })
  | .loadCache tk c, s => (((s.info tk).gcInfo c).cache, s)
  | .storeCache tk c e, s => ((), s.setContainer tk c ({ · with cache := e }))
  | .delete _, s => ((), s)

/-- `compare_exchange_weak` may fail on the flag that it expects. -/
def FailsWeakly (s : State N) : {β : Type} → Op N β → β → Prop
  | _, .casRunning tk _ _, y => y = (false, (s.info tk).running)
  | _, _, _ => False

/-- What an operation may do while other threads take their turns. -/
def Performs {β : Type} (o : Op N β) (s : State N) (y : β) (s' : State N) : Prop :=
  exec o s = (y, s') ∨ FailsWeakly s o y ∧ s' = s

abbrev M (N : Nat) := Lib.Prog (Op N)

def perform {β : Type} (o : Op N β) : M N β := .step o .ret

/-! ### Entering and leaving -/

/-- The loop of `gain_the_right`. -/
def gainLoop (tk : Fin N) : Nat → Bool → M N Bool
  | 0, _ => .halt
  | fuel + 1, expected =>
    if expected then pure false
    else do
      let (stored, found) ← perform (.casRunning tk expected true)
      if stored then pure true else gainLoop tk fuel found

def gainTheRight (fuel : Nat) (tk : Fin N) : M N Bool := do
  let expected ← perform (.loadRunning tk)
  gainLoop tk fuel expected

/-- `assign_thread_info` from some element of the table on: the token with `OK`, nothing with `WARN_MAX_SESSIONS`. -/
def assignThreadInfo (fuel : Nat) : List (Fin N) → M N (Option (Fin N))
  | [] => pure none
  | tk :: table => do
    if ← gainTheRight fuel tk then
      let e ← perform .loadEpoch
      perform (.storeBeginEpoch tk e)
      pure (some tk)
    else assignThreadInfo fuel table

def enter (fuel : Nat) : M N (Option (Fin N)) := assignThreadInfo fuel (List.finRange N)

/-- `leave_thread_info`. -/
def leave (tk : Fin N) : M N Unit := do
  perform (.storeBeginEpoch tk 0)
  perform (.storeRunning tk false)

/-- An object is retired in a session: it is pushed with the begin epoch of the session. -/
def retire (tk : Fin N) (c : Garbage) : M N Unit := do
  let e ← perform (.loadBeginEpoch tk)
  perform (.push tk c e)

/-! ### The epoch thread -/

/-- The verification scan of `epoch_thread`. -/
def verify (cur : Nat) : List (Fin N) → M N Bool
  | [] => pure true
  | tk :: table => do
    let check ← perform (.loadBeginEpoch tk)
    if check ≠ 0 ∧ check ≠ cur then pure false else verify cur table

/-- The verification scan is repeated until it succeeds. -/
def verifyLoop : Nat → M N Unit
  | 0 => .halt
  | fuel + 1 => do
    let cur ← perform .loadEpoch
    if ← verify cur (List.finRange N) then pure () else verifyLoop fuel

/-- The minimum scan. -/
def minScan : List (Fin N) → Nat → M N Nat
  | [], min => pure min
  | tk :: table, min => do
    let e ← perform (.loadBeginEpoch tk)
    minScan table (if e ≠ 0 then Nat.min min e else min)

/-- The second part of a round of `epoch_thread`: the epoch is incremented and the `gc_epoch` set. -/
def advance : M N Unit := do
  perform .incEpoch
  let min ← minScan (List.finRange N) maxEpoch
  if min ≠ maxEpoch then perform (.storeGcEpoch (pred min))
  else do
    let e ← perform .loadEpoch
    perform (.storeGcEpoch (pred e))

/-- A round of `epoch_thread`. -/
def epochRound (fuel : Nat) : M N Unit := do
  verifyLoop fuel
  advance

/-! ### The gc thread -/

/-- `while (!node_container_.try_pop(elem)) continue`. -/
def popLoop (tk : Fin N) : Nat → M N Elem
  | 0 => .halt
  | fuel + 1 => do
    match ← perform (.tryPop tk .node) with
    | some elem => pure elem
    | none => popLoop tk fuel

/-- The loop of `gc_node` over the queue. -/
def gcNodeLoop (popFuel : Nat) (tk : Fin N) (gcEpoch : Nat) : Nat → M N Unit
  | 0 => .halt
  | fuel + 1 => do
    if ← perform (.empty tk .node) then pure ()
    else
      let elem ← popLoop tk popFuel
      if gcEpoch ≤ elem.1 then perform (.storeCache tk .node (some elem))
      else do
        perform (.delete elem)
        gcNodeLoop popFuel tk gcEpoch fuel

/-- The loop of `gc_value` over the queue. Where `try_pop` fails it looks again whether the queue is empty. -/
def gcValueLoop (tk : Fin N) (gcEpoch : Nat) : Nat → M N Unit
  | 0 => .halt
  | fuel + 1 => do
    if ← perform (.empty tk .value) then pure ()
    else
      match ← perform (.tryPop tk .value) with
      | none => gcValueLoop tk gcEpoch fuel
      | some elem =>
        if gcEpoch ≤ elem.1 then perform (.storeCache tk .value (some elem))
        else do
          perform (.delete elem)
          gcValueLoop tk gcEpoch fuel

/-- `gc_node` and `gc_value`, which begin with the cache. -/
def gcContainer (loop : Nat → M N Unit) (tk : Fin N) (c : Garbage) : M N Unit := do
  let gcEpoch ← perform .loadGcEpoch
  match ← perform (.loadCache tk c) with
  | none => loop gcEpoch
  | some elem =>
    if gcEpoch ≤ elem.1 then pure ()
    else do
      perform (.delete elem)
      perform (.storeCache tk c none)
      loop gcEpoch

def gcNode (fuel : Nat) (tk : Fin N) : M N Unit := gcContainer (fun gcEpoch => gcNodeLoop fuel tk gcEpoch fuel) tk .node

def gcValue (fuel : Nat) (tk : Fin N) : M N Unit := gcContainer (fun gcEpoch => gcValueLoop tk gcEpoch fuel) tk .value

/-- `thread_info_table::gc` from some element of the table on. -/
def gcTable (fuel : Nat) : List (Fin N) → M N Unit
  | [] => pure ()
  | tk :: table => do
    gcNode fuel tk
    gcValue fuel tk
    gcTable fuel table

/-- A round of `gc_thread`. -/
def gcRound (fuel : Nat) : M N Unit := gcTable fuel (List.finRange N)

/-! ### The system -/

inductive Actor (τ : Type) where
  | session (t : τ)
  | epoch
  | gc
deriving DecidableEq

inductive Call (N : Nat) where
  | enter
  | leave (tk : Fin N)
  | retire (tk : Fin N) (c : Garbage)
  | epochRound
  | gcRound
deriving DecidableEq

/-- Whether a thread that made these calls, the last one first, has the token. -/
def holding (tk : Fin N) : List (Call N × Option (Fin N)) → Bool
  | [] => false
  | (.enter, some tk') :: l => tk' = tk || holding tk l
  | (.leave tk', _) :: l => tk' ≠ tk && holding tk l
  | _ :: l => holding tk l

/-- The program of a call. -/
def Call.prog (fuel : Nat) : Call N → M N (Option (Fin N))
  | .enter => Session.enter fuel
  | .leave tk => do
    Session.leave tk
    pure none
  | .retire tk c => do
    Session.retire tk c
    pure none
  | .epochRound => do
    Session.epochRound fuel
    pure none
  | .gcRound => do
    Session.gcRound fuel
    pure none

/-- A thread leaves only a session that it is in, and retires in such a one. -/
def Call.allowed {τ : Type} (done : List (Call N × Option (Fin N))) : Actor τ → Call N → Bool
  | .session _, .enter => true
  | .session _, .leave tk => holding tk done
  | .session _, .retire tk _ => holding tk done
  | .epoch, .epochRound => true
  | .gc, .gcRound => true
  | _, _ => false

def system (N : Nat) (τ : Type) : Lib.System (Op N) (State N) (Actor τ) (Call N) (Option (Fin N)) where
  performs := Performs
  invokes := fun a done x p => x.allowed done a = true ∧ ∃ fuel, p = x.prog fuel

end Session
end Yakushima
