import Mathlib

/-!
# `ThreadManager`

The list of threads and the graph of the sends between them, of a build with `RTC_DCHECK_IS_ON`.
Every call holds `crit_` from beginning to end. Threads are ordered as pointers are.

* `Stop`: what ends a call without a result;
* `ThreadManager`: the members;
* `addInternal`, `removeInternal`, `removeFromSendGraph`: threads that come and go;
* `targetsLoop`, `registerSendAndCheckForCycles`: a send and the search for a cycle;
* `Call`, `step`: the calls, one after the other.
-/

namespace RtcBase

/-- A failed check, or a loop that has not ended after the turns that it was given. -/
inductive Stop where
  | dcheck
  | check
  | turns
  deriving DecidableEq, Repr

/-- `std::map<Thread*, std::set<Thread*>>`: the targets of a thread, if it has an entry. -/
abbrev SendGraph (T : Type) : Type := T → Option (Finset T)

/-- The registry, its lock count, and the send graph. -/
structure ThreadManager (T : Type) where
  message_queues_ : List T
  processing_ : ℕ
  send_graph_ : SendGraph T

variable {T : Type} [LinearOrder T]

/-- `send_graph[t]`, which makes an empty entry where there is none. -/
def SendGraph.at (send_graph : SendGraph T) (t : T) : Finset T × SendGraph T :=
  match send_graph t with
  | some targets => (targets, send_graph)
  | none => (∅, Function.update send_graph t (some ∅))

/-- The targets of a thread in the order of the loop; empty entries do not count. -/
def SendGraph.targetsOf (send_graph : SendGraph T) (t : T) : List T :=
  ((send_graph t).getD ∅).sort (· ≤ ·)

namespace ThreadManager

/-- The constructor. -/
def new : ThreadManager T := ⟨[], 0, fun _ => none⟩

/-- `AddInternal`. -/
def addInternal (m : ThreadManager T) (message_queue : T) : Except Stop (ThreadManager T) :=
  if m.processing_ ≠ 0 then .error .dcheck
  else .ok { m with message_queues_ := m.message_queues_ ++ [message_queue] }

/-- `RemoveFromSendGraph`: the thread as a source, and as a target. -/
def removeFromSendGraph (m : ThreadManager T) (thread : T) : ThreadManager T :=
  { m with send_graph_ := fun t =>
      if t = thread then none else (m.send_graph_ t).map fun targets => targets.erase thread }

/-- `RemoveInternal`. -/
def removeInternal (m : ThreadManager T) (message_queue : T) : Except Stop (ThreadManager T) :=
  if m.processing_ ≠ 0 then .error .dcheck
  else
    .ok ({ m with message_queues_ := m.message_queues_.erase message_queue }.removeFromSendGraph
      message_queue)

/-- The loop of `RegisterSendAndCheckForCycles`, for so many turns at most. A set is inserted in
the order of its elements. -/
def targetsLoop : ℕ → SendGraph T → List T → ℕ → Except Stop (SendGraph T × List T)
  | 0, send_graph, all_targets, i =>
    if i < all_targets.length then .error .turns else .ok (send_graph, all_targets)
  | turns + 1, send_graph, all_targets, i =>
    if h : i < all_targets.length then
      let (targets, send_graph) := send_graph.at all_targets[i]
      targetsLoop turns send_graph (all_targets ++ targets.sort (· ≤ ·)) (i + 1)
    else .ok (send_graph, all_targets)

/-- `RegisterSendAndCheckForCycles`: the source must not be among all targets of the target. -/
def registerSendAndCheckForCycles (turns : ℕ) (m : ThreadManager T) (source target : T) :
    Except Stop (ThreadManager T) := do
  let (send_graph, all_targets) ← targetsLoop turns m.send_graph_ [target] 0
  if all_targets.count source ≠ 0 then throw .check
  let (targets, send_graph) := send_graph.at source
  return { m with send_graph_ := Function.update send_graph source (some (insert target targets)) }

/-- The calls that change the registry or the graph. -/
inductive Call (T : Type) where
  | addInternal (message_queue : T)
  | removeInternal (message_queue : T)
  | removeFromSendGraph (thread : T)
  | registerSendAndCheckForCycles (turns : ℕ) (source target : T)
  deriving DecidableEq, Repr

/-- A call that returns. -/
def step (m : ThreadManager T) : Call T → Option (ThreadManager T)
  | .addInternal message_queue => (m.addInternal message_queue).toOption
  | .removeInternal message_queue => (m.removeInternal message_queue).toOption
  | .removeFromSendGraph thread => some (m.removeFromSendGraph thread)
  | .registerSendAndCheckForCycles turns source target =>
    (m.registerSendAndCheckForCycles turns source target).toOption

end ThreadManager

end RtcBase
