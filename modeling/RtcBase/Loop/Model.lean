import RtcBase.Lib.Run
import RtcBase.Thread.Model

/-!
# A thread among its clients

One `Thread` over a `NullSocketServer`: its owner in `Get`, `Dispatch` and nested calls of `Send`
to other threads, and any number of clients in `Post`, `DoDelayPost`, `Send`, `Quit` and `Clear`.
A step is one locked section, one load or store of `stop_`, one call of `WakeUp`, or one return
from a wait; a list of actions is one interleaving. As in a release build, the `RTC_DCHECK` of `Get`
on the handler of an `MQID_DISPOSE` is passed over.

* `SendMessage`, `sendMessage`: the message behind a blocking `Send`;
* `Owner`, `Nested`, `Client`: where each party is;
* `State`, `Act`, `step`: the machine. `pushes`, `promised`, `gets` and `fresh` record its past.
-/

namespace RtcBase

open Word Heap

/-! ## Messages -/

/-- The handler of a queued message: the thread's own, or one of the program's. -/
inductive Target (Handler : Type) where
  | queued_task_handler_
  | user (h : Handler)
  deriving DecidableEq, Repr

/-- `_SendMessage`. `ready` and `done` point to variables of the client that is in `Send`;
`thread` tells whether it has a `Thread` object. -/
structure SendMessage (ι Handler Data : Type) where
  client : ι
  thread : Bool
  msg : Message Handler Data
  deriving DecidableEq, Repr

/-- The data of a message: what the program has given, or a `_SendMessage`. -/
inductive MessageData (ι Handler Data : Type) where
  | user (d : Data)
  | send (smsg : SendMessage ι Handler Data)
  deriving DecidableEq, Repr

/-- The messages of this queue. -/
abbrev QueuedMessage (ι Handler Data : Type) :=
  Message (Target Handler) (MessageData ι Handler Data)

/-- The heap operations of the standard library on its delayed messages. -/
abbrev LoopHeap (ι Handler Data : Type) :=
  StdHeap (@DelayedMessage.lt (Target Handler) (MessageData ι Handler Data))

variable {ι Handler Data : Type}

/-- The id of the message of a `Send`. -/
def QueuedTaskHandler.kSend : UInt32 := 0

/-- A message that the program posts. -/
def Message.queued (m : Message Handler Data) : QueuedMessage ι Handler Data where
  posted_from := m.posted_from
  phandler := m.phandler.map .user
  message_id := m.message_id
  pdata := m.pdata.map .user

/-- The message that `Send` posts. -/
def sendMessage (i : ι) (thread : Bool) (m : Message Handler Data) :
    QueuedMessage ι Handler Data where
  posted_from := ⟨"Send", "thread.cc", 871⟩
  phandler := some .queued_task_handler_
  message_id := QueuedTaskHandler.kSend
  pdata := some (.send ⟨i, thread, m⟩)

namespace Loop

/-! ## Parties -/

/-- The arguments of `Get` and the time at which it was called. -/
structure GetCall where
  cmsWait : ℤ
  msStart : ℤ
  deriving DecidableEq, Repr

/-- The next step of the owner. -/
inductive Owner (Message : Type) where
  /-- Not in `Get` or `Dispatch`. -/
  | idle
  | locked (call : GetCall) (first_pass : Bool) (msCurrent cmsDelayNext : ℤ)
  /-- Deleting the data of a `MQID_DISPOSE`. -/
  | dispose (call : GetCall) (msCurrent cmsDelayNext : ℤ)
  | quitTest (call : GetCall) (msCurrent cmsDelayNext : ℤ)
  | wait (call : GetCall) (cms : ℤ)
  /-- In the condition variable of `event_`. -/
  | blocked (call : GetCall) (cms : ℤ)
  | clock (call : GetCall)
  | dispatch (msg : Message)
  deriving DecidableEq, Repr

/-- The next step of the owner in a `Send` to another thread. -/
inductive Nested where
  | none
  | test (ready waited : Bool)
  | wait (ready waited : Bool)
  | blocked (ready waited : Bool)
  | signal
  deriving DecidableEq, Repr

/-- Where a call of `Post` returns to. -/
inductive Caller where
  | plain
  | send (thread : Bool)
  deriving DecidableEq, Repr

/-- The next step of a client. -/
inductive Client (ι Handler Data : Type) where
  | idle
  | sendTest (thread : Bool) (msg : Message Handler Data)
  | postTest (caller : Caller) (msg : QueuedMessage ι Handler Data)
  | push (caller : Caller) (msg : QueuedMessage ι Handler Data)
  | delayTest (delay_ms run_at_ms : ℤ) (msg : QueuedMessage ι Handler Data)
  | pushDelayed (delay_ms run_at_ms : ℤ) (msg : QueuedMessage ι Handler Data)
  | quitStore
  | wakeUp (caller : Caller)
  /-- `while (!ready)`. -/
  | readyTest (waited : Bool)
  /-- In the wait of the client's own socket server. -/
  | readyWait
  /-- `if (waited)`: waking the client's own socket server. -/
  | signal
  /-- In `done_event->Wait`. -/
  | doneWait
  deriving DecidableEq, Repr

/-- What a client does after `Post`. -/
def Caller.return : Caller → Client ι Handler Data
  | plain => .idle
  | send true => .readyTest false
  | send false => .doneWait

/-- The queue, its event, and where the owner and the other threads are, with what the run has
done. -/
structure State (ι Handler Data : Type) where
  thread : Thread (Target Handler) (MessageData ι Handler Data)
  /-- Of the event of the socket server. -/
  event_status_ : Bool
  owner : Owner (QueuedMessage ι Handler Data)
  nested : Nested
  client : ι → Client ι Handler Data
  /-- The flag `ready` of a client's `Send`, or the status of its `done_event`. -/
  ready : ι → Bool
  /-- All messages that became ready, in order. -/
  pushes : List (QueuedMessage ι Handler Data)
  /-- How many had become ready at the last store of `Quit`. -/
  promised : ℕ
  /-- What `Get` returned. -/
  gets : List (QueuedMessage ι Handler Data)
  /-- A delayed message was entered since `Get` last looked at them. -/
  fresh : Bool

/-- The constructor, before any call. -/
def init : State ι Handler Data where
  thread := Thread.new
  event_status_ := false
  owner := .idle
  nested := .none
  client _ := .idle
  ready _ := false
  pushes := []
  promised := 0
  gets := []
  fresh := false

/-- What may happen next. -/
inductive Act (ι Handler Data : Type) where
  /-- The owner calls `Get`. -/
  | get (cmsWait now : ℤ)
  /-- The next step of the owner. -/
  | owner
  /-- The wait of the owner ends by its time. -/
  | timeout
  /-- The owner reads the clock after a wait. -/
  | clock (now : ℤ)
  /-- The owner calls `Send` on another thread. -/
  | nest
  /-- The next step of the owner in that call. -/
  | nested
  /-- The other thread sets `ready`. -/
  | reply
  /-- Another thread wakes the socket server. -/
  | signal
  | post (i : ι) (msg : Message Handler Data)
  | delayPost (i : ι) (delay_ms run_at_ms : ℤ) (msg : Message Handler Data)
  | send (i : ι) (thread : Bool) (msg : Message Handler Data)
  | quit (i : ι)
  | clear (i : ι) (phandler : Option Handler) (id : UInt32)
  /-- The next step of a client. -/
  | client (i : ι)
  deriving DecidableEq, Repr

/-- The client whose next step it is. -/
def Act.client? : Act ι Handler Data → Option ι
  | .client i => some i
  | _ => none

/-! ## Steps -/

section Step

variable [DecidableEq ι]

namespace State

/-- A client goes on. -/
def setClient (s : State ι Handler Data) (i : ι) (c : Client ι Handler Data) :
    State ι Handler Data :=
  { s with client := Function.update s.client i c }

variable (s : State ι Handler Data) (i : ι) (c : Client ι Handler Data)

@[simp] theorem setClient_self : (s.setClient i c).client i = c := by
  simp [setClient]

theorem setClient_of_ne {j : ι} (h : j ≠ i) : (s.setClient i c).client j = s.client j := by
  simp [setClient, h]

@[simp] theorem setClient_thread : (s.setClient i c).thread = s.thread := rfl

@[simp] theorem setClient_owner : (s.setClient i c).owner = s.owner := rfl

@[simp] theorem setClient_ready : (s.setClient i c).ready = s.ready := rfl

@[simp] theorem setClient_gets : (s.setClient i c).gets = s.gets := rfl

@[simp] theorem setClient_pushes : (s.setClient i c).pushes = s.pushes := rfl

@[simp] theorem setClient_promised : (s.setClient i c).promised = s.promised := rfl

end State

variable [DecidableEq Handler] (heap : LoopHeap ι Handler Data)

/-- The end of `QueuedTaskHandler::OnMessage`. -/
def State.handled (s : State ι Handler Data) (msg : QueuedMessage ι Handler Data) :
    State ι Handler Data :=
  { s with
    ready :=
      match msg.pdata with
      | some (.send smsg) => Function.update s.ready smsg.client true
      | _ => s.ready }

/-- The next step of the owner in `Get` or `Dispatch`. -/
def ownerStep (s : State ι Handler Data) : Option (State ι Handler Data) :=
  match s.owner with
  | .locked call first_pass msCurrent cmsDelayNext =>
    let ready :=
      if first_pass then
        (Thread.triggerDelayed heap msCurrent s.thread.delayed_messages_.length
          s.thread).2.messages_
      else s.thread.messages_
    let (msg, cmsDelayNext, thread) :=
      s.thread.getLocked heap first_pass msCurrent cmsDelayNext
    let s := { s with
      thread := thread
      pushes := s.pushes ++ ready.drop s.thread.messages_.length
      fresh := s.fresh && !first_pass }
    match msg with
    | none => some { s with owner := .quitTest call msCurrent cmsDelayNext }
    | some msg =>
      if msg.isDispose then
        some { s with owner := .dispose call msCurrent cmsDelayNext }
      else some { s with owner := .dispatch msg, gets := s.gets ++ [msg] }
  | .dispose call msCurrent cmsDelayNext =>
    some { s with owner := .locked call false msCurrent cmsDelayNext }
  | .quitTest call msCurrent cmsDelayNext =>
    if s.thread.stop_ then some { s with owner := .idle }
    else
      let cms := toInt32 (Thread.cmsNext call.cmsWait cmsDelayNext
        (Thread.timeDiff msCurrent call.msStart))
      some { s with owner := .wait call cms }
  | .wait call cms =>
    if s.event_status_ then some { s with owner := .clock call, event_status_ := false }
    else some { s with owner := .blocked call cms }
  | .blocked call _ =>
    if s.event_status_ then some { s with owner := .clock call, event_status_ := false } else none
  | .dispatch msg => some { s.handled msg with owner := .idle }
  | _ => none

/-- Whether the owner runs code of the program: a handler, or a destructor of message data. -/
def Owner.callsOut {M : Type} : Owner M → Bool
  | .idle => true
  | .dispose .. => true
  | .dispatch _ => true
  | _ => false

/-- The next step of the owner in a `Send` to another thread. -/
def nestedStep (s : State ι Handler Data) : Option (State ι Handler Data) :=
  match s.nested with
  | .none => none
  | .test ready waited =>
    if ready then some { s with nested := if waited then .signal else .none }
    else some { s with nested := .wait ready waited }
  | .wait ready waited =>
    if s.event_status_ then some { s with nested := .test ready true, event_status_ := false }
    else some { s with nested := .blocked ready waited }
  | .blocked ready _ =>
    if s.event_status_ then some { s with nested := .test ready true, event_status_ := false }
    else none
  | .signal => some { s with nested := .none, event_status_ := true }

/-- The flag of a nested `Send` is set. -/
def Nested.reply : Nested → Option Nested
  | test _ waited => some (test true waited)
  | wait _ waited => some (wait true waited)
  | blocked _ waited => some (blocked true waited)
  | _ => Option.none

/-- The next step of a client. -/
def clientStep (s : State ι Handler Data) (i : ι) : Option (State ι Handler Data) :=
  match s.client i with
  | .idle => none
  | .sendTest thread msg =>
    if s.thread.stop_ then some (s.setClient i .idle)
    else some ({ s with ready := Function.update s.ready i false }.setClient i
      (.postTest (.send thread) (sendMessage i thread msg)))
  | .postTest caller msg =>
    some (s.setClient i (if s.thread.stop_ then caller.return else .push caller msg))
  | .push caller msg =>
    some ({ s with thread := s.thread.push msg, pushes := s.pushes ++ [msg] }.setClient i
      (.wakeUp caller))
  | .delayTest delay_ms run_at_ms msg =>
    some (s.setClient i (if s.thread.stop_ then .idle else .pushDelayed delay_ms run_at_ms msg))
  | .pushDelayed delay_ms run_at_ms msg =>
    some ({ s with
      thread := s.thread.pushDelayed heap delay_ms run_at_ms msg
      fresh := true }.setClient i (.wakeUp .plain))
  | .quitStore =>
    some ({ s with
      thread := { s.thread with stop_ := true }
      promised := s.pushes.length }.setClient i (.wakeUp .plain))
  | .wakeUp caller => some ({ s with event_status_ := true }.setClient i caller.return)
  | .readyTest waited =>
    some (s.setClient i (if s.ready i then (if waited then .signal else .idle) else .readyWait))
  | .readyWait => some (s.setClient i (.readyTest true))
  | .signal => some (s.setClient i .idle)
  | .doneWait => if s.ready i then some (s.setClient i .idle) else none

/-- A client that is not in a call begins one. -/
def begin (s : State ι Handler Data) (i : ι) (c : Client ι Handler Data) :
    Option (State ι Handler Data) :=
  match s.client i with
  | .idle => some (s.setClient i c)
  | _ => none

/-- One step of the machine. While the owner is in a nested `Send`, its other steps wait. -/
def step (s : State ι Handler Data) : Act ι Handler Data → Option (State ι Handler Data)
  | .get cmsWait now =>
    match s.owner, s.nested with
    | .idle, .none => some { s with owner := .locked ⟨cmsWait, now⟩ true now Thread.kForever }
    | _, _ => none
  | .owner => if s.nested = .none then ownerStep heap s else none
  | .timeout =>
    match s.owner with
    | .blocked call cms =>
      if cms ≠ Thread.kForever then some { s with owner := .clock call } else none
    | _ => none
  | .clock now =>
    match s.owner with
    | .clock call =>
      if call.cmsWait ≠ Thread.kForever ∧ call.cmsWait ≤ Thread.timeDiff now call.msStart then
        some { s with owner := .idle }
      else some { s with owner := .locked call true now Thread.kForever }
    | _ => none
  | .nest =>
    if s.owner.callsOut ∧ s.nested = .none then some { s with nested := .test false false }
    else none
  | .nested => nestedStep s
  | .reply => s.nested.reply.map fun n => { s with nested := n }
  | .signal => some { s with event_status_ := true }
  | .post i msg => begin s i (.postTest .plain msg.queued)
  | .delayPost i delay_ms run_at_ms msg => begin s i (.delayTest delay_ms run_at_ms msg.queued)
  | .send i thread msg => begin s i (.sendTest thread msg)
  | .quit i => begin s i .quitStore
  | .clear i phandler id =>
    match s.client i with
    | .idle => some { s with thread := (s.thread.clearInternal heap (phandler.map .user) id).1 }
    | _ => none
  | .client i => clientStep heap s i

end Step

end Loop

end RtcBase
