import RtcBase.Lib.Heap
import RtcBase.Lib.Word

/-!
# The message queue of `Thread`

The stores of `thread.cc` and the functions on them: a kept peek, the ready list, and the delayed
messages in a `std::priority_queue`. The heap functions of the library are a parameter
(`StdHeap`). A function here is one call with no other call in between; message data is deleted
without calling back into the queue. As in a release build, the `RTC_DCHECK` of `Get` on the handler
of an `MQID_DISPOSE` is passed over.

* `Message`, `DelayedMessage`: messages, and their order in the priority queue;
* `push`, `pushDelayed`, `getLocked`, `clearInternal`: what runs under `crit_`;
* `post`, `doDelayPost`: posting;
* `triggerDelayed`, `passes`, `getLoop`, `get`, `peek`: taking messages;
* `getDelay`: the time until there is one.
-/

namespace RtcBase

open Word Heap

/-! ## Messages -/

/-- Where a message was posted. -/
structure Location where
  function_name_ : String := "Unknown"
  file_name_ : String := "Unknown"
  line_number_ : ℤ := -1
  deriving DecidableEq, Repr

/-- `MQID_ANY`. -/
def mqidAny : UInt32 := 0xFFFFFFFF

/-- `MQID_DISPOSE`. -/
def mqidDispose : UInt32 := 0xFFFFFFFE

/-- A message: `none` is the null pointer. -/
structure Message (Handler Data : Type) where
  posted_from : Location := {}
  phandler : Option Handler := none
  message_id : UInt32 := 0
  pdata : Option Data := none
  deriving DecidableEq, Repr

variable {Handler Data : Type} [DecidableEq Handler]

/-- `Message::Match`. -/
def Message.matches (m : Message Handler Data) (handler : Option Handler) (id : UInt32) : Bool :=
  (handler = none || handler = m.phandler) && (id = mqidAny || id = m.message_id)

/-- The message is there to have its data deleted. -/
def Message.isDispose (m : Message Handler Data) : Bool := m.message_id = mqidDispose

/-- A message with its time and its number, by which messages for one time are ordered. -/
structure DelayedMessage (Handler Data : Type) where
  delay_ms_ : ℤ
  run_time_ms_ : ℤ
  message_number_ : UInt32
  msg_ : Message Handler Data
  deriving DecidableEq, Repr

/-- `DelayedMessage::operator<`: the message that is to run first is the greatest. -/
def DelayedMessage.lt (a b : DelayedMessage Handler Data) : Prop :=
  b.run_time_ms_ < a.run_time_ms_ ∨
    (b.run_time_ms_ = a.run_time_ms_ ∧ b.message_number_ < a.message_number_)

/-! ## The queue -/

/-- The fields that the queue works with. -/
structure Thread (Handler Data : Type) where
  fPeekKeep_ : Bool
  msgPeek_ : Message Handler Data
  messages_ : List (Message Handler Data)
  delayed_messages_ : List (DelayedMessage Handler Data)
  delayed_next_num_ : UInt32
  stop_ : Bool

namespace Thread

/-- A wait without end. -/
def kForever : ℤ := -1

/-- The constructor. -/
def new : Thread Handler Data where
  fPeekKeep_ := false
  msgPeek_ := {}
  messages_ := []
  delayed_messages_ := []
  delayed_next_num_ := 0
  stop_ := false

/-! ### Clocks -/

/-- `TimeAfter`. -/
def timeAfter (now elapsed : ℤ) : ℤ := toInt64 (now + elapsed)

/-- `TimeDiff`. -/
def timeDiff (later earlier : ℤ) : ℤ := toInt64 (later - earlier)

/-- `TimeUntil`, at the time `now`. -/
def timeUntil (now later : ℤ) : ℤ := toInt64 (later - now)

/-! ### Posting -/

/-- The locked section of `Post`. -/
def push (s : Thread Handler Data) (msg : Message Handler Data) : Thread Handler Data :=
  { s with messages_ := s.messages_ ++ [msg] }

/-- `Post`; while quitting the message is not entered. -/
def post (s : Thread Handler Data) (msg : Message Handler Data) : Thread Handler Data :=
  if s.stop_ then s else s.push msg

section Heap

variable (heap : StdHeap (@DelayedMessage.lt Handler Data))

/-- The locked section of `DoDelayPost`. -/
def pushDelayed (s : Thread Handler Data) (delay_ms run_at_ms : ℤ) (msg : Message Handler Data) :
    Thread Handler Data :=
  { s with
    delayed_messages_ := heap.pushHeap
      (s.delayed_messages_ ++ [⟨delay_ms, run_at_ms, s.delayed_next_num_, msg⟩])
    delayed_next_num_ := s.delayed_next_num_ + 1 }

/-- `DoDelayPost`. -/
def doDelayPost (s : Thread Handler Data) (delay_ms run_at_ms : ℤ) (msg : Message Handler Data) :
    Thread Handler Data :=
  if s.stop_ then s else s.pushDelayed heap delay_ms run_at_ms msg

/-- `RTC_DCHECK_NE(0, delayed_next_num_)`. -/
def doDelayPostCheck (s : Thread Handler Data) : Bool := s.stop_ || s.delayed_next_num_ + 1 ≠ 0

/-- `PostDelayed`, at the time `now`. -/
def postDelayed (s : Thread Handler Data) (now delay_ms : ℤ) (msg : Message Handler Data) :
    Thread Handler Data :=
  s.doDelayPost heap delay_ms (timeAfter now delay_ms) msg

/-- `PostAt`, at the time `now`. -/
def postAt (s : Thread Handler Data) (now run_at_ms : ℤ) (msg : Message Handler Data) :
    Thread Handler Data :=
  s.doDelayPost heap (timeUntil now run_at_ms) run_at_ms msg

/-! ### Clearing -/

/-- The loop over the array of the priority queue: `it` runs over it, and what does not match
`drop` is moved down to `new_end`. The first argument bounds the turns. -/
def compactLoop (drop : DelayedMessage Handler Data → Bool) :
    ℕ → List (DelayedMessage Handler Data) → ℕ → ℕ → List (DelayedMessage Handler Data) × ℕ
  | 0, arr, _, new_end => (arr, new_end)
  | n + 1, arr, it, new_end =>
    match arr[it]? with
    | none => (arr, new_end)
    | some d =>
      if drop d then compactLoop drop n arr (it + 1) new_end
      else compactLoop drop n (arr.set new_end d) (it + 1) (new_end + 1)

/-- `ClearInternal`: the queue, and the messages that are appended to `removed` or, if that is
null, have their data deleted. -/
def clearInternal (s : Thread Handler Data) (phandler : Option Handler) (id : UInt32) :
    Thread Handler Data × List (Message Handler Data) :=
  let drop (d : DelayedMessage Handler Data) := d.msg_.matches phandler id
  let kept := compactLoop drop s.delayed_messages_.length s.delayed_messages_ 0 0
  ({ s with
      fPeekKeep_ := s.fPeekKeep_ && !s.msgPeek_.matches phandler id
      messages_ := s.messages_.filter fun m => !m.matches phandler id
      delayed_messages_ := heap.makeHeap (kept.1.take kept.2) },
    (if s.fPeekKeep_ && s.msgPeek_.matches phandler id then [s.msgPeek_] else []) ++
      (s.messages_.filter fun m => m.matches phandler id) ++
      (s.delayed_messages_.filter drop).map (·.msg_))

/-! ### Taking -/

/-- The loop of `Get` on its first pass: messages that are due move to the ready list. Each turn
takes one out, so as many turns as there are messages are enough. The value is `cmsDelayNext`. -/
def triggerDelayed (msCurrent : ℤ) : ℕ → Thread Handler Data → ℤ × Thread Handler Data
  | 0, s => (kForever, s)
  | n + 1, s =>
    match s.delayed_messages_ with
    | [] => (kForever, s)
    | top :: rest =>
      if msCurrent < top.run_time_ms_ then (timeDiff top.run_time_ms_ msCurrent, s)
      else triggerDelayed msCurrent n { s with
        messages_ := s.messages_ ++ [top.msg_]
        delayed_messages_ := (heap.popHeap (top :: rest)).dropLast }

/-- The locked section of the inner loop of `Get`: the first ready message is taken, after the
triggered ones have become ready on the first pass. The number is `cmsDelayNext`. -/
def getLocked (s : Thread Handler Data) (first_pass : Bool) (msCurrent cmsDelayNext : ℤ) :
    Option (Message Handler Data) × ℤ × Thread Handler Data :=
  let (cmsDelayNext, s) :=
    if first_pass then triggerDelayed heap msCurrent s.delayed_messages_.length s
    else (cmsDelayNext, s)
  match s.messages_ with
  | [] => (none, cmsDelayNext, s)
  | m :: ms => (some m, cmsDelayNext, { s with messages_ := ms })

omit [DecidableEq Handler] in
/-- After the triggered messages have become ready, the first pass is like the others. -/
theorem getLocked_true (s : Thread Handler Data) (msCurrent cms : ℤ) :
    s.getLocked heap true msCurrent cms =
      (triggerDelayed heap msCurrent s.delayed_messages_.length s).2.getLocked heap false msCurrent
        (triggerDelayed heap msCurrent s.delayed_messages_.length s).1 :=
  rfl

omit [DecidableEq Handler] in
theorem getLocked_nil {s : Thread Handler Data} (h : s.messages_ = []) (msCurrent cms : ℤ) :
    s.getLocked heap false msCurrent cms = (none, cms, s) := by
  simp [getLocked, h]

omit [DecidableEq Handler] in
theorem getLocked_cons {s : Thread Handler Data} {m : Message Handler Data} {ms}
    (h : s.messages_ = m :: ms) (msCurrent cms : ℤ) :
    s.getLocked heap false msCurrent cms = (some m, cms, { s with messages_ := ms }) := by
  simp [getLocked, h]

/-- The inner loop of `Get`: the data of a `MQID_DISPOSE` is deleted and the next message taken.
Each turn but the last takes a message out, so one more turn than there are messages is enough. -/
def passes (msCurrent : ℤ) : ℕ → Bool → ℤ → Thread Handler Data →
    Option (Message Handler Data) × ℤ × Thread Handler Data
  | 0, _, cmsDelayNext, s => (none, cmsDelayNext, s)
  | n + 1, first_pass, cmsDelayNext, s =>
    match s.getLocked heap first_pass msCurrent cmsDelayNext with
    | (none, cmsDelayNext, s) => (none, cmsDelayNext, s)
    | (some msg, cmsDelayNext, s) =>
      if msg.isDispose then passes msCurrent n false cmsDelayNext s
      else (some msg, cmsDelayNext, s)

/-- "Check for posted events". -/
def checkPosted (s : Thread Handler Data) (msCurrent : ℤ) :
    Option (Message Handler Data) × ℤ × Thread Handler Data :=
  passes heap msCurrent (s.messages_.length + s.delayed_messages_.length + 1) true kForever s

/-- "Which is shorter, the delay wait or the asked wait?" -/
def cmsNext (cmsWait cmsDelayNext cmsElapsed : ℤ) : ℤ :=
  if cmsWait = kForever then cmsDelayNext
  else
    let asked := max 0 (toInt64 (cmsWait - cmsElapsed))
    if cmsDelayNext ≠ kForever ∧ cmsDelayNext < asked then cmsDelayNext else asked

/-- What a call of `Get` or `Peek` came to; `waiting` means that it has not returned. -/
inductive Taken (Handler Data : Type) where
  | message (msg : Message Handler Data)
  | nothing
  | waiting
  deriving DecidableEq, Repr

/-- The outer loop of `Get`. For each wait, `waits` has what `ss_->Wait` returned and what the
clock showed after it; the first result lists what `ss_->Wait` was asked for. -/
def getLoop (cmsWait msStart : ℤ) :
    ℤ → List (Bool × ℤ) → Thread Handler Data → List ℤ × Taken Handler Data × Thread Handler Data
  | msCurrent, waits, s =>
    match checkPosted heap s msCurrent with
    | (some msg, _, s) => ([], .message msg, s)
    | (none, cmsDelayNext, s) =>
      if s.stop_ then ([], .nothing, s)
      else
        let asked := toInt32 (cmsNext cmsWait cmsDelayNext (timeDiff msCurrent msStart))
        match waits with
        | [] => ([asked], .waiting, s)
        | (waited, now) :: waits =>
          if !waited then ([asked], .nothing, s)
          else if cmsWait ≠ kForever ∧ cmsWait ≤ timeDiff now msStart then ([asked], .nothing, s)
          else
            let (asks, taken, s) := getLoop cmsWait msStart now waits s
            (asked :: asks, taken, s)

/-- `Get`: first the message that `Peek` has kept, then the loop. The first component are the waits
that it asks for. -/
def get (s : Thread Handler Data) (cmsWait msStart : ℤ) (waits : List (Bool × ℤ)) :
    List ℤ × Taken Handler Data × Thread Handler Data :=
  if s.fPeekKeep_ then ([], .message s.msgPeek_, { s with fPeekKeep_ := false })
  else getLoop heap cmsWait msStart msStart waits s

/-- `Peek` keeps what `Get` returns. -/
def peek (s : Thread Handler Data) (cmsWait msStart : ℤ) (waits : List (Bool × ℤ)) :
    List ℤ × Taken Handler Data × Thread Handler Data :=
  if s.fPeekKeep_ then ([], .message s.msgPeek_, s)
  else
    match s.get heap cmsWait msStart waits with
    | (asks, .message msg, s) =>
      (asks, .message msg, { s with msgPeek_ := msg, fPeekKeep_ := true })
    | r => r

end Heap

/-- `GetDelay`; the `int` is set from an `int64_t`. -/
def getDelay (s : Thread Handler Data) (now : ℤ) : ℤ :=
  match s.messages_ with
  | _ :: _ => 0
  | [] =>
    match s.delayed_messages_ with
    | top :: _ =>
      let delay := toInt32 (timeUntil now top.run_time_ms_)
      if delay < 0 then 0 else delay
    | [] => kForever

end Thread

end RtcBase
