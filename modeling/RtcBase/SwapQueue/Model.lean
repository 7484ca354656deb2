import RtcBase.Lib.Fifo
import RtcBase.Lib.Ring
import RtcBase.Lib.Run
import RtcBase.Lib.Word

/-!
# `SwapQueue`

The queue of `swap_queue.h` with one producer and one consumer. Each party's call is cut at its
atomic accesses, and a step of the machine is one call, or one such piece of a call, of one party.

* `SwapQueue`: the object; `load`, `fetchAdd`, `fetchSub`, `exchange`, `swapIn`, `swapOut`,
  `advanceWrite`, `advanceRead`, `skipRead`: the pieces;
* `Producer`, `Consumer`: where a party is in its call;
* `State`, `Act`, `step`: the two parties over the object.
-/

namespace RtcBase

open Word Fifo

/-- The fields of the class. -/
structure SwapQueue (T : Type) where
  queue_ : List T
  next_write_index_ : ℕ
  next_read_index_ : ℕ
  num_elements_ : ℕ

namespace SwapQueue

variable {T : Type}

/-- The constructor: `size` copies of `prototype`. -/
def new (size : ℕ) (prototype : T) : SwapQueue T where
  queue_ := List.replicate size prototype
  next_write_index_ := 0
  next_read_index_ := 0
  num_elements_ := 0

/-- `RTC_DCHECK(VerifyQueueSlots())`. -/
def verifyQueueSlots (verifier : T → Bool) (q : SwapQueue T) : Bool := q.queue_.all verifier

/-! ## The pieces of the calls -/

/-- `swap(*input, queue_[next_write_index_])`: what `*input` holds after it, and the queue. -/
def swapIn (q : SwapQueue T) (input : T) : T × SwapQueue T :=
  (q.queue_.getD q.next_write_index_ input,
    { q with queue_ := q.queue_.set q.next_write_index_ input })

/-- `swap(*output, queue_[next_read_index_])`. -/
def swapOut (q : SwapQueue T) (output : T) : T × SwapQueue T :=
  (q.queue_.getD q.next_read_index_ output,
    { q with queue_ := q.queue_.set q.next_read_index_ output })

/-- `atomic_fetch_add`: the old value, and the queue. -/
def fetchAdd (q : SwapQueue T) : ℕ × SwapQueue T :=
  (q.num_elements_, { q with num_elements_ := sizeT (q.num_elements_ + 1) })

/-- `fetch_sub(1)`, on a `size_t`. -/
def fetchSub (q : SwapQueue T) : SwapQueue T :=
  { q with num_elements_ := sizeT (q.num_elements_ + (2 ^ 64 - 1)) }

/-- `exchange(0)`, which `Clear` does. -/
def exchange (q : SwapQueue T) : ℕ × SwapQueue T := (q.num_elements_, { q with num_elements_ := 0 })

/-- `++i; if (i == queue_.size()) i = 0;` -/
def advance (size i : ℕ) : ℕ := if sizeT (i + 1) = size then 0 else sizeT (i + 1)

/-- The index of the producer goes on. -/
def advanceWrite (q : SwapQueue T) : SwapQueue T :=
  { q with next_write_index_ := advance q.queue_.length q.next_write_index_ }

/-- The index of the consumer goes on. -/
def advanceRead (q : SwapQueue T) : SwapQueue T :=
  { q with next_read_index_ := advance q.queue_.length q.next_read_index_ }

/-- `Clear` moves the read index by the old value of `num_elements_`, and wraps once. -/
def skipRead (q : SwapQueue T) (n : ℕ) : SwapQueue T :=
  { q with next_read_index_ :=
      if q.queue_.length ≤ sizeT (q.next_read_index_ + n) then
        sizeT (q.next_read_index_ + n) - q.queue_.length
      else sizeT (q.next_read_index_ + n) }

/-! ## The parties -/

/-- Where the producer is in `Insert`. `full` is the value that went into its slot. -/
inductive Producer (T : Type) where
  | idle
  | load (input : T)
  | swap (input : T)
  | add (full input : T)
  | index (full input : T) (old_num_elements : ℕ)

/-- Where the consumer is in `Remove` or `Clear`. -/
inductive Consumer (T : Type) where
  | idle
  | load (output : T)
  | swap (output : T)
  | sub (output : T)
  | index (output : T)
  | exchange
  | skip (n : ℕ)

/-- The queue with its two parties. `history` lists what the atomic accesses decided, `results`
what the calls returned, both in order of time. `checks` says that no `RTC_DCHECK` has failed. -/
structure State (T : Type) where
  queue : SwapQueue T
  producer : Producer T
  consumer : Consumer T
  history : List (Event T)
  results : List (Event T)
  checks : Bool

/-- The constructor, before any call. -/
def init (verifier : T → Bool) (size : ℕ) (prototype : T) : State T where
  queue := new size prototype
  producer := .idle
  consumer := .idle
  history := []
  results := []
  checks := (new size prototype).verifyQueueSlots verifier

/-- What happens next: a party starts a call, or goes on with its call. -/
inductive Act (T : Type) where
  | insert (input : T)
  | remove (output : T)
  | clear
  | sizeAtLeast
  | producer
  | consumer

/-- The next piece of `Insert`. -/
def produce (s : State T) : Option (State T) :=
  match s.producer with
  | .idle => none
  | .load input =>
    if s.queue.num_elements_ = s.queue.queue_.length then
      some { s with
        producer := .idle
        history := s.history ++ [.full]
        results := s.results ++ [.full] }
    else some { s with producer := .swap input }
  | .swap input =>
    some { s with
      queue := (s.queue.swapIn input).2
      producer := .add input (s.queue.swapIn input).1 }
  | .add full input =>
    some { s with
      queue := s.queue.fetchAdd.2
      producer := .index full input s.queue.fetchAdd.1
      history := s.history ++ [.insert full] }
  | .index full _ old_num_elements =>
    some { s with
      queue := s.queue.advanceWrite
      producer := .idle
      results := s.results ++ [.insert full]
      checks := s.checks &&
        decide (s.queue.advanceWrite.next_write_index_ < s.queue.queue_.length) &&
        decide (old_num_elements < s.queue.queue_.length) }

/-- The next piece of `Remove` or `Clear`. -/
def consume (s : State T) : Option (State T) :=
  match s.consumer with
  | .idle => none
  | .load output =>
    if s.queue.num_elements_ = 0 then
      some { s with
        consumer := .idle
        history := s.history ++ [.empty]
        results := s.results ++ [.empty] }
    else some { s with consumer := .swap output }
  | .swap output =>
    some { s with queue := (s.queue.swapOut output).2, consumer := .sub (s.queue.swapOut output).1 }
  | .sub output =>
    some { s with
      queue := s.queue.fetchSub
      consumer := .index output
      history := s.history ++ [.remove output] }
  | .index output =>
    some { s with
      queue := s.queue.advanceRead
      consumer := .idle
      results := s.results ++ [.remove output]
      checks := s.checks &&
        decide (s.queue.advanceRead.next_read_index_ < s.queue.queue_.length) }
  | .exchange =>
    some { s with
      queue := s.queue.exchange.2
      consumer := .skip s.queue.exchange.1
      history := s.history ++ [.clear s.queue.exchange.1] }
  | .skip n =>
    some { s with
      queue := s.queue.skipRead n
      consumer := .idle
      results := s.results ++ [.clear n]
      checks := s.checks &&
        decide ((s.queue.skipRead n).next_read_index_ < s.queue.queue_.length) }

/-- A call begins, or one of the two parties makes its next step. -/
def step (verifier : T → Bool) (s : State T) : Act T → Option (State T)
  | .insert input =>
    match s.producer with
    | .idle => some { s with producer := .load input, checks := s.checks && verifier input }
    | _ => none
  | .remove output =>
    match s.consumer with
    | .idle => some { s with consumer := .load output, checks := s.checks && verifier output }
    | _ => none
  | .clear =>
    match s.consumer with
    | .idle => some { s with consumer := .exchange }
    | _ => none
  | .sizeAtLeast =>
    match s.consumer with
    | .idle => some { s with
        history := s.history ++ [.size s.queue.num_elements_]
        results := s.results ++ [.size s.queue.num_elements_] }
    | _ => none
  | .producer => produce s
  | .consumer => consume s

/-- The items that a call hands over pass the verifier. -/
def Act.Verified (verifier : T → Bool) : Act T → Prop
  | .insert input => verifier input = true
  | .remove output => verifier output = true
  | _ => True

end SwapQueue

end RtcBase
