import RtcBase.Time.Timespec

/-!
# `Event`

Any number of threads set, reset and wait for one event on a mutex and a condition variable. Every
access to `event_status_` and every call of `pthread` is a step. A wait for the condition leaves
the mutex and blocks in one step. It may end at any later moment, with or without a reason.

* `WaitCall`, `waitCall`: the instants at which a `Wait` warns and gives up;
* `Phase`, `Event`, `Act`, `act`: where the threads are, and what they do next;
* `History`, `observe`: what an onlooker notes of the steps;
* `State`, `step`: the event with its history.
-/

namespace RtcBase

namespace Event

/-- A wait without end. -/
def kForever : ℤ := -1

/-- What `pthread_cond_timedwait` returns at its deadline. -/
def ETIMEDOUT : ℤ := 110

/-- The two deadlines of a `Wait`, none for a wait without end. -/
structure WaitCall where
  warn_ts : Option Timespec
  give_up_ts : Option Timespec
  deriving DecidableEq, Repr

/-- `Wait` up to the mutex. The clock reads `now` for the warning, and then `now'`. -/
def waitCall (give_up_after_ms warn_after_ms : ℤ) (now now' : Timespec) : WaitCall where
  warn_ts :=
    if warn_after_ms = kForever ∨
        (give_up_after_ms ≠ kForever ∧ warn_after_ms > give_up_after_ms) then none
    else some (Timespec.getTimespec now warn_after_ms)
  give_up_ts :=
    if give_up_after_ms = kForever then none
    else some (Timespec.getTimespec now' give_up_after_ms)

/-- The call of `wait` inside `Wait`. -/
inductive Stage where
  | warn
  | giveUp
  deriving DecidableEq, Repr

/-- The wait for a warning comes first, if there is to be one. -/
def WaitCall.first (w : WaitCall) : Stage := if w.warn_ts = none then .giveUp else .warn

/-- The deadline of a stage. -/
def WaitCall.timeout_ts (w : WaitCall) : Stage → Option Timespec
  | .warn => w.warn_ts
  | .giveUp => w.give_up_ts

/-- The next step of a thread. -/
inductive Phase where
  /-- In none of the functions. -/
  | out
  | setLock
  /-- `event_status_ = true`. -/
  | setStore
  | setBroadcast
  | setUnlock
  | resetLock
  /-- `event_status_ = false`. -/
  | resetStore
  | resetUnlock
  | waitLock (w : WaitCall)
  /-- `while (!event_status_ && error == 0)`. -/
  | test (w : WaitCall) (stage : Stage) (error : ℤ)
  /-- In `pthread_cond_wait` or `pthread_cond_timedwait`. -/
  | blocked (w : WaitCall) (stage : Stage)
  /-- At the end of it, where the mutex is locked again. -/
  | woken (w : WaitCall) (stage : Stage) (error : ℤ)
  /-- `if (error == 0 && !is_manual_reset_)`. -/
  | autoReset (error : ℤ)
  | waitUnlock (error : ℤ)
  /-- `return (error == 0)`. -/
  | waitReturn (error : ℤ)
  deriving DecidableEq, Repr

/-- The thread is in `Wait`. -/
def Phase.waits : Phase → Bool
  | .waitLock _ | .test .. | .blocked .. | .woken .. | .autoReset _ | .waitUnlock _
  | .waitReturn _ => true
  | _ => false

end Event

/-- The mutex, the status, and where every thread is. -/
structure Event (τ : Type) where
  event_mutex_ : Option τ
  event_status_ : Bool
  phase : τ → Event.Phase

namespace Event

/-- What may happen next. -/
inductive Act (τ : Type) where
  | set (t : τ)
  | reset (t : τ)
  | wait (t : τ) (give_up_after_ms warn_after_ms : ℤ) (now now' : Timespec)
  /-- The next step of a thread that is in one of the functions. -/
  | go (t : τ)
  /-- The wait for the condition ends, with 0 where nothing has happened. -/
  | wake (t : τ) (error : ℤ)
  /-- It fails before the mutex is unlocked. -/
  | fail (t : τ) (error : ℤ)
  deriving DecidableEq, Repr

/-- The thread that acts. -/
def Act.thread {τ : Type} : Act τ → τ
  | .set t | .reset t | .wait t _ _ _ _ | .go t | .wake t _ | .fail t _ => t

variable {τ : Type}

@[simp] theorem Act.thread_go (t : τ) : (Act.go t).thread = t := rfl

@[simp] theorem Act.thread_wake (t : τ) (error : ℤ) : (Act.wake t error).thread = t := rfl

@[simp] theorem Act.thread_fail (t : τ) (error : ℤ) : (Act.fail t error).thread = t := rfl

variable [DecidableEq τ]

/-- The thread goes on to a phase. -/
def goTo (e : Event τ) (t : τ) (p : Phase) : Event τ :=
  { e with phase := Function.update e.phase t p }

/-- `pthread_mutex_lock`, which waits while the mutex is held. -/
def lock (e : Event τ) (t : τ) (p : Phase) : Option (Event τ) :=
  if e.event_mutex_ = none then some ({ e with event_mutex_ := some t }.goTo t p) else none

/-- `pthread_mutex_unlock`. -/
def unlock (e : Event τ) (t : τ) (p : Phase) : Event τ := { e with event_mutex_ := none }.goTo t p

/-- `pthread_cond_broadcast`. -/
def Phase.wakeUp : Phase → Phase
  | .blocked w stage => .woken w stage 0
  | p => p

/-- `pthread_cond_broadcast` wakes all that wait. -/
def broadcast (e : Event τ) : Event τ := { e with phase := fun t => (e.phase t).wakeUp }

/-- The end of `wait` inside `Wait`. -/
def afterWait (w : WaitCall) (stage : Stage) (error : ℤ) : Phase :=
  if stage = .warn ∧ error = ETIMEDOUT then .test w .giveUp 0 else .autoReset error

section Fields

variable (e : Event τ) (t : τ) (p : Phase)

@[simp] theorem goTo_mutex : (e.goTo t p).event_mutex_ = e.event_mutex_ := rfl

@[simp] theorem goTo_status : (e.goTo t p).event_status_ = e.event_status_ := rfl

@[simp] theorem goTo_phase_self : (e.goTo t p).phase t = p := by simp [goTo]

theorem goTo_phase_of_ne {u : τ} (hu : u ≠ t) : (e.goTo t p).phase u = e.phase u := by
  simp [goTo, hu]

@[simp] theorem unlock_mutex : (e.unlock t p).event_mutex_ = none := rfl

@[simp] theorem unlock_status : (e.unlock t p).event_status_ = e.event_status_ := rfl

@[simp] theorem unlock_phase_self : (e.unlock t p).phase t = p := by simp [unlock]

omit [DecidableEq τ] in
@[simp] theorem broadcast_mutex : e.broadcast.event_mutex_ = e.event_mutex_ := rfl

omit [DecidableEq τ] in
@[simp] theorem broadcast_status : e.broadcast.event_status_ = e.event_status_ := rfl

theorem lock_eq {e e' : Event τ} {t : τ} {p : Phase} (h : e.lock t p = some e') :
    e.event_mutex_ = none ∧ e' = { e with event_mutex_ := some t }.goTo t p := by
  unfold lock at h
  split_ifs at h with hfree
  exact ⟨hfree, (Option.some.inj h).symm⟩

end Fields

variable (is_manual_reset_ : Bool)

/-- The next step of a thread, from where it is. -/
def go (e : Event τ) (t : τ) : Option (Event τ) :=
  match e.phase t with
  | .out => none
  | .setLock => e.lock t .setStore
  | .setStore => some ({ e with event_status_ := true }.goTo t .setBroadcast)
  | .setBroadcast => some (e.broadcast.goTo t .setUnlock)
  | .setUnlock => some (e.unlock t .out)
  | .resetLock => e.lock t .resetStore
  | .resetStore => some ({ e with event_status_ := false }.goTo t .resetUnlock)
  | .resetUnlock => some (e.unlock t .out)
  | .waitLock w => e.lock t (.test w w.first 0)
  | .test w stage error =>
    if e.event_status_ = false ∧ error = 0 then some (e.unlock t (.blocked w stage))
    else some (e.goTo t (afterWait w stage error))
  | .blocked _ _ => none
  | .woken w stage error => e.lock t (.test w stage error)
  | .autoReset error =>
    let status := if error = 0 ∧ is_manual_reset_ = false then false else e.event_status_
    some ({ e with event_status_ := status }.goTo t (.waitUnlock error))
  | .waitUnlock error => some (e.unlock t (.waitReturn error))
  | .waitReturn _ => some (e.goTo t .out)

/-- Only a wait with a timeout gives `ETIMEDOUT`. -/
def act (e : Event τ) : Act τ → Option (Event τ)
  | .set t => if e.phase t = .out then some (e.goTo t .setLock) else none
  | .reset t => if e.phase t = .out then some (e.goTo t .resetLock) else none
  | .wait t give_up_after_ms warn_after_ms now now' =>
    if e.phase t = .out then
      some (e.goTo t (.waitLock (waitCall give_up_after_ms warn_after_ms now now')))
    else none
  | .go t => go is_manual_reset_ e t
  | .wake t error =>
    match e.phase t with
    | .blocked w stage =>
      if error = ETIMEDOUT → w.timeout_ts stage ≠ none then some (e.goTo t (.woken w stage error))
      else none
    | _ => none
  | .fail t error =>
    match e.phase t with
    | .test w stage 0 =>
      if e.event_status_ = false ∧ error ≠ 0 ∧ (error = ETIMEDOUT → w.timeout_ts stage ≠ none) then
        some (e.goTo t (.test w stage error))
      else none
    | _ => none

/-! ## History -/

/-- What an onlooker notes. -/
structure History (τ : Type) where
  /-- How many `Set`s have stored. -/
  sets : ℕ
  /-- How many `Wait`s have returned true. -/
  returned : ℕ
  /-- What the thread has read of `event_status_` since it last locked the mutex. -/
  seen : τ → Option Bool
  /-- `event_status_` has changed at a step of the `Wait` that the thread is in. -/
  changed : τ → Bool

/-- What is noted of a step from `e` to `e'`. -/
def observe (h : History τ) (e : Event τ) (a : Act τ) (e' : Event τ) : History τ where
  sets := if a = .go a.thread ∧ e.phase a.thread = .setStore then h.sets + 1 else h.sets
  returned :=
    if a = .go a.thread ∧ e.phase a.thread = .waitReturn 0 then h.returned + 1 else h.returned
  seen := Function.update h.seen a.thread <|
    if e.event_mutex_ ≠ some a.thread then none
    else
      match e.phase a.thread with
      | .test .. => some e.event_status_
      | _ => h.seen a.thread
  changed := Function.update h.changed a.thread <|
    if (e.phase a.thread).waits then
      h.changed a.thread || decide (e'.event_status_ ≠ e.event_status_)
    else false

/-- The event with the history of its signals. -/
structure State (τ : Type) where
  event : Event τ
  history : History τ

/-- The constructor. -/
def init (initially_signaled : Bool) : State τ where
  event := ⟨none, initially_signaled, fun _ => .out⟩
  history := ⟨0, 0, fun _ => none, fun _ => false⟩

/-- A step, and what it adds to the history. -/
def step (s : State τ) (a : Act τ) : Option (State τ) :=
  (act is_manual_reset_ s.event a).map fun e => ⟨e, observe s.history s.event a e⟩

end Event

end RtcBase
