import RtcBase.Lib.Run

/-!
# How a `Send` is completed

A sender that has a `Thread` object waits for `ready` under the target's `crit_`, and may be
destroyed when `Send` returns. `OnMessage` sets `ready` and wakes the sender under a `crit_` too:
the sender's (`onMessageCrit`).

* `Sender`, `Receiver`, `State`, `step`: both sides, with each `crit_` as a mutex;
* `Released`: when `Send` has returned, the receiver is through with the sender's data;
* `TestsOutside`: the sender does not find `ready` set while the receiver is in its section;
* **`released_along`**: what follows for every run;
* `released_target`: under the target's `crit_` the section needs no such care.
-/

namespace RtcBase

open Run

namespace Handshake

/-- The two threads. -/
inductive Party where
  | sender
  | target
  deriving DecidableEq, Repr

/-- Who may hold a `crit_`. -/
inductive Holder where
  | sender
  | target
  | other
  deriving DecidableEq, Repr

/-- The next step of the sender in `Send`. -/
inductive Sender where
  | post
  | enter (waited : Bool)
  /-- `while (!ready)`. -/
  | test (waited : Bool)
  | leave
  | wait
  | done (waited : Bool)
  /-- `if (waited)`: waking its own socket server. -/
  | signal
  | returned
  deriving DecidableEq, Repr

/-- The next step of the target: in `Get`, then in `QueuedTaskHandler::OnMessage`. -/
inductive Receiver where
  | idle
  | handler
  | enter
  | store
  | wakeUp
  | leave
  /-- `delete msg->pdata`. -/
  | delete
  | done
  deriving DecidableEq, Repr

/-- The two `crit_`s, the flag and the event, and where the two threads are. -/
structure State where
  crit_ : Party → Option Holder
  /-- The `_SendMessage` is in the queue of the target. -/
  queued : Bool
  ready : Bool
  /-- Of the event of the sender's socket server. -/
  event_status_ : Bool
  sender : Sender
  receiver : Receiver

/-- The `Send` is about to post its message. -/
def init : State where
  crit_ _ := none
  queued := false
  ready := false
  event_status_ := false
  sender := .post
  receiver := .idle

/-- Who makes the next step. -/
inductive Act where
  | sender
  | receiver
  /-- Another thread enters or leaves a `crit_`. -/
  | lock (p : Party)
  | unlock (p : Party)
  /-- Another thread wakes the sender. -/
  | signal
  deriving DecidableEq, Repr

/-- `smsg->thread->crit_`. -/
def onMessageCrit : Party := .sender

namespace State

/-- `crit_` of a party is locked. -/
def enter (s : State) (p : Party) (h : Holder) : State :=
  { s with crit_ := Function.update s.crit_ p (some h) }

/-- `crit_` of a party is unlocked. -/
def leave (s : State) (p : Party) : State :=
  { s with crit_ := Function.update s.crit_ p none }

end State

/-- The next step of `Send`, from where it is. -/
def senderStep (s : State) : Option State :=
  match s.sender with
  | .post =>
    if s.crit_ .target = none then some { s with queued := true, sender := .enter false } else none
  | .enter waited =>
    if s.crit_ .target = none then
      some { s.enter .target .sender with sender := .test waited }
    else none
  | .test waited => some { s with sender := if s.ready then .done waited else .leave }
  | .leave => some { s.leave .target with sender := .wait }
  | .wait =>
    if s.event_status_ then some { s with event_status_ := false, sender := .enter true } else none
  | .done waited =>
    some { s.leave .target with sender := if waited then .signal else .returned }
  | .signal => some { s with event_status_ := true, sender := .returned }
  | .returned => none

/-- The section of `OnMessage` is under `crit_` of `p`. -/
def receiverStep (p : Party) (s : State) : Option State :=
  match s.receiver with
  | .idle =>
    if s.queued ∧ s.crit_ .target = none then
      some { s with queued := false, receiver := .handler }
    else none
  | .handler => some { s with receiver := .enter }
  | .enter =>
    if s.crit_ p = none then some { s.enter p .target with receiver := .store } else none
  | .store => some { s with ready := true, receiver := .wakeUp }
  | .wakeUp => some { s with event_status_ := true, receiver := .leave }
  | .leave => some { s.leave p with receiver := .delete }
  | .delete => some { s with receiver := .done }
  | .done => none

/-- A step, where the section of `OnMessage` is under `crit_` of `p`. -/
def step (p : Party) (s : State) : Act → Option State
  | .sender => senderStep s
  | .receiver => receiverStep p s
  | .lock q => if s.crit_ q = none then some (s.enter q .other) else none
  | .unlock q => if s.crit_ q = some .other then some (s.leave q) else none
  | .signal => some { s with event_status_ := true }

/-! ## The order of the steps -/

/-- The receiver has taken its last step on the data of the sender. -/
def Receiver.finished : Receiver → Bool
  | .delete => true
  | .done => true
  | _ => false

/-- `*smsg->ready = true` is past. -/
def Receiver.stored : Receiver → Bool
  | .wakeUp => true
  | .leave => true
  | .delete => true
  | .done => true
  | _ => false

/-- The sender has found `ready` set. -/
def Sender.leaves : Sender → Bool
  | .done _ => true
  | .signal => true
  | .returned => true
  | _ => false

/-- When `Send` has returned, the receiver is through with the sender's data. -/
def Released (s : State) : Prop := s.sender = .returned → s.receiver.finished = true

/-- If the step is the test of `ready` and it is set, then the receiver has left its section. -/
def TestsOutside (s : State) (a : Act) : Prop :=
  a = .sender → (s.sender = .test false ∨ s.sender = .test true) → s.ready = true →
    s.receiver.finished = true

instance (s : State) (a : Act) : Decidable (TestsOutside s a) :=
  inferInstanceAs (Decidable (_ → _ → _ → _))

/-- **The invariant**: the flag is set when the receiver has stored it, and the sender leaves no
sooner than the receiver has finished with it. -/
structure Inv (s : State) : Prop where
  ready : s.ready = s.receiver.stored
  released : s.sender.leaves = true → s.receiver.finished = true

theorem init_inv : Inv init := ⟨rfl, fun h => absurd h Bool.false_ne_true⟩

variable {p : Party} {s s' : State}

theorem inv_sender (h : Inv s) (hok : TestsOutside s .sender) (hs : senderStep s = some s') :
    Inv s' := by
  have hno : ∀ {P : Prop}, false = true → P := fun h => absurd h Bool.false_ne_true
  cases ho : s.sender with
  | test waited =>
    simp only [senderStep, ho, Option.some.injEq] at hs
    subst hs
    refine ⟨h.ready, fun hl => ?_⟩
    cases hready : s.ready with
    | false => simp [hready, Sender.leaves] at hl
    | true => exact hok rfl (by cases waited <;> simp [ho]) hready
  | done waited =>
    simp only [senderStep, ho, Option.some.injEq] at hs
    subst hs
    exact ⟨h.ready, fun _ => h.released (by rw [ho]; rfl)⟩
  | signal =>
    simp only [senderStep, ho, Option.some.injEq] at hs
    subst hs
    exact ⟨h.ready, fun _ => h.released (by rw [ho]; rfl)⟩
  | returned => simp [senderStep, ho] at hs
  | leave =>
    simp only [senderStep, ho, Option.some.injEq] at hs
    subst hs
    exact ⟨h.ready, hno⟩
  | _ =>
    simp only [senderStep, ho] at hs
    split_ifs at hs
    cases hs
    exact ⟨h.ready, hno⟩

theorem inv_receiver (h : Inv s) (hs : receiverStep p s = some s') : Inv s' := by
  have hready := h.ready
  -- before the end of its section the sender has not found `ready` set
  have hleaves : s.receiver.finished = false → s.sender.leaves = true → ∀ {P : Prop}, P :=
    fun hf hl => absurd (hf.symm.trans (h.released hl)) Bool.false_ne_true
  cases ho : s.receiver <;> rw [ho] at hready hleaves
  case done => simp [receiverStep, ho] at hs
  case idle | enter =>
    simp only [receiverStep, ho] at hs
    split_ifs at hs
    cases hs
    exact ⟨hready, fun hl => hleaves rfl hl⟩
  case handler | wakeUp =>
    simp only [receiverStep, ho, Option.some.injEq] at hs
    subst hs
    exact ⟨hready, fun hl => hleaves rfl hl⟩
  case store =>
    simp only [receiverStep, ho, Option.some.injEq] at hs
    subst hs
    exact ⟨rfl, fun hl => hleaves rfl hl⟩
  case leave | delete =>
    simp only [receiverStep, ho, Option.some.injEq] at hs
    subst hs
    exact ⟨hready, fun _ => rfl⟩

/-- **One step** that tests outside. -/
theorem inv_step (h : Inv s) {a : Act} (hok : TestsOutside s a) (hs : step p s a = some s') :
    Inv s' := by
  cases a with
  | sender => exact inv_sender h hok hs
  | receiver => exact inv_receiver h hs
  | lock q =>
    simp only [step] at hs
    split_ifs at hs
    cases hs
    exact ⟨h.ready, h.released⟩
  | unlock q =>
    simp only [step] at hs
    split_ifs at hs
    cases hs
    exact ⟨h.ready, h.released⟩
  | signal =>
    cases hs
    exact ⟨h.ready, h.released⟩

/-- A test inside the section: the sender can return while the receiver is still in it. -/
theorem not_released_of_inside {a : Act} (hok : ¬ TestsOutside s a) (hs : step p s a = some s') :
    ∃ as s'', exec (step p) s' as = some s'' ∧ ¬ Released s'' := by
  simp only [TestsOutside, Classical.not_imp, Bool.not_eq_true] at hok
  obtain ⟨rfl, htest, hready, hfinished⟩ := hok
  have hfail : ∀ s'' : State, s''.sender = .returned → s''.receiver = s.receiver →
      ¬ Released s'' := by
    intro s'' hreturned hreceiver hreleased
    have := hreleased hreturned
    rw [hreceiver, hfinished] at this
    exact Bool.false_ne_true this
  rcases htest with ho | ho
  · simp only [step, senderStep, ho, hready, if_true, Option.some.injEq] at hs
    subst hs
    exact ⟨[.sender], _, rfl, hfail _ rfl rfl⟩
  · simp only [step, senderStep, ho, hready, if_true, Option.some.injEq] at hs
    subst hs
    exact ⟨[.sender, .sender], _, rfl, hfail _ rfl rfl⟩

/-- **How a `Send` is completed.** In a run in which the sender never finds `ready` set while the
receiver is between its store and its release of the sender's `crit_`, the receiver is through with
the sender's data when `Send` returns. Every other test can be followed by such a return. -/
theorem released_along (as : List Act) :
    (Along (step onMessageCrit) TestsOutside init as →
      Always (step onMessageCrit) Released init as) ∧
    ∀ s a s', exec (step onMessageCrit) init as = some s → ¬ TestsOutside s a →
      step onMessageCrit s a = some s' →
        ∃ bs s'', exec (step onMessageCrit) s' bs = some s'' ∧ ¬ Released s'' := by
  refine ⟨fun hok => ?_, fun s a s' _ hbad hs => not_released_of_inside hbad hs⟩
  refine always_of_along Inv Released (fun s h hr => ?_)
    (fun s a s' h hok hs => inv_step h hok hs) init_inv hok
  exact h.released (by rw [hr]; rfl)

/-! ## Under one `crit_` -/

/-- In the section of `OnMessage`. -/
def Receiver.inside : Receiver → Bool
  | .store => true
  | .wakeUp => true
  | .leave => true
  | _ => false

/-- Between `Enter` and `Leave` in `Send`. -/
def Sender.inside : Sender → Bool
  | .test _ => true
  | .leave => true
  | .done _ => true
  | _ => false

/-- With the section of `OnMessage` under the target's `crit_`. -/
structure MutexInv (s : State) : Prop where
  inv : Inv s
  sender : s.sender.inside = true → s.crit_ .target = some .sender
  receiver : s.receiver.inside = true → s.crit_ .target = some .target

theorem init_mutexInv : MutexInv init :=
  ⟨init_inv, fun h => absurd h Bool.false_ne_true, fun h => absurd h Bool.false_ne_true⟩

theorem testsOutside_of_mutex (h : MutexInv s) (a : Act) : TestsOutside s a := by
  intro _ htest hready
  have hsender : s.crit_ .target = some .sender :=
    h.sender (by rcases htest with ho | ho <;> rw [ho] <;> rfl)
  have hinside : s.receiver.inside = false := by
    by_contra hin
    cases (h.receiver (by simpa using hin)).symm.trans hsender
  have hstored := h.inv.ready.symm.trans hready
  cases ho : s.receiver <;> rw [ho] at hinside hstored <;>
    first | rfl | exact absurd hinside Bool.noConfusion | exact absurd hstored Bool.noConfusion

theorem mutex_sender (h : MutexInv s) (hs : senderStep s = some s') :
    (s'.sender.inside = true → s'.crit_ .target = some .sender) ∧
      (s'.receiver.inside = true → s'.crit_ .target = some .target) := by
  have hno : ∀ {P : Prop}, false = true → P := fun h => absurd h Bool.false_ne_true
  -- while the sender holds the `crit_` the receiver is outside
  have hout : ∀ {P : Prop}, s.sender.inside = true → s.receiver.inside = true → P :=
    fun h₁ h₂ => by cases (h.receiver h₂).symm.trans (h.sender h₁)
  cases ho : s.sender <;> rw [ho] at hout
  case returned => simp [senderStep, ho] at hs
  case post | wait =>
    simp only [senderStep, ho] at hs
    split_ifs at hs
    cases hs
    exact ⟨hno, h.receiver⟩
  case enter waited =>
    simp only [senderStep, ho] at hs
    split_ifs at hs with hfree
    cases hs
    refine ⟨fun _ => by simp [State.enter], fun hr => ?_⟩
    cases hfree.symm.trans (h.receiver hr)
  case test waited =>
    simp only [senderStep, ho, Option.some.injEq] at hs
    subst hs
    exact ⟨fun _ => h.sender (by rw [ho]; rfl), h.receiver⟩
  case leave =>
    simp only [senderStep, ho, Option.some.injEq] at hs
    subst hs
    exact ⟨hno, fun hr => hout rfl hr⟩
  case done waited =>
    simp only [senderStep, ho, Option.some.injEq] at hs
    subst hs
    refine ⟨fun hin => ?_, fun hr => hout rfl hr⟩
    cases waited <;> exact hno hin
  case signal =>
    simp only [senderStep, ho, Option.some.injEq] at hs
    subst hs
    exact ⟨hno, h.receiver⟩

theorem mutex_receiver (h : MutexInv s) (hs : receiverStep .target s = some s') :
    (s'.sender.inside = true → s'.crit_ .target = some .sender) ∧
      (s'.receiver.inside = true → s'.crit_ .target = some .target) := by
  have hno : ∀ {P : Prop}, false = true → P := fun h => absurd h Bool.false_ne_true
  cases ho : s.receiver
  case done => simp [receiverStep, ho] at hs
  case idle =>
    simp only [receiverStep, ho] at hs
    split_ifs at hs
    cases hs
    exact ⟨h.sender, hno⟩
  case enter =>
    simp only [receiverStep, ho] at hs
    split_ifs at hs with hfree
    cases hs
    refine ⟨fun hin => ?_, fun _ => by simp [State.enter]⟩
    cases hfree.symm.trans (h.sender hin)
  case handler | delete =>
    simp only [receiverStep, ho, Option.some.injEq] at hs
    subst hs
    exact ⟨h.sender, hno⟩
  case store | wakeUp =>
    simp only [receiverStep, ho, Option.some.injEq] at hs
    subst hs
    exact ⟨h.sender, fun _ => h.receiver (by rw [ho]; rfl)⟩
  case leave =>
    simp only [receiverStep, ho, Option.some.injEq] at hs
    subst hs
    refine ⟨fun hin => ?_, hno⟩
    cases (h.receiver (by rw [ho]; rfl)).symm.trans (h.sender hin)

theorem mutex_step (h : MutexInv s) {a : Act} (hs : step .target s a = some s') :
    MutexInv s' := by
  have hinv := inv_step h.inv (testsOutside_of_mutex h a) hs
  suffices hmutex : (s'.sender.inside = true → s'.crit_ .target = some .sender) ∧
      (s'.receiver.inside = true → s'.crit_ .target = some .target) from
    ⟨hinv, hmutex.1, hmutex.2⟩
  cases a with
  | sender => exact mutex_sender h hs
  | receiver => exact mutex_receiver h hs
  | lock q =>
    simp only [step] at hs
    split_ifs at hs with hfree
    cases hs
    have hkeep : ∀ holder, s.crit_ .target = some holder →
        (s.enter q .other).crit_ .target = some holder := by
      intro holder hh
      have hne : Party.target ≠ q := by
        rintro rfl
        cases hfree.symm.trans hh
      simpa [State.enter, hne] using hh
    exact ⟨fun hin => hkeep _ (h.sender hin), fun hin => hkeep _ (h.receiver hin)⟩
  | unlock q =>
    simp only [step] at hs
    split_ifs at hs with hother
    cases hs
    have hkeep : ∀ holder, holder ≠ .other → s.crit_ .target = some holder →
        (s.leave q).crit_ .target = some holder := by
      intro holder hholder hh
      have hne : Party.target ≠ q := by
        rintro rfl
        exact hholder (Option.some.inj (hh.symm.trans hother))
      simpa [State.leave, hne] using hh
    exact ⟨fun hin => hkeep _ nofun (h.sender hin), fun hin => hkeep _ nofun (h.receiver hin)⟩
  | signal =>
    cases hs
    exact ⟨h.sender, h.receiver⟩

/-- **Under the target's `crit_`**, where the sender tests `ready`, no run needs a condition. -/
theorem released_target (as : List Act) : Always (step .target) Released init as := by
  refine always MutexInv Released (fun s h hr => ?_) (fun s a s' h hs => mutex_step h hs)
    init_mutexInv
  exact h.inv.released (by rw [hr]; rfl)

/-! ## Two runs -/

/-- The sender finds `ready` set before the receiver has woken it. -/
def earlyReturn : List Act :=
  [.sender, .receiver, .receiver, .receiver, .receiver, .sender, .sender, .sender]

theorem not_released : ∃ s, exec (step onMessageCrit) init earlyReturn = some s ∧
    s.sender = .returned ∧ s.receiver = .wakeUp ∧ ¬ Released s :=
  ⟨_, rfl, rfl, rfl, fun h => absurd (h rfl) Bool.false_ne_true⟩

/-- The sender waits, and wakes when the receiver has left its section. -/
def lateReturn : List Act :=
  [.sender, .sender, .sender, .sender, .receiver, .receiver, .receiver, .receiver, .receiver,
    .receiver, .sender, .sender, .sender, .sender, .sender]

theorem released_along_sample : ∃ s, exec (step onMessageCrit) init lateReturn = some s ∧
    s.sender = .returned ∧ s.receiver = .delete ∧
      Always (step onMessageCrit) Released init lateReturn :=
  ⟨_, rfl, rfl, rfl, (released_along lateReturn).1 (by decide)⟩

end Handshake

end RtcBase
