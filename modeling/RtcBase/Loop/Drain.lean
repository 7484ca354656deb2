import RtcBase.Loop.Step
import RtcBase.Thread.Refine

/-!
# What is delivered before `Get` gives up

`Get` tests for ready messages in its locked section, and tests `stop_` after it.

* `Drains`: when `Get` is about to return false, it has returned every message that had become
  ready before the store of `Quit`;
* `QuitInTime`: the store does not fall between the two tests while a message is ready;
* **`drains_iff`**: the one holds all along a run just when the other does.
-/

namespace RtcBase

open Run

namespace Loop

variable {ι Handler Data : Type} {s s' : State ι Handler Data}

/-- `Get` has found no ready message, and is going to load `stop_`. -/
def Owner.testsQuit {M : Type} : Owner M → Bool
  | .quitTest .. => true
  | _ => false

/-- `Get` will find `stop_` set. -/
def State.ReturnsFalse (s : State ι Handler Data) : Prop :=
  s.owner.testsQuit = true ∧ s.thread.stop_ = true

/-- All that had become ready at the last store of `Quit` was returned by `Get`, but for the
`MQID_DISPOSE` messages, which `Get` deletes. -/
def State.Delivered (s : State ι Handler Data) : Prop :=
  (s.pushes.take s.promised).filter (!·.isDispose) <+: s.gets

/-- A `Get` that returns `false` leaves nothing behind that was promised. -/
def State.Drains (s : State ι Handler Data) : Prop := s.ReturnsFalse → s.Delivered

/-- If the step is the store of `Quit` and `Get` has just found no ready message, then none has
become ready since. -/
def QuitInTime (s : State ι Handler Data) (a : Act ι Handler Data) : Prop :=
  ∀ i ∈ a.client?, s.client i = .quitStore → s.owner.testsQuit = true →
    ∀ msg ∈ s.thread.messages_, msg.isDispose = true

instance [DecidableEq ι] [DecidableEq Handler] [DecidableEq Data] (s : State ι Handler Data)
    (a : Act ι Handler Data) : Decidable (QuitInTime s a) :=
  inferInstanceAs (Decidable (∀ i ∈ a.client?, _ → _))

/-- The step is a `Clear`. -/
def Act.isClear : Act ι Handler Data → Bool
  | .clear .. => true
  | _ => false

/-- **The invariant**: what is pushed is received or still there, and once `Get` tests `stop_` all
that was promised is received. -/
structure DrainInv (s : State ι Handler Data) : Prop where
  log : s.pushes.filter (!·.isDispose) = s.gets ++ s.thread.messages_.filter (!·.isDispose)
  promised : s.promised ≤ s.pushes.length
  tested : s.owner.testsQuit = true → s.Delivered

theorem init_drainInv : DrainInv (init : State ι Handler Data) where
  log := rfl
  promised := le_refl 0
  tested h := absurd h Bool.false_ne_true

theorem delivered_of_empty (hlog : s.pushes.filter (!·.isDispose) =
      s.gets ++ s.thread.messages_.filter (!·.isDispose))
    (h : s.thread.messages_.filter (!·.isDispose) = []) : s.Delivered := by
  rw [h, List.append_nil] at hlog
  rw [State.Delivered, ← hlog]
  exact (List.take_prefix _ _).filter _

theorem DrainInv.congr (h : DrainInv s) (hm : s'.thread.messages_ = s.thread.messages_)
    (hp : s'.pushes = s.pushes) (hq : s'.promised = s.promised) (hg : s'.gets = s.gets)
    (ho : s'.owner.testsQuit = true → s.owner.testsQuit = true) : DrainInv s' := by
  refine ⟨by rw [hm, hp, hg]; exact h.log, by rw [hp, hq]; exact h.promised, fun htest => ?_⟩
  rw [State.Delivered, hp, hq, hg]
  exact h.tested (ho htest)

theorem log_locked (h : DrainInv s) (due : List (QueuedMessage ι Handler Data)) :
    (s.pushes ++ due).filter (!·.isDispose) =
      s.gets ++ (s.thread.messages_ ++ due).filter (!·.isDispose) := by
  rw [List.filter_append, h.log, List.filter_append, List.append_assoc]

section Step

variable [DecidableEq ι] [DecidableEq Handler] {heap : LoopHeap ι Handler Data}

/-- **One step** that is in time. -/
theorem drainInv_step (h : DrainInv s) {a : Act ι Handler Data} (ha : a.isClear = false)
    (hok : QuitInTime s a) (hs : step heap s a = some s') : DrainInv s' := by
  have hpromised : ∀ l : List (QueuedMessage ι Handler Data),
      s.promised ≤ (s.pushes ++ l).length := fun l => by
    rw [List.length_append]
    exact h.promised.trans (Nat.le_add_right _ _)
  have hno : ∀ {P : Prop}, false = true → P := fun h => absurd h Bool.false_ne_true
  cases step_cases hs with
  | get ho hn => exact h.congr rfl rfl rfl rfl hno
  | lockedEmpty ho hn hm =>
    have hlog := log_locked h
    refine ⟨?_, hpromised _, fun _ => delivered_of_empty ?_ rfl⟩
    all_goals
      rw [State.afterLocked, hlog, hm]
  | lockedDispose ho hn hm hmsg =>
    refine ⟨?_, hpromised _, hno⟩
    rw [State.afterLocked, log_locked h, hm, List.filter_cons_of_neg (by simp [hmsg])]
  | lockedGet ho hn hm hmsg =>
    refine ⟨?_, hpromised _, hno⟩
    rw [State.afterLocked, log_locked h, hm, List.filter_cons_of_pos (by simp [hmsg])]
    simp
  | disposed ho hn => exact h.congr rfl rfl rfl rfl hno
  | stopped ho hstop => exact h.congr rfl rfl rfl rfl hno
  | running ho hstop => exact h.congr rfl rfl rfl rfl hno
  | consumed ho => exact h.congr rfl rfl rfl rfl hno
  | blocked ho he => exact h.congr rfl rfl rfl rfl hno
  | timeout ho => exact h.congr rfl rfl rfl rfl hno
  | expired ho => exact h.congr rfl rfl rfl rfl hno
  | again ho => exact h.congr rfl rfl rfl rfl hno
  | dispatched ho hn => exact h.congr rfl rfl rfl rfl hno
  | @push i caller msg hc =>
    refine ⟨log_locked h _, hpromised _, fun htest => ?_⟩
    have htake : (s.pushes ++ [msg]).take s.promised = s.pushes.take s.promised :=
      List.take_append_of_le_length h.promised
    rw [State.Delivered]
    simp only [State.setClient_pushes, State.setClient_promised, State.setClient_gets, htake]
    exact h.tested htest
  | quitStore hc =>
    refine ⟨h.log, le_refl _, fun htest => delivered_of_empty h.log ?_⟩
    rw [List.filter_eq_nil_iff]
    intro msg hmsg
    simp [hok _ rfl hc htest msg hmsg]
  | clear => exact absurd ha Bool.noConfusion
  | _ => exact h.congr rfl rfl rfl rfl id

/-- A store that is not in time: `Get` returns false, and a message is left. -/
theorem not_drains_of_late (h : DrainInv s) {a : Act ι Handler Data} (hok : ¬ QuitInTime s a)
    (hs : step heap s a = some s') : ¬ s'.Drains := by
  simp only [QuitInTime, not_forall] at hok
  obtain ⟨i, ha, hc, htest, msg, hmsg, hdispose⟩ := hok
  obtain rfl : a = .client i := by
    cases a <;> cases ha
    rfl
  simp only [step, clientStep, hc, Option.some.injEq] at hs
  subst hs
  intro hdrains
  have hprefix := (hdrains ⟨htest, rfl⟩).length_le
  have hmem : msg ∈ s.thread.messages_.filter (!·.isDispose) :=
    List.mem_filter.mpr ⟨hmsg, by simpa using hdispose⟩
  have hpos := List.length_pos_of_mem hmem
  simp only [State.setClient_pushes, State.setClient_promised, State.setClient_gets,
    List.take_length, h.log, List.length_append] at hprefix
  omega

/-- **What `Quit` leaves behind.** In a run without `Clear`, `Get` has returned all that had become
ready before the store of `Quit` whenever it gives up, just when no such store falls between the
two tests of `Get` while a message is ready. -/
theorem drains_iff (heap : LoopHeap ι Handler Data) (as : List (Act ι Handler Data))
    (hclear : ∀ a ∈ as, a.isClear = false) (h : exec (step heap) init as = some s) :
    Always (step heap) State.Drains init as ↔ Along (step heap) QuitInTime init as := by
  refine always_iff_along (fun _ a => a.isClear = false) DrainInv State.Drains ?_ ?_ ?_
    init_drainInv h (along_of_forall hclear)
  · exact fun s h hfalse => h.tested hfalse.1
  · exact fun s a s' h ha hok hs => drainInv_step h ha hok hs
  · exact fun s a s' h _ hok hs => not_drains_of_late h hok hs

end Step

/-- A message is entered and `Quit` is called while the owner is in the middle of `Get`. -/
def lateQuit : List (Act ℕ ℕ Unit) :=
  [.get Thread.kForever 0, .owner, .post 0 {}, .client 0, .client 0, .quit 1, .client 1]

theorem not_drains : ∃ s, exec (step Thread.sortedHeap) init lateQuit = some s ∧
    s.ReturnsFalse ∧ s.thread.messages_ = [Message.queued {}] ∧ s.promised = 1 ∧ s.gets = [] ∧
      ¬ s.Drains :=
  ⟨_, rfl, ⟨rfl, rfl⟩, rfl, rfl, rfl, fun h => absurd (h ⟨rfl, rfl⟩).length_le (by decide)⟩

/-- The same message, entered and taken before `Quit`. -/
def earlyQuit : List (Act ℕ ℕ Unit) :=
  [.post 0 {}, .client 0, .client 0, .get Thread.kForever 0, .owner, .owner, .quit 1, .client 1,
    .get Thread.kForever 0, .owner]

theorem drains_sample : ∃ s, exec (step Thread.sortedHeap) init earlyQuit = some s ∧
    s.ReturnsFalse ∧ s.gets = [Message.queued {}] ∧
      Always (step Thread.sortedHeap) State.Drains init earlyQuit := by
  refine ⟨_, rfl, ⟨rfl, rfl⟩, rfl, (drains_iff Thread.sortedHeap earlyQuit (by decide) rfl).mpr ?_⟩
  decide

end Loop

end RtcBase
