import RtcBase.Loop.Step
import RtcBase.Thread.Refine

/-!
# No wake-up is lost

The event of the socket server is one bit, and the owner's own calls of `Send` use it up too.

* `Signalled`: the event is set, or a client is about to set it;
* `WakeInv`: while `Get` is past its look at a store, news in that store have signalled, or a
  nested `Send` that has waited will;
* `inv_step`: every step of every interleaving;
* **`no_lost_wakeUp`**: what follows for every run.
-/

namespace RtcBase

open Run

namespace Loop

variable {ι Handler Data : Type} {s s' : State ι Handler Data}

/-- The client has entered its message or stored `stop_`, and has not called `WakeUp`. -/
def Client.wakes : Client ι Handler Data → Bool
  | .wakeUp _ => true
  | _ => false

/-- The event is set, or some client is going to set it. -/
def State.Signalled (s : State ι Handler Data) : Prop :=
  s.event_status_ = true ∨ ∃ i, (s.client i).wakes = true

/-- `Get` has found no ready message, and has not looked again. -/
def Owner.emptied {M : Type} : Owner M → Bool
  | .quitTest .. => true
  | .wait .. => true
  | .blocked .. => true
  | _ => false

/-- `Get` has found `stop_` unset, and has not looked again. -/
def Owner.waits {M : Type} : Owner M → Bool
  | .wait .. => true
  | .blocked .. => true
  | _ => false

/-- `Get` has looked at the delayed messages, and will not do so before its next wait. -/
def Owner.scanned {M : Type} : Owner M → Bool
  | .locked _ first_pass _ _ => !first_pass
  | .dispose .. => true
  | .quitTest .. => true
  | .wait .. => true
  | .blocked .. => true
  | _ => false

/-- The owner is asleep in `Get`, nobody is going to wake it, and there is something to do. -/
structure LostWakeUp (s : State ι Handler Data) : Prop where
  asleep : ∃ call cms, s.owner = .blocked call cms
  unsignaled : s.event_status_ = false
  nobody : ∀ i, (s.client i).wakes = false
  work : s.thread.messages_ ≠ [] ∨ s.thread.stop_ = true ∨ s.fresh = true

/-- **The invariant**: whatever the owner has not seen yet is signalled. -/
structure WakeInv (s : State ι Handler Data) : Prop where
  calls : s.nested ≠ .none → s.owner.callsOut = true
  ready : s.owner.emptied = true → s.thread.messages_ ≠ [] → s.Signalled
  stop : s.owner.waits = true → s.thread.stop_ = true → s.Signalled
  delayed : s.owner.scanned = true → s.fresh = true → s.Signalled ∨ s.nested.owes = true

theorem init_wakeInv : WakeInv (init : State ι Handler Data) where
  calls h := absurd rfl h
  ready h := absurd h Bool.false_ne_true
  stop h := absurd h Bool.false_ne_true
  delayed h := absurd h Bool.false_ne_true

theorem WakeInv.of_signalled (hcalls : s.nested ≠ .none → s.owner.callsOut = true)
    (h : s.Signalled) : WakeInv s :=
  ⟨hcalls, fun _ _ => h, fun _ _ => h, fun _ _ => Or.inl h⟩

/-- The owner goes on to a state in which it will look at the stores again. -/
theorem WakeInv.of_owner (hcalls : s.nested ≠ .none → s.owner.callsOut = true)
    (h : s.owner.scanned = false) : WakeInv s := by
  refine ⟨hcalls, fun he => ?_, fun hw => ?_, fun hs => absurd (h.symm.trans hs) Bool.false_ne_true⟩
  · cases ho : s.owner <;> simp [Owner.emptied, Owner.scanned, ho] at he h
  · cases ho : s.owner <;> simp [Owner.waits, Owner.scanned, ho] at hw h

theorem WakeInv.setReady (h : WakeInv s) (ready : ι → Bool) : WakeInv { s with ready := ready } :=
  ⟨h.calls, h.ready, h.stop, h.delayed⟩

section Step

variable [DecidableEq ι]

theorem signalled_setClient {i : ι} (c : Client ι Handler Data)
    (hi : (s.client i).wakes = false) (h : s.Signalled) : (s.setClient i c).Signalled := by
  refine h.imp_right ?_
  rintro ⟨j, hj⟩
  refine ⟨j, ?_⟩
  have hne : j ≠ i := by
    rintro rfl
    exact Bool.false_ne_true (hi.symm.trans hj)
  rwa [State.setClient_of_ne s i c hne]

theorem signalled_wakeUp (s : State ι Handler Data) (i : ι) (caller : Caller) :
    (s.setClient i (.wakeUp caller)).Signalled :=
  Or.inr ⟨i, by rw [State.setClient_self]; rfl⟩

theorem WakeInv.setClient (h : WakeInv s) {i : ι} (c : Client ι Handler Data)
    (hi : (s.client i).wakes = false) : WakeInv (s.setClient i c) where
  calls := h.calls
  ready he hm := signalled_setClient c hi (h.ready he hm)
  stop hw hs := signalled_setClient c hi (h.stop hw hs)
  delayed hs hf := (h.delayed hs hf).imp_left (signalled_setClient c hi)

variable [DecidableEq Handler] {heap : LoopHeap ι Handler Data}

theorem clearInternal_ready {H D : Type} [DecidableEq H]
    (heap : Heap.StdHeap (@DelayedMessage.lt H D)) (t : Thread H D) (phandler : Option H)
    (id : UInt32) (h : (t.clearInternal heap phandler id).1.messages_ ≠ []) :
    t.messages_ ≠ [] := by
  intro hnil
  simp [Thread.clearInternal, hnil] at h

/-- **One step.** -/
theorem inv_step (h : WakeInv s) {a : Act ι Handler Data} (hs : step heap s a = some s') :
    WakeInv s' := by
  -- where the owner is in `Get` it is not in a nested `Send`
  have hcalls : s.owner.callsOut = false → s.nested = .none := fun hout => by
    by_contra hn
    exact Bool.false_ne_true (hout.symm.trans (h.calls hn))
  -- what was entered while `Get` was scanning is still news after a locked section
  have hscan : ∀ first_pass : Bool, s.owner.scanned = !first_pass →
      (s.fresh && !first_pass) = true → s.Signalled ∨ s.nested.owes = true := by
    intro first_pass ho hf
    rw [Bool.and_eq_true] at hf
    exact h.delayed (ho.trans hf.2) hf.1
  cases step_cases hs with
  | get ho hn => exact .of_owner (fun h => absurd hn h) rfl
  | lockedEmpty ho hn hm =>
    refine ⟨fun h => absurd hn h, fun _ h => absurd rfl h, fun h => absurd h Bool.false_ne_true, ?_⟩
    exact fun _ hf => hscan _ (by rw [ho]; rfl) hf
  | lockedDispose ho hn hm hmsg =>
    refine ⟨fun _ => rfl, fun h => absurd h Bool.false_ne_true,
      fun h => absurd h Bool.false_ne_true, ?_⟩
    exact fun _ hf => hscan _ (by rw [ho]; rfl) hf
  | lockedGet ho hn hm hmsg => exact .of_owner (fun _ => rfl) rfl
  | disposed ho hn =>
    refine ⟨fun h => absurd hn h, fun h => absurd h Bool.false_ne_true,
      fun h => absurd h Bool.false_ne_true, ?_⟩
    exact fun _ hf => h.delayed (by rw [ho]; rfl) hf
  | stopped ho hstop => exact .of_owner (fun _ => rfl) rfl
  | running ho hstop =>
    refine ⟨fun hn => absurd (hcalls (by rw [ho]; rfl)) hn,
      fun _ hm => h.ready (by rw [ho]; rfl) hm,
      fun _ hs => absurd (hstop.symm.trans hs) Bool.false_ne_true, ?_⟩
    exact fun _ hf => h.delayed (by rw [ho]; rfl) hf
  | consumed ho =>
    refine .of_owner (fun hn => absurd (hcalls ?_) hn) rfl
    rcases ho with ho | ho <;> rw [ho] <;> rfl
  | blocked ho he =>
    refine ⟨fun hn => absurd (hcalls (by rw [ho]; rfl)) hn,
      fun _ hm => h.ready (by rw [ho]; rfl) hm,
      fun _ hs => h.stop (by rw [ho]; rfl) hs, ?_⟩
    exact fun _ hf => h.delayed (by rw [ho]; rfl) hf
  | timeout ho => exact .of_owner (fun hn => absurd (hcalls (by rw [ho]; rfl)) hn) rfl
  | expired ho => exact .of_owner (fun _ => rfl) rfl
  | again ho => exact .of_owner (fun hn => absurd (hcalls (by rw [ho]; rfl)) hn) rfl
  | dispatched ho hn => exact .of_owner (fun _ => rfl) rfl
  | nestedMove howes hout =>
    refine ⟨fun _ => hout.elim h.calls id, h.ready, h.stop, ?_⟩
    exact fun hs hf => (h.delayed hs hf).imp_right howes.trans
  | nestedConsume howes hn =>
    -- the event is used up, but the nested call has now waited
    have hout := h.calls hn
    refine ⟨fun _ => hout, fun he => ?_, fun hw => ?_, fun _ _ => Or.inr howes⟩
    · cases ho : s.owner <;> simp [Owner.emptied, Owner.callsOut, ho] at he hout
    · cases ho : s.owner <;> simp [Owner.waits, Owner.callsOut, ho] at hw hout
  | nestedSignal hn => exact .of_signalled (fun h => absurd rfl h) (Or.inl rfl)
  | signal => exact .of_signalled h.calls (Or.inl rfl)
  | begin hc hbegin => exact h.setClient _ (by rw [hc]; rfl)
  | clear =>
    exact ⟨h.calls, fun he hm => h.ready he (clearInternal_ready _ _ _ _ hm), h.stop, h.delayed⟩
  | sendRefused hc => exact h.setClient _ (by rw [hc]; rfl)
  | sendStart hc hstop =>
    exact (h.setReady _).setClient _ (by rw [hc]; rfl)
  | postRefused hc hstop => exact h.setClient _ (by rw [hc]; rfl)
  | postTested hc hstop => exact h.setClient _ (by rw [hc]; rfl)
  | push hc => exact .of_signalled h.calls (signalled_wakeUp _ _ _)
  | delayRefused hc => exact h.setClient _ (by rw [hc]; rfl)
  | delayTested hc => exact h.setClient _ (by rw [hc]; rfl)
  | pushDelayed hc => exact .of_signalled h.calls (signalled_wakeUp _ _ _)
  | quitStore hc => exact .of_signalled h.calls (signalled_wakeUp _ _ _)
  | wakeUp hc => exact .of_signalled h.calls (Or.inl rfl)
  | readyTest hc hready => exact h.setClient _ (by rw [hc]; rfl)
  | readyWait hc => exact h.setClient _ (by rw [hc]; rfl)
  | sent hc hready hend =>
    refine h.setClient _ ?_
    rcases hc with ⟨waited, hc⟩ | hc <;> rw [hc] <;> rfl
  | signalled hc => exact h.setClient _ (by rw [hc]; rfl)

/-- **No wake-up is lost.** In no run of any number of clients, whatever the interleaving, does the
owner come to sleep in `Get` with the event unset and nobody about to set it, while a message is
ready, `stop_` is set or a delayed message was entered since `Get` computed its timeout. -/
theorem no_lost_wakeUp (heap : LoopHeap ι Handler Data) (as : List (Act ι Handler Data))
    (h : exec (step heap) init as = some s) : ¬ LostWakeUp s := by
  have hinv : WakeInv s :=
    invariant WakeInv (fun _ _ _ h hs => inv_step h hs) init_wakeInv h
  rintro ⟨⟨call, cms, ho⟩, he, hnobody, hwork⟩
  have hunsignalled : ¬ s.Signalled := by
    rintro (h | ⟨i, hi⟩)
    · exact Bool.false_ne_true (he.symm.trans h)
    · exact Bool.false_ne_true ((hnobody i).symm.trans hi)
  have hnested : s.nested = .none := by
    by_contra hn
    have := hinv.calls hn
    rw [ho] at this
    exact Bool.false_ne_true this
  rcases hwork with hm | hstop | hf
  · exact hunsignalled (hinv.ready (by rw [ho]; rfl) hm)
  · exact hunsignalled (hinv.stop (by rw [ho]; rfl) hstop)
  · rcases hinv.delayed (by rw [ho]; rfl) hf with h | h
    · exact hunsignalled h
    · rw [hnested] at h
      exact Bool.false_ne_true h

end Step

/-- A message is entered after `Get` has found none; the client has still to call `WakeUp` when
the owner falls asleep. -/
def lateWakeUp : List (Act ℕ ℕ Unit) :=
  [.get Thread.kForever 0, .owner, .post 0 {}, .client 0, .client 0, .owner, .owner, .client 0]

theorem no_lost_wakeUp_sample : ∃ s, exec (step Thread.sortedHeap) init lateWakeUp = some s ∧
    s.owner = .blocked ⟨Thread.kForever, 0⟩ Thread.kForever ∧ s.thread.messages_ ≠ [] ∧
      ¬ LostWakeUp s :=
  ⟨_, rfl, rfl, List.cons_ne_nil _ _, no_lost_wakeUp Thread.sortedHeap lateWakeUp rfl⟩

end Loop

end RtcBase
