import RtcBase.Loop.Step
import RtcBase.Thread.Refine

/-!
# No `Send` waits in vain

`Send` posts its message with `Post`, which drops it while the thread is quitting, and waits for
it in any case.

* `Held`, `NoOrphan`: the message of a client that waits is queued, or is being run;
* `SendInTime`: `Post` does not find `stop_` set where `Send` has not, and no `Clear` drops the
  message of a `Send`;
* `SendInv.taken`, `SendInv.dispatched`, `SendInv.push`, `SendInv.clear`: where a message moves;
* `sendInv_step`: every such step of every interleaving;
* **`noOrphan_along`**: what follows for every run.
-/

namespace RtcBase

open Run

namespace Loop

variable {ι Handler Data : Type} {s s' : State ι Handler Data} {i : ι}

/-- In `while (!ready)` or in `done_event->Wait`. -/
def Client.inWait : Client ι Handler Data → Bool
  | .readyTest _ => true
  | .readyWait => true
  | .doneWait => true
  | _ => false

/-- `Send` has called `Post`, and its message is not known to be handled. -/
def Client.hasPosted : Client ι Handler Data → Bool
  | .wakeUp (.send _) => true
  | .readyTest _ => true
  | .readyWait => true
  | .doneWait => true
  | _ => false

/-- In the test of `stop_` of a `Post` that `Send` has called. -/
def Client.testsPost : Client ι Handler Data → Bool
  | .postTest (.send _) _ => true
  | _ => false

/-- The message of the client is in the queue, or is being run by `OnMessage`. -/
def State.Held (s : State ι Handler Data) (i : ι) : Prop :=
  ∃ thread msg, sendMessage i thread msg ∈ s.thread.messages_ ∨
    s.owner = .dispatch (sendMessage i thread msg)

/-- Nobody waits for a message that was dropped. -/
def State.NoOrphan (s : State ι Handler Data) : Prop :=
  ∀ i, (s.client i).inWait = true → s.ready i = false → s.Held i

/-- The message is one of a `Send`. -/
def isSend (msg : QueuedMessage ι Handler Data) : Bool :=
  match msg.pdata with
  | some (.send _) => true
  | _ => false

/-- What a `Clear` is asked for. -/
def Act.clear? : Act ι Handler Data → Option (Option Handler × UInt32)
  | .clear _ phandler id => some (phandler, id)
  | _ => none

/-- The step does not drop the message of a `Send`. -/
def SendInTime [DecidableEq Handler] (s : State ι Handler Data) (a : Act ι Handler Data) : Prop :=
  (∀ i ∈ a.client?, (s.client i).testsPost = true → s.thread.stop_ = false) ∧
    ∀ p ∈ a.clear?, ∀ msg ∈ s.thread.messages_,
      msg.matches (p.1.map .user) p.2 = true → isSend msg = false

instance [DecidableEq Handler] (s : State ι Handler Data) (a : Act ι Handler Data) :
    Decidable (SendInTime s a) :=
  inferInstanceAs (Decidable ((∀ i ∈ a.client?, _ → _) ∧ ∀ p ∈ a.clear?, _))

/-- **The invariant**: the message of a `Send` that has no answer yet is somewhere. -/
structure SendInv (s : State ι Handler Data) : Prop where
  held : ∀ i, (s.client i).hasPosted = true → s.ready i = false → s.Held i
  /-- What a client is going to enter for `Send` is its own message. -/
  own : ∀ i thread msg, s.client i = .postTest (.send thread) msg ∨
    s.client i = .push (.send thread) msg → ∃ m, msg = sendMessage i thread m

theorem init_sendInv : SendInv (init : State ι Handler Data) where
  held i h := absurd h Bool.false_ne_true
  own i thread msg h := by rcases h with h | h <;> cases h

theorem SendInv.congr (h : SendInv s) (hclient : s'.client = s.client)
    (hready : ∀ i, s'.ready i = false → s.ready i = false)
    (hheld : ∀ i, s'.ready i = false → s.Held i → s'.Held i) : SendInv s' := by
  constructor
  · intro i hi hr
    rw [hclient] at hi
    exact hheld i hr (h.held i hi (hready i hr))
  · rw [hclient]
    exact h.own

/-- No client moves, no message is entered or taken, and none is handled. -/
theorem SendInv.of_eq (h : SendInv s) (hclient : s'.client = s.client) (hready : s'.ready = s.ready)
    (hm : s'.thread.messages_ = s.thread.messages_)
    (ho : s'.owner = s.owner ∨ ∀ msg, s.owner ≠ .dispatch msg) : SendInv s' := by
  refine h.congr hclient (fun i hi => by rwa [hready] at hi) ?_
  rintro i - ⟨thread, msg, hi⟩
  refine ⟨thread, msg, ?_⟩
  rw [hm]
  rcases ho with ho | ho
  · rwa [ho]
  · exact Or.inl (hi.resolve_right (ho _))

/-- The owner takes a message, which no `Send` waits for or which is run next. -/
theorem SendInv.taken (h : SendInv s) (hclient : s'.client = s.client) (hready : s'.ready = s.ready)
    (ho : ∀ msg, s.owner ≠ .dispatch msg)
    (hm : ∀ i thread m, sendMessage i thread m ∈ s.thread.messages_ →
      sendMessage i thread m ∈ s'.thread.messages_ ∨
        s'.owner = .dispatch (sendMessage i thread m)) : SendInv s' := by
  refine h.congr hclient (fun i hi => by rwa [hready] at hi) ?_
  rintro i - ⟨thread, msg, hi⟩
  exact ⟨thread, msg, hm i thread msg (hi.resolve_right (ho _))⟩

theorem isDispose_sendMessage (i : ι) (thread : Bool) (m : Message Handler Data) :
    (sendMessage i thread m).isDispose = false := by
  simp [Message.isDispose, sendMessage, QueuedTaskHandler.kSend, mqidDispose]

theorem Client.Begins.hasPosted {c : Client ι Handler Data} (h : c.Begins) :
    c.hasPosted = false := by
  cases c <;> first | rfl | exact h.elim

theorem Client.Begins.not_send {c : Client ι Handler Data} (h : c.Begins) (thread : Bool)
    (msg : QueuedMessage ι Handler Data) :
    ¬ (c = .postTest (.send thread) msg ∨ c = .push (.send thread) msg) := by
  rintro (rfl | rfl) <;> exact h

section Step

variable [DecidableEq ι]

theorem handled_ready {msg : QueuedMessage ι Handler Data} (h : (s.handled msg).ready i = false) :
    s.ready i = false := by
  rw [State.handled] at h
  split at h
  · rename_i smsg _
    by_cases hi : i = smsg.client
    · simp [hi] at h
    · simpa [hi] using h
  · exact h

theorem handled_sendMessage (s : State ι Handler Data) (i : ι) (thread : Bool)
    (m : Message Handler Data) : (s.handled (sendMessage i thread m)).ready i = true := by
  simp [State.handled, sendMessage]

theorem SendInv.setClient (h : SendInv s) {c : Client ι Handler Data}
    (hheld : c.hasPosted = true → s.ready i = false → s.Held i)
    (hown : ∀ thread msg, c = .postTest (.send thread) msg ∨ c = .push (.send thread) msg →
      ∃ m, msg = sendMessage i thread m) : SendInv (s.setClient i c) := by
  constructor
  · intro j hj hr
    by_cases hij : j = i
    · subst hij
      rw [State.setClient_self] at hj
      exact hheld hj hr
    · rw [State.setClient_of_ne s i c hij] at hj
      exact h.held j hj hr
  · intro j thread msg hj
    by_cases hij : j = i
    · subst hij
      rw [State.setClient_self] at hj
      exact hown thread msg hj
    · rw [State.setClient_of_ne s i c hij] at hj
      exact h.own j thread msg hj

/-- The message of a client has been run, so its flag is set. -/
theorem SendInv.dispatched (h : SendInv s) {msg : QueuedMessage ι Handler Data}
    (ho : s.owner = .dispatch msg) : SendInv { s.handled msg with owner := .idle } := by
  refine h.congr rfl (fun _ => handled_ready) ?_
  rintro i hr ⟨thread, m, hi | hi⟩
  · exact ⟨thread, m, Or.inl hi⟩
  · cases Owner.dispatch.inj (ho.symm.trans hi)
    exact absurd (hr.symm.trans (handled_sendMessage s i thread m)) Bool.false_ne_true

theorem SendInv.sendStart (h : SendInv s) (i : ι) (thread : Bool) (msg : Message Handler Data) :
    SendInv ({ s with ready := Function.update s.ready i false }.setClient i
      (.postTest (.send thread) (sendMessage i thread msg))) := by
  constructor
  · intro j hj hr
    have hij : j ≠ i := by
      rintro rfl
      rw [State.setClient_self] at hj
      exact Bool.false_ne_true hj
    rw [State.setClient_of_ne _ i _ hij] at hj
    exact h.held j hj (by simpa [hij] using hr)
  · intro j thread' msg' hj
    by_cases hij : j = i
    · subst hij
      rw [State.setClient_self] at hj
      rcases hj with hj | hj
      · cases hj
        exact ⟨msg, rfl⟩
      · cases hj
    · rw [State.setClient_of_ne _ i _ hij] at hj
      exact h.own j thread' msg' hj

theorem SendInv.push (h : SendInv s) {caller : Caller} {msg : QueuedMessage ι Handler Data}
    (hc : s.client i = .push caller msg) :
    SendInv ({ s with thread := s.thread.push msg, pushes := s.pushes ++ [msg] }.setClient i
      (.wakeUp caller)) := by
  have hpush : SendInv { s with thread := s.thread.push msg, pushes := s.pushes ++ [msg] } := by
    refine h.congr rfl (fun _ => id) ?_
    rintro j - ⟨thread, m, hj⟩
    exact ⟨thread, m, hj.imp_left (List.mem_append_left _)⟩
  refine hpush.setClient (fun hp _ => ?_) (by simp)
  cases caller with
  | plain => exact absurd hp Bool.false_ne_true
  | send thread =>
    obtain ⟨m, rfl⟩ := h.own i thread msg (Or.inr hc)
    exact ⟨thread, m, Or.inl (List.mem_append_right _ (List.mem_singleton_self _))⟩

variable [DecidableEq Handler] {heap : LoopHeap ι Handler Data}

omit [DecidableEq ι] in
theorem SendInv.clear (h : SendInv s) {phandler : Option (Target Handler)} {id : UInt32}
    (hok : ∀ msg ∈ s.thread.messages_, msg.matches phandler id = true → isSend msg = false) :
    SendInv { s with thread := (s.thread.clearInternal heap phandler id).1 } := by
  refine h.congr rfl (fun _ h => h) ?_
  rintro i - ⟨thread, msg, hi⟩
  refine ⟨thread, msg, hi.imp_left fun hmem => List.mem_filter.mpr ⟨hmem, ?_⟩⟩
  rw [Bool.not_eq_true', Bool.eq_false_iff]
  intro hmatch
  exact Bool.noConfusion (hok _ hmem hmatch)

/-- **One step** that is in time. -/
theorem sendInv_step (h : SendInv s) {a : Act ι Handler Data} (hok : SendInTime s a)
    (hs : step heap s a = some s') : SendInv s' := by
  have hno : ∀ {P : Prop}, false = true → P := fun h => absurd h Bool.false_ne_true
  cases step_cases hs with
  | get ho hn => exact h.of_eq rfl rfl rfl (Or.inr (by simp [ho]))
  | lockedEmpty ho hn hm =>
    refine h.taken rfl rfl (by simp [ho]) fun i thread m hmem => ?_
    exact absurd (hm ▸ List.mem_append_left _ hmem) List.not_mem_nil
  | lockedDispose ho hn hm hmsg =>
    refine h.taken rfl rfl (by simp [ho]) fun i thread m hmem => Or.inl ?_
    refine (List.mem_cons.mp (hm ▸ List.mem_append_left _ hmem)).resolve_left ?_
    rintro rfl
    exact hno ((isDispose_sendMessage i thread m).symm.trans hmsg)
  | lockedGet ho hn hm hmsg =>
    refine h.taken rfl rfl (by simp [ho]) fun i thread m hmem => ?_
    rcases List.mem_cons.mp (hm ▸ List.mem_append_left _ hmem) with rfl | hmem
    · exact Or.inr rfl
    · exact Or.inl hmem
  | disposed ho hn => exact h.of_eq rfl rfl rfl (Or.inr (by simp [ho]))
  | stopped ho hstop => exact h.of_eq rfl rfl rfl (Or.inr (by simp [ho]))
  | running ho hstop => exact h.of_eq rfl rfl rfl (Or.inr (by simp [ho]))
  | consumed ho =>
    refine h.of_eq rfl rfl rfl (Or.inr ?_)
    rcases ho with ho | ho <;> simp [ho]
  | blocked ho he => exact h.of_eq rfl rfl rfl (Or.inr (by simp [ho]))
  | timeout ho => exact h.of_eq rfl rfl rfl (Or.inr (by simp [ho]))
  | expired ho => exact h.of_eq rfl rfl rfl (Or.inr (by simp [ho]))
  | again ho => exact h.of_eq rfl rfl rfl (Or.inr (by simp [ho]))
  | dispatched ho hn => exact h.dispatched ho
  | nestedMove howes hcalls => exact h.of_eq rfl rfl rfl (Or.inl rfl)
  | nestedConsume howes hn => exact h.of_eq rfl rfl rfl (Or.inl rfl)
  | nestedSignal hn => exact h.of_eq rfl rfl rfl (Or.inl rfl)
  | signal => exact h.of_eq rfl rfl rfl (Or.inl rfl)
  | begin hc hbegin =>
    exact h.setClient (fun hp => hno (hbegin.hasPosted.symm.trans hp))
      fun thread msg hsend => absurd hsend (hbegin.not_send thread msg)
  | clear => exact h.clear (hok.2 _ rfl)
  | sendRefused hc => exact h.setClient hno (by simp)
  | sendStart hc hstop => exact h.sendStart _ _ _
  | @postRefused i caller msg hc hstop =>
    cases caller with
    | plain => exact h.setClient hno (by simp [Caller.return])
    | send thread =>
      have := hok.1 i rfl (by rw [hc]; rfl)
      exact hno (this.symm.trans hstop)
  | @postTested i caller msg hc hstop =>
    refine h.setClient hno fun thread msg' hsend => ?_
    rcases hsend with hsend | hsend
    · cases hsend
    · cases hsend
      exact h.own i thread msg (Or.inl hc)
  | push hc => exact h.push hc
  | delayRefused hc => exact h.setClient hno (by simp)
  | delayTested hc => exact h.setClient hno (by simp)
  | @pushDelayed i delay_ms run_at_ms msg hc =>
    have hs' : SendInv { s with
        thread := s.thread.pushDelayed heap delay_ms run_at_ms msg, fresh := true } :=
      h.of_eq rfl rfl rfl (Or.inl rfl)
    exact hs'.setClient hno (by simp)
  | quitStore hc =>
    have hs' : SendInv { s with
        thread := { s.thread with stop_ := true }, promised := s.pushes.length } :=
      h.of_eq rfl rfl rfl (Or.inl rfl)
    exact hs'.setClient hno (by simp)
  | @wakeUp i caller hc =>
    have hs' : SendInv { s with event_status_ := true } := h.of_eq rfl rfl rfl (Or.inl rfl)
    refine hs'.setClient (fun hp hr => ?_) ?_
    · cases caller with
      | plain => exact hno hp
      | send thread => exact h.held i (by rw [hc]; rfl) hr
    · rcases caller with _ | (_ | _) <;> simp [Caller.return]
  | readyTest hc hready =>
    exact h.setClient (fun _ hr => h.held _ (by rw [hc]; rfl) hr) (by simp)
  | readyWait hc => exact h.setClient (fun _ hr => h.held _ (by rw [hc]; rfl) hr) (by simp)
  | sent hc hready hend =>
    refine h.setClient (fun hp => ?_) ?_
    · rcases hend with rfl | rfl <;> exact hno hp
    · rcases hend with rfl | rfl <;> simp
  | signalled hc => exact h.setClient hno (by simp)

/-- **No `Send` waits in vain**, in any run whose steps drop the message of none: whoever waits has
its message in the queue, or run by `OnMessage`, or is about to see that it was. -/
theorem noOrphan_along (heap : LoopHeap ι Handler Data) (as : List (Act ι Handler Data))
    (hok : Along (step heap) SendInTime init as) :
    Always (step heap) State.NoOrphan init as := by
  refine always_of_along SendInv State.NoOrphan (fun s h i hi hr => ?_)
    (fun s a s' h hok hs => sendInv_step h hok hs) init_sendInv hok
  refine h.held i ?_ hr
  cases hc : s.client i <;> rw [hc] at hi <;> first | rfl | exact absurd hi Bool.false_ne_true

end Step

/-- The thread quits between the two tests of a `Send`. -/
def refusedSend : List (Act ℕ ℕ Unit) :=
  [.send 0 true {}, .client 0, .quit 1, .client 1, .client 0]

/-- The message of a `Send` is cleared. -/
def clearedSend : List (Act ℕ ℕ Unit) :=
  [.send 0 false {}, .client 0, .client 0, .client 0, .client 0, .clear 1 none mqidAny]

theorem not_noOrphan :
    (∃ s, exec (step Thread.sortedHeap) init refusedSend = some s ∧
      s.client 0 = .readyTest false ∧ s.ready 0 = false ∧ s.thread.messages_ = [] ∧
        s.owner = .idle ∧ ¬ s.NoOrphan) ∧
      ∃ s, exec (step Thread.sortedHeap) init clearedSend = some s ∧
        s.client 0 = .doneWait ∧ s.ready 0 = false ∧ s.thread.messages_ = [] ∧
          s.owner = .idle ∧ ¬ s.NoOrphan := by
  refine ⟨⟨_, rfl, rfl, rfl, rfl, rfl, fun h => ?_⟩, ⟨_, rfl, rfl, rfl, rfl, rfl, fun h => ?_⟩⟩
  all_goals
    obtain ⟨thread, msg, hmsg | howner⟩ := h 0 rfl rfl
    · exact absurd hmsg List.not_mem_nil
    · cases howner

/-- A `Send` whose message the owner is running. -/
def runSend : List (Act ℕ ℕ Unit) :=
  [.send 0 true {}, .client 0, .client 0, .client 0, .get Thread.kForever 0, .client 0, .client 0,
    .owner]

theorem noOrphan_along_sample : ∃ s, exec (step Thread.sortedHeap) init runSend = some s ∧
    s.client 0 = .readyWait ∧ s.ready 0 = false ∧ s.owner = .dispatch (sendMessage 0 true {}) ∧
      Always (step Thread.sortedHeap) State.NoOrphan init runSend :=
  ⟨_, rfl, rfl, rfl, rfl, noOrphan_along Thread.sortedHeap runSend (by decide)⟩

end Loop

end RtcBase
