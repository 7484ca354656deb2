import RtcBase.Loop.Model

/-!
# What a step of the loop can do

* `getLocked_cases`: the locked section of `Get`;
* `Step`, **`step_cases`**: every step of the machine, with the condition under which it happens
  and all that it changes.
-/

namespace RtcBase

namespace Thread

variable {Handler Data : Type} (heap : Heap.StdHeap (@DelayedMessage.lt Handler Data))

theorem triggerDelayed_ready (t : ℤ) (n : ℕ) (s : Thread Handler Data) :
    ∃ due delayed, (triggerDelayed heap t n s).2 =
      { s with messages_ := s.messages_ ++ due, delayed_messages_ := delayed } := by
  have hnone (s : Thread Handler Data) : ∃ due delayed, s =
      { s with messages_ := s.messages_ ++ due, delayed_messages_ := delayed } :=
    ⟨[], s.delayed_messages_, by rw [List.append_nil]⟩
  induction n generalizing s with
  | zero => exact hnone s
  | succ n ih =>
    rw [triggerDelayed]
    split
    · exact hnone s
    · split_ifs
      · exact hnone s
      · obtain ⟨due, delayed, h⟩ := ih _
        exact ⟨_, delayed, by rw [h, List.append_assoc]⟩

/-- **The locked section of `Get`**: `due` becomes ready, and the first message is taken. -/
theorem getLocked_cases (s : Thread Handler Data) (first_pass : Bool) (msCurrent cms : ℤ) :
    ∃ due delayed cms',
      (if first_pass then (triggerDelayed heap msCurrent s.delayed_messages_.length s).2.messages_
        else s.messages_) = s.messages_ ++ due ∧
      ((s.messages_ ++ due = [] ∧ s.getLocked heap first_pass msCurrent cms =
          (none, cms', { s with messages_ := [], delayed_messages_ := delayed })) ∨
        ∃ msg rest, s.messages_ ++ due = msg :: rest ∧ s.getLocked heap first_pass msCurrent cms =
          (some msg, cms', { s with messages_ := rest, delayed_messages_ := delayed })) := by
  have hpop : ∀ (due : List (Message Handler Data)) (delayed : List (DelayedMessage Handler Data))
      (cms' : ℤ) (t : Thread Handler Data),
      t = { s with messages_ := s.messages_ ++ due, delayed_messages_ := delayed } →
      ((s.messages_ ++ due = [] ∧ t.getLocked heap false msCurrent cms' =
          (none, cms', { s with messages_ := [], delayed_messages_ := delayed })) ∨
        ∃ msg rest, s.messages_ ++ due = msg :: rest ∧ t.getLocked heap false msCurrent cms' =
          (some msg, cms', { s with messages_ := rest, delayed_messages_ := delayed })) := by
    rintro due delayed cms' t rfl
    cases h : s.messages_ ++ due with
    | nil => exact Or.inl ⟨rfl, getLocked_nil heap rfl _ _⟩
    | cons msg rest => exact Or.inr ⟨msg, rest, rfl, getLocked_cons heap rfl _ _⟩
  cases first_pass with
  | false =>
    refine ⟨[], s.delayed_messages_, cms, by simp, hpop _ _ _ _ ?_⟩
    rw [List.append_nil]
  | true =>
    obtain ⟨due, delayed, h⟩ := triggerDelayed_ready heap msCurrent s.delayed_messages_.length s
    rw [getLocked_true]
    refine ⟨due, delayed, (triggerDelayed heap msCurrent s.delayed_messages_.length s).1, ?_,
      hpop _ _ _ _ h⟩
    rw [if_pos rfl, h]

end Thread

namespace Loop

variable {ι Handler Data : Type} [DecidableEq ι] [DecidableEq Handler]

/-- The state after the locked section of `Get`. -/
def State.afterLocked (s : State ι Handler Data) (first_pass : Bool)
    (due rest : List (QueuedMessage ι Handler Data))
    (delayed : List (DelayedMessage (Target Handler) (MessageData ι Handler Data)))
    (o : Owner (QueuedMessage ι Handler Data)) : State ι Handler Data :=
  { s with
    thread := { s.thread with messages_ := rest, delayed_messages_ := delayed }
    pushes := s.pushes ++ due
    fresh := s.fresh && !first_pass
    owner := o }

/-- Whether a nested `Send` has waited, so that it will wake the socket server again. -/
def Nested.owes : Nested → Bool
  | .none => false
  | .test _ waited => waited
  | .wait _ waited => waited
  | .blocked _ waited => waited
  | .signal => true

/-- The first step of a call. -/
def Client.Begins : Client ι Handler Data → Prop
  | .postTest .plain _ => True
  | .delayTest .. => True
  | .sendTest .. => True
  | .quitStore => True
  | _ => False

variable (heap : LoopHeap ι Handler Data)

/-- What a step can do. -/
inductive Step (s : State ι Handler Data) : Act ι Handler Data → State ι Handler Data → Prop where
  | get {cmsWait now} (ho : s.owner = .idle) (hn : s.nested = .none) :
    Step s (.get cmsWait now)
      { s with owner := .locked ⟨cmsWait, now⟩ true now Thread.kForever }
  | lockedEmpty {call first_pass msCurrent cms cms' due delayed}
    (ho : s.owner = .locked call first_pass msCurrent cms) (hn : s.nested = .none)
    (hm : s.thread.messages_ ++ due = []) :
    Step s .owner (s.afterLocked first_pass due [] delayed (.quitTest call msCurrent cms'))
  | lockedDispose {call first_pass msCurrent cms cms' due delayed msg rest}
    (ho : s.owner = .locked call first_pass msCurrent cms) (hn : s.nested = .none)
    (hm : s.thread.messages_ ++ due = msg :: rest) (hmsg : msg.isDispose = true) :
    Step s .owner (s.afterLocked first_pass due rest delayed (.dispose call msCurrent cms'))
  | lockedGet {call first_pass msCurrent cms due delayed msg rest}
    (ho : s.owner = .locked call first_pass msCurrent cms) (hn : s.nested = .none)
    (hm : s.thread.messages_ ++ due = msg :: rest) (hmsg : msg.isDispose = false) :
    Step s .owner { s.afterLocked first_pass due rest delayed (.dispatch msg) with
      gets := s.gets ++ [msg] }
  | disposed {call msCurrent cms} (ho : s.owner = .dispose call msCurrent cms)
    (hn : s.nested = .none) :
    Step s .owner { s with owner := .locked call false msCurrent cms }
  | stopped {call msCurrent cms} (ho : s.owner = .quitTest call msCurrent cms)
    (hstop : s.thread.stop_ = true) : Step s .owner { s with owner := .idle }
  | running {call msCurrent cms cms'} (ho : s.owner = .quitTest call msCurrent cms)
    (hstop : s.thread.stop_ = false) : Step s .owner { s with owner := .wait call cms' }
  | consumed {call cms} (ho : s.owner = .wait call cms ∨ s.owner = .blocked call cms) :
    Step s .owner { s with owner := .clock call, event_status_ := false }
  | blocked {call cms} (ho : s.owner = .wait call cms) (he : s.event_status_ = false) :
    Step s .owner { s with owner := .blocked call cms }
  | timeout {call cms} (ho : s.owner = .blocked call cms) :
    Step s .timeout { s with owner := .clock call }
  | expired {call now} (ho : s.owner = .clock call) :
    Step s (.clock now) { s with owner := .idle }
  | again {call now} (ho : s.owner = .clock call) :
    Step s (.clock now) { s with owner := .locked call true now Thread.kForever }
  | dispatched {msg} (ho : s.owner = .dispatch msg) (hn : s.nested = .none) :
    Step s .owner { s.handled msg with owner := .idle }
  | nestedMove {a n} (howes : n.owes = s.nested.owes)
    (hcalls : s.nested ≠ .none ∨ s.owner.callsOut = true) : Step s a { s with nested := n }
  | nestedConsume {a n} (howes : n.owes = true) (hn : s.nested ≠ .none) :
    Step s a { s with nested := n, event_status_ := false }
  | nestedSignal {a} (hn : s.nested ≠ .none) :
    Step s a { s with nested := .none, event_status_ := true }
  | signal : Step s .signal { s with event_status_ := true }
  | begin {a i c} (hc : s.client i = .idle) (hbegin : c.Begins) : Step s a (s.setClient i c)
  | clear {i phandler id} :
    Step s (.clear i phandler id)
      { s with thread := (s.thread.clearInternal heap (phandler.map .user) id).1 }
  | sendRefused {i thread msg} (hc : s.client i = .sendTest thread msg) :
    Step s (.client i) (s.setClient i .idle)
  | sendStart {i thread msg} (hc : s.client i = .sendTest thread msg)
    (hstop : s.thread.stop_ = false) :
    Step s (.client i) ({ s with ready := Function.update s.ready i false }.setClient i
      (.postTest (.send thread) (sendMessage i thread msg)))
  | postRefused {i caller msg} (hc : s.client i = .postTest caller msg)
    (hstop : s.thread.stop_ = true) : Step s (.client i) (s.setClient i caller.return)
  | postTested {i caller msg} (hc : s.client i = .postTest caller msg)
    (hstop : s.thread.stop_ = false) : Step s (.client i) (s.setClient i (.push caller msg))
  | push {i caller msg} (hc : s.client i = .push caller msg) :
    Step s (.client i) ({ s with
      thread := s.thread.push msg, pushes := s.pushes ++ [msg] }.setClient i (.wakeUp caller))
  | delayRefused {i delay_ms run_at_ms msg} (hc : s.client i = .delayTest delay_ms run_at_ms msg) :
    Step s (.client i) (s.setClient i .idle)
  | delayTested {i delay_ms run_at_ms msg} (hc : s.client i = .delayTest delay_ms run_at_ms msg) :
    Step s (.client i) (s.setClient i (.pushDelayed delay_ms run_at_ms msg))
  | pushDelayed {i delay_ms run_at_ms msg}
    (hc : s.client i = .pushDelayed delay_ms run_at_ms msg) :
    Step s (.client i) ({ s with
      thread := s.thread.pushDelayed heap delay_ms run_at_ms msg
      fresh := true }.setClient i (.wakeUp .plain))
  | quitStore {i} (hc : s.client i = .quitStore) :
    Step s (.client i) ({ s with
      thread := { s.thread with stop_ := true }
      promised := s.pushes.length }.setClient i (.wakeUp .plain))
  | wakeUp {i caller} (hc : s.client i = .wakeUp caller) :
    Step s (.client i) ({ s with event_status_ := true }.setClient i caller.return)
  | readyTest {i waited} (hc : s.client i = .readyTest waited) (hready : s.ready i = false) :
    Step s (.client i) (s.setClient i .readyWait)
  | readyWait {i} (hc : s.client i = .readyWait) :
    Step s (.client i) (s.setClient i (.readyTest true))
  | sent {i c} (hc : (∃ waited, s.client i = .readyTest waited) ∨ s.client i = .doneWait)
    (hready : s.ready i = true) (hend : c = .idle ∨ c = .signal) :
    Step s (.client i) (s.setClient i c)
  | signalled {i} (hc : s.client i = .signal) : Step s (.client i) (s.setClient i .idle)

variable {heap} {s s' : State ι Handler Data}

theorem step_owner (hn : s.nested = .none) (h : ownerStep heap s = some s') :
    Step heap s .owner s' := by
  cases ho : s.owner with
  | idle => simp [ownerStep, ho] at h
  | clock call => simp [ownerStep, ho] at h
  | locked call first_pass msCurrent cms =>
    obtain ⟨due, delayed, cms', hready, hcases⟩ :=
      Thread.getLocked_cases heap s.thread first_pass msCurrent cms
    have hdrop : (s.thread.messages_ ++ due).drop s.thread.messages_.length = due :=
      List.drop_left
    simp only [ownerStep, ho, hready, hdrop] at h
    rcases hcases with ⟨hm, hget⟩ | ⟨msg, rest, hm, hget⟩
    · simp only [hget, Option.some.injEq] at h
      exact h ▸ .lockedEmpty ho hn hm
    · simp only [hget] at h
      cases hmsg : msg.isDispose with
      | true =>
        simp only [hmsg, if_true, Option.some.injEq] at h
        exact h ▸ .lockedDispose ho hn hm hmsg
      | false =>
        simp only [hmsg, Bool.false_eq_true, if_false, Option.some.injEq] at h
        exact h ▸ .lockedGet ho hn hm hmsg
  | dispose call msCurrent cms =>
    simp only [ownerStep, ho, Option.some.injEq] at h
    exact h ▸ .disposed ho hn
  | quitTest call msCurrent cms =>
    simp only [ownerStep, ho] at h
    cases hstop : s.thread.stop_ with
    | true =>
      simp only [hstop, if_true, Option.some.injEq] at h
      exact h ▸ .stopped ho hstop
    | false =>
      simp only [hstop, Bool.false_eq_true, if_false, Option.some.injEq] at h
      exact h ▸ .running ho hstop
  | wait call cms =>
    simp only [ownerStep, ho] at h
    split_ifs at h with he
    · exact Option.some.inj h ▸ .consumed (Or.inl ho)
    · exact Option.some.inj h ▸ .blocked ho (Bool.eq_false_iff.mpr he)
  | blocked call cms =>
    simp only [ownerStep, ho] at h
    split_ifs at h
    exact Option.some.inj h ▸ .consumed (Or.inr ho)
  | dispatch msg =>
    simp only [ownerStep, ho, Option.some.injEq] at h
    exact h ▸ .dispatched ho hn

theorem step_nested (h : nestedStep s = some s') : Step heap s .nested s' := by
  cases hn : s.nested with
  | none => simp [nestedStep, hn] at h
  | test ready waited =>
    have hmove : ∀ n : Nested, n.owes = waited → Step heap s .nested { s with nested := n } :=
      fun n howes => .nestedMove (by rw [howes, hn]; rfl) (Or.inl (by simp [hn]))
    simp only [nestedStep, hn] at h
    cases ready with
    | false => exact Option.some.inj h ▸ hmove _ rfl
    | true => cases waited <;> exact Option.some.inj h ▸ hmove _ rfl
  | wait ready waited =>
    simp only [nestedStep, hn] at h
    split_ifs at h
    · exact Option.some.inj h ▸ .nestedConsume rfl (by simp [hn])
    · exact Option.some.inj h ▸ .nestedMove (by simp [hn, Nested.owes]) (Or.inl (by simp [hn]))
  | blocked ready waited =>
    simp only [nestedStep, hn] at h
    split_ifs at h
    exact Option.some.inj h ▸ .nestedConsume rfl (by simp [hn])
  | signal =>
    simp only [nestedStep, hn, Option.some.injEq] at h
    exact h ▸ .nestedSignal (by simp [hn])

theorem step_client {i : ι} (h : clientStep heap s i = some s') : Step heap s (.client i) s' := by
  cases hc : s.client i with
  | idle => simp [clientStep, hc] at h
  | sendTest thread msg =>
    simp only [clientStep, hc] at h
    split_ifs at h with hstop
    · exact Option.some.inj h ▸ .sendRefused hc
    · exact Option.some.inj h ▸ .sendStart hc (Bool.eq_false_iff.mpr hstop)
  | postTest caller msg =>
    simp only [clientStep, hc, Option.some.injEq] at h
    cases hstop : s.thread.stop_ with
    | true =>
      rw [hstop, if_pos rfl] at h
      exact h ▸ .postRefused hc hstop
    | false =>
      rw [hstop, if_neg Bool.false_ne_true] at h
      exact h ▸ .postTested hc hstop
  | push caller msg =>
    simp only [clientStep, hc, Option.some.injEq] at h
    exact h ▸ .push hc
  | delayTest delay_ms run_at_ms msg =>
    simp only [clientStep, hc, Option.some.injEq] at h
    split_ifs at h
    · exact h ▸ .delayRefused hc
    · exact h ▸ .delayTested hc
  | pushDelayed delay_ms run_at_ms msg =>
    simp only [clientStep, hc, Option.some.injEq] at h
    exact h ▸ .pushDelayed hc
  | quitStore =>
    simp only [clientStep, hc, Option.some.injEq] at h
    exact h ▸ .quitStore hc
  | wakeUp caller =>
    simp only [clientStep, hc, Option.some.injEq] at h
    exact h ▸ .wakeUp hc
  | readyTest waited =>
    simp only [clientStep, hc, Option.some.injEq] at h
    cases hready : s.ready i with
    | false =>
      rw [hready, if_neg Bool.false_ne_true] at h
      exact h ▸ .readyTest hc hready
    | true =>
      rw [hready, if_pos rfl] at h
      refine h ▸ .sent (Or.inl ⟨waited, hc⟩) hready ?_
      cases waited
      · exact Or.inl rfl
      · exact Or.inr rfl
  | readyWait =>
    simp only [clientStep, hc, Option.some.injEq] at h
    exact h ▸ .readyWait hc
  | signal =>
    simp only [clientStep, hc, Option.some.injEq] at h
    exact h ▸ .signalled hc
  | doneWait =>
    simp only [clientStep, hc] at h
    split_ifs at h with hready
    exact Option.some.inj h ▸ .sent (Or.inr hc) hready (Or.inl rfl)

theorem step_begin {a : Act ι Handler Data} {i : ι} {c : Client ι Handler Data}
    (h : begin s i c = some s') (hbegin : c.Begins) : Step heap s a s' := by
  cases hc : s.client i <;> simp only [begin, hc, Option.some.injEq, reduceCtorEq] at h
  exact h ▸ .begin hc hbegin

/-- **Every step.** -/
theorem step_cases {a : Act ι Handler Data} (h : step heap s a = some s') : Step heap s a s' := by
  cases a with
  | get cmsWait now =>
    simp only [step] at h
    split at h
    · rename_i ho hn
      exact Option.some.inj h ▸ .get ho hn
    · cases h
  | owner =>
    simp only [step] at h
    split_ifs at h with hn
    exact step_owner hn h
  | timeout =>
    simp only [step] at h
    split at h
    · rename_i ho
      split_ifs at h
      exact Option.some.inj h ▸ .timeout ho
    · cases h
  | clock now =>
    simp only [step] at h
    split at h
    · rename_i ho
      split_ifs at h
      · exact Option.some.inj h ▸ .expired ho
      · exact Option.some.inj h ▸ .again ho
    · cases h
  | nest =>
    simp only [step] at h
    split_ifs at h with hn
    exact Option.some.inj h ▸ .nestedMove (by simp [hn.2, Nested.owes]) (Or.inr hn.1)
  | nested => exact step_nested h
  | reply =>
    simp only [step] at h
    obtain ⟨n, hn, rfl⟩ := Option.map_eq_some_iff.mp h
    cases hs : s.nested <;> simp only [Nested.reply, hs, Option.some.injEq, reduceCtorEq] at hn
    all_goals
      subst hn
      exact .nestedMove (by simp [hs, Nested.owes]) (Or.inl (by simp [hs]))
  | signal =>
    simp only [step, Option.some.injEq] at h
    exact h ▸ .signal
  | post i msg => exact step_begin h trivial
  | delayPost i delay_ms run_at_ms msg => exact step_begin h trivial
  | send i thread msg => exact step_begin h trivial
  | quit i => exact step_begin h trivial
  | clear i phandler id =>
    simp only [step] at h
    split at h
    · exact Option.some.inj h ▸ .clear
    · cases h
  | client i => exact step_client h

end Loop

end RtcBase
