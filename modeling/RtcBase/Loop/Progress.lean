import RtcBase.Loop.Drain
import RtcBase.Loop.WakeUp
import RtcBase.Thread.Stores

/-!
# Get returns

How many steps of its own the owner needs, whatever the others do in between.

* `Owner.inGet`, `Ready`, `skip`: `Get` has not returned; there is a message for it, and what it
  deletes first;
* `entering`, `held`: the clients that have found `stop_` unset, and what `Get` may still find
  when it is set;
* `can_go_on`, `goes_on`: the owner is not asleep for ever;
* **`get_returns`**: a bound while a message is ready;
* **`quit_ends`**: a bound on all that follows the store of `Quit`.
-/

namespace RtcBase

open Run Heap

namespace Loop

variable {ι Handler Data : Type} {s s' : State ι Handler Data}

/-- `Get` has not returned. -/
def Owner.inGet {M : Type} : Owner M → Bool
  | .idle => false
  | .dispatch _ => false
  | _ => true

/-- A step of the owner in `Get` or `Dispatch`; those of a nested `Send` are not. -/
def Act.isOwner : Act ι Handler Data → Bool
  | .owner => true
  | .timeout => true
  | .clock _ => true
  | _ => false

/-- The step begins a `Get`. -/
def Act.isGet : Act ι Handler Data → Bool
  | .get .. => true
  | _ => false

/-- A message that `Get` will return is ready. -/
def State.Ready (s : State ι Handler Data) : Prop :=
  ∃ msg ∈ s.thread.messages_, (!msg.isDispose) = true

/-- How many messages `Get` deletes before it returns one that is ready. -/
def State.skip (s : State ι Handler Data) : ℕ := s.thread.messages_.findIdx (!·.isDispose)

/-- The steps of `Get` up to its next return, apart from two for each message that it deletes. -/
def Owner.phase {M : Type} (stop_ : Bool) : Owner M → ℕ
  | .idle => 0
  | .dispatch _ => 1
  | .quitTest .. => if stop_ then 1 else 6
  | .wait .. => 5
  | .blocked .. => 4
  | .clock _ => 3
  | .dispose .. => 3
  | .locked .. => 2

theorem Owner.phase_le {M : Type} (o : Owner M) (stop_ : Bool) : o.phase stop_ ≤ 6 := by
  cases o <;> simp [Owner.phase]
  split_ifs <;> simp

theorem Owner.phase_stop {M : Type} (o : Owner M) (stop_ : Bool) :
    o.phase true ≤ o.phase stop_ := by
  cases stop_
  · cases o <;> simp [Owner.phase]
  · exact le_refl _

/-! ## The owner can go on -/

section Step

variable [DecidableEq ι] [DecidableEq Handler] (heap : LoopHeap ι Handler Data)

/-- While there is something to do, the owner can take a step in `Get`, or a client is going to
wake it. -/
theorem can_go_on (hinv : WakeInv s) (hget : s.owner.inGet = true) (hn : s.nested = .none)
    (hwork : s.Ready ∨ s.thread.stop_ = true) :
    (∃ a : Act ι Handler Data, a.isOwner = true ∧ (step heap s a).isSome = true) ∨
      ∃ i caller, s.client i = .wakeUp caller := by
  have howner : ∀ s₁, ownerStep heap s = some s₁ → ∃ a : Act ι Handler Data,
      a.isOwner = true ∧ (step heap s a).isSome = true := by
    intro s₁ h
    exact ⟨.owner, rfl, by rw [step, if_pos hn, h]; rfl⟩
  cases ho : s.owner with
  | idle => simp [ho, Owner.inGet] at hget
  | dispatch msg => simp [ho, Owner.inGet] at hget
  | locked call first_pass msCurrent cms =>
    obtain ⟨due, delayed, cms', hready, hcases⟩ :=
      Thread.getLocked_cases heap s.thread first_pass msCurrent cms
    rcases hcases with ⟨hm, hg⟩ | ⟨msg, rest, hm, hg⟩
    · exact Or.inl (howner _ (by simp only [ownerStep, ho, hg]; rfl))
    · cases hmsg : msg.isDispose
      · exact Or.inl (howner _ (by simp only [ownerStep, ho, hg, hmsg]; rfl))
      · exact Or.inl (howner _ (by simp only [ownerStep, ho, hg, hmsg]; rfl))
  | dispose call msCurrent cms => exact Or.inl (howner _ (by simp only [ownerStep, ho]; rfl))
  | quitTest call msCurrent cms =>
    cases hstop : s.thread.stop_
    · exact Or.inl (howner _ (by simp only [ownerStep, ho, hstop]; rfl))
    · exact Or.inl (howner _ (by simp only [ownerStep, ho, hstop]; rfl))
  | wait call cms =>
    cases he : s.event_status_
    · exact Or.inl (howner _ (by simp only [ownerStep, ho, he]; rfl))
    · exact Or.inl (howner _ (by simp only [ownerStep, ho, he]; rfl))
  | clock call =>
    refine Or.inl ⟨.clock 0, rfl, ?_⟩
    simp only [step, ho]
    split_ifs <;> rfl
  | blocked call cms =>
    have hsignalled : s.Signalled := by
      rcases hwork with ⟨msg, hmem, -⟩ | hstop
      · exact hinv.ready (by rw [ho]; rfl) (List.ne_nil_of_mem hmem)
      · exact hinv.stop (by rw [ho]; rfl) hstop
    rcases hsignalled with he | ⟨i, hi⟩
    · exact Or.inl (howner _ (by simp only [ownerStep, ho, he]; rfl))
    · cases hc : s.client i with
      | wakeUp caller => exact Or.inr ⟨i, caller, hc⟩
      | _ => simp [hc, Client.wakes] at hi

/-- In a nested `Send` the owner can take a step, or waits for the other thread. -/
theorem nested_goes_on (hn : s.nested ≠ .none) :
    (step heap s .nested).isSome = true ∨ ∃ ready waited, s.nested = .blocked ready waited := by
  cases hnested : s.nested with
  | none => exact absurd hnested hn
  | test ready waited => cases ready <;> exact Or.inl (by simp [step, nestedStep, hnested])
  | wait ready waited =>
    cases he : s.event_status_ <;> exact Or.inl (by simp [step, nestedStep, hnested, he])
  | blocked ready waited => exact Or.inr ⟨ready, waited, rfl⟩
  | signal => exact Or.inl (by simp [step, nestedStep, hnested])

/-- What keeps the owner in `Get`: its own next step, the next step of a `Send` that a destructor of
message data has made there, a client that is going to wake it, or the thread of that `Send`. -/
theorem goes_on (hinv : WakeInv s) (hget : s.owner.inGet = true)
    (hwork : s.Ready ∨ s.thread.stop_ = true) :
    (∃ a : Act ι Handler Data, (a.isOwner = true ∨ a = .nested) ∧ (step heap s a).isSome = true) ∨
      (∃ i caller, s.client i = .wakeUp caller) ∨
      ∃ ready waited, s.nested = .blocked ready waited := by
  by_cases hn : s.nested = .none
  · refine (can_go_on heap hinv hget hn hwork).imp ?_ Or.inl
    rintro ⟨a, ha, hs⟩
    exact ⟨a, Or.inl ha, hs⟩
  · exact (nested_goes_on heap hn).imp (fun hs => ⟨.nested, Or.inr rfl, hs⟩) Or.inr

end Step

/-! ## A ready message -/

theorem State.Ready.skip_lt (h : s.Ready) : s.skip < s.thread.messages_.length :=
  List.findIdx_lt_length.mpr h

theorem State.Ready.findIdx_append (h : s.Ready) (due : List (QueuedMessage ι Handler Data)) :
    (s.thread.messages_ ++ due).findIdx (!·.isDispose) = s.skip := by
  have hlt := h.skip_lt
  rw [State.skip] at hlt ⊢
  rw [List.findIdx_append, if_pos hlt]

theorem State.Ready.append (h : s.Ready) {due : List (QueuedMessage ι Handler Data)}
    (hm : s'.thread.messages_ = s.thread.messages_ ++ due) : s'.Ready ∧ s'.skip = s.skip := by
  obtain ⟨msg, hmem, hmsg⟩ := h
  refine ⟨⟨msg, by rw [hm]; exact List.mem_append_left due hmem, hmsg⟩, ?_⟩
  rw [State.skip, hm]
  exact State.Ready.findIdx_append ⟨msg, hmem, hmsg⟩ due

theorem State.Ready.dispose (h : s.Ready) {due rest : List (QueuedMessage ι Handler Data)}
    {msg : QueuedMessage ι Handler Data} (hm : s.thread.messages_ ++ due = msg :: rest)
    (hmsg : msg.isDispose = true) (hm' : s'.thread.messages_ = rest) :
    s'.Ready ∧ s'.skip + 1 = s.skip := by
  have hskip := h.findIdx_append due
  rw [hm, List.findIdx_cons, hmsg] at hskip
  obtain ⟨m, hmem, hm₀⟩ := h
  have hne : m ≠ msg := by
    rintro rfl
    simp [hmsg] at hm₀
  have hrest : m ∈ rest := by
    have : m ∈ msg :: rest := hm ▸ List.mem_append_left due hmem
    exact (List.mem_cons.mp this).resolve_left hne
  exact ⟨⟨m, hm' ▸ hrest, hm₀⟩, by rw [State.skip, hm']; exact hskip⟩

/-- The steps of `Get` until it returns. -/
def State.readyRank (s : State ι Handler Data) : ℕ := 2 * s.skip + s.owner.phase s.thread.stop_

section Step

variable [DecidableEq ι] [DecidableEq Handler] {heap : LoopHeap ι Handler Data}

theorem owner_moves {a : Act ι Handler Data} (ha : a.isOwner = true)
    (hs : step heap s a = some s') : s'.owner ≠ s.owner := by
  cases a <;> simp only [Act.isOwner, reduceCtorEq] at ha
  case owner =>
    simp only [step] at hs
    split_ifs at hs
    cases ho : s.owner with
    | idle => simp [ownerStep, ho] at hs
    | clock call => simp [ownerStep, ho] at hs
    | locked call first_pass msCurrent cms =>
      simp only [ownerStep, ho] at hs
      split at hs
      · obtain rfl := Option.some.inj hs
        simp
      · split_ifs at hs <;> obtain rfl := Option.some.inj hs <;> simp
    | _ =>
      simp only [ownerStep, ho] at hs
      (try split_ifs at hs) <;> obtain rfl := Option.some.inj hs <;> simp
  case timeout =>
    simp only [step] at hs
    split at hs
    · rename_i ho
      split_ifs at hs
      obtain rfl := Option.some.inj hs
      simp [ho]
    · cases hs
  case clock now =>
    simp only [step] at hs
    split at hs
    · rename_i ho
      split_ifs at hs <;> obtain rfl := Option.some.inj hs <;> simp [ho]
    · cases hs

theorem kept_of_owner {a : Act ι Handler Data} (hs : step heap s a = some s')
    (ho : s'.owner = s.owner) : a.isOwner = false := by
  by_contra ha
  exact owner_moves (eq_true_of_ne_false ha) hs ho

/-- **One step** while a message is ready and `Get` does not return. -/
theorem ready_step (h : s.Ready) {a : Act ι Handler Data} (ha : a.isClear = false)
    (hget : s.owner.inGet = true) (hget' : s'.owner.inGet = true)
    (hs : step heap s a = some s') :
    s'.Ready ∧ (if a.isOwner then 1 else 0) + s'.readyRank ≤ s.readyRank := by
  have hother : ∀ due, s'.thread.messages_ = s.thread.messages_ ++ due → s'.owner = s.owner →
      s'.thread.stop_ = s.thread.stop_ ∨ s'.thread.stop_ = true →
      s'.Ready ∧ (if a.isOwner then 1 else 0) + s'.readyRank ≤ s.readyRank := by
    intro due hm ho hstop
    obtain ⟨h', hskip⟩ := h.append hm
    refine ⟨h', ?_⟩
    rw [State.readyRank, State.readyRank, hskip, ho, if_neg (by simp [kept_of_owner hs ho])]
    have := Owner.phase_stop s.owner s.thread.stop_
    rcases hstop with hstop | hstop <;> rw [hstop] <;> omega
  have hmove : s'.thread.messages_ = s.thread.messages_ → s'.thread.stop_ = s.thread.stop_ →
      s'.owner.phase s.thread.stop_ < s.owner.phase s.thread.stop_ →
      s'.Ready ∧ (if a.isOwner then 1 else 0) + s'.readyRank ≤ s.readyRank := by
    intro hm hstop hlt
    obtain ⟨h', hskip⟩ := h.append (hm.trans (List.append_nil _).symm)
    refine ⟨h', ?_⟩
    rw [State.readyRank, State.readyRank, hskip, hstop]
    split_ifs <;> omega
  have hnil := (List.append_nil s.thread.messages_).symm
  cases step_cases hs with
  | get ho hn => simp [ho, Owner.inGet] at hget
  | lockedEmpty ho hn hm =>
    obtain ⟨msg, hmem, -⟩ := h
    simp [(List.append_eq_nil_iff.mp hm).1] at hmem
  | lockedDispose ho hn hm hmsg =>
    refine And.imp_right (fun hskip => ?_) (h.dispose hm hmsg rfl)
    simp only [State.readyRank, ho, Owner.phase, Act.isOwner, if_true, ← hskip]
    simp only [State.afterLocked]
    omega
  | lockedGet ho hn hm hmsg => simp [State.afterLocked, Owner.inGet] at hget'
  | disposed ho hn => exact hmove rfl rfl (by simp [ho, Owner.phase])
  | stopped ho hstop => simp [Owner.inGet] at hget'
  | running ho hstop => exact hmove rfl rfl (by simp [ho, Owner.phase, hstop])
  | consumed ho => exact hmove rfl rfl (by rcases ho with ho | ho <;> simp [ho, Owner.phase])
  | blocked ho he => exact hmove rfl rfl (by simp [ho, Owner.phase])
  | timeout ho => exact hmove rfl rfl (by simp [ho, Owner.phase])
  | expired ho => simp [Owner.inGet] at hget'
  | again ho => exact hmove rfl rfl (by simp [ho, Owner.phase])
  | dispatched ho hn => simp [Owner.inGet] at hget'
  | @push i caller msg hc => exact hother [msg] rfl rfl (Or.inl rfl)
  | quitStore hc => exact hother [] hnil rfl (Or.inr rfl)
  | clear => exact absurd ha Bool.noConfusion
  | _ => exact hother [] hnil rfl (Or.inl rfl)

theorem countP_readyRank (h : s.Ready) {bs : List (Act ι Handler Data)}
    (hbs : exec (step heap) s bs = some s') (hclear : ∀ b ∈ bs, b.isClear = false)
    (hall : Always (step heap) (fun s => s.owner.inGet = true) s bs) :
    bs.countP Act.isOwner ≤ s.readyRank := by
  induction bs generalizing s with
  | nil => exact Nat.zero_le _
  | cons b bs ih =>
    obtain ⟨s₁, h₁, h₂⟩ := exec_cons.mp hbs
    have hall₁ := hall.2 s₁ h₁
    have hget₁ : s₁.owner.inGet = true := by
      cases bs with
      | nil => exact hall₁
      | cons => exact hall₁.1
    obtain ⟨h', hle⟩ := ready_step h (hclear b List.mem_cons_self) hall.1 hget₁ h₁
    have hrest := ih h' h₂ (fun c hc => hclear c (List.mem_cons_of_mem b hc)) hall₁
    rw [List.countP_cons]
    omega

/-- **Get returns.** Let the owner be in `Get`, in any state of any interleaved run, with a message
ready that is no `MQID_DISPOSE`. Then it can take a step, or a client is going to wake it, or the
destructor of a message's data is in a `Send` to another thread, for which it waits; and whatever
the others do, short of a `Clear`, it has returned before it has taken more steps in `Get` than six
and two for each message that is deleted first. -/
theorem get_returns (heap : LoopHeap ι Handler Data) (as : List (Act ι Handler Data))
    (h : exec (step heap) init as = some s) (hget : s.owner.inGet = true) (hready : s.Ready) :
    ((∃ a : Act ι Handler Data, (a.isOwner = true ∨ a = .nested) ∧
          (step heap s a).isSome = true) ∨
        (∃ i caller, s.client i = .wakeUp caller) ∨
        ∃ ready waited, s.nested = .blocked ready waited) ∧
      ∀ bs s', exec (step heap) s bs = some s' → (∀ b ∈ bs, b.isClear = false) →
        Always (step heap) (fun s => s.owner.inGet = true) s bs →
          bs.countP Act.isOwner ≤ 2 * s.skip + 6 := by
  have hinv : WakeInv s :=
    invariant WakeInv (fun _ _ _ h hs => inv_step h hs) init_wakeInv h
  refine ⟨goes_on heap hinv hget (Or.inl hready), fun bs s' hbs hclear hall => ?_⟩
  have hle := countP_readyRank hready hbs hclear hall
  have hphase := s.owner.phase_le s.thread.stop_
  rw [State.readyRank] at hle
  omega

end Step

/-- A `MQID_DISPOSE` and a message are ready when the owner calls `Get`. -/
def disposeFirst : List (Act ℕ ℕ Unit) :=
  [.post 0 { message_id := mqidDispose }, .client 0, .client 0, .client 0, .post 0 {},
    .client 0, .client 0, .get Thread.kForever 0]

theorem get_returns_sample : ∃ s, exec (step Thread.sortedHeap) init disposeFirst = some s ∧
    s.skip = 1 ∧ ∀ bs s', exec (step Thread.sortedHeap) s bs = some s' →
      (∀ b ∈ bs, b.isClear = false) →
        Always (step Thread.sortedHeap) (fun s => s.owner.inGet = true) s bs →
          bs.countP Act.isOwner ≤ 8 :=
  ⟨_, rfl, rfl, (get_returns Thread.sortedHeap disposeFirst rfl rfl
    ⟨_, List.mem_cons_of_mem _ List.mem_cons_self, rfl⟩).2⟩

/-! ## After Quit -/

/-- The client has found `stop_` unset and is going to enter a message. -/
def Client.enters : Client ι Handler Data → Bool
  | .push .. => true
  | .pushDelayed .. => true
  | _ => false

theorem Client.Begins.enters {c : Client ι Handler Data} (h : c.Begins) : c.enters = false := by
  cases c <;> first | rfl | exact h.elim

theorem Caller.enters_return (caller : Caller) :
    (caller.return : Client ι Handler Data).enters = false := by
  rcases caller with - | (_ | _) <;> rfl

/-- The clients that may still enter a message. -/
def State.entering (s : State ι Handler Data) : Set ι := {i | (s.client i).enters = true}

/-- The messages in the stores, and those that are still entered when `stop_` is set. -/
noncomputable def State.held (s : State ι Handler Data) : ℕ := s.thread.size + s.entering.ncard

/-- The steps of the owner when `stop_` is set, apart from two for each call of `Get`. -/
noncomputable def State.quitRank (s : State ι Handler Data) : ℕ :=
  2 * s.held + s.owner.phase true

/-- **The invariant**: the delayed messages are a heap, and only finitely many clients are entering
a message. -/
structure QuitInv (s : State ι Handler Data) : Prop where
  heap : IsHeap DelayedMessage.lt s.thread.delayed_messages_
  finite : s.entering.Finite

theorem init_quitInv : QuitInv (init : State ι Handler Data) where
  heap := isHeap_nil
  finite := by simp [State.entering, init, Client.enters]

theorem QuitInv.held_le (h : QuitInv s) (hsize : s'.thread.size ≤ s.thread.size)
    (hsub : s'.entering ⊆ s.entering) : s'.held ≤ s.held :=
  Nat.add_le_add hsize (Set.ncard_le_ncard hsub h.finite)

/-- How many messages the locked section of `Get` has taken. -/
def Owner.taken {M : Type} : Owner M → ℕ
  | .quitTest .. => 0
  | _ => 1

section Client

variable [DecidableEq ι]

theorem entering_setClient {i : ι} {c : Client ι Handler Data} (hc : c.enters = false) :
    (s.setClient i c).entering = s.entering \ {i} := by
  ext j
  by_cases hj : j = i
  · subst hj
    simp [State.entering, hc]
  · simp [State.entering, State.setClient_of_ne s i c hj, hj]

theorem entering_setClient_subset (i : ι) (c : Client ι Handler Data) :
    (s.setClient i c).entering ⊆ insert i s.entering := by
  intro j hmem
  by_cases hj : j = i
  · exact Or.inl hj
  · have hj' : ((s.setClient i c).client j).enters = true := hmem
    rw [State.setClient_of_ne s i c hj] at hj'
    exact Or.inr hj'

theorem QuitInv.setClient (h : QuitInv s) (i : ι) (c : Client ι Handler Data) :
    QuitInv (s.setClient i c) where
  heap := h.heap
  finite := (h.finite.insert i).subset (entering_setClient_subset i c)

theorem QuitInv.held_entered (h : QuitInv s) {i : ι} {c : Client ι Handler Data}
    (hi : (s.client i).enters = true) (hc : c.enters = false)
    {t : Thread (Target Handler) (MessageData ι Handler Data)} (ht : t.size = s.thread.size + 1) :
    ({ s with thread := t }.setClient i c).held = s.held := by
  have hcard := Set.ncard_sdiff_singleton_add_one (s := s.entering) hi h.finite
  rw [State.held, State.held, ← hcard, entering_setClient hc, State.setClient_thread, ht]
  simp only [State.entering]
  omega

end Client

section Step

variable [DecidableEq ι] [DecidableEq Handler] {heap : LoopHeap ι Handler Data}

/-- **The locked section of `Get`.** -/
theorem locked_step (hinv : QuitInv s) {call : GetCall} {first_pass : Bool} {msCurrent cms : ℤ}
    (ho : s.owner = .locked call first_pass msCurrent cms) (hs : step heap s .owner = some s') :
    IsHeap DelayedMessage.lt s'.thread.delayed_messages_ ∧
      s'.thread.size + s'.owner.taken = s.thread.size := by
  obtain ⟨hheap, -, hperm⟩ := Thread.stores_getLocked heap hinv.heap first_pass msCurrent cms
  have hsize := hperm.length_eq
  rw [List.length_append, ← Thread.size_eq, ← Thread.size_eq] at hsize
  simp only [step] at hs
  split_ifs at hs
  simp only [ownerStep, ho] at hs
  split at hs
  · rename_i hmsg
    rw [hmsg, Option.toList_none, List.length_nil, Nat.zero_add] at hsize
    obtain rfl := Option.some.inj hs
    exact ⟨hheap, hsize.symm⟩
  · rename_i msg hmsg
    rw [hmsg, Option.toList_some, List.length_singleton, Nat.add_comm] at hsize
    cases hd : msg.isDispose <;>
      simp only [hd, if_true, Bool.false_eq_true, if_false, Option.some.injEq] at hs <;> subst hs
    · exact ⟨hheap, hsize.symm⟩
    · exact ⟨hheap, hsize.symm⟩

/-- **One step** of any party. -/
theorem quitInv_step (h : QuitInv s) {a : Act ι Handler Data} (hs : step heap s a = some s') :
    QuitInv s' := by
  have hlocked : ∀ {call first_pass msCurrent cms}, a = .owner →
      s.owner = .locked call first_pass msCurrent cms →
      IsHeap DelayedMessage.lt s'.thread.delayed_messages_ := by
    rintro call first_pass msCurrent cms rfl ho
    exact (locked_step h ho hs).1
  cases step_cases hs with
  | lockedEmpty ho hn hm => exact ⟨hlocked rfl ho, h.finite⟩
  | lockedDispose ho hn hm hmsg => exact ⟨hlocked rfl ho, h.finite⟩
  | lockedGet ho hn hm hmsg => exact ⟨hlocked rfl ho, h.finite⟩
  | clear => exact ⟨(Thread.clearInternal_stores heap _ _ _).1, h.finite⟩
  | pushDelayed hc =>
    apply QuitInv.setClient
    exact ⟨heap.pushHeap_isHeap _ _ h.heap, h.finite⟩
  | push hc =>
    apply QuitInv.setClient
    exact ⟨h.heap, h.finite⟩
  | sendStart hc hstop =>
    apply QuitInv.setClient
    exact ⟨h.heap, h.finite⟩
  | quitStore hc =>
    apply QuitInv.setClient
    exact ⟨h.heap, h.finite⟩
  | wakeUp hc =>
    apply QuitInv.setClient
    exact ⟨h.heap, h.finite⟩
  | begin => exact h.setClient _ _
  | sendRefused => exact h.setClient _ _
  | postRefused => exact h.setClient _ _
  | postTested => exact h.setClient _ _
  | delayRefused => exact h.setClient _ _
  | delayTested => exact h.setClient _ _
  | readyTest => exact h.setClient _ _
  | readyWait => exact h.setClient _ _
  | sent => exact h.setClient _ _
  | signalled => exact h.setClient _ _
  | _ => exact ⟨h.heap, h.finite⟩

/-- **One step** with `stop_` set. -/
theorem quit_step (h : QuitInv s) (hstop : s.thread.stop_ = true) {a : Act ι Handler Data}
    (hs : step heap s a = some s') :
    s'.thread.stop_ = true ∧
      ((if a.isOwner then 1 else 0) + s'.quitRank ≤ s.quitRank + if a.isGet then 2 else 0) ∧
      s'.gets.length + s'.held ≤ s.gets.length + s.held := by
  have hno : ∀ {P : Prop}, s.thread.stop_ = false → P :=
    fun hrun => absurd (hrun.symm.trans hstop) Bool.false_ne_true
  have hmoved : s'.thread.stop_ = true → s'.gets = s.gets → s'.held = s.held →
      s'.owner.phase true < s.owner.phase true →
      s'.thread.stop_ = true ∧
        ((if a.isOwner then 1 else 0) + s'.quitRank ≤ s.quitRank + if a.isGet then 2 else 0) ∧
        s'.gets.length + s'.held ≤ s.gets.length + s.held := by
    intro hstop' hgets hheld hlt
    refine ⟨hstop', ?_, by rw [hgets, hheld]⟩
    rw [State.quitRank, State.quitRank, hheld]
    split_ifs <;> omega
  have hkept : s'.thread.stop_ = true → s'.gets = s.gets → s'.owner = s.owner →
      s'.held ≤ s.held →
      s'.thread.stop_ = true ∧
        ((if a.isOwner then 1 else 0) + s'.quitRank ≤ s.quitRank + if a.isGet then 2 else 0) ∧
        s'.gets.length + s'.held ≤ s.gets.length + s.held := by
    intro hstop' hgets ho hheld
    refine ⟨hstop', ?_, by rw [hgets]; omega⟩
    rw [State.quitRank, State.quitRank, ho, if_neg (by simp [kept_of_owner hs ho])]
    omega
  -- the three ends of the locked section
  have hlocked : ∀ {call first_pass msCurrent cms}, a = .owner →
      s.owner = .locked call first_pass msCurrent cms → s'.thread.stop_ = true →
      s'.client = s.client → s'.gets.length ≤ s.gets.length + s'.owner.taken →
      s'.owner.phase true < 2 + 2 * s'.owner.taken →
      s'.thread.stop_ = true ∧
        ((if a.isOwner then 1 else 0) + s'.quitRank ≤ s.quitRank + if a.isGet then 2 else 0) ∧
        s'.gets.length + s'.held ≤ s.gets.length + s.held := by
    rintro call first_pass msCurrent cms rfl ho hstop' hc hgets hlt
    have hsize := (locked_step h ho hs).2
    have hheld : s'.held + s'.owner.taken = s.held := by
      rw [State.held, State.held, State.entering, State.entering, hc]
      omega
    have hphase : s.owner.phase true = 2 := by rw [ho]; rfl
    refine ⟨hstop', ?_, by omega⟩
    rw [State.quitRank, State.quitRank, hphase, ← hheld]
    split_ifs <;> omega
  -- a client that is not going to enter a message
  have hclient : ∀ (i : ι) (c : Client ι Handler Data), c.enters = false →
      (s.setClient i c).held ≤ s.held := fun i c hc =>
    h.held_le (le_refl _) (entering_setClient hc ▸ Set.sdiff_subset)
  cases step_cases hs with
  | get ho hn =>
    refine ⟨hstop, ?_, le_refl _⟩
    simp only [State.quitRank, ho, Owner.phase, Act.isOwner, Act.isGet, Bool.false_eq_true,
      if_false, if_true]
    exact Nat.le_of_eq (Nat.zero_add _)
  | lockedEmpty ho hn hm =>
    exact hlocked rfl ho hstop rfl (le_refl _)
      (by simp [State.afterLocked, Owner.phase, Owner.taken])
  | lockedDispose ho hn hm hmsg =>
    exact hlocked rfl ho hstop rfl (Nat.le_succ _)
      (by simp [State.afterLocked, Owner.phase, Owner.taken])
  | lockedGet ho hn hm hmsg =>
    refine hlocked rfl ho hstop rfl ?_ (by simp [State.afterLocked, Owner.phase, Owner.taken])
    rw [List.length_append]
    exact le_refl _
  | disposed ho hn => exact hmoved hstop rfl rfl (by simp [ho, Owner.phase])
  | stopped ho hstop' => exact hmoved hstop rfl rfl (by simp [ho, Owner.phase])
  | running ho hrun => exact hno hrun
  | consumed ho => exact hmoved hstop rfl rfl (by rcases ho with ho | ho <;> simp [ho, Owner.phase])
  | blocked ho he => exact hmoved hstop rfl rfl (by simp [ho, Owner.phase])
  | timeout ho => exact hmoved hstop rfl rfl (by simp [ho, Owner.phase])
  | expired ho => exact hmoved hstop rfl rfl (by simp [ho, Owner.phase])
  | again ho => exact hmoved hstop rfl rfl (by simp [ho, Owner.phase])
  | dispatched ho hn => exact hmoved hstop rfl rfl (by simp [ho, Owner.phase])
  | nestedMove => exact hkept hstop rfl rfl (le_refl _)
  | nestedConsume => exact hkept hstop rfl rfl (le_refl _)
  | nestedSignal => exact hkept hstop rfl rfl (le_refl _)
  | signal => exact hkept hstop rfl rfl (le_refl _)
  | clear =>
    refine hkept hstop rfl rfl (h.held_le ?_ subset_rfl)
    rw [Thread.size_eq, Thread.size_eq, (Thread.clearInternal_stores heap s.thread _ _).2.length_eq]
    exact List.length_filter_le _ _
  | sendStart hc hrun => exact hno hrun
  | postTested hc hrun => exact hno hrun
  | delayTested hc =>
    -- it finds `stop_` set
    simp only [step, clientStep, hc, hstop, if_true, Option.some.injEq] at hs
    exact hkept hstop rfl rfl (hs ▸ hclient _ _ rfl)
  | push hc =>
    refine hkept hstop rfl rfl (le_of_eq (h.held_entered (by rw [hc]; rfl) rfl ?_))
    rw [Thread.size_eq, Thread.size_eq, (Thread.stores_push _ _).length_eq, List.length_cons]
  | pushDelayed hc =>
    refine hkept hstop rfl rfl (le_of_eq (h.held_entered (by rw [hc]; rfl) rfl ?_))
    rw [Thread.size_eq, Thread.size_eq, (Thread.stores_pushDelayed heap h.heap _ _ _).length_eq,
      List.length_cons]
  | quitStore hc => exact hkept rfl rfl rfl (hclient _ _ rfl)
  | @wakeUp i caller hc => exact hkept hstop rfl rfl (hclient i _ caller.enters_return)
  | begin hc hbegin => exact hkept hstop rfl rfl (hclient _ _ hbegin.enters)
  | sendRefused hc => exact hkept hstop rfl rfl (hclient _ _ rfl)
  | @postRefused i caller msg hc hstop' =>
    exact hkept hstop rfl rfl (hclient i _ caller.enters_return)
  | delayRefused hc => exact hkept hstop rfl rfl (hclient _ _ rfl)
  | readyTest hc hready => exact hkept hstop rfl rfl (hclient _ _ rfl)
  | readyWait hc => exact hkept hstop rfl rfl (hclient _ _ rfl)
  | sent hc hready hend =>
    refine hkept hstop rfl rfl (hclient _ _ ?_)
    rcases hend with rfl | rfl <;> rfl
  | signalled hc => exact hkept hstop rfl rfl (hclient _ _ rfl)

/-- **The loop ends after Quit.** Let `stop_` be set, in any state of any interleaved run. While
the owner is in `Get`, it can take a step, or a client is going to wake it, or the destructor of a
message's data is in a `Send` to another thread, for which it waits; and whatever the others do,
`Get` returns at most the messages that are in the stores and those of the clients that have found
`stop_` unset, and the owner takes no more steps in `Get` and `Dispatch` than five, two for each of
these messages, and two for each call of `Get`. -/
theorem quit_ends (heap : LoopHeap ι Handler Data) (as : List (Act ι Handler Data))
    (h : exec (step heap) init as = some s) (hstop : s.thread.stop_ = true) :
    (s.owner.inGet = true →
      (∃ a : Act ι Handler Data, (a.isOwner = true ∨ a = .nested) ∧
          (step heap s a).isSome = true) ∨
        (∃ i caller, s.client i = .wakeUp caller) ∨
        ∃ ready waited, s.nested = .blocked ready waited) ∧
      s.entering.Finite ∧
      ∀ bs s', exec (step heap) s bs = some s' →
        s'.gets.length ≤ s.gets.length + (s.thread.size + s.entering.ncard) ∧
          bs.countP Act.isOwner ≤
            2 * (s.thread.size + s.entering.ncard) + 5 + 2 * bs.countP Act.isGet := by
  have hwake : WakeInv s :=
    invariant WakeInv (fun _ _ _ h hs => inv_step h hs) init_wakeInv h
  have hquit : QuitInv s :=
    invariant QuitInv (fun _ _ _ h hs => quitInv_step h hs) init_quitInv h
  refine ⟨fun hget => goes_on heap hwake hget (Or.inr hstop), hquit.finite, ?_⟩
  intro bs s' hbs
  have hstep : ∀ s₁ (a : Act ι Handler Data) s₂, QuitInv s₁ ∧ s₁.thread.stop_ = true →
      step heap s₁ a = some s₂ → (QuitInv s₂ ∧ s₂.thread.stop_ = true) ∧
        ((if a.isOwner then 1 else 0) + s₂.quitRank ≤ s₁.quitRank + if a.isGet then 2 else 0) := by
    rintro s₁ a s₂ ⟨h₁, hstop₁⟩ hs
    obtain ⟨hstop₂, hrank, -⟩ := quit_step h₁ hstop₁ hs
    exact ⟨⟨quitInv_step h₁ hs, hstop₂⟩, hrank⟩
  -- what is found and what is left together do not grow
  have hfound : s'.gets.length + s'.held ≤ s.gets.length + s.held := by
    refine (invariant (fun s₁ => (QuitInv s₁ ∧ s₁.thread.stop_ = true) ∧
      s₁.gets.length + s₁.held ≤ s.gets.length + s.held) ?_ ⟨⟨hquit, hstop⟩, le_refl _⟩ hbs).2
    rintro s₁ a s₂ ⟨h₁, hle⟩ hs
    exact ⟨(hstep s₁ a s₂ h₁ hs).1, (quit_step h₁.1 h₁.2 hs).2.2.trans hle⟩
  have hsteps := countP_le _ State.quitRank hstep ⟨hquit, hstop⟩ hbs
  have hphase : s.owner.phase true ≤ 5 := by cases s.owner <;> simp [Owner.phase]
  simp only [State.quitRank, State.held] at hfound hsteps
  exact ⟨by omega, by omega⟩

end Step

/-- `Quit` while the owner is blocked in `Get` and another client is going to enter a message. -/
def quitWhileBlocked : List (Act ℕ ℕ Unit) :=
  [.get Thread.kForever 0, .owner, .owner, .owner, .post 1 {}, .client 1, .quit 0, .client 0]

theorem quit_ends_sample : ∃ s, exec (step Thread.sortedHeap) init quitWhileBlocked = some s ∧
    s.thread.size = 0 ∧ s.entering.Finite ∧
      ∀ bs s', exec (step Thread.sortedHeap) s bs = some s' →
        s'.gets.length ≤ s.gets.length + (s.thread.size + s.entering.ncard) ∧
          bs.countP Act.isOwner ≤
            2 * (s.thread.size + s.entering.ncard) + 5 + 2 * bs.countP Act.isGet :=
  ⟨_, rfl, rfl, (quit_ends Thread.sortedHeap quitWhileBlocked rfl rfl).2⟩

end Loop

end RtcBase
