import RtcBase.Lib.Run
import RtcBase.Thread.Stores

/-!
# Messages and the life of their handlers

Any number of threads, and handlers that are destroyed. A step is one locked section, or one
access of an owner to its own peek slot or to the message that `Get` has returned to it.
`MessageHandler::~MessageHandler` does nothing: its call of `ThreadManager::Clear` is commented out.

* `State`, `step`: the threads, what their owners have in hand, and the handlers that are gone;
* `NoneOutlives`: no thread holds a message for a handler that is gone;
* `ClearedFirst`: no handler is destroyed while a thread holds a message for it;
* **`noneOutlives_iff`**: the one holds all along a run just when the other does;
* `clearedFirst_of_clearAll`: what the call in the destructor would do.
-/

namespace RtcBase

open Heap Run

namespace Lifetime

variable {ι Handler Data : Type}

/-- All queues, what their owners hold, and the handlers that are gone. -/
structure State (ι Handler Data : Type) where
  thread : ι → Thread Handler Data
  /-- What `Get` has returned to the owner, and `Dispatch` has not been called with. -/
  inHand : ι → List (Message Handler Data)
  /-- The destructor of the handler has finished. -/
  destroyed : Handler → Bool

/-- All queues are empty. -/
def init : State ι Handler Data where
  thread _ := Thread.new
  inHand _ := []
  destroyed _ := false

/-- A call or a part of one, on one queue or on all. -/
inductive Act (ι Handler Data : Type) where
  | post (i : ι) (msg : Message Handler Data)
  | doDelayPost (i : ι) (delay_ms run_at_ms : ℤ) (msg : Message Handler Data)
  /-- The locked section of `Get`. -/
  | getLocked (i : ι) (first_pass : Bool) (msCurrent cmsDelayNext : ℤ)
  /-- `Get` with a filled peek slot. -/
  | getPeek (i : ι)
  /-- `Peek`, when `Get` has returned a message to it. -/
  | keepPeek (i : ι)
  | dispatch (i : ι)
  | clear (i : ι) (phandler : Option Handler) (id : UInt32)
  | quit (i : ι)
  | destroy (h : Handler)

/-- Everything that a thread and its owner hold. -/
def State.held (s : State ι Handler Data) (i : ι) : List (Message Handler Data) :=
  (s.thread i).stores ++ s.inHand i

section Step

variable [DecidableEq ι] [DecidableEq Handler] (heap : StdHeap (@DelayedMessage.lt Handler Data))

/-- One queue changes, with what its owner holds. -/
def State.set (s : State ι Handler Data) (i : ι) (t : Thread Handler Data)
    (l : List (Message Handler Data)) : State ι Handler Data :=
  { s with thread := Function.update s.thread i t, inHand := Function.update s.inHand i l }

/-- `MessageHandler::~MessageHandler`. -/
def destructor (s : State ι Handler Data) (h : Handler) : State ι Handler Data :=
  { s with destroyed := Function.update s.destroyed h true }

/-- A call on the queue that it names, or the destructor of a handler. -/
def step (s : State ι Handler Data) : Act ι Handler Data → Option (State ι Handler Data)
  | .post i msg => some (s.set i ((s.thread i).post msg) (s.inHand i))
  | .doDelayPost i delay_ms run_at_ms msg =>
    some (s.set i ((s.thread i).doDelayPost heap delay_ms run_at_ms msg) (s.inHand i))
  | .getLocked i first_pass msCurrent cmsDelayNext =>
    match (s.thread i).getLocked heap first_pass msCurrent cmsDelayNext with
    | (none, _, t) => some (s.set i t (s.inHand i))
    | (some msg, _, t) =>
      some (s.set i t (if msg.isDispose then s.inHand i else s.inHand i ++ [msg]))
  | .getPeek i =>
    if (s.thread i).fPeekKeep_ then
      some (s.set i { s.thread i with fPeekKeep_ := false } (s.inHand i ++ [(s.thread i).msgPeek_]))
    else none
  | .keepPeek i =>
    match s.inHand i with
    | [] => none
    | msg :: rest =>
      if (s.thread i).fPeekKeep_ then none
      else some (s.set i { s.thread i with msgPeek_ := msg, fPeekKeep_ := true } rest)
  | .dispatch i =>
    match s.inHand i with
    | [] => none
    | _ :: rest => some (s.set i (s.thread i) rest)
  | .clear i phandler id =>
    some (s.set i ((s.thread i).clearInternal heap phandler id).1 (s.inHand i))
  | .quit i => some (s.set i { s.thread i with stop_ := true } (s.inHand i))
  | .destroy h => some (destructor s h)

end Step

/-- No thread holds a message for a handler that is gone. -/
def State.NoneOutlives (s : State ι Handler Data) : Prop :=
  ∀ i, ∀ msg ∈ s.held i, ∀ h ∈ msg.phandler, s.destroyed h = false

/-- The message that a step posts. -/
def Act.posted? : Act ι Handler Data → Option (Message Handler Data)
  | .post _ msg => some msg
  | .doDelayPost _ _ _ msg => some msg
  | _ => none

/-- The handler that a step destroys. -/
def Act.destroyed? : Act ι Handler Data → Option Handler
  | .destroy h => some h
  | _ => none

/-- No message is posted for a handler that is gone. -/
def PostsAlive (s : State ι Handler Data) (a : Act ι Handler Data) : Prop :=
  ∀ msg ∈ a.posted?, ∀ h ∈ msg.phandler, s.destroyed h = false

/-- No handler is destroyed while a thread holds a message for it. -/
def ClearedFirst (s : State ι Handler Data) (a : Act ι Handler Data) : Prop :=
  ∀ h ∈ a.destroyed?, ∀ i, ∀ msg ∈ s.held i, msg.phandler ≠ some h

instance (s : State ι Handler Data) (a : Act ι Handler Data) : Decidable (PostsAlive s a) :=
  inferInstanceAs (Decidable (∀ msg ∈ a.posted?, _))

instance [Fintype ι] [DecidableEq Handler] (s : State ι Handler Data) (a : Act ι Handler Data) :
    Decidable (ClearedFirst s a) :=
  inferInstanceAs (Decidable (∀ h ∈ a.destroyed?, ∀ i, ∀ msg ∈ s.held i, _))

/-- **The invariant**: the delayed messages are heaps, and no message outlives its handler. -/
structure Inv (s : State ι Handler Data) : Prop where
  heap : ∀ i, IsHeap DelayedMessage.lt (s.thread i).delayed_messages_
  alive : s.NoneOutlives

theorem init_inv : Inv (init : State ι Handler Data) where
  heap _ := isHeap_nil
  alive i msg hmsg := by simp [State.held, init, Thread.new, Thread.stores] at hmsg

variable {s s' : State ι Handler Data}

theorem mem_held {i : ι} {msg : Message Handler Data} :
    msg ∈ s.held i ↔ msg ∈ (s.thread i).stores ∨ msg ∈ s.inHand i :=
  List.mem_append

theorem mem_held_of_stores {i : ι} {msg : Message Handler Data} (h : msg ∈ (s.thread i).stores) :
    msg ∈ s.held i :=
  mem_held.mpr (Or.inl h)

theorem mem_held_of_inHand {i : ι} {msg : Message Handler Data} (h : msg ∈ s.inHand i) :
    msg ∈ s.held i :=
  mem_held.mpr (Or.inr h)

section Step

variable [DecidableEq ι]

/-- A thread comes to hold nothing but what it held, and messages for handlers that live. -/
theorem Inv.set (h : Inv s) {i : ι} {t : Thread Handler Data} {l : List (Message Handler Data)}
    (hheap : IsHeap DelayedMessage.lt t.delayed_messages_)
    (hsub : ∀ msg, msg ∈ t.stores ∨ msg ∈ l →
      msg ∈ s.held i ∨ ∀ h ∈ msg.phandler, s.destroyed h = false) : Inv (s.set i t l) := by
  constructor
  · intro j
    by_cases hij : j = i
    · subst hij
      simpa [State.set] using hheap
    · simpa [State.set, hij] using h.heap j
  · intro j msg hmsg
    by_cases hij : j = i
    · subst hij
      refine (hsub msg ?_).elim (h.alive j msg) fun h => h
      simpa [State.held, State.set] using hmsg
    · refine h.alive j msg ?_
      simpa [State.held, State.set, hij] using hmsg

variable [DecidableEq Handler] {heap : StdHeap (@DelayedMessage.lt Handler Data)}

theorem inv_getLocked (h : Inv s) {i : ι} {first_pass : Bool} {msCurrent cms : ℤ}
    (hs : step heap s (.getLocked i first_pass msCurrent cms) = some s') : Inv s' := by
  obtain ⟨hheap, hsub⟩ := Thread.mem_stores_getLocked heap (h.heap i) first_pass msCurrent cms
  simp only [step] at hs
  rcases hget : (s.thread i).getLocked heap first_pass msCurrent cms with ⟨o, cms', t⟩
  rw [hget] at hs hheap hsub
  have hstores : ∀ m ∈ t.stores, m ∈ s.held i := fun m hm =>
    mem_held_of_stores (hsub m (Or.inr hm))
  cases o with
  | none =>
    cases hs
    exact h.set hheap fun m hm => Or.inl (hm.elim (hstores m) mem_held_of_inHand)
  | some msg =>
    cases hs
    refine h.set hheap fun m hm => Or.inl ?_
    rcases hm with hm | hm
    · exact hstores m hm
    · split_ifs at hm
      · exact mem_held_of_inHand hm
      · rcases List.mem_append.mp hm with hm | hm
        · exact mem_held_of_inHand hm
        · rw [List.mem_singleton.mp hm]
          exact mem_held_of_stores (hsub msg (Or.inl rfl))

theorem inv_getPeek (h : Inv s) {i : ι} (hs : step heap s (.getPeek i) = some s') : Inv s' := by
  simp only [step] at hs
  split_ifs at hs with hk
  cases hs
  refine h.set (h.heap i) fun m hm => Or.inl ?_
  rcases hm with hm | hm
  · have hrest := (Thread.mem_stores.mp hm).resolve_left (by simp)
    exact mem_held_of_stores (Thread.mem_stores.mpr (Or.inr hrest))
  · rcases List.mem_append.mp hm with hm | hm
    · exact mem_held_of_inHand hm
    · exact mem_held_of_stores (Thread.mem_stores.mpr (Or.inl ⟨hk, List.mem_singleton.mp hm⟩))

theorem inv_keepPeek (h : Inv s) {i : ι} (hs : step heap s (.keepPeek i) = some s') : Inv s' := by
  simp only [step] at hs
  cases hl : s.inHand i with
  | nil => simp [hl] at hs
  | cons msg rest =>
    simp only [hl] at hs
    split_ifs at hs
    cases hs
    refine h.set (h.heap i) fun m hm => Or.inl ?_
    rcases hm with hm | hm
    · rcases Thread.mem_stores.mp hm with ⟨-, rfl⟩ | hm
      · exact mem_held_of_inHand (hl ▸ List.mem_cons_self)
      · exact mem_held_of_stores (Thread.mem_stores.mpr (Or.inr hm))
    · exact mem_held_of_inHand (hl ▸ List.mem_cons_of_mem msg hm)

/-- **One step**, if no handler is destroyed too early. -/
theorem inv_step (h : Inv s) {a : Act ι Handler Data} (hpost : PostsAlive s a)
    (hok : ClearedFirst s a) (hs : step heap s a = some s') : Inv s' := by
  cases a with
  | post i msg =>
    cases hs
    refine h.set (Thread.isHeap_post (h.heap i) msg) fun m hm => ?_
    rcases hm with hm | hm
    · exact (Thread.mem_stores_post hm).imp mem_held_of_stores
        fun (heq : m = msg) => heq ▸ hpost msg rfl
    · exact Or.inl (mem_held_of_inHand hm)
  | doDelayPost i delay_ms run_at_ms msg =>
    cases hs
    refine h.set (Thread.isHeap_doDelayPost heap (h.heap i) _ _ msg) fun m hm => ?_
    rcases hm with hm | hm
    · exact (Thread.mem_stores_doDelayPost heap (h.heap i) hm).imp mem_held_of_stores
        fun (heq : m = msg) => heq ▸ hpost msg rfl
    · exact Or.inl (mem_held_of_inHand hm)
  | getLocked i first_pass msCurrent cms => exact inv_getLocked h hs
  | getPeek i => exact inv_getPeek h hs
  | keepPeek i => exact inv_keepPeek h hs
  | dispatch i =>
    simp only [step] at hs
    cases hl : s.inHand i with
    | nil => simp [hl] at hs
    | cons msg rest =>
      simp only [hl, Option.some.injEq] at hs
      subst hs
      refine h.set (h.heap i) fun m hm => Or.inl ?_
      exact hm.elim mem_held_of_stores
        fun hm => mem_held_of_inHand (hl ▸ List.mem_cons_of_mem msg hm)
  | clear i phandler mid =>
    cases hs
    refine h.set (heap.makeHeap_isHeap _) fun m hm => Or.inl ?_
    exact hm.elim (fun hm => mem_held_of_stores (Thread.mem_stores_clearInternal heap hm).1)
      mem_held_of_inHand
  | quit i =>
    cases hs
    exact h.set (h.heap i) fun m hm => Or.inl (hm.elim mem_held_of_stores mem_held_of_inHand)
  | destroy hd =>
    cases hs
    refine ⟨h.heap, fun i msg hmsg h' hh' => ?_⟩
    have hne : h' ≠ hd := by
      rintro rfl
      exact hok _ rfl i msg hmsg hh'
    simpa [destructor, hne] using h.alive i msg hmsg h' hh'

/-- A destructor that comes too early leaves a message behind. -/
theorem not_noneOutlives_of_early {a : Act ι Handler Data} (hok : ¬ ClearedFirst s a)
    (hs : step heap s a = some s') : ¬ s'.NoneOutlives := by
  cases a with
  | destroy hd =>
    cases hs
    intro hnone
    refine hok fun h hh i msg hmsg heq => ?_
    cases hh
    have := hnone i msg hmsg _ heq
    simp [destructor] at this
  | _ => exact absurd (fun h hh => nomatch hh) hok

/-- **Messages and the life of their handlers.** In a run of any number of threads that posts
nothing for a handler that is gone, no thread ever holds a message for such a handler, just when no
handler is destroyed while a thread holds a message for it. -/
theorem noneOutlives_iff (heap : StdHeap (@DelayedMessage.lt Handler Data))
    (as : List (Act ι Handler Data)) (hposts : Along (step heap) PostsAlive init as)
    (h : exec (step heap) init as = some s) :
    Always (step heap) State.NoneOutlives init as ↔ Along (step heap) ClearedFirst init as :=
  always_iff_along PostsAlive Inv State.NoneOutlives (fun _ h => h.alive)
    (fun _ _ _ h hpost hok hs => inv_step h hpost hok hs)
    (fun _ _ _ _ _ hok hs => not_noneOutlives_of_early hok hs) init_inv h hposts

/-! ## What the destructor would do -/

/-- `ThreadManager::ClearInternal` over `message_queues_`. -/
def clearAll (message_queues_ : List ι) (handler : Handler) : List (Act ι Handler Data) :=
  message_queues_.map fun i => .clear i (some handler) mqidAny

theorem clearAll_spec (heap : StdHeap (@DelayedMessage.lt Handler Data)) (message_queues_ : List ι)
    (handler : Handler) (h : exec (step heap) s (clearAll message_queues_ handler) = some s') :
    s'.inHand = s.inHand ∧ ∀ i, ∀ msg ∈ (s'.thread i).stores,
      msg ∈ (s.thread i).stores ∧ (i ∈ message_queues_ → msg.phandler ≠ some handler) := by
  induction message_queues_ generalizing s with
  | nil =>
    cases h
    exact ⟨rfl, fun i msg hmsg => ⟨hmsg, fun hi => absurd hi List.not_mem_nil⟩⟩
  | cons j queues ih =>
    obtain ⟨s₁, h₁, h₂⟩ := exec_cons.mp h
    obtain ⟨hhand, hstores⟩ := ih h₂
    cases h₁
    refine ⟨hhand.trans (by simp [State.set]), fun i msg hmsg => ?_⟩
    obtain ⟨hmem, hrest⟩ := hstores i msg hmsg
    by_cases hij : i = j
    · subst hij
      simp only [State.set, Function.update_self] at hmem
      obtain ⟨hmem, hno⟩ := Thread.mem_stores_clearInternal heap hmem
      refine ⟨hmem, fun _ heq => ?_⟩
      simp [Message.matches, heq] at hno
    · simp only [State.set, Function.update_of_ne hij] at hmem
      exact ⟨hmem, fun hi => hrest ((List.mem_cons.mp hi).resolve_left hij)⟩

/-- **What the call in the destructor would do.** If every thread is registered and no owner has a
message for the handler in hand, then after the clears the handler may go. -/
theorem clearedFirst_of_clearAll (heap : StdHeap (@DelayedMessage.lt Handler Data))
    (message_queues_ : List ι) (handler : Handler)
    (h : exec (step heap) s (clearAll message_queues_ handler) = some s')
    (hall : ∀ i, i ∈ message_queues_)
    (hhand : ∀ i, ∀ msg ∈ s.inHand i, msg.phandler ≠ some handler) :
    ClearedFirst s' (.destroy handler) := by
  obtain ⟨hkeep, hstores⟩ := clearAll_spec heap message_queues_ handler h
  intro h hh i msg hmsg
  cases hh
  rcases mem_held.mp hmsg with hmsg | hmsg
  · exact (hstores i msg hmsg).2 (hall i)
  · exact hhand i msg (hkeep ▸ hmsg)

end Step

/-! ## Two runs -/

/-- A handler goes while its message is queued. -/
def earlyDestroy : List (Act Bool ℕ Unit) :=
  [.post true { phandler := some 7 }, .destroy 7, .getLocked true true 0 0]

theorem not_noneOutlives : ∃ s, exec (step Thread.sortedHeap) init earlyDestroy = some s ∧
    Along (step Thread.sortedHeap) PostsAlive init earlyDestroy ∧ s.destroyed 7 = true ∧
      s.inHand true = [{ phandler := some 7 }] ∧ ¬ s.NoneOutlives := by
  refine ⟨_, rfl, by decide, rfl, rfl, fun h => ?_⟩
  exact absurd (h true { phandler := some 7 } (List.mem_singleton_self _) 7 rfl) (by decide)

/-- The messages of a handler are cleared before it goes. -/
def lateDestroy : List (Act Bool ℕ Unit) :=
  [.post true { phandler := some 7 }, .doDelayPost true 5 5 { phandler := some 7 },
    .post true { phandler := some 8 }, .clear true (some 7) mqidAny, .destroy 7,
    .getLocked true true 9 0]

theorem noneOutlives_sample : ∃ s, exec (step Thread.sortedHeap) init lateDestroy = some s ∧
    s.destroyed 7 = true ∧ s.inHand true = [{ phandler := some 8 }] ∧
      Always (step Thread.sortedHeap) State.NoneOutlives init lateDestroy :=
  ⟨_, rfl, rfl, rfl,
    (noneOutlives_iff Thread.sortedHeap lateDestroy (by decide) rfl).mpr (by decide)⟩

end Lifetime

end RtcBase
