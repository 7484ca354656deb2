import RtcBase.Lib.Run
import RtcBase.Thread.Stores

/-!
# Who owns a message

A thread that owns the queue calls `Get` and `Peek`; any number of threads post, clear and quit at
any moment. A step is one locked section, or what a call does before it, between two or after the
last. `Get` and `Peek` use the peek slot without the lock: a step of theirs is taken to be over
before a `Clear` of another thread begins. A `delete` is a step of its own or part of one; the data
deleted does not call back into the queue. A failed `RTC_DCHECK` on the handler of an `MQID_DISPOSE`
is passed over, as in a release build.

* `State`: the queue, where the calls are, and a log of what became of each message;
* `Act`, `step`: the steps;
* `Inv`, **`step_inv`**: every message is in one place;
* `post_run`, `doDelayPost_run`, **`get_run`**, `peek_run`: a whole call is a run of steps;
* **`owned_once`**: what becomes of the data of a message in a run.
-/

namespace RtcBase

open Heap Run

namespace Ownership

variable {Handler Data : Type}

/-! ## Steps -/

/-- Where the owner of the queue is; `peeking` if `Get` was called by `Peek`. -/
inductive Owner (Handler Data : Type) where
  | idle
  /-- Before the locked section of the inner loop of `Get`. -/
  | looking (peeking first_pass : Bool)
  /-- Behind the locked section, which has taken `msg`. -/
  | found (peeking : Bool) (msg : Message Handler Data)
  /-- Behind the locked section, which has found nothing. -/
  | empty (peeking : Bool)
  | waiting (peeking : Bool)
  deriving DecidableEq

/-- The message that `Get` has found and not returned yet. -/
def Owner.inHand : Owner Handler Data → List (Message Handler Data)
  | .found _ msg => [msg]
  | _ => []

/-- The queue and the calls under way, with what has become of all messages. -/
structure State (Handler Data : Type) where
  thread : Thread Handler Data
  fDestroyed_ : Bool
  owner : Owner Handler Data
  /-- Calls of `Post`, and of `DoDelayPost` with its times, that have found `stop_` clear. -/
  posting : List (Message Handler Data × Option (ℤ × ℤ))
  /-- The messages of all calls that post. -/
  given : List (Message Handler Data)
  /-- What `Get` has returned to its caller. -/
  handed : List (Message Handler Data)
  /-- The lists that `Clear` has filled. -/
  removed : List (List (Message Handler Data))
  /-- The messages whose data was deleted. -/
  deleted : List (Message Handler Data)

/-- The constructor, before any call. -/
def init : State Handler Data where
  thread := Thread.new
  fDestroyed_ := false
  owner := .idle
  posting := []
  given := []
  handed := []
  removed := []
  deleted := []

/-- A call, or its next locked section. -/
inductive Act (Handler Data : Type) where
  | post (msg : Message Handler Data)
  | postDelayed (now delay_ms : ℤ) (msg : Message Handler Data)
  | postAt (now run_at_ms : ℤ) (msg : Message Handler Data)
  /-- `pdata` is the new `DisposeData`, and missing if there is nothing to dispose of. -/
  | dispose (posted_from : Location) (pdata : Option Data)
  /-- The locked section of a call that posts. -/
  | enter (i : ℕ)
  | get
  | peek
  /-- The locked section of the inner loop of `Get`. -/
  | look (msCurrent : ℤ)
  /-- What `Get` and `Peek` do with the message taken. -/
  | take
  | isQuitting
  /-- `ss_->Wait` has returned; `expired` if it failed or the time is over. -/
  | waited (expired : Bool)
  | clear (phandler : Option Handler) (id : UInt32) (removed : Bool)
  | quit
  | restart
  | doDestroy

/-- The test of `stop_` in `Post` and `DoDelayPost`. -/
def State.begin (s : State Handler Data) (msg : Message Handler Data) (times : Option (ℤ × ℤ)) :
    State Handler Data :=
  if s.thread.stop_ then { s with given := s.given ++ [msg], deleted := s.deleted ++ [msg] }
  else { s with given := s.given ++ [msg], posting := s.posting ++ [(msg, times)] }

section Step

variable [DecidableEq Handler] (heap : StdHeap (@DelayedMessage.lt Handler Data))

/-- The locked section of `Post` or `DoDelayPost`. -/
def State.enter (s : State Handler Data) (msg : Message Handler Data) :
    Option (ℤ × ℤ) → State Handler Data
  | none => { s with thread := s.thread.push msg }
  | some (delay_ms, run_at_ms) =>
    { s with thread := s.thread.pushDelayed heap delay_ms run_at_ms msg }

/-- A step of a queue that has not been destroyed. -/
def State.act (s : State Handler Data) : Act Handler Data → Option (State Handler Data)
  | .post msg => some (s.begin msg none)
  | .postDelayed now delay_ms msg =>
    some (s.begin msg (some (delay_ms, Thread.timeAfter now delay_ms)))
  | .postAt now run_at_ms msg =>
    some (s.begin msg (some (Thread.timeUntil now run_at_ms, run_at_ms)))
  | .dispose posted_from pdata =>
    match pdata with
    | none => some s
    | some d => some (s.begin ⟨posted_from, none, mqidDispose, some d⟩ none)
  | .enter i =>
    match s.posting[i]? with
    | none => none
    | some (msg, times) => some ({ s with posting := s.posting.eraseIdx i }.enter heap msg times)
  | .get =>
    match s.owner with
    | .idle =>
      if s.thread.fPeekKeep_ then
        some { s with
          thread := { s.thread with fPeekKeep_ := false }
          handed := s.handed ++ [s.thread.msgPeek_] }
      else some { s with owner := .looking false true }
    | _ => none
  | .peek =>
    match s.owner with
    | .idle => if s.thread.fPeekKeep_ then some s else some { s with owner := .looking true true }
    | _ => none
  | .look msCurrent =>
    match s.owner with
    | .looking peeking first_pass =>
      match s.thread.getLocked heap first_pass msCurrent Thread.kForever with
      | (none, _, t) => some { s with thread := t, owner := .empty peeking }
      | (some msg, _, t) => some { s with thread := t, owner := .found peeking msg }
    | _ => none
  | .take =>
    match s.owner with
    | .found peeking msg =>
      if msg.isDispose then
        some { s with owner := .looking peeking false, deleted := s.deleted ++ [msg] }
      else if peeking then
        some { s with
          thread := { s.thread with msgPeek_ := msg, fPeekKeep_ := true }
          owner := .idle }
      else some { s with owner := .idle, handed := s.handed ++ [msg] }
    | _ => none
  | .isQuitting =>
    match s.owner with
    | .empty peeking =>
      some { s with owner := if s.thread.stop_ then .idle else .waiting peeking }
    | _ => none
  | .waited expired =>
    match s.owner with
    | .waiting peeking =>
      some { s with owner := if expired then .idle else .looking peeking true }
    | _ => none
  | .clear phandler id removed =>
    let (t, gone) := s.thread.clearInternal heap phandler id
    if removed then some { s with thread := t, removed := s.removed ++ [gone] }
    else some { s with thread := t, deleted := s.deleted ++ gone }
  | .quit => some { s with thread := { s.thread with stop_ := true } }
  | .restart => some { s with thread := { s.thread with stop_ := false } }
  | .doDestroy =>
    match s.owner, s.posting with
    | .idle, [] =>
      let (t, gone) := s.thread.clearInternal heap none mqidAny
      some { s with thread := t, fDestroyed_ := true, deleted := s.deleted ++ gone }
    | _, _ => none

/-- A second `DoDestroy` does nothing, and no other call follows the first. -/
def step (s : State Handler Data) (a : Act Handler Data) : Option (State Handler Data) :=
  if s.fDestroyed_ then
    match a with
    | .doDestroy => some s
    | _ => none
  else s.act heap a

end Step

/-! ## Every message is in one place -/

/-- Where the messages are. -/
def State.places (s : State Handler Data) : Multiset (Message Handler Data) :=
  s.handed + s.removed.flatten + s.deleted + s.posting.map Prod.fst + s.owner.inHand +
    s.thread.stores

/-- **The invariant**: the messages of all calls are in exactly one place each. -/
structure Inv (s : State Handler Data) : Prop where
  heap : IsHeap DelayedMessage.lt s.thread.delayed_messages_
  /-- The peek slot is not in use while the owner is inside `Get`. -/
  peek : s.owner ≠ .idle → s.thread.fPeekKeep_ = false
  given : (s.given : Multiset (Message Handler Data)) = s.places
  destroyed : s.fDestroyed_ = true → s.thread.stores = [] ∧ s.posting = [] ∧ s.owner = .idle

theorem init_inv : Inv (init : State Handler Data) where
  heap := isHeap_nil
  peek h := absurd rfl h
  given := rfl
  destroyed h := absurd h Bool.false_ne_true

variable {s s' : State Handler Data} {t : Thread Handler Data} {msg : Message Handler Data}

theorem coe_of_perm_append {l l₁ l₂ : List (Message Handler Data)} (h : l.Perm (l₁ ++ l₂)) :
    (l : Multiset (Message Handler Data)) = l₁ + l₂ := by
  rw [Multiset.coe_add, Multiset.coe_eq_coe]
  exact h

theorem coe_of_perm_cons {l l' : List (Message Handler Data)} (h : l.Perm (msg :: l')) :
    (l : Multiset (Message Handler Data)) = ([msg] : List (Message Handler Data)) + l' :=
  coe_of_perm_append h

theorem inv_begin (h : Inv s) (hd : s.fDestroyed_ = false) (msg : Message Handler Data)
    (times : Option (ℤ × ℤ)) : Inv (s.begin msg times) := by
  have hgiven := h.given
  unfold State.begin
  split_ifs
  · refine ⟨h.heap, h.peek, ?_, fun hd' => absurd (hd.symm.trans hd') Bool.false_ne_true⟩
    simp only [State.places, ← Multiset.coe_add] at hgiven ⊢
    rw [hgiven]
    abel
  · refine ⟨h.heap, h.peek, ?_, fun hd' => absurd (hd.symm.trans hd') Bool.false_ne_true⟩
    simp only [State.places, List.map_append, List.map_singleton, ← Multiset.coe_add] at hgiven ⊢
    rw [hgiven]
    abel

theorem inv_enter (h : Inv s) (hd : s.fDestroyed_ = false) {i : ℕ} {times : Option (ℤ × ℤ)}
    (hi : s.posting[i]? = some (msg, times)) (hheap : IsHeap DelayedMessage.lt t.delayed_messages_)
    (hpeek : t.fPeekKeep_ = s.thread.fPeekKeep_) (ht : t.stores.Perm (msg :: s.thread.stores)) :
    Inv { s with thread := t, posting := s.posting.eraseIdx i } := by
  refine ⟨hheap, fun ho => hpeek.trans (h.peek ho), ?_,
    fun hd' => absurd (hd.symm.trans hd') Bool.false_ne_true⟩
  have hgiven := h.given
  obtain ⟨hlt, hget⟩ := List.getElem?_eq_some_iff.mp hi
  have hposting := ((List.getElem_cons_eraseIdx_perm hlt).map Prod.fst).symm
  rw [hget, List.map_cons] at hposting
  have h₁ := coe_of_perm_cons hposting
  have h₂ := coe_of_perm_cons ht
  simp only [State.places] at hgiven ⊢
  rw [hgiven, h₁, h₂]
  abel

/-- A step of the owner that leaves the stores alone. -/
theorem inv_owner (h : Inv s) (hd : s.fDestroyed_ = false) {o : Owner Handler Data}
    (hpeek : o ≠ .idle → s.thread.fPeekKeep_ = false) (hhand : o.inHand = s.owner.inHand) :
    Inv { s with owner := o } := by
  refine ⟨h.heap, hpeek, ?_, fun hd' => absurd (hd.symm.trans hd') Bool.false_ne_true⟩
  have hgiven := h.given
  simp only [State.places] at hgiven ⊢
  rw [hgiven, hhand]

section Step

variable [DecidableEq Handler] {heap : StdHeap (@DelayedMessage.lt Handler Data)}

theorem inv_get (h : Inv s) (hd : s.fDestroyed_ = false) (hs : s.act heap .get = some s') :
    Inv s' := by
  have hgiven := h.given
  rw [State.act] at hs
  cases ho : s.owner with
  | idle =>
    simp only [ho] at hs
    split_ifs at hs with hk
    · cases hs
      refine ⟨h.heap, fun _ => rfl, ?_, fun hd' => absurd (hd.symm.trans hd') Bool.false_ne_true⟩
      have hstores := coe_of_perm_cons (.of_eq (Thread.stores_getPeek hk))
      simp only [State.places, ← Multiset.coe_add, ho, hstores] at hgiven ⊢
      rw [hgiven]
      abel
    · cases hs
      exact inv_owner h hd (fun _ => Bool.eq_false_iff.mpr hk) (by rw [ho]; rfl)
  | _ =>
    simp only [ho] at hs
    cases hs

theorem inv_peek (h : Inv s) (hd : s.fDestroyed_ = false) (hs : s.act heap .peek = some s') :
    Inv s' := by
  rw [State.act] at hs
  cases ho : s.owner with
  | idle =>
    simp only [ho] at hs
    split_ifs at hs with hk
    · cases hs
      exact h
    · cases hs
      exact inv_owner h hd (fun _ => Bool.eq_false_iff.mpr hk) (by rw [ho]; rfl)
  | _ =>
    simp only [ho] at hs
    cases hs

theorem inv_look (h : Inv s) (hd : s.fDestroyed_ = false) {msCurrent : ℤ}
    (hs : s.act heap (.look msCurrent) = some s') : Inv s' := by
  have hgiven := h.given
  rw [State.act] at hs
  cases ho : s.owner with
  | looking peeking first_pass =>
    simp only [ho] at hs
    obtain ⟨hheap, hpeek, hperm⟩ :=
      Thread.stores_getLocked heap h.heap first_pass msCurrent Thread.kForever
    rcases hget : s.thread.getLocked heap first_pass msCurrent Thread.kForever with ⟨o, cms, t⟩
    rw [hget] at hs hheap hpeek hperm
    have hkeep : t.fPeekKeep_ = false :=
      hpeek.trans (h.peek (by simp [ho]))
    have hstores := coe_of_perm_append hperm
    simp only [State.places, ho, hstores] at hgiven
    cases o with
    | none =>
      cases hs
      refine ⟨hheap, fun _ => hkeep, ?_,
        fun hd' => absurd (hd.symm.trans hd') Bool.false_ne_true⟩
      simp only [State.places]
      rw [hgiven]
      simp only [Owner.inHand, Option.toList_none]
      abel
    | some msg =>
      cases hs
      refine ⟨hheap, fun _ => hkeep, ?_,
        fun hd' => absurd (hd.symm.trans hd') Bool.false_ne_true⟩
      simp only [State.places]
      rw [hgiven]
      simp only [Owner.inHand, Option.toList_some]
      abel
  | _ =>
    simp only [ho] at hs
    cases hs

theorem inv_take (h : Inv s) (hd : s.fDestroyed_ = false) (hs : s.act heap .take = some s') :
    Inv s' := by
  have hgiven := h.given
  rw [State.act] at hs
  cases ho : s.owner with
  | found peeking msg =>
    have hkeep := h.peek (by simp [ho])
    simp only [State.places, ho, Owner.inHand] at hgiven
    simp only [ho] at hs
    split_ifs at hs with hdispose hp
    · cases hs
      refine ⟨h.heap, fun _ => hkeep, ?_,
        fun hd' => absurd (hd.symm.trans hd') Bool.false_ne_true⟩
      simp only [State.places, ← Multiset.coe_add, Owner.inHand]
      rw [hgiven]
      abel
    · cases hs
      refine ⟨h.heap, fun ho' => absurd rfl ho', ?_,
        fun hd' => absurd (hd.symm.trans hd') Bool.false_ne_true⟩
      have hstores := coe_of_perm_cons (.of_eq (Thread.stores_keepPeek hkeep msg))
      simp only [State.places, hstores, Owner.inHand]
      rw [hgiven]
      abel
    · cases hs
      refine ⟨h.heap, fun ho' => absurd rfl ho', ?_,
        fun hd' => absurd (hd.symm.trans hd') Bool.false_ne_true⟩
      simp only [State.places, ← Multiset.coe_add, Owner.inHand]
      rw [hgiven]
      abel
  | _ =>
    simp only [ho] at hs
    cases hs

theorem inv_clear (h : Inv s) (hd : s.fDestroyed_ = false) {phandler : Option Handler}
    {id : UInt32} {removed : Bool} (hs : s.act heap (.clear phandler id removed) = some s') :
    Inv s' := by
  have hgiven := h.given
  obtain ⟨hheap, -⟩ := Thread.clearInternal_stores heap s.thread phandler id
  have hstores := coe_of_perm_append (Thread.stores_clearInternal heap s.thread phandler id)
  have hkeep : s.owner ≠ .idle → (s.thread.clearInternal heap phandler id).1.fPeekKeep_ = false :=
    fun ho => by simp [Thread.clearInternal, h.peek ho]
  simp only [State.places, hstores] at hgiven
  rcases hclear : s.thread.clearInternal heap phandler id with ⟨t, gone⟩
  rw [hclear] at hheap hkeep hgiven
  simp only [State.act, hclear] at hs
  cases removed with
  | true =>
    cases hs
    refine ⟨hheap, hkeep, ?_, fun hd' => absurd (hd.symm.trans hd') Bool.false_ne_true⟩
    simp only [State.places, List.flatten_append, List.flatten_singleton, ← Multiset.coe_add]
    rw [hgiven]
    abel
  | false =>
    cases hs
    refine ⟨hheap, hkeep, ?_, fun hd' => absurd (hd.symm.trans hd') Bool.false_ne_true⟩
    simp only [State.places, ← Multiset.coe_add]
    rw [hgiven]
    abel

theorem inv_doDestroy (h : Inv s) (hs : s.act heap .doDestroy = some s') : Inv s' := by
  have hgiven := h.given
  obtain ⟨hheap, hkept⟩ := Thread.clearInternal_stores heap s.thread none mqidAny
  have hstores := coe_of_perm_append (Thread.stores_clearInternal heap s.thread none mqidAny)
  have hnil : (s.thread.clearInternal heap none mqidAny).1.stores = [] := by
    refine List.Perm.eq_nil (hkept.trans (List.Perm.of_eq ?_))
    simp [Message.matches]
  simp only [State.places, hstores] at hgiven
  rcases hclear : s.thread.clearInternal heap none mqidAny with ⟨t, gone⟩
  rw [hclear] at hheap hnil hgiven
  simp only [State.act, hclear] at hs
  cases ho : s.owner with
  | idle =>
    cases hp : s.posting with
    | nil =>
      simp only [ho, hp] at hs
      cases hs
      refine ⟨hheap, fun ho' => absurd rfl ho', ?_, fun _ => ⟨hnil, rfl, rfl⟩⟩
      rw [ho, hp] at hgiven
      simp only [State.places, ← Multiset.coe_add]
      rw [hgiven]
      abel
    | cons p ps =>
      simp only [ho, hp] at hs
      cases hs
  | _ =>
    simp only [ho] at hs
    cases hs

/-- **Every message stays in one place.** -/
theorem step_inv (a : Act Handler Data) (h : Inv s) (hs : step heap s a = some s') : Inv s' := by
  unfold step at hs
  cases hd : s.fDestroyed_ with
  | true =>
    rw [if_pos hd] at hs
    cases a <;> cases hs
    exact h
  | false =>
    rw [if_neg (by simp [hd])] at hs
    cases a with
    | post msg =>
      cases hs
      exact inv_begin h hd _ _
    | postDelayed now delay_ms msg =>
      cases hs
      exact inv_begin h hd _ _
    | postAt now run_at_ms msg =>
      cases hs
      exact inv_begin h hd _ _
    | dispose posted_from pdata =>
      cases pdata with
      | none =>
        cases hs
        exact h
      | some d =>
        cases hs
        exact inv_begin h hd _ _
    | enter i =>
      rw [State.act] at hs
      cases hi : s.posting[i]? with
      | none =>
        rw [hi] at hs
        cases hs
      | some p =>
        obtain ⟨msg, _ | ⟨delay_ms, run_at_ms⟩⟩ := p
        · rw [hi] at hs
          cases hs
          exact inv_enter h hd hi h.heap rfl (Thread.stores_push s.thread msg)
        · rw [hi] at hs
          cases hs
          exact inv_enter h hd hi (heap.pushHeap_isHeap _ _ h.heap) rfl
            (Thread.stores_pushDelayed heap h.heap delay_ms run_at_ms msg)
    | get => exact inv_get h hd hs
    | peek => exact inv_peek h hd hs
    | look msCurrent => exact inv_look h hd hs
    | take => exact inv_take h hd hs
    | isQuitting =>
      rw [State.act] at hs
      cases ho : s.owner with
      | empty peeking =>
        simp only [ho] at hs
        cases hs
        have hkeep := h.peek (by simp [ho])
        refine inv_owner h hd (fun _ => hkeep) ?_
        rw [ho]
        split_ifs <;> rfl
      | _ =>
        simp only [ho] at hs
        cases hs
    | waited expired =>
      rw [State.act] at hs
      cases ho : s.owner with
      | waiting peeking =>
        simp only [ho] at hs
        cases hs
        have hkeep := h.peek (by simp [ho])
        refine inv_owner h hd (fun _ => hkeep) ?_
        rw [ho]
        split_ifs <;> rfl
      | _ =>
        simp only [ho] at hs
        cases hs
    | clear phandler id removed => exact inv_clear h hd hs
    | quit =>
      cases hs
      exact ⟨h.heap, h.peek, h.given, fun hd' => absurd (hd.symm.trans hd') Bool.false_ne_true⟩
    | restart =>
      cases hs
      exact ⟨h.heap, h.peek, h.given, fun hd' => absurd (hd.symm.trans hd') Bool.false_ne_true⟩
    | doDestroy => exact inv_doDestroy h hs

end Step

/-! ## Whole calls -/

section Calls

variable [DecidableEq Handler] (heap : StdHeap (@DelayedMessage.lt Handler Data))

theorem step_of_running (hd : s.fDestroyed_ = false) (a : Act Handler Data) :
    step heap s a = s.act heap a := by
  unfold step
  rw [if_neg (by simp [hd])]

theorem begin_run (hd : s.fDestroyed_ = false) {msg : Message Handler Data}
    {times : Option (ℤ × ℤ)} {a : Act Handler Data} (ha : s.act heap a = some (s.begin msg times))
    (hstop : s.thread.stop_ = false) :
    exec (step heap) s [a, .enter s.posting.length] =
      some ({ s with given := s.given ++ [msg] }.enter heap msg times) := by
  refine exec_cons.mpr ⟨_, (step_of_running heap hd a).trans ha, ?_⟩
  rw [State.begin, if_neg (by simp [hstop]), exec_cons]
  refine ⟨_, (step_of_running heap (by exact hd) _).trans ?_, rfl⟩
  simp [State.act, List.eraseIdx_append_of_length_le]

theorem post_run (hd : s.fDestroyed_ = false) (msg : Message Handler Data) :
    ∃ acts s', exec (step heap) s acts = some s' ∧ s'.thread = s.thread.post msg := by
  by_cases hstop : s.thread.stop_ = true
  · refine ⟨[.post msg], s.begin msg none, exec_cons.mpr ⟨_, step_of_running heap hd _, rfl⟩, ?_⟩
    rw [State.begin, if_pos hstop, Thread.post, if_pos hstop]
  · refine ⟨_, _, begin_run heap hd (a := .post msg) rfl (Bool.eq_false_iff.mpr hstop), ?_⟩
    rw [Thread.post, if_neg hstop]
    rfl

theorem doDelayPost_run (hd : s.fDestroyed_ = false) {delay_ms run_at_ms : ℤ}
    {msg : Message Handler Data} {a : Act Handler Data}
    (ha : s.act heap a = some (s.begin msg (some (delay_ms, run_at_ms)))) :
    ∃ acts s', exec (step heap) s acts = some s' ∧
      s'.thread = s.thread.doDelayPost heap delay_ms run_at_ms msg := by
  by_cases hstop : s.thread.stop_ = true
  · refine ⟨[a], _, exec_cons.mpr ⟨_, (step_of_running heap hd a).trans ha, rfl⟩, ?_⟩
    rw [State.begin, if_pos hstop, Thread.doDelayPost, if_pos hstop]
  · refine ⟨_, _, begin_run heap hd ha (Bool.eq_false_iff.mpr hstop), ?_⟩
    rw [Thread.doDelayPost, if_neg hstop]
    rfl

/-- What `Get` has come to, called by `Peek` if `peeking`. -/
def State.finish (s : State Handler Data) (peeking : Bool) (t : Thread Handler Data)
    (gone : List (Message Handler Data)) : Thread.Taken Handler Data → State Handler Data
  | .message msg =>
    if peeking then
      { s with
        thread := { t with msgPeek_ := msg, fPeekKeep_ := true }
        owner := .idle
        deleted := s.deleted ++ gone }
    else
      { s with
        thread := t
        owner := .idle
        handed := s.handed ++ [msg]
        deleted := s.deleted ++ gone }
  | .nothing => { s with thread := t, owner := .idle, deleted := s.deleted ++ gone }
  | .waiting => { s with thread := t, owner := .waiting peeking, deleted := s.deleted ++ gone }

/-- Where the inner loop of `Get` leaves its caller. -/
def Owner.after (peeking : Bool) : Option (Message Handler Data) → Owner Handler Data
  | none => .empty peeking
  | some msg => .found peeking msg

omit [DecidableEq Handler] in
theorem getLocked_cms (t : Thread Handler Data) (first_pass : Bool) (msCurrent cms cms' : ℤ) :
    (t.getLocked heap first_pass msCurrent cms).1 =
        (t.getLocked heap first_pass msCurrent cms').1 ∧
      (t.getLocked heap first_pass msCurrent cms).2.2 =
        (t.getLocked heap first_pass msCurrent cms').2.2 := by
  cases first_pass with
  | true => exact ⟨rfl, rfl⟩
  | false =>
    cases hm : t.messages_ with
    | nil => simp only [Thread.getLocked_nil heap hm, and_self]
    | cons m ms => simp only [Thread.getLocked_cons heap hm, and_self]

theorem passes_run (hd : s.fDestroyed_ = false) (peeking : Bool) (msCurrent : ℤ) (n : ℕ)
    (first_pass : Bool) (cms : ℤ) (t : Thread Handler Data)
    (hheap : IsHeap DelayedMessage.lt t.delayed_messages_) (hn : t.size < n)
    (gone : List (Message Handler Data)) :
    ∃ acts gone', exec (step heap)
        { s with thread := t, owner := .looking peeking first_pass, deleted := s.deleted ++ gone }
        acts =
      some { s with
        thread := (Thread.passes heap msCurrent n first_pass cms t).2.2
        owner := Owner.after peeking (Thread.passes heap msCurrent n first_pass cms t).1
        deleted := s.deleted ++ gone' } ∧
      IsHeap DelayedMessage.lt
        (Thread.passes heap msCurrent n first_pass cms t).2.2.delayed_messages_ ∧
      (Thread.passes heap msCurrent n first_pass cms t).2.2.fPeekKeep_ = t.fPeekKeep_ ∧
      ∀ msg ∈ (Thread.passes heap msCurrent n first_pass cms t).1, msg.isDispose = false := by
  induction n generalizing t first_pass cms gone with
  | zero => omega
  | succ n ih =>
    obtain ⟨hheap', hpeek, hperm⟩ := Thread.stores_getLocked heap hheap first_pass msCurrent cms
    obtain ⟨h₁, h₂⟩ := getLocked_cms heap t first_pass msCurrent Thread.kForever cms
    rcases hforever : t.getLocked heap first_pass msCurrent Thread.kForever with ⟨o₁, cms₁, t₁⟩
    rcases hget : t.getLocked heap first_pass msCurrent cms with ⟨o, cms', t'⟩
    rw [hforever, hget] at h₁ h₂
    obtain rfl : o₁ = o := h₁
    obtain rfl : t₁ = t' := h₂
    rw [hget] at hheap' hpeek hperm
    -- the locked section as a step
    have hlook : ∀ gone, step heap
        { s with thread := t, owner := .looking peeking first_pass, deleted := s.deleted ++ gone }
        (.look msCurrent) =
      some { s with
        thread := t₁, owner := Owner.after peeking o₁, deleted := s.deleted ++ gone } := by
      intro gone
      rw [step_of_running heap (by exact hd)]
      simp only [State.act, hforever]
      cases o₁ <;> rfl
    simp only [Thread.passes, hget]
    cases o₁ with
    | none =>
      exact ⟨[.look msCurrent], gone, exec_cons.mpr ⟨_, hlook gone, rfl⟩, hheap', hpeek, by simp⟩
    | some msg =>
      by_cases hdispose : msg.isDispose = true
      · -- the data is deleted, and the loop goes on
        have hsize : t₁.size < n := by
          have := hperm.length_eq
          simp only [Option.toList_some, List.length_append, List.length_singleton] at this
          rw [Thread.size_eq] at hn ⊢
          omega
        obtain ⟨acts, gone', hacts, hheap'', hpeek', hkeep⟩ :=
          ih false cms' t₁ hheap' hsize (gone ++ [msg])
        simp only [hdispose, if_true]
        refine ⟨.look msCurrent :: .take :: acts, gone', exec_cons.mpr ⟨_, hlook gone, ?_⟩,
          hheap'', hpeek'.trans hpeek, hkeep⟩
        refine exec_cons.mpr ⟨_, (step_of_running heap (by exact hd) _).trans ?_, hacts⟩
        simp only [State.act, Owner.after, hdispose, if_true, List.append_assoc]
      · simp only [hdispose, Bool.false_eq_true, if_false]
        refine ⟨[.look msCurrent], gone, exec_cons.mpr ⟨_, hlook gone, rfl⟩, hheap', hpeek, ?_⟩
        intro m hm
        cases hm
        exact Bool.eq_false_iff.mpr hdispose

theorem checkPosted_run (hd : s.fDestroyed_ = false) (peeking : Bool) (msCurrent : ℤ)
    (t : Thread Handler Data) (hheap : IsHeap DelayedMessage.lt t.delayed_messages_)
    (hkeep : t.fPeekKeep_ = false) (gone : List (Message Handler Data)) :
    ∃ acts gone', exec (step heap)
        { s with thread := t, owner := .looking peeking true, deleted := s.deleted ++ gone } acts =
      some { s with
        thread := (t.checkPosted heap msCurrent).2.2
        owner := Owner.after peeking (t.checkPosted heap msCurrent).1
        deleted := s.deleted ++ gone' } ∧
      IsHeap DelayedMessage.lt (t.checkPosted heap msCurrent).2.2.delayed_messages_ ∧
      (t.checkPosted heap msCurrent).2.2.fPeekKeep_ = false ∧
      ∀ msg ∈ (t.checkPosted heap msCurrent).1, msg.isDispose = false := by
  have hn : t.size < t.messages_.length + t.delayed_messages_.length + 1 := by
    simp [Thread.size, hkeep]
  obtain ⟨acts, gone', hacts, hheap', hkeep', hmsg⟩ :=
    passes_run heap hd peeking msCurrent _ true Thread.kForever t hheap hn gone
  exact ⟨acts, gone', hacts, hheap', hkeep'.trans hkeep, hmsg⟩

theorem take_run (hd : s.fDestroyed_ = false) {peeking : Bool} (t : Thread Handler Data)
    (hmsg : msg.isDispose = false) (gone : List (Message Handler Data)) :
    exec (step heap)
        { s with thread := t, owner := .found peeking msg, deleted := s.deleted ++ gone } [.take] =
      some (s.finish peeking t gone (.message msg)) := by
  refine exec_cons.mpr ⟨_, (step_of_running heap (by exact hd) _).trans ?_, rfl⟩
  cases peeking <;> simp [State.act, State.finish, hmsg]

theorem isQuitting_run (hd : s.fDestroyed_ = false) (peeking : Bool) (t : Thread Handler Data)
    (gone : List (Message Handler Data)) :
    exec (step heap)
        { s with thread := t, owner := .empty peeking, deleted := s.deleted ++ gone }
        [.isQuitting] =
      some (s.finish peeking t gone (if t.stop_ then .nothing else .waiting)) := by
  refine exec_cons.mpr ⟨_, (step_of_running heap (by exact hd) _).trans rfl, ?_⟩
  cases t.stop_ <;> simp [State.finish]

theorem waited_run (hd : s.fDestroyed_ = false) (peeking expired : Bool) (t : Thread Handler Data)
    (gone : List (Message Handler Data)) :
    exec (step heap)
        { s with thread := t, owner := .waiting peeking, deleted := s.deleted ++ gone }
        [.waited expired] =
      some { s with
        thread := t
        owner := if expired then .idle else .looking peeking true
        deleted := s.deleted ++ gone } :=
  exec_cons.mpr ⟨_, (step_of_running heap (by exact hd) _).trans rfl, rfl⟩

theorem getLoop_run (hd : s.fDestroyed_ = false) (peeking : Bool) (cmsWait msStart : ℤ)
    (waits : List (Bool × ℤ)) (msCurrent : ℤ) (t : Thread Handler Data)
    (hheap : IsHeap DelayedMessage.lt t.delayed_messages_) (hkeep : t.fPeekKeep_ = false)
    (gone : List (Message Handler Data)) :
    ∃ acts gone', exec (step heap)
        { s with thread := t, owner := .looking peeking true, deleted := s.deleted ++ gone } acts =
      some (s.finish peeking (Thread.getLoop heap cmsWait msStart msCurrent waits t).2.2 gone'
        (Thread.getLoop heap cmsWait msStart msCurrent waits t).2.1) := by
  induction waits generalizing t msCurrent gone with
  | nil =>
    obtain ⟨acts, gone₁, hacts, -, -, hmsg⟩ :=
      checkPosted_run heap hd peeking msCurrent t hheap hkeep gone
    rcases hcheck : t.checkPosted heap msCurrent with ⟨o, cms, t₁⟩
    rw [hcheck] at hacts hmsg
    unfold Thread.getLoop
    simp only [hcheck]
    cases o with
    | some msg =>
      exact ⟨_, gone₁, (exec_append hacts).trans (take_run heap hd t₁ (hmsg msg rfl) gone₁)⟩
    | none =>
      refine ⟨_, gone₁, (exec_append hacts).trans
        ((isQuitting_run heap hd peeking t₁ gone₁).trans ?_)⟩
      by_cases hstop : t₁.stop_ = true <;> simp only [hstop, if_true, if_false,
        Bool.false_eq_true]
  | cons w waits ih =>
    obtain ⟨waited, now⟩ := w
    obtain ⟨acts, gone₁, hacts, hheap₁, hkeep₁, hmsg⟩ :=
      checkPosted_run heap hd peeking msCurrent t hheap hkeep gone
    rcases hcheck : t.checkPosted heap msCurrent with ⟨o, cms, t₁⟩
    rw [hcheck] at hacts hheap₁ hkeep₁ hmsg
    unfold Thread.getLoop
    simp only [hcheck]
    cases o with
    | some msg =>
      exact ⟨_, gone₁, (exec_append hacts).trans (take_run heap hd t₁ (hmsg msg rfl) gone₁)⟩
    | none =>
      have hquit := isQuitting_run heap hd peeking t₁ gone₁
      by_cases hstop : t₁.stop_ = true
      · rw [if_pos hstop] at hquit
        simp only [hstop, if_true]
        exact ⟨_, gone₁, (exec_append hacts).trans hquit⟩
      · rw [if_neg hstop] at hquit
        simp only [hstop, Bool.false_eq_true, if_false]
        -- after the wait the call returns or looks again
        have hwait (expired : Bool) := (exec_append hacts).trans <|
          (exec_append hquit).trans (waited_run heap hd peeking expired t₁ gone₁)
        split_ifs with hfailed hover
        · exact ⟨_, gone₁, hwait true⟩
        · exact ⟨_, gone₁, hwait true⟩
        · obtain ⟨acts', gone', hacts'⟩ := ih now t₁ hheap₁ hkeep₁ gone₁
          rw [← List.append_nil acts'] at hacts'
          exact ⟨_, gone', (exec_append (hwait false)).trans hacts'⟩

/-- `Get`, with no step of another thread in between, is a run. -/
theorem get_run (h : Inv s) (hd : s.fDestroyed_ = false) (ho : s.owner = .idle)
    (cmsWait msStart : ℤ) (waits : List (Bool × ℤ)) :
    ∃ acts gone, exec (step heap) s acts =
      some (s.finish false (s.thread.get heap cmsWait msStart waits).2.2 gone
        (s.thread.get heap cmsWait msStart waits).2.1) := by
  rw [Thread.get]
  cases hkeep : s.thread.fPeekKeep_ with
  | true =>
    refine ⟨[.get], [], exec_cons.mpr ⟨_, (step_of_running heap hd _).trans ?_, rfl⟩⟩
    simp [State.act, State.finish, ho, hkeep]
  | false =>
    obtain ⟨acts, gone, hacts⟩ :=
      getLoop_run heap hd false cmsWait msStart waits msStart s.thread h.heap hkeep []
    refine ⟨.get :: acts, gone, exec_cons.mpr ⟨_, (step_of_running heap hd _).trans ?_, hacts⟩⟩
    simp [State.act, ho, hkeep]

theorem peek_run (h : Inv s) (hd : s.fDestroyed_ = false) (ho : s.owner = .idle)
    (cmsWait msStart : ℤ) (waits : List (Bool × ℤ)) :
    ∃ acts s', exec (step heap) s acts = some s' ∧
      s'.thread = (s.thread.peek heap cmsWait msStart waits).2.2 ∧ s'.handed = s.handed := by
  rw [Thread.peek]
  cases hkeep : s.thread.fPeekKeep_ with
  | true => exact ⟨[], s, rfl, rfl, rfl⟩
  | false =>
    obtain ⟨acts, gone, hacts⟩ :=
      getLoop_run heap hd true cmsWait msStart waits msStart s.thread h.heap hkeep []
    have hpeek : s.act heap .peek = some { s with owner := .looking true true } := by
      simp [State.act, ho, hkeep]
    rw [List.append_nil] at hacts
    refine ⟨_, _, exec_cons.mpr ⟨_, (step_of_running heap hd _).trans hpeek, hacts⟩, ?_⟩
    simp only [Thread.get, hkeep, Bool.false_eq_true, if_false]
    rcases s.thread.getLoop heap cmsWait msStart msStart waits with ⟨asks, _ | _ | _, t⟩ <;>
      exact ⟨rfl, rfl⟩

end Calls

/-- The data that comes with messages, where the pointer is not null. -/
def dataOf (l : List (Message Handler Data)) : List Data := l.filterMap Message.pdata

theorem Inv.perm (h : Inv s) : s.given.Perm (s.handed ++ s.removed.flatten ++ s.deleted ++
    s.posting.map Prod.fst ++ s.owner.inHand ++ s.thread.stores) := by
  rw [← Multiset.coe_eq_coe, h.given]
  rfl

/-- What happened to `d`, over all places. -/
theorem Inv.count [DecidableEq Data] (h : Inv s) (d : Data) :
    (dataOf s.given).count d = (dataOf s.handed).count d + (dataOf s.removed.flatten).count d +
      (dataOf s.deleted).count d + (dataOf (s.posting.map Prod.fst)).count d +
      (dataOf s.owner.inHand).count d + (dataOf s.thread.stores).count d := by
  have hperm : (dataOf s.given).Perm _ := h.perm.filterMap Message.pdata
  rw [hperm.count_eq]
  simp only [dataOf, List.filterMap_append, List.count_append]

/-- **Every message data is owned once.** In every run of a queue from its construction on, if no
data is given to two calls, each data is in one place: handed out by `Get`, in one list that
`Clear` has filled, deleted, with a call that is about to enter it or has just taken it, or in the
queue, whose size is the number of messages that are in no other place. Once the thread is
destroyed, each data has been handed out, removed or deleted, and nothing is left. -/
theorem owned_once [DecidableEq Handler] [DecidableEq Data]
    (heap : StdHeap (@DelayedMessage.lt Handler Data)) (acts : List (Act Handler Data))
    (h : exec (step heap) init acts = some s) (hdistinct : (dataOf s.given).Nodup) :
    (∀ d ∈ dataOf s.given,
      (dataOf s.handed).count d + (dataOf s.removed.flatten).count d +
        (dataOf s.deleted).count d + (dataOf (s.posting.map Prod.fst)).count d +
        (dataOf s.owner.inHand).count d + (dataOf s.thread.stores).count d = 1) ∧
    s.given.length = s.handed.length + s.removed.flatten.length + s.deleted.length +
      s.posting.length + s.owner.inHand.length + s.thread.size ∧
    (s.fDestroyed_ = true → s.thread.size = 0 ∧ ∀ d ∈ dataOf s.given,
      (dataOf s.handed).count d + (dataOf s.removed.flatten).count d +
        (dataOf s.deleted).count d = 1) := by
  have hinv : Inv s := invariant Inv (fun _ a _ hs => step_inv a hs) init_inv h
  have hone : ∀ d ∈ dataOf s.given, (dataOf s.given).count d = 1 := fun d hd =>
    List.count_eq_one_of_mem hdistinct hd
  refine ⟨fun d hd => ?_, ?_, fun hd => ?_⟩
  · rw [← hinv.count d]
    exact hone d hd
  · rw [hinv.perm.length_eq, Thread.size_eq]
    simp only [List.length_append, List.length_map]
  · obtain ⟨hstores, hposting, howner⟩ := hinv.destroyed hd
    refine ⟨by rw [Thread.size_eq, hstores]; rfl, fun d hmem => ?_⟩
    have hcount := hinv.count d
    rw [hone d hmem, hposting, howner, hstores] at hcount
    exact hcount.symm

/-- A message kept by `Peek` is cleared into a list, one of `Dispose` is deleted by `Get`, one is
handed out, one is rejected, and one is left for the destructor. -/
def lastCalls : List (Act ℕ ℕ) :=
  [.post { phandler := some 7, pdata := some 1 }, .enter 0, .peek, .look 0, .take,
    .dispose {} (some 2), .post { phandler := some 8, pdata := some 3 }, .enter 0, .enter 0,
    .clear (some 7) mqidAny true, .get, .look 0, .take, .look 0, .take,
    .postDelayed 0 5 { phandler := some 7, pdata := some 4 }, .enter 0,
    .quit, .post { phandler := some 7, pdata := some 5 }, .doDestroy]

/-- Messages 1 to 5 were given to the queue, 3 was handed out, 1 removed, the others deleted. -/
theorem owned_once_sample : ∃ s, exec (step Thread.sortedHeap) init lastCalls = some s ∧
    dataOf s.given = [1, 2, 3, 4, 5] ∧ dataOf s.handed = [3] ∧
    s.removed.map dataOf = [[1]] ∧ dataOf s.deleted = [2, 5, 4] ∧
    (s.fDestroyed_ = true → s.thread.size = 0 ∧ ∀ d ∈ dataOf s.given,
      (dataOf s.handed).count d + (dataOf s.removed.flatten).count d +
        (dataOf s.deleted).count d = 1) :=
  ⟨_, rfl, rfl, rfl, rfl, rfl, (owned_once Thread.sortedHeap lastCalls rfl (by decide)).2.2⟩

end Ownership

end RtcBase
