import RtcBase.Lib.Run
import RtcBase.Thread.Model

/-!
# `ThreadManager::Clear` from within itself

"Deleted objects may cause re-entrant calls to ClearInternal": the destructor of message data may
call `ThreadManager::Clear` for the handlers that the data owns, while the loops of the call that
deletes it are under way. One thread runs; it has the (recursive) mutexes, and the others leave the
queues alone.

* `Queue`, `Call`, `State`: the stores with the nodes of the list, and the calls under way, each
  with the place its loops are at;
* **`step`**: what the innermost call does next;
* `Without`: what a call may take out of a store;
* `Reached`, `At`, `At.mono`: what a call relies on at its place, and that other calls leave it.
-/

namespace RtcBase

open Heap Run

namespace Clear

variable {ι Handler Data : Type}

/-! ## Steps -/

/-- The stores of a `Thread`; a node of the `std::list` is its address and the message in it. -/
structure Queue (Handler Data : Type) where
  fPeekKeep_ : Bool
  msgPeek_ : Message Handler Data
  messages_ : List (ℕ × Message Handler Data)
  delayed_messages_ : List (DelayedMessage Handler Data)

/-- `begin()` of the list; `none` is `end()`. -/
def Queue.begin (t : Queue Handler Data) : Option ℕ := t.messages_.head?.map Prod.fst

/-- The nodes from the iterator on. -/
def Queue.from (t : Queue Handler Data) (it : ℕ) : List (ℕ × Message Handler Data) :=
  t.messages_.dropWhile fun n => n.1 ≠ it

/-- `++it`, and the result of `erase(it)`. -/
def Queue.next (t : Queue Handler Data) (it : ℕ) : Option ℕ := (t.from it).tail.head?.map Prod.fst

/-- `messages_.erase(it)`. -/
def Queue.erase (t : Queue Handler Data) (it : ℕ) : Queue Handler Data :=
  { t with messages_ := t.messages_.filter fun n => n.1 ≠ it }

/-- Where a call of `Thread::ClearInternal` is. -/
inductive Place where
  | peek
  | messages (it : Option ℕ)
  | delayed (it new_end : ℕ)
  deriving DecidableEq

/-- A call of `ThreadManager::ClearInternal`. -/
structure Call (ι Handler Data : Type) where
  handler : Handler
  /-- The queues that it has not done; it is in `Clear` of the first. -/
  queues : List ι
  place : Place
  /-- The message whose data is being deleted, and what the destructor has still to clear. -/
  deleting : Option (Message Handler Data × List Handler)

/-- The queues, `processing_`, and what the calls have done. -/
structure State (ι Handler Data : Type) where
  queue : ι → Queue Handler Data
  processing_ : ℕ
  /-- The calls under way, the innermost first. -/
  stack : List (Call ι Handler Data)
  /-- The handlers of all calls. -/
  calls : List Handler
  /-- The messages whose data has been deleted, or is being deleted. -/
  deleted : List (Message Handler Data)

section Step

variable [DecidableEq ι] [DecidableEq Handler] (heap : StdHeap (@DelayedMessage.lt Handler Data))
  (message_queues_ : List ι) (clears : Data → List Handler)

/-- What the destructor of the data clears. -/
def owned (msg : Message Handler Data) : List Handler := msg.pdata.elim [] clears

/-- `ThreadManager::ClearInternal` up to its loop. -/
def State.clear (s : State ι Handler Data) (handler : Handler) : State ι Handler Data :=
  { s with
    processing_ := s.processing_ + 1
    stack := ⟨handler, message_queues_, .peek, none⟩ :: s.stack
    calls := s.calls ++ [handler] }

/-- The innermost call goes on as `c`. -/
def State.go (s : State ι Handler Data) (below : List (Call ι Handler Data))
    (c : Call ι Handler Data) : State ι Handler Data :=
  { s with stack := c :: below }

/-- One queue changes. -/
def State.set (s : State ι Handler Data) (q : ι) (t : Queue Handler Data) : State ι Handler Data :=
  { s with queue := Function.update s.queue q t }

/-- `delete msg.pdata` begins. -/
def State.delete (s : State ι Handler Data) (below : List (Call ι Handler Data))
    (c : Call ι Handler Data) (msg : Message Handler Data) : State ι Handler Data :=
  { s with
    stack := { c with deleting := some (msg, owned clears msg) } :: below
    deleted := s.deleted ++ [msg] }

/-- `Thread::ClearInternal` up to the next `delete`, or by one turn. -/
def State.look (s : State ι Handler Data) (below : List (Call ι Handler Data))
    (c : Call ι Handler Data) (q : ι) (rest : List ι) : Option (State ι Handler Data) :=
  let t := s.queue q
  match c.place with
  | .peek =>
    if t.fPeekKeep_ && t.msgPeek_.matches (some c.handler) mqidAny then
      some (s.delete clears below c t.msgPeek_)
    else some (s.go below { c with place := .messages t.begin })
  | .messages none => some (s.go below { c with place := .delayed 0 0 })
  | .messages (some it) =>
    match t.from it with
    | [] => none
    | (_, msg) :: _ =>
      if msg.matches (some c.handler) mqidAny then some (s.delete clears below c msg)
      else some (s.go below { c with place := .messages (t.next it) })
  | .delayed it new_end =>
    match t.delayed_messages_[it]? with
    | some d =>
      if d.msg_.matches (some c.handler) mqidAny then some (s.delete clears below c d.msg_)
      else
        let t := { t with delayed_messages_ := t.delayed_messages_.set new_end d }
        some ((s.set q t).go below { c with place := .delayed (it + 1) (new_end + 1) })
    | none =>
      if it = t.delayed_messages_.length then
        let t := { t with delayed_messages_ := heap.makeHeap (t.delayed_messages_.take new_end) }
        some ((s.set q t).go below { c with queues := rest, place := .peek })
      else none

/-- `Thread::ClearInternal` behind a `delete`. -/
def State.remove (s : State ι Handler Data) (below : List (Call ι Handler Data))
    (c : Call ι Handler Data) (q : ι) : Option (State ι Handler Data) :=
  let t := s.queue q
  match c.place with
  | .peek =>
    some ((s.set q { t with fPeekKeep_ := false }).go below
      { c with place := .messages t.begin, deleting := none })
  | .messages none => none
  | .messages (some it) =>
    match t.from it with
    | [] => none
    | _ :: _ =>
      some ((s.set q (t.erase it)).go below
        { c with place := .messages (t.next it), deleting := none })
  | .delayed it new_end =>
    some (s.go below { c with place := .delayed (it + 1) new_end, deleting := none })

/-- What the innermost call does next. Without one the thread is done, and with an iterator that
is not valid any more it is stuck. -/
def step (s : State ι Handler Data) (_ : Unit) : Option (State ι Handler Data) :=
  match s.stack with
  | [] => none
  | c :: below =>
    match c.queues with
    | [] => some { s with processing_ := s.processing_ - 1, stack := below }
    | q :: rest =>
      match c.deleting with
      | none => s.look heap clears below c q rest
      | some (_, []) => s.remove below c q
      | some (msg, h :: hs) =>
        some ((s.go below { c with deleting := some (msg, hs) }).clear message_queues_ h)

/-- No call is under way. -/
def start (queue : ι → Queue Handler Data) : State ι Handler Data where
  queue := queue
  processing_ := 0
  stack := []
  calls := []
  deleted := []

end Step

/-! ## What the stores hold -/

section Queue

/-- The message that `Peek` has kept. -/
def Queue.peeked (t : Queue Handler Data) : List (Message Handler Data) :=
  if t.fPeekKeep_ then [t.msgPeek_] else []

/-- All messages of a queue. -/
def Queue.held (t : Queue Handler Data) : List (Message Handler Data) :=
  t.peeked ++ t.messages_.map Prod.snd ++ t.delayed_messages_.map (·.msg_)

/-- All messages of all queues. -/
def held (message_queues_ : List ι) (queue : ι → Queue Handler Data) :
    List (Message Handler Data) :=
  message_queues_.flatMap fun q => (queue q).held

/-- There is no message for the handler. -/
def Queue.Free (h : Handler) (t : Queue Handler Data) : Prop := ∀ m ∈ t.held, m.phandler ≠ some h

/-- The message is for one of the handlers. -/
def IsFor (hs : List Handler) (m : Message Handler Data) : Prop := ∃ h ∈ hs, m.phandler = some h

instance [DecidableEq Handler] (hs : List Handler) (m : Message Handler Data) :
    Decidable (IsFor hs m) :=
  inferInstanceAs (Decidable (∃ h ∈ hs, m.phandler = some h))

/-- The second list is the first without some that are for one of the handlers. -/
def Without {α : Type} (hs : List Handler) (msg : α → Message Handler Data) (l l' : List α) :
    Prop :=
  ∃ p : α → Bool, l' = l.filter p ∧ ∀ x ∈ l, p x = false → IsFor hs (msg x)

/-- What is gone from the queue was for one of the handlers. -/
structure Queue.Without (hs : List Handler) (t t' : Queue Handler Data) : Prop where
  peeked : Clear.Without hs id t.peeked t'.peeked
  messages : Clear.Without hs Prod.snd t.messages_ t'.messages_
  delayed : ∃ l, t'.delayed_messages_.Perm l ∧
    Clear.Without hs DelayedMessage.msg_ t.delayed_messages_ l

variable {α : Type} {hs hs' : List Handler} {h : Handler} {msg : α → Message Handler Data}
  {l l' l'' : List α} {t t' t'' : Queue Handler Data}

theorem mem_held {m : Message Handler Data} : m ∈ t.held ↔
    m ∈ t.peeked ∨ (∃ n ∈ t.messages_, n.2 = m) ∨ ∃ d ∈ t.delayed_messages_, d.msg_ = m := by
  simp only [Queue.held, List.mem_append, List.mem_map, or_assoc]

theorem Without.refl (l : List α) : Without hs msg l l :=
  ⟨fun _ => true, (List.filter_true l).symm, fun _ _ hx => Bool.noConfusion hx⟩

theorem Without.trans (hl : Without hs msg l l') (hl' : Without hs msg l' l'') :
    Without hs msg l l'' := by
  obtain ⟨p, rfl, hp⟩ := hl
  obtain ⟨p', rfl, hp'⟩ := hl'
  refine ⟨fun x => p' x && p x, List.filter_filter, fun x hx hxp => ?_⟩
  cases hpx : p x with
  | false => exact hp x hx hpx
  | true => exact hp' x (List.mem_filter.mpr ⟨hx, hpx⟩) (by simpa [hpx] using hxp)

theorem Without.mono (hhs : hs ⊆ hs') (hl : Without hs msg l l') : Without hs' msg l l' := by
  obtain ⟨p, rfl, hp⟩ := hl
  refine ⟨p, rfl, fun x hx hxp => ?_⟩
  obtain ⟨h, hh, hxh⟩ := hp x hx hxp
  exact ⟨h, hhs hh, hxh⟩

theorem Without.subset (hl : Without hs msg l l') : l' ⊆ l := by
  obtain ⟨p, rfl, -⟩ := hl
  exact List.filter_subset_self l

theorem Without.perm (hl : Without hs msg l l') (hp : l.Perm l'') :
    ∃ l₁, l'.Perm l₁ ∧ Without hs msg l'' l₁ := by
  obtain ⟨p, rfl, hp'⟩ := hl
  exact ⟨l''.filter p, hp.filter p, p, rfl, fun x hx => hp' x (hp.mem_iff.mpr hx)⟩

/-- When nothing for the handlers is left, the rest has stayed. -/
theorem Without.eq_filter [DecidableEq Handler] (hl : Without hs msg l l')
    (hfree : ∀ x ∈ l', ¬ IsFor hs (msg x)) : l' = l.filter fun x => ¬ IsFor hs (msg x) := by
  obtain ⟨p, rfl, hp⟩ := hl
  refine List.filter_congr fun x hx => ?_
  cases hpx : p x with
  | false => simp [hp x hx hpx]
  | true => simp [hfree x (List.mem_filter.mpr ⟨hx, hpx⟩)]

theorem Queue.Without.refl (t : Queue Handler Data) : t.Without hs t :=
  ⟨.refl _, .refl _, _, .refl _, .refl _⟩

theorem Queue.Without.trans (ht : t.Without hs t') (ht' : t'.Without hs t'') :
    t.Without hs t'' := by
  obtain ⟨hp, hm, l, hl, hd⟩ := ht
  obtain ⟨hp', hm', l', hl', hd'⟩ := ht'
  obtain ⟨l₁, hl₁, hd₁⟩ := hd'.perm hl
  exact ⟨hp.trans hp', hm.trans hm', l₁, hl'.trans hl₁, hd.trans hd₁⟩

theorem Queue.Without.mono (hhs : hs ⊆ hs') (ht : t.Without hs t') : t.Without hs' t' := by
  obtain ⟨hp, hm, l, hl, hd⟩ := ht
  exact ⟨hp.mono hhs, hm.mono hhs, l, hl, hd.mono hhs⟩

theorem Queue.Without.subset (ht : t.Without hs t') : t'.held ⊆ t.held := by
  obtain ⟨hp, hm, l, hl, hd⟩ := ht
  intro m hmem
  obtain hx | ⟨n, hn, rfl⟩ | ⟨d, hdl, rfl⟩ := mem_held.mp hmem
  · exact mem_held.mpr (.inl (hp.subset hx))
  · exact mem_held.mpr (.inr (.inl ⟨n, hm.subset hn, rfl⟩))
  · exact mem_held.mpr (.inr (.inr ⟨d, hd.subset (hl.mem_iff.mp hdl), rfl⟩))

theorem Queue.Free.mono (ht : t.Without hs t') (hfree : t.Free h) : t'.Free h :=
  fun m hm => hfree m (ht.subset hm)

/-! ### Iterators of the list -/

theorem matches_any [DecidableEq Handler] {m : Message Handler Data} :
    m.matches (some h) mqidAny = true ↔ m.phandler = some h := by
  simp [Message.matches, eq_comm]

/-- The iterator is valid, and there is nothing for the handler before it. -/
def Reached (h : Handler) (l : List (ℕ × Message Handler Data)) : Option ℕ → Prop
  | none => ∀ n ∈ l, n.2.phandler ≠ some h
  | some it => ∃ before n rest, l = before ++ n :: rest ∧ n.1 = it ∧
      ∀ n ∈ before, n.2.phandler ≠ some h

/-- What a call for the handler relies on in its queue. -/
def At (h : Handler) (t : Queue Handler Data)
    (deleting : Option (Message Handler Data × List Handler)) : Place → Prop
  | .peek => ∀ x ∈ deleting, t.peeked = [x.1] ∧ x.1.phandler = some h
  | .messages it => (∀ m ∈ t.peeked, m.phandler ≠ some h) ∧ Reached h t.messages_ it ∧
      ∀ x ∈ deleting, x.1.phandler = some h ∧ ∃ a, it = some a ∧ (a, x.1) ∈ t.messages_
  | .delayed _ _ => False

variable {before rest : List (ℕ × Message Handler Data)} {n : ℕ × Message Handler Data}
  {deleting : Option (Message Handler Data × List Handler)} {place : Place} {k : Handler}

theorem reached_append (before : List (ℕ × Message Handler Data))
    (hbefore : ∀ n ∈ before, n.2.phandler ≠ some h) :
    Reached h (before ++ rest) (rest.head?.map Prod.fst) := by
  cases rest with
  | nil => simpa [Reached] using hbefore
  | cons n rest => exact ⟨before, n, rest, rfl, rfl, hbefore⟩

theorem fst_ne (hnodup : ((before ++ n :: rest).map Prod.fst).Nodup) :
    (∀ x ∈ before, x.1 ≠ n.1) ∧ ∀ x ∈ rest, x.1 ≠ n.1 := by
  rw [List.map_append, List.map_cons, List.nodup_middle, List.nodup_cons, List.mem_append] at hnodup
  obtain ⟨hbefore, hrest⟩ := not_or.mp hnodup.1
  exact ⟨fun x hx he => hbefore (he ▸ List.mem_map_of_mem hx),
    fun x hx he => hrest (he ▸ List.mem_map_of_mem hx)⟩

theorem from_eq (hl : t.messages_ = before ++ n :: rest)
    (hnodup : (t.messages_.map Prod.fst).Nodup) : t.from n.1 = n :: rest := by
  rw [hl] at hnodup
  have hbefore (x) (hx : x ∈ before) : decide (x.1 ≠ n.1) = true :=
    decide_eq_true ((fst_ne hnodup).1 x hx)
  rw [Queue.from, hl, List.dropWhile_append_of_pos hbefore, List.dropWhile_cons_of_neg (by simp)]

theorem next_eq (hl : t.messages_ = before ++ n :: rest)
    (hnodup : (t.messages_.map Prod.fst).Nodup) : t.next n.1 = rest.head?.map Prod.fst := by
  rw [Queue.next, from_eq hl hnodup, List.tail_cons]

theorem erase_eq (hl : t.messages_ = before ++ n :: rest)
    (hnodup : (t.messages_.map Prod.fst).Nodup) : (t.erase n.1).messages_ = before ++ rest := by
  rw [hl] at hnodup
  obtain ⟨hbefore, hrest⟩ := fst_ne hnodup
  simp only [Queue.erase, hl, List.filter_append, ne_eq, not_true_eq_false, decide_false,
    Bool.false_eq_true, not_false_eq_true, List.filter_cons_of_neg]
  rw [List.filter_eq_self.mpr fun x hx => decide_eq_true (hbefore x hx),
    List.filter_eq_self.mpr fun x hx => decide_eq_true (hrest x hx)]

theorem Without.nodup {before rest : List (ℕ × Message Handler Data)}
    (hl : Without hs Prod.snd before rest) (hnodup : (before.map Prod.fst).Nodup) :
    (rest.map Prod.fst).Nodup := by
  obtain ⟨p, rfl, -⟩ := hl
  exact hnodup.sublist (List.filter_sublist.map _)

/-- What is removed for another handler does not matter to a call that is deleting. -/
theorem At.mono {x : Message Handler Data × List Handler} (hat : At h t (some x) place)
    (hk : k ≠ h) (ht : t.Without [k] t') (hnodup : (t.messages_.map Prod.fst).Nodup) :
    At h t' (some x) place := by
  have hnot {m : Message Handler Data} (hm : m.phandler = some h) : ¬ IsFor [k] m := by
    rintro ⟨k', hk', hmk⟩
    rw [List.mem_singleton.mp hk', hm] at hmk
    exact hk (Option.some.inj hmk).symm
  cases place with
  | peek =>
    rintro y hy
    obtain ⟨hpeek, hfor⟩ := hat y hy
    obtain ⟨p, hp, hpfor⟩ := ht.peeked
    have hpy : p y.1 = true := by
      by_contra hne
      exact hnot hfor (hpfor y.1 (by simp [hpeek]) (eq_false_of_ne_true hne))
    exact ⟨by rw [hp, hpeek, List.filter_cons_of_pos hpy, List.filter_nil], hfor⟩
  | messages it =>
    obtain ⟨hpeek, hreached, hx⟩ := hat
    obtain ⟨hfor, a, rfl, hmem⟩ := hx x rfl
    obtain ⟨before, n, rest, hl, hna, hbefore⟩ := hreached
    obtain ⟨p, hp, hpfor⟩ := ht.messages
    obtain rfl := List.inj_on_of_nodup_map hnodup (by simp [hl]) hmem hna
    have hpn : p (a, x.1) = true := by
      by_contra hne
      exact hnot hfor (hpfor _ hmem (eq_false_of_ne_true hne))
    have hl' : t'.messages_ = before.filter p ++ (a, x.1) :: rest.filter p := by
      rw [hp, hl, List.filter_append, List.filter_cons_of_pos hpn]
    refine ⟨fun m hm => hpeek m (ht.peeked.subset hm),
      ⟨_, _, _, hl', rfl, fun y hy => hbefore y (List.mem_of_mem_filter hy)⟩, fun y hy => ?_⟩
    obtain rfl := Option.some.inj hy
    exact ⟨hfor, a, rfl, by simp [hl']⟩
  | delayed it new_end => exact hat

end Queue

end Clear

end RtcBase
