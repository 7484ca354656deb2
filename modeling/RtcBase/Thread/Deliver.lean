import RtcBase.Thread.Refine

/-!
# What a thread delivers

Runs of the calls that do not wait, on a thread that is not quitting.

* `Op`, `Op.run`: a call, with what the clock shows during it;
* `refines_run`: a run of the thread and the same run of the queue it stands for;
* **`run_delivers`**: the answers are those of that queue; no message comes before its run time,
  none comes twice, and a `Clear` only filters what comes later.
-/

namespace RtcBase

open Word Heap TimerQueue Run

variable {Handler Data : Type}

namespace Thread

/-- `waited` is what `ss_->Wait` returns, if it is called. -/
inductive Op (Handler Data : Type) where
  | post (msg : Message Handler Data)
  | postDelayed (now delay_ms : ℤ) (msg : Message Handler Data)
  | postAt (now run_at_ms : ℤ) (msg : Message Handler Data)
  | peek (start after : ℤ) (waited : Bool)
  | get (start after : ℤ) (waited : Bool)
  | clear (phandler : Option Handler) (id : UInt32)

namespace Op

/-- The code of a call; `Get` and `Peek` are asked not to wait. -/
def run [DecidableEq Handler] (heap : StdHeap (@DelayedMessage.lt Handler Data))
    (s : Thread Handler Data) : Op Handler Data → Taken Handler Data × Thread Handler Data
  | post msg => (.nothing, s.post msg)
  | postDelayed now delay_ms msg => (.nothing, s.postDelayed heap now delay_ms msg)
  | postAt now run_at_ms msg => (.nothing, s.postAt heap now run_at_ms msg)
  | peek start after waited => (s.peek heap 0 start [(waited, after)]).2
  | get start after waited => (s.get heap 0 start [(waited, after)]).2
  | clear phandler id => (.nothing, (s.clearInternal heap phandler id).1)

/-- The call on the queue that the thread stands for. -/
def call [DecidableEq Handler] : Op Handler Data → Call (Message Handler Data)
  | post msg => .post msg
  | postDelayed now delay_ms msg => .delay (timeAfter now delay_ms) msg
  | postAt _ run_at_ms msg => .delay run_at_ms msg
  | peek start _ _ => .peek start
  | get start _ _ => .get start
  | clear phandler id => .clear (·.matches phandler id)

/-- What `TimeMillis` returns during the call. -/
def readings : Op Handler Data → List ℤ
  | post _ => []
  | postDelayed now _ _ => [now]
  | postAt now _ _ => [now]
  | peek start after _ => [start, after]
  | get start after _ => [start, after]
  | clear _ _ => []

/-- The call posts with a delay or for a time. -/
def isDelayed : Op Handler Data → Bool
  | postDelayed .. => true
  | postAt .. => true
  | _ => false

/-- The call is one of `Get`. -/
def isGet : Op Handler Data → Bool
  | get .. => true
  | _ => false

theorem isGet_call [DecidableEq Handler] (a : Op Handler Data) : a.call.isGet = a.isGet := by
  cases a <;> rfl

end Op

/-- The message, if there is one. -/
def Taken.message? : Taken Handler Data → Option (Message Handler Data)
  | .message msg => some msg
  | _ => none

/-- The clock does not go back, and shows no negative time. -/
def Clock (ops : List (Op Handler Data)) : Prop :=
  (ops.flatMap Op.readings).Pairwise (· ≤ ·) ∧ ∀ t ∈ ops.flatMap Op.readings, 0 ≤ t ∧ t ≤ int64Max

/-- What the calls of `Get` returned. -/
def received [DecidableEq Handler] (heap : StdHeap (@DelayedMessage.lt Handler Data))
    (s : Thread Handler Data) (ops : List (Op Handler Data)) : List (Message Handler Data) :=
  (answersTo (Op.run heap) Op.isGet s ops).filterMap Taken.message?

/-- `n` calls of `Get` at each of the times. -/
def polls (times : List ℤ) (n : ℕ) : List (Op Handler Data) :=
  times.flatMap fun t => List.replicate n (.get t t true)

/-- The two readings of a call of `Get` or `Peek` are in order. -/
def Op.InOrder : Op Handler Data → Prop
  | peek start after _ => Elapses start after
  | get start after _ => Elapses start after
  | _ => True

theorem Clock.inOrder {ops : List (Op Handler Data)} (h : Clock ops) :
    ∀ a ∈ ops, a.InOrder := by
  intro a ha
  have hsub : a.readings.Sublist (ops.flatMap Op.readings) :=
    List.sublist_flatten_of_mem (List.mem_map_of_mem ha)
  have hmem := fun t ht => h.2 t (hsub.subset ht)
  have hle := h.1.sublist hsub
  cases a with
  | peek start after _ =>
    have h₁ := hmem start (by simp [Op.readings])
    have h₂ := hmem after (by simp [Op.readings])
    exact ⟨by simpa [Op.readings] using hle, by omega⟩
  | get start after _ =>
    have h₁ := hmem start (by simp [Op.readings])
    have h₂ := hmem after (by simp [Op.readings])
    exact ⟨by simpa [Op.readings] using hle, by omega⟩
  | _ => trivial

theorem message?_ofAnswer (o : Option (Item (Message Handler Data))) :
    (Taken.ofAnswer o).message? = o.map Item.msg := by
  cases o <;> rfl

theorem polls_inOrder (times : List ℤ) (n : ℕ) :
    ∀ a ∈ (polls times n : List (Op Handler Data)), a.InOrder := by
  intro a ha
  obtain ⟨t, -, ha⟩ := List.mem_flatMap.mp ha
  rw [List.eq_of_mem_replicate ha]
  exact ⟨le_refl t, by rw [sub_self]; decide⟩

theorem polls_isDelayed (times : List ℤ) (n : ℕ) :
    (polls times n : List (Op Handler Data)).filter Op.isDelayed = [] := by
  rw [List.filter_eq_nil_iff]
  intro a ha
  obtain ⟨t, -, ha⟩ := List.mem_flatMap.mp ha
  rw [List.eq_of_mem_replicate ha]
  exact Bool.false_ne_true

variable [DecidableEq Handler] {s : Thread Handler Data} {q : Queue (Message Handler Data)}
  (heap : StdHeap (@DelayedMessage.lt Handler Data))

/-- **One call.** -/
theorem refines_op (h : Refines s q) (a : Op Handler Data) (ha : a.InOrder)
    (hcount : q.accepted + (if a.isDelayed then 1 else 0) < 2 ^ 32) :
    (a.run heap s).1 = Taken.ofAnswer (q.call Message.isDispose a.call).1 ∧
      Refines (a.run heap s).2 (q.call Message.isDispose a.call).2 := by
  cases a with
  | post msg => exact ⟨rfl, refines_post h msg⟩
  | postDelayed now delay_ms msg => exact ⟨rfl, refines_doDelayPost heap h hcount _ _ msg⟩
  | postAt now run_at_ms msg => exact ⟨rfl, refines_doDelayPost heap h hcount _ _ msg⟩
  | peek start after waited => exact refines_peek heap h ha waited
  | get start after waited => exact refines_get heap h ha waited
  | clear phandler id => exact ⟨rfl, refines_clearInternal heap h phandler id⟩

theorem accepted_call (q : Queue (Message Handler Data)) (a : Op Handler Data) :
    (q.call Message.isDispose a.call).2.accepted =
      q.accepted + (if a.isDelayed then 1 else 0) := by
  cases a with
  | peek start after waited => cases hq : q.peek <;> simp [Op.call, Queue.call, hq] <;> rfl
  | get start after waited => cases hq : q.peek <;> simp [Op.call, Queue.call, hq] <;> rfl
  | _ => rfl

omit [DecidableEq Handler] in
theorem length_isDelayed_cons (a : Op Handler Data) (ops : List (Op Handler Data)) :
    ((a :: ops).filter Op.isDelayed).length =
      (if a.isDelayed then 1 else 0) + (ops.filter Op.isDelayed).length := by
  cases ha : a.isDelayed <;> simp [ha, Nat.add_comm]

/-- **Every run.** -/
theorem refines_run (ops : List (Op Handler Data)) (h : Refines s q)
    (hops : ∀ a ∈ ops, a.InOrder)
    (hcount : q.accepted + (ops.filter Op.isDelayed).length < 2 ^ 32) :
    (trace (Op.run heap) s ops).1 =
        (trace (Queue.call Message.isDispose) q (ops.map Op.call)).1.map Taken.ofAnswer ∧
      Refines (trace (Op.run heap) s ops).2
        (trace (Queue.call Message.isDispose) q (ops.map Op.call)).2 := by
  induction ops generalizing s q with
  | nil => exact ⟨rfl, h⟩
  | cons a ops ih =>
    rw [length_isDelayed_cons] at hcount
    obtain ⟨h₁, h₂⟩ := refines_op heap h a (hops a List.mem_cons_self) (by omega)
    obtain ⟨h₃, h₄⟩ := ih h₂ (fun b hb => hops b (List.mem_cons_of_mem a hb))
      (by rw [accepted_call]; omega)
    exact ⟨by simp [h₁, h₃], h₄⟩

theorem time_sublist (ops : List (Op Handler Data)) :
    ((ops.map Op.call).filterMap Call.time).Sublist (ops.flatMap Op.readings) := by
  induction ops with
  | nil => exact List.Sublist.refl _
  | cons a ops ih =>
    rw [List.map_cons, times_cons, List.flatMap_cons]
    refine List.Sublist.append ?_ ih
    cases a <;> simp [Op.call, Call.time, Op.readings]

theorem received_cons (a : Op Handler Data) (ops : List (Op Handler Data)) :
    received heap s (a :: ops) = (if a.isGet then (a.run heap s).1.message?.toList else []) ++
      received heap (a.run heap s).2 ops := by
  rw [received, answersTo_cons, received, List.filterMap_append]
  cases a.isGet <;> cases h : (a.run heap s).1.message? <;> simp [h]

theorem refines_received (ops : List (Op Handler Data)) (h : Refines s q)
    (hops : ∀ a ∈ ops, a.InOrder)
    (hcount : q.accepted + (ops.filter Op.isDelayed).length < 2 ^ 32) :
    received heap s ops =
      (TimerQueue.received Message.isDispose q (ops.map Op.call)).map Item.msg := by
  induction ops generalizing s q with
  | nil => rfl
  | cons a ops ih =>
    rw [length_isDelayed_cons] at hcount
    obtain ⟨h₁, h₂⟩ := refines_op heap h a (hops a List.mem_cons_self) (by omega)
    rw [received_cons, List.map_cons, TimerQueue.received_cons, List.map_append, h₁,
      message?_ofAnswer, Op.isGet_call,
      ih h₂ (fun b hb => hops b (List.mem_cons_of_mem a hb)) (by rw [accepted_call]; omega)]
    cases a.isGet <;> cases (q.call Message.isDispose a.call).1 <;> rfl

theorem polls_call (times : List ℤ) (n : ℕ) :
    (polls times n : List (Op Handler Data)).map Op.call = TimerQueue.polls times n := by
  simp [polls, TimerQueue.polls, List.map_flatMap, Op.call]

theorem card_stored (ops : List (Op Handler Data)) :
    (trace (Queue.call Message.isDispose) ({} : Queue (Message Handler Data))
      (ops.map Op.call)).2.stored.card ≤ ops.length := by
  have hstored := received_stored Message.isDispose ({} : Queue (Message Handler Data))
    (ops.map Op.call)
  have hitems : (items (ops.map Op.call)).length ≤ ops.length :=
    (List.length_filterMap_le _ _).trans (List.length_map _).le
  have hcard := Multiset.card_le_card ((Multiset.le_add_left _ _).trans hstored)
  rw [Multiset.card_add, Multiset.coe_card] at hcard
  exact hcard.trans ((zero_add _).le.trans hitems)

/-- **A `Clear` only filters.** -/
theorem received_clearInternal (h : Refines s q) (times : List ℤ) {n : ℕ}
    (hn : q.stored.card < n) (phandler : Option Handler) (id : UInt32) :
    received heap (s.clearInternal heap phandler id).1 (polls times n) =
      (received heap s (polls times n)).filter (!·.matches phandler id) := by
  have haccepted : q.accepted < 2 ^ 32 := h.next ▸ s.delayed_next_num_.toNat_lt
  have hcount : q.accepted + ((polls times n).filter
      (Op.isDelayed : Op Handler Data → Bool)).length < 2 ^ 32 := by
    rw [polls_isDelayed]
    exact haccepted
  have hclear := refines_clearInternal heap h phandler id
  rw [refines_received heap _ h (polls_inOrder times n) hcount,
    refines_received heap _ hclear (polls_inOrder times n) hcount, polls_call, Queue.call,
    TimerQueue.received_clear h.numbers _ times hn, List.filter_map]
  rfl

/-- **What a thread delivers.** For every run of the calls on a thread that is not quitting, with a
clock that does not go back and fewer than 2^32 delayed posts:

* the answers are those of the queue with a peek slot, a ready list and a bag;
* what a call returns was posted before, and its run time has come;
* no post is returned twice by `Get`;
* what is received after a `Clear` is what would be received without it, less what matches. -/
theorem run_delivers (ops : List (Op Handler Data)) (hclock : Clock ops)
    (hcount : (ops.filter Op.isDelayed).length < 2 ^ 32) :
    (trace (Op.run heap) new ops).1 =
        (trace (Queue.call Message.isDispose) {} (ops.map Op.call)).1.map Taken.ofAnswer ∧
      (∀ (k : ℕ) a msg, ops[k]? = some a →
        (trace (Op.run heap) new ops).1[k]? = some (.message msg) →
        ∃ i ∈ items ((ops.take k).map Op.call), i.msg = msg ∧ ∀ t ∈ a.call.time, i.DueBy t) ∧
      (∃ posted : List (Item (Message Handler Data)), posted.Subperm (items (ops.map Op.call)) ∧
        received heap new ops = posted.map Item.msg) ∧
      ∀ phandler id times n, ops.length < n →
        received heap ((trace (Op.run heap) new ops).2.clearInternal heap phandler id).1
            (polls times n) =
          (received heap (trace (Op.run heap) new ops).2 (polls times n)).filter
            (!·.matches phandler id) := by
  have hops := hclock.inOrder
  have hcount' : ({} : Queue (Message Handler Data)).accepted +
      (ops.filter Op.isDelayed).length < 2 ^ 32 := by simpa using hcount
  obtain ⟨hans, href⟩ := refines_run heap ops refines_new hops hcount'
  refine ⟨hans, ?_, ?_, ?_⟩
  · intro k a msg ha hmsg
    have htimes := hclock.1.sublist (time_sublist ops)
    rw [hans, List.getElem?_map] at hmsg
    obtain ⟨o, ho, hmsg⟩ := Option.map_eq_some_iff.mp hmsg
    cases o with
    | none => cases hmsg
    | some i =>
      have hcall : (ops.map Op.call)[k]? = some a.call := by rw [List.getElem?_map, ha]; rfl
      obtain ⟨hmem, hdue⟩ := trace_due (kept_new _) htimes k a.call i hcall ho
      rw [List.nil_append, ← List.map_take] at hmem
      exact ⟨i, hmem, by cases hmsg; rfl, hdue⟩
  · exact ⟨_, received_subperm _, refines_received heap ops refines_new hops hcount'⟩
  · intro phandler id times n hn
    exact received_clearInternal heap href times ((card_stored ops).trans_lt hn) phandler id

/-! ## A run -/

/-- A message with nothing but its handler and its id. -/
def sampleMessage (handler : ℕ) (id : UInt32) : Message ℕ Unit :=
  { phandler := some handler, message_id := id }

/-- Two messages with one run time, a peek, and a `Clear` of one of them. -/
def sampleOps : List (Op ℕ Unit) :=
  [.postAt 0 5 (sampleMessage 1 10), .postDelayed 0 5 (sampleMessage 2 20),
    .post (sampleMessage 1 30), .peek 6 6 true, .get 6 7 true, .clear (some 1) mqidAny,
    .get 8 8 true, .get 9 9 true]

theorem run_delivers_sample : (trace (Op.run sortedHeap) new sampleOps).1 =
    [.nothing, .nothing, .nothing, .message (sampleMessage 1 30), .message (sampleMessage 1 30),
      .nothing, .message (sampleMessage 2 20), .nothing] := by
  rw [(run_delivers sortedHeap sampleOps ⟨by decide, by decide⟩ (by decide)).1]
  decide

end Thread

end RtcBase
