import RtcBase.SwapQueue.Model

/-!
# The items of `SwapQueue`

The queue with what lies behind the two pointers. Between two calls a party does with its item
what it likes; within a call the item is the one that the call works on.

* `Holders`, `Move`, `move`: the machine of `SwapQueue.step` with `*input` and `*output`;
* `items`: the slots and the two items, as a multiset;
* **`Exchanged`**: what a piece of a call can do to the slots and to its item;
* `move_cases`: what a move can do;
* `Synced`, `Passed`: the invariants;
* **`exec_items`**: the items are conserved, and keep passing the verifier.
-/

namespace RtcBase

namespace SwapQueue

variable {T : Type}

/-- What `*input` holds during a call of `Insert`. -/
def Producer.item : Producer T → Option T
  | .idle => none
  | .load input => some input
  | .swap input => some input
  | .add _ input => some input
  | .index _ input _ => some input

/-- What `*output` holds during a call of `Remove`. -/
def Consumer.item : Consumer T → Option T
  | .load output => some output
  | .swap output => some output
  | .sub output => some output
  | .index output => some output
  | _ => none

/-! ## One swap -/

/-- A swap of `x` with a slot of `l`, or nothing: `y` and `l'` are what is there after it. -/
def Exchanged (x y : T) (l l' : List T) : Prop :=
  (y = x ∧ l' = l) ∨ ∃ i, y = l.getD i x ∧ l' = l.set i x

theorem Exchanged.refl (x : T) (l : List T) : Exchanged x x l l := Or.inl ⟨rfl, rfl⟩

theorem getD_cons_set (l : List T) (i : ℕ) (x : T) :
    l.getD i x ::ₘ (l.set i x : Multiset T) = x ::ₘ (l : Multiset T) := by
  induction l generalizing i with
  | nil => rfl
  | cons y l ih =>
    cases i with
    | zero => exact Multiset.cons_swap y x l
    | succ i =>
      rw [List.getD_cons_succ, List.set_cons_succ, ← Multiset.cons_coe, ← Multiset.cons_coe,
        Multiset.cons_swap, ih, Multiset.cons_swap]

/-- **A swap conserves the items.** -/
theorem Exchanged.items {x y : T} {l l' : List T} (h : Exchanged x y l l') :
    y ::ₘ (l' : Multiset T) = x ::ₘ (l : Multiset T) := by
  obtain ⟨rfl, rfl⟩ | ⟨i, rfl, rfl⟩ := h
  · rfl
  · exact getD_cons_set l i x

theorem Exchanged.forall {P : T → Prop} {x y : T} {l l' : List T} (h : Exchanged x y l l')
    (hx : P x) (hl : ∀ z ∈ l, P z) : P y ∧ ∀ z ∈ l', P z := by
  have hall : ∀ z ∈ y ::ₘ (l' : Multiset T), P z := by
    rw [h.items]
    exact Multiset.forall_mem_cons.mpr ⟨hx, hl⟩
  exact Multiset.forall_mem_cons.mp hall

theorem fetchSub_queue_ (q : SwapQueue T) : q.fetchSub.queue_ = q.queue_ := by
  rw [fetchSub]

/-- **A piece of `Insert` swaps at most once.** -/
theorem produce_exchanged {s t : State T} (hs : produce s = some t) :
    t.consumer = s.consumer ∧ ∃ x, s.producer.item = some x ∧
      Exchanged x (t.producer.item.getD x) s.queue.queue_ t.queue.queue_ := by
  rcases s with ⟨q, p, c, hist, res, k⟩
  cases p with
  | idle => cases hs
  | load input =>
    simp only [produce] at hs
    split_ifs at hs <;> cases hs <;> exact ⟨rfl, input, rfl, Exchanged.refl input q.queue_⟩
  | swap input =>
    cases hs
    exact ⟨rfl, input, rfl, Or.inr ⟨q.next_write_index_, rfl, rfl⟩⟩
  | add full input =>
    cases hs
    exact ⟨rfl, input, rfl, Exchanged.refl input q.queue_⟩
  | index full input old =>
    cases hs
    exact ⟨rfl, input, rfl, Exchanged.refl input q.queue_⟩

/-- **A piece of `Remove` swaps at most once**, one of `Clear` never. -/
theorem consume_exchanged {s t : State T} (hs : consume s = some t) :
    t.producer = s.producer ∧
      ((s.consumer.item = none ∧ t.consumer.item = none ∧ t.queue.queue_ = s.queue.queue_) ∨
        ∃ x, s.consumer.item = some x ∧
          Exchanged x (t.consumer.item.getD x) s.queue.queue_ t.queue.queue_) := by
  rcases s with ⟨q, p, c, hist, res, k⟩
  cases c with
  | idle => cases hs
  | load output =>
    simp only [consume] at hs
    split_ifs at hs <;> cases hs <;>
      exact ⟨rfl, Or.inr ⟨output, rfl, Exchanged.refl output q.queue_⟩⟩
  | swap output =>
    cases hs
    exact ⟨rfl, Or.inr ⟨output, rfl, Or.inr ⟨q.next_read_index_, rfl, rfl⟩⟩⟩
  | sub output =>
    cases hs
    exact ⟨rfl, Or.inr ⟨output, rfl, Or.inl ⟨rfl, fetchSub_queue_ q⟩⟩⟩
  | index output =>
    cases hs
    exact ⟨rfl, Or.inr ⟨output, rfl, Exchanged.refl output q.queue_⟩⟩
  | exchange =>
    cases hs
    exact ⟨rfl, Or.inl ⟨rfl, rfl, rfl⟩⟩
  | skip n =>
    cases hs
    exact ⟨rfl, Or.inl ⟨rfl, rfl, rfl⟩⟩

/-! ## The items behind the pointers -/

/-- The queue and its parties, with their items. `returned` lists what `*input` and `*output` held
when `Insert` and `Remove` returned. -/
structure Holders (T : Type) where
  state : State T
  input : T
  output : T
  returned : List T

/-- What happens next. With `fill` and `drain` a party changes its item between two calls. -/
inductive Move (T : Type) where
  | fill (item : T)
  | drain (item : T)
  | insert
  | remove
  | clear
  | sizeAtLeast
  | producer
  | consumer

/-- A piece of a call, and not what a party does between two calls. -/
def Move.ofCall : Move T → Bool
  | .fill _ => false
  | .drain _ => false
  | _ => true

namespace Holders

/-- The queue of the constructor, with an item on either side. -/
def init (verifier : T → Bool) (size : ℕ) (prototype input output : T) : Holders T where
  state := SwapQueue.init verifier size prototype
  input := input
  output := output
  returned := []

/-- The slots, the producer's item and the consumer's item. -/
def items (s : Holders T) : Multiset T :=
  s.input ::ₘ s.output ::ₘ (s.state.queue.queue_ : Multiset T)

/-- The item, if the call that had one is over. `Clear` has none. -/
def returns (before after : Option T) (item : T) : List T :=
  if before.isSome && after.isNone then [item] else []

/-- After a piece of `Insert`. -/
def produced (s : Holders T) (t : State T) : Holders T :=
  let input := t.producer.item.getD s.input
  { s with
    state := t
    input := input
    returned := s.returned ++ returns s.state.producer.item t.producer.item input }

/-- After a piece of `Remove` or `Clear`. -/
def consumed (s : Holders T) (t : State T) : Holders T :=
  let output := t.consumer.item.getD s.output
  { s with
    state := t
    output := output
    returned := s.returned ++ returns s.state.consumer.item t.consumer.item output }

/-- A step of the queue, or a change of an item outside it. -/
def move (verifier : T → Bool) (s : Holders T) : Move T → Option (Holders T)
  | .fill item =>
    match s.state.producer with
    | .idle => some { s with input := item }
    | _ => none
  | .drain item =>
    match s.state.consumer with
    | .idle => some { s with output := item }
    | _ => none
  | .insert => (step verifier s.state (.insert s.input)).map fun t => { s with state := t }
  | .remove => (step verifier s.state (.remove s.output)).map fun t => { s with state := t }
  | .clear => (step verifier s.state .clear).map fun t => { s with state := t }
  | .sizeAtLeast => (step verifier s.state .sizeAtLeast).map fun t => { s with state := t }
  | .producer => (step verifier s.state .producer).map s.produced
  | .consumer => (step verifier s.state .consumer).map s.consumed

/-- The argument of a call passes the verifier when the call starts. -/
def Verified (verifier : T → Bool) (s : Holders T) : Move T → Prop
  | .insert => verifier s.input = true
  | .remove => verifier s.output = true
  | _ => True

instance (verifier : T → Bool) (s : Holders T) : ∀ m, Decidable (Verified verifier s m)
  | .insert => inferInstanceAs (Decidable (verifier s.input = true))
  | .remove => inferInstanceAs (Decidable (verifier s.output = true))
  | .fill _ | .drain _ | .clear | .sizeAtLeast | .producer | .consumer => isTrue trivial

variable {verifier : T → Bool} {s s' : Holders T}

/-- A call works on the item behind its pointer. -/
structure Synced (s : Holders T) : Prop where
  input : ∀ x ∈ s.state.producer.item, s.input = x
  output : ∀ x ∈ s.state.consumer.item, s.output = x

/-- All that has been verified passes the verifier. -/
structure Passed (verifier : T → Bool) (s : Holders T) : Prop where
  slots : ∀ x ∈ s.state.queue.queue_, verifier x = true
  input : ∀ x ∈ s.state.producer.item, verifier x = true
  output : ∀ x ∈ s.state.consumer.item, verifier x = true
  returned : ∀ x ∈ s.returned, verifier x = true

theorem init_synced (size : ℕ) (prototype input output : T) :
    (init verifier size prototype input output).Synced where
  input _ hx := by cases hx
  output _ hx := by cases hx

theorem init_passed {size : ℕ} {prototype : T} (input output : T)
    (h : (new size prototype).verifyQueueSlots verifier = true) :
    (init verifier size prototype input output).Passed verifier where
  slots := List.all_eq_true.mp h
  input _ hx := by cases hx
  output _ hx := by cases hx
  returned _ hx := by cases hx

/-! ## One step -/

/-- The item after a piece is the one that the party works on, if it still does. -/
theorem getD_eq_of_mem {o : Option T} {x d : T} (hx : x ∈ o) : o.getD d = x := by
  rw [Option.mem_def.mp hx, Option.getD_some]

theorem forall_mem_returns {P : T → Prop} {l : List T} {before after : Option T} {item : T}
    (hl : ∀ x ∈ l, P x) (hitem : before.isSome = true → P item) :
    ∀ x ∈ l ++ returns before after item, P x := by
  intro x hx
  rcases List.mem_append.mp hx with hx | hx
  · exact hl x hx
  · simp only [returns, Bool.and_eq_true] at hx
    split_ifs at hx with h
    · rw [List.mem_singleton.mp hx]
      exact hitem h.1
    · cases hx

/-- A move that is not a piece of a call: a call starts, or a party changes its own item. -/
structure Started (s : Holders T) (m : Move T) (s' : Holders T) : Prop where
  slots : s'.state.queue.queue_ = s.state.queue.queue_
  returned : s'.returned = s.returned
  input : ∀ x ∈ s'.state.producer.item,
    s'.input = s.input ∧ (x ∈ s.state.producer.item ∨ m = .insert ∧ s.input = x)
  output : ∀ x ∈ s'.state.consumer.item,
    s'.output = s.output ∧ (x ∈ s.state.consumer.item ∨ m = .remove ∧ s.output = x)
  items : m.ofCall = true → s'.input = s.input ∧ s'.output = s.output

/-- **What a move can do.** -/
theorem move_cases {m : Move T} (hs : move verifier s m = some s') :
    (∃ t, produce s.state = some t ∧ s' = s.produced t) ∨
      (∃ t, consume s.state = some t ∧ s' = s.consumed t) ∨ Started s m s' := by
  cases m with
  | producer =>
    obtain ⟨t, ht, rfl⟩ := Option.map_eq_some_iff.mp hs
    exact .inl ⟨t, ht, rfl⟩
  | consumer =>
    obtain ⟨t, ht, rfl⟩ := Option.map_eq_some_iff.mp hs
    exact .inr (.inl ⟨t, ht, rfl⟩)
  | fill item =>
    rcases s with ⟨⟨q, p, c, hist, res, k⟩, input, output, ret⟩
    cases p <;> cases hs
    exact .inr (.inr ⟨rfl, rfl, fun x hx => (Option.not_mem_none x hx).elim,
      fun x hx => ⟨rfl, .inl hx⟩, fun hm => by cases hm⟩)
  | drain item =>
    rcases s with ⟨⟨q, p, c, hist, res, k⟩, input, output, ret⟩
    cases c <;> cases hs
    exact .inr (.inr ⟨rfl, rfl, fun x hx => ⟨rfl, .inl hx⟩,
      fun x hx => (Option.not_mem_none x hx).elim, fun hm => by cases hm⟩)
  | insert =>
    rcases s with ⟨⟨q, p, c, hist, res, k⟩, input, output, ret⟩
    cases p <;> cases hs
    exact .inr (.inr ⟨rfl, rfl, fun x hx => ⟨rfl, .inr ⟨rfl, Option.some.inj hx⟩⟩,
      fun x hx => ⟨rfl, .inl hx⟩, fun _ => ⟨rfl, rfl⟩⟩)
  | remove =>
    rcases s with ⟨⟨q, p, c, hist, res, k⟩, input, output, ret⟩
    cases c <;> cases hs
    exact .inr (.inr ⟨rfl, rfl, fun x hx => ⟨rfl, .inl hx⟩,
      fun x hx => ⟨rfl, .inr ⟨rfl, Option.some.inj hx⟩⟩, fun _ => ⟨rfl, rfl⟩⟩)
  | clear =>
    rcases s with ⟨⟨q, p, c, hist, res, k⟩, input, output, ret⟩
    cases c <;> cases hs
    exact .inr (.inr ⟨rfl, rfl, fun x hx => ⟨rfl, .inl hx⟩,
      fun x hx => (Option.not_mem_none x hx).elim, fun _ => ⟨rfl, rfl⟩⟩)
  | sizeAtLeast =>
    rcases s with ⟨⟨q, p, c, hist, res, k⟩, input, output, ret⟩
    cases c <;> cases hs
    exact .inr (.inr ⟨rfl, rfl, fun x hx => ⟨rfl, .inl hx⟩, fun x hx => ⟨rfl, .inl hx⟩,
      fun _ => ⟨rfl, rfl⟩⟩)

/-- **Every step keeps the pointers, and every step of a call conserves the items.** -/
theorem synced_move (m : Move T) (h : s.Synced) (hs : move verifier s m = some s') :
    s'.Synced ∧ (m.ofCall = true → s'.items = s.items) := by
  obtain ⟨hin, hout⟩ := h
  obtain ⟨t, ht, rfl⟩ | ⟨t, ht, rfl⟩ | hstart := move_cases hs
  · obtain ⟨hc, x, hx, hex⟩ := produce_exchanged ht
    obtain rfl := hin x hx
    refine ⟨⟨fun y hy => getD_eq_of_mem hy, fun y hy => hout y (hc ▸ hy)⟩, fun _ => ?_⟩
    change t.producer.item.getD s.input ::ₘ s.output ::ₘ (t.queue.queue_ : Multiset T) = _
    rw [Multiset.cons_swap, hex.items, Multiset.cons_swap]
    rfl
  · obtain ⟨hp, hex⟩ := consume_exchanged ht
    have hex : Exchanged s.output (t.consumer.item.getD s.output) s.state.queue.queue_
        t.queue.queue_ := by
      obtain ⟨-, hnone, hq⟩ | ⟨x, hx, hex⟩ := hex
      · rw [hnone, hq]
        exact Exchanged.refl _ _
      · rwa [hout x hx]
    refine ⟨⟨fun y hy => hin y (hp ▸ hy), fun y hy => getD_eq_of_mem hy⟩, fun _ => ?_⟩
    change s.input ::ₘ t.consumer.item.getD s.output ::ₘ (t.queue.queue_ : Multiset T) = _
    rw [hex.items]
    rfl
  · refine ⟨⟨fun x hx => ?_, fun x hx => ?_⟩, fun hm => ?_⟩
    · obtain ⟨heq, hx | ⟨-, hx⟩⟩ := hstart.input x hx
      · exact heq.trans (hin x hx)
      · exact heq.trans hx
    · obtain ⟨heq, hx | ⟨-, hx⟩⟩ := hstart.output x hx
      · exact heq.trans (hout x hx)
      · exact heq.trans hx
    · obtain ⟨hinput, houtput⟩ := hstart.items hm
      rw [items, items, hinput, houtput, hstart.slots]

/-- **Every step of a run with verified arguments keeps to verified items.** -/
theorem passed_move (m : Move T) (hv : Verified verifier s m) (hsync : s.Synced)
    (h : s.Passed verifier) (hs : move verifier s m = some s') : s'.Passed verifier := by
  obtain ⟨hslots, hin, hout, hret⟩ := h
  obtain ⟨t, ht, rfl⟩ | ⟨t, ht, rfl⟩ | hstart := move_cases hs
  · obtain ⟨hc, x, hx, hex⟩ := produce_exchanged ht
    obtain rfl := hsync.input x hx
    obtain ⟨hitem, hslots⟩ := hex.forall (P := (verifier · = true)) (hin _ hx) hslots
    exact
    { slots := hslots
      input := fun y hy => by
        rw [← getD_eq_of_mem (d := s.input) hy]
        exact hitem
      output := fun y hy => hout y (hc ▸ hy)
      returned := forall_mem_returns hret fun _ => hitem }
  · obtain ⟨hp, ⟨hnone, hnone', hq⟩ | ⟨x, hx, hex⟩⟩ := consume_exchanged ht
    · exact
      { slots := by rwa [← hq] at hslots
        input := fun y hy => hin y (hp ▸ hy)
        output := fun y hy => by cases hnone'.symm.trans hy
        returned := forall_mem_returns hret fun hsome => by
          rw [hnone] at hsome
          cases hsome }
    · obtain rfl := hsync.output x hx
      obtain ⟨hitem, hslots⟩ := hex.forall (P := (verifier · = true)) (hout _ hx) hslots
      exact
      { slots := hslots
        input := fun y hy => hin y (hp ▸ hy)
        output := fun y hy => by
          rw [← getD_eq_of_mem (d := s.output) hy]
          exact hitem
        returned := forall_mem_returns hret fun _ => hitem }
  · refine ⟨hstart.slots ▸ hslots, fun x hx => ?_, fun x hx => ?_, hstart.returned ▸ hret⟩
    · obtain ⟨-, hx | ⟨rfl, rfl⟩⟩ := hstart.input x hx
      · exact hin x hx
      · exact hv
    · obtain ⟨-, hx | ⟨rfl, rfl⟩⟩ := hstart.output x hx
      · exact hout x hx
      · exact hv

/-! ## Every run -/

theorem items_exec {moves : List (Move T)} (h : s.Synced) (hm : ∀ m ∈ moves, m.ofCall = true)
    (hs : Run.exec (move verifier) s moves = some s') : s'.items = s.items := by
  have hall : s'.Synced ∧ s'.items = s.items :=
    Run.invariant_along (fun t => t.Synced ∧ t.items = s.items)
      (fun t m t' ht (hm : m.ofCall = true) hs =>
        ⟨(synced_move m ht.1 hs).1, ((synced_move m ht.1 hs).2 hm).trans ht.2⟩)
      ⟨h, rfl⟩ hs (Run.along_of_forall hm)
  exact hall.2

/-- **`SwapQueue` only exchanges its items.** In every run from a constructor whose check passes,
with arguments that pass the verifier, every slot passes it at all times, and so does what
`*input` and `*output` hold when `Insert` and `Remove` return. As long as no party changes its own
item, the slots and the two items stay the same multiset, whichever calls begin, go on and return
with success or failure. -/
theorem exec_items (verifier : T → Bool) (size : ℕ) (prototype input output : T)
    (hnew : (new size prototype).verifyQueueSlots verifier = true) (moves : List (Move T))
    (s : Holders T)
    (hs : Run.exec (move verifier) (init verifier size prototype input output) moves = some s)
    (hv : Run.Along (move verifier) (Verified verifier)
      (init verifier size prototype input output) moves) :
    ((∀ x ∈ s.state.queue.queue_, verifier x = true) ∧ ∀ x ∈ s.returned, verifier x = true) ∧
    ∀ (calls : List (Move T)) (s' : Holders T), (∀ m ∈ calls, m.ofCall = true) →
      Run.exec (move verifier) s calls = some s' → s'.items = s.items := by
  have hinv : s.Synced ∧ s.Passed verifier :=
    Run.invariant_along (fun t => t.Synced ∧ t.Passed verifier)
      (fun t m t' ht hm hs => ⟨(synced_move m ht.1 hs).1, passed_move m hm ht.1 ht.2 hs⟩)
      ⟨init_synced size prototype input output, init_passed input output hnew⟩ hs hv
  exact ⟨⟨hinv.2.slots, hinv.2.returned⟩, fun calls s' hm hs => items_exec hinv.1 hm hs⟩

/-- One slot: a full bottle `5` goes to the consumer while an `Insert` of `6` fails. -/
def sample : List (Move ℕ) :=
  [.fill 5, .insert, .producer, .producer, .producer, .producer, .fill 6, .insert, .remove,
    .consumer, .producer, .consumer, .consumer, .consumer]

theorem exec_items_sample : ∃ s : Holders ℕ,
    Run.exec (move (· ≤ 9)) (init (· ≤ 9) 1 0 3 4) sample = some s ∧
    s.returned = [0, 6, 5] ∧ s.items = {6, 5, 4} ∧ (∀ x ∈ s.returned, decide (x ≤ 9) = true) ∧
    ∀ s', Run.exec (move (· ≤ 9)) s [.insert, .producer, .producer] = some s' →
      s'.items = s.items := by
  have h := fun s hs => exec_items (· ≤ 9) 1 0 3 4 rfl sample s hs (by decide)
  exact ⟨_, rfl, rfl, by decide, (h _ rfl).1.2, fun s' hs => (h _ rfl).2 _ s' (by decide) hs⟩

end Holders

end SwapQueue

end RtcBase
