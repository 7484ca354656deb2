import RtcBase.SwapQueue.Linked

/-!
# `SwapQueue` is a bounded FIFO queue

The atomic accesses to `num_elements_` order the calls: `history` is always a history of the
sequential queue of `Fifo`, whatever the interleaving.

* `Inv`: the history is legal, the ring holds what it leaves, and what the calls returned is what
  it decided, up to the call that each party is in;
* `inv_produce`, `inv_consume`, **`inv_step`**: every step of every interleaving;
* `Answered`, `answered_step`: every call has its answer;
* **`exec_linear`**: what follows for every run.
-/

namespace RtcBase

open Word Fifo

namespace SwapQueue

variable {T : Type} {N : ℕ} {verifier : T → Bool} {s s' : State T}

/-- The number of elements that were removed or dropped. -/
def gone (h : List (Event T)) : ℕ := (fates h).length

/-- What `Insert` will return, once it has added. -/
def Producer.pending : Producer T → List (Event T)
  | .index full _ _ => [.insert full]
  | _ => []

/-- What `Remove` or `Clear` will return, once it has subtracted. -/
def Consumer.pending : Consumer T → List (Event T)
  | .index output => [.remove output]
  | .skip n => [.clear n]
  | _ => []

/-- The event is one of `Insert`. -/
def producerEvent : Event T → Bool
  | .insert _ => true
  | .full => true
  | _ => false

/-- **The invariant**: the history is legal and describes the queue, and every call has as its
result the event that it is in the history. -/
structure Inv (N : ℕ) (s : State T) : Prop where
  legal : Legal N [] s.history
  linked : Linked N s.queue s.producer s.consumer (gone s.history) (replay [] s.history)
  inserts : s.history.filter producerEvent =
    s.results.filter producerEvent ++ s.producer.pending
  removes : s.history.filter (!producerEvent ·) =
    s.results.filter (!producerEvent ·) ++ s.consumer.pending

theorem init_inv (verifier : T → Bool) (N : ℕ) (prototype : T) :
    Inv N (init verifier N prototype) :=
  ⟨trivial, linked_new N prototype, rfl, rfl⟩

theorem gone_snoc (h : List (Event T)) (e : Event T) :
    gone (h ++ [e]) = gone h + (fates [e]).length := by
  rw [gone, fates_append, List.length_append, gone]

theorem filter_snoc {α : Type} (p : α → Bool) (l : List α) (x : α) :
    (l ++ [x]).filter p = l.filter p ++ if p x then [x] else [] := by
  cases hp : p x <;> simp [List.filter_append, hp]

/-- **One piece of `Insert`.** -/
theorem inv_produce (hN : N < 2 ^ 63) (hN₀ : 1 ≤ N) (h : Inv N s) (hs : produce s = some s') :
    Inv N s' := by
  obtain ⟨hl, hk, hi, hr⟩ := h
  rcases s with ⟨q, p, c, hist, res, k⟩
  cases p with
  | idle => cases hs
  | load input =>
    simp only [produce] at hs hl hk hi hr
    split_ifs at hs with hfull
    · cases hs
      have hlen : (replay [] hist).length = N := by
        rw [← hk.num, hfull, hk.size]
      refine ⟨(legal_snoc _ _ _).mpr ⟨hl, hlen⟩, ?_, ?_, ?_⟩
      · rw [gone_snoc, replay_snoc]
        exact linked_full hk
      · simpa [filter_snoc, producerEvent, Producer.pending] using hi
      · simpa [filter_snoc, producerEvent] using hr
    · cases hs
      exact ⟨hl, linked_load hk hfull, hi, hr⟩
  | swap input =>
    cases hs
    exact ⟨hl, linked_swapIn hN₀ hk, hi, hr⟩
  | add full input =>
    cases hs
    have hlt : (replay [] hist).length < N := hk.producer.1
    refine ⟨(legal_snoc _ _ _).mpr ⟨hl, hlt⟩, ?_, ?_, ?_⟩
    · rw [gone_snoc, replay_snoc]
      exact linked_add hN hk
    · have : hist.filter producerEvent = res.filter producerEvent := by
        simpa [Producer.pending] using hi
      simp only [filter_snoc, this, producerEvent, Producer.pending, if_true]
    · simpa [filter_snoc, producerEvent] using hr
  | index full input old =>
    cases hs
    refine ⟨hl, linked_advanceWrite hN hN₀ hk, ?_, ?_⟩
    · simp only [Producer.pending] at hi
      simp only [filter_snoc, hi, producerEvent, Producer.pending, if_true, List.append_nil]
    · simpa [filter_snoc, producerEvent] using hr

/-- **One piece of `Remove` or `Clear`.** -/
theorem inv_consume (hN : N < 2 ^ 63) (hN₀ : 1 ≤ N) (h : Inv N s) (hs : consume s = some s') :
    Inv N s' := by
  obtain ⟨hl, hk, hi, hr⟩ := h
  rcases s with ⟨q, p, c, hist, res, k⟩
  cases c with
  | idle => cases hs
  | load output =>
    simp only [consume] at hs hl hk hi hr
    split_ifs at hs with hempty
    · cases hs
      have hnil : replay [] hist = [] := List.eq_nil_of_length_eq_zero (by rw [← hk.num, hempty])
      refine ⟨(legal_snoc _ _ _).mpr ⟨hl, hnil⟩, ?_, ?_, ?_⟩
      · rw [gone_snoc, replay_snoc]
        exact linked_empty hk
      · simpa [filter_snoc, producerEvent] using hi
      · simpa [filter_snoc, producerEvent, Consumer.pending] using hr
    · cases hs
      exact ⟨hl, linked_loadRead hk hempty, hi, hr⟩
  | swap output =>
    cases hs
    exact ⟨hl, linked_swapOut hk, hi, hr⟩
  | sub output =>
    cases hs
    have hhead : (replay [] hist).head? = some output := hk.consumer
    obtain ⟨l, hcons⟩ := List.head?_eq_some_iff.mp hhead
    refine ⟨(legal_snoc _ _ _).mpr ⟨hl, hhead⟩, ?_, ?_, ?_⟩
    · rw [gone_snoc, replay_snoc, hcons]
      simp only [hcons] at hk
      exact linked_sub hN hk
    · simpa [filter_snoc, producerEvent] using hi
    · simpa [filter_snoc, producerEvent, Consumer.pending] using hr
  | index output =>
    cases hs
    refine ⟨hl, linked_advanceRead hN hN₀ hk, ?_, ?_⟩
    · simpa [filter_snoc, producerEvent] using hi
    · simpa [filter_snoc, producerEvent, Consumer.pending] using hr
  | exchange =>
    cases hs
    have hlen : (replay [] hist).length = q.exchange.1 := hk.num.symm
    refine ⟨(legal_snoc _ _ _).mpr ⟨hl, hlen⟩, ?_, ?_, ?_⟩
    · have := linked_exchange hN₀ hk
      rw [gone_snoc, replay_snoc]
      simpa only [fates, List.flatMap_singleton, List.length_replicate, ← hlen, next] using this
    · simpa [filter_snoc, producerEvent] using hi
    · simpa [filter_snoc, producerEvent, Consumer.pending] using hr
  | skip n =>
    cases hs
    refine ⟨hl, linked_skip hN hN₀ hk, ?_, ?_⟩
    · simpa [filter_snoc, producerEvent] using hi
    · simpa [filter_snoc, producerEvent, Consumer.pending] using hr

/-- **Every step.** -/
theorem inv_step (hN : N < 2 ^ 63) (hN₀ : 1 ≤ N) (a : Act T) (h : Inv N s)
    (hs : step verifier s a = some s') : Inv N s' := by
  cases a with
  | producer => exact inv_produce hN hN₀ h hs
  | consumer => exact inv_consume hN hN₀ h hs
  | insert input =>
    obtain ⟨hl, hk, hi, hr⟩ := h
    rcases s with ⟨q, p, c, hist, res, k⟩
    cases p <;> cases hs
    exact ⟨hl, linked_insert hk input, hi, hr⟩
  | remove output =>
    obtain ⟨hl, hk, hi, hr⟩ := h
    rcases s with ⟨q, p, c, hist, res, k⟩
    cases c <;> cases hs
    exact ⟨hl, linked_remove hk output, hi, hr⟩
  | clear =>
    obtain ⟨hl, hk, hi, hr⟩ := h
    rcases s with ⟨q, p, c, hist, res, k⟩
    cases c <;> cases hs
    exact ⟨hl, linked_clear hk, hi, hr⟩
  | sizeAtLeast =>
    obtain ⟨hl, hk, hi, hr⟩ := h
    rcases s with ⟨q, p, c, hist, res, k⟩
    cases c <;> cases hs
    refine ⟨(legal_snoc _ _ _).mpr ⟨hl, hk.num.symm⟩, ?_, ?_, ?_⟩
    · rw [gone_snoc, replay_snoc]
      exact hk
    · simpa [filter_snoc, producerEvent] using hi
    · simpa [filter_snoc, producerEvent, Consumer.pending] using hr

/-! ## The answers -/

/-- What a call may return. -/
def Answers : Act T → Event T → Prop
  | .insert input, e => e = .insert input ∨ e = .full
  | .remove _, e => (∃ x, e = .remove x) ∨ e = .empty
  | .clear, e => ∃ n, e = .clear n
  | .sizeAtLeast, e => ∃ n, e = .size n
  | .producer, _ | .consumer, _ => False

/-- The call is one of the producer. -/
def Act.ofProducer : Act T → Bool
  | .insert _ => true
  | _ => false

/-- The call is one of the consumer. -/
def Act.ofConsumer : Act T → Bool
  | .remove _ | .clear | .sizeAtLeast => true
  | _ => false

/-- The call that the producer is in. -/
def Producer.calls : Producer T → List (Act T)
  | .idle => []
  | .load input | .swap input => [.insert input]
  | .add full _ | .index full _ _ => [.insert full]

/-- `now` is the call that the consumer is in. -/
def Consumer.In (now : List (Act T)) : Consumer T → Prop
  | .idle => now = []
  | .load _ | .swap _ | .sub _ | .index _ => ∃ output, now = [.remove output]
  | .exchange | .skip _ => now = [.clear]

/-- The calls that were started have returned one after another, up to those of `now`. -/
def Paired (started now : List (Act T)) (returned : List (Event T)) : Prop :=
  ∃ calls, started = calls ++ now ∧ List.Forall₂ Answers calls returned

section Paired

variable {started now : List (Act T)} {returned : List (Event T)} {a : Act T} {e : Event T}

theorem Paired.start (h : Paired started [] returned) (a : Act T) :
    Paired (started ++ [a]) [a] returned := by
  obtain ⟨calls, rfl, hall⟩ := h
  exact ⟨calls, by rw [List.append_nil], hall⟩

theorem Paired.finish (h : Paired started [a] returned) (ha : Answers a e) :
    Paired started [] (returned ++ [e]) := by
  obtain ⟨calls, rfl, hall⟩ := h
  refine ⟨calls ++ [a], (List.append_nil _).symm, ?_⟩
  exact List.rel_append hall (.cons ha .nil)

end Paired

/-- **The calls are answered in order**, each as its function may. -/
structure Answered (acts : List (Act T)) (s : State T) : Prop where
  producer : Paired (acts.filter Act.ofProducer) s.producer.calls (s.results.filter producerEvent)
  consumer : ∃ now, s.consumer.In now ∧
    Paired (acts.filter Act.ofConsumer) now (s.results.filter (!producerEvent ·))

theorem init_answered (verifier : T → Bool) (N : ℕ) (prototype : T) :
    Answered [] (init verifier N prototype) :=
  ⟨⟨[], rfl, .nil⟩, [], rfl, [], rfl, .nil⟩

theorem answered_produce {acts : List (Act T)} (h : Answered acts s) (hs : produce s = some s') :
    Answered (acts ++ [.producer]) s' := by
  obtain ⟨hp, now, hin, hc⟩ := h
  rcases s with ⟨q, p, c, hist, res, k⟩
  cases p with
  | idle => cases hs
  | load input =>
    simp only [produce] at hs
    split_ifs at hs
    · cases hs
      refine ⟨?_, now, hin, ?_⟩
      · simpa [List.filter_cons, Act.ofProducer, producerEvent, Producer.calls] using
          hp.finish (.inr rfl)
      · simpa [List.filter_cons, Act.ofConsumer, producerEvent] using hc
    · cases hs
      refine ⟨?_, now, hin, ?_⟩
      · simpa [List.filter_cons, Act.ofProducer, Producer.calls] using hp
      · simpa [List.filter_cons, Act.ofConsumer] using hc
  | swap input =>
    cases hs
    refine ⟨?_, now, hin, ?_⟩
    · simpa [List.filter_cons, Act.ofProducer, Producer.calls] using hp
    · simpa [List.filter_cons, Act.ofConsumer] using hc
  | add full input =>
    cases hs
    refine ⟨?_, now, hin, ?_⟩
    · simpa [List.filter_cons, Act.ofProducer, Producer.calls] using hp
    · simpa [List.filter_cons, Act.ofConsumer] using hc
  | index full input old =>
    cases hs
    refine ⟨?_, now, hin, ?_⟩
    · simpa [List.filter_cons, Act.ofProducer, producerEvent, Producer.calls] using
        hp.finish (.inl rfl)
    · simpa [List.filter_cons, Act.ofConsumer, producerEvent] using hc

theorem answered_consume {acts : List (Act T)} (h : Answered acts s) (hs : consume s = some s') :
    Answered (acts ++ [.consumer]) s' := by
  obtain ⟨hp, now, hin, hc⟩ := h
  rcases s with ⟨q, p, c, hist, res, k⟩
  cases c with
  | idle => cases hs
  | load output =>
    simp only [consume] at hs
    split_ifs at hs
    · cases hs
      obtain ⟨x, rfl⟩ := hin
      refine ⟨?_, [], rfl, ?_⟩
      · simpa [List.filter_cons, Act.ofProducer, producerEvent, Producer.calls] using hp
      · simpa [List.filter_cons, Act.ofConsumer, producerEvent] using hc.finish (.inr rfl)
    · cases hs
      refine ⟨?_, now, hin, ?_⟩
      · simpa [List.filter_cons, Act.ofProducer, Producer.calls] using hp
      · simpa [List.filter_cons, Act.ofConsumer] using hc
  | swap output =>
    cases hs
    refine ⟨?_, now, hin, ?_⟩
    · simpa [List.filter_cons, Act.ofProducer, Producer.calls] using hp
    · simpa [List.filter_cons, Act.ofConsumer] using hc
  | sub output =>
    cases hs
    refine ⟨?_, now, hin, ?_⟩
    · simpa [List.filter_cons, Act.ofProducer, Producer.calls] using hp
    · simpa [List.filter_cons, Act.ofConsumer] using hc
  | index output =>
    cases hs
    obtain ⟨x, rfl⟩ := hin
    refine ⟨?_, [], rfl, ?_⟩
    · simpa [List.filter_cons, Act.ofProducer, producerEvent, Producer.calls] using hp
    · simpa [List.filter_cons, Act.ofConsumer, producerEvent] using hc.finish (.inl ⟨output, rfl⟩)
  | exchange =>
    cases hs
    refine ⟨?_, now, hin, ?_⟩
    · simpa [List.filter_cons, Act.ofProducer, Producer.calls] using hp
    · simpa [List.filter_cons, Act.ofConsumer] using hc
  | skip n =>
    cases hs
    obtain rfl := hin
    refine ⟨?_, [], rfl, ?_⟩
    · simpa [List.filter_cons, Act.ofProducer, producerEvent, Producer.calls] using hp
    · simpa [List.filter_cons, Act.ofConsumer, producerEvent] using hc.finish ⟨n, rfl⟩

theorem answered_step {acts : List (Act T)} {a : Act T} (h : Answered acts s)
    (hs : step verifier s a = some s') : Answered (acts ++ [a]) s' := by
  cases a with
  | producer => exact answered_produce h hs
  | consumer => exact answered_consume h hs
  | insert input =>
    obtain ⟨hp, now, hin, hc⟩ := h
    rcases s with ⟨q, p, c, hist, res, k⟩
    cases p <;> cases hs
    refine ⟨?_, now, hin, ?_⟩
    · simpa [List.filter_cons, Act.ofProducer, Producer.calls] using hp.start (.insert input)
    · simpa [List.filter_cons, Act.ofConsumer] using hc
  | remove output =>
    obtain ⟨hp, now, hin, hc⟩ := h
    rcases s with ⟨q, p, c, hist, res, k⟩
    cases c <;> cases hs
    obtain rfl := hin
    refine ⟨?_, [.remove output], ⟨output, rfl⟩, ?_⟩
    · simpa [List.filter_cons, Act.ofProducer, Producer.calls] using hp
    · simpa [List.filter_cons, Act.ofConsumer] using hc.start (.remove output)
  | clear =>
    obtain ⟨hp, now, hin, hc⟩ := h
    rcases s with ⟨q, p, c, hist, res, k⟩
    cases c <;> cases hs
    obtain rfl := hin
    refine ⟨?_, [.clear], rfl, ?_⟩
    · simpa [List.filter_cons, Act.ofProducer, Producer.calls] using hp
    · simpa [List.filter_cons, Act.ofConsumer] using hc.start .clear
  | sizeAtLeast =>
    obtain ⟨hp, now, hin, hc⟩ := h
    rcases s with ⟨q, p, c, hist, res, k⟩
    cases c <;> cases hs
    obtain rfl := hin
    refine ⟨?_, [], rfl, ?_⟩
    · simpa [List.filter_cons, Act.ofProducer, producerEvent, Producer.calls] using hp
    · have hstart := hc.start .sizeAtLeast
      simpa [List.filter_cons, Act.ofConsumer, producerEvent] using
        hstart.finish ⟨q.num_elements_, rfl⟩

/-! ## Every run -/

/-- Between the load and the update of the counter. -/
def Producer.between : Producer T → Bool
  | .swap _ => true
  | .add _ _ => true
  | _ => false

/-- The consumer has its item and has not counted it yet. -/
def Consumer.between : Consumer T → Bool
  | .swap _ => true
  | .sub _ => true
  | _ => false

theorem checks_step (hN : N < 2 ^ 63) (hN₀ : 1 ≤ N) (a : Act T) (hv : a.Verified verifier)
    (h : Inv N s) (hc : s.checks = true) (hs : step verifier s a = some s') : s'.checks = true := by
  have hk := h.linked
  have hsize : s.queue.queue_.length = N := hk.size
  rcases s with ⟨q, p, c, hist, res, k⟩
  cases a with
  | producer =>
    cases p with
    | idle => cases hs
    | load input =>
      simp only [step, produce] at hs
      split_ifs at hs <;> cases hs <;> exact hc
    | swap input => cases hs; exact hc
    | add full input => cases hs; exact hc
    | index full input old =>
      cases hs
      have hlt := Nat.mod_lt (gone hist + (replay [] hist).length) hN₀
      have hw := (linked_advanceWrite hN hN₀ hk).write
      simp only [Producer.ahead, Nat.sub_zero] at hw
      simp only at hc
      simp [hc, hw, hsize, hlt, hk.producer.2]
  | consumer =>
    cases c with
    | idle => cases hs
    | load output =>
      simp only [step, consume] at hs
      split_ifs at hs <;> cases hs <;> exact hc
    | swap output => cases hs; exact hc
    | sub output => cases hs; exact hc
    | exchange => cases hs; exact hc
    | index output =>
      cases hs
      have hlt := Nat.mod_lt (gone hist) hN₀
      have hr := (linked_advanceRead hN hN₀ hk).read
      simp only [Consumer.ahead, Nat.sub_zero] at hr
      simp only at hc
      simp [hc, hr, hsize, hlt]
    | skip n =>
      cases hs
      have hlt := Nat.mod_lt (gone hist) hN₀
      have hr := (linked_skip hN hN₀ hk).read
      simp only [Consumer.ahead, Nat.sub_zero] at hr
      simp only at hc
      simp [hc, hr, hsize, hlt]
  | insert input =>
    cases p <;> cases hs
    exact Bool.and_eq_true_iff.mpr ⟨hc, hv⟩
  | remove output =>
    cases c <;> cases hs
    exact Bool.and_eq_true_iff.mpr ⟨hc, hv⟩
  | clear =>
    cases c <;> cases hs
    exact hc
  | sizeAtLeast =>
    cases c <;> cases hs
    exact hc

theorem Consumer.pending_cases (c : Consumer T) :
    c.pending = [] ∨ (∃ x, c.pending = [.remove x]) ∨ ∃ n, c.pending = [.clear n] := by
  cases c with
  | index output => exact Or.inr (Or.inl ⟨output, rfl⟩)
  | skip n => exact Or.inr (Or.inr ⟨n, rfl⟩)
  | _ => exact Or.inl rfl

theorem removed_results (h : Inv N s) :
    removed s.results = keep (inserted s.history) (fates s.results) ∧
      (fates s.results).length ≤ (inserted s.history).length := by
  obtain ⟨gone, h₁, h₂, h₃⟩ := legal_removed s.history h.legal
  have hr := congrArg removed h.removes
  have hf := congrArg fates h.removes
  rw [removed_append, removed_filter _ _ fun _ => rfl, removed_filter _ _ fun _ => rfl] at hr
  rw [fates_append, fates_filter _ _ (fun _ => rfl) fun _ => rfl,
    fates_filter _ _ (fun _ => rfl) fun _ => rfl] at hf
  rw [List.nil_append] at h₁
  have hle : (fates s.results).length ≤ gone.length := by
    rw [h₂, hf, List.length_append]
    omega
  refine ⟨?_, by rw [h₁, List.length_append]; omega⟩
  rw [h₁, keep_append_left _ hle]
  -- split off the call of the consumer that has not returned yet
  have hsplit := List.take_append_drop (fates s.results).length gone
  have htake : (gone.take (fates s.results).length).length = (fates s.results).length := by
    simp [hle]
  rw [hr, hf, ← hsplit, keep_append _ _ htake] at h₃
  rw [← hsplit, keep_append_left _ htake.ge]
  have hdrop : (gone.drop (fates s.results).length).length = (fates s.consumer.pending).length := by
    rw [List.length_drop, h₂, hf, List.length_append]
    omega
  rcases s.consumer.pending_cases with hp | ⟨x, hp⟩ | ⟨n, hp⟩
  · rw [hp] at h₃ hdrop
    rw [List.eq_nil_of_length_eq_zero hdrop] at h₃
    exact (List.append_inj' h₃ rfl).1
  · rw [hp] at h₃ hdrop
    obtain ⟨y, hy⟩ := List.length_eq_one_iff.mp hdrop
    rw [hy] at h₃
    exact (List.append_inj' h₃ rfl).1
  · have hfates : fates [Event.clear (T := T) n] = List.replicate n false := by simp [fates]
    rw [hp, hfates, keep_replicate_false] at h₃
    exact (List.append_inj' h₃ rfl).1

theorem inserted_results (h : Inv N s) :
    inserted s.history = inserted s.results ++ inserted s.producer.pending := by
  have := congrArg inserted h.inserts
  rwa [inserted_append, inserted_filter _ _ fun _ => rfl, inserted_filter _ _ fun _ => rfl] at this

theorem slots_ne (h : Inv N s) (hp : s.producer.between = true) (hc : s.consumer.between = true) :
    s.queue.next_write_index_ ≠ s.queue.next_read_index_ := by
  obtain ⟨-, hk, -, -⟩ := h
  rcases s with ⟨q, p, c, hist, res, k⟩
  have hlt : (replay [] hist).length < N ∧ p.ahead = 0 := by
    cases p with
    | swap input => exact ⟨hk.producer, rfl⟩
    | add full input => exact ⟨hk.producer.1, rfl⟩
    | idle => cases hp
    | load input => cases hp
    | index full input old => cases hp
  have hpos : 0 < (replay [] hist).length ∧ c.ahead = 0 := by
    cases c with
    | swap output => exact ⟨List.length_pos_iff.mpr hk.consumer, rfl⟩
    | sub output =>
      obtain ⟨l, hl⟩ := List.head?_eq_some_iff.mp hk.consumer
      exact ⟨by simp only at hl; simp [hl], rfl⟩
    | idle => cases hc
    | load output => cases hc
    | index output => cases hc
    | exchange => cases hc
    | skip n => cases hc
  have hw := hk.write
  have hr := hk.read
  simp only [hlt.2, hpos.2, Nat.sub_zero] at hw hr
  simp only [hw, hr]
  exact (Ring.mod_ne_of_lt (by omega) (by omega)).symm

/-- **`SwapQueue` under every interleaving.** What the atomic accesses decided is a history of the
sequential queue, whose length is the counter; it is what the calls returned, up to the two calls in
progress, and each call has its answer, in order. So the removed values are the inserted ones
without those that were dropped, in order; the counter and the indices keep their bounds, and no
`RTC_DCHECK` fails while the callers hand over verified items; the parties never use one slot at
the same time; and what `SizeAtLeast` returned can be removed. -/
theorem exec_linear (hN₀ : 1 ≤ N) (hN : N < 2 ^ 63) (verifier : T → Bool) (prototype : T)
    (acts : List (Act T)) (s : State T)
    (h : Run.exec (step verifier) (init verifier N prototype) acts = some s) :
    (Legal N [] s.history ∧ s.queue.num_elements_ = (replay [] s.history).length ∧
      s.history.filter producerEvent =
        s.results.filter producerEvent ++ s.producer.pending ∧
      s.history.filter (!producerEvent ·) =
        s.results.filter (!producerEvent ·) ++ s.consumer.pending ∧
      Answered acts s) ∧
    (removed s.results = keep (inserted s.history) (fates s.results) ∧
      (fates s.results).length ≤ (inserted s.history).length ∧
      inserted s.history = inserted s.results ++ inserted s.producer.pending) ∧
    (s.queue.num_elements_ ≤ N ∧ s.queue.next_write_index_ < N ∧ s.queue.next_read_index_ < N ∧
      (verifier prototype = true → (∀ a ∈ acts, a.Verified verifier) → s.checks = true)) ∧
    (s.producer.between = true → s.consumer.between = true →
      s.queue.next_write_index_ ≠ s.queue.next_read_index_) ∧
    (∀ l₁ l₂ l₃ k, s.results = l₁ ++ .size k :: (l₂ ++ .empty :: l₃) → (∀ n, .clear n ∉ l₂) →
      k ≤ (removed l₂).length) := by
  have hinv : Inv N s := Run.invariant (Inv N) (fun _ a _ hi hs => inv_step hN hN₀ a hi hs)
    (init_inv verifier N prototype) h
  have hanswered : Answered acts s := Run.invariant_history Answered
    (fun _ _ _ _ ha hs => answered_step ha hs) (init_answered verifier N prototype) h
  have hk := hinv.linked
  refine ⟨⟨hinv.legal, hk.num, hinv.inserts, hinv.removes, hanswered⟩, ?_,
    ⟨?_, ?_, ?_, fun hproto hacts => ?_⟩, slots_ne hinv, fun l₁ l₂ l₃ k hres hclear => ?_⟩
  · obtain ⟨h₁, h₂⟩ := removed_results hinv
    exact ⟨h₁, h₂, inserted_results hinv⟩
  · rw [hk.num]; exact hk.bound
  · rw [hk.write]; exact Nat.mod_lt _ hN₀
  · rw [hk.read]; exact Nat.mod_lt _ hN₀
  · have hall : (init verifier N prototype).checks = true := by
      simp [init, new, verifyQueueSlots, hproto]
    have hboth : Inv N s ∧ s.checks = true :=
      Run.invariant_along (fun s => Inv N s ∧ s.checks = true)
        (fun _ a _ hi (hv : a.Verified verifier) hs =>
          ⟨inv_step hN hN₀ a hi.1 hs, checks_step hN hN₀ a hv hi.1 hi.2 hs⟩)
        ⟨init_inv verifier N prototype, hall⟩ h (Run.along_of_forall hacts)
    exact hboth.2
  · have hf : s.history.filter (!producerEvent ·) = l₁.filter (!producerEvent ·) ++ .size k ::
        (l₂.filter (!producerEvent ·) ++ .empty ::
          (l₃.filter (!producerEvent ·) ++ s.consumer.pending)) := by
      rw [hinv.removes, hres]
      simp [List.filter_append, producerEvent]
    have := legal_promise_filter hinv.legal hf (fun _ => rfl) (fun _ => rfl)
      fun n hn => hclear n (List.mem_of_mem_filter hn)
    rwa [removed_filter _ _ fun _ => rfl] at this

/-- One slot: a `Remove` and a second `Insert`, each of which overtakes the other once. -/
def sample : List (Act ℕ) :=
  [.insert 5, .producer, .producer, .producer, .remove 7, .producer, .consumer, .consumer,
    .consumer, .insert 6, .producer, .consumer, .producer, .sizeAtLeast]

theorem exec_linear_sample : ∃ s : State ℕ,
    Run.exec (step fun _ => true) (init (fun _ => true) 1 0) sample = some s ∧
    Legal 1 [] s.history ∧ removed s.results = keep (inserted s.history) (fates s.results) ∧
    s.checks = true := by
  have h := fun s hs => exec_linear (N := 1) (by decide) (by decide) (fun _ => true) 0 sample s hs
  have hv : ∀ a ∈ sample, a.Verified fun _ => true := by
    intro a _
    cases a <;> trivial
  obtain ⟨⟨hlegal, -⟩, ⟨hremoved, -⟩, ⟨-, -, -, hchecks⟩, -⟩ := h _ rfl
  exact ⟨_, rfl, hlegal, hremoved, hchecks rfl hv⟩

end SwapQueue

end RtcBase
