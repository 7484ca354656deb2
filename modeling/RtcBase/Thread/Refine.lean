import RtcBase.Lib.TimerQueue
import RtcBase.Thread.Model

/-!
# The message queue refines a queue with delayed messages

The three stores of `Thread` stand for the stores of `TimerQueue.Queue`. The array behind
`delayed_messages_` may be in any order that is a heap.

* `Refines`: the relation of the stores;
* `lt_eq_after`: the order of the priority queue is that of the bag, turned round;
* `triggerDelayed_spec`, `compactLoop_eq`: the two loops over `delayed_messages_`;
* `checkPosted_eq`: the inner loop of `Get`;
* **`refines_post`**, **`refines_doDelayPost`**, **`refines_clearInternal`**, **`refines_get`**,
  **`refines_peek`**: one lemma for each call.
-/

namespace RtcBase

open Word Heap TimerQueue

variable {Handler Data : Type}

/-- A delayed message as it lies in the bag. -/
def DelayedMessage.numbered (d : DelayedMessage Handler Data) : Delayed (Message Handler Data) :=
  ⟨d.run_time_ms_, d.message_number_.toNat, d.msg_⟩

/-- **The order of the priority queue.** -/
theorem lt_eq_after : @DelayedMessage.lt Handler Data = after fun d => key d.numbered := by
  funext a b
  simp only [DelayedMessage.lt, after, key, DelayedMessage.numbered, Prod.Lex.toLex_lt_toLex,
    UInt32.lt_iff_toNat_lt]

theorem not_lt_iff {a b : DelayedMessage Handler Data} :
    ¬ a.lt b ↔ key a.numbered ≤ key b.numbered := by
  rw [lt_eq_after]
  exact not_lt

namespace Thread

/-- Heap functions that keep the array in order. -/
def sortedHeap : StdHeap (@DelayedMessage.lt Handler Data) :=
  (StdHeap.ofKey fun d => key d.numbered).congr lt_eq_after.symm

theorem heap_head {top : DelayedMessage Handler Data} {rest : List (DelayedMessage Handler Data)}
    (h : IsHeap DelayedMessage.lt (top :: rest)) :
    ∀ d ∈ rest, key top.numbered ≤ key d.numbered := by
  intro d hd
  refine not_lt_iff.mp (isHeap_head ?_ ?_ h d hd)
  · exact fun a => not_lt_iff.mpr (le_refl _)
  · intro a b d hab hbd
    exact not_lt_iff.mpr ((not_lt_iff.mp hab).trans (not_lt_iff.mp hbd))

/-- The stores of the thread and those of the queue. -/
structure Refines (s : Thread Handler Data) (q : Queue (Message Handler Data)) : Prop where
  running : s.stop_ = false
  peek : q.peek.map Item.msg = if s.fPeekKeep_ then some s.msgPeek_ else none
  ready : q.ready.map Item.msg = s.messages_
  delayed : (s.delayed_messages_.map DelayedMessage.numbered).Perm q.delayed
  heap : IsHeap DelayedMessage.lt s.delayed_messages_
  numbers : Numbered q
  next : s.delayed_next_num_.toNat = q.accepted

variable {s : Thread Handler Data} {q : Queue (Message Handler Data)}
  (heap : StdHeap (@DelayedMessage.lt Handler Data))

theorem refines_new : Refines (new : Thread Handler Data) {} where
  running := rfl
  peek := rfl
  ready := rfl
  delayed := List.Perm.refl _
  heap := isHeap_nil
  numbers := ⟨List.nodup_nil, fun _ h => absurd h List.not_mem_nil⟩
  next := rfl

/-! ## Posting -/

theorem refines_post (h : Refines s q) (msg : Message Handler Data) :
    Refines (s.post msg) (q.call Message.isDispose (.post msg)).2 := by
  have hrun := h.running
  simp only [post, push, hrun, Bool.false_eq_true, if_false, Queue.call]
  exact { h with
    running := rfl
    ready := by
      rw [List.map_append, h.ready]
      rfl
    numbers := ⟨h.numbers.nodup, h.numbers.lt⟩ }

theorem refines_doDelayPost (h : Refines s q) (hnum : q.accepted + 1 < 2 ^ 32)
    (delay_ms run_at_ms : ℤ) (msg : Message Handler Data) :
    Refines (s.doDelayPost heap delay_ms run_at_ms msg)
      (q.call Message.isDispose (.delay run_at_ms msg)).2 := by
  have hnext : (s.delayed_next_num_ + 1).toNat = q.accepted + 1 := by
    rw [UInt32.toNat_add, h.next]
    exact Nat.mod_eq_of_lt hnum
  simp only [doDelayPost, pushDelayed, h.running, Bool.false_eq_true, if_false, Queue.call]
  exact { h with
    running := rfl
    delayed := by
      refine ((heap.pushHeap_perm _ _ h.heap).map _).trans ?_
      rw [List.map_append, List.map_cons, List.map_nil, DelayedMessage.numbered, h.next]
      exact h.delayed.append_right _
    heap := heap.pushHeap_isHeap _ _ h.heap
    numbers := h.numbers.call Message.isDispose (.delay run_at_ms msg)
    next := hnext }

/-- While the numbers fit, the `RTC_DCHECK` of `DoDelayPost` holds. -/
theorem doDelayPostCheck_of_refines (h : Refines s q) (hnum : q.accepted + 1 < 2 ^ 32) :
    s.doDelayPostCheck = true := by
  rw [doDelayPostCheck, h.running, Bool.false_or, decide_eq_true_iff]
  intro hzero
  have hnext := congrArg UInt32.toNat hzero
  rw [UInt32.toNat_add, h.next] at hnext
  have := (Nat.mod_eq_of_lt hnum).symm.trans hnext
  exact absurd this (Nat.succ_ne_zero _)

/-! ## Clearing -/

theorem compactLoop_eq (drop : DelayedMessage Handler Data → Bool) (n : ℕ)
    (arr : List (DelayedMessage Handler Data)) (it new_end : ℕ) (hle : new_end ≤ it)
    (hlen : arr.length ≤ it + n) :
    (compactLoop drop n arr it new_end).1.take (compactLoop drop n arr it new_end).2 =
      arr.take new_end ++ (arr.drop it).filter (!drop ·) := by
  induction n generalizing arr it new_end with
  | zero =>
    rw [List.drop_of_length_le (by omega)]
    simp [compactLoop]
  | succ n ih =>
    rw [compactLoop]
    cases hit : arr[it]? with
    | none =>
      have hend : arr.length ≤ it := List.getElem?_eq_none_iff.mp hit
      simp [List.drop_of_length_le hend]
    | some d =>
      obtain ⟨hlt, rfl⟩ := List.getElem?_eq_some_iff.mp hit
      rw [List.drop_eq_getElem_cons hlt]
      cases hd : drop arr[it] with
      | true =>
        rw [List.filter_cons_of_neg (by simp [hd])]
        simpa [hd] using ih arr (it + 1) new_end (by omega) (by omega)
      | false =>
        rw [List.filter_cons_of_pos (by simp [hd])]
        have := ih (arr.set new_end arr[it]) (it + 1) (new_end + 1) (by omega)
          (by rw [List.length_set]; omega)
        rw [List.drop_set_of_lt (by omega), List.take_add_one, List.take_set_of_le (le_refl _),
          List.getElem?_set_self (by omega)] at this
        simpa [hd] using this

section Clear

variable [DecidableEq Handler]

theorem refines_clearInternal (h : Refines s q) (phandler : Option Handler) (id : UInt32) :
    Refines (s.clearInternal heap phandler id).1
      (q.call Message.isDispose (.clear (·.matches phandler id))).2 := by
  have hkept : ∀ p : Message Handler Data → Bool,
      ((s.delayed_messages_.filter (p ·.msg_)).map DelayedMessage.numbered).Perm
        (q.delayed.filter (p ·.msg)) := by
    intro p
    have := h.delayed.filter (p ·.msg)
    rwa [List.filter_map] at this
  have hloop := compactLoop_eq (fun d => d.msg_.matches phandler id)
    s.delayed_messages_.length s.delayed_messages_ 0 0 (le_refl 0) (by omega)
  simp only [clearInternal, Queue.call, Queue.clear]
  rw [hloop, List.take_zero, List.nil_append, List.drop_zero]
  exact { h with
    peek := by
      have hpeek := h.peek
      cases hq : q.peek with
      | none =>
        rw [hq] at hpeek
        cases hk : s.fPeekKeep_ with
        | false => simp
        | true => simp [hk] at hpeek
      | some i =>
        rw [hq] at hpeek
        cases hk : s.fPeekKeep_ with
        | false => simp [hk] at hpeek
        | true =>
          have hi : i.msg = s.msgPeek_ := by simpa [hk] using hpeek
          cases hm : i.msg.matches phandler id <;> simp [Option.filter_some, hm, ← hi]
    ready := by
      rw [← h.ready, List.filter_map]
      rfl
    delayed := ((heap.makeHeap_perm _).map _).trans (hkept (!·.matches phandler id))
    heap := heap.makeHeap_isHeap _
    numbers := h.numbers.call Message.isDispose (.clear (·.matches phandler id)) }

end Clear

/-! ## Taking -/

/-- **The loop over the triggered messages.** Those that are due are moved in the order in which
they leave the bag. -/
theorem triggerDelayed_spec (t : ℤ) (n : ℕ)
    (s : Thread Handler Data) (hheap : IsHeap DelayedMessage.lt s.delayed_messages_)
    (hn : s.delayed_messages_.length ≤ n) :
    ∃ due rest, (triggerDelayed heap t n s).2 = { s with
        messages_ := s.messages_ ++ due.map DelayedMessage.msg_, delayed_messages_ := rest } ∧
      (due ++ rest).Perm s.delayed_messages_ ∧ IsHeap DelayedMessage.lt rest ∧
      (due.Pairwise fun a b => key a.numbered ≤ key b.numbered) ∧
      (∀ d ∈ due, d.run_time_ms_ ≤ t) ∧ ∀ d ∈ rest, t < d.run_time_ms_ := by
  have hnone (s : Thread Handler Data) : s = { s with
      messages_ := s.messages_ ++ ([] : List (DelayedMessage Handler Data)).map DelayedMessage.msg_
      delayed_messages_ := s.delayed_messages_ } := by
    rw [List.map_nil, List.append_nil]
  induction n generalizing s with
  | zero =>
    have hnil : s.delayed_messages_ = [] := List.eq_nil_of_length_eq_zero (by omega)
    refine ⟨[], s.delayed_messages_, hnone s, by simp, hheap, List.Pairwise.nil, by simp, ?_⟩
    simp [hnil]
  | succ n ih =>
    cases hd : s.delayed_messages_ with
    | nil =>
      refine ⟨[], s.delayed_messages_, ?_, by simp [hd], hheap, List.Pairwise.nil, by simp, ?_⟩
      · simp only [triggerDelayed, hd]
        exact hd ▸ hnone s
      · simp [hd]
    | cons top rest =>
      rw [hd] at hheap hn
      have hhead := heap_head hheap
      simp only [triggerDelayed, hd]
      by_cases hlt : t < top.run_time_ms_
      · -- the top runs first, so nothing is due
        refine ⟨[], top :: rest, ?_, by simp, hheap, List.Pairwise.nil, by simp, ?_⟩
        · rw [if_pos hlt]
          exact hd ▸ hnone s
        · intro d hmem
          rcases List.mem_cons.mp hmem with rfl | hmem
          · exact hlt
          · have := (Prod.Lex.toLex_le_toLex.mp (hhead d hmem))
            simp only [DelayedMessage.numbered] at this
            omega
      · obtain ⟨popped, hpop, hperm, hheap'⟩ := heap.popHeap_spec top rest hheap
        have hlast : (heap.popHeap (top :: rest)).dropLast = popped := by
          rw [hpop, List.dropLast_concat]
        rw [if_neg hlt, hlast]
        obtain ⟨due, rest', hs, hperm', hheap'', hsorted, hdue, hrest⟩ :=
          ih { s with messages_ := s.messages_ ++ [top.msg_], delayed_messages_ := popped } hheap'
            (by have := hperm.length_eq; simp only [List.length_cons] at hn; simp only; omega)
        have hmem : ∀ d ∈ due, d ∈ rest := fun d hd =>
          hperm.mem_iff.mp (hperm'.mem_iff.mp (List.mem_append_left _ hd))
        refine ⟨top :: due, rest', ?_, ?_, hheap'', ?_, ?_, hrest⟩
        · rw [hs]
          simp
        · exact ((hperm'.trans hperm).cons top)
        · exact List.pairwise_cons.mpr ⟨fun d hd => hhead d (hmem d hd), hsorted⟩
        · intro d hmem'
          rcases List.mem_cons.mp hmem' with rfl | hmem'
          · omega
          · exact hdue d hmem'

theorem refines_triggerDelayed (h : Refines s q) (t : ℤ) :
    Refines (triggerDelayed heap t s.delayed_messages_.length s).2 (q.advance t) := by
  obtain ⟨due, rest, hs, hperm, hheap, hsorted, hdue, hrest⟩ :=
    triggerDelayed_spec heap t s.delayed_messages_.length s h.heap (le_refl _)
  have hall : (due.map DelayedMessage.numbered ++ rest.map DelayedMessage.numbered).Perm
      q.delayed := by
    rw [← List.map_append]
    exact (hperm.map _).trans h.delayed
  have hdue' : ∀ d ∈ due.map DelayedMessage.numbered, isDue t d = true := by
    intro d hd
    obtain ⟨d', hd', rfl⟩ := List.mem_map.mp hd
    exact decide_eq_true (hdue d' hd')
  have hrest' : ∀ d ∈ rest.map DelayedMessage.numbered, ¬ isDue t d = true := by
    intro d hd
    obtain ⟨d', hd', rfl⟩ := List.mem_map.mp hd
    exact fun h => absurd (of_decide_eq_true h) (not_le.mpr (hrest d' hd'))
  have hleft : (due.map DelayedMessage.numbered).Perm (q.delayed.filter (isDue t)) := by
    have := hall.filter (isDue t)
    rwa [List.filter_append, List.filter_eq_self.mpr hdue', List.filter_eq_nil_iff.mpr hrest',
      List.append_nil] at this
  have hright : (rest.map DelayedMessage.numbered).Perm (q.delayed.filter (!isDue t ·)) := by
    have := hall.filter (!isDue t ·)
    rwa [List.filter_append, List.filter_eq_nil_iff.mpr (by simpa using hdue'), List.nil_append,
      List.filter_eq_self.mpr (by simpa using hrest')] at this
  -- no two messages have one number, so there is only one order
  have hsort : due.map DelayedMessage.numbered = sort key (q.delayed.filter (isDue t)) := by
    refine eq_sort key ?_ hleft (List.pairwise_map.mpr hsorted)
    intro a ha b hb
    exact h.numbers.key_inj a (List.mem_filter.mp ha).1 b (List.mem_filter.mp hb).1
  rw [hs]
  exact { h with
    ready := by
      rw [Queue.advance, List.map_append, ← hsort, h.ready, List.map_map, List.map_map]
      rfl
    delayed := hright
    heap := hheap
    numbers := h.numbers.of_sublist List.filter_sublist rfl }

/-- The later passes take the first ready message that is not a `MQID_DISPOSE`. -/
theorem passes_ready (t : ℤ) (n : ℕ) (cms : ℤ) (s : Thread Handler Data)
    (hn : s.messages_.length < n) : passes heap t n false cms s =
      ((s.messages_.dropWhile Message.isDispose).head?, cms,
        { s with messages_ := (s.messages_.dropWhile Message.isDispose).tail }) := by
  induction n generalizing s with
  | zero => omega
  | succ n ih =>
    cases hm : s.messages_ with
    | nil =>
      simp only [passes, getLocked, Bool.false_eq_true, if_false, hm, List.dropWhile_nil,
        List.head?_nil, List.tail_nil]
      rw [← hm]
    | cons m ms =>
      rw [hm, List.length_cons] at hn
      cases hd : m.isDispose with
      | true =>
        have := ih { s with messages_ := ms } (by simp only; omega)
        simpa [passes, getLocked, hm, hd] using this
      | false => simp [passes, getLocked, hm, hd]

/-- The first pass is a later one after the triggered messages have become ready. -/
theorem passes_first (t : ℤ) (n : ℕ) (cms : ℤ) (s : Thread Handler Data) :
    passes heap t (n + 1) true cms s =
      passes heap t (n + 1) false (triggerDelayed heap t s.delayed_messages_.length s).1
        (triggerDelayed heap t s.delayed_messages_.length s).2 := rfl

/-- The loop takes the first message that is ready when the triggered ones are. -/
theorem checkPosted_eq (s : Thread Handler Data) (t : ℤ)
    (hheap : IsHeap DelayedMessage.lt s.delayed_messages_) :
    let r := triggerDelayed heap t s.delayed_messages_.length s
    checkPosted heap s t = ((r.2.messages_.dropWhile Message.isDispose).head?, r.1,
      { r.2 with messages_ := (r.2.messages_.dropWhile Message.isDispose).tail }) := by
  obtain ⟨due, rest, hs, hperm, -⟩ :=
    triggerDelayed_spec heap t s.delayed_messages_.length s hheap (le_refl _)
  have hlen := hperm.length_eq
  rw [List.length_append] at hlen
  intro r
  rw [checkPosted, passes_first]
  refine passes_ready heap t _ _ _ ?_
  rw [hs, List.length_append, List.length_map]
  omega

theorem refines_checkPosted (h : Refines s q) (t : ℤ) :
    (checkPosted heap s t).1 = ((q.advance t).take Message.isDispose).1.map Item.msg ∧
      Refines (checkPosted heap s t).2.2 ((q.advance t).take Message.isDispose).2 := by
  have hadv := refines_triggerDelayed heap h t
  have hready : ∀ l : List (Item (Message Handler Data)),
      (l.map Item.msg).dropWhile Message.isDispose =
        (l.dropWhile (·.msg.isDispose)).map Item.msg := fun l => List.dropWhile_map
  simp only [checkPosted_eq heap s t h.heap, ← hadv.ready, hready, List.head?_map,
    ← List.map_tail]
  exact ⟨rfl, { hadv with ready := rfl, numbers := ⟨hadv.numbers.nodup, hadv.numbers.lt⟩ }⟩

/-- What a call that does not wait came to, from what the queue answered. -/
def Taken.ofAnswer : Option (Item (Message Handler Data)) → Taken Handler Data
  | some i => .message i.msg
  | none => .nothing

/-- The time between two readings of the clock fits its type. -/
def Elapses (start after : ℤ) : Prop := start ≤ after ∧ after - start ≤ int64Max

theorem refines_getLoop (h : Refines s q) {start after : ℤ} (ht : Elapses start after)
    (waited : Bool) :
    (getLoop heap 0 start start [(waited, after)] s).2.1 =
        Taken.ofAnswer ((q.advance start).take Message.isDispose).1 ∧
      Refines (getLoop heap 0 start start [(waited, after)] s).2.2
        ((q.advance start).take Message.isDispose).2 := by
  have helapsed : 0 ≤ timeDiff after start := by
    rw [timeDiff, toInt64_of_mem (by have := ht.1; omega) ht.2]
    exact sub_nonneg.mpr ht.1
  obtain ⟨hmsg, hs⟩ := refines_checkPosted heap h start
  rcases hcheck : checkPosted heap s start with ⟨msg, cmsDelayNext, s'⟩
  rw [hcheck] at hmsg hs
  simp only at hmsg hs
  cases htaken : ((q.advance start).take Message.isDispose).1 with
  | some i =>
    obtain rfl : msg = some i.msg := by rw [hmsg, htaken]; rfl
    simp only [getLoop, hcheck]
    exact ⟨rfl, hs⟩
  | none =>
    obtain rfl : msg = none := by rw [hmsg, htaken]; rfl
    simp only [getLoop, hcheck, hs.running, Bool.false_eq_true, if_false]
    cases waited with
    | false => exact ⟨rfl, hs⟩
    | true =>
      have : (0 : ℤ) ≠ kForever ∧ 0 ≤ timeDiff after start := ⟨by decide, helapsed⟩
      simp only [Bool.not_true, Bool.false_eq_true, if_false, if_pos this]
      exact ⟨rfl, hs⟩

theorem Refines.peekKeep_of_some (h : Refines s q) {i : Item (Message Handler Data)}
    (hq : q.peek = some i) : s.fPeekKeep_ = true ∧ s.msgPeek_ = i.msg := by
  have hpeek := h.peek
  rw [hq, Option.map_some] at hpeek
  split_ifs at hpeek with hk
  exact ⟨hk, (Option.some.inj hpeek).symm⟩

theorem Refines.peekKeep_of_none (h : Refines s q) (hq : q.peek = none) : s.fPeekKeep_ = false := by
  have hpeek := h.peek
  rw [hq, Option.map_none] at hpeek
  split_ifs at hpeek with hk
  exact Bool.eq_false_iff.mpr hk

/-- **`Get` without waiting.** -/
theorem refines_get (h : Refines s q) {start after : ℤ} (ht : Elapses start after)
    (waited : Bool) :
    (s.get heap 0 start [(waited, after)]).2.1 =
        Taken.ofAnswer (q.call Message.isDispose (.get start)).1 ∧
      Refines (s.get heap 0 start [(waited, after)]).2.2
        (q.call Message.isDispose (.get start)).2 := by
  cases hq : q.peek with
  | some i =>
    obtain ⟨hk, hm⟩ := h.peekKeep_of_some hq
    simp only [get, hk, if_true, Queue.call, hq]
    exact ⟨congrArg Taken.message hm,
      { h with peek := rfl, numbers := ⟨h.numbers.nodup, h.numbers.lt⟩ }⟩
  | none =>
    simp only [get, h.peekKeep_of_none hq, Bool.false_eq_true, if_false, Queue.call, hq]
    exact refines_getLoop heap h ht waited

/-- **`Peek` without waiting.** -/
theorem refines_peek (h : Refines s q) {start after : ℤ} (ht : Elapses start after)
    (waited : Bool) :
    (s.peek heap 0 start [(waited, after)]).2.1 =
        Taken.ofAnswer (q.call Message.isDispose (.peek start)).1 ∧
      Refines (s.peek heap 0 start [(waited, after)]).2.2
        (q.call Message.isDispose (.peek start)).2 := by
  cases hq : q.peek with
  | some i =>
    obtain ⟨hk, hm⟩ := h.peekKeep_of_some hq
    simp only [Thread.peek, hk, if_true, Queue.call, hq]
    exact ⟨congrArg Taken.message hm, h⟩
  | none =>
    obtain ⟨hans, hs⟩ := refines_getLoop heap h ht waited
    have hk := h.peekKeep_of_none hq
    simp only [Thread.peek, get, hk, Bool.false_eq_true, if_false, Queue.call, hq]
    rcases hloop : getLoop heap 0 start start [(waited, after)] s with ⟨asks, taken, s'⟩
    rw [hloop] at hans hs
    simp only at hans hs
    cases htaken : ((q.advance start).take Message.isDispose).1 with
    | some i =>
      rw [htaken, Taken.ofAnswer] at hans
      subst hans
      exact ⟨rfl, { hs with peek := rfl, numbers := ⟨hs.numbers.nodup, hs.numbers.lt⟩ }⟩
    | none =>
      rw [htaken, Taken.ofAnswer] at hans
      subst hans
      refine ⟨rfl, { hs with peek := ?_, numbers := ⟨hs.numbers.nodup, hs.numbers.lt⟩ }⟩
      rw [← hs.peek, Queue.take_peek]
      exact congrArg _ hq.symm

end Thread

end RtcBase
