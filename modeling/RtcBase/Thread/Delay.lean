import RtcBase.Thread.Ownership
import RtcBase.Thread.Refine

/-!
# `GetDelay` and `Get`

* `get_message_iff`: when `Get(0)` returns a message;
* `Agrees`: `GetDelay` tells what `Get(0)` would do;
* `DelayFits`: what is kept and delayed is of a kind that `GetDelay` tells right;
* **`getDelay_agrees_iff`**: the two are the same in every state of a queue.
-/

namespace RtcBase

open Word Heap Run

namespace Thread

variable {Handler Data : Type} {t : Thread Handler Data} (now : ℤ)

theorem run_time_le_of_heap {top : DelayedMessage Handler Data}
    {rest : List (DelayedMessage Handler Data)} (h : IsHeap DelayedMessage.lt (top :: rest)) :
    ∀ d ∈ top :: rest, top.run_time_ms_ ≤ d.run_time_ms_ := by
  intro d hd
  rcases List.mem_cons.mp hd with rfl | hd
  · exact le_rfl
  · have hkey := Prod.Lex.toLex_le_toLex.mp (heap_head h d hd)
    simp only [DelayedMessage.numbered] at hkey
    omega

/-! ## `Get(0)` -/

theorem dropWhile_isDispose {l : List (Message Handler Data)}
    (h : ∀ m ∈ l, m.isDispose = false) : l.dropWhile Message.isDispose = l := by
  cases l with
  | nil => rfl
  | cons m l => exact List.dropWhile_cons_of_neg (by simp [h m List.mem_cons_self])

variable (heap : StdHeap (@DelayedMessage.lt Handler Data))

/-- Without `MQID_DISPOSE` messages the inner loop finds a message if one is ready or due. -/
theorem checkPosted_none_iff (hheap : IsHeap DelayedMessage.lt t.delayed_messages_)
    (hdispose : ∀ m ∈ t.stores, m.isDispose = false) :
    (t.checkPosted heap now).1 = none ↔
      t.messages_ = [] ∧ ∀ d ∈ t.delayed_messages_, now < d.run_time_ms_ := by
  obtain ⟨due, rest, hs, hperm, -, -, hdue, hrest⟩ :=
    triggerDelayed_spec heap now t.delayed_messages_.length t hheap le_rfl
  have hready : ∀ m ∈ t.messages_ ++ due.map DelayedMessage.msg_, m.isDispose = false := by
    intro m hm
    refine hdispose m (mem_stores.mpr ?_)
    rcases List.mem_append.mp hm with hm | hm
    · exact .inr (.inl hm)
    · obtain ⟨d, hd, rfl⟩ := List.mem_map.mp hm
      exact .inr (.inr ⟨d, hperm.mem_iff.mp (List.mem_append_left _ hd), rfl⟩)
  rw [checkPosted_eq heap t now hheap]
  simp only [hs]
  rw [dropWhile_isDispose hready, List.head?_eq_none_iff, List.append_eq_nil_iff,
    List.map_eq_nil_iff]
  refine and_congr_right fun _ => ⟨?_, fun hlater => List.eq_nil_iff_forall_not_mem.mpr ?_⟩
  · rintro rfl d hd
    exact hrest d (hperm.mem_iff.mpr hd)
  · intro d hd
    have := hlater d (hperm.mem_iff.mp (List.mem_append_left _ hd))
    have := hdue d hd
    omega

/-- **`Get(0)`** returns a message if one is kept, ready or due. -/
theorem get_message_iff (hheap : IsHeap DelayedMessage.lt t.delayed_messages_)
    (hdispose : ∀ m ∈ t.stores, m.isDispose = false) {waits : List (Bool × ℤ)}
    (hwaits : ∀ w ∈ waits, Elapses now w.2) :
    (∃ msg, (t.get heap 0 now waits).2.1 = .message msg) ↔
      t.fPeekKeep_ = true ∨ t.messages_ ≠ [] ∨ ∃ d ∈ t.delayed_messages_, d.run_time_ms_ ≤ now := by
  rw [get]
  by_cases hkeep : t.fPeekKeep_ = true
  · rw [if_pos hkeep]
    exact iff_of_true ⟨_, rfl⟩ (.inl hkeep)
  have hnone := checkPosted_none_iff now heap hheap hdispose
  rw [if_neg hkeep, or_iff_right hkeep, ← not_iff_not, not_or, not_not, not_exists]
  simp only [not_exists, not_and, not_le]
  rw [← hnone, getLoop]
  rcases t.checkPosted heap now with ⟨_ | msg, cms, t'⟩
  · -- the wait is over when it returns
    refine iff_of_true (fun msg h => ?_) rfl
    simp only at h
    split_ifs at h
    cases waits with
    | nil => cases h
    | cons w waits =>
      obtain ⟨hle, hmax⟩ := hwaits w List.mem_cons_self
      have hover : (0 : ℤ) ≠ kForever ∧ 0 ≤ timeDiff w.2 now := by
        refine ⟨by decide, ?_⟩
        rw [timeDiff, toInt64_of_mem (by omega) hmax]
        omega
      obtain ⟨waited, after⟩ := w
      simp only [hover, ne_eq, not_false_eq_true, and_self, if_true] at h
      split_ifs at h
  · exact iff_of_false (fun h => h msg rfl) (by simp)

/-! ## `GetDelay` -/

/-- `GetDelay` is 0 if `Get(0)` would return a message, `kForever` if the queue is empty, and
otherwise the time until the first delayed message is to run. -/
structure Agrees (t : Thread Handler Data) (now : ℤ) (waits : List (Bool × ℤ)) : Prop where
  zero : t.getDelay now = 0 ↔ ∃ msg, (t.get heap 0 now waits).2.1 = .message msg
  forever : t.getDelay now = kForever ↔ t.size = 0
  other : t.getDelay now ≠ 0 → t.getDelay now ≠ kForever → ∃ d ∈ t.delayed_messages_,
    (∀ d' ∈ t.delayed_messages_, d.run_time_ms_ ≤ d'.run_time_ms_) ∧
      t.getDelay now = d.run_time_ms_ - now

/-- A message is ready, or no message is kept and the first delayed one is not due and within an
`int`, or some message can be taken and the distance to the first delayed one is narrowed to zero
or less. -/
def DelayFits (t : Thread Handler Data) (now : ℤ) : Prop :=
  t.messages_ ≠ [] ∨
    match t.delayed_messages_ with
    | [] => t.fPeekKeep_ = false
    | top :: _ =>
      if t.fPeekKeep_ = true ∨ top.run_time_ms_ ≤ now then
        (top.run_time_ms_ - now) % 2 ^ 32 = 0 ∨ 2 ^ 31 ≤ (top.run_time_ms_ - now) % 2 ^ 32
      else top.run_time_ms_ - now ≤ intMax

theorem getDelay_ready (h : t.messages_ ≠ []) : t.getDelay now = 0 := by
  obtain ⟨m, ms, hm⟩ := List.exists_cons_of_ne_nil h
  simp only [getDelay, hm]

theorem getDelay_empty (hm : t.messages_ = []) (hd : t.delayed_messages_ = []) :
    t.getDelay now = kForever := by
  simp only [getDelay, hm, hd]

theorem getDelay_delayed (hm : t.messages_ = []) {top : DelayedMessage Handler Data}
    {rest : List (DelayedMessage Handler Data)} (hd : t.delayed_messages_ = top :: rest) :
    t.getDelay now = max 0 (toInt32 (top.run_time_ms_ - now)) := by
  simp only [getDelay, hm, hd, timeUntil, toInt32_toInt64]
  split_ifs <;> omega

theorem size_eq_zero_iff : t.size = 0 ↔
    t.fPeekKeep_ = false ∧ t.messages_ = [] ∧ t.delayed_messages_ = [] := by
  unfold size
  cases t.fPeekKeep_ <;> simp

theorem agrees_iff (hheap : IsHeap DelayedMessage.lt t.delayed_messages_)
    (hdispose : ∀ m ∈ t.stores, m.isDispose = false) {waits : List (Bool × ℤ)}
    (hwaits : ∀ w ∈ waits, Elapses now w.2) : Agrees heap t now waits ↔ t.DelayFits now := by
  have hget := get_message_iff now heap hheap hdispose hwaits
  have hforever : kForever ≠ 0 := by decide
  by_cases hm : t.messages_ = []
  · cases hd : t.delayed_messages_ with
    | nil =>
      -- nothing is delayed: only a kept message can be taken
      have hdelay := getDelay_empty now hm hd
      have hfits : t.DelayFits now ↔ t.fPeekKeep_ = false := by
        simp only [DelayFits, hm, hd, ne_eq, not_true_eq_false, false_or]
      rw [hfits]
      simp only [hm, hd, ne_eq, not_true_eq_false, List.not_mem_nil, false_and, exists_false,
        or_false] at hget
      constructor
      · intro h
        have hzero := h.zero
        rw [hdelay, hget] at hzero
        exact Bool.eq_false_iff.mpr fun hkeep => hforever (hzero.mpr hkeep)
      · intro hkeep
        refine ⟨?_, ?_, fun _ hne => absurd hdelay hne⟩
        · rw [hdelay, hget, hkeep]
          exact iff_of_false hforever Bool.false_ne_true
        · exact iff_of_true hdelay (size_eq_zero_iff.mpr ⟨hkeep, hm, hd⟩)
    | cons top rest =>
      have hdelay := getDelay_delayed now hm hd
      have hfirst := run_time_le_of_heap (hd ▸ hheap)
      have hfits : t.DelayFits now ↔ if t.fPeekKeep_ = true ∨ top.run_time_ms_ ≤ now then
          toInt32 (top.run_time_ms_ - now) ≤ 0 else top.run_time_ms_ - now ≤ intMax := by
        simp only [DelayFits, hm, hd, ne_eq, not_true_eq_false, false_or, toInt32_nonpos_iff]
      have htaken : (∃ msg, (t.get heap 0 now waits).2.1 = .message msg) ↔
          t.fPeekKeep_ = true ∨ top.run_time_ms_ ≤ now := by
        rw [hget, hd, or_iff_right (not_not.mpr hm)]
        refine or_congr_right ⟨?_, fun hle => ⟨top, List.mem_cons_self, hle⟩⟩
        rintro ⟨d, hmem, hle⟩
        exact (hfirst d hmem).trans hle
      have hsize : t.size ≠ 0 := fun h => by
        have := (size_eq_zero_iff.mp h).2.2
        simp [hd] at this
      have hne : t.getDelay now ≠ kForever := by
        rw [hdelay]
        exact ne_of_gt (lt_of_lt_of_le (by decide) (le_max_left _ _))
      rw [hfits]
      split_ifs with hc
      · -- some message can be taken
        constructor
        · intro h
          have hzero := h.zero.mpr (htaken.mpr hc)
          omega
        · intro hle
          have hzero : t.getDelay now = 0 := by omega
          exact ⟨iff_of_true hzero (htaken.mpr hc), iff_of_false hne hsize,
            fun h => absurd hzero h⟩
      · -- the first delayed message is still to come
        have hlater : 0 < top.run_time_ms_ - now := by
          have := (not_or.mp hc).2
          omega
        rw [← toInt32_eq_self_iff hlater]
        constructor
        · intro h
          have hzero : t.getDelay now ≠ 0 := fun h₀ => hc (htaken.mp (h.zero.mp h₀))
          obtain ⟨d, hmem, hmin, heq⟩ := h.other hzero hne
          have h₁ := hmin top (hd ▸ List.mem_cons_self)
          have h₂ := hfirst d (hd ▸ hmem)
          omega
        · intro heq
          have hrun : t.getDelay now = top.run_time_ms_ - now := by omega
          refine ⟨iff_of_false (by omega) (fun h => hc (htaken.mp h)), iff_of_false hne hsize,
            fun _ _ => ⟨top, hd ▸ List.mem_cons_self, ?_, hrun⟩⟩
          rw [hd]
          exact hfirst
  · -- a ready message
    have hdelay := getDelay_ready now hm
    refine iff_of_true ⟨?_, ?_, fun h => absurd hdelay h⟩ (.inl hm)
    · exact iff_of_true hdelay (hget.mpr (.inr (.inl hm)))
    · rw [hdelay]
      exact iff_of_false hforever.symm fun h => hm (size_eq_zero_iff.mp h).2.1

end Thread

namespace Ownership

variable {Handler Data : Type} [DecidableEq Handler]

/-- **`GetDelay` agrees with `Get(0)`** in exactly the states that `DelayFits` describes. -/
theorem getDelay_agrees_iff (heap : StdHeap (@DelayedMessage.lt Handler Data))
    (acts : List (Act Handler Data)) {s : State Handler Data}
    (h : exec (step heap) init acts = some s)
    (hdispose : ∀ m ∈ s.thread.stores, m.isDispose = false) (now : ℤ) (waits : List (Bool × ℤ))
    (hwaits : ∀ w ∈ waits, Thread.Elapses now w.2) :
    Thread.Agrees heap s.thread now waits ↔ s.thread.DelayFits now := by
  have hinv : Inv s := invariant Inv (fun _ a _ hs => step_inv a hs) init_inv h
  exact Thread.agrees_iff now heap hinv.heap hdispose hwaits

/-- A message posted for 100 is to come at 40. -/
theorem getDelay_agrees_sample : ∃ s, exec (step Thread.sortedHeap) init
      [.postDelayed 0 100 { phandler := some 7, pdata := some 1 }, .enter 0] =
        some (s : State ℕ ℕ) ∧
    Thread.Agrees Thread.sortedHeap s.thread 40 [] := by
  refine ⟨_, rfl, (getDelay_agrees_iff Thread.sortedHeap
    [.postDelayed 0 100 { phandler := some 7, pdata := some 1 }, .enter 0] rfl (by decide) 40 []
    (by simp)).mpr ?_⟩
  right
  change ite _ _ _
  decide

/-- `GetDelay` does not see the message that `Peek` has kept, and takes a message that is to run
`2 ^ 32` milliseconds from now for one that is due. -/
theorem getDelay_disagrees :
    (∃ s, exec (step Thread.sortedHeap) init
        [.post { phandler := some 7, pdata := some 1 }, .enter 0, .peek, .look 0, .take] =
          some (s : State ℕ ℕ) ∧
      (∀ m ∈ s.thread.stores, m.isDispose = false) ∧
      ¬ Thread.Agrees Thread.sortedHeap s.thread 0 []) ∧
    ∃ s, exec (step Thread.sortedHeap) init
        [.postAt 0 (2 ^ 32) { phandler := some 7, pdata := some 1 }, .enter 0] =
          some (s : State ℕ ℕ) ∧
      (∀ m ∈ s.thread.stores, m.isDispose = false) ∧
      ¬ Thread.Agrees Thread.sortedHeap s.thread 0 [] := by
  refine ⟨⟨_, rfl, by decide, fun h => ?_⟩, ⟨_, rfl, by decide, fun h => ?_⟩⟩
  · exact absurd (h.forever.mp rfl) (by decide)
  · obtain ⟨msg, hmsg⟩ := h.zero.mp (by decide)
    cases hmsg

end Ownership

end RtcBase
