import RtcBase.Thread.Delay

/-!
# What `Get` asks `ss_->Wait` for

The machine of `Ownership` with the clock and the variables of the call of `Get`. The clock is that
of `CLOCK_MONOTONIC`, in an `int64_t`; any number of milliseconds may go by before a step.

* `Act`, `step`: the steps, and `Ask`: what `Get` knew and asked for when it went to wait;
* `Ask.Good`: it does not ask for more than the shorter of the two waits;
* `Ask.Fits`: the wait is limited, or the distance to the first delayed message survives the
  conversion to `int`;
* `triggerDelayed_fst`: what `cmsDelayNext` is;
* **`asks_good_iff`**: an `Ask` of a run is `Good` if and only if it `Fits`.
-/

namespace RtcBase

open Word Heap Run

namespace Sleep

variable {Handler Data : Type}

/-! ## Steps -/

/-- A call of `ss_->Wait`. -/
structure Ask (Handler Data : Type) where
  cmsWait : ℤ
  msStart : ℤ
  msCurrent : ℤ
  /-- The delayed messages that the locked section of the first pass has left. -/
  delayed : List (DelayedMessage Handler Data)
  /-- The argument of `Wait`. -/
  cms : ℤ

/-- The queue with the clock, and the variables of `Get`. -/
structure State (Handler Data : Type) where
  queue : Ownership.State Handler Data
  /-- What `TimeMillis` returns. -/
  clock : ℤ
  cmsWait : ℤ
  msStart : ℤ
  msCurrent : ℤ
  cmsDelayNext : ℤ
  /-- The delayed messages that the locked section of the first pass has left. -/
  delayed : List (DelayedMessage Handler Data)
  /-- All calls of `ss_->Wait`. -/
  asks : List (Ask Handler Data)

/-- The constructor, at a time. -/
def init (clock : ℤ) : State Handler Data where
  queue := Ownership.init
  clock := clock
  cmsWait := 0
  msStart := 0
  msCurrent := 0
  cmsDelayNext := 0
  delayed := []
  asks := []

/-- Time goes by, or a thread makes a call or its next step; the clock is read where the code
does. -/
inductive Act (Handler Data : Type) where
  | tick (ms : ℕ)
  | post (msg : Message Handler Data)
  | postDelayed (delay_ms : ℤ) (msg : Message Handler Data)
  | postAt (run_at_ms : ℤ) (msg : Message Handler Data)
  | dispose (posted_from : Location) (pdata : Option Data)
  | enter (i : ℕ)
  | get (cmsWait : ℤ)
  | peek (cmsWait : ℤ)
  | look
  | take
  /-- The test of `stop_` and, if it is clear, the call of `ss_->Wait`. -/
  | isQuitting
  /-- `ss_->Wait` has returned `ok`. -/
  | waited (ok : Bool)
  | clear (phandler : Option Handler) (id : UInt32) (removed : Bool)
  | quit
  | restart
  | doDestroy

/-- An `int` that is not less than `kForever`, and an `int64_t`. -/
def Act.Typed : Act Handler Data → Prop
  | .get cmsWait | .peek cmsWait => Thread.kForever ≤ cmsWait ∧ cmsWait ≤ intMax
  | .postAt run_at_ms _ => -2 ^ 63 ≤ run_at_ms ∧ run_at_ms ≤ int64Max
  | _ => True

/-- The step of the queue, with what it reads of the clock and of the variables of `Get`. -/
def State.lower (s : State Handler Data) : Act Handler Data → Option (Ownership.Act Handler Data)
  | .tick _ => none
  | .post msg => some (.post msg)
  | .postDelayed delay_ms msg => some (.postDelayed s.clock delay_ms msg)
  | .postAt run_at_ms msg => some (.postAt s.clock run_at_ms msg)
  | .dispose posted_from pdata => some (.dispose posted_from pdata)
  | .enter i => some (.enter i)
  | .get _ => some .get
  | .peek _ => some .peek
  | .look => some (.look s.msCurrent)
  | .take => some .take
  | .isQuitting => some .isQuitting
  | .waited ok =>
    some (.waited (!ok || (s.cmsWait ≠ Thread.kForever ∧
      s.cmsWait ≤ Thread.timeDiff s.clock s.msStart)))
  | .clear phandler id removed => some (.clear phandler id removed)
  | .quit => some .quit
  | .restart => some .restart
  | .doDestroy => some .doDestroy

section Step

variable [DecidableEq Handler] (heap : StdHeap (@DelayedMessage.lt Handler Data))

/-- The variables of `Get` after a step that has made the queue `q`. -/
def State.after (s : State Handler Data) (q : Ownership.State Handler Data) :
    Act Handler Data → State Handler Data
  | .get cmsWait | .peek cmsWait =>
    { s with queue := q, cmsWait := cmsWait, msStart := s.clock, msCurrent := s.clock }
  | .look =>
    match s.queue.owner with
    | .looking _ first_pass =>
      { s with
        queue := q
        cmsDelayNext :=
          (s.queue.thread.getLocked heap first_pass s.msCurrent s.cmsDelayNext).2.1
        delayed := if first_pass then q.thread.delayed_messages_ else s.delayed }
    | _ => { s with queue := q }
  | .isQuitting =>
    match q.owner with
    | .waiting _ =>
      { s with
        queue := q
        asks := s.asks ++ [⟨s.cmsWait, s.msStart, s.msCurrent, s.delayed,
          toInt32 (Thread.cmsNext s.cmsWait s.cmsDelayNext
            (Thread.timeDiff s.msCurrent s.msStart))⟩] }
    | _ => { s with queue := q }
  | .waited _ => { s with queue := q, msCurrent := s.clock }
  | _ => { s with queue := q }

/-- A step at the time of the clock. -/
def step (s : State Handler Data) (a : Act Handler Data) : Option (State Handler Data) :=
  match a with
  | .tick ms =>
    if s.clock + ms ≤ int64Max then some { s with clock := s.clock + ms } else none
  | a => (s.lower a).bind fun b => (Ownership.step heap s.queue b).map fun q => s.after heap q a

end Step

/-! ## The delayed messages -/

/-- The time until the first of the messages that are left is to run. -/
def delayNext (msCurrent : ℤ) (delayed : List (DelayedMessage Handler Data)) : ℤ :=
  delayed.head?.elim Thread.kForever fun top => Thread.timeDiff top.run_time_ms_ msCurrent

section Delayed

variable (heap : StdHeap (@DelayedMessage.lt Handler Data)) {t : Thread Handler Data}

/-- **What `cmsDelayNext` is.** -/
theorem triggerDelayed_fst (now : ℤ) (n : ℕ) (t : Thread Handler Data)
    (hheap : IsHeap DelayedMessage.lt t.delayed_messages_)
    (hn : t.delayed_messages_.length ≤ n) :
    (t.triggerDelayed heap now n).1 =
      delayNext now (t.triggerDelayed heap now n).2.delayed_messages_ := by
  induction n generalizing t with
  | zero =>
    have hnil : t.delayed_messages_ = [] := List.eq_nil_of_length_eq_zero (by omega)
    simp [Thread.triggerDelayed, delayNext, hnil]
  | succ n ih =>
    cases hd : t.delayed_messages_ with
    | nil => simp [Thread.triggerDelayed, delayNext, hd]
    | cons top rest =>
      rw [hd] at hheap hn
      simp only [Thread.triggerDelayed, hd]
      split_ifs with hlt
      · simp [delayNext, hd]
      · obtain ⟨popped, hpop, hperm, hheap'⟩ := heap.popHeap_spec top rest hheap
        have hlen := hperm.length_eq
        simp only [List.length_cons] at hn
        rw [hpop, List.dropLast_concat]
        exact ih _ hheap' (by simp only; omega)

theorem getLocked_false_delayed (t : Thread Handler Data) (now cms : ℤ) :
    (t.getLocked heap false now cms).2.1 = cms ∧
      (t.getLocked heap false now cms).2.2.delayed_messages_ = t.delayed_messages_ := by
  cases hm : t.messages_ with
  | nil =>
    rw [Thread.getLocked_nil heap hm]
    exact ⟨rfl, rfl⟩
  | cons m ms =>
    rw [Thread.getLocked_cons heap hm]
    exact ⟨rfl, rfl⟩

/-- The first pass leaves the messages that are not due. -/
theorem getLocked_true_delayed (now cms : ℤ)
    (hheap : IsHeap DelayedMessage.lt t.delayed_messages_) :
    IsHeap DelayedMessage.lt (t.getLocked heap true now cms).2.2.delayed_messages_ ∧
      (t.getLocked heap true now cms).2.1 =
        delayNext now (t.getLocked heap true now cms).2.2.delayed_messages_ ∧
      ∀ d ∈ (t.getLocked heap true now cms).2.2.delayed_messages_,
        now < d.run_time_ms_ ∧ d ∈ t.delayed_messages_ := by
  obtain ⟨due, rest, hs, hperm, hheap', -, -, hrest⟩ :=
    Thread.triggerDelayed_spec heap now _ t hheap le_rfl
  have hfst := triggerDelayed_fst heap now _ t hheap le_rfl
  rw [Thread.getLocked_true]
  obtain ⟨h₁, h₂⟩ := getLocked_false_delayed heap
    (t.triggerDelayed heap now t.delayed_messages_.length).2 now
    (t.triggerDelayed heap now t.delayed_messages_.length).1
  have hdelayed :
      (t.triggerDelayed heap now t.delayed_messages_.length).2.delayed_messages_ = rest := by
    rw [hs]
  rw [h₁, h₂, hfst, hdelayed]
  exact ⟨hheap', rfl, fun d hd => ⟨hrest d hd,
    hperm.mem_iff.mp (List.mem_append_right _ hd)⟩⟩

theorem mem_delayed_getLocked (first_pass : Bool) (now cms : ℤ)
    (hheap : IsHeap DelayedMessage.lt t.delayed_messages_) {d : DelayedMessage Handler Data}
    (hd : d ∈ (t.getLocked heap first_pass now cms).2.2.delayed_messages_) :
    d ∈ t.delayed_messages_ := by
  cases first_pass with
  | false => rwa [(getLocked_false_delayed heap t now cms).2] at hd
  | true => exact ((getLocked_true_delayed heap now cms hheap).2.2 d hd).2

theorem mem_delayed_clearInternal [DecidableEq Handler] (phandler : Option Handler) (id : UInt32)
    {d : DelayedMessage Handler Data}
    (hd : d ∈ (t.clearInternal heap phandler id).1.delayed_messages_) :
    d ∈ t.delayed_messages_ := by
  have hloop := Thread.compactLoop_eq (fun d => d.msg_.matches phandler id)
    t.delayed_messages_.length t.delayed_messages_ 0 0 le_rfl (by omega)
  rw [List.take_zero, List.nil_append, List.drop_zero] at hloop
  simp only [Thread.clearInternal, hloop] at hd
  exact (List.mem_filter.mp ((heap.makeHeap_perm _).mem_iff.mp hd)).1

end Delayed

/-- The times at which messages are to run, in the queue and in calls that are about to enter
one. -/
structure Times (P : ℤ → Prop) (q : Ownership.State Handler Data) : Prop where
  delayed : ∀ d ∈ q.thread.delayed_messages_, P d.run_time_ms_
  posting : ∀ p ∈ q.posting, ∀ times ∈ p.2, P times.2

theorem times_begin {P : ℤ → Prop} {q : Ownership.State Handler Data} (h : Times P q)
    (msg : Message Handler Data) {times : Option (ℤ × ℤ)} (ht : ∀ x ∈ times, P x.2) :
    Times P (q.begin msg times) := by
  unfold Ownership.State.begin
  split_ifs
  · exact ⟨h.delayed, h.posting⟩
  · refine ⟨h.delayed, fun p hp => ?_⟩
    rcases List.mem_append.mp hp with hp | hp
    · exact h.posting p hp
    · rw [List.mem_singleton.mp hp]
      exact ht

/-- The time at which a message posted by the call is to run. -/
def runTime : Ownership.Act Handler Data → Option ℤ
  | .postDelayed now delay_ms _ => some (Thread.timeAfter now delay_ms)
  | .postAt _ run_at_ms _ => some run_at_ms
  | _ => none

section Step

variable [DecidableEq Handler] {heap : StdHeap (@DelayedMessage.lt Handler Data)}

theorem times_enter {P : ℤ → Prop} {q q' : Ownership.State Handler Data} {i : ℕ}
    (hinv : Ownership.Inv q) (h : Times P q) (hs : q.act heap (.enter i) = some q') :
    Times P q' := by
  have hposting : ∀ p ∈ q.posting.eraseIdx i, ∀ times ∈ p.2, P times.2 := fun p hp =>
    h.posting p (List.mem_of_mem_eraseIdx hp)
  rw [Ownership.State.act] at hs
  cases hi : q.posting[i]? with
  | none =>
    rw [hi] at hs
    cases hs
  | some p =>
    obtain ⟨msg, _ | ⟨delay_ms, run_at_ms⟩⟩ := p
    · rw [hi] at hs
      cases hs
      exact ⟨h.delayed, hposting⟩
    · rw [hi] at hs
      cases hs
      refine ⟨fun d hd => ?_, hposting⟩
      have hmem := (heap.pushHeap_perm _ _ hinv.heap).mem_iff.mp hd
      rcases List.mem_append.mp hmem with hd | hd
      · exact h.delayed d hd
      · rw [List.mem_singleton.mp hd]
        exact h.posting _ (List.mem_of_getElem? hi) _ rfl

omit [DecidableEq Handler] in
/-- A step that posts nothing and leaves only messages that were there. -/
theorem times_of_subset {P : ℤ → Prop} {q q' : Ownership.State Handler Data} (h : Times P q)
    (hdelayed : ∀ d ∈ q'.thread.delayed_messages_, d ∈ q.thread.delayed_messages_)
    (hposting : q'.posting = q.posting) : Times P q' :=
  ⟨fun d hd => h.delayed d (hdelayed d hd), hposting ▸ h.posting⟩

theorem times_step {P : ℤ → Prop} {q q' : Ownership.State Handler Data}
    (a : Ownership.Act Handler Data) (hinv : Ownership.Inv q) (h : Times P q)
    (ha : ∀ x ∈ runTime a, P x) (hs : Ownership.step heap q a = some q') : Times P q' := by
  unfold Ownership.step at hs
  split_ifs at hs
  · cases a <;> cases hs
    exact h
  cases a with
  | post msg =>
    cases hs
    exact times_begin h msg fun x hx => absurd hx (Option.not_mem_none x)
  | postDelayed now delay_ms msg =>
    cases hs
    exact times_begin h msg fun x hx => by cases hx; exact ha _ rfl
  | postAt now run_at_ms msg =>
    cases hs
    exact times_begin h msg fun x hx => by cases hx; exact ha _ rfl
  | dispose posted_from pdata =>
    cases pdata with
    | none =>
      cases hs
      exact h
    | some d =>
      cases hs
      exact times_begin h _ fun x hx => absurd hx (Option.not_mem_none x)
  | enter i => exact times_enter hinv h hs
  | look msCurrent =>
    rw [Ownership.State.act] at hs
    cases ho : q.owner with
    | looking peeking first_pass =>
      simp only [ho] at hs
      have hmem := fun d => mem_delayed_getLocked heap (d := d) first_pass msCurrent
        Thread.kForever hinv.heap
      rcases hget : q.thread.getLocked heap first_pass msCurrent Thread.kForever
        with ⟨_ | m, cms, t⟩
        <;> rw [hget] at hs hmem <;> cases hs <;> exact times_of_subset h hmem rfl
    | _ =>
      simp only [ho] at hs
      cases hs
  | clear phandler id removed =>
    have hmem := fun d => mem_delayed_clearInternal heap (t := q.thread) (d := d) phandler id
    simp only [Ownership.State.act] at hs
    split_ifs at hs <;> cases hs <;> exact times_of_subset h hmem rfl
  | doDestroy =>
    have hmem := fun d => mem_delayed_clearInternal heap (t := q.thread) (d := d) none mqidAny
    simp only [Ownership.State.act] at hs
    split at hs
    · cases hs
      exact times_of_subset h hmem rfl
    · cases hs
  | get | peek | take | isQuitting | waited _ | quit | restart =>
    -- the delayed messages are left alone
    simp only [Ownership.State.act] at hs
    repeat' split at hs
    all_goals cases hs
    all_goals exact times_of_subset h (fun d hd => hd) rfl

end Step

/-! ## What a call of `Wait` may ask for -/

/-- `kForever` is asked for if and only if there is no limit. Otherwise the wait is neither longer
than what is left of the asked one, nor than the time until a delayed message is to run. -/
structure Ask.Good (a : Ask Handler Data) : Prop where
  forever : a.cms = Thread.kForever ↔ a.cmsWait = Thread.kForever ∧ a.delayed = []
  nonneg : a.cms ≠ Thread.kForever → 0 ≤ a.cms
  asked : a.cms ≠ Thread.kForever → a.cmsWait ≠ Thread.kForever →
    a.cms ≤ max 0 (a.cmsWait - (a.msCurrent - a.msStart))
  delayed : a.cms ≠ Thread.kForever → ∀ d ∈ a.delayed, a.cms ≤ d.run_time_ms_ - a.msCurrent

/-- The wait is limited, or the time until the first delayed message is to run is less than
`2 ^ 31` modulo `2 ^ 32`. -/
def Ask.Fits (a : Ask Handler Data) : Prop :=
  a.cmsWait ≠ Thread.kForever ∨
    ∀ d ∈ a.delayed, (∀ d' ∈ a.delayed, d.run_time_ms_ ≤ d'.run_time_ms_) →
      (d.run_time_ms_ - a.msCurrent) % 2 ^ 32 < 2 ^ 31

/-- What a call of `Get` computes its wait from, after the first pass. -/
structure Known (cmsWait msStart msCurrent : ℤ) (delayed : List (DelayedMessage Handler Data)) :
    Prop where
  wait : Thread.kForever ≤ cmsWait ∧ cmsWait ≤ intMax
  start : 0 ≤ msStart
  current : msStart ≤ msCurrent
  clock : msCurrent ≤ int64Max
  heap : IsHeap DelayedMessage.lt delayed
  later : ∀ d ∈ delayed, msCurrent < d.run_time_ms_
  times : ∀ d ∈ delayed, d.run_time_ms_ ≤ int64Max

section Ask

variable {cmsWait msStart msCurrent : ℤ} {delayed : List (DelayedMessage Handler Data)}

/-- Either nothing is delayed, or no message is to run before `cmsDelayNext` is over. -/
theorem delayNext_cases (h : Known cmsWait msStart msCurrent delayed) :
    (delayed = [] ∧ delayNext msCurrent delayed = Thread.kForever) ∨
      ∃ top ∈ delayed, (∀ d ∈ delayed, top.run_time_ms_ ≤ d.run_time_ms_) ∧
        0 < delayNext msCurrent delayed ∧
        delayNext msCurrent delayed = top.run_time_ms_ - msCurrent := by
  cases hd : delayed with
  | nil => exact .inl ⟨rfl, rfl⟩
  | cons top rest =>
    rw [hd] at h
    have h₁ := h.later top List.mem_cons_self
    have h₂ := h.times top List.mem_cons_self
    have hstart := h.start
    have hcurrent := h.current
    have hint64 : int64Max = 2 ^ 63 - 1 := rfl
    have hnext : delayNext msCurrent (top :: rest) = top.run_time_ms_ - msCurrent :=
      toInt64_of_mem (by omega) (by omega)
    exact .inr ⟨top, List.mem_cons_self, Thread.run_time_le_of_heap h.heap, by omega, hnext⟩

/-- An unlimited wait is the distance to the first delayed message, converted to `int`. -/
theorem good_iff_of_forever (h : Known cmsWait msStart msCurrent delayed)
    (hcms : cmsWait = Thread.kForever) {cms : ℤ}
    (ha : cms = toInt32 (delayNext msCurrent delayed)) :
    (⟨cmsWait, msStart, msCurrent, delayed, cms⟩ : Ask Handler Data).Good ↔
      (⟨cmsWait, msStart, msCurrent, delayed, cms⟩ : Ask Handler Data).Fits := by
  obtain ⟨rfl, hnext⟩ | ⟨top, hmem, hfirst, hpos, hnext⟩ := delayNext_cases h
  · have hcms' : cms = Thread.kForever := by
      rw [ha, hnext]
      decide
    refine iff_of_true ?_ (.inr (by simp))
    constructor <;> simp [hcms, hcms']
  · rw [hnext] at ha hpos
    have hforever : Thread.kForever = -1 := rfl
    have hnonneg := toInt32_nonneg_iff (top.run_time_ms_ - msCurrent)
    have hle := toInt32_le hpos.le
    have hne : delayed ≠ [] := List.ne_nil_of_mem hmem
    rw [← ha] at hnonneg hle
    constructor
    · intro hgood
      have hmod := hnonneg.mp (hgood.nonneg fun he => hne (hgood.forever.mp he).2)
      refine .inr fun d hd hmin => ?_
      have heq : d.run_time_ms_ = top.run_time_ms_ := le_antisymm (hmin top hmem) (hfirst d hd)
      rw [heq]
      exact hmod
    · intro hfits
      have hzero := hnonneg.mpr (hfits.resolve_left (not_not.mpr hcms) top hmem hfirst)
      refine ⟨iff_of_false (by simp only; omega) fun he => hne he.2, fun _ => hzero,
        fun _ hw => absurd hcms hw, fun _ d hd => ?_⟩
      have := hfirst d hd
      simp only
      omega

/-- What is left of a limited wait is an `int`, and so is anything shorter. -/
theorem good_of_limited (h : Known cmsWait msStart msCurrent delayed)
    (hcms : cmsWait ≠ Thread.kForever) {cms : ℤ}
    (ha : cms = toInt32 (Thread.cmsNext cmsWait (delayNext msCurrent delayed)
      (Thread.timeDiff msCurrent msStart))) :
    (⟨cmsWait, msStart, msCurrent, delayed, cms⟩ : Ask Handler Data).Good := by
  obtain ⟨hwait₁, hwait₂⟩ := h.wait
  have hstart := h.start
  have hcurrent := h.current
  have hclock := h.clock
  have hint64 : int64Max = 2 ^ 63 - 1 := rfl
  have hint : intMax = 2 ^ 31 - 1 := rfl
  have hforever : Thread.kForever = -1 := rfl
  have helapsed : Thread.timeDiff msCurrent msStart = msCurrent - msStart :=
    toInt64_of_mem (by omega) (by omega)
  have hleft : toInt64 (cmsWait - (msCurrent - msStart)) = cmsWait - (msCurrent - msStart) :=
    toInt64_of_mem (by omega) (by omega)
  obtain ⟨asked, hasked⟩ : ∃ asked, asked = max 0 (cmsWait - (msCurrent - msStart)) := ⟨_, rfl⟩
  have hmax : 0 ≤ asked ∧ asked ≤ intMax := by omega
  rw [helapsed, Thread.cmsNext, if_neg hcms, hleft] at ha
  simp only [← hasked] at ha
  -- the shorter of the two waits
  have hshort : 0 ≤ cms ∧ cms ≤ asked ∧ ∀ d ∈ delayed, cms ≤ d.run_time_ms_ - msCurrent := by
    obtain ⟨rfl, hnext⟩ | ⟨top, hmem, hfirst, hpos, hnext⟩ := delayNext_cases h
    · rw [if_neg (fun hc => hc.1 hnext), toInt32_of_mem (by omega) hmax.2] at ha
      exact ⟨by omega, by omega, fun d hd => absurd hd List.not_mem_nil⟩
    · have hmin : ∀ d ∈ delayed, delayNext msCurrent delayed ≤ d.run_time_ms_ - msCurrent :=
        fun d hd => by
          have := hfirst d hd
          omega
      split_ifs at ha with hc
      · rw [toInt32_of_mem (by omega) (by omega)] at ha
        exact ⟨by omega, by omega, fun d hd => ha.trans_le (hmin d hd)⟩
      · rw [toInt32_of_mem (by omega) hmax.2] at ha
        refine ⟨by omega, by omega, fun d hd => ?_⟩
        have := hmin d hd
        omega
  obtain ⟨hzero, hle, hmin⟩ := hshort
  exact ⟨iff_of_false (by simp only; omega) fun he => hcms he.1, fun _ => hzero,
    fun _ _ => hasked ▸ hle, fun _ => hmin⟩

/-- **One call of `Wait`.** -/
theorem good_iff_fits (h : Known cmsWait msStart msCurrent delayed) {cms : ℤ}
    (ha : cms = toInt32 (Thread.cmsNext cmsWait (delayNext msCurrent delayed)
      (Thread.timeDiff msCurrent msStart))) :
    (⟨cmsWait, msStart, msCurrent, delayed, cms⟩ : Ask Handler Data).Good ↔
      (⟨cmsWait, msStart, msCurrent, delayed, cms⟩ : Ask Handler Data).Fits := by
  by_cases hcms : cmsWait = Thread.kForever
  · rw [Thread.cmsNext, if_pos hcms] at ha
    exact good_iff_of_forever h hcms ha
  · exact iff_of_true (good_of_limited h hcms ha) (.inl hcms)

end Ask

/-! ## Runs -/

/-- The owner is behind the first pass of the inner loop of `Get`, and has not gone to wait. -/
def Scanned : Ownership.Owner Handler Data → Prop
  | .looking _ first_pass => first_pass = false
  | .found _ _ => True
  | .empty _ => True
  | _ => False

/-- **The invariant**: the variables of `Get` fit the clock, and `cmsDelayNext` is what the delayed
messages ask for. -/
structure Inv (s : State Handler Data) : Prop where
  queue : Ownership.Inv s.queue
  times : Times IsInt64 s.queue
  clock : s.clock ≤ int64Max
  wait : Thread.kForever ≤ s.cmsWait ∧ s.cmsWait ≤ intMax
  start : 0 ≤ s.msStart
  current : s.msStart ≤ s.msCurrent
  now : s.msCurrent ≤ s.clock
  known : Scanned s.queue.owner → Known s.cmsWait s.msStart s.msCurrent s.delayed ∧
    s.cmsDelayNext = delayNext s.msCurrent s.delayed
  asks : ∀ a ∈ s.asks, a.Good ↔ a.Fits

theorem init_inv {clock : ℤ} (h : 0 ≤ clock) (h' : clock ≤ int64Max) :
    Inv (init clock : State Handler Data) where
  queue := Ownership.init_inv
  times := ⟨fun _ hd => absurd hd List.not_mem_nil, fun _ hp => absurd hp List.not_mem_nil⟩
  clock := h'
  wait := ⟨by change (-1 : ℤ) ≤ 0; decide, by change (0 : ℤ) ≤ intMax; decide⟩
  start := le_rfl
  current := le_rfl
  now := h
  known h := h.elim
  asks _ ha := absurd ha List.not_mem_nil

section Step

variable [DecidableEq Handler] {heap : StdHeap (@DelayedMessage.lt Handler Data)}
  {s s' : State Handler Data} {q q' : Ownership.State Handler Data}

/-- Where the owner is before its steps. -/
def OwnerAt : Ownership.Act Handler Data → Ownership.Owner Handler Data → Prop
  | .get, o | .peek, o => o = .idle
  | .look _, o => ∃ peeking first_pass, o = .looking peeking first_pass
  | .isQuitting, o => ∃ peeking, o = .empty peeking
  | .waited _, o => ∃ peeking, o = .waiting peeking
  | _, _ => True

theorem ownerAt_of_step {a : Ownership.Act Handler Data}
    (hs : Ownership.step heap q a = some q') : OwnerAt a q.owner := by
  unfold Ownership.step at hs
  split_ifs at hs
  · cases a <;> trivial
  cases a with
  | get | peek | look msCurrent | isQuitting | waited expired =>
    rw [Ownership.State.act] at hs
    cases ho : q.owner <;> simp only [ho, reduceCtorEq] at hs
    all_goals simp [OwnerAt]
  | _ => trivial

/-- A step other than the locked section does not lead behind the first pass. -/
theorem scanned_step {a : Ownership.Act Handler Data} (hs : Ownership.step heap q a = some q')
    (ha : ∀ msCurrent, a ≠ .look msCurrent) (h : Scanned q'.owner) : Scanned q.owner := by
  unfold Ownership.step at hs
  split_ifs at hs
  · cases a <;> cases hs
    exact h
  cases a with
  | look msCurrent => exact absurd rfl (ha msCurrent)
  | post msg | postDelayed now delay_ms msg | postAt now run_at_ms msg =>
    cases hs
    unfold Ownership.State.begin at h
    split_ifs at h <;> exact h
  | dispose posted_from pdata =>
    cases pdata with
    | none =>
      cases hs
      exact h
    | some d =>
      cases hs
      unfold Ownership.State.begin at h
      split_ifs at h <;> exact h
  | enter i =>
    rw [Ownership.State.act] at hs
    cases hi : q.posting[i]? with
    | none =>
      rw [hi] at hs
      cases hs
    | some p =>
      obtain ⟨msg, _ | times⟩ := p <;> rw [hi] at hs <;> cases hs <;> exact h
  | get | peek =>
    rw [Ownership.State.act] at hs
    cases ho : q.owner with
    | idle =>
      simp only [ho] at hs
      split_ifs at hs <;> cases hs
      · exact ho ▸ h
      · exact absurd (show true = false from h) (by decide)
    | _ =>
      simp only [ho] at hs
      cases hs
  | take =>
    rw [Ownership.State.act] at hs
    cases ho : q.owner with
    | found peeking msg => trivial
    | _ =>
      simp only [ho] at hs
      cases hs
  | isQuitting =>
    rw [Ownership.State.act] at hs
    cases ho : q.owner with
    | empty peeking => trivial
    | _ =>
      simp only [ho] at hs
      cases hs
  | waited expired =>
    rw [Ownership.State.act] at hs
    cases ho : q.owner with
    | waiting peeking =>
      simp only [ho] at hs
      cases hs
      cases expired <;> simp [Scanned] at h
    | _ =>
      simp only [ho] at hs
      cases hs
  | clear phandler id removed =>
    simp only [Ownership.State.act] at hs
    split_ifs at hs <;> cases hs <;> exact h
  | quit | restart =>
    cases hs
    exact h
  | doDestroy =>
    simp only [Ownership.State.act] at hs
    split at hs
    · cases hs
      exact h
    · cases hs

theorem step_cases {a : Act Handler Data} (hs : step heap s a = some s') :
    (∃ ms : ℕ, s.clock + ms ≤ int64Max ∧ s' = { s with clock := s.clock + ms }) ∨
      ∃ b q, s.lower a = some b ∧ Ownership.step heap s.queue b = some q ∧
        s' = s.after heap q a := by
  cases a with
  | tick ms =>
    simp only [step] at hs
    split_ifs at hs with hc
    cases hs
    exact .inl ⟨ms, hc, rfl⟩
  | _ =>
    simp only [step, State.lower, Option.bind_some] at hs
    obtain ⟨q, hq, rfl⟩ := Option.map_eq_some_iff.mp hs
    exact .inr ⟨_, q, rfl, hq, rfl⟩

omit [DecidableEq Handler] in
theorem runTime_lower {a : Act Handler Data} (ha : a.Typed) {b : Ownership.Act Handler Data}
    (hb : s.lower a = some b) : ∀ x ∈ runTime b, IsInt64 x := by
  cases a <;> cases hb <;> simp only [runTime, Option.mem_def, reduceCtorEq, IsEmpty.forall_iff,
    implies_true, Option.some.injEq, forall_eq']
  · exact isInt64_toInt64 _
  · exact ha

omit [DecidableEq Handler] in
theorem inv_frame (h : Inv s) (hqueue : Ownership.Inv q) (htimes : Times IsInt64 q)
    (hscanned : Scanned q.owner → Scanned s.queue.owner) : Inv { s with queue := q } :=
  { h with
    queue := hqueue
    times := htimes
    known := fun ho => h.known (hscanned ho) }

theorem inv_look (h : Inv s) (hqueue : Ownership.Inv q) (htimes : Times IsInt64 q)
    (hs : Ownership.step heap s.queue (.look s.msCurrent) = some q) :
    Inv (s.after heap q .look) := by
  obtain ⟨peeking, first_pass, ho⟩ := ownerAt_of_step hs
  have hthread : q.thread = (s.queue.thread.getLocked heap first_pass s.msCurrent
      s.cmsDelayNext).2.2 := by
    obtain ⟨-, hcms⟩ := Ownership.getLocked_cms heap s.queue.thread first_pass s.msCurrent
      s.cmsDelayNext Thread.kForever
    unfold Ownership.step at hs
    split_ifs at hs
    simp only [Ownership.State.act, ho] at hs
    rw [hcms]
    rcases hget : s.queue.thread.getLocked heap first_pass s.msCurrent Thread.kForever with
      ⟨_ | msg, cms, t⟩ <;> rw [hget] at hs <;> cases hs <;> rfl
  simp only [State.after, ho]
  refine { h with queue := hqueue, times := htimes, known := fun _ => ?_ }
  cases first_pass with
  | false =>
    obtain ⟨hcms, -⟩ := getLocked_false_delayed heap s.queue.thread s.msCurrent s.cmsDelayNext
    simp only [Bool.false_eq_true, if_false, hcms]
    exact h.known (by rw [ho]; rfl)
  | true =>
    obtain ⟨hheap, hcms, hmem⟩ :=
      getLocked_true_delayed heap s.msCurrent s.cmsDelayNext h.queue.heap
    simp only [if_true, hcms, hthread]
    refine ⟨⟨h.wait, h.start, h.current, h.now.trans h.clock, hheap, fun d hd => (hmem d hd).1,
      fun d hd => ?_⟩, trivial⟩
    exact (h.times.delayed d (hmem d hd).2).2

theorem inv_isQuitting (h : Inv s) (hqueue : Ownership.Inv q) (htimes : Times IsInt64 q)
    (hs : Ownership.step heap s.queue .isQuitting = some q) :
    Inv (s.after heap q .isQuitting) := by
  obtain ⟨peeking, howner⟩ := ownerAt_of_step hs
  have hframe := inv_frame h hqueue htimes (scanned_step hs (by simp))
  obtain ⟨hknown, hnext⟩ := h.known (by rw [howner]; trivial)
  unfold State.after
  cases ho : q.owner with
  | waiting peeking =>
    refine { hframe with asks := fun a ha => ?_ }
    rcases List.mem_append.mp ha with ha | ha
    · exact h.asks a ha
    · rw [List.mem_singleton.mp ha]
      exact good_iff_fits hknown (by rw [hnext])
  | _ => exact hframe

theorem step_inv (a : Act Handler Data) (ha : a.Typed) (h : Inv s)
    (hs : step heap s a = some s') : Inv s' := by
  obtain ⟨ms, hms, rfl⟩ | ⟨b, q, hb, hq, rfl⟩ := step_cases hs
  · have hnow := h.now
    exact { h with clock := hms, now := by simp only; omega }
  · have hqueue := Ownership.step_inv b h.queue hq
    have htimes := times_step b h.queue h.times (runTime_lower ha hb) hq
    have howner := ownerAt_of_step hq
    cases a with
    | tick ms => cases hb
    | look =>
      cases hb
      exact inv_look h hqueue htimes hq
    | isQuitting =>
      cases hb
      exact inv_isQuitting h hqueue htimes hq
    | get cmsWait | peek cmsWait =>
      cases hb
      have hnow := h.start.trans (h.current.trans h.now)
      refine { h with
        queue := hqueue, times := htimes, wait := ha, start := hnow, current := le_rfl
        now := le_rfl, known := fun ho => ?_ }
      have hscanned := scanned_step hq (by simp) ho
      rw [howner] at hscanned
      exact hscanned.elim
    | waited ok =>
      cases hb
      refine { h with
        queue := hqueue, times := htimes, current := h.current.trans h.now, now := le_rfl
        known := fun ho => ?_ }
      have hscanned := scanned_step hq (by simp) ho
      obtain ⟨peeking, howner⟩ := howner
      rw [howner] at hscanned
      exact hscanned.elim
    | _ =>
      cases hb
      exact inv_frame h hqueue htimes (scanned_step hq (by simp))

end Step

/-- **What `Get` asks for.** In every run, with any steps of other threads in between, a call of
`Wait` is for no more than the shorter of the two waits if and only if it `Fits`. -/
theorem asks_good_iff [DecidableEq Handler] (heap : StdHeap (@DelayedMessage.lt Handler Data))
    (clock : ℤ) (hclock : 0 ≤ clock ∧ clock ≤ int64Max) (acts : List (Act Handler Data))
    (hacts : ∀ a ∈ acts, a.Typed) {s : State Handler Data}
    (h : exec (step heap) (init clock) acts = some s) : ∀ a ∈ s.asks, a.Good ↔ a.Fits := by
  have hinv : Inv s := invariant_along Inv (fun _ a _ hs ha hstep => step_inv a ha hs hstep)
    (init_inv hclock.1 hclock.2) h (along_of_forall hacts)
  exact hinv.asks

/-- A message for 100 bounds an unlimited wait, and then a limited wait that is over before. -/
def twoWaits : List (Act ℕ ℕ) :=
  [.tick 10, .postAt 100 { phandler := some 7, pdata := some 1 }, .enter 0, .get (-1), .look,
    .isQuitting, .tick 5, .waited false, .get 20, .look, .isQuitting]

theorem asks_good_sample : ∃ s, exec (step Thread.sortedHeap) (init 0) twoWaits = some s ∧
    s.asks.map Ask.cms = [90, 20] ∧ ∀ a ∈ s.asks, a.Good ↔ a.Fits :=
  ⟨_, rfl, by decide, asks_good_iff Thread.sortedHeap 0 (by decide) twoWaits
    (by simp [twoWaits, Act.Typed, Thread.kForever, intMax, int64Max]) rfl⟩

/-- With a message for `2 ^ 32 - 1` milliseconds from now, `Get` asks for a wait without end. -/
theorem oversleeps : ∃ s, exec (step Thread.sortedHeap) (init 0)
      [.postAt (2 ^ 32 - 1) { phandler := some 7, pdata := some 1 }, .enter 0, .get (-1), .look,
        .isQuitting] = some (s : State ℕ ℕ) ∧
    ∃ a ∈ s.asks, a.cms = Thread.kForever ∧ a.delayed.map (·.run_time_ms_) = [2 ^ 32 - 1] ∧
      ¬ a.Good := by
  refine ⟨_, rfl, _, List.mem_cons_self, by decide, by decide, fun h => ?_⟩
  exact absurd (h.forever.mp (by decide)).2 (List.cons_ne_nil _ _)

end Sleep

end RtcBase
