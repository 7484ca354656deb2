import RtcBase.Lib.Mutex
import RtcBase.Lib.Run
import RtcBase.Lib.Word
import RtcBase.Sync.Thrd

/-!
# `CriticalSection`

Any number of threads enter and leave one critical section, with `RTC_DCHECK`s on. Every access to
the mutex, to `thread_` and to `recursion_count_` is a step. The mutex takes up to `limit` locks of
one thread, and `recursion_count_` is an `int` that wraps around.

* `Phase`, `State`, `step`: where the threads are, and what they do next;
* `HasRoom`: the calls that nest within `limit` and within `int`;
* `Agrees`, `Inv`, `inv_step`: how the two variables go with the mutex at every step;
* **`ownership_exact`**: what holds in every state of a run whose calls have room.
-/

namespace RtcBase

open Word Run Locks

namespace CriticalSection

/-- `kThrdSuccess`: what the mutex functions return when they have locked it. -/
def kThrdSuccess : ℤ := 0

/-- The two ways in. -/
inductive Entry where
  | enter
  | tryEnter
  deriving DecidableEq, Repr

/-- The next step of a thread. -/
inductive Phase where
  /-- In none of the functions. `TryEnter` was the last one if there is a result. -/
  | out (result : Option Bool)
  | lock (e : Entry)
  /-- `if (!recursion_count_)` with its checks. -/
  | test (e : Entry)
  /-- `thread_ = ThrdCurrent()`. -/
  | store (e : Entry)
  /-- `++recursion_count_`. -/
  | count (e : Entry)
  /-- The first check of `Leave`. -/
  | check
  /-- `--recursion_count_`. -/
  | discount
  /-- The second check, and `if (!recursion_count_)`. -/
  | retest
  /-- `thread_ = 0`. -/
  | clear
  | unlock
  deriving DecidableEq, Repr

/-- The thread is in none of the functions. -/
def Phase.isOut : Phase → Bool
  | .out _ => true
  | _ => false

/-- The fields of the class, and where every thread is. -/
structure State (τ : Type) where
  mutex_ : Mutex τ
  thread_ : Thrd
  recursion_count_ : ℤ
  phase : τ → Phase
  /-- How often the thread has entered and not left. -/
  entered : τ → ℕ
  /-- An `RTC_DCHECK` has failed. -/
  failed : Bool

/-- The constructor: no thread has entered. -/
def init {τ : Type} : State τ where
  mutex_ := .free
  thread_ := 0
  recursion_count_ := 0
  phase _ := .out none
  entered _ := 0
  failed := false

/-- A thread calls a function, or makes its next step. -/
inductive Act (τ : Type) where
  | enter (t : τ)
  | tryEnter (t : τ)
  | leave (t : τ)
  /-- The next step of a thread that is in one of the functions. -/
  | go (t : τ)
  deriving DecidableEq, Repr

/-- What `Enter` and `TryEnter` return when they have entered. -/
def Entry.result : Entry → Option Bool
  | .enter => none
  | .tryEnter => some true

section Step

variable {τ : Type} [DecidableEq τ]

/-- A thread goes on. -/
def State.to (s : State τ) (t : τ) (p : Phase) : State τ :=
  { s with phase := Function.update s.phase t p }

/-- `RTC_DCHECK`, before what follows it. -/
def State.dcheck (s : State τ) (condition : Bool) (s' : State τ) : State τ :=
  if condition then s' else { s with failed := true }

variable (P : Pthreads τ) (limit : ℕ)

/-- Whether `thread_` is the thread that asks. -/
def currentThreadIsOwner (s : State τ) (t : τ) : Bool := P.thrdEqual s.thread_ (P.thrdCurrent t)

/-- The next step of a thread, from where it is. -/
def go (s : State τ) (t : τ) : Option (State τ) :=
  match s.phase t with
  | .out _ => none
  | .lock .enter =>
    -- the result code is not looked at
    (s.mutex_.lock limit t).map fun locked => { s with mutex_ := locked.2 }.to t (.test .enter)
  | .lock .tryEnter =>
    let locked := s.mutex_.tryLock limit t
    some ({ s with mutex_ := locked.2 }.to t
      (if locked.1 ≠ kThrdSuccess then .out (some false) else .test .tryEnter))
  | .test e => some <|
    if s.recursion_count_ = 0 then s.dcheck (s.thread_ = kNullThrd) (s.to t (.store e))
    else s.dcheck (currentThreadIsOwner P s t) (s.to t (.count e))
  | .store e => some ({ s with thread_ := P.thrdCurrent t }.to t (.count e))
  | .count e =>
    some ({ s with
      recursion_count_ := toInt32 (s.recursion_count_ + 1)
      entered := Function.update s.entered t (s.entered t + 1) }.to t (.out e.result))
  | .check => some (s.dcheck (currentThreadIsOwner P s t) (s.to t .discount))
  | .discount =>
    some ({ s with recursion_count_ := toInt32 (s.recursion_count_ - 1) }.to t .retest)
  | .retest => some <|
    s.dcheck (0 ≤ s.recursion_count_) (s.to t (if s.recursion_count_ = 0 then .clear else .unlock))
  | .clear => some ({ s with thread_ := kNullThrd }.to t .unlock)
  | .unlock =>
    some ({ s with
      mutex_ := s.mutex_.unlock t
      entered := Function.update s.entered t (s.entered t - 1) }.to t (.out none))

/-- A thread leaves only what it has entered. After a failed check there is no step. -/
def step (s : State τ) (a : Act τ) : Option (State τ) :=
  if s.failed then none
  else
    match a with
    | .enter t => if (s.phase t).isOut then some (s.to t (.lock .enter)) else none
    | .tryEnter t => if (s.phase t).isOut then some (s.to t (.lock .tryEnter)) else none
    | .leave t =>
      if (s.phase t).isOut ∧ 0 < s.entered t then some (s.to t .check) else none
    | .go t => go P limit s t

end Step

/-! ## The invariant -/

/-- The step is made without the mutex, or before its lock is looked at. -/
def Phase.outside : Phase → Bool
  | .out _ | .lock _ => true
  | _ => false

/-- The variables of a holder with id `id` that has locked the mutex `depth` times. -/
def Agrees (id : Thrd) (depth : ℕ) (recursion_count_ : ℤ) (thread_ : Thrd) (entered : ℕ) :
    Phase → Prop
  | .out _ | .lock _ | .check | .discount =>
    recursion_count_ = depth ∧ entered = depth ∧ thread_ = id
  | .test _ =>
    recursion_count_ + 1 = depth ∧ entered + 1 = depth ∧
      thread_ = if recursion_count_ = 0 then kNullThrd else id
  | .store _ => recursion_count_ = 0 ∧ depth = 1 ∧ entered = 0
  | .count _ => recursion_count_ + 1 = depth ∧ entered + 1 = depth ∧ thread_ = id
  | .retest => recursion_count_ + 1 = depth ∧ entered = depth ∧ thread_ = id
  | .clear => recursion_count_ = 0 ∧ depth = 1 ∧ entered = depth
  | .unlock =>
    recursion_count_ + 1 = depth ∧ entered = depth ∧
      thread_ = if recursion_count_ = 0 then kNullThrd else id

theorem agrees_of_outside {id thread_ : Thrd} {depth entered : ℕ} {recursion_count_ : ℤ} {p : Phase}
    (hp : p.outside = true) : Agrees id depth recursion_count_ thread_ entered p ↔
      recursion_count_ = depth ∧ entered = depth ∧ thread_ = id := by
  cases p with
  | out _ => exact Iff.rfl
  | lock _ => exact Iff.rfl
  | _ => cases hp

variable {τ : Type} [DecidableEq τ] {P : Pthreads τ} {limit : ℕ} {s s' : State τ} {t : τ}

/-- A call of `Enter` or `TryEnter` finds less than `INT_MAX` enters of its thread, and one of
`Enter` less than `limit`. -/
def HasRoom (limit : ℕ) (s : State τ) : Act τ → Prop
  | .enter t => (s.entered t : ℤ) < intMax ∧ s.entered t < limit
  | .tryEnter t => (s.entered t : ℤ) < intMax
  | _ => True

instance (limit : ℕ) (s : State τ) (a : Act τ) : Decidable (HasRoom limit s a) := by
  cases a <;> unfold HasRoom <;> infer_instance

/-- **The invariant**: only the holder of the mutex is inside, and the fields say what it has
entered. -/
structure Inv (P : Pthreads τ) (limit : ℕ) (s : State τ) : Prop where
  passed : s.failed = false
  others : ∀ u, s.mutex_.holder ≠ some u → (s.phase u).outside = true ∧ s.entered u = 0
  room : ∀ u e, s.phase u = .lock e →
    (s.entered u : ℤ) < intMax ∧ (e = .enter → s.entered u < limit)
  free : s.mutex_ = .free → s.recursion_count_ = 0 ∧ s.thread_ = kNullThrd
  held : ∀ t again, s.mutex_ = .held t again →
    ((again + 1 : ℕ) : ℤ) ≤ intMax ∧
      Agrees (P.thrdCurrent t) (again + 1) s.recursion_count_ s.thread_ (s.entered t) (s.phase t)

omit [DecidableEq τ] in
theorem init_inv : Inv P limit (init : State τ) where
  passed := rfl
  others _ _ := ⟨rfl, rfl⟩
  room _ _ h := by cases h
  free _ := ⟨rfl, rfl⟩
  held _ _ h := by cases h

omit [DecidableEq τ] in
theorem Inv.inside (h : Inv P limit s) {p : Phase} (ht : s.phase t = p) (hp : p.outside = false) :
    ∃ again, s.mutex_ = .held t again ∧ ((again + 1 : ℕ) : ℤ) ≤ intMax ∧
      Agrees (P.thrdCurrent t) (again + 1) s.recursion_count_ s.thread_ (s.entered t) p := by
  have hholder : s.mutex_.holder = some t := by
    by_contra hne
    have hout := (h.others t hne).1
    rw [ht, hp] at hout
    cases hout
  obtain ⟨again, hheld⟩ := Mutex.eq_held hholder
  have hagrees := h.held t again hheld
  rw [ht] at hagrees
  exact ⟨again, hheld, hagrees⟩

/-- **A step of the holder**, or of a thread that locks, keeps the invariant if what it leaves
agrees again. -/
theorem Inv.update (h : Inv P limit s) (ht : s.mutex_.holder = some t ∨ s.mutex_ = .free)
    {p : Phase} {again entered : ℕ} (hmutex : s'.mutex_ = .held t again)
    (hphase : s'.phase = Function.update s.phase t p)
    (hentered : s'.entered = Function.update s.entered t entered) (hpassed : s'.failed = false)
    (hp : ∀ e, p ≠ .lock e) (hfits : ((again + 1 : ℕ) : ℤ) ≤ intMax)
    (hagrees : Agrees (P.thrdCurrent t) (again + 1) s'.recursion_count_ s'.thread_ entered p) :
    Inv P limit s' where
  passed := hpassed
  others u hu := by
    have hne : u ≠ t := by
      rintro rfl
      rw [hmutex] at hu
      exact hu rfl
    rw [hphase, hentered, Function.update_of_ne hne, Function.update_of_ne hne]
    refine h.others u fun hsome => ?_
    rcases ht with ht | ht
    · exact hne (Option.some.inj (hsome.symm.trans ht))
    · rw [ht] at hsome
      cases hsome
  room u e hu := by
    rw [hphase] at hu
    by_cases hne : u = t
    · subst hne
      rw [Function.update_self] at hu
      exact absurd hu (hp e)
    · rw [Function.update_of_ne hne] at hu
      rw [hentered, Function.update_of_ne hne]
      exact h.room u e hu
  free hfree := by
    rw [hmutex] at hfree
    cases hfree
  held u again' hheld := by
    rw [hmutex] at hheld
    cases hheld
    rw [hphase, hentered, Function.update_self, Function.update_self]
    exact ⟨hfits, hagrees⟩

theorem Inv.write (h : Inv P limit s) {again : ℕ} (ht : s.mutex_ = .held t again) {p : Phase}
    (hp : ∀ e, p ≠ .lock e) {recursion_count_ : ℤ} {thread_ : Thrd}
    (hagrees :
      Agrees (P.thrdCurrent t) (again + 1) recursion_count_ thread_ (s.entered t) p) :
    Inv P limit
      ({ s with recursion_count_ := recursion_count_, thread_ := thread_ }.to t p) := by
  have hholder : s.mutex_.holder = some t := by
    rw [ht]
    rfl
  exact h.update (.inl hholder) ht rfl (Function.update_eq_self t s.entered).symm h.passed hp
    (h.held t again ht).1 hagrees

theorem Inv.to (h : Inv P limit s) {again : ℕ} (ht : s.mutex_ = .held t again) {p : Phase}
    (hp : ∀ e, p ≠ .lock e)
    (hagrees : Agrees (P.thrdCurrent t) (again + 1) s.recursion_count_ s.thread_ (s.entered t) p) :
    Inv P limit (s.to t p) := h.write ht hp hagrees

theorem Inv.stayOut (h : Inv P limit s) {p p' : Phase} (ht : s.phase t = p)
    (hout : p.outside = true) (hout' : p'.outside = true)
    (hroom : ∀ e, p' = .lock e →
      (s.entered t : ℤ) < intMax ∧ (e = .enter → s.entered t < limit)) :
    Inv P limit (s.to t p') where
  passed := h.passed
  others u hu := by
    refine ⟨?_, (h.others u hu).2⟩
    by_cases hne : u = t
    · subst hne
      simpa [State.to] using hout'
    · simpa [State.to, hne] using (h.others u hu).1
  room u e hu := by
    by_cases hne : u = t
    · subst hne
      simp only [State.to, Function.update_self] at hu
      exact hroom e hu
    · simp only [State.to, Function.update_of_ne hne] at hu
      exact h.room u e hu
  free := h.free
  held u again hheld := by
    obtain ⟨hfits, hagrees⟩ := h.held u again hheld
    refine ⟨hfits, ?_⟩
    by_cases hne : u = t
    · subst hne
      rw [ht, agrees_of_outside hout] at hagrees
      simp only [State.to, Function.update_self]
      exact (agrees_of_outside hout').mpr hagrees
    · simpa [State.to, hne] using hagrees

theorem Inv.lock (h : Inv P limit s) {e : Entry} (ht : s.phase t = .lock e) {mutex_ : Mutex τ}
    (hlock : (s.mutex_ = .free ∧ mutex_ = .held t 0) ∨
      ∃ again, s.mutex_ = .held t again ∧ mutex_ = .held t (again + 1)) :
    Inv P limit ({ s with mutex_ := mutex_ }.to t (.test e)) := by
  have hroom := (h.room t e ht).1
  obtain ⟨hfree, rfl⟩ | ⟨again, hheld, rfl⟩ := hlock
  · obtain ⟨hcount, hthread⟩ := h.free hfree
    have hnot : s.mutex_.holder ≠ some t := by
      rw [hfree]
      intro hsome
      cases hsome
    have hentered := (h.others t hnot).2
    refine h.update (.inr hfree) rfl rfl (Function.update_eq_self t s.entered).symm h.passed
      (fun _ => Phase.noConfusion) (by rw [hentered] at hroom; exact hroom) ?_
    refine ⟨?_, ?_, ?_⟩
    · change s.recursion_count_ + 1 = _
      rw [hcount]
      rfl
    · rw [hentered]
    · change s.thread_ = if s.recursion_count_ = 0 then _ else _
      rw [if_pos hcount, hthread]
  · obtain ⟨hcount, hentered, hthread⟩ : _ ∧ _ ∧ _ := by
      have hagrees := (h.held t again hheld).2
      rw [ht] at hagrees
      exact hagrees
    refine h.update (.inl (by rw [hheld]; rfl)) rfl rfl (Function.update_eq_self t s.entered).symm
      h.passed (fun _ => Phase.noConfusion) (by omega) ?_
    refine ⟨?_, ?_, ?_⟩
    · change s.recursion_count_ + 1 = _
      omega
    · omega
    · change s.thread_ = if s.recursion_count_ = 0 then _ else _
      rw [if_neg (by omega), hthread]

theorem Inv.unlock (h : Inv P limit s) (ht : s.phase t = .unlock) :
    Inv P limit ({ s with
      mutex_ := s.mutex_.unlock t
      entered := Function.update s.entered t (s.entered t - 1) }.to t (.out none)) := by
  obtain ⟨again, hheld, hfits, hcount, hentered, hthread⟩ := h.inside ht rfl
  cases again with
  | succ again =>
    have hunlock : s.mutex_.unlock t = .held t again := by rw [hheld, Mutex.unlock_held_succ]
    refine h.update (.inl (by rw [hheld]; rfl)) hunlock rfl rfl h.passed
      (fun _ => Phase.noConfusion) (by omega) ⟨?_, ?_, ?_⟩
    · change s.recursion_count_ = _
      omega
    · omega
    · rw [if_neg (by omega)] at hthread
      exact hthread
  | zero =>
    have hunlock : s.mutex_.unlock t = .free := by rw [hheld, Mutex.unlock_held_zero]
    have hzero : s.recursion_count_ = 0 := by omega
    rw [if_pos hzero] at hthread
    refine ⟨h.passed, fun u _ => ?_, fun u e hu => ?_, fun _ => ⟨hzero, hthread⟩,
        fun u again hu => ?_⟩
    · by_cases hne : u = t
      · subst hne
        simp [State.to, Phase.outside, hentered]
      · have hholder : s.mutex_.holder ≠ some u := by
          rw [hheld]
          exact fun hsome => hne (Option.some.inj hsome).symm
        simpa [State.to, hne] using h.others u hholder
    · by_cases hne : u = t
      · subst hne
        simp [State.to] at hu
      · simp only [State.to, Function.update_of_ne hne] at hu ⊢
        exact h.room u e hu
    · cases hunlock.symm.trans hu

/-- `MtxLock`. A thread that calls `Enter` has room in the mutex. -/
theorem Inv.goLock (h : Inv P limit s) (hphase : s.phase t = .lock .enter)
    (hs : go P limit s t = some s') : Inv P limit s' := by
  simp only [go, hphase, Option.map_eq_some_iff] at hs
  obtain ⟨⟨r, mutex_⟩, hlock, rfl⟩ := hs
  obtain ⟨hfree, -, rfl⟩ | ⟨again, hheld, -, -, rfl⟩ | ⟨again, hheld, hlimit, -, -⟩ :=
    Mutex.lock_cases hlock
  · exact h.lock hphase (.inl ⟨hfree, rfl⟩)
  · exact h.lock hphase (.inr ⟨again, hheld, rfl⟩)
  · have hagrees := (h.held t again hheld).2
    rw [hphase] at hagrees
    have hroom := (h.room t _ hphase).2 rfl
    have hentered := hagrees.2.1
    omega

theorem Inv.goTryLock (h : Inv P limit s) (hphase : s.phase t = .lock .tryEnter)
    (hs : go P limit s t = some s') : Inv P limit s' := by
  simp only [go, hphase, Option.some.injEq] at hs
  subst hs
  obtain ⟨hfree, hr, hm⟩ | ⟨again, hheld, -, hr, hm⟩ | ⟨hr, hm⟩ :=
    Mutex.tryLock_cases (Prod.mk.eta (p := s.mutex_.tryLock limit t)).symm
  · have hsuccess : ¬ (s.mutex_.tryLock limit t).1 ≠ kThrdSuccess := not_not_intro hr
    rw [if_neg hsuccess, hm]
    exact h.lock hphase (.inl ⟨hfree, rfl⟩)
  · have hsuccess : ¬ (s.mutex_.tryLock limit t).1 ≠ kThrdSuccess := not_not_intro hr
    rw [if_neg hsuccess, hm]
    exact h.lock hphase (.inr ⟨again, hheld, rfl⟩)
  · have hfail : (s.mutex_.tryLock limit t).1 ≠ kThrdSuccess := hr
    rw [if_pos hfail, hm]
    exact h.stayOut hphase rfl rfl fun _ => Phase.noConfusion

/-- **One step** inside a function. -/
theorem inv_go (h : Inv P limit s) (hs : go P limit s t = some s') : Inv P limit s' := by
  have hno {p : Phase} (hp : p.outside = false) (e : Entry) : p ≠ .lock e := by
    rintro rfl
    cases hp
  cases hphase : s.phase t with
  | out result => simp [go, hphase] at hs
  | lock e =>
    cases e with
    | enter => exact h.goLock hphase hs
    | tryEnter => exact h.goTryLock hphase hs
  | test e =>
    obtain ⟨again, hheld, -, hcount, hentered, hthread⟩ := h.inside hphase rfl
    simp only [go, hphase, Option.some.injEq] at hs
    subst hs
    split_ifs with hzero
    · rw [if_pos hzero] at hthread
      rw [State.dcheck, if_pos (decide_eq_true hthread)]
      exact h.to hheld (hno rfl) ⟨hzero, by omega, by omega⟩
    · rw [if_neg hzero] at hthread
      rw [State.dcheck, currentThreadIsOwner, if_pos ((P.thrdEqual_iff _ _).mpr hthread)]
      exact h.to hheld (hno rfl) ⟨hcount, hentered, hthread⟩
  | store e =>
    obtain ⟨again, hheld, -, hcount, hdepth, hentered⟩ := h.inside hphase rfl
    simp only [go, hphase, Option.some.injEq] at hs
    subst hs
    refine h.write hheld (hno rfl) ⟨?_, by omega, rfl⟩
    omega
  | count e =>
    obtain ⟨again, hheld, hfits, hcount, hentered, hthread⟩ := h.inside hphase rfl
    simp only [go, hphase, Option.some.injEq] at hs
    subst hs
    refine h.update (.inl (by rw [hheld]; rfl)) hheld rfl rfl h.passed (fun _ => Phase.noConfusion)
      hfits ⟨?_, hentered, hthread⟩
    change toInt32 (s.recursion_count_ + 1) = _
    rw [hcount, toInt32_of_mem (by omega) hfits]
  | check =>
    obtain ⟨again, hheld, -, hcount, hentered, hthread⟩ := h.inside hphase rfl
    simp only [go, hphase, Option.some.injEq] at hs
    subst hs
    rw [State.dcheck, currentThreadIsOwner, if_pos ((P.thrdEqual_iff _ _).mpr hthread)]
    exact h.to hheld (hno rfl) ⟨hcount, hentered, hthread⟩
  | discount =>
    obtain ⟨again, hheld, hfits, hcount, hentered, hthread⟩ := h.inside hphase rfl
    simp only [go, hphase, Option.some.injEq] at hs
    subst hs
    refine h.write hheld (hno rfl) ⟨?_, hentered, hthread⟩
    rw [toInt32_of_mem (by omega) (by omega)]
    omega
  | retest =>
    obtain ⟨again, hheld, -, hcount, hentered, hthread⟩ := h.inside hphase rfl
    simp only [go, hphase, Option.some.injEq] at hs
    subst hs
    rw [State.dcheck, if_pos (decide_eq_true (by omega))]
    split_ifs with hzero
    · exact h.to hheld (hno rfl) ⟨hzero, by omega, hentered⟩
    · refine h.to hheld (hno rfl) ⟨hcount, hentered, ?_⟩
      rw [if_neg hzero, hthread]
  | clear =>
    obtain ⟨again, hheld, -, hcount, hdepth, hentered⟩ := h.inside hphase rfl
    simp only [go, hphase, Option.some.injEq] at hs
    subst hs
    refine h.write hheld (hno rfl) ⟨?_, hentered, (if_pos hcount).symm⟩
    omega
  | unlock =>
    simp only [go, hphase, Option.some.injEq] at hs
    subst hs
    exact h.unlock hphase

theorem outside_of_isOut {p : Phase} (h : p.isOut = true) : p.outside = true := by
  cases p with
  | out result => rfl
  | _ => cases h

/-- **One step.** -/
theorem inv_step (h : Inv P limit s) {a : Act τ} (hroom : HasRoom limit s a)
    (hs : step P limit s a = some s') : Inv P limit s' := by
  unfold step at hs
  rw [h.passed, if_neg Bool.false_ne_true] at hs
  cases a with
  | enter t =>
    simp only [] at hs
    split_ifs at hs with hout
    cases hs
    refine h.stayOut rfl (outside_of_isOut hout) rfl fun e he => ?_
    cases he
    exact ⟨hroom.1, fun _ => hroom.2⟩
  | tryEnter t =>
    simp only [] at hs
    split_ifs at hs with hout
    cases hs
    refine h.stayOut rfl (outside_of_isOut hout) rfl fun e he => ?_
    cases he
    exact ⟨hroom, Entry.noConfusion⟩
  | leave t =>
    simp only [] at hs
    split_ifs at hs with hout
    cases hs
    have hholder : s.mutex_.holder = some t := by
      by_contra hne
      exact hout.2.ne' (h.others t hne).2
    obtain ⟨again, hheld⟩ := Mutex.eq_held hholder
    have hagrees := (h.held t again hheld).2
    rw [agrees_of_outside (outside_of_isOut hout.1)] at hagrees
    exact h.to hheld (fun _ => Phase.noConfusion) hagrees
  | go t => exact inv_go h hs

/-! ## Runs -/

theorem tryEnter_fails (ht : s.phase t = .lock .tryEnter) (hs : step P limit s (.go t) = some s')
    (hfail : s'.phase t = .out (some false)) :
    s' = { s with phase := Function.update s.phase t (.out (some false)) } := by
  unfold step at hs
  split_ifs at hs
  simp only [go, ht, Option.some.injEq] at hs
  subst hs
  by_cases hr : (s.mutex_.tryLock limit t).1 ≠ kThrdSuccess
  · obtain ⟨-, hzero, -⟩ | ⟨-, -, -, hzero, -⟩ | ⟨-, hm⟩ :=
      Mutex.tryLock_cases (Prod.mk.eta (p := s.mutex_.tryLock limit t)).symm
    · exact absurd hzero hr
    · exact absurd hzero hr
    · rw [if_pos hr, hm]
      rfl
  · rw [if_neg hr] at hfail
    simp [State.to] at hfail

/-- **The ownership bookkeeping is exact** as long as every call has room. No check fails; only the
holder of the mutex has entered; whenever no thread is in one of the functions,
`recursion_count_` and the enters of the holder are the depth of the mutex, and `thread_` is the
holder, or 0 exactly when the mutex is free; and a failing `TryEnter` changes nothing. -/
theorem ownership_exact {as : List (Act τ)} (h : exec (step P limit) init as = some s)
    (hroom : Along (step P limit) (HasRoom limit) init as) :
    s.failed = false ∧
    (∀ t, 0 < s.entered t → s.mutex_.holder = some t) ∧
    (∀ t u, 0 < s.entered t → 0 < s.entered u → t = u) ∧
    ((∀ t, (s.phase t).isOut = true) →
      s.recursion_count_ = s.mutex_.depth ∧
      (∀ t, s.mutex_.holder = some t →
        s.thread_ = P.thrdCurrent t ∧ s.entered t = s.mutex_.depth) ∧
      (s.thread_ = kNullThrd ↔ s.mutex_ = .free)) ∧
    ∀ t s', s.phase t = .lock .tryEnter → step P limit s (.go t) = some s' →
      s'.phase t = .out (some false) →
      s' = { s with phase := Function.update s.phase t (.out (some false)) } := by
  have hinv : Inv P limit s := invariant_along (Inv P limit)
    (fun _ _ _ hi hr hs => inv_step hi hr hs) init_inv h hroom
  have hholder : ∀ t, 0 < s.entered t → s.mutex_.holder = some t := by
    intro t ht
    by_contra hne
    exact ht.ne' (hinv.others t hne).2
  refine ⟨hinv.passed, hholder, fun t u ht hu => ?_, fun hout => ?_,
    fun t s' ht hs hfail => tryEnter_fails ht hs hfail⟩
  · exact Option.some.inj ((hholder t ht).symm.trans (hholder u hu))
  · cases hmutex : s.mutex_ with
    | free =>
      obtain ⟨hcount, hthread⟩ := hinv.free hmutex
      refine ⟨hcount, fun t ht => ?_, iff_of_true hthread rfl⟩
      cases ht
    | held t again =>
      have hagrees := (hinv.held t again hmutex).2
      rw [agrees_of_outside (outside_of_isOut (hout t))] at hagrees
      obtain ⟨hcount, hentered, hthread⟩ := hagrees
      refine ⟨hcount, fun u hu => ?_, iff_of_false ?_ fun hfree => ?_⟩
      · cases hu
        exact ⟨hthread, hentered⟩
      · rw [hthread]
        exact P.self_ne_null t
      · cases hfree

/-- Thread 0 enters, thread 1 tries in vain, thread 0 enters once more, thread 1 waits while
thread 0 leaves twice, and enters. -/
def handOver : List (Act ℕ) :=
  [.enter 0, .go 0, .go 0, .go 0, .go 0, .tryEnter 1, .go 1, .tryEnter 0, .go 0, .go 0, .go 0,
    .enter 1, .leave 0, .go 0, .go 0, .go 0, .go 0, .leave 0, .go 0, .go 0, .go 0, .go 0, .go 0,
    .go 1, .go 1, .go 1, .go 1]

theorem ownership_exact_sample : ∃ s,
    exec (step Pthreads.numbered (2 ^ 32 - 1)) init handOver = some s ∧ s.failed = false ∧
      s.mutex_.holder = some 1 := by
  have hroom :
      Along (step Pthreads.numbered (2 ^ 32 - 1)) (HasRoom (2 ^ 32 - 1)) init handOver := by
    decide
  refine ⟨_, rfl, ?_⟩
  have hexact := ownership_exact rfl hroom
  exact ⟨hexact.1, hexact.2.1 1 (by decide)⟩

/-! ## A depth beyond `int` -/

/-- Thread `t` has entered `n + 1` times, and no thread is in one of the functions. -/
def deep (P : Pthreads τ) (t : τ) (n : ℕ) : State τ where
  mutex_ := .held t n
  thread_ := P.thrdCurrent t
  recursion_count_ := toInt32 (n + 1)
  phase _ := .out none
  entered := Function.update (fun _ => 0) t (n + 1)
  failed := false

theorem deep_recursion_count (n : ℕ) : (deep P t n).recursion_count_ = toInt32 (n + 1) := by
  simp only [deep]

theorem exec_enter {n : ℕ} (hn : n + 1 < 2 ^ 31) (hlimit : n + 1 < limit) :
    exec (step P limit) (deep P t n) [.enter t, .go t, .go t, .go t] =
      some (deep P t (n + 1)) := by
  have hcount : toInt32 (n + 1) ≠ 0 := by
    rw [toInt32_of_mem (by omega) (by unfold intMax; omega)]
    omega
  simp [exec, step, go, deep, State.to, State.dcheck, Phase.isOut, Mutex.lock, Mutex.lockAgain,
    currentThreadIsOwner, P.thrdEqual_self, hlimit, hcount, Entry.result, toInt32_add]

theorem exec_deep (n : ℕ) (hn : n < 2 ^ 31) (hlimit : n < limit) :
    ∃ as, exec (step P limit) init as = some (deep P t n) := by
  induction n with
  | zero =>
    refine ⟨[.enter t, .go t, .go t, .go t, .go t], ?_⟩
    simp [exec, step, go, init, deep, State.to, State.dcheck, Phase.isOut, Mutex.lock, kNullThrd,
      Entry.result]
  | succ n ih =>
    obtain ⟨as, h⟩ := ih (by omega) (by omega)
    exact ⟨_, (exec_append h).trans (exec_enter hn hlimit)⟩

/-- After `2 ^ 31` calls of `Enter`, `recursion_count_` has wrapped around. -/
theorem recursion_count_wraps : ∃ as s,
    exec (step Pthreads.numbered (2 ^ 32 - 1)) init as = some s ∧
      (∀ t, (s.phase t).isOut = true) ∧ s.mutex_.depth = 2 ^ 31 ∧
      s.recursion_count_ = -2 ^ 31 := by
  have hlimit : 2 ^ 31 - 1 < 2 ^ 32 - 1 := by norm_num
  obtain ⟨as, h⟩ := exec_deep (P := Pthreads.numbered) (t := 0) (2 ^ 31 - 1) (by norm_num) hlimit
  refine ⟨as, _, h, fun _ => rfl, ?_, ?_⟩
  · rw [deep, Mutex.depth_held]
    norm_num
  · have hsum : (((2 ^ 31 - 1 : ℕ) : ℤ) + 1) = 2 ^ 31 := by norm_num
    rw [deep_recursion_count, hsum]
    decide

end CriticalSection

end RtcBase
