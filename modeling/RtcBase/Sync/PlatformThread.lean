import RtcBase.Lib.Run
import RtcBase.Lib.Word
import RtcBase.Sync.Thrd

/-!
# `PlatformThread`

One thread starts and stops a worker, in a release build. Every access to `stop_flag_` is a step,
and so is the join. `run_function_` says that there is a run function, and `faa` is the primitive
under `AtomicOps::Increment`.

* `thrd_create`, `start`, `stop`, `control`, `run`: the functions;
* `Good`: what the protocol promises of a state;
* `Ok`: the steps at which no `RTC_CHECK` fails;
* `inv_step`, `failed_of_not_ok`: a step that is `Ok`, and one that is not;
* `good_of_new_value`: the promise holds if the primitive returns the new value;
* `Unstopped`, **`good_iff_unstopped`**: with the primitive that returns the old one.
-/

namespace RtcBase

open Word Run

namespace PlatformThread

/-- `thrd_success`. -/
def thrd_success : ℤ := 0
/-- `thrd_error`. -/
def thrd_error : ℤ := -1
/-- `thrd_nomem`. -/
def thrd_nomem : ℤ := -4

/-- What `malloc` and `pthread_create` do. -/
inductive Creation where
  | noMemory
  | refused
  | created (thr : Thrd)
  deriving DecidableEq, Repr

/-- The result, and `*thr`. -/
def thrd_create (thr : Thrd) : Creation → ℤ × Thrd
  | .noMemory => (thrd_nomem, thr)
  | .refused => (thrd_error, kNullThrd)
  | .created thr => (if kNullThrd = thr then thrd_error else thrd_success, thr)

/-- `__sync_fetch_and_add`: the result is the old value. -/
def atomicVarFaa (i val : ℤ) : ℤ × ℤ := (i, toInt32 (i + val))

/-- The next step of the thread that starts and stops. -/
inductive Control where
  /-- In none of the functions. -/
  | idle
  | join
  /-- `AtomicOps::ReleaseStore(&stop_flag_, 0)`. -/
  | store
  /-- `thread_ = kNullThrd`. -/
  | clear
  deriving DecidableEq, Repr

/-- The next step of the worker. -/
inductive Worker where
  | absent
  /-- The loop body, or the call of the run function. -/
  | body
  /-- `while (!AtomicOps::AcquireLoad(&stop_flag_))`. -/
  | test
  | ended
  deriving DecidableEq, Repr

/-- The fields of the class, and where the two threads are. -/
structure State where
  thread_ : Thrd
  stop_flag_ : ℤ
  control : Control
  worker : Worker
  /-- How often each worker has run the body, the last worker first. -/
  passes : List ℕ
  /-- An `RTC_CHECK` has failed. -/
  failed : Bool
  deriving DecidableEq, Repr

/-- The constructor: there is no thread. -/
def init : State := ⟨kNullThrd, 0, .idle, .absent, [], false⟩

/-- A call of the program, or the next step of one of the threads. -/
inductive Act where
  | start (c : Creation)
  | stop
  | control
  | worker
  deriving DecidableEq, Repr

/-- `RTC_CHECK`, before what follows it. -/
def State.check (s : State) (condition : Bool) (s' : State) : State :=
  if condition then s' else { s with failed := true }

section Step

variable (run_function_ : Bool) (faa : ℤ → ℤ → ℤ × ℤ)

/-- `Start` where no thread runs: it creates one. -/
def start (s : State) (c : Creation) : State :=
  let created := thrd_create s.thread_ c
  s.check (thrd_success = created.1)
    (s.check (created.2 ≠ kNullThrd)
      { s with thread_ := created.2, worker := .body, passes := 0 :: s.passes })

/-- Whether there is a thread. -/
def isRunning (s : State) : Bool := s.thread_ ≠ kNullThrd

/-- `AtomicOps::Increment`: what it returns, and the new value. -/
def increment (i : ℤ) : ℤ × ℤ := faa i 1

/-- `Stop` up to `ThrdJoin`. -/
def stop (s : State) : State :=
  if !isRunning s then s
  else if !run_function_ then
    let incremented := increment faa s.stop_flag_
    let s' := { s with stop_flag_ := incremented.2 }
    s'.check (1 = incremented.1) { s' with control := .join }
  else { s with control := .join }

/-- The rest of `Stop`. The worker that has ended is gone once it is joined. -/
def control (s : State) : Option State :=
  match s.control with
  | .idle => none
  | .join =>
    if s.worker = .ended then
      some { s with worker := .absent, control := if !run_function_ then .store else .clear }
    else none
  | .store => some { s with stop_flag_ := 0, control := .clear }
  | .clear => some { s with thread_ := kNullThrd, control := .idle }

/-- `Run`. -/
def run (s : State) : Option State :=
  match s.worker with
  | .absent => none
  | .body =>
    some { s with
      passes := s.passes.modifyHead (· + 1)
      worker := if run_function_ then .ended else .test }
  | .test => some { s with worker := if s.stop_flag_ = 0 then .body else .ended }
  | .ended => none

/-- `Start` is only called while the thread is not running, and nothing runs after a failed
`RTC_CHECK`. -/
def step (s : State) (a : Act) : Option State :=
  if s.failed then none
  else
    match a with
    | .start c => if s.control = .idle ∧ !isRunning s then some (start s c) else none
    | .stop => if s.control = .idle then some (stop run_function_ faa s) else none
    | .control => control run_function_ s
    | .worker => run run_function_ s

/-! ## The promise -/

/-- What the protocol promises. -/
structure Good (s : State) : Prop where
  no_check_fails : s.failed = false
  /-- The body is run at least once for each `Start`. -/
  at_least_once : s.worker = .ended ∨ s.worker = .absent → ∀ n ∈ s.passes, 1 ≤ n
  /-- The worker is gone when `Stop` returns. -/
  has_left : s.control = .idle → s.thread_ = kNullThrd → s.worker = .absent
  flag_clear : s.control = .idle → s.stop_flag_ = 0

/-- No `RTC_CHECK` fails at the step. -/
def Ok (s : State) : Act → Prop
  | .start c => (thrd_create s.thread_ c).1 = thrd_success
  | .stop => s.thread_ = kNullThrd ∨ run_function_ = true ∨ (increment faa s.stop_flag_).1 = 1
  | .control => True
  | .worker => True

end Step

/-! ## The invariant -/

variable {run_function_ : Bool} {faa : ℤ → ℤ → ℤ × ℤ} {s s' : State} {a : Act}

/-- What `stop_flag_` and the worker are at each point of `Stop`. -/
def Stage (run_function_ : Bool) (s : State) : Prop :=
  match s.control with
  | .idle => s.stop_flag_ = 0 ∧ (s.thread_ = kNullThrd ↔ s.worker = .absent)
  | .join => s.worker ≠ .absent ∧ (run_function_ = true → s.stop_flag_ = 0)
  | .store => s.worker = .absent
  | .clear => s.worker = .absent ∧ s.stop_flag_ = 0

/-- Only the worker that is before the body may not have run it yet. -/
def Counted (s : State) : Prop :=
  match s.worker with
  | .body => ∀ n ∈ s.passes.tail, 1 ≤ n
  | _ => ∀ n ∈ s.passes, 1 ≤ n

/-- **The invariant**: no check has failed, and the two threads are at one stage. -/
structure Inv (run_function_ : Bool) (s : State) : Prop where
  no_check_fails : s.failed = false
  stage : Stage run_function_ s
  counted : Counted s

theorem inv_init : Inv run_function_ init where
  no_check_fails := rfl
  stage := ⟨rfl, iff_of_true rfl rfl⟩
  counted := fun _ hn => nomatch hn

theorem Inv.good (h : Inv run_function_ s) : Good s := by
  have hstage := h.stage
  have hcounted := h.counted
  constructor
  · exact h.no_check_fails
  · rintro (hw | hw) <;>
    · rw [Counted, hw] at hcounted
      exact hcounted
  · intro hc hthread
    rw [Stage, hc] at hstage
    exact hstage.2.mp hthread
  · intro hc
    rw [Stage, hc] at hstage
    exact hstage.1

theorem thrd_create_success {thr : Thrd} {c : Creation} (h : (thrd_create thr c).1 = thrd_success) :
    (thrd_create thr c).2 ≠ kNullThrd := by
  cases c with
  | noMemory => cases h
  | refused => cases h
  | created id =>
    intro hid
    change (if kNullThrd = id then thrd_error else thrd_success) = _ at h
    change id = kNullThrd at hid
    rw [if_pos hid.symm] at h
    cases h

theorem inv_start (h : Inv run_function_ s) {c : Creation} (hc : s.control = .idle)
    (hidle : s.thread_ = kNullThrd) (hok : (thrd_create s.thread_ c).1 = thrd_success) :
    Inv run_function_ (start s c) := by
  have hthread := thrd_create_success hok
  have hstart : start s c = { s with
      thread_ := (thrd_create s.thread_ c).2, worker := .body, passes := 0 :: s.passes } := by
    simp only [start, State.check, hok, hthread, ne_eq, not_false_eq_true, decide_true, if_true]
  have hstage := h.stage
  have hcounted := h.counted
  rw [Stage, hc] at hstage
  rw [Counted, hstage.2.mp hidle] at hcounted
  rw [hstart]
  constructor
  · exact h.no_check_fails
  · rw [Stage, hc]
    exact ⟨hstage.1, iff_of_false hthread Worker.noConfusion⟩
  · exact hcounted

theorem inv_stop (h : Inv run_function_ s) (hc : s.control = .idle)
    (hok : Ok run_function_ faa s .stop) : Inv run_function_ (stop run_function_ faa s) := by
  have hstage := h.stage
  rw [Stage, hc] at hstage
  by_cases hidle : s.thread_ = kNullThrd
  · rwa [stop, isRunning, if_pos (by simp [hidle])]
  have hworker : s.worker ≠ .absent := fun hw => hidle (hstage.2.mpr hw)
  rw [stop, isRunning, if_neg (by simp [hidle])]
  cases run_function_ with
  | true => exact ⟨h.no_check_fails, ⟨hworker, fun _ => hstage.1⟩, h.counted⟩
  | false =>
    obtain hok | hok | hone := hok
    · exact absurd hok hidle
    · cases hok
    · rw [if_pos (by decide), State.check, if_pos (by simp [hone])]
      exact ⟨h.no_check_fails, ⟨hworker, Bool.noConfusion⟩, h.counted⟩

theorem inv_control (h : Inv run_function_ s) (hs : control run_function_ s = some s') :
    Inv run_function_ s' := by
  have hstage := h.stage
  have hcounted := h.counted
  rw [Stage] at hstage
  rw [control] at hs
  cases hc : s.control with
  | idle => simp [hc] at hs
  | join =>
    simp only [hc] at hs hstage
    by_cases hended : s.worker = .ended
    · rw [if_pos hended] at hs
      rw [Counted, hended] at hcounted
      cases run_function_ with
      | false =>
        cases hs
        exact ⟨h.no_check_fails, rfl, hcounted⟩
      | true =>
        cases hs
        exact ⟨h.no_check_fails, ⟨rfl, hstage.2 rfl⟩, hcounted⟩
    · rw [if_neg hended] at hs
      cases hs
  | store =>
    simp only [hc] at hs hstage
    cases hs
    exact ⟨h.no_check_fails, ⟨hstage, rfl⟩, hcounted⟩
  | clear =>
    simp only [hc] at hs hstage
    cases hs
    exact ⟨h.no_check_fails, ⟨hstage.2, iff_of_true rfl hstage.1⟩, hcounted⟩

/-- A pass of the worker that may not have passed yet. -/
theorem one_le_of_mem_modifyHead {ns : List ℕ} (h : ∀ n ∈ ns.tail, 1 ≤ n) :
    ∀ n ∈ ns.modifyHead (· + 1), 1 ≤ n := by
  cases ns with
  | nil =>
    intro n hn
    cases hn
  | cons m ns =>
    intro n hn
    obtain rfl | hn := List.mem_cons.mp hn
    · exact Nat.le_add_left 1 m
    · exact h n hn

theorem inv_run (h : Inv run_function_ s) (hs : run run_function_ s = some s') :
    Inv run_function_ s' := by
  have hcounted := h.counted
  rw [Counted] at hcounted
  rw [run] at hs
  have hmoved {w : Worker} {passes : List ℕ} (hw : s.worker ≠ .absent) (hw' : w ≠ .absent) :
      Stage run_function_ { s with passes := passes, worker := w } := by
    have hstage := h.stage
    rw [Stage] at hstage ⊢
    cases hc : s.control with
    | idle =>
      simp only [hc] at hstage ⊢
      exact ⟨hstage.1, hstage.2.trans (iff_of_false hw hw')⟩
    | join =>
      simp only [hc] at hstage ⊢
      exact ⟨hw', hstage.2⟩
    | store =>
      simp only [hc] at hstage
      exact absurd hstage hw
    | clear =>
      simp only [hc] at hstage
      exact absurd hstage.1 hw
  cases hw : s.worker with
  | absent => simp [hw] at hs
  | ended => simp [hw] at hs
  | body =>
    simp only [hw] at hs hcounted
    have hpasses := one_le_of_mem_modifyHead hcounted
    have hw' : s.worker ≠ .absent := by simp [hw]
    cases run_function_ with
    | true =>
      cases hs
      exact ⟨h.no_check_fails, hmoved hw' (by decide), hpasses⟩
    | false =>
      cases hs
      exact ⟨h.no_check_fails, hmoved hw' (by decide), hpasses⟩
  | test =>
    simp only [hw] at hs hcounted
    have hw' : s.worker ≠ .absent := by simp [hw]
    split_ifs at hs <;> cases hs
    · exact ⟨h.no_check_fails, hmoved hw' (by decide), fun n hn =>
        hcounted n (List.mem_of_mem_tail hn)⟩
    · exact ⟨h.no_check_fails, hmoved hw' (by decide), hcounted⟩

theorem inv_step (h : Inv run_function_ s) (hok : Ok run_function_ faa s a)
    (hs : step run_function_ faa s a = some s') : Inv run_function_ s' := by
  unfold step at hs
  rw [h.no_check_fails, if_neg Bool.false_ne_true] at hs
  cases a with
  | start c =>
    simp only at hs
    split_ifs at hs with hidle
    cases hs
    exact inv_start h hidle.1 (by simpa [isRunning] using hidle.2) hok
  | stop =>
    simp only at hs
    split_ifs at hs with hidle
    cases hs
    exact inv_stop h hidle hok
  | control => exact inv_control h hs
  | worker => exact inv_run h hs

theorem failed_of_not_ok (hok : ¬ Ok run_function_ faa s a)
    (hs : step run_function_ faa s a = some s') : s'.failed = true := by
  cases a with
  | start c =>
    simp only [step] at hs
    split_ifs at hs
    cases hs
    rw [start, State.check, if_neg]
    rw [decide_eq_true_iff]
    exact fun hsuccess => hok hsuccess.symm
  | stop =>
    simp only [step] at hs
    split_ifs at hs
    cases hs
    obtain ⟨hthread, hfunction, hone⟩ : s.thread_ ≠ kNullThrd ∧ run_function_ = false ∧
        (increment faa s.stop_flag_).1 ≠ 1 := by
      simpa only [Ok, not_or, Bool.not_eq_true] using hok
    rw [stop, isRunning, if_neg (by simp [hthread]), if_pos (by simp [hfunction]), State.check,
      if_neg (by simpa [eq_comm] using hone)]
  | control => exact absurd trivial hok
  | worker => exact absurd trivial hok

/-! ## Runs -/

/-- Every thread can be created. -/
def Creates : Act → Prop
  | .start c => (thrd_create kNullThrd c).1 = thrd_success
  | _ => True

theorem thrd_create_fst (thr thr' : Thrd) (c : Creation) :
    (thrd_create thr c).1 = (thrd_create thr' c).1 := by
  cases c <;> rfl

/-- The protocol is kept by a primitive that returns the new value, and where there is a run
function. -/
theorem good_of_new_value (hnew : run_function_ = true ∨ (increment faa 0).1 = 1) {as : List Act}
    (hcreates : ∀ a ∈ as, Creates a) : Always (step run_function_ faa) Good init as := by
  refine always_of_along (Inv run_function_) Good (fun _ => Inv.good) ?_ inv_init
    (along_of_forall hcreates)
  intro s a s' hinv ha hs
  refine inv_step hinv ?_ hs
  cases a with
  | start c => exact (thrd_create_fst _ _ c).trans ha
  | stop =>
    simp only [step] at hs
    split_ifs at hs with _ hidle
    have hzero : s.stop_flag_ = 0 := hinv.good.flag_clear hidle
    rw [Ok, hzero]
    exact Or.inr hnew
  | control => trivial
  | worker => trivial

/-- Every thread is created, and none is stopped while it runs. -/
def Unstopped (s : State) : Act → Prop
  | .start c => (thrd_create s.thread_ c).1 = thrd_success
  | .stop => s.thread_ = kNullThrd
  | .control => True
  | .worker => True

instance (s : State) : ∀ a, Decidable (Unstopped s a)
  | .start c => inferInstanceAs (Decidable ((thrd_create s.thread_ c).1 = thrd_success))
  | .stop => inferInstanceAs (Decidable (s.thread_ = kNullThrd))
  | .control => isTrue trivial
  | .worker => isTrue trivial

/-- In a state of the protocol, `Increment` returns 0. -/
theorem ok_iff_unstopped (h : Inv false s) (hs : step false atomicVarFaa s a = some s') :
    Ok false atomicVarFaa s a ↔ Unstopped s a := by
  cases a with
  | start c => exact Iff.rfl
  | stop =>
    simp only [step] at hs
    split_ifs at hs with _ hidle
    have hzero : s.stop_flag_ = 0 := h.good.flag_clear hidle
    rw [Ok, hzero]
    refine ⟨fun hok => ?_, Or.inl⟩
    obtain hthread | hfunction | hone := hok
    · exact hthread
    · cases hfunction
    · exact absurd hone zero_ne_one
  | control => exact Iff.rfl
  | worker => exact Iff.rfl

/-- **The protocol is kept as long as no running thread is stopped.** `atomicVarFaa` returns the
old value of `stop_flag_`, which is 0, so the first `RTC_CHECK` of `Stop` fails. -/
theorem good_iff_unstopped {as : List Act} (h : exec (step false atomicVarFaa) init as = some s) :
    Always (step false atomicVarFaa) Good init as ↔
      Along (step false atomicVarFaa) Unstopped init as := by
  have hK : Along (step false atomicVarFaa) (fun _ _ => True) init as :=
    along_of_forall fun _ _ => trivial
  refine always_iff_along _ (Inv false) Good (fun _ => Inv.good) ?_ ?_ inv_init h hK
  · intro s a s' hinv _ hok hs
    exact inv_step hinv ((ok_iff_unstopped hinv hs).mpr hok) hs
  · intro s a s' hinv _ hok hs hgood
    have hfailed := failed_of_not_ok (fun hno => hok ((ok_iff_unstopped hinv hs).mp hno)) hs
    exact Bool.noConfusion (hgood.no_check_fails.symm.trans hfailed)

/-- A worker that goes through its loop twice. -/
theorem good_iff_unstopped_sample : Always (step false atomicVarFaa) Good init
    [.stop, .start (.created 7), .worker, .worker, .worker] := by
  have h : exec (step false atomicVarFaa) init
      [.stop, .start (.created 7), .worker, .worker, .worker] =
        some ⟨7, 0, .idle, .test, [2], false⟩ := by
    decide
  exact (good_iff_unstopped h).mpr (by decide)

/-- `Start`, and then `Stop`. -/
theorem stop_fails : ∃ s,
    exec (step false atomicVarFaa) init [.start (.created 7), .stop] = some s ∧
      s.failed = true ∧ ¬ Good s := by
  refine ⟨⟨7, 1, .idle, .body, [0], true⟩, by decide, rfl, fun hgood => ?_⟩
  exact Bool.noConfusion hgood.no_check_fails

end PlatformThread

end RtcBase
