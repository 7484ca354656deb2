import RtcBase.Lib.Run
import RtcBase.Lib.Word
import RtcBase.Sync.Thrd

/-!
# `RaceChecker`

Any number of threads open and close scopes, each in the order of a stack. `Acquire` and `Release`
are one step each. `access_count_` is an `int`; its overflow is undefined, and taken to wrap around.

* `RaceChecker`, `acquire`, `release`: the checker;
* `Scope`, `State`, `step`: the scopes that are open, the last one first;
* `Alone`: no two threads have scopes open;
* `acquire_of_alone`, `acquire_of_other`: what `Acquire` returns while no scopes have overlapped;
* `HasRoom`, `Fits`: the runs that keep the counter within `int`;
* **`first_overlap`**: the same over these runs.
-/

namespace RtcBase

open Word Run

/-- The two fields of the class. -/
structure RaceChecker where
  access_count_ : ℤ
  accessing_thread_ : Thrd
  deriving DecidableEq, Repr

namespace RaceChecker

/-- A scope of the thread, and whether its constructor's `Acquire` returned true. -/
structure Scope (τ : Type) where
  thread : τ
  race_check_ok_ : Bool
  deriving DecidableEq, Repr

/-- The checker, and the scopes that are open. -/
structure State (τ : Type) where
  checker : RaceChecker
  scopes : List (Scope τ)
  deriving DecidableEq

/-- `accessing_thread_` is not initialised. -/
def init {τ : Type} (garbage : Thrd) : State τ := ⟨⟨0, garbage⟩, []⟩

/-- A thread opens a scope, or leaves the last one that it has opened. -/
inductive Act (τ : Type) where
  | enter (t : τ)
  | leave (t : τ)
  deriving DecidableEq, Repr

variable {τ : Type}

/-- The first of the open scopes notes its thread, and every one compares with it. -/
def acquire (P : Pthreads τ) (c : RaceChecker) (t : τ) : Bool × RaceChecker :=
  let current_thread := P.thrdCurrent t
  let accessing_thread := if c.access_count_ = 0 then current_thread else c.accessing_thread_
  (P.thrdEqual accessing_thread current_thread,
    ⟨toInt32 (c.access_count_ + 1), accessing_thread⟩)

/-- A scope is left. -/
def release (c : RaceChecker) : RaceChecker :=
  { c with access_count_ := toInt32 (c.access_count_ - 1) }

/-- The constructor and the destructor of `RaceCheckerScope`. -/
def step [DecidableEq τ] (P : Pthreads τ) (s : State τ) : Act τ → Option (State τ)
  | .enter t =>
    let acquired := acquire P s.checker t
    some ⟨acquired.2, ⟨t, acquired.1⟩ :: s.scopes⟩
  | .leave t =>
    if s.scopes.any (·.thread = t) then
      some ⟨release s.checker, s.scopes.eraseP (·.thread = t)⟩
    else none

/-! ## The counter -/

variable {P : Pthreads τ} {s s' : State τ} {t : τ}

/-- The count is that of the open scopes. -/
def Counts (s : State τ) : Prop := s.checker.access_count_ = toInt32 s.scopes.length

theorem counts_step [DecidableEq τ] (h : Counts s) {a : Act τ} (hs : step P s a = some s') :
    Counts s' := by
  cases a with
  | enter t =>
    cases hs
    rw [Counts, List.length_cons, Nat.cast_add_one, ← toInt32_add, ← h]
    rfl
  | leave t =>
    simp only [step] at hs
    split_ifs at hs with hany
    cases hs
    have hlen : 0 < s.scopes.length := by
      obtain ⟨sc, hsc, -⟩ := List.any_eq_true.mp hany
      exact List.length_pos_of_mem hsc
    rw [Counts, List.length_eraseP, if_pos hany, Nat.cast_pred hlen, sub_eq_add_neg,
      ← toInt32_add, ← h]
    rfl

theorem counts_init (garbage : Thrd) : Counts (init garbage : State τ) := toInt32_zero.symm

/-! ## Scopes that do not overlap -/

/-- No two threads have scopes open. -/
def Alone (s : State τ) : Prop := ∀ sc ∈ s.scopes, ∀ sc' ∈ s.scopes, sc.thread = sc'.thread

instance [DecidableEq τ] (s : State τ) : Decidable (Alone s) :=
  inferInstanceAs (Decidable (∀ sc ∈ s.scopes, ∀ sc' ∈ s.scopes, _))

/-- If a scope is open, then its thread is the one that is noted. -/
structure Noted (P : Pthreads τ) (s : State τ) : Prop where
  counts : Counts s
  noted : ∀ sc ∈ s.scopes, s.checker.accessing_thread_ = P.thrdCurrent sc.thread

theorem noted_of_idle (hcounts : Counts s) (hidle : s.scopes = []) : Noted P s :=
  ⟨hcounts, fun sc hsc => by rw [hidle] at hsc; cases hsc⟩

theorem noted_acquire (h : Noted P s) (halone : ∀ sc ∈ s.scopes, sc.thread = t) :
    (acquire P s.checker t).2.accessing_thread_ = P.thrdCurrent t := by
  change (if s.checker.access_count_ = 0 then P.thrdCurrent t else s.checker.accessing_thread_) = _
  split_ifs with hzero
  · rfl
  · -- the counter is not 0, so a scope is open
    cases hscopes : s.scopes with
    | nil =>
      rw [h.counts, hscopes] at hzero
      exact absurd toInt32_zero hzero
    | cons sc scopes =>
      have hsc : sc ∈ s.scopes := by
        rw [hscopes]
        exact List.mem_cons_self
      rw [h.noted sc hsc, halone sc hsc]

theorem noted_step [DecidableEq τ] (h : Noted P s) {a : Act τ} (halone : Alone s')
    (hs : step P s a = some s') : Noted P s' := by
  refine ⟨counts_step h.counts hs, ?_⟩
  cases a with
  | enter t =>
    cases hs
    have hthread : ∀ sc ∈ s.scopes, sc.thread = t := fun sc hsc =>
      halone sc (List.mem_cons_of_mem _ hsc) _ List.mem_cons_self
    intro sc hsc
    obtain rfl | hsc := List.mem_cons.mp hsc
    · exact noted_acquire h hthread
    · rw [hthread sc hsc]
      exact noted_acquire h hthread
  | leave t =>
    simp only [step] at hs
    split_ifs at hs
    cases hs
    intro sc hsc
    exact h.noted sc (List.mem_of_mem_eraseP hsc)

theorem acquire_of_alone (h : Noted P s) (halone : ∀ sc ∈ s.scopes, sc.thread = t) :
    (acquire P s.checker t).1 = true :=
  (P.thrdEqual_iff _ _).mpr (noted_acquire h halone)

/-- A scope of another thread is noticed unless the counter has wrapped around to 0. -/
theorem acquire_of_other (h : Noted P s) {sc : Scope τ} (hsc : sc ∈ s.scopes)
    (hne : sc.thread ≠ t) : (acquire P s.checker t).1 = false ↔ ¬ 2 ^ 32 ∣ s.scopes.length := by
  have hother : P.thrdEqual (P.thrdCurrent sc.thread) (P.thrdCurrent t) = false := by
    rw [Bool.eq_false_iff, Ne, P.thrdEqual_iff, P.thrdCurrent_inj]
    exact hne
  have hzero : s.checker.access_count_ = 0 ↔ 2 ^ 32 ∣ s.scopes.length := by
    rw [h.counts, toInt32_eq_zero_iff]
    norm_cast
  change P.thrdEqual (if s.checker.access_count_ = 0 then P.thrdCurrent t else
    s.checker.accessing_thread_) (P.thrdCurrent t) = false ↔ _
  rw [h.noted sc hsc, ← hzero]
  split_ifs with hcount
  · rw [P.thrdEqual_self]
    exact iff_of_false Bool.noConfusion fun hno => hno hcount
  · exact iff_of_true hother hcount

/-! ## Runs -/

/-- `Acquire` finds less than `INT_MAX` open scopes. -/
def HasRoom (s : State τ) : Act τ → Prop
  | .enter _ => (s.scopes.length : ℤ) < intMax
  | .leave _ => True

instance (s : State τ) : ∀ a, Decidable (HasRoom s a)
  | .enter _ => inferInstanceAs (Decidable (_ < _))
  | .leave _ => isTrue trivial

/-- The open scopes can be counted in an `int`. -/
structure Fits (s : State τ) : Prop where
  counts : Counts s
  le : (s.scopes.length : ℤ) ≤ intMax

theorem fits_init (garbage : Thrd) : Fits (init garbage : State τ) :=
  ⟨counts_init garbage, (by decide : (0 : ℤ) ≤ intMax)⟩

theorem Fits.access_count (h : Fits s) : s.checker.access_count_ = s.scopes.length := by
  have hle := h.le
  rw [h.counts, toInt32_of_mem (by omega) hle]

theorem Fits.not_dvd (h : Fits s) {sc : Scope τ} (hsc : sc ∈ s.scopes) :
    ¬ 2 ^ 32 ∣ s.scopes.length := by
  have hle := h.le
  have hpos := List.length_pos_of_mem hsc
  unfold intMax at hle
  exact Nat.not_dvd_of_pos_of_lt hpos (by omega)

theorem fits_step [DecidableEq τ] (h : Fits s) {a : Act τ} (hroom : HasRoom s a)
    (hs : step P s a = some s') : Fits s' := by
  refine ⟨counts_step h.counts hs, ?_⟩
  cases a with
  | enter t =>
    cases hs
    have hlt : (s.scopes.length : ℤ) < intMax := hroom
    rw [List.length_cons, Nat.cast_add_one]
    omega
  | leave t =>
    simp only [step] at hs
    split_ifs at hs
    cases hs
    have hle := h.le
    have herase := List.length_eraseP_le (l := s.scopes) (p := (·.thread = t))
    simp only
    omega

theorem fits_exec [DecidableEq τ] {as : List (Act τ)} (hfits : Fits s)
    (h : exec (step P) s as = some s') (hroom : Along (step P) HasRoom s as) : Fits s' :=
  invariant_along Fits (fun _ _ _ hf hr hs => fits_step hf hr hs) hfits h hroom

/-- **The first overlap is found, and no other alarm is raised**, while at most `INT_MAX` scopes are
open. Since a moment at which no scope was open, no two threads have had scopes open at once. Then
`Acquire` returns true to a thread that no other has a scope open beside, and false to one that
another has. The counter is the number of open scopes, so it is 0 whenever all are closed. -/
theorem first_overlap [DecidableEq τ] {garbage : Thrd} {as : List (Act τ)}
    (h : exec (step P) (init garbage) as = some s)
    (hroom : Along (step P) HasRoom (init garbage) as) :
    s.checker.access_count_ = s.scopes.length ∧
    (s.scopes = [] → s.checker.access_count_ = 0) ∧
    ∀ as' s', s.scopes = [] → exec (step P) s as' = some s' → Along (step P) HasRoom s as' →
      Always (step P) Alone s as' → ∀ t, HasRoom s' (.enter t) →
        ((∀ sc ∈ s'.scopes, sc.thread = t) → (acquire P s'.checker t).1 = true) ∧
        ∀ sc ∈ s'.scopes, sc.thread ≠ t → (acquire P s'.checker t).1 = false := by
  have hfits : Fits s := fits_exec (fits_init garbage) h hroom
  refine ⟨hfits.access_count, fun hidle => ?_, fun as' s' hidle h' hroom' halone t _ => ?_⟩
  · rw [hfits.access_count, hidle]
    rfl
  · have hfits' : Fits s' := fits_exec hfits h' hroom'
    have hnoted : Noted P s' := invariant_of_always Alone (Noted P)
      (fun _ _ _ hn ha hs => noted_step hn ha hs) (noted_of_idle hfits.counts hidle) h' halone
    exact ⟨fun ht => acquire_of_alone hnoted ht,
      fun sc hsc hne => (acquire_of_other hnoted hsc hne).mpr (hfits'.not_dvd hsc)⟩

/-- Two nested scopes of one thread, closed, and two of another. -/
theorem first_overlap_sample :
    ∃ s s',
      exec (step Pthreads.numbered) (init 7) [.enter 0, .enter 0, .leave 0, .leave 0] = some s ∧
      exec (step Pthreads.numbered) s [.enter 1, .enter 1] = some s' ∧
      s.checker.access_count_ = 0 ∧ (acquire Pthreads.numbered s'.checker 1).1 = true ∧
      (acquire Pthreads.numbered s'.checker 0).1 = false := by
  have h : exec (step Pthreads.numbered) (init 7) [.enter 0, .enter 0, .leave 0, .leave 0] =
      some ⟨⟨0, 1⟩, []⟩ := by
    decide
  have h' : exec (step Pthreads.numbered) ⟨⟨0, 1⟩, []⟩ [.enter 1, .enter 1] =
      some ⟨⟨2, 2⟩, [⟨1, true⟩, ⟨1, true⟩]⟩ := by
    decide
  obtain ⟨-, hidle, hoverlap⟩ := first_overlap h (by decide)
  have hlast := hoverlap _ _ rfl h' (by decide) (by decide)
  refine ⟨_, _, h, h', hidle rfl, (hlast 1 (by decide)).1 (by decide), ?_⟩
  exact (hlast 0 (by decide)).2 ⟨1, true⟩ (by decide) (by decide)

/-! ## A counter that wraps around -/

/-- `n` scopes of thread `t`. -/
def nested (P : Pthreads τ) (garbage : Thrd) (t : τ) (n : ℕ) : State τ :=
  ⟨⟨toInt32 n, if n = 0 then garbage else P.thrdCurrent t⟩, List.replicate n ⟨t, true⟩⟩

theorem noted_nested (garbage : Thrd) (n : ℕ) : Noted P (nested P garbage t n) := by
  constructor
  · rw [Counts, nested, List.length_replicate]
  · intro sc hsc
    obtain ⟨hn, rfl⟩ := List.mem_replicate.mp hsc
    exact if_neg hn

theorem step_nested [DecidableEq τ] (garbage : Thrd) (n : ℕ) :
    step P (nested P garbage t n) (.enter t) = some (nested P garbage t (n + 1)) := by
  have hnoted := noted_nested (P := P) (t := t) garbage n
  have hthread : ∀ sc ∈ (nested P garbage t n).scopes, sc.thread = t := fun sc hsc => by
    rw [List.eq_of_mem_replicate hsc]
  have hok := acquire_of_alone hnoted hthread
  have haccessing := noted_acquire hnoted hthread
  have hcount : (acquire P (nested P garbage t n).checker t).2.access_count_ =
      toInt32 (n + 1 : ℕ) := by
    simp only [acquire, nested, toInt32_add, Nat.cast_add_one]
  have hacquired : acquire P (nested P garbage t n).checker t =
      (true, ⟨toInt32 (n + 1 : ℕ), P.thrdCurrent t⟩) :=
    Prod.ext hok (by rw [← hcount, ← haccessing])
  rw [step, hacquired, nested, nested, if_neg (Nat.succ_ne_zero n), List.replicate_succ]

theorem alone_nested (garbage : Thrd) (n : ℕ) : Alone (nested P garbage t n) := by
  intro sc hsc sc' hsc'
  rw [List.eq_of_mem_replicate hsc, List.eq_of_mem_replicate hsc']

theorem exec_nested [DecidableEq τ] (garbage : Thrd) (n m : ℕ) :
    exec (step P) (nested P garbage t n) (List.replicate m (.enter t)) =
        some (nested P garbage t (n + m)) ∧
      Always (step P) Alone (nested P garbage t n) (List.replicate m (.enter t)) := by
  induction m generalizing n with
  | zero => exact ⟨rfl, alone_nested garbage n⟩
  | succ m ih =>
    have hrest := ih (n + 1)
    rw [List.replicate_succ, exec, step_nested, Option.bind_some]
    refine ⟨?_, alone_nested garbage n, fun s' hs' => ?_⟩
    · rw [hrest.1, Nat.add_right_comm, Nat.add_assoc]
    · obtain rfl : _ = s' := Option.some.inj ((step_nested garbage n).symm.trans hs')
      exact hrest.2

/-- While `2 ^ 32` scopes of one thread are open, another thread's `Acquire` returns true. -/
theorem overlap_missed : ∃ s : State ℕ,
    exec (step Pthreads.numbered) (init 7) (List.replicate (2 ^ 32) (.enter 0)) = some s ∧
      Always (step Pthreads.numbered) Alone (init 7) (List.replicate (2 ^ 32) (.enter 0)) ∧
      (∃ sc ∈ s.scopes, sc.thread ≠ 1) ∧ (acquire Pthreads.numbered s.checker 1).1 = true := by
  have hinit : nested Pthreads.numbered 7 0 0 = init 7 := by
    rw [nested, Nat.cast_zero, toInt32_zero]
    rfl
  have h := exec_nested (P := Pthreads.numbered) (t := 0) 7 0 (2 ^ 32)
  rw [hinit] at h
  refine ⟨_, h.1, h.2, ⟨⟨0, true⟩, ?_, by decide⟩, ?_⟩
  · exact List.mem_replicate.mpr ⟨by norm_num, rfl⟩
  · have hzero : toInt32 ((0 + 2 ^ 32 : ℕ) : ℤ) = 0 := (toInt32_eq_zero_iff _).mpr (by norm_num)
    rw [acquire, nested, hzero]
    rfl

end RaceChecker

end RtcBase
