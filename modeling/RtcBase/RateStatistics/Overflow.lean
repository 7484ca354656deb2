import RtcBase.Lib.Run
import RtcBase.RateStatistics.Run

/-!
# `RateStatistics` past an overflow

A count that does not fit `accumulated_count_` goes into its bucket only, and is subtracted from
`accumulated_count_` when the bucket is culled.

* `Exact`, `Sound`: what a call should do to sums that do not fit;
* `Ledger`: the samples, and the sum of the counts that were left out;
* `Fits`: what is left after the culling makes up for what was left out, and no sum is at the edge;
* `Owes`: `accumulated_count_` is the sum of the samples but for what was left out;
* **`sound_iff_fits`**: in every run, all calls are sound if and only if they all fit.
-/

namespace RtcBase

open Word Run

namespace RateStatistics

open Window

/-! ## Sound calls -/

/-- The subtractions of every turn of the culling loop stay in an `int64_t`. -/
def eraseLoopExact : ℕ → ℤ → RateStatistics → Prop
  | 0, _, _ => True
  | n + 1, new_oldest_time, s =>
    0 < s.num_samples_ ∧ s.oldest_time_ < new_oldest_time →
      IsInt64 (s.accumulated_count_ - (s.bucket s.oldest_index_).sum) ∧
        eraseLoopExact n new_oldest_time s.popOldest

/-- No sum in `EraseOld` leaves its type. -/
def eraseOldExact (s : RateStatistics) (now_ms : ℤ) : Prop :=
  s.isInitialized = true →
    eraseLoopExact (now_ms - s.current_window_size_ms_ + 1 - s.oldest_time_).toNat
      (now_ms - s.current_window_size_ms_ + 1) s

/-- The sums and the difference in the second half of `Update` stay in an `int64_t`. -/
structure AddExact (s : RateStatistics) (count now_ms : ℤ) : Prop where
  bucket : IsInt64 ((s.bucket (s.updateIndex now_ms)).sum + count)
  room : IsInt64 (int64Max - s.accumulated_count_)
  accumulated : count < int64Max - s.accumulated_count_ → IsInt64 (s.accumulated_count_ + count)

/-- No addition or subtraction on the way of an operation leaves an `int64_t`. -/
def Exact (s : RateStatistics) : Op → Prop
  | .update count now => now < s.oldest_time_ ∨
      (s.eraseOldExact now ∧ ((s.eraseOld now).startAt now).AddExact count now)
  | .rate now => s.eraseOldExact now
  | .setWindowSize w now => (w ≤ 0 ∨ s.max_window_size_ms_ < w) ∨
      { s with current_window_size_ms_ := w }.eraseOldExact now
  | .reset => True

/-- What `overflow_` should be after an operation, for the samples `r` before it. -/
def Overflows (s : RateStatistics) (r : Window) : Op → Prop
  | .update count now => s.overflow_ = true ∨ int64Max < total (r.update count now).samples
  | .reset => False
  | _ => s.overflow_ = true

/-- No `RTC_DCHECK` fails, no sum overflows, and `overflow_` tells when the samples do. -/
structure Sound (s : RateStatistics) (r : Window) (op : Op) : Prop where
  checks : s.checks op = true
  exact : s.Exact op
  overflow : (s.apply op).overflow_ = true ↔ s.Overflows r op

end RateStatistics

/-! ## The ledger -/

open RateStatistics (Op)

/-- The samples, and the sum of the counts that `Update` has left out of `accumulated_count_`. -/
structure Ledger where
  window : Window
  leftOut : ℤ

namespace Ledger

/-- Nothing has been left out. -/
def init (W : ℤ) : Ledger := ⟨Window.init W, 0⟩

/-- What `accumulated_count_` should be. -/
def accumulated (l : Ledger) : ℤ := Window.total l.window.samples - l.leftOut

/-- A count is left out if the sum would reach the largest `int64_t`. -/
def enter (l : Ledger) (count now : ℤ) : Ledger where
  window := { l.window with
    oldest := some (l.window.oldest.getD now)
    samples := l.window.samples ++ [(now, count)]
    accepted := l.window.accepted + 1 }
  leftOut := if count < int64Max - l.accumulated then l.leftOut else l.leftOut + count

/-- A sample that is accepted. -/
def update (l : Ledger) (count now : ℤ) : Ledger :=
  if ∃ o ∈ l.window.oldest, now < o then l
  else { l with window := l.window.eraseOld now }.enter count now

/-- A call on the ledger. -/
def apply (W : ℤ) (l : Ledger) : Op → Ledger
  | .update count now => l.update count now
  | .reset => init W
  | op => { l with window := l.window.apply W op }

/-- The samples that are left make up for what was left out. -/
def Covers (l : Ledger) (r : Window) : Prop := l.leftOut ≤ Window.total r.samples

instance (l : Ledger) (r : Window) : Decidable (l.Covers r) :=
  inferInstanceAs (Decidable (l.leftOut ≤ Window.total r.samples))

/-- The counts of no millisecond sum to more than an `int64_t`, and those of all, as long as none
was left out, do not sum to just the largest one. -/
structure Room (l : Ledger) (r : Window) (count now : ℤ) : Prop where
  covers : l.Covers r
  bucket : (Window.mass r.samples now).sum + count ≤ int64Max
  edge : l.leftOut = 0 → Window.total r.samples + count ≠ int64Max

/-- The call keeps the sums in their types. -/
def Fits (W : ℤ) (l : Ledger) : Op → Prop
  | .update count now => (∃ o ∈ l.window.oldest, now < o) ∨
      l.Room (l.window.eraseOld now) count now
  | .reset => True
  | op => l.Covers (l.window.apply W op)

end Ledger

/-! ## The invariant -/

/-- **The sum of the samples but for what was left out.** -/
structure Owes (W : ℤ) (s : RateStatistics) (l : Ledger) : Prop where
  holds : Holds W s l.window
  nonneg : ∀ p ∈ l.window.samples, 0 ≤ p.2
  length : (l.window.samples.length : ℤ) ≤ intMax
  buckets : ∀ t, (Window.mass l.window.samples t).sum ≤ int64Max
  accumulated : s.accumulated_count_ = l.accumulated
  room : 0 ≤ l.accumulated ∧ l.accumulated < int64Max
  leftOut : 0 ≤ l.leftOut
  overflow : s.overflow_ = true ↔ l.leftOut ≠ 0

namespace RateStatistics

open Window

variable {W : ℤ} {s : RateStatistics} {l : Ledger}

theorem owes_new (h₁ : 1 ≤ W) (scale : Float32) : Owes W (new W scale) (Ledger.init W) where
  holds := (represents_new h₁ scale).holds
  nonneg _ hp := absurd hp List.not_mem_nil
  length := by simp [Ledger.init, Window.init, intMax]
  buckets _ := by simp [Ledger.init, Window.init, mass, int64Max]
  accumulated := rfl
  room := by simp [Ledger.init, Ledger.accumulated, Window.init, total, int64Max]
  leftOut := le_rfl
  overflow := by simp [new, Ledger.init]

theorem owes_filter {s' : RateStatistics} {r : Window} (h : Owes W s l) (q : ℤ × ℤ → Bool)
    (hr : r.samples = l.window.samples.filter q) (hholds : Holds W s' r)
    (haccumulated : s'.accumulated_count_ = total r.samples - l.leftOut)
    (hoverflow : s'.overflow_ = s.overflow_) (hcovers : l.Covers r) :
    Owes W s' { l with window := r } where
  holds := hholds
  nonneg p hp := h.nonneg p (List.mem_of_mem_filter (hr ▸ hp))
  length := by
    have h₁ := List.length_filter_le q l.window.samples
    have h₂ := h.length
    simp only [hr]
    omega
  buckets t := by
    have hle : (mass (l.window.samples.filter q) t).sum ≤ (mass l.window.samples t).sum := by
      simp only [mass]
      rw [List.filter_comm]
      exact total_filter_le (fun p hp => h.nonneg p (List.mem_of_mem_filter hp)) q
    exact hr ▸ hle.trans (h.buckets t)
  accumulated := haccumulated
  room := by
    have hle := total_filter_le h.nonneg q
    have hroom := h.room
    rw [← hr] at hle
    unfold Ledger.Covers at hcovers
    simp only [Ledger.accumulated] at hroom ⊢
    omega
  leftOut := h.leftOut
  overflow := by rw [hoverflow, h.overflow]

/-! ### Culling -/

theorem mass_le_of_owes (h : Owes W s l) (t : ℤ) :
    0 ≤ (mass l.window.samples t).sum ∧ (mass l.window.samples t).sum ≤ int64Max :=
  ⟨(mass_sum_le h.nonneg t).1, h.buckets t⟩

theorem popOldest_accumulated (h : Owes W s l) {o : ℤ} (ho : l.window.oldest = some o) :
    IsInt64 (s.accumulated_count_ - (s.bucket s.oldest_index_).sum) ∧
      s.accumulated_count_ - (s.bucket s.oldest_index_).sum =
        total (l.window.samples.filter (fun p => o + 1 ≤ p.1)) - l.leftOut := by
  have ht : s.oldest_time_ = o := by simp [h.holds.time, ho]
  obtain ⟨hs, -⟩ := total_split (l := l.window.samples) (o := o) fun p hp =>
    ht ▸ (h.holds.span p hp).1
  obtain ⟨hm₁, hm₂⟩ := mass_le_of_owes h o
  obtain ⟨hr₁, hr₂⟩ := h.room
  rw [bucket_oldest h.holds, ht, h.accumulated, hs, IsInt64]
  unfold int64Max at *
  simp only [Ledger.accumulated] at *
  omega

theorem owes_popOldest (h : Owes W s l) {o : ℤ} (ho : l.window.oldest = some o)
    (hcovers : l.leftOut ≤ total (l.window.samples.filter (fun p => o + 1 ≤ p.1))) :
    Owes W s.popOldest { l with window := { l.window with
      oldest := some (o + 1)
      samples := l.window.samples.filter (fun p => o + 1 ≤ p.1) } } := by
  obtain ⟨hexact, hsum⟩ := popOldest_accumulated h ho
  refine owes_filter h _ rfl (holds_popOldest h.holds h.length ho) ?_ rfl hcovers
  rw [← hsum]
  exact toInt64_of_mem hexact.1 hexact.2

/-- **The culling loop** is sound if and only if what is left covers what was left out. -/
theorem eraseLoop_owes (n : ℕ) {o t : ℤ} (h : Owes W s l) (ho : l.window.oldest = some o)
    (ht : t = o + n) :
    ((eraseLoopChecks n t s = true ∧ eraseLoopExact n t s) ↔
      l.leftOut ≤ total (l.window.samples.filter (fun p => t ≤ p.1))) ∧
    (l.leftOut ≤ total (l.window.samples.filter (fun p => t ≤ p.1)) →
      Owes W { eraseLoop n t s with oldest_time_ := t } { l with window := { l.window with
        oldest := some t, samples := l.window.samples.filter (fun p => t ≤ p.1) } }) := by
  have hot : s.oldest_time_ = o := by simp [h.holds.time, ho]
  induction n generalizing s l o with
  | zero =>
    have hto : t = o := by simpa using ht
    have hall : l.window.samples.filter (fun p => t ≤ p.1) = l.window.samples :=
      List.filter_eq_self.mpr fun p hp => by
        have := (h.holds.span p hp).1
        simp only [decide_eq_true_eq]
        omega
    have hs : { s with oldest_time_ := t } = s := by rw [hto, ← hot]
    have hr : { l.window with oldest := some t } = l.window := by rw [hto, ← ho]
    have hroom := h.room.1
    unfold Ledger.accumulated at hroom
    rw [hall, hr]
    simp only [eraseLoop]
    rw [hs]
    exact ⟨iff_of_true ⟨rfl, trivial⟩ (by omega), fun _ => h⟩
  | succ n ih =>
    push_cast at ht
    simp only [eraseLoop, eraseLoopChecks, eraseLoopExact]
    split_ifs with hc
    · -- one bucket leaves
      obtain ⟨hexact, hsum⟩ := popOldest_accumulated h ho
      have hsamples : (s.bucket s.oldest_index_).samples ≤ s.num_samples_ := by
        rw [bucket_oldest h.holds, h.holds.samples]
        exact (mass_samples_le _ _).2
      have hto : o + 1 ≤ t := by omega
      have hfilter := filter_filter_le l.window.samples hto
      by_cases hcovers : l.leftOut ≤ total (l.window.samples.filter (fun p => o + 1 ≤ p.1))
      · have h' := owes_popOldest h ho hcovers
        have hrest := ih h' rfl (by omega) (by simp [h'.holds.time])
        have hge : (s.bucket s.oldest_index_).sum ≤ s.accumulated_count_ := by omega
        simp only [hfilter] at hrest
        simpa [hc, hge, hsamples, hexact] using hrest
      · have hlt : ¬ (s.bucket s.oldest_index_).sum ≤ s.accumulated_count_ := by omega
        have hle := total_filter_le (l := l.window.samples.filter (fun p => o + 1 ≤ p.1))
          (fun p hp => h.nonneg p (List.mem_of_mem_filter hp)) (fun p => t ≤ p.1)
        rw [hfilter] at hle
        refine ⟨iff_of_false (fun hall => ?_) (by omega), fun hle' => absurd hle' (by omega)⟩
        simp [hlt] at hall
    · -- nothing is left
      have hnil : l.window.samples = [] := by
        have h₁ := h.holds.samples
        rw [not_and_or, hot] at hc
        refine List.eq_nil_of_length_eq_zero ?_
        omega
      have hroom := h.room.1
      have hjump := holds_jump h.holds ho (by omega : o ≤ t) hnil
      simp only [Ledger.accumulated, hnil] at hroom
      simp only [hnil, List.filter_nil, hc, false_imp_iff, and_self, true_iff]
      have hcovers : l.leftOut ≤ total [] := by omega
      exact ⟨hcovers, fun _ => owes_filter h (fun p => t ≤ p.1) (by simp [hnil]) hjump
        (by simpa [Ledger.accumulated, hnil] using h.accumulated) rfl hcovers⟩

theorem eraseOld_owes (h : Owes W s l) (now : ℤ) :
    ((s.eraseOldChecks now = true ∧ s.eraseOldExact now) ↔ l.Covers (l.window.eraseOld now)) ∧
    (l.Covers (l.window.eraseOld now) →
      Owes W (s.eraseOld now) { l with window := l.window.eraseOld now }) := by
  have hroom := h.room.1
  unfold Ledger.accumulated at hroom
  simp only [eraseOldChecks, eraseOldExact, eraseOld, eraseTo, Window.eraseOld, Window.eraseTo,
    isInitialized_eq h.holds, h.holds.window]
  cases ho : l.window.oldest with
  | none =>
    have hl : { l with window := l.window } = l := rfl
    simpa [Ledger.Covers] using ⟨by omega, fun _ => h⟩
  | some o =>
    have hot : s.oldest_time_ = o := by simp [h.holds.time, ho]
    simp only [Option.isSome_some, Bool.not_true, Bool.false_eq_true, Bool.false_or, if_false, hot,
      true_imp_iff]
    by_cases hc : now - l.window.window + 1 ≤ o
    · have hzero : (now - l.window.window + 1 - o).toNat = 0 := by omega
      rw [if_pos hc, if_neg (by omega), hzero]
      exact ⟨iff_of_true ⟨rfl, trivial⟩ (by unfold Ledger.Covers; omega), fun _ => h⟩
    · rw [if_neg hc, if_pos (by omega)]
      exact eraseLoop_owes _ h ho (by omega)

/-! ### Entering a sample -/

theorem owes_startAt (h : Owes W s l) {now : ℤ} (hnow : 0 ≤ now) :
    Owes W (s.startAt now)
      { l with window := { l.window with oldest := some (l.window.oldest.getD now) } } := by
  obtain ⟨haccumulated, hoverflow⟩ := startAt_frame s now
  exact
  { holds := holds_startAt h.holds hnow
    nonneg := h.nonneg
    length := h.length
    buckets := h.buckets
    accumulated := haccumulated.trans h.accumulated
    room := h.room
    leftOut := h.leftOut
    overflow := by rw [hoverflow, h.overflow] }

theorem grows_iff (h : Owes W s l) (count : ℤ) :
    count < toInt64 (int64Max - s.accumulated_count_) ↔ count < int64Max - l.accumulated := by
  obtain ⟨hr₁, hr₂⟩ := h.room
  rw [h.accumulated, toInt64_of_mem] <;> (unfold int64Max at *; omega)

theorem total_snoc (samples : List (ℤ × ℤ)) (now count : ℤ) :
    total (samples ++ [(now, count)]) = total samples + count := by
  simp [total]

section Enter

variable {count now : ℤ} (hW : W < 2 ^ 31) (hcount : 0 ≤ count)

include hW hcount in
theorem addExact_iff (h : Owes W s l) (h₁ : s.oldest_time_ ≤ now) (h₂ : now < s.oldest_time_ + W) :
    s.AddExact count now ↔ (mass l.window.samples now).sum + count ≤ int64Max := by
  obtain ⟨hr₁, hr₂⟩ := h.room
  obtain ⟨hm, -⟩ := mass_le_of_owes h now
  have hbucket := bucket_updateIndex h.holds hW h₁ h₂
  refine ⟨fun hexact => ?_, fun hle => ⟨?_, ?_, fun hgrows => ?_⟩⟩
  · exact hbucket ▸ hexact.bucket.2
  · rw [hbucket]
    exact ⟨by omega, hle⟩
  · rw [h.accumulated]
    exact ⟨by unfold int64Max at *; omega, by omega⟩
  · rw [h.accumulated] at hgrows ⊢
    exact ⟨by omega, by omega⟩

include hW hcount in
theorem owes_addSample (h : Owes W s l) (hlen : (l.window.samples.length : ℤ) + 1 ≤ intMax)
    (hinit : l.window.oldest ≠ none) (h₁ : s.oldest_time_ ≤ now) (h₂ : now < s.oldest_time_ + W)
    (hmax : (mass l.window.samples now).sum + count ≤ int64Max) :
    Owes W (s.addSample count now) (l.enter count now) := by
  obtain ⟨hr₁, hr₂⟩ := h.room
  obtain ⟨hm, -⟩ := mass_le_of_owes h now
  have hsum : l.accumulated = total l.window.samples - l.leftOut := rfl
  have hgrows := grows_iff h count
  have hleft := h.leftOut
  have hholds := holds_addSample h.holds hW hcount hm hmax hlen hinit h₁ h₂
  obtain ⟨o, ho⟩ := Option.ne_none_iff_exists'.mp hinit
  exact
  { holds := { hholds with
      time := by simpa [Ledger.enter, ho] using hholds.time
      later := by simpa [Ledger.enter, ho] using hholds.later
      fresh := by simp [Ledger.enter]
      bucket := hholds.bucket }
    nonneg := fun p hp => by
      rcases List.mem_append.mp hp with hp | hp
      · exact h.nonneg p hp
      · rw [List.mem_singleton.mp hp]
        exact hcount
    length := by simpa [Ledger.enter] using hlen
    buckets := fun t => by
      simp only [Ledger.enter, mass_append]
      split_ifs with ht
      · rw [ht]
        exact hmax
      · exact h.buckets t
    accumulated := by
      simp only [addSample, Ledger.enter, Ledger.accumulated, total_snoc, hgrows,
        decide_eq_true_eq]
      split_ifs with hc
      · rw [h.accumulated, toInt64_of_mem (by omega) (by omega)]
        simp only [Ledger.accumulated]
        omega
      · rw [h.accumulated]
        simp only [Ledger.accumulated]
        omega
    room := by
      simp only [Ledger.enter, Ledger.accumulated, total_snoc] at hr₁ hr₂ ⊢
      split_ifs <;> omega
    leftOut := by
      simp only [Ledger.enter]
      split_ifs <;> omega
    overflow := by
      have hover := h.overflow
      simp only [addSample, Ledger.enter, hgrows, decide_eq_true_eq]
      split_ifs with hc
      · exact hover
      · exact iff_of_true rfl (by omega) }

/-- `Update` tells an overflow but for the sum that is just the largest `int64_t`. -/
theorem addSample_overflow_iff (h : Owes W s l) (count now : ℤ) :
    ((s.addSample count now).overflow_ = true ↔
      s.overflow_ = true ∨ int64Max < total l.window.samples + count) ↔
    (l.leftOut = 0 → total l.window.samples + count ≠ int64Max) := by
  have hgrows := grows_iff h count
  have hsum : l.accumulated = total l.window.samples - l.leftOut := rfl
  have hover := h.overflow
  simp only [addSample, hgrows, decide_eq_true_eq]
  by_cases hzero : l.leftOut = 0
  · have hfalse : ¬ s.overflow_ = true := fun he => hover.mp he hzero
    rw [or_iff_right hfalse, imp_iff_right hzero]
    split_ifs with hc
    · exact iff_of_true (iff_of_false hfalse (by omega)) (by omega)
    · constructor
      · intro hiff
        have := hiff.mp rfl
        omega
      · intro hne
        exact iff_of_true rfl (by omega)
  · have htrue : s.overflow_ = true := hover.mpr hzero
    simp [hzero, htrue]

end Enter

/-! ## One call -/

theorem eraseLoop_overflow (n : ℕ) (t : ℤ) (s : RateStatistics) :
    (eraseLoop n t s).overflow_ = s.overflow_ := by
  induction n generalizing s with
  | zero => rfl
  | succ n ih =>
    simp only [eraseLoop]
    split_ifs
    · exact ih s.popOldest
    · rfl

theorem eraseOld_overflow (s : RateStatistics) (now : ℤ) :
    (s.eraseOld now).overflow_ = s.overflow_ := by
  unfold eraseOld eraseTo
  split_ifs
  · rfl
  · rfl
  · exact eraseLoop_overflow _ _ s

theorem overflow_of_total (h : Owes W s l) (hlt : int64Max < total l.window.samples) :
    s.overflow_ = true := by
  have hsum : l.accumulated = total l.window.samples - l.leftOut := rfl
  have hroom := h.room.2
  exact h.overflow.mpr (by omega)

section Update

variable {count now : ℤ}

theorem sound_update_ignored (h : Owes W s l) (hcount : 0 ≤ count) (hin : now < s.oldest_time_)
    (hignored : ∃ o ∈ l.window.oldest, now < o) : s.Sound l.window (.update count now) where
  checks := by simp [checks, updateChecks, hcount, hin]
  exact := .inl hin
  overflow := by
    simp only [apply, update, Overflows, Window.update, if_pos hin, if_pos hignored]
    exact (or_iff_left_of_imp (overflow_of_total h)).symm

theorem sound_update_iff (h : Owes W s l) (hW : W < 2 ^ 31) (hcount : 0 ≤ count) (hnow : 0 ≤ now)
    (hin : ¬ now < s.oldest_time_) (haccepted : ¬ ∃ o ∈ l.window.oldest, now < o)
    (hcovers : l.Covers (l.window.eraseOld now)) :
    s.Sound l.window (.update count now) ↔ l.Room (l.window.eraseOld now) count now := by
  obtain ⟨herase, hcull⟩ := eraseOld_owes h now
  have hs := owes_startAt (hcull hcovers) hnow
  obtain ⟨hle, hlt⟩ := startAt_span h.holds hnow (hcull hcovers).holds hin
  obtain ⟨hchecks, hexact⟩ := herase.mpr hcovers
  have hadd := addExact_iff hW hcount hs hle hlt
  have hover := addSample_overflow_iff hs count now
  have hkeeps : ((s.eraseOld now).startAt now).overflow_ = s.overflow_ :=
    (startAt_frame _ now).2.trans (eraseOld_overflow s now)
  rw [hkeeps] at hover
  constructor
  · intro hsound
    have hsum := hsound.overflow
    simp only [apply, update, Overflows, Window.update, if_neg hin, if_neg haccepted,
      total_snoc] at hsum
    refine ⟨hcovers, hadd.mp ?_, hover.mp hsum⟩
    exact (hsound.exact.resolve_left hin).2
  · intro hroom
    refine ⟨?_, .inr ⟨hexact, hadd.mpr hroom.bucket⟩, ?_⟩
    · simp only [checks, updateChecks, hcount, hin, hchecks, hs.holds.max, decide_true,
        decide_false, Bool.true_and, Bool.false_or, Bool.and_eq_true, decide_eq_true_eq]
      rw [toUInt32_of_mem (by omega) (by omega)]
      omega
    · simp only [apply, update, Overflows, Window.update, if_neg hin, if_neg haccepted, total_snoc]
      exact hover.mpr hroom.edge

/-- **`Update`.** -/
theorem update_owes (h : Owes W s l) (hW : W < 2 ^ 31) (hcount : 0 ≤ count) (hnow : 0 ≤ now)
    (hlen : ((l.window.update count now).samples.length : ℤ) ≤ intMax) :
    (s.Sound l.window (.update count now) ↔ l.Fits W (.update count now)) ∧
      (l.Fits W (.update count now) → Owes W (s.update count now) (l.update count now)) := by
  have hignored := update_ignored_iff h.holds hnow
  by_cases hin : now < s.oldest_time_
  · refine ⟨iff_of_true (sound_update_ignored h hcount hin (hignored.mp hin))
      (.inl (hignored.mp hin)), fun _ => ?_⟩
    rw [update, Ledger.update, if_pos hin, if_pos (hignored.mp hin)]
    exact h
  · have haccepted : ¬ ∃ o ∈ l.window.oldest, now < o := mt hignored.mpr hin
    simp only [Ledger.Fits, or_iff_right haccepted]
    obtain ⟨herase, hcull⟩ := eraseOld_owes h now
    by_cases hcovers : l.Covers (l.window.eraseOld now)
    · refine ⟨sound_update_iff h hW hcount hnow hin haccepted hcovers, fun hroom => ?_⟩
      have hs := owes_startAt (hcull hcovers) hnow
      obtain ⟨hle, hlt⟩ := startAt_span h.holds hnow (hcull hcovers).holds hin
      rw [update, Ledger.update, if_neg hin, if_neg haccepted]
      simp only [Window.update, if_neg haccepted, List.length_append, List.length_singleton] at hlen
      have hadd := owes_addSample hW hcount hs (by push_cast at hlen; exact hlen) (by simp) hle hlt
        hroom.bucket
      exact hadd
    · refine ⟨iff_of_false (fun hsound => hcovers ?_) (fun hroom => hcovers hroom.covers),
        fun hroom => absurd hroom.covers hcovers⟩
      have hchecks := hsound.checks
      simp only [checks, updateChecks, hin, decide_false, Bool.false_or, Bool.and_eq_true]
        at hchecks
      exact herase.mp ⟨hchecks.2.1.1.1, (hsound.exact.resolve_left hin).1⟩

end Update

/-- **One call.** -/
theorem apply_owes (h : Owes W s l) (hW : W < 2 ^ 31) {op : Op} (hop : op.Nonneg)
    (hlen : ((l.window.apply W op).samples.length : ℤ) ≤ intMax) :
    (s.Sound l.window op ↔ l.Fits W op) ∧ (l.Fits W op → Owes W (s.apply op) (l.apply W op)) := by
  cases op with
  | update count now => exact update_owes h hW hop.1 (hop.2 now rfl) hlen
  | rate now =>
    obtain ⟨herase, hcull⟩ := eraseOld_owes h now
    refine ⟨⟨fun hsound => herase.mp ⟨hsound.checks, hsound.exact⟩, fun hcovers => ?_⟩, hcull⟩
    obtain ⟨hchecks, hexact⟩ := herase.mpr hcovers
    exact ⟨hchecks, hexact, by simp only [Overflows, apply, rate, eraseOld_overflow]⟩
  | setWindowSize w now =>
    have hmax := h.holds.max
    by_cases hw : 1 ≤ w ∧ w ≤ W
    · have hw' : ¬ (w ≤ 0 ∨ s.max_window_size_ms_ < w) := by omega
      have hholds := h.holds
      have h' : Owes W { s with current_window_size_ms_ := w }
          { l with window := { l.window with window := w } } :=
        { h with holds := { hholds with window := rfl, window_mem := hw, bucket := hholds.bucket } }
      obtain ⟨herase, hcull⟩ := eraseOld_owes h' now
      have hfits : l.Fits W (.setWindowSize w now) ↔
          l.Covers ({ l.window with window := w }.eraseOld now) := by
        simp only [Ledger.Fits, Window.apply, Window.setWindowSize, if_pos hw]
      have happly : s.apply (.setWindowSize w now) =
          { s with current_window_size_ms_ := w }.eraseOld now := by
        simp only [apply, setWindowSize, if_neg hw']
      rw [hfits]
      refine ⟨⟨fun hsound => herase.mp ?_, fun hcovers => ?_⟩, fun hcovers => ?_⟩
      · have hchecks := hsound.checks
        rw [checks, decide_eq_false hw', Bool.false_or] at hchecks
        exact ⟨hchecks, hsound.exact.resolve_left hw'⟩
      · obtain ⟨hchecks, hexact⟩ := herase.mpr hcovers
        refine ⟨?_, .inr hexact, ?_⟩
        · rw [checks, decide_eq_false hw', Bool.false_or, hchecks]
        · rw [happly, eraseOld_overflow]
          exact Iff.rfl
      · rw [happly]
        simp only [Ledger.apply, Window.apply, Window.setWindowSize, if_pos hw]
        exact hcull hcovers
    · have hw' : w ≤ 0 ∨ s.max_window_size_ms_ < w := by omega
      have hsum : l.accumulated = total l.window.samples - l.leftOut := rfl
      have hroom := h.room.1
      have happly : s.apply (.setWindowSize w now) = s := by
        simp only [apply, setWindowSize, if_pos hw']
      have hwindow : l.window.apply W (.setWindowSize w now) = l.window := by
        simp only [Window.apply, Window.setWindowSize, if_neg hw]
      refine ⟨iff_of_true ⟨?_, .inl hw', by rw [happly]; exact Iff.rfl⟩ ?_, fun _ => ?_⟩
      · rw [checks, decide_eq_true hw', Bool.true_or]
      · simp only [Ledger.Fits, hwindow, Ledger.Covers]
        omega
      · rw [happly]
        simp only [Ledger.apply, hwindow]
        exact h
  | reset =>
    refine ⟨iff_of_true ⟨rfl, trivial, by simp [apply, reset, Overflows]⟩ trivial, fun _ => ?_⟩
    simp only [apply, Ledger.apply]
    rw [reset_eq_new, h.holds.max]
    exact owes_new (h.holds.window_mem.1.trans h.holds.window_mem.2) _

/-! ## Every run -/

/-- The object and the ledger, call by call. -/
def step (W : ℤ) (p : RateStatistics × Ledger) (op : Op) : Option (RateStatistics × Ledger) :=
  some (p.1.apply op, p.2.apply W op)

/-- **Past an overflow.** In every run in which the window never holds more than the largest `int`
of samples, all calls are sound if and only if they all fit. -/
theorem sound_iff_fits (h₁ : 1 ≤ W) (h₂ : W < 2 ^ 31) (scale : Float32) (ops : List Op)
    (hcount : ∀ op ∈ ops, 0 ≤ op.count)
    (htime : ∀ op ∈ ops, ∀ t ∈ op.time, 0 ≤ t)
    (hsamples : Along (step W)
      (fun p op => ((p.2.window.apply W op).samples.length : ℤ) ≤ intMax)
      (new W scale, Ledger.init W) ops) :
    Along (step W) (fun p op => p.1.Sound p.2.window op) (new W scale, Ledger.init W) ops ↔
      Along (step W) (fun p op => p.2.Fits W op) (new W scale, Ledger.init W) ops := by
  have hops : Along (step W) (fun _ op => op.Nonneg) (new W scale, Ledger.init W) ops :=
    along_of_forall fun op hop => ⟨hcount op hop, htime op hop⟩
  refine along_iff_along _ _ (fun p => Owes W p.1 p.2)
    (fun p op h hK => (apply_owes h h₂ hK.1 hK.2).1) (fun p op p' h hK hfits hstep => ?_)
    (owes_new h₁ scale) (along_and.mpr ⟨hops, hsamples⟩)
  cases hstep
  exact (apply_owes h h₂ hK.1 hK.2).2 hfits

/-- An overflow that is told, in a window that is not culled. -/
theorem sound_iff_fits_sample :
    Along (step 4) (fun p op => p.1.Sound p.2.window op) (new 4 1, Ledger.init 4)
      [.update (2 ^ 62) 0, .update (2 ^ 62) 1, .rate 2] := by
  refine (sound_iff_fits (by decide) (by decide) 1 _ (by decide) (by simp [Op.time])
    (by decide)).mpr ⟨.inr ⟨by decide, by decide, by decide⟩, ?_⟩
  rintro _ ⟨⟩
  refine ⟨.inr ⟨by decide, by decide, by decide⟩, ?_⟩
  rintro _ ⟨⟩
  refine ⟨?_, fun _ _ => trivial⟩
  change Ledger.Covers _ _
  decide

/-- The sum that is just the largest `int64_t` is told as an overflow, and the samples of an
overflow fail the `RTC_DCHECK` when they are culled. -/
theorem overflow_not_sound :
    ¬ Along (step 4) (fun p op => p.1.Sound p.2.window op) (new 4 1, Ledger.init 4)
        [.update int64Max 0] ∧
      ¬ Along (step 4) (fun p op => p.1.Sound p.2.window op) (new 4 1, Ledger.init 4)
        [.update (int64Max - 1) 0, .update 5 1, .rate 20] := by
  refine ⟨fun h => ?_, fun h => ?_⟩
  · obtain ⟨hsound, -⟩ := h
    have hover : False ∨ int64Max < total [(0, int64Max)] := by
      refine (hsound.overflow.mp (by decide)).imp (fun he => ?_) id
      exact absurd he (by decide)
    simp [total] at hover
  · obtain ⟨-, hrest⟩ := h
    obtain ⟨-, hrest⟩ := hrest _ rfl
    obtain ⟨hsound, -⟩ := hrest _ rfl
    exact absurd hsound.checks (by decide)

end RateStatistics

end RtcBase
