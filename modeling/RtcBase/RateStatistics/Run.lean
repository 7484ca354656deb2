import RtcBase.RateStatistics.Refine

/-!
# Runs of `RateStatistics`

* `Op`, `apply`, `trace`: sequences of calls on the object, `Window.apply`, `Window.trace`: the
  same calls on the reference;
* `eraseLoopChecks_of_represents`: the `RTC_DCHECK`s of the culling loop hold;
* `represents_apply`: one call;
* **`run_represents`**: after every sequence of calls the object represents the reference.
-/

namespace RtcBase

open Word

namespace RateStatistics

/-- The calls that change the state. -/
inductive Op where
  | update (count now_ms : ℤ)
  | rate (now_ms : ℤ)
  | setWindowSize (window_size_ms now_ms : ℤ)
  | reset
  deriving DecidableEq, Repr

/-- The timestamp of a call. -/
def Op.time : Op → Option ℤ
  | .update _ now => some now
  | .rate now => some now
  | .setWindowSize _ now => some now
  | .reset => none

/-- The count that an operation enters. -/
def Op.count : Op → ℤ
  | .update count _ => count
  | _ => 0

/-- The number of samples that an operation enters. -/
def Op.updates : Op → ℤ
  | .update _ _ => 1
  | _ => 0

/-- Neither the count nor the time is negative. -/
def Op.Nonneg (op : Op) : Prop := 0 ≤ op.count ∧ ∀ t ∈ op.time, 0 ≤ t

theorem Op.updates_nonneg (op : Op) : 0 ≤ op.updates := by
  cases op <;> simp [updates]

/-- What a call changes. -/
def apply (s : RateStatistics) : Op → RateStatistics
  | .update count now => s.update count now
  | .rate now => (s.rate now).2
  | .setWindowSize w now => (s.setWindowSize w now).2
  | .reset => s.reset

/-- What `SetWindowSize` returns. -/
def returns (s : RateStatistics) : Op → Option Bool
  | .setWindowSize w now => some (s.setWindowSize w now).1
  | _ => none

/-- The `RTC_DCHECK`s passed on the way of an operation. -/
def checks (s : RateStatistics) : Op → Bool
  | .update count now => s.updateChecks count now
  | .rate now => s.eraseOldChecks now
  | .setWindowSize w now =>
    decide (w ≤ 0 ∨ s.max_window_size_ms_ < w) ||
      { s with current_window_size_ms_ := w }.eraseOldChecks now
  | .reset => true

/-- The state after the calls. -/
def run (s : RateStatistics) (ops : List Op) : RateStatistics := ops.foldl apply s

/-- The returned values and the `RTC_DCHECK`s, call by call. -/
def trace : RateStatistics → List Op → List (Option Bool × Bool)
  | _, [] => []
  | s, op :: ops => (s.returns op, s.checks op) :: trace (s.apply op) ops

end RateStatistics

open RateStatistics (Op)

namespace Window

/-- What a call changes. -/
def apply (W : ℤ) (r : Window) : Op → Window
  | .update count now => r.update count now
  | .rate now => r.eraseOld now
  | .setWindowSize w now => (setWindowSize W r w now).2
  | .reset => init W

/-- What a call returns, if it is `SetWindowSize`. -/
def returns (W : ℤ) (r : Window) : Op → Option Bool
  | .setWindowSize w now => some (setWindowSize W r w now).1
  | _ => none

/-- The state after the calls. -/
def run (W : ℤ) (r : Window) (ops : List Op) : Window := ops.foldl (apply W) r

/-- What the calls return. -/
def trace (W : ℤ) : Window → List Op → List (Option Bool)
  | _, [] => []
  | r, op :: ops => r.returns W op :: trace W (r.apply W op) ops

/-! ## The reference itself -/

variable {W : ℤ} {r : Window}

theorem eraseTo_oldest {o : ℤ} (ho : r.oldest = some o) (t : ℤ) :
    (r.eraseTo t).oldest = some (max o t) := by
  unfold eraseTo
  simp only [ho]
  split_ifs with h
  · simp [max_eq_right h.le]
  · rw [max_eq_left (by omega), ho]

theorem eraseTo_none (ho : r.oldest = none) (t : ℤ) : r.eraseTo t = r := by
  simp [eraseTo, ho]

@[simp] theorem eraseTo_window (t : ℤ) : (r.eraseTo t).window = r.window := by
  unfold eraseTo
  split
  · rfl
  · split_ifs <;> rfl

@[simp] theorem eraseTo_accepted (t : ℤ) : (r.eraseTo t).accepted = r.accepted := by
  unfold eraseTo
  split
  · rfl
  · split_ifs <;> rfl

@[simp] theorem eraseTo_isSome (t : ℤ) : (r.eraseTo t).oldest.isSome = r.oldest.isSome := by
  cases ho : r.oldest with
  | none => rw [eraseTo_none ho, ho]
  | some o => simp [eraseTo_oldest ho]

theorem eraseTo_samples (t : ℤ) :
    (r.eraseTo t).samples = r.samples ∨
      (r.eraseTo t).samples = r.samples.filter (fun p => t ≤ p.1) := by
  unfold eraseTo
  split
  · exact Or.inl rfl
  · split_ifs
    · exact Or.inr rfl
    · exact Or.inl rfl

/-- A sample is on record exactly when the oldest time is. -/
def Started (r : Window) : Prop := r.oldest.isSome = true ↔ 0 < r.accepted

theorem started_apply (h : r.Started) (op : Op) : (r.apply W op).Started := by
  unfold Started at *
  cases op with
  | update count now =>
    simp only [apply, update]
    split_ifs
    · exact h
    · simp
  | rate now => simpa [apply, eraseOld] using h
  | setWindowSize w now =>
    simp only [apply, setWindowSize]
    split_ifs
    · simpa [eraseOld] using h
    · exact h
  | reset => simp [apply, init]

end Window

/-! ## One call -/

namespace RateStatistics

open Window

variable {W : ℤ} {s : RateStatistics} {r : Window}

theorem represents_new (h₁ : 1 ≤ W) (scale : Float32) :
    Represents W (new W scale) (Window.init W) where
  size := by simp [new]
  max := rfl
  index := ⟨le_rfl, by simp [new]; omega⟩
  window := rfl
  window_mem := ⟨h₁, le_rfl⟩
  time := rfl
  later := by simp [Window.init]
  fresh := fun _ => rfl
  bucket k hk hkW := by
    have : ((0 + k) % W).toNat < W.toNat := by
      rw [zero_add, Int.emod_eq_of_lt hk hkW]; omega
    simp [new, bucket, Window.init, mass, Bucket.zero, List.getD_eq_getElem?_getD] at this ⊢
  span := by simp [Window.init]
  accumulated := rfl
  samples := rfl
  overflow := rfl

theorem reset_eq_new (s : RateStatistics) : s.reset = new s.max_window_size_ms_ s.scale_ := rfl

theorem eraseLoopChecks_of_represents (n : ℕ) {o : ℤ} (t : ℤ) (h : Represents W s r)
    (hb : Bounded r.samples) (ho : r.oldest = some o) : eraseLoopChecks n t s = true := by
  induction n generalizing s r o with
  | zero => rfl
  | succ n ih =>
    simp only [eraseLoopChecks]
    split_ifs
    · have hm := (mass_sum_le hb.nonneg s.oldest_time_).2
      have hn := (mass_samples_le r.samples s.oldest_time_).2
      rw [bucket_oldest h.holds, h.accumulated, h.samples, decide_eq_true hm, decide_eq_true hn,
        ih (represents_popOldest h hb ho) (hb.filter _) rfl]
      rfl
    · rfl

theorem eraseOldChecks_of_represents (h : Represents W s r) (hb : Bounded r.samples) (now : ℤ) :
    s.eraseOldChecks now = true := by
  unfold eraseOldChecks
  rw [isInitialized_eq h.holds]
  cases ho : r.oldest with
  | none => rfl
  | some o => simpa using eraseLoopChecks_of_represents _ _ h hb ho

theorem represents_window (h : Represents W s r) {w : ℤ} (hw : 1 ≤ w ∧ w ≤ W) :
    Represents W { s with current_window_size_ms_ := w } { r with window := w } :=
  { h with window := rfl, window_mem := hw, bucket := h.bucket }

theorem update_ignored_iff (h : Holds W s r) {now : ℤ} (hnow : 0 ≤ now) :
    now < s.oldest_time_ ↔ ∃ o ∈ r.oldest, now < o := by
  have hw := h.window_mem
  rw [h.time]
  cases r.oldest with
  | none => simp; omega
  | some o => simp

/-- After culling and starting, `now` lies in the window. -/
theorem startAt_span (h : Holds W s r) {now : ℤ} (hnow : 0 ≤ now)
    (herase : Holds W (s.eraseOld now) (r.eraseOld now)) (hin : ¬ now < s.oldest_time_) :
    ((s.eraseOld now).startAt now).oldest_time_ ≤ now ∧
      now < ((s.eraseOld now).startAt now).oldest_time_ + W := by
  have hw := h.window_mem
  rw [(holds_startAt herase hnow).time]
  rw [h.time] at hin
  cases ho : r.oldest with
  | none =>
    simp only [Window.eraseOld, eraseTo_none ho, ho, Option.getD_none, Option.getD_some]
    omega
  | some o =>
    simp only [ho, Option.getD_some] at hin
    simp only [Window.eraseOld, eraseTo_oldest ho, Option.getD_some]
    omega

/-- The accumulators have room for one more sample. -/
theorem bounded_snoc {l : List (ℤ × ℤ)} (hb : Bounded l) {count now : ℤ} (hc : 0 ≤ count)
    (h₁ : total l + count < int64Max) (h₂ : (l.length : ℤ) + 1 < intMax) (q : ℤ × ℤ → Bool) :
    Bounded (l.filter q ++ [(now, count)]) where
  nonneg p hp := by
    rcases List.mem_append.mp hp with hp | hp
    · exact hb.nonneg p (List.mem_of_mem_filter hp)
    · rw [List.mem_singleton.mp hp]; exact hc
  total_lt := by
    have := total_filter_le hb.nonneg q
    simp only [total, List.map_append, List.map_cons, List.map_nil, List.sum_append,
      List.sum_singleton] at *
    omega
  length_lt := by
    have := List.length_filter_le q l
    simp only [List.length_append, List.length_singleton]
    push_cast
    omega

theorem eraseTo_samples_filter (r : Window) (t : ℤ) :
    ∃ q : ℤ × ℤ → Bool, (r.eraseTo t).samples = r.samples.filter q := by
  rcases eraseTo_samples (r := r) t with h | h
  · exact ⟨fun _ => true, by rw [h, List.filter_true]⟩
  · exact ⟨_, h⟩

/-- **`Update`.** -/
theorem represents_update (h : Represents W s r) (hW : W < 2 ^ 31) (hb : Bounded r.samples)
    {count now : ℤ} (hc : 0 ≤ count) (hnow : 0 ≤ now) (h₁ : total r.samples + count < int64Max)
    (h₂ : (r.samples.length : ℤ) + 1 < intMax) :
    Represents W (s.update count now) (r.update count now) ∧
      s.updateChecks count now = true := by
  unfold update Window.update updateChecks
  by_cases hin : now < s.oldest_time_
  · rw [if_pos hin, if_pos ((update_ignored_iff h.holds hnow).mp hin)]
    exact ⟨h, by simp [hc, hin]⟩
  · rw [if_neg hin, if_neg (mt (update_ignored_iff h.holds hnow).mpr hin)]
    have herase := represents_eraseOld h hb now
    have hs := represents_startAt herase hnow
    obtain ⟨hle, hlt⟩ := startAt_span h.holds hnow herase.holds hin
    obtain ⟨q, hq⟩ := eraseTo_samples_filter r (now - r.window + 1)
    have hb' : Bounded ((r.eraseOld now).samples ++ [(now, count)]) := by
      rw [Window.eraseOld, hq]
      exact bounded_snoc hb hc h₁ h₂ q
    refine ⟨?_, ?_⟩
    · have := represents_addSample hs hW hb' (by simp) hle hlt
      exact { this with bucket := this.bucket }
    · simp only [hc, hin, eraseOldChecks_of_represents h hb now, hs.max, decide_true,
        decide_false, Bool.true_and, Bool.false_or, Bool.and_eq_true, decide_eq_true_eq]
      rw [toUInt32_of_mem (by omega) (by omega)]
      omega

/-- **One call.** -/
theorem represents_apply (h : Represents W s r) (hW : W < 2 ^ 31) (hb : Bounded r.samples)
    {op : Op} (hop : op.Nonneg) (h₁ : total r.samples + op.count < int64Max)
    (h₂ : (r.samples.length : ℤ) + op.updates < intMax) :
    Represents W (s.apply op) (r.apply W op) ∧ s.returns op = r.returns W op ∧
      s.checks op = true := by
  cases op with
  | update count now =>
    have := represents_update h hW hb hop.1 (hop.2 now rfl) h₁ h₂
    exact ⟨this.1, rfl, this.2⟩
  | rate now => exact ⟨represents_eraseOld h hb now, rfl, eraseOldChecks_of_represents h hb now⟩
  | setWindowSize w now =>
    have hm := h.max
    simp only [apply, Window.apply, returns, Window.returns, checks, setWindowSize,
      Window.setWindowSize]
    by_cases hw : 1 ≤ w ∧ w ≤ W
    · have hw' : ¬ (w ≤ 0 ∨ s.max_window_size_ms_ < w) := by omega
      have h' := represents_window h hw
      rw [if_pos hw, if_neg hw', decide_eq_false hw', Bool.false_or]
      exact ⟨represents_eraseOld h' hb now, rfl, eraseOldChecks_of_represents h' hb now⟩
    · have hw' : w ≤ 0 ∨ s.max_window_size_ms_ < w := by omega
      rw [if_neg hw, if_pos hw', decide_eq_true hw', Bool.true_or]
      exact ⟨h, rfl, rfl⟩
  | reset =>
    have : Represents W s.reset (Window.init W) := by
      rw [reset_eq_new, h.max]
      exact represents_new (h.window_mem.1.trans h.window_mem.2) _
    exact ⟨this, rfl, rfl⟩

theorem bounded_apply (hb : Bounded r.samples) {op : Op} (hop : op.Nonneg)
    (h₁ : total r.samples + op.count < int64Max)
    (h₂ : (r.samples.length : ℤ) + op.updates < intMax) :
    Bounded (r.apply W op).samples ∧
      total (r.apply W op).samples ≤ total r.samples + op.count ∧
      ((r.apply W op).samples.length : ℤ) ≤ r.samples.length + op.updates := by
  have herase : ∀ (r : Window) (t : ℤ), Bounded r.samples → Bounded (r.eraseTo t).samples ∧
      total (r.eraseTo t).samples ≤ total r.samples ∧
      ((r.eraseTo t).samples.length : ℤ) ≤ r.samples.length := by
    intro r t hb
    obtain ⟨q, hq⟩ := eraseTo_samples_filter r t
    rw [hq]
    exact ⟨hb.filter q, total_filter_le hb.nonneg q, by
      exact_mod_cast List.length_filter_le q r.samples⟩
  cases op with
  | update count now =>
    simp only [Op.count, Op.updates] at h₁ h₂ ⊢
    simp only [Window.apply, Window.update]
    split_ifs
    · exact ⟨hb, by have : 0 ≤ count := hop.1; omega, by omega⟩
    · obtain ⟨q, hq⟩ := eraseTo_samples_filter r (now - r.window + 1)
      obtain ⟨_, h₃, h₄⟩ := herase r (now - r.window + 1) hb
      simp only [Window.eraseOld]
      refine ⟨by rw [hq]; exact bounded_snoc hb hop.1 h₁ h₂ q, ?_, ?_⟩
      · simp only [total, List.map_append, List.map_cons, List.map_nil, List.sum_append,
          List.sum_singleton] at h₃ ⊢
        omega
      · simp only [List.length_append, List.length_singleton]
        push_cast
        omega
  | rate now =>
    simp only [Op.count, Op.updates, add_zero]
    exact herase r _ hb
  | setWindowSize w now =>
    simp only [Window.apply, Window.setWindowSize, Op.count, Op.updates, add_zero]
    split_ifs
    · exact herase { r with window := w } _ hb
    · exact ⟨hb, le_rfl, le_rfl⟩
  | reset =>
    have := total_nonneg hb.nonneg
    refine ⟨⟨by simp [Window.apply, Window.init], ?_, ?_⟩, ?_, ?_⟩ <;>
      simp [Window.apply, Window.init, total, int64Max, intMax, Op.count, Op.updates]
    exact this

/-! ## Every run -/

/-- The sum of the counts that a run enters. -/
def counts (ops : List Op) : ℤ := (ops.map Op.count).sum

/-- The number of samples that a run enters. -/
def samples (ops : List Op) : ℤ := (ops.map Op.updates).sum

theorem counts_nonneg {ops : List Op} (h : ∀ op ∈ ops, op.Nonneg) : 0 ≤ counts ops :=
  List.sum_nonneg fun x hx => by
    obtain ⟨o, ho, rfl⟩ := List.mem_map.mp hx
    exact (h o ho).1

theorem samples_nonneg (ops : List Op) : 0 ≤ samples ops :=
  List.sum_nonneg fun x hx => by
    obtain ⟨o, -, rfl⟩ := List.mem_map.mp hx
    exact o.updates_nonneg

theorem run_represents_from (ops : List Op) (h : Represents W s r) (hW : W < 2 ^ 31)
    (hb : Bounded r.samples) (hs : r.Started) (hops : ∀ op ∈ ops, op.Nonneg)
    (h₁ : total r.samples + counts ops < int64Max)
    (h₂ : (r.samples.length : ℤ) + samples ops < intMax) :
    Represents W (run s ops) (r.run W ops) ∧ Bounded (r.run W ops).samples ∧
      (r.run W ops).Started ∧ trace s ops = (r.trace W ops).map (fun b => (b, true)) := by
  induction ops generalizing s r with
  | nil => exact ⟨h, hb, hs, rfl⟩
  | cons op ops ih =>
    simp only [counts, samples, List.map_cons, List.sum_cons] at h₁ h₂
    have hop := hops op List.mem_cons_self
    have hrest := fun op' hm => hops op' (List.mem_cons_of_mem op hm)
    have hc := counts_nonneg hrest
    have hu := samples_nonneg ops
    unfold counts at hc
    unfold samples at hu
    have h₃ : total r.samples + op.count < int64Max := by omega
    have h₄ : (r.samples.length : ℤ) + op.updates < intMax := by omega
    obtain ⟨hr, hret, hchk⟩ := represents_apply h hW hb hop h₃ h₄
    obtain ⟨hb', h₅, h₆⟩ := bounded_apply (W := W) hb hop h₃ h₄
    obtain ⟨e₁, e₂, e₃, e₄⟩ := ih hr hb' (started_apply hs op) hrest
      (by unfold counts; omega) (by unfold samples; omega)
    refine ⟨e₁, e₂, e₃, ?_⟩
    rw [trace, Window.trace, List.map_cons, ← e₄, hret, hchk]

/-- **The circular buffer represents the samples after every run**, `IsInitialized` says whether
a sample is on record, `SetWindowSize` returns what the reference returns, and no `RTC_DCHECK`
fails. -/
theorem run_represents (h₁ : 1 ≤ W) (h₂ : W < 2 ^ 31) (scale : Float32) (ops : List Op)
    (hnonneg : ∀ op ∈ ops, 0 ≤ op.count) (htime : ∀ op ∈ ops, ∀ t ∈ op.time, 0 ≤ t ∧ t < 2 ^ 62)
    (hcount : counts ops < int64Max) (hsamples : samples ops < intMax) :
    Represents W (run (new W scale) ops) ((Window.init W).run W ops) ∧
      ((run (new W scale) ops).isInitialized = true ↔
        0 < ((Window.init W).run W ops).accepted) ∧
      trace (new W scale) ops = ((Window.init W).trace W ops).map (fun b => (b, true)) := by
  have hb : Bounded (Window.init W).samples :=
    ⟨by simp [Window.init], by simp [Window.init, total, int64Max],
      by simp [Window.init, intMax]⟩
  obtain ⟨e₁, _, e₃, e₄⟩ := run_represents_from ops (represents_new h₁ scale) h₂ hb
    (by simp [Window.Started, Window.init])
    (fun op hop => ⟨hnonneg op hop, fun t ht => (htime op hop t ht).1⟩)
    (by simpa [Window.init, total] using hcount) (by simpa [Window.init] using hsamples)
  exact ⟨e₁, by rw [isInitialized_eq e₁.holds]; exact e₃, e₄⟩

/-- Two samples, an older one that is ignored, and a shrinking window. -/
theorem run_represents_sample :
    Represents 4 (run (new 4 1)
        [.update 5 10, .update 7 11, .update 9 9, .setWindowSize 2 12])
      ((Window.init 4).run 4 [.update 5 10, .update 7 11, .update 9 9, .setWindowSize 2 12]) ∧
    ((run (new 4 1)
        [.update 5 10, .update 7 11, .update 9 9, .setWindowSize 2 12]).isInitialized = true ↔
      0 < ((Window.init 4).run 4
        [.update 5 10, .update 7 11, .update 9 9, .setWindowSize 2 12]).accepted) ∧
    trace (new 4 1) [.update 5 10, .update 7 11, .update 9 9, .setWindowSize 2 12] =
      ((Window.init 4).trace 4
        [.update 5 10, .update 7 11, .update 9 9, .setWindowSize 2 12]).map
        (fun b => (b, true)) :=
  run_represents (by decide) (by decide) 1 _ (by decide) (by simp [Op.time]) (by decide)
    (by decide)

end RateStatistics

end RtcBase
