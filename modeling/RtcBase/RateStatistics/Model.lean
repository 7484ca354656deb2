import RtcBase.Lib.Word

/-!
# `RateStatistics`

The class of `rate_statistics.cc`: counts are kept in a circular buffer with one bucket per
millisecond. Integers carry the width of their C++ type at every operation that could leave it
(`toInt32`, `toInt64`, `toUInt32`).

* `popOldest`, `eraseLoop`, `eraseOld`: culling;
* `update`, `rate`, `setWindowSize`, `reset`: the public operations;
* `eraseLoopChecks`, `eraseOldChecks`, `updateChecks`: the `RTC_DCHECK`s on their way.
-/

namespace RtcBase

open Word

/-- `RateStatistics::Bucket`. -/
structure Bucket where
  sum : ℤ
  samples : ℤ
  deriving DecidableEq, Repr

/-- The value-initialised bucket, `Bucket()`. -/
def Bucket.zero : Bucket := ⟨0, 0⟩

/-- The fields of the class; `buckets_` is the circular array. -/
structure RateStatistics where
  buckets_ : List Bucket
  accumulated_count_ : ℤ
  overflow_ : Bool
  num_samples_ : ℤ
  oldest_time_ : ℤ
  oldest_index_ : ℤ
  scale_ : Float32
  max_window_size_ms_ : ℤ
  current_window_size_ms_ : ℤ

namespace RateStatistics

/-- The constructor: `window_size_ms` zeroed buckets, and `-window_size_ms` as the oldest time. -/
def new (window_size_ms : ℤ) (scale : Float32) : RateStatistics where
  buckets_ := List.replicate window_size_ms.toNat Bucket.zero
  accumulated_count_ := 0
  overflow_ := false
  num_samples_ := 0
  oldest_time_ := -window_size_ms
  oldest_index_ := 0
  scale_ := scale
  max_window_size_ms_ := window_size_ms
  current_window_size_ms_ := window_size_ms

/-- All buckets are empty, and the window is the greatest again. -/
def reset (s : RateStatistics) : RateStatistics :=
  { s with
    accumulated_count_ := 0
    overflow_ := false
    num_samples_ := 0
    oldest_time_ := -s.max_window_size_ms_
    oldest_index_ := 0
    current_window_size_ms_ := s.max_window_size_ms_
    buckets_ := List.replicate s.max_window_size_ms_.toNat Bucket.zero }

/-- `buckets_[i]`. -/
def bucket (s : RateStatistics) (i : ℤ) : Bucket := s.buckets_.getD i.toNat Bucket.zero

/-- Whether `oldest_time_` has a time in it. -/
def isInitialized (s : RateStatistics) : Bool := s.oldest_time_ ≠ -s.max_window_size_ms_

/-! ## `EraseOld` -/

/-- The body of the loop of `EraseOld`. -/
def popOldest (s : RateStatistics) : RateStatistics :=
  { s with
    accumulated_count_ := toInt64 (s.accumulated_count_ - (s.bucket s.oldest_index_).sum)
    num_samples_ := toInt32 (s.num_samples_ - (s.bucket s.oldest_index_).samples)
    buckets_ := s.buckets_.set s.oldest_index_.toNat Bucket.zero
    oldest_index_ :=
      if s.max_window_size_ms_ ≤ s.oldest_index_ + 1 then 0 else s.oldest_index_ + 1
    oldest_time_ := s.oldest_time_ + 1 }

/-- The loop of `EraseOld`. Every turn moves `oldest_time_` by one, so
`new_oldest_time - oldest_time_` turns are enough (`eraseLoop_done`). -/
def eraseLoop : ℕ → ℤ → RateStatistics → RateStatistics
  | 0, _, s => s
  | n + 1, new_oldest_time, s =>
    if 0 < s.num_samples_ ∧ s.oldest_time_ < new_oldest_time then
      eraseLoop n new_oldest_time s.popOldest
    else s

/-- With that many turns the loop of the source has ended. -/
theorem eraseLoop_done (n : ℕ) {t : ℤ} (s : RateStatistics) (h : t ≤ s.oldest_time_ + n) :
    ¬ (0 < (eraseLoop n t s).num_samples_ ∧ (eraseLoop n t s).oldest_time_ < t) := by
  induction n generalizing s with
  | zero =>
    simp only [eraseLoop]
    push_cast at h
    omega
  | succ n ih =>
    simp only [eraseLoop]
    split_ifs with hc
    · refine ih s.popOldest ?_
      simp only [popOldest]
      push_cast at h
      omega
    · exact hc

/-- The two `RTC_DCHECK`s of every turn of the loop. -/
def eraseLoopChecks : ℕ → ℤ → RateStatistics → Bool
  | 0, _, _ => true
  | n + 1, new_oldest_time, s =>
    if 0 < s.num_samples_ ∧ s.oldest_time_ < new_oldest_time then
      decide ((s.bucket s.oldest_index_).sum ≤ s.accumulated_count_) &&
        decide ((s.bucket s.oldest_index_).samples ≤ s.num_samples_) &&
        eraseLoopChecks n new_oldest_time s.popOldest
    else true

/-- The culling of `EraseOld` once the new oldest time is known. -/
def eraseTo (s : RateStatistics) (new_oldest_time : ℤ) : RateStatistics :=
  if !s.isInitialized then s
  else if new_oldest_time ≤ s.oldest_time_ then s
  else { eraseLoop (new_oldest_time - s.oldest_time_).toNat new_oldest_time s with
    oldest_time_ := new_oldest_time }

/-- The buckets before the window are dropped. -/
def eraseOld (s : RateStatistics) (now_ms : ℤ) : RateStatistics :=
  s.eraseTo (now_ms - s.current_window_size_ms_ + 1)

/-- Whether the checks of `EraseOld` pass. -/
def eraseOldChecks (s : RateStatistics) (now_ms : ℤ) : Bool :=
  !s.isInitialized ||
    eraseLoopChecks (now_ms - s.current_window_size_ms_ + 1 - s.oldest_time_).toNat
      (now_ms - s.current_window_size_ms_ + 1) s

/-! ## The public operations -/

/-- "First ever sample, reset window to start now." -/
def startAt (s : RateStatistics) (now_ms : ℤ) : RateStatistics :=
  if s.isInitialized then s else { s with oldest_time_ := now_ms }

/-- The bucket that `Update` counts in: `oldest_index_ + now_offset`, wrapped around once. -/
def updateIndex (s : RateStatistics) (now_ms : ℤ) : ℤ :=
  let now_offset := toUInt32 (now_ms - s.oldest_time_)
  let index := toUInt32 (s.oldest_index_ + now_offset)
  if s.max_window_size_ms_ ≤ index then toUInt32 (index - s.max_window_size_ms_) else index

/-- The second half of `Update`: enter `count` at `now_ms`. -/
def addSample (s : RateStatistics) (count now_ms : ℤ) : RateStatistics :=
  let index := s.updateIndex now_ms
  let grows : Bool := count < toInt64 (int64Max - s.accumulated_count_)
  { s with
    buckets_ := s.buckets_.set index.toNat
      ⟨toInt64 ((s.bucket index).sum + count), toInt32 ((s.bucket index).samples + 1)⟩
    accumulated_count_ :=
      if grows then toInt64 (s.accumulated_count_ + count) else s.accumulated_count_
    overflow_ := if grows then s.overflow_ else true
    num_samples_ := toInt32 (s.num_samples_ + 1) }

/-- A sample that is not older than the oldest bucket. -/
def update (s : RateStatistics) (count now_ms : ℤ) : RateStatistics :=
  if now_ms < s.oldest_time_ then s
  else ((s.eraseOld now_ms).startAt now_ms).addSample count now_ms

/-- The `RTC_DCHECK`s of `Update`: the count, those of `EraseOld`, the `dchecked_cast` of the
offset and the bound on it. -/
def updateChecks (s : RateStatistics) (count now_ms : ℤ) : Bool :=
  decide (0 ≤ count) &&
    (decide (now_ms < s.oldest_time_) ||
      let s' := (s.eraseOld now_ms).startAt now_ms
      s.eraseOldChecks now_ms &&
        decide (0 ≤ now_ms - s'.oldest_time_) && decide (now_ms - s'.oldest_time_ < 2 ^ 32) &&
        decide (toUInt32 (now_ms - s'.oldest_time_) < s'.max_window_size_ms_))

/-- A window no longer than the greatest one. -/
def setWindowSize (s : RateStatistics) (window_size_ms now_ms : ℤ) : Bool × RateStatistics :=
  if window_size_ms ≤ 0 ∨ s.max_window_size_ms_ < window_size_ms then (false, s)
  else (true, { s with current_window_size_ms_ := window_size_ms }.eraseOld now_ms)

/-- What `Rate` reads of the object once it has culled. -/
structure Seen where
  accumulated_count_ : ℤ
  num_samples_ : ℤ
  active_window_size : ℤ
  overflow_ : Bool
  current_window_size_ms_ : ℤ
  deriving DecidableEq, Repr

/-- What `Rate` looks at, after culling. -/
def seen (s : RateStatistics) (now_ms : ℤ) : Seen where
  accumulated_count_ := s.accumulated_count_
  num_samples_ := s.num_samples_
  active_window_size := toInt32 (now_ms - s.oldest_time_ + 1)
  overflow_ := s.overflow_
  current_window_size_ms_ := s.current_window_size_ms_

/-- The test of `Rate` for "rate unavailable". -/
def Seen.unavailable (r : Seen) : Bool :=
  decide (r.num_samples_ = 0) || decide (r.active_window_size ≤ 1) ||
    (decide (r.num_samples_ ≤ 1) && decide (r.active_window_size < r.current_window_size_ms_)) ||
    r.overflow_

/-- The value of `Rate`, in single precision. -/
def Seen.result (r : Seen) (scale_ : Float32) : Option ℤ :=
  if r.unavailable then none
  else
    let scale := scale_ / Float32.ofInt r.active_window_size
    let result := Float32.ofInt r.accumulated_count_ * scale + 0.5
    if result > Float32.ofInt int64Max then none else some result.toInt64.toInt

/-- `Rate`: the value, and the object after the culling behind the `const_cast`. -/
def rate (s : RateStatistics) (now_ms : ℤ) : Option ℤ × RateStatistics :=
  let s' := s.eraseOld now_ms
  ((s'.seen now_ms).result s.scale_, s')

end RateStatistics

end RtcBase
