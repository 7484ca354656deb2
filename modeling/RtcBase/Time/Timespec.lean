import RtcBase.Lib.Word

/-!
# Timespecs

Seconds and nanoseconds, as in `time_c_inl.h`. Quotients and remainders of C are rounded towards 0.

* `Timespec`, `Timespec.Normalized`, `Timespec.ns`: seconds with a part of a second, and what they
  denote;
* `timespecNormalize`, `timeToTimespec`, `timespecToTime`, `timespecAfter`, `getTimespec`: the
  functions;
* `timespecNormalize_spec`: a part of a second that is negative is left as it is;
* `timeToTimespec_ns`, `timespecAfter_spec`: what the functions denote is exact;
* **`timespec_iff`**: when their results are normalised.
-/

namespace RtcBase

open Word

/-- A `struct timespec`. -/
structure Timespec where
  tv_sec : ℤ
  tv_nsec : ℤ
  deriving DecidableEq, Repr

namespace Timespec

/-- `NS_PER_SEC`. -/
def NS_PER_SEC : ℤ := 1000000000

/-- `NS_PER_MS`. -/
def NS_PER_MS : ℤ := 1000000

/-- `MS_PER_SEC`. -/
def MS_PER_SEC : ℤ := 1000

/-! ## The functions -/

/-- `timespec_normalize`, which carries what is too much. -/
def timespecNormalize (ts : Timespec) : Timespec :=
  if ts.tv_nsec ≥ NS_PER_SEC then
    { tv_sec := toInt64 (ts.tv_sec + ts.tv_nsec.tdiv NS_PER_SEC)
      tv_nsec := ts.tv_nsec.tmod NS_PER_SEC }
  else ts

/-- `timespec_from_millisec`. -/
def timeToTimespec (ms : ℤ) : Timespec :=
  timespecNormalize
    { tv_sec := ms.tdiv MS_PER_SEC
      tv_nsec := ms.tmod MS_PER_SEC * NS_PER_MS }

/-- `timespec_to_millisec`. -/
def timespecToTime (ts : Timespec) : ℤ :=
  toInt64 (ts.tv_sec * MS_PER_SEC + ts.tv_nsec.tdiv NS_PER_MS)

/-- `timespec_after`: the sum of a time and a span. -/
def timespecAfter (ts elapsed : Timespec) : Timespec :=
  timespecNormalize
    { tv_sec := toInt64 (ts.tv_sec + elapsed.tv_sec)
      tv_nsec := ts.tv_nsec + elapsed.tv_nsec }

/-- `GetTimespec` of `event.cc`, where `Timespec` has read `now`. -/
def getTimespec (now : Timespec) (milliseconds_from_now : ℤ) : Timespec :=
  timespecAfter now (timeToTimespec milliseconds_from_now)

/-! ## What they denote -/

/-- The nanoseconds are those of one second. -/
structure Normalized (ts : Timespec) : Prop where
  nonneg : 0 ≤ ts.tv_nsec
  lt : ts.tv_nsec < NS_PER_SEC

/-- The nanoseconds in all. -/
def ns (ts : Timespec) : ℤ := ts.tv_sec * NS_PER_SEC + ts.tv_nsec

/-- The seconds of a sum do not overflow, with the carry or without. -/
structure Fits (ts elapsed : Timespec) : Prop where
  sum : IsInt64 (ts.tv_sec + elapsed.tv_sec)
  carry : IsInt64 (ts.tv_sec + elapsed.tv_sec + (ts.tv_nsec + elapsed.tv_nsec).tdiv NS_PER_SEC)

variable {ts t e : Timespec} {ms : ℤ}

theorem timespecNormalize_of_lt (h : ts.tv_nsec < NS_PER_SEC) : timespecNormalize ts = ts :=
  if_neg (not_le.mpr h)

/-- Normalising keeps what is denoted, and takes the part of a second below a second, but it does
not lift it to 0. -/
theorem timespecNormalize_spec (h : IsInt64 (ts.tv_sec + ts.tv_nsec.tdiv NS_PER_SEC)) :
    (timespecNormalize ts).ns = ts.ns ∧ ((timespecNormalize ts).Normalized ↔ 0 ≤ ts.tv_nsec) := by
  unfold timespecNormalize
  split_ifs with hge
  · have hpos : 0 ≤ ts.tv_nsec := (by decide : (0 : ℤ) ≤ NS_PER_SEC).trans hge
    obtain ⟨hsplit, hmod, -⟩ := tdiv_tmod ts.tv_nsec (by decide : 0 < NS_PER_SEC)
    refine ⟨?_, iff_of_true ⟨(hmod hpos).1, (hmod hpos).2⟩ hpos⟩
    rw [ns, ns, toInt64_of_mem h.1 h.2]
    linarith
  · exact ⟨rfl, fun hnorm => hnorm.nonneg, fun h₀ => ⟨h₀, not_le.mp hge⟩⟩

/-- The milliseconds below a second are no second. -/
theorem timeToTimespec_eq (ms : ℤ) :
    timeToTimespec ms = ⟨ms.tdiv MS_PER_SEC, ms.tmod MS_PER_SEC * NS_PER_MS⟩ := by
  have hlt := Int.tmod_lt_of_pos ms (by decide : 0 < MS_PER_SEC)
  refine timespecNormalize_of_lt ?_
  unfold MS_PER_SEC at hlt ⊢
  unfold NS_PER_MS NS_PER_SEC
  simp only
  omega

theorem timeToTimespec_ns (ms : ℤ) : (timeToTimespec ms).ns = ms * NS_PER_MS := by
  have hsplit := (tdiv_tmod ms (by decide : 0 < MS_PER_SEC)).1
  have hunits : NS_PER_SEC = MS_PER_SEC * NS_PER_MS := by decide
  rw [timeToTimespec_eq, ns, hunits]
  linear_combination NS_PER_MS * hsplit

theorem timespecToTime_timeToTimespec (h : IsInt64 ms) :
    timespecToTime (timeToTimespec ms) = ms := by
  rw [timespecToTime, timeToTimespec_eq,
    Int.mul_tdiv_cancel (ms.tmod MS_PER_SEC) (by decide : NS_PER_MS ≠ 0), mul_comm,
    Int.mul_tdiv_add_tmod, toInt64_of_mem h.1 h.2]

/-- The part of a second is negative for a negative number of milliseconds, unless it is 0. -/
theorem timeToTimespec_normalized_iff (ms : ℤ) :
    (timeToTimespec ms).Normalized ↔ 0 ≤ ms ∨ 1000 ∣ ms := by
  obtain ⟨hsplit, hpos, hneg⟩ := tdiv_tmod ms (by decide : 0 < MS_PER_SEC)
  rw [timeToTimespec_eq]
  unfold MS_PER_SEC at hsplit hpos hneg ⊢
  unfold NS_PER_MS
  constructor
  · rintro ⟨h, -⟩
    simp only at h
    omega
  · intro h
    refine ⟨?_, ?_⟩
    · simp only
      omega
    · unfold NS_PER_SEC
      simp only
      omega

/-! ## Sums -/

theorem timespecAfter_spec (h : Fits t e) : (timespecAfter t e).ns = t.ns + e.ns ∧
    ((timespecAfter t e).Normalized ↔ 0 ≤ t.tv_nsec + e.tv_nsec) := by
  have hsum : toInt64 (t.tv_sec + e.tv_sec) = t.tv_sec + e.tv_sec :=
    toInt64_of_mem h.sum.1 h.sum.2
  rw [timespecAfter, hsum]
  obtain ⟨hns, hnorm⟩ :=
    @timespecNormalize_spec ⟨t.tv_sec + e.tv_sec, t.tv_nsec + e.tv_nsec⟩ h.carry
  refine ⟨hns.trans ?_, hnorm⟩
  simp only [ns]
  ring

/-- **When the results are normalised**: a number of milliseconds just when it is not negative or a
number of whole seconds, and a sum just when the parts of a second are not negative together. In
any case what they denote is exact, and so it is monotone. -/
theorem timespec_iff (ms : ℤ) (h : IsInt64 ms) :
    ((timeToTimespec ms).Normalized ∧ (timeToTimespec ms).ns = ms * NS_PER_MS ∧
      timespecToTime (timeToTimespec ms) = ms ↔ 0 ≤ ms ∨ 1000 ∣ ms) ∧
    (∀ t : Timespec, t.Normalized → Fits t (timeToTimespec ms) →
      ((timespecAfter t (timeToTimespec ms)).Normalized ∧
        (timespecAfter t (timeToTimespec ms)).ns = t.ns + ms * NS_PER_MS ↔
        0 ≤ t.tv_nsec + ms.tmod 1000 * NS_PER_MS)) ∧
    (∀ (t : Timespec) (ms' : ℤ), IsInt64 ms' → t.Normalized → Fits t (timeToTimespec ms) →
      Fits t (timeToTimespec ms') → ms ≤ ms' →
      (timespecAfter t (timeToTimespec ms)).ns ≤ (timespecAfter t (timeToTimespec ms')).ns) ∧
    (-2 ^ 31 ≤ ms → ms ≤ intMax → ∀ now : Timespec, now.Normalized →
      Fits now (timeToTimespec ms) →
      ((getTimespec now ms).Normalized ∧ (getTimespec now ms).ns = now.ns + ms * NS_PER_MS ↔
        0 ≤ now.tv_nsec + ms.tmod 1000 * NS_PER_MS)) := by
  have hafter : ∀ t : Timespec, Fits t (timeToTimespec ms) →
      ((timespecAfter t (timeToTimespec ms)).Normalized ∧
        (timespecAfter t (timeToTimespec ms)).ns = t.ns + ms * NS_PER_MS ↔
        0 ≤ t.tv_nsec + ms.tmod 1000 * NS_PER_MS) := by
    intro t hfits
    obtain ⟨hns, hnorm⟩ := timespecAfter_spec hfits
    rw [hnorm, hns, timeToTimespec_ns, timeToTimespec_eq]
    exact and_iff_left rfl
  refine ⟨?_, fun t _ => hafter t, ?_, fun _ _ now _ => hafter now⟩
  · rw [timeToTimespec_normalized_iff]
    exact and_iff_left ⟨timeToTimespec_ns ms, timespecToTime_timeToTimespec h⟩
  · intro t ms' _ _ hfits hfits' hle
    rw [(timespecAfter_spec hfits).1, (timespecAfter_spec hfits').1, timeToTimespec_ns,
      timeToTimespec_ns]
    have hpos : 0 ≤ NS_PER_MS := by decide
    gcongr

/-- 1.5 seconds after 2.7 seconds. -/
theorem timespec_iff_sample :
    (timeToTimespec 1500).Normalized ∧
      (timespecAfter ⟨2, 700000000⟩ (timeToTimespec 1500)).ns = 4200000000 := by
  obtain ⟨hfrom, hafter, -⟩ := timespec_iff 1500 ⟨by decide, by decide⟩
  have hfits : Fits ⟨2, 700000000⟩ (timeToTimespec 1500) :=
    ⟨⟨by decide, by decide⟩, ⟨by decide, by decide⟩⟩
  refine ⟨(hfrom.mpr (by decide)).1, ?_⟩
  exact ((hafter _ ⟨by decide, by decide⟩ hfits).mpr (by decide)).2.trans (by decide)

/-- Two milliseconds before a whole second, as a time and as a deadline. -/
theorem timespec_not_normalized :
    timeToTimespec (-2) = ⟨0, -2000000⟩ ∧ ¬ (timeToTimespec (-2)).Normalized ∧
      getTimespec ⟨5, 0⟩ (-2) = ⟨5, -2000000⟩ ∧ ¬ (getTimespec ⟨5, 0⟩ (-2)).Normalized := by
  refine ⟨by decide, fun h => ?_, by decide, fun h => ?_⟩
  · exact absurd h.nonneg (by decide)
  · exact absurd h.nonneg (by decide)

end Timespec

end RtcBase
