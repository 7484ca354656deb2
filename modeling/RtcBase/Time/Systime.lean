import RtcBase.Lib.Run
import RtcBase.Time.Timespec

/-!
# The Windows clock

`timeGetTime` shows the low 32 bits of a counter of milliseconds. `timespec_get_systime` counts how
often it has wrapped.

* `Clock`, `timespecGetSystime`: the two static variables, and the function;
* `Synced`: what the variables say about the counter;
* `synced_step`: one call;
* **`ticks_exact`**: all calls.
-/

namespace RtcBase

open Word

/-- The static variables of the function. -/
structure Clock where
  last_timegettime : Int32
  num_wrap_timegettime : ℤ
  deriving DecidableEq

namespace Clock

open Timespec

/-! ## The function -/

/-- The static variables before the first call. -/
def init : Clock := ⟨0, 0⟩

/-- What `timeGetTime` returns when the counter is `c`. -/
def timeGetTime (c : ℕ) : UInt32 := UInt32.ofNat c

/-- `timespec_get_systime`, for one thread: `ticks` and the timespec, and the static variables. -/
def timespecGetSystime (clock : Clock) (now : UInt32) : (ℤ × Timespec) × Clock :=
  let old := clock.last_timegettime.toUInt32
  let num_wrap_timegettime :=
    if now < old ∧ old > 0xf0000000 ∧ now < 0x0fffffff then
      toInt64 (clock.num_wrap_timegettime + 1)
    else clock.num_wrap_timegettime
  let ticks := toInt64 (now.toNat + toInt64 (num_wrap_timegettime * 2 ^ 32))
  ((ticks, timeToTimespec ticks), ⟨now.toInt32, num_wrap_timegettime⟩)

/-! ## The counter -/

/-- The variables have the low and the high half of the counter. -/
structure Synced (c : ℕ) (clock : Clock) : Prop where
  last : clock.last_timegettime.toUInt32 = timeGetTime c
  num_wrap : clock.num_wrap_timegettime = (c / 2 ^ 32 : ℕ)

/-- The counter goes on, by less than the threshold of the code. -/
def Follows (c c' : ℕ) : Prop := c ≤ c' ∧ c' - c < 0x0fffffff

/-- What a call should give. -/
structure Faithful (c : ℕ) (result : ℤ × Timespec) : Prop where
  ticks : result.1 = c
  normalized : result.2.Normalized
  ns : result.2.ns = c * NS_PER_MS

section Step

variable {c c' : ℕ} {clock : Clock}

theorem synced_init : Synced 0 init := ⟨rfl, rfl⟩

theorem toNat_timeGetTime (c : ℕ) : (timeGetTime c).toNat = c % 2 ^ 32 := UInt32.toNat_ofNat'

/-- **One call.** Either there is no wrap, or the counter has gone on by little. -/
theorem synced_step (h : Synced c clock) (hle : c ≤ c')
    (hgap : c' / 2 ^ 32 = c / 2 ^ 32 ∨ c' - c < 0x0fffffff) (hfits : c' ≤ int64Max) :
    Faithful c' (timespecGetSystime clock (timeGetTime c')).1 ∧
      Synced c' (timespecGetSystime clock (timeGetTime c')).2 := by
  unfold int64Max at hfits
  have hwrap : (if timeGetTime c' < timeGetTime c ∧ timeGetTime c > 0xf0000000 ∧
        timeGetTime c' < 0x0fffffff then toInt64 (clock.num_wrap_timegettime + 1)
      else clock.num_wrap_timegettime) = (c' / 2 ^ 32 : ℕ) := by
    have h₁ : (0xf0000000 : UInt32).toNat = 0xf0000000 := rfl
    have h₂ : (0x0fffffff : UInt32).toNat = 0x0fffffff := rfl
    simp only [gt_iff_lt, UInt32.lt_iff_toNat_lt, toNat_timeGetTime, h₁, h₂, h.num_wrap]
    split_ifs with hlow
    · rw [toInt64_of_mem (by omega) (by unfold int64Max; omega)]
      omega
    · omega
  have hticks : toInt64 ((timeGetTime c').toNat + toInt64 ((c' / 2 ^ 32 : ℕ) * 2 ^ 32)) = c' := by
    have hhigh : toInt64 ((c' / 2 ^ 32 : ℕ) * 2 ^ 32) = (c' / 2 ^ 32 : ℕ) * 2 ^ 32 :=
      toInt64_of_mem (by omega) (by unfold int64Max; omega)
    rw [toNat_timeGetTime, hhigh, toInt64_of_mem (by omega) (by unfold int64Max; omega)]
    omega
  unfold timespecGetSystime
  simp only [h.last, hwrap, hticks]
  refine ⟨⟨rfl, ?_, timeToTimespec_ns c'⟩, ?_, rfl⟩
  · exact (timeToTimespec_normalized_iff c').mpr (.inl (Int.natCast_nonneg c'))
  · simp

end Step

/-! ## All calls -/

theorem trace_faithful {c : ℕ} {clock : Clock} (h : Synced c clock) (cs : List ℕ)
    (hcs : List.IsChain Follows (c :: cs)) (hfits : ∀ c ∈ cs, (c : ℤ) ≤ int64Max) :
    List.Forall₂ Faithful cs
        (Run.trace timespecGetSystime clock (cs.map timeGetTime)).1 ∧
      Synced (cs.getLastD c) (Run.trace timespecGetSystime clock (cs.map timeGetTime)).2 := by
  induction cs generalizing c clock with
  | nil => exact ⟨.nil, h⟩
  | cons c' cs ih =>
    obtain ⟨⟨hle, hgap⟩, hcs⟩ := List.isChain_cons_cons.mp hcs
    obtain ⟨hfaithful, hsynced⟩ := synced_step h hle (.inr hgap) (hfits c' List.mem_cons_self)
    obtain ⟨hall, hlast⟩ := ih hsynced hcs fun c hc => hfits c (List.mem_cons_of_mem c' hc)
    refine ⟨.cons hfaithful hall, ?_⟩
    rw [List.getLastD_cons]
    exact hlast

/-- What is faithful to a counter that never goes back never goes back. -/
theorem faithful_pairwise {cs : List ℕ} {results : List (ℤ × Timespec)}
    (hcs : cs.Pairwise (· ≤ ·)) (h : List.Forall₂ Faithful cs results) :
    results.Pairwise fun r r' => r.2.ns ≤ r'.2.ns := by
  have hns : results.map (fun r => r.2.ns) = cs.map fun c : ℕ => c * NS_PER_MS := by
    clear hcs
    induction h with
    | nil => rfl
    | cons hfaithful _ ih => rw [List.map_cons, List.map_cons, hfaithful.ns, ih]
  rw [← List.pairwise_map (R := (· ≤ ·)) (f := fun r : ℤ × Timespec => r.2.ns), hns,
    List.pairwise_map]
  have hpos : 0 ≤ NS_PER_MS := by decide
  refine hcs.imp fun {c c'} hle => ?_
  gcongr

/-- **The ticks are exact**, over any number of wraps. -/
theorem ticks_exact (c₀ : ℕ) (cs : List ℕ) (h₀ : c₀ < 2 ^ 32)
    (hcs : List.IsChain Follows (c₀ :: cs)) (hfits : ∀ c ∈ c₀ :: cs, (c : ℤ) ≤ int64Max) :
    List.Forall₂ Faithful (c₀ :: cs)
        (Run.trace timespecGetSystime init ((c₀ :: cs).map timeGetTime)).1 ∧
      (Run.trace timespecGetSystime init ((c₀ :: cs).map timeGetTime)).1.Pairwise
        (fun r r' => r.2.ns ≤ r'.2.ns) ∧
      (Run.trace timespecGetSystime init ((c₀ :: cs).map timeGetTime)).2.num_wrap_timegettime =
        (cs.getLastD c₀ / 2 ^ 32 : ℕ) := by
  have hfirst : c₀ / 2 ^ 32 = 0 / 2 ^ 32 := by omega
  obtain ⟨hfaithful, hsynced⟩ := synced_step synced_init (Nat.zero_le c₀) (.inl hfirst)
    (hfits c₀ List.mem_cons_self)
  obtain ⟨hall, hlast⟩ := trace_faithful hsynced cs hcs fun c hc =>
    hfits c (List.mem_cons_of_mem c₀ hc)
  have hsorted : (c₀ :: cs).Pairwise (· ≤ ·) := (hcs.imp fun _ _ h => h.1).pairwise
  exact ⟨.cons hfaithful hall, faithful_pairwise hsorted (.cons hfaithful hall), hlast.num_wrap⟩

/-- A wrap between two calls, which are 15 milliseconds apart. -/
theorem ticks_exact_sample : List.Forall₂ Faithful [2 ^ 32 - 10, 2 ^ 32 + 5]
    (Run.trace timespecGetSystime init ([2 ^ 32 - 10, 2 ^ 32 + 5].map timeGetTime)).1 :=
  (ticks_exact (2 ^ 32 - 10) [2 ^ 32 + 5] (by decide) (by simp [Follows])
    (by simp [int64Max])).1

end Clock

end RtcBase
