import Mathlib

/-!
# Thread ids

`Thrd` is a `pthread_t`, and `kNullThrd` is 0.

* `Pthreads`: the ids of threads, and how the system compares them;
* `thrd_equal`, `thrdEqual`: the comparison in two layers, each of which negates it;
* **`thrdEqual_iff`**: it is equality.
-/

namespace RtcBase

/-- A `thrd_t`, as a number. -/
abbrev Thrd := ℕ

/-- The null of `thrd_t`. -/
def kNullThrd : Thrd := 0

/-- `pthread_self` of the threads, and `pthread_equal`. -/
structure Pthreads (τ : Type) where
  pthread_self : τ → Thrd
  pthread_equal : Thrd → Thrd → ℤ
  self_injective : Function.Injective pthread_self
  self_ne_null : ∀ t, pthread_self t ≠ kNullThrd
  equal_ne_zero : ∀ thr0 thr1, pthread_equal thr0 thr1 ≠ 0 ↔ thr0 = thr1

namespace Pthreads

/-- Threads with the ids 1, 2, and so on. -/
def numbered : Pthreads ℕ where
  pthread_self t := t + 1
  pthread_equal thr0 thr1 := if thr0 = thr1 then 1 else 0
  self_injective := Nat.succ_injective
  self_ne_null := Nat.succ_ne_zero
  equal_ne_zero thr0 thr1 := by
    split_ifs with h
    · exact iff_of_true one_ne_zero h
    · exact iff_of_false (fun hne => hne rfl) h

variable {τ : Type} (P : Pthreads τ)

/-- `ThrdCurrent`. -/
def thrdCurrent (t : τ) : Thrd := P.pthread_self t

/-- `thrd_equal`, which gives 0 for equal threads. -/
def thrd_equal (thr0 thr1 : Thrd) : ℤ := if 0 = P.pthread_equal thr0 thr1 then 1 else 0

/-- `ThrdEqual`. -/
def thrdEqual (thr0 thr1 : Thrd) : Bool := P.thrd_equal thr0 thr1 = 0

/-- **The comparison**: the two negations cancel. -/
theorem thrdEqual_iff (thr0 thr1 : Thrd) : P.thrdEqual thr0 thr1 = true ↔ thr0 = thr1 := by
  rw [thrdEqual, decide_eq_true_iff, thrd_equal, ← P.equal_ne_zero]
  split_ifs with h
  · exact iff_of_false one_ne_zero fun hne => hne h.symm
  · exact iff_of_true rfl fun hzero => h hzero.symm

theorem thrdEqual_self (thr : Thrd) : P.thrdEqual thr thr = true :=
  (P.thrdEqual_iff thr thr).mpr rfl

theorem thrdCurrent_inj {t u : τ} : P.thrdCurrent t = P.thrdCurrent u ↔ t = u :=
  P.self_injective.eq_iff

end Pthreads

end RtcBase
