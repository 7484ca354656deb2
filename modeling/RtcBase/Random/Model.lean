import RtcBase.Lib.Scale
import RtcBase.Lib.Xorshift
import RtcBase.Numerics.SafeConversions

/-!
# `Random`

A call gives its result and the generator after it. Where `RTC_DCHECK`s are on (`dcheckIsOn`) and
one fails, there is none.

* `Random`, `nextState`, `nextOutput`: the generator;
* `rand`, `randUnsigned`, `randSigned`: random integers;
* `nextState_injective`, `nextState_ne_zero`: a state that is not 0 never becomes 0;
* `nextOutput_eq`: what the generator puts out.
-/

namespace RtcBase

open Word SafeConversions

/-- The generator, which has one word of state. -/
structure Random where
  state_ : BitVec 64
  deriving DecidableEq

namespace Random

/-! ## The generator -/

/-- The three steps of `NextOutput`. -/
def nextState (state_ : BitVec 64) : BitVec 64 :=
  Xorshift.xorRight 27 (Xorshift.xorLeft 25 (Xorshift.xorRight 12 state_))

/-- The factor between the state and the output. -/
def multiplier : BitVec 64 := 2685821657736338717#64

variable (dcheckIsOn : Bool)

/-- The next state, times the factor. There is no value if the `RTC_DCHECK` fails. -/
def nextOutput (r : Random) : Option (BitVec 64 × Random) :=
  let state_ := nextState r.state_
  if dcheckIsOn && state_ = 0 then none else some (state_ * multiplier, ⟨state_⟩)

/-! ## Random integers -/

/-- The scaling of `Rand(t)`. -/
def scaled (x t : BitVec 32) : BitVec 32 :=
  ((x.setWidth 64 * (t.setWidth 64 + 1)) >>> 32).setWidth 32

/-- `Rand(t)`. -/
def rand (t : BitVec 32) (r : Random) : Option (BitVec 32 × Random) :=
  (nextOutput dcheckIsOn r).map fun next => (scaled (next.1.setWidth 32) t, next.2)

/-- `Rand(low, high)` of `uint32_t`. -/
def randUnsigned (low high : BitVec 32) (r : Random) : Option (BitVec 32 × Random) :=
  if dcheckIsOn && !decide (low ≤ high) then none
  else (rand dcheckIsOn (high - low) r).map fun next => (next.1 + low, next.2)

/-- The result of an operation on `int64_t`. -/
def int64Value (x : ℤ) : IntType.int64.Value := ⟨toInt64 x, isInt64_toInt64 x⟩

/-- `Rand(low, high)` of `int32_t`. -/
def randSigned (low high : IntType.int32.Value) (r : Random) : Option (ℤ × Random) :=
  if dcheckIsOn && !decide (low.1 ≤ high.1) then none
  else
    let low_i64 := low.1
    (dcheckedCast .uint32 dcheckIsOn (int64Value (high.1 - low_i64))).bind fun t =>
      (rand dcheckIsOn (BitVec.ofInt 32 t) r).bind fun next =>
        (dcheckedCast .int32 dcheckIsOn (int64Value (next.1.toNat + low_i64))).map fun result =>
          (result, next.2)

/-! ## The state -/

theorem nextState_injective : Function.Injective nextState :=
  (Xorshift.xorRight_injective (by decide)).comp <|
    (Xorshift.xorLeft_injective (by decide)).comp (Xorshift.xorRight_injective (by decide))

theorem nextState_zero : nextState 0 = 0 := by
  rw [nextState, Xorshift.xorRight_zero, Xorshift.xorLeft_zero, Xorshift.xorRight_zero]

theorem nextState_ne_zero {state_ : BitVec 64} (h : state_ ≠ 0) : nextState state_ ≠ 0 :=
  fun hzero => h (nextState_injective (hzero.trans nextState_zero.symm))

/-- **What the generator puts out** in a state that is not 0. -/
theorem nextOutput_eq {r : Random} (h : r.state_ ≠ 0) : nextOutput dcheckIsOn r =
    some (nextState r.state_ * multiplier, ⟨nextState r.state_⟩) := by
  rw [nextOutput, decide_eq_false (nextState_ne_zero h), Bool.and_false]
  rfl

end Random

end RtcBase
