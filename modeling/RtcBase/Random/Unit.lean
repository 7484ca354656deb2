import RtcBase.Random.Model

/-!
# Random numbers below 1

`Rand<double>` and `Rand<float>` divide an output less 1 by the largest output less 1.

* `quotient`: the quotient, before it is rounded;
* `output_injective`: no two states have one output;
* **`quotient_lt_iff`**: the one state in which the quotient is not below 1.
-/

namespace RtcBase

namespace Random

/-- `(NextOutput() - 1) / 0xFFFFFFFFFFFFFFFEull`. -/
def quotient (dcheckIsOn : Bool) (r : Random) : Option ℚ :=
  (nextOutput dcheckIsOn r).map fun next => ((next.1 - 1).toNat : ℚ) / 0xFFFFFFFFFFFFFFFE

/-! ## Outputs -/

/-- What `NextOutput` returns in a state. -/
def output (state_ : BitVec 64) : BitVec 64 := nextState state_ * multiplier

theorem output_injective : Function.Injective output := by
  have hinverse : multiplier * 6415128727920758069#64 = 1 := by decide
  exact (Xorshift.mul_injective hinverse).comp nextState_injective

theorem output_zero : output 0 = 0 := by
  rw [output, nextState_zero]
  decide

/-- The state before the largest output. -/
def lastState : BitVec 64 := 0xa8d395be4b19cce8#64

theorem output_lastState : output lastState = BitVec.allOnes 64 := by decide

/-- The numerator is as large as the denominator only for the largest output. -/
theorem numerator_lt_iff {out : BitVec 64} (h : out ≠ 0) :
    (out - 1).toNat < 0xFFFFFFFFFFFFFFFE ↔ out ≠ BitVec.allOnes 64 := by
  have hone : (1 : BitVec 64).toNat = 1 := rfl
  have hpos : out.toNat ≠ 0 := fun hzero => h (BitVec.eq_of_toNat_eq hzero)
  rw [Ne, BitVec.toNat_eq, BitVec.toNat_allOnes, BitVec.toNat_sub, hone]
  omega

/-- **The quotient is below 1** in every state but one, and 0. -/
theorem quotient_lt_iff (dcheckIsOn : Bool) (r : Random) (h : r.state_ ≠ 0) :
    (∃ q, quotient dcheckIsOn r = some q ∧ 0 ≤ q ∧ q < 1) ↔ r.state_ ≠ lastState := by
  have hquotient : quotient dcheckIsOn r =
      some (((output r.state_ - 1).toNat : ℚ) / 0xFFFFFFFFFFFFFFFE) := by
    rw [quotient, nextOutput_eq dcheckIsOn h, Option.map_some]
    rfl
  have hne : output r.state_ ≠ 0 := fun hzero =>
    h (output_injective (hzero.trans output_zero.symm))
  have hlt : ((output r.state_ - 1).toNat : ℚ) / 0xFFFFFFFFFFFFFFFE < 1 ↔
      r.state_ ≠ lastState := by
    rw [div_lt_one (by norm_num), ← output_injective.ne_iff, output_lastState,
      ← numerator_lt_iff hne]
    norm_cast
  constructor
  · rintro ⟨q, hq, -, hq₁⟩
    rw [hquotient] at hq
    cases hq
    exact hlt.mp hq₁
  · exact fun hstate => ⟨_, hquotient, by positivity, hlt.mpr hstate⟩

/-- The first quotient of the seed 1. -/
theorem quotient_lt_iff_sample : ∃ q, quotient true ⟨1⟩ = some q ∧ 0 ≤ q ∧ q < 1 :=
  (quotient_lt_iff true ⟨1⟩ (by decide)).mpr (by decide)

/-- In one state the quotient is 1. -/
theorem quotient_not_lt : lastState ≠ 0 ∧ quotient true ⟨lastState⟩ = some 1 := by
  refine ⟨by decide, ?_⟩
  have hstate : (⟨lastState⟩ : Random).state_ ≠ 0 := by decide
  have hnumerator : (output lastState - 1).toNat = 0xFFFFFFFFFFFFFFFE := by
    rw [output_lastState]
    decide
  rw [quotient, nextOutput_eq true hstate, Option.map_some]
  change some (((output lastState - 1).toNat : ℚ) / 0xFFFFFFFFFFFFFFFE) = some 1
  rw [hnumerator]
  norm_num

end Random

end RtcBase
