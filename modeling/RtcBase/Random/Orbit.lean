import RtcBase.Random.Unit

/-!
# The states of a generator

* `new`, `nextOutputs`: a generator from its seed, and the outputs of a number of calls;
* `nextOutputs_eq`: they are read off the iterates of `nextState`;
* **`state_never_dies`**: from a seed that is not 0 no state and no output is 0.
-/

namespace RtcBase

namespace Random

variable (dcheckIsOn : Bool)

/-- `Random(seed)`. -/
def new (seed : BitVec 64) : Option Random :=
  if dcheckIsOn && seed = 0 then none else some ⟨seed⟩

/-- The outputs of `n` calls of `NextOutput`, and the generator after them. -/
def nextOutputs : ℕ → Random → Option (List (BitVec 64) × Random)
  | 0, r => some ([], r)
  | n + 1, r =>
    (nextOutput dcheckIsOn r).bind fun next =>
      (nextOutputs n next.2).map fun rest => (next.1 :: rest.1, rest.2)

theorem nextState_bijective : Function.Bijective nextState :=
  Xorshift.bijective_of_injective nextState_injective

theorem output_ne_zero {state_ : BitVec 64} (h : state_ ≠ 0) : output state_ ≠ 0 :=
  fun hzero => h (output_injective (hzero.trans output_zero.symm))

theorem iterate_ne_zero {state_ : BitVec 64} (h : state_ ≠ 0) (n : ℕ) :
    nextState^[n] state_ ≠ 0 := by
  induction n generalizing state_ with
  | zero => exact h
  | succ n ih => exact ih (nextState_ne_zero h)

/-- No check fails, and the outputs are those of the states that the calls find. -/
theorem nextOutputs_eq {state_ : BitVec 64} (h : state_ ≠ 0) (n : ℕ) :
    nextOutputs dcheckIsOn n ⟨state_⟩ =
      some ((List.range n).map fun k => output (nextState^[k] state_), ⟨nextState^[n] state_⟩) := by
  induction n generalizing state_ with
  | zero => rfl
  | succ n ih =>
    have hstate : (⟨state_⟩ : Random).state_ ≠ 0 := h
    rw [nextOutputs, nextOutput_eq dcheckIsOn hstate, Option.bind_some, ih (nextState_ne_zero h),
      Option.map_some, List.range_succ_eq_map, List.map_cons, List.map_map]
    rfl

/-- **The state never dies**: from a seed that is not 0, no check fails in any number of calls, the
state is not 0 after them, and no output is 0. No two states ever become one. -/
theorem state_never_dies {seed : BitVec 64} (h : seed ≠ 0) (n : ℕ) :
    (∃ r outs r', new dcheckIsOn seed = some r ∧
      nextOutputs dcheckIsOn n r = some (outs, r') ∧ outs.length = n ∧
      r'.state_ = nextState^[n] seed ∧ r'.state_ ≠ 0 ∧ ∀ out ∈ outs, out ≠ 0) ∧
    Function.Bijective nextState ∧ Function.Injective nextState^[n] := by
  refine ⟨?_, nextState_bijective, nextState_injective.iterate n⟩
  have hnew : new dcheckIsOn seed = some ⟨seed⟩ := by
    rw [new, decide_eq_false h, Bool.and_false]
    rfl
  refine ⟨_, _, _, hnew, nextOutputs_eq dcheckIsOn h n, ?_, rfl, iterate_ne_zero h n, ?_⟩
  · rw [List.length_map, List.length_range]
  · intro out hout
    obtain ⟨k, -, rfl⟩ := List.mem_map.mp hout
    exact output_ne_zero (iterate_ne_zero h k)

/-- Three calls from the seed 1. -/
theorem state_never_dies_sample :
    (∃ r outs r', new true 1 = some r ∧ nextOutputs true 3 r = some (outs, r') ∧
      outs.length = 3 ∧ r'.state_ = nextState^[3] 1 ∧ r'.state_ ≠ 0 ∧ ∀ out ∈ outs, out ≠ 0) ∧
    Function.Bijective nextState ∧ Function.Injective nextState^[3] :=
  state_never_dies true (by decide) 3

end Random

end RtcBase
