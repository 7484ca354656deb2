import Mathlib

/-!
# Xorshift

A word that is combined with a shift of itself can be read back bit by bit, from the end at which
the shift has put zeros.

* `xorRight`, `xorLeft`: the two steps;
* **`xorRight_injective`**, **`xorLeft_injective`**: no two words become the same;
* `mul_injective`: nor do they by a multiplication that can be undone;
* `bijective_of_injective`: then every word is reached.
-/

namespace Xorshift

variable {w : ℕ}

/-- `x ^= x >> a`. -/
def xorRight (a : ℕ) (x : BitVec w) : BitVec w := x ^^^ (x >>> a)

/-- `x ^= x << a`. -/
def xorLeft (a : ℕ) (x : BitVec w) : BitVec w := x ^^^ (x <<< a)

theorem xorRight_injective {a : ℕ} (ha : 0 < a) : Function.Injective (xorRight (w := w) a) := by
  intro x y h
  -- the bits at the top are those of the words; each bit below needs one that is higher
  have hbit : ∀ k i, w ≤ i + k → x.getLsbD i = y.getLsbD i := by
    intro k
    induction k with
    | zero =>
      intro i hi
      rw [BitVec.getLsbD_of_ge x i hi, BitVec.getLsbD_of_ge y i hi]
    | succ k ih =>
      intro i hi
      have hxor := congrArg (fun z => z.getLsbD i) h
      simp only [xorRight, BitVec.getLsbD_xor, BitVec.getLsbD_ushiftRight,
        ih (a + i) (by omega)] at hxor
      exact Bool.xor_left_inj.mp hxor
  exact BitVec.eq_of_getLsbD_eq fun i _ => hbit w i (Nat.le_add_left _ _)

theorem xorLeft_injective {a : ℕ} (ha : 0 < a) : Function.Injective (xorLeft (w := w) a) := by
  intro x y h
  refine BitVec.eq_of_getLsbD_eq fun i hi => ?_
  induction i using Nat.strong_induction_on with
  | _ i ih =>
    have hxor := congrArg (fun z => z.getLsbD i) h
    simp only [xorLeft, BitVec.getLsbD_xor, BitVec.getLsbD_shiftLeft, hi, decide_true,
      Bool.true_and] at hxor
    by_cases hia : i < a
    · simpa [hia] using hxor
    · rw [ih (i - a) (by omega) (by omega)] at hxor
      exact Bool.xor_left_inj.mp hxor

theorem xorRight_zero (a : ℕ) : xorRight a (0 : BitVec w) = 0 := by
  simp [xorRight]

theorem xorLeft_zero (a : ℕ) : xorLeft a (0 : BitVec w) = 0 := by
  simp [xorLeft]

theorem mul_injective {c c' : BitVec w} (h : c * c' = 1) :
    Function.Injective fun x : BitVec w => x * c := by
  refine Function.LeftInverse.injective (g := fun x => x * c') fun x => ?_
  simp only
  rw [BitVec.mul_assoc, h]
  exact BitVec.mul_one x

theorem bijective_of_injective {f : BitVec w → BitVec w} (h : Function.Injective f) :
    Function.Bijective f := by
  have hfinite : Finite (BitVec w) := Finite.of_injective BitVec.toFin fun x y hxy =>
    BitVec.eq_of_toFin_eq hxy
  exact Finite.injective_iff_bijective.mp h

end Xorshift
