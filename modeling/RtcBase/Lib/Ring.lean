import Mathlib

/-!
# Positions in a ring

Positions `0, …, n - 1` reached by adding an offset below `n` and wrapping around with one
subtraction.

* `wrap_int`, `wrap_nat`: one conditional subtraction is the remainder;
* `wrap_inj`: distinct offsets reach distinct positions;
* `mod_ne_of_lt`: absolute positions less than one lap apart are distinct positions.
-/

namespace Ring

theorem wrap_int {n i k : ℤ} (hi : 0 ≤ i) (hin : i < n) (hk : 0 ≤ k) (hkn : k < n) :
    (i + k) % n = if n ≤ i + k then i + k - n else i + k := by
  split_ifs with h
  · rw [← Int.sub_emod_right, Int.emod_eq_of_lt (by omega) (by omega)]
  · exact Int.emod_eq_of_lt (by omega) (by omega)

theorem wrap_inj {n i j k : ℤ} (hi : 0 ≤ i) (hin : i < n) (hj : 0 ≤ j) (hjn : j < n)
    (hk : 0 ≤ k) (hkn : k < n) (h : (i + j) % n = (i + k) % n) : j = k := by
  rw [wrap_int hi hin hj hjn, wrap_int hi hin hk hkn] at h
  split_ifs at h <;> omega

theorem wrap_nat {n i k : ℕ} (hin : i < n) (hkn : k ≤ n) :
    (i + k) % n = if n ≤ i + k then i + k - n else i + k := by
  split_ifs with h
  · rw [Nat.mod_eq_sub_mod h, Nat.mod_eq_of_lt (by omega)]
  · exact Nat.mod_eq_of_lt (by omega)

theorem mod_ne_of_lt {n a b : ℕ} (h₁ : a < b) (h₂ : b < a + n) : a % n ≠ b % n := by
  intro h
  have h₃ : n ∣ b - a := (Nat.modEq_iff_dvd' h₁.le).mp h
  exact absurd (Nat.le_of_dvd (by omega) h₃) (by omega)

end Ring
