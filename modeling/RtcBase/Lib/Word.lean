import Mathlib

/-!
# Two's complement words as integers

Signed C integers are integers here. `toInt32` and `toInt64` give the value that an integer
result takes in 32 and 64 bits; on the range of the type they change nothing
(`toInt32_of_mem`, `toInt64_of_mem`).
-/

namespace Word

/-- The value of `x` in a 32-bit two's complement word. -/
def toInt32 (x : ℤ) : ℤ := x.bmod (2 ^ 32)

/-- The value of `x` in a 64-bit two's complement word. -/
def toInt64 (x : ℤ) : ℤ := x.bmod (2 ^ 64)

/-- The value of `x` in an unsigned 32-bit word. -/
def toUInt32 (x : ℤ) : ℤ := x % 2 ^ 32

/-- The value of `x` in a `size_t`. -/
def sizeT (x : ℕ) : ℕ := x % 2 ^ 64

/-- The difference of two `size_t`. -/
def sizeSub (x y : ℕ) : ℕ := ((x - y : ℤ) % 2 ^ 64).toNat

/-- The largest `int`. -/
def intMax : ℤ := 2 ^ 31 - 1

/-- The largest `int64_t`. -/
def int64Max : ℤ := 2 ^ 63 - 1

/-- An `int64_t`. -/
def IsInt64 (x : ℤ) : Prop := -2 ^ 63 ≤ x ∧ x ≤ int64Max

theorem isInt64_toInt64 (x : ℤ) : IsInt64 (toInt64 x) := by
  have h₁ : -(2 ^ 64 / 2 : ℤ) ≤ x.bmod (2 ^ 64) := Int.le_bmod (by decide)
  have h₂ : x.bmod (2 ^ 64) < (2 ^ 64 + 1) / 2 := Int.bmod_lt (by decide)
  unfold IsInt64 toInt64 int64Max
  omega

/-- A word of `n` bits holds the integers in its range. -/
theorem bmod_of_mem {n : ℕ} (hn : 0 < n) {x : ℤ} (h₁ : -2 ^ (n - 1) ≤ x) (h₂ : x < 2 ^ (n - 1)) :
    x.bmod (2 ^ n) = x := by
  have hhalf : ((2 ^ n : ℕ) : ℤ) = 2 * 2 ^ (n - 1) := by
    rw [Nat.cast_pow, Nat.cast_ofNat, ← pow_succ', Nat.sub_add_cancel hn]
  refine Int.bmod_eq_of_le_mul_two ?_ ?_
  · rw [hhalf]
    omega
  · rw [hhalf]
    omega

theorem toInt32_of_mem {x : ℤ} (h₁ : -2 ^ 31 ≤ x) (h₂ : x ≤ intMax) : toInt32 x = x := by
  unfold intMax at h₂
  exact bmod_of_mem (by decide) h₁ (by omega)

theorem toInt64_of_mem {x : ℤ} (h₁ : -2 ^ 63 ≤ x) (h₂ : x ≤ int64Max) : toInt64 x = x := by
  unfold int64Max at h₂
  exact bmod_of_mem (by decide) h₁ (by omega)

theorem toInt32_toInt64 (x : ℤ) : toInt32 (toInt64 x) = toInt32 x := by
  unfold toInt32 toInt64
  rw [Int.bmod_def, Int.bmod_def (x := x) (m := 2 ^ 64), Int.bmod_def (x := x) (m := 2 ^ 32)]
  split_ifs <;> omega

theorem toInt32_nonpos_iff (x : ℤ) : toInt32 x ≤ 0 ↔ x % 2 ^ 32 = 0 ∨ 2 ^ 31 ≤ x % 2 ^ 32 := by
  unfold toInt32
  rw [Int.bmod_def]
  split_ifs <;> omega

theorem toInt32_nonneg_iff (x : ℤ) : 0 ≤ toInt32 x ↔ x % 2 ^ 32 < 2 ^ 31 := by
  unfold toInt32
  rw [Int.bmod_def]
  split_ifs <;> omega

@[simp] theorem toInt32_zero : toInt32 0 = 0 := Int.zero_bmod

theorem toInt32_eq_zero_iff (x : ℤ) : toInt32 x = 0 ↔ 2 ^ 32 ∣ x := Int.dvd_iff_bmod_eq_zero.symm

theorem toInt32_add (x y : ℤ) : toInt32 (toInt32 x + y) = toInt32 (x + y) := Int.bmod_add_bmod

theorem toInt32_le {x : ℤ} (h : 0 ≤ x) : toInt32 x ≤ x := by
  unfold toInt32
  rw [Int.bmod_def]
  split_ifs <;> omega

theorem toInt32_eq_self_iff {x : ℤ} (h : 0 < x) : toInt32 x = x ↔ x ≤ intMax := by
  unfold toInt32 intMax
  rw [Int.bmod_def]
  split_ifs <;> omega

theorem toUInt32_of_mem {x : ℤ} (h₁ : 0 ≤ x) (h₂ : x < 2 ^ 32) : toUInt32 x = x :=
  Int.emod_eq_of_lt h₁ h₂

theorem sizeT_of_lt {x : ℕ} (h : x < 2 ^ 64) : sizeT x = x := Nat.mod_eq_of_lt h

theorem sizeSub_of_le {x y : ℕ} (h₁ : y ≤ x) (h₂ : x < 2 ^ 64) : sizeSub x y = x - y := by
  unfold sizeSub
  omega

theorem sizeT_pred {x : ℕ} (h₁ : 0 < x) (h₂ : x < 2 ^ 64) : sizeT (x + (2 ^ 64 - 1)) = x - 1 := by
  unfold sizeT
  omega

/-- The quotient and the remainder of C, which have the sign of `x`. -/
theorem tdiv_tmod (x : ℤ) {k : ℤ} (hk : 0 < k) :
    k * x.tdiv k + x.tmod k = x ∧ (0 ≤ x → 0 ≤ x.tmod k ∧ x.tmod k < k) ∧
      (x ≤ 0 → -k < x.tmod k ∧ x.tmod k ≤ 0) := by
  refine ⟨Int.mul_tdiv_add_tmod x k, fun h => ⟨Int.tmod_nonneg k h, Int.tmod_lt_of_pos x hk⟩,
    fun h => ?_⟩
  have h₁ := Int.tmod_nonneg k (Int.neg_nonneg_of_nonpos h)
  have h₂ := Int.tmod_lt_of_pos (-x) hk
  rw [Int.neg_tmod] at h₁ h₂
  omega

end Word
