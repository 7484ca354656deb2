import Mathlib

/-!
# Bit strings

A string of bits is a function from positions to `Bool`, read from the most significant bit on.

* `value f p n`: the number that the `n` bits from `p` on spell;
* `value_add`, `value_div`, `value_mod`: a string in two pieces;
* `value_of_testBit`: the number whose binary digits the bits are;
* `number`: the number that a list of bits spells;
* `exists_zeros`: the zeros that a string starts with.
-/

namespace Bits

variable {f : ℕ → Bool} {p : ℕ}

/-- The number that `n` bits from `p` on spell, the first one the highest. -/
def value (f : ℕ → Bool) (p : ℕ) : ℕ → ℕ
  | 0 => 0
  | n + 1 => 2 * value f p n + (f (p + n)).toNat

theorem value_add (f : ℕ → Bool) (p m n : ℕ) :
    value f p (m + n) = value f p m * 2 ^ n + value f (p + m) n := by
  induction n with
  | zero => simp [value]
  | succ n ih =>
    rw [← add_assoc]
    simp only [value, ih, ← add_assoc, pow_succ]
    ring

theorem value_one (f : ℕ → Bool) (p : ℕ) : value f p 1 = (f p).toNat := by simp [value]

theorem value_lt (f : ℕ → Bool) (p n : ℕ) : value f p n < 2 ^ n := by
  induction n with
  | zero => simp [value]
  | succ n ih =>
    have := Bool.toNat_le (f (p + n))
    simp only [value, pow_succ]
    omega

theorem value_div (f : ℕ → Bool) (p m n : ℕ) : value f p (m + n) / 2 ^ n = value f p m := by
  rw [value_add, mul_comm, Nat.mul_add_div (Nat.two_pow_pos n),
    Nat.div_eq_of_lt (value_lt f (p + m) n), add_zero]

theorem value_mod (f : ℕ → Bool) (p m n : ℕ) :
    value f p (m + n) % 2 ^ n = value f (p + m) n := by
  rw [value_add, mul_comm, Nat.mul_add_mod, Nat.mod_eq_of_lt (value_lt f (p + m) n)]

theorem value_of_testBit {n v : ℕ} (h : ∀ j < n, f (p + j) = v.testBit (n - 1 - j)) :
    value f p n = v % 2 ^ n := by
  induction n generalizing v with
  | zero => simp [value, Nat.mod_one]
  | succ n ih =>
    have hrest : value f p n = v / 2 % 2 ^ n := by
      refine ih fun j hj => ?_
      rw [h j (by omega), ← Nat.testBit_succ]
      congr 1
      omega
    have hlast : (f (p + n)).toNat = v % 2 := by
      rw [h n (by omega), show n + 1 - 1 - n = 0 by omega, Nat.toNat_testBit]
      simp
    have hsplit : v % 2 ^ (n + 1) = 2 * (v / 2 % 2 ^ n) + v % 2 := by
      rw [pow_succ', Nat.mod_mul, add_comm]
    rw [value, hrest, hlast, hsplit]

theorem testBit_value {n j : ℕ} (hj : j < n) : (value f p n).testBit (n - 1 - j) = f (p + j) := by
  have hdiv := value_div f p (j + 1) (n - 1 - j)
  rw [show j + 1 + (n - 1 - j) = n by omega] at hdiv
  rw [Nat.testBit_eq_decide_div_mod_eq, hdiv, value]
  cases f (p + j) <;> simp

/-! ## Lists of bits -/

/-- The number that a string of bits spells. -/
def number (s : List Bool) : ℕ := s.foldl (fun v x => 2 * v + x.toNat) 0

theorem number_snoc (s : List Bool) (x : Bool) : number (s ++ [x]) = 2 * number s + x.toNat := by
  rw [number, List.foldl_append]
  rfl

theorem number_eq_value {s : List Bool} (h : ∀ j (hj : j < s.length), s[j] = f (p + j)) :
    number s = value f p s.length := by
  induction s using List.reverseRecOn with
  | nil => rfl
  | append_singleton s x ih =>
    have hlen : (s ++ [x]).length = s.length + 1 := by simp
    have hinit : number s = value f p s.length := ih fun j hj => by
      rw [← h j (by omega), List.getElem_append_left hj]
    have hlast : x = f (p + s.length) := by
      rw [← h s.length (by omega)]
      simp
    rw [number_snoc, hlen, value, hinit, hlast]

theorem exists_zeros (f : ℕ → Bool) (p n : ℕ) :
    ∃ z ≤ n, (∀ j < z, f (p + j) = false) ∧ (f (p + z) = true ∨ z = n) := by
  induction n with
  | zero => exact ⟨0, le_rfl, fun j hj => absurd hj (Nat.not_lt_zero j), .inr rfl⟩
  | succ n ih =>
    obtain ⟨z, hz, hzero, hone | rfl⟩ := ih
    · exact ⟨z, hz.trans n.le_succ, hzero, .inl hone⟩
    · cases hbit : f (p + z) with
      | true => exact ⟨z, z.le_succ, hzero, .inl hbit⟩
      | false =>
        refine ⟨z + 1, le_rfl, fun j hj => ?_, .inr rfl⟩
        rcases Nat.lt_succ_iff_lt_or_eq.mp hj with hj | rfl
        · exact hzero j hj
        · exact hbit

/-! ## The number of binary digits -/

theorem size_div_two {v : ℕ} (h : v ≠ 0) : v.size = (v / 2).size + 1 := by
  refine le_antisymm (Nat.size_le.mpr ?_) (Nat.lt_size.mpr ?_)
  · have := Nat.lt_size_self (v / 2)
    rw [pow_succ]
    omega
  · rcases Nat.eq_zero_or_pos (v / 2).size with h₀ | h₀
    · rw [h₀, pow_zero]
      omega
    · have : 2 ^ ((v / 2).size - 1) ≤ v / 2 := Nat.lt_size.mp (by omega)
      rw [show (v / 2).size = (v / 2).size - 1 + 1 by omega, pow_succ]
      omega

theorem pow_size_pred_le {v : ℕ} (h : v ≠ 0) : 2 ^ (v.size - 1) ≤ v :=
  Nat.lt_size.mp (by have := Nat.size_pos.mpr (Nat.pos_of_ne_zero h); omega)

theorem testBit_size_pred {v : ℕ} (h : v ≠ 0) : v.testBit (v.size - 1) = true := by
  have hpos := Nat.size_pos.mpr (Nat.pos_of_ne_zero h)
  have hle := pow_size_pred_le h
  have hlt := Nat.lt_size_self v
  rw [show v.size = v.size - 1 + 1 by omega, pow_succ] at hlt
  have hdiv : v / 2 ^ (v.size - 1) = 1 := Nat.div_eq_of_lt_le (by omega) (by omega)
  rw [Nat.testBit_eq_decide_div_mod_eq, hdiv]
  rfl

/-- A number fits in its digits, and in its digits behind as many zeros but one. -/
theorem lt_two_pow_golomb {v : ℕ} (h : v ≠ 0) : v < 2 ^ (2 * v.size - 1) := by
  have := Nat.size_pos.mpr (Nat.pos_of_ne_zero h)
  exact lt_of_lt_of_le (Nat.lt_size_self v) (Nat.pow_le_pow_right (by decide) (by omega))

end Bits
