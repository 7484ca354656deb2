import Mathlib

/-!
# Scaling a range

The numbers below `n` are scaled to the numbers below `m`.

* `scale_lt`: the result is in range;
* `scale_eq_iff`: which numbers have one result;
* **`card_scale`**: every result comes from equally many numbers, up to one;
* `count_mod`: a condition on the remainder, over a number of rounds;
* `countP_range`: the same count in a list.
-/

namespace Scale

/-- A number below `n`, scaled to one below `m`. -/
def scale (n m x : ℕ) : ℕ := x * m / n

variable {n m k x : ℕ}

theorem scale_lt (hx : x < n) (hm : 0 < m) : scale n m x < m := by
  rw [scale, Nat.div_lt_iff_lt_mul (Nat.zero_lt_of_lt hx), mul_comm m]
  exact Nat.mul_lt_mul_of_pos_right hx hm

/-- The first number whose result is at least `k`. -/
def first (n m k : ℕ) : ℕ := (k * n + (m - 1)) / m

theorem first_le_iff (hm : 0 < m) : first n m k ≤ x ↔ k * n ≤ x * m := by
  rw [first, Nat.div_le_iff_le_mul_add_pred hm, mul_comm m]
  omega

theorem scale_eq_iff (hn : 0 < n) (hm : 0 < m) :
    scale n m x = k ↔ x ∈ Finset.Ico (first n m k) (first n m (k + 1)) := by
  rw [Finset.mem_Ico, first_le_iff hm, ← not_le (b := x), first_le_iff hm, scale,
    Nat.div_eq_iff hn]
  rw [Nat.succ_mul]
  omega

/-- The first number of the next result is as far away as the quotient, or one further. -/
theorem first_succ (hm : 0 < m) :
    first n m (k + 1) = first n m k + n / m ∨ first n m (k + 1) = first n m k + n / m + 1 := by
  have hk := Nat.div_add_mod (k * n + (m - 1)) m
  have hn := Nat.div_add_mod n m
  have hk' := Nat.mod_lt (k * n + (m - 1)) hm
  have hn' := Nat.mod_lt n hm
  have hsum : (k + 1) * n + (m - 1) =
      m * (first n m k + n / m) + ((k * n + (m - 1)) % m + n % m) := by
    rw [first, Nat.mul_add, Nat.succ_mul]
    omega
  rw [first, hsum, Nat.mul_add_div hm]
  rcases Nat.lt_or_ge ((k * n + (m - 1)) % m + n % m) m with hlt | hge
  · left
    rw [Nat.div_eq_of_lt hlt, add_zero]
  · right
    have hone : ((k * n + (m - 1)) % m + n % m) / m = 1 :=
      Nat.div_eq_of_lt_le (by omega) (by omega)
    rw [hone]

theorem first_le (hm : 0 < m) (hk : k ≤ m) : first n m k ≤ n := by
  rw [first_le_iff hm, mul_comm n]
  exact Nat.mul_le_mul_right n hk

/-- **Every result comes from equally many numbers**, up to one. -/
theorem card_scale (hn : 0 < n) (hk : k < m) :
    ((Finset.range n).filter fun x => scale n m x = k).card = n / m ∨
      ((Finset.range n).filter fun x => scale n m x = k).card = n / m + 1 := by
  have hm : 0 < m := Nat.zero_lt_of_lt hk
  have hset : ((Finset.range n).filter fun x => scale n m x = k) =
      Finset.Ico (first n m k) (first n m (k + 1)) := by
    ext x
    rw [Finset.mem_filter, scale_eq_iff hn hm, Finset.mem_range, and_iff_right_iff_imp]
    exact fun hx => (Finset.mem_Ico.mp hx).2.trans_le (first_le hm hk)
  rw [hset, Nat.card_Ico]
  rcases first_succ (n := n) (k := k) hm with hfirst | hfirst
  · left
    rw [hfirst, Nat.add_sub_cancel_left]
  · right
    rw [hfirst, add_assoc, Nat.add_sub_cancel_left]

theorem count_mod (p : ℕ → Prop) [DecidablePred p] (a b : ℕ) :
    Nat.count (fun n => p (n % b)) (a * b) = a * Nat.count p b := by
  have hround : Nat.count (fun n => p (n % b)) b = Nat.count p b := by
    rw [Nat.count_eq_card_filter_range, Nat.count_eq_card_filter_range]
    refine congrArg Finset.card (Finset.filter_congr fun n hn => ?_)
    rw [Nat.mod_eq_of_lt (Finset.mem_range.mp hn)]
  induction a with
  | zero => rw [Nat.zero_mul, Nat.zero_mul, Nat.count_zero]
  | succ a ih =>
    rw [Nat.succ_mul, Nat.count_add, ih, Nat.succ_mul, ← hround]
    simp only [Nat.mul_add_mod']

theorem countP_range (p : ℕ → Bool) (n : ℕ) :
    (List.range n).countP p = Nat.count (fun k => p k = true) n := by
  induction n with
  | zero => rfl
  | succ n ih => rw [List.range_succ, List.countP_append, ih, Nat.count_succ, List.countP_singleton]

end Scale
