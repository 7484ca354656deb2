import Mathlib

/-!
# Sums over a family that is updated

* `sum_update`: one member of the family changes;
* `sum_erase`: some members go.
-/

namespace Tally

variable {K X M : Type*} [Fintype K] [DecidableEq K] [AddCommMonoid M]

theorem sum_update (g : X → M) (f : K → X) (k : K) (x : X) :
    ∑ k', g (Function.update f k x k') + g (f k) = ∑ k', g (f k') + g x := by
  have hne : ∑ k' ∈ Finset.univ.erase k, g (Function.update f k x k') =
      ∑ k' ∈ Finset.univ.erase k, g (f k') :=
    Finset.sum_congr rfl fun k' hk' => by rw [Function.update_of_ne (Finset.ne_of_mem_erase hk')]
  rw [← Finset.add_sum_erase _ _ (Finset.mem_univ k),
    ← Finset.add_sum_erase Finset.univ (fun k' => g (f k')) (Finset.mem_univ k),
    Function.update_self, hne]
  abel

theorem sum_erase (f : K → M) {l : List K} (hl : l.Nodup) :
    (∑ k, if k ∈ l then 0 else f k) + (l.map f).sum = ∑ k, f k := by
  rw [← List.sum_toFinset f hl, ← Finset.sum_filter_add_sum_filter_not Finset.univ (· ∈ l) f,
    Finset.sum_ite, Finset.sum_const_zero, zero_add, add_comm]
  congr 1
  exact Finset.sum_congr (by ext k; simp) fun _ _ => rfl

end Tally
