import Mathlib

/-!
# Periods of linear maps on words

The bits of a word of `w` bits are the coefficients of a polynomial over two elements. It acts on
words through a map `f` that respects `^^^`. Let `m` be a polynomial that acts as `f^[w]`: then
products and powers can be calculated in words, and tell the periods of `f`.

* `act`: the action of a polynomial; `act_xor`, `act_comm`: it is linear, and goes with `f`;
* `eq_of_twoPow`: linear maps that agree on the powers of two are equal;
* `twice`, `mul`, `power`: the arithmetic, with `act_twice`, `act_mul` and **`act_power`**;
* `eq_zero_of_certificate`: a product that is 1 shows that `f^[n]` fixes nothing but 0;
* **`orbit_perm`**: a period of `2 ^ w - 1` goes through every word but 0.
-/

namespace WordPolynomial

variable {w : ℕ}

/-! ## The action -/

/-- The coefficients `i, …, i + k - 1`, the first one with `v`. -/
def actFrom (f : BitVec w → BitVec w) (p : BitVec w) : ℕ → ℕ → BitVec w → BitVec w
  | 0, _, _ => 0#w
  | k + 1, i, v => (bif p.getLsbD i then v else 0#w) ^^^ actFrom f p k (i + 1) (f v)

/-- The polynomial of the word `p` in the map `f`, applied to `v`. -/
def act (f : BitVec w → BitVec w) (p v : BitVec w) : BitVec w := actFrom f p w 0 v

/-- The map respects `^^^`. -/
def Linear (f : BitVec w → BitVec w) : Prop := ∀ u v, f (u ^^^ v) = f u ^^^ f v

theorem xor_xor_xor_comm (a b c d : BitVec w) : a ^^^ b ^^^ (c ^^^ d) = a ^^^ c ^^^ (b ^^^ d) := by
  rw [BitVec.xor_assoc, ← BitVec.xor_assoc b c d, BitVec.xor_comm b c, BitVec.xor_assoc c b d,
    ← BitVec.xor_assoc]

section Linear

variable {f g : BitVec w → BitVec w}

theorem Linear.zero (hf : Linear f) : f 0#w = 0#w := by
  have h := hf 0#w 0#w
  rw [BitVec.xor_self] at h
  exact h.trans (BitVec.xor_self (x := f 0#w))

theorem Linear.bif (hf : Linear f) (b : Bool) (v : BitVec w) :
    f (bif b then v else 0#w) = bif b then f v else 0#w := by
  cases b with
  | false => exact hf.zero
  | true => rfl

theorem Linear.comp (hf : Linear f) (hg : Linear g) : Linear (f ∘ g) := fun u v => by
  rw [Function.comp_apply, hg, hf]
  rfl

theorem Linear.iterate (hf : Linear f) (n : ℕ) : Linear f^[n] := by
  induction n with
  | zero => exact fun _ _ => rfl
  | succ n ih => exact ih.comp hf

/-- Linear maps that agree on the powers of two are equal. -/
theorem eq_of_twoPow (hf : Linear f) (hg : Linear g)
    (h : ∀ i < w, f (BitVec.twoPow w i) = g (BitVec.twoPow w i)) (v : BitVec w) : f v = g v := by
  have hbelow : ∀ k ≤ w, ∀ v : BitVec w, (∀ i, k ≤ i → v.getLsbD i = false) → f v = g v := by
    intro k
    induction k with
    | zero =>
      intro _ v hv
      obtain rfl : v = 0#w := BitVec.eq_of_getLsbD_eq fun i _ => by simp [hv i (Nat.zero_le i)]
      rw [hf.zero, hg.zero]
    | succ k ih =>
      intro hk v hv
      by_cases hbit : v.getLsbD k = true
      · have hrest := ih (Nat.le_of_succ_le hk) (v ^^^ BitVec.twoPow w k) fun i hi => by
          obtain rfl | hlt := Nat.eq_or_lt_of_le hi
          · simp [hbit, Nat.lt_of_succ_le hk]
          · simp [hv i hlt, Nat.ne_of_lt hlt]
        have hsplit : v = v ^^^ BitVec.twoPow w k ^^^ BitVec.twoPow w k := by
          rw [BitVec.xor_assoc, BitVec.xor_self, BitVec.xor_zero]
        rw [hsplit, hf, hg, hrest, h k hk]
      · refine ih (Nat.le_of_succ_le hk) v fun i hi => ?_
        obtain rfl | hlt := Nat.eq_or_lt_of_le hi
        · exact Bool.eq_false_iff.mpr hbit
        · exact hv i hlt
  exact hbelow w le_rfl v fun i hi => BitVec.getLsbD_of_ge v i hi

end Linear

section Action

variable {f : BitVec w → BitVec w} {p q : BitVec w}

theorem actFrom_xor (k i : ℕ) (v : BitVec w) :
    actFrom f (p ^^^ q) k i v = actFrom f p k i v ^^^ actFrom f q k i v := by
  induction k generalizing i v with
  | zero => exact BitVec.xor_zero.symm
  | succ k ih =>
    rw [actFrom, actFrom, actFrom, ih, xor_xor_xor_comm, BitVec.getLsbD_xor]
    congr 1
    cases p.getLsbD i <;> cases q.getLsbD i <;> simp

theorem act_xor (v : BitVec w) : act f (p ^^^ q) v = act f p v ^^^ act f q v :=
  actFrom_xor w 0 v

theorem act_bif (b : Bool) (v : BitVec w) :
    act f (bif b then p else 0#w) v = bif b then act f p v else 0#w := by
  have hzero : ∀ k i v, actFrom f 0#w k i v = 0#w := by
    intro k
    induction k with
    | zero => exact fun _ _ => rfl
    | succ k ih =>
      intro i v
      rw [actFrom, ih, BitVec.xor_zero, BitVec.getLsbD_zero]
      rfl
  cases b with
  | false => exact hzero w 0 v
  | true => rfl

theorem linear_actFrom (hf : Linear f) (p : BitVec w) (k i : ℕ) : Linear (actFrom f p k i) := by
  induction k generalizing i with
  | zero => exact fun _ _ => BitVec.xor_zero.symm
  | succ k ih =>
    intro u v
    rw [actFrom, hf, ih, actFrom, actFrom, xor_xor_xor_comm]
    congr 1
    cases p.getLsbD i <;> simp

theorem linear_act (hf : Linear f) (p : BitVec w) : Linear (act f p) := linear_actFrom hf p w 0

theorem actFrom_comm (hf : Linear f) (k i : ℕ) (v : BitVec w) :
    f (actFrom f p k i v) = actFrom f p k i (f v) := by
  induction k generalizing i v with
  | zero => exact hf.zero
  | succ k ih => rw [actFrom, hf, hf.bif, ih, actFrom]

theorem act_comm (hf : Linear f) (v : BitVec w) : f (act f p v) = act f p (f v) :=
  actFrom_comm hf w 0 v

theorem actFrom_succ (k i : ℕ) (v : BitVec w) : actFrom f p (k + 1) i v =
    actFrom f p k i v ^^^ bif p.getLsbD (i + k) then f^[k] v else 0#w := by
  induction k generalizing i v with
  | zero =>
    rw [actFrom, actFrom, actFrom, BitVec.xor_comm]
    rfl
  | succ k ih =>
    rw [actFrom, ih, actFrom, BitVec.xor_assoc, show i + 1 + k = i + (k + 1) by omega]
    rfl

theorem actFrom_shiftLeft {k i : ℕ} (h : i + k < w) (v : BitVec w) :
    actFrom f (p <<< 1) k (i + 1) v = actFrom f p k i v := by
  induction k generalizing i v with
  | zero => rfl
  | succ k ih =>
    have hbit : (p <<< 1).getLsbD (i + 1) = p.getLsbD i := by
      simp only [BitVec.getLsbD_shiftLeft, Nat.add_sub_cancel]
      simp
      omega
    rw [actFrom, actFrom, hbit, ih (by omega)]

theorem act_one (hw : 0 < w) (v : BitVec w) : act f 1#w v = v := by
  obtain ⟨k, rfl⟩ := Nat.exists_eq_succ_of_ne_zero hw.ne'
  have hrest : ∀ j i v, actFrom f 1#(k + 1) j (i + 1) v = 0#(k + 1) := by
    intro j
    induction j with
    | zero => exact fun _ _ => rfl
    | succ j ih =>
      intro i v
      rw [actFrom, ih, BitVec.xor_zero]
      simp
  rw [act, actFrom, hrest, BitVec.xor_zero]
  simp

end Action

/-! ## Arithmetic -/

/-- The polynomial times `X`, where `X ^ w` is `m`. -/
def twice (m p : BitVec w) : BitVec w := p <<< 1 ^^^ bif p.msb then m else 0#w

/-- The product of `a` and the coefficients `i, …, i + k - 1` of `b`. -/
def mulFrom (m a b : BitVec w) : ℕ → ℕ → BitVec w
  | 0, _ => 0#w
  | k + 1, i => twice m (mulFrom m a b k (i + 1)) ^^^ bif b.getLsbD i then a else 0#w

/-- The product of two polynomials, with `m` for the power `w`. -/
def mul (m a b : BitVec w) : BitVec w := mulFrom m a b w 0

/-- `X ^ e`, for an exponent of at most `k` bits. -/
def power (m : BitVec w) : ℕ → ℕ → BitVec w
  | 0, _ => 1#w
  | k + 1, e =>
    let half := power m k (e / 2)
    bif e % 2 = 1 then twice m (mul m half half) else mul m half half

section Arithmetic

variable {f : BitVec w → BitVec w} {m : BitVec w} (hf : Linear f) (hm : ∀ v, f^[w] v = act f m v)

include hm in
theorem act_twice (p v : BitVec w) : act f (twice m p) v = act f p (f v) := by
  rw [twice, act_xor, act_bif, ← hm]
  cases w with
  | zero => exact BitVec.of_length_zero.trans BitVec.of_length_zero.symm
  | succ k =>
    have hlow : (p <<< 1).getLsbD 0 = false := by simp
    have htop : p.msb = p.getLsbD (0 + k) := by
      rw [BitVec.msb_eq_getLsbD_last, Nat.zero_add, Nat.add_sub_cancel]
    rw [act, actFrom, hlow, cond_false, BitVec.zero_xor, actFrom_shiftLeft (by omega), act,
      actFrom_succ, ← htop]
    rfl

include hf hm in
theorem act_mul (a b v : BitVec w) : act f (mul m a b) v = act f b (act f a v) := by
  have hfrom : ∀ k i v, act f (mulFrom m a b k i) v = actFrom f b k i (act f a v) := by
    intro k
    induction k with
    | zero =>
      intro i v
      exact act_bif (p := 0#w) false v
    | succ k ih =>
      intro i v
      rw [mulFrom, act_xor, act_twice hm, ih, act_bif, actFrom, act_comm hf, BitVec.xor_comm]
  exact hfrom w 0 v

include hf hm in
/-- **`X ^ e` acts as `f^[e]`.** -/
theorem act_power (hw : 0 < w) (k : ℕ) {e : ℕ} (he : e < 2 ^ k) (v : BitVec w) :
    act f (power m k e) v = f^[e] v := by
  induction k generalizing e v with
  | zero =>
    obtain rfl : e = 0 := by omega
    exact act_one hw v
  | succ k ih =>
    have hhalf : ∀ v, act f (power m k (e / 2)) v = f^[e / 2] v := ih (by omega)
    have hsquare : ∀ v, act f (mul m (power m k (e / 2)) (power m k (e / 2))) v =
        f^[e / 2 + e / 2] v := by
      intro v
      rw [act_mul hf hm, hhalf, hhalf, ← Function.iterate_add_apply]
    unfold power
    by_cases hodd : e % 2 = 1
    · rw [decide_eq_true hodd, cond_true, act_twice hm, hsquare, ← Function.iterate_succ_apply]
      congr 1
      omega
    · rw [decide_eq_false hodd, cond_false, hsquare]
      congr 1
      omega

include hf hm in
/-- If `X ^ n - 1` has an inverse, then `f^[n]` fixes nothing but 0. -/
theorem eq_zero_of_certificate (hw : 0 < w) {k n : ℕ} (hn : n < 2 ^ k) {u v : BitVec w}
    (hu : mul m (power m k n ^^^ 1#w) u = 1#w) (hv : f^[n] v = v) : v = 0#w := by
  have hzero : act f (power m k n ^^^ 1#w) v = 0#w := by
    rw [act_xor, act_power hf hm hw k hn, act_one hw, hv, BitVec.xor_self]
  rw [← act_one (f := f) hw v, ← hu, act_mul hf hm, hzero, (linear_act hf u).zero]

end Arithmetic

/-! ## Periods -/

theorem minimalPeriod_eq {α : Type*} {f : α → α} {v : α} {N : ℕ} (hv : f^[N] v = v)
    (h : ∀ p, p.Prime → p ∣ N → f^[N / p] v ≠ v) : Function.minimalPeriod f v = N := by
  obtain ⟨c, hc⟩ := Function.IsPeriodicPt.minimalPeriod_dvd (f := f) (n := N) (x := v) hv
  by_contra hne
  have hc1 : c ≠ 1 := by
    rintro rfl
    exact hne (hc.trans (mul_one _)).symm
  obtain ⟨d, hd⟩ := Nat.minFac_dvd c
  have hdiv : N / c.minFac = Function.minimalPeriod f v * d := by
    refine Nat.div_eq_of_eq_mul_left (Nat.minFac_pos c) ?_
    rw [hc, mul_assoc, mul_comm d, ← hd]
  refine h c.minFac (Nat.minFac_prime hc1) ((Nat.minFac_dvd c).trans ⟨_, (hc.trans
    (mul_comm _ _))⟩) ?_
  rw [hdiv]
  exact (Function.isPeriodicPt_minimalPeriod f v).mul_const d

/-- **A period of `2 ^ w - 1` goes through every word but 0**, once. -/
theorem orbit_perm {f : BitVec w → BitVec w} {v : BitVec w}
    (hperiod : Function.minimalPeriod f v = 2 ^ w - 1) (hzero : ∀ n, f^[n] v ≠ 0#w) :
    ((List.range (2 ^ w - 1)).map fun n => f^[n] v).Nodup ∧
      ∀ u, u ∈ (List.range (2 ^ w - 1)).map (fun n => f^[n] v) ↔ u ≠ 0#w := by
  have hinj : Set.InjOn (fun n => f^[n] v) (Finset.range (2 ^ w - 1)) := by
    intro i hi j hj hij
    rw [Finset.mem_coe, Finset.mem_range, ← hperiod] at hi hj
    exact Function.iterate_injOn_Iio_minimalPeriod hi hj hij
  have hnodup : ((List.range (2 ^ w - 1)).map fun n => f^[n] v).Nodup :=
    List.Nodup.map_on (fun i hi j hj hij => hinj (by simpa using hi) (by simpa using hj) hij)
      List.nodup_range
  refine ⟨hnodup, fun u => ⟨?_, fun hu => ?_⟩⟩
  · rintro hu rfl
    obtain ⟨n, -, hn⟩ := List.mem_map.mp hu
    exact hzero n hn
  -- the numbers of the words that are reached are all those from 1 on
  have himage : (Finset.range (2 ^ w - 1)).image (fun n => (f^[n] v).toNat) =
      Finset.Ico 1 (2 ^ w) := by
    refine Finset.eq_of_subset_of_card_le (fun x hx => ?_) ?_
    · obtain ⟨n, -, rfl⟩ := Finset.mem_image.mp hx
      have hne : (f^[n] v).toNat ≠ 0 := fun h => hzero n (BitVec.eq_of_toNat_eq (by simpa using h))
      exact Finset.mem_Ico.mpr ⟨Nat.one_le_iff_ne_zero.mpr hne, (f^[n] v).isLt⟩
    · rw [Finset.card_image_of_injOn fun i hi j hj hij => hinj hi hj (BitVec.eq_of_toNat_eq hij)]
      simp
  have hmem : u.toNat ∈ Finset.Ico 1 (2 ^ w) := by
    have hne : u.toNat ≠ 0 := fun h => hu (BitVec.eq_of_toNat_eq (by simpa using h))
    exact Finset.mem_Ico.mpr ⟨Nat.one_le_iff_ne_zero.mpr hne, u.isLt⟩
  rw [← himage] at hmem
  obtain ⟨n, hn, hnu⟩ := Finset.mem_image.mp hmem
  exact List.mem_map.mpr ⟨n, by simpa using hn, BitVec.eq_of_toNat_eq hnu⟩

end WordPolynomial
