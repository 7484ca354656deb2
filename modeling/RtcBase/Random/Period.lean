import RtcBase.Lib.WordPolynomial
import RtcBase.Random.Orbit

/-!
# The period of a generator

* `recurrence`: the polynomial that acts as `nextState^[64]`;
* `certificates`: for each prime factor `p` of `2 ^ 64 - 1`, the inverse of a power of `X` less 1;
* `minimalPeriod_nextState`: the period of every state but 0;
* `period`, `nodup_period`, `mem_period`: the outputs of `2 ^ 64 - 1` calls;
* **`full_period`**: `2 ^ 64 - 1` calls put out every word but 0, and lead back to the seed.
-/

namespace RtcBase

namespace Random

open WordPolynomial

/-! ## The polynomial of the state -/

theorem linear_xorRight (a : ℕ) : Linear (Xorshift.xorRight (w := 64) a) := fun u v => by
  rw [Xorshift.xorRight, BitVec.ushiftRight_xor_distrib, xor_xor_xor_comm]
  rfl

theorem linear_xorLeft (a : ℕ) : Linear (Xorshift.xorLeft (w := 64) a) := fun u v => by
  rw [Xorshift.xorLeft, BitVec.shiftLeft_xor_distrib, xor_xor_xor_comm]
  rfl

theorem linear_nextState : Linear nextState :=
  (linear_xorRight 27).comp ((linear_xorLeft 25).comp (linear_xorRight 12))

/-- `nextState^[64]` in terms of the powers below it. -/
def recurrence : BitVec 64 := 0x18b73aa7cc9b71#64

theorem iterate_nextState (v : BitVec 64) : nextState^[64] v = act nextState recurrence v := by
  refine eq_of_twoPow (linear_nextState.iterate 64) (linear_act linear_nextState recurrence) ?_ v
  decide +kernel

/-- The prime factors of `2 ^ 64 - 1`, each with the inverse of `X ^ ((2 ^ 64 - 1) / p) - 1`. -/
def certificates : List (ℕ × BitVec 64) :=
  [(3, 0x60e71579575698b8#64), (5, 0x2dfd563d8df4dacb#64), (17, 0x0e1abb9b6d5614b7#64),
    (257, 0x1934106f6e3c47a3#64), (641, 0x52d7e7e1fc2212ef#64), (65537, 0x6e23c80b59c2baa2#64),
    (6700417, 0x77bd2fdf157c6fc9#64)]

theorem certificates_mul : ∀ c ∈ certificates, mul recurrence
    (power recurrence 64 ((2 ^ 64 - 1) / c.1) ^^^ 1#64) c.2 = 1#64 := by
  simp only [certificates, List.forall_mem_cons]
  refine ⟨?_, ?_, ?_, ?_, ?_, ?_, ?_⟩
  -- one computation at a time
  all_goals decide +kernel

theorem power_period : power recurrence 64 (2 ^ 64 - 1) = 1#64 := by
  decide +kernel

theorem mem_certificates {p : ℕ} (hp : p.Prime) (h : p ∣ 2 ^ 64 - 1) :
    ∃ c ∈ certificates, c.1 = p := by
  have hfactors : 2 ^ 64 - 1 = 3 * 5 * 17 * 257 * 641 * 65537 * 6700417 := by norm_num
  have heq (q : ℕ) (hq : q.Prime) : p ∣ q → q = p := fun hdvd =>
    ((Nat.prime_dvd_prime_iff_eq hp hq).mp hdvd).symm
  rw [hfactors, hp.dvd_mul, hp.dvd_mul, hp.dvd_mul, hp.dvd_mul, hp.dvd_mul, hp.dvd_mul] at h
  simp only [certificates, List.mem_cons, List.not_mem_nil, or_false, exists_eq_or_imp,
    exists_eq_left]
  obtain ((((((h | h) | h) | h) | h) | h) | h) := h
  · exact .inl (heq _ (by norm_num) h)
  · exact .inr (.inl (heq _ (by norm_num) h))
  · exact .inr (.inr (.inl (heq _ (by norm_num) h)))
  · exact .inr (.inr (.inr (.inl (heq _ (by norm_num) h))))
  · exact .inr (.inr (.inr (.inr (.inl (heq _ (by norm_num) h)))))
  · exact .inr (.inr (.inr (.inr (.inr (.inl (heq _ (by norm_num) h))))))
  · exact .inr (.inr (.inr (.inr (.inr (.inr (heq _ (by norm_num) h))))))

/-! ## The period -/

theorem iterate_period (v : BitVec 64) : nextState^[2 ^ 64 - 1] v = v := by
  rw [← act_power linear_nextState iterate_nextState (by decide) 64 (by decide) v, power_period,
    act_one (by decide)]

theorem minimalPeriod_nextState {state_ : BitVec 64} (h : state_ ≠ 0) :
    Function.minimalPeriod nextState state_ = 2 ^ 64 - 1 := by
  refine minimalPeriod_eq (iterate_period state_) fun p hp hdvd hfix => h ?_
  obtain ⟨c, hc, rfl⟩ := mem_certificates hp hdvd
  have hlt : (2 ^ 64 - 1) / c.1 < 2 ^ 64 :=
    (Nat.div_le_self _ _).trans_lt (by decide)
  exact eq_zero_of_certificate linear_nextState iterate_nextState (by decide) hlt
    (certificates_mul c hc) hfix

/-- The outputs of `2 ^ 64 - 1` calls. -/
def period (state_ : BitVec 64) : List (BitVec 64) :=
  (List.range (2 ^ 64 - 1)).map fun k => output (nextState^[k] state_)

theorem period_eq (state_ : BitVec 64) : period state_ =
    ((List.range (2 ^ 64 - 1)).map fun k => nextState^[k] state_).map output := by
  rw [List.map_map]
  rfl

theorem nodup_period {state_ : BitVec 64} (h : state_ ≠ 0) : (period state_).Nodup := by
  rw [period_eq]
  exact (orbit_perm (minimalPeriod_nextState h) (iterate_ne_zero h)).1.map output_injective

theorem mem_period {state_ : BitVec 64} (h : state_ ≠ 0) (out : BitVec 64) :
    out ∈ period state_ ↔ out ≠ 0 := by
  have hmem := (orbit_perm (minimalPeriod_nextState h) (iterate_ne_zero h)).2
  rw [period_eq]
  constructor
  · intro hout
    obtain ⟨v, hv, rfl⟩ := List.mem_map.mp hout
    exact output_ne_zero ((hmem v).mp hv)
  · intro hout
    obtain ⟨v, rfl⟩ := (Xorshift.bijective_of_injective output_injective).2 out
    refine List.mem_map_of_mem ((hmem v).mpr ?_)
    rintro rfl
    exact hout output_zero

theorem nextOutputs_period (dcheckIsOn : Bool) {seed : BitVec 64} (h : seed ≠ 0) :
    nextOutputs dcheckIsOn (2 ^ 64 - 1) ⟨seed⟩ = some (period seed, ⟨seed⟩) := by
  rw [nextOutputs_eq dcheckIsOn h, iterate_period]
  rfl

/-- **The full period.** From a seed that is not 0, the next `2 ^ 64 - 1` calls put out every word
but 0, each one once, and leave the generator as it was. -/
theorem full_period (dcheckIsOn : Bool) {seed : BitVec 64} (h : seed ≠ 0) :
    ∃ outs, nextOutputs dcheckIsOn (2 ^ 64 - 1) ⟨seed⟩ = some (outs, ⟨seed⟩) ∧ outs.Nodup ∧
      ∀ out, out ∈ outs ↔ out ≠ 0 :=
  ⟨period seed, nextOutputs_period dcheckIsOn h, nodup_period h, mem_period h⟩

theorem full_period_sample :
    ∃ outs, nextOutputs true (2 ^ 64 - 1) ⟨1⟩ = some (outs, ⟨1⟩) ∧ outs.Nodup ∧
      ∀ out, out ∈ outs ↔ out ≠ 0 :=
  full_period true (by decide)

end Random

end RtcBase
