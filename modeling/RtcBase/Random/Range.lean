import RtcBase.Random.Model

/-!
# Random integers in a range

* `toNat_scaled`: the scaling does not overflow;
* `rand_scaled`: the result is the low half of the output, scaled;
* `rand_le`, `randUnsigned_mem`, `randSigned_mem`: the results are in range, and nothing overflows
  on the way;
* `card_scaled`: no result is favoured by more than one word;
* **`rand_fair`**: all of it.
-/

namespace RtcBase

open Word SafeConversions

namespace Random

/-! ## Scaling -/

/-- The product fits into 64 bits. -/
theorem toNat_scaled (x t : BitVec 32) :
    (scaled x t).toNat = Scale.scale (2 ^ 32) (t.toNat + 1) x.toNat := by
  have hx := x.isLt
  have ht := t.isLt
  have hlt : x.toNat * (t.toNat + 1) < 2 ^ 32 * 2 ^ 32 :=
    Nat.mul_lt_mul_of_lt_of_le hx ht (by decide)
  have hproduct : (x.setWidth 64 * (t.setWidth 64 + 1)).toNat = x.toNat * (t.toNat + 1) := by
    have hone : (1 : BitVec 64).toNat = 1 := rfl
    rw [BitVec.toNat_mul, BitVec.toNat_add, BitVec.toNat_setWidth, BitVec.toNat_setWidth, hone,
      Nat.mod_eq_of_lt (by omega : x.toNat < 2 ^ 64),
      Nat.mod_eq_of_lt (by omega : t.toNat < 2 ^ 64),
      Nat.mod_eq_of_lt (by omega : t.toNat + 1 < 2 ^ 64)]
    exact Nat.mod_eq_of_lt (by omega)
  have hscale := Scale.scale_lt (n := 2 ^ 32) hx (Nat.succ_pos t.toNat)
  rw [scaled, BitVec.toNat_setWidth, BitVec.toNat_ushiftRight, hproduct,
    Nat.shiftRight_eq_div_pow]
  exact Nat.mod_eq_of_lt (hscale.trans_le ht)

theorem scaled_le (x t : BitVec 32) : scaled x t ≤ t := by
  have hlt := Scale.scale_lt (n := 2 ^ 32) x.isLt (Nat.succ_pos t.toNat)
  rw [BitVec.le_def, toNat_scaled]
  exact Nat.le_of_lt_succ hlt

/-- **No result is favoured by more than one word.** -/
theorem card_scaled {t k : BitVec 32} (hk : k ≤ t) :
    ((Finset.range (2 ^ 32)).filter fun x => scaled (BitVec.ofNat 32 x) t = k).card =
        2 ^ 32 / (t.toNat + 1) ∨
      ((Finset.range (2 ^ 32)).filter fun x => scaled (BitVec.ofNat 32 x) t = k).card =
        2 ^ 32 / (t.toNat + 1) + 1 := by
  have hset : ((Finset.range (2 ^ 32)).filter fun x => scaled (BitVec.ofNat 32 x) t = k) =
      (Finset.range (2 ^ 32)).filter fun x => Scale.scale (2 ^ 32) (t.toNat + 1) x = k.toNat := by
    refine Finset.filter_congr fun x hx => ?_
    rw [BitVec.toNat_eq, toNat_scaled, BitVec.toNat_ofNat,
      Nat.mod_eq_of_lt (Finset.mem_range.mp hx)]
  rw [hset]
  exact Scale.card_scale (by decide) (Nat.lt_succ_of_le (BitVec.le_def.mp hk))

/-! ## The results -/

section Results

variable (dcheckIsOn : Bool) {r : Random} (h : r.state_ ≠ 0)
include h

theorem rand_scaled (t : BitVec 32) : ∃ x r', nextOutput dcheckIsOn r = some (x, r') ∧
    rand dcheckIsOn t r = some (scaled (x.setWidth 32) t, r') ∧ r'.state_ ≠ 0 := by
  refine ⟨nextState r.state_ * multiplier, ⟨nextState r.state_⟩, nextOutput_eq dcheckIsOn h, ?_,
    nextState_ne_zero h⟩
  rw [rand, nextOutput_eq dcheckIsOn h, Option.map_some]

theorem rand_le (t : BitVec 32) : ∃ x r', rand dcheckIsOn t r = some (x, r') ∧ x ≤ t ∧
    r'.state_ ≠ 0 := by
  obtain ⟨x, r', -, hrand, hstate⟩ := rand_scaled dcheckIsOn h t
  exact ⟨_, r', hrand, scaled_le _ t, hstate⟩

theorem randUnsigned_mem {low high : BitVec 32} (hle : low ≤ high) :
    ∃ x r', rand dcheckIsOn (high - low) r = some (x, r') ∧ x.toNat + low.toNat < 2 ^ 32 ∧
      randUnsigned dcheckIsOn low high r = some (x + low, r') ∧ low ≤ x + low ∧
      x + low ≤ high := by
  obtain ⟨x, r', hrand, hx, -⟩ := rand_le dcheckIsOn h (high - low)
  have hhigh := high.isLt
  have hle' := BitVec.le_def.mp hle
  have hsub : (high - low).toNat = high.toNat - low.toNat := BitVec.toNat_sub_of_le hle
  have hx' := BitVec.le_def.mp hx
  have hsum : x.toNat + low.toNat < 2 ^ 32 := by omega
  have hadd : (x + low).toNat = x.toNat + low.toNat := by
    rw [BitVec.toNat_add, Nat.mod_eq_of_lt hsum]
  refine ⟨x, r', hrand, hsum, ?_, ?_, ?_⟩
  · rw [randUnsigned, decide_eq_true hle, hrand]
    simp
  · rw [BitVec.le_def, hadd]
    omega
  · rw [BitVec.le_def, hadd]
    omega

omit h in
theorem dcheckedCast_int64 {T : IntType} {n : ℤ} (hn : IsInt64 n) (hT : T.Holds n) :
    dcheckedCast T dcheckIsOn (int64Value n) = some n := by
  have hvalue : (int64Value n).1 = n := toInt64_of_mem hn.1 hn.2
  rw [dcheckedCast_eq dcheckIsOn (hvalue.symm ▸ hT), hvalue]

/-- The numbers on the way to a signed result, at the extremes too, fit their types. -/
theorem randSigned_mem {low high : IntType.int32.Value} (hle : low.1 ≤ high.1) :
    ∃ x r', (IsInt64 (high.1 - low.1) ∧ IntType.uint32.Holds (high.1 - low.1)) ∧
      rand dcheckIsOn (BitVec.ofInt 32 (high.1 - low.1)) r = some (x, r') ∧
      (IsInt64 (x.toNat + low.1) ∧ IntType.int32.Holds (x.toNat + low.1)) ∧
      randSigned dcheckIsOn low high r = some (x.toNat + low.1, r') ∧
      low.1 ≤ x.toNat + low.1 ∧ x.toNat + low.1 ≤ high.1 := by
  have hlow : -2 ^ 31 ≤ low.1 ∧ low.1 ≤ 2 ^ 31 - 1 := low.2
  have hhigh : -2 ^ 31 ≤ high.1 ∧ high.1 ≤ 2 ^ 31 - 1 := high.2
  obtain ⟨x, r', hrand, hx, -⟩ := rand_le dcheckIsOn h (BitVec.ofInt 32 (high.1 - low.1))
  have hx' : (x.toNat : ℤ) ≤ high.1 - low.1 := by
    have hdiff : ((BitVec.ofInt 32 (high.1 - low.1)).toNat : ℤ) = high.1 - low.1 := by
      rw [BitVec.toNat_ofInt]
      omega
    have := BitVec.le_def.mp hx
    omega
  have hdiff : IsInt64 (high.1 - low.1) := by
    unfold IsInt64 int64Max
    omega
  have hsum : IsInt64 (x.toNat + low.1) := by
    unfold IsInt64 int64Max
    omega
  have hdiff' : IntType.uint32.Holds (high.1 - low.1) :=
    ⟨(by omega : 0 ≤ high.1 - low.1), (by omega : high.1 - low.1 ≤ 2 ^ 32 - 1)⟩
  have hsum' : IntType.int32.Holds (x.toNat + low.1) :=
    ⟨(by omega : -2 ^ 31 ≤ x.toNat + low.1), (by omega : x.toNat + low.1 ≤ 2 ^ 31 - 1)⟩
  refine ⟨x, r', ⟨hdiff, hdiff'⟩, hrand, ⟨hsum, hsum'⟩, ?_, by omega, by omega⟩
  rw [randSigned, decide_eq_true hle, Bool.not_true, Bool.and_false]
  simp only [Bool.false_eq_true, if_false, dcheckedCast_int64 dcheckIsOn hdiff hdiff',
    dcheckedCast_int64 dcheckIsOn hsum hsum', hrand, Option.bind_some, Option.map_some]

end Results

/-- **Random integers are in range and fair**: in every state but 0 and for every range the result
is in range, the sums do not wrap and the casts do not fail; the result is the low half of the
output, scaled, and no result of the scaling is favoured by more than one word. -/
theorem rand_fair (dcheckIsOn : Bool) (r : Random) (h : r.state_ ≠ 0) :
    (∀ t, ∃ x r', rand dcheckIsOn t r = some (x, r') ∧ x ≤ t ∧ r'.state_ ≠ 0) ∧
    (∀ low high : BitVec 32, low ≤ high → ∃ x r', rand dcheckIsOn (high - low) r = some (x, r') ∧
      x.toNat + low.toNat < 2 ^ 32 ∧ randUnsigned dcheckIsOn low high r = some (x + low, r') ∧
      low ≤ x + low ∧ x + low ≤ high) ∧
    (∀ low high : IntType.int32.Value, low.1 ≤ high.1 →
      ∃ x r', (IsInt64 (high.1 - low.1) ∧ IntType.uint32.Holds (high.1 - low.1)) ∧
        rand dcheckIsOn (BitVec.ofInt 32 (high.1 - low.1)) r = some (x, r') ∧
        (IsInt64 (x.toNat + low.1) ∧ IntType.int32.Holds (x.toNat + low.1)) ∧
        randSigned dcheckIsOn low high r = some (x.toNat + low.1, r') ∧
        low.1 ≤ x.toNat + low.1 ∧ x.toNat + low.1 ≤ high.1) ∧
    (∀ t, ∃ x r', nextOutput dcheckIsOn r = some (x, r') ∧
      rand dcheckIsOn t r = some (scaled (x.setWidth 32) t, r')) ∧
    (∀ x t, (scaled x t).toNat = x.toNat * (t.toNat + 1) / 2 ^ 32) ∧
    ∀ t k : BitVec 32, k ≤ t →
      ((Finset.range (2 ^ 32)).filter fun x => scaled (BitVec.ofNat 32 x) t = k).card =
          2 ^ 32 / (t.toNat + 1) ∨
        ((Finset.range (2 ^ 32)).filter fun x => scaled (BitVec.ofNat 32 x) t = k).card =
          2 ^ 32 / (t.toNat + 1) + 1 := by
  refine ⟨rand_le dcheckIsOn h, fun _ _ => randUnsigned_mem dcheckIsOn h,
    fun _ _ => randSigned_mem dcheckIsOn h, fun t => ?_, toNat_scaled, fun _ _ => card_scaled⟩
  obtain ⟨x, r', hout, hrand, -⟩ := rand_scaled dcheckIsOn h t
  exact ⟨x, r', hout, hrand⟩

/-- The widest range of `int`. -/
theorem rand_fair_sample :
    ∃ x r', randSigned true ⟨-2 ^ 31, by decide⟩ ⟨2 ^ 31 - 1, by decide⟩ ⟨1⟩ = some (x, r') ∧
      IntType.int32.Holds x := by
  obtain ⟨-, -, hsigned, -⟩ := rand_fair true ⟨1⟩ (by decide)
  obtain ⟨x, r', -, -, ⟨-, hholds⟩, hrand, -⟩ :=
    hsigned ⟨-2 ^ 31, by decide⟩ ⟨2 ^ 31 - 1, by decide⟩ (by decide)
  exact ⟨_, r', hrand, hholds⟩

end Random

end RtcBase
