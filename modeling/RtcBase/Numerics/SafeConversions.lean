import RtcBase.Lib.IntType

/-!
# `safe_conversions.h`

Conversions between integer types of any widths. Which check is made is known from the two types
alone, so a specialisation of `RangeCheckImpl` is here the pair of limits that it compares with.

* `staticRangeCheck`, `rangeCheckImpl`, `rangeCheck`: the header `safe_conversions_impl.h`;
* `isValueInRangeForNumericType`, `checkedCast`, `dcheckedCast`, `saturatedCast`: the functions;
* **`rangeCheckImpl_spec`**: the limits are values of the source type, and enough;
* `checkedCast_eq`, `dcheckedCast_eq`, `saturatedCast_eq`: the casts;
* **`saturatedCast_clamps`**: what the casts do with every value.
-/

namespace RtcBase

namespace SafeConversions

/-! ## `safe_conversions_impl.h` -/

/-- Whether the destination type has room for all values of the source type. -/
inductive DstRange where
  | overlapsRange
  | containsRange
  deriving DecidableEq, Repr

/-- The answers of a check. -/
inductive RangeCheckResult where
  | typeValid
  | typeUnderflow
  | typeOverflow
  | typeInvalid
  deriving DecidableEq, Repr

/-- What the signs and the widths of two types say. -/
def staticRangeCheck (Dst Src : IntType) : DstRange :=
  match Dst.isSigned, Src.isSigned with
  | true, true => if Dst.bytes * 8 - 1 ≥ Src.bytes * 8 - 1 then .containsRange else .overlapsRange
  | false, false => if Dst.bytes ≥ Src.bytes then .containsRange else .overlapsRange
  | true, false => if Dst.bytes * 8 - 1 ≥ Src.bytes * 8 then .containsRange else .overlapsRange
  | false, true => .overlapsRange

/-- The limits of a check, before their cast to the source type. There is none where the code has
`true`. -/
structure Limits where
  upper : Option ℤ
  lower : Option ℤ

/-- The specialisations. -/
def rangeCheckImpl (Dst Src : IntType) : Limits :=
  match staticRangeCheck Dst Src, Dst.isSigned, Src.isSigned with
  | .containsRange, _, _ => ⟨none, none⟩
  | .overlapsRange, true, true => ⟨some Dst.max, some Dst.min⟩
  | .overlapsRange, false, false => ⟨some Dst.max, none⟩
  | .overlapsRange, true, false =>
    if Dst.bytes > Src.bytes then ⟨none, none⟩ else ⟨some Dst.max, none⟩
  | .overlapsRange, false, true =>
    if Dst.bytes * 8 ≥ Src.bytes * 8 - 1 then ⟨none, some 0⟩ else ⟨some Dst.max, some 0⟩

/-- An operand of a comparison of two values of the source type, after promotion. -/
def operand (Src : IntType) (x : ℤ) : ℤ := Src.promote.convert x

/-- `BASE_NUMERIC_RANGE_CHECK_RESULT`. -/
def rangeCheckResult : Bool → Bool → RangeCheckResult
  | true, true => .typeValid
  | true, false => .typeUnderflow
  | false, true => .typeOverflow
  | false, false => .typeInvalid

/-- The value against the limits, which are cast to its type. -/
def rangeCheck {Src : IntType} (Dst : IntType) (value : Src.Value) : RangeCheckResult :=
  rangeCheckResult
    ((rangeCheckImpl Dst Src).upper.all fun limit =>
      operand Src value.1 ≤ operand Src (Src.convert limit))
    ((rangeCheckImpl Dst Src).lower.all fun limit =>
      operand Src value.1 ≥ operand Src (Src.convert limit))

/-! ## `safe_conversions.h` -/

section Functions

variable {Src : IntType} (Dst : IntType)

/-- Whether the value fits. -/
def isValueInRangeForNumericType (value : Src.Value) : Bool :=
  rangeCheck Dst value = .typeValid

/-- There is no value if the `RTC_CHECK` fails. -/
def checkedCast (value : Src.Value) : Option ℤ :=
  if isValueInRangeForNumericType Dst value then some (Dst.convert value.1) else none

/-- There is no value if the `RTC_DCHECK` fails. -/
def dcheckedCast (dcheckIsOn : Bool) (value : Src.Value) : Option ℤ :=
  if dcheckIsOn && !isValueInRangeForNumericType Dst value then none
  else some (Dst.convert value.1)

/-- There is no value where `RTC_FATAL` is reached. -/
def saturatedCast (value : Src.Value) : Option ℤ :=
  match rangeCheck Dst value with
  | .typeValid => some (Dst.convert value.1)
  | .typeUnderflow => some Dst.min
  | .typeOverflow => some Dst.max
  | .typeInvalid => none

end Functions

theorem operand_of_holds {T : IntType} {x : ℤ} (h : T.Holds x) : operand T x = x :=
  IntType.convert_of_holds (IntType.promote_holds h)

/-! ## The check -/

section Check

variable {Dst Src : IntType} {x : ℤ}

/-- What the limits of a specialisation say. -/
structure Limits.Exact (limits : Limits) (Dst Src : IntType) : Prop where
  upper_holds : ∀ limit ∈ limits.upper, Src.Holds limit
  lower_holds : ∀ limit ∈ limits.lower, Src.Holds limit
  upper_iff : ∀ x, Src.Holds x → ((∀ limit ∈ limits.upper, x ≤ limit) ↔ x ≤ Dst.max)
  lower_iff : ∀ x, Src.Holds x → ((∀ limit ∈ limits.lower, x ≥ limit) ↔ Dst.min ≤ x)

/-- **Every specialisation compares with values of the source type**, and with those that matter. -/
theorem rangeCheckImpl_spec (Dst Src : IntType) : (rangeCheckImpl Dst Src).Exact Dst Src := by
  have hpos := Dst.pos
  have hdst := Dst.half_pos
  have hsrc := Src.half_pos
  have hle : Dst.bytes * 8 ≤ Src.bytes * 8 → Dst.half ≤ Src.half := IntType.half_le
  have hge : Src.bytes * 8 ≤ Dst.bytes * 8 → Src.half ≤ Dst.half := IntType.half_le
  have hlt : Dst.bytes * 8 < Src.bytes * 8 → 2 * Dst.half ≤ Src.half := IntType.two_half_le
  have hgt : Src.bytes * 8 < Dst.bytes * 8 → 2 * Src.half ≤ Dst.half := IntType.two_half_le
  unfold rangeCheckImpl staticRangeCheck
  cases hd : Dst.isSigned with
  | true =>
    cases hs : Src.isSigned with
    | true =>
      by_cases hc : Dst.bytes * 8 - 1 ≥ Src.bytes * 8 - 1
      · simp only [hc, if_true]
        constructor <;> simp [IntType.Holds, IntType.min_eq, IntType.max_eq, hd, hs] <;> omega
      · simp only [hc, if_false]
        constructor <;> simp [IntType.Holds, IntType.min_eq, IntType.max_eq, hd, hs] <;> omega
    | false =>
      by_cases hc : Dst.bytes * 8 - 1 ≥ Src.bytes * 8
      · simp only [hc, if_true]
        constructor <;> simp [IntType.Holds, IntType.min_eq, IntType.max_eq, hd, hs] <;> omega
      · -- a wider destination has been dealt with, so this check always compares
        have hwide : ¬ Dst.bytes > Src.bytes := by omega
        simp only [hc, hwide, if_false]
        constructor <;> simp [IntType.Holds, IntType.min_eq, IntType.max_eq, hd, hs] <;> omega
  | false =>
    cases hs : Src.isSigned with
    | true =>
      by_cases hc : Dst.bytes * 8 ≥ Src.bytes * 8 - 1
      · simp only [hc, if_true]
        constructor <;> simp [IntType.Holds, IntType.min_eq, IntType.max_eq, hd, hs] <;> omega
      · simp only [hc, if_false]
        constructor <;> simp [IntType.Holds, IntType.min_eq, IntType.max_eq, hd, hs] <;> omega
    | false =>
      by_cases hc : Dst.bytes ≥ Src.bytes
      · simp only [hc, if_true]
        constructor <;> simp [IntType.Holds, IntType.min_eq, IntType.max_eq, hd, hs] <;> omega
      · simp only [hc, if_false]
        constructor <;> simp [IntType.Holds, IntType.min_eq, IntType.max_eq, hd, hs] <;> omega

theorem rangeCheck_eq (value : Src.Value) :
    rangeCheck Dst value = rangeCheckResult (value.1 ≤ Dst.max) (value.1 ≥ Dst.min) := by
  have hspec := rangeCheckImpl_spec Dst Src
  have hvalue : operand Src value.1 = value.1 := operand_of_holds value.2
  unfold rangeCheck
  congr 1
  · rw [Bool.eq_iff_iff, decide_eq_true_iff, ← hspec.upper_iff _ value.2, Option.all_eq_true]
    refine forall₂_congr fun limit hlimit => ?_
    have hholds := hspec.upper_holds limit hlimit
    rw [decide_eq_true_iff, hvalue, IntType.convert_of_holds hholds, operand_of_holds hholds]
  · rw [Bool.eq_iff_iff, decide_eq_true_iff, ge_iff_le, ← hspec.lower_iff _ value.2,
      Option.all_eq_true]
    refine forall₂_congr fun limit hlimit => ?_
    have hholds := hspec.lower_holds limit hlimit
    rw [decide_eq_true_iff, hvalue, IntType.convert_of_holds hholds, operand_of_holds hholds]

theorem rangeCheckResult_valid_iff (isInUpperBound isInLowerBound : Bool) :
    rangeCheckResult isInUpperBound isInLowerBound = .typeValid ↔
      isInUpperBound = true ∧ isInLowerBound = true := by
  cases isInUpperBound <;> cases isInLowerBound <;> decide

theorem isValueInRange_iff (value : Src.Value) :
    isValueInRangeForNumericType Dst value = true ↔ Dst.Holds value.1 := by
  rw [isValueInRangeForNumericType, rangeCheck_eq, decide_eq_true_iff, rangeCheckResult_valid_iff,
    decide_eq_true_iff, decide_eq_true_iff]
  exact and_comm

end Check

/-! ## The casts -/

section Casts

variable {Dst Src : IntType}

theorem checkedCast_eq {value : Src.Value} (h : Dst.Holds value.1) :
    checkedCast Dst value = some value.1 := by
  rw [checkedCast, if_pos ((isValueInRange_iff value).mpr h), IntType.convert_of_holds h]

theorem dcheckedCast_eq (dcheckIsOn : Bool) {value : Src.Value} (h : Dst.Holds value.1) :
    dcheckedCast Dst dcheckIsOn value = some value.1 := by
  rw [dcheckedCast, (isValueInRange_iff value).mpr h, IntType.convert_of_holds h]
  simp

theorem saturatedCast_eq (value : Src.Value) :
    saturatedCast Dst value = some (max Dst.min (min value.1 Dst.max)) := by
  have hle := Dst.min_le_max
  rw [saturatedCast, rangeCheck_eq]
  by_cases hmax : value.1 ≤ Dst.max
  · by_cases hmin : value.1 ≥ Dst.min
    · rw [decide_eq_true hmax, decide_eq_true hmin, min_eq_left hmax, max_eq_right hmin]
      exact congrArg some (IntType.convert_of_holds ⟨hmin, hmax⟩)
    · rw [decide_eq_true hmax, decide_eq_false hmin, min_eq_left hmax,
        max_eq_left (not_le.mp hmin).le]
      rfl
  · have hmin : value.1 ≥ Dst.min := hle.trans (not_le.mp hmax).le
    rw [decide_eq_false hmax, decide_eq_true hmin, min_eq_right (not_le.mp hmax).le,
      max_eq_right hle]
    rfl

end Casts

/-- **What the casts do with every value**: the check is right, the cast clamps, and every
comparison has the operands that it seems to have. -/
theorem saturatedCast_clamps (Dst Src : IntType) (value : Src.Value) :
    (isValueInRangeForNumericType Dst value = true ↔ Dst.Holds value.1) ∧
    saturatedCast Dst value = some (max Dst.min (min value.1 Dst.max)) ∧
    (∀ limit, limit ∈ (rangeCheckImpl Dst Src).upper ∨ limit ∈ (rangeCheckImpl Dst Src).lower →
      operand Src value.1 = value.1 ∧ operand Src (Src.convert limit) = limit) := by
  refine ⟨isValueInRange_iff value, saturatedCast_eq value, fun limit hlimit => ?_⟩
  have hspec := rangeCheckImpl_spec Dst Src
  have hholds : Src.Holds limit :=
    hlimit.elim (hspec.upper_holds limit) (hspec.lower_holds limit)
  refine ⟨operand_of_holds value.2, ?_⟩
  rw [IntType.convert_of_holds hholds, operand_of_holds hholds]

end SafeConversions

end RtcBase
