import RtcBase.Lib.Word

/-!
# Integer types

The integer types of a language of the C family, in two's complement, on a target with an `int` of
four bytes. The values of a type are integers in its range.

* `IntType`, `Holds`, `Value`: the types and their values;
* `convert`, `promote`: conversion modulo `2 ^ bits`, and integer promotion;
* `half`, `holds_iff`: ranges, in halves;
* `convert_of_holds`, `holds_convert`, `promote_holds`: a conversion keeps what its type holds, and
  gives what it holds.
-/

namespace RtcBase

/-- An integer type, by its size and whether it has a sign. -/
structure IntType where
  bytes : ℕ
  pos : 0 < bytes
  isSigned : Bool
  deriving DecidableEq

namespace IntType

/-- The width of a type. -/
def bits (T : IntType) : ℕ := T.bytes * 8

/-- `std::numeric_limits<T>::min()`. -/
def min (T : IntType) : ℤ := if T.isSigned then -2 ^ (T.bits - 1) else 0

/-- `std::numeric_limits<T>::max()`. -/
def max (T : IntType) : ℤ := if T.isSigned then 2 ^ (T.bits - 1) - 1 else 2 ^ T.bits - 1

/-- An integer in the range of the type. -/
def Holds (T : IntType) (x : ℤ) : Prop := T.min ≤ x ∧ x ≤ T.max

instance (T : IntType) (x : ℤ) : Decidable (T.Holds x) :=
  inferInstanceAs (Decidable (T.min ≤ x ∧ x ≤ T.max))

/-- The values of a type are the integers that it holds. -/
def Value (T : IntType) : Type := {x : ℤ // T.Holds x}

/-- Conversion to a type, modulo `2 ^ bits`. -/
def convert (T : IntType) (x : ℤ) : ℤ :=
  if T.isSigned then x.bmod (2 ^ T.bits) else x % 2 ^ T.bits

/-- `int16_t`. -/
def int16 : IntType := ⟨2, by decide, true⟩

/-- `uint16_t`. -/
def uint16 : IntType := ⟨2, by decide, false⟩

/-- `int32_t`, which is `int`. -/
def int32 : IntType := ⟨4, by decide, true⟩

/-- `uint32_t`. -/
def uint32 : IntType := ⟨4, by decide, false⟩

/-- `int64_t`. -/
def int64 : IntType := ⟨8, by decide, true⟩

/-- Integer promotion: an `int` holds all values of a narrower type. -/
def promote (T : IntType) : IntType := if T.bytes < 4 then int32 else T

/-- The unsigned type of the same width. -/
def toUnsigned (T : IntType) : IntType := ⟨T.bytes, T.pos, false⟩

/-! ## Ranges -/

/-- Half of the values of a type. -/
def half (T : IntType) : ℤ := 2 ^ (T.bits - 1)

theorem half_pos (T : IntType) : 0 < T.half := by
  unfold half
  positivity

theorem bits_pos (T : IntType) : 0 < T.bits := Nat.mul_pos T.pos (by decide)

theorem two_pow_bits (T : IntType) : (2 : ℤ) ^ T.bits = 2 * T.half := by
  rw [half, ← pow_succ', Nat.sub_add_cancel T.bits_pos]

theorem min_eq (T : IntType) : T.min = if T.isSigned then -T.half else 0 := rfl

theorem max_eq (T : IntType) : T.max = if T.isSigned then T.half - 1 else 2 * T.half - 1 := by
  rw [max, two_pow_bits, half]

theorem min_le_max (T : IntType) : T.min ≤ T.max := by
  have hpos := T.half_pos
  rw [min_eq, max_eq]
  split_ifs
  · omega
  · omega

variable {T T' : IntType} {x : ℤ}

theorem half_le (h : T.bits ≤ T'.bits) : T.half ≤ T'.half :=
  pow_le_pow_right₀ (by decide) (by omega)

theorem two_half_le (h : T.bits < T'.bits) : 2 * T.half ≤ T'.half := by
  rw [← two_pow_bits]
  exact pow_le_pow_right₀ (by decide) (by omega)

theorem holds_iff (T : IntType) (x : ℤ) : T.Holds x ↔
    (T.isSigned = true ∧ -T.half ≤ x ∧ x < T.half) ∨
      T.isSigned = false ∧ 0 ≤ x ∧ x < 2 * T.half := by
  rw [Holds, min_eq, max_eq]
  cases T.isSigned <;> simp

theorem isSigned_of_neg (h : T.Holds x) (hx : x < 0) : T.isSigned = true := by
  rw [holds_iff] at h
  exact h.elim And.left fun h => absurd h.2.1 (not_le.mpr hx)

/-- A signed type holds the values of another one that is no wider, or of an unsigned one that is
narrower. -/
theorem holds_of_signed (hT' : T'.isSigned = true) (hle : T.bits ≤ T'.bits)
    (h : T.isSigned = true ∨ T.bits < T'.bits) (hx : T.Holds x) : T'.Holds x := by
  have hmono := half_le hle
  have hpos := T.half_pos
  rw [holds_iff] at hx ⊢
  left
  obtain ⟨-, h₁, h₂⟩ | ⟨hs, h₁, h₂⟩ := hx
  · exact ⟨hT', by omega, by omega⟩
  · rw [hs] at h
    have hwide := two_half_le (h.resolve_left Bool.false_ne_true)
    exact ⟨hT', by omega, by omega⟩

/-! ## Conversions -/

theorem convert_of_holds (h : T.Holds x) : T.convert x = x := by
  rw [holds_iff, ← two_pow_bits, half] at h
  rw [convert]
  obtain ⟨hs, h₁, h₂⟩ | ⟨hs, h₁, h₂⟩ := h
  · rw [if_pos hs]
    exact Word.bmod_of_mem T.bits_pos h₁ h₂
  · rw [hs]
    exact Int.emod_eq_of_lt h₁ h₂

theorem holds_convert (T : IntType) (x : ℤ) : T.Holds (T.convert x) := by
  have hpow := T.two_pow_bits
  have hpos : (0 : ℤ) < 2 ^ T.bits := by positivity
  have hcast : ((2 ^ T.bits : ℕ) : ℤ) = 2 ^ T.bits := by norm_cast
  rw [holds_iff, convert]
  cases hs : T.isSigned with
  | true =>
    have h₁ := Int.le_bmod (x := x) (m := 2 ^ T.bits) (by positivity)
    have h₂ := Int.bmod_lt (x := x) (m := 2 ^ T.bits) (by positivity)
    rw [hcast] at h₁ h₂
    left
    rw [if_pos rfl]
    exact ⟨rfl, by omega, by omega⟩
  | false =>
    right
    rw [if_neg Bool.false_ne_true, ← hpow]
    exact ⟨rfl, Int.emod_nonneg _ hpos.ne', Int.emod_lt_of_pos _ hpos⟩

theorem promote_holds (h : T.Holds x) : T.promote.Holds x := by
  unfold promote
  split_ifs with hlt
  · have hbits : T.bits < int32.bits := Nat.mul_lt_mul_of_pos_right hlt (by decide)
    exact holds_of_signed rfl hbits.le (.inr hbits) h
  · exact h

theorem promote_signed (h : T.isSigned = true) : T.promote.isSigned = true := by
  unfold promote
  split_ifs
  · rfl
  · exact h

end IntType

end RtcBase
