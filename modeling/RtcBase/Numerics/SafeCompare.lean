import RtcBase.Lib.IntType

/-!
# `safe_compare.h`

C++ compares two integers in a common type, to which both are converted. `SafeEq` to `SafeGe` are
the plain operators.

* `common`, `comparisonType`: the usual arithmetic conversions, after integer promotion;
* `safeEq` … `safeGe`, `safe`: the functions of the header, one by one and by their operator;
* `convert_of_covers`: a negative operand wraps in an unsigned common type, all else is kept;
* **`safe_iff`**: when a function compares the integers themselves.
-/

namespace RtcBase

namespace SafeCompare

/-! ## The common type -/

/-- The common type of a signed type `S` and an unsigned type `U`. -/
def commonMixed (S U : IntType) : IntType :=
  if S.bits ≤ U.bits then U else if U.max ≤ S.max then S else S.toUnsigned

/-- The usual arithmetic conversions, after promotion. -/
def common (P Q : IntType) : IntType :=
  if P.isSigned = Q.isSigned then (if P.bits < Q.bits then Q else P)
  else if P.isSigned then commonMixed P Q
  else commonMixed Q P

/-- The type in which values of `T₁` and `T₂` are compared. -/
def comparisonType (T₁ T₂ : IntType) : IntType := common T₁.promote T₂.promote

/-! ## The functions of the header -/

/-- The six operators. -/
inductive Op where
  | eq
  | ne
  | lt
  | le
  | gt
  | ge
  deriving DecidableEq, Repr

/-- An operator on the integers. -/
def Op.holds : Op → ℤ → ℤ → Bool
  | .eq, x, y => x = y
  | .ne, x, y => x ≠ y
  | .lt, x, y => x < y
  | .le, x, y => x ≤ y
  | .gt, x, y => x > y
  | .ge, x, y => x ≥ y

variable {T T₁ T₂ : IntType}

/-- `a op b` in C++. -/
def compare (op : Op) (a : T₁.Value) (b : T₂.Value) : Bool :=
  op.holds ((comparisonType T₁ T₂).convert (T₁.promote.convert a.1))
    ((comparisonType T₁ T₂).convert (T₂.promote.convert b.1))

/-- `EqOp`, with the plain `==`. -/
def eqOp (a : T₁.Value) (b : T₂.Value) : Bool := compare .eq a b

/-- `NeOp`, with the plain `!=`. -/
def neOp (a : T₁.Value) (b : T₂.Value) : Bool := compare .ne a b

/-- `LtOp`, with the plain `<`. -/
def ltOp (a : T₁.Value) (b : T₂.Value) : Bool := compare .lt a b

/-- `LeOp`, with the plain `<=`. -/
def leOp (a : T₁.Value) (b : T₂.Value) : Bool := compare .le a b

/-- `GtOp`, with the plain `>`. -/
def gtOp (a : T₁.Value) (b : T₂.Value) : Bool := compare .gt a b

/-- `GeOp`, with the plain `>=`. -/
def geOp (a : T₁.Value) (b : T₂.Value) : Bool := compare .ge a b

/-- `SafeEq` is `EqOp`. -/
def safeEq (a : T₁.Value) (b : T₂.Value) : Bool := eqOp a b

/-- `SafeNe` is `NeOp`. -/
def safeNe (a : T₁.Value) (b : T₂.Value) : Bool := neOp a b

/-- `SafeLt` is `LtOp`. -/
def safeLt (a : T₁.Value) (b : T₂.Value) : Bool := ltOp a b

/-- `SafeLe` is `LeOp`. -/
def safeLe (a : T₁.Value) (b : T₂.Value) : Bool := leOp a b

/-- `SafeGt` is `GtOp`. -/
def safeGt (a : T₁.Value) (b : T₂.Value) : Bool := gtOp a b

/-- `SafeGe` is `GeOp`. -/
def safeGe (a : T₁.Value) (b : T₂.Value) : Bool := geOp a b

/-- The function for an operator. -/
def safe : Op → T₁.Value → T₂.Value → Bool
  | .eq => safeEq
  | .ne => safeNe
  | .lt => safeLt
  | .le => safeLe
  | .gt => safeGt
  | .ge => safeGe

/-! ## Conversions -/

/-- Whatever `P` holds, `C` holds too, or wraps once. -/
structure Covers (C P : IntType) : Prop where
  bits_le : P.bits ≤ C.bits
  holds : C.isSigned = true → ∀ x, P.Holds x → C.Holds x

theorem covers_refl (T : IntType) : Covers T T := ⟨le_rfl, fun _ _ h => h⟩

theorem covers_of_signed {C P : IntType} (hle : P.bits ≤ C.bits)
    (h : P.isSigned = true ∨ P.bits < C.bits) : Covers C P :=
  ⟨hle, fun hC _ hx => IntType.holds_of_signed hC hle h hx⟩

theorem commonMixed_covers (S : IntType) {U : IntType} (hU : U.isSigned = false) :
    Covers (commonMixed S U) S ∧ Covers (commonMixed S U) U := by
  unfold commonMixed
  split_ifs with h₁ h₂
  · exact ⟨⟨h₁, fun h => absurd h (by simp [hU])⟩, covers_refl U⟩
  · exact ⟨covers_refl S, covers_of_signed (not_le.mp h₁).le (.inr (not_le.mp h₁))⟩
  · exact ⟨⟨le_rfl, fun h => absurd h Bool.false_ne_true⟩,
      ⟨(not_le.mp h₁).le, fun h => absurd h Bool.false_ne_true⟩⟩

theorem common_covers (P Q : IntType) : Covers (common P Q) P ∧ Covers (common P Q) Q := by
  unfold common
  split_ifs with h₁ h₂ h₃
  · refine ⟨⟨h₂.le, fun h => (covers_of_signed h₂.le (.inl (h₁.trans h))).holds h⟩, covers_refl Q⟩
  · exact ⟨covers_refl P,
      ⟨not_lt.mp h₂, fun h => (covers_of_signed (not_lt.mp h₂) (.inl (h₁ ▸ h))).holds h⟩⟩
  · exact commonMixed_covers P (Bool.eq_false_iff.mpr fun hQ => h₁ (h₃.trans hQ.symm))
  · exact (commonMixed_covers Q (Bool.eq_false_iff.mpr h₃)).symm

theorem convert_of_covers {C P : IntType} (h : Covers C P) {x : ℤ} (hx : P.Holds x) :
    C.convert (P.convert x) = if C.isSigned ∨ 0 ≤ x then x else x + 2 ^ C.bits := by
  rw [IntType.convert_of_holds hx]
  by_cases hs : C.isSigned
  · rw [if_pos (.inl hs), IntType.convert_of_holds (h.holds hs x hx)]
  · have hmono := IntType.half_le h.bits_le
    have hpow := C.two_pow_bits
    have hpos := P.half_pos
    rw [IntType.holds_iff] at hx
    rw [IntType.convert, if_neg hs]
    by_cases hneg : 0 ≤ x
    · rw [if_pos (.inr hneg)]
      exact Int.emod_eq_of_lt hneg (by omega)
    · rw [if_neg (by simp [hs, hneg]), ← Int.add_emod_right]
      exact Int.emod_eq_of_lt (by omega) (by omega)

theorem common_signed {P Q : IntType} (hP : P.isSigned = true) (hQ : Q.isSigned = true) :
    (common P Q).isSigned = true := by
  unfold common
  rw [if_pos (hP.trans hQ.symm)]
  split_ifs
  · exact hQ
  · exact hP

/-! ## When the integers themselves are compared -/

/-- How a negative left operand compares with `y` when it has wrapped to `x`. -/
def Op.Survives : Op → ℤ → ℤ → Prop
  | .eq, x, y | .ne, x, y => x ≠ y
  | .lt, x, y | .ge, x, y => x < y
  | .le, x, y | .gt, x, y => x ≤ y

/-- The operator for the operands in the other order. -/
def Op.flip : Op → Op
  | .eq => .eq
  | .ne => .ne
  | .lt => .gt
  | .le => .ge
  | .gt => .lt
  | .ge => .le

/-- The comparison type is signed, or no operand is negative, or the negative one has wrapped to
the same side of the other. -/
def Agrees (op : Op) (a : T₁.Value) (b : T₂.Value) : Prop :=
  (comparisonType T₁ T₂).isSigned = true ∨ 0 ≤ a.1 ∧ 0 ≤ b.1 ∨
    a.1 < 0 ∧ op.Survives (a.1 + 2 ^ (comparisonType T₁ T₂).bits) b.1 ∨
    b.1 < 0 ∧ op.flip.Survives (b.1 + 2 ^ (comparisonType T₁ T₂).bits) a.1

theorem nonneg_of_neg {a : T₁.Value} {b : T₂.Value}
    (hs : (comparisonType T₁ T₂).isSigned = false) : 0 ≤ a.1 ∨ 0 ≤ b.1 := by
  by_contra hneg
  rw [not_or, not_le, not_le] at hneg
  have := common_signed (IntType.isSigned_of_neg (IntType.promote_holds a.2) hneg.1)
    (IntType.isSigned_of_neg (IntType.promote_holds b.2) hneg.2)
  rw [← comparisonType, hs] at this
  cases this

/-- A negative left operand wraps above all others, so it survives if it stays below `y`. -/
theorem holds_wrapped_left (op : Op) {x y w : ℤ} (hx : x < 0) (hy : 0 ≤ y) :
    op.holds (x + w) y = op.holds x y ↔ op.Survives (x + w) y := by
  cases op <;> simp only [Op.holds, Op.Survives, decide_eq_decide] <;> omega

theorem holds_flip (op : Op) (x y : ℤ) : op.holds x y = op.flip.holds y x := by
  cases op <;> simp only [Op.holds, Op.flip, decide_eq_decide] <;> omega

theorem compare_iff (op : Op) (a : T₁.Value) (b : T₂.Value) :
    compare op a b = op.holds a.1 b.1 ↔ Agrees op a b := by
  obtain ⟨hcov₁, hcov₂⟩ := common_covers T₁.promote T₂.promote
  rw [compare, comparisonType, convert_of_covers hcov₁ (IntType.promote_holds a.2),
    convert_of_covers hcov₂ (IntType.promote_holds b.2), ← comparisonType, Agrees]
  cases hs : (comparisonType T₁ T₂).isSigned with
  | true => simp
  | false =>
    simp only [Bool.false_eq_true, false_or]
    by_cases ha : 0 ≤ a.1
    · by_cases hb : 0 ≤ b.1
      · simp [ha, hb]
      · rw [if_pos ha, if_neg hb, holds_flip, holds_flip op a.1,
          holds_wrapped_left _ (not_le.mp hb) ha]
        simp [hb, not_lt.mpr ha, not_le.mp hb]
    · have hb := (nonneg_of_neg (a := a) (b := b) hs).resolve_left ha
      rw [if_neg ha, if_pos hb, holds_wrapped_left _ (not_le.mp ha) hb]
      simp [ha, not_lt.mpr hb, not_le.mp ha]

/-- Any two values compare in exactly one way, if not always in the right one. -/
theorem safe_trichotomy (a : T₁.Value) (b : T₂.Value) :
    safeLt a b = true ∧ safeEq a b = false ∧ safeGt a b = false ∨
      safeLt a b = false ∧ safeEq a b = true ∧ safeGt a b = false ∨
      safeLt a b = false ∧ safeEq a b = false ∧ safeGt a b = true := by
  simp only [safeLt, safeEq, safeGt, ltOp, eqOp, gtOp, compare, Op.holds, decide_eq_true_eq,
    decide_eq_false_iff_not]
  omega

theorem safeLt_trans {T₃ : IntType} {a : T₁.Value} {b : T₂.Value} {c : T₃.Value}
    (hab : Agrees .lt a b) (hbc : Agrees .lt b c) (hac : Agrees .lt a c)
    (h₁ : safeLt a b = true) (h₂ : safeLt b c = true) : safeLt a c = true := by
  have hab' : safeLt a b = decide (a.1 < b.1) := (compare_iff .lt a b).mpr hab
  have hbc' : safeLt b c = decide (b.1 < c.1) := (compare_iff .lt b c).mpr hbc
  have hac' : safeLt a c = decide (a.1 < c.1) := (compare_iff .lt a c).mpr hac
  rw [hab', decide_eq_true_eq] at h₁
  rw [hbc', decide_eq_true_eq] at h₂
  rw [hac', decide_eq_true_eq]
  exact h₁.trans h₂

/-- **When a safe comparison is mathematical.** Trichotomy holds for all values, transitivity where
the three comparisons agree with the integers. -/
theorem safe_iff {T₃ : IntType} (a : T₁.Value) (b : T₂.Value) (c : T₃.Value) :
    (∀ op, safe op a b = op.holds a.1 b.1 ↔ Agrees op a b) ∧
      (safeLt a b = true ∧ safeEq a b = false ∧ safeGt a b = false ∨
        safeLt a b = false ∧ safeEq a b = true ∧ safeGt a b = false ∨
        safeLt a b = false ∧ safeEq a b = false ∧ safeGt a b = true) ∧
      (Agrees .lt a b → Agrees .lt b c → Agrees .lt a c →
        safeLt a b = true → safeLt b c = true → safeLt a c = true) := by
  refine ⟨fun op => ?_, safe_trichotomy a b, safeLt_trans⟩
  have hcompare : safe op a b = compare op a b := by cases op <;> rfl
  rw [hcompare]
  exact compare_iff op a b

/-- An `int32_t` below a `uint32_t` that does not compare so, between two that do. -/
theorem not_safe :
    let a : IntType.int32.Value := ⟨-1, by decide⟩
    let b : IntType.int32.Value := ⟨0, by decide⟩
    let c : IntType.uint32.Value := ⟨1, by decide⟩
    safeLt a c = false ∧ a.1 < c.1 ∧ safeLt a b = true ∧ safeLt b c = true := by
  decide

end SafeCompare

end RtcBase
