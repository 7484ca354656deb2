import RtcBase.Numerics.SafeCompare

/-!
# `safe_minmax.h`

`SafeMin`, `SafeMax` and `SafeClamp` pick one of their arguments by comparisons of
`safe_compare.h`, and cast it to the result type.

* `safeMin`, `safeMax`, `safeClamp`, `checkLe`: the functions, and the check in `SafeClamp`;
* `Represents`: a result type that holds all values of another type;
* `Closest`, **`closest_iff`**: what clamping is for;
* `agrees_of_represents`: comparisons with the result type are mathematical;
* `Clamps`, `ClampAgrees`, **`clamps_iff`**: when one call of `SafeClamp` is right;
* **`safe_minmax_iff`**: when the three functions are right.
-/

namespace RtcBase

namespace SafeCompare

variable {R T L H T₁ T₂ T₃ : IntType}

/-! ## The functions of the header -/

/-- `static_cast<R>(x)`. -/
def staticCast (R : IntType) (x : T.Value) : R.Value := ⟨R.convert x.1, R.holds_convert x.1⟩

/-- The argument that compares as the smaller one. -/
def safeMin (R : IntType) (a : T₁.Value) (b : T₂.Value) : R.Value :=
  if safeLt a b then staticCast R a else staticCast R b

/-- The argument that compares as the greater one. -/
def safeMax (R : IntType) (a : T₁.Value) (b : T₂.Value) : R.Value :=
  if safeGt a b then staticCast R a else staticCast R b

/-- Whether `RTC_DCHECK_LE(a, b)` passes. -/
def checkLe (a : T₁.Value) (b : T₂.Value) : Bool := leOp a b

/-- What `SafeClamp` returns, after its check. -/
def safeClamp (R : IntType) (x : T.Value) (min : L.Value) (max : H.Value) : R.Value :=
  if safeLe x min then staticCast R min
  else if safeGe x max then staticCast R max else staticCast R x

/-! ## Result types -/

/-- `R` holds every value of `T`. -/
def Represents (R T : IntType) : Prop := R.min ≤ T.min ∧ T.max ≤ R.max

instance (R T : IntType) : Decidable (Represents R T) :=
  inferInstanceAs (Decidable (R.min ≤ T.min ∧ T.max ≤ R.max))

theorem represents_refl (T : IntType) : Represents T T := ⟨le_rfl, le_rfl⟩

theorem holds_of_represents (h : Represents R T) {x : ℤ} (hx : T.Holds x) : R.Holds x :=
  ⟨h.1.trans hx.1, hx.2.trans h.2⟩

theorem staticCast_val (h : Represents R T) (x : T.Value) : (staticCast R x).1 = x.1 :=
  IntType.convert_of_holds (holds_of_represents h x.2)

theorem bits_lt_of_represents (h : Represents R T) (hR : R.isSigned = true)
    (hT : T.isSigned = false) : T.bits < R.bits := by
  by_contra hle
  have hmono := IntType.half_le (not_lt.mp hle)
  have hpos := T.half_pos
  have hmax := h.2
  rw [IntType.max_eq, IntType.max_eq, hR, hT, if_pos rfl, if_neg Bool.false_ne_true] at hmax
  omega

theorem comparisonType_signed (h : Represents R T) (hR : R.isSigned = true) :
    (comparisonType R T).isSigned = true := by
  unfold comparisonType
  cases hT : T.promote.isSigned with
  | true => exact common_signed (IntType.promote_signed hR) hT
  | false =>
    -- `T` is unsigned and not promoted, so `R` is wider and not promoted either
    have hwide : ¬ T.bytes < 4 := fun hlt => by
      rw [IntType.promote, if_pos hlt] at hT
      cases hT
    have hTT : T.promote = T := if_neg hwide
    rw [hTT] at hT ⊢
    have hlt := bits_lt_of_represents h hR hT
    have hbytes : T.bytes < R.bytes := lt_of_mul_lt_mul_right hlt (by decide)
    have hRR : R.promote = R := if_neg (by omega)
    rw [hRR, common, if_neg (by rw [hR, hT]; decide), if_pos hR, commonMixed,
      if_neg (not_le.mpr hlt), if_pos h.2]
    exact hR

/-- **Comparisons with a value of the result type are mathematical.** -/
theorem agrees_of_represents (h : Represents R T) (op : Op) (c : R.Value) (b : T.Value) :
    Agrees op c b := by
  cases hR : R.isSigned with
  | true => exact .inl (comparisonType_signed h hR)
  | false =>
    have hlow : R.min = 0 := by simp [IntType.min, hR]
    have hc := c.2.1
    have hb := (holds_of_represents h b.2).1
    exact .inr (.inl ⟨by omega, by omega⟩)

theorem agrees_of_eq (op : Op) {a : T₁.Value} {b : T₂.Value} (h : a.1 = b.1) : Agrees op a b := by
  cases hs : (comparisonType T₁ T₂).isSigned with
  | true => exact .inl hs
  | false =>
    have := nonneg_of_neg (a := a) (b := b) hs
    exact .inr (.inl ⟨by omega, by omega⟩)

theorem compare_eq_true_iff (op : Op) (a : T₁.Value) (b : T₂.Value) :
    compare op a b = true ↔ (Agrees op a b ↔ op.holds a.1 b.1 = true) := by
  rw [← compare_iff]
  cases compare op a b <;> cases op.holds a.1 b.1 <;> decide

/-! ## `SafeMin` and `SafeMax` -/

/-- Picking an argument by a comparison. Where the arguments are equal it does not matter which. -/
theorem pick_iff (op : Op) (a : T₁.Value) (b : T₂.Value) :
    (if compare op a b then a.1 else b.1) = (if op.holds a.1 b.1 then a.1 else b.1) ↔
      Agrees op a b := by
  rw [← compare_iff]
  by_cases heq : a.1 = b.1
  · simp [(compare_iff op a b).mpr (agrees_of_eq op heq)]
  · cases compare op a b <;> cases op.holds a.1 b.1 <;> simp [heq, Ne.symm heq]

theorem safeMin_val (h₁ : Represents R T₁) (h₂ : Represents R T₂) (a : T₁.Value) (b : T₂.Value) :
    (safeMin R a b).1 = if safeLt a b then a.1 else b.1 := by
  unfold safeMin
  split_ifs
  · exact staticCast_val h₁ a
  · exact staticCast_val h₂ b

theorem safeMax_val (h₁ : Represents R T₁) (h₂ : Represents R T₂) (a : T₁.Value) (b : T₂.Value) :
    (safeMax R a b).1 = if safeGt a b then a.1 else b.1 := by
  unfold safeMax
  split_ifs
  · exact staticCast_val h₁ a
  · exact staticCast_val h₂ b

theorem safeMin_iff (h₁ : Represents R T₁) (h₂ : Represents R T₂) (a : T₁.Value) (b : T₂.Value) :
    (safeMin R a b).1 = min a.1 b.1 ↔ Agrees .lt a b := by
  have hmin : min a.1 b.1 = if Op.lt.holds a.1 b.1 then a.1 else b.1 := by
    simp only [Op.holds, decide_eq_true_eq]
    omega
  rw [safeMin_val h₁ h₂, hmin]
  exact pick_iff .lt a b

theorem safeMax_iff (h₁ : Represents R T₁) (h₂ : Represents R T₂) (a : T₁.Value) (b : T₂.Value) :
    (safeMax R a b).1 = max a.1 b.1 ↔ Agrees .gt a b := by
  have hmax : max a.1 b.1 = if Op.gt.holds a.1 b.1 then a.1 else b.1 := by
    simp only [Op.holds, decide_eq_true_eq]
    omega
  rw [safeMax_val h₁ h₂, hmax]
  exact pick_iff .gt a b

/-! ## What clamping is for -/

/-- `c` is in `[lo, hi]`, and nothing there is closer to `x`. -/
def Closest (lo hi x c : ℤ) : Prop :=
  c ∈ Set.Icc lo hi ∧ ∀ d ∈ Set.Icc lo hi, (x - c).natAbs ≤ (x - d).natAbs

theorem closest_iff {lo hi : ℤ} (h : lo ≤ hi) (x c : ℤ) :
    Closest lo hi x c ↔ c = Set.projIcc lo hi h x := by
  rw [Set.coe_projIcc]
  constructor
  · rintro ⟨⟨h₁, h₂⟩, hall⟩
    have := hall (max lo (min hi x)) ⟨by omega, by omega⟩
    omega
  · rintro rfl
    exact ⟨⟨by omega, by omega⟩, fun d ⟨h₁, h₂⟩ => by omega⟩

theorem closest_iff_or {lo hi : ℤ} (h : lo ≤ hi) (x c : ℤ) : Closest lo hi x c ↔
    x ≤ lo ∧ c = lo ∨ hi ≤ x ∧ c = hi ∨ lo ≤ x ∧ x ≤ hi ∧ c = x := by
  rw [closest_iff h, Set.coe_projIcc]
  omega

/-! ## `SafeClamp` -/

theorem safeClamp_val (hT : Represents R T) (hL : Represents R L) (hH : Represents R H)
    (x : T.Value) (lo : L.Value) (hi : H.Value) : (safeClamp R x lo hi).1 =
      if safeLe x lo then lo.1 else if safeGe x hi then hi.1 else x.1 := by
  unfold safeClamp
  split_ifs
  · exact staticCast_val hL lo
  · exact staticCast_val hH hi
  · exact staticCast_val hT x

theorem safeLe_eq_true_iff (a : T₁.Value) (b : T₂.Value) :
    safeLe a b = true ↔ (Agrees .le a b ↔ a.1 ≤ b.1) := by
  have := compare_eq_true_iff .le a b
  rwa [Op.holds, decide_eq_true_eq] at this

theorem safeGe_eq_true_iff (a : T₁.Value) (b : T₂.Value) :
    safeGe a b = true ↔ (Agrees .ge a b ↔ a.1 ≥ b.1) := by
  have := compare_eq_true_iff .ge a b
  rwa [Op.holds, decide_eq_true_eq] at this

/-- The comparisons that decide a call of `SafeClamp` agree. In an interval of one point it is
enough to reach one of the first two branches. -/
structure ClampAgrees (x : T.Value) (lo : L.Value) (hi : H.Value) : Prop where
  order : Agrees .le lo hi
  inside : lo.1 < hi.1 → Agrees .le x lo ∧ (x.1 ≤ lo.1 ∨ Agrees .ge x hi)
  point : lo.1 = hi.1 → (Agrees .le x lo ↔ x.1 ≤ lo.1) ∨ (Agrees .ge x hi ↔ x.1 ≥ hi.1)

theorem checkLe_iff {lo : L.Value} {hi : H.Value} (hle : lo.1 ≤ hi.1) :
    checkLe lo hi = true ↔ Agrees .le lo hi := by
  have : checkLe lo hi = true ↔ (Agrees .le lo hi ↔ lo.1 ≤ hi.1) := safeLe_eq_true_iff lo hi
  rw [this, iff_true_right hle]

/-- The branches of `SafeClamp`, for two comparisons `p` and `q` that agree with the integers just
when `A` and `B` hold. -/
theorem branches_iff {x lo hi : ℤ} (hle : lo ≤ hi) {A B : Prop} {p q : Bool}
    (hp : p = true ↔ (A ↔ x ≤ lo)) (hq : q = true ↔ (B ↔ x ≥ hi)) (hA : x = lo → A)
    (hB : x = hi → B) : Closest lo hi x (if p then lo else if q then hi else x) ↔
      (lo < hi → A ∧ (x ≤ lo ∨ B)) ∧ (lo = hi → (A ↔ x ≤ lo) ∨ (B ↔ x ≥ hi)) := by
  rw [closest_iff_or hle]
  -- a comparison that does not agree answers the opposite, and then the arguments differ
  by_cases h₁ : A <;> by_cases h₂ : B <;>
    simp only [h₁, h₂, true_iff, false_iff, true_and, false_and, or_true, or_false, imp_false,
      imp_true_iff] at hp hq hA hB ⊢ <;>
    simp only [hp, hq] <;> split_ifs <;> omega

/-- `SafeClamp` and its check are right for `x`, and clamping twice is clamping once. -/
structure Clamps (R : IntType) (x : T.Value) (lo : L.Value) (hi : H.Value) : Prop where
  check : checkLe lo hi = true
  closest : Closest lo.1 hi.1 x.1 (safeClamp R x lo hi).1
  idempotent : safeClamp R (safeClamp R x lo hi) lo hi = safeClamp R x lo hi

theorem closest_safeClamp_result (hL : Represents R L) (hH : Represents R H) (c : R.Value)
    {lo : L.Value} {hi : H.Value} (hle : lo.1 ≤ hi.1) :
    Closest lo.1 hi.1 c.1 (safeClamp R c lo hi).1 := by
  rw [safeClamp_val (represents_refl R) hL hH]
  have hA := agrees_of_represents hL .le c lo
  have hB := agrees_of_represents hH .ge c hi
  refine (branches_iff hle (safeLe_eq_true_iff c lo) (safeGe_eq_true_iff c hi) (fun _ => hA)
    fun _ => hB).mpr ⟨fun _ => ⟨hA, .inr hB⟩, fun h => ?_⟩
  rw [iff_true_left hA, iff_true_left hB, h]
  exact le_total c.1 hi.1

/-- **When a call of `SafeClamp` is right.** -/
theorem clamps_iff (hT : Represents R T) (hL : Represents R L) (hH : Represents R H)
    (x : T.Value) {lo : L.Value} {hi : H.Value} (hle : lo.1 ≤ hi.1) :
    Clamps R x lo hi ↔ ClampAgrees x lo hi := by
  have hclosest := branches_iff hle (safeLe_eq_true_iff x lo) (safeGe_eq_true_iff x hi)
    (agrees_of_eq .le) (agrees_of_eq .ge)
  rw [← safeClamp_val hT hL hH] at hclosest
  constructor
  · intro h
    obtain ⟨h₁, h₂⟩ := hclosest.mp h.closest
    exact ⟨(checkLe_iff hle).mp h.check, h₁, h₂⟩
  · intro h
    have hin := hclosest.mpr ⟨h.inside, h.point⟩
    refine ⟨(checkLe_iff hle).mpr h.order, hin, Subtype.ext ?_⟩
    have := closest_safeClamp_result hL hH (safeClamp R x lo hi) hle
    rw [closest_iff hle] at this
    rw [this]
    exact congrArg Subtype.val (Set.projIcc_of_mem hle hin.1)

theorem Closest.mono {lo hi x y c d : ℤ} (hle : lo ≤ hi) (hc : Closest lo hi x c)
    (hd : Closest lo hi y d) (h : x ≤ y) : c ≤ d := by
  rw [closest_iff hle] at hc hd
  rw [hc, hd]
  exact Set.monotone_projIcc hle h

/-- **When the three functions are right.** For every result type that holds the values of the
argument types: `SafeMin` and `SafeMax` are right where their comparison agrees with the integers,
and calls of `SafeClamp` are right, and monotone, where those that decide them do. -/
theorem safe_minmax_iff (h₁ : Represents R T₁) (h₂ : Represents R T₂) :
    (∀ (a : T₁.Value) (b : T₂.Value),
      ((safeMin R a b).1 = min a.1 b.1 ↔ Agrees .lt a b) ∧
      ((safeMax R a b).1 = max a.1 b.1 ↔ Agrees .gt a b)) ∧
    (Represents R T₃ → ∀ (x y : T₁.Value) (lo : T₂.Value) (hi : T₃.Value), lo.1 ≤ hi.1 →
      (Clamps R x lo hi ∧ Clamps R y lo hi ∧
        (x.1 ≤ y.1 → (safeClamp R x lo hi).1 ≤ (safeClamp R y lo hi).1) ↔
        ClampAgrees x lo hi ∧ ClampAgrees y lo hi)) := by
  refine ⟨fun a b => ⟨safeMin_iff h₁ h₂ a b, safeMax_iff h₁ h₂ a b⟩, fun h₃ x y lo hi hle => ?_⟩
  rw [← clamps_iff h₁ h₂ h₃ x hle, ← clamps_iff h₁ h₂ h₃ y hle]
  constructor
  · rintro ⟨hx, hy, -⟩
    exact ⟨hx, hy⟩
  · rintro ⟨hx, hy⟩
    exact ⟨hx, hy, hx.closest.mono hle hy.closest⟩

/-- Two `uint16_t`s against an `int32_t` and an `int16_t`: the comparison types are all `int`. -/
theorem safe_minmax_sample :
    let R := IntType.int32
    let x : IntType.uint16.Value := ⟨9, by decide⟩
    let y : IntType.uint16.Value := ⟨65535, by decide⟩
    let lo : IntType.int32.Value := ⟨-5, by decide⟩
    let hi : IntType.int16.Value := ⟨7, by decide⟩
    (safeMin R x lo).1 = min 9 (-5) ∧ (safeMax R x lo).1 = max 9 (-5) ∧ Clamps R x lo hi ∧
      Clamps R y lo hi ∧ (x.1 ≤ y.1 → (safeClamp R x lo hi).1 ≤ (safeClamp R y lo hi).1) := by
  intro R x y lo hi
  have h₁ : Represents R .uint16 := by decide
  have h₂ : Represents R .int32 := by decide
  have h₃ : Represents R .int16 := by decide
  obtain ⟨hpick, hclamp⟩ := safe_minmax_iff h₁ h₂
  have hagrees : ∀ z : IntType.uint16.Value, ClampAgrees z lo hi := fun z =>
    ⟨.inl rfl, fun _ => ⟨.inl rfl, .inr (.inl rfl)⟩, fun h => absurd h (by decide)⟩
  exact ⟨(hpick x lo).1.mpr (.inl rfl), (hpick x lo).2.mpr (.inl rfl),
    (hclamp h₃ x y lo hi (by decide)).mpr ⟨hagrees x, hagrees y⟩⟩

/-- An `int32_t` below two `uint32_t`s, with an `int64_t` for the result. -/
theorem minmax_wraps :
    let R := IntType.int64
    let a : IntType.int32.Value := ⟨-1, by decide⟩
    let b : IntType.uint32.Value := ⟨1, by decide⟩
    let c : IntType.uint32.Value := ⟨9, by decide⟩
    (safeMin R a b).1 = 1 ∧ (safeMax R a b).1 = -1 ∧ checkLe a b = false ∧
      (safeClamp R a b c).1 = 9 ∧ ¬ Closest b.1 c.1 a.1 9 := by
  refine ⟨by decide, by decide, by decide, by decide, fun h => ?_⟩
  exact absurd ((closest_iff_or (by decide) _ _).mp h) (by decide)

end SafeCompare

end RtcBase
