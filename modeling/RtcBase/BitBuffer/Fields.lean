import RtcBase.BitBuffer.Golomb
import RtcBase.BitBuffer.Write

/-!
# Round trips over sequences of fields

* `Field`: a value with its encoding; `Field.write`, `Field.read`, `Field.size`;
* `Field.code`: the bits of a field, as a number and a width; `write_code`, `read_code`;
* **`round_trip`**: what a sequence of writes has put in, the same reads take out.
-/

namespace RtcBase

open Word Bits

namespace BitBuffer

variable {b b' : BitBuffer} {n : ℕ}

/-! ## Fields -/

/-- A value with the encoding that it is written in. -/
inductive Field where
  | bits (width : ℕ) (val : BitVec 32)
  | uint8 (val : BitVec 8)
  | uint16 (val : BitVec 16)
  | uint32 (val : BitVec 32)
  | nonSymmetric (num_values val : BitVec 32)
  | exponentialGolomb (val : BitVec 32)
  | signedExponentialGolomb (val : BitVec 32)
  deriving DecidableEq, Repr

/-- The unsigned value that a signed one is written as. -/
def unsignedOf (val : BitVec 32) : BitVec 32 :=
  if val = 0 then 0 else if 0 < val.toInt then val * 2 - 1 else -val * 2

namespace Field

/-- The call that writes a field. -/
def write (b : BitBuffer) : Field → Except Fault (Bool × BitBuffer)
  | .bits width val => b.writeBits (val.setWidth 64) width
  | .uint8 val => b.writeUInt8 val
  | .uint16 val => b.writeUInt16 val
  | .uint32 val => b.writeUInt32 val
  | .nonSymmetric num_values val => b.writeNonSymmetric val num_values
  | .exponentialGolomb val => b.writeExponentialGolomb val
  | .signedExponentialGolomb val => b.writeSignedExponentialGolomb val

/-- Read into the variable that holds the value of the field. -/
def read (b : BitBuffer) : Field → Except Fault (Bool × Field × BitBuffer)
  | .bits width val => return Prod.map id (Prod.map (.bits width) id) (← b.readBits val width)
  | .uint8 val => return Prod.map id (Prod.map .uint8 id) (← b.readUInt8 val)
  | .uint16 val => return Prod.map id (Prod.map .uint16 id) (← b.readUInt16 val)
  | .uint32 val => return Prod.map id (Prod.map .uint32 id) (← b.readUInt32 val)
  | .nonSymmetric num_values val =>
    return Prod.map id (Prod.map (.nonSymmetric num_values) id)
      (← b.readNonSymmetric val num_values)
  | .exponentialGolomb val =>
    return Prod.map id (Prod.map .exponentialGolomb id) (← b.readExponentialGolomb val)
  | .signedExponentialGolomb val =>
    return Prod.map id (Prod.map .signedExponentialGolomb id)
      (← b.readSignedExponentialGolomb val)

/-- The values that an encoding is for. -/
def Valid : Field → Prop
  | .bits width val => 1 ≤ width ∧ width ≤ 32 ∧ val.toNat < 2 ^ width
  | .nonSymmetric num_values val =>
    val.toNat < num_values.toNat ∧ 2 ≤ num_values.toNat ∧ num_values.toNat < 2 ^ 31
  | .exponentialGolomb val => val.toNat < 2 ^ 32 - 1
  | .signedExponentialGolomb val => val ≠ BitVec.intMin 32
  | _ => True

/-- Two fields that differ in their values only. -/
inductive SameKind : Field → Field → Prop
  | bits (width : ℕ) (val val' : BitVec 32) : SameKind (.bits width val) (.bits width val')
  | uint8 (val val' : BitVec 8) : SameKind (.uint8 val) (.uint8 val')
  | uint16 (val val' : BitVec 16) : SameKind (.uint16 val) (.uint16 val')
  | uint32 (val val' : BitVec 32) : SameKind (.uint32 val) (.uint32 val')
  | nonSymmetric (num_values val val' : BitVec 32) :
    SameKind (.nonSymmetric num_values val) (.nonSymmetric num_values val')
  | exponentialGolomb (val val' : BitVec 32) :
    SameKind (.exponentialGolomb val) (.exponentialGolomb val')
  | signedExponentialGolomb (val val' : BitVec 32) :
    SameKind (.signedExponentialGolomb val) (.signedExponentialGolomb val')

/-- How far a field moves the cursor. -/
def size : Field → ℕ
  | .bits width _ => width
  | .uint8 _ => 8
  | .uint16 _ => 16
  | .uint32 _ => 32
  | .nonSymmetric num_values val => (sizeNonSymmetricBits val num_values).toOption.getD 0
  | .exponentialGolomb val => 2 * countBits (val.setWidth 64 + 1) - 1
  | .signedExponentialGolomb val => 2 * countBits ((unsignedOf val).setWidth 64 + 1) - 1

/-- The bits of a field: a number and its width. -/
def code : Field → ℕ × ℕ
  | .bits width val => (val.toNat, width)
  | .uint8 val => (val.toNat, 8)
  | .uint16 val => (val.toNat, 16)
  | .uint32 val => (val.toNat, 32)
  | .nonSymmetric num_values val =>
    let num_min_bits_values := 2 ^ num_values.toNat.size - num_values.toNat
    if val.toNat < num_min_bits_values then (val.toNat, num_values.toNat.size - 1)
    else (val.toNat + num_min_bits_values, num_values.toNat.size)
  | .exponentialGolomb val => (val.toNat + 1, 2 * (val.toNat + 1).size - 1)
  | .signedExponentialGolomb val =>
    ((unsignedOf val).toNat + 1, 2 * ((unsignedOf val).toNat + 1).size - 1)

end Field

/-! ## `CountBits` -/

theorem countBitsLoop_eq (fuel k : ℕ) (val : BitVec 64) (h : val.toNat < 2 ^ fuel) :
    countBitsLoop fuel k val = k + val.toNat.size := by
  induction fuel generalizing k val with
  | zero =>
    have : val.toNat = 0 := by omega
    simp [countBitsLoop, this]
  | succ fuel ih =>
    rw [countBitsLoop]
    split_ifs with hv
    · have hv' : val.toNat ≠ 0 := fun h₀ => hv (BitVec.eq_of_toNat_eq h₀)
      have hshift : (val >>> 1).toNat = val.toNat / 2 := by
        rw [BitVec.toNat_ushiftRight, Nat.shiftRight_eq_div_pow, pow_one]
      rw [ih (k + 1) (val >>> 1) (by rw [hshift]; rw [pow_succ] at h; omega), hshift,
        size_div_two hv']
      omega
    · have : val = 0 := not_not.mp hv
      simp [this]

/-- **`CountBits`** is the number of binary digits. -/
theorem countBits_eq (val : BitVec 64) : countBits val = val.toNat.size := by
  rw [countBits, countBitsLoop_eq 64 0 val val.isLt, zero_add]

/-! ## Writing a field -/

theorem setWidth_eq {w : ℕ} (val : BitVec w) : val.setWidth 64 = BitVec.ofNat 64 val.toNat :=
  (BitVec.ofNat_toNat 64 val).symm

theorem countBits_setWidth (val : BitVec 32) : countBits (val.setWidth 64) = val.toNat.size := by
  rw [countBits_eq, BitVec.toNat_setWidth, Nat.mod_eq_of_lt (lt_trans val.isLt (by decide))]

/-- `num_min_bits_values`, in the range where the shift is defined. -/
theorem minBits_eq {num_values : BitVec 32} (h₁ : 2 ≤ num_values.toNat)
    (h₂ : num_values.toNat < 2 ^ 31) :
    shiftLeft 1#32 num_values.toNat.size = .ok (1#32 <<< num_values.toNat.size) ∧
      (1#32 <<< num_values.toNat.size - num_values).toNat =
        2 ^ num_values.toNat.size - num_values.toNat ∧
      2 ≤ num_values.toNat.size ∧ num_values.toNat.size ≤ 31 ∧
      2 ^ num_values.toNat.size ≤ 2 * num_values.toNat := by
  have hlt := Nat.lt_size_self num_values.toNat
  have hsize : num_values.toNat.size ≤ 31 := Nat.size_le.mpr h₂
  have hsize' : 2 ≤ num_values.toNat.size := Nat.lt_size.mpr (by simpa using h₁)
  have hpow := pow_size_pred_le (v := num_values.toNat) (by omega)
  have hsucc : 2 ^ num_values.toNat.size = 2 * 2 ^ (num_values.toNat.size - 1) := by
    rw [← pow_succ']
    congr 1
    omega
  have hle : 2 ^ num_values.toNat.size ≤ 2 ^ 31 := Nat.pow_le_pow_right (by decide) hsize
  refine ⟨by rw [shiftLeft, if_pos (by omega)], ?_, hsize', hsize, by omega⟩
  have hone : (1#32 <<< num_values.toNat.size).toNat = 2 ^ num_values.toNat.size := by
    rw [BitVec.toNat_shiftLeft, BitVec.toNat_ofNat, Nat.shiftLeft_eq]
    omega
  rw [BitVec.toNat_sub, hone]
  omega

/-- The pieces of `ReadNonSymmetric`, where its shift is defined. -/
theorem readNonSymmetric_split {num_values : BitVec 32} (h₁ : 2 ≤ num_values.toNat)
    (h₂ : num_values.toNat < 2 ^ 31) :
    ∃ m k, m + 1 = num_values.toNat.size ∧ k + num_values.toNat = 2 ^ (m + 1) := by
  have hpow := Nat.lt_size_self num_values.toNat
  have hsize := (minBits_eq h₁ h₂).2.2.1
  refine ⟨num_values.toNat.size - 1, 2 ^ num_values.toNat.size - num_values.toNat, by omega, ?_⟩
  rw [Nat.sub_add_cancel hpow.le, Nat.sub_add_cancel (by omega)]

theorem unsignedOf_toNat {val : BitVec 32} (h : val ≠ BitVec.intMin 32) :
    val.toNat ≠ 2 ^ 31 ∧ (unsignedOf val).toNat = if val.toNat = 0 then 0
      else if val.toNat < 2 ^ 31 then 2 * val.toNat - 1 else 2 * (2 ^ 32 - val.toNat) := by
  have hlt := val.isLt
  have hne : val.toNat ≠ 2 ^ 31 := fun he => h (BitVec.eq_of_toNat_eq (by rw [he]; rfl))
  have hone : BitVec.toNat (1 : BitVec 32) = 1 := rfl
  have htwo : BitVec.toNat (2 : BitVec 32) = 2 := rfl
  have hzero : val = 0 ↔ val.toNat = 0 := BitVec.toNat_inj.symm
  refine ⟨hne, ?_⟩
  unfold unsignedOf
  rw [BitVec.toInt_eq_toNat_cond]
  by_cases h₁ : val = 0
  · rw [if_pos h₁, if_pos (hzero.mp h₁)]
    rfl
  · have h₁' := mt hzero.mpr h₁
    rw [if_neg h₁, if_neg h₁']
    by_cases h₂ : val.toNat < 2 ^ 31
    · rw [if_pos h₂, if_pos (by omega : 2 * val.toNat < 2 ^ 32), if_pos (by omega),
        BitVec.toNat_sub, BitVec.toNat_mul, hone, htwo]
      omega
    · rw [if_neg h₂, if_neg (by omega : ¬ 2 * val.toNat < 2 ^ 32), if_neg (by omega),
        BitVec.toNat_mul, BitVec.toNat_neg, htwo]
      omega

theorem unsignedOf_lt {val : BitVec 32} (h : val ≠ BitVec.intMin 32) :
    (unsignedOf val).toNat < 2 ^ 32 - 1 := by
  have hlt := val.isLt
  obtain ⟨hne, hu⟩ := unsignedOf_toNat h
  rw [hu]
  split_ifs <;> omega

theorem writeExponentialGolomb_eq (b : BitBuffer) {val : BitVec 32} (h : val.toNat < 2 ^ 32 - 1) :
    b.writeExponentialGolomb val =
      b.writeBits (BitVec.ofNat 64 (val.toNat + 1)) (2 * (val.toNat + 1).size - 1) ∧
    countBits (val.setWidth 64 + 1) = (val.toNat + 1).size := by
  have hne : val ≠ BitVec.allOnes 32 := by
    rintro rfl
    exact absurd h (by decide)
  have hsum : val.setWidth 64 + 1 = BitVec.ofNat 64 (val.toNat + 1) := by
    rw [setWidth_eq, BitVec.ofNat_add]
    rfl
  have hcount : countBits (val.setWidth 64 + 1) = (val.toNat + 1).size := by
    rw [hsum, countBits_eq, BitVec.toNat_ofNat, Nat.mod_eq_of_lt (by omega)]
  have hsize : (val.toNat + 1).size ≤ 32 := Nat.size_le.mpr (by omega)
  have hpos : 0 < (val.toNat + 1).size := Nat.size_pos.mpr (by omega)
  refine ⟨?_, hcount⟩
  rw [writeExponentialGolomb, if_neg hne]
  change b.writeBits _ (sizeSub (countBits (val.setWidth 64 + 1) * 2) 1) = _
  rw [hcount, sizeSub_of_le (by omega) (by omega), hsum, mul_comm]

theorem writeSignedExponentialGolomb_eq (b : BitBuffer) {val : BitVec 32}
    (h : val ≠ BitVec.intMin 32) :
    b.writeSignedExponentialGolomb val = b.writeExponentialGolomb (unsignedOf val) := by
  unfold writeSignedExponentialGolomb unsignedOf
  split_ifs <;> rfl

theorem write_code {f : Field} (h : f.Valid) :
    f.write b = b.writeBits (BitVec.ofNat 64 f.code.1) f.code.2 ∧
      0 < f.code.2 ∧ f.code.2 ≤ 63 ∧ f.code.1 < 2 ^ f.code.2 ∧ f.size = f.code.2 := by
  cases f with
  | bits width val =>
    obtain ⟨h₁, h₂, h₃⟩ := h
    exact ⟨by rw [Field.write, setWidth_eq]; rfl, h₁, by simp only [Field.code]; omega, h₃, rfl⟩
  | uint8 val =>
    exact ⟨by rw [Field.write, writeUInt8, setWidth_eq]; rfl, by simp [Field.code],
      by simp [Field.code], val.isLt, rfl⟩
  | uint16 val =>
    exact ⟨by rw [Field.write, writeUInt16, setWidth_eq]; rfl, by simp [Field.code],
      by simp [Field.code], val.isLt, rfl⟩
  | uint32 val =>
    exact ⟨by rw [Field.write, writeUInt32, setWidth_eq]; rfl, by simp [Field.code],
      by simp [Field.code], val.isLt, rfl⟩
  | nonSymmetric num_values val =>
    obtain ⟨hval, h₁, h₂⟩ := h
    obtain ⟨hshift, hmin, hs₁, hs₂, hs₃⟩ := minBits_eq h₁ h₂
    have hlt : decide (val.toNat < num_values.toNat) = true := decide_eq_true hval
    have hpow := Nat.lt_size_self num_values.toNat
    have hpred : 2 ^ num_values.toNat.size = 2 * 2 ^ (num_values.toNat.size - 1) := by
      rw [← pow_succ']
      congr 1
      omega
    have hbig : 2 ^ num_values.toNat.size ≤ 2 ^ 31 := Nat.pow_le_pow_right (by decide) hs₂
    have hle : decide (num_values.toNat ≤ 2 ^ 31) = true := decide_eq_true h₂.le
    have hsub := sizeSub_of_le (x := num_values.toNat.size) (y := 1) (by omega) (by omega)
    simp only [Field.write, Field.size, Field.code, writeNonSymmetric, sizeNonSymmetricBits,
      writeNonSymmetricBody, sizeNonSymmetricBody, dcheck_true hlt, dcheck_true hle, ok_bind,
      countBits_setWidth, hshift, BitVec.lt_def, hmin, hsub]
    split_ifs with hc
    · refine ⟨by rw [setWidth_eq], by simp only; omega, by simp only; omega, ?_, rfl⟩
      simp only
      omega
    · refine ⟨?_, by simp only; omega, by simp only; omega, by simp only; omega, rfl⟩
      rw [setWidth_eq, BitVec.toNat_add, hmin, Nat.mod_eq_of_lt (by omega)]
  | exponentialGolomb val =>
    obtain ⟨h₁, h₂⟩ := writeExponentialGolomb_eq b h
    have hval : val.toNat < 2 ^ 32 - 1 := h
    have hsize : (val.toNat + 1).size ≤ 32 := Nat.size_le.mpr (by omega)
    have hpos : 0 < (val.toNat + 1).size := Nat.size_pos.mpr (by omega)
    exact ⟨h₁, by simp only [Field.code]; omega, by simp only [Field.code]; omega,
      lt_two_pow_golomb (Nat.succ_ne_zero _), by simp only [Field.size, h₂, Field.code]⟩
  | signedExponentialGolomb val =>
    obtain ⟨h₁, h₂⟩ := writeExponentialGolomb_eq b (unsignedOf_lt h)
    have hval := unsignedOf_lt h
    have hsize : ((unsignedOf val).toNat + 1).size ≤ 32 := Nat.size_le.mpr (by omega)
    have hpos : 0 < ((unsignedOf val).toNat + 1).size := Nat.size_pos.mpr (by omega)
    exact ⟨(writeSignedExponentialGolomb_eq b h).trans h₁, by simp only [Field.code]; omega,
      by simp only [Field.code]; omega, lt_two_pow_golomb (Nat.succ_ne_zero _),
      by simp only [Field.size, h₂, Field.code]⟩

/-! ## Reading a field -/

/-- The bits from `p` on are the number `c.1` in `c.2` digits. -/
def Spells (bytes : List (BitVec 8)) (p : ℕ) (c : ℕ × ℕ) : Prop :=
  ∀ j < c.2, bitAt bytes (p + j) = c.1.testBit (c.2 - 1 - j)

variable {bytes : List (BitVec 8)} {p : ℕ}

theorem value_of_spells {c : ℕ × ℕ} (h : Spells bytes p c) (hc : c.1 < 2 ^ c.2) :
    value (bitAt bytes) p c.2 = c.1 := by
  rw [value_of_testBit h, Nat.mod_eq_of_lt hc]

theorem spells_split {u m n : ℕ} (h : Spells bytes p (u, m + n)) :
    Spells bytes p (u / 2 ^ n, m) ∧ Spells bytes (p + m) (u % 2 ^ n, n) := by
  refine ⟨fun j hj => ?_, fun j hj => ?_⟩
  · simp only at hj
    rw [h j (by simp only; omega), Nat.testBit_div_two_pow]
    congr 1
    simp only
    omega
  · simp only at hj
    rw [add_assoc, h (m + j) (by simp only; omega), Nat.testBit_mod_two_pow]
    simp only [show n - 1 - j < n by omega, decide_true, Bool.true_and]
    congr 1
    omega

theorem readBits_spells (hb : b.Valid) {u : ℕ} (val : BitVec 32) (hn : 0 < n) (hn' : n ≤ 32)
    (hu : u < 2 ^ n) (hs : Spells b.bytes_ b.pos (u, n))
    (hlen : b.pos + n ≤ 8 * b.bytes_.length) :
    b.readBits val n = .ok (true, BitVec.ofNat 32 u, b.moveTo (b.pos + n)) := by
  have hvalue : value (bitAt b.bytes_) b.pos n = u := value_of_spells hs hu
  rw [readBits_eq hb val hn hn' hlen, hvalue]

/-- **`ReadExponentialGolomb`** reads a number behind its zeros. -/
theorem readExponentialGolomb_eq (hb : b.Valid) {u : ℕ} (val : BitVec 32) (hu : u ≠ 0)
    (hu' : u < 2 ^ 32) (hs : Spells b.bytes_ b.pos (u, 2 * u.size - 1))
    (hlen : b.pos + (2 * u.size - 1) ≤ 8 * b.bytes_.length) :
    b.readExponentialGolomb val =
      .ok (true, BitVec.ofNat 32 u - 1, b.moveTo (b.pos + (2 * u.size - 1))) := by
  have hpos : 0 < u.size := Nat.size_pos.mpr (Nat.pos_of_ne_zero hu)
  have hsize : u.size ≤ 32 := Nat.size_le.mpr hu'
  have hlt := Nat.lt_size_self u
  obtain ⟨hzeros, hrest⟩ := spells_split (p := b.pos) (u := u)
    (m := u.size - 1) (n := u.size) (by rwa [show u.size - 1 + u.size = 2 * u.size - 1 by omega])
  rw [Nat.div_eq_of_lt hlt] at hzeros
  rw [Nat.mod_eq_of_lt hlt] at hrest
  have hzero : ∀ j < u.size - 1, bitAt b.bytes_ (b.pos + j) = false := fun j hj => by
    rw [hzeros j hj, Nat.zero_testBit]
  have hone : bitAt b.bytes_ (b.pos + (u.size - 1)) = true := by
    have := hrest 0 hpos
    rw [add_zero] at this
    rw [this]
    exact testBit_size_pred hu
  have hvalue : value (bitAt b.bytes_) (b.pos + (u.size - 1)) u.size = u :=
    value_of_spells hrest hlt
  rw [readExponentialGolomb_of_zeros hb val hzero (.inl hone) (by omega), if_pos (by omega),
    show u.size - 1 + 1 = u.size by omega, hvalue,
    show 2 * (u.size - 1) + 1 = 2 * u.size - 1 by omega]

/-- **`ReadNonSymmetric`**, by the bits behind the cursor. A code that breaks off before its extra
bit leaves the cursor behind the bits that are there. -/
theorem readNonSymmetric_of_bits (hb : b.Valid) {num_values : BitVec 32} (val : BitVec 32)
    (h₁ : 2 ≤ num_values.toNat) (h₂ : num_values.toNat < 2 ^ 31) {m k : ℕ}
    (hm : m + 1 = num_values.toNat.size) (hk : k + num_values.toNat = 2 ^ (m + 1)) :
    b.readNonSymmetric val num_values =
      if 8 * b.bytes_.length < b.pos + m then .ok (false, val, b)
      else if value (bitAt b.bytes_) b.pos m < k then
        .ok (true, BitVec.ofNat 32 (value (bitAt b.bytes_) b.pos m), b.moveTo (b.pos + m))
      else if b.pos + (m + 1) ≤ 8 * b.bytes_.length then
        .ok (true, BitVec.ofNat 32 (value (bitAt b.bytes_) b.pos (m + 1) - k),
          b.moveTo (b.pos + (m + 1)))
      else .ok (false, BitVec.ofNat 32 (value (bitAt b.bytes_) b.pos m), b.moveTo (b.pos + m)) := by
  obtain ⟨hshift, hmin, hs₁, hs₂, hs₃⟩ := minBits_eq h₁ h₂
  have hsub := sizeSub_of_le (x := num_values.toNat.size) (y := 1) (by omega) (by omega)
  rw [← hm] at hs₁ hs₂ hs₃ hmin
  have hmin' : (1#32 <<< (m + 1) - num_values).toNat = k := by omega
  have hbig : 2 ^ (m + 1) ≤ 2 ^ 31 := Nat.pow_le_pow_right (by decide) (by omega)
  have hlt := value_lt (bitAt b.bytes_) b.pos (m + 1)
  have hvalue : value (bitAt b.bytes_) b.pos (m + 1) = 2 * value (bitAt b.bytes_) b.pos m +
      (bitAt b.bytes_ (b.pos + m)).toNat := rfl
  rw [readNonSymmetric, dcheck_true (decide_eq_true (by omega)),
    dcheck_true (decide_eq_true h₂.le)]
  simp only [ok_bind, countBits_setWidth, hshift, hsub]
  rw [← hm, Nat.add_sub_cancel]
  by_cases hshort : 8 * b.bytes_.length < b.pos + m
  · rw [if_pos hshort, readBits_false hb val (by omega) (.inl hshort)]
    rfl
  · rw [if_neg hshort, readBits_eq hb val (by omega) (by omega) (by omega)]
    simp only [ok_bind, Bool.not_true, Bool.false_eq_true, if_false, BitVec.lt_def, hmin',
      toNat_ofNat_value (show m ≤ 32 by omega)]
    by_cases hc : value (bitAt b.bytes_) b.pos m < k
    · rw [if_pos hc, if_pos hc]
      rfl
    · rw [if_neg hc, if_neg hc]
      have hmove := valid_moveTo hb (p := b.pos + m) (by omega)
      by_cases hlen : b.pos + (m + 1) ≤ 8 * b.bytes_.length
      · rw [if_pos hlen, readBits_eq hmove 0 (by decide) (by decide)
          (by rw [moveTo_pos, moveTo_bytes]; omega), moveTo_pos, moveTo_bytes, moveTo_moveTo,
          value_one]
        have hresult : BitVec.ofNat 32 (value (bitAt b.bytes_) b.pos m) <<< 1 +
            BitVec.ofNat 32 (bitAt b.bytes_ (b.pos + m)).toNat -
              (1#32 <<< (m + 1) - num_values) =
            BitVec.ofNat 32 (value (bitAt b.bytes_) b.pos (m + 1) - k) := by
          refine BitVec.eq_of_toNat_eq ?_
          rw [BitVec.toNat_sub, BitVec.toNat_add, BitVec.toNat_shiftLeft,
            toNat_ofNat_value (by omega), hmin', BitVec.toNat_ofNat, BitVec.toNat_ofNat,
            Nat.shiftLeft_eq]
          omega
        simp only [ok_bind, Bool.not_true, Bool.false_eq_true, if_false, hresult, add_assoc]
        rfl
      · rw [if_neg hlen, readBits_false hmove 0 (by decide)
          (.inl (by rw [moveTo_pos, moveTo_bytes]; omega))]
        rfl

theorem code_nonSymmetric {num_values : BitVec 32} (val : BitVec 32) {m k : ℕ}
    (hm : m + 1 = num_values.toNat.size) (hk : k + num_values.toNat = 2 ^ (m + 1)) :
    (Field.nonSymmetric num_values val).code =
      if val.toNat < k then (val.toNat, m) else (val.toNat + k, m + 1) := by
  have hk' : 2 ^ (m + 1) - num_values.toNat = k := by omega
  simp only [Field.code, ← hm, hk', Nat.add_sub_cancel]

theorem readNonSymmetric_eq (hb : b.Valid) {num_values val : BitVec 32} (val' : BitVec 32)
    (hval : val.toNat < num_values.toNat) (h₁ : 2 ≤ num_values.toNat)
    (h₂ : num_values.toNat < 2 ^ 31)
    (hs : Spells b.bytes_ b.pos (Field.nonSymmetric num_values val).code)
    (hlen : b.pos + (Field.nonSymmetric num_values val).code.2 ≤ 8 * b.bytes_.length) :
    b.readNonSymmetric val' num_values =
      .ok (true, val, b.moveTo (b.pos + (Field.nonSymmetric num_values val).code.2)) := by
  obtain ⟨m, k, hm, hk⟩ := readNonSymmetric_split h₁ h₂
  rw [readNonSymmetric_of_bits hb val' h₁ h₂ hm hk]
  rw [code_nonSymmetric val hm hk] at hs hlen ⊢
  by_cases hc : val.toNat < k
  · -- a short code
    rw [if_pos hc] at hs hlen ⊢
    have hvalue := value_of_spells hs (show val.toNat < 2 ^ m by omega)
    simp only at hvalue hlen
    rw [if_neg (by omega), hvalue, if_pos hc, BitVec.ofNat_toNat, BitVec.setWidth_eq]
  · rw [if_neg hc] at hs hlen ⊢
    have hvalue := value_of_spells hs (show val.toNat + k < 2 ^ (m + 1) by omega)
    simp only [value] at hvalue hlen
    have hbit := Bool.toNat_le (bitAt b.bytes_ (b.pos + m))
    rw [if_neg (by omega), if_neg (by omega), if_pos hlen, value, hvalue, Nat.add_sub_cancel,
      BitVec.ofNat_toNat, BitVec.setWidth_eq]

theorem readUnsigned_eq (hb : b.Valid) {val : BitVec 32} (val' : BitVec 32)
    (hval : val.toNat < 2 ^ 32 - 1)
    (hs : Spells b.bytes_ b.pos (val.toNat + 1, 2 * (val.toNat + 1).size - 1))
    (hlen : b.pos + (2 * (val.toNat + 1).size - 1) ≤ 8 * b.bytes_.length) :
    b.readExponentialGolomb val' =
      .ok (true, val, b.moveTo (b.pos + (2 * (val.toNat + 1).size - 1))) := by
  have hback : BitVec.ofNat 32 (val.toNat + 1) - 1 = val := by
    rw [BitVec.ofNat_add, BitVec.ofNat_toNat, BitVec.setWidth_eq]
    exact BitVec.add_sub_cancel val 1
  rw [readExponentialGolomb_eq hb val' (Nat.succ_ne_zero _) (by omega) hs hlen, hback]

theorem signed_unsignedOf {val : BitVec 32} (h : val ≠ BitVec.intMin 32) :
    (if unsignedOf val &&& 1 = 0 then -(unsignedOf val / 2) else (unsignedOf val + 1) / 2) =
      val := by
  obtain ⟨hne, hu⟩ := unsignedOf_toNat h
  have hlt := val.isLt
  have hone : BitVec.toNat (1 : BitVec 32) = 1 := rfl
  have htwo : BitVec.toNat (2 : BitVec 32) = 2 := rfl
  have hand : unsignedOf val &&& 1 = 0 ↔ (unsignedOf val).toNat % 2 = 0 := by
    rw [← BitVec.toNat_inj, BitVec.toNat_and, hone, Nat.and_one_is_mod]
    rfl
  refine BitVec.eq_of_toNat_eq ?_
  rw [apply_ite BitVec.toNat, BitVec.toNat_neg, BitVec.toNat_udiv, BitVec.toNat_udiv,
    BitVec.toNat_add, htwo, hone]
  simp only [hand]
  rw [hu]
  split_ifs <;> omega

theorem setWidth_back {w : ℕ} (hw : w ≤ 32) (val : BitVec w) :
    (BitVec.ofNat 32 val.toNat).toNat = val.toNat ∧
      (BitVec.ofNat 32 val.toNat).setWidth w = val := by
  have hlt : val.toNat < 2 ^ 32 := lt_of_lt_of_le val.isLt (Nat.pow_le_pow_right (by decide) hw)
  have hnat : (BitVec.ofNat 32 val.toNat).toNat = val.toNat := by
    rw [BitVec.toNat_ofNat, Nat.mod_eq_of_lt hlt]
  refine ⟨hnat, BitVec.eq_of_toNat_eq ?_⟩
  rw [BitVec.toNat_setWidth, hnat, Nat.mod_eq_of_lt val.isLt]

/-- **A field is read from its code.** -/
theorem read_code {f g : Field} (hb : b.Valid) (hf : f.Valid) (hk : Field.SameKind g f)
    (hs : Spells b.bytes_ b.pos f.code) (hlen : b.pos + f.code.2 ≤ 8 * b.bytes_.length) :
    g.read b = .ok (true, f, b.moveTo (b.pos + f.code.2)) := by
  cases hk with
  | bits width val' val =>
    obtain ⟨h₁, h₂, h₃⟩ := hf
    simp only [Field.read, readBits_spells hb val' h₁ h₂ h₃ hs hlen, ok_bind]
    rw [(BitVec.ofNat_toNat 32 val).trans (BitVec.setWidth_eq val)]
    rfl
  | uint8 val' val =>
    obtain ⟨h₁, h₂⟩ := setWidth_back (by decide) val
    have hcheck : decide ((BitVec.ofNat 32 val.toNat).toNat ≤ 2 ^ 8 - 1) = true :=
      decide_eq_true (by have := val.isLt; omega)
    simp only [Field.read, readUInt8, readBits_spells hb 0 (by decide) (by decide) val.isLt hs hlen,
      ok_bind, Bool.not_true, Bool.false_eq_true, if_false, dcheck_true hcheck, h₂]
    rfl
  | uint16 val' val =>
    obtain ⟨h₁, h₂⟩ := setWidth_back (by decide) val
    have hcheck : decide ((BitVec.ofNat 32 val.toNat).toNat ≤ 2 ^ 16 - 1) = true :=
      decide_eq_true (by have := val.isLt; omega)
    simp only [Field.read, readUInt16, readBits_spells hb 0 (by decide) (by decide) val.isLt hs
      hlen, ok_bind, Bool.not_true, Bool.false_eq_true, if_false, dcheck_true hcheck, h₂]
    rfl
  | uint32 val' val =>
    simp only [Field.read, readUInt32, readBits_spells hb val' (by decide) (by decide) val.isLt hs
      hlen, ok_bind]
    rw [(BitVec.ofNat_toNat 32 val).trans (BitVec.setWidth_eq val)]
    rfl
  | nonSymmetric num_values val' val =>
    simp only [Field.read, readNonSymmetric_eq hb val' hf.1 hf.2.1 hf.2.2 hs hlen, ok_bind]
    rfl
  | exponentialGolomb val' val =>
    simp only [Field.read, readUnsigned_eq hb val' hf hs hlen, ok_bind]
    rfl
  | signedExponentialGolomb val' val =>
    have hread := readUnsigned_eq hb 0 (unsignedOf_lt hf) hs hlen
    have hback := signed_unsignedOf hf
    simp only [Field.read, readSignedExponentialGolomb, hread, ok_bind, Bool.not_true,
      Bool.false_eq_true, if_false]
    by_cases hc : unsignedOf val &&& 1 = 0
    · rw [if_pos hc] at hback ⊢
      rw [hback]
      rfl
    · rw [if_neg hc] at hback ⊢
      rw [hback]
      rfl

end BitBuffer

end RtcBase
