import RtcBase.BitBuffer.Fields

/-!
# What was read is what would be written

* `Field.Readable`: the encodings whose reads return;
* `readUnsigned_decodes`, `readSigned_decodes`, `readNonSymmetric_decodes`: a successful read has
  found the code of the value that it returns;
* **`read_decodes`**: the same for every field;
* **`write_of_read`**: writing the value gives the bits that were read.
-/

namespace RtcBase

open Word Bits

namespace BitBuffer

variable {b b' : BitBuffer} {bytes : List (BitVec 8)} {n p : ℕ}

/-- Widths that a word holds, and the values of `num_values` whose shift is defined. -/
def Field.Readable : Field → Prop
  | .bits width _ => 1 ≤ width ∧ width ≤ 32
  | .nonSymmetric num_values _ => 2 ≤ num_values.toNat ∧ num_values.toNat < 2 ^ 31
  | _ => True

/-! ## Bits -/

theorem spells_value (bytes : List (BitVec 8)) (p n : ℕ) :
    Spells bytes p (value (bitAt bytes) p n, n) := fun _ hj => (testBit_value hj).symm

theorem spells_join {u m : ℕ} (h₁ : Spells bytes p (u / 2 ^ n, m))
    (h₂ : Spells bytes (p + m) (u % 2 ^ n, n)) : Spells bytes p (u, m + n) := by
  intro j hj
  simp only at hj
  by_cases hm : j < m
  · rw [h₁ j hm, Nat.testBit_div_two_pow]
    congr 1
    simp only
    omega
  · have := h₂ (j - m) (by simp only; omega)
    rw [add_assoc, Nat.add_sub_cancel' (by omega)] at this
    rw [this, Nat.testBit_mod_two_pow]
    simp only [show n - 1 - (j - m) < n by omega, decide_true, Bool.true_and]
    congr 1
    omega

/-- What a read of `n` bits into a word of `w` bits has found. -/
theorem spells_of_bits {w : ℕ} {x : BitVec w} (hn : n ≤ w)
    (hx : x = BitVec.ofNat w (value (bitAt bytes) p n)) :
    x.toNat < 2 ^ n ∧ Spells bytes p (x.toNat, n) := by
  have hval : x.toNat = value (bitAt bytes) p n := by rw [hx]; exact toNat_ofNat_value hn
  rw [hval]
  exact ⟨value_lt _ _ _, spells_value _ _ _⟩

/-! ## Exponential Golomb codes -/

theorem readUnsigned_decodes (hb : b.Valid) {val val' : BitVec 32}
    (h : b.readExponentialGolomb val = .ok (true, val', b')) :
    val'.toNat < 2 ^ 32 - 1 ∧
      b.pos + (2 * (val'.toNat + 1).size - 1) ≤ 8 * b.bytes_.length ∧
      Spells b.bytes_ b.pos (val'.toNat + 1, 2 * (val'.toNat + 1).size - 1) ∧
      b' = b.moveTo (b.pos + (2 * (val'.toNat + 1).size - 1)) := by
  have hpos := hb.pos_le
  obtain ⟨z, hz, hzero, hstop⟩ :=
    exists_zeros (bitAt b.bytes_) b.pos (8 * b.bytes_.length - b.pos)
  rw [readExponentialGolomb_of_zeros hb val hzero (hstop.imp id (by omega)) (by omega)] at h
  split_ifs at h with hc
  · cases h
    obtain ⟨hge, hlt, hval⟩ := golomb_value hc.1 (hstop.resolve_right (by omega))
    have hsize : (value (bitAt b.bytes_) (b.pos + z) (z + 1)).size = z + 1 :=
      le_antisymm (Nat.size_le.mpr (value_lt _ _ _)) (Nat.lt_size.mpr hge)
    rw [hval, Nat.sub_add_cancel (le_trans Nat.one_le_two_pow hge), hsize,
      show 2 * (z + 1) - 1 = z + (z + 1) by omega] at *
    have hdigits := spells_value b.bytes_ (b.pos + z) (z + 1)
    refine ⟨by omega, by omega, spells_join ?_ ?_, ?_⟩
    · rw [Nat.div_eq_of_lt (value_lt _ _ _)]
      intro j hj
      rw [hzero j hj, Nat.zero_testBit]
    · rwa [Nat.mod_eq_of_lt (value_lt _ _ _)]
    · rw [show 2 * z + 1 = z + (z + 1) by omega]
  · cases h

/-- The value that an unsigned one is read as. -/
def signedOf (val : BitVec 32) : BitVec 32 := if val &&& 1 = 0 then -(val / 2) else (val + 1) / 2

theorem readSigned_decodes {val val' : BitVec 32}
    (h : b.readSignedExponentialGolomb val = .ok (true, val', b')) :
    ∃ u, b.readExponentialGolomb 0 = .ok (true, u, b') ∧ val' = signedOf u := by
  rw [readSignedExponentialGolomb] at h
  cases hread : b.readExponentialGolomb 0 with
  | error e =>
    rw [hread] at h
    cases h
  | ok r =>
    obtain ⟨read, u, b₁⟩ := r
    rw [hread] at h
    cases read with
    | false => cases h
    | true =>
      simp only [ok_bind, Bool.not_true, Bool.false_eq_true, if_false] at h
      refine ⟨u, ?_⟩
      unfold signedOf
      by_cases hc : u &&& 1 = 0
      · rw [if_pos hc] at h ⊢
        cases h
        exact ⟨rfl, rfl⟩
      · rw [if_neg hc] at h ⊢
        cases h
        exact ⟨rfl, rfl⟩

theorem unsignedOf_signedOf {val : BitVec 32} (h : val.toNat < 2 ^ 32 - 1) :
    signedOf val ≠ BitVec.intMin 32 ∧ unsignedOf (signedOf val) = val := by
  have hone : BitVec.toNat (1 : BitVec 32) = 1 := rfl
  have htwo : BitVec.toNat (2 : BitVec 32) = 2 := rfl
  have hand : val &&& 1 = 0 ↔ val.toNat % 2 = 0 := by
    rw [← BitVec.toNat_inj, BitVec.toNat_and, hone, Nat.and_one_is_mod]
    rfl
  have hsigned : (signedOf val).toNat = if val.toNat % 2 = 0
      then (2 ^ 32 - val.toNat / 2) % 2 ^ 32 else (val.toNat + 1) / 2 := by
    unfold signedOf
    rw [apply_ite BitVec.toNat, BitVec.toNat_neg, BitVec.toNat_udiv, BitVec.toNat_udiv,
      BitVec.toNat_add, htwo, hone]
    simp only [hand]
    split_ifs <;> omega
  have hmin : signedOf val ≠ BitVec.intMin 32 := by
    intro he
    have : (signedOf val).toNat = 2 ^ 31 := by rw [he]; rfl
    rw [hsigned] at this
    split_ifs at this <;> omega
  refine ⟨hmin, BitVec.eq_of_toNat_eq ?_⟩
  rw [(unsignedOf_toNat hmin).2, hsigned]
  split_ifs <;> omega

/-! ## Non-symmetric codes -/

theorem readNonSymmetric_decodes (hb : b.Valid) {num_values val val' : BitVec 32}
    (h₁ : 2 ≤ num_values.toNat) (h₂ : num_values.toNat < 2 ^ 31)
    (h : b.readNonSymmetric val num_values = .ok (true, val', b')) :
    val'.toNat < num_values.toNat ∧
      b.pos + (Field.nonSymmetric num_values val').code.2 ≤ 8 * b.bytes_.length ∧
      Spells b.bytes_ b.pos (Field.nonSymmetric num_values val').code ∧
      b' = b.moveTo (b.pos + (Field.nonSymmetric num_values val').code.2) := by
  obtain ⟨-, -, -, hs₂, hs₃⟩ := minBits_eq h₁ h₂
  obtain ⟨m, k, hm, hk⟩ := readNonSymmetric_split h₁ h₂
  rw [← hm] at hs₂ hs₃
  have hbig : 2 ^ (m + 1) ≤ 2 ^ 31 := Nat.pow_le_pow_right (by decide) hs₂
  have hlt := value_lt (bitAt b.bytes_) b.pos (m + 1)
  have hvalue : value (bitAt b.bytes_) b.pos (m + 1) = 2 * value (bitAt b.bytes_) b.pos m +
      (bitAt b.bytes_ (b.pos + m)).toNat := rfl
  rw [readNonSymmetric_of_bits hb val h₁ h₂ hm hk] at h
  split_ifs at h with hshort hc hlen
  · cases h
  · -- a short code
    cases h
    have hval : (BitVec.ofNat 32 (value (bitAt b.bytes_) b.pos m)).toNat =
      value (bitAt b.bytes_) b.pos m := toNat_ofNat_value (by omega)
    rw [code_nonSymmetric _ hm hk, hval, if_pos hc]
    exact ⟨by omega, by simp only; omega, spells_value _ _ _, rfl⟩
  · cases h
    have hval : (BitVec.ofNat 32 (value (bitAt b.bytes_) b.pos (m + 1) - k)).toNat =
        value (bitAt b.bytes_) b.pos (m + 1) - k := by
      rw [BitVec.toNat_ofNat, Nat.mod_eq_of_lt (by omega)]
    rw [code_nonSymmetric _ hm hk, hval, if_neg (by omega), Nat.sub_add_cancel (by omega)]
    exact ⟨by omega, hlen, spells_value _ _ _, rfl⟩
  · cases h

/-! ## Fields -/

theorem read_of_map {α : Type} {x : Except Fault (Bool × α × BitBuffer)} {kind : α → Field}
    {read : Bool} {f : Field}
    (h : (x >>= fun r => pure (Prod.map id (Prod.map kind id) r)) = .ok (read, f, b')) :
    ∃ val, x = .ok (read, val, b') ∧ f = kind val := by
  cases x with
  | error e => cases h
  | ok r =>
    obtain ⟨read, val, b₁⟩ := r
    cases h
    exact ⟨val, rfl, rfl⟩

/-- **A successful read has found the code of its value.** -/
theorem read_decodes {f g : Field} (hb : b.Valid) (hg : g.Readable)
    (h : g.read b = .ok (true, f, b')) :
    Field.SameKind g f ∧ f.Valid ∧ b.pos + f.code.2 ≤ 8 * b.bytes_.length ∧
      Spells b.bytes_ b.pos f.code ∧ b' = b.moveTo (b.pos + f.code.2) := by
  cases g with
  | bits width val =>
    obtain ⟨val', hread, rfl⟩ := read_of_map h
    rw [readBits_of_bits hb val hg.1 hg.2] at hread
    split_ifs at hread with hc <;> cases hread
    obtain ⟨h₁, h₂⟩ := spells_of_bits hg.2 rfl
    exact ⟨.bits _ _ _, ⟨hg.1, hg.2, h₁⟩, not_lt.mp hc, h₂, rfl⟩
  | uint8 val =>
    obtain ⟨val', hread, rfl⟩ := read_of_map h
    rw [readUInt8_of_bits hb] at hread
    split_ifs at hread with hc <;> cases hread
    exact ⟨.uint8 _ _, trivial, not_lt.mp hc, (spells_of_bits le_rfl rfl).2, rfl⟩
  | uint16 val =>
    obtain ⟨val', hread, rfl⟩ := read_of_map h
    rw [readUInt16_of_bits hb] at hread
    split_ifs at hread with hc <;> cases hread
    exact ⟨.uint16 _ _, trivial, not_lt.mp hc, (spells_of_bits le_rfl rfl).2, rfl⟩
  | uint32 val =>
    obtain ⟨val', hread, rfl⟩ := read_of_map h
    rw [readUInt32, readBits_of_bits hb val (by decide) (by decide)] at hread
    split_ifs at hread with hc <;> cases hread
    exact ⟨.uint32 _ _, trivial, not_lt.mp hc, (spells_of_bits le_rfl rfl).2, rfl⟩
  | nonSymmetric num_values val =>
    obtain ⟨val', hread, rfl⟩ := read_of_map h
    obtain ⟨h₁, h₂, h₃, h₄⟩ := readNonSymmetric_decodes hb hg.1 hg.2 hread
    exact ⟨.nonSymmetric _ _ _, ⟨h₁, hg.1, hg.2⟩, h₂, h₃, h₄⟩
  | exponentialGolomb val =>
    obtain ⟨val', hread, rfl⟩ := read_of_map h
    obtain ⟨h₁, h₂, h₃, h₄⟩ := readUnsigned_decodes hb hread
    exact ⟨.exponentialGolomb _ _, h₁, h₂, h₃, h₄⟩
  | signedExponentialGolomb val =>
    obtain ⟨val', hread, rfl⟩ := read_of_map h
    obtain ⟨u, hread', rfl⟩ := readSigned_decodes hread
    obtain ⟨h₁, h₂, h₃, h₄⟩ := readUnsigned_decodes hb hread'
    obtain ⟨hmin, hu⟩ := unsignedOf_signedOf h₁
    simp only [Field.code, hu]
    exact ⟨.signedExponentialGolomb _ _, hmin, h₂, h₃, h₄⟩

/-- **Writing what was read.** A read that succeeds gives a value that its encoding is for, and
writing that value at the same cursor of any buffer with enough room moves the cursor as far and
puts the bits there that were read, and no others. -/
theorem write_of_read {f g : Field} (hb : b.Valid) (hg : g.Readable)
    (h : g.read b = .ok (true, f, b')) :
    Field.SameKind g f ∧ f.Valid ∧ b'.bytes_ = b.bytes_ ∧
      ∀ w : BitBuffer, w.Valid → w.byte_offset_ = b.byte_offset_ →
        w.bit_offset_ = b.bit_offset_ → b'.pos ≤ 8 * w.bytes_.length →
        ∃ w', f.write w = .ok (true, w') ∧ w'.byte_offset_ = b'.byte_offset_ ∧
          w'.bit_offset_ = b'.bit_offset_ ∧ w'.bytes_.length = w.bytes_.length ∧
          ∀ q, bitAt w'.bytes_ q =
            if b.pos ≤ q ∧ q < b'.pos then bitAt b.bytes_ q else bitAt w.bytes_ q := by
  obtain ⟨hkind, hf, hlen, hspells, rfl⟩ := read_decodes hb hg h
  refine ⟨hkind, hf, rfl, fun w hw hbyte hbit hroom => ?_⟩
  rw [moveTo_pos] at hroom
  have hpos : w.pos = b.pos := by rw [pos, pos, hbyte, hbit]
  obtain ⟨hwrite, h₁, h₂, -, -⟩ := write_code (b := w) hf
  obtain ⟨bytes', h₃, h₄, h₅⟩ := writeBits_eq hw (BitVec.ofNat 64 f.code.1) h₁ (by omega)
    (by rw [hpos]; exact hroom)
  refine ⟨_, hwrite.trans h₃, by rw [hpos]; rfl, by rw [hpos]; rfl, h₄, fun q => ?_⟩
  rw [moveTo_bytes, h₅, hpos, moveTo_pos]
  by_cases hq : b.pos ≤ q ∧ q < b.pos + f.code.2
  · have hbits := hspells (q - b.pos) (by omega)
    rw [Nat.add_sub_cancel' hq.1] at hbits
    rw [if_pos hq, if_pos hq, hbits, BitVec.getLsbD_ofNat,
      show b.pos + f.code.2 - 1 - q = f.code.2 - 1 - (q - b.pos) by omega]
    simp [show f.code.2 - 1 - (q - b.pos) < 64 by omega]
  · rw [if_neg hq, if_neg hq]

/-- The long code 110 of the value 3 among five, read from one buffer and written to another. -/
theorem write_of_read_sample :
    (Field.nonSymmetric 5 0).read ⟨[0x3f, 0x00], 0, 6⟩ =
        .ok (true, .nonSymmetric 5 3, ⟨[0x3f, 0x00], 1, 1⟩) ∧
      ∃ w', (Field.nonSymmetric 5 3).write ⟨[0xa8, 0xff, 0x00], 0, 6⟩ = .ok (true, w') ∧
        w'.byte_offset_ = 1 ∧ w'.bit_offset_ = 1 := by
  have hread : (Field.nonSymmetric 5 0).read ⟨[0x3f, 0x00], 0, 6⟩ =
      .ok (true, .nonSymmetric 5 3, ⟨[0x3f, 0x00], 1, 1⟩) := rfl
  have hg : (Field.nonSymmetric 5 0).Readable := ⟨by decide, by decide⟩
  obtain ⟨-, -, -, hwrite⟩ := write_of_read ⟨by decide, by decide, by decide⟩ hg hread
  obtain ⟨w', h₁, h₂, h₃, -⟩ := hwrite ⟨[0xa8, 0xff, 0x00], 0, 6⟩
    ⟨by decide, by decide, by decide⟩ rfl rfl (by decide)
  exact ⟨hread, w', h₁, h₂, h₃⟩

end BitBuffer

end RtcBase
