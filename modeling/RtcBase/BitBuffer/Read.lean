import RtcBase.BitBuffer.Model

/-!
# What `BitBuffer` reads

The buffer is a bit string, most significant bit of the first byte first.

* `bitAt`, `pos`, `Valid`: the bits, the cursor as a position, and the cursors that `Seek` accepts;
* `peekLoop_eq`, **`peekBits_eq`**, `readBits_eq`: a read is the number that the bits spell.
-/

namespace RtcBase

open Word Bits

namespace BitBuffer

/-- The bit at position `p`. -/
def bitAt (bytes : List (BitVec 8)) (p : ℕ) : Bool := (bytes.getD (p / 8) 0).getMsbD (p % 8)

/-- The cursor as a bit position. -/
def pos (b : BitBuffer) : ℕ := 8 * b.byte_offset_ + b.bit_offset_

/-- The buffer with its cursor at position `p`. -/
def moveTo (b : BitBuffer) (p : ℕ) : BitBuffer :=
  { b with byte_offset_ := p / 8, bit_offset_ := p % 8 }

/-- A cursor that `Seek` accepts, in a buffer whose bits a `size_t` can count. -/
structure Valid (b : BitBuffer) : Prop where
  size : b.bytes_.length < 2 ^ 61
  bit : b.bit_offset_ ≤ 7
  pos_le : b.pos ≤ 8 * b.bytes_.length

variable {b : BitBuffer} {bytes : List (BitVec 8)} {n : ℕ}

/-! ## The cursor -/

@[simp] theorem moveTo_bytes (b : BitBuffer) (p : ℕ) : (b.moveTo p).bytes_ = b.bytes_ := rfl

@[simp] theorem moveTo_pos (b : BitBuffer) (p : ℕ) : (b.moveTo p).pos = p := by
  simp only [pos, moveTo]
  omega

theorem moveTo_self (h : b.Valid) : b.moveTo b.pos = b := by
  have h₁ := h.bit
  have h₂ : b.pos / 8 = b.byte_offset_ := by unfold pos; omega
  have h₃ : b.pos % 8 = b.bit_offset_ := by unfold pos; omega
  rw [moveTo, h₂, h₃]

theorem moveTo_moveTo (b : BitBuffer) (p q : ℕ) : (b.moveTo p).moveTo q = b.moveTo q := rfl

theorem valid_moveTo (h : b.Valid) {p : ℕ} (hp : p ≤ 8 * b.bytes_.length) : (b.moveTo p).Valid where
  size := h.size
  bit := by simp only [moveTo]; omega
  pos_le := by rwa [moveTo_pos]

theorem remainingBitCount_eq (h : b.Valid) :
    b.remainingBitCount = 8 * b.bytes_.length - b.pos := by
  have h₁ := h.size
  have h₂ := h.bit
  have h₃ := h.pos_le
  unfold pos at h₃ ⊢
  unfold remainingBitCount byte_count_
  rw [sizeSub_of_le (x := b.bytes_.length) (by omega) (by omega), sizeT_of_lt (by omega),
    sizeSub_of_le (by omega) (by omega)]
  omega

theorem consumeBits_eq (h : b.Valid) (hn : b.pos + n ≤ 8 * b.bytes_.length) :
    b.consumeBits n = (true, b.moveTo (b.pos + n)) := by
  have h₁ := h.size
  have h₂ := h.bit
  unfold consumeBits
  rw [remainingBitCount_eq h, if_neg (by omega), moveTo]
  unfold pos at hn ⊢
  rw [sizeT_of_lt (x := b.bit_offset_ + n) (by omega), sizeT_of_lt (by omega)]
  congr 2 <;> omega

theorem seek_valid (hsize : bytes.length < 2 ^ 61) {byte_offset bit_offset : ℕ} {b' : BitBuffer}
    (hb : b.bytes_ = bytes) (h : b.seek byte_offset bit_offset = (true, b')) :
    b'.Valid ∧ b'.bytes_ = bytes ∧ b'.pos = 8 * byte_offset + bit_offset := by
  unfold seek at h
  split_ifs at h with hc
  · cases h
  obtain rfl : _ = b' := (Prod.mk.inj h).2
  simp only [byte_count_] at hc
  refine ⟨⟨by rw [← hb] at hsize; exact hsize, ?_, ?_⟩, hb, rfl⟩
  · change bit_offset ≤ 7
    omega
  · change 8 * byte_offset + bit_offset ≤ 8 * b.bytes_.length
    omega

/-! ## Bytes as numbers -/

theorem ok_bind {α β : Type} (a : α) (f : α → Except Fault β) : (Except.ok a >>= f) = f a := rfl

theorem dcheck_true {p : Bool} (h : p = true) : dcheck p = .ok () := by rw [dcheck, if_pos h]

theorem byteAt_eq (bytes : List (BitVec 8)) (i : ℕ) (hi : i < bytes.length) :
    byteAt bytes i = .ok (bytes.getD i 0) := by
  simp [byteAt, List.getElem?_eq_getElem hi, List.getD_eq_getElem?_getD]

theorem value_byte (bytes : List (BitVec 8)) (i : ℕ) :
    value (bitAt bytes) (8 * i) 8 = (bytes.getD i 0).toNat := by
  have hbits : ∀ j < 8, bitAt bytes (8 * i + j) = (bytes.getD i 0).toNat.testBit (8 - 1 - j) := by
    intro j hj
    have h₁ : (8 * i + j) / 8 = i := by omega
    have h₂ : (8 * i + j) % 8 = j := by omega
    rw [bitAt, h₁, h₂, BitVec.getMsbD, BitVec.getLsbD]
    simp [hj]
  rw [value_of_testBit hbits, Nat.mod_eq_of_lt (bytes.getD i 0).isLt]

theorem lowestBits_eq (byte : BitVec 8) (hn : n ≤ 8) :
    lowestBits byte n = .ok (BitVec.ofNat 8 (byte.toNat % 2 ^ n)) := by
  have hmask : (((1#32 <<< n) - 1).setWidth 8).toNat = 2 ^ n - 1 := by
    interval_cases n <;> rfl
  have : byte &&& ((1#32 <<< n) - 1).setWidth 8 = BitVec.ofNat 8 (byte.toNat % 2 ^ n) := by
    refine BitVec.eq_of_toNat_eq ?_
    have hlt : byte.toNat % 2 ^ n < 2 ^ 8 := lt_of_le_of_lt (Nat.mod_le _ _) byte.isLt
    rw [BitVec.toNat_and, hmask, Nat.and_two_pow_sub_one_eq_mod, BitVec.toNat_ofNat,
      Nat.mod_eq_of_lt hlt]
  rw [lowestBits, dcheck_true (decide_eq_true hn)]
  exact congrArg Except.ok this

theorem highestBits_eq (byte : BitVec 8) (hn : n ≤ 8) :
    highestBits byte n = .ok (BitVec.ofNat 8 (byte.toNat / 2 ^ (8 - n))) := by
  have hmask : (((0xFF#32 <<< (8 - n)).setWidth 8 : BitVec 8)) = BitVec.allOnes 8 <<< (8 - n) := by
    interval_cases n <;> rfl
  have hshift : (byte &&& (0xFF#32 <<< (8 - n)).setWidth 8) >>> (8 - n) = byte >>> (8 - n) := by
    refine BitVec.eq_of_getLsbD_eq fun i hi => ?_
    rw [hmask]
    simp only [BitVec.getLsbD_ushiftRight, BitVec.getLsbD_and, BitVec.getLsbD_shiftLeft,
      BitVec.getLsbD_allOnes]
    by_cases hi' : 8 - n + i < 8
    · simp [hi', hi]
    · rw [BitVec.getLsbD_of_ge byte (8 - n + i) (by omega), Bool.false_and]
  have hdiv : byte >>> (8 - n) = BitVec.ofNat 8 (byte.toNat / 2 ^ (8 - n)) := by
    refine BitVec.eq_of_toNat_eq ?_
    have hlt : byte.toNat / 2 ^ (8 - n) < 2 ^ 8 := lt_of_le_of_lt (Nat.div_le_self _ _) byte.isLt
    rw [BitVec.toNat_ushiftRight, Nat.shiftRight_eq_div_pow, BitVec.toNat_ofNat,
      Nat.mod_eq_of_lt hlt]
  rw [highestBits, dcheck_true (decide_eq_true hn)]
  exact congrArg Except.ok (hshift.trans hdiv)

/-! ## `PeekBits` and `ReadBits` -/

theorem append_bits {f : ℕ → Bool} {p m n : ℕ} {x : BitVec 32} (hx : x.toNat = value f (p + m) n)
    (hmn : m + n ≤ 32) :
    (BitVec.ofNat 32 (value f p m) <<< n) ||| x = BitVec.ofNat 32 (value f p (m + n)) := by
  have hm := value_lt f p m
  have hn := value_lt f (p + m) n
  have hmn' := value_lt f p (m + n)
  have h₁ : 2 ^ (m + n) ≤ 2 ^ 32 := Nat.pow_le_pow_right (by decide) hmn
  have h₂ : 2 ^ m ≤ 2 ^ 32 := Nat.pow_le_pow_right (by decide) (by omega)
  refine BitVec.eq_of_toNat_eq ?_
  have hsum := value_add f p m n
  rw [BitVec.toNat_or, BitVec.toNat_shiftLeft, BitVec.toNat_ofNat, BitVec.toNat_ofNat, hx,
    Nat.mod_eq_of_lt (a := value f p m) (by omega), Nat.mod_eq_of_lt (a := value f p (m + n))
    (by omega), Nat.shiftLeft_eq, Nat.mod_eq_of_lt (by omega), ← Nat.shiftLeft_eq,
    ← Nat.shiftLeft_add_eq_or_of_lt hn, Nat.shiftLeft_eq, hsum]

theorem toNat_ofNat_value {f : ℕ → Bool} {p w : ℕ} (hn : n ≤ w) :
    (BitVec.ofNat w (value f p n)).toNat = value f p n := by
  rw [BitVec.toNat_ofNat, Nat.mod_eq_of_lt]
  exact lt_of_lt_of_le (value_lt f p n) (Nat.pow_le_pow_right (by decide) hn)

/-- The whole bytes of a read. -/
theorem peekLoop_eq (fuel : ℕ) {p m i n : ℕ} (hp : p + m = 8 * i)
    (hfuel : n ≤ fuel) (hm : m + n ≤ 32)
    (hlen : 8 * i + n ≤ 8 * bytes.length) :
    peekLoop bytes fuel (BitVec.ofNat 32 (value (bitAt bytes) p m)) i n =
      .ok (BitVec.ofNat 32 (value (bitAt bytes) p (m + 8 * (n / 8))),
        i + n / 8, n % 8) := by
  induction fuel generalizing m i n with
  | zero =>
    obtain rfl : n = 0 := by omega
    rfl
  | succ fuel ih =>
    rw [peekLoop]
    split_ifs with hc
    · have hbyte := byteAt_eq bytes i (by omega)
      have hval := value_byte bytes i
      have happ := append_bits (f := bitAt bytes) (p := p) (m := m) (n := 8)
        (x := (bytes.getD i 0).setWidth 32) (by
          rw [hp, hval, BitVec.toNat_setWidth, Nat.mod_eq_of_lt]
          exact lt_of_lt_of_le (bytes.getD i 0).isLt (by decide)) (by omega)
      have := ih (m := m + 8) (i := i + 1) (n := n - 8) (by omega) (by omega)
        (by omega) (by omega)
      rw [hbyte]
      change peekLoop bytes fuel ((BitVec.ofNat 32 (value (bitAt bytes) p m) <<< 8) |||
        (bytes.getD i 0).setWidth 32) (i + 1) (n - 8) = _
      rw [happ, this, show m + 8 + 8 * ((n - 8) / 8) = m + 8 * (n / 8) by omega,
        show i + 1 + (n - 8) / 8 = i + n / 8 by omega,
        show (n - 8) % 8 = n % 8 by omega]
    · rw [show n / 8 = 0 by omega, show n % 8 = n by omega]
      rfl

theorem peekBits_false (h : b.Valid) (val : BitVec 32) (hn : 0 < n)
    (hc : 8 * b.bytes_.length < b.pos + n ∨ 32 < n) : b.peekBits val n = .ok (false, val) := by
  have hrem := remainingBitCount_eq h
  have hpos := h.pos_le
  rw [peekBits, dcheck_true (decide_eq_true hn)]
  change ite _ _ _ = _
  rw [if_pos (by omega)]
  rfl

theorem highestBits_byte {i : ℕ} (hn : n ≤ 8) :
    highestBits (bytes.getD i 0) n = .ok (BitVec.ofNat 8 (value (bitAt bytes) (8 * i) n)) := by
  have := value_div (bitAt bytes) (8 * i) n (8 - n)
  rw [Nat.add_sub_cancel' hn, value_byte] at this
  rw [highestBits_eq _ hn, this]

theorem setWidth_ofNat_value {f : ℕ → Bool} {p v w : ℕ} (hv : n ≤ v) :
    (BitVec.ofNat v (value f p n)).setWidth w = BitVec.ofNat w (value f p n) := by
  refine BitVec.eq_of_toNat_eq ?_
  rw [BitVec.toNat_setWidth, toNat_ofNat_value hv, BitVec.toNat_ofNat]

/-- **`PeekBits`** returns the number that the bits spell. -/
theorem peekBits_eq (h : b.Valid) (val : BitVec 32) (hn : 0 < n) (hn' : n ≤ 32)
    (hlen : b.pos + n ≤ 8 * b.bytes_.length) :
    b.peekBits val n = .ok (true, BitVec.ofNat 32 (value (bitAt b.bytes_) b.pos n)) := by
  have hrem := remainingBitCount_eq h
  have hbit := h.bit
  have hpos : b.pos = 8 * b.byte_offset_ + b.bit_offset_ := rfl
  have hbyte := byteAt_eq b.bytes_ b.byte_offset_ (by omega)
  have hsub : sizeSub 8 b.bit_offset_ = 8 - b.bit_offset_ := sizeSub_of_le (by omega) (by omega)
  have hval := value_byte b.bytes_ b.byte_offset_
  -- the low bits of the first byte
  have hlow : (b.bytes_.getD b.byte_offset_ 0).toNat % 2 ^ (8 - b.bit_offset_) =
      value (bitAt b.bytes_) b.pos (8 - b.bit_offset_) := by
    rw [← hval, hpos, ← value_mod (bitAt b.bytes_) _ b.bit_offset_ (8 - b.bit_offset_),
      Nat.add_sub_cancel' (by omega)]
  rw [peekBits, dcheck_true (decide_eq_true hn)]
  change ite _ _ _ = _
  rw [if_neg (by omega), hsub, hbyte]
  change (lowestBits _ _ >>= _) = _
  rw [lowestBits_eq _ (by omega), hlow]
  change ite _ _ _ = _
  rw [setWidth_ofNat_value (v := 8) (by omega)]
  split_ifs with hc
  · -- the read ends in the first byte
    have hdiv := value_div (bitAt b.bytes_) b.pos n (8 - b.bit_offset_ - n)
    rw [Nat.add_sub_cancel' hc.le] at hdiv
    rw [setWidth_ofNat_value (v := 32) (by omega), highestBits_eq _ (by omega),
      toNat_ofNat_value (by omega),
      show 8 - (b.bit_offset_ + n) = 8 - b.bit_offset_ - n by omega, hdiv]
    change Except.ok (true, (BitVec.ofNat 8 _).setWidth 32) = _
    rw [setWidth_ofNat_value (by omega)]
  · rw [peekLoop_eq n (i := b.byte_offset_ + 1) (by omega) (by omega) (by omega) (by omega)]
    change ite _ _ _ = _
    split_ifs with hc'
    · -- the rest of the read is the top of one more byte
      have hlast := byteAt_eq b.bytes_
        (b.byte_offset_ + 1 + (n - (8 - b.bit_offset_)) / 8) (by omega)
      rw [shiftLeft, if_pos (by omega), ok_bind, hlast]
      change (highestBits _ _ >>= _) = _
      rw [highestBits_byte (by omega)]
      change Except.ok (true, _ ||| (BitVec.ofNat 8 _).setWidth 32) = _
      have happ := append_bits (f := bitAt b.bytes_) (p := b.pos)
        (m := 8 - b.bit_offset_ + 8 * ((n - (8 - b.bit_offset_)) / 8))
        (n := (n - (8 - b.bit_offset_)) % 8) (toNat_ofNat_value (w := 32) (by omega)) (by omega)
      rw [show b.pos + (8 - b.bit_offset_ + 8 * ((n - (8 - b.bit_offset_)) / 8)) =
          8 * (b.byte_offset_ + 1 + (n - (8 - b.bit_offset_)) / 8) by omega,
        show 8 - b.bit_offset_ + 8 * ((n - (8 - b.bit_offset_)) / 8) +
          (n - (8 - b.bit_offset_)) % 8 = n by omega] at happ
      rw [setWidth_ofNat_value (v := 8) (by omega), happ]
    · rw [show 8 - b.bit_offset_ + 8 * ((n - (8 - b.bit_offset_)) / 8) = n by omega]
      rfl

/-- **`ReadBits`** moves over what it has read. -/
theorem readBits_eq (h : b.Valid) (val : BitVec 32) (hn : 0 < n) (hn' : n ≤ 32)
    (hlen : b.pos + n ≤ 8 * b.bytes_.length) :
    b.readBits val n =
      .ok (true, BitVec.ofNat 32 (value (bitAt b.bytes_) b.pos n), b.moveTo (b.pos + n)) := by
  rw [readBits, peekBits_eq h val hn hn' hlen]
  change Except.ok ((b.consumeBits n).1, _, (b.consumeBits n).2) = _
  rw [consumeBits_eq h hlen]

theorem readBits_false (h : b.Valid) (val : BitVec 32) (hn : 0 < n)
    (hc : 8 * b.bytes_.length < b.pos + n ∨ 32 < n) : b.readBits val n = .ok (false, val, b) := by
  rw [readBits, peekBits_false h val hn hc]
  rfl

theorem readBits_of_bits (h : b.Valid) (val : BitVec 32) (hn : 0 < n) (hn' : n ≤ 32) :
    b.readBits val n =
      if 8 * b.bytes_.length < b.pos + n then .ok (false, val, b)
      else .ok (true, BitVec.ofNat 32 (value (bitAt b.bytes_) b.pos n), b.moveTo (b.pos + n)) := by
  split_ifs with hc
  · exact readBits_false h val hn (.inl hc)
  · exact readBits_eq h val hn hn' (by omega)

/-- Fewer bits than a word: the `RTC_DCHECK` on the value holds, and the cast keeps it. -/
theorem narrow_value {f : ℕ → Bool} {p : ℕ} (hn : n ≤ 32) (b : BitBuffer) :
    (do dcheck ((BitVec.ofNat 32 (value f p n)).toNat ≤ 2 ^ n - 1)
        return (true, (BitVec.ofNat 32 (value f p n)).setWidth n, b)) =
      (.ok (true, BitVec.ofNat n (value f p n), b) :
          Except Fault (Bool × BitVec n × BitBuffer)) := by
  have hlt := value_lt f p n
  have hle : decide ((BitVec.ofNat 32 (value f p n)).toNat ≤ 2 ^ n - 1) = true := by
    rw [toNat_ofNat_value hn]
    exact decide_eq_true (Nat.le_sub_one_of_lt hlt)
  rw [dcheck_true hle, ok_bind, setWidth_ofNat_value hn]
  rfl

theorem readUInt8_of_bits (h : b.Valid) (val : BitVec 8) :
    b.readUInt8 val =
      if 8 * b.bytes_.length < b.pos + 8 then .ok (false, val, b)
      else .ok (true, BitVec.ofNat 8 (value (bitAt b.bytes_) b.pos 8), b.moveTo (b.pos + 8)) := by
  rw [readUInt8, readBits_of_bits h 0 (by decide) (by decide)]
  split_ifs with hc
  · rfl
  · exact narrow_value (by decide) (b.moveTo (b.pos + 8))

theorem readUInt16_of_bits (h : b.Valid) (val : BitVec 16) :
    b.readUInt16 val =
      if 8 * b.bytes_.length < b.pos + 16 then .ok (false, val, b)
      else .ok (true, BitVec.ofNat 16 (value (bitAt b.bytes_) b.pos 16),
        b.moveTo (b.pos + 16)) := by
  rw [readUInt16, readBits_of_bits h 0 (by decide) (by decide)]
  split_ifs with hc
  · rfl
  · exact narrow_value (by decide) (b.moveTo (b.pos + 16))

end BitBuffer

end RtcBase
