import RtcBase.BitBuffer.Write

/-!
# What a call does to the bits and to the cursor

* `readParts`: a number read in pieces;
* `readParts_eq`: the pieces spell what one read spells;
* **`writeBits_splice`**: a write replaces the bits under it and no others;
* **`readBits_bitString`**: a read is the bit string under it, in one piece or in many;
* **`consumeBytes_moves_iff`**: when `ConsumeBytes` moves by whole bytes or fails.
-/

namespace RtcBase

open Word Bits

namespace BitBuffer

variable {b : BitBuffer} {n : ℕ}

/-! ## `WriteBits` -/

/-- **A write replaces the bits under it and no others**, or does nothing. -/
theorem writeBits_splice (h : b.Valid) (val : BitVec 64) (hn : 1 ≤ n) (hn' : n ≤ 64) :
    (n ≤ b.remainingBitCount → ∃ b' : BitBuffer, b.writeBits val n = .ok (true, b') ∧
      b'.bytes_.length = b.bytes_.length ∧
      (∀ k < n, bitAt b'.bytes_ (b.pos + k) = val.getLsbD (n - 1 - k)) ∧
      (∀ q, q < b.pos ∨ b.pos + n ≤ q → bitAt b'.bytes_ q = bitAt b.bytes_ q) ∧
      b'.Valid ∧ b'.pos = b.pos + n) ∧
    (b.remainingBitCount < n → b.writeBits val n = .ok (false, b)) := by
  have hpos := h.pos_le
  rw [remainingBitCount_eq h]
  constructor
  · intro hlen
    obtain ⟨bytes', hrun, hlength, hbits⟩ := writeBits_eq h val hn hn' (by omega)
    have hvalid : Valid { b with bytes_ := bytes' } :=
      ⟨by rw [hlength]; exact h.size, h.bit, by rw [hlength]; exact h.pos_le⟩
    refine ⟨_, hrun, hlength, fun k hk => ?_, fun q hq => ?_, ?_, moveTo_pos _ _⟩
    · rw [moveTo_bytes, hbits, if_pos (by omega)]
      congr 1
      omega
    · rw [moveTo_bytes, hbits, if_neg (by omega)]
    · refine valid_moveTo hvalid ?_
      rw [hlength]
      omega
  · intro hlen
    exact writeBits_false val h (by omega)

/-- Four bits over the boundary of two bytes, where ten are left; eleven are too many. -/
theorem writeBits_splice_fields :
    let b : BitBuffer := ⟨[0xFF#8, 0x00#8], 0, 6⟩
    (∃ b' : BitBuffer, b.writeBits 0x35#64 4 = .ok (true, b') ∧
      b'.bytes_.length = b.bytes_.length ∧
      (∀ k < 4, bitAt b'.bytes_ (b.pos + k) = (0x35#64).getLsbD (4 - 1 - k)) ∧
      (∀ q, q < b.pos ∨ b.pos + 4 ≤ q → bitAt b'.bytes_ q = bitAt b.bytes_ q) ∧
      b'.Valid ∧ b'.pos = b.pos + 4) ∧
    b.writeBits 0x35#64 11 = .ok (false, b) := by
  intro b
  have hb : b.Valid := ⟨by decide, by decide, by decide⟩
  exact ⟨(writeBits_splice hb 0x35#64 (by decide) (by decide)).1 (by decide),
    (writeBits_splice hb 0x35#64 (by decide) (by decide)).2 (by decide)⟩

/-! ## `PeekBits` and `ReadBits` -/

/-- Reads of `counts` bits, one after the other, with the results put behind each other. -/
def readParts (b : BitBuffer) (val : ℕ) : List ℕ → Except Fault (Bool × ℕ × BitBuffer)
  | [] => .ok (true, val, b)
  | bit_count :: counts => do
    let (read, bits, b') ← b.readBits 0 bit_count
    if !read then return (false, val, b')
    readParts b' (val * 2 ^ bit_count + bits.toNat) counts

theorem readParts_eq (h : b.Valid) {p m : ℕ} (hp : p + m = b.pos) {counts : List ℕ}
    (hcounts : ∀ c ∈ counts, 1 ≤ c ∧ c ≤ 32)
    (hlen : b.pos + counts.sum ≤ 8 * b.bytes_.length) :
    b.readParts (value (bitAt b.bytes_) p m) counts =
      .ok (true, value (bitAt b.bytes_) p (m + counts.sum), b.moveTo (b.pos + counts.sum)) := by
  induction counts generalizing b m with
  | nil =>
    rw [readParts, List.sum_nil, add_zero, add_zero, moveTo_self h]
  | cons c counts ih =>
    rw [List.sum_cons] at hlen ⊢
    obtain ⟨hc₁, hc₂⟩ := hcounts c List.mem_cons_self
    have hvalid : (b.moveTo (b.pos + c)).Valid := valid_moveTo h (by omega)
    have hrest := ih (b := b.moveTo (b.pos + c)) hvalid (m := m + c)
      (by rw [moveTo_pos]; omega) (fun d hd => hcounts d (List.mem_cons_of_mem c hd))
      (by rw [moveTo_pos, moveTo_bytes]; omega)
    rw [moveTo_bytes, moveTo_pos, value_add, hp, moveTo_moveTo] at hrest
    rw [readParts, readBits_eq h 0 hc₁ hc₂ (by omega), ok_bind]
    simp only [Bool.not_true, Bool.false_eq_true, if_false]
    rw [toNat_ofNat_value hc₂, hrest, ← add_assoc m, ← add_assoc b.pos]

theorem getLsbD_ofNat_value {f : ℕ → Bool} {p k w : ℕ} (hk : k < n) (hn : n ≤ w) :
    (BitVec.ofNat w (value f p n)).getLsbD (n - 1 - k) = f (p + k) := by
  rw [BitVec.getLsbD, toNat_ofNat_value hn, testBit_value hk]

/-- **A read is the bit string under it**, in one piece or in many. -/
theorem readBits_bitString (h : b.Valid) (val : BitVec 32) (hn : 1 ≤ n) :
    (n ≤ 32 ∧ n ≤ b.remainingBitCount → ∃ v : BitVec 32,
      b.peekBits val n = .ok (true, v) ∧
      b.readBits val n = .ok (true, v, b.moveTo (b.pos + n)) ∧
      v.toNat < 2 ^ n ∧ (∀ k < n, v.getLsbD (n - 1 - k) = bitAt b.bytes_ (b.pos + k)) ∧
      ∀ counts : List ℕ, (∀ c ∈ counts, 1 ≤ c) → counts.sum = n →
        b.readParts 0 counts = .ok (true, v.toNat, b.moveTo (b.pos + n))) ∧
    (¬(n ≤ 32 ∧ n ≤ b.remainingBitCount) →
      b.peekBits val n = .ok (false, val) ∧ b.readBits val n = .ok (false, val, b)) := by
  have hpos := h.pos_le
  rw [remainingBitCount_eq h]
  constructor
  · rintro ⟨hn', hlen⟩
    refine ⟨_, peekBits_eq h val hn hn' (by omega), readBits_eq h val hn hn' (by omega), ?_,
      fun k hk => getLsbD_ofNat_value hk hn', fun counts hcounts hsum => ?_⟩
    · rw [toNat_ofNat_value hn']
      exact value_lt _ _ n
    · have hsmall : ∀ c ∈ counts, 1 ≤ c ∧ c ≤ 32 := fun c hc =>
        ⟨hcounts c hc, (List.le_sum_of_mem hc).trans (by omega)⟩
      have hparts := readParts_eq h (m := 0) (add_zero b.pos) hsmall (by omega)
      rwa [zero_add, hsum, ← toNat_ofNat_value hn'] at hparts
  · intro hc
    have hc' : 8 * b.bytes_.length < b.pos + n ∨ 32 < n := by omega
    exact ⟨peekBits_false h val hn hc', readBits_false h val hn hc'⟩

/-- Nine bits over the boundary of two bytes, where thirteen are left; fourteen are too many. -/
theorem readBits_bitString_fields :
    let b : BitBuffer := ⟨[0xA5#8, 0x5A#8], 0, 3⟩
    (∃ v : BitVec 32,
      b.peekBits 0 9 = .ok (true, v) ∧
      b.readBits 0 9 = .ok (true, v, b.moveTo (b.pos + 9)) ∧
      v.toNat < 2 ^ 9 ∧ (∀ k < 9, v.getLsbD (9 - 1 - k) = bitAt b.bytes_ (b.pos + k)) ∧
      ∀ counts : List ℕ, (∀ c ∈ counts, 1 ≤ c) → counts.sum = 9 →
        b.readParts 0 counts = .ok (true, v.toNat, b.moveTo (b.pos + 9))) ∧
    b.peekBits 0 14 = .ok (false, 0) ∧ b.readBits 0 14 = .ok (false, 0, b) := by
  intro b
  have hb : b.Valid := ⟨by decide, by decide, by decide⟩
  exact ⟨(readBits_bitString hb 0 (by decide)).1 (by decide),
    (readBits_bitString hb 0 (by decide)).2 (by decide)⟩

/-! ## `ConsumeBytes` -/

/-- `ConsumeBytes` moves by whole bytes, or fails and changes nothing. -/
def MovesByBytes (b : BitBuffer) (byte_count : ℕ) : Prop :=
  ((b.consumeBytes byte_count).1 = true ↔ 8 * byte_count ≤ b.remainingBitCount) ∧
  ((b.consumeBytes byte_count).1 = true →
    (b.consumeBytes byte_count).2 = { b with byte_offset_ := b.byte_offset_ + byte_count }) ∧
  ((b.consumeBytes byte_count).1 = false → (b.consumeBytes byte_count).2 = b)

/-- A count whose product with 8 a `size_t` can hold. -/
theorem consumeBytes_eq (h : b.Valid) (hn : n < 2 ^ 61) :
    b.consumeBytes n = if 8 * n ≤ b.remainingBitCount then
      (true, { b with byte_offset_ := b.byte_offset_ + n }) else (false, b) := by
  have hrem := remainingBitCount_eq h
  have hbit := h.bit
  have hpos := h.pos_le
  rw [consumeBytes, sizeT_of_lt (by omega)]
  split_ifs with hlen
  · rw [consumeBits_eq h (by omega), moveTo]
    unfold pos
    congr 2 <;> omega
  · rw [consumeBits, if_pos (by omega)]

/-- **`ConsumeBytes` moves by whole bytes or fails**, unless the wrapped product is small. -/
theorem consumeBytes_moves_iff (h : b.Valid) (hn : n < 2 ^ 64) :
    b.MovesByBytes n ↔ n < 2 ^ 61 ∨ b.remainingBitCount < 8 * n % 2 ^ 64 := by
  have hrem := remainingBitCount_eq h
  have hsize := h.size
  by_cases hsmall : n < 2 ^ 61
  · refine iff_of_true ?_ (.inl hsmall)
    unfold MovesByBytes
    rw [consumeBytes_eq h hsmall]
    split_ifs with hlen <;> simp [hlen]
  · have hproduct : sizeT (n * 8) = 8 * n % 2 ^ 64 := by rw [sizeT, mul_comm]
    -- no buffer has that many bits
    have hlen : ¬ 8 * n ≤ b.remainingBitCount := by omega
    have hrun : (b.consumeBytes n).1 = true ↔ ¬ b.remainingBitCount < 8 * n % 2 ^ 64 := by
      rw [consumeBytes, consumeBits, hproduct]
      split_ifs with hc
      · exact iff_of_false id (not_not.mpr hc)
      · exact iff_of_true rfl hc
    refine ⟨fun hmoves => .inr (not_not.mp fun hc => hlen (hmoves.1.mp (hrun.mpr hc))), ?_⟩
    rintro (hc | hc)
    · exact absurd hc hsmall
    · have hfail : b.consumeBytes n = (false, b) := by
        rw [consumeBytes, consumeBits, hproduct, if_pos hc]
      refine ⟨?_, ?_, ?_⟩ <;> simp [hfail, hlen]

/-- Two bytes of three, from the middle of the first. -/
theorem consumeBytes_moves_whole : MovesByBytes ⟨[0#8, 0#8, 0#8], 0, 5⟩ 2 :=
  (consumeBytes_moves_iff ⟨by decide, by decide, by decide⟩ (by decide)).mpr (.inl (by decide))

/-- Skipping `2 ^ 61` bytes succeeds on the empty buffer, and moves nowhere. -/
theorem consumeBytes_wraps :
    (BitBuffer.new []).Valid ∧ (BitBuffer.new []).consumeBytes (2 ^ 61) = (true, .new []) ∧
      ¬ (BitBuffer.new []).MovesByBytes (2 ^ 61) := by
  have hrun : (BitBuffer.new []).consumeBytes (2 ^ 61) = (true, .new []) := by decide
  have hrem : (BitBuffer.new []).remainingBitCount = 0 := by decide
  refine ⟨⟨by decide, by decide, by decide⟩, hrun, fun hmoves => ?_⟩
  have hlen := hmoves.1.mp (congrArg Prod.fst hrun)
  omega

end BitBuffer

end RtcBase
