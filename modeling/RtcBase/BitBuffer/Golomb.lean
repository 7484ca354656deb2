import RtcBase.BitBuffer.Read

/-!
# What `ReadExponentialGolomb` accepts

* `zeroLoop_eq`: the loop over the leading zeros;
* `readExponentialGolomb_of_zeros`: the result, by the number of leading zeros;
* `remaining`, `golomb`: the bits behind the cursor as a list, and the strings of the grammar;
* **`readExponentialGolomb_grammar`**: the call accepts the grammar and nothing else.
-/

namespace RtcBase

open Word Bits

namespace BitBuffer

variable {b : BitBuffer} {z : ℕ}

/-! ## The leading zeros -/

theorem peekBit_eq (hb : b.Valid) (val : BitVec 32) (hlen : b.pos < 8 * b.bytes_.length) :
    b.peekBits val 1 = .ok (true, BitVec.ofNat 32 (bitAt b.bytes_ b.pos).toNat) := by
  rw [peekBits_eq hb val (by decide) (by decide) (by omega), value_one]

theorem peekBit_end (hb : b.Valid) (val : BitVec 32) (hlen : b.pos = 8 * b.bytes_.length) :
    b.peekBits val 1 = .ok (false, val) :=
  peekBits_false hb val (by decide) (by omega)

/-- The loop stops behind the zeros: at a one, or at the end of the buffer. -/
theorem zeroLoop_eq (fuel k : ℕ) {z : ℕ} (hb : b.Valid) (hfuel : z < fuel)
    (hzero : ∀ j < z, bitAt b.bytes_ (b.pos + j) = false)
    (hstop : bitAt b.bytes_ (b.pos + z) = true ∨ b.pos + z = 8 * b.bytes_.length)
    (hlen : b.pos + z ≤ 8 * b.bytes_.length) :
    zeroLoop fuel b k = .ok (k + z, b.moveTo (b.pos + z)) := by
  induction fuel generalizing b k z with
  | zero => omega
  | succ fuel ih =>
    rw [zeroLoop]
    cases z with
    | zero =>
      rw [add_zero] at hstop ⊢
      rw [add_zero, moveTo_self hb]
      by_cases hend : b.pos = 8 * b.bytes_.length
      · rw [peekBit_end hb 0 hend]
        rfl
      · rw [peekBit_eq hb 0 (by omega), hstop.resolve_right hend]
        rfl
    | succ z =>
      have h₀ : bitAt b.bytes_ b.pos = false := hzero 0 (by omega)
      have hmove := valid_moveTo hb (p := b.pos + 1) (by omega)
      have hrest := ih (b := b.moveTo (b.pos + 1)) (k + 1) (z := z) hmove (by omega)
        (fun j hj => by
          rw [moveTo_pos, moveTo_bytes, add_right_comm]
          exact hzero (j + 1) (by omega))
        (by rw [moveTo_pos, moveTo_bytes, add_right_comm]; exact hstop)
        (by rw [moveTo_pos, moveTo_bytes]; omega)
      rw [moveTo_pos, moveTo_moveTo] at hrest
      rw [peekBit_eq hb 0 (by omega), ok_bind, h₀, consumeBits_eq hb (by omega)]
      change zeroLoop fuel (b.moveTo (b.pos + 1)) (k + 1) = _
      rw [hrest, show k + 1 + z = k + (z + 1) by omega,
        show b.pos + 1 + z = b.pos + (z + 1) by omega]

theorem seek_back (hb : b.Valid) (p : ℕ) :
    (b.moveTo p).seek b.byte_offset_ b.bit_offset_ = (true, b) := by
  have hbit := hb.bit
  have hpos := hb.pos_le
  unfold pos at hpos
  have hcount : (b.moveTo p).byte_count_ = b.bytes_.length := rfl
  rw [seek, hcount, if_neg (by omega)]
  rfl

/-- **`ReadExponentialGolomb`** behind `z` zeros. -/
theorem readExponentialGolomb_of_zeros (hb : b.Valid) (val : BitVec 32)
    (hzero : ∀ j < z, bitAt b.bytes_ (b.pos + j) = false)
    (hstop : bitAt b.bytes_ (b.pos + z) = true ∨ b.pos + z = 8 * b.bytes_.length)
    (hlen : b.pos + z ≤ 8 * b.bytes_.length) :
    b.readExponentialGolomb val =
      if z ≤ 31 ∧ b.pos + (2 * z + 1) ≤ 8 * b.bytes_.length then
        .ok (true, BitVec.ofNat 32 (value (bitAt b.bytes_) (b.pos + z) (z + 1)) - 1,
          b.moveTo (b.pos + (2 * z + 1)))
      else .ok (false, val, b) := by
  have hmove := valid_moveTo hb hlen
  have hloop := zeroLoop_eq (b.remainingBitCount + 1) 0 hb
    (by rw [remainingBitCount_eq hb]; omega) hzero hstop hlen
  -- the loop ends at a one or at the end of the buffer
  have hcheck : ∃ peeked peeked_bit, (b.moveTo (b.pos + z)).peekBits 0 1 =
      .ok (peeked, peeked_bit) ∧ (!peeked || peeked_bit == 1) = true := by
    by_cases hend : b.pos + z = 8 * b.bytes_.length
    · exact ⟨false, 0, peekBit_end hmove 0 (by rw [moveTo_pos]; exact hend), rfl⟩
    · have hpeek := peekBit_eq hmove 0 (by rw [moveTo_pos, moveTo_bytes]; omega)
      rw [moveTo_pos, moveTo_bytes, hstop.resolve_right hend] at hpeek
      exact ⟨true, _, hpeek, rfl⟩
  obtain ⟨peeked, peeked_bit, hpeek, hdcheck⟩ := hcheck
  rw [readExponentialGolomb]
  simp only [hloop, ok_bind, hpeek, dcheck_true hdcheck, zero_add, seek_back hb]
  by_cases hlong : 31 < z
  · rw [if_pos (by omega), if_neg (by omega)]
  · rw [if_neg (by omega)]
    by_cases hfits : b.pos + (2 * z + 1) ≤ 8 * b.bytes_.length
    · rw [if_pos ⟨by omega, hfits⟩, readBits_eq hmove val (by omega) (by omega)
        (by rw [moveTo_pos, moveTo_bytes]; omega), moveTo_pos, moveTo_bytes, moveTo_moveTo,
        show b.pos + z + (z + 1) = b.pos + (2 * z + 1) by omega]
      rfl
    · rw [if_neg (by omega), readBits_false hmove val (by omega)
        (.inl (by rw [moveTo_pos, moveTo_bytes]; omega))]
      simp only [ok_bind, seek_back hb]
      rfl

/-- The number behind the zeros starts with a one and fits in the variable. -/
theorem golomb_value {bytes : List (BitVec 8)} {p : ℕ} (hz : z ≤ 31)
    (hone : bitAt bytes (p + z) = true) :
    2 ^ z ≤ value (bitAt bytes) (p + z) (z + 1) ∧
      value (bitAt bytes) (p + z) (z + 1) < 2 ^ 32 ∧
      (BitVec.ofNat 32 (value (bitAt bytes) (p + z) (z + 1)) - 1).toNat =
        value (bitAt bytes) (p + z) (z + 1) - 1 := by
  have hlt := value_lt (bitAt bytes) (p + z) (z + 1)
  have hpow : 2 ^ (z + 1) ≤ 2 ^ 32 := Nat.pow_le_pow_right (by decide) (by omega)
  have hfirst := value_add (bitAt bytes) (p + z) 1 z
  rw [value_one, hone, Bool.toNat_true, one_mul, add_comm 1 z] at hfirst
  have hge := Nat.two_pow_pos z
  have hone' : BitVec.toNat (1 : BitVec 32) = 1 := rfl
  refine ⟨by omega, by omega, ?_⟩
  rw [BitVec.toNat_sub, toNat_ofNat_value (by omega), hone']
  omega

/-! ## The grammar -/

/-- The bits from the cursor to the end of the buffer. -/
def remaining (b : BitBuffer) : List Bool :=
  (List.range (8 * b.bytes_.length - b.pos)).map fun j => bitAt b.bytes_ (b.pos + j)

/-- As many zeros as `tail` has bits, a one, and `tail`. -/
def golomb (tail : List Bool) : List Bool := List.replicate tail.length false ++ true :: tail

variable {tail : List Bool}

theorem length_golomb (tail : List Bool) : (golomb tail).length = 2 * tail.length + 1 := by
  simp only [golomb, List.length_append, List.length_replicate, List.length_cons]
  omega

theorem prefix_remaining {s : List Bool} (h : s <+: b.remaining) :
    s.length ≤ 8 * b.bytes_.length - b.pos ∧
      ∀ j (hj : j < s.length), s[j] = bitAt b.bytes_ (b.pos + j) := by
  obtain ⟨hle, hget⟩ := List.prefix_iff_getElem.mp h
  refine ⟨by simpa [remaining] using hle, fun j hj => ?_⟩
  rw [hget j hj]
  simp [remaining]

theorem golomb_bits (h : golomb tail <+: b.remaining) :
    b.pos + (2 * tail.length + 1) ≤ 8 * b.bytes_.length ∧
      (∀ j < tail.length, bitAt b.bytes_ (b.pos + j) = false) ∧
      bitAt b.bytes_ (b.pos + tail.length) = true ∧
      number (true :: tail) =
        value (bitAt b.bytes_) (b.pos + tail.length) (tail.length + 1) := by
  obtain ⟨hle, hget⟩ := prefix_remaining h
  have hlength := length_golomb tail
  refine ⟨by omega, fun j hj => ?_, ?_, ?_⟩
  · rw [← hget j (by omega)]
    simp [golomb, hj]
  · rw [← hget tail.length (by omega)]
    simp [golomb]
  · refine number_eq_value (s := true :: tail) fun j hj => ?_
    rw [List.length_cons] at hj
    rw [add_assoc, ← hget (tail.length + j) (by omega)]
    simp [golomb]

theorem exists_golomb (hzero : ∀ j < z, bitAt b.bytes_ (b.pos + j) = false)
    (hone : bitAt b.bytes_ (b.pos + z) = true)
    (hlen : b.pos + (2 * z + 1) ≤ 8 * b.bytes_.length) :
    ∃ tail, tail.length = z ∧ golomb tail <+: b.remaining := by
  refine ⟨(List.range z).map fun j => bitAt b.bytes_ (b.pos + (z + 1 + j)), by simp,
    List.prefix_iff_getElem.mpr ⟨?_, fun j hj => ?_⟩⟩
  · simp only [length_golomb, List.length_map, List.length_range, remaining]
    omega
  · simp only [length_golomb, List.length_map, List.length_range] at hj
    simp only [golomb, remaining, List.length_map, List.length_range, List.getElem_map,
      List.getElem_range, List.getElem_append, List.length_replicate, List.getElem_replicate]
    split_ifs with hz
    · exact (hzero j hz).symm
    · rw [List.getElem_cons]
      split_ifs with hfirst
      · rw [show j = z by omega]
        exact hone.symm
      · simp only [List.getElem_map, List.getElem_range]
        congr 2
        omega

theorem zeros_eq (hzero : ∀ j < z, bitAt b.bytes_ (b.pos + j) = false)
    (hstop : bitAt b.bytes_ (b.pos + z) = true ∨ b.pos + z = 8 * b.bytes_.length)
    (h : golomb tail <+: b.remaining) : tail.length = z := by
  obtain ⟨hlen, hzero', hone, -⟩ := golomb_bits h
  rcases Nat.lt_trichotomy tail.length z with hlt | heq | hgt
  · rw [hzero _ hlt] at hone
    cases hone
  · exact heq
  · rcases hstop with hstop | hend
    · rw [hzero' _ hgt] at hstop
      cases hstop
    · omega

theorem zeroLoop_stops (hb : b.Valid) :
    ∃ zero_bit_count c,
      (∀ fuel, b.remainingBitCount < fuel → zeroLoop fuel b 0 = .ok (zero_bit_count, c)) ∧
      c.peekBits 0 1 ≠ .ok (true, 0) := by
  have hpos := hb.pos_le
  obtain ⟨z, hz, hzero, hstop⟩ :=
    exists_zeros (bitAt b.bytes_) b.pos (8 * b.bytes_.length - b.pos)
  have hmove := valid_moveTo hb (p := b.pos + z) (by omega)
  refine ⟨0 + z, b.moveTo (b.pos + z), fun fuel hfuel => ?_, ?_⟩
  · rw [remainingBitCount_eq hb] at hfuel
    exact zeroLoop_eq fuel 0 hb (by omega) hzero (hstop.imp id (by omega)) (by omega)
  · by_cases hend : b.pos + z = 8 * b.bytes_.length
    · rw [peekBit_end hmove 0 (by rw [moveTo_pos]; exact hend)]
      decide
    · rw [peekBit_eq hmove 0 (by rw [moveTo_pos, moveTo_bytes]; omega), moveTo_pos, moveTo_bytes,
        hstop.resolve_right (by omega)]
      decide

/-- **Exactly the grammar.** The loop over the zeros ends, and the call returns. It returns true
if and only if the bits behind the cursor start with at most 31 zeros, a one and as many more bits
as zeros; then the value is the number from the one on, less one, and the cursor has moved over
the string. Otherwise cursor and variable are as before. -/
theorem readExponentialGolomb_grammar (hb : b.Valid) (val : BitVec 32) :
    (∃ zero_bit_count c,
      (∀ fuel, b.remainingBitCount < fuel → zeroLoop fuel b 0 = .ok (zero_bit_count, c)) ∧
      c.peekBits 0 1 ≠ .ok (true, 0)) ∧
    ∃ read val' b', b.readExponentialGolomb val = .ok (read, val', b') ∧
      (read = true ↔ ∃ tail, tail.length ≤ 31 ∧ golomb tail <+: b.remaining) ∧
      (∀ tail, tail.length ≤ 31 → golomb tail <+: b.remaining →
        val'.toNat = number (true :: tail) - 1 ∧
          b' = b.moveTo (b.pos + (2 * tail.length + 1))) ∧
      (read = false → val' = val ∧ b' = b) := by
  have hpos := hb.pos_le
  obtain ⟨z, hz, hzero, hstop⟩ :=
    exists_zeros (bitAt b.bytes_) b.pos (8 * b.bytes_.length - b.pos)
  have hstop' : bitAt b.bytes_ (b.pos + z) = true ∨ b.pos + z = 8 * b.bytes_.length :=
    hstop.imp id (by omega)
  have hread := readExponentialGolomb_of_zeros hb val hzero hstop' (by omega)
  refine ⟨zeroLoop_stops hb, ?_⟩
  by_cases hc : z ≤ 31 ∧ b.pos + (2 * z + 1) ≤ 8 * b.bytes_.length
  · rw [if_pos hc] at hread
    obtain ⟨tail, htail, hprefix⟩ := exists_golomb hzero (hstop'.resolve_right (by omega)) hc.2
    refine ⟨_, _, _, hread, ⟨fun _ => ⟨tail, by omega, hprefix⟩, fun _ => rfl⟩,
      fun tail' _ hprefix' => ?_, fun h => absurd h (by decide)⟩
    obtain ⟨-, -, -, hvalue⟩ := golomb_bits hprefix'
    rw [zeros_eq hzero hstop' hprefix'] at hvalue ⊢
    refine ⟨?_, rfl⟩
    rw [hvalue]
    exact (golomb_value hc.1 (hstop'.resolve_right (by omega))).2.2
  · rw [if_neg hc] at hread
    have hnone : ∀ tail, tail.length ≤ 31 → ¬ golomb tail <+: b.remaining := fun tail h₁ h₂ => by
      have := (golomb_bits h₂).1
      rw [zeros_eq hzero hstop' h₂] at this h₁
      exact hc ⟨h₁, this⟩
    refine ⟨_, _, _, hread, ⟨fun h => absurd h (by decide), ?_⟩,
      fun tail h₁ h₂ => absurd h₂ (hnone tail h₁), fun _ => ⟨rfl, rfl⟩⟩
    rintro ⟨tail, h₁, h₂⟩
    exact absurd h₂ (hnone tail h₁)

/-- Three zeros, a one and three more bits, over the end of a byte. -/
theorem readExponentialGolomb_grammar_sample :
    ∃ val' b', (⟨[0x01, 0x80], 0, 4⟩ : BitBuffer).readExponentialGolomb 7 =
      .ok (true, val', b') ∧ val'.toNat = 11 ∧ b' = ⟨[0x01, 0x80], 1, 3⟩ := by
  have hb : Valid ⟨[0x01, 0x80], 0, 4⟩ := ⟨by decide, by decide, by decide⟩
  have hprefix : golomb [true, false, false] <+: (⟨[0x01, 0x80], 0, 4⟩ : BitBuffer).remaining := by
    decide
  obtain ⟨-, read, val', b', hread, htrue, hvalue, -⟩ := readExponentialGolomb_grammar hb 7
  obtain rfl : read = true := htrue.mpr ⟨[true, false, false], by decide, hprefix⟩
  obtain ⟨h₁, h₂⟩ := hvalue [true, false, false] (by decide) hprefix
  exact ⟨val', b', hread, h₁, h₂⟩

end BitBuffer

end RtcBase
