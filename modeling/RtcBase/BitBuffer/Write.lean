import RtcBase.BitBuffer.Read

/-!
# What `BitBufferWriter` writes

* `Spliced`: some bits of the buffer replaced by the top bits of a word, all others kept;
* `writePartialByte_eq`, `writeLoop_eq`: the pieces of `WriteBits`;
* **`writeBits_eq`**: `WriteBits` replaces the bits under it by the low bits of the value.
-/

namespace RtcBase

open Word Bits

namespace BitBuffer

variable {b : BitBuffer} {bytes bytes' bytes'' : List (BitVec 8)} {n : ℕ}

/-- The `n` bits from `p` on are replaced by the top bits of `top`. -/
structure Spliced (bytes bytes' : List (BitVec 8)) (p n : ℕ) (top : BitVec 64) : Prop where
  length : bytes'.length = bytes.length
  bits : ∀ q, bitAt bytes' q = if p ≤ q ∧ q < p + n then top.getMsbD (q - p) else bitAt bytes q

theorem spliced_refl (bytes : List (BitVec 8)) (p : ℕ) (top : BitVec 64) :
    Spliced bytes bytes p 0 top :=
  ⟨rfl, fun q => by rw [if_neg (by omega)]⟩

theorem spliced_trans {p m : ℕ} {top : BitVec 64} (h : Spliced bytes bytes' p m top)
    (h' : Spliced bytes' bytes'' (p + m) n (top <<< m)) : Spliced bytes bytes'' p (m + n) top where
  length := h'.length.trans h.length
  bits q := by
    rw [h'.bits, h.bits]
    by_cases h₁ : p + m ≤ q ∧ q < p + m + n
    · rw [if_pos h₁, if_pos (by omega), BitVec.getMsbD_shiftLeft]
      congr 1
      omega
    · rw [if_neg h₁]
      by_cases h₂ : p ≤ q ∧ q < p + m
      · rw [if_pos h₂, if_pos (by omega)]
      · rw [if_neg h₂, if_neg (by omega)]

theorem bitAt_set (i q : ℕ) (x : BitVec 8) (hi : i < bytes.length) :
    bitAt (bytes.set i x) q = if q / 8 = i then x.getMsbD (q % 8) else bitAt bytes q := by
  unfold bitAt
  rw [List.getD_eq_getElem?_getD, List.getElem?_set, List.getD_eq_getElem?_getD]
  by_cases h : i = q / 8
  · rw [if_pos h, if_pos hi, if_pos h.symm, Option.getD_some]
  · rw [if_neg h, if_neg (Ne.symm h)]

theorem highestByte_getMsbD (val : BitVec 64) {k : ℕ} (hk : k < 8) :
    (highestByte val).getMsbD k = val.getMsbD k := by
  simp only [highestByte, BitVec.getMsbD, BitVec.getLsbD_setWidth, BitVec.getLsbD_ushiftRight]
  simp [hk, show k < 64 by omega, show 56 + (7 - k) = 63 - k by omega, show 7 - k < 8 by omega]

/-- `WritePartialByte`, where no bit of `source` sticks out behind the bits to write. -/
theorem writePartialByte_eq (source target : BitVec 8) (off : ℕ) (hoff : off < 8)
    (hn : n ≤ 8 - off) (hz : ∀ k, n ≤ k → k < 8 - off → source.getMsbD k = false) :
    ∃ byte, writePartialByte source n target off = .ok byte ∧ ∀ k < 8, byte.getMsbD k =
      if off ≤ k ∧ k < off + n then source.getMsbD (k - off) else target.getMsbD k := by
  refine ⟨(target &&& ~~~((0xFF#32 <<< (8 - n)).setWidth 8 >>> off)) ||| (source >>> off), ?_,
    fun k hk => ?_⟩
  · rw [writePartialByte, dcheck_true (decide_eq_true hoff),
      dcheck_true (decide_eq_true (by omega : n < 9)), dcheck_true (decide_eq_true hn)]
    rfl
  · have hmask : ((0xFF#32 <<< (8 - n)).setWidth 8 : BitVec 8) = BitVec.allOnes 8 <<< (8 - n) := by
      have : n ≤ 8 := by omega
      interval_cases n <;> rfl
    rw [hmask]
    have h₁ : 8 - 1 - k < 8 := by omega
    simp only [BitVec.getMsbD, BitVec.getLsbD_or, BitVec.getLsbD_and, BitVec.getLsbD_not,
      BitVec.getLsbD_ushiftRight, BitVec.getLsbD_shiftLeft, BitVec.getLsbD_allOnes, hk, h₁,
      decide_true, Bool.true_and]
    by_cases h₂ : off ≤ k
    · have hsrc : off + (8 - 1 - k) = 8 - 1 - (k - off) := by omega
      rw [hsrc]
      by_cases h₃ : k < off + n
      · -- a bit to write: the mask clears the target
        have h₄ : 8 - 1 - (k - off) < 8 := by omega
        have h₅ : ¬ 8 - 1 - (k - off) < 8 - n := by omega
        have h₆ : 8 - 1 - (k - off) - (8 - n) < 8 := by omega
        simp [h₂, h₃, h₄, h₅, h₆, show k - off < 8 by omega]
      · -- behind the bits to write the source has no bit
        have h₄ : 8 - 1 - (k - off) < 8 - n := by omega
        have hzero := hz (k - off) (by omega) (by omega)
        simp only [BitVec.getMsbD, show k - off < 8 by omega, decide_true, Bool.true_and] at hzero
        simp [h₃, h₄, hzero]
    · have h₄ : ¬ off + (8 - 1 - k) < 8 := by omega
      rw [BitVec.getLsbD_of_ge source _ (by omega)]
      simp [h₂, h₄]

theorem spliced_byte {i : ℕ} (off : ℕ) {top : BitVec 64} {byte : BitVec 8} (hi : i < bytes.length)
    (hn : off + n ≤ 8) (hbyte : ∀ k < 8, byte.getMsbD k = if off ≤ k ∧ k < off + n then
      (highestByte top).getMsbD (k - off) else (bytes.getD i 0).getMsbD k) :
    Spliced bytes (bytes.set i byte) (8 * i + off) n top where
  length := List.length_set
  bits q := by
    rw [bitAt_set i q byte hi]
    by_cases hq : q / 8 = i
    · rw [if_pos hq, hbyte _ (Nat.mod_lt _ (by decide))]
      by_cases hr : off ≤ q % 8 ∧ q % 8 < off + n
      · rw [if_pos hr, if_pos (by omega), highestByte_getMsbD _ (by omega)]
        congr 1
        omega
      · rw [if_neg hr, if_neg (by omega), bitAt, hq]
    · rw [if_neg hq, if_neg (by omega)]

theorem writeLoop_eq (fuel : ℕ) (bytes : List (BitVec 8)) (i : ℕ) {n : ℕ} (val : BitVec 64)
    (hfuel : n ≤ fuel) (hlen : 8 * i + n ≤ 8 * bytes.length) :
    ∃ bytes', writeLoop fuel bytes i val n =
      .ok (bytes', i + n / 8, val <<< (8 * (n / 8)), n % 8) ∧
      Spliced bytes bytes' (8 * i) (8 * (n / 8)) val := by
  induction fuel generalizing bytes i n val with
  | zero =>
    obtain rfl : n = 0 := by omega
    exact ⟨bytes, by simp [writeLoop], spliced_refl bytes _ val⟩
  | succ fuel ih =>
    rw [writeLoop]
    split_ifs with hc
    · have hbyte := byteAt_eq bytes i (by omega)
      have hfirst : Spliced bytes (bytes.set i (highestByte val)) (8 * i) 8 val :=
        spliced_byte 0 (by omega) le_rfl fun k hk => by simp [hk]
      have hset : (bytes.set i (highestByte val)).length = bytes.length := List.length_set
      obtain ⟨bytes', h₁, h₂⟩ := ih (bytes.set i (highestByte val)) (i + 1) (n := n - 8)
        (val <<< 8) (by omega) (by omega)
      rw [show 8 * (i + 1) = 8 * i + 8 by omega] at h₂
      have hall := spliced_trans hfirst h₂
      refine ⟨bytes', ?_, by rwa [show 8 + 8 * ((n - 8) / 8) = 8 * (n / 8) by omega] at hall⟩
      rw [hbyte]
      change writeLoop fuel _ (i + 1) (val <<< 8) (n - 8) = _
      rw [h₁, ← BitVec.shiftLeft_add, show 8 + 8 * ((n - 8) / 8) = 8 * (n / 8) by omega,
        show i + 1 + (n - 8) / 8 = i + n / 8 by omega, show (n - 8) % 8 = n % 8 by omega]
    · refine ⟨bytes, ?_, ?_⟩
      · rw [show n / 8 = 0 by omega, show n % 8 = n by omega]
        simp
      · rw [show n / 8 = 0 by omega]
        exact spliced_refl bytes _ val

theorem writeBits_false (val : BitVec 64) (h : b.Valid)
    (hc : 8 * b.bytes_.length < b.pos + n) : b.writeBits val n = .ok (false, b) := by
  have hrem := remainingBitCount_eq h
  have hpos := h.pos_le
  rw [writeBits, if_pos (by omega)]
  rfl

/-- The low `n` bits of a value, moved to the top of the word. -/
theorem getMsbD_top (val : BitVec 64) (hn : n ≤ 64) (k : ℕ) :
    (val <<< (64 - n)).getMsbD k = if k < n then val.getLsbD (n - 1 - k) else false := by
  rw [BitVec.getMsbD_shiftLeft]
  split_ifs with hk
  · rw [BitVec.getMsbD]
    simp [show k + (64 - n) < 64 by omega, show 63 - (k + (64 - n)) = n - 1 - k by omega]
  · exact BitVec.getMsbD_of_ge val _ (by omega)

/-- `WriteBits` splices the top of that word in. -/
theorem writeBits_spliced (h : b.Valid) (val : BitVec 64) (hn : 0 < n) (hn' : n ≤ 64)
    (hlen : b.pos + n ≤ 8 * b.bytes_.length) :
    ∃ bytes', b.writeBits val n = .ok ({ b with bytes_ := bytes' }.consumeBits n) ∧
      Spliced b.bytes_ bytes' b.pos n (val <<< (64 - n)) := by
  have hrem := remainingBitCount_eq h
  have hbit := h.bit
  have hsize := h.size
  have hpos : b.pos = 8 * b.byte_offset_ + b.bit_offset_ := rfl
  have hbyte := byteAt_eq b.bytes_ b.byte_offset_ (by omega)
  have hsub : sizeSub 8 b.bit_offset_ = 8 - b.bit_offset_ := sizeSub_of_le (by omega) (by omega)
  have hshift : shiftLeft val (sizeSub 64 n) = .ok (val <<< (64 - n)) := by
    rw [sizeSub_of_le hn' (by decide), shiftLeft, if_pos (by omega)]
  have hz : ∀ k, n ≤ k → (val <<< (64 - n)).getMsbD k = false := fun k hk => by
    rw [getMsbD_top val hn', if_neg (by omega)]
  obtain ⟨top, htop⟩ : ∃ top, top = val <<< (64 - n) := ⟨_, rfl⟩
  rw [← htop] at hshift hz ⊢
  obtain ⟨byte, hpartial, hfirst⟩ := writePartialByte_eq (highestByte top)
    (b.bytes_.getD b.byte_offset_ 0) b.bit_offset_ (n := min n (8 - b.bit_offset_)) (by omega)
    (by omega)
    fun k h₁ h₂ => by
      rw [highestByte_getMsbD _ (by omega)]
      exact hz k (by omega)
  have hspliced : Spliced b.bytes_ (b.bytes_.set b.byte_offset_ byte) b.pos
      (min n (8 - b.bit_offset_)) top := spliced_byte _ (by omega) (by omega) hfirst
  rw [writeBits, if_neg (by omega), hshift, hsub, hbyte]
  simp only [ok_bind, hpartial]
  split_ifs with hc
  · -- the write ends in the first byte
    rw [min_eq_left hc] at hspliced
    exact ⟨_, rfl, hspliced⟩
  · rw [min_eq_right (by omega)] at hspliced ⊢
    obtain ⟨bytes', hloop, hmiddle⟩ := writeLoop_eq n (b.bytes_.set b.byte_offset_ byte)
      (b.byte_offset_ + 1) (n := n - (8 - b.bit_offset_)) (top <<< (8 - b.bit_offset_)) (by omega)
      (by rw [List.length_set]; omega)
    rw [show 8 * (b.byte_offset_ + 1) = b.pos + (8 - b.bit_offset_) by omega] at hmiddle
    have hwhole := spliced_trans hspliced hmiddle
    rw [shiftLeft, if_pos (by omega)]
    simp only [ok_bind, hloop]
    split_ifs with hc'
    · -- the rest of the write is the top of one more byte
      rw [← BitVec.shiftLeft_add]
      have hlen' := hwhole.length
      have hlast := byteAt_eq bytes' (b.byte_offset_ + 1 + (n - (8 - b.bit_offset_)) / 8)
        (by omega)
      obtain ⟨byte', hpartial', hend⟩ := writePartialByte_eq
        (highestByte (top <<< (8 - b.bit_offset_ + 8 * ((n - (8 - b.bit_offset_)) / 8))))
        (bytes'.getD (b.byte_offset_ + 1 + (n - (8 - b.bit_offset_)) / 8) 0) 0
        (n := (n - (8 - b.bit_offset_)) % 8) (by omega) (by omega) fun k h₁ h₂ => by
          rw [highestByte_getMsbD _ (by omega), BitVec.getMsbD_shiftLeft]
          exact hz _ (by omega)
      have hlastbyte := spliced_byte 0 (by omega) (by omega) hend
      rw [show 8 * (b.byte_offset_ + 1 + (n - (8 - b.bit_offset_)) / 8) + 0 =
        b.pos + (8 - b.bit_offset_ + 8 * ((n - (8 - b.bit_offset_)) / 8)) by omega] at hlastbyte
      have hall := spliced_trans hwhole hlastbyte
      rw [show 8 - b.bit_offset_ + 8 * ((n - (8 - b.bit_offset_)) / 8) +
        (n - (8 - b.bit_offset_)) % 8 = n by omega] at hall
      simp only [hlast, ok_bind, hpartial']
      exact ⟨_, rfl, hall⟩
    · rw [show 8 - b.bit_offset_ + 8 * ((n - (8 - b.bit_offset_)) / 8) = n by omega] at hwhole
      exact ⟨_, rfl, hwhole⟩

/-- **`WriteBits`** replaces the bits under it by the low bits of the value. -/
theorem writeBits_eq (h : b.Valid) (val : BitVec 64) (hn : 0 < n) (hn' : n ≤ 64)
    (hlen : b.pos + n ≤ 8 * b.bytes_.length) :
    ∃ bytes', b.writeBits val n = .ok (true, { b with bytes_ := bytes' }.moveTo (b.pos + n)) ∧
      bytes'.length = b.bytes_.length ∧ ∀ q, bitAt bytes' q =
        if b.pos ≤ q ∧ q < b.pos + n then val.getLsbD (b.pos + n - 1 - q)
        else bitAt b.bytes_ q := by
  obtain ⟨bytes', h₁, h₂⟩ := writeBits_spliced h val hn hn' hlen
  have hvalid : Valid { b with bytes_ := bytes' } :=
    ⟨by rw [h₂.length]; exact h.size, h.bit, by rw [h₂.length]; exact h.pos_le⟩
  refine ⟨bytes', ?_, h₂.length, fun q => ?_⟩
  · rw [h₁, consumeBits_eq hvalid (by rw [h₂.length]; exact hlen)]
    rfl
  · rw [h₂.bits]
    by_cases hq : b.pos ≤ q ∧ q < b.pos + n
    · rw [if_pos hq, if_pos hq, getMsbD_top val hn', if_pos (by omega)]
      congr 1
      omega
    · rw [if_neg hq, if_neg hq]

end BitBuffer

end RtcBase
