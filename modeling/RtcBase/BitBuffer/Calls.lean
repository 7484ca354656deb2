import RtcBase.BitBuffer.Fields

/-!
# Calls that fail and calls that do not return

* `Call`, `Call.run`, `Call.Admitted`: a call with its arguments, and the guards of its function;
* `Call.WellDefined`, `Call.Truncated`: the arguments for which a call returns, and the one kind
  of input on which a failed call leaves something behind;
* `Settles`, `run_settles`, `run_truncated`, `run_fault`: what a call does in each case;
* **`failed_restores_iff`**: a failed call changes nothing, unless it is `Truncated`;
* **`returns_iff`**: an admitted call returns if and only if it is `WellDefined`.
-/

namespace RtcBase

open Word Bits

namespace BitBuffer

variable {b : BitBuffer} {bytes : List (BitVec 8)} {n : ℕ}

/-- A call with its arguments. A read gets the old value of the variable that it reads into. -/
inductive Call where
  | peekBits (val : BitVec 32) (bit_count : ℕ)
  | readBits (val : BitVec 32) (bit_count : ℕ)
  | readUInt8 (val : BitVec 8)
  | readUInt16 (val : BitVec 16)
  | readUInt32 (val : BitVec 32)
  | readNonSymmetric (val num_values : BitVec 32)
  | readExponentialGolomb (val : BitVec 32)
  | readSignedExponentialGolomb (val : BitVec 32)
  | consumeBits (bit_count : ℕ)
  | consumeBytes (byte_count : ℕ)
  | seek (byte_offset bit_offset : ℕ)
  | writeBits (val : BitVec 64) (bit_count : ℕ)
  | writeUInt8 (val : BitVec 8)
  | writeUInt16 (val : BitVec 16)
  | writeUInt32 (val : BitVec 32)
  | writeNonSymmetric (val num_values : BitVec 32)
  | sizeNonSymmetricBits (val num_values : BitVec 32)
  | writeExponentialGolomb (val : BitVec 32)
  | writeSignedExponentialGolomb (val : BitVec 32)
  deriving DecidableEq, Repr

/-- The result and the buffer, without the value. -/
def dropValue {α : Type} (x : Except Fault (Bool × α × BitBuffer)) :
    Except Fault (Bool × BitBuffer) :=
  x.map fun r => (r.1, r.2.2)

namespace Call

/-- A call, with what it returns; the value that it reads is dropped. -/
def run (b : BitBuffer) : Call → Except Fault (Bool × BitBuffer)
  | .peekBits val bit_count => (b.peekBits val bit_count).map fun r => (r.1, b)
  | .readBits val bit_count => dropValue (b.readBits val bit_count)
  | .readUInt8 val => dropValue (b.readUInt8 val)
  | .readUInt16 val => dropValue (b.readUInt16 val)
  | .readUInt32 val => dropValue (b.readUInt32 val)
  | .readNonSymmetric val num_values => dropValue (b.readNonSymmetric val num_values)
  | .readExponentialGolomb val => dropValue (b.readExponentialGolomb val)
  | .readSignedExponentialGolomb val => dropValue (b.readSignedExponentialGolomb val)
  | .consumeBits bit_count => .ok (b.consumeBits bit_count)
  | .consumeBytes byte_count => .ok (b.consumeBytes byte_count)
  | .seek byte_offset bit_offset => .ok (b.seek byte_offset bit_offset)
  | .writeBits val bit_count => b.writeBits val bit_count
  | .writeUInt8 val => b.writeUInt8 val
  | .writeUInt16 val => b.writeUInt16 val
  | .writeUInt32 val => b.writeUInt32 val
  | .writeNonSymmetric val num_values => b.writeNonSymmetric val num_values
  | .sizeNonSymmetricBits val num_values =>
    (BitBuffer.sizeNonSymmetricBits val num_values).map fun _ => (true, b)
  | .writeExponentialGolomb val => b.writeExponentialGolomb val
  | .writeSignedExponentialGolomb val => b.writeSignedExponentialGolomb val

/-- The checks that the called function makes of its arguments. -/
def Admitted : Call → Prop
  | .peekBits _ bit_count => 0 < bit_count
  | .readNonSymmetric _ num_values => 0 < num_values.toNat ∧ num_values.toNat ≤ 2 ^ 31
  | .writeNonSymmetric val num_values | .sizeNonSymmetricBits val num_values =>
    val < num_values ∧ num_values.toNat ≤ 2 ^ 31
  | _ => True

/-- No width of zero or above 64 bits, and no `num_values` at an end of its range. -/
def WellDefined (b : BitBuffer) : Call → Prop
  | .readBits _ bit_count => 0 < bit_count
  | .readNonSymmetric _ num_values | .writeNonSymmetric _ num_values =>
    2 ≤ num_values.toNat ∧ num_values.toNat < 2 ^ 31
  | .sizeNonSymmetricBits _ num_values => num_values.toNat < 2 ^ 31
  | .writeBits _ bit_count =>
    b.remainingBitCount < bit_count ∨ 1 ≤ bit_count ∧ bit_count ≤ 64
  | _ => True

/-- The buffer ends one bit before the end of a long non-symmetric code. -/
def Truncated (b : BitBuffer) : Call → Prop
  | .readNonSymmetric _ num_values =>
    b.remainingBitCount + 1 = countBits (num_values.setWidth 64) ∧
      2 ^ countBits (num_values.setWidth 64) - num_values.toNat ≤
        value (bitAt b.bytes_) b.pos b.remainingBitCount
  | _ => False

end Call

/-! ## Calls that change nothing when they fail -/

/-- A result of true, or of false with the buffer as it was. -/
def Restores (b : BitBuffer) (x : Except Fault (Bool × BitBuffer)) : Prop :=
  x = .ok (false, b) ∨ ∃ b', x = .ok (true, b')

/-- A result of false with the buffer as it was, or of true with a valid cursor in as many
bytes. -/
def Settles (b : BitBuffer) (x : Except Fault (Bool × BitBuffer)) : Prop :=
  x = .ok (false, b) ∨ ∃ b', x = .ok (true, b') ∧ b'.Valid ∧ b'.byte_count_ = b.byte_count_

theorem Settles.restores {x : Except Fault (Bool × BitBuffer)} (h : Settles b x) :
    Restores b x := by
  obtain h | ⟨b', h, -⟩ := h
  · exact .inl h
  · exact .inr ⟨b', h⟩

theorem settles_self (hb : b.Valid) : Settles b (.ok (true, b)) := .inr ⟨b, rfl, hb, rfl⟩

theorem valid_bytes (hb : b.Valid) (hlen : bytes.length = b.bytes_.length) :
    Valid { b with bytes_ := bytes } :=
  ⟨by rw [hlen]; exact hb.size, hb.bit, by rw [hlen]; exact hb.pos_le⟩

theorem settles_moveTo (hb : b.Valid) {p : ℕ} (hlen : bytes.length = b.bytes_.length)
    (hp : p ≤ 8 * b.bytes_.length) :
    Settles b (.ok (true, { b with bytes_ := bytes }.moveTo p)) :=
  .inr ⟨_, rfl, valid_moveTo (valid_bytes hb hlen) (by rw [hlen]; exact hp), hlen⟩

theorem settles_readBits (hb : b.Valid) (val : BitVec 32) (hn : 0 < n) :
    Settles b (dropValue (b.readBits val n)) := by
  by_cases hc : 8 * b.bytes_.length < b.pos + n ∨ 32 < n
  · rw [readBits_false hb val hn hc]
    exact .inl rfl
  · rw [readBits_eq hb val hn (by omega) (by omega)]
    exact settles_moveTo hb rfl (by omega)

theorem settles_readExponentialGolomb (hb : b.Valid) (val : BitVec 32) :
    Settles b (dropValue (b.readExponentialGolomb val)) := by
  have hpos := hb.pos_le
  obtain ⟨z, hz, hzero, hstop⟩ :=
    exists_zeros (bitAt b.bytes_) b.pos (8 * b.bytes_.length - b.pos)
  rw [readExponentialGolomb_of_zeros hb val hzero (hstop.imp id (by omega)) (by omega)]
  split_ifs with hlen
  · exact settles_moveTo hb rfl hlen.2
  · exact .inl rfl

theorem settles_readSigned (hb : b.Valid) (val : BitVec 32) :
    Settles b (dropValue (b.readSignedExponentialGolomb val)) := by
  have h := settles_readExponentialGolomb hb 0
  rw [readSignedExponentialGolomb]
  cases hread : b.readExponentialGolomb 0 with
  | error e =>
    rw [hread] at h
    obtain h | ⟨b', h, -⟩ := h <;> cases h
  | ok r =>
    obtain ⟨read, unsigned_val, b₁⟩ := r
    rw [hread] at h
    obtain h | ⟨b', h, hvalid⟩ := h
    · cases h
      exact .inl rfl
    · cases h
      right
      simp only [ok_bind, Bool.not_true, Bool.false_eq_true, if_false]
      split_ifs
      · exact ⟨_, rfl, hvalid⟩
      · exact ⟨_, rfl, hvalid⟩

theorem settles_consumeBits (hb : b.Valid) (bit_count : ℕ) :
    Settles b (.ok (b.consumeBits bit_count)) := by
  have hrem := remainingBitCount_eq hb
  have hpos := hb.pos_le
  by_cases hc : b.remainingBitCount < bit_count
  · rw [consumeBits, if_pos hc]
    exact .inl rfl
  · rw [consumeBits_eq hb (by omega)]
    exact settles_moveTo hb rfl (by omega)

theorem settles_seek (hb : b.Valid) (byte_offset bit_offset : ℕ) :
    Settles b (.ok (b.seek byte_offset bit_offset)) := by
  cases hs : b.seek byte_offset bit_offset with
  | mk r b' =>
    cases r with
    | true =>
      obtain ⟨hvalid, hbytes, -⟩ := seek_valid hb.size rfl hs
      exact .inr ⟨b', rfl, hvalid, congrArg List.length hbytes⟩
    | false =>
      rw [seek] at hs
      split_ifs at hs
      · cases hs
        exact .inl rfl
      · cases (Prod.mk.inj hs).1

theorem settles_writeBits (hb : b.Valid) (val : BitVec 64)
    (hn : 8 * b.bytes_.length < b.pos + n ∨ 0 < n ∧ n ≤ 64) : Settles b (b.writeBits val n) := by
  by_cases hc : 8 * b.bytes_.length < b.pos + n
  · exact .inl (writeBits_false val hb hc)
  · obtain ⟨h₁, h₂⟩ := hn.resolve_left hc
    obtain ⟨bytes', hwrite, hlen, -⟩ := writeBits_eq hb val h₁ h₂ (by omega)
    rw [hwrite]
    exact settles_moveTo hb hlen (by omega)

theorem settles_write (hb : b.Valid) {f : Field} (hf : f.Valid) : Settles b (f.write b) := by
  obtain ⟨hwrite, h₁, h₂, -⟩ := write_code (b := b) hf
  rw [hwrite]
  exact settles_writeBits hb _ (.inr ⟨h₁, by omega⟩)

theorem settles_writeExponentialGolomb (hb : b.Valid) (val : BitVec 32) :
    Settles b (b.writeExponentialGolomb val) := by
  by_cases hmax : val = BitVec.allOnes 32
  · rw [writeExponentialGolomb, if_pos hmax]
    exact .inl rfl
  · have hne : val.toNat ≠ 2 ^ 32 - 1 := fun h => hmax (BitVec.eq_of_toNat_eq h)
    have hlt := val.isLt
    exact settles_write hb (f := .exponentialGolomb val) (by change val.toNat < 2 ^ 32 - 1; omega)

theorem settles_writeSigned (hb : b.Valid) (val : BitVec 32) :
    Settles b (b.writeSignedExponentialGolomb val) := by
  unfold writeSignedExponentialGolomb
  split_ifs
  · exact settles_writeExponentialGolomb hb _
  · exact settles_writeExponentialGolomb hb _
  · exact .inl rfl
  · exact settles_writeExponentialGolomb hb _

theorem sizeNonSymmetricBody_ok (val : BitVec 32) {num_values : BitVec 32}
    (h₂ : num_values.toNat < 2 ^ 31) :
    ∃ size, sizeNonSymmetricBody val num_values = .ok size := by
  have hsize : num_values.toNat.size ≤ 31 := Nat.size_le.mpr h₂
  simp only [sizeNonSymmetricBody, countBits_setWidth, shiftLeft]
  rw [if_pos (by omega)]
  exact ⟨_, rfl⟩

/-- The checks of the two functions, and what they do after them. -/
theorem checked_eq {α : Type} {val num_values : BitVec 32} (h₂ : num_values.toNat < 2 ^ 31)
    (body : Except Fault α) :
    (do dcheck (val < num_values)
        dcheck (num_values.toNat ≤ 2 ^ 31)
        body) = if val < num_values then body else .error .dcheck := by
  split_ifs with hlt
  · rw [dcheck_true (decide_eq_true hlt), dcheck_true (decide_eq_true h₂.le)]
    rfl
  · rw [dcheck, if_neg (by simpa using hlt)]
    rfl

theorem sizeNonSymmetricBits_eq (val : BitVec 32) {num_values : BitVec 32}
    (h₂ : num_values.toNat < 2 ^ 31) : sizeNonSymmetricBits val num_values =
      if val < num_values then sizeNonSymmetricBody val num_values else .error .dcheck :=
  checked_eq h₂ _

theorem run_settles (hb : b.Valid) {c : Call} (hc : c.WellDefined b) (hadm : c.Admitted)
    (ht : ¬ c.Truncated b) : Settles b (c.run b) := by
  cases c with
  | peekBits val bit_count =>
    by_cases hlen : 8 * b.bytes_.length < b.pos + bit_count ∨ 32 < bit_count
    · rw [Call.run, peekBits_false hb val hadm hlen]
      exact .inl rfl
    · rw [Call.run, peekBits_eq hb val hadm (by omega) (by omega)]
      exact settles_self hb
  | readBits val bit_count => exact settles_readBits hb val hc
  | readUInt8 val =>
    rw [Call.run, readUInt8_of_bits hb]
    split_ifs
    · exact .inl rfl
    · exact settles_moveTo hb rfl (by omega)
  | readUInt16 val =>
    rw [Call.run, readUInt16_of_bits hb]
    split_ifs
    · exact .inl rfl
    · exact settles_moveTo hb rfl (by omega)
  | readUInt32 val => exact settles_readBits hb val (by decide)
  | readNonSymmetric val num_values =>
    obtain ⟨m, k, hm, hk⟩ := readNonSymmetric_split hc.1 hc.2
    have hrem := remainingBitCount_eq hb
    rw [Call.run, readNonSymmetric_of_bits hb val hc.1 hc.2 hm hk]
    split_ifs with h₁ h₂ h₃
    · exact .inl rfl
    · exact settles_moveTo hb rfl (by omega)
    · exact settles_moveTo hb rfl h₃
    · refine absurd ⟨?_, ?_⟩ ht
      · rw [countBits_setWidth]
        omega
      · rw [countBits_setWidth, ← hm, show b.remainingBitCount = m by omega]
        omega
  | readExponentialGolomb val => exact settles_readExponentialGolomb hb val
  | readSignedExponentialGolomb val => exact settles_readSigned hb val
  | consumeBits bit_count => exact settles_consumeBits hb bit_count
  | consumeBytes byte_count => exact settles_consumeBits hb _
  | seek byte_offset bit_offset => exact settles_seek hb byte_offset bit_offset
  | writeBits val bit_count =>
    refine settles_writeBits hb val ?_
    rw [Call.WellDefined, remainingBitCount_eq hb] at hc
    omega
  | writeUInt8 val => exact settles_writeBits hb _ (.inr (by decide))
  | writeUInt16 val => exact settles_writeBits hb _ (.inr (by decide))
  | writeUInt32 val => exact settles_writeBits hb _ (.inr (by decide))
  | writeNonSymmetric val num_values =>
    exact settles_write hb (f := .nonSymmetric num_values val) ⟨hadm.1, hc.1, hc.2⟩
  | sizeNonSymmetricBits val num_values =>
    obtain ⟨size, hsize⟩ := sizeNonSymmetricBody_ok val hc
    rw [Call.run, sizeNonSymmetricBits_eq val hc, if_pos hadm.1, hsize]
    exact settles_self hb
  | writeExponentialGolomb val => exact settles_writeExponentialGolomb hb val
  | writeSignedExponentialGolomb val => exact settles_writeSigned hb val

/-- **A call that returns** with false leaves the buffer as it was. -/
theorem run_restores (hb : b.Valid) {c : Call} (hc : c.WellDefined b) (hadm : c.Admitted)
    (ht : ¬ c.Truncated b) : Restores b (c.run b) := (run_settles hb hc hadm ht).restores

/-! ## The call that leaves something behind -/

theorem wellDefined_of_truncated {c : Call} (hadm : c.Admitted) (ht : c.Truncated b) :
    c.WellDefined b := by
  cases c with
  | readNonSymmetric val num_values =>
    obtain ⟨h₁, h₂⟩ := ht
    rw [countBits_setWidth] at h₁ h₂
    have hlt := value_lt (bitAt b.bytes_) b.pos b.remainingBitCount
    have hpow := Nat.lt_size_self num_values.toNat
    have hle := hadm.2
    rw [← h₁, pow_succ] at h₂ hpow
    -- the number of values is above the power of two that the short codes end at
    have hge : 2 ^ b.remainingBitCount < num_values.toNat := by omega
    have hpos := Nat.two_pow_pos b.remainingBitCount
    have hrem : b.remainingBitCount < 31 :=
      (Nat.pow_lt_pow_iff_right (by decide)).mp (hge.trans_le hle)
    have hbig : 2 ^ b.remainingBitCount ≤ 2 ^ 30 := Nat.pow_le_pow_right (by decide) (by omega)
    exact ⟨by omega, by omega⟩
  | _ => exact ht.elim

theorem run_truncated (hb : b.Valid) {c : Call} (hadm : c.Admitted) (ht : c.Truncated b) :
    ∃ b', c.run b = .ok (false, b') ∧ b' ≠ b := by
  have hc := wellDefined_of_truncated hadm ht
  cases c with
  | readNonSymmetric val num_values =>
    obtain ⟨m, k, hm, hk⟩ := readNonSymmetric_split hc.1 hc.2
    obtain ⟨h₁, h₂⟩ := ht
    have hrem := remainingBitCount_eq hb
    have hpos := hb.pos_le
    have hsize := (minBits_eq hc.1 hc.2).2.2.1
    rw [countBits_setWidth, ← hm] at h₁ h₂
    rw [show b.remainingBitCount = m by omega] at h₂
    rw [Call.run, readNonSymmetric_of_bits hb val hc.1 hc.2 hm hk, if_neg (by omega),
      if_neg (by omega), if_neg (by omega)]
    refine ⟨_, rfl, fun he => ?_⟩
    have := congrArg pos he
    rw [moveTo_pos] at this
    omega
  | _ => exact ht.elim

/-! ## Calls that do not return -/

theorem writeBits_fault (hb : b.Valid) (val : BitVec 64) (h₁ : ¬ b.remainingBitCount < n)
    (h₂ : ¬ (1 ≤ n ∧ n ≤ 64)) : b.writeBits val n = .error .shift := by
  have hrem := remainingBitCount_eq hb
  have hsize := hb.size
  have hshift : ¬ sizeSub 64 n < 64 := by
    unfold sizeSub
    omega
  rw [writeBits, if_neg h₁, shiftLeft, if_neg hshift]
  rfl

theorem shiftLeft_fault {num_values : BitVec 32} (h : num_values.toNat = 2 ^ 31) :
    shiftLeft 1#32 num_values.toNat.size = .error .shift := by
  have hsize : num_values.toNat.size = 32 := by rw [h, Nat.size_pow]
  rw [hsize]
  rfl

theorem run_fault (hb : b.Valid) {c : Call} (hadm : c.Admitted) (hc : ¬ c.WellDefined b) :
    ∃ e, c.run b = .error e := by
  cases c with
  | readBits val bit_count =>
    obtain rfl : bit_count = 0 := Nat.eq_zero_of_not_pos hc
    exact ⟨.dcheck, rfl⟩
  | readNonSymmetric val num_values =>
    by_cases hmax : num_values.toNat = 2 ^ 31
    · refine ⟨.shift, ?_⟩
      rw [Call.run, readNonSymmetric, dcheck_true (decide_eq_true hadm.1),
        dcheck_true (decide_eq_true hadm.2)]
      simp only [ok_bind, countBits_setWidth, shiftLeft_fault hmax]
      rfl
    · -- one value has a code of no bits
      obtain ⟨h₁, h₂⟩ := hadm
      have hone : num_values.toNat = 1 := by
        rw [Call.WellDefined] at hc
        omega
      obtain rfl : num_values = 1#32 := BitVec.eq_of_toNat_eq hone
      exact ⟨.dcheck, rfl⟩
  | writeBits val bit_count =>
    rw [Call.WellDefined, not_or] at hc
    exact ⟨.shift, writeBits_fault hb val hc.1 hc.2⟩
  | writeNonSymmetric val num_values =>
    by_cases hmax : num_values.toNat = 2 ^ 31
    · refine ⟨.shift, ?_⟩
      rw [Call.run, writeNonSymmetric, dcheck_true (decide_eq_true hadm.1),
        dcheck_true (decide_eq_true hadm.2)]
      simp only [writeNonSymmetricBody, ok_bind, countBits_setWidth, shiftLeft_fault hmax]
      rfl
    · obtain ⟨h₁, h₂⟩ := hadm
      rw [BitVec.lt_def] at h₁
      have hone : num_values.toNat = 1 := by
        rw [Call.WellDefined] at hc
        omega
      obtain rfl : num_values = 1#32 := BitVec.eq_of_toNat_eq hone
      obtain rfl : val = 0#32 := BitVec.eq_of_toNat_eq (Nat.lt_one_iff.mp h₁)
      exact ⟨.shift, writeBits_fault hb 0 (Nat.not_lt_zero _) (by decide)⟩
  | sizeNonSymmetricBits val num_values =>
    have hmax : num_values.toNat = 2 ^ 31 := le_antisymm hadm.2 (not_lt.mp hc)
    refine ⟨.shift, ?_⟩
    rw [Call.run, BitBuffer.sizeNonSymmetricBits, dcheck_true (decide_eq_true hadm.1),
      dcheck_true (decide_eq_true hadm.2)]
    simp only [sizeNonSymmetricBody, ok_bind, countBits_setWidth, shiftLeft_fault hmax]
    rfl
  | _ => exact absurd trivial hc

/-! ## Main results -/

/-- **All or nothing.** A call that returns false leaves cursor and bytes as they were, unless it
reads a long non-symmetric code that the buffer breaks off before its extra bit. -/
theorem failed_restores_iff (hb : b.Valid) {c : Call} (hadm : c.Admitted) :
    (∀ b', c.run b = .ok (false, b') → b' = b) ↔ ¬ c.Truncated b := by
  refine ⟨fun h ht => ?_, fun ht b' hrun => ?_⟩
  · obtain ⟨b', hrun, hne⟩ := run_truncated hb hadm ht
    exact hne (h b' hrun)
  · by_cases hc : c.WellDefined b
    · obtain h | ⟨b'', h⟩ := run_restores hb hc hadm ht
      · rw [h] at hrun
        cases hrun
        rfl
      · rw [h] at hrun
        cases hrun
    · obtain ⟨e, h⟩ := run_fault hb hadm hc
      rw [h] at hrun
      cases hrun

/-- A code that breaks off one bit earlier, and a write that does not fit. -/
theorem failed_restores_sample :
    (∀ b', (Call.readNonSymmetric 7 5).run ⟨[0xff], 0, 7⟩ = .ok (false, b') →
      b' = ⟨[0xff], 0, 7⟩) ∧
    ∀ b', (Call.writeExponentialGolomb 6).run ⟨[0xff], 0, 4⟩ = .ok (false, b') →
      b' = ⟨[0xff], 0, 4⟩ := by
  have h₁ : (Call.readNonSymmetric 7 5).Admitted := ⟨by decide, by decide⟩
  have h₂ : (Call.writeExponentialGolomb 6).Admitted := trivial
  have ht : ¬ (Call.readNonSymmetric 7 5).Truncated ⟨[0xff], 0, 7⟩ := by
    rintro ⟨h, -⟩
    exact absurd h (by decide)
  exact ⟨(failed_restores_iff ⟨by decide, by decide, by decide⟩ h₁).mpr ht,
    (failed_restores_iff ⟨by decide, by decide, by decide⟩ h₂).mpr id⟩

/-- The two bits 11 start a code of three bits among five values, and the third is missing. -/
theorem failed_moves :
    (⟨[0xff], 0, 6⟩ : BitBuffer).Valid ∧ (Call.readNonSymmetric 0 5).Admitted ∧
      (Call.readNonSymmetric 0 5).run ⟨[0xff], 0, 6⟩ = .ok (false, ⟨[0xff], 1, 0⟩) :=
  ⟨⟨by decide, by decide, by decide⟩, ⟨by decide, by decide⟩, rfl⟩

/-- **Which calls are well defined.** -/
theorem returns_iff (hb : b.Valid) {c : Call} (hadm : c.Admitted) :
    (∃ r, c.run b = .ok r) ↔ c.WellDefined b := by
  refine ⟨fun h => ?_, fun hc => ?_⟩
  · by_contra hc
    obtain ⟨r, h⟩ := h
    obtain ⟨e, he⟩ := run_fault hb hadm hc
    rw [he] at h
    cases h
  · by_cases ht : c.Truncated b
    · obtain ⟨b', h, -⟩ := run_truncated hb hadm ht
      exact ⟨_, h⟩
    · obtain h | ⟨b', h⟩ := run_restores hb hc hadm ht
      · exact ⟨_, h⟩
      · exact ⟨_, h⟩

/-- Writing in the middle of a byte, at the end of the buffer, and with two values. -/
theorem returns_sample :
    (∃ r, (Call.writeBits 21 5).run ⟨[0x80, 0x01], 0, 6⟩ = .ok r) ∧
      (∃ r, (Call.writeBits 21 65).run ⟨[0x80, 0x01], 2, 0⟩ = .ok r) ∧
      ∃ r, (Call.writeNonSymmetric 1 2).run ⟨[0x80, 0x01], 0, 6⟩ = .ok r := by
  have h₁ : (Call.writeBits 21 5).Admitted := trivial
  have h₂ : (Call.writeBits 21 65).Admitted := trivial
  have h₃ : (Call.writeNonSymmetric 1 2).Admitted := ⟨by decide, by decide⟩
  refine ⟨(returns_iff ⟨by decide, by decide, by decide⟩ h₁).mpr ?_,
    (returns_iff ⟨by decide, by decide, by decide⟩ h₂).mpr ?_,
    (returns_iff ⟨by decide, by decide, by decide⟩ h₃).mpr ?_⟩
  · exact .inr (by decide)
  · exact .inl (by decide)
  · exact ⟨by decide, by decide⟩

/-- Admitted calls that peek at no bits, or shift by the width or more. -/
theorem faults :
    (⟨[0, 0], 0, 0⟩ : BitBuffer).Valid ∧ (Call.readNonSymmetric 0 1).Admitted ∧
      (Call.readNonSymmetric 0 1).run ⟨[0, 0], 0, 0⟩ = .error .dcheck ∧
      (Call.writeNonSymmetric 0 (2 ^ 31)).Admitted ∧
      (Call.writeNonSymmetric 0 (2 ^ 31)).run ⟨[0, 0], 0, 0⟩ = .error .shift ∧
      (Call.writeBits 0 0).Admitted ∧
      (Call.writeBits 0 0).run ⟨[0, 0], 0, 0⟩ = .error .shift :=
  ⟨⟨by decide, by decide, by decide⟩, ⟨by decide, by decide⟩, rfl, ⟨by decide, by decide⟩, rfl,
    trivial, rfl⟩

end BitBuffer

end RtcBase
