import RtcBase.BitBuffer.Calls
import RtcBase.Lib.Run

/-!
# The cursor over runs of calls

Any sequence of calls, that return true or false, on a buffer that starts as the constructor makes
it. Where `RTC_DCHECK`s are on, `WriteNonSymmetric` and `SizeNonSymmetricBits` abort for a value
that is not below `num_values`; where they are off, these go on with it.

* `Call.runIn`, `Call.InRange`, `step`: a call in either build, the arguments that a run may have,
  and what a call makes of the buffer;
* `Keeps`, `runIn_keeps`: a call returns with a valid cursor, or a value is out of its range;
* **`cursor_invariant`**: the cursor in every state of a run.
-/

namespace RtcBase

open Word Bits Run

namespace BitBuffer

variable {b b₁ : BitBuffer} {bytes : List (BitVec 8)} {n : ℕ}

/-! ## Calls -/

namespace Call

/-- A call with `RTC_DCHECK`s on or off. No check of the other functions fails in a call that is
`InRange`. -/
def runIn (dcheckIsOn : Bool) (b : BitBuffer) (c : Call) : Except Fault (Bool × BitBuffer) :=
  match c with
  | .writeNonSymmetric val num_values =>
    if dcheckIsOn then c.run b else b.writeNonSymmetricBody val num_values
  | .sizeNonSymmetricBits val num_values =>
    if dcheckIsOn then c.run b else (sizeNonSymmetricBody val num_values).map fun _ => (true, b)
  | _ => c.run b

/-- Bit counts from 1 on, at most 64 for `WriteBits`, and `num_values` from 2 to below `2 ^ 31`. -/
def InRange : Call → Prop
  | .peekBits _ bit_count | .readBits _ bit_count | .consumeBits bit_count => 1 ≤ bit_count
  | .writeBits _ bit_count => 1 ≤ bit_count ∧ bit_count ≤ 64
  | .readNonSymmetric _ num_values | .writeNonSymmetric _ num_values
  | .sizeNonSymmetricBits _ num_values => 2 ≤ num_values.toNat ∧ num_values.toNat < 2 ^ 31
  | _ => True

/-- `RTC_DCHECK_LT(val, num_values)` fails. -/
def OutOfValues : Call → Prop
  | .writeNonSymmetric val num_values | .sizeNonSymmetricBits val num_values => ¬ val < num_values
  | _ => False

end Call

/-- A call as a step, which has no result where the call has none. -/
def step (dcheckIsOn : Bool) (b : BitBuffer) (c : Call) : Option BitBuffer :=
  (c.runIn dcheckIsOn b).toOption.map Prod.snd

/-! ## What a call keeps -/

/-- A call that returns, with a valid cursor in as many bytes. -/
def Keeps (b : BitBuffer) (x : Except Fault (Bool × BitBuffer)) : Prop :=
  ∃ r b', x = .ok (r, b') ∧ b'.Valid ∧ b'.byte_count_ = b.byte_count_

theorem keeps_self (hb : b.Valid) (r : Bool) : Keeps b (.ok (r, b)) := ⟨r, b, rfl, hb, rfl⟩

theorem Settles.keeps {x : Except Fault (Bool × BitBuffer)} (h : Settles b x) (hb : b.Valid) :
    Keeps b x := by
  obtain rfl | ⟨b', hx, hvalid⟩ := h
  · exact keeps_self hb false
  · exact ⟨true, b', hx, hvalid⟩

/-- Also where the code breaks off, which moves the cursor. -/
theorem keeps_readNonSymmetric (hb : b.Valid) (val : BitVec 32) {num_values : BitVec 32}
    (h₁ : 2 ≤ num_values.toNat) (h₂ : num_values.toNat < 2 ^ 31) :
    Keeps b (dropValue (b.readNonSymmetric val num_values)) := by
  obtain ⟨m, k, hm, hk⟩ := readNonSymmetric_split h₁ h₂
  rw [readNonSymmetric_of_bits hb val h₁ h₂ hm hk]
  split_ifs with hlen hshort hlong
  · exact keeps_self hb false
  · exact (settles_moveTo hb rfl (by omega)).keeps hb
  · exact (settles_moveTo hb rfl hlong).keeps hb
  · exact ⟨false, _, rfl, valid_moveTo hb (by omega), rfl⟩

theorem keeps_writeNonSymmetricBody (hb : b.Valid) (val : BitVec 32) {num_values : BitVec 32}
    (h₁ : 2 ≤ num_values.toNat) (h₂ : num_values.toNat < 2 ^ 31) :
    Keeps b (b.writeNonSymmetricBody val num_values) := by
  obtain ⟨hshift, -, hs₁, hs₂, -⟩ := minBits_eq h₁ h₂
  have hsub := sizeSub_of_le (x := num_values.toNat.size) (y := 1) (by omega) (by omega)
  rw [writeNonSymmetricBody]
  simp only [countBits_setWidth, hshift, ok_bind, hsub]
  split_ifs
  · exact (settles_writeBits hb _ (.inr ⟨by omega, by omega⟩)).keeps hb
  · exact (settles_writeBits hb _ (.inr ⟨by omega, by omega⟩)).keeps hb

/-- **What a call keeps.** It returns with a valid cursor, or a check of its value fails. -/
theorem runIn_keeps (dcheckIsOn : Bool) (hb : b.Valid) {c : Call} (hc : c.InRange) :
    Keeps b (c.runIn dcheckIsOn b) ∨
      dcheckIsOn = true ∧ c.OutOfValues ∧ c.runIn dcheckIsOn b = .error .dcheck := by
  have hsettles : c.WellDefined b → c.Admitted → ¬ c.Truncated b → Keeps b (c.run b) :=
    fun hwell hadm ht => (run_settles hb hwell hadm ht).keeps hb
  cases c with
  | peekBits val bit_count => exact .inl (hsettles trivial hc id)
  | readBits val bit_count => exact .inl (hsettles hc trivial id)
  | readNonSymmetric val num_values => exact .inl (keeps_readNonSymmetric hb val hc.1 hc.2)
  | writeBits val bit_count => exact .inl (hsettles (.inr hc) trivial id)
  | writeNonSymmetric val num_values =>
    have hbody := keeps_writeNonSymmetricBody hb val hc.1 hc.2
    cases dcheckIsOn with
    | false => exact .inl hbody
    | true =>
      change Keeps b (b.writeNonSymmetric val num_values) ∨
        _ ∧ _ ∧ b.writeNonSymmetric val num_values = _
      have hchecked : b.writeNonSymmetric val num_values = _ := checked_eq hc.2 _
      rw [hchecked]
      split_ifs with hlt
      · exact .inl hbody
      · exact .inr ⟨rfl, hlt, rfl⟩
  | sizeNonSymmetricBits val num_values =>
    obtain ⟨size, hsize⟩ := sizeNonSymmetricBody_ok val hc.2
    cases dcheckIsOn with
    | false =>
      left
      change Keeps b ((sizeNonSymmetricBody val num_values).map fun _ => (true, b))
      rw [hsize]
      exact keeps_self hb true
    | true =>
      change Keeps b ((BitBuffer.sizeNonSymmetricBits val num_values).map fun _ => (true, b)) ∨
        _ ∧ _ ∧ (BitBuffer.sizeNonSymmetricBits val num_values).map _ = _
      rw [sizeNonSymmetricBits_eq val hc.2, hsize]
      split_ifs with hlt
      · exact .inl (keeps_self hb true)
      · exact .inr ⟨rfl, hlt, rfl⟩
  | _ => exact .inl (hsettles trivial trivial id)

/-! ## Runs -/

theorem new_valid (hsize : bytes.length < 2 ^ 61) : (new bytes).Valid :=
  ⟨hsize, Nat.zero_le 7, Nat.zero_le _⟩

/-- **One step.** -/
theorem step_keeps {dcheckIsOn : Bool} (hb : b.Valid) {c : Call} (hc : c.InRange)
    (h : step dcheckIsOn b c = some b₁) : b₁.Valid ∧ b₁.byte_count_ = b.byte_count_ := by
  rw [step] at h
  obtain ⟨r, b', hrun, hvalid⟩ | ⟨-, -, hrun⟩ := runIn_keeps dcheckIsOn hb hc
  · rw [hrun] at h
    cases h
    exact hvalid
  · rw [hrun] at h
    cases h

theorem exec_keeps {dcheckIsOn : Bool} {calls : List Call} (hb : b.Valid)
    (hcalls : ∀ c ∈ calls, c.InRange) (h : exec (step dcheckIsOn) b calls = some b₁) :
    b₁.Valid ∧ b₁.byte_count_ = b.byte_count_ := by
  refine invariant_along (fun b' => b'.Valid ∧ b'.byte_count_ = b.byte_count_) ?_ ⟨hb, rfl⟩ h
    (along_of_forall hcalls)
  intro b' c b'' hb' hc hstep
  have hkeeps := step_keeps hb'.1 hc hstep
  exact ⟨hkeeps.1, hkeeps.2.trans hb'.2⟩

theorem seek_of_valid (hb : b.Valid) (h : b₁.byte_count_ = b.byte_count_) :
    b₁.seek b.byte_offset_ b.bit_offset_ =
      (true, { b₁ with byte_offset_ := b.byte_offset_, bit_offset_ := b.bit_offset_ }) := by
  have hbit := hb.bit
  have hpos := hb.pos_le
  unfold pos at hpos
  have hcount : b.byte_count_ = b.bytes_.length := rfl
  rw [seek, h, if_neg (by omega)]

/-- **The cursor invariant.** After any calls in their ranges, the cursor is in the buffer, and at
bit 0 behind its last byte; `RemainingBitCount` does not underflow and is what lies behind the
cursor; `Seek` goes back to any cursor that the run has passed; and no call accesses a byte outside
the buffer, nor fails in another way than by the check of its value. -/
theorem cursor_invariant (dcheckIsOn : Bool) {calls calls₁ : List Call}
    (hsize : bytes.length < 2 ^ 61) (hcalls : ∀ c ∈ calls ++ calls₁, c.InRange)
    (h : exec (step dcheckIsOn) (new bytes) calls = some b)
    (h₁ : exec (step dcheckIsOn) b calls₁ = some b₁) :
    (b₁.byte_count_ = bytes.length ∧ b₁.bit_offset_ ≤ 7 ∧ b₁.byte_offset_ ≤ b₁.byte_count_ ∧
      (b₁.byte_offset_ = b₁.byte_count_ → b₁.bit_offset_ = 0)) ∧
    (b₁.bit_offset_ ≤ (b₁.byte_count_ - b₁.byte_offset_) * 8 ∧
      b₁.remainingBitCount = 8 * b₁.byte_count_ - (8 * b₁.byte_offset_ + b₁.bit_offset_)) ∧
    b₁.seek b.getCurrentOffset.1 b.getCurrentOffset.2 =
      (true, { b₁ with byte_offset_ := b.byte_offset_, bit_offset_ := b.bit_offset_ }) ∧
    ∀ c : Call, c.InRange → c.runIn dcheckIsOn b₁ ≠ .error .index ∧
      ((∃ r, c.runIn dcheckIsOn b₁ = .ok r) ∨
        dcheckIsOn = true ∧ c.OutOfValues ∧ c.runIn dcheckIsOn b₁ = .error .dcheck) := by
  obtain ⟨hb, hcount⟩ := exec_keeps (new_valid hsize)
    (fun c hc => hcalls c (List.mem_append_left _ hc)) h
  obtain ⟨hb₁, hcount₁⟩ := exec_keeps hb (fun c hc => hcalls c (List.mem_append_right _ hc)) h₁
  have hbit := hb₁.bit
  have hpos := hb₁.pos_le
  have hbytes : b₁.byte_count_ = b₁.bytes_.length := rfl
  have hrem := remainingBitCount_eq hb₁
  unfold pos at hpos hrem
  refine ⟨⟨hcount₁.trans hcount, hbit, by omega, by omega⟩, ⟨by omega, by omega⟩,
    seek_of_valid hb hcount₁, ?_⟩
  intro c hc
  obtain ⟨r, b', hrun, -⟩ | hbad := runIn_keeps dcheckIsOn hb₁ hc
  · refine ⟨?_, .inl ⟨_, hrun⟩⟩
    rw [hrun]
    intro h
    cases h
  · refine ⟨?_, .inr hbad⟩
    rw [hbad.2.2]
    intro h
    cases h

/-- A write and reads over the boundary of two bytes, a byte count that wraps around, a cursor
that `Seek` refuses, and the end of the buffer. -/
theorem cursor_invariant_sample :
    ∃ b b₁,
      exec (step true) (new [0xff, 0x01]) [.writeBits 5 6, .readExponentialGolomb 0] = some b ∧
      exec (step true) b [.readNonSymmetric 0 5, .consumeBytes (2 ^ 61), .seek 2 1, .seek 2 0] =
        some b₁ ∧
      b₁.remainingBitCount = 8 * b₁.byte_count_ - (8 * b₁.byte_offset_ + b₁.bit_offset_) ∧
      b₁.seek b.getCurrentOffset.1 b.getCurrentOffset.2 =
        (true, { b₁ with byte_offset_ := b.byte_offset_, bit_offset_ := b.bit_offset_ }) := by
  have hcalls : ∀ c ∈ ([.writeBits 5 6, .readExponentialGolomb 0] : List Call) ++
      [.readNonSymmetric 0 5, .consumeBytes (2 ^ 61), .seek 2 1, .seek 2 0], c.InRange := by
    simp [Call.InRange]
  have hsize : ([0xff, 0x01] : List (BitVec 8)).length < 2 ^ 61 := by decide
  have hinvariant := cursor_invariant true hsize hcalls rfl rfl
  exact ⟨_, _, rfl, rfl, hinvariant.2.1.2, hinvariant.2.2.1⟩

end BitBuffer

end RtcBase
