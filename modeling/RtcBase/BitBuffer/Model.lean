import RtcBase.Lib.Bits
import RtcBase.Lib.Word

/-!
# `BitBuffer` and `BitBufferWriter`

The functions of `bit_buffer.cc`. Bytes and values have the width of their C++ type; offsets and
counts are `size_t`. Out parameters point to a variable: its old value is an argument, its new
value a result.

* `Fault`: what ends a call without a result;
* `lowestBits`, `highestBits`, `highestByte`, `writePartialByte`, `countBits`: the helpers;
* `peekBits`, `readBits`, `readNonSymmetric`, `readExponentialGolomb`: reading;
* `writeBits`, `writeNonSymmetric`, `writeExponentialGolomb`: writing.
-/

namespace RtcBase

open Word

/-- A failed `RTC_DCHECK` or `RTC_CHECK`, a shift by the width or more, an index outside the
buffer. -/
inductive Fault where
  | dcheck
  | check
  | shift
  | index
  deriving DecidableEq, Repr

/-- `bytes_` is the whole buffer, and `byte_count_` its length. -/
structure BitBuffer where
  bytes_ : List (BitVec 8)
  byte_offset_ : ℕ
  bit_offset_ : ℕ
  deriving DecidableEq, Repr

namespace BitBuffer

/-! ## The helpers -/

/-- `RTC_DCHECK`. -/
def dcheck (p : Bool) : Except Fault Unit := if p then .ok () else .error .dcheck

/-- A shift, which C++ leaves undefined from the width on. -/
def shiftLeft {w : ℕ} (x : BitVec w) (n : ℕ) : Except Fault (BitVec w) :=
  if n < w then .ok (x <<< n) else .error .shift

/-- The byte at an index. -/
def byteAt (bytes : List (BitVec 8)) (i : ℕ) : Except Fault (BitVec 8) :=
  match bytes[i]? with
  | some byte => .ok byte
  | none => .error .index

/-- The `bit_count` lowest bits of a byte. -/
def lowestBits (byte : BitVec 8) (bit_count : ℕ) : Except Fault (BitVec 8) := do
  dcheck (bit_count ≤ 8)
  return byte &&& ((1#32 <<< bit_count) - 1).setWidth 8

/-- The `bit_count` highest bits of a byte, shifted down. -/
def highestBits (byte : BitVec 8) (bit_count : ℕ) : Except Fault (BitVec 8) := do
  dcheck (bit_count ≤ 8)
  let shift := 8 - bit_count
  let mask := (0xFF#32 <<< shift).setWidth 8
  return (byte &&& mask) >>> shift

/-- The highest byte of a 64-bit value. -/
def highestByte (val : BitVec 64) : BitVec 8 := (val >>> 56).setWidth 8

/-- The highest bits of `source`, put into `target` from an offset on. -/
def writePartialByte (source : BitVec 8) (source_bit_count : ℕ) (target : BitVec 8)
    (target_bit_offset : ℕ) : Except Fault (BitVec 8) := do
  dcheck (target_bit_offset < 8)
  dcheck (source_bit_count < 9)
  dcheck (source_bit_count ≤ 8 - target_bit_offset)
  let mask := (0xFF#32 <<< (8 - source_bit_count)).setWidth 8 >>> target_bit_offset
  return (target &&& ~~~mask) ||| (source >>> target_bit_offset)

/-- The loop of `CountBits`; 64 turns empty a 64-bit value. -/
def countBitsLoop : ℕ → ℕ → BitVec 64 → ℕ
  | 0, bit_count, _ => bit_count
  | n + 1, bit_count, val =>
    if val ≠ 0 then countBitsLoop n (bit_count + 1) (val >>> 1) else bit_count

/-- How many bits a value takes, and none for 0. -/
def countBits (val : BitVec 64) : ℕ := countBitsLoop 64 0 val

/-! ## The cursor -/

/-- The constructor: the cursor is at the first bit. -/
def new (bytes : List (BitVec 8)) : BitBuffer := ⟨bytes, 0, 0⟩

/-- The size of the buffer. -/
def byte_count_ (b : BitBuffer) : ℕ := b.bytes_.length

/-- How many bits lie behind the cursor, by the arithmetic of `size_t`. -/
def remainingBitCount (b : BitBuffer) : ℕ :=
  sizeSub (sizeT (sizeSub b.byte_count_ b.byte_offset_ * 8)) b.bit_offset_

/-- The cursor moves on, unless fewer bits remain. -/
def consumeBits (b : BitBuffer) (bit_count : ℕ) : Bool × BitBuffer :=
  if b.remainingBitCount < bit_count then (false, b)
  else (true, { b with
    byte_offset_ := sizeT (b.byte_offset_ + sizeT (b.bit_offset_ + bit_count) / 8)
    bit_offset_ := sizeT (b.bit_offset_ + bit_count) % 8 })

/-- The count of bits wraps around like a `size_t`. -/
def consumeBytes (b : BitBuffer) (byte_count : ℕ) : Bool × BitBuffer :=
  b.consumeBits (sizeT (byte_count * 8))

/-- The byte and the bit of the cursor. -/
def getCurrentOffset (b : BitBuffer) : ℕ × ℕ := (b.byte_offset_, b.bit_offset_)

/-- The cursor moves to an offset, unless that is behind the end. -/
def seek (b : BitBuffer) (byte_offset bit_offset : ℕ) : Bool × BitBuffer :=
  if b.byte_count_ < byte_offset ∨ 7 < bit_offset ∨
      (byte_offset = b.byte_count_ ∧ 0 < bit_offset) then (false, b)
  else (true, { b with byte_offset_ := byte_offset, bit_offset_ := bit_offset })

/-! ## Reading -/

/-- The loop of `PeekBits` over whole bytes, from byte `i` on. Every turn takes 8 off `bit_count`,
so `bit_count` turns are enough. -/
def peekLoop (bytes : List (BitVec 8)) :
    ℕ → BitVec 32 → ℕ → ℕ → Except Fault (BitVec 32 × ℕ × ℕ)
  | 0, bits, i, bit_count => .ok (bits, i, bit_count)
  | n + 1, bits, i, bit_count =>
    if 8 ≤ bit_count then do
      let byte ← byteAt bytes i
      peekLoop bytes n ((bits <<< 8) ||| byte.setWidth 32) (i + 1) (bit_count - 8)
    else .ok (bits, i, bit_count)

/-- The bits behind the cursor, which stays: the rest of its byte, whole bytes, and a part of
one. -/
def peekBits (b : BitBuffer) (val : BitVec 32) (bit_count : ℕ) :
    Except Fault (Bool × BitVec 32) := do
  dcheck (0 < bit_count)
  if b.remainingBitCount < bit_count ∨ 32 < bit_count then return (false, val)
  let remaining_bits_in_current_byte := sizeSub 8 b.bit_offset_
  let byte ← byteAt b.bytes_ b.byte_offset_
  let low ← lowestBits byte remaining_bits_in_current_byte
  let bits := low.setWidth 32
  if bit_count < remaining_bits_in_current_byte then
    let high ← highestBits (bits.setWidth 8) (b.bit_offset_ + bit_count)
    return (true, high.setWidth 32)
  let (bits, i, bit_count) ← peekLoop b.bytes_ bit_count bits (b.byte_offset_ + 1)
    (bit_count - remaining_bits_in_current_byte)
  if 0 < bit_count then
    let bits ← shiftLeft bits bit_count
    let byte ← byteAt b.bytes_ i
    let high ← highestBits byte bit_count
    return (true, bits ||| high.setWidth 32)
  return (true, bits)

/-- What `PeekBits` gives, and the cursor moves behind it. -/
def readBits (b : BitBuffer) (val : BitVec 32) (bit_count : ℕ) :
    Except Fault (Bool × BitVec 32 × BitBuffer) := do
  let (peeked, val) ← b.peekBits val bit_count
  if peeked then
    let (consumed, b) := b.consumeBits bit_count
    return (consumed, val, b)
  return (false, val, b)

/-- A byte. -/
def readUInt8 (b : BitBuffer) (val : BitVec 8) : Except Fault (Bool × BitVec 8 × BitBuffer) := do
  let (read, bit_val, b) ← b.readBits 0 8
  if !read then return (false, val, b)
  dcheck (bit_val.toNat ≤ 2 ^ 8 - 1)
  return (true, bit_val.setWidth 8, b)

/-- Two bytes, the first one the higher. -/
def readUInt16 (b : BitBuffer) (val : BitVec 16) :
    Except Fault (Bool × BitVec 16 × BitBuffer) := do
  let (read, bit_val, b) ← b.readBits 0 16
  if !read then return (false, val, b)
  dcheck (bit_val.toNat ≤ 2 ^ 16 - 1)
  return (true, bit_val.setWidth 16, b)

/-- Four bytes. -/
def readUInt32 (b : BitBuffer) (val : BitVec 32) : Except Fault (Bool × BitVec 32 × BitBuffer) :=
  b.readBits val 32

/-- A value below `num_values`, of one bit less where that is enough to tell it. -/
def readNonSymmetric (b : BitBuffer) (val num_values : BitVec 32) :
    Except Fault (Bool × BitVec 32 × BitBuffer) := do
  dcheck (0 < num_values.toNat)
  dcheck (num_values.toNat ≤ 2 ^ 31)
  let count_bits := countBits (num_values.setWidth 64)
  let num_min_bits_values := (← shiftLeft 1#32 count_bits) - num_values
  let (read, val, b) ← b.readBits val (sizeSub count_bits 1)
  if !read then return (false, val, b)
  if val < num_min_bits_values then return (true, val, b)
  let (read, extra_bit, b) ← b.readBits 0 1
  if !read then return (false, val, b)
  return (true, (val <<< 1) + extra_bit - num_min_bits_values, b)

/-- The loop of `ReadExponentialGolomb` over the leading zeros. Every turn consumes a bit. -/
def zeroLoop : ℕ → BitBuffer → ℕ → Except Fault (ℕ × BitBuffer)
  | 0, b, zero_bit_count => .ok (zero_bit_count, b)
  | n + 1, b, zero_bit_count => do
    let (peeked, peeked_bit) ← b.peekBits 0 1
    if peeked && peeked_bit == 0 then zeroLoop n (b.consumeBits 1).2 (zero_bit_count + 1)
    else .ok (zero_bit_count, b)

/-- A code is as many zeros as bits follow its first one. Where it is cut off, the cursor goes
back. -/
def readExponentialGolomb (b : BitBuffer) (val : BitVec 32) :
    Except Fault (Bool × BitVec 32 × BitBuffer) := do
  let original_byte_offset := b.byte_offset_
  let original_bit_offset := b.bit_offset_
  let (zero_bit_count, b) ← zeroLoop (b.remainingBitCount + 1) b 0
  let (peeked, peeked_bit) ← b.peekBits 0 1
  dcheck (!peeked || peeked_bit == 1)
  let value_bit_count := zero_bit_count + 1
  let restore (val : BitVec 32) (b : BitBuffer) : Except Fault (Bool × BitVec 32 × BitBuffer) :=
    match b.seek original_byte_offset original_bit_offset with
    | (true, b) => .ok (false, val, b)
    | (false, _) => .error .check
  if 32 < value_bit_count then restore val b
  else
    let (read, val, b) ← b.readBits val value_bit_count
    if !read then restore val b
    else return (true, val - 1, b)

/-- The variable holds an `int32_t`, in two's complement. -/
def readSignedExponentialGolomb (b : BitBuffer) (val : BitVec 32) :
    Except Fault (Bool × BitVec 32 × BitBuffer) := do
  let (read, unsigned_val, b) ← b.readExponentialGolomb 0
  if !read then return (false, val, b)
  if unsigned_val &&& 1 = 0 then return (true, -(unsigned_val / 2), b)
  return (true, (unsigned_val + 1) / 2, b)

/-! ## Writing -/

/-- The loop of `WriteBits` over whole bytes, from byte `i` on. -/
def writeLoop :
    ℕ → List (BitVec 8) → ℕ → BitVec 64 → ℕ →
      Except Fault (List (BitVec 8) × ℕ × BitVec 64 × ℕ)
  | 0, bytes, i, val, bit_count => .ok (bytes, i, val, bit_count)
  | n + 1, bytes, i, val, bit_count =>
    if 8 ≤ bit_count then do
      let _ ← byteAt bytes i
      writeLoop n (bytes.set i (highestByte val)) (i + 1) (val <<< 8) (bit_count - 8)
    else .ok (bytes, i, val, bit_count)

/-- The lowest bits of `val`: a part of the first byte, whole bytes, and a part of the last one. -/
def writeBits (b : BitBuffer) (val : BitVec 64) (bit_count : ℕ) :
    Except Fault (Bool × BitBuffer) := do
  if b.remainingBitCount < bit_count then return (false, b)
  let total_bits := bit_count
  let val ← shiftLeft val (sizeSub 64 bit_count)
  let remaining_bits_in_current_byte := sizeSub 8 b.bit_offset_
  let bits_in_first_byte := min bit_count remaining_bits_in_current_byte
  let target ← byteAt b.bytes_ b.byte_offset_
  let byte ← writePartialByte (highestByte val) bits_in_first_byte target b.bit_offset_
  let bytes := b.bytes_.set b.byte_offset_ byte
  if bit_count ≤ remaining_bits_in_current_byte then
    return { b with bytes_ := bytes }.consumeBits total_bits
  let val ← shiftLeft val bits_in_first_byte
  let (bytes, i, val, bit_count) ← writeLoop bit_count bytes (b.byte_offset_ + 1) val
    (bit_count - bits_in_first_byte)
  if 0 < bit_count then
    let target ← byteAt bytes i
    let byte ← writePartialByte (highestByte val) bit_count target 0
    return { b with bytes_ := bytes.set i byte }.consumeBits total_bits
  return { b with bytes_ := bytes }.consumeBits total_bits

/-- A byte. -/
def writeUInt8 (b : BitBuffer) (val : BitVec 8) : Except Fault (Bool × BitBuffer) :=
  b.writeBits (val.setWidth 64) 8

/-- Two bytes. -/
def writeUInt16 (b : BitBuffer) (val : BitVec 16) : Except Fault (Bool × BitBuffer) :=
  b.writeBits (val.setWidth 64) 16

/-- Four bytes. -/
def writeUInt32 (b : BitBuffer) (val : BitVec 32) : Except Fault (Bool × BitBuffer) :=
  b.writeBits (val.setWidth 64) 32

/-- What `WriteNonSymmetric` does after its checks. -/
def writeNonSymmetricBody (b : BitBuffer) (val num_values : BitVec 32) :
    Except Fault (Bool × BitBuffer) := do
  let count_bits := countBits (num_values.setWidth 64)
  let num_min_bits_values := (← shiftLeft 1#32 count_bits) - num_values
  if val < num_min_bits_values then b.writeBits (val.setWidth 64) (sizeSub count_bits 1)
  else b.writeBits ((val + num_min_bits_values).setWidth 64) count_bits

/-- The inverse of `ReadNonSymmetric`, for a value below `num_values`. -/
def writeNonSymmetric (b : BitBuffer) (val num_values : BitVec 32) :
    Except Fault (Bool × BitBuffer) := do
  dcheck (val < num_values)
  dcheck (num_values.toNat ≤ 2 ^ 31)
  b.writeNonSymmetricBody val num_values

/-- What `SizeNonSymmetricBits` does after its checks. -/
def sizeNonSymmetricBody (val num_values : BitVec 32) : Except Fault ℕ := do
  let count_bits := countBits (num_values.setWidth 64)
  let num_min_bits_values := (← shiftLeft 1#32 count_bits) - num_values
  return if val < num_min_bits_values then sizeSub count_bits 1 else count_bits

/-- How many bits `WriteNonSymmetric` writes. -/
def sizeNonSymmetricBits (val num_values : BitVec 32) : Except Fault ℕ := do
  dcheck (val < num_values)
  dcheck (num_values.toNat ≤ 2 ^ 31)
  sizeNonSymmetricBody val num_values

/-- The value and 1 more, behind as many zeros as it has bits after the first. The greatest value
has no code. -/
def writeExponentialGolomb (b : BitBuffer) (val : BitVec 32) : Except Fault (Bool × BitBuffer) :=
  if val = BitVec.allOnes 32 then .ok (false, b)
  else
    let val_to_encode := val.setWidth 64 + 1
    b.writeBits val_to_encode (sizeSub (countBits val_to_encode * 2) 1)

/-- Positive values are coded as odd numbers, the others as even ones. The lowest value has no
code. -/
def writeSignedExponentialGolomb (b : BitBuffer) (val : BitVec 32) :
    Except Fault (Bool × BitBuffer) :=
  if val = 0 then b.writeExponentialGolomb 0
  else if 0 < val.toInt then b.writeExponentialGolomb (val * 2 - 1)
  else if val = BitVec.intMin 32 then .ok (false, b)
  else b.writeExponentialGolomb (-val * 2)

end BitBuffer

end RtcBase
