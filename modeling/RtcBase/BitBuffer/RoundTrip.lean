import RtcBase.BitBuffer.Fields

/-!
# Round trips over sequences of fields

* `writeAll`, `readAll`: fields one after the other;
* `Written`: the fields are in the buffer, one behind the other;
* `writeAll_written`, `readAll_written`: what the writes leave, and what reads make of it;
* **`round_trip`**: the reads give back the fields that were written.
-/

namespace RtcBase

open Word Bits

namespace BitBuffer

variable {b b' : BitBuffer} {bytes : List (BitVec 8)} {n : ℕ}

/-- Write all fields: the results of the calls, and the buffer. -/
def writeAll : BitBuffer → List Field → Except Fault (List Bool × BitBuffer)
  | b, [] => .ok ([], b)
  | b, f :: fs => do
    let (written, b) ← f.write b
    let (results, b) ← writeAll b fs
    return (written :: results, b)

/-- Read into all fields: the results of the calls with the values read, and the buffer. -/
def readAll : BitBuffer → List Field → Except Fault (List (Bool × Field) × BitBuffer)
  | b, [] => .ok ([], b)
  | b, f :: fs => do
    let (read, f, b) ← f.read b
    let (results, b) ← readAll b fs
    return ((read, f) :: results, b)

/-- The codes of the fields lie one behind the other from `p` on. -/
def Written (bytes : List (BitVec 8)) : ℕ → List Field → Prop
  | _, [] => True
  | p, f :: fs => Spells bytes p f.code ∧ Written bytes (p + f.code.2) fs

/-- The number of bits of all codes. -/
def total (fs : List Field) : ℕ := (fs.map fun f => f.code.2).sum

theorem total_cons (f : Field) (fs : List Field) : total (f :: fs) = f.code.2 + total fs := by
  simp [total]

theorem total_eq_size {fs : List Field} (hf : ∀ f ∈ fs, f.Valid) :
    total fs = (fs.map Field.size).sum := by
  refine congrArg List.sum (List.map_congr_left fun f hmem => ?_)
  exact (write_code (b := new []) (hf f hmem)).2.2.2.2.symm

theorem spells_of_agree {bytes' : List (BitVec 8)} {p : ℕ} {c : ℕ × ℕ} (h : Spells bytes p c)
    (hagree : ∀ q < p + c.2, bitAt bytes' q = bitAt bytes q) : Spells bytes' p c :=
  fun j hj => by rw [hagree _ (by omega), h j hj]

/-- **One write** of a field that fits. -/
theorem write_spells {f : Field} (hb : b.Valid) (hf : f.Valid)
    (hlen : b.pos + f.code.2 ≤ 8 * b.bytes_.length) :
    ∃ bytes', f.write b = .ok (true, { b with bytes_ := bytes' }.moveTo (b.pos + f.code.2)) ∧
      bytes'.length = b.bytes_.length ∧ Spells bytes' b.pos f.code ∧
      ∀ q < b.pos, bitAt bytes' q = bitAt b.bytes_ q := by
  obtain ⟨hwrite, h₁, h₂, h₃, -⟩ := write_code (b := b) hf
  obtain ⟨bytes', h₄, h₅, h₆⟩ := writeBits_eq hb (BitVec.ofNat 64 f.code.1) h₁ (by omega) hlen
  refine ⟨bytes', hwrite.trans h₄, h₅, fun j hj => ?_, fun q hq => ?_⟩
  · rw [h₆, if_pos (by omega), BitVec.getLsbD_ofNat,
      show b.pos + f.code.2 - 1 - (b.pos + j) = f.code.2 - 1 - j by omega]
    simp [show f.code.2 - 1 - j < 64 by omega]
  · rw [h₆, if_neg (by omega)]

theorem write_false {f : Field} (hb : b.Valid) (hf : f.Valid)
    (hlen : 8 * b.bytes_.length < b.pos + f.code.2) : f.write b = .ok (false, b) := by
  rw [(write_code hf).1, writeBits_false _ hb hlen]

/-- **All writes.** If every one returns true, the fields are in the buffer, and nothing before
them has changed. -/
theorem writeAll_written (fs : List Field) {results : List Bool} (hb : b.Valid)
    (hf : ∀ f ∈ fs, f.Valid) (h : writeAll b fs = .ok (results, b'))
    (hr : ∀ r ∈ results, r = true) :
    ∃ bytes', b' = { b with bytes_ := bytes' }.moveTo (b.pos + total fs) ∧
      bytes'.length = b.bytes_.length ∧ b.pos + total fs ≤ 8 * b.bytes_.length ∧
      Written bytes' b.pos fs ∧ ∀ q < b.pos, bitAt bytes' q = bitAt b.bytes_ q := by
  induction fs generalizing b results with
  | nil =>
    cases h
    exact ⟨_, (moveTo_self hb).symm, rfl, hb.pos_le, trivial, fun q _ => rfl⟩
  | cons f fs ih =>
    have hfirst := hf f List.mem_cons_self
    by_cases hlen : b.pos + f.code.2 ≤ 8 * b.bytes_.length
    · obtain ⟨bytes₁, h₁, h₂, h₃, h₄⟩ := write_spells hb hfirst hlen
      have hb₁ : Valid ({ b with bytes_ := bytes₁ }.moveTo (b.pos + f.code.2)) :=
        ⟨by rw [moveTo_bytes, h₂]; exact hb.size, Nat.lt_succ_iff.mp (Nat.mod_lt _ (by decide)),
          by rw [moveTo_pos, moveTo_bytes, h₂]; exact hlen⟩
      rw [writeAll, h₁, ok_bind] at h
      simp only at h
      cases hrest : writeAll ({ b with bytes_ := bytes₁ }.moveTo (b.pos + f.code.2)) fs with
      | error e => rw [hrest] at h; cases h
      | ok r =>
        obtain ⟨results', b₂⟩ := r
        rw [hrest] at h
        cases h
        obtain ⟨bytes', e₁, e₂, e₃, e₄, e₅⟩ := ih hb₁
          (fun g hg => hf g (List.mem_cons_of_mem f hg)) hrest
          fun r hmem => hr r (List.mem_cons_of_mem _ hmem)
        rw [moveTo_pos, moveTo_bytes] at *
        refine ⟨bytes', ?_, e₂.trans h₂, ?_, ⟨spells_of_agree h₃ e₅, e₄⟩, fun q hq => ?_⟩
        · rw [e₁, total_cons, add_assoc]
          rfl
        · have hfits : b.pos + f.code.2 + total fs ≤ 8 * bytes₁.length := e₃
          rw [total_cons]
          omega
        · rw [e₅ q (by omega), h₄ q hq]
    · rw [writeAll, write_false hb hfirst (by omega), ok_bind] at h
      simp only at h
      cases hrest : writeAll b fs with
      | error e => rw [hrest] at h; cases h
      | ok r =>
        rw [hrest] at h
        cases h
        exact absurd (hr false List.mem_cons_self) (by decide)

/-- **All reads.** -/
theorem readAll_written (fs gs : List Field) (hb : b.Valid) (hf : ∀ f ∈ fs, f.Valid)
    (hk : List.Forall₂ Field.SameKind gs fs) (hw : Written b.bytes_ b.pos fs)
    (hlen : b.pos + total fs ≤ 8 * b.bytes_.length) :
    readAll b gs = .ok (fs.map fun f => (true, f), b.moveTo (b.pos + total fs)) := by
  induction hk generalizing b with
  | nil =>
    rw [readAll]
    exact congrArg Except.ok (congrArg _ (moveTo_self hb).symm)
  | @cons g f gs fs hgf _ ih =>
    rw [total_cons] at hlen ⊢
    have hread := read_code hb (hf f List.mem_cons_self) hgf hw.1 (by omega)
    have hmove := valid_moveTo hb (p := b.pos + f.code.2) (by omega)
    have hrest := ih hmove (fun g hg => hf g (List.mem_cons_of_mem f hg))
      (by rw [moveTo_pos, moveTo_bytes]; exact hw.2)
      (by rw [moveTo_pos, moveTo_bytes]; omega)
    rw [moveTo_pos, moveTo_moveTo] at hrest
    rw [readAll, hread, ok_bind]
    simp only [hrest, ok_bind]
    rw [← add_assoc]
    rfl

/-- **Round trip.** If every write returns true, then from the same start the same reads, into
variables with any contents, all return true, give the written values and end at the cursor where
the writes ended; and the distance is the sum of the sizes. -/
theorem round_trip (bytes : List (BitVec 8)) (hsize : bytes.length < 2 ^ 61)
    (byte_offset bit_offset : ℕ) (start : BitBuffer)
    (hstart : (new bytes).seek byte_offset bit_offset = (true, start)) (fs gs : List Field)
    (hf : ∀ f ∈ fs, f.Valid) (hk : List.Forall₂ Field.SameKind gs fs) (results : List Bool)
    (done : BitBuffer) (hwrite : writeAll start fs = .ok (results, done))
    (hr : ∀ r ∈ results, r = true) :
    done.pos = start.pos + (fs.map Field.size).sum ∧
      (done.seek byte_offset bit_offset).1 = true ∧
      readAll (done.seek byte_offset bit_offset).2 gs =
        .ok (fs.map fun f => (true, f), done) := by
  obtain ⟨hb, hbytes, hpos⟩ := seek_valid hsize rfl hstart
  obtain ⟨bytes', h₁, h₂, h₃, h₄, -⟩ := writeAll_written fs hb hf hwrite hr
  have hseek : done.seek byte_offset bit_offset = (true, { start with bytes_ := bytes' }) := by
    unfold seek at hstart ⊢
    have hcount : done.byte_count_ = (new bytes).byte_count_ := by
      rw [h₁]
      exact h₂.trans (congrArg List.length hbytes)
    rw [hcount]
    split_ifs at hstart ⊢ with hc
    · cases hstart
    · obtain rfl : _ = start := (Prod.mk.inj hstart).2
      rw [h₁]
      rfl
  have hb' : Valid { start with bytes_ := bytes' } :=
    ⟨by rw [h₂, hbytes]; exact hsize, hb.bit, by rw [h₂]; exact hb.pos_le⟩
  have hread := readAll_written fs gs hb' hf hk h₄ (by rw [h₂]; exact h₃)
  rw [hseek]
  refine ⟨?_, rfl, ?_⟩
  · rw [h₁, moveTo_pos, total_eq_size hf]
  · rw [hread, h₁]
    rfl

/-- Five encodings from the middle of a byte on. -/
theorem round_trip_sample :
    let fs : List Field := [.bits 5 19, .uint8 200, .nonSymmetric 5 3, .exponentialGolomb 6,
      .signedExponentialGolomb (-2)]
    let done : BitBuffer := ⟨[0x13, 0xc8, 0xc7, 0x28], 3, 5⟩
    (new [0, 0, 0, 0]).seek 0 3 = (true, ⟨[0, 0, 0, 0], 0, 3⟩) ∧
      writeAll ⟨[0, 0, 0, 0], 0, 3⟩ fs = .ok ([true, true, true, true, true], done) ∧
      readAll (done.seek 0 3).2 fs = .ok (fs.map fun f => (true, f), done) := by
  refine ⟨rfl, rfl, (round_trip [0, 0, 0, 0] (by decide) 0 3 _ rfl _ _ ?_ ?_ _ _ rfl ?_).2.2⟩
  · intro f hf
    simp only [List.mem_cons, List.not_mem_nil, or_false] at hf
    rcases hf with rfl | rfl | rfl | rfl | rfl
    · simp [Field.Valid]
    · trivial
    · simp [Field.Valid]
    · simp [Field.Valid]
    · exact (by decide : (-2 : BitVec 32) ≠ BitVec.intMin 32)
  · exact .cons (.bits _ _ _) (.cons (.uint8 _ _) (.cons (.nonSymmetric _ _ _)
      (.cons (.exponentialGolomb _ _) (.cons (.signedExponentialGolomb _ _) .nil))))
  · decide

end BitBuffer

end RtcBase
