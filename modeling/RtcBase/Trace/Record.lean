import RtcBase.Trace.Model

/-!
# The records of the trace

A record is its boilerplate, the message and a newline. The boilerplate always fits.

* `zero_notMem_unsigned`, `length_unsigned`: the numbers in a record;
* `boilerplate`, **`length_boilerplate_le`**, `zero_notMem_boilerplate`: what stands before the
  message;
* `store_ok`, `sprintf_ok`, `addText_ok`: a store behind what has been written;
* **`formMessage_eq`**: the bytes of a record, for a message that fits and for one that does not;
* `addImpl_eq`, `webRtcTrace_Add_eq`: what the streams are handed;
* **`wellFormed_iff`**: when a record is as it should be.
-/

namespace RtcBase

namespace Trace

/-! ## Texts -/

theorem length_chars (l : List Char) : (chars l).length = l.length := List.length_map ..

theorem toUInt8_ne_zero_of_isDigit {c : Char} (h : c.isDigit) : c.toUInt8 ≠ 0 := by
  rw [Char.isDigit_iff_toNat] at h
  intro h0
  have := congrArg UInt8.toNat h0
  have hval : c.toUInt8.toNat = c.toNat % 256 := rfl
  rw [hval] at this
  have h48 : '0'.toNat = 48 := rfl
  have h57 : '9'.toNat = 57 := rfl
  have h00 : (0 : UInt8).toNat = 0 := rfl
  omega

theorem zero_notMem_chars {l : List Char} (h : ∀ c ∈ l, c.toUInt8 ≠ 0) : 0 ∉ chars l := by
  intro h0
  obtain ⟨c, hc, h0⟩ := List.mem_map.mp h0
  exact h c hc h0

/-- A number in a field, with a sign or without. -/
theorem zero_notMem_field (width n : ℕ) (sign : List Char) (hsign : ∀ c ∈ sign, c.toUInt8 ≠ 0) :
    0 ∉ chars ((sign ++ Nat.toDigits 10 n).leftpad width ' ') := by
  refine zero_notMem_chars fun c hc => ?_
  rw [List.leftpad, List.mem_append, List.mem_append] at hc
  rcases hc with hc | hc | hc
  · rw [List.eq_of_mem_replicate hc]
    decide
  · exact hsign c hc
  · exact toUInt8_ne_zero_of_isDigit (Nat.isDigit_of_mem_toDigits (by decide) (by decide) hc)

theorem zero_notMem_unsigned (width n : ℕ) : 0 ∉ unsigned width n :=
  zero_notMem_field width n [] (by simp)

theorem zero_notMem_signed (width : ℕ) (n : ℤ) : 0 ∉ signed width n := by
  refine zero_notMem_field width n.natAbs _ fun c hc => ?_
  split_ifs at hc
  · rw [List.mem_singleton.mp hc]
    decide
  · cases hc

theorem length_unsigned_le (width : ℕ) {n k : ℕ} (hk : 0 < k) (hn : n < 10 ^ k) :
    (unsigned width n).length ≤ max width k := by
  have := (Nat.length_toDigits_le_iff (by decide : 1 < 10) hk).mpr hn
  rw [unsigned, length_chars, List.length_leftpad]
  omega

theorem length_unsigned (width : ℕ) {n : ℕ} (hw : 0 < width) (hn : n < 10 ^ width) :
    (unsigned width n).length = width := by
  have := length_unsigned_le width hw hn
  have h : width ≤ (unsigned width n).length := by
    rw [unsigned, length_chars, List.length_leftpad]
    exact le_max_left _ _
  omega

theorem length_signed (id : Int32) : (signed 11 id.toInt).length = 11 := by
  have h₁ := id.le_toInt
  have h₂ := id.toInt_lt
  have := (Nat.length_toDigits_le_iff (n := id.toInt.natAbs) (by decide : 1 < 10)
    (by decide : 0 < 10)).mpr (by omega)
  rw [signed, length_chars, List.length_leftpad, List.length_append]
  split_ifs <;> simp <;> omega

/-! ## What stands before the message -/

theorem levelText_spec {level : TraceLevel} : ∀ t ∈ levelText level, t.length = 12 ∧ 0 ∉ t := by
  intro t ht
  obtain ⟨s, hs, rfl⟩ := Option.map_eq_some_iff.mp ht
  have hall : ∀ p ∈ levelTexts, (ascii p.2).length = 12 ∧ 0 ∉ ascii p.2 := by decide
  obtain ⟨l₁, l₂, hl, -⟩ := List.lookup_eq_some_iff.mp hs
  exact hall (level, s) (by simp [hl])

theorem moduleText_spec {module : TraceModule} :
    ∀ s ∈ moduleText module, (ascii s).length = 13 ∧ 0 ∉ ascii s := by
  cases module <;> decide

theorem moduleAndIdText_spec {module : TraceModule} {id : Int32} :
    ∀ t ∈ moduleAndIdText module id, t.length = 25 ∧ 0 ∉ t := by
  intro t ht
  obtain ⟨s, hs, rfl⟩ := Option.map_eq_some_iff.mp ht
  obtain ⟨h₁, h₂⟩ := moduleText_spec s hs
  have hsemi : (ascii ";").length = 1 ∧ 0 ∉ ascii ";" := by decide
  refine ⟨?_, ?_⟩
  · rw [List.length_append, List.length_append, h₁, length_signed, hsemi.1]
  · simp only [List.mem_append, not_or]
    exact ⟨⟨h₂, zero_notMem_signed _ _⟩, hsemi.2⟩

theorem timeText_spec (t : SystemTime) : (timeText t).length = 15 ∧ 0 ∉ timeText t := by
  have hh := length_unsigned 2 (by decide) (t.hour_lt.trans (by decide))
  have hm := length_unsigned 2 (by decide) (t.min_lt.trans (by decide))
  have hs := length_unsigned 2 (by decide) (t.sec_le.trans_lt (by decide))
  have hms := length_unsigned 3 (by decide) t.ms_lt
  have hascii : (ascii "(").length = 1 ∧ (ascii ":").length = 1 ∧ (ascii ") ").length = 2 ∧
    0 ∉ ascii "(" ∧ 0 ∉ ascii ":" ∧ 0 ∉ ascii ") " := by decide
  obtain ⟨h₁, h₂, h₃, h₄, h₅, h₆⟩ := hascii
  constructor
  · simp only [timeText, List.length_append, hh, hm, hs, hms, h₁, h₂, h₃]
  · simp only [timeText, List.mem_append, not_or, zero_notMem_unsigned, h₄, h₅, h₆,
      not_false_eq_true, and_self]

theorem threadText_spec (thread_id : UInt64) :
    (threadText thread_id).length ≤ 22 ∧ 0 ∉ threadText thread_id := by
  have hlt := thread_id.toNat_lt
  have hn := length_unsigned_le 10 (n := thread_id.toNat) (by decide : 0 < 20) (by omega)
  have hascii : (ascii "; ").length = 2 ∧ 0 ∉ ascii "; " := by decide
  constructor
  · rw [threadText, List.length_append, hascii.1]
    omega
  · rw [threadText, List.mem_append, not_or]
    exact ⟨zero_notMem_unsigned _ _, hascii.2⟩

/-- The pieces before the message. -/
def boilerplate (level : TraceLevel) (system_time : SystemTime) (module : TraceModule)
    (id : Int32) (thread_id : UInt64) : List UInt8 :=
  (levelText level).getD [] ++ timeText system_time ++ (moduleAndIdText module id).getD [] ++
    threadText thread_id

section Boilerplate

variable (level : TraceLevel) (system_time : SystemTime) (module : TraceModule) (id : Int32)
  (thread_id : UInt64)

/-- **The boilerplate leaves room for a message.** -/
theorem length_boilerplate_le :
    (boilerplate level system_time module id thread_id).length ≤ 74 := by
  have h₁ : ((levelText level).getD []).length ≤ 12 := by
    cases h : levelText level with
    | none => exact Nat.zero_le 12
    | some t => exact (levelText_spec t h).1.le
  have h₂ : ((moduleAndIdText module id).getD []).length ≤ 25 := by
    cases h : moduleAndIdText module id with
    | none => exact Nat.zero_le 25
    | some t => exact (moduleAndIdText_spec t h).1.le
  have h₃ := (timeText_spec system_time).1
  have h₄ := (threadText_spec thread_id).1
  simp only [boilerplate, List.length_append]
  omega

theorem zero_notMem_boilerplate :
    0 ∉ boilerplate level system_time module id thread_id := by
  have h₁ : 0 ∉ (levelText level).getD [] := by
    cases h : levelText level with
    | none => exact List.not_mem_nil
    | some t => exact (levelText_spec t h).2
  have h₂ : 0 ∉ (moduleAndIdText module id).getD [] := by
    cases h : moduleAndIdText module id with
    | none => exact List.not_mem_nil
    | some t => exact (moduleAndIdText_spec t h).2
  have h₃ := (timeText_spec system_time).2
  have h₄ := (threadText_spec thread_id).2
  simp only [boilerplate, List.mem_append, not_or]
  exact ⟨⟨⟨h₁, h₃⟩, h₂⟩, h₄⟩

end Boilerplate

/-! ## Stores behind what has been written -/

section Stores

variable {b : TraceMessage} {pre : List UInt8}

theorem store_ok (b : TraceMessage) (i : ℕ) (xs : List UInt8) (h : i + xs.length ≤ maxMessageSize) :
    ∃ b', b.store i xs = .ok b' ∧ b'.bytes = ByteFile.patch b.bytes i xs := by
  rw [TraceMessage.store, dif_pos h]
  exact ⟨_, rfl, rfl⟩

theorem sprintf_ok (text : List UInt8) (hpre : pre <+: b.bytes)
    (h : (pre ++ text).length < maxMessageSize) :
    ∃ b', sprintf b pre.length text = .ok (text.length, b') ∧ pre ++ text <+: b'.bytes := by
  rw [List.length_append] at h
  obtain ⟨b', hb', hbytes⟩ := store_ok b pre.length (text ++ [0])
    (by simp only [List.length_append, List.length_singleton]; omega)
  refine ⟨b', by rw [sprintf, hb']; rfl, ?_⟩
  have := ByteFile.append_prefix_patch (text ++ [0]) hpre
  rw [← List.append_assoc] at this
  rw [hbytes]
  exact (List.prefix_append _ _).trans this

theorem addText_ok (text : Option (List UInt8)) {n : ℕ} (hpre : pre <+: b.bytes)
    (htext : ∀ t ∈ text, t.length = n) (h : (pre ++ text.getD []).length < maxMessageSize) :
    ∃ b', addText b pre.length text n = .ok ((text.getD []).length, b') ∧
      pre ++ text.getD [] <+: b'.bytes := by
  cases text with
  | none => exact ⟨b, rfl, by rwa [Option.getD_none, List.append_nil]⟩
  | some t =>
    rw [Option.getD_some] at h ⊢
    obtain ⟨b', hb', hbytes⟩ := sprintf_ok t hpre h
    refine ⟨b', ?_, hbytes⟩
    rw [addText, hb', htext t rfl]
    rfl

/-- What is left of a message with `room` for it and its terminator. Where it does not fit, the
terminator stays in the record. -/
def body (room : ℕ) (msg : List UInt8) : List UInt8 :=
  if msg.length < room then msg else msg.take (room - 1) ++ [0]

theorem length_body_le {room : ℕ} (hroom : 0 < room) (msg : List UInt8) :
    (body room msg).length ≤ room := by
  unfold body
  split_ifs with h
  · exact h.le
  · rw [List.length_append, List.length_take, List.length_singleton]
    omega

theorem snprintf_ok (text : List UInt8) {n : ℕ} (hpre : pre <+: b.bytes) (hn : 0 < n)
    (h : pre.length + n ≤ maxMessageSize) :
    ∃ b', snprintf b pre.length n text = .ok (text.length, b') ∧
      pre ++ (text.take (n - 1) ++ [0]) <+: b'.bytes := by
  have hlen : (text.take (n - 1) ++ [0]).length ≤ n := by
    rw [List.length_append, List.length_take, List.length_singleton]
    omega
  obtain ⟨b', hb', hbytes⟩ := store_ok b pre.length (text.take (n - 1) ++ [0])
    (by omega)
  refine ⟨b', by rw [snprintf, if_neg hn.ne', hb']; rfl, ?_⟩
  rw [hbytes]
  exact ByteFile.append_prefix_patch _ hpre

theorem addTraceMessage_ok (room : ℕ) (msg : CString) (hpre : pre <+: b.bytes)
    (hroom : pre.length + room = maxMessageSize - 2) (hpos : 0 < room) :
    ∃ b', addTraceMessage b msg pre.length = .ok ((body room msg.text).length + 1, b') ∧
      pre ++ body room msg.text <+: b'.bytes := by
  have hmax : maxMessageSize = 1024 := rfl
  have hremain : (maxMessageSize : ℤ) - pre.length - 2 = room := by omega
  have hsize : ((room : ℤ) % 2 ^ 64).toNat = room := by omega
  have hstore : ((pre.length : ℤ) + room).toNat = maxMessageSize - 2 := by omega
  have hsucc : ((room : ℤ) + 1).toNat = room + 1 := by omega
  obtain ⟨b₁, h₁, hbytes⟩ := snprintf_ok msg.text hpre hpos (by omega)
  simp only [addTraceMessage, hremain, hsize, hstore, hsucc]
  rw [if_neg (by omega), h₁]
  simp only [bind, Except.bind, pure, Except.pure]
  have hlen : (msg.text.take (room - 1)).length = min (room - 1) msg.text.length :=
    List.length_take
  unfold body
  split_ifs with hlong hfits hfits
  · omega
  · -- the terminator of `snprintf` stays, and one more is stored behind it
    obtain ⟨b₂, h₂, hbytes₂⟩ := store_ok b₁ (maxMessageSize - 2) [0]
      (by simp only [List.length_singleton]; omega)
    refine ⟨b₂, ?_, ?_⟩
    · rw [h₂, List.length_append, hlen, List.length_singleton, min_eq_left (by omega),
        Nat.sub_add_cancel hpos]
    · rw [hbytes₂]
      refine ByteFile.prefix_patch hbytes ?_
      simp only [List.length_append, hlen, List.length_singleton]
      omega
  · refine ⟨b₁, rfl, ?_⟩
    rw [List.take_of_length_le (by omega), ← List.append_assoc] at hbytes
    exact (List.prefix_append _ _).trans hbytes
  · refine ⟨b₁, ?_, hbytes⟩
    rw [List.length_append, hlen, List.length_singleton, min_eq_left (by omega),
      Nat.sub_add_cancel hpos, show msg.text.length = room by omega]

end Stores

/-! ## The record -/

/-- What `AddImpl` hands to the streams. -/
def record (pre msg : List UInt8) : List UInt8 :=
  pre ++ body (maxMessageSize - 2 - pre.length) msg ++ ascii "\n"

section Record

variable (level : TraceLevel) (system_time : SystemTime) (module : TraceModule) (id : Int32)
  (thread_id : UInt64)

theorem ok_bind {α β : Type} (x : α) (f : α → Except Stop β) : (Except.ok x >>= f) = f x := rfl

/-- **The bytes of a record.** -/
theorem formMessage_eq (b : TraceMessage) (msg : CString) :
    ∃ b', formMessage b level system_time module id thread_id msg =
        .ok ((record (boilerplate level system_time module id thread_id) msg.text).length, b') ∧
      record (boilerplate level system_time module id thread_id) msg.text <+: b'.bytes := by
  have hmax : maxMessageSize = 1024 := rfl
  have hle := length_boilerplate_le level system_time module id thread_id
  unfold boilerplate at hle ⊢
  generalize hA : (levelText level).getD [] = A at hle ⊢
  generalize hB : timeText system_time = B at hle ⊢
  generalize hC : (moduleAndIdText module id).getD [] = C at hle ⊢
  generalize hD : threadText thread_id = D at hle ⊢
  simp only [List.length_append] at hle
  obtain ⟨b₁, h₁, hpre₁⟩ := addText_ok _ (List.nil_prefix : [] <+: b.bytes)
    (fun t ht => (levelText_spec t ht).1) (by rw [List.nil_append, hA]; omega)
  rw [hA, List.nil_append] at hpre₁
  rw [hA, List.length_nil] at h₁
  obtain ⟨b₂, h₂, hpre₂⟩ := addText_ok (some B) hpre₁
    (fun t ht => Option.some.inj ht ▸ hB ▸ (timeText_spec system_time).1)
    (by rw [List.length_append, Option.getD_some]; omega)
  rw [Option.getD_some] at h₂ hpre₂
  obtain ⟨b₃, h₃, hpre₃⟩ := addText_ok _ hpre₂ (fun t ht => (moduleAndIdText_spec t ht).1)
    (by rw [hC, List.length_append, List.length_append]; omega)
  rw [hC] at h₃ hpre₃
  obtain ⟨b₄, h₄, hpre₄⟩ := sprintf_ok D hpre₃
    (by simp only [List.length_append]; omega)
  obtain ⟨b₅, h₅, hpre₅⟩ := addTraceMessage_ok
    (maxMessageSize - 2 - (A ++ B ++ C ++ D).length) msg hpre₄
    (by simp only [List.length_append]; omega) (by simp only [List.length_append]; omega)
  have hbody := length_body_le (by simp only [List.length_append]; omega :
    0 < maxMessageSize - 2 - (A ++ B ++ C ++ D).length) msg.text
  unfold record
  generalize hM : body (maxMessageSize - 2 - (A ++ B ++ C ++ D).length) msg.text = M
    at h₅ hpre₅ hbody ⊢
  simp only [List.length_append] at h₂ h₃ h₄ h₅ hbody ⊢
  -- the terminator behind the newline, and the newline
  obtain ⟨b₆, h₆, hbytes₆⟩ := store_ok b₅
    (A.length + B.length + C.length + D.length + (M.length + 1)) [0]
    (by rw [List.length_singleton]; omega)
  have hpre₆ : A ++ B ++ C ++ D ++ M <+: b₆.bytes := by
    rw [hbytes₆]
    exact ByteFile.prefix_patch hpre₅ (by simp only [List.length_append]; omega)
  have hnewline : (ascii "\n").length = 1 := by decide
  obtain ⟨b₇, h₇, hbytes₇⟩ := store_ok b₆ (A ++ B ++ C ++ D ++ M).length
    (ascii "\n") (by rw [hnewline]; simp only [List.length_append]; omega)
  have hlast : A.length + B.length + C.length + D.length + (M.length + 1) - 1 =
      (A ++ B ++ C ++ D ++ M).length := by
    simp only [List.length_append]
    omega
  refine ⟨b₇, ?_, ?_⟩
  · simp only [formMessage, addLevel, addTime, addModuleAndId, addThreadId, hB, hD, h₁, h₂, h₃, h₄,
      h₅, h₆, hlast, h₇, ok_bind, hnewline]
    rfl
  · rw [hbytes₇]
    exact ByteFile.append_prefix_patch _ hpre₆

theorem writeToFile_congr (handle : TraceHandle) {xs msg : List UInt8} (h : xs <+: msg) :
    writeToFile handle msg xs.length = writeToFile handle xs xs.length := by
  have htake : msg.take xs.length = xs.take xs.length := by
    rw [← List.prefix_iff_eq_take.mp h, List.take_length]
  simp only [writeToFile, htake]

theorem addImpl_eq (handles : List TraceHandle) (b : TraceMessage) (msg : CString) :
    addImpl handles b level system_time module id thread_id msg =
      .ok (addTraceMessageToList handles
        (record (boilerplate level system_time module id thread_id) msg.text)
        (record (boilerplate level system_time module id thread_id) msg.text).length level) := by
  obtain ⟨b', hb', hpre⟩ := formMessage_eq level system_time module id thread_id b msg
  rw [addImpl, hb', ok_bind]
  simp only [addTraceMessageToList, writeToFile_congr _ hpre]
  rfl

/-- **The entry point** hands a record of the cut message to every stream that accepts the level. -/
theorem webRtcTrace_Add_eq (handles : List TraceHandle) (b : TraceMessage) (formatted : CString) :
    webRtcTrace_Add handles b level system_time module id thread_id formatted =
      .ok (addTraceMessageToList handles
        (record (boilerplate level system_time module id thread_id) (buffData formatted).text)
        (record (boilerplate level system_time module id thread_id)
          (buffData formatted).text).length level) := by
  unfold webRtcTrace_Add
  split_ifs with hcheck
  · exact addImpl_eq level system_time module id thread_id handles b (buffData formatted)
  · -- no stream accepts the level
    have hnone : ∀ handle ∈ handles, ¬ checkLevel handle level = true := fun handle hmem hlevel =>
      hcheck (List.any_eq_true.mpr ⟨handle, hmem, hlevel⟩)
    refine congrArg Except.ok (Eq.symm ?_)
    refine (List.map_congr_left fun handle hmem => if_neg (hnone handle hmem)).trans ?_
    exact List.map_id handles

end Record

/-- A record as it should be. -/
def wellFormedRecord (pre msg : List UInt8) : List UInt8 :=
  pre ++ msg.take (maxMessageSize - 2 - pre.length) ++ ascii "\n"

/-- The buffer holds such a record, with no NUL in it and room for one behind it. -/
def WellFormed (pre msg : List UInt8) (out : Except Stop (ℕ × TraceMessage)) : Prop :=
  ∃ len b, out = .ok (len, b) ∧ b.bytes.take len = wellFormedRecord pre msg ∧
    0 ∉ b.bytes.take len ∧ len ≤ maxMessageSize - 1

/-- A message that fills the room leaves a NUL in the record. -/
theorem record_of_le {pre msg : List UInt8} (hpre : pre.length < maxMessageSize - 2)
    (h : maxMessageSize - 2 ≤ pre.length + msg.length) :
    record pre msg = pre ++ msg.take (maxMessageSize - 3 - pre.length) ++ [0] ++ ascii "\n" ∧
      (record pre msg).length = maxMessageSize - 1 := by
  have hmax : maxMessageSize = 1024 := rfl
  have hnewline : (ascii "\n").length = 1 := by decide
  have hroom : maxMessageSize - 2 - pre.length - 1 = maxMessageSize - 3 - pre.length := by omega
  rw [record, body, if_neg (by omega), hroom, ← List.append_assoc]
  refine ⟨rfl, ?_⟩
  simp only [List.length_append, List.length_take, List.length_singleton, hnewline]
  omega

theorem record_eq {pre msg : List UInt8} (h : pre.length + msg.length < maxMessageSize - 2) :
    record pre msg = pre ++ msg ++ ascii "\n" ∧ record pre msg = wellFormedRecord pre msg := by
  have hfit : msg.length < maxMessageSize - 2 - pre.length := by omega
  rw [record, body, if_pos hfit, wellFormedRecord, List.take_of_length_le hfit.le]
  exact ⟨rfl, rfl⟩

theorem not_wellFormed (b : TraceMessage) {level : TraceLevel} {system_time : SystemTime}
    {module : TraceModule} {id : Int32} {thread_id : UInt64} {msg : CString} {pre : List UInt8}
    (hpre : boilerplate level system_time module id thread_id = pre)
    (h : maxMessageSize - 2 ≤ pre.length + msg.text.length) :
    ¬ WellFormed pre msg.text (formMessage b level system_time module id thread_id msg) := by
  have hlt : pre.length < maxMessageSize - 2 :=
    (hpre ▸ length_boilerplate_le level system_time module id thread_id).trans_lt (by decide)
  rintro ⟨len, b'', hout, -, hnul, -⟩
  obtain ⟨b', hb', hbytes⟩ := formMessage_eq level system_time module id thread_id b msg
  rw [hb'] at hout
  cases hout
  rw [← List.prefix_iff_eq_take.mp hbytes, hpre, (record_of_le hlt h).1] at hnul
  exact hnul (List.mem_append_left _ (List.mem_append_right _ List.mem_cons_self))

/-- What the streams are handed of a message that fills the room. -/
theorem addImpl_of_le (handles : List TraceHandle) (b : TraceMessage) {level : TraceLevel}
    {system_time : SystemTime} {module : TraceModule} {id : Int32} {thread_id : UInt64}
    {msg : CString} {pre : List UInt8}
    (hpre : boilerplate level system_time module id thread_id = pre)
    (h : maxMessageSize - 2 ≤ pre.length + msg.text.length) :
    addImpl handles b level system_time module id thread_id msg =
      .ok (addTraceMessageToList handles
        (pre ++ msg.text.take (maxMessageSize - 3 - pre.length) ++ [0] ++ ascii "\n")
        (maxMessageSize - 1) level) := by
  have hlt : pre.length < maxMessageSize - 2 :=
    (hpre ▸ length_boilerplate_le level system_time module id thread_id).trans_lt (by decide)
  obtain ⟨h₁, h₂⟩ := record_of_le hlt h
  rw [addImpl_eq, hpre, h₂, h₁]

/-- **When a record is as it should be.** Every accepting stream is handed the boilerplate, the
message and one newline, whatever the buffer held, just when the message leaves a character of
its room free. -/
theorem wellFormed_iff (b : TraceMessage) (level : TraceLevel) (system_time : SystemTime)
    (module : TraceModule) (id : Int32) (thread_id : UInt64) (msg : CString) :
    let pre := boilerplate level system_time module id thread_id
    (WellFormed pre msg.text (formMessage b level system_time module id thread_id msg) ∧
      ∀ handles, addImpl handles b level system_time module id thread_id msg =
        .ok (handles.map fun handle =>
          if checkLevel handle level then
            writeToFile handle (wellFormedRecord pre msg.text)
              (wellFormedRecord pre msg.text).length
          else handle)) ↔
      pre.length + msg.text.length < maxMessageSize - 2 := by
  intro pre
  obtain ⟨b', hb', hpre⟩ := formMessage_eq level system_time module id thread_id b msg
  have htake := (List.prefix_iff_eq_take.mp hpre).symm
  constructor
  · rintro ⟨hwell, -⟩
    by_contra hlong
    exact not_wellFormed b rfl (not_lt.mp hlong) hwell
  · intro hfit
    obtain ⟨h₁, h₂⟩ := record_eq hfit
    have hnewline : (ascii "\n").length = 1 ∧ 0 ∉ ascii "\n" := by decide
    refine ⟨⟨_, b', hb', htake.trans h₂, ?_, ?_⟩, fun handles => ?_⟩
    · rw [htake, h₁]
      simp only [List.mem_append, not_or]
      exact ⟨⟨zero_notMem_boilerplate _ _ _ _ _, msg.no_nul⟩, hnewline.2⟩
    · rw [h₁, List.length_append, List.length_append, hnewline.1]
      omega
    · rw [addImpl_eq, h₂]
      rfl

/-- The time 0:00:00. -/
def midnight : SystemTime := ⟨0, 0, 0, 0, by decide, by decide, by decide, by decide⟩

/-- A text of `n` letters. -/
def letters (n : ℕ) : CString :=
  ⟨List.replicate n 97, fun h => absurd (List.eq_of_mem_replicate h) (by decide)⟩

/-- An error of module `kTraceVoice` from thread 1 at midnight, with a message of 958 letters
behind the 64 characters of the boilerplate: the streams get a NUL for the last letter. -/
theorem record_not_wellFormed :
    let b : TraceMessage := ⟨List.replicate maxMessageSize 0, List.length_replicate⟩
    let pre := boilerplate kTraceError midnight .kTraceVoice 0 1
    pre.length = 64 ∧
      ¬ WellFormed pre (letters 958).text
        (formMessage b kTraceError midnight .kTraceVoice 0 1 (letters 958)) ∧
      ∀ handles, addImpl handles b kTraceError midnight .kTraceVoice 0 1 (letters 958) =
        .ok (addTraceMessageToList handles
          (pre ++ (letters 958).text.take (maxMessageSize - 3 - pre.length) ++ [0] ++ ascii "\n")
          (maxMessageSize - 1) kTraceError) := by
  intro b pre
  have hlen : pre.length = 64 := by decide
  have hlong : maxMessageSize - 2 ≤ pre.length + (letters 958).text.length := by
    rw [hlen, letters, List.length_replicate]
    decide
  exact ⟨hlen, not_wellFormed b rfl hlong, fun handles => addImpl_of_le handles b rfl hlong⟩

end Trace

end RtcBase
