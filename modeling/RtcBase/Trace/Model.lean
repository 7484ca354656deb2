import RtcBase.Lib.ByteFile

/-!
# The trace

`trace_impl_c.c` forms a record in a buffer of its own and writes it to every stream that accepts
its level. Only `addTraceMessage` can cut a piece short.

* `TraceMessage`, `store`, `sprintf`, `snprintf`: the buffer, and stores that stay inside it;
* `addLevel`, `addTime`, `addModuleAndId`, `addThreadId`, `addTraceMessage`: the five pieces;
* `formMessage`, `addImpl`: a record, and its way to the streams;
* `TraceHandle`, `wrap`, `writeToFile`: a stream that starts over after a number of rows;
* `webRtcTrace_Add`: the entry point, once the streams are set up.
-/

namespace RtcBase

namespace Trace

/-- `WEBRTC_TRACE_MAX_MESSAGE_SIZE`. -/
def maxMessageSize : ℕ := 1024

/-- `WEBRTC_TRACE_MAX_FILE_SIZE`, in rows. -/
def maxFileSize : ℕ := 1000

/-! ## Texts -/

/-- The characters of a text, without its terminator. -/
def chars (l : List Char) : List UInt8 := l.map Char.toUInt8

/-- The bytes of a text. -/
def ascii (s : String) : List UInt8 := chars s.toList

/-- `%<width>lu`. -/
def unsigned (width n : ℕ) : List UInt8 := chars ((Nat.toDigits 10 n).leftpad width ' ')

/-- `%<width>ld`. -/
def signed (width : ℕ) (n : ℤ) : List UInt8 :=
  chars (((if n < 0 then ['-'] else []) ++ Nat.toDigits 10 n.natAbs).leftpad width ' ')

/-- A bitmask. -/
abbrev TraceLevel := UInt32

/-- `kTraceStateInfo`. -/
def kTraceStateInfo : TraceLevel := 0x0001

/-- `kTraceWarning`. -/
def kTraceWarning : TraceLevel := 0x0002

/-- `kTraceError`. -/
def kTraceError : TraceLevel := 0x0004

/-- `kTraceCritical`. -/
def kTraceCritical : TraceLevel := 0x0008

/-- `kTraceApiCall`. -/
def kTraceApiCall : TraceLevel := 0x0010

/-- `kTraceModuleCall`. -/
def kTraceModuleCall : TraceLevel := 0x0020

/-- `kTraceMemory`. -/
def kTraceMemory : TraceLevel := 0x0100

/-- `kTraceTimer`. -/
def kTraceTimer : TraceLevel := 0x0200

/-- `kTraceStream`. -/
def kTraceStream : TraceLevel := 0x0400

/-- `kTraceDebug`. -/
def kTraceDebug : TraceLevel := 0x0800

/-- `kTraceInfo`. -/
def kTraceInfo : TraceLevel := 0x1000

/-- The modules that a record may name. -/
inductive TraceModule where
  | kTraceUndefined
  | kTraceVoice
  | kTraceVideo
  | kTraceUtility
  | kTraceRtpRtcp
  | kTraceTransport
  | kTraceSrtp
  | kTraceAudioCoding
  | kTraceAudioMixerServer
  | kTraceAudioMixerClient
  | kTraceFile
  | kTraceAudioProcessing
  | kTraceVideoCoding
  | kTraceVideoMixer
  | kTraceAudioDevice
  | kTraceVideoRenderer
  | kTraceVideoCapture
  | kTraceRemoteBitrateEstimator
  deriving DecidableEq, Repr

/-- The cases of `AddLevel`. -/
def levelTexts : List (TraceLevel × String) :=
  [(kTraceStateInfo, "STATEINFO ; "), (kTraceWarning, "WARNING   ; "),
    (kTraceError, "ERROR     ; "), (kTraceCritical, "CRITICAL  ; "),
    (kTraceApiCall, "APICALL   ; "), (kTraceModuleCall, "MODULECALL; "),
    (kTraceMemory, "MEMORY    ; "), (kTraceTimer, "TIMER     ; "),
    (kTraceStream, "STREAM    ; "), (kTraceDebug, "DEBUG     ; "),
    (kTraceInfo, "DEBUGINFO ; ")]

/-- The cases of `AddModuleAndId`. -/
def moduleText : TraceModule → Option String
  | .kTraceUndefined => none
  | .kTraceVoice => "       VOICE:"
  | .kTraceVideo => "       VIDEO:"
  | .kTraceUtility => "     UTILITY:"
  | .kTraceRtpRtcp => "    RTP/RTCP:"
  | .kTraceTransport => "   TRANSPORT:"
  | .kTraceSrtp => "        SRTP:"
  | .kTraceAudioCoding => "AUDIO CODING:"
  | .kTraceAudioMixerServer => " AUDIO MIX/S:"
  | .kTraceAudioMixerClient => " AUDIO MIX/C:"
  | .kTraceFile => "        FILE:"
  | .kTraceAudioProcessing => "  AUDIO PROC:"
  | .kTraceVideoCoding => "VIDEO CODING:"
  | .kTraceVideoMixer => "   VIDEO MIX:"
  | .kTraceAudioDevice => "AUDIO DEVICE:"
  | .kTraceVideoRenderer => "VIDEO RENDER:"
  | .kTraceVideoCapture => "VIDEO CAPTUR:"
  | .kTraceRemoteBitrateEstimator => "     BWE RBE:"

/-- The time of day that the clock gives. -/
structure SystemTime where
  tm_hour : ℕ
  tm_min : ℕ
  tm_sec : ℕ
  ms_time : ℕ
  hour_lt : tm_hour < 24
  min_lt : tm_min < 60
  sec_le : tm_sec ≤ 60
  ms_lt : ms_time < 1000

/-- `"(%2u:%2u:%2u:%3lu) "`. -/
def timeText (t : SystemTime) : List UInt8 :=
  ascii "(" ++ unsigned 2 t.tm_hour ++ ascii ":" ++ unsigned 2 t.tm_min ++ ascii ":" ++
    unsigned 2 t.tm_sec ++ ascii ":" ++ unsigned 3 t.ms_time ++ ascii ") "

/-- `"%10lu; "`. -/
def threadText (thread_id : UInt64) : List UInt8 := unsigned 10 thread_id.toNat ++ ascii "; "

/-- A text of C: what stands before the terminator. -/
structure CString where
  text : List UInt8
  no_nul : 0 ∉ text

/-! ## The buffer of a record -/

/-- `char trace_message[WEBRTC_TRACE_MAX_MESSAGE_SIZE]`. -/
structure TraceMessage where
  bytes : List UInt8
  size : bytes.length = maxMessageSize

/-- How a call ends before its last line: with a store outside the buffer, or by a `return`. -/
inductive Stop where
  | outside
  | returned
  deriving DecidableEq, Repr

/-- Bytes are stored in the buffer from `i` on. -/
def TraceMessage.store (b : TraceMessage) (i : ℕ) (xs : List UInt8) : Except Stop TraceMessage :=
  if h : i + xs.length ≤ maxMessageSize then
    .ok
      { bytes := ByteFile.patch b.bytes i xs
        size := by
          have := b.size
          rw [ByteFile.length_patch (by omega)]
          omega }
  else .error .outside

/-- What `sprintf` returns, and the buffer. -/
def sprintf (b : TraceMessage) (i : ℕ) (text : List UInt8) : Except Stop (ℕ × TraceMessage) := do
  return (text.length, ← b.store i (text ++ [0]))

/-- `snprintf` stores less than `n` characters, and returns how many there are. -/
def snprintf (b : TraceMessage) (i n : ℕ) (text : List UInt8) : Except Stop (ℕ × TraceMessage) :=
  if n = 0 then .ok (text.length, b)
  else do return (text.length, ← b.store i (text.take (n - 1) ++ [0]))

/-! ## The pieces of a record -/

/-- A piece of fixed length, or none. -/
def addText (b : TraceMessage) (i : ℕ) (text : Option (List UInt8)) (kMessageLength : ℕ) :
    Except Stop (ℕ × TraceMessage) :=
  match text with
  | some text => do return (kMessageLength, (← sprintf b i text).2)
  | none => .ok (0, b)

/-- The text of a level, none for an unknown one. -/
def levelText (level : TraceLevel) : Option (List UInt8) := (levelTexts.lookup level).map ascii

/-- The text of a module and its id. -/
def moduleAndIdText (module : TraceModule) (id : Int32) : Option (List UInt8) :=
  (moduleText module).map fun text => ascii text ++ signed 11 id.toInt ++ ascii ";"

/-- `AddLevel`: its length, and the buffer. -/
def addLevel (b : TraceMessage) (i : ℕ) (level : TraceLevel) : Except Stop (ℕ × TraceMessage) :=
  addText b i (levelText level) 12

/-- `AddTime`. -/
def addTime (b : TraceMessage) (i : ℕ) (system_time : SystemTime) :
    Except Stop (ℕ × TraceMessage) :=
  addText b i (some (timeText system_time)) 15

/-- `AddModuleAndId`. -/
def addModuleAndId (b : TraceMessage) (i : ℕ) (module : TraceModule) (id : Int32) :
    Except Stop (ℕ × TraceMessage) :=
  addText b i (moduleAndIdText module id) 25

/-- `AddThreadId`. -/
def addThreadId (b : TraceMessage) (i : ℕ) (thread_id : UInt64) : Except Stop (ℕ × TraceMessage) :=
  sprintf b i (threadText thread_id)

/-- The message, cut at `length_remain`. A negative size is a huge `size_t`. -/
def addTraceMessage (b : TraceMessage) (msg : CString) (written_so_far : ℕ) :
    Except Stop (ℕ × TraceMessage) :=
  let length_remain : ℤ := maxMessageSize - written_so_far - 2
  if maxMessageSize ≤ written_so_far then .error .returned
  else do
    let (length, b) ← snprintf b written_so_far (length_remain % 2 ^ 64).toNat msg.text
    if length_remain < length then
      return ((length_remain + 1).toNat, ← b.store (written_so_far + length_remain).toNat [0])
    else return (length + 1, b)

/-- The record that `AddImpl` forms, and its length. No piece before the message returns `-1`. -/
def formMessage (b : TraceMessage) (level : TraceLevel) (system_time : SystemTime)
    (module : TraceModule) (id : Int32) (thread_id : UInt64) (msg : CString) :
    Except Stop (ℕ × TraceMessage) := do
  let (len, b) ← addLevel b 0 level
  let ack_len := len
  let (len, b) ← addTime b ack_len system_time
  let ack_len := ack_len + len
  let (len, b) ← addModuleAndId b ack_len module id
  let ack_len := ack_len + len
  let (len, b) ← addThreadId b ack_len thread_id
  let ack_len := ack_len + len
  let (len, b) ← addTraceMessage b msg ack_len
  let ack_len := ack_len + len
  let b ← b.store ack_len [0]
  let b ← b.store (ack_len - 1) (ascii "\n")
  return (ack_len, b)

/-! ## The streams -/

/-- `file` is `none` for a null pointer and for a closed file. -/
structure TraceOStream where
  file : Option ByteFile
  filter : TraceLevel
  wrap_line_number : ℕ

/-- A stream, with how many rows have been written and where they wrap to. -/
structure TraceHandle where
  ostream : TraceOStream
  wrap_offset : ℕ
  row_count_text : ℕ

/-- `if (row_count_text == wrap_line_number) wrap_offset = ftell(file);` -/
def TraceHandle.tell (handle : TraceHandle) (file : ByteFile) : TraceHandle :=
  if handle.row_count_text = handle.ostream.wrap_line_number then
    { handle with wrap_offset := file.pos }
  else handle

/-- The handle and its file before the write. -/
def TraceHandle.wrap (handle : TraceHandle) (file : ByteFile) : TraceHandle × ByteFile :=
  if handle.ostream.wrap_line_number ≤ handle.row_count_text then
    let handle := handle.tell file
    if maxFileSize ≤ handle.row_count_text then
      ({ handle with row_count_text := handle.ostream.wrap_line_number },
        file.seek handle.wrap_offset)
    else (handle, file)
  else (handle, file)

/-- The file of a stream changes. -/
def TraceHandle.setFile (handle : TraceHandle) (file : ByteFile) : TraceHandle :=
  { handle with ostream := { handle.ostream with file := some file } }

/-- `WriteToFile`: a row, which may first wrap around. -/
def writeToFile (handle : TraceHandle) (msg : List UInt8) (length : ℕ) : TraceHandle :=
  match handle.ostream.file with
  | none => handle
  | some file =>
    let (handle, file) := handle.wrap file
    if handle.row_count_text < maxFileSize then
      { handle.setFile (file.write (msg.take length)) with
        row_count_text := handle.row_count_text + 1 }
    else handle.setFile file

/-- `CheckLevel`. -/
def checkLevel (handle : TraceHandle) (level : TraceLevel) : Bool :=
  level &&& handle.ostream.filter ≠ 0

/-- `TraceCheck`: some stream wants the level. -/
def traceCheck (handles : List TraceHandle) (level : TraceLevel) : Bool :=
  handles.any (checkLevel · level)

/-- `AddTraceMessageToList`: every stream that wants the level gets the record. -/
def addTraceMessageToList (handles : List TraceHandle) (trace_message : List UInt8) (length : ℕ)
    (level : TraceLevel) : List TraceHandle :=
  handles.map fun handle =>
    if checkLevel handle level then writeToFile handle trace_message length else handle

/-- `trace_message` holds anything at first. -/
def addImpl (handles : List TraceHandle) (trace_message : TraceMessage) (level : TraceLevel)
    (system_time : SystemTime) (module : TraceModule) (id : Int32) (thread_id : UInt64)
    (msg : CString) : Except Stop (List TraceHandle) := do
  let (ack_len, b) ← formMessage trace_message level system_time module id thread_id msg
  return addTraceMessageToList handles b.bytes ack_len level

/-- What `vsnprintf` leaves in `buff_data` of the formatted text. -/
def buffData (formatted : CString) : CString where
  text := formatted.text.take (maxMessageSize - 2)
  no_nul h := formatted.no_nul (List.mem_of_mem_take h)

/-- `WebRtcTrace_Add`, on the buffer that it finds on its stack. -/
def webRtcTrace_Add (handles : List TraceHandle) (trace_message : TraceMessage)
    (level : TraceLevel) (system_time : SystemTime) (module : TraceModule) (id : Int32)
    (thread_id : UInt64) (formatted : CString) : Except Stop (List TraceHandle) :=
  if traceCheck handles level then
    addImpl handles trace_message level system_time module id thread_id (buffData formatted)
  else .ok handles

end Trace

end RtcBase
