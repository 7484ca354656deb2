import RtcBase.Trace.Record
import RtcBase.Trace.Wrap

/-!
# The streams of the trace

A program registers streams, changes their filters and adds records, one call after the other. The
first record starts the trace: without a stream `stdout` becomes one, and every stream that is
there gets a line with the date.

* `TraceImpl`, `step`, `run`: the streams, and the calls;
* `View`, `View.step`: what a stream sees of the calls, and it alone;
* `shows_step`: one call does to every stream what it sees of it;
* **`stream_alone`**: after every run of calls, each stream holds what it would hold alone.
-/

namespace RtcBase

namespace Trace

/-- `WEBRTC_TRACE_MAX_OSTREAM_NUMBER`. -/
def maxOStreamNumber : ℕ := 3

/-- `kTraceDefault`. -/
def kTraceDefault : TraceLevel := 0x00ff

/-! ## Calls -/

/-- A `TraceOStream` of the program; `F` are the pointers to files that are open. Its file ends
where it is written next. -/
structure OStream (F : Type) where
  file : Option F
  content : List UInt8
  filter : TraceLevel
  wrap_line_number : ℕ

/-- What `ctime_r` leaves in its buffer of 26 bytes. -/
structure CTime extends CString where
  length_lt : text.length < 26

/-- `AddDateTimeInfo`, with the newline that `TraceInit` puts over the terminator. -/
def dateTimeInfo (t : CTime) : List UInt8 :=
  let trace_message := ascii "Local DateTime: " ++ t.text
  (if trace_message.getLast? = some 10 then trace_message.dropLast else trace_message) ++
    ascii "\n"

/-- The arguments of `WebRtcTrace_Add`, what the clocks give, and what is in its buffer. -/
structure AddCall (F : Type) where
  trace_message : TraceMessage
  level : TraceLevel
  /-- `TraceInit` reads the clock for each stream. -/
  date_time : F → CTime
  system_time : SystemTime
  module : TraceModule
  id : Int32
  thread_id : UInt64
  formatted : CString

/-- The bytes of the record. -/
def AddCall.record {F : Type} (c : AddCall F) : List UInt8 :=
  Trace.record (boilerplate c.level c.system_time c.module c.id c.thread_id)
    (buffData c.formatted).text

/-- `trace_impl_`, and whether `TraceInit` has run. -/
structure TraceImpl (F : Type) where
  files : List F
  handles : List TraceHandle
  started : Bool

variable {F : Type} [DecidableEq F]

/-- No stream is registered. -/
def init : TraceImpl F := ⟨[], [], false⟩

/-- The handle of a stream that has just been registered. -/
def OStream.handle (ostream : OStream F) : TraceHandle :=
  opened ostream.filter ostream.wrap_line_number ostream.content

/-- The file that `WebRtcTrace_SetOStream` registers. -/
def accepts (s : TraceImpl F) (ostream : Option (OStream F)) : Option (F × OStream F) :=
  match ostream with
  | some ostream =>
    match ostream.file with
    | some file =>
      if maxOStreamNumber ≤ s.files.length ∨ file ∈ s.files then none else some (file, ostream)
    | none => none
  | none => none

/-- `WebRtcTrace_SetOStream`. -/
def webRtcTrace_SetOStream (s : TraceImpl F) (ostream : Option (OStream F)) : ℤ × TraceImpl F :=
  match accepts s ostream with
  | some (file, ostream) =>
    (0, { s with files := s.files ++ [file], handles := s.handles ++ [ostream.handle] })
  | none => (-1, s)

/-- The filter of a stream changes. -/
def TraceHandle.setFilter (handle : TraceHandle) (filter : TraceLevel) : TraceHandle :=
  { handle with ostream := { handle.ostream with filter := filter } }

/-- `WebRtcTrace_set_level_filter`, for one file or for all. -/
def webRtcTrace_set_level_filter (s : TraceImpl F) (file : Option F) (filter : TraceLevel) :
    TraceImpl F :=
  { s with
    handles := List.zipWith (fun f handle =>
      if file = none ∨ file = some f then handle.setFilter filter else handle) s.files s.handles }

/-- `WebRtcTrace_level_filter`. -/
def webRtcTrace_level_filter (s : TraceImpl F) (file : Option F) : ℤ :=
  match file with
  | none => -1
  | some file =>
    match (s.files.zip s.handles).lookup file with
    | some handle => handle.ostream.filter.toInt32.toInt
    | none => -1

/-- `fwrite` to the file of a stream, past the count of its rows. -/
def TraceHandle.fwrite (handle : TraceHandle) (msg : List UInt8) : TraceHandle :=
  match handle.ostream.file with
  | some file => handle.setFile (file.write msg)
  | none => handle

/-- The line with the date goes to every stream. -/
def addDateTimes (s : TraceImpl F) (date_time : F → CTime) : TraceImpl F :=
  { s with
    handles := List.zipWith (fun f handle => handle.fwrite (dateTimeInfo (date_time f))) s.files
      s.handles
    started := true }

/-- `TraceInit`. -/
def traceInit (stdout : F × List UInt8) (s : TraceImpl F) (date_time : F → CTime) : TraceImpl F :=
  let s :=
    if s.files.length = 0 then
      (webRtcTrace_SetOStream s (some ⟨some stdout.1, stdout.2, kTraceDefault, 0⟩)).2
    else s
  addDateTimes s date_time

/-- The calls. -/
inductive Act (F : Type) where
  | setOStream (ostream : Option (OStream F))
  | set_level_filter (file : Option F) (filter : TraceLevel)
  | add (call : AddCall F)

/-- A call. The first record starts the trace. -/
def step (stdout : F × List UInt8) (s : TraceImpl F) : Act F → Except Stop (TraceImpl F)
  | .setOStream ostream => .ok (webRtcTrace_SetOStream s ostream).2
  | .set_level_filter file filter => .ok (webRtcTrace_set_level_filter s file filter)
  | .add c => do
    let s := if s.started then s else traceInit stdout s c.date_time
    let handles ← webRtcTrace_Add s.handles c.trace_message c.level c.system_time c.module c.id
      c.thread_id c.formatted
    return { s with handles := handles }

/-- The calls, one after the other. -/
def run (stdout : F × List UInt8) (s : TraceImpl F) (as : List (Act F)) :
    Except Stop (TraceImpl F) :=
  as.foldlM (step stdout) s

/-! ## One stream -/

/-- What is written to a stream: its content before the first record, and the records. -/
structure View where
  filter : TraceLevel
  wrap_line_number : ℕ
  start : List UInt8
  records : List (List UInt8)
  started : Bool

/-- The handle that has been written to so. -/
def View.handle (v : View) : TraceHandle :=
  log (opened v.filter v.wrap_line_number v.start) v.records

/-- What the stream sees of a call. -/
def View.step (f : F) (v : View) : Act F → View
  | .setOStream _ => v
  | .set_level_filter file filter =>
    if file = none ∨ file = some f then { v with filter := filter } else v
  | .add c =>
    { v with
      start := if v.started then v.start else v.start ++ dateTimeInfo (c.date_time f)
      records := if c.level &&& v.filter ≠ 0 then v.records ++ [c.record] else v.records
      started := true }

/-- The stream that a call opens, and what it holds behind that call. -/
def opens (stdout : F × List UInt8) (s : TraceImpl F) (a : Act F) : Option (F × View) :=
  match a with
  | .setOStream ostream =>
    (accepts s ostream).map fun o =>
      (o.1, ⟨o.2.filter, o.2.wrap_line_number, o.2.content, [], s.started⟩)
  | .set_level_filter .. => none
  | .add c =>
    if s.started = false ∧ s.files.length = 0 then
      some (stdout.1, View.step stdout.1 ⟨kTraceDefault, 0, stdout.2, [], false⟩ (.add c))
    else none

/-! ## Filters and headers -/

theorem tell_setFilter (handle : TraceHandle) (filter : TraceLevel) (file : ByteFile) :
    (handle.setFilter filter).tell file = (handle.tell file).setFilter filter := by
  unfold TraceHandle.tell TraceHandle.setFilter
  by_cases h : handle.row_count_text = handle.ostream.wrap_line_number <;> simp [h]

theorem wrap_setFilter (handle : TraceHandle) (filter : TraceLevel) (file : ByteFile) :
    (handle.setFilter filter).wrap file =
      ((handle.wrap file).1.setFilter filter, (handle.wrap file).2) := by
  simp only [TraceHandle.wrap, tell_setFilter]
  by_cases hw : handle.ostream.wrap_line_number ≤ handle.row_count_text
  · by_cases hmax : maxFileSize ≤ (handle.tell file).row_count_text <;>
      simp [TraceHandle.setFilter, hw, hmax]
  · simp [TraceHandle.setFilter, hw]

theorem write_setFilter (handle : TraceHandle) (filter : TraceLevel) (r : List UInt8) :
    write (handle.setFilter filter) r = (write handle r).setFilter filter := by
  cases hfile : handle.ostream.file with
  | none => simp [write, writeToFile, TraceHandle.setFilter, hfile]
  | some file =>
    have hfile' : (handle.setFilter filter).ostream.file = some file := hfile
    simp only [write, writeToFile, hfile, hfile', wrap_setFilter]
    by_cases hlt : (handle.wrap file).1.row_count_text < maxFileSize <;>
      simp [TraceHandle.setFilter, TraceHandle.setFile, hlt]

/-- A filter decides what is written, not how. -/
theorem log_setFilter (handle : TraceHandle) (filter : TraceLevel) (rs : List (List UInt8)) :
    log (handle.setFilter filter) rs = (log handle rs).setFilter filter := by
  induction rs using List.reverseRecOn with
  | nil => rfl
  | append_singleton rs r ih => rw [log_snoc, log_snoc, ih, write_setFilter]

theorem View.handle_setFilter (v : View) (filter : TraceLevel) :
    { v with filter := filter }.handle = v.handle.setFilter filter :=
  log_setFilter (opened v.filter v.wrap_line_number v.start) filter v.records

theorem View.handle_filter (v : View) : v.handle.ostream.filter = v.filter := by
  have h := v.handle_setFilter v.filter
  exact congrArg (fun handle => handle.ostream.filter) h

theorem View.handle_write (v : View) (r : List UInt8) :
    { v with records := v.records ++ [r] }.handle = write v.handle r :=
  log_snoc _ _ _

/-- The line with the date stands before the rows. -/
theorem View.handle_fwrite {v : View} (h : v.records = []) (msg : List UInt8) :
    v.handle.fwrite msg = { v with start := v.start ++ msg }.handle := by
  obtain ⟨filter, w, start, records, started⟩ := v
  obtain rfl : records = [] := h
  have hwrite := ending_write start msg
  simp only [View.handle, log, List.foldl_nil, opened, TraceHandle.fwrite, TraceHandle.setFile]
  rw [show (⟨start, start.length⟩ : ByteFile) = ending start from rfl, hwrite]
  rfl

/-! ## One call -/

/-- The streams are what they see. -/
structure Shows (s : TraceImpl F) (l : List (F × View)) : Prop where
  files : s.files = l.map Prod.fst
  handles : s.handles = l.map fun p => p.2.handle
  started : ∀ p ∈ l, p.2.started = s.started
  fresh : s.started = false → ∀ p ∈ l, p.2.records = []

/-- The line with the date. -/
def View.dated (v : View) (date_time : CTime) : View :=
  { v with start := v.start ++ dateTimeInfo date_time, started := true }

theorem View.step_dated (f : F) {v : View} (h : v.started = false) (c : AddCall F) :
    v.step f (.add c) = (v.dated (c.date_time f)).step f (.add c) := by
  simp only [View.step, View.dated, h, Bool.false_eq_true, if_false, if_true]
  rfl

variable {s s' : TraceImpl F} {l : List (F × View)} (stdout : F × List UInt8)

omit [DecidableEq F] in
theorem shows_init : Shows (init : TraceImpl F) [] where
  files := rfl
  handles := rfl
  started _ h := absurd h List.not_mem_nil
  fresh _ _ h := absurd h List.not_mem_nil

omit [DecidableEq F] in
theorem Shows.register (h : Shows s l) (file : F) (ostream : OStream F) :
    Shows { s with files := s.files ++ [file], handles := s.handles ++ [ostream.handle] }
      (l ++ [(file, ⟨ostream.filter, ostream.wrap_line_number, ostream.content, [],
        s.started⟩)]) where
  files := by rw [List.map_append, ← h.files]; rfl
  handles := by rw [List.map_append, ← h.handles]; rfl
  started p hp := by
    rcases List.mem_append.mp hp with hp | hp
    · exact h.started p hp
    · rw [List.mem_singleton.mp hp]
  fresh hs p hp := by
    rcases List.mem_append.mp hp with hp | hp
    · exact h.fresh hs p hp
    · rw [List.mem_singleton.mp hp]

theorem shows_setOStream (h : Shows s l) (ostream : Option (OStream F)) :
    Shows (webRtcTrace_SetOStream s ostream).2
      (l ++ (opens stdout s (.setOStream ostream)).toList) := by
  cases ho : accepts s ostream with
  | none => simpa [webRtcTrace_SetOStream, opens, ho] using h
  | some o => simpa [webRtcTrace_SetOStream, opens, ho] using h.register o.1 o.2

theorem shows_set_level_filter (h : Shows s l) (file : Option F) (filter : TraceLevel) :
    Shows (webRtcTrace_set_level_filter s file filter)
      (l.map fun p => (p.1, p.2.step p.1 (.set_level_filter file filter))) where
  files := by rw [List.map_map]; exact h.files
  handles := by
    simp only [webRtcTrace_set_level_filter, h.files, h.handles, List.zipWith_map,
      List.zipWith_self, List.map_map]
    refine List.map_congr_left fun p _ => ?_
    simp only [Function.comp, View.step]
    split_ifs
    · exact (p.2.handle_setFilter filter).symm
    · rfl
  started p hp := by
    obtain ⟨q, hq, rfl⟩ := List.mem_map.mp hp
    simp only [View.step]
    split_ifs <;> exact h.started q hq
  fresh hs p hp := by
    obtain ⟨q, hq, rfl⟩ := List.mem_map.mp hp
    simp only [View.step]
    split_ifs <;> exact h.fresh hs q hq

omit [DecidableEq F] in
theorem shows_dated (h : Shows s l) (hs : s.started = false) (date_time : F → CTime) :
    Shows (addDateTimes s date_time) (l.map fun p => (p.1, p.2.dated (date_time p.1))) where
  files := by rw [List.map_map]; exact h.files
  handles := by
    simp only [addDateTimes, h.files, h.handles, List.zipWith_map, List.zipWith_self, List.map_map]
    exact List.map_congr_left fun p hp => View.handle_fwrite (h.fresh hs p hp) _
  started p hp := by
    obtain ⟨q, hq, rfl⟩ := List.mem_map.mp hp
    rfl
  fresh h := absurd h Bool.noConfusion

theorem shows_add (h : Shows s l) (hs : s.started = true) (c : AddCall F) :
    ∃ s', step stdout s (.add c) = .ok s' ∧
      Shows s' (l.map fun p => (p.1, p.2.step p.1 (.add c))) := by
  simp only [step, hs, if_true, webRtcTrace_Add_eq]
  refine ⟨_, rfl, ?_, ?_, ?_, fun h => absurd h (by simp)⟩
  · rw [List.map_map]
    exact h.files
  · simp only [addTraceMessageToList, h.handles, List.map_map]
    refine List.map_congr_left fun p hp => ?_
    have hstarted : p.2.started = true := (h.started p hp).trans hs
    simp only [Function.comp, checkLevel, View.handle_filter, View.step, hstarted, if_true]
    by_cases hlevel : c.level &&& p.2.filter = 0
    · simp only [hlevel, ne_eq, not_true_eq_false, decide_false, Bool.false_eq_true, if_false]
      rfl
    · simp only [hlevel, ne_eq, not_false_eq_true, decide_true, if_true]
      exact (p.2.handle_write c.record).symm
  · intro p hp
    obtain ⟨q, hq, rfl⟩ := List.mem_map.mp hp
    rfl

theorem shows_dated_add (h : Shows s l) (hs : s.started = false) (c : AddCall F) :
    ∃ s', step stdout (addDateTimes s c.date_time) (.add c) = .ok s' ∧
      Shows s' (l.map fun p => (p.1, p.2.step p.1 (.add c))) := by
  obtain ⟨s', hs', hshows⟩ := shows_add stdout (shows_dated h hs c.date_time) rfl c
  have hmap : (l.map fun p => (p.1, p.2.dated (c.date_time p.1))).map
      (fun p => (p.1, p.2.step p.1 (.add c))) = l.map fun p => (p.1, p.2.step p.1 (.add c)) := by
    rw [List.map_map]
    refine List.map_congr_left fun p hp => ?_
    rw [View.step_dated p.1 ((h.started p hp).trans hs) c]
    rfl
  rw [hmap] at hshows
  exact ⟨s', hs', hshows⟩

/-- **One call** does to every stream what it sees of it, and may open one. -/
theorem shows_step (h : Shows s l) (a : Act F) :
    ∃ s', step stdout s a = .ok s' ∧
      Shows s' ((l.map fun p => (p.1, p.2.step p.1 a)) ++ (opens stdout s a).toList) := by
  cases a with
  | setOStream ostream =>
    refine ⟨_, rfl, ?_⟩
    have hid : (l.map fun p => (p.1, p.2.step p.1 (.setOStream ostream))) = l := List.map_id l
    rw [hid]
    exact shows_setOStream stdout h ostream
  | set_level_filter file filter =>
    refine ⟨_, rfl, ?_⟩
    simpa [opens] using shows_set_level_filter h file filter
  | add c =>
    cases hs : s.started with
    | true => simpa [opens, hs] using shows_add stdout h hs c
    | false =>
      have hstep : step stdout s (.add c) =
          step stdout (traceInit stdout s c.date_time) (.add c) := by
        simp [step, hs, traceInit, addDateTimes]
      by_cases hnone : s.files.length = 0
      · -- `stdout` becomes a stream
        have hfiles : s.files = [] := List.eq_nil_of_length_eq_zero hnone
        obtain rfl : l = [] := by simpa [hfiles] using h.files.symm
        obtain ⟨s', hs', hshows⟩ := shows_dated_add stdout
          (h.register stdout.1 ⟨some stdout.1, stdout.2, kTraceDefault, 0⟩) hs c
        refine ⟨s', ?_, ?_⟩
        · rw [hstep, ← hs']
          simp [traceInit, webRtcTrace_SetOStream, accepts, hfiles, maxOStreamNumber]
        · simpa [opens, hs, hfiles] using hshows
      · obtain ⟨s', hs', hshows⟩ := shows_dated_add stdout h hs c
        refine ⟨s', ?_, ?_⟩
        · rw [hstep, ← hs']
          simp [traceInit, hnone]
        · simpa [opens, hnone] using hshows

/-! ## Every run -/

variable {stdout} in
theorem accepts_of_opens {f : F} {v : View} {a : Act F} (h : opens stdout s a = some (f, v)) :
    f ∉ s.files ∧ s.files.length < maxOStreamNumber := by
  cases a with
  | setOStream ostream =>
    simp only [opens, Option.map_eq_some_iff] at h
    obtain ⟨⟨file, o⟩, ho, hf⟩ := h
    obtain rfl : file = f := congrArg Prod.fst hf
    unfold accepts at ho
    split at ho
    · split at ho
      · split_ifs at ho with hno
        rw [not_or] at hno
        obtain rfl := congrArg Prod.fst (Option.some.inj ho)
        exact ⟨hno.2, not_le.mp hno.1⟩
      · cases ho
    · cases ho
  | set_level_filter file filter => cases h
  | add c =>
    simp only [opens, Option.ite_none_right_eq_some] at h
    obtain ⟨⟨-, hlen⟩, -⟩ := h
    rw [List.eq_nil_of_length_eq_zero hlen]
    exact ⟨List.not_mem_nil, Nat.zero_lt_succ _⟩

theorem run_snoc (s : TraceImpl F) (as : List (Act F)) (a : Act F) :
    run stdout s (as ++ [a]) = run stdout s as >>= fun s => step stdout s a := by
  rw [run, List.foldlM_append]
  simp [run]

/-- Where a stream comes from, and what it has seen. -/
def Origin (stdout : F × List UInt8) (as : List (Act F)) (f : F) (v : View) : Prop :=
  ∃ pre a post s v₀, as = pre ++ a :: post ∧ run stdout init pre = .ok s ∧
    opens stdout s a = some (f, v₀) ∧ v = post.foldl (View.step f) v₀

theorem origin_snoc (as : List (Act F)) (a : Act F) (f : F) (v : View) :
    Origin stdout (as ++ [a]) f v ↔
      (∃ v₀, Origin stdout as f v₀ ∧ v = v₀.step f a) ∨
        ∃ s, run stdout init as = .ok s ∧ opens stdout s a = some (f, v) := by
  constructor
  · rintro ⟨pre, b, post, s, v₀, heq, hpre, hopen, rfl⟩
    rcases List.eq_nil_or_concat post with rfl | ⟨post', c, rfl⟩
    · obtain ⟨rfl, hb⟩ := List.append_inj' heq rfl
      obtain rfl : a = b := List.singleton_inj.mp hb
      exact Or.inr ⟨s, hpre, hopen⟩
    · rw [List.concat_eq_append, ← List.cons_append, ← List.append_assoc] at heq
      obtain ⟨rfl, hc⟩ := List.append_inj' heq rfl
      obtain rfl : a = c := List.singleton_inj.mp hc
      refine Or.inl ⟨post'.foldl (View.step f) v₀, ⟨pre, b, post', s, v₀, rfl, hpre, hopen, rfl⟩,
        ?_⟩
      rw [List.concat_eq_append, List.foldl_append]
      rfl
  · rintro (⟨v₀, ⟨pre, b, post, s, v₁, rfl, hpre, hopen, rfl⟩, rfl⟩ | ⟨s, hs, hopen⟩)
    · refine ⟨pre, b, post ++ [a], s, v₁, by simp, hpre, hopen, ?_⟩
      rw [List.foldl_append]
      rfl
    · exact ⟨as, a, [], s, v, rfl, hs, hopen, rfl⟩

theorem shows_run (as : List (Act F)) : ∃ s l, run stdout init as = .ok s ∧ Shows s l ∧
    s.files.Nodup ∧ s.files.length ≤ maxOStreamNumber ∧
      ∀ f v, (f, v) ∈ l ↔ Origin stdout as f v := by
  induction as using List.reverseRecOn with
  | nil =>
    refine ⟨init, [], rfl, shows_init, List.nodup_nil, Nat.zero_le _, fun f v => ?_⟩
    refine iff_of_false List.not_mem_nil ?_
    rintro ⟨pre, a, post, s, v₀, heq, -⟩
    simp at heq
  | append_singleton as a ih =>
    obtain ⟨s, l, hs, hshows, hnodup, hle, horigin⟩ := ih
    obtain ⟨s', hs', hshows'⟩ := shows_step stdout hshows a
    have hfiles : s'.files = s.files ++ (opens stdout s a).toList.map Prod.fst := by
      rw [hshows'.files, List.map_append, List.map_map, hshows.files]
      rfl
    refine ⟨s', _, by rw [run_snoc, hs]; exact hs', hshows', ?_, ?_, fun f v => ?_⟩
    · rw [hfiles]
      cases ho : opens stdout s a with
      | none => simpa using hnodup
      | some o =>
        rw [Option.toList_some, List.map_singleton]
        exact List.nodup_append.mpr ⟨hnodup, List.nodup_singleton _, fun f hf g hg heq =>
          (accepts_of_opens ho).1 (List.mem_singleton.mp hg ▸ heq ▸ hf)⟩
    · rw [hfiles]
      cases ho : opens stdout s a with
      | none => simpa using hle
      | some o => simpa using (accepts_of_opens ho).2
    · rw [origin_snoc, List.mem_append, List.mem_map, Option.mem_toList]
      refine or_congr ⟨?_, ?_⟩ ⟨fun h => ⟨s, hs, h⟩, ?_⟩
      · rintro ⟨p, hp, heq⟩
        obtain ⟨rfl, rfl⟩ := Prod.mk.inj heq
        exact ⟨p.2, (horigin p.1 p.2).mp hp, rfl⟩
      · rintro ⟨v₀, hv₀, rfl⟩
        exact ⟨(f, v₀), (horigin f v₀).mpr hv₀, rfl⟩
      · rintro ⟨s₁, hs₁, hopen⟩
        obtain rfl : s = s₁ := Except.ok.inj (hs.symm.trans hs₁)
        exact hopen

theorem lookup_of_mem {B : Type} {l : List (F × B)} (hnodup : (l.map Prod.fst).Nodup) {f : F}
    {b : B} (h : (f, b) ∈ l) : l.lookup f = some b := by
  obtain ⟨l₁, l₂, rfl⟩ := List.append_of_mem h
  refine List.lookup_eq_some_iff.mpr ⟨l₁, l₂, rfl, fun p hp => ?_⟩
  rw [List.map_append, List.map_cons, List.nodup_append] at hnodup
  have hne := hnodup.2.2 p.1 (List.mem_map_of_mem hp) f List.mem_cons_self
  simpa using Ne.symm hne

/-- **Each stream is alone.** After every run of calls, no two streams have one file and there are
at most three. They are those that a call has opened, and the handle of each is what the calls
behind that one would make of it alone: its rows are the records of the levels that its filter let
through at the time, in their order, behind its first content and, if it was there when the trace
was started, the line with the date. `WebRtcTrace_level_filter` gives its filter. -/
theorem stream_alone (as : List (Act F)) :
    ∃ s, run stdout init as = .ok s ∧ s.files.Nodup ∧ s.files.length ≤ maxOStreamNumber ∧
      s.handles.length = s.files.length ∧
      (∀ f handle, (f, handle) ∈ s.files.zip s.handles ↔
        ∃ v, Origin stdout as f v ∧ handle = v.handle) ∧
      ∀ f v, Origin stdout as f v →
        webRtcTrace_level_filter s (some f) = v.filter.toInt32.toInt ∧
          ∃ file, v.handle.ostream.file = some file ∧
            kept (min v.wrap_line_number maxFileSize) v.start v.records <+: file.content := by
  obtain ⟨s, l, hs, hshows, hnodup, hle, horigin⟩ := shows_run stdout as
  have hzip : s.files.zip s.handles = l.map fun q => (q.1, q.2.handle) := by
    rw [hshows.files, hshows.handles, List.zip_map']
  refine ⟨s, hs, hnodup, hle, by rw [hshows.handles, hshows.files]; simp, fun f handle => ?_, ?_⟩
  · rw [hzip, List.mem_map]
    constructor
    · rintro ⟨p, hp, heq⟩
      obtain ⟨rfl, rfl⟩ := Prod.mk.inj heq
      exact ⟨p.2, (horigin p.1 p.2).mp hp, rfl⟩
    · rintro ⟨v, hv, rfl⟩
      exact ⟨(f, v), (horigin f v).mpr hv, rfl⟩
  · intro f v hv
    obtain ⟨file, hfile⟩ := logged_log v.filter v.wrap_line_number v.start v.records
    refine ⟨?_, file, hfile.file_eq, logged_kept hfile⟩
    have hmem : (f, v.handle) ∈ l.map fun q => (q.1, q.2.handle) :=
      List.mem_map.mpr ⟨(f, v), (horigin f v).mpr hv, rfl⟩
    have hkeys : ((l.map fun q => (q.1, q.2.handle)).map Prod.fst).Nodup := by
      rw [List.map_map]
      exact hshows.files ▸ hnodup
    simp only [webRtcTrace_level_filter, hzip, lookup_of_mem hkeys hmem, View.handle_filter]

end Trace

end RtcBase
