import RtcBase.Trace.Model

/-!
# Log wrapping

A stream keeps its first rows. Once it is full it starts over behind row `wrap_line_number`, again
and again, or takes no more rows if there are none behind that one.

* `log`: the records of a list, written one after the other;
* `wrap_before`, `wrap_at`, `wrap_behind`, `wrap_over`: what a call does before it writes;
* **`Phase`**: a stream is filling up, or wraps, or is full;
* `phase_write`: one call;
* **`log_wraps`**: every run of calls.
-/

namespace RtcBase

namespace Trace

variable {handle : TraceHandle} {file : ByteFile} {w : ℕ} {start r : List UInt8}
  {rs : List (List UInt8)}

/-- A stream behind its initial content, registered and not written to yet. -/
def opened (filter : TraceLevel) (w : ℕ) (start : List UInt8) : TraceHandle where
  ostream := { file := some ⟨start, start.length⟩, filter := filter, wrap_line_number := w }
  wrap_offset := 0
  row_count_text := 0

/-- A record is written. -/
def write (handle : TraceHandle) (r : List UInt8) : TraceHandle := writeToFile handle r r.length

/-- Records are written, one after the other. -/
def log (handle : TraceHandle) (rs : List (List UInt8)) : TraceHandle := rs.foldl write handle

theorem log_snoc (handle : TraceHandle) (rs : List (List UInt8)) (r : List UInt8) :
    log handle (rs ++ [r]) = write (log handle rs) r := by
  rw [log, List.foldl_append]
  rfl

/-! ## Before the write -/

theorem wrap_before (h : handle.row_count_text < handle.ostream.wrap_line_number) :
    handle.wrap file = (handle, file) := by
  rw [TraceHandle.wrap, if_neg (not_le.mpr h)]

theorem wrap_at (h : handle.row_count_text = handle.ostream.wrap_line_number)
    (hlt : handle.row_count_text < maxFileSize) :
    handle.wrap file = ({ handle with wrap_offset := file.pos }, file) := by
  rw [TraceHandle.wrap, if_pos h.ge, TraceHandle.tell, if_pos h]
  exact if_neg (not_le.mpr hlt)

theorem wrap_behind (h : handle.ostream.wrap_line_number < handle.row_count_text)
    (hlt : handle.row_count_text < maxFileSize) : handle.wrap file = (handle, file) := by
  rw [TraceHandle.wrap, if_pos h.le, TraceHandle.tell, if_neg h.ne']
  exact if_neg (not_le.mpr hlt)

theorem wrap_over (h : handle.ostream.wrap_line_number < handle.row_count_text)
    (hle : maxFileSize ≤ handle.row_count_text) :
    handle.wrap file = ({ handle with row_count_text := handle.ostream.wrap_line_number },
      file.seek handle.wrap_offset) := by
  rw [TraceHandle.wrap, if_pos h.le, TraceHandle.tell, if_neg h.ne']
  exact if_pos hle

theorem wrap_full (h : handle.row_count_text = handle.ostream.wrap_line_number)
    (hle : maxFileSize ≤ handle.row_count_text) :
    handle.wrap file = ({ handle with wrap_offset := file.pos }, file) := by
  rw [TraceHandle.wrap, if_pos h.ge, TraceHandle.tell, if_pos h]
  refine (if_pos hle).trans ?_
  rw [← h]
  rfl

/-! ## The write -/

theorem write_of_lt {handle' : TraceHandle} {file' : ByteFile}
    (hfile : handle.ostream.file = some file) (hwrap : handle.wrap file = (handle', file'))
    (hlt : handle'.row_count_text < maxFileSize) :
    write handle r = { handle'.setFile (file'.write r) with
      row_count_text := handle'.row_count_text + 1 } := by
  simp only [write, writeToFile, hfile, hwrap, if_pos hlt, List.take_length]

theorem write_of_le {handle' : TraceHandle} {file' : ByteFile}
    (hfile : handle.ostream.file = some file) (hwrap : handle.wrap file = (handle', file'))
    (hle : maxFileSize ≤ handle'.row_count_text) : write handle r = handle'.setFile file' := by
  simp only [write, writeToFile, hfile, hwrap, if_neg (not_lt.mpr hle)]

/-- A file with nothing behind its position. -/
def ending (content : List UInt8) : ByteFile := ⟨content, content.length⟩

theorem ending_write (content xs : List UInt8) :
    (ending content).write xs = ending (content ++ xs) := by
  rw [ByteFile.write_end rfl, ending, ending, List.length_append]

/-- What stays in the file of the records `rs`, where the first `w` rows stay. -/
def kept (w : ℕ) (start : List UInt8) (rs : List (List UInt8)) : List UInt8 :=
  start ++ (rs.take w).flatten

/-- **Where a stream stands** after the records `rs`. -/
inductive Phase (w : ℕ) (start : List UInt8) (rs : List (List UInt8)) (row offset : ℕ)
    (file : ByteFile) : Prop where
  | filling (hw : rs.length ≤ w) (hmax : rs.length < maxFileSize) (hrow : row = rs.length)
      (hfile : file = ending (start ++ rs.flatten))
  | wrapping (hw : w < rs.length) (hmax : w < maxFileSize) (hrow : w < row)
      (hle : row ≤ maxFileSize) (hoffset : offset = (kept w start rs).length)
      (hlow : (kept w start rs).length ≤ file.pos) (hhigh : file.pos ≤ file.content.length)
      (hpre : kept w start rs <+: file.content)
  | full (hw : maxFileSize ≤ w) (hmax : maxFileSize ≤ rs.length) (hrow : row = maxFileSize)
      (hfile : file = ending (kept maxFileSize start rs))

/-- **The invariant of a stream.** -/
structure Logged (w : ℕ) (start : List UInt8) (rs : List (List UInt8)) (handle : TraceHandle)
    (file : ByteFile) : Prop where
  file_eq : handle.ostream.file = some file
  lines_eq : handle.ostream.wrap_line_number = w
  phase : Phase w start rs handle.row_count_text handle.wrap_offset file

theorem logged_opened (filter : TraceLevel) (w : ℕ) (start : List UInt8) :
    Logged w start [] (opened filter w start) (ending start) where
  file_eq := rfl
  lines_eq := rfl
  phase := .filling (Nat.zero_le w) (by decide) rfl (by rw [List.flatten_nil, List.append_nil])

/-! ## One call -/

theorem kept_snoc (h : w ≤ rs.length) : kept w start (rs ++ [r]) = kept w start rs := by
  rw [kept, List.take_append_of_le_length h, kept]

theorem kept_of_length_le (h : rs.length ≤ w) : kept w start rs = start ++ rs.flatten := by
  rw [kept, List.take_of_length_le h]

theorem flatten_snoc (rs : List (List UInt8)) (r : List UInt8) :
    (rs ++ [r]).flatten = rs.flatten ++ r := by
  rw [List.flatten_append, List.flatten_singleton]

theorem ending_write_flatten (start : List UInt8) (rs : List (List UInt8)) (r : List UInt8) :
    (ending (start ++ rs.flatten)).write r = ending (start ++ (rs ++ [r]).flatten) := by
  rw [ending_write, flatten_snoc, List.append_assoc]

theorem phase_write {row offset : ℕ} (hw : w ≤ rs.length) (hmax : w < maxFileSize) (hrow : w ≤ row)
    (hlt : row < maxFileSize) (hoffset : offset = (kept w start rs).length)
    (hlow : (kept w start rs).length ≤ file.pos) (hhigh : file.pos ≤ file.content.length)
    (hpre : kept w start rs <+: file.content) :
    Phase w start (rs ++ [r]) (row + 1) offset (file.write r) := by
  rw [← kept_snoc (r := r) hw] at hoffset hlow hpre
  refine .wrapping ?_ hmax (by omega) hlt hoffset ?_ ?_ ?_
  · rw [List.length_append, List.length_singleton]
    omega
  all_goals rw [ByteFile.write_eq hhigh]
  · exact hlow.trans (Nat.le_add_right _ _)
  · rw [ByteFile.length_patch hhigh]
    exact le_max_right _ _
  · exact ByteFile.prefix_patch hpre hlow

theorem logged_of_lt {handle' : TraceHandle} {file' : ByteFile}
    (hfile : handle.ostream.file = some file) (hwrap : handle.wrap file = (handle', file'))
    (hlines : handle'.ostream.wrap_line_number = w) (hlt : handle'.row_count_text < maxFileSize)
    (hphase : Phase w start (rs ++ [r]) (handle'.row_count_text + 1) handle'.wrap_offset
      (file'.write r)) :
    ∃ file'', Logged w start (rs ++ [r]) (write handle r) file'' ∧
      (w < maxFileSize → file'' = (handle.wrap file).2.write r) := by
  rw [write_of_lt hfile hwrap hlt, hwrap]
  exact ⟨file'.write r, ⟨rfl, hlines, hphase⟩, fun _ => rfl⟩

theorem logged_of_le {handle' : TraceHandle} {file' : ByteFile}
    (hfile : handle.ostream.file = some file) (hwrap : handle.wrap file = (handle', file'))
    (hlines : handle'.ostream.wrap_line_number = w) (hle : maxFileSize ≤ handle'.row_count_text)
    (hw : maxFileSize ≤ w)
    (hphase : Phase w start (rs ++ [r]) handle'.row_count_text handle'.wrap_offset file') :
    ∃ file'', Logged w start (rs ++ [r]) (write handle r) file'' ∧
      (w < maxFileSize → file'' = (handle.wrap file).2.write r) := by
  rw [write_of_le hfile hwrap hle]
  exact ⟨file', ⟨rfl, hlines, hphase⟩, fun hlt => absurd hlt (not_lt.mpr hw)⟩

/-- **One call.** If there are rows to overwrite, the record is written. -/
theorem logged_write (h : Logged w start rs handle file) (r : List UInt8) :
    ∃ file', Logged w start (rs ++ [r]) (write handle r) file' ∧
      (w < maxFileSize → file' = (handle.wrap file).2.write r) := by
  obtain ⟨hfile, hlines, hphase⟩ := h
  have hsnoc : (rs ++ [r]).length = rs.length + 1 := List.length_append
  cases hphase with
  | filling hw hmax hrow hend =>
    have hwrite : file.write r = ending (start ++ (rs ++ [r]).flatten) := by
      rw [hend, ending_write_flatten]
    rcases hw.lt_or_eq with hlt | heq
    · -- before row `w`
      refine logged_of_lt hfile (wrap_before (by omega)) hlines (by omega) ?_
      rcases Nat.lt_or_ge (rs ++ [r]).length maxFileSize with hmax' | hmax'
      · exact .filling (by omega) hmax' (by omega) hwrite
      · exact .full (by omega) hmax' (by omega)
          (hwrite.trans (by rw [kept_of_length_le (by omega)]))
    · -- row `w`: the offset is the end of the rows before
      have hkept : kept w start rs = start ++ rs.flatten := kept_of_length_le hw
      refine logged_of_lt hfile (wrap_at (by omega) (by omega)) hlines
        (by simp only; omega) (phase_write heq.ge (by omega) (by simp only; omega)
          (by simp only; omega) ?_ ?_ ?_ ?_)
      · rw [hend, hkept]
        rfl
      · rw [hend, hkept]
        exact le_rfl
      · rw [hend]
        exact le_rfl
      · rw [hend, hkept]
        exact List.prefix_refl _
  | wrapping hw hmax hrow hle hoffset hlow hhigh hpre =>
    rcases hle.lt_or_eq with hlt | heq
    · exact logged_of_lt hfile (wrap_behind (by omega) hlt) hlines hlt
        (phase_write hw.le hmax hrow.le hlt hoffset hlow hhigh hpre)
    · -- a full stream starts over behind row `w`
      refine logged_of_lt hfile (wrap_over (by omega) heq.ge) hlines (by simp only; omega)
        (phase_write hw.le hmax (by simp only; omega) (by simp only; omega) hoffset hoffset.ge ?_
          hpre)
      exact hoffset.le.trans hpre.length_le
  | full hw hmax hrow hend =>
    have hkept : file = ending (kept maxFileSize start (rs ++ [r])) := by
      rw [kept_snoc hmax, hend]
    rcases hw.lt_or_eq with hlt | heq
    · exact logged_of_le hfile (wrap_before (by omega)) hlines hrow.ge hw
        (.full hw (by omega) hrow hkept)
    · exact logged_of_le hfile (wrap_full (by omega) hrow.ge) hlines hrow.ge hw
        (.full hw (by omega) hrow hkept)

/-! ## Every run -/

/-- **The run lemma.** -/
theorem logged_log (filter : TraceLevel) (w : ℕ) (start : List UInt8) (rs : List (List UInt8)) :
    ∃ file, Logged w start rs (log (opened filter w start) rs) file := by
  induction rs using List.reverseRecOn with
  | nil => exact ⟨_, logged_opened filter w start⟩
  | append_singleton rs r ih =>
    obtain ⟨file, hfile⟩ := ih
    obtain ⟨file', hfile', -⟩ := logged_write hfile r
    rw [log_snoc]
    exact ⟨file', hfile'⟩

section Logged

variable (h : Logged w start rs handle file)

include h

theorem logged_row_le : handle.row_count_text ≤ maxFileSize := by
  cases h.phase with
  | filling _ hmax hrow _ => omega
  | wrapping _ _ _ hle _ _ _ _ => exact hle
  | full _ _ hrow _ => exact hrow.le

theorem logged_kept : kept (min w maxFileSize) start rs <+: file.content := by
  cases h.phase with
  | filling hw hmax _ hend =>
    rw [hend, kept_of_length_le (by omega)]
    exact List.prefix_refl _
  | wrapping _ hmax _ _ _ _ _ hpre => rwa [min_eq_left hmax.le]
  | full hw _ _ hend =>
    rw [hend, min_eq_right hw]
    exact List.prefix_refl _

theorem logged_offset (hw : w ≤ handle.row_count_text) (hle : maxFileSize ≤ handle.row_count_text) :
    (handle.tell file).wrap_offset = (kept w start rs).length := by
  have hlines := h.lines_eq
  cases h.phase with
  | filling _ hmax hrow _ => omega
  | wrapping _ _ hrow _ hoffset _ _ _ =>
    rw [TraceHandle.tell, if_neg (by omega)]
    exact hoffset
  | full hmax _ hrow hend =>
    have heq : w = maxFileSize := by omega
    rw [TraceHandle.tell, if_pos (by omega), hend, heq]
    rfl

theorem logged_content (hw : maxFileSize ≤ w) : file.content = kept maxFileSize start rs := by
  cases h.phase with
  | filling _ hmax _ hend =>
    rw [hend, kept_of_length_le hmax.le]
    rfl
  | wrapping _ hmax _ _ _ _ _ _ => omega
  | full _ _ _ hend =>
    rw [hend]
    rfl

theorem logged_wrap (hw : w < maxFileSize) : (handle.wrap file).2.content = file.content ∧
    (kept w start rs).length ≤ (handle.wrap file).2.pos ∧
    (handle.wrap file).2.pos ≤ file.content.length := by
  have hlines := h.lines_eq
  cases h.phase with
  | filling hn hmax hrow hend =>
    have hkept : kept w start rs = start ++ rs.flatten := kept_of_length_le hn
    have hwrap : (handle.wrap file).2 = file := by
      rcases hn.lt_or_eq with hlt | heq
      · rw [wrap_before (by omega)]
      · rw [wrap_at (by omega) (by omega)]
    rw [hwrap, hend, hkept]
    exact ⟨rfl, le_rfl, le_rfl⟩
  | wrapping _ _ hrow hle hoffset hlow hhigh hpre =>
    rcases hle.lt_or_eq with hlt | heq
    · rw [wrap_behind (by omega) hlt]
      exact ⟨rfl, hlow, hhigh⟩
    · rw [wrap_over (by omega) heq.ge]
      exact ⟨rfl, hoffset.ge, hoffset.le.trans hpre.length_le⟩
  | full hmax _ _ _ => omega

end Logged

theorem kept_prefix_append (w : ℕ) (start : List UInt8) (rs more : List (List UInt8)) :
    kept w start rs <+: kept w start (rs ++ more) := by
  obtain ⟨t, ht⟩ := (List.prefix_append rs more).take w
  rw [kept, kept, ← ht, List.flatten_append, ← List.append_assoc]
  exact List.prefix_append _ _

/-- **Wrapping protects the head of the log.** After every run of records: no more rows are counted
than a file takes; the initial content and the first `min w maxFileSize` rows are there, and still
are after any more records; when the stream starts over, it does so at the end of row `w`. If no
row can be overwritten, the file has the first `maxFileSize` records and no other one; else every
record is written, in full and behind what stays. -/
theorem log_wraps (filter : TraceLevel) (w : ℕ) (start : List UInt8) (rs : List (List UInt8)) :
    ∃ file, (log (opened filter w start) rs).ostream.file = some file ∧
      (log (opened filter w start) rs).row_count_text ≤ maxFileSize ∧
      (∀ more, ∃ file', (log (opened filter w start) (rs ++ more)).ostream.file = some file' ∧
        kept (min w maxFileSize) start rs <+: file'.content) ∧
      (w ≤ (log (opened filter w start) rs).row_count_text →
        maxFileSize ≤ (log (opened filter w start) rs).row_count_text →
        ((log (opened filter w start) rs).tell file).wrap_offset = (kept w start rs).length) ∧
      (maxFileSize ≤ w → file.content = kept maxFileSize start rs) ∧
      (w < maxFileSize → ∀ r, ∃ i, (kept w start rs).length ≤ i ∧ i ≤ file.content.length ∧
        (log (opened filter w start) (rs ++ [r])).ostream.file =
          some ⟨ByteFile.patch file.content i r, i + r.length⟩) := by
  obtain ⟨file, h⟩ := logged_log filter w start rs
  refine ⟨file, h.file_eq, logged_row_le h, fun more => ?_, logged_offset h, logged_content h,
    fun hw r => ?_⟩
  · obtain ⟨file', h'⟩ := logged_log filter w start (rs ++ more)
    exact ⟨file', h'.file_eq, (kept_prefix_append _ _ _ _).trans (logged_kept h')⟩
  · obtain ⟨hcontent, hlow, hhigh⟩ := logged_wrap h hw
    obtain ⟨file', h', hwrite⟩ := logged_write h r
    refine ⟨_, hlow, hhigh, ?_⟩
    rw [log_snoc, h'.file_eq, hwrite hw, ByteFile.write_eq (hcontent ▸ hhigh), hcontent]

end Trace

end RtcBase
