import RtcBase.Lib.Lines
import RtcBase.Trace.Record
import RtcBase.Trace.Wrap

/-!
# The lines of the log

A stream that starts over writes its records over the rows of the round before, in place. A shorter
record leaves the end of a row behind.

* `Rows`: the rows that stay, those of this round, and what is left of the round before;
* **`Refines`**: the stream of a log with these rows; `refines_wrap`, `refines_write`;
* `Whole`, `Fits`: a log of whole records, and a record that ends where a row does;
* **`whole_iff`**: in every run, the log is whole at every moment just when all records fit;
* `fits_of_length`: records of one length do.
-/

namespace RtcBase

namespace Trace

open Lines

/-- The newline. -/
def newline : UInt8 := 10

/-- The rows of a stream: the ones that stay, the others of this round, and what is left of those of
the round before. -/
structure Rows where
  kept : List (List UInt8)
  done : List (List UInt8)
  old : List (List UInt8)

namespace Rows

/-- Nothing has been written. -/
def init : Rows := ⟨[], [], []⟩

/-- The records in the file, in their order there. -/
def all (rows : Rows) : List (List UInt8) := rows.kept ++ rows.done ++ rows.old

/-- A full stream starts over. -/
def turn (rows : Rows) : Rows :=
  if maxFileSize ≤ rows.kept.length + rows.done.length then
    { rows with done := [], old := rows.done ++ rows.old }
  else rows

/-- One record more: behind the others, or over the oldest one. -/
def write (w : ℕ) (rows : Rows) (r : List UInt8) : Rows :=
  let rows := rows.turn
  let old := cut rows.old r.length
  if rows.kept.length < w then { rows with kept := rows.kept ++ [r], old := old }
  else { rows with done := rows.done ++ [r], old := old }

/-- The rows of a stream that stays behind its first `w` rows. -/
def log (w : ℕ) (rs : List (List UInt8)) : Rows := rs.foldl (write w) init

theorem log_snoc (w : ℕ) (rs : List (List UInt8)) (r : List UInt8) :
    log w (rs ++ [r]) = (log w rs).write w r := by
  rw [log, List.foldl_append]
  rfl

theorem turn_kept (rows : Rows) : rows.turn.kept = rows.kept := by
  unfold turn
  split_ifs <;> rfl

theorem turn_all (rows : Rows) : rows.turn.all = rows.all := by
  unfold turn all
  split_ifs
  · simp only [List.append_nil, List.append_assoc]
  · rfl

end Rows

variable {handle : TraceHandle} {file : ByteFile} {w : ℕ} {start r : List UInt8}
  {rs : List (List UInt8)} {rows : Rows}

/-! ## The file -/

/-- **A stream with these rows**, behind its initial content. -/
structure Refines (w : ℕ) (start : List UInt8) (rows : Rows) (handle : TraceHandle)
    (file : ByteFile) : Prop where
  lines_eq : handle.ostream.wrap_line_number = w
  content : file.content = start ++ rows.all.flatten
  pos : file.pos = (start ++ (rows.kept ++ rows.done).flatten).length
  row : handle.row_count_text = rows.kept.length + rows.done.length
  row_le : handle.row_count_text ≤ maxFileSize
  kept_le : rows.kept.length ≤ w
  filling : rows.kept.length < w → rows.done = []
  offset : rows.done ≠ [] → handle.wrap_offset = (start ++ rows.kept.flatten).length

theorem refines_opened (filter : TraceLevel) (w : ℕ) (start : List UInt8) :
    Refines w start .init (opened filter w start) ⟨start, start.length⟩ where
  lines_eq := rfl
  content := (List.append_nil start).symm
  pos := by simp [Rows.init]
  row := rfl
  row_le := Nat.zero_le _
  kept_le := Nat.zero_le w
  filling _ := rfl
  offset h := absurd rfl h

theorem refines_wrap (hw : w < maxFileSize) (h : Refines w start rows handle file) :
    Refines w start rows.turn (handle.wrap file).1 (handle.wrap file).2 ∧
      (handle.wrap file).1.row_count_text < maxFileSize ∧
      (rows.kept.length = w →
        (handle.wrap file).1.wrap_offset = (start ++ rows.kept.flatten).length) := by
  have hkept := h.kept_le
  have hrow := h.row
  have hlines := h.lines_eq
  rcases h.row_le.lt_or_eq with hlt | heq
  · have hturn : rows.turn = rows := if_neg (by omega)
    rw [hturn]
    rcases lt_trichotomy handle.row_count_text w with hrow' | hrow' | hrow'
    · rw [wrap_before (by omega)]
      refine ⟨h, hlt, fun hw' => ?_⟩
      omega
    · -- row `w` is the first one behind those that stay
      have hdone : rows.done = [] := by
        rcases hkept.lt_or_eq with hfill | hfull
        · exact h.filling hfill
        · exact List.eq_nil_of_length_eq_zero (by omega)
      rw [wrap_at (by omega) hlt]
      have hpos : file.pos = (start ++ rows.kept.flatten).length := by
        rw [h.pos, hdone, List.append_nil]
      exact ⟨{ h with offset := fun _ => hpos }, hlt, fun _ => hpos⟩
    · rw [wrap_behind (by omega) hlt]
      have hdone : rows.done ≠ [] := fun hnil => by
        rw [hnil, List.length_nil] at hrow
        omega
      exact ⟨h, hlt, fun _ => h.offset hdone⟩
  · -- a full stream starts over
    have hdone : rows.done ≠ [] := fun hnil => by
      rw [hnil, List.length_nil] at hrow
      omega
    have hfull : rows.kept.length = w :=
      hkept.eq_of_not_lt fun hfill => hdone (h.filling hfill)
    have hturn : rows.turn = { rows with done := [], old := rows.done ++ rows.old } :=
      if_pos (by omega)
    have hoffset := h.offset hdone
    rw [wrap_over (by omega) heq.ge, ← hlines]
    refine ⟨?_, by simp only; omega, fun _ => hoffset⟩
    exact
      { lines_eq := rfl
        content := by rw [Rows.turn_all]; exact h.content
        pos := by
          rw [hturn, List.append_nil]
          exact hoffset
        row := by
          rw [hturn, hlines]
          exact hfull.symm
        row_le := by simp only; omega
        kept_le := by rw [Rows.turn_kept, hlines]; exact hkept
        filling := fun _ => by rw [hturn]
        offset := fun hnil => absurd (by rw [hturn]) hnil }

theorem write_rows (h : Refines w start rows handle file) (r : List UInt8) :
    file.write r = ⟨start ++ (rows.kept ++ rows.done ++ [r] ++ cut rows.old r.length).flatten,
      (start ++ (rows.kept ++ rows.done ++ [r]).flatten).length⟩ := by
  have hcontent : file.content =
      start ++ (rows.kept ++ rows.done).flatten ++ rows.old.flatten := by
    rw [h.content, Rows.all, List.flatten_append, List.append_assoc]
  have hpos : file.pos ≤ file.content.length := by
    rw [h.pos, hcontent]
    exact (List.prefix_append _ _).length_le
  rw [ByteFile.write_eq hpos, h.pos, hcontent, ByteFile.patch_append, ← flatten_cut]
  simp only [List.flatten_append, List.flatten_singleton, List.append_assoc, List.length_append,
    Nat.add_assoc]

/-- **One call.** -/
theorem refines_write (hw : w < maxFileSize) (h : Refines w start rows handle file)
    (hfile : handle.ostream.file = some file) (r : List UInt8) :
    ∃ file', (write handle r).ostream.file = some file' ∧
      Refines w start (rows.write w r) (write handle r) file' := by
  obtain ⟨hwrap, hlt, hoffset⟩ := refines_wrap hw h
  rcases hp : handle.wrap file with ⟨handle', file'⟩
  rw [hp] at hwrap hlt hoffset
  have hwrite := write_rows hwrap r
  rw [write_of_lt hfile hp hlt]
  refine ⟨_, rfl, ?_⟩
  have hrow := hwrap.row
  have hkept := Rows.turn_kept rows
  unfold Rows.write
  simp only
  split_ifs with hfill
  · -- a row that stays
    have hdone := hwrap.filling hfill
    rw [hdone, List.append_nil] at hwrite
    rw [hdone, List.length_nil] at hrow
    exact
      { lines_eq := hwrap.lines_eq
        content := by rw [hwrite, Rows.all, hdone, List.append_nil]
        pos := by rw [hwrite, hdone, List.append_nil]
        row := by
          rw [hdone, List.length_append, List.length_singleton, List.length_nil]
          exact congrArg (· + 1) hrow
        row_le := hlt
        kept_le := by
          rw [List.length_append, List.length_singleton]
          exact hfill
        filling := fun _ => hdone
        offset := fun hnil => absurd hdone hnil }
  · exact
      { lines_eq := hwrap.lines_eq
        content := by rw [hwrite, Rows.all, List.append_assoc rows.turn.kept]
        pos := by rw [hwrite, List.append_assoc rows.turn.kept]
        row := by
          rw [List.length_append, List.length_singleton, ← Nat.add_assoc, ← hrow]
        row_le := hlt
        kept_le := hwrap.kept_le
        filling := fun hfill' => absurd hfill' hfill
        offset := fun _ => by
          rw [hkept]
          refine hoffset ?_
          rw [← hkept]
          exact hwrap.kept_le.eq_of_not_lt hfill }

/-- **The run lemma.** -/
theorem refines_log (filter : TraceLevel) (hw : w < maxFileSize) (start : List UInt8)
    (rs : List (List UInt8)) : ∃ file, (log (opened filter w start) rs).ostream.file = some file ∧
      Refines w start (Rows.log w rs) (log (opened filter w start) rs) file := by
  induction rs using List.reverseRecOn with
  | nil => exact ⟨_, rfl, refines_opened filter w start⟩
  | append_singleton rs r ih =>
    obtain ⟨file, hfile, h⟩ := ih
    rw [log_snoc, Rows.log_snoc]
    exact refines_write hw h hfile r

/-! ## Whole records -/

/-- Every line behind the initial content is one of the records `rs`. -/
def Whole (start : List UInt8) (rs : List (List UInt8)) (handle : TraceHandle) : Prop :=
  ∃ file, handle.ostream.file = some file ∧
    ∀ l ∈ lines newline (file.content.drop start.length), l ∈ rs

/-- Behind the records `rs`, the record `r` leaves nothing of the row in which it ends, or a record
again. -/
def Fits (w : ℕ) (rs : List (List UInt8)) (r : List UInt8) : Prop :=
  ∀ l ∈ (cut (Rows.log w rs).turn.old r.length).head?, l ∈ rs ++ [r]

instance (w : ℕ) (rs : List (List UInt8)) (r : List UInt8) : Decidable (Fits w rs r) :=
  inferInstanceAs (Decidable (∀ l ∈ (cut (Rows.log w rs).turn.old r.length).head?, l ∈ rs ++ [r]))

namespace Rows

theorem mem_write {l : List UInt8} : l ∈ (rows.write w r).all ↔
    l ∈ rows.turn.kept ∨ l ∈ rows.turn.done ∨ l = r ∨ l ∈ cut rows.turn.old r.length := by
  unfold write all
  simp only
  split_ifs <;> simp only [List.mem_append, List.mem_singleton] <;> tauto

theorem mem_of_mem_old {l : List UInt8} (h : l ∈ rows.turn.old) : l ∈ rows.all := by
  rw [← turn_all, all]
  exact List.mem_append_right _ h

theorem mem_turn {l : List UInt8} (h : l ∈ rows.turn.kept ∨ l ∈ rows.turn.done) : l ∈ rows.all := by
  rw [← turn_all, all]
  exact List.mem_append_left _ (List.mem_append.mpr h)

theorem isLine_log (h : ∀ r ∈ rs, IsLine newline r) : ∀ l ∈ (log w rs).all, IsLine newline l := by
  induction rs using List.reverseRecOn with
  | nil => exact fun l hl => absurd hl List.not_mem_nil
  | append_singleton rs r ih =>
    have hall := ih fun r' hr' => h r' (List.mem_append_left _ hr')
    rw [log_snoc]
    intro l hl
    rcases mem_write.mp hl with hl | hl | rfl | hl
    · exact hall l (mem_turn (.inl hl))
    · exact hall l (mem_turn (.inr hl))
    · exact h l (List.mem_append_right _ List.mem_cons_self)
    · exact isLine_cut (fun l' hl' => hall l' (mem_of_mem_old hl')) _ l hl

theorem all_write_iff (h : ∀ l ∈ (log w rs).all, l ∈ rs) :
    (∀ l ∈ (log w (rs ++ [r])).all, l ∈ rs ++ [r]) ↔ Fits w rs r := by
  rw [log_snoc]
  constructor
  · intro hall l hl
    exact hall l (mem_write.mpr (.inr (.inr (.inr (List.mem_of_mem_head? hl)))))
  · intro hfits l hl
    rcases mem_write.mp hl with hl | hl | rfl | hl
    · exact List.mem_append_left _ (h l (mem_turn (.inl hl)))
    · exact List.mem_append_left _ (h l (mem_turn (.inr hl)))
    · exact List.mem_append_right _ List.mem_cons_self
    · rcases mem_cut hl with hl | hl
      · exact hfits l hl
      · exact List.mem_append_left _ (h l (mem_of_mem_old hl))

end Rows

/-! ## Records of one length -/

/-- The rows of a stream that is not full yet. -/
theorem Rows.log_of_length_le (h : rs.length ≤ maxFileSize) :
    Rows.log w rs = ⟨rs.take w, rs.drop w, []⟩ := by
  induction rs using List.reverseRecOn with
  | nil => simp [Rows.log, Rows.init]
  | append_singleton rs r ih =>
    rw [List.length_append, List.length_singleton] at h
    rw [Rows.log_snoc, ih (by omega)]
    have hturn : Rows.turn ⟨rs.take w, rs.drop w, []⟩ = ⟨rs.take w, rs.drop w, []⟩ := by
      refine if_neg ?_
      rw [← List.length_append, List.take_append_drop]
      omega
    unfold Rows.write
    rw [hturn]
    simp only [List.length_take]
    split_ifs with hlt
    · rw [List.take_of_length_le (by omega), List.drop_of_length_le (by omega),
        List.take_of_length_le (by rw [List.length_append, List.length_singleton]; omega),
        List.drop_of_length_le (by rw [List.length_append, List.length_singleton]; omega)]
      rfl
    · rw [List.take_append_of_le_length (by omega), List.drop_append_of_le_length (by omega)]
      rfl

theorem Rows.mem_turn_iff {l : List UInt8} :
    l ∈ rows.turn.done ++ rows.turn.old ↔ l ∈ rows.done ++ rows.old := by
  unfold turn
  split_ifs <;> rfl

/-- The next record is written over old rows behind the first `w` records. -/
structure Rows.Behind (w n : ℕ) (rs : List (List UInt8)) : Prop where
  kept : (Rows.log w rs).kept.length = min w rs.length
  mem : ∀ l ∈ (Rows.log w rs).done ++ (Rows.log w rs).old, l ∈ rs.drop w ∧ l.length = n

theorem Rows.cut_turn_old {n : ℕ} (hn : 0 < n) (h : Rows.Behind w n rs)
    (hr : w ≤ rs.length → r.length = n) :
    cut (Rows.log w rs).turn.old r.length = (Rows.log w rs).turn.old.tail := by
  have hold : ∀ l ∈ (Rows.log w rs).turn.old, l ∈ rs.drop w ∧ l.length = n := fun l hl =>
    h.mem l (Rows.mem_turn_iff.mp (List.mem_append_right _ hl))
  rcases le_or_gt w rs.length with hle | hlt
  · rw [hr hle]
    exact cut_of_length (fun l hl => (hold l hl).2) hn
  · have hnil : (Rows.log w rs).turn.old = [] := by
      refine List.eq_nil_iff_forall_not_mem.mpr fun l hl => ?_
      have hmem := (hold l hl).1
      rw [List.drop_of_length_le hlt.le] at hmem
      exact List.not_mem_nil hmem
    rw [hnil]
    rfl

theorem Rows.behind_log {n : ℕ} (hn : 0 < n) (h : ∀ r ∈ rs.drop w, r.length = n) :
    Rows.Behind w n rs := by
  induction rs using List.reverseRecOn with
  | nil => exact ⟨by simp [Rows.log, Rows.init], fun l hl => absurd hl List.not_mem_nil⟩
  | append_singleton rs r ih =>
    have hdrop : ∀ l ∈ rs.drop w, l ∈ (rs ++ [r]).drop w := by
      rw [List.drop_append]
      exact fun l hl => List.mem_append_left _ hl
    have hrs := ih fun r' hr' => h r' (hdrop r' hr')
    have hlast : w ≤ rs.length → r ∈ (rs ++ [r]).drop w := by
      intro hle
      rw [List.drop_append_of_le_length hle]
      exact List.mem_append_right _ List.mem_cons_self
    have hcut := Rows.cut_turn_old hn hrs fun hle => h r (hlast hle)
    have hturn : ∀ l, l ∈ (Rows.log w rs).turn.done ∨ l ∈ (Rows.log w rs).turn.old.tail →
        l ∈ (rs ++ [r]).drop w ∧ l.length = n := by
      intro l hl
      have hmem := hl.imp_right List.mem_of_mem_tail
      obtain ⟨h₁, h₂⟩ := hrs.mem l (Rows.mem_turn_iff.mp (List.mem_append.mpr hmem))
      exact ⟨hdrop l h₁, h₂⟩
    have hkept := hrs.kept
    rw [← Rows.turn_kept] at hkept
    constructor
    · rw [Rows.log_snoc, Rows.write, List.length_append, List.length_singleton]
      split_ifs with hfill
      · rw [List.length_append, List.length_singleton]
        omega
      · simp only
        omega
    · rw [Rows.log_snoc, Rows.write, hcut]
      split_ifs with hfill
      · exact fun l hl => hturn l (List.mem_append.mp hl)
      · intro l hl
        rw [List.append_assoc, List.singleton_append, List.mem_append, List.mem_cons] at hl
        rcases hl with hl | rfl | hl
        · exact hturn l (.inl hl)
        · exact ⟨hlast (by omega), h l (hlast (by omega))⟩
        · exact hturn l (.inr hl)

/-- **Records of one length fit**, behind the first `w` ones. -/
theorem fits_of_length {n : ℕ} (hn : 0 < n) (h : ∀ r' ∈ (rs ++ [r]).drop w, r'.length = n) :
    Fits w rs r := by
  have hrs : ∀ r' ∈ rs.drop w, r'.length = n := fun r' hr' => h r' (by
    rw [List.drop_append]
    exact List.mem_append_left _ hr')
  have hbehind := Rows.behind_log hn hrs
  rw [Fits, Rows.cut_turn_old hn hbehind fun hle => h r (by
    rw [List.drop_append_of_le_length hle]
    exact List.mem_append_right _ List.mem_cons_self)]
  intro l hl
  have hold := List.mem_of_mem_tail (List.mem_of_mem_head? hl)
  have hmem := hbehind.mem l (Rows.mem_turn_iff.mp (List.mem_append_right _ hold))
  exact List.mem_append_left _ (List.mem_of_mem_drop hmem.1)

/-! ## Every run -/

theorem forall_prefix_snoc {P : List (List UInt8) → Prop} :
    (∀ done, done <+: rs ++ [r] → P done) ↔ (∀ done, done <+: rs → P done) ∧ P (rs ++ [r]) := by
  simp only [List.prefix_concat_iff]
  constructor
  · exact fun h => ⟨fun done hdone => h done (.inr hdone), h _ (.inl rfl)⟩
  · rintro ⟨h, hlast⟩ done (rfl | hdone)
    · exact hlast
    · exact h done hdone

theorem forall_snoc_prefix_snoc {Q : List (List UInt8) → List UInt8 → Prop} :
    (∀ done r', done ++ [r'] <+: rs ++ [r] → Q done r') ↔
      (∀ done r', done ++ [r'] <+: rs → Q done r') ∧ Q rs r := by
  simp only [List.prefix_concat_iff]
  constructor
  · exact fun h => ⟨fun done r' hdone => h done r' (.inr hdone), h rs r (.inl rfl)⟩
  · rintro ⟨h, hlast⟩ done r' (heq | hdone)
    · obtain ⟨rfl, hlast'⟩ := List.append_inj' heq rfl
      rw [List.singleton_inj.mp hlast']
      exact hlast
    · exact h done r' hdone

theorem whole_log_iff (filter : TraceLevel) (hw : w < maxFileSize) (start : List UInt8)
    (h : ∀ r ∈ rs, IsLine newline r) :
    Whole start rs (log (opened filter w start) rs) ↔ ∀ l ∈ (Rows.log w rs).all, l ∈ rs := by
  obtain ⟨file, hfile, href⟩ := refines_log filter hw start rs
  have hlines : lines newline (file.content.drop start.length) = (Rows.log w rs).all := by
    rw [href.content, List.drop_left, lines_flatten (Rows.isLine_log h)]
  rw [← hlines]
  constructor
  · rintro ⟨file', hfile', hall⟩
    cases hfile.symm.trans hfile'
    exact hall
  · exact fun hall => ⟨file, hfile, hall⟩

/-- **When the lines of a log stay whole**, in every run with rows to overwrite: at every moment
every line is a record just when every record fits. -/
theorem whole_iff (filter : TraceLevel) (hw : w < maxFileSize) (start : List UInt8)
    (h : ∀ r ∈ rs, IsLine newline r) :
    (∀ done, done <+: rs → Whole start done (log (opened filter w start) done)) ↔
      ∀ done r, done ++ [r] <+: rs → Fits w done r := by
  induction rs using List.reverseRecOn with
  | nil =>
    refine iff_of_true (fun done hdone => ?_) fun done r hdone => ?_
    · rw [List.prefix_nil.mp hdone, whole_log_iff filter hw start h]
      exact fun l hl => absurd hl List.not_mem_nil
    · exact absurd (List.prefix_nil.mp hdone) (List.concat_ne_nil r done)
  | append_singleton rs r ih =>
    have hrs : ∀ r' ∈ rs, IsLine newline r' := fun r' hr' => h r' (List.mem_append_left _ hr')
    have hwhole : (∀ done, done <+: rs → Whole start done (log (opened filter w start) done)) →
        (Whole start (rs ++ [r]) (log (opened filter w start) (rs ++ [r])) ↔ Fits w rs r) := by
      intro hall
      rw [whole_log_iff filter hw start h]
      exact Rows.all_write_iff ((whole_log_iff filter hw start hrs).mp (hall rs List.prefix_rfl))
    rw [forall_prefix_snoc, forall_snoc_prefix_snoc, ih hrs]
    exact and_congr_right fun hfits => hwhole ((ih hrs).mpr hfits)

/-- Three rows that stay. -/
theorem whole_iff_sample :
    let rs : List (List UInt8) := [[97, newline], [98, 99, newline], [newline]]
    ∀ done, done <+: rs → Whole [] done (log (opened kTraceError 1 []) done) := by
  intro rs
  refine (whole_iff kTraceError (by decide) [] fun r hr => ?_).mpr ?_
  · have hline : r ≠ [] ∧ newline ∉ r.dropLast ∧ r.getLast? = some newline := by
      revert r
      decide
    refine ⟨r.dropLast, hline.2.1, ?_⟩
    rw [List.dropLast_append_getLast? _ hline.2.2]
  · rw [show rs = [] ++ [[97, newline]] ++ [[98, 99, newline]] ++ [[newline]] from rfl,
      forall_snoc_prefix_snoc, forall_snoc_prefix_snoc, forall_snoc_prefix_snoc]
    refine ⟨⟨⟨fun done r hdone => ?_, by decide⟩, by decide⟩, by decide⟩
    exact absurd (List.prefix_nil.mp hdone) (List.concat_ne_nil r done)

/-- What stands before the message of an error of module `kTraceVoice` from thread 1 at midnight. -/
def errorBoilerplate : List UInt8 := boilerplate kTraceError midnight .kTraceVoice 0 1

/-- A full log of messages `aa` starts over with a message `a`: the last letter is overwritten with
the newline, and the old newline is a line of its own. -/
theorem log_not_whole :
    let rs := List.replicate maxFileSize (record errorBoilerplate [97, 97]) ++
      [record errorBoilerplate [97]]
    (∀ r ∈ rs, IsLine newline r) ∧ ¬ Whole [] rs (log (opened kTraceError 0 []) rs) := by
  intro rs
  have hpre : errorBoilerplate.length = 64 ∧ newline ∉ errorBoilerplate := by decide
  have hlong : record errorBoilerplate [97, 97] = errorBoilerplate ++ [97, 97] ++ [newline] :=
    (record_eq (by rw [hpre.1]; decide)).1
  have hshort : record errorBoilerplate [97] = errorBoilerplate ++ [97] ++ [newline] :=
    (record_eq (by rw [hpre.1]; decide)).1
  have hlines : ∀ r ∈ rs, IsLine newline r := fun r hr => by
    rcases List.mem_append.mp hr with hr | hr
    · refine ⟨_, ?_, (List.eq_of_mem_replicate hr).trans hlong⟩
      exact List.not_mem_append hpre.2 (by decide)
    · refine ⟨_, ?_, (List.mem_singleton.mp hr).trans hshort⟩
      exact List.not_mem_append hpre.2 (by decide)
  refine ⟨hlines, ?_⟩
  rw [whole_log_iff kTraceError (by decide) [] hlines]
  intro hall
  have hlen : (record errorBoilerplate [97]).length = 66 := by
    rw [hshort, List.length_append, List.length_append, hpre.1]
    rfl
  have hlen' : (record errorBoilerplate [97, 97]).length = 67 := by
    rw [hlong, List.length_append, List.length_append, hpre.1]
    rfl
  have hlog := Rows.log_of_length_le (w := 0)
    (List.length_replicate (n := maxFileSize) (a := record errorBoilerplate [97, 97])).le
  rw [List.take_zero, List.drop_zero] at hlog
  have hmem : [newline] ∈ (Rows.log 0 rs).all := by
    have hold : (Rows.turn ⟨[], List.replicate maxFileSize (record errorBoilerplate [97, 97]),
        []⟩).old = List.replicate maxFileSize (record errorBoilerplate [97, 97]) := by
      rw [Rows.turn, if_pos (by simp), List.append_nil]
    have hdrop : (record errorBoilerplate [97, 97]).drop 66 = [newline] := by
      rw [hlong]
      refine List.drop_left' ?_
      rw [List.length_append, hpre.1]
      rfl
    rw [Rows.log_snoc, hlog]
    refine Rows.mem_write.mpr (.inr (.inr (.inr ?_)))
    rw [hold, maxFileSize, List.replicate_succ, cut, hlen, if_neg (by omega), hdrop]
    exact List.mem_cons_self
  rcases List.mem_append.mp (hall _ hmem) with hr | hr
  · have := congrArg List.length (List.eq_of_mem_replicate hr)
    rw [hlen', List.length_singleton] at this
    omega
  · have := congrArg List.length (List.mem_singleton.mp hr)
    rw [hlen, List.length_singleton] at this
    omega

end Trace

end RtcBase
