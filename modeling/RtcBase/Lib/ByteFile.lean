import Mathlib

/-!
# Bytes written over bytes

* `patch`: a list with another one written over it from a position on;
* **`prefix_patch`**, **`append_prefix_patch`**: what stands before the position stays, and what is
  written follows it;
* `ByteFile`, `write`, `seek`: a stream of bytes with a position;
* `write_eq`, `write_end`: a write within the stream, and one at its end.
-/

namespace ByteFile

section Patch

variable {α : Type*} {l pre xs : List α} {i : ℕ}

/-- `xs` written over `l`, from position `i` on. -/
def patch (l : List α) (i : ℕ) (xs : List α) : List α := l.take i ++ xs ++ l.drop (i + xs.length)

theorem length_patch (h : i ≤ l.length) :
    (patch l i xs).length = max l.length (i + xs.length) := by
  simp only [patch, List.length_append, List.length_take, List.length_drop]
  omega

theorem patch_nil (l : List α) (i : ℕ) : patch l i [] = l := by
  rw [patch, List.append_nil, List.length_nil, Nat.add_zero, List.take_append_drop]

theorem patch_length (l xs : List α) : patch l l.length xs = l ++ xs := by
  rw [patch, List.take_length, List.drop_eq_nil_of_le (Nat.le_add_right _ _), List.append_nil]

theorem patch_append (pre l xs : List α) :
    patch (pre ++ l) pre.length xs = pre ++ xs ++ l.drop xs.length := by
  rw [patch, List.take_left, List.drop_length_add_append]

/-- **What stands before the position stays.** -/
theorem prefix_patch (h : pre <+: l) (hi : pre.length ≤ i) : pre <+: patch l i xs := by
  have htake : pre <+: l.take i := List.prefix_take_iff.mpr ⟨h, hi⟩
  rw [patch, List.append_assoc]
  exact htake.trans (List.prefix_append _ _)

/-- **What is written follows it.** -/
theorem append_prefix_patch (xs : List α) (h : pre <+: l) :
    pre ++ xs <+: patch l pre.length xs := by
  rw [patch, ← List.prefix_iff_eq_take.mp h]
  exact List.prefix_append _ _

end Patch

end ByteFile

/-- A stream of bytes with a position. -/
structure ByteFile where
  content : List UInt8
  pos : ℕ
  deriving DecidableEq, Repr

namespace ByteFile

variable {f : ByteFile} {xs : List UInt8}

/-- Writes at the position and moves it. A hole before the position is filled with zeros. -/
def write (f : ByteFile) (xs : List UInt8) : ByteFile :=
  match xs with
  | [] => f
  | x :: xs => ⟨patch (f.content.rightpad f.pos 0) f.pos (x :: xs), f.pos + (x :: xs).length⟩

/-- `fseek` from the start. -/
def seek (f : ByteFile) (pos : ℕ) : ByteFile := { f with pos := pos }

theorem write_eq (h : f.pos ≤ f.content.length) (xs : List UInt8) :
    f.write xs = ⟨patch f.content f.pos xs, f.pos + xs.length⟩ := by
  cases xs with
  | nil => rw [patch_nil]; rfl
  | cons x xs =>
    have hpad : f.content.rightpad f.pos 0 = f.content := by
      rw [List.rightpad, Nat.sub_eq_zero_of_le h, List.replicate_zero, List.append_nil]
    rw [write, hpad]

theorem write_end (h : f.pos = f.content.length) (xs : List UInt8) :
    f.write xs = ⟨f.content ++ xs, f.content.length + xs.length⟩ := by
  rw [write_eq h.le, h, patch_length]

end ByteFile
