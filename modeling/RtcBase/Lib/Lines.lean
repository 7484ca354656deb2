import Mathlib

/-!
# Lines

A line ends in a terminator `nl`, and has no other one.

* `IsLine`, `lines`: a line, and the lines of a text;
* **`lines_flatten`**: a text that is made of lines has just these;
* `cut`: what is left of some lines behind their first `n` symbols.
-/

namespace Lines

variable {α : Type*} {nl : α} {l xs : List α} {ls : List (List α)} {n : ℕ}

/-- A text that ends in its only newline. -/
def IsLine (nl : α) (l : List α) : Prop := ∃ body, nl ∉ body ∧ l = body ++ [nl]

theorem IsLine.drop (h : IsLine nl l) (hn : n < l.length) : IsLine nl (l.drop n) := by
  obtain ⟨body, hbody, rfl⟩ := h
  rw [List.length_append, List.length_singleton] at hn
  refine ⟨body.drop n, fun hmem => hbody (List.mem_of_mem_drop hmem), ?_⟩
  rw [List.drop_append_of_le_length (by omega)]

section Lines

variable [DecidableEq α]

/-- The lines of a text, without a rest that is not terminated. -/
def lines (nl : α) : List α → List (List α)
  | [] => []
  | x :: xs => if x = nl then [x] :: lines nl xs else (lines nl xs).modifyHead (x :: ·)

theorem lines_cons_self (nl : α) (xs : List α) : lines nl (nl :: xs) = [nl] :: lines nl xs := by
  rw [lines, if_pos rfl]

theorem lines_cons_of_ne {x : α} (h : x ≠ nl) (xs : List α) :
    lines nl (x :: xs) = (lines nl xs).modifyHead (x :: ·) := by
  rw [lines, if_neg h]

theorem lines_append (h : IsLine nl l) (xs : List α) : lines nl (l ++ xs) = l :: lines nl xs := by
  obtain ⟨body, hbody, rfl⟩ := h
  induction body with
  | nil => exact lines_cons_self nl xs
  | cons x body ih =>
    rw [List.mem_cons, not_or] at hbody
    rw [List.cons_append, List.cons_append, lines_cons_of_ne (Ne.symm hbody.1), ih hbody.2]
    rfl

/-- **A text that is made of lines has just these.** -/
theorem lines_flatten (h : ∀ l ∈ ls, IsLine nl l) : lines nl ls.flatten = ls := by
  induction ls with
  | nil => rfl
  | cons l ls ih =>
    rw [List.flatten_cons, lines_append (h l List.mem_cons_self),
      ih fun l' hl' => h l' (List.mem_cons_of_mem l hl')]

end Lines

/-! ## Lines cut short -/

/-- What is left of the lines behind their first `n` symbols. -/
def cut : List (List α) → ℕ → List (List α)
  | [], _ => []
  | l :: ls, n => if l.length ≤ n then cut ls (n - l.length) else l.drop n :: ls

theorem flatten_cut (ls : List (List α)) (n : ℕ) : (cut ls n).flatten = ls.flatten.drop n := by
  induction ls generalizing n with
  | nil => exact (List.drop_nil).symm
  | cons l ls ih =>
    rw [cut, List.flatten_cons, List.drop_append]
    split_ifs with h
    · rw [ih, List.drop_eq_nil_of_le h, List.nil_append]
    · rw [List.flatten_cons, Nat.sub_eq_zero_of_le (not_le.mp h).le, List.drop_zero]

theorem isLine_cut (h : ∀ l ∈ ls, IsLine nl l) (n : ℕ) : ∀ l ∈ cut ls n, IsLine nl l := by
  induction ls generalizing n with
  | nil => exact fun l hl => absurd hl List.not_mem_nil
  | cons l ls ih =>
    have hls : ∀ l' ∈ ls, IsLine nl l' := fun l' hl' => h l' (List.mem_cons_of_mem l hl')
    rw [cut]
    split_ifs with hn
    · exact ih hls _
    · intro l' hl'
      rcases List.mem_cons.mp hl' with rfl | hl'
      · exact (h l List.mem_cons_self).drop (not_le.mp hn)
      · exact hls l' hl'

theorem mem_cut (hl : l ∈ cut ls n) : l ∈ (cut ls n).head? ∨ l ∈ ls := by
  induction ls generalizing n with
  | nil => exact absurd hl List.not_mem_nil
  | cons l' ls ih =>
    rw [cut] at hl ⊢
    split_ifs at hl ⊢ with hn
    · exact (ih hl).imp_right (List.mem_cons_of_mem l')
    · rcases List.mem_cons.mp hl with rfl | hl
      · exact .inl rfl
      · exact .inr (List.mem_cons_of_mem l' hl)

/-- Lines of one length are cut in front of a line. -/
theorem cut_of_length (h : ∀ l ∈ ls, l.length = n) (hn : 0 < n) : cut ls n = ls.tail := by
  cases ls with
  | nil => rfl
  | cons l ls =>
    rw [cut, if_pos (h l List.mem_cons_self).le, h l List.mem_cons_self, Nat.sub_self,
      List.tail_cons]
    cases ls with
    | nil => rfl
    | cons l' ls =>
      have hlen := h l' (List.mem_cons_of_mem l List.mem_cons_self)
      rw [cut, if_neg (by omega), List.drop_zero]

end Lines
