import Mathlib

/-!
# Heaps over a random access sequence

The heap operations of a standard library, by what their specification promises and nothing else.

* `IsHeap`: no element is less than its child in the implicit binary tree;
* `StdHeap`: `makeHeap`, `pushHeap` and `popHeap` with their guarantees;
* **`isHeap_head`**: no element is greater than the first;
* `StdHeap.ofKey`: operations that meet the guarantees.
-/

namespace Heap

variable {α : Type*} {lt : α → α → Prop}

/-- The element at `(i - 1) / 2` is not less than the element at `i`. -/
def IsHeap (lt : α → α → Prop) (l : List α) : Prop :=
  ∀ i x y, 0 < i → l[(i - 1) / 2]? = some x → l[i]? = some y → ¬ lt x y

/-- The heap operations over `lt`, with what they guarantee. -/
structure StdHeap (lt : α → α → Prop) where
  makeHeap : List α → List α
  pushHeap : List α → List α
  popHeap : List α → List α
  makeHeap_perm : ∀ l, (makeHeap l).Perm l
  makeHeap_isHeap : ∀ l, IsHeap lt (makeHeap l)
  pushHeap_perm : ∀ l x, IsHeap lt l → (pushHeap (l ++ [x])).Perm (l ++ [x])
  pushHeap_isHeap : ∀ l x, IsHeap lt l → IsHeap lt (pushHeap (l ++ [x]))
  popHeap_spec : ∀ x l, IsHeap lt (x :: l) →
    ∃ l', popHeap (x :: l) = l' ++ [x] ∧ l'.Perm l ∧ IsHeap lt l'

theorem isHeap_nil : IsHeap lt [] := by
  intro i x y _ _ hy
  simp at hy

/-- **No element is greater than the first.** -/
theorem isHeap_head (hirrefl : ∀ a, ¬ lt a a) (htrans : ∀ a b d, ¬ lt a b → ¬ lt b d → ¬ lt a d)
    {x : α} {l : List α} (h : IsHeap lt (x :: l)) : ∀ y ∈ l, ¬ lt x y := by
  have hall : ∀ (i : ℕ) y, (x :: l)[i]? = some y → ¬ lt x y := by
    intro i
    induction i using Nat.strong_induction_on with
    | _ i ih =>
      intro y hy
      rcases Nat.eq_zero_or_pos i with rfl | hi
      · simp only [List.getElem?_cons_zero, Option.some.injEq] at hy
        exact hy ▸ hirrefl x
      · have hlt : (i - 1) / 2 < i := by omega
        have hlen : i < (x :: l).length := (List.getElem?_eq_some_iff.mp hy).1
        obtain ⟨z, hz⟩ : ∃ z, (x :: l)[(i - 1) / 2]? = some z :=
          ⟨_, List.getElem?_eq_getElem (hlt.trans hlen)⟩
        exact htrans x z y (ih _ hlt z hz) (h i z y hi hz hy)
  intro y hy
  obtain ⟨i, hi⟩ := List.getElem?_of_mem hy
  exact hall (i + 1) y hi

/-! ## A heap kept in order -/

section Key

variable {κ : Type*} [LinearOrder κ] (key : α → κ)

/-- `a` comes after `b`. -/
def after (a b : α) : Prop := key b < key a

/-- The elements by their keys, in their order where the keys are equal. -/
def sort (l : List α) : List α := l.insertionSort fun a b => key a ≤ key b

theorem sort_pairwise (l : List α) : (sort key l).Pairwise fun a b => key a ≤ key b := by
  have : Std.Total fun a b => key a ≤ key b := ⟨fun a b => le_total (key a) (key b)⟩
  have : IsTrans α fun a b => key a ≤ key b := ⟨fun _ _ _ => le_trans⟩
  exact List.pairwise_insertionSort _ l

theorem sort_perm (l : List α) : (sort key l).Perm l := List.perm_insertionSort _ l

/-- **A list in order is the sorted one**, when no two of its elements have one key. -/
theorem eq_sort {l l' : List α} (hinj : ∀ a ∈ l, ∀ b ∈ l, key a = key b → a = b)
    (hperm : l'.Perm l) (hsorted : l'.Pairwise fun a b => key a ≤ key b) : l' = sort key l := by
  refine (hperm.trans (sort_perm key l).symm).eq_of_pairwise ?_ hsorted (sort_pairwise key l)
  intro a b ha hb hab hba
  exact hinj a (hperm.mem_iff.mp ha) b ((sort_perm key l).mem_iff.mp hb) (le_antisymm hab hba)

theorem sort_filter {l : List α} (hinj : ∀ a ∈ l, ∀ b ∈ l, key a = key b → a = b)
    (p : α → Bool) : (sort key l).filter p = sort key (l.filter p) :=
  eq_sort key
    (fun a ha b hb => hinj a (List.mem_filter.mp ha).1 b (List.mem_filter.mp hb).1)
    ((sort_perm key l).filter p) ((sort_pairwise key l).filter p)

theorem isHeap_of_pairwise {l : List α} (h : l.Pairwise fun a b => key a ≤ key b) :
    IsHeap (after key) l := by
  intro i x y hi hx hy
  obtain ⟨h₁, rfl⟩ := List.getElem?_eq_some_iff.mp hx
  obtain ⟨h₂, rfl⟩ := List.getElem?_eq_some_iff.mp hy
  exact not_lt.mpr (List.pairwise_iff_getElem.mp h _ _ h₁ h₂ (by omega))

/-- Operations that keep the sequence in order. -/
def StdHeap.ofKey : StdHeap (after key) where
  makeHeap := sort key
  pushHeap := sort key
  popHeap
    | [] => []
    | x :: l => sort key l ++ [x]
  makeHeap_perm := sort_perm key
  makeHeap_isHeap _ := isHeap_of_pairwise key (sort_pairwise key _)
  pushHeap_perm _ _ _ := sort_perm key _
  pushHeap_isHeap _ _ _ := isHeap_of_pairwise key (sort_pairwise key _)
  popHeap_spec _ l _ := ⟨sort key l, rfl, sort_perm key l,
    isHeap_of_pairwise key (sort_pairwise key l)⟩

/-- The same operations, over an order that is written differently. -/
def StdHeap.congr {lt' : α → α → Prop} (h : StdHeap lt) (heq : lt = lt') : StdHeap lt' where
  makeHeap := h.makeHeap
  pushHeap := h.pushHeap
  popHeap := h.popHeap
  makeHeap_perm := h.makeHeap_perm
  makeHeap_isHeap := heq ▸ h.makeHeap_isHeap
  pushHeap_perm := heq ▸ h.pushHeap_perm
  pushHeap_isHeap := heq ▸ h.pushHeap_isHeap
  popHeap_spec := heq ▸ h.popHeap_spec

end Key

end Heap
