import RtcBase.Buffer.Effect

/-!
# `View`

A pointer and a length. The constructor checks that the pointer is null just when the length is 0,
which no producer sees to where a length of 0 comes with another pointer.

* `View`, `View.new`, `View.subview`: the functions of `view.h`;
* `View.WellFormed`, `View.elements`: what the constructor checks, and the places that are denoted;
* `subview_ok`, `subviews_iff`: when the subviews of a view are made, and are right;
* `passedView`: the view that a setter is given;
* **`views_iff`**: when the views of the program are well formed.
-/

namespace RtcBase

open Word Run

namespace BufferT

/-- A null pointer, or the place of an element, and a number of elements. -/
structure View where
  data_ : Option ℕ
  size_ : ℕ
  deriving DecidableEq, Repr

variable {T : Type} (build : Build T)

namespace View

/-- `View(data, size)`. -/
def new (data : Option ℕ) (size : ℕ) : Except Fault View := do
  let view : View := ⟨data, size⟩
  dcheck build ((if size = 0 then none else data) = view.data_)
  dcheck build (size = view.size_)
  dcheck build (view.data_.isNone ↔ view.size_ = 0)
  return view

/-- `View()`. -/
def empty : Except Fault View := new build none 0

/-- A part of a view, cut off at its end. -/
def subview (view : View) (offset size : ℕ) : Except Fault View :=
  if offset < view.size_ then
    new build (view.data_.map (· + offset)) (min size (view.size_ - offset))
  else empty build

/-- A subview, a subview of that, and so on. -/
def subviews (view : View) : List (ℕ × ℕ) → Except Fault View
  | [] => .ok view
  | (offset, size) :: cuts => do
    let view ← view.subview build offset size
    view.subviews cuts

/-! ## Views and their elements -/

/-- What the constructor checks. -/
def WellFormed (view : View) : Prop := view.data_ = none ↔ view.size_ = 0

instance (view : View) : Decidable view.WellFormed :=
  inferInstanceAs (Decidable (view.data_ = none ↔ view.size_ = 0))

/-- The places of the elements. -/
def elements (view : View) : List ℕ := List.range' (view.data_.getD 0) view.size_

variable {build} {view view' : View}

theorem length_elements (view : View) : view.elements.length = view.size_ := List.length_range'

theorem new_of_wellFormed (h : view.WellFormed) : new build view.data_ view.size_ = .ok view := by
  have hdata : decide ((if view.size_ = 0 then none else view.data_) = view.data_) = true := by
    refine decide_eq_true ?_
    split_ifs with hsize
    · exact (h.mpr hsize).symm
    · rfl
  have hnull : decide (view.data_.isNone ↔ view.size_ = 0) = true := by
    rw [decide_eq_true_iff, Option.isNone_iff_eq_none]
    exact h
  rw [new]
  dsimp only
  rw [bind_of_ok (dcheck_true hdata), bind_of_ok (dcheck_true (decide_eq_true rfl)),
    bind_of_ok (dcheck_true hnull)]
  rfl

theorem new_ok_iff (hcheck : build.dcheckIsOn = true) {data : Option ℕ} {size : ℕ} :
    new build data size = .ok view ↔ view = ⟨data, size⟩ ∧ view.WellFormed := by
  constructor
  · intro h
    obtain ⟨-, -, h⟩ := bind_ok.mp h
    obtain ⟨-, -, h⟩ := bind_ok.mp h
    have hnull := dcheck_ok.mp (check_of_ok h) hcheck
    obtain ⟨-, -, h⟩ := bind_ok.mp h
    cases h
    rw [decide_eq_true_iff, Option.isNone_iff_eq_none] at hnull
    exact ⟨rfl, hnull⟩
  · rintro ⟨rfl, h⟩
    exact new_of_wellFormed h

/-- The slice that a subview should denote. -/
def Slices (view : View) (offset size : ℕ) (view' : View) : Prop :=
  view'.WellFormed ∧ view'.elements = (view.elements.drop offset).take size

theorem subview_ok (h : view.WellFormed) {offset size : ℕ} (hfit : size = 0 → view.size_ ≤ offset) :
    ∃ view', view.subview build offset size = .ok view' ∧ view.Slices offset size view' := by
  rw [subview]
  split_ifs with hlt
  · have hdata : view.data_ ≠ none := fun hnone => by
      have := h.mp hnone
      omega
    obtain ⟨data, hdata⟩ := Option.ne_none_iff_exists'.mp hdata
    rw [hdata, Option.map_some]
    have hwell : (⟨some (data + offset), min size (view.size_ - offset)⟩ : View).WellFormed :=
      iff_of_false (Option.some_ne_none _) (show min size (view.size_ - offset) ≠ 0 by omega)
    refine ⟨_, new_of_wellFormed hwell, hwell, ?_⟩
    rw [elements, elements, hdata, List.drop_range']
    simp only [Option.getD_some, mul_one]
    rcases le_total size (view.size_ - offset) with hle | hle
    · rw [min_eq_left hle, List.take_range'_of_length_ge hle]
    · rw [min_eq_right hle, List.take_range'_of_length_le hle]
  · have hwell : (⟨none, 0⟩ : View).WellFormed := iff_of_true rfl rfl
    have hdrop : view.elements.drop offset = [] :=
      List.drop_eq_nil_of_le ((length_elements view).trans_le (not_lt.mp hlt))
    refine ⟨⟨none, 0⟩, new_of_wellFormed hwell, hwell, ?_⟩
    rw [hdrop, List.take_nil]
    rfl

/-- Of a size of 0 inside the view no subview is made. -/
theorem le_of_subview_ok (hcheck : build.dcheckIsOn = true) (h : view.WellFormed) {offset : ℕ}
    (hok : view.subview build offset 0 = .ok view') : view.size_ ≤ offset := by
  by_contra hlt
  rw [not_le] at hlt
  rw [subview, if_pos hlt, Nat.zero_min] at hok
  obtain ⟨rfl, hwell⟩ := (new_ok_iff hcheck).mp hok
  have hnone : view.data_ = none := Option.map_eq_none_iff.mp (hwell.mpr rfl)
  have := h.mp hnone
  omega

/-! ## Subviews of subviews -/

/-- The slice of a slice. -/
def slices (l : List ℕ) (cuts : List (ℕ × ℕ)) : List ℕ :=
  cuts.foldl (fun l cut => (l.drop cut.1).take cut.2) l

/-- No cut of `n` elements, and then of what it leaves, has the size 0 inside them. -/
def CutsFit : ℕ → List (ℕ × ℕ) → Prop
  | _, [] => True
  | n, (offset, size) :: cuts =>
    (size = 0 → n ≤ offset) ∧ CutsFit (min size (n - offset)) cuts

/-- **When a subview of a subview is made**, and denotes the slice of the slice. -/
theorem subviews_iff (hcheck : build.dcheckIsOn = true) (h : view.WellFormed)
    (cuts : List (ℕ × ℕ)) :
    (∃ view', view.subviews build cuts = .ok view' ∧ view'.WellFormed ∧
      view'.elements = slices view.elements cuts) ↔ CutsFit view.size_ cuts := by
  induction cuts generalizing view with
  | nil => exact iff_of_true ⟨view, rfl, h, rfl⟩ trivial
  | cons cut cuts ih =>
    obtain ⟨offset, size⟩ := cut
    by_cases hfit : size = 0 → view.size_ ≤ offset
    · obtain ⟨view₁, hok, hwell, hslice⟩ : ∃ view₁, view.subview build offset size = .ok view₁ ∧
          view.Slices offset size view₁ := subview_ok h hfit
      have hsize : view₁.size_ = min size (view.size_ - offset) := by
        rw [← length_elements, hslice, List.length_take, List.length_drop, length_elements]
      rw [CutsFit, ← hsize, ← ih hwell, hslice]
      simp only [subviews, bind_of_ok hok]
      exact (and_iff_right hfit).symm
    · refine iff_of_false ?_ fun hc => hfit hc.1
      rintro ⟨view', hok, -⟩
      obtain ⟨view₁, hok₁, -⟩ := bind_ok.mp hok
      refine hfit fun hzero => ?_
      rw [hzero] at hok₁
      exact le_of_subview_ok hcheck h hok₁

end View

/-! ## The view of a setter -/

/-- The view that `AppendData` makes behind `old_size` elements. -/
def passedView (b : BufferT T) (old_size max_elements : ℕ) : Except Fault View :=
  View.new build (b.data_.map fun _ => old_size) max_elements

variable {build} {b : BufferT T} {n : ℕ}

/-- It is what the model of `AppendData` checks. -/
theorem checkView_eq (b : BufferT T) (old_size n : ℕ) :
    b.checkView build n = (b.passedView build old_size n).map fun _ => () := by
  cases hcheck : build.dcheckIsOn <;> cases hdata : b.data_ <;> by_cases hn : n = 0 <;>
    simp [checkView, passedView, View.new, dcheck, hcheck, hdata, hn, Except.map, bind, Except.bind,
      pure, Except.pure]

theorem setSize_self (h : Sound b) (fresh : ℕ → T) :
    b.setSize build fresh b.size_ = .ok (b, ⟨[], 0⟩) := by
  have hensure : b.ensureCapacityWithHeadroom build fresh b.size_ true = .ok (b, ⟨[], 0⟩) := by
    rw [ensureCapacityWithHeadroom, bind_of_ok (dcheck_true h.isConsistent), if_pos h.size]
    rfl
  have hzero : zeroOld build b b.size_ = .ok b := if_neg fun hc => lt_irrefl _ hc.2
  rw [setSize]
  dsimp only
  rw [bind_of_ok hensure]
  dsimp only
  rw [bind_of_ok hzero]
  rfl

/-- `AppendData` makes the view that it passes to the setter. -/
def PassesView (build : Build T) (fresh : ℕ → T) (b : BufferT T) (max_elements : ℕ) : Prop :=
  ∃ b' realloc view, b.setSize build fresh (sizeT (b.size_ + max_elements)) = .ok (b', realloc) ∧
    b'.passedView build b.size_ max_elements = .ok view

/-- Where checks are on, the view is made just when there are places for elements, or no block. -/
theorem passesView_iff (hcheck : build.dcheckIsOn = true) (fresh : ℕ → T) (h : Sound b)
    (hn : n < 2 ^ 64) : PassesView build fresh b n ↔ (n = 0 → b.data_ = none) := by
  have hcap := h.lt
  have hsize := h.size
  have hmade : ∀ b' : BufferT T,
      (∃ view, b'.passedView build b.size_ n = .ok view) ↔ (b'.data_ = none ↔ n = 0) := by
    intro b'
    simp only [passedView, View.new_ok_iff hcheck, View.WellFormed]
    constructor
    · rintro ⟨view, rfl, hwell⟩
      rwa [Option.map_eq_none_iff] at hwell
    · intro hwell
      exact ⟨_, rfl, by rwa [Option.map_eq_none_iff]⟩
  rcases Nat.eq_zero_or_pos n with rfl | hpos
  · have hset : b.setSize build fresh (sizeT (b.size_ + 0)) = .ok (b, ⟨[], 0⟩) := by
      rw [add_zero, sizeT_of_lt (by omega)]
      exact setSize_self h fresh
    constructor
    · rintro ⟨b', realloc, view, hok, hview⟩ -
      cases hset.symm.trans hok
      exact ((hmade b).mp ⟨view, hview⟩).mpr rfl
    · intro hnone
      obtain ⟨view, hview⟩ := (hmade b).mpr (iff_of_true (hnone rfl) rfl)
      exact ⟨b, ⟨[], 0⟩, view, hset, hview⟩
  · refine iff_of_true ?_ fun hzero => absurd hzero hpos.ne'
    obtain ⟨b', realloc, hok, hgrown, hsize', -⟩ :=
      setSize_spec build fresh h (show sizeT (b.size_ + n) < 2 ^ 64 from Nat.mod_lt _ (by norm_num))
    have hsome : b'.data_ ≠ none := by
      rw [Ne, hgrown.sound.null]
      have hcap' := hgrown.capacity
      have hle := hgrown.sound.size
      -- the sum can wrap, but then there were elements before
      rcases Nat.eq_zero_or_pos b.size_ with hzero | hsome
      · rw [hzero, zero_add, sizeT_of_lt hn] at hsize'
        omega
      · omega
    obtain ⟨view, hview⟩ := (hmade b').mpr (iff_of_false hsome hpos.ne')
    exact ⟨b', realloc, view, hok, hview⟩

/-- **When the views of the program are well formed**, where checks are on: a subview just when no
size of 0 is asked for inside a view; the view that `AppendData` or `SetData` passes to a setter
just when there is a place for an element, or the buffer has no block. -/
theorem views_iff {ι : Type} [DecidableEq ι] (hcheck : build.dcheckIsOn = true) :
    (∀ view : View, view.WellFormed → ∀ cuts : List (ℕ × ℕ),
      (∃ view', view.subviews build cuts = .ok view' ∧ view'.WellFormed ∧
        view'.elements = View.slices view.elements cuts) ↔ View.CutsFit view.size_ cuts) ∧
    ∀ (calls : List (Call ι T)) (w : World ι T) (a : ι) (b : BufferT T),
      exec (World.step build) World.init calls = some w → w.objects a = some b →
      b.isConsistent = true → ∀ (fresh : ℕ → T) (max_elements : Fin (2 ^ 64)),
      (PassesView build fresh b max_elements ↔ (max_elements.val = 0 → b.data_ = none)) ∧
      (PassesView build fresh { b with size_ := 0 } max_elements ↔
        (max_elements.val = 0 → b.data_ = none)) := by
  refine ⟨fun view h cuts => View.subviews_iff hcheck h cuts, ?_⟩
  intro calls w a b hrun hb hcons fresh max_elements
  have hsound : Sound b := (objects_run hrun).sound hb (dcheck_true hcons)
  exact ⟨passesView_iff hcheck fresh hsound max_elements.isLt,
    passesView_iff hcheck fresh hsound.truncate max_elements.isLt⟩

/-- A build with checks on. -/
def checking : Build ℕ := ⟨false, true, 0, fun _ _ => 9⟩

/-- The third of five elements, and a place behind two elements. -/
theorem views_iff_sample :
    (∃ view', (⟨some 10, 5⟩ : View).subviews checking [(1, 3), (1, 1)] = .ok view' ∧
      view'.WellFormed ∧ view'.elements = [12]) ∧
    ∃ w b, exec (World.step checking) World.init [.ofSize (0 : ℕ) 2 2] = some w ∧
      w.objects 0 = some b ∧ PassesView checking (fun _ => 9) b 1 := by
  have hcheck : checking.dcheckIsOn = true := rfl
  obtain ⟨hviews, hpassed⟩ := views_iff (ι := ℕ) hcheck
  refine ⟨?_, _, _, rfl, rfl, ?_⟩
  · exact (hviews ⟨some 10, 5⟩ (by decide) [(1, 3), (1, 1)]).mpr (by simp [View.CutsFit])
  · exact (hpassed [.ofSize (0 : ℕ) 2 2] _ 0 _ rfl rfl rfl (fun _ => 9) 1).1.mpr (by decide)

/-- No view is made of no elements in the middle of three, and none for a setter that has nothing
to write behind two elements. -/
theorem views_not_made :
    (⟨some 10, 3⟩ : View).WellFormed ∧ (⟨some 10, 3⟩ : View).subview checking 1 0 = .error .dcheck ∧
    ∃ w b, exec (World.step checking) World.init [.ofSize (0 : ℕ) 2 2] = some w ∧
      w.objects 0 = some b ∧ b.isConsistent = true ∧ ¬ PassesView checking (fun _ => 9) b 0 := by
  refine ⟨by decide, rfl, _, _, rfl, rfl, rfl, ?_⟩
  rintro ⟨b', realloc, view, hok, hview⟩
  cases hok
  cases hview

end BufferT

end RtcBase
