import RtcBase.Buffer.Residue

/-!
# Buffers are lists

* `lists`: what a run sees of its buffers, a list of elements each;
* `ListStep`: the calls on lists;
* `Call.Allowed`: the calls that a caller may make;
* `call_returns`: an allowed call fails no check, and copies within its block;
* **`refines_list`**: every run of allowed calls is a run on lists.
-/

namespace RtcBase

open Run

namespace BufferT

variable {ι T : Type} {build : Build T} {w w' : World ι T} {b : BufferT T}

/-! ## The calls on lists -/

/-- A buffer is absent, or has been moved from, or has a list of elements. -/
abbrev Lists (ι T : Type) : Type := ι → Option (Option (List T))

/-- What the program may know of each buffer: its elements, or that it has been moved from. -/
def World.lists (w : World ι T) : Lists ι T := fun a =>
  (w.objects a).map fun b => if w.moved a then none else some b.elements

/-- What a call does to the lists. -/
inductive ListStep [DecidableEq ι] (m : Lists ι T) : Call ι T → Lists ι T → Prop where
  | create (c : Call ι T) (a : ι) (l : List T) (ha : m a = none) (hc : c.Creates a l) :
      ListStep m c (Function.update m a (some (some l)))
  | change (c : Call ι T) (a : ι) (l l' : List T) (ha : m a = some (some l))
      (hc : c.Changes a l l') : ListStep m c (Function.update m a (some (some l')))
  | moveConstruct (a b : ι) (l : List T) (ha : m a = none) (hb : m b = some (some l)) :
      ListStep m (.moveConstruct a b)
        (Function.update (Function.update m b (some none)) a (some (some l)))
  | clear (a : ι) (x : Option (List T)) (ha : m a = some x) :
      ListStep m (.clear a) (Function.update m a (some (some [])))
  | moveAssign (a b : ι) (x : Option (List T)) (l : List T) (hne : a ≠ b) (ha : m a = some x)
      (hb : m b = some (some l)) :
      ListStep m (.moveAssign a b)
        (Function.update (Function.update m b (some none)) a (some (some l)))
  | swap (a b : ι) (x y : Option (List T)) (ha : m a = some x) (hb : m b = some y) :
      ListStep m (.swap a b) (Function.update (Function.update m b (some x)) a (some y))
  | destroy (a : ι) (x : Option (List T)) (ha : m a = some x) :
      ListStep m (.destroy a) (Function.update m a none)

/-! ## What a caller may do -/

/-- The buffer exists and has not been moved from. -/
def World.Usable (w : World ι T) (a : ι) : Prop := (w.objects a).isSome ∧ w.moved a = false

/-- A buffer that has been moved from is cleared, assigned to, swapped or destroyed. Sources have
as many elements as are said to be there, setters are given a view of one cell at least, and no
sum of sizes exceeds what a `size_t` holds. -/
def Call.Allowed (w : World ι T) : Call ι T → Prop
  | .empty a | .ofSize a _ _ => w.objects a = none
  | .ofData a data size _ => w.objects a = none ∧ size ≤ data.length
  | .moveConstruct a b => w.objects a = none ∧ w.Usable b
  | .setData a data size => w.Usable a ∧ size ≤ data.length
  | .setDataSetter a n _ => w.Usable a ∧ 0 < n.val
  | .appendData a data size =>
    w.Usable a ∧ size ≤ data.length ∧ ∀ b ∈ w.objects a, b.size_ + size < 2 ^ 64
  | .appendDataSetter a n _ => w.Usable a ∧ 0 < n.val ∧ ∀ b ∈ w.objects a, b.size_ + n < 2 ^ 64
  | .setSize a _ | .ensureCapacity a _ => w.Usable a
  | .clear a | .destroy a => (w.objects a).isSome
  | .moveAssign a b => a ≠ b ∧ (w.objects a).isSome ∧ w.Usable b
  | .swap a b => (w.objects a).isSome ∧ (w.objects b).isSome

instance (w : World ι T) (a : ι) : Decidable (w.Usable a) := inferInstanceAs (Decidable (_ ∧ _))

instance [DecidableEq ι] [DecidableEq T] (w : World ι T) : ∀ c : Call ι T, Decidable (c.Allowed w)
  | .empty a | .ofSize a _ _ => inferInstanceAs (Decidable (w.objects a = none))
  | .ofData _ _ _ _ => inferInstanceAs (Decidable (_ ∧ _))
  | .moveConstruct _ _ => inferInstanceAs (Decidable (_ ∧ _))
  | .setData _ _ _ => inferInstanceAs (Decidable (_ ∧ _))
  | .setDataSetter _ _ _ => inferInstanceAs (Decidable (_ ∧ _))
  | .appendData a _ size =>
    inferInstanceAs (Decidable (_ ∧ _ ∧ ∀ b ∈ w.objects a, b.size_ + size < 2 ^ 64))
  | .appendDataSetter a n _ =>
    inferInstanceAs (Decidable (_ ∧ _ ∧ ∀ b ∈ w.objects a, b.size_ + n < 2 ^ 64))
  | .setSize a _ | .ensureCapacity a _ => inferInstanceAs (Decidable (w.Usable a))
  | .clear a | .destroy a => inferInstanceAs (Decidable ((w.objects a).isSome = true))
  | .moveAssign _ _ => inferInstanceAs (Decidable (_ ∧ _ ∧ _))
  | .swap _ _ => inferInstanceAs (Decidable (_ ∧ _))

/-- A setter may report more than it was given. -/
def Call.Overreports : Call ι T → Prop
  | .setDataSetter _ n setter | .appendDataSetter _ n setter =>
    ∃ view : List T, view.length = n ∧ n < (setter.run view).2
  | _ => False

/-- The call moves `a`, moves to it or swaps it. -/
def Call.Moves (a : ι) : Call ι T → Prop
  | .moveConstruct a' b | .moveAssign a' b | .swap a' b => a = a' ∨ a = b
  | _ => False

/-! ## Simulation -/

theorem lists_some {a : ι} (hb : w.objects a = some b) :
    w.lists a = some (if w.moved a then none else some b.elements) := by
  simp [World.lists, hb]

theorem lists_usable {a : ι} (h : w.Usable a) (hb : w.objects a = some b) :
    w.lists a = some (some b.elements) := by
  rw [lists_some hb, h.2]
  rfl

theorem lists_absent {a : ι} (h : w.objects a = none) : w.lists a = none := by
  simp [World.lists, h]

theorem usable_of_changes {c : Call ι T} {a : ι} {l l' : List T} (hc : c.Changes a l l')
    (hok : c.Allowed w) : w.Usable a := by
  cases c with
  | setData a' data size => exact hc.1 ▸ hok.1
  | setDataSetter a' n setter => exact hc.1 ▸ hok.1
  | appendData a' data size => exact hc.1 ▸ hok.1
  | appendDataSetter a' n setter => exact hc.1 ▸ hok.1
  | setSize a' n => exact hc.1 ▸ hok
  | ensureCapacity a' n => exact hc.1 ▸ hok
  | _ => exact hc.elim

theorem get_eq {a : ι} (h : w.objects a = some b) : w.get a = .ok b := by
  rw [World.get, h]

theorem absent_eq {a : ι} (h : w.objects a = none) : w.absent a = .ok () := by
  rw [World.absent, h]

theorem Objects.usable (h : Objects build w) {a : ι} (hu : w.Usable a) :
    ∃ b, w.objects a = some b ∧ Sound b := by
  obtain ⟨b, hb⟩ := Option.isSome_iff_exists.mp hu.1
  exact ⟨b, hb, (h a b hb).1, (h a b hb).2 (Or.inl hu.2)⟩

variable [DecidableEq ι]

theorem lists_put (w : World ι T) (a : ι) (b : BufferT T) (moved : Bool) :
    (w.put a b moved).lists =
      Function.update w.lists a (some (if moved then none else some b.elements)) := by
  funext a'
  by_cases ha : a' = a
  · subst ha
    simp [World.lists, World.put, elements_mark]
  · simp [World.lists, World.put, Function.update_of_ne ha]

theorem listStep_effect {c : Call ι T} (hok : c.Allowed w) (he : Effect build w c w') :
    ListStep w.lists c w'.lists := by
  cases he with
  | create c a b ha hs hc =>
    rw [lists_put]
    exact .create c a _ (lists_absent ha) hc
  | change c a b b' realloc hb hs hg hc =>
    have hu := usable_of_changes hc hok
    change ListStep w.lists c (w.put a b' (w.moved a)).lists
    rw [lists_put, hu.2]
    exact .change c a _ _ (lists_usable hu hb) hc
  | moveConstruct a b buf ha hb hs =>
    rw [lists_put, lists_put]
    exact .moveConstruct a b _ (lists_absent ha) (lists_usable hok.2 hb)
  | clear a b b' hb hs hsize =>
    have hnil : b'.elements = [] := by
      rw [elements, hsize]
      rfl
    rw [lists_put, hnil]
    exact .clear a _ (lists_some hb)
  | moveAssign a b this buf released hne ha hb hs =>
    change ListStep w.lists _ ((w.put b (movedFrom build) true).put a buf false).lists
    rw [lists_put, lists_put]
    exact .moveAssign a b _ _ hne (lists_some ha) (lists_usable hok.2.2 hb)
  | moveAssignSelf a this released ha => exact absurd rfl hok.1
  | swap a b x y ha hb =>
    rw [lists_put, lists_put]
    exact .swap a b _ _ (lists_some ha) (lists_some hb)
  | destroy a b released hb =>
    have hlists : World.lists { w with objects := Function.update w.objects a none } =
        Function.update w.lists a none := by
      funext a'
      by_cases ha : a' = a
      · subst ha
        simp [World.lists]
      · simp [World.lists, Function.update_of_ne ha]
    change ListStep w.lists _ (World.lists { w with objects := Function.update w.objects a none })
    rw [hlists]
    exact .destroy a _ (lists_some hb)

theorem capacity_update {objects : ι → Option (BufferT T)} {a x : ι} {b' y : BufferT T}
    (hb : objects a = some b) (hb' : Function.update objects x (some y.mark) a = some b')
    (hx : a = x → b.capacity_ ≤ y.capacity_) : b.capacity_ ≤ b'.capacity_ := by
  by_cases hax : a = x
  · subst hax
    rw [Function.update_self] at hb'
    cases hb'
    exact hx rfl
  · rw [Function.update_of_ne hax] at hb'
    cases hb.symm.trans hb'
    exact le_refl _

/-- A buffer that is not moved or swapped keeps its capacity, or gets a greater one. -/
theorem capacity_effect {c : Call ι T} (he : Effect build w c w') {a : ι} {b' : BufferT T}
    (hb : w.objects a = some b) (hb' : w'.objects a = some b') (hm : ¬ c.Moves a) :
    b.capacity_ ≤ b'.capacity_ := by
  -- Two buffers other than `a` are set.
  have htwo {x y : ι} {p q : BufferT T} (hne : ¬ (a = x ∨ a = y)) (hb' : Function.update
      (Function.update w.objects y (some p.mark)) x (some q.mark) a = some b') :
      b.capacity_ ≤ b'.capacity_ := by
    obtain ⟨hx, hy⟩ := not_or.mp hne
    exact capacity_update ((Function.update_of_ne hy _ _).trans hb) hb' fun h => absurd h hx
  cases he with
  | create c x y hx hs hc =>
    refine capacity_update hb hb' fun hax => ?_
    subst hax
    cases hx.symm.trans hb
  | change c x y y' realloc hx hs hg hc =>
    refine capacity_update hb hb' fun hax => ?_
    subst hax
    cases hx.symm.trans hb
    exact hg.capacity
  | moveConstruct x y buf hx hy hs => exact htwo hm hb'
  | clear x y y' hx hs hsize hcap =>
    refine capacity_update hb hb' fun hax => ?_
    subst hax
    cases hx.symm.trans hb
    exact hcap.ge
  | moveAssign x y this buf released hne hx hy hs => exact htwo hm hb'
  | moveAssignSelf x this released hx =>
    exact capacity_update hb hb' fun hax => absurd (Or.inl hax) hm
  | swap x y p q hx hy => exact htwo hm hb'
  | destroy x y released hx =>
    change Function.update w.objects x none a = some b' at hb'
    by_cases hax : a = x
    · rw [hax, Function.update_self] at hb'
      cases hb'
    · rw [Function.update_of_ne hax] at hb'
      cases hb.symm.trans hb'
      exact le_refl _

/-! ## No faults -/

/-- **An allowed call** returns, unless the check on what its setter reports fails. -/
theorem call_returns (h : Objects build w) {c : Call ι T} (hok : c.Allowed w) :
    (∃ w', w.call build c = .ok w') ∨ w.call build c = .error .check ∧ c.Overreports := by
  cases c with
  | empty a =>
    left
    rw [World.call, bind_of_ok (absent_eq hok), bind_of_ok (empty_spec build).1]
    exact ⟨_, rfl⟩
  | ofSize a size capacity =>
    left
    obtain ⟨b, hb, -⟩ := ofSize_spec build (build.fresh w.calls) size.isLt capacity.isLt
    rw [World.call, bind_of_ok (absent_eq hok), bind_of_ok hb]
    exact ⟨_, rfl⟩
  | ofData a data size capacity =>
    left
    obtain ⟨b, hb⟩ : ∃ b, BufferT.ofData build (build.fresh w.calls) data size capacity = .ok b :=
      ofData_returns size.isLt capacity.isLt hok.2
    rw [World.call, bind_of_ok (absent_eq hok.1), bind_of_ok hb]
    exact ⟨_, rfl⟩
  | moveConstruct a b =>
    left
    obtain ⟨buf, hb, hs⟩ := h.usable hok.2
    rw [World.call, bind_of_ok (absent_eq hok.1), bind_of_ok (get_eq hb),
      bind_of_ok (moveConstruct_spec build hs)]
    exact ⟨_, rfl⟩
  | setData a data size =>
    left
    obtain ⟨b, hb, hs⟩ := h.usable hok.1
    obtain ⟨r, hr⟩ : ∃ r, b.setData build (build.fresh w.calls) data size = .ok r :=
      setData_returns hs size.isLt hok.2
    rw [World.call, bind_of_ok (get_eq hb), bind_of_ok hr]
    exact ⟨_, rfl⟩
  | setDataSetter a n setter =>
    obtain ⟨b, hb, hs⟩ := h.usable hok.1
    rw [World.call, bind_of_ok (get_eq hb)]
    rcases setDataSetter_returns hs n.isLt hok.2 setter with ⟨r, hr⟩ | ⟨hr, hover⟩
    · left
      rw [bind_of_ok hr]
      exact ⟨_, rfl⟩
    · right
      rw [hr]
      exact ⟨rfl, hover⟩
  | appendData a data size =>
    left
    obtain ⟨b, hb, hs⟩ := h.usable hok.1
    obtain ⟨r, hr⟩ : ∃ r, b.appendData build (build.fresh w.calls) data size = .ok r :=
      appendData_returns hs (hok.2.2 b hb) hok.2.1
    rw [World.call, bind_of_ok (get_eq hb), bind_of_ok hr]
    exact ⟨_, rfl⟩
  | appendDataSetter a n setter =>
    obtain ⟨b, hb, hs⟩ := h.usable hok.1
    rw [World.call, bind_of_ok (get_eq hb)]
    rcases appendDataSetter_returns hs (hok.2.2 b hb) hok.2.1 setter with ⟨r, hr⟩ | ⟨hr, hover⟩
    · left
      rw [bind_of_ok hr]
      exact ⟨_, rfl⟩
    · right
      rw [hr]
      exact ⟨rfl, hover⟩
  | setSize a size =>
    left
    obtain ⟨b, hb, hs⟩ := h.usable hok
    obtain ⟨b', realloc, hr, -⟩ := setSize_spec build (build.fresh w.calls) hs size.isLt
    rw [World.call, bind_of_ok (get_eq hb), bind_of_ok hr]
    exact ⟨_, rfl⟩
  | ensureCapacity a capacity =>
    left
    obtain ⟨b, hb, hs⟩ := h.usable hok
    obtain ⟨b', realloc, hr, -⟩ :=
      ensureCapacityWithHeadroom_spec build (build.fresh w.calls) hs capacity.isLt false
    rw [World.call, bind_of_ok (get_eq hb), ensureCapacity, bind_of_ok hr]
    exact ⟨_, rfl⟩
  | clear a =>
    left
    obtain ⟨b, hb⟩ := Option.isSome_iff_exists.mp hok
    obtain ⟨b', hb', -⟩ := clear_spec build (h a b hb).1
    rw [World.call, bind_of_ok (get_eq hb), bind_of_ok hb']
    exact ⟨_, rfl⟩
  | moveAssign a b =>
    left
    obtain ⟨hne, ha, hu⟩ := hok
    obtain ⟨this, ha⟩ := Option.isSome_iff_exists.mp ha
    obtain ⟨buf, hb, hs⟩ := h.usable hu
    obtain ⟨released, hmove, -⟩ := moveAssign_spec build (h a this ha).1 hs
    rw [World.call, bind_of_ok (get_eq ha), bind_of_ok (get_eq hb), if_neg hne, bind_of_ok hmove]
    exact ⟨_, rfl⟩
  | swap a b =>
    left
    obtain ⟨x, hx⟩ := Option.isSome_iff_exists.mp hok.1
    obtain ⟨y, hy⟩ := Option.isSome_iff_exists.mp hok.2
    rw [World.call, bind_of_ok (get_eq hx), bind_of_ok (get_eq hy)]
    exact ⟨_, rfl⟩
  | destroy a =>
    left
    obtain ⟨b, hb⟩ := Option.isSome_iff_exists.mp hok
    obtain ⟨released, hd, -⟩ := destroy_spec build (h a b hb).1
    rw [World.call, bind_of_ok (get_eq hb), bind_of_ok hd]
    exact ⟨_, rfl⟩

/-- **Every run is a run on lists.** Let the calls of a run be allowed. Then it is a run on lists,
in every state of which the first `size_` cells of a buffer that has not been moved from hold its
list. Its capacity is no less than its size, and this is also true of a buffer that has been moved
from if checks are off. The next allowed call fails no `RTC_DCHECK` and touches no cell outside a
block; it returns, unless `RTC_CHECK` finds that a setter has reported more than it was given, and
it makes no capacity smaller but by moving or swapping. -/
theorem refines_list (build : Build T) (calls : List (Call ι T))
    (h : exec (World.step build) World.init calls = some w)
    (hok : Along (World.step build) (fun w c => c.Allowed w) World.init calls) :
    Runs ListStep (World.init : World ι T).lists calls w.lists ∧
    (∀ a b, w.objects a = some b → b.block.length = b.capacity_ ∧
      (w.moved a = false ∨ build.dcheckIsOn = false → b.size_ ≤ b.capacity_)) ∧
    ∀ c : Call ι T, c.Allowed w →
      (∃ w', w.call build c = .ok w' ∧ ∀ a b b', w.objects a = some b →
        w'.objects a = some b' → ¬ c.Moves a → b.capacity_ ≤ b'.capacity_) ∨
      w.call build c = .error .check ∧ c.Overreports := by
  have hobjects := objects_run h
  refine ⟨?_, fun a b hb => ⟨(hobjects a b hb).1.length, (hobjects a b hb).2⟩, fun c hc => ?_⟩
  · refine runs_of_exec World.lists (Objects build) (fun w c w' hw hc hs => ?_) objects_init h hok
    obtain ⟨w₁, he, rfl⟩ := step_effect hw hs
    have hlists : ListStep w.lists c w₁.lists := listStep_effect hc he
    exact ⟨objects_step hw hs, hlists⟩
  · rcases call_returns hobjects hc with ⟨w', hcall⟩ | hcheck
    · have he := call_effect hobjects hcall
      exact Or.inl ⟨w', hcall, fun a b b' hb hb' hm => capacity_effect he hb hb' hm⟩
    · exact Or.inr hcheck

/-- The calls of `secrets`, in a debug build, are allowed, and the last buffer holds a list. -/
theorem refines_list_sample : ∃ w, exec (World.step zeroing) World.init secrets = some w ∧
    w.lists 2 = some (some [6, 7]) ∧ w.lists 1 = some none ∧
    Runs ListStep (World.init : World ℕ ℕ).lists secrets w.lists :=
  ⟨_, rfl, rfl, rfl, (refines_list zeroing secrets rfl (by decide)).1⟩

/-- Where checks are on, a buffer that has been moved from has a size and no capacity. -/
theorem not_size_le_capacity : ∃ w,
    exec (World.step zeroing) World.init [Call.empty 0, .moveConstruct 1 0] = some w ∧
    Along (World.step zeroing) (fun w c => c.Allowed w) World.init
      [Call.empty 0, .moveConstruct 1 0] ∧
    ∃ b, w.objects 0 = some b ∧ ¬ b.size_ ≤ b.capacity_ :=
  ⟨_, rfl, by decide, _, rfl, by decide⟩

end BufferT

end RtcBase
