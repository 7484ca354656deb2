import RtcBase.Lib.Run
import RtcBase.Buffer.Calls

/-!
# What a step of a run can do

* `Call.Creates`, `Call.Changes`: the calls as they are meant, on lists of elements;
* `Objects`: what the buffers of a run are like;
* `Effect`, **`step_effect`**: what a step can do, for every call.
-/

namespace RtcBase

open Run

namespace BufferT

variable {ι T : Type}

/-! ## Calls on lists -/

/-- The call constructs `a` with the elements `l`. -/
def Call.Creates (a : ι) (l : List T) : Call ι T → Prop
  | .empty a' => a' = a ∧ l = []
  | .ofSize a' size _ => a' = a ∧ l.length = size
  | .ofData a' data size _ => a' = a ∧ l = data.take size
  | _ => False

/-- The call replaces, appends, truncates or extends, and turns the elements of `a` from `l` into
`l'`. A setter is given anything, and new elements can be anything. -/
def Call.Changes (a : ι) (l l' : List T) : Call ι T → Prop
  | .setData a' data size => a' = a ∧ l' = data.take size
  | .setDataSetter a' n setter =>
    a' = a ∧ ∃ view : List T, view.length = n ∧ l' = setter.filled view
  | .appendData a' data size => a' = a ∧ l' = l ++ data.take size
  | .appendDataSetter a' n setter =>
    a' = a ∧ ∃ view : List T, view.length = n ∧ l' = l ++ setter.filled view
  | .setSize a' n => a' = a ∧ ∃ new : List T, new.length = n - l.length ∧ l' = l.take n ++ new
  | .ensureCapacity a' _ => a' = a ∧ l' = l
  | _ => False

/-- The setter of the call, if there is one, touches only the prefix that it reports. -/
def Call.TouchesPrefix : Call ι T → Prop
  | .setDataSetter _ _ setter | .appendDataSetter _ _ setter => setter.TouchesPrefix
  | _ => True

/-! ## Marks -/

variable {b b' : BufferT T}

theorem block_mark (b : BufferT T) :
    b.mark.block = (b.block.take b.size_).map Cell.hold ++ b.block.drop b.size_ := by
  unfold mark block
  cases b.data_ <;> simp

theorem Whole.mark (h : Whole b) : Whole b.mark := by
  refine ⟨?_, ?_, h.lt⟩
  · rw [block_mark, List.length_append, List.length_map, ← List.length_append,
      List.take_append_drop]
    exact h.length
  · rw [BufferT.mark, Option.map_eq_none_iff]
    exact h.null

theorem take_mark (b : BufferT T) :
    b.mark.block.take b.size_ = (b.block.take b.size_).map Cell.hold := by
  rw [block_mark]
  rcases le_total b.size_ b.block.length with hle | hle
  · rw [List.take_append_of_le_length (by simp [hle]), List.take_of_length_le (by simp)]
  · rw [List.drop_eq_nil_of_le hle, List.append_nil, List.take_of_length_le (by simp)]

theorem elements_mark (b : BufferT T) : b.mark.elements = b.elements := by
  change (b.mark.block.take b.size_).map Cell.value = _
  rw [take_mark, List.map_map]
  rfl

theorem cleanFrom_mark (hc : CleanFrom b.block b.size_) : CleanFrom b.mark.block b.size_ := by
  intro c hmem
  rw [block_mark] at hmem
  rcases le_total b.size_ b.block.length with hle | hle
  · rw [List.drop_append_of_le_length (by simp [hle]), List.drop_eq_nil_of_le (by simp)] at hmem
    exact hc c hmem
  · rw [List.drop_eq_nil_of_le hle, List.append_nil, List.drop_eq_nil_of_le (by simp)] at hmem
    cases hmem

theorem Sound.length_elements (h : Sound b) : b.elements.length = b.size_ := by
  have := h.size
  rw [elements, List.length_map, List.length_take, h.length, min_eq_left this]

theorem elements_setSize (h : Sound b) (h' : Sound b') {n : ℕ} (hn : b'.size_ = n)
    (htake : b'.block.take (min n b.size_) = b.block.take (min n b.size_)) :
    ∃ new : List T, new.length = n - b.elements.length ∧
      b'.elements = b.elements.take n ++ new := by
  refine ⟨b'.elements.drop b.size_, ?_, ?_⟩
  · rw [List.length_drop, h'.length_elements, h.length_elements, hn]
  · have hstart : b'.elements.take b.size_ = b.elements.take n := by
      simp only [elements, ← List.map_take, List.take_take, hn]
      rw [min_comm, htake]
    rw [← hstart, List.take_append_drop]

/-! ## Buffers of a run -/

variable [DecidableEq ι] {build : Build T} {w w' : World ι T}

/-- `P` holds of every buffer, with the flag that tells whether it has been moved from. -/
def World.Every (w : World ι T) (P : BufferT T → Bool → Prop) : Prop :=
  ∀ a b, w.objects a = some b → P b (w.moved a)

theorem World.Every.put {P : BufferT T → Bool → Prop} (h : w.Every P) (a : ι) {moved : Bool}
    (hb : P b.mark moved) : (w.put a b moved).Every P := by
  intro a' b' hb'
  simp only [World.put] at hb' ⊢
  by_cases ha : a' = a
  · subst ha
    rw [Function.update_self] at hb' ⊢
    cases hb'
    exact hb
  · rw [Function.update_of_ne ha] at hb' ⊢
    exact h a' b' hb'

theorem World.Every.destroy {P : BufferT T → Bool → Prop} (h : w.Every P) (a : ι) :
    World.Every { w with objects := Function.update w.objects a none } P := by
  intro a' b' hb'
  dsimp only at hb' ⊢
  by_cases ha : a' = a
  · rw [ha, Function.update_self] at hb'
    cases hb'
  · rw [Function.update_of_ne ha] at hb'
    exact h a' b' hb'

/-- Where checks are on, a buffer that has been moved from has no size to rely on. -/
def Object (build : Build T) (b : BufferT T) (moved : Bool) : Prop :=
  Whole b ∧ (moved = false ∨ build.dcheckIsOn = false → b.size_ ≤ b.capacity_)

theorem Object.mark {moved : Bool} (h : Object build b moved) : Object build b.mark moved :=
  ⟨h.1.mark, h.2⟩

theorem Sound.object (h : Sound b) (moved : Bool) : Object build b moved :=
  ⟨h.toWhole, fun _ => h.size⟩

theorem object_movedFrom : Object build (movedFrom build) true := by
  refine ⟨whole_movedFrom build, fun h => ?_⟩
  rcases h with h | h
  · cases h
  · simp [movedFrom, h]

/-- What the buffers of a run are like. -/
def Objects (build : Build T) (w : World ι T) : Prop := w.Every (Object build)

/-! ## Steps -/

/-- What a step can do. -/
inductive Effect (build : Build T) (w : World ι T) : Call ι T → World ι T → Prop where
  | create (c : Call ι T) (a : ι) (b : BufferT T) (ha : w.objects a = none) (hs : Sound b)
      (hc : c.Creates a b.elements) (hclean : CleanFrom b.block b.size_) :
      Effect build w c (w.put a b false)
  | change (c : Call ι T) (a : ι) (b b' : BufferT T) (realloc : Realloc T)
      (hb : w.objects a = some b) (hs : Sound b) (hg : Grown build b b' realloc)
      (hc : c.Changes a b.elements b'.elements)
      (hclean : build.zeroOnFree = true → c.TouchesPrefix → CleanFrom b.block b.size_ →
        CleanFrom b'.block b'.size_) :
      Effect build w c ((w.put a b' (w.moved a)).reallocate a realloc)
  | moveConstruct (a b : ι) (buf : BufferT T) (ha : w.objects a = none)
      (hb : w.objects b = some buf) (hs : Sound buf) :
      Effect build w (.moveConstruct a b) ((w.put b (movedFrom build) true).put a buf false)
  | clear (a : ι) (b b' : BufferT T) (hb : w.objects a = some b) (hs : Sound b')
      (hsize : b'.size_ = 0) (hcap : b'.capacity_ = b.capacity_)
      (hclean : build.zeroOnFree = true → CleanFrom b'.block 0) :
      Effect build w (.clear a) (w.put a b' false)
  | moveAssign (a b : ι) (this buf : BufferT T) (released : List (Block T)) (hne : a ≠ b)
      (ha : w.objects a = some this) (hb : w.objects b = some buf) (hs : Sound buf)
      (hz : build.zeroOnFree = true → ∀ block ∈ released, Zeroed build block) :
      Effect build w (.moveAssign a b)
        (((w.put b (movedFrom build) true).put a buf false).release released)
  | moveAssignSelf (a : ι) (this : BufferT T) (released : List (Block T))
      (ha : w.objects a = some this)
      (hz : build.zeroOnFree = true → ∀ block ∈ released, Zeroed build block) :
      Effect build w (.moveAssign a a) ((w.put a (movedFrom build) true).release released)
  | swap (a b : ι) (x y : BufferT T) (ha : w.objects a = some x) (hb : w.objects b = some y) :
      Effect build w (.swap a b) ((w.put b x (w.moved a)).put a y (w.moved b))
  | destroy (a : ι) (b : BufferT T) (released : List (Block T)) (hb : w.objects a = some b)
      (hz : build.zeroOnFree = true → ∀ block ∈ released, Zeroed build block) :
      Effect build w (.destroy a)
        ({ w with objects := Function.update w.objects a none }.release released)

omit [DecidableEq ι] in
theorem get_ok {a : ι} (h : w.get a = .ok b) : w.objects a = some b := by
  rw [World.get] at h
  cases hb : w.objects a with
  | none => rw [hb] at h; cases h
  | some b' => rw [hb] at h; cases h; rfl

omit [DecidableEq ι] in
theorem absent_ok {a : ι} (h : w.absent a = .ok ()) : w.objects a = none := by
  rw [World.absent] at h
  cases hb : w.objects a with
  | none => rfl
  | some b => rw [hb] at h; cases h

omit [DecidableEq ι] in
theorem method_ok {α : Type} {a : ι} {f : BufferT T → Except Fault α}
    {k : α → Except Fault (World ι T)} (h : (w.get a >>= fun b => f b >>= k) = .ok w') :
    ∃ b r, w.objects a = some b ∧ f b = .ok r ∧ k r = .ok w' := by
  obtain ⟨b, hb, h⟩ := bind_ok.mp h
  obtain ⟨r, hr, h⟩ := bind_ok.mp h
  exact ⟨b, r, get_ok hb, hr, h⟩

theorem check_of_ok {α : Type} {x : Except Fault Unit} {f : Unit → Except Fault α} {r : α}
    (h : (x >>= f) = .ok r) : x = .ok () := by
  obtain ⟨u, hx, -⟩ := bind_ok.mp h
  exact hx

omit [DecidableEq ι] in
theorem Objects.sound (h : Objects build w) {a : ι} (hb : w.objects a = some b)
    (hd : dcheck build b.isConsistent = .ok ()) : Sound b := by
  obtain ⟨hw, hs⟩ := h a b hb
  refine ⟨hw, ?_⟩
  cases hon : build.dcheckIsOn with
  | false => exact hs (Or.inr hon)
  | true =>
    have hc := dcheck_ok.mp hd hon
    rw [hw.isConsistent, decide_eq_true_iff] at hc
    exact hc

theorem call_effect (h : Objects build w) {c : Call ι T} (hc : w.call build c = .ok w') :
    Effect build w c w' := by
  cases c with
  | empty a =>
    rw [World.call] at hc
    obtain ⟨u, ha, hc⟩ := bind_ok.mp hc
    obtain ⟨hempty, hs⟩ := empty_spec build
    rw [bind_of_ok hempty] at hc
    cases hc
    exact .create _ a _ (absent_ok ha) hs ⟨rfl, rfl⟩ (by intro c hmem; cases hmem)
  | ofSize a size capacity =>
    rw [World.call] at hc
    obtain ⟨u, ha, hc⟩ := bind_ok.mp hc
    obtain ⟨b, hb, hs, hsize, hclean⟩ :=
      ofSize_spec build (build.fresh w.calls) size.isLt capacity.isLt
    rw [bind_of_ok hb] at hc
    cases hc
    exact .create _ a b (absent_ok ha) hs ⟨rfl, hs.length_elements.trans hsize⟩
      (hclean.mono (Nat.zero_le _))
  | ofData a data size capacity =>
    rw [World.call] at hc
    obtain ⟨u, ha, hc⟩ := bind_ok.mp hc
    obtain ⟨b, hb, hc⟩ := bind_ok.mp hc
    cases hc
    obtain ⟨hs, hel, hclean⟩ := ofData_ok size.isLt capacity.isLt hb
    exact .create _ a b (absent_ok ha) hs ⟨rfl, hel⟩ hclean
  | moveConstruct a b =>
    rw [World.call] at hc
    obtain ⟨u, ha, hc⟩ := bind_ok.mp hc
    obtain ⟨buf, hb, hc⟩ := bind_ok.mp hc
    obtain ⟨r, hmove, hc⟩ := bind_ok.mp hc
    have hs := h.sound (get_ok hb) (check_of_ok hmove)
    rw [moveConstruct_spec build hs] at hmove
    cases hmove
    cases hc
    exact .moveConstruct a b buf (absent_ok ha) (get_ok hb) hs
  | setData a data size =>
    rw [World.call] at hc
    obtain ⟨b, ⟨b', realloc⟩, hb, hcall, hc⟩ := method_ok hc
    cases hc
    have hs := h.sound hb (check_of_ok hcall)
    obtain ⟨hg, hel, hclean⟩ := setData_ok hs hcall
    exact .change _ a b b' realloc hb hs hg ⟨rfl, hel⟩ fun hz _ => hclean hz
  | setDataSetter a n setter =>
    rw [World.call] at hc
    obtain ⟨b, ⟨written, b', realloc⟩, hb, hcall, hc⟩ := method_ok hc
    cases hc
    have hs := h.sound hb (check_of_ok hcall)
    obtain ⟨hg, hel, hclean⟩ := setDataSetter_ok hs hcall
    exact .change _ a b b' realloc hb hs hg ⟨rfl, hel⟩ hclean
  | appendData a data size =>
    rw [World.call] at hc
    obtain ⟨b, ⟨b', realloc⟩, hb, hcall, hc⟩ := method_ok hc
    cases hc
    have hs := h.sound hb (check_of_ok hcall)
    obtain ⟨hg, hsize, hel, hclean⟩ := appendData_ok hs hcall
    refine .change _ a b b' realloc hb hs hg ⟨rfl, hel⟩ fun _ _ hc => ?_
    exact (hclean _ (le_refl _) hc).mono (by omega)
  | appendDataSetter a n setter =>
    rw [World.call] at hc
    obtain ⟨b, ⟨written, b', realloc⟩, hb, hcall, hc⟩ := method_ok hc
    cases hc
    have hs := h.sound hb (check_of_ok hcall)
    have ha := appendDataSetter_ok hs hcall
    obtain ⟨view, hlen, -, hel⟩ := ha.elements
    have hsize := ha.size
    refine .change _ a b b' realloc hb hs ha.toGrown ⟨rfl, view, hlen, hel⟩
      fun _ ht hc => ?_
    exact (ha.clean ht _ (le_refl _) hc).mono (by omega)
  | setSize a size =>
    rw [World.call] at hc
    obtain ⟨b, r, hb, hcall, hc⟩ := method_ok hc
    obtain ⟨r', hensure, -⟩ := bind_ok.mp hcall
    have hs := h.sound hb (check_of_ok hensure)
    obtain ⟨b', realloc, hset, hg, hsize, htake, hclean, -⟩ :=
      setSize_spec build (build.fresh w.calls) hs size.isLt
    cases hcall.symm.trans hset
    cases hc
    refine .change _ a b b' realloc hb hs hg ⟨rfl, ?_⟩ fun hz _ hc => ?_
    · exact elements_setSize hs hg.sound hsize htake
    · rw [hsize]
      exact hclean hz hc
  | ensureCapacity a capacity =>
    rw [World.call] at hc
    obtain ⟨b, r, hb, hcall, hc⟩ := method_ok hc
    have hs := h.sound hb (check_of_ok hcall)
    obtain ⟨b', realloc, hensure, hg, -, hsize, htake, hclean⟩ :=
      ensureCapacityWithHeadroom_spec build (build.fresh w.calls) hs capacity.isLt false
    cases hcall.symm.trans hensure
    cases hc
    refine .change _ a b b' realloc hb hs hg ⟨rfl, ?_⟩ fun _ _ hc => ?_
    · rw [elements, hsize, htake]
      rfl
    · rw [hsize]
      exact hclean _ (le_refl _) hc
  | clear a =>
    rw [World.call] at hc
    obtain ⟨b, b', hb, hcall, hc⟩ := method_ok hc
    obtain ⟨b₁, hclear, hs, hsize, hcap, hclean⟩ := clear_spec build (h a b hb).1
    cases hcall.symm.trans hclear
    cases hc
    exact .clear a b b' hb hs hsize hcap hclean
  | moveAssign a b =>
    rw [World.call] at hc
    obtain ⟨this, ha, hc⟩ := bind_ok.mp hc
    obtain ⟨buf, hb, hc⟩ := bind_ok.mp hc
    by_cases hab : a = b
    · subst hab
      rw [if_pos rfl] at hc
      obtain ⟨r, hmove, hc⟩ := bind_ok.mp hc
      have hs := h.sound (get_ok ha) (check_of_ok hmove)
      obtain ⟨released, hspec, hz⟩ := moveAssignSelf_spec build hs
      cases hmove.symm.trans hspec
      cases hc
      exact .moveAssignSelf a this released (get_ok ha) hz
    · rw [if_neg hab] at hc
      obtain ⟨r, hmove, hc⟩ := bind_ok.mp hc
      have hs := h.sound (get_ok hb) (check_of_ok hmove)
      obtain ⟨released, hspec, hz⟩ :=
        moveAssign_spec build (h a this (get_ok ha)).1 hs
      cases hmove.symm.trans hspec
      cases hc
      exact .moveAssign a b this buf released hab (get_ok ha) (get_ok hb) hs hz
  | swap a b =>
    rw [World.call] at hc
    obtain ⟨x, hx, hc⟩ := bind_ok.mp hc
    obtain ⟨y, hy, hc⟩ := bind_ok.mp hc
    cases hc
    exact .swap a b x y (get_ok hx) (get_ok hy)
  | destroy a =>
    rw [World.call] at hc
    obtain ⟨b, released, hb, hcall, hc⟩ := method_ok hc
    obtain ⟨blocks, hdestroy, hz⟩ := destroy_spec build (h a b hb).1
    cases hcall.symm.trans hdestroy
    cases hc
    exact .destroy a b released hb hz

theorem objects_effect (h : Objects build w) {c : Call ι T} (he : Effect build w c w') :
    Objects build w' := by
  cases he with
  | create c a b ha hs => exact h.put a (hs.object _).mark
  | change c a b b' realloc hb hs hg => exact h.put a (hg.sound.object _).mark
  | moveConstruct a b buf ha hb hs =>
    exact (h.put b object_movedFrom.mark).put a (hs.object _).mark
  | clear a b b' hb hs => exact h.put a (hs.object _).mark
  | moveAssign a b this buf released hne ha hb hs =>
    exact (h.put b object_movedFrom.mark).put a (hs.object _).mark
  | moveAssignSelf a this released ha => exact h.put a object_movedFrom.mark
  | swap a b x y ha hb => exact (h.put b (h a x ha).mark).put a (h b y hb).mark
  | destroy a b released hb => exact h.destroy a

/-- **What a step can do.** -/
theorem step_effect (h : Objects build w) {c : Call ι T} (hs : World.step build w c = some w') :
    ∃ w₁, Effect build w c w₁ ∧ w' = { w₁ with calls := w₁.calls + 1 } := by
  rw [World.step] at hs
  cases hc : w.call build c with
  | error e =>
    rw [hc] at hs
    cases hs
  | ok w₁ =>
    rw [hc] at hs
    cases hs
    exact ⟨w₁, call_effect h hc, rfl⟩

theorem objects_step (h : Objects build w) {c : Call ι T}
    (hs : World.step build w c = some w') : Objects build w' := by
  obtain ⟨w₁, he, rfl⟩ := step_effect h hs
  have h₁ : w₁.Every (Object build) := objects_effect h he
  exact h₁

omit [DecidableEq ι] in
theorem objects_init : Objects build (World.init : World ι T) := by
  intro a b hb
  cases hb

theorem objects_run {calls : List (Call ι T)}
    (h : exec (World.step build) World.init calls = some w) : Objects build w :=
  invariant (Objects build) (fun _ _ _ h hs => objects_step h hs) objects_init h

end BufferT

end RtcBase
