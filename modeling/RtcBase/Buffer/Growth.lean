import RtcBase.Buffer.Residue

/-!
# How a buffer grows

"Any constant > 1 is sufficient to prevent quadratic behavior": what the reallocations of one buffer
copy in a run.

* `grown`: `new_capacity`, for the calls that ask for extra headroom;
* `Asked`: what such a call leaves, and how many elements it copies;
* `Call.asks`, `Call.Stays`: what a call asks for, and the calls that leave the buffer its block or
  get it a larger one with headroom;
* **`grown_call`**: one call;
* **`copied_linear`**: all calls.
-/

namespace RtcBase

open Run Word

namespace BufferT

variable {ι T : Type}

/-! ## Capacities -/

/-- The capacity after a request for `capacity` elements with headroom. -/
def grown (capacity_ capacity : ℕ) : ℕ :=
  if capacity ≤ capacity_ then capacity_ else max capacity (sizeT (capacity_ + capacity_ / 2))

/-- The capacity gained pays for what is copied. -/
theorem copied_le_grown {capacity_ capacity size : ℕ} (hsize : size ≤ capacity_)
    (hroom : capacity_ + capacity_ / 2 < 2 ^ 64) :
    (if capacity ≤ capacity_ then 0 else size) + 3 * capacity_ ≤ 3 * grown capacity_ capacity := by
  have hword : sizeT (capacity_ + capacity_ / 2) = capacity_ + capacity_ / 2 :=
    Nat.mod_eq_of_lt hroom
  unfold grown
  split_ifs
  · omega
  · have := le_max_left capacity (sizeT (capacity_ + capacity_ / 2))
    have := le_max_right capacity (sizeT (capacity_ + capacity_ / 2))
    omega

theorem grown_le {capacity_ capacity N : ℕ} (hcapacity : capacity ≤ N) (h : capacity_ ≤ N + N / 2) :
    grown capacity_ capacity ≤ N + N / 2 := by
  have hword : sizeT (capacity_ + capacity_ / 2) ≤ capacity_ + capacity_ / 2 := Nat.mod_le _ _
  unfold grown
  split_ifs
  · exact h
  · exact max_le (by omega) (by omega)

/-! ## The calls -/

section Build

variable {build : Build T} {fresh : ℕ → T} {b b' : BufferT T} {realloc : Realloc T}

/-- `b` was asked for `n` elements: the capacity then, and what was copied. -/
structure Asked (b : BufferT T) (n : ℕ) (b' : BufferT T) (realloc : Realloc T) : Prop where
  capacity : b'.capacity_ = grown b.capacity_ n
  copied : realloc.copied = if n ≤ b.capacity_ then 0 else b.size_

theorem length_of_read {i n : ℕ} {cells : Block T} (hok : b.read i n = .ok cells) :
    cells.length = n := by
  rw [read] at hok
  split_ifs at hok with hle
  cases hok
  rw [List.length_take, List.length_drop]
  omega

theorem ensureCapacityWithHeadroom_asked (h : Sound b) {n : ℕ}
    (hok : b.ensureCapacityWithHeadroom build fresh n true = .ok (b', realloc)) :
    Asked b n b' realloc := by
  rw [ensureCapacityWithHeadroom, bind_of_ok (dcheck_true h.isConsistent)] at hok
  by_cases hle : n ≤ b.capacity_
  · rw [if_pos hle] at hok
    cases hok
    exact ⟨(if_pos hle).symm, (if_pos hle).symm⟩
  · rw [if_neg hle] at hok
    obtain ⟨elements, hread, hok⟩ := bind_ok.mp hok
    obtain ⟨new_data, -, hok⟩ := bind_ok.mp hok
    obtain ⟨b₁, -, hok⟩ := bind_ok.mp hok
    obtain ⟨u, -, hok⟩ := bind_ok.mp hok
    cases hok
    exact ⟨(if_neg hle).symm, (length_of_read hread).trans (if_neg hle).symm⟩

theorem zeroOld_capacity (h : Sound b) {old_size : ℕ} (hold : old_size ≤ b.capacity_)
    (hok : b.zeroOld build old_size = .ok b') : b'.capacity_ = b.capacity_ := by
  obtain ⟨b₁, hzero, -, -, hcapacity, -⟩ := zeroOld_spec build h hold
  cases hok.symm.trans hzero
  exact hcapacity

theorem setSize_asked (h : Sound b) {n : ℕ} (hn : n < 2 ^ 64)
    (hok : b.setSize build fresh n = .ok (b', realloc)) : Asked b n b' realloc := by
  obtain ⟨b₁, realloc₁, hensure, hg, hn₁, -⟩ :=
    ensureCapacityWithHeadroom_spec build fresh h hn true
  rw [setSize, bind_of_ok hensure] at hok
  obtain ⟨b₂, hzero, hok⟩ := bind_ok.mp hok
  cases hok
  have hs : Sound { b₁ with size_ := n } :=
    ⟨⟨hg.sound.length, hg.sound.null, hg.sound.lt⟩, hn₁⟩
  have hasked := ensureCapacityWithHeadroom_asked h hensure
  exact ⟨(zeroOld_capacity hs (h.size.trans hg.capacity) hzero).trans hasked.capacity,
    hasked.copied⟩

theorem appendData_asked (h : Sound b) {data : List T} {n : ℕ}
    (hok : b.appendData build fresh data n = .ok (b', realloc)) :
    Asked b (sizeT (b.size_ + n)) b' realloc := by
  rw [appendData, bind_of_ok (dcheck_true h.isConsistent)] at hok
  obtain ⟨⟨b₁, realloc₁⟩, hensure, hok⟩ := bind_ok.mp hok
  obtain ⟨cells, -, hok⟩ := bind_ok.mp hok
  obtain ⟨b₂, hwrite, hok⟩ := bind_ok.mp hok
  obtain ⟨u, -, hok⟩ := bind_ok.mp hok
  cases hok
  have hw : Whole b₁ := by
    obtain ⟨b₃, realloc₃, hspec, hg, -⟩ := ensureCapacityWithHeadroom_spec build fresh h
      (show sizeT (b.size_ + n) < 2 ^ 64 from Nat.mod_lt _ (by norm_num)) true
    cases hensure.symm.trans hspec
    exact hg.sound.toWhole
  have hasked := ensureCapacityWithHeadroom_asked h hensure
  exact ⟨(write_ok hw hwrite).2.2.2.2.trans hasked.capacity, hasked.copied⟩

theorem appendDataSetter_asked (h : Sound b) {n written : ℕ} {setter : Setter T}
    (hok : b.appendDataSetter build fresh n setter = .ok (written, b', realloc)) :
    Asked b (sizeT (b.size_ + n)) b' realloc := by
  have hlt : sizeT (b.size_ + n) < 2 ^ 64 := Nat.mod_lt _ (by norm_num)
  obtain ⟨b₁, realloc₁, hset, hg, -⟩ := setSize_spec build fresh h hlt
  rw [appendDataSetter, bind_of_ok (dcheck_true h.isConsistent), bind_of_ok hset] at hok
  obtain ⟨u, -, hok⟩ := bind_ok.mp hok
  obtain ⟨u, -, hok⟩ := bind_ok.mp hok
  obtain ⟨⟨written₁, b₂⟩, hfill, hok⟩ := bind_ok.mp hok
  obtain ⟨u, -, hok⟩ := bind_ok.mp hok
  cases hok
  have hasked := setSize_asked h hlt hset
  exact ⟨(fill_ok hg.sound hfill).2.capacity.trans hasked.capacity, hasked.copied⟩

/-- `SetData` has set the size to 0, so it copies nothing. -/
theorem setData_asked (h : Sound b) {data : List T} {n : ℕ}
    (hok : b.setData build fresh data n = .ok (b', realloc)) :
    Asked { b with size_ := 0 } (sizeT n) b' realloc := by
  rw [setData, bind_of_ok (dcheck_true h.isConsistent)] at hok
  obtain ⟨⟨b₁, realloc₁⟩, happend, hok⟩ := bind_ok.mp hok
  obtain ⟨b₂, hzero, hok⟩ := bind_ok.mp hok
  cases hok
  have hg := (appendData_ok h.truncate happend).1
  have hasked := appendData_asked h.truncate happend
  rw [Nat.zero_add] at hasked
  exact ⟨(zeroOld_capacity hg.sound (h.size.trans hg.capacity) hzero).trans hasked.capacity,
    hasked.copied⟩

theorem setDataSetter_asked (h : Sound b) {n written : ℕ} {setter : Setter T}
    (hok : b.setDataSetter build fresh n setter = .ok (written, b', realloc)) :
    Asked { b with size_ := 0 } (sizeT n) b' realloc := by
  rw [setDataSetter, bind_of_ok (dcheck_true h.isConsistent)] at hok
  obtain ⟨⟨written₁, b₁, realloc₁⟩, happend, hok⟩ := bind_ok.mp hok
  obtain ⟨b₂, hzero, hok⟩ := bind_ok.mp hok
  cases hok
  have hg := (appendDataSetter_ok h.truncate happend).toGrown
  have hasked := appendDataSetter_asked h.truncate happend
  rw [Nat.zero_add] at hasked
  exact ⟨(zeroOld_capacity hg.sound (h.size.trans hg.capacity) hzero).trans hasked.capacity,
    hasked.copied⟩

end Build

/-! ## Runs -/

section Run

variable [DecidableEq ι] {build : Build T} {w w' : World ι T} {a : ι} {b : BufferT T}

/-- What the call asks of `EnsureCapacityWithHeadroom` for `a`, with headroom. -/
def Call.asks (a : ι) (b : BufferT T) : Call ι T → Option ℕ
  | .setData a' _ size => if a' = a then some (sizeT size) else none
  | .setDataSetter a' max_elements _ => if a' = a then some (sizeT max_elements) else none
  | .appendData a' _ size => if a' = a then some (sizeT (b.size_ + size)) else none
  | .appendDataSetter a' max_elements _ =>
    if a' = a then some (sizeT (b.size_ + max_elements)) else none
  | .setSize a' size => if a' = a then some size else none
  | _ => none

/-- The capacity that the call asks for. -/
def asked (a : ι) (w : World ι T) (c : Call ι T) : ℕ :=
  (w.objects a).elim 0 fun b => (c.asks a b).getD 0

/-- The call does not move, swap or destroy `a`, and does not ask for a capacity without
headroom. -/
def Call.Stays (a : ι) : Call ι T → Prop
  | .ensureCapacity a' _ | .destroy a' => a' ≠ a
  | .moveConstruct a' b | .moveAssign a' b | .swap a' b => a' ≠ a ∧ b ≠ a
  | _ => True

/-- What a call leaves in `a`: the capacity is what it was, or what was asked for with headroom, and
what was gained pays for what was copied. -/
structure Grows (a : ι) (w : World ι T) (b : BufferT T) (c : Call ι T) (w' : World ι T)
    (b' : BufferT T) : Prop where
  object : w'.objects a = some b'
  capacity : b'.capacity_ = (c.asks a b).elim b.capacity_ (grown b.capacity_)
  copied : b.capacity_ + b.capacity_ / 2 < 2 ^ 64 →
    w'.copied a + 3 * b.capacity_ ≤ w.copied a + 3 * b'.capacity_

theorem objects_put_of_ne {a' : ι} (ha : a ≠ a') (b : BufferT T) (moved : Bool) :
    (w.put a' b moved).objects a = w.objects a :=
  Function.update_of_ne ha _ _

/-- A call on `a'` that begins with a growth; `x` is `a'` then. -/
theorem grows_reallocate {a' : ι} {b₀ b₁ x : BufferT T} {realloc : Realloc T} {c : Call ι T}
    {f : BufferT T → ℕ} (hb : w.objects a = some b) (hb₀ : w.objects a' = some b₀)
    (hasks : ∀ b, c.asks a b = if a' = a then some (f b) else none)
    (hasked : Asked x (f b₀) b₁ realloc) (hcapacity : x.capacity_ = b₀.capacity_)
    (hsize : x.size_ ≤ x.capacity_) :
    ∃ b', Grows a w b c ((w.put a' b₁ (w.moved a')).reallocate a' realloc) b' := by
  obtain ⟨hgrown, hcopied⟩ := hasked
  rw [hcapacity] at hgrown hcopied hsize
  by_cases ha : a' = a
  · subst ha
    obtain rfl : b₀ = b := Option.some.inj (hb₀.symm.trans hb)
    refine ⟨b₁.mark, Function.update_self _ _ _, ?_, fun hroom => ?_⟩
    · rw [hasks, if_pos rfl]
      exact hgrown
    · have hcopies : ((w.put a' b₁ (w.moved a')).reallocate a' realloc).copied a' =
          w.copied a' + realloc.copied := Function.update_self _ _ _
      have hmark : b₁.mark.capacity_ = grown b₀.capacity_ (f b₀) := hgrown
      have hpays : (if f b₀ ≤ b₀.capacity_ then 0 else x.size_) + 3 * b₀.capacity_ ≤
          3 * grown b₀.capacity_ (f b₀) := copied_le_grown hsize hroom
      rw [hcopies, hmark, hcopied]
      omega
  · refine ⟨b, (objects_put_of_ne (Ne.symm ha) b₁ (w.moved a')).trans hb, ?_, fun _ => ?_⟩
    · rw [hasks, if_neg ha]
      rfl
    · have hcopies : ((w.put a' b₁ (w.moved a')).reallocate a' realloc).copied a = w.copied a :=
        Function.update_of_ne (Ne.symm ha) _ _
      rw [hcopies]

/-- A call that asks for nothing, and leaves `a` its capacity. -/
theorem grows_none {c : Call ι T} {b' : BufferT T} (hasks : c.asks a b = none)
    (hobject : w'.objects a = some b') (hcapacity : b'.capacity_ = b.capacity_)
    (hcopied : w'.copied a = w.copied a) : ∃ b', Grows a w b c w' b' := by
  refine ⟨b', hobject, ?_, fun _ => ?_⟩
  · rw [hasks]
    exact hcapacity
  · rw [hcopied, hcapacity]

/-- **One call.** -/
theorem grown_call (h : Objects build w) (hb : w.objects a = some b) {c : Call ι T}
    (hstays : c.Stays a) (hc : w.call build c = .ok w') : ∃ b', Grows a w b c w' b' := by
  have habsent {a' : ι} (ha : w.objects a' = none) : a ≠ a' := by
    rintro rfl
    rw [ha] at hb
    cases hb
  cases c with
  | setData a' data size =>
    rw [World.call] at hc
    obtain ⟨b₀, ⟨b₁, realloc⟩, hb₀, hcall, hc⟩ := method_ok hc
    cases hc
    exact grows_reallocate (f := fun _ => sizeT size) hb hb₀ (fun _ => rfl)
      (setData_asked (h.sound hb₀ (check_of_ok hcall)) hcall) rfl (Nat.zero_le _)
  | setDataSetter a' n setter =>
    rw [World.call] at hc
    obtain ⟨b₀, ⟨written, b₁, realloc⟩, hb₀, hcall, hc⟩ := method_ok hc
    cases hc
    exact grows_reallocate (f := fun _ => sizeT n) hb hb₀ (fun _ => rfl)
      (setDataSetter_asked (h.sound hb₀ (check_of_ok hcall)) hcall) rfl (Nat.zero_le _)
  | appendData a' data size =>
    rw [World.call] at hc
    obtain ⟨b₀, ⟨b₁, realloc⟩, hb₀, hcall, hc⟩ := method_ok hc
    cases hc
    have hs := h.sound hb₀ (check_of_ok hcall)
    exact grows_reallocate (f := fun b => sizeT (b.size_ + size)) hb hb₀ (fun _ => rfl)
      (appendData_asked hs hcall) rfl hs.size
  | appendDataSetter a' n setter =>
    rw [World.call] at hc
    obtain ⟨b₀, ⟨written, b₁, realloc⟩, hb₀, hcall, hc⟩ := method_ok hc
    cases hc
    have hs := h.sound hb₀ (check_of_ok hcall)
    exact grows_reallocate (f := fun b => sizeT (b.size_ + n)) hb hb₀ (fun _ => rfl)
      (appendDataSetter_asked hs hcall) rfl hs.size
  | setSize a' size =>
    rw [World.call] at hc
    obtain ⟨b₀, ⟨b₁, realloc⟩, hb₀, hcall, hc⟩ := method_ok hc
    cases hc
    obtain ⟨r, hensure, -⟩ := bind_ok.mp hcall
    have hs := h.sound hb₀ (check_of_ok hensure)
    exact grows_reallocate (f := fun _ => size) hb hb₀ (fun _ => rfl)
      (setSize_asked hs size.isLt hcall) rfl hs.size
  | ensureCapacity a' capacity =>
    rw [World.call] at hc
    obtain ⟨b₀, r, -, -, hc⟩ := method_ok hc
    cases hc
    exact grows_none rfl ((objects_put_of_ne (Ne.symm hstays) r.1 (w.moved a')).trans hb) rfl
      (Function.update_of_ne (Ne.symm hstays) _ _)
  | empty a' =>
    cases call_effect h hc with
    | create _ _ b₀ ha _ hcreates =>
      exact grows_none rfl ((objects_put_of_ne (habsent (hcreates.1 ▸ ha)) _ _).trans hb) rfl rfl
    | change _ _ _ _ _ _ _ _ hchanges => exact hchanges.elim
  | ofSize a' size capacity =>
    cases call_effect h hc with
    | create _ _ b₀ ha _ hcreates =>
      exact grows_none rfl ((objects_put_of_ne (habsent ha) _ _).trans hb) rfl rfl
    | change _ _ _ _ _ _ _ _ hchanges => exact hchanges.elim
  | ofData a' data size capacity =>
    cases call_effect h hc with
    | create _ _ b₀ ha _ hcreates =>
      exact grows_none rfl ((objects_put_of_ne (habsent ha) _ _).trans hb) rfl rfl
    | change _ _ _ _ _ _ _ _ hchanges => exact hchanges.elim
  | moveConstruct a' b₂ =>
    have hthis : a ≠ a' := Ne.symm hstays.1
    have hother : a ≠ b₂ := Ne.symm hstays.2
    cases call_effect h hc with
    | create _ _ _ _ _ hcreates => exact hcreates.elim
    | change _ _ _ _ _ _ _ _ hchanges => exact hchanges.elim
    | moveConstruct _ _ buf _ _ _ =>
      refine grows_none rfl ((objects_put_of_ne hthis _ _).trans ?_) rfl rfl
      exact (objects_put_of_ne hother _ _).trans hb
  | clear a' =>
    cases call_effect h hc with
    | create _ _ _ _ _ hcreates => exact hcreates.elim
    | change _ _ _ _ _ _ _ _ hchanges => exact hchanges.elim
    | clear _ b₀ b₁ hb₀ _ _ hcapacity =>
      by_cases ha : a = a'
      · subst ha
        obtain rfl : b₀ = b := Option.some.inj (hb₀.symm.trans hb)
        exact grows_none rfl (Function.update_self _ _ _) hcapacity rfl
      · exact grows_none rfl ((objects_put_of_ne ha _ _).trans hb) rfl rfl
  | moveAssign a' b₂ =>
    have hthis : a ≠ a' := Ne.symm hstays.1
    have hother : a ≠ b₂ := Ne.symm hstays.2
    cases call_effect h hc with
    | create _ _ _ _ _ hcreates => exact hcreates.elim
    | change _ _ _ _ _ _ _ _ hchanges => exact hchanges.elim
    | moveAssign _ _ this buf realloc _ _ _ _ _ =>
      refine grows_none rfl ((objects_put_of_ne hthis buf false).trans ?_) rfl rfl
      exact (objects_put_of_ne hother _ _).trans hb
    | moveAssignSelf _ this realloc _ _ =>
      exact grows_none rfl ((objects_put_of_ne hthis (movedFrom build) true).trans hb) rfl rfl
  | swap a' b₂ =>
    have hthis : a ≠ a' := Ne.symm hstays.1
    have hother : a ≠ b₂ := Ne.symm hstays.2
    cases call_effect h hc with
    | create _ _ _ _ _ hcreates => exact hcreates.elim
    | change _ _ _ _ _ _ _ _ hchanges => exact hchanges.elim
    | swap _ _ x y _ _ =>
      refine grows_none rfl ((objects_put_of_ne hthis _ _).trans ?_) rfl rfl
      exact (objects_put_of_ne hother _ _).trans hb
  | destroy a' =>
    cases call_effect h hc with
    | create _ _ _ _ _ hcreates => exact hcreates.elim
    | change _ _ _ _ _ _ _ _ hchanges => exact hchanges.elim
    | destroy _ b₀ realloc _ _ =>
      exact grows_none rfl ((Function.update_of_ne (Ne.symm hstays) _ _).trans hb) rfl rfl

theorem grown_step (h : Objects build w) (hb : w.objects a = some b) {c : Call ι T}
    (hstays : c.Stays a) (hs : World.step build w c = some w') : ∃ b', Grows a w b c w' b' := by
  rw [World.step] at hs
  cases hc : w.call build c with
  | error e =>
    rw [hc] at hs
    cases hs
  | ok w₁ =>
    rw [hc] at hs
    cases hs
    obtain ⟨b', hobject, hcapacity, hcopied⟩ := grown_call h hb hstays hc
    exact ⟨b', hobject, hcapacity, hcopied⟩

theorem capacity_step_le {c : Call ι T} {b' : BufferT T} {N : ℕ} (hb : w.objects a = some b)
    (hg : Grows a w b c w' b') (hasked : asked a w c ≤ N) (hcapacity : b.capacity_ ≤ N + N / 2) :
    b'.capacity_ ≤ N + N / 2 := by
  rw [asked, hb, Option.elim_some] at hasked
  rw [hg.capacity]
  cases hasks : c.asks a b with
  | none => exact hcapacity
  | some n =>
    rw [hasks] at hasked
    exact grown_le hasked hcapacity

/-- After calls from `w₀` on, where `a` was `b₀`: the capacity is at most half as much again as `N`,
and what was gained pays for what was copied. -/
structure Pays (build : Build T) (a : ι) (N : ℕ) (w₀ : World ι T) (b₀ : BufferT T) (w : World ι T) :
    Prop where
  objects : Objects build w
  pays : ∃ b, w.objects a = some b ∧ b.capacity_ ≤ N + N / 2 ∧
    w.copied a + 3 * b₀.capacity_ ≤ w₀.copied a + 3 * b.capacity_

theorem pays_step {N : ℕ} (hN : N ≤ 2 ^ 62) {w₀ : World ι T} {b₀ : BufferT T} {c : Call ι T}
    (h : Pays build a N w₀ b₀ w) (hstays : c.Stays a) (hasked : asked a w c ≤ N)
    (hs : World.step build w c = some w') : Pays build a N w₀ b₀ w' := by
  obtain ⟨hobjects, b, hb, hcapacity, hpays⟩ := h
  obtain ⟨b', hg⟩ := grown_step hobjects hb hstays hs
  have hcopied := hg.copied (by omega)
  refine ⟨objects_step hobjects hs, b', hg.object, capacity_step_le hb hg hasked hcapacity, ?_⟩
  omega

/-- **Growing is linear.** In the calls that follow on any state of a run, while `a` stays where it
is and no call asks for more than `N`: the reallocations of `a` together copy at most three elements
for each one that the capacity has grown by, and the capacity does not get over half as much again
as `N`. -/
theorem copied_linear (before calls : List (Call ι T)) {N : ℕ} (hN : N ≤ 2 ^ 62)
    (hbefore : exec (World.step build) World.init before = some w) (hb : w.objects a = some b)
    (hcapacity : b.capacity_ ≤ N + N / 2)
    (h : exec (World.step build) w calls = some w') (hstays : ∀ c ∈ calls, c.Stays a)
    (hasked : Along (World.step build) (fun w c => asked a w c ≤ N) w calls) :
    ∃ b', w'.objects a = some b' ∧ b'.capacity_ ≤ N + N / 2 ∧
      w'.copied a + 3 * b.capacity_ ≤ w.copied a + 3 * b'.capacity_ := by
  have hstays' : Along (World.step build) (fun _ c => c.Stays a) w calls := along_of_forall hstays
  have hpays : Pays build a N w b w := ⟨objects_run hbefore, b, hb, hcapacity, le_refl _⟩
  exact (invariant_along (Pays build a N w b)
    (fun w c w' hw hok hs => pays_step hN hw hok.1 hok.2 hs) hpays h
    (along_and.mpr ⟨hstays', hasked⟩)).pays

theorem copied_linear_sample : ∃ w b w',
    exec (World.step zeroing) World.init (secrets.take 1) = some w ∧ w.objects 0 = some b ∧
    exec (World.step zeroing) w ((secrets.drop 1).take 3) = some w' ∧ w'.copied 0 = 3 ∧
    ∃ b', w'.objects 0 = some b' ∧ b'.capacity_ ≤ 7 ∧
      w'.copied 0 + 3 * b.capacity_ ≤ w.copied 0 + 3 * b'.capacity_ := by
  have hbefore : exec (World.step zeroing) World.init (secrets.take 1) = some _ := rfl
  refine ⟨_, _, _, hbefore, rfl, rfl, by decide, ?_⟩
  exact copied_linear (N := 5) _ ((secrets.drop 1).take 3) (by norm_num) hbefore rfl (by decide) rfl
    (by simp [secrets, Call.Stays]) (by decide)

end Run

end BufferT

end RtcBase
