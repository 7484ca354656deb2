import RtcBase.Lib.Run
import RtcBase.RefCount.Access

/-!
# Reference counts are exact

* `Tallied`, `Exact`: what the counter, the pending `delete this` and the references of an object
  have to do with each other;
* `exact_step`: the steps keep it, as long as the counter of an object has `Room`;
* **`ref_count_exact`**: so it holds after every run;
* **`ref_count_wraps`**: with `2 ^ 31` handles the counter is negative.
-/

namespace RtcBase

open Run Word

namespace RefCount

/-! ## One object -/

section Object

variable {H : Type} {refs deletes : ℕ} {obj : Object H}

/-- The count of an object is its references, and it has been deleted, or is about to be, just when
they have gone. -/
structure Tallied (refs deletes : ℕ) (obj : Object H) : Prop where
  bound : refs ≤ 2 ^ 32
  count : obj.dropped = 0 → obj.ref_count_ = toInt32 refs
  dropped : obj.dropped = if obj.everHeld ∧ refs = 0 then 1 else 0
  unheld : obj.everHeld = false → refs = 0
  deleted : obj.deleted + deletes = obj.dropped

theorem tallied_new (members : List H) : Tallied 0 0 (⟨0, members, false, 0, 0⟩ : Object H) where
  bound := by decide
  count _ := rfl
  dropped := rfl
  unheld _ := rfl
  deleted := rfl

/-- A counter that has not wrapped around to a small value tells it from all others. -/
theorem toInt32_eq_iff {x : ℤ} {n : ℕ} (hx : 0 ≤ x ∧ x < 2 ^ 31) (hn : (n : ℤ) < x + 2 ^ 32) :
    toInt32 n = x ↔ (n : ℤ) = x := by
  unfold toInt32
  rw [Int.bmod_def]
  omega

theorem Tallied.gain (h : Tallied refs deletes obj) (hlive : obj.dropped = 0)
    (hroom : refs < 2 ^ 32) : Tallied (refs + 1) deletes obj.gain where
  bound := hroom
  count _ := by
    change toInt32 (obj.ref_count_ + 1) = _
    rw [h.count hlive, toInt32, toInt32, toInt32, Int.bmod_add_bmod]
    push_cast
    rfl
  dropped := by simp [Object.gain, hlive]
  unheld := by simp [Object.gain]
  deleted := h.deleted

/-- The last reference is the one that `DecRef` says is the last. -/
theorem Tallied.decRef (h : Tallied (refs + 1) deletes obj) :
    obj.everHeld = true ∧ obj.dropped = 0 ∧ obj.lose.ref_count_ = toInt32 refs ∧
      (obj.isLast ↔ refs = 0) := by
  have hheld : obj.everHeld = true := by
    by_contra hne
    have := h.unheld (by simpa using hne)
    omega
  have hlive : obj.dropped = 0 := by simp [h.dropped]
  have hafter : toInt32 (obj.ref_count_ - 1) = toInt32 refs := by
    rw [h.count hlive, toInt32, toInt32, toInt32, sub_eq_add_neg, Int.bmod_add_bmod]
    push_cast
    rw [add_neg_cancel_right]
  have hlast : toInt32 refs = 0 ↔ (refs : ℤ) = 0 := by
    have hbound := h.bound
    exact toInt32_eq_iff (by decide) (by omega)
  refine ⟨hheld, hlive, hafter, ?_⟩
  simp only [Object.isLast, RefCounter.decRef, hafter, hlast, Nat.cast_eq_zero]
  split <;> simp_all

theorem Tallied.lose (h : Tallied (refs + 1) deletes obj) :
    Tallied refs (deletes + if obj.isLast then 1 else 0) obj.lose := by
  obtain ⟨hheld, hlive, hafter, hlast⟩ := h.decRef
  refine ⟨Nat.le_of_succ_le h.bound, fun _ => hafter, ?_, fun hne => ?_, ?_⟩
  · change obj.dropped + _ = if obj.everHeld ∧ _ then 1 else 0
    simp [hlive, hheld, hlast]
  · cases hheld.symm.trans hne
  · have hdeleted := h.deleted
    change obj.deleted + _ = obj.dropped + _
    omega

theorem Tallied.delete (h : Tallied refs (deletes + 1) obj) :
    Tallied refs deletes { obj with deleted := obj.deleted + 1 } := by
  have hdeleted := h.deleted
  exact ⟨h.bound, h.count, h.dropped, h.unheld, by dsimp only; omega⟩

theorem Tallied.deleted_eq_zero (h : Tallied refs (deletes + 1) obj) : obj.deleted = 0 := by
  have hdeleted := h.deleted
  have hdropped := h.dropped
  split at hdropped <;> omega

end Object

/-! ## All of them -/

variable {τ H O : Type} [Fintype τ] [DecidableEq τ] [Fintype H] [DecidableEq H] [DecidableEq O]
  {s s' : State τ H O} {t : τ} {o : O} {obj : Object H} {a : Act τ H O} {acts : List (Act τ H O)}

/-- **The invariant**: no object is used after its last reference, and every object is tallied. -/
structure Exact (s : State τ H O) : Prop where
  fault : s.fault = false
  absent : ∀ o, s.objects o = none → s.refs.count o = 0 ∧ s.deletes o = 0
  objects : ∀ o obj, s.objects o = some obj → Tallied (s.refs.count o) (s.deletes o) obj

omit [DecidableEq τ] [DecidableEq H] in
theorem exact_init : Exact (init : State τ H O) where
  fault := rfl
  absent o _ := by simp [State.refs, State.deletes, init, slotRefs, Thread.refs, Phase.refs]
  objects o obj ho := by cases ho

omit [DecidableEq τ] [DecidableEq H] in
theorem Exact.neutral (hex : Exact s) (hn : Neutral s s') : Exact s' := by
  refine ⟨hn.fault.trans hex.fault, fun o ho => ?_, fun o obj ho => ?_⟩
  · rw [hn.objects] at ho
    rw [hn.refs, hn.deletes]
    exact hex.absent o ho
  · rw [hn.objects] at ho
    rw [hn.refs, hn.deletes]
    exact hex.objects o obj ho

omit [DecidableEq τ] [DecidableEq H] in
theorem Exact.touches {refs deletes : ℕ} (hex : Exact s) (ht : Touches s s' o obj refs deletes)
    (htallied : Tallied refs deletes obj) : Exact s' := by
  refine ⟨ht.fault.trans hex.fault, fun a ha => ?_, fun a obj' ha => ?_⟩
  · rw [ht.objects] at ha
    by_cases hao : a = o
    · subst hao
      cases (Function.update_self a _ s.objects).symm.trans ha
    · rw [ht.refs_of_ne a hao, ht.deletes_of_ne a hao]
      exact hex.absent a ((Function.update_of_ne hao _ _).symm.trans ha)
  · rw [ht.objects] at ha
    by_cases hao : a = o
    · subst hao
      cases (Function.update_self a _ s.objects).symm.trans ha
      rw [ht.refs, ht.deletes]
      exact htallied
    · rw [ht.refs_of_ne a hao, ht.deletes_of_ne a hao]
      exact hex.objects a obj' ((Function.update_of_ne hao _ _).symm.trans ha)

omit [DecidableEq τ] [DecidableEq H] in
theorem Exact.alive_of_refs (hex : Exact s) (hrefs : 0 < s.refs.count o) :
    ∃ obj, s.alive o = some obj := by
  cases ho : s.objects o with
  | none =>
    have := (hex.absent o ho).1
    omega
  | some obj =>
    refine ⟨obj, alive_eq_some.mpr ⟨ho, ?_⟩⟩
    rw [(hex.objects o obj ho).dropped, if_neg (by omega)]

omit [DecidableEq τ] [DecidableEq H] in
theorem Exact.alive_of_usable (hex : Exact s) (hu : s.usable o = true) :
    ∃ obj, s.alive o = some obj := by
  simp only [State.usable, Bool.or_eq_true, decide_eq_true_eq] at hu
  rcases hu with hmem | hnew
  · exact hex.alive_of_refs (Multiset.count_pos.mpr hmem)
  · cases ho : s.objects o with
    | none =>
      rw [ho] at hnew
      cases hnew
    | some obj =>
      have hheld : obj.everHeld = false := by simpa [ho] using hnew
      refine ⟨obj, alive_eq_some.mpr ⟨ho, ?_⟩⟩
      rw [(hex.objects o obj ho).dropped, hheld, if_neg (by simp)]

/-! ## Steps -/

/-- The object that the step calls `AddRef` on. -/
def State.adds (s : State τ H O) : Act τ H O → Option O
  | .start _ _ => none
  | .go t =>
    match (s.threads t).stack, (s.threads t).phase with
    | [], .construct _ o _ | [], .assign _ o _ => some o
    | _, _ => none

/-- The counter does not come round with one more reference. -/
def Room (s : State τ H O) (a : Act τ H O) : Prop := ∀ o ∈ s.adds a, s.refs.count o < 2 ^ 32

instance (s : State τ H O) (a : Act τ H O) : Decidable (Room s a) :=
  inferInstanceAs (Decidable (∀ o ∈ s.adds a, s.refs.count o < 2 ^ 32))

theorem refs_of_own {h : H} (ho : s.own t h = some (.held o)) : 0 < s.refs.count o := by
  have hclear := count_clear s h o
  rw [slotRefs_own ho, Ptr.refs_held, Multiset.count_singleton_self] at hclear
  omega

theorem exact_start {op : Op H O} (hw : Wired s) (hex : Exact s) (hidle : s.threads t = {})
    (hs : s.start t op = some s') : Wired s' ∧ Exact s' := by
  have hneutral (hn : Wired s' ∧ Neutral s s') : Wired s' ∧ Exact s' :=
    ⟨hn.1, hex.neutral hn.2⟩
  cases op with
  | new o members =>
    obtain ⟨hw', hnew, ht⟩ := new_spec hw hidle hs
    obtain ⟨hrefs, hdeletes⟩ := hex.absent o hnew
    rw [hrefs, hdeletes] at ht
    exact ⟨hw', hex.touches ht (tallied_new members)⟩
  | construct h p => exact hneutral (construct_spec hw hidle hs)
  | copy h r => exact hneutral (copy_spec hw hidle hs)
  | move h r => exact hneutral (move_spec hw hidle hs)
  | assign h p => exact hneutral (assign_spec hw hidle hs)
  | assignCopy h r => exact hneutral (assignCopy_spec hw hidle hs)
  | assignMove h r => exact hneutral (assignMove_spec hw hidle hs)
  | swap h r => exact hneutral (swap_spec hw hidle hs)
  | release h => exact hneutral (release_call_spec hw hidle hs)
  | releaseTaken o => exact hneutral (releaseTaken_spec hw hs)
  | destroy h => exact hneutral (destroy_spec hw hidle hs)
  | hasOneRef o =>
    simp only [State.start] at hs
    split at hs
    · obtain ⟨obj, ha⟩ := hex.alive_of_usable ‹s.usable o = true›
      simp only [ha, Option.some.injEq] at hs
      subst hs
      exact ⟨hw, hex⟩
    · cases hs

theorem Exact.alive_of_src (hex : Exact s) {src : Option H}
    (hsrc : ∀ r, src = some r → s.own t r = some (.held o))
    (hu : src.isSome ∨ s.usable o = true) : ∃ obj, s.alive o = some obj := by
  rcases hu with hsome | hu
  · obtain ⟨r, hr⟩ := Option.isSome_iff_exists.mp hsome
    exact hex.alive_of_refs (refs_of_own (hsrc r hr))
  · exact hex.alive_of_usable hu

omit [DecidableEq τ] [DecidableEq H] in
theorem Exact.gain (hex : Exact s) (ha : s.alive o = some obj)
    (hroom : s.refs.count o < 2 ^ 32)
    (ht : Touches s s' o obj.gain (s.refs.count o + 1) (s.deletes o)) : Exact s' := by
  obtain ⟨ho, hlive⟩ := alive_eq_some.mp ha
  exact hex.touches ht ((hex.objects o obj ho).gain hlive hroom)

omit [DecidableEq H] in
theorem exact_release (hw : Wired s) (hex : Exact s) {rest : List (Frame O)}
    (hstack : (s.threads t).stack = .release o :: rest) :
    Wired (s.release t o rest) ∧ Exact (s.release t o rest) := by
  have hpos : 0 < s.refs.count o := by
    have hcount := count_stack s t rest o
    rw [hstack, stackRefs_cons, Frame.refs, Multiset.count_add,
      Multiset.count_singleton_self] at hcount
    omega
  obtain ⟨obj, ha⟩ := hex.alive_of_refs hpos
  obtain ⟨hw', refs, hrefs, ht⟩ := release_spec hw hstack ha
  have htallied := hex.objects o obj (alive_eq_some.mp ha).1
  rw [hrefs] at htallied
  exact ⟨hw', hex.touches ht htallied.lose⟩

theorem exact_delete (hw : Wired s) (hex : Exact s) {rest : List (Frame O)}
    (hstack : (s.threads t).stack = .delete o :: rest) :
    Wired (s.delete t o rest) ∧ Exact (s.delete t o rest) := by
  have hpos : 0 < s.deletes o := by
    have hcount := deletes_stack s t rest o
    rw [hstack, List.count_cons_self] at hcount
    omega
  cases ho : s.objects o with
  | none =>
    have := (hex.absent o ho).2
    omega
  | some obj =>
    have htallied := hex.objects o obj ho
    obtain ⟨deletes, hdeletes⟩ := Nat.exists_eq_succ_of_ne_zero hpos.ne'
    rw [hdeletes] at htallied
    obtain ⟨hw', deletes', hdeletes', ht⟩ := delete_spec hw hstack ho htallied.deleted_eq_zero
    obtain rfl : deletes' = deletes := by omega
    exact ⟨hw', hex.touches ht htallied.delete⟩

theorem exact_go (hw : Wired s) (hex : Exact s) (hroom : Room s (.go t))
    (hs : s.go t = some s') : Wired s' ∧ Exact s' := by
  cases hstack : (s.threads t).stack with
  | cons f rest =>
    cases f with
    | release o =>
      simp only [State.go, hstack, Option.some.injEq] at hs
      subst hs
      exact exact_release hw hex hstack
    | delete o =>
      simp only [State.go, hstack, Option.some.injEq] at hs
      subst hs
      exact exact_delete hw hex hstack
  | nil =>
    have hphase := hw.phase t
    cases hph : (s.threads t).phase with
    | idle => simp [State.go, hstack, hph] at hs
    | construct h o src =>
      rw [hph] at hphase
      simp only [State.go, hstack, hph] at hs
      split at hs
      · cases hs
        obtain ⟨obj, ha⟩ := hex.alive_of_src hphase.2 ‹_›
        obtain ⟨hw', ht⟩ := construct_go_spec hw hph ha
        exact ⟨hw', hex.gain ha (hroom o (by simp [State.adds, hstack, hph])) ht⟩
      · cases hs
    | assign h o src =>
      rw [hph] at hphase
      simp only [State.go, hstack, hph] at hs
      split at hs
      · cases hs
        obtain ⟨obj, ha⟩ := hex.alive_of_src hphase.2 ‹_›
        obtain ⟨hw', ht⟩ := assign_go_spec hw hph ha
        exact ⟨hw', hex.gain ha (hroom o (by simp [State.adds, hstack, hph])) ht⟩
      · cases hs
    | assignRelease h p =>
      obtain ⟨hw', hn⟩ := assignRelease_spec hw hph hstack hs
      exact ⟨hw', hex.neutral hn⟩
    | assignStore h p =>
      obtain ⟨hw', hn⟩ := assignStore_spec hw hph hstack hs
      exact ⟨hw', hex.neutral hn⟩

theorem exact_step (hinv : Wired s ∧ Exact s) (hroom : Room s a) (hs : step s a = some s') :
    Wired s' ∧ Exact s' := by
  cases a with
  | start t op =>
    simp only [step] at hs
    split at hs
    · exact exact_start hinv.1 hinv.2 ‹_› hs
    · cases hs
  | go t => exact exact_go hinv.1 hinv.2 hroom hs

/-! ## Runs -/

/-- No call is in flight. -/
def State.Quiet (s : State τ H O) : Prop := ∀ t, s.threads t = {}

instance (s : State τ H O) : Decidable s.Quiet :=
  inferInstanceAs (Decidable (∀ t, s.threads t = {}))

/-- How many handles point to the object. -/
def State.handles (s : State τ H O) (o : O) : ℕ :=
  (Finset.univ.filter fun h => slotGet (s.slots h) = some o).card

omit [DecidableEq H] in
theorem refs_of_quiet (hw : Wired s) (hq : s.Quiet) (o : O) :
    s.refs.count o = s.handles o + s.taken.count o := by
  have hslot (h : H) :
      (slotRefs (s.slots h)).count o = if slotGet (s.slots h) = some o then 1 else 0 := by
    have hrefs : slotRefs (s.slots h) = Multiset.ofList (slotGet (s.slots h)).toList := by
      refine slotRefs_eq_get fun sl o' hsl hstale => ?_
      obtain ⟨owner, p⟩ := sl
      cases hstale
      cases owner with
      | thread t =>
        have hawaits := hw.stale t h o' (own_eq.mpr hsl)
        rw [hq t] at hawaits
        exact hawaits
      | member o => exact hw.settled h o o' hsl
    rw [hrefs, Multiset.coe_count]
    cases slotGet (s.slots h) with
    | none => rfl
    | some q => simp only [Option.toList_some, List.count_singleton, beq_iff_eq, Option.some.injEq]
  have hcalls : ∑ t, (s.threads t).refs = 0 :=
    Finset.sum_eq_zero fun t _ => by rw [hq t]; rfl
  rw [State.refs, hcalls, add_zero, Multiset.count_add, Multiset.count_sum', Multiset.coe_count,
    State.handles, Finset.card_filter]
  exact congrArg (· + _) (Finset.sum_congr rfl fun h _ => hslot h)

omit [DecidableEq τ] [Fintype H] [DecidableEq H] in
theorem deletes_of_quiet (hq : s.Quiet) (o : O) : s.deletes o = 0 :=
  Finset.sum_eq_zero fun t _ => by rw [hq t]; rfl

/-- **Reference counts are exact.** -/
theorem ref_count_exact (h : exec step init acts = some s) (hroom : Along step Room init acts) :
    s.fault = false ∧ ∀ o obj, s.objects o = some obj →
      (obj.dropped = if obj.everHeld ∧ s.refs.count o = 0 then 1 else 0) ∧
      obj.deleted + s.deletes o = obj.dropped ∧
      (obj.dropped = 0 → (RefCounter.hasOneRef obj.ref_count_ = true ↔ s.refs.count o = 1)) ∧
      (s.Quiet → s.refs.count o = s.handles o + s.taken.count o ∧ obj.deleted = obj.dropped ∧
        (obj.deleted = 0 → obj.ref_count_ = toInt32 (s.handles o + s.taken.count o) ∧
          (s.handles o + s.taken.count o ≤ intMax →
            obj.ref_count_ = s.handles o + s.taken.count o))) := by
  obtain ⟨hw, hex⟩ := invariant_along (fun s => Wired s ∧ Exact s)
    (fun _ _ _ hinv hroom hs => exact_step hinv hroom hs) ⟨wired_init, exact_init⟩ h hroom
  refine ⟨hex.fault, fun o obj ho => ?_⟩
  have htallied := hex.objects o obj ho
  refine ⟨htallied.dropped, htallied.deleted, fun hlive => ?_, fun hq => ?_⟩
  · have hbound := htallied.bound
    have hone : toInt32 (s.refs.count o) = 1 ↔ (s.refs.count o : ℤ) = 1 :=
      toInt32_eq_iff (by decide) (by omega)
    rw [htallied.count hlive, RefCounter.hasOneRef, decide_eq_true_eq, hone]
    norm_cast
  · have hrefs := refs_of_quiet hw hq o
    have hdeleted := htallied.deleted
    rw [deletes_of_quiet hq, Nat.add_zero] at hdeleted
    refine ⟨hrefs, hdeleted, fun hlive => ?_⟩
    have hcount : obj.ref_count_ = toInt32 (s.handles o + s.taken.count o) := by
      rw [htallied.count (hdeleted ▸ hlive), hrefs]
      push_cast
      rfl
    exact ⟨hcount, fun hmax => hcount.trans (toInt32_of_mem (by omega) hmax)⟩

/-- Handle 0 is a member of object 0 and points to object 1, and handle 1 is the head of the list.
It is set to the next object while another thread gives up its reference to object 0. -/
def unlink : List (Act (Fin 2) (Fin 3) (Fin 2)) :=
  [.start 0 (.new 1 []), .start 0 (.construct 0 (some 1)), .go 0,
    .start 0 (.new 0 [0]), .start 0 (.construct 1 (some 0)), .go 0,
    .start 1 (.construct 2 (some 0)), .go 1,
    .start 0 (.assign 1 (some 1)), .go 0, .start 1 (.destroy 2), .go 0, .go 1, .go 0, .go 0,
    .go 0, .go 0]

/-- Object 0 is gone, and with it the reference of its member. -/
theorem ref_count_exact_sample : ∃ s obj, exec step init unlink = some s ∧ s.fault = false ∧
    (s.objects 0).map Object.deleted = some 1 ∧ s.objects 1 = some obj ∧ s.handles 1 = 1 ∧
      obj.ref_count_ = s.handles 1 + s.taken.count 1 := by
  have hsome : (exec step init unlink).isSome := by decide +kernel
  have hafter : ∀ s ∈ exec step init unlink, s.Quiet ∧ s.handles 1 = 1 ∧
      (s.handles 1 + s.taken.count 1 : ℤ) ≤ intMax ∧
      (s.objects 0).map Object.deleted = some 1 ∧ (s.objects 1).map Object.deleted = some 0 := by
    decide +kernel
  obtain ⟨s, hs⟩ := Option.isSome_iff_exists.mp hsome
  obtain ⟨hquiet, hhandles, htaken, h₀, h₁⟩ := hafter s hs
  obtain ⟨obj, hobj, hlive⟩ := Option.map_eq_some_iff.mp h₁
  obtain ⟨hfault, hall⟩ := ref_count_exact hs (by decide +kernel)
  have hcount := (((hall 1 obj hobj).2.2.2 hquiet).2.2 hlive).2
  exact ⟨s, obj, hs, hfault, h₀, hobj, hhandles, hcount htaken⟩

/-! ## Too many handles -/

/-- A whole constructor, where no step of another thread comes in between. -/
theorem exec_construct {src : Option H} (hidle : s.threads t = {})
    (hs : s.start t op = some ((s.set t h (.stale o)).phase t (.construct h o src)))
    (hu : src.isSome ∨ obj.everHeld = false) (ha : s.alive o = some obj) :
    exec step s [.start t op, .go t] = some { s with
      slots := Function.update s.slots h (some ⟨.thread t, .held o⟩)
      objects := Function.update s.objects o (some obj.gain) } := by
  set s₁ := (s.set t h (.stale o)).phase t (.construct h o src) with hs₁
  have hthread : s₁.threads t = { s.threads t with phase := .construct h o src } :=
    Function.update_self t _ s.threads
  have hu₁ : src.isSome ∨ s₁.usable o = true := by
    refine hu.imp id fun hnew => ?_
    have hobj : s₁.objects o = some obj := (alive_eq_some.mp ha).1
    rw [State.usable, hobj, Bool.or_eq_true]
    exact .inr (by simp [hnew])
  have hgo : s₁.go t = some (((s₁.addRef o).set t h (.held o)).phase t .idle) := by
    simp only [State.go, hthread, hidle, if_pos hu₁]
  have ha₁ : s₁.alive o = some obj := ha
  have hthreads : Function.update s.threads t { stack := (s.threads t).stack } = s.threads := by
    rw [Function.update_eq_self_iff, hidle]
  simp only [exec, step, if_pos hidle, hs, Option.bind_some, hgo, addRef_eq ha₁]
  simp only [State.set, State.phase, hs₁, Function.update_idem, Function.update_self, hthreads]

/-- A new object, a handle that points to it, and `n` copies of the handle. -/
def copies (m n : ℕ) : List (Act Unit (Fin (m + 1)) Unit) :=
  [.start () (.new () []), .start () (.construct 0 (some ())), .go ()] ++
    (List.range n).flatMap fun k => [.start () (.copy (Fin.ofNat (m + 1) (k + 1)) 0), .go ()]

/-- The state after `copies m n`. -/
def copied (m n : ℕ) : State Unit (Fin (m + 1)) Unit where
  slots h := if h.val ≤ n then some ⟨.thread (), .held ()⟩ else none
  objects _ := some ⟨toInt32 (n + 1), [], true, 0, 0⟩
  threads _ := {}
  taken := []
  fault := false

theorem copied_slots {m n : ℕ} (hn : n < m) :
    Function.update (copied m n).slots (Fin.ofNat (m + 1) (n + 1)) (some ⟨.thread (), .held ()⟩) =
      (copied m (n + 1)).slots := by
  have hval : (Fin.ofNat (m + 1) (n + 1)).val = n + 1 := Nat.mod_eq_of_lt (by omega)
  funext h
  by_cases hh : h = Fin.ofNat (m + 1) (n + 1)
  · subst hh
    rw [Function.update_self]
    exact (if_pos hval.le).symm
  · have hne : h.val ≠ n + 1 := fun he => hh (Fin.ext (he.trans hval.symm))
    have hle : h.val ≤ n + 1 ↔ h.val ≤ n := by omega
    rw [Function.update_of_ne hh]
    simp only [copied, hle]

theorem exec_copies {m n : ℕ} (hn : n ≤ m) : exec step init (copies m n) = some (copied m n) := by
  induction n with
  | zero =>
    rw [copies, List.range_zero, List.flatMap_nil, List.append_nil, exec]
    set s : State Unit (Fin (m + 1)) Unit := { (init : State Unit (Fin (m + 1)) Unit) with
      objects := fun _ => some ⟨0, [], false, 0, 0⟩ } with hs
    have hnew : step (init : State Unit (Fin (m + 1)) Unit) (.start () (.new () [])) = some s := by
      simp only [step, State.start, init, hs, Function.update_eq_const_of_subsingleton]
      simp [Function.const_def]
    have hstart : s.start () (.construct 0 (some ())) =
        some ((s.set () 0 (.stale ())).phase () (.construct 0 () none)) := rfl
    rw [hnew, Option.bind_some, exec_construct rfl hstart (.inr rfl) rfl]
    refine congrArg some ?_
    simp only [copied, State.mk.injEq]
    refine ⟨?_, ?_, rfl, rfl, rfl⟩
    · funext h
      by_cases hh : h = 0
      · subst hh
        rw [Function.update_self]
        rfl
      · have hpos : ¬ h.val ≤ 0 := fun hle => hh (Fin.ext (Nat.le_zero.mp hle))
        rw [Function.update_of_ne hh, if_neg hpos]
        rfl
    · funext o
      rfl
  | succ n ih =>
    have hcopies : copies m (n + 1) = copies m n ++
        [.start () (.copy (Fin.ofNat (m + 1) (n + 1)) 0), .go ()] := by
      simp [copies, List.range_succ]
    have hval : (Fin.ofNat (m + 1) (n + 1)).val = n + 1 := Nat.mod_eq_of_lt (by omega)
    have hwrap : toInt32 (toInt32 (n + 1) + 1) = toInt32 (n + 1 + 1) := Int.bmod_add_bmod ..
    set h := Fin.ofNat (m + 1) (n + 1) with hh
    have hstart : (copied m n).start () (.copy h 0) =
        some (((copied m n).set () h (.stale ())).phase () (.construct h () (some 0))) := by
      simp [State.start, copied, State.own, Ptr.get, hval]
    rw [hcopies, exec_append (ih (by omega)), exec_construct rfl hstart (.inl rfl) rfl]
    refine congrArg some ?_
    rw [copied_slots (by omega)]
    simp only [copied, State.mk.injEq, true_and, and_true]
    funext o
    rw [Function.update_self, Object.gain, RefCounter.incRef, hwrap]
    push_cast
    rfl
theorem exec_all_copies (m : ℕ) : ∃ s obj, exec step init (copies m m) = some s ∧ s.Quiet ∧
    s.objects () = some obj ∧ obj.deleted = 0 ∧ s.handles () + s.taken.count () = m + 1 ∧
    obj.ref_count_ = toInt32 (m + 1) := by
  have hall (h : Fin (m + 1)) : slotGet ((copied m m).slots h) = some () := by
    have hslot : (copied m m).slots h = some ⟨.thread (), .held ()⟩ :=
      if_pos (Nat.le_of_lt_succ h.isLt)
    rw [hslot]
    rfl
  refine ⟨copied m m, ⟨toInt32 (m + 1), [], true, 0, 0⟩, exec_copies le_rfl, fun _ => rfl, rfl,
    rfl, ?_, by dsimp only⟩
  rw [State.handles, Finset.filter_true_of_mem fun h _ => hall h, Finset.card_univ,
    Fintype.card_fin]
  rfl

/-- **With `2 ^ 31` handles the counter is negative.** -/
theorem ref_count_wraps : ∃ s obj, exec step init (copies (2 ^ 31 - 1) (2 ^ 31 - 1)) = some s ∧
    s.Quiet ∧ s.objects () = some obj ∧ obj.deleted = 0 ∧
    s.handles () + s.taken.count () = 2 ^ 31 ∧ obj.ref_count_ = -2 ^ 31 := by
  obtain ⟨s, obj, hs, hquiet, hobj, hlive, hrefs, hcount⟩ := exec_all_copies (2 ^ 31 - 1)
  have hwrap : toInt32 (((2 ^ 31 - 1 : ℕ) : ℤ) + 1) = -2 ^ 31 := by norm_num [toInt32, Int.bmod]
  exact ⟨s, obj, hs, hquiet, hobj, hlive, hrefs.trans (by norm_num), hcount.trans hwrap⟩

end RefCount

end RtcBase
