import RtcBase.Lib.Tally
import RtcBase.RefCount.Wiring

/-!
# What the steps do with references

* `count_set`, `count_phase`, `count_stack`, `count_callRelease`: parts of steps;
* `Neutral`: a step that only hands references on;
* `construct_spec` to `destroy_spec`: each call up to its first access to a counter is neutral;
* `Touches`, `new_spec`: a step that does something to one object.
-/

namespace RtcBase

open Tally

namespace RefCount

variable {τ H O : Type} [Fintype τ] [DecidableEq τ] [DecidableEq O] {s s' : State τ H O} {t : τ}
  {h r : H} {o : O} {p : Ptr O}

/-! ## Parts of steps -/

omit [DecidableEq O] in
@[simp] theorem Ptr.refs_null : (Ptr.null : Ptr O).refs = 0 := rfl

omit [DecidableEq O] in
@[simp] theorem Ptr.refs_stale : (Ptr.stale o).refs = 0 := rfl

omit [DecidableEq O] in
@[simp] theorem Ptr.refs_held : (Ptr.held o).refs = {o} := rfl

/-- The references that the frames of a stack hold. -/
def stackRefs (stack : List (Frame O)) : Multiset O := (stack.map Frame.refs).sum

/-- How many threads are about to delete the object. -/
def State.deletes (s : State τ H O) (o : O) : ℕ := ∑ t, (s.threads t).stack.count (.delete o)

theorem deletes_stack (s : State τ H O) (t : τ) (stack : List (Frame O)) (o : O) :
    (s.stack t stack).deletes o + (s.threads t).stack.count (.delete o) =
      s.deletes o + stack.count (.delete o) := by
  have h := sum_update (fun th : Thread H O => th.stack.count (.delete o)) s.threads t
    { s.threads t with stack := stack }
  exact h

theorem deletes_phase (s : State τ H O) (t : τ) (ph : Phase H O) (o : O) :
    (s.phase t ph).deletes o = s.deletes o := by
  have h := sum_update (fun th : Thread H O => th.stack.count (.delete o)) s.threads t
    { s.threads t with phase := ph }
  exact Nat.add_right_cancel h

theorem deletes_callRelease (s : State τ H O) (t : τ) (p : Option O) (o : O) :
    (s.callRelease t p).deletes o = s.deletes o := by
  cases p with
  | none => rfl
  | some q =>
    have h := deletes_stack s t (.release q :: (s.threads t).stack) o
    rw [List.count_cons_of_ne (by simp)] at h
    exact Nat.add_right_cancel h

omit [Fintype τ] [DecidableEq O] in
theorem objects_callRelease (s : State τ H O) (t : τ) (p : Option O) :
    (s.callRelease t p).objects = s.objects := by
  cases p <;> rfl

omit [Fintype τ] [DecidableEq O] in
theorem fault_callRelease (s : State τ H O) (t : τ) (p : Option O) :
    (s.callRelease t p).fault = s.fault := by
  cases p <;> rfl

variable [Fintype H] [DecidableEq H]

omit [DecidableEq τ] in
theorem count_set (s : State τ H O) (t : τ) (h : H) (p : Ptr O) (a : O) :
    (s.set t h p).refs.count a + (slotRefs (s.slots h)).count a =
      s.refs.count a + p.refs.count a := by
  have hsum : ∑ h', slotRefs ((s.set t h p).slots h') + slotRefs (s.slots h) =
      ∑ h', slotRefs (s.slots h') + p.refs :=
    sum_update slotRefs s.slots h (some ⟨.thread t, p⟩)
  have hcount := congrArg (Multiset.count a) hsum
  have hthreads : (s.set t h p).threads = s.threads := rfl
  have htaken : (s.set t h p).taken = s.taken := rfl
  simp only [State.refs, Multiset.count_add, hthreads, htaken] at hcount ⊢
  omega

omit [DecidableEq τ] in
theorem count_clear (s : State τ H O) (h : H) (a : O) :
    (State.refs { s with slots := Function.update s.slots h none }).count a +
      (slotRefs (s.slots h)).count a = s.refs.count a := by
  have hsum : ∑ h', slotRefs (Function.update s.slots h none h') + slotRefs (s.slots h) =
      ∑ h', slotRefs (s.slots h') + slotRefs (none : Option (Slot τ O)) :=
    sum_update slotRefs s.slots h none
  have hcount := congrArg (Multiset.count a) hsum
  simp only [slotRefs, State.refs, Multiset.count_add, Multiset.count_zero] at hcount ⊢
  omega

omit [DecidableEq H] in
theorem count_thread (s : State τ H O) (t : τ) (th : Thread H O) (a : O) :
    (State.refs { s with threads := Function.update s.threads t th }).count a +
      (s.threads t).refs.count a = s.refs.count a + th.refs.count a := by
  have hsum := congrArg (Multiset.count a) (sum_update Thread.refs s.threads t th)
  simp only [State.refs, Multiset.count_add] at hsum ⊢
  omega

omit [DecidableEq H] in
theorem count_phase (s : State τ H O) (t : τ) (ph : Phase H O) (a : O) :
    (s.phase t ph).refs.count a + (s.threads t).phase.refs.count a =
      s.refs.count a + ph.refs.count a := by
  have hthread := count_thread s t { s.threads t with phase := ph } a
  simp only [Thread.refs, Multiset.count_add] at hthread
  change (s.phase t ph).refs.count a + _ = _ at hthread
  omega

omit [DecidableEq H] in
theorem count_stack (s : State τ H O) (t : τ) (stack : List (Frame O)) (a : O) :
    (s.stack t stack).refs.count a + (stackRefs (s.threads t).stack).count a =
      s.refs.count a + (stackRefs stack).count a := by
  have hthread := count_thread s t { s.threads t with stack := stack } a
  simp only [Thread.refs, Multiset.count_add] at hthread
  change (s.stack t stack).refs.count a + _ = _ at hthread
  unfold stackRefs
  omega

omit [DecidableEq H] in
theorem count_callRelease (s : State τ H O) (t : τ) (p : Option O) (a : O) :
    (s.callRelease t p).refs.count a = s.refs.count a + p.toList.count a := by
  cases p with
  | none => simp [State.callRelease]
  | some o =>
    have hstack := count_stack s t (.release o :: (s.threads t).stack) a
    simp only [stackRefs, List.map_cons, List.sum_cons, Frame.refs, Multiset.count_add] at hstack
    rw [State.callRelease, Option.toList_some, ← Multiset.coe_count, Multiset.coe_singleton]
    omega

omit [DecidableEq τ] [DecidableEq H] in
theorem count_taken (s : State τ H O) (taken : List O) (a : O) :
    (State.refs { s with taken := taken }).count a + s.taken.count a =
      s.refs.count a + taken.count a := by
  simp only [State.refs, Multiset.count_add, Multiset.coe_count]
  omega

omit [Fintype τ] [DecidableEq O] [Fintype H] [DecidableEq H] in
theorem slotRefs_own (ho : s.own t h = some p) : slotRefs (s.slots h) = p.refs := by
  rw [own_eq.mp ho]
  rfl

theorem count_set_own {q : Ptr O} (ho : s.own t h = some q) (p : Ptr O) (a : O) :
    (s.set t h p).refs.count a + q.refs.count a = s.refs.count a + p.refs.count a := by
  rw [← slotRefs_own ho]
  exact count_set s t h p a

/-! ## Calls up to the first access to a counter -/

/-- The step hands references on: there are as many as before. -/
structure Neutral (s s' : State τ H O) : Prop where
  refs : ∀ a, s'.refs.count a = s.refs.count a
  deletes : ∀ a, s'.deletes a = s.deletes a
  objects : s'.objects = s.objects
  fault : s'.fault = s.fault

omit [DecidableEq τ] [DecidableEq H] in
theorem Neutral.trans {s₁ s₂ s₃ : State τ H O} (h₁ : Neutral s₁ s₂) (h₂ : Neutral s₂ s₃) :
    Neutral s₁ s₃ :=
  ⟨fun a => (h₂.refs a).trans (h₁.refs a), fun a => (h₂.deletes a).trans (h₁.deletes a),
    h₂.objects.trans h₁.objects, h₂.fault.trans h₁.fault⟩

omit [DecidableEq τ] in
theorem neutral_set (hp : slotRefs (s.slots h) = p.refs) : Neutral s (s.set t h p) :=
  ⟨fun a => by have hset := count_set s t h p a; rw [hp] at hset; omega, fun _ => rfl, rfl, rfl⟩

omit [DecidableEq H] in
theorem neutral_phase {ph : Phase H O} (hph : (s.threads t).phase.refs = ph.refs) :
    Neutral s (s.phase t ph) :=
  ⟨fun a => by have hphase := count_phase s t ph a; rw [hph] at hphase; omega,
    deletes_phase s t ph, rfl, rfl⟩

omit [Fintype τ] [DecidableEq O] [Fintype H] [DecidableEq H] in
/-- In a thread that is not in a call no handle is stale. -/
theorem Wired.settled_own (hw : Wired s) (hidle : s.threads t = {}) (ho : s.own t h = some p)
    (o : O) : p ≠ .stale o := by
  rintro rfl
  have hawaits := hw.stale t h o ho
  rw [hidle] at hawaits
  exact hawaits

omit [Fintype τ] [Fintype H] [DecidableEq H] in
theorem Wired.count_get (hw : Wired s) (hidle : s.threads t = {}) (ho : s.own t h = some p)
    (a : O) : p.get.toList.count a = p.refs.count a := by
  rw [hw.get_eq (by rw [hidle]; exact id) ho, Multiset.coe_count]

omit [Fintype τ] [DecidableEq τ] [DecidableEq O] [Fintype H] [DecidableEq H] in
/-- A constructor is called for a handle that is not there yet. -/
theorem of_slot_free {next : Option (State τ H O)}
    (hs : (if (s.slots h).isSome = true then none else next) = some s') :
    s.slots h = none ∧ next = some s' := by
  obtain ⟨hnew, hs⟩ := Option.ite_none_left_eq_some.mp hs
  exact ⟨by simpa using hnew, hs⟩

section Idle

variable (hw : Wired s) (hidle : s.threads t = {})
include hw hidle

theorem null_spec (hnew : s.slots h = none) :
    Wired (s.set t h .null) ∧ Neutral s (s.set t h .null) :=
  ⟨hw.set (by rw [hidle]) (.inl hnew) (by simp), neutral_set (by rw [hnew]; rfl)⟩

theorem stale_spec (hnew : s.slots h = none) {src : Option H}
    (hsrc : ∀ r, src = some r → s.own t r = some (.held o)) :
    Wired ((s.set t h (.stale o)).phase t (.construct h o src)) ∧
      Neutral s ((s.set t h (.stale o)).phase t (.construct h o src)) := by
  constructor
  · refine wired_put hw (.inl hnew) _ (fun _ _ => rfl) (fun h' _ ha => ?_) ⟨own_set_self, ?_⟩
    · rw [hidle] at ha
      exact ha.elim
    · intro r hr
      have hown := hsrc r hr
      have hne : r ≠ h := by
        rintro rfl
        cases hnew.symm.trans (own_eq.mp hown)
      rw [own_set_of_ne hne, hown]
  · refine (neutral_set (by rw [hnew]; rfl)).trans (neutral_phase ?_)
    change (s.threads t).phase.refs = _
    rw [hidle]
    rfl

theorem construct_spec {p : Option O} (hs : s.start t (.construct h p) = some s') :
    Wired s' ∧ Neutral s s' := by
  obtain ⟨hnew, hs⟩ := of_slot_free hs
  cases p with
  | none =>
    cases hs
    exact null_spec hw hidle hnew
  | some o =>
    cases hs
    exact stale_spec hw hidle hnew (by simp)

theorem copy_spec (hs : s.start t (.copy h r) = some s') : Wired s' ∧ Neutral s s' := by
  obtain ⟨hnew, hs⟩ := of_slot_free hs
  cases hr : s.own t r with
  | none => simp [hr] at hs
  | some p =>
    have hsettled := hw.settled_own hidle hr
    cases p with
    | null =>
      simp only [hr, Ptr.get, Option.some.injEq] at hs
      subst hs
      exact null_spec hw hidle hnew
    | held o =>
      simp only [hr, Ptr.get, Option.some.injEq] at hs
      subst hs
      refine stale_spec hw hidle hnew fun r' hr' => ?_
      cases hr'
      exact hr
    | stale o => exact absurd rfl (hsettled o)

theorem hand_spec {q : Ptr O} (hne : h ≠ r)
    (hfree : s.slots h = none ∨ ∃ q, s.own t h = some q) (hr : s.own t r = some p)
    (hq : slotRefs (s.slots h) = q.refs) :
    Wired ((s.set t h p).set t r .null) ∧
      ∀ a, ((s.set t h p).set t r .null).refs.count a + q.refs.count a = s.refs.count a := by
  have hr' : (s.set t h p).own t r = some p := (own_set_of_ne hne.symm).trans hr
  constructor
  · have hw' := hw.set (by rw [hidle]) hfree (hw.settled_own hidle hr)
    exact hw'.set (congrArg Thread.phase hidle) (.inr ⟨p, hr'⟩) (by simp)
  · intro a
    have hset := count_set s t h p a
    have hset' := count_set_own hr' .null a
    rw [hq] at hset
    rw [Ptr.refs_null, Multiset.count_zero] at hset'
    omega

theorem move_spec (hs : s.start t (.move h r) = some s') : Wired s' ∧ Neutral s s' := by
  obtain ⟨hnew, hs⟩ := of_slot_free hs
  cases hr : s.own t r with
  | none => simp [hr] at hs
  | some p =>
    simp only [hr, Option.some.injEq] at hs
    subst hs
    have hne : h ≠ r := by
      rintro rfl
      cases hnew.symm.trans (own_eq.mp hr)
    obtain ⟨hwired, hcount⟩ :=
      hand_spec hw hidle (q := .null) hne (.inl hnew) hr (by rw [hnew]; rfl)
    exact ⟨hwired, hcount, fun _ => rfl, rfl, rfl⟩

omit [DecidableEq H] in
/-- `operator=` up to the first access to a counter. -/
theorem assigning_spec {ph : Phase H O} (hrefs : ph.refs = 0)
    (hph : PhaseOk s t ph) : Wired (s.phase t ph) ∧ Neutral s (s.phase t ph) := by
  refine ⟨hw.goOn _ (fun h' ha => ?_) hph, neutral_phase ?_⟩
  · rw [hidle] at ha
    exact ha.elim
  · rw [hidle, hrefs]
    rfl

theorem assign_spec {p : Option O} (hs : s.start t (.assign h p) = some s') :
    Wired s' ∧ Neutral s s' := by
  simp only [State.start] at hs
  cases ho : s.own t h with
  | none => simp [ho] at hs
  | some old =>
    simp only [ho] at hs
    cases p with
    | none =>
      cases hs
      exact assigning_spec hw hidle rfl ⟨old, ho⟩
    | some o =>
      cases hs
      exact assigning_spec hw hidle rfl ⟨⟨old, ho⟩, by simp⟩

theorem assignCopy_spec (hs : s.start t (.assignCopy h r) = some s') :
    Wired s' ∧ Neutral s s' := by
  simp only [State.start] at hs
  cases ho : s.own t h with
  | none => simp [ho] at hs
  | some old =>
    cases hr : s.own t r with
    | none => simp [ho, hr] at hs
    | some p =>
      simp only [ho, hr] at hs
      cases p with
      | null =>
        cases hs
        exact assigning_spec hw hidle rfl ⟨old, ho⟩
      | held o =>
        cases hs
        refine assigning_spec hw hidle rfl ⟨⟨old, ho⟩, fun r' hr' => ?_⟩
        cases hr'
        exact hr
      | stale o => exact absurd rfl (hw.settled_own hidle hr o)

theorem assignMove_spec (hs : s.start t (.assignMove h r) = some s') :
    Wired s' ∧ Neutral s s' := by
  simp only [State.start] at hs
  cases ho : s.own t h with
  | none => simp [ho] at hs
  | some old =>
    cases hr : s.own t r with
    | none => simp [ho, hr] at hs
    | some p =>
      simp only [ho, hr] at hs
      split at hs
      · cases hs
        exact ⟨hw, fun _ => rfl, fun _ => rfl, rfl, rfl⟩
      · cases hs
        obtain ⟨hwired, hcount⟩ :=
          hand_spec hw hidle ‹h ≠ r› (.inr ⟨old, ho⟩) hr (slotRefs_own ho)
        refine ⟨hwired.callRelease t _, fun a => ?_, deletes_callRelease _ t _, ?_, ?_⟩
        · rw [count_callRelease, hw.count_get hidle ho, hcount]
        · exact objects_callRelease _ t _
        · exact fault_callRelease _ t _

theorem swap_spec (hs : s.start t (.swap h r) = some s') : Wired s' ∧ Neutral s s' := by
  simp only [State.start] at hs
  cases ho : s.own t h with
  | none => simp [ho] at hs
  | some p =>
    cases hr : s.own t r with
    | none => simp [ho, hr] at hs
    | some q =>
      simp only [ho, hr, Option.some.injEq] at hs
      subst hs
      have hr' : (s.set t h q).own t r = some q := by
        by_cases hne : r = h
        · rw [hne]
          exact own_set_self
        · rw [own_set_of_ne hne, hr]
      have hw' := hw.set (by rw [hidle]) (.inr ⟨p, ho⟩) (hw.settled_own hidle hr)
      refine ⟨hw'.set (congrArg Thread.phase hidle) (.inr ⟨q, hr'⟩) (hw.settled_own hidle ho),
        fun a => ?_, fun _ => rfl, rfl, rfl⟩
      have hset := count_set_own ho q a
      have hset' := count_set_own hr' p a
      omega

theorem release_call_spec (hs : s.start t (.release h) = some s') : Wired s' ∧ Neutral s s' := by
  simp only [State.start] at hs
  cases ho : s.own t h with
  | none => simp [ho] at hs
  | some p =>
    simp only [ho, Option.some.injEq] at hs
    subst hs
    have hw' := hw.set (by rw [hidle]) (.inr ⟨p, ho⟩) (p := .null) (by simp)
    refine ⟨hw'.congr rfl (fun _ => rfl) fun o obj ho' hd => ⟨obj, ho', hd, rfl⟩,
      fun a => ?_, fun _ => rfl, rfl, rfl⟩
    have hset := count_set_own ho .null a
    have htaken := count_taken (s.set t h .null) (p.get.toList ++ s.taken) a
    have hget := hw.count_get hidle ho a
    rw [List.count_append, hget] at htaken
    change _ + s.taken.count a = _ at htaken
    rw [Ptr.refs_null, Multiset.count_zero] at hset
    omega

omit hidle in
theorem releaseTaken_spec (hs : s.start t (.releaseTaken o) = some s') :
    Wired s' ∧ Neutral s s' := by
  simp only [State.start] at hs
  split at hs
  · cases hs
    have hw' : Wired { s with taken := s.taken.erase o } :=
      hw.congr rfl (fun _ => rfl) fun o obj ho hd => ⟨obj, ho, hd, rfl⟩
    refine ⟨hw'.callRelease t _, fun a => ?_, deletes_callRelease _ t _, rfl, rfl⟩
    have htaken := count_taken s (s.taken.erase o) a
    have hperm := (List.perm_cons_erase ‹o ∈ s.taken›).count_eq a
    rw [count_callRelease]
    simp only [Option.toList_some, List.count_cons, List.count_nil] at hperm ⊢
    omega
  · cases hs

theorem destroy_spec (hs : s.start t (.destroy h) = some s') : Wired s' ∧ Neutral s s' := by
  simp only [State.start] at hs
  cases ho : s.own t h with
  | none => simp [ho] at hs
  | some p =>
    simp only [ho, Option.some.injEq] at hs
    subst hs
    have hw' : Wired { s with slots := Function.update s.slots h none } := by
      refine hw.drop (fun _ => rfl) (fun h' => ?_) (fun t' => ?_) fun o obj ho' hd => ?_
      · by_cases hh : h' = h
        · subst hh
          exact .inr (Function.update_self _ _ _)
        · exact .inl (Function.update_of_ne hh _ _)
      · by_cases ht : t' = t
        · subst ht
          rw [hidle]
          trivial
        · refine (phaseOk_congr fun h' => ?_).mpr (hw.phase t')
          by_cases hh : h' = h
          · subst hh
            rw [own_of_ne ho ht, own_none (Function.update_self _ _ _)]
          · exact own_congr (Function.update_of_ne hh _ _)
      · refine ⟨obj, ho', hd, rfl, fun h' hh' => Function.update_of_ne ?_ _ _⟩
        rintro rfl
        obtain ⟨q, hq⟩ := (hw.members o obj ho' hd).2 h' hh'
        cases hq.symm.trans (own_eq.mp ho)
    refine ⟨hw'.callRelease t _, fun a => ?_, deletes_callRelease _ t _, ?_, ?_⟩
    · have hclear := count_clear s h a
      rw [count_callRelease, hw.count_get hidle ho]
      rw [slotRefs_own ho] at hclear
      exact hclear
    · exact objects_callRelease _ t _
    · exact fault_callRelease _ t _

end Idle

/-! ## A step that does something to one object -/

/-- The object `o` is now `obj`, and there are so many references to it and threads that are about
to delete it. For the other objects nothing changes. -/
structure Touches (s s' : State τ H O) (o : O) (obj : Object H) (refs deletes : ℕ) : Prop where
  refs : s'.refs.count o = refs
  deletes : s'.deletes o = deletes
  refs_of_ne : ∀ a, a ≠ o → s'.refs.count a = s.refs.count a
  deletes_of_ne : ∀ a, a ≠ o → s'.deletes a = s.deletes a
  objects : s'.objects = Function.update s.objects o (some obj)
  fault : s'.fault = s.fault

theorem new_spec (hw : Wired s) (hidle : s.threads t = {}) {members : List H}
    (hs : s.start t (.new o members) = some s') : Wired s' ∧ s.objects o = none ∧
      Touches s s' o ⟨0, members, false, 0, 0⟩ (s.refs.count o) (s.deletes o) := by
  simp only [State.start] at hs
  split at hs
  · obtain ⟨hnew, hnodup, hown⟩ := ‹s.objects o = none ∧ _›
    cases hs
    refine ⟨hw.new (congrArg Thread.phase hidle) hnew hnodup hown rfl
      (fun o' hne => Function.update_of_ne hne _ _) (fun obj ho => ?_) (fun _ => rfl), hnew, ?_⟩
    · cases (Function.update_self o _ s.objects).symm.trans ho
      rfl
    · have hslots (h : H) : slotRefs (if h ∈ members then
          (s.slots h).map fun sl => { sl with owner := .member o } else s.slots h) =
          slotRefs (s.slots h) := by
        split
        · cases s.slots h <;> rfl
        · rfl
      refine ⟨?_, rfl, fun a _ => ?_, fun _ _ => rfl, rfl, rfl⟩
      · simp only [State.refs, hslots]
      · simp only [State.refs, hslots]
  · cases hs

end RefCount

end RtcBase
