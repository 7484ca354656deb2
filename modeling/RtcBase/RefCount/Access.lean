import RtcBase.RefCount.Calls

/-!
# The accesses to counters

* `gains_touches`: a step that takes a reference;
* `construct_go_spec`, `assign_go_spec`, `assignRelease_spec`, `assignStore_spec`: a call goes on;
* `release_spec`, `delete_spec`: `Release`.
-/

namespace RtcBase

open Tally

namespace RefCount

variable {τ H O : Type} [Fintype τ] [DecidableEq τ] [DecidableEq O] [Fintype H] [DecidableEq H]
  {s s' : State τ H O} {t : τ} {h r : H} {o : O} {p : Option O} {obj : Object H}

/-! ## `AddRef` -/

/-- The object with one reference more. -/
def Object.gain (obj : Object H) : Object H :=
  { obj with ref_count_ := RefCounter.incRef obj.ref_count_, everHeld := true }

omit [Fintype τ] [DecidableEq τ] [Fintype H] [DecidableEq H] in
theorem addRef_eq (ha : s.alive o = some obj) :
    s.addRef o = { s with objects := Function.update s.objects o (some obj.gain) } := by
  simp only [State.addRef, ha]
  rfl

omit [Fintype τ] [DecidableEq τ] [Fintype H] [DecidableEq O] [DecidableEq H] in
theorem alive_eq_some : s.alive o = some obj ↔ s.objects o = some obj ∧ obj.dropped = 0 := by
  simp [State.alive, Option.filter_eq_some_iff]

omit [Fintype τ] [Fintype H] [DecidableEq H] in
theorem Wired.update (hw : Wired s) {obj' : Object H} (ho : s.objects o = some obj)
    (hmem : obj'.members = obj.members) (hdel : obj'.deleted = obj.deleted) :
    Wired { s with objects := Function.update s.objects o (some obj') } := by
  refine hw.congr rfl (fun _ => rfl) fun a objA ha hd => ?_
  by_cases hao : a = o
  · subst hao
    cases (Function.update_self a (some obj') s.objects).symm.trans ha
    exact ⟨obj, ho, hdel ▸ hd, hmem.symm⟩
  · exact ⟨objA, (Function.update_of_ne hao _ _).symm.trans ha, hd, rfl⟩

omit [Fintype τ] [Fintype H] [DecidableEq H] in
theorem Wired.addRef (hw : Wired s) (ha : s.alive o = some obj) : Wired (s.addRef o) := by
  rw [addRef_eq ha]
  exact hw.update (alive_eq_some.mp ha).1 rfl rfl

omit [DecidableEq τ] [DecidableEq H] in
theorem gains_touches (ha : s.alive o = some obj)
    (hrefs : ∀ a, s'.refs.count a = s.refs.count a + Multiset.count a {o})
    (hdeletes : ∀ a, s'.deletes a = s.deletes a) (hobjects : s'.objects = (s.addRef o).objects)
    (hfault : s'.fault = (s.addRef o).fault) :
    Touches s s' o obj.gain (s.refs.count o + 1) (s.deletes o) := by
  rw [addRef_eq ha] at hobjects hfault
  refine ⟨?_, hdeletes o, fun a hne => ?_, fun a _ => hdeletes a, hobjects, hfault⟩
  · rw [hrefs, Multiset.count_singleton_self]
  · rw [hrefs, Multiset.count_singleton, if_neg hne, Nat.add_zero]

omit [DecidableEq τ] [DecidableEq H] in
theorem refs_addRef (ha : s.alive o = some obj) : (s.addRef o).refs = s.refs := by
  rw [addRef_eq ha]
  rfl

omit [DecidableEq τ] [Fintype H] [DecidableEq H] in
theorem deletes_addRef (ha : s.alive o = some obj) (a : O) :
    (s.addRef o).deletes a = s.deletes a := by
  rw [addRef_eq ha]
  rfl

omit [Fintype τ] [DecidableEq τ] [Fintype H] [DecidableEq H] in
theorem threads_addRef (ha : s.alive o = some obj) : (s.addRef o).threads = s.threads := by
  rw [addRef_eq ha]

omit [Fintype τ] [Fintype H] [DecidableEq H] in
theorem own_addRef (ha : s.alive o = some obj) : (s.addRef o).own t h = s.own t h := by
  rw [addRef_eq ha]
  rfl

theorem construct_go_spec (hw : Wired s) {src : Option H}
    (hph : (s.threads t).phase = .construct h o src) (ha : s.alive o = some obj) :
    Wired (((s.addRef o).set t h (.held o)).phase t .idle) ∧
      Touches s (((s.addRef o).set t h (.held o)).phase t .idle) o obj.gain
        (s.refs.count o + 1) (s.deletes o) := by
  have hphase := hw.phase t
  rw [hph] at hphase
  have hown : (s.addRef o).own t h = some (.stale o) := (own_addRef ha).trans hphase.1
  constructor
  · refine wired_put (hw.addRef ha) (.inr ⟨_, hown⟩) _ (by simp) (fun h' hne haw => ?_) trivial
    rw [threads_addRef ha, hph] at haw
    exact absurd haw.symm hne
  · refine gains_touches ha (fun a => ?_) (fun a => ?_) rfl rfl
    · have hset := count_set_own hown (.held o) a
      have hphase := count_phase ((s.addRef o).set t h (.held o)) t .idle a
      change _ + ((s.addRef o).threads t).phase.refs.count a = _ at hphase
      rw [threads_addRef ha, hph] at hphase
      rw [refs_addRef ha] at hset
      simp only [Ptr.refs_stale, Ptr.refs_held, Phase.refs, Multiset.count_zero] at hset hphase
      omega
    · rw [deletes_phase]
      exact deletes_addRef ha a

omit [DecidableEq H] in
theorem assign_go_spec (hw : Wired s) {src : Option H}
    (hph : (s.threads t).phase = .assign h o src) (ha : s.alive o = some obj) :
    Wired ((s.addRef o).phase t (.assignRelease h (some o))) ∧
      Touches s ((s.addRef o).phase t (.assignRelease h (some o))) o obj.gain
        (s.refs.count o + 1) (s.deletes o) := by
  have hphase := hw.phase t
  rw [hph] at hphase
  obtain ⟨⟨q, hown⟩, -⟩ := hphase
  constructor
  · refine (hw.addRef ha).goOn _ (fun h' haw => ?_) ⟨q, (own_addRef ha).trans hown⟩
    rw [threads_addRef ha, hph] at haw
    exact haw
  · refine gains_touches ha (fun a => ?_) (fun a => ?_) rfl rfl
    · have hphase := count_phase (s.addRef o) t (.assignRelease h (some o)) a
      rw [threads_addRef ha, hph, refs_addRef ha] at hphase
      simp only [Phase.refs, Multiset.count_zero] at hphase
      omega
    · rw [deletes_phase, deletes_addRef ha]

/-! ## The rest of `operator=` -/

theorem assignRelease_spec (hw : Wired s) (hph : (s.threads t).phase = .assignRelease h p)
    (hstack : (s.threads t).stack = []) (hs : s.go t = some s') : Wired s' ∧ Neutral s s' := by
  simp only [State.go, hstack, hph] at hs
  cases hown : s.own t h with
  | none => simp [hown] at hs
  | some old =>
    have hidle : ¬ (s.threads t).phase.Awaits h := by
      rw [hph]
      exact id
    have hother (ph : Phase H O) (h' : H) (haw : (s.threads t).phase.Awaits h') :
        ph.Awaits h' := by
      rw [hph] at haw
      exact haw.elim
    have hget := hw.get_eq hidle hown
    cases hq : old.get with
    | none =>
      simp only [hown, hq, Option.some.injEq] at hs
      subst hs
      rw [hq] at hget
      refine ⟨hw.goOn _ (hother _) ⟨old, hown, hget⟩, neutral_phase ?_⟩
      rw [hph]
      cases p <;> rfl
    | some q =>
      simp only [hown, hq, Option.some.injEq] at hs
      subst hs
      rw [hq] at hget
      have hwired := wired_put (p := .stale q) hw (.inr ⟨old, hown⟩) (.assignStore h p)
        (fun _ _ => rfl) (fun h' _ => hother _ h') ⟨_, own_set_self, rfl⟩
      refine ⟨hwired.callRelease t _, fun a => ?_, fun a => ?_, ?_, ?_⟩
      · have hset := count_set_own hown (.stale q) a
        have hphase := count_phase (s.set t h (.stale q)) t (.assignStore h p) a
        change _ + (s.threads t).phase.refs.count a = _ at hphase
        have hrefs : (Phase.assignRelease h p).refs = (Phase.assignStore h p).refs := by
          cases p <;> rfl
        rw [hph, hrefs] at hphase
        rw [hget, Multiset.coe_count, Ptr.refs_stale, Multiset.count_zero] at hset
        rw [count_callRelease]
        omega
      · rw [deletes_callRelease, deletes_phase]
        rfl
      · rw [objects_callRelease]
        rfl
      · rw [fault_callRelease]
        rfl

theorem assignStore_spec (hw : Wired s) (hph : (s.threads t).phase = .assignStore h p)
    (hstack : (s.threads t).stack = []) (hs : s.go t = some s') : Wired s' ∧ Neutral s s' := by
  have hphase := hw.phase t
  rw [hph] at hphase
  obtain ⟨old, hown, hold⟩ := hphase
  -- The new pointer takes the reference over from the call.
  have hstore {q : Ptr O} (hsettled : ∀ o, q ≠ .stale o)
      (hrefs : (Phase.assignStore h p).refs = q.refs) :
      Wired ((s.set t h q).phase t .idle) ∧ Neutral s ((s.set t h q).phase t .idle) := by
    constructor
    · refine wired_put hw (.inr ⟨old, hown⟩) _ (fun o ho => absurd ho (hsettled o))
        (fun h' hne haw => ?_) trivial
      rw [hph] at haw
      exact absurd haw.symm hne
    · refine ⟨fun a => ?_, fun a => ?_, rfl, rfl⟩
      · have hset := count_set_own hown q a
        have hphase := count_phase (s.set t h q) t .idle a
        change _ + (s.threads t).phase.refs.count a = _ at hphase
        rw [hph, hrefs] at hphase
        rw [hold] at hset
        simp only [Phase.refs, Multiset.count_zero] at hset hphase
        omega
      · rw [deletes_phase]
        rfl
  simp only [State.go, hstack, hph] at hs
  cases p with
  | none =>
    cases hs
    exact hstore (by simp) rfl
  | some o =>
    cases hs
    exact hstore (by simp) rfl

/-! ## `Release` -/

/-- `DecRef` returns `kDroppedLastRef`. -/
def Object.isLast (obj : Object H) : Prop :=
  (RefCounter.decRef obj.ref_count_).1 = .kDroppedLastRef

instance : Decidable obj.isLast := inferInstanceAs (Decidable (_ = _))

/-- The object with one reference less. -/
def Object.lose (obj : Object H) : Object H :=
  { obj with
    ref_count_ := (RefCounter.decRef obj.ref_count_).2
    dropped := obj.dropped + if obj.isLast then 1 else 0 }

omit [Fintype τ] [Fintype H] [DecidableEq H] in
theorem release_eq (ha : s.alive o = some obj) (rest : List (Frame O)) :
    s.release t o rest = { s with objects := Function.update s.objects o (some obj.lose) }.stack t
      (if obj.isLast then .delete o :: rest else rest) := by
  simp only [State.release, ha]
  split <;> next h => simp [Object.lose, Object.isLast, h]

omit [DecidableEq O] in
theorem stackRefs_cons (f : Frame O) (rest : List (Frame O)) :
    stackRefs (f :: rest) = f.refs + stackRefs rest := by
  simp [stackRefs]

omit [DecidableEq H] in
theorem release_spec (hw : Wired s) {rest : List (Frame O)}
    (hstack : (s.threads t).stack = .release o :: rest) (ha : s.alive o = some obj) :
    Wired (s.release t o rest) ∧ ∃ refs, s.refs.count o = refs + 1 ∧
      Touches s (s.release t o rest) o obj.lose refs
        (s.deletes o + if obj.isLast then 1 else 0) := by
  set s₁ : State τ H O := { s with objects := Function.update s.objects o (some obj.lose) }
    with hs₁
  set stack' : List (Frame O) := if obj.isLast then .delete o :: rest else rest with hstack'
  have heq : s.release t o rest = s₁.stack t stack' := release_eq ha rest
  have hrefs (a : O) :
      (s₁.stack t stack').refs.count a + Multiset.count a {o} = s.refs.count a := by
    have hcount := count_stack s₁ t stack' a
    have hsame : stackRefs stack' = stackRefs rest := by
      rw [hstack']
      split
      · rw [stackRefs_cons, Frame.refs, zero_add]
      · rfl
    change _ + (stackRefs (s.threads t).stack).count a = s.refs.count a + _ at hcount
    rw [hstack, hsame, stackRefs_cons, Frame.refs, Multiset.count_add] at hcount
    omega
  have hdeletes (a : O) : (s₁.stack t stack').deletes a =
      s.deletes a + if a = o ∧ obj.isLast then 1 else 0 := by
    have hpending : stack'.count (.delete a) =
        rest.count (.delete a) + if a = o ∧ obj.isLast then 1 else 0 := by
      rw [hstack']
      by_cases hlast : obj.isLast
      · simp only [hlast, if_true, and_true, List.count_cons, beq_iff_eq, Frame.delete.injEq,
          eq_comm (a := o)]
      · simp only [hlast, if_false, and_false, Nat.add_zero]
    have hcount := deletes_stack s₁ t stack' a
    change _ + (s.threads t).stack.count (.delete a) = s.deletes a + _ at hcount
    rw [hstack, List.count_cons_of_ne (by simp), hpending] at hcount
    omega
  rw [heq]
  have hw₁ : Wired s₁ := hw.update (alive_eq_some.mp ha).1 rfl rfl
  refine ⟨hw₁.stack t _,
    (s₁.stack t stack').refs.count o, ?_, rfl, ?_, fun a hne => ?_, fun a hne => ?_, rfl, rfl⟩
  · rw [← hrefs, Multiset.count_singleton_self]
  · simpa using hdeletes o
  · rw [← hrefs, Multiset.count_singleton, if_neg hne, Nat.add_zero]
  · rw [hdeletes, if_neg (fun h => hne h.1), Nat.add_zero]

/-- The pointer of a handle. -/
def slotGet (slot : Option (Slot τ O)) : Option O := slot.bind fun sl => sl.ptr_.get

omit [Fintype τ] [DecidableEq τ] [DecidableEq O] [Fintype H] [DecidableEq H] in
theorem slotRefs_eq_get {slot : Option (Slot τ O)}
    (hsettled : ∀ sl o, slot = some sl → sl.ptr_ ≠ .stale o) :
    slotRefs slot = Multiset.ofList (slotGet slot).toList := by
  cases slot with
  | none => rfl
  | some sl => exact Ptr.refs_eq_get fun o => hsettled sl o rfl

omit [Fintype τ] [DecidableEq O] [Fintype H] [DecidableEq H] in
/-- The references of members are those that a destructor gives up. -/
theorem members_refs (hw : Wired s) {members : List H}
    (hall : ∀ h ∈ members, ∃ p, s.slots h = some ⟨.member o, p⟩) :
    (members.map fun h => slotRefs (s.slots h)).sum =
      Multiset.ofList (members.filterMap fun h => slotGet (s.slots h)) := by
  induction members with
  | nil => rfl
  | cons h members ih =>
    have hrefs : slotRefs (s.slots h) = Multiset.ofList (slotGet (s.slots h)).toList := by
      refine slotRefs_eq_get fun sl o' hsl hstale => ?_
      obtain ⟨p, hp⟩ := hall h List.mem_cons_self
      cases hp.symm.trans hsl
      cases hstale
      exact hw.settled h o o' hp
    have ih := ih fun h' hh' => hall h' (List.mem_cons_of_mem h hh')
    rw [List.map_cons, List.sum_cons, hrefs, ih, Multiset.coe_add, List.filterMap_cons]
    cases slotGet (s.slots h) <;> rfl

omit [DecidableEq O] in
theorem stackRefs_release (pointers : List O) (rest : List (Frame O)) :
    stackRefs (pointers.map Frame.release ++ rest) =
      Multiset.ofList pointers + stackRefs rest := by
  induction pointers with
  | nil => exact (zero_add _).symm
  | cons o pointers ih =>
    rw [List.map_cons, List.cons_append, stackRefs_cons, ih, Frame.refs, ← add_assoc,
      Multiset.singleton_add, Multiset.cons_coe]

/-- The object has been deleted, and its members are gone. -/
def State.freed (s : State τ H O) (o : O) (obj : Object H) : State τ H O :=
  { s with
    slots := fun h => if h ∈ obj.members then none else s.slots h
    objects := Function.update s.objects o (some { obj with deleted := obj.deleted + 1 }) }

/-- The pointers of the members, in the order of their destructors. -/
def State.pointers (s : State τ H O) (obj : Object H) : List O :=
  obj.members.reverse.filterMap fun h => slotGet (s.slots h)

omit [Fintype τ] [Fintype H] in
theorem delete_eq (ho : s.objects o = some obj) (rest : List (Frame O)) : s.delete t o rest =
    (s.freed o obj).stack t ((s.pointers obj).map Frame.release ++ rest) := by
  simp only [State.delete, ho]
  rfl

omit [Fintype τ] [Fintype H] in
/-- Members belong to no thread and to one object. -/
theorem Wired.freed (hw : Wired s) (ho : s.objects o = some obj) (hdel : obj.deleted = 0) :
    Wired (s.freed o obj) := by
  obtain ⟨-, hall⟩ := hw.members o obj ho hdel
  refine hw.drop (fun _ => rfl) (fun h => ?_) (fun t' => ?_) fun a obj' ha hd => ?_
  · by_cases hh : h ∈ obj.members
    · exact .inr (if_pos hh)
    · exact .inl (if_neg hh)
  · refine (phaseOk_congr fun h => ?_).mpr (hw.phase t')
    by_cases hh : h ∈ obj.members
    · obtain ⟨q, hq⟩ := hall h hh
      rw [own_none (if_pos hh), State.own, hq]
    · exact own_congr (if_neg hh)
  · by_cases hao : a = o
    · subst hao
      cases (Function.update_self a _ s.objects).symm.trans ha
      cases hd
    · have ha' := (Function.update_of_ne hao _ _).symm.trans ha
      refine ⟨obj', ha', hd, rfl, fun h hh => if_neg fun hh' => ?_⟩
      obtain ⟨q, hq⟩ := (hw.members a obj' ha' hd).2 h hh
      obtain ⟨q', hq'⟩ := hall h hh'
      cases hq.symm.trans hq'
      exact hao rfl

theorem refs_freed (hw : Wired s) (ho : s.objects o = some obj) (hdel : obj.deleted = 0) :
    (s.freed o obj).refs + Multiset.ofList (s.pointers obj) = s.refs := by
  obtain ⟨hnodup, hall⟩ := hw.members o obj ho hdel
  have hslots : ∑ h, slotRefs ((s.freed o obj).slots h) + Multiset.ofList (s.pointers obj) =
      ∑ h, slotRefs (s.slots h) := by
    rw [State.pointers, List.filterMap_reverse, Multiset.coe_reverse, ← members_refs hw hall,
      ← sum_erase (fun h => slotRefs (s.slots h)) hnodup]
    congr 1
    exact Finset.sum_congr rfl fun h _ => by rw [State.freed, apply_ite slotRefs]; rfl
  change ∑ h, slotRefs ((s.freed o obj).slots h) + s.taken + ∑ t, (s.threads t).refs + _ = _
  rw [State.refs, ← hslots]
  abel

theorem delete_spec (hw : Wired s) {rest : List (Frame O)}
    (hstack : (s.threads t).stack = .delete o :: rest) (ho : s.objects o = some obj)
    (hdel : obj.deleted = 0) :
    Wired (s.delete t o rest) ∧ ∃ deletes, s.deletes o = deletes + 1 ∧
      Touches s (s.delete t o rest) o { obj with deleted := obj.deleted + 1 }
        (s.refs.count o) deletes := by
  set stack' : List (Frame O) := (s.pointers obj).map Frame.release ++ rest with hstack'
  have hrefs (a : O) : ((s.freed o obj).stack t stack').refs.count a = s.refs.count a := by
    have hcount := count_stack (s.freed o obj) t stack' a
    have hfreed := congrArg (Multiset.count a) (refs_freed hw ho hdel)
    have hcalls : stackRefs stack' = _ := stackRefs_release (s.pointers obj) rest
    change _ + (stackRefs (s.threads t).stack).count a = _ at hcount
    rw [hstack, hcalls, stackRefs_cons, Frame.refs, zero_add, Multiset.count_add] at hcount
    rw [Multiset.count_add] at hfreed
    omega
  have hdeletes (a : O) : ((s.freed o obj).stack t stack').deletes a + (if a = o then 1 else 0) =
      s.deletes a := by
    have hcount := deletes_stack (s.freed o obj) t stack' a
    have hpending : stack'.count (.delete a) = rest.count (.delete a) := by
      rw [hstack', List.count_append, List.count_eq_zero.mpr (by simp), zero_add]
    change _ + (s.threads t).stack.count (.delete a) = s.deletes a + _ at hcount
    rw [hstack, hpending, List.count_cons] at hcount
    simp only [beq_iff_eq, Frame.delete.injEq, eq_comm (a := o)] at hcount
    omega
  rw [delete_eq ho]
  refine ⟨(hw.freed ho hdel).stack t _, ((s.freed o obj).stack t stack').deletes o, ?_, hrefs o,
    rfl, fun a _ => hrefs a, fun a hne => ?_, rfl, rfl⟩
  · rw [← hdeletes, if_pos rfl]
  · rw [← hdeletes, if_neg hne, Nat.add_zero]

end RefCount

end RtcBase
