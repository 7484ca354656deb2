import RtcBase.RefCount.Model

/-!
# Handles and calls

What holds of handles, threads and members in every state, apart from how many references there
are.

* `Wired`: only a call that is about to set a handle has left it stale;
* `wired_put`, `Wired.set`, `Wired.goOn`, `Wired.stack`, `Wired.callRelease`: parts of steps;
* `Wired.drop`, `Wired.new`: handles that are destroyed, or become members of an object.
-/

namespace RtcBase

namespace RefCount

variable {τ H O : Type} [DecidableEq τ] {s s' : State τ H O} {t : τ} {h r : H} {o : O} {p : Ptr O}

/-- The call is about to set `h`. -/
def Phase.Awaits (h : H) : Phase H O → Prop
  | .construct h' _ _ | .assignStore h' _ => h' = h
  | _ => False

/-- What a call relies on. -/
def PhaseOk (s : State τ H O) (t : τ) : Phase H O → Prop
  | .idle => True
  | .construct h o src =>
    s.own t h = some (.stale o) ∧ ∀ r, src = some r → s.own t r = some (.held o)
  | .assign h o src =>
    (∃ p, s.own t h = some p) ∧ ∀ r, src = some r → s.own t r = some (.held o)
  | .assignRelease h _ => ∃ p, s.own t h = some p
  | .assignStore h _ => ∃ p, s.own t h = some p ∧ p.refs = 0

/-- **The invariant of the handles**: only a destructor leaves a stale pointer, and the members of
an object are its own as long as it exists. -/
structure Wired (s : State τ H O) : Prop where
  stale : ∀ t h o, s.own t h = some (.stale o) → (s.threads t).phase.Awaits h
  settled : ∀ h o o', s.slots h ≠ some ⟨.member o, .stale o'⟩
  phase : ∀ t, PhaseOk s t (s.threads t).phase
  members : ∀ o obj, s.objects o = some obj → obj.deleted = 0 →
    obj.members.Nodup ∧ ∀ h ∈ obj.members, ∃ p, s.slots h = some ⟨.member o, p⟩

theorem wired_init : Wired (init : State τ H O) where
  stale t h o ho := by cases ho
  settled h o o' ho := by cases ho
  phase t := trivial
  members o obj ho := by cases ho

/-! ## Own handles -/

theorem own_eq : s.own t h = some p ↔ s.slots h = some ⟨.thread t, p⟩ := by
  unfold State.own
  cases hs : s.slots h with
  | none => simp
  | some sl =>
    obtain ⟨owner, q⟩ := sl
    cases owner with
    | thread t' => by_cases ht : t' = t <;> simp [ht]
    | member o => simp

theorem own_congr (hs : s'.slots h = s.slots h) : s'.own t h = s.own t h := by
  unfold State.own
  rw [hs]

theorem own_of_ne {t' : τ} (ho : s.own t h = some p) (ht : t' ≠ t) : s.own t' h = none := by
  unfold State.own
  rw [own_eq.mp ho]
  simp [Ne.symm ht]

theorem own_none (hs : s.slots h = none) : s.own t h = none := by
  unfold State.own
  rw [hs]

omit [DecidableEq τ] in
theorem Ptr.refs_eq_get (hp : ∀ o, p ≠ .stale o) : p.refs = Multiset.ofList p.get.toList := by
  cases p with
  | null => rfl
  | held o => rfl
  | stale o => exact absurd rfl (hp o)

/-- So it is in a handle that no call is about to set. -/
theorem Wired.get_eq (hw : Wired s) (hphase : ¬ (s.threads t).phase.Awaits h)
    (ho : s.own t h = some p) : p.refs = Multiset.ofList p.get.toList := by
  refine Ptr.refs_eq_get fun o hstale => hphase ?_
  exact hw.stale t h o (hstale ▸ ho)

/-! ## Steps -/

theorem phaseOk_congr {ph : Phase H O} (hown : ∀ h, s'.own t h = s.own t h) :
    PhaseOk s' t ph ↔ PhaseOk s t ph := by
  cases ph <;> simp only [PhaseOk, hown]

theorem Wired.congr (hw : Wired s) (hslots : s'.slots = s.slots)
    (hphase : ∀ t, (s'.threads t).phase = (s.threads t).phase)
    (hobjects : ∀ o obj', s'.objects o = some obj' → obj'.deleted = 0 →
      ∃ obj, s.objects o = some obj ∧ obj.deleted = 0 ∧ obj.members = obj'.members) :
    Wired s' := by
  have hown (t : τ) (h : H) : s'.own t h = s.own t h := own_congr (congrFun hslots h)
  refine ⟨fun t h o ho => ?_, fun h o o' => ?_, fun t => ?_, fun o obj' ho hd => ?_⟩
  · rw [hphase]
    exact hw.stale t h o (by rw [← hown]; exact ho)
  · rw [hslots]
    exact hw.settled h o o'
  · rw [hphase, phaseOk_congr (hown t)]
    exact hw.phase t
  · obtain ⟨obj, hobj, hdel, hmem⟩ := hobjects o obj' ho hd
    rw [← hmem, hslots]
    exact hw.members o obj hobj hdel

variable [DecidableEq H]

omit [DecidableEq τ] in
theorem slots_set_self : (s.set t h p).slots h = some ⟨.thread t, p⟩ := Function.update_self _ _ _

omit [DecidableEq τ] in
theorem slots_set_of_ne {h' : H} (hne : h' ≠ h) : (s.set t h p).slots h' = s.slots h' :=
  Function.update_of_ne hne _ _

theorem own_set_self : (s.set t h p).own t h = some p := own_eq.mpr slots_set_self

theorem own_set_of_ne {h' : H} (hne : h' ≠ h) : (s.set t h p).own t h' = s.own t h' :=
  own_congr (slots_set_of_ne hne)

theorem own_set_other {t' : τ} (hfree : s.slots h = none ∨ ∃ q, s.own t h = some q)
    (ht : t' ≠ t) (h' : H) : (s.set t h p).own t' h' = s.own t' h' := by
  by_cases hh : h' = h
  · subst hh
    have hown : s.own t' h' = none := by
      rcases hfree with hfree | ⟨q, hfree⟩
      · exact own_none hfree
      · exact own_of_ne hfree ht
    rw [own_of_ne own_set_self ht, hown]
  · exact own_congr (slots_set_of_ne hh)

theorem wired_put (hw : Wired s) (hfree : s.slots h = none ∨ ∃ q, s.own t h = some q)
    (ph : Phase H O) (hstale : ∀ o, p = .stale o → ph.Awaits h)
    (hother : ∀ h', h' ≠ h → (s.threads t).phase.Awaits h' → ph.Awaits h')
    (hphase : PhaseOk (s.set t h p) t ph) : Wired ((s.set t h p).phase t ph) := by
  have hthread {t' : τ} (ht : t' ≠ t) :
      ((s.set t h p).phase t ph).threads t' = s.threads t' := Function.update_of_ne ht _ _
  have hself : (((s.set t h p).phase t ph).threads t).phase = ph := by
    simp [State.phase]
  refine ⟨fun t' h' o ho => ?_, fun h' o o' => ?_, fun t' => ?_, fun o obj ho hd => ?_⟩
  · have ho' : (s.set t h p).own t' h' = some (.stale o) := ho
    by_cases ht : t' = t
    · subst ht
      rw [hself]
      by_cases hh : h' = h
      · subst hh
        rw [own_set_self] at ho'
        exact hstale o (Option.some.inj ho')
      · rw [own_set_of_ne hh] at ho'
        exact hother h' hh (hw.stale t' h' o ho')
    · rw [hthread ht]
      rw [own_set_other hfree ht] at ho'
      exact hw.stale t' h' o ho'
  · change (s.set t h p).slots h' ≠ _
    by_cases hh : h' = h
    · subst hh
      rw [slots_set_self]
      simp
    · rw [slots_set_of_ne hh]
      exact hw.settled h' o o'
  · by_cases ht : t' = t
    · subst ht
      rw [hself]
      exact (phaseOk_congr fun h => rfl).mpr hphase
    · rw [hthread ht]
      exact (phaseOk_congr fun h' => own_set_other hfree ht h').mpr (hw.phase t')
  · obtain ⟨hnodup, hmem⟩ := hw.members o obj ho hd
    refine ⟨hnodup, fun h' hh' => ?_⟩
    obtain ⟨q, hq⟩ := hmem h' hh'
    have hne : h' ≠ h := by
      rintro rfl
      rcases hfree with hfree | ⟨q', hfree⟩
      · cases hfree.symm.trans hq
      · cases (own_eq.mp hfree).symm.trans hq
    exact ⟨q, (slots_set_of_ne hne).trans hq⟩

omit [DecidableEq H] in
theorem Wired.goOn (hw : Wired s) (ph : Phase H O)
    (hother : ∀ h', (s.threads t).phase.Awaits h' → ph.Awaits h') (hphase : PhaseOk s t ph) :
    Wired (s.phase t ph) := by
  have hown (t' : τ) (h : H) : (s.phase t ph).own t' h = s.own t' h := rfl
  have hself : ((s.phase t ph).threads t).phase = ph := by simp [State.phase]
  have hthread {t' : τ} (ht : t' ≠ t) : (s.phase t ph).threads t' = s.threads t' :=
    Function.update_of_ne ht _ _
  refine ⟨fun t' h o ho => ?_, hw.settled, fun t' => ?_, hw.members⟩
  · rw [hown] at ho
    by_cases ht : t' = t
    · subst ht
      rw [hself]
      exact hother h (hw.stale t' h o ho)
    · rw [hthread ht]
      exact hw.stale t' h o ho
  · by_cases ht : t' = t
    · subst ht
      rw [hself, phaseOk_congr (hown t')]
      exact hphase
    · rw [hthread ht, phaseOk_congr (hown t')]
      exact hw.phase t'

omit [DecidableEq H] in
theorem Wired.stack (hw : Wired s) (t : τ) (stack : List (Frame O)) : Wired (s.stack t stack) := by
  refine hw.congr rfl (fun t' => ?_) fun o obj ho hd => ⟨obj, ho, hd, rfl⟩
  by_cases ht : t' = t
  · subst ht
    simp [State.stack]
  · simp [State.stack, Function.update_of_ne ht]

omit [DecidableEq H] in
theorem Wired.callRelease (hw : Wired s) (t : τ) (p : Option O) : Wired (s.callRelease t p) := by
  cases p with
  | none => exact hw
  | some o => exact hw.stack t _

theorem Wired.set (hw : Wired s) (hidle : (s.threads t).phase = .idle)
    (hfree : s.slots h = none ∨ ∃ q, s.own t h = some q) (hp : ∀ o, p ≠ .stale o) :
    Wired (s.set t h p) := by
  have hput := wired_put hw hfree .idle (fun o ho => absurd ho (hp o))
    (fun h' _ ha => by rw [hidle] at ha; exact ha) trivial
  refine hput.congr rfl (fun t' => ?_) fun o obj ho hd => ⟨obj, ho, hd, rfl⟩
  by_cases ht : t' = t
  · subst ht
    simp only [State.phase, State.set, Function.update_self]
    exact hidle
  · simp [State.phase, State.set, Function.update_of_ne ht]

omit [DecidableEq H] in
theorem Wired.drop (hw : Wired s) (hthreads : ∀ t, (s'.threads t).phase = (s.threads t).phase)
    (hslots : ∀ h, s'.slots h = s.slots h ∨ s'.slots h = none)
    (hphase : ∀ t, PhaseOk s' t (s.threads t).phase)
    (hobjects : ∀ o obj', s'.objects o = some obj' → obj'.deleted = 0 →
      ∃ obj, s.objects o = some obj ∧ obj.deleted = 0 ∧ obj.members = obj'.members ∧
        ∀ h ∈ obj.members, s'.slots h = s.slots h) : Wired s' := by
  have hkept {h : H} {sl : Slot τ O} (hsl : s'.slots h = some sl) : s.slots h = some sl := by
    rcases hslots h with hsame | hnone
    · exact hsame.symm.trans hsl
    · cases hnone.symm.trans hsl
  refine ⟨fun t h o ho => ?_, fun h o o' ho => hw.settled h o o' (hkept ho), fun t => ?_,
    fun o obj' ho hd => ?_⟩
  · rw [hthreads]
    exact hw.stale t h o (own_eq.mpr (hkept (own_eq.mp ho)))
  · rw [hthreads]
    exact hphase t
  · obtain ⟨obj, hobj, hdel, hmem, hsame⟩ := hobjects o obj' ho hd
    obtain ⟨hnodup, hall⟩ := hw.members o obj hobj hdel
    rw [← hmem]
    refine ⟨hnodup, fun h hh => ?_⟩
    rw [hsame h hh]
    exact hall h hh

theorem Wired.new (hw : Wired s) (hidle : (s.threads t).phase = .idle) {members : List H}
    (hnew : s.objects o = none) (hnodup : members.Nodup)
    (hown : ∀ h ∈ members, (s.own t h).isSome)
    (hthreads : s'.threads = s.threads)
    (hobjects : ∀ o', o' ≠ o → s'.objects o' = s.objects o')
    (hobject : ∀ obj, s'.objects o = some obj → obj.members = members)
    (hslots : ∀ h, s'.slots h =
      if h ∈ members then (s.slots h).map fun sl => { sl with owner := .member o }
      else s.slots h) : Wired s' := by
  have hmember {h : H} (hh : h ∈ members) : ∃ p, s.own t h = some p ∧
      s.slots h = some ⟨.thread t, p⟩ ∧ s'.slots h = some ⟨.member o, p⟩ := by
    obtain ⟨p, hp⟩ := Option.isSome_iff_exists.mp (hown h hh)
    refine ⟨p, hp, own_eq.mp hp, ?_⟩
    rw [hslots, if_pos hh, own_eq.mp hp]
    rfl
  have hsame {h : H} (hh : h ∉ members) : s'.slots h = s.slots h := by rw [hslots, if_neg hh]
  have hother {t' : τ} (ht : t' ≠ t) (h : H) : s'.own t' h = s.own t' h := by
    by_cases hh : h ∈ members
    · obtain ⟨p, -, hs, hs'⟩ := hmember hh
      unfold State.own
      rw [hs, hs']
      simp [Ne.symm ht]
    · exact own_congr (hsame hh)
  refine ⟨fun t' h o' ho => ?_, fun h o' o'' ho => ?_, fun t' => ?_, fun o' obj ho hd => ?_⟩
  · have hh : h ∉ members := by
      intro hh
      obtain ⟨p, -, -, hs'⟩ := hmember hh
      cases hs'.symm.trans (own_eq.mp ho)
    rw [hthreads]
    exact hw.stale t' h o' (own_congr (hsame hh) ▸ ho)
  · by_cases hh : h ∈ members
    · obtain ⟨p, hp, -, hs'⟩ := hmember hh
      cases hs'.symm.trans ho
      have hawaits := hw.stale t h o'' hp
      rw [hidle] at hawaits
      exact hawaits
    · exact hw.settled h o' o'' ((hsame hh).symm.trans ho)
  · rw [hthreads]
    by_cases ht : t' = t
    · subst ht
      rw [hidle]
      trivial
    · exact (phaseOk_congr (hother ht)).mpr (hw.phase t')
  · by_cases hoo : o' = o
    · subst hoo
      rw [hobject obj ho]
      refine ⟨hnodup, fun h hh => ?_⟩
      obtain ⟨p, -, -, hs'⟩ := hmember hh
      exact ⟨p, hs'⟩
    · rw [hobjects o' hoo] at ho
      obtain ⟨hnodup', hall⟩ := hw.members o' obj ho hd
      refine ⟨hnodup', fun h hh => ?_⟩
      obtain ⟨p, hp⟩ := hall h hh
      have hh' : h ∉ members := by
        intro hh'
        obtain ⟨q, -, hs, -⟩ := hmember hh'
        cases hs.symm.trans hp
      exact ⟨p, (hsame hh').trans hp⟩

end RefCount

end RtcBase
