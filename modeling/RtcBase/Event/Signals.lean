import RtcBase.Event.Model
import RtcBase.Lib.Run

/-!
# The signals of an `Event`

* `Phase.Fits`: the mutex, `event_status_` and the history of a thread at each of its steps;
* `Moves`: what a step of one thread leaves to the others;
* `Credit`: the `Wait`s that have been granted, against the `Set`s;
* `Inv`, `inv_of_moves`, `inv_step`: the invariant, and its step;
* **`signals_released`**: every `Wait` that returns true takes a signal, and no other one does.
-/

namespace RtcBase

open Run

namespace Event

/-! ## Where a thread is -/

/-- The `Wait` returns true, or will. -/
def Phase.granted : Phase → Bool
  | .waitUnlock error | .waitReturn error => error = 0
  | _ => false

/-- What goes with the next step of a thread. It holds the mutex inside its critical sections, and
a `Wait` that has not got the signal has not changed `event_status_`. -/
def Phase.Fits (manual : Bool) (held : Prop) (status : Bool) (seen : Option Bool)
    (changed : Bool) : Phase → Prop
  | .out | .setLock | .resetLock => ¬ held
  | .setStore | .setBroadcast | .setUnlock | .resetStore | .resetUnlock => held
  | .waitLock _ | .blocked _ _ | .woken _ _ _ => ¬ held ∧ changed = false
  | .test _ _ _ => held ∧ changed = false
  | .autoReset error =>
    held ∧ changed = false ∧ (error = 0 → status = true ∧ seen = some true)
  | .waitUnlock error =>
    held ∧ (error = 0 → seen = some true) ∧ (error ≠ 0 ∨ manual = true → changed = false)
  | .waitReturn error =>
    ¬ held ∧ (error = 0 → seen = some true) ∧ (error ≠ 0 ∨ manual = true → changed = false)

section Fits

variable {manual status status' changed : Bool} {held held' : Prop} {seen : Option Bool} {p : Phase}

/-- Only a thread that holds the mutex depends on `event_status_`. -/
theorem Phase.Fits.congr (h : p.Fits manual held status seen changed) (hheld : held' ↔ held)
    (hstatus : held → status' = status) : p.Fits manual held' status' seen changed := by
  obtain rfl : held' = held := propext hheld
  cases p with
  | autoReset error =>
    obtain ⟨hheld, hchanged, hzero⟩ := h
    rw [Phase.Fits, hstatus hheld]
    exact ⟨hheld, hchanged, hzero⟩
  | _ => exact h

theorem Phase.Fits.wakeUp (h : p.Fits manual held status seen changed) :
    p.wakeUp.Fits manual held status seen changed := by
  cases p <;> exact h

@[simp] theorem Phase.granted_wakeUp (p : Phase) : p.wakeUp.granted = p.granted := by
  cases p <;> rfl

end Fits

variable {τ : Type} [DecidableEq τ] {manual initially : Bool} {s s' : State τ} {e e' : Event τ}
  {a : Act τ} {t : τ} {p : Phase}

/-! ## What a step leaves to the other threads -/

/-- The other threads are where they were or have been woken, hold the mutex as they did, and find
`event_status_` as it was unless the thread held the mutex. -/
structure Moves (e e' : Event τ) (t : τ) : Prop where
  phase : ∀ u, u ≠ t → e'.phase u = e.phase u ∨ e'.phase u = (e.phase u).wakeUp
  mutex : ∀ u, u ≠ t → (e'.event_mutex_ = some u ↔ e.event_mutex_ = some u)
  status : e'.event_status_ ≠ e.event_status_ → e.event_mutex_ = some t

theorem moves_goTo (e : Event τ) (t : τ) (p : Phase) : Moves e (e.goTo t p) t where
  phase _ hu := Or.inl (goTo_phase_of_ne e t p hu)
  mutex _ _ := Iff.rfl
  status h := absurd rfl h

theorem moves_store (h : e.event_mutex_ = some t) (status : Bool) (p : Phase) :
    Moves e ({ e with event_status_ := status }.goTo t p) t where
  phase _ hu := Or.inl (goTo_phase_of_ne _ t p hu)
  mutex _ _ := Iff.rfl
  status _ := h

theorem moves_broadcast (e : Event τ) (t : τ) (p : Phase) : Moves e (e.broadcast.goTo t p) t where
  phase _ hu := Or.inr (goTo_phase_of_ne e.broadcast t p hu)
  mutex _ _ := Iff.rfl
  status h := absurd rfl h

theorem moves_unlock (h : e.event_mutex_ = some t) (p : Phase) : Moves e (e.unlock t p) t where
  phase _ hu := Or.inl (goTo_phase_of_ne _ t p hu)
  mutex u hu := by
    rw [h]
    exact iff_of_false (Option.some_ne_none u).symm fun ht => hu (Option.some.inj ht).symm
  status h := absurd rfl h

theorem moves_lock (h : e.event_mutex_ = none) (p : Phase) :
    Moves e ({ e with event_mutex_ := some t }.goTo t p) t where
  phase _ hu := Or.inl (goTo_phase_of_ne _ t p hu)
  mutex u hu := by
    rw [h]
    exact iff_of_false (fun ht => hu (Option.some.inj ht).symm) (Option.some_ne_none u).symm
  status h := absurd rfl h

/-! ## The invariant -/

/-- The `Wait`s that have returned true, those that will, and the signal that is there do not
exceed the `Set`s. -/
def Credit (initially : Bool) (s : State τ) : Prop :=
  ∃ pending : Finset τ, (∀ t, t ∈ pending ↔ (s.event.phase t).granted = true) ∧
    s.history.returned + pending.card + s.event.event_status_.toNat ≤
      s.history.sets + initially.toNat

/-- A thread is where its view of the signals allows it to be. -/
def Placed (manual : Bool) (s : State τ) (t : τ) : Prop :=
  (s.event.phase t).Fits manual (s.event.event_mutex_ = some t) s.event.event_status_
    (s.history.seen t) (s.history.changed t)

/-- **The invariant**: every thread is placed, and with an automatic reset no more waits succeed
than signals are set. -/
structure Inv (manual initially : Bool) (s : State τ) : Prop where
  placed : ∀ t, Placed manual s t
  credit : manual = false → Credit initially s

omit [DecidableEq τ] in
theorem inv_init (manual initially : Bool) : Inv manual initially (init initially : State τ) where
  placed t := (Option.some_ne_none t).symm
  credit _ := by
    refine ⟨∅, fun t => ?_, ?_⟩
    · exact iff_of_false (Finset.notMem_empty t) Bool.false_ne_true
    · simp [init]

/-- The new `Wait`s that return true, with the signal that is there, come out of the `Set`s. -/
theorem credit_of_moves (h : Credit initially s) (hmoves : Moves s.event e' t) {history : History τ}
    (hcount : history.returned + (e'.phase t).granted.toNat + e'.event_status_.toNat +
        s.history.sets ≤
      s.history.returned + (s.event.phase t).granted.toNat + s.event.event_status_.toNat +
        history.sets) : Credit initially ⟨e', history⟩ := by
  obtain ⟨pending, hpending, hle⟩ := h
  have hgranted (u : τ) (hu : u ≠ t) : (e'.phase u).granted = (s.event.phase u).granted := by
    obtain hphase | hphase := hmoves.phase u hu
    · rw [hphase]
    · rw [hphase, Phase.granted_wakeUp]
  have hold : (pending.erase t).card + (s.event.phase t).granted.toNat = pending.card := by
    by_cases ht : t ∈ pending
    · rw [(hpending t).mp ht]
      exact Finset.card_erase_add_one ht
    · have hno : (s.event.phase t).granted = false := by
        rw [← Bool.not_eq_true, ← hpending]
        exact ht
      rw [hno, Finset.erase_eq_of_notMem ht]
      rfl
  cases hp : (e'.phase t).granted with
  | false =>
    refine ⟨pending.erase t, fun u => ?_, ?_⟩
    · by_cases hu : u = t
      · subst hu
        simp [hp]
      · simp [hu, hpending, hgranted u hu]
    · simp only [hp, Bool.toNat_false] at hcount
      simp only
      omega
  | true =>
    refine ⟨insert t (pending.erase t), fun u => ?_, ?_⟩
    · by_cases hu : u = t
      · subst hu
        simp [hp]
      · simp [hu, hpending, hgranted u hu]
    · rw [Finset.card_insert_of_notMem (Finset.notMem_erase t pending)]
      simp only [hp, Bool.toNat_true] at hcount
      simp only
      omega

/-- A step of a thread keeps the invariant if it does at the thread. -/
theorem inv_of_moves (h : Inv manual initially s) (ht : a.thread = t)
    (hmoves : Moves s.event e' t) (hp : e'.phase t = p)
    (hfits : p.Fits manual (e'.event_mutex_ = some t) e'.event_status_
      ((observe s.history s.event a e').seen t) ((observe s.history s.event a e').changed t))
    (hcount : manual = false →
      (observe s.history s.event a e').returned + p.granted.toNat + e'.event_status_.toNat +
          s.history.sets ≤
        s.history.returned + (s.event.phase t).granted.toNat + s.event.event_status_.toNat +
          (observe s.history s.event a e').sets) :
    Inv manual initially ⟨e', observe s.history s.event a e'⟩ where
  placed u := by
    by_cases hu : u = t
    · subst hu hp
      exact hfits
    · have hseen : (observe s.history s.event a e').seen u = s.history.seen u :=
        Function.update_of_ne (ht ▸ hu) _ _
      have hchanged : (observe s.history s.event a e').changed u = s.history.changed u :=
        Function.update_of_ne (ht ▸ hu) _ _
      have hfits := h.placed u
      unfold Placed at hfits ⊢
      rw [hseen, hchanged]
      have hphase : (e'.phase u).Fits manual (s.event.event_mutex_ = some u) s.event.event_status_
          (s.history.seen u) (s.history.changed u) := by
        obtain hphase | hphase := hmoves.phase u hu
        · rw [hphase]
          exact hfits
        · rw [hphase]
          exact hfits.wakeUp
      refine hphase.congr (hmoves.mutex u hu) fun hheld => ?_
      by_contra hne
      exact hu (Option.some.inj (hheld.symm.trans (hmoves.status hne)))
  credit hmanual := credit_of_moves (h.credit hmanual) hmoves (hp ▸ hcount hmanual)

theorem inv_go (h : Inv manual initially s) (hgo : go manual s.event t = some e') :
    Inv manual initially ⟨e', observe s.history s.event (.go t) e'⟩ := by
  have hfits := h.placed t
  unfold Placed at hfits
  unfold go at hgo
  cases hp : s.event.phase t with
  | out | blocked => simp [hp] at hgo
  | setLock | resetLock =>
    simp only [hp] at hgo
    obtain ⟨hfree, rfl⟩ := lock_eq hgo
    refine inv_of_moves h rfl (moves_lock hfree _) (goTo_phase_self _ _ _) ?_ fun _ => ?_
    · simp [Phase.Fits]
    · simp [observe, hp, Phase.granted]
  | waitLock | woken =>
    simp only [hp, Phase.Fits] at hgo hfits
    obtain ⟨hfree, rfl⟩ := lock_eq hgo
    refine inv_of_moves h rfl (moves_lock hfree _) (goTo_phase_self _ _ _) ?_ fun _ => ?_
    · simp [Phase.Fits, observe, hp, Phase.waits, hfits]
    · simp [observe, hp, Phase.granted]
  | setStore =>
    simp only [hp, Phase.Fits] at hgo hfits
    cases hgo
    refine inv_of_moves h rfl (moves_store hfits true _) (goTo_phase_self _ _ _) hfits fun _ => ?_
    simp only [observe, hp, Phase.granted, Act.thread_go, goTo_status, Bool.toNat_true]
    simp
    omega
  | resetStore =>
    simp only [hp, Phase.Fits] at hgo hfits
    cases hgo
    refine inv_of_moves h rfl (moves_store hfits false _) (goTo_phase_self _ _ _) hfits fun _ => ?_
    simp [observe, hp, Phase.granted]
  | setBroadcast =>
    simp only [hp, Phase.Fits] at hgo hfits
    cases hgo
    refine inv_of_moves h rfl (moves_broadcast _ t _) (goTo_phase_self _ _ _) hfits fun _ => ?_
    simp [observe, hp, Phase.granted]
  | setUnlock | resetUnlock =>
    simp only [hp, Phase.Fits] at hgo hfits
    cases hgo
    refine inv_of_moves h rfl (moves_unlock hfits _) (unlock_phase_self _ _ _) ?_ fun _ => ?_
    · simp [Phase.Fits]
    · simp [observe, hp, Phase.granted]
  | test w stage error =>
    simp only [hp, Phase.Fits] at hgo hfits
    split_ifs at hgo with hwait <;> cases hgo
    · refine inv_of_moves h rfl (moves_unlock hfits.1 _) (unlock_phase_self _ _ _) ?_ fun _ => ?_
      · simp [Phase.Fits, observe, hp, Phase.waits, hfits]
      · simp [observe, hp, Phase.granted]
    · -- an error of 0 means that the loop has ended because of `event_status_`
      have hseen : error = 0 → s.event.event_status_ = true := fun hzero => by
        simpa [hzero] using hwait
      refine inv_of_moves h rfl (moves_goTo _ _ _) (goTo_phase_self _ _ _) ?_ fun _ => ?_
      · unfold afterWait
        split_ifs
        · simp [Phase.Fits, observe, hp, Phase.waits, hfits]
        · simpa [Phase.Fits, observe, hp, Phase.waits, hfits] using hseen
      · unfold afterWait
        split_ifs <;> simp [observe, hp, Phase.granted]
  | autoReset error =>
    simp only [hp, Phase.Fits] at hgo hfits
    cases hgo
    refine inv_of_moves h rfl (moves_store hfits.1 _ _) (goTo_phase_self _ _ _) ?_ fun hmanual => ?_
    · simp only [Phase.Fits, observe, hp, Phase.waits, hfits, Act.thread_go, goTo_status]
      simp
      exact ⟨fun hzero => (hfits.2.2 hzero).2,
        fun hor _ hzero => hor.resolve_left fun hne => hne hzero⟩
    · -- the signal goes to the `Wait`
      by_cases hzero : error = 0
      · simp [observe, hp, Phase.granted, hmanual, hzero, (hfits.2.2 hzero).1]
      · simp [observe, hp, Phase.granted, hzero]
  | waitUnlock error =>
    simp only [hp, Phase.Fits] at hgo hfits
    cases hgo
    refine inv_of_moves h rfl (moves_unlock hfits.1 _) (unlock_phase_self _ _ _) ?_ fun _ => ?_
    · simpa [Phase.Fits, observe, hp, Phase.waits, hfits] using hfits.2
    · simp [observe, hp, Phase.granted]
  | waitReturn error =>
    simp only [hp, Phase.Fits] at hgo hfits
    cases hgo
    refine inv_of_moves h rfl (moves_goTo _ _ _) (goTo_phase_self _ _ _) hfits.1 fun _ => ?_
    by_cases hzero : error = 0 <;> simp [observe, hp, Phase.granted, hzero]

theorem inv_call (h : Inv manual initially s) (ht : a.thread = t) (ha : a ≠ .go t)
    (hout : s.event.phase t = .out) (hp : p = .setLock ∨ p = .resetLock ∨ ∃ w, p = .waitLock w) :
    Inv manual initially ⟨s.event.goTo t p, observe s.history s.event a (s.event.goTo t p)⟩ := by
  have hfits := h.placed t
  unfold Placed at hfits
  simp only [hout, Phase.Fits] at hfits
  refine inv_of_moves h ht (moves_goTo _ _ _) (goTo_phase_self _ _ _) ?_ fun _ => ?_
  · obtain rfl | rfl | ⟨w, rfl⟩ := hp
    · exact hfits
    · exact hfits
    · simp [Phase.Fits, observe, ht, hout, Phase.waits, hfits]
  · obtain rfl | rfl | ⟨w, rfl⟩ := hp <;> simp [observe, ht, ha, hout, Phase.granted]

theorem inv_step (h : Inv manual initially s) (hs : step manual s a = some s') :
    Inv manual initially s' := by
  unfold step at hs
  obtain ⟨e', hact, rfl⟩ := Option.map_eq_some_iff.mp hs
  have hfits := h.placed a.thread
  unfold Placed at hfits
  cases a with
  | go t => exact inv_go h hact
  | set t =>
    simp only [act] at hact
    split_ifs at hact with hout
    cases hact
    exact inv_call h rfl (by simp) hout (.inl rfl)
  | reset t =>
    simp only [act] at hact
    split_ifs at hact with hout
    cases hact
    exact inv_call h rfl (by simp) hout (.inr (.inl rfl))
  | wait t give_up_after_ms warn_after_ms now now' =>
    simp only [act] at hact
    split_ifs at hact with hout
    cases hact
    exact inv_call h rfl (by simp) hout (.inr (.inr ⟨_, rfl⟩))
  | wake t error =>
    simp only [act] at hact
    split at hact
    next w stage hp =>
      split_ifs at hact
      cases hact
      simp only [Act.thread_wake, hp, Phase.Fits] at hfits
      refine inv_of_moves h rfl (moves_goTo _ _ _) (goTo_phase_self _ _ _) ?_ fun _ => ?_
      · simp [Phase.Fits, observe, hp, Phase.waits, hfits]
      · simp [observe, hp, Phase.granted]
    next => cases hact
  | fail t error =>
    simp only [act] at hact
    split at hact
    next w stage hp =>
      split_ifs at hact
      cases hact
      simp only [Act.thread_fail, hp, Phase.Fits] at hfits
      refine inv_of_moves h rfl (moves_goTo _ _ _) (goTo_phase_self _ _ _) ?_ fun _ => ?_
      · simp [Phase.Fits, observe, hp, Phase.waits, hfits]
      · simp [observe, hp, Phase.granted]
    next => cases hact

theorem inv_exec {as : List (Act τ)} (h : exec (step manual) (init initially) as = some s) :
    Inv manual initially s :=
  invariant (Inv manual initially) (fun _ _ _ hinv hs => inv_step hinv hs)
    (inv_init manual initially) h

/-! ## Runs -/

/-- **Every `Wait` that returns true takes a signal.** In every state of every run of an
auto-reset event, the `Wait`s that have returned true and the signal that is there do not exceed
the `Set`s and the first signal. A `Wait` that returns true has read a signal since it last locked
the mutex. One that returns false has not changed `event_status_`, and on a manual-reset event none
has. -/
theorem signals_released {as : List (Act τ)}
    (h : exec (step manual) (init initially) as = some s) :
    (manual = false → s.history.returned + s.event.event_status_.toNat ≤
      s.history.sets + initially.toNat) ∧
    ∀ t, (s.event.phase t = .waitReturn 0 → s.history.seen t = some true) ∧
      (∀ error, error ≠ 0 → s.event.phase t = .waitReturn error → s.history.changed t = false) ∧
      (manual = true → (s.event.phase t).waits = true → s.history.changed t = false) := by
  have hinv := inv_exec h
  refine ⟨fun hmanual => ?_, fun t => ?_⟩
  · obtain ⟨pending, -, hle⟩ := hinv.credit hmanual
    omega
  have hfits := hinv.placed t
  unfold Placed at hfits
  refine ⟨fun hp => ?_, fun error herror hp => ?_, fun hmanual hwaits => ?_⟩
  · rw [hp] at hfits
    exact hfits.2.1 rfl
  · rw [hp] at hfits
    exact hfits.2.2 (.inl herror)
  · cases hp : s.event.phase t with
    | out | setLock | setStore | setBroadcast | setUnlock | resetLock | resetStore | resetUnlock =>
      rw [hp] at hwaits
      cases hwaits
    | waitLock | blocked | woken | test =>
      rw [hp] at hfits
      exact hfits.2
    | autoReset error =>
      rw [hp] at hfits
      exact hfits.2.1
    | waitUnlock error | waitReturn error =>
      rw [hp] at hfits
      exact hfits.2.2 (.inr hmanual)

/-- Thread 2 gives up, and then thread 1 sets the event that thread 0 waits for. -/
def handOver : List (Act ℕ) :=
  [.wait 0 kForever 3000 ⟨0, 0⟩ ⟨0, 0⟩, .go 0, .go 0, .wait 2 10 kForever ⟨0, 0⟩ ⟨0, 0⟩, .go 2,
    .go 2, .wake 2 ETIMEDOUT, .go 2, .go 2, .go 2, .go 2, .set 1, .go 1, .go 1, .go 1, .go 1, .go 0,
    .go 0, .go 0, .go 0]

theorem signals_released_sample : ∃ s, exec (step false) (init false) handOver = some s ∧
    s.event.phase 0 = .waitReturn 0 ∧ s.event.phase 2 = .waitReturn ETIMEDOUT ∧
    s.history.seen 0 = some true ∧ s.history.changed 2 = false ∧
    s.history.returned + s.event.event_status_.toNat ≤ s.history.sets := by
  have hrun : (exec (step false) (init false) handOver).map
      (fun s => (s.event.phase 0, s.event.phase 2)) =
        some (.waitReturn 0, .waitReturn ETIMEDOUT) := by
    decide
  obtain ⟨s, h, hphases⟩ := Option.map_eq_some_iff.mp hrun
  obtain ⟨h₀, h₂⟩ := Prod.mk.inj hphases
  have hsignals := signals_released h
  exact ⟨s, h, h₀, h₂, (hsignals.2 0).1 h₀, (hsignals.2 2).2.1 ETIMEDOUT (by decide) h₂,
    hsignals.1 rfl⟩

end Event

end RtcBase
