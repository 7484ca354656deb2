import RtcBase.Event.Signals

/-!
# No signal of an `Event` is lost

* `Heard`: while the event is set and a thread is blocked, a `Set` is about to broadcast;
* `heard_of_moves`, `heard_exec`: it holds in every state of every run;
* `goes`, `Gets`: some steps of one thread on its own; `releases`, `grants`: they lead out of a
  critical section, and out of a `Wait` that finds the event set;
* **`no_lost_signal`**: all of it in every state of a run.
-/

namespace RtcBase

open Run

namespace Event

variable {τ : Type} [DecidableEq τ] {manual initially : Bool} {s s' : State τ} {e e' : Event τ}
  {t : τ}

/-! ## Blocked threads -/

omit [DecidableEq τ] in
/-- Whoever is blocked while the event is set is about to be woken. -/
def Heard (e : Event τ) : Prop :=
  e.event_status_ = true → ∀ t w stage, e.phase t = .blocked w stage →
    ∃ u, e.phase u = .setBroadcast

theorem Phase.wakeUp_ne_blocked (p : Phase) (w : WaitCall) (stage : Stage) :
    p.wakeUp ≠ .blocked w stage := by
  cases p <;> simp [Phase.wakeUp]

omit [DecidableEq τ] in
/-- A step that neither sets the event nor blocks its thread nor broadcasts. -/
theorem heard_of_moves (h : Heard e) (hmoves : Moves e e' t)
    (hstatus : e'.event_status_ = true → e.event_status_ = true)
    (hblocked : ∀ w stage, e'.phase t ≠ .blocked w stage) (hbroadcast : e.phase t ≠ .setBroadcast) :
    Heard e' := by
  intro hset u w stage hu
  have hut : u ≠ t := by
    rintro rfl
    exact hblocked w stage hu
  have hold : e.phase u = .blocked w stage := by
    obtain hphase | hphase := hmoves.phase u hut
    · exact hphase.symm.trans hu
    · exact absurd (hphase.symm.trans hu) (Phase.wakeUp_ne_blocked _ _ _)
  obtain ⟨v, hv⟩ := h (hstatus hset) u w stage hold
  have hvt : v ≠ t := by
    rintro rfl
    exact hbroadcast hv
  refine ⟨v, ?_⟩
  obtain hphase | hphase := hmoves.phase v hvt
  · exact hphase.trans hv
  · rw [hphase, hv]
    rfl

theorem heard_goTo (h : Heard e) {p : Phase} (hblocked : ∀ w stage, p ≠ .blocked w stage)
    (hbroadcast : e.phase t ≠ .setBroadcast) : Heard (e.goTo t p) :=
  heard_of_moves h (moves_goTo e t p) id (by simpa using hblocked) hbroadcast

theorem heard_go (hinv : Inv manual initially s) (h : Heard s.event)
    (hgo : go manual s.event t = some e') : Heard e' := by
  have hfits := hinv.placed t
  unfold Placed at hfits
  unfold go at hgo
  cases hp : s.event.phase t with
  | out | blocked => simp [hp] at hgo
  | setLock | resetLock | waitLock | woken =>
    simp only [hp] at hgo
    obtain ⟨hfree, rfl⟩ := lock_eq hgo
    exact heard_of_moves h (moves_lock hfree _) id (by simp) (by simp [hp])
  | setStore =>
    simp only [hp, Phase.Fits] at hgo hfits
    cases hgo
    exact fun _ _ _ _ _ => ⟨t, goTo_phase_self _ _ _⟩
  | resetStore =>
    simp only [hp, Phase.Fits] at hgo hfits
    cases hgo
    exact fun hset => Bool.noConfusion hset
  | setBroadcast =>
    simp only [hp] at hgo
    cases hgo
    intro _ u w stage hu
    by_cases hut : u = t
    · subst hut
      simp at hu
    · rw [goTo_phase_of_ne _ _ _ hut] at hu
      exact absurd hu (Phase.wakeUp_ne_blocked _ _ _)
  | setUnlock | resetUnlock =>
    simp only [hp, Phase.Fits] at hgo hfits
    cases hgo
    exact heard_of_moves h (moves_unlock hfits _) id (by simp) (by simp [hp])
  | test w stage error =>
    simp only [hp, Phase.Fits] at hgo hfits
    split_ifs at hgo with hwait <;> cases hgo
    · -- it blocks because the event is not set
      intro hset
      rw [unlock_status, hwait.1] at hset
      cases hset
    · refine heard_goTo h (fun w' stage' => ?_) (by simp [hp])
      unfold afterWait
      split_ifs <;> exact Phase.noConfusion
  | autoReset error =>
    simp only [hp, Phase.Fits] at hgo hfits
    cases hgo
    refine heard_of_moves h (moves_store hfits.1 _ _) (fun hset => ?_) (by simp) (by simp [hp])
    rw [goTo_status] at hset
    simp only at hset
    split_ifs at hset
    exact hset
  | waitUnlock error =>
    simp only [hp, Phase.Fits] at hgo hfits
    cases hgo
    exact heard_of_moves h (moves_unlock hfits.1 _) id (by simp) (by simp [hp])
  | waitReturn error =>
    simp only [hp] at hgo
    cases hgo
    exact heard_goTo h (fun _ _ => Phase.noConfusion) (by simp [hp])

theorem heard_step {a : Act τ} (hinv : Inv manual initially s) (h : Heard s.event)
    (hs : step manual s a = some s') : Heard s'.event := by
  unfold step at hs
  obtain ⟨e', hact, rfl⟩ := Option.map_eq_some_iff.mp hs
  cases a with
  | go t => exact heard_go hinv h hact
  | set t | reset t | wait t give_up_after_ms warn_after_ms now now' =>
    simp only [act] at hact
    split_ifs at hact with hout
    cases hact
    exact heard_goTo h (fun _ _ => Phase.noConfusion) (by simp [hout])
  | wake t error =>
    simp only [act] at hact
    split at hact
    next w stage hp =>
      split_ifs at hact
      cases hact
      exact heard_goTo h (fun _ _ => Phase.noConfusion) (by simp [hp])
    next => cases hact
  | fail t error =>
    simp only [act] at hact
    split at hact
    next w stage hp =>
      split_ifs at hact
      cases hact
      exact heard_goTo h (fun _ _ => Phase.noConfusion) (by simp [hp])
    next => cases hact

theorem heard_exec {as : List (Act τ)} (h : exec (step manual) (init initially) as = some s) :
    Heard s.event := by
  have hboth := invariant (fun s => Inv manual initially s ∧ Heard s.event)
    (fun _ _ _ hinv hs => ⟨inv_step hinv.1 hs, heard_step hinv.1 hinv.2 hs⟩)
    ⟨inv_init manual initially, fun _ _ _ _ hblocked => Phase.noConfusion hblocked⟩ h
  exact hboth.2

/-! ## A thread on its own -/

/-- The next `n` steps of a thread, with no other step in between. -/
def goes (manual : Bool) (t : τ) : ℕ → Event τ → Option (Event τ)
  | 0, e => some e
  | n + 1, e => (go manual e t).bind (goes manual t n)

theorem exec_of_goes {n : ℕ} (h : goes manual t n s.event = some e') :
    ∃ s', exec (step manual) s (List.replicate n (.go t)) = some s' ∧ s'.event = e' := by
  induction n generalizing s with
  | zero =>
    cases h
    exact ⟨s, rfl, rfl⟩
  | succ n ih =>
    obtain ⟨e₁, h₁, h₂⟩ := Option.bind_eq_some_iff.mp h
    obtain ⟨s', hs', he'⟩ := ih (s := ⟨e₁, observe s.history s.event (.go t) e₁⟩) h₂
    refine ⟨s', exec_cons.mpr ⟨_, ?_, hs'⟩, he'⟩
    rw [step, act, h₁]
    rfl

/-- On its own, the thread gets to where `P` holds in at most `n` steps. -/
def Gets (manual : Bool) (t : τ) (P : Event τ → Prop) (n : ℕ) (e : Event τ) : Prop :=
  ∃ k ≤ n, ∃ e', goes manual t k e = some e' ∧ P e'

theorem gets_of_go {P : Event τ → Prop} {n : ℕ} (hgo : go manual e t = some e')
    (h : Gets manual t P n e') : Gets manual t P (n + 1) e := by
  obtain ⟨k, hk, e'', he'', hP⟩ := h
  exact ⟨k + 1, Nat.succ_le_succ hk, e'', by rw [goes, hgo]; exact he'', hP⟩

theorem gets_of_go_of {P : Event τ → Prop} {n : ℕ} (hgo : go manual e t = some e') (hP : P e') :
    Gets manual t P (n + 1) e :=
  gets_of_go hgo ⟨0, Nat.zero_le n, e', rfl, hP⟩

theorem Gets.mono {P : Event τ → Prop} {m n : ℕ} (h : Gets manual t P m e) (hmn : m ≤ n) :
    Gets manual t P n e := by
  obtain ⟨k, hk, hrest⟩ := h
  exact ⟨k, hk.trans hmn, hrest⟩

section Steps

variable {error : ℤ} {w : WaitCall} {stage : Stage}

theorem go_setStore (hp : e.phase t = .setStore) :
    go manual e t = some ({ e with event_status_ := true }.goTo t .setBroadcast) := by
  simp only [go, hp]

theorem go_setBroadcast (hp : e.phase t = .setBroadcast) :
    go manual e t = some (e.broadcast.goTo t .setUnlock) := by
  simp only [go, hp]

theorem go_setUnlock (hp : e.phase t = .setUnlock) : go manual e t = some (e.unlock t .out) := by
  simp only [go, hp]

theorem go_resetStore (hp : e.phase t = .resetStore) :
    go manual e t = some ({ e with event_status_ := false }.goTo t .resetUnlock) := by
  simp only [go, hp]

theorem go_resetUnlock (hp : e.phase t = .resetUnlock) :
    go manual e t = some (e.unlock t .out) := by
  simp only [go, hp]

variable (manual) in
theorem go_autoReset (hp : e.phase t = .autoReset error) : ∃ status,
    go manual e t = some ({ e with event_status_ := status }.goTo t (.waitUnlock error)) :=
  ⟨_, by simp only [go, hp]; rfl⟩

theorem go_waitUnlock (hp : e.phase t = .waitUnlock error) :
    go manual e t = some (e.unlock t (.waitReturn error)) := by
  simp only [go, hp]

theorem go_waitLock (hp : e.phase t = .waitLock w) (hfree : e.event_mutex_ = none) :
    go manual e t = some ({ e with event_mutex_ := some t }.goTo t (.test w w.first 0)) := by
  simp only [go, hp, lock, if_pos hfree]

theorem go_woken (hp : e.phase t = .woken w stage error) (hfree : e.event_mutex_ = none) :
    go manual e t = some ({ e with event_mutex_ := some t }.goTo t (.test w stage error)) := by
  simp only [go, hp, lock, if_pos hfree]

theorem go_block (hp : e.phase t = .test w stage 0) (hstatus : e.event_status_ = false) :
    go manual e t = some (e.unlock t (.blocked w stage)) := by
  simp [go, hp, hstatus]

theorem go_pass (hp : e.phase t = .test w stage error)
    (hstatus : ¬ (e.event_status_ = false ∧ error = 0)) :
    go manual e t = some (e.goTo t (afterWait w stage error)) := by
  simp only [go, hp, if_neg hstatus]

end Steps

/-! ### Out of a critical section -/

omit [DecidableEq τ] in
/-- No thread is in a critical section. -/
def Free (e : Event τ) : Prop := e.event_mutex_ = none

theorem gets_free_of_unlock {n : ℕ} {p : Phase} (hgo : go manual e t = some (e.unlock t p)) :
    Gets manual t Free (n + 1) e := gets_of_go_of hgo rfl

theorem gets_free_of_autoReset {n : ℕ} {error : ℤ} (hp : e.phase t = .autoReset error) :
    Gets manual t Free (n + 2) e := by
  obtain ⟨status, hgo⟩ := go_autoReset manual hp
  exact gets_of_go hgo (gets_free_of_unlock (go_waitUnlock (goTo_phase_self _ _ _)))

/-- A thread that tests `event_status_` blocks, which leaves the mutex, or goes on to its end. -/
theorem gets_free_of_giveUp {n : ℕ} {w : WaitCall} (hp : e.phase t = .test w .giveUp 0) :
    Gets manual t Free (n + 3) e := by
  cases hstatus : e.event_status_ with
  | false => exact gets_free_of_unlock (go_block hp hstatus)
  | true =>
    exact gets_of_go (go_pass hp (by simp [hstatus]))
      (gets_free_of_autoReset (goTo_phase_self _ _ _))

theorem releases (h : Placed manual s t) (hheld : s.event.event_mutex_ = some t) :
    Gets manual t Free 4 s.event := by
  unfold Placed at h
  simp only [hheld] at h
  cases hp : s.event.phase t with
  | out | setLock | resetLock => simp [hp, Phase.Fits] at h
  | waitLock | blocked | woken | waitReturn => simp [hp, Phase.Fits] at h
  | setStore =>
    exact gets_of_go (go_setStore hp) (gets_of_go (go_setBroadcast (goTo_phase_self _ _ _))
      (gets_free_of_unlock (go_setUnlock (goTo_phase_self _ _ _))))
  | setBroadcast =>
    exact gets_of_go (go_setBroadcast hp)
      (gets_free_of_unlock (go_setUnlock (goTo_phase_self _ _ _)))
  | resetStore =>
    exact gets_of_go (go_resetStore hp)
      (gets_free_of_unlock (go_resetUnlock (goTo_phase_self _ _ _)))
  | setUnlock => exact gets_free_of_unlock (go_setUnlock hp)
  | resetUnlock => exact gets_free_of_unlock (go_resetUnlock hp)
  | autoReset error => exact gets_free_of_autoReset hp
  | waitUnlock error => exact gets_free_of_unlock (go_waitUnlock hp)
  | test w stage error =>
    by_cases hwait : s.event.event_status_ = false ∧ error = 0
    · obtain ⟨hstatus, rfl⟩ := hwait
      exact gets_free_of_unlock (go_block hp hstatus)
    · refine gets_of_go (go_pass hp hwait) ?_
      unfold afterWait
      split_ifs
      · exact gets_free_of_giveUp (goTo_phase_self _ _ _)
      · exact gets_free_of_autoReset (goTo_phase_self _ _ _)

/-! ### Out of a `Wait` -/

/-- The wait for the condition has ended with an error, other than the timeout of the warning. -/
def Phase.failed : Phase → Bool
  | .woken _ stage error => error ≠ 0 ∧ ¬ (stage = .warn ∧ error = ETIMEDOUT)
  | .waitReturn error => error ≠ 0
  | _ => false

omit [DecidableEq τ] in
/-- The wait is about to return, with success or not. -/
def Returned (t : τ) (ok : Bool) (e : Event τ) : Prop :=
  ∃ error, e.phase t = .waitReturn error ∧ (error = 0 ↔ ok = true)

theorem gets_returned_of_autoReset {n : ℕ} (error : ℤ) {ok : Bool} (hok : error = 0 ↔ ok = true)
    (hp : e.phase t = .autoReset error) : Gets manual t (Returned t ok) (n + 2) e := by
  obtain ⟨status, hgo⟩ := go_autoReset manual hp
  exact gets_of_go hgo (gets_of_go_of (go_waitUnlock (goTo_phase_self _ _ _))
    ⟨error, unlock_phase_self _ _ _, hok⟩)

theorem gets_returned_of_test {n : ℕ} {w : WaitCall} {stage : Stage} {error : ℤ}
    (hp : e.phase t = .test w stage error) (hset : e.event_status_ = true) :
    Gets manual t (Returned t !(Phase.woken w stage error).failed) (n + 4) e := by
  refine gets_of_go (go_pass hp (by simp [hset])) ?_
  by_cases hwarn : stage = .warn ∧ error = ETIMEDOUT
  · rw [afterWait, if_pos hwarn]
    refine gets_of_go (go_pass (goTo_phase_self _ _ _) (by simp [hset]))
      (gets_returned_of_autoReset 0 ?_ (goTo_phase_self _ _ _))
    simp [Phase.failed, hwarn]
  · rw [afterWait, if_neg hwarn]
    refine gets_returned_of_autoReset error ?_ (goTo_phase_self _ _ _)
    simp [Phase.failed, hwarn]

theorem grants (h : Placed manual s t) (hheard : Heard s.event)
    (hset : s.event.event_status_ = true) (hfree : Free s.event)
    (hbroadcast : ∀ u, s.event.phase u ≠ .setBroadcast) (hwaits : (s.event.phase t).waits = true) :
    Gets manual t (Returned t !(s.event.phase t).failed) 5 s.event := by
  unfold Placed at h
  have hheld : ¬ s.event.event_mutex_ = some t := by
    rw [hfree]
    exact (Option.some_ne_none t).symm
  cases hp : s.event.phase t with
  | out | setLock | setStore | setBroadcast | setUnlock | resetLock | resetStore | resetUnlock =>
    simp [hp, Phase.waits] at hwaits
  | test | autoReset | waitUnlock => simp [hp, Phase.Fits, hheld] at h
  | blocked w stage =>
    obtain ⟨u, hu⟩ := hheard hset t w stage hp
    exact absurd hu (hbroadcast u)
  | waitLock w =>
    refine gets_of_go (go_waitLock hp hfree) ?_
    have hzero : Phase.failed (.waitLock w) = (Phase.woken w w.first 0).failed := by
      simp [Phase.failed]
    rw [hzero]
    exact gets_returned_of_test (goTo_phase_self _ _ _) hset
  | woken w stage error =>
    exact gets_of_go (go_woken hp hfree) (gets_returned_of_test (goTo_phase_self _ _ _) hset)
  | waitReturn error =>
    refine ⟨0, Nat.zero_le 5, s.event, rfl, error, hp, ?_⟩
    simp [Phase.failed]

/-! ## Runs -/

/-- **No signal is lost.** In every state of every run: whoever is blocked while the event is set
is about to be woken by the `Set` that holds the mutex; a thread that holds the mutex gives it up by
at most 4 steps of its own; and while the event is set and the mutex is free, whichever thread is
in `Wait` returns by at most 5 steps of its own, with true unless its wait has failed. -/
theorem no_lost_signal {as : List (Act τ)}
    (h : exec (step manual) (init initially) as = some s) :
    (s.event.event_status_ = true → ∀ t w stage, s.event.phase t = .blocked w stage →
      ∃ u, s.event.phase u = .setBroadcast ∧ s.event.event_mutex_ = some u) ∧
    (∀ t, s.event.event_mutex_ = some t → ∃ n ≤ 4, ∃ s',
      exec (step manual) s (List.replicate n (.go t)) = some s' ∧ s'.event.event_mutex_ = none) ∧
    (s.event.event_status_ = true → s.event.event_mutex_ = none →
      ∀ t, (s.event.phase t).waits = true → ∃ n ≤ 5, ∃ s' error,
        exec (step manual) s (List.replicate n (.go t)) = some s' ∧
        s'.event.phase t = .waitReturn error ∧
        (error = 0 ↔ (s.event.phase t).failed = false)) := by
  have hinv := inv_exec h
  have hheard := heard_exec h
  have hholds (u : τ) (hu : s.event.phase u = .setBroadcast) : s.event.event_mutex_ = some u := by
    have hfits := hinv.placed u
    rw [Placed, hu] at hfits
    exact hfits
  refine ⟨fun hset t w stage ht => ?_, fun t ht => ?_, fun hset hfree t ht => ?_⟩
  · obtain ⟨u, hu⟩ := hheard hset t w stage ht
    exact ⟨u, hu, hholds u hu⟩
  · obtain ⟨n, hn, e', he', hfree⟩ := releases (hinv.placed t) ht
    obtain ⟨s', hs', rfl⟩ := exec_of_goes he'
    exact ⟨n, hn, s', hs', hfree⟩
  · have hbroadcast (u : τ) : s.event.phase u ≠ .setBroadcast := fun hu => by
      rw [hholds u hu] at hfree
      cases hfree
    obtain ⟨n, hn, e', he', error, hp, herror⟩ :=
      grants (hinv.placed t) hheard hset hfree hbroadcast ht
    obtain ⟨s', hs', rfl⟩ := exec_of_goes he'
    exact ⟨n, hn, s', error, hs', hp, herror.trans (by simp)⟩

/-- Thread 0 blocks, and thread 1 sets the event. -/
def blockAndSet : List (Act ℕ) :=
  [.wait 0 kForever 3000 ⟨0, 0⟩ ⟨0, 0⟩, .go 0, .go 0, .set 1, .go 1, .go 1, .go 1, .go 1]

theorem no_lost_signal_sample :
    ∃ s, exec (step false) (init false) blockAndSet = some s ∧
      ∃ n ≤ 5, ∃ s' error, exec (step false) s (List.replicate n (.go 0)) = some s' ∧
        s'.event.phase 0 = .waitReturn error ∧
        (error = 0 ↔ (s.event.phase 0).failed = false) := by
  have hrun : (exec (step false) (init false) blockAndSet).map
      (fun s => (s.event.event_status_, s.event.event_mutex_, (s.event.phase 0).waits)) =
        some (true, none, true) := by
    decide
  obtain ⟨s, h, hstate⟩ := Option.map_eq_some_iff.mp hrun
  obtain ⟨hset, hrest⟩ := Prod.mk.inj hstate
  obtain ⟨hfree, hwaits⟩ := Prod.mk.inj hrest
  exact ⟨s, h, (no_lost_signal h).2.2 hset hfree 0 hwaits⟩

end Event

end RtcBase
