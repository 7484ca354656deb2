import RtcBase.Lib.Mutex
import RtcBase.Lib.Run

/-!
# `call_once`

Any number of threads call `call_once` with one flag, where it is built on
`InterlockedCompareExchange` and a critical section. Every access to the flag is a step. A thread
that is in `func` may call it again.

* `OnceFlag`, `Phase`, `State`, `step`: the flag, where the calls are, and what they do next;
* `Stage`, `Inv`, `inv_step`: how far the one call that runs `func` has got, and what the flag and
  the other calls are then;
* `canFinish_working`, `ends`: the thread that runs `func`, and then any other one, to the end of
  its call on its own;
* **`called_once`**: what holds in every state of every run.
-/

namespace RtcBase

open Run Locks

namespace CallOnce

/-- `once_flag`. There is no `lock` before it is initialized. -/
structure OnceFlag (τ : Type) where
  status : ℕ
  lock : Option (Mutex τ)
  deriving DecidableEq, Repr

/-- The next step of a call. -/
inductive Phase where
  /-- `while (flag->status < 3)`. -/
  | test
  /-- `switch (flag->status)`. -/
  | switch
  | compareExchange
  /-- `InitializeCriticalSection`. -/
  | makeLock
  | enter
  /-- `flag->status = 2`. -/
  | announce
  /-- `func()` is about to begin. -/
  | call
  | func
  /-- `flag->status = 3`. -/
  | finish
  | leave
  /-- `EnterCriticalSection` in case 2. -/
  | wait
  /-- `LeaveCriticalSection` in case 2. -/
  | release
  deriving DecidableEq, Repr

/-- The flag, where every thread is, and what has been done how often. -/
structure State (τ : Type) where
  flag : OnceFlag τ
  /-- The calls that the thread is in, the last one first. -/
  calls : τ → List Phase
  initialized : ℕ
  begun : ℕ
  ended : ℕ
  returned : ℕ
  /-- The critical section was used before it was initialized. -/
  misused : Bool

/-- `ONCE_FLAG_INIT`. -/
def init {τ : Type} : State τ where
  flag := ⟨0, none⟩
  calls _ := []
  initialized := 0
  begun := 0
  ended := 0
  returned := 0
  misused := false

/-- A thread makes a call, or its next step. -/
inductive Act (τ : Type) where
  | call (t : τ)
  /-- The next step of the last call of a thread. -/
  | go (t : τ)
  deriving DecidableEq, Repr

section Step

variable {τ : Type} [DecidableEq τ]

/-- A holder may enter again. Where the thread blocks there is no result. -/
def enterCriticalSection (t : τ) : Mutex τ → Option (Mutex τ)
  | .free => some (.held t 0)
  | .held u again => if u = t then some (.held t (again + 1)) else none

/-- The last call of a thread goes on. -/
def State.goTo (s : State τ) (t : τ) (p : Phase) : State τ :=
  { s with calls := Function.update s.calls t (p :: (s.calls t).tail) }

/-- The last call of a thread returns. -/
def State.return (s : State τ) (t : τ) : State τ :=
  { s with calls := Function.update s.calls t (s.calls t).tail, returned := s.returned + 1 }

/-- `EnterCriticalSection`, which waits while another thread is inside. -/
def State.enter (s : State τ) (t : τ) (p : Phase) : Option (State τ) :=
  match s.flag.lock with
  | none => some { s with misused := true }
  | some lock => (enterCriticalSection t lock).map fun lock =>
      { s with flag := ⟨s.flag.status, some lock⟩ }.goTo t p

/-- `LeaveCriticalSection`. -/
def State.leave (s : State τ) (t : τ) : State τ :=
  { s with flag := ⟨s.flag.status, s.flag.lock.map fun lock => lock.unlock t⟩ }

/-- A store to `status`. -/
def State.setStatus (s : State τ) (status : ℕ) : State τ :=
  { s with flag := ⟨status, s.flag.lock⟩ }

/-- The next step of a call, from where it is. -/
def go (s : State τ) (t : τ) : Phase → Option (State τ)
  | .test => some (if s.flag.status < 3 then s.goTo t .switch else s.return t)
  | .switch =>
    some (s.goTo t (match s.flag.status with | 0 => .compareExchange | 2 => .wait | _ => .test))
  | .compareExchange =>
    some (if s.flag.status = 0 then (s.setStatus 1).goTo t .makeLock else s.goTo t .test)
  | .makeLock =>
    some ({ s with
      flag := ⟨s.flag.status, some .free⟩
      initialized := s.initialized + 1 }.goTo t .enter)
  | .enter => s.enter t .announce
  | .announce => some ((s.setStatus 2).goTo t .call)
  | .call => some ({ s with begun := s.begun + 1 }.goTo t .func)
  | .func => some ({ s with ended := s.ended + 1 }.goTo t .finish)
  | .finish => some ((s.setStatus 3).goTo t .leave)
  | .leave => some ((s.leave t).return t)
  | .wait => s.enter t .release
  | .release => some ((s.leave t).goTo t .test)

/-- A thread makes a call when it is in none, or from `func`. -/
def mayCall : List Phase → Bool
  | [] => true
  | p :: _ => p = .func

/-- A step, unless the critical section has been misused. -/
def step (s : State τ) (a : Act τ) : Option (State τ) :=
  if s.misused then none
  else
    match a with
    | .call t =>
      if mayCall (s.calls t) then
        some { s with calls := Function.update s.calls t (.test :: s.calls t) }
      else none
    | .go t => (s.calls t).head?.bind (go s t)

end Step

/-! ## The stages of a flag -/

/-- How far the flag has got. -/
inductive Stage (τ : Type) where
  /-- No call has won. -/
  | fresh
  /-- `w` has won and is in these calls. -/
  | working (w : τ) (calls : List Phase)
  /-- `func` has run. A thread that has waited may hold the lock. -/
  | done (holder : Option τ)

/-- The flag while `w` is in the calls. -/
def flagIn {τ : Type} (w : τ) : List Phase → OnceFlag τ
  | [.makeLock] => ⟨1, none⟩
  | [.enter] => ⟨1, some .free⟩
  | [.announce] => ⟨1, some (.held w 0)⟩
  | [.leave] => ⟨3, some (.held w 0)⟩
  | [.release, .func] => ⟨2, some (.held w 1)⟩
  | _ => ⟨2, some (.held w 0)⟩

/-- How often the lock was initialized, and `func` has begun and ended. -/
def countsIn : List Phase → ℕ × ℕ × ℕ
  | [.makeLock] => (0, 0, 0)
  | [.enter] | [.announce] | [.call] => (1, 0, 0)
  | [.finish] | [.leave] => (1, 1, 1)
  | _ => (1, 1, 0)

namespace Stage

variable {τ : Type}

/-- The flag at a stage. -/
def flag : Stage τ → OnceFlag τ
  | fresh => ⟨0, none⟩
  | working w calls => flagIn w calls
  | done none => ⟨3, some .free⟩
  | done (some u) => ⟨3, some (.held u 0)⟩

/-- How often the lock has been initialized and `func` begun and ended, at a stage. -/
def counts : Stage τ → ℕ × ℕ × ℕ
  | fresh => (0, 0, 0)
  | working _ calls => countsIn calls
  | done _ => (1, 1, 1)

/-- The thread that is on its way through the stages, with its calls. -/
def owner : Stage τ → Option (τ × List Phase)
  | fresh => none
  | working w calls => some (w, calls)
  | done holder => holder.map fun u => (u, [.release])

end Stage

/-- The phases of a call that has not won and does not hold the lock. -/
def Phase.Idles (status : ℕ) : Phase → Prop
  | .test | .switch | .compareExchange => True
  | .wait => 2 ≤ status
  | _ => False

/-- The calls of a thread that is not on its way. -/
def Aside (status : ℕ) (calls : List Phase) : Prop :=
  ∀ p ps, calls = p :: ps → ps = [] ∧ p.Idles status

/-- The calls of the thread that has won. It waits for itself when it calls again from `func`. -/
def Wins : List Phase → Prop
  | [.makeLock] | [.enter] | [.announce] | [.call] | [.func] | [.finish] | [.leave] => True
  | [p, .func] => p.Idles 2 ∨ p = .release
  | _ => False

theorem Wins.tail {p : Phase} {ps : List Phase} (h : Wins (p :: ps)) : ps = [] ∨ ps = [.func] := by
  unfold Wins at h
  split at h
  case h_8 heq => exact .inr (List.cons.inj heq).2
  case h_9 => exact h.elim
  all_goals
    next heq => exact .inl (List.cons.inj heq).2

variable {τ : Type}

theorem Phase.Idles.mono {p : Phase} {m n : ℕ} (h : p.Idles m) (hmn : m ≤ n) : p.Idles n := by
  cases p with
  | wait => exact le_trans h hmn
  | _ => exact h

theorem Aside.mono {m n : ℕ} {calls : List Phase} (h : Aside m calls) (hmn : m ≤ n) :
    Aside n calls :=
  fun p ps hcalls => ⟨(h p ps hcalls).1, (h p ps hcalls).2.mono hmn⟩

theorem aside_nil (n : ℕ) : Aside n [] := fun _ _ h => by cases h

theorem aside_singleton {n : ℕ} {p : Phase} (h : p.Idles n) : Aside n [p] := by
  intro q ps hcalls
  cases hcalls
  exact ⟨rfl, h⟩

namespace Stage

variable {g : Stage τ}

theorem eq_fresh (h : g.flag.status = 0) : g = fresh := by
  cases g with
  | fresh => rfl
  | working w calls =>
    change (flagIn w calls).status = 0 at h
    unfold flagIn at h
    split at h <;> cases h
  | done holder => cases holder <;> cases h

theorem ended_of_status (h : 3 ≤ g.flag.status) : g.counts.2.2 = 1 := by
  cases g with
  | fresh => cases h
  | done holder => rfl
  | working w calls =>
    change 3 ≤ (flagIn w calls).status at h
    unfold flagIn at h
    split at h
    case h_4 => rfl
    all_goals
      simp only at h
      omega

/-- From status 2 on the lock is held, until the waiting threads have their turns. -/
theorem locked_of_status (h : 2 ≤ g.flag.status) : g = done none ∨
    ∃ w again, g.owner.map Prod.fst = some w ∧ g.flag.lock = some (.held w again) := by
  cases g with
  | fresh => cases h
  | done holder =>
    cases holder with
    | none => exact .inl rfl
    | some u => exact .inr ⟨u, 0, rfl, rfl⟩
  | working w calls =>
    refine .inr ⟨w, ?_⟩
    change 2 ≤ (flagIn w calls).status at h
    change ∃ again, some w = some w ∧ (flagIn w calls).lock = _
    unfold flagIn at h ⊢
    split at h
    case h_4 | h_5 | h_6 => exact ⟨_, rfl, rfl⟩
    all_goals
      simp only at h
      omega

end Stage

/-- **The invariant**: the state is that of its stage, and all threads but the owner are aside. -/
structure Inv (g : Stage τ) (s : State τ) : Prop where
  passed : s.misused = false
  flag : s.flag = g.flag
  counts : (s.initialized, s.begun, s.ended) = g.counts
  returned : 0 < s.returned → s.ended = 1
  owner : ∀ t calls, g.owner = some (t, calls) → s.calls t = calls
  wins : ∀ w calls, g = .working w calls → Wins calls
  aside : ∀ t, g.owner.map Prod.fst ≠ some t → Aside s.flag.status (s.calls t)

theorem inv_init : Inv .fresh (init : State τ) where
  passed := rfl
  flag := rfl
  counts := rfl
  returned h := by cases h
  owner _ _ h := by cases h
  wins _ _ h := by cases h
  aside _ _ := aside_nil 0

variable [DecidableEq τ] {g g' : Stage τ} {s s' : State τ} {t : τ} {c : List Phase}

/-- **A step of a thread that stays aside.** -/
theorem Inv.stay (h : Inv g s) (ht : g.owner.map Prod.fst ≠ some t)
    (hcalls : s'.calls = Function.update s.calls t c) (haside : Aside s.flag.status c)
    (hpassed : s'.misused = s.misused) (hflag : s'.flag = s.flag)
    (hcounts : (s'.initialized, s'.begun, s'.ended) = (s.initialized, s.begun, s.ended))
    (hreturned : 0 < s'.returned → s'.ended = 1) : Inv g s' where
  passed := hpassed.trans h.passed
  flag := hflag.trans h.flag
  counts := hcounts.trans h.counts
  returned := hreturned
  owner u ps hu := by
    have hne : u ≠ t := by
      rintro rfl
      rw [hu] at ht
      exact ht rfl
    rw [hcalls, Function.update_of_ne hne, h.owner u ps hu]
  wins := h.wins
  aside u hu := by
    rw [hcalls, hflag]
    by_cases hne : u = t
    · subst hne
      rw [Function.update_self]
      exact haside
    · rw [Function.update_of_ne hne]
      exact h.aside u hu

/-- **A step to the next stage**, by the thread that is on its way or as none is. -/
theorem Inv.move (h : Inv g s) (ht : ∀ u, g.owner.map Prod.fst = some u → u = t)
    (hcalls : s'.calls = Function.update s.calls t c) (hpassed : s'.misused = s.misused)
    (hflag : s'.flag = g'.flag) (hstatus : s.flag.status ≤ s'.flag.status)
    (hcounts : (s'.initialized, s'.begun, s'.ended) = g'.counts)
    (hreturned : 0 < s'.returned → s'.ended = 1)
    (howner : g'.owner = some (t, c) ∨ g'.owner = none ∧ Aside s'.flag.status c)
    (hwins : ∀ w ps, g' = .working w ps → Wins ps) : Inv g' s' where
  passed := hpassed.trans h.passed
  flag := hflag
  counts := hcounts
  returned := hreturned
  owner u ps hu := by
    obtain howner | ⟨hnone, -⟩ := howner
    · rw [hu] at howner
      cases howner
      rw [hcalls, Function.update_self]
    · rw [hu] at hnone
      cases hnone
  wins := hwins
  aside u hu := by
    rw [hcalls]
    by_cases hne : u = t
    · subst hne
      rw [Function.update_self]
      obtain howner | ⟨-, haside⟩ := howner
      · rw [howner] at hu
        exact absurd rfl hu
      · exact haside
    · rw [Function.update_of_ne hne]
      exact (h.aside u fun hsome => hne (ht u hsome)).mono hstatus

/-- A thread that has called again from `func` stays in that call. -/
def Stage.Keeps (g g' : Stage τ) : Prop :=
  ∀ w p, g = .working w [p, .func] → ∃ q, g' = .working w [q, .func]

omit [DecidableEq τ] in
theorem Stage.keeps_refl (g : Stage τ) : g.Keeps g := fun _ p h => ⟨p, h⟩

omit [DecidableEq τ] in
theorem Stage.keeps_of_singleton {w : τ} {p : Phase} : Keeps (.working w [p]) g' := by
  intro v q h
  cases h

omit [DecidableEq τ] in
theorem Stage.keeps_of_done {holder : Option τ} : Keeps (.done holder) g' := by
  intro v q h
  cases h

theorem Inv.idle (h : Inv g s) (ht : g.owner.map Prod.fst ≠ some t) {p q : Phase}
    (hp : s.calls t = [p]) (hq : q.Idles s.flag.status) : Inv g (s.goTo t q) := by
  have hcalls : (s.goTo t q).calls = Function.update s.calls t [q] := by
    rw [State.goTo, hp]
    rfl
  exact h.stay ht hcalls (aside_singleton hq) rfl rfl rfl h.returned

theorem Inv.win (h : Inv .fresh s) (hp : s.calls t = [.compareExchange]) :
    Inv (.working t [.makeLock]) ((s.setStatus 1).goTo t .makeLock) := by
  have hlock : s.flag.lock = none := by rw [h.flag]; rfl
  have hstatus : s.flag.status = 0 := by rw [h.flag]; rfl
  refine h.move (c := [.makeLock]) (fun u hu => by cases hu) ?_ rfl ?_ ?_ h.counts h.returned
    (.inl rfl) fun w ps hw => by cases hw; trivial
  · simp [State.goTo, State.setStatus, hp]
  · change (⟨1, s.flag.lock⟩ : OnceFlag τ) = ⟨1, none⟩
    rw [hlock]
  · rw [hstatus]
    exact Nat.zero_le _

theorem Inv.back (h : Inv g s) (ht : g.owner.map Prod.fst ≠ some t) (hp : s.calls t = [.test])
    (hstatus : 3 ≤ s.flag.status) : Inv g (s.return t) := by
  have hended : s.ended = 1 := by
    have hg := Stage.ended_of_status (h.flag ▸ hstatus)
    rwa [← h.counts] at hg
  have hcalls : (s.return t).calls = Function.update s.calls t [] := by
    rw [State.return, hp]
    rfl
  exact h.stay ht hcalls (aside_nil _) rfl rfl rfl fun _ => hended

/-- `EnterCriticalSection` of a thread that has waited. -/
theorem Inv.turn (h : Inv (.done none) s) (hp : s.calls t = [.wait])
    (hs : go s t .wait = some s') : Inv (.done (some t)) s' := by
  have hflag : s.flag = ⟨3, some .free⟩ := h.flag
  simp only [go, State.enter, hflag, enterCriticalSection, Option.map_some, Option.some.injEq] at hs
  subst hs
  refine h.move (c := [.release]) (fun u hu => by cases hu) ?_ rfl rfl ?_ h.counts h.returned
    (.inl rfl) fun w ps hw => by cases hw
  · simp [State.goTo, hp]
  · rw [hflag]
    exact le_rfl

/-- **A step of a thread aside.** -/
theorem inv_aside {p : Phase} (h : Inv g s) (ht : g.owner.map Prod.fst ≠ some t)
    (hp : s.calls t = [p]) (hidle : p.Idles s.flag.status) (hs : go s t p = some s') :
    ∃ g', Inv g' s' ∧ g.Keeps g' := by
  cases p with
  | test =>
    simp only [go, Option.some.injEq] at hs
    subst hs
    refine ⟨g, ?_, g.keeps_refl⟩
    split_ifs with hstatus
    · exact h.idle ht hp trivial
    · exact h.back ht hp (not_lt.mp hstatus)
  | switch =>
    simp only [go, Option.some.injEq] at hs
    subst hs
    refine ⟨g, h.idle ht hp ?_, g.keeps_refl⟩
    split
    · trivial
    next hstatus => exact hstatus.ge
    · trivial
  | compareExchange =>
    simp only [go, Option.some.injEq] at hs
    subst hs
    split_ifs with hstatus
    · obtain rfl : g = .fresh := Stage.eq_fresh (h.flag ▸ hstatus)
      exact ⟨_, h.win hp, fun w p hw => by cases hw⟩
    · exact ⟨g, h.idle ht hp trivial, g.keeps_refl⟩
  | wait =>
    have hlock : s.flag.lock = g.flag.lock := congrArg OnceFlag.lock h.flag
    obtain hdone | ⟨w, again, howner, hheld⟩ := Stage.locked_of_status (h.flag ▸ hidle)
    · subst hdone
      exact ⟨.done (some t), h.turn hp hs, Stage.keeps_of_done⟩
    · have hne : w ≠ t := by
        rintro rfl
        exact ht howner
      simp [go, State.enter, hlock, hheld, enterCriticalSection, hne] at hs
  | _ => exact hidle.elim

/-- A step of the thread that has won. -/
theorem Inv.work {w : τ} {ps : List Phase} (h : Inv (.working w ps) s)
    (hcalls : s'.calls = Function.update s.calls w c) (hpassed : s'.misused = s.misused)
    (hflag : s'.flag = flagIn w c) (hstatus : s.flag.status ≤ s'.flag.status)
    (hcounts : (s'.initialized, s'.begun, s'.ended) = countsIn c)
    (hreturned : 0 < s'.returned → s'.ended = 1) (hwins : Wins c) :
    Inv (.working w c) s' := by
  refine h.move (fun u hu => (Option.some.inj hu).symm) hcalls hpassed hflag hstatus hcounts
    hreturned (.inl rfl) fun v qs hv => ?_
  cases hv
  exact hwins

/-- The stage after the next step of the thread that has won. -/
def Stage.after (w : τ) : Phase → Stage τ
  | .makeLock => .working w [.enter]
  | .enter => .working w [.announce]
  | .announce => .working w [.call]
  | .call => .working w [.func]
  | .func => .working w [.finish]
  | .finish => .working w [.leave]
  | _ => .done none

/-- **A step of the thread that has won**, in a call of its own. -/
theorem inv_winner {w : τ} {p : Phase} (h : Inv (.working w [p]) s)
    (hs : go s w p = some s') : Inv (.after w p) s' := by
  have hp : s.calls w = [p] := h.owner w [p] rfl
  have hflag : s.flag = flagIn w [p] := h.flag
  have hcounts : (s.initialized, s.begun, s.ended) = countsIn [p] := h.counts
  have hto {f : State τ} {q : Phase} (hf : f.calls = s.calls) :
      (f.goTo w q).calls = Function.update s.calls w [q] := by
    rw [State.goTo, hf, hp]
    rfl
  cases p with
  | makeLock =>
    simp only [countsIn, Prod.mk.injEq] at hcounts
    simp only [go, Option.some.injEq] at hs
    subst hs
    refine h.work (c := [.enter]) (hto rfl) rfl ?_ le_rfl ?_ h.returned trivial
    · simp [State.goTo, hflag, flagIn]
    · simp [State.goTo, hcounts, countsIn]
  | enter =>
    simp only [go, State.enter, hflag, flagIn, enterCriticalSection, Option.map_some,
      Option.some.injEq] at hs
    subst hs
    refine h.work (c := [.announce]) (hto rfl) rfl ?_ ?_ hcounts h.returned trivial
    · rfl
    · rw [hflag]
      exact le_rfl
  | announce =>
    simp only [go, Option.some.injEq] at hs
    subst hs
    refine h.work (c := [.call]) (hto rfl) rfl ?_ ?_ hcounts h.returned trivial
    · simp [State.goTo, State.setStatus, hflag, flagIn]
    · simp [State.goTo, State.setStatus, hflag, flagIn]
  | call =>
    simp only [countsIn, Prod.mk.injEq] at hcounts
    simp only [go, Option.some.injEq] at hs
    subst hs
    refine h.work (c := [.func]) (hto rfl) rfl hflag le_rfl ?_ h.returned trivial
    simp [State.goTo, hcounts, countsIn]
  | func =>
    simp only [countsIn, Prod.mk.injEq] at hcounts
    simp only [go, Option.some.injEq] at hs
    subst hs
    refine h.work (c := [.finish]) (hto rfl) rfl hflag le_rfl ?_ (fun _ => ?_) trivial
    · simp [State.goTo, hcounts, countsIn]
    · simp [State.goTo, hcounts]
  | finish =>
    simp only [go, Option.some.injEq] at hs
    subst hs
    refine h.work (c := [.leave]) (hto rfl) rfl ?_ ?_ hcounts h.returned trivial
    · simp [State.goTo, State.setStatus, hflag, flagIn]
    · simp [State.goTo, State.setStatus, hflag, flagIn]
  | leave =>
    simp only [go, Option.some.injEq] at hs
    subst hs
    refine h.move (c := []) (fun u hu => (Option.some.inj hu).symm) ?_ rfl ?_ ?_ hcounts
      (fun _ => (Prod.mk.inj (Prod.mk.inj hcounts).2).2) (.inr ⟨rfl, aside_nil _⟩)
      fun v qs hv => by cases hv
    · simp [State.return, State.leave, hp]
    · simp [State.return, State.leave, hflag, flagIn, Stage.flag, Stage.after]
    · simp [State.return, State.leave]
  | _ => exact (h.wins w _ rfl).elim

/-- **A step of the thread that has won**, when it has called again from `func`. -/
theorem inv_again {w : τ} {p : Phase} (h : Inv (.working w [p, .func]) s)
    (hs : go s w p = some s') : ∃ q, Inv (.working w [q, .func]) s' := by
  have hp : s.calls w = [p, .func] := h.owner w [p, .func] rfl
  have hto {f : State τ} {q : Phase} (hf : f.calls = s.calls) :
      (f.goTo w q).calls = Function.update s.calls w [q, .func] := by
    rw [State.goTo, hf, hp]
    rfl
  have hflag : s.flag = flagIn w [p, .func] := h.flag
  have hcounts : (s.initialized, s.begun, s.ended) = (1, 1, 0) := by
    refine h.counts.trans ?_
    cases p <;> rfl
  have hstatus : s.flag.status = 2 := by
    rw [hflag]
    cases p <;> rfl
  cases p with
  | test =>
    simp only [go, hstatus, Option.some.injEq] at hs
    subst hs
    exact ⟨.switch, h.work (hto rfl) rfl hflag le_rfl hcounts h.returned (.inl trivial)⟩
  | switch =>
    simp only [go, hstatus, Option.some.injEq] at hs
    subst hs
    exact ⟨.wait, h.work (hto rfl) rfl hflag le_rfl hcounts h.returned (.inl le_rfl)⟩
  | compareExchange =>
    simp only [go, hstatus, Option.some.injEq] at hs
    subst hs
    exact ⟨.test, h.work (hto rfl) rfl hflag le_rfl hcounts h.returned (.inl trivial)⟩
  | wait =>
    simp only [go, State.enter, hflag, flagIn, enterCriticalSection, if_true, Option.map_some,
      Option.some.injEq] at hs
    subst hs
    refine ⟨.release, h.work (hto rfl) rfl rfl ?_ hcounts h.returned (.inr rfl)⟩
    rw [hflag]
    exact le_rfl
  | release =>
    simp only [go, Option.some.injEq] at hs
    subst hs
    refine ⟨.test, h.work (hto rfl) rfl ?_ le_rfl hcounts h.returned (.inl trivial)⟩
    simp [State.goTo, State.leave, hflag, flagIn]
  | _ =>
    obtain hidle | hrelease := h.wins w _ rfl
    · exact hidle.elim
    · cases hrelease

/-- A thread that has waited lets the next one in. -/
theorem inv_waited (h : Inv (.done (some t)) s) (hs : go s t .release = some s') :
    Inv (.done none) s' := by
  have hp : s.calls t = [.release] := h.owner t [.release] rfl
  have hflag : s.flag = ⟨3, some (.held t 0)⟩ := h.flag
  simp only [go, Option.some.injEq] at hs
  subst hs
  refine h.move (c := [.test]) (fun u hu => (Option.some.inj hu).symm) ?_ rfl ?_ le_rfl
    h.counts h.returned (.inr ⟨rfl, aside_singleton trivial⟩) fun v qs hv => by cases hv
  · simp [State.goTo, State.leave, hp]
  · simp [State.goTo, State.leave, hflag, Stage.flag]

theorem inv_call (h : Inv g s) (hmay : mayCall (s.calls t) = true) :
    ∃ g', Inv g' { s with calls := Function.update s.calls t (.test :: s.calls t) } ∧
      g.Keeps g' := by
  by_cases ht : g.owner.map Prod.fst = some t
  · -- the thread that has won calls again
    cases g with
    | fresh => cases ht
    | done holder =>
      obtain ⟨x, hx, rfl⟩ := Option.map_eq_some_iff.mp ht
      obtain ⟨u, rfl, rfl⟩ := Option.map_eq_some_iff.mp hx
      rw [h.owner _ _ rfl] at hmay
      cases hmay
    | working w ps =>
      cases ht
      have hcalls : s.calls w = ps := h.owner w ps rfl
      have hwins := h.wins w ps rfl
      rw [hcalls] at hmay ⊢
      obtain rfl : ps = [.func] := by
        unfold Wins at hwins
        split at hwins
        case h_5 => rfl
        case h_8 p =>
          obtain rfl : p = .func := of_decide_eq_true hmay
          obtain hidle | hrelease := hwins
          · exact hidle.elim
          · cases hrelease
        case h_9 => exact hwins.elim
        all_goals cases hmay
      exact ⟨.working w [.test, .func], h.work rfl rfl h.flag le_rfl h.counts h.returned
        (.inl trivial), Stage.keeps_of_singleton⟩
  · have hnil : s.calls t = [] := by
      cases hcalls : s.calls t with
      | nil => rfl
      | cons p ps =>
        rw [hcalls] at hmay
        obtain rfl : p = .func := of_decide_eq_true hmay
        exact (h.aside t ht _ _ hcalls).2.elim
    refine ⟨g, h.stay (c := [.test]) ht ?_ (aside_singleton trivial) rfl rfl rfl h.returned,
      g.keeps_refl⟩
    change Function.update s.calls t (.test :: s.calls t) = _
    rw [hnil]

/-- **One step.** -/
theorem inv_step {a : Act τ} (h : Inv g s) (hs : step s a = some s') :
    ∃ g', Inv g' s' ∧ g.Keeps g' := by
  have hpassed : ¬ s.misused = true := by simp [h.passed]
  cases a with
  | call t =>
    simp only [step, if_neg hpassed] at hs
    split_ifs at hs with hmay
    cases hs
    exact inv_call h hmay
  | go t =>
    simp only [step, if_neg hpassed] at hs
    obtain ⟨p, hp, hgo⟩ := Option.bind_eq_some_iff.mp hs
    obtain ⟨ps, hcalls⟩ := List.head?_eq_some_iff.mp hp
    by_cases ht : g.owner.map Prod.fst = some t
    · cases g with
      | fresh => cases ht
      | done holder =>
        obtain ⟨x, hx, rfl⟩ := Option.map_eq_some_iff.mp ht
        obtain ⟨u, rfl, rfl⟩ := Option.map_eq_some_iff.mp hx
        obtain ⟨rfl, rfl⟩ := List.cons.inj (hcalls.symm.trans (h.owner _ _ rfl))
        exact ⟨.done none, inv_waited h hgo, Stage.keeps_of_done⟩
      | working w qs =>
        cases ht
        obtain rfl : qs = p :: ps := (h.owner _ _ rfl).symm.trans hcalls
        obtain rfl | rfl := (h.wins w _ rfl).tail
        · exact ⟨_, inv_winner h hgo, Stage.keeps_of_singleton⟩
        · obtain ⟨q, hq⟩ := inv_again h hgo
          refine ⟨_, hq, fun v r hv => ?_⟩
          cases hv
          exact ⟨q, rfl⟩
    · obtain ⟨rfl, hidle⟩ := h.aside t ht p ps hcalls
      exact inv_aside h ht hcalls hidle hgo

/-! ## The end of the calls -/

theorem step_go {p : Phase} {ps : List Phase} (h : Inv g s) (hp : s.calls t = p :: ps) :
    step s (.go t) = go s t p := by
  simp [step, h.passed, hp]

/-- `func` has run, or can still run to its end. -/
def CanFinish (s : State τ) : Prop := ∃ s', Reaches step s s' ∧ Inv (.done none) s'

theorem canFinish_of_step {a : Act τ} (hs : step s a = some s') (h : CanFinish s') :
    CanFinish s := by
  obtain ⟨s'', hreaches, hinv⟩ := h
  exact ⟨s'', .head hs hreaches, hinv⟩

/-- No step of the thread that has won blocks. -/
theorem canFinish_of_winner {w : τ} {p : Phase} (h : Inv (.working w [p]) s)
    (hnext : ∀ s', Inv (.after w p) s' → CanFinish s') : CanFinish s := by
  have hp : s.calls w = [p] := h.owner w [p] rfl
  have hflag : s.flag = flagIn w [p] := h.flag
  obtain ⟨s', hgo⟩ : ∃ s', go s w p = some s' := by
    cases p with
    | enter => exact ⟨_, by simp [go, State.enter, hflag, flagIn, enterCriticalSection]; rfl⟩
    | wait => exact (h.wins w _ rfl).elim
    | _ => exact ⟨_, rfl⟩
  exact canFinish_of_step ((step_go h hp).trans hgo) (hnext s' (inv_winner h hgo))

theorem canFinish_done (h : Inv (.done none) s) : CanFinish s := ⟨s, .refl s, h⟩

/-- **The thread that has won** gets to the end of its call on its own. -/
theorem canFinish_working {w : τ} {p : Phase} (h : Inv (.working w [p]) s) : CanFinish s := by
  have hleave (s : State τ) (h : Inv (.working w [.leave]) s) : CanFinish s :=
    canFinish_of_winner h fun _ => canFinish_done
  have hfinish (s : State τ) (h : Inv (.working w [.finish]) s) : CanFinish s :=
    canFinish_of_winner h hleave
  have hfunc (s : State τ) (h : Inv (.working w [.func]) s) : CanFinish s :=
    canFinish_of_winner h hfinish
  have hcall (s : State τ) (h : Inv (.working w [.call]) s) : CanFinish s :=
    canFinish_of_winner h hfunc
  have hannounce (s : State τ) (h : Inv (.working w [.announce]) s) : CanFinish s :=
    canFinish_of_winner h hcall
  have henter (s : State τ) (h : Inv (.working w [.enter]) s) : CanFinish s :=
    canFinish_of_winner h hannounce
  cases p with
  | makeLock => exact canFinish_of_winner h henter
  | enter => exact henter s h
  | announce => exact hannounce s h
  | call => exact hcall s h
  | func => exact hfunc s h
  | finish => exact hfinish s h
  | leave => exact hleave s h
  | _ => exact (h.wins w _ rfl).elim

/-- A thread that calls first wins. -/
theorem canFinish_fresh {p : Phase} {ps : List Phase} (h : Inv .fresh s)
    (hp : s.calls t = p :: ps) : CanFinish s := by
  have hnone : (Stage.fresh : Stage τ).owner.map Prod.fst ≠ some t := fun hsome => by cases hsome
  have hstatus {s : State τ} (h : Inv .fresh s) : s.flag.status = 0 := by rw [h.flag]; rfl
  have hexchange (s : State τ) (h : Inv .fresh s) (hp : s.calls t = [.compareExchange]) :
      CanFinish s := by
    refine canFinish_of_step ((step_go h hp).trans ?_) (canFinish_working (h.win hp))
    simp [go, hstatus h]
  have hswitch (s : State τ) (h : Inv .fresh s) (hp : s.calls t = [.switch]) : CanFinish s := by
    refine canFinish_of_step ((step_go h hp).trans ?_)
      (hexchange _ (h.idle (q := .compareExchange) hnone hp trivial) (by simp [State.goTo, hp]))
    simp [go, hstatus h]
  obtain ⟨rfl, hidle⟩ := h.aside t hnone p ps hp
  cases p with
  | test =>
    refine canFinish_of_step ((step_go h hp).trans ?_)
      (hswitch _ (h.idle (q := .switch) hnone hp trivial) (by simp [State.goTo, hp]))
    simp [go, hstatus h]
  | switch => exact hswitch s h hp
  | compareExchange => exact hexchange s h hp
  | wait =>
    have htwo : 2 ≤ s.flag.status := hidle
    rw [hstatus h] at htwo
    omega
  | _ => exact hidle.elim

/-- When `func` has run, the thread gets to the end of its call on its own. -/
def Ends (t : τ) (s : State τ) : Prop :=
  ∃ s', Reaches step s s' ∧ Inv (.done none) s' ∧ s'.calls = Function.update s.calls t []

theorem ends_of_step {a : Act τ} (hs : step s a = some s')
    (hcalls : s'.calls = Function.update s.calls t c) (h : Ends t s') : Ends t s := by
  obtain ⟨s'', hreaches, hinv, hs''⟩ := h
  refine ⟨s'', .head hs hreaches, hinv, ?_⟩
  rw [hs'', hcalls, Function.update_idem]

theorem goTo_calls (hp : (s.calls t).length = 1) (q : Phase) :
    (s.goTo t q).calls = Function.update s.calls t [q] := by
  obtain ⟨p, hp⟩ := List.length_eq_one_iff.mp hp
  rw [State.goTo, hp]
  rfl

theorem ends_test (h : Inv (.done none) s) (hp : s.calls t = [.test]) : Ends t s := by
  have hstatus : s.flag.status = 3 := by rw [h.flag]; rfl
  have hgo : go s t .test = some (s.return t) := by simp [go, hstatus]
  refine ⟨s.return t, .one ((step_go h hp).trans hgo), h.back (fun hsome => by cases hsome) hp
    hstatus.ge, ?_⟩
  rw [State.return, hp]
  rfl

theorem ends_release (h : Inv (.done (some t)) s) : Ends t s := by
  have hp : s.calls t = [.release] := h.owner t [.release] rfl
  have hcalls : ((s.leave t).goTo t .test).calls = Function.update s.calls t [.test] :=
    goTo_calls (s := s.leave t) (by simp [State.leave, hp]) .test
  refine ends_of_step (step_go h hp) hcalls (ends_test (inv_waited h rfl) ?_)
  rw [hcalls, Function.update_self]

/-- **A thread on its own**, when `func` has run. -/
theorem ends {p : Phase} {ps : List Phase} (h : Inv (.done none) s) (hp : s.calls t = p :: ps) :
    Ends t s := by
  have hnone : (Stage.done none : Stage τ).owner.map Prod.fst ≠ some t :=
    fun hsome => by cases hsome
  have hstatus : s.flag.status = 3 := by rw [h.flag]; rfl
  obtain ⟨rfl, hidle⟩ := h.aside t hnone p ps hp
  have hcalls (q : Phase) := goTo_calls (s := s) (t := t) (by rw [hp]; rfl) q
  have hback (hgo : go s t p = some (s.goTo t .test)) : Ends t s := by
    refine ends_of_step ((step_go h hp).trans hgo) (hcalls _)
      (ends_test (h.idle hnone hp trivial) ?_)
    rw [hcalls, Function.update_self]
  cases p with
  | test => exact ends_test h hp
  | switch => exact hback (by simp [go, hstatus])
  | compareExchange => exact hback (by simp [go, hstatus])
  | wait =>
    have hflag : s.flag = ⟨3, some .free⟩ := h.flag
    obtain ⟨s', hgo, hs'⟩ : ∃ s', go s t .wait = some s' ∧
        s'.calls = Function.update s.calls t [.release] :=
      ⟨{ s with flag := ⟨3, some (.held t 0)⟩ }.goTo t .release,
        by simp [go, State.enter, hflag, enterCriticalSection], hcalls _⟩
    exact ends_of_step ((step_go h hp).trans hgo) hs' (ends_release (h.turn hp hgo))
  | _ => exact hidle.elim

/-- All the calls of finitely many threads, one after the other. -/
theorem all_end (ts : List τ) (h : Inv (.done none) s) (hts : ∀ t, s.calls t ≠ [] → t ∈ ts) :
    ∃ s', Reaches step s s' ∧ ∀ t, s'.calls t = [] := by
  induction ts generalizing s with
  | nil => exact ⟨s, .refl s, fun t => by_contra fun ht => List.not_mem_nil (hts t ht)⟩
  | cons t ts ih =>
    cases hp : s.calls t with
    | nil =>
      refine ih h fun u hu => (List.mem_cons.mp (hts u hu)).resolve_left ?_
      rintro rfl
      exact hu hp
    | cons p ps =>
      obtain ⟨s₁, hreaches, hinv, hcalls⟩ := ends h hp
      obtain ⟨s', hrest, hs'⟩ := ih hinv fun u hu => by
        have hut : u ≠ t := by
          rintro rfl
          rw [hcalls, Function.update_self] at hu
          exact hu rfl
        rw [hcalls, Function.update_of_ne hut] at hu
        exact (List.mem_cons.mp (hts u hu)).resolve_left hut
      exact ⟨s', hreaches.trans hrest, hs'⟩

/-! ## Runs -/

/-- The thread that acts. -/
def Act.thread : Act τ → τ
  | .call t | .go t => t

theorem calls_go {p : Phase} {u : τ} (hs : go s t p = some s') (hu : u ≠ t) :
    s'.calls u = s.calls u := by
  have henter {q : Phase} (hs : s.enter t q = some s') : s'.calls u = s.calls u := by
    unfold State.enter at hs
    split at hs
    · cases hs
      rfl
    · obtain ⟨lock, -, rfl⟩ := Option.map_eq_some_iff.mp hs
      exact Function.update_of_ne hu _ _
  cases p with
  | enter | wait => exact henter hs
  | test | compareExchange =>
    simp only [go, Option.some.injEq] at hs
    subst hs
    split_ifs <;> exact Function.update_of_ne hu _ _
  | _ =>
    cases hs
    exact Function.update_of_ne hu _ _

theorem calls_step {a : Act τ} {u : τ} (hs : step s a = some s') (hu : u ≠ a.thread) :
    s'.calls u = s.calls u := by
  cases hmisused : s.misused with
  | true => simp [step, hmisused] at hs
  | false =>
    cases a with
    | call t =>
      simp only [step, hmisused, Bool.false_eq_true, if_false] at hs
      split_ifs at hs
      cases hs
      exact Function.update_of_ne hu _ _
    | go t =>
      simp only [step, hmisused, Bool.false_eq_true, if_false] at hs
      obtain ⟨p, -, hgo⟩ := Option.bind_eq_some_iff.mp hs
      exact calls_go hgo hu

theorem exists_callers {as : List (Act τ)} (h : exec step init as = some s) :
    ∃ ts : List τ, ∀ t, s.calls t ≠ [] → t ∈ ts := by
  refine invariant (fun s => ∃ ts : List τ, ∀ t, s.calls t ≠ [] → t ∈ ts) ?_
    ⟨[], fun t ht => absurd rfl ht⟩ h
  rintro s a s' ⟨ts, hts⟩ hs
  refine ⟨a.thread :: ts, fun t ht => List.mem_cons.mpr ?_⟩
  by_cases hta : t = a.thread
  · exact .inl hta
  · rw [calls_step hs hta] at ht
    exact .inr (hts t ht)

theorem inv_exec {as : List (Act τ)} (h : exec step init as = some s) : ∃ g, Inv g s :=
  invariant (fun s => ∃ g, Inv g s) (fun _ _ _ hinv hs => by
    obtain ⟨g, hg⟩ := hinv
    obtain ⟨g', hg', -⟩ := inv_step hg hs
    exact ⟨g', hg'⟩) ⟨.fresh, inv_init⟩ h

/-- Whoever has called again from `func` never returns from it. -/
theorem again_forever {w : τ} {p : Phase} (h : Inv (.working w [p, .func]) s)
    (hreaches : Reaches step s s') : s'.calls w ≠ [] := by
  obtain ⟨q, hq⟩ := Reaches.invariant (fun s => ∃ q, Inv (.working w [q, .func]) s)
    (fun s a s' hinv hs => by
      obtain ⟨q, hq⟩ := hinv
      obtain ⟨g', hg', hkeeps⟩ := inv_step hq hs
      obtain ⟨r, rfl⟩ := hkeeps w q rfl
      exact ⟨r, hg'⟩) ⟨p, h⟩ hreaches
  rw [hq.owner w _ rfl]
  exact List.cons_ne_nil _ _

theorem can_end {as : List (Act τ)} (h : exec step init as = some s) (hinv : Inv g s)
    (hflat : ∀ t, (s.calls t).length ≤ 1) :
    ∃ s', Reaches step s s' ∧ ∀ t, s'.calls t = [] := by
  have hfinish (hfinish : CanFinish s) : ∃ s', Reaches step s s' ∧ ∀ t, s'.calls t = [] := by
    obtain ⟨s₁, ⟨bs, hbs⟩, hdone⟩ := hfinish
    obtain ⟨ts, hts⟩ := exists_callers ((exec_append h).trans hbs)
    obtain ⟨s', hrest, hs'⟩ := all_end ts hdone hts
    exact ⟨s', .trans ⟨bs, hbs⟩ hrest, hs'⟩
  cases g with
  | fresh =>
    by_cases hcalls : ∀ t, s.calls t = []
    · exact ⟨s, .refl s, hcalls⟩
    · obtain ⟨t, ht⟩ := not_forall.mp hcalls
      obtain ⟨p, ps, hp⟩ := List.exists_cons_of_ne_nil ht
      exact hfinish (canFinish_fresh hinv hp)
  | working w ps =>
    have hlength := hflat w
    rw [hinv.owner w ps rfl] at hlength
    cases ps with
    | nil => exact (hinv.wins w _ rfl).elim
    | cons p ps =>
      obtain rfl : ps = [] := by simpa using hlength
      exact hfinish (canFinish_working hinv)
  | done holder =>
    cases holder with
    | none => exact hfinish (canFinish_done hinv)
    | some u =>
      obtain ⟨s₁, hreaches, hdone, -⟩ := ends_release hinv
      exact hfinish ⟨s₁, hreaches, hdone⟩

/-- **`call_once`**, in every state of every run. The lock is initialized at most once and never
used before, `func` runs at most once, and it has ended when any call returns. All calls can still
return, whatever else is under way, just when no thread has called again from `func`. -/
theorem called_once {as : List (Act τ)} (h : exec step init as = some s) :
    s.misused = false ∧ s.initialized ≤ 1 ∧ s.begun ≤ 1 ∧ (0 < s.returned → s.ended = 1) ∧
      ((∃ s', Reaches step s s' ∧ ∀ t, s'.calls t = []) ↔ ∀ t, (s.calls t).length ≤ 1) := by
  obtain ⟨g, hinv⟩ := inv_exec h
  have hcounts : g.counts.1 ≤ 1 ∧ g.counts.2.1 ≤ 1 := by
    cases g with
    | working w ps =>
      change (countsIn ps).1 ≤ 1 ∧ (countsIn ps).2.1 ≤ 1
      unfold countsIn
      split <;> decide
    | fresh => exact ⟨Nat.zero_le 1, Nat.zero_le 1⟩
    | done holder => exact ⟨le_rfl, le_rfl⟩
  rw [← hinv.counts] at hcounts
  refine ⟨hinv.passed, hcounts.1, hcounts.2, hinv.returned, fun hend t => ?_, can_end h hinv⟩
  obtain ⟨s', hreaches, hs'⟩ := hend
  by_cases ht : g.owner.map Prod.fst = some t
  · cases g with
    | fresh => cases ht
    | done holder =>
      obtain ⟨x, hx, rfl⟩ := Option.map_eq_some_iff.mp ht
      obtain ⟨u, rfl, rfl⟩ := Option.map_eq_some_iff.mp hx
      exact (congrArg List.length (hinv.owner u _ rfl)).le
    | working w ps =>
      cases ht
      have hcalls := hinv.owner w ps rfl
      cases ps with
      | nil => exact (hinv.wins w _ rfl).elim
      | cons p ps =>
        obtain rfl | rfl := (hinv.wins w _ rfl).tail
        · exact (congrArg List.length hcalls).le
        · exact absurd (hs' w) (again_forever hinv hreaches)
  · cases hcalls : s.calls t with
    | nil => exact Nat.zero_le 1
    | cons p ps =>
      obtain ⟨rfl, -⟩ := hinv.aside t ht p ps hcalls
      exact le_rfl

/-- Thread 0 wins and calls again from `func`, and thread 1 is about to wait. -/
def callAgain : List (Act ℕ) :=
  [.call 0, .call 1] ++ List.replicate 7 (.go 0) ++ [.go 1, .go 1, .call 0]

theorem called_once_sample : ∃ s, exec step init callAgain = some s ∧ s.begun = 1 ∧
    ¬ ∃ s', Reaches step s s' ∧ ∀ t, s'.calls t = [] := by
  obtain ⟨s, h⟩ : ∃ s, exec step init callAgain = some s := ⟨_, rfl⟩
  have hstate : (s.begun, (s.calls 0).length) = (1, 2) := by
    have hrun : (exec step init callAgain).map (fun s => (s.begun, (s.calls 0).length)) =
        some (1, 2) := by
      decide
    rwa [h, Option.map_some, Option.some.injEq] at hrun
  refine ⟨s, h, (Prod.mk.inj hstate).1, fun hend => ?_⟩
  have hflat := (called_once h).2.2.2.2.mp hend 0
  rw [(Prod.mk.inj hstate).2] at hflat
  exact absurd hflat (by decide)

end CallOnce

end RtcBase
