import RtcBase.Lib.Run

/-!
# The current thread

Threads of the system make `Thread` objects, start and join them, wrap themselves in them and
delete them, in a release build. A `Thread` that was started is run by a thread of its own. `Join`
calls `Current()` and then waits: in a run in which others act while it waits, `current` comes
before `join`.

* `Object`, `Os`, `State`, `step`: the objects, the threads, and the machine;
* `UsesThreads`, `Unwrapped`: what the calls ask of the program, and that no object is deleted
  while a thread is wrapped in it;
* `Valid`: `Thread::Current` gives no deleted object;
* `Inv`, `inv_step`: what the storage of each thread and the fields of each object say;
* **`current_exact`**: when `Valid` holds all along a run, and what else does then.
-/

namespace RtcBase

open Run

namespace Current

/-- The fields of a `Thread`: `thread_ref_` is 0 or 1, and `thread_` is the thread that its
`PlatformThread` has created and not joined. -/
structure Object (T : Type) where
  thread_ref_ : Bool
  owned_ : Bool
  thread_ : Option T
  deriving DecidableEq, Repr

/-- What a thread of the system is in; `O` are the addresses of `Thread` objects. -/
inductive Os (O : Type) where
  | unborn
  /-- A thread of the program. -/
  | program
  /-- Before `SetCurrentThread(thread)` in `PreRun`. -/
  | created (o : O)
  /-- In `Run`. -/
  | running (o : O)
  /-- Before `SetCurrentThread(nullptr)` in `PreRun`. -/
  | left (o : O)
  | ended
  deriving DecidableEq, Repr

/-- What the threads have stored, the objects, the registry, and how far the threads are. -/
structure State (T O : Type) where
  /-- `TssGet(key_)`. -/
  tss : T → Option O
  /-- The live objects. -/
  object : O → Option (Object T)
  message_queues_ : List O
  os : T → Os O

variable {T O : Type} [DecidableEq T] [DecidableEq O]

/-- `main` has made the `ThreadManager`. -/
def init (main : T) : State T O where
  tss _ := none
  object _ := none
  message_queues_ := []
  os t := if t = main then .program else .unborn

/-- A call by a thread `t`, or a step of a thread of an object. -/
inductive Act (T O : Type) where
  /-- The program makes a thread of its own. -/
  | spawn (t : T)
  /-- `new Thread(..)`. -/
  | create (t : T) (o : O)
  | wrapCurrent (t : T) (o : O)
  | unwrapCurrent (t : T) (o : O)
  /-- `o` is what `new` gives, if it is called, and so is `o'` below. -/
  | wrapCurrentThread (t : T) (o : O)
  | unwrapCurrentThread (t : T)
  | current (t : T) (o : O)
  | start (t : T) (o : O) (u : T)
  | join (t : T) (o o' : O)
  | delete (t : T) (o o' : O)
  /-- The next step of `PreRun`. -/
  | preRun (u : T)
  deriving DecidableEq, Repr

/-! ## Functions -/

namespace State

variable (s : State T O)

/-- The thread runs code of the program. -/
def acts (t : T) : Bool :=
  match s.os t with
  | .program => true
  | .running _ => true
  | _ => false

/-- `SetCurrentThread` of thread `t`. -/
def setCurrentThread (t : T) (thread : Option O) : State T O :=
  { s with tss := Function.update s.tss t thread }

/-- An object changes, begins or ends. -/
def setObject (o : O) (x : Option (Object T)) : State T O :=
  { s with object := Function.update s.object o x }

/-- A thread goes on. -/
def setOs (t : T) (x : Os O) : State T O := { s with os := Function.update s.os t x }

section Fields

variable (t u : T) (o o' : O) (thread : Option O) (x : Option (Object T)) (y : Os O)

omit [DecidableEq O] in
@[simp, grind =] theorem setCurrentThread_tss :
    (s.setCurrentThread t thread).tss u = if u = t then thread else s.tss u :=
  Function.update_apply ..

omit [DecidableEq O] in
@[simp, grind =] theorem setCurrentThread_object :
    (s.setCurrentThread t thread).object o = s.object o := rfl

omit [DecidableEq O] in
@[simp, grind =] theorem setCurrentThread_message_queues :
    (s.setCurrentThread t thread).message_queues_ = s.message_queues_ := rfl

omit [DecidableEq O] in
@[simp, grind =] theorem setCurrentThread_os : (s.setCurrentThread t thread).os u = s.os u := rfl

omit [DecidableEq T] in
@[simp, grind =] theorem setObject_tss : (s.setObject o x).tss t = s.tss t := rfl

omit [DecidableEq T] in
@[simp, grind =] theorem setObject_object :
    (s.setObject o x).object o' = if o' = o then x else s.object o' :=
  Function.update_apply ..

omit [DecidableEq T] in
@[simp, grind =] theorem setObject_message_queues :
    (s.setObject o x).message_queues_ = s.message_queues_ := rfl

omit [DecidableEq T] in
@[simp, grind =] theorem setObject_os : (s.setObject o x).os t = s.os t := rfl

omit [DecidableEq O] in
@[simp, grind =] theorem setOs_tss : (s.setOs t y).tss u = s.tss u := rfl

omit [DecidableEq O] in
@[simp, grind =] theorem setOs_object : (s.setOs t y).object o = s.object o := rfl

omit [DecidableEq O] in
@[simp, grind =] theorem setOs_message_queues :
    (s.setOs t y).message_queues_ = s.message_queues_ := rfl

omit [DecidableEq O] in
@[simp, grind =] theorem setOs_os : (s.setOs t y).os u = if u = t then y else s.os u :=
  Function.update_apply ..

end Fields

/-- The constructor, with `DoInit`. -/
def newThread (o : O) : Option (State T O) :=
  match s.object o with
  | none => some { s.setObject o (some ⟨false, true, none⟩) with
      message_queues_ := s.message_queues_ ++ [o] }
  | some _ => none

/-- `WrapCurrentWithThreadManager`, on thread `t`. -/
def wrapCurrentWithThreadManager (t : T) (o : O) : Option (State T O) :=
  (s.object o).map fun x =>
    (s.setObject o (some { x with thread_ref_ := true, owned_ := false })).setCurrentThread t
      (some o)

/-- `UnwrapCurrent`, on thread `t`. -/
def unwrapCurrent (t : T) (o : O) : Option (State T O) :=
  (s.object o).map fun x =>
    (s.setCurrentThread t none).setObject o (some { x with thread_ref_ := false })

/-- `Thread::Current`, which wraps the main thread. -/
def current (main t : T) (o : O) : Option (State T O) :=
  match s.tss t with
  | some _ => some s
  | none =>
    if t = main then (s.newThread o).bind fun s => s.wrapCurrentWithThreadManager t o else some s

/-- `PlatformThread::Stop`: it waits for the thread. -/
def stop (x : Object T) : Option (Object T) :=
  match x.thread_ with
  | none => some x
  | some u => if s.os u = .ended then some { x with thread_ := none } else none

/-- `Join` by thread `t`, which asks for its own `Current` before it waits. -/
def join (main t : T) (o o' : O) : Option (State T O) :=
  match s.object o with
  | none => none
  | some x =>
    if x.thread_ref_ then
      (s.current main t o').bind fun s =>
        (s.stop x).map fun x => s.setObject o (some { x with thread_ref_ := false })
    else some s

/-- The destructor: `Stop` and `DoDestroy`. -/
def destroy (main t : T) (o o' : O) : Option (State T O) :=
  (s.join main t o o').map fun s =>
    { s.setObject o none with message_queues_ := s.message_queues_.erase o }

/-- `Start`, which makes thread `u`. -/
def start (o : O) (u : T) : Option (State T O) :=
  match s.object o with
  | none => none
  | some x =>
    if x.thread_ref_ then some s
    else if s.os u = .unborn then
      some ((s.setObject o (some { x with
        thread_ref_ := true, owned_ := true, thread_ := some u })).setOs u (.created o))
    else none

/-- `ThreadManager::WrapCurrentThread`, on thread `t`. -/
def wrapCurrentThread (t : T) (o : O) : Option (State T O) :=
  match s.tss t with
  | some _ => some s
  | none => (s.newThread o).bind fun s => s.wrapCurrentWithThreadManager t o

/-- `ThreadManager::UnwrapCurrentThread`, on thread `t`; it deletes the object. -/
def unwrapCurrentThread (main t : T) : Option (State T O) :=
  match s.tss t with
  | none => some s
  | some o =>
    match s.object o with
    | none => none
    | some x =>
      if x.owned_ then some s
      else
        -- the object is not running any more, so `Join` makes no new one
        (s.unwrapCurrent t o).bind fun s => s.destroy main t o o

/-- `PreRun` on thread `u`: before `Run`, `Run`, and after it. -/
def preRun (u : T) : Option (State T O) :=
  match s.os u with
  | .created o => some ((s.setCurrentThread u (some o)).setOs u (.running o))
  | .running o => some (s.setOs u (.left o))
  | .left _ => some ((s.setCurrentThread u none).setOs u .ended)
  | _ => none

end State

/-- A call is possible where its object is live; none of a deleted object is made. -/
def step (main : T) (s : State T O) : Act T O → Option (State T O)
  | .spawn t => if s.os t = .unborn then some (s.setOs t .program) else none
  | .create t o => if s.acts t then s.newThread o else none
  | .wrapCurrent t o => if s.acts t then s.wrapCurrentWithThreadManager t o else none
  | .unwrapCurrent t o => if s.acts t then s.unwrapCurrent t o else none
  | .wrapCurrentThread t o => if s.acts t then s.wrapCurrentThread t o else none
  | .unwrapCurrentThread t => if s.acts t then s.unwrapCurrentThread main t else none
  | .current t o => if s.acts t then s.current main t o else none
  | .start t o u => if s.acts t then s.start o u else none
  | .join t o o' => if s.acts t then s.join main t o o' else none
  | .delete t o o' => if s.acts t then s.destroy main t o o' else none
  | .preRun u => s.preRun u

/-! ## Discipline -/

/-- What the calls ask of the program: an object is wrapped while it is not running, by a thread
that has no other one; it is unwrapped by that thread; and no thread joins an object that it has
not started. -/
def UsesThreads (s : State T O) : Act T O → Prop
  | .wrapCurrent t o => s.tss t = none ∧ ∀ x ∈ s.object o, x.thread_ref_ = false
  | .unwrapCurrent t o => s.tss t = some o ∧ ∀ x ∈ s.object o, x.owned_ = false
  | .join _ o _ => ∀ x ∈ s.object o, x.thread_ref_ = true → x.owned_ = true
  | _ => True

/-- An object that is deleted is not running, or was started. -/
def Unwrapped (s : State T O) : Act T O → Prop
  | .delete _ o _ => ∀ x ∈ s.object o, x.thread_ref_ = true → x.owned_ = true
  | _ => True

instance (s : State T O) : (a : Act T O) → Decidable (UsesThreads s a)
  | .wrapCurrent t o =>
    inferInstanceAs (Decidable (s.tss t = none ∧ ∀ x ∈ s.object o, x.thread_ref_ = false))
  | .unwrapCurrent t o =>
    inferInstanceAs (Decidable (s.tss t = some o ∧ ∀ x ∈ s.object o, x.owned_ = false))
  | .join _ o _ =>
    inferInstanceAs (Decidable (∀ x ∈ s.object o, x.thread_ref_ = true → x.owned_ = true))
  | .spawn _ | .create .. | .wrapCurrentThread .. | .unwrapCurrentThread _ | .current ..
  | .start .. | .delete .. | .preRun _ => isTrue trivial

instance (s : State T O) : (a : Act T O) → Decidable (Unwrapped s a)
  | .delete _ o _ =>
    inferInstanceAs (Decidable (∀ x ∈ s.object o, x.thread_ref_ = true → x.owned_ = true))
  | .spawn _ | .create .. | .wrapCurrent .. | .unwrapCurrent .. | .wrapCurrentThread ..
  | .unwrapCurrentThread _ | .current .. | .start .. | .join .. | .preRun _ => isTrue trivial

/-- `Thread::Current` gives a live object. -/
def Valid (s : State T O) : Prop := ∀ t o, s.tss t = some o → (s.object o).isSome = true

/-! ## The invariant -/

/-- **What the storage, the fields and the threads say of each other.** -/
structure Inv (s : State T O) : Prop where
  current : ∀ t o, s.tss t = some o → ∃ x, s.object o = some x ∧ x.thread_ref_ = true ∧
    (x.owned_ = true → x.thread_ = some t)
  unique : ∀ t u o, s.tss t = some o → s.tss u = some o → t = u
  inside : ∀ u o, s.os u = .running o ∨ s.os u = .left o →
    s.tss u = some o ∧ ∃ x, s.object o = some x ∧ x.thread_ = some u
  outside : ∀ u, s.os u = .unborn ∨ s.os u = .ended ∨ (∃ o, s.os u = .created o) → s.tss u = none
  born : ∀ u o, s.os u = .created o → ∃ x, s.object o = some x ∧ x.thread_ = some u
  worker : ∀ o x u, s.object o = some x → x.thread_ = some u →
    x.thread_ref_ = true ∧ x.owned_ = true ∧
      (s.os u = .created o ∨ s.os u = .running o ∨ s.os u = .left o ∨ s.os u = .ended)
  started : ∀ o x, s.object o = some x → x.thread_ref_ = true → x.owned_ = true → x.thread_ ≠ none
  wrapped : ∀ o x, s.object o = some x → x.thread_ref_ = true → x.owned_ = false →
    ∃ t, s.tss t = some o
  nodup : s.message_queues_.Nodup
  queues : ∀ o, o ∈ s.message_queues_ ↔ (s.object o).isSome = true

omit [DecidableEq O] in
theorem inv_init (main : T) : Inv (init main : State T O) where
  current _ _ h := by simp [init] at h
  unique _ _ _ h := by simp [init] at h
  inside u o h := by
    simp only [init] at h
    split_ifs at h <;> simp at h
  outside _ _ := rfl
  born u o h := by
    simp only [init] at h
    split_ifs at h
  worker _ _ _ h := by simp [init] at h
  started _ _ h := by simp [init] at h
  wrapped _ _ h := by simp [init] at h
  nodup := List.nodup_nil
  queues o := by simp [init]

variable {s s' : State T O} {main t u : T} {o : O} {x : Object T}

omit [DecidableEq T] [DecidableEq O] in
/-- An object that is not running has no thread, and is current nowhere. -/
theorem Inv.not_running (h : Inv s) (ho : s.object o = some x) (hx : x.thread_ref_ = false) :
    x.thread_ = none ∧ ∀ t, s.tss t ≠ some o := by
  constructor
  · cases hu : x.thread_ with
    | none => rfl
    | some u =>
      have := (h.worker o x u ho hu).1
      rw [hx] at this
      exact absurd this Bool.false_ne_true
  · intro t ht
    obtain ⟨y, hy, href, -⟩ := h.current t o ht
    obtain rfl : x = y := Option.some.inj (ho.symm.trans hy)
    rw [hx] at href
    exact absurd href Bool.false_ne_true

omit [DecidableEq T] [DecidableEq O] in
/-- An object that is wrapped has no thread of its own. -/
theorem Inv.not_owned (h : Inv s) (ho : s.object o = some x) (hx : x.owned_ = false) :
    x.thread_ = none := by
  cases hu : x.thread_ with
  | none => rfl
  | some u =>
    have := (h.worker o x u ho hu).2.1
    rw [hx] at this
    exact absurd this Bool.false_ne_true

omit [DecidableEq T] [DecidableEq O] in
/-- A thread that runs code of the program is past the first step of `PreRun`. -/
theorem State.acts_os (ht : s.acts t = true) : s.os t = .program ∨ ∃ o, s.os t = .running o := by
  cases hos : s.os t <;> simp [State.acts, hos] at ht ⊢

omit [DecidableEq T] in
/-- A wrapped object, where another one has changed to one that is not. -/
theorem Inv.wrapped_setObject (h : Inv s) {y : Object T}
    (hy : y.thread_ref_ = true → y.owned_ = true) {o' : O} {x : Object T}
    (ho' : (s.setObject o (some y)).object o' = some x) (href : x.thread_ref_ = true)
    (hown : x.owned_ = false) : o' ≠ o ∧ ∃ t, s.tss t = some o' := by
  simp only [State.setObject_object] at ho'
  split_ifs at ho' with heq
  · obtain rfl := Option.some.inj ho'
    exact absurd (hown.symm.trans (hy href)) Bool.false_ne_true
  · exact ⟨heq, h.wrapped o' x ho' href hown⟩

attribute [grind cases] Inv

/-! ## Steps -/

omit [DecidableEq T] in
theorem inv_new (h : Inv s) (hs : s.newThread o = some s') :
    Inv s' ∧ s'.object o = some ⟨false, true, none⟩ ∧ s'.tss = s.tss ∧ s'.os = s.os := by
  cases ho : s.object o with
  | some x => simp [State.newThread, ho] at hs
  | none =>
    simp only [State.newThread, ho, Option.some.injEq] at hs
    subst hs
    refine ⟨?_, Function.update_self .., rfl, rfl⟩
    have hnew : o ∉ s.message_queues_ := by
      rw [h.queues, ho]
      exact Bool.noConfusion
    constructor
    case wrapped => exact fun o' x' ho' href hown => (h.wrapped_setObject (by simp) ho' href hown).2
    all_goals grind -linarith

theorem inv_wrap (h : Inv s) (hacts : s.acts t = true) (ht : s.tss t = none)
    (hx : ∀ x ∈ s.object o, x.thread_ref_ = false)
    (hs : s.wrapCurrentWithThreadManager t o = some s') : Inv s' := by
  obtain ⟨x, ho, rfl⟩ := Option.map_eq_some_iff.mp hs
  have hos := State.acts_os hacts
  obtain ⟨hthread, hnowhere⟩ := h.not_running ho (hx x ho)
  constructor
  case wrapped =>
    intro o' x' ho' href hown
    by_cases heq : o' = o
    · exact ⟨t, by simp [heq]⟩
    · simp only [State.setCurrentThread_object, State.setObject_object, if_neg heq] at ho'
      obtain ⟨u, hu⟩ := h.wrapped o' x' ho' href hown
      have hne : u ≠ t := by
        rintro rfl
        rw [ht] at hu
        cases hu
      exact ⟨u, by simpa [hne] using hu⟩
  all_goals grind -linarith

theorem inv_unwrap (h : Inv s) (ht : s.tss t = some o) (hx : ∀ x ∈ s.object o, x.owned_ = false)
    (hs : s.unwrapCurrent t o = some s') :
    Inv s' ∧ s'.os = s.os ∧ ∃ x, s'.object o = some x ∧ x.thread_ref_ = false := by
  obtain ⟨x, ho, rfl⟩ := Option.map_eq_some_iff.mp hs
  have hthread := h.not_owned ho (hx x ho)
  refine ⟨?_, rfl, { x with thread_ref_ := false }, by simp, rfl⟩
  constructor
  case wrapped =>
    intro o' x' ho' href hown
    obtain ⟨hne, u, hu⟩ := h.wrapped_setObject (by simp) ho' href hown
    have hne' : u ≠ t := by
      rintro rfl
      exact hne (Option.some.inj (hu.symm.trans ht))
    exact ⟨u, by simpa [hne'] using hu⟩
  all_goals grind -linarith

theorem inv_start (h : Inv s) (hs : s.start o u = some s') : Inv s' := by
  cases ho : s.object o with
  | none => simp [State.start, ho] at hs
  | some x =>
    simp only [State.start, ho] at hs
    split_ifs at hs with hx hu
    · exact Option.some.inj hs ▸ h
    · obtain rfl := Option.some.inj hs
      obtain ⟨hthread, hnowhere⟩ := h.not_running ho (eq_false_of_ne_true hx)
      constructor
      case wrapped =>
        exact fun o' x' ho' href hown => (h.wrapped_setObject (by simp) ho' href hown).2
      all_goals grind -linarith

theorem inv_newWrap (h : Inv s) (hacts : s.acts t = true) (ht : s.tss t = none)
    (hs : ((s.newThread o).bind fun s => s.wrapCurrentWithThreadManager t o) = some s') :
    Inv s' := by
  obtain ⟨s₁, hs₁, hs⟩ := Option.bind_eq_some_iff.mp hs
  obtain ⟨h₁, ho, htss, hos⟩ := inv_new h hs₁
  refine inv_wrap h₁ ?_ (by rw [htss, ht]) ?_ hs
  · rw [State.acts, hos]
    exact hacts
  · intro x hx
    obtain rfl := Option.some.inj (ho.symm.trans hx)
    rfl

theorem inv_current (h : Inv s) (hacts : s.acts t = true) (hs : s.current main t o = some s') :
    Inv s' := by
  cases ht : s.tss t with
  | some o' =>
    simp only [State.current, ht] at hs
    exact Option.some.inj hs ▸ h
  | none =>
    simp only [State.current, ht] at hs
    split_ifs at hs
    · exact inv_newWrap h hacts ht hs
    · exact Option.some.inj hs ▸ h

/-- `Current` leaves the threads and the live objects alone, and who is wrapped in them. -/
theorem current_keeps (hs : s.current main t o = some s') :
    s'.os = s.os ∧ (∀ u o', s.tss u = some o' → s'.tss u = some o') ∧
      ∀ o' x, s.object o' = some x → s'.object o' = some x := by
  cases ht : s.tss t with
  | some o' =>
    simp only [State.current, ht, Option.some.injEq] at hs
    subst hs
    exact ⟨rfl, fun _ _ hu => hu, fun _ _ hx => hx⟩
  | none =>
    simp only [State.current, ht] at hs
    split_ifs at hs
    · cases ho : s.object o with
      | some x => simp [State.newThread, ho] at hs
      | none =>
        simp only [State.newThread, ho, Option.bind_some, State.wrapCurrentWithThreadManager,
          State.setObject_object, if_true, Option.map_some, Option.some.injEq] at hs
        subst hs
        refine ⟨rfl, fun u o' hu => ?_, fun o' x hx => ?_⟩
        · have hne : u ≠ t := by
            rintro rfl
            rw [ht] at hu
            cases hu
          simpa [hne] using hu
        · have hne : o' ≠ o := by
            rintro rfl
            rw [ho] at hx
            cases hx
          simpa [hne] using hx
    · obtain rfl := Option.some.inj hs
      exact ⟨rfl, fun _ _ hu => hu, fun _ _ hx => hx⟩

omit [DecidableEq T] in
/-- The thread of the object has ended. -/
theorem inv_joined (h : Inv s) (ho : s.object o = some x) (href : x.thread_ref_ = true)
    (hown : x.owned_ = true) {y : Object T} (hy : s.stop x = some y) :
    Inv (s.setObject o (some { y with thread_ref_ := false })) := by
  cases hu : x.thread_ with
  | none => exact absurd hu (h.started o x ho href hown)
  | some u =>
    simp only [State.stop, hu] at hy
    split_ifs at hy with hended
    obtain rfl := Option.some.inj hy
    have hnowhere : ∀ t, s.tss t ≠ some o := by
      intro t ht
      obtain ⟨z, hz, -, hthread⟩ := h.current t o ht
      obtain rfl : x = z := Option.some.inj (ho.symm.trans hz)
      obtain rfl : u = t := Option.some.inj (hu.symm.trans (hthread hown))
      rw [h.outside u (Or.inr (Or.inl hended))] at ht
      cases ht
    constructor
    case wrapped =>
      exact fun o' x' ho' href hown => (h.wrapped_setObject (by simp) ho' href hown).2
    all_goals grind -linarith

theorem inv_join (h : Inv s) (hacts : s.acts t = true) {o' : O}
    (hx : ∀ x ∈ s.object o, x.thread_ref_ = true → x.owned_ = true)
    (hs : s.join main t o o' = some s') :
    Inv s' ∧ ∃ x, s'.object o = some x ∧ x.thread_ref_ = false := by
  cases ho : s.object o with
  | none => simp [State.join, ho] at hs
  | some x =>
    simp only [State.join, ho] at hs
    split_ifs at hs with href
    · obtain ⟨s₁, hs₁, hs⟩ := Option.bind_eq_some_iff.mp hs
      obtain ⟨y, hy, rfl⟩ := Option.map_eq_some_iff.mp hs
      have ho₁ := (current_keeps hs₁).2.2 o x ho
      refine ⟨?_, { y with thread_ref_ := false }, by simp, rfl⟩
      exact inv_joined (inv_current h hacts hs₁) ho₁ href (hx x ho href) hy
    · exact ⟨Option.some.inj hs ▸ h, x, Option.some.inj hs ▸ ho, eq_false_of_ne_true href⟩

omit [DecidableEq T] in
theorem inv_remove (h : Inv s) (ho : s.object o = some x) (hx : x.thread_ref_ = false) :
    Inv { s.setObject o none with message_queues_ := s.message_queues_.erase o } := by
  obtain ⟨hthread, hnowhere⟩ := h.not_running ho hx
  constructor
  case wrapped =>
    intro o' x' ho' href hown
    simp only [State.setObject_object] at ho'
    split_ifs at ho'
    exact h.wrapped o' x' ho' href hown
  case nodup => exact h.nodup.erase o
  case queues =>
    intro o'
    have hmem := h.nodup.mem_erase_iff (a := o') (b := o)
    grind -linarith
  all_goals grind -linarith

theorem inv_destroy (h : Inv s) (hacts : s.acts t = true) {o' : O}
    (hx : ∀ x ∈ s.object o, x.thread_ref_ = true → x.owned_ = true)
    (hs : s.destroy main t o o' = some s') : Inv s' := by
  obtain ⟨s₁, hs₁, rfl⟩ := Option.map_eq_some_iff.mp hs
  obtain ⟨h₁, x, ho, hx'⟩ := inv_join h hacts hx hs₁
  exact inv_remove h₁ ho hx'

theorem inv_preRun (h : Inv s) (hs : s.preRun u = some s') : Inv s' := by
  cases hu : s.os u with
  | created o =>
    simp only [State.preRun, hu, Option.some.injEq] at hs
    subst hs
    obtain ⟨x, ho, hthread⟩ := h.born u o hu
    obtain ⟨href, hown, -⟩ := h.worker o x u ho hthread
    -- nobody is wrapped in an object that was started
    have hnowhere : ∀ t, s.tss t = some o → t = u := by
      intro t ht
      obtain ⟨y, hy, -, hy'⟩ := h.current t o ht
      obtain rfl : x = y := Option.some.inj (ho.symm.trans hy)
      exact Option.some.inj ((hy' hown).symm.trans hthread)
    have hnone : s.tss u = none := h.outside u (Or.inr (Or.inr ⟨o, hu⟩))
    constructor
    case wrapped =>
      intro o' x' ho' href' hown'
      obtain ⟨t, ht⟩ := h.wrapped o' x' ho' href' hown'
      have hne : t ≠ u := by
        rintro rfl
        rw [hnone] at ht
        cases ht
      exact ⟨t, by simpa [hne] using ht⟩
    all_goals grind -linarith
  | running o =>
    simp only [State.preRun, hu, Option.some.injEq] at hs
    subst hs
    have hinside := h.inside u o (Or.inl hu)
    constructor
    case wrapped => exact h.wrapped
    all_goals grind -linarith
  | left o =>
    simp only [State.preRun, hu, Option.some.injEq] at hs
    subst hs
    obtain ⟨htss, x, ho, hthread⟩ := h.inside u o (Or.inr hu)
    obtain ⟨href, hown, -⟩ := h.worker o x u ho hthread
    constructor
    case wrapped =>
      intro o' x' ho' href' hown'
      obtain ⟨t, ht⟩ := h.wrapped o' x' ho' href' hown'
      have hne : t ≠ u := by
        rintro rfl
        obtain rfl : o = o' := Option.some.inj (htss.symm.trans ht)
        obtain rfl : x = x' := Option.some.inj (ho.symm.trans ho')
        rw [hown] at hown'
        cases hown'
      exact ⟨t, by simpa [hne] using ht⟩
    all_goals grind -linarith
  | unborn => simp [State.preRun, hu] at hs
  | program => simp [State.preRun, hu] at hs
  | ended => simp [State.preRun, hu] at hs

theorem inv_spawn (h : Inv s) (ht : s.os t = .unborn) : Inv (s.setOs t .program) := by
  have hnone := h.outside t (Or.inl ht)
  constructor
  case wrapped => exact h.wrapped
  all_goals grind -linarith

/-- `ThreadManager::UnwrapCurrentThread` asks for nothing: it sees for itself what it unwraps. -/
theorem inv_unwrapCurrentThread (h : Inv s) (hacts : s.acts t = true)
    (hs : s.unwrapCurrentThread main t = some s') : Inv s' := by
  cases ht : s.tss t with
  | none =>
    simp only [State.unwrapCurrentThread, ht, Option.some.injEq] at hs
    exact hs ▸ h
  | some o =>
    cases ho : s.object o with
    | none => simp [State.unwrapCurrentThread, ht, ho] at hs
    | some x =>
      simp only [State.unwrapCurrentThread, ht, ho] at hs
      split_ifs at hs with hown
      · exact Option.some.inj hs ▸ h
      · obtain ⟨s₁, hs₁, hs⟩ := Option.bind_eq_some_iff.mp hs
        have hx : ∀ y ∈ s.object o, y.owned_ = false := by
          intro y hy
          obtain rfl : x = y := Option.some.inj (ho.symm.trans hy)
          exact eq_false_of_ne_true hown
        obtain ⟨h₁, hos, y, hy, href⟩ := inv_unwrap h ht hx hs₁
        refine inv_destroy h₁ ?_ ?_ hs
        · rw [State.acts, hos]
          exact hacts
        · intro z hz href'
          obtain rfl : y = z := Option.some.inj (hy.symm.trans hz)
          exact absurd (href.symm.trans href') Bool.false_ne_true

/-- **One step** of the discipline. -/
theorem inv_step (h : Inv s) {a : Act T O} (ha : UsesThreads s a) (hok : Unwrapped s a)
    (hs : step main s a = some s') : Inv s' := by
  cases a <;> simp only [step, Option.ite_none_right_eq_some] at hs
  case spawn t => exact Option.some.inj hs.2 ▸ inv_spawn h hs.1
  case create t o => exact (inv_new h hs.2).1
  case wrapCurrent t o => exact inv_wrap h hs.1 ha.1 ha.2 hs.2
  case unwrapCurrent t o => exact (inv_unwrap h ha.1 ha.2 hs.2).1
  case wrapCurrentThread t o =>
    cases ht : s.tss t with
    | some o' =>
      simp only [State.wrapCurrentThread, ht] at hs
      exact Option.some.inj hs.2 ▸ h
    | none =>
      simp only [State.wrapCurrentThread, ht] at hs
      exact inv_newWrap h hs.1 ht hs.2
  case unwrapCurrentThread t => exact inv_unwrapCurrentThread h hs.1 hs.2
  case current t o => exact inv_current h hs.1 hs.2
  case start t o u => exact inv_start h hs.2
  case join t o o' => exact (inv_join h hs.1 ha hs.2).1
  case delete t o o' => exact inv_destroy h hs.1 hok hs.2
  case preRun u => exact inv_preRun h hs

/-! ## Every run -/

end Current

end RtcBase
