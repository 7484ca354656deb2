import RtcBase.Lib.Word

/-!
# `scoped_refptr` and `RefCountedObject`

Any number of threads, handles and objects. A handle is a variable of a thread or a member of an
object. A step is one access to a counter with what surrounds it, or what a call does between two
of them with variables of its own thread. An object is made with members that its thread has
filled before, and destroys them in the reverse order. The destructor of an object does nothing
else.

* `RefCounter.incRef`, `decRef`, `hasOneRef`: the counter, an `int` that wraps around;
* `Ptr`, `Slot`, `Object`, `Phase`, `Frame`, `State`: handles, objects and where the threads are;
* `Op`: the calls on handles;
* `State.start`, `State.go`, `step`: the first step of a call, and the next one.
-/

namespace RtcBase

open Word

/-- What `DecRef` returns. -/
inductive RefCountReleaseStatus where
  | kDroppedLastRef
  | kOtherRefsRemained
  deriving DecidableEq, Repr

namespace RefCounter

/-- `IncRef` on a `std::atomic<int>`, which wraps around. -/
def incRef (ref_count_ : ℤ) : ℤ := toInt32 (ref_count_ + 1)

/-- `DecRef`, from the value after the subtraction. -/
def decRef (ref_count_ : ℤ) : RefCountReleaseStatus × ℤ :=
  let ref_count_after_subtract := toInt32 (ref_count_ - 1)
  (if ref_count_after_subtract = 0 then .kDroppedLastRef else .kOtherRefsRemained,
    ref_count_after_subtract)

/-- Whether there is one reference. -/
def hasOneRef (ref_count_ : ℤ) : Bool := ref_count_ = 1

end RefCounter

namespace RefCount

variable {τ H O : Type}

/-! ## States -/

/-- `ptr_` of a handle. A pointer is `stale` while the reference that goes with it has not been
taken yet or has been given up. -/
inductive Ptr (O : Type) where
  | null
  | held (o : O)
  | stale (o : O)
  deriving DecidableEq, Repr

/-- What `ptr_` points to, also where it is stale. -/
def Ptr.get : Ptr O → Option O
  | .null => none
  | .held o | .stale o => some o

/-- Who has a handle: a thread, or an object as its member. -/
inductive Owner (τ O : Type) where
  | thread (t : τ)
  | member (o : O)
  deriving DecidableEq, Repr

/-- A `scoped_refptr`. -/
structure Slot (τ O : Type) where
  owner : Owner τ O
  ptr_ : Ptr O
  deriving DecidableEq, Repr

/-- The count of an object and the handles inside it, with what has happened to it. -/
structure Object (H : Type) where
  ref_count_ : ℤ
  members : List H
  /-- There has been a reference. -/
  everHeld : Bool
  /-- How many `DecRef` have returned `kDroppedLastRef`. -/
  dropped : ℕ
  /-- How often the object has been deleted. -/
  deleted : ℕ

/-- Where a thread is in a call on its handle `h`, outside of `Release`. `src` is the handle of the
thread that a pointer was copied from, if it was. -/
inductive Phase (H O : Type) where
  | idle
  /-- Before `AddRef` in a constructor. -/
  | construct (h : H) (o : O) (src : Option H)
  /-- Before `AddRef` in `operator=`. -/
  | assign (h : H) (o : O) (src : Option H)
  /-- Before `if (ptr_) ptr_->Release()` in `operator=`. -/
  | assignRelease (h : H) (p : Option O)
  /-- Before `ptr_ = p`. -/
  | assignStore (h : H) (p : Option O)
  deriving DecidableEq, Repr

/-- What is still to be done of the calls of `Release` that a thread is in. -/
inductive Frame (O : Type) where
  /-- The call itself: `DecRef`. -/
  | release (o : O)
  /-- `delete this`. -/
  | delete (o : O)
  deriving DecidableEq, Repr

/-- What a thread is doing, and the releases and deletions that it is in the middle of. -/
structure Thread (H O : Type) where
  phase : Phase H O := .idle
  stack : List (Frame O) := []
  deriving DecidableEq, Repr

/-- The handles, the objects and the threads. -/
structure State (τ H O : Type) where
  slots : H → Option (Slot τ O)
  objects : O → Option (Object H)
  threads : τ → Thread H O
  /-- The references that `release()` has given to its callers. -/
  taken : List O
  /-- An object that does not exist, or whose last reference has gone, has been used. -/
  fault : Bool

/-- There is nothing yet. -/
def init : State τ H O := ⟨fun _ => none, fun _ => none, fun _ => {}, [], false⟩

/-! ## References -/

/-- The reference that a handle holds. -/
def Ptr.refs : Ptr O → Multiset O
  | .held o => {o}
  | _ => 0

/-- The reference of a handle, if there is one of that name. -/
def slotRefs (slot : Option (Slot τ O)) : Multiset O :=
  match slot with
  | some sl => sl.ptr_.refs
  | none => 0

/-- The reference that an assignment has made and not stored yet. -/
def Phase.refs : Phase H O → Multiset O
  | .assignRelease _ (some o) | .assignStore _ (some o) => {o}
  | _ => 0

/-- The reference that is about to be released. -/
def Frame.refs : Frame O → Multiset O
  | .release o => {o}
  | .delete _ => 0

/-- All references on the stack of a thread. -/
def Thread.refs (th : Thread H O) : Multiset O := th.phase.refs + (th.stack.map Frame.refs).sum

section Step

variable [Fintype τ] [DecidableEq τ] [Fintype H] [DecidableEq H] [DecidableEq O]

/-- All references: those of handles, those that callers have taken, and those of calls. -/
def State.refs (s : State τ H O) : Multiset O :=
  ∑ h, slotRefs (s.slots h) + s.taken + ∑ t, (s.threads t).refs

namespace State

/-! ## Parts of steps -/

/-- `ptr_` of a variable of the thread. -/
def own (s : State τ H O) (t : τ) (h : H) : Option (Ptr O) :=
  match s.slots h with
  | some ⟨.thread t', p⟩ => if t' = t then some p else none
  | _ => none

/-- A handle of a thread gets a pointer. -/
def set (s : State τ H O) (t : τ) (h : H) (p : Ptr O) : State τ H O :=
  { s with slots := Function.update s.slots h (some ⟨.thread t, p⟩) }

/-- A thread goes on. -/
def phase (s : State τ H O) (t : τ) (phase : Phase H O) : State τ H O :=
  { s with threads := Function.update s.threads t { s.threads t with phase := phase } }

/-- The stack of a thread changes. -/
def stack (s : State τ H O) (t : τ) (stack : List (Frame O)) : State τ H O :=
  { s with threads := Function.update s.threads t { s.threads t with stack := stack } }

/-- `if (p) p->Release()`. -/
def callRelease (s : State τ H O) (t : τ) (p : Option O) : State τ H O :=
  match p with
  | some o => s.stack t (.release o :: (s.threads t).stack)
  | none => s

/-- The object, if it may be used. -/
def alive (s : State τ H O) (o : O) : Option (Object H) :=
  (s.objects o).filter fun obj => obj.dropped = 0

/-- `AddRef`. -/
def addRef (s : State τ H O) (o : O) : State τ H O :=
  match s.alive o with
  | some obj => { s with objects := Function.update s.objects o (some { obj with
      ref_count_ := RefCounter.incRef obj.ref_count_, everHeld := true }) }
  | none => { s with fault := true }

/-- `Release` up to `delete this`, where `rest` is to be done after it. -/
def release (s : State τ H O) (t : τ) (o : O) (rest : List (Frame O)) : State τ H O :=
  match s.alive o with
  | some obj =>
    match RefCounter.decRef obj.ref_count_ with
    | (.kDroppedLastRef, n) =>
      { s with objects := Function.update s.objects o (some { obj with
        ref_count_ := n, dropped := obj.dropped + 1 }) }.stack t (.delete o :: rest)
    | (.kOtherRefsRemained, n) =>
      { s with objects := Function.update s.objects o (some { obj with
        ref_count_ := n }) }.stack t rest
  | none => { s with fault := true }.stack t rest

/-- `delete this`: the members go, and those that are not null call `Release`. -/
def delete (s : State τ H O) (t : τ) (o : O) (rest : List (Frame O)) : State τ H O :=
  match s.objects o with
  | some obj =>
    let pointers := obj.members.reverse.filterMap fun h => (s.slots h).bind fun sl => sl.ptr_.get
    { s with
      slots := fun h => if h ∈ obj.members then none else s.slots h
      objects := Function.update s.objects o (some { obj with
        deleted := obj.deleted + 1 }) }.stack t (pointers.map Frame.release ++ rest)
  | none => { s with fault := true }.stack t rest

/-- A raw pointer may be used as long as there is a reference to the object, or if the object is
new. -/
def usable (s : State τ H O) (o : O) : Bool :=
  o ∈ s.refs || (s.objects o).any fun obj => !obj.everHeld

end State

/-! ## Steps -/

/-- The calls of a thread on its own handles. -/
inductive Op (H O : Type) where
  /-- `new RefCountedObject<T>(...)`. -/
  | new (o : O) (members : List H)
  /-- From a raw pointer, or without one. -/
  | construct (h : H) (p : Option O)
  /-- A copy, converting or not. -/
  | copy (h r : H)
  | move (h r : H)
  | assign (h : H) (p : Option O)
  | assignCopy (h r : H)
  | assignMove (h r : H)
  | swap (h r : H)
  | release (h : H)
  /-- `Release` on a pointer that `release()` has returned. -/
  | releaseTaken (o : O)
  | destroy (h : H)
  | hasOneRef (o : O)
  deriving DecidableEq, Repr

namespace State

/-- A call up to its first access to a counter. -/
def start (s : State τ H O) (t : τ) : Op H O → Option (State τ H O)
  | .new o members =>
    if s.objects o = none ∧ members.Nodup ∧ ∀ h ∈ members, (s.own t h).isSome then
      some { s with
        objects := Function.update s.objects o (some ⟨0, members, false, 0, 0⟩)
        slots := fun h =>
          if h ∈ members then (s.slots h).map fun sl => { sl with owner := .member o }
          else s.slots h }
    else none
  | .construct h p =>
    if (s.slots h).isSome then none
    else
      match p with
      | none => some (s.set t h .null)
      | some o => some ((s.set t h (.stale o)).phase t (.construct h o none))
  | .copy h r =>
    if (s.slots h).isSome then none
    else
      match s.own t r with
      | none => none
      | some p =>
        match p.get with
        | none => some (s.set t h .null)
        | some o => some ((s.set t h (.stale o)).phase t (.construct h o (some r)))
  | .move h r =>
    if (s.slots h).isSome then none
    else
      match s.own t r with
      | none => none
      | some p => some ((s.set t h p).set t r .null)
  | .assign h p =>
    match s.own t h with
    | none => none
    | some _ =>
      match p with
      | none => some (s.phase t (.assignRelease h none))
      | some o => some (s.phase t (.assign h o none))
  | .assignCopy h r =>
    match s.own t h, s.own t r with
    | some _, some p =>
      match p.get with
      | none => some (s.phase t (.assignRelease h none))
      | some o => some (s.phase t (.assign h o (some r)))
    | _, _ => none
  | .assignMove h r =>
    match s.own t h, s.own t r with
    | some old, some p =>
      if h = r then some s else some (((s.set t h p).set t r .null).callRelease t old.get)
    | _, _ => none
  | .swap h r =>
    match s.own t h, s.own t r with
    | some p, some q => some ((s.set t h q).set t r p)
    | _, _ => none
  | .release h =>
    match s.own t h with
    | none => none
    | some p => some { s.set t h .null with taken := p.get.toList ++ s.taken }
  | .releaseTaken o =>
    if o ∈ s.taken then some ({ s with taken := s.taken.erase o }.callRelease t (some o))
    else none
  | .destroy h =>
    match s.own t h with
    | none => none
    | some p =>
      some ({ s with slots := Function.update s.slots h none }.callRelease t p.get)
  | .hasOneRef o =>
    if s.usable o then
      match s.alive o with
      | some _ => some s
      | none => some { s with fault := true }
    else none

/-- The next step of a thread in a call. `AddRef` on a raw pointer needs one that may be used. -/
def go (s : State τ H O) (t : τ) : Option (State τ H O) :=
  match (s.threads t).stack with
  | .release o :: rest => some (s.release t o rest)
  | .delete o :: rest => some (s.delete t o rest)
  | [] =>
    match (s.threads t).phase with
    | .idle => none
    | .construct h o src =>
      if src.isSome ∨ s.usable o then some (((s.addRef o).set t h (.held o)).phase t .idle)
      else none
    | .assign h o src =>
      if src.isSome ∨ s.usable o then some ((s.addRef o).phase t (.assignRelease h (some o)))
      else none
    | .assignRelease h p =>
      match s.own t h with
      | none => none
      | some old =>
        match old.get with
        | none => some (s.phase t (.assignStore h p))
        | some q =>
          some (((s.set t h (.stale q)).phase t (.assignStore h p)).callRelease t (some q))
    | .assignStore h p =>
      match p with
      | none => some ((s.set t h .null).phase t .idle)
      | some o => some ((s.set t h (.held o)).phase t .idle)

end State

/-- A thread begins an operation, or makes its next step. -/
inductive Act (τ H O : Type) where
  | start (t : τ) (op : Op H O)
  | go (t : τ)
  deriving DecidableEq, Repr

/-- A thread begins an operation when it has ended the one before. -/
def step (s : State τ H O) : Act τ H O → Option (State τ H O)
  | .start t op => if s.threads t = {} then s.start t op else none
  | .go t => s.go t

end Step

end RefCount

end RtcBase
