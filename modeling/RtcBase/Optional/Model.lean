import RtcBase.Lib.Lifetime

/-!
# `Optional`

Any number of `Optional`s of one type `T`. Each member function is a program over the `has_value_`
of the `Optional`s and the objects of type `T`. A program gives `none` where it uses an `Optional`
that does not exist, constructs a `T` over one, or uses a `T` where there is none. The marks for the
sanitizers are left out.

* `Rules`: what the operations of `T` do to its values;
* `State`, `M`: the `Optional`s and the objects; the programs;
* `new`, `delete`, `set`, `read`, `swapT`: the operations of `T`;
* `copy`, `move`, `assignCopy`, `assignMove`, `swap`, `reset`, `emplace`, …: the member functions;
* `Op`, `step`, `Legal`: a call, its step, and what its caller sees to;
* `equal`, `notEqual`, …, `valueOr`: the functions that only look.
-/

namespace RtcBase

open Lifetime

namespace Optional

/-- The operations of `T`. A copy has the value of its original. -/
structure Rules (T : Type) where
  /-- What the move constructor leaves of its argument. -/
  moved : T → T
  /-- What `u = std::move(v)` leaves of `v`. -/
  movedFrom : T → T → T
  /-- `v = std::move(v)`. -/
  selfMoved : T → T
  /-- There is a `swap` of this type, which exchanges the values. -/
  ownSwap : Bool
  eq : T → T → Bool
  ne : T → T → Bool

/-- Where an object of type `T` can be. -/
inductive Loc (ι : Type) where
  | value_ (i : ι)
  /-- The local object of `std::swap`. -/
  | tmp
  deriving DecidableEq, Repr

/-- The flags of the `Optional`s, and the objects of type `T`. -/
structure State (ι T : Type) where
  /-- `has_value_` of the `Optional`s that there are. -/
  has_value_ : ι → Option Bool
  store : Store (Loc ι) T

/-- No `Optional` has been made. -/
def init {ι T : Type} : State ι T := ⟨fun _ => none, Store.empty⟩

/-- A piece of the code: what it does to the state, if it may do so. -/
abbrev M (ι T α : Type) : Type := StateT (State ι T) Option α

variable {ι T : Type} [DecidableEq ι] (R : Rules T)

/-! ## `T` -/

/-- An operation on an object. -/
def onStore (f : Store (Loc ι) T → Option (Store (Loc ι) T)) : M ι T Unit :=
  fun s => (f s.store).map fun store => ((), { s with store := store })

/-- Placement `new`, which copies a value. -/
def new (l : Loc ι) (v : T) : M ι T Unit := onStore fun store => store.construct l v

/-- A call of the destructor of `T`. -/
def delete (l : Loc ι) : M ι T Unit := onStore fun store => store.destroy l

/-- An assignment to an object. -/
def set (l : Loc ι) (v : T) : M ι T Unit := onStore fun store => store.assign l v

/-- The value of an object. -/
def read (l : Loc ι) : M ι T T := fun s => (s.store.val l).map fun v => (v, s)

/-- The move constructor. -/
def moveNew (l l' : Loc ι) : M ι T Unit := do
  let v ← read l'
  new l v
  set l' (R.moved v)

/-- The move assignment. -/
def moveSet (l l' : Loc ι) : M ι T Unit := do
  let u ← read l
  let v ← read l'
  if l = l' then set l (R.selfMoved v)
  else
    set l v
    set l' (R.movedFrom u v)

/-- `using std::swap; swap(…)`. -/
def swapT (l l' : Loc ι) : M ι T Unit := do
  if R.ownSwap then
    let u ← read l
    let v ← read l'
    set l v
    set l' u
  else
    moveNew R .tmp l
    moveSet R l l'
    moveSet R l' .tmp
    delete .tmp

/-! ## `has_value_` -/

/-- The flag of an `Optional`. -/
def hasValue (i : ι) : M ι T Bool := fun s => (s.has_value_ i).map fun b => (b, s)

/-- An assignment to the flag. -/
def setHasValue (i : ι) (b : Bool) : M ι T Unit := fun s =>
  (s.has_value_ i).map fun _ =>
    ((), { s with has_value_ := Function.update s.has_value_ i (some b) })

/-- The members are initialised. -/
def enter (i : ι) (b : Bool) : M ι T Unit := fun s =>
  if s.has_value_ i = none then
    some ((), { s with has_value_ := Function.update s.has_value_ i (some b) })
  else none

/-- The `Optional` is no more. -/
def exit (i : ι) : M ι T Unit := fun s =>
  (s.has_value_ i).map fun _ => ((), { s with has_value_ := Function.update s.has_value_ i none })

/-! ## The member functions -/

/-- The constructors without a value. -/
def empty (i : ι) : M ι T Unit := enter i false

/-- The constructors from a value. -/
def ofValue (i : ι) (value : T) : M ι T Unit := do
  enter i true
  new (.value_ i) value

/-- The copy constructor. -/
def copy (i m : ι) : M ι T Unit := do
  enter i (← hasValue m)
  if ← hasValue i then new (.value_ i) (← read (.value_ m))

/-- The move constructor. -/
def move (i m : ι) : M ι T Unit := do
  enter i (← hasValue m)
  if ← hasValue i then moveNew R (.value_ i) (.value_ m)

/-- The destructor. -/
def destruct (i : ι) : M ι T Unit := do
  if ← hasValue i then delete (.value_ i)
  exit i

/-- The object of an `Optional` is destroyed. -/
def reset (i : ι) : M ι T Unit := do
  if ← hasValue i then
    delete (.value_ i)
    setHasValue i false

/-- The assignment of `nullopt`. -/
def assignNullopt (i : ι) : M ι T Unit := reset i

/-- The copy assignment. -/
def assignCopy (i m : ι) : M ι T Unit := do
  if ← hasValue m then
    if ← hasValue i then set (.value_ i) (← read (.value_ m))
    else
      new (.value_ i) (← read (.value_ m))
      setHasValue i true
  else reset i

/-- The move assignment. -/
def assignMove (i m : ι) : M ι T Unit := do
  if ← hasValue m then
    if ← hasValue i then moveSet R (.value_ i) (.value_ m)
    else
      moveNew R (.value_ i) (.value_ m)
      setHasValue i true
  else reset i

/-- Two objects are swapped, or the only one goes over. -/
def swap (m1 m2 : ι) : M ι T Unit := do
  if ← hasValue m1 then
    if ← hasValue m2 then swapT R (.value_ m1) (.value_ m2)
    else
      moveNew R (.value_ m2) (.value_ m1)
      delete (.value_ m1)
      setHasValue m1 false
      setHasValue m2 true
  else if ← hasValue m2 then
    moveNew R (.value_ m1) (.value_ m2)
    delete (.value_ m2)
    setHasValue m1 true
    setHasValue m2 false

/-- The new value does not come from the old one. -/
def emplace (i : ι) (value : T) : M ι T Unit := do
  if ← hasValue i then delete (.value_ i)
  new (.value_ i) value
  setHasValue i true

/-! ## Calls -/

/-- The operations that change `Optional`s. -/
inductive Op (ι T : Type) where
  | empty (i : ι)
  | ofValue (i : ι) (value : T)
  | copy (i m : ι)
  | move (i m : ι)
  | destruct (i : ι)
  | assignNullopt (i : ι)
  | assignCopy (i m : ι)
  | assignMove (i m : ι)
  | swap (m1 m2 : ι)
  | reset (i : ι)
  | emplace (i : ι) (value : T)
  deriving DecidableEq, Repr

/-- The code of an operation. -/
def Op.run : Op ι T → M ι T Unit
  | .empty i => Optional.empty i
  | .ofValue i value => Optional.ofValue i value
  | .copy i m => Optional.copy i m
  | .move i m => Optional.move R i m
  | .destruct i => Optional.destruct i
  | .assignNullopt i => Optional.assignNullopt i
  | .assignCopy i m => Optional.assignCopy i m
  | .assignMove i m => Optional.assignMove R i m
  | .swap m1 m2 => Optional.swap R m1 m2
  | .reset i => Optional.reset i
  | .emplace i value => Optional.emplace i value

/-- An operation as a step. -/
def step (s : State ι T) (op : Op ι T) : Option (State ι T) := (op.run R s).map Prod.snd

/-- What is constructed does not exist yet, and what is used does. -/
def Legal (exists_ : ι → Bool) : Op ι T → Prop
  | .empty i | .ofValue i _ => exists_ i = false
  | .copy i m | .move i m => exists_ i = false ∧ exists_ m = true
  | .destruct i | .assignNullopt i | .reset i | .emplace i _ => exists_ i = true
  | .assignCopy i m | .assignMove i m | .swap i m => exists_ i = true ∧ exists_ m = true

instance (exists_ : ι → Bool) : ∀ op : Op ι T, Decidable (Legal exists_ op)
  | .empty i | .ofValue i _ => inferInstanceAs (Decidable (exists_ i = false))
  | .copy i m | .move i m => inferInstanceAs (Decidable (exists_ i = false ∧ exists_ m = true))
  | .destruct i | .assignNullopt i | .reset i | .emplace i _ =>
    inferInstanceAs (Decidable (exists_ i = true))
  | .assignCopy i m | .assignMove i m | .swap i m =>
    inferInstanceAs (Decidable (exists_ i = true ∧ exists_ m = true))

/-- An operation that the language allows where these `Optional`s exist. -/
def LegalIn (s : State ι T) (op : Op ι T) : Prop := Legal (fun i => (s.has_value_ i).isSome) op

instance (s : State ι T) (op : Op ι T) : Decidable (LegalIn s op) :=
  inferInstanceAs (Decidable (Legal _ op))

/-! ## The functions that only look -/

/-- The value, `*opt`. -/
def value (i : ι) : M ι T T := read (.value_ i)

/-- The value, or a default. -/
def valueOr (i : ι) (default_val : T) : M ι T T := do
  if ← hasValue i then read (.value_ i) else return default_val

/-- Equality of two `Optional`s. -/
def equal (m1 m2 : ι) : M ι T Bool := do
  if (← hasValue m1) && (← hasValue m2) then
    return R.eq (← read (.value_ m1)) (← read (.value_ m2))
  else return (← hasValue m1) == (← hasValue m2)

/-- `opt == value`. -/
def equalValue (opt : ι) (value : T) : M ι T Bool := do
  if ← hasValue opt then return R.eq (← read (.value_ opt)) value else return false

/-- `value == opt`. -/
def valueEqual (value : T) (opt : ι) : M ι T Bool := do
  if ← hasValue opt then return R.eq value (← read (.value_ opt)) else return false

/-- `opt == nullopt`. -/
def equalNullopt (opt : ι) : M ι T Bool := do return !(← hasValue opt)

/-- Inequality of two `Optional`s. -/
def notEqual (m1 m2 : ι) : M ι T Bool := do
  if (← hasValue m1) && (← hasValue m2) then
    return R.ne (← read (.value_ m1)) (← read (.value_ m2))
  else return (← hasValue m1) != (← hasValue m2)

/-- `opt != value`. -/
def notEqualValue (opt : ι) (value : T) : M ι T Bool := do
  if ← hasValue opt then return R.ne (← read (.value_ opt)) value else return true

/-- `value != opt`. -/
def valueNotEqual (value : T) (opt : ι) : M ι T Bool := do
  if ← hasValue opt then return R.ne value (← read (.value_ opt)) else return true

/-- `opt != nullopt`. -/
def notEqualNullopt (opt : ι) : M ι T Bool := hasValue opt

end Optional

end RtcBase
