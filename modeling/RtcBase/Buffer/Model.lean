import RtcBase.Lib.Word

/-!
# `BufferT`

The functions of `buffer.h`. Sizes are `size_t` and wrap around. A null pointer is a block without
cells. New memory holds anything; if there is none, or if a setter throws, the run is over. A
source is outside the buffer.

* `Cell`, `Block`: memory, with a mark on the cells that hold an element;
* `Build`: what is fixed when the program is built, and what new memory holds;
* `Setter`: the functions that fill a view;
* `Realloc`: what a call has done to get memory;
* `ensureCapacityWithHeadroom`, `appendData`, `appendDataSetter`, `setData`, `setDataSetter`,
  `setSize`, `clear`: calls on one buffer;
* `moveConstruct`, `moveAssign`, `moveAssignSelf`, `swap`: calls on two;
* `World`, `Call`, `step`: calls on any number of buffers.
-/

namespace RtcBase

open Word

namespace BufferT

/-- A failed `RTC_DCHECK` or `RTC_CHECK`; cells outside the block, or outside the source, that are
copied, zeroed or handed to a setter; a call on a buffer that does not exist, or the construction
of one that does. -/
inductive Fault where
  | dcheck
  | check
  | bounds
  | object
  deriving DecidableEq, Repr

/-- `held` is not in the program: it says that the cell has been an element, or that data was
stored there, since it was allocated or zeroed. -/
structure Cell (T : Type) where
  value : T
  held : Bool
  deriving DecidableEq, Repr

/-- The cell of an element of the program. -/
def Cell.holding {T : Type} (v : T) : Cell T := ⟨v, true⟩

/-- The cell, once it is inside `size_`. -/
def Cell.hold {T : Type} (c : Cell T) : Cell T := { c with held := true }

/-- What `data_` points to. -/
abbrev Block (T : Type) : Type := List (Cell T)

/-- What is fixed when the program is built, and what its allocator hands out. -/
structure Build (T : Type) where
  zeroOnFree : Bool
  dcheckIsOn : Bool
  /-- The element whose bytes are all 0. -/
  zero : T
  /-- What is in a new block, cell by cell; the first number counts the calls. -/
  fresh : ℕ → ℕ → T

/-- A function that fills a view. For a view that holds `view`, `run view` lists what is stored in
its cells, with `none` where nothing is, and gives the number that is returned. -/
structure Setter (T : Type) where
  run : List T → List (Option T) × ℕ
  length_run : ∀ view, (run view).1.length ≤ view.length

/-- The setter touches only the prefix that it reports. -/
def Setter.TouchesPrefix {T : Type} (setter : Setter T) : Prop :=
  ∀ view, ∀ s ∈ (setter.run view).1.drop (setter.run view).2, s = none

end BufferT

open BufferT

/-- The three fields; `data_` may be null. -/
structure BufferT (T : Type) where
  size_ : ℕ
  capacity_ : ℕ
  data_ : Option (Block T)
  deriving DecidableEq, Repr

namespace BufferT

variable {T : Type}

/-! ## Memory -/

/-- The cells of the buffer, none if it has no block. -/
def block (b : BufferT T) : Block T := b.data_.getD []

/-- `new T[n]`. -/
def newBlock (fresh : ℕ → T) (n : ℕ) : Block T := (List.range n).map fun i => ⟨fresh i, false⟩

/-- `new` in place of the cells from `i` on. -/
def overwrite (block : Block T) (i : ℕ) (new : Block T) : Block T :=
  block.take i ++ new ++ block.drop (i + new.length)

/-- `memcpy` or `memset` to the cells from `i` on. -/
def write (b : BufferT T) (i : ℕ) (cells : Block T) : Except Fault (BufferT T) :=
  if i + cells.length ≤ b.block.length then
    .ok { b with data_ := b.data_.map fun block => overwrite block i cells }
  else .error .bounds

/-- The `n` cells from `i` on. -/
def read (b : BufferT T) (i n : ℕ) : Except Fault (Block T) :=
  if i + n ≤ b.block.length then .ok ((b.block.drop i).take n) else .error .bounds

/-- The source of a `memcpy` into the buffer. -/
def source (data : List T) (size : ℕ) : Except Fault (Block T) :=
  if size ≤ data.length then .ok ((data.take size).map Cell.holding) else .error .bounds

/-- A view after a setter has stored in it; `cell v` is a cell that holds `v`. -/
def storeAll {α : Type} (cell : T → α) : List α → List (Option T) → List α
  | view, [] => view
  | [], _ => []
  | c :: view, s :: stores => (s.map cell).getD c :: storeAll cell view stores

/-- What a call has done to get memory: the blocks that it has released, and the number of elements
that it has copied into a new block. -/
structure Realloc (T : Type) where
  released : List (Block T)
  copied : ℕ
  deriving DecidableEq, Repr

/-! ## Private functions -/

/-- What every public function checks. -/
def isConsistent (b : BufferT T) : Bool :=
  (b.data_.isSome || b.capacity_ = 0) && b.size_ ≤ b.capacity_

section Build

variable (build : Build T)

/-- `RTC_DCHECK`, where it is compiled in. -/
def dcheck (p : Bool) : Except Fault Unit :=
  if build.dcheckIsOn && !p then .error .dcheck else .ok ()

/-- What `memset` leaves of `n` elements. -/
def zeros (n : ℕ) : Block T := List.replicate n ⟨build.zero, false⟩

/-- All of the block is zeroed, where the type of the buffer asks for it. -/
def maybeZeroCompleteBuffer (b : BufferT T) : Except Fault (BufferT T) :=
  if build.zeroOnFree ∧ 0 < b.capacity_ then b.write 0 (zeros build b.capacity_) else .ok b

/-- `count` elements behind `size_` are zeroed. -/
def zeroTrailingData (b : BufferT T) (count : ℕ) : Except Fault (BufferT T) := do
  dcheck build b.isConsistent
  dcheck build (count ≤ sizeSub b.capacity_ b.size_)
  b.write b.size_ (zeros build count)

/-- What a buffer that has given its block away is left with. -/
def onMovedFrom (b : BufferT T) : Except Fault (BufferT T) := do
  dcheck build b.data_.isNone
  if build.dcheckIsOn then return { b with size_ := 1, capacity_ := 0 }
  else return { b with size_ := 0, capacity_ := 0 }

variable (fresh : ℕ → T)

/-- A greater block, half as large again if there is to be headroom, into which the elements are
copied. -/
def ensureCapacityWithHeadroom (b : BufferT T) (capacity : ℕ) (extra_headroom : Bool) :
    Except Fault (BufferT T × Realloc T) := do
  dcheck build b.isConsistent
  if capacity ≤ b.capacity_ then return (b, ⟨[], 0⟩)
  else
    let new_capacity :=
      if extra_headroom then max capacity (sizeT (b.capacity_ + b.capacity_ / 2)) else capacity
    let elements ← b.read 0 b.size_
    let new_data ← write ⟨0, new_capacity, some (newBlock fresh new_capacity)⟩ 0 elements
    let b ← b.maybeZeroCompleteBuffer build
    let realloc := ⟨b.data_.toList, elements.length⟩
    let b := { b with data_ := new_data.data_, capacity_ := new_capacity }
    dcheck build b.isConsistent
    return (b, realloc)

/-! ## Construction and destruction -/

/-- `BufferT()`. -/
def empty : Except Fault (BufferT T) := do
  let b : BufferT T := ⟨0, 0, none⟩
  dcheck build b.isConsistent
  return b

/-- `BufferT(size, capacity)`; `BufferT(size)` is the case of two equal numbers. -/
def ofSize (size capacity : ℕ) : Except Fault (BufferT T) := do
  let capacity_ := max size capacity
  let data_ := if 0 < capacity_ then some (newBlock fresh capacity_) else none
  let b : BufferT T := ⟨size, capacity_, data_⟩
  dcheck build b.isConsistent
  return b

/-- `BufferT(data, size, capacity)`. -/
def ofData (data : List T) (size capacity : ℕ) : Except Fault (BufferT T) := do
  let b ← ofSize build fresh size capacity
  let cells ← source data size
  b.write 0 cells

/-- The destructor. -/
def destroy (b : BufferT T) : Except Fault (List (Block T)) := do
  let b ← b.maybeZeroCompleteBuffer build
  return b.data_.toList

/-! ## Contents -/

/-- The end of `SetSize` and of both forms of `SetData`. -/
def zeroOld (b : BufferT T) (old_size : ℕ) : Except Fault (BufferT T) :=
  if build.zeroOnFree ∧ b.size_ < old_size then
    b.zeroTrailingData build (sizeSub old_size b.size_)
  else .ok b

/-- Elements that are new have no given value; those that go are zeroed. -/
def setSize (b : BufferT T) (size : ℕ) : Except Fault (BufferT T × Realloc T) := do
  let old_size := b.size_
  let (b, realloc) ← b.ensureCapacityWithHeadroom build fresh size true
  let b ← zeroOld build { b with size_ := size } old_size
  return (b, realloc)

/-- A greater block, without headroom. -/
def ensureCapacity (b : BufferT T) (capacity : ℕ) : Except Fault (BufferT T × Realloc T) :=
  b.ensureCapacityWithHeadroom build fresh capacity false

/-- The block is zeroed and kept. -/
def clear (b : BufferT T) : Except Fault (BufferT T) := do
  let b ← b.maybeZeroCompleteBuffer build
  let b := { b with size_ := 0 }
  dcheck build b.isConsistent
  return b

/-- `AppendData` with an array. -/
def appendData (b : BufferT T) (data : List T) (size : ℕ) :
    Except Fault (BufferT T × Realloc T) := do
  dcheck build b.isConsistent
  let new_size := sizeT (b.size_ + size)
  let (b, realloc) ← b.ensureCapacityWithHeadroom build fresh new_size true
  let cells ← source data size
  let b ← b.write b.size_ cells
  let b := { b with size_ := new_size }
  dcheck build b.isConsistent
  return (b, realloc)

/-- The checks of the constructor of `View`, for a pointer into the block. -/
def checkView (b : BufferT T) (max_elements : ℕ) : Except Fault Unit :=
  dcheck build (b.data_.isNone ↔ max_elements = 0)

/-- The setter's turn in `AppendData`, and the new size. -/
def fill (b : BufferT T) (old_size max_elements : ℕ) (setter : Setter T) :
    Except Fault (ℕ × BufferT T) := do
  let view ← b.read old_size max_elements
  let (stores, written_elements) := setter.run (view.map Cell.value)
  let b ← b.write old_size (storeAll Cell.holding view stores)
  if written_elements ≤ max_elements then
    return (written_elements, { b with size_ := sizeT (old_size + written_elements) })
  else throw .check

/-- `AppendData` with a setter; the number is what it returns. -/
def appendDataSetter (b : BufferT T) (max_elements : ℕ) (setter : Setter T) :
    Except Fault (ℕ × BufferT T × Realloc T) := do
  dcheck build b.isConsistent
  let old_size := b.size_
  let (b, realloc) ← b.setSize build fresh (sizeT (old_size + max_elements))
  dcheck build b.isConsistent
  b.checkView build max_elements
  let (written_elements, b) ← b.fill old_size max_elements setter
  dcheck build b.isConsistent
  return (written_elements, b, realloc)

/-- `SetData` with an array: an append to the buffer at size 0. -/
def setData (b : BufferT T) (data : List T) (size : ℕ) :
    Except Fault (BufferT T × Realloc T) := do
  dcheck build b.isConsistent
  let old_size := b.size_
  let (b, realloc) ← appendData build fresh { b with size_ := 0 } data size
  let b ← b.zeroOld build old_size
  return (b, realloc)

/-- `SetData` with a setter. -/
def setDataSetter (b : BufferT T) (max_elements : ℕ) (setter : Setter T) :
    Except Fault (ℕ × BufferT T × Realloc T) := do
  dcheck build b.isConsistent
  let old_size := b.size_
  let (written, b, realloc) ←
    appendDataSetter build fresh { b with size_ := 0 } max_elements setter
  let b ← b.zeroOld build old_size
  return (written, b, realloc)

/-! ## Two buffers -/

/-- `BufferT(std::move(buf))`: the new buffer and `buf`. -/
def moveConstruct (buf : BufferT T) : Except Fault (BufferT T × BufferT T) := do
  dcheck build buf.isConsistent
  let b : BufferT T := ⟨buf.size_, buf.capacity_, buf.data_⟩
  let buf := { buf with data_ := none }
  dcheck build b.isConsistent
  let buf ← buf.onMovedFrom build
  return (b, buf)

/-- `b = std::move(buf)` for two buffers: `b`, `buf` and what `b` had. -/
def moveAssign (b buf : BufferT T) : Except Fault (BufferT T × BufferT T × List (Block T)) := do
  dcheck build buf.isConsistent
  let b ← b.maybeZeroCompleteBuffer build
  let released := b.data_.toList
  let b : BufferT T := ⟨buf.size_, buf.capacity_, buf.data_⟩
  let buf ← onMovedFrom build { buf with data_ := none }
  return (b, buf, released)

/-- The same for one buffer. -/
def moveAssignSelf (b : BufferT T) : Except Fault (BufferT T × List (Block T)) := do
  dcheck build b.isConsistent
  let b ← b.maybeZeroCompleteBuffer build
  let released := b.data_.toList
  let b ← onMovedFrom build { b with data_ := none }
  return (b, released)

end Build

/-- Every element counts as held. -/
def mark (b : BufferT T) : BufferT T :=
  let holdAll (block : Block T) := (block.take b.size_).map Cell.hold ++ block.drop b.size_
  { b with data_ := b.data_.map holdAll }

/-! ## Runs -/

/-- Calls on buffers with names in `ι`. A source is the list of its elements. -/
inductive Call (ι T : Type) where
  | empty (a : ι)
  | ofSize (a : ι) (size capacity : Fin (2 ^ 64))
  | ofData (a : ι) (data : List T) (size capacity : Fin (2 ^ 64))
  | moveConstruct (a b : ι)
  | setData (a : ι) (data : List T) (size : Fin (2 ^ 64))
  | setDataSetter (a : ι) (max_elements : Fin (2 ^ 64)) (setter : Setter T)
  | appendData (a : ι) (data : List T) (size : Fin (2 ^ 64))
  | appendDataSetter (a : ι) (max_elements : Fin (2 ^ 64)) (setter : Setter T)
  | setSize (a : ι) (size : Fin (2 ^ 64))
  | ensureCapacity (a : ι) (capacity : Fin (2 ^ 64))
  | clear (a : ι)
  | moveAssign (a b : ι)
  | swap (a b : ι)
  | destroy (a : ι)

/-- All buffers of a program, with what is known of them. -/
structure World (ι T : Type) where
  objects : ι → Option (BufferT T)
  /-- Which buffers have been moved from, and not been given a value since. -/
  moved : ι → Bool
  calls : ℕ
  /-- The blocks released, as they were then. -/
  released : List (Block T)
  /-- How many elements of each buffer have been copied into new blocks. -/
  copied : ι → ℕ

namespace World

variable {ι : Type} [DecidableEq ι]

/-- Before the first call. -/
def init : World ι T := ⟨fun _ => none, fun _ => false, 0, [], fun _ => 0⟩

/-- A buffer that is there. -/
def get (w : World ι T) (a : ι) : Except Fault (BufferT T) :=
  match w.objects a with
  | some b => .ok b
  | none => .error .object

/-- A name that is free. -/
def absent (w : World ι T) (a : ι) : Except Fault Unit :=
  match w.objects a with
  | some _ => .error .object
  | none => .ok ()

/-- What a call leaves in `a`. -/
def put (w : World ι T) (a : ι) (b : BufferT T) (moved : Bool) : World ι T :=
  { w with
    objects := Function.update w.objects a (some b.mark)
    moved := Function.update w.moved a moved }

/-- The blocks that a call has released. -/
def release (w : World ι T) (blocks : List (Block T)) : World ι T :=
  { w with released := w.released ++ blocks }

/-- What a call on `a` has done to get memory. -/
def reallocate (w : World ι T) (a : ι) (realloc : Realloc T) : World ι T :=
  { w with
    released := w.released ++ realloc.released
    copied := Function.update w.copied a (w.copied a + realloc.copied) }

/-- A call on the buffers that it names. -/
def call (build : Build T) (w : World ι T) : Call ι T → Except Fault (World ι T)
  | .empty a => do
    w.absent a
    let b ← BufferT.empty build
    return w.put a b false
  | .ofSize a size capacity => do
    w.absent a
    let b ← BufferT.ofSize build (build.fresh w.calls) size capacity
    return w.put a b false
  | .ofData a data size capacity => do
    w.absent a
    let b ← BufferT.ofData build (build.fresh w.calls) data size capacity
    return w.put a b false
  | .moveConstruct a b => do
    w.absent a
    let buf ← w.get b
    let (this, buf) ← buf.moveConstruct build
    return (w.put b buf true).put a this false
  | .setData a data size => do
    let b ← w.get a
    let (b, realloc) ← b.setData build (build.fresh w.calls) data size
    return (w.put a b (w.moved a)).reallocate a realloc
  | .setDataSetter a max_elements setter => do
    let b ← w.get a
    let (_, b, realloc) ← b.setDataSetter build (build.fresh w.calls) max_elements setter
    return (w.put a b (w.moved a)).reallocate a realloc
  | .appendData a data size => do
    let b ← w.get a
    let (b, realloc) ← b.appendData build (build.fresh w.calls) data size
    return (w.put a b (w.moved a)).reallocate a realloc
  | .appendDataSetter a max_elements setter => do
    let b ← w.get a
    let (_, b, realloc) ← b.appendDataSetter build (build.fresh w.calls) max_elements setter
    return (w.put a b (w.moved a)).reallocate a realloc
  | .setSize a size => do
    let b ← w.get a
    let (b, realloc) ← b.setSize build (build.fresh w.calls) size
    return (w.put a b (w.moved a)).reallocate a realloc
  | .ensureCapacity a capacity => do
    let b ← w.get a
    let (b, realloc) ← b.ensureCapacity build (build.fresh w.calls) capacity
    return (w.put a b (w.moved a)).reallocate a realloc
  | .clear a => do
    let b ← w.get a
    let b ← b.clear build
    return w.put a b false
  | .moveAssign a b => do
    let this ← w.get a
    let buf ← w.get b
    if a = b then
      let (this, released) ← this.moveAssignSelf build
      return (w.put a this true).release released
    else
      let (this, buf, released) ← this.moveAssign build buf
      return ((w.put b buf true).put a this false).release released
  | .swap a b => do
    let x ← w.get a
    let y ← w.get b
    return (w.put b x (w.moved a)).put a y (w.moved b)
  | .destroy a => do
    let b ← w.get a
    let released ← b.destroy build
    return { w with objects := Function.update w.objects a none }.release released

/-- A call as a step; every call gets its own new blocks. -/
def step (build : Build T) (w : World ι T) (c : Call ι T) : Option (World ι T) :=
  (w.call build c).toOption.map fun w => { w with calls := w.calls + 1 }

end World

end BufferT

end RtcBase
