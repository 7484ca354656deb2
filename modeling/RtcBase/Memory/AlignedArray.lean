import RtcBase.Memory.AlignedMalloc

/-!
# `AlignedArray`

A table of row pointers and the rows themselves are separate blocks. `sizeofT` is the size of an
element, and `T*` has the size of `uintptr_t`.

* `AlignedArray`, `Shape`: the object, and what it is made from;
* `fillRows`, `new`, `destroy`, `row`, `at_`: the constructor, the destructor and the accessors;
* `Succeeds`, `Later`: no allocation fails, and a memory in which the array is still there;
* `blocks_fillRows`, `entry`, `header`: what the constructor leaves in memory;
* `destroy_spec`: the destructor frees the blocks of the array;
* **`access_iff`**: which accesses stay in bounds.
-/

namespace RtcBase

open AlignedMalloc Memory

/-- The three fields; `head_row_` is the address of the table of rows. -/
structure AlignedArray (sizeofT : BitVec 64) where
  rows_ : BitVec 64
  cols_ : BitVec 64
  head_row_ : BitVec 64
  deriving DecidableEq, Repr

namespace AlignedArray

/-- The arguments of the constructor. -/
structure Shape (sizeofT : BitVec 64) where
  rows : BitVec 64
  cols : BitVec 64
  alignment : BitVec 64
  deriving DecidableEq, Repr

variable {sizeofT : BitVec 64} (A : Allocator (2 ^ 64))

/-! ## The constructor -/

/-- The address of `head_row_[row]`. -/
def rowPlace (head_row_ row : BitVec 64) : BitVec 64 :=
  head_row_ + row * BitVec.ofNat 64 sizeofPointer

namespace Shape

variable (shape : Shape sizeofT) (mem : Memory)

/-- The block of row pointers. -/
def table : BitVec 64 × Memory :=
  alignedAlloc A mem (shape.rows * BitVec.ofNat 64 sizeofPointer) shape.alignment

/-- `cols_ * sizeof(**head_row_)`. -/
def rowSize : BitVec 64 := shape.cols * sizeofT

/-- The memory after `n` rounds of the loop. -/
def fillRows : ℕ → Memory
  | 0 => (shape.table A mem).2
  | n + 1 =>
    let allocated := alignedAlloc A (fillRows n) shape.rowSize shape.alignment
    { allocated.2 with
      bytes := store allocated.2.bytes (rowPlace (shape.table A mem).1 (BitVec.ofNat 64 n)).toNat
        sizeofPointer allocated.1.toNat }

/-- The pointer of round `i`. -/
def rowPointer (i : ℕ) : BitVec 64 :=
  (alignedAlloc A (shape.fillRows A mem i) shape.rowSize shape.alignment).1

/-- The object that the constructor makes. -/
def array : AlignedArray sizeofT where
  rows_ := shape.rows
  cols_ := shape.cols
  head_row_ := (shape.table A mem).1

/-- The constructor, with `RTC_CHECK_GT(alignment, 0)`. -/
def new : Option (AlignedArray sizeofT × Memory) :=
  if 0 < shape.alignment then
    some (shape.array A mem, shape.fillRows A mem shape.rows.toNat)
  else none

end Shape

/-! ## The array -/

section Calls

variable (array : AlignedArray sizeofT) (mem : Memory)

/-- `head_row_[row]`. -/
def headRow (row : BitVec 64) : BitVec 64 :=
  BitVec.ofNat 64 (load mem.bytes (rowPlace array.head_row_ row).toNat sizeofPointer)

/-- The loop of the destructor, up to row `n`. -/
def freeRows : ℕ → Option Memory
  | 0 => some mem
  | n + 1 => (freeRows n).bind fun mem => alignedFree A mem (array.headRow mem (BitVec.ofNat 64 n))

/-- The destructor. -/
def destroy : Option Memory :=
  (array.freeRows A mem array.rows_.toNat).bind fun mem => alignedFree A mem array.head_row_

/-- `Row`, with `RTC_CHECK_LE(row, rows_)`. -/
def row (row : BitVec 64) : Option (BitVec 64) :=
  if row ≤ array.rows_ then some (array.headRow mem row) else none

/-- `At`: the address of the element, with `RTC_CHECK_LE(col, cols_)`. -/
def at_ (row col : BitVec 64) : Option (BitVec 64) :=
  if col ≤ array.cols_ then (array.row mem row).map (· + col * sizeofT) else none

end Calls

/-! ## What the constructor leaves -/

/-- No allocation fails, and no size overflows. -/
structure Succeeds (shape : Shape sizeofT) (mem : Memory) : Prop where
  head : (shape.table A mem).1 ≠ 0
  row : ∀ i < shape.rows.toNat, shape.rowPointer A mem i ≠ 0
  head_size : shape.rows.toNat * sizeofPointer + sizeofPointer + shape.alignment.toNat - 1 < 2 ^ 64
  row_size : shape.cols.toNat * sizeofT.toNat + sizeofPointer + shape.alignment.toNat - 1 < 2 ^ 64

namespace Shape

/-- The block of the row pointers. -/
def headBlock (shape : Shape sizeofT) (mem : Memory) : Block :=
  let size := room (shape.rows * BitVec.ofNat 64 sizeofPointer) shape.alignment
  ⟨A.malloc mem size.toNat, size.toNat⟩

/-- The block of a row. -/
def rowBlock (shape : Shape sizeofT) (mem : Memory) (i : ℕ) : Block :=
  let size := room shape.rowSize shape.alignment
  ⟨A.malloc (shape.fillRows A mem i) size.toNat, size.toNat⟩

/-- The blocks of the rows, the last one first. -/
def rowBlocks (shape : Shape sizeofT) (mem : Memory) (n : ℕ) : List Block :=
  ((List.range n).map (shape.rowBlock A mem)).reverse

end Shape

section Constructor

variable {A} {shape : Shape sizeofT} {mem : Memory} (h : Succeeds A shape mem) {i j n : ℕ}
include h

theorem Succeeds.alignment_pos : 0 < shape.alignment.toNat :=
  AlignedMalloc.alignment_pos (alignedAlloc_ne_zero h.head).2.1

theorem Succeeds.rows_toNat :
    (shape.rows * BitVec.ofNat 64 sizeofPointer).toNat = shape.rows.toNat * sizeofPointer := by
  have hsize := h.head_size
  have hpos := h.alignment_pos
  rw [BitVec.toNat_mul, BitVec.toNat_ofNat]
  unfold sizeofPointer at hsize ⊢
  omega

theorem Succeeds.rowSize_toNat : shape.rowSize.toNat = shape.cols.toNat * sizeofT.toNat := by
  have hsize := h.row_size
  have hpos := h.alignment_pos
  rw [Shape.rowSize, BitVec.toNat_mul]
  exact Nat.mod_eq_of_lt (by omega)

theorem Succeeds.table : Allocated mem (shape.headBlock A mem) (shape.table A mem).1.toNat
    (shape.rows.toNat * sizeofPointer) (shape.fillRows A mem 0) := by
  rw [← h.rows_toNat]
  refine (alignedAlloc_spec ?_ h.head).1
  rw [NoWrap, h.rows_toNat]
  exact h.head_size

theorem Succeeds.allocated (hi : i < shape.rows.toNat) :
    Allocated (shape.fillRows A mem i) (shape.rowBlock A mem i) (shape.rowPointer A mem i).toNat
      (shape.cols.toNat * sizeofT.toNat)
      (alignedAlloc A (shape.fillRows A mem i) shape.rowSize shape.alignment).2 := by
  rw [← h.rowSize_toNat]
  refine (alignedAlloc_spec ?_ (h.row i hi)).1
  rw [NoWrap, h.rowSize_toNat]
  exact h.row_size

theorem Succeeds.rowPlace_toNat (hi : i < shape.rows.toNat) :
    (rowPlace (shape.table A mem).1 (BitVec.ofNat 64 i)).toNat =
      (shape.table A mem).1.toNat + i * sizeofPointer := by
  have hfit := h.table.placed.data_le
  have hle := h.table.fresh.le
  have hlt := (shape.table A mem).1.isLt
  rw [rowPlace, BitVec.toNat_add, BitVec.toNat_mul, BitVec.toNat_ofNat, BitVec.toNat_ofNat]
  unfold sizeofPointer at hfit ⊢
  omega

theorem Succeeds.sizeofT_pos (hi : i < shape.rows.toNat) : 0 < sizeofT.toNat := by
  refine Nat.pos_of_ne_zero fun hzero => ?_
  refine (alignedAlloc_ne_zero (h.row i hi)).1 (BitVec.eq_of_toNat_eq ?_)
  rw [h.rowSize_toNat, hzero, mul_zero]
  rfl

/-! ### The blocks -/

omit h in
theorem rowBlocks_succ (n : ℕ) :
    shape.rowBlocks A mem (n + 1) = shape.rowBlock A mem n :: shape.rowBlocks A mem n := by
  simp [Shape.rowBlocks, List.range_succ]

theorem Succeeds.blocks_fillRows (hn : n ≤ shape.rows.toNat) : (shape.fillRows A mem n).blocks =
    shape.rowBlocks A mem n ++ shape.headBlock A mem :: mem.blocks := by
  induction n with
  | zero => exact h.table.blocks
  | succ n ih =>
    rw [rowBlocks_succ, List.cons_append, ← ih (Nat.le_of_succ_le hn)]
    exact (h.allocated hn).blocks

theorem Succeeds.mem_blocks (hj : j < i) (hi : i ≤ shape.rows.toNat) :
    shape.rowBlock A mem j ∈ (shape.fillRows A mem i).blocks := by
  rw [h.blocks_fillRows hi]
  refine List.mem_append_left _ (List.mem_reverse.mpr ?_)
  exact List.mem_map_of_mem (List.mem_range.mpr hj)

theorem Succeeds.headBlock_mem (hi : i ≤ shape.rows.toNat) :
    shape.headBlock A mem ∈ (shape.fillRows A mem i).blocks := by
  rw [h.blocks_fillRows hi]
  exact List.mem_append_right _ List.mem_cons_self

theorem Succeeds.rows_disjoint (hi : i < shape.rows.toNat) (hj : j < shape.rows.toNat)
    (hij : i ≠ j) : Disjoint (shape.rowBlock A mem i).bytes (shape.rowBlock A mem j).bytes := by
  rcases Nat.lt_or_gt_of_ne hij with hlt | hlt
  · exact ((h.allocated hj).fresh.disjoint _ (h.mem_blocks hlt hj.le)).symm
  · exact (h.allocated hi).fresh.disjoint _ (h.mem_blocks hlt hi.le)

theorem Succeeds.head_disjoint (hi : i < shape.rows.toNat) :
    Disjoint (shape.headBlock A mem).bytes (shape.rowBlock A mem i).bytes :=
  ((h.allocated hi).fresh.disjoint _ (h.headBlock_mem hi.le)).symm

theorem Succeeds.rowBlock_ne (hi : i < shape.rows.toNat) (hj : j < i) :
    shape.rowBlock A mem i ≠ shape.rowBlock A mem j := fun heq =>
  (h.allocated hi).fresh.new _ (h.mem_blocks hj hi.le) (congrArg Block.start heq).symm

theorem Succeeds.rowBlock_ne_head (hi : i < shape.rows.toNat) :
    shape.rowBlock A mem i ≠ shape.headBlock A mem := fun heq =>
  (h.allocated hi).fresh.new _ (h.headBlock_mem hi.le) (congrArg Block.start heq).symm

/-! ### The bytes -/

/-- Rounds from `i` on change their own rows, and the table from entry `i` on. -/
theorem Succeeds.fillRows_frame {x : ℕ} (hi : i ≤ n) (hn : n ≤ shape.rows.toNat)
    (hrows : ∀ j, i ≤ j → j < n → x ∉ (shape.rowBlock A mem j).bytes)
    (htable : x ∉ Set.Ico ((shape.table A mem).1.toNat + i * sizeofPointer)
      ((shape.table A mem).1.toNat + n * sizeofPointer)) :
    (shape.fillRows A mem n).bytes x = (shape.fillRows A mem i).bytes x := by
  induction n, hi using Nat.le_induction with
  | base => rfl
  | succ n hin ih =>
    have hentry : x ∉ Set.Ico (rowPlace (shape.table A mem).1 (BitVec.ofNat 64 n)).toNat
        ((rowPlace (shape.table A mem).1 (BitVec.ofNat 64 n)).toNat + sizeofPointer) := by
      rw [h.rowPlace_toNat hn]
      rintro ⟨h₁, h₂⟩
      have := Nat.mul_le_mul_right sizeofPointer hin
      exact htable ⟨by omega, by rw [Nat.succ_mul]; omega⟩
    have hbefore : (shape.fillRows A mem n).bytes x = (shape.fillRows A mem i).bytes x := by
      refine ih (Nat.le_of_succ_le hn) (fun j h₁ h₂ => hrows j h₁ (h₂.trans n.lt_succ_self)) ?_
      rintro ⟨h₁, h₂⟩
      exact htable ⟨h₁, by rw [Nat.succ_mul]; omega⟩
    rw [← hbefore, ← (h.allocated hn).frame x (hrows n hin n.lt_succ_self)]
    exact store_of_notMem hentry

omit h in
theorem entry_subset (hi : i < shape.rows.toNat) :
    dataBytes ((shape.table A mem).1.toNat + i * sizeofPointer) sizeofPointer ⊆
      dataBytes (shape.table A mem).1.toNat (shape.rows.toNat * sizeofPointer) := by
  have := Nat.mul_le_mul_right sizeofPointer (Nat.succ_le_of_lt hi)
  rw [Nat.succ_mul] at this
  rintro x ⟨h₁, h₂⟩
  exact ⟨by omega, by omega⟩

theorem Succeeds.table_notMem {x : ℕ} (hi : i < shape.rows.toNat)
    (hx : x ∈ dataBytes (shape.table A mem).1.toNat (shape.rows.toNat * sizeofPointer)) :
    x ∉ (shape.rowBlock A mem i).bytes :=
  Set.disjoint_left.mp (h.head_disjoint hi) (h.table.placed.data_subset hx)

theorem Succeeds.entry (hi : i < shape.rows.toNat) :
    load (shape.fillRows A mem shape.rows.toNat).bytes
      ((shape.table A mem).1.toNat + i * sizeofPointer) sizeofPointer =
      (shape.rowPointer A mem i).toNat := by
  have hkeep : ∀ x ∈ dataBytes ((shape.table A mem).1.toNat + i * sizeofPointer) sizeofPointer,
      (shape.fillRows A mem shape.rows.toNat).bytes x = (shape.fillRows A mem (i + 1)).bytes x := by
    intro x hx
    refine h.fillRows_frame hi le_rfl
      (fun j _ hj => h.table_notMem hj (entry_subset hi hx)) ?_
    rintro ⟨h₁, -⟩
    have h₂ := hx.2
    rw [Nat.succ_mul] at h₁
    omega
  rw [load_congr hkeep, ← h.rowPlace_toNat hi]
  exact load_store (shape.rowPointer A mem i).isLt

theorem Succeeds.header {x : ℕ} (hi : i < shape.rows.toNat)
    (hx : x ∈ headerBytes (shape.rowPointer A mem i).toNat) :
    (shape.fillRows A mem shape.rows.toNat).bytes x =
      (alignedAlloc A (shape.fillRows A mem i) shape.rowSize shape.alignment).2.bytes x := by
  have hrow := (h.allocated hi).placed.header_subset hx
  have htable : x ∉ dataBytes (shape.table A mem).1.toNat (shape.rows.toNat * sizeofPointer) :=
    fun hx' => h.table_notMem hi hx' hrow
  have hkeep : (shape.fillRows A mem shape.rows.toNat).bytes x =
      (shape.fillRows A mem (i + 1)).bytes x := by
    refine h.fillRows_frame hi le_rfl (fun j hij hj => ?_) fun hx' => htable ?_
    · exact Set.disjoint_left.mp (h.rows_disjoint hi hj (Nat.ne_of_lt hij)) hrow
    · exact ⟨(Nat.le_add_right _ _).trans hx'.1, hx'.2⟩
  refine hkeep.trans (store_of_notMem fun hx' => htable (entry_subset hi ?_))
  rwa [h.rowPlace_toNat hi] at hx'

theorem Succeeds.head_header {x : ℕ} (hx : x ∈ headerBytes (shape.table A mem).1.toNat) :
    (shape.fillRows A mem shape.rows.toNat).bytes x = (shape.fillRows A mem 0).bytes x := by
  refine h.fillRows_frame (Nat.zero_le _) le_rfl (fun j _ hj => ?_) ?_
  · exact Set.disjoint_left.mp (h.head_disjoint hj) (h.table.placed.header_subset hx)
  · rw [zero_mul, add_zero]
    exact Set.disjoint_left.mp (disjoint_header_data _ _) hx

end Constructor

/-! ## The destructor -/

/-- The blocks that the constructor has allocated. -/
def Shape.owned (shape : Shape sizeofT) (mem : Memory) : List Block :=
  shape.rowBlocks A mem shape.rows.toNat ++ [shape.headBlock A mem]

/-- A later memory: blocks may have come and gone, but those of the array are still there, and
nothing but the elements of its rows has been written. -/
structure Later (shape : Shape sizeofT) (mem later : Memory) : Prop where
  starts : (later.blocks.map Block.start).Nodup
  owned : ∀ b ∈ shape.owned A mem, b ∈ later.blocks
  bytes : ∀ b ∈ shape.owned A mem, ∀ x ∈ b.bytes,
    (∀ i < shape.rows.toNat,
      x ∉ dataBytes (shape.rowPointer A mem i).toNat (shape.cols.toNat * sizeofT.toNat)) →
    later.bytes x = (shape.fillRows A mem shape.rows.toNat).bytes x

section Destructor

variable {A} {shape : Shape sizeofT} {mem later : Memory} {i n : ℕ}

theorem mem_owned_row (hi : i < shape.rows.toNat) : shape.rowBlock A mem i ∈ shape.owned A mem :=
  List.mem_append_left _ <| List.mem_reverse.mpr <|
    List.mem_map_of_mem (List.mem_range.mpr hi)

theorem mem_owned_head : shape.headBlock A mem ∈ shape.owned A mem :=
  List.mem_append_right _ List.mem_cons_self

theorem mem_rowBlocks {b : Block} :
    b ∈ shape.rowBlocks A mem n ↔ ∃ i < n, shape.rowBlock A mem i = b := by
  simp [Shape.rowBlocks]

variable (h : Succeeds A shape mem) (hlater : Later A shape mem later)
include h hlater

theorem Later.head {x : ℕ} (hx : x ∈ (shape.headBlock A mem).bytes) :
    later.bytes x = (shape.fillRows A mem shape.rows.toNat).bytes x := by
  refine hlater.bytes _ mem_owned_head x hx fun i hi hdata => ?_
  exact Set.disjoint_left.mp (h.head_disjoint hi) hx ((h.allocated hi).placed.data_subset hdata)

theorem Later.header {x : ℕ} (hi : i < shape.rows.toNat)
    (hx : x ∈ headerBytes (shape.rowPointer A mem i).toNat) :
    later.bytes x =
      (alignedAlloc A (shape.fillRows A mem i) shape.rowSize shape.alignment).2.bytes x := by
  have hrow := (h.allocated hi).placed.header_subset hx
  rw [← h.header hi hx]
  refine hlater.bytes _ (mem_owned_row hi) x hrow fun j hj hdata => ?_
  by_cases hij : i = j
  · subst hij
    exact Set.disjoint_left.mp (disjoint_header_data _ _) hx hdata
  · exact Set.disjoint_left.mp (h.rows_disjoint hi hj hij) hrow
      ((h.allocated hj).placed.data_subset hdata)

/-- The pointers of the rows are as they were, also in a memory that has lost other bytes. -/
theorem Later.headRow_eq {mem' : Memory} (hi : i < shape.rows.toNat)
    (hmem' : ∀ x ∈ (shape.headBlock A mem).bytes, mem'.bytes x = later.bytes x) :
    (shape.array A mem).headRow mem' (BitVec.ofNat 64 i) = shape.rowPointer A mem i := by
  have hload : load mem'.bytes ((shape.table A mem).1.toNat + i * sizeofPointer) sizeofPointer =
      (shape.rowPointer A mem i).toNat := by
    rw [← h.entry hi]
    refine load_congr fun x hx => ?_
    have hhead := h.table.placed.data_subset (entry_subset hi hx)
    rw [hmem' x hhead, hlater.head h hhead]
  rw [headRow, Shape.array, h.rowPlace_toNat hi, hload, BitVec.ofNat_toNat, BitVec.setWidth_eq]

omit h hlater in
/-- A block of the array goes, after some others have gone. -/
theorem alignedFree_diff {mem₀ mem₁ mem' : Memory} {block : Block} {p : BitVec 64} {size : ℕ}
    {blocks gone : List Block} (halloc : Allocated mem₀ block p.toNat size mem₁)
    (hheader : ∀ x ∈ headerBytes p.toNat, mem'.bytes x = mem₁.bytes x)
    (hblocks : mem'.blocks = blocks.diff gone) (hmem : block ∈ blocks) (hgone : block ∉ gone)
    (hstarts : (blocks.map Block.start).Nodup) :
    alignedFree A mem' p = some ⟨spoil A mem' block, mem'.blocks.erase block⟩ := by
  rw [alignedFree_eq halloc hheader]
  refine free_eq A mem' halloc.fresh.pos.ne' ?_ ?_
  · rw [hblocks]
    exact List.mem_diff_of_mem hmem hgone
  · rw [hblocks]
    exact hstarts.sublist ((List.diff_sublist _ _).map _)

/-- After `n` rounds of the destructor the blocks of `n` rows are gone. -/
theorem Later.freeRows_spec (hn : n ≤ shape.rows.toNat) :
    ∃ mem', (shape.array A mem).freeRows A later n = some mem' ∧
      mem'.blocks = later.blocks.diff (shape.rowBlocks A mem n) ∧
      ∀ x, (∀ i < n, x ∉ (shape.rowBlock A mem i).bytes) → mem'.bytes x = later.bytes x := by
  induction n with
  | zero => exact ⟨later, rfl, rfl, fun _ _ => rfl⟩
  | succ n ih =>
    obtain ⟨mem', hfree, hblocks, hbytes⟩ := ih (Nat.le_of_succ_le hn)
    have hrow := h.allocated hn
    have hpointer := hlater.headRow_eq h hn fun x hx => hbytes x fun i hi =>
      Set.disjoint_left.mp (h.head_disjoint (hi.trans hn)) hx
    have hheader : ∀ x ∈ headerBytes (shape.rowPointer A mem n).toNat, mem'.bytes x =
        (alignedAlloc A (shape.fillRows A mem n) shape.rowSize shape.alignment).2.bytes x := by
      intro x hx
      rw [hbytes x fun i hi => Set.disjoint_left.mp
        (h.rows_disjoint hn (hi.trans hn) (Nat.ne_of_gt hi)) (hrow.placed.header_subset hx)]
      exact hlater.header h hn hx
    have hgone : shape.rowBlock A mem n ∉ shape.rowBlocks A mem n := by
      intro hin
      obtain ⟨i, hi, heq⟩ := mem_rowBlocks.mp hin
      exact h.rowBlock_ne hn hi heq.symm
    refine ⟨⟨spoil A mem' (shape.rowBlock A mem n), mem'.blocks.erase (shape.rowBlock A mem n)⟩,
      ?_, ?_, fun x hx => ?_⟩
    · rw [freeRows, hfree, Option.bind_some, hpointer]
      exact alignedFree_diff hrow hheader hblocks (hlater.owned _ (mem_owned_row hn)) hgone
        hlater.starts
    · rw [rowBlocks_succ, List.diff_cons_right, hblocks]
    · rw [← hbytes x fun i hi => hx i (hi.trans n.lt_succ_self)]
      exact spoil_of_notMem A mem' (hx n n.lt_succ_self)

/-- **The destructor frees the blocks of the array**, and no others. -/
theorem Later.destroy_spec : ∃ final, (shape.array A mem).destroy A later = some final ∧
    final.blocks = later.blocks.diff (shape.owned A mem) := by
  obtain ⟨mem', hfree, hblocks, hbytes⟩ := hlater.freeRows_spec h le_rfl
  have hout : ∀ x ∈ (shape.headBlock A mem).bytes, mem'.bytes x = later.bytes x := fun x hx =>
    hbytes x fun i hi => Set.disjoint_left.mp (h.head_disjoint hi) hx
  have hheader : ∀ x ∈ headerBytes (shape.table A mem).1.toNat,
      mem'.bytes x = (shape.fillRows A mem 0).bytes x := by
    intro x hx
    have hhead := h.table.placed.header_subset hx
    rw [hout x hhead, hlater.head h hhead, h.head_header hx]
  have hgone : shape.headBlock A mem ∉ shape.rowBlocks A mem shape.rows.toNat := by
    intro hin
    obtain ⟨i, hi, heq⟩ := mem_rowBlocks.mp hin
    exact h.rowBlock_ne_head hi heq
  refine ⟨⟨spoil A mem' (shape.headBlock A mem), mem'.blocks.erase (shape.headBlock A mem)⟩, ?_, ?_⟩
  · have hrows : (shape.array A mem).freeRows A later (shape.array A mem).rows_.toNat =
        some mem' := hfree
    rw [destroy, hrows, Option.bind_some]
    exact alignedFree_diff h.table hheader hblocks (hlater.owned _ mem_owned_head) hgone
      hlater.starts
  · rw [Shape.owned, List.diff_append, ← hblocks, List.diff_cons, List.diff_nil]

end Destructor

/-! ## The accessors -/

section Accessors

variable (shape : Shape sizeofT) (mem later : Memory)

/-- The entry of a row is in the table. -/
def InTable (row : BitVec 64) : Prop :=
  dataBytes (rowPlace (shape.table A mem).1 row).toNat sizeofPointer ⊆
    dataBytes (shape.table A mem).1.toNat (shape.rows.toNat * sizeofPointer)

/-- What `Row` should return, if its check passes. -/
def RowGood (row : BitVec 64) : Prop := ∀ p, (shape.array A mem).row later row = some p →
  InTable A shape mem row ∧ p = shape.rowPointer A mem row.toNat

/-- What `At` should return, if its checks pass. -/
def AtGood (row col : BitVec 64) : Prop := ∀ a, (shape.array A mem).at_ later row col = some a →
  InTable A shape mem row ∧
    dataBytes a.toNat sizeofT.toNat ⊆
      dataBytes (shape.rowPointer A mem row.toNat).toNat (shape.cols.toNat * sizeofT.toNat)

/-- Two calls of `At` refer to one element only if they are the same. -/
def Distinct (row col row' col' : BitVec 64) : Prop :=
  ∀ a, (shape.array A mem).at_ later row col = some a →
    (shape.array A mem).at_ later row' col' = some a → row = row' ∧ col = col'

/-- The checks of `Row` are as strict as they should be. -/
def RowFits (row : BitVec 64) : Prop := row ≤ shape.rows → row < shape.rows

/-- The checks of `At` are as strict as they should be. -/
def AtFits (row col : BitVec 64) : Prop :=
  row ≤ shape.rows → col ≤ shape.cols → row < shape.rows ∧ col < shape.cols

instance (row : BitVec 64) : Decidable (RowFits shape row) := inferInstanceAs (Decidable (_ → _))

instance (row col : BitVec 64) : Decidable (AtFits shape row col) :=
  inferInstanceAs (Decidable (_ → _ → _))

end Accessors

section Access

variable {A} {shape : Shape sizeofT} {mem later : Memory} {row col row' col' a p : BitVec 64}

theorem row_eq_some : (shape.array A mem).row later row = some p ↔
    row ≤ shape.rows ∧ (shape.array A mem).headRow later row = p := by
  rw [AlignedArray.row]
  split_ifs with hle
  · exact Option.some_inj.trans (and_iff_right hle).symm
  · exact iff_of_false id fun hc => hle hc.1

theorem at_eq_some : (shape.array A mem).at_ later row col = some a ↔
    row ≤ shape.rows ∧ col ≤ shape.cols ∧
      (shape.array A mem).headRow later row + col * sizeofT = a := by
  rw [at_]
  split_ifs with hle
  · rw [Option.map_eq_some_iff]
    constructor
    · rintro ⟨p, hp, rfl⟩
      obtain ⟨hrow, rfl⟩ := row_eq_some.mp hp
      exact ⟨hrow, hle, rfl⟩
    · rintro ⟨hrow, -, rfl⟩
      exact ⟨_, row_eq_some.mpr ⟨hrow, rfl⟩, rfl⟩
  · exact iff_of_false id fun hc => hle hc.2.1

theorem lt_of_ne {x y : BitVec 64} (hle : x ≤ y) (hne : x ≠ y) : x < y :=
  BitVec.lt_def.mpr <| lt_of_le_of_ne (BitVec.le_def.mp hle) fun heq =>
    hne (BitVec.eq_of_toNat_eq heq)

/-- The address behind the data is not in the data, also where it wraps to 0. -/
theorem not_subset_behind {pos n k : ℕ} (hpos : 0 < pos) (hend : pos + n ≤ 2 ^ 64) (hk : 0 < k) :
    ¬ dataBytes ((pos + n) % 2 ^ 64) k ⊆ dataBytes pos n := by
  intro hsub
  obtain ⟨h₁, h₂⟩ := hsub (show (pos + n) % 2 ^ 64 ∈ dataBytes _ k from ⟨le_rfl, by omega⟩)
  omega

variable (h : Succeeds A shape mem)
include h

theorem Succeeds.inTable (hrow : row < shape.rows) : InTable A shape mem row := by
  have hplace := h.rowPlace_toNat (BitVec.lt_def.mp hrow)
  rw [BitVec.ofNat_toNat, BitVec.setWidth_eq] at hplace
  rw [InTable, hplace]
  exact entry_subset (BitVec.lt_def.mp hrow)

theorem Succeeds.not_inTable : ¬ InTable A shape mem shape.rows := by
  rw [InTable, rowPlace, BitVec.toNat_add, h.rows_toNat]
  exact not_subset_behind h.table.pointer_pos h.table.data_le (by decide)

variable (hlater : Later A shape mem later)
include hlater

theorem Later.headRow_of_lt (hrow : row < shape.rows) :
    (shape.array A mem).headRow later row = shape.rowPointer A mem row.toNat := by
  have heq := hlater.headRow_eq h (BitVec.lt_def.mp hrow) fun _ _ => rfl
  rwa [BitVec.ofNat_toNat, BitVec.setWidth_eq] at heq

theorem Later.rowGood_iff : RowGood A shape mem later row ↔ RowFits shape row := by
  constructor
  · intro hgood hle
    refine lt_of_ne hle fun heq => h.not_inTable ?_
    rw [← heq]
    exact (hgood _ (row_eq_some.mpr ⟨hle, rfl⟩)).1
  · intro hfits p hp
    obtain ⟨hle, rfl⟩ := row_eq_some.mp hp
    exact ⟨h.inTable (hfits hle), hlater.headRow_of_lt h (hfits hle)⟩

/-- The address of an element. Behind the last element of a row it can wrap to 0. -/
theorem Later.element_toNat (hrow : row < shape.rows) (hcol : col ≤ shape.cols) :
    ((shape.array A mem).headRow later row + col * sizeofT).toNat =
      ((shape.rowPointer A mem row.toNat).toNat + col.toNat * sizeofT.toNat) % 2 ^ 64 := by
  have hle := Nat.mul_le_mul_right sizeofT.toNat (BitVec.le_def.mp hcol)
  have hsize := h.row_size
  have hpos := h.alignment_pos
  rw [hlater.headRow_of_lt h hrow, BitVec.toNat_add, BitVec.toNat_mul,
    Nat.mod_eq_of_lt (by omega : col.toNat * sizeofT.toNat < 2 ^ 64)]

theorem Later.element_subset (hrow : row < shape.rows) (hcol : col < shape.cols) :
    ((shape.array A mem).headRow later row + col * sizeofT).toNat =
        (shape.rowPointer A mem row.toNat).toNat + col.toNat * sizeofT.toNat ∧
      dataBytes ((shape.array A mem).headRow later row + col * sizeofT).toNat sizeofT.toNat ⊆
        dataBytes (shape.rowPointer A mem row.toNat).toNat
          (shape.cols.toNat * sizeofT.toNat) := by
  have halloc := h.allocated (BitVec.lt_def.mp hrow)
  have hend := halloc.data_le
  have hle := Nat.mul_le_mul_right sizeofT.toNat (Nat.succ_le_of_lt (BitVec.lt_def.mp hcol))
  have hsize : 0 < sizeofT.toNat := h.sizeofT_pos (BitVec.lt_def.mp hrow)
  rw [Nat.succ_mul] at hle
  have heq : ((shape.array A mem).headRow later row + col * sizeofT).toNat =
      (shape.rowPointer A mem row.toNat).toNat + col.toNat * sizeofT.toNat := by
    rw [hlater.element_toNat h hrow (BitVec.le_of_lt hcol)]
    exact Nat.mod_eq_of_lt (by omega)
  refine ⟨heq, ?_⟩
  rw [heq]
  rintro x ⟨h₁, h₂⟩
  exact ⟨by omega, by omega⟩

theorem Later.atGood_iff : AtGood A shape mem later row col ↔ AtFits shape row col := by
  constructor
  · intro hgood hrow hcol
    obtain ⟨htable, hdata⟩ := hgood _ (at_eq_some.mpr ⟨hrow, hcol, rfl⟩)
    have hrow' : row < shape.rows := lt_of_ne hrow fun heq => h.not_inTable (heq ▸ htable)
    have halloc := h.allocated (BitVec.lt_def.mp hrow')
    refine ⟨hrow', lt_of_ne hcol fun heq => ?_⟩
    rw [hlater.element_toNat h hrow' hcol, heq] at hdata
    have hsize := h.sizeofT_pos (BitVec.lt_def.mp hrow')
    exact not_subset_behind halloc.pointer_pos halloc.data_le hsize hdata
  · intro hfits a ha
    obtain ⟨hrow, hcol, rfl⟩ := at_eq_some.mp ha
    obtain ⟨hrow', hcol'⟩ := hfits hrow hcol
    exact ⟨h.inTable hrow', (hlater.element_subset h hrow' hcol').2⟩

theorem Later.distinct (hfits : AtFits shape row col) (hfits' : AtFits shape row' col') :
    Distinct A shape mem later row col row' col' := by
  intro a ha ha'
  obtain ⟨hrow, hcol, rfl⟩ := at_eq_some.mp ha
  obtain ⟨hrow', hcol', heq⟩ := at_eq_some.mp ha'
  obtain ⟨hrow, hcol⟩ := hfits hrow hcol
  obtain ⟨hrow', hcol'⟩ := hfits' hrow' hcol'
  obtain ⟨hplace, hsub⟩ := hlater.element_subset h hrow hcol
  obtain ⟨hplace', hsub'⟩ := hlater.element_subset h hrow' hcol'
  rw [heq] at hplace' hsub'
  have hsize : 0 < sizeofT.toNat := h.sizeofT_pos (BitVec.lt_def.mp hrow)
  generalize (shape.array A mem).headRow later row + col * sizeofT = a at *
  have hfirst : a.toNat ∈ dataBytes a.toNat sizeofT.toNat := ⟨le_rfl, by omega⟩
  have hsame : row.toNat = row'.toNat := by
    by_contra hne
    exact Set.disjoint_left.mp
      (h.rows_disjoint (BitVec.lt_def.mp hrow) (BitVec.lt_def.mp hrow') hne)
      ((h.allocated (BitVec.lt_def.mp hrow)).placed.data_subset (hsub hfirst))
      ((h.allocated (BitVec.lt_def.mp hrow')).placed.data_subset (hsub' hfirst))
  refine ⟨BitVec.eq_of_toNat_eq hsame, BitVec.eq_of_toNat_eq ?_⟩
  rw [hplace, hsame] at hplace'
  exact Nat.eq_of_mul_eq_mul_right hsize (Nat.add_left_cancel hplace')

/-- **Which accesses stay in bounds**: of the rows and elements that pass the checks, just those
before the end. The destructor frees what the constructor has allocated in any case. -/
theorem access_iff :
    (∀ row, RowGood A shape mem later row ↔ RowFits shape row) ∧
    (∀ row col row' col',
      AtGood A shape mem later row col ∧ AtGood A shape mem later row' col' ∧
        Distinct A shape mem later row col row' col' ↔
      AtFits shape row col ∧ AtFits shape row' col') ∧
    (shape.fillRows A mem shape.rows.toNat).blocks = shape.owned A mem ++ mem.blocks ∧
    ∃ final, (shape.array A mem).destroy A later = some final ∧
      final.blocks = later.blocks.diff (shape.owned A mem) := by
  refine ⟨fun row => hlater.rowGood_iff h, fun row col row' col' => ?_, ?_, hlater.destroy_spec h⟩
  · rw [hlater.atGood_iff h, hlater.atGood_iff h]
    exact ⟨fun hgood => ⟨hgood.1, hgood.2.1⟩, fun hfits =>
      ⟨hfits.1, hfits.2, hlater.distinct h hfits.1 hfits.2⟩⟩
  · rw [Shape.owned, List.append_assoc]
    exact h.blocks_fillRows le_rfl

end Access

/-- Two rows of three elements of four bytes. -/
def twoByThree : Shape 4 := ⟨2, 3, 16⟩

/-- A memory of zeros, nothing allocated. -/
def noBlocks : Memory := ⟨fun _ => 0, []⟩

theorem twoByThree_succeeds : Succeeds (.bump (2 ^ 64)) twoByThree noBlocks where
  head := by decide +kernel
  row := by decide +kernel
  head_size := by decide
  row_size := by decide

theorem twoByThree_later : Later (.bump (2 ^ 64)) twoByThree noBlocks
    (twoByThree.fillRows (.bump (2 ^ 64)) noBlocks 2) where
  starts := by decide +kernel
  owned := by decide +kernel
  bytes _ _ _ _ _ := rfl

/-- The last element of two rows of three. -/
theorem access_iff_sample :
    AtGood (.bump (2 ^ 64)) twoByThree noBlocks (twoByThree.fillRows (.bump (2 ^ 64)) noBlocks 2)
      1 2 := by
  obtain ⟨-, hat, -⟩ := access_iff twoByThree_succeeds twoByThree_later
  exact ((hat 1 2 1 2).mpr ⟨by decide, by decide⟩).1

/-- The checks accept the row and the column behind the last ones. -/
theorem access_out_of_bounds :
    let later := twoByThree.fillRows (.bump (2 ^ 64)) noBlocks 2
    ((twoByThree.array (.bump (2 ^ 64)) noBlocks).row later 2).isSome = true ∧
      ¬ RowGood (.bump (2 ^ 64)) twoByThree noBlocks later 2 ∧
      ((twoByThree.array (.bump (2 ^ 64)) noBlocks).at_ later 1 3).isSome = true ∧
      ¬ AtGood (.bump (2 ^ 64)) twoByThree noBlocks later 1 3 := by
  intro later
  refine ⟨by decide, fun hrow => ?_, by decide, fun hat => ?_⟩
  · exact absurd ((twoByThree_later.rowGood_iff twoByThree_succeeds).mp hrow) (by decide)
  · exact absurd ((twoByThree_later.atGood_iff twoByThree_succeeds).mp hat) (by decide)

end AlignedArray

end RtcBase
