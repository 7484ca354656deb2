import RtcBase.Lib.Memory

/-!
# `AlignedMalloc`

`aligned_alloc` asks `malloc` for the room that it needs at most, aligns a pointer in it, and stores
the start of the block in front of the pointer. Sizes and addresses are 64-bit words.

* `alignValid`, `alignUp`: the macros of `align_c.h`; `alignUp_toNat`;
* `alignedAlloc`, `alignedFree`: the functions of `align_c_inl.h`, which `AlignedMalloc` and
  `AlignedFree` call;
* `Placed`, `Inside`: where a pointer lies in its block, and where it should lie;
* **`alignedAlloc_spec`**: what `aligned_alloc` does when the size does not wrap;
* **`inside_iff`**: when a pointer and its data are inside their block.
-/

namespace RtcBase

namespace AlignedMalloc

/-! ## The functions -/

/-- `ALIGN_VALID`: an alignment is a power of two. -/
def alignValid (a : BitVec 64) : Bool := a ≠ 0 && 0 = a &&& (a - 1)

/-- `ALIGN_UP`: the next multiple of an alignment. -/
def alignUp (x a : BitVec 64) : BitVec 64 := (x + a - 1) &&& ~~~(a - 1)

/-- `sizeof(uintptr_t)`. -/
def sizeofPointer : ℕ := 8

variable (A : Memory.Allocator (2 ^ 64))

/-- The room that `aligned_alloc` asks for. -/
def room (size alignment : BitVec 64) : BitVec 64 :=
  size + BitVec.ofNat 64 sizeofPointer + alignment - 1

/-- `aligned_alloc`: the pointer and the memory. A null pointer is 0. -/
def alignedAlloc (mem : Memory) (size alignment : BitVec 64) : BitVec 64 × Memory :=
  if size = 0 then (0, mem)
  else if !alignValid alignment then (0, mem)
  else
    let memory_pointer := A.malloc mem (room size alignment).toNat
    if memory_pointer = 0 then (0, mem)
    else
      let mem := mem.allocate A ⟨memory_pointer, (room size alignment).toNat⟩
      let align_start_pos := BitVec.ofNat 64 memory_pointer + BitVec.ofNat 64 sizeofPointer
      let aligned_pos := alignUp align_start_pos alignment
      let header_pos := aligned_pos - BitVec.ofNat 64 sizeofPointer
      (aligned_pos, { mem with
        bytes := Memory.store mem.bytes header_pos.toNat sizeofPointer memory_pointer })

/-- `aligned_free`. -/
def alignedFree (mem : Memory) (mem_block : BitVec 64) : Option Memory :=
  if mem_block = 0 then some mem
  else
    let header_pos := mem_block - BitVec.ofNat 64 sizeofPointer
    mem.free A (Memory.load mem.bytes header_pos.toNat sizeofPointer)

/-! ## The macros -/

theorem toNat_sub_one {a : BitVec 64} (h : a ≠ 0) : (a - 1).toNat = a.toNat - 1 := by
  have hpos : a.toNat ≠ 0 := fun h₀ => h (BitVec.eq_of_toNat_eq h₀)
  rw [BitVec.toNat_sub]
  have : (1 : BitVec 64).toNat = 1 := rfl
  omega

theorem alignValid_iff (a : BitVec 64) : alignValid a = true ↔ ∃ k, a.toNat = 2 ^ k := by
  have hzero : a = 0 ↔ a.toNat = 0 := BitVec.toNat_eq
  rw [← Nat.isPowerOfTwo, ← Nat.ne_zero_and_sub_one_eq_zero_iff_isPowerOfTwo, alignValid,
    Bool.and_eq_true, decide_eq_true_iff, decide_eq_true_iff, Ne, hzero]
  refine and_congr_right fun h => ?_
  rw [eq_comm, BitVec.toNat_eq, BitVec.toNat_and, toNat_sub_one fun h₀ => h (hzero.mp h₀)]
  rfl

theorem alignUp_toNat (x : BitVec 64) {a : BitVec 64} (h : alignValid a = true) :
    (alignUp x a).toNat = (x + a - 1).toNat / a.toNat * a.toNat := by
  obtain ⟨k, hk⟩ := (alignValid_iff a).mp h
  have hne : a ≠ 0 := fun h₀ => by
    rw [h₀] at h
    cases h
  have hmask : (a - 1).toNat = 2 ^ k - 1 := by rw [toNat_sub_one hne, hk]
  have hlt : k < 64 := (Nat.pow_lt_pow_iff_right (by decide : 1 < 2)).mp (hk ▸ a.isLt)
  have hshift : alignUp x a = ((x + a - 1) >>> k) <<< k := by
    refine BitVec.eq_of_getLsbD_eq fun i hi => ?_
    have hbit : (a - 1).getLsbD i = decide (i < k) := by
      rw [← Nat.testBit_two_pow_sub_one, ← hmask]
      rfl
    rw [alignUp, BitVec.getLsbD_and, BitVec.getLsbD_not, BitVec.getLsbD_shiftLeft,
      BitVec.getLsbD_ushiftRight, hbit]
    by_cases hik : i < k
    · simp [hik]
    · simp [hik, hi, Nat.add_sub_cancel' (not_lt.mp hik)]
  rw [hshift, BitVec.toNat_shiftLeft, BitVec.toNat_ushiftRight, Nat.shiftRight_eq_div_pow,
    Nat.shiftLeft_eq, hk]
  exact Nat.mod_eq_of_lt ((Nat.div_mul_le_self _ _).trans_lt (x + a - 1).isLt)

/-! ## A pointer in its block -/

/-- Where the pointer lies in its block: behind its header, and with `size` bytes behind it. -/
structure Placed (block : Block) (pos size : ℕ) : Prop where
  header_le : block.start + sizeofPointer ≤ pos
  data_le : pos + size ≤ block.start + block.size

/-- The header of a pointer. -/
def headerBytes (pos : ℕ) : Set ℕ := Set.Ico (pos - sizeofPointer) pos

/-- The bytes that belong to the caller. -/
def dataBytes (pos size : ℕ) : Set ℕ := Set.Ico pos (pos + size)

section Placed

variable {block : Block} {pos size : ℕ}

theorem Placed.header_subset (h : Placed block pos size) : headerBytes pos ⊆ block.bytes := by
  have h₁ := h.header_le
  have h₂ := h.data_le
  rintro i ⟨h₃, h₄⟩
  exact ⟨by omega, by omega⟩

theorem Placed.data_subset (h : Placed block pos size) : dataBytes pos size ⊆ block.bytes := by
  have h₁ := h.header_le
  have h₂ := h.data_le
  rintro i ⟨h₃, h₄⟩
  exact ⟨by omega, by omega⟩

theorem disjoint_header_data (pos size : ℕ) : Disjoint (headerBytes pos) (dataBytes pos size) :=
  Set.disjoint_left.mpr fun _ h₁ h₂ => absurd h₁.2 (not_lt.mpr h₂.1)

theorem not_data_subset (h : block.size < size) : ¬ dataBytes pos size ⊆ block.bytes := by
  intro hsub
  have h₁ := hsub (show pos ∈ dataBytes pos size from ⟨le_rfl, by omega⟩)
  have h₂ := hsub (show pos + size - 1 ∈ dataBytes pos size from ⟨by omega, by omega⟩)
  have h₃ := h₁.1
  have h₄ := h₂.2
  omega

end Placed

/-- **A new pointer**: what `aligned_alloc` has done to the memory `mem`. -/
structure Allocated (mem : Memory) (block : Block) (pos size : ℕ) (mem' : Memory) : Prop where
  fresh : mem.Fresh (2 ^ 64) block
  placed : Placed block pos size
  blocks : mem'.blocks = block :: mem.blocks
  header : Memory.load mem'.bytes (pos - sizeofPointer) sizeofPointer = block.start
  frame : ∀ i ∉ block.bytes, mem'.bytes i = mem.bytes i

section Allocated

variable {mem mem' : Memory} {block : Block} {pos size : ℕ}

theorem Allocated.pointer_pos (h : Allocated mem block pos size mem') : 0 < pos :=
  h.fresh.pos.trans_le ((Nat.le_add_right _ _).trans h.placed.header_le)

theorem Allocated.data_le (h : Allocated mem block pos size mem') : pos + size ≤ 2 ^ 64 :=
  h.placed.data_le.trans h.fresh.le

end Allocated

variable {A} {mem : Memory} {size alignment : BitVec 64}

/-- The sum that `malloc` is given does not wrap. -/
def NoWrap (size alignment : BitVec 64) : Prop :=
  size.toNat + sizeofPointer + alignment.toNat - 1 < 2 ^ 64

instance (size alignment : BitVec 64) : Decidable (NoWrap size alignment) :=
  inferInstanceAs (Decidable (_ < _))

theorem alignment_pos (h : alignValid alignment = true) : 0 < alignment.toNat := by
  obtain ⟨k, hk⟩ := (alignValid_iff alignment).mp h
  rw [hk]
  exact Nat.two_pow_pos k

theorem room_toNat (h : alignValid alignment = true) : (room size alignment).toNat =
    (size.toNat + sizeofPointer + alignment.toNat - 1) % 2 ^ 64 := by
  have hpos := alignment_pos h
  have hone : (1 : BitVec 64).toNat = 1 := rfl
  rw [room, BitVec.toNat_sub, BitVec.toNat_add, BitVec.toNat_add, BitVec.toNat_ofNat, hone,
    sizeofPointer]
  omega

theorem alignedAlloc_ne_zero (h : (alignedAlloc A mem size alignment).1 ≠ 0) :
    size ≠ 0 ∧ alignValid alignment = true ∧
      A.malloc mem (room size alignment).toNat ≠ 0 := by
  unfold alignedAlloc at h
  split_ifs at h with h₁ h₂
  · exact absurd rfl h
  · exact absurd rfl h
  · exact ⟨h₁, by simpa using h₂, fun h₃ => h (congrArg Prod.fst (if_pos h₃))⟩

theorem toNat_sub_header {p : BitVec 64} (h : sizeofPointer ≤ p.toNat) :
    (p - BitVec.ofNat 64 sizeofPointer).toNat = p.toNat - sizeofPointer := by
  have hlt := p.isLt
  rw [BitVec.toNat_sub, BitVec.toNat_ofNat]
  unfold sizeofPointer at h ⊢
  omega

/-- **`aligned_alloc`**, where the size does not wrap. -/
theorem alignedAlloc_spec (hno : NoWrap size alignment)
    (h : (alignedAlloc A mem size alignment).1 ≠ 0) :
    Allocated mem ⟨A.malloc mem (room size alignment).toNat, (room size alignment).toNat⟩
        (alignedAlloc A mem size alignment).1.toNat size.toNat
        (alignedAlloc A mem size alignment).2 ∧
      alignment.toNat ∣ (alignedAlloc A mem size alignment).1.toNat := by
  obtain ⟨hsize, hvalid, hmalloc⟩ := alignedAlloc_ne_zero h
  have hfresh := A.fresh mem _ hmalloc
  have hpos := alignment_pos hvalid
  have hroom : (room size alignment).toNat = size.toNat + sizeofPointer + alignment.toNat - 1 :=
    (room_toNat hvalid).trans (Nat.mod_eq_of_lt hno)
  have hsize' : 0 < size.toNat := Nat.pos_of_ne_zero fun h₀ => hsize (BitVec.eq_of_toNat_eq h₀)
  have hle := hfresh.le
  have hlt := hfresh.lt
  generalize hm : A.malloc mem (room size alignment).toNat = m at hmalloc hfresh hle hlt
  simp only [hroom] at hle
  unfold sizeofPointer at hle
  have hsum : (BitVec.ofNat 64 m + BitVec.ofNat 64 sizeofPointer + alignment - 1).toNat =
      m + sizeofPointer + alignment.toNat - 1 := by
    have hone : (1 : BitVec 64).toNat = 1 := rfl
    rw [BitVec.toNat_sub, BitVec.toNat_add, BitVec.toNat_add, BitVec.toNat_ofNat,
      BitVec.toNat_ofNat, hone]
    unfold sizeofPointer
    omega
  have hresult : alignedAlloc A mem size alignment =
      (alignUp (BitVec.ofNat 64 m + BitVec.ofNat 64 sizeofPointer) alignment,
        { mem.allocate A ⟨m, (room size alignment).toNat⟩ with
          bytes := Memory.store (mem.allocate A ⟨m, (room size alignment).toNat⟩).bytes
            (alignUp (BitVec.ofNat 64 m + BitVec.ofNat 64 sizeofPointer) alignment -
              BitVec.ofNat 64 sizeofPointer).toNat sizeofPointer m }) := by
    unfold alignedAlloc
    rw [if_neg hsize, if_neg (by simp [hvalid]), hm]
    exact if_neg hmalloc
  have hp : (alignUp (BitVec.ofNat 64 m + BitVec.ofNat 64 sizeofPointer) alignment).toNat =
      (m + sizeofPointer + alignment.toNat - 1) / alignment.toNat * alignment.toNat := by
    rw [alignUp_toNat _ hvalid, hsum]
  have hdiv := Nat.div_add_mod (m + sizeofPointer + alignment.toNat - 1) alignment.toNat
  have hmod := Nat.mod_lt (m + sizeofPointer + alignment.toNat - 1) hpos
  rw [mul_comm, ← hp] at hdiv
  rw [hresult]
  generalize alignUp (BitVec.ofNat 64 m + BitVec.ofNat 64 sizeofPointer) alignment = p at hp hdiv
  have hplaced : Placed ⟨m, (room size alignment).toNat⟩ p.toNat size.toNat :=
    ⟨by simp only; omega, by simp only; omega⟩
  have hheader : (p - BitVec.ofNat 64 sizeofPointer).toNat = p.toNat - sizeofPointer :=
    toNat_sub_header ((Nat.le_add_left _ _).trans hplaced.header_le)
  refine ⟨⟨hfresh, hplaced, rfl, ?_, fun i hi => ?_⟩, hp ▸ Nat.dvd_mul_left _ _⟩
  · simp only [hheader]
    exact Memory.load_store (hlt.trans_le (by decide))
  · have hi' : i ∉ Set.Ico (p.toNat - sizeofPointer) (p.toNat - sizeofPointer + sizeofPointer) := by
      have h₁ := hplaced.header_le
      rw [Nat.sub_add_cancel (by simp only at h₁; omega)]
      exact fun hmem => hi (hplaced.header_subset hmem)
    simp only [hheader]
    rw [Memory.store_of_notMem hi']
    exact Memory.spoil_of_notMem A mem hi

/-- **`aligned_free`** frees the block, as long as the header is what it was. -/
theorem alignedFree_eq {block : Block} {p : BitVec 64} {n : ℕ} {mem' later : Memory}
    (h : Allocated mem block p.toNat n mem')
    (hlater : ∀ i ∈ headerBytes p.toNat, later.bytes i = mem'.bytes i) :
    alignedFree A later p = later.free A block.start := by
  have hle := h.placed.header_le
  have hne : p ≠ 0 := fun h₀ => by
    rw [h₀] at hle
    exact absurd hle (by simp [sizeofPointer])
  have hle' : sizeofPointer ≤ p.toNat := (Nat.le_add_left _ _).trans hle
  have hload : Memory.load later.bytes (p.toNat - sizeofPointer) sizeofPointer = block.start := by
    rw [← h.header]
    refine Memory.load_congr fun i hi => hlater i ?_
    rwa [Nat.sub_add_cancel hle'] at hi
  unfold alignedFree
  rw [if_neg hne]
  dsimp only
  rw [toNat_sub_header hle', hload]

/-! ## Every size and alignment -/

/-- What a result that is not null should be. -/
structure Inside (A : Memory.Allocator (2 ^ 64)) (mem : Memory) (size alignment p : BitVec 64)
    (mem' : Memory) (block : Block) : Prop where
  power : ∃ k, alignment.toNat = 2 ^ k
  aligned : alignment.toNat ∣ p.toNat
  header : sizeofPointer ≤ p.toNat ∧ headerBytes p.toNat ⊆ block.bytes
  data : dataBytes p.toNat size.toNat ⊆ block.bytes
  disjoint : Disjoint (headerBytes p.toNat) (dataBytes p.toNat size.toNat)
  free : ∀ later : Memory, (∀ i ∉ dataBytes p.toNat size.toNat, later.bytes i = mem'.bytes i) →
    alignedFree A later p = later.free A block.start

/-- Where the size wraps, there is an allocator that gives a block that is too small. -/
theorem exists_small_block (hsize : size ≠ 0) (hvalid : alignValid alignment = true)
    (hwrap : ¬ NoWrap size alignment) :
    (alignedAlloc (.bump (2 ^ 64)) ⟨fun _ => 0, []⟩ size alignment).1 ≠ 0 ∧
      (room size alignment).toNat < size.toNat := by
  obtain ⟨k, hk⟩ := (alignValid_iff alignment).mp hvalid
  have hle : alignment.toNat ≤ 2 ^ 63 := by
    have hlt : k < 64 := (Nat.pow_lt_pow_iff_right (by decide : 1 < 2)).mp (hk ▸ alignment.isLt)
    rw [hk]
    exact Nat.pow_le_pow_right (by decide) (by omega)
  have hpos := alignment_pos hvalid
  have hlt := size.isLt
  have hroom : (room size alignment).toNat =
      (size.toNat + sizeofPointer + alignment.toNat - 1) % 2 ^ 64 := room_toNat hvalid
  unfold NoWrap at hwrap
  unfold sizeofPointer at hwrap hroom
  refine ⟨?_, by omega⟩
  have hmalloc : (Memory.Allocator.bump (2 ^ 64)).malloc ⟨fun _ => 0, []⟩
      (room size alignment).toNat = 16 := by
    refine if_pos ⟨by decide, ?_⟩
    change 16 + _ ≤ _
    omega
  have hp : (alignedAlloc (.bump (2 ^ 64)) ⟨fun _ => 0, []⟩ size alignment).1 =
      alignUp 24 alignment := by
    unfold alignedAlloc
    rw [if_neg hsize, if_neg (by simp [hvalid]), hmalloc]
    rfl
  rw [hp]
  intro hzero
  have hval := alignUp_toNat 24 hvalid
  have hone : (1 : BitVec 64).toNat = 1 := rfl
  have htwentyfour : (24 : BitVec 64).toNat = 24 := rfl
  rw [hzero, BitVec.toNat_sub, BitVec.toNat_add, hone, htwentyfour] at hval
  have hsum : (2 ^ 64 - 1 + (24 + alignment.toNat) % 2 ^ 64) % 2 ^ 64 = 23 + alignment.toNat := by
    omega
  rw [hsum, Nat.add_div_right _ hpos, Nat.succ_mul] at hval
  have : (0 : BitVec 64).toNat = 0 := rfl
  omega

/-- **When a pointer and its data are inside their block.** For every allocator and memory, what
`aligned_alloc` returns is null, or is as it should be, just when there is nothing to do, or the
size that it computes does not wrap. -/
theorem inside_iff (size alignment : BitVec 64) :
    (∀ (A : Memory.Allocator (2 ^ 64)) (mem : Memory),
      (alignedAlloc A mem size alignment).1 ≠ 0 →
      Inside A mem size alignment (alignedAlloc A mem size alignment).1
        (alignedAlloc A mem size alignment).2
        ⟨A.malloc mem (room size alignment).toNat, (room size alignment).toNat⟩) ↔
      size = 0 ∨ alignValid alignment = false ∨ NoWrap size alignment := by
  constructor
  · intro hall
    by_contra hcond
    obtain ⟨hsize, hvalid, hwrap⟩ : size ≠ 0 ∧ alignValid alignment = true ∧
        ¬ NoWrap size alignment := by simpa using hcond
    obtain ⟨hp, hsmall⟩ := exists_small_block hsize hvalid hwrap
    exact absurd (hall _ _ hp).data (not_data_subset hsmall)
  · intro hcond A mem hp
    obtain ⟨hsize, hvalid, -⟩ := alignedAlloc_ne_zero hp
    have hno : NoWrap size alignment := by
      rcases hcond with h₀ | hinvalid | hno
      · exact absurd h₀ hsize
      · rw [hvalid] at hinvalid
        cases hinvalid
      · exact hno
    obtain ⟨halloc, haligned⟩ := alignedAlloc_spec hno hp
    refine ⟨(alignValid_iff alignment).mp hvalid, haligned,
      ⟨(Nat.le_add_left _ _).trans halloc.placed.header_le, halloc.placed.header_subset⟩,
      halloc.placed.data_subset, disjoint_header_data _ _, fun later hlater => ?_⟩
    refine alignedFree_eq halloc fun i hi => hlater i ?_
    exact Set.disjoint_left.mp (disjoint_header_data _ _) hi

/-- A request for all bytes but 7 gets a block of 15 ones. -/
theorem alignedAlloc_outside :
    let A := Memory.Allocator.bump (2 ^ 64)
    let mem : Memory := ⟨fun _ => 0, []⟩
    let size : BitVec 64 := BitVec.ofNat 64 (2 ^ 64 - 8)
    (alignedAlloc A mem size 16).1 = 32 ∧ (room size 16).toNat = 15 ∧
      ¬ Inside A mem size 16 32 (alignedAlloc A mem size 16).2 ⟨16, 15⟩ := by
  intro A mem size
  refine ⟨by decide, by decide, fun h => ?_⟩
  exact not_data_subset (by decide) h.data

end AlignedMalloc

end RtcBase
