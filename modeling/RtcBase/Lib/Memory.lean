import Mathlib

/-!
# Memory

Bytes at addresses, and the blocks that are allocated.

* `Block`, `Memory`: a range of addresses; the bytes, and the blocks;
* `load`, `store`, **`load_store`**: numbers in consecutive bytes, the lowest first;
* `load_congr`: a load depends on its own bytes only;
* **`Allocator`**: any `malloc` that returns null or a new block, with what it leaves in a block;
* `allocate`, `free`: a new block, and a block that is no more;
* `Allocator.bump`: an allocator that only goes up.
-/

/-- The addresses from `start` on. -/
structure Block where
  start : ℕ
  size : ℕ
  deriving DecidableEq, Repr

/-- What is at every address, and the blocks that are allocated. -/
structure Memory where
  bytes : ℕ → UInt8
  blocks : List Block

namespace Memory

/-! ## Numbers in memory -/

section Bytes

variable {bytes bytes' : ℕ → UInt8} {a i n v : ℕ}

/-- The number in the `n` bytes from `a` on. -/
def load (bytes : ℕ → UInt8) (a : ℕ) : ℕ → ℕ
  | 0 => 0
  | n + 1 => (bytes a).toNat + 256 * load bytes (a + 1) n

/-- The number `v` in the `n` bytes from `a` on. -/
def store (bytes : ℕ → UInt8) (a n v : ℕ) : ℕ → UInt8 := fun i =>
  if i ∈ Set.Ico a (a + n) then UInt8.ofNat (v / 256 ^ (i - a)) else bytes i

theorem store_of_notMem (h : i ∉ Set.Ico a (a + n)) : store bytes a n v i = bytes i := if_neg h

theorem load_congr (h : ∀ i ∈ Set.Ico a (a + n), bytes i = bytes' i) :
    load bytes a n = load bytes' a n := by
  induction n generalizing a with
  | zero => rfl
  | succ n ih =>
    have hrest : ∀ i ∈ Set.Ico (a + 1) (a + 1 + n), bytes i = bytes' i := fun i ⟨h₁, h₂⟩ =>
      h i ⟨by omega, by omega⟩
    rw [load, load, h a ⟨le_rfl, by omega⟩, ih hrest]

theorem load_eq (h : ∀ k < n, bytes (a + k) = UInt8.ofNat (v / 256 ^ k)) :
    load bytes a n = v % 256 ^ n := by
  induction n generalizing a v with
  | zero => rw [load, pow_zero, Nat.mod_one]
  | succ n ih =>
    have hfirst : (bytes a).toNat = v % 256 := by
      have := h 0 (Nat.succ_pos n)
      rw [add_zero, pow_zero, Nat.div_one] at this
      rw [this, UInt8.toNat_ofNat']
    have hrest : load bytes (a + 1) n = v / 256 % 256 ^ n := ih fun k hk => by
      rw [add_assoc, add_comm 1 k, h (k + 1) (by omega), pow_succ', Nat.div_div_eq_div_mul]
    rw [load, hfirst, hrest, pow_succ', Nat.mod_mul]

/-- **A number that is stored is read back.** -/
theorem load_store (hv : v < 256 ^ n) : load (store bytes a n v) a n = v := by
  refine (load_eq fun k hk => ?_).trans (Nat.mod_eq_of_lt hv)
  rw [store, if_pos ⟨by omega, by omega⟩, Nat.add_sub_cancel_left]

end Bytes

/-! ## Blocks -/

end Memory

/-- The addresses of the block. -/
def Block.bytes (b : Block) : Set ℕ := Set.Ico b.start (b.start + b.size)

instance (b : Block) (i : ℕ) : Decidable (i ∈ b.bytes) :=
  inferInstanceAs (Decidable (b.start ≤ i ∧ i < b.start + b.size))

namespace Memory

/-- A block of addresses below `limit` that shares none with another block. -/
structure Fresh (limit : ℕ) (mem : Memory) (b : Block) : Prop where
  pos : 0 < b.start
  lt : b.start < limit
  le : b.start + b.size ≤ limit
  new : ∀ b' ∈ mem.blocks, b'.start ≠ b.start
  disjoint : ∀ b' ∈ mem.blocks, Disjoint b.bytes b'.bytes

/-- **Any allocator** of addresses below `limit`. `malloc` gives the start of a new block, or 0;
`garbage` is what is in a block that is new, or no more. -/
structure Allocator (limit : ℕ) where
  malloc : Memory → ℕ → ℕ
  garbage : Memory → ℕ → UInt8
  fresh : ∀ mem n, malloc mem n ≠ 0 → mem.Fresh limit ⟨malloc mem n, n⟩

section Allocator

variable {limit : ℕ} (A : Allocator limit) (mem : Memory)

/-- The bytes with garbage in a block. -/
def spoil (b : Block) : ℕ → UInt8 := fun i => if i ∈ b.bytes then A.garbage mem i else mem.bytes i

theorem spoil_of_notMem {b : Block} {i : ℕ} (h : i ∉ b.bytes) : spoil A mem b i = mem.bytes i :=
  if_neg h

/-- The memory after a block has been handed out. -/
def allocate (b : Block) : Memory where
  bytes := spoil A mem b
  blocks := b :: mem.blocks

/-- There must be a block to free, unless the address is 0. -/
def free (start : ℕ) : Option Memory :=
  if start = 0 then some mem
  else (mem.blocks.find? (·.start = start)).map fun b =>
    { bytes := spoil A mem b
      blocks := mem.blocks.erase b }

/-- A block is found by its start, when no other block has the same one. -/
theorem free_eq {b : Block} (h₀ : b.start ≠ 0) (hb : b ∈ mem.blocks)
    (hstarts : (mem.blocks.map Block.start).Nodup) :
    mem.free A b.start = some ⟨spoil A mem b, mem.blocks.erase b⟩ := by
  have hfind : mem.blocks.find? (·.start = b.start) = some b := by
    obtain ⟨before, after, hblocks⟩ := List.append_of_mem hb
    have hbefore : ∀ b' ∈ before, b'.start ≠ b.start := by
      rw [hblocks, List.map_append] at hstarts
      exact fun b' hb' => List.disjoint_iff_ne.mp (List.nodup_append'.mp hstarts).2.2 _
        (List.mem_map_of_mem hb') _ List.mem_cons_self
    have hnone : before.find? (·.start = b.start) = none :=
      List.find?_eq_none.mpr fun b' hb' => by simpa using hbefore b' hb'
    rw [hblocks, List.find?_append, hnone]
    simp
  rw [free, if_neg h₀, hfind, Option.map_some]

end Allocator

/-- The first address behind all blocks. -/
def top (blocks : List Block) : ℕ := (blocks.map fun b => b.start + b.size + 1).foldr max 16

theorem lt_top {blocks : List Block} : ∀ b ∈ blocks, b.start + b.size < top blocks := by
  induction blocks with
  | nil => exact fun b hb => absurd hb List.not_mem_nil
  | cons b blocks ih =>
    intro b' hb'
    rw [top, List.map_cons, List.foldr_cons, ← top]
    rcases List.mem_cons.mp hb' with rfl | hb'
    · exact Nat.lt_of_succ_le (le_max_left _ _)
    · exact (ih b' hb').trans_le (le_max_right _ _)

theorem sixteen_le_top (blocks : List Block) : 16 ≤ top blocks := by
  induction blocks with
  | nil => exact le_rfl
  | cons b blocks ih => exact ih.trans (le_max_right _ _)

/-- An allocator that only goes up. -/
def Allocator.bump (limit : ℕ) : Allocator limit where
  malloc mem n :=
    if top mem.blocks < limit ∧ top mem.blocks + n ≤ limit then top mem.blocks else 0
  garbage _ _ := 0
  fresh mem n h := by
    split_ifs at h ⊢ with hn
    · have h₁₆ := sixteen_le_top mem.blocks
      refine ⟨by simp only; omega, hn.1, hn.2, fun b hb => ?_, fun b hb => ?_⟩
      · have := lt_top b hb
        simp only
        omega
      · have := lt_top b hb
        refine Set.disjoint_left.mpr ?_
        rintro i ⟨h₁, -⟩ ⟨-, h₂⟩
        simp only at h₁
        omega
    · exact absurd rfl h

end Memory
