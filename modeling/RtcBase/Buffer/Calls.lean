import RtcBase.Buffer.Model

/-!
# What the calls on a buffer do

* `Whole`, `Sound`: what a buffer is like between calls, moved from or not;
* `CleanFrom`: from some cell on, no cell of a block is held;
* `Grown`: what every call keeps that may allocate;
* `ensureCapacityWithHeadroom_spec`, `setSize_spec`: what these two do to a buffer;
* `appendData_ok`, `appendDataSetter_ok`, `setData_ok`, `setDataSetter_ok`: what the calls that add
  elements have done when they return;
* `appendData_returns`, `appendDataSetter_returns`, `setData_returns`, `setDataSetter_returns`: that
  they return.
-/

namespace RtcBase

open Word

namespace BufferT

variable {T : Type}

/-! ## Cells -/

/-- No cell from `k` on holds an element. -/
def CleanFrom (block : Block T) (k : ℕ) : Prop := ∀ c ∈ block.drop k, c.held = false

theorem CleanFrom.mono {block : Block T} {k k' : ℕ} (h : CleanFrom block k) (hk : k ≤ k') :
    CleanFrom block k' := by
  intro c hc
  rw [← Nat.add_sub_of_le hk, ← List.drop_drop] at hc
  exact h c (List.mem_of_mem_drop hc)

section Overwrite

variable {block new : Block T} {i k : ℕ}

theorem length_overwrite (h : i + new.length ≤ block.length) :
    (overwrite block i new).length = block.length := by
  simp only [overwrite, List.length_append, List.length_take, List.length_drop]
  omega

theorem take_overwrite (hk : k ≤ i) (h : i ≤ block.length) :
    (overwrite block i new).take k = block.take k := by
  rw [overwrite, List.append_assoc, List.take_append_of_le_length (by simp; omega), List.take_take,
    min_eq_left hk]

theorem take_overwrite_add {j : ℕ} (h : i ≤ block.length) (hj : j ≤ new.length) :
    (overwrite block i new).take (i + j) = block.take i ++ new.take j := by
  have hlen : (block.take i).length = i := by simp [h]
  rw [overwrite, List.take_append_of_le_length (by simp [h, hj]), List.take_append, hlen,
    List.take_of_length_le (by omega), Nat.add_sub_cancel_left]

theorem take_overwrite_append (h : i ≤ block.length) :
    (overwrite block i new).take (i + new.length) = block.take i ++ new := by
  rw [take_overwrite_add h (le_refl _), List.take_length]

theorem drop_overwrite (hk : i + new.length ≤ k) (h : i + new.length ≤ block.length) :
    (overwrite block i new).drop k = block.drop k := by
  have hlen : (block.take i ++ new).length = i + new.length := by simp; omega
  rw [overwrite, List.drop_append, List.drop_eq_nil_of_le (by omega), List.nil_append, hlen,
    List.drop_drop, Nat.add_sub_of_le hk]

theorem drop_overwrite_self (h : i ≤ block.length) :
    (overwrite block i new).drop i = new ++ block.drop (i + new.length) := by
  rw [overwrite, List.append_assoc, List.drop_append_of_le_length (by simp [h]),
    List.drop_eq_nil_of_le (by simp), List.nil_append]

theorem drop_overwrite_add {j : ℕ} (h : i ≤ block.length)
    (hj : new.drop j = ((block.drop i).take new.length).drop j)
    (hlen : i + new.length ≤ block.length) :
    (overwrite block i new).drop (i + j) = block.drop (i + j) := by
  have htake : ((block.drop i).take new.length).length = new.length := by simp; omega
  rw [← List.drop_drop, ← List.drop_drop, drop_overwrite_self h, List.drop_append, hj]
  conv_rhs => rw [← List.take_append_drop new.length (block.drop i), List.drop_append, htake,
    List.drop_drop]
  rw [List.drop_drop, List.drop_drop, Nat.add_assoc]

theorem cleanFrom_overwrite (hc : CleanFrom block k) (h : i + new.length ≤ block.length) :
    CleanFrom (overwrite block i new) (max k (i + new.length)) := by
  intro c hmem
  rw [drop_overwrite (le_max_right _ _) h] at hmem
  exact hc.mono (le_max_left _ _) c hmem

theorem cleanFrom_zeros (build : Build T) (n : ℕ) (hc : CleanFrom block (i + n))
    (h : i ≤ block.length) : CleanFrom (overwrite block i (zeros build n)) i := by
  intro c hmem
  rw [drop_overwrite_self h, zeros, List.length_replicate, List.mem_append] at hmem
  rcases hmem with hmem | hmem
  · rw [List.eq_of_mem_replicate hmem]
  · exact hc c hmem

end Overwrite

theorem length_newBlock (fresh : ℕ → T) (n : ℕ) : (newBlock fresh n).length = n := by
  simp [newBlock]

theorem cleanFrom_newBlock (fresh : ℕ → T) (n : ℕ) : CleanFrom (newBlock fresh n) 0 := by
  intro c hc
  obtain ⟨i, -, rfl⟩ := List.mem_map.mp (List.mem_of_mem_drop hc)
  rfl

/-! ## Buffers -/

/-- What a buffer is like between calls. -/
structure Whole (b : BufferT T) : Prop where
  length : b.block.length = b.capacity_
  null : b.data_ = none ↔ b.capacity_ = 0
  lt : b.capacity_ < 2 ^ 64

/-- The same for a buffer that has a size. -/
structure Sound (b : BufferT T) : Prop extends Whole b where
  size : b.size_ ≤ b.capacity_

variable {b b' : BufferT T}

theorem Whole.isConsistent (h : Whole b) : b.isConsistent = decide (b.size_ ≤ b.capacity_) := by
  have hnull : (b.data_.isSome || decide (b.capacity_ = 0)) = true := by
    cases hd : b.data_ with
    | none => simpa using h.null.mp hd
    | some block => rfl
  rw [BufferT.isConsistent, hnull, Bool.true_and]

theorem Sound.isConsistent (h : Sound b) : b.isConsistent = true := by
  rw [h.toWhole.isConsistent, decide_eq_true h.size]

/-! ### Checks and memory -/

section Build

variable {build : Build T}

theorem bind_ok {α β : Type} {x : Except Fault α} {f : α → Except Fault β} {r : β} :
    (x >>= f) = .ok r ↔ ∃ a, x = .ok a ∧ f a = .ok r := by
  cases x <;> simp [bind, Except.bind]

theorem bind_of_ok {α β : Type} {x : Except Fault α} {a : α} (h : x = .ok a)
    (f : α → Except Fault β) : (x >>= f) = f a := by
  rw [h]
  rfl

theorem dcheck_ok {p : Bool} : dcheck build p = .ok () ↔ (build.dcheckIsOn = true → p = true) := by
  cases hd : build.dcheckIsOn <;> cases p <;> simp [dcheck, hd]

theorem dcheck_true {p : Bool} (h : p = true) : dcheck build p = .ok () :=
  dcheck_ok.mpr fun _ => h

theorem write_spec (h : Whole b) (i : ℕ) (cells : Block T)
    (hi : i + cells.length ≤ b.capacity_) :
    ∃ b', b.write i cells = .ok b' ∧ Whole b' ∧ b'.block = overwrite b.block i cells ∧
      b'.size_ = b.size_ ∧ b'.capacity_ = b.capacity_ := by
  have hi' : i + cells.length ≤ b.block.length := by rw [h.length]; exact hi
  have hblock : BufferT.block { b with data_ := b.data_.map fun l => overwrite l i cells } =
      overwrite b.block i cells := by
    cases hd : b.data_ with
    | none =>
      -- nothing fits into a null pointer
      rw [h.null.mp hd] at hi
      obtain ⟨rfl, hcells⟩ : i = 0 ∧ cells.length = 0 := by omega
      simp [block, overwrite, hd, List.length_eq_zero_iff.mp hcells]
    | some l => simp [block, hd]
  refine ⟨_, if_pos hi', ⟨?_, ?_, h.lt⟩, hblock, rfl, rfl⟩
  · rw [hblock, length_overwrite hi', h.length]
  · simpa using h.null

theorem read_eq {i n : ℕ} (hi : i + n ≤ b.block.length) :
    b.read i n = .ok ((b.block.drop i).take n) := if_pos hi

theorem write_ok (h : Whole b) {i : ℕ} {cells : Block T} (hok : b.write i cells = .ok b') :
    i + cells.length ≤ b.capacity_ ∧ Whole b' ∧ b'.block = overwrite b.block i cells ∧
      b'.size_ = b.size_ ∧ b'.capacity_ = b.capacity_ := by
  have hi : i + cells.length ≤ b.capacity_ := by
    by_contra hi
    rw [write, if_neg (by rw [h.length]; exact hi)] at hok
    cases hok
  obtain ⟨b₁, hb₁, hspec⟩ := write_spec h i cells hi
  obtain rfl : b' = b₁ := Except.ok.inj (hok.symm.trans hb₁)
  exact ⟨hi, hspec⟩

/-- A block as it is when it is released. -/
def Zeroed (build : Build T) (block : Block T) : Prop := ∀ c ∈ block, c = ⟨build.zero, false⟩

theorem Zeroed.released (h : Zeroed build b.block) :
    ∀ block ∈ b.data_.toList, Zeroed build block := by
  intro block' hb
  rw [Option.mem_toList] at hb
  rw [block, hb] at h
  exact h

theorem maybeZeroCompleteBuffer_spec (build : Build T) (h : Whole b) :
    ∃ b', b.maybeZeroCompleteBuffer build = .ok b' ∧ Whole b' ∧ b'.size_ = b.size_ ∧
      b'.capacity_ = b.capacity_ ∧ (build.zeroOnFree = true → Zeroed build b'.block) := by
  rw [maybeZeroCompleteBuffer]
  split_ifs with hz
  · obtain ⟨b', hb', hw, hblock, hs, hc⟩ := write_spec h 0
      (zeros build b.capacity_) (by simp [zeros])
    refine ⟨b', hb', hw, hs, hc, fun _ c hc => ?_⟩
    rw [hblock, overwrite, List.take_zero, List.nil_append, List.mem_append] at hc
    rcases hc with hc | hc
    · exact List.eq_of_mem_replicate hc
    · rw [zeros, List.length_replicate, zero_add, List.drop_eq_nil_of_le h.length.le] at hc
      cases hc
  · refine ⟨b, rfl, h, rfl, rfl, fun hzero c hc => ?_⟩
    have hcap : b.capacity_ = 0 := by
      by_contra hne
      exact hz ⟨hzero, Nat.pos_of_ne_zero hne⟩
    rw [← h.length, List.length_eq_zero_iff] at hcap
    rw [hcap] at hc
    cases hc

/-- What every call keeps that may allocate. -/
structure Grown (build : Build T) (b b' : BufferT T) (realloc : Realloc T) : Prop where
  sound : Sound b'
  capacity : b.capacity_ ≤ b'.capacity_
  zeroed : build.zeroOnFree = true → ∀ block ∈ realloc.released, Zeroed build block

variable (build) (fresh : ℕ → T)

/-- **`EnsureCapacityWithHeadroom`** keeps the elements, and what is clean behind them. -/
theorem ensureCapacityWithHeadroom_spec (h : Sound b) {n : ℕ} (hn : n < 2 ^ 64)
    (extra_headroom : Bool) :
    ∃ b' realloc,
      b.ensureCapacityWithHeadroom build fresh n extra_headroom = .ok (b', realloc) ∧
      Grown build b b' realloc ∧ n ≤ b'.capacity_ ∧ b'.size_ = b.size_ ∧
      b'.block.take b.size_ = b.block.take b.size_ ∧
      ∀ k, b.size_ ≤ k → CleanFrom b.block k → CleanFrom b'.block k := by
  rw [ensureCapacityWithHeadroom, bind_of_ok (dcheck_true h.isConsistent)]
  by_cases hle : n ≤ b.capacity_
  · rw [if_pos hle]
    exact ⟨b, ⟨[], 0⟩, rfl, ⟨h, le_refl _, fun _ block hb => by cases hb⟩, hle, rfl, rfl,
      fun k _ hc => hc⟩
  · rw [if_neg hle]
    generalize hnc : (if extra_headroom = true then
      max n (sizeT (b.capacity_ + b.capacity_ / 2)) else n) = nc
    have hnnc : n ≤ nc := by
      rw [← hnc]
      split_ifs
      · exact le_max_left _ _
      · exact le_refl n
    have hlt : nc < 2 ^ 64 := by
      rw [← hnc]
      split_ifs
      · exact max_lt hn (Nat.mod_lt _ (by norm_num))
      · exact hn
    have hsize := h.size
    have hblock : 0 + b.size_ ≤ b.block.length := by rw [h.length]; omega
    have hlen : (b.block.take b.size_).length = b.size_ := by simp; omega
    have hnew : Whole (⟨0, nc, some (newBlock fresh nc)⟩ : BufferT T) :=
      ⟨length_newBlock fresh nc, by simp; omega, hlt⟩
    obtain ⟨new_data, hwrite, hw, hdata, -, hcap⟩ := write_spec hnew 0
      (b.block.take b.size_) (by rw [hlen]; change 0 + b.size_ ≤ nc; omega)
    obtain ⟨old, hold, -, hs, -, hzero⟩ := maybeZeroCompleteBuffer_spec build h.toWhole
    have hsound : Sound { old with data_ := new_data.data_, capacity_ := nc } := by
      refine ⟨⟨?_, ?_, hlt⟩, ?_⟩
      · exact hw.length.trans hcap
      · exact hw.null.trans (by rw [hcap])
      · change old.size_ ≤ nc
        omega
    dsimp only
    rw [bind_of_ok (read_eq hblock), List.drop_zero, bind_of_ok hwrite, bind_of_ok hold,
      bind_of_ok (dcheck_true hsound.isConsistent)]
    refine ⟨_, _, rfl, ⟨hsound, ?_, fun hz => (hzero hz).released⟩, hnnc, hs, ?_, fun k hk _ => ?_⟩
    · change b.capacity_ ≤ nc
      omega
    · have htake : (overwrite (newBlock fresh nc) 0 (b.block.take b.size_)).take
          (0 + (b.block.take b.size_).length) = _ := take_overwrite_append (Nat.zero_le _)
      rw [hlen, zero_add] at htake
      change new_data.block.take b.size_ = _
      rw [hdata]
      exact htake
    · have hbound : 0 + (b.block.take b.size_).length ≤ (newBlock fresh nc).length := by
        rw [hlen, length_newBlock]
        omega
      have hclean := cleanFrom_overwrite (cleanFrom_newBlock fresh nc) hbound
      rw [hlen] at hclean
      change CleanFrom new_data.block k
      rw [hdata]
      exact hclean.mono (by omega)

/-! ### Sizes -/

theorem zeroTrailingData_spec (h : Sound b) {count : ℕ} (hcount : b.size_ + count ≤ b.capacity_) :
    ∃ b', b.zeroTrailingData build count = .ok b' ∧ Sound b' ∧ b'.size_ = b.size_ ∧
      b'.capacity_ = b.capacity_ ∧ b'.block.take b.size_ = b.block.take b.size_ ∧
      (CleanFrom b.block (b.size_ + count) → CleanFrom b'.block b.size_) := by
  have hlt := h.lt
  have hsub : decide (count ≤ sizeSub b.capacity_ b.size_) = true := by
    rw [sizeSub_of_le h.size hlt, decide_eq_true_iff]
    omega
  have hsize : b.size_ ≤ b.block.length := by rw [h.length]; exact h.size
  obtain ⟨b', hwrite, hw, hblock, hs, hcap⟩ := write_spec h.toWhole b.size_ (zeros build count)
    (by rw [zeros, List.length_replicate]; exact hcount)
  rw [zeroTrailingData, bind_of_ok (dcheck_true h.isConsistent), bind_of_ok (dcheck_true hsub)]
  refine ⟨b', hwrite, ⟨hw, by rw [hs, hcap]; exact h.size⟩, hs, hcap, ?_, fun hc => ?_⟩
  · rw [hblock, take_overwrite (le_refl _) hsize]
  · rw [hblock]
    exact cleanFrom_zeros build count hc hsize

theorem zeroOld_spec (h : Sound b) {old_size : ℕ} (hold : old_size ≤ b.capacity_) :
    ∃ b', b.zeroOld build old_size = .ok b' ∧ Sound b' ∧ b'.size_ = b.size_ ∧
      b'.capacity_ = b.capacity_ ∧ b'.block.take b.size_ = b.block.take b.size_ ∧
      (build.zeroOnFree = true → CleanFrom b.block (max old_size b.size_) →
        CleanFrom b'.block b.size_) := by
  rw [zeroOld]
  split_ifs with hz
  · have hlt := h.lt
    have hsub : sizeSub old_size b.size_ = old_size - b.size_ :=
      sizeSub_of_le hz.2.le (by omega)
    obtain ⟨b', hb', hs, hsize, hcap, htake, hclean⟩ :=
      zeroTrailingData_spec build h (show b.size_ + (old_size - b.size_) ≤ b.capacity_ by omega)
    refine ⟨b', by rw [hsub]; exact hb', hs, hsize, hcap, htake, fun _ hc => hclean ?_⟩
    exact hc.mono (by omega)
  · refine ⟨b, rfl, h, rfl, rfl, rfl, fun hzero hc => ?_⟩
    have hle : old_size ≤ b.size_ := by
      by_contra hlt
      exact hz ⟨hzero, by omega⟩
    rw [max_eq_right hle] at hc
    exact hc

/-- **`SetSize`** truncates, or leaves new elements as they are. -/
theorem setSize_spec (h : Sound b) {n : ℕ} (hn : n < 2 ^ 64) :
    ∃ b' realloc, b.setSize build fresh n = .ok (b', realloc) ∧ Grown build b b' realloc ∧
      b'.size_ = n ∧ b'.block.take (min n b.size_) = b.block.take (min n b.size_) ∧
      (build.zeroOnFree = true → CleanFrom b.block b.size_ → CleanFrom b'.block n) ∧
      (b.size_ ≤ n → ∀ k, b.size_ ≤ k → CleanFrom b.block k → CleanFrom b'.block k) := by
  obtain ⟨b₁, realloc, hensure, hg, hn₁, hs₁, htake, hclean⟩ :=
    ensureCapacityWithHeadroom_spec build fresh h hn true
  have hlen := hg.sound.length
  have hcap := hg.capacity
  have hsize := h.size
  have hs : Sound { b₁ with size_ := n } := ⟨⟨hlen, hg.sound.null, hg.sound.lt⟩, hn₁⟩
  obtain ⟨b', hzero, hs', hs₂, hcap', htake', hclean'⟩ :=
    zeroOld_spec build hs (show b.size_ ≤ b₁.capacity_ by omega)
  rw [setSize, bind_of_ok hensure]
  dsimp only
  rw [bind_of_ok hzero]
  refine ⟨b', realloc, rfl, ⟨hs', hcap.trans hcap'.ge, hg.zeroed⟩, hs₂, ?_, fun hz hc => ?_,
    fun hle k hk hc => ?_⟩
  · have h₁ := congrArg (List.take b.size_) htake'
    have h₂ := congrArg (List.take n) htake
    rw [List.take_take, List.take_take, min_comm] at h₁
    rw [List.take_take, List.take_take] at h₂
    exact h₁.trans h₂
  · exact hclean' hz ((hclean _ (le_refl _) hc).mono (le_max_left _ _))
  · -- nothing has been zeroed
    rw [zeroOld, if_neg (by rintro ⟨-, hlt⟩; exact absurd hlt (not_lt.mpr hle))] at hzero
    cases hzero
    exact hclean k hk hc

/-! ### `AppendData` from a source -/

theorem map_value_holding (l : List T) : (l.map Cell.holding).map Cell.value = l := by
  rw [List.map_map]
  exact List.map_id l

/-- The elements, as a list of values. -/
def elements (b : BufferT T) : List T := (b.block.take b.size_).map Cell.value

theorem source_eq {data : List T} {n : ℕ} (hn : n ≤ data.length) :
    source data n = .ok ((data.take n).map Cell.holding) := if_pos hn

theorem source_ok {data : List T} {n : ℕ} {cells : Block T} (h : source data n = .ok cells) :
    n ≤ data.length ∧ cells = (data.take n).map Cell.holding := by
  rw [source] at h
  split_ifs at h with hn
  exact ⟨hn, (Except.ok.inj h).symm⟩

variable {build fresh}

/-- **`AppendData`**, where it returns. -/
theorem appendData_ok (h : Sound b) {data : List T} {n : ℕ} {realloc : Realloc T}
    (hok : b.appendData build fresh data n = .ok (b', realloc)) :
    Grown build b b' realloc ∧ b'.size_ = b.size_ + n ∧
      b'.elements = b.elements ++ data.take n ∧
      ∀ k, b.size_ ≤ k → CleanFrom b.block k → CleanFrom b'.block (max k b'.size_) := by
  obtain ⟨b₁, realloc₁, hensure, hg, hn₁, hs₁, htake, hclean⟩ :=
    ensureCapacityWithHeadroom_spec build fresh h
      (show sizeT (b.size_ + n) < 2 ^ 64 from Nat.mod_lt _ (by norm_num)) true
  rw [appendData, bind_of_ok (dcheck_true h.isConsistent)] at hok
  dsimp only at hok
  rw [bind_of_ok hensure] at hok
  dsimp only at hok
  obtain ⟨cells, hsource, hok⟩ := bind_ok.mp hok
  obtain ⟨hn, rfl⟩ := source_ok hsource
  obtain ⟨b₂, hwrite, hok⟩ := bind_ok.mp hok
  obtain ⟨hbound, hw, hblock, -, hcap⟩ := write_ok hg.sound.toWhole hwrite
  have hlen : ((data.take n).map Cell.holding).length = n := by simp [hn]
  rw [hlen, hs₁] at hbound
  rw [hs₁] at hblock
  have hlt := hg.sound.lt
  have hlen₁ := hg.sound.length
  have hsize : sizeT (b.size_ + n) = b.size_ + n := sizeT_of_lt (by omega)
  obtain ⟨u, -, hok⟩ := bind_ok.mp hok
  cases hok
  refine ⟨⟨⟨⟨hw.length, hw.null, hw.lt⟩, ?_⟩, ?_, hg.zeroed⟩, hsize, ?_, fun k hk hc => ?_⟩
  · change sizeT (b.size_ + n) ≤ b₂.capacity_
    omega
  · change b.capacity_ ≤ b₂.capacity_
    rw [hcap]
    exact hg.capacity
  · change (b₂.block.take (sizeT (b.size_ + n))).map Cell.value = _
    have happend : (overwrite b₁.block b.size_ ((data.take n).map Cell.holding)).take
        (b.size_ + ((data.take n).map Cell.holding).length) = _ :=
      take_overwrite_append (by omega)
    rw [hlen] at happend
    rw [hsize, hblock, happend, htake, List.map_append, map_value_holding]
    rfl
  · change CleanFrom b₂.block (max k (sizeT (b.size_ + n)))
    have hc₂ := cleanFrom_overwrite (hclean k hk hc)
      (show b.size_ + ((data.take n).map Cell.holding).length ≤ b₁.block.length by omega)
    rw [hlen] at hc₂
    rw [hsize, hblock]
    exact hc₂

theorem appendData_returns (h : Sound b) {data : List T} {n : ℕ} (hno : b.size_ + n < 2 ^ 64)
    (hn : n ≤ data.length) : ∃ r, b.appendData build fresh data n = .ok r := by
  obtain ⟨b₁, realloc, hensure, hg, hn₁, hs₁, -⟩ :=
    ensureCapacityWithHeadroom_spec build fresh h hno true
  have hlen : ((data.take n).map Cell.holding).length = n := by simp [hn]
  obtain ⟨b₂, hwrite, hw, -, -, hcap⟩ := write_spec hg.sound.toWhole b₁.size_
    ((data.take n).map Cell.holding) (by rw [hlen, hs₁]; exact hn₁)
  have hs : Sound { b₂ with size_ := b.size_ + n } :=
    ⟨⟨hw.length, hw.null, hw.lt⟩, hcap ▸ hn₁⟩
  rw [appendData, bind_of_ok (dcheck_true h.isConsistent), sizeT_of_lt hno]
  dsimp only
  rw [bind_of_ok hensure]
  dsimp only
  rw [bind_of_ok (source_eq hn), bind_of_ok hwrite, bind_of_ok (dcheck_true hs.isConsistent)]
  exact ⟨_, rfl⟩

/-! ### `AppendData` with a setter -/

section Setter

variable {setter : Setter T}

theorem length_storeAll {α : Type} (cell : T → α) (view : List α) (stores : List (Option T)) :
    (storeAll cell view stores).length = view.length := by
  induction view generalizing stores with
  | nil => cases stores <;> rfl
  | cons c view ih =>
    cases stores with
    | nil => rfl
    | cons s stores => simp [storeAll, ih]

theorem map_storeAll {α : Type} {cell : T → α} {value : α → T} (h : ∀ v, value (cell v) = v)
    (view : List α) (stores : List (Option T)) :
    (storeAll cell view stores).map value = storeAll id (view.map value) stores := by
  induction view generalizing stores with
  | nil => cases stores <;> rfl
  | cons c view ih =>
    cases stores with
    | nil => rfl
    | cons s stores => cases s <;> simp [storeAll, ih, h]

theorem drop_storeAll {α : Type} (cell : T → α) (view : List α) (stores : List (Option T)) (n : ℕ)
    (h : ∀ s ∈ stores.drop n, s = none) :
    (storeAll cell view stores).drop n = view.drop n := by
  induction view generalizing stores n with
  | nil => cases stores <;> rfl
  | cons c view ih =>
    cases stores with
    | nil => rfl
    | cons s stores =>
      cases n with
      | zero =>
        have hrest := ih stores 0 fun s' hs' => h s' (List.mem_cons_of_mem s hs')
        rw [List.drop_zero, List.drop_zero] at hrest
        rw [storeAll, h s List.mem_cons_self, hrest]
        rfl
      | succ n => exact ih stores n h

/-- What is appended by a setter that is given `view`. -/
def Setter.filled (setter : Setter T) (view : List T) : List T :=
  (storeAll id view (setter.run view).1).take (setter.run view).2

/-- The setter's turn on a view of the `n` cells from `old` on. -/
structure Filled (b : BufferT T) (old n : ℕ) (setter : Setter T) (written : ℕ)
    (b' : BufferT T) : Prop where
  sound : Sound b'
  size : b'.size_ = old + written
  capacity : b'.capacity_ = b.capacity_
  elements : ∃ view, view.length = n ∧ written = (setter.run view).2 ∧
    b'.elements = (b.block.take old).map Cell.value ++ setter.filled view
  clean : setter.TouchesPrefix → ∀ k, old ≤ k → CleanFrom b.block k →
    CleanFrom b'.block (max k b'.size_)

/-- The check after the setter's turn fails if it reports more than it was given. -/
theorem fill_spec (h : Sound b) {old n : ℕ} (hn : old + n ≤ b.capacity_) (setter : Setter T) :
    (∃ written b', b.fill old n setter = .ok (written, b') ∧ Filled b old n setter written b') ∨
      b.fill old n setter = .error .check ∧
        ∃ view, view.length = n ∧ n < (setter.run view).2 := by
  have hn' : old + n ≤ b.block.length := by rw [h.length]; exact hn
  obtain ⟨cells, hcells⟩ : ∃ cells, cells = (b.block.drop old).take n := ⟨_, rfl⟩
  have hlen : cells.length = n := by rw [hcells]; simp; omega
  have hread : b.read old n = .ok cells := by rw [hcells]; exact read_eq hn'
  have hview : (cells.map Cell.value).length = n := by rw [List.length_map, hlen]
  rcases hrun : setter.run (cells.map Cell.value) with ⟨stores, reported⟩
  have hstores : (storeAll Cell.holding cells stores).length = n := by rw [length_storeAll, hlen]
  obtain ⟨b₁, hwrite, hw, hblock, -, hcap⟩ := write_spec h.toWhole old
    (storeAll Cell.holding cells stores) (by rw [hstores]; exact hn)
  rw [fill, bind_of_ok hread, hrun]
  dsimp only
  rw [bind_of_ok hwrite]
  by_cases hle : reported ≤ n
  · left
    rw [if_pos hle]
    have hlt := h.lt
    have hsize : sizeT (old + reported) = old + reported := sizeT_of_lt (by omega)
    refine ⟨reported, _, rfl, ⟨⟨hw.length, hw.null, hw.lt⟩, ?_⟩, hsize, hcap,
      ⟨_, hview, by rw [hrun], ?_⟩, fun ht k hk hc => ?_⟩
    · change sizeT (old + reported) ≤ b₁.capacity_
      omega
    · have hfilled : ((storeAll Cell.holding cells stores).take reported).map Cell.value =
          setter.filled (cells.map Cell.value) := by
        have hvalue (v : T) : (Cell.holding v).value = v := rfl
        rw [List.map_take, map_storeAll hvalue, Setter.filled, hrun]
      change (b₁.block.take (sizeT (old + reported))).map Cell.value = _
      rw [hsize, hblock, take_overwrite_add (by omega) (by omega), List.map_append, hfilled]
    · change CleanFrom b₁.block (max k (sizeT (old + reported)))
      have hnone := ht (cells.map Cell.value)
      rw [hrun] at hnone
      obtain ⟨j, hj⟩ : ∃ j, max k (old + reported) = old + j :=
        ⟨_, (Nat.add_sub_of_le (by omega)).symm⟩
      have hdrop : (overwrite b.block old (storeAll Cell.holding cells stores)).drop (old + j) =
          b.block.drop (old + j) := by
        refine drop_overwrite_add (by omega) ?_ (by omega)
        rw [hstores, ← hcells]
        refine drop_storeAll _ _ _ _ fun s hs => hnone s ?_
        rw [← Nat.add_sub_of_le (show reported ≤ j by omega), ← List.drop_drop] at hs
        exact List.mem_of_mem_drop hs
      intro c hmem
      rw [hsize, hj, hblock, hdrop, ← hj] at hmem
      exact hc.mono (le_max_left _ _) c hmem
  · right
    rw [if_neg hle]
    exact ⟨rfl, _, hview, by rw [hrun]; omega⟩

theorem fill_ok (h : Sound b) {old n written : ℕ}
    (hok : b.fill old n setter = .ok (written, b')) :
    old + n ≤ b.capacity_ ∧ Filled b old n setter written b' := by
  have hn : old + n ≤ b.capacity_ := by
    by_contra hn
    rw [fill, read, if_neg (by rw [h.length]; exact hn)] at hok
    cases hok
  rcases fill_spec h hn setter with hspec | hspec
  · obtain ⟨written', b'', hfill, hf⟩ := hspec
    cases hok.symm.trans hfill
    exact ⟨hn, hf⟩
  · cases hok.symm.trans hspec.1

/-- What `AppendData` does with a setter. -/
structure Appended (build : Build T) (b : BufferT T) (n : ℕ) (setter : Setter T) (written : ℕ)
    (b' : BufferT T) (realloc : Realloc T) : Prop extends Grown build b b' realloc where
  size : b'.size_ = b.size_ + written
  elements : ∃ view, view.length = n ∧ written = (setter.run view).2 ∧
    b'.elements = b.elements ++ setter.filled view
  clean : setter.TouchesPrefix → ∀ k, b.size_ ≤ k → CleanFrom b.block k →
    CleanFrom b'.block (max k b'.size_)

/-- **`AppendData`** with a setter, where it returns. -/
theorem appendDataSetter_ok (h : Sound b) {n written : ℕ} {realloc : Realloc T}
    (hok : b.appendDataSetter build fresh n setter = .ok (written, b', realloc)) :
    Appended build b n setter written b' realloc := by
  obtain ⟨b₁, realloc₁, hset, hg, hs₁, htake, -, hclean⟩ :=
    setSize_spec build fresh h (show sizeT (b.size_ + n) < 2 ^ 64 from Nat.mod_lt _ (by norm_num))
  rw [appendDataSetter, bind_of_ok (dcheck_true h.isConsistent)] at hok
  dsimp only at hok
  rw [bind_of_ok hset] at hok
  dsimp only at hok
  obtain ⟨-, -, hok⟩ := bind_ok.mp hok
  obtain ⟨-, -, hok⟩ := bind_ok.mp hok
  obtain ⟨r, hfill, hok⟩ := bind_ok.mp hok
  obtain ⟨written', b₂⟩ := r
  obtain ⟨-, -, hok⟩ := bind_ok.mp hok
  cases hok
  obtain ⟨hn, hf⟩ := fill_ok hg.sound hfill
  have hlt := hg.sound.lt
  rw [sizeT_of_lt (by omega)] at hs₁ htake hclean
  refine ⟨⟨hf.sound, hg.capacity.trans hf.capacity.ge, hg.zeroed⟩, hf.size, ?_,
    fun ht k hk hc => hf.clean ht k hk (hclean (by omega) k hk hc)⟩
  obtain ⟨view, hlen, hw, hel⟩ := hf.elements
  rw [min_eq_right (by omega)] at htake
  rw [htake] at hel
  exact ⟨view, hlen, hw, hel⟩

theorem appendDataSetter_returns (h : Sound b) {n : ℕ} (hno : b.size_ + n < 2 ^ 64) (hn : 0 < n)
    (setter : Setter T) :
    (∃ r, b.appendDataSetter build fresh n setter = .ok r) ∨
      b.appendDataSetter build fresh n setter = .error .check ∧
        ∃ view, view.length = n ∧ n < (setter.run view).2 := by
  obtain ⟨b₁, realloc, hset, hg, hs₁, -⟩ := setSize_spec build fresh h hno
  have hsize := hg.sound.size
  have hview : b₁.checkView build n = .ok () := by
    refine dcheck_true (decide_eq_true (iff_of_false ?_ hn.ne'))
    rw [Option.isNone_iff_eq_none, hg.sound.null]
    omega
  rw [appendDataSetter, bind_of_ok (dcheck_true h.isConsistent)]
  dsimp only
  rw [sizeT_of_lt hno, bind_of_ok hset]
  dsimp only
  rw [bind_of_ok (dcheck_true hg.sound.isConsistent), bind_of_ok hview]
  rcases fill_spec hg.sound (show b.size_ + n ≤ b₁.capacity_ by omega) setter with
    hspec | ⟨hspec, hover⟩
  · obtain ⟨written, b₂, hfill, hf⟩ := hspec
    left
    rw [bind_of_ok hfill]
    dsimp only
    rw [bind_of_ok (dcheck_true hf.sound.isConsistent)]
    exact ⟨_, rfl⟩
  · right
    rw [hspec]
    exact ⟨rfl, hover⟩

end Setter

/-! ### `SetData` -/

theorem Sound.truncate (h : Sound b) : Sound { b with size_ := 0 } :=
  ⟨⟨h.length, h.null, h.lt⟩, Nat.zero_le _⟩

/-- After the elements have been replaced, what is left of the old ones becomes clean. -/
theorem Grown.zeroOld {b₁ : BufferT T} {realloc : Realloc T}
    (hg : Grown build { b with size_ := 0 } b₁ realloc) (h : Sound b) :
    ∃ b', b₁.zeroOld build b.size_ = .ok b' ∧ Grown build b b' realloc ∧ b'.size_ = b₁.size_ ∧
      b'.elements = b₁.elements ∧
      (build.zeroOnFree = true → CleanFrom b₁.block (max b.size_ b₁.size_) →
        CleanFrom b'.block b'.size_) := by
  obtain ⟨b', hb', hs, hsize, hcap, htake, hclean⟩ :=
    zeroOld_spec build hg.sound (h.size.trans hg.capacity)
  refine ⟨b', hb', ⟨hs, hg.capacity.trans hcap.ge, hg.zeroed⟩, hsize, ?_, fun hz hc => ?_⟩
  · rw [elements, hsize, htake]
    rfl
  · rw [hsize]
    exact hclean hz hc

/-- **`SetData`**, where it returns. -/
theorem setData_ok (h : Sound b) {data : List T} {n : ℕ} {realloc : Realloc T}
    (hok : b.setData build fresh data n = .ok (b', realloc)) :
    Grown build b b' realloc ∧ b'.elements = data.take n ∧
      (build.zeroOnFree = true → CleanFrom b.block b.size_ → CleanFrom b'.block b'.size_) := by
  rw [setData, bind_of_ok (dcheck_true h.isConsistent)] at hok
  obtain ⟨r, happend, hok⟩ := bind_ok.mp hok
  obtain ⟨b₁, realloc₁⟩ := r
  obtain ⟨hg, -, helements, hclean⟩ := appendData_ok h.truncate happend
  obtain ⟨b₂, hzero, hg₂, hsize, hel, hclean₂⟩ := hg.zeroOld h
  dsimp only at hok
  rw [bind_of_ok hzero] at hok
  cases hok
  exact ⟨hg₂, hel.trans helements, fun hz hc => hclean₂ hz (hclean _ (Nat.zero_le _) hc)⟩

theorem setData_returns (h : Sound b) {data : List T} {n : ℕ} (hlt : n < 2 ^ 64)
    (hn : n ≤ data.length) : ∃ r, b.setData build fresh data n = .ok r := by
  have happend : ∃ r, appendData build fresh { b with size_ := 0 } data n = .ok r :=
    appendData_returns h.truncate (show 0 + n < 2 ^ 64 by omega) hn
  obtain ⟨r, happend⟩ := happend
  obtain ⟨b₁, realloc⟩ := r
  obtain ⟨hg, -⟩ := appendData_ok h.truncate happend
  obtain ⟨b₂, hzero, -⟩ := hg.zeroOld h
  rw [setData, bind_of_ok (dcheck_true h.isConsistent)]
  dsimp only
  rw [bind_of_ok happend]
  dsimp only
  rw [bind_of_ok hzero]
  exact ⟨_, rfl⟩

/-- **`SetData`** with a setter, where it returns. -/
theorem setDataSetter_ok (h : Sound b) {n written : ℕ} {setter : Setter T}
    {realloc : Realloc T}
    (hok : b.setDataSetter build fresh n setter = .ok (written, b', realloc)) :
    Grown build b b' realloc ∧
      (∃ view, view.length = n ∧ b'.elements = setter.filled view) ∧
      (build.zeroOnFree = true → setter.TouchesPrefix → CleanFrom b.block b.size_ →
        CleanFrom b'.block b'.size_) := by
  rw [setDataSetter, bind_of_ok (dcheck_true h.isConsistent)] at hok
  obtain ⟨r, happend, hok⟩ := bind_ok.mp hok
  obtain ⟨written₁, b₁, realloc₁⟩ := r
  have ha := appendDataSetter_ok h.truncate happend
  obtain ⟨b₂, hzero, hg₂, hsize, hel, hclean₂⟩ := ha.toGrown.zeroOld h
  dsimp only at hok
  rw [bind_of_ok hzero] at hok
  cases hok
  obtain ⟨view, hlen, -, helements⟩ := ha.elements
  exact ⟨hg₂, ⟨view, hlen, hel.trans helements⟩,
    fun hz ht hc => hclean₂ hz (ha.clean ht _ (Nat.zero_le _) hc)⟩

theorem setDataSetter_returns (h : Sound b) {n : ℕ} (hlt : n < 2 ^ 64) (hn : 0 < n)
    (setter : Setter T) :
    (∃ r, b.setDataSetter build fresh n setter = .ok r) ∨
      b.setDataSetter build fresh n setter = .error .check ∧
        ∃ view, view.length = n ∧ n < (setter.run view).2 := by
  rw [setDataSetter, bind_of_ok (dcheck_true h.isConsistent)]
  rcases appendDataSetter_returns (show Sound { b with size_ := 0 } from h.truncate)
    (show 0 + n < 2 ^ 64 by omega) hn setter with hspec | ⟨hspec, hover⟩
  · obtain ⟨r, happend⟩ := hspec
    obtain ⟨written, b₁, realloc⟩ := r
    obtain ⟨b₂, hzero, -⟩ := (appendDataSetter_ok h.truncate happend).toGrown.zeroOld h
    left
    dsimp only
    rw [bind_of_ok happend]
    dsimp only
    rw [bind_of_ok hzero]
    exact ⟨_, rfl⟩
  · right
    dsimp only
    rw [hspec]
    exact ⟨rfl, hover⟩

/-! ### Construction and destruction -/

variable (build) in
theorem empty_spec : empty build = .ok (⟨0, 0, none⟩ : BufferT T) ∧
    Sound (⟨0, 0, none⟩ : BufferT T) := by
  have h : Sound (⟨0, 0, none⟩ : BufferT T) := ⟨⟨rfl, by simp, by norm_num⟩, le_refl 0⟩
  rw [empty, bind_of_ok (dcheck_true h.isConsistent)]
  exact ⟨rfl, h⟩

variable (build fresh) in
theorem ofSize_spec {size capacity : ℕ} (hs : size < 2 ^ 64) (hc : capacity < 2 ^ 64) :
    ∃ b, ofSize build fresh size capacity = .ok b ∧ Sound b ∧ b.size_ = size ∧
      CleanFrom b.block 0 := by
  obtain ⟨b, hb⟩ : ∃ b : BufferT T, b = ⟨size, max size capacity,
    if 0 < max size capacity then some (newBlock fresh (max size capacity)) else none⟩ := ⟨_, rfl⟩
  have hsound : Sound b := by
    rw [hb]
    refine ⟨⟨?_, ?_, max_lt hs hc⟩, le_max_left _ _⟩
    · split_ifs with h
      · exact length_newBlock fresh _
      · change 0 = max size capacity
        omega
    · change (if 0 < max size capacity then _ else _) = none ↔ max size capacity = 0
      generalize max size capacity = m
      cases m <;> simp
  refine ⟨b, ?_, hsound, by rw [hb], ?_⟩
  · rw [ofSize, ← hb, bind_of_ok (dcheck_true hsound.isConsistent)]
    rfl
  · rw [hb]
    split_ifs
    · exact cleanFrom_newBlock fresh _
    · intro c hmem
      cases hmem

theorem ofData_ok {data : List T} {size capacity : ℕ} (hs : size < 2 ^ 64)
    (hc : capacity < 2 ^ 64) (hok : ofData build fresh data size capacity = .ok b) :
    Sound b ∧ b.elements = data.take size ∧ CleanFrom b.block b.size_ := by
  obtain ⟨b₁, hb₁, h₁, hsize, hclean⟩ := ofSize_spec build fresh hs hc
  rw [ofData, bind_of_ok hb₁] at hok
  obtain ⟨cells, hsource, hok⟩ := bind_ok.mp hok
  obtain ⟨hn, rfl⟩ := source_ok hsource
  obtain ⟨hbound, hw, hblock, hsize', hcap⟩ := write_ok h₁.toWhole hok
  have hlen : ((data.take size).map Cell.holding).length = size := by simp [hn]
  rw [zero_add, hlen] at hbound
  refine ⟨⟨hw, by omega⟩, ?_, ?_⟩
  · have htake : (overwrite b₁.block 0 ((data.take size).map Cell.holding)).take
        (0 + ((data.take size).map Cell.holding).length) = _ :=
      take_overwrite_append (Nat.zero_le _)
    rw [hlen, zero_add] at htake
    rw [elements, hsize', hsize, hblock, htake, List.take_zero, List.nil_append, map_value_holding]
  · have hc₁ := cleanFrom_overwrite hclean
      (show 0 + ((data.take size).map Cell.holding).length ≤ b₁.block.length by
        rw [hlen, h₁.length]; omega)
    rw [hlen] at hc₁
    rw [hblock, hsize', hsize]
    exact hc₁.mono (by omega)

theorem ofData_returns {data : List T} {size capacity : ℕ} (hs : size < 2 ^ 64)
    (hc : capacity < 2 ^ 64) (hn : size ≤ data.length) :
    ∃ b, ofData build fresh data size capacity = .ok b := by
  obtain ⟨b₁, hb₁, h₁, hsize, -⟩ := ofSize_spec build fresh hs hc
  have hlen : ((data.take size).map Cell.holding).length = size := by simp [hn]
  obtain ⟨b, hb, -⟩ := write_spec h₁.toWhole 0 ((data.take size).map Cell.holding)
    (by rw [hlen]; have := h₁.size; omega)
  rw [ofData, bind_of_ok hb₁, bind_of_ok (source_eq hn)]
  exact ⟨b, hb⟩

/-! ### `Clear` and moves -/

theorem Zeroed.cleanFrom {block : Block T} (h : Zeroed build block) (k : ℕ) :
    CleanFrom block k := by
  intro c hc
  rw [h c (List.mem_of_mem_drop hc)]

variable (build)

theorem clear_spec (h : Whole b) :
    ∃ b', b.clear build = .ok b' ∧ Sound b' ∧ b'.size_ = 0 ∧ b'.capacity_ = b.capacity_ ∧
      (build.zeroOnFree = true → CleanFrom b'.block 0) := by
  obtain ⟨b₁, hb₁, hw, -, hcap, hzero⟩ := maybeZeroCompleteBuffer_spec build h
  have hs : Sound { b₁ with size_ := 0 } := ⟨⟨hw.length, hw.null, hw.lt⟩, Nat.zero_le _⟩
  rw [clear, bind_of_ok hb₁]
  dsimp only
  rw [bind_of_ok (dcheck_true hs.isConsistent)]
  exact ⟨_, rfl, hs, rfl, hcap, fun hz => (hzero hz).cleanFrom 0⟩

theorem destroy_spec (h : Whole b) :
    ∃ released, b.destroy build = .ok released ∧
      (build.zeroOnFree = true → ∀ block ∈ released, Zeroed build block) := by
  obtain ⟨b₁, hb₁, -, -, -, hzero⟩ := maybeZeroCompleteBuffer_spec build h
  rw [destroy, bind_of_ok hb₁]
  exact ⟨_, rfl, fun hz => (hzero hz).released⟩

/-- What `OnMovedFrom` leaves. -/
def movedFrom : BufferT T := ⟨if build.dcheckIsOn then 1 else 0, 0, none⟩

theorem whole_movedFrom : Whole (movedFrom build) := ⟨rfl, by simp [movedFrom], by simp [movedFrom]⟩

theorem onMovedFrom_eq (b : BufferT T) :
    onMovedFrom build { b with data_ := none } = .ok (movedFrom build) := by
  rw [onMovedFrom, bind_of_ok (dcheck_true Option.isNone_none), movedFrom]
  cases build.dcheckIsOn <;> rfl

theorem moveConstruct_spec (h : Sound b) : b.moveConstruct build = .ok (b, movedFrom build) := by
  rw [moveConstruct, bind_of_ok (dcheck_true h.isConsistent)]
  dsimp only
  rw [bind_of_ok (dcheck_true h.isConsistent), bind_of_ok (onMovedFrom_eq build b)]
  rfl

theorem moveAssign_spec (h : Whole b) {buf : BufferT T} (hbuf : Sound buf) :
    ∃ released, b.moveAssign build buf = .ok (buf, movedFrom build, released) ∧
      (build.zeroOnFree = true → ∀ block ∈ released, Zeroed build block) := by
  obtain ⟨b₁, hb₁, -, -, -, hzero⟩ := maybeZeroCompleteBuffer_spec build h
  rw [moveAssign, bind_of_ok (dcheck_true hbuf.isConsistent), bind_of_ok hb₁]
  dsimp only
  rw [bind_of_ok (onMovedFrom_eq build buf)]
  exact ⟨_, rfl, fun hz => (hzero hz).released⟩

theorem moveAssignSelf_spec (h : Sound b) :
    ∃ released, b.moveAssignSelf build = .ok (movedFrom build, released) ∧
      (build.zeroOnFree = true → ∀ block ∈ released, Zeroed build block) := by
  obtain ⟨b₁, hb₁, -, -, -, hzero⟩ := maybeZeroCompleteBuffer_spec build h.toWhole
  rw [moveAssignSelf, bind_of_ok (dcheck_true h.isConsistent), bind_of_ok hb₁]
  dsimp only
  rw [bind_of_ok (onMovedFrom_eq build b₁)]
  exact ⟨_, rfl, fun hz => (hzero hz).released⟩

end Build

end BufferT

end RtcBase
