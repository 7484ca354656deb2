import RtcBase.Buffer.Effect

/-!
# `ZeroOnFreeBuffer` leaves no residue

* `Clean`, `NoResidue`: what the blocks of a run hold, and held when they were released;
* `noResidue_effect`: every step keeps it;
* **`no_residue`**: every run.
-/

namespace RtcBase

open Run

namespace BufferT

variable {ι T : Type} [DecidableEq ι] {build : Build T} {w w' : World ι T} {b : BufferT T}

/-- Elements are held, and no other cell is. -/
def Clean (b : BufferT T) (_ : Bool) : Prop :=
  CleanFrom b.block b.size_ ∧ ∀ c ∈ b.block.take b.size_, c.held = true

theorem clean_mark (h : CleanFrom b.block b.size_) (moved : Bool) : Clean b.mark moved := by
  refine ⟨cleanFrom_mark h, fun c hc => ?_⟩
  have hmark : c ∈ b.mark.block.take b.size_ := hc
  rw [take_mark] at hmark
  obtain ⟨c', -, rfl⟩ := List.mem_map.mp hmark
  rfl

theorem clean_movedFrom (moved : Bool) : Clean (movedFrom build).mark moved := by
  refine clean_mark ?_ moved
  intro c hc
  cases List.mem_of_mem_drop hc

/-- No element lies where none should be. -/
structure NoResidue (build : Build T) (w : World ι T) : Prop where
  clean : w.Every Clean
  released : ∀ block ∈ w.released, Zeroed build block

omit [DecidableEq ι] in
theorem noResidue_init : NoResidue build (World.init : World ι T) := by
  constructor
  · intro a b hb
    cases hb
  · intro block hb
    cases hb

theorem noResidue_effect (hzero : build.zeroOnFree = true) (h : NoResidue build w)
    {c : Call ι T} (ht : c.TouchesPrefix) (he : Effect build w c w') : NoResidue build w' := by
  have hrelease {released : List (Block T)} (hz : ∀ block ∈ released, Zeroed build block) :
      ∀ block ∈ w.released ++ released, Zeroed build block := fun block hb =>
    (List.mem_append.mp hb).elim (h.released block) (hz block)
  cases he with
  | create c a b ha hs hc hclean => exact ⟨h.clean.put a (clean_mark hclean _), h.released⟩
  | change c a b b' realloc hb hs hg hc hclean =>
    exact ⟨h.clean.put a (clean_mark (hclean hzero ht (h.clean a b hb).1) _),
      hrelease (hg.zeroed hzero)⟩
  | moveConstruct a b buf ha hb hs =>
    exact ⟨(h.clean.put b (clean_movedFrom _)).put a (clean_mark (h.clean b buf hb).1 _),
      h.released⟩
  | clear a b b' hb hs hsize hcap hclean =>
    exact ⟨h.clean.put a (clean_mark ((hclean hzero).mono (Nat.zero_le _)) _), h.released⟩
  | moveAssign a b this buf released hne ha hb hs hz =>
    exact ⟨(h.clean.put b (clean_movedFrom _)).put a (clean_mark (h.clean b buf hb).1 _),
      hrelease (hz hzero)⟩
  | moveAssignSelf a this released ha hz =>
    exact ⟨h.clean.put a (clean_movedFrom _), hrelease (hz hzero)⟩
  | swap a b x y ha hb =>
    exact ⟨(h.clean.put b (clean_mark (h.clean a x ha).1 _)).put a
      (clean_mark (h.clean b y hb).1 _), h.released⟩
  | destroy a b released hb hz => exact ⟨h.clean.destroy a, hrelease (hz hzero)⟩

/-- **No residue.** Let the setters of a run of `BufferT<T, true>` touch only the prefix that they
report. Then in every state reached no cell behind the elements of a buffer has held an element
since it was allocated or zeroed, and every block was zeroed entirely when it was released. -/
theorem no_residue (hzero : build.zeroOnFree = true) (calls : List (Call ι T))
    (hsetters : ∀ c ∈ calls, c.TouchesPrefix)
    (h : exec (World.step build) World.init calls = some w) :
    (∀ a b, w.objects a = some b → b.block.length = b.capacity_ ∧
      (∀ c ∈ b.block.drop b.size_, c.held = false) ∧
      ∀ c ∈ b.block.take b.size_, c.held = true) ∧
    ∀ block ∈ w.released, ∀ c ∈ block, c = ⟨build.zero, false⟩ := by
  have hinv : Objects build w ∧ NoResidue build w := by
    refine invariant_along (fun w => Objects build w ∧ NoResidue build w) ?_ ?_ h
      (along_of_forall hsetters)
    · intro w c w' hw ht hs
      obtain ⟨w₁, he, rfl⟩ := step_effect hw.1 hs
      have hr := noResidue_effect hzero hw.2 ht he
      exact ⟨objects_step hw.1 hs, hr.clean, hr.released⟩
    · exact ⟨objects_init, noResidue_init⟩
  exact ⟨fun a b hb => ⟨(hinv.1 a b hb).1.length, hinv.2.clean a b hb⟩, hinv.2.released⟩

/-- A setter that stores two elements. -/
def sixSeven : Setter ℕ where
  run view := ([some 6, some 7].take view.length, 2)
  length_run view := by simp

theorem sixSeven_touchesPrefix : sixSeven.TouchesPrefix := by
  intro view s hs
  have hnil : (sixSeven.run view).1.drop (sixSeven.run view).2 = [] :=
    List.drop_eq_nil_of_le (by simp [sixSeven])
  rw [hnil] at hs
  cases hs

/-- Data is appended, truncated, replaced and moved; the setter fills two cells of four. -/
def secrets : List (Call ℕ ℕ) :=
  [.ofData 0 [1, 2, 3] 3 4, .appendData 0 [4, 5] 2, .setSize 0 1, .setDataSetter 0 4 sixSeven,
    .moveConstruct 1 0, .empty 2, .moveAssign 2 1, .ensureCapacity 2 7]

theorem secrets_touchesPrefix : ∀ c ∈ secrets, c.TouchesPrefix := by
  simp [secrets, Call.TouchesPrefix, sixSeven_touchesPrefix]

/-- A debug build of `BufferT<T, true>`. -/
def zeroing : Build ℕ := ⟨true, true, 0, fun _ _ => 9⟩

/-- Two blocks were released: the first one of four cells, and the second one of six. -/
theorem no_residue_sample : ∃ w, exec (World.step zeroing) World.init secrets = some w ∧
    (w.objects 2).map elements = some [6, 7] ∧ w.released.map List.length = [4, 6] ∧
    ∀ block ∈ w.released, ∀ c ∈ block, c = ⟨0, false⟩ :=
  ⟨_, rfl, rfl, rfl, (no_residue (show zeroing.zeroOnFree = true from rfl) secrets
    secrets_touchesPrefix rfl).2⟩

end BufferT

end RtcBase
