import RtcBase.Random.Period
import RtcBase.Random.Range

/-!
# Results over a period

* `repeated`, `randBool`: any number of calls, and `Rand<bool>`;
* `repeated_of_outputs`: the results, as a function of the outputs;
* `countP_outputs`, `count_map`: how many outputs of a period have a lower half that meets a
  condition;
* **`period_counts`**: how often a call has each result in a period.
-/

namespace RtcBase

namespace Random

/-- The results of `n` calls, and the generator after them. -/
def repeated {α : Type} (call : Random → Option (α × Random)) :
    ℕ → Random → Option (List α × Random)
  | 0, r => some ([], r)
  | n + 1, r =>
    (call r).bind fun next =>
      (repeated call n next.2).map fun rest => (next.1 :: rest.1, rest.2)

/-- The number 0, as an `int`. -/
def zero : IntType.int32.Value := ⟨0, by decide⟩

/-- The number 1, as an `int`. -/
def one : IntType.int32.Value := ⟨1, by decide⟩

/-- `Rand<bool>()`. -/
def randBool (dcheckIsOn : Bool) (r : Random) : Option (Bool × Random) :=
  (randSigned dcheckIsOn zero one r).map fun next =>
    (decide (next.1 = 1), next.2)

theorem repeated_of_outputs {α : Type} {call : Random → Option (α × Random)} (g : BitVec 64 → α)
    (hcall : ∀ r : Random, r.state_ ≠ 0 → call r = some (g (output r.state_), ⟨nextState r.state_⟩))
    {state_ : BitVec 64} (h : state_ ≠ 0) {n : ℕ} {dcheckIsOn : Bool} {outs : List (BitVec 64)}
    {r' : Random} (houts : nextOutputs dcheckIsOn n ⟨state_⟩ = some (outs, r')) :
    repeated call n ⟨state_⟩ = some (outs.map g, r') := by
  rw [nextOutputs_eq dcheckIsOn h] at houts
  cases houts
  induction n generalizing state_ with
  | zero => rfl
  | succ n ih =>
    rw [repeated, hcall ⟨state_⟩ h, Option.bind_some, ih (nextState_ne_zero h), Option.map_some,
      List.range_succ_eq_map, List.map_cons, List.map_cons, List.map_map, List.map_map,
      List.map_map]
    rfl

theorem rand_call (dcheckIsOn : Bool) (t : BitVec 32) (r : Random) (h : r.state_ ≠ 0) :
    rand dcheckIsOn t r =
      some (scaled ((output r.state_).setWidth 32) t, ⟨nextState r.state_⟩) := by
  rw [rand, nextOutput_eq dcheckIsOn h]
  rfl

theorem randBool_call (dcheckIsOn : Bool) (r : Random) (h : r.state_ ≠ 0) :
    randBool dcheckIsOn r = some (decide (scaled ((output r.state_).setWidth 32) 1 = 1),
      ⟨nextState r.state_⟩) := by
  obtain ⟨x, r', -, hrand, -, hsigned, -⟩ :=
    randSigned_mem dcheckIsOn h (by decide : zero.1 ≤ one.1)
  have hone : BitVec.ofInt 32 (one.1 - zero.1) = 1 := by decide
  rw [hone, rand_call dcheckIsOn 1 r h] at hrand
  obtain ⟨rfl, rfl⟩ := Prod.mk.inj (Option.some.inj hrand)
  have hvalue : ((scaled ((output r.state_).setWidth 32) 1).toNat + zero.1 : ℤ) = 1 ↔
      scaled ((output r.state_).setWidth 32) 1 = 1 := by
    rw [zero, add_zero, ← BitVec.toNat_inj]
    norm_cast
  rw [randBool, hsigned, Option.map_some]
  simp only [hvalue]

section Counts

variable {outs : List (BitVec 64)} (hnodup : outs.Nodup) (hmem : ∀ out, out ∈ outs ↔ out ≠ 0)
include hnodup hmem

/-- The words of 64 bits whose lower halves meet a condition, all but the word 0. -/
theorem countP_outputs (p : BitVec 32 → Bool) :
    outs.countP (fun out => p (out.setWidth 32)) + (if p 0 then 1 else 0) =
      2 ^ 32 * ((Finset.range (2 ^ 32)).filter fun x => p (BitVec.ofNat 32 x) = true).card := by
  have hperm : ((0 :: outs).map BitVec.toNat).Perm (List.range (2 ^ 64)) := by
    refine (List.perm_ext_iff_of_nodup ?_ List.nodup_range).mpr fun n => ?_
    · refine List.Nodup.map (fun u v huv => BitVec.eq_of_toNat_eq huv) ?_
      exact List.nodup_cons.mpr ⟨fun hzero => (hmem 0).mp hzero rfl, hnodup⟩
    · rw [List.mem_range]
      constructor
      · intro hn
        obtain ⟨u, -, rfl⟩ := List.mem_map.mp hn
        exact u.isLt
      · intro hn
        have hnum : (BitVec.ofNat 64 n).toNat = n := by
          rw [BitVec.toNat_ofNat, Nat.mod_eq_of_lt hn]
        refine List.mem_map.mpr ⟨BitVec.ofNat 64 n, ?_, hnum⟩
        by_cases hzero : BitVec.ofNat 64 n = 0
        · rw [hzero]
          exact List.mem_cons_self
        · exact List.mem_cons_of_mem 0 ((hmem _).mpr hzero)
  have hlow (u : BitVec 64) : u.setWidth 32 = BitVec.ofNat 32 (u.toNat % 2 ^ 32) := by
    refine BitVec.eq_of_toNat_eq ?_
    simp
  have hsquare : (2 ^ 64 : ℕ) = 2 ^ 32 * 2 ^ 32 := by norm_num
  have hcount := hperm.countP_eq fun n => p (BitVec.ofNat 32 (n % 2 ^ 32))
  rw [List.countP_map, List.countP_cons, Scale.countP_range, hsquare,
    Scale.count_mod (fun x => p (BitVec.ofNat 32 x) = true) (2 ^ 32) (2 ^ 32),
    Nat.count_eq_card_filter_range] at hcount
  rw [← hcount]
  simp only [hlow, Function.comp_apply]
  rfl

theorem count_map {α : Type} [DecidableEq α] (g : BitVec 32 → α) (a : α) :
    (outs.map fun out => g (out.setWidth 32)).count a + (if g 0 = a then 1 else 0) =
      2 ^ 32 * ((Finset.range (2 ^ 32)).filter fun x => g (BitVec.ofNat 32 x) = a).card := by
  have hcount := countP_outputs hnodup hmem fun x => g x == a
  simp only [beq_iff_eq] at hcount
  rw [List.count, List.countP_map]
  exact hcount

/-- A condition that half of the words meet, and 0 does not. -/
theorem count_true (p : BitVec 32 → Bool) (hzero : p 0 = false)
    (hhalf : ((Finset.range (2 ^ 32)).filter fun x => p (BitVec.ofNat 32 x) = true).card = 2 ^ 31) :
    (outs.map fun out => p (out.setWidth 32)).count true = 2 ^ 63 := by
  have hcount := count_map hnodup hmem p true
  rw [hhalf, hzero, if_neg Bool.false_ne_true, add_zero] at hcount
  rw [hcount]
  norm_num

end Counts

theorem scaled_zero (t : BitVec 32) : scaled 0 t = 0 := by
  refine BitVec.eq_of_toNat_eq ?_
  rw [toNat_scaled]
  simp [Scale.scale]

theorem card_scaled_one : ((Finset.range (2 ^ 32)).filter fun x =>
    decide (scaled (BitVec.ofNat 32 x) 1 = 1) = true).card = 2 ^ 31 := by
  have hhalf : ((Finset.range (2 ^ 32)).filter fun x =>
      decide (scaled (BitVec.ofNat 32 x) 1 = 1) = true) = Finset.Ico (2 ^ 31) (2 ^ 32) := by
    ext x
    have hfirst := Scale.scale_eq_iff (n := 2 ^ 32) (m := 2) (k := 1) (x := x) (by decide)
      (by decide)
    have hbound : Scale.first (2 ^ 32) 2 1 = 2 ^ 31 ∧ Scale.first (2 ^ 32) 2 2 = 2 ^ 32 := by
      decide
    rw [hbound.1, hbound.2] at hfirst
    rw [Finset.mem_filter, Finset.mem_range, decide_eq_true_iff, ← BitVec.toNat_inj, toNat_scaled]
    constructor
    · rintro ⟨hx, hscale⟩
      rw [BitVec.toNat_ofNat, Nat.mod_eq_of_lt hx] at hscale
      exact hfirst.mp hscale
    · intro hx
      have hlt := (Finset.mem_Ico.mp hx).2
      rw [BitVec.toNat_ofNat, Nat.mod_eq_of_lt hlt]
      exact ⟨hlt, hfirst.mpr hx⟩
  rw [hhalf, Nat.card_Ico]
  norm_num

/-- **How often each result comes** in `2 ^ 64 - 1` calls: `Rand(t)` gives `k` for each word of 32
bits that is scaled to `k`, `2 ^ 32` times, and 0 one time less; `Rand<bool>()` is true `2 ^ 63`
times. -/
theorem period_counts (dcheckIsOn : Bool) {seed : BitVec 64} (h : seed ≠ 0) :
    (∀ t, ∃ xs, repeated (rand dcheckIsOn t) (2 ^ 64 - 1) ⟨seed⟩ = some (xs, ⟨seed⟩) ∧
      ∀ k, xs.count k + (if k = 0 then 1 else 0) = 2 ^ 32 *
        ((Finset.range (2 ^ 32)).filter fun x => scaled (BitVec.ofNat 32 x) t = k).card) ∧
    ∃ xs, repeated (randBool dcheckIsOn) (2 ^ 64 - 1) ⟨seed⟩ = some (xs, ⟨seed⟩) ∧
      xs.count true = 2 ^ 63 := by
  have houts := nextOutputs_period dcheckIsOn h
  have hnodup := nodup_period h
  have hmem := mem_period h
  refine ⟨fun t => ⟨_, repeated_of_outputs (fun out => scaled (out.setWidth 32) t)
      (rand_call dcheckIsOn t) h houts, fun k => ?_⟩,
    _, repeated_of_outputs (fun out => decide (scaled (out.setWidth 32) 1 = 1))
      (randBool_call dcheckIsOn) h houts, ?_⟩
  · have hcount := count_map hnodup hmem (fun x => scaled x t) k
    simpa only [scaled_zero, eq_comm (a := k)] using hcount
  · exact count_true hnodup hmem (fun x => decide (scaled x 1 = 1)) (by decide) card_scaled_one

theorem period_counts_sample :
    ∃ xs, repeated (randBool true) (2 ^ 64 - 1) ⟨1⟩ = some (xs, ⟨1⟩) ∧ xs.count true = 2 ^ 63 :=
  (period_counts true (by decide)).2

end Random

end RtcBase
