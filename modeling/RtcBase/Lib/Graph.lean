import Mathlib

/-!
# Graphs without cycles

A graph is given by the successors of each node. It has no infinite path if `Grounded` holds; this
is what an exploration without a visited set needs.

* `Edge`, `Reach`, `Grounded`: edges, paths, and graphs in which every path ends;
* `irrefl_of_grounded`, `grounded_mono`, **`grounded_insert`**: such a graph has no cycle, and keeps
  the property when edges go or one comes that closes no cycle;
* `exists_last`: where no path comes back, some node of a finite set leads out of it;
* `explore`: take the first node, put its successors at the end;
* **`explore_returns`**, **`mem_explore`**: the exploration ends, and has then found the nodes that
  can be reached, and only these.
-/

namespace Graph

variable {V : Type*}

/-- The edge from `a` to `b` is there. -/
def Edge (succ : V → List V) (a b : V) : Prop := b ∈ succ a

/-- A path, possibly of no edges. -/
def Reach (succ : V → List V) : V → V → Prop := Relation.ReflTransGen (Edge succ)

/-- No path goes on forever. -/
structure Grounded (succ : V → List V) : Prop where
  wf : WellFounded fun b a => Edge succ a b

variable {succ succ' : V → List V} {a b s t : V} {n : ℕ} {done pending found : List V}

/-- A path of one or more edges does not come back. -/
theorem irrefl_of_grounded (h : Grounded succ) (a : V) : ¬ Relation.TransGen (Edge succ) a a := by
  have hwf : WellFounded (Relation.TransGen fun b a => Edge succ a b) := h.wf.transGen
  intro hcycle
  exact hwf.irrefl.irrefl a (Relation.transGen_swap.mpr hcycle)

theorem grounded_mono (h : Grounded succ) (hsub : ∀ a b, Edge succ' a b → Edge succ a b) :
    Grounded succ' :=
  ⟨Subrelation.wf (fun hedge => hsub _ _ hedge) h.wf⟩

/-- What cannot reach `s` does not see a new edge from `s`. -/
theorem acc_of_not_reach (h : Grounded succ)
    (hinsert : ∀ a b, Edge succ' a b → Edge succ a b ∨ a = s ∧ b = t) (a : V)
    (ha : ¬ Reach succ a s) : Acc (fun b a => Edge succ' a b) a := by
  induction a using h.wf.induction with
  | _ a ih =>
    refine ⟨a, fun b hb => ?_⟩
    obtain hb | ⟨rfl, -⟩ := hinsert a b hb
    · exact ih b hb fun hreach => ha (.head hb hreach)
    · exact absurd .refl ha

/-- **A new edge** that closes no cycle. -/
theorem grounded_insert (h : Grounded succ) (hst : ¬ Reach succ t s)
    (hinsert : ∀ a b, Edge succ' a b → Edge succ a b ∨ a = s ∧ b = t) : Grounded succ' := by
  refine ⟨⟨fun a => ?_⟩⟩
  induction a using h.wf.induction with
  | _ a ih =>
    refine ⟨a, fun b hb => ?_⟩
    obtain hb | ⟨-, rfl⟩ := hinsert a b hb
    · exact ih b hb
    · exact acc_of_not_reach h hinsert b hst

/-- Without a cycle, the edges of some node of a finite set all lead out of the set. -/
theorem exists_last {R : V → V → Prop} {B : Finset V} (hB : B.Nonempty)
    (h : ∀ a, ¬ Relation.TransGen R a a) : ∃ a ∈ B, ∀ b, R a b → b ∉ B := by
  have : IsStrictOrder V (Relation.TransGen (Function.swap R)) :=
    { irrefl := fun a ha => h a (Relation.transGen_swap.mp ha)
      trans := fun _ _ _ => Relation.TransGen.trans }
  obtain ⟨a, ha, hmin⟩ := (B.wellFoundedOn (r := Relation.TransGen (Function.swap R))).has_min
    Set.univ ⟨⟨hB.choose, hB.choose_spec⟩, trivial⟩
  exact ⟨a.1, a.2, fun b hab hb => hmin ⟨b, hb⟩ trivial (.single hab)⟩

/-! ## Exploration -/

/-- The nodes found so far, and those that wait; `none` after too few turns. -/
def explore (succ : V → List V) : ℕ → List V → List V → Option (List V)
  | _, done, [] => some done
  | 0, _, _ :: _ => none
  | n + 1, done, v :: pending => explore succ n (done ++ [v]) (pending ++ succ v)

/-- The number of paths from a node. -/
noncomputable def paths (h : Grounded succ) : V → ℕ :=
  h.wf.fix fun v ih => 1 + ((succ v).attach.map fun w => ih w.1 w.2).sum

theorem paths_eq (h : Grounded succ) (v : V) :
    paths h v = 1 + ((succ v).map (paths h)).sum := by
  conv_lhs => rw [paths, WellFounded.fix_eq]
  change 1 + ((succ v).attach.map fun w => paths h w.1).sum = _
  rw [List.attach_map_val]

/-- **The exploration ends**, after a turn for every path. -/
theorem explore_returns (h : Grounded succ) (done pending : List V)
    (hn : (pending.map (paths h)).sum ≤ n) : ∃ found, explore succ n done pending = some found := by
  induction n generalizing done pending with
  | zero =>
    cases pending with
    | nil => exact ⟨done, rfl⟩
    | cons v pending =>
      rw [List.map_cons, List.sum_cons, paths_eq] at hn
      omega
  | succ n ih =>
    cases pending with
    | nil => exact ⟨done, rfl⟩
    | cons v pending =>
      refine ih (done ++ [v]) (pending ++ succ v) ?_
      rw [List.map_cons, List.sum_cons, paths_eq] at hn
      rw [List.map_append, List.sum_append]
      omega

theorem reach_iff : Reach succ a b ↔ a = b ∨ ∃ c ∈ succ a, Reach succ c b := by
  rw [Reach, Relation.ReflTransGen.cases_head_iff]
  rfl

/-- **What it finds.** -/
theorem mem_explore (h : explore succ n done pending = some found) (b : V) :
    b ∈ found ↔ b ∈ done ∨ ∃ a ∈ pending, Reach succ a b := by
  induction n generalizing done pending with
  | zero =>
    cases pending with
    | nil =>
      cases h
      simp
    | cons v pending => cases h
  | succ n ih =>
    cases pending with
    | nil =>
      cases h
      simp
    | cons v pending =>
      rw [ih h]
      have hv : Reach succ v b ↔ v = b ∨ ∃ c ∈ succ v, Reach succ c b := reach_iff
      simp only [List.mem_append, List.mem_cons, List.not_mem_nil, or_false, or_and_right,
        exists_or, exists_eq_left, hv, eq_comm (a := b), or_assoc]
      rw [or_comm (a := ∃ a ∈ pending, Reach succ a b)]

end Graph
