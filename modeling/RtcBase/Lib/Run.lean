import Mathlib

/-!
# Runs of a machine

A machine is a partial step function: `none` means that the action is not possible in the state.
Where several parties act, a list of actions is one interleaving of them.

* `exec`: a list of actions, one after the other;
* `Along`, `Always`: every step of a run meets a condition on the state before it, and every
  state of a run meets one;
* **`invariant_along`**, `invariant`, `invariant_of_always`, `invariant_history`: what the steps
  preserve holds after every run;
* **`always_of_along`**, **`always_iff_along`**: when a condition on the steps is enough, and when
  it is exact, for one on the states; `along_iff_along`: for another condition on the steps;
* `Reaches`: there is a run from one state to another; **`Reaches.of_progress`**: to one where
  the machine is done;
* `totalCost`, **`potential`**, `countP_le`: what the steps of a run cost together, by a potential;
* `Runs`, **`runs_of_exec`**: machines that are relations, and simulation by one;
* `trace`: the runs of a machine that answers every action, with the answers.
-/

namespace Run

variable {S A : Type*} (step : S → A → Option S)

/-- The state after a run, if all its steps are possible. -/
def exec : S → List A → Option S
  | s, [] => some s
  | s, a :: as => (step s a).bind fun s' => exec s' as

/-- Every step of the run meets `ok`, read in the state before the step. -/
def Along (ok : S → A → Prop) : S → List A → Prop
  | _, [] => True
  | s, a :: as => ok s a ∧ ∀ s' ∈ step s a, Along ok s' as

/-- Every state of the run meets `P`. -/
def Always (P : S → Prop) : S → List A → Prop
  | s, [] => P s
  | s, a :: as => P s ∧ ∀ s' ∈ step s a, Always P s' as

variable {step} {ok : S → A → Prop} {s s' s'' : S} {a : A} {as bs : List A}

instance decidableAlong [∀ s a, Decidable (ok s a)] : ∀ s as, Decidable (Along step ok s as)
  | _, [] => isTrue trivial
  | s, a :: as =>
    have (s' : S) : Decidable (Along step ok s' as) := decidableAlong s' as
    inferInstanceAs (Decidable (ok s a ∧ ∀ s' ∈ step s a, Along step ok s' as))

instance decidableAlways {P : S → Prop} [∀ s, Decidable (P s)] : ∀ s as,
    Decidable (Always step P s as)
  | s, [] => inferInstanceAs (Decidable (P s))
  | s, a :: as =>
    have (s' : S) : Decidable (Always step P s' as) := decidableAlways s' as
    inferInstanceAs (Decidable (P s ∧ ∀ s' ∈ step s a, Always step P s' as))

@[simp] theorem exec_nil : exec step s [] = some s := rfl

theorem exec_cons_of_step (h : step s a = some s') :
    exec step s (a :: as) = exec step s' as := by
  change (step s a).bind _ = _
  rw [h, Option.bind_some]

theorem exec_cons : exec step s (a :: as) = some s'' ↔
    ∃ s', step s a = some s' ∧ exec step s' as = some s'' := Option.bind_eq_some_iff

@[simp] theorem along_nil : Along step ok s [] := trivial

@[simp] theorem along_cons : Along step ok s (a :: as) ↔
    ok s a ∧ ∀ s' ∈ step s a, Along step ok s' as := Iff.rfl

theorem exec_append (h : exec step s as = some s') : exec step s (as ++ bs) = exec step s' bs := by
  induction as generalizing s with
  | nil =>
    cases h
    rfl
  | cons a as ih =>
    obtain ⟨s₁, h₁, h₂⟩ := exec_cons.mp h
    rw [List.cons_append, exec_cons_of_step h₁, ih h₂]

theorem along_of_forall {ok : A → Prop} (h : ∀ a ∈ as, ok a) :
    Along step (fun _ a => ok a) s as := by
  induction as generalizing s with
  | nil => trivial
  | cons a as ih =>
    exact ⟨h a List.mem_cons_self, fun s' _ => ih fun b hb => h b (List.mem_cons_of_mem a hb)⟩

/-- **The invariant rule**, for the runs whose steps all meet `ok`. -/
theorem invariant_along (Inv : S → Prop)
    (hstep : ∀ s a s', Inv s → ok s a → step s a = some s' → Inv s')
    (h₀ : Inv s) (h : exec step s as = some s') (hok : Along step ok s as) : Inv s' := by
  induction as generalizing s with
  | nil =>
    cases h
    exact h₀
  | cons a as ih =>
    obtain ⟨s₁, h₁, h₂⟩ := exec_cons.mp h
    exact ih (hstep s a s₁ h₀ hok.1 h₁) h₂ (hok.2 s₁ h₁)

/-- **The invariant rule.** -/
theorem invariant (Inv : S → Prop)
    (hstep : ∀ s a s', Inv s → step s a = some s' → Inv s')
    (h₀ : Inv s) (h : exec step s as = some s') : Inv s' := by
  induction as generalizing s with
  | nil =>
    cases h
    exact h₀
  | cons a as ih =>
    obtain ⟨s₁, h₁, h₂⟩ := exec_cons.mp h
    exact ih (hstep s a s₁ h₀ h₁) h₂

/-- The invariant rule, for an invariant that also reads the actions so far. -/
theorem invariant_history (Inv : List A → S → Prop)
    (hstep : ∀ as s a s', Inv as s → step s a = some s' → Inv (as ++ [a]) s')
    (h₀ : Inv bs s) (h : exec step s as = some s') : Inv (bs ++ as) s' := by
  induction as generalizing s bs with
  | nil =>
    cases h
    rwa [List.append_nil]
  | cons a as ih =>
    obtain ⟨s₁, h₁, h₂⟩ := exec_cons.mp h
    have hrest := ih (hstep bs s a s₁ h₀ h₁) h₂
    rwa [List.append_assoc] at hrest

/-- If the steps that meet `ok` keep the invariant, then `P` holds all along a run of such steps. -/
theorem always_of_along (Inv P : S → Prop) (hP : ∀ s, Inv s → P s)
    (hstep : ∀ s a s', Inv s → ok s a → step s a = some s' → Inv s')
    (h₀ : Inv s) (hok : Along step ok s as) : Always step P s as := by
  induction as generalizing s with
  | nil => exact hP s h₀
  | cons a as ih => exact ⟨hP s h₀, fun s' hs' => ih (hstep s a s' h₀ hok.1 hs') (hok.2 s' hs')⟩

theorem always (Inv P : S → Prop) (hP : ∀ s, Inv s → P s)
    (hstep : ∀ s a s', Inv s → step s a = some s' → Inv s') (h₀ : Inv s) :
    Always step P s as := by
  induction as generalizing s with
  | nil => exact hP s h₀
  | cons a as ih => exact ⟨hP s h₀, fun s' hs' => ih (hstep s a s' h₀ hs')⟩

/-- The invariant rule, for the runs that stay in states where `P` holds. -/
theorem invariant_of_always (P Inv : S → Prop)
    (hstep : ∀ s a s', Inv s → P s' → step s a = some s' → Inv s')
    (h₀ : Inv s) (h : exec step s as = some s') (hP : Always step P s as) : Inv s' := by
  induction as generalizing s with
  | nil =>
    cases h
    exact h₀
  | cons a as ih =>
    obtain ⟨s₁, h₁, h₂⟩ := exec_cons.mp h
    have hrest := hP.2 s₁ h₁
    have hP₁ : P s₁ := by
      cases as with
      | nil => exact hrest
      | cons b bs => exact hrest.1
    exact ih (hstep s a s₁ h₀ hP₁ h₁) h₂ hrest

theorem along_and {ok' : S → A → Prop} :
    Along step (fun s a => ok s a ∧ ok' s a) s as ↔ Along step ok s as ∧ Along step ok' s as := by
  induction as generalizing s with
  | nil => simp
  | cons a as ih =>
    simp only [along_cons, ih, forall_and]
    tauto

/-- **An exact condition.** Let the steps meet `K`. If those that also meet `ok` keep the
invariant, and with it `P`, and every other one breaks `P`, then `P` holds all along a run just
when its steps all meet `ok`. -/
theorem always_iff_along (K : S → A → Prop) (Inv P : S → Prop) (hP : ∀ s, Inv s → P s)
    (hstep : ∀ s a s', Inv s → K s a → ok s a → step s a = some s' → Inv s')
    (hbad : ∀ s a s', Inv s → K s a → ¬ ok s a → step s a = some s' → ¬ P s')
    (h₀ : Inv s) (h : exec step s as = some s') (hK : Along step K s as) :
    Always step P s as ↔ Along step ok s as := by
  constructor
  · intro hall
    induction as generalizing s with
    | nil => trivial
    | cons a as ih =>
      obtain ⟨s₁, h₁, h₂⟩ := exec_cons.mp h
      have hP₁ : P s₁ := by
        cases as with
        | nil => exact hall.2 s₁ h₁
        | cons b bs => exact (hall.2 s₁ h₁).1
      by_cases hok : ok s a
      · refine ⟨hok, fun s' hs' => ?_⟩
        obtain rfl : s' = s₁ := Option.some.inj (hs'.symm.trans h₁)
        exact ih (hstep s a _ h₀ hK.1 hok h₁) h₂ (hK.2 _ h₁) (hall.2 _ h₁)
      · exact absurd hP₁ (hbad s a s₁ h₀ hK.1 hok h₁)
  · intro hall
    exact always_of_along Inv P hP (fun s a s' hs hok => hstep s a s' hs hok.1 hok.2) h₀
      (along_and.mpr ⟨hK, hall⟩)

/-- Let the steps meet `K`. If those that also meet `ok` keep the invariant, under which `ok` and
`P` are the same, then the steps of a run all meet `P` just when they all meet `ok`. -/
theorem along_iff_along (K P : S → A → Prop) (Inv : S → Prop)
    (hiff : ∀ s a, Inv s → K s a → (P s a ↔ ok s a))
    (hstep : ∀ s a s', Inv s → K s a → ok s a → step s a = some s' → Inv s')
    (h₀ : Inv s) (hK : Along step K s as) : Along step P s as ↔ Along step ok s as := by
  induction as generalizing s with
  | nil => exact Iff.rfl
  | cons a as ih =>
    refine (and_congr_left fun _ => hiff s a h₀ hK.1).trans (and_congr_right fun hok => ?_)
    exact forall₂_congr fun s' hs' => ih (hstep s a s' h₀ hK.1 hok hs') (hK.2 s' hs')

/-! ## What can still happen -/

variable (step) in
/-- Some run leads from one state to the other. -/
def Reaches (s s' : S) : Prop := ∃ as, exec step s as = some s'

theorem Reaches.refl (s : S) : Reaches step s s := ⟨[], rfl⟩

theorem Reaches.head (h : step s a = some s') (hs : Reaches step s' s'') : Reaches step s s'' := by
  obtain ⟨as, has⟩ := hs
  exact ⟨a :: as, exec_cons.mpr ⟨s', h, has⟩⟩

theorem Reaches.one (h : step s a = some s') : Reaches step s s' := .head h (.refl s')

theorem Reaches.trans (h : Reaches step s s') (hs : Reaches step s' s'') :
    Reaches step s s'' := by
  obtain ⟨as, has⟩ := h
  obtain ⟨bs, hbs⟩ := hs
  exact ⟨as ++ bs, (exec_append has).trans hbs⟩

/-- The invariant rule for what can still happen. -/
theorem Reaches.invariant (Inv : S → Prop)
    (hstep : ∀ s a s', Inv s → step s a = some s' → Inv s') (h₀ : Inv s)
    (h : Reaches step s s') : Inv s' := by
  obtain ⟨as, has⟩ := h
  exact Run.invariant Inv hstep h₀ has

/-- **The progress rule.** If from every state that is not done the machine can get to a smaller
one, then it can get to one that is done. -/
theorem Reaches.of_progress {M : Type*} [LT M] [WellFoundedLT M] (Inv Done : S → Prop) (μ : S → M)
    (hprogress : ∀ s, Inv s → ¬ Done s → ∃ s', Reaches step s s' ∧ Inv s' ∧ μ s' < μ s)
    (h₀ : Inv s) : ∃ s', Reaches step s s' ∧ Inv s' ∧ Done s' := by
  induction hm : μ s using WellFoundedLT.induction generalizing s with
  | ind m ih =>
    subst hm
    by_cases hdone : Done s
    · exact ⟨s, .refl s, h₀, hdone⟩
    · obtain ⟨s₁, hreach, hinv, hlt⟩ := hprogress s h₀ hdone
      obtain ⟨s₂, hreach', h₂⟩ := ih (μ s₁) hlt hinv rfl
      exact ⟨s₂, hreach.trans hreach', h₂⟩

/-! ## Costs -/

variable (step) in
/-- What the steps of a run cost together. -/
def totalCost (cost : S → A → ℕ) : S → List A → ℕ
  | _, [] => 0
  | s, a :: as => cost s a + (step s a).elim 0 fun s' => totalCost cost s' as

theorem totalCost_cons_of_step {cost : S → A → ℕ} (h : step s a = some s') :
    totalCost step cost s (a :: as) = cost s a + totalCost step cost s' as := by
  change _ + (step s a).elim _ _ = _
  rw [h, Option.elim_some]

/-- **The potential rule.** If every step pays for its cost with what it is given and with the
potential, then so does every run. -/
theorem potential {cost gain : S → A → ℕ} (Inv : S → Prop) (Φ : S → ℕ)
    (hstep : ∀ s a s', Inv s → ok s a → step s a = some s' →
      Inv s' ∧ cost s a + Φ s' ≤ Φ s + gain s a)
    (h₀ : Inv s) (h : exec step s as = some s') (hok : Along step ok s as) :
    totalCost step cost s as + Φ s' ≤ Φ s + totalCost step gain s as := by
  induction as generalizing s with
  | nil =>
    cases h
    exact Nat.le_of_eq (Nat.zero_add _)
  | cons a as ih =>
    obtain ⟨s₁, h₁, h₂⟩ := exec_cons.mp h
    obtain ⟨hinv, hle⟩ := hstep s a s₁ h₀ hok.1 h₁
    have hrest := ih hinv h₂ (hok.2 s₁ h₁)
    rw [totalCost_cons_of_step h₁, totalCost_cons_of_step h₁]
    omega

theorem totalCost_mul_ite (p : A → Bool) (c : ℕ) (h : exec step s as = some s') :
    totalCost step (fun _ a => if p a then c else 0) s as = c * as.countP p := by
  induction as generalizing s with
  | nil => rfl
  | cons a as ih =>
    obtain ⟨s₁, h₁, h₂⟩ := exec_cons.mp h
    rw [totalCost_cons_of_step h₁, ih h₂, List.countP_cons]
    split_ifs
    · rw [Nat.mul_add, Nat.mul_one, Nat.add_comm]
    · rw [Nat.zero_add, Nat.add_zero]

/-- The potential rule, for the number of the actions that `p` holds of, where those that `q` holds
of bring in `c` each. -/
theorem countP_le {p q : A → Bool} {c : ℕ} (Inv : S → Prop) (Φ : S → ℕ)
    (hstep : ∀ s a s', Inv s → step s a = some s' →
      Inv s' ∧ (if p a then 1 else 0) + Φ s' ≤ Φ s + if q a then c else 0)
    (h₀ : Inv s) (h : exec step s as = some s') :
    as.countP p + Φ s' ≤ Φ s + c * as.countP q := by
  have hall : Along step (fun _ _ => True) s as := along_of_forall fun _ _ => trivial
  have hle := potential Inv Φ (fun s a s' hs _ => hstep s a s' hs) h₀ h hall
  rwa [totalCost_mul_ite p 1 h, totalCost_mul_ite q c h, Nat.one_mul] at hle

/-! ## Simulation -/

/-- The runs of a machine that is given by a relation. -/
inductive Runs {M : Type*} (R : M → A → M → Prop) : M → List A → M → Prop where
  | nil (m : M) : Runs R m [] m
  | cons {m m' m'' : M} {a : A} {as : List A} (h : R m a m') (hs : Runs R m' as m'') :
      Runs R m (a :: as) m''

/-- **The simulation rule.** If the steps that meet `ok` keep the invariant and are steps of `R`
between what `f` sees, then so is every run of such steps. -/
theorem runs_of_exec {M : Type*} {R : M → A → M → Prop} (f : S → M) (Inv : S → Prop)
    (hstep : ∀ s a s', Inv s → ok s a → step s a = some s' → Inv s' ∧ R (f s) a (f s'))
    (h₀ : Inv s) (h : exec step s as = some s') (hok : Along step ok s as) :
    Runs R (f s) as (f s') := by
  induction as generalizing s with
  | nil =>
    cases h
    exact .nil _
  | cons a as ih =>
    obtain ⟨s₁, h₁, h₂⟩ := exec_cons.mp h
    obtain ⟨hinv, hR⟩ := hstep s a s₁ h₀ hok.1 h₁
    exact .cons hR (ih hinv h₂ (hok.2 s₁ h₁))

/-! ## Answers -/

section Trace

variable {O : Type*} (answer : S → A → O × S)

/-- The answers to a list of actions, and the state after them. -/
def trace : S → List A → List O × S
  | s, [] => ([], s)
  | s, a :: as =>
    let (o, s) := answer s a
    let (os, s) := trace s as
    (o :: os, s)

variable {answer}

@[simp] theorem trace_nil : trace answer s [] = ([], s) := rfl

@[simp] theorem trace_cons_fst :
    (trace answer s (a :: as)).1 = (answer s a).1 :: (trace answer (answer s a).2 as).1 := rfl

@[simp] theorem trace_cons_snd :
    (trace answer s (a :: as)).2 = (trace answer (answer s a).2 as).2 := rfl

theorem length_trace (s : S) (as : List A) : (trace answer s as).1.length = as.length := by
  induction as generalizing s with
  | nil => rfl
  | cons a as ih => simp [ih]

/-- The answers to those actions that `p` holds of. -/
def answersTo (answer : S → A → O × S) (p : A → Bool) (s : S) (as : List A) : List O :=
  ((as.zip (trace answer s as).1).filter fun x => p x.1).map Prod.snd

theorem answersTo_cons (p : A → Bool) : answersTo answer p s (a :: as) =
    (if p a then [(answer s a).1] else []) ++ answersTo answer p (answer s a).2 as := by
  cases hp : p a <;> simp [answersTo, hp]

theorem trace_append (s : S) (as bs : List A) : trace answer s (as ++ bs) =
    ((trace answer s as).1 ++ (trace answer (trace answer s as).2 bs).1,
      (trace answer (trace answer s as).2 bs).2) := by
  induction as generalizing s with
  | nil => rfl
  | cons a as ih => simp [Prod.ext_iff, ih]

theorem answersTo_append (p : A → Bool) (s : S) (as bs : List A) :
    answersTo answer p s (as ++ bs) =
      answersTo answer p s as ++ answersTo answer p (trace answer s as).2 bs := by
  simp only [answersTo, trace_append]
  rw [List.zip_append (length_trace s as).symm, List.filter_append, List.map_append]

end Trace

end Run
