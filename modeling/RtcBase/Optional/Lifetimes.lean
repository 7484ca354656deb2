import RtcBase.Optional.Refine

/-!
# The objects of `Optional`

* `Rules.optEq`, `Rules.optNe`: the comparisons of options;
* `Observes`: the functions that only look, on options;
* `observes_of_look`: they agree;
* **`lifetimes_balanced`**: after any sequence of legal calls, the objects are those of the options.
-/

namespace RtcBase

open Lifetime Run

namespace Optional

variable {ι T : Type} {R : Rules T} {x : Options ι T} {s : State ι T} {i m : ι} {o p : Option T}

/-! ## Looking -/

/-- Equality of `Optional`s, by their contents. -/
def Rules.optEq (R : Rules T) : Option T → Option T → Bool
  | some u, some v => R.eq u v
  | none, none => true
  | _, _ => false

/-- Inequality of `Optional`s, by their contents. -/
def Rules.optNe (R : Rules T) : Option T → Option T → Bool
  | some u, some v => R.ne u v
  | none, none => false
  | _, _ => true

/-- What is seen of an `Optional` that is the option `o`, and of one that is `p`. -/
structure Observes (R : Rules T) (s : State ι T) (i m : ι) (o p : Option T) : Prop where
  hasValue : hasValue i s = some (o.isSome, s)
  value : ∀ v, o = some v → value i s = some (v, s)
  valueOr : ∀ v, valueOr i v s = some (o.getD v, s)
  equal : equal R i m s = some (R.optEq o p, s)
  equalValue : ∀ v, equalValue R i v s = some (R.optEq o (some v), s)
  valueEqual : ∀ v, valueEqual R v i s = some (R.optEq (some v) o, s)
  equalNullopt : equalNullopt i s = some (R.optEq o none, s)
  notEqual : notEqual R i m s = some (R.optNe o p, s)
  notEqualValue : ∀ v, notEqualValue R i v s = some (R.optNe o (some v), s)
  valueNotEqual : ∀ v, valueNotEqual R v i s = some (R.optNe (some v) o, s)
  notEqualNullopt : notEqualNullopt i s = some (R.optNe o none, s)

theorem hasValue_look (h : look s = shape x) (hi : x i = some o) :
    Optional.hasValue i s = some (o.isSome, s) := by
  have hflag : s.has_value_ = flags x := congrArg Prod.fst h
  rw [Optional.hasValue, hflag, flags_eq hi, Option.map_some]

theorem read_look (h : look s = shape x) {v : T} (hi : x i = some (some v)) :
    read (.value_ i) s = some (v, s) := by
  have hval : s.store.val = vals x := congrArg Prod.snd h
  rw [read, hval, vals_eq hi, Option.map_some]

theorem ifRead_apply {α : Type} (h : look s = shape x) (hi : x i = some o) (f : T → α) (d : α) :
    (do if ← Optional.hasValue i then return f (← read (.value_ i)) else return d : M ι T α) s =
      some (o.elim d f, s) := by
  rw [bind_apply (hasValue_look h hi)]
  cases o with
  | none => rfl
  | some v => exact bind_apply (read_look h hi)

theorem ifReadBoth_apply {α : Type} (h : look s = shape x) (hi : x i = some o) (hm : x m = some p)
    (f : T → T → α) (g : Bool → Bool → α) :
    (do
      if (← Optional.hasValue i) && (← Optional.hasValue m) then
        return f (← read (.value_ i)) (← read (.value_ m))
      else return g (← Optional.hasValue i) (← Optional.hasValue m) : M ι T α) s =
      some (o.elim (g false p.isSome) fun u => p.elim (g true false) (f u), s) := by
  have hflag := hasValue_look h hi
  have hflag' := hasValue_look h hm
  rw [bind_apply hflag, bind_apply hflag']
  cases o with
  | none => exact (bind_apply hflag).trans (bind_apply hflag')
  | some u =>
    cases p with
    | none => exact (bind_apply hflag).trans (bind_apply hflag')
    | some v => exact (bind_apply (read_look h hi)).trans (bind_apply (read_look h hm))

theorem observes_of_look (h : look s = shape x) (hi : x i = some o) (hm : x m = some p) :
    Observes R s i m o p where
  hasValue := hasValue_look h hi
  value v hv := read_look h (hv ▸ hi)
  valueOr v := by
    rw [Optional.valueOr, ← bind_pure (read (.value_ i))]
    refine (ifRead_apply h hi (fun u => u) v).trans ?_
    cases o <;> rfl
  equal := by
    rw [Optional.equal, ifReadBoth_apply h hi hm R.eq fun b b' => b == b']
    cases o <;> cases p <;> rfl
  equalValue v := by
    rw [Optional.equalValue, ifRead_apply h hi (R.eq · v) false]
    cases o <;> rfl
  valueEqual v := by
    rw [Optional.valueEqual, ifRead_apply h hi (R.eq v) false]
    cases o <;> rfl
  equalNullopt := by
    rw [Optional.equalNullopt, bind_apply (hasValue_look h hi)]
    cases o <;> rfl
  notEqual := by
    rw [Optional.notEqual, ifReadBoth_apply h hi hm R.ne fun b b' => b != b']
    cases o <;> cases p <;> rfl
  notEqualValue v := by
    rw [Optional.notEqualValue, ifRead_apply h hi (R.ne · v) true]
    cases o <;> rfl
  valueNotEqual v := by
    rw [Optional.valueNotEqual, ifRead_apply h hi (R.ne v) true]
    cases o <;> rfl
  notEqualNullopt := by
    rw [Optional.notEqualNullopt, hasValue_look h hi]
    cases o <;> rfl

/-! ## All calls -/

variable [DecidableEq ι]

/-- The options after a sequence of calls. -/
def Op.applyAll (R : Rules T) (ops : List (Op ι T)) : Options ι T :=
  ops.foldl (Op.apply R) fun _ => none

/-- **The objects are those of the options.** No call of a legal sequence goes wrong. After it,
`has_value_` is true just where an object is, what is observed is what the calls on options give,
and once there is no `Optional` left every object that was constructed has been destroyed once. -/
theorem lifetimes_balanced {ops : List (Op ι T)} (h : Along (step R) LegalIn init ops) :
    ∃ s, exec (step R) init ops = some s ∧
      (∀ i, s.has_value_ i = some true ↔ (s.store.cells (.value_ i)).isSome) ∧
      ((∀ i, s.has_value_ i = none) → s.store.died.Perm (List.range s.store.born)) ∧
      options s = Op.applyAll R ops ∧
      ∀ i m o p, options s i = some o → options s m = some p → Observes R s i m o p := by
  have hinit : look init = shape (fun _ : ι => (none : Option (Option T))) := by
    refine Prod.ext rfl (funext fun l => ?_)
    cases l <;> rfl
  obtain ⟨s, hs, hlook⟩ := exec_look (R := R) hinit h
  have hflag : s.has_value_ = flags (Op.applyAll R ops) := congrArg Prod.fst hlook
  have hval : s.store.val = vals (Op.applyAll R ops) := congrArg Prod.snd hlook
  have hcell (l : Loc ι) : (s.store.cells l).isSome = (vals (Op.applyAll R ops) l).isSome := by
    rw [← hval, Store.val, Option.isSome_map]
  refine ⟨s, hs, fun i => ?_, fun hnone => ?_, options_of_look hlook, ?_⟩
  · rw [hcell, hflag, flags, vals]
    cases Op.applyAll R ops i with
    | none => simp
    | some o => simp
  · refine s.store.accounts.died_perm fun l => Option.map_eq_none_iff.mpr ?_
    rw [← Option.not_isSome_iff_eq_none, hcell]
    cases l with
    | tmp => exact Bool.false_ne_true
    | value_ i =>
      have hi : Op.applyAll R ops i = none := by
        have hempty := hnone i
        rw [hflag] at hempty
        exact Option.map_eq_none_iff.mp hempty
      rw [vals_eq_none hi]
      exact Bool.false_ne_true
  · intro i m o p hi hm
    rw [options_of_look hlook] at hi hm
    exact observes_of_look hlook hi hm

/-- The rules of a type whose moves leave 0. -/
def leavesZero : Rules ℕ where
  moved _ := 0
  movedFrom _ _ := 0
  selfMoved v := v
  ownSwap := false
  eq u v := u == v
  ne u v := u != v

/-- A swap with itself, a move, and a swap with an empty `Optional`. -/
theorem lifetimes_balanced_sample : ∃ s : State ℕ ℕ, exec (step leavesZero) init
      [.ofValue 0 5, .swap 0 0, .move 1 0, .empty 2, .swap 1 2, .destruct 0] = some s ∧
    options s 1 = some none ∧ options s 2 = some (some 5) := by
  have h : Along (step leavesZero) LegalIn (init : State ℕ ℕ)
      [.ofValue 0 5, .swap 0 0, .move 1 0, .empty 2, .swap 1 2, .destruct 0] := by
    decide
  obtain ⟨s, hs, -, -, hoptions, -⟩ := lifetimes_balanced h
  refine ⟨s, hs, ?_⟩
  rw [hoptions]
  decide

end Optional

end RtcBase
