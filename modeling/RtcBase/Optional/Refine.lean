import RtcBase.Lib.Run
import RtcBase.Optional.Model

/-!
# `Optional` against mathematical options

* `Options`, `Op.apply`: which `Optional`s there are and what option each of them is; what each
  call does to the options;
* `look`, `shape`: `has_value_` and the objects; those that stand for given options;
* `yields_new`, …, `yields_swapT`: the operations of `T`;
* `yields_reset`, …, `yields_swap`: one lemma for each member function;
* **`yields_run`**: every legal call does what the call on options does;
* `step_look`, `exec_look`: the same over sequences of calls.
-/

namespace RtcBase

open Lifetime Run

namespace Optional

variable {ι T : Type} {R : Rules T}

/-! ## Options -/

/-- The `Optional`s that there are, each as an option. -/
abbrev Options (ι T : Type) : Type := ι → Option (Option T)

/-- What a move leaves of `v`, by what was in the target. -/
def Rules.left (R : Rules T) (v : T) : Option T → T
  | none => R.moved v
  | some u => R.movedFrom u v

variable [DecidableEq ι]

/-- The call on options. -/
def Op.apply (R : Rules T) (x : Options ι T) : Op ι T → Options ι T
  | .empty i => Function.update x i (some none)
  | .ofValue i value => Function.update x i (some (some value))
  | .copy i m => Function.update x i (x m)
  | .move i m => Function.update (Function.update x m ((x m).map (Option.map R.moved))) i (x m)
  | .destruct i => Function.update x i none
  | .assignNullopt i => Function.update x i (some none)
  | .assignCopy i m => Function.update x i (x m)
  | .assignMove i m =>
    if i = m then Function.update x i ((x i).map (Option.map R.selfMoved))
    else
      Function.update
        (Function.update x m ((x m).map (Option.map fun v => R.left v (x i).join))) i (x m)
  | .swap m1 m2 => Function.update (Function.update x m1 (x m2)) m2 (x m1)
  | .reset i => Function.update x i (some none)
  | .emplace i value => Function.update x i (some (some value))

/-- The options that are observed. -/
def options (s : State ι T) : Options ι T :=
  fun i => (s.has_value_ i).map fun b => if b then s.store.val (.value_ i) else none

/-- `has_value_` and the values. -/
abbrev Look (ι T : Type) : Type := (ι → Option Bool) × (Loc ι → Option T)

/-- What the code reads. -/
def look (s : State ι T) : Look ι T := (s.has_value_, s.store.val)

/-- The flags that the `Optional`s should have. -/
def flags (x : Options ι T) (i : ι) : Option Bool := (x i).map Option.isSome

/-- There is an object just where there is a value. -/
def vals (x : Options ι T) : Loc ι → Option T
  | .value_ i => (x i).join
  | .tmp => none

/-- What the code should read. -/
abbrev shape (x : Options ι T) : Look ι T := (flags x, vals x)

variable {x : Options ι T} {i m : ι} {u v : T} {s : State ι T}

theorem flags_update (x : Options ι T) (i : ι) (y : Option (Option T)) :
    flags (Function.update x i y) = Function.update (flags x) i (y.map Option.isSome) := by
  funext k
  by_cases hk : k = i
  · subst hk
    simp [flags]
  · simp [flags, hk]

theorem vals_update (x : Options ι T) (i : ι) (y : Option (Option T)) :
    vals (Function.update x i y) = Function.update (vals x) (.value_ i) y.join := by
  funext l
  cases l with
  | value_ k =>
    by_cases hk : k = i
    · subst hk
      simp [vals]
    · simp [vals, hk]
  | tmp => simp [vals]

omit [DecidableEq ι] in
theorem options_of_look (h : look s = shape x) : options s = x := by
  have hflag : s.has_value_ = flags x := congrArg Prod.fst h
  have hval : s.store.val = vals x := congrArg Prod.snd h
  funext i
  rw [options, hflag, hval]
  simp only [flags, vals]
  cases x i with
  | none => rfl
  | some o => cases o <;> rfl

/-! ## The operations of `T` -/

section Objects

variable {f : ι → Option Bool} {w : Loc ι → Option T} {l l' : Loc ι} {b b' : Bool}

omit [DecidableEq ι] in
theorem yields_onStore {op : Store (Loc ι) T → Option (Store (Loc ι) T)} {w' : Loc ι → Option T}
    (h : ∀ st, st.val = w → ∃ st', op st = some st' ∧ st'.val = w') :
    Yields look (onStore op) (f, w) () (f, w') := by
  intro s hs
  cases hs
  obtain ⟨st', hst', hval⟩ := h s.store rfl
  refine ⟨{ s with store := st' }, ?_, Prod.ext rfl hval⟩
  rw [onStore, hst']
  rfl

theorem yields_new (h : w l = none) (v : T) :
    Yields look (new l v) (f, w) () (f, Function.update w l (some v)) :=
  yields_onStore fun st hst => by
    subst hst
    exact Store.construct_val h v

theorem yields_delete (h : (w l).isSome) :
    Yields look (delete l) (f, w) () (f, Function.update w l none) :=
  yields_onStore fun st hst => by
    subst hst
    exact Store.destroy_val h

theorem yields_set (h : (w l).isSome) (v : T) :
    Yields look (set l v) (f, w) () (f, Function.update w l (some v)) :=
  yields_onStore fun st hst => by
    subst hst
    exact Store.assign_val h v

omit [DecidableEq ι] in
theorem yields_read (h : w l = some v) : Yields look (read l) (f, w) v (f, w) := by
  intro s hs
  cases hs
  refine ⟨s, ?_, rfl⟩
  rw [read, h]
  rfl

omit [DecidableEq ι] in
theorem yields_hasValue (h : f i = some b) : Yields look (hasValue i) (f, w) b (f, w) := by
  intro s hs
  cases hs
  refine ⟨s, ?_, rfl⟩
  rw [hasValue, h]
  rfl

theorem yields_setHasValue (h : f i = some b') (b : Bool) :
    Yields look (setHasValue i b) (f, w) () (Function.update f i (some b), w) := by
  intro s hs
  cases hs
  refine ⟨{ s with has_value_ := Function.update s.has_value_ i (some b) }, ?_, rfl⟩
  rw [setHasValue, h]
  rfl

theorem yields_enter (h : f i = none) (b : Bool) :
    Yields look (enter i b) (f, w) () (Function.update f i (some b), w) := by
  intro s hs
  cases hs
  exact ⟨{ s with has_value_ := Function.update s.has_value_ i (some b) }, if_pos h, rfl⟩

theorem yields_exit (h : f i = some b) :
    Yields look (exit i) (f, w) () (Function.update f i none, w) := by
  intro s hs
  cases hs
  refine ⟨{ s with has_value_ := Function.update s.has_value_ i none }, ?_, rfl⟩
  rw [exit, h]
  rfl

theorem yields_moveNew (h : w l = none) (h' : w l' = some v) :
    Yields look (moveNew R l l') (f, w) ()
      (f, Function.update (Function.update w l (some v)) l' (some (R.moved v))) := by
  have hne : l' ≠ l := by
    rintro rfl
    exact Option.some_ne_none v (h'.symm.trans h)
  refine (yields_read h').bind ((yields_new h v).bind (yields_set ?_ _))
  rw [Function.update_of_ne hne, h', Option.isSome_some]

theorem yields_moveSet (h : w l = some u) (h' : w l' = some v) (hne : l ≠ l') :
    Yields look (moveSet R l l') (f, w) ()
      (f, Function.update (Function.update w l (some v)) l' (some (R.movedFrom u v))) := by
  refine (yields_read h).bind ((yields_read h').bind ?_)
  rw [if_neg hne]
  refine (yields_set (Option.isSome_of_mem h) v).bind (yields_set ?_ _)
  rw [Function.update_of_ne hne.symm, h', Option.isSome_some]

theorem yields_moveSet_self (h : w l = some u) :
    Yields look (moveSet R l l) (f, w) () (f, Function.update w l (some (R.selfMoved u))) := by
  refine (yields_read h).bind ((yields_read h).bind ?_)
  rw [if_pos rfl]
  exact yields_set (Option.isSome_of_mem h) _

theorem yields_swapT (h : w l = some u) (h' : w l' = some v) (hl : l ≠ .tmp) (hl' : l' ≠ .tmp)
    (htmp : w .tmp = none) : Yields look (swapT R l l') (f, w) ()
      (f, Function.update (Function.update w l (some v)) l' (some u)) := by
  rw [swapT]
  split_ifs with hown
  · refine (yields_read h).bind ((yields_read h').bind
      ((yields_set (Option.isSome_of_mem h) v).bind (yields_set ?_ u)))
    by_cases hll : l' = l
    · rw [hll, Function.update_self, Option.isSome_some]
    · rw [Function.update_of_ne hll, h', Option.isSome_some]
  · -- the values go `l` to `tmp`, `l'` to `l`, `tmp` to `l'`
    refine (yields_moveNew htmp h).bind ?_
    by_cases hll : l = l'
    · subst hll
      obtain rfl : u = v := Option.some.inj (h.symm.trans h')
      refine (yields_moveSet_self (Function.update_self _ _ _)).bind ?_
      refine (yields_moveSet (u := R.selfMoved (R.moved u)) (v := u) ?_ ?_ hl).bind ?_
      · simp
      · simp [Ne.symm hl]
      · refine (yields_delete (by simp)).of_eq (congrArg (Prod.mk f) (funext fun k => ?_))
        simp only [Function.update_apply]
        split_ifs <;> simp_all
    · refine (yields_moveSet (u := R.moved u) (v := v) ?_ ?_ hll).bind ?_
      · simp
      · simp [Ne.symm hll, hl', h']
      · refine (yields_moveSet (u := R.movedFrom (R.moved u) v) (v := u) ?_ ?_ hl').bind ?_
        · simp
        · simp [Ne.symm hl, Ne.symm hl']
        · refine (yields_delete (by simp)).of_eq (congrArg (Prod.mk f) (funext fun k => ?_))
          simp only [Function.update_apply]
          split_ifs <;> simp_all

end Objects

/-! ## The member functions -/

section Members

variable {o p : Option T} {y : Options ι T} {act act' : M ι T Unit}

omit [DecidableEq ι] in
theorem flags_eq (h : x i = some o) : flags x i = some o.isSome := by
  rw [flags, h, Option.map_some]

omit [DecidableEq ι] in
theorem flags_eq_none (h : x i = none) : flags x i = none := by rw [flags, h, Option.map_none]

omit [DecidableEq ι] in
theorem vals_eq (h : x i = some o) : vals x (.value_ i) = o := by rw [vals, h, Option.join_some]

omit [DecidableEq ι] in
theorem vals_eq_none (h : x i = none) : vals x (.value_ i) = none := by
  rw [vals, h, Option.join_none]

omit [DecidableEq ι] in
theorem yields_ifValue (h : x i = some o)
    (hsome : ∀ v, o = some v → Yields look act (shape x) () (shape y))
    (hnone : o = none → Yields look act' (shape x) () (shape y)) :
    Yields look (do if ← hasValue i then act else act') (shape x) () (shape y) := by
  refine (yields_hasValue (flags_eq h)).bind ?_
  cases o with
  | none =>
    rw [if_neg (by simp)]
    exact hnone rfl
  | some v =>
    rw [if_pos (by simp)]
    exact hsome v rfl

theorem shape_update (x : Options ι T) (i : ι) (y : Option (Option T)) :
    (Function.update (flags x) i (y.map Option.isSome),
        Function.update (vals x) (.value_ i) y.join) = shape (Function.update x i y) :=
  Prod.ext (flags_update x i y).symm (vals_update x i y).symm

theorem flags_set (h : x i = some (some u)) (v : T) :
    flags (Function.update x i (some (some v))) = flags x := by
  rw [flags_update]
  exact Function.update_eq_self_iff.mpr (flags_eq h).symm

/-- Only `has_value_` is written where there is no object. -/
theorem vals_clear (h : vals x (.value_ i) = none) {y : Option (Option T)} (hy : y.join = none) :
    vals (Function.update x i y) = vals x := by
  rw [vals_update, hy]
  exact Function.update_eq_self_iff.mpr h.symm

theorem yields_empty (h : x i = none) :
    Yields look (Optional.empty i) (shape x) () (shape (Function.update x i (some none))) := by
  unfold shape
  rw [flags_update, vals_clear (vals_eq_none h) rfl]
  exact yields_enter (flags_eq_none h) false

theorem yields_ofValue (h : x i = none) (value : T) :
    Yields look (ofValue i value) (shape x) ()
      (shape (Function.update x i (some (some value)))) := by
  rw [← shape_update]
  exact (yields_enter (flags_eq_none h) true).bind (yields_new (vals_eq_none h) value)

theorem yields_copy (h : x i = none) (hm : x m = some p) :
    Yields look (copy i m) (shape x) () (shape (Function.update x i (x m))) := by
  refine (yields_hasValue (flags_eq hm)).bind ((yields_enter (flags_eq_none h) _).bind ?_)
  refine (yields_hasValue (Function.update_self _ _ _)).bind ?_
  rw [hm]
  cases p with
  | none =>
    rw [if_neg (by simp), shape, flags_update, vals_clear (vals_eq_none h) rfl]
    exact .pure _ _
  | some v =>
    rw [if_pos (by simp), ← shape_update]
    exact (yields_read (vals_eq hm)).bind (yields_new (vals_eq_none h) v)

theorem yields_move (h : x i = none) (hm : x m = some p) :
    Yields look (move R i m) (shape x) ()
      (shape (Function.update (Function.update x m ((x m).map (Option.map R.moved))) i (x m))) := by
  refine (yields_hasValue (flags_eq hm)).bind ((yields_enter (flags_eq_none h) _).bind ?_)
  refine (yields_hasValue (Function.update_self _ _ _)).bind ?_
  have hne : Loc.value_ m ≠ Loc.value_ i := by
    rintro ⟨⟩
    exact Option.some_ne_none p (hm.symm.trans h)
  rw [hm]
  cases p with
  | none =>
    rw [if_neg (by simp), Option.map_some, Option.map_none, ← hm, Function.update_eq_self, hm,
      shape, flags_update, vals_clear (vals_eq_none h) rfl]
    exact .pure _ _
  | some v =>
    rw [if_pos (by simp), ← shape_update, Option.map_some, Option.map_some, flags_set hm,
      vals_update, Function.update_comm hne]
    exact yields_moveNew (vals_eq_none h) (vals_eq hm)

theorem yields_destruct (h : x i = some o) :
    Yields look (destruct i) (shape x) () (shape (Function.update x i none)) := by
  refine yields_ifValue h ?_ ?_
  · rintro v rfl
    rw [← shape_update]
    exact (yields_delete (by simp [vals_eq h])).bind (yields_exit (flags_eq h))
  · rintro rfl
    unfold shape
    rw [flags_update, vals_clear (vals_eq h) rfl]
    exact yields_exit (flags_eq h)

theorem yields_reset (h : x i = some o) :
    Yields look (reset i) (shape x) () (shape (Function.update x i (some none))) := by
  refine yields_ifValue h ?_ ?_
  · rintro v rfl
    rw [← shape_update]
    exact (yields_delete (by simp [vals_eq h])).bind (yields_setHasValue (flags_eq h) false)
  · rintro rfl
    rw [← h, Function.update_eq_self]
    exact .pure _ _

theorem yields_assignCopy (h : x i = some o) (hm : x m = some p) :
    Yields look (assignCopy i m) (shape x) () (shape (Function.update x i (x m))) := by
  rw [hm]
  refine yields_ifValue hm (fun v hv => yields_ifValue h (fun u hu => ?_) fun ho => ?_) fun hp => ?_
  · subst hv hu
    unfold shape
    rw [flags_set h, vals_update]
    exact (yields_read (vals_eq hm)).bind (yields_set (by simp [vals_eq h]) v)
  · subst hv ho
    rw [← shape_update]
    refine (yields_read (vals_eq hm)).bind ((yields_new (vals_eq h) v).bind ?_)
    exact yields_setHasValue (flags_eq h) true
  · subst hp
    exact yields_reset h

theorem yields_assignMove (h : x i = some o) (hm : x m = some p) (hne : i ≠ m) :
    Yields look (assignMove R i m) (shape x) ()
      (shape (Function.update
        (Function.update x m ((x m).map (Option.map fun v => R.left v (x i).join))) i (x m))) := by
  rw [hm, h, Option.map_some, Option.join_some]
  have hne' : Loc.value_ i ≠ Loc.value_ m := fun heq => hne (Loc.value_.inj heq)
  refine yields_ifValue hm (fun v hv => yields_ifValue h (fun u hu => ?_) fun ho => ?_) fun hp => ?_
  · subst hv hu
    have h' : Function.update x m (some (some (R.movedFrom u v))) i = some (some u) := by
      rw [Function.update_of_ne hne, h]
    unfold shape
    rw [Option.map_some, Rules.left, flags_set h', flags_set hm, vals_update, vals_update,
      Function.update_comm hne'.symm]
    exact yields_moveSet (vals_eq h) (vals_eq hm) hne'
  · subst hv ho
    rw [← shape_update, Option.map_some, Rules.left, flags_set hm, vals_update,
      Function.update_comm hne'.symm]
    exact (yields_moveNew (vals_eq h) (vals_eq hm)).bind (yields_setHasValue (flags_eq h) true)
  · subst hp
    rw [Option.map_none, ← hm, Function.update_eq_self, hm]
    exact yields_reset h

theorem yields_assignMove_self (h : x i = some o) :
    Yields look (assignMove R i i) (shape x) ()
      (shape (Function.update x i ((x i).map (Option.map R.selfMoved)))) := by
  rw [h, Option.map_some]
  refine yields_ifValue h (fun v hv => yields_ifValue h (fun u hu => ?_) fun ho => ?_) fun hp => ?_
  · subst hv
    unfold shape
    rw [Option.map_some, flags_set h, vals_update]
    exact yields_moveSet_self (vals_eq h)
  · subst hv
    cases ho
  · subst hp
    exact yields_reset h

theorem yields_handOver (h : x i = some (some v)) (hm : x m = some none) {z : Look ι T}
    (hact : Yields look act
      (flags x, Function.update (Function.update (vals x) (.value_ i) none) (.value_ m) (some v)) ()
      z) :
    Yields look (do
      moveNew R (.value_ m) (.value_ i)
      delete (.value_ i)
      act) (shape x) () z := by
  have hne : Loc.value_ m ≠ Loc.value_ i := by
    rintro ⟨⟩
    cases h.symm.trans hm
  refine (yields_moveNew (vals_eq hm) (vals_eq h)).bind ((yields_delete (by simp)).bind ?_)
  rw [Function.update_idem, Function.update_comm hne]
  exact hact

theorem yields_swap (h : x i = some o) (hm : x m = some p) :
    Yields look (swap R i m) (shape x) ()
      (shape (Function.update (Function.update x i (x m)) m (x i))) := by
  rw [h, hm]
  refine (yields_hasValue (flags_eq h)).bind ?_
  cases o with
  | some u =>
    rw [if_pos (by simp)]
    refine yields_ifValue hm ?_ ?_
    · rintro v rfl
      have h' : Function.update x i (some (some v)) m = some (some v) := by
        by_cases him : m = i
        · rw [him, Function.update_self]
        · rw [Function.update_of_ne him, hm]
      unfold shape
      rw [flags_set h', flags_set h, vals_update, vals_update]
      exact yields_swapT (vals_eq h) (vals_eq hm) (by simp) (by simp) rfl
    · rintro rfl
      have hne : m ≠ i := by
        rintro rfl
        cases h.symm.trans hm
      rw [← shape_update, flags_update, vals_update]
      have hflag : Function.update (flags x) i (some false) m = some false := by
        rw [Function.update_of_ne hne, flags_eq hm, Option.isSome_none]
      exact yields_handOver h hm
        ((yields_setHasValue (flags_eq h) false).bind (yields_setHasValue hflag true))
  | none =>
    rw [if_neg (by simp)]
    refine yields_ifValue hm ?_ ?_
    · rintro v rfl
      have hne : m ≠ i := by
        rintro rfl
        cases h.symm.trans hm
      have hflag : Function.update (flags x) i (some true) m = some true := by
        rw [Function.update_of_ne hne, flags_eq hm, Option.isSome_some]
      rw [Function.update_comm hne.symm, ← shape_update, flags_update, vals_update]
      refine yields_handOver hm h ((yields_setHasValue (flags_eq h) true).bind ?_)
      rw [Function.update_comm hne]
      exact yields_setHasValue hflag false
    · rintro rfl
      rw [← h, Function.update_eq_self, h, ← hm, Function.update_eq_self]
      exact .pure _ _

theorem yields_emplace (h : x i = some o) (value : T) :
    Yields look (emplace i value) (shape x) ()
      (shape (Function.update x i (some (some value)))) := by
  rw [← shape_update]
  refine (yields_hasValue (flags_eq h)).bind ?_
  cases o with
  | none =>
    rw [if_neg (by simp)]
    exact (yields_new (vals_eq h) value).bind (yields_setHasValue (flags_eq h) true)
  | some v =>
    rw [if_pos (by simp)]
    refine (yields_delete (by simp [vals_eq h])).bind ((yields_new (by simp) value).bind ?_)
    rw [Function.update_idem]
    exact yields_setHasValue (flags_eq h) true

/-- **Every legal call does what the call on options does.** -/
theorem yields_run {op : Op ι T} (h : Legal (fun i => (x i).isSome) op) :
    Yields look (op.run R) (shape x) () (shape (op.apply R x)) := by
  have hsome {k : ι} (hk : (x k).isSome = true) : ∃ o, x k = some o :=
    Option.isSome_iff_exists.mp hk
  have hnone {k : ι} (hk : (x k).isSome = false) : x k = none :=
    Option.isNone_iff_eq_none.mp (Option.isSome_eq_false_iff.mp hk)
  cases op with
  | empty i => exact yields_empty (hnone h)
  | ofValue i value => exact yields_ofValue (hnone h) value
  | copy i m =>
    obtain ⟨p, hm⟩ := hsome h.2
    exact yields_copy (hnone h.1) hm
  | move i m =>
    obtain ⟨p, hm⟩ := hsome h.2
    exact yields_move (hnone h.1) hm
  | destruct i =>
    obtain ⟨o, hi⟩ := hsome h
    exact yields_destruct hi
  | assignNullopt i =>
    obtain ⟨o, hi⟩ := hsome h
    exact yields_reset hi
  | assignCopy i m =>
    obtain ⟨o, hi⟩ := hsome h.1
    obtain ⟨p, hm⟩ := hsome h.2
    exact yields_assignCopy hi hm
  | assignMove i m =>
    obtain ⟨o, hi⟩ := hsome h.1
    obtain ⟨p, hm⟩ := hsome h.2
    rw [Op.apply]
    split_ifs with him
    · subst him
      exact yields_assignMove_self hi
    · exact yields_assignMove hi hm him
  | swap i m =>
    obtain ⟨o, hi⟩ := hsome h.1
    obtain ⟨p, hm⟩ := hsome h.2
    exact yields_swap hi hm
  | reset i =>
    obtain ⟨o, hi⟩ := hsome h
    exact yields_reset hi
  | emplace i value =>
    obtain ⟨o, hi⟩ := hsome h
    exact yields_emplace hi value

end Members

/-! ## Sequences of calls -/

theorem step_look (hs : look s = shape x) {op : Op ι T} (h : LegalIn s op) :
    ∃ s', step R s op = some s' ∧ look s' = shape (op.apply R x) := by
  have hexists : (fun i => (s.has_value_ i).isSome) = fun i => (x i).isSome := by
    funext i
    rw [show s.has_value_ = flags x from congrArg Prod.fst hs, flags, Option.isSome_map]
  have hlegal : Legal (fun i => (x i).isSome) op := hexists ▸ h
  obtain ⟨s', hs', hlook⟩ := yields_run hlegal s hs
  exact ⟨s', by rw [step, hs', Option.map_some], hlook⟩

theorem exec_look (hs : look s = shape x) {ops : List (Op ι T)}
    (h : Along (step R) LegalIn s ops) :
    ∃ s', exec (step R) s ops = some s' ∧ look s' = shape (ops.foldl (Op.apply R) x) := by
  induction ops generalizing s x with
  | nil => exact ⟨s, rfl, hs⟩
  | cons op ops ih =>
    obtain ⟨s₁, h₁, hlook⟩ := step_look (R := R) hs h.1
    obtain ⟨s', h', hlook'⟩ := ih hlook (h.2 s₁ h₁)
    exact ⟨s', exec_cons.mpr ⟨s₁, h₁, h'⟩, hlook'⟩

end Optional

end RtcBase
