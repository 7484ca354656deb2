import Mathlib

/-!
# Lifetimes of objects

Objects are constructed in cells, assigned to, and destroyed. An operation that the state of the
cell does not allow gives `none`.

* `Accounts`: every object that was born has died once or is in one cell;
* `Accounts.construct`, `Accounts.destroy`: how an object comes and goes;
* **`Accounts.died_perm`**: when no cell holds an object, every object has died once;
* `Store`: cells that are accounted for, with `construct`, `destroy`, `assign` and `val`;
* `construct_val`, `destroy_val`, `assign_val`: what the operations leave in the cells;
* `Yields`, `Yields.bind`: programs over a state that is looked at through an observation.
-/

universe u

namespace Lifetime

/-! ## Births and deaths -/

section Accounts

variable {L : Type*} {ids : L → Option ℕ} {born n : ℕ} {died : List ℕ} {l : L}

/-- Every object that was born has died once or is in one cell. -/
structure Accounts (ids : L → Option ℕ) (born : ℕ) (died : List ℕ) : Prop where
  lt_born_iff : ∀ n, n < born ↔ n ∈ died ∨ ∃ l, ids l = some n
  not_died : ∀ l n, ids l = some n → n ∉ died
  injective : ∀ l l' n, ids l = some n → ids l' = some n → l = l'
  nodup : died.Nodup

theorem accounts_empty : Accounts (fun _ : L => none) 0 [] where
  lt_born_iff n := iff_of_false (Nat.not_lt_zero n) (by simp)
  not_died _ _ h := by cases h
  injective _ _ _ h := by cases h
  nodup := List.nodup_nil

/-- **When no cell holds an object, every object has died once.** -/
theorem Accounts.died_perm (h : Accounts ids born died) (hempty : ∀ l, ids l = none) :
    died.Perm (List.range born) := by
  refine (List.perm_ext_iff_of_nodup h.nodup List.nodup_range).mpr fun n => ?_
  rw [List.mem_range, h.lt_born_iff]
  refine ⟨Or.inl, fun hn => ?_⟩
  obtain hn | ⟨l, hl⟩ := hn
  · exact hn
  · rw [hempty l] at hl
    cases hl

theorem Accounts.lt_born (h : Accounts ids born died) (hl : ids l = some n) : n < born :=
  (h.lt_born_iff n).mpr (Or.inr ⟨l, hl⟩)

variable [DecidableEq L]

theorem update_some_eq_some {k : L} {m : ℕ} : Function.update ids l (some m) k = some n ↔
    k = l ∧ m = n ∨ k ≠ l ∧ ids k = some n := by
  by_cases hk : k = l
  · subst hk
    simp
  · simp [hk]

theorem update_none_eq_some {k : L} :
    Function.update ids l none k = some n ↔ k ≠ l ∧ ids k = some n := by
  by_cases hk : k = l
  · subst hk
    simp
  · simp [hk]

theorem Accounts.construct (h : Accounts ids born died) (hl : ids l = none) :
    Accounts (Function.update ids l (some born)) (born + 1) died where
  lt_born_iff n := by
    have hcell : (∃ k, Function.update ids l (some born) k = some n) ↔
        n = born ∨ ∃ k, ids k = some n := by
      simp only [update_some_eq_some]
      constructor
      · rintro ⟨k, ⟨-, hn⟩ | ⟨-, hk⟩⟩
        · exact Or.inl hn.symm
        · exact Or.inr ⟨k, hk⟩
      · rintro (hn | ⟨k, hk⟩)
        · exact ⟨l, Or.inl ⟨rfl, hn.symm⟩⟩
        · refine ⟨k, Or.inr ⟨?_, hk⟩⟩
          rintro rfl
          exact Option.some_ne_none n (hk.symm.trans hl)
    rw [hcell, Nat.lt_succ_iff_lt_or_eq, h.lt_born_iff]
    tauto
  not_died k n hk hdied := by
    obtain ⟨-, rfl⟩ | ⟨-, hk⟩ := update_some_eq_some.mp hk
    · exact lt_irrefl _ ((h.lt_born_iff _).mpr (Or.inl hdied))
    · exact h.not_died k n hk hdied
  injective k k' n hk hk' := by
    obtain ⟨rfl, rfl⟩ | ⟨-, hk⟩ := update_some_eq_some.mp hk
    · obtain ⟨hk', -⟩ | ⟨-, hk'⟩ := update_some_eq_some.mp hk'
      · exact hk'.symm
      · exact absurd (h.lt_born hk') (lt_irrefl _)
    · obtain ⟨-, rfl⟩ | ⟨-, hk'⟩ := update_some_eq_some.mp hk'
      · exact absurd (h.lt_born hk) (lt_irrefl _)
      · exact h.injective k k' n hk hk'
  nodup := h.nodup

theorem Accounts.destroy (h : Accounts ids born died) (hl : ids l = some n) :
    Accounts (Function.update ids l none) born (n :: died) where
  lt_born_iff m := by
    simp only [h.lt_born_iff, update_none_eq_some, List.mem_cons]
    constructor
    · rintro (hm | ⟨k, hk⟩)
      · exact Or.inl (Or.inr hm)
      · by_cases hkl : k = l
        · subst hkl
          exact Or.inl (Or.inl (Option.some.inj (hk.symm.trans hl)))
        · exact Or.inr ⟨k, hkl, hk⟩
    · rintro ((rfl | hm) | ⟨k, -, hk⟩)
      · exact Or.inr ⟨l, hl⟩
      · exact Or.inl hm
      · exact Or.inr ⟨k, hk⟩
  not_died k m hk hdied := by
    obtain ⟨hkl, hk⟩ := update_none_eq_some.mp hk
    obtain rfl | hdied := List.mem_cons.mp hdied
    · exact hkl (h.injective k l m hk hl)
    · exact h.not_died k m hk hdied
  injective k k' m hk hk' :=
    h.injective k k' m (update_none_eq_some.mp hk).2 (update_none_eq_some.mp hk').2
  nodup := List.nodup_cons.mpr ⟨h.not_died l n hl, h.nodup⟩

end Accounts

/-! ## Cells -/

variable {L T : Type*}

/-- An object: its number among all that were made, and its value. -/
structure Obj (T : Type*) where
  id : ℕ
  val : T

/-- The objects that are in their cells, how many have been made, and which have died. -/
structure Store (L T : Type*) where
  cells : L → Option (Obj T)
  born : ℕ
  died : List ℕ
  accounts : Accounts (fun l => (cells l).map Obj.id) born died

namespace Store

/-- No object has been made yet. -/
def empty : Store L T := ⟨fun _ => none, 0, [], accounts_empty⟩

/-- What the cell holds. -/
def val (st : Store L T) (l : L) : Option T := (st.cells l).map Obj.val

variable [DecidableEq L]

theorem map_update {β : Type*} (f : Obj T → β) (cells : L → Option (Obj T)) (l : L)
    (x : Option (Obj T)) : (fun k => (Function.update cells l x k).map f) =
      Function.update (fun k => (cells k).map f) l (x.map f) := by
  funext k
  by_cases hk : k = l
  · subst hk
    simp
  · simp [hk]

/-- A new object. The cell is empty before. -/
def construct (st : Store L T) (l : L) (v : T) : Option (Store L T) :=
  if h : st.cells l = none then
    some {
      cells := Function.update st.cells l (some ⟨st.born, v⟩)
      born := st.born + 1
      died := st.died
      accounts := by
        rw [map_update]
        exact st.accounts.construct (by rw [h, Option.map_none]) }
  else none

/-- The object of a cell dies. -/
def destroy (st : Store L T) (l : L) : Option (Store L T) :=
  match h : st.cells l with
  | none => none
  | some x =>
    some {
      cells := Function.update st.cells l none
      born := st.born
      died := x.id :: st.died
      accounts := by
        rw [map_update]
        exact st.accounts.destroy (by rw [h, Option.map_some]) }

/-- The cell still holds the same object. -/
def assign (st : Store L T) (l : L) (v : T) : Option (Store L T) :=
  match h : st.cells l with
  | none => none
  | some x =>
    some {
      cells := Function.update st.cells l (some ⟨x.id, v⟩)
      born := st.born
      died := st.died
      accounts := by
        have hid : (st.cells l).map Obj.id = some x.id := by rw [h, Option.map_some]
        rw [map_update, Option.map_some, ← hid, Function.update_eq_self]
        exact st.accounts }

variable {st : Store L T} {l : L}

theorem construct_val (h : st.val l = none) (v : T) :
    ∃ st', st.construct l v = some st' ∧ st'.val = Function.update st.val l (some v) :=
  ⟨_, dif_pos (Option.map_eq_none_iff.mp h), map_update Obj.val _ _ _⟩

theorem destroy_val (h : (st.val l).isSome) :
    ∃ st', st.destroy l = some st' ∧ st'.val = Function.update st.val l none := by
  obtain ⟨x, hx⟩ := Option.isSome_iff_exists.mp (Option.isSome_map.symm.trans h)
  rw [destroy]
  split
  next hnone => exact absurd (hnone.symm.trans hx) (Option.some_ne_none x).symm
  next => exact ⟨_, rfl, map_update Obj.val _ _ _⟩

theorem assign_val (h : (st.val l).isSome) (v : T) :
    ∃ st', st.assign l v = some st' ∧ st'.val = Function.update st.val l (some v) := by
  obtain ⟨x, hx⟩ := Option.isSome_iff_exists.mp (Option.isSome_map.symm.trans h)
  rw [assign]
  split
  next hnone => exact absurd (hnone.symm.trans hx) (Option.some_ne_none x).symm
  next => exact ⟨_, rfl, map_update Obj.val _ _ _⟩

end Store

/-! ## Programs -/

section Yields

variable {S α β : Type u} {O : Type*} {obs : S → O} {m : StateT S Option α}
  {f : α → StateT S Option β} {o o' o'' : O} {a : α} {b : β}

/-- From every state that looks like `o`, the program returns `a` in one that looks like `o'`. -/
def Yields (obs : S → O) (m : StateT S Option α) (o : O) (a : α) (o' : O) : Prop :=
  ∀ s, obs s = o → ∃ s', m s = some (a, s') ∧ obs s' = o'

theorem bind_apply {s s' : S} (h : m s = some (a, s')) : (m >>= f) s = f a s' := by
  change (m s).bind (fun x => f x.1 x.2) = _
  rw [h]
  rfl

theorem Yields.pure (a : α) (o : O) : Yields obs (pure a) o a o := fun s h => ⟨s, rfl, h⟩

theorem Yields.of_eq (hm : Yields obs m o a o') (h : o' = o'') : Yields obs m o a o'' := h ▸ hm

theorem Yields.bind (hm : Yields obs m o a o') (hf : Yields obs (f a) o' b o'') :
    Yields obs (m >>= f) o b o'' := by
  intro s h
  obtain ⟨s', hs', ho'⟩ := hm s h
  obtain ⟨s'', hs'', ho''⟩ := hf s' ho'
  exact ⟨s'', (bind_apply hs').trans hs'', ho''⟩

end Yields

end Lifetime
