import Mathlib

/-!
# Recursive mutexes

A mutex that its holder may lock again, up to a number of times that the system sets.

* `Mutex`: free, or held by a thread that has locked it again so many times;
* `lock`, `tryLock`, `unlock`: the operations, with their result codes; where `lock` blocks there
  is no result;
* **`lock_cases`**, **`tryLock_cases`**: all that an attempt can lead to.
-/

namespace Locks

/-- The mutex cannot be locked once more. -/
def EAGAIN : ℤ := 11

/-- Another thread holds the mutex. -/
def EBUSY : ℤ := 16

/-- A mutex is free, or a thread holds it and has locked it `again` times more. -/
inductive Mutex (τ : Type*) where
  | free
  | held (t : τ) (again : ℕ)
  deriving DecidableEq, Repr

namespace Mutex

variable {τ : Type*}

/-- The thread that holds the mutex. -/
def holder : Mutex τ → Option τ
  | free => none
  | held t _ => some t

/-- How often the mutex is locked. -/
def depth : Mutex τ → ℕ
  | free => 0
  | held _ again => again + 1

@[simp] theorem holder_free : (free : Mutex τ).holder = none := rfl

@[simp] theorem holder_held (t : τ) (again : ℕ) : (held t again).holder = some t := rfl

@[simp] theorem depth_free : (free : Mutex τ).depth = 0 := rfl

@[simp] theorem depth_held (t : τ) (again : ℕ) : (held t again).depth = again + 1 := rfl

theorem eq_held {m : Mutex τ} {t : τ} (h : m.holder = some t) : ∃ again, m = held t again := by
  cases m with
  | free => cases h
  | held u again =>
    cases h
    exact ⟨again, rfl⟩

/-- The holder locks once more, unless there are `limit` locks. -/
def lockAgain (limit : ℕ) (t : τ) (again : ℕ) : ℤ × Mutex τ :=
  if again + 1 < limit then (0, held t (again + 1)) else (EAGAIN, held t again)

variable [DecidableEq τ] (limit : ℕ) (t : τ)

/-- `pthread_mutex_lock`, which waits while another thread holds the mutex. -/
def lock : Mutex τ → Option (ℤ × Mutex τ)
  | free => some (0, held t 0)
  | held u again => if u = t then some (lockAgain limit t again) else none

/-- `pthread_mutex_trylock`, which returns in any case. -/
def tryLock : Mutex τ → ℤ × Mutex τ
  | free => (0, held t 0)
  | held u again => if u = t then lockAgain limit t again else (EBUSY, held u again)

/-- A thread that does not hold the mutex unlocks nothing. -/
def unlock : Mutex τ → Mutex τ
  | free => free
  | held u 0 => if u = t then free else held u 0
  | held u (again + 1) => held u (if u = t then again else again + 1)

variable {limit t} {m m' : Mutex τ} {r : ℤ}

omit [DecidableEq τ] in
theorem lockAgain_cases {again : ℕ} (h : lockAgain limit t again = (r, m')) :
    (again + 1 < limit ∧ r = 0 ∧ m' = held t (again + 1)) ∨
      (limit ≤ again + 1 ∧ r = EAGAIN ∧ m' = held t again) := by
  unfold lockAgain at h
  split_ifs at h with hlimit
  · cases h
    exact .inl ⟨hlimit, rfl, rfl⟩
  · cases h
    exact .inr ⟨not_lt.mp hlimit, rfl, rfl⟩

/-- **What `lock` leads to**: the mutex was free, or held by the thread that locks. -/
theorem lock_cases (h : m.lock limit t = some (r, m')) :
    (m = free ∧ r = 0 ∧ m' = held t 0) ∨
      (∃ again, m = held t again ∧ again + 1 < limit ∧ r = 0 ∧ m' = held t (again + 1)) ∨
      (∃ again, m = held t again ∧ limit ≤ again + 1 ∧ r = EAGAIN ∧ m' = m) := by
  cases m with
  | free =>
    cases h
    exact .inl ⟨rfl, rfl, rfl⟩
  | held u again =>
    rw [lock] at h
    split_ifs at h with hu
    subst hu
    obtain ⟨hlimit, hr, hm⟩ | ⟨hlimit, hr, hm⟩ := lockAgain_cases (Option.some.inj h)
    · exact .inr (.inl ⟨again, rfl, hlimit, hr, hm⟩)
    · exact .inr (.inr ⟨again, rfl, hlimit, hr, hm⟩)

/-- **What `tryLock` leads to**: as for `lock`, or nothing. -/
theorem tryLock_cases (h : m.tryLock limit t = (r, m')) :
    (m = free ∧ r = 0 ∧ m' = held t 0) ∨
      (∃ again, m = held t again ∧ again + 1 < limit ∧ r = 0 ∧ m' = held t (again + 1)) ∨
      (r ≠ 0 ∧ m' = m) := by
  cases m with
  | free =>
    cases h
    exact .inl ⟨rfl, rfl, rfl⟩
  | held u again =>
    rw [tryLock] at h
    split_ifs at h with hu
    · subst hu
      obtain ⟨hlimit, hr, hm⟩ | ⟨-, hr, hm⟩ := lockAgain_cases h
      · exact .inr (.inl ⟨again, rfl, hlimit, hr, hm⟩)
      · exact .inr (.inr ⟨by rw [hr]; decide, hm⟩)
    · cases h
      exact .inr (.inr ⟨by decide, rfl⟩)

@[simp] theorem unlock_held_zero : (held t 0).unlock t = free := if_pos rfl

@[simp] theorem unlock_held_succ (again : ℕ) : (held t (again + 1)).unlock t = held t again := by
  rw [unlock, if_pos rfl]

end Mutex

end Locks
