import Mathlib

/-!
# A bounded queue and its histories

The sequential queue of at most `N` elements, and the lists of events that it allows.

* `Allowed`, `next`: one event; `Legal`, `replay`: a history;
* `legal_removed`: what comes out is what went in, without what was dropped, in order;
* `legal_promise`: a size that was seen is a promise for the removals that follow.
-/

namespace Fifo

variable {T : Type*}

/-- What a call of the queue did. -/
inductive Event (T : Type*) where
  | insert (x : T)
  | full
  | remove (x : T)
  | empty
  | clear (n : ℕ)
  | size (n : ℕ)
  deriving DecidableEq, Repr

/-- The events that the queue with contents `q` allows. -/
def Allowed (N : ℕ) (q : List T) : Event T → Prop
  | .insert _ => q.length < N
  | .full => q.length = N
  | .remove x => q.head? = some x
  | .empty => q = []
  | .clear n => q.length = n
  | .size n => q.length = n

/-- The queue after an event. -/
def next (q : List T) : Event T → List T
  | .insert x => q ++ [x]
  | .remove _ => q.tail
  | .clear _ => []
  | _ => q

/-- The queue after a history. -/
def replay : List T → List (Event T) → List T
  | q, [] => q
  | q, e :: h => replay (next q e) h

/-- Every event of the history is allowed where it happens. -/
def Legal (N : ℕ) : List T → List (Event T) → Prop
  | _, [] => True
  | q, e :: h => Allowed N q e ∧ Legal N (next q e) h

/-- The values of the insertions. -/
def inserted (h : List (Event T)) : List T :=
  h.filterMap fun
    | .insert x => some x
    | _ => none

/-- The values of the removals. -/
def removed (h : List (Event T)) : List T :=
  h.filterMap fun
    | .remove x => some x
    | _ => none

/-- What became of the elements, from the first one on: removed or dropped. -/
def fates (h : List (Event T)) : List Bool :=
  h.flatMap fun
    | .remove _ => [true]
    | .clear n => List.replicate n false
    | _ => []

/-- The elements of `l` whose fate is to be removed. -/
def keep (l : List T) (f : List Bool) : List T :=
  (l.zip f).filterMap fun p => if p.2 then some p.1 else none

section Lists

variable (h h' : List (Event T)) (e : Event T) (q : List T)

theorem replay_append : replay q (h ++ h') = replay (replay q h) h' := by
  induction h generalizing q with
  | nil => rfl
  | cons e h ih => exact ih (next q e)

theorem legal_append {N : ℕ} :
    Legal N q (h ++ h') ↔ Legal N q h ∧ Legal N (replay q h) h' := by
  induction h generalizing q with
  | nil => simp [Legal, replay]
  | cons e h ih => simp [Legal, replay, ih, and_assoc]

theorem replay_snoc : replay q (h ++ [e]) = next (replay q h) e := replay_append h [e] q

theorem legal_snoc {N : ℕ} :
    Legal N q (h ++ [e]) ↔ Legal N q h ∧ Allowed N (replay q h) e := by
  simp [legal_append, Legal]

@[simp] theorem inserted_append : inserted (h ++ h') = inserted h ++ inserted h' :=
  List.filterMap_append

@[simp] theorem removed_append : removed (h ++ h') = removed h ++ removed h' :=
  List.filterMap_append

@[simp] theorem fates_append : fates (h ++ h') = fates h ++ fates h' := List.flatMap_append

end Lists

theorem keep_append {l : List T} {f : List Bool} (l' : List T) (f' : List Bool)
    (h : l.length = f.length) :
    keep (l ++ l') (f ++ f') = keep l f ++ keep l' f' := by
  simp only [keep, List.zip_append h, List.filterMap_append]

theorem keep_append_left {l : List T} (l' : List T) {f : List Bool} (h : f.length ≤ l.length) :
    keep (l ++ l') f = keep l f := by
  have hsplit := List.take_append_drop f.length l
  have hlen : (l.take f.length).length = f.length := by simp [h]
  have h₁ := keep_append (l.drop f.length ++ l') [] hlen
  have h₂ := keep_append (l.drop f.length) [] hlen
  rw [← List.append_assoc, hsplit, List.append_nil] at h₁
  rw [hsplit, List.append_nil] at h₂
  rw [h₁, h₂]
  simp [keep]

theorem keep_replicate_false (l : List T) (n : ℕ) : keep l (List.replicate n false) = [] := by
  refine List.filterMap_eq_nil_iff.mpr fun p hp => ?_
  have : p.2 = false := List.eq_of_mem_replicate (List.of_mem_zip hp).2
  simp [this]

/-- **First in, first out.** The insertions of a history are the elements that were removed or
dropped, each with its fate, and then the contents. -/
theorem legal_removed {N : ℕ} {q : List T} (h : List (Event T)) (hl : Legal N q h) :
    ∃ gone, q ++ inserted h = gone ++ replay q h ∧ gone.length = (fates h).length ∧
      removed h = keep gone (fates h) := by
  induction h generalizing q with
  | nil => exact ⟨[], by simp [inserted, replay], rfl, rfl⟩
  | cons e h ih =>
    obtain ⟨gone, h₁, h₂, h₃⟩ := ih hl.2
    have ha := hl.1
    cases e with
    | insert x => exact ⟨gone, by simpa [next, inserted, replay] using h₁, h₂, h₃⟩
    | remove x =>
      obtain ⟨q', rfl⟩ : ∃ q', q = x :: q' := by
        cases q with
        | nil => simp [Allowed] at ha
        | cons y q' => exact ⟨q', by simp_all [Allowed]⟩
      refine ⟨x :: gone, congrArg (x :: ·) h₁, congrArg (· + 1) h₂, ?_⟩
      exact congrArg (x :: ·) h₃
    | clear n =>
      have hn : q.length = n := ha
      refine ⟨q ++ gone, ?_, ?_, ?_⟩
      · simpa [next, inserted, replay] using h₁
      · simp [fates, hn, h₂]
      · change removed h = keep (q ++ gone) (List.replicate n false ++ fates h)
        rw [keep_append _ _ (by simp [hn]), keep_replicate_false, h₃, List.nil_append]
    | full => exact ⟨gone, h₁, h₂, h₃⟩
    | empty => exact ⟨gone, h₁, h₂, h₃⟩
    | size n => exact ⟨gone, h₁, h₂, h₃⟩

/-- The contents shrink by removals and by clearing only. -/
theorem legal_shrink {N : ℕ} {q : List T} (h : List (Event T)) (hl : Legal N q h)
    (hc : ∀ n, Event.clear n ∉ h) : q.length ≤ (replay q h).length + (removed h).length := by
  induction h generalizing q with
  | nil => simp [replay]
  | cons e h ih =>
    have hrest := ih hl.2 fun n hn => hc n (List.mem_cons_of_mem _ hn)
    cases e with
    | insert x =>
      simp only [next, List.length_append, List.length_singleton] at hrest
      change _ ≤ (replay (q ++ [x]) h).length + (removed h).length
      omega
    | remove x =>
      simp only [next, List.length_tail] at hrest
      change _ ≤ (replay q.tail h).length + ((removed h).length + 1)
      omega
    | clear n => exact absurd List.mem_cons_self (hc n)
    | full => exact hrest
    | empty => exact hrest
    | size n => exact hrest

/-- **A size is a promise.** Between a size `k` and a removal that finds nothing there are `k`
removals, or the queue was cleared. -/
theorem legal_promise {N k : ℕ} {q : List T} {h h' : List (Event T)}
    (hl : Legal N q (h ++ Event.size k :: h' ++ [Event.empty])) (hc : ∀ n, Event.clear n ∉ h') :
    k ≤ (removed h').length := by
  rw [List.append_assoc, legal_append] at hl
  obtain ⟨hk, hl⟩ := hl.2
  obtain ⟨hl, he, -⟩ := (legal_append h' [Event.empty] _).mp hl
  have hsize : (replay q h).length = k := hk
  have hempty : replay (replay q h) h' = [] := he
  have := legal_shrink h' hl hc
  simp only [next, hempty, List.length_nil] at this
  omega

/-! ## Histories of one party -/

section Filter

variable (p : Event T → Bool) (h : List (Event T))

theorem inserted_filter (hp : ∀ x, p (.insert x) = true) :
    inserted (h.filter p) = inserted h := by
  induction h with
  | nil => rfl
  | cons e h ih =>
    cases e <;> simp_all [inserted, List.filter_cons] <;> split_ifs <;> simp_all

theorem removed_filter (hp : ∀ x, p (.remove x) = true) : removed (h.filter p) = removed h := by
  induction h with
  | nil => rfl
  | cons e h ih =>
    cases e <;> simp_all [removed, List.filter_cons] <;> split_ifs <;> simp_all

theorem fates_filter (h₁ : ∀ x, p (.remove x) = true) (h₂ : ∀ n, p (.clear n) = true) :
    fates (h.filter p) = fates h := by
  induction h with
  | nil => rfl
  | cons e h ih =>
    cases e <;> simp_all [fates, List.filter_cons] <;> split_ifs <;> simp_all

end Filter

/-- The promise of a size, read off the events of one party alone. -/
theorem legal_promise_filter {N k : ℕ} {q : List T} {p : Event T → Bool}
    {h l₁ l₂ l₃ : List (Event T)}
    (hl : Legal N q h) (hf : h.filter p = l₁ ++ Event.size k :: (l₂ ++ Event.empty :: l₃))
    (hr : ∀ x, p (.remove x) = true) (hc : ∀ n, p (.clear n) = true)
    (hn : ∀ n, Event.clear n ∉ l₂) : k ≤ (removed l₂).length := by
  obtain ⟨h₁, h', rfl, -, hf⟩ := List.filter_eq_append_iff.mp hf
  obtain ⟨g₁, h', rfl, -, -, hf⟩ := List.filter_eq_cons_iff.mp hf
  obtain ⟨h₂, h', rfl, h₂f, hf⟩ := List.filter_eq_append_iff.mp hf
  obtain ⟨g₂, h', rfl, hg₂, -, -⟩ := List.filter_eq_cons_iff.mp hf
  have hshape : h₁ ++ (g₁ ++ Event.size k :: (h₂ ++ (g₂ ++ Event.empty :: h'))) =
      ((h₁ ++ g₁) ++ Event.size k :: (h₂ ++ g₂) ++ [Event.empty]) ++ h' := by simp
  rw [hshape] at hl
  have hg : g₂.filter p = [] := List.filter_eq_nil_iff.mpr fun e he => hg₂ e he
  have hlen : removed (h₂ ++ g₂) = removed l₂ := by
    rw [← removed_filter p _ hr, List.filter_append, hg, List.append_nil, h₂f]
  rw [← hlen]
  refine legal_promise ((legal_append _ _ _).mp hl).1 fun n hmem => ?_
  have hmem' : Event.clear n ∈ (h₂ ++ g₂).filter p := List.mem_filter.mpr ⟨hmem, hc n⟩
  rw [List.filter_append, hg, List.append_nil, h₂f] at hmem'
  exact hn n hmem'

end Fifo
