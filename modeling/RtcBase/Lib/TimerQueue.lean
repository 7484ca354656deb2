import RtcBase.Lib.Heap
import RtcBase.Lib.Run

/-!
# A queue with delayed messages

Messages wait in a ready list or, until they are due, in a bag. At most one is kept back by a
peek.

* `Queue`, `Call`, `Queue.call`: the three stores, and what each call does to them;
* **`trace_due`**: what a call returns was put in before, and is due;
* **`received_subperm`**: nothing is taken twice;
* `replicate_get`: how to take all that is due;
* **`received_clear`**: a clear filters what is received later, and changes nothing else.
-/

namespace TimerQueue

open Heap Run

/-- A message, and when it is due: `none` if it was ready from the start. -/
structure Item (M : Type*) where
  due : Option ℤ
  msg : M
  deriving DecidableEq

/-- A message in the bag, with the number of its acceptance. -/
structure Delayed (M : Type*) where
  due : ℤ
  number : ℕ
  msg : M
  deriving DecidableEq

/-- A delayed message as an item with its due time. -/
def Delayed.item {M : Type*} (d : Delayed M) : Item M := ⟨some d.due, d.msg⟩

/-- The item is due at `t`, if it has to wait at all. -/
def Item.DueBy {M : Type*} (t : ℤ) (i : Item M) : Prop := ∀ u ∈ i.due, u ≤ t

/-- An item that was peeked, the ready ones, and the delayed ones in the order of their calls. -/
structure Queue (M : Type*) where
  peek : Option (Item M) := none
  ready : List (Item M) := []
  delayed : List (Delayed M) := []
  accepted : ℕ := 0

/-- The operations, with the time where they look at it. -/
inductive Call (M : Type*) where
  | post (msg : M)
  | delay (due : ℤ) (msg : M)
  | peek (now : ℤ)
  | get (now : ℤ)
  | clear (drop : M → Bool)

variable {M : Type*} {skip drop : M → Bool} {q : Queue M} {t : ℤ}

/-- Messages leave the bag by the time they are due, then by acceptance. -/
def key (d : Delayed M) : ℤ ×ₗ ℕ := toLex (d.due, d.number)

/-- The message is due at `t`. -/
def isDue (t : ℤ) (d : Delayed M) : Bool := d.due ≤ t

namespace Queue

/-- What is due goes to the end of the ready list. -/
def advance (q : Queue M) (t : ℤ) : Queue M :=
  { q with
    ready := q.ready ++ (sort key (q.delayed.filter (isDue t))).map Delayed.item
    delayed := q.delayed.filter (!isDue t ·) }

/-- Takes the first ready message that is not to be skipped. -/
def take (skip : M → Bool) (q : Queue M) : Option (Item M) × Queue M :=
  let rest := q.ready.dropWhile (skip ·.msg)
  (rest.head?, { q with ready := rest.tail })

/-- All messages that `drop` picks are gone. -/
def clear (q : Queue M) (drop : M → Bool) : Queue M :=
  { q with
    peek := q.peek.filter (!drop ·.msg)
    ready := q.ready.filter (!drop ·.msg)
    delayed := q.delayed.filter (!drop ·.msg) }

/-- What an operation gives, and the queue behind it. -/
def call (skip : M → Bool) (q : Queue M) : Call M → Option (Item M) × Queue M
  | .post msg => (none, { q with ready := q.ready ++ [⟨none, msg⟩] })
  | .delay due msg =>
    (none, { q with
      delayed := q.delayed ++ [⟨due, q.accepted, msg⟩]
      accepted := q.accepted + 1 })
  | .peek t =>
    match q.peek with
    | some i => (some i, q)
    | none =>
      let r := (q.advance t).take skip
      (r.1, { r.2 with peek := r.1 })
  | .get t =>
    match q.peek with
    | some i => (some i, { q with peek := none })
    | none => (q.advance t).take skip
  | .clear drop => (none, q.clear drop)

end Queue

namespace Call

/-- What an operation adds. -/
def item : Call M → Option (Item M)
  | post msg => some ⟨none, msg⟩
  | delay due msg => some ⟨some due, msg⟩
  | _ => none

/-- The time at which an operation takes something. -/
def time : Call M → Option ℤ
  | peek t => some t
  | get t => some t
  | _ => none

/-- The operation takes an item away. -/
def isGet : Call M → Bool
  | get _ => true
  | _ => false

end Call

/-- What was put in. -/
def items (calls : List (Call M)) : List (Item M) := calls.filterMap Call.item

/-- What the `get` calls returned. -/
def received (skip : M → Bool) (q : Queue M) (calls : List (Call M)) : List (Item M) :=
  (answersTo (Queue.call skip) Call.isGet q calls).reduceOption

/-! ## What is in the queue -/

namespace Queue

/-- All items of the queue. -/
def stored (q : Queue M) : Multiset (Item M) :=
  ↑q.peek.toList + ↑q.ready + ↑(q.delayed.map Delayed.item)

theorem stored_advance (q : Queue M) (t : ℤ) : (q.advance t).stored = q.stored := by
  have hsort : ((sort key (q.delayed.filter (isDue t))).map Delayed.item).Perm
      ((q.delayed.filter (isDue t)).map Delayed.item) := (sort_perm key _).map _
  have hsplit : ((q.delayed.filter (isDue t)).map Delayed.item ++
      (q.delayed.filter (!isDue t ·)).map Delayed.item).Perm (q.delayed.map Delayed.item) := by
    rw [← List.map_append]
    exact (List.filter_append_perm _ _).map _
  simp only [stored, advance, ← Multiset.coe_add, add_assoc, add_right_inj]
  exact (Multiset.coe_add _ _).trans
    (Multiset.coe_eq_coe.mpr ((hsort.append_right _).trans hsplit))

theorem stored_take (skip : M → Bool) (q : Queue M) :
    ↑(q.take skip).1.toList + (q.take skip).2.stored ≤ q.stored := by
  have hrest : (q.ready.dropWhile (skip ·.msg)).head?.toList ++
      (q.ready.dropWhile (skip ·.msg)).tail = q.ready.dropWhile (skip ·.msg) := by
    cases q.ready.dropWhile (skip ·.msg) <;> rfl
  have hle : (↑(q.ready.dropWhile (skip ·.msg)) : Multiset (Item M)) ≤ ↑q.ready :=
    (List.dropWhile_sublist _).subperm
  simp only [stored, take]
  rw [← add_assoc, ← add_assoc, add_comm (_ : Multiset (Item M)) ↑q.peek.toList,
    add_assoc (↑q.peek.toList : Multiset (Item M)), Multiset.coe_add, hrest]
  gcongr

theorem take_peek (skip : M → Bool) (q : Queue M) : (q.take skip).2.peek = q.peek := rfl

theorem stored_clear (q : Queue M) (drop : M → Bool) : (q.clear drop).stored ≤ q.stored := by
  have hpeek : (q.peek.filter (!drop ·.msg)).toList.Sublist q.peek.toList := by
    cases q.peek with
    | none => exact List.Sublist.refl _
    | some i =>
      rw [Option.filter_some]
      split_ifs
      · exact List.Sublist.refl _
      · exact List.nil_sublist _
  simp only [stored, clear]
  gcongr
  · exact hpeek.subperm
  · exact List.filter_sublist.subperm
  · exact (List.filter_sublist.map _).subperm

/-- **One call** loses nothing but what it returns, and what it skips or clears. -/
theorem stored_call (skip : M → Bool) (q : Queue M) (a : Call M) :
    ↑(if a.isGet then (q.call skip a).1.toList else []) + (q.call skip a).2.stored ≤
      q.stored + ↑a.item.toList := by
  cases a with
  | post msg =>
    refine le_of_eq ?_
    simp only [call, Call.isGet, Call.item, stored, Bool.false_eq_true, if_false, Multiset.coe_nil,
      zero_add, Option.toList_some, ← Multiset.coe_add]
    abel
  | delay due msg =>
    refine le_of_eq ?_
    simp only [call, Call.isGet, Call.item, stored, Bool.false_eq_true, if_false, Multiset.coe_nil,
      zero_add, Option.toList_some, List.map_append, List.map_cons, List.map_nil,
      ← Multiset.coe_add]
    exact (add_assoc _ _ _).symm
  | peek t =>
    have htake := stored_take skip (q.advance t)
    rw [stored_advance] at htake
    cases hpeek : q.peek with
    | some i => simp [call, hpeek, Call.isGet, Call.item]
    | none =>
      simp only [call, hpeek, Call.isGet, Call.item, Bool.false_eq_true, if_false,
        Multiset.coe_nil, zero_add, Option.toList_none, add_zero]
      refine le_of_eq_of_le ?_ htake
      rw [stored, stored, take_peek, show (q.advance t).peek = none from hpeek,
        Option.toList_none, Multiset.coe_nil, zero_add, add_assoc]
  | get t =>
    have htake := stored_take skip (q.advance t)
    rw [stored_advance] at htake
    cases hpeek : q.peek with
    | some i => simp [call, hpeek, Call.isGet, Call.item, stored]
    | none => simpa [call, hpeek, Call.isGet, Call.item] using htake
  | clear drop => simpa [call, Call.isGet, Call.item] using stored_clear q drop

end Queue

/-- What `posted` and a clock that will show `times` allow the queue to hold. -/
structure Kept (posted : List (Item M)) (times : List ℤ) (q : Queue M) : Prop where
  stored : q.stored ≤ ↑posted
  due : ∀ u ∈ times, ∀ i ∈ q.peek.toList ++ q.ready, i.DueBy u

theorem kept_new (times : List ℤ) : Kept [] times ({} : Queue M) :=
  ⟨le_refl _, fun _ _ _ h => absurd h List.not_mem_nil⟩

theorem mem_advance_ready {i : Item M} (h : i ∈ (q.advance t).ready) :
    i ∈ q.ready ∨ i.DueBy t := by
  rcases List.mem_append.mp h with h | h
  · exact Or.inl h
  · obtain ⟨d, hd, rfl⟩ := List.mem_map.mp h
    have hdue := (List.mem_filter.mp ((sort_perm key _).mem_iff.mp hd)).2
    refine Or.inr fun u hu => ?_
    cases hu
    exact of_decide_eq_true hdue

theorem mem_take {i : Item M} (h : i ∈ (q.take skip).1 ∨ i ∈ (q.take skip).2.ready) :
    i ∈ q.ready := by
  have hsub := List.dropWhile_sublist (skip ·.msg) (l := q.ready)
  rcases h with h | h
  · exact hsub.subset (List.mem_of_mem_head? h)
  · exact hsub.subset (List.mem_of_mem_tail h)

theorem mem_stored_take {i : Item M} (h : i ∈ ((q.advance t).take skip).1) : i ∈ q.stored := by
  rw [← Queue.stored_advance q t]
  exact Multiset.mem_add.mpr (Or.inl (Multiset.mem_add.mpr
    (Or.inr (Multiset.mem_coe.mpr (mem_take (Or.inl h))))))

section Kept

variable {posted : List (Item M)} {times : List ℤ}

/-- What a peek or a get at `t` finds in the ready list is due at `t` and later. -/
theorem Kept.ready (hclock : (t :: times).Pairwise (· ≤ ·)) (h : Kept posted (t :: times) q)
    {i : Item M} (hi : i ∈ (q.advance t).ready) : ∀ u ∈ t :: times, i.DueBy u := by
  intro u hu
  rcases mem_advance_ready hi with hi | hi
  · exact h.due u hu i (List.mem_append_right _ hi)
  · intro v hv
    refine (hi v hv).trans ?_
    rcases List.mem_cons.mp hu with rfl | hu
    · exact le_refl _
    · exact (List.pairwise_cons.mp hclock).1 u hu

theorem Kept.peek (h : Kept posted (t :: times) q) {i : Item M} (hi : i ∈ q.peek) :
    i ∈ posted ∧ i.DueBy t := by
  constructor
  · refine Multiset.mem_coe.mp (Multiset.mem_of_le h.stored ?_)
    exact Multiset.mem_add.mpr (Or.inl (Multiset.mem_add.mpr
      (Or.inl (Multiset.mem_coe.mpr (Option.mem_toList.mpr hi)))))
  · exact h.due t List.mem_cons_self i (List.mem_append_left _ (Option.mem_toList.mpr hi))

theorem Kept.take (hclock : (t :: times).Pairwise (· ≤ ·)) (h : Kept posted (t :: times) q)
    {i : Item M} (hi : i ∈ ((q.advance t).take skip).1) : i ∈ posted ∧ i.DueBy t :=
  ⟨Multiset.mem_coe.mp (Multiset.mem_of_le h.stored (mem_stored_take hi)),
    h.ready hclock (mem_take (Or.inl hi)) t List.mem_cons_self⟩

/-- **One call**: the answer was put in before and is due, and the queue keeps to what it may
hold. -/
theorem kept_call (skip : M → Bool) {a : Call M}
    (hclock : (a.time.toList ++ times).Pairwise (· ≤ ·))
    (h : Kept posted (a.time.toList ++ times) q) :
    (∀ i ∈ (q.call skip a).1, i ∈ posted ∧ ∀ u ∈ a.time, i.DueBy u) ∧
      Kept (posted ++ a.item.toList) times (q.call skip a).2 := by
  have hstored : (q.call skip a).2.stored ≤ ↑(posted ++ a.item.toList) := by
    rw [← Multiset.coe_add]
    refine le_trans ?_ (add_le_add_left h.stored _)
    exact (Multiset.le_add_left _ _).trans (q.stored_call skip a)
  have hlater : ∀ u ∈ times, ∀ i ∈ q.peek.toList ++ q.ready, i.DueBy u := fun u hu =>
    h.due u (List.mem_append_right _ hu)
  have hnow : ∀ {t : ℤ} {i : Item M}, a.time = some t → i ∈ posted ∧ i.DueBy t →
      i ∈ posted ∧ ∀ u ∈ a.time, i.DueBy u := by
    intro t i ht hi
    exact ⟨hi.1, fun u hu => Option.some.inj (ht.symm.trans hu) ▸ hi.2⟩
  cases a with
  | post msg =>
    refine ⟨fun i hi => absurd hi (Option.not_mem_none i), hstored, ?_⟩
    intro u hu i hi
    rw [Queue.call, ← List.append_assoc] at hi
    rcases List.mem_append.mp hi with hi | hi
    · exact hlater u hu i hi
    · rw [List.mem_singleton.mp hi]
      exact fun v hv => absurd hv (Option.not_mem_none v)
  | delay due msg =>
    exact ⟨fun i hi => absurd hi (Option.not_mem_none i), hstored, hlater⟩
  | peek t =>
    cases hq : q.peek with
    | some i =>
      simp only [Queue.call, hq] at hstored ⊢
      refine ⟨fun j hj => hnow rfl (h.peek (hq.trans hj)), hstored, ?_⟩
      simpa only [hq] using hlater
    | none =>
      simp only [Queue.call, hq] at hstored ⊢
      refine ⟨fun j hj => hnow rfl (h.take hclock hj), hstored, ?_⟩
      intro u hu i hi
      have hi' := (List.mem_append.mp hi).imp_left Option.mem_toList.mp
      exact h.ready hclock (mem_take hi') u (List.mem_cons_of_mem t hu)
  | get t =>
    cases hq : q.peek with
    | some i =>
      simp only [Queue.call, hq] at hstored ⊢
      refine ⟨fun j hj => hnow rfl (h.peek (hq.trans hj)), hstored, ?_⟩
      exact fun u hu j hj => hlater u hu j (List.mem_append_right _ hj)
    | none =>
      simp only [Queue.call, hq] at hstored ⊢
      refine ⟨fun j hj => hnow rfl (h.take hclock hj), hstored, ?_⟩
      intro u hu i hi
      have hi' : i ∈ ((q.advance t).take skip).2.ready := by
        simpa [Queue.take_peek, Queue.advance, hq] using hi
      exact h.ready hclock (mem_take (Or.inr hi')) u (List.mem_cons_of_mem t hu)
  | clear drop =>
    refine ⟨fun i hi => absurd hi (Option.not_mem_none i), hstored, ?_⟩
    intro u hu i hi
    refine hlater u hu i ?_
    rcases List.mem_append.mp hi with hi | hi
    · refine List.mem_append_left _ (Option.mem_toList.mpr ?_)
      exact (Option.mem_filter_iff.mp (Option.mem_toList.mp hi)).1
    · exact List.mem_append_right _ (List.mem_filter.mp hi).1

end Kept

theorem times_cons (a : Call M) (calls : List (Call M)) :
    (a :: calls).filterMap Call.time = a.time.toList ++ calls.filterMap Call.time := by
  cases h : a.time <;> simp [h]

theorem items_cons (a : Call M) (calls : List (Call M)) :
    items (a :: calls) = a.item.toList ++ items calls := by
  cases h : a.item <;> simp [items, h]

theorem received_cons (a : Call M) (calls : List (Call M)) : received skip q (a :: calls) =
    (if a.isGet then (q.call skip a).1.toList else []) ++
      received skip (q.call skip a).2 calls := by
  rw [received, answersTo_cons, received]
  cases a.isGet <;> cases (q.call skip a).1 <;> simp

/-- **A returned message was put in before, and is due.** -/
theorem trace_due {posted : List (Item M)} {calls : List (Call M)}
    (h : Kept posted (calls.filterMap Call.time) q)
    (hclock : (calls.filterMap Call.time).Pairwise (· ≤ ·)) :
    ∀ (k : ℕ) a i, calls[k]? = some a → (trace (Queue.call skip) q calls).1[k]? = some (some i) →
      i ∈ posted ++ items (calls.take k) ∧ ∀ u ∈ a.time, i.DueBy u := by
  induction calls generalizing q posted with
  | nil =>
    intro k a i ha
    simp at ha
  | cons b calls ih =>
    rw [times_cons] at h hclock
    obtain ⟨hans, hkept⟩ := kept_call skip hclock h
    intro k a i ha hi
    cases k with
    | zero =>
      simp only [List.getElem?_cons_zero, Option.some.injEq] at ha
      subst ha
      simp only [trace_cons_fst, List.getElem?_cons_zero, Option.some.injEq] at hi
      have := hans i hi
      exact ⟨List.mem_append_left _ this.1, this.2⟩
    | succ k =>
      have := ih hkept (List.pairwise_append.mp hclock).2.1 k a i ha hi
      rwa [List.append_assoc, ← items_cons] at this

theorem received_stored (skip : M → Bool) (q : Queue M) (calls : List (Call M)) :
    ↑(received skip q calls) + (trace (Queue.call skip) q calls).2.stored ≤
      q.stored + ↑(items calls) := by
  induction calls generalizing q with
  | nil => exact le_of_eq (add_comm _ _)
  | cons a calls ih =>
    have hcall := q.stored_call skip a
    rw [received_cons, items_cons, ← Multiset.coe_add, ← Multiset.coe_add, add_assoc,
      ← add_assoc q.stored]
    refine le_trans ?_ (add_le_add_left hcall _)
    rw [add_assoc]
    exact add_le_add_right (ih _) _

/-- **Nothing is taken twice.** -/
theorem received_subperm (calls : List (Call M)) :
    (received skip ({} : Queue M) calls).Subperm (items calls) := by
  have h := received_stored skip ({} : Queue M) calls
  have h₀ : (({} : Queue M).stored) = 0 := rfl
  rw [h₀, zero_add] at h
  exact Multiset.coe_le.mp ((Multiset.le_add_right _ _).trans h)

/-! ## Clearing -/

/-- No two messages in the bag have one number. -/
structure Numbered (q : Queue M) : Prop where
  nodup : (q.delayed.map Delayed.number).Nodup
  lt : ∀ d ∈ q.delayed, d.number < q.accepted

namespace Numbered

theorem of_sublist {q' : Queue M} (h : Numbered q) (hsub : q'.delayed.Sublist q.delayed)
    (hacc : q'.accepted = q.accepted) : Numbered q' :=
  ⟨h.nodup.sublist (hsub.map _), fun d hd => hacc ▸ h.lt d (hsub.subset hd)⟩

theorem key_inj (h : Numbered q) : ∀ a ∈ q.delayed, ∀ b ∈ q.delayed, key a = key b → a = b := by
  intro a ha b hb hkey
  have hnum : a.number = b.number := congrArg (fun k => (ofLex k).2) hkey
  exact List.inj_on_of_nodup_map h.nodup ha hb hnum

theorem call (h : Numbered q) (skip : M → Bool) (a : Call M) : Numbered (q.call skip a).2 := by
  have hadvance : ∀ t, Numbered (q.advance t) := fun t => h.of_sublist List.filter_sublist rfl
  cases a with
  | post msg => exact ⟨h.nodup, h.lt⟩
  | delay due msg =>
    constructor
    · simp only [Queue.call, List.map_append, List.map_cons, List.map_nil]
      refine List.nodup_append.mpr ⟨h.nodup, List.nodup_singleton _, ?_⟩
      intro n hn m hm hnm
      obtain ⟨d, hd, rfl⟩ := List.mem_map.mp hn
      rw [List.mem_singleton.mp hm] at hnm
      exact absurd hnm (h.lt d hd).ne
    · intro d hd
      rcases List.mem_append.mp hd with hd | hd
      · exact (h.lt d hd).trans (Nat.lt_succ_self _)
      · rw [List.mem_singleton.mp hd]
        exact Nat.lt_succ_self _
  | peek t =>
    cases hq : q.peek with
    | some i => simpa only [Queue.call, hq] using h
    | none =>
      simp only [Queue.call, hq]
      exact (hadvance t).of_sublist (List.Sublist.refl _) rfl
  | get t =>
    cases hq : q.peek with
    | some i =>
      simp only [Queue.call, hq]
      exact h.of_sublist (List.Sublist.refl _) rfl
    | none =>
      simp only [Queue.call, hq]
      exact (hadvance t).of_sublist (List.Sublist.refl _) rfl
  | clear drop => exact h.of_sublist List.filter_sublist rfl

end Numbered

/-- All that can be taken at time `t`, in the order in which it is. -/
def Queue.deliverable (skip : M → Bool) (q : Queue M) (t : ℤ) : List (Item M) :=
  q.peek.toList ++ (q.advance t).ready.filter (!skip ·.msg)

/-- The queue with nothing more to take at time `t`. -/
def Queue.drained (q : Queue M) (t : ℤ) : Queue M :=
  { q with peek := none, ready := [], delayed := q.delayed.filter (!isDue t ·) }

/-- `n` gets at each of the times. -/
def polls (times : List ℤ) (n : ℕ) : List (Call M) :=
  times.flatMap fun t => List.replicate n (.get t)

theorem filter_dropWhile {α : Type*} (p : α → Bool) (l : List α) :
    (l.dropWhile p).filter (!p ·) = l.filter (!p ·) := by
  induction l with
  | nil => rfl
  | cons a l ih => cases h : p a <;> simp [h, ih]

theorem deliverable_drained (skip : M → Bool) (q : Queue M) (t : ℤ) :
    (q.drained t).deliverable skip t = [] := by
  simp [Queue.deliverable, Queue.drained, Queue.advance, sort]

theorem drained_drained (q : Queue M) (t : ℤ) : (q.drained t).drained t = q.drained t := by
  simp [Queue.drained]

theorem call_get (skip : M → Bool) (q : Queue M) (t : ℤ) :
    q.deliverable skip t =
        (q.call skip (.get t)).1.toList ++ (q.call skip (.get t)).2.deliverable skip t ∧
      (q.call skip (.get t)).2.drained t = q.drained t ∧
      ((q.call skip (.get t)).1 = none → (q.call skip (.get t)).2 = q.drained t) := by
  cases hq : q.peek with
  | some i => simp [Queue.call, hq, Queue.deliverable, Queue.drained, Queue.advance]
  | none =>
    have hfilter := filter_dropWhile (fun i : Item M => skip i.msg) (q.advance t).ready
    have hdel : q.deliverable skip t = (q.advance t).ready.filter (!skip ·.msg) := by
      rw [Queue.deliverable, hq, Option.toList_none, List.nil_append]
    rw [hdel, ← hfilter]
    have hpeek : (q.advance t).peek = none := hq
    cases hrest : (q.advance t).ready.dropWhile (skip ·.msg) with
    | nil =>
      have hcall : q.call skip (.get t) = (none, q.drained t) := by
        simp only [Queue.call, hq, Queue.take, hrest, hpeek]
        rfl
      rw [hcall]
      exact ⟨(deliverable_drained skip q t).symm, drained_drained q t, fun _ => rfl⟩
    | cons i rest =>
      have hcall : q.call skip (.get t) = (some i, { q.advance t with ready := rest }) := by
        simp only [Queue.call, hq, Queue.take, hrest]
        rfl
      have hi : skip i.msg = false := by
        have := List.head?_dropWhile_not (fun i : Item M => skip i.msg) (q.advance t).ready
        simpa [hrest] using this
      rw [hcall]
      refine ⟨?_, ?_, fun h => absurd h (Option.some_ne_none i)⟩
      · simp [Queue.deliverable, Queue.advance, hq, hi, sort]
      · simp [Queue.drained, Queue.advance]

/-- More gets than there is to take: all of it is received, and the queue is drained. -/
theorem replicate_get (skip : M → Bool) (n : ℕ) (hn : (q.deliverable skip t).length < n) :
    received skip q (List.replicate n (.get t)) = q.deliverable skip t ∧
      (trace (Queue.call skip) q (List.replicate n (.get t))).2 = q.drained t := by
  induction n generalizing q with
  | zero => omega
  | succ n ih =>
    obtain ⟨hdel, hdrain, hnone⟩ := call_get skip q t
    rw [List.replicate_succ, received_cons, trace_cons_snd]
    simp only [Call.isGet, if_true]
    rw [hdel] at hn ⊢
    cases hans : (q.call skip (.get t)).1 with
    | some i =>
      rw [hans, Option.toList_some, List.singleton_append, List.length_cons] at hn
      obtain ⟨h₁, h₂⟩ := ih (q := (q.call skip (.get t)).2) (by omega)
      exact ⟨by rw [h₁], h₂.trans hdrain⟩
    | none =>
      rw [hnone hans, deliverable_drained, List.append_nil]
      rcases Nat.eq_zero_or_pos n with rfl | hpos
      · exact ⟨rfl, rfl⟩
      · obtain ⟨h₁, h₂⟩ := ih (q := q.drained t) (by rw [deliverable_drained]; exact hpos)
        rw [h₁, deliverable_drained]
        exact ⟨rfl, h₂.trans (drained_drained q t)⟩

theorem received_append (calls calls' : List (Call M)) : received skip q (calls ++ calls') =
    received skip q calls ++ received skip (trace (Queue.call skip) q calls).2 calls' := by
  rw [received, answersTo_append, List.reduceOption_append, received, received]

theorem length_deliverable (skip : M → Bool) (q : Queue M) (t : ℤ) :
    (q.deliverable skip t).length ≤ q.stored.card := by
  have hready : ((q.advance t).ready.filter (!skip ·.msg)).length ≤ (q.advance t).ready.length :=
    List.length_filter_le _ _
  have hpeek : (q.advance t).peek = q.peek := rfl
  rw [← q.stored_advance t, Queue.deliverable, List.length_append, Queue.stored, hpeek]
  simp only [Multiset.card_add, Multiset.coe_card]
  omega

theorem filter_filter_comm {α : Type*} (p p' : α → Bool) (l : List α) :
    (l.filter p).filter p' = (l.filter p').filter p := by
  simp only [List.filter_filter, Bool.and_comm]

theorem map_item_filter (drop : M → Bool) (l : List (Delayed M)) :
    (l.map Delayed.item).filter (!drop ·.msg) = (l.filter (!drop ·.msg)).map Delayed.item :=
  List.filter_map

theorem advance_clear (h : Numbered q) (drop : M → Bool) (t : ℤ) :
    (q.clear drop).advance t = (q.advance t).clear drop := by
  have hsort : sort key ((q.delayed.filter (!drop ·.msg)).filter (isDue t)) =
      (sort key (q.delayed.filter (isDue t))).filter (!drop ·.msg) := by
    rw [filter_filter_comm, sort_filter]
    intro a ha b hb
    exact h.key_inj a (List.mem_filter.mp ha).1 b (List.mem_filter.mp hb).1
  simp only [Queue.clear, Queue.advance, List.filter_append, map_item_filter, hsort,
    filter_filter_comm (!drop ·.msg) (!isDue t ·)]

theorem deliverable_clear (h : Numbered q) (drop : M → Bool) (t : ℤ) :
    (q.clear drop).deliverable skip t = (q.deliverable skip t).filter (!drop ·.msg) := by
  have hpeek : (q.peek.filter (!drop ·.msg)).toList = q.peek.toList.filter (!drop ·.msg) := by
    cases q.peek with
    | none => rfl
    | some i => cases hi : drop i.msg <;> simp [Option.filter_some, hi]
  rw [Queue.deliverable, advance_clear h, Queue.deliverable, List.filter_append,
    filter_filter_comm, ← hpeek]
  rfl

theorem drained_clear (q : Queue M) (drop : M → Bool) (t : ℤ) :
    (q.clear drop).drained t = (q.drained t).clear drop := by
  simp only [Queue.drained, Queue.clear, filter_filter_comm (!drop ·.msg) (!isDue t ·)]
  rfl

/-- **A clear filters what is received later**, and changes nothing else. -/
theorem received_clear (h : Numbered q) (drop : M → Bool) (times : List ℤ) {n : ℕ}
    (hn : q.stored.card < n) : received skip (q.clear drop) (polls times n) =
      (received skip q (polls times n)).filter (!drop ·.msg) := by
  induction times generalizing q with
  | nil => rfl
  | cons t times ih =>
    have hlen := length_deliverable skip q t
    obtain ⟨h₁, h₂⟩ := replicate_get skip n (hlen.trans_lt hn)
    have hlen' := length_deliverable skip (q.clear drop) t
    have hcard := Multiset.card_le_card (q.stored_clear drop)
    obtain ⟨h₃, h₄⟩ := replicate_get skip n ((hlen'.trans hcard).trans_lt hn)
    have hstored := received_stored skip q (List.replicate n (.get t))
    have hitems : items (List.replicate n (Call.get t : Call M)) = [] := by
      simp [items, List.filterMap_replicate, Call.item]
    rw [h₂, hitems, Multiset.coe_nil, add_zero] at hstored
    have hdrained : (q.drained t).stored.card < n :=
      (Multiset.card_le_card ((Multiset.le_add_left _ _).trans hstored)).trans_lt hn
    have hnum : Numbered (q.drained t) := h.of_sublist List.filter_sublist rfl
    rw [polls, List.flatMap_cons, ← polls, received_append, received_append, h₁, h₂, h₃, h₄,
      deliverable_clear h, drained_clear, ih hnum hdrained, List.filter_append]

end TimerQueue
