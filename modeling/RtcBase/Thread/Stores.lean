import RtcBase.Thread.Refine

/-!
# What the stores of a thread hold

* `stores`, `size`: the messages in the three stores, and their number;
* **`stores_push`**, **`stores_pushDelayed`**, **`stores_getLocked`**, **`stores_clearInternal`**,
  `stores_keepPeek`, `stores_getPeek`: what each locked section puts in and takes out;
* `mem_stores_post`, `mem_stores_doDelayPost`, `mem_stores_getLocked`, `mem_stores_clearInternal`:
  the same for one message.
-/

namespace RtcBase

open Heap

namespace Thread

variable {Handler Data : Type} {t : Thread Handler Data}

/-- What is in the three stores of a thread. -/
def stores (t : Thread Handler Data) : List (Message Handler Data) :=
  (if t.fPeekKeep_ then [t.msgPeek_] else []) ++ t.messages_ ++
    t.delayed_messages_.map DelayedMessage.msg_

/-- `size`: what is stored. -/
def size (t : Thread Handler Data) : ℕ :=
  t.messages_.length + t.delayed_messages_.length + if t.fPeekKeep_ then 1 else 0

theorem size_eq (t : Thread Handler Data) : t.size = t.stores.length := by
  unfold size stores
  cases t.fPeekKeep_ <;> simp [Nat.add_comm]

theorem mem_stores {msg : Message Handler Data} : msg ∈ t.stores ↔
    (t.fPeekKeep_ = true ∧ msg = t.msgPeek_) ∨ msg ∈ t.messages_ ∨
      ∃ d ∈ t.delayed_messages_, d.msg_ = msg := by
  cases hk : t.fPeekKeep_ <;> simp [stores, hk]

/-! ## The peek slot -/

theorem stores_keepPeek (h : t.fPeekKeep_ = false) (msg : Message Handler Data) :
    { t with msgPeek_ := msg, fPeekKeep_ := true }.stores = msg :: t.stores := by
  simp [stores, h]

theorem stores_getPeek (h : t.fPeekKeep_ = true) :
    t.stores = t.msgPeek_ :: { t with fPeekKeep_ := false }.stores := by
  simp [stores, h]

/-! ## Posting -/

theorem stores_push (t : Thread Handler Data) (msg : Message Handler Data) :
    (t.push msg).stores.Perm (msg :: t.stores) := by
  simp only [stores, push, List.append_assoc, List.singleton_append]
  rw [← List.append_assoc, ← List.append_assoc]
  exact List.perm_middle

section Heap

variable (heap : StdHeap (@DelayedMessage.lt Handler Data))
  (hheap : IsHeap DelayedMessage.lt t.delayed_messages_)

include hheap in
theorem stores_pushDelayed (delay_ms run_at_ms : ℤ) (msg : Message Handler Data) :
    (t.pushDelayed heap delay_ms run_at_ms msg).stores.Perm (msg :: t.stores) := by
  have hperm := (heap.pushHeap_perm t.delayed_messages_
    ⟨delay_ms, run_at_ms, t.delayed_next_num_, msg⟩ hheap).map DelayedMessage.msg_
  rw [List.map_append, List.map_singleton] at hperm
  refine ((List.Perm.append_left _ hperm)).trans ?_
  rw [← List.append_assoc]
  exact List.perm_append_singleton msg _

theorem isHeap_post (hheap : IsHeap DelayedMessage.lt t.delayed_messages_)
    (msg : Message Handler Data) : IsHeap DelayedMessage.lt (t.post msg).delayed_messages_ := by
  rw [post]
  split_ifs <;> exact hheap

include hheap in
theorem isHeap_doDelayPost (delay_ms run_at_ms : ℤ) (msg : Message Handler Data) :
    IsHeap DelayedMessage.lt (t.doDelayPost heap delay_ms run_at_ms msg).delayed_messages_ := by
  rw [doDelayPost]
  split_ifs
  · exact hheap
  · exact heap.pushHeap_isHeap _ _ hheap

theorem mem_stores_post {msg m : Message Handler Data} (h : m ∈ (t.post msg).stores) :
    m ∈ t.stores ∨ m = msg := by
  rw [post] at h
  split_ifs at h
  · exact Or.inl h
  · exact (List.mem_cons.mp ((stores_push t msg).mem_iff.mp h)).symm

include hheap in
theorem mem_stores_doDelayPost {delay_ms run_at_ms : ℤ} {msg m : Message Handler Data}
    (h : m ∈ (t.doDelayPost heap delay_ms run_at_ms msg).stores) : m ∈ t.stores ∨ m = msg := by
  rw [doDelayPost] at h
  split_ifs at h
  · exact Or.inl h
  · exact (List.mem_cons.mp
      ((stores_pushDelayed heap hheap delay_ms run_at_ms msg).mem_iff.mp h)).symm

/-! ## Taking -/

/-- Once the triggered messages have become ready, the first of the ready ones is taken. -/
theorem stores_getLocked_false (t : Thread Handler Data) (msCurrent cms : ℤ) :
    t.stores.Perm ((t.getLocked heap false msCurrent cms).1.toList ++
      (t.getLocked heap false msCurrent cms).2.2.stores) := by
  cases hm : t.messages_ with
  | nil =>
    rw [getLocked_nil heap hm]
    exact .refl _
  | cons m ms =>
    rw [getLocked_cons heap hm]
    simp only [stores, hm, Option.toList_some, List.append_assoc, List.cons_append,
      List.nil_append]
    exact List.perm_middle

include hheap in
/-- **The locked section of `Get`** moves messages and takes at most one. -/
theorem stores_getLocked (first_pass : Bool) (msCurrent cms : ℤ) :
    IsHeap DelayedMessage.lt
        (t.getLocked heap first_pass msCurrent cms).2.2.delayed_messages_ ∧
      (t.getLocked heap first_pass msCurrent cms).2.2.fPeekKeep_ = t.fPeekKeep_ ∧
      t.stores.Perm ((t.getLocked heap first_pass msCurrent cms).1.toList ++
        (t.getLocked heap first_pass msCurrent cms).2.2.stores) := by
  have hframe (t' : Thread Handler Data) (cms : ℤ) :
      (t'.getLocked heap false msCurrent cms).2.2.delayed_messages_ = t'.delayed_messages_ ∧
        (t'.getLocked heap false msCurrent cms).2.2.fPeekKeep_ = t'.fPeekKeep_ := by
    cases hm : t'.messages_ with
    | nil => rw [getLocked_nil heap hm]; exact ⟨rfl, rfl⟩
    | cons m ms => rw [getLocked_cons heap hm]; exact ⟨rfl, rfl⟩
  cases first_pass with
  | false =>
    obtain ⟨h₁, h₂⟩ := hframe t cms
    exact ⟨by rw [h₁]; exact hheap, h₂, stores_getLocked_false heap t msCurrent cms⟩
  | true =>
    obtain ⟨due, rest, hs, hperm, hheap', -⟩ :=
      triggerDelayed_spec heap msCurrent _ t hheap (le_refl _)
    rw [getLocked_true]
    obtain ⟨t', ht'⟩ : ∃ t', t' = (triggerDelayed heap msCurrent t.delayed_messages_.length t).2 :=
      ⟨_, rfl⟩
    rw [← ht'] at hs ⊢
    obtain ⟨h₁, h₂⟩ := hframe t'
      (triggerDelayed heap msCurrent t.delayed_messages_.length t).1
    refine ⟨by rw [h₁, hs]; exact hheap', by rw [h₂, hs], ?_⟩
    refine .trans ?_ (stores_getLocked_false heap t' msCurrent _)
    -- what is due has only moved to the ready list
    rw [hs]
    simp only [stores, List.append_assoc, ← List.map_append]
    exact List.Perm.append_left _ (List.Perm.append_left _ (hperm.map _).symm)

include hheap in
theorem mem_stores_getLocked (first_pass : Bool) (msCurrent cms : ℤ) :
    IsHeap DelayedMessage.lt
        (t.getLocked heap first_pass msCurrent cms).2.2.delayed_messages_ ∧
      ∀ m, m ∈ (t.getLocked heap first_pass msCurrent cms).1 ∨
        m ∈ (t.getLocked heap first_pass msCurrent cms).2.2.stores → m ∈ t.stores := by
  obtain ⟨hheap', -, hperm⟩ := stores_getLocked heap hheap first_pass msCurrent cms
  refine ⟨hheap', fun m hmem => hperm.mem_iff.mpr ?_⟩
  rw [List.mem_append, Option.mem_toList]
  exact hmem

/-! ## Clearing -/

theorem clearInternal_removed [DecidableEq Handler] (t : Thread Handler Data)
    (phandler : Option Handler) (id : UInt32) :
    (t.clearInternal heap phandler id).2 = t.stores.filter fun m => m.matches phandler id := by
  simp only [clearInternal, stores, List.filter_append, List.filter_map]
  cases t.fPeekKeep_ <;> cases hp : t.msgPeek_.matches phandler id <;> simp [hp] <;> rfl

theorem clearInternal_stores [DecidableEq Handler] (t : Thread Handler Data)
    (phandler : Option Handler) (id : UInt32) :
    IsHeap DelayedMessage.lt (t.clearInternal heap phandler id).1.delayed_messages_ ∧
      (t.clearInternal heap phandler id).1.stores.Perm
        (t.stores.filter fun m => !m.matches phandler id) := by
  have hloop := compactLoop_eq (fun d => d.msg_.matches phandler id)
    t.delayed_messages_.length t.delayed_messages_ 0 0 (le_refl 0) (by omega)
  rw [List.take_zero, List.nil_append, List.drop_zero] at hloop
  refine ⟨heap.makeHeap_isHeap _, ?_⟩
  have hdelayed := ((heap.makeHeap_perm (t.delayed_messages_.filter
    fun d => !d.msg_.matches phandler id)).map DelayedMessage.msg_)
  simp only [clearInternal, hloop, stores, List.filter_append, List.filter_map]
  refine List.Perm.append (List.Perm.of_eq ?_) hdelayed
  cases t.fPeekKeep_ <;> cases hp : t.msgPeek_.matches phandler id <;> simp [hp]

/-- **`Clear`** takes out what matches. -/
theorem stores_clearInternal [DecidableEq Handler] (t : Thread Handler Data)
    (phandler : Option Handler) (id : UInt32) :
    t.stores.Perm ((t.clearInternal heap phandler id).2 ++
      (t.clearInternal heap phandler id).1.stores) := by
  rw [clearInternal_removed]
  refine .trans ?_ (List.Perm.append_left _ (clearInternal_stores heap t phandler id).2.symm)
  exact (List.filter_append_perm _ _).symm

theorem mem_stores_clearInternal [DecidableEq Handler] {phandler : Option Handler} {id : UInt32}
    {m : Message Handler Data} (h : m ∈ (t.clearInternal heap phandler id).1.stores) :
    m ∈ t.stores ∧ m.matches phandler id = false := by
  have := (clearInternal_stores heap t phandler id).2.mem_iff.mp h
  simpa [List.mem_filter] using this

end Heap

end Thread

end RtcBase
