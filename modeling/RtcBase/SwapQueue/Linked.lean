import RtcBase.SwapQueue.Model

/-!
# The ring of `SwapQueue`

With `o` elements gone and `l` in the queue, element `o + j` is in slot `(o + j) % N`, and a party
that is halfway through a call is behind the counter by a known amount.

* **`Linked`**: the invariant;
* `linked_load`, `linked_swapIn`, `linked_add`, `linked_advanceWrite`: the pieces of `Insert`;
* `linked_loadRead`, `linked_swapOut`, `linked_sub`, `linked_advanceRead`: the pieces of `Remove`;
* `linked_exchange`, `linked_skip`: the pieces of `Clear`.
-/

namespace RtcBase

open Word Fifo

namespace SwapQueue

variable {T : Type} {N : ℕ} {q : SwapQueue T} {p : Producer T} {c : Consumer T} {o : ℕ}
  {l : List T}

/-- By how much `num_elements_` is ahead of `next_write_index_`. -/
def Producer.ahead : Producer T → ℕ
  | .index _ _ _ => 1
  | _ => 0

/-- By how much `num_elements_` is ahead of `next_read_index_`. -/
def Consumer.ahead : Consumer T → ℕ
  | .index _ => 1
  | .skip n => n
  | _ => 0

/-- The oldest element has already been swapped out. -/
def Consumer.taken : Consumer T → Bool
  | .sub _ => true
  | _ => false

/-- What the producer knows between two pieces of `Insert`. -/
def Producer.Ok (N : ℕ) (q : SwapQueue T) (o : ℕ) (l : List T) : Producer T → Prop
  | .swap _ => l.length < N
  | .add full _ => l.length < N ∧ q.queue_[(o + l.length) % N]? = some full
  | .index _ _ old_num_elements => 1 ≤ o + l.length ∧ old_num_elements < N
  | _ => True

/-- What the consumer knows between two pieces of its call. -/
def Consumer.Ok (N o : ℕ) (l : List T) : Consumer T → Prop
  | .swap _ => l ≠ []
  | .sub output => l.head? = some output
  | .index _ => 1 ≤ o
  | .skip n => n ≤ o ∧ n ≤ N
  | _ => True

/-- **The invariant of the ring.** -/
structure Linked (N : ℕ) (q : SwapQueue T) (p : Producer T) (c : Consumer T) (o : ℕ)
    (l : List T) : Prop where
  size : q.queue_.length = N
  bound : l.length ≤ N
  num : q.num_elements_ = l.length
  write : q.next_write_index_ = (o + l.length - p.ahead) % N
  read : q.next_read_index_ = (o - c.ahead) % N
  slots : ∀ j x, l[j]? = some x → (j = 0 → c.taken = false) → q.queue_[(o + j) % N]? = some x
  producer : p.Ok N q o l
  consumer : c.Ok N o l

theorem linked_new (N : ℕ) (prototype : T) : Linked N (new N prototype) .idle .idle 0 [] where
  size := List.length_replicate
  bound := Nat.zero_le N
  num := rfl
  write := (Nat.zero_mod N).symm
  read := (Nat.zero_mod N).symm
  slots := by simp
  producer := trivial
  consumer := trivial

/-! ## The indices -/

theorem advance_eq {k i : ℕ} (hN : N < 2 ^ 63) (hN₀ : 1 ≤ N) (hk : 1 ≤ k)
    (hi : i = (k - 1) % N) : advance N i = k % N := by
  have hlt : i < N := hi ▸ Nat.mod_lt _ hN₀
  have hmod : (i + 1) % N = k % N := by
    rw [hi, Nat.mod_add_mod, Nat.sub_add_cancel hk]
  rw [advance, sizeT_of_lt (by omega), ← hmod, Ring.wrap_nat hlt hN₀]
  split_ifs <;> omega

theorem skipRead_eq {n : ℕ} (hq : q.queue_.length = N) (hN : N < 2 ^ 63) (hN₀ : 1 ≤ N)
    (ho : n ≤ o) (hn : n ≤ N) (hi : q.next_read_index_ = (o - n) % N) :
    (q.skipRead n).next_read_index_ = o % N := by
  have hlt : q.next_read_index_ < N := hi ▸ Nat.mod_lt _ hN₀
  have hmod : (q.next_read_index_ + n) % N = o % N := by
    rw [hi, Nat.mod_add_mod, Nat.sub_add_cancel ho]
  simp only [skipRead]
  rw [hq, sizeT_of_lt (by omega), ← hmod, Ring.wrap_nat hlt hn]

/-- Writing one position leaves the others of the same lap alone. -/
theorem getElem?_set_lap {s : List T} {a b : ℕ} {x : T} (hab : a ≠ b) (h₁ : a < b + N)
    (h₂ : b < a + N) : (s.set (a % N) x)[b % N]? = s[b % N]? := by
  refine List.getElem?_set_ne ?_
  rcases Nat.lt_or_gt_of_ne hab with h | h
  · exact Ring.mod_ne_of_lt h h₂
  · exact (Ring.mod_ne_of_lt h h₁).symm

theorem getElem?_set_same {s : List T} {a : ℕ} {x : T} (hs : s.length = N) (hN : 1 ≤ N) :
    (s.set (a % N) x)[a % N]? = some x := by
  rw [List.getElem?_set_self (by rw [hs]; exact Nat.mod_lt _ hN)]

theorem lt_of_getElem? {j : ℕ} {x : T} (h : l[j]? = some x) : j < l.length :=
  (List.getElem?_eq_some_iff.mp h).1

/-! ## The pieces of `Insert` -/

theorem linked_insert (h : Linked N q .idle c o l) (input : T) : Linked N q (.load input) c o l :=
  { h with producer := trivial }

theorem linked_full {input : T} (h : Linked N q (.load input) c o l) : Linked N q .idle c o l :=
  { h with producer := trivial }

theorem linked_load {input : T} (h : Linked N q (.load input) c o l)
    (hfull : q.num_elements_ ≠ q.queue_.length) : Linked N q (.swap input) c o l :=
  { h with
    producer := by
      have h₁ := h.bound
      have h₂ := h.num
      have h₃ := h.size
      change l.length < N
      omega }

theorem linked_swapIn (hN₀ : 1 ≤ N) {input : T} (h : Linked N q (.swap input) c o l) :
    Linked N (q.swapIn input).2 (.add input (q.swapIn input).1) c o l where
  size := by simpa [swapIn] using h.size
  bound := h.bound
  num := h.num
  write := h.write
  read := h.read
  slots j x hj ht := by
    have h₁ : l.length < N := h.producer
    have h₂ := lt_of_getElem? hj
    simp only [swapIn]
    rw [show q.next_write_index_ = (o + l.length) % N from h.write,
      getElem?_set_lap (by omega) (by omega) (by omega)]
    exact h.slots j x hj ht
  producer := by
    refine ⟨h.producer, ?_⟩
    simp only [swapIn]
    rw [show q.next_write_index_ = (o + l.length) % N from h.write]
    exact getElem?_set_same h.size hN₀
  consumer := h.consumer

theorem Consumer.ok_append (x : T) (h : c.Ok N o l) : c.Ok N o (l ++ [x]) := by
  cases c with
  | swap output => simp [Consumer.Ok]
  | sub output =>
    have hx : l.head? = some output := h
    cases l with
    | nil => cases hx
    | cons y l => exact hx
  | idle => trivial
  | load output => trivial
  | index output => exact h
  | exchange => trivial
  | skip n => exact h

theorem linked_add (hN : N < 2 ^ 63) {full input : T} (h : Linked N q (.add full input) c o l) :
    Linked N q.fetchAdd.2 (.index full input q.fetchAdd.1) c o (l ++ [full]) := by
  obtain ⟨hlt, hfull⟩ := h.producer
  have hlen : (l ++ [full]).length = l.length + 1 := by simp
  exact
  { size := h.size
    bound := by omega
    num := by
      have := h.num
      simp only [fetchAdd]
      rw [sizeT_of_lt (by omega), hlen, h.num]
    write := by
      rw [hlen]
      exact h.write
    read := h.read
    slots := by
      intro j x hj ht
      rcases Nat.lt_or_ge j l.length with hjl | hjl
      · rw [List.getElem?_append_left hjl] at hj
        exact h.slots j x hj ht
      · have hje : j = l.length := by
          have := lt_of_getElem? hj
          omega
        subst hje
        rw [List.getElem?_append_right le_rfl] at hj
        simp at hj
        rw [← hj]
        exact hfull
    producer := by
      have := h.num
      refine ⟨by omega, ?_⟩
      simp only [fetchAdd]
      omega
    consumer := Consumer.ok_append full h.consumer }

theorem linked_advanceWrite (hN : N < 2 ^ 63) (hN₀ : 1 ≤ N) {full input : T} {old : ℕ}
    (h : Linked N q (.index full input old) c o l) : Linked N q.advanceWrite .idle c o l :=
  { h with
    write := by
      simp only [advanceWrite]
      rw [h.size]
      exact advance_eq hN hN₀ h.producer.1 h.write
    slots := h.slots
    producer := trivial }

/-! ## The pieces of `Remove` and `Clear` -/

theorem linked_remove (h : Linked N q p .idle o l) (output : T) :
    Linked N q p (.load output) o l :=
  { h with consumer := trivial }

theorem linked_clear (h : Linked N q p .idle o l) : Linked N q p .exchange o l :=
  { h with consumer := trivial }

theorem linked_empty {output : T} (h : Linked N q p (.load output) o l) :
    Linked N q p .idle o l :=
  { h with consumer := trivial }

theorem linked_loadRead {output : T} (h : Linked N q p (.load output) o l)
    (hne : q.num_elements_ ≠ 0) : Linked N q p (.swap output) o l :=
  { h with
    consumer := by
      have h₁ := h.num
      change l ≠ []
      rintro rfl
      exact hne h₁ }

theorem Producer.ok_set {x : T} (h : p.Ok N q o l) (hl : l ≠ []) :
    p.Ok N { q with queue_ := q.queue_.set (o % N) x } o l := by
  have hpos := List.length_pos_iff.mpr hl
  cases p with
  | add full input =>
    obtain ⟨h₁, h₂⟩ := h
    refine ⟨h₁, ?_⟩
    change (q.queue_.set (o % N) x)[_]? = _
    rw [getElem?_set_lap (by omega) (by omega) (by omega), h₂]
  | idle => trivial
  | load input => trivial
  | swap input => exact h
  | index full input old => exact h

theorem linked_swapOut {output : T} (h : Linked N q p (.swap output) o l) :
    Linked N (q.swapOut output).2 p (.sub (q.swapOut output).1) o l := by
  have hl : l ≠ [] := h.consumer
  have hread : q.next_read_index_ = o % N := h.read
  have hbound := h.bound
  obtain ⟨x, l, rfl⟩ := List.exists_cons_of_ne_nil hl
  have hslot := h.slots 0 x rfl fun _ => rfl
  rw [add_zero] at hslot
  exact
  { size := by simpa [swapOut] using h.size
    bound := hbound
    num := h.num
    write := h.write
    read := h.read
    slots := by
      intro j y hj ht
      have h₁ := lt_of_getElem? hj
      have h₂ : j ≠ 0 := fun h0 => by cases ht h0
      simp only [swapOut]
      rw [hread, getElem?_set_lap (by omega) (by omega) (by omega)]
      exact h.slots j y hj fun h0 => absurd h0 h₂
    producer := by
      have := Producer.ok_set (x := output) h.producer hl
      simp only [swapOut]
      rwa [hread]
    consumer := by
      change some x = some (q.swapOut output).1
      simp [swapOut, hread, List.getD_eq_getElem?_getD, hslot] }

theorem Producer.ok_tail {x : T} (h : p.Ok N q o (x :: l)) : p.Ok N q (o + 1) l := by
  have hlen : o + (x :: l).length = o + 1 + l.length := by simp; omega
  cases p with
  | swap input =>
    have : (x :: l).length < N := h
    simp only [List.length_cons] at this
    change l.length < N
    omega
  | add full input =>
    obtain ⟨h₁, h₂⟩ := h
    simp only [List.length_cons] at h₁
    exact ⟨by omega, by rwa [← hlen]⟩
  | index full input old =>
    obtain ⟨h₁, h₂⟩ := h
    exact ⟨by omega, h₂⟩
  | idle => trivial
  | load input => trivial

theorem fetchSub_eq {n : ℕ} (hn : q.num_elements_ = n + 1) (hlt : n + 1 < 2 ^ 64) :
    q.fetchSub = { q with num_elements_ := n } := by
  have := sizeT_pred (x := n + 1) (by omega) hlt
  rw [fetchSub, hn, this, Nat.add_sub_cancel]

theorem linked_sub (hN : N < 2 ^ 63) {x output : T} (h : Linked N q p (.sub output) o (x :: l)) :
    Linked N q.fetchSub p (.index output) (o + 1) l := by
  have hlen : o + (x :: l).length = o + 1 + l.length := by simp; omega
  have hbound := h.bound
  have hread := h.read
  have hwrite := h.write
  simp only [List.length_cons] at hbound
  rw [hlen] at hwrite
  rw [fetchSub_eq h.num (by omega)]
  exact
  { size := h.size
    bound := by omega
    num := rfl
    write := hwrite
    read := by simpa [Consumer.ahead] using hread
    slots := by
      intro j y hj _
      have := h.slots (j + 1) y hj (by simp)
      rwa [show o + (j + 1) = o + 1 + j by omega] at this
    producer := Producer.ok_tail h.producer
    consumer := Nat.le_add_left 1 o }

theorem linked_advanceRead (hN : N < 2 ^ 63) (hN₀ : 1 ≤ N) {output : T}
    (h : Linked N q p (.index output) o l) : Linked N q.advanceRead p .idle o l where
  size := h.size
  bound := h.bound
  num := h.num
  write := h.write
  read := by
    simp only [advanceRead]
    rw [h.size]
    exact advance_eq hN hN₀ h.consumer h.read
  slots j x hj _ := h.slots j x hj fun _ => rfl
  producer := h.producer
  consumer := trivial

theorem Producer.ok_clear (h : p.Ok N q o l) (hN₀ : 1 ≤ N) :
    p.Ok N q (o + l.length) ([] : List T) := by
  cases p with
  | swap input => exact hN₀
  | add full input => exact ⟨hN₀, h.2⟩
  | index full input old => exact ⟨h.1, h.2⟩
  | idle => trivial
  | load input => trivial

theorem linked_exchange (hN₀ : 1 ≤ N) (h : Linked N q p .exchange o l) :
    Linked N q.exchange.2 p (.skip q.exchange.1) (o + l.length) [] where
  size := h.size
  bound := Nat.zero_le N
  num := rfl
  write := h.write
  read := by
    have h₁ : q.exchange.1 = l.length := h.num
    change q.next_read_index_ = (o + l.length - q.exchange.1) % N
    rw [h₁, Nat.add_sub_cancel]
    exact h.read
  slots j x hj _ := by cases hj
  producer := Producer.ok_clear h.producer hN₀
  consumer := by
    have h₁ : q.exchange.1 = l.length := h.num
    have h₂ := h.bound
    change q.exchange.1 ≤ o + l.length ∧ q.exchange.1 ≤ N
    omega

theorem linked_skip (hN : N < 2 ^ 63) (hN₀ : 1 ≤ N) {n : ℕ} (h : Linked N q p (.skip n) o l) :
    Linked N (q.skipRead n) p .idle o l where
  size := h.size
  bound := h.bound
  num := h.num
  write := h.write
  read := skipRead_eq h.size hN hN₀ h.consumer.1 h.consumer.2 h.read
  slots j x hj _ := h.slots j x hj fun _ => rfl
  producer := h.producer
  consumer := trivial

end SwapQueue

end RtcBase
