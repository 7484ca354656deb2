import RtcBase.Lib.Ring
import RtcBase.RateStatistics.Model

/-!
# `RateStatistics` refines a list of samples

`Window` is the purpose of the class: an optional oldest time and the accepted samples, each a
time and a count, in the order of acceptance. `Holds W s r` says that the circular buffer of `s`
holds exactly the samples of `r`, and `Represents W s r` that `accumulated_count_` is their sum,
too.

* `holds_popOldest`, `holds_jump`, `holds_startAt`, `holds_addSample`: the steps of the buffer;
* `represents_popOldest`, `represents_eraseTo`: one turn of the culling loop, and all of it;
* `represents_startAt`, `represents_addSample`: entering a sample, the first one or a later one.
-/

namespace RtcBase

open Word

/-! ## The reference -/

/-- The samples that the buffer is for. `accepted` counts the samples since construction or
`Reset`. -/
structure Window where
  oldest : Option ℤ
  samples : List (ℤ × ℤ)
  window : ℤ
  accepted : ℕ
  deriving DecidableEq, Repr

namespace Window

/-- No samples, and the greatest window. -/
def init (W : ℤ) : Window := ⟨none, [], W, 0⟩

/-- Drop the samples older than `t` and raise the oldest time to `t`. -/
def eraseTo (r : Window) (t : ℤ) : Window :=
  match r.oldest with
  | none => r
  | some o => if o < t then
      { r with oldest := some t, samples := r.samples.filter (fun p => t ≤ p.1) } else r

/-- The samples before the window are dropped. -/
def eraseOld (r : Window) (now : ℤ) : Window := r.eraseTo (now - r.window + 1)

/-- A sample is accepted unless it is older than the oldest time. -/
def update (r : Window) (count now : ℤ) : Window :=
  if ∃ o ∈ r.oldest, now < o then r
  else
    let r' := r.eraseOld now
    { r' with
      oldest := some (r'.oldest.getD now)
      samples := r'.samples ++ [(now, count)]
      accepted := r'.accepted + 1 }

/-- A new window, at most as long as the greatest. -/
def setWindowSize (W : ℤ) (r : Window) (w now : ℤ) : Bool × Window :=
  if 1 ≤ w ∧ w ≤ W then (true, { r with window := w }.eraseOld now) else (false, r)

/-- The sum and the number of the samples at time `t`. -/
def mass (l : List (ℤ × ℤ)) (t : ℤ) : Bucket :=
  ⟨((l.filter (fun p => p.1 = t)).map Prod.snd).sum, (l.filter (fun p => p.1 = t)).length⟩

/-- The sum of all counts. -/
def total (l : List (ℤ × ℤ)) : ℤ := (l.map Prod.snd).sum

end Window

/-! ## Sums over samples -/

section Samples

open Window

variable {l : List (ℤ × ℤ)}

theorem filter_filter_le (l : List (ℤ × ℤ)) {t u : ℤ} (h : t ≤ u) :
    (l.filter (fun p => t ≤ p.1)).filter (fun p => u ≤ p.1) = l.filter (fun p => u ≤ p.1) := by
  rw [List.filter_filter]
  refine List.filter_congr fun p _ => ?_
  by_cases hp : u ≤ p.1
  · simp [hp, h.trans hp]
  · simp [hp]

theorem mass_filter (l : List (ℤ × ℤ)) {t u : ℤ} (h : t ≤ u) :
    mass (l.filter (fun p => t ≤ p.1)) u = mass l u := by
  have : (l.filter (fun p => t ≤ p.1)).filter (fun p => p.1 = u) =
      l.filter (fun p => p.1 = u) := by
    rw [List.filter_filter]
    refine List.filter_congr fun p _ => ?_
    by_cases hp : p.1 = u
    · simp [hp, h]
    · simp [hp]
  simp only [mass, this]

theorem mass_append (l : List (ℤ × ℤ)) (t c u : ℤ) :
    mass (l ++ [(t, c)]) u =
      if u = t then ⟨(mass l u).sum + c, (mass l u).samples + 1⟩ else mass l u := by
  unfold mass
  by_cases h : u = t
  · subst h; simp
  · simp [h, Ne.symm h]

theorem mass_eq_zero {u : ℤ} (h : ∀ p ∈ l, p.1 ≠ u) : mass l u = Bucket.zero := by
  have : l.filter (fun p => p.1 = u) = [] :=
    List.filter_eq_nil_iff.mpr fun p hp => by simpa using h p hp
  simp [mass, this, Bucket.zero]

theorem total_split {o : ℤ} (h : ∀ p ∈ l, o ≤ p.1) :
    total (l.filter (fun p => o + 1 ≤ p.1)) = total l - (mass l o).sum ∧
      ((l.filter (fun p => o + 1 ≤ p.1)).length : ℤ) = l.length - (mass l o).samples := by
  induction l with
  | nil => simp [total, mass]
  | cons p l ih =>
    obtain ⟨h₁, h₂⟩ := ih fun q hq => h q (List.mem_cons_of_mem _ hq)
    have hp := h p List.mem_cons_self
    simp only [total, mass, Int.add_one_le_iff] at h₁ h₂ ⊢
    by_cases he : p.1 = o
    · simp [he] at h₁ h₂ ⊢
      omega
    · have : o < p.1 := by omega
      simp [he, this] at h₁ h₂ ⊢
      omega

theorem total_nonneg (h : ∀ p ∈ l, 0 ≤ p.2) : 0 ≤ total l :=
  List.sum_nonneg fun x hx => by
    obtain ⟨p, hp, rfl⟩ := List.mem_map.mp hx
    exact h p hp

theorem total_filter_le (h : ∀ p ∈ l, 0 ≤ p.2) (q : ℤ × ℤ → Bool) :
    total (l.filter q) ≤ total l := by
  induction l with
  | nil => simp
  | cons p l ih =>
    have h₁ := ih fun x hx => h x (List.mem_cons_of_mem _ hx)
    have h₂ := h p List.mem_cons_self
    simp only [total] at h₁ ⊢
    by_cases hq : q p
    · simp [hq]; exact h₁
    · simp [hq]; omega

theorem mass_sum_le (h : ∀ p ∈ l, 0 ≤ p.2) (u : ℤ) :
    0 ≤ (mass l u).sum ∧ (mass l u).sum ≤ total l :=
  ⟨total_nonneg fun p hp => h p (List.mem_of_mem_filter hp), total_filter_le h _⟩

theorem mass_samples_le (l : List (ℤ × ℤ)) (u : ℤ) :
    0 ≤ (mass l u).samples ∧ (mass l u).samples ≤ l.length := by
  have := List.length_filter_le (fun p : ℤ × ℤ => decide (p.1 = u)) l
  simp only [mass]
  omega

/-- The samples fit the accumulators: no count is negative, and neither the sum nor the number
of the samples reaches the largest value of its type. -/
structure Bounded (l : List (ℤ × ℤ)) : Prop where
  nonneg : ∀ p ∈ l, 0 ≤ p.2
  total_lt : total l < int64Max
  length_lt : (l.length : ℤ) < intMax

theorem Bounded.filter (h : Bounded l) (q : ℤ × ℤ → Bool) : Bounded (l.filter q) where
  nonneg p hp := h.nonneg p (List.mem_of_mem_filter hp)
  total_lt := lt_of_le_of_lt (total_filter_le h.nonneg q) h.total_lt
  length_lt := by
    have h₁ := List.length_filter_le q l
    have h₂ := h.length_lt
    omega

end Samples

/-! ## The representation -/

/-- **The representation invariant.** Bucket `oldest_index_ + k` (around the ring) holds the
samples of time `oldest_time_ + k`, and nothing else is stored. -/
structure Represents (W : ℤ) (s : RateStatistics) (r : Window) : Prop where
  size : s.buckets_.length = W.toNat
  max : s.max_window_size_ms_ = W
  index : 0 ≤ s.oldest_index_ ∧ s.oldest_index_ < W
  window : s.current_window_size_ms_ = r.window
  window_mem : 1 ≤ r.window ∧ r.window ≤ W
  time : s.oldest_time_ = r.oldest.getD (-W)
  later : ∀ o ∈ r.oldest, -W < o
  fresh : r.oldest = none → r.samples = []
  bucket : ∀ k, 0 ≤ k → k < W →
    s.bucket ((s.oldest_index_ + k) % W) = Window.mass r.samples (s.oldest_time_ + k)
  span : ∀ p ∈ r.samples, s.oldest_time_ ≤ p.1 ∧ p.1 < s.oldest_time_ + W
  accumulated : s.accumulated_count_ = Window.total r.samples
  samples : s.num_samples_ = r.samples.length
  overflow : s.overflow_ = false

/-- Bucket `oldest_index_ + k` (around the ring) holds the samples of time `oldest_time_ + k`, and
nothing else is stored. -/
structure Holds (W : ℤ) (s : RateStatistics) (r : Window) : Prop where
  size : s.buckets_.length = W.toNat
  max : s.max_window_size_ms_ = W
  index : 0 ≤ s.oldest_index_ ∧ s.oldest_index_ < W
  window : s.current_window_size_ms_ = r.window
  window_mem : 1 ≤ r.window ∧ r.window ≤ W
  time : s.oldest_time_ = r.oldest.getD (-W)
  later : ∀ o ∈ r.oldest, -W < o
  fresh : r.oldest = none → r.samples = []
  bucket : ∀ k, 0 ≤ k → k < W →
    s.bucket ((s.oldest_index_ + k) % W) = Window.mass r.samples (s.oldest_time_ + k)
  span : ∀ p ∈ r.samples, s.oldest_time_ ≤ p.1 ∧ p.1 < s.oldest_time_ + W
  samples : s.num_samples_ = r.samples.length

theorem Represents.holds {W : ℤ} {s : RateStatistics} {r : Window} (h : Represents W s r) :
    Holds W s r :=
  { h with }

theorem Holds.represents {W : ℤ} {s : RateStatistics} {r : Window} (h : Holds W s r)
    (haccumulated : s.accumulated_count_ = Window.total r.samples)
    (hoverflow : s.overflow_ = false) :
    Represents W s r :=
  { h with accumulated := haccumulated, overflow := hoverflow }

namespace RateStatistics

open Window

variable {W : ℤ} {s : RateStatistics} {r : Window}

theorem bucket_set (s s' : RateStatistics) {i j : ℤ} {b : Bucket}
    (h : s'.buckets_ = s.buckets_.set i.toNat b) (hi : 0 ≤ i) (hj : 0 ≤ j)
    (hn : i.toNat < s.buckets_.length) :
    s'.bucket j = if j = i then b else s.bucket j := by
  unfold bucket
  rw [h, List.getD_eq_getElem?_getD, List.getElem?_set, List.getD_eq_getElem?_getD]
  by_cases hij : j = i
  · subst hij; simp [hn]
  · rw [if_neg (by omega), if_neg hij]

theorem isInitialized_eq (h : Holds W s r) : s.isInitialized = r.oldest.isSome := by
  unfold isInitialized
  rw [h.time, h.max]
  cases ho : r.oldest with
  | none => simp
  | some o => simpa using (h.later o ho).ne'

theorem bucket_oldest (h : Holds W s r) :
    s.bucket s.oldest_index_ = mass r.samples s.oldest_time_ := by
  obtain ⟨hi, hiW⟩ := h.index
  have := h.bucket 0 le_rfl (by omega)
  rwa [add_zero, add_zero, Int.emod_eq_of_lt hi hiW] at this

/-! ## The buffer -/

/-- One turn of the culling loop moves the ring by one bucket. -/
theorem bucket_popOldest {o : ℤ} (h : Holds W s r) (ho : r.oldest = some o) {k : ℤ}
    (hk : 0 ≤ k) (hkW : k < W) : s.popOldest.bucket ((s.popOldest.oldest_index_ + k) % W) =
      mass (r.samples.filter (fun p => o + 1 ≤ p.1)) (o + 1 + k) := by
  obtain ⟨hi, hiW⟩ := h.index
  have ht : s.oldest_time_ = o := by simp [h.time, ho]
  have hW := h.size
  have hW₀ : W ≠ 0 := by omega
  have hpos : (s.popOldest.oldest_index_ + k) % W = (s.oldest_index_ + (k + 1)) % W := by
    simp only [popOldest, h.max]
    split_ifs with hc
    · rw [show s.oldest_index_ + (k + 1) = k + W by omega, Int.add_emod_right, zero_add]
    · congr 1; omega
  have hget := bucket_set s s.popOldest (b := Bucket.zero) rfl hi
    (Int.emod_nonneg (s.oldest_index_ + (k + 1)) hW₀) (by omega)
  rw [hpos, hget, mass_filter _ (by omega)]
  by_cases hlast : k + 1 < W
  · rw [if_neg, h.bucket (k + 1) (by omega) hlast, ht]
    · congr 1; omega
    · intro he
      have hself : (s.oldest_index_ + 0) % W = s.oldest_index_ := by
        rw [add_zero, Int.emod_eq_of_lt hi hiW]
      have := Ring.wrap_inj hi hiW (by omega) hlast le_rfl (by omega) (he.trans hself.symm)
      omega
  · -- the bucket freed by this turn is the newest one, one lap later
    rw [show s.oldest_index_ + (k + 1) = s.oldest_index_ + W by omega, Int.add_emod_right,
      Int.emod_eq_of_lt hi hiW, if_pos rfl, mass_eq_zero]
    intro p hp
    have := (h.span p hp).2
    omega

theorem holds_popOldest {o : ℤ} (h : Holds W s r) (hlen : (r.samples.length : ℤ) ≤ intMax)
    (ho : r.oldest = some o) :
    Holds W s.popOldest { r with
      oldest := some (o + 1), samples := r.samples.filter (fun p => o + 1 ≤ p.1) } := by
  obtain ⟨hi, hiW⟩ := h.index
  have ht : s.oldest_time_ = o := by simp [h.time, ho]
  have hz : s.bucket s.oldest_index_ = mass r.samples o := ht ▸ bucket_oldest h
  obtain ⟨-, hs⟩ := total_split (l := r.samples) (o := o) fun p hp => ht ▸ (h.span p hp).1
  obtain ⟨hn₁, hn₂⟩ := mass_samples_le r.samples o
  exact
  { size := by simpa [popOldest] using h.size
    max := h.max
    index := by
      simp only [popOldest, h.max]
      split_ifs <;> omega
    window := h.window
    window_mem := h.window_mem
    time := by simp [popOldest, ht]
    later := by
      have := h.later o ho
      simp; omega
    fresh := by simp
    bucket := fun k hk hkW => by
      change _ = mass _ (s.oldest_time_ + 1 + k)
      rw [ht]
      exact bucket_popOldest h ho hk hkW
    span := by
      intro p hp
      obtain ⟨hp₁, hp₂⟩ := List.mem_filter.mp hp
      have := h.span p hp₁
      simp only [decide_eq_true_eq] at hp₂
      change s.oldest_time_ + 1 ≤ p.1 ∧ p.1 < s.oldest_time_ + 1 + W
      omega
    samples := by
      simp only [popOldest, hz, h.samples, hs]
      exact toInt32_of_mem (by omega) (by omega) }

theorem holds_jump {o t : ℤ} (h : Holds W s r) (ho : r.oldest = some o) (hot : o ≤ t)
    (hn : r.samples = []) :
    Holds W { s with oldest_time_ := t } { r with oldest := some t, samples := [] } where
  size := h.size
  max := h.max
  index := h.index
  window := h.window
  window_mem := h.window_mem
  time := rfl
  later := by
    have := h.later o ho
    simp; omega
  fresh := by simp
  bucket k hk hkW := by
    have := h.bucket k hk hkW
    rw [hn] at this
    exact this
  span := by simp
  samples := by simpa [hn] using h.samples

/-- "First ever sample, reset window to start now." -/
theorem holds_startAt (h : Holds W s r) {now : ℤ} (hnow : 0 ≤ now) :
    Holds W (s.startAt now) { r with oldest := some (r.oldest.getD now) } := by
  unfold startAt
  rw [isInitialized_eq h]
  cases ho : r.oldest with
  | some o =>
    have : { r with oldest := some o } = r := by rw [← ho]
    simpa [this] using h
  | none =>
    have hn := h.fresh ho
    have hw := h.window_mem
    exact
    { size := h.size
      max := h.max
      index := h.index
      window := h.window
      window_mem := hw
      time := rfl
      later := by simp; omega
      fresh := by simp
      bucket := by
        intro k hk hkW
        have := h.bucket k hk hkW
        rw [hn] at this
        change s.bucket _ = mass r.samples _
        rwa [hn]
      span := by simp [hn]
      samples := h.samples }

/-- The offset of `Update` stays inside the ring. -/
theorem updateIndex_eq (h : Holds W s r) (hW : W < 2 ^ 31) {now : ℤ}
    (h₁ : s.oldest_time_ ≤ now) (h₂ : now < s.oldest_time_ + W) :
    s.updateIndex now = (s.oldest_index_ + (now - s.oldest_time_)) % W := by
  obtain ⟨hi, hiW⟩ := h.index
  unfold updateIndex
  simp only [h.max]
  rw [toUInt32_of_mem (x := now - s.oldest_time_) (by omega) (by omega),
    toUInt32_of_mem (by omega) (by omega), Ring.wrap_int hi hiW (by omega) (by omega)]
  split_ifs with hc
  · exact toUInt32_of_mem (by omega) (by omega)
  · rfl

theorem bucket_updateIndex (h : Holds W s r) (hW : W < 2 ^ 31) {now : ℤ}
    (h₁ : s.oldest_time_ ≤ now) (h₂ : now < s.oldest_time_ + W) :
    s.bucket (s.updateIndex now) = mass r.samples now := by
  rw [updateIndex_eq h hW h₁ h₂, h.bucket _ (by omega) (by omega)]
  congr 1
  omega

/-- What goes into the bucket of `now`, with no sum out of range. -/
theorem bucket_entered (h : Holds W s r) (hW : W < 2 ^ 31) {count now : ℤ} (hcount : 0 ≤ count)
    (hsum : 0 ≤ (mass r.samples now).sum) (hmax : (mass r.samples now).sum + count ≤ int64Max)
    (hlen : (r.samples.length : ℤ) + 1 ≤ intMax)
    (h₁ : s.oldest_time_ ≤ now) (h₂ : now < s.oldest_time_ + W) :
    (⟨toInt64 ((s.bucket (s.updateIndex now)).sum + count),
      toInt32 ((s.bucket (s.updateIndex now)).samples + 1)⟩ : Bucket) =
        ⟨(mass r.samples now).sum + count, (mass r.samples now).samples + 1⟩ := by
  obtain ⟨hn₁, hn₂⟩ := mass_samples_le r.samples now
  rw [bucket_updateIndex h hW h₁ h₂, toInt64_of_mem (by omega) hmax,
    toInt32_of_mem (by omega) (by omega)]

theorem bucket_addSample (h : Holds W s r) (hW : W < 2 ^ 31) {count now : ℤ} (hcount : 0 ≤ count)
    (hsum : 0 ≤ (mass r.samples now).sum) (hmax : (mass r.samples now).sum + count ≤ int64Max)
    (hlen : (r.samples.length : ℤ) + 1 ≤ intMax)
    (h₁ : s.oldest_time_ ≤ now) (h₂ : now < s.oldest_time_ + W) {k : ℤ} (hk : 0 ≤ k)
    (hkW : k < W) : (s.addSample count now).bucket ((s.oldest_index_ + k) % W) =
      mass (r.samples ++ [(now, count)]) (s.oldest_time_ + k) := by
  obtain ⟨hi, hiW⟩ := h.index
  have hsize := h.size
  have hidx := updateIndex_eq h hW h₁ h₂
  have hpos : 0 ≤ s.updateIndex now := by rw [hidx]; exact Int.emod_nonneg _ (by omega)
  have hlt : s.updateIndex now < W := by rw [hidx]; exact Int.emod_lt_of_pos _ (by omega)
  have hget := bucket_set s (s.addSample count now) rfl hpos
    (Int.emod_nonneg (s.oldest_index_ + k) (by omega : W ≠ 0)) (by omega)
  rw [hget, bucket_entered h hW hcount hsum hmax hlen h₁ h₂, mass_append]
  by_cases hkn : s.oldest_time_ + k = now
  · rw [if_pos hkn, if_pos (by rw [hidx]; congr 2; omega), hkn]
  · rw [if_neg hkn, if_neg, h.bucket k hk hkW]
    intro he
    have := Ring.wrap_inj hi hiW hk hkW (by omega) (by omega) (he.trans hidx)
    omega

theorem holds_addSample (h : Holds W s r) (hW : W < 2 ^ 31) {count now : ℤ} (hcount : 0 ≤ count)
    (hsum : 0 ≤ (mass r.samples now).sum) (hmax : (mass r.samples now).sum + count ≤ int64Max)
    (hlen : (r.samples.length : ℤ) + 1 ≤ intMax) (hinit : r.oldest ≠ none)
    (h₁ : s.oldest_time_ ≤ now) (h₂ : now < s.oldest_time_ + W) :
    Holds W (s.addSample count now) { r with samples := r.samples ++ [(now, count)] } where
  size := by simpa [addSample] using h.size
  max := h.max
  index := h.index
  window := h.window
  window_mem := h.window_mem
  time := h.time
  later := h.later
  fresh hn := absurd hn hinit
  bucket k hk hkW := bucket_addSample h hW hcount hsum hmax hlen h₁ h₂ hk hkW
  span p hp := by
    rcases List.mem_append.mp hp with hp | hp
    · exact h.span p hp
    · rw [List.mem_singleton.mp hp]; exact ⟨h₁, h₂⟩
  samples := by
    have := h.samples
    simp only [addSample]
    rw [toInt32_of_mem] <;> simp <;> omega

/-! ## The buffer and the sum -/

theorem represents_popOldest {o : ℤ} (h : Represents W s r) (hb : Bounded r.samples)
    (ho : r.oldest = some o) :
    Represents W s.popOldest { r with
      oldest := some (o + 1), samples := r.samples.filter (fun p => o + 1 ≤ p.1) } := by
  have ht : s.oldest_time_ = o := by simp [h.time, ho]
  have hz : s.bucket s.oldest_index_ = mass r.samples o := ht ▸ bucket_oldest h.holds
  obtain ⟨hs, -⟩ := total_split (l := r.samples) (o := o) fun p hp => ht ▸ (h.span p hp).1
  obtain ⟨hm₁, hm₂⟩ := mass_sum_le hb.nonneg o
  refine (holds_popOldest h.holds hb.length_lt.le ho).represents ?_ h.overflow
  have := hb.total_lt
  simp only [popOldest, hz, h.accumulated, hs]
  unfold int64Max at this
  exact toInt64_of_mem (by omega) (by unfold int64Max; omega)

theorem represents_jump {o t : ℤ} (h : Represents W s r) (ho : r.oldest = some o) (hot : o ≤ t)
    (hn : r.samples = []) :
    Represents W { s with oldest_time_ := t } { r with oldest := some t, samples := [] } :=
  (holds_jump h.holds ho hot hn).represents (by simpa [hn] using h.accumulated) h.overflow

theorem represents_eraseLoop (n : ℕ) {o t : ℤ} (h : Represents W s r) (hb : Bounded r.samples)
    (ho : r.oldest = some o) (ht : t = o + n) :
    Represents W { eraseLoop n t s with oldest_time_ := t }
      { r with oldest := some t, samples := r.samples.filter (fun p => t ≤ p.1) } := by
  have hot : s.oldest_time_ = o := by simp [h.time, ho]
  induction n generalizing s r o with
  | zero =>
    have hto : t = o := by simpa using ht
    have hf : r.samples.filter (fun p => t ≤ p.1) = r.samples :=
      List.filter_eq_self.mpr fun p hp => by have := (h.span p hp).1; simp; omega
    have hs : { s with oldest_time_ := t } = s := by rw [hto, ← hot]
    have hr : { r with oldest := some t } = r := by rw [hto, ← ho]
    rw [hf, hr]
    simp only [eraseLoop]
    rwa [hs]
  | succ n ih =>
    simp only [eraseLoop]
    split_ifs with hc
    · have h' := represents_popOldest h hb ho
      have hto : o + 1 ≤ t := by push_cast at ht; omega
      have := ih h' (hb.filter _) rfl (by push_cast at ht; omega) (by simp [h'.time])
      rwa [filter_filter_le _ hto] at this
    · have hn : r.samples = [] := by
        have h₁ := h.samples
        rw [not_and_or, hot] at hc
        refine List.eq_nil_of_length_eq_zero ?_
        push_cast at ht
        omega
      have := represents_jump h ho (by push_cast at ht; omega : o ≤ t) hn
      rwa [hn]

/-- **Culling.** -/
theorem represents_eraseTo (h : Represents W s r) (hb : Bounded r.samples) (t : ℤ) :
    Represents W (s.eraseTo t) (r.eraseTo t) := by
  unfold eraseTo Window.eraseTo
  rw [isInitialized_eq h.holds]
  cases ho : r.oldest with
  | none => simpa using h
  | some o =>
    have hot : s.oldest_time_ = o := by simp [h.time, ho]
    simp only [Option.isSome_some, Bool.not_true, Bool.false_eq_true, if_false, hot]
    by_cases hc : t ≤ o
    · rwa [if_pos hc, if_neg (by omega)]
    · rw [if_neg hc, if_pos (by omega)]
      exact represents_eraseLoop _ h hb ho (by omega)

theorem represents_eraseOld (h : Represents W s r) (hb : Bounded r.samples) (now : ℤ) :
    Represents W (s.eraseOld now) (r.eraseOld now) := by
  unfold eraseOld Window.eraseOld
  rw [h.window]
  exact represents_eraseTo h hb _

theorem startAt_frame (s : RateStatistics) (now : ℤ) :
    (s.startAt now).accumulated_count_ = s.accumulated_count_ ∧
      (s.startAt now).overflow_ = s.overflow_ := by
  unfold startAt
  split_ifs <;> exact ⟨rfl, rfl⟩

theorem represents_startAt (h : Represents W s r) {now : ℤ} (hnow : 0 ≤ now) :
    Represents W (s.startAt now) { r with oldest := some (r.oldest.getD now) } := by
  obtain ⟨haccumulated, hoverflow⟩ := startAt_frame s now
  exact (holds_startAt h.holds hnow).represents (haccumulated.trans h.accumulated)
    (hoverflow.trans h.overflow)

/-- **Entering a sample.** -/
theorem represents_addSample (h : Represents W s r) (hW : W < 2 ^ 31) {count now : ℤ}
    (hb : Bounded (r.samples ++ [(now, count)])) (hinit : r.oldest ≠ none)
    (h₁ : s.oldest_time_ ≤ now) (h₂ : now < s.oldest_time_ + W) :
    Represents W (s.addSample count now) { r with samples := r.samples ++ [(now, count)] } := by
  have hcount : 0 ≤ count := hb.nonneg (now, count) (by simp)
  have hnn : ∀ p ∈ r.samples, 0 ≤ p.2 := fun p hp => hb.nonneg p (by simp [hp])
  have htotal := total_nonneg hnn
  have htot : total r.samples + count < int64Max := by simpa [total] using hb.total_lt
  have hlen : (r.samples.length : ℤ) + 1 < intMax := by simpa using hb.length_lt
  obtain ⟨hm₁, hm₂⟩ := mass_sum_le hnn now
  have hacc := h.accumulated
  have hgrow : count < toInt64 (int64Max - s.accumulated_count_) := by
    rw [toInt64_of_mem] <;> (unfold int64Max at *; omega)
  refine (holds_addSample h.holds hW hcount hm₁ (by omega) hlen.le hinit h₁ h₂).represents ?_ ?_
  · simp only [addSample, hgrow, decide_true, if_true]
    rw [toInt64_of_mem] <;> simp [total] at * <;> (unfold int64Max at *; omega)
  · simpa [addSample, hgrow] using h.overflow

end RateStatistics

end RtcBase
