import RtcBase.RateStatistics.Lag

/-!
# When `Rate` is invisible

`Rate` culls through a `const_cast`. `rate_statistics.h` says that no other call can tell, because
any later `Update` or `Rate` would have moved the window as much or more. A `SetWindowSize` that
enlarges the window breaks that (`rate_not_const`).

* `seen_of_represents`: what a `Rate` call sees, from the samples;
* `Thins`: without overflow the run with the extra calls keeps the later part of the samples
  (`thins_step`);
* **`rate_const_iff`**: the extra calls are invisible when the two starts agree at the calls that
  matter, and without overflow only then.
-/

namespace RtcBase

open Word

namespace RateStatistics

open Window

variable {W τ : ℤ} {b : Starts} {s s' : RateStatistics} {r r' : Window}

theorem seen_of_represents (h : Represents W s r) (now : ℤ) :
    s.seen now = ⟨total r.samples, r.samples.length, toInt32 (now - r.oldest.getD (-W) + 1), false,
      r.window⟩ := by
  rw [seen, h.accumulated, h.samples, h.time, h.overflow, h.window]

/-- The reference of the run with the extra calls keeps the samples from `b.all` on. -/
structure Thins (b : Starts) (r r' : Window) : Prop where
  own : r.oldest = b.own
  all : r'.oldest = b.all
  window : r.window = b.window ∧ r'.window = b.window
  none : b.all = none → r.samples = [] ∧ r'.samples = []
  some : ∀ a, b.all = some a → r'.samples = r.samples.filter (fun p => a ≤ p.1)

theorem eraseTo_filter_le (r : Window) {t u : ℤ} (h : t ≤ u) :
    (r.eraseTo t).samples.filter (fun p => u ≤ p.1) = r.samples.filter (fun p => u ≤ p.1) := by
  rcases eraseTo_samples (r := r) t with hs | hs
  · rw [hs]
  · rw [hs, filter_filter_le _ h]

theorem eraseTo_samples_some {a : ℤ} (h : r.oldest = some a) {l : List (ℤ × ℤ)}
    (hs : r.samples = l.filter (fun p => a ≤ p.1)) (t : ℤ) :
    (r.eraseTo t).samples = l.filter (fun p => max a t ≤ p.1) := by
  unfold Window.eraseTo
  simp only [h]
  split_ifs with hc
  · rw [max_eq_right hc.le, hs, filter_filter_le _ hc.le]
  · rw [max_eq_left (not_lt.mp hc), hs]

theorem eraseTo_oldest_raise (r : Window) (t : ℤ) : (r.eraseTo t).oldest = raise r.oldest t := by
  cases ho : r.oldest with
  | none => rw [eraseTo_none ho, ho]; rfl
  | some o => rw [eraseTo_oldest ho]; rfl

theorem own_eq_none (hok : b.Ok W τ) (h : b.all = none) : b.own = none := by
  rcases hok.starts with ⟨ho, -⟩ | ⟨o, a, -, ha, -⟩
  · exact ho
  · rw [h] at ha
    cases ha

theorem thins_erase (h : Thins b r r') (hok : b.Ok W τ) (t : ℤ) :
    Thins { b with own := raise b.own t, all := raise b.all t } (r.eraseTo t) (r'.eraseTo t) where
  own := by rw [eraseTo_oldest_raise, h.own]
  all := by rw [eraseTo_oldest_raise, h.all]
  window := by simpa using h.window
  none hnone := by
    have hall : b.all = none := Option.map_eq_none_iff.mp hnone
    rw [eraseTo_none (h.own.trans (own_eq_none hok hall)), eraseTo_none (h.all.trans hall)]
    exact h.none hall
  some a hsome := by
    obtain ⟨o, ho, rfl⟩ := Option.map_eq_some_iff.mp hsome
    rw [eraseTo_samples_some (h.all.trans ho) (h.some o ho), eraseTo_filter_le _ (le_max_right o t)]

theorem thins_extra (h : Thins b r r') (t : ℤ) :
    Thins { b with all := raise b.all t } r (r'.eraseTo t) where
  own := h.own
  all := by rw [eraseTo_oldest_raise, h.all]
  window := by simpa using h.window
  none hnone := by
    have hall : b.all = none := Option.map_eq_none_iff.mp hnone
    rw [eraseTo_none (h.all.trans hall)]
    exact h.none hall
  some a hsome := by
    obtain ⟨o, ho, rfl⟩ := Option.map_eq_some_iff.mp hsome
    exact eraseTo_samples_some (h.all.trans ho) (h.some o ho) t

/-- The reference of the run without the extra calls. -/
def ownWindow (W : ℤ) (r : Window) : Item → Window
  | .own op => r.apply W op
  | .extra _ => r

theorem thins_update (h : Thins b r r') (hok : b.Ok W τ) {count now : ℤ} (hn : τ ≤ now) :
    Thins (b.step W (.own (.update count now))) (r.update count now) (r'.update count now) := by
  have hle : ∀ o, b.own = some o ∨ b.all = some o → o ≤ now := by
    rintro o ho
    rcases hok.starts with ⟨h₁, h₂⟩ | ⟨x, y, h₁, h₂, -, h₄, h₅⟩
    · simp [h₁, h₂] at ho
    · simp only [h₁, h₂, Option.some.injEq] at ho
      omega
  have hin : ¬ ∃ o ∈ r.oldest, now < o := by
    rintro ⟨o, ho, hlt⟩
    exact absurd (hle o (Or.inl (h.own ▸ ho))) (by omega)
  have hin' : ¬ ∃ o ∈ r'.oldest, now < o := by
    rintro ⟨o, ho, hlt⟩
    exact absurd (hle o (Or.inr (h.all ▸ ho))) (by omega)
  have hw := hok.window.1
  have he := thins_erase h hok (now - b.window + 1)
  rw [Window.update, Window.update, if_neg hin, if_neg hin', Window.eraseOld, Window.eraseOld,
    h.window.1, h.window.2]
  refine ⟨by simp [Starts.step, he.own], by simp [Starts.step, he.all], he.window,
    by simp [Starts.step], fun a ha => ?_⟩
  -- the new sample is at `now`, on or after both starts
  have hkeep : a ≤ now ∧ (r'.eraseTo (now - b.window + 1)).samples =
      (r.eraseTo (now - b.window + 1)).samples.filter (fun p => a ≤ p.1) := by
    rcases hok.starts with ⟨h₁, h₂⟩ | ⟨x, y, h₁, h₂, -, -, h₅⟩
    · obtain ⟨e₁, e₂⟩ := he.none (by simp [raise, h₂])
      simp only [Starts.step, h₂, raise, Option.map_none, Option.getD_none,
        Option.some.injEq] at ha
      exact ⟨ha.ge, by rw [e₁, e₂]; rfl⟩
    · simp only [Starts.step, raise_of_eq h₂, Option.getD_some, Option.some.injEq] at ha
      exact ⟨by omega, he.some a (by rw [raise_of_eq h₂, ha])⟩
  simp only [List.filter_append, hkeep.2]
  simp [hkeep.1]

/-- **One call of the two references.** -/
theorem thins_step (h : Thins b r r') (hok : b.Ok W τ) (i : Item) (hi : ∀ t ∈ i.time, τ ≤ t) :
    Thins (b.step W i) (ownWindow W r i) (r'.apply W i.op) := by
  cases i with
  | extra now =>
    simp only [ownWindow, Item.op, Window.apply, Window.eraseOld, h.window.2]
    exact thins_extra h _
  | own op =>
    cases op with
    | update count now => exact thins_update h hok (hi now rfl)
    | rate now =>
      simp only [ownWindow, Item.op, Window.apply, Window.eraseOld, h.window.1, h.window.2]
      exact thins_erase h hok _
    | setWindowSize w now =>
      simp only [ownWindow, Item.op, Window.apply, Window.setWindowSize, Starts.step]
      split_ifs with hw
      · have hset : Thins { b with window := w } { r with window := w } { r' with window := w } :=
          ⟨h.own, h.all, ⟨rfl, rfl⟩, h.none, h.some⟩
        exact thins_erase (τ := τ) hset ⟨hw, hok.starts⟩ (now - w + 1)
      · exact h
    | reset => exact ⟨rfl, rfl, ⟨rfl, rfl⟩, fun _ => ⟨rfl, rfl⟩, fun a ha => by cases ha⟩

theorem thins_le (h : Thins b r r') (hb : Bounded r.samples) :
    Bounded r'.samples ∧ total r'.samples ≤ total r.samples ∧
      r'.samples.length ≤ r.samples.length := by
  cases ha : b.all with
  | none =>
    obtain ⟨e₁, e₂⟩ := h.none ha
    rw [e₂, ← e₁]
    exact ⟨hb, le_rfl, le_rfl⟩
  | some a =>
    rw [h.some a ha]
    exact ⟨hb.filter _, total_filter_le hb.nonneg _, List.length_filter_le _ _⟩

/-- After a `Rate` at `now` both starts lie in the window that ends at `now`, and the two objects
look the same exactly when the starts do. -/
theorem seen_eq_iff (h : Represents W s r) (h' : Represents W s' r') (ht : Thins b r r')
    (hW : W < 2 ^ 31) {now : ℤ} (hok : b.Ok W now) (hcull : ∀ o ∈ b.own, now - b.window + 1 ≤ o) :
    s.seen now = s'.seen now ↔ b.own = b.all := by
  have hw := hok.window
  rw [seen_of_represents h, seen_of_represents h', Seen.mk.injEq, ht.own, ht.all]
  rcases hok.starts with ⟨ho, ha⟩ | ⟨o, a, ho, ha, -, hoa, han⟩
  · obtain ⟨e₁, e₂⟩ := ht.none ha
    simp [e₁, e₂, ho, ha, ht.window]
  · have hc := hcull o ho
    have hspan : ∀ x, o ≤ x → x ≤ now → toInt32 (now - x + 1) = now - x + 1 := fun x h₁ h₂ =>
      toInt32_of_mem (by omega) (by unfold intMax; omega)
    rw [ho, ha, Option.getD_some, Option.getD_some, hspan o le_rfl (hoa.trans han),
      hspan a hoa han, Option.some.injEq]
    constructor
    · rintro ⟨-, -, h₁, -⟩
      omega
    · rintro rfl
      have hall : r'.samples = r.samples := by
        rw [ht.some o ha]
        refine List.filter_eq_self.mpr fun p hp => ?_
        have := (h.span p hp).1
        rw [h.time, ht.own, ho, Option.getD_some] at this
        simpa using this
      rw [hall, ht.window.1, ht.window.2]
      exact ⟨rfl, rfl, rfl, rfl, rfl⟩

/-! ## The two runs -/

theorem apply_scale (s : RateStatistics) (op : Op) : (s.apply op).scale_ = s.scale_ := by
  cases op with
  | update count now =>
    simp only [apply, update]
    split_ifs
    · rfl
    · have hstart : ((s.eraseOld now).startAt now).scale_ = (s.eraseOld now).scale_ := by
        unfold startAt
        split_ifs <;> rfl
      exact hstart.trans (eraseTo_scale _ _)
  | rate now => exact eraseTo_scale _ _
  | setWindowSize w now =>
    simp only [apply, setWindowSize]
    split_ifs
    · rfl
    · exact eraseTo_scale _ _
  | reset => rfl

/-- Two runs, without and with the extra calls, whose samples fit the accumulators. -/
structure Apart (W τ : ℤ) (b : Starts) (s s' : RateStatistics) (r r' : Window) : Prop where
  ok : b.Ok W τ
  time : 0 ≤ τ
  represents : Represents W s r
  represents' : Represents W s' r'
  thins : Thins b r r'
  bounded : Bounded r.samples
  scale : s'.scale_ = s.scale_

theorem time_nonneg (hτ : 0 ≤ τ) {i : Item} (hi : ∀ t ∈ i.time, τ ≤ t) : 0 ≤ i.time.getD τ := by
  cases h : i.time with
  | none => exact hτ
  | some t => exact hτ.trans (hi t h)

theorem apart_extra (h : Apart W τ b s s' r r') {now : ℤ} (hn : τ ≤ now) :
    Apart W now (b.step W (.extra now)) s (s'.apply (.rate now)) r (r'.apply W (.rate now)) := by
  obtain ⟨hb', _, _⟩ := thins_le h.thins h.bounded
  have hi : ∀ t ∈ (Item.extra now).time, τ ≤ t := fun t ht => by cases ht; exact hn
  exact
  { ok := Starts.ok_step h.ok h.time (.extra now) hi
    time := h.time.trans hn
    represents := h.represents
    represents' := represents_eraseOld h.represents' hb' now
    thins := thins_step h.thins h.ok (.extra now) hi
    bounded := h.bounded
    scale := (apply_scale s' (.rate now)).trans h.scale }

theorem apart_own (h : Apart W τ b s s' r r') (hW : W < 2 ^ 31) {op : Op}
    (hi : ∀ t ∈ op.time, τ ≤ t) (hc : 0 ≤ op.count)
    (h₁ : total r.samples + op.count < int64Max)
    (h₂ : (r.samples.length : ℤ) + op.updates < intMax) :
    Apart W (op.time.getD τ) (b.step W (.own op)) (s.apply op) (s'.apply op) (r.apply W op)
      (r'.apply W op) := by
  obtain ⟨hb', h₃, h₄⟩ := thins_le h.thins h.bounded
  have hop : op.Nonneg := ⟨hc, fun t ht => h.time.trans (hi t ht)⟩
  exact
  { ok := Starts.ok_step h.ok h.time (.own op) hi
    time := time_nonneg h.time (i := .own op) hi
    represents := (represents_apply h.represents hW h.bounded hop h₁ h₂).1
    represents' := (represents_apply h.represents' hW hb' hop (by omega) (by omega)).1
    thins := thins_step h.thins h.ok (.own op) hi
    bounded := (bounded_apply h.bounded hop h₁ h₂).1
    scale := by rw [apply_scale, apply_scale, h.scale] }

/-- What an own `Rate` sees is the same in both runs exactly when the starts agree there. -/
theorem apart_rate (h : Apart W τ b s s' r r') (hW : W < 2 ^ 31) {now : ℤ} (hn : τ ≤ now) :
    ((s'.eraseOld now).seen now, (s'.rate now).1) = ((s.eraseOld now).seen now, (s.rate now).1) ↔
      (b.step W (.own (.rate now))).own = (b.step W (.own (.rate now))).all := by
  have hi : ∀ t ∈ (Item.own (.rate now)).time, τ ≤ t := fun t ht => by cases ht; exact hn
  obtain ⟨hb', _, _⟩ := thins_le h.thins h.bounded
  have hok : Starts.Ok W now (b.step W (.own (.rate now))) :=
    Starts.ok_step h.ok h.time (.own (.rate now)) hi
  have hcull : ∀ o ∈ (b.step W (.own (.rate now))).own, now - b.window + 1 ≤ o := by
    intro o ho
    cases hb : b.own with
    | none => simp [Starts.step, hb, raise] at ho
    | some x =>
      simp only [Starts.step, raise_of_eq hb, Option.mem_some_iff] at ho
      omega
  have hsee := seen_eq_iff (represents_eraseOld h.represents h.bounded now)
    (represents_eraseOld h.represents' hb' now)
    (thins_step h.thins h.ok (.own (.rate now)) hi) hW hok hcull
  rw [← hsee, Prod.mk.injEq]
  refine ⟨fun he => he.1.symm, fun he => ⟨he.symm, ?_⟩⟩
  rw [rate, rate, h.scale, he]

/-- A call that does not observe asks nothing of the starts. -/
theorem covers_quiet {upd : Bool} {i : Item} {is : List Item} (h : i.observes upd = false) :
    Covers W upd b (i :: is) ↔ Covers W upd (b.step W i) is := by
  simp [Covers, h]

theorem ownRates_iff (is : List Item) (h : Apart W τ b s s' r r') (hW : W < 2 ^ 31)
    (ht : Timed τ is) (hc : ∀ op ∈ is.filterMap Item.own?, 0 ≤ op.count)
    (h₁ : total r.samples + counts (is.filterMap Item.own?) < int64Max)
    (h₂ : (r.samples.length : ℤ) + samples (is.filterMap Item.own?) < intMax) :
    ownRates s' is = rates s (is.filterMap Item.own?) ↔ Covers W false b is := by
  induction is generalizing s s' r r' b τ with
  | nil => exact ⟨fun _ => trivial, fun _ => rfl⟩
  | cons i is ih =>
    cases i with
    | extra now =>
      have hrest := ih (apart_extra h (ht.1 now rfl)) ht.2 hc h₁ h₂
      exact hrest.trans (covers_quiet rfl).symm
    | own op =>
      simp only [List.filterMap_cons, Item.own?, List.mem_cons, forall_eq_or_imp] at hc
      simp only [List.filterMap_cons, Item.own?, counts, samples, List.map_cons,
        List.sum_cons] at h₁ h₂
      have hc₁ := hc.1
      have hc₂ : 0 ≤ (List.map Op.count (is.filterMap Item.own?)).sum :=
        List.sum_nonneg fun x hx => by
          obtain ⟨o, ho, rfl⟩ := List.mem_map.mp hx
          exact hc.2 o ho
      have hs₂ := samples_nonneg (is.filterMap Item.own?)
      unfold samples at hs₂
      have hop : op.Nonneg := ⟨hc₁, fun t htm => h.time.trans (ht.1 t htm)⟩
      have h₃ : total r.samples + op.count < int64Max := by omega
      have h₄ : (r.samples.length : ℤ) + op.updates < intMax := by omega
      obtain ⟨_, h₅, h₆⟩ := bounded_apply (W := W) h.bounded hop h₃ h₄
      have hrest := ih (apart_own h hW ht.1 hc₁ h₃ h₄) ht.2 hc.2
        (by change total (r.apply W op).samples + (List.map Op.count _).sum < _; omega)
        (by change ((r.apply W op).samples.length : ℤ) + (List.map Op.updates _).sum < _; omega)
      cases op with
      | rate now =>
        have hsee := apart_rate h hW (ht.1 now rfl)
        refine ⟨fun e => ?_, fun e => ?_⟩
        · obtain ⟨e₁, e₂⟩ := List.cons.inj e
          exact ⟨fun _ => hsee.mp e₁, hrest.mp e₂⟩
        · exact congrArg₂ List.cons (hsee.mpr (e.1 rfl)) (hrest.mpr e.2)
      | update count now =>
        exact hrest.trans (covers_quiet rfl).symm
      | setWindowSize w now =>
        exact hrest.trans (covers_quiet rfl).symm
      | reset => exact hrest.trans (covers_quiet rfl).symm

theorem starts_init_ok (h : 1 ≤ W) : (Starts.init W).Ok W 0 :=
  ⟨⟨h, le_rfl⟩, Or.inl ⟨rfl, rfl⟩⟩

/-- **When extra `Rate` calls are invisible.** It is enough that the calls of the run alone have
moved the window as far as all calls, at every `Rate` and every `Update`. While the accumulators
have room it is enough at every `Rate`, and needed there. -/
theorem rate_const_iff (hW : 1 ≤ W) (scale : Float32) (is : List Item) (ht : Timed 0 is) :
    (Covers W true (Starts.init W) is →
      ownRates (new W scale) is = rates (new W scale) (is.filterMap Item.own?)) ∧
    (W < 2 ^ 31 → (∀ op ∈ is.filterMap Item.own?, 0 ≤ op.count) →
      counts (is.filterMap Item.own?) < int64Max → samples (is.filterMap Item.own?) < intMax →
      (ownRates (new W scale) is = rates (new W scale) (is.filterMap Item.own?) ↔
        Covers W false (Starts.init W) is)) := by
  refine ⟨fun hc => ?_, fun hW' hc h₁ h₂ => ?_⟩
  · refine ownRates_eq_of_lags is ⟨rfl, rfl, fun _ => ⟨rfl, rfl⟩, fun o a ho => by cases ho⟩
      (starts_init_ok hW) le_rfl ht hc
  · have hnew := represents_new hW scale
    refine ownRates_iff is ⟨starts_init_ok hW, le_rfl, hnew, hnew, ⟨rfl, rfl, ⟨rfl, rfl⟩,
      fun _ => ⟨rfl, rfl⟩, fun a ha => by cases ha⟩, ?_, rfl⟩ hW' ht hc ?_ ?_
    · exact ⟨by simp [Window.init], by simp [Window.init, total, int64Max],
        by simp [Window.init, intMax]⟩
    · simpa [Window.init, total] using h₁
    · simpa [Window.init] using h₂

/-- An enlarged window, and a `Rate` before it. -/
def enlarged : List Item :=
  [.own (.setWindowSize 1 0), .own (.update 1 0), .own (.update 1 0), .extra 2,
    .own (.setWindowSize 4 2), .own (.rate 2)]

/-- With a window of 4 the two samples at time 0 are still there at time 2; the extra `Rate`,
made while the window was 1, has culled them. -/
theorem rate_not_const :
    ownRates (new 4 1) enlarged ≠ rates (new 4 1) (enlarged.filterMap Item.own?) := by
  intro h
  have := congrArg (List.map Prod.fst) h
  revert this
  decide

theorem rate_const_sample :
    ownRates (new 4 1) [.own (.update 3 5), .extra 6, .own (.rate 6)] =
      rates (new 4 1) [.update 3 5, .rate 6] :=
  ((rate_const_iff (by decide) 1 [.own (.update 3 5), .extra 6, .own (.rate 6)]
    (by simp [Timed, Item.time, Item.op, Op.time])).2 (by decide) (by decide) (by decide)
    (by decide)).mpr (by simp [Covers, Item.observes, Starts.step, Starts.init, raise])

end RateStatistics

end RtcBase
