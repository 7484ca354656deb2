import RtcBase.RateStatistics.Run

/-!
# Runs of `RateStatistics` with extra `Rate` calls

* `eraseTo_eraseTo`: culling twice is culling once;
* `Item`: the calls of a run, and extra `Rate` calls put between them;
* `Starts`: where the calls of a run alone, and where all of them, have moved the start of the
  window, computed from the arguments of the calls only;
* `Lags`: the run with the extra calls is the other one, culled further (`lags_step`);
* **`ownRates_eq_of_lags`**: the extra calls are invisible when the two starts agree at every
  `Rate` and every `Update` of the run, whatever the accumulators do.
-/

namespace RtcBase

open Word

namespace RateStatistics

/-! ## Culling twice -/

theorem eraseLoop_jump (n : ℕ) {t u : ℤ} (s : RateStatistics) (ht : t = s.oldest_time_ + n)
    (htu : t ≤ u) :
    { eraseLoop (u - t).toNat u { eraseLoop n t s with oldest_time_ := t } with
      oldest_time_ := u } =
    { eraseLoop (u - s.oldest_time_).toNat u s with oldest_time_ := u } := by
  induction n generalizing s with
  | zero =>
    have : { s with oldest_time_ := t } = s := by rw [ht]; simp
    rw [eraseLoop, this, ht]
    simp
  | succ n ih =>
    push_cast at ht
    rw [show (u - s.oldest_time_).toNat = (u - (s.oldest_time_ + 1)).toNat + 1 by omega]
    simp only [eraseLoop]
    have h₁ : s.oldest_time_ < t := by omega
    have h₂ : s.oldest_time_ < u := by omega
    by_cases hn : 0 < s.num_samples_
    · rw [if_pos ⟨hn, h₁⟩, if_pos ⟨hn, h₂⟩]
      exact ih s.popOldest (by simp [popOldest]; omega)
    · rw [if_neg (by tauto), if_neg (by tauto)]
      cases (u - t).toNat with
      | zero => rfl
      | succ m => simp [eraseLoop, hn]

theorem eraseLoop_window (n : ℕ) (t w : ℤ) (s : RateStatistics) :
    eraseLoop n t { s with current_window_size_ms_ := w } =
      { eraseLoop n t s with current_window_size_ms_ := w } := by
  induction n generalizing s with
  | zero => rfl
  | succ n ih =>
    simp only [eraseLoop]
    split_ifs
    · exact ih s.popOldest
    · rfl

theorem eraseLoop_consts (n : ℕ) (t : ℤ) (s : RateStatistics) :
    (eraseLoop n t s).max_window_size_ms_ = s.max_window_size_ms_ ∧
      (eraseLoop n t s).current_window_size_ms_ = s.current_window_size_ms_ ∧
      (eraseLoop n t s).scale_ = s.scale_ := by
  induction n generalizing s with
  | zero => exact ⟨rfl, rfl, rfl⟩
  | succ n ih =>
    simp only [eraseLoop]
    split_ifs
    · exact ih s.popOldest
    · exact ⟨rfl, rfl, rfl⟩

section EraseTo

variable (s : RateStatistics) (t u w : ℤ)

@[simp] theorem eraseTo_max : (s.eraseTo t).max_window_size_ms_ = s.max_window_size_ms_ := by
  unfold eraseTo
  split_ifs
  · rfl
  · rfl
  · exact (eraseLoop_consts _ t s).1

@[simp] theorem eraseTo_current :
    (s.eraseTo t).current_window_size_ms_ = s.current_window_size_ms_ := by
  unfold eraseTo
  split_ifs
  · rfl
  · rfl
  · exact (eraseLoop_consts _ t s).2.1

@[simp] theorem eraseTo_scale : (s.eraseTo t).scale_ = s.scale_ := by
  unfold eraseTo
  split_ifs
  · rfl
  · rfl
  · exact (eraseLoop_consts _ t s).2.2

theorem eraseTo_uninit (h : s.isInitialized = false) : s.eraseTo t = s := by
  simp [eraseTo, h]

theorem eraseTo_le (h : t ≤ s.oldest_time_) : s.eraseTo t = s := by
  simp [eraseTo, h]

theorem eraseTo_time (h : s.isInitialized = true) :
    (s.eraseTo t).oldest_time_ = max s.oldest_time_ t := by
  unfold eraseTo
  simp only [h, Bool.not_true, Bool.false_eq_true, if_false]
  split_ifs with hc
  · exact (max_eq_left hc).symm
  · exact (max_eq_right (not_le.mp hc).le).symm

theorem eraseTo_window :
    { s with current_window_size_ms_ := w }.eraseTo t =
      { s.eraseTo t with current_window_size_ms_ := w } := by
  have hi : isInitialized { s with current_window_size_ms_ := w } = s.isInitialized := rfl
  unfold eraseTo
  rw [hi]
  split_ifs
  · rfl
  · rfl
  · rw [eraseLoop_window]

/-- **Culling twice is culling once.** -/
theorem eraseTo_eraseTo (hs : -s.max_window_size_ms_ < s.oldest_time_) :
    (s.eraseTo t).eraseTo u = s.eraseTo (max t u) := by
  have hinit : s.isInitialized = true := by simp [isInitialized]; omega
  by_cases ht : t ≤ s.oldest_time_
  · rw [eraseTo_le s t ht]
    by_cases hu : u ≤ s.oldest_time_
    · rw [eraseTo_le s u hu, eraseTo_le s _ (max_le ht hu)]
    · rw [max_eq_right (by omega)]
  · have htime : (s.eraseTo t).oldest_time_ = t := by
      rw [eraseTo_time s t hinit, max_eq_right (by omega)]
    by_cases hu : u ≤ t
    · rw [eraseTo_le _ u (by omega), max_eq_left hu]
    · have hinit' : (s.eraseTo t).isInitialized = true := by
        simp [isInitialized, htime]; omega
      rw [max_eq_right (by omega), eraseTo, hinit', htime, eraseTo, hinit, eraseTo, hinit]
      simp only [Bool.not_true, Bool.false_eq_true, if_false]
      rw [if_neg hu, if_neg ht, if_neg (by omega)]
      exact eraseLoop_jump _ s (by omega) (by omega)

end EraseTo

/-! ## Runs with extra `Rate` calls -/

/-- A call of the run, or an extra `Rate`. -/
inductive Item where
  | own (op : Op)
  | extra (now_ms : ℤ)
  deriving DecidableEq, Repr

namespace Item

/-- The call that an item is. -/
def op : Item → Op
  | .own op => op
  | .extra now => .rate now

/-- The call, if it is one of the program without the extra ones. -/
def own? : Item → Option Op
  | .own op => some op
  | .extra _ => none

/-- The time at which a call is made. -/
def time (i : Item) : Option ℤ := i.op.time

end Item

/-- What every `Rate` call of a run sees, and what it returns. -/
def rates : RateStatistics → List Op → List (Seen × Option ℤ)
  | _, [] => []
  | s, .rate now :: ops => ((s.eraseOld now).seen now, (s.rate now).1) :: rates (s.rate now).2 ops
  | s, op :: ops => rates (s.apply op) ops

/-- The same in a run with extra `Rate` calls, of the calls that are not extra. -/
def ownRates : RateStatistics → List Item → List (Seen × Option ℤ)
  | _, [] => []
  | s, .own (.rate now) :: is =>
    ((s.eraseOld now).seen now, (s.rate now).1) :: ownRates (s.rate now).2 is
  | s, i :: is => ownRates (s.apply i.op) is

/-- Where the window starts: as moved by the calls of the run alone, and as moved by all calls.
Both are `none` before the first `Update`. -/
structure Starts where
  window : ℤ
  own : Option ℤ
  all : Option ℤ
  deriving DecidableEq, Repr

/-- A culled time moves forward only. -/
def raise (o : Option ℤ) (t : ℤ) : Option ℤ := o.map (max · t)

theorem raise_of_eq {o : Option ℤ} {x : ℤ} (h : o = some x) (t : ℤ) :
    raise o t = some (max x t) := by
  rw [h]; rfl

namespace Starts

/-- Nothing has been accepted. -/
def init (W : ℤ) : Starts := ⟨W, none, none⟩

/-- A call at `now` moves the start to `now - window + 1` if that is later; the first `Update`
sets it to `now`. -/
def step (W : ℤ) (b : Starts) : Item → Starts
  | .own (.update _ now) =>
    { b with
      own := some ((raise b.own (now - b.window + 1)).getD now)
      all := some ((raise b.all (now - b.window + 1)).getD now) }
  | .own (.rate now) =>
    { b with own := raise b.own (now - b.window + 1), all := raise b.all (now - b.window + 1) }
  | .own (.setWindowSize w now) =>
    if 1 ≤ w ∧ w ≤ W then ⟨w, raise b.own (now - w + 1), raise b.all (now - w + 1)⟩ else b
  | .own .reset => init W
  | .extra now => { b with all := raise b.all (now - b.window + 1) }

end Starts

/-- The calls at which the two starts have to agree: every `Rate`, and with `upd` every `Update`
as well. -/
def Item.observes (upd : Bool) : Item → Bool
  | .own (.rate _) => true
  | .own (.update _ _) => upd
  | _ => false

/-- At every observing call the calls of the run alone have moved the window as far as all calls
together. -/
def Covers (W : ℤ) (upd : Bool) : Starts → List Item → Prop
  | _, [] => True
  | b, i :: is =>
    (i.observes upd = true → (b.step W i).own = (b.step W i).all) ∧ Covers W upd (b.step W i) is

/-- The times of a run: not negative, and never going back. -/
def Timed : ℤ → List Item → Prop
  | _, [] => True
  | τ, i :: is => (∀ t ∈ i.time, τ ≤ t) ∧ Timed (i.time.getD τ) is

/-- The starts of a run whose last call was at `τ`. -/
structure Starts.Ok (W τ : ℤ) (b : Starts) : Prop where
  window : 1 ≤ b.window ∧ b.window ≤ W
  starts : (b.own = none ∧ b.all = none) ∨
    ∃ o a, b.own = some o ∧ b.all = some a ∧ -W < o ∧ o ≤ a ∧ a ≤ τ

theorem Starts.ok_step {W τ : ℤ} {b : Starts} (h : b.Ok W τ) (hτ : 0 ≤ τ) (i : Item)
    (hi : ∀ t ∈ i.time, τ ≤ t) : (b.step W i).Ok W (i.time.getD τ) := by
  obtain ⟨hw₁, hw₂⟩ := h.window
  cases i with
  | extra now =>
    have hn : τ ≤ now := hi now rfl
    refine ⟨h.window, ?_⟩
    rcases h.starts with ⟨ho, ha⟩ | ⟨o, a, ho, ha, h₁, h₂, h₃⟩
    · exact Or.inl ⟨ho, by simp [step, ha, raise]⟩
    · refine Or.inr ⟨o, _, ho, raise_of_eq ha _, h₁, ?_⟩
      change _ ∧ _ ≤ now
      omega
  | own op =>
    cases op with
    | update count now =>
      have hn : τ ≤ now := hi now rfl
      refine ⟨h.window, Or.inr ⟨_, _, rfl, rfl, ?_⟩⟩
      change _ ∧ _ ∧ _ ≤ now
      rcases h.starts with ⟨ho, ha⟩ | ⟨o, a, ho, ha, h₁, h₂, h₃⟩
      · simp [ho, ha, raise]; omega
      · simp [ho, ha, raise]; omega
    | rate now =>
      have hn : τ ≤ now := hi now rfl
      refine ⟨h.window, ?_⟩
      rcases h.starts with ⟨ho, ha⟩ | ⟨o, a, ho, ha, h₁, h₂, h₃⟩
      · exact Or.inl (by simp [step, ho, ha, raise])
      · refine Or.inr ⟨_, _, raise_of_eq ho _, raise_of_eq ha _, ?_⟩
        change _ ∧ _ ∧ _ ≤ now
        omega
    | setWindowSize w now =>
      have hn : τ ≤ now := hi now rfl
      simp only [step]
      split_ifs with hw
      · refine ⟨hw, ?_⟩
        rcases h.starts with ⟨ho, ha⟩ | ⟨o, a, ho, ha, h₁, h₂, h₃⟩
        · exact Or.inl (by simp [ho, ha, raise])
        · refine Or.inr ⟨_, _, raise_of_eq ho _, raise_of_eq ha _, ?_⟩
          change _ ∧ _ ∧ _ ≤ now
          omega
      · refine ⟨h.window, h.starts.imp_right ?_⟩
        rintro ⟨o, a, ho, ha, h₁, h₂, h₃⟩
        exact ⟨o, a, ho, ha, h₁, h₂, h₃.trans hn⟩
    | reset => exact ⟨⟨hw₁.trans hw₂, le_rfl⟩, Or.inl ⟨rfl, rfl⟩⟩

/-! ## The two runs as states -/

/-- The run with the extra calls is the run without them, culled up to `b.all`. -/
structure Lags (W : ℤ) (b : Starts) (s s' : RateStatistics) : Prop where
  max : s.max_window_size_ms_ = W
  current : s.current_window_size_ms_ = b.window
  none : b.own = none → s.oldest_time_ = -W ∧ s' = s
  some : ∀ o a, b.own = some o → b.all = some a → s.oldest_time_ = o ∧ s' = s.eraseTo a

/-- The state of the run without the extra calls. -/
def applyOwn (s : RateStatistics) : Item → RateStatistics
  | .own op => s.apply op
  | .extra _ => s

variable {W τ : ℤ} {b : Starts} {s s' : RateStatistics}

theorem lags_erase (h : Lags W b s s') (hok : b.Ok W τ) (t : ℤ) :
    Lags W { b with own := raise b.own t, all := raise b.all t } (s.eraseTo t)
      (s'.eraseTo t) where
  max := by rw [eraseTo_max]; exact h.max
  current := by rw [eraseTo_current]; exact h.current
  none ho := by
    rcases hok.starts with ⟨ho', _⟩ | ⟨o, a, ho', ha, _⟩
    · obtain ⟨h₁, h₂⟩ := h.none ho'
      have : s.isInitialized = false := by simp [isInitialized, h₁, h.max]
      rw [h₂, eraseTo_uninit s t this]
      exact ⟨h₁, rfl⟩
    · simp [raise, ho'] at ho
  some o' a' ho ha := by
    rcases hok.starts with ⟨ho', _⟩ | ⟨o, a, ho', ha', hWo, _⟩
    · simp [raise, ho'] at ho
    · obtain ⟨h₁, h₂⟩ := h.some o a ho' ha'
      have hlt : -s.max_window_size_ms_ < s.oldest_time_ := by rw [h.max, h₁]; exact hWo
      rw [raise_of_eq ho' t, Option.some.injEq] at ho
      rw [raise_of_eq ha' t, Option.some.injEq] at ha
      refine ⟨?_, ?_⟩
      · rw [eraseTo_time s t (by simp [isInitialized]; omega), h₁, ho]
      · rw [h₂, ← ha, eraseTo_eraseTo s a t hlt, eraseTo_eraseTo s t _ hlt]
        congr 1
        omega

theorem lags_eq (h : Lags W b s s') (hok : b.Ok W τ) (hc : b.own = b.all) : s = s' := by
  rcases hok.starts with ⟨ho, _⟩ | ⟨o, a, ho, ha, _⟩
  · exact (h.none ho).2.symm
  · obtain ⟨h₁, h₂⟩ := h.some o a ho ha
    rw [ho, ha, Option.some.injEq] at hc
    rw [h₂, eraseTo_le s a (by omega)]

theorem update_of_not_lt {count now : ℤ} (h : ¬ now < s.oldest_time_) :
    s.update count now = ((s.eraseOld now).startAt now).addSample count now := if_neg h

theorem update_consts (s : RateStatistics) (count now : ℤ) :
    (s.update count now).max_window_size_ms_ = s.max_window_size_ms_ ∧
      (s.update count now).current_window_size_ms_ = s.current_window_size_ms_ := by
  unfold update startAt eraseOld
  split_ifs <;> simp [addSample]

theorem lags_update (h : Lags W b s s') (hok : b.Ok W τ) (hτ : 0 ≤ τ) {count now : ℤ}
    (hn : τ ≤ now)
    (hc : (b.step W (.own (.update count now))).own = (b.step W (.own (.update count now))).all) :
    Lags W (b.step W (.own (.update count now))) (s.update count now) (s'.update count now) := by
  obtain ⟨hw₁, hw₂⟩ := hok.window
  have hcur : s.eraseOld now = s.eraseTo (now - b.window + 1) := by rw [eraseOld, h.current]
  have key : s.update count now = s'.update count now ∧
      (b.step W (.own (.update count now))).own = some (s.update count now).oldest_time_ := by
    rcases hok.starts with ⟨ho, _⟩ | ⟨o, a, ho, ha, hWo, hoa, haτ⟩
    · obtain ⟨h₁, h₂⟩ := h.none ho
      have hu : s.isInitialized = false := by simp [isInitialized, h₁, h.max]
      refine ⟨by rw [h₂], ?_⟩
      rw [update_of_not_lt (by omega), eraseOld, eraseTo_uninit _ _ hu]
      simp [Starts.step, ho, raise, startAt, hu, addSample]
    · obtain ⟨h₁, h₂⟩ := h.some o a ho ha
      have hlt : -s.max_window_size_ms_ < s.oldest_time_ := by rw [h.max, h₁]; exact hWo
      have hinit : s.isInitialized = true := by simp [isInitialized]; omega
      have htime := eraseTo_time s (now - b.window + 1) hinit
      have htime' : s'.oldest_time_ = a := by
        rw [h₂, eraseTo_time s a hinit, h₁, max_eq_right hoa]
      have hinit' : (s.eraseTo (now - b.window + 1)).isInitialized = true := by
        simp [isInitialized, htime]; omega
      have hsame : s'.eraseOld now = s.eraseOld now := by
        have hcur' : s'.current_window_size_ms_ = b.window := by
          rw [h₂, eraseTo_current, h.current]
        simp only [Starts.step, raise_of_eq ho, raise_of_eq ha, Option.getD_some,
          Option.some.injEq] at hc
        rw [eraseOld, hcur', hcur, h₂, eraseTo_eraseTo s _ _ hlt, ← hc,
          ← eraseTo_eraseTo s _ _ hlt, eraseTo_le s o (by omega)]
      refine ⟨?_, ?_⟩
      · rw [update_of_not_lt (by omega), update_of_not_lt (by omega), hsame]
      · rw [update_of_not_lt (by omega), hcur]
        simp only [startAt, hinit', if_true, addSample, htime, h₁]
        simp [Starts.step, ho, raise]
  obtain ⟨hm, hcw⟩ := update_consts s count now
  refine ⟨hm.trans h.max, hcw.trans h.current, fun ho => ?_, fun o a ho ha => ?_⟩
  · rw [key.2] at ho; cases ho
  · rw [hc, ha] at key
    rw [hc, ha, Option.some.injEq] at ho
    have : (s.update count now).oldest_time_ = a := (Option.some.inj key.2).symm
    exact ⟨this.trans ho, by rw [← key.1, eraseTo_le _ a this.ge]⟩

theorem setWindowSize_snd (hm : s.max_window_size_ms_ = W) (w now : ℤ) :
    (s.setWindowSize w now).2 =
      if 1 ≤ w ∧ w ≤ W then { s.eraseTo (now - w + 1) with current_window_size_ms_ := w }
      else s := by
  unfold setWindowSize
  by_cases hw : 1 ≤ w ∧ w ≤ W
  · rw [if_pos hw, if_neg (by omega)]
    exact eraseTo_window s _ w
  · rw [if_neg hw, if_pos (by omega)]

/-- **One call of the two runs.** -/
theorem lags_step (h : Lags W b s s') (hok : b.Ok W τ) (hτ : 0 ≤ τ) (i : Item)
    (hi : ∀ t ∈ i.time, τ ≤ t)
    (hc : i.observes true = true → (b.step W i).own = (b.step W i).all) :
    Lags W (b.step W i) (s.applyOwn i) (s'.apply i.op) := by
  have hcur' : s'.current_window_size_ms_ = b.window ∧ s'.max_window_size_ms_ = W := by
    rcases hok.starts with ⟨ho, _⟩ | ⟨o, a, ho, ha, _⟩
    · rw [(h.none ho).2]; exact ⟨h.current, h.max⟩
    · rw [(h.some o a ho ha).2, eraseTo_current, eraseTo_max]; exact ⟨h.current, h.max⟩
  cases i with
  | extra now =>
    simp only [applyOwn, Item.op, apply, rate, eraseOld, Starts.step, hcur'.1]
    refine ⟨h.max, h.current, fun ho => ?_, fun o a' ho ha => ?_⟩
    · obtain ⟨h₁, h₂⟩ := h.none ho
      exact ⟨h₁, by rw [h₂, eraseTo_uninit s _ (by simp [isInitialized, h₁, h.max])]⟩
    · rcases hok.starts with ⟨ho', _⟩ | ⟨o₁, a, ho', ha', hWo, _⟩
      · rw [ho'] at ho; cases ho
      · obtain ⟨h₁, h₂⟩ := h.some o₁ a ho' ha'
        rw [raise_of_eq ha', Option.some.injEq] at ha
        rw [ho', Option.some.injEq] at ho
        refine ⟨h₁.trans ho, ?_⟩
        rw [h₂, eraseTo_eraseTo s a _ (by rw [h.max, h₁]; exact hWo), ha]
  | own op =>
    cases op with
    | update count now => exact lags_update h hok hτ (hi now rfl) (hc rfl)
    | rate now =>
      simp only [applyOwn, Item.op, apply, rate, eraseOld, Starts.step, hcur'.1, h.current]
      exact lags_erase h hok _
    | setWindowSize w now =>
      simp only [applyOwn, Item.op, apply, Starts.step]
      rw [setWindowSize_snd h.max, setWindowSize_snd hcur'.2]
      split_ifs with hw
      · have he := lags_erase h hok (now - w + 1)
        refine ⟨he.max, rfl, fun ho => ⟨(he.none ho).1, by rw [(he.none ho).2]⟩,
          fun o a ho ha => ⟨(he.some o a ho ha).1, ?_⟩⟩
        rw [(he.some o a ho ha).2]
        exact (eraseTo_window (s.eraseTo (now - w + 1)) a w).symm
      · exact h
    | reset =>
      have hsc : s'.scale_ = s.scale_ := by
        rcases hok.starts with ⟨ho, _⟩ | ⟨o, a, ho, ha, _⟩
        · rw [(h.none ho).2]
        · rw [(h.some o a ho ha).2, eraseTo_scale]
      simp only [applyOwn, Item.op, apply, reset_eq_new, hcur'.2, h.max, hsc, Starts.step]
      exact ⟨rfl, rfl, fun _ => ⟨rfl, rfl⟩, fun o a ho => by cases ho⟩

theorem ownRates_eq_of_lags (is : List Item) (h : Lags W b s s') (hok : b.Ok W τ) (hτ : 0 ≤ τ)
    (ht : Timed τ is) (hc : Covers W true b is) :
    ownRates s' is = rates s (is.filterMap Item.own?) := by
  induction is generalizing s s' b τ with
  | nil => rfl
  | cons i is ih =>
    have hstep := lags_step h hok hτ i ht.1 hc.1
    have hok' := Starts.ok_step hok hτ i ht.1
    have hτ' : 0 ≤ i.time.getD τ := by
      cases hi : i.time with
      | none => exact hτ
      | some t => exact hτ.trans (ht.1 t hi)
    have hrest := ih hstep hok' hτ' ht.2 hc.2
    cases i with
    | extra now => exact hrest
    | own op =>
      cases op with
      | rate now =>
        -- after the cull the two states are the same, so this call sees the same in both
        have hsame : s.eraseOld now = s'.eraseOld now := lags_eq hstep hok' (hc.1 rfl)
        have hsc : s.scale_ = s'.scale_ := by
          have := congrArg RateStatistics.scale_ hsame
          simpa [eraseOld] using this
        have hsees : (s'.rate now).1 = (s.rate now).1 := by rw [rate, rate, hsame, hsc]
        change ((s'.eraseOld now).seen now, (s'.rate now).1) :: _ =
          ((s.eraseOld now).seen now, (s.rate now).1) :: _
        rw [hsame, hsees]
        exact congrArg _ hrest
      | update count now => exact hrest
      | setWindowSize w now => exact hrest
      | reset => exact hrest

end RateStatistics

end RtcBase
