import RtcBase.Clear.Model

/-!
# What re-entrant calls keep

* `Cleared`, `Ready`: the handlers that a call leads to, and what is asked of the messages;
* `Inv`: what is in the stores, what was deleted, what has still to be cleared, and where the calls
  under way are;
* `Inv.deleted_le`, `Inv.calls_nodup`: nothing is deleted twice, and no handler cleared twice;
* **`Inv.advance`**, `Inv.push`, `Inv.pop`: the innermost call goes on, makes a call and returns.
-/

namespace RtcBase

open Heap Run

namespace Clear

variable {ι Handler Data : Type}

/-! ## Which handlers are cleared -/

section Inv

variable (message_queues_ : List ι) (clears : Data → List Handler)
  (queue : ι → Queue Handler Data) (handler : Handler)

/-- The handlers that `Clear` is called with, when it is called with `handler`. -/
inductive Cleared : Handler → Prop where
  | call : Cleared handler
  | owned {m : Message Handler Data} {h k : Handler} (hm : m ∈ held message_queues_ queue)
      (hh : Cleared h) (hmh : m.phandler = some h) (hk : k ∈ owned clears m) : Cleared k

/-- No handler has two owners; no data in a delayed message that will be deleted owns one. -/
structure Ready : Prop where
  queues : message_queues_.Nodup
  nodes : ∀ q, ((queue q).messages_.map Prod.fst).Nodup
  heaps : ∀ q, IsHeap DelayedMessage.lt (queue q).delayed_messages_
  owners : (handler :: (held message_queues_ queue).flatMap (owned clears)).Nodup
  delayed : ∀ q ∈ message_queues_, ∀ d ∈ (queue q).delayed_messages_, ∀ h,
    Cleared message_queues_ clears queue handler h → d.msg_.phandler = some h →
      owned clears d.msg_ = []

/-! ## What a step keeps -/

/-- The messages whose data is being deleted. -/
def State.inProgress (s : State ι Handler Data) : List (Message Handler Data) :=
  s.stack.filterMap fun c => c.deleting.map Prod.fst

/-- What the destructors have still to clear. -/
def State.pending (s : State ι Handler Data) : List Handler :=
  s.stack.flatMap fun c => c.deleting.elim [] Prod.snd

/-- A call under way: the queues behind it are free of its handler. -/
structure Call.Ok (queue : ι → Queue Handler Data) (c : Call ι Handler Data) : Prop where
  suffix : c.queues <:+ message_queues_
  free : ∀ q ∈ message_queues_, q ∉ c.queues → (queue q).Free c.handler
  none : c.queues = [] → c.deleting = none
  place : ∀ q rest, c.queues = q :: rest → At c.handler (queue q) c.deleting c.place

/-- **The invariant**: what is deleted and what is still held add up, no handler is called twice on
the stack, and every call is where it should be. -/
structure Inv (s : State ι Handler Data) : Prop where
  processing : s.processing_ = s.stack.length
  balance : (s.deleted ++ held message_queues_ s.queue).Perm
    (held message_queues_ queue ++ s.inProgress)
  owners : (s.calls ++ s.pending).Perm (handler :: s.deleted.flatMap (owned clears))
  cleared : ∀ h ∈ s.calls ++ s.pending, Cleared message_queues_ clears queue handler h
  handlers : (s.stack.map Call.handler).Nodup
  called : ∀ c ∈ s.stack, c.handler ∈ s.calls
  /-- A call that has made another one is deleting. -/
  below : ∀ c ∈ s.stack.tail, c.deleting ≠ none
  ok : ∀ c ∈ s.stack, c.Ok message_queues_ s.queue
  without : ∀ q, (queue q).Without s.calls (s.queue q)
  heaps : ∀ q, IsHeap DelayedMessage.lt (s.queue q).delayed_messages_
  outside : ∀ q ∉ message_queues_, s.queue q = queue q
  /-- A call that has returned has left nothing. -/
  done : ∀ h ∈ s.calls, h ∉ s.stack.map Call.handler → ∀ q ∈ message_queues_, (s.queue q).Free h

variable {message_queues_ clears queue handler}
variable {s s' : State ι Handler Data} {c c' : Call ι Handler Data}
  {below : List (Call ι Handler Data)} {q : ι} {rest : List ι}

theorem At.deleting {t : Queue Handler Data} {h : Handler} {x : Message Handler Data × List Handler}
    {place : Place} (hat : At h t (some x) place) : x.1 ∈ t.held ∧ x.1.phandler = some h := by
  cases place with
  | peek =>
    obtain ⟨hpeek, hfor⟩ := hat x rfl
    exact ⟨mem_held.mpr (.inl (by simp [hpeek])), hfor⟩
  | messages it =>
    obtain ⟨hfor, a, -, hmem⟩ := hat.2.2 x rfl
    exact ⟨mem_held.mpr (.inr (.inl ⟨_, hmem, rfl⟩)), hfor⟩
  | delayed it new_end => exact hat.elim

theorem Call.Ok.deleting (hc : c.Ok message_queues_ s.queue) {m : Message Handler Data}
    (hm : m ∈ c.deleting.map Prod.fst) :
    m ∈ held message_queues_ s.queue ∧ m.phandler = some c.handler := by
  obtain ⟨x, hx, rfl⟩ := Option.mem_map.mp hm
  cases hqs : c.queues with
  | nil =>
    rw [hc.none hqs] at hx
    cases hx
  | cons q rest =>
    have hat := hc.place q rest hqs
    rw [Option.mem_def.mp hx] at hat
    have hq : q ∈ message_queues_ := hc.suffix.subset (by simp [hqs])
    exact ⟨List.mem_flatMap.mpr ⟨q, hq, hat.deleting.1⟩, hat.deleting.2⟩

/-- Each message whose data is being deleted is still in its store. -/
theorem Inv.inProgress_le (hI : Inv message_queues_ clears queue handler s) :
    (s.inProgress : Multiset (Message Handler Data)) ≤ held message_queues_ s.queue := by
  have hnodup : s.inProgress.Nodup := by
    refine List.pairwise_filterMap.mpr ((List.pairwise_map.mp hI.handlers).imp_of_mem ?_)
    rintro c₁ c₂ hc₁ hc₂ hne m hm₁ m' hm₂ rfl
    have h₁ := ((hI.ok c₁ hc₁).deleting hm₁).2
    have h₂ := ((hI.ok c₂ hc₂).deleting hm₂).2
    exact hne (Option.some.inj (h₁.symm.trans h₂))
  refine (Multiset.le_iff_subset (Multiset.coe_nodup.mpr hnodup)).mpr fun m hm => ?_
  obtain ⟨c, hc, hcm⟩ := List.mem_filterMap.mp (Multiset.mem_coe.mp hm)
  exact ((hI.ok c hc).deleting hcm).1

theorem Inv.deleted_le (hI : Inv message_queues_ clears queue handler s) :
    (s.deleted : Multiset (Message Handler Data)) ≤ held message_queues_ queue := by
  have hbalance := Multiset.coe_eq_coe.mpr hI.balance
  rw [← Multiset.coe_add, ← Multiset.coe_add] at hbalance
  refine le_of_add_le_add_right (hbalance.le.trans ?_)
  exact add_le_add_right hI.inProgress_le _

theorem Inv.owners_le (hI : Inv message_queues_ clears queue handler s) :
    ((s.calls ++ s.pending : List Handler) : Multiset Handler) ≤
      (handler :: (held message_queues_ queue).flatMap (owned clears) : List Handler) := by
  rw [Multiset.coe_eq_coe.mpr hI.owners, ← Multiset.cons_coe, ← Multiset.cons_coe]
  refine Multiset.cons_le_cons _ ?_
  obtain ⟨rest, hrest⟩ := Multiset.le_iff_exists_add.mp hI.deleted_le
  rw [← Multiset.coe_bind, ← Multiset.coe_bind, hrest, Multiset.add_bind]
  exact Multiset.le_add_right _ _

theorem Inv.calls_nodup (hw : Ready message_queues_ clears queue handler)
    (hI : Inv message_queues_ clears queue handler s) : (s.calls ++ s.pending).Nodup :=
  Multiset.coe_nodup.mp (Multiset.nodup_of_le hI.owners_le (Multiset.coe_nodup.mpr hw.owners))

theorem Inv.nodes (hw : Ready message_queues_ clears queue handler)
    (hI : Inv message_queues_ clears queue handler s) (q : ι) :
    ((s.queue q).messages_.map Prod.fst).Nodup :=
  (hI.without q).messages.nodup (hw.nodes q)

variable [DecidableEq ι]

theorem held_update (queue : ι → Queue Handler Data) (hnodup : message_queues_.Nodup)
    (hq : q ∈ message_queues_) (t : Queue Handler Data) :
    (held message_queues_ (Function.update queue q t) ++ (queue q).held).Perm
      (held message_queues_ queue ++ t.held) := by
  induction message_queues_ with
  | nil => cases hq
  | cons r rest ih =>
    obtain ⟨hr, hrest⟩ := List.nodup_cons.mp hnodup
    simp only [held, List.flatMap_cons] at ih ⊢
    by_cases hrq : r = q
    · subst hrq
      have hsame : rest.flatMap (fun q => (Function.update queue r t q).held) =
          rest.flatMap fun q => (queue q).held :=
        List.flatMap_congr fun q hq => by
          rw [Function.update_of_ne fun h => hr (by rwa [← h])]
      rw [Function.update_self, hsame]
      refine Multiset.coe_eq_coe.mp ?_
      simp only [← Multiset.coe_add]
      abel
    · rw [Function.update_of_ne hrq, List.append_assoc, List.append_assoc]
      exact (ih hrest ((List.mem_cons.mp hq).resolve_left (Ne.symm hrq))).append_left _

omit [DecidableEq ι] in
theorem inProgress_cons (hs : s.stack = c :: below) :
    s.inProgress = (c.deleting.map Prod.fst).toList ++
      below.filterMap fun c => c.deleting.map Prod.fst := by
  rw [State.inProgress, hs]
  cases h : c.deleting <;> simp [h]

omit [DecidableEq ι] in
theorem pending_cons (hs : s.stack = c :: below) :
    s.pending =
      c.deleting.elim [] Prod.snd ++ below.flatMap fun c => c.deleting.elim [] Prod.snd := by
  rw [State.pending, hs, List.flatMap_cons]

theorem without_update {hs : List Handler} {queue : ι → Queue Handler Data} {t : Queue Handler Data}
    (h : (queue q).Without hs t) (r : ι) : (queue r).Without hs (Function.update queue q t r) := by
  by_cases hr : r = q
  · subst hr
    rwa [Function.update_self]
  · rw [Function.update_of_ne hr]
    exact .refl _

theorem Inv.advance (hw : Ready message_queues_ clears queue handler)
    (hI : Inv message_queues_ clears queue handler s) (hs : s.stack = c :: below)
    (hq : q ∈ message_queues_) {l : List (Message Handler Data)} {t : Queue Handler Data}
    (hhandler : c'.handler = c.handler) (hwithout : (s.queue q).Without [c.handler] t)
    (hbalance : (l ++ t.held ++ (c.deleting.map Prod.fst).toList).Perm
      ((s.queue q).held ++ (c'.deleting.map Prod.fst).toList))
    (hpending : c'.deleting.elim [] Prod.snd = l.flatMap (owned clears) ++
      c.deleting.elim [] Prod.snd)
    (hfor : ∀ m ∈ l, m ∈ (s.queue q).held ∧ m.phandler = some c.handler)
    (hheap : IsHeap DelayedMessage.lt t.delayed_messages_)
    (hok : c'.Ok message_queues_ (Function.update s.queue q t)) :
    Inv message_queues_ clears queue handler { s with
      queue := Function.update s.queue q t
      stack := c' :: below
      deleted := s.deleted ++ l } := by
  have hcalled : c.handler ∈ s.calls := hI.called c (by simp [hs])
  have hstep := without_update hwithout
  have hnodup := hI.handlers
  rw [hs, List.map_cons, List.nodup_cons] at hnodup
  constructor
  case processing => simpa [hs] using hI.processing
  case balance =>
    have hbefore := Multiset.coe_eq_coe.mpr hI.balance
    have hupdate := Multiset.coe_eq_coe.mpr (held_update s.queue hw.queues hq t)
    have hmove := Multiset.coe_eq_coe.mpr hbalance
    rw [inProgress_cons hs] at hbefore
    rw [inProgress_cons rfl]
    refine Multiset.coe_eq_coe.mp (add_right_cancel (b := ((s.queue q).held : Multiset _)) ?_)
    simp only [← Multiset.coe_add] at hbefore hupdate hmove ⊢
    rw [add_assoc, hupdate, add_add_add_comm, hbefore]
    have hcomm (a x y b z : Multiset (Message Handler Data)) : a + (x + b) + (y + z) =
        a + b + (y + z + x) := by
      abel
    rw [hcomm, hmove]
    abel
  case owners =>
    have howners := Multiset.coe_eq_coe.mpr hI.owners
    rw [pending_cons hs] at howners
    rw [pending_cons rfl, hpending, List.flatMap_append]
    refine Multiset.coe_eq_coe.mp ?_
    simp only [← Multiset.coe_add, ← Multiset.cons_coe] at howners ⊢
    rw [← Multiset.cons_add, ← howners]
    abel
  case cleared =>
    have hcleared := hI.cleared
    rw [pending_cons hs] at hcleared
    rw [pending_cons rfl, hpending]
    intro h hh
    simp only [List.mem_append, or_assoc] at hcleared hh
    rcases hh with hh | hh | hh
    · exact hcleared h (.inl hh)
    · obtain ⟨m, hm, hk⟩ := List.mem_flatMap.mp hh
      obtain ⟨hheld, hmh⟩ := hfor m hm
      exact .owned (List.mem_flatMap.mpr ⟨q, hq, (hI.without q).subset hheld⟩)
        (hcleared _ (.inl hcalled)) hmh hk
    · exact hcleared h (.inr hh)
  case handlers => simpa [hhandler] using hnodup
  case called =>
    have hbelow := hI.called
    rw [hs] at hbelow
    exact List.forall_mem_cons.mpr
      ⟨hhandler ▸ hcalled, fun c₂ hc₂ => hbelow c₂ (List.mem_cons_of_mem _ hc₂)⟩
  case below => simpa [hs] using hI.below
  case ok =>
    refine List.forall_mem_cons.mpr ⟨hok, fun c₂ hc₂ => ?_⟩
    have hc₂s : c₂ ∈ s.stack := by simp [hs, hc₂]
    obtain ⟨hsuffix, hfree, hnone, hplace⟩ := hI.ok c₂ hc₂s
    have hne : c.handler ≠ c₂.handler := by
      intro h
      exact hnodup.1 (h ▸ List.mem_map_of_mem hc₂)
    refine ⟨hsuffix, fun r hr hnot => (hfree r hr hnot).mono (hstep r), hnone, ?_⟩
    intro r rest hqs
    obtain ⟨x, hx⟩ := Option.ne_none_iff_exists'.mp (hI.below c₂ (by simp [hs, hc₂]))
    have hat := hplace r rest hqs
    rw [hx] at hat ⊢
    exact hat.mono hne (hstep r) (hI.nodes hw r)
  case without =>
    exact fun r => (hI.without r).trans ((hstep r).mono (by simpa using hcalled))
  case heaps =>
    intro r
    by_cases hr : r = q
    · subst hr
      simpa using hheap
    · simpa [Function.update_of_ne hr] using hI.heaps r
  case outside =>
    intro r hr
    have hrq : r ≠ q := by
      rintro rfl
      exact hr hq
    exact (Function.update_of_ne hrq _ _).trans (hI.outside r hr)
  case done =>
    intro h hh hnot r hr
    refine (hI.done h hh ?_ r hr).mono (hstep r)
    simpa [hs, hhandler] using hnot

omit [DecidableEq ι] in
theorem At.todo {t : Queue Handler Data} {h : Handler} {m : Message Handler Data}
    {hs hs' : List Handler} {place : Place} (hat : At h t (some (m, hs)) place) :
    At h t (some (m, hs')) place := by
  cases place with
  | peek => simpa [At] using hat
  | messages it => simpa [At] using hat
  | delayed it new_end => exact hat

omit [DecidableEq ι] in
/-- The destructor of the message that the innermost call is deleting makes a call. -/
theorem Inv.push (hw : Ready message_queues_ clears queue handler)
    (hI : Inv message_queues_ clears queue handler s) (hs : s.stack = c :: below)
    {m : Message Handler Data} {h : Handler} {todo : List Handler}
    (hdeleting : c.deleting = some (m, h :: todo)) :
    Inv message_queues_ clears queue handler
      ((s.go below { c with deleting := some (m, todo) }).clear message_queues_ h) := by
  have hnodup := hI.calls_nodup hw
  have hhandlers := hI.handlers
  have hcalled := hI.called
  have hbelow := hI.below
  have hok := hI.ok
  have hpending := pending_cons hs
  rw [hdeleting, Option.elim_some] at hpending
  rw [hpending] at hnodup
  rw [hs] at hhandlers hcalled hbelow hok
  have hh : h ∉ s.calls := fun hh => (List.nodup_append.mp hnodup).2.2 h hh h (by simp) rfl
  constructor
  case processing => simp [State.clear, State.go, hI.processing, hs]
  case balance =>
    have hbalance := hI.balance
    rw [inProgress_cons hs, hdeleting] at hbalance
    exact hbalance
  case owners =>
    have howners := hI.owners
    rw [hpending] at howners
    simpa [State.clear, State.go, State.pending] using howners
  case cleared =>
    have hcleared := hI.cleared
    rw [hpending] at hcleared
    simpa [State.clear, State.go, State.pending] using hcleared
  case handlers =>
    refine List.nodup_cons.mpr ⟨fun hmem => ?_, hhandlers⟩
    obtain ⟨c₂, hc₂, rfl⟩ := List.mem_map.mp hmem
    rcases List.mem_cons.mp hc₂ with rfl | hc₂
    · exact hh (hcalled c (by simp))
    · exact hh (hcalled c₂ (by simp [hc₂]))
  case called =>
    simp only [State.clear, State.go, List.forall_mem_cons, List.mem_append] at hcalled ⊢
    exact ⟨.inr (by simp), .inl hcalled.1, fun c₂ hc₂ => .inl (hcalled.2 c₂ hc₂)⟩
  case below => exact List.forall_mem_cons.mpr ⟨by simp, hbelow⟩
  case ok =>
    obtain ⟨⟨hsuffix, hfree, hnone, hplace⟩, hrest⟩ := List.forall_mem_cons.mp hok
    refine List.forall_mem_cons.mpr ⟨?_, List.forall_mem_cons.mpr ⟨?_, hrest⟩⟩
    · exact ⟨List.suffix_refl _, fun q hq hnot => absurd hq hnot, fun _ => rfl,
        fun q rest _ => by simp [At]⟩
    · refine ⟨hsuffix, hfree, fun hqs => ?_, fun q rest hqs => ?_⟩
      · rw [hnone hqs] at hdeleting
        cases hdeleting
      · have hat := hplace q rest hqs
        rw [hdeleting] at hat
        exact hat.todo
  case without => exact fun q => (hI.without q).mono (List.subset_append_left _ _)
  case heaps => exact hI.heaps
  case outside => exact hI.outside
  case done =>
    intro k hk hnot
    simp only [State.clear, State.go, List.map_cons, List.mem_cons, not_or, List.mem_append,
      List.not_mem_nil, or_false] at hk hnot
    refine hI.done k (hk.resolve_right hnot.1) ?_
    rw [hs]
    exact List.mem_cons.not.mpr (not_or.mpr hnot.2)

omit [DecidableEq ι] in
theorem Inv.pop (hI : Inv message_queues_ clears queue handler s) (hs : s.stack = c :: below)
    (hqueues : c.queues = []) :
    Inv message_queues_ clears queue handler
      { s with processing_ := s.processing_ - 1, stack := below } := by
  have hok := hI.ok
  have hcalled := hI.called
  have hhandlers := hI.handlers
  have hbelow := hI.below
  rw [hs] at hok hcalled hhandlers hbelow
  obtain ⟨hc, hrest⟩ := List.forall_mem_cons.mp hok
  have hnone := hc.none hqueues
  have hinProgress := inProgress_cons hs
  have hpending := pending_cons hs
  rw [hnone] at hinProgress hpending
  constructor
  case processing => simp [hI.processing, hs]
  case balance =>
    have hbalance := hI.balance
    rw [hinProgress] at hbalance
    exact hbalance
  case owners =>
    have howners := hI.owners
    rw [hpending] at howners
    exact howners
  case cleared =>
    have hcleared := hI.cleared
    rw [hpending] at hcleared
    exact hcleared
  case handlers => exact (List.nodup_cons.mp hhandlers).2
  case called => exact (List.forall_mem_cons.mp hcalled).2
  case below => exact fun c₂ hc₂ => hbelow c₂ (List.mem_of_mem_tail hc₂)
  case ok => exact hrest
  case without => exact hI.without
  case heaps => exact hI.heaps
  case outside => exact hI.outside
  case done =>
    intro h hh hnot q hq
    by_cases hch : h = c.handler
    · rw [hch]
      exact hc.free q hq (by simp [hqueues])
    · refine hI.done h hh ?_ q hq
      rw [hs]
      exact List.mem_cons.not.mpr (not_or.mpr ⟨hch, hnot⟩)

omit [DecidableEq ι] in
theorem inv_start (hw : Ready message_queues_ clears queue handler) :
    Inv message_queues_ clears queue handler
      ((start queue).clear message_queues_ handler) where
  processing := rfl
  balance := .of_eq (List.append_nil _).symm
  owners := .refl _
  cleared h hh := by
    obtain rfl : h = handler := by simpa [State.clear, start, State.pending] using hh
    exact .call
  handlers := List.nodup_singleton _
  called c hc := by
    obtain rfl := List.mem_singleton.mp hc
    exact List.mem_singleton_self _
  below c hc := by cases hc
  ok c hc := by
    obtain rfl := List.mem_singleton.mp hc
    exact ⟨List.suffix_refl _, fun q hq hnot => absurd hq hnot, fun _ => rfl,
      fun q rest _ => by simp [At]⟩
  without q := .refl _
  heaps := hw.heaps
  outside q _ := rfl
  done h hh hnot := absurd hh hnot

end Inv

end Clear

end RtcBase
