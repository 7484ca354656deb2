import RtcBase.Clear.Invariant
import RtcBase.Thread.Refine

/-!
# What a call of `ThreadManager::Clear` does with all calls inside it

* `State.measure`: the calls that can still be made, and the turns that are left;
* `reaches_swept`: the loop over the array of the delayed messages;
* `Inv.pass`, `Inv.delete`, `Inv.remove`, `Inv.sweep`: the turns, and **`Inv.progress`**;
* **`clear_ends`**: all calls together do what one pass without re-entrance would do;
* `lateData`: what happens when data in a delayed message calls `Clear`.
-/

namespace RtcBase

open Heap Run

namespace Clear

variable {ι Handler Data : Type}

section Inv

variable {message_queues_ : List ι} {clears : Data → List Handler}
  {queue : ι → Queue Handler Data} {handler : Handler}
variable {s s' : State ι Handler Data} {c c' : Call ι Handler Data}
  {below : List (Call ι Handler Data)} {q : ι} {rest : List ι} [DecidableEq ι]

/-! ## How far a call is -/

/-- The turns that are left in a queue, `deleting` if there is a `delete` under way. -/
def Queue.turns (t : Queue Handler Data) (deleting : Bool) : Place → ℕ
  | .peek => 2 * t.messages_.length + if deleting then 3 else 4
  | .messages none => 2
  | .messages (some it) => 2 * (t.from it).length + if deleting then 1 else 2
  | .delayed _ _ => 1

/-- How many steps a call has before it, at most. -/
def Call.work (queue : ι → Queue Handler Data) (c : Call ι Handler Data) : ℕ :=
  match c.queues with
  | [] => 1
  | q :: rest => 1 + (queue q).turns c.deleting.isSome c.place +
      (rest.map fun r => 2 * (queue r).messages_.length + 4).sum

variable (message_queues_ clears queue handler) in
/-- The calls that can still be made, and the work of those under way. -/
def State.measure (s : State ι Handler Data) : ℕ ×ₗ ℕ :=
  toLex (((held message_queues_ queue).flatMap (owned clears)).length + 1 - s.calls.length,
    (s.stack.map (Call.work s.queue)).sum)

omit [DecidableEq ι] in
theorem length_le {t t' : Queue Handler Data} {hs : List Handler} (ht : t.Without hs t') :
    t'.messages_.length ≤ t.messages_.length := by
  obtain ⟨p, hp, -⟩ := ht.messages
  rw [hp]
  exact List.length_filter_le _ _

omit [DecidableEq ι] in
theorem turns_le {t t' : Queue Handler Data} {hs : List Handler} (ht : t.Without hs t')
    (deleting : Bool) (place : Place) : t'.turns deleting place ≤ t.turns deleting place := by
  obtain ⟨p, hp, -⟩ := ht.messages
  have hfrom (it : ℕ) (l : List (ℕ × Message Handler Data)) :
      ((l.filter p).dropWhile fun n => n.1 ≠ it).length ≤
        (l.dropWhile fun n => n.1 ≠ it).length := by
    induction l with
    | nil => simp
    | cons n l ih =>
      by_cases hn : n.1 = it
      · have hle := (List.dropWhile_suffix (l := (n :: l).filter p)
          fun n => decide (n.1 ≠ it)).length_le
        rw [List.dropWhile_cons_of_neg (by simp [hn])]
        exact hle.trans (List.length_filter_le _ _)
      · rw [List.dropWhile_cons_of_pos (by simp [hn])]
        cases hpn : p n with
        | false => rwa [List.filter_cons_of_neg (by simp [hpn])]
        | true => rwa [List.filter_cons_of_pos hpn, List.dropWhile_cons_of_pos (by simp [hn])]
  cases place with
  | peek => exact Nat.add_le_add_right (Nat.mul_le_mul_left 2 (length_le ht)) _
  | messages it =>
    cases it with
    | none => exact le_refl _
    | some it =>
      refine Nat.add_le_add_right (Nat.mul_le_mul_left 2 ?_) _
      rw [Queue.from, Queue.from, hp]
      exact hfrom it t.messages_
  | delayed it new_end => exact le_refl _

omit [DecidableEq ι] in
theorem turns_head {t : Queue Handler Data} (before : List (ℕ × Message Handler Data))
    {rest : List (ℕ × Message Handler Data)} (hl : t.messages_ = before ++ rest)
    (hnodup : (t.messages_.map Prod.fst).Nodup) :
    t.turns false (.messages (rest.head?.map Prod.fst)) = 2 * rest.length + 2 := by
  cases rest with
  | nil => rfl
  | cons n rest => simp [Queue.turns, from_eq hl hnodup]

omit [DecidableEq ι] in
theorem work_le {queue' : ι → Queue Handler Data} {hs : List Handler}
    (h : ∀ q, (s.queue q).Without hs (queue' q)) (c : Call ι Handler Data) :
    c.work queue' ≤ c.work s.queue := by
  unfold Call.work
  cases c.queues with
  | nil => exact le_refl _
  | cons q rest =>
    refine Nat.add_le_add (Nat.add_le_add_left (turns_le (h q) _ _) 1) (List.sum_le_sum ?_)
    exact fun r _ => Nat.add_le_add_right (Nat.mul_le_mul_left 2 (length_le (h r))) 4

/-! ## The loop over the array -/

section Delayed

variable [DecidableEq Handler] (heap : StdHeap (@DelayedMessage.lt Handler Data))

/-- `Clear` of the queue is over: `kept` has stayed in the array, `gone` was deleted from it. -/
def State.swept (s : State ι Handler Data) (below : List (Call ι Handler Data))
    (c : Call ι Handler Data) (q : ι) (rest : List ι) (kept : List (DelayedMessage Handler Data))
    (gone : List (Message Handler Data)) : State ι Handler Data :=
  { s with
    queue := Function.update s.queue q
      { s.queue q with delayed_messages_ := heap.makeHeap kept }
    stack := { c with queues := rest, place := .peek, deleting := none } :: below
    deleted := s.deleted ++ gone }

/-- When the data deleted makes no calls, the loop over the array is one pass: up to `it`, what is
kept is before `new_end`. -/
theorem reaches_swept (message_queues_ : List ι) (hs : s.stack = c :: below)
    (hqueues : c.queues = q :: rest)
    (hdeleting : c.deleting = none) {it new_end : ℕ} (hplace : c.place = .delayed it new_end)
    (hnew_end : new_end ≤ it) (hit : it ≤ (s.queue q).delayed_messages_.length)
    (howned : ∀ d ∈ (s.queue q).delayed_messages_.drop it, d.msg_.phandler = some c.handler →
      owned clears d.msg_ = []) :
    Reaches (step heap message_queues_ clears) s
      (s.swept heap below c q rest
        ((s.queue q).delayed_messages_.take new_end ++
          ((s.queue q).delayed_messages_.drop it).filter
            fun d => d.msg_.phandler ≠ some c.handler)
        ((((s.queue q).delayed_messages_.drop it).filter
          fun d => d.msg_.phandler = some c.handler).map DelayedMessage.msg_)) := by
  induction hn : (s.queue q).delayed_messages_.length - it generalizing s c it new_end with
  | zero =>
    have hlength : it = (s.queue q).delayed_messages_.length := by omega
    have hget : (s.queue q).delayed_messages_[it]? = none := List.getElem?_eq_none hlength.ge
    refine .one (a := ()) ?_
    simp only [step, hs, hqueues, hdeleting, State.look, hplace, hget, if_pos hlength]
    rw [List.drop_eq_nil_of_le hlength.ge]
    simp [State.swept, State.set, State.go]
  | succ n ih =>
    have hlt : it < (s.queue q).delayed_messages_.length := by omega
    have hleft : (s.queue q).delayed_messages_.length - (it + 1) = n := by omega
    have hget := List.getElem?_eq_getElem hlt
    have hdrop := List.drop_eq_getElem_cons hlt
    generalize (s.queue q).delayed_messages_[it] = d at hget hdrop
    rw [hdrop] at howned ⊢
    obtain ⟨hd, hrest⟩ := List.forall_mem_cons.mp howned
    by_cases hfor : d.msg_.phandler = some c.handler
    · have hdelete : step heap message_queues_ clears s () =
          some (s.delete clears below c d.msg_) := by
        simp [step, hs, hqueues, hdeleting, State.look, hplace, hget, matches_any.mpr hfor]
      have hremove : step heap message_queues_ clears (s.delete clears below c d.msg_) () =
          some { s with
            stack := { c with place := .delayed (it + 1) new_end, deleting := none } :: below
            deleted := s.deleted ++ [d.msg_] } := by
        simp [step, State.delete, hqueues, hd hfor, State.remove, hplace, State.go]
      have hreaches := ih (s := { s with
          stack := { c with place := .delayed (it + 1) new_end, deleting := none } :: below
          deleted := s.deleted ++ [d.msg_] })
        (c := { c with place := .delayed (it + 1) new_end, deleting := none }) rfl hqueues rfl rfl
        (hnew_end.trans (Nat.le_succ it)) hlt hrest hleft
      refine .head hdelete (.head hremove ?_)
      simpa [State.swept, hfor] using hreaches
    · have hmatches : d.msg_.matches (some c.handler) mqidAny = false :=
        eq_false_of_ne_true fun h => hfor (matches_any.mp h)
      have hkeep : step heap message_queues_ clears s () = some ((s.set q { s.queue q with
            delayed_messages_ := (s.queue q).delayed_messages_.set new_end d }).go below
          { c with place := .delayed (it + 1) (new_end + 1) }) := by
        simp [step, hs, hqueues, hdeleting, State.look, hplace, hget, hmatches]
      have htake : ((s.queue q).delayed_messages_.set new_end d).take (new_end + 1) =
          (s.queue q).delayed_messages_.take new_end ++ [d] := by
        have hlength : ((s.queue q).delayed_messages_.take new_end).length = new_end :=
          List.length_take_of_le (hnew_end.trans hlt.le)
        rw [List.set_eq_take_append_cons_drop, if_pos (hnew_end.trans_lt hlt)]
        nth_rewrite 1 [← hlength]
        rw [List.take_length_add_append, List.take_succ_cons, List.take_zero]
      have hdropSet : ((s.queue q).delayed_messages_.set new_end d).drop (it + 1) =
          (s.queue q).delayed_messages_.drop (it + 1) :=
        List.drop_set_of_lt (Nat.lt_succ_of_le hnew_end)
      have hreaches := ih (s := (s.set q { s.queue q with
            delayed_messages_ := (s.queue q).delayed_messages_.set new_end d }).go below
          { c with place := .delayed (it + 1) (new_end + 1) })
        (c := { c with place := .delayed (it + 1) (new_end + 1) }) rfl hqueues hdeleting rfl
        (Nat.succ_le_succ hnew_end) (by simpa [State.go, State.set] using hlt)
        (by simpa [State.go, State.set, hdropSet] using hrest)
        (by simpa [State.go, State.set] using hleft)
      refine .head hkeep ?_
      simpa [State.go, State.set, State.swept, hfor, htake, hdropSet] using hreaches

end Delayed

/-! ## Whole calls -/

theorem Call.Ok.go (hc : c.Ok message_queues_ s.queue) (hqueues : c.queues = q :: rest)
    {t : Queue Handler Data} {place : Place}
    {deleting : Option (Message Handler Data × List Handler)}
    (hat : At c.handler t deleting place) :
    Call.Ok message_queues_ (Function.update s.queue q t)
      { c with place := place, deleting := deleting } where
  suffix := hc.suffix
  free r hr hnot := by
    have hrq : r ≠ q := by
      rintro rfl
      exact hnot (by simp [hqueues])
    rw [Function.update_of_ne hrq]
    exact hc.free r hr hnot
  none h := by simp [hqueues] at h
  place r rest' h := by
    obtain ⟨rfl, -⟩ := List.cons.inj (hqueues.symm.trans h)
    rwa [Function.update_self]

omit [DecidableEq ι] in
theorem measure_lt (hcalls : s'.calls = s.calls)
    (hstack : (s'.stack.map (Call.work s'.queue)).sum < (s.stack.map (Call.work s.queue)).sum) :
    s'.measure message_queues_ clears queue < s.measure message_queues_ clears queue := by
  rw [State.measure, State.measure, hcalls]
  exact Prod.Lex.right _ hstack

theorem Inv.go (hw : Ready message_queues_ clears queue handler)
    (hI : Inv message_queues_ clears queue handler s) (hs : s.stack = c :: below)
    (hqueues : c.queues = q :: rest) {l : List (Message Handler Data)} {t : Queue Handler Data}
    {place : Place} {deleting : Option (Message Handler Data × List Handler)}
    (hwithout : (s.queue q).Without [c.handler] t)
    (hbalance : (l ++ t.held ++ (c.deleting.map Prod.fst).toList).Perm
      ((s.queue q).held ++ (deleting.map Prod.fst).toList))
    (hpending : deleting.elim [] Prod.snd = l.flatMap (owned clears) ++
      c.deleting.elim [] Prod.snd)
    (hfor : ∀ m ∈ l, m ∈ (s.queue q).held ∧ m.phandler = some c.handler)
    (hheap : IsHeap DelayedMessage.lt t.delayed_messages_)
    (hat : At c.handler t deleting place)
    (hturns : t.turns deleting.isSome place < (s.queue q).turns c.deleting.isSome c.place)
    (hs' : s' = { s with
      queue := Function.update s.queue q t
      stack := { c with place := place, deleting := deleting } :: below
      deleted := s.deleted ++ l }) :
    Inv message_queues_ clears queue handler s' ∧
      s'.measure message_queues_ clears queue < s.measure message_queues_ clears queue := by
  subst hs'
  have hc := hI.ok c (by simp [hs])
  have hq : q ∈ message_queues_ := hc.suffix.subset (by simp [hqueues])
  refine ⟨hI.advance hw hs hq rfl hwithout hbalance hpending hfor hheap (hc.go hqueues hat),
    measure_lt rfl ?_⟩
  have hstep := without_update hwithout
  have hbelow : (below.map (Call.work (Function.update s.queue q t))).sum ≤
      (below.map (Call.work s.queue)).sum :=
    List.sum_le_sum fun c₂ _ => work_le hstep c₂
  have hrest : (rest.map fun r => 2 * (Function.update s.queue q t r).messages_.length + 4).sum ≤
      (rest.map fun r => 2 * (s.queue r).messages_.length + 4).sum :=
    List.sum_le_sum fun r _ => Nat.add_le_add_right (Nat.mul_le_mul_left 2 (length_le (hstep r))) 4
  simp only [hs, List.map_cons, List.sum_cons, Call.work, hqueues, Function.update_self]
  omega

section Progress

variable [DecidableEq Handler] (heap : StdHeap (@DelayedMessage.lt Handler Data))

/-- The innermost call is through with the list: the loop over the array, and the next queue. -/
theorem Inv.sweep (hw : Ready message_queues_ clears queue handler)
    (hI : Inv message_queues_ clears queue handler s) (hs : s.stack = c :: below)
    (hqueues : c.queues = q :: rest) (hdeleting : c.deleting = none)
    (hplace : c.place = .messages none) :
    ∃ s', Reaches (step heap message_queues_ clears) s s' ∧
      Inv message_queues_ clears queue handler s' ∧
      s'.measure message_queues_ clears queue < s.measure message_queues_ clears queue := by
  have hc := hI.ok c (by simp [hs])
  have hq : q ∈ message_queues_ := hc.suffix.subset (by simp [hqueues])
  have hat := hc.place q rest hqueues
  rw [hplace] at hat
  obtain ⟨hpeek, hmessages, -⟩ := hat
  have hcleared : Cleared message_queues_ clears queue handler c.handler :=
    hI.cleared _ (List.mem_append_left _ (hI.called c (by simp [hs])))
  have howned : ∀ d ∈ (s.queue q).delayed_messages_, d.msg_.phandler = some c.handler →
      owned clears d.msg_ = [] := by
    intro d hd hfor
    obtain ⟨l, hl, hwithout⟩ := (hI.without q).delayed
    exact hw.delayed q hq d (hwithout.subset (hl.mem_iff.mp hd)) _ hcleared hfor
  have hfirst : step heap message_queues_ clears s () =
      some (s.go below { c with place := .delayed 0 0 }) := by
    simp [step, hs, hqueues, hdeleting, State.look, hplace]
  have hreaches := reaches_swept heap message_queues_
    (s := s.go below { c with place := .delayed 0 0 })
    (c := { c with place := .delayed 0 0 }) (q := q) rfl hqueues hdeleting rfl (le_refl 0)
    (Nat.zero_le _) howned
  refine ⟨_, .head hfirst hreaches, ?_⟩
  simp only [State.go, State.swept, List.take_zero, List.nil_append, List.drop_zero]
  have hperm := List.filter_append_perm
    (fun d : DelayedMessage Handler Data => decide (d.msg_.phandler = some c.handler))
    (s.queue q).delayed_messages_
  generalize hgone : (s.queue q).delayed_messages_.filter (fun d =>
    d.msg_.phandler = some c.handler) = gone at hperm ⊢
  have hmem {d} (hd : d ∈ gone) : d ∈ (s.queue q).delayed_messages_ ∧
      d.msg_.phandler = some c.handler := by
    rw [← hgone] at hd
    simpa using hd
  have hkeep := heap.makeHeap_perm ((s.queue q).delayed_messages_.filter fun d =>
    d.msg_.phandler ≠ some c.handler)
  have hwithout : (s.queue q).Without [c.handler] { s.queue q with
      delayed_messages_ := heap.makeHeap ((s.queue q).delayed_messages_.filter fun d =>
        d.msg_.phandler ≠ some c.handler) } := by
    refine ⟨.refl _, .refl _, _, hkeep, _, rfl, fun d _ hd => ?_⟩
    exact ⟨c.handler, List.mem_singleton_self _, by simpa using hd⟩
  have hfree : Queue.Free c.handler { s.queue q with
      delayed_messages_ := heap.makeHeap ((s.queue q).delayed_messages_.filter fun d =>
        d.msg_.phandler ≠ some c.handler) } := by
    intro m hm
    obtain hm | ⟨n, hn, rfl⟩ | ⟨d, hd, rfl⟩ := mem_held.mp hm
    · exact hpeek m hm
    · exact hmessages n hn
    · simpa using (List.mem_filter.mp (hkeep.mem_iff.mp hd)).2
  have hnodup := hw.queues.sublist hc.suffix.sublist
  rw [hqueues, List.nodup_cons] at hnodup
  constructor
  · refine hI.advance hw hs hq rfl hwithout ?_ ?_ ?_ (heap.makeHeap_isHeap _)
      ⟨?_, ?_, fun _ => rfl, ?_⟩
    · have hsplit := Multiset.coe_eq_coe.mpr (hperm.map DelayedMessage.msg_)
      have hmade := Multiset.coe_eq_coe.mpr (hkeep.map DelayedMessage.msg_)
      refine Multiset.coe_eq_coe.mp ?_
      simp only [List.map_append, ← Multiset.coe_add] at hsplit
      simp only [ne_eq, decide_not] at hmade
      simp only [hdeleting, Queue.held, Queue.peeked, ← Multiset.coe_add, hmade, ← hsplit,
        Option.map_none, Option.toList_none, ne_eq, decide_not]
      abel
    · have hnil : (gone.map DelayedMessage.msg_).flatMap (owned clears) = [] := by
        refine List.flatMap_eq_nil_iff.mpr fun m hm => ?_
        obtain ⟨d, hd, rfl⟩ := List.mem_map.mp hm
        exact howned d (hmem hd).1 (hmem hd).2
      rw [hnil, hdeleting]
      rfl
    · intro m hm
      obtain ⟨d, hd, rfl⟩ := List.mem_map.mp hm
      exact ⟨mem_held.mpr (.inr (.inr ⟨d, (hmem hd).1, rfl⟩)), (hmem hd).2⟩
    · exact (List.suffix_cons q rest).trans (hqueues ▸ hc.suffix)
    · intro r hr hnot
      by_cases hrq : r = q
      · subst hrq
        rwa [Function.update_self]
      · rw [Function.update_of_ne hrq]
        exact hc.free r hr (by simp [hqueues, hrq, hnot])
    · exact fun r rest' _ => by simp [At]
  · refine measure_lt rfl ?_
    have hstep (r : ι) : (s.queue r).Without [c.handler] (Function.update s.queue q _ r) :=
      without_update hwithout r
    have hbelow := List.sum_le_sum fun c₂ (_ : c₂ ∈ below) => work_le hstep c₂
    have hnext := work_le hstep { c with queues := rest, place := .peek, deleting := none }
    have hwork : Call.work s.queue { c with queues := rest, place := .peek, deleting := none } <
        c.work s.queue := by
      simp only [Call.work, hqueues, hplace, hdeleting]
      cases rest with
      | nil => simp [Queue.turns]
      | cons r rest => simp [Queue.turns]; omega
    simp only [hs, List.map_cons, List.sum_cons]
    exact Nat.add_lt_add_of_lt_of_le (hnext.trans_lt hwork) hbelow

omit [DecidableEq Handler] in
theorem Inv.pass (hw : Ready message_queues_ clears queue handler)
    (hI : Inv message_queues_ clears queue handler s) (hs : s.stack = c :: below)
    (hqueues : c.queues = q :: rest) (hdeleting : c.deleting = none) {place : Place}
    (hat : At c.handler (s.queue q) none place)
    (hturns : (s.queue q).turns false place < (s.queue q).turns false c.place) :
    Inv message_queues_ clears queue handler (s.go below { c with place := place }) ∧
      (s.go below { c with place := place }).measure message_queues_ clears queue <
        s.measure message_queues_ clears queue := by
  refine hI.go hw hs hqueues (l := []) (t := s.queue q) (.refl _) (by simp [hdeleting])
    (by simp [hdeleting]) (by simp) (hI.heaps q) hat (by simpa [hdeleting]) ?_
  simp [State.go, hdeleting]

omit [DecidableEq Handler] in
theorem Inv.delete (hw : Ready message_queues_ clears queue handler)
    (hI : Inv message_queues_ clears queue handler s) (hs : s.stack = c :: below)
    (hqueues : c.queues = q :: rest) (hdeleting : c.deleting = none) {m : Message Handler Data}
    (hat : At c.handler (s.queue q) (some (m, owned clears m)) c.place)
    (hturns : (s.queue q).turns true c.place < (s.queue q).turns false c.place) :
    Inv message_queues_ clears queue handler (s.delete clears below c m) ∧
      (s.delete clears below c m).measure message_queues_ clears queue <
        s.measure message_queues_ clears queue := by
  refine hI.go hw hs hqueues (l := [m]) (t := s.queue q) (.refl _) ?_ (by simp [hdeleting])
    ?_ (hI.heaps q) hat (by simpa [hdeleting]) (by simp [State.delete])
  · simpa [hdeleting] using List.perm_append_singleton m (s.queue q).held |>.symm
  · simpa using hat.deleting

omit [DecidableEq Handler] in
theorem Inv.remove (hw : Ready message_queues_ clears queue handler)
    (hI : Inv message_queues_ clears queue handler s) (hs : s.stack = c :: below)
    (hqueues : c.queues = q :: rest) {m : Message Handler Data}
    (hdeleting : c.deleting = some (m, [])) :
    ∃ s', s.remove below c q = some s' ∧ Inv message_queues_ clears queue handler s' ∧
      s'.measure message_queues_ clears queue < s.measure message_queues_ clears queue := by
  have hat := (hI.ok c (by simp [hs])).place q rest hqueues
  have hnodup := hI.nodes hw q
  rw [hdeleting] at hat
  cases hplace : c.place with
  | peek =>
    rw [hplace] at hat
    obtain ⟨hpeek, hfor⟩ := hat (m, []) rfl
    have hwithout : (s.queue q).Without [c.handler] { s.queue q with fPeekKeep_ := false } := by
      refine ⟨⟨fun _ => false, by simp [Queue.peeked], fun x hx _ => ?_⟩, .refl _, _, .refl _,
        .refl _⟩
      rw [hpeek, List.mem_singleton] at hx
      exact ⟨c.handler, List.mem_singleton_self _, hx ▸ hfor⟩
    have hat' : At c.handler { s.queue q with fPeekKeep_ := false } none
        (.messages (s.queue q).begin) :=
      ⟨by simp [Queue.peeked], reached_append [] (by simp), by simp⟩
    refine ⟨(s.set q { s.queue q with fPeekKeep_ := false }).go below
      { c with place := .messages (s.queue q).begin, deleting := none },
      by simp [State.remove, hplace], ?_⟩
    refine hI.go hw hs hqueues (l := []) hwithout ?_ (by simp [hdeleting]) (by simp)
      (hI.heaps q) hat' ?_ (by simp [State.set, State.go])
    · rw [hdeleting, Queue.held, Queue.held, hpeek]
      change ([] ++ ([] ++ _ ++ _) ++ [m]).Perm ([m] ++ _ ++ _ ++ [])
      simpa only [List.nil_append, List.append_nil, List.cons_append] using
        List.perm_append_singleton m _
    · rw [hplace, hdeleting]
      have hhead := turns_head (t := { s.queue q with fPeekKeep_ := false }) []
        (List.nil_append _).symm hnodup
      exact hhead.trans_lt (by simp [Queue.turns])
  | messages it =>
    rw [hplace] at hat
    obtain ⟨hpeek, hreached, hfound⟩ := hat
    obtain ⟨hfor, a, rfl, hmem⟩ := hfound (m, []) rfl
    obtain ⟨before, n, rest', hl, hna, hbefore⟩ := hreached
    obtain rfl := List.inj_on_of_nodup_map hnodup (by simp [hl]) hmem hna
    have hfrom : (s.queue q).from a = (a, m) :: rest' := from_eq hl hnodup
    have herase := erase_eq hl hnodup
    have hwithout : (s.queue q).Without [c.handler] ((s.queue q).erase a) := by
      refine ⟨.refl _, ⟨fun n => n.1 ≠ a, rfl, fun x hx hxa => ?_⟩, _, .refl _, .refl _⟩
      obtain rfl := List.inj_on_of_nodup_map hnodup hx hmem (by simpa using hxa)
      exact ⟨c.handler, List.mem_singleton_self _, hfor⟩
    have hat' : At c.handler ((s.queue q).erase a) none (.messages ((s.queue q).next a)) := by
      refine ⟨hpeek, ?_, by simp⟩
      rw [herase, next_eq hl hnodup]
      exact reached_append before hbefore
    refine ⟨(s.set q ((s.queue q).erase a)).go below
      { c with place := .messages ((s.queue q).next a), deleting := none },
      by simp [State.remove, hplace, hfrom], ?_⟩
    refine hI.go hw hs hqueues (l := []) hwithout ?_ (by simp [hdeleting]) (by simp)
      (hI.heaps q) hat' ?_ (by simp [State.set, State.go])
    · rw [hdeleting, Queue.held, Queue.held, herase, hl]
      change ([] ++ ((s.queue q).peeked ++ _ ++ (s.queue q).delayed_messages_.map _) ++ [m]).Perm
        (_ ++ [])
      refine Multiset.coe_eq_coe.mp ?_
      simp only [List.map_append, List.map_cons, ← Multiset.coe_add, ← Multiset.cons_coe,
        ← Multiset.singleton_add, Multiset.coe_nil]
      abel
    · have hhead := turns_head before herase (hwithout.messages.nodup hnodup)
      rw [hplace, hdeleting, next_eq hl hnodup]
      refine hhead.trans_lt ?_
      simp only [Queue.turns, hfrom, List.length_cons, Option.isSome_some, if_true]
      omega
  | delayed it new_end =>
    rw [hplace] at hat
    exact hat.elim

theorem Inv.look (hw : Ready message_queues_ clears queue handler)
    (hI : Inv message_queues_ clears queue handler s) (hs : s.stack = c :: below)
    (hqueues : c.queues = q :: rest) (hdeleting : c.deleting = none) :
    ∃ s', Reaches (step heap message_queues_ clears) s s' ∧
      Inv message_queues_ clears queue handler s' ∧
      s'.measure message_queues_ clears queue < s.measure message_queues_ clears queue := by
  have hat := (hI.ok c (by simp [hs])).place q rest hqueues
  have hnodup := hI.nodes hw q
  rw [hdeleting] at hat
  have hstep : step heap message_queues_ clears s () = s.look heap clears below c q rest := by
    simp [step, hs, hqueues, hdeleting]
  cases hplace : c.place with
  | peek =>
    by_cases hfound : (s.queue q).fPeekKeep_ = true ∧
        (s.queue q).msgPeek_.phandler = some c.handler
    · have hpeek : (s.queue q).peeked = [(s.queue q).msgPeek_] := by
        simp [Queue.peeked, hfound.1]
      refine ⟨_, .one (a := ()) (hstep.trans ?_), hI.delete hw hs hqueues hdeleting
        (m := (s.queue q).msgPeek_) ?_ ?_⟩
      · simp [State.look, hplace, hfound.1, matches_any.mpr hfound.2]
      · simp [hplace, At, hpeek, hfound.2]
      · simp [hplace, Queue.turns]
    · have hnone : ∀ m ∈ (s.queue q).peeked, m.phandler ≠ some c.handler := by
        intro m hm
        by_cases hkeep : (s.queue q).fPeekKeep_ = true
        · obtain rfl : m = (s.queue q).msgPeek_ := by simpa [Queue.peeked, hkeep] using hm
          exact fun hfor => hfound ⟨hkeep, hfor⟩
        · simp [Queue.peeked, hkeep] at hm
      have hat' : At c.handler (s.queue q) none (.messages (s.queue q).begin) :=
        ⟨hnone, reached_append [] (by simp), by simp⟩
      refine ⟨_, .one (a := ()) (hstep.trans ?_), hI.pass hw hs hqueues hdeleting hat' ?_⟩
      · have hmatches : ¬ ((s.queue q).fPeekKeep_ &&
            (s.queue q).msgPeek_.matches (some c.handler) mqidAny) = true := by
          simpa [matches_any] using hfound
        simp only [State.look, hplace, if_neg hmatches]
      · have hhead := turns_head [] (List.nil_append _).symm hnodup
        rw [hplace]
        exact hhead.trans_lt (by simp [Queue.turns])
  | messages it =>
    rw [hplace] at hat
    obtain ⟨hpeek, hreached, -⟩ := hat
    cases it with
    | none => exact hI.sweep heap hw hs hqueues hdeleting hplace
    | some a =>
      obtain ⟨before, n, rest', hl, rfl, hbefore⟩ := hreached
      have hfrom := from_eq hl hnodup
      by_cases hfor : n.2.phandler = some c.handler
      · refine ⟨_, .one (a := ()) (hstep.trans ?_), hI.delete hw hs hqueues hdeleting
          (m := n.2) ?_ ?_⟩
        · simp [State.look, hplace, hfrom, matches_any.mpr hfor]
        · rw [hplace]
          refine ⟨hpeek, ⟨before, n, rest', hl, rfl, hbefore⟩, fun x hx => ?_⟩
          obtain rfl := Option.some.inj hx
          exact ⟨hfor, n.1, rfl, by simp [hl]⟩
        · simp [hplace, Queue.turns]
      · have hmatches : n.2.matches (some c.handler) mqidAny = false :=
          eq_false_of_ne_true fun h => hfor (matches_any.mp h)
        have hl' : (s.queue q).messages_ = (before ++ [n]) ++ rest' := by simp [hl]
        have hbefore' : ∀ x ∈ before ++ [n], x.2.phandler ≠ some c.handler := by
          intro x hx
          rcases List.mem_append.mp hx with hx | hx
          · exact hbefore x hx
          · exact List.mem_singleton.mp hx ▸ hfor
        have hat' : At c.handler (s.queue q) none (.messages ((s.queue q).next n.1)) := by
          refine ⟨hpeek, ?_, by simp⟩
          rw [next_eq hl hnodup, hl']
          exact reached_append _ hbefore'
        refine ⟨_, .one (a := ()) (hstep.trans ?_), hI.pass hw hs hqueues hdeleting hat' ?_⟩
        · simp [State.look, hplace, hfrom, hmatches]
        · have hhead := turns_head _ hl' hnodup
          rw [hplace, next_eq hl hnodup]
          refine hhead.trans_lt ?_
          simp [Queue.turns, hfrom]
  | delayed it new_end =>
    rw [hplace] at hat
    exact hat.elim

/-- **Progress.** From a state in which a call is under way, the thread gets nearer to its end. -/
theorem Inv.progress (hw : Ready message_queues_ clears queue handler)
    (hI : Inv message_queues_ clears queue handler s) (hstack : s.stack ≠ []) :
    ∃ s', Reaches (step heap message_queues_ clears) s s' ∧
      Inv message_queues_ clears queue handler s' ∧
      s'.measure message_queues_ clears queue < s.measure message_queues_ clears queue := by
  obtain ⟨c, below, hs⟩ := List.exists_cons_of_ne_nil hstack
  cases hqueues : c.queues with
  | nil =>
    refine ⟨_, .one (a := ()) ?_, hI.pop hs hqueues, measure_lt rfl ?_⟩
    · simp [step, hs, hqueues]
    · simp [hs, Call.work, hqueues]
  | cons q rest =>
    cases hdeleting : c.deleting with
    | none => exact hI.look heap hw hs hqueues hdeleting
    | some x =>
      obtain ⟨m, todo⟩ := x
      cases todo with
      | nil =>
        obtain ⟨s', hs', hI'⟩ := hI.remove hw hs hqueues hdeleting
        refine ⟨s', .one (a := ()) ?_, hI'⟩
        simpa [step, hs, hqueues, hdeleting] using hs'
      | cons h todo =>
        have hI' := hI.push hw hs hdeleting
        refine ⟨_, .one (a := ()) ?_, hI', ?_⟩
        · simp [step, hs, hqueues, hdeleting]
        · have hle := Multiset.card_le_card hI'.owners_le
          simp only [Multiset.coe_card, List.length_append, List.length_cons, State.clear, State.go,
            List.length_nil] at hle
          refine Prod.Lex.left _ _ ?_
          simp only [State.clear, State.go, List.length_append, List.length_cons, List.length_nil]
          omega

/-- **A call with the calls inside it is one pass.** The call ends. All calls together have cleared
each handler that is to be cleared once; the data of each message for one of them has been deleted
once, that of no other message, and the other messages are in their stores as before. -/
theorem clear_ends (hw : Ready message_queues_ clears queue handler) :
    ∃ s, Reaches (step heap message_queues_ clears)
        ((start queue).clear message_queues_ handler) s ∧
      s.stack = [] ∧ s.processing_ = 0 ∧
      s.calls.Nodup ∧ (∀ h, h ∈ s.calls ↔ Cleared message_queues_ clears queue handler h) ∧
      s.deleted.Perm ((held message_queues_ queue).filter fun m => IsFor s.calls m) ∧
      (∀ q ∈ message_queues_,
        (s.queue q).peeked = (queue q).peeked.filter (fun m => ¬ IsFor s.calls m) ∧
        (s.queue q).messages_ = (queue q).messages_.filter (fun n => ¬ IsFor s.calls n.2) ∧
        (s.queue q).delayed_messages_.Perm
          ((queue q).delayed_messages_.filter fun d => ¬ IsFor s.calls d.msg_) ∧
        IsHeap DelayedMessage.lt (s.queue q).delayed_messages_) ∧
      ∀ q ∉ message_queues_, s.queue q = queue q := by
  obtain ⟨s, hreaches, hI, hstack⟩ := Reaches.of_progress
    (Inv message_queues_ clears queue handler)
    (fun s => s.stack = []) (State.measure message_queues_ clears queue)
    (fun s hI hnot => hI.progress heap hw hnot) (inv_start hw)
  have hnodup := hI.calls_nodup hw
  have howners := hI.owners
  have hcleared := hI.cleared
  have hbalance := hI.balance
  simp only [State.pending, State.inProgress, hstack, List.flatMap_nil, List.filterMap_nil,
    List.append_nil] at hnodup howners hcleared hbalance
  have hfree : ∀ q ∈ message_queues_, ∀ m ∈ (s.queue q).held, ¬ IsFor s.calls m := by
    rintro q hq m hm ⟨h, hh, hmh⟩
    exact hI.done h hh (by simp [hstack]) q hq m hm hmh
  have hpeeked (q) (hq : q ∈ message_queues_) := (hI.without q).peeked.eq_filter
    fun m hm => hfree q hq m (mem_held.mpr (.inl hm))
  have hmessages (q) (hq : q ∈ message_queues_) := (hI.without q).messages.eq_filter
    fun n hn => hfree q hq n.2 (mem_held.mpr (.inr (.inl ⟨n, hn, rfl⟩)))
  have hdelayed (q) (hq : q ∈ message_queues_) : (s.queue q).delayed_messages_.Perm
      ((queue q).delayed_messages_.filter fun d => ¬ IsFor s.calls d.msg_) := by
    obtain ⟨l, hl, hwithout⟩ := (hI.without q).delayed
    rwa [hwithout.eq_filter fun d hd =>
      hfree q hq d.msg_ (mem_held.mpr (.inr (.inr ⟨d, hl.mem_iff.mpr hd, rfl⟩)))] at hl
  have hheld : (held message_queues_ s.queue).Perm
      ((held message_queues_ queue).filter fun m => ¬ IsFor s.calls m) := by
    rw [held, held, List.filter_flatMap]
    refine List.Perm.flatMap_left _ fun q hq => ?_
    rw [Queue.held, Queue.held, List.filter_append, List.filter_append, List.filter_map,
      List.filter_map, hpeeked q hq, hmessages q hq]
    exact ((hdelayed q hq).map _).append_left _
  have hdeleted : s.deleted.Perm ((held message_queues_ queue).filter fun m =>
      IsFor s.calls m) := by
    have hsplit := List.filter_append_perm (fun m => decide (IsFor s.calls m))
      (held message_queues_ queue)
    simp only [decide_not] at hheld
    exact (List.perm_append_right_iff _).mp
      ((hheld.append_left _).symm.trans (hbalance.trans hsplit.symm))
  refine ⟨s, hreaches, hstack, by simp [hI.processing, hstack], hnodup, fun h => ⟨hcleared h, ?_⟩,
    hdeleted, fun q hq => ⟨hpeeked q hq, hmessages q hq, hdelayed q hq, hI.heaps q⟩, hI.outside⟩
  intro hh
  induction hh with
  | call => exact howners.mem_iff.mpr List.mem_cons_self
  | owned hm hh hmh hk ih =>
    have hm' := hdeleted.mem_iff.mpr (List.mem_filter.mpr ⟨hm, by simpa using ⟨_, ih, hmh⟩⟩)
    exact howners.mem_iff.mpr (List.mem_cons_of_mem _ (List.mem_flatMap.mpr ⟨_, hm', hk⟩))

end Progress

end Inv

/-! ## A run -/

/-- A message for handler `h`, with data `d`. -/
def messageFor (h d : ℕ) : Message ℕ ℕ := { phandler := some h, pdata := some d }

/-- The message for handler 1 has data that owns handler 2, which has messages of its own. -/
def ownedHandler (_ : ℕ) : Queue ℕ ℕ where
  fPeekKeep_ := true
  msgPeek_ := messageFor 2 20
  messages_ := [(100, messageFor 1 10), (101, messageFor 2 21), (102, messageFor 3 30)]
  delayed_messages_ := [⟨0, 5, 0, messageFor 2 22⟩]

/-- Data 10 clears handler 2 when it is deleted. -/
def clearsTwo (d : ℕ) : List ℕ := if d = 10 then [2] else []

theorem clear_ends_sample :
    Ready [0] clearsTwo ownedHandler 1 ∧
      ∃ s, Reaches (step Thread.sortedHeap [0] clearsTwo) ((start ownedHandler).clear [0] 1) s ∧
        s.stack = [] ∧ 2 ∈ s.calls := by
  have hw : Ready [0] clearsTwo ownedHandler 1 := {
    queues := by decide
    nodes := fun _ => (by decide : [100, 101, 102].Nodup)
    heaps := fun _ i x y hi hx hy => by
      obtain ⟨hlt, -⟩ := List.getElem?_eq_some_iff.mp hy
      simp [ownedHandler] at hlt
      omega
    owners := by decide
    delayed := fun _ _ d hd _ _ _ => by
      simp only [ownedHandler, List.mem_singleton] at hd
      subst hd
      rfl }
  obtain ⟨s, hreaches, hstack, -, -, hcalls, -⟩ := clear_ends Thread.sortedHeap hw
  refine ⟨hw, s, hreaches, hstack, (hcalls 2).mpr ?_⟩
  exact .owned (m := messageFor 1 10) (by decide) .call rfl (by decide)

/-- The data of the last message owns handler 8, which has no messages at all. -/
def lateData (_ : ℕ) : Queue ℕ ℕ where
  fPeekKeep_ := false
  msgPeek_ := {}
  messages_ := []
  delayed_messages_ := [⟨0, 1, 0, messageFor 1 20⟩, ⟨0, 2, 1, messageFor 1 21⟩,
    ⟨0, 3, 2, messageFor 3 22⟩, ⟨0, 4, 3, messageFor 1 23⟩]

/-- Data 23 clears handler 8 when it is deleted. -/
def clearsEight (d : ℕ) : List ℕ := if d = 23 then [8] else []

-- The inner call puts the array in order while the outer one is at its end: of the two copies of
-- the message with data 22 none stays, and the one with data 21 does, which has been deleted.
example : (exec (step Thread.sortedHeap [0] clearsEight) ((start lateData).clear [0] 1)
    (List.replicate 20 ())).map (fun s => (s.stack.length, s.deleted.filterMap (·.pdata),
      (s.queue 0).delayed_messages_.filterMap (·.msg_.pdata))) =
    some (0, [20, 21, 23], [21]) := by
  decide +kernel

end Clear

end RtcBase
