import RtcBase.Lib.Graph
import RtcBase.Lib.Run
import RtcBase.ThreadManager.Model

/-!
# No cycle of sends

* `targetsLoop_eq`: the loop is an exploration of this graph;
* `register_cases`: a send has not ended its loop, or the check tells what is reachable;
* `edge_insert`, `edge_remove`: what the calls do to the edges;
* **`send_graph_acyclic`**: the graph of every run has no cycle, and the check is exact.
-/

namespace RtcBase

open Graph

variable {T : Type} [LinearOrder T] {send_graph send_graph' : SendGraph T} {s t u : T}

namespace ThreadManager

/-! ## Entries -/

theorem edge_iff : Edge send_graph.targetsOf s t ↔ t ∈ (send_graph s).getD ∅ := by
  rw [Edge, SendGraph.targetsOf, Finset.mem_sort]

theorem at_fst (send_graph : SendGraph T) (t : T) :
    (send_graph.at t).1 = (send_graph t).getD ∅ := by
  unfold SendGraph.at
  cases send_graph t <;> rfl

theorem at_snd (send_graph : SendGraph T) (t : T) :
    (send_graph.at t).2.targetsOf = send_graph.targetsOf := by
  funext u
  unfold SendGraph.at SendGraph.targetsOf
  cases h : send_graph t with
  | some targets => rfl
  | none =>
    by_cases hu : u = t
    · subst hu
      simp only [Function.update_self, h, Option.getD_some, Option.getD_none]
    · simp only [Function.update_of_ne hu]

/-! ## The loop -/

/-- **The loop explores the send graph.** -/
theorem targetsLoop_eq (turns : ℕ) (send_graph : SendGraph T) (all_targets : List T) (i : ℕ) :
    (∃ send_graph' found, targetsLoop turns send_graph all_targets i = .ok (send_graph', found) ∧
      explore send_graph.targetsOf turns (all_targets.take i) (all_targets.drop i) = some found ∧
      send_graph'.targetsOf = send_graph.targetsOf) ∨
    (targetsLoop turns send_graph all_targets i = .error .turns ∧
      explore send_graph.targetsOf turns (all_targets.take i) (all_targets.drop i) = none) := by
  induction turns generalizing send_graph all_targets i with
  | zero =>
    rcases Nat.lt_or_ge i all_targets.length with hi | hi
    · right
      rw [List.drop_eq_getElem_cons hi, targetsLoop, if_pos hi]
      exact ⟨rfl, rfl⟩
    · left
      rw [List.drop_eq_nil_of_le hi, List.take_of_length_le hi, targetsLoop, if_neg (by omega)]
      exact ⟨_, _, rfl, rfl, rfl⟩
  | succ turns ih =>
    rcases Nat.lt_or_ge i all_targets.length with hi | hi
    · -- one turn of the loop is one turn of the exploration
      have h := ih (send_graph.at all_targets[i]).2
        (all_targets ++ send_graph.targetsOf all_targets[i]) (i + 1)
      rw [at_snd, List.take_append_of_le_length hi, List.drop_append_of_le_length hi,
        List.take_succ_eq_append_getElem hi] at h
      rw [List.drop_eq_getElem_cons hi, targetsLoop, dif_pos hi]
      simp only [at_fst]
      exact h
    · left
      rw [List.drop_eq_nil_of_le hi, List.take_of_length_le hi, targetsLoop, dif_neg (by omega)]
      exact ⟨_, _, rfl, rfl, rfl⟩

/-! ## The calls -/

theorem edge_insert (send_graph : SendGraph T) (s t a b : T) :
    Edge (SendGraph.targetsOf (Function.update (send_graph.at s).2 s
      (some (insert t (send_graph.at s).1)))) a b ↔
        Edge send_graph.targetsOf a b ∨ a = s ∧ b = t := by
  rw [edge_iff]
  by_cases ha : a = s
  · rw [ha, Function.update_self, Option.getD_some, Finset.mem_insert, at_fst, ← edge_iff]
    tauto
  · rw [Function.update_of_ne ha, ← edge_iff, at_snd]
    tauto

theorem edge_remove (m : ThreadManager T) (thread a b : T) :
    Edge (m.removeFromSendGraph thread).send_graph_.targetsOf a b ↔
      Edge m.send_graph_.targetsOf a b ∧ a ≠ thread ∧ b ≠ thread := by
  rw [edge_iff, edge_iff]
  unfold removeFromSendGraph
  by_cases ha : a = thread
  · simp [ha]
  · simp only [if_neg ha]
    cases m.send_graph_ a with
    | none => simp
    | some targets => simp [ha, and_comm]

variable {m m' : ThreadManager T} {source target : T} {turns : ℕ}

/-- The only change that a send makes is the edge from its source to its target. -/
structure Registered (m m' : ThreadManager T) (source target : T) : Prop where
  edges : ∀ a b, Edge m'.send_graph_.targetsOf a b ↔
    Edge m.send_graph_.targetsOf a b ∨ a = source ∧ b = target
  queues : m'.message_queues_ = m.message_queues_
  processing : m'.processing_ = m.processing_

/-- **A send**: the loop has not ended yet, or the check tells whether the target reaches the
source. -/
theorem register_cases (turns : ℕ) (m : ThreadManager T) (source target : T) :
    m.registerSendAndCheckForCycles turns source target = .error .turns ∧
      explore m.send_graph_.targetsOf turns [] [target] = none ∨
    m.registerSendAndCheckForCycles turns source target = .error .check ∧
      Reach m.send_graph_.targetsOf target source ∨
    ∃ m', m.registerSendAndCheckForCycles turns source target = .ok m' ∧
      ¬ Reach m.send_graph_.targetsOf target source ∧ Registered m m' source target := by
  obtain ⟨send_graph', found, hloop, hexplore, hsame⟩ | ⟨hloop, hexplore⟩ :=
    targetsLoop_eq turns m.send_graph_ [target] 0
  · right
    have hmem : source ∈ found ↔ Reach m.send_graph_.targetsOf target source := by
      rw [mem_explore hexplore]
      simp
    unfold registerSendAndCheckForCycles
    rw [hloop]
    by_cases hreach : Reach m.send_graph_.targetsOf target source
    · left
      have hcount : found.count source ≠ 0 :=
        (List.count_pos_iff.mpr (hmem.mpr hreach)).ne'
      refine ⟨?_, hreach⟩
      change ite _ _ _ = _
      rw [if_pos hcount]
      rfl
    · right
      have hcount : ¬ found.count source ≠ 0 :=
        not_not.mpr (List.count_eq_zero.mpr fun h => hreach (hmem.mp h))
      refine ⟨⟨m.message_queues_, m.processing_, Function.update (send_graph'.at source).2 source
        (some (insert target (send_graph'.at source).1))⟩, ?_, hreach, ?_, rfl, rfl⟩
      · change ite _ _ _ = _
        rw [if_neg hcount]
        rfl
      · intro a b
        rw [edge_insert, hsame]
  · left
    refine ⟨?_, hexplore⟩
    unfold registerSendAndCheckForCycles
    rw [hloop]
    rfl

/-- **Every call keeps the send graph without endless paths.** -/
theorem step_grounded (h : Grounded m.send_graph_.targetsOf) (c : Call T)
    (hstep : step m c = some m') : Grounded m'.send_graph_.targetsOf := by
  cases c with
  | addInternal message_queue =>
    rw [step, addInternal] at hstep
    split_ifs at hstep
    · cases hstep
    · cases hstep
      exact h
  | removeInternal message_queue =>
    rw [step, removeInternal] at hstep
    split_ifs at hstep
    · cases hstep
    · cases hstep
      exact grounded_mono h fun a b hab => ((edge_remove _ _ a b).mp hab).1
  | removeFromSendGraph thread =>
    cases hstep
    exact grounded_mono h fun a b hab => ((edge_remove _ _ a b).mp hab).1
  | registerSendAndCheckForCycles turns source target =>
    rw [step] at hstep
    obtain ⟨hreg, -⟩ | ⟨hreg, -⟩ | ⟨m₁, hreg, hreach, hm₁⟩ := register_cases turns m source target
    · rw [hreg] at hstep
      cases hstep
    · rw [hreg] at hstep
      cases hstep
    · rw [hreg] at hstep
      cases hstep
      exact grounded_insert h hreach fun a b => (hm₁.edges a b).mp

theorem grounded_new : Grounded (new : ThreadManager T).send_graph_.targetsOf := by
  refine ⟨⟨fun a => ⟨a, fun b hb => ?_⟩⟩⟩
  rw [edge_iff] at hb
  exact absurd hb (Finset.notMem_empty b)

/-- **No cycle of sends.** After every run of calls from the empty graph, the graph has no cycle;
the loop of a send ends; its check fails if and only if the source is the target or can be reached
from it; and if it passes, the edge from source to target is all that comes. -/
theorem send_graph_acyclic (calls : List (Call T))
    (h : Run.exec step (new : ThreadManager T) calls = some m) :
    (∀ t, ¬ Relation.TransGen (Edge m.send_graph_.targetsOf) t t) ∧
      ∀ source target, ∃ enough, ∀ turns ≥ enough,
        (Reach m.send_graph_.targetsOf target source ∧
          m.registerSendAndCheckForCycles turns source target = .error .check) ∨
        (¬ Reach m.send_graph_.targetsOf target source ∧
          ∃ m', m.registerSendAndCheckForCycles turns source target = .ok m' ∧
            Registered m m' source target) := by
  have hgrounded : Grounded m.send_graph_.targetsOf :=
    Run.invariant (fun m : ThreadManager T => Grounded m.send_graph_.targetsOf)
      (fun _ c _ hm => step_grounded hm c) grounded_new h
  refine ⟨irrefl_of_grounded hgrounded, fun source target =>
    ⟨(([target]).map (paths hgrounded)).sum, fun turns hturns => ?_⟩⟩
  obtain ⟨-, hnone⟩ | ⟨hreg, hreach⟩ | ⟨m', hreg, hreach, hm'⟩ :=
    register_cases turns m source target
  · obtain ⟨found, hfound⟩ := explore_returns hgrounded [] [target] hturns
    rw [hfound] at hnone
    cases hnone
  · exact .inl ⟨hreach, hreg⟩
  · exact .inr ⟨hreach, m', hreg, hm'⟩

/-- Thread 2 leaves the graph and comes back as a source, so that a send from 1 to 2 would close a
cycle through 0. -/
theorem send_graph_acyclic_sample :
    ∃ m, Run.exec step (new : ThreadManager ℕ)
        [.addInternal 0, .registerSendAndCheckForCycles 9 0 1,
          .registerSendAndCheckForCycles 9 1 2, .removeInternal 2,
          .registerSendAndCheckForCycles 9 2 0] = some m ∧
      (∀ t, ¬ Relation.TransGen (Edge m.send_graph_.targetsOf) t t) ∧
      ∃ turns, m.registerSendAndCheckForCycles turns 1 2 = .error .check := by
  have hrun : (Run.exec step (new : ThreadManager ℕ)
      [.addInternal 0, .registerSendAndCheckForCycles 9 0 1,
        .registerSendAndCheckForCycles 9 1 2, .removeInternal 2,
        .registerSendAndCheckForCycles 9 2 0]).any (fun m =>
      0 ∈ (m.send_graph_ 2).getD ∅ ∧ 1 ∈ (m.send_graph_ 0).getD ∅) = true := by decide +kernel
  obtain ⟨m, hm, hedges⟩ := (Option.any_eq_true _ _).mp hrun
  obtain ⟨h₂₀, h₀₁⟩ := of_decide_eq_true hedges
  obtain ⟨hcycle, hsend⟩ := send_graph_acyclic _ hm
  obtain ⟨enough, henough⟩ := hsend 1 2
  refine ⟨m, hm, hcycle, enough, ?_⟩
  obtain ⟨-, h⟩ | ⟨hreach, -⟩ := henough enough le_rfl
  · exact h
  · exact absurd (.head (edge_iff.mpr h₂₀) (.single (edge_iff.mpr h₀₁))) hreach

end ThreadManager

end RtcBase
