import RtcBase.ThreadManager.SendGraph

/-!
# Sends between threads

Any number of threads call `Send` and `Post` on each other, also from handlers and from message
loops that handlers run. A thread has a `Thread` object or, as a plain thread of the system, none.
No thread quits. The way of one message from `Post` to `OnMessage` is a step.

* `Job`, `Frame`, `State`, `step`: the queues, what each thread is in, and what it can do;
* `Awaits`: a `Send` that has not been answered;
* `Inv`, `inv_step`: one job for each of them, and one edge of the send graph;
* `acyclic_of_dcheckIsOn`, `cyclic_step`: the check prevents a cycle of them, and one stays;
* `exists_nearer`, `can_answer`: without one there is always a thread that gets on;
* **`sends_return_iff`**: when all sends can return, in every state of every run.
-/

namespace RtcBase

open Graph Run

namespace Sends

/-- A message of a queue: from `Post`, or the `_SendMessage` of a thread. -/
inductive Job (T : Type) where
  | post
  | send (source : T)
  deriving DecidableEq, Repr

/-- What a thread is in. -/
inductive Frame (T : Type) where
  /-- `OnMessage`. -/
  | handler (job : Job T)
  /-- The wait of `Send`. -/
  | send (target : T)
  deriving DecidableEq, Repr

/-- The send graph, the queues, and what every thread is in. -/
structure State (T : Type) where
  manager : ThreadManager T
  messages_ : T → List (Job T)
  /-- The last one first. -/
  frames : T → List (Frame T)
  /-- The flag `ready` of the `Send` that the thread is in, or the status of its `done_event`. -/
  ready : T → Bool

variable {T : Type} [LinearOrder T]

/-- No thread does anything. -/
def init : State T where
  manager := .new
  messages_ _ := []
  frames _ := []
  ready _ := false

/-- The thread does not wait in `Send`. -/
def State.runs (s : State T) (t : T) : Bool :=
  match s.frames t with
  | .send _ :: _ => false
  | _ => true

/-- What may happen next. -/
inductive Act (T : Type) where
  | add (t : T)
  | remove (t : T)
  | post (source target : T)
  | send (source target : T) (turns : ℕ)
  /-- `Get` of a message. -/
  | get (t : T)
  /-- The end of `OnMessage`. -/
  | finish (t : T)
  /-- The end of the wait. -/
  | return (t : T)
  deriving DecidableEq, Repr

/-- A job is queued. -/
def State.push (s : State T) (t : T) (job : Job T) : State T :=
  { s with messages_ := Function.update s.messages_ t (s.messages_ t ++ [job]) }

/-- What a thread is in changes. -/
def State.setFrames (s : State T) (t : T) (frames : List (Frame T)) : State T :=
  { s with frames := Function.update s.frames t frames }

/-- The message is queued, and the source begins to wait. -/
def State.startSend (s : State T) (source target : T) (manager : ThreadManager T) : State T :=
  ({ s with
    manager := manager
    ready := Function.update s.ready source false }.push target (.send source)).setFrames source
      (.send target :: s.frames source)

/-- `RegisterSendAndCheckForCycles`, where `current_thread` is no null pointer. -/
def register (dcheckIsOn : Bool) (object : T → Bool) (s : State T) (source target : T)
    (turns : ℕ) : Option (ThreadManager T) :=
  if dcheckIsOn ∧ object source then
    ThreadManager.step s.manager (.registerSendAndCheckForCycles turns source target)
  else some s.manager

/-- A removed thread is in nothing and has no messages. -/
def step (dcheckIsOn : Bool) (object : T → Bool) (s : State T) : Act T → Option (State T)
  | .add t =>
    (ThreadManager.step s.manager (.addInternal t)).map fun manager =>
      { s with manager := manager }
  | .remove t =>
    if s.frames t = [] ∧ s.messages_ t = [] then
      (ThreadManager.step s.manager (.removeInternal t)).map fun manager =>
        { s with manager := manager }
    else none
  | .post source target =>
    if s.runs source ∧ object target then some (s.push target .post) else none
  | .send source target turns =>
    if s.runs source ∧ object target then
      -- the handler is called directly
      if source = target then some (s.setFrames source (.handler .post :: s.frames source))
      else (register dcheckIsOn object s source target turns).map (s.startSend source target)
    else none
  | .get t =>
    if s.runs t ∧ object t then
      match s.messages_ t with
      | [] => none
      | job :: messages => some ({ s with
          messages_ := Function.update s.messages_ t messages }.setFrames t
            (.handler job :: s.frames t))
    else none
  | .finish t =>
    match s.frames t with
    | .handler .post :: frames => some (s.setFrames t frames)
    | .handler (.send source) :: frames =>
      some ({ s with ready := Function.update s.ready source true }.setFrames t frames)
    | _ => none
  | .return t =>
    match s.frames t with
    | .send _ :: frames => if s.ready t then some (s.setFrames t frames) else none
    | _ => none

/-- A `Send` that has not been answered. -/
def State.Awaits (s : State T) (a b : T) : Prop :=
  (s.frames a).head? = some (.send b) ∧ s.ready a = false

instance (s : State T) (a b : T) : Decidable (s.Awaits a b) :=
  inferInstanceAs (Decidable (_ ∧ _))

/-- The messages of `a` that are in the queue of `b` or in one of its handlers. -/
def State.pending (s : State T) (a b : T) : ℕ :=
  (s.messages_ b).count (.send a) + (s.frames b).count (.handler (.send a))

/-- **The invariant**: a thread that waits has its message pending, and the check has put its edge
into a graph without cycles. -/
structure Inv (dcheckIsOn : Bool) (object : T → Bool) (s : State T) : Prop where
  pending : ∀ a b, s.pending a b = if s.Awaits a b then 1 else 0
  /-- A thread that waits does nothing else. -/
  onTop : ∀ t, ∀ f ∈ (s.frames t).tail, ∀ b, f ≠ .send b
  objects : ∀ t b, Frame.send b ∈ s.frames t → object b = true
  grounded : Grounded s.manager.send_graph_.targetsOf
  edges : dcheckIsOn = true → ∀ a b, object a = true → s.Awaits a b →
    Edge s.manager.send_graph_.targetsOf a b

variable {dcheckIsOn : Bool} {object : T → Bool} {s s' : State T} {a b t : T}

theorem inv_init : Inv dcheckIsOn object (init : State T) where
  pending a b := by simp [State.pending, State.Awaits, init]
  onTop _ _ hf := by simp [init] at hf
  objects _ _ hf := by simp [init] at hf
  grounded := ThreadManager.grounded_new
  edges _ _ _ _ h := by simp [State.Awaits, init] at h

/-! ## What the steps do to the waits -/

omit [LinearOrder T] in
theorem awaits_congr (hframes : s'.frames a = s.frames a) (hready : s'.ready a = s.ready a) :
    s'.Awaits a b ↔ s.Awaits a b := by
  unfold State.Awaits
  rw [hframes, hready]

omit [LinearOrder T] in
theorem not_awaits_of_runs (h : s.runs a = true) : ¬ s.Awaits a b := by
  rintro ⟨hhead, -⟩
  obtain ⟨frames, hframes⟩ := List.head?_eq_some_iff.mp hhead
  simp [State.runs, hframes] at h

theorem Inv.not_awaits_tail (h : Inv dcheckIsOn object s)
    (hframes : s'.frames t = (s.frames t).tail) : ¬ s'.Awaits t b := by
  rintro ⟨hhead, -⟩
  rw [hframes] at hhead
  exact h.onTop t _ (List.mem_of_mem_head? hhead) b rfl

theorem awaits_setFrames_of_ne (ha : a ≠ t) {frames : List (Frame T)} :
    (s.setFrames t frames).Awaits a b ↔ s.Awaits a b :=
  awaits_congr (Function.update_of_ne ha _ _) rfl

theorem pending_push (job : Job T) : (s.push t job).pending a b =
    s.pending a b + if b = t ∧ job = .send a then 1 else 0 := by
  unfold State.pending State.push
  by_cases hb : b = t
  · subst hb
    simp only [Function.update_self, List.count_append, List.count_singleton, true_and, beq_iff_eq]
    omega
  · simp [hb]

theorem pending_handler (job : Job T) :
    (s.setFrames t (.handler job :: s.frames t)).pending a b =
      s.pending a b + if b = t ∧ job = .send a then 1 else 0 := by
  unfold State.pending State.setFrames
  by_cases hb : b = t
  · subst hb
    simp only [Function.update_self, List.count_cons, beq_iff_eq, Frame.handler.injEq, true_and]
    omega
  · simp [hb]

theorem pending_send (target : T) :
    (s.setFrames t (.send target :: s.frames t)).pending a b = s.pending a b := by
  unfold State.pending State.setFrames
  by_cases hb : b = t
  · subst hb
    simp
  · simp [hb]

/-! ## The invariant -/

theorem Inv.keep (h : Inv dcheckIsOn object s) (hmanager : s'.manager = s.manager)
    (hawaits : ∀ a b, s'.Awaits a b ↔ s.Awaits a b)
    (hpending : ∀ a b, s'.pending a b = s.pending a b)
    (honTop : ∀ t, ∀ f ∈ (s'.frames t).tail, ∀ b, f ≠ .send b)
    (hobjects : ∀ t b, Frame.send b ∈ s'.frames t → Frame.send b ∈ s.frames t) :
    Inv dcheckIsOn object s' where
  pending a b := by rw [hpending, h.pending, if_congr (hawaits a b) rfl rfl]
  onTop := honTop
  objects t b ht := h.objects t b (hobjects t b ht)
  grounded := by
    rw [hmanager]
    exact h.grounded
  edges hon a b ha hab := by
    rw [hmanager]
    exact h.edges hon a b ha ((hawaits a b).mp hab)

omit [LinearOrder T] in
theorem runs_head (h : s.runs t = true) : ∀ b, (s.frames t).head? ≠ some (.send b) := by
  intro b hhead
  obtain ⟨frames, hframes⟩ := List.head?_eq_some_iff.mp hhead
  simp [State.runs, hframes] at h

theorem Inv.no_send (h : Inv dcheckIsOn object s) (ht : s.runs t = true) {f : Frame T}
    (hf : f ∈ s.frames t) (b : T) : f ≠ .send b := by
  cases hframes : s.frames t with
  | nil =>
    rw [hframes] at hf
    cases hf
  | cons f' frames =>
    have htail := h.onTop t
    rw [hframes] at hf htail
    obtain rfl | hf := List.mem_cons.mp hf
    · rintro rfl
      exact runs_head ht b (by rw [hframes]; rfl)
    · exact htail f hf b

theorem Inv.enter (h : Inv dcheckIsOn object s) (ht : s.runs t = true) (job : Job T)
    {messages_ : T → List (Job T)}
    (hpending : ∀ a b, ({ s with messages_ := messages_ }.setFrames t
      (.handler job :: s.frames t)).pending a b = s.pending a b) :
    Inv dcheckIsOn object ({ s with messages_ := messages_ }.setFrames t
      (.handler job :: s.frames t)) := by
  refine h.keep rfl (fun a b => ?_) hpending (fun u f hf b => ?_) fun u b hf => ?_
  · by_cases ha : a = t
    · subst ha
      refine iff_of_false ?_ (not_awaits_of_runs ht)
      rintro ⟨hhead, -⟩
      simp [State.setFrames] at hhead
    · exact awaits_setFrames_of_ne ha
  · by_cases hu : u = t
    · subst hu
      simp only [State.setFrames, Function.update_self, List.tail_cons] at hf
      exact h.no_send ht hf b
    · simp only [State.setFrames, Function.update_of_ne hu] at hf
      exact h.onTop u f hf b
  · by_cases hu : u = t
    · subst hu
      simpa [State.setFrames] using hf
    · simpa [State.setFrames, hu] using hf

theorem Inv.post (h : Inv dcheckIsOn object s) : Inv dcheckIsOn object (s.push t .post) :=
  h.keep rfl (fun _ _ => Iff.rfl) (fun a b => by simp [pending_push]) h.onTop fun _ _ hf => hf

theorem Inv.direct (h : Inv dcheckIsOn object s) (ht : s.runs t = true) :
    Inv dcheckIsOn object (s.setFrames t (.handler .post :: s.frames t)) :=
  h.enter ht .post fun a b => (pending_handler .post).trans (by simp)

theorem Inv.get (h : Inv dcheckIsOn object s) (ht : s.runs t = true) {job : Job T}
    {messages : List (Job T)} (hmessages : s.messages_ t = job :: messages) :
    Inv dcheckIsOn object ({ s with
      messages_ := Function.update s.messages_ t messages }.setFrames t
        (.handler job :: s.frames t)) := by
  refine h.enter ht job fun a b => ?_
  unfold State.pending State.setFrames
  by_cases hb : b = t
  · subst hb
    simp only [Function.update_self, hmessages, List.count_cons, beq_iff_eq, Frame.handler.injEq]
    omega
  · simp [hb]

theorem Inv.onTop_pop (h : Inv dcheckIsOn object s) {f : Frame T} {frames : List (Frame T)}
    (hframes : s.frames t = f :: frames) (u : T) (f' : Frame T)
    (hf' : f' ∈ (Function.update s.frames t frames u).tail) (b : T) : f' ≠ .send b := by
  by_cases hu : u = t
  · subst hu
    rw [Function.update_self] at hf'
    refine h.onTop u f' ?_ b
    rw [hframes]
    exact List.mem_of_mem_tail hf'
  · rw [Function.update_of_ne hu] at hf'
    exact h.onTop u f' hf' b

theorem objects_pop {f : Frame T} {frames : List (Frame T)} (hframes : s.frames t = f :: frames)
    (u b : T) (hb : Frame.send b ∈ Function.update s.frames t frames u) :
    Frame.send b ∈ s.frames u := by
  by_cases hu : u = t
  · subst hu
    rw [Function.update_self] at hb
    rw [hframes]
    exact List.mem_cons_of_mem f hb
  · rwa [Function.update_of_ne hu] at hb

theorem Inv.finishPost (h : Inv dcheckIsOn object s) {frames : List (Frame T)}
    (hframes : s.frames t = .handler .post :: frames) :
    Inv dcheckIsOn object (s.setFrames t frames) := by
  refine h.keep rfl (fun a b => ?_) (fun a b => ?_) (h.onTop_pop hframes) (objects_pop hframes)
  · by_cases ha : a = t
    · subst ha
      refine iff_of_false (h.not_awaits_tail ?_) (not_awaits_of_runs ?_)
      · simp [State.setFrames, hframes]
      · simp [State.runs, hframes]
    · exact awaits_setFrames_of_ne ha
  · unfold State.pending State.setFrames
    by_cases hb : b = t
    · subst hb
      simp [hframes]
    · simp [hb]

theorem Inv.returned (h : Inv dcheckIsOn object s) {target : T} {frames : List (Frame T)}
    (hframes : s.frames t = .send target :: frames) (hready : s.ready t = true) :
    Inv dcheckIsOn object (s.setFrames t frames) := by
  refine h.keep rfl (fun a b => ?_) (fun a b => ?_) (h.onTop_pop hframes) (objects_pop hframes)
  · by_cases ha : a = t
    · subst ha
      refine iff_of_false (h.not_awaits_tail ?_) fun hawaits => ?_
      · simp [State.setFrames, hframes]
      · exact Bool.false_ne_true (hawaits.2.symm.trans hready)
    · exact awaits_setFrames_of_ne ha
  · unfold State.pending State.setFrames
    by_cases hb : b = t
    · subst hb
      simp [hframes]
    · simp [hb]

/-- A job in a handler is one that its sender waits for. -/
theorem Inv.awaits_of_handler (h : Inv dcheckIsOn object s) {frames : List (Frame T)}
    (hframes : s.frames t = .handler (.send a) :: frames) : s.Awaits a t := by
  have hpending := h.pending a t
  by_contra hawaits
  rw [if_neg hawaits, State.pending, hframes, List.count_cons_self] at hpending
  omega

omit [LinearOrder T] in
theorem awaits_unique (hb : s.Awaits a b) {c : T} (hc : s.Awaits a c) : b = c := by
  have hhead := hb.1.symm.trans hc.1
  simpa using hhead

/-- **The answer** to a send. -/
theorem awaits_finish (h : Inv dcheckIsOn object s) {source : T} {frames : List (Frame T)}
    (hframes : s.frames t = .handler (.send source) :: frames) :
    ({ s with ready := Function.update s.ready source true }.setFrames t frames).Awaits a b ↔
      s.Awaits a b ∧ a ≠ source := by
  have hruns : s.runs t = true := by simp [State.runs, hframes]
  by_cases hat : a = t
  · subst hat
    refine iff_of_false (h.not_awaits_tail ?_) fun hawaits => not_awaits_of_runs hruns hawaits.1
    simp [State.setFrames, hframes]
  · by_cases ha : a = source
    · subst ha
      refine iff_of_false (fun hawaits => ?_) fun hawaits => hawaits.2 rfl
      simpa [State.setFrames] using hawaits.2
    · refine (awaits_congr ?_ ?_).trans (and_iff_left ha).symm
      · exact Function.update_of_ne hat _ _
      · exact Function.update_of_ne ha _ _

theorem Inv.finishSend (h : Inv dcheckIsOn object s) {source : T} {frames : List (Frame T)}
    (hframes : s.frames t = .handler (.send source) :: frames) :
    Inv dcheckIsOn object
      ({ s with ready := Function.update s.ready source true }.setFrames t frames) where
  pending a b := by
    have hpending : s.pending a b =
        ({ s with ready := Function.update s.ready source true }.setFrames t frames).pending a b +
          if b = t ∧ a = source then 1 else 0 := by
      unfold State.pending State.setFrames
      by_cases hb : b = t
      · subst hb
        simp only [Function.update_self, hframes, List.count_cons, beq_iff_eq, Frame.handler.injEq,
          Job.send.injEq, true_and, eq_comm (a := a)]
        omega
      · simp [hb]
    have hold := h.pending a b
    rw [if_congr (awaits_finish h hframes) rfl rfl]
    by_cases ha : a = source
    · subst ha
      have hawaits : s.Awaits a b ↔ b = t :=
        ⟨fun hb => awaits_unique hb (h.awaits_of_handler hframes), fun hb => by
          subst hb
          exact h.awaits_of_handler hframes⟩
      rw [if_congr hawaits rfl rfl] at hold
      simp only [and_true] at hpending
      simp only [ne_eq, not_true_eq_false, and_false, if_false]
      omega
    · simp only [ha, and_false, if_false, Nat.add_zero] at hpending
      simp only [ne_eq, ha, not_false_eq_true, and_true]
      rw [← hpending, hold]
  onTop := h.onTop_pop hframes
  objects u b hb := h.objects u b (objects_pop hframes u b hb)
  grounded := h.grounded
  edges hon a b ha hab := h.edges hon a b ha ((awaits_finish h hframes).mp hab).1

/-! ## Sends and the send graph -/

theorem register_spec (h : Grounded s.manager.send_graph_.targetsOf) {source target : T}
    {turns : ℕ} {manager : ThreadManager T}
    (hs : register dcheckIsOn object s source target turns = some manager) :
    Grounded manager.send_graph_.targetsOf ∧
      (∀ a b, Edge s.manager.send_graph_.targetsOf a b → Edge manager.send_graph_.targetsOf a b) ∧
      (dcheckIsOn = true → object source = true →
        Edge manager.send_graph_.targetsOf source target) := by
  unfold register at hs
  split_ifs at hs with hon
  · refine ⟨ThreadManager.step_grounded h _ hs, ?_⟩
    rw [ThreadManager.step] at hs
    obtain ⟨hreg, -⟩ | ⟨hreg, -⟩ | ⟨m', hreg, -, hm'⟩ :=
      ThreadManager.register_cases turns s.manager source target
    · rw [hreg] at hs
      cases hs
    · rw [hreg] at hs
      cases hs
    · rw [hreg] at hs
      cases hs
      exact ⟨fun a b hab => (hm'.edges a b).mpr (.inl hab),
        fun _ _ => (hm'.edges source target).mpr (.inr ⟨rfl, rfl⟩)⟩
  · cases hs
    exact ⟨h, fun _ _ hab => hab, fun hd ho => absurd ⟨hd, ho⟩ hon⟩

theorem awaits_startSend {source target : T} {manager : ThreadManager T}
    (hruns : s.runs source = true) : (s.startSend source target manager).Awaits a b ↔
      s.Awaits a b ∨ a = source ∧ b = target := by
  by_cases ha : a = source
  · subst ha
    have hhead := runs_head hruns b
    simp [State.Awaits, State.startSend, State.setFrames, State.push, hhead, eq_comm (a := b)]
  · simp [State.Awaits, State.startSend, State.setFrames, State.push, ha]

theorem pending_startSend {source target : T} {manager : ThreadManager T} :
    (s.startSend source target manager).pending a b =
      s.pending a b + if a = source ∧ b = target then 1 else 0 := by
  have hsend := pending_send (s := { s with
    manager := manager
    ready := Function.update s.ready source false }.push target (.send source)) (t := source)
    (a := a) (b := b) target
  have hiff : b = target ∧ Job.send source = .send a ↔ a = source ∧ b = target :=
    ⟨fun hjob => ⟨(Job.send.inj hjob.2).symm, hjob.1⟩, fun hab => ⟨hab.2, by rw [hab.1]⟩⟩
  refine hsend.trans ((pending_push (.send source)).trans ?_)
  rw [if_congr hiff rfl rfl]
  rfl

theorem Inv.send (h : Inv dcheckIsOn object s) {source target : T} (hruns : s.runs source = true)
    (hobject : object target = true) {turns : ℕ} {manager : ThreadManager T}
    (hs : register dcheckIsOn object s source target turns = some manager) :
    Inv dcheckIsOn object (s.startSend source target manager) := by
  obtain ⟨hgrounded, hold, hnew⟩ := register_spec h.grounded hs
  refine ⟨fun a b => ?_, fun t f hf b => ?_, fun t b hb => ?_, hgrounded, fun hon a b ha hab => ?_⟩
  · rw [pending_startSend, h.pending, if_congr (awaits_startSend hruns) rfl rfl]
    by_cases ha : a = source
    · subst ha
      simp [not_awaits_of_runs hruns]
    · simp [ha]
  · by_cases ht : t = source
    · subst ht
      simp only [State.startSend, State.setFrames, Function.update_self, List.tail_cons] at hf
      exact h.no_send hruns hf b
    · simp only [State.startSend, State.setFrames, Function.update_of_ne ht] at hf
      exact h.onTop t f hf b
  · by_cases ht : t = source
    · subst ht
      simp only [State.startSend, State.setFrames, Function.update_self, List.mem_cons,
        Frame.send.injEq] at hb
      obtain rfl | hb := hb
      · exact hobject
      · exact h.objects t b hb
    · simp only [State.startSend, State.setFrames, Function.update_of_ne ht] at hb
      exact h.objects t b hb
  · obtain hab | ⟨rfl, rfl⟩ := (awaits_startSend hruns).mp hab
    · exact hold a b (h.edges hon a b ha hab)
    · exact hnew hon ha

theorem Inv.add (h : Inv dcheckIsOn object s) {manager : ThreadManager T}
    (hs : ThreadManager.step s.manager (.addInternal t) = some manager) :
    Inv dcheckIsOn object { s with manager := manager } where
  pending := h.pending
  onTop := h.onTop
  objects := h.objects
  grounded := ThreadManager.step_grounded h.grounded _ hs
  edges hon a b ha hab := by
    rw [ThreadManager.step, ThreadManager.addInternal] at hs
    split_ifs at hs
    · cases hs
    · cases hs
      exact h.edges hon a b ha hab

/-- A thread that goes, which nothing waits for. -/
theorem Inv.remove (h : Inv dcheckIsOn object s) (hframes : s.frames t = [])
    (hmessages : s.messages_ t = []) {manager : ThreadManager T}
    (hs : ThreadManager.step s.manager (.removeInternal t) = some manager) :
    Inv dcheckIsOn object { s with manager := manager } where
  pending := h.pending
  onTop := h.onTop
  objects := h.objects
  grounded := ThreadManager.step_grounded h.grounded _ hs
  edges hon a b ha hab := by
    have hold : s.Awaits a b := hab
    rw [ThreadManager.step, ThreadManager.removeInternal] at hs
    split_ifs at hs
    · cases hs
    · cases hs
      refine (ThreadManager.edge_remove _ _ a b).mpr ⟨h.edges hon a b ha hold, ?_, ?_⟩
      · rintro rfl
        have hhead := hold.1
        rw [hframes] at hhead
        cases hhead
      · rintro rfl
        have hpending := h.pending a b
        rw [if_pos hold] at hpending
        simp [State.pending, hframes, hmessages] at hpending

/-- **One step.** -/
theorem inv_step {act : Act T} (h : Inv dcheckIsOn object s)
    (hs : step dcheckIsOn object s act = some s') : Inv dcheckIsOn object s' := by
  cases act with
  | add t =>
    obtain ⟨manager, hmanager, rfl⟩ := Option.map_eq_some_iff.mp hs
    exact h.add hmanager
  | remove t =>
    simp only [step] at hs
    split_ifs at hs with hempty
    obtain ⟨manager, hmanager, rfl⟩ := Option.map_eq_some_iff.mp hs
    exact h.remove hempty.1 hempty.2 hmanager
  | post source target =>
    simp only [step] at hs
    split_ifs at hs
    cases hs
    exact h.post
  | send source target turns =>
    simp only [step] at hs
    split_ifs at hs with hruns hself
    · cases hs
      exact h.direct hruns.1
    · obtain ⟨manager, hmanager, rfl⟩ := Option.map_eq_some_iff.mp hs
      exact h.send hruns.1 hruns.2 hmanager
  | get t =>
    simp only [step] at hs
    split_ifs at hs with hruns
    cases hmessages : s.messages_ t with
    | nil => simp [hmessages] at hs
    | cons job messages =>
      simp only [hmessages, Option.some.injEq] at hs
      subst hs
      exact h.get hruns.1 hmessages
  | finish t =>
    simp only [step] at hs
    split at hs
    next frames hframes =>
      cases hs
      exact h.finishPost hframes
    next source frames hframes =>
      cases hs
      exact h.finishSend hframes
    next => cases hs
  | «return» t =>
    simp only [step] at hs
    split at hs
    next target frames hframes =>
      split_ifs at hs with hready
      cases hs
      exact h.returned hframes hready
    next => cases hs

theorem inv_exec {acts : List (Act T)} (h : exec (step dcheckIsOn object) init acts = some s) :
    Inv dcheckIsOn object s :=
  invariant (Inv dcheckIsOn object) (fun _ _ _ => inv_step) inv_init h

/-! ## Cycles -/

theorem object_of_awaits (h : Inv dcheckIsOn object s) (hab : s.Awaits a b) : object b = true :=
  h.objects a b (List.mem_of_mem_head? hab.1)

theorem acyclic_of_dcheckIsOn (h : Inv dcheckIsOn object s) (hon : dcheckIsOn = true) (t : T) :
    ¬ Relation.TransGen s.Awaits t t := by
  intro hcycle
  obtain ⟨u, -, hut⟩ := Relation.TransGen.tail'_iff.mp hcycle
  have ht : object t = true := object_of_awaits h hut
  have hpath {v : T} (hv : Relation.TransGen s.Awaits t v) :
      Relation.TransGen (Edge s.manager.send_graph_.targetsOf) t v ∧ object v = true := by
    induction hv with
    | single hab => exact ⟨.single (h.edges hon _ _ ht hab), object_of_awaits h hab⟩
    | tail _ hab ih => exact ⟨ih.1.tail (h.edges hon _ _ ih.2 hab), object_of_awaits h hab⟩
  exact irrefl_of_grounded h.grounded t (hpath hcycle).1

/-- A send to a thread that waits itself is not answered. -/
theorem awaits_step {act : Act T} {c : T} (h : Inv dcheckIsOn object s) (hab : s.Awaits a b)
    (hbc : s.Awaits b c) (hs : step dcheckIsOn object s act = some s') : s'.Awaits a b := by
  have hne {t : T} (ht : s.runs t = true) : a ≠ t := by
    rintro rfl
    exact not_awaits_of_runs ht hab
  cases act with
  | add t =>
    obtain ⟨manager, -, rfl⟩ := Option.map_eq_some_iff.mp hs
    exact hab
  | remove t =>
    simp only [step] at hs
    split_ifs at hs
    obtain ⟨manager, -, rfl⟩ := Option.map_eq_some_iff.mp hs
    exact hab
  | post source target =>
    simp only [step] at hs
    split_ifs at hs
    cases hs
    exact hab
  | send source target turns =>
    simp only [step] at hs
    split_ifs at hs with hruns hself
    · cases hs
      exact (awaits_setFrames_of_ne (hne hruns.1)).mpr hab
    · obtain ⟨manager, -, rfl⟩ := Option.map_eq_some_iff.mp hs
      exact (awaits_startSend hruns.1).mpr (.inl hab)
  | get t =>
    simp only [step] at hs
    split_ifs at hs with hruns
    cases hmessages : s.messages_ t with
    | nil => simp [hmessages] at hs
    | cons job messages =>
      simp only [hmessages, Option.some.injEq] at hs
      subst hs
      exact (awaits_setFrames_of_ne (hne hruns.1)).mpr hab
  | finish t =>
    simp only [step] at hs
    split at hs
    next frames hframes =>
      cases hs
      exact (awaits_setFrames_of_ne (hne (by simp [State.runs, hframes]))).mpr hab
    next source frames hframes =>
      cases hs
      refine (awaits_finish h hframes).mpr ⟨hab, ?_⟩
      -- else `b` would be in the handler, but it waits
      rintro rfl
      obtain rfl : b = t := awaits_unique hab (h.awaits_of_handler hframes)
      exact not_awaits_of_runs (by simp [State.runs, hframes]) hbc
    next => cases hs
  | «return» t =>
    simp only [step] at hs
    split at hs
    next target frames hframes =>
      split_ifs at hs with hready
      cases hs
      have hat : a ≠ t := by
        rintro rfl
        exact Bool.false_ne_true (hab.2.symm.trans hready)
      exact (awaits_setFrames_of_ne hat).mpr hab
    next => cases hs

/-- **A cycle stays.** -/
theorem cyclic_step {act : Act T} (h : Inv dcheckIsOn object s)
    (hcycle : Relation.TransGen s.Awaits t t) (hs : step dcheckIsOn object s act = some s') :
    Relation.TransGen s'.Awaits t t := by
  obtain ⟨c, htc, -⟩ := Relation.TransGen.head'_iff.mp hcycle
  have hwaits {u : T} (hu : Relation.ReflTransGen s.Awaits u t) : ∃ v, s.Awaits u v := by
    obtain rfl | ⟨v, huv, -⟩ := Relation.ReflTransGen.cases_head hu
    · exact ⟨c, htc⟩
    · exact ⟨v, huv⟩
  have hpath {u : T} (hu : Relation.TransGen s.Awaits u t) : Relation.TransGen s'.Awaits u t := by
    induction hu using Relation.TransGen.head_induction_on with
    | single hut => exact .single (awaits_step h hut htc hs)
    | head hut hrest ih =>
      obtain ⟨v, hv⟩ := hwaits hrest.to_reflTransGen
      exact .head (awaits_step h hut hv hs) ih
  exact hpath hcycle

/-- No thread is in `Send`. -/
def State.Quiet (s : State T) : Prop := ∀ t b, Frame.send b ∉ s.frames t

theorem acyclic_of_reaches (h : Inv dcheckIsOn object s)
    (hreaches : Reaches (step dcheckIsOn object) s s') (hquiet : s'.Quiet) (t : T) :
    ¬ Relation.TransGen s.Awaits t t := by
  intro hcycle
  obtain ⟨-, hcycle'⟩ := hreaches.invariant
    (fun s => Inv dcheckIsOn object s ∧ Relation.TransGen s.Awaits t t)
    (fun _ _ _ hinv hs => ⟨inv_step hinv.1 hs, cyclic_step hinv.1 hinv.2 hs⟩) ⟨h, hcycle⟩
  obtain ⟨c, htc, -⟩ := Relation.TransGen.head'_iff.mp hcycle'
  exact hquiet t c (List.mem_of_mem_head? htc.1)

/-! ## Answers -/

/-- The threads of `A` are all that have messages or are in something. -/
def State.Within (s : State T) (A : Finset T) : Prop :=
  ∀ t ∉ A, s.messages_ t = [] ∧ s.frames t = []

/-- The steps that are left. -/
def State.work (s : State T) (A : Finset T) : ℕ :=
  ∑ t ∈ A, (2 * (s.messages_ t).length + (s.frames t).length)

/-- A step towards the end. -/
structure Nearer (A : Finset T) (s s' : State T) : Prop where
  within : s'.Within A
  work : s'.work A < s.work A
  awaits : ∀ a b, s'.Awaits a b → s.Awaits a b

theorem nearer_of (hA : s.Within A) (ht : t ∈ A) {messages : List (Job T)}
    {frames : List (Frame T)} (hmessages : s'.messages_ = Function.update s.messages_ t messages)
    (hframes : s'.frames = Function.update s.frames t frames)
    (hlt : 2 * messages.length + frames.length <
      2 * (s.messages_ t).length + (s.frames t).length)
    (hawaits : ∀ a b, s'.Awaits a b → s.Awaits a b) : Nearer A s s' where
  within u hu := by
    have hut : u ≠ t := fun h => hu (h ▸ ht)
    rw [hmessages, hframes, Function.update_of_ne hut, Function.update_of_ne hut]
    exact hA u hu
  work := by
    refine Finset.sum_lt_sum (fun u _ => ?_) ⟨t, ht, ?_⟩
    · rw [hmessages, hframes]
      by_cases hut : u = t
      · subst hut
        simpa using hlt.le
      · simp [hut]
    · simpa [hmessages, hframes] using hlt
  awaits := hawaits

theorem nearer_get {A : Finset T} (hA : s.Within A)
    (ht : t ∈ A) (hruns : s.runs t = true) (hobject : object t = true) {job : Job T}
    {messages : List (Job T)} (hmessages : s.messages_ t = job :: messages) :
    ∃ s', step dcheckIsOn object s (.get t) = some s' ∧ Nearer A s s' := by
  refine ⟨{ s with messages_ := Function.update s.messages_ t messages }.setFrames t
    (.handler job :: s.frames t), by simp [step, hruns, hobject, hmessages],
    nearer_of hA ht rfl rfl ?_ fun a b hab => ?_⟩
  · rw [hmessages, List.length_cons, List.length_cons]
    omega
  · by_cases ha : a = t
    · subst ha
      have hhead := hab.1
      simp [State.setFrames] at hhead
    · exact (awaits_setFrames_of_ne ha).mp hab

theorem nearer_finish (h : Inv dcheckIsOn object s) {A : Finset T} (hA : s.Within A)
    (ht : t ∈ A) {job : Job T} {frames : List (Frame T)}
    (hframes : s.frames t = .handler job :: frames) :
    ∃ s', step dcheckIsOn object s (.finish t) = some s' ∧ Nearer A s s' := by
  have hmessages : s.messages_ = Function.update s.messages_ t (s.messages_ t) :=
    (Function.update_eq_self t s.messages_).symm
  have hlt : 2 * (s.messages_ t).length + frames.length <
      2 * (s.messages_ t).length + (s.frames t).length := by
    rw [hframes, List.length_cons]
    omega
  cases job with
  | post =>
    refine ⟨s.setFrames t frames, by simp [step, hframes],
      nearer_of hA ht hmessages rfl hlt fun a b hab => ?_⟩
    by_cases ha : a = t
    · subst ha
      refine absurd hab (h.not_awaits_tail ?_)
      simp [State.setFrames, hframes]
    · exact (awaits_setFrames_of_ne ha).mp hab
  | send source =>
    exact ⟨{ s with ready := Function.update s.ready source true }.setFrames t frames,
      by simp [step, hframes],
      nearer_of hA ht hmessages rfl hlt fun a b hab => ((awaits_finish h hframes).mp hab).1⟩

theorem nearer_return (h : Inv dcheckIsOn object s) {A : Finset T} (hA : s.Within A)
    (ht : t ∈ A) {target : T} {frames : List (Frame T)}
    (hframes : s.frames t = .send target :: frames) (hready : s.ready t = true) :
    ∃ s', step dcheckIsOn object s (.return t) = some s' ∧ Nearer A s s' := by
  have hmessages : s.messages_ = Function.update s.messages_ t (s.messages_ t) :=
    (Function.update_eq_self t s.messages_).symm
  refine ⟨s.setFrames t frames, by simp [step, hframes, hready],
    nearer_of hA ht hmessages rfl ?_ fun a b hab => ?_⟩
  · rw [hframes, List.length_cons]
    omega
  · by_cases ha : a = t
    · subst ha
      refine absurd hab (h.not_awaits_tail ?_)
      simp [State.setFrames, hframes]
    · exact (awaits_setFrames_of_ne ha).mp hab

/-- **Some thread gets on** as long as one is in `Send`. -/
theorem exists_nearer (h : Inv dcheckIsOn object s) {A : Finset T} (hA : s.Within A)
    (hacyclic : ∀ t, ¬ Relation.TransGen s.Awaits t t) (hbusy : ¬ s.Quiet) :
    ∃ act s', step dcheckIsOn object s act = some s' ∧ Nearer A s s' := by
  have hmem {t : T} (ht : s.messages_ t ≠ [] ∨ s.frames t ≠ []) : t ∈ A := by
    by_contra hnot
    obtain ⟨hmessages, hframes⟩ := hA t hnot
    exact ht.elim (fun hne => hne hmessages) fun hne => hne hframes
  obtain ⟨u, c, huc⟩ : ∃ u c, Frame.send c ∈ s.frames u := by
    simpa [State.Quiet] using hbusy
  have hu : u ∈ A.filter fun t => s.runs t = false := by
    refine Finset.mem_filter.mpr ⟨hmem (.inr (List.ne_nil_of_mem huc)), ?_⟩
    by_contra hruns
    exact h.no_send (eq_true_of_ne_false hruns) huc c rfl
  -- a thread in `Send` whose target is in none
  obtain ⟨a, ha, hlast⟩ := exists_last ⟨u, hu⟩ hacyclic
  obtain ⟨haA, haruns⟩ := Finset.mem_filter.mp ha
  obtain ⟨b, frames, hframes⟩ : ∃ b frames, s.frames a = .send b :: frames := by
    unfold State.runs at haruns
    split at haruns
    next b frames hframes => exact ⟨b, frames, hframes⟩
    next => cases haruns
  cases hready : s.ready a with
  | true => exact ⟨.return a, nearer_return h hA haA hframes hready⟩
  | false =>
    have hab : s.Awaits a b := ⟨by rw [hframes]; rfl, hready⟩
    have hpending : 0 < s.pending a b := by
      rw [h.pending, if_pos hab]
      exact Nat.one_pos
    have hbA : b ∈ A := by
      refine hmem (not_and_or.mp ?_)
      rintro ⟨hmessages, hframes⟩
      simp [State.pending, hmessages, hframes] at hpending
    have hbruns : s.runs b = true := by
      by_contra hnot
      exact hlast b hab (Finset.mem_filter.mpr ⟨hbA, eq_false_of_ne_true hnot⟩)
    cases hbframes : s.frames b with
    | nil =>
      cases hmessages : s.messages_ b with
      | nil => simp [State.pending, hmessages, hbframes] at hpending
      | cons job messages =>
        exact ⟨.get b, nearer_get hA hbA hbruns (object_of_awaits h hab) hmessages⟩
    | cons f rest =>
      cases f with
      | send d => simp [State.runs, hbframes] at hbruns
      | handler job => exact ⟨.finish b, nearer_finish h hA hbA hbframes⟩

theorem can_answer {A : Finset T} (h : Inv dcheckIsOn object s) (hA : s.Within A)
    (hacyclic : ∀ t, ¬ Relation.TransGen s.Awaits t t) :
    ∃ s', Reaches (step dcheckIsOn object) s s' ∧ s'.Quiet := by
  have hprogress (s : State T)
      (hs : Inv dcheckIsOn object s ∧ s.Within A ∧ ∀ t, ¬ Relation.TransGen s.Awaits t t)
      (hquiet : ¬ s.Quiet) : ∃ s', Reaches (step dcheckIsOn object) s s' ∧
        (Inv dcheckIsOn object s' ∧ s'.Within A ∧ ∀ t, ¬ Relation.TransGen s'.Awaits t t) ∧
        s'.work A < s.work A := by
    obtain ⟨h, hA, hacyclic⟩ := hs
    obtain ⟨act, s₁, hs, hnearer⟩ := exists_nearer h hA hacyclic hquiet
    exact ⟨s₁, .one hs, ⟨inv_step h hs, hnearer.within,
      fun t hcycle => hacyclic t (Relation.TransGen.mono hnearer.awaits _ _ hcycle)⟩, hnearer.work⟩
  obtain ⟨s', hreaches, -, hquiet⟩ :=
    Reaches.of_progress _ State.Quiet (State.work · A) hprogress ⟨h, hA, hacyclic⟩
  exact ⟨s', hreaches, hquiet⟩

/-! ## Runs -/

/-- The threads that the step is about. -/
def Act.threads : Act T → Finset T
  | .add t | .remove t | .get t | .finish t | .return t => {t}
  | .post source target | .send source target _ => {source, target}

theorem within_setFrames {A : Finset T} (hA : s.Within A) (ht : t ∈ A) (frames : List (Frame T)) :
    (s.setFrames t frames).Within A := by
  intro u hu
  have hut : u ≠ t := fun h => hu (h ▸ ht)
  exact ⟨(hA u hu).1, (Function.update_of_ne hut _ _).trans (hA u hu).2⟩

theorem within_push {A : Finset T} (hA : s.Within A) (ht : t ∈ A) (job : Job T) :
    (s.push t job).Within A := by
  intro u hu
  have hut : u ≠ t := fun h => hu (h ▸ ht)
  exact ⟨(Function.update_of_ne hut _ _).trans (hA u hu).1, (hA u hu).2⟩

theorem within_step {act : Act T} {A : Finset T} (hA : s.Within A)
    (hs : step dcheckIsOn object s act = some s') : s'.Within (A ∪ act.threads) := by
  have hA' : s.Within (A ∪ act.threads) :=
    fun t ht => hA t fun h => ht (Finset.mem_union_left _ h)
  have hmem {t : T} (ht : t ∈ act.threads) : t ∈ A ∪ act.threads := Finset.mem_union_right _ ht
  cases act with
  | add t =>
    obtain ⟨manager, -, rfl⟩ := Option.map_eq_some_iff.mp hs
    exact hA'
  | remove t =>
    simp only [step] at hs
    split_ifs at hs
    obtain ⟨manager, -, rfl⟩ := Option.map_eq_some_iff.mp hs
    exact hA'
  | post source target =>
    simp only [step] at hs
    split_ifs at hs
    cases hs
    exact within_push hA' (hmem (by simp [Act.threads])) .post
  | send source target turns =>
    have hsource : source ∈ A ∪ Act.threads (.send source target turns) :=
      hmem (by simp [Act.threads])
    simp only [step] at hs
    split_ifs at hs
    · cases hs
      exact within_setFrames hA' hsource _
    · obtain ⟨manager, -, rfl⟩ := Option.map_eq_some_iff.mp hs
      exact within_setFrames (within_push (s := { s with
        manager := manager
        ready := Function.update s.ready source false }) hA' (hmem (by simp [Act.threads])) _)
        hsource _
  | get t =>
    have ht : t ∈ A ∪ Act.threads (.get t) := hmem (by simp [Act.threads])
    simp only [step] at hs
    split_ifs at hs
    cases hmessages : s.messages_ t with
    | nil => simp [hmessages] at hs
    | cons job messages =>
      simp only [hmessages, Option.some.injEq] at hs
      subst hs
      intro u hu
      have hut : u ≠ t := fun h => hu (h ▸ ht)
      exact ⟨(Function.update_of_ne hut _ _).trans (hA' u hu).1,
        (Function.update_of_ne hut _ _).trans (hA' u hu).2⟩
  | finish t =>
    have ht : t ∈ A ∪ Act.threads (.finish t) := hmem (by simp [Act.threads])
    simp only [step] at hs
    split at hs
    · cases hs
      exact within_setFrames hA' ht _
    · cases hs
      exact within_setFrames (s := { s with ready := _ }) hA' ht _
    · cases hs
  | «return» t =>
    have ht : t ∈ A ∪ Act.threads (.return t) := hmem (by simp [Act.threads])
    simp only [step] at hs
    split at hs
    · split_ifs at hs
      cases hs
      exact within_setFrames hA' ht _
    · cases hs

theorem exists_within {acts : List (Act T)}
    (h : exec (step dcheckIsOn object) init acts = some s) : ∃ A : Finset T, s.Within A := by
  refine invariant (fun s => ∃ A : Finset T, s.Within A) ?_ ⟨∅, fun _ _ => ⟨rfl, rfl⟩⟩ h
  rintro s act s' ⟨A, hA⟩ hs
  exact ⟨_, within_step hA hs⟩

/-- **When all sends can return.** In every state of every run: the threads can go on so that none
is in `Send` any more, just when the sends that have not been answered form no cycle; and where
`RTC_DCHECK`s are on, they never form one. -/
theorem sends_return_iff {acts : List (Act T)}
    (h : exec (step dcheckIsOn object) init acts = some s) :
    ((∃ s', Reaches (step dcheckIsOn object) s s' ∧ s'.Quiet) ↔
      ∀ t, ¬ Relation.TransGen s.Awaits t t) ∧
    (dcheckIsOn = true → ∀ t, ¬ Relation.TransGen s.Awaits t t) := by
  have hinv := inv_exec h
  obtain ⟨A, hA⟩ := exists_within h
  refine ⟨⟨fun hquiet => ?_, can_answer hinv hA⟩, acyclic_of_dcheckIsOn hinv⟩
  obtain ⟨s', hreaches, hs'⟩ := hquiet
  exact acyclic_of_reaches hinv hreaches hs'

/-- Threads 0 and 1, each in a handler, send to each other. -/
def sendToEachOther : List (Act ℕ) :=
  [.add 0, .add 1, .post 2 0, .post 2 1, .get 0, .get 1, .send 0 1 9, .send 1 0 9]

theorem sends_return_iff_sample :
    (∃ s, exec (step false (· < 2)) init sendToEachOther = some s ∧
      ¬ ∃ s', Reaches (step false (· < 2)) s s' ∧ s'.Quiet) ∧
    exec (step true (· < 2)) init sendToEachOther = none := by
  have hrun : (exec (step false (· < 2)) init sendToEachOther).map
      (fun s => decide (s.Awaits 0 1 ∧ s.Awaits 1 0)) = some true := by
    decide +kernel
  obtain ⟨s, h, hstate⟩ := Option.map_eq_some_iff.mp hrun
  obtain ⟨h₀, h₁⟩ := of_decide_eq_true hstate
  refine ⟨⟨s, h, fun hquiet => ?_⟩, by decide +kernel⟩
  exact (sends_return_iff h).1.mp hquiet 0 (.head h₀ (.single h₁))

end Sends

end RtcBase
