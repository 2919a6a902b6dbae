/-
Services of the library, told from their calls.

A service of the library remembers little: that it was started, or when it was executed last and
whether that run goes on. Each call changes this in one way, whoever makes it, so what has become
of a service follows from the calls of its node and their ticks (`World.Minds`).
-/
import BehaviorTree.Library.Background
import BehaviorTree.Proofs.World.Happening
import BehaviorTree.Proofs.World.Local

namespace BehaviorTree

/-- A service does as part of another node what it does by itself. -/
structure Node.Hosts {σ τ : Type} [Node σ] [Node τ] (f : σ → τ) : Prop extends Embeds f where
  isService : ∀ s, Node.isService (f s) = Node.isService s
  preempts : ∀ s, Node.preempts (f s) = Node.preempts s

theorem Node.hosts_inl {σ τ : Type} [Node σ] [Node τ] : Hosts (Sum.inl : σ → σ ⊕ τ) :=
  ⟨embeds_inl, fun _ => rfl, fun _ => rfl⟩

namespace Call

/-- The call tells a service that it is registered, or that it is not any more. -/
def isRegistry : Call → Bool
  | registered | unregistered => true
  | _ => false

/-- The call changes nothing for a service of the library. -/
def isIdle : Call → Bool
  | bind | hook _ | ready _ => true
  | _ => false

/-- The tick of the last execution since the node was registered, after a call at `now`. -/
def redate (now : Nat) (last : Option Nat) : Call → Option Nat
  | execute => some now
  | registered => none
  | _ => last

end Call

namespace BackgroundNode

/-- What a call at `now` makes of the service. -/
def after (now : Nat) (b : BackgroundNode) : Call → BackgroundNode
  | .execute => b.begun now
  | .receive _ | .stop => b.ended
  | .registered => b.registered
  | .unregistered => b.unregistered
  | .bind | .hook _ | .ready _ => b

/-- A run of the subtree goes on, as far as the service knows. -/
def isRunning : BackgroundNode → Bool
  | parallel _ => false
  | repetition r => r.running

/-- Whether a fresh run may start. -/
def wants (b : BackgroundNode) (tick : Tick) : Bool :=
  match b with
  | parallel p => !p.started
  | repetition r => r.isReady tick

/-- An unfinished run may be cut short. -/
def forces : BackgroundNode → Bool
  | parallel _ => false
  | repetition r => r.force

/-- What the service remembers of its last execution is right. -/
def Agrees : BackgroundNode → Option Nat → Prop
  | parallel p, last => p.started = last.isSome
  | repetition r, last => r.lastStarted = last

variable {now : Nat} {b : BackgroundNode} {last : Option Nat} {c : Call} {calls : List Call}

/-- What the service was made with stays; all else is new once it is registered. -/
theorem registered_after (now : Nat) (b : BackgroundNode) (c : Call) :
    (b.after now c).registered = b.registered := by
  cases b <;> cases c <;> rfl

theorem registered_foldl (now : Nat) (b : BackgroundNode) (calls : List Call) :
    (calls.foldl (after now) b).registered = b.registered := by
  induction calls generalizing b with
  | nil => rfl
  | cons c rest ih => exact (ih _).trans (registered_after now b c)

/-- What a service was made with are the subtree, the interval, and whether it may cut a run
short. -/
theorem eq_repetition_of_registered {r : Repetition}
    (h : b.registered = (repetition r).registered) :
    ∃ r', b = repetition r' ∧ r'.interval = r.interval ∧ r'.force = r.force := by
  cases b with
  | parallel => cases h
  | repetition r' =>
    simp only [registered, repetition.injEq, Repetition.mk.injEq] at h
    exact ⟨r', rfl, h.2.1, h.2.2.1⟩

theorem forces_eq_of_registered {b' : BackgroundNode} (h : b.registered = b'.registered) :
    b.forces = b'.forces := by
  cases b' with
  | parallel =>
    cases b with
    | parallel => rfl
    | repetition => cases h
  | repetition r =>
    obtain ⟨r', rfl, -, hforce⟩ := eq_repetition_of_registered h
    exact hforce

theorem Agrees.after (h : b.Agrees last) (hc : c.isRegistry = false) :
    (b.after now c).Agrees (c.redate now last) := by
  cases b <;> cases c <;> first | exact h | rfl | cases hc

theorem Agrees.foldl (h : b.Agrees last) (hc : ∀ c ∈ calls, c.isRegistry = false) :
    (calls.foldl (BackgroundNode.after now) b).Agrees (calls.foldl (Call.redate now) last) := by
  induction calls generalizing b last with
  | nil => exact h
  | cons c rest ih =>
    exact ih (h.after (hc c List.mem_cons_self)) fun c' hc' => hc c' (List.mem_cons_of_mem c hc')

theorem foldl_idle (now : Nat) (b : BackgroundNode) (h : ∀ c ∈ calls, c.isIdle) :
    calls.foldl (after now) b = b := by
  induction calls with
  | nil => rfl
  | cons c rest ih =>
    have hc : b.after now c = b := by
      have := h c List.mem_cons_self
      cases c <;> first | rfl | cases this
    rw [List.foldl_cons, hc]
    exact ih fun c' hc' => h c' (List.mem_cons_of_mem c hc')

/-- A service that may cut its runs short wants the next one no less once a run was stopped. -/
theorem wants_stopped (h : b.forces) (hc : ∀ c ∈ calls, c = .stop) (tick : Tick) :
    (calls.foldl (after now) b).wants tick = b.wants tick := by
  induction calls generalizing b with
  | nil => rfl
  | cons c rest ih =>
    obtain rfl := hc c List.mem_cons_self
    cases b with
    | parallel => cases h
    | repetition r =>
      refine (ih (b := (repetition r).ended) h fun c' hc' =>
        hc c' (List.mem_cons_of_mem _ hc')).trans ?_
      simp only [forces] at h
      simp [ended, wants, Repetition.isReady, h]

end BackgroundNode

namespace Call

variable {calls : List Call}

theorem isRegistry_of_isIdle {c : Call} (h : c.isIdle) : c.isRegistry = false := by
  cases c <;> first | rfl | cases h

/-- A node that was executed, and not registered since, was executed last at that tick. -/
theorem foldl_redate (now : Nat) (last : Option Nat) (hc : ∀ c ∈ calls, c.isRegistry = false) :
    calls.foldl (redate now) last = if execute ∈ calls then some now else last := by
  induction calls generalizing last with
  | nil => rfl
  | cons c rest ih =>
    have hrest := fun c' hc' => hc c' (List.mem_cons_of_mem c hc')
    rw [List.foldl_cons, ih _ hrest]
    cases c with
    | registered => cases hc _ List.mem_cons_self
    | execute => simp [redate]
    | _ => simp [redate]

theorem foldl_redate_idle (now : Nat) (last : Option Nat) (h : ∀ c ∈ calls, c.isIdle) :
    calls.foldl (redate now) last = last := by
  rw [foldl_redate now last fun c hc => isRegistry_of_isIdle (h c hc), if_neg]
  intro he
  cases h _ he

end Call

/-- The call, if it is one of the node. -/
def Happening.callOf? (s : NodeId) : Happening → Option Call
  | .called n c => if n = s then some c else none
  | _ => none

theorem Happening.filterMap_callOf? (id s : NodeId) (calls : List Call) :
    (calls.map (.called id)).filterMap (callOf? s) = if id = s then calls else [] := by
  rw [List.filterMap_map]
  split
  · next h =>
    rw [show callOf? s ∘ called id = some from funext fun c => if_pos h, List.filterMap_some]
  · next h =>
    refine List.filterMap_eq_nil_iff.2 fun c _ => ?_
    exact if_neg h

namespace World

variable {σ : Type}

/-- The calls of the node, in the order of time. -/
def callsOf (w : World σ) (s : NodeId) : List Call :=
  w.happenings.filterMap (Happening.callOf? s)

/-- The node in the slot is the service `b`. -/
def Serves (w : World σ) (f : BackgroundNode → σ) (s : NodeId) (b : BackgroundNode) : Prop :=
  ∃ slot, w.graph.slot? s = some slot ∧ slot.node = f b

/-- Between the two worlds, in one tick, the node was called so, and what has become of the
service follows from that. -/
structure Minds (w : World σ) (f : BackgroundNode → σ) (s : NodeId) (w' : World σ)
    (calls : List Call) : Prop where
  now : w'.tick.number = w.tick.number
  called : w'.callsOf s = w.callsOf s ++ calls
  serves : ∀ b, w.Serves f s b → w'.Serves f s (calls.foldl (BackgroundNode.after w.tick.number) b)

variable {f : BackgroundNode → σ} {s id : NodeId} {w w' w'' : World σ} {b : BackgroundNode}
  {calls more : List Call}

theorem Minds.refl (w : World σ) (f : BackgroundNode → σ) (s : NodeId) : w.Minds f s w [] :=
  ⟨rfl, (List.append_nil _).symm, fun _ hb => hb⟩

theorem Minds.trans (h : w.Minds f s w' calls) (h' : w'.Minds f s w'' more) :
    w.Minds f s w'' (calls ++ more) where
  now := h'.now.trans h.now
  called := by rw [h'.called, h.called, List.append_assoc]
  serves b hb := by
    rw [List.foldl_append, ← h.now]
    exact h'.serves _ (h.now ▸ h.serves b hb)

/-- Neither the graph nor the calls change. -/
theorem Minds.of_eq (hg : w'.graph = w.graph) (hn : w'.tick.number = w.tick.number)
    (hh : w'.callsOf s = w.callsOf s) : w.Minds f s w' [] :=
  ⟨hn, hh.trans (List.append_nil _).symm, fun b hb => by unfold Serves; rwa [hg]⟩

/-- What is recorded is no call. -/
theorem Minds.record (w : World σ) {r : Record}
    (h : r.happening?.bind (Happening.callOf? s) = none) : w.Minds f s (w.record r) [] := by
  refine .of_eq rfl rfl ?_
  unfold callsOf
  rw [happenings_record, List.filterMap_append]
  cases hr : r.happening? with
  | none => simp
  | some x => simpa [hr] using h

theorem Minds.trace (w : World σ) (tag : String) (stack : StackLabel) (node : Option NodeId)
    (value : Int) : w.Minds f s (w.trace tag stack node value) [] := by
  refine .record w ?_
  simp only [Record.happening?, TraceEvent.happening?]
  repeat' split
  all_goals first | rfl | (cases node <;> rfl)

theorem Minds.entered (w : World σ) (label : StackLabel) (n : NodeId) (depth : Nat) :
    w.Minds f s (w.entered label n depth) [] :=
  (Minds.trace ..).trans (.of_eq rfl rfl rfl)

theorem Minds.left (w : World σ) (label : StackLabel) (n : NodeId) (depth : Nat) :
    w.Minds f s (w.left label n depth) [] :=
  (Minds.trace ..).trans (.of_eq rfl rfl rfl)

/-- A step of a node, told from what it does to its own slot. -/
theorem Minds.of_called (hl : Local id w w') (hn : w'.tick.number = w.tick.number)
    (hh : w'.happenings = w.happenings ++ calls.map (.called id))
    (hself : ∀ b, w.Serves f id b →
      w'.Serves f id (calls.foldl (BackgroundNode.after w.tick.number) b)) :
    w.Minds f s w' (if id = s then calls else []) := by
  have hcalls : w'.callsOf s = w.callsOf s ++ if id = s then calls else [] := by
    rw [callsOf, hh, List.filterMap_append, Happening.filterMap_callOf?]
    rfl
  refine ⟨hn, hcalls, fun b hb => ?_⟩
  by_cases hs : id = s
  · subst hs
    rw [if_pos rfl]
    exact hself b hb
  · rw [if_neg hs]
    unfold Serves
    rwa [hl.slot? s (Ne.symm hs)]

/-- The calls are told from what happened. -/
theorem Minds.calls_eq (h : w.Minds f s w' calls) {new : List Happening}
    (hh : w'.happenings = w.happenings ++ new) : calls = new.filterMap (Happening.callOf? s) := by
  have hcalls : w.callsOf s ++ calls = w.callsOf s ++ new.filterMap (Happening.callOf? s) := by
    rw [← h.called, callsOf, hh, List.filterMap_append]
    rfl
  exact List.append_cancel_left hcalls

theorem Minds.mem_calls (h : w.Minds f s w' calls) {c : Call} {new : List Happening}
    (hh : w'.happenings = w.happenings ++ new) (hc : .called s c ∈ new) : c ∈ calls := by
  rw [h.calls_eq hh]
  exact List.mem_filterMap.2 ⟨_, hc, by simp [Happening.callOf?]⟩

/-! ## Steps of a service -/

section Steps

variable [Node σ]

omit [Node σ] in
theorem serves_keepReply {α : Type} (hb : w.Serves f s b) {c : Call} {reply : Reply σ α}
    {b' : BackgroundNode} (hr : reply.node = f b') : (w.keepReply s c reply).Serves f s b' := by
  obtain ⟨slot, hs, -⟩ := hb
  exact ⟨_, slot?_keepReply hs c reply, hr⟩

omit [Node σ] in
theorem serves_absorb {α : Type} (hb : w.Serves f s b) (activation : Nat) {step : Step σ α}
    {b' : BackgroundNode} (hr : step.node = f b') : (w.absorb s activation step).Serves f s b' := by
  obtain ⟨slot, hs, -⟩ := hb
  exact ⟨_, slot?_absorb hs activation step, hr⟩

omit [Node σ] in
theorem serves_modify (hb : w.Serves f s b) {g : Slot σ → Slot σ} (hg : ∀ x, (g x).node = x.node) :
    (w.modify s g).Serves f s b := by
  obtain ⟨slot, hs, hn⟩ := hb
  exact ⟨_, slot?_modify hs g, (hg slot).trans hn⟩

/-- A service has no variables to be bound. -/
theorem serves_bindOnce (hf : Node.Hosts f) (hb : w.Serves f s b) {slot : Slot σ}
    (hn : slot.node = f b) : ∃ w', w.bindOnce s slot = (w', f b, none) ∧ w'.Serves f s b ∧
      w'.tick = w.tick := by
  unfold bindOnce
  split
  · exact ⟨w, by rw [hn], hb, rfl⟩
  · have hbind : Node.bind slot.node w.blackboard = { node := f b, answer := none } := by
      rw [hn, hf.bind]
      rfl
    rw [hbind]
    refine ⟨_, rfl, serves_modify (serves_keepReply hb rfl) fun _ => rfl, ?_⟩
    exact tick_keepReply ..

/-- A service is executed, after it was bound. -/
theorem execute_serves (hf : Node.Hosts f) (hb : w.Serves f s b) {d : Dispatch}
    (h : w.execute s = .ok (w', d)) : w'.Serves f s (b.begun w.tick.number) ∧
      ∃ calls : List Call, w'.happenings = w.happenings ++ calls.map (.called s) ∧
        (calls = [.bind, .execute] ∨ calls = [.execute]) := by
  have ⟨slot, hs, hn⟩ := hb
  have hbegun := serves_modify hb (g := fun s => { s with activation := slot.activation + 1 })
    fun _ => rfl
  obtain ⟨w₁, hw₁, hb₁, ht₁⟩ := serves_bindOnce hf hbegun hn
  obtain ⟨calls, hh, hcalls⟩ := happenings_execute h
  unfold execute at h
  simp only [hs, hw₁, Except.ok.injEq, Prod.mk.injEq] at h
  obtain ⟨rfl, -⟩ := h
  have hnow : (w₁.context s (slot.activation + 1)).tick = w.tick := ht₁
  refine ⟨serves_absorb (w := w₁.record _) hb₁ _ ?_, calls, hh, hcalls.resolve_left ?_⟩
  · rw [hf.execute, ← hnow]
    rfl
  · -- The last of the calls is the execution.
    rintro rfl
    rw [happenings_absorb, happenings_record] at hh
    have hlast := congrArg List.getLast? hh
    simp [Record.happening?] at hlast

variable {d : Dispatch}

theorem minds_execute (hf : Node.Hosts f) (h : w.execute id = .ok (w', d)) :
    ∃ calls : List Call, (∀ c ∈ calls, c.isRegistry = false) ∧ .stop ∉ calls ∧
      w.Minds f s w' (if id = s then calls else []) := by
  have hn := congrArg Tick.number (execute_keeps h).tick
  by_cases hex : ∃ b, w.Serves f id b
  · obtain ⟨b, hb⟩ := hex
    obtain ⟨-, calls, hh, hcalls⟩ := execute_serves hf hb h
    refine ⟨calls, ?_, ?_, .of_called (.execute h) hn hh fun b hb => ?_⟩
    · rcases hcalls with rfl | rfl <;> simp [Call.isRegistry]
    · rcases hcalls with rfl | rfl <;> simp
    · obtain ⟨hbegun, -⟩ := execute_serves hf hb h
      rcases hcalls with rfl | rfl <;> exact hbegun
  · obtain ⟨calls, hh, hcalls⟩ := happenings_execute h
    refine ⟨calls, ?_, ?_, .of_called (.execute h) hn hh fun b hb => absurd ⟨b, hb⟩ hex⟩
    · rcases hcalls with rfl | rfl | rfl <;> simp [Call.isRegistry]
    · rcases hcalls with rfl | rfl | rfl <;> simp

theorem minds_receive (hf : Node.Hosts f) {ok : Bool} (h : w.receive id ok = .ok (w', d)) :
    w.Minds f s w' (if id = s then [.receive ok] else []) := by
  refine .of_called (.receive h) (congrArg Tick.number (receive_keeps h).tick)
    (happenings_receive h) fun b hb => ?_
  have ⟨slot, hs, hn⟩ := hb
  unfold receive at h
  simp only [hs, Except.ok.injEq, Prod.mk.injEq] at h
  obtain ⟨rfl, -⟩ := h
  refine serves_absorb (w := w.record _) hb _ ?_
  rw [hn, hf.receive]
  rfl

theorem minds_stop (hf : Node.Hosts f) (h : w.stop id = .ok w') :
    w.Minds f s w' (if id = s then [.stop] else []) := by
  refine .of_called (.stop h) (congrArg Tick.number (stop_keeps h).tick) (happenings_stop h)
    fun b hb => ?_
  have ⟨slot, hs, hn⟩ := hb
  unfold stop at h
  simp only [hs, Except.ok.injEq] at h
  subst h
  refine serves_modify (b := b.ended) ⟨_, slot?_keep (w := w.record _) hs _, ?_⟩ fun _ => rfl
  rw [hn, hf.stop]
  rfl

theorem minds_interrupt (hf : Node.Hosts f) (h : w.interrupt id = .ok w') :
    w.Minds f s w' (if id = s then [.stop] else []) := by
  unfold interrupt at h
  split at h
  · cases h
  next slot hs =>
  have htold : w.Minds f s ((w.tell id slot.observers).modify id fun s =>
      { s with observers := [] }) (if id = s then [] else []) := by
    refine .of_called ((Local.modify (w.tell id slot.observers) _).of_graph (graph_tell ..) rfl)
      ?_ (by simp) fun b hb => ?_
    · exact congrArg Tick.number (Keeps.tell w id slot.observers).tick
    · refine serves_modify (w := w.tell id slot.observers) ?_ fun _ => rfl
      unfold Serves
      rwa [graph_tell]
  have hall := htold.trans (minds_stop hf h)
  simpa using hall

theorem minds_hook (hf : Node.Hosts f) (w : World σ) (id : NodeId) (phase : Phase) :
    ∃ calls : List Call, (∀ c ∈ calls, c.isIdle) ∧
      w.Minds f s (w.hook id phase).1 (if id = s then calls else []) := by
  have hn := congrArg Tick.number (hook_keeps w id phase).tick
  have hself : ∀ b, w.Serves f id b → (w.hook id phase).1.Serves f id b := by
    intro b hb
    have ⟨slot, hs, hnode⟩ := hb
    have hstep : (Node.hook slot.node (w.context id slot.activation) phase).node = f b := by
      rw [hnode, hf.hook]
      rfl
    unfold hook
    simp only [hs]
    split
    · exact hb
    · split <;> exact serves_absorb (w := w.record _) hb _ hstep
  rcases happenings_hook w id phase with hh | hh
  · exact ⟨[], by simp, .of_called (.hook w id phase) hn (hh.trans (by simp)) hself⟩
  · exact ⟨[.hook phase], by simp [Call.isIdle], .of_called (.hook w id phase) hn hh hself⟩

/-- Asking a service whether it is ready. -/
theorem ready_serves (hf : Node.Hosts f) (hb : w.Serves f s b) :
    ∃ w', w.ready s = (w', b.wants w.tick) ∧ w'.Serves f s b ∧
      w'.happenings = w.happenings ++ [.called s (.ready (b.wants w.tick))] := by
  have ⟨slot, hs, hn⟩ := hb
  have hservice : Node.isService slot.node := by
    rw [hn, hf.isService]
    rfl
  have hreply : Node.isReady slot.node w.tick = { node := f b, answer := b.wants w.tick } := by
    rw [hn, hf.isReady]
    cases b <;> rfl
  unfold ready
  simp only [hs, hservice, hreply, Bool.not_true, Bool.false_eq_true, if_false]
  exact ⟨_, rfl, serves_keepReply hb rfl, happenings_keepReply ..⟩

theorem minds_ready (hf : Node.Hosts f) (w : World σ) (id : NodeId) :
    ∃ calls : List Call, (∀ c ∈ calls, c.isIdle) ∧
      w.Minds f s (w.ready id).1 (if id = s then calls else []) := by
  have hn := congrArg Tick.number (ready_keeps w id).tick
  have hself : ∀ b, w.Serves f id b → (w.ready id).1.Serves f id b := by
    intro b hb
    obtain ⟨w', hw, hb', -⟩ := ready_serves hf hb
    rwa [hw]
  rcases happenings_ready w id with hh | ⟨answer, hh⟩
  · exact ⟨[], by simp, .of_called (.ready w id) hn (hh.trans (by simp)) hself⟩
  · exact ⟨[.ready answer], by simp [Call.isIdle], .of_called (.ready w id) hn hh hself⟩

/-- Whether a service may cut its run short is part of what it was made with. -/
theorem preempts_serves (hf : Node.Hosts f) (hb : w.Serves f s b) :
    w.preempts s = b.forces := by
  obtain ⟨slot, hs, hn⟩ := hb
  unfold preempts
  simp only [hs, hn, hf.isService, hf.preempts]
  cases b <;> rfl

theorem isService_serves (hf : Node.Hosts f) {slot : Slot σ} (hn : slot.node = f b) :
    Node.isService slot.node := by
  rw [hn, hf.isService]
  rfl

omit [Node σ] in
/-- A service that is told of its registration. -/
theorem minds_told {c : Call} (hl : Local s w w') (hn : w'.tick.number = w.tick.number)
    (ht : ∀ b, w.Serves f s b → ∃ reply : Reply σ Unit, reply.node = f (b.after w.tick.number c) ∧
      w' = w.keepReply s c reply) (hb : w.Serves f s b) : w.Minds f s w' [c] := by
  obtain ⟨reply, -, he⟩ := ht b hb
  have hm : w.Minds f s w' (if s = s then [c] else []) := by
    refine .of_called hl hn (he ▸ happenings_keepReply ..) fun b hb => ?_
    obtain ⟨reply, hr, he⟩ := ht b hb
    exact he ▸ serves_keepReply hb hr
  rwa [if_pos rfl] at hm

theorem minds_registered (hf : Node.Hosts f) (hb : w.Serves f s b) :
    w.Minds f s (w.registered s) [.registered] := by
  refine minds_told (.registered w s) (congrArg Tick.number (tick_registered w s)) ?_ hb
  rintro b ⟨slot, hs, hn⟩
  refine ⟨Node.registered slot.node, by rw [hn, hf.registered]; rfl, ?_⟩
  unfold registered
  simp only [hs, isService_serves hf hn, if_true]

theorem minds_unregistered (hf : Node.Hosts f) (hb : w.Serves f s b) :
    w.Minds f s (w.unregistered s) [.unregistered] := by
  refine minds_told (.unregistered w s) (congrArg Tick.number (tick_unregistered w s)) ?_ hb
  rintro b ⟨slot, hs, hn⟩
  refine ⟨Node.unregistered slot.node, by rw [hn, hf.unregistered]; rfl, ?_⟩
  unfold unregistered
  simp only [hs, isService_serves hf hn, if_true]

omit [Node σ] in
/-- What another node is told does not concern this one. -/
theorem minds_told_of_ne {c : Call} (h : id ≠ s) (hl : Local id w w')
    (hn : w'.tick.number = w.tick.number)
    (hh : w'.happenings = w.happenings ∨ w'.happenings = w.happenings ++ [.called id c]) :
    w.Minds f s w' [] := by
  refine ⟨hn, ?_, fun b hb => ?_⟩
  · rcases hh with hh | hh <;> simp [callsOf, hh, Happening.callOf?, h]
  · unfold Serves
    rwa [hl.slot? s (Ne.symm h)]

theorem minds_registered_of_ne (w : World σ) (h : id ≠ s) : w.Minds f s (w.registered id) [] :=
  minds_told_of_ne h (.registered w id) (congrArg Tick.number (tick_registered w id))
    (happenings_registered w id)

theorem minds_unregistered_of_ne (w : World σ) (h : id ≠ s) :
    w.Minds f s (w.unregistered id) [] :=
  minds_told_of_ne h (.unregistered w id) (congrArg Tick.number (tick_unregistered w id))
    (happenings_unregistered w id)

end Steps

end World

end BehaviorTree
