/-
Ending a tree shuts it down for good.

The main stack is rolled back first, and each node that leaves it takes the services that it
owns with it. While the end is settled no node comes onto a stack, so all that is left to
settle are nodes that went, and a service that is torn down has the nodes on its stack that
it had when the end began (`Closing`). Every service hangs from the main stack, so none is
left once that is settled; and then only active nodes have asked for anything, so nothing of
that is left either. A tree without stacks, services and deferred ends calls no node until it
is started (`Idle`).
-/
import BehaviorTree.Proofs.Tree.EngagedActive
import BehaviorTree.Proofs.Tree.Registration
import BehaviorTree.Proofs.Tree.Stops

namespace BehaviorTree

variable {σ : Type}

/-! ## Rolling back -/

/-- What happens when a stack is rolled back: each node is stopped and leaves, the top
first. -/
def rolledBack (label : StackLabel) (nodes : List NodeId) : List Happening :=
  nodes.flatMap fun n => [.called n .stop, .left label n]

/-- What happens when a service is torn down: its stack is rolled back, and then the node is
called, unless it is no service any more. -/
def tornDown (v : Service) (called : Bool) : List Happening :=
  rolledBack v.label v.stack.nodes
    ++ (if called then [.called v.service .unregistered] else []) ++ [.tornDown v.label]

/-- Whose method a happening is the call of, and which one. -/
def Happening.call? : Happening → Option (NodeId × Call)
  | .called node call => some (node, call)
  | _ => none

namespace World

/-- The methods of nodes that were called, in the order of time. -/
def calls (w : World σ) : List (NodeId × Call) := w.happenings.filterMap Happening.call?

theorem calls_record (w : World σ) {r : Record} (h : ∀ node call, r ≠ .called node call) :
    (w.record r).calls = w.calls := by
  unfold calls
  rw [happenings_record, List.filterMap_append]
  cases hr : r.happening? with
  | none => simp
  | some x =>
    cases x with
    | called node call => exact absurd (Record.eq_called_of_happening? hr) (h node call)
    | _ => simp [Happening.call?]

/-- No node was called, and nothing was queued or deferred. -/
structure Silent (w w' : World σ) : Prop where
  calls : w'.calls = w.calls
  events : w'.events = w.events
  schedule : w'.schedule = w.schedule

theorem Silent.refl (w : World σ) : Silent w w := ⟨rfl, rfl, rfl⟩

theorem Silent.trace {w w' : World σ} (h : Silent w w') (tag : String) (stack : StackLabel)
    (node : Option NodeId) (value : Int) : Silent w (w'.trace tag stack node value) :=
  ⟨(calls_record w' fun _ _ => by simp).trans h.calls, h.events, h.schedule⟩

/-- The nodes were rolled back off a stack, and nothing else was done. -/
structure RolledBack [Node σ] (label : StackLabel) (nodes : List NodeId) (w w' : World σ) :
    Prop where
  happenings : w'.happenings = w.happenings ++ rolledBack label nodes
  events : w'.events.toList = w.events.toList ++ nodes.map .popped
  summoned : ∀ n, w'.summoned n = w.summoned n

variable [Node σ] {label : StackLabel} {nodes : List NodeId} {w w' : World σ}

theorem RolledBack.trace (h : RolledBack label nodes w w') {tag : String} (ht : IsQuiet tag)
    (stack : StackLabel) (node : Option NodeId) (value : Int) :
    RolledBack label nodes w (w'.trace tag stack node value) :=
  ⟨(happenings_trace w' ht stack node value).trans h.happenings, h.events, h.summoned⟩

theorem unwind_rolledBack (label : StackLabel) (nodes : List NodeId) (w : World σ)
    (h : ∀ n ∈ nodes, w.graph.contains n) :
    RolledBack label nodes w (Stack.unwind label none nodes w).world := by
  induction nodes generalizing w with
  | nil => exact ⟨by simp [Stack.unwind, rolledBack], by simp [Stack.unwind], fun _ => rfl⟩
  | cons top rest ih =>
    obtain ⟨w', hw⟩ := World.exists_interrupt (h top List.mem_cons_self)
    have hg : w.graph.Grown (w'.left label top rest.length).graph :=
      (World.interrupt_keeps hw).graph
    have hr := ih (w'.left label top rest.length) fun n hn => by
      rw [hg.contains]
      exact h n (List.mem_cons_of_mem _ hn)
    rw [Stack.unwind, if_neg (by simp), hw]
    refine ⟨?_, ?_, fun n => ?_⟩
    · rw [hr.happenings, happenings_left, happenings_interrupt hw]
      simp [rolledBack]
    · rw [hr.events, Stack.toList_left, events_interrupt hw]
      simp
    · exact (hr.summoned n).trans (interrupt_summoned hw n)

end World

variable [Node σ]

/-- Ending a stack rolls it back, and leaves it ended. -/
theorem Stack.terminate_rolledBack {s : Stack} {w : World σ}
    (h : ∀ n ∈ s.nodes, w.graph.contains n) :
    (s.terminate w).after.state = .ended ∧
      World.RolledBack s.label s.nodes w (s.terminate w).world := by
  obtain ⟨w', hu⟩ := unwind_all s.label h
  have hr := World.unwind_rolledBack s.label s.nodes w h
  rw [hu] at hr
  simp only [terminate, breakTo, Option.filter_none, hu, true_and]
  split
  · exact hr.trace (by decide) ..
  · exact (hr.trace (by decide) ..).trace (by decide) ..

/-- Breaking a whole stack rolls it back. -/
theorem Stack.breakTo_rolledBack {s : Stack} {w : World σ}
    (h : ∀ n ∈ s.nodes, w.graph.contains n) :
    World.RolledBack s.label s.nodes w (s.breakTo w none).world := by
  obtain ⟨w', hu⟩ := unwind_all s.label h
  have hr := World.unwind_rolledBack s.label s.nodes w h
  rw [hu] at hr
  simp only [breakTo, Option.filter_none, hu]
  exact hr.trace (by decide) ..

/-- On an empty stack there is nothing to roll back. -/
theorem Stack.breakTo_empty {s : Stack} (w : World σ) (h : s.nodes = [])
    (stopAt : Option NodeId) :
    (s.breakTo w stopAt).after.nodes = [] ∧ w.Silent (s.breakTo w stopAt).world := by
  unfold breakTo
  split
  · exact ⟨h, .refl w⟩
  · rw [h]
    exact ⟨rfl, (World.Silent.refl w).trace ..⟩

theorem Stack.terminate_empty {s : Stack} (w : World σ) (h : s.nodes = []) :
    (s.terminate w).after.nodes = [] ∧ w.Silent (s.terminate w).world := by
  obtain ⟨hn, hs⟩ := breakTo_empty w h none
  unfold terminate
  split
  · next hb => rw [hb] at hn hs; exact ⟨hn, hs⟩
  · next hb =>
    rw [hb] at hn hs
    refine ⟨hn, ?_⟩
    simp only
    split
    · exact hs
    · exact hs.trace ..

namespace Tree

variable {t t' t'' : Tree σ}

/-! ## Settling an end -/

/-- Events are taken up and services are torn down, in this order. Each is listed with the world
in which its stack has been rolled back and it is yet to be called. -/
inductive Closes (t : Tree σ) : List (Service × World σ) → Tree σ → Prop
  | refl : Closes t [] t
  | take {t' : Tree σ} {order : List (Service × World σ)} {event : StackEvent}
      {events : Queue StackEvent} (h : Closes t order t')
      (he : t'.world.events.pop? = some (event, events)) :
      Closes t order { t' with world := { t'.world with events } }
  | tearDown {t' : Tree σ} {order : List (Service × World σ)} {v : Service}
      (h : Closes t order t') (owner : NodeId) (hv : t'.service? v.service = some v) :
      Closes t (order ++ [(v, (v.stack.terminate t'.world).world)])
        (unregisterService owner ⟨t', none⟩ v.service).tree

/-- What services hear that are torn down in this order: one is called if it is a service at that
moment. -/
def closed (order : List (Service × World σ)) : List Happening :=
  order.flatMap fun x => tornDown x.1 (x.2.isService x.1.service)

/-- From one tree to the other these services were torn down, and nothing else was done. -/
structure Closing (t t' : Tree σ) (order : List (Service × World σ)) : Prop where
  rest : t' = { t with world := t'.world, services := t'.services }
  services : (order.map (·.1) ++ t'.services).Perm t.services
  happenings : t'.world.happenings = t.world.happenings ++ closed order
  summoned : ∀ n, t'.world.summoned n = t.world.summoned n
  popped : (∀ e ∈ t.world.events.toList, ∃ n, e = .popped n) →
    ∀ e ∈ t'.world.events.toList, ∃ n, e = .popped n

variable {order order' : List (Service × World σ)}

theorem Closing.refl (t : Tree σ) : Closing t t [] :=
  ⟨rfl, .refl _, by simp [closed], fun _ => rfl, fun h => h⟩

theorem Closing.trans (h : Closing t t' order) (h' : Closing t' t'' order') :
    Closing t t'' (order ++ order') where
  rest := by rw [h'.rest, h.rest]
  services := by
    rw [List.map_append, List.append_assoc]
    exact (h'.services.append_left _).trans h.services
  happenings := by
    rw [h'.happenings, h.happenings, List.append_assoc, closed, closed, closed,
      List.flatMap_append]
  summoned n := (h'.summoned n).trans (h.summoned n)
  popped hp := h'.popped (h.popped hp)

theorem Closing.take {event : StackEvent} {events : Queue StackEvent}
    (h : t.world.events.pop? = some (event, events)) :
    Closing t { t with world := { t.world with events } } [] :=
  ⟨rfl, .refl _, by simp [closed, World.happenings], fun _ => rfl, fun hp e he =>
    hp e (Queue.toList_of_pop? h ▸ List.mem_cons_of_mem _ he)⟩

theorem summoned_unregistered (w : World σ) (s n : NodeId) :
    (w.unregistered s).summoned n = w.summoned n := by
  rcases World.unregistered_cases w s with h | ⟨slot, -, -, h⟩
  · rw [h]
  · rw [h]
    simp [World.summoned]

/-- A service that is torn down is rolled back and then called, if it still is one. -/
theorem Closing.tearDown (ht : t.Sound) (owner : NodeId) {v : Service}
    (hv : t.service? v.service = some v) :
    Closing t (unregisterService owner ⟨t, none⟩ v.service).tree
      [(v, (v.stack.terminate t.world).world)] := by
  obtain ⟨hm, -⟩ := service?_eq_some hv
  have hl : v.label = .service v.service := ht.labels v hm
  obtain ⟨-, hr⟩ := Stack.terminate_rolledBack (ht.services v hm).known
  unfold unregisterService
  rw [hv]
  simp only
  generalize (v.stack.terminate t.world).world = w at hr
  have hsum : ∀ n, (w.unregistered v.service).summoned n = t.world.summoned n :=
    fun n => (summoned_unregistered w v.service n).trans (hr.summoned n)
  have htrace : ∀ w : World σ, (w.trace "bt.service.unregister" (.service v.service) owner
      v.runs).happenings = w.happenings ++ [.tornDown v.label] := fun w => by
    rw [hl]
    exact World.happenings_record w _
  refine ⟨rfl, ?_, ?_, hsum, fun hp e he => ?_⟩
  · obtain ⟨u, before, after, -, hu, hsplit, he⟩ := List.exists_of_eraseP
      (p := fun u : Service => decide (u.service = v.service)) hm (decide_eq_true rfl)
    have hmem : u ∈ t.services := by simp [hsplit]
    obtain rfl : u = v := service_unique ht.nodup hmem hm (of_decide_eq_true hu)
    have hperm : (u :: (before ++ after)).Perm (before ++ u :: after) := List.perm_middle.symm
    rw [he, hsplit]
    exact hperm
  · rw [htrace, World.happenings_unregistered_self, hr.happenings]
    simp [closed, tornDown, Service.label]
  · have he : e ∈ (w.unregistered v.service).events.toList := he
    rw [World.events_unregistered, hr.events] at he
    rcases List.mem_append.1 he with he | he
    · exact hp e he
    · obtain ⟨n, -, rfl⟩ := List.mem_map.1 he
      exact ⟨n, rfl⟩

namespace Closes

theorem trans (h : Closes t order t') (h' : Closes t' order' t'') :
    Closes t (order ++ order') t'' := by
  induction h' with
  | refl => rwa [List.append_nil]
  | take _ he ih => exact ih.take he
  | tearDown _ owner hv ih =>
    rw [← List.append_assoc]
    exact ih.tearDown owner hv

theorem sound (h : Closes t order t') (ht : t.Sound) : t'.Sound := by
  induction h with
  | refl => exact ht
  | take _ _ ih => exact ih.world (.refl _) (Nat.le_refl _)
  | @tearDown t' _ v _ owner _ ih =>
    have hstep : Step .terminate t' [] (unregisterService owner ⟨t', none⟩ v.service).tree :=
      .unregister t' owner v.service
    exact hstep.sound ih

theorem closing (h : Closes t order t') (ht : t.Sound) : Closing t t' order := by
  induction h with
  | refl => exact .refl _
  | take _ he ih =>
    have hc := ih.trans (.take he)
    rwa [List.append_nil] at hc
  | tearDown h owner hv ih => exact ih.trans (.tearDown (h.sound ht) owner hv)

end Closes

theorem unregisterServices_closes (owner : NodeId) (services : List NodeId) (o : Outcome σ) :
    ∃ order, Closes o.tree order (services.foldl (unregisterService owner) o).tree := by
  induction services generalizing o with
  | nil => exact ⟨[], .refl⟩
  | cons s rest ih =>
    obtain ⟨order, hfirst⟩ : ∃ order, Closes o.tree order (unregisterService owner o s).tree := by
      cases hv : o.tree.service? s with
      | none =>
        refine ⟨[], ?_⟩
        simp only [unregisterService, hv]
        exact .refl
      | some v =>
        obtain ⟨-, rfl⟩ := service?_eq_some hv
        rw [unregisterService_tree]
        exact ⟨_, Closes.refl.tearDown owner hv⟩
    obtain ⟨order', hrest⟩ := ih (unregisterService owner o s)
    exact ⟨order ++ order', hfirst.trans hrest⟩

/-- Once only nodes that went are left to be settled, settling tears services down. -/
theorem settleFrom_closes (first : Option StackError) (ht : t.Sound)
    (hp : ∀ e ∈ t.world.events.toList, ∃ n, e = .popped n) :
    ∃ order, Closes t order (t.settleFrom first).tree := by
  induction first, t using settleFrom.induct with
  | case1 first t hq =>
    rw [settleFrom_of_none hq]
    exact ⟨[], .refl⟩
  | case2 first t e rest hq o ih =>
    have htake : Closes t [] { t with world := { t.world with events := rest } } :=
      Closes.refl.take hq
    obtain ⟨n, rfl⟩ := hp e (Queue.toList_of_pop? hq ▸ List.mem_cons_self)
    obtain ⟨order, hc⟩ := unregisterServices_closes n
      (({ t.world with events := rest } : World σ).graph.servicesOf n)
      ⟨{ t with world := { t.world with events := rest } }, none⟩
    have hc : Closes t order o.tree := htake.trans hc
    obtain ⟨order', hc'⟩ := ih (hc.sound ht) ((hc.closing ht).popped hp)
    rw [settleFrom_of_some hq]
    exact ⟨_, hc.trans hc'⟩

/-! ## A tree at rest -/

/-- Nothing is left of the tree that could call a node by itself. -/
structure Idle (t : Tree σ) : Prop where
  running : t.running = false
  main : t.main.nodes = []
  services : t.services = []
  settled : t.world.events.toList = []
  pending : t.world.schedule.pending = []

/-- The other tree is idle as well, and no node was called in between. -/
structure Rests (t t' : Tree σ) : Prop where
  idle : t'.Idle
  calls : t'.world.calls = t.world.calls

omit [Node σ] in
theorem Rests.trans (h : t.Rests t') (h' : t'.Rests t'') : t.Rests t'' :=
  ⟨h'.idle, h'.calls.trans h.calls⟩

theorem settle_of_settled (h : t.world.events.toList = []) : t.settle = ⟨t, none⟩ :=
  settleFrom_of_none (Queue.pop?_eq_none_iff.2 h) none

theorem conclude_of_settled (h : t.world.events.toList = []) (label : StackLabel)
    (fault : Option StackError) : conclude label ⟨t, fault⟩ = t.note label fault none := by
  simp [conclude, Outcome.settle, settle_of_settled h]

/-- The main stack of a tree that is not to run any more is ended. -/
def ended (t : Tree σ) : Outcome σ :=
  { t with running := false }.keepMain (t.main.terminate t.world)

/-- If settling the end of the main stack leaves no service, that is all. -/
theorem terminate_eq_settled (hs : t.ended.settle.tree.services = [])
    (hf : t.ended.settle.fault = none) (hq : t.ended.settle.tree.world.events.toList = []) :
    t.terminate = t.ended.settle := by
  have hc := conclude_of_settled hq .main none
  unfold terminate
  unfold ended at hs hf hq hc ⊢
  simp only
  generalize (({ t with running := false } : Tree σ).keepMain (t.main.terminate t.world)).settle
    = o at hs hf hq hc ⊢
  obtain ⟨t', fault⟩ := o
  cases hf
  simp only at hs
  rw [hs]
  exact hc

namespace Idle

omit [Node σ] in
theorem rests (h : t.Idle) : t.Rests t := ⟨h, rfl⟩

omit [Node σ] in
theorem note (h : t.Idle) (label : StackLabel) (fault first : Option StackError) :
    t.Rests (t.note label fault first).tree := by
  unfold Tree.note
  split
  · exact h.rests
  · exact ⟨⟨h.running, h.main, h.services, h.settled, h.pending⟩,
      World.calls_record _ fun _ _ => by simp⟩

omit [Node σ] in
theorem suspended? (h : t.Idle) : t.main.suspended? = none := by
  unfold Stack.suspended?
  split
  · simp [Stack.top?, h.main]
  · rfl

/-- A change of the main stack that leaves it empty, and calls no node. -/
theorem keepMain (h : t.Idle) {p : Pass σ Stack} (hn : p.after.nodes = [])
    (hs : t.world.Silent p.world) : t.Rests (conclude .main (t.keepMain p)).tree := by
  have hr : t.Rests (t.keepMain p).tree :=
    ⟨⟨h.running, hn, h.services, (congrArg Queue.toList hs.events).trans h.settled,
      (congrArg Schedule.pending hs.schedule).trans h.pending⟩, hs.calls⟩
  have hc : conclude .main (t.keepMain p) = (t.keepMain p).tree.note .main p.fault none :=
    conclude_of_settled hr.idle.settled .main p.fault
  rw [hc]
  exact hr.trans (hr.idle.note ..)

/-- A phase does nothing but set the clock: no task is due, and no stack moves. -/
theorem runPhase (h : t.Idle) (now : Tick) : t.runPhase now = ⟨t.atPhase now, none⟩ := by
  have hdue : t.due now = [] := by
    unfold due World.takeDue
    rw [Schedule.takeDue_fst, h.pending]
    rfl
  have hdrive : (t.atPhase now).driveMain now.phase = ⟨t.atPhase now, none⟩ := by
    simp [driveMain, atPhase, World.takeDue, h.running]
  have hserv : (t.atPhase now).services = [] := h.services
  rw [runPhase_eq, hdue]
  simp [driveAll, hdrive, Tree.note, hserv]

omit [Node σ] in
theorem atPhase (h : t.Idle) (now : Tick) : t.Rests (t.atPhase now) := by
  refine ⟨⟨h.running, h.main, h.services, h.settled, ?_⟩, rfl⟩
  have hp := Schedule.pending_takeDue t.world.schedule now.moment
  rw [h.pending] at hp
  exact hp

theorem phase (h : t.Idle) (now : Tick) : t.Rests (t.runPhase now).tree := by
  rw [h.runPhase]
  exact h.atPhase now

omit [Node σ] in
theorem service? (h : t.Idle) (s : NodeId) : t.service? s = none := by
  simp [Tree.service?, h.services]

theorem deliver (h : t.Idle) (p : Progress) (ok : Bool) : t.deliver p ok = none := by
  unfold Tree.deliver
  split
  · rfl
  · simp [Stack.isWaitingOn, Stack.top?, h.main, h.services]

theorem endAction (h : t.Idle) (p : Progress) (ok : Bool) : (t.endAction p ok).1 = t := by
  simp [Tree.endAction, h.deliver]

theorem tick (h : t.Idle) (dt : Float32) : t.Rests (t.tick dt).tree := by
  unfold Tree.tick update fixedUpdate lateUpdate
  simp only
  have h₁ := h.phase { number := t.world.tick.number + 1, dt, phase := .update }
  generalize t.runPhase { number := t.world.tick.number + 1, dt, phase := .update } = o₁ at h₁ ⊢
  have h₂ := h₁.idle.phase { number := o₁.tree.world.tick.number, dt, phase := .fixedUpdate }
  generalize o₁.tree.runPhase { number := o₁.tree.world.tick.number, dt, phase := .fixedUpdate }
    = o₂ at h₂ ⊢
  exact h₁.trans (h₂.trans (h₂.idle.phase _))

theorem terminate (h : t.Idle) : t.Rests t.terminate.tree := by
  obtain ⟨hn, hs⟩ := Stack.terminate_empty t.world h.main
  have hf := (Stack.terminate_eq (s := t.main) (w := t.world) (by simp [h.main])).1
  have hr : t.Rests t.ended.tree :=
    ⟨⟨rfl, hn, h.services, (congrArg Queue.toList hs.events).trans h.settled,
      (congrArg Schedule.pending hs.schedule).trans h.pending⟩, hs.calls⟩
  have he : t.ended.settle = t.ended := by
    simp [Outcome.settle, settle_of_settled hr.idle.settled]
  rw [terminate_eq_settled (by rw [he]; exact hr.idle.services) (by rw [he]; exact hf)
    (by rw [he]; exact hr.idle.settled), he]
  exact hr

/-- Whatever a host calls but `start` leaves an idle tree idle. -/
theorem perform (h : t.Idle) {call : HostCall} (hc : call ≠ .start) :
    t.Rests (t.perform call) := by
  cases call with
  | start => exact absurd rfl hc
  | update dt => exact h.phase _
  | fixedUpdate dt => exact h.phase { number := t.world.tick.number, dt, phase := .fixedUpdate }
  | lateUpdate dt => exact h.phase { number := t.world.tick.number, dt, phase := .lateUpdate }
  | tick dt => exact h.tick dt
  | receiveReturn ok =>
    have hr : t.main.receiveReturn t.world ok
        = ⟨t.main, t.world, some (.notWaiting t.main.label t.main.state)⟩ := by
      simp [Stack.receiveReturn, h.suspended?]
    exact h.keepMain (by rw [hr]; exact h.main) (by rw [hr]; exact .refl _)
  | endAction p ok =>
    show t.Rests (t.endAction p ok).1
    rw [h.endAction]
    exact h.rests
  | endNode node ok =>
    show t.Rests (t.endNode node ok).1
    unfold Tree.endNode
    split
    · exact h.rests
    · rw [h.endAction]
      exact h.rests
  | breakMain stopAt =>
    obtain ⟨hn, hs⟩ := Stack.breakTo_empty t.world h.main stopAt
    exact h.keepMain hn hs
  | breakService s stopAt =>
    show t.Rests (t.breakService s stopAt).1
    simp only [breakService, h.service?]
    exact h.rests
  | pause => exact ⟨⟨h.running, h.main, h.services, h.settled, h.pending⟩, rfl⟩
  | resume => exact ⟨⟨h.running, h.main, h.services, h.settled, h.pending⟩, rfl⟩
  | pauseService s | resumeService s =>
    simp [Tree.perform, pauseService, resumeService, onService, h.service?, Except.toOption,
      h.rests]
  | terminate => exact h.terminate
  | withConfig config =>
    exact ⟨⟨h.running, h.main, by simp [Tree.perform, withConfig, h.services], h.settled,
      h.pending⟩, rfl⟩
  | setVariables b => exact ⟨⟨h.running, h.main, h.services, h.settled, h.pending⟩, rfl⟩

end Idle

/-- Without a start an idle tree stays idle, and no node is called. -/
theorem Idle.performAll (h : t.Idle) {calls : List HostCall} (hc : .start ∉ calls) :
    t.Rests (t.performAll calls) := by
  induction calls generalizing t with
  | nil => exact h.rests
  | cons call rest ih =>
    have hr := h.perform fun he : call = .start => hc (he ▸ List.mem_cons_self)
    exact hr.trans (ih hr.idle fun hm => hc (List.mem_cons_of_mem _ hm))

/-! ## The end -/

/-- Ending the main stack rolls it back, and only nodes that went are left to be settled. -/
theorem ended_rolledBack (ht : t.Sound) (hq : t.world.events.toList = []) :
    t.ended.tree.main.state = .ended ∧
      World.RolledBack .main t.main.nodes t.world t.ended.tree.world ∧
      ∀ e ∈ t.ended.tree.world.events.toList, ∃ n, e = .popped n := by
  obtain ⟨hst, hr⟩ := Stack.terminate_rolledBack ht.main.known
  rw [ht.main_label] at hr
  refine ⟨hst, hr, fun e he => ?_⟩
  have he : e ∈ (t.main.terminate t.world).world.events.toList := he
  rw [hr.events, hq, List.nil_append] at he
  obtain ⟨n, -, rfl⟩ := List.mem_map.1 he
  exact ⟨n, rfl⟩

omit [Node σ] in
/-- Where only active nodes have asked for anything and none is active, nothing is asked for. -/
theorem EngagedActive.released (h : t.EngagedActive) (hm : t.main.nodes = [])
    (hs : t.services = []) :
    t.world.schedule.pending = [] ∧ ∀ n, t.world.observers n = [] := by
  have hnone : ∀ n, ¬t.world.Engaged n := fun n he => by simpa [Active, hm, hs] using h n he
  refine ⟨List.eq_nil_iff_forall_not_mem.2 fun task ht => ?_, fun n => ?_⟩
  · exact hnone task.progress.node (.inr ⟨task, ht, rfl⟩)
  · by_contra ho
    exact hnone n (.inl ho)

/-- Once the end of the main stack is settled no service is left, and nothing to be settled. -/
theorem settle_ended (ht : t.Sound) (ho : t.layout.Orderly) :
    t.ended.settle.tree.services = [] ∧ t.ended.settle.fault = none ∧
      t.ended.settle.tree.world.events.toList = [] := by
  obtain ⟨hfault, hnil⟩ := Stack.terminate_eq ht.main.known
  have hm : t.layout.Moves t.ended.tree.layout := keepMain_moves (Stack.terminate_made ..)
  obtain ⟨hms, hqs, hfs⟩ := settle_moves (ho.moves hm)
  have hmain : t.ended.settle.tree.main = t.ended.tree.main := main_settleFrom ..
  refine ⟨services_nil_of_settled ((ho.moves hm).moves hms) (by rw [hmain]; exact hnil) hqs, ?_,
    hqs⟩
  show (t.main.terminate t.world).fault.or t.ended.tree.settle.fault = none
  rw [hfault, hfs, Option.or_none]

/-- The end of a tree is done when the end of its main stack is settled. -/
theorem terminate_eq_ended (ht : t.Sound) (ho : t.layout.Orderly) :
    t.terminate = t.ended.settle :=
  have ⟨hs, hf, hq⟩ := settle_ended ht ho
  terminate_eq_settled hs hf hq

/-- A tree that is settled is idle once it is ended, and only services were torn down. -/
theorem terminate_settled (ht : t.Sound) (hd : t.EngagedActive) (ho : t.layout.Orderly)
    (hq : t.world.events.toList = []) :
    t.terminate = t.ended.settle ∧ t.terminate.fault = none ∧ t.terminate.tree.Idle ∧
      ∃ order, Closes t.ended.tree order t.terminate.tree ∧
        Closing t.ended.tree t.terminate.tree order := by
  obtain ⟨hst, hr, hp⟩ := ended_rolledBack ht hq
  obtain ⟨-, hnil⟩ := Stack.terminate_eq ht.main.known
  have hmain : t.ended.settle.tree.main = t.ended.tree.main := main_settleFrom ..
  obtain ⟨hserv, hf, hqs⟩ := settle_ended ht ho
  have he := terminate_eq_ended ht ho
  have hstep : Step .terminate t [] { t with running := false } := .fields t _ _ _ _
  have hsound : t.ended.tree.Sound := (hstep.sound ht).keepMain .terminate
  obtain ⟨order, hcloses⟩ := settleFrom_closes none hsound hp
  have hc := hcloses.closing hsound
  obtain ⟨found, hrun⟩ := perform_runs ht .terminate
  have hrel := (hrun.engagedActive ht hd).released
  rw [show t.perform .terminate = t.ended.settle.tree from congrArg Outcome.tree he] at hrel
  rw [he]
  refine ⟨rfl, hf, ⟨?_, by rw [hmain]; exact hnil, hserv, hqs, ?_⟩, order, hcloses, hc⟩
  · exact congrArg running hc.rest
  · exact (hrel (by rw [hmain]; exact hnil) hserv).1

/-- The end `o` of the tree `t` is complete. -/
structure ShutDown (t : Tree σ) (o : Outcome σ) : Prop where
  fault : o.fault = none
  main : o.tree.main.nodes = [] ∧ o.tree.main.state = .ended
  services : o.tree.services = []
  pending : o.tree.world.schedule.pending = []
  observers : ∀ n, o.tree.world.observers n = []
  /-- All is done once the end of the main stack is settled; no service is left over. -/
  settled : o = t.ended.settle
  /-- The main stack is rolled back and then, service by service, all the others; each that is a
  service at that moment is told so, once, and no other method of a node is called. -/
  rolledBack : ∃ order, Closes t.ended.tree order o.tree ∧ (order.map (·.1)).Perm t.services ∧
    o.tree.world.happenings
      = t.world.happenings ++ rolledBack .main t.main.nodes ++ closed order
  /-- Nothing of that is named twice. -/
  once : (t.services.map (·.service)).Nodup ∧ ∀ s ∈ t.activeStacks, s.nodes.Nodup
  /-- Every observer is told, and none twice. -/
  told : ∀ n, o.tree.world.told n = t.world.told n ++ t.world.observers n
  /-- No node is called again before the next start. -/
  quiet : ∀ later : List HostCall, .start ∉ later →
    (o.tree.performAll later).world.calls = o.tree.world.calls

/-- The end of a tree finds no rule broken and is complete. -/
theorem EngagedActive.shutDown (hd : t.EngagedActive) (ht : t.Sound) (ho : t.layout.Orderly)
    (hq : t.layout.queue = []) : ShutDown t t.terminate := by
  obtain ⟨he, hf, hi, order, hcloses, hc⟩ := terminate_settled ht hd ho hq
  obtain ⟨hst, hr, -⟩ := ended_rolledBack ht hq
  obtain ⟨found, hrun⟩ := perform_runs ht .terminate
  obtain ⟨hpending, hobs⟩ := (hrun.engagedActive ht hd).released hi.main hi.services
  have hmain : t.terminate.tree.main = t.ended.tree.main := by rw [hc.rest]
  have hperm : (order.map (·.1)).Perm t.services := by
    have hp := hc.services
    rw [hi.services, List.append_nil] at hp
    exact hp
  refine ⟨hf, ⟨hi.main, by rw [hmain]; exact hst⟩, hi.services, hpending, hobs, he,
    ⟨order, hcloses, hperm, ?_⟩, ⟨ht.nodup, fun s hm => ?_⟩, fun n => ?_,
    fun later hl => (hi.performAll hl).calls⟩
  · rw [hc.happenings, hr.happenings]
  · rcases List.mem_cons.1 hm with rfl | hm
    · exact ht.main.nodup
    · obtain ⟨v, hv, rfl⟩ := List.mem_map.1 hm
      exact (ht.services v hv).nodup
  · have hsum := (hc.summoned n).trans (hr.summoned n)
    unfold World.summoned at hsum
    rw [show t.terminate.tree.world.observers n = [] from hobs n, List.append_nil] at hsum
    exact hsum

theorem performAll_orderly {g : Graph σ} {root : NodeId} {b : Blackboard}
    (hm : make g root b = .ok t) (calls : List HostCall) :
    (t.performAll calls).layout.Orderly ∧ (t.performAll calls).layout.queue = [] := by
  obtain ⟨ho, hq⟩ := orderly_make hm
  obtain ⟨hmoves, hsettled⟩ := (performAll_evolves t calls).step ho hq
  exact ⟨ho.moves hmoves, hsettled⟩

/-- Whatever was called before, the end of a tree finds no rule broken and is complete. -/
theorem shutDown_terminate {g : Graph σ} {root : NodeId} {b : Blackboard} (hb : g.Built)
    (hm : make g root b = .ok t) (calls : List HostCall) :
    ShutDown (t.performAll calls) (t.performAll calls).terminate := by
  have hs := sound_make hm
  obtain ⟨ho, hq⟩ := performAll_orderly hm calls
  exact (performAll_engagedActive hs (engagedActive_make hb hm) calls).shutDown
    (performAll_sound hs calls) ho hq

/-- A tree is ended while its service runs: both stacks are rolled back, and the service goes. -/
theorem shutDown_terminate_beaconBeside :
    ∃ t, make beaconBeside ⟨2⟩ {} = .ok t ∧
      (t.performAll [.start, .update 0]).main.nodes = [⟨2⟩] ∧
      (t.performAll [.start, .update 0]).services.flatMap (·.stack.nodes) = [⟨0⟩, ⟨1⟩] ∧
      ShutDown (t.performAll [.start, .update 0])
        (t.performAll [.start, .update 0]).terminate :=
  ⟨_, rfl, by decide +kernel, by decide +kernel,
    shutDown_terminate built_beaconBeside (rfl : make beaconBeside ⟨2⟩ {} = .ok _) _⟩

end Tree

end BehaviorTree
