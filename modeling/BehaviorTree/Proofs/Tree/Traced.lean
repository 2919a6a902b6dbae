/-
The trace of a tree is a log of its stacks and services.

Played once more from the beginning, the events of each stack leave the nodes that are on it,
and the events of the registry leave the services that are registered, in their order, each
with the number of runs since it was registered. No event in the trace misses: a node that
goes was on top, a depth is the depth then, and a service that goes had as many runs as its
last event says. A service is taken out of the tree before its stack is traced as empty, and
one that is registered again uses the same stack id, so this is shown of every motion, not
only between calls.
-/
import BehaviorTree.Proofs.Stack.Traced
import BehaviorTree.Proofs.Tree.Motions

namespace BehaviorTree

namespace TraceEvent

/-- Play an event once more on the services that are registered, each with its runs so far.
None if it does not fit: a service is registered once at a time, only a registered one starts
or goes, and the value of the event by which it goes is the number of its runs. -/
def replayService (services : List (NodeId × Nat)) (e : TraceEvent) :
    Option (List (NodeId × Nat)) :=
  if e.tag ∉ registryTags then some services
  else e.stack.bind fun index =>
    match services.find? (·.1 = ⟨index⟩), e.tag with
    | none, "bt.service.register" => some (services ++ [(⟨index⟩, 0)])
    | some _, "bt.service.start" =>
      some (services.map fun x => if x.1 = ⟨index⟩ then (x.1, x.2 + 1) else x)
    | some (_, runs), "bt.service.unregister" =>
      if e.value = runs then some (services.eraseP (·.1 = ⟨index⟩)) else none
    | _, _ => none

theorem replayService_of_not_mem {e : TraceEvent} (h : e.tag ∉ registryTags)
    (services : List (NodeId × Nat)) : e.replayService services = some services :=
  if_pos h

section Fits

variable {services : List (NodeId × Nat)} {e : TraceEvent} {s : NodeId} {runs : Nat}

theorem replayService_register (ht : e.tag = "bt.service.register") (hs : e.stack = some s.index)
    (hf : services.find? (·.1 = s) = none) :
    e.replayService services = some (services ++ [(s, 0)]) := by
  simp [replayService, registryTags, ht, hs, hf]

theorem replayService_start (ht : e.tag = "bt.service.start") (hs : e.stack = some s.index)
    (hf : services.find? (·.1 = s) = some (s, runs)) :
    e.replayService services
      = some (services.map fun x => if x.1 = s then (x.1, x.2 + 1) else x) := by
  simp [replayService, registryTags, ht, hs, hf]

theorem replayService_unregister (ht : e.tag = "bt.service.unregister")
    (hs : e.stack = some s.index) (hf : services.find? (·.1 = s) = some (s, runs))
    (hv : e.value = runs) : e.replayService services = some (services.eraseP (·.1 = s)) := by
  simp [replayService, registryTags, ht, hs, hf, hv]

end Fits

end TraceEvent

/-- Play the events of the registry once more, from the beginning. -/
def replayServices (events : List TraceEvent) : Option (List (NodeId × Nat)) :=
  events.foldlM TraceEvent.replayService []

theorem replayServices_append (events new : List TraceEvent) :
    replayServices (events ++ new)
      = (replayServices events).bind fun services => new.foldlM TraceEvent.replayService services :=
  List.foldlM_append

theorem replayServices_of_not_mem (events : List TraceEvent) {new : List TraceEvent}
    (h : ∀ e ∈ new, e.tag ∉ registryTags) :
    replayServices (events ++ new) = replayServices events := by
  have hnew : ∀ services, new.foldlM TraceEvent.replayService services = some services := by
    intro services
    induction new with
    | nil => rfl
    | cons e new ih =>
      rw [List.foldlM_cons, TraceEvent.replayService_of_not_mem (h e List.mem_cons_self)]
      exact ih fun e' he' => h e' (List.mem_cons_of_mem e he')
  rw [replayServices_append]
  cases replayServices events with
  | none => rfl
  | some services => exact hnew services

namespace Tree

variable {σ : Type}

/-- The nodes of the stack `label`; none are on a stack that is not there. -/
def nodesOf (t : Tree σ) (label : StackLabel) : List NodeId :=
  ((t.stack? label).map (·.nodes)).getD []

/-- The services that are registered, with their runs. -/
def registry (t : Tree σ) : List (NodeId × Nat) := t.services.map fun v => (v.service, v.runs)

/-- The trace, played once more, leaves the stacks and the services as they are. -/
structure Traced (t : Tree σ) : Prop where
  nodes : ∀ label, replayStack label t.world.traced = some (t.nodesOf label)
  services : replayServices t.world.traced = some t.registry

variable {t t' : Tree σ}

theorem find?_registry (t : Tree σ) (s : NodeId) :
    t.registry.find? (·.1 = s) = (t.service? s).map fun v => (v.service, v.runs) := by
  unfold registry service?
  rw [List.find?_map]
  rfl

theorem eraseP_registry (s : NodeId) (services : List Service) :
    (services.map fun v => (v.service, v.runs)).eraseP (·.1 = s)
      = (services.eraseP (·.service = s)).map fun v => (v.service, v.runs) := by
  rw [List.eraseP_map]
  rfl

/-- A service that keeps its id changes its own entry only. -/
theorem registry_putService {v v' : Service} (hn : (t.services.map (·.service)).Nodup)
    (hv : v ∈ t.services) (hs : v'.service = v.service) (f : Nat → Nat)
    (hr : v'.runs = f v.runs) :
    (t.putService v').registry
      = t.registry.map fun x => if x.1 = v.service then (x.1, f x.2) else x := by
  unfold registry putService
  rw [List.map_map, List.map_map]
  refine List.map_congr_left fun old ho => ?_
  by_cases h : old.service = v.service
  · simp [service_unique hn ho hv h, hs, hr]
  · simp [h, hs]

/-- The stacks of a tree with one service more. -/
theorem stack?_append {v : Service} (h : t.service? v.service = none) (w : World σ)
    (label : StackLabel) :
    ({ t with world := w, services := t.services ++ [v] } : Tree σ).stack? label
      = if label = .service v.service then some v.stack else t.stack? label := by
  cases label with
  | main => rfl
  | service s =>
    show Option.map _ (List.find? _ (t.services ++ [v])) = _
    rw [List.find?_append, show t.services.find? (·.service = s) = t.service? s from rfl]
    by_cases hs : s = v.service
    · subst hs
      simp [h]
    · have hne : ¬v.service = s := fun he => hs he.symm
      simp [hs, hne, stack?]

/-! ## What a motion keeps -/

/-- A world that traced nothing that counts. -/
theorem Traced.quiet (h : t.Traced) (hs : ∀ label, t'.nodesOf label = t.nodesOf label)
    (hr : t'.registry = t.registry) {new : List TraceEvent}
    (hw : t'.world.traced = t.world.traced ++ new) (hn : ∀ e ∈ new, IsPlain e.tag) :
    t'.Traced where
  nodes label := by
    rw [hw, replayStack_append, h.nodes label, hs label]
    exact foldlM_replay_of_none (fun e he => TraceEvent.replay_of_plain (hn e he) label) _
  services := by
    rw [hw, replayServices_of_not_mem _ fun e he => (hn e he).2.2, h.services, hr]

theorem Traced.same (h : t.Traced) (hs : ∀ label, t'.nodesOf label = t.nodesOf label)
    (hr : t'.registry = t.registry) (hw : t'.world.traced = t.world.traced) : t'.Traced := by
  rw [← List.append_nil t.world.traced] at hw
  exact h.quiet hs hr hw (by simp)

/-- One stack traced what became of its nodes. -/
theorem Traced.log {label : StackLabel} {ns : List NodeId} {w : World σ} (h : t.Traced)
    (hl : Stack.Log label (t.nodesOf label, t.world) (ns, w)) :
    (∀ other, replayStack other w.traced
        = some (if other = label then ns else t.nodesOf other)) ∧
      replayServices w.traced = some t.registry := by
  obtain ⟨new, hw, hof, hn⟩ := hl
  simp only at hw
  refine ⟨fun other => ?_, ?_⟩
  · rw [hw, replayStack_append, h.nodes other]
    by_cases ho : other = label
    · subst ho
      rw [if_pos rfl]
      exact hn
    · rw [if_neg ho]
      refine foldlM_replay_of_none (fun e he => TraceEvent.replay_of_ne fun hs => ho ?_) _
      exact StackLabel.traceId_injective (hs.symm.trans (hof e he).stack)
  · rw [hw, replayServices_of_not_mem _ fun e he => (hof e he).tag, h.services]

variable [Node σ]

omit [Node σ] in
theorem Sound.nodesOf_service (ht : t.Sound) {v : Service} (hv : v ∈ t.services) :
    t.nodesOf (.service v.service) = v.stack.nodes := by
  rw [← ht.labels v hv, nodesOf, stack?_of_mem ht hv]
  rfl

theorem traced_main (h : t.Traced) (ht : t.Sound) (op : Stack.Operation) :
    (t.keepMain (t.main.perform t.world op)).tree.Traced := by
  have hl := (t.main.perform_logs t.world op).log
  rw [ht.main_label] at hl
  obtain ⟨hs, hr⟩ := h.log hl
  refine ⟨fun label => (hs label).trans ?_, hr⟩
  cases label with
  | main => rfl
  | service s => rfl

theorem traced_service {v v' : Service} {w : World σ} (h : t.Traced) (ht : t.Sound)
    (hv : v ∈ t.services) (hm : Service.Motion (v, t.world) (v', w)) :
    ({ t.putService v' with world := w } : Tree σ).Traced := by
  have hlabel : v.label = .service v.service := ht.labels v hv
  have hstack := ht.nodesOf_service hv
  have hnodes : ∀ label, ({ t.putService v' with world := w } : Tree σ).nodesOf label
      = if label = .service v.service then v'.stack.nodes else t.nodesOf label := by
    intro label
    unfold nodesOf
    rw [stack?_putService ht hv hm.service]
    split <;> rfl
  have hsame : v'.stack.nodes = v.stack.nodes → ∀ label,
      ({ t.putService v' with world := w } : Tree σ).nodesOf label = t.nodesOf label := by
    intro he label
    rw [hnodes, he]
    split
    · next hl => rw [hl, hstack]
    · rfl
  have hput : ∀ f : Nat → Nat, v'.runs = f v.runs →
      ({ t.putService v' with world := w } : Tree σ).registry
        = t.registry.map fun x => if x.1 = v.service then (x.1, f x.2) else x :=
    registry_putService ht.nodup hv hm.service
  have hregistry : v'.runs = v.runs →
      ({ t.putService v' with world := w } : Tree σ).registry = t.registry := fun hr =>
    (hput id hr).trans (by simp)
  cases hm with
  | @operate _ _ op =>
    have hl := (v.stack.perform_logs t.world op).log
    rw [show v.stack.label = .service v.service from hlabel, ← hstack] at hl
    obtain ⟨hs, hr⟩ := h.log hl
    exact ⟨fun label => (hs label).trans (congrArg some (hnodes label).symm),
      hr.trans (congrArg some (hregistry rfl).symm)⟩
  | ask => exact h.same (hsame rfl) (hregistry rfl) (World.traced_ready t.world v.service)
  | preempt =>
    have hp : IsPlain "bt.service.preempt" := by decide
    exact h.quiet (hsame rfl) (hregistry rfl) (World.traced_trace ..) (by simpa using hp)
  | start =>
    refine ⟨fun label => ?_, ?_⟩
    · rw [hsame rfl label, World.traced_trace, replayStack_append, h.nodes label]
      simp [TraceEvent.replay]
    · have hf : t.registry.find? (·.1 = v.service) = some (v.service, v.runs) := by
        rw [find?_registry, service?_of_mem ht.nodup hv]
        rfl
      rw [World.traced_trace, replayServices_append, h.services, Option.bind_some,
        List.foldlM_cons, TraceEvent.replayService_start rfl
          (congrArg StackLabel.traceId hlabel) hf]
      exact congrArg some (hput (· + 1) rfl).symm

/-- A service is registered with an empty stack. -/
theorem traced_register (h : t.Traced) (owner s : NodeId) :
    (registerService owner t s).Traced := by
  unfold registerService
  split
  · exact h
  next hr =>
  have hnone : t.service? s = none := by simpa [isRegistered] using hr
  refine ⟨fun label => ?_, ?_⟩
  · rw [World.traced_trace, World.traced_registered, replayStack_append, h.nodes label]
    have hs : Tree.nodesOf { t with
        world := (t.world.registered s).trace "bt.service.register" (.service s) owner 0
        services := t.services ++ [Service.make s owner t.config] } label = t.nodesOf label := by
      unfold nodesOf
      rw [stack?_append (v := Service.make s owner t.config) hnone]
      split
      · next hl =>
        have hs : t.stack? (.service s) = none := by simp [stack?, hnone]
        rw [hl, show (Service.make s owner t.config).service = s from rfl, hs]
        rfl
      · rfl
    rw [hs]
    simp [TraceEvent.replay]
  · rw [World.traced_trace, World.traced_registered, replayServices_append, h.services,
      Option.bind_some, List.foldlM_cons, TraceEvent.replayService_register (s := s) rfl rfl
        (by rw [find?_registry, hnone]; rfl)]
    simp [registry, Service.make]

theorem traced_unregister (h : t.Traced) (ht : t.Sound) (owner s : NodeId) :
    (unregisterService owner ⟨t, none⟩ s).tree.Traced := by
  unfold unregisterService
  split
  · exact h
  next v hv =>
  obtain ⟨hm, rfl⟩ : v ∈ t.services ∧ v.service = s := service?_eq_some hv
  have hlabel : v.stack.label = .service v.service := ht.labels v hm
  have hnil := (Stack.terminate_eq (ht.services v hm).known).2
  have hl := (v.stack.terminate_logs t.world).log
  have hstack := ht.nodesOf_service hm
  rw [hlabel, hnil, ← hstack] at hl
  obtain ⟨hs, hr⟩ := h.log hl
  refine ⟨fun label => ?_, ?_⟩
  · rw [World.traced_trace, World.traced_unregistered, replayStack_append, hs label]
    have herase : Tree.nodesOf { t with
        world := ((v.stack.terminate t.world).world.unregistered v.service).trace
          "bt.service.unregister" (.service v.service) owner v.runs
        services := t.services.eraseP (·.service = v.service) } label
          = if label = .service v.service then [] else t.nodesOf label := by
      unfold nodesOf
      rw [stack?_eraseService ht]
      split <;> rfl
    rw [herase]
    simp [TraceEvent.replay]
  · have hf : t.registry.find? (·.1 = v.service) = some (v.service, v.runs) := by
      rw [find?_registry, hv]
      rfl
    rw [World.traced_trace, World.traced_unregistered, replayServices_append, hr,
      Option.bind_some, List.foldlM_cons, TraceEvent.replayService_unregister rfl rfl hf rfl]
    exact congrArg some (eraseP_registry v.service t.services)

/-- What was traced tells the stacks and the services after every motion. -/
theorem Motion.traced (hm : Motion t t') (ht : t.Sound) (h : t.Traced) : t'.Traced := by
  cases hm with
  | main => exact traced_main h ht _
  | service hv hm => exact traced_service h ht hv hm
  | register => exact traced_register h _ _
  | unregister owner s => exact traced_unregister h ht owner s
  | fire =>
    have hp : IsPlain "bt.deferred.fire" := by decide
    exact h.quiet (fun label => by cases label <;> rfl) rfl (World.traced_trace ..)
      (by simpa using hp)
  | report => exact h.same (fun label => by cases label <;> rfl) rfl (World.traced_report ..)
  | config c =>
    refine h.same (fun label => ?_) ?_ rfl
    · rw [nodesOf, stack?_withConfig, Option.map_map]
      rfl
    · simp [registry, withConfig]
  | take | clock | due | setVariables | fields =>
    exact h.same (fun label => by cases label <;> rfl) rfl rfl

omit [Node σ] in
theorem traced_make {g : Graph σ} {root : NodeId} {b : Blackboard} (h : make g root b = .ok t) :
    t.Traced := by
  obtain ⟨-, rfl⟩ := make_ok h
  refine ⟨fun label => ?_, rfl⟩
  cases label <;> rfl

/-- The trace is a faithful log: whatever was called, played once more it leaves, for each
stack, the nodes that are on it, and the services that are registered, in their order and with
their runs; and no event in it misses. -/
theorem trace_faithful {g : Graph σ} {root : NodeId} {b : Blackboard} (hm : make g root b = .ok t)
    (calls : List HostCall) :
    (∀ label, replayStack label (t.performAll calls).world.traced
      = some ((t.performAll calls).nodesOf label)) ∧
    replayServices (t.performAll calls).world.traced = some (t.performAll calls).registry := by
  obtain ⟨hs, hr⟩ := (motions_of_make hm calls).induction (sound_make hm) (traced_make hm)
    fun _ _ ht hm h => hm.traced ht h
  exact ⟨hs, hr⟩

/-- A tree is ended while its service runs, and started again. -/
def startedTwice : List HostCall := [.start, .update 0, .terminate, .start, .update 0]

/-- The service goes and is registered again, and its stack is told as it grew anew. -/
theorem trace_faithful_beaconBeside :
    ∃ t, make beaconBeside ⟨2⟩ {} = .ok t ∧
      ((t.performAll startedTwice).world.traced.map (·.tag)).count "bt.service.unregister" = 1 ∧
      (t.performAll startedTwice).nodesOf (.service ⟨1⟩) = [⟨0⟩, ⟨1⟩] ∧
      (t.performAll startedTwice).registry = [(⟨1⟩, 1)] ∧
      (∀ label, replayStack label (t.performAll startedTwice).world.traced
        = some ((t.performAll startedTwice).nodesOf label)) ∧
      replayServices (t.performAll startedTwice).world.traced
        = some (t.performAll startedTwice).registry :=
  ⟨_, rfl, by decide +kernel, by decide +kernel, by decide +kernel,
    trace_faithful (rfl : make beaconBeside ⟨2⟩ {} = .ok _) _⟩

end Tree

end BehaviorTree
