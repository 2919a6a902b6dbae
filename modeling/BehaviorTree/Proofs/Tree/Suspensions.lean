/-
How the stacks of a tree are suspended can be read off its trace.

Of every stack that is suspended the trace tells how, if no hook answers with another kind of
wait than its node does. The condition is needed: a hook may turn a wait that only an outside
end lifts into one for the next update, and the trace has no event for that.
-/
import BehaviorTree.Proofs.Stack.Suspensions
import BehaviorTree.Proofs.Tree.Traced

namespace BehaviorTree.Tree

variable {σ : Type} [Node σ] {g : Graph σ} {t t' : Tree σ}

/-- The trace tells of every stack how it is suspended, if it is. -/
structure Announced (g : Graph σ) (t : Tree σ) : Prop where
  grown : g.Grown t.world.graph
  suspensions : ∀ label s, t.stack? label = some s → s.Announced g t.world

omit [Node σ] in
/-- A tag that tells of no node that comes or goes, and of no suspension. -/
theorem lastSuspension_trace (w : World σ) {tag : String}
    (h : tag ∉ ["bt.stack.push", "bt.stack.pop", "bt.stack.wait", "bt.stack.wait_next_update"])
    (stack : StackLabel) (node : Option NodeId) (value : Int) (label : StackLabel) :
    lastSuspension label (w.trace tag stack node value).traced = lastSuspension label w.traced := by
  simp only [List.mem_cons, List.not_mem_nil, or_false, not_or] at h
  rw [World.traced_trace, lastSuspension_append]
  simp [TraceEvent.suspension, h]

omit [Node σ] in
/-- What one stack traces tells nothing of the others. -/
theorem lastSuspension_log {label other : StackLabel} {x y : List NodeId × World σ}
    (h : Stack.Log label x y) (ho : other ≠ label) :
    lastSuspension other y.2.traced = lastSuspension other x.2.traced := by
  obtain ⟨new, hw, hof, -⟩ := h
  rw [hw]
  refine lastSuspension_of_ne _ fun e he hs => ho ?_
  exact StackLabel.traceId_injective (hs.symm.trans (hof e he).stack)

/-- A stack is left alone by what is traced in a new world. -/
theorem Announced.stack (h : Announced g t) (ht : t.Sound) {label : StackLabel} {s : Stack}
    (hs : t.stack? label = some s) {w : World σ}
    (hw : lastSuspension label w.traced = lastSuspension label t.world.traced) :
    s.Announced g w :=
  (h.suspensions label s hs).elsewhere (by rw [(ht.stack hs).2]; exact hw)

/-- All stacks are left alone. -/
theorem Announced.same (h : Announced g t) (ht : t.Sound)
    (hg : t.world.graph.Grown t'.world.graph) (hs : ∀ label, t'.stack? label = t.stack? label)
    (hw : ∀ label, lastSuspension label t'.world.traced = lastSuspension label t.world.traced) :
    Announced g t' :=
  ⟨h.grown.trans hg, fun label _ hl => h.stack ht ((hs label).symm.trans hl) (hw label)⟩

theorem announced_service {v v' : Service} {w : World σ} (hsteady : g.Steady)
    (h : Announced g t) (ht : t.Sound) (hv : v ∈ t.services)
    (hm : Service.Motion (v, t.world) (v', w)) :
    Announced g { t.putService v' with world := w } := by
  have hlabel : v.stack.label = .service v.service := ht.labels v hv
  have hstack : t.stack? (.service v.service) = some v.stack := hlabel ▸ stack?_of_mem ht hv
  refine ⟨h.grown.trans hm.frame.graph, fun label s hs => ?_⟩
  rw [stack?_putService ht hv hm.service] at hs
  cases hm with
  | @operate _ _ op hop =>
    have hl := (v.stack.perform_logs t.world op).log
    rw [hlabel] at hl
    split at hs
    · cases hs
      exact Stack.perform_announced h.grown hsteady (ht.services v hv) (h.suspensions _ _ hstack) hop
    · next ho => exact h.stack ht hs (lastSuspension_log hl ho)
  | ask | start | preempt =>
    have hold : t.stack? label = some s := by
      split at hs
      · next he => rw [he, hstack]; exact hs
      · exact hs
    refine h.stack ht hold ?_
    first
    | exact congrArg (lastSuspension label) (World.traced_ready t.world v.service)
    | exact lastSuspension_trace _ (by decide) ..

theorem announced_register (h : Announced g t) (ht : t.Sound) (owner s : NodeId) :
    Announced g (registerService owner t s) := by
  unfold registerService
  split
  · exact h
  next hr =>
  have hnone : t.service? s = none := by simpa [isRegistered] using hr
  refine ⟨h.grown.trans (World.registered_grown t.world s), fun label s' hs => ?_⟩
  rw [stack?_append (v := Service.make s owner t.config) hnone] at hs
  split at hs
  · cases hs
    exact Stack.announced_of_awake rfl
  · refine h.stack ht hs ((lastSuspension_trace _ (by decide) ..).trans ?_)
    exact congrArg (lastSuspension label) (World.traced_registered t.world s)

theorem announced_unregister (h : Announced g t) (ht : t.Sound) (owner s : NodeId) :
    Announced g (unregisterService owner ⟨t, none⟩ s).tree := by
  unfold unregisterService
  split
  · exact h
  next v hv =>
  obtain ⟨hm, rfl⟩ : v ∈ t.services ∧ v.service = s := service?_eq_some hv
  have hl := (v.stack.terminate_logs t.world).log
  rw [show v.stack.label = .service v.service from ht.labels v hm] at hl
  have hf := v.stack.perform_frame t.world .terminate
  refine ⟨h.grown.trans (hf.graph.trans (World.unregistered_grown _ v.service)),
    fun label s' hs => ?_⟩
  rw [stack?_eraseService ht] at hs
  split at hs
  · cases hs
  · next ho =>
    refine h.stack ht hs ((lastSuspension_trace _ (by decide) ..).trans ?_)
    exact (congrArg (lastSuspension label) (World.traced_unregistered ..)).trans
      (lastSuspension_log hl ho)

theorem Motion.announced (hm : Motion t t') (hsteady : g.Steady) (ht : t.Sound)
    (h : Announced g t) : Announced g t' := by
  cases hm with
  | @main op hop =>
    have hl := (t.main.perform_logs t.world op).log
    rw [ht.main_label] at hl
    refine ⟨h.grown.trans (t.main.perform_frame t.world op).graph, fun label s hs => ?_⟩
    cases label with
    | main =>
      cases hs
      exact Stack.perform_announced h.grown hsteady ht.main (h.suspensions .main _ rfl) hop
    | service id =>
      have hs : t.stack? (.service id) = some s := hs
      exact h.stack ht hs (lastSuspension_log hl (by simp))
  | service hv hm => exact announced_service hsteady h ht hv hm
  | register => exact announced_register h ht _ _
  | unregister owner s => exact announced_unregister h ht owner s
  | fire =>
    exact h.same ht (.refl _) (fun label => by cases label <;> rfl) fun label =>
      lastSuspension_trace _ (by decide) _ _ _ label
  | report =>
    exact h.same ht (.refl _) (fun label => by cases label <;> rfl) fun label =>
      congrArg (lastSuspension label) (World.traced_report ..)
  | config c =>
    refine ⟨h.grown, fun label s hs => ?_⟩
    rw [stack?_withConfig] at hs
    obtain ⟨s₀, hs₀, rfl⟩ := Option.map_eq_some_iff.1 hs
    exact (h.suspensions label s₀ hs₀).fields rfl rfl rfl rfl
  | take | clock | due | setVariables | fields =>
    exact h.same ht (.refl _) (fun label => by cases label <;> rfl) fun label => rfl

theorem announced_make {root : NodeId} {b : Blackboard} (h : make g root b = .ok t) :
    Announced g t := by
  obtain ⟨-, rfl⟩ := make_ok h
  refine ⟨.refl g, fun label s hs => ?_⟩
  cases label with
  | main => cases hs; exact Stack.announced_of_awake rfl
  | service id => cases hs

/-- Every suspension is traced, if the hooks answer with no other kind of wait than their
nodes: the last wait that a suspended stack traced since a node came or went is its state. -/
theorem suspension_traced {root : NodeId} {b : Blackboard} (hm : make g root b = .ok t)
    (hsteady : g.Steady) (calls : List HostCall) {label : StackLabel} {s : Stack}
    (hs : (t.performAll calls).stack? label = some s) (hw : s.isWaiting) :
    lastSuspension label (t.performAll calls).world.traced = some s.state := by
  have hr := motions_of_make hm calls
  have h := hr.induction (sound_make hm) (announced_make hm)
    fun _ _ ht hm h => hm.announced hsteady ht h
  have hsound := performAll_sound (sound_make hm) calls
  rw [← (hsound.stack hs).2]
  exact (h.suspensions label s hs).traced hw

/-- Waits for the next update whenever it is turned to, and whenever it hears a hook. -/
def parkingScript : Scripted where
  name := "Root"
  execute := [{ answer := some .waitUntilNextUpdate }]
  hooks := some fun _ => [{ answer := some .waitUntilNextUpdate }]

def parking : Graph Scripted where
  slots := #[{ name := "Root", node := parkingScript }]

/-- The script never comes to its end, and is never rewritten. -/
theorem parks_of_becomes {x : Scripted} (h : Node.Becomes parkingScript x) :
    x.execute = parkingScript.execute ∧ x.receive = [] ∧
      ∃ hooks, x.hooks = some hooks ∧ ∀ phase, hooks phase = parkingScript.execute := by
  induction h with
  | refl => exact ⟨rfl, rfl, _, rfl, fun _ => rfl⟩
  | tail _ hm ih =>
    obtain ⟨he, hr, hooks, hh, hp⟩ := ih
    cases hm with
    | execute ctx =>
      exact ⟨by simp [Node.execute, he, parkingScript, Plays.turn, following], hr, hooks, hh, hp⟩
    | receive ctx ok =>
      exact ⟨he, by simp [Node.receive, hr, Plays.turn, following], hooks, hh, hp⟩
    | hook ctx phase =>
      refine ⟨he, hr, _, rfl, fun phase' => ?_⟩
      split
      · simp [hh, hp, parkingScript, Plays.turn, following]
      · simp [hh, hp]
    | bind | stop | ready | registered | unregistered => exact ⟨he, hr, hooks, hh, hp⟩

theorem waits_parking {other : StackState} (h : Node.Waits parkingScript other) :
    other = .waitUntilNextUpdate := by
  cases h with
  | @execute x ctx hx h =>
    simpa [Node.execute, (parks_of_becomes hx).1, parkingScript, Plays.turn, following,
      Status.suspension?, eq_comm] using h
  | @receive x ctx ok hx h =>
    cases ok <;> simp [Node.receive, (parks_of_becomes hx).2.1, Plays.turn, following, Status.of,
      Status.suspension?] at h
  | hook h =>
    obtain ⟨x, ctx, phase, hx, -, h⟩ := h
    obtain ⟨-, -, hooks, hh, hp⟩ := parks_of_becomes hx
    simpa [Node.hook, hh, hp, parkingScript, Plays.turn, following, HookOutcome.suspension?,
      Status.suspension?, eq_comm] using h

theorem steady_parking : parking.Steady := by
  intro id slot hs kind hk other ho
  have hmem : slot ∈ parking.slots := Array.mem_of_getElem? hs
  obtain rfl : slot = { name := "Root", node := parkingScript } := by simpa [parking] using hmem
  exact (waits_parking ho).trans (waits_parking (.hook hk)).symm

/-- The root waits for the next update, and its hook says so once more. -/
theorem suspension_traced_parking :
    ∃ t, make parking ⟨0⟩ {} = .ok t ∧ ∃ s,
      (t.performAll [.start, .update 0]).stack? .main = some s ∧ s.isWaiting ∧
      lastSuspension .main (t.performAll [.start, .update 0]).world.traced = some s.state := by
  have hm : make parking ⟨0⟩ {}
      = .ok { root := ⟨0⟩, world := { graph := parking, blackboard := {} } } := rfl
  have hw : (performAll { root := ⟨0⟩, world := { graph := parking, blackboard := {} } }
      [.start, .update 0]).main.isWaiting := by decide +kernel
  exact ⟨_, hm, _, rfl, hw, suspension_traced hm steady_parking _ rfl hw⟩

/-- Waits to be ended from outside, until the hook of an update makes it a wait for the next. -/
def shiftingScript : Scripted where
  name := "Root"
  execute := [{ answer := some .wait }]
  hooks := some fun phase =>
    if phase = .update then [{ answer := some .waitUntilNextUpdate }] else []

def shifting : Graph Scripted where
  slots := #[{ name := "Root", node := shiftingScript }]

/-- A hook changes how the main stack waits, and nothing in the trace tells of it. -/
theorem suspension_not_traced_shifting :
    ∃ t, make shifting ⟨0⟩ {} = .ok t ∧
      (t.performAll [.start, .update 0]).main.state = .waitUntilNextUpdate ∧
      lastSuspension .main (t.performAll [.start, .update 0]).world.traced = some .waiting :=
  ⟨_, rfl, by decide +kernel, by decide +kernel⟩

end BehaviorTree.Tree
