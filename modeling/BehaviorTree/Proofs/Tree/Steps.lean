/-
What a tree does, step by step, with the rules that are found broken on the way.

A step is an operation on one stack, or one of the things that a tree or its host does
between them. A tree does to a stack by itself only what the state of the stack calls for
(`Stack.Admits`); the rest is done on the order of a call (`HostCall.Orders`). A run lists
the breaches that were found in it, and those that were reported; nothing is reported that
was not found.
-/
import BehaviorTree.Proofs.Stack.Reachable
import BehaviorTree.Proofs.Tree.Exclusive

namespace BehaviorTree

variable {σ : Type}

/-- A rule that was found broken on a stack. -/
structure Breach where
  stack : StackLabel
  error : StackError
deriving DecidableEq, Repr

/-- What a pass on the stack `label` found broken. -/
def Pass.breaches {κ : Type} (p : Pass σ κ) (label : StackLabel) : List Breach :=
  p.fault.toList.map (.mk label)

/-- What a tree does to a stack by itself, in the states in which it does it. -/
inductive Stack.Admits (head : NodeId) (s : Stack) : Stack.Operation → Prop
  | start (h : s.state = .ready) (hn : s.nodes = []) : Admits head s (.start head)
  | restart (h : s.state = .ended ∨ s.state = .ready ∧ s.nodes = []) : Admits head s (.restart head)
  | run (h : s.state = .ready ∧ s.nodes ≠ [] ∨ s.state = .calling ∨ s.state = .receiving) :
      Admits head s .run
  | receiveReturn (h : s.isWaiting) (ok : Bool) : Admits head s (.receiveReturn ok)
  | resumeNextUpdate (h : s.state = .waitUntilNextUpdate) : Admits head s .resumeNextUpdate
  | breakTo (h : s.state ≠ .invalid) : Admits head s (.breakTo none)
  | forwardHook (phase : Phase) : Admits head s (.forwardHook phase)

/-- What a call does to a stack whatever the state of the stack; `root` is the root of the
tree. -/
inductive HostCall.Orders (root : NodeId) : HostCall → StackLabel → Stack.Operation → Prop
  | start : Orders root .start .main (.restart root)
  | receiveReturn (ok : Bool) : Orders root (.receiveReturn ok) .main (.receiveReturn ok)
  | breakMain (stopAt : Option NodeId) : Orders root (.breakMain stopAt) .main (.breakTo stopAt)
  | breakService (service : NodeId) (stopAt : Option NodeId) :
      Orders root (.breakService service stopAt) (.service service) (.breakTo stopAt)
  | pause : Orders root .pause .main .pause
  | resume : Orders root .resume .main .resume
  | pauseService (service : NodeId) :
      Orders root (.pauseService service) (.service service) .pause
  | resumeService (service : NodeId) :
      Orders root (.resumeService service) (.service service) .resume
  | terminate : Orders root .terminate .main .terminate

variable [Node σ]

/-! ## Services -/

namespace Service

/-- One step of a service: an operation on its stack, a new count of its runs, the question
whether it is ready, or a trace event. -/
inductive Step (allowed : Stack.Operation → Prop) :
    Service × World σ → List Breach → Service × World σ → Prop
  | operate (v : Service) (w : World σ) {op : Stack.Operation}
      (h : v.stack.Admits v.service op ∨ allowed op) :
      Step allowed (v, w) ((v.stack.perform w op).breaches v.label)
        ({ v with stack := (v.stack.perform w op).after }, (v.stack.perform w op).world)
  | count (v : Service) (w : World σ) (lastStarted : Option Nat) (runs : Nat) :
      Step allowed (v, w) [] ({ v with lastStarted, runs }, w)
  | ask (v : Service) (w : World σ) : Step allowed (v, w) [] (v, (w.ready v.service).1)
  | trace (v : Service) (w : World σ) {tag : String} (h : IsQuiet tag) (node : Option NodeId)
      (value : Int) : Step allowed (v, w) [] (v, w.trace tag v.label node value)

variable {allowed : Stack.Operation → Prop} {x y : Service × World σ} {found : List Breach}

theorem Step.service (h : Step allowed x found y) : y.1.service = x.1.service := by
  cases h <;> rfl

theorem Step.label (h : Step allowed x found y) : y.1.label = x.1.label := by
  cases h with
  | operate v w _ => exact (Stack.perform_made v.stack w _).label
  | count | ask | trace => rfl

theorem Step.frame (h : Step allowed x found y) : x.2.Frame y.2 := by
  cases h with
  | operate v w _ => exact v.stack.perform_frame w _
  | count => exact .refl _
  | ask v w => exact (World.ready_keeps w v.service).toFrame
  | trace => exact (World.Keeps.trace ..).toFrame

theorem Step.sound (h : Step allowed x found y) (hs : x.1.stack.Sound x.2) :
    y.1.stack.Sound y.2 := by
  have hf := h.frame
  cases h with
  | operate v w _ => exact hs.perform _
  | count => exact hs
  | ask | trace =>
    exact hs.elsewhere (fun n hn => by rwa [hf.graph.contains])
      (Nat.le_of_eq (congrArg Tick.number hf.tick.symm))

end Service

namespace Tree

/-! ## Steps and runs -/

/-- One step of a tree in the course of a call. -/
inductive Step (call : HostCall) : Tree σ → List Breach → Tree σ → Prop
  | main (t : Tree σ) {op : Stack.Operation}
      (h : t.main.Admits t.root op ∨ call.Orders t.root .main op) :
      Step call t ((t.main.perform t.world op).breaches t.main.label)
        (t.keepMain (t.main.perform t.world op)).tree
  | service (t : Tree σ) {v v' : Service} {w : World σ} {found : List Breach}
      (hv : v ∈ t.services)
      (h : Service.Step (call.Orders t.root v.label) (v, t.world) found (v', w)) :
      Step call t found { t.putService v' with world := w }
  | register (t : Tree σ) {owner service : NodeId}
      (h : service ∈ t.world.graph.servicesOf owner) :
      Step call t [] (registerService owner t service)
  | unregister (t : Tree σ) (owner service : NodeId) :
      Step call t [] (unregisterService owner ⟨t, none⟩ service).tree
  | tearDown (t : Tree σ) {v : Service} (hc : call = .terminate) (hv : t.service? v.service = some v) :
      Step call t []
        { t with
          world := (v.stack.terminate t.world).world.unregistered v.service
          services := t.services.eraseP (·.service = v.service) }
  | take (t : Tree σ) {event : StackEvent} {events : Queue StackEvent}
      (h : t.world.events.pop? = some (event, events)) :
      Step call t [] { t with world := { t.world with events } }
  | trace (t : Tree σ) {tag : String} (h : IsQuiet tag) (label : StackLabel)
      (node : Option NodeId) (value : Int) :
      Step call t [] { t with world := t.world.trace tag label node value }
  | clock (t : Tree σ) {tick : Tick} (h : t.world.tick.number ≤ tick.number) :
      Step call t [] { t with world := { t.world with tick } }
  | due (t : Tree σ) : Step call t [] { t with world := t.world.takeDue.2 }
  | setVariables (t : Tree σ) {b : Blackboard} (h : call = .setVariables b) :
      Step call t [] { t with world := { t.world with blackboard := b } }
  | fields (t : Tree σ) (running : Bool) (endedAt : Option Nat) (completedRuns : Nat)
      (lastResult : Option Bool) :
      Step call t [] { t with running, endedAt, completedRuns, lastResult }
  | config (t : Tree σ) {config : Config} (h : call = .withConfig config) :
      Step call t [] (t.withConfig config)

/-- Any number of steps, with the breaches found and those reported. -/
inductive Runs (call : HostCall) : Tree σ → List Breach → List Breach → Tree σ → Prop
  | refl (t : Tree σ) : Runs call t [] [] t
  | step {t t' t'' : Tree σ} {found found' told : List Breach} (h : Runs call t found told t')
      (h' : Step call t' found' t'') : Runs call t (found ++ found') told t''
  | report {t t' : Tree σ} {found told : List Breach} {b : Breach} (h : Runs call t found told t')
      (hb : b ∈ found) :
      Runs call t found (told ++ [b])
        { t' with world := t'.world.report (.ofFault b.stack b.error) }

variable {call : HostCall} {t t' t'' : Tree σ} {found found' told told' : List Breach}

/-! ## The invariant of a tree -/

/-- Every stack is sound and has its label, and no service is registered twice. -/
structure Sound (t : Tree σ) : Prop where
  main : t.main.Sound t.world
  main_label : t.main.label = .main
  services : ∀ v ∈ t.services, v.stack.Sound t.world
  labels : ∀ v ∈ t.services, v.label = .service v.service
  nodup : (t.services.map (·.service)).Nodup

omit [Node σ] in
theorem mem_putService {v old : Service} (h : old ∈ (t.putService v).services) :
    old = v ∧ v.service ∈ t.services.map (·.service) ∨ old ∈ t.services ∧ old.service ≠ v.service := by
  obtain ⟨u, hu, rfl⟩ := List.mem_map.1 h
  by_cases hs : u.service = v.service
  · exact .inl ⟨by simp [hs], List.mem_map.2 ⟨u, hu, hs⟩⟩
  · exact .inr ⟨by simpa [hs] using hu, by simp [hs]⟩

omit [Node σ] in
theorem map_service_putService (t : Tree σ) (v : Service) :
    (t.putService v).services.map (·.service) = t.services.map (·.service) := by
  unfold putService
  rw [List.map_map]
  refine List.map_congr_left fun old _ => ?_
  by_cases hs : old.service = v.service <;> simp [hs]

omit [Node σ] in
theorem putService_mem {v : Service} (h : v.service ∈ t.services.map (·.service)) :
    v ∈ (t.putService v).services := by
  obtain ⟨old, ho, hs⟩ := List.mem_map.1 h
  exact List.mem_map.2 ⟨old, ho, by simp [hs]⟩

omit [Node σ] in
theorem putService_putService (t : Tree σ) {v v' : Service} (h : v'.service = v.service) :
    (t.putService v).putService v' = t.putService v' := by
  unfold putService
  simp only [List.map_map]
  congr 1
  refine List.map_congr_left fun old _ => ?_
  by_cases hs : old.service = v.service <;> simp [h, hs]

omit [Node σ] in
/-- Two services with one id are the same. -/
theorem service_unique {v v' : Service} (hn : (t.services.map (·.service)).Nodup)
    (hv : v ∈ t.services) (hv' : v' ∈ t.services) (h : v.service = v'.service) : v = v' :=
  List.inj_on_of_nodup_map hn hv hv' h

omit [Node σ] in
theorem putService_self {v : Service} (hn : (t.services.map (·.service)).Nodup)
    (hv : v ∈ t.services) : t.putService v = t := by
  have hm : t.services.map (fun old => if old.service = v.service then v else old) = t.services := by
    refine (List.map_congr_left fun old ho => ?_).trans (List.map_id _)
    by_cases hs : old.service = v.service
    · simp [service_unique hn ho hv hs]
    · simp [hs]
  unfold putService
  rw [hm]

theorem Sound.world (h : t.Sound) {w : World σ} (hg : t.world.graph.Grown w.graph)
    (ht : t.world.tick.number ≤ w.tick.number) : Sound { t with world := w } := by
  have hk : ∀ n, t.world.graph.contains n → w.graph.contains n := fun n hn => by
    rwa [hg.contains]
  exact ⟨h.main.elsewhere hk ht, h.main_label, fun v hv => (h.services v hv).elsewhere hk ht,
    h.labels, h.nodup⟩

/-- An operation on the main stack. -/
theorem Sound.keepMain (h : t.Sound) (op : Stack.Operation) :
    (t.keepMain (t.main.perform t.world op)).tree.Sound := by
  have hf := t.main.perform_frame t.world op
  have hw := h.world hf.graph (by simp [hf.tick])
  exact ⟨h.main.perform op, (t.main.perform_made t.world op).label.trans h.main_label,
    hw.services, h.labels, h.nodup⟩

/-- A new state of a service that is sound in a new world. -/
theorem Sound.putService (h : t.Sound) {v v' : Service} {w : World σ} (hv : v ∈ t.services)
    (hs : v'.service = v.service) (hl : v'.label = v.label) (hf : t.world.Frame w)
    (hv' : v'.stack.Sound w) : Sound { t.putService v' with world := w } := by
  have hw := h.world hf.graph (by simp [hf.tick])
  refine ⟨hw.main, h.main_label, fun u hu => ?_, fun u hu => ?_, ?_⟩
  · rcases mem_putService hu with ⟨rfl, -⟩ | ⟨hu, -⟩
    · exact hv'
    · exact hw.services u hu
  · rcases mem_putService hu with ⟨rfl, -⟩ | ⟨hu, -⟩
    · rw [hl, h.labels v hv, hs]
    · exact h.labels u hu
  · rw [show ({ t.putService v' with world := w } : Tree σ).services = (t.putService v').services
      from rfl, map_service_putService]
    exact h.nodup

/-- A service that is taken out, in a new world. -/
theorem Sound.eraseService (h : t.Sound) (s : NodeId) {w : World σ}
    (hg : t.world.graph.Grown w.graph) (ht : w.tick = t.world.tick) :
    Sound { t with world := w, services := t.services.eraseP (·.service = s) } := by
  have hw := h.world hg (by simp [ht])
  have hsub : ∀ v ∈ t.services.eraseP (·.service = s), v ∈ t.services :=
    fun v hv => List.mem_of_mem_eraseP hv
  exact ⟨hw.main, h.main_label, fun v hv => hw.services v (hsub v hv),
    fun v hv => h.labels v (hsub v hv), h.nodup.sublist (List.eraseP_sublist.map _)⟩

theorem registerService_grown (owner : NodeId) (t : Tree σ) (service : NodeId) :
    t.world.graph.Grown (registerService owner t service).world.graph := by
  unfold registerService
  split
  · exact .refl _
  · exact World.registered_grown t.world service

/-- What becomes of the tree has nothing to do with what was found broken so far. -/
theorem unregisterService_tree (owner : NodeId) (o : Outcome σ) (service : NodeId) :
    (unregisterService owner o service).tree
      = (unregisterService owner ⟨o.tree, none⟩ service).tree := by
  simp only [unregisterService]
  cases o.tree.service? service <;> rfl

theorem Step.sound (h : Step call t found t') (ht : t.Sound) : t'.Sound := by
  cases h with
  | main => exact ht.keepMain _
  | service hv h =>
    exact ht.putService hv h.service h.label h.frame (h.sound (ht.services _ hv))
  | @register owner s _ =>
    unfold registerService
    split
    · exact ht
    next hs =>
    have hw := ht.world
      (w := (t.world.registered s).trace "bt.service.register" (.service s) owner 0)
      (World.registered_grown t.world s)
      (Nat.le_of_eq (congrArg Tick.number (World.tick_registered t.world s).symm))
    refine ⟨hw.main, ht.main_label, fun v hv => ?_, fun v hv => ?_, ?_⟩
    · rcases List.mem_append.1 hv with hv | hv
      · exact hw.services v hv
      · rw [List.mem_singleton.1 hv]
        exact ((Stack.sound_new (.service s) _).perform (.applyConfig t.config))
    · rcases List.mem_append.1 hv with hv | hv
      · exact ht.labels v hv
      · rw [List.mem_singleton.1 hv]
        rfl
    · have hnot : s ∉ t.services.map (·.service) := by
        intro hm
        obtain ⟨v, hv, rfl⟩ := List.mem_map.1 hm
        exact hs (by simpa [isRegistered, service?] using ⟨v, hv, rfl⟩)
      rw [List.map_append]
      exact List.nodup_append.2 ⟨ht.nodup, by simp, fun a ha b hb he => by
        rw [he, List.mem_singleton.1 hb] at ha
        exact hnot ha⟩
  | unregister owner s =>
    unfold unregisterService
    split
    · exact ht
    next v hv =>
    have hf := v.stack.perform_frame t.world .terminate
    exact ht.eraseService s (hf.graph.trans (World.unregistered_grown _ s))
      ((World.tick_unregistered _ s).trans hf.tick)
  | @tearDown v _ hv =>
    have hf := v.stack.perform_frame t.world .terminate
    exact ht.eraseService v.service (hf.graph.trans (World.unregistered_grown _ _))
      ((World.tick_unregistered _ _).trans hf.tick)
  | take => exact ht.world (.refl _) (Nat.le_refl _)
  | trace => exact ht.world (.refl _) (Nat.le_refl _)
  | clock h => exact ht.world (.refl _) h
  | due => exact ht.world (.refl _) (Nat.le_refl _)
  | setVariables => exact ht.world (.refl _) (Nat.le_refl _)
  | fields => exact ⟨ht.main, ht.main_label, ht.services, ht.labels, ht.nodup⟩
  | @config c =>
    refine ⟨ht.main.perform (.applyConfig c), ht.main_label, fun v hv => ?_, fun v hv => ?_, ?_⟩
    · obtain ⟨u, hu, rfl⟩ := List.mem_map.1 hv
      exact (ht.services u hu).perform (.applyConfig c)
    · obtain ⟨u, hu, rfl⟩ := List.mem_map.1 hv
      exact ht.labels u hu
    · rw [show (t.withConfig c).services.map (·.service) = t.services.map (·.service) by
        simp [withConfig]]
      exact ht.nodup

/-- The invariant holds all through a run. -/
theorem Runs.sound (h : Runs call t found told t') (ht : t.Sound) : t'.Sound := by
  induction h with
  | refl => exact ht
  | step _ h ih => exact h.sound ih
  | report _ _ ih => exact ih.world (.refl _) (Nat.le_refl _)

omit [Node σ] in
theorem sound_make {g : Graph σ} {root : NodeId} {b : Blackboard} (h : make g root b = .ok t) :
    t.Sound := by
  obtain ⟨-, rfl⟩ := make_ok h
  exact ⟨Stack.sound_new .main _, rfl, by simp, by simp, by simp⟩

end Tree

end BehaviorTree
