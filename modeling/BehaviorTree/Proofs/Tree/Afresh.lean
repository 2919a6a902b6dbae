/-
A tree with a past, and one without.

Whatever the host does to both trees, the same comes of it, up to the numbers in tokens and what
was counted, bound and recorded before. The stacks are the same, and the nodes on them that
called a child, and the services that are registered, are in the same states; that is all that a
tree goes by.
-/
import BehaviorTree.Proofs.Stack.Afresh
import BehaviorTree.Proofs.Tree.Obedient

namespace BehaviorTree

variable {σ : Type}

/-- The tree `t` is the tree `u` with the past `p`. -/
structure Tree.Afresh (p : Past) (t u : Tree σ) : Prop where
  root : t.root = u.root
  config : t.config = u.config
  main : t.main = u.main
  services : t.services = u.services
  running : t.running = u.running
  endedAt : t.endedAt = u.endedAt
  /-- Runs are counted on. -/
  completedRuns : t.completedRuns = u.completedRuns + p.runs
  /-- Until a run is completed, the outcome is that of the last one before. -/
  lastResult : t.lastResult = if u.completedRuns = 0 then p.result else u.lastResult
  world : t.world.Afresh p u.world

/-- The call with a token that is counted on. -/
def HostCall.after (count : NodeId → Nat) : HostCall → HostCall
  | .endAction q ok => .endAction (q.after count) ok
  | call => call

variable [Node σ] [Node.Forgetful σ] {g : Graph σ} {p : Past} {w v w' v' : World σ}

/-! ## Services -/

namespace Service

/-- What the two passes leave: the same service, in agreement, and the same fault. -/
inductive Passes (g : Graph σ) (p : Past) (w v : World σ) :
    Pass σ Service → Pass σ Service → Prop
  | intro {s : Service} {w' v' : World σ} (h : World.Onward g p w v w' v')
      (ha : s.stack.Agrees w' v') (fault : Option StackError) :
      Passes g p w v ⟨s, w', fault⟩ ⟨s, v', fault⟩

variable {s : Service} {a b : Pass σ Service}

theorem Passes.from (h : Passes g p w' v' a b) (ho : World.Onward g p w v w' v') :
    Passes g p w v a b := by
  cases h with | intro h ha fault => exact .intro (ho.trans h) ha fault

theorem passes_still (h : w.Renews g p v) (ha : s.stack.Agrees w v) :
    Passes g p w v ⟨s, w, none⟩ ⟨s, v, none⟩ :=
  .intro (.refl h) ha none

theorem keep_passes {a b : Pass σ Stack} (h : Stack.Passes g p w v a b) (s : Service) :
    Passes g p w v (s.keep a) (s.keep b) := by
  cases h with
  | @intro stack w' v' ho ha fault => exact .intro (s := { s with stack }) ho ha fault

theorem tryStart_passes (h : w.Renews g p v) (ha : s.stack.Agrees w v)
    (hs : g.Serves s.service → w.SameAt v s.service) :
    Passes g p w v (s.tryStart w) (s.tryStart v) := by
  unfold tryStart
  rw [h.afresh.tick]
  split
  · exact passes_still h ha
  obtain ⟨ho, hr⟩ := h.ready hs
  generalize w.ready s.service = x at ho hr ⊢
  generalize v.ready s.service = y at ho hr ⊢
  obtain ⟨w', r⟩ := x
  obtain ⟨v', r'⟩ := y
  obtain rfl : r = r' := hr
  have ha' : s.stack.Agrees w' v' := ha.onward ho fun n hu => hu
  cases r with
  | false => exact .intro ho ha' none
  | true =>
    have ht := ho.renews.trace "bt.service.start" s.label s.service (s.runs + 1 : Nat)
    have htick : w'.tick = v'.tick := ho.renews.afresh.tick
    simp only [htick]
    exact Passes.from (keep_passes (Stack.restart_passes ht.renews
      (ha'.onward ht fun n hu => hu) s.service) _) (ho.trans ht)

theorem isPreempted_onward (h : w.Renews g p v)
    (hs : g.Serves s.service → w.SameAt v s.service) :
    World.Onward g p w v (s.isPreempted w).1 (s.isPreempted v).1 ∧
      (s.isPreempted w).2 = (s.isPreempted v).2 := by
  unfold isPreempted
  rw [h.afresh.tick, h.preempts]
  split
  · exact h.ready hs
  · exact ⟨.refl h, rfl⟩

theorem preempt_passes (h : w.Renews g p v) (ha : s.stack.Agrees w v)
    (hs : g.Serves s.service → w.SameAt v s.service) :
    Passes g p w v (s.preempt w) (s.preempt v) := by
  have ht := h.trace "bt.service.preempt" s.label s.service s.stack.depth
  have hb := Stack.breakTo_passes ht.renews (ha.onward ht fun n hu => hu) none
  unfold preempt
  simp only
  generalize s.stack.breakTo (w.trace _ _ _ _) none = a at hb ⊢
  generalize s.stack.breakTo (v.trace _ _ _ _) none = b at hb ⊢
  cases hb with
  | @intro stack w' v' ho ha fault =>
    cases fault with
    | some e => exact .intro (s := { s with stack }) (ht.trans ho) ha (some e)
    | none =>
      exact (tryStart_passes (s := { s with stack }) ho.renews ha fun hg =>
        ho.same _ (ht.same _ (hs hg))).from (ht.trans ho)

theorem advance_passes (h : w.Renews g p v) (ha : s.stack.Agrees w v)
    (hs : g.Serves s.service → w.SameAt v s.service) :
    Passes g p w v (s.advance w) (s.advance v) := by
  unfold advance
  split
  · exact passes_still h ha
  obtain ⟨ho, hr⟩ := isPreempted_onward h hs
  generalize s.isPreempted w = x at ho hr ⊢
  generalize s.isPreempted v = y at ho hr ⊢
  obtain ⟨w', r⟩ := x
  obtain ⟨v', r'⟩ := y
  obtain rfl : r = r' := hr
  have ha : s.stack.Agrees w' v' := ha.onward ho fun n hu => hu
  have hs : g.Serves s.service → w'.SameAt v' s.service := fun hg => ho.same _ (hs hg)
  refine Passes.from ?_ ho
  have h := ho.renews
  cases r with
  | true => exact preempt_passes h ha hs
  | false =>
    simp only
    split
    · exact passes_still h ha
    · exact passes_still h ha
    · exact keep_passes (Stack.resumeNextUpdate_passes h ha) s
    · exact tryStart_passes h ha hs
    · split
      · exact tryStart_passes h ha hs
      · exact keep_passes (Stack.run_passes h ha) s
    · exact keep_passes (Stack.run_passes h ha) s
    · exact keep_passes (Stack.run_passes h ha) s

end Service

namespace Tree

/-- The tree `t` is the tree `u` with the past `p`, the nodes of both stem from `g`, and those that
a stack or the services rely on are in the same state. -/
structure Renews (g : Graph σ) (p : Past) (t u : Tree σ) : Prop where
  afresh : t.Afresh p u
  world : t.world.Renews g p u.world
  main : u.main.Agrees t.world u.world
  services : ∀ s ∈ u.services, s.stack.Agrees t.world u.world
  serving : ∀ s ∈ u.services, g.Serves s.service → t.world.SameAt u.world s.service

end Tree

/-- Such trees, and the same fault. -/
structure Outcome.Renews (g : Graph σ) (p : Past) (o o' : Outcome σ) : Prop where
  tree : o.tree.Renews g p o'.tree
  fault : o.fault = o'.fault

namespace Tree

variable {t u : Tree σ} {o o' : Outcome σ}

/-- The world goes on, and the rest of the tree is left alone. -/
theorem Renews.inWorld (h : t.Renews g p u) {w v : World σ}
    (ho : World.Onward g p t.world u.world w v) :
    Renews g p { t with world := w } { u with world := v } where
  afresh := { h.afresh with world := ho.renews.afresh }
  world := ho.renews
  main := h.main.onward ho fun _ hn => hn
  services s hs := (h.services s hs).onward ho fun _ hn => hn
  serving s hs hg := ho.same _ (h.serving s hs hg)

/-- What a pass left of the main stack is kept. -/
theorem keepMain_renews (h : t.Renews g p u) {a b : Pass σ Stack}
    (hp : Stack.Passes g p t.world u.world a b) :
    Outcome.Renews g p (t.keepMain a) (u.keepMain b) := by
  cases hp with
  | intro ho ha fault =>
    have hw := h.inWorld ho
    exact ⟨⟨{ hw.afresh with main := rfl }, hw.world, ha, hw.services, hw.serving⟩, rfl⟩

/-- An operation on the main stack. -/
theorem Renews.operate (h : t.Renews g p u) (op : Stack.Operation) :
    Stack.Passes g p t.world u.world (t.main.perform t.world op) (u.main.perform u.world op) := by
  rw [h.afresh.main]
  exact Stack.perform_passes h.world h.main op

theorem putService_renews (h : t.Renews g p u) {s : Service}
    (ha : s.stack.Agrees t.world u.world) : (t.putService s).Renews g p (u.putService s) where
  afresh := { h.afresh with services := by simp only [Tree.putService, h.afresh.services] }
  world := h.world
  main := h.main
  services x hx := by
    rcases mem_putService hx with ⟨rfl, -⟩ | ⟨hx, -⟩
    · exact ha
    · exact h.services x hx
  serving x hx hg := by
    rcases mem_putService hx with ⟨rfl, hm⟩ | ⟨hx, -⟩
    · obtain ⟨old, hold, he⟩ := List.mem_map.1 hm
      exact he ▸ h.serving old hold (he.symm ▸ hg)
    · exact h.serving x hx hg

theorem keepService_renews (h : t.Renews g p u) {a b : Pass σ Service}
    (hp : Service.Passes g p t.world u.world a b) :
    Outcome.Renews g p (t.keepService a) (u.keepService b) := by
  cases hp with
  | intro ho ha fault => exact ⟨putService_renews (h.inWorld ho) ha, rfl⟩

theorem Renews.service? (h : t.Renews g p u) (id : NodeId) : t.service? id = u.service? id := by
  unfold Tree.service?
  rw [h.afresh.services]

/-! ## Settling -/

theorem registerService_renews (h : t.Renews g p u) (owner id : NodeId) :
    (registerService owner t id).Renews g p (registerService owner u id) := by
  unfold Tree.registerService isRegistered
  rw [h.service?]
  split
  · exact h
  obtain ⟨ho, hs⟩ := h.world.registered id
  have ht := ho.renews.trace "bt.service.register" (.service id) owner 0
  have hw := h.inWorld (ho.trans ht)
  refine ⟨{ hw.afresh with services := ?_ }, hw.world, hw.main, fun s hm => ?_, fun s hm hg => ?_⟩
  · simp only [h.afresh.services, h.afresh.config]
  · rcases List.mem_append.1 hm with hm | hm
    · exact hw.services s hm
    · obtain rfl := List.mem_singleton.1 hm
      intro n hn
      simp [Stack.Underway, Service.make, Stack.applyConfig] at hn
  · rcases List.mem_append.1 hm with hm | hm
    · exact hw.serving s hm hg
    · obtain rfl := List.mem_singleton.1 hm
      exact ht.same _ (hs hg)

/-- A service is taken out. -/
theorem eraseService_renews (h : t.Renews g p u) (id : NodeId) :
    Renews g p { t with services := t.services.eraseP (·.service = id) }
      { u with services := u.services.eraseP (·.service = id) } where
  afresh := { h.afresh with services := by simp only [h.afresh.services] }
  world := h.world
  main := h.main
  services s hs := h.services s (List.mem_of_mem_eraseP hs)
  serving s hs := h.serving s (List.mem_of_mem_eraseP hs)

theorem unregisterService_renews (h : o.Renews g p o') (owner id : NodeId) :
    (unregisterService owner o id).Renews g p (unregisterService owner o' id) := by
  unfold Tree.unregisterService
  rw [h.tree.service?]
  split
  · exact h
  next s hs =>
  have hp := Stack.terminate_passes h.tree.world (h.tree.services s (service?_eq_some hs).1)
  generalize s.stack.terminate o.tree.world = a at hp ⊢
  generalize s.stack.terminate o'.tree.world = b at hp ⊢
  cases hp with
  | @intro stack w' v' ho ha fault =>
    have hu := ho.renews.unregistered id
    have ht := hu.renews.trace "bt.service.unregister" (.service id) owner s.runs
    have hw := eraseService_renews (h.tree.inWorld ((ho.trans hu).trans ht)) id
    exact ⟨hw, by rw [h.fault]⟩

/-- What is done one by one, by induction. -/
theorem foldl_renews {α : Type} {f f' : Outcome σ → α → Outcome σ}
    (hf : ∀ {o o' : Outcome σ} (a : α), o.Renews g p o' → (f o a).Renews g p (f' o' a))
    (h : o.Renews g p o') (l : List α) : (l.foldl f o).Renews g p (l.foldl f' o') := by
  induction l generalizing o o' with
  | nil => exact h
  | cons a l ih => exact ih (hf a h)

theorem handle_renews (h : t.Renews g p u) (event : StackEvent) :
    (t.handle event).Renews g p (u.handle event) := by
  match event with
  | .pushed node =>
    refine ⟨?_, rfl⟩
    show (t.registerServices node).Renews g p (u.registerServices node)
    unfold registerServices
    rw [h.world.afresh.servicesOf]
    generalize u.world.graph.servicesOf node = ids
    induction ids generalizing t u with
    | nil => exact h
    | cons id ids ih => exact ih (registerService_renews h node id)
  | .popped node =>
    show (t.unregisterServices node).Renews g p (u.unregisterServices node)
    unfold unregisterServices
    rw [h.world.afresh.servicesOf]
    have ho : Outcome.Renews g p ⟨t, none⟩ ⟨u, none⟩ := ⟨h, rfl⟩
    exact foldl_renews (fun id ho => unregisterService_renews ho node id) ho _
  | .ended .main result =>
    refine ⟨⟨{ h.afresh with endedAt := ?_, completedRuns := ?_, lastResult := ?_ }, h.world,
      h.main, h.services, h.serving⟩, rfl⟩
    · simp only [Tree.handle, h.world.afresh.tick]
    · simp only [Tree.handle, h.afresh.completedRuns]
      omega
    · simp [Tree.handle]
  | .ended (.service _) _ => exact ⟨h, rfl⟩

/-- Settling takes the same events out of both queues, one after the other. -/
theorem settleFrom_renews (h : t.Renews g p u) (first : Option StackError) :
    (t.settleFrom first).Renews g p (u.settleFrom first) := by
  induction first, u using settleFrom.induct generalizing t with
  | case1 first u hp =>
    rw [settleFrom_of_none hp, settleFrom_of_none (h.world.afresh.events ▸ hp)]
    exact ⟨h, rfl⟩
  | case2 first u e rest hp o =>
    rename_i ih
    rw [settleFrom_of_some hp, settleFrom_of_some (h.world.afresh.events ▸ hp)]
    have htake := h.inWorld (h.world.aside (h.world.afresh.setEvents rest) rfl rfl rfl rfl)
    have ho := handle_renews htake e
    rw [ho.fault]
    exact ih ho.tree

theorem settle_renews (h : o.Renews g p o') : o.settle.Renews g p o'.settle := by
  have hs := settleFrom_renews h.tree none
  exact ⟨hs.tree, by simp only [Outcome.settle, Tree.settle, h.fault, hs.fault]⟩

theorem note_renews (h : t.Renews g p u) (label : StackLabel) (fault first : Option StackError) :
    (t.note label fault first).Renews g p (u.note label fault first) := by
  unfold note
  split
  · exact ⟨h, rfl⟩
  · exact ⟨h.inWorld (h.world.report _), rfl⟩

theorem conclude_renews (h : o.Renews g p o') (label : StackLabel) :
    (conclude label o).Renews g p (conclude label o') := by
  have hs := settle_renews h
  unfold conclude
  rw [hs.fault]
  exact note_renews hs.tree label _ none

/-! ## Phases -/

theorem trace_renews (h : t.Renews g p u) (tag : String) (label : StackLabel)
    (node : Option NodeId) (value : Int) :
    Renews g p { t with world := t.world.trace tag label node value }
      { u with world := u.world.trace tag label node value } :=
  h.inWorld (h.world.trace ..)

/-- A token is delivered to the same stack in both trees. -/
theorem deliver_renews (h : t.Renews g p u) (q : Progress) (ok : Bool) :
    (t.deliver (q.after p.count) ok = none ∧ u.deliver q ok = none) ∨
      ∃ label o o', t.deliver (q.after p.count) ok = some (label, o) ∧
        u.deliver q ok = some (label, o') ∧ o.Renews g p o' := by
  unfold deliver
  rw [h.world.afresh.isCurrent, h.afresh.main, h.afresh.services]
  show (_ ∧ _) ∨ _
  simp only [show (q.after p.count).node = q.node from rfl]
  split
  · exact .inl ⟨rfl, rfl⟩
  split
  · exact .inr ⟨_, _, _, rfl, rfl, settle_renews (keepMain_renews h
      (Stack.receiveReturn_passes h.world h.main ok))⟩
  split
  · exact .inl ⟨rfl, rfl⟩
  · next s hs =>
    exact .inr ⟨_, _, _, rfl, rfl, settle_renews (keepService_renews h (Service.keep_passes
      (Stack.receiveReturn_passes h.world (h.services s (List.mem_of_find?_eq_some hs)) ok) s))⟩

theorem fire_renews (h : o.Renews g p o') (task : DeferredTask) :
    (fire o (task.after p.count)).Renews g p (fire o' task) := by
  unfold fire
  simp only [show (task.after p.count).progress = task.progress.after p.count from rfl,
    show (task.after p.count).success = task.success from rfl,
    show (task.progress.after p.count).node = task.progress.node from rfl]
  rcases deliver_renews h.tree task.progress task.success with
    ⟨hw, hv⟩ | ⟨label, d, d', hw, hv, hd⟩
  · rw [hw, hv]
    exact ⟨trace_renews h.tree .., h.fault⟩
  · rw [hw, hv]
    simp only [hd.fault, h.fault]
    exact note_renews (trace_renews hd.tree ..) label _ _

theorem advanceMain_renews (h : t.Renews g p u) (phase : Phase) :
    (t.advanceMain phase).Renews g p (u.advanceMain phase) := by
  have hrestarts : t.restartsAt phase = u.restartsAt phase := by
    unfold restartsAt
    rw [h.afresh.config, h.afresh.endedAt, h.world.afresh.tick]
  unfold advanceMain
  rw [h.afresh.main, h.afresh.root, hrestarts]
  split
  · exact ⟨h, rfl⟩
  · exact ⟨h, rfl⟩
  · split
    · exact keepMain_renews h (Stack.restart_passes h.world h.main _)
    · exact ⟨h, rfl⟩
  · split
    · exact keepMain_renews h (Stack.run_passes h.world h.main)
    split
    · exact keepMain_renews h (Stack.start_passes h.world h.main _)
    · exact ⟨h, rfl⟩
  · exact keepMain_renews h (Stack.run_passes h.world h.main)
  · exact keepMain_renews h (Stack.run_passes h.world h.main)
  · exact keepMain_renews h (Stack.resumeNextUpdate_passes h.world h.main)

theorem driveMain_renews (h : t.Renews g p u) (phase : Phase) :
    (t.driveMain phase).Renews g p (u.driveMain phase) := by
  have ha := settle_renews (advanceMain_renews h phase)
  unfold driveMain
  rw [h.afresh.running, h.afresh.main]
  split
  · exact ⟨h, rfl⟩
  generalize (t.advanceMain phase).settle = x at ha ⊢
  generalize (u.advanceMain phase).settle = y at ha ⊢
  obtain ⟨t', fault⟩ := x
  obtain ⟨u', fault'⟩ := y
  obtain rfl : fault = fault' := ha.fault
  have h' : t'.Renews g p u' := ha.tree
  cases fault with
  | some e => exact ha
  | none =>
    simp only
    rw [h'.afresh.main]
    exact settle_renews (keepMain_renews h' (Stack.forwardHook_passes h'.world h'.main phase))

theorem moveService_renews {move : Service → World σ → Pass σ Service}
    (hm : ∀ {s : Service} {w v : World σ}, w.Renews g p v → s.stack.Agrees w v →
      (g.Serves s.service → w.SameAt v s.service) →
      Service.Passes g p w v (move s w) (move s v))
    (h : o.Renews g p o') (service : NodeId) :
    (moveService service move o).Renews g p (moveService service move o') := by
  unfold moveService
  rw [h.tree.service?]
  split
  · exact h
  next s hs =>
  have hmem := (service?_eq_some hs).1
  have hmoved := settle_renews (keepService_renews h.tree
    (hm h.tree.world (h.tree.services s hmem) (h.tree.serving s hmem)))
  simp only [hmoved.fault, h.fault]
  exact note_renews hmoved.tree _ _ _

theorem driveService_renews (h : o.Renews g p o') (phase : Phase) (service : NodeId) :
    (driveService phase o service).Renews g p (driveService phase o' service) := by
  have ha := moveService_renews Service.advance_passes h service
  unfold driveService
  refine moveService_renews (fun hw ha _ => ?_) ha service
  exact Service.keep_passes (Stack.forwardHook_passes hw ha phase) _

theorem driveAll_renews (h : o.Renews g p o') (phase : Phase) :
    (driveAll o phase).Renews g p (driveAll o' phase) := by
  have hmain := driveMain_renews h.tree phase
  have hnoted := note_renews hmain.tree .main (o'.tree.driveMain phase).fault o'.fault
  unfold driveAll
  simp only [hmain.fault, h.fault, hnoted.tree.afresh.services]
  exact foldl_renews (fun service ho => driveService_renews ho phase service) hnoted _

theorem runPhase_renews (h : t.Renews g p u) (now : Tick) :
    (t.runPhase now).Renews g p (u.runPhase now) := by
  have hclock := h.world.aside (h.world.afresh.setTick now) rfl rfl rfl rfl
  obtain ⟨ho, hdue⟩ := hclock.renews.takeDue
  have hat : (t.atPhase now).Renews g p (u.atPhase now) := h.inWorld (hclock.trans ho)
  rw [runPhase_eq, runPhase_eq]
  have hfired : ∀ (tasks : List DeferredTask) {o o' : Outcome σ}, o.Renews g p o' →
      ((tasks.map (DeferredTask.after p.count)).foldl fire o).Renews g p
        (tasks.foldl fire o') := by
    intro tasks o o' h
    rw [List.foldl_map]
    exact foldl_renews (fun task ho => fire_renews ho task) h tasks
  have hbegin : Outcome.Renews g p ⟨t.atPhase now, none⟩ ⟨u.atPhase now, none⟩ := ⟨hat, rfl⟩
  rw [show t.due now = (u.due now).map (DeferredTask.after p.count) from hdue]
  exact driveAll_renews (hfired _ hbegin) now.phase

/-! ## The calls of the host -/

theorem start_renews (h : t.Renews g p u) : t.start.Renews g p u.start := by
  have hs : Renews g p { t with running := true, endedAt := none }
      { u with running := true, endedAt := none } :=
    ⟨{ h.afresh with running := rfl, endedAt := rfl }, h.world, h.main, h.services, h.serving⟩
  have hp : Stack.Passes g p t.world u.world (t.main.restart t.world t.root)
      (u.main.restart u.world u.root) := by
    rw [h.afresh.root]
    exact h.operate (.restart u.root)
  exact conclude_renews (keepMain_renews hs hp) .main

theorem update_renews (h : t.Renews g p u) (dt : Float32) :
    (t.update dt).Renews g p (u.update dt) := by
  unfold update
  rw [h.world.afresh.tick]
  exact runPhase_renews h _

theorem fixedUpdate_renews (h : t.Renews g p u) (dt : Float32) :
    (t.fixedUpdate dt).Renews g p (u.fixedUpdate dt) := by
  unfold fixedUpdate
  rw [h.world.afresh.tick]
  exact runPhase_renews h _

theorem lateUpdate_renews (h : t.Renews g p u) (dt : Float32) :
    (t.lateUpdate dt).Renews g p (u.lateUpdate dt) := by
  unfold lateUpdate
  rw [h.world.afresh.tick]
  exact runPhase_renews h _

theorem tick_renews (h : t.Renews g p u) (dt : Float32) :
    (t.tick dt).Renews g p (u.tick dt) := by
  have hu := update_renews h dt
  have hf := fixedUpdate_renews hu.tree dt
  have hl := lateUpdate_renews hf.tree dt
  unfold Tree.tick
  simp only [hu.fault, hf.fault, hl.fault]
  refine ⟨?_, rfl⟩
  dsimp only
  exact hl.tree

theorem receiveReturn_renews (h : t.Renews g p u) (ok : Bool) :
    (t.receiveReturn ok).Renews g p (u.receiveReturn ok) := by
  unfold receiveReturn
  exact conclude_renews (keepMain_renews h (h.operate (.receiveReturn ok))) .main

theorem breakMain_renews (h : t.Renews g p u) (stopAt : Option NodeId) :
    (t.breakMain stopAt).Renews g p (u.breakMain stopAt) := by
  unfold breakMain
  exact conclude_renews (keepMain_renews h (h.operate (.breakTo stopAt))) .main

theorem endAction_renews (h : t.Renews g p u) (q : Progress) (ok : Bool) :
    (t.endAction (q.after p.count) ok).1.Renews g p (u.endAction q ok).1 ∧
      (t.endAction (q.after p.count) ok).2 = (u.endAction q ok).2 := by
  unfold endAction
  rcases deliver_renews h q ok with ⟨hw, hv⟩ | ⟨label, d, d', hw, hv, hd⟩
  · rw [hw, hv]
    exact ⟨h, rfl⟩
  · rw [hw, hv]
    have hc := conclude_renews hd label
    simp only
    generalize conclude label d = x at hc ⊢
    generalize conclude label d' = y at hc ⊢
    obtain ⟨t', fault⟩ := x
    obtain ⟨u', fault'⟩ := y
    obtain rfl : fault = fault' := hc.fault
    cases fault <;> exact ⟨hc.tree, rfl⟩

theorem endNode_renews (h : t.Renews g p u) (node : NodeId) (ok : Bool) :
    (t.endNode node ok).1.Renews g p (u.endNode node ok).1 ∧
      (t.endNode node ok).2 = (u.endNode node ok).2 := by
  unfold endNode
  rw [h.world.afresh.progress?]
  cases u.world.progress? node with
  | none => exact ⟨h, rfl⟩
  | some q => exact endAction_renews h q ok

theorem breakService_renews (h : t.Renews g p u) (service : NodeId) (stopAt : Option NodeId) :
    (t.breakService service stopAt).1.Renews g p (u.breakService service stopAt).1 ∧
      (t.breakService service stopAt).2 = (u.breakService service stopAt).2 := by
  unfold breakService
  rw [h.service?]
  split
  · exact ⟨h, rfl⟩
  next s hs =>
  have hmem := (service?_eq_some hs).1
  have hc := conclude_renews (keepService_renews h (Service.keep_passes
    (Stack.breakTo_passes h.world (h.services s hmem) stopAt) s)) s.label
  generalize conclude s.label (t.keepService _) = x at hc ⊢
  generalize conclude s.label (u.keepService _) = y at hc ⊢
  obtain ⟨t', fault⟩ := x
  obtain ⟨u', fault'⟩ := y
  obtain rfl : fault = fault' := hc.fault
  cases fault <;> exact ⟨hc.tree, rfl⟩

theorem onService_renews (h : t.Renews g p u) (service : NodeId) {f : Stack → Stack}
    (hf : ∀ s n, (f s).Underway n → s.Underway n) :
    Answers (Renews g p) (t.onService service f) (u.onService service f) := by
  unfold onService
  rw [h.service?]
  split
  · exact .error _
  next s hs =>
  refine .ok (putService_renews h fun n hn => ?_)
  exact h.services s (service?_eq_some hs).1 n (hf _ n hn)

theorem pause_renews (h : t.Renews g p u) : t.pause.Renews g p u.pause :=
  ⟨{ h.afresh with main := congrArg Stack.pause h.afresh.main }, h.world, h.main, h.services,
    h.serving⟩

theorem resume_renews (h : t.Renews g p u) : t.resume.Renews g p u.resume :=
  ⟨{ h.afresh with main := congrArg Stack.resume h.afresh.main }, h.world, h.main, h.services,
    h.serving⟩

omit [Node σ] [Node.Forgetful σ] in
theorem refusal?_eq_of_answers {R : Tree σ → Tree σ → Prop} {x y : Except TreeError (Tree σ)}
    (h : Answers R x y) : refusal? x = refusal? y := by
  cases h <;> rfl

/-- A call that is refused leaves the trees as they were. -/
theorem Renews.getD (h : t.Renews g p u) {x y : Except TreeError (Tree σ)}
    (hxy : Answers (Renews g p) x y) : (x.toOption.getD t).Renews g p (y.toOption.getD u) := by
  cases hxy with
  | error e => exact h
  | ok h' => exact h'

theorem tearDown_renews (h : o.Renews g p o') (service : NodeId) :
    (tearDown o service).Renews g p (tearDown o' service) := by
  unfold tearDown
  rw [h.tree.service?]
  split
  · exact h
  next s hs =>
  have hp := Stack.terminate_passes h.tree.world (h.tree.services s (service?_eq_some hs).1)
  generalize s.stack.terminate o.tree.world = a at hp ⊢
  generalize s.stack.terminate o'.tree.world = b at hp ⊢
  cases hp with
  | @intro stack w' v' ho ha fault =>
    have hu := ho.renews.unregistered service
    have hw := eraseService_renews (h.tree.inWorld (ho.trans hu)) service
    simp only [h.fault]
    exact settle_renews ⟨hw, rfl⟩

theorem terminate_renews (h : t.Renews g p u) : t.terminate.Renews g p u.terminate := by
  have hr : Renews g p { t with running := false } { u with running := false } :=
    ⟨{ h.afresh with running := rfl }, h.world, h.main, h.services, h.serving⟩
  have hended := settle_renews (keepMain_renews hr (h.operate .terminate))
  unfold terminate
  simp only
  rw [show (keepMain { t with running := false } (t.main.terminate t.world)).settle.tree.services
    = (keepMain { u with running := false } (u.main.terminate u.world)).settle.tree.services
    from hended.tree.afresh.services]
  exact conclude_renews (foldl_renews (fun service ho => tearDown_renews ho service) hended _) .main

theorem withConfig_renews (h : t.Renews g p u) (config : Config) :
    (t.withConfig config).Renews g p (u.withConfig config) where
  afresh := { h.afresh with
    config := rfl
    main := by simp only [withConfig, h.afresh.main]
    services := by simp only [withConfig, h.afresh.services] }
  world := h.world
  main := h.main
  services s hs := by
    obtain ⟨old, hold, rfl⟩ := List.mem_map.1 hs
    exact h.services old hold
  serving s hs hg := by
    obtain ⟨old, hold, rfl⟩ := List.mem_map.1 hs
    exact h.serving old hold hg

/-- What the host calls does the same to both trees, if it changes no variable's type. -/
theorem perform_renews (h : t.Renews g p u) (call : HostCall)
    (hc : ∀ b, call = .setVariables b → u.world.blackboard.Keeps b) :
    (t.perform (call.after p.count)).Renews g p (u.perform call) := by
  cases call with
  | start => exact (start_renews h).tree
  | update dt => exact (update_renews h dt).tree
  | fixedUpdate dt => exact (fixedUpdate_renews h dt).tree
  | lateUpdate dt => exact (lateUpdate_renews h dt).tree
  | tick dt => exact (tick_renews h dt).tree
  | receiveReturn ok => exact (receiveReturn_renews h ok).tree
  | endAction q ok => exact (endAction_renews h q ok).1
  | endNode node ok => exact (endNode_renews h node ok).1
  | breakMain stopAt => exact (breakMain_renews h stopAt).tree
  | breakService service stopAt => exact (breakService_renews h service stopAt).1
  | pause => exact pause_renews h
  | resume => exact resume_renews h
  | pauseService service => exact h.getD (onService_renews h service fun _ _ hn => hn)
  | resumeService service => exact h.getD (onService_renews h service fun _ _ hn => hn)
  | terminate => exact (terminate_renews h).tree
  | withConfig config => exact withConfig_renews h config
  | setVariables b =>
    have hb : u.world.blackboard.Keeps b := hc b rfl
    refine h.inWorld ⟨⟨h.world.stems.edited (World.stems_lasting g) ?_,
      h.world.stems'.edited (World.stems_lasting g) hb, h.world.afresh.setBlackboard b⟩,
      fun n hn => hn⟩
    rwa [h.world.afresh.blackboard]

theorem answer_renews (h : t.Renews g p u) (call : HostCall) :
    t.answer (call.after p.count) = u.answer call := by
  have hfault : ∀ {o o' : Outcome σ}, o.Renews g p o' →
      o.fault.map TreeError.stack = o'.fault.map TreeError.stack := fun ho => by rw [ho.fault]
  cases call with
  | start => exact hfault (start_renews h)
  | update dt => exact hfault (update_renews h dt)
  | fixedUpdate dt => exact hfault (fixedUpdate_renews h dt)
  | lateUpdate dt => exact hfault (lateUpdate_renews h dt)
  | tick dt => exact hfault (tick_renews h dt)
  | receiveReturn ok => exact hfault (receiveReturn_renews h ok)
  | endAction q ok => exact congrArg refusal? (endAction_renews h q ok).2
  | endNode node ok => exact congrArg refusal? (endNode_renews h node ok).2
  | breakMain stopAt => exact hfault (breakMain_renews h stopAt)
  | breakService service stopAt => exact congrArg refusal? (breakService_renews h service stopAt).2
  | pauseService service | resumeService service =>
    exact refusal?_eq_of_answers (onService_renews h service fun _ _ hn => hn)
  | terminate => exact hfault (terminate_renews h)
  | pause | resume | withConfig _ | setVariables _ => rfl

theorem performAll_renews (h : t.Renews g p u) {calls : List HostCall} (hc : u.EditsOnly calls) :
    (t.performAll (calls.map (HostCall.after p.count))).Renews g p (u.performAll calls) := by
  induction calls generalizing t u with
  | nil => exact h
  | cons call later ih =>
    exact ih (perform_renews h call fun b hb => (hc.1 b hb).keeps) hc.2

end Tree

end BehaviorTree
