/-
A tree does the same whatever was recorded before.

What was recorded is not read by a tree either, and the tick at which the main stack last ended is
read only while the stack has ended and the tree runs. When the stack ends, an event tells the tree
to note the tick anew. So a tree that differs in these two answers every call alike, and the same
is recorded on top of what it had.
-/
import BehaviorTree.Proofs.Stack.Outcomes
import BehaviorTree.Proofs.Stack.Unread
import BehaviorTree.Proofs.Tree.Walk

namespace BehaviorTree

variable {σ : Type} {past : List Record}

/-! ## Services -/

namespace Service

variable [Node σ] (past : List Record) (v : Service) (w : World σ)

omit [Node σ] in
@[simp] theorem keep_onto (p : Pass σ Stack) : v.keep (p.onto past) = (v.keep p).onto past := rfl

theorem tryStart_onto : v.tryStart (w.onto past) = (v.tryStart w).onto past := by
  unfold tryStart
  simp only [World.onto_tick, World.ready_onto]
  split
  · rfl
  obtain ⟨u, ready⟩ := w.ready v.service
  cases ready with
  | false => rfl
  | true =>
    simp only [World.trace_onto, Stack.restart_onto, World.onto_tick]
    rfl

theorem isPreempted_onto :
    v.isPreempted (w.onto past) = ((v.isPreempted w).1.onto past, (v.isPreempted w).2) := by
  unfold isPreempted
  simp only [World.onto_tick, World.preempts_onto, World.ready_onto]
  repeat' split
  all_goals first | rfl | contradiction

theorem preempt_onto : v.preempt (w.onto past) = (v.preempt w).onto past := by
  unfold preempt
  simp only [World.trace_onto, Stack.breakTo_onto, keep_onto]
  obtain ⟨v', u, fault⟩ :=
    v.keep (v.stack.breakTo (w.trace "bt.service.preempt" v.label v.service v.stack.depth) none)
  cases fault with
  | some e => rfl
  | none => exact tryStart_onto past v' u

theorem advance_onto : v.advance (w.onto past) = (v.advance w).onto past := by
  unfold advance
  split
  · rfl
  rw [isPreempted_onto]
  obtain ⟨u, preempted⟩ := v.isPreempted w
  cases preempted with
  | true => exact preempt_onto past v u
  | false =>
    simp only [tryStart_onto, Stack.resumeNextUpdate_onto, Stack.run_onto, keep_onto]
    repeat' split
    all_goals rfl

end Service

/-! ## Trees -/

namespace Tree

variable {t t' u : Tree σ}

/-- The same tree with a past, and with `e` as the tick at which the main stack last ended. -/
def recast (past : List Record) (e : Option Nat) (t : Tree σ) : Tree σ :=
  { t with world := t.world.onto past, endedAt := e }

/-- With `e` as the tick at which the main stack last ended the tree does the same: it is that
tick, or it is not asked for before it is noted anew. -/
def Heedless (t : Tree σ) (e : Option Nat) : Prop :=
  e = t.endedAt ∨ (t.running → t.main.state = .ended → t.world.mainEnds ≠ [])

/-- The second tree is the first one with a past, but for a tick that is not asked for. -/
inductive Echo (past : List Record) : Tree σ → Tree σ → Prop
  | intro {t : Tree σ} (e : Option Nat) (label : t.main.label = .main) (heedless : t.Heedless e) :
      Echo past t (t.recast past e)

end Tree

/-- The same of two outcomes. -/
inductive Outcome.Echo (past : List Record) : Outcome σ → Outcome σ → Prop
  | intro {t u : Tree σ} {fault : Option StackError} (h : t.Echo past u) :
      Outcome.Echo past ⟨t, fault⟩ ⟨u, fault⟩

theorem Outcome.Echo.tree {o v : Outcome σ} (h : o.Echo past v) : o.tree.Echo past v.tree := by
  cases h
  assumption

theorem Outcome.Echo.fault {o v : Outcome σ} (h : o.Echo past v) : v.fault = o.fault := by
  cases h
  rfl

/-- The same, and no end of the main stack is to be settled. -/
structure Outcome.Rests (past : List Record) (o v : Outcome σ) : Prop where
  echo : o.Echo past v
  ends : o.tree.world.mainEnds = []

namespace Tree

variable {t t' u : Tree σ} {e : Option Nat}

theorem Heedless.mono (h : t.Heedless e) (he : t'.endedAt = t.endedAt)
    (hr : t'.running → t.running) (hs : t'.main.state = .ended → t.main.state = .ended)
    (hends : t.world.mainEnds ≠ [] → t'.world.mainEnds ≠ []) : t'.Heedless e :=
  h.imp (·.trans he.symm) fun h hrun hst => hends (h (hr hrun) (hs hst))

theorem Echo.of_eq (e : Option Nat) (h : u = t.recast past e) (label : t.main.label = .main)
    (heedless : t.Heedless e) : Echo past t u := by
  subst h
  exact .intro e label heedless

section

variable (h : Echo past t u)
include h

theorem Echo.eq : u = t.recast past u.endedAt := by cases h; rfl

theorem Echo.root : u.root = t.root := by cases h; rfl

theorem Echo.world : u.world = t.world.onto past := by cases h; rfl

theorem Echo.graph : u.world.graph = t.world.graph := by cases h; rfl

theorem Echo.clock : u.world.tick = t.world.tick := by cases h; rfl

theorem Echo.main : u.main = t.main := by cases h; rfl

theorem Echo.services : u.services = t.services := by cases h; rfl

theorem Echo.running : u.running = t.running := by cases h; rfl

theorem Echo.service? (service : NodeId) : u.service? service = t.service? service := by
  cases h; rfl

end

/-- What is done in the world alone. -/
theorem Echo.inWorld (h : Echo past t u) {w : World σ} (hw : w.mainEnds = t.world.mainEnds) :
    Echo past { t with world := w } { u with world := w.onto past } := by
  cases h with
  | intro e label heedless =>
    exact .intro (t := { t with world := w }) e label
      (heedless.mono rfl id id fun hends => hw ▸ hends)

variable [Node σ]

/-! ## Stacks -/

/-- When an operation ends the main stack, or finds it ended, an event is there to tell of it. -/
theorem Heedless.keepMain (h : t.Heedless e) (hl : t.main.label = .main) (op : Stack.Operation)
    (hop : op ≠ .terminate ∨ t.running = false) :
    (t.keepMain (t.main.perform t.world op)).tree.Heedless e := by
  refine h.imp id fun hends (hrun : t.running) hst => ?_
  have hop : op ≠ .terminate := hop.resolve_right (by simp [hrun])
  by_cases hs : t.main.state = .ended
  · exact (t.main.perform_made t.world op).acts.mainEnds_ne (hends hrun hs)
  · exact Stack.perform_tells hop hl hs hst

/-- An operation on the main stack, unless the host ends a tree that runs. -/
theorem Echo.keepMain (h : Echo past t u) (op : Stack.Operation)
    (hop : op ≠ .terminate ∨ t.running = false) :
    (t.keepMain (t.main.perform t.world op)).Echo past
      (u.keepMain (u.main.perform u.world op)) := by
  cases h with
  | intro e label heedless =>
    have hperform : t.main.perform (t.world.onto past) op
        = (t.main.perform t.world op).onto past :=
      Stack.perform_onto past t.main t.world op
    have hlabel := (t.main.perform_made t.world op).label.trans label
    show Outcome.Echo past _ ((t.recast past e).keepMain (t.main.perform (t.world.onto past) op))
    rw [hperform]
    exact .intro (.intro e hlabel (heedless.keepMain label op hop))

/-- What a service does with its stack. -/
theorem Echo.keepService (h : Echo past t u) {v : Service} {p : Pass σ Service}
    (hm : v.Made t.world p) :
    (t.keepService p).Echo past (u.keepService (p.onto past)) := by
  cases h with
  | intro e label heedless =>
    have hkept : (t.keepService p).tree.Heedless e :=
      heedless.mono rfl id id hm.stack.acts.mainEnds_ne
    exact .intro (.of_eq e rfl label hkept)

/-! ## Settling -/

theorem Echo.registerService (h : Echo past t u) (owner s : NodeId) :
    Echo past (registerService owner t s) (registerService owner u s) := by
  cases h with
  | intro e label heedless =>
    unfold Tree.registerService
    rw [show (t.recast past e).isRegistered s = t.isRegistered s from rfl]
    split
    · exact .intro e label heedless
    · simp only [recast, World.registered_onto, World.trace_onto]
      exact .of_eq e rfl label (heedless.mono rfl id id fun h => by simpa [World.mainEnds] using h)

theorem unregisterService_echo {o o' : Outcome σ} (h : o.Echo past o') (owner s : NodeId) :
    (unregisterService owner o s).Echo past (unregisterService owner o' s) := by
  cases h with
  | @intro t u fault h =>
  cases h with
  | intro e label heedless =>
    unfold Tree.unregisterService
    simp only [show (t.recast past e).service? s = t.service? s from rfl]
    split
    · exact .intro (.intro e label heedless)
    next v hv =>
    have hm : Stack.Made (fun _ => False) v.stack t.world (v.stack.terminate t.world) :=
      Stack.terminate_made ..
    simp only [recast, Stack.terminate_onto, Pass.onto_world, Pass.onto_fault,
      World.unregistered_onto, World.trace_onto]
    refine .intro (.of_eq e rfl label (heedless.mono rfl id id fun hends => ?_))
    simpa [World.mainEnds] using hm.acts.mainEnds_ne hends

/-- To settle an event that does not end the main stack. -/
theorem Echo.handle (h : Echo past t u) {event : StackEvent} (he : event.mainEnd? = none) :
    (t.handle event).Echo past (u.handle event) := by
  match event with
  | .pushed n =>
    refine .intro ?_
    rw [registerServices, registerServices, h.graph]
    generalize t.world.graph.servicesOf n = services
    induction services generalizing t u with
    | nil => exact h
    | cons s rest ih => exact ih (h.registerService n s)
  | .popped n =>
    simp only [Tree.handle, unregisterServices, h.graph]
    generalize t.world.graph.servicesOf n = services
    have ho : Outcome.Echo past ⟨t, none⟩ ⟨u, none⟩ := .intro h
    generalize (⟨t, none⟩ : Outcome σ) = o, (⟨u, none⟩ : Outcome σ) = o' at ho
    induction services generalizing o o' with
    | nil => exact ho
    | cons s rest ih => exact ih _ _ (unregisterService_echo ho n s)
  | .ended .main _ => cases he
  | .ended (.service _) _ => exact .intro h

/-- The tick of an end is noted anew when the event of it is settled. -/
theorem settleFrom_echo (first : Option StackError) (t : Tree σ) :
    ∀ u, Echo past t u → (t.settleFrom first).Echo past (u.settleFrom first) := by
  induction first, t using settleFrom.induct with
  | case1 first t hp =>
    intro u h
    have hp' : u.world.events.pop? = none := by rw [h.world]; exact hp
    rw [settleFrom_of_none hp, settleFrom_of_none hp']
    exact .intro h
  | case2 first t event rest hp o ih =>
    intro u h
    have hp' : u.world.events.pop? = some (event, rest) := by rw [h.world]; exact hp
    rw [settleFrom_of_some hp, settleFrom_of_some hp']
    -- The end of the main stack sets the tick in both trees, and no other event touches it.
    have ho : o.Echo past
        ({ u with world := { u.world with events := rest } }.handle event) := by
      cases h with
      | intro e label heedless =>
        cases he : event.mainEnd? with
        | none =>
          have hends : ({ t.world with events := rest } : World σ).mainEnds = t.world.mainEnds := by
            rw [World.mainEnds, World.mainEnds, Queue.toList_of_pop? hp, List.filterMap_cons, he]
          exact Echo.handle ((Echo.intro e label heedless).inWorld hends) he
        | some result =>
          obtain rfl := StackEvent.mainEnd?_eq_some he
          exact .intro (.of_eq _ rfl label (.inl rfl))
    rw [ho.fault]
    exact ih _ ho.tree

/-- Settling leaves nothing that is to be settled. -/
theorem mainEnds_settleFrom (first : Option StackError) (t : Tree σ) :
    (t.settleFrom first).tree.world.mainEnds = [] := by
  induction first, t using settleFrom.induct with
  | case1 first t hp =>
    rw [settleFrom_of_none hp]
    exact World.mainEnds_of_settled (Queue.pop?_eq_none_iff.1 hp)
  | case2 first t event rest hp o ih =>
    rw [settleFrom_of_some hp]
    exact ih

theorem settle_rests {o o' : Outcome σ} (h : o.Echo past o') : o.settle.Rests past o'.settle := by
  cases h with
  | @intro t u fault h =>
    have hs : t.settle.Echo past u.settle := settleFrom_echo none t u h
    refine ⟨?_, mainEnds_settleFrom none t⟩
    unfold Outcome.settle
    simp only [hs.fault]
    exact .intro hs.tree

omit [Node σ] in
theorem Echo.note (h : Echo past t u) (hends : t.world.mainEnds = []) (label : StackLabel)
    (fault first : Option StackError) :
    (t.note label fault first).Rests past (u.note label fault first) := by
  unfold Tree.note
  cases fault with
  | none => exact ⟨.intro h, hends⟩
  | some e =>
    have hu : u.world.report (.ofFault label e) = (t.world.report (.ofFault label e)).onto past := by
      cases h
      rfl
    simp only [hu]
    exact ⟨.intro (h.inWorld rfl), hends⟩

theorem conclude_rests {o o' : Outcome σ} (h : o.Echo past o') (label : StackLabel) :
    (conclude label o).Rests past (conclude label o') := by
  have hs := settle_rests h
  unfold conclude
  rw [hs.echo.fault]
  exact hs.echo.tree.note hs.ends label _ none

/-! ## The parts of a phase -/

/-- An end is delivered to the same stack. -/
inductive Delivered (past : List Record) :
    Option (StackLabel × Outcome σ) → Option (StackLabel × Outcome σ) → Prop
  | none : Delivered past none none
  | some (label : StackLabel) {o o' : Outcome σ} (h : o.Rests past o') :
      Delivered past (some (label, o)) (some (label, o'))

theorem Echo.deliver (h : Echo past t u) (p : Progress) (ok : Bool) :
    Delivered past (t.deliver p ok) (u.deliver p ok) := by
  have hmain : Outcome.Echo past (t.keepMain (t.main.receiveReturn t.world ok))
      (u.keepMain (u.main.receiveReturn u.world ok)) :=
    h.keepMain (.receiveReturn ok) (.inl (by simp))
  have hservice (v : Service) : Outcome.Echo past
      (t.keepService (v.keep (v.stack.receiveReturn t.world ok)))
      (u.keepService ((v.keep (v.stack.receiveReturn t.world ok)).onto past)) :=
    h.keepService (.keep (Stack.receiveReturn_made ..))
  cases h with
  | intro e label heedless =>
    unfold Tree.deliver
    simp only [recast, World.isCurrent_onto, Stack.receiveReturn_onto, Service.keep_onto]
      at hmain hservice ⊢
    split
    · exact .none
    split
    · exact .some _ (settle_rests hmain)
    split
    · exact .none
    · exact .some _ (settle_rests (hservice _))

theorem fire_rests {o o' : Outcome σ} (h : o.Rests past o') (task : DeferredTask) :
    (fire o task).Rests past (fire o' task) := by
  have htrace {t u : Tree σ} (h : Echo past t u) (label : StackLabel) (value : Int) : Echo past
      { t with world := t.world.trace "bt.deferred.fire" label task.progress.node value }
      { u with world := u.world.trace "bt.deferred.fire" label task.progress.node value } := by
    cases h with
    | intro e label heedless => exact (Echo.intro e label heedless).inWorld rfl
  obtain ⟨h, hends⟩ := h
  cases h with
  | @intro t u fault h =>
    have hd := h.deliver task.progress task.success
    unfold fire
    simp only
    generalize t.deliver task.progress task.success = d, u.deliver task.progress task.success = d'
      at hd ⊢
    cases hd with
    | none => exact ⟨.intro (htrace h _ _), hends⟩
    | @some label delivered delivered' hd =>
      simp only [hd.echo.fault]
      exact (htrace hd.echo.tree _ _).note hd.ends ..

omit [Node σ] in
/-- Whether the root is to be started again is asked when the stack has ended and all is settled. -/
theorem Echo.restartsAt (h : Echo past t u) (hends : t.world.mainEnds = []) (hr : t.running)
    (hs : t.main.state = .ended) (phase : Phase) : u.restartsAt phase = t.restartsAt phase := by
  cases h with
  | intro e label heedless =>
    rcases heedless with rfl | hne
    · rfl
    · exact absurd hends (hne hr hs)

theorem Echo.advanceMain (h : Echo past t u) (hends : t.world.mainEnds = []) (hr : t.running)
    (phase : Phase) : (t.advanceMain phase).Echo past (u.advanceMain phase) := by
  have hop (op : Stack.Operation) (hop : op ≠ .terminate) :
      (t.keepMain (t.main.perform t.world op)).Echo past
        (u.keepMain (u.main.perform u.world op)) :=
    h.keepMain op (.inl hop)
  unfold Tree.advanceMain
  simp only [h.main, h.root] at hop ⊢
  split
  · exact .intro h
  · exact .intro h
  · next hs =>
    rw [h.restartsAt hends hr hs]
    split
    · exact hop (.restart t.root) (by simp)
    · exact .intro h
  · split
    · exact hop .run (by simp)
    split
    · exact hop (.start t.root) (by simp)
    · exact .intro h
  · exact hop .run (by simp)
  · exact hop .run (by simp)
  · exact hop .resumeNextUpdate (by simp)

theorem Echo.driveMain (h : Echo past t u) (hends : t.world.mainEnds = []) (phase : Phase) :
    (t.driveMain phase).Rests past (u.driveMain phase) := by
  unfold Tree.driveMain
  rw [h.running, h.main]
  split
  · exact ⟨.intro h, hends⟩
  next hr =>
  obtain ⟨hadv, hnone⟩ := settle_rests (h.advanceMain hends (by simp_all) phase)
  generalize (t.advanceMain phase).settle = o, (u.advanceMain phase).settle = o' at hadv hnone
  cases hadv with
  | @intro t u fault h =>
    cases fault with
    | some e => exact ⟨.intro h, hnone⟩
    | none => exact settle_rests (h.keepMain (.forwardHook phase) (.inl (by simp)))

theorem moveService_rests {move : Service → World σ → Pass σ Service}
    (hm : ∀ (v : Service) (w : World σ), v.Made w (move v w))
    (hu : ∀ (v : Service) (w : World σ), move v (w.onto past) = (move v w).onto past)
    (service : NodeId) {o o' : Outcome σ} (h : o.Rests past o') :
    (moveService service move o).Rests past (moveService service move o') := by
  obtain ⟨h, hends⟩ := h
  cases h with
  | @intro t u fault h =>
    unfold moveService
    simp only [h.service?, h.world, hu]
    split
    · exact ⟨.intro h, hends⟩
    next v _ =>
    obtain ⟨hmoved, hnone⟩ := settle_rests (h.keepService (hm v t.world))
    rw [hmoved.fault]
    exact hmoved.tree.note hnone ..

theorem driveService_rests (phase : Phase) {o o' : Outcome σ} (h : o.Rests past o')
    (service : NodeId) :
    (driveService phase o service).Rests past (driveService phase o' service) := by
  have ha : (moveService service Service.advance o).Rests past
      (moveService service Service.advance o') :=
    moveService_rests Service.advance_made (Service.advance_onto past) service h
  refine moveService_rests (fun v w => .keep (Stack.forwardHook_made ..)) (fun v w => ?_) service ha
  rw [Stack.forwardHook_onto, Service.keep_onto]

omit [Node σ] in
theorem foldl_rests {α : Type} {f : Outcome σ → α → Outcome σ}
    (hf : ∀ (o o' : Outcome σ) (a : α), o.Rests past o' → (f o a).Rests past (f o' a))
    (l : List α) {o o' : Outcome σ} (h : o.Rests past o') :
    (l.foldl f o).Rests past (l.foldl f o') := by
  induction l generalizing o o' with
  | nil => exact h
  | cons a l ih => exact ih (hf _ _ a h)

theorem Echo.runPhase (h : Echo past t u) (hends : t.world.mainEnds = []) (now : Tick) :
    (t.runPhase now).Rests past (u.runPhase now) := by
  have hstart : Outcome.Rests past ⟨t.atPhase now, none⟩ ⟨u.atPhase now, none⟩ := by
    cases h with
    | intro e label heedless =>
      exact ⟨.intro (.of_eq e rfl label (heedless.mono rfl id id id)), hends⟩
  have hdue : u.due now = t.due now := by cases h; rfl
  have hfired := foldl_rests (fun _ _ task h => fire_rests h task) (t.due now) hstart
  rw [runPhase_eq, runPhase_eq, hdue]
  generalize (t.due now).foldl fire ⟨t.atPhase now, none⟩ = o,
    (t.due now).foldl fire ⟨u.atPhase now, none⟩ = o' at hfired ⊢
  have hmain := hfired.echo.tree.driveMain hfired.ends now.phase
  have hnoted := hmain.echo.tree.note hmain.ends .main (o.tree.driveMain now.phase).fault o.fault
  unfold driveAll
  simp only [hmain.echo.fault, hfired.echo.fault, hnoted.echo.tree.services]
  exact foldl_rests (fun _ _ service h => driveService_rests now.phase h service) _ hnoted

/-! ## The calls -/

theorem Echo.start (h : Echo past t u) : t.start.Rests past u.start := by
  cases h with
  | intro e label heedless =>
    have hawake : Echo past { t with running := true, endedAt := none }
        { t.recast past e with running := true, endedAt := none } :=
      .of_eq none rfl label (.inl rfl)
    exact conclude_rests (hawake.keepMain (.restart t.root) (.inl (by simp))) .main

theorem Echo.receiveReturn (h : Echo past t u) (ok : Bool) :
    (t.receiveReturn ok).Rests past (u.receiveReturn ok) :=
  conclude_rests (h.keepMain (.receiveReturn ok) (.inl (by simp))) .main

theorem Echo.breakMain (h : Echo past t u) (stopAt : Option NodeId) :
    (t.breakMain stopAt).Rests past (u.breakMain stopAt) :=
  conclude_rests (h.keepMain (.breakTo stopAt) (.inl (by simp))) .main

theorem Echo.update (h : Echo past t u) (hends : t.world.mainEnds = []) (dt : Float32) :
    (t.update dt).Rests past (u.update dt) := by
  unfold Tree.update
  rw [h.clock]
  exact h.runPhase hends _

theorem Echo.fixedUpdate (h : Echo past t u) (hends : t.world.mainEnds = []) (dt : Float32) :
    (t.fixedUpdate dt).Rests past (u.fixedUpdate dt) := by
  unfold Tree.fixedUpdate
  rw [h.clock]
  exact h.runPhase hends _

theorem Echo.lateUpdate (h : Echo past t u) (hends : t.world.mainEnds = []) (dt : Float32) :
    (t.lateUpdate dt).Rests past (u.lateUpdate dt) := by
  unfold Tree.lateUpdate
  rw [h.clock]
  exact h.runPhase hends _

theorem Echo.tick (h : Echo past t u) (hends : t.world.mainEnds = []) (dt : Float32) :
    (t.tick dt).Rests past (u.tick dt) := by
  have h₁ := h.update hends dt
  unfold Tree.tick
  simp only
  generalize t.update dt = o₁, u.update dt = v₁ at h₁ ⊢
  have h₂ := h₁.echo.tree.fixedUpdate h₁.ends dt
  generalize o₁.tree.fixedUpdate dt = o₂, v₁.tree.fixedUpdate dt = v₂ at h₂ ⊢
  have h₃ := h₂.echo.tree.lateUpdate h₂.ends dt
  rw [h₁.echo.fault, h₂.echo.fault, h₃.echo.fault]
  exact ⟨.intro h₃.echo.tree, h₃.ends⟩

theorem tearDown_rests {o o' : Outcome σ} (h : o.Rests past o') (service : NodeId) :
    (tearDown o service).Rests past (tearDown o' service) := by
  obtain ⟨h, hends⟩ := h
  cases h with
  | @intro t u fault h =>
  cases h with
  | intro e label heedless =>
    unfold tearDown
    simp only [show (t.recast past e).service? service = t.service? service from rfl]
    split
    · exact ⟨.intro (.intro e label heedless), hends⟩
    next v hv =>
    have hm : Stack.Made (fun _ => False) v.stack t.world (v.stack.terminate t.world) :=
      Stack.terminate_made ..
    simp only [recast, Stack.terminate_onto, Pass.onto_world, Pass.onto_fault,
      World.unregistered_onto]
    refine settle_rests (.intro (.of_eq e rfl label (heedless.mono rfl id id fun hends => ?_)))
    simpa [World.mainEnds] using hm.acts.mainEnds_ne hends

theorem Echo.terminate (h : Echo past t u) : t.terminate.Rests past u.terminate := by
  cases h with
  | intro e label heedless =>
    have hasleep : Echo past { t with running := false }
        { t.recast past e with running := false } :=
      .of_eq e rfl label (.inr fun hr => absurd hr Bool.false_ne_true)
    have hended := settle_rests (hasleep.keepMain .terminate (.inr rfl))
    simp only [Stack.perform] at hended
    unfold Tree.terminate
    simp only [hended.echo.tree.services]
    exact conclude_rests (foldl_rests (fun _ _ s h => tearDown_rests h s) _ hended).echo .main

/-- An end that the host reports. -/
theorem Echo.endAction (h : Echo past t u) (hends : t.world.mainEnds = []) (p : Progress)
    (ok : Bool) :
    Echo past (t.endAction p ok).1 (u.endAction p ok).1 ∧
      (t.endAction p ok).1.world.mainEnds = [] ∧ (u.endAction p ok).2 = (t.endAction p ok).2 := by
  have hd := h.deliver p ok
  unfold Tree.endAction
  generalize t.deliver p ok = d, u.deliver p ok = d' at hd ⊢
  cases hd with
  | none => exact ⟨h, hends, rfl⟩
  | @some label o o' hd =>
    obtain ⟨hc, hnone⟩ := conclude_rests hd.echo label
    simp only
    generalize conclude label o = c, conclude label o' = c' at hc hnone ⊢
    cases hc with
    | @intro t u fault h => cases fault <;> exact ⟨h, hnone, rfl⟩

theorem Echo.endNode (h : Echo past t u) (hends : t.world.mainEnds = []) (node : NodeId)
    (ok : Bool) :
    Echo past (t.endNode node ok).1 (u.endNode node ok).1 ∧
      (t.endNode node ok).1.world.mainEnds = [] ∧
      (u.endNode node ok).2 = (t.endNode node ok).2 := by
  unfold Tree.endNode
  rw [show u.world.progress? node = t.world.progress? node by cases h; rfl]
  cases t.world.progress? node with
  | none => exact ⟨h, hends, rfl⟩
  | some p => exact h.endAction hends p ok

theorem Echo.breakService (h : Echo past t u) (hends : t.world.mainEnds = []) (service : NodeId)
    (stopAt : Option NodeId) :
    Echo past (t.breakService service stopAt).1 (u.breakService service stopAt).1 ∧
      (t.breakService service stopAt).1.world.mainEnds = [] ∧
      (u.breakService service stopAt).2 = (t.breakService service stopAt).2 := by
  unfold Tree.breakService
  rw [h.service?]
  cases t.service? service with
  | none => exact ⟨h, hends, rfl⟩
  | some v =>
    have hm : v.Made t.world (v.keep (v.stack.breakTo t.world stopAt)) :=
      .keep (Stack.breakTo_made ..)
    have hkept := h.keepService hm
    rw [← Service.keep_onto, ← Stack.breakTo_onto, ← h.world] at hkept
    obtain ⟨hc, hnone⟩ := conclude_rests hkept v.label
    simp only
    generalize conclude v.label (t.keepService _) = c, conclude v.label (u.keepService _) = c'
      at hc hnone ⊢
    cases hc with
    | @intro t u fault h => cases fault <;> exact ⟨h, hnone, rfl⟩

omit [Node σ] in
/-- A change of a service's stack in place. -/
theorem Echo.onService (h : Echo past t u) (hends : t.world.mainEnds = []) (service : NodeId)
    (f : Stack → Stack) :
    Echo past (((t.onService service f).toOption).getD t)
        (((u.onService service f).toOption).getD u) ∧
      (((t.onService service f).toOption).getD t).world.mainEnds = [] ∧
      refusal? (u.onService service f) = refusal? (t.onService service f) := by
  unfold Tree.onService
  rw [h.service?]
  cases t.service? service with
  | none => exact ⟨h, hends, rfl⟩
  | some v =>
    cases h with
    | intro e label heedless =>
      exact ⟨.of_eq e rfl label (heedless.mono rfl id id id), hends, rfl⟩

/-- Whether a node was ended, as the calls that end one tell their host. -/
def ended? (t : Tree σ) : HostCall → Option Bool
  | .endAction p ok => (t.endAction p ok).2.toOption
  | .endNode node ok => (t.endNode node ok).2.toOption
  | _ => none

/-- The call leads to such trees, with all settled, and what it tells the host is the same. -/
structure Alike (past : List Record) (t u : Tree σ) (call : HostCall) : Prop where
  echo : Echo past (t.perform call) (u.perform call)
  ends : (t.perform call).world.mainEnds = []
  answer : u.answer call = t.answer call
  ended : u.ended? call = t.ended? call

theorem Alike.of_rests {call : HostCall} {o o' : Outcome σ} (h : o.Rests past o')
    (ht : t.perform call = o.tree) (hu : u.perform call = o'.tree)
    (ha : t.answer call = o.fault.map .stack) (ha' : u.answer call = o'.fault.map .stack)
    (hn : u.ended? call = t.ended? call) : Alike past t u call where
  echo := by rw [ht, hu]; exact h.echo.tree
  ends := by rw [ht]; exact h.ends
  answer := by rw [ha, ha', h.echo.fault]
  ended := hn

/-- Whatever the host calls, the past and that tick make no difference. -/
theorem Echo.perform (h : Echo past t u) (hends : t.world.mainEnds = []) (call : HostCall) :
    Alike past t u call := by
  cases call with
  | start => exact .of_rests h.start rfl rfl rfl rfl rfl
  | update dt => exact .of_rests (h.update hends dt) rfl rfl rfl rfl rfl
  | fixedUpdate dt => exact .of_rests (h.fixedUpdate hends dt) rfl rfl rfl rfl rfl
  | lateUpdate dt => exact .of_rests (h.lateUpdate hends dt) rfl rfl rfl rfl rfl
  | tick dt => exact .of_rests (h.tick hends dt) rfl rfl rfl rfl rfl
  | receiveReturn ok => exact .of_rests (h.receiveReturn ok) rfl rfl rfl rfl rfl
  | breakMain stopAt => exact .of_rests (h.breakMain stopAt) rfl rfl rfl rfl rfl
  | terminate => exact .of_rests h.terminate rfl rfl rfl rfl rfl
  | endAction p ok =>
    obtain ⟨hecho, hnone, he⟩ := h.endAction hends p ok
    exact ⟨hecho, hnone, congrArg refusal? he, congrArg Except.toOption he⟩
  | endNode node ok =>
    obtain ⟨hecho, hnone, he⟩ := h.endNode hends node ok
    exact ⟨hecho, hnone, congrArg refusal? he, congrArg Except.toOption he⟩
  | breakService service stopAt =>
    obtain ⟨hecho, hnone, he⟩ := h.breakService hends service stopAt
    exact ⟨hecho, hnone, congrArg refusal? he, rfl⟩
  | pauseService service =>
    obtain ⟨hecho, hnone, he⟩ := h.onService hends service Stack.pause
    exact ⟨hecho, hnone, he, rfl⟩
  | resumeService service =>
    obtain ⟨hecho, hnone, he⟩ := h.onService hends service Stack.resume
    exact ⟨hecho, hnone, he, rfl⟩
  | pause | resume | withConfig _ | setVariables _ =>
    cases h with
    | intro e label heedless =>
      exact ⟨.of_eq e rfl label (heedless.mono rfl id id id), hends, rfl, rfl⟩

/-- Nor after any calls. -/
theorem Echo.performAll (h : Echo past t u) (hends : t.world.mainEnds = [])
    (calls : List HostCall) :
    Echo past (t.performAll calls) (u.performAll calls) ∧
      (t.performAll calls).world.mainEnds = [] := by
  induction calls generalizing t u with
  | nil => exact ⟨h, hends⟩
  | cons call rest ih =>
    have ha := h.perform hends call
    exact ih ha.echo ha.ends

end Tree

end BehaviorTree
