/-
What a tree does, with nothing left open.

A step tells what a tree does to its stacks and which rules were found broken, but not what is
traced on the way and how the runs of a service are counted. A motion is one thing that a tree
does, as it is done: each call of a host is a sequence of motions, so what every motion keeps
holds after any calls. A tree is not torn down by hand when it ends: the end of the main stack,
once it is settled, has left no service.
-/
import BehaviorTree.Proofs.Tree.Shutdown

namespace BehaviorTree

variable {σ : Type} [Node σ]

/-! ## Services -/

namespace Service

/-- One motion of a service, in its world. -/
inductive Motion : Service × World σ → Service × World σ → Prop
  | operate (v : Service) (w : World σ) {op : Stack.Operation} (h : op.isStatus = false) :
      Motion (v, w)
        ({ v with stack := (v.stack.perform w op).after }, (v.stack.perform w op).world)
  | ask (v : Service) (w : World σ) : Motion (v, w) (v, (w.ready v.service).1)
  | start (v : Service) (w : World σ) :
      Motion (v, w)
        ({ v with lastStarted := some w.tick.number, runs := v.runs + 1 },
          w.trace "bt.service.start" v.label v.service (v.runs + 1 : Nat))
  | preempt (v : Service) (w : World σ) :
      Motion (v, w) (v, w.trace "bt.service.preempt" v.label v.service v.stack.depth)

/-- Any number of motions. -/
def Motions : Service × World σ → Service × World σ → Prop := Relation.ReflTransGen Motion

variable {x y : Service × World σ}

theorem Motion.service (h : Motion x y) : y.1.service = x.1.service := by
  cases h <;> rfl

theorem Motion.label (h : Motion x y) : y.1.label = x.1.label := by
  cases h with
  | operate v w => exact (v.stack.perform_made w _).label
  | ask | start | preempt => rfl

theorem Motion.frame (h : Motion x y) : x.2.Frame y.2 := by
  cases h with
  | operate v w => exact v.stack.perform_frame w _
  | ask v w => exact (World.ready_keeps w v.service).toFrame
  | start | preempt => exact (World.Keeps.trace ..).toFrame

theorem Motion.sound (h : Motion x y) (hs : x.1.stack.Sound x.2) : y.1.stack.Sound y.2 := by
  have hf := h.frame
  cases h with
  | operate => exact hs.perform _
  | ask | start | preempt =>
    exact hs.elsewhere (fun n hn => by rwa [hf.graph.contains])
      (Nat.le_of_eq (congrArg Tick.number hf.tick.symm))

theorem Motions.service (h : Motions x y) : y.1.service = x.1.service := by
  induction h with
  | refl => rfl
  | tail _ h ih => exact h.service.trans ih

theorem operate_motions (v : Service) (w : World σ) (op : Stack.Operation)
    (h : op.isStatus = false) :
    Motions (v, w) ((v.keep (v.stack.perform w op)).after, (v.stack.perform w op).world) :=
  .single (.operate v w h)

theorem tryStart_motions (v : Service) (w : World σ) :
    Motions (v, w) ((v.tryStart w).after, (v.tryStart w).world) := by
  unfold tryStart
  split
  · exact .refl
  have ha : Motions (v, w) (v, (w.ready v.service).1) := .single (.ask v w)
  split
  · next hw => rw [hw] at ha; exact ha
  · next w' hw =>
    rw [hw] at ha
    exact (ha.tail (.start v w')).trans (operate_motions _ _ (.restart v.service) rfl)

theorem preempt_motions (v : Service) (w : World σ) :
    Motions (v, w) ((v.preempt w).after, (v.preempt w).world) := by
  unfold preempt
  simp only
  generalize hw' : w.trace "bt.service.preempt" v.label v.service v.stack.depth = w'
  have ht : Motions (v, w) (v, w') := hw' ▸ .single (.preempt v w)
  have hb := ht.trans (operate_motions v w' (.breakTo none) rfl)
  simp only [Stack.perform] at hb
  cases hp : v.stack.breakTo w' none with
  | mk after w'' fault =>
    rw [hp] at hb
    cases fault with
    | some e => exact hb
    | none => exact hb.trans (tryStart_motions _ w'')

theorem isPreempted_motions (v : Service) (w : World σ) :
    Motions (v, w) (v, (v.isPreempted w).1) := by
  unfold isPreempted
  split
  · exact .single (.ask v w)
  · exact .refl

theorem advance_motions (v : Service) (w : World σ) :
    Motions (v, w) ((v.advance w).after, (v.advance w).world) := by
  have hp := isPreempted_motions v w
  unfold advance
  split
  · exact .refl
  split
  · next w' hi =>
    rw [hi] at hp
    exact hp.trans (preempt_motions v w')
  next w' hi =>
  rw [hi] at hp
  have hrun : Motions (v, w) ((v.keep (v.stack.run w')).after, (v.stack.run w').world) :=
    hp.trans (operate_motions v w' .run rfl)
  split
  · exact hp
  · exact hp
  · exact hp.trans (operate_motions v w' .resumeNextUpdate rfl)
  · exact hp.trans (tryStart_motions v w')
  · split
    · exact hp.trans (tryStart_motions v w')
    · exact hrun
  · exact hrun
  · exact hrun

end Service

/-! ## Trees -/

namespace Tree

/-- One motion of a tree. -/
inductive Motion : Tree σ → Tree σ → Prop
  | main (t : Tree σ) {op : Stack.Operation} (h : op.isStatus = false) :
      Motion t (t.keepMain (t.main.perform t.world op)).tree
  | service (t : Tree σ) {v v' : Service} {w : World σ} (hv : v ∈ t.services)
      (h : Service.Motion (v, t.world) (v', w)) : Motion t { t.putService v' with world := w }
  | register (t : Tree σ) {owner service : NodeId}
      (h : service ∈ t.world.graph.servicesOf owner) : Motion t (registerService owner t service)
  | unregister (t : Tree σ) (owner service : NodeId) :
      Motion t (unregisterService owner ⟨t, none⟩ service).tree
  | take (t : Tree σ) {event : StackEvent} {events : Queue StackEvent}
      (h : t.world.events.pop? = some (event, events)) :
      Motion t { t with world := { t.world with events } }
  | fire (t : Tree σ) (label : StackLabel) (node : NodeId) (value : Int) :
      Motion t { t with world := t.world.trace "bt.deferred.fire" label node value }
  | report (t : Tree σ) (label : StackLabel) (e : StackError) :
      Motion t { t with world := t.world.report (.ofFault label e) }
  | clock (t : Tree σ) {tick : Tick} (h : t.world.tick.number ≤ tick.number) :
      Motion t { t with world := { t.world with tick } }
  | due (t : Tree σ) : Motion t { t with world := t.world.takeDue.2 }
  | setVariables (t : Tree σ) (b : Blackboard) :
      Motion t { t with world := { t.world with blackboard := b } }
  | fields (t : Tree σ) (running : Bool) (endedAt : Option Nat) (completedRuns : Nat)
      (lastResult : Option Bool) :
      Motion t { t with running, endedAt, completedRuns, lastResult }
  | config (t : Tree σ) (config : Config) : Motion t (t.withConfig config)

/-- Any number of motions. -/
def Motions : Tree σ → Tree σ → Prop := Relation.ReflTransGen Motion

variable {t t' t'' : Tree σ}

theorem Motion.sound (h : Motion t t') (ht : t.Sound) : t'.Sound := by
  cases h with
  | main => exact ht.keepMain _
  | service hv h =>
    exact ht.putService hv h.service h.label h.frame (h.sound (ht.services _ hv))
  | register h =>
    have hstep : Step .start t [] _ := .register t h
    exact hstep.sound ht
  | unregister owner s =>
    have hstep : Step .start t [] _ := .unregister t owner s
    exact hstep.sound ht
  | clock h => exact ht.world (.refl _) h
  | config c =>
    have hstep : Step (.withConfig c) t [] (t.withConfig c) := .config t rfl
    exact hstep.sound ht
  | fields => exact ⟨ht.main, ht.main_label, ht.services, ht.labels, ht.nodup⟩
  | take | fire | report | due | setVariables => exact ht.world (.refl _) (Nat.le_refl _)

theorem Motions.sound (h : Motions t t') (ht : t.Sound) : t'.Sound := by
  induction h with
  | refl => exact ht
  | tail _ h ih => exact h.sound ih

theorem Motion.same_root (h : Motion t t') : t'.root = t.root := by
  cases h with
  | register =>
    unfold registerService
    split <;> rfl
  | unregister =>
    unfold unregisterService
    split <;> rfl
  | _ => rfl

theorem Motions.same_root (h : t.Motions t') : t'.root = t.root := by
  induction h with
  | refl => rfl
  | tail _ h ih => exact h.same_root.trans ih

/-- If the tree is sound, there are motions to the other. -/
structure Reaches (t t' : Tree σ) : Prop where
  motions : t.Sound → t.Motions t'

theorem Reaches.refl (t : Tree σ) : t.Reaches t := ⟨fun _ => .refl⟩

theorem Reaches.trans (h : t.Reaches t') (h' : t'.Reaches t'') : t.Reaches t'' :=
  ⟨fun ht => (h.motions ht).trans (h'.motions ((h.motions ht).sound ht))⟩

theorem Motion.reaches (h : Motion t t') : t.Reaches t' := ⟨fun _ => .single h⟩

theorem reaches_fields (t : Tree σ) (running : Bool) (endedAt : Option Nat) (completedRuns : Nat)
    (lastResult : Option Bool) :
    t.Reaches { t with running, endedAt, completedRuns, lastResult } :=
  (Motion.fields ..).reaches

theorem keepMain_reaches (t : Tree σ) (op : Stack.Operation) (h : op.isStatus = false) :
    t.Reaches (t.keepMain (t.main.perform t.world op)).tree :=
  (Motion.main t h).reaches

/-- What a service does in its world it does in the tree. -/
theorem motions_service {v v' : Service} {w : World σ} (ht : t.Sound) (hv : v ∈ t.services)
    (h : Service.Motions (v, t.world) (v', w)) :
    t.Motions { t.putService v' with world := w } := by
  generalize hx : (v, t.world) = x at h
  generalize hy : (v', w) = y at h
  induction h generalizing v' w with
  | refl =>
    subst hx
    cases hy
    rw [putService_self ht.nodup hv]
    exact .refl
  | @tail y z h hs ih =>
    subst hx
    subst hy
    obtain ⟨u, wu⟩ := y
    have hu : u.service = v.service := Service.Motions.service h
    have hm : u ∈ ({ t.putService u with world := wu } : Tree σ).services :=
      putService_mem (hu ▸ List.mem_map_of_mem hv)
    have hput : (t.putService u).putService v' = t.putService v' :=
      putService_putService t hs.service
    have hrun := (ih rfl).tail (.service _ hm hs)
    rw [show ({ ({ t.putService u with world := wu } : Tree σ).putService v' with
        world := w } : Tree σ)
      = { (t.putService u).putService v' with world := w } from rfl, hput] at hrun
    exact hrun

theorem keepService_reaches {v : Service} {p : Pass σ Service} (hv : v ∈ t.services)
    (h : Service.Motions (v, t.world) (p.after, p.world)) : t.Reaches (t.keepService p).tree :=
  ⟨fun ht => motions_service ht hv h⟩

/-! ## Settling -/

/-- One thing that is done to settle an event. -/
inductive Chore : Tree σ → Tree σ → Prop
  | take (t : Tree σ) {event : StackEvent} {events : Queue StackEvent}
      (h : t.world.events.pop? = some (event, events)) :
      Chore t { t with world := { t.world with events } }
  | register (t : Tree σ) {owner service : NodeId}
      (h : service ∈ t.world.graph.servicesOf owner) : Chore t (registerService owner t service)
  | unregister (t : Tree σ) (owner service : NodeId) :
      Chore t (unregisterService owner ⟨t, none⟩ service).tree
  | count (t : Tree σ) (result : Option Bool) :
      Chore t { t with
        endedAt := some t.world.tick.number
        completedRuns := t.completedRuns + 1
        lastResult := result }

/-- Any number of chores. -/
def Chores : Tree σ → Tree σ → Prop := Relation.ReflTransGen Chore

theorem Chore.motion (h : Chore t t') : Motion t t' := by
  cases h with
  | take h => exact .take t h
  | register h => exact .register t h
  | unregister owner s => exact .unregister t owner s
  | count result => exact .fields t ..

theorem Chores.motions (h : Chores t t') : t.Motions t' :=
  Relation.ReflTransGen.mono (fun _ _ => Chore.motion) _ _ h

theorem registerServices_chores (owner : NodeId) (services : List NodeId)
    (h : ∀ s ∈ services, s ∈ t.world.graph.servicesOf owner) :
    Chores t (services.foldl (registerService owner) t) := by
  induction services generalizing t with
  | nil => exact .refl
  | cons s rest ih =>
    refine .head (.register t (h s List.mem_cons_self)) (ih fun s' hs' => ?_)
    rw [(registerService_grown owner t s).servicesOf]
    exact h s' (List.mem_cons_of_mem _ hs')

theorem unregisterServices_chores (owner : NodeId) (services : List NodeId) (o : Outcome σ) :
    Chores o.tree (services.foldl (unregisterService owner) o).tree := by
  induction services generalizing o with
  | nil => exact .refl
  | cons s rest ih =>
    have hchore : Chore o.tree (unregisterService owner o s).tree := by
      rw [unregisterService_tree]
      exact .unregister o.tree owner s
    exact .head hchore (ih _)

theorem handle_chores (t : Tree σ) (e : StackEvent) : Chores t (t.handle e).tree :=
  match e with
  | .pushed n => registerServices_chores n _ fun _ hs => hs
  | .popped n => unregisterServices_chores n _ ⟨t, none⟩
  | .ended .main result => .single (.count t result)
  | .ended (.service _) _ => .refl

/-- Settling is nothing but chores. -/
theorem settle_chores (t : Tree σ) : Chores t t.settle.tree := by
  suffices h : ∀ first, Chores t (t.settleFrom first).tree from h none
  intro first
  induction first, t using settleFrom.induct with
  | case1 first t hp =>
    rw [settleFrom_of_none hp]
    exact .refl
  | case2 first t e rest hp o ih =>
    rw [settleFrom_of_some hp]
    exact .head (.take t hp) ((handle_chores _ e).trans ih)

/-- What every chore keeps is kept by settling. -/
theorem settle_induction {P : Tree σ → Prop} (ht : t.Sound) (hp : P t)
    (hstep : ∀ u u' : Tree σ, u.Sound → Chore u u' → P u → P u') : P t.settle.tree := by
  have h := settle_chores t
  generalize t.settle.tree = t' at h
  induction h with
  | refl => exact hp
  | tail hs h ih => exact hstep _ _ ((Chores.motions hs).sound ht) h ih

theorem settle_reaches {o : Outcome σ} (h : t.Reaches o.tree) : t.Reaches o.settle.tree :=
  h.trans ⟨fun _ => (settle_chores o.tree).motions⟩

theorem note_reaches (t : Tree σ) (label : StackLabel) (fault first : Option StackError) :
    t.Reaches (t.note label fault first).tree := by
  unfold note
  split
  · exact .refl t
  · exact (Motion.report ..).reaches

theorem conclude_reaches {o : Outcome σ} (label : StackLabel) (h : t.Reaches o.tree) :
    t.Reaches (conclude label o).tree :=
  (settle_reaches h).trans (note_reaches ..)

/-! ## The parts of a phase -/

theorem deliver_reaches {p : Progress} {ok : Bool} {label : StackLabel} {o : Outcome σ}
    (h : t.deliver p ok = some (label, o)) : t.Reaches o.tree := by
  unfold deliver at h
  split at h
  · cases h
  split at h
  · cases h
    exact settle_reaches (keepMain_reaches t (.receiveReturn ok) rfl)
  split at h
  · cases h
  · next v hv =>
    cases h
    exact settle_reaches (keepService_reaches (List.mem_of_find?_eq_some hv)
      (Service.operate_motions v t.world (.receiveReturn ok) rfl))

theorem fire_reaches (o : Outcome σ) (task : DeferredTask) :
    o.tree.Reaches (fire o task).tree := by
  unfold fire
  simp only
  split
  · exact (Motion.fire ..).reaches
  · next hd =>
    exact (deliver_reaches hd).trans ((Motion.fire ..).reaches.trans (note_reaches ..))

theorem foldl_reaches {α : Type} {f : Outcome σ → α → Outcome σ}
    (h : ∀ (o : Outcome σ) (a : α), o.tree.Reaches (f o a).tree) (l : List α) (o : Outcome σ) :
    o.tree.Reaches (l.foldl f o).tree := by
  induction l generalizing o with
  | nil => exact .refl o.tree
  | cons a l ih => exact (h o a).trans (ih (f o a))

theorem advanceMain_reaches (t : Tree σ) (phase : Phase) :
    t.Reaches (t.advanceMain phase).tree := by
  unfold advanceMain
  split
  · exact .refl t
  · exact .refl t
  · split
    · exact keepMain_reaches t (.restart t.root) rfl
    · exact .refl t
  · split
    · exact keepMain_reaches t .run rfl
    split
    · exact keepMain_reaches t (.start t.root) rfl
    · exact .refl t
  · exact keepMain_reaches t .run rfl
  · exact keepMain_reaches t .run rfl
  · exact keepMain_reaches t .resumeNextUpdate rfl

theorem driveMain_reaches (t : Tree σ) (phase : Phase) : t.Reaches (t.driveMain phase).tree := by
  have ha := settle_reaches (advanceMain_reaches t phase)
  unfold driveMain
  split
  · exact .refl t
  split
  · next h => rw [h] at ha; exact ha
  · next t' h =>
    rw [h] at ha
    exact ha.trans (settle_reaches (keepMain_reaches t' (.forwardHook phase) rfl))

theorem moveService_reaches {move : Service → World σ → Pass σ Service}
    (h : ∀ (v : Service) (w : World σ), Service.Motions (v, w) ((move v w).after, (move v w).world))
    (service : NodeId) (o : Outcome σ) : o.tree.Reaches (moveService service move o).tree := by
  unfold moveService
  split
  · exact .refl o.tree
  · next v hv =>
    have hk := keepService_reaches (service?_eq_some hv).1 (h v o.tree.world)
    exact (settle_reaches hk).trans (note_reaches ..)

theorem driveService_reaches (phase : Phase) (o : Outcome σ) (service : NodeId) :
    o.tree.Reaches (driveService phase o service).tree :=
  (moveService_reaches Service.advance_motions service o).trans
    (moveService_reaches (fun v w => v.operate_motions w (.forwardHook phase) rfl) service _)

theorem atPhase_reaches {now : Tick} (h : t.world.tick.number ≤ now.number) :
    t.Reaches (t.atPhase now) :=
  (Motion.clock t h).reaches.trans (Motion.due _).reaches

theorem driveAll_reaches (o : Outcome σ) (phase : Phase) :
    o.tree.Reaches (driveAll o phase).tree :=
  ((driveMain_reaches o.tree phase).trans (note_reaches ..)).trans
    (foldl_reaches (driveService_reaches phase) _ _)

theorem runPhase_reaches {now : Tick} (h : t.world.tick.number ≤ now.number) :
    t.Reaches (t.runPhase now).tree := by
  rw [runPhase_eq]
  exact (atPhase_reaches h).trans
    ((foldl_reaches fire_reaches _ ⟨t.atPhase now, none⟩).trans (driveAll_reaches _ now.phase))

theorem tick_reaches (t : Tree σ) (dt : Float32) : t.Reaches (t.tick dt).tree := by
  unfold tick update fixedUpdate lateUpdate
  simp only
  generalize h₁ : t.runPhase { number := t.world.tick.number + 1, dt, phase := .update } = o₁
  generalize h₂ : o₁.tree.runPhase
    { number := o₁.tree.world.tick.number, dt, phase := .fixedUpdate } = o₂
  have hu : t.Reaches o₁.tree := h₁ ▸ runPhase_reaches (Nat.le_succ _)
  have hf : o₁.tree.Reaches o₂.tree := h₂ ▸ runPhase_reaches (Nat.le_refl _)
  exact hu.trans (hf.trans (runPhase_reaches (Nat.le_refl _)))

/-! ## The calls -/

theorem endAction_reaches (t : Tree σ) (p : Progress) (ok : Bool) :
    t.Reaches (t.endAction p ok).1 := by
  unfold endAction
  split
  · exact .refl t
  next label o hd =>
  have hc := conclude_reaches label (deliver_reaches hd)
  split
  · next h => rw [h] at hc; exact hc
  · next h => rw [h] at hc; exact hc

theorem endNode_reaches (t : Tree σ) (node : NodeId) (ok : Bool) :
    t.Reaches (t.endNode node ok).1 := by
  unfold endNode
  split
  · exact .refl t
  · exact endAction_reaches t _ ok

theorem breakService_reaches (t : Tree σ) (service : NodeId) (stopAt : Option NodeId) :
    t.Reaches (t.breakService service stopAt).1 := by
  unfold breakService
  split
  · exact .refl t
  next v hv =>
  have hc := conclude_reaches v.label (keepService_reaches (service?_eq_some hv).1
    (v.operate_motions t.world (.breakTo stopAt) rfl))
  simp only [Stack.perform] at hc
  split
  · next h => rw [h] at hc; exact hc
  · next h => rw [h] at hc; exact hc

/-- A change of a service's stack in place is one of the operations on it. -/
theorem onService_reaches (t : Tree σ) (service : NodeId) {f : Stack → Stack}
    (op : Stack.Operation) (h : op.isStatus = false)
    (hf : ∀ (s : Stack) (w : World σ), s.perform w op = ⟨f s, w, none⟩) :
    t.Reaches (((t.onService service f).toOption).getD t) := by
  unfold onService
  split
  · exact .refl t
  next v hv =>
  have hm := keepService_reaches (service?_eq_some hv).1 (v.operate_motions t.world op h)
  rw [hf] at hm
  exact hm

/-- A tree ends with its main stack: no service is left to be torn down by hand. -/
theorem terminate_reaches (ho : t.layout.Orderly) : t.Reaches t.terminate.tree := by
  refine ⟨fun ht => ?_⟩
  rw [terminate_eq_ended ht ho]
  have hr : t.Reaches { t with running := false } := reaches_fields ..
  exact (settle_reaches (hr.trans (keepMain_reaches _ .terminate rfl))).motions ht

theorem perform_reaches (ho : t.layout.Orderly) (call : HostCall) :
    t.Reaches (t.perform call) := by
  cases call with
  | start =>
    have hr : t.Reaches { t with running := true, endedAt := none } := reaches_fields ..
    exact conclude_reaches .main (hr.trans (keepMain_reaches _ (.restart t.root) rfl))
  | update dt => exact runPhase_reaches (Nat.le_succ _)
  | fixedUpdate dt => exact runPhase_reaches (Nat.le_refl _)
  | lateUpdate dt => exact runPhase_reaches (Nat.le_refl _)
  | tick dt => exact tick_reaches t dt
  | receiveReturn ok => exact conclude_reaches .main (keepMain_reaches t (.receiveReturn ok) rfl)
  | endAction p ok => exact endAction_reaches t p ok
  | endNode node ok => exact endNode_reaches t node ok
  | breakMain stopAt => exact conclude_reaches .main (keepMain_reaches t (.breakTo stopAt) rfl)
  | breakService service stopAt => exact breakService_reaches t service stopAt
  | pause => exact keepMain_reaches t .pause rfl
  | resume => exact keepMain_reaches t .resume rfl
  | pauseService service => exact onService_reaches t service .pause rfl fun _ _ => rfl
  | resumeService service => exact onService_reaches t service .resume rfl fun _ _ => rfl
  | terminate => exact terminate_reaches ho
  | withConfig config => exact (Motion.config t config).reaches
  | setVariables b => exact (Motion.setVariables t b).reaches

/-- All that a host does to a tree comes to motions. -/
theorem performAll_motions (ht : t.Sound) (ho : t.layout.Orderly) (hq : t.layout.queue = [])
    (calls : List HostCall) : t.Motions (t.performAll calls) := by
  induction calls generalizing t with
  | nil => exact .refl
  | cons call rest ih =>
    have hcall := (perform_reaches ho call).motions ht
    obtain ⟨hm, hq'⟩ := (perform_evolves t call).step ho hq
    exact hcall.trans (ih (hcall.sound ht) (ho.moves hm) hq')

theorem motions_of_make {g : Graph σ} {root : NodeId} {b : Blackboard}
    (hm : make g root b = .ok t) (calls : List HostCall) : t.Motions (t.performAll calls) :=
  have ⟨ho, hq⟩ := orderly_make hm
  performAll_motions (sound_make hm) ho hq calls

/-- What every motion keeps holds after any calls. -/
theorem Motions.induction {P : Tree σ → Prop} (h : t.Motions t') (ht : t.Sound) (hp : P t)
    (hstep : ∀ t t' : Tree σ, t.Sound → t.Motion t' → P t → P t') : P t' := by
  induction h with
  | refl => exact hp
  | tail hr h ih => exact hstep _ _ (Motions.sound hr ht) h ih

end Tree

end BehaviorTree
