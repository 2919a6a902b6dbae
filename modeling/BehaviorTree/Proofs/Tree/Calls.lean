/-
The calls of a host, and that each one is made of moves.

Whatever a host calls, with whatever arguments and whether or not a rule is found broken,
leads from a tree whose events are settled to another such tree, by moves of the layout. So
what every move keeps holds after any sequence of calls.
-/
import BehaviorTree.Proofs.Tree.Settled

namespace BehaviorTree

variable {σ : Type} [Node σ]

/-- What a host may call. -/
inductive HostCall where
  | start
  | update (dt : Float32)
  | fixedUpdate (dt : Float32)
  | lateUpdate (dt : Float32)
  | tick (dt : Float32)
  | receiveReturn (ok : Bool)
  | endAction (p : Progress) (ok : Bool)
  | endNode (node : NodeId) (ok : Bool)
  | breakMain (stopAt : Option NodeId)
  | breakService (service : NodeId) (stopAt : Option NodeId)
  | pause
  | resume
  | pauseService (service : NodeId)
  | resumeService (service : NodeId)
  | terminate
  | withConfig (config : Config)
  | setVariables (b : Blackboard)

namespace Tree

variable {t t' t'' : Tree σ}

/-- Make a call, and go on with the tree that it leaves. -/
def perform (t : Tree σ) : HostCall → Tree σ
  | .start => t.start.tree
  | .update dt => (t.update dt).tree
  | .fixedUpdate dt => (t.fixedUpdate dt).tree
  | .lateUpdate dt => (t.lateUpdate dt).tree
  | .tick dt => (t.tick dt).tree
  | .receiveReturn ok => (t.receiveReturn ok).tree
  | .endAction p ok => (t.endAction p ok).1
  | .endNode node ok => (t.endNode node ok).1
  | .breakMain stopAt => (t.breakMain stopAt).tree
  | .breakService service stopAt => (t.breakService service stopAt).1
  | .pause => t.pause
  | .resume => t.resume
  | .pauseService service => ((t.pauseService service).toOption).getD t
  | .resumeService service => ((t.resumeService service).toOption).getD t
  | .terminate => t.terminate.tree
  | .withConfig config => t.withConfig config
  | .setVariables b => { t with world := { t.world with blackboard := b } }

/-- If all events of the tree are settled, there are moves to the other, and so are its. -/
structure Evolves (t t' : Tree σ) : Prop where
  step : t.layout.Orderly → t.layout.queue = [] →
    t.layout.Moves t'.layout ∧ t'.layout.queue = []

theorem Evolves.of_layout (h : t'.layout = t.layout) : t.Evolves t' :=
  ⟨fun _ hq => ⟨h ▸ .refl, h ▸ hq⟩⟩

theorem Evolves.refl (t : Tree σ) : t.Evolves t := .of_layout rfl

theorem Evolves.trans (h : t.Evolves t') (h' : t'.Evolves t'') : t.Evolves t'' := by
  refine ⟨fun ho hq => ?_⟩
  obtain ⟨hm, hq'⟩ := h.step ho hq
  obtain ⟨hm', hq''⟩ := h'.step (ho.moves hm) hq'
  exact ⟨hm.trans hm', hq''⟩

/-- A change of the world that no stack notices. -/
theorem Evolves.world {w : World σ} (hg : t.world.graph.Grown w.graph)
    (he : w.events = t.world.events) (hr : ∀ s, w.registrations s = t.world.registrations s) :
    t.Evolves { t with world := w } :=
  ⟨fun _ hq => ⟨.single (.world hg he hr), (congrArg Queue.toList he).trans hq⟩⟩

theorem Evolves.keeps {w : World σ} (h : t.world.Keeps w) : t.Evolves { t with world := w } :=
  .world h.graph h.events h.registrations

theorem evolves_settle {o : Outcome σ}
    (h : t.layout.Orderly → t.layout.Moves o.tree.layout) : t.Evolves o.settle.tree := by
  refine ⟨fun ho _ => ?_⟩
  have hm := h ho
  obtain ⟨hm', hq, -⟩ := settle_moves (ho.moves hm)
  exact ⟨hm.trans hm', hq⟩

theorem evolves_note (t : Tree σ) (label : StackLabel) (fault first : Option StackError) :
    t.Evolves (t.note label fault first).tree := by
  unfold note
  split
  · exact .refl t
  · exact .keeps (.report ..)

theorem evolves_conclude {o : Outcome σ} (label : StackLabel)
    (h : t.layout.Orderly → t.layout.Moves o.tree.layout) : t.Evolves (conclude label o).tree :=
  (evolves_settle h).trans (evolves_note ..)

/-! ## The parts of a phase -/

theorem deliver_evolves {p : Progress} {ok : Bool} {label : StackLabel} {o : Outcome σ}
    (h : t.deliver p ok = some (label, o)) : t.Evolves o.tree := by
  unfold deliver at h
  split at h
  · cases h
  split at h
  · cases h
    exact evolves_settle fun _ => keepMain_moves (Stack.receiveReturn_made ..)
  split at h
  · cases h
  · next v hv =>
    cases h
    exact evolves_settle fun ho =>
      keepService_moves ho (List.mem_of_find?_eq_some hv) (.keep (Stack.receiveReturn_made ..))

theorem fire_evolves (o : Outcome σ) (task : DeferredTask) : o.tree.Evolves (fire o task).tree := by
  unfold fire
  simp only
  split
  · exact .keeps (.trace ..)
  · next hd =>
    exact (deliver_evolves hd).trans ((Evolves.keeps (.trace ..)).trans (evolves_note ..))

theorem foldl_evolves {α : Type} {f : Outcome σ → α → Outcome σ}
    (h : ∀ (o : Outcome σ) (a : α), o.tree.Evolves (f o a).tree) (l : List α) (o : Outcome σ) :
    o.tree.Evolves (l.foldl f o).tree := by
  induction l generalizing o with
  | nil => exact .refl o.tree
  | cons a l ih => exact (h o a).trans (ih (f o a))

theorem advanceMain_moves (t : Tree σ) (phase : Phase) :
    t.layout.Moves (t.advanceMain phase).tree.layout := by
  unfold advanceMain
  split
  · exact .refl
  · exact .refl
  · split
    · exact keepMain_moves (Stack.restart_made ..)
    · exact .refl
  · split
    · exact keepMain_moves (Stack.run_made ..)
    split
    · exact keepMain_moves (Stack.start_made ..)
    · exact .refl
  · exact keepMain_moves (Stack.run_made ..)
  · exact keepMain_moves (Stack.run_made ..)
  · exact keepMain_moves (Stack.resumeNextUpdate_made ..)

theorem driveMain_evolves (t : Tree σ) (phase : Phase) : t.Evolves (t.driveMain phase).tree := by
  have ha : t.Evolves (t.advanceMain phase).settle.tree :=
    evolves_settle fun _ => advanceMain_moves t phase
  unfold driveMain
  split
  · exact .refl t
  split
  · next h => rw [h] at ha; exact ha
  · next h =>
    rw [h] at ha
    exact ha.trans (evolves_settle fun _ => keepMain_moves (Stack.forwardHook_made ..))

theorem moveService_evolves {move : Service → World σ → Pass σ Service}
    (h : ∀ (v : Service) (w : World σ), v.Made w (move v w)) (service : NodeId) (o : Outcome σ) :
    o.tree.Evolves (moveService service move o).tree := by
  unfold moveService
  split
  · exact .refl o.tree
  · next v hv =>
    have hk : o.tree.Evolves (o.tree.keepService (move v o.tree.world)).settle.tree :=
      evolves_settle fun ho => keepService_moves ho (service?_eq_some hv).1 (h v o.tree.world)
    exact hk.trans (evolves_note ..)

theorem driveService_evolves (phase : Phase) (o : Outcome σ) (service : NodeId) :
    o.tree.Evolves (driveService phase o service).tree :=
  (moveService_evolves Service.advance_made service o).trans
    (moveService_evolves (fun _ _ => .keep (Stack.forwardHook_made ..)) service _)

theorem runPhase_evolves (t : Tree σ) (now : Tick) : t.Evolves (t.runPhase now).tree := by
  unfold runPhase
  generalize hd : ({ t.world with tick := now } : World σ).takeDue = d
  obtain ⟨due, w⟩ := d
  simp only
  have hw : w = { t.world with tick := now, schedule := w.schedule } := by
    unfold World.takeDue at hd
    cases hd
    rfl
  have hstart : t.Evolves { t with world := w } := by
    rw [hw]
    exact .world (.refl _) rfl fun _ => rfl
  have hfired := foldl_evolves fire_evolves due ⟨{ t with world := w }, none⟩
  generalize due.foldl fire ⟨{ t with world := w }, none⟩ = fired at hfired ⊢
  have hmain := driveMain_evolves fired.tree now.phase
  generalize fired.tree.driveMain now.phase = main at hmain ⊢
  have hnoted := evolves_note main.tree .main main.fault fired.fault
  generalize main.tree.note .main main.fault fired.fault = noted at hnoted ⊢
  have hserved := foldl_evolves (driveService_evolves now.phase)
    (noted.tree.services.map (·.service)) noted
  exact hstart.trans (hfired.trans (hmain.trans (hnoted.trans hserved)))

/-! ## The calls -/

theorem endAction_evolves (t : Tree σ) (p : Progress) (ok : Bool) :
    t.Evolves (t.endAction p ok).1 := by
  unfold endAction
  split
  · exact .refl t
  next label o hd =>
  have hc : t.Evolves (conclude label o).tree :=
    (deliver_evolves hd).trans (evolves_conclude label fun _ => .refl)
  split
  · next h => rw [h] at hc; exact hc
  · next h => rw [h] at hc; exact hc

theorem breakService_evolves (t : Tree σ) (service : NodeId) (stopAt : Option NodeId) :
    t.Evolves (t.breakService service stopAt).1 := by
  unfold breakService
  split
  · exact .refl t
  next v hv =>
  have hc : t.Evolves (conclude v.label
      (t.keepService (v.keep (v.stack.breakTo t.world stopAt)))).tree :=
    evolves_conclude v.label fun ho =>
      keepService_moves ho (service?_eq_some hv).1 (.keep (Stack.breakTo_made ..))
  split
  · next h => rw [h] at hc; exact hc
  · next h => rw [h] at hc; exact hc

theorem onService_evolves (t : Tree σ) (service : NodeId) {f : Stack → Stack}
    (hf : ∀ s, (f s).nodes = s.nodes) : t.Evolves (((t.onService service f).toOption).getD t) := by
  unfold onService
  split
  · exact .refl t
  next v hv =>
  refine ⟨fun ho hq => ?_⟩
  have hm := (service?_eq_some hv).1
  have hr : (t.putService { v with stack := f v.stack }).layout.runs = t.layout.runs := by
    rw [runs_putService ho.nodup hm (by rfl) (by rfl)]
    show putNodes v.service (f v.stack).nodes t.layout.runs = t.layout.runs
    rw [hf]
    exact Layout.putNodes_self ho.nodup (mem_runs hm)
  have he : (t.putService { v with stack := f v.stack }).layout = t.layout :=
    congrArg (fun runs => { t.layout with runs }) hr
  exact (Evolves.of_layout he).step ho hq

theorem main_unregisterServices (owner : NodeId) (services : List NodeId) (o : Outcome σ) :
    (services.foldl (unregisterService owner) o).tree.main = o.tree.main := by
  induction services generalizing o with
  | nil => rfl
  | cons s rest ih =>
    refine (ih _).trans ?_
    unfold unregisterService
    split <;> rfl

theorem main_registerServices (owner : NodeId) (services : List NodeId) (t : Tree σ) :
    (services.foldl (registerService owner) t).main = t.main := by
  induction services generalizing t with
  | nil => rfl
  | cons s rest ih =>
    refine (ih _).trans ?_
    unfold registerService
    split <;> rfl

/-- Settling leaves the main stack alone. -/
theorem main_settleFrom (first : Option StackError) (t : Tree σ) :
    (t.settleFrom first).tree.main = t.main := by
  induction first, t using settleFrom.induct with
  | case1 first t hp => rw [settleFrom_of_none hp]
  | case2 first t e rest hp o ih =>
    have hmain : o.tree.main = t.main := by
      cases e with
      | pushed n => exact main_registerServices ..
      | popped n => exact main_unregisterServices ..
      | ended label _ => cases label <;> rfl
    rw [settleFrom_of_some hp]
    exact ih.trans hmain

omit [Node σ] in
/-- Once the main stack has ended and this is settled, no service is left to tear down. -/
theorem services_nil_of_settled {t : Tree σ} (h : t.layout.Orderly) (hm : t.main.nodes = [])
    (hq : t.layout.queue = []) : t.services = [] :=
  List.map_eq_nil_iff.1 (h.runs_nil hm hq rfl)

theorem terminate_evolves (t : Tree σ) : t.Evolves t.terminate.tree := by
  refine ⟨fun ho hq => ?_⟩
  unfold terminate
  simp only
  generalize ho' : { t with running := false }.keepMain (t.main.terminate t.world) = o
  have hm : t.layout.Moves o.tree.layout := by
    rw [← ho']
    exact keepMain_moves (Stack.terminate_made ..)
  have hnil : o.tree.main.nodes = [] := by
    rw [← ho']
    exact (Stack.terminate_eq ho.main.2).2
  obtain ⟨hms, hqs, -⟩ := settle_moves (ho.moves hm)
  have hmain : o.settle.tree.main = o.tree.main := main_settleFrom ..
  have hserv : o.settle.tree.services = [] :=
    services_nil_of_settled ((ho.moves hm).moves hms) (by rw [hmain, hnil]) hqs
  simp only [hserv, List.map_nil, List.reverse_nil, List.foldl_nil]
  exact (evolves_conclude (o := o.settle) .main fun _ => hm.trans hms).step ho hq

theorem withConfig_evolves (t : Tree σ) (config : Config) : t.Evolves (t.withConfig config) := by
  refine .of_layout ?_
  simp [layout, withConfig, Stack.applyConfig, Function.comp_def, Service.run]

theorem tick_evolves (t : Tree σ) (dt : Float32) : t.Evolves (t.tick dt).tree := by
  unfold tick update fixedUpdate lateUpdate
  simp only
  generalize h₁ : t.runPhase { number := t.world.tick.number + 1, dt, phase := .update } = o₁
  generalize h₂ : o₁.tree.runPhase
    { number := o₁.tree.world.tick.number, dt, phase := .fixedUpdate } = o₂
  have hu : t.Evolves o₁.tree := h₁ ▸ runPhase_evolves t _
  have hf : o₁.tree.Evolves o₂.tree := h₂ ▸ runPhase_evolves o₁.tree _
  exact hu.trans (hf.trans (runPhase_evolves o₂.tree _))

theorem endNode_evolves (t : Tree σ) (node : NodeId) (ok : Bool) :
    t.Evolves (t.endNode node ok).1 := by
  unfold endNode
  split
  · exact .refl t
  · exact endAction_evolves t _ ok

theorem perform_evolves (t : Tree σ) (call : HostCall) : t.Evolves (t.perform call) := by
  cases call with
  | start =>
    have hs : t.Evolves { t with running := true, endedAt := none } := .of_layout rfl
    exact hs.trans (evolves_conclude .main fun _ => keepMain_moves (Stack.restart_made ..))
  | update dt => exact runPhase_evolves t _
  | fixedUpdate dt => exact runPhase_evolves t _
  | lateUpdate dt => exact runPhase_evolves t _
  | tick dt => exact tick_evolves t dt
  | receiveReturn ok =>
    exact evolves_conclude .main fun _ => keepMain_moves (Stack.receiveReturn_made ..)
  | endAction p ok => exact endAction_evolves t p ok
  | endNode node ok => exact endNode_evolves t node ok
  | breakMain stopAt =>
    exact evolves_conclude .main fun _ => keepMain_moves (Stack.breakTo_made ..)
  | breakService service stopAt => exact breakService_evolves t service stopAt
  | pause => exact .of_layout rfl
  | resume => exact .of_layout rfl
  | pauseService service => exact onService_evolves t service fun _ => rfl
  | resumeService service => exact onService_evolves t service fun _ => rfl
  | terminate => exact terminate_evolves t
  | withConfig config => exact withConfig_evolves t config
  | setVariables b => exact .world (.refl _) rfl fun _ => rfl

end Tree

end BehaviorTree
