/-
Two trees that the nodes of the main stack cannot tell apart.

The trees have the same main stack, and the worlds are the same for the nodes that can come onto
it. What services do in one of them, how they are registered and torn down, and which rules are
found broken on their stacks makes no difference to that; and what the host has done to the main
stack does the same in both. So the trees are the same for these nodes after any calls.
-/
import BehaviorTree.Proofs.Stack.SameFor
import BehaviorTree.Proofs.Tree.Deferred
import BehaviorTree.Proofs.Tree.Motions

namespace BehaviorTree

variable {σ : Type}

/-- The trees are the same, but for their services and for what the nodes do not see of the
world. -/
structure Tree.SameFor (p : NodeId → Bool) (t u : Tree σ) : Prop where
  root : t.root = u.root
  config : t.config = u.config
  main : t.main = u.main
  running : t.running = u.running
  endedAt : t.endedAt = u.endedAt
  completedRuns : t.completedRuns = u.completedRuns
  lastResult : t.lastResult = u.lastResult
  world : t.world.SameFor p u.world

variable [Node σ] {g g' : Graph σ} {root : NodeId} {p : NodeId → Bool}

/-- Some nodes are apart from all services: the root and its children are among them, and every
service is hidden from them. -/
structure Graph.Divides (g : Graph σ) (root : NodeId) (p : NodeId → Bool) : Prop
    extends Graph.Closed g p where
  root : p root
  hides : ∀ owner s, s ∈ g.servicesOf owner → g.Hides p s

namespace Tree

variable {t t' u u' : Tree σ}

section

omit [Node σ]

theorem SameFor.refl (t : Tree σ) : t.SameFor p t :=
  ⟨rfl, rfl, rfl, rfl, rfl, rfl, rfl, .refl _⟩

theorem SameFor.symm (h : t.SameFor p u) : u.SameFor p t :=
  ⟨h.root.symm, h.config.symm, h.main.symm, h.running.symm, h.endedAt.symm, h.completedRuns.symm,
    h.lastResult.symm, h.world.symm⟩

theorem SameFor.trans (h : t.SameFor p u) (h' : u.SameFor p u') : t.SameFor p u' :=
  ⟨h.root.trans h'.root, h.config.trans h'.config, h.main.trans h'.main,
    h.running.trans h'.running, h.endedAt.trans h'.endedAt,
    h.completedRuns.trans h'.completedRuns, h.lastResult.trans h'.lastResult,
    h.world.trans h'.world⟩

theorem sameFor_world {w : World σ} (h : t.world.SameFor p w) :
    t.SameFor p { t with world := w } :=
  { SameFor.refl (p := p) t with world := h }

/-- What it comes to that a run of the root was completed. -/
def completed (t : Tree σ) (result : Option Bool) : Tree σ :=
  { t with
    endedAt := some t.world.tick.number
    completedRuns := t.completedRuns + 1
    lastResult := result }

theorem SameFor.completed (h : t.SameFor p u) (result : Option Bool) :
    (t.completed result).SameFor p (u.completed result) :=
  { h with
    endedAt := congrArg (fun tick : Tick => some tick.number) h.world.tick
    completedRuns := congrArg (· + 1) h.completedRuns
    lastResult := rfl }

theorem SameFor.foldl_completed (h : t.SameFor p u) (results : List (Option Bool)) :
    (results.foldl Tree.completed t).SameFor p (results.foldl Tree.completed u) := by
  induction results generalizing t u with
  | nil => exact h
  | cons result rest ih => exact ih (h.completed result)

end

/-! ## Services -/

/-- The nodes of each service lie under it, and it is hidden from the others. -/
structure Seated (g : Graph σ) (p : NodeId → Bool) (t : Tree σ) : Prop where
  grown : g.Grown t.world.graph
  path : ∀ v ∈ t.services, Stack.Path g v.service v.stack.nodes
  hidden : ∀ v ∈ t.services, g.Hides p v.service
  label : ∀ v ∈ t.services, v.stack.label ≠ .main

/-- Something is done that the nodes do not notice, and no run is completed. -/
structure Unseen (g : Graph σ) (p : NodeId → Bool) (t t' : Tree σ) : Prop where
  seated : t'.Seated g p
  same : t.SameFor p t'
  ends : t'.world.mainEnds = t.world.mainEnds

theorem Unseen.refl (h : t.Seated g p) : Unseen g p t t := ⟨h, .refl t, rfl⟩

theorem Unseen.trans (h : Unseen g p t t') (h' : Unseen g p t' u) : Unseen g p t u :=
  ⟨h'.seated, h.same.trans h'.same, h'.ends.trans h.ends⟩

/-- What is done in the world alone. -/
theorem Seated.unseen_world (h : t.Seated g p) {w : World σ} (hs : t.world.SameFor p w)
    (hg : t.world.graph.Grown w.graph) (he : w.events = t.world.events) :
    Unseen g p t { t with world := w } :=
  ⟨⟨h.grown.trans hg, h.path, h.hidden, h.label⟩, sameFor_world hs, by
    rw [World.mainEnds, World.mainEnds, he]⟩

/-- What a service does with its stack. -/
theorem Seated.unseen_keepService (hc : g.CallsChildren) (h : t.Seated g p) {v : Service}
    (hv : v ∈ t.services) {q : Pass σ Service} (hm : v.Made t.world q) :
    Unseen g p t (t.keepService q).tree := by
  obtain ⟨hs, hp⟩ := hm.stack.acts.sameFor hc h.grown (h.path v hv) (h.hidden v hv)
  have hlabel : q.after.stack.label = v.stack.label := hm.stack.label
  have hends := hm.stack.acts.mainEnds (h.label v hv)
  refine ⟨⟨h.grown.trans hm.stack.acts.frame.graph, fun x hx => ?_, fun x hx => ?_,
    fun x hx => ?_⟩, { SameFor.refl (p := p) t with world := hs }, hends⟩
  all_goals rcases mem_putService hx with ⟨rfl, -⟩ | ⟨hx, -⟩
  · rw [hm.service]
    exact hp
  · exact h.path x hx
  · rw [hm.service]
    exact h.hidden v hv
  · exact h.hidden x hx
  · rw [hlabel]
    exact h.label v hv
  · exact h.label x hx

/-! ## Settling -/

theorem registerService_unseen (hd : g.Divides root p) (h : t.Seated g p) {owner s : NodeId}
    (hs : s ∈ g.servicesOf owner) : Unseen g p t (registerService owner t s) := by
  unfold registerService
  split
  · exact .refl h
  have hhide := hd.hides owner s hs
  have hw : t.world.SameFor p ((t.world.registered s).trace "bt.service.register" (.service s)
      owner 0) :=
    (World.SameFor.of_registered _ (hhide s .refl).1).trans (.of_trace ..)
  have hworld := h.unseen_world hw (World.registered_grown t.world s) (by simp)
  refine ⟨⟨hworld.seated.grown, fun v hv => ?_, fun v hv => ?_, fun v hv => ?_⟩,
    { hworld.same with }, hworld.ends⟩
  all_goals
    rcases List.mem_append.1 hv with hv | hv
    · first | exact h.path v hv | exact h.hidden v hv | exact h.label v hv
    · obtain rfl := List.mem_singleton.1 hv
      first | exact trivial | exact hhide | exact nofun

theorem registerServices_unseen (hd : g.Divides root p) (h : t.Seated g p) (owner : NodeId)
    (services : List NodeId) (hs : ∀ s ∈ services, s ∈ g.servicesOf owner) :
    Unseen g p t (services.foldl (registerService owner) t) := by
  induction services generalizing t with
  | nil => exact .refl h
  | cons s rest ih =>
    have hr := registerService_unseen hd h (hs s List.mem_cons_self)
    exact hr.trans (ih hr.seated fun s' hs' => hs s' (List.mem_cons_of_mem s hs'))

theorem unregisterService_unseen (hc : g.CallsChildren) {o : Outcome σ} (h : o.tree.Seated g p)
    (owner s : NodeId) : Unseen g p o.tree (unregisterService owner o s).tree := by
  unfold unregisterService
  split
  · exact .refl h
  next v hv =>
  obtain ⟨hm, rfl⟩ : v ∈ o.tree.services ∧ v.service = s := service?_eq_some hv
  have hmade : Stack.Made (· = v.service) v.stack o.tree.world (v.stack.terminate o.tree.world) :=
    Stack.terminate_made ..
  have hdone := h.unseen_keepService hc hm (.keep hmade)
  have hw := (World.SameFor.of_unregistered (v.stack.terminate o.tree.world).world
    (h.hidden v hm v.service .refl).1).trans (.of_trace _ "bt.service.unregister"
      (.service v.service) owner v.runs)
  have htold := hdone.trans (hdone.seated.unseen_world hw (World.unregistered_grown _ v.service)
    (World.events_unregistered ..))
  refine ⟨⟨htold.seated.grown, fun x hx => ?_, fun x hx => ?_, fun x hx => ?_⟩,
    { htold.same with }, htold.ends⟩
  · exact h.path x (List.mem_of_mem_eraseP hx)
  · exact h.hidden x (List.mem_of_mem_eraseP hx)
  · exact h.label x (List.mem_of_mem_eraseP hx)

theorem unregisterServices_unseen (hc : g.CallsChildren) (owner : NodeId)
    (services : List NodeId) {o : Outcome σ} (h : o.tree.Seated g p) :
    Unseen g p o.tree (services.foldl (unregisterService owner) o).tree := by
  induction services generalizing o with
  | nil => exact .refl h
  | cons s rest ih =>
    have hr := unregisterService_unseen hc h owner s
    exact hr.trans (ih hr.seated)

/-- The nodes notice of an event only that a run of the root was completed. -/
theorem handle_unseen (hd : g.Divides root p) (h : t.Seated g p) (e : StackEvent) :
    Unseen g p (e.mainEnd?.toList.foldl completed t) (t.handle e).tree := by
  match e with
  | .pushed n =>
    refine registerServices_unseen hd h n _ fun s hs => ?_
    rwa [← h.grown.servicesOf]
  | .popped n => exact unregisterServices_unseen hd.calls n _ (o := ⟨t, none⟩) h
  | .ended .main result =>
    exact .refl ⟨h.grown, h.path, h.hidden, h.label⟩
  | .ended (.service _) _ => exact .refl h

/-- The nodes notice of settling only that runs of the root were completed. -/
theorem settleFrom_sameFor (hd : g.Divides root p) (first : Option StackError) (t : Tree σ)
    (h : t.Seated g p) :
    (t.world.mainEnds.foldl completed t).SameFor p (t.settleFrom first).tree := by
  induction first, t using settleFrom.induct with
  | case1 first t hp =>
    rw [settleFrom_of_none hp, World.mainEnds, Queue.pop?_eq_none_iff.1 hp]
    exact .refl t
  | case2 first t e rest hp o ih =>
    rw [settleFrom_of_some hp]
    let taken : Tree σ := { t with world := { t.world with events := rest } }
    have htaken : taken.Seated g p := ⟨h.grown, h.path, h.hidden, h.label⟩
    have hsame : t.SameFor p taken := sameFor_world ⟨fun _ _ => rfl, rfl, rfl, rfl, rfl⟩
    have hhandle := handle_unseen hd htaken e
    have hends : t.world.mainEnds = e.mainEnd?.toList ++ o.tree.world.mainEnds := by
      have hkept : (e.mainEnd?.toList.foldl completed taken).world = taken.world := by
        cases e.mainEnd? <;> rfl
      rw [show o.tree.world.mainEnds = taken.world.mainEnds by rw [← hkept]; exact hhandle.ends,
        World.mainEnds, Queue.toList_of_pop? hp, List.filterMap_cons]
      cases e.mainEnd? <;> rfl
    rw [hends, List.foldl_append]
    have hfirst := (hsame.foldl_completed e.mainEnd?.toList).trans hhandle.same
    exact (hfirst.foldl_completed _).trans (ih hhandle.seated)

end Tree

end BehaviorTree
