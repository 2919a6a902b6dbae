/-
Services do not disturb the main stack.

Two trees are followed, call by call, of which only one may have services. Between the calls all
events of both are settled, and the trees are the same for the nodes that can come onto the main
stack. What the services do in a call keeps it so, for each tree by itself; and what is done to
the main stack is the same in both.
-/
import BehaviorTree.Proofs.Library.Still
import BehaviorTree.Proofs.Tree.SameFor

namespace BehaviorTree

variable {σ : Type} [Node σ] {g g' g'' : Graph σ} {root : NodeId} {p : NodeId → Bool}

theorem Graph.Closed.under (h : g.Closed p) (hr : p root) {n : NodeId} (hn : g.Under root n) :
    p n := by
  induction hn with
  | refl => exact hr
  | tail _ hc ih => exact h.child _ _ ih hc

omit [Node σ] in
theorem Stack.mem_nodes_of_isWaitingOn {s : Stack} {node : NodeId} (h : s.isWaitingOn node) :
    node ∈ s.nodes := by
  simp only [isWaitingOn, Bool.and_eq_true, decide_eq_true_eq] at h
  exact List.mem_of_mem_head? h.2

namespace Tree

variable {t t' u u' : Tree σ} {o o' : Outcome σ}

/-! ## Trees at rest -/

/-- All events of the tree are settled, and its stacks lead down from their heads. -/
structure AtRest (g : Graph σ) (root : NodeId) (t : Tree σ) : Prop where
  sound : t.Sound
  orderly : t.layout.Orderly
  settled : t.world.events.toList = []
  guided : t.layout.Guided g
  root : t.root = root

/-- The trees are at rest, each over its own graph, and the nodes cannot tell them apart. -/
structure Beside (g g' : Graph σ) (root : NodeId) (p : NodeId → Bool) (t u : Tree σ) : Prop where
  left : t.AtRest g root
  right : u.AtRest g' root
  same : t.SameFor p u

theorem Beside.symm (h : Beside g g' root p t u) : Beside g' g root p u t :=
  ⟨h.right, h.left, h.same.symm⟩

theorem Beside.trans (h : Beside g g' root p t t') (h' : Beside g' g'' root p t' u) :
    Beside g g'' root p t u :=
  ⟨h.left, h'.right, h.same.trans h'.same⟩

/-- In both trees something is done that is nothing to the nodes. -/
theorem Beside.of_both (h : Beside g g' root p t u) (ht : t.SameFor p t') (hu : u.SameFor p u') :
    t'.SameFor p u' :=
  (ht.symm.trans h.same).trans hu

theorem AtRest.make {b : Blackboard} (h : make g root b = .ok t) : t.AtRest g root :=
  ⟨sound_make h, (orderly_make h).1, (orderly_make h).2, (guided_make h).1, (guided_make h).2⟩

/-- Whatever is done by moves and motions leads to rest again. -/
theorem AtRest.next (hc : g.CallsChildren) (h : t.AtRest g root) (he : t.Evolves t')
    (hr : t.Reaches t') : t'.AtRest g root := by
  obtain ⟨hm, hq⟩ := he.step h.orderly h.settled
  exact ⟨(hr.motions h.sound).sound h.sound, h.orderly.moves hm, hq, h.guided.moves hc hm,
    hm.root.trans h.root⟩

theorem AtRest.beside (h : t.AtRest g root) : Beside g g root p t t := ⟨h, h, .refl t⟩

theorem AtRest.mainEnds (h : t.AtRest g root) : t.world.mainEnds = [] :=
  World.mainEnds_of_settled h.settled

theorem AtRest.conclude_eq (h : o.tree.AtRest g root) (label : StackLabel) :
    conclude label o = o.tree.note label o.fault none :=
  conclude_of_settled h.settled label o.fault

/-- An operation on the main stack leads to rest once it is settled. -/
theorem AtRest.operate (hc : g.CallsChildren) (h : t.AtRest g root) {op : Stack.Operation}
    (ho : ∀ head, op.Heads head → head = root) (hs : op.isStatus = false) :
    (t.keepMain (t.main.perform t.world op)).settle.tree.AtRest g root := by
  have hm : Stack.Made (· = t.root) t.main t.world (t.main.perform t.world op) :=
    (t.main.perform_made t.world op).mono fun head hh => (ho head hh).trans h.root.symm
  exact h.next hc (evolves_settle fun _ => keepMain_moves hm)
    (settle_reaches (keepMain_reaches t op hs))

omit [Node σ] in
theorem sameFor_note (t : Tree σ) (label : StackLabel) (fault first : Option StackError) :
    t.SameFor p (t.note label fault first).tree := by
  unfold note
  split
  · exact .refl t
  · exact sameFor_world (.of_report ..)

theorem Beside.note (hc : g.CallsChildren) (h : Beside g g' root p t u) (label : StackLabel)
    (fault first : Option StackError) :
    Beside g g' root p (t.note label fault first).tree u :=
  ⟨h.left.next hc (evolves_note ..) (note_reaches ..), h.right,
    (sameFor_note t label fault first).symm.trans h.same⟩

/-! ## What services do -/

theorem endAction_of_deliver {token : Progress} {ok : Bool} {label : StackLabel}
    (ho : t.deliver token ok = some (label, o)) :
    (t.endAction token ok).1 = (conclude label o).tree := by
  unfold endAction
  rw [ho]
  simp only
  split
  · next hc => rw [hc]
  · next hc => rw [hc]

omit [Node σ] in
theorem sameFor_onService (t : Tree σ) (service : NodeId) (f : Stack → Stack) :
    t.SameFor p (((t.onService service f).toOption).getD t) := by
  unfold onService
  split
  · exact .refl t
  · exact { SameFor.refl (p := p) t with }

section

variable (hd : g.Divides root p)

include hd

theorem AtRest.seated (h : t.AtRest g root) : t.Seated g p where
  grown := h.guided.grown
  path v hv := h.guided.runs v.run (mem_runs hv)
  hidden v hv := by
    have hs := h.orderly.attached v.run (mem_runs hv)
    rw [h.guided.grown.servicesOf] at hs
    exact hd.hides v.owner v.service hs
  label v hv := by
    rw [show v.stack.label = .service v.service from h.sound.labels v hv]
    simp

theorem AtRest.main (h : t.AtRest g root) {n : NodeId} (hn : n ∈ t.main.nodes) : p n :=
  hd.under hd.root (h.root ▸ h.guided.main.under n hn)

/-- What the nodes do not see is settled. -/
theorem AtRest.settle_sameFor (h : t.AtRest g root) (hu : Unseen g p t o.tree) :
    t.SameFor p o.settle.tree := by
  have hs := settleFrom_sameFor hd none o.tree hu.seated
  rw [hu.ends, h.mainEnds] at hs
  exact hu.same.trans hs

theorem AtRest.keepService_sameFor (h : t.AtRest g root) {v : Service} (hv : v ∈ t.services)
    {q : Pass σ Service} (hm : v.Made t.world q) :
    t.SameFor p (t.keepService q).settle.tree :=
  h.settle_sameFor hd ((h.seated hd).unseen_keepService hd.calls hv hm)

/-- One of the nodes is waited for by the main stack or by none. -/
theorem AtRest.deliver_eq (h : t.AtRest g root) {token : Progress} (hn : p token.node)
    (ok : Bool) :
    t.deliver token ok =
      if t.world.isCurrent token && t.main.isWaitingOn token.node then
        some (.main, (t.keepMain (t.main.receiveReturn t.world ok)).settle)
      else none := by
  have hnone : t.services.find? (·.stack.isWaitingOn token.node) = none := by
    refine List.find?_eq_none.2 fun v hv hw => ?_
    have hseated := h.seated hd
    have hunder := (hseated.path v hv).under token.node (Stack.mem_nodes_of_isWaitingOn hw)
    rw [(hseated.hidden v hv _ hunder).1] at hn
    cases hn
  unfold deliver
  rw [hnone]
  cases t.world.isCurrent token <;> cases t.main.isWaitingOn token.node <;> rfl

/-- The end of another node is delivered to a service. -/
theorem AtRest.deliver_sameFor (h : t.AtRest g root) {token : Progress}
    (hn : p token.node = false) {ok : Bool} {label : StackLabel}
    (ho : t.deliver token ok = some (label, o)) : t.SameFor p o.tree := by
  unfold deliver at ho
  split at ho
  · cases ho
  split at ho
  · next hw =>
    rw [h.main hd (Stack.mem_nodes_of_isWaitingOn hw)] at hn
    cases hn
  split at ho
  · cases ho
  · next v hv =>
    cases ho
    exact h.keepService_sameFor hd (List.mem_of_find?_eq_some hv)
      (.keep (Stack.receiveReturn_made ..))

theorem AtRest.fire (h : o.tree.AtRest g root) (task : DeferredTask)
    (hn : p task.progress.node = false) : Beside g g root p o.tree (fire o task).tree := by
  refine ⟨h, h.next hd.calls (fire_evolves ..) (fire_reaches ..), ?_⟩
  unfold Tree.fire
  simp only
  split
  · exact sameFor_world (.of_trace ..)
  · next ho =>
    exact ((h.deliver_sameFor hd hn ho).trans (sameFor_world (.of_trace ..))).trans
      (sameFor_note ..)

theorem AtRest.moveService (h : o.tree.AtRest g root) {move : Service → World σ → Pass σ Service}
    (hm : ∀ (v : Service) (w : World σ), v.Made w (move v w)) (service : NodeId) :
    o.tree.SameFor p (moveService service move o).tree := by
  unfold Tree.moveService
  split
  · exact .refl _
  · next v hv =>
    exact (h.keepService_sameFor hd (service?_eq_some hv).1 (hm v o.tree.world)).trans
      (sameFor_note ..)

theorem AtRest.driveService (h : o.tree.AtRest g root) (phase : Phase) (service : NodeId) :
    Beside g g root p o.tree (driveService phase o service).tree := by
  refine ⟨h, h.next hd.calls (driveService_evolves ..) (driveService_reaches ..), ?_⟩
  have ha := h.moveService hd Service.advance_made service
  have hrest : (Tree.moveService service Service.advance o).tree.AtRest g root :=
    h.next hd.calls (moveService_evolves Service.advance_made service o)
      (moveService_reaches Service.advance_motions service o)
  exact ha.trans (hrest.moveService hd (fun _ _ => .keep (Stack.forwardHook_made ..)) service)

theorem AtRest.driveServices (phase : Phase) (services : List NodeId) (h : o.tree.AtRest g root) :
    Beside g g root p o.tree (services.foldl (Tree.driveService phase) o).tree := by
  induction services generalizing o with
  | nil => exact h.beside
  | cons s rest ih =>
    have hs := h.driveService hd phase s
    exact hs.trans (ih hs.right)

/-- To end another node is nothing to the nodes. -/
theorem AtRest.endAction_sameFor (h : t.AtRest g root) {token : Progress}
    (hn : p token.node = false) (ok : Bool) : t.SameFor p (t.endAction token ok).1 := by
  cases ho : t.deliver token ok with
  | none =>
    unfold endAction
    rw [ho]
    exact .refl t
  | some d =>
    have hrest := h.next hd.calls (deliver_evolves ho) (deliver_reaches ho)
    rw [endAction_of_deliver ho, hrest.conclude_eq]
    exact (h.deliver_sameFor hd hn ho).trans (sameFor_note ..)

theorem AtRest.endNode_sameFor (h : t.AtRest g root) {node : NodeId} (hn : p node = false)
    (ok : Bool) : t.SameFor p (t.endNode node ok).1 := by
  unfold endNode
  split
  · exact .refl t
  next token ht =>
  obtain ⟨slot, -, rfl⟩ := Option.map_eq_some_iff.1 ht
  exact h.endAction_sameFor hd hn ok

theorem AtRest.breakService_sameFor (h : t.AtRest g root) (service : NodeId)
    (stopAt : Option NodeId) : t.SameFor p (t.breakService service stopAt).1 := by
  unfold breakService
  split
  · exact .refl t
  next v hv =>
  have hc : t.SameFor p (conclude v.label
      (t.keepService (v.keep (v.stack.breakTo t.world stopAt)))).tree :=
    (h.keepService_sameFor hd (service?_eq_some hv).1 (.keep (Stack.breakTo_made ..))).trans
      (sameFor_note ..)
  split
  · next hco => rw [hco] at hc; exact hc
  · next hco => rw [hco] at hc; exact hc

end

/-! ## What is done to the main stack -/

theorem atPhase_evolves (t : Tree σ) (now : Tick) : t.Evolves (t.atPhase now) :=
  .world (.refl _) rfl fun _ => rfl

section

variable (hd : g.Divides root p) (hd' : g'.Divides root p)

include hd hd'

/-- Whatever is done by moves and motions in each of the trees leads to rest again. -/
theorem Beside.next (h : Beside g g' root p t u) (ht : t.Evolves t' ∧ t.Reaches t')
    (hu : u.Evolves u' ∧ u.Reaches u') (hs : t'.SameFor p u') : Beside g g' root p t' u' :=
  ⟨h.left.next hd.calls ht.1 ht.2, h.right.next hd'.calls hu.1 hu.2, hs⟩

/-- What two passes did is settled in both trees. -/
theorem Beside.settle_sameFor (h : Beside g g' root p t u) {a b : Pass σ Stack}
    (hp : Stack.Twins g p a b) (ha : t.world.Frame a.world) (hb : u.world.Frame b.world) :
    (t.keepMain a).settle.tree.SameFor p (u.keepMain b).settle.tree := by
  cases hp with
  | @intro s w v hp fault =>
    have hkept : (t.keepMain ⟨s, w, fault⟩).tree.SameFor p (u.keepMain ⟨s, v, fault⟩).tree :=
      { h.same with main := rfl, world := hp.same }
    have ht := h.left.seated hd
    have hu := h.right.seated hd'
    have hsettled := settleFrom_sameFor hd none (t.keepMain ⟨s, w, fault⟩).tree
      ⟨ht.grown.trans ha.graph, ht.path, ht.hidden, ht.label⟩
    have hsettled' := settleFrom_sameFor hd' none (u.keepMain ⟨s, v, fault⟩).tree
      ⟨hu.grown.trans hb.graph, hu.path, hu.hidden, hu.label⟩
    have hends : w.mainEnds = v.mainEnds := by rw [World.mainEnds, World.mainEnds, hp.events]
    have hboth := hkept.foldl_completed w.mainEnds
    refine (hsettled.symm.trans hboth).trans ?_
    rw [hends]
    exact hsettled'

/-- An operation on the main stack does the same in both trees. -/
theorem Beside.operate (h : Beside g g' root p t u) (op : Stack.Operation)
    (ho : ∀ head, op.Heads head → head = root) (hs : op.isStatus = false) :
    Beside g g' root p (t.keepMain (t.main.perform t.world op)).settle.tree
        (u.keepMain (u.main.perform u.world op)).settle.tree ∧
      (t.keepMain (t.main.perform t.world op)).settle.fault
        = (u.keepMain (u.main.perform u.world op)).settle.fault := by
  have hevents : t.world.events = u.world.events :=
    (Queue.eq_empty h.left.settled).trans (Queue.eq_empty h.right.settled).symm
  have htwin : Stack.Twin g p t.main t.world u.world :=
    ⟨h.left.guided.grown, h.same.world, hevents, fun n hn => h.left.main hd hn⟩
  have hp : Stack.Twins g p (t.main.perform t.world op) (t.main.perform u.world op) :=
    Stack.perform_twins hd.toClosed htwin fun head hh => ho head hh ▸ hd.root
  have hw := t.main.perform_frame t.world op
  have hv := u.main.perform_frame u.world op
  refine ⟨⟨h.left.operate hd.calls ho hs, h.right.operate hd'.calls ho hs,
    h.settle_sameFor hd hd' (h.same.main ▸ hp) hw hv⟩, ?_⟩
  have hfault : (t.main.perform t.world op).fault = (u.main.perform u.world op).fault := by
    rw [← h.same.main]
    exact hp.fault
  rw [(settle_guarded .start (h.left.sound.keepMain _)).2,
    (settle_guarded .start (h.right.sound.keepMain _)).2]
  exact hfault

theorem Beside.operated (h : Beside g g' root p t u) (op : Stack.Operation)
    (ho : ∀ head, op.Heads head → head = root) (hs : op.isStatus = false) (label : StackLabel) :
    Beside g g' root p (conclude label (t.keepMain (t.main.perform t.world op))).tree
      (conclude label (u.keepMain (u.main.perform u.world op))).tree :=
  (((h.operate hd hd' op ho hs).1.note hd.calls _ _ _).symm.note hd'.calls _ _ _).symm

/-- The end of one of the nodes is delivered to the main stack in both trees, or in none. -/
theorem Beside.deliver (h : Beside g g' root p t u) {token : Progress} (hn : p token.node)
    (ok : Bool) :
    (t.deliver token ok = none ∧ u.deliver token ok = none) ∨
      ∃ o o', t.deliver token ok = some (.main, o) ∧ u.deliver token ok = some (.main, o') ∧
        Beside g g' root p o.tree o'.tree := by
  have hcurrent : t.world.isCurrent token = u.world.isCurrent token := by
    rw [World.isCurrent, World.isCurrent, h.same.world.progress? hn]
  rw [h.left.deliver_eq hd hn, h.right.deliver_eq hd' hn, hcurrent, ← h.same.main]
  split
  · have hop := (h.operate hd hd' (.receiveReturn ok) (fun _ hh => hh.elim) rfl).1
    rw [← h.same.main] at hop
    exact .inr ⟨_, _, rfl, rfl, hop⟩
  · exact .inl ⟨rfl, rfl⟩

/-- An end of one of the nodes is fired in both trees. -/
theorem Beside.fire (h : Beside g g' root p o.tree o'.tree) {task : DeferredTask}
    (hn : p task.progress.node) : Beside g g' root p (fire o task).tree (fire o' task).tree := by
  refine h.next hd hd' ⟨fire_evolves .., fire_reaches ..⟩ ⟨fire_evolves .., fire_reaches ..⟩ ?_
  have htrace : ∀ (x : Tree σ) label value, x.SameFor p
      { x with world := x.world.trace "bt.deferred.fire" label task.progress.node value } :=
    fun x _ _ => sameFor_world (.of_trace ..)
  unfold Tree.fire
  rcases h.deliver hd hd' hn task.success with ⟨ht, hu⟩ | ⟨a, b, ht, hu, hab⟩
  · simp only [ht, hu]
    exact h.of_both (htrace ..) (htrace ..)
  · simp only [ht, hu]
    exact hab.of_both ((htrace ..).trans (sameFor_note ..)) ((htrace ..).trans (sameFor_note ..))

/-- If the ends of other nodes are left out in one of the trees, nothing else becomes of it. -/
theorem Beside.fires_filter (tasks : List DeferredTask) (h : Beside g g' root p o.tree o'.tree) :
    Beside g g' root p (tasks.foldl Tree.fire o).tree
      ((tasks.filter (p ·.progress.node)).foldl Tree.fire o').tree := by
  induction tasks generalizing o o' with
  | nil => exact h
  | cons task rest ih =>
    rw [List.filter_cons]
    split
    · next hn => exact ih (h.fire hd hd' hn)
    · next hn =>
      have hf := h.left.fire hd task (by simpa using hn)
      exact ih (hf.symm.trans h)

theorem Beside.fires {tasks tasks' : List DeferredTask} (h : Beside g g' root p o.tree o'.tree)
    (ht : tasks.filter (p ·.progress.node) = tasks'.filter (p ·.progress.node)) :
    Beside g g' root p (tasks.foldl Tree.fire o).tree (tasks'.foldl Tree.fire o').tree := by
  have hl := h.fires_filter hd hd' tasks
  have hr := h.right.beside.fires_filter hd' hd' tasks'
  rw [ht] at hl
  exact hl.trans hr.symm

/-- The main stack is taken on in both trees. -/
theorem Beside.advanceMain (h : Beside g g' root p t u) (phase : Phase) :
    Beside g g' root p (t.advanceMain phase).settle.tree (u.advanceMain phase).settle.tree ∧
      (t.advanceMain phase).settle.fault = (u.advanceMain phase).settle.fault := by
  have hrest : Beside g g' root p (Outcome.mk t none).settle.tree (Outcome.mk u none).settle.tree ∧
      (Outcome.mk t none).settle.fault = (Outcome.mk u none).settle.fault := by
    simp only [Outcome.settle, settle_of_settled h.left.settled, settle_of_settled h.right.settled]
    exact ⟨h, trivial⟩
  have hrestarts : t.restartsAt phase = u.restartsAt phase := by
    simp only [restartsAt, h.same.config, h.same.endedAt, h.same.world.tick]
  have hop := h.operate hd hd'
  simp only [← h.same.main] at hop
  unfold Tree.advanceMain
  rw [← h.same.main, ← hrestarts, h.left.root, h.right.root]
  split
  · exact hrest
  · exact hrest
  · split
    · exact hop (.restart root) (fun _ hh => hh) rfl
    · exact hrest
  · split
    · exact hop .run (fun _ hh => hh.elim) rfl
    split
    · exact hop (.start root) (fun _ hh => hh) rfl
    · exact hrest
  · exact hop .run (fun _ hh => hh.elim) rfl
  · exact hop .run (fun _ hh => hh.elim) rfl
  · exact hop .resumeNextUpdate (fun _ hh => hh.elim) rfl

theorem Beside.driveMain (h : Beside g g' root p t u) (phase : Phase) :
    Beside g g' root p (t.driveMain phase).tree (u.driveMain phase).tree := by
  obtain ⟨ha, hf⟩ := h.advanceMain hd hd' phase
  unfold Tree.driveMain
  rw [← h.same.running, ← h.same.main]
  split
  · exact h
  generalize (t.advanceMain phase).settle = x at ha hf ⊢
  generalize (u.advanceMain phase).settle = y at ha hf ⊢
  obtain ⟨t', fault⟩ := x
  obtain ⟨u', fault'⟩ := y
  obtain rfl : fault = fault' := hf
  cases fault with
  | some e => exact ha
  | none => exact (ha.operate hd hd' (.forwardHook phase) (fun _ hh => hh.elim) rfl).1

/-- Every stack moves: the main stack in both trees, the services in each. -/
theorem Beside.driveAll (h : Beside g g' root p o.tree o'.tree) (phase : Phase) :
    Beside g g' root p (driveAll o phase).tree (driveAll o' phase).tree := by
  have hmain := h.driveMain hd hd' phase
  have hnoted := ((hmain.note hd.calls .main (o.tree.driveMain phase).fault o.fault).symm.note
    hd'.calls .main (o'.tree.driveMain phase).fault o'.fault).symm
  have hl := hnoted.left.driveServices hd phase
  have hr := hnoted.right.driveServices hd' phase
  exact ((hl _).symm.trans hnoted).trans (hr _)

/-! ## The calls -/

theorem Beside.runPhase (h : Beside g g' root p t u) (now : Tick)
    (hn : t.world.tick.number ≤ now.number) :
    Beside g g' root p (t.runPhase now).tree (u.runPhase now).tree := by
  obtain ⟨hdue, hworld⟩ := (h.same.world.setTick now).takeDue
  have hn' : u.world.tick.number ≤ now.number := h.same.world.tick ▸ hn
  have hat : Beside g g' root p (t.atPhase now) (u.atPhase now) :=
    h.next hd hd' ⟨atPhase_evolves t now, atPhase_reaches hn⟩
      ⟨atPhase_evolves u now, atPhase_reaches hn'⟩ { h.same with world := hworld }
  rw [runPhase_eq, runPhase_eq]
  have hbegin : Beside g g' root p (Outcome.mk (t.atPhase now) none).tree
    (Outcome.mk (u.atPhase now) none).tree := hat
  exact (hbegin.fires hd hd' hdue).driveAll hd hd' now.phase

theorem Beside.update (h : Beside g g' root p t u) (dt : Float32) :
    Beside g g' root p (t.update dt).tree (u.update dt).tree := by
  rw [Tree.update, Tree.update, ← h.same.world.tick]
  exact h.runPhase hd hd' _ (Nat.le_succ _)

theorem Beside.fixedUpdate (h : Beside g g' root p t u) (dt : Float32) :
    Beside g g' root p (t.fixedUpdate dt).tree (u.fixedUpdate dt).tree := by
  rw [Tree.fixedUpdate, Tree.fixedUpdate, ← h.same.world.tick]
  exact h.runPhase hd hd' _ (Nat.le_refl _)

theorem Beside.lateUpdate (h : Beside g g' root p t u) (dt : Float32) :
    Beside g g' root p (t.lateUpdate dt).tree (u.lateUpdate dt).tree := by
  rw [Tree.lateUpdate, Tree.lateUpdate, ← h.same.world.tick]
  exact h.runPhase hd hd' _ (Nat.le_refl _)

theorem Beside.tick (h : Beside g g' root p t u) (dt : Float32) :
    Beside g g' root p (t.tick dt).tree (u.tick dt).tree := by
  have hl := ((h.update hd hd' dt).fixedUpdate hd hd' dt).lateUpdate hd hd' dt
  simpa only [Tree.tick] using hl

theorem Beside.endAction_sameFor (h : Beside g g' root p t u) (token : Progress) (ok : Bool) :
    (t.endAction token ok).1.SameFor p (u.endAction token ok).1 := by
  cases hn : p token.node with
  | true =>
    rcases h.deliver hd hd' hn ok with ⟨ht, hu⟩ | ⟨o, o', ht, hu, ho⟩
    · simp only [endAction, ht, hu]
      exact h.same
    · rw [endAction_of_deliver ht, endAction_of_deliver hu, ho.left.conclude_eq,
        ho.right.conclude_eq]
      exact ho.of_both (sameFor_note ..) (sameFor_note ..)
  | false =>
    exact h.of_both (h.left.endAction_sameFor hd hn ok) (h.right.endAction_sameFor hd' hn ok)

theorem Beside.endNode_sameFor (h : Beside g g' root p t u) (node : NodeId) (ok : Bool) :
    (t.endNode node ok).1.SameFor p (u.endNode node ok).1 := by
  cases hn : p node with
  | true =>
    unfold endNode
    rw [h.same.world.progress? hn]
    split
    · exact h.same
    · exact h.endAction_sameFor hd hd' _ ok
  | false =>
    exact h.of_both (h.left.endNode_sameFor hd hn ok) (h.right.endNode_sameFor hd' hn ok)

theorem Beside.perform_sameFor (h : Beside g g' root p t u) (call : HostCall) :
    (t.perform call).SameFor p (u.perform call) := by
  cases call with
  | start =>
    have hbegin : Beside g g' root p { t with running := true, endedAt := none }
        { u with running := true, endedAt := none } :=
      h.next hd hd' ⟨.of_layout rfl, reaches_fields ..⟩ ⟨.of_layout rfl, reaches_fields ..⟩
        { h.same with running := rfl, endedAt := rfl }
    have hr := (hbegin.operated hd hd' (.restart root) (fun _ hh => hh) rfl .main).same
    simpa only [Tree.perform, Stack.perform, start, h.left.root, h.right.root] using hr
  | update dt => exact (h.update hd hd' dt).same
  | fixedUpdate dt => exact (h.fixedUpdate hd hd' dt).same
  | lateUpdate dt => exact (h.lateUpdate hd hd' dt).same
  | tick dt => exact (h.tick hd hd' dt).same
  | receiveReturn ok =>
    exact (h.operated hd hd' (.receiveReturn ok) (fun _ hh => hh.elim) rfl .main).same
  | breakMain stopAt =>
    exact (h.operated hd hd' (.breakTo stopAt) (fun _ hh => hh.elim) rfl .main).same
  | endAction token ok => exact h.endAction_sameFor hd hd' token ok
  | endNode node ok => exact h.endNode_sameFor hd hd' node ok
  | breakService service stopAt =>
    exact h.of_both (h.left.breakService_sameFor hd service stopAt)
      (h.right.breakService_sameFor hd' service stopAt)
  | pauseService service | resumeService service =>
    exact h.of_both (sameFor_onService ..) (sameFor_onService ..)
  | pause | resume =>
    exact { h.same with main := by simp only [perform, pause, resume, h.same.main] }
  | terminate =>
    have hbegin : Beside g g' root p { t with running := false } { u with running := false } :=
      h.next hd hd' ⟨.of_layout rfl, reaches_fields ..⟩ ⟨.of_layout rfl, reaches_fields ..⟩
        { h.same with running := rfl }
    simp only [perform, terminate_eq_ended h.left.sound h.left.orderly,
      terminate_eq_ended h.right.sound h.right.orderly]
    exact (hbegin.operate hd hd' .terminate (fun _ hh => hh.elim) rfl).1.same
  | withConfig config =>
    exact { h.same with config := rfl, main := congrArg (·.applyConfig config) h.same.main }
  | setVariables b => exact { h.same with world := h.same.world.setBlackboard b }

/-- Every call keeps it so. -/
theorem Beside.perform (h : Beside g g' root p t u) (call : HostCall) :
    Beside g g' root p (t.perform call) (u.perform call) :=
  h.next hd hd' ⟨perform_evolves t call, perform_reaches h.left.orderly call⟩
    ⟨perform_evolves u call, perform_reaches h.right.orderly call⟩ (h.perform_sameFor hd hd' call)

theorem Beside.performAll (h : Beside g g' root p t u) (calls : List HostCall) :
    Beside g g' root p (t.performAll calls) (u.performAll calls) := by
  induction calls generalizing t u with
  | nil => exact h
  | cons call rest ih => exact ih (h.perform hd hd' call)

end

end Tree

/-! ## Graphs with and without services -/

namespace Graph

/-- No node below a service, nor the service itself, changes a variable. -/
def ServicesLeaveVariables (g : Graph σ) : Prop :=
  ∀ owner s, s ∈ g.servicesOf owner → ∀ n, g.Under s n →
    ∀ slot, g.slot? n = some slot → Node.LeavesVariables slot.node

/-- Where no node lies under two heads, those under the root are apart from the services. -/
theorem Apart.divides (ha : g.Apart root) (hc : g.CallsChildren) (hq : g.ServicesLeaveVariables)
    (hp : ∀ n, p n ↔ g.Under root n) : g.Divides root p where
  calls := hc
  child n c hn hm := (hp c).2 (((hp n).1 hn).tail hm)
  root := (hp root).2 .refl
  hides owner s hs n hn := by
    refine ⟨Bool.eq_false_iff.2 fun hr => ?_, hq owner s hs n hn⟩
    have he : root = s := ha.head_unique root s n (.inl rfl) (.inr ⟨owner, hs⟩) ((hp n).1 hr) hn
    exact ha.root_free owner (he ▸ hs)

theorem Divides.alone (hd : g.Divides root p) : g.alone.Divides root p where
  calls := hd.calls.alone
  child n c hn hm := hd.child n c hn (by rwa [children_alone] at hm)
  root := hd.root
  hides owner s hs := by
    rw [servicesOf_alone] at hs
    cases hs

end Graph

namespace Tree

variable {t : Tree σ}

/-- Without its services a graph holds together as well, and the new trees are the same for all
nodes. -/
theorem beside_make {b : Blackboard} (hm : make g root b = .ok t) :
    ∃ u, make g.alone root b = .ok u ∧ Beside g g.alone root p t u := by
  have ht : t.AtRest g root := .make hm
  obtain ⟨hv, rfl⟩ := make_ok hm
  have hm' : make g.alone root b =
      .ok { root, world := { graph := g.alone, blackboard := b } } := by
    rw [make, Graph.validate_alone, hv]
  have hworld : World.SameFor p { graph := g, blackboard := b }
      { graph := g.alone, blackboard := b } := by
    refine ⟨fun id _ => ?_, rfl, rfl, rfl, rfl⟩
    simp only [Graph.slot?_alone, Option.map_map]
    rfl
  exact ⟨_, hm', ht, .make hm', ⟨rfl, rfl, rfl, rfl, rfl, rfl, rfl, hworld⟩⟩

/-- Services do not disturb the main stack. A graph in which every node has one place and its
parent, in which nodes call their children only and services leave the variables alone, is built
once more without attaching anything. Whatever the host then does to the tree, and whatever comes
of the services, the tree without them does the same: it has the same main stack and the same
variables, it has completed as many runs of the root, with the same outcome, and the nodes under
the root were called in the same way, in the same order. -/
theorem main_undisturbed {g g' : Graph σ} {root : NodeId} {b : Blackboard} {t : Tree σ}
    (hb : g.BuiltAlone g') (hm : make g root b = .ok t) (hs : g.SinglyPlaced root)
    (hc : g.CallsChildren) (hq : g.ServicesLeaveVariables) :
    ∃ u, make g' root b = .ok u ∧ ∀ calls : List HostCall,
      (t.performAll calls).main = (u.performAll calls).main ∧
      (t.performAll calls).world.blackboard = (u.performAll calls).world.blackboard ∧
      (t.performAll calls).completedRuns = (u.performAll calls).completedRuns ∧
      (t.performAll calls).lastResult = (u.performAll calls).lastResult ∧
      ∀ q : NodeId → Bool, (∀ n, q n → g.Under root n) →
        (t.performAll calls).world.recordsOf q = (u.performAll calls).world.recordsOf q := by
  classical
  obtain ⟨-, hf⟩ := Graph.faults_of_validate (make_ok hm).1
  have ha := hs.apart (hb.built.wired.parent_unique hf)
  have hd : g.Divides root fun n => decide (g.Under root n) :=
    ha.divides hc hq fun n => by simp
  obtain rfl := hb.eq_alone
  obtain ⟨u, hu, h⟩ := beside_make hm
  refine ⟨u, hu, fun calls => ?_⟩
  have hsame := (h.performAll hd hd.alone calls).same
  refine ⟨hsame.main, hsame.world.blackboard, hsame.completedRuns, hsame.lastResult, fun q hq => ?_⟩
  exact (hsame.world.mono fun n hn => by simpa using hq n hn).records

/-- The service under the root, but attached to no one. -/
def beaconBare : Graph BeaconNode where
  slots := #[
    { name := "body", node := .inr .idle, parent := some ⟨1⟩ },
    { name := "beacon", node := .inl (.parallel { subtree := ⟨0⟩ }) },
    { name := "root", node := .inr .idle }]

theorem builtAlone_beaconBare : beaconBeside.BuiltAlone beaconBare := by
  have hbody := Graph.BuiltAlone.empty.add "body" (.inr .idle : BeaconNode)
  have hbeacon := hbody.add "beacon" (.inl (.parallel { subtree := ⟨0⟩ }))
  have hroot := hbeacon.add "root" (.inr .idle)
  exact hroot.attach ⟨2⟩ ⟨1⟩ rfl

theorem servicesLeaveVariables_beaconBeside : beaconBeside.ServicesLeaveVariables := by
  intro owner s _ n _ slot hs
  have hm := Graph.mem_slots_of_slot? hs
  have hidle : Node.LeavesVariables (.inr .idle : BeaconNode) :=
    (LeafNode.leavesVariables nofun).inr
  simp only [beaconBeside, List.mem_cons, List.not_mem_nil, or_false] at hm
  rcases hm with rfl | rfl | rfl
  · exact hidle
  · exact (BackgroundNode.leavesVariables _).inl
  · exact hidle

/-- The service runs in one of the trees and not in the other, and the root waits in both. -/
theorem main_undisturbed_beaconBare :
    ∃ t u, make beaconBeside ⟨2⟩ {} = .ok t ∧ make beaconBare ⟨2⟩ {} = .ok u ∧
      (t.performAll [.start, .update 0]).services.map (·.stack.nodes) = [[⟨0⟩, ⟨1⟩]] ∧
      (u.performAll [.start, .update 0]).services.isEmpty ∧
      (t.performAll [.start, .update 0]).main = (u.performAll [.start, .update 0]).main ∧
      (t.performAll [.start, .update 0]).main.suspended? = some ⟨2⟩ := by
  obtain ⟨u, hu, h⟩ := main_undisturbed (b := {}) builtAlone_beaconBare
    (show make beaconBeside ⟨2⟩ {} = .ok _ from rfl) (by decide) callsChildren_beaconBeside
    servicesLeaveVariables_beaconBeside
  have hmain := (h [.start, .update 0]).1
  cases hu
  exact ⟨_, _, rfl, rfl, by decide +kernel, by decide +kernel, hmain, by decide +kernel⟩

end Tree

end BehaviorTree
