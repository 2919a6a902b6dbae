/-
Operations on a tree are made of moves, and settling always comes to its end.

An operation that works on one stack changes the layout by acts of that stack; settling
what it did takes up the events one by one. Tearing a service down never meets a broken
rule, for the nodes on its stack are in the graph, and an event is settled only when all
that it calls for is done.
-/
import BehaviorTree.Proofs.Stack.Sound
import BehaviorTree.Proofs.Tree.Orderly
import BehaviorTree.Tree.Host

namespace BehaviorTree

variable {σ : Type}

/-- What a service lays out. -/
def Service.run (v : Service) : Run where
  service := v.service
  owner := v.owner
  nodes := v.stack.nodes

/-- What a tree lays out. -/
def Tree.layout (t : Tree σ) : Layout σ where
  root := t.root
  main := t.main.nodes
  runs := t.services.map Service.run
  world := t.world

variable [Node σ]

/-! ## Acts of one stack -/

namespace Layout

variable {l : Layout σ} {label : StackLabel} {ns : List NodeId} {w : World σ}

theorem moves_main (h : Stack.Acts label (· = l.root) (l.main, l.world) (ns, w)) :
    Moves l { l with main := ns, world := w } := by
  generalize hx : (l.main, l.world) = x at h
  generalize hy : (ns, w) = y at h
  induction h generalizing ns w with
  | refl =>
    cases hx
    cases hy
    exact .refl
  | @tail y z _ ha ih =>
    cases hy
    exact (ih rfl).tail (.main ha)

omit [Node σ] in
theorem putNodes_self {run : Run} (hn : (l.runs.map (·.service)).Nodup) (hr : run ∈ l.runs) :
    putNodes run.service run.nodes l.runs = l.runs := by
  refine (List.map_congr_left fun r hr' => ?_).trans (List.map_id l.runs)
  split
  · next hs => cases run_unique hn hr' hr hs; rfl
  · rfl

omit [Node σ] in
theorem putNodes_putNodes (service : NodeId) (ns ns' : List NodeId) (runs : List Run) :
    putNodes service ns' (putNodes service ns runs) = putNodes service ns' runs := by
  unfold putNodes
  rw [List.map_map]
  refine List.map_congr_left fun r _ => ?_
  by_cases hs : r.service = service <;> simp [hs]

theorem moves_service {run : Run} (hn : (l.runs.map (·.service)).Nodup) (hr : run ∈ l.runs)
    (h : Stack.Acts label (· = run.service) (run.nodes, l.world) (ns, w)) :
    Moves l { l with runs := putNodes run.service ns l.runs, world := w } := by
  generalize hx : (run.nodes, l.world) = x at h
  generalize hy : (ns, w) = y at h
  induction h generalizing ns w with
  | refl =>
    cases hx
    cases hy
    rw [putNodes_self hn hr]
    exact .refl
  | @tail y z _ ha ih =>
    cases hy
    have hm := mem_putNodes_of_mem run.service y.1 hr
    rw [if_pos rfl] at hm
    have hmove := Move.service (l := { l with runs := putNodes run.service y.1 l.runs, world := y.2 })
      hm ha
    simp only [putNodes_putNodes] at hmove
    exact (ih rfl).tail hmove

end Layout

/-! ## Services -/

/-- The pass was made by acts of the service's own stack. -/
structure Service.Made (v : Service) (w : World σ) (p : Pass σ Service) : Prop where
  service : p.after.service = v.service
  owner : p.after.owner = v.owner
  stack : Stack.Made (· = v.service) v.stack w (p.map (·.stack))

namespace Service

variable {v : Service} {w : World σ}

theorem Made.refl (v : Service) (w : World σ) : v.Made w ⟨v, w, none⟩ :=
  ⟨rfl, rfl, .refl rfl rfl⟩

theorem Made.keep {p : Pass σ Stack} (h : Stack.Made (· = v.service) v.stack w p) :
    v.Made w (v.keep p) :=
  ⟨rfl, rfl, h⟩

theorem Made.trans {p q : Pass σ Service} (h : v.Made w p) (h' : p.after.Made p.world q) :
    v.Made w q :=
  ⟨h'.service.trans h.service, h'.owner.trans h.owner, h.stack.trans (h.service ▸ h'.stack)⟩

theorem tryStart_made (v : Service) (w : World σ) : v.Made w (v.tryStart w) := by
  unfold tryStart
  split
  · exact .refl v w
  have ha : Stack.Made (· = v.service) v.stack w ⟨v.stack, (w.ready v.service).1, none⟩ :=
    .single rfl (.ask rfl)
  split
  · next hw => rw [hw] at ha; exact ⟨rfl, rfl, ha⟩
  · next w' hw =>
    rw [hw] at ha
    have ht : Stack.Made (· = v.service) v.stack w' ⟨v.stack,
        w'.trace "bt.service.start" v.label v.service ((v.runs + 1 : Nat) : Int), none⟩ :=
      .single rfl (.trace (by decide) ..)
    exact ⟨rfl, rfl, ha.trans (ht.trans (Stack.restart_made ..))⟩

theorem preempt_made (v : Service) (w : World σ) : v.Made w (v.preempt w) := by
  have ht : Stack.Made (· = v.service) v.stack w ⟨v.stack,
      w.trace "bt.service.preempt" v.label v.service v.stack.depth, none⟩ :=
    .single rfl (.trace (by decide) ..)
  have hb : v.Made w (v.keep (v.stack.breakTo
      (w.trace "bt.service.preempt" v.label v.service v.stack.depth) none)) :=
    .keep (ht.trans (Stack.breakTo_made ..))
  unfold preempt
  simp only
  split
  · next hk => rw [hk] at hb; exact hb
  · next hk => rw [hk] at hb; exact hb.trans (tryStart_made ..)

theorem isPreempted_made (v : Service) (w : World σ) : v.Made w ⟨v, (v.isPreempted w).1, none⟩ := by
  unfold isPreempted
  split
  · exact ⟨rfl, rfl, .single rfl (.ask rfl)⟩
  · exact .refl v w

theorem advance_made (v : Service) (w : World σ) : v.Made w (v.advance w) := by
  have hp := isPreempted_made v w
  unfold advance
  split
  · exact .refl v w
  split
  · next hi => rw [hi] at hp; exact hp.trans (preempt_made ..)
  next hi =>
  rw [hi] at hp
  split
  · exact hp
  · exact hp
  · exact hp.trans (.keep (Stack.resumeNextUpdate_made ..))
  · exact hp.trans (tryStart_made ..)
  · split
    · exact hp.trans (tryStart_made ..)
    · exact hp.trans (.keep (Stack.run_made ..))
  · exact hp.trans (.keep (Stack.run_made ..))
  · exact hp.trans (.keep (Stack.run_made ..))

end Service

namespace Tree

variable {t : Tree σ}

/-! ## Operations on one stack -/

theorem keepMain_moves {p : Pass σ Stack} (h : Stack.Made (· = t.root) t.main t.world p) :
    t.layout.Moves (t.keepMain p).tree.layout :=
  Layout.moves_main h.acts

omit [Node σ] in
theorem mem_runs {v : Service} (h : v ∈ t.services) : v.run ∈ t.layout.runs :=
  List.mem_map_of_mem h

omit [Node σ] in
theorem runs_putService {v v' : Service} (hn : (t.layout.runs.map (·.service)).Nodup)
    (hv : v ∈ t.services) (hs : v'.service = v.service) (ho : v'.owner = v.owner) :
    (t.putService v').layout.runs = putNodes v.service v'.stack.nodes t.layout.runs := by
  unfold layout putService putNodes
  simp only [List.map_map]
  refine List.map_congr_left fun old hold => ?_
  by_cases h : old.service = v.service
  · have hr : old.run = v.run := Layout.run_unique hn (mem_runs hold) (mem_runs hv) h
    have hown : old.owner = v.owner := congrArg Run.owner hr
    simp [Service.run, h, hs, ho, hown]
  · simp [Service.run, h, hs]

theorem keepService_moves {v : Service} {p : Pass σ Service} (ho : t.layout.Orderly)
    (hv : v ∈ t.services) (h : v.Made t.world p) :
    t.layout.Moves (t.keepService p).tree.layout := by
  have hm := Layout.moves_service ho.nodup (mem_runs hv) h.stack.acts
  have he := runs_putService ho.nodup hv h.service h.owner
  unfold keepService layout
  unfold layout at he
  simp only at he ⊢
  rw [he]
  exact hm

omit [Node σ] in
theorem service?_eq_some {s : NodeId} {v : Service} (h : t.service? s = some v) :
    v ∈ t.services ∧ v.service = s :=
  ⟨List.mem_of_find?_eq_some h, by simpa using List.find?_some h⟩

omit [Node σ] in
theorem isRegistered_iff (s : NodeId) : t.isRegistered s ↔ t.layout.Registered s := by
  simp [isRegistered, service?, Layout.Registered, layout, Service.run]

/-! ## Settling -/

theorem registerService_moves (owner : NodeId) (t : Tree σ) (s : NodeId) (due : List Due) :
    Layout.Moves { t.layout with due := { owner, service := s, comes := true } :: due }
      { (registerService owner t s).layout with due } := by
  have hr := isRegistered_iff (t := t) s
  unfold registerService
  split
  · next h => exact .single (.skip rfl ⟨fun _ => hr.1 h, fun _ => rfl⟩)
  · next h =>
    have hreg : ¬t.layout.Registered s := fun hs => h (hr.2 hs)
    refine .tail (.single (.register rfl rfl hreg)) ?_
    have hl : ({ t with
        world := (t.world.registered s).trace "bt.service.register" (.service s) owner 0
        services := t.services ++ [Service.make s owner t.config] } : Tree σ).layout.runs
          = t.layout.runs ++ [{ service := s, owner }] := by
      simp [layout, Service.run, Service.make, Stack.applyConfig]
    unfold layout at hl ⊢
    simp only at hl ⊢
    rw [hl]
    exact .world (.refl _) rfl fun _ => (World.Keeps.trace ..).registrations _

theorem registerServices_moves (owner : NodeId) (services : List NodeId) (t : Tree σ) :
    Layout.Moves { t.layout with due := services.map fun s => { owner, service := s, comes := true } }
      (services.foldl (registerService owner) t).layout := by
  induction services generalizing t with
  | nil => exact .refl
  | cons s rest ih => exact (registerService_moves owner t s _).trans (ih _)

omit [Node σ] in
/-- To take one service out is to leave those with another id. -/
theorem runs_eraseP {services : List Service} (hn : (services.map (·.service)).Nodup)
    (s : NodeId) (ns : List NodeId) :
    (services.eraseP (·.service = s)).map Service.run
      = (putNodes s ns (services.map Service.run)).filter (·.service ≠ s) := by
  induction services with
  | nil => rfl
  | cons v rest ih =>
    obtain ⟨hv, hn⟩ := List.nodup_cons.1 hn
    by_cases h : v.service = s
    · have hrest : ∀ r ∈ rest.map Service.run, r.service ≠ s := by
        intro r hr he
        obtain ⟨u, hu, rfl⟩ := List.mem_map.1 hr
        exact hv (List.mem_map.2 ⟨u, hu, he.trans h.symm⟩)
      have hput : putNodes s ns (rest.map Service.run) = rest.map Service.run := by
        refine (List.map_congr_left fun r hr => ?_).trans (List.map_id _)
        rw [if_neg (hrest r hr)]
        rfl
      rw [List.eraseP_cons_of_pos (by simpa using h)]
      have hfilter : (rest.map Service.run).filter (·.service ≠ s) = rest.map Service.run :=
        List.filter_eq_self.2 fun r hr => by simpa using hrest r hr
      have hcons : putNodes s ns ((v :: rest).map Service.run)
          = { v.run with nodes := ns } :: putNodes s ns (rest.map Service.run) := by
        simp [putNodes, Service.run, h]
      rw [hcons, hput, List.filter_cons_of_neg (by simp [Service.run, h]), hfilter]
    · have hcons : putNodes s ns ((v :: rest).map Service.run)
          = v.run :: putNodes s ns (rest.map Service.run) := by
        simp [putNodes, Service.run, h]
      rw [List.eraseP_cons_of_neg (by simpa using h), hcons,
        List.filter_cons_of_pos (by simp [Service.run, h]), List.map_cons, ih hn]

theorem unregisterService_moves {owner s : NodeId} {due : List Due} {o : Outcome σ}
    (h : Layout.Orderly
      { o.tree.layout with due := { owner, service := s, comes := false } :: due })
    (hf : o.fault = none) :
    Layout.Moves { o.tree.layout with due := { owner, service := s, comes := false } :: due }
        { (unregisterService owner o s).tree.layout with due } ∧
      (unregisterService owner o s).fault = none := by
  unfold unregisterService
  split
  · next hs =>
    refine ⟨.single (.skip rfl ?_), hf⟩
    have hr : ¬o.tree.layout.Registered s := fun hr => by
      simpa [isRegistered, hs] using (isRegistered_iff s).2 hr
    exact ⟨fun hc => absurd hc Bool.false_ne_true, fun h => absurd h hr⟩
  next v hs =>
  obtain ⟨hv, rfl⟩ := service?_eq_some hs
  have hrun : v.run ∈ o.tree.layout.runs := mem_runs hv
  have hm : Stack.Made (· = v.service) v.stack o.tree.world (v.stack.terminate o.tree.world) :=
    Stack.terminate_made ..
  have hknown : ∀ n ∈ v.stack.nodes, o.tree.world.graph.contains n := (h.runs v.run hrun).2
  obtain ⟨hnf, hnil⟩ := Stack.terminate_eq hknown
  generalize v.stack.terminate o.tree.world = p at hm hnf hnil
  refine ⟨?_, by simp [hf, hnf]⟩
  have hmoves := Layout.moves_service h.nodup hrun hm.acts
  have hmem := mem_putNodes_of_mem v.run.service p.after.nodes hrun
  rw [if_pos rfl] at hmem
  refine hmoves.trans (.tail (.single (.unregister rfl rfl hmem rfl hnil)) ?_)
  have hn : (o.tree.services.map (·.service)).Nodup := by
    have hn := h.nodup
    simpa [layout, Function.comp_def, Service.run] using hn
  have hl := runs_eraseP hn v.service p.after.nodes
  unfold layout
  simp only
  rw [hl]
  exact .world (.refl _) rfl fun _ => (World.Keeps.trace ..).registrations _

theorem unregisterServices_moves {owner : NodeId} (services : List NodeId) {o : Outcome σ}
    (h : Layout.Orderly { o.tree.layout with
      due := services.map fun s => { owner, service := s, comes := false } })
    (hf : o.fault = none) :
    Layout.Moves { o.tree.layout with
        due := services.map fun s => { owner, service := s, comes := false } }
      (services.foldl (unregisterService owner) o).tree.layout ∧
      (services.foldl (unregisterService owner) o).fault = none := by
  induction services generalizing o with
  | nil => exact ⟨.refl, hf⟩
  | cons s rest ih =>
    obtain ⟨hm, hf'⟩ := unregisterService_moves h hf
    obtain ⟨hm', hf''⟩ := ih (h.moves hm) hf'
    exact ⟨hm.trans hm', hf''⟩

/-- What is due for an event is done when the event is settled, and no rule is broken. -/
theorem handle_moves (e : StackEvent)
    (h : Layout.Orderly { t.layout with due := e.due t.world.graph }) :
    Layout.Moves { t.layout with due := e.due t.world.graph } (t.handle e).tree.layout ∧
      (t.handle e).fault = none := by
  match e with
  | .pushed n => exact ⟨registerServices_moves n _ t, rfl⟩
  | .popped n => exact unregisterServices_moves _ (o := ⟨t, none⟩) h rfl
  | .ended .main _ => exact ⟨.refl, rfl⟩
  | .ended (.service _) _ => exact ⟨.refl, rfl⟩

/-- With nothing to be settled, settling is done. -/
theorem settleFrom_of_none (h : t.world.events.pop? = none) (first : Option StackError) :
    t.settleFrom first = ⟨t, first⟩ := by
  rw [settleFrom]
  split
  · rfl
  · next hp => rw [h] at hp; cases hp

/-- An event is taken out and handled, and settling goes on. -/
theorem settleFrom_of_some {e : StackEvent} {rest : Queue StackEvent}
    (h : t.world.events.pop? = some (e, rest)) (first : Option StackError) :
    t.settleFrom first =
      (({ t with world := { t.world with events := rest } }.handle e).tree.settleFrom
        (first.or ({ t with world := { t.world with events := rest } }.handle e).fault)) := by
  rw [settleFrom]
  split
  · next hp => rw [h] at hp; cases hp
  · next hp =>
    rw [h] at hp
    cases hp
    rfl

theorem settleFrom_moves (first : Option StackError) (t : Tree σ) (h : t.layout.Orderly) :
    t.layout.Moves (t.settleFrom first).tree.layout ∧
      (t.settleFrom first).tree.layout.queue = [] ∧ (t.settleFrom first).fault = first := by
  induction first, t using settleFrom.induct with
  | case1 first t hp =>
    rw [settleFrom_of_none hp]
    exact ⟨.refl, Queue.pop?_eq_none_iff.1 hp, rfl⟩
  | case2 first t e rest hp o ih =>
    have ht : Layout.Move t.layout _ := .take rfl hp
    obtain ⟨hm, hf⟩ := handle_moves (t := { t with world := { t.world with events := rest } }) e
      (h.move ht)
    have ho := (h.move ht).moves hm
    have hfirst : first.or o.fault = first := by
      rw [show o.fault = none from hf, Option.or_none]
    obtain ⟨hm', hq, hf'⟩ := ih ho
    rw [hfirst] at hm' hq hf'
    rw [settleFrom_of_some hp]
    show t.layout.Moves (o.tree.settleFrom (first.or o.fault)).tree.layout ∧
      (o.tree.settleFrom (first.or o.fault)).tree.layout.queue = [] ∧
      (o.tree.settleFrom (first.or o.fault)).fault = first
    rw [hfirst]
    exact ⟨(Relation.ReflTransGen.single ht).trans (hm.trans hm'), hq, hf'⟩

/-- Settling leaves nothing to be settled, and it never finds a rule broken. -/
theorem settle_moves (h : t.layout.Orderly) :
    t.layout.Moves t.settle.tree.layout ∧ t.settle.tree.layout.queue = [] ∧
      t.settle.fault = none :=
  settleFrom_moves none t h

end Tree

end BehaviorTree
