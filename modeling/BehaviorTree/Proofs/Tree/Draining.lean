/-
Draining the events of the stacks.

To settle is to take the events off the queue one by one until none is left, while the
handling of an event may put more of them at the end: a service that is torn down leaves its
nodes one by one, and each may own services that are torn down in their turn. `Drains` is
this loop as it goes, and never stops for an error. Wherever the nodes on the stacks are in
the graph it comes to its end, and the number of events that it takes is known beforehand:
the backlog less the nodes that the services still hold at the end, for the backlog stays
as it is while an event is handled and loses one with each event that is taken.
-/
import BehaviorTree.Proofs.Tree.Exclusive
import BehaviorTree.Proofs.Tree.Motions
import BehaviorTree.Proofs.Tree.Rounds

namespace BehaviorTree

variable {σ : Type} [Node σ]

/-- A stack that is ended leaves each of its nodes as one event. -/
theorem Stack.size_events_terminate_eq {s : Stack} {w : World σ}
    (h : ∀ n ∈ s.nodes, w.graph.contains n) :
    (s.terminate w).world.events.size = w.events.size + s.depth := by
  obtain ⟨w', hu⟩ := Stack.unwind_all s.label h
  have hsize := Stack.size_events_unwind s.label none s.nodes w
  simp only [hu, List.length_nil, Nat.add_zero] at hsize
  have hw : (s.terminate w).world.events = w'.events := by
    simp only [Stack.terminate, Stack.breakTo, Option.filter_none, hu]
    split <;> simp
  rw [hw, hsize, Stack.depth]

namespace Tree

variable {t t' : Tree σ}

/-- The stacks hold only nodes of the graph, and none of them twice. -/
structure Placed (t : Tree σ) : Prop where
  main : Stack.Placed (t.main.nodes, t.world)
  services : ∀ v ∈ t.services, Stack.Placed (v.stack.nodes, t.world)

omit [Node σ] in
theorem Sound.placed (h : t.Sound) : t.Placed :=
  ⟨h.main.placed, fun v hv => (h.services v hv).placed⟩

omit [Node σ] in
theorem Placed.known (h : t.Placed) :
    ∀ v ∈ t.services, ∀ n ∈ v.stack.nodes, t.world.graph.contains n :=
  fun v hv => (h.services v hv).2

/-- The nodes that the services hold on their stacks. -/
def held (t : Tree σ) : Nat := Service.total (·.stack.depth) t.services

/-- The loop that settles: the first event is taken off and handled without an error, with
what is then the world, until there is none. -/
inductive Drains : Tree σ → List StackEvent → Tree σ → Prop
  | done {t : Tree σ} (h : t.world.events.toList = []) : Drains t [] t
  | next {t t' : Tree σ} {e : StackEvent} {events : List StackEvent} {rest : Queue StackEvent}
      (h : t.world.events.pop? = some (e, rest))
      (hf : ({ t with world := { t.world with events := rest } }.handle e).fault = none)
      (hd : Drains ({ t with world := { t.world with events := rest } }.handle e).tree events t') :
      Drains t (e :: events) t'

/-- What settling comes to, when nothing that it does can fail. -/
structure Drained (t : Tree σ) : Prop where
  drains : ∃ events, t.Drains events t.settle.tree ∧
    events.length + t.settle.tree.held = t.backlog
  settled : t.settle.tree.world.events.toList = []
  fault : t.settle.fault = none
  /-- No service can fail to be torn down. -/
  teardown : ∀ v ∈ t.services, (v.stack.terminate t.world).fault = none
  /-- An error that was met before comes through. -/
  unmasked : ∀ fault, (Outcome.settle ⟨t, fault⟩).fault = fault
  placed : t.settle.tree.Placed

/-! ## One event -/

/-- Stacks that stay, and stacks that hold nothing, in a graph that keeps its nodes. -/
theorem Placed.grown (h : t.Placed) (hg : t.world.graph.Grown t'.world.graph)
    (hm : t'.main = t.main) (hs : ∀ v ∈ t'.services, v ∈ t.services ∨ v.stack.nodes = []) :
    t'.Placed := by
  have hk : ∀ n, t.world.graph.contains n → t'.world.graph.contains n := fun n hn => by
    rwa [hg.contains]
  refine ⟨⟨hm ▸ h.main.1, fun n hn => hk n (h.main.2 n (hm ▸ hn))⟩, fun v hv => ?_⟩
  rcases hs v hv with hv | hn
  · exact ⟨(h.services v hv).1, fun n hn => hk n ((h.services v hv).2 n hn)⟩
  · exact ⟨by simp [hn], by simp [hn]⟩

theorem Chore.placed (h : Chore t t') (ht : t.Placed) : t'.Placed := by
  cases h with
  | take _ => exact ht.grown (.refl _) rfl fun _ hv => .inl hv
  | @register owner s _ =>
    refine ht.grown (registerService_grown owner t s) ?_ fun v hv => ?_
    · unfold registerService
      split <;> rfl
    · unfold registerService at hv
      split at hv
      · exact .inl hv
      · rcases List.mem_append.1 hv with hv | hv
        · exact .inl hv
        · rw [List.mem_singleton.1 hv]
          exact .inr rfl
  | unregister owner s =>
    unfold unregisterService
    split
    · exact ht
    next v _ =>
    have hf := v.stack.perform_frame t.world .terminate
    exact ht.grown (hf.graph.trans (World.unregistered_grown _ s)) rfl fun v hv =>
      .inl (List.mem_of_mem_eraseP hv)
  | count _ => exact ht.grown (.refl _) rfl fun _ hv => .inl hv

theorem Chores.placed (h : Chores t t') (ht : t.Placed) : t'.Placed := by
  induction h with
  | refl => exact ht
  | tail _ h ih => exact h.placed ih

/-- Tearing a service down finds nothing broken, and puts all of its nodes on the queue. -/
theorem unregisterService_drains (ht : t.Placed) (owner s : NodeId) :
    (unregisterService owner ⟨t, none⟩ s).fault = none ∧
      (unregisterService owner ⟨t, none⟩ s).tree.backlog = t.backlog := by
  unfold unregisterService
  split
  · exact ⟨rfl, rfl⟩
  next v hv =>
  have hknown := ht.known v (service?_eq_some hv).1
  have hf := (Stack.terminate_eq hknown).1
  have hn := Service.total_eraseP (·.stack.depth) hv
  have hsize := Stack.size_events_terminate_eq hknown
  refine ⟨by simp [hf], ?_⟩
  simp only [backlog, World.events_trace, World.events_unregistered] at hn ⊢
  omega

theorem unregisterServices_drains (ht : t.Placed) (owner : NodeId) (services : List NodeId) :
    (services.foldl (unregisterService owner) ⟨t, none⟩).fault = none ∧
      (services.foldl (unregisterService owner) ⟨t, none⟩).tree.backlog = t.backlog := by
  induction services generalizing t with
  | nil => exact ⟨rfl, rfl⟩
  | cons s rest ih =>
    obtain ⟨hf, hb⟩ := unregisterService_drains ht owner s
    have hp := (Chore.unregister t owner s).placed ht
    rw [List.foldl_cons]
    generalize unregisterService owner ⟨t, none⟩ s = o at hf hb hp ⊢
    obtain ⟨t', fault⟩ := o
    cases hf
    obtain ⟨hf', hb'⟩ := ih hp
    exact ⟨hf', hb'.trans hb⟩

/-- Handling an event finds nothing broken and makes no more work than there was. -/
theorem handle_drains (ht : t.Placed) (e : StackEvent) :
    (t.handle e).fault = none ∧ (t.handle e).tree.backlog = t.backlog := by
  match e with
  | .pushed n => exact ⟨rfl, backlog_registerServices t n⟩
  | .popped n => exact unregisterServices_drains ht n _
  | .ended .main _ => exact ⟨rfl, rfl⟩
  | .ended (.service _) _ => exact ⟨rfl, rfl⟩

/-! ## All of them -/

theorem settleFrom_drains (first : Option StackError) (ht : t.Placed) :
    (t.settleFrom first).fault = first ∧ ∃ events, t.Drains events (t.settleFrom first).tree ∧
      events.length + (t.settleFrom first).tree.backlog = t.backlog := by
  induction first, t using settleFrom.induct with
  | case1 first t hp =>
    rw [settleFrom_of_none hp]
    exact ⟨rfl, [], .done (Queue.pop?_eq_none_iff.1 hp), by simp⟩
  | case2 first t e rest hp o ih =>
    have htake : Placed { t with world := { t.world with events := rest } } :=
      (Chore.take t hp).placed ht
    obtain ⟨hf, hb⟩ := handle_drains htake e
    have hfirst : first.or o.fault = first := by
      rw [show o.fault = none from hf, Option.or_none]
    obtain ⟨hfault, events, hd, hl⟩ := ih ((handle_chores _ e).placed htake)
    rw [settleFrom_of_some hp]
    refine ⟨hfault.trans hfirst, e :: events, .next hp hf hd, ?_⟩
    have hone : t.backlog = Tree.backlog { t with world := { t.world with events := rest } } + 1 := by
      simp only [backlog, Queue.size_of_pop? hp]
      omega
    rw [hone, ← hb, ← hl, List.length_cons, Nat.add_right_comm]

omit [Node σ] in
theorem backlog_of_settled (h : t.world.events.toList = []) : t.backlog = t.held := by
  rw [backlog, ← Queue.length_toList, h, List.length_nil, Nat.zero_add, held]

theorem Drains.settled {events : List StackEvent} (h : Drains t events t') :
    t'.world.events.toList = [] := by
  induction h with
  | done h => exact h
  | next _ _ _ ih => exact ih

theorem Placed.drained (ht : t.Placed) : t.Drained := by
  obtain ⟨hf, events, hd, hl⟩ := settleFrom_drains none ht
  rw [backlog_of_settled hd.settled] at hl
  refine ⟨⟨events, hd, hl⟩, hd.settled, hf, fun v hv => (Stack.terminate_eq (ht.known v hv)).1,
    fun fault => ?_, (settle_chores t).placed ht⟩
  · exact (congrArg fault.or hf).trans (Option.or_none ..)

/-- What an operation on a stack of the tree leaves is drained as well, and an error of the
operation is the error of the whole. -/
theorem Sound.unmasked (ht : t.Sound) (op : Stack.Operation) :
    (t.keepMain (t.main.perform t.world op)).settle.fault = (t.main.perform t.world op).fault ∧
      ∀ v ∈ t.services, (t.keepService (v.keep (v.stack.perform t.world op))).settle.fault
        = (v.stack.perform t.world op).fault := by
  refine ⟨(ht.keepMain op).placed.drained.unmasked _, fun v hv => ?_⟩
  have hmade := v.stack.perform_made t.world op
  have hs : (t.keepService (v.keep (v.stack.perform t.world op))).tree.Sound :=
    ht.putService hv rfl hmade.label (v.stack.perform_frame t.world op)
      ((ht.services v hv).perform op)
  exact hs.placed.drained.unmasked _

/-- Draining ends, never fails and is complete. In whatever tree has only nodes of the graph
on its stacks, none of them twice on one, and whatever is on the queue: settling takes the
events one by one, as many as there are on the queue and nodes that services lose, without
an error, until the queue is empty; an error that was met before is kept. After any calls
the tree is such a tree, its queue is empty, and settling hides no error of an operation. -/
theorem settle_drains :
    (∀ t : Tree σ, t.Placed → t.Drained) ∧
      ∀ (g : Graph σ) (root : NodeId) (b : Blackboard) (t : Tree σ), make g root b = .ok t →
        ∀ calls : List HostCall,
          (t.performAll calls).world.events.toList = [] ∧ (t.performAll calls).Placed ∧
            ∀ op : Stack.Operation,
              let u := t.performAll calls
              (u.keepMain (u.main.perform u.world op)).settle.fault
                  = (u.main.perform u.world op).fault ∧
                ∀ v ∈ u.services, (u.keepService (v.keep (v.stack.perform u.world op))).settle.fault
                  = (v.stack.perform u.world op).fault := by
  refine ⟨fun t ht => ht.drained, fun g root b t hm calls => ?_⟩
  have hs := performAll_settled (settled_make hm) calls
  exact ⟨hs.settled, hs.sound.placed, hs.sound.unmasked⟩

/-- The root leaves the main stack: one event is on the queue, and three are drained, for
the root's service holds two nodes. -/
theorem settle_drains_beaconBeside :
    ∃ t : Tree BeaconNode, make beaconBeside ⟨2⟩ {} = .ok t ∧
      let u := t.performAll [.start, .update 0]
      let p := u.main.perform u.world (.breakTo none)
      u.world.events.toList = [] ∧ (u.keepMain p).tree.Placed ∧ (u.keepMain p).tree.Drained ∧
        p.world.events.toList = [.popped ⟨2⟩] ∧
        ∃ events, (u.keepMain p).tree.Drains events (u.keepMain p).settle.tree ∧
          events.length = 3 := by
  refine ⟨_, rfl, ?_⟩
  intro u p
  have hu := settle_drains.2 beaconBeside ⟨2⟩ {} _ rfl [.start, .update 0]
  have hs : u.Settled := performAll_settled
    (settled_make (rfl : make beaconBeside ⟨2⟩ {} = .ok _)) [.start, .update 0]
  have hp : (u.keepMain p).tree.Placed := (hs.sound.keepMain _).placed
  have hd := settle_drains.1 _ hp
  obtain ⟨events, hdrains, hlength⟩ := hd.drains
  refine ⟨hu.1, hp, hd, by decide +kernel, events, hdrains, ?_⟩
  have hheld : (u.keepMain p).tree.settle.tree.held = 0 := by decide +kernel
  have hbacklog : (u.keepMain p).tree.backlog = 3 := by decide +kernel
  rwa [hheld, hbacklog] at hlength

end Tree

end BehaviorTree
