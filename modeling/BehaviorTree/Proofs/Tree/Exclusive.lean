/-
Which nodes can be on which stack of a tree, and that none is on two.

The nodes of a stack lie under its head, and where no node lies under two heads
(`Graph.Apart`) the stacks have no node in common. Building a graph does not ensure that: it
accepts a service that is also somebody's child, and a root that is attached to a node.
-/
import BehaviorTree.Proofs.Library.Children
import BehaviorTree.Proofs.Stack.Path
import BehaviorTree.Proofs.Tree.Calls
import BehaviorTree.Library.Scripted

namespace BehaviorTree

variable {σ : Type} [Node σ] {g : Graph σ}

namespace Layout

variable {l l' : Layout σ}

/-- Each stack leads down from its head, by the children that the graph had at first. -/
structure Guided (g : Graph σ) (l : Layout σ) : Prop where
  grown : g.Grown l.world.graph
  main : Stack.Path g l.root l.main
  runs : ∀ run ∈ l.runs, Stack.Path g run.service run.nodes

theorem Guided.move (hc : g.CallsChildren) (h : Guided g l) (hm : Move l l') : Guided g l' := by
  have hg : g.Grown l'.world.graph := h.grown.trans hm.graph
  cases hm with
  | world | take | skip => exact ⟨hg, h.main, h.runs⟩
  | main ha => exact ⟨hg, ha.path hc h.grown h.main, h.runs⟩
  | @service label run ns w hr ha =>
    refine ⟨hg, h.main, fun r hr' => ?_⟩
    obtain ⟨old, ho, hs, -, ⟨he, hn⟩ | ⟨-, rfl⟩⟩ := mem_putNodes hr'
    · rw [hs, hn, he]
      exact ha.path hc h.grown (h.runs run hr)
    · exact h.runs r ho
  | register =>
    refine ⟨hg, h.main, fun r hr' => ?_⟩
    rcases List.mem_append.1 hr' with hr' | hr'
    · exact h.runs r hr'
    · rw [List.mem_singleton.1 hr']
      exact trivial
  | unregister => exact ⟨hg, h.main, fun r hr' => h.runs r (List.mem_filter.1 hr').1⟩

theorem Guided.moves (hc : g.CallsChildren) (h : Guided g l) (hm : Moves l l') :
    Guided g l' := by
  induction hm with
  | refl => exact h
  | tail _ hm ih => exact ih.move hc hm

/-- The services of a tree are heads of its graph. -/
theorem Guided.head_service (h : Guided g l) (ho : Orderly l) (root : NodeId) {run : Run}
    (hr : run ∈ l.runs) : g.Head root run.service := by
  have hs := ho.attached run hr
  rw [h.grown.servicesOf] at hs
  exact .inr ⟨run.owner, hs⟩

/-- A node of the main stack is on no service's stack. -/
theorem Guided.not_mem_run (h : Guided g l) (ho : Orderly l) (ha : g.Apart l.root) {n : NodeId}
    (hn : n ∈ l.main) {run : Run} (hr : run ∈ l.runs) : n ∉ run.nodes := by
  intro hn'
  have he : l.root = run.service :=
    ha.head_unique _ _ n (.inl rfl) (h.head_service ho l.root hr) (h.main.under n hn)
      ((h.runs run hr).under n hn')
  have hs := ho.attached run hr
  rw [h.grown.servicesOf, ← he] at hs
  exact ha.root_free run.owner hs

/-- A node is on one service's stack only. -/
theorem Guided.run_unique_of_mem (h : Guided g l) (ho : Orderly l) (ha : g.Apart l.root)
    {n : NodeId} {run run' : Run} (hr : run ∈ l.runs) (hr' : run' ∈ l.runs)
    (hn : n ∈ run.nodes) (hn' : n ∈ run'.nodes) : run = run' := by
  refine run_unique ho.nodup hr hr' ?_
  exact ha.head_unique _ _ n (h.head_service ho l.root hr) (h.head_service ho l.root hr')
    ((h.runs run hr).under n hn) ((h.runs run' hr').under n hn')

/-- All nodes on all stacks are distinct. -/
theorem Guided.nodup_nodes (h : Guided g l) (ho : Orderly l) (ha : g.Apart l.root) :
    (l.main ++ l.runs.flatMap (·.nodes)).Nodup := by
  refine List.nodup_append.2 ⟨ho.main.1, List.nodup_flatMap.2 ⟨fun run hr => (ho.runs run hr).1, ?_⟩,
    fun n hn m hm => ?_⟩
  · have hne : l.runs.Pairwise fun run run' => run.service ≠ run'.service :=
      List.pairwise_map.1 ho.nodup
    refine hne.imp_of_mem fun {run run'} hr hr' hs n hn hn' => hs ?_
    rw [h.run_unique_of_mem ho ha hr hr' hn hn']
  · obtain ⟨run, hr, hm⟩ := List.mem_flatMap.1 hm
    rintro rfl
    exact h.not_mem_run ho ha hn hr hm

end Layout

namespace Tree

/-- Make calls one after another. -/
def performAll (t : Tree σ) (calls : List HostCall) : Tree σ := calls.foldl perform t

omit [Node σ] in
/-- A new tree has nothing on its stacks, and nothing to settle. -/
theorem make_ok {root : NodeId} {b : Blackboard} {t : Tree σ} (h : make g root b = .ok t) :
    g.validate root = .ok () ∧ t = { root, world := { graph := g, blackboard := b } } := by
  unfold make at h
  split at h
  · cases h
  · next hv =>
    cases h
    exact ⟨hv, rfl⟩

omit [Node σ] in
theorem orderly_make {root : NodeId} {b : Blackboard} {t : Tree σ} (h : make g root b = .ok t) :
    t.layout.Orderly ∧ t.layout.queue = [] := by
  obtain ⟨-, rfl⟩ := make_ok h
  refine ⟨⟨⟨List.nodup_nil, by simp [layout]⟩, by simp [layout], by simp [layout],
    by simp [layout], by simp [layout], by simp [layout], trivial, by simp [layout]⟩, rfl⟩

theorem guided_make {root : NodeId} {b : Blackboard} {t : Tree σ} (h : make g root b = .ok t) :
    t.layout.Guided g ∧ t.layout.root = root := by
  obtain ⟨-, rfl⟩ := make_ok h
  exact ⟨⟨.refl g, trivial, by simp [layout]⟩, rfl⟩

omit [Node σ] in
theorem active_layout_iff {t : Tree σ} (n : NodeId) :
    t.layout.Active n ↔ n ∈ t.main.nodes ∨ ∃ v ∈ t.services, n ∈ v.stack.nodes := by
  simp [Layout.Active, layout, Service.run]

/-- Any sequence of calls is made of moves. -/
theorem performAll_evolves (t : Tree σ) (calls : List HostCall) :
    t.Evolves (t.performAll calls) := by
  induction calls generalizing t with
  | nil => exact .refl t
  | cons call rest ih => exact (perform_evolves t call).trans (ih (t.perform call))

/-- Where every tree comes to: its layout is orderly and settled, and its stacks lead down
from their heads. -/
theorem performAll_guided {root : NodeId} {b : Blackboard} {t : Tree σ}
    (hm : make g root b = .ok t) (hc : g.CallsChildren) (calls : List HostCall) :
    (t.performAll calls).layout.Orderly ∧ (t.performAll calls).layout.queue = [] ∧
      (t.performAll calls).layout.Guided g ∧ (t.performAll calls).root = root := by
  obtain ⟨ho, hq⟩ := orderly_make hm
  obtain ⟨hg, hr⟩ := guided_make hm
  obtain ⟨hmoves, hq'⟩ := (performAll_evolves t calls).step ho hq
  exact ⟨ho.moves hmoves, hq', hg.moves hc hmoves, hmoves.root.trans hr⟩

/-- If no node lies under two heads and the root is no service, no node is ever on two
stacks of the tree, nor twice on one. -/
theorem nodes_nodup_of_apart {root : NodeId} {b : Blackboard} {t : Tree σ}
    (hm : make g root b = .ok t) (hc : g.CallsChildren) (ha : g.Apart root)
    (calls : List HostCall) :
    ((t.performAll calls).main.nodes
      ++ (t.performAll calls).services.flatMap (·.stack.nodes)).Nodup := by
  obtain ⟨ho, -, hg, hr⟩ := performAll_guided hm hc calls
  have ha' : g.Apart (t.performAll calls).layout.root := by
    rw [show (t.performAll calls).layout.root = root from hr]
    exact ha
  have h := hg.nodup_nodes ho ha'
  rwa [show (t.performAll calls).layout.runs.flatMap (·.nodes)
    = (t.performAll calls).services.flatMap (·.stack.nodes) from List.flatMap_map ..] at h

/-! ## Graphs with a service -/

section Beacons

/-- Services and leaves that wait. -/
abbrev BeaconNode := BackgroundNode ⊕ LeafNode Question Plays

/-- A service runs under the root, and its owner waits. -/
def beaconBeside : Graph BeaconNode where
  slots := #[
    { name := "body", node := .inr .idle, parent := some ⟨1⟩ },
    { name := "beacon", node := .inl (.parallel { subtree := ⟨0⟩ }), owner := some ⟨2⟩ },
    { name := "root", node := .inr .idle, services := [⟨1⟩] }]

/-- A service is a child of its owner as well. -/
def beaconBelow : Graph BeaconNode where
  slots := #[
    { name := "body", node := .inr .idle, parent := some ⟨1⟩ },
    { name := "beacon", node := .inl (.parallel { subtree := ⟨0⟩ }), parent := some ⟨2⟩,
      owner := some ⟨2⟩ },
    { name := "root", node := .inl (.parallel { subtree := ⟨1⟩ }), services := [⟨1⟩] }]

/-- The root is a service of its own. -/
def beaconRoot : Graph BeaconNode where
  slots := #[
    { name := "body", node := .inr .idle, parent := some ⟨1⟩ },
    { name := "root", node := .inl (.parallel { subtree := ⟨0⟩ }), owner := some ⟨1⟩,
      services := [⟨1⟩] }]

theorem built_beaconBeside : beaconBeside.Built :=
  .attach (.add (.add (.add .empty "body" (.inr .idle)) "beacon"
    (.inl (.parallel { subtree := ⟨0⟩ }))) "root" (.inr .idle)) ⟨2⟩ ⟨1⟩ rfl

theorem built_beaconBelow : beaconBelow.Built :=
  .attach (.add (.add (.add .empty "body" (.inr .idle)) "beacon"
    (.inl (.parallel { subtree := ⟨0⟩ }))) "root" (.inl (.parallel { subtree := ⟨1⟩ })))
    ⟨2⟩ ⟨1⟩ rfl

theorem built_beaconRoot : beaconRoot.Built :=
  .attach (.add (.add .empty "body" (.inr .idle)) "root"
    (.inl (.parallel { subtree := ⟨0⟩ }))) ⟨1⟩ ⟨1⟩ rfl

theorem BeaconNode.callsOnly {x : BeaconNode} (h : ∀ n, x = .inr n → n = .idle) :
    Node.CallsOnly (Node.children x) x := by
  cases x with
  | inl n => exact n.callsOnly.inl
  | inr n =>
    cases h n rfl
    exact LeafNode.callsOnly_idle.inr

theorem callsChildren_beaconBeside : beaconBeside.CallsChildren :=
  Graph.callsChildren_of_forall fun s hs => BeaconNode.callsOnly <| by
    simp only [beaconBeside, List.mem_cons, List.not_mem_nil, or_false] at hs
    rcases hs with rfl | rfl | rfl <;> simp

theorem callsChildren_beaconBelow : beaconBelow.CallsChildren :=
  Graph.callsChildren_of_forall fun s hs => BeaconNode.callsOnly <| by
    simp only [beaconBelow, List.mem_cons, List.not_mem_nil, or_false] at hs
    rcases hs with rfl | rfl | rfl <;> simp

theorem callsChildren_beaconRoot : beaconRoot.CallsChildren :=
  Graph.callsChildren_of_forall fun s hs => BeaconNode.callsOnly <| by
    simp only [beaconRoot, List.mem_cons, List.not_mem_nil, or_false] at hs
    rcases hs with rfl | rfl <;> simp

theorem apart_beaconBeside : beaconBeside.Apart ⟨2⟩ :=
  Graph.SinglyPlaced.apart (by decide) (built_beaconBeside.wired.parent_unique rfl)

/-- The service runs on its own stack while its owner waits on the main stack. -/
theorem nodes_nodup_beaconBeside :
    ∃ t, make beaconBeside ⟨2⟩ {} = .ok t ∧
      (t.performAll [.start, .update 0]).main.nodes = [⟨2⟩] ∧
      (t.performAll [.start, .update 0]).services.flatMap (·.stack.nodes) = [⟨0⟩, ⟨1⟩] ∧
      ((t.performAll [.start, .update 0]).main.nodes
        ++ (t.performAll [.start, .update 0]).services.flatMap (·.stack.nodes)).Nodup :=
  ⟨_, rfl, by decide +kernel, by decide +kernel,
    nodes_nodup_of_apart (b := {}) rfl callsChildren_beaconBeside apart_beaconBeside _⟩

/-- A service that is also a child of its owner, and a root that is its own service, are
built and accepted; then the service starts a second time what is active already. -/
theorem nodes_not_nodup_of_shared :
    (beaconBelow.Built ∧ beaconBelow.CallsChildren ∧ ∃ t, make beaconBelow ⟨2⟩ {} = .ok t ∧
      ¬((t.performAll [.start, .update 0]).main.nodes
        ++ (t.performAll [.start, .update 0]).services.flatMap (·.stack.nodes)).Nodup) ∧
    (beaconRoot.Built ∧ beaconRoot.CallsChildren ∧ ∃ t, make beaconRoot ⟨1⟩ {} = .ok t ∧
      ¬((t.performAll [.start, .update 0]).main.nodes
        ++ (t.performAll [.start, .update 0]).services.flatMap (·.stack.nodes)).Nodup) :=
  ⟨⟨built_beaconBelow, callsChildren_beaconBelow, _, rfl, by decide +kernel⟩,
    ⟨built_beaconRoot, callsChildren_beaconRoot, _, rfl, by decide +kernel⟩⟩

end Beacons

end Tree

end BehaviorTree
