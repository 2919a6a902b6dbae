/-
Which nodes lie on which stack of a tree, and how that changes.

A layout is what is left of a tree if one forgets the fields of its stacks: the nodes of the
main stack, the registered services with the nodes of theirs, and the world. It changes by
moves: an act of one stack, or a step of settling. An event that is settled calls for
services or calls them off one by one, so in between there is a list of those still due.
-/
import BehaviorTree.Proofs.Stack.Act
import BehaviorTree.Tree.Settle

namespace BehaviorTree

variable {σ : Type}

/-- A registered service and the nodes of its stack, the top first. -/
structure Run where
  service : NodeId
  owner : NodeId
  nodes : List NodeId := []
deriving DecidableEq

/-- A service to be registered, or else to be torn down, since its owner came or went. -/
structure Due where
  owner : NodeId
  service : NodeId
  comes : Bool
deriving DecidableEq

structure Layout (σ : Type) where
  root : NodeId
  main : List NodeId
  runs : List Run
  world : World σ
  due : List Due := []

/-- What an event calls for. -/
def StackEvent.due (g : Graph σ) : StackEvent → List Due
  | .pushed n => (g.servicesOf n).map fun service => { owner := n, service, comes := true }
  | .popped n => (g.servicesOf n).map fun service => { owner := n, service, comes := false }
  | .ended .. => []

theorem StackEvent.due_attached {g : Graph σ} {e : StackEvent} {d : Due} (h : d ∈ e.due g) :
    d.service ∈ g.servicesOf d.owner := by
  cases e with
  | pushed n | popped n =>
    obtain ⟨s, hs, rfl⟩ := List.mem_map.1 h
    exact hs
  | ended => simp [StackEvent.due] at h

/-- Replace the nodes of one service. -/
def putNodes (service : NodeId) (nodes : List NodeId) (runs : List Run) : List Run :=
  runs.map fun run => if run.service = service then { run with nodes } else run

theorem map_service_putNodes (service : NodeId) (nodes : List NodeId) (runs : List Run) :
    (putNodes service nodes runs).map (·.service) = runs.map (·.service) := by
  rw [putNodes, List.map_map]
  refine List.map_congr_left fun run _ => ?_
  simp only [Function.comp_apply]
  split <;> rfl

theorem mem_putNodes {service : NodeId} {nodes : List NodeId} {runs : List Run} {run' : Run}
    (h : run' ∈ putNodes service nodes runs) :
    ∃ run ∈ runs, run'.service = run.service ∧ run'.owner = run.owner ∧
      (run.service = service ∧ run'.nodes = nodes ∨ run.service ≠ service ∧ run' = run) := by
  obtain ⟨run, hr, rfl⟩ := List.mem_map.1 h
  refine ⟨run, hr, ?_⟩
  split
  · next hs => exact ⟨rfl, rfl, .inl ⟨hs, rfl⟩⟩
  · next hs => exact ⟨rfl, rfl, .inr ⟨hs, rfl⟩⟩

theorem mem_putNodes_of_mem (service : NodeId) (nodes : List NodeId) {runs : List Run} {run : Run}
    (h : run ∈ runs) :
    (if run.service = service then { run with nodes } else run) ∈ putNodes service nodes runs :=
  List.mem_map_of_mem h

namespace Layout

variable {l l' : Layout σ}

def Registered (l : Layout σ) (service : NodeId) : Prop := ∃ run ∈ l.runs, run.service = service

/-- The node is on one of the stacks. -/
def Active (l : Layout σ) (n : NodeId) : Prop := n ∈ l.main ∨ ∃ run ∈ l.runs, n ∈ run.nodes

/-- The events that are not settled yet. -/
def queue (l : Layout σ) : List StackEvent := l.world.events.toList

variable [Node σ]

/-- One move. What a host does to the clock, the schedule and the variables, and what is
written into the records, is a move of the world alone. -/
inductive Move : Layout σ → Layout σ → Prop
  | world {l w} (hg : l.world.graph.Grown w.graph) (he : w.events = l.world.events)
      (hr : ∀ s, w.registrations s = l.world.registrations s) : Move l { l with world := w }
  | main {l label ns w} (h : Stack.Act label (· = l.root) (l.main, l.world) (ns, w)) :
      Move l { l with main := ns, world := w }
  | service {l label run ns w} (hr : run ∈ l.runs)
      (h : Stack.Act label (· = run.service) (run.nodes, l.world) (ns, w)) :
      Move l { l with runs := putNodes run.service ns l.runs, world := w }
  | take {l e events} (hd : l.due = []) (he : l.world.events.pop? = some (e, events)) :
      Move l { l with world := { l.world with events }, due := e.due l.world.graph }
  | register {l d due} (hd : l.due = d :: due) (hc : d.comes) (hr : ¬l.Registered d.service) :
      Move l
        { l with
          runs := l.runs ++ [{ service := d.service, owner := d.owner }]
          world := l.world.registered d.service
          due }
  | unregister {l d due run} (hd : l.due = d :: due) (hc : d.comes = false) (hr : run ∈ l.runs)
      (hs : run.service = d.service) (hn : run.nodes = []) :
      Move l
        { l with
          runs := l.runs.filter (·.service ≠ d.service)
          world := l.world.unregistered d.service
          due }
  | skip {l d due} (hd : l.due = d :: due) (hr : d.comes ↔ l.Registered d.service) :
      Move l { l with due }

/-- Any number of moves. -/
def Moves : Layout σ → Layout σ → Prop := Relation.ReflTransGen Move

/-! ## What every move keeps -/

theorem Move.root (h : Move l l') : l'.root = l.root := by cases h <;> rfl

theorem Move.graph (h : Move l l') : l.world.graph.Grown l'.world.graph := by
  cases h with
  | world hg _ _ => exact hg
  | main h => exact h.frame.graph
  | service _ h => exact h.frame.graph
  | take | skip => exact .refl _
  | register => exact World.registered_grown l.world _
  | unregister => exact World.unregistered_grown l.world _

theorem Moves.graph (h : Moves l l') : l.world.graph.Grown l'.world.graph := by
  induction h with
  | refl => exact .refl _
  | tail _ h ih => exact ih.trans h.graph

theorem Moves.root (h : Moves l l') : l'.root = l.root := by
  induction h with
  | refl => rfl
  | tail _ h ih => exact h.root.trans ih

end Layout

end BehaviorTree
