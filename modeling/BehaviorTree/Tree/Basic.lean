/-
A tree: a root, the main stack, the stacks of the registered services, and the world
that they share.
-/
import BehaviorTree.Service

namespace BehaviorTree

structure Tree (σ : Type) where
  root : NodeId
  config : Config := {}
  world : World σ
  main : Stack := { label := .main }
  /-- In the order in which they were registered. -/
  services : List Service := []
  /-- Whether the host has started the tree and not ended it. -/
  running : Bool := false
  /-- The tick at which the main stack last ended by itself. -/
  endedAt : Option Nat := none
  completedRuns : Nat := 0
  /-- The root's outcome in the last completed run. -/
  lastResult : Option Bool := none

/-- What an operation on a tree leaves: the tree, and the first rule that was found
broken, if any. -/
structure Outcome (σ : Type) where
  tree : Tree σ
  fault : Option StackError := none

namespace Tree

variable {σ : Type}

/-- A tree over a graph that holds together under `root`. -/
def make (graph : Graph σ) (root : NodeId) (blackboard : Blackboard) :
    Except TreeError (Tree σ) :=
  match graph.validate root with
  | .error e => .error (.graph e)
  | .ok () => .ok { root, world := { graph, blackboard } }

def service? (t : Tree σ) (service : NodeId) : Option Service :=
  t.services.find? (·.service = service)

def isRegistered (t : Tree σ) (service : NodeId) : Bool := (t.service? service).isSome

/-- Put a registered service's new state in the place of the old one. -/
def putService (t : Tree σ) (v : Service) : Tree σ :=
  { t with services := t.services.map fun old => if old.service = v.service then v else old }

def withConfig (t : Tree σ) (config : Config) : Tree σ :=
  { t with
    config
    main := t.main.applyConfig config
    services := t.services.map fun v => { v with stack := v.stack.applyConfig config } }

/-- Keep what a pass left of the main stack. -/
def keepMain (t : Tree σ) (p : Pass σ Stack) : Outcome σ :=
  ⟨{ t with main := p.after, world := p.world }, p.fault⟩

/-- Keep what a pass left of a service. -/
def keepService (t : Tree σ) (p : Pass σ Service) : Outcome σ :=
  ⟨{ t.putService p.after with world := p.world }, p.fault⟩

end Tree

end BehaviorTree
