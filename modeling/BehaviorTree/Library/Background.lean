/-
Services of the library: one that runs its subtree once, and one that runs it again
and again.
-/
import BehaviorTree.Node.Contract

namespace BehaviorTree

/-- Runs its subtree once for each time it is registered. -/
structure Parallel where
  subtree : NodeId
  started : Bool := false
deriving DecidableEq, Repr

/-- Runs its subtree again once it is done and the interval has passed since the last
start. With `force` only the interval counts, and an unfinished run is cut short. -/
structure Repetition where
  subtree : NodeId
  interval : Nat
  force : Bool := false
  running : Bool := false
  lastStarted : Option Nat := none
deriving DecidableEq, Repr

def Repetition.isReady (r : Repetition) (tick : Tick) : Bool :=
  (match r.lastStarted with
    | none => true
    | some started => started + r.interval ≤ tick.number) && (r.force || !r.running)

inductive BackgroundNode where
  | parallel (p : Parallel)
  | repetition (r : Repetition)
deriving DecidableEq, Repr

namespace BackgroundNode

def subtree : BackgroundNode → NodeId
  | parallel p => p.subtree
  | repetition r => r.subtree

/-- The state in which the subtree runs. -/
def begun (now : Nat) : BackgroundNode → BackgroundNode
  | parallel p => parallel { p with started := true }
  | repetition r => repetition { r with running := true, lastStarted := some now }

/-- The state once the subtree is done or rolled back. -/
def ended : BackgroundNode → BackgroundNode
  | parallel p => parallel p
  | repetition r => repetition { r with running := false }

def registered : BackgroundNode → BackgroundNode
  | parallel p => parallel { p with started := false }
  | repetition r => repetition { r with running := false, lastStarted := none }

def unregistered : BackgroundNode → BackgroundNode
  | parallel p => parallel { p with started := false }
  | repetition r => repetition { r with running := false }

instance : Node BackgroundNode where
  execute n ctx := .call (n.begun ctx.tick.number) ctx n.subtree
  receive n ctx ok := .plain n.ended ctx (.of ok)
  stop n ctx := .plain n.ended ctx ()
  children n := [n.subtree]
  isService _ := true
  isReady n tick :=
    { node := n
      answer := match n with
        | parallel p => !p.started
        | repetition r => r.isReady tick }
  preempts
    | parallel _ => false
    | repetition r => r.force
  registered n := { node := n.registered, answer := () }
  unregistered n := { node := n.unregistered, answer := () }

end BackgroundNode

end BehaviorTree
