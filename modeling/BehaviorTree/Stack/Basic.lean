/-
An execution stack: the nodes that are active, and the state of the machine that
drives them.

An operation on a stack also changes the world, and may find a rule broken half-way;
what it leaves is a `Pass`. The stack's changes are traced and queued as they are
made, so both always agree with the nodes on it.
-/
import BehaviorTree.World
import BehaviorTree.Config

namespace BehaviorTree

structure Stack where
  label : StackLabel
  /-- The active nodes, the top first. -/
  nodes : List NodeId := []
  state : StackState := .ready
  /-- The child result on its way to the top node. -/
  result : Option Bool := none
  /-- The node that is being turned to. -/
  current : Option NodeId := none
  /-- The node that was turned to before it, in the same pass. -/
  last : Option NodeId := none
  paused : Bool := false
  pauseAfterSingleExecution : Bool := ({} : Config).pauseAfterSingleExecution
  /-- How many nodes one pass may turn to. -/
  stepBudget : Nat := ({} : Config).maxStepsPerPass
  /-- The tick at which the stack began to wait for the next update. -/
  parkedAt : Option Nat := none
deriving DecidableEq, Repr

/-- What an operation leaves: what it worked on, the world, and the rule that it found
broken, if any. -/
structure Pass (σ κ : Type) where
  after : κ
  world : World σ
  fault : Option StackError := none

def Pass.map {σ κ κ' : Type} (f : κ → κ') (p : Pass σ κ) : Pass σ κ' :=
  ⟨f p.after, p.world, p.fault⟩

namespace World

variable {σ : Type}

/-- A node came onto a stack, which is now `depth` deep. -/
def entered (w : World σ) (label : StackLabel) (node : NodeId) (depth : Nat) : World σ :=
  (w.trace "bt.stack.push" label node depth).enqueue (.pushed node)

/-- A node left a stack, which is now `depth` deep. -/
def left (w : World σ) (label : StackLabel) (node : NodeId) (depth : Nat) : World σ :=
  (w.trace "bt.stack.pop" label node depth).enqueue (.popped node)

end World

namespace Stack

variable {σ : Type}

def applyConfig (s : Stack) (config : Config) : Stack :=
  { s with
    pauseAfterSingleExecution := config.pauseAfterSingleExecution
    stepBudget := config.maxStepsPerPass }

def depth (s : Stack) : Nat := s.nodes.length

def isEmpty (s : Stack) : Bool := s.nodes.isEmpty

def top? (s : Stack) : Option NodeId := s.nodes.head?

def contains (s : Stack) (node : NodeId) : Bool := node ∈ s.nodes

def pause (s : Stack) : Stack := { s with paused := true }

def resume (s : Stack) : Stack := { s with paused := false }

def isWaiting (s : Stack) : Bool := s.state.isWaiting

/-- Whether `node` is on top and suspended. -/
def isWaitingOn (s : Stack) (node : NodeId) : Bool := s.isWaiting && s.top? = some node

/-- The node that is suspended, if the stack is. -/
def suspended? (s : Stack) : Option NodeId := if s.isWaiting then s.top? else none

/-- Whether a pass ends here: the stack is suspended or has ended. -/
def rests (s : Stack) : Bool := s.isWaiting || s.state = .ended

def push (s : Stack) (w : World σ) (node : NodeId) : Pass σ Stack :=
  ⟨{ s with nodes := node :: s.nodes }, w.entered s.label node (s.depth + 1), none⟩

def pop (s : Stack) (w : World σ) : Pass σ Stack :=
  match s.nodes with
  | [] => ⟨s, w, none⟩
  | node :: rest => ⟨{ s with nodes := rest }, w.left s.label node rest.length, none⟩

/-- The pause after an error: the node stays on top, to be executed afresh. -/
def halt (s : Stack) : Stack := { s with result := none, paused := true, state := .calling }

/-- A node answered with an error. -/
def errorResult (s : Stack) (w : World σ) (node : NodeId) (message : String) : Pass σ Stack :=
  let w := w.warn (message ++ "; stack paused") [("stack", s.label.text), ("node", node.text)]
  let w := w.report { stack := s.label, kind := .errorResult, message, node }
  ⟨{ s.halt with parkedAt := none }, w.trace "bt.stack.error" s.label node 0, none⟩

/-- A node could not bind its variables. -/
def bindFailed (s : Stack) (w : World σ) (node : NodeId) (e : VariableError) : Pass σ Stack :=
  let w := w.warn "node failed to initialize; stack paused"
    [("stack", s.label.text), ("node", node.text), ("error", e.message)]
  let w := w.report { stack := s.label, kind := .bindFailed, message := e.message, node }
  ⟨s.halt, w.trace "bt.stack.error" s.label node 0, none⟩

/-- The steps of a pass are used up. -/
def exhausted (s : Stack) (w : World σ) (node : NodeId) : Pass σ Stack :=
  let steps := Nat.repr s.stepBudget
  let w := w.warn "step budget exhausted; stack paused"
    [("stack", s.label.text), ("node", node.text), ("steps", steps)]
  let w := w.report
    { stack := s.label
      kind := .stepBudgetExceeded
      message := steps ++ " steps in a single pass without suspending"
      node }
  ⟨s.pause, w, none⟩

/-- The last node is gone: the stack ends, with its result. -/
def finish (s : Stack) (w : World σ) : Pass σ Stack :=
  let value : Int := match s.result with
    | none => -1
    | some ok => if ok then 1 else 0
  let w := w.trace "bt.stack.end" s.label none value
  ⟨{ s with result := none, state := .ended, parkedAt := none },
    w.enqueue (.ended s.label s.result), none⟩

/-- A rule was broken in a pass: only rolling back recovers the stack. -/
def invalidate (s : Stack) (w : World σ) (e : StackError) : Pass σ Stack :=
  let w := w.warn "stack fault" [("stack", s.label.text), ("error", e.message)]
  ⟨{ s with state := .invalid, result := none },
    w.trace "bt.stack.error" s.label e.node? (-1), some e⟩

end Stack

end BehaviorTree
