/-
Driving a stack: one pass from its present state until it is empty, suspended,
paused or broken.

A step turns to the top node, either to execute it or to hand it the result of its
child, and does with the stack what the node answers. `drive` repeats steps for as
long as the budget lasts and the stack neither rests nor is paused; a pending result
is delivered even if the stack is paused.
-/
import BehaviorTree.Stack.Basic

namespace BehaviorTree.Stack

variable {σ : Type} [Node σ]

/-- Take the top node off, with its outcome on the way to the node beneath. -/
def complete (s : Stack) (w : World σ) (node : NodeId) (ok : Bool) : Pass σ Stack :=
  match w.stop node with
  | .error e => ⟨s, w, some e⟩
  | .ok w =>
    let p := s.pop w
    ⟨{ p.after with state := .receiving, result := some ok },
      p.world.trace "bt.stack.receive" s.label node (if ok then 1 else 0), none⟩

/-- Suspend the stack until its top node is ended from outside. -/
def suspend (s : Stack) (w : World σ) (node : NodeId) : Pass σ Stack :=
  ⟨{ s with result := none, state := .waiting }, w.trace "bt.stack.wait" s.label node 0, none⟩

/-- Suspend the stack for one tick. -/
def park (s : Stack) (w : World σ) (node : NodeId) : Pass σ Stack :=
  ⟨{ s with result := none, state := .waitUntilNextUpdate, parkedAt := some w.tick.number },
    w.trace "bt.stack.wait_next_update" s.label node 0, none⟩

/-- Do what the status of `node` asks for; a child it called is on the stack by now. -/
def settleStatus (s : Stack) (w : World σ) (node : NodeId) : Status → Pass σ Stack
  | .noReturn =>
    if s.top? = some node then ⟨s, w, some (.recursiveExecution s.label node s.state)⟩
    else ⟨s, w, none⟩
  | .success => s.complete w node true
  | .failed => s.complete w node false
  | .wait => s.suspend w node
  | .waitUntilNextUpdate => s.park w node
  | .error => s.errorResult w node "node returned an error result"

/-- Put the child that `node` called on the stack. -/
def call (s : Stack) (w : World σ) (node child : NodeId) (status : Status) : Pass σ Stack :=
  if status ≠ .noReturn then ⟨s, w, some (.callWithoutNoReturn node child status)⟩
  else if !w.graph.contains child then ⟨s, w, some (.unknownNode child)⟩
  else if s.contains child then ⟨s, w, some (.recursiveExecution s.label child s.state)⟩
  else
    let p := s.push w child
    { p.after with state := .calling }.settleStatus p.world node status

/-- Do what came of turning to `node`. -/
def apply (s : Stack) (w : World σ) (node : NodeId) : Dispatch → Pass σ Stack
  | .bindFailed e => s.bindFailed w node e
  | .answered status [] => s.settleStatus w node status
  | .answered status [child] => s.call w node child status
  | .answered _ (_ :: _ :: _) => ⟨s, w, some (.multipleCalls node)⟩

/-- Turn to the top node, to deliver a result or to execute it. -/
def step (s : Stack) (w : World σ) (top : NodeId) : Pass σ Stack :=
  let s := { s with current := some top }
  if s.last = some top then ⟨s, w, some (.recursiveExecution s.label top s.state)⟩
  else if s.state = .receiving then
    match s.result with
    | none => ⟨s, w, some (.missingResult s.label top)⟩
    | some ok =>
      let s := { s with result := none }
      match w.receive top ok with
      | .error e => ⟨s, w, some e⟩
      | .ok (w, d) => s.apply w top d
  else
    let s := { s with state := .calling }
    match w.execute top with
    | .error e => ⟨s, w, some e⟩
    | .ok (w, d) => s.apply w top d

/-- Between two steps: the node that was turned to is the last one, and stepping pauses
a stack that has a result to deliver. -/
def moveOn (s : Stack) : Stack :=
  { s with
    last := s.current
    current := none
    paused := s.paused || (s.state = .receiving && s.pauseAfterSingleExecution) }

/-- Repeat steps within a budget. -/
def drive : Nat → Stack → World σ → Pass σ Stack
  | budget, s, w =>
    match s.nodes with
    | [] => ⟨s, w, none⟩
    | top :: _ =>
      if s.paused && s.state ≠ .receiving || s.rests then ⟨s, w, none⟩
      else if s.state = .invalid then ⟨s, w, some (.invalid s.label)⟩
      else match budget with
        | 0 => s.exhausted w top
        | budget + 1 =>
          let p := s.step w top
          if p.fault.isSome || p.after.rests then p else drive budget p.after.moveOn p.world

/-- One pass. A broken rule makes the stack invalid before it is handed on. -/
def run (s : Stack) (w : World σ) : Pass σ Stack :=
  let p := drive s.stepBudget { s with last := none } w
  let s := { p.after with current := none }
  match p.fault with
  | some e => s.invalidate p.world e
  | none => if s.isEmpty && s.state ≠ .ended then s.finish p.world else ⟨s, p.world, none⟩

end BehaviorTree.Stack
