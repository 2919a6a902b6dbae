/-
Services: nodes that run on stacks of their own while their owners are active.

The service node is the head of its stack. A fresh run starts when the node says that
it is ready, at most once in a tick; a service that preempts has its unfinished run
rolled back for it. A paused stack neither runs nor starts over.
-/
import BehaviorTree.Stack.Operations

namespace BehaviorTree

structure Service where
  service : NodeId
  owner : NodeId
  stack : Stack
  /-- The tick of the last start. -/
  lastStarted : Option Nat := none
  /-- Starts since the service was registered. -/
  runs : Nat := 0
deriving DecidableEq, Repr

namespace Service

variable {σ : Type} [Node σ]

def make (service owner : NodeId) (config : Config) : Service where
  service := service
  owner := owner
  stack := ({ label := .service service } : Stack).applyConfig config

def label (v : Service) : StackLabel := v.stack.label

/-- Keep what a pass left of the stack. -/
def keep (v : Service) (p : Pass σ Stack) : Pass σ Service :=
  p.map fun stack => { v with stack }

/-- Start a fresh run, if none was started in this tick and the node is ready. -/
def tryStart (v : Service) (w : World σ) : Pass σ Service :=
  if v.lastStarted = some w.tick.number then ⟨v, w, none⟩
  else match w.ready v.service with
    | (w, false) => ⟨v, w, none⟩
    | (w, true) =>
      let v := { v with lastStarted := some w.tick.number, runs := v.runs + 1 }
      let w := w.trace "bt.service.start" v.label v.service v.runs
      v.keep (v.stack.restart w v.service)

/-- Whether an unfinished run is to be cut short now; the node is asked last. -/
def isPreempted (v : Service) (w : World σ) : World σ × Bool :=
  if !v.stack.isEmpty && v.stack.state ≠ .invalid && v.stack.state ≠ .ended
      && v.lastStarted ≠ some w.tick.number && w.preempts v.service then
    w.ready v.service
  else (w, false)

/-- Roll the unfinished run back, and start the next one. -/
def preempt (v : Service) (w : World σ) : Pass σ Service :=
  let w := w.trace "bt.service.preempt" v.label v.service v.stack.depth
  match v.keep (v.stack.breakTo w none) with
  | ⟨v, w, some e⟩ => ⟨v, w, some e⟩
  | ⟨v, w, none⟩ => v.tryStart w

/-- One step of the service, whatever the main stack does. -/
def advance (v : Service) (w : World σ) : Pass σ Service :=
  if v.stack.paused then ⟨v, w, none⟩
  else match v.isPreempted w with
    | (w, true) => v.preempt w
    | (w, false) =>
      match v.stack.state with
      | .invalid | .waiting => ⟨v, w, none⟩
      | .waitUntilNextUpdate => v.keep (v.stack.resumeNextUpdate w).1
      | .ended => v.tryStart w
      | .ready => if v.stack.isEmpty then v.tryStart w else v.keep (v.stack.run w)
      | .calling | .receiving => v.keep (v.stack.run w)

end Service

end BehaviorTree
