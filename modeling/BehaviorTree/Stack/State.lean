/-
The states of a stack, and which stack is which.
-/
import BehaviorTree.Node.Status

namespace BehaviorTree

inductive StackState where
  /-- A rule was broken; only rolling back recovers the stack. -/
  | invalid
  /-- The top node, if any, is executed afresh on the next pass. -/
  | ready
  /-- Going down: the top node was just pushed. -/
  | calling
  /-- Coming up: the top node is to receive a child's result. -/
  | receiving
  | waitUntilNextUpdate
  | waiting
  | ended
deriving DecidableEq, Repr, Inhabited

namespace StackState

def all : List StackState :=
  [invalid, ready, calling, receiving, waitUntilNextUpdate, waiting, ended]

def name : StackState → String
  | invalid => "Invalid"
  | ready => "Ready"
  | calling => "Calling"
  | receiving => "Receiving"
  | waitUntilNextUpdate => "WaitUntilNextUpdate"
  | waiting => "Waiting"
  | ended => "End"

def isWaiting : StackState → Bool
  | waiting | waitUntilNextUpdate => true
  | _ => false

end StackState

/-- A tree has one main stack, and one for each service that is registered. -/
inductive StackLabel where
  | main
  | service (node : NodeId)
deriving DecidableEq, Repr, Inhabited

namespace StackLabel

/-- How trace events name the stack. -/
def traceId : StackLabel → Option Nat
  | main => none
  | service node => some node.index

def text : StackLabel → String
  | main => "main"
  | service node => "service " ++ node.text

theorem traceId_injective {a b : StackLabel} (h : a.traceId = b.traceId) : a = b := by
  cases a <;> cases b <;> simp_all [traceId, NodeId.ext_iff]

end StackLabel

end BehaviorTree
