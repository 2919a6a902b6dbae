/-
What can be wrong with a graph, a stack or a call to a tree.
-/
import BehaviorTree.Stack.State

namespace BehaviorTree

/-- The nodes handed over by a loader do not hold together. -/
inductive GraphError where
  | unknownRoot (root : NodeId)
  | unknownNode (node : NodeId)
  | unknownChild (parent child : NodeId)
  | multipleParents (child first second : NodeId)
  | notAService (node : NodeId)
  | serviceAlreadyAttached (service owner : NodeId)
deriving DecidableEq, Repr

namespace GraphError

def name : GraphError → String
  | unknownRoot .. => "UnknownRoot"
  | unknownNode .. => "UnknownNode"
  | unknownChild .. => "UnknownChild"
  | multipleParents .. => "MultipleParents"
  | notAService .. => "NotAService"
  | serviceAlreadyAttached .. => "ServiceAlreadyAttached"

def message : GraphError → String
  | unknownRoot root => "root " ++ root.text ++ " is not in the graph"
  | unknownNode node => "node " ++ node.text ++ " is not in the graph"
  | unknownChild parent child =>
    "node " ++ parent.text ++ " references child " ++ child.text
      ++ " which was not added before it"
  | multipleParents child first second =>
    "node " ++ child.text ++ " is claimed by both " ++ first.text ++ " and " ++ second.text
  | notAService node => "node " ++ node.text ++ " does not implement the service contract"
  | serviceAlreadyAttached service owner =>
    "service " ++ service.text ++ " is already attached to " ++ owner.text

end GraphError

/-- A rule of the stack was broken. The operation that found it is over; nothing is
mended silently. -/
inductive StackError where
  | notReady (stack : StackLabel) (state : StackState) (size : Nat)
  | recursiveExecution (stack : StackLabel) (node : NodeId) (state : StackState)
  | missingResult (stack : StackLabel) (node : NodeId)
  | notWaiting (stack : StackLabel) (state : StackState)
  | breakTargetNotOnStack (stack : StackLabel) (node : NodeId)
  | invalid (stack : StackLabel)
  | unknownNode (node : NodeId)
  | multipleCalls (node : NodeId)
  | callWithoutNoReturn (node child : NodeId) (status : Status)
deriving DecidableEq, Repr

namespace StackError

def name : StackError → String
  | notReady .. => "NotReady"
  | recursiveExecution .. => "RecursiveExecution"
  | missingResult .. => "MissingResult"
  | notWaiting .. => "NotWaiting"
  | breakTargetNotOnStack .. => "BreakTargetNotOnStack"
  | invalid .. => "Invalid"
  | unknownNode .. => "UnknownNode"
  | multipleCalls .. => "MultipleCalls"
  | callWithoutNoReturn .. => "CallWithoutNoReturn"

def message : StackError → String
  | notReady stack state size =>
    stack.text ++ " stack cannot start: state " ++ state.name ++ " with " ++ Nat.repr size
      ++ " node(s) on it"
  | recursiveExecution stack node state =>
    stack.text ++ " stack started repeating execution of " ++ node.text ++ " in state "
      ++ state.name ++ " (did the node forget to return a result?)"
  | missingResult stack node =>
    stack.text ++ " stack has no pending result to deliver to " ++ node.text
  | notWaiting stack state =>
    stack.text ++ " stack received a return while " ++ state.name
      ++ "; nothing is waiting for one"
  | breakTargetNotOnStack stack node =>
    stack.text ++ " stack cannot break to " ++ node.text ++ ": it is not on the stack"
  | invalid stack => stack.text ++ " stack is in an invalid state"
  | unknownNode node => "node " ++ node.text ++ " is not in the graph"
  | multipleCalls node =>
    "node " ++ node.text ++ " called more than one child in a single step"
  | callWithoutNoReturn node child status =>
    "node " ++ node.text ++ " called child " ++ child.text ++ " but returned " ++ status.name
      ++ " instead of NoReturn"

/-- The node that broke the rule, where one did. -/
def node? : StackError → Option NodeId
  | recursiveExecution _ node _ => some node
  | missingResult _ node => some node
  | breakTargetNotOnStack _ node => some node
  | unknownNode node => some node
  | multipleCalls node => some node
  | callWithoutNoReturn node _ _ => some node
  | notReady .. | notWaiting .. | invalid .. => none

end StackError

inductive TreeError where
  | graph (e : GraphError)
  | stack (e : StackError)
  | serviceNotActive (service : NodeId)
deriving DecidableEq, Repr

/-- An error of the graph or of a stack speaks for itself. -/
def TreeError.message : TreeError → String
  | graph e => e.message
  | stack e => e.message
  | serviceNotActive service => "service " ++ service.text ++ " has no active stack"

end BehaviorTree
