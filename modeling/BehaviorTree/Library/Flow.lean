/-
The composites of the library as one kind of node.
-/
import BehaviorTree.Library.Composite
import BehaviorTree.Library.Loop

namespace BehaviorTree

inductive FlowNode where
  | sequence (s : Sequence)
  | selector (s : Selector)
  | loop (l : Loop)
  | condition (c : Condition)
  /-- Negates its child's outcome. -/
  | inverter (child : NodeId)
deriving Repr

namespace FlowNode

def bind : FlowNode → Blackboard → Reply FlowNode (Option VariableError)
  | loop l, b => (l.bind b).map loop
  | n, _ => { node := n, answer := none }

def execute : FlowNode → Context → Step FlowNode Status
  | sequence s, ctx => (s.execute ctx).map sequence
  | selector s, ctx => (s.execute ctx).map selector
  | loop l, ctx => (l.execute ctx).map loop
  | condition c, ctx => (c.execute ctx).map condition
  | inverter child, ctx => .call (inverter child) ctx child

def receive : FlowNode → Context → Bool → Step FlowNode Status
  | sequence s, ctx, ok => (s.receive ctx ok).map sequence
  | selector s, ctx, ok => (s.receive ctx ok).map selector
  | loop l, ctx, ok => (l.receive ctx ok).map loop
  | condition c, ctx, ok => (c.receive ctx ok).map condition
  | inverter child, ctx, ok => .plain (inverter child) ctx (.of !ok)

/-- Forget how far a run got. A loop keeps its count of iterations. -/
def reset : FlowNode → FlowNode
  | sequence s => sequence { s with cursor := 0 }
  | selector s => selector { s with cursor := 0 }
  | condition c => condition { c with branching := false }
  | n => n

def children : FlowNode → List NodeId
  | sequence s => s.children
  | selector s => s.children
  | loop l => l.children
  | condition c => c.children
  | inverter child => [child]

instance : Node FlowNode where
  bind := bind
  execute := execute
  receive := receive
  stop n ctx := .plain n.reset ctx ()
  children := children

end FlowNode

end BehaviorTree
