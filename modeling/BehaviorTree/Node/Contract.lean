/-
The contract between a node and its stack.

A node is a state with pure steps. A step is given the node's state and a `Context`,
and answers with the next state and with `Effects`: what the node asks for. A node
never touches a stack; a composite asks for a child with `calls` and answers
`noReturn`, and hears of the child's result in `receive`.

The nodes of a graph share one type of states, `σ`; nodes of several kinds are a sum
type, and the instances for sums at the end put a contract together from two.
-/
import BehaviorTree.Blackboard.Field
import BehaviorTree.Schedule
import BehaviorTree.Diagnostic

namespace BehaviorTree

/-- What a node may look at in a step. -/
structure Context where
  node : NodeId
  activation : Nat
  tick : Tick
  blackboard : Blackboard

/-- The token for the execution that the step belongs to. -/
def Context.progress (ctx : Context) : Progress := ⟨ctx.node, ctx.activation⟩

/-- Someone to be told when the node is rolled back before it ends. -/
structure Observer where
  tag : String
deriving DecidableEq, Repr

/-- What a node says to the outside. -/
inductive Message where
  | note (text : String)
  | log (record : LogRecord)
  /-- A token handed out under a name. -/
  | token (name : String) (progress : Progress)
deriving DecidableEq, Repr

/-- What a step asks for. -/
structure Effects where
  /-- The variables after the step. -/
  blackboard : Blackboard
  /-- Children to push; more than one breaks the rules. -/
  calls : List NodeId := []
  /-- Ends of this node after a number of ticks, with their outcomes. -/
  deferred : List (Nat × Bool) := []
  observers : List Observer := []
  messages : List Message := []
  /-- A reference that did not fit the blackboard; it cuts the step short. -/
  broken : Option AccessError := none

/-- The result of a step. -/
structure Step (σ α : Type) where
  node : σ
  answer : α
  effects : Effects

namespace Step

variable {σ τ α : Type}

/-- A step that asks for nothing. -/
def plain (node : σ) (ctx : Context) (answer : α) : Step σ α :=
  ⟨node, answer, { blackboard := ctx.blackboard }⟩

/-- Call `child`. -/
def call (node : σ) (ctx : Context) (child : NodeId) : Step σ Status :=
  ⟨node, .noReturn, { blackboard := ctx.blackboard, calls := [child] }⟩

/-- Give up over a reference that did not fit. -/
def giveUp (node : σ) (ctx : Context) (e : AccessError) : Step σ Status :=
  ⟨node, .error, { blackboard := ctx.blackboard, broken := some e }⟩

/-- The same step of a node that is part of another. -/
def map (f : σ → τ) (s : Step σ α) : Step τ α := ⟨f s.node, s.answer, s.effects⟩

end Step

/-- The result of a question that leaves the blackboard and the stack alone. -/
structure Reply (σ α : Type) where
  node : σ
  answer : α
  messages : List Message := []

def Reply.map {σ τ α : Type} (f : σ → τ) (r : Reply σ α) : Reply τ α :=
  ⟨f r.node, r.answer, r.messages⟩

/-- The contract. Every method but `execute` has the answer of a leaf that is no service. -/
class Node (σ : Type) where
  /-- Bind variables; asked once, before the first execution. What was bound before an
  error stays bound. -/
  bind : σ → Blackboard → Reply σ (Option VariableError) := fun s _ => { node := s, answer := none }
  execute : σ → Context → Step σ Status
  /-- Take the result of the child that was called. -/
  receive : σ → Context → Bool → Step σ Status := fun s ctx _ => .plain s ctx .error
  /-- Leave the stack, finished or rolled back. -/
  stop : σ → Context → Step σ Unit := fun s ctx => .plain s ctx ()
  /-- The children the node may call. -/
  children : σ → List NodeId := fun _ => []
  /-- Whether the node wants to hear of the phases while it is suspended. -/
  hasHooks : σ → Bool := fun _ => false
  hook : σ → Context → Phase → Step σ HookOutcome := fun s ctx _ => .plain s ctx .running
  /-- Whether the node can run as a service. -/
  isService : σ → Bool := fun _ => false
  /-- Whether a fresh run of the service may start. -/
  isReady : σ → Tick → Reply σ Bool := fun s _ => { node := s, answer := false }
  /-- Whether a service that is ready may cut its unfinished run short. -/
  preempts : σ → Bool := fun _ => false
  registered : σ → Reply σ Unit := fun s => { node := s, answer := () }
  unregistered : σ → Reply σ Unit := fun s => { node := s, answer := () }

namespace Node

variable {α β : Type} [Node α] [Node β]

/-- A node of either of two kinds. -/
instance : Node (α ⊕ β) where
  bind
    | .inl s, b => (bind s b).map .inl
    | .inr s, b => (bind s b).map .inr
  execute
    | .inl s, ctx => (execute s ctx).map .inl
    | .inr s, ctx => (execute s ctx).map .inr
  receive
    | .inl s, ctx, ok => (receive s ctx ok).map .inl
    | .inr s, ctx, ok => (receive s ctx ok).map .inr
  stop
    | .inl s, ctx => (stop s ctx).map .inl
    | .inr s, ctx => (stop s ctx).map .inr
  children
    | .inl s => children s
    | .inr s => children s
  hasHooks
    | .inl s => hasHooks s
    | .inr s => hasHooks s
  hook
    | .inl s, ctx, phase => (hook s ctx phase).map .inl
    | .inr s, ctx, phase => (hook s ctx phase).map .inr
  isService
    | .inl s => isService s
    | .inr s => isService s
  isReady
    | .inl s, tick => (isReady s tick).map .inl
    | .inr s, tick => (isReady s tick).map .inr
  preempts
    | .inl s => preempts s
    | .inr s => preempts s
  registered
    | .inl s => (registered s).map .inl
    | .inr s => (registered s).map .inr
  unregistered
    | .inl s => (unregistered s).map .inl
    | .inr s => (unregistered s).map .inr

end Node

end BehaviorTree
