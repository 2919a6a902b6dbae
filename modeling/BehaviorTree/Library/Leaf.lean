/-
Leaves: waiting, logging, and conditions and actions of the host's own.

A host puts its own code into a tree as a `Predicate` on the variables or as an
`Action`. Both may change state of their own from one use to the next.
-/
import BehaviorTree.Node.Contract
import BehaviorTree.Number.Single

namespace BehaviorTree

/-- A question about the variables; asking may change the one who asks. -/
class Predicate (π : Type) where
  holds : π → Blackboard → Bool × π

/-- A piece of work with the full context of a node. -/
class Action (α : Type) where
  act : α → Context → Step α Status

inductive LeafNode (π α : Type) where
  /-- Suspends until it is ended from outside or rolled back. -/
  | idle
  /-- Suspends, and succeeds after a number of ticks, rounded up. -/
  | waitTicks (ticks : NumberField)
  /-- Suspends until the predicate holds, asked in one phase of each tick. -/
  | waitUntil (predicate : π) (phase : Phase := .fixedUpdate)
  /-- Writes a message to the log, and returns a fixed outcome. -/
  | log (message : Field .string) (result : Bool := true)
  /-- Succeeds if the predicate holds and fails if not. -/
  | check (predicate : π)
  | action (a : α)

namespace LeafNode

variable {π α : Type}

def bind : LeafNode π α → Blackboard → Reply (LeafNode π α) (Option VariableError)
  | waitTicks ticks, b => match ticks.bind b with
    | .ok ticks => { node := waitTicks ticks, answer := none }
    | .error e => { node := waitTicks ticks, answer := some e }
  | log message result, b => match message.bind b with
    | .ok message => { node := log message result, answer := none }
    | .error e => { node := log message result, answer := some e }
  | n, _ => { node := n, answer := none }

def hasHooks : LeafNode π α → Bool
  | waitUntil .. => true
  | _ => false

def executeWaitTicks (ticks : NumberField) (ctx : Context) : Step (LeafNode π α) Status :=
  match ticks.read ctx.blackboard with
  | .error e => .giveUp (waitTicks ticks) ctx e
  | .ok none => .plain (waitTicks ticks) ctx .error
  | .ok (some x) =>
    if x ≤ 0 then .plain (waitTicks ticks) ctx .success
    else
      ⟨waitTicks ticks, .wait,
        { blackboard := ctx.blackboard, deferred := [((Single.of x).count, true)] }⟩

def executeLog (message : Field .string) (result : Bool) (ctx : Context) :
    Step (LeafNode π α) Status :=
  match message.read ctx.blackboard with
  | .error e => .giveUp (log message result) ctx e
  | .ok none => .plain (log message result) ctx .error
  | .ok (some text) =>
    let record : LogRecord :=
      { severity := .info
        message := text
        fields := [("node", ctx.node.text), ("tick", Nat.repr ctx.tick.number)] }
    ⟨log message result, .of result,
      { blackboard := ctx.blackboard, messages := [.log record] }⟩

variable [Predicate π] [Action α]

def execute : LeafNode π α → Context → Step (LeafNode π α) Status
  | idle, ctx => .plain idle ctx .wait
  | waitTicks ticks, ctx => executeWaitTicks ticks ctx
  | waitUntil p phase, ctx =>
    let (holds, p) := Predicate.holds p ctx.blackboard
    .plain (waitUntil p phase) ctx (if holds then .success else .wait)
  | log message result, ctx => executeLog message result ctx
  | check p, ctx =>
    let (holds, p) := Predicate.holds p ctx.blackboard
    .plain (check p) ctx (.of holds)
  | action a, ctx => (Action.act a ctx).map action

omit [Action α] in
def hook : LeafNode π α → Context → Phase → Step (LeafNode π α) HookOutcome
  | waitUntil p asked, ctx, phase =>
    if phase ≠ asked then .plain (waitUntil p asked) ctx .running
    else
      let (holds, p) := Predicate.holds p ctx.blackboard
      .plain (waitUntil p asked) ctx (if holds then .finish true else .running)
  | n, ctx, _ => .plain n ctx .running

instance : Node (LeafNode π α) where
  bind := bind
  execute := execute
  hasHooks := hasHooks
  hook := hook

end LeafNode

end BehaviorTree
