/-
The world of a tree: all that its stacks share.

Stacks hold no nodes, only their ids; every step of a node goes through the world,
which keeps the node's state, the variables and the schedule, and records what
happened. Changes of the stacks are queued as events, for the tree to register and
unregister services by.
-/
import BehaviorTree.Graph
import BehaviorTree.History
import BehaviorTree.Queue

namespace BehaviorTree

/-- A change of a stack. -/
inductive StackEvent where
  | pushed (node : NodeId)
  | popped (node : NodeId)
  | ended (stack : StackLabel) (result : Option Bool)
deriving DecidableEq, Repr

/-- What came of turning to a node. -/
inductive Dispatch where
  /-- Its variables could not be bound; it did not run. -/
  | bindFailed (e : VariableError)
  | answered (status : Status) (calls : List NodeId)
deriving DecidableEq, Repr

structure World (σ : Type) where
  graph : Graph σ
  blackboard : Blackboard
  tick : Tick := {}
  schedule : Schedule := {}
  events : Queue StackEvent := {}
  /-- Newest first. -/
  history : List Record := []

namespace World

variable {σ : Type}

def record (w : World σ) (r : Record) : World σ := { w with history := r :: w.history }

/-- Trace an event of a stack. -/
def trace (w : World σ) (tag : String) (stack : StackLabel) (node : Option NodeId)
    (value : Int) : World σ :=
  w.record (.traced
    { tick := w.tick.number, tag, stack := stack.traceId, node := node.map (·.index), value })

/-- Log a warning. -/
def warn (w : World σ) (message : String) (fields : List (String × String)) : World σ :=
  w.record (.logged { severity := .warn, message, fields })

/-- Report a diagnostic, with the name of its node. -/
def report (w : World σ) (d : Diagnostic) : World σ :=
  w.record (.reported { d with name := d.node.bind w.graph.name? })

def enqueue (w : World σ) (event : StackEvent) : World σ :=
  { w with events := w.events.push event }

def modify (w : World σ) (id : NodeId) (f : Slot σ → Slot σ) : World σ :=
  { w with graph := w.graph.modify id f }

/-- The token for the node's present execution. -/
def progress? (w : World σ) (id : NodeId) : Option Progress :=
  (w.graph.slot? id).map fun slot => ⟨id, slot.activation⟩

/-- Whether the token still names the node's present execution. -/
def isCurrent (w : World σ) (p : Progress) : Bool := w.progress? p.node = some p

def context (w : World σ) (id : NodeId) (activation : Nat) : Context :=
  { node := id, activation, tick := w.tick, blackboard := w.blackboard }

/-- Record what a node said. -/
def hear (w : World σ) (id : NodeId) (messages : List Message) : World σ :=
  messages.foldl (fun w m => w.record (.said id m)) w

/-- Tell the observers of a node that it is rolled back. -/
def tell (w : World σ) (id : NodeId) (observers : List Observer) : World σ :=
  observers.foldl (fun w o => w.record (.observed id o)) w

/-- Keep what a step left: the node's state, the variables, and what was said. -/
def keep {α : Type} (w : World σ) (id : NodeId) (step : Step σ α) : World σ :=
  let w := w.modify id fun s => { s with node := step.node }
  let w := { w with blackboard := step.effects.blackboard }.hear id step.effects.messages
  match step.effects.broken with
  | none => w
  | some e => w.record (.broken id e)

/-- Keep what a step left, and grant what it asked for but the calls. -/
def absorb {α : Type} (w : World σ) (id : NodeId) (activation : Nat) (step : Step σ α) :
    World σ :=
  let w := (w.keep id step).modify id fun s =>
    { s with observers := s.observers ++ step.effects.observers }
  let task := fun (ticks, success) =>
    { progress := ⟨id, activation⟩, due := ⟨w.tick.number + ticks, w.tick.phase⟩, success }
  { w with schedule := step.effects.deferred.foldl (fun s d => s.add (task d)) w.schedule }

/-- Keep a node's reply to a question. -/
def keepReply {α : Type} (w : World σ) (id : NodeId) (call : Call) (reply : Reply σ α) :
    World σ :=
  ((w.record (.called id call)).modify id fun s => { s with node := reply.node }).hear id
    reply.messages

/-- Take the tasks that are due out of the schedule. -/
def takeDue (w : World σ) : List DeferredTask × World σ :=
  let (due, schedule) := w.schedule.takeDue w.tick.moment
  (due, { w with schedule })

variable [Node σ]

/-- Bind the node's variables, unless they are bound. -/
def bindOnce (w : World σ) (id : NodeId) (slot : Slot σ) : World σ × σ × Option VariableError :=
  if slot.bound then (w, slot.node, none)
  else
    let reply := Node.bind slot.node w.blackboard
    let w := w.keepReply id .bind reply
    (w.modify id fun s => { s with bound := reply.answer.isNone }, reply.node, reply.answer)

/-- Execute a node, in a new activation. -/
def execute (w : World σ) (id : NodeId) : Except StackError (World σ × Dispatch) :=
  match w.graph.slot? id with
  | none => .error (.unknownNode id)
  | some slot =>
    let activation := slot.activation + 1
    let w := w.modify id fun s => { s with activation }
    match w.bindOnce id slot with
    | (w, _, some e) => .ok (w, .bindFailed e)
    | (w, node, none) =>
      let step := Node.execute node (w.context id activation)
      .ok ((w.record (.called id .execute)).absorb id activation step,
        .answered step.answer step.effects.calls)

/-- Hand a node the result of its child. -/
def receive (w : World σ) (id : NodeId) (ok : Bool) : Except StackError (World σ × Dispatch) :=
  match w.graph.slot? id with
  | none => .error (.unknownNode id)
  | some slot =>
    let step := Node.receive slot.node (w.context id slot.activation) ok
    .ok ((w.record (.called id (.receive ok))).absorb id slot.activation step,
      .answered step.answer step.effects.calls)

/-- Let a node leave its stack. Its tokens, observers and deferred ends are void from
here on. -/
def stop (w : World σ) (id : NodeId) : Except StackError (World σ) :=
  match w.graph.slot? id with
  | none => .error (.unknownNode id)
  | some slot =>
    let step := Node.stop slot.node (w.context id slot.activation)
    let w := ((w.record (.called id .stop)).keep id step).modify id fun s =>
      { s with observers := [], activation := s.activation + 1 }
    .ok { w with schedule := w.schedule.cancel id }

/-- Let a node leave its stack before it ended: its observers are told first. -/
def interrupt (w : World σ) (id : NodeId) : Except StackError (World σ) :=
  match w.graph.slot? id with
  | none => .error (.unknownNode id)
  | some slot =>
    ((w.tell id slot.observers).modify id fun s => { s with observers := [] }).stop id

/-- Forward the hook of a phase; none if the node has no hooks. A hook may not call. -/
def hook (w : World σ) (id : NodeId) (phase : Phase) :
    World σ × Except StackError (Option HookOutcome) :=
  match w.graph.slot? id with
  | none => (w, .error (.unknownNode id))
  | some slot =>
    if !Node.hasHooks slot.node then (w, .ok none)
    else
      let step := Node.hook slot.node (w.context id slot.activation) phase
      let w := (w.record (.called id (.hook phase))).absorb id slot.activation step
      match step.effects.calls with
      | [] => (w, .ok (some step.answer))
      | child :: _ =>
        let status := match step.answer with
          | .running => .wait
          | .ended status => status
        (w, .error (.callWithoutNoReturn id child status))

/-- Ask a service whether a fresh run may start. -/
def ready (w : World σ) (id : NodeId) : World σ × Bool :=
  match w.graph.slot? id with
  | none => (w, false)
  | some slot =>
    if !Node.isService slot.node then (w, false)
    else
      let reply := Node.isReady slot.node w.tick
      (w.keepReply id (.ready reply.answer) reply, reply.answer)

/-- Whether a service that is ready may cut its unfinished run short. -/
def preempts (w : World σ) (id : NodeId) : Bool :=
  match w.graph.slot? id with
  | none => false
  | some slot => Node.isService slot.node && Node.preempts slot.node

def registered (w : World σ) (id : NodeId) : World σ :=
  match w.graph.slot? id with
  | none => w
  | some slot =>
    if Node.isService slot.node then w.keepReply id .registered (Node.registered slot.node) else w

def unregistered (w : World σ) (id : NodeId) : World σ :=
  match w.graph.slot? id with
  | none => w
  | some slot =>
    if Node.isService slot.node then w.keepReply id .unregistered (Node.unregistered slot.node)
    else w

end World

end BehaviorTree
