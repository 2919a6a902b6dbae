/-
The calls of the host.

In every frame the host calls `update`, `fixedUpdate` and `lateUpdate`, in that order,
or `tick`, which is all three. Between them it may start and end the tree, end nodes
that are suspended, roll stacks back, and pause and resume them. Each call settles what
it did before it returns, and reports the rules that it found broken.
-/
import BehaviorTree.Tree.Phases

namespace BehaviorTree.Tree

variable {σ : Type} [Node σ]

/-- Put the root on the main stack, and drive it. -/
def start (t : Tree σ) : Outcome σ :=
  let t := { t with running := true, endedAt := none }
  conclude .main (t.keepMain (t.main.restart t.world t.root))

/-- The first phase of the next tick. -/
def update (t : Tree σ) (dt : Float32) : Outcome σ :=
  t.runPhase { number := t.world.tick.number + 1, dt, phase := .update }

def fixedUpdate (t : Tree σ) (dt : Float32) : Outcome σ :=
  t.runPhase { number := t.world.tick.number, dt, phase := .fixedUpdate }

def lateUpdate (t : Tree σ) (dt : Float32) : Outcome σ :=
  t.runPhase { number := t.world.tick.number, dt, phase := .lateUpdate }

/-- All three phases. Each one runs, whatever the ones before found. -/
def tick (t : Tree σ) (dt : Float32) : Outcome σ :=
  let first := t.update dt
  let second := first.tree.fixedUpdate dt
  let third := second.tree.lateUpdate dt
  ⟨third.tree, first.fault.or (second.fault.or third.fault)⟩

/-- End the suspended top of the main stack. -/
def receiveReturn (t : Tree σ) (ok : Bool) : Outcome σ :=
  conclude .main (t.keepMain (t.main.receiveReturn t.world ok))

/-- Roll the main stack back; it goes on from the node left on top, or from the root. -/
def breakMain (t : Tree σ) (stopAt : Option NodeId) : Outcome σ :=
  conclude .main (t.keepMain (t.main.breakTo t.world stopAt))

def pause (t : Tree σ) : Tree σ := { t with main := t.main.pause }

def resume (t : Tree σ) : Tree σ := { t with main := t.main.resume }

/-- End the execution that a token names; false if the token is void or the node is not
the suspended top of a stack. -/
def endAction (t : Tree σ) (p : Progress) (ok : Bool) : Tree σ × Except TreeError Bool :=
  match t.deliver p ok with
  | none => (t, .ok false)
  | some (label, delivered) => match conclude label delivered with
    | ⟨t, some e⟩ => (t, .error (.stack e))
    | ⟨t, none⟩ => (t, .ok true)

/-- End a node in whatever execution it is. -/
def endNode (t : Tree σ) (node : NodeId) (ok : Bool) : Tree σ × Except TreeError Bool :=
  match t.world.progress? node with
  | none => (t, .error (.stack (.unknownNode node)))
  | some p => t.endAction p ok

/-- Roll the stack of a service back. A stack with nodes left goes on from its top; an
empty one waits until the service is ready again. -/
def breakService (t : Tree σ) (service : NodeId) (stopAt : Option NodeId) :
    Tree σ × Except TreeError Unit :=
  match t.service? service with
  | none => (t, .error (.serviceNotActive service))
  | some v =>
    match conclude v.label (t.keepService (v.keep (v.stack.breakTo t.world stopAt))) with
    | ⟨t, some e⟩ => (t, .error (.stack e))
    | ⟨t, none⟩ => (t, .ok ())

omit [Node σ] in
/-- Change the stack of a service in place. -/
def onService (t : Tree σ) (service : NodeId) (f : Stack → Stack) :
    Except TreeError (Tree σ) :=
  match t.service? service with
  | none => .error (.serviceNotActive service)
  | some v => .ok (t.putService { v with stack := f v.stack })

def pauseService (t : Tree σ) (service : NodeId) : Except TreeError (Tree σ) :=
  t.onService service Stack.pause

def resumeService (t : Tree σ) (service : NodeId) : Except TreeError (Tree σ) :=
  t.onService service Stack.resume

/-- Tear a service down that settling the main stack's end has left. -/
def tearDown (o : Outcome σ) (service : NodeId) : Outcome σ :=
  match o.tree.service? service with
  | none => o
  | some v =>
    let p := v.stack.terminate o.tree.world
    let t := { o.tree with
      world := p.world.unregistered service
      services := o.tree.services.eraseP (·.service = service) }
    Outcome.settle ⟨t, o.fault.or p.fault⟩

/-- End the main stack and every service. The tree rests until it is started again. -/
def terminate (t : Tree σ) : Outcome σ :=
  let t := { t with running := false }
  let ended := (t.keepMain (t.main.terminate t.world)).settle
  conclude .main ((ended.tree.services.map (·.service)).reverse.foldl tearDown ended)

end BehaviorTree.Tree
