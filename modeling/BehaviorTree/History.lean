/-
The history of a tree: all that happened in it, in one order.

Every method of a node that is called is recorded, and so is everything that leaves
the tree: what nodes say, observers that are told of a rollback, trace events,
diagnostics and records of the log. A reference that did not fit its blackboard is
recorded as well; a host that cannot go on after one looks at the records before it.
Histories are kept newest first; the functions here take them in the order of time.
-/
import BehaviorTree.Trace
import BehaviorTree.Node.Contract

namespace BehaviorTree

/-- A method of a node, with its argument; `ready` also has the node's answer. -/
inductive Call where
  | bind
  | execute
  | receive (ok : Bool)
  | stop
  | hook (phase : Phase)
  | ready (answer : Bool)
  | registered
  | unregistered
deriving DecidableEq, Repr

inductive Record where
  | called (node : NodeId) (call : Call)
  | observed (node : NodeId) (observer : Observer)
  | said (node : NodeId) (message : Message)
  | broken (node : NodeId) (e : AccessError)
  | traced (event : TraceEvent)
  | reported (d : Diagnostic)
  | logged (record : LogRecord)
deriving DecidableEq, Repr

namespace Record

def broken? : Record → Option AccessError
  | broken _ e => some e
  | _ => none

def traced? : Record → Option TraceEvent
  | traced event => some event
  | _ => none

def reported? : Record → Option Diagnostic
  | reported d => some d
  | _ => none

def token? : Record → Option (String × Progress)
  | said _ (.token name progress) => some (name, progress)
  | _ => none

/-- The record of the log, if it is one; with `listened` false, nobody listens for
diagnostics and they go to the log. -/
def logged? (listened : Bool) : Record → Option LogRecord
  | logged record => some record
  | said _ (.log record) => some record
  | reported d => if listened then none else some d.toLog
  | _ => none

end Record

namespace History

/-- The records up to the first reference that did not fit, and what that was. -/
def untilBroken (records : List Record) : List Record × Option AccessError :=
  (records.takeWhile (·.broken?.isNone), records.findSome? Record.broken?)

def trace (records : List Record) : TraceLog := ⟨records.filterMap Record.traced?⟩

def diagnostics (records : List Record) : List Diagnostic := records.filterMap Record.reported?

def tokens (records : List Record) : List (String × Progress) := records.filterMap Record.token?

def log (listened : Bool) (records : List Record) : List LogRecord :=
  records.filterMap (Record.logged? listened)

end History

end BehaviorTree
