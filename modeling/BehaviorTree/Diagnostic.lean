/-
What is reported to the outside: diagnostics, which ask for help, and records of
the log.
-/
import BehaviorTree.Fault

namespace BehaviorTree

inductive Severity where
  | info
  | warn
  | error
deriving DecidableEq, Repr

def Severity.name : Severity → String
  | info => "INFO"
  | warn => "WARN"
  | error => "ERROR"

/-- One record of the log: a message, and named texts that go with it. -/
structure LogRecord where
  severity : Severity
  message : String
  fields : List (String × String) := []
deriving DecidableEq, Repr

inductive DiagnosticKind where
  /-- A node answered with an error; the stack paused. -/
  | errorResult
  /-- A node could not bind its variables; the stack paused. -/
  | bindFailed
  /-- A pass took more steps than it may; the stack paused. -/
  | stepBudgetExceeded
  /-- A rule of the stack was broken, and the host was told so. -/
  | protocolViolation
deriving DecidableEq, Repr

namespace DiagnosticKind

def all : List DiagnosticKind := [errorResult, bindFailed, stepBudgetExceeded, protocolViolation]

def name : DiagnosticKind → String
  | errorResult => "ErrorResult"
  | bindFailed => "InitializeFailed"
  | stepBudgetExceeded => "StepBudgetExceeded"
  | protocolViolation => "ProtocolViolation"

end DiagnosticKind

structure Diagnostic where
  stack : StackLabel
  kind : DiagnosticKind
  message : String
  node : Option NodeId := none
  name : Option String := none
deriving DecidableEq, Repr

namespace Diagnostic

/-- The report of a broken rule, on the stack it was met on. -/
def ofFault (stack : StackLabel) (e : StackError) : Diagnostic where
  stack := stack
  kind := .protocolViolation
  message := e.message
  node := e.node?

/-- The record of the log that a diagnostic becomes when nobody listens for diagnostics. -/
def toLog (d : Diagnostic) : LogRecord where
  severity := .error
  message := d.message
  fields :=
    [("stack", d.stack.text),
     ("node", match d.node with
       | none => "None"
       | some node => "Some(NodeId(" ++ Nat.repr node.index ++ "))"),
     ("name", d.name.getD "-"),
     ("kind", d.kind.name)]

end Diagnostic

end BehaviorTree
