/-
What a node is called, and what it answers after a piece of work.
-/

namespace BehaviorTree

/-- The place of a node in its graph. -/
@[ext] structure NodeId where
  index : Nat
deriving DecidableEq, Repr, Inhabited

def NodeId.text (id : NodeId) : String := "#" ++ Nat.repr id.index

/-- What a node hands back to its stack. -/
inductive Status where
  | success
  | failed
  /-- Suspend until the node is ended from outside. -/
  | wait
  /-- Suspend for one tick, then execute again. -/
  | waitUntilNextUpdate
  /-- A child was called; there is no value yet. -/
  | noReturn
  /-- Something inside the node is broken; the stack pauses. -/
  | error
deriving DecidableEq, Repr, Inhabited

namespace Status

def all : List Status := [success, failed, wait, waitUntilNextUpdate, noReturn, error]

def name : Status → String
  | success => "Success"
  | failed => "Failed"
  | wait => "Wait"
  | waitUntilNextUpdate => "WaitUntilNextUpdate"
  | noReturn => "NoReturn"
  | error => "Error"

def of (ok : Bool) : Status := if ok then success else failed

/-- How the node ended, if it did. -/
def outcome : Status → Option Bool
  | success => some true
  | failed => some false
  | _ => none

def isSuspended : Status → Bool
  | wait | waitUntilNextUpdate => true
  | _ => false

@[simp] theorem outcome_of (ok : Bool) : (of ok).outcome = some ok := by cases ok <;> rfl

end Status

/-- What a suspended leaf answers to the hook of a phase. -/
inductive HookOutcome where
  /-- Keep waiting. -/
  | running
  /-- End the node, or change how it waits. -/
  | ended (status : Status)
deriving DecidableEq, Repr, Inhabited

namespace HookOutcome

def finish (ok : Bool) : HookOutcome := ended (.of ok)

def text : HookOutcome → String
  | running => "Running"
  | ended status => "Return(" ++ status.name ++ ")"

end HookOutcome

end BehaviorTree
