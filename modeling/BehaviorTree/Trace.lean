/-
The trace: small events with a tag, in the order in which they happened.
-/

namespace BehaviorTree

/-- One event. `stack` is none for the main stack and otherwise the number of the service
node whose stack it is. -/
structure TraceEvent where
  tick : Nat
  tag : String
  stack : Option Nat := none
  node : Option Nat := none
  value : Int := 0
deriving DecidableEq, Repr, Inhabited

structure TraceLog where
  events : List TraceEvent := []
deriving DecidableEq, Repr, Inhabited

namespace TraceLog

def push (log : TraceLog) (event : TraceEvent) : TraceLog := ⟨log.events ++ [event]⟩

def withTag (log : TraceLog) (tag : String) : List TraceEvent :=
  log.events.filter (·.tag = tag)

def count (log : TraceLog) (tag : String) : Nat := log.events.countP (·.tag = tag)

def tags (log : TraceLog) : List String := log.events.map (·.tag)

end TraceLog

end BehaviorTree
