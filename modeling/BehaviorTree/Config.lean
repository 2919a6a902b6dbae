/-
The settings of a tree.
-/

namespace BehaviorTree

structure Config where
  /-- Start the root again, on a later tick, after it ended. -/
  restartOnEnd : Bool := true
  /-- Pause a stack each time it is about to deliver a child's result. -/
  pauseAfterSingleExecution : Bool := false
  /-- How many steps a stack may take in one pass before it pauses itself. -/
  maxStepsPerPass : Nat := 10000
deriving DecidableEq, Repr, Inhabited

end BehaviorTree
