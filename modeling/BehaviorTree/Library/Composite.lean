/-
Composites that run each child at most once: sequences, selectors and conditions.

A composite remembers how far it is between two steps. Executing it starts it afresh;
each result of a child moves it on to the next child or to its own outcome.
-/
import BehaviorTree.Node.Contract

namespace BehaviorTree

/-- Runs every child in order, whatever each one returns; the last one's outcome counts. -/
structure Sequence where
  children : List NodeId
  cursor : Nat := 0
deriving DecidableEq, Repr

namespace Sequence

def execute (s : Sequence) (ctx : Context) : Step Sequence Status :=
  let s := { s with cursor := 0 }
  match s.children with
  | [] => .plain s ctx .failed
  | first :: _ => .call s ctx first

def receive (s : Sequence) (ctx : Context) (ok : Bool) : Step Sequence Status :=
  let s := { s with cursor := s.cursor + 1 }
  match s.children[s.cursor]? with
  | some next => .call s ctx next
  | none => .plain s ctx (.of ok)

end Sequence

/-- Tries its children in order until one succeeds. -/
structure Selector where
  children : List NodeId
  cursor : Nat := 0
deriving DecidableEq, Repr

namespace Selector

def execute (s : Selector) (ctx : Context) : Step Selector Status :=
  let s := { s with cursor := 0 }
  match s.children with
  | [] => .plain s ctx .failed
  | first :: _ => .call s ctx first

def receive (s : Selector) (ctx : Context) (ok : Bool) : Step Selector Status :=
  if ok then .plain s ctx .success
  else
    let s := { s with cursor := s.cursor + 1 }
    match s.children[s.cursor]? with
    | some next => .call s ctx next
    | none => .plain s ctx .failed

end Selector

/-- If and else on a condition node; where the branch is absent, the condition's own
outcome counts. -/
structure Condition where
  condition : NodeId
  onTrue : Option NodeId := none
  onFalse : Option NodeId := none
  /-- Whether a branch was called. -/
  branching : Bool := false
deriving DecidableEq, Repr

namespace Condition

def execute (c : Condition) (ctx : Context) : Step Condition Status :=
  .call { c with branching := false } ctx c.condition

def receive (c : Condition) (ctx : Context) (ok : Bool) : Step Condition Status :=
  if c.branching then .plain c ctx (.of ok)
  else match if ok then c.onTrue else c.onFalse with
    | some branch => .call { c with branching := true } ctx branch
    | none => .plain c ctx (.of ok)

def children (c : Condition) : List NodeId := c.condition :: (c.onTrue.toList ++ c.onFalse.toList)

end Condition

end BehaviorTree
