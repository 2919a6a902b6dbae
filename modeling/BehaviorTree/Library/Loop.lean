/-
Loops: a body that runs a number of times, or for as long as a condition succeeds.
-/
import BehaviorTree.Node.Contract
import BehaviorTree.Number.Single

namespace BehaviorTree

/-- How often a loop runs its body. -/
inductive LoopKind where
  /-- A number of times, rounded up. -/
  | times (count : NumberField)
  /-- For as long as the condition succeeds before it. -/
  | whileDo (condition : NodeId)
  /-- Once, and for as long as the condition succeeds after it. -/
  | doWhile (condition : NodeId)
deriving Repr

/-- The child of a loop that runs. -/
inductive LoopPlace where
  | condition
  | body (index : Nat)
deriving DecidableEq, Repr

/-- Repeats its body, whatever comes of it, and succeeds in the end. An empty body makes
it succeed at once. -/
structure Loop where
  kind : LoopKind
  body : List NodeId
  place : LoopPlace := .body 0
  /-- Iterations completed by the present run, or by the last one. -/
  iteration : Nat := 0
  /-- The iterations to make, if they are counted. -/
  count : Nat := 0
deriving Repr

namespace Loop

def enterBody (l : Loop) (ctx : Context) : Step Loop Status :=
  let l := { l with place := .body 0 }
  match l.body with
  | [] => .plain l ctx .success
  | first :: _ => .call l ctx first

def check (l : Loop) (ctx : Context) (condition : NodeId) : Step Loop Status :=
  .call { l with place := .condition } ctx condition

def bind (l : Loop) (b : Blackboard) : Reply Loop (Option VariableError) :=
  match l.kind with
  | .times count => match count.bind b with
    | .ok count => { node := { l with kind := .times count }, answer := none }
    | .error e => { node := l, answer := some e }
  | _ => { node := l, answer := none }

def execute (l : Loop) (ctx : Context) : Step Loop Status :=
  let l := { l with iteration := 0 }
  if l.body.isEmpty then .plain l ctx .success
  else match l.kind with
    | .times count => match count.read ctx.blackboard with
      | .error e => .giveUp l ctx e
      | .ok none => .plain l ctx .error
      | .ok (some x) =>
        let l := { l with count := (Single.of x).count }
        if l.count = 0 then .plain l ctx .success else l.enterBody ctx
    | .whileDo condition => l.check ctx condition
    | .doWhile _ => l.enterBody ctx

/-- The body is done once more. -/
def nextIteration (l : Loop) (ctx : Context) : Step Loop Status :=
  let l := { l with iteration := l.iteration + 1 }
  match l.kind with
  | .times _ => if l.iteration < l.count then l.enterBody ctx else .plain l ctx .success
  | .whileDo condition | .doWhile condition => l.check ctx condition

def receive (l : Loop) (ctx : Context) (ok : Bool) : Step Loop Status :=
  match l.place with
  | .condition => if ok then l.enterBody ctx else .plain l ctx .success
  | .body i => match l.body[i + 1]? with
    | some next => .call { l with place := .body (i + 1) } ctx next
    | none => l.nextIteration ctx

def children (l : Loop) : List NodeId :=
  match l.kind with
  | .times _ => l.body
  | .whileDo condition | .doWhile condition => condition :: l.body

end Loop

end BehaviorTree
