/-
Scripted nodes: what they do is written down beforehand.

A script is a list of plays, one for each time it is turned to; the last one repeats.
A play is a list of instructions and an answer. Scripted nodes stand in for nodes of a host's
own when a tree is tried out: they note every call of a method, and they can break
every rule that a node may break.
-/
import BehaviorTree.Library.Leaf

namespace BehaviorTree

/-- The next of a list whose last element repeats, and the list from then on. -/
def following {α : Type} : List α → Option (α × List α)
  | [] => none
  | [a] => some (a, [a])
  | a :: b :: rest => some (a, b :: rest)

/-- Something that a scripted node does in a step. -/
inductive Instruction where
  | call (child : NodeId)
  | endAfter (ticks : Nat) (ok : Bool)
  | observe (tag : String)
  /-- Hand out the token of the present execution. -/
  | save (name : String)
  /-- Change the variables, or note why that cannot be. -/
  | change (f : Blackboard → Except String Blackboard)
  | note (f : Context → Blackboard → String)

namespace Effects

def note (e : Effects) (text : String) : Effects :=
  { e with messages := e.messages ++ [.note text] }

def perform (ctx : Context) (e : Effects) : Instruction → Effects
  | .call child => { e with calls := e.calls ++ [child] }
  | .endAfter ticks ok => { e with deferred := e.deferred ++ [(ticks, ok)] }
  | .observe tag => { e with observers := e.observers ++ [⟨tag⟩] }
  | .save name => { e with messages := e.messages ++ [.token name ctx.progress] }
  | .change f => match f e.blackboard with
    | .ok blackboard => { e with blackboard }
    | .error text => e.note text
  | .note f => e.note (f ctx e.blackboard)

end Effects

/-- What a script does when it is turned to; without an answer, the step has the one
that is usual for it. -/
structure Play where
  instructions : List Instruction := []
  answer : Option Status := none

/-- The plays to come. -/
abbrev Plays := List Play

/-- Turn to a script: what was asked for, the answer, and the plays from then on. -/
def Plays.turn (plays : Plays) (ctx : Context) (e : Effects) : Effects × Option Status × Plays :=
  match following plays with
  | none => (e, none, [])
  | some (play, rest) => (play.instructions.foldl (·.perform ctx) e, play.answer, rest)

instance : Action Plays where
  act plays ctx :=
    let (e, answer, rest) := plays.turn ctx { blackboard := ctx.blackboard }
    ⟨rest, answer.getD .success, e⟩

/-- A question to the variables, or answers given beforehand. -/
inductive Question where
  /-- Whether the variable is there and equals the value. -/
  | holds (id : VariableId) (v : Value)
  | answers (answers : List Bool)
  | always (answer : Bool)

instance : Predicate Question where
  holds
    | .holds id v, b => (match b.get? id with
      | none => false
      | some w => w == v, .holds id v)
    | .answers given, _ => match following given with
      | none => (false, .answers [])
      | some (answer, rest) => (answer, .answers rest)
    | .always answer, _ => (answer, .always answer)

structure Scripted where
  name : String
  /-- Variables to bind, by a type or as numbers. -/
  bindings : List (VariableId × Option ValueType) := []
  execute : Plays := []
  /-- Usually the child's result is passed on. -/
  receive : Plays := []
  onStop : List Instruction := []
  children : List NodeId := []
  /-- Scripts for the phases, if the node has hooks; usually it keeps waiting. -/
  hooks : Option (Phase → Plays) := none
  /-- Answers to whether it is ready, if the node is a service; usually it is. -/
  ready : Option (List Bool) := none
  preempts : Bool := false

namespace Scripted

/-- The first binding that fails. -/
def bindError? (b : Blackboard) (bindings : List (VariableId × Option ValueType)) :
    Option VariableError :=
  bindings.findSome? fun (id, type) =>
    match type with
    | some t => match b.bind t id with
      | .ok _ => none
      | .error e => some e
    | none => match b.bindNumber id with
      | .ok _ => none
      | .error e => some e

/-- The effects of a step that begins with a note of the call. -/
def begin (s : Scripted) (ctx : Context) (call : String) : Effects :=
  { blackboard := ctx.blackboard, messages := [.note (s.name ++ "." ++ call)] }

def word (b : Bool) : String := if b then "true" else "false"

def hookName : Phase → String
  | .update => "update"
  | .fixedUpdate => "fixed_update"
  | .lateUpdate => "late_update"

/-- A reply that is noted. -/
def noted {α : Type} (s : Scripted) (call : String) (answer : α) : Reply Scripted α :=
  { node := s, answer, messages := [.note (s.name ++ "." ++ call)] }

instance : Node Scripted where
  bind s b := s.noted "init" (bindError? b s.bindings)
  execute s ctx :=
    let (e, answer, execute) := s.execute.turn ctx (s.begin ctx "execute")
    ⟨{ s with execute }, answer.getD .success, e⟩
  receive s ctx ok :=
    let (e, answer, receive) := s.receive.turn ctx (s.begin ctx ("receive(" ++ word ok ++ ")"))
    ⟨{ s with receive }, answer.getD (.of ok), e⟩
  stop s ctx := ⟨s, (), s.onStop.foldl (·.perform ctx) (s.begin ctx "stop")⟩
  children s := s.children
  hasHooks s := s.hooks.isSome
  hook s ctx phase :=
    let hooks := s.hooks.getD fun _ => []
    let (e, answer, rest) := (hooks phase).turn ctx (s.begin ctx (hookName phase))
    ⟨{ s with hooks := some fun p => if p = phase then rest else hooks p },
      answer.elim .running .ended, e⟩
  isService s := s.ready.isSome
  isReady s _ :=
    let (answer, rest) := (following (s.ready.getD [])).getD (true, [])
    { s with ready := some rest }.noted ("is_ready=" ++ word answer) answer
  preempts s := s.preempts
  registered s := s.noted "registered" ()
  unregistered s := s.noted "unregistered" ()

end Scripted

end BehaviorTree
