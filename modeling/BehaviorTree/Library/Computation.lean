/-
Leaves that compute with variables.

Their parameters are read when they execute. A parameter or an output that was never
bound is an error of the node.
-/
import BehaviorTree.Node.Contract

namespace BehaviorTree

inductive Comparison where
  | equal
  | notEqual
  | less
  | lessOrEqual
  | greater
  | greaterOrEqual
deriving DecidableEq, Repr

namespace Comparison

def all : List Comparison := [equal, notEqual, less, lessOrEqual, greater, greaterOrEqual]

def name : Comparison → String
  | equal => "Equal"
  | notEqual => "NotEqual"
  | less => "Less"
  | lessOrEqual => "LessOrEqual"
  | greater => "Greater"
  | greaterOrEqual => "GreaterOrEqual"

/-- Every comparison with a NaN but `notEqual` is false. -/
def holds (c : Comparison) (left right : Float32) : Bool :=
  match c with
  | equal => left == right
  | notEqual => left != right
  | less => left < right
  | lessOrEqual => left ≤ right
  | greater => left > right
  | greaterOrEqual => left ≥ right

end Comparison

/-- A variable of a numeric type to write to. -/
structure NumberOutput where
  id : VariableId
  bound : Option NumberRef := none
deriving DecidableEq, Repr

/-- A variable for vectors to write to. -/
structure VectorOutput where
  id : VariableId
  bound : Option (VarRef .vector2) := none
deriving DecidableEq, Repr

/-- Two parameters, read one after the other; none if one of them is not bound. -/
def readBoth (first second : NumberField) (b : Blackboard) :
    Except AccessError (Option (Float32 × Float32)) :=
  match first.read b with
  | .error e => .error e
  | .ok x => match second.read b with
    | .error e => .error e
    | .ok y => .ok (x.bind fun x => y.map fun y => (x, y))

inductive Computation where
  /-- Copies a variable, converted to the type of the other; fails if that cannot be. -/
  | copy (source target : VariableId)
  | cosine (input : NumberField) (output : NumberOutput)
  /-- The angle of a point; the origin has none. -/
  | atan2 (y x : NumberField) (output : NumberOutput)
  | makeVector2 (x y : NumberField) (output : VectorOutput)
  | compare (left : NumberField) (comparison : Comparison) (right : NumberField)
deriving Repr

namespace Computation

/-- Bind a parameter and go on, or stop at its error with what is bound so far. -/
def binding {α : Type} (node : Computation) (bound : Except VariableError α)
    (next : α → Reply Computation (Option VariableError)) :
    Reply Computation (Option VariableError) :=
  match bound with
  | .error e => { node, answer := some e }
  | .ok a => next a

def bind (node : Computation) (b : Blackboard) : Reply Computation (Option VariableError) :=
  match node with
  | copy source target =>
    { node
      answer := ([source, target].find? (!b.contains ·)).map VariableError.unknown }
  | cosine input output =>
    binding node (input.bind b) fun input =>
    binding (cosine input output) (b.bindNumber output.id) fun ref =>
      { node := cosine input { output with bound := some ref }, answer := none }
  | atan2 y x output =>
    binding node (y.bind b) fun y =>
    binding (atan2 y x output) (x.bind b) fun x =>
    binding (atan2 y x output) (b.bindNumber output.id) fun ref =>
      { node := atan2 y x { output with bound := some ref }, answer := none }
  | makeVector2 x y output =>
    binding node (x.bind b) fun x =>
    binding (makeVector2 x y output) (y.bind b) fun y =>
    binding (makeVector2 x y output) (b.bind .vector2 output.id) fun ref =>
      { node := makeVector2 x y { output with bound := some ref }, answer := none }
  | compare left comparison right =>
    binding node (left.bind b) fun left =>
    binding (compare left comparison right) (right.bind b) fun right =>
      { node := compare left comparison right, answer := none }

/-- The variables after a copy; none if there is no conversion. -/
def copied (source target : VariableId) (b : Blackboard) : Option Blackboard :=
  match b.typeOf? target, b.get? source with
  | some type, some v => (v.convert type).bind fun w => (b.set target w).toOption
  | _, _ => none

/-- Go on with what was read, or end the step without it. -/
def reading {α : Type} (node : Computation) (ctx : Context)
    (read : Except AccessError (Option α)) (next : α → Step Computation Status) :
    Step Computation Status :=
  match read with
  | .error e => .giveUp node ctx e
  | .ok none => .plain node ctx .error
  | .ok (some a) => next a

/-- End the step with what was written. -/
def writing (node : Computation) (ctx : Context) (written : Except AccessError Blackboard) :
    Step Computation Status :=
  match written with
  | .error e => .giveUp node ctx e
  | .ok blackboard => ⟨node, .success, { blackboard }⟩

/-- Write a number to the node's output. -/
def output (node : Computation) (ctx : Context) (out : NumberOutput) (x : Float32) :
    Step Computation Status :=
  match out.bound with
  | none => .plain node ctx .error
  | some ref => writing node ctx (ctx.blackboard.writeNumber ref x)

/-- A quarter turn. -/
def quarterTurn : Float32 := Float32.ofBits 0x3fc90fdb

/-- The angle of the point `(x, y)`; on the vertical axis it is a quarter turn up or down. -/
def angle? (y x : Float32) : Option Float32 :=
  if x != 0 then some (Float32.atan2 y x)
  else if y > 0 then some quarterTurn
  else if y < 0 then some (-quarterTurn)
  else none

def execute (node : Computation) (ctx : Context) : Step Computation Status :=
  match node with
  | copy source target => match copied source target ctx.blackboard with
    | none => .plain node ctx .failed
    | some blackboard => ⟨node, .success, { blackboard }⟩
  | cosine input out =>
    reading node ctx (input.read ctx.blackboard) fun x => output node ctx out x.cos
  | atan2 y x out =>
    reading node ctx (readBoth y x ctx.blackboard) fun (y, x) =>
      match angle? y x with
      | none => .plain node ctx .failed
      | some angle => output node ctx out angle
  | makeVector2 x y out =>
    reading node ctx (readBoth x y ctx.blackboard) fun (x, y) =>
      match out.bound with
      | none => .plain node ctx .error
      | some ref => writing node ctx (ctx.blackboard.write ref ⟨x, y⟩)
  | compare left comparison right =>
    reading node ctx (readBoth left right ctx.blackboard) fun (left, right) =>
      .plain node ctx (.of (comparison.holds left right))

instance : Node Computation where
  bind := bind
  execute := execute

end Computation

end BehaviorTree
