/-
The domain's types as JSON.

A record is an object, or an array of its fields in order; members of other names are
passed over, and none may occur twice. An absent or null optional field is nothing.
A case of an enumeration is its name, or an object with the name and null; a value
is an object of one member, named for its type. Numbers of variables and objects are
written bare.
-/
import BehaviorTree.Json.Basic
import BehaviorTree.Blackboard.Basic
import BehaviorTree.Clock
import BehaviorTree.Config
import BehaviorTree.Trace

namespace BehaviorTree.Json

def bool? : Json → Option Bool
  | bool b => some b
  | _ => none

def text? : Json → Option String
  | string text => text
  | _ => none

def int? : Json → Option Int
  | number n => n.toInt?
  | _ => none

def single? : Json → Option Float32
  | number n => n.toSingle?
  | _ => none

def items? : Json → Option (List Json)
  | array items => some items
  | _ => none

/-- The first member of that name. -/
def member? (j : Json) (name : String) : Option Json :=
  match j with
  | object members => members.lookup (some name)
  | _ => none

/-- An integer from 0 up to `2 ^ bits`. -/
def natural? (bits : Nat) (j : Json) : Option Nat :=
  match j.int? with
  | some i => if 0 ≤ i ∧ i < Nat.pow 2 bits then some i.toNat else none
  | none => none

/-- An integer in two's complement of `bits + 1` bits. -/
def signed? (bits : Nat) (j : Json) : Option Int :=
  match j.int? with
  | some i => if -(Nat.pow 2 bits : Int) ≤ i ∧ i < Nat.pow 2 bits then some i else none
  | none => none

/-- What `read` makes of an optional member. -/
def optional? {α : Type} (read : Json → Option α) : Option Json → Option (Option α)
  | none | some null => some none
  | some j => (read j).map some

/-- Whether all array fields of a record have to be there. -/
inductive Arity where
  | full
  | upTo
deriving DecidableEq

/-- The members of a record with the fields `names`, in the order of `names`. -/
def fields? (names : List String) (arity : Arity) : Json → Option (List (Option Json))
  | object members =>
    let known := members.filterMap fun (name, value) => name.map fun name => (name, value)
    if members.any (·.1.isNone) then none
    else if names.any fun name => known.countP (·.1 = name) > 1 then none
    else some (names.map fun name => known.lookup name)
  | array items =>
    if items.length > names.length || (arity = .full && items.length < names.length) then none
    else some (names.mapIdx fun i _ => items[i]?)
  | _ => none

/-- The case of an enumeration. -/
def case? {α : Type} (all : List α) (name : α → String) (j : Json) : Option α :=
  let text := match j with
    | string text => text
    | object [(text, null)] => text
    | _ => none
  text.bind fun text => all.find? (name · = text)

def vec2? (j : Json) : Option Vec2 :=
  match j.fields? ["x", "y"] .full with
  | some [some x, some y] => match x.single?, y.single? with
    | some x, some y => some ⟨x, y⟩
    | _, _ => none
  | _ => none

def vec3? (j : Json) : Option Vec3 :=
  match j.fields? ["x", "y", "z"] .full with
  | some [some x, some y, some z] => match x.single?, y.single?, z.single? with
    | some x, some y, some z => some ⟨x, y, z⟩
    | _, _, _ => none
  | _ => none

def objectHandle? (j : Json) : Option ObjectHandle := (j.natural? 64).map ObjectHandle.mk

def variableId? (j : Json) : Option VariableId := (j.natural? 64).map VariableId.mk

def valueType? : Json → Option ValueType := case? ValueType.all ValueType.name

def phase? : Json → Option Phase := case? Phase.all Phase.name

/-- What a value of type `t` is made of. -/
def carrier? : (t : ValueType) → Json → Option t.Carrier
  | .int, j => (j.signed? 31).map Int32.ofInt
  | .float, j => j.single?
  | .bool, j => j.bool?
  | .string, j => j.text?
  | .vector2, j => j.vec2?
  | .vector3, j => j.vec3?
  | .object, j => j.objectHandle?

/-- A value, whose type is named and whose parts `read` takes. -/
def valueBy? (read : (t : ValueType) → Json → Option t.Carrier) : Json → Option Value
  | object [(some name, j)] => match ValueType.all.find? (·.name = name) with
    | some t => (read t j).map (Value.make t)
    | none => none
  | _ => none

def value? : Json → Option Value := valueBy? carrier?

def config? (j : Json) : Option Config :=
  let default : Config := {}
  match j.fields? ["restart_on_end", "pause_after_single_execution", "max_steps_per_pass"] .upTo with
  | some [restart, pause, steps] =>
    let restart := match restart with
      | none => some default.restartOnEnd
      | some j => j.bool?
    let pause := match pause with
      | none => some default.pauseAfterSingleExecution
      | some j => j.bool?
    let steps := match steps with
      | none => some default.maxStepsPerPass
      | some j => j.natural? 32
    match restart, pause, steps with
    | some restartOnEnd, some pauseAfterSingleExecution, some maxStepsPerPass =>
      some { restartOnEnd, pauseAfterSingleExecution, maxStepsPerPass }
    | _, _, _ => none
  | _ => none

def traceEvent? (j : Json) : Option TraceEvent :=
  match j.fields? ["tick", "tag", "stack", "node", "value"] .full with
  | some [some tick, some tag, stack, node, some value] =>
    match tick.natural? 64, tag.text?, optional? (natural? 32) stack, optional? (natural? 32) node,
        value.signed? 63 with
    | some tick, some tag, some stack, some node, some value =>
      some { tick, tag, stack, node, value }
    | _, _, _, _, _ => none
  | _ => none

def traceLog? (j : Json) : Option TraceLog :=
  match j.fields? ["events"] .full with
  | some [some (array items)] => (items.mapM traceEvent?).map TraceLog.mk
  | _ => none

/-! ## Writing -/

def ofText (s : String) : Json := string (some s)

def ofInt (i : Int) : Json := number (.ofInt i)

def ofNat (n : Nat) : Json := ofInt n

/-- What is not finite has no spelling and becomes null. -/
def ofSingle (x : Float32) : Json :=
  match Numeral.ofSingle? x with
  | some n => number n
  | none => null

def ofOption {α : Type} (write : α → Json) : Option α → Json
  | some a => write a
  | none => null

def ofFields (fields : List (String × Json)) : Json :=
  object (fields.map fun (name, value) => (some name, value))

def ofVec2 (v : Vec2) : Json := ofFields [("x", ofSingle v.x), ("y", ofSingle v.y)]

def ofVec3 (v : Vec3) : Json :=
  ofFields [("x", ofSingle v.x), ("y", ofSingle v.y), ("z", ofSingle v.z)]

def ofObjectHandle (h : ObjectHandle) : Json := ofNat h.number

def ofVariableId (id : VariableId) : Json := ofNat id.number

def ofValue (v : Value) : Json :=
  let made := match v with
    | .int n => ofInt n.toInt
    | .float x => ofSingle x
    | .bool b => bool b
    | .string s => ofText s
    | .vector2 v => ofVec2 v
    | .vector3 v => ofVec3 v
    | .object h => ofObjectHandle h
  ofFields [(v.type.name, made)]

def ofConfig (c : Config) : Json :=
  ofFields
    [("restart_on_end", bool c.restartOnEnd),
     ("pause_after_single_execution", bool c.pauseAfterSingleExecution),
     ("max_steps_per_pass", ofNat c.maxStepsPerPass)]

def ofTraceEvent (e : TraceEvent) : Json :=
  ofFields
    [("tick", ofNat e.tick), ("tag", ofText e.tag), ("stack", ofOption ofNat e.stack),
     ("node", ofOption ofNat e.node), ("value", ofInt e.value)]

def ofTraceLog (log : TraceLog) : Json := ofFields [("events", array (log.events.map ofTraceEvent))]

end BehaviorTree.Json
