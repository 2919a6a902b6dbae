/-
The values that variables hold.

There are seven types of value. `Value.convert` takes a value to another type where
that makes sense: numbers and truth values convert into each other, numbers lose
their fraction toward zero, vectors gain or lose `z`, every value has a text, and
text is read back with the blanks around it ignored. A handle to an object of the
host's converts to nothing but its text.
-/
import BehaviorTree.Number.Shortest
import BehaviorTree.Number.Reading
import BehaviorTree.Text.Blank
import BehaviorTree.Blackboard.Vector

namespace BehaviorTree

/-- A handle to an object of the host's, stored and compared but never followed. -/
structure ObjectHandle where
  number : Nat
deriving DecidableEq, Repr, Inhabited

inductive ValueType where
  | int
  | float
  | bool
  | string
  | vector2
  | vector3
  | object
deriving DecidableEq, Repr, Inhabited

namespace ValueType

def all : List ValueType := [int, float, bool, string, vector2, vector3, object]

def name : ValueType → String
  | int => "Int"
  | float => "Float"
  | bool => "Bool"
  | string => "String"
  | vector2 => "Vector2"
  | vector3 => "Vector3"
  | object => "Object"

def isNumeric : ValueType → Bool
  | int | float => true
  | _ => false

/-- What a value of the type is made of. -/
@[reducible] def Carrier : ValueType → Type
  | int => Int32
  | float => Float32
  | bool => Bool
  | string => String
  | vector2 => Vec2
  | vector3 => Vec3
  | object => ObjectHandle

end ValueType

/-- Values are compared as the numbers in them are: a NaN equals nothing, and the two
zeros are equal. -/
inductive Value where
  | int (n : Int32)
  | float (x : Float32)
  | bool (b : Bool)
  | string (s : String)
  | vector2 (v : Vec2)
  | vector3 (v : Vec3)
  | object (h : ObjectHandle)
deriving BEq, Repr, Inhabited

namespace Value

def type : Value → ValueType
  | int _ => .int
  | float _ => .float
  | bool _ => .bool
  | string _ => .string
  | vector2 _ => .vector2
  | vector3 _ => .vector3
  | object _ => .object

/-- The value of type `t` made of `x`. -/
def make : (t : ValueType) → t.Carrier → Value
  | .int, n => int n
  | .float, x => float x
  | .bool, b => bool b
  | .string, s => string s
  | .vector2, v => vector2 v
  | .vector3, v => vector3 v
  | .object, h => object h

/-- What the value is made of, if it is of type `t`. -/
def as? : (t : ValueType) → Value → Option t.Carrier
  | .int, int n => some n
  | .float, float x => some x
  | .bool, bool b => some b
  | .string, string s => some s
  | .vector2, vector2 v => some v
  | .vector3, vector3 v => some v
  | .object, object h => some h
  | _, _ => none

@[simp] theorem type_make (t : ValueType) (x : t.Carrier) : (make t x).type = t := by
  cases t <;> rfl

@[simp] theorem as?_make (t : ValueType) (x : t.Carrier) : (make t x).as? t = some x := by
  cases t <;> rfl

theorem as?_eq_some_iff {t : ValueType} {v : Value} {x : t.Carrier} :
    v.as? t = some x ↔ v = make t x := by
  constructor
  · intro h
    cases t <;> cases v <;> simp_all [as?, make]
  · rintro rfl
    exact as?_make t x

theorem isSome_as?_iff {t : ValueType} {v : Value} : (v.as? t).isSome ↔ v.type = t := by
  cases t <;> cases v <;> simp [as?, type]

/-- The number in a value of a numeric type. -/
def number? : Value → Option Float32
  | int n => some (Float32.ofInt n.toInt)
  | float x => some x
  | _ => none

theorem isSome_number?_iff {v : Value} : v.number?.isSome ↔ v.type.isNumeric := by
  cases v <;> simp [number?, type, ValueType.isNumeric]

def text : Value → String
  | int n => Int.repr n.toInt
  | float x => singleText x
  | bool b => if b then "true" else "false"
  | string s => s
  | vector2 v => "(" ++ singleText v.x ++ ", " ++ singleText v.y ++ ")"
  | vector3 v => "(" ++ singleText v.x ++ ", " ++ singleText v.y ++ ", " ++ singleText v.z ++ ")"
  | object h => "object#" ++ Nat.repr h.number

/-- The value as one of another type, or nothing where no conversion makes sense. -/
def convert (v : Value) (target : ValueType) : Option Value :=
  if v.type = target then some v
  else match v, target with
    | v, .string => some (string v.text)
    | int n, .float => some (float (Float32.ofInt n.toInt))
    | float x, .int => some (int (Single.of x).truncate)
    | int n, .bool => some (bool (n != 0))
    | float x, .bool => some (bool (x != 0))
    | bool b, .int => some (int (if b then 1 else 0))
    | bool b, .float => some (float (if b then 1 else 0))
    | string s, .int => (Reading.int32? (Blank.trim s.toList)).map int
    | string s, .float => (Reading.single? (Blank.trim s.toList)).map float
    | string s, .bool => (Reading.bool? (Blank.trim s.toList)).map bool
    | vector2 v, .vector3 => some (vector3 (v.extend 0))
    | vector3 v, .vector2 => some (vector2 v.truncate)
    | _, _ => none

end Value

end BehaviorTree
