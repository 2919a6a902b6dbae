/-
The parameters of nodes: a constant, or a variable. A loader gives the variable by
its number; binding, which happens once before the node first runs, turns that into
a checked reference.
-/
import BehaviorTree.Blackboard.Basic

namespace BehaviorTree

/-- A parameter of type `t`. -/
inductive Field (t : ValueType) where
  | const (x : t.Carrier)
  | unbound (id : VariableId)
  | bound (ref : VarRef t)

/-- A number as a parameter, from a variable of either numeric type. -/
inductive NumberField where
  | const (x : Float32)
  | unbound (id : VariableId)
  | bound (ref : NumberRef)
deriving Repr, Inhabited

namespace Field

variable {t : ValueType}

def bind (f : Field t) (b : Blackboard) : Except VariableError (Field t) :=
  match f with
  | unbound id => (b.bind t id).map bound
  | f => .ok f

/-- The parameter's value; none if it was never bound. -/
def read (f : Field t) (b : Blackboard) : Except AccessError (Option t.Carrier) :=
  match f with
  | const x => .ok (some x)
  | unbound _ => .ok none
  | bound ref => (b.read ref).map some

end Field

namespace NumberField

def bind (f : NumberField) (b : Blackboard) : Except VariableError NumberField :=
  match f with
  | unbound id => (b.bindNumber id).map bound
  | f => .ok f

/-- The parameter's value; none if it was never bound. -/
def read (f : NumberField) (b : Blackboard) : Except AccessError (Option Float32) :=
  match f with
  | const x => .ok (some x)
  | unbound _ => .ok none
  | bound ref => (b.readNumber ref).map some

end NumberField

end BehaviorTree
