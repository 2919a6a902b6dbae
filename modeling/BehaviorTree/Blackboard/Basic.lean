/-
The blackboard: the variables of one tree.

A variable is declared once, with a value that fixes its type; `set` refuses a
value of another type. A reference made by `bind` or `bindNumber` carries the check
that was made then, and reading or writing through it makes none of its own: what
can still go wrong is that the reference is used on another blackboard than the one
it was made for, which is an `AccessError`.

Entries are kept in the order of their numbers. `put` is the one operation that
changes them, and `get?_put_self` and `get?_put_of_ne` say all that it does.
-/
import BehaviorTree.Blackboard.Value

namespace BehaviorTree

/-- The number of a variable, given by whoever loads the tree. -/
@[ext] structure VariableId where
  number : Nat
deriving DecidableEq, Repr, Inhabited

def VariableId.text (id : VariableId) : String := "$" ++ Nat.repr id.number

inductive VariableError where
  | unknown (id : VariableId)
  | duplicate (id : VariableId)
  | typeMismatch (id : VariableId) (expected found : ValueType)
  | notNumeric (id : VariableId) (found : ValueType)
deriving DecidableEq, Repr

namespace VariableError

def name : VariableError → String
  | unknown .. => "Unknown"
  | duplicate .. => "Duplicate"
  | typeMismatch .. => "TypeMismatch"
  | notNumeric .. => "NotNumeric"

def message : VariableError → String
  | unknown id => "unknown variable " ++ id.text
  | duplicate id => "variable " ++ id.text ++ " is already declared"
  | typeMismatch id expected found =>
    "variable " ++ id.text ++ " holds " ++ found.name ++ ", expected " ++ expected.name
  | notNumeric id found =>
    "variable " ++ id.text ++ " holds " ++ found.name ++ ", expected a numeric type"

end VariableError

/-- A reference no longer fits the blackboard it is used on. -/
inductive AccessError where
  | notOfType (id : VariableId) (bound : ValueType)
  | notNumber (id : VariableId)
  | gone (id : VariableId)
deriving DecidableEq, Repr

def AccessError.message : AccessError → String
  | notOfType id bound =>
    "variable type mismatch for id=" ++ id.text ++ " (bound as " ++ bound.name ++ ")"
  | notNumber id => "variable type mismatch for id=" ++ id.text ++ " (bound as number)"
  | gone id => "variable " ++ id.text ++ " disappeared after binding"

/-- A variable whose type was checked when the reference was made. -/
structure VarRef (t : ValueType) where
  id : VariableId
deriving DecidableEq, Repr

/-- A variable of a numeric type, as checked when the reference was made. -/
structure NumberRef where
  id : VariableId
deriving DecidableEq, Repr

/-- One variable with its value. -/
abbrev Entry := VariableId × Value

namespace Entries

/-- Put a value at a variable's place in the order, over the old value if there is one. -/
def put (id : VariableId) (v : Value) : List Entry → List Entry
  | [] => [(id, v)]
  | e :: rest =>
    if e.1 = id then (id, v) :: rest
    else if id.number < e.1.number then (id, v) :: e :: rest
    else e :: put id v rest

theorem mem_put {id : VariableId} {v : Value} {es : List Entry} {e : Entry}
    (h : e ∈ put id v es) : e = (id, v) ∨ e ∈ es := by
  induction es with
  | nil => simpa [put] using h
  | cons a rest ih =>
    rw [put] at h
    split at h
    · rcases List.mem_cons.1 h with h | h
      · exact .inl h
      · exact .inr (List.mem_cons_of_mem _ h)
    · split at h
      · rcases List.mem_cons.1 h with h | h
        · exact .inl h
        · exact .inr h
      · rcases List.mem_cons.1 h with h | h
        · exact .inr (h ▸ List.mem_cons_self)
        · exact (ih h).imp_right (List.mem_cons_of_mem _)

/-- By number, each variable once. -/
def Ordered (es : List Entry) : Prop := es.Pairwise fun a b => a.1.number < b.1.number

theorem Ordered.put {es : List Entry} (h : Ordered es) (id : VariableId) (v : Value) :
    Ordered (put id v es) := by
  induction es with
  | nil => simp [Entries.put, Ordered]
  | cons a rest ih =>
    have hr : Ordered rest := List.Pairwise.of_cons h
    have ha : ∀ b ∈ rest, a.1.number < b.1.number := fun b hb => List.rel_of_pairwise_cons h hb
    rw [Entries.put]
    split
    · rename_i he
      exact List.Pairwise.cons (fun b hb => he ▸ ha b hb) hr
    · rename_i he
      split
      · rename_i hlt
        refine List.Pairwise.cons (fun b hb => ?_) h
        rcases List.mem_cons.1 hb with rfl | hb
        · exact hlt
        · exact Nat.lt_trans hlt (ha b hb)
      · rename_i hlt
        have hne : a.1.number ≠ id.number := fun hn => he (VariableId.ext hn)
        refine List.Pairwise.cons (fun b hb => ?_) (ih hr)
        rcases mem_put hb with rfl | hb
        · exact Nat.lt_of_le_of_ne (Nat.le_of_not_lt hlt) hne
        · exact ha b hb

theorem lookup_put_self (id : VariableId) (v : Value) (es : List Entry) :
    (put id v es).lookup id = some v := by
  induction es with
  | nil => simp [put]
  | cons a rest ih =>
    rw [put]
    split
    · simp
    · rename_i he
      split
      · simp
      · rw [List.lookup_cons, show (id == a.1) = false by simpa using fun h => he h.symm]
        exact ih

theorem lookup_put_of_ne {id other : VariableId} (h : other ≠ id) (v : Value)
    (es : List Entry) : (put id v es).lookup other = es.lookup other := by
  have hf : (other == id) = false := by simpa using h
  induction es with
  | nil => simp [put, List.lookup_cons, hf]
  | cons a rest ih =>
    rw [put]
    split
    · rename_i he
      rw [List.lookup_cons, List.lookup_cons, he, hf]
    · split
      · rw [List.lookup_cons, hf]
      · rw [List.lookup_cons, List.lookup_cons, ih]

end Entries

/-- The variables of one tree, by number. -/
structure Blackboard where
  entries : List Entry := []
  ordered : Entries.Ordered entries := by exact List.Pairwise.nil

namespace Blackboard

instance : Inhabited Blackboard := ⟨{}⟩

def size (b : Blackboard) : Nat := b.entries.length

def isEmpty (b : Blackboard) : Bool := b.entries.isEmpty

def get? (b : Blackboard) (id : VariableId) : Option Value := b.entries.lookup id

def contains (b : Blackboard) (id : VariableId) : Bool := (b.get? id).isSome

def typeOf? (b : Blackboard) (id : VariableId) : Option ValueType := (b.get? id).map Value.type

/-- Store a value, whatever is there. -/
def put (b : Blackboard) (id : VariableId) (v : Value) : Blackboard :=
  ⟨Entries.put id v b.entries, b.ordered.put id v⟩

@[simp] theorem get?_put_self (b : Blackboard) (id : VariableId) (v : Value) :
    (b.put id v).get? id = some v :=
  Entries.lookup_put_self id v b.entries

theorem get?_put_of_ne (b : Blackboard) {id other : VariableId} (h : other ≠ id) (v : Value) :
    (b.put id v).get? other = b.get? other :=
  Entries.lookup_put_of_ne h v b.entries

/-- Declare a variable by its first value. -/
def declare (b : Blackboard) (id : VariableId) (v : Value) : Except VariableError Blackboard :=
  if b.contains id then .error (.duplicate id) else .ok (b.put id v)

/-- Store a value of the variable's own type. -/
def set (b : Blackboard) (id : VariableId) (v : Value) : Except VariableError Blackboard :=
  match b.typeOf? id with
  | none => .error (.unknown id)
  | some expected =>
    if expected ≠ v.type then .error (.typeMismatch id expected v.type) else .ok (b.put id v)

/-- A reference to a variable of type `t`. -/
def bind (b : Blackboard) (t : ValueType) (id : VariableId) : Except VariableError (VarRef t) :=
  match b.typeOf? id with
  | none => .error (.unknown id)
  | some found => if found ≠ t then .error (.typeMismatch id t found) else .ok ⟨id⟩

/-- A reference to a variable of either numeric type. -/
def bindNumber (b : Blackboard) (id : VariableId) : Except VariableError NumberRef :=
  match b.typeOf? id with
  | none => .error (.unknown id)
  | some found => if found.isNumeric then .ok ⟨id⟩ else .error (.notNumeric id found)

def read (b : Blackboard) {t : ValueType} (r : VarRef t) : Except AccessError t.Carrier :=
  match (b.get? r.id).bind (Value.as? t) with
  | some x => .ok x
  | none => .error (.notOfType r.id t)

/-- Store through a reference; only that the variable is there is checked. -/
def write (b : Blackboard) {t : ValueType} (r : VarRef t) (x : t.Carrier) :
    Except AccessError Blackboard :=
  if b.contains r.id then .ok (b.put r.id (Value.make t x)) else .error (.gone r.id)

def readNumber (b : Blackboard) (r : NumberRef) : Except AccessError Float32 :=
  match (b.get? r.id).bind Value.number? with
  | some x => .ok x
  | none => .error (.notNumber r.id)

/-- Store a number through a reference; an integer variable takes it without its
fraction. -/
def writeNumber (b : Blackboard) (r : NumberRef) (x : Float32) : Except AccessError Blackboard :=
  match b.get? r.id with
  | some (.int _) => .ok (b.put r.id (.int (Single.of x).truncate))
  | some (.float _) => .ok (b.put r.id (.float x))
  | _ => .error (.notNumber r.id)

/-- A declaration changes no variable but its own. -/
theorem eq_put_of_declare {b b' : Blackboard} {id : VariableId} {v : Value}
    (h : b.declare id v = .ok b') : b' = b.put id v := by
  unfold declare at h
  split at h
  · cases h
  · exact (Except.ok.inj h).symm

/-- A store by `set` changes no variable but its own, and keeps the type of that one. -/
theorem eq_put_of_set {b b' : Blackboard} {id : VariableId} {v : Value}
    (h : b.set id v = .ok b') : b.typeOf? id = some v.type ∧ b' = b.put id v := by
  unfold set at h
  split at h
  · cases h
  · rename_i expected ht
    split at h
    · cases h
    · rename_i he
      rw [ht, Decidable.not_not.1 he]
      exact ⟨rfl, (Except.ok.inj h).symm⟩

end Blackboard

end BehaviorTree
