/-
The four calls that store to a variable, and the types they leave.

`declare` takes a number that is free, `set` compares the types, a write through a number
reference looks at what is there. Each of them refuses or breaks sooner than it would change
a type. A write through a typed reference looks only whether the variable is there: it
stores what the reference was made for, on whatever blackboard it is used. So a variable
keeps its type for as long as what is written to it comes through references of that type,
and no longer.
-/
import BehaviorTree.Proofs.Blackboard.Types

namespace BehaviorTree

/-- A call that stores to a variable. -/
inductive Edit where
  | declare (id : VariableId) (v : Value)
  | set (id : VariableId) (v : Value)
  | write {t : ValueType} (r : VarRef t) (x : t.Carrier)
  | writeNumber (r : NumberRef) (x : Float32)

/-- How a call on a blackboard fails: it is answered by an error, or it breaks. -/
inductive Failure where
  | refused (error : VariableError)
  | broken (error : AccessError)
deriving DecidableEq, Repr

@[simp] theorem mapError_ok {ε ε' α : Type} (f : ε → ε') (x : α) :
    (Except.ok x : Except ε α).mapError f = .ok x := rfl

@[simp] theorem mapError_error {ε ε' α : Type} (f : ε → ε') (e : ε) :
    (Except.error e : Except ε α).mapError f = .error (f e) := rfl

namespace Edit

/-- The variable that the call is about. -/
def target : Edit → VariableId
  | declare id _ | set id _ => id
  | write r _ => r.id
  | writeNumber r _ => r.id

/-- What the call stores in a variable that held `old`. -/
def value : Edit → Option Value → Value
  | declare _ v, _ | set _ v, _ => v
  | @write t _ x, _ => Value.make t x
  | writeNumber _ x, some (.int _) => .int (Single.of x).truncate
  | writeNumber _ x, _ => .float x

/-- What the call would store can be held by a variable of type `t`. -/
def Suits : Edit → ValueType → Prop
  | declare _ v, t | set _ v, t => v.type = t
  | @write s _ _, t => s = t
  | writeNumber _ _, t => t.isNumeric

/-- What is asked of the variable's type, if it has one, before anything is stored. -/
def Accepts : Edit → Option ValueType → Prop
  | declare _ _, found => found = none
  | set _ v, found => found = some v.type
  | write _ _, found => found ≠ none
  | writeNumber _ _, found => ∃ t, found = some t ∧ t.isNumeric

/-- A write to the variable through a reference of another type than `t`. -/
def Retypes (id : VariableId) (t : ValueType) : Edit → Prop
  | @write s r _ => r.id = id ∧ s ≠ t
  | _ => False

def attempt (b : Blackboard) : Edit → Except Failure Blackboard
  | declare id v => (b.declare id v).mapError .refused
  | set id v => (b.set id v).mapError .refused
  | write r x => (b.write r x).mapError .broken
  | writeNumber r x => (b.writeNumber r x).mapError .broken

/-- All that a call does: one variable is stored to, if the call accepts its type. -/
theorem attempt_of_accepts {b : Blackboard} {e : Edit} (h : e.Accepts (b.typeOf? e.target)) :
    e.attempt b = .ok (b.put e.target (e.value (b.get? e.target))) := by
  cases e with
  | declare id v =>
    have hc : b.contains id = false := by
      simpa [Accepts, target, Blackboard.typeOf?, Blackboard.contains] using h
    simp [attempt, Blackboard.declare, hc, target, value]
  | set id v =>
    have ht : b.typeOf? id = some v.type := h
    simp [attempt, Blackboard.set, ht, target, value]
  | write r x =>
    have hc : b.contains r.id := by
      simpa [Accepts, target, Blackboard.typeOf?, Blackboard.contains, Option.isSome_iff_ne_none]
        using h
    simp [attempt, Blackboard.write, hc, target, value]
  | writeNumber r x =>
    obtain ⟨t, ht, hn⟩ := h
    obtain ⟨v, hv, rfl⟩ := Option.map_eq_some_iff.1 ht
    replace hv : b.get? r.id = some v := hv
    cases v with
    | int n | float y => simp [attempt, Blackboard.writeNumber, hv, target, value]
    | bool _ | string _ | vector2 _ | vector3 _ | object _ => cases hn

theorem attempt_of_not_accepts {b : Blackboard} {e : Edit} (h : ¬e.Accepts (b.typeOf? e.target)) :
    ∃ failure, e.attempt b = .error failure := by
  cases e with
  | declare id v =>
    have hc : b.contains id := by
      simpa [Accepts, target, Blackboard.typeOf?, Blackboard.contains, Option.isSome_iff_ne_none]
        using h
    exact ⟨.refused (.duplicate id), by simp [attempt, Blackboard.declare, hc]⟩
  | set id v =>
    replace h : b.typeOf? id ≠ some v.type := h
    cases ht : b.typeOf? id with
    | none => exact ⟨.refused (.unknown id), by simp [attempt, Blackboard.set, ht]⟩
    | some t =>
      have hne : t ≠ v.type := fun he => h (he ▸ ht)
      exact ⟨.refused (.typeMismatch id t v.type), by
        simp [attempt, Blackboard.set, ht, hne]⟩
  | write r x =>
    have hc : b.contains r.id = false := by
      simpa [Accepts, target, Blackboard.typeOf?, Blackboard.contains] using h
    exact ⟨.broken (.gone r.id), by simp [attempt, Blackboard.write, hc]⟩
  | writeNumber r x =>
    refine ⟨.broken (.notNumber r.id), ?_⟩
    cases hv : b.get? r.id with
    | none => simp [attempt, Blackboard.writeNumber, hv]
    | some v =>
      have ht : b.typeOf? r.id = some v.type := by simp [Blackboard.typeOf?, hv]
      cases v with
      | int _ | float _ => exact absurd ⟨_, ht, rfl⟩ h
      | bool _ | string _ | vector2 _ | vector3 _ | object _ =>
        simp [attempt, Blackboard.writeNumber, hv]

/-- The calls look at the type of a variable that is there, all but a write through a typed
reference. -/
theorem suits_of_accepts {e : Edit} {t : ValueType} (h : e.Accepts (some t))
    (hr : ¬e.Retypes e.target t) : e.Suits t := by
  cases e with
  | declare _ _ => cases h
  | set _ v => exact (Option.some.inj h).symm
  | write r x => exact Classical.not_not.1 fun hne => hr ⟨rfl, hne⟩
  | writeNumber r x =>
    obtain ⟨t', ht, hn⟩ := h
    cases ht
    exact hn

/-- A value that is stored as it should be is of the variable's type. -/
theorem type_value {e : Edit} {v : Value} (h : e.Suits v.type) :
    (e.value (some v)).type = v.type := by
  cases e with
  | declare _ _ | set _ _ => exact h
  | write r x => exact (Value.type_make _ x).trans h
  | writeNumber r x => cases v <;> first | rfl | cases h

end Edit

namespace Blackboard

variable {b : Blackboard} {e : Edit} {id : VariableId} {t : ValueType}

/-- The blackboard after a call, and the failure if it failed. -/
def edit (b : Blackboard) (e : Edit) : Blackboard × Option Failure :=
  match e.attempt b with
  | .ok b' => (b', none)
  | .error failure => (b, some failure)

/-- The blackboard after the calls, whether they failed or not. -/
def editAll (b : Blackboard) (edits : List Edit) : Blackboard :=
  edits.foldl (fun b e => (b.edit e).1) b

theorem edit_of_accepts (h : e.Accepts (b.typeOf? e.target)) :
    b.edit e = (b.put e.target (e.value (b.get? e.target)), none) := by
  simp [edit, Edit.attempt_of_accepts h]

theorem edit_of_not_accepts (h : ¬e.Accepts (b.typeOf? e.target)) :
    ∃ failure, b.edit e = (b, some failure) := by
  obtain ⟨failure, hf⟩ := Edit.attempt_of_not_accepts h
  exact ⟨failure, by simp [edit, hf]⟩

/-- A failed call changes nothing. -/
theorem edit_of_failure {failure : Failure} (h : (b.edit e).2 = some failure) :
    (b.edit e).1 = b := by
  unfold edit at h ⊢
  split at h
  · cases h
  · rfl

/-- A call changes no variable but its own. -/
theorem get?_edit_of_ne (h : id ≠ e.target) : (b.edit e).1.get? id = b.get? id := by
  by_cases ha : e.Accepts (b.typeOf? e.target)
  · rw [edit_of_accepts ha]
    exact get?_put_of_ne b h _
  · obtain ⟨failure, hf⟩ := edit_of_not_accepts ha
    rw [hf]

/-- After a call that did not fail, its variable holds what it stores. -/
theorem get?_edit_target (h : (b.edit e).2 = none) :
    (b.edit e).1.get? e.target = some (e.value (b.get? e.target)) := by
  by_cases ha : e.Accepts (b.typeOf? e.target)
  · rw [edit_of_accepts ha]
    exact get?_put_self b _ _
  · obtain ⟨failure, hf⟩ := edit_of_not_accepts ha
    rw [hf] at h
    cases h

/-- A call keeps the type of a variable that is there, unless it is a write through a
reference of another type. -/
theorem typeOf?_edit (h : b.typeOf? id = some t) (hr : ¬e.Retypes id t) :
    (b.edit e).1.typeOf? id = some t := by
  by_cases hid : id = e.target
  · subst hid
    by_cases ha : e.Accepts (b.typeOf? e.target)
    · obtain ⟨v, hv, rfl⟩ := Option.map_eq_some_iff.1 h
      have hs : e.Suits v.type := Edit.suits_of_accepts (h ▸ ha) hr
      simp [edit_of_accepts ha, typeOf?, hv, Edit.type_value hs]
    · obtain ⟨failure, hf⟩ := edit_of_not_accepts ha
      rw [hf]
      exact h
  · rw [typeOf?, get?_edit_of_ne hid]
    exact h

/-- A variable keeps its type through every run of calls in which what is written to it by
reference comes through references of that type. At each later point a call that would store
a value of another type, and is not such a write, fails and changes nothing. -/
theorem typeOf?_editAll (b : Blackboard) (edits : List Edit) (h : b.typeOf? id = some t)
    (hr : ∀ e ∈ edits, ¬e.Retypes id t) :
    (b.editAll edits).typeOf? id = some t ∧
      ∀ e : Edit, e.target = id → ¬e.Suits t → ¬e.Retypes id t →
        ∃ failure, (b.editAll edits).edit e = (b.editAll edits, some failure) := by
  have ht : (b.editAll edits).typeOf? id = some t := by
    induction edits generalizing b with
    | nil => exact h
    | cons e rest ih =>
      exact ih (b.edit e).1 (typeOf?_edit h (hr e List.mem_cons_self)) fun e he =>
        hr e (List.mem_cons_of_mem _ he)
  refine ⟨ht, fun e he hs hne => edit_of_not_accepts fun ha => hs ?_⟩
  subst he
  exact Edit.suits_of_accepts (ht ▸ ha) hne

/-! ### One number on two blackboards -/

/-- Where `$1` is a truth value. -/
def switched : Blackboard := editAll default [.declare ⟨1⟩ (.bool true)]

/-- Where `$1` is an integer. -/
def counting : Blackboard := editAll default [.declare ⟨1⟩ (.int 10)]

/-- What may be done to the integer. -/
def tally : List Edit :=
  [.set ⟨1⟩ (.int 5), .write (⟨⟨1⟩⟩ : VarRef .int) 7, .declare ⟨1⟩ (.bool true),
    .writeNumber ⟨⟨1⟩⟩ 2.5]

theorem typeOf?_editAll_counting :
    counting.typeOf? ⟨1⟩ = some .int ∧ (counting.editAll tally).typeOf? ⟨1⟩ = some .int ∧
      ∃ failure, (counting.editAll tally).edit (.set ⟨1⟩ (.bool true)) =
        (counting.editAll tally, some failure) := by
  obtain ⟨ht, hf⟩ := typeOf?_editAll counting tally (show counting.typeOf? ⟨1⟩ = some .int from rfl)
    (by simp [tally, Edit.Retypes])
  exact ⟨rfl, ht, hf _ rfl (by simp [Edit.Suits, Value.type]) id⟩

/-- A reference bound on the one turns the integer of the other into a truth value. -/
theorem retyped_by_write :
    switched.bind .bool ⟨1⟩ = .ok ⟨⟨1⟩⟩ ∧ counting.typeOf? ⟨1⟩ = some .int ∧
      (counting.edit (.write (⟨⟨1⟩⟩ : VarRef .bool) false)).2 = none ∧
      (counting.edit (.write (⟨⟨1⟩⟩ : VarRef .bool) false)).1.typeOf? ⟨1⟩ = some .bool :=
  ⟨rfl, rfl, rfl, rfl⟩

end Blackboard

end BehaviorTree
