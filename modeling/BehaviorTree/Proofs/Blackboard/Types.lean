/-
The types of variables, and the references that rely on them.

A variable that is declared stays declared, with the type that its first value had: `set`
refuses any other, and a write through a reference stores what the reference was checked
for. So a reference that fitted once goes on to fit, and a parameter that was bound can be
read for good.
-/
import BehaviorTree.Blackboard.Field

namespace BehaviorTree

namespace Blackboard

variable {b b' b'' : Blackboard} {id other : VariableId} {v : Value} {t : ValueType}

/-- Every variable of the first is one of the second, of the same type. -/
def Keeps (b b' : Blackboard) : Prop := ∀ id t, b.typeOf? id = some t → b'.typeOf? id = some t

theorem Keeps.refl (b : Blackboard) : b.Keeps b := fun _ _ h => h

theorem Keeps.trans (h : b.Keeps b') (h' : b'.Keeps b'') : b.Keeps b'' :=
  fun id t ht => h' id t (h id t ht)

theorem contains_of_typeOf? (h : b.typeOf? id = some t) : b.contains id := by
  obtain ⟨v, hv, -⟩ := Option.map_eq_some_iff.1 h
  simp [contains, hv]

theorem keeps_put (h : ∀ t, b.typeOf? id = some t → v.type = t) : b.Keeps (b.put id v) := by
  intro other t ht
  by_cases ho : other = id
  · subst ho
    simp [typeOf?, h t ht]
  · rw [← ht]
    simp [typeOf?, get?_put_of_ne b ho]

theorem keeps_of_declare (h : b.declare id v = .ok b') : b.Keeps b' := by
  rw [eq_put_of_declare h]
  refine keeps_put fun t ht => ?_
  simp [declare, contains_of_typeOf? ht] at h

theorem keeps_of_set (h : b.set id v = .ok b') : b.Keeps b' := by
  obtain ⟨hv, rfl⟩ := eq_put_of_set h
  refine keeps_put fun t ht => ?_
  rw [hv] at ht
  exact Option.some.inj ht

/-- The second came of the first by declaring and setting variables. -/
inductive Edited : Blackboard → Blackboard → Prop
  | refl (b : Blackboard) : Edited b b
  | declare {b b' b'' : Blackboard} {id : VariableId} {v : Value} (h : Edited b b')
      (hd : b'.declare id v = .ok b'') : Edited b b''
  | set {b b' b'' : Blackboard} {id : VariableId} {v : Value} (h : Edited b b')
      (hs : b'.set id v = .ok b'') : Edited b b''

theorem Edited.keeps (h : Edited b b') : b.Keeps b' := by
  induction h with
  | refl => exact .refl b
  | declare _ hd ih => exact ih.trans (keeps_of_declare hd)
  | set _ hs ih => exact ih.trans (keeps_of_set hs)

theorem Keeps.contains (h : b.Keeps b') (hc : b.contains id) : b'.contains id := by
  obtain ⟨v, hv⟩ := Option.isSome_iff_exists.1 hc
  exact contains_of_typeOf? (h id v.type (by simp [typeOf?, hv]))

/-- A reference that could be made can be made later. -/
theorem Keeps.bind {r : VarRef t} (h : b.Keeps b') (hr : b.bind t id = .ok r) :
    b'.bind t id = .ok r := by
  unfold Blackboard.bind at hr ⊢
  cases hf : b.typeOf? id with
  | none => simp [hf] at hr
  | some found => simpa [hf, h id found hf] using hr

theorem Keeps.bindNumber {r : NumberRef} (h : b.Keeps b') (hr : b.bindNumber id = .ok r) :
    b'.bindNumber id = .ok r := by
  unfold Blackboard.bindNumber at hr ⊢
  cases hf : b.typeOf? id with
  | none => simp [hf] at hr
  | some found => simpa [hf, h id found hf] using hr

end Blackboard

/-! ## References -/

namespace VarRef

variable {t : ValueType} {r : VarRef t} {b b' : Blackboard}

/-- The variable is there, of the type that the reference was made for. -/
def Fits (r : VarRef t) (b : Blackboard) : Prop := b.typeOf? r.id = some t

theorem Fits.keeps (h : r.Fits b) (hk : b.Keeps b') : r.Fits b' := hk _ _ h

theorem fits_of_bind {id : VariableId} (h : b.bind t id = .ok r) : r.Fits b := by
  unfold Blackboard.bind at h
  split at h
  · cases h
  next found hf =>
  split at h
  · cases h
  next ht =>
  cases h
  exact hf.trans (congrArg some (Decidable.not_not.1 ht))

theorem Fits.read (h : r.Fits b) : ∃ x, b.read r = .ok x := by
  obtain ⟨v, hv, hvt⟩ := Option.map_eq_some_iff.1 h
  obtain ⟨x, hx⟩ := Option.isSome_iff_exists.1 (Value.isSome_as?_iff.2 hvt)
  exact ⟨x, by simp [Blackboard.read, hv, hx]⟩

theorem Fits.write (h : r.Fits b) (x : t.Carrier) : ∃ b', b.write r x = .ok b' ∧ b.Keeps b' := by
  refine ⟨b.put r.id (Value.make t x), ?_, Blackboard.keeps_put fun t' ht => ?_⟩
  · simp [Blackboard.write, Blackboard.contains_of_typeOf? h]
  · rw [show b.typeOf? r.id = some t from h] at ht
    rw [Value.type_make, Option.some.inj ht]

end VarRef

namespace NumberRef

variable {r : NumberRef} {b b' : Blackboard}

/-- The variable is there, of a numeric type. -/
def Fits (r : NumberRef) (b : Blackboard) : Prop := ∃ t, b.typeOf? r.id = some t ∧ t.isNumeric

theorem Fits.keeps (h : r.Fits b) (hk : b.Keeps b') : r.Fits b' := by
  obtain ⟨t, ht, hn⟩ := h
  exact ⟨t, hk _ _ ht, hn⟩

theorem fits_of_bindNumber {id : VariableId} (h : b.bindNumber id = .ok r) : r.Fits b := by
  unfold Blackboard.bindNumber at h
  split at h
  · cases h
  next found hf =>
  split at h
  · next hn =>
    cases h
    exact ⟨found, hf, hn⟩
  · cases h

theorem Fits.read (h : r.Fits b) : ∃ x, b.readNumber r = .ok x := by
  obtain ⟨t, ht, hn⟩ := h
  obtain ⟨v, hv, rfl⟩ := Option.map_eq_some_iff.1 ht
  obtain ⟨x, hx⟩ := Option.isSome_iff_exists.1 (Value.isSome_number?_iff.2 hn)
  exact ⟨x, by simp [Blackboard.readNumber, hv, hx]⟩

theorem Fits.write (h : r.Fits b) (x : Float32) :
    ∃ b', b.writeNumber r x = .ok b' ∧ b.Keeps b' := by
  obtain ⟨t, ht, hn⟩ := h
  obtain ⟨v, hv, rfl⟩ := Option.map_eq_some_iff.1 ht
  have hput : ∀ w : Value, w.type = v.type → b.Keeps (b.put r.id w) := fun w hw =>
    Blackboard.keeps_put fun t ht' => hw.trans (Option.some.inj (ht.symm.trans ht'))
  cases v with
  | int n =>
    refine ⟨b.put r.id (.int (Single.of x).truncate), ?_, hput _ rfl⟩
    simp only [Blackboard.writeNumber, hv]
  | float y =>
    refine ⟨b.put r.id (.float x), ?_, hput _ rfl⟩
    simp only [Blackboard.writeNumber, hv]
  | bool _ | string _ | vector2 _ | vector3 _ | object _ => cases hn

end NumberRef

/-! ## Parameters -/

namespace Field

variable {t : ValueType} {f f' : Field t} {b b' : Blackboard}

/-- If the parameter is bound, its reference fits. -/
def Fits (f : Field t) (b : Blackboard) : Prop := ∀ r, f = .bound r → r.Fits b

/-- Nothing is left to bind. -/
def Ready (f : Field t) : Prop := ∀ id, f ≠ .unbound id

theorem Fits.keeps (h : f.Fits b) (hk : b.Keeps b') : f.Fits b' := fun r hr => (h r hr).keeps hk

theorem Fits.bind (h : f.Fits b) (hb : f.bind b = .ok f') : f'.Fits b ∧ f'.Ready := by
  cases f with
  | unbound id =>
    cases hr : b.bind t id with
    | error e => simp [Field.bind, hr, Except.map] at hb
    | ok r =>
      obtain rfl : .bound r = f' := by simpa [Field.bind, hr, Except.map] using hb
      refine ⟨fun r' hr' => ?_, nofun⟩
      cases hr'
      exact VarRef.fits_of_bind hr
  | const _ | bound _ =>
    cases hb
    exact ⟨h, nofun⟩

theorem Fits.read (h : f.Fits b) (hr : f.Ready) : ∃ x, f.read b = .ok (some x) := by
  cases f with
  | const x => exact ⟨x, rfl⟩
  | unbound id => exact absurd rfl (hr id)
  | bound r =>
    obtain ⟨x, hx⟩ := (h r rfl).read
    exact ⟨x, by simp [Field.read, hx, Except.map]⟩

/-- What is bound once is bound alike later, from the beginning or from there on. -/
theorem bind_again (hk : b.Keeps b') (h : f.bind b = .ok f') :
    f.bind b' = .ok f' ∧ f'.bind b' = .ok f' := by
  cases f with
  | unbound id =>
    cases hr : b.bind t id with
    | error e => simp [Field.bind, hr, Except.map] at h
    | ok r =>
      obtain rfl : .bound r = f' := by simpa [Field.bind, hr, Except.map] using h
      exact ⟨by simp [Field.bind, hk.bind hr, Except.map], rfl⟩
  | const _ | bound _ =>
    cases h
    exact ⟨rfl, rfl⟩

end Field

namespace NumberField

variable {f f' : NumberField} {b b' : Blackboard}

/-- If the parameter is bound, its reference fits. -/
def Fits (f : NumberField) (b : Blackboard) : Prop := ∀ r, f = .bound r → r.Fits b

/-- Nothing is left to bind. -/
def Ready (f : NumberField) : Prop := ∀ id, f ≠ .unbound id

theorem Fits.keeps (h : f.Fits b) (hk : b.Keeps b') : f.Fits b' := fun r hr => (h r hr).keeps hk

theorem Fits.bind (h : f.Fits b) (hb : f.bind b = .ok f') : f'.Fits b ∧ f'.Ready := by
  cases f with
  | unbound id =>
    cases hr : b.bindNumber id with
    | error e => simp [NumberField.bind, hr, Except.map] at hb
    | ok r =>
      obtain rfl : .bound r = f' := by simpa [NumberField.bind, hr, Except.map] using hb
      refine ⟨fun r' hr' => ?_, nofun⟩
      cases hr'
      exact NumberRef.fits_of_bindNumber hr
  | const _ | bound _ =>
    cases hb
    exact ⟨h, nofun⟩

theorem Fits.read (h : f.Fits b) (hr : f.Ready) : ∃ x, f.read b = .ok (some x) := by
  cases f with
  | const x => exact ⟨x, rfl⟩
  | unbound id => exact absurd rfl (hr id)
  | bound r =>
    obtain ⟨x, hx⟩ := (h r rfl).read
    exact ⟨x, by simp [NumberField.read, hx, Except.map]⟩

/-- What is bound once is bound alike later, from the beginning or from there on. -/
theorem bind_again (hk : b.Keeps b') (h : f.bind b = .ok f') :
    f.bind b' = .ok f' ∧ f'.bind b' = .ok f' := by
  cases f with
  | unbound id =>
    cases hr : b.bindNumber id with
    | error e => simp [NumberField.bind, hr, Except.map] at h
    | ok r =>
      obtain rfl : .bound r = f' := by simpa [NumberField.bind, hr, Except.map] using h
      exact ⟨by simp [NumberField.bind, hk.bindNumber hr, Except.map], rfl⟩
  | const _ | bound _ =>
    cases h
    exact ⟨rfl, rfl⟩

end NumberField

end BehaviorTree
