/-
The copy of a variable.

A copy goes through just when the source can be converted to the type that the target has. The
target then holds the converted value, of its own type, so the store is never refused; all
other variables are as before, and a copy that fails changes nothing. Copying again
changes nothing more, also where a variable is copied onto itself.
-/
import BehaviorTree.Proofs.Blackboard.Conversion
import BehaviorTree.Library.Computation

namespace BehaviorTree

namespace Entries

theorem put_put (id : VariableId) (v w : Value) (es : List Entry) :
    put id v (put id w es) = put id v es := by
  induction es with
  | nil => simp [put]
  | cons e rest ih =>
    simp only [put]
    split
    · simp [put]
    next he =>
    split
    · simp [put]
    · next hlt => rw [put, if_neg he, if_neg hlt, ih]

end Entries

namespace Blackboard

variable {b : Blackboard} {id source target : VariableId} {v w : Value}

theorem put_put (b : Blackboard) (id : VariableId) (v w : Value) :
    (b.put id w).put id v = b.put id v := by
  simp only [put, Entries.put_put]

theorem typeOf?_put (b : Blackboard) (id : VariableId) (v : Value) :
    (b.put id v).typeOf? id = some v.type := by
  simp [typeOf?]

theorem typeOf?_put_of_ne (b : Blackboard) (v : Value) {other : VariableId} (h : other ≠ id) :
    (b.put id v).typeOf? other = b.typeOf? other := by
  simp only [typeOf?, get?_put_of_ne b h]

theorem set_of_typeOf? (h : b.typeOf? id = some v.type) : b.set id v = .ok (b.put id v) := by
  simp [set, h]

/-- The value of `source` as one of the type that `target` has. -/
def conversion? (b : Blackboard) (source target : VariableId) : Option Value :=
  (b.typeOf? target).bind fun t => (b.get? source).bind (·.convert t)

theorem conversion?_eq_some_iff : b.conversion? source target = some w ↔
    ∃ v t, b.get? source = some v ∧ b.typeOf? target = some t ∧ v.convert t = some w := by
  simp only [conversion?, Option.bind_eq_some_iff]
  constructor
  · rintro ⟨t, ht, v, hv, hw⟩
    exact ⟨v, t, hv, ht, hw⟩
  · rintro ⟨v, t, hv, ht, hw⟩
    exact ⟨t, ht, v, hv, hw⟩

theorem typeOf?_of_conversion? (h : b.conversion? source target = some w) :
    b.typeOf? target = some w.type := by
  obtain ⟨v, t, -, ht, hw⟩ := conversion?_eq_some_iff.1 h
  rw [ht, Value.type_of_convert hw]

/-- What was converted and stored once is converted to the same again. -/
theorem conversion?_put (h : b.conversion? source target = some w) :
    (b.put target w).conversion? source target = some w := by
  obtain ⟨v, t, hv, ht, hw⟩ := conversion?_eq_some_iff.1 h
  have htype : (b.put target w).typeOf? target = some t := by
    rw [typeOf?_put, Value.type_of_convert hw]
  refine conversion?_eq_some_iff.2 ?_
  by_cases hs : source = target
  · subst hs
    exact ⟨w, t, get?_put_self b source w, htype, Value.type_of_convert hw ▸ w.convert_self⟩
  · exact ⟨v, t, by rw [get?_put_of_ne b hs, hv], htype, hw⟩

end Blackboard

namespace Computation

open Blackboard

variable {b : Blackboard} {source target : VariableId} {w : Value} {ctx : Context}

theorem copied_eq (b : Blackboard) (source target : VariableId) :
    copied source target b = (b.conversion? source target).map (b.put target) := by
  cases hw : b.conversion? source target with
  | none =>
    unfold conversion? at hw
    unfold copied
    cases ht : b.typeOf? target with
    | none => rfl
    | some t => cases hv : b.get? source <;> simp_all
  | some w =>
    obtain ⟨v, t, hv, ht, hc⟩ := conversion?_eq_some_iff.1 hw
    simp [copied, hv, ht, hc, set_of_typeOf? (typeOf?_of_conversion? hw), Except.toOption]

theorem execute_copy_of_some (h : ctx.blackboard.conversion? source target = some w) :
    Node.execute (copy source target) ctx =
      ⟨copy source target, .success, { blackboard := ctx.blackboard.put target w }⟩ := by
  simp [Node.execute, execute, copied_eq, h]

theorem execute_copy_of_none (h : ctx.blackboard.conversion? source target = none) :
    Node.execute (copy source target) ctx = .plain (copy source target) ctx .failed := by
  simp [Node.execute, execute, copied_eq, h]

theorem node_execute_copy : (Node.execute (copy source target) ctx).node = copy source target := by
  cases hc : ctx.blackboard.conversion? source target with
  | none => rw [execute_copy_of_none hc]; rfl
  | some w => rw [execute_copy_of_some hc]

theorem answer_copy_iff : (Node.execute (copy source target) ctx).answer = .success ↔
    ∃ w, ctx.blackboard.conversion? source target = some w := by
  cases hc : ctx.blackboard.conversion? source target with
  | none =>
    rw [execute_copy_of_none hc]
    exact ⟨nofun, nofun⟩
  | some w =>
    rw [execute_copy_of_some hc]
    exact ⟨fun _ => ⟨w, rfl⟩, fun _ => rfl⟩

theorem copy_done_or_failed : (Node.execute (copy source target) ctx).answer = .success ∨
    (Node.execute (copy source target) ctx).answer = .failed ∧
      (Node.execute (copy source target) ctx).effects.blackboard = ctx.blackboard := by
  cases hc : ctx.blackboard.conversion? source target with
  | none =>
    rw [execute_copy_of_none hc]
    exact .inr ⟨rfl, rfl⟩
  | some w =>
    rw [execute_copy_of_some hc]
    exact .inl rfl

/-- The store of a converted value goes through. -/
theorem set_of_conversion? (hc : ctx.blackboard.conversion? source target = some w) :
    ctx.blackboard.set target w
      = .ok (Node.execute (copy source target) ctx).effects.blackboard := by
  rw [execute_copy_of_some hc]
  exact set_of_typeOf? (typeOf?_of_conversion? hc)

theorem get?_copy_target (hc : ctx.blackboard.conversion? source target = some w) :
    (Node.execute (copy source target) ctx).effects.blackboard.get? target = some w := by
  rw [execute_copy_of_some hc]
  exact get?_put_self _ _ _

theorem get?_copy_of_ne {id : VariableId} (h : id ≠ target) :
    (Node.execute (copy source target) ctx).effects.blackboard.get? id
      = ctx.blackboard.get? id := by
  cases hc : ctx.blackboard.conversion? source target with
  | none => rw [execute_copy_of_none hc]; rfl
  | some w =>
    rw [execute_copy_of_some hc]
    exact get?_put_of_ne _ h w

theorem typeOf?_copy (id : VariableId) :
    (Node.execute (copy source target) ctx).effects.blackboard.typeOf? id
      = ctx.blackboard.typeOf? id := by
  cases hc : ctx.blackboard.conversion? source target with
  | none => rw [execute_copy_of_none hc]; rfl
  | some w =>
    rw [execute_copy_of_some hc]
    by_cases hid : id = target
    · rw [hid, typeOf?_of_conversion? hc]
      exact typeOf?_put _ _ w
    · exact typeOf?_put_of_ne _ w hid

/-- On what a copy left, whenever that is, the copy comes to the same. -/
theorem execute_copy_again {ctx' : Context}
    (h : ctx'.blackboard = (Node.execute (copy source target) ctx).effects.blackboard) :
    (Node.execute (copy source target) ctx').answer
        = (Node.execute (copy source target) ctx).answer ∧
      (Node.execute (copy source target) ctx').effects.blackboard
        = (Node.execute (copy source target) ctx).effects.blackboard := by
  cases hc : ctx.blackboard.conversion? source target with
  | none =>
    rw [execute_copy_of_none hc] at h ⊢
    replace h : ctx'.blackboard = ctx.blackboard := h
    rw [execute_copy_of_none (h ▸ hc)]
    exact ⟨rfl, h⟩
  | some w =>
    rw [execute_copy_of_some hc] at h ⊢
    replace h : ctx'.blackboard = ctx.blackboard.put target w := h
    rw [execute_copy_of_some (h ▸ conversion?_put hc)]
    exact ⟨rfl, by rw [h, put_put]⟩

/-- A copy succeeds if both variables are there and the source converts to the type of the
target, which then holds the result; nothing else changes, and copying again changes nothing. -/
theorem copy_exact (source target : VariableId) (ctx : Context) :
    let b := ctx.blackboard
    let step := Node.execute (copy source target) ctx
    let b' := step.effects.blackboard
    (step.answer = .success ↔
      ∃ v t w, b.get? source = some v ∧ b.typeOf? target = some t ∧ v.convert t = some w) ∧
    (step.answer = .success ∨ step.answer = .failed ∧ b' = b) ∧
    (∀ v t w, b.get? source = some v → b.typeOf? target = some t → v.convert t = some w →
      b.set target w = .ok b' ∧ b'.get? target = some w) ∧
    (∀ id, id ≠ target → b'.get? id = b.get? id) ∧
    (∀ id, b'.typeOf? id = b.typeOf? id) ∧
    ∀ ctx' : Context, ctx'.blackboard = b' →
      (Node.execute step.node ctx').answer = step.answer ∧
        (Node.execute step.node ctx').effects.blackboard = b' := by
  intro b step b'
  refine ⟨?_, copy_done_or_failed, fun v t w hv ht hw => ?_, fun id hid => get?_copy_of_ne hid,
    typeOf?_copy, fun ctx' hctx => ?_⟩
  · refine answer_copy_iff.trans ⟨fun ⟨w, hw⟩ => ?_, fun ⟨v, t, w, h⟩ => ?_⟩
    · obtain ⟨v, t, h⟩ := conversion?_eq_some_iff.1 hw
      exact ⟨v, t, w, h⟩
    · exact ⟨w, conversion?_eq_some_iff.2 ⟨v, t, h⟩⟩
  · have hc := conversion?_eq_some_iff.2 ⟨v, t, hv, ht, hw⟩
    exact ⟨set_of_conversion? hc, get?_copy_target hc⟩
  · rw [show step.node = copy source target from node_execute_copy]
    exact execute_copy_again hctx

end Computation

end BehaviorTree
