/-
A graph and the same graph without its services.

Two hosts add the same nodes in the same order, but only the first one attaches services. Then
the second graph is the first one without what is attached: every node has its place as before,
with the same children, and the same was found not to hold together.
-/
import BehaviorTree.Proofs.Graph.Placement

namespace BehaviorTree

variable {σ : Type}

/-- The slot without what is attached. -/
def Slot.alone (s : Slot σ) : Slot σ := { s with owner := none, services := [] }

namespace Graph

variable [Node σ] {g g' : Graph σ}

/-- The graphs were built alike, but nothing was attached in the second one. -/
inductive BuiltAlone : Graph σ → Graph σ → Prop
  | empty : BuiltAlone {} {}
  | add {g g' : Graph σ} (h : BuiltAlone g g') (name : String) (node : σ) :
      BuiltAlone (g.add name node).1 (g'.add name node).1
  | attach {g g₁ g' : Graph σ} (h : BuiltAlone g g') (owner service : NodeId)
      (ha : g.attach owner service = .ok g₁) : BuiltAlone g₁ g'

theorem BuiltAlone.built (h : g.BuiltAlone g') : g.Built := by
  induction h with
  | empty => exact .empty
  | add _ name node ih => exact ih.add name node
  | attach _ owner service ha ih => exact ih.attach owner service ha

/-! ## What is left without services -/

/-- The graph without what is attached. -/
def alone (g : Graph σ) : Graph σ := { g with slots := g.slots.map Slot.alone }

omit [Node σ] in
theorem slot?_alone (g : Graph σ) (id : NodeId) :
    g.alone.slot? id = (g.slot? id).map Slot.alone := by
  simp [slot?, alone]

omit [Node σ] in
theorem contains_alone (g : Graph σ) (id : NodeId) : g.alone.contains id = g.contains id := by
  rw [← isSome_slot?, ← isSome_slot?, slot?_alone, Option.isSome_map]

omit [Node σ] in
theorem validate_alone (g : Graph σ) (root : NodeId) : g.alone.validate root = g.validate root := by
  simp only [validate, contains_alone]
  rfl

omit [Node σ] in
theorem servicesOf_alone (g : Graph σ) (id : NodeId) : g.alone.servicesOf id = [] := by
  rw [servicesOf_eq, slot?_alone]
  cases g.slot? id <;> rfl

theorem children_alone (g : Graph σ) (id : NodeId) : g.alone.children id = g.children id := by
  rw [children_eq, children_eq, slot?_alone, Option.map_map]
  rfl

theorem CallsChildren.alone (h : g.CallsChildren) : g.alone.CallsChildren := by
  intro id s hs
  rw [slot?_alone] at hs
  obtain ⟨slot, hslot, rfl⟩ := Option.map_eq_some_iff.1 hs
  exact h id slot hslot

/-! ## Building without services -/

omit [Node σ] in
/-- A graph is known by its slots and its faults. -/
theorem eq_of_slot? (hf : g.faults = g'.faults) (hs : ∀ id, g.slot? id = g'.slot? id) : g = g' := by
  obtain ⟨slots, faults⟩ := g
  obtain ⟨slots', faults'⟩ := g'
  obtain rfl : slots = slots' := Array.ext_getElem? fun i => hs ⟨i⟩
  obtain rfl : faults = faults' := hf
  rfl

omit [Node σ] in
theorem alone_modify (g : Graph σ) (id : NodeId) {f : Slot σ → Slot σ}
    (hf : ∀ s, (f s).alone = f s.alone) : (g.modify id f).alone = g.alone.modify id f := by
  refine eq_of_slot? rfl fun other => ?_
  rw [slot?_alone, slot?_modify, slot?_modify, slot?_alone]
  split
  · rw [Option.map_map, Option.map_map, show Slot.alone ∘ f = f ∘ Slot.alone from funext hf]
  · rfl

omit [Node σ] in
theorem alone_claim (parent : NodeId) (g : Graph σ) (child : NodeId) :
    (claim parent g child).alone = claim parent g.alone child := by
  unfold claim
  rw [slot?_alone]
  cases g.slot? child with
  | none => rfl
  | some slot =>
    simp only [Option.map_some, Slot.alone]
    cases slot.parent with
    | some first => rfl
    | none => exact alone_modify g child fun _ => rfl

omit [Node σ] in
theorem alone_claims (parent : NodeId) (cs : List NodeId) (g : Graph σ) :
    (cs.foldl (claim parent) g).alone = cs.foldl (claim parent) g.alone := by
  induction cs generalizing g with
  | nil => rfl
  | cons c cs ih => rw [List.foldl_cons, ih, alone_claim, List.foldl_cons]

theorem alone_add (g : Graph σ) (name : String) (node : σ) :
    (g.add name node).1.alone = (g.alone.add name node).1 := by
  have hsize : g.alone.size = g.size := Array.size_map
  unfold add
  simp only [hsize, ← alone_claims]
  simp [alone, Slot.alone]

theorem alone_attach {owner service : NodeId} (h : g.attach owner service = .ok g') :
    g'.alone = g.alone := by
  obtain ⟨-, -, -, rfl⟩ := attach_ok h
  refine eq_of_slot? rfl fun id => ?_
  rw [slot?_alone, slot?_alone, map_slot?_attach id (fun _ => by rfl) (fun _ => by rfl)]

/-- Whoever attaches nothing builds the graph without its services. -/
theorem BuiltAlone.eq_alone (h : g.BuiltAlone g') : g' = g.alone := by
  induction h with
  | empty => exact eq_of_slot? rfl fun id => (slot?_alone {} id).symm
  | add _ name node ih => rw [ih, alone_add]
  | attach _ _ _ ha ih => rw [ih, alone_attach ha]

end Graph

end BehaviorTree
