/-
Where a node has its place.

A stack begins with the root or with a service that is attached to some node, its head, and
goes on from a node to one of its children. So a node can only come onto the stack of a
head that it lies under. Nothing that building a graph checks keeps a service from being
some node's child as well, or the root from being attached; where neither is the case,
no node lies under two heads.
-/
import BehaviorTree.Proofs.Graph.Built

namespace BehaviorTree

/-- Whatever becomes of the node, it calls none but these. -/
def Node.CallsOnly {σ : Type} [Node σ] (cs : List NodeId) (s : σ) : Prop :=
  ∀ s', Node.Becomes s s' → ∀ ctx, (∀ c ∈ (Node.execute s' ctx).effects.calls, c ∈ cs) ∧
    ∀ ok, ∀ c ∈ (Node.receive s' ctx ok).effects.calls, c ∈ cs

namespace Graph

variable {σ : Type} [Node σ] {g : Graph σ} {root : NodeId}

/-- The second node is the first, or a child of a child of it. -/
def Under (g : Graph σ) : NodeId → NodeId → Prop :=
  Relation.ReflTransGen fun p c => c ∈ g.children p

/-- A stack may begin with the node: it is the root, or attached to some node. -/
def Head (g : Graph σ) (root head : NodeId) : Prop :=
  head = root ∨ ∃ owner, head ∈ g.servicesOf owner

/-- No node can come onto two stacks. -/
structure Apart (g : Graph σ) (root : NodeId) : Prop where
  root_free : ∀ owner, root ∉ g.servicesOf owner
  head_unique : ∀ a b n, g.Head root a → g.Head root b → g.Under a n → g.Under b n → a = b

/-- Neither the root nor any service is a child, and the root is not a service of anyone. -/
structure SinglyPlaced (g : Graph σ) (root : NodeId) : Prop where
  root_no_child : ∀ p, root ∉ g.children p
  service_no_child : ∀ owner s, s ∈ g.servicesOf owner → ∀ p, s ∉ g.children p
  root_free : ∀ owner, root ∉ g.servicesOf owner

/-- No node calls another than its children, whatever becomes of it. -/
def CallsChildren (g : Graph σ) : Prop :=
  ∀ id slot, g.slot? id = some slot → Node.CallsOnly (Node.children slot.node) slot.node

omit [Node σ] in
theorem mem_slots_of_slot? {id : NodeId} {s : Slot σ} (h : g.slot? id = some s) :
    s ∈ g.slots.toList :=
  Array.mem_toList_iff.2 (Array.mem_of_getElem? h)

omit [Node σ] in
theorem exists_slot?_of_mem {s : Slot σ} (h : s ∈ g.slots.toList) : ∃ id, g.slot? id = some s := by
  obtain ⟨i, hi⟩ := Array.mem_iff_getElem?.1 (Array.mem_toList_iff.1 h)
  exact ⟨⟨i⟩, hi⟩

/-- A child is among the children of some slot. -/
theorem mem_children_iff (c : NodeId) :
    (∃ p, c ∈ g.children p) ↔ ∃ s ∈ g.slots.toList, c ∈ Node.children s.node := by
  constructor
  · rintro ⟨p, hp⟩
    cases hs : g.slot? p with
    | none => simp [children, hs] at hp
    | some s => exact ⟨s, mem_slots_of_slot? hs, by simpa [children, hs] using hp⟩
  · rintro ⟨s, hs, hc⟩
    obtain ⟨p, hp⟩ := exists_slot?_of_mem hs
    exact ⟨p, by simpa [children, hp] using hc⟩

omit [Node σ] in
/-- A service is among the services of some slot. -/
theorem mem_servicesOf_iff (x : NodeId) :
    (∃ owner, x ∈ g.servicesOf owner) ↔ ∃ s ∈ g.slots.toList, x ∈ s.services := by
  constructor
  · rintro ⟨owner, ho⟩
    cases hs : g.slot? owner with
    | none => simp [servicesOf, hs] at ho
    | some s => exact ⟨s, mem_slots_of_slot? hs, by simpa [servicesOf, hs] using ho⟩
  · rintro ⟨s, hs, hx⟩
    obtain ⟨owner, ho⟩ := exists_slot?_of_mem hs
    exact ⟨owner, by simpa [servicesOf, ho] using hx⟩

/-- Single placement can be looked up slot by slot. -/
theorem singlyPlaced_iff : SinglyPlaced g root ↔ ∀ s ∈ g.slots.toList,
    root ∉ Node.children s.node ∧ root ∉ s.services ∧
      ∀ x ∈ s.services, ∀ t ∈ g.slots.toList, x ∉ Node.children t.node := by
  constructor
  · intro h s hs
    refine ⟨fun hc => ?_, fun hr => ?_, fun x hx t ht hc => ?_⟩
    · obtain ⟨p, hp⟩ := (mem_children_iff root).2 ⟨s, hs, hc⟩
      exact h.root_no_child p hp
    · obtain ⟨owner, ho⟩ := (mem_servicesOf_iff root).2 ⟨s, hs, hr⟩
      exact h.root_free owner ho
    · obtain ⟨owner, ho⟩ := (mem_servicesOf_iff x).2 ⟨s, hs, hx⟩
      obtain ⟨p, hp⟩ := (mem_children_iff x).2 ⟨t, ht, hc⟩
      exact h.service_no_child owner x ho p hp
  · intro h
    refine ⟨fun p hp => ?_, fun owner x ho p hp => ?_, fun owner ho => ?_⟩
    · obtain ⟨s, hs, hc⟩ := (mem_children_iff root).1 ⟨p, hp⟩
      exact (h s hs).1 hc
    · obtain ⟨s, hs, hx⟩ := (mem_servicesOf_iff x).1 ⟨owner, ho⟩
      obtain ⟨t, ht, hc⟩ := (mem_children_iff x).1 ⟨p, hp⟩
      exact (h s hs).2.2 x hx t ht hc
    · obtain ⟨s, hs, hr⟩ := (mem_servicesOf_iff root).1 ⟨owner, ho⟩
      exact (h s hs).2.1 hr

instance (g : Graph σ) (root : NodeId) : Decidable (SinglyPlaced g root) :=
  decidable_of_iff _ singlyPlaced_iff.symm

/-- Whether nodes keep to their children can be looked up slot by slot. -/
theorem callsChildren_of_forall
    (h : ∀ s ∈ g.slots.toList, Node.CallsOnly (Node.children s.node) s.node) : g.CallsChildren :=
  fun _ s hs => h s (mem_slots_of_slot? hs)

theorem SinglyPlaced.head_no_child (h : SinglyPlaced g root) {a : NodeId} (ha : g.Head root a)
    (p : NodeId) : a ∉ g.children p := by
  rcases ha with rfl | ⟨owner, ho⟩
  · exact h.root_no_child p
  · exact h.service_no_child owner a ho p

/-- The way up from a node is one way, since parents are unique, and it ends at the first
head. -/
theorem SinglyPlaced.apart (h : SinglyPlaced g root)
    (hu : ∀ p q c, c ∈ g.children p → c ∈ g.children q → p = q) : Apart g root := by
  refine ⟨h.root_free, fun a b n ha hb hn hn' => ?_⟩
  induction hn with
  | refl =>
    cases hn' with
    | refl => rfl
    | tail _ hc => exact absurd hc (h.head_no_child ha _)
  | tail _ hc ih =>
    cases hn' with
    | refl => exact absurd hc (h.head_no_child hb _)
    | tail hp hc' =>
      rw [hu _ _ _ hc' hc] at hp
      exact ih hp

omit [Node σ] in
theorem faults_of_validate (h : g.validate root = .ok ()) : g.contains root ∧ g.faults = [] := by
  unfold validate at h
  split at h
  · cases h
  next hc =>
  split at h
  · next hf => exact ⟨by simpa using hc, hf⟩
  · cases h

/-- A built graph without faults has unique parents. -/
theorem Wired.parent_unique (h : Wired g) (hf : g.faults = []) :
    ∀ p q c, c ∈ g.children p → c ∈ g.children q → p = q := by
  intro p q c hp hq
  have h₁ := h.parent hf p c hp
  rw [h.parent hf q c hq] at h₁
  exact (Option.some.inj h₁).symm

end Graph

end BehaviorTree
