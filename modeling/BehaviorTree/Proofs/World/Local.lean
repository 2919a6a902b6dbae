/-
A step of one node, seen from the others and from another world.

Whatever a node does changes no slot but its own (`World.Local`), and all that it has to
go by is its slot, the variables and the clock: in two worlds where these are the same,
the same comes of it (`World.Alike`).
-/
import BehaviorTree.Proofs.World.Frame

namespace BehaviorTree

/-- The node that a record is about, if it tells of a step of one. -/
def Record.about? : Record → Option NodeId
  | called node _ | observed node _ | said node _ | broken node _ => some node
  | _ => none

namespace World

variable {σ : Type}

/-- The records of the steps of some nodes, newest first. -/
def recordsOf (w : World σ) (p : NodeId → Bool) : List Record :=
  w.history.filter fun r => r.about?.any p

theorem recordsOf_record (w : World σ) (r : Record) (p : NodeId → Bool) :
    (w.record r).recordsOf p
      = if r.about?.any p then r :: w.recordsOf p else w.recordsOf p := by
  simp [recordsOf, record, List.filter_cons]

theorem recordsOf_record_of_not {w : World σ} {r : Record} {p : NodeId → Bool}
    (h : r.about?.any p = false) : (w.record r).recordsOf p = w.recordsOf p := by
  simp [recordsOf_record, h]

/-! ## The slot of the node itself -/

section Slots

variable {id : NodeId} {w : World σ} {s : Slot σ}

theorem slot?_modify (hs : w.graph.slot? id = some s) (f : Slot σ → Slot σ) :
    (w.modify id f).graph.slot? id = some (f s) := by
  simp [World.modify, Graph.slot?_modify_self, hs]

theorem slot?_keep {α : Type} (hs : w.graph.slot? id = some s) (step : Step σ α) :
    (w.keep id step).graph.slot? id = some { s with node := step.node } := by
  have hm := slot?_modify hs fun s => { s with node := step.node }
  unfold World.keep
  split <;> simpa [graph_hear, World.record] using hm

theorem slot?_absorb {α : Type} (hs : w.graph.slot? id = some s) (activation : Nat)
    (step : Step σ α) :
    (w.absorb id activation step).graph.slot? id
      = some { s with node := step.node, observers := s.observers ++ step.effects.observers } :=
  slot?_modify (slot?_keep hs step) _

theorem slot?_keepReply {α : Type} (hs : w.graph.slot? id = some s) (call : Call)
    (reply : Reply σ α) :
    (w.keepReply id call reply).graph.slot? id = some { s with node := reply.node } := by
  have hm := slot?_modify (w := w.record (.called id call)) hs
    fun s => { s with node := reply.node }
  simpa [World.keepReply, graph_hear] using hm

end Slots

/-! ## The other slots -/

/-- No slot but that of `id` is changed. -/
structure Local (id : NodeId) (w w' : World σ) : Prop where
  contains : ∀ other, w'.graph.contains other = w.graph.contains other
  slot? : ∀ other, other ≠ id → w'.graph.slot? other = w.graph.slot? other

namespace Local

variable {id : NodeId}

theorem refl (w : World σ) : Local id w w := ⟨fun _ => rfl, fun _ _ => rfl⟩

theorem trans {w₁ w₂ w₃ : World σ} (h : Local id w₁ w₂) (h' : Local id w₂ w₃) : Local id w₁ w₃ :=
  ⟨fun o => (h'.contains o).trans (h.contains o),
    fun o ho => (h'.slot? o ho).trans (h.slot? o ho)⟩

/-- All that counts is the graphs. -/
theorem of_graph {w w' w₁ w₂ : World σ} (h : Local id w₁ w₂) (h₁ : w₁.graph = w.graph)
    (h₂ : w'.graph = w₂.graph) : Local id w w' :=
  ⟨fun o => by rw [h₂, ← h₁, h.contains], fun o ho => by rw [h₂, ← h₁, h.slot? o ho]⟩

theorem above {w w' : World σ} (h : Local id w w') {other : NodeId}
    (ho : id.index < other.index) : w'.graph.slot? other = w.graph.slot? other := by
  refine h.slot? other fun he => ?_
  rw [he] at ho
  omega

theorem modify (w : World σ) (f : Slot σ → Slot σ) : Local id w (w.modify id f) :=
  ⟨fun o => Graph.contains_modify w.graph id o f,
    fun _ ho => Graph.slot?_modify_of_ne w.graph ho f⟩

theorem keep {α : Type} (w : World σ) (step : Step σ α) : Local id w (w.keep id step) := by
  refine (modify w fun s => { s with node := step.node }).of_graph rfl ?_
  unfold World.keep
  split <;> simp [graph_hear, record]

theorem absorb {α : Type} (w : World σ) (activation : Nat) (step : Step σ α) :
    Local id w (w.absorb id activation step) :=
  ((keep w step).trans (modify _ _)).of_graph rfl rfl

theorem keepReply {α : Type} (w : World σ) (call : Call) (reply : Reply σ α) :
    Local id w (w.keepReply id call reply) :=
  (modify (w.record (.called id call)) fun s => { s with node := reply.node }).of_graph rfl
    (graph_hear _ _ _)

variable [Node σ]

theorem bindOnce (w : World σ) (slot : Slot σ) : Local id w (w.bindOnce id slot).1 := by
  unfold World.bindOnce
  split
  · exact refl w
  · exact (keepReply w _ _).trans (modify _ _)

theorem execute {w w' : World σ} {d : Dispatch} (h : w.execute id = .ok (w', d)) :
    Local id w w' := by
  unfold World.execute at h
  split at h
  · cases h
  next slot hs =>
  have hb : Local id w _ := (modify w fun s => { s with activation := slot.activation + 1 }).trans
    (bindOnce _ slot)
  simp only at h
  split at h
  · next hw =>
    cases h
    rwa [hw] at hb
  · next hw =>
    cases h
    rw [hw] at hb
    exact hb.trans ((absorb _ _ _).of_graph (by rfl) rfl)

theorem receive {w w' : World σ} {ok : Bool} {d : Dispatch} (h : w.receive id ok = .ok (w', d)) :
    Local id w w' := by
  unfold World.receive at h
  split at h
  · cases h
  · cases h
    exact (absorb (w.record _) _ _).of_graph rfl rfl

theorem stop {w w' : World σ} (h : w.stop id = .ok w') : Local id w w' := by
  unfold World.stop at h
  split at h
  · cases h
  · cases h
    exact ((keep _ _).trans (modify _ _)).of_graph (by rfl) rfl

theorem hook (w : World σ) (id : NodeId) (phase : Phase) : Local id w (w.hook id phase).1 := by
  unfold World.hook
  split
  · exact refl w
  split
  · exact refl w
  · simp only
    split <;> exact (absorb (w.record _) _ _).of_graph rfl rfl

theorem ready (w : World σ) (id : NodeId) : Local id w (w.ready id).1 := by
  unfold World.ready
  split
  · exact refl w
  split
  · exact refl w
  · exact keepReply ..

theorem registered (w : World σ) (id : NodeId) : Local id w (w.registered id) := by
  rcases registered_cases w id with h | ⟨_, -, -, h⟩
  · rw [h]
    exact refl w
  · rw [h]
    exact keepReply ..

theorem unregistered (w : World σ) (id : NodeId) : Local id w (w.unregistered id) := by
  rcases unregistered_cases w id with h | ⟨_, -, -, h⟩
  · rw [h]
    exact refl w
  · rw [h]
    exact keepReply ..

end Local

/-! ## The same step in two worlds -/

/-- The worlds agree on all that a step of `id` goes by, and on what some nodes, `id` among
them, did so far. -/
structure Alike (p : NodeId → Bool) (id : NodeId) (w v : World σ) : Prop where
  slot : w.graph.slot? id = v.graph.slot? id
  blackboard : w.blackboard = v.blackboard
  tick : w.tick = v.tick
  records : w.recordsOf p = v.recordsOf p

namespace Alike

variable {p : NodeId → Bool} {id : NodeId} {w v : World σ}

theorem modify (h : Alike p id w v) (f : Slot σ → Slot σ) :
    Alike p id (w.modify id f) (v.modify id f) where
  slot := by simp [World.modify, Graph.slot?_modify_self, h.slot]
  blackboard := h.blackboard
  tick := h.tick
  records := h.records

theorem record (h : Alike p id w v) (r : Record) : Alike p id (w.record r) (v.record r) where
  slot := h.slot
  blackboard := h.blackboard
  tick := h.tick
  records := by rw [recordsOf_record, recordsOf_record, h.records]

theorem hear (h : Alike p id w v) (messages : List Message) :
    Alike p id (w.hear id messages) (v.hear id messages) := by
  unfold World.hear
  induction messages generalizing w v with
  | nil => exact h
  | cons m ms ih => exact ih (h.record _)

theorem setBlackboard (h : Alike p id w v) (b : Blackboard) :
    Alike p id { w with blackboard := b } { v with blackboard := b } where
  slot := h.slot
  blackboard := rfl
  tick := h.tick
  records := h.records

theorem schedule (h : Alike p id w v) (s t : Schedule) :
    Alike p id { w with schedule := s } { v with schedule := t } :=
  ⟨h.slot, h.blackboard, h.tick, h.records⟩

theorem keep {α : Type} (h : Alike p id w v) (step : Step σ α) :
    Alike p id (w.keep id step) (v.keep id step) := by
  have hh := ((h.modify fun s => { s with node := step.node }).setBlackboard
    step.effects.blackboard).hear step.effects.messages
  unfold World.keep
  split
  · exact hh
  · exact hh.record _

theorem absorb {α : Type} (h : Alike p id w v) (activation : Nat) (step : Step σ α) :
    Alike p id (w.absorb id activation step) (v.absorb id activation step) :=
  ((h.keep step).modify _).schedule _ _

theorem keepReply {α : Type} (h : Alike p id w v) (call : Call) (reply : Reply σ α) :
    Alike p id (w.keepReply id call reply) (v.keepReply id call reply) :=
  ((h.record _).modify _).hear _

theorem context (h : Alike p id w v) (activation : Nat) :
    w.context id activation = v.context id activation := by
  simp [World.context, h.blackboard, h.tick]

variable [Node σ]

theorem bindOnce (h : Alike p id w v) (slot : Slot σ) :
    Alike p id (w.bindOnce id slot).1 (v.bindOnce id slot).1 ∧
      (w.bindOnce id slot).2 = (v.bindOnce id slot).2 := by
  unfold World.bindOnce
  rw [h.blackboard]
  split
  · exact ⟨h, rfl⟩
  · exact ⟨(h.keepReply _ _).modify _, rfl⟩

/-- What a node does when it is executed is the same in both worlds. -/
theorem execute (h : Alike p id w v) {v' : World σ} {d : Dispatch}
    (he : v.execute id = .ok (v', d)) :
    ∃ w', w.execute id = .ok (w', d) ∧ Alike p id w' v' := by
  unfold World.execute at he ⊢
  rw [h.slot]
  split at he
  · cases he
  next slot hs =>
  have ha := h.modify fun s => { s with activation := slot.activation + 1 }
  obtain ⟨hb, hr⟩ := ha.bindOnce slot
  simp only at he ⊢
  generalize (w.modify id fun s => { s with activation := slot.activation + 1 }).bindOnce id slot
    = x at hb hr ⊢
  generalize (v.modify id fun s => { s with activation := slot.activation + 1 }).bindOnce id slot
    = y at hb hr he
  obtain ⟨w₁, nw, ew⟩ := x
  obtain ⟨v₁, nv, ev⟩ := y
  cases hr
  cases ew with
  | some e =>
    cases he
    exact ⟨w₁, rfl, hb⟩
  | none =>
    cases he
    have hc : w₁.context id (slot.activation + 1) = v₁.context id (slot.activation + 1) :=
      hb.context _
    refine ⟨_, ?_, (hb.record _).absorb _ _⟩
    simp only [hc]

/-- And so it is when the node leaves its stack. -/
theorem stop (h : Alike p id w v) {v' : World σ} (he : v.stop id = .ok v') :
    ∃ w', w.stop id = .ok w' ∧ Alike p id w' v' := by
  unfold World.stop at he ⊢
  rw [h.slot]
  split at he
  · cases he
  · cases he
    rw [h.context]
    exact ⟨_, rfl, (((h.record _).keep _).modify _).schedule _ _⟩

end Alike

end World

end BehaviorTree
