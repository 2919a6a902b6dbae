/-
Worlds that are the same but for notices of an exhausted budget.

Nothing in a world looks at the history: it is only written. So in two worlds that differ by
some records alone, the same step of a node does the same, and leaves worlds that differ by
the same records. Here these are the notices that a stack gives when the steps of a pass are
used up: a record of the log and a diagnostic.
-/
import BehaviorTree.Proofs.World.Since

namespace BehaviorTree

/-- The notice that the steps of a pass are used up. -/
def Record.isBudgetNotice : Record → Bool
  | .logged r => r.message = "step budget exhausted; stack paused"
  | .reported d => d.kind = .stepBudgetExceeded
  | _ => false

/-- Both answers are the same error, or they are no errors and related. -/
inductive Answers {ε α β : Type} (R : α → β → Prop) : Except ε α → Except ε β → Prop
  | error (e : ε) : Answers R (.error e) (.error e)
  | ok {a : α} {b : β} (h : R a b) : Answers R (.ok a) (.ok b)

theorem Answers.imp {ε α β : Type} {R S : α → β → Prop} {x : Except ε α} {y : Except ε β}
    (h : Answers R x y) (hRS : ∀ a b, R a b → S a b) : Answers S x y := by
  cases h with
  | error e => exact .error e
  | ok h => exact .ok (hRS _ _ h)

/-- What both answers are. -/
theorem Answers.with {ε α β : Type} {R : α → β → Prop} {x : Except ε α} {y : Except ε β}
    (h : Answers R x y) : Answers (fun a b => R a b ∧ x = .ok a ∧ y = .ok b) x y := by
  cases h with
  | error e => exact .error e
  | ok h => exact .ok ⟨h, rfl, rfl⟩

namespace World

variable {σ : Type}

structure Same (w v : World σ) : Prop where
  graph : w.graph = v.graph
  blackboard : w.blackboard = v.blackboard
  tick : w.tick = v.tick
  schedule : w.schedule = v.schedule
  events : w.events = v.events
  history : w.history.filter (!·.isBudgetNotice) = v.history.filter (!·.isBudgetNotice)

namespace Same

variable {w v u : World σ}

theorem refl (w : World σ) : Same w w := ⟨rfl, rfl, rfl, rfl, rfl, rfl⟩

theorem trans (h : Same w v) (h' : Same v u) : Same w u :=
  ⟨h.graph.trans h'.graph, h.blackboard.trans h'.blackboard, h.tick.trans h'.tick,
    h.schedule.trans h'.schedule, h.events.trans h'.events, h.history.trans h'.history⟩

/-- In both worlds the same is recorded. -/
theorem record (h : Same w v) (r : Record) : Same (w.record r) (v.record r) :=
  ⟨h.graph, h.blackboard, h.tick, h.schedule, h.events, by
    simp [World.record, List.filter_cons, h.history]⟩

/-- A notice makes no difference. -/
theorem notice (h : Same w v) {r : Record} (hr : r.isBudgetNotice) : Same (w.record r) v :=
  ⟨h.graph, h.blackboard, h.tick, h.schedule, h.events, by
    simp [World.record, hr, h.history]⟩

theorem trace (h : Same w v) (tag : String) (stack : StackLabel) (node : Option NodeId)
    (value : Int) : Same (w.trace tag stack node value) (v.trace tag stack node value) := by
  unfold World.trace
  rw [h.tick]
  exact h.record _

theorem report (h : Same w v) (d : Diagnostic) : Same (w.report d) (v.report d) := by
  unfold World.report
  rw [h.graph]
  exact h.record _

theorem enqueue (h : Same w v) (event : StackEvent) : Same (w.enqueue event) (v.enqueue event) :=
  ⟨h.graph, h.blackboard, h.tick, h.schedule, by simp [World.enqueue, h.events], h.history⟩

theorem entered (h : Same w v) (label : StackLabel) (node : NodeId) (depth : Nat) :
    Same (w.entered label node depth) (v.entered label node depth) :=
  (h.trace ..).enqueue _

theorem left (h : Same w v) (label : StackLabel) (node : NodeId) (depth : Nat) :
    Same (w.left label node depth) (v.left label node depth) :=
  (h.trace ..).enqueue _

/-! ## Steps of nodes -/

theorem modify (h : Same w v) (id : NodeId) (f : Slot σ → Slot σ) :
    Same (w.modify id f) (v.modify id f) :=
  ⟨by simp [World.modify, h.graph], h.blackboard, h.tick, h.schedule, h.events, h.history⟩

theorem setBlackboard (h : Same w v) (b : Blackboard) :
    Same { w with blackboard := b } { v with blackboard := b } :=
  ⟨h.graph, rfl, h.tick, h.schedule, h.events, h.history⟩

theorem hear (h : Same w v) (id : NodeId) (messages : List Message) :
    Same (w.hear id messages) (v.hear id messages) := by
  unfold World.hear
  induction messages generalizing w v with
  | nil => exact h
  | cons m ms ih => exact ih (h.record _)

theorem keep {α : Type} (h : Same w v) (id : NodeId) (step : Step σ α) :
    Same (w.keep id step) (v.keep id step) := by
  have hh := ((h.modify id fun s => { s with node := step.node }).setBlackboard
    step.effects.blackboard).hear id step.effects.messages
  unfold World.keep
  split
  · exact hh
  · exact hh.record _

theorem absorb {α : Type} (h : Same w v) (id : NodeId) (activation : Nat) (step : Step σ α) :
    Same (w.absorb id activation step) (v.absorb id activation step) := by
  have hk := (h.keep id step).modify id fun s =>
    { s with observers := s.observers ++ step.effects.observers }
  exact ⟨hk.graph, hk.blackboard, hk.tick, by simp only [World.absorb, hk.tick, hk.schedule],
    hk.events, hk.history⟩

theorem keepReply {α : Type} (h : Same w v) (id : NodeId) (call : Call) (reply : Reply σ α) :
    Same (w.keepReply id call reply) (v.keepReply id call reply) :=
  ((h.record _).modify id _).hear id _

theorem context (h : Same w v) (id : NodeId) (activation : Nat) :
    w.context id activation = v.context id activation := by
  simp [World.context, h.blackboard, h.tick]

variable [Node σ]

theorem bindOnce (h : Same w v) (id : NodeId) (slot : Slot σ) :
    Same (w.bindOnce id slot).1 (v.bindOnce id slot).1 ∧
      (w.bindOnce id slot).2 = (v.bindOnce id slot).2 := by
  unfold World.bindOnce
  rw [h.blackboard]
  split
  · exact ⟨h, rfl⟩
  · exact ⟨(h.keepReply id _ _).modify id _, rfl⟩

/-- A node that is executed does the same in both worlds. -/
theorem execute (h : Same w v) (id : NodeId) :
    Answers (fun x y => x.1.Same y.1 ∧ x.2 = y.2) (w.execute id) (v.execute id) := by
  unfold World.execute
  rw [h.graph]
  split
  · exact .error _
  next slot _ =>
  have ha := h.modify id fun s => { s with activation := slot.activation + 1 }
  obtain ⟨hb, hr⟩ := ha.bindOnce id slot
  simp only
  generalize (w.modify id fun s => { s with activation := slot.activation + 1 }).bindOnce id slot
    = x at hb hr ⊢
  generalize (v.modify id fun s => { s with activation := slot.activation + 1 }).bindOnce id slot
    = y at hb hr ⊢
  obtain ⟨w₁, node, e⟩ := x
  obtain ⟨v₁, _, _⟩ := y
  cases hr
  cases e with
  | some e => exact .ok ⟨hb, rfl⟩
  | none =>
    have hc : w₁.context id (slot.activation + 1) = v₁.context id (slot.activation + 1) :=
      hb.context id _
    simp only [hc]
    exact .ok ⟨(hb.record _).absorb id _ _, rfl⟩

theorem receive (h : Same w v) (id : NodeId) (ok : Bool) :
    Answers (fun x y => x.1.Same y.1 ∧ x.2 = y.2) (w.receive id ok) (v.receive id ok) := by
  unfold World.receive
  rw [h.graph]
  split
  · exact .error _
  · simp only [h.context id]
    exact .ok ⟨(h.record _).absorb id _ _, rfl⟩

theorem stop (h : Same w v) (id : NodeId) : Answers Same (w.stop id) (v.stop id) := by
  unfold World.stop
  rw [h.graph]
  split
  · exact .error _
  next slot _ =>
  simp only [h.context id]
  have hk := ((h.record (.called id .stop)).keep id
    (Node.stop slot.node (v.context id slot.activation))).modify id fun s =>
      { s with observers := [], activation := s.activation + 1 }
  exact .ok ⟨hk.graph, hk.blackboard, hk.tick, by simp only [hk.schedule], hk.events, hk.history⟩

end Same

end World

end BehaviorTree
