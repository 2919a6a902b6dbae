/-
The history is never read.

A world may have any past: whatever is done in it, what comes of it and what is newly recorded
do not depend on the records that are there already. `onto past` gives a world an earlier
history, and each operation of the world commutes with it.
-/
import BehaviorTree.World

namespace BehaviorTree.World

variable {σ : Type}

/-- The same world, with what was recorded in it recorded after the `past`. -/
def onto (past : List Record) (w : World σ) : World σ := { w with history := w.history ++ past }

variable (past : List Record) (w : World σ)

@[simp] theorem onto_graph : (w.onto past).graph = w.graph := rfl
@[simp] theorem onto_blackboard : (w.onto past).blackboard = w.blackboard := rfl
@[simp] theorem onto_tick : (w.onto past).tick = w.tick := rfl
@[simp] theorem onto_schedule : (w.onto past).schedule = w.schedule := rfl
@[simp] theorem onto_events : (w.onto past).events = w.events := rfl
@[simp] theorem onto_history : (w.onto past).history = w.history ++ past := rfl

/-- A world is one without a past that was given its own. -/
theorem onto_self : ({ w with history := [] } : World σ).onto w.history = w := rfl

@[simp] theorem record_onto (r : Record) : (w.onto past).record r = (w.record r).onto past := rfl

@[simp] theorem trace_onto (tag : String) (stack : StackLabel) (node : Option NodeId)
    (value : Int) :
    (w.onto past).trace tag stack node value = (w.trace tag stack node value).onto past :=
  rfl

@[simp] theorem warn_onto (message : String) (fields : List (String × String)) :
    (w.onto past).warn message fields = (w.warn message fields).onto past :=
  rfl

@[simp] theorem report_onto (d : Diagnostic) : (w.onto past).report d = (w.report d).onto past :=
  rfl

@[simp] theorem enqueue_onto (event : StackEvent) :
    (w.onto past).enqueue event = (w.enqueue event).onto past :=
  rfl

@[simp] theorem modify_onto (id : NodeId) (f : Slot σ → Slot σ) :
    (w.onto past).modify id f = (w.modify id f).onto past :=
  rfl

@[simp] theorem context_onto (id : NodeId) (activation : Nat) :
    (w.onto past).context id activation = w.context id activation :=
  rfl

@[simp] theorem progress?_onto (id : NodeId) : (w.onto past).progress? id = w.progress? id := rfl

@[simp] theorem isCurrent_onto (p : Progress) : (w.onto past).isCurrent p = w.isCurrent p := rfl

@[simp] theorem setBlackboard_onto (b : Blackboard) :
    ({ w.onto past with blackboard := b } : World σ) = { w with blackboard := b }.onto past :=
  rfl

@[simp] theorem hear_onto (id : NodeId) (messages : List Message) :
    (w.onto past).hear id messages = (w.hear id messages).onto past := by
  unfold hear
  induction messages generalizing w with
  | nil => rfl
  | cons m ms ih => exact ih (w.record (.said id m))

@[simp] theorem tell_onto (id : NodeId) (observers : List Observer) :
    (w.onto past).tell id observers = (w.tell id observers).onto past := by
  unfold tell
  induction observers generalizing w with
  | nil => rfl
  | cons o os ih => exact ih (w.record (.observed id o))

@[simp] theorem keep_onto {α : Type} (id : NodeId) (step : Step σ α) :
    (w.onto past).keep id step = (w.keep id step).onto past := by
  unfold keep
  simp only [modify_onto, setBlackboard_onto, hear_onto]
  cases step.effects.broken <;> rfl

@[simp] theorem absorb_onto {α : Type} (id : NodeId) (activation : Nat) (step : Step σ α) :
    (w.onto past).absorb id activation step = (w.absorb id activation step).onto past := by
  simp only [absorb, keep_onto, modify_onto]
  rfl

@[simp] theorem keepReply_onto {α : Type} (id : NodeId) (call : Call) (reply : Reply σ α) :
    (w.onto past).keepReply id call reply = (w.keepReply id call reply).onto past := by
  simp [keepReply]

@[simp] theorem takeDue_onto :
    (w.onto past).takeDue = (w.takeDue.1, w.takeDue.2.onto past) :=
  rfl

variable [Node σ]

@[simp] theorem bindOnce_onto (id : NodeId) (slot : Slot σ) :
    (w.onto past).bindOnce id slot
      = ((w.bindOnce id slot).1.onto past, (w.bindOnce id slot).2) := by
  unfold bindOnce
  split
  · rfl
  · simp

theorem execute_onto (id : NodeId) :
    (w.onto past).execute id = (w.execute id).map fun x => (x.1.onto past, x.2) := by
  unfold execute
  simp only [onto_graph, modify_onto]
  cases w.graph.slot? id with
  | none => rfl
  | some slot =>
    simp only [bindOnce_onto]
    obtain ⟨u, node, e⟩ :=
      (w.modify id fun s => { s with activation := slot.activation + 1 }).bindOnce id slot
    cases e with
    | none => simp [Except.map]
    | some e => rfl

theorem receive_onto (id : NodeId) (ok : Bool) :
    (w.onto past).receive id ok = (w.receive id ok).map fun x => (x.1.onto past, x.2) := by
  unfold receive
  simp only [onto_graph]
  cases w.graph.slot? id with
  | none => rfl
  | some slot => simp [Except.map]

theorem stop_onto (id : NodeId) : (w.onto past).stop id = (w.stop id).map (onto past) := by
  unfold stop
  simp only [onto_graph]
  cases w.graph.slot? id with
  | none => rfl
  | some slot =>
    simp only [context_onto, record_onto, keep_onto, modify_onto]
    rfl

theorem interrupt_onto (id : NodeId) :
    (w.onto past).interrupt id = (w.interrupt id).map (onto past) := by
  unfold interrupt
  simp only [onto_graph]
  cases w.graph.slot? id with
  | none => rfl
  | some slot => simp [stop_onto]

theorem hook_onto (id : NodeId) (phase : Phase) :
    (w.onto past).hook id phase = ((w.hook id phase).1.onto past, (w.hook id phase).2) := by
  unfold hook
  simp only [onto_graph]
  cases w.graph.slot? id with
  | none => rfl
  | some slot =>
    simp only [context_onto, record_onto, absorb_onto]
    split
    · rfl
    · cases (Node.hook slot.node (w.context id slot.activation) phase).effects.calls <;> rfl

theorem ready_onto (id : NodeId) :
    (w.onto past).ready id = ((w.ready id).1.onto past, (w.ready id).2) := by
  unfold ready
  simp only [onto_graph]
  cases w.graph.slot? id with
  | none => rfl
  | some slot =>
    simp only [onto_tick, keepReply_onto]
    split <;> rfl

@[simp] theorem preempts_onto (id : NodeId) : (w.onto past).preempts id = w.preempts id := rfl

@[simp] theorem registered_onto (id : NodeId) :
    (w.onto past).registered id = (w.registered id).onto past := by
  unfold registered
  simp only [onto_graph]
  cases w.graph.slot? id with
  | none => rfl
  | some slot =>
    simp only [keepReply_onto]
    split <;> rfl

@[simp] theorem unregistered_onto (id : NodeId) :
    (w.onto past).unregistered id = (w.unregistered id).onto past := by
  unfold unregistered
  simp only [onto_graph]
  cases w.graph.slot? id with
  | none => rfl
  | some slot =>
    simp only [keepReply_onto]
    split <;> rfl

end BehaviorTree.World
