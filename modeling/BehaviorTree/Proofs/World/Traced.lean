/-
What a world has traced, in the order of time.

Nodes trace nothing: whatever a node does, and however its stack is told of it, the trace
stays as it was. Events come from the stacks and the tree alone.
-/
import BehaviorTree.Stack.Basic
import BehaviorTree.Proofs.World.Picked
import BehaviorTree.Proofs.World.Written

namespace BehaviorTree.World

variable {σ : Type}

def traced (w : World σ) : List TraceEvent := (History.trace w.history.reverse).events

@[simp] theorem traced_record (w : World σ) (r : Record) :
    (w.record r).traced = w.traced ++ r.traced?.toList := by
  cases h : r.traced? <;> simp [traced, History.trace, record, h]

/-- What was traced stays, and what is traced comes after it. -/
theorem Writes.traced {w w' : World σ} (h : w.Writes w') : w.traced <+: w'.traced := by
  obtain ⟨records, hr⟩ := h
  exact ⟨records.reverse.filterMap Record.traced?, by simp [World.traced, History.trace, ← hr]⟩

theorem traced_record_of_none (w : World σ) {r : Record} (h : r.traced? = none) :
    (w.record r).traced = w.traced := by
  simp [h]

/-- The event of a stack, as the trace has it. -/
def event (w : World σ) (tag : String) (stack : StackLabel) (node : Option NodeId) (value : Int) :
    TraceEvent :=
  { tick := w.tick.number, tag, stack := stack.traceId, node := node.map (·.index), value }

@[simp] theorem event_tag (w : World σ) (tag : String) (stack : StackLabel)
    (node : Option NodeId) (value : Int) : (w.event tag stack node value).tag = tag := rfl

@[simp] theorem event_stack (w : World σ) (tag : String) (stack : StackLabel)
    (node : Option NodeId) (value : Int) :
    (w.event tag stack node value).stack = stack.traceId := rfl

@[simp] theorem traced_trace (w : World σ) (tag : String) (stack : StackLabel)
    (node : Option NodeId) (value : Int) :
    (w.trace tag stack node value).traced = w.traced ++ [w.event tag stack node value] :=
  traced_record w _

@[simp] theorem traced_warn (w : World σ) (message : String) (fields : List (String × String)) :
    (w.warn message fields).traced = w.traced :=
  traced_record_of_none w rfl

@[simp] theorem traced_report (w : World σ) (d : Diagnostic) : (w.report d).traced = w.traced :=
  traced_record_of_none w rfl

@[simp] theorem traced_enqueue (w : World σ) (e : StackEvent) :
    (w.enqueue e).traced = w.traced :=
  rfl

/-! ## Steps of nodes -/

@[simp] theorem traced_modify (w : World σ) (id : NodeId) (f : Slot σ → Slot σ) :
    (w.modify id f).traced = w.traced := rfl

@[simp] theorem traced_hear (w : World σ) (id : NodeId) (messages : List Message) :
    (w.hear id messages).traced = w.traced :=
  picked_hear picksNone_traced? w id messages

@[simp] theorem traced_tell (w : World σ) (id : NodeId) (observers : List Observer) :
    (w.tell id observers).traced = w.traced :=
  picked_tell picksNone_traced? w id observers

@[simp] theorem traced_keep {α : Type} (w : World σ) (id : NodeId) (step : Step σ α) :
    (w.keep id step).traced = w.traced :=
  picked_keep picksNone_traced? w id step

@[simp] theorem traced_absorb {α : Type} (w : World σ) (id : NodeId) (activation : Nat)
    (step : Step σ α) : (w.absorb id activation step).traced = w.traced :=
  traced_keep w id step

@[simp] theorem traced_keepReply {α : Type} (w : World σ) (id : NodeId) (call : Call)
    (reply : Reply σ α) : (w.keepReply id call reply).traced = w.traced :=
  picked_keepReply picksNone_traced? w id call reply

variable [Node σ] {w w' : World σ} {id : NodeId}

@[simp] theorem traced_bindOnce (w : World σ) (id : NodeId) (slot : Slot σ) :
    (w.bindOnce id slot).1.traced = w.traced :=
  picked_bindOnce picksNone_traced? w id slot

theorem traced_execute {d : Dispatch} (h : w.execute id = .ok (w', d)) :
    w'.traced = w.traced :=
  picked_execute picksNone_traced? h

theorem traced_receive {ok : Bool} {d : Dispatch} (h : w.receive id ok = .ok (w', d)) :
    w'.traced = w.traced :=
  picked_receive picksNone_traced? h

theorem traced_stop (h : w.stop id = .ok w') : w'.traced = w.traced :=
  picked_stop picksNone_traced? h

theorem traced_interrupt (h : w.interrupt id = .ok w') : w'.traced = w.traced :=
  picked_interrupt picksNone_traced? h

@[simp] theorem traced_hook (w : World σ) (id : NodeId) (phase : Phase) :
    (w.hook id phase).1.traced = w.traced :=
  picked_hook picksNone_traced? w id phase

@[simp] theorem traced_ready (w : World σ) (id : NodeId) : (w.ready id).1.traced = w.traced :=
  picked_ready picksNone_traced? w id

@[simp] theorem traced_registered (w : World σ) (id : NodeId) :
    (w.registered id).traced = w.traced :=
  picked_registered picksNone_traced? w id

@[simp] theorem traced_unregistered (w : World σ) (id : NodeId) :
    (w.unregistered id).traced = w.traced :=
  picked_unregistered picksNone_traced? w id

end BehaviorTree.World
