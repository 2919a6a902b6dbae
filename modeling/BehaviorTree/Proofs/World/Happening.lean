/-
What happened in a world, in the order of time.

The history records more than what a host or a node can tell apart: what nodes said, the
log, most of the trace. The happenings are the records that say how the tree got where it
is: calls of nodes, nodes that came onto a stack or left it, stacks that were torn down, and
broken rules that were reported. Each operation of the world adds its happenings at the end.
-/
import BehaviorTree.Stack.Basic
import BehaviorTree.Proofs.World.Frame
import BehaviorTree.Proofs.World.Written

namespace BehaviorTree

/-- The stack that trace events name so. -/
def StackLabel.ofTraceId : Option Nat → StackLabel
  | none => .main
  | some index => .service ⟨index⟩

@[simp] theorem StackLabel.ofTraceId_traceId (label : StackLabel) :
    ofTraceId label.traceId = label := by
  cases label <;> rfl

inductive Happening where
  | called (node : NodeId) (call : Call)
  | entered (stack : StackLabel) (node : NodeId)
  | left (stack : StackLabel) (node : NodeId)
  /-- A service went, and its stack with it. -/
  | tornDown (stack : StackLabel)
  /-- A broken rule was reported. -/
  | violated (d : Diagnostic)
deriving DecidableEq, Repr

def TraceEvent.happening? (e : TraceEvent) : Option Happening :=
  if e.tag = "bt.stack.push" then e.node.map fun n => .entered (.ofTraceId e.stack) ⟨n⟩
  else if e.tag = "bt.stack.pop" then e.node.map fun n => .left (.ofTraceId e.stack) ⟨n⟩
  else if e.tag = "bt.service.unregister" then some (.tornDown (.ofTraceId e.stack))
  else none

def Record.happening? : Record → Option Happening
  | .called node call => some (.called node call)
  | .traced e => e.happening?
  | .reported d => if d.kind = .protocolViolation then some (.violated d) else none
  | _ => none

/-- Tags that tell of no happening. -/
def IsQuiet (tag : String) : Prop :=
  tag ≠ "bt.stack.push" ∧ tag ≠ "bt.stack.pop" ∧ tag ≠ "bt.service.unregister"

instance (tag : String) : Decidable (IsQuiet tag) :=
  inferInstanceAs (Decidable (_ ∧ _ ∧ _))

theorem Record.happening?_traced {e : TraceEvent} (h : IsQuiet e.tag) :
    (Record.traced e).happening? = none := by
  simp [happening?, TraceEvent.happening?, h.1, h.2.1, h.2.2]

theorem Record.eq_called_of_happening? {r : Record} {node : NodeId} {call : Call}
    (h : r.happening? = some (.called node call)) : r = .called node call := by
  cases r with
  | called n c =>
    obtain ⟨rfl, rfl⟩ : n = node ∧ c = call := by simpa [happening?] using h
    rfl
  | traced e =>
    simp only [happening?, TraceEvent.happening?] at h
    split at h
    · simp at h
    split at h
    · simp at h
    split at h <;> simp at h
  | reported d =>
    simp only [happening?] at h
    split at h <;> simp at h
  | _ => simp [happening?] at h

/-- Services are told of their registration by calls. -/
theorem Record.registration?_of_happening? {r : Record} (h : r.happening? = none)
    (service : NodeId) : r.registration? service = none := by
  cases r <;> first | rfl | simp [happening?] at h

namespace World

variable {σ : Type}

def happenings (w : World σ) : List Happening :=
  (w.history.filterMap Record.happening?).reverse

@[simp] theorem happenings_record (w : World σ) (r : Record) :
    (w.record r).happenings = w.happenings ++ r.happening?.toList := by
  cases h : r.happening? <;> simp [happenings, record, h]

theorem happenings_record_of_none (w : World σ) {r : Record} (h : r.happening? = none) :
    (w.record r).happenings = w.happenings := by
  simp [h]

theorem happenings_trace (w : World σ) {tag : String} (h : IsQuiet tag) (stack : StackLabel)
    (node : Option NodeId) (value : Int) :
    (w.trace tag stack node value).happenings = w.happenings :=
  happenings_record_of_none w (Record.happening?_traced h)

/-- What happened stays, and what happens comes after it. -/
theorem Writes.happenings {w w' : World σ} (h : w.Writes w') :
    w.happenings <+: w'.happenings := by
  obtain ⟨records, hr⟩ := h
  exact ⟨(records.filterMap Record.happening?).reverse, by simp [World.happenings, ← hr]⟩

@[simp] theorem happenings_entered (w : World σ) (label : StackLabel) (node : NodeId)
    (depth : Nat) :
    (w.entered label node depth).happenings = w.happenings ++ [.entered label node] := by
  refine (happenings_record w _).trans ?_
  simp [Record.happening?, TraceEvent.happening?]

@[simp] theorem happenings_left (w : World σ) (label : StackLabel) (node : NodeId)
    (depth : Nat) : (w.left label node depth).happenings = w.happenings ++ [.left label node] := by
  refine (happenings_record w _).trans ?_
  simp [Record.happening?, TraceEvent.happening?]

/-! ## Steps of nodes -/

@[simp] theorem happenings_hear (w : World σ) (id : NodeId) (messages : List Message) :
    (w.hear id messages).happenings = w.happenings := by
  unfold hear
  induction messages generalizing w with
  | nil => rfl
  | cons m ms ih => exact (ih _).trans (happenings_record_of_none w rfl)

@[simp] theorem happenings_tell (w : World σ) (id : NodeId) (observers : List Observer) :
    (w.tell id observers).happenings = w.happenings := by
  unfold tell
  induction observers generalizing w with
  | nil => rfl
  | cons o os ih => exact (ih _).trans (happenings_record_of_none w rfl)

@[simp] theorem happenings_modify (w : World σ) (id : NodeId) (f : Slot σ → Slot σ) :
    (w.modify id f).happenings = w.happenings := rfl

@[simp] theorem happenings_keep {α : Type} (w : World σ) (id : NodeId) (step : Step σ α) :
    (w.keep id step).happenings = w.happenings := by
  have hh : ({ w.modify id fun s => { s with node := step.node } with
      blackboard := step.effects.blackboard }.hear id step.effects.messages).happenings
        = w.happenings := happenings_hear ..
  unfold keep
  split
  · exact hh
  · exact (happenings_record_of_none _ rfl).trans hh

@[simp] theorem happenings_absorb {α : Type} (w : World σ) (id : NodeId) (activation : Nat)
    (step : Step σ α) : (w.absorb id activation step).happenings = w.happenings :=
  happenings_keep w id step

@[simp] theorem happenings_keepReply {α : Type} (w : World σ) (id : NodeId) (call : Call)
    (reply : Reply σ α) :
    (w.keepReply id call reply).happenings = w.happenings ++ [.called id call] := by
  refine (happenings_hear ..).trans ?_
  exact happenings_record w (.called id call)

variable [Node σ] {w w' : World σ} {id : NodeId}

theorem happenings_bindOnce (w : World σ) (id : NodeId) (slot : Slot σ) :
    (w.bindOnce id slot).1.happenings
      = w.happenings ++ if slot.bound then [] else [.called id .bind] := by
  unfold bindOnce
  split <;> simp

/-- A node is bound before its first execution, and only executed if that succeeds. -/
theorem happenings_execute {d : Dispatch} (h : w.execute id = .ok (w', d)) :
    ∃ calls : List Call, w'.happenings = w.happenings ++ calls.map (.called id) ∧
      (calls = [.bind] ∨ calls = [.bind, .execute] ∨ calls = [.execute]) := by
  unfold execute at h
  split at h
  · cases h
  next slot hs =>
  simp only at h
  have hb := happenings_bindOnce (w.modify id fun s => { s with activation := slot.activation + 1 })
    id slot
  split at h
  · next hw =>
    cases h
    rw [hw] at hb
    have hu : slot.bound = false := by
      unfold bindOnce at hw
      split at hw
      · cases hw
      · next hu => simpa using hu
    exact ⟨[.bind], by simpa [hu] using hb, .inl rfl⟩
  · next hw =>
    cases h
    rw [hw] at hb
    simp only [happenings_absorb, happenings_record, hb, happenings_modify]
    cases slot.bound with
    | false => exact ⟨[.bind, .execute], by simp [Record.happening?], .inr (.inl rfl)⟩
    | true => exact ⟨[.execute], by simp [Record.happening?], .inr (.inr rfl)⟩

theorem happenings_receive {ok : Bool} {d : Dispatch} (h : w.receive id ok = .ok (w', d)) :
    w'.happenings = w.happenings ++ [.called id (.receive ok)] := by
  unfold receive at h
  split at h
  · cases h
  · cases h
    simp [Record.happening?]

theorem happenings_stop (h : w.stop id = .ok w') :
    w'.happenings = w.happenings ++ [.called id .stop] := by
  unfold stop at h
  split at h
  · cases h
  · cases h
    refine (happenings_keep ..).trans ?_
    exact happenings_record w (.called id .stop)

theorem happenings_interrupt (h : w.interrupt id = .ok w') :
    w'.happenings = w.happenings ++ [.called id .stop] := by
  unfold interrupt at h
  split at h
  · cases h
  · rw [happenings_stop h, happenings_modify, happenings_tell]

theorem happenings_hook (w : World σ) (id : NodeId) (phase : Phase) :
    (w.hook id phase).1.happenings = w.happenings ∨
      (w.hook id phase).1.happenings = w.happenings ++ [.called id (.hook phase)] := by
  unfold hook
  split
  · exact .inl rfl
  split
  · exact .inl rfl
  · simp only
    split <;> exact .inr (by simp [Record.happening?])

theorem happenings_ready (w : World σ) (id : NodeId) :
    (w.ready id).1.happenings = w.happenings ∨
      ∃ answer, (w.ready id).1.happenings = w.happenings ++ [.called id (.ready answer)] := by
  unfold ready
  split
  · exact .inl rfl
  split
  · exact .inl rfl
  · exact .inr ⟨_, happenings_keepReply ..⟩

theorem happenings_registered (w : World σ) (id : NodeId) :
    (w.registered id).happenings = w.happenings ∨
      (w.registered id).happenings = w.happenings ++ [.called id .registered] := by
  rcases registered_cases w id with h | ⟨slot, -, -, h⟩
  · exact .inl (by rw [h])
  · exact .inr (by rw [h, happenings_keepReply])

theorem happenings_unregistered (w : World σ) (id : NodeId) :
    (w.unregistered id).happenings = w.happenings ∨
      (w.unregistered id).happenings = w.happenings ++ [.called id .unregistered] := by
  rcases unregistered_cases w id with h | ⟨slot, -, -, h⟩
  · exact .inl (by rw [h])
  · exact .inr (by rw [h, happenings_keepReply])

/-- A service hears that it is torn down if it is one at the moment. -/
theorem happenings_unregistered_self (w : World σ) (id : NodeId) :
    (w.unregistered id).happenings
      = w.happenings ++ if w.isService id then [.called id .unregistered] else [] := by
  unfold unregistered isService
  split
  · next hs => simp [hs]
  next slot hs =>
  split
  · next hi => simp [happenings_keepReply, hs, hi]
  · next hi => simp [hs, hi]

end World

end BehaviorTree
