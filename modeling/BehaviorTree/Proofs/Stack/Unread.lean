/-
A stack does the same whatever was recorded before.

An operation leaves the same stack in a world with a past, finds the same rule broken, and
records the same on top of it.
-/
import BehaviorTree.Proofs.Stack.Reachable
import BehaviorTree.Proofs.World.Unread

namespace BehaviorTree

variable {σ κ : Type}

/-- The pass in a world with a past. -/
def Pass.onto (past : List Record) (p : Pass σ κ) : Pass σ κ :=
  { p with world := p.world.onto past }

@[simp] theorem Pass.onto_after (past : List Record) (p : Pass σ κ) :
    (p.onto past).after = p.after :=
  rfl

@[simp] theorem Pass.onto_world (past : List Record) (p : Pass σ κ) :
    (p.onto past).world = p.world.onto past :=
  rfl

@[simp] theorem Pass.onto_fault (past : List Record) (p : Pass σ κ) :
    (p.onto past).fault = p.fault :=
  rfl

namespace Stack

variable (past : List Record) (s : Stack) (w : World σ)

@[simp] theorem push_onto (node : NodeId) :
    s.push (w.onto past) node = (s.push w node).onto past :=
  rfl

@[simp] theorem pop_onto : s.pop (w.onto past) = (s.pop w).onto past := by
  unfold pop
  cases s.nodes <;> rfl

@[simp] theorem errorResult_onto (node : NodeId) (message : String) :
    s.errorResult (w.onto past) node message = (s.errorResult w node message).onto past :=
  rfl

@[simp] theorem bindFailed_onto (node : NodeId) (e : VariableError) :
    s.bindFailed (w.onto past) node e = (s.bindFailed w node e).onto past :=
  rfl

@[simp] theorem exhausted_onto (node : NodeId) :
    s.exhausted (w.onto past) node = (s.exhausted w node).onto past :=
  rfl

@[simp] theorem finish_onto : s.finish (w.onto past) = (s.finish w).onto past := rfl

@[simp] theorem invalidate_onto (e : StackError) :
    s.invalidate (w.onto past) e = (s.invalidate w e).onto past :=
  rfl

variable [Node σ]

@[simp] theorem complete_onto (node : NodeId) (ok : Bool) :
    s.complete (w.onto past) node ok = (s.complete w node ok).onto past := by
  unfold complete
  rw [World.stop_onto]
  cases w.stop node with
  | error e => rfl
  | ok u => simp only [Except.map, pop_onto]; rfl

@[simp] theorem settleStatus_onto (node : NodeId) (status : Status) :
    s.settleStatus (w.onto past) node status = (s.settleStatus w node status).onto past := by
  cases status with
  | noReturn =>
    simp only [settleStatus]
    split <;> rfl
  | success | failed => exact complete_onto past s w node _
  | wait | waitUntilNextUpdate | error => rfl

@[simp] theorem call_onto (node child : NodeId) (status : Status) :
    s.call (w.onto past) node child status = (s.call w node child status).onto past := by
  unfold call
  simp only [World.onto_graph, push_onto, Pass.onto_after, Pass.onto_world, settleStatus_onto]
  repeat' split
  all_goals rfl

@[simp] theorem apply_onto (node : NodeId) (d : Dispatch) :
    s.apply (w.onto past) node d = (s.apply w node d).onto past := by
  match d with
  | .bindFailed e => rfl
  | .answered status [] => exact settleStatus_onto past s w node status
  | .answered status [child] => exact call_onto past s w node child status
  | .answered _ (_ :: _ :: _) => rfl

@[simp] theorem step_onto (top : NodeId) :
    s.step (w.onto past) top = (s.step w top).onto past := by
  unfold step
  simp only [World.receive_onto, World.execute_onto]
  split
  · rfl
  split
  · split
    · rfl
    next ok _ =>
    cases w.receive top ok with
    | error e => rfl
    | ok x => simp only [Except.map, apply_onto]
  · cases w.execute top with
    | error e => rfl
    | ok x => simp only [Except.map, apply_onto]

theorem drive_onto (budget : Nat) :
    drive budget s (w.onto past) = (drive budget s w).onto past := by
  induction budget generalizing s w with
  | zero =>
    rw [drive, drive]
    split
    · rfl
    · simp only [exhausted_onto]
      repeat' split
      all_goals rfl
  | succ budget ih =>
    rw [drive, drive]
    split
    · rfl
    next top rest hn =>
    simp only [step_onto, Pass.onto_fault, Pass.onto_after, Pass.onto_world, ih]
    repeat' split
    all_goals rfl

@[simp] theorem run_onto : s.run (w.onto past) = (s.run w).onto past := by
  unfold run
  simp only [drive_onto, Pass.onto_fault, Pass.onto_after, Pass.onto_world, invalidate_onto,
    finish_onto]
  split
  · rfl
  · split <;> rfl

@[simp] theorem start_onto (head : NodeId) :
    s.start (w.onto past) head = (s.start w head).onto past := by
  unfold start
  simp only [World.onto_graph, push_onto, Pass.onto_after, Pass.onto_world, run_onto]
  repeat' split
  all_goals rfl

@[simp] theorem restart_onto (head : NodeId) :
    s.restart (w.onto past) head = (s.restart w head).onto past :=
  start_onto ..

@[simp] theorem receiveReturn_onto (ok : Bool) :
    s.receiveReturn (w.onto past) ok = (s.receiveReturn w ok).onto past := by
  unfold receiveReturn
  split
  · rfl
  next node _ =>
  rw [complete_onto]
  obtain ⟨s', w', fault⟩ := s.complete w node ok
  cases fault with
  | some e => rfl
  | none => exact run_onto ..

@[simp] theorem receiveStatus_onto (status : Status) :
    s.receiveStatus (w.onto past) status = (s.receiveStatus w status).onto past := by
  unfold receiveStatus
  simp only [receiveReturn_onto, errorResult_onto]
  repeat' split
  all_goals rfl

@[simp] theorem resumeNextUpdate_onto :
    s.resumeNextUpdate (w.onto past)
      = ((s.resumeNextUpdate w).1.onto past, (s.resumeNextUpdate w).2) := by
  unfold resumeNextUpdate
  simp only [World.onto_tick, run_onto, Pass.onto_fault]
  split <;> rfl

theorem unwind_onto (label : StackLabel) (stopAt : Option NodeId) (nodes : List NodeId) :
    unwind label stopAt nodes (w.onto past) = (unwind label stopAt nodes w).onto past := by
  induction nodes generalizing w with
  | nil => rfl
  | cons top rest ih =>
    rw [unwind, unwind, World.interrupt_onto]
    split
    · rfl
    · cases w.interrupt top with
      | error e => rfl
      | ok u => exact ih (u.left label top rest.length)

@[simp] theorem breakTo_onto (stopAt : Option NodeId) :
    s.breakTo (w.onto past) stopAt = (s.breakTo w stopAt).onto past := by
  unfold breakTo
  rw [unwind_onto]
  split
  · rfl
  · obtain ⟨nodes, w', fault⟩ := unwind s.label stopAt s.nodes w
    cases fault <;> rfl

@[simp] theorem terminate_onto : s.terminate (w.onto past) = (s.terminate w).onto past := by
  unfold terminate
  rw [breakTo_onto]
  obtain ⟨after, w', fault⟩ := s.breakTo w none
  cases fault with
  | some e => rfl
  | none =>
    simp only [Pass.onto, World.trace_onto]
    split <;> rfl

@[simp] theorem forwardHook_onto (phase : Phase) :
    s.forwardHook (w.onto past) phase = (s.forwardHook w phase).onto past := by
  unfold forwardHook
  split
  · rfl
  next top _ =>
  split
  · rfl
  rw [World.hook_onto]
  obtain ⟨u, answer⟩ := w.hook top phase
  match answer with
  | .error e => rfl
  | .ok none => rfl
  | .ok (some .running) => rfl
  | .ok (some (.ended status)) => exact receiveStatus_onto ..

/-- Whatever is done to a stack, the past makes no difference. -/
theorem perform_onto (op : Operation) :
    s.perform (w.onto past) op = (s.perform w op).onto past := by
  cases op with
  | start head => exact start_onto ..
  | restart head => exact restart_onto ..
  | run => exact run_onto ..
  | receiveReturn ok => exact receiveReturn_onto ..
  | receiveStatus status => exact receiveStatus_onto ..
  | resumeNextUpdate => exact congrArg Prod.fst (resumeNextUpdate_onto past s w)
  | breakTo stopAt => exact breakTo_onto ..
  | terminate => exact terminate_onto ..
  | forwardHook phase => exact forwardHook_onto ..
  | pause | resume | applyConfig _ => rfl

end Stack

end BehaviorTree
