/-
The operations on a stack that a host has.

Each one checks first and then changes: an operation that is refused leaves the stack
and the world as they were, but for `restart`, which makes an ended stack ready before
it looks at the head. Rolling back is allowed in every state.
-/
import BehaviorTree.Stack.Drive

namespace BehaviorTree.Stack

variable {σ : Type} [Node σ]

/-- Put `head` on an empty stack that is ready, and drive it. -/
def start (s : Stack) (w : World σ) (head : NodeId) : Pass σ Stack :=
  if s.state ≠ .ready || !s.isEmpty || s.current.isSome then
    ⟨s, w, some (.notReady s.label s.state s.depth)⟩
  else if !w.graph.contains head then ⟨s, w, some (.unknownNode head)⟩
  else
    let p := { s with result := none, parkedAt := none }.push w head
    p.after.run p.world

/-- Start a stack that may also have ended. -/
def restart (s : Stack) (w : World σ) (head : NodeId) : Pass σ Stack :=
  (if s.state = .ended then { s with state := .ready } else s).start w head

/-- End the suspended node from outside, and drive on with its outcome. -/
def receiveReturn (s : Stack) (w : World σ) (ok : Bool) : Pass σ Stack :=
  match s.suspended? with
  | none => ⟨s, w, some (.notWaiting s.label s.state)⟩
  | some node =>
    match s.complete w node ok with
    | ⟨s, w, some e⟩ => ⟨s, w, some e⟩
    | ⟨s, w, none⟩ => { s with parkedAt := none }.run w

/-- The same for any status, as a hook may answer it. -/
def receiveStatus (s : Stack) (w : World σ) (status : Status) : Pass σ Stack :=
  match status.outcome with
  | some ok => s.receiveReturn w ok
  | none =>
    match s.suspended? with
    | none => ⟨s, w, some (.notWaiting s.label s.state)⟩
    | some node =>
      match status with
      | .wait => ⟨{ s with state := .waiting }, w, none⟩
      | .waitUntilNextUpdate =>
        ⟨{ s with state := .waitUntilNextUpdate, parkedAt := some w.tick.number }, w, none⟩
      | .error => s.errorResult w node "node ended with an error result"
      | _ => ⟨s, w, some (.recursiveExecution s.label node s.state)⟩

/-- Whether the stack waits for an update that has come: a tick later than the one it
was parked at. -/
def isDue (s : Stack) (now : Nat) : Bool :=
  s.state = .waitUntilNextUpdate && !s.paused
    && match s.parkedAt with
      | none => true
      | some parked => parked < now

/-- Drive on a stack whose update has come; the answer is whether it was driven. -/
def resumeNextUpdate (s : Stack) (w : World σ) : Pass σ Stack × Bool :=
  if s.isDue w.tick.number then
    let p := { s with parkedAt := none, state := .calling }.run w
    (p, p.fault.isNone)
  else (⟨s, w, none⟩, false)

/-- Interrupt nodes from the top until `stopAt` is the top. -/
def unwind (label : StackLabel) (stopAt : Option NodeId) :
    List NodeId → World σ → Pass σ (List NodeId)
  | [], w => ⟨[], w, none⟩
  | top :: rest, w =>
    if stopAt = some top then ⟨top :: rest, w, none⟩
    else match w.interrupt top with
      | .error e => ⟨top :: rest, w, some e⟩
      | .ok w => unwind label stopAt rest (w.left label top rest.length)

/-- Roll back until `stopAt` is on top, or until nothing is left. The stack is ready
then, whatever it was before. -/
def breakTo (s : Stack) (w : World σ) (stopAt : Option NodeId) : Pass σ Stack :=
  match stopAt.filter (!s.contains ·) with
  | some missing => ⟨s, w, some (.breakTargetNotOnStack s.label missing)⟩
  | none =>
    match unwind s.label stopAt s.nodes w with
    | ⟨nodes, w, some e⟩ => ⟨{ s with nodes }, w, some e⟩
    | ⟨nodes, w, none⟩ =>
      ⟨{ s with
          nodes
          state := .ready
          result := none
          current := none
          last := none
          paused := false
          parkedAt := none },
        w.trace "bt.stack.break" s.label stopAt (s.depth - nodes.length : Nat), none⟩

/-- Roll everything back and mark the stack as ended, without a result. -/
def terminate (s : Stack) (w : World σ) : Pass σ Stack :=
  match s.breakTo w none with
  | ⟨after, w, some e⟩ => ⟨after, w, some e⟩
  | ⟨after, w, none⟩ =>
    ⟨{ after with state := .ended },
      if s.state = .ended then w else w.trace "bt.stack.end" s.label none (-1), none⟩

/-- Forward the hook of a phase to the suspended node, and do what it answers. -/
def forwardHook (s : Stack) (w : World σ) (phase : Phase) : Pass σ Stack :=
  match s.suspended? with
  | none => ⟨s, w, none⟩
  | some top =>
    if s.paused then ⟨s, w, none⟩
    else match w.hook top phase with
      | (w, .error e) => ⟨s, w, some e⟩
      | (w, .ok (some (.ended status))) => s.receiveStatus w status
      | (w, .ok _) => ⟨s, w, none⟩

end BehaviorTree.Stack
