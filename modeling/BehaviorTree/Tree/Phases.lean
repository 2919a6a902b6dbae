/-
The phases of a tick.

In each phase the ends that are due are delivered first, then the main stack is driven
and its suspended node hears the hook of the phase, and then each service in turn, in
the order of registration. What a stack does is settled before the next one moves.
A broken rule is reported and does not keep the others from moving; the first one is
the answer of the phase.
-/
import BehaviorTree.Tree.Settle

namespace BehaviorTree

variable {σ : Type} [Node σ]

/-- Settle what an operation did. -/
def Outcome.settle (o : Outcome σ) : Outcome σ :=
  let settled := o.tree.settle
  ⟨settled.tree, o.fault.or settled.fault⟩

namespace Tree

omit [Node σ] in
/-- Report a broken rule, met on the stack `label`, and keep the first of the call. -/
def note (t : Tree σ) (label : StackLabel) (fault first : Option StackError) : Outcome σ :=
  match fault with
  | none => ⟨t, first⟩
  | some e => ⟨{ t with world := t.world.report (.ofFault label e) }, first.or (some e)⟩

/-- Settle what an operation on one stack did, and report what it found broken. -/
def conclude (label : StackLabel) (o : Outcome σ) : Outcome σ :=
  o.settle.tree.note label o.settle.fault none

/-- Deliver the end of a node to the stack that is suspended on it; none if the token
is void or no stack is. -/
def deliver (t : Tree σ) (p : Progress) (ok : Bool) : Option (StackLabel × Outcome σ) :=
  if !t.world.isCurrent p then none
  else if t.main.isWaitingOn p.node then
    some (.main, (t.keepMain (t.main.receiveReturn t.world ok)).settle)
  else match t.services.find? (·.stack.isWaitingOn p.node) with
    | none => none
    | some v =>
      some (v.label, (t.keepService (v.keep (v.stack.receiveReturn t.world ok))).settle)

/-- Fire one task that is due. -/
def fire (o : Outcome σ) (task : DeferredTask) : Outcome σ :=
  let traced := fun (t : Tree σ) label value =>
    { t with world := t.world.trace "bt.deferred.fire" label task.progress.node value }
  match o.tree.deliver task.progress task.success with
  | none => ⟨traced o.tree .main 0, o.fault⟩
  | some (label, delivered) => (traced delivered.tree label 1).note label delivered.fault o.fault

/-- Whether the root is to be started again: it ended on an earlier tick. -/
def restartsAt (t : Tree σ) (phase : Phase) : Bool :=
  phase = .update && t.config.restartOnEnd
    && match t.endedAt with
      | none => false
      | some ended => ended < t.world.tick.number

/-- Take the main stack on from the state it is in. -/
def advanceMain (t : Tree σ) (phase : Phase) : Outcome σ :=
  match t.main.state with
  | .invalid | .waiting => ⟨t, none⟩
  | .ended =>
    if t.restartsAt phase then t.keepMain (t.main.restart t.world t.root) else ⟨t, none⟩
  | .ready =>
    if !t.main.isEmpty then t.keepMain (t.main.run t.world)
    else if phase = .update then t.keepMain (t.main.start t.world t.root)
    else ⟨t, none⟩
  | .calling | .receiving => t.keepMain (t.main.run t.world)
  | .waitUntilNextUpdate => t.keepMain (t.main.resumeNextUpdate t.world).1

/-- The main stack's part of a phase. -/
def driveMain (t : Tree σ) (phase : Phase) : Outcome σ :=
  if !t.running || t.main.paused then ⟨t, none⟩
  else match (t.advanceMain phase).settle with
    | ⟨t, some e⟩ => ⟨t, some e⟩
    | ⟨t, none⟩ => (t.keepMain (t.main.forwardHook t.world phase)).settle

/-- One move of a service, settled and reported; nothing if it is not registered, for an
earlier stack may have torn it down. -/
def moveService (service : NodeId) (move : Service → World σ → Pass σ Service)
    (o : Outcome σ) : Outcome σ :=
  match o.tree.service? service with
  | none => o
  | some v =>
    let moved := (o.tree.keepService (move v o.tree.world)).settle
    moved.tree.note v.label moved.fault o.fault

/-- A service's part of a phase. -/
def driveService (phase : Phase) (o : Outcome σ) (service : NodeId) : Outcome σ :=
  let advanced := moveService service Service.advance o
  moveService service (fun v w => v.keep (v.stack.forwardHook w phase)) advanced

/-- One phase of a tick, from the moment the host calls it. -/
def runPhase (t : Tree σ) (now : Tick) : Outcome σ :=
  let (due, world) := { t.world with tick := now }.takeDue
  let fired := due.foldl fire ⟨{ t with world }, none⟩
  let main := fired.tree.driveMain now.phase
  let noted := main.tree.note .main main.fault fired.fault
  (noted.tree.services.map (·.service)).foldl (driveService now.phase) noted

end Tree

end BehaviorTree
