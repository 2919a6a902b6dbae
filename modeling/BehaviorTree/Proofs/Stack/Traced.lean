/-
The trace of a stack tells its nodes.

A stack traces each node that comes and each that goes, with the depth it has then. So the
events of one stack can be played once more, each one fitting what the ones before it left,
and what they leave is the nodes that are on the stack. The other events that a stack traces
change nothing, neither for itself nor for the registry of the services.
-/
import BehaviorTree.Proofs.World.Traced
import BehaviorTree.Proofs.Stack.Reachable

namespace BehaviorTree

/-- The tags of the events that tell which services are registered, and how often they ran. -/
def registryTags : List String :=
  ["bt.service.register", "bt.service.start", "bt.service.unregister"]

/-- Tags of events that play no part when the trace is played once more. -/
def IsPlain (tag : String) : Prop :=
  tag ≠ "bt.stack.push" ∧ tag ≠ "bt.stack.pop" ∧ tag ∉ registryTags

instance (tag : String) : Decidable (IsPlain tag) :=
  inferInstanceAs (Decidable (_ ∧ _ ∧ _))

namespace TraceEvent

/-- Play an event once more on the nodes of the stack `label`, the top first. None if it does
not fit: a node that goes has to be on top, and the value is the depth that is left. -/
def replay (label : StackLabel) (nodes : List NodeId) (e : TraceEvent) : Option (List NodeId) :=
  if e.stack ≠ label.traceId then some nodes
  else if e.tag = "bt.stack.push" then
    match e.node with
    | none => none
    | some index => if e.value = nodes.length + 1 then some (⟨index⟩ :: nodes) else none
  else if e.tag = "bt.stack.pop" then
    match nodes with
    | [] => none
    | top :: rest => if e.node = some top.index ∧ e.value = rest.length then some rest else none
  else some nodes

/-- An event that the stack `label` traces. -/
structure IsOf (label : StackLabel) (e : TraceEvent) : Prop where
  stack : e.stack = label.traceId
  tag : e.tag ∉ registryTags

theorem replay_of_ne {label : StackLabel} {e : TraceEvent} (h : e.stack ≠ label.traceId)
    (nodes : List NodeId) : e.replay label nodes = some nodes :=
  if_pos h

theorem replay_of_plain {e : TraceEvent} (h : IsPlain e.tag) (label : StackLabel)
    (nodes : List NodeId) : e.replay label nodes = some nodes := by
  simp [replay, h.1, h.2.1]

end TraceEvent

/-- Play the events of the stack `label` once more, from the beginning. -/
def replayStack (label : StackLabel) (events : List TraceEvent) : Option (List NodeId) :=
  events.foldlM (TraceEvent.replay label) []

theorem replayStack_append (label : StackLabel) (events new : List TraceEvent) :
    replayStack label (events ++ new)
      = (replayStack label events).bind fun nodes => new.foldlM (TraceEvent.replay label) nodes :=
  List.foldlM_append

/-- Events that play no part leave the nodes as they are. -/
theorem foldlM_replay_of_none {label : StackLabel} {new : List TraceEvent}
    (h : ∀ e ∈ new, ∀ nodes, e.replay label nodes = some nodes) (nodes : List NodeId) :
    new.foldlM (TraceEvent.replay label) nodes = some nodes := by
  induction new with
  | nil => rfl
  | cons e new ih =>
    rw [List.foldlM_cons, h e List.mem_cons_self]
    exact ih fun e' he' => h e' (List.mem_cons_of_mem e he')

namespace Stack

variable {σ : Type}

/-- What was traced from `x` to `y` is of the stack `label`, and leads from the nodes of the one
to those of the other. -/
def Log (label : StackLabel) (x y : List NodeId × World σ) : Prop :=
  ∃ new, y.2.traced = x.2.traced ++ new ∧ (∀ e ∈ new, e.IsOf label) ∧
    new.foldlM (TraceEvent.replay label) x.1 = some y.1

namespace Log

variable {label : StackLabel} {x y z : List NodeId × World σ}

theorem same {ns : List NodeId} {w w' : World σ} (h : w'.traced = w.traced) :
    Log label (ns, w) (ns, w') :=
  ⟨[], by rw [h, List.append_nil], by simp, rfl⟩

theorem refl (x : List NodeId × World σ) : Log label x x := same rfl

theorem trans (h : Log label x y) (h' : Log label y z) : Log label x z := by
  obtain ⟨new, ht, hof, hn⟩ := h
  obtain ⟨new', ht', hof', hn'⟩ := h'
  refine ⟨new ++ new', by rw [ht', ht, List.append_assoc],
    List.forall_mem_append.2 ⟨hof, hof'⟩, ?_⟩
  rw [List.foldlM_append, hn]
  exact hn'

theorem trace {tag : String} (h : IsPlain tag) (ns : List NodeId) (w : World σ)
    (node : Option NodeId) (value : Int) :
    Log label (ns, w) (ns, w.trace tag label node value) := by
  refine ⟨[w.event tag label node value], World.traced_trace .., ?_, ?_⟩
  · simpa using ⟨rfl, h.2.2⟩
  · exact foldlM_replay_of_none (by simpa using TraceEvent.replay_of_plain h label) ns

theorem entered (ns : List NodeId) (w : World σ) (n : NodeId) :
    Log label (ns, w) (n :: ns, w.entered label n (ns.length + 1)) := by
  refine ⟨_, World.traced_trace w .., ?_, ?_⟩
  · simpa using ⟨rfl, (by decide : "bt.stack.push" ∉ registryTags)⟩
  · simp [TraceEvent.replay, World.event]

/-- A node that traced nothing when it went leaves the stack. -/
theorem left {w w' : World σ} (h : w'.traced = w.traced) (n : NodeId) (ns : List NodeId) :
    Log label (n :: ns, w) (ns, w'.left label n ns.length) := by
  refine ⟨[w'.event "bt.stack.pop" label n ns.length], ?_, ?_, ?_⟩
  · rw [← h]
    exact World.traced_trace w' ..
  · simpa using ⟨rfl, (by decide : "bt.stack.pop" ∉ registryTags)⟩
  · simp [TraceEvent.replay, World.event]

end Log

/-- The pass traced what it did to the nodes of the stack, and did that under its label. -/
structure Logs (s : Stack) (w : World σ) (p : Pass σ Stack) : Prop where
  label : p.after.label = s.label
  log : Log s.label (s.nodes, w) (p.after.nodes, p.world)

namespace Logs

variable {s s' : Stack} {w w' : World σ} {fault : Option StackError}

theorem same (hl : s'.label = s.label) (hn : s'.nodes = s.nodes) (hw : w'.traced = w.traced) :
    Logs s w ⟨s', w', fault⟩ :=
  ⟨hl, by rw [hn]; exact .same hw⟩

theorem refl (s : Stack) (w : World σ) (fault : Option StackError) : Logs s w ⟨s, w, fault⟩ :=
  same rfl rfl rfl

theorem trans {p q : Pass σ Stack} (h : Logs s w p) (h' : Logs p.after p.world q) : Logs s w q :=
  ⟨h'.label.trans h.label, h.log.trans (h.label ▸ h'.log)⟩

/-- Only the label and the nodes of a stack matter, and the trace of the world. -/
theorem of {p : Pass σ Stack} (h : Logs s' w' p) (hl : s'.label = s.label)
    (hn : s'.nodes = s.nodes) (hw : w'.traced = w.traced) : Logs s w p :=
  ⟨h.label.trans hl, (Log.same hw).trans (by rw [← hl, ← hn]; exact h.log)⟩

/-- A change of the fields of the stack that is left. -/
theorem fields {p : Pass σ Stack} (h : Logs s w p) (hl : s'.label = p.after.label)
    (hn : s'.nodes = p.after.nodes) : Logs s w ⟨s', p.world, fault⟩ :=
  ⟨hl.trans h.label, by rw [hn]; exact h.log⟩

/-- An event that plays no part, and a change of the fields of the stack. -/
theorem note {tag : String} {node : Option NodeId} {value : Int} (hl : s'.label = s.label)
    (hn : s'.nodes = s.nodes) (hw : w'.traced = w.traced) (ht : IsPlain tag) :
    Logs s w ⟨s', w'.trace tag s.label node value, fault⟩ :=
  ⟨hl, by rw [hn]; exact (Log.same hw).trans (.trace ht ..)⟩

end Logs

/-! ## The parts of a pass -/

variable {s : Stack} {w : World σ}

theorem errorResult_logs (s : Stack) (w : World σ) (node : NodeId) (message : String) :
    Logs s w (s.errorResult w node message) :=
  .note rfl rfl (by simp) (by decide)

theorem bindFailed_logs (s : Stack) (w : World σ) (node : NodeId) (e : VariableError) :
    Logs s w (s.bindFailed w node e) :=
  .note rfl rfl (by simp) (by decide)

theorem exhausted_logs (s : Stack) (w : World σ) (node : NodeId) :
    Logs s w (s.exhausted w node) :=
  .same rfl rfl (by simp)

theorem invalidate_logs (s : Stack) (w : World σ) (e : StackError) :
    Logs s w (s.invalidate w e) :=
  .note rfl rfl (by simp) (by decide)

theorem finish_logs (s : Stack) (w : World σ) : Logs s w (s.finish w) := by
  have h : ∀ value, Log s.label (s.nodes, w) (s.nodes, w.trace "bt.stack.end" s.label none value) :=
    fun value => .trace (by decide) ..
  exact ⟨rfl, (h _).trans (.same rfl)⟩

theorem suspend_logs (s : Stack) (w : World σ) (node : NodeId) : Logs s w (s.suspend w node) :=
  .note rfl rfl rfl (by decide)

theorem park_logs (s : Stack) (w : World σ) (node : NodeId) : Logs s w (s.park w node) :=
  .note rfl rfl rfl (by decide)

variable [Node σ]

theorem complete_logs (w : World σ) {node : NodeId} {rest : List NodeId} (ok : Bool)
    (hs : s.nodes = node :: rest) : Logs s w (s.complete w node ok) := by
  unfold complete
  split
  · exact .refl s w _
  next w' hw =>
  have hp : Logs s w (s.pop w') := by
    simp only [pop, hs]
    exact ⟨rfl, by rw [hs]; exact .left (World.traced_stop hw) node rest⟩
  exact ⟨hp.label, hp.log.trans (.trace (by decide) ..)⟩

theorem settleStatus_logs (w : World σ) {node : NodeId} {rest : List NodeId} (status : Status)
    (hs : s.nodes = node :: rest) : Logs s w (s.settleStatus w node status) := by
  cases status with
  | noReturn =>
    simp only [settleStatus]
    split <;> exact .refl s w _
  | success | failed => exact complete_logs w _ hs
  | wait => exact suspend_logs ..
  | waitUntilNextUpdate => exact park_logs ..
  | error => exact errorResult_logs ..

theorem call_logs (w : World σ) {node : NodeId} {rest : List NodeId} (child : NodeId)
    (status : Status) (hs : s.nodes = node :: rest) : Logs s w (s.call w node child status) := by
  unfold call
  split
  · exact .refl s w _
  split
  · exact .refl s w _
  split
  · exact .refl s w _
  next hr _ hn =>
  simp only [ne_eq, Decidable.not_not] at hr
  subst hr
  have hp : Logs s w (s.push w child) := ⟨rfl, .entered s.nodes w child⟩
  rw [settleStatus_noReturn]
  · exact hp.fields rfl rfl
  · rintro ⟨⟩
    exact hn (by simp [Stack.contains, hs])

theorem apply_logs (w : World σ) {node : NodeId} {rest : List NodeId} (d : Dispatch)
    (hs : s.nodes = node :: rest) : Logs s w (s.apply w node d) :=
  match d with
  | .bindFailed _ => bindFailed_logs ..
  | .answered status [] => settleStatus_logs w status hs
  | .answered status [child] => call_logs w child status hs
  | .answered _ (_ :: _ :: _) => .refl s w _

theorem step_logs (w : World σ) {top : NodeId} {rest : List NodeId} (hs : s.nodes = top :: rest) :
    Logs s w (s.step w top) := by
  simp only [step]
  split
  · exact .same rfl rfl rfl
  split
  · split
    · exact .same rfl rfl rfl
    split
    · exact .same rfl rfl rfl
    · next hw => exact .of (apply_logs _ _ hs) rfl rfl (World.traced_receive hw)
  · split
    · exact .same rfl rfl rfl
    · next hw => exact .of (apply_logs _ _ hs) rfl rfl (World.traced_execute hw)

theorem drive_logs (budget : Nat) (s : Stack) (w : World σ) : Logs s w (drive budget s w) := by
  induction budget generalizing s w with
  | zero =>
    rw [drive]
    split
    · exact .refl s w _
    split
    · exact .refl s w _
    split
    · exact .refl s w _
    · exact exhausted_logs ..
  | succ budget ih =>
    rw [drive]
    split
    · exact .refl s w _
    next hs =>
    split
    · exact .refl s w _
    split
    · exact .refl s w _
    simp only
    split
    · exact step_logs w hs
    · exact (step_logs w hs).trans (.of (ih ..) rfl rfl rfl)

theorem run_logs (s : Stack) (w : World σ) : Logs s w (s.run w) := by
  have h : Logs s w (drive s.stepBudget { s with last := none } w) :=
    .of (drive_logs ..) rfl rfl rfl
  simp only [run]
  split
  · exact h.trans (.of (invalidate_logs ..) rfl rfl rfl)
  split
  · exact h.trans (.of (finish_logs ..) rfl rfl rfl)
  · exact h.fields rfl rfl

/-! ## The operations of a host -/

theorem start_logs (s : Stack) (w : World σ) (head : NodeId) : Logs s w (s.start w head) := by
  unfold start
  split
  · exact .refl s w _
  split
  · exact .refl s w _
  have hp : Logs s w (({ s with result := none, parkedAt := none } : Stack).push w head) :=
    ⟨rfl, .entered s.nodes w head⟩
  exact hp.trans (run_logs ..)

theorem restart_logs (s : Stack) (w : World σ) (head : NodeId) :
    Logs s w (s.restart w head) := by
  unfold restart
  split
  · exact .of (start_logs ..) rfl rfl rfl
  · exact start_logs ..

theorem receiveReturn_logs (s : Stack) (w : World σ) (ok : Bool) :
    Logs s w (s.receiveReturn w ok) := by
  unfold receiveReturn
  split
  · exact .refl s w _
  next node hs =>
  obtain ⟨-, rest, hn⟩ := suspended?_eq_some hs
  have hc : Logs s w (s.complete w node ok) := complete_logs w ok hn
  split
  · next hp => rw [hp] at hc; exact hc
  · next hp => rw [hp] at hc; exact hc.trans (.of (run_logs ..) rfl rfl rfl)

theorem receiveStatus_logs (s : Stack) (w : World σ) (status : Status) :
    Logs s w (s.receiveStatus w status) := by
  unfold receiveStatus
  split
  · exact receiveReturn_logs ..
  split
  · exact .refl s w _
  split
  · exact .same rfl rfl rfl
  · exact .same rfl rfl rfl
  · exact errorResult_logs ..
  · exact .refl s w _

theorem resumeNextUpdate_logs (s : Stack) (w : World σ) :
    Logs s w (s.resumeNextUpdate w).1 := by
  unfold resumeNextUpdate
  split
  · exact .of (run_logs ..) rfl rfl rfl
  · exact .refl s w _

theorem unwind_log (label : StackLabel) (stopAt : Option NodeId) (ns : List NodeId)
    (w : World σ) : Log label (ns, w)
      ((unwind label stopAt ns w).after, (unwind label stopAt ns w).world) := by
  induction ns generalizing w with
  | nil => exact .refl _
  | cons top rest ih =>
    rw [unwind]
    split
    · exact .refl _
    split
    · exact .refl _
    · next hw => exact (Log.left (World.traced_interrupt hw) top rest).trans (ih _)

theorem breakTo_logs (s : Stack) (w : World σ) (stopAt : Option NodeId) :
    Logs s w (s.breakTo w stopAt) := by
  unfold breakTo
  split
  · exact .refl s w _
  have h := unwind_log s.label stopAt s.nodes w
  split
  · next hu => rw [hu] at h; exact ⟨rfl, h⟩
  · next hu => rw [hu] at h; exact ⟨rfl, h.trans (.trace (by decide) ..)⟩

theorem terminate_logs (s : Stack) (w : World σ) : Logs s w (s.terminate w) := by
  have h := breakTo_logs s w none
  unfold terminate
  split
  · next hb => rw [hb] at h; exact h
  next hb =>
  rw [hb] at h
  split
  · exact h.fields rfl rfl
  · exact ⟨h.label, h.log.trans (.trace (by decide) ..)⟩

theorem forwardHook_logs (s : Stack) (w : World σ) (phase : Phase) :
    Logs s w (s.forwardHook w phase) := by
  unfold forwardHook
  split
  · exact .refl s w _
  next top _ =>
  split
  · exact .refl s w _
  have ht := World.traced_hook w top phase
  split
  · next hw => rw [hw] at ht; exact .same rfl rfl ht
  · next hw => rw [hw] at ht; exact .of (receiveStatus_logs ..) rfl rfl ht
  · next hw => rw [hw] at ht; exact .same rfl rfl ht

/-- Whatever is done to a stack, its trace tells what became of its nodes. -/
theorem perform_logs (s : Stack) (w : World σ) (op : Operation) :
    Logs s w (s.perform w op) := by
  cases op with
  | start head => exact start_logs s w head
  | restart head => exact restart_logs s w head
  | run => exact run_logs s w
  | receiveReturn ok => exact receiveReturn_logs s w ok
  | receiveStatus status => exact receiveStatus_logs s w status
  | resumeNextUpdate => exact resumeNextUpdate_logs s w
  | breakTo stopAt => exact breakTo_logs s w stopAt
  | terminate => exact terminate_logs s w
  | forwardHook phase => exact forwardHook_logs s w phase
  | pause | resume | applyConfig _ => exact .same rfl rfl rfl

end Stack

end BehaviorTree
