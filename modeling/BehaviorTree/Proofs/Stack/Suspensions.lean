/-
How a stack is suspended can be read off its trace.

A node that answers with a wait suspends its stack, and the stack traces which wait it is. A
hook may answer with a wait as well, while its stack is suspended already; that changes how
the stack waits and is not traced. So the trace is right as long as a hook answers with no
other kind of wait than its node does (`Node.Steady`), for the state of a suspended stack is a
kind of wait that its top node answers with.
-/
import BehaviorTree.Proofs.Stack.Traced

namespace BehaviorTree

/-- How a stack is suspended by a node that answers so, if it is. -/
def Status.suspension? : Status → Option StackState
  | .wait => some .waiting
  | .waitUntilNextUpdate => some .waitUntilNextUpdate
  | _ => none

/-- How the hook suspends the stack anew, if it does. -/
def HookOutcome.suspension? : HookOutcome → Option StackState
  | .running => none
  | .ended status => status.suspension?

namespace Node

variable {σ : Type} [Node σ]

/-- Some hook of the node, whatever becomes of it, answers with this kind of wait. -/
def HookWaits (s : σ) (kind : StackState) : Prop :=
  ∃ x ctx phase, Becomes s x ∧ Node.hasHooks x ∧
    (Node.hook x ctx phase).answer.suspension? = some kind

/-- The node, whatever becomes of it, answers with this kind of wait when it is turned to, or
by a hook. -/
inductive Waits (s : σ) (kind : StackState) : Prop
  | execute {x : σ} {ctx : Context} (hx : Becomes s x)
      (h : (Node.execute x ctx).answer.suspension? = some kind)
  | receive {x : σ} {ctx : Context} {ok : Bool} (hx : Becomes s x)
      (h : (Node.receive x ctx ok).answer.suspension? = some kind)
  | hook (h : HookWaits s kind)

/-- Where a hook of the node answers with a wait, the node answers with no other kind. -/
def Steady (s : σ) : Prop := ∀ kind, HookWaits s kind → ∀ other, Waits s other → other = kind

end Node

namespace Graph

variable {σ : Type} [Node σ] {g g' : Graph σ} {id : NodeId} {kind : StackState}

def Steady (g : Graph σ) : Prop := ∀ id slot, g.slot? id = some slot → Node.Steady slot.node

/-- The node in this place of the graph may answer with this kind of wait. -/
def Waits (g : Graph σ) (id : NodeId) (kind : StackState) : Prop :=
  ∃ slot, g.slot? id = some slot ∧ Node.Waits slot.node kind

end Graph

namespace TraceEvent

/-- How the stack `label` is suspended by what its events tell, after one more of them. A node
that comes or goes begins anew. -/
def suspension (label : StackLabel) (state : Option StackState) (e : TraceEvent) :
    Option StackState :=
  if e.stack ≠ label.traceId then state
  else if e.tag = "bt.stack.push" ∨ e.tag = "bt.stack.pop" then none
  else if e.tag = "bt.stack.wait" then some .waiting
  else if e.tag = "bt.stack.wait_next_update" then some .waitUntilNextUpdate
  else state

end TraceEvent

/-- Which wait the stack `label` traced last since its last push or pop. -/
def lastSuspension (label : StackLabel) (events : List TraceEvent) : Option StackState :=
  events.foldl (TraceEvent.suspension label) none

theorem lastSuspension_append (label : StackLabel) (events new : List TraceEvent) :
    lastSuspension label (events ++ new)
      = new.foldl (TraceEvent.suspension label) (lastSuspension label events) :=
  List.foldl_append

/-- What other stacks trace tells nothing of this one. -/
theorem lastSuspension_of_ne {label : StackLabel} (events : List TraceEvent)
    {new : List TraceEvent} (h : ∀ e ∈ new, e.stack ≠ label.traceId) :
    lastSuspension label (events ++ new) = lastSuspension label events := by
  rw [lastSuspension_append]
  induction new with
  | nil => rfl
  | cons e new ih =>
    rw [List.foldl_cons, TraceEvent.suspension, if_pos (h e List.mem_cons_self)]
    exact ih fun e' he' => h e' (List.mem_cons_of_mem e he')

namespace Stack

variable {σ : Type} [Node σ] {g : Graph σ} {s s' : Stack} {w w' : World σ}

/-- If the stack is suspended, its trace tells how, and its top node may answer so. -/
structure Announced (g : Graph σ) (s : Stack) (w : World σ) : Prop where
  traced : s.isWaiting → lastSuspension s.label w.traced = some s.state
  waits : s.isWaiting → ∀ top, s.top? = some top → g.Waits top s.state

theorem announced_of_awake (h : s.isWaiting = false) : Announced g s w :=
  ⟨fun hw => absurd hw (by simp [h]), fun hw => absurd hw (by simp [h])⟩

theorem Announced.elsewhere (h : Announced g s w)
    (hw : lastSuspension s.label w'.traced = lastSuspension s.label w.traced) :
    Announced g s w' :=
  ⟨fun hs => hw.trans (h.traced hs), h.waits⟩

/-- A change of the other fields. -/
theorem Announced.fields (h : Announced g s w) (hl : s'.label = s.label)
    (hn : s'.nodes = s.nodes) (hst : s'.state = s.state) (hw : w'.traced = w.traced) :
    Announced g s' w' := by
  refine ⟨fun hs => ?_, fun hs top ht => ?_⟩
  · rw [hl, hw, hst]
    exact h.traced (by simpa [isWaiting, hst] using hs)
  · rw [hst]
    exact h.waits (by simpa [isWaiting, hst] using hs) top (by simpa [top?, hn] using ht)

/-! ## The parts of a pass -/

/-- A node that suspends its stack may answer so. -/
theorem waits_of_turned {node : NodeId} {status : Status} {calls : List NodeId} {kind : StackState}
    (hg : g.Grown w.graph) (h : w.Turned node w' (.answered status calls))
    (hk : status.suspension? = some kind) : g.Waits node kind := by
  rcases h with h | ⟨ok, h⟩
  · obtain ⟨slot, x, ctx, hs, hx, ha, -⟩ := World.execute_answered h
    obtain ⟨slot₀, hs₀, hgrown⟩ := hg.slot? hs
    exact ⟨slot₀, hs₀, .execute (hgrown.node.trans hx) (ha ▸ hk)⟩
  · obtain ⟨slot, ctx, hs, ha, -⟩ := World.receive_answered h
    obtain ⟨slot₀, hs₀, hgrown⟩ := hg.slot? hs
    exact ⟨slot₀, hs₀, .receive hgrown.node (ha ▸ hk)⟩

theorem suspend_announced {node : NodeId} (hs : s.top? = some node) (h : g.Waits node .waiting) :
    Announced g (s.suspend w node).after (s.suspend w node).world := by
  refine ⟨fun _ => ?_, fun _ top ht => ?_⟩
  · simp [suspend, lastSuspension_append, TraceEvent.suspension]
  · cases hs.symm.trans ht
    exact h

theorem park_announced {node : NodeId} (hs : s.top? = some node)
    (h : g.Waits node .waitUntilNextUpdate) :
    Announced g (s.park w node).after (s.park w node).world := by
  refine ⟨fun _ => ?_, fun _ top ht => ?_⟩
  · simp [park, lastSuspension_append, TraceEvent.suspension]
  · cases hs.symm.trans ht
    exact h

theorem complete_awake {node : NodeId} (ok : Bool) (hs : s.isWaiting = false) :
    (s.complete w node ok).after.isWaiting = false := by
  unfold complete
  split
  · exact hs
  · rfl

theorem settleStatus_announced {node : NodeId} {status : Status} (hs : s.isWaiting = false)
    (ht : s.top? = some node) (h : ∀ kind, status.suspension? = some kind → g.Waits node kind) :
    Announced g (s.settleStatus w node status).after (s.settleStatus w node status).world := by
  cases status with
  | noReturn =>
    simp only [settleStatus]
    split <;> exact announced_of_awake hs
  | success | failed => exact announced_of_awake (complete_awake _ hs)
  | wait => exact suspend_announced ht (h _ rfl)
  | waitUntilNextUpdate => exact park_announced ht (h _ rfl)
  | error => exact announced_of_awake rfl

theorem call_awake {node child : NodeId} {status : Status} (hs : s.isWaiting = false)
    (ht : s.top? = some node) : (s.call w node child status).after.isWaiting = false := by
  unfold call
  split
  · exact hs
  split
  · exact hs
  split
  · exact hs
  next hr _ hn =>
  simp only [ne_eq, Decidable.not_not] at hr
  subst hr
  rw [settleStatus_noReturn]
  · rfl
  · rintro ⟨⟩
    exact hn (by simp [Stack.contains, List.mem_of_head? ht])

theorem apply_announced {node : NodeId} {d : Dispatch} (hg : g.Grown w.graph)
    (h : w.Turned node w' d) (hs : s.isWaiting = false) (ht : s.top? = some node) :
    Announced g (s.apply w' node d).after (s.apply w' node d).world :=
  match d with
  | .bindFailed _ => announced_of_awake rfl
  | .answered _ [] => settleStatus_announced hs ht fun _ => waits_of_turned hg h
  | .answered _ [_] => announced_of_awake (call_awake hs ht)
  | .answered _ (_ :: _ :: _) => announced_of_awake hs

theorem step_announced {top : NodeId} (hg : g.Grown w.graph) (hs : s.isWaiting = false)
    (ht : s.top? = some top) : Announced g (s.step w top).after (s.step w top).world := by
  simp only [step]
  split
  · exact announced_of_awake hs
  split
  · split
    · exact announced_of_awake hs
    split
    · exact announced_of_awake hs
    · next hw => exact apply_announced hg (.inr ⟨_, hw⟩) hs ht
  · split
    · exact announced_of_awake rfl
    · next hw => exact apply_announced hg (.inl hw) rfl ht

theorem drive_announced (budget : Nat) (hg : g.Grown w.graph) (h : Announced g s w) :
    Announced g (drive budget s w).after (drive budget s w).world := by
  induction budget generalizing s w with
  | zero =>
    rw [drive]
    split
    · exact h
    split
    · exact h
    split
    · exact h
    · exact h.fields rfl rfl rfl (by simp [exhausted])
  | succ budget ih =>
    rw [drive]
    split
    · exact h
    next top rest hn =>
    split
    · exact h
    next hr =>
    split
    · exact h
    have hs : s.isWaiting = false := by simp_all [rests]
    have ht : s.top? = some top := by simp [top?, hn]
    simp only
    split
    · exact step_announced hg hs ht
    next hp =>
    have hm : Made (fun _ => False) s w (s.step w top) := step_made w hn
    refine ih (hg.trans hm.acts.frame.graph) (announced_of_awake ?_)
    simp only [rests, Bool.or_eq_true, not_or, Bool.not_eq_true] at hp
    exact hp.2.1

theorem run_announced (hg : g.Grown w.graph) (h : Announced g s w) :
    Announced g (s.run w).after (s.run w).world := by
  have hlast : Announced g { s with last := none } w := h.fields rfl rfl rfl rfl
  have hd := drive_announced s.stepBudget hg hlast
  simp only [run]
  split
  · exact announced_of_awake rfl
  split
  · exact announced_of_awake rfl
  · exact hd.fields rfl rfl rfl rfl

/-! ## The operations of a host -/

theorem start_announced (hg : g.Grown w.graph) (h : Announced g s w) (head : NodeId) :
    Announced g (s.start w head).after (s.start w head).world := by
  unfold start
  split
  · exact h
  next hs =>
  split
  · exact h
  have hst : s.state = .ready := by simp_all
  refine run_announced (hg.trans (entered_frame ..).graph) (announced_of_awake ?_)
  simp [push, isWaiting, StackState.isWaiting, hst]

theorem restart_announced (hg : g.Grown w.graph) (h : Announced g s w) (head : NodeId) :
    Announced g (s.restart w head).after (s.restart w head).world := by
  unfold restart
  split
  · exact start_announced hg (announced_of_awake rfl) head
  · exact start_announced hg h head

theorem receiveReturn_announced (hg : g.Grown w.graph) (h : Announced g s w) (ok : Bool) :
    Announced g (s.receiveReturn w ok).after (s.receiveReturn w ok).world := by
  unfold receiveReturn
  split
  · exact h
  next node hs =>
  obtain ⟨-, rest, hn⟩ := suspended?_eq_some hs
  have hm : Made (fun _ => False) s w (s.complete w node ok) := complete_made w ok hn
  unfold complete at hm ⊢
  split
  · next hc =>
    split at hc
    · cases hc; exact h
    · cases hc
  · next hc =>
    split at hc
    · cases hc
    · next hw =>
      rw [hw] at hm
      cases hc
      exact run_announced (hg.trans hm.acts.frame.graph) (announced_of_awake rfl)

theorem resumeNextUpdate_announced (hg : g.Grown w.graph) (h : Announced g s w) :
    Announced g (s.resumeNextUpdate w).1.after (s.resumeNextUpdate w).1.world := by
  unfold resumeNextUpdate
  split
  · exact run_announced hg (announced_of_awake rfl)
  · exact h

theorem breakTo_announced (hs : s.Sound w) (h : Announced g s w) (stopAt : Option NodeId) :
    Announced g (s.breakTo w stopAt).after (s.breakTo w stopAt).world := by
  have hf := unwind_known s.label stopAt hs.known
  unfold breakTo
  split
  · exact h
  split
  · next hu => rw [hu] at hf; cases hf
  · exact announced_of_awake rfl

theorem terminate_announced (hs : s.Sound w) :
    Announced g (s.terminate w).after (s.terminate w).world := by
  obtain ⟨w', hu⟩ := unwind_all s.label hs.known
  simp only [terminate, breakTo, Option.filter_none, hu]
  exact announced_of_awake rfl

/-- A status that a hook answers, if it is no other wait than the one the stack is in. -/
theorem receiveStatus_announced (hg : g.Grown w.graph) (h : Announced g s w) {status : Status}
    (hk : ∀ kind, status.suspension? = some kind → s.state = kind) :
    Announced g (s.receiveStatus w status).after (s.receiveStatus w status).world := by
  unfold receiveStatus
  split
  · exact receiveReturn_announced hg h _
  split
  · exact h
  split
  · exact h.fields rfl rfl (hk _ rfl).symm rfl
  · exact h.fields rfl rfl (hk _ rfl).symm rfl
  · exact announced_of_awake rfl
  · exact h

/-- A hook that answers with a wait answers with the one that its stack is in. -/
theorem forwardHook_announced (hg : g.Grown w.graph) (hsteady : g.Steady) (h : Announced g s w)
    (phase : Phase) :
    Announced g (s.forwardHook w phase).after (s.forwardHook w phase).world := by
  unfold forwardHook
  split
  · exact h
  next top hs =>
  split
  · exact h
  obtain ⟨hwait, rest, hn⟩ := suspended?_eq_some hs
  have hgrown : g.Grown (w.hook top phase).1.graph := hg.trans (World.hook_keeps w top phase).graph
  have hsame : Announced g s (w.hook top phase).1 :=
    h.fields rfl rfl rfl (World.traced_hook w top phase)
  split
  · next hw =>
    rw [hw] at hsame
    exact hsame
  · next w' status hw =>
    rw [hw] at hsame hgrown
    refine receiveStatus_announced hgrown hsame fun kind hk => ?_
    obtain ⟨slot, ctx, hslot, hh, ha⟩ := World.hook_answered hw
    obtain ⟨slot₀, hslot₀, hslots⟩ := hg.slot? hslot
    have hhook : Node.HookWaits slot₀.node kind :=
      ⟨slot.node, ctx, phase, hslots.node, hh, by rw [ha]; exact hk⟩
    obtain ⟨slot₁, hslot₁, hwaits⟩ := h.waits hwait top (by simp [top?, hn])
    cases hslot₀.symm.trans hslot₁
    exact hsteady top slot₀ hslot₀ kind hhook s.state hwaits
  · next hw =>
    rw [hw] at hsame
    exact hsame

theorem perform_announced (hg : g.Grown w.graph) (hsteady : g.Steady) (hs : s.Sound w)
    (h : Announced g s w) {op : Operation} (hop : op.isStatus = false) :
    Announced g (s.perform w op).after (s.perform w op).world := by
  cases op with
  | start head => exact start_announced hg h head
  | restart head => exact restart_announced hg h head
  | run => exact run_announced hg h
  | receiveReturn ok => exact receiveReturn_announced hg h ok
  | receiveStatus status => cases hop
  | resumeNextUpdate => exact resumeNextUpdate_announced hg h
  | breakTo stopAt => exact breakTo_announced hs h stopAt
  | terminate => exact terminate_announced hs
  | forwardHook phase => exact forwardHook_announced hg hsteady h phase
  | pause | resume | applyConfig _ => exact h.fields rfl rfl rfl rfl

end Stack

end BehaviorTree
