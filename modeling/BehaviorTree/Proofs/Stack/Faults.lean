/-
What an operation finds broken, and of what that comes.

The machine guards against more than can happen. No node is visited twice in a row, since a
visit after which the pass goes on leaves another node on top; a result that is to be delivered
is always there; and the world knows every node that a stack asks it about. What is found
broken therefore comes of something else (`Operation.Finds`): the operation was refused, the
stack was broken before, or a node, its hook or the host broke a rule. Few of these tell of a
node that is executed once more, or of one that is not in the graph.
-/
import BehaviorTree.Proofs.Stack.Lineage
import BehaviorTree.Proofs.Stack.Refusals
import BehaviorTree.Proofs.Stack.Visits

namespace BehaviorTree

variable {σ : Type} [Node σ]

/-- What a visit finds broken: it comes of what the node answered. -/
inductive Visit.Breaks (v : Visit σ) : StackError → Prop
  /-- It called a child, so it says, but it called nobody. -/
  | callsNobody {w} (h : v.Answers w (.answered .noReturn [])) (state : StackState) :
      v.Breaks (.recursiveExecution v.stack.label v.node state)
  /-- It called a node that is on the stack already. -/
  | callsAgain {w child} (h : v.Answers w (.answered .noReturn [child]))
      (hc : child ∈ v.stack.nodes) (state : StackState) :
      v.Breaks (.recursiveExecution v.stack.label child state)
  | callsForeign {w child} (h : v.Answers w (.answered .noReturn [child]))
      (hc : w.graph.contains child = false) : v.Breaks (.unknownNode child)
  /-- It called a child and did not wait for what comes of it. -/
  | callsIdly {w status child} (h : v.Answers w (.answered status [child]))
      (hs : status ≠ .noReturn) : v.Breaks (.callWithoutNoReturn v.node child status)
  | callsMany {w status child child' more}
      (h : v.Answers w (.answered status (child :: child' :: more))) :
      v.Breaks (.multipleCalls v.node)

/-- What a stack may demand of the world for a node. -/
inductive Demand where
  | execute
  | receive (ok : Bool)
  | stop
  | interrupt
  | hook (phase : Phase)
deriving DecidableEq, Repr

/-- Whether the world does what is demanded. -/
def Demand.reply (w : World σ) (n : NodeId) : Demand → Except StackError Unit
  | .execute => (w.execute n).map fun _ => ()
  | .receive ok => (w.receive n ok).map fun _ => ()
  | .stop => (w.stop n).map fun _ => ()
  | .interrupt => (w.interrupt n).map fun _ => ()
  | .hook phase => (w.hook n phase).2.map fun _ => ()

/-- A node that is in the graph is found, whatever is demanded for it. -/
theorem Demand.reply_ne_unknownNode {w : World σ} {n : NodeId} (h : w.graph.contains n)
    (r : Demand) (m : NodeId) : r.reply w n ≠ .error (.unknownNode m) := by
  cases r with
  | execute =>
    obtain ⟨w', d, hw⟩ := World.exists_execute h
    simp [reply, hw, Except.map]
  | receive ok =>
    obtain ⟨w', d, hw⟩ := World.exists_receive h ok
    simp [reply, hw, Except.map]
  | stop =>
    obtain ⟨w', hw⟩ := World.exists_stop h
    simp [reply, hw, Except.map]
  | interrupt =>
    obtain ⟨w', hw⟩ := World.exists_interrupt h
    simp [reply, hw, Except.map]
  | hook phase =>
    cases hw : (w.hook n phase).2 with
    | ok outcome => simp [reply, hw, Except.map]
    | error e =>
      obtain ⟨child, status, rfl⟩ := World.hook_error h hw
      simp [reply, hw, Except.map]

/-- Nothing is wrong with the stack when a node is visited, and the pass does not go on to the
same node. -/
structure Visit.Untripped (v : Visit σ) : Prop where
  last : v.stack.last ≠ some v.node
  result : v.stack.result.isSome ↔ v.stack.state = .receiving
  moved : v.GoesOn → v.outcome.after.top? ≠ some v.node

namespace Stack

variable {s s' : Stack} {w w' : World σ} {op : Operation} {e : StackError} {n : NodeId}
  {top : NodeId} {rest : List NodeId} {status : Status}

/-! ## What is found broken -/

theorem breaks_of_call {v : Visit σ} {child : NodeId} (hv : v.stack.Visits v.node rest)
    (hturn : v.Answers w (.answered status [child]))
    (he : ((v.stack.facing v.node).call w v.node child status).fault = some e) : v.Breaks e := by
  unfold call at he
  split at he
  · next hst =>
    cases he
    exact .callsIdly hturn hst
  next hst =>
  simp only [ne_eq, Decidable.not_not] at hst
  subst hst
  split at he
  · next hc =>
    cases he
    exact .callsForeign hturn (by simpa using hc)
  split at he
  · next hn =>
    cases he
    exact .callsAgain hturn (of_decide_eq_true hn) _
  · next hn =>
    -- The child lies on top by now, so nothing is left to do for its caller.
    rw [settleStatus_noReturn] at he
    · cases he
    · rintro ⟨⟩
      exact hn (by simp [Stack.contains, facing, hv.nodes])

/-- What comes of turning to a node is found broken only for what the node answered. -/
theorem breaks_of_outcome {v : Visit σ} (h : v.stack.Poised v.world)
    (hv : v.stack.Visits v.node rest) (he : v.outcome.fault = some e) : v.Breaks e := by
  obtain ⟨w', d, hturn, heq⟩ := h.step_eq hv
  have hknown : w'.graph.contains v.node := by
    rw [(World.turned_of_turn hturn).keeps.graph.contains]
    exact h.known hv.nodes
  have htop : (v.stack.facing v.node).top? = some v.node := by simp [facing, top?, hv.nodes]
  rw [Visit.outcome, heq] at he
  cases d with
  | bindFailed _ => cases he
  | answered status calls =>
  rcases calls with _ | ⟨child, _ | ⟨_, _⟩⟩
  · cases status with
    | noReturn =>
      simp only [apply, settleStatus, htop, if_true] at he
      cases he
      exact .callsNobody hturn _
    | success | failed =>
      rw [apply, settleStatus, complete_fault hknown] at he
      cases he
    | wait | waitUntilNextUpdate | error => cases he
  · exact breaks_of_call hv hturn he
  · cases he
    exact .callsMany hturn

/-- The node that waits is handed the status, by its hook or by the host. -/
def Operation.Hands (w : World σ) (n : NodeId) (status : Status) : Operation → Prop
  | .receiveStatus status' => status' = status
  | .forwardHook phase => (w.hook n phase).2 = .ok (some (.ended status))
  | _ => False

/-- What an operation finds broken, and of what that comes. -/
inductive Operation.Finds (s : Stack) (w : World σ) (op : Operation) : StackError → Prop
  /-- There is no room for a head. -/
  | notReady {head} (h : op.Heads head) (hs : s.nodes ≠ [] ∨ s.state ≠ .ready) :
      Finds s w op (.notReady s.label s.state s.nodes.length)
  | foreignHead {head} (h : op.Heads head) (hc : w.graph.contains head = false) :
      Finds s w op (.unknownNode head)
  | notWaiting (h : s.suspended? = none) : Finds s w op (.notWaiting s.label s.state)
  | noTarget {target} (h : op = .breakTo (some target)) (ht : target ∉ s.nodes) :
      Finds s w op (.breakTargetNotOnStack s.label target)
  /-- A rule was broken before, and the stack is driven all the same. -/
  | invalid : Finds s w op (.invalid s.label)
  /-- The last visit of the pass found a rule broken. -/
  | visit {v : Visit σ} {e : StackError} (hv : (op.visits s w).getLast? = some v)
      (h : v.Breaks e) : Finds s w op e
  /-- The node that waits calls a child in its hook. -/
  | hooked {n child : NodeId} {phase : Phase} {status : Status} (h : op = .forwardHook phase)
      (hn : s.suspended? = some n)
      (hh : (w.hook n phase).2 = .error (.callWithoutNoReturn n child status)) :
      Finds s w op (.callWithoutNoReturn n child status)
  /-- The node that waits is said to have called a child. -/
  | handed {n : NodeId} (hn : s.suspended? = some n) (h : op.Hands w n .noReturn) :
      Finds s w op (.recursiveExecution s.label n s.state)

/-- The end of a pass breaks no rule. -/
theorem drive_fault_of_run (he : (s.run w).fault = some e) :
    (drive s.stepBudget { s with last := none } w).fault = some e := by
  simp only [run] at he
  split at he
  · next hf => rw [hf]; exact he
  · split at he <;> cases he

theorem finds_of_pass (hs : Sound s w) (hpass : op.pass? s w = some (s', w'))
    (he : (s.perform w op).fault = some e) : op.Finds s w e := by
  have hcomes := comes_of_pass? hs hpass
  rw [hcomes.run] at he
  rcases drive_fault _ (drive_fault_of_run he) with rfl | ⟨v, hv, hf⟩
  · rw [show ({ s' with last := none } : Stack).label = s.label from hcomes.label]
    exact .invalid
  · have hlast : (op.visits s w).getLast? = some v := by rw [Operation.visits, hpass]; exact hv
    obtain ⟨hpoised, rest, hvisits⟩ := visits_poised hs (List.mem_of_getLast? hlast)
    exact .visit hlast (breaks_of_outcome hpoised hvisits hf)

/-- What is found broken when the node that waits is handed a status. -/
theorem receiveStatus_fault (hn : s.suspended? = some n)
    (he : (s.receiveStatus w status).fault = some e) :
    (∃ ok, status.outcome = some ok ∧ (s.receiveReturn w ok).fault = some e) ∨
      status = .noReturn ∧ e = .recursiveExecution s.label n s.state := by
  cases status with
  | success => exact .inl ⟨true, rfl, he⟩
  | failed => exact .inl ⟨false, rfl, he⟩
  | noReturn =>
    simp only [receiveStatus, Status.outcome, hn] at he
    exact .inr ⟨rfl, (Option.some.inj he).symm⟩
  | wait | waitUntilNextUpdate | error =>
    simp only [receiveStatus, Status.outcome, hn] at he
    cases he

/-- The hook of a node is forwarded, and what it answers is done. -/
theorem forwardHook_finds (hs : Sound s w) {phase : Phase}
    (he : (s.perform w (.forwardHook phase)).fault = some e) :
    (Operation.forwardHook phase).Finds s w e := by
  have hforward := he
  simp only [perform, forwardHook] at he
  split at he
  · cases he
  next n hn =>
  obtain ⟨-, rest, hnodes⟩ := suspended?_eq_some hn
  split at he
  · cases he
  next hp =>
  have hhook := hs.hooked n phase
  cases hw : w.hook n phase with
  | mk w' r =>
    rw [hw] at he hhook
    -- The hook broke a rule, there is none, it goes on, or it ended with a status.
    rcases r with _ | _ | _ | status
    · cases he
      have hr : (w.hook n phase).2 = .error e := by rw [hw]
      obtain ⟨child, status, rfl⟩ := World.hook_error (hs.known n (by simp [hnodes])) hr
      exact .hooked rfl hn hr
    · cases he
    · cases he
    · rcases receiveStatus_fault hn he with ⟨ok, hok, -⟩ | ⟨rfl, rfl⟩
      · obtain ⟨s', w'', hpass, -⟩ := passAfter_eq hhook hn ok
        have hcomes : (Operation.forwardHook phase).pass? s w = some (s', w'') := by
          simp [Operation.pass?, hp, hn, hw, hok, hpass]
        exact finds_of_pass hs hcomes hforward
      · exact .handed hn (by simp [Operation.Hands, hw])

/-- A head is refused for want of room, or because it is not there. -/
theorem finds_of_head {head : NodeId} (hop : op.Heads head) {full : Prop} [Decidable full]
    (hfull : full → s.nodes ≠ [] ∨ s.state ≠ .ready)
    (h : (if full then some (StackError.notReady s.label s.state s.nodes.length)
      else if w.graph.contains head then none else some (.unknownNode head)) = some e) :
    op.Finds s w e := by
  split at h
  · next hno =>
    cases h
    exact .notReady hop (hfull hno)
  split at h
  · cases h
  · next hc =>
    cases h
    exact .foreignHead hop (by simpa using hc)

theorem start_finds (hs : Sound s w) {head : NodeId}
    (he : (s.perform w (.start head)).fault = some e) : (Operation.start head).Finds s w e := by
  cases hr : (Operation.start head).refusal? s w with
  | none => exact finds_of_pass hs (by simp only [Operation.pass?, hr]; rfl) he
  | some e' =>
    rw [perform, start_refused hs hr] at he
    cases he
    have hop : (Operation.start head).Heads head := rfl
    exact finds_of_head hop id hr

theorem restart_finds (hs : Sound s w) {head : NodeId}
    (he : (s.perform w (.restart head)).fault = some e) : (Operation.restart head).Finds s w e := by
  cases hr : (Operation.restart head).refusal? s w with
  | none => exact finds_of_pass hs (by simp only [Operation.pass?, hr]; rfl) he
  | some e' =>
    rw [perform, restart_refused hs hr] at he
    cases he
    have hop : (Operation.restart head).Heads head := rfl
    exact finds_of_head hop .inl hr

theorem receiveReturn_finds (hs : Sound s w) {ok : Bool}
    (hpass : s.passAfter? w ok = op.pass? s w) (hperform : s.receiveReturn w ok = s.perform w op)
    (he : (s.receiveReturn w ok).fault = some e) : op.Finds s w e := by
  cases hn : s.suspended? with
  | none =>
    rw [receiveReturn, hn] at he
    cases he
    exact .notWaiting hn
  | some n =>
    obtain ⟨s', w', hafter, -⟩ := passAfter_eq hs hn ok
    exact finds_of_pass hs (hpass.symm.trans hafter) (hperform ▸ he)

theorem receiveStatus_finds (hs : Sound s w)
    (he : (s.perform w (.receiveStatus status)).fault = some e) :
    (Operation.receiveStatus status).Finds s w e := by
  cases hn : s.suspended? with
  | none =>
    have he' : (s.receiveStatus w status).fault = some (.notWaiting s.label s.state) := by
      unfold receiveStatus receiveReturn
      rw [hn]
      cases status.outcome <;> rfl
    cases (he' : (s.perform w (.receiveStatus status)).fault = _).symm.trans he
    exact .notWaiting hn
  | some n =>
    rcases receiveStatus_fault hn he with ⟨ok, hok, hret⟩ | ⟨rfl, rfl⟩
    · have hpass : (Operation.receiveStatus status).pass? s w = s.passAfter? w ok := by
        rw [Operation.pass?, hok]
        rfl
      exact receiveReturn_finds hs hpass.symm (receiveStatus_of_outcome hok).symm hret
    · exact .handed hn rfl

theorem breakTo_finds (hs : Sound s w) {stopAt : Option NodeId}
    (he : (s.breakTo w stopAt).fault = some e) : (Operation.breakTo stopAt).Finds s w e := by
  unfold Stack.breakTo at he
  split at he
  · next target hf =>
    obtain ⟨rfl, ht⟩ := Option.filter_eq_some_iff.1 hf
    cases he
    exact .noTarget rfl (by simpa [Stack.contains] using ht)
  have hu := unwind_known s.label stopAt hs.known
  split at he
  · next hf => simp [hf] at hu
  · cases he

/-- Whatever an operation finds broken has a cause that is told of. -/
theorem perform_finds (hs : Sound s w) (he : (s.perform w op).fault = some e) :
    op.Finds s w e := by
  cases op with
  | start head => exact start_finds hs he
  | restart head => exact restart_finds hs he
  | run => exact finds_of_pass hs rfl he
  | receiveReturn ok => exact receiveReturn_finds hs rfl rfl he
  | receiveStatus status => exact receiveStatus_finds hs he
  | resumeNextUpdate =>
    by_cases hdue : s.isDue w.tick.number
    · exact finds_of_pass hs (by rw [Operation.pass?, if_pos hdue]) he
    · rw [perform, resumeNextUpdate, if_neg hdue] at he
      cases he
  | breakTo stopAt => exact breakTo_finds hs he
  | terminate =>
    rw [perform, (terminate_eq hs.known).1] at he
    cases he
  | forwardHook phase => exact forwardHook_finds hs he
  | pause | resume | applyConfig => cases he

/-! ## What is demanded of the world -/

/-- The nodes that are interrupted in a rollback, each with the world as it is then. -/
def interruptions (label : StackLabel) (stopAt : Option NodeId) :
    List NodeId → World σ → List (World σ × NodeId)
  | [], _ => []
  | top :: rest, w =>
    if stopAt = some top then []
    else (w, top) :: match w.interrupt top with
      | .error _ => []
      | .ok w => interruptions label stopAt rest (w.left label top rest.length)

theorem known_of_mem_interruptions (label : StackLabel) (stopAt : Option NodeId)
    {ns : List NodeId} (h : ∀ n ∈ ns, w.graph.contains n)
    (hm : (w', n) ∈ interruptions label stopAt ns w) : w'.graph.contains n := by
  induction ns generalizing w with
  | nil => cases hm
  | cons top rest ih =>
    rw [interruptions] at hm
    split at hm
    · cases hm
    rcases List.mem_cons.1 hm with hm | hm
    · cases hm
      exact h _ List.mem_cons_self
    cases hw : w.interrupt top with
    | error _ => simp [hw] at hm
    | ok w₁ =>
      rw [hw] at hm
      have hg : w.graph.Grown (w₁.left label top rest.length).graph :=
        (World.interrupt_keeps hw).graph
      refine ih (fun n hn => ?_) hm
      rw [hg.contains]
      exact h n (List.mem_cons_of_mem _ hn)

/-- In the course of the operation something is demanded of the world, as it is then, for a
node. -/
inductive Operation.Demands (s : Stack) (w : World σ) (op : Operation) :
    Demand → World σ → NodeId → Prop
  | execute {v : Visit σ} (hv : v ∈ op.visits s w) (hs : v.stack.state ≠ .receiving) :
      Demands s w op .execute v.world v.node
  | receive {v : Visit σ} {ok : Bool} (hv : v ∈ op.visits s w) (hs : v.stack.state = .receiving)
      (hr : v.stack.result = some ok) : Demands s w op (.receive ok) v.world v.node
  /-- The node that is visited ended. -/
  | stop {v : Visit σ} {w' : World σ} {ok : Bool} (hv : v ∈ op.visits s w)
      (h : v.Answers w' (.answered (.of ok) [])) : Demands s w op .stop w' v.node
  /-- The node that waits was ended. -/
  | ended {n : NodeId} {w' : World σ} {ok : Bool} (hn : s.suspended? = some n)
      (h : op.Ends w n w' ok) : Demands s w op .stop w' n
  | interrupt {stopAt : Option NodeId} {w' : World σ} {n : NodeId}
      (h : op = .breakTo stopAt ∨ op = .terminate ∧ stopAt = none)
      (hn : (w', n) ∈ interruptions s.label stopAt s.nodes w) : Demands s w op .interrupt w' n
  | hook {phase : Phase} {n : NodeId} (h : op = .forwardHook phase) (hn : s.suspended? = some n)
      (hp : s.paused = false) : Demands s w op (.hook phase) w n

/-- A stack makes demands only for nodes that are in the graph. -/
theorem known_of_demands (hs : Sound s w) {r : Demand} (h : op.Demands s w r w' n) :
    w'.graph.contains n := by
  have hwaits : ∀ {n}, s.suspended? = some n → w.graph.contains n := fun hn => by
    obtain ⟨-, rest, hnodes⟩ := suspended?_eq_some hn
    exact hs.known _ (by simp [hnodes])
  cases h with
  | execute hv _ | receive hv _ _ =>
    obtain ⟨hpoised, rest, hvisits⟩ := visits_poised hs hv
    exact hpoised.known hvisits.nodes
  | stop hv hturn =>
    obtain ⟨hpoised, rest, hvisits⟩ := visits_poised hs hv
    rw [(World.turned_of_turn hturn).keeps.graph.contains]
    exact hpoised.known hvisits.nodes
  | ended hn hends =>
    cases op with
    | receiveReturn | receiveStatus => exact hends.2 ▸ hwaits hn
    | forwardHook phase =>
      obtain ⟨status, hhook, -⟩ := hends
      have hk := World.hook_keeps w n phase
      rw [hhook] at hk
      rw [hk.graph.contains]
      exact hwaits hn
    | _ => exact hends.elim
  | interrupt _ hn => exact known_of_mem_interruptions _ _ hs.known hn
  | hook _ hn _ => exact hwaits hn

/-! ## No guard trips -/

theorem untripped_of_visits (hs : Sound s w) {v : Visit σ} (hv : v ∈ op.visits s w) :
    v.Untripped := by
  obtain ⟨hpoised, rest, hvisits⟩ := visits_poised hs hv
  refine ⟨hpoised.last_ne hvisits, hpoised.coherent.result_iff, fun hgo htop => ?_⟩
  obtain ⟨-, hdone⟩ := step_turned hpoised.placed hvisits.nodes hgo.fault
  rcases hdone htop with hrests | ⟨hp, hst⟩
  · exact absurd (hgo.rests.symm.trans hrests) Bool.false_ne_true
  · rcases hgo.free with hfree | hfree
    · exact absurd (hfree.symm.trans hp) Bool.false_ne_true
    · exact hst hfree

/-- Whatever a host does to a stack, with whatever nodes: at no visit is the node the one that
was visited last, since a visit after which the pass goes on leaves another node on top; every
node that something is demanded for is in the graph; no result is ever missing; and what is
found broken has one of the causes that `Operation.Finds` lists. -/
theorem guards_untripped (h : Reachable s w) (op : Operation) :
    (∀ v ∈ op.visits s w, v.Untripped) ∧ (op.visits s w).IsChain Visit.Follows ∧
      (∀ demand v n, op.Demands s w demand v n → ∀ m, demand.reply v n ≠ .error (.unknownNode m)) ∧
      (∀ label n, (s.perform w op).fault ≠ some (.missingResult label n)) ∧
      ∀ e, (s.perform w op).fault = some e → op.Finds s w e := by
  have hs := h.sound
  refine ⟨fun v hv => untripped_of_visits hs hv, follow_of_visits hs op, fun demand v n hd => ?_,
    fun label n hf => ?_, fun e he => perform_finds hs he⟩
  · exact demand.reply_ne_unknownNode (known_of_demands hs hd)
  · cases perform_finds hs hf with
    | visit _ hbreaks => cases hbreaks

/-- A leaf that succeeds, under a root that calls it and then itself. -/
def callsItself : Graph Scripted where
  slots := #[
    { name := "leaf", node := { name := "leaf" }, parent := some ⟨1⟩ },
    { name := "root"
      node :=
        { name := "root"
          execute := [{ instructions := [.call ⟨0⟩], answer := some .noReturn }]
          receive := [{ instructions := [.call ⟨1⟩], answer := some .noReturn }]
          children := [⟨0⟩] } }]

/-- The first pass is cut after the leaf was called. The second one executes the leaf and hands
the root its result, and then the root calls itself. -/
theorem guards_untripped_callsItself :
    let w : World Scripted := { graph := callsItself, blackboard := {} }
    let p := perform { label := .main } w (.applyConfig { maxStepsPerPass := 1 })
    let q := p.after.perform p.world (.start ⟨1⟩)
    let r := q.after.perform q.world (.applyConfig {})
    let s := r.after.perform r.world .resume
    let broken : StackError := .recursiveExecution .main ⟨1⟩ .receiving
    Reachable s.after s.world ∧
      (Operation.run.visits s.after s.world).map (·.node) = [⟨0⟩, ⟨1⟩] ∧
      (∀ v ∈ Operation.run.visits s.after s.world, v.Untripped) ∧
      (s.after.perform s.world .run).fault = some broken ∧
      Operation.run.Finds s.after s.world broken := by
  intro w p q r s broken
  have hs : Reachable s.after s.world :=
    .perform _ (.perform _ (.perform _ (.perform _ (.new _ w))))
  have hf : (s.after.perform s.world .run).fault = some broken := by decide +kernel
  obtain ⟨huntripped, -, -, -, hfinds⟩ := guards_untripped hs .run
  exact ⟨hs, by decide +kernel, huntripped, hf, hfinds broken hf⟩

end Stack

end BehaviorTree
