/-
A stack in two worlds that its nodes cannot tell apart.

An operation does the same to the stack in both worlds, and leaves worlds that the nodes cannot
tell apart either; for the nodes that come onto a stack are those that it has and their children.
What a stack of other nodes does, if these leave the variables as they are, makes no difference
to the nodes.
-/
import BehaviorTree.Proofs.Stack.Path
import BehaviorTree.Proofs.Stack.Reachable
import BehaviorTree.Proofs.World.SameFor

namespace BehaviorTree

variable {σ : Type} [Node σ] {g : Graph σ} {p : NodeId → Bool} {w v w' v' : World σ}

namespace Graph

/-- No node calls another than its children, and the children of some nodes are among them. -/
structure Closed (g : Graph σ) (p : NodeId → Bool) : Prop where
  calls : g.CallsChildren
  child : ∀ n c, p n → c ∈ g.children n → p c

/-- A node is none of them, nor is any below it, and none of these changes a variable. -/
def Hides (g : Graph σ) (p : NodeId → Bool) (head : NodeId) : Prop :=
  ∀ n, g.Under head n →
    p n = false ∧ ∀ slot, g.slot? n = some slot → Node.LeavesVariables slot.node

end Graph

/-- The outcome of the run of the root that is completed. -/
def StackEvent.mainEnd? : StackEvent → Option (Option Bool)
  | .ended .main result => some result
  | _ => none

theorem StackEvent.mainEnd?_eq_some {event : StackEvent} {result : Option Bool}
    (h : event.mainEnd? = some result) : event = .ended .main result := by
  cases event with
  | pushed | popped => cases h
  | ended stack => cases stack <;> cases h; rfl

omit [Node σ] in
/-- The outcomes of the runs that were completed and are not settled yet. -/
def World.mainEnds (w : World σ) : List (Option Bool) :=
  w.events.toList.filterMap StackEvent.mainEnd?

omit [Node σ] in
theorem World.mainEnds_of_settled {w : World σ} (h : w.events.toList = []) : w.mainEnds = [] := by
  rw [mainEnds, h, List.filterMap_nil]

namespace Stack

variable {s s' : Stack} {a b : Pass σ Stack}

/-- The nodes of the stack are some of those that cannot tell the worlds apart, and the same events
are to be settled. -/
structure Twin (g : Graph σ) (p : NodeId → Bool) (s : Stack) (w v : World σ) : Prop where
  grown : g.Grown w.graph
  same : w.SameFor p v
  events : w.events = v.events
  nodes : ∀ n ∈ s.nodes, p n

/-- The passes leave the same stack, in such worlds, and the same fault. -/
inductive Twins (g : Graph σ) (p : NodeId → Bool) : Pass σ Stack → Pass σ Stack → Prop
  | intro {s : Stack} {w v : World σ} (h : Twin g p s w v) (fault : Option StackError) :
      Twins g p ⟨s, w, fault⟩ ⟨s, v, fault⟩

theorem Twins.fault (h : Twins g p a b) : a.fault = b.fault := by
  cases h
  rfl

/-- The stack comes to another state. -/
theorem Twin.still (h : Twin g p s w v) (hn : s'.nodes = s.nodes) : Twin g p s' w v :=
  ⟨h.grown, h.same, h.events, fun n hm => h.nodes n (hn ▸ hm)⟩

/-- The nodes do not notice what is done in both worlds. -/
theorem Twin.aside (h : Twin g p s w v) (hw : w.SameFor p w') (hv : v.SameFor p v')
    (hg : w'.graph = w.graph) (he : w'.events = v'.events) : Twin g p s w' v' :=
  ⟨hg ▸ h.grown, (hw.symm.trans h.same).trans hv, he, h.nodes⟩

theorem Twin.trace (h : Twin g p s w v) (tag : String) (stack : StackLabel) (node : Option NodeId)
    (value : Int) : Twin g p s (w.trace tag stack node value) (v.trace tag stack node value) :=
  h.aside (.of_trace ..) (.of_trace ..) rfl h.events

theorem Twin.warn (h : Twin g p s w v) (message : String) (fields : List (String × String)) :
    Twin g p s (w.warn message fields) (v.warn message fields) :=
  h.aside (.of_record w rfl) (.of_record v rfl) rfl h.events

theorem Twin.report (h : Twin g p s w v) (d : Diagnostic) :
    Twin g p s (w.report d) (v.report d) :=
  h.aside (.of_report ..) (.of_report ..) rfl h.events

theorem Twin.enqueue (h : Twin g p s w v) (event : StackEvent) :
    Twin g p s (w.enqueue event) (v.enqueue event) :=
  h.aside (.of_enqueue ..) (.of_enqueue ..) rfl (by simp [World.enqueue, h.events])

/-- What a step of a node leaves in both worlds. -/
theorem Twin.stepped (h : Twin g p s w v) (hw : w.Keeps w') (hv : v.Keeps v')
    (hs : w'.SameFor p v') : Twin g p s w' v' :=
  ⟨h.grown.trans hw.graph, hs, by rw [hw.events, hv.events, h.events], h.nodes⟩

theorem Twin.twins (h : Twin g p s w v) (fault : Option StackError) :
    Twins g p ⟨s, w, fault⟩ ⟨s, v, fault⟩ :=
  .intro h fault

/-- The stack comes to another state, the same in both passes, and none of its nodes notices. -/
theorem Twin.passes (h : Twin g p s a.world b.world) (hs : a.after = b.after)
    (hf : a.fault = b.fault) (hn : b.after.nodes = s.nodes) : Twins g p a b := by
  obtain ⟨s', w', fault⟩ := a
  obtain ⟨s'', v', fault'⟩ := b
  obtain rfl : s' = s'' := hs
  obtain rfl : fault = fault' := hf
  exact .intro (h.still hn) fault

/-! ## Steps of the nodes -/

theorem Twin.stop (h : Twin g p s w v) {node : NodeId} (hn : p node) :
    Answers (Twin g p s) (w.stop node) (v.stop node) :=
  (h.same.stop hn).with.imp fun _ _ ⟨hs, hw, hv⟩ =>
    h.stepped (World.stop_keeps hw) (World.stop_keeps hv) hs

theorem Twin.interrupt (h : Twin g p s w v) {node : NodeId} (hn : p node) :
    Answers (Twin g p s) (w.interrupt node) (v.interrupt node) :=
  (h.same.interrupt hn).with.imp fun _ _ ⟨hs, hw, hv⟩ =>
    h.stepped (World.interrupt_keeps hw) (World.interrupt_keeps hv) hs

theorem Twin.hook (h : Twin g p s w v) {node : NodeId} (hn : p node) (phase : Phase) :
    Twin g p s (w.hook node phase).1 (v.hook node phase).1 ∧
      (w.hook node phase).2 = (v.hook node phase).2 := by
  obtain ⟨hs, hr⟩ := h.same.hook hn phase
  exact ⟨h.stepped (World.hook_keeps ..) (World.hook_keeps ..) hs, hr⟩

/-- What comes of turning to a node: a child that it calls is one of them, too. -/
def TurnTwins (g : Graph σ) (p : NodeId → Bool) (s : Stack) (x y : World σ × Dispatch) : Prop :=
  Twin g p s x.1 y.1 ∧ x.2 = y.2 ∧ ∀ status child, x.2 = .answered status [child] → p child

theorem Twin.turned (h : Twin g p s w v) (hc : g.Closed p) {node : NodeId} (hn : p node)
    {x y : World σ × Dispatch} (hs : x.1.SameFor p y.1 ∧ x.2 = y.2)
    (hw : w.Turned node x.1 x.2) (hv : v.Turned node y.1 y.2) : TurnTwins g p s x y := by
  refine ⟨h.stepped hw.keeps hv.keeps hs.1, hs.2, fun status child hd => ?_⟩
  rw [hd] at hw
  exact hc.child node child hn (mem_children_of_turned hc.calls h.grown hw)

theorem Twin.execute (h : Twin g p s w v) (hc : g.Closed p) {node : NodeId} (hn : p node) :
    Answers (TurnTwins g p s) (w.execute node) (v.execute node) :=
  (h.same.execute hn).with.imp fun _ _ ⟨hs, hw, hv⟩ => h.turned hc hn hs (.inl hw) (.inl hv)

theorem Twin.receive (h : Twin g p s w v) (hc : g.Closed p) {node : NodeId} (hn : p node)
    (ok : Bool) : Answers (TurnTwins g p s) (w.receive node ok) (v.receive node ok) :=
  (h.same.receive hn ok).with.imp fun _ _ ⟨hs, hw, hv⟩ =>
    h.turned hc hn hs (.inr ⟨ok, hw⟩) (.inr ⟨ok, hv⟩)

/-! ## The parts of a pass -/

theorem errorResult_twins (h : Twin g p s w v) (node : NodeId) (message : String) :
    Twins g p (s.errorResult w node message) (s.errorResult v node message) :=
  Twin.passes (((h.warn ..).report _).trace ..) rfl rfl rfl

theorem bindFailed_twins (h : Twin g p s w v) (node : NodeId) (e : VariableError) :
    Twins g p (s.bindFailed w node e) (s.bindFailed v node e) :=
  Twin.passes (((h.warn ..).report _).trace ..) rfl rfl rfl

theorem exhausted_twins (h : Twin g p s w v) (node : NodeId) :
    Twins g p (s.exhausted w node) (s.exhausted v node) :=
  Twin.passes ((h.warn ..).report _) rfl rfl rfl

theorem finish_twins (h : Twin g p s w v) : Twins g p (s.finish w) (s.finish v) :=
  Twin.passes ((h.trace ..).enqueue _) rfl rfl rfl

theorem invalidate_twins (h : Twin g p s w v) (e : StackError) :
    Twins g p (s.invalidate w e) (s.invalidate v e) :=
  Twin.passes ((h.warn ..).trace ..) rfl rfl rfl

theorem suspend_twins (h : Twin g p s w v) (node : NodeId) :
    Twins g p (s.suspend w node) (s.suspend v node) :=
  Twin.passes (h.trace ..) rfl rfl rfl

theorem park_twins (h : Twin g p s w v) (node : NodeId) :
    Twins g p (s.park w node) (s.park v node) := by
  have hs : (s.park w node).after = (s.park v node).after := by simp only [park, h.same.tick]
  exact Twin.passes (h.trace ..) hs rfl rfl

theorem pop_twins (h : Twin g p s w v) : Twins g p (s.pop w) (s.pop v) := by
  unfold pop
  split
  · exact h.twins none
  next node rest hn =>
  have hleft := (h.trace "bt.stack.pop" s.label node rest.length).enqueue (.popped node)
  exact .intro ⟨hleft.grown, hleft.same, hleft.events, fun n hm =>
    h.nodes n (hn ▸ List.mem_cons_of_mem node hm)⟩ none

theorem complete_twins (h : Twin g p s w v) {node : NodeId} (hn : p node) (ok : Bool) :
    Twins g p (s.complete w node ok) (s.complete v node ok) := by
  have hstop := h.stop hn
  unfold complete
  generalize w.stop node = x at hstop ⊢
  generalize v.stop node = y at hstop ⊢
  cases hstop with
  | error e => exact h.twins (some e)
  | @ok w' v' hstop =>
    have hpop := pop_twins hstop
    simp only
    generalize s.pop w' = a at hpop ⊢
    generalize s.pop v' = b at hpop ⊢
    cases hpop with
    | intro h' fault => exact Twin.passes (h'.trace ..) rfl rfl rfl

theorem settleStatus_twins (h : Twin g p s w v) {node : NodeId} (hn : p node) (status : Status) :
    Twins g p (s.settleStatus w node status) (s.settleStatus v node status) := by
  cases status with
  | noReturn =>
    simp only [settleStatus]
    split <;> exact h.twins _
  | success | failed => exact complete_twins h hn _
  | wait => exact suspend_twins h node
  | waitUntilNextUpdate => exact park_twins h node
  | error => exact errorResult_twins h node _

theorem Twin.push (h : Twin g p s w v) {node : NodeId} (hn : p node) (label : StackLabel)
    (depth : Nat) (hs : s'.nodes = node :: s.nodes) :
    Twin g p s' (w.entered label node depth) (v.entered label node depth) := by
  have hin := (h.trace "bt.stack.push" label node depth).enqueue (.pushed node)
  refine ⟨hin.grown, hin.same, hin.events, fun n hm => ?_⟩
  rw [hs] at hm
  rcases List.mem_cons.1 hm with rfl | hm
  · exact hn
  · exact h.nodes n hm

theorem call_twins (h : Twin g p s w v) {node child : NodeId} (hn : p node) (hc : p child)
    (status : Status) : Twins g p (s.call w node child status) (s.call v node child status) := by
  unfold call
  rw [h.same.contains hc]
  split
  · exact h.twins _
  split
  · exact h.twins _
  split
  · exact h.twins _
  · exact settleStatus_twins (h.push hc s.label (s.depth + 1) rfl) hn status

theorem apply_twins (h : Twin g p s w v) {node : NodeId} (hn : p node) {d : Dispatch}
    (hd : ∀ status child, d = .answered status [child] → p child) :
    Twins g p (s.apply w node d) (s.apply v node d) := by
  match d with
  | .bindFailed e => exact bindFailed_twins h node e
  | .answered status [] => exact settleStatus_twins h hn status
  | .answered status [child] => exact call_twins h hn (hd status child rfl) status
  | .answered _ (_ :: _ :: _) => exact h.twins _

/-- A step takes both stacks to the same. -/
theorem step_twins (hc : g.Closed p) (h : Twin g p s w v) {top : NodeId} (hn : p top) :
    Twins g p (s.step w top) (s.step v top) := by
  unfold step
  simp only
  split
  · exact Twin.passes h rfl rfl rfl
  split
  · cases s.result with
    | none => exact Twin.passes h rfl rfl rfl
    | some ok =>
      have ht : Twin g p { s with current := some top, result := none } w v := h.still rfl
      have hr := ht.receive hc hn ok
      simp only
      generalize w.receive top ok = x at hr ⊢
      generalize v.receive top ok = y at hr ⊢
      cases hr with
      | error e => exact ht.twins _
      | @ok x y hr =>
        obtain ⟨ht', hd, hchild⟩ := hr
        simp only [← hd]
        exact apply_twins ht' hn hchild
  · have ht : Twin g p { s with current := some top, state := .calling } w v := h.still rfl
    have hr := ht.execute hc hn
    generalize w.execute top = x at hr ⊢
    generalize v.execute top = y at hr ⊢
    cases hr with
    | error e => exact ht.twins _
    | @ok x y hr =>
      obtain ⟨ht', hd, hchild⟩ := hr
      simp only [← hd]
      exact apply_twins ht' hn hchild

/-- Repeated steps, by induction on the budget. -/
theorem drive_twins (hc : g.Closed p) (n : Nat) (h : Twin g p s w v) :
    Twins g p (drive n s w) (drive n s v) := by
  induction n generalizing s w v with
  | zero =>
    unfold drive
    split
    · exact h.twins _
    split
    · exact h.twins _
    split
    · exact h.twins _
    · exact exhausted_twins h _
  | succ n ih =>
    unfold drive
    split
    · exact h.twins _
    next top rest hnodes =>
    split
    · exact h.twins _
    split
    · exact h.twins _
    have hstep := step_twins hc h (h.nodes top (hnodes ▸ List.mem_cons_self))
    simp only
    generalize s.step w top = a at hstep ⊢
    generalize s.step v top = b at hstep ⊢
    cases hstep with
    | @intro s' w' v' h' fault =>
      simp only
      split
      · exact h'.twins fault
      · exact ih (h'.still rfl)

theorem run_twins (hc : g.Closed p) (h : Twin g p s w v) : Twins g p (s.run w) (s.run v) := by
  have hd := drive_twins hc s.stepBudget (s := { s with last := none }) (h.still rfl)
  unfold run
  generalize drive s.stepBudget { s with last := none } w = a at hd ⊢
  generalize drive s.stepBudget { s with last := none } v = b at hd ⊢
  cases hd with
  | @intro s w' v' h' fault =>
    have hdone : Twin g p { s with current := none } w' v' := h'.still rfl
    cases fault with
    | some e => exact invalidate_twins hdone e
    | none =>
      simp only
      split
      · exact finish_twins hdone
      · exact hdone.twins none

/-! ## The operations -/

theorem start_twins (hc : g.Closed p) (h : Twin g p s w v) {head : NodeId} (hn : p head) :
    Twins g p (s.start w head) (s.start v head) := by
  unfold start
  rw [h.same.contains hn]
  split
  · exact h.twins _
  split
  · exact h.twins _
  · exact run_twins hc (h.push hn s.label (s.depth + 1) rfl)

theorem restart_twins (hc : g.Closed p) (h : Twin g p s w v) {head : NodeId} (hn : p head) :
    Twins g p (s.restart w head) (s.restart v head) := by
  unfold restart
  refine start_twins hc (h.still ?_) hn
  split <;> rfl

theorem receiveReturn_twins (hc : g.Closed p) (h : Twin g p s w v) (ok : Bool) :
    Twins g p (s.receiveReturn w ok) (s.receiveReturn v ok) := by
  unfold receiveReturn
  split
  · exact h.twins _
  next node hs =>
  obtain ⟨-, rest, hnodes⟩ := suspended?_eq_some hs
  have hdone := complete_twins h (h.nodes node (hnodes ▸ List.mem_cons_self)) ok
  generalize s.complete w node ok = a at hdone ⊢
  generalize s.complete v node ok = b at hdone ⊢
  cases hdone with
  | intro h' fault =>
    cases fault with
    | some e => exact h'.twins (some e)
    | none => exact run_twins hc (h'.still rfl)

theorem receiveStatus_twins (hc : g.Closed p) (h : Twin g p s w v) (status : Status) :
    Twins g p (s.receiveStatus w status) (s.receiveStatus v status) := by
  unfold receiveStatus
  split
  · exact receiveReturn_twins hc h _
  split
  · exact h.twins _
  split
  · exact Twin.passes h rfl rfl rfl
  · rw [h.same.tick]
    exact Twin.passes h rfl rfl rfl
  · exact errorResult_twins h _ _
  · exact h.twins _

theorem resumeNextUpdate_twins (hc : g.Closed p) (h : Twin g p s w v) :
    Twins g p (s.resumeNextUpdate w).1 (s.resumeNextUpdate v).1 := by
  unfold resumeNextUpdate
  rw [h.same.tick]
  split
  · exact run_twins hc (h.still rfl)
  · exact h.twins none

/-- Rolling back, by induction on the nodes. -/
theorem unwind_twins (label : StackLabel) (stopAt : Option NodeId) (nodes : List NodeId)
    (h : Twin g p { s with nodes } w v) :
    ∃ rest w' v' fault, unwind label stopAt nodes w = ⟨rest, w', fault⟩ ∧
      unwind label stopAt nodes v = ⟨rest, v', fault⟩ ∧
      Twin g p { s with nodes := rest } w' v' := by
  induction nodes generalizing w v with
  | nil => exact ⟨[], w, v, none, rfl, rfl, h⟩
  | cons top rest ih =>
    unfold unwind
    split
    · exact ⟨top :: rest, w, v, none, rfl, rfl, h⟩
    have hi := h.interrupt (h.nodes top List.mem_cons_self)
    generalize w.interrupt top = x at hi ⊢
    generalize v.interrupt top = y at hi ⊢
    cases hi with
    | error e => exact ⟨top :: rest, w, v, some e, rfl, rfl, h⟩
    | ok hi =>
      have hleft := (hi.trace "bt.stack.pop" label top rest.length).enqueue (.popped top)
      exact ih ⟨hleft.grown, hleft.same, hleft.events, fun n hm =>
        h.nodes n (List.mem_cons_of_mem top hm)⟩

theorem breakTo_twins (h : Twin g p s w v) (stopAt : Option NodeId) :
    Twins g p (s.breakTo w stopAt) (s.breakTo v stopAt) := by
  unfold breakTo
  split
  · exact h.twins _
  obtain ⟨nodes, w', v', fault, hw, hv, h'⟩ := unwind_twins s.label stopAt s.nodes h
  rw [hw, hv]
  cases fault with
  | some e => exact h'.twins (some e)
  | none => exact Twin.passes (h'.trace ..) rfl rfl rfl

theorem terminate_twins (h : Twin g p s w v) : Twins g p (s.terminate w) (s.terminate v) := by
  have hb := breakTo_twins h none
  unfold terminate
  generalize s.breakTo w none = a at hb ⊢
  generalize s.breakTo v none = b at hb ⊢
  cases hb with
  | intro h' fault =>
    cases fault with
    | some e => exact h'.twins (some e)
    | none =>
      simp only
      split
      · exact Twin.passes h' rfl rfl rfl
      · exact Twin.passes (h'.trace ..) rfl rfl rfl

theorem forwardHook_twins (hc : g.Closed p) (h : Twin g p s w v) (phase : Phase) :
    Twins g p (s.forwardHook w phase) (s.forwardHook v phase) := by
  unfold forwardHook
  split
  · exact h.twins none
  next top hs =>
  split
  · exact h.twins none
  obtain ⟨-, rest, hnodes⟩ := suspended?_eq_some hs
  obtain ⟨h', hr⟩ := h.hook (h.nodes top (hnodes ▸ List.mem_cons_self)) phase
  generalize w.hook top phase = x at h' hr ⊢
  generalize v.hook top phase = y at h' hr ⊢
  obtain ⟨w', r⟩ := x
  obtain ⟨v', r'⟩ := y
  obtain rfl : r = r' := hr
  match r with
  | .error e => exact h'.twins (some e)
  | .ok (some (.ended status)) => exact receiveStatus_twins hc h' status
  | .ok (some .running) => exact h'.twins none
  | .ok none => exact h'.twins none

/-- An operation does the same to a stack in both worlds. -/
theorem perform_twins (hc : g.Closed p) (h : Twin g p s w v) {op : Operation}
    (ho : ∀ head, op.Heads head → p head) : Twins g p (s.perform w op) (s.perform v op) := by
  cases op with
  | start head => exact start_twins hc h (ho head rfl)
  | restart head => exact restart_twins hc h (ho head rfl)
  | run => exact run_twins hc h
  | receiveReturn ok => exact receiveReturn_twins hc h ok
  | receiveStatus status => exact receiveStatus_twins hc h status
  | resumeNextUpdate => exact resumeNextUpdate_twins hc h
  | breakTo stopAt => exact breakTo_twins h stopAt
  | terminate => exact terminate_twins h
  | forwardHook phase => exact forwardHook_twins hc h phase
  | pause | resume | applyConfig _ => exact Twin.passes h rfl rfl rfl

/-! ## Stacks of other nodes -/

/-- An act of a stack that is hidden from the nodes makes no difference to them. -/
theorem Act.sameFor {label : StackLabel} {head : NodeId} {x y : List NodeId × World σ}
    (h : Act label (· = head) x y) (hg : g.Grown x.2.graph) (hp : Path g head x.1)
    (hh : g.Hides p head) : x.2.SameFor p y.2 := by
  have hid : ∀ n, g.Under head n → p n = false := fun n hn => (hh n hn).1
  have hq : ∀ n, g.Under head n → ∀ slot, x.2.graph.slot? n = some slot →
      Node.LeavesVariables slot.node := by
    intro n hn slot hs
    obtain ⟨s, hs', hgrown⟩ := hg.slot? hs
    exact ((hh n hn).2 s hs').becomes hgrown.node
  have hturn : ∀ {top rest w' d}, x.1 = top :: rest → x.2.Turned top w' d → x.2.SameFor p w' := by
    intro top rest w' d hx ht
    have hn := hp.under top (hx ▸ List.mem_cons_self)
    rcases ht with ht | ⟨ok, ht⟩
    · exact .of_execute (hid top hn) (hq top hn) ht
    · exact .of_receive (hid top hn) (hq top hn) ht
  cases h with
  | @note _ w r _ ha => exact .of_record w (by rw [ha]; rfl)
  | turn ht => exact hturn rfl ht
  | @hook top rest w phase =>
    have hn := hp.under top List.mem_cons_self
    exact .of_hook w (hid top hn) (hq top hn) phase
  | ask he =>
    subst he
    exact .of_ready _ (hid _ .refl)
  | head => exact .of_entered ..
  | call ht => exact (hturn rfl ht).trans (.of_entered ..)
  | @leave top rest w w' hw =>
    have hn := hp.under top List.mem_cons_self
    exact (World.SameFor.of_stop (hid top hn) (hq top hn) hw).trans (.of_left ..)
  | @rollBack top rest w w' hw =>
    have hn := hp.under top List.mem_cons_self
    exact (World.SameFor.of_interrupt (hid top hn) (hq top hn) hw).trans (.of_left ..)
  | finish => exact .of_enqueue ..

theorem Acts.sameFor {label : StackLabel} {head : NodeId} {x y : List NodeId × World σ}
    (h : Acts label (· = head) x y) (hc : g.CallsChildren) (hg : g.Grown x.2.graph)
    (hp : Path g head x.1) (hh : g.Hides p head) : x.2.SameFor p y.2 ∧ Path g head y.1 := by
  induction h with
  | refl => exact ⟨.refl _, hp⟩
  | tail hs h ih =>
    have hg' := hg.trans (Acts.frame hs).graph
    exact ⟨ih.1.trans (h.sameFor hg' ih.2 hh), h.path hc hg' ih.2⟩

omit [Node σ] in
theorem Change.mainEnds {label : StackLabel} {ns ns' : List NodeId} {events : List StackEvent}
    (h : Change label w ns ns' events) (hl : label ≠ .main) :
    events.filterMap StackEvent.mainEnd? = [] := by
  cases h with
  | ended result =>
    cases label with
    | main => exact absurd rfl hl
    | service => rfl
  | none | came | went => rfl

/-- No other stack completes a run of the root. -/
theorem Acts.mainEnds {label : StackLabel} {heads : NodeId → Prop} {x y : List NodeId × World σ}
    (h : Acts label heads x y) (hl : label ≠ .main) : y.2.mainEnds = x.2.mainEnds := by
  induction h with
  | refl => rfl
  | tail _ h ih =>
    obtain ⟨events, hchange, he⟩ := h.change
    rw [← ih, World.mainEnds, World.mainEnds, he, List.filterMap_append, hchange.mainEnds hl,
      List.append_nil]

/-- What is to be settled is not taken back. -/
theorem Acts.mainEnds_ne {label : StackLabel} {heads : NodeId → Prop} {x y : List NodeId × World σ}
    (h : Acts label heads x y) (hx : x.2.mainEnds ≠ []) : y.2.mainEnds ≠ [] := by
  induction h with
  | refl => exact hx
  | tail _ h ih =>
    obtain ⟨events, -, he⟩ := h.change
    rw [World.mainEnds, he, List.filterMap_append]
    exact List.append_ne_nil_of_left_ne_nil ih _

end Stack

end BehaviorTree
