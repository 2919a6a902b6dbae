/-
A stack in a world with a past, and in one without.

An operation does the same to a stack in both worlds. What a stack relies on is that the nodes
that called a child, which lie under the top, are in the same state in both; for when the child
is done, its result is handed to them. A node comes to lie there by being executed and calling a
child, and then it is. The top itself may be executed in different states.
-/
import BehaviorTree.Proofs.World.Afresh
import BehaviorTree.Proofs.Stack.Reachable

namespace BehaviorTree

variable {σ : Type} [Node σ] [Node.Forgetful σ] {g : Graph σ} {p : Past} {w v w' v' : World σ}

namespace Stack

/-- The node called a child and is to be handed its result. -/
def Underway (s : Stack) (n : NodeId) : Prop :=
  n ∈ s.nodes.tail ∨ s.state = .receiving ∧ s.top? = some n

omit [Node σ] [Node.Forgetful σ] in
/-- The nodes that called a child are in the same state in both worlds. -/
def Agrees (s : Stack) (w v : World σ) : Prop := ∀ n, s.Underway n → w.SameAt v n

/-- What the two passes leave: the same stack, in agreement, and the same fault. -/
inductive Passes (g : Graph σ) (p : Past) (w v : World σ) : Pass σ Stack → Pass σ Stack → Prop
  | intro {s : Stack} {w' v' : World σ} (h : World.Onward g p w v w' v') (ha : s.Agrees w' v')
      (fault : Option StackError) : Passes g p w v ⟨s, w', fault⟩ ⟨s, v', fault⟩

variable {s s' : Stack} {a b : Pass σ Stack}

/-- Passes that begin where others ended. -/
theorem Passes.from (h : Passes g p w' v' a b) (ho : World.Onward g p w v w' v') :
    Passes g p w v a b := by
  cases h with | intro h ha fault => exact .intro (ho.trans h) ha fault

/-- The agreement lasts, if no more nodes wait for a child. -/
theorem Agrees.onward (ha : s.Agrees w v) (h : World.Onward g p w v w' v')
    (hs : ∀ n, s'.Underway n → s.Underway n) : s'.Agrees w' v' :=
  fun n hn => h.same n (ha n (hs n hn))

omit [Node σ] [Node.Forgetful σ] in
theorem Underway.of_nodes {n : NodeId} (h : s'.Underway n) (hs : s'.state ≠ .receiving)
    (hn : s'.nodes = s.nodes) : s.Underway n := by
  rcases h with h | ⟨h, -⟩
  · exact .inl (hn ▸ h)
  · exact absurd h hs

/-- A stack that was not changed. -/
theorem passes_still (h : w.Renews g p v) (ha : s.Agrees w v) (fault : Option StackError) :
    Passes g p w v ⟨s, w, fault⟩ ⟨s, v, fault⟩ :=
  .intro (.refl h) ha fault

/-- The same became of the stacks, and no more nodes wait for a child. -/
theorem Agrees.passes (ha : s.Agrees w v) (ho : World.Onward g p w v a.world b.world)
    (hs : a.after = b.after) (hf : a.fault = b.fault)
    (hu : ∀ n, b.after.Underway n → s.Underway n) : Passes g p w v a b := by
  obtain ⟨s', w', fault⟩ := a
  obtain ⟨s'', v', fault'⟩ := b
  obtain rfl : s' = s'' := hs
  obtain rfl : fault = fault' := hf
  exact .intro ho (ha.onward ho hu) fault

/-- The stack comes to another state, and no node notices. -/
theorem passes_aside (h : w.Renews g p v) (ha : s.Agrees w v) (hs : a.after = b.after)
    (hf : a.fault = b.fault) (hw : a.world.Afresh p b.world) (hg : a.world.graph = w.graph)
    (hg' : b.world.graph = v.graph) (hb : a.world.blackboard = w.blackboard)
    (hb' : b.world.blackboard = v.blackboard) (hu : ∀ n, b.after.Underway n → s.Underway n) :
    Passes g p w v a b :=
  ha.passes (h.aside hw hg hg' hb hb') hs hf hu

/-! ## The parts of a pass -/

theorem errorResult_passes (h : w.Renews g p v) (ha : s.Agrees w v) (node : NodeId)
    (message : String) :
    Passes g p w v (s.errorResult w node message) (s.errorResult v node message) :=
  passes_aside h ha rfl rfl (((h.afresh.warn ..).report _).trace ..) rfl rfl rfl rfl
    fun _ hu => hu.of_nodes nofun rfl

theorem bindFailed_passes (h : w.Renews g p v) (ha : s.Agrees w v) (node : NodeId)
    (e : VariableError) : Passes g p w v (s.bindFailed w node e) (s.bindFailed v node e) :=
  passes_aside h ha rfl rfl (((h.afresh.warn ..).report _).trace ..) rfl rfl rfl rfl
    fun _ hu => hu.of_nodes nofun rfl

theorem finish_passes (h : w.Renews g p v) (ha : s.Agrees w v) :
    Passes g p w v (s.finish w) (s.finish v) :=
  passes_aside h ha rfl rfl ((h.afresh.trace ..).enqueue _) rfl rfl rfl rfl
    fun _ hu => hu.of_nodes nofun rfl

theorem invalidate_passes (h : w.Renews g p v) (ha : s.Agrees w v) (e : StackError) :
    Passes g p w v (s.invalidate w e) (s.invalidate v e) :=
  passes_aside h ha rfl rfl ((h.afresh.warn ..).trace ..) rfl rfl rfl rfl
    fun _ hu => hu.of_nodes nofun rfl

theorem suspend_passes (h : w.Renews g p v) (ha : s.Agrees w v) (node : NodeId) :
    Passes g p w v (s.suspend w node) (s.suspend v node) :=
  passes_aside h ha rfl rfl (h.afresh.trace ..) rfl rfl rfl rfl
    fun _ hu => hu.of_nodes nofun rfl

theorem park_passes (h : w.Renews g p v) (ha : s.Agrees w v) (node : NodeId) :
    Passes g p w v (s.park w node) (s.park v node) := by
  have hs : (s.park w node).after = (s.park v node).after := by simp only [park, h.afresh.tick]
  exact passes_aside h ha hs rfl (h.afresh.trace ..) rfl rfl rfl rfl
    fun _ hu => hu.of_nodes nofun rfl

theorem exhausted_passes (h : w.Renews g p v) (ha : s.Agrees w v) (node : NodeId) :
    Passes g p w v (s.exhausted w node) (s.exhausted v node) :=
  passes_aside h ha rfl rfl ((h.afresh.warn ..).report _) rfl rfl rfl rfl fun _ hn => hn

/-- The node that is done was on top, so its result goes to one that is in the same state. -/
theorem complete_passes (h : w.Renews g p v) (ha : s.Agrees w v) (node : NodeId) (ok : Bool) :
    Passes g p w v (s.complete w node ok) (s.complete v node ok) := by
  have hstop := h.stop node
  unfold complete
  generalize w.stop node = x at hstop ⊢
  generalize v.stop node = y at hstop ⊢
  cases hstop with
  | error e => exact passes_still h ha (some e)
  | @ok w' v' ho =>
    unfold pop
    cases hn : s.nodes with
    | nil =>
      have ho' := ho.trans (ho.renews.trace "bt.stack.receive" s.label node (if ok then 1 else 0))
      exact .intro ho' (fun n hu => by simp [Underway, top?, hn] at hu) none
    | cons top rest =>
      have hl := ho.renews.left s.label top rest.length
      have ho' := (ho.trans hl).trans
        (hl.renews.trace "bt.stack.receive" s.label node (if ok then 1 else 0))
      refine .intro ho' (ha.onward ho' fun n hu => .inl ?_) none
      rw [hn, List.tail_cons]
      rcases hu with hu | ⟨-, hu⟩
      · exact List.mem_of_mem_tail hu
      · exact List.mem_of_mem_head? hu

theorem settleStatus_passes (h : w.Renews g p v) (ha : s.Agrees w v) (node : NodeId)
    (status : Status) :
    Passes g p w v (s.settleStatus w node status) (s.settleStatus v node status) := by
  cases status with
  | noReturn =>
    simp only [settleStatus]
    split <;> exact passes_still h ha _
  | success | failed => exact complete_passes h ha node _
  | wait => exact suspend_passes h ha node
  | waitUntilNextUpdate => exact park_passes h ha node
  | error => exact errorResult_passes h ha node _

/-- The node that calls a child is in the same state in both worlds, and lies under it then. -/
theorem call_passes (h : w.Renews g p v) (ha : s.Agrees w v) {node : NodeId}
    (hn : s.top? = some node) (hs : w.SameAt v node) (child : NodeId) (status : Status) :
    Passes g p w v (s.call w node child status) (s.call v node child status) := by
  unfold call
  rw [h.afresh.contains]
  split
  · exact passes_still h ha _
  split
  · exact passes_still h ha _
  split
  · exact passes_still h ha _
  · have ho := h.entered s.label child (s.depth + 1)
    refine (settleStatus_passes ho.renews (fun n hu => ho.same n ?_) node status).from ho
    obtain ⟨rest, hnodes⟩ : ∃ rest, s.nodes = node :: rest := by
      unfold top? at hn
      exact List.head?_eq_some_iff.1 hn
    rcases hu with hu | ⟨hu, -⟩
    · simp only [push, List.tail_cons, hnodes, List.mem_cons] at hu
      rcases hu with rfl | hu
      · exact hs
      · exact ha n (.inl (by simpa [hnodes] using hu))
    · cases hu

/-- What came of turning to the top. If it called a child, it is in the same state in both
worlds. -/
theorem apply_passes (h : w.Renews g p v) (ha : s.Agrees w v) {node : NodeId}
    (hn : s.top? = some node) (d : Dispatch) (hd : d.calls ≠ [] → w.SameAt v node) :
    Passes g p w v (s.apply w node d) (s.apply v node d) := by
  match d with
  | .bindFailed e => exact bindFailed_passes h ha node e
  | .answered status [] => exact settleStatus_passes h ha node status
  | .answered status [child] =>
    exact call_passes h ha hn (hd (List.cons_ne_nil child [])) child status
  | .answered _ (_ :: _ :: _) => exact passes_still h ha _

/-- A step takes both stacks to the same. -/
theorem step_passes (h : w.Renews g p v) (ha : s.Agrees w v) {top : NodeId}
    (hn : s.top? = some top) : Passes g p w v (s.step w top) (s.step v top) := by
  have hcleared : Agrees { s with current := some top } w v := fun n hu => ha n hu
  unfold step
  simp only
  split
  · exact passes_still h hcleared _
  split
  · next hst =>
    -- A result is handed to the top: that one called a child.
    have hs : w.SameAt v top := ha top (.inr ⟨hst, hn⟩)
    have ha' : Agrees { s with current := some top, result := none } w v := fun n hu => ha n hu
    cases hres : s.result with
    | none =>
      simp only
      exact passes_still h ha' _
    | some ok =>
      have hr := h.receive hs ok
      simp only
      generalize w.receive top ok = x at hr ⊢
      generalize v.receive top ok = y at hr ⊢
      cases hr with
      | error e =>
        simp only
        exact passes_still h ha' _
      | @ok x y hr =>
        obtain ⟨ho, hd⟩ := hr
        simp only [hd]
        exact (apply_passes ho.renews (ha'.onward ho fun n hu => hu) hn y.2
          fun _ => ho.same top hs).from ho
  · have ha' : Agrees { s with current := some top, state := .calling } w v :=
      ha.onward (.refl h) fun _ hu => hu.of_nodes nofun rfl
    have hr := h.execute top
    generalize w.execute top = x at hr ⊢
    generalize v.execute top = y at hr ⊢
    cases hr with
    | error e =>
      simp only
      exact passes_still h ha' _
    | @ok x y hr =>
      obtain ⟨ho, hd, hcalls⟩ := hr
      rw [hd] at hcalls
      simp only [hd]
      exact (apply_passes ho.renews (ha'.onward ho fun n hu => hu) hn y.2 hcalls).from ho

/-- Repeated steps, by induction on the budget. -/
theorem drive_passes (n : Nat) (h : w.Renews g p v) (ha : s.Agrees w v) :
    Passes g p w v (drive n s w) (drive n s v) := by
  induction n generalizing s w v with
  | zero =>
    unfold drive
    split
    · exact passes_still h ha _
    split
    · exact passes_still h ha _
    split
    · exact passes_still h ha _
    · exact exhausted_passes h ha _
  | succ n ih =>
    unfold drive
    split
    · exact passes_still h ha _
    next top rest hnodes =>
    split
    · exact passes_still h ha _
    split
    · exact passes_still h ha _
    have htop : s.top? = some top := by simp [top?, hnodes]
    have hstep := step_passes h ha htop
    simp only
    generalize s.step w top = a at hstep ⊢
    generalize s.step v top = b at hstep ⊢
    cases hstep with
    | @intro s' w' v' ho ha fault =>
      simp only
      split
      · exact .intro ho ha fault
      · exact (ih (s := s'.moveOn) ho.renews fun n hu => ha n hu).from ho

theorem run_passes (h : w.Renews g p v) (ha : s.Agrees w v) :
    Passes g p w v (s.run w) (s.run v) := by
  have hd := drive_passes s.stepBudget (s := { s with last := none }) h fun n hu => ha n hu
  unfold run
  generalize drive s.stepBudget { s with last := none } w = a at hd ⊢
  generalize drive s.stepBudget { s with last := none } v = b at hd ⊢
  cases hd with
  | @intro s w' v' ho ha fault =>
    have ha : Agrees { s with current := none } w' v' := fun n hu => ha n hu
    cases fault with
    | some e => exact (invalidate_passes ho.renews ha e).from ho
    | none =>
      simp only
      split
      · exact (finish_passes ho.renews ha).from ho
      · exact (passes_still ho.renews ha none).from ho

/-! ## The operations -/

theorem start_passes (h : w.Renews g p v) (ha : s.Agrees w v) (head : NodeId) :
    Passes g p w v (s.start w head) (s.start v head) := by
  unfold start
  rw [h.afresh.contains]
  split
  · exact passes_still h ha _
  next hready =>
  split
  · exact passes_still h ha _
  · have hempty : s.state = .ready ∧ s.nodes = [] := by
      simp only [isEmpty, ne_eq, Bool.or_eq_true, decide_eq_true_eq, Bool.not_eq_true',
        not_or, Decidable.not_not, Bool.not_eq_false, List.isEmpty_iff] at hready
      exact hready.1
    have ho := h.entered s.label head (s.depth + 1)
    refine (run_passes ho.renews fun n hu => ?_).from ho
    simp [Underway, push, hempty] at hu

theorem restart_passes (h : w.Renews g p v) (ha : s.Agrees w v) (head : NodeId) :
    Passes g p w v (s.restart w head) (s.restart v head) := by
  unfold restart
  refine start_passes h (ha.onward (.refl h) fun n hu => ?_) head
  split at hu
  · exact hu.of_nodes nofun rfl
  · exact hu

theorem receiveReturn_passes (h : w.Renews g p v) (ha : s.Agrees w v) (ok : Bool) :
    Passes g p w v (s.receiveReturn w ok) (s.receiveReturn v ok) := by
  unfold receiveReturn
  split
  · exact passes_still h ha _
  next node hn =>
  have hc := complete_passes h ha node ok
  generalize s.complete w node ok = a at hc ⊢
  generalize s.complete v node ok = b at hc ⊢
  cases hc with
  | @intro s' w' v' ho ha fault =>
    cases fault with
    | some e => exact .intro ho ha (some e)
    | none =>
      exact (run_passes (s := { s' with parkedAt := none }) ho.renews fun n hu => ha n hu).from ho

theorem receiveStatus_passes (h : w.Renews g p v) (ha : s.Agrees w v) (status : Status) :
    Passes g p w v (s.receiveStatus w status) (s.receiveStatus v status) := by
  unfold receiveStatus
  split
  · exact receiveReturn_passes h ha _
  split
  · exact passes_still h ha _
  split
  · exact passes_aside h ha rfl rfl h.afresh rfl rfl rfl rfl fun _ hu => hu.of_nodes nofun rfl
  · rw [h.afresh.tick]
    exact passes_aside h ha rfl rfl h.afresh rfl rfl rfl rfl fun _ hu => hu.of_nodes nofun rfl
  · exact errorResult_passes h ha _ _
  · exact passes_still h ha _

theorem resumeNextUpdate_passes (h : w.Renews g p v) (ha : s.Agrees w v) :
    Passes g p w v (s.resumeNextUpdate w).1 (s.resumeNextUpdate v).1 := by
  unfold resumeNextUpdate
  rw [h.afresh.tick]
  split
  · exact run_passes h (ha.onward (.refl h) fun _ hu => hu.of_nodes nofun rfl)
  · exact passes_still h ha none

/-- Rolling back, by induction on the nodes. What is left of them is their end. -/
theorem unwind_onward (label : StackLabel) (stopAt : Option NodeId) (nodes : List NodeId)
    (h : w.Renews g p v) :
    ∃ rest w' v' fault, unwind label stopAt nodes w = ⟨rest, w', fault⟩ ∧
      unwind label stopAt nodes v = ⟨rest, v', fault⟩ ∧ World.Onward g p w v w' v' ∧
      rest <:+ nodes := by
  induction nodes generalizing w v with
  | nil => exact ⟨[], w, v, none, rfl, rfl, .refl h, List.suffix_rfl⟩
  | cons top rest ih =>
    unfold unwind
    split
    · exact ⟨top :: rest, w, v, none, rfl, rfl, .refl h, List.suffix_rfl⟩
    have hi := h.interrupt top
    generalize w.interrupt top = x at hi ⊢
    generalize v.interrupt top = y at hi ⊢
    cases hi with
    | error e => exact ⟨top :: rest, w, v, some e, rfl, rfl, .refl h, List.suffix_rfl⟩
    | @ok w' v' ho =>
      have hl := ho.renews.left label top rest.length
      obtain ⟨nodes, w'', v'', fault, hw, hv, ho', hs⟩ := ih hl.renews
      exact ⟨nodes, w'', v'', fault, hw, hv, (ho.trans hl).trans ho',
        hs.trans (List.suffix_cons top rest)⟩

omit [Node σ] [Node.Forgetful σ] in
/-- Of a stack that was rolled back, no other nodes wait for a child. -/
theorem Underway.of_suffix {n : NodeId} (hn : s'.nodes <:+ s.nodes)
    (hs : s'.state = .receiving → s.state = .receiving) (h : s'.Underway n) : s.Underway n := by
  obtain ⟨above, habove⟩ := hn
  unfold Underway top? at h ⊢
  rw [← habove]
  cases above with
  | nil => exact h.imp id fun h => ⟨hs h.1, h.2⟩
  | cons top above =>
    refine .inl (List.mem_append_right above ?_)
    rcases h with h | ⟨-, h⟩
    · exact List.mem_of_mem_tail h
    · exact List.mem_of_mem_head? h

theorem breakTo_passes (h : w.Renews g p v) (ha : s.Agrees w v) (stopAt : Option NodeId) :
    Passes g p w v (s.breakTo w stopAt) (s.breakTo v stopAt) := by
  unfold breakTo
  split
  · exact passes_still h ha _
  obtain ⟨nodes, w', v', fault, hw, hv, ho, hs⟩ := unwind_onward s.label stopAt s.nodes h
  rw [hw, hv]
  cases fault with
  | some e => exact ha.passes ho rfl rfl fun n => .of_suffix hs id
  | none =>
    have ho' := ho.trans (ho.renews.trace "bt.stack.break" s.label stopAt
      (s.depth - nodes.length : Nat))
    exact ha.passes ho' rfl rfl fun n => .of_suffix hs nofun

theorem terminate_passes (h : w.Renews g p v) (ha : s.Agrees w v) :
    Passes g p w v (s.terminate w) (s.terminate v) := by
  have hb := breakTo_passes h ha none
  unfold terminate
  generalize s.breakTo w none = a at hb ⊢
  generalize s.breakTo v none = b at hb ⊢
  cases hb with
  | intro ho ha fault =>
    cases fault with
    | some e => exact .intro ho ha (some e)
    | none =>
      have ht := ho.renews.trace "bt.stack.end" s.label none (-1)
      refine Passes.from ?_ ho
      simp only
      split
      · exact ha.passes (.refl ho.renews) rfl rfl fun _ hu => hu.of_nodes nofun rfl
      · exact ha.passes ht rfl rfl fun _ hu => hu.of_nodes nofun rfl

theorem forwardHook_passes (h : w.Renews g p v) (ha : s.Agrees w v) (phase : Phase) :
    Passes g p w v (s.forwardHook w phase) (s.forwardHook v phase) := by
  unfold forwardHook
  split
  · exact passes_still h ha none
  next top hn =>
  split
  · exact passes_still h ha none
  obtain ⟨ho, hr⟩ := h.hook top phase
  generalize w.hook top phase = x at ho hr ⊢
  generalize v.hook top phase = y at ho hr ⊢
  obtain ⟨w', r⟩ := x
  obtain ⟨v', r'⟩ := y
  obtain rfl : r = r' := hr
  have ha' : s.Agrees w' v' := ha.onward ho fun n hu => hu
  match r with
  | .error e => exact .intro ho ha' (some e)
  | .ok (some (.ended status)) => exact (receiveStatus_passes ho.renews ha' status).from ho
  | .ok (some .running) => exact .intro ho ha' none
  | .ok none => exact .intro ho ha' none

theorem perform_passes (h : w.Renews g p v) (ha : s.Agrees w v) (op : Operation) :
    Passes g p w v (s.perform w op) (s.perform v op) := by
  cases op with
  | start head => exact start_passes h ha head
  | restart head => exact restart_passes h ha head
  | run => exact run_passes h ha
  | receiveReturn ok => exact receiveReturn_passes h ha ok
  | receiveStatus status => exact receiveStatus_passes h ha status
  | resumeNextUpdate => exact resumeNextUpdate_passes h ha
  | breakTo stopAt => exact breakTo_passes h ha stopAt
  | terminate => exact terminate_passes h ha
  | forwardHook phase => exact forwardHook_passes h ha phase
  | pause | resume | applyConfig _ => exact ha.passes (.refl h) rfl rfl fun n hu => hu

end Stack

end BehaviorTree
