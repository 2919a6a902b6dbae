/-
A stack never pauses itself in silence.

A stack that nobody paused comes out of an operation paused for one of two reasons: a node of
it failed, or the steps of a pass were used up. Either way one diagnostic is reported, which
names the node on top, and without a pause none is. After a failure the node on top is to be
executed afresh; a stack whose steps were used up stays as it is, with the result it has to
deliver, and the pass has turned to as many nodes as it may.

What is counted here, the diagnostics and the turns, is told of a step first (`step_counts`),
then of a pass by induction on its budget, and of the operations by the pass that they end in.
-/
import BehaviorTree.Proofs.World.Picked
import BehaviorTree.Proofs.Stack.Resume

namespace BehaviorTree

variable {σ : Type}

/-- A node is turned to: it is executed, or handed a result. -/
def Happening.isTurn : Happening → Bool
  | .called _ .execute | .called _ (.receive _) => true
  | _ => false

theorem TraceEvent.isTurn_of_happening? {e : TraceEvent} {x : Happening}
    (h : e.happening? = some x) : x.isTurn = false := by
  unfold happening? at h
  split at h
  · obtain ⟨n, -, rfl⟩ := Option.map_eq_some_iff.1 h
    rfl
  split at h
  · obtain ⟨n, -, rfl⟩ := Option.map_eq_some_iff.1 h
    rfl
  split at h
  · cases h
    rfl
  · cases h

namespace World

/-- The diagnostics that were reported, in the order of time. -/
def diagnosed (w : World σ) : List Diagnostic := History.diagnostics w.history.reverse

/-- How often a node was turned to. -/
def turns (w : World σ) : Nat := w.happenings.countP Happening.isTurn

/-- From the one world to the other nodes were turned to `n` times, and nothing was reported. -/
structure Passes (n : Nat) (w w' : World σ) : Prop where
  diagnosed : w'.diagnosed = w.diagnosed
  turns : w'.turns = w.turns + n

namespace Passes

variable {n m : Nat} {w w' w'' : World σ}

theorem refl (w : World σ) : Passes 0 w w := ⟨rfl, rfl⟩

theorem trans (h : Passes n w w') (h' : Passes m w' w'') : Passes (n + m) w w'' :=
  ⟨h'.diagnosed.trans h.diagnosed, by rw [h'.turns, h.turns, Nat.add_assoc]⟩

theorem trace (w : World σ) (tag : String) (stack : StackLabel) (node : Option NodeId)
    (value : Int) : Passes 0 w (w.trace tag stack node value) := by
  refine ⟨picked_record_of_none w rfl, ?_⟩
  unfold World.trace World.turns
  rw [happenings_record, List.countP_append, Nat.add_left_cancel_iff]
  refine List.countP_eq_zero.2 fun x hx => ?_
  simp [TraceEvent.isTurn_of_happening? (Option.mem_toList.1 hx)]

theorem entered (w : World σ) (label : StackLabel) (node : NodeId) (depth : Nat) :
    Passes 0 w (w.entered label node depth) :=
  have h := trace w "bt.stack.push" label node depth
  ⟨h.diagnosed, h.turns⟩

theorem left (w : World σ) (label : StackLabel) (node : NodeId) (depth : Nat) :
    Passes 0 w (w.left label node depth) :=
  have h := trace w "bt.stack.pop" label node depth
  ⟨h.diagnosed, h.turns⟩

theorem of_happenings {calls : List Happening} (hd : w'.diagnosed = w.diagnosed)
    (hh : w'.happenings = w.happenings ++ calls) : Passes (calls.countP Happening.isTurn) w w' :=
  ⟨hd, by unfold World.turns; rw [hh, List.countP_append]⟩

variable [Node σ] {id : NodeId}

theorem execute {status : Status} {calls : List NodeId}
    (h : w.execute id = .ok (w', .answered status calls)) : Passes 1 w w' := by
  obtain ⟨slot, -, hh⟩ := happenings_execute_answered h
  have hp := of_happenings (picked_execute picksNone_reported? h)
    (hh.trans (List.append_assoc ..))
  split at hp <;> exact hp

theorem receive {ok : Bool} {d : Dispatch} (h : w.receive id ok = .ok (w', d)) : Passes 1 w w' :=
  of_happenings (picked_receive picksNone_reported? h) (happenings_receive h)

theorem stop (h : w.stop id = .ok w') : Passes 0 w w' :=
  of_happenings (picked_stop picksNone_reported? h) (happenings_stop h)

theorem hook (w : World σ) (id : NodeId) (phase : Phase) : Passes 0 w (w.hook id phase).1 := by
  have hd : (w.hook id phase).1.diagnosed = w.diagnosed := picked_hook picksNone_reported? ..
  rcases happenings_hook w id phase with h | h
  · exact of_happenings hd (h.trans (List.append_nil _).symm)
  · exact of_happenings hd h

end Passes

end World

namespace Stack

variable {s : Stack} {w w' : World σ} {p : Pass σ Stack} {label : StackLabel} {d : Diagnostic}
  {budget : Nat}

/-! ## Why a stack is paused -/

/-- The stack is paused, and one diagnostic says so: it names the stack and the node on top. -/
structure Named (label : StackLabel) (w : World σ) (p : Pass σ Stack) (d : Diagnostic) : Prop where
  paused : p.after.paused = true
  diagnosed : p.world.diagnosed = w.diagnosed ++ [d]
  stack : d.stack = label
  node : ∃ top, p.after.top? = some top ∧ d.node = some top ∧ d.name = p.world.graph.name? top

/-- The node on top failed, and is to be executed afresh. -/
structure Fails (label : StackLabel) (w : World σ) (p : Pass σ Stack) (d : Diagnostic) : Prop
    extends Named label w p d where
  kind : d.kind = .errorResult ∨ d.kind = .bindFailed
  state : p.after.state = .calling
  result : p.after.result = none

/-- The steps of a pass, which were `budget`, are used up. -/
structure Spends (label : StackLabel) (budget : Nat) (w : World σ) (p : Pass σ Stack)
    (d : Diagnostic) : Prop extends Named label w p d where
  kind : d.kind = .stepBudgetExceeded
  turns : p.world.turns = w.turns + budget
  state : p.after.state = .ready ∨ p.after.state = .calling ∨ p.after.state = .receiving
  result : p.after.result.isSome ↔ p.after.state = .receiving

/-- The stack goes on after `n` turns of which nothing was reported, or a node failed. -/
def Counts (label : StackLabel) (n : Nat) (w : World σ) (p : Pass σ Stack) : Prop :=
  p.after.paused = false ∧ w.Passes n p.world ∨ ∃ d, Fails label w p d

/-- The stack is not paused and nothing was reported, or it was told why. -/
def Accounts (label : StackLabel) (budget : Nat) (w : World σ) (p : Pass σ Stack) : Prop :=
  p.after.paused = false ∧ p.world.diagnosed = w.diagnosed ∨
    (∃ d, Fails label w p d) ∨ ∃ d, Spends label budget w p d

theorem Named.after (h : Named label w' p d) (hd : w'.diagnosed = w.diagnosed) : Named label w p d :=
  ⟨h.paused, hd ▸ h.diagnosed, h.stack, h.node⟩

theorem Fails.after (h : Fails label w' p d) (hd : w'.diagnosed = w.diagnosed) :
    Fails label w p d :=
  ⟨h.toNamed.after hd, h.kind, h.state, h.result⟩

theorem Counts.after {n m : Nat} (h : Counts label m w' p) (hw : w.Passes n w') :
    Counts label (n + m) w p :=
  h.imp (fun ⟨hp, hpass⟩ => ⟨hp, hw.trans hpass⟩) fun ⟨d, hd⟩ => ⟨d, hd.after hw.diagnosed⟩

theorem Accounts.after {n : Nat} (h : Accounts label budget w' p) (hw : w.Passes n w') :
    Accounts label (n + budget) w p := by
  rcases h with ⟨hp, hd⟩ | ⟨d, hd⟩ | ⟨d, hd⟩
  · exact .inl ⟨hp, hd.trans hw.diagnosed⟩
  · exact .inr (.inl ⟨d, hd.after hw.diagnosed⟩)
  · refine .inr (.inr ⟨d, hd.toNamed.after hw.diagnosed, hd.kind, ?_, hd.state, hd.result⟩)
    rw [hd.turns, hw.turns, Nat.add_assoc]

/-- The pass is told of the nodes, the pause, the state and the result alone. -/
theorem Accounts.fields (h : Accounts label budget w p) {s' : Stack} {fault : Option StackError}
    (hn : s'.nodes = p.after.nodes) (hp : s'.paused = p.after.paused)
    (hs : s'.state = p.after.state) (hr : s'.result = p.after.result) :
    Accounts label budget w ⟨s', p.world, fault⟩ := by
  have htop : s'.top? = p.after.top? := congrArg List.head? hn
  have hnamed : ∀ {d}, Named label w p d → Named label w ⟨s', p.world, fault⟩ d := fun h =>
    ⟨hp.trans h.paused, h.diagnosed, h.stack, htop ▸ h.node⟩
  rcases h with ⟨hq, hd⟩ | ⟨d, hd⟩ | ⟨d, hd⟩
  · exact .inl ⟨hp.trans hq, hd⟩
  · exact .inr (.inl ⟨d, hnamed hd.toNamed, hd.kind, hs.trans hd.state, hr.trans hd.result⟩)
  · exact .inr (.inr ⟨d, hnamed hd.toNamed, hd.kind, hd.turns, hs ▸ hd.state, hs ▸ hr ▸ hd.result⟩)

/-! ## Steps -/

/-- What a stack reports of itself is the last that it does to its world, but for a trace. -/
theorem diagnosed_report (w : World σ) (message : String) (fields : List (String × String))
    (d : Diagnostic) : ((w.warn message fields).report d).diagnosed
      = w.diagnosed ++ [{ d with name := d.node.bind w.graph.name? }] :=
  (World.picked_record ..).trans (congrArg (· ++ _) (World.picked_record_of_none w rfl))

theorem errorResult_fails {node : NodeId} {message : String} (ht : s.top? = some node) :
    ∃ d, Fails s.label w (s.errorResult w node message) d := by
  have hd := diagnosed_report w (message ++ "; stack paused")
    [("stack", s.label.text), ("node", node.text)]
    { stack := s.label, kind := .errorResult, message, node }
  exact ⟨_, ⟨rfl, (World.Passes.trace ..).diagnosed.trans hd, rfl, node, ht, rfl, rfl⟩, .inl rfl,
    rfl, rfl⟩

theorem bindFailed_fails {node : NodeId} {e : VariableError} (ht : s.top? = some node) :
    ∃ d, Fails s.label w (s.bindFailed w node e) d := by
  have hd := diagnosed_report w "node failed to initialize; stack paused"
    [("stack", s.label.text), ("node", node.text), ("error", e.message)]
    { stack := s.label, kind := .bindFailed, message := e.message, node }
  exact ⟨_, ⟨rfl, (World.Passes.trace ..).diagnosed.trans hd, rfl, node, ht, rfl, rfl⟩, .inr rfl,
    rfl, rfl⟩

/-- The steps of a pass are used up in front of a node that was to be turned to. -/
theorem exhausted_spends {top : NodeId} (ht : s.top? = some top) (hr : s.rests = false)
    (hv : s.state ≠ .invalid) (hc : s.result.isSome ↔ s.state = .receiving) :
    ∃ d, Spends s.label 0 w (s.exhausted w top) d := by
  have hd := diagnosed_report w "step budget exhausted; stack paused"
    [("stack", s.label.text), ("node", top.text), ("steps", Nat.repr s.stepBudget)]
    { stack := s.label
      kind := .stepBudgetExceeded
      message := Nat.repr s.stepBudget ++ " steps in a single pass without suspending"
      node := top }
  refine ⟨_, ⟨rfl, hd, rfl, top, ht, rfl, rfl⟩, rfl, ?_, ?_, hc⟩
  · unfold World.turns exhausted
    simp [World.warn, World.report, Record.happening?]
  · show s.state = .ready ∨ s.state = .calling ∨ s.state = .receiving
    cases hs : s.state <;> simp_all [rests, isWaiting, StackState.isWaiting]

variable [Node σ] {top : NodeId} {rest : List NodeId}

theorem complete_counts {node : NodeId} {ok : Bool} (hp : s.paused = false)
    (hf : (s.complete w node ok).fault = none) : Counts s.label 0 w (s.complete w node ok) := by
  unfold complete at hf ⊢
  split
  · next hw => simp [hw] at hf
  next w' hw =>
  have hpop : (s.pop w').after.paused = false ∧ World.Passes 0 w' (s.pop w').world := by
    unfold pop
    split
    · exact ⟨hp, .refl w'⟩
    · exact ⟨hp, .left ..⟩
  exact .inl ⟨hpop.1, (World.Passes.stop hw).trans (hpop.2.trans (.trace ..))⟩

theorem settleStatus_counts {node : NodeId} {status : Status} (hp : s.paused = false)
    (ht : s.top? = some node) (hf : (s.settleStatus w node status).fault = none) :
    Counts s.label 0 w (s.settleStatus w node status) := by
  cases status with
  | noReturn => simp [settleStatus, ht] at hf
  | success | failed => exact complete_counts hp hf
  | wait | waitUntilNextUpdate => exact .inl ⟨hp, .trace ..⟩
  | error => exact .inr (errorResult_fails ht)

theorem apply_counts {node : NodeId} {d : Dispatch} (hp : s.paused = false)
    (ht : s.top? = some node) (hf : (s.apply w node d).fault = none) :
    Counts s.label 0 w (s.apply w node d) := by
  match d with
  | .bindFailed e => exact .inr (bindFailed_fails ht)
  | .answered status [] => exact settleStatus_counts hp ht hf
  | .answered _ (_ :: _ :: _) => simp [apply] at hf
  | .answered status [child] =>
    simp only [apply, call] at hf ⊢
    split at hf
    · simp at hf
    split at hf
    · simp at hf
    split at hf
    · simp at hf
    next hst hg hn =>
    rw [if_neg hst, if_neg hg, if_neg hn]
    simp only [ne_eq, Decidable.not_not] at hst
    subst hst
    -- The child lies on top by now, so nothing is left to do for its caller.
    rw [settleStatus_noReturn]
    · exact .inl ⟨hp, .entered ..⟩
    · rintro ⟨⟩
      exact hn (by simp [Stack.contains, List.mem_of_head? ht])

/-- A step turns to one node, and pauses the stack only if that fails. -/
theorem step_counts (hp : s.paused = false) (ht : s.top? = some top)
    (hf : (s.step w top).fault = none) : Counts s.label 1 w (s.step w top) := by
  simp only [step] at hf ⊢
  split
  · next hl => simp [hl] at hf
  next hl =>
  rw [if_neg hl] at hf
  split
  · next hst =>
    rw [if_pos hst] at hf
    split
    · next hr => simp [hr] at hf
    next ok hr =>
    simp only [hr] at hf
    split
    · next hw => simp [hw] at hf
    next hw =>
    rw [hw] at hf
    exact (apply_counts (s := { s with current := some top, result := none }) hp ht hf).after
      (World.Passes.receive hw)
  · next hst =>
    rw [if_neg hst] at hf
    split
    · next hw => simp [hw] at hf
    next w' d hw =>
    rw [hw] at hf
    have ha := apply_counts (s := { s with current := some top, state := .calling }) hp ht hf
    cases d with
    | answered status calls => exact ha.after (World.Passes.execute hw)
    | bindFailed e =>
      obtain ⟨d, hd⟩ := bindFailed_fails (w := w') (e := e)
        (s := { s with current := some top, state := .calling }) ht
      exact .inr ⟨d, hd.after (World.picked_execute World.picksNone_reported? hw)⟩

/-! ## Passes -/

omit [Node σ] in
theorem Counts.accounts {n : Nat} (h : Counts label n w p) : Accounts label budget w p :=
  h.imp (fun ⟨hp, hpass⟩ => ⟨hp, hpass.diagnosed⟩) .inl

omit [Node σ] in
/-- A pass goes on after a step, but not with a stack that was paused in it. -/
theorem Counts.goesOn {n : Nat} {q : Pass σ Stack} (h : Counts label n w p)
    (hstill : p.after.paused = true → p.after.state ≠ .receiving →
      q = ⟨p.after.moveOn, p.world, none⟩)
    (hq : p.after.paused = false → Accounts label budget p.world q) :
    Accounts label (n + budget) w q := by
  rcases h with ⟨hp, hpass⟩ | ⟨d, hd⟩
  · exact (hq hp).after hpass
  · have hfailed : Accounts label (n + budget) w p := .inr (.inl ⟨d, hd⟩)
    rw [hstill hd.paused (by simp [hd.state])]
    exact hfailed.fields rfl (by simp [moveOn, hd.paused]) rfl rfl

/-- A pass that finds nothing broken has nothing to do, or turns to the top node. -/
theorem drive_goes (hp : s.paused = false) (hf : (drive budget s w).fault = none) :
    (s.nodes = [] ∨ s.rests) ∨ ∃ top rest, s.Goes top rest := by
  by_cases hstill : s.nodes = [] ∨ s.rests
  · exact .inl hstill
  obtain ⟨hn, hr⟩ := not_or.1 hstill
  obtain ⟨top, rest, hn⟩ := List.exists_cons_of_ne_nil hn
  have hr : s.rests = false := by simpa using hr
  refine .inr ⟨top, rest, hn, hr, fun hv => ?_⟩
  rw [drive.eq_def] at hf
  simp [hn, hp, hr, hv] at hf

/-- By induction on the budget, of which each step uses one up. -/
theorem drive_accounts (budget : Nat) (hp : s.paused = false)
    (hstep : s.pauseAfterSingleExecution = false) (hc : s.Coherent w.tick.number)
    (hf : (drive budget s w).fault = none) : Accounts s.label budget w (drive budget s w) := by
  induction budget generalizing s w with
  | zero =>
    rcases drive_goes hp hf with hstill | ⟨top, rest, hgoes⟩
    · rw [drive_still 0 w hstill]
      exact .inl ⟨hp, rfl⟩
    · rw [hgoes.drive_zero (.inl hp)]
      exact .inr (.inr (exhausted_spends (by simp [top?, hgoes.nodes]) hgoes.rests hgoes.valid
        hc.result_iff))
  | succ budget ih =>
    rcases drive_goes hp hf with hstill | ⟨top, rest, hgoes⟩
    · rw [drive_still _ w hstill]
      exact .inl ⟨hp, rfl⟩
    have hmade : Made (fun _ => False) s w (s.step w top) := step_made w hgoes.nodes
    have hpass := step_passable (w := w) rfl hgoes.nodes hc
    have hpause := (s.step_proceeds w top).stepping.trans hstep
    have hcount : (s.step w top).fault = none → Counts s.label 1 w (s.step w top) :=
      step_counts hp (by simp [top?, hgoes.nodes])
    rw [hgoes.drive_succ (.inl hp)] at hf ⊢
    split at hf
    · next hend =>
      rw [if_pos hend]
      exact (hcount hf).accounts
    next hon =>
    simp only [Bool.or_eq_true, not_or, Bool.not_eq_true, Option.isSome_eq_false_iff,
      Option.isNone_iff_eq_none] at hon
    rw [if_neg (by simp [hon]), Nat.add_comm]
    refine (hcount hon.1).goesOn (fun hp hs => drive_paused budget _ (by simp [moveOn, hp]) hs)
      fun hp => ?_
    have hnext : (s.step w top).after.moveOn.Coherent (s.step w top).world.tick.number := by
      rw [hmade.acts.frame.tick]
      exact (hpass.coherent hon.1).moveOn
    have hih := ih (s := (s.step w top).after.moveOn) (by simp [moveOn, hp, hpause]) hpause hnext hf
    rwa [show (s.step w top).after.moveOn.label = s.label from hmade.label] at hih

/-- The end of a pass changes nothing that is counted. -/
theorem run_accounts (hp : s.paused = false) (hstep : s.pauseAfterSingleExecution = false)
    (hc : s.Coherent w.tick.number) (hf : (s.run w).fault = none) :
    Accounts s.label s.stepBudget w (s.run w) := by
  have hd := drive_accounts (s := { s with last := none }) (w := w) s.stepBudget hp hstep
    ⟨hc.result_iff, hc.of_ended, hc.parked⟩
  unfold run at hf ⊢
  generalize drive s.stepBudget { s with last := none } w = p at hd hf ⊢
  obtain ⟨s', w', fault⟩ := p
  cases fault with
  | some e => simp [invalidate] at hf
  | none =>
    simp only at hf ⊢
    have ha := hd rfl
    split
    · next hend =>
      -- A stack that was paused has a node on top.
      rcases ha with ⟨hp, hd⟩ | ⟨d, hd⟩ | ⟨d, hd⟩
      · exact .inl ⟨hp, (World.Passes.trace ..).diagnosed.trans hd⟩
      all_goals
        obtain ⟨top, htop, -⟩ := hd.node
        simp_all [top?, isEmpty]
    · exact ha.fields rfl rfl rfl rfl

/-! ## Operations -/

/-- The operations that drive a stack or hand it a status. -/
def Operation.Calls : Operation → Prop
  | .start _ | .restart _ | .run | .receiveReturn _ | .receiveStatus _ | .resumeNextUpdate
  | .forwardHook _ => True
  | .breakTo _ | .terminate | .pause | .resume | .applyConfig _ => False

theorem start_accounts (hp : s.paused = false) (hstep : s.pauseAfterSingleExecution = false)
    (head : NodeId) (hf : (s.start w head).fault = none) :
    Accounts s.label s.stepBudget w (s.start w head) := by
  unfold start at hf ⊢
  split at hf
  · cases hf
  next hs =>
  split at hf
  · cases hf
  next hg =>
  rw [if_neg hs, if_neg hg]
  have hst : s.state = .ready := by simp_all
  have hrun := run_accounts (s := ({ s with result := none, parkedAt := none }.push w head).after)
    (w := ({ s with result := none, parkedAt := none }.push w head).world) hp hstep
    ⟨by simp [push, hst], by simp [push, hst], by simp [push, hst]⟩ hf
  have hall := hrun.after (World.Passes.entered w s.label head (s.depth + 1))
  rwa [Nat.zero_add] at hall

theorem receiveReturn_accounts (hp : s.paused = false)
    (hstep : s.pauseAfterSingleExecution = false) (ok : Bool)
    (hf : (s.receiveReturn w ok).fault = none) :
    Accounts s.label s.stepBudget w (s.receiveReturn w ok) := by
  unfold receiveReturn at hf ⊢
  split at hf
  · cases hf
  next node hs =>
  obtain ⟨-, rest, hn⟩ := suspended?_eq_some hs
  cases hw : w.stop node with
  | error e => simp [complete, hw] at hf
  | ok w' =>
    simp only [complete_eq ok hn hw] at hf ⊢
    have hrun := run_accounts hp hstep
      (s := { s with nodes := rest, state := .receiving, result := some ok, parkedAt := none })
      ⟨by simp, by simp, by simp⟩ hf
    have hpass := (World.Passes.stop hw).trans
      ((World.Passes.left w' s.label node rest.length).trans
        (.trace _ "bt.stack.receive" s.label node (if ok then 1 else 0)))
    have hall := hrun.after hpass
    rwa [Nat.zero_add] at hall

theorem receiveStatus_accounts (hp : s.paused = false)
    (hstep : s.pauseAfterSingleExecution = false) (status : Status)
    (hf : (s.receiveStatus w status).fault = none) :
    Accounts s.label s.stepBudget w (s.receiveStatus w status) := by
  unfold receiveStatus at hf ⊢
  split
  · next hs =>
    rw [hs] at hf
    exact receiveReturn_accounts hp hstep _ hf
  next hs =>
  simp only [hs] at hf
  split at hf
  · cases hf
  next node hs =>
  obtain ⟨-, rest, hn⟩ := suspended?_eq_some hs
  cases status with
  | wait | waitUntilNextUpdate => exact .inl ⟨hp, rfl⟩
  | error => exact .inr (.inl (errorResult_fails (by simp [top?, hn])))
  | success | failed | noReturn => cases hf

theorem resumeNextUpdate_accounts (hs : s.Sound w) (hp : s.paused = false)
    (hstep : s.pauseAfterSingleExecution = false)
    (hf : (s.resumeNextUpdate w).1.fault = none) :
    Accounts s.label s.stepBudget w (s.resumeNextUpdate w).1 := by
  unfold resumeNextUpdate at hf ⊢
  split
  · next hdue =>
    rw [if_pos hdue] at hf
    have hst : s.state = .waitUntilNextUpdate := by
      simp only [isDue, Bool.and_eq_true, decide_eq_true_eq] at hdue
      exact hdue.1.1
    have hr : s.result = none := by simpa [hst] using hs.result_iff
    exact run_accounts hp hstep ⟨by simp [hr], by simp, by simp⟩ hf
  · exact .inl ⟨hp, rfl⟩

theorem forwardHook_accounts (hp : s.paused = false)
    (hstep : s.pauseAfterSingleExecution = false) (phase : Phase)
    (hf : (s.forwardHook w phase).fault = none) :
    Accounts s.label s.stepBudget w (s.forwardHook w phase) := by
  unfold forwardHook at hf ⊢
  split
  · exact .inl ⟨hp, rfl⟩
  next top hs =>
  simp only [hs, hp, Bool.false_eq_true, if_false] at hf ⊢
  have hpass := World.Passes.hook w top phase
  split at hf
  · cases hf
  · next hw =>
    rw [hw] at hpass
    have hall := (receiveStatus_accounts hp hstep _ hf).after hpass
    rwa [Nat.zero_add] at hall
  · next hw =>
    rw [hw] at hpass
    exact .inl ⟨hp, hpass.diagnosed⟩

theorem perform_accounts (hs : s.Sound w) (hp : s.paused = false)
    (hstep : s.pauseAfterSingleExecution = false) {op : Operation} (hop : op.Calls)
    (hf : (s.perform w op).fault = none) :
    Accounts s.label s.stepBudget w (s.perform w op) := by
  cases op with
  | start head => exact start_accounts hp hstep head hf
  | restart head =>
    change (s.restart w head).fault = none at hf
    show Accounts s.label s.stepBudget w (s.restart w head)
    unfold restart at hf ⊢
    split at hf
    · next hend =>
      rw [if_pos hend]
      exact start_accounts (s := { s with state := .ready }) hp hstep head hf
    · next hend =>
      rw [if_neg hend]
      exact start_accounts hp hstep head hf
  | run => exact run_accounts hp hstep hs.toCoherent hf
  | receiveReturn ok => exact receiveReturn_accounts hp hstep ok hf
  | receiveStatus status => exact receiveStatus_accounts hp hstep status hf
  | resumeNextUpdate => exact resumeNextUpdate_accounts hs hp hstep hf
  | forwardHook phase => exact forwardHook_accounts hp hstep phase hf
  | breakTo _ | terminate | pause | resume | applyConfig _ => exact hop.elim

/-- The next pass begins by executing the node on top, whatever becomes of that. -/
def Retries (s : Stack) (w : World σ) : Prop :=
  ∃ top w' d, s.top? = some top ∧ w.execute top = .ok (w', d) ∧ w'.Writes (s.run w).world

/-- What a diagnostic tells that was reported in an operation on the stack `s`. -/
structure Explains (s : Stack) (w : World σ) (p : Pass σ Stack) (d : Diagnostic) : Prop where
  stack : d.stack = s.label
  kind : d.kind = .errorResult ∨ d.kind = .bindFailed ∨ d.kind = .stepBudgetExceeded
  node : ∃ top, p.after.top? = some top ∧ d.node = some top ∧ d.name = p.world.graph.name? top
  failed : d.kind = .errorResult ∨ d.kind = .bindFailed →
    p.after.state = .calling ∧ p.after.result = none ∧
      ∀ v : World σ, (∀ n, p.world.graph.contains n → v.graph.contains n) →
        0 < p.after.stepBudget → p.after.resume.Retries v
  spent : d.kind = .stepBudgetExceeded →
    p.world.turns = w.turns + s.stepBudget ∧
      (p.after.state = .ready ∨ p.after.state = .calling ∨ p.after.state = .receiving) ∧
      (p.after.result.isSome ↔ p.after.state = .receiving)

/-- A stack that is to execute its node on top does so first of all. -/
theorem retries_of_calling (hs : s.Sound w) (hst : s.state = .calling) (ht : s.top? = some top)
    (hbudget : 0 < s.stepBudget) {v : World σ}
    (hg : ∀ n, w.graph.contains n → v.graph.contains n) : s.resume.Retries v := by
  obtain ⟨rest, hn⟩ := List.head?_eq_some_iff.1 ht
  have hk : v.graph.contains top := hg top (hs.known top (by simp [hn]))
  obtain ⟨w', d, hw, hwrites⟩ := run_begins (s := s.resume) (w := v) (.inr hst) hn rfl hbudget hk
  exact ⟨top, w', d, ht, hw, hwrites⟩

theorem Fails.explains (h : Fails s.label w p d) (hs : p.after.Sound p.world) :
    Explains s w p d := by
  obtain ⟨top, htop, -⟩ := h.node
  refine ⟨h.stack, ?_, h.node, fun _ => ⟨h.state, h.result, fun v hg hb => ?_⟩, fun hk => ?_⟩
  · exact h.kind.imp_right .inl
  · exact retries_of_calling hs h.state htop hb hg
  · rcases h.kind with hk' | hk' <;> cases hk.symm.trans hk'

theorem Spends.explains (h : Spends s.label s.stepBudget w p d) : Explains s w p d := by
  refine ⟨h.stack, .inr (.inr h.kind), h.node, ?_, fun _ => ⟨h.turns, h.state, h.result⟩⟩
  rintro (hk | hk) <;> cases h.kind.symm.trans hk

/-- A stack that is not paused and does not step comes out of an operation paused exactly if
one diagnostic was reported in it, for this stack, and otherwise none is. The diagnostic names
the node on top. If the node failed, it is to be executed afresh, and the next pass does so
first, once the pause is lifted and if it may take a step at all; if the steps of the pass
were used up, it turned to as many nodes as it may, and the stack keeps the result that it has
to deliver. -/
theorem paused_iff_reported {op : Operation} (h : Reachable s w) (hp : s.paused = false)
    (hstep : s.pauseAfterSingleExecution = false) (hop : op.Calls)
    (hf : (s.perform w op).fault = none) :
    ((s.perform w op).after.paused = true ↔
      ∃ d, (s.perform w op).world.diagnosed = w.diagnosed ++ [d]) ∧
    ((s.perform w op).after.paused = false →
      (s.perform w op).world.diagnosed = w.diagnosed) ∧
    ∀ d, (s.perform w op).world.diagnosed = w.diagnosed ++ [d] →
      Explains s w (s.perform w op) d := by
  have hs := h.sound
  have haccounts := perform_accounts hs hp hstep hop hf
  have hafter := hs.perform op
  generalize s.perform w op = p at haccounts hafter ⊢
  -- Either nothing was reported, or one diagnostic that explains the pause.
  have hcases : p.after.paused = false ∧ p.world.diagnosed = w.diagnosed ∨
      ∃ d, p.after.paused = true ∧ p.world.diagnosed = w.diagnosed ++ [d] ∧ Explains s w p d := by
    rcases haccounts with hquiet | ⟨d, hd⟩ | ⟨d, hd⟩
    · exact .inl hquiet
    · exact .inr ⟨d, hd.paused, hd.diagnosed, hd.explains hafter⟩
    · exact .inr ⟨d, hd.paused, hd.diagnosed, hd.explains⟩
  rcases hcases with ⟨hunpaused, hsame⟩ | ⟨d, hpaused, hnew, hexplains⟩
  · simp [hunpaused, hsame]
  · refine ⟨⟨fun _ => ⟨d, hnew⟩, fun _ => hpaused⟩, fun hu => ?_, fun d' hd' => ?_⟩
    · cases hu.symm.trans hpaused
    · obtain rfl : d = d' := by simpa using hnew.symm.trans hd'
      exact hexplains

/-- The host ends a leaf that waits with an error. -/
theorem paused_iff_reported_idle :
    let w : World (LeafNode Question Plays) :=
      { graph := ({} : Graph _).add "idle" .idle |>.1, blackboard := {} }
    let s := perform { label := .main } w (.start ⟨0⟩)
    let p := s.after.perform s.world (.receiveStatus .error)
    s.after.paused = false ∧ p.fault = none ∧ p.after.paused = true ∧
      ∃ d, p.world.diagnosed = s.world.diagnosed ++ [d] ∧ Explains s.after s.world p d := by
  intro w s p
  have hp : s.after.paused = false := by decide +kernel
  have hf : p.fault = none := by decide +kernel
  have hpaused : p.after.paused = true := by decide +kernel
  have hop : (Operation.receiveStatus .error).Calls := trivial
  have hreach : Reachable s.after s.world := .perform (.start ⟨0⟩) (.new .main w)
  obtain ⟨hiff, -, hexplains⟩ := paused_iff_reported hreach hp (by decide +kernel) hop hf
  obtain ⟨d, hd⟩ := hiff.1 hpaused
  exact ⟨hp, hf, hpaused, d, hd, hexplains d hd⟩

/-- A stack whose passes may take no step is resumed after its node failed: the next pass turns
to no node, whatever failed before. -/
theorem resumed_unturned :
    ¬ ∀ (s : Stack) (w : World (LeafNode Question Plays)) (op : Operation), Reachable s w →
      s.paused = false → s.pauseAfterSingleExecution = false → op.Calls →
        (s.perform w op).fault = none → (s.perform w op).after.paused = true →
          (∃ d, (s.perform w op).world.diagnosed = w.diagnosed ++ [d] ∧ d.kind = .errorResult) →
            (s.perform w op).world.turns
              < ((s.perform w op).after.resume.run (s.perform w op).world).world.turns := by
  intro h
  let w : World (LeafNode Question Plays) :=
    { graph := ({} : Graph _).add "idle" .idle |>.1, blackboard := {} }
  let p := perform { label := .main } w (.start ⟨0⟩)
  let q := p.after.perform p.world (.applyConfig { maxStepsPerPass := 0 })
  have hq : Reachable q.after q.world := .perform _ (.perform _ (.new _ w))
  have hd : (q.after.perform q.world (.receiveStatus .error)).world.diagnosed
      = q.world.diagnosed ++ [{
        stack := .main
        kind := .errorResult
        message := "node ended with an error result"
        node := some ⟨0⟩
        name := some "idle" }] := by
    decide +kernel
  have hturns := h q.after q.world (.receiveStatus .error) hq (by decide +kernel)
    (by decide +kernel) trivial (by decide +kernel) (by decide +kernel) ⟨_, hd, rfl⟩
  exact absurd hturns (by decide +kernel)

end Stack

end BehaviorTree
