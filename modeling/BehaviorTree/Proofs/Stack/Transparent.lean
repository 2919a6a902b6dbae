/-
The step budget and single-stepping change nothing but the time.

A pass may be cut at any step, because its steps are used up or because stepping pauses a
stack that has a result to deliver. If the host lifts the pause and runs the stack on for as
long as it is paused, all comes out as in one pass. The two stacks differ only in what no
node sees (`Stack.Same`): a step of both does the same, and whatever a cut changes, it leaves
them alike. The node turned to last is forgotten at a cut; it would only be looked at to
break a rule, which the pass in one piece does not do.
-/
import BehaviorTree.Library.Flow
import BehaviorTree.Library.Scripted
import BehaviorTree.Proofs.World.Same
import BehaviorTree.Proofs.World.Written
import BehaviorTree.Proofs.Stack.Leads
import BehaviorTree.Proofs.Stack.Reachable

namespace BehaviorTree

variable {σ : Type}

/-- The stacks differ only in their configuration, the pause, and the node turned to last. -/
structure Stack.Same (s t : Stack) : Prop where
  label : s.label = t.label
  nodes : s.nodes = t.nodes
  state : s.state = t.state
  result : s.result = t.result
  current : s.current = t.current
  parkedAt : s.parkedAt = t.parkedAt

structure Pass.Same (p q : Pass σ Stack) : Prop where
  after : p.after.Same q.after
  world : p.world.Same q.world
  fault : p.fault = q.fault

/-- A report that a stack was paused: a node answered with an error or could not bind its
variables, or the steps of a pass were used up. -/
def Record.halts : Record → Bool
  | .reported d => d.kind ≠ .protocolViolation
  | _ => false

/-- How often it was reported that a stack was paused. -/
def World.halts (w : World σ) : Nat := w.history.countP Record.halts

theorem World.Writes.halts_le {w w' : World σ} (h : w.Writes w') : w.halts ≤ w'.halts :=
  List.Sublist.countP_le h.sublist

namespace Stack

variable {s t : Stack} {w v : World σ}

/-! ## The same step twice -/

theorem Same.trans {u : Stack} (h : s.Same t) (h' : t.Same u) : s.Same u :=
  ⟨h.label.trans h'.label, h.nodes.trans h'.nodes, h.state.trans h'.state,
    h.result.trans h'.result, h.current.trans h'.current, h.parkedAt.trans h'.parkedAt⟩

theorem Same.errorResult (hs : s.Same t) (hw : w.Same v) (node : NodeId) (message : String) :
    (s.errorResult w node message).Same (t.errorResult v node message) := by
  unfold Stack.errorResult
  simp only [hs.label]
  exact ⟨⟨hs.label, hs.nodes, rfl, rfl, hs.current, rfl⟩, ((hw.record _).report _).trace .., rfl⟩

theorem Same.bindFailed (hs : s.Same t) (hw : w.Same v) (node : NodeId) (e : VariableError) :
    (s.bindFailed w node e).Same (t.bindFailed v node e) := by
  unfold Stack.bindFailed
  simp only [hs.label]
  exact ⟨⟨hs.label, hs.nodes, rfl, rfl, hs.current, hs.parkedAt⟩,
    ((hw.record _).report _).trace .., rfl⟩

theorem Same.finish (hs : s.Same t) (hw : w.Same v) : (s.finish w).Same (t.finish v) := by
  unfold Stack.finish
  simp only [hs.label, hs.result]
  exact ⟨⟨rfl, hs.nodes, rfl, rfl, hs.current, rfl⟩, (hw.trace ..).enqueue _, rfl⟩

theorem Same.pop (hs : s.Same t) (hw : w.Same v) : (s.pop w).Same (t.pop v) := by
  unfold Stack.pop
  rw [hs.nodes]
  split
  · exact ⟨hs, hw, rfl⟩
  · rw [hs.label]
    exact ⟨⟨rfl, rfl, hs.state, hs.result, hs.current, hs.parkedAt⟩, hw.left .., rfl⟩

theorem Same.push (hs : s.Same t) (hw : w.Same v) (node : NodeId) :
    (s.push w node).Same (t.push v node) := by
  unfold Stack.push
  rw [depth, depth, hs.nodes, hs.label]
  exact ⟨⟨rfl, rfl, hs.state, hs.result, hs.current, hs.parkedAt⟩,
    hw.entered .., rfl⟩

variable [Node σ]

theorem Same.complete (hs : s.Same t) (hw : w.Same v) (node : NodeId) (ok : Bool) :
    (s.complete w node ok).Same (t.complete v node ok) := by
  have h := hw.stop node
  unfold Stack.complete
  generalize w.stop node = x at h ⊢
  generalize v.stop node = y at h ⊢
  cases h with
  | error e => exact ⟨hs, hw, rfl⟩
  | ok hw' =>
    have hp := hs.pop hw'
    simp only [hs.label]
    exact ⟨⟨hp.after.label, hp.after.nodes, rfl, rfl, hp.after.current, hp.after.parkedAt⟩,
      hp.world.trace .., rfl⟩

theorem Same.settleStatus (hs : s.Same t) (hw : w.Same v) (node : NodeId) (status : Status) :
    (s.settleStatus w node status).Same (t.settleStatus v node status) := by
  cases status with
  | noReturn =>
    have htop : s.top? = t.top? := congrArg List.head? hs.nodes
    simp only [Stack.settleStatus, htop, hs.label, hs.state]
    split <;> exact ⟨hs, hw, rfl⟩
  | success | failed => exact hs.complete hw node _
  | wait =>
    simp only [Stack.settleStatus, suspend, hs.label]
    exact ⟨⟨rfl, hs.nodes, rfl, rfl, hs.current, hs.parkedAt⟩, hw.trace .., rfl⟩
  | waitUntilNextUpdate =>
    simp only [Stack.settleStatus, park, hs.label, hw.tick]
    exact ⟨⟨rfl, hs.nodes, rfl, rfl, hs.current, rfl⟩, hw.trace .., rfl⟩
  | error => exact hs.errorResult hw node _

theorem Same.call (hs : s.Same t) (hw : w.Same v) (node child : NodeId) (status : Status) :
    (s.call w node child status).Same (t.call v node child status) := by
  unfold Stack.call
  rw [hw.graph, contains, contains, hs.nodes, hs.label, hs.state]
  split
  · exact ⟨hs, hw, rfl⟩
  split
  · exact ⟨hs, hw, rfl⟩
  split
  · exact ⟨hs, hw, rfl⟩
  · have hp := hs.push hw child
    have hcalling : Same { (s.push w child).after with state := .calling }
        { (t.push v child).after with state := .calling } :=
      ⟨hp.after.label, hp.after.nodes, rfl, hp.after.result, hp.after.current, hp.after.parkedAt⟩
    exact hcalling.settleStatus hp.world node status

theorem Same.apply (hs : s.Same t) (hw : w.Same v) (node : NodeId) (d : Dispatch) :
    (s.apply w node d).Same (t.apply v node d) := by
  match d with
  | .bindFailed e => exact hs.bindFailed hw node e
  | .answered status [] => exact hs.settleStatus hw node status
  | .answered status [child] => exact hs.call hw node child status
  | .answered _ (_ :: _ :: _) => exact ⟨hs, hw, rfl⟩

/-- A step of both stacks does the same, unless one of them turned to that node before. -/
theorem Same.step (hs : s.Same t) (hw : w.Same v) {top : NodeId} (hl : s.last ≠ some top)
    (hl' : t.last ≠ some top) : (s.step w top).Same (t.step v top) := by
  have hcalling : Same { s with current := some top, state := .calling }
      { t with current := some top, state := .calling } :=
    ⟨hs.label, hs.nodes, rfl, hs.result, rfl, hs.parkedAt⟩
  have hcleared : Same { s with current := some top, result := none }
      { t with current := some top, result := none } :=
    ⟨hs.label, hs.nodes, hs.state, rfl, rfl, hs.parkedAt⟩
  unfold Stack.step
  simp only [if_neg hl, if_neg hl']
  by_cases hst : t.state = .receiving
  · rw [if_pos (hs.state.trans hst), if_pos hst]
    cases hres : t.result with
    | none =>
      rw [hs.result.trans hres]
      exact ⟨hcleared, hw, congrArg (fun l => some (StackError.missingResult l top)) hs.label⟩
    | some ok =>
      rw [hs.result.trans hres]
      have hr := hw.receive top ok
      simp only
      generalize w.receive top ok = x at hr ⊢
      generalize v.receive top ok = y at hr ⊢
      cases hr with
      | error e => exact ⟨hcleared, hw, rfl⟩
      | @ok a b h =>
        obtain ⟨hw', hd⟩ := h
        simp only [hd]
        exact hcleared.apply hw' top b.2
  · rw [if_neg (by rwa [hs.state]), if_neg hst]
    have hr := hw.execute top
    generalize w.execute top = x at hr ⊢
    generalize v.execute top = y at hr ⊢
    cases hr with
    | error e => exact ⟨hcalling, hw, rfl⟩
    | @ok a b h =>
      obtain ⟨hw', hd⟩ := h
      simp only [hd]
      exact hcalling.apply hw' top b.2

/-! ## How a pass comes to be paused -/

/-- The configuration stays as it is; and if the pause changes, that is reported. -/
structure Proceeds (s : Stack) (w : World σ) (p : Pass σ Stack) : Prop where
  stepping : p.after.pauseAfterSingleExecution = s.pauseAfterSingleExecution
  budget : p.after.stepBudget = s.stepBudget
  writes : w.Writes p.world
  paused : p.after.paused = s.paused ∨ w.halts < p.world.halts

omit [Node σ] in
theorem Proceeds.refl {s' : Stack} {fault : Option StackError} (hw : w.Writes v)
    (hs : s'.pauseAfterSingleExecution = s.pauseAfterSingleExecution)
    (hb : s'.stepBudget = s.stepBudget) (hp : s'.paused = s.paused) :
    Proceeds s w ⟨s', v, fault⟩ :=
  ⟨hs, hb, hw, .inl hp⟩

omit [Node σ] in
/-- Only what halts the world pauses a stack. -/
theorem Proceeds.unpaused {p : Pass σ Stack} (h : Proceeds s w p) (hp : s.paused = false)
    (hh : p.world.halts ≤ w.halts) : p.after.paused = false := by
  rcases h.paused with hpp | hlt
  · exact hpp.trans hp
  · exact absurd hlt (Nat.not_lt.2 hh)

omit [Node σ] in
theorem Proceeds.trans {p q : Pass σ Stack} (h : Proceeds s w p)
    (h' : Proceeds p.after p.world q) : Proceeds s w q := by
  refine ⟨h'.stepping.trans h.stepping, h'.budget.trans h.budget, h.writes.trans h'.writes, ?_⟩
  have hle := h.writes.halts_le
  have hle' := h'.writes.halts_le
  rcases h.paused with hp | hp
  · rcases h'.paused with hp' | hp'
    · exact .inl (hp'.trans hp)
    · exact .inr (by omega)
  · exact .inr (by omega)

omit [Node σ] in
theorem errorResult_proceeds (s : Stack) (w : World σ) (node : NodeId) (message : String) :
    Proceeds s w (s.errorResult w node message) := by
  refine ⟨rfl, rfl, ?_, .inr ?_⟩
  · exact (World.Writes.record ..).trans ((World.Writes.record ..).trans (.record ..))
  · simp [Stack.errorResult, World.halts, World.trace, World.report, World.warn, World.record,
      Record.halts]

omit [Node σ] in
theorem bindFailed_proceeds (s : Stack) (w : World σ) (node : NodeId) (e : VariableError) :
    Proceeds s w (s.bindFailed w node e) := by
  refine ⟨rfl, rfl, ?_, .inr ?_⟩
  · exact (World.Writes.record ..).trans ((World.Writes.record ..).trans (.record ..))
  · simp [Stack.bindFailed, World.halts, World.trace, World.report, World.warn, World.record,
      Record.halts]

theorem complete_proceeds (s : Stack) (w : World σ) (node : NodeId) (ok : Bool) :
    Proceeds s w (s.complete w node ok) := by
  unfold Stack.complete
  split
  · exact .refl (.refl w) rfl rfl rfl
  · next w' hw =>
    have hpop : w'.Writes (s.pop w').world ∧
        (s.pop w').after = { s with nodes := (s.pop w').after.nodes } := by
      unfold Stack.pop
      split
      · exact ⟨.refl w', rfl⟩
      · exact ⟨World.Writes.record .., rfl⟩
    refine .refl ((World.Writes.stop hw).trans (hpop.1.trans (.record ..))) ?_ ?_ ?_ <;>
      rw [hpop.2]

theorem settleStatus_proceeds (s : Stack) (w : World σ) (node : NodeId) (status : Status) :
    Proceeds s w (s.settleStatus w node status) := by
  cases status with
  | noReturn =>
    simp only [Stack.settleStatus]
    split <;> exact .refl (.refl w) rfl rfl rfl
  | success | failed => exact s.complete_proceeds w node _
  | wait | waitUntilNextUpdate => exact .refl (.record ..) rfl rfl rfl
  | error => exact s.errorResult_proceeds w node _

theorem apply_proceeds (s : Stack) (w : World σ) (node : NodeId) (d : Dispatch) :
    Proceeds s w (s.apply w node d) := by
  have hrefused : ∀ e : StackError, Proceeds s w ⟨s, w, some e⟩ := fun e =>
    .refl (.refl w) rfl rfl rfl
  match d with
  | .bindFailed e => exact s.bindFailed_proceeds w node e
  | .answered status [] => exact s.settleStatus_proceeds w node status
  | .answered _ (_ :: _ :: _) => exact hrefused _
  | .answered status [child] =>
    simp only [apply, call]
    split
    · exact hrefused _
    split
    · exact hrefused _
    split
    · exact hrefused _
    · have hpush : Proceeds s w
          ⟨{ (s.push w child).after with state := .calling }, (s.push w child).world, none⟩ :=
        .refl (.record ..) rfl rfl rfl
      exact hpush.trans (settleStatus_proceeds _ _ node status)

theorem step_proceeds (s : Stack) (w : World σ) (top : NodeId) :
    Proceeds s w (s.step w top) := by
  unfold Stack.step
  simp only
  split
  · exact .refl (.refl w) rfl rfl rfl
  split
  · split
    · exact .refl (.refl w) rfl rfl rfl
    split
    · exact .refl (.refl w) rfl rfl rfl
    · next hw =>
      have hr : Proceeds s w ⟨{ s with current := some top, result := none }, _, none⟩ :=
        .refl (World.Writes.receive hw) rfl rfl rfl
      exact hr.trans (apply_proceeds _ _ top _)
  · split
    · exact .refl (.refl w) rfl rfl rfl
    · next hw =>
      have he : Proceeds s w ⟨{ s with current := some top, state := .calling }, _, none⟩ :=
        .refl (World.Writes.execute hw) rfl rfl rfl
      exact he.trans (apply_proceeds _ _ top _)

theorem drive_writes (budget : Nat) (s : Stack) (w : World σ) :
    w.Writes (drive budget s w).world := by
  induction budget generalizing s w with
  | zero =>
    rw [drive]
    split
    · exact .refl w
    split
    · exact .refl w
    split
    · exact .refl w
    · exact (World.Writes.record ..).trans (.record ..)
  | succ budget ih =>
    rw [drive]
    split
    · exact .refl w
    split
    · exact .refl w
    split
    · exact .refl w
    simp only
    split
    · exact (s.step_proceeds w _).writes
    · exact (s.step_proceeds w _).writes.trans (ih _ _)

/-! ## Driving -/

/-- There is nothing for a pass to do: the stack is empty, or it rests. -/
theorem drive_still (n : Nat) {s : Stack} (w : World σ) (h : s.nodes = [] ∨ s.rests) :
    drive n s w = ⟨s, w, none⟩ := by
  rw [drive.eq_def]
  dsimp only
  split
  · rfl
  · next hn => rw [if_pos (by simp_all)]

/-- A paused stack stays where it is, unless it has a result to deliver. -/
theorem drive_paused (n : Nat) {s : Stack} (w : World σ) (hp : s.paused)
    (hr : s.state ≠ .receiving) : drive n s w = ⟨s, w, none⟩ := by
  rw [drive.eq_def]
  dsimp only
  split
  · rfl
  · rw [if_pos (by simp [hp, hr])]

/-- A stack that a pass is to take on. -/
structure Goes (s : Stack) (top : NodeId) (rest : List NodeId) : Prop where
  nodes : s.nodes = top :: rest
  rests : s.rests = false
  valid : s.state ≠ .invalid

theorem Goes.drive_zero {top : NodeId} {rest : List NodeId} (h : s.Goes top rest)
    (hp : s.paused = false ∨ s.state = .receiving) (w : World σ) :
    drive 0 s w = s.exhausted w top := by
  rw [drive, h.nodes]
  simp only
  rw [if_neg (by rcases hp with hp | hp <;> simp [hp, h.rests]), if_neg h.valid]

theorem Goes.drive_succ {top : NodeId} {rest : List NodeId} (h : s.Goes top rest)
    (hp : s.paused = false ∨ s.state = .receiving) (n : Nat) (w : World σ) :
    drive (n + 1) s w
      = if (s.step w top).fault.isSome || (s.step w top).after.rests then s.step w top
        else drive n (s.step w top).after.moveOn (s.step w top).world := by
  rw [drive, h.nodes]
  simp only
  rw [if_neg (by rcases hp with hp | hp <;> simp [hp, h.rests]), if_neg h.valid]

/-! ## Cutting a pass -/

/-- The pause is lifted and the stack is run on, for as long as it is paused. -/
inductive Finishes : Pass σ Stack → Pass σ Stack → Prop
  | done {p : Pass σ Stack} (h : p.after.paused = false) : Finishes p p
  | again {p q : Pass σ Stack} (h : p.after.paused) (hf : p.fault = none)
      (hq : Finishes (p.after.resume.run p.world) q) : Finishes p q

omit [Node σ] in
theorem conclude_none (s : Stack) (w : World σ) :
    conclude ⟨s, w, none⟩ = if s.nodes = [] ∧ s.state ≠ .ended
      then { s with current := none }.finish w else ⟨{ s with current := none }, w, none⟩ := by
  by_cases h : s.nodes = [] ∧ s.state ≠ .ended <;> simp_all [conclude, isEmpty]

omit [Node σ] in
/-- The end of a pass forgets the node that was being turned to. -/
theorem Same.conclude {s t : Stack} (h : Same { s with current := none } { t with current := none })
    (hw : w.Same v) : (conclude ⟨s, w, none⟩).Same (conclude ⟨t, v, none⟩) := by
  have hn : s.nodes = t.nodes := h.nodes
  have hst : s.state = t.state := h.state
  rw [conclude_none, conclude_none]
  by_cases he : t.nodes = [] ∧ t.state ≠ .ended
  · rw [if_pos (by rwa [hn, hst]), if_pos he]
    exact h.finish hw
  · rw [if_neg (by rwa [hn, hst]), if_neg he]
    exact ⟨h, hw, rfl⟩

/-- If there is nothing left to do, to lift the pause and run on does nothing. -/
theorem finishes_still (s : Stack) (w : World σ) (h : s.nodes = [] ∨ s.rests) :
    ∃ q, Finishes (Stack.conclude ⟨s, w, none⟩) q ∧ q.after.paused = false ∧
      q.Same (Stack.conclude ⟨s, w, none⟩) := by
  -- However it ends, the stack rests, and if it is empty it has ended.
  obtain ⟨hf, hr, he, hc⟩ : (Stack.conclude ⟨s, w, none⟩).fault = none ∧
      (Stack.conclude ⟨s, w, none⟩).after.rests ∧
      ((Stack.conclude ⟨s, w, none⟩).after.nodes = [] →
        (Stack.conclude ⟨s, w, none⟩).after.state = .ended) ∧
      (Stack.conclude ⟨s, w, none⟩).after.current = none := by
    rw [conclude_none]
    split
    · exact ⟨rfl, by simp [finish, rests], fun _ => rfl, rfl⟩
    · next hn =>
      have he : s.nodes = [] → s.state = .ended := fun hs =>
        Decidable.byContradiction fun hst => hn ⟨hs, hst⟩
      refine ⟨rfl, ?_, he, rfl⟩
      rcases h with h | h
      · simp [rests, he h]
      · exact h
  generalize Stack.conclude ⟨s, w, none⟩ = p at hf hr he hc ⊢
  obtain ⟨t, v, fault⟩ := p
  cases hf
  by_cases hp : t.paused
  · have hrun : t.resume.run v = ⟨{ t.resume with last := none, current := none }, v, none⟩ := by
      have hr : ({ t.resume with last := none } : Stack).rests := hr
      rw [run_eq, drive_still _ v (.inr hr), conclude_none, if_neg]
      exact fun hn => hn.2 (he hn.1)
    refine ⟨_, .again hp rfl (.done ?_), ?_, ?_⟩
    · rw [hrun]
      rfl
    · rw [hrun]
      rfl
    · rw [hrun]
      exact ⟨⟨rfl, rfl, rfl, rfl, hc.symm, rfl⟩, .refl v, rfl⟩
  · exact ⟨_, .done (by simpa using hp), by simpa using hp, ⟨rfl, rfl, rfl, rfl, rfl, rfl⟩,
      .refl v, rfl⟩

theorem Same.rests {s t : Stack} (h : Same s t) : s.rests = t.rests := by
  simp [Stack.rests, isWaiting, h.state]

/-- The stacks differ, besides, in the node that is being turned to, which the next step forgets,
and one of them may have forgotten the node turned to last. -/
structure Alike (t s : Stack) : Prop where
  same : Same { t with current := none } { s with current := none }
  last : t.last = none ∨ t.last = s.last

omit [Node σ] in
theorem Alike.still {s t : Stack} (h : t.Alike s) (hs : s.nodes = [] ∨ s.rests) :
    t.nodes = [] ∨ t.rests := by
  have hr : t.rests = s.rests := h.same.rests
  have hn : t.nodes = s.nodes := h.same.nodes
  rwa [hr, hn]

/-- Where nothing is left to do for the one, nothing is left for the other. -/
theorem finishes_of_same {s t : Stack}
    (h : Same { t with current := none } { s with current := none }) (hw : v.Same w)
    (hs : s.nodes = [] ∨ s.rests) :
    ∃ q, Finishes (conclude ⟨t, v, none⟩) q ∧ q.after.paused = false ∧
      q.Same (conclude ⟨s, w, none⟩) := by
  have hr : t.rests = s.rests := h.rests
  have hn : t.nodes = s.nodes := h.nodes
  obtain ⟨q, hq, hp, hsame⟩ := finishes_still t v (by rwa [hr, hn])
  have hc := h.conclude hw
  exact ⟨q, hq, hp, hsame.after.trans hc.after, hsame.world.trans hc.world,
    hsame.fault.trans hc.fault⟩

omit [Node σ] in
theorem Alike.goes {s t : Stack} (h : t.Alike s) {top : NodeId} {rest : List NodeId}
    (hg : s.Goes top rest) : t.Goes top rest := by
  refine ⟨?_, ?_, ?_⟩
  · exact h.same.nodes.trans hg.nodes
  · exact h.same.rests.trans hg.rests
  · rw [show t.state = s.state from h.same.state]
    exact hg.valid

omit [Node σ] in
theorem Alike.trans {s t u : Stack} (h : u.Alike t) (h' : t.Alike s) : u.Alike s := by
  refine ⟨h.same.trans h'.same, ?_⟩
  rcases h.last with hl | hl
  · exact .inl hl
  · exact h'.last.imp hl.trans hl.trans

/-- The next step does not look at the node that is being turned to. -/
theorem Alike.step {s t : Stack} (h : t.Alike s) (hw : v.Same w) {top : NodeId}
    (hl : s.last ≠ some top) : (t.step v top).Same (s.step w top) := by
  have hl' : t.last ≠ some top := by
    rcases h.last with ht | ht
    · simp [ht]
    · rwa [ht]
  exact Same.step (s := { t with current := none }) (t := { s with current := none }) h.same hw
    hl' hl

/-- A pass that goes well takes the stack on, unless there is nothing to do. -/
theorem goes_of_drive {n : Nat} {s : Stack} (hp : s.paused = false)
    (hs : ¬(s.nodes = [] ∨ s.rests)) (hf : (drive n s w).fault = none) :
    ∃ top rest, s.Goes top rest := by
  rw [not_or, Bool.not_eq_true] at hs
  obtain ⟨hne, hr⟩ := hs
  obtain ⟨top, rest, hn⟩ := List.exists_cons_of_ne_nil hne
  refine ⟨top, rest, hn, hr, fun hv => ?_⟩
  rw [drive.eq_def] at hf
  simp [hn, hp, hr, hv] at hf

/-- Wherever a stack is cut, lifting the pause takes it on from there. -/
theorem finishes_of_uncut {t : Stack} {top : NodeId} {rest : List NodeId} (hg : t.Goes top rest)
    (hb : 1 ≤ t.stepBudget) (m : Nat) {P : Pass σ Stack → Prop}
    (h : ∀ (k : Nat) (t' : Stack) (v' : World σ), t'.Alike t → v'.Same v →
      t'.stepBudget = t.stepBudget → (t'.paused = false ∨ t'.state = .receiving) →
      ∃ q, Finishes (conclude (drive (k + 1) t' v')) q ∧ P q) :
    ∃ q, Finishes (conclude (drive m t v)) q ∧ P q := by
  obtain ⟨b, hb⟩ := Nat.exists_eq_add_of_le' hb
  have hresumed : ∀ v' : World σ, v'.Same v →
      ∃ q, Finishes (({ t with current := none } : Stack).resume.run v') q ∧ P q := by
    intro v' hv
    have hrun : ({ t with current := none } : Stack).resume.run v'
        = conclude (drive (b + 1) { t.resume with current := none, last := none } v') := by
      rw [← hb]
      rfl
    rw [hrun]
    exact h b _ v' ⟨⟨rfl, rfl, rfl, rfl, rfl, rfl⟩, .inl rfl⟩ hv rfl (.inl rfl)
  by_cases hp : t.paused = false ∨ t.state = .receiving
  · cases m with
    | zero =>
      rw [hg.drive_zero hp]
      obtain ⟨q, hq, hP⟩ := hresumed (t.exhausted v top).world
        (((World.Same.refl v).notice (by rfl)).notice (by rfl))
      have hc : conclude (t.exhausted v top)
          = ⟨{ t.pause with current := none }, (t.exhausted v top).world, none⟩ := by
        refine (conclude_none t.pause (t.exhausted v top).world).trans (if_neg ?_)
        simp [pause, hg.nodes]
      rw [hc]
      exact ⟨q, .again rfl rfl hq, hP⟩
    | succ k => exact h k t v ⟨⟨rfl, rfl, rfl, rfl, rfl, rfl⟩, .inr rfl⟩ (.refl v) rfl hp
  · simp only [not_or, Bool.not_eq_false] at hp
    obtain ⟨q, hq, hP⟩ := hresumed v (.refl v)
    rw [drive_paused m v hp.1 hp.2, conclude_none, if_neg (by simp [hg.nodes])]
    exact ⟨q, .again hp.1 rfl hq, hP⟩

/-- A pass that is cut wherever its budget or stepping says, and run on, ends as the pass in
one piece does. -/
theorem finishes_of_drive (n : Nat) {s t : Stack} {w v : World σ} (hp : s.paused = false)
    (hs : s.pauseAfterSingleExecution = false) (ha : t.Alike s) (hw : v.Same w)
    (hb : 1 ≤ t.stepBudget) (hf : (drive n s w).fault = none)
    (hh : (drive n s w).world.halts = w.halts) (m : Nat) :
    ∃ q, Finishes (conclude (drive m t v)) q ∧ q.after.paused = false ∧
      q.Same (conclude (drive n s w)) := by
  induction n generalizing s t w v m with
  | zero =>
    by_cases hstill : s.nodes = [] ∨ s.rests
    · rw [drive_still m v (ha.still hstill), drive_still 0 w hstill]
      exact finishes_of_same ha.same hw hstill
    · obtain ⟨top, rest, hg⟩ := goes_of_drive hp hstill hf
      rw [hg.drive_zero (.inl hp)] at hh
      simp [exhausted, World.halts, World.report, World.warn, World.record, Record.halts] at hh
  | succ n ih =>
    by_cases hstill : s.nodes = [] ∨ s.rests
    · rw [drive_still m v (ha.still hstill), drive_still (n + 1) w hstill]
      exact finishes_of_same ha.same hw hstill
    obtain ⟨top, rest, hg⟩ := goes_of_drive hp hstill hf
    have hproc := s.step_proceeds w top
    have hwrites : ∀ p : Pass σ Stack, p.world.Writes (drive n p.after.moveOn p.world).world :=
      fun p => drive_writes n _ p.world
    rw [hg.drive_succ (.inl hp)] at hf hh ⊢
    have hlast : s.last ≠ some top := by
      intro hl
      simp [step, hl] at hf
    refine finishes_of_uncut (ha.goes hg) hb m fun k t' v' ha' hv' hb' hgo => ?_
    have hbudget := (t'.step_proceeds v' top).budget
    have hsame := (ha'.trans ha).step (hv'.trans hw) hlast
    rw [(ha'.goes (ha.goes hg)).drive_succ hgo]
    generalize t'.step v' top = p' at hsame hbudget ⊢
    generalize s.step w top = p at hf hh hproc hsame ⊢
    rw [hsame.fault, hsame.after.rests]
    split
    · next hend =>
      rw [if_pos hend] at hf
      obtain ⟨after, world, fault⟩ := p
      obtain ⟨after', world', fault'⟩ := p'
      cases hf
      cases hsame.fault
      refine finishes_of_same ⟨hsame.after.label, hsame.after.nodes, hsame.after.state,
        hsame.after.result, rfl, hsame.after.parkedAt⟩ hsame.world (.inr ?_)
      simpa using hend
    · next hend =>
      rw [if_neg hend] at hf hh
      have hle := hproc.writes.halts_le
      have hle' := (hwrites p).halts_le
      have hpaused : p.after.paused = false := hproc.unpaused hp (by omega)
      have hstep : p.after.moveOn.pauseAfterSingleExecution = false := hproc.stepping.trans hs
      have hunpaused : p.after.moveOn.paused = false := by
        have hstep : p.after.pauseAfterSingleExecution = false := hstep
        simp [moveOn, hpaused, hstep]
      have hmoved : p'.after.moveOn.Alike p.after.moveOn :=
        ⟨⟨hsame.after.label, hsame.after.nodes, hsame.after.state, hsame.after.result, rfl,
          hsame.after.parkedAt⟩, .inr hsame.after.current⟩
      have hb'' : 1 ≤ p'.after.moveOn.stepBudget := by
        show 1 ≤ p'.after.stepBudget
        omega
      exact ih hunpaused hstep hmoved hsame.world hb'' hf (by omega) k

/-! ## Operations -/

omit [Node σ] in
theorem conclude_halts (p : Pass σ Stack) : (conclude p).world.halts = p.world.halts := by
  obtain ⟨s, w, fault⟩ := p
  cases fault with
  | some e =>
    simp [conclude, invalidate, World.halts, World.trace, World.warn, World.record, Record.halts]
  | none =>
    rw [conclude_none]
    split
    · simp [finish, World.halts, World.trace, World.enqueue, World.record, Record.halts]
    · rfl

theorem run_halts_le (s : Stack) (w : World σ) : w.halts ≤ (s.run w).world.halts := by
  rw [run_eq, conclude_halts]
  exact (drive_writes ..).halts_le

/-- The same for whole passes. -/
theorem finishes_of_run {s t : Stack} {w v : World σ} (hp : s.paused = false)
    (hs : s.pauseAfterSingleExecution = false) (hsame : t.Same s) (hw : v.Same w)
    (hb : 1 ≤ t.stepBudget) (hf : (s.run w).fault = none)
    (hh : (s.run w).world.halts = w.halts) :
    ∃ q, Finishes (t.run v) q ∧ q.after.paused = false ∧ q.Same (s.run w) := by
  rw [run_eq] at hf hh ⊢
  rw [run_eq]
  rw [conclude_halts] at hh
  have hf' : (drive s.stepBudget { s with last := none } w).fault = none := by
    cases he : (drive s.stepBudget { s with last := none } w).fault with
    | none => rfl
    | some e => simp [conclude, he, invalidate] at hf
  have ha : ({ t with last := none } : Stack).Alike { s with last := none } :=
    ⟨⟨hsame.label, hsame.nodes, hsame.state, hsame.result, rfl, hsame.parkedAt⟩, .inl rfl⟩
  exact finishes_of_drive _ (s := { s with last := none }) (t := { t with last := none }) hp hs ha
    hw hb hf' hh _

theorem finishes_of_start (s : Stack) (w : World σ) (head : NodeId) (hp : s.paused = false)
    {whole cut : Config} (hs : whole.pauseAfterSingleExecution = false)
    (hb : 1 ≤ cut.maxStepsPerPass) (hf : ((s.applyConfig whole).start w head).fault = none)
    (hh : ((s.applyConfig whole).start w head).world.halts = w.halts) :
    ∃ q, Finishes ((s.applyConfig cut).start w head) q ∧ q.after.paused = false ∧
      q.Same ((s.applyConfig whole).start w head) := by
  have hstart : ∀ c : Config, (s.applyConfig c).start w head
      = if s.state ≠ .ready || !s.isEmpty || s.current.isSome then
          ⟨s.applyConfig c, w, some (.notReady s.label s.state s.depth)⟩
        else if !w.graph.contains head then ⟨s.applyConfig c, w, some (.unknownNode head)⟩
        else (({ s.applyConfig c with result := none, parkedAt := none } : Stack).push w
          head).after.run (w.entered s.label head (s.depth + 1)) := fun _ => rfl
  simp only [hstart] at hf hh ⊢
  split at hf
  · cases hf
  next hready =>
  split at hf
  · cases hf
  next hknown =>
  simp only [if_neg hready, if_neg hknown] at hh ⊢
  have hw : (w.entered s.label head (s.depth + 1)).halts = w.halts := by
    simp [World.entered, World.halts, World.trace, World.enqueue, World.record, Record.halts]
  exact finishes_of_run hp hs ⟨rfl, rfl, rfl, rfl, rfl, rfl⟩ (.refl _) hb hf (hh.trans hw.symm)

/-- The node that waits is completed, and then the stack is driven. -/
theorem finishes_of_receiveReturn (s : Stack) (w : World σ) (ok : Bool) (hp : s.paused = false)
    {whole cut : Config} (hs : whole.pauseAfterSingleExecution = false)
    (hb : 1 ≤ cut.maxStepsPerPass) (hf : ((s.applyConfig whole).receiveReturn w ok).fault = none)
    (hh : ((s.applyConfig whole).receiveReturn w ok).world.halts = w.halts) :
    ∃ q, Finishes ((s.applyConfig cut).receiveReturn w ok) q ∧ q.after.paused = false ∧
      q.Same ((s.applyConfig whole).receiveReturn w ok) := by
  have hsame : (s.applyConfig cut).Same (s.applyConfig whole) := ⟨rfl, rfl, rfl, rfl, rfl, rfl⟩
  have hsuspended : ∀ c : Config, (s.applyConfig c).suspended? = s.suspended? := fun _ => rfl
  simp only [receiveReturn, hsuspended] at hf hh ⊢
  cases hsus : s.suspended? with
  | none =>
    rw [hsus] at hf
    cases hf
  | some node =>
    rw [hsus] at hf hh
    have hcut := (s.applyConfig cut).complete_proceeds w node ok
    have hwhole := (s.applyConfig whole).complete_proceeds w node ok
    have hc := hsame.complete (.refl w) node ok
    simp only at hf hh ⊢
    generalize (s.applyConfig cut).complete w node ok = p' at hcut hc ⊢
    generalize (s.applyConfig whole).complete w node ok = p at hf hh hwhole hc ⊢
    obtain ⟨u, wu, fault⟩ := p
    obtain ⟨u', wu', fault'⟩ := p'
    obtain rfl : fault' = fault := hc.fault
    cases fault' with
    | some e => cases hf
    | none =>
      have hle : w.halts ≤ wu.halts := hwhole.writes.halts_le
      have hle' := run_halts_le { u with parkedAt := none } wu
      have hu : u.paused = false := hwhole.unpaused hp (Nat.le_trans hle' (Nat.le_of_eq hh))
      have hb' : 1 ≤ u'.stepBudget := by
        rw [show u'.stepBudget = cut.maxStepsPerPass from hcut.budget]
        exact hb
      have hsame' : Same { u' with parkedAt := none } { u with parkedAt := none } :=
        ⟨hc.after.label, hc.after.nodes, hc.after.state, hc.after.result, hc.after.current, rfl⟩
      exact finishes_of_run (s := { u with parkedAt := none }) (t := { u' with parkedAt := none })
        hu (hwhole.stepping.trans hs) hsame' hc.world hb' hf
        (Nat.le_antisymm (hh ▸ hle) hle')

/-- The operations that drive a stack on a host's account. -/
def Operation.Drives : Operation → Prop
  | .start _ | .run | .receiveReturn _ => True
  | _ => False

/-- A stack that is not paused is driven, and no rule is found broken, no node answers with an
error or cannot be bound, and the budget lasts. Then with any other budget, and whether it
steps or not, the same comes of it, in as many passes as it takes. -/
theorem finishes_of_perform (s : Stack) (w : World σ) {op : Operation} (hop : op.Drives)
    (hp : s.paused = false) {whole cut : Config}
    (hs : whole.pauseAfterSingleExecution = false) (hb : 1 ≤ cut.maxStepsPerPass)
    (hf : ((s.applyConfig whole).perform w op).fault = none)
    (hh : ((s.applyConfig whole).perform w op).world.halts = w.halts) :
    ∃ q, Finishes ((s.applyConfig cut).perform w op) q ∧ q.after.paused = false ∧
      q.Same ((s.applyConfig whole).perform w op) := by
  cases op with
  | run => exact finishes_of_run hp hs ⟨rfl, rfl, rfl, rfl, rfl, rfl⟩ (.refl w) hb hf hh
  | start head => exact finishes_of_start s w head hp hs hb hf hh
  | receiveReturn ok => exact finishes_of_receiveReturn s w ok hp hs hb hf hh
  | _ => exact hop.elim

/-- Two leaves that succeed at once, one after the other. -/
def twoChecks : Graph (FlowNode ⊕ LeafNode Question Plays) where
  slots := #[
    { name := "first", node := .inr (.check (.always true)), parent := some ⟨2⟩ },
    { name := "second", node := .inr (.check (.always true)), parent := some ⟨2⟩ },
    { name := "both", node := .inl (.sequence { children := [⟨0⟩, ⟨1⟩] }) }]

/-- One step to a pass, and a pause after each leaf. -/
theorem finishes_twoChecks :
    let w : World (FlowNode ⊕ LeafNode Question Plays) := { graph := twoChecks, blackboard := {} }
    let s : Stack := { label := .main }
    let cut : Config := { pauseAfterSingleExecution := true, maxStepsPerPass := 1 }
    ((s.applyConfig {}).perform w (.start ⟨2⟩)).after.state = .ended ∧
      ((s.applyConfig cut).perform w (.start ⟨2⟩)).after.nodes = [⟨0⟩, ⟨2⟩] ∧
      ∃ q, Finishes ((s.applyConfig cut).perform w (.start ⟨2⟩)) q ∧ q.after.paused = false ∧
        q.Same ((s.applyConfig {}).perform w (.start ⟨2⟩)) := by
  intro w s cut
  have hop : (Stack.Operation.start ⟨2⟩).Drives := trivial
  exact ⟨by decide +kernel, by decide +kernel,
    finishes_of_perform s w hop rfl rfl (by decide) (by decide +kernel) (by decide +kernel)⟩

end Stack

end BehaviorTree
