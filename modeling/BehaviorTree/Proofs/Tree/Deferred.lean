/-
Deferred ends, over the whole life of a tree.

The log of a run of calls says where each phase began, so what is outstanding when a phase
begins is known from it: a phase takes out those ends that are due by its moment, in the order
in which they were asked for, and each of them has its turn once. At its turn an end is
delivered if it still names the present execution of its node and a stack is suspended on the
node, paused or not; otherwise nothing is done but to trace that it was dropped.
-/
import BehaviorTree.Proofs.Tree.Tokens

namespace BehaviorTree

variable {σ : Type} [Node σ]

/-- A tick is all three phases, one after the other. -/
def HostCall.phases : HostCall → List HostCall
  | .tick dt => [.update dt, .fixedUpdate dt, .lateUpdate dt]
  | call => [call]

namespace Tree

variable {call : HostCall} {calls : List HostCall} {t t' : Tree σ} {found told : List Breach}
  {now : Tick}

/-! ## Calls and phases -/

theorem GuardedRuns.lasts (h : GuardedRuns call t found told t') (hc : call.isPhase = false) :
    t.world.Lasts t'.world := by
  induction h with
  | refl => exact .refl _
  | step _ _ _ hp ih =>
    rcases hp.lasts with hl | ⟨hc', -⟩
    · exact ih.trans hl
    · simp [hc] at hc'
  | report _ _ ih => exact ih.report _

theorem Follows.lasts {o o' : Outcome σ} (h : Follows call o o') (hc : call.isPhase = false) :
    o.tree.world.Lasts o'.tree.world := by
  obtain ⟨found, hr, -⟩ := h
  exact hr.lasts hc

/-- The moment to which a call sets the clock that is one phase. -/
def now? (t : Tree σ) : HostCall → Option Tick
  | .update dt => some { number := t.world.tick.number + 1, dt, phase := .update }
  | .fixedUpdate dt => some { number := t.world.tick.number, dt, phase := .fixedUpdate }
  | .lateUpdate dt => some { number := t.world.tick.number, dt, phase := .lateUpdate }
  | _ => none

/-- What is logged in calls none of which is more than one phase: where a phase begins, and
what follows until the next one does. -/
inductive Chronicle : Tree σ → List HostCall → List Item → Prop
  | nil (t : Tree σ) : Chronicle t [] []
  | call {t : Tree σ} {call : HostCall} {calls : List HostCall} {log more : List Item}
      (hn : t.now? call = none) (h : t.world.Log log (t.perform call).world)
      (hq : ∀ now, .taken now ∉ log) (h' : Chronicle (t.perform call) calls more) :
      Chronicle t (call :: calls) (log ++ more)
  | phase {t : Tree σ} {call : HostCall} {now : Tick} {calls : List HostCall}
      {log more : List Item} (hn : t.now? call = some now)
      (h : (t.atPhase now).world.Log log (t.perform call).world) (hq : ∀ now, .taken now ∉ log)
      (h' : Chronicle (t.perform call) calls more) :
      Chronicle t (call :: calls) (.taken now.moment :: (log ++ more))

omit [Node σ] in
theorem number_le_of_now (h : t.now? call = some now) :
    t.world.tick.number ≤ now.number := by
  cases call <;> cases h <;> simp

omit [Node σ] in
theorem isPhase_of_now (h : t.now? call = some now) : call.isPhase := by
  cases call <;> cases h <;> rfl

omit [Node σ] in
/-- An update is the first phase of a tick of its own. -/
theorem number_of_now (h : t.now? call = some now) :
    now.number = t.world.tick.number + if now.phase = .update then 1 else 0 := by
  cases call <;> cases h <;> rfl

theorem perform_of_now (h : t.now? call = some now) : t.perform call = (t.runPhase now).tree := by
  cases call <;> cases h <;> rfl

theorem log_atPhase (t : Tree σ) (now : Tick) :
    t.world.Log [.taken now.moment] (t.atPhase now).world := by
  have hclock : t.world.Log ([] ++ Item.ofStep [] []) { t.world with tick := now } :=
    (World.Log.refl _).step (.tick _ now) (List.append_nil _).symm
  exact hclock.take

theorem lasts_phase (ht : t.Sound) (h : t.world.tick.number ≤ now.number) :
    (t.atPhase now).world.Lasts (t.runPhase now).tree.world := by
  have hfired := fired_follows .start ht h
  rw [runPhase_eq]
  exact (hfired.trans (driveAll_follows .start (hfired.sound (sound_atPhase ht h)) _)).lasts rfl

theorem lasts_of_not_phase (ht : t.Sound) (hc : call.isPhase = false) :
    t.world.Lasts (t.perform call).world := by
  obtain ⟨found, hr⟩ := perform_guarded ht call
  exact hr.lasts hc

/-! ## Chronicles -/

theorem perform_phases (t : Tree σ) (call : HostCall) :
    t.performAll call.phases = t.perform call := by
  cases call <;>
    simp only [HostCall.phases, performAll, List.foldl_cons, List.foldl_nil, perform, tick]

theorem performAll_phases (t : Tree σ) (calls : List HostCall) :
    t.performAll (calls.flatMap HostCall.phases) = t.performAll calls := by
  induction calls generalizing t with
  | nil => rfl
  | cons call calls ih =>
    rw [List.flatMap_cons, performAll_append, perform_phases, ih, performAll, performAll,
      List.foldl_cons]

omit [Node σ] in
/-- None of the phases is a tick. -/
theorem ne_tick_of_mem_phases {call : HostCall} {calls : List HostCall}
    (h : call ∈ calls.flatMap HostCall.phases) (dt : Float32) : call ≠ .tick dt := by
  obtain ⟨whole, -, hm⟩ := List.mem_flatMap.1 h
  rintro rfl
  cases whole <;> simp [HostCall.phases] at hm

theorem exists_chronicle (ht : t.Sound) (calls : List HostCall) :
    ∃ log, t.Chronicle (calls.flatMap HostCall.phases) log := by
  have hone : ∀ call ∈ calls.flatMap HostCall.phases, ∀ dt, call ≠ .tick dt :=
    fun _ hm => ne_tick_of_mem_phases hm
  generalize calls.flatMap HostCall.phases = calls at hone
  induction calls generalizing t with
  | nil => exact ⟨[], .nil t⟩
  | cons call calls ih =>
    obtain ⟨found, hr⟩ := perform_runs ht call
    obtain ⟨more, hmore⟩ := ih (hr.sound ht) fun call hm => hone call (List.mem_cons_of_mem _ hm)
    cases hn : t.now? call with
    | none =>
      have hc : call.isPhase = false := by
        cases call <;> first | rfl | (cases hn; done) | exact absurd rfl (hone _ List.mem_cons_self _)
      obtain ⟨log, hl, hq⟩ := lasts_of_not_phase ht hc
      exact ⟨_, .call hn hl hq hmore⟩
    | some now =>
      obtain ⟨log, hl, hq⟩ := lasts_phase ht (number_le_of_now hn)
      rw [← perform_of_now hn] at hl
      exact ⟨_, .phase hn hl hq hmore⟩

theorem Chronicle.log {log : List Item} (h : t.Chronicle calls log) :
    t.world.Log log (t.performAll calls).world := by
  induction h with
  | nil t => exact .refl _
  | call _ h _ _ ih => exact h.trans ih
  | @phase t call now calls log more _ h _ _ ih =>
    exact (log_atPhase t now).trans (h.trans ih)

/-- Every phase has its place in the log, after all that was logged before it. -/
theorem Chronicle.split {earlier later : List HostCall} {log : List Item}
    (h : t.Chronicle (earlier ++ call :: later) log)
    (hn : (t.performAll earlier).now? call = some now) :
    ∃ past future, log = past ++ .taken now.moment :: future ∧ t.Chronicle earlier past := by
  induction earlier generalizing t log with
  | nil =>
    cases h with
    | call hn' => rw [show t.now? call = some now from hn] at hn'; cases hn'
    | phase hn' =>
      rw [show t.now? call = some now from hn] at hn'
      cases hn'
      exact ⟨[], _, rfl, .nil t⟩
  | cons first earlier ih =>
    cases h with
    | call hn' h hq h' =>
      obtain ⟨past, future, rfl, hp⟩ := ih h' hn
      exact ⟨_, future, (List.append_assoc ..).symm, .call hn' h hq hp⟩
    | phase hn' h hq h' =>
      obtain ⟨past, future, rfl, hp⟩ := ih h' hn
      exact ⟨_, future, by simp, .phase hn' h hq hp⟩

/-! ## Turns -/

/-- What firing an end comes to if it is delivered to the stack that the label names. -/
def firedInto (o : Outcome σ) (task : DeferredTask) (label : StackLabel) : Outcome σ :=
  let o' := (o.tree.operate (.receiveReturn task.success) label).settle
  ({ o'.tree with
    world := o'.tree.world.trace "bt.deferred.fire" label task.progress.node 1 } : Tree σ).note
      label o'.fault o.fault

/-- What becomes of a due end at its turn, when these are the happenings since it was asked for.
If the node was not executed or stopped in them and a stack is suspended on the node, then that
stack goes on with the outcome, which begins with the stop of the node, and the rest is what
follows from that. Otherwise nothing is done but to trace that the end was dropped. -/
structure Turn (o : Outcome σ) (task : DeferredTask) (since : List Happening) : Prop where
  delivered : (∀ x ∈ since, x.renews task.progress.node = false) →
    (∃ label, o.tree.SuspendedOn task.progress.node label) →
    ∃ label, o.tree.SuspendedOn task.progress.node label ∧ fire o task = firedInto o task label ∧
      ∃ rest, (fire o task).tree.world.happenings = o.tree.world.happenings
        ++ .called task.progress.node .stop :: .left label task.progress.node :: rest
  dropped : ¬((∀ x ∈ since, x.renews task.progress.node = false) ∧
      ∃ label, o.tree.SuspendedOn task.progress.node label) →
    fire o task = ⟨{ o.tree with
      world := o.tree.world.trace "bt.deferred.fire" .main task.progress.node 0 }, o.fault⟩

theorem turn_of_isCurrent_iff {o : Outcome σ} (ho : o.tree.Sound) {task : DeferredTask}
    {since : List Happening} (h : o.tree.world.isCurrent task.progress ↔
      ∀ x ∈ since, x.renews task.progress.node = false) : Turn o task since where
  delivered hs hl := by
    obtain ⟨⟨label, o'⟩, hd⟩ :=
      Option.isSome_iff_exists.1 ((deliver_isSome_iff ho task.success).2 ⟨h.2 hs, hl⟩)
    obtain ⟨-, hsusp, he⟩ := deliver_eq_some ho hd
    obtain ⟨-, rest, hrest⟩ := deliver_stops ho hd
    have hf : fire o task = ({ o'.tree with
        world := o'.tree.world.trace "bt.deferred.fire" label task.progress.node 1 } : Tree σ).note
          label o'.fault o.fault := by simp [fire, hd]
    refine ⟨label, hsusp, by rw [hf, firedInto, ← he], ?_⟩
    obtain ⟨new, hnew⟩ := (note_since ({ o'.tree with
      world := o'.tree.world.trace "bt.deferred.fire" label task.progress.node 1 } : Tree σ)
        label o'.fault o.fault).aged
    refine ⟨rest ++ new, ?_⟩
    rw [hf, hnew.happenings, World.happenings_trace _ (by decide), hrest, List.append_assoc]
    rfl
  dropped hn := by
    have hd : o.tree.deliver task.progress task.success = none := by
      rw [← Option.not_isSome_iff_eq_none, deliver_isSome_iff ho, h]
      exact hn
    simp [fire, hd]

/-- What a phase does about the ends, when this was logged until it begins. -/
structure Fires (t : Tree σ) (call : HostCall) (now : Tick) (past : List Item) : Prop where
  /-- It takes out what is outstanding and due, in the order in which it was asked for. -/
  due : t.due now = (outstanding past).filter (·.due.notAfter now.moment)
  /-- It fires that one by one, and then every stack moves. -/
  phase : t.perform call = (driveAll ((t.due now).foldl fire ⟨t.atPhase now, none⟩) now.phase).tree
  /-- An end whose node was not stopped since it was asked for has its turn in the first phase
  by which it is due. -/
  turn : ∀ before task after, past = before ++ .asked task :: after →
    .happened (.called task.progress.node .stop) ∉ after →
    (∀ earlier, .taken earlier ∈ after → ¬task.due.notAfter earlier) →
    task.due.notAfter now.moment →
    ∃ ahead behind new, t.due now = ahead ++ task :: behind ∧
      ahead = ((outstanding before).filter (·.waits after)).filter (·.due.notAfter now.moment) ∧
      (ahead.foldl fire ⟨t.atPhase now, none⟩).tree.world.happenings = t.world.happenings ++ new ∧
      Turn (ahead.foldl fire ⟨t.atPhase now, none⟩) task
        (after.filterMap Item.happening? ++ new)
  /-- After that it has no turn. -/
  once : ∀ before task after, past = before ++ .asked task :: after →
    task.due.notAfter now.moment → ∀ more, ¬task.waits (after ++ .taken now.moment :: more)

/-- When it is its turn, an end is tried on a tree whose happenings since it was asked for are
known. -/
theorem turn_of_log (ht : t.Sound) (hn : t.world.tick.number ≤ now.number) {w : World σ}
    {before after : List Item} {task : DeferredTask}
    (hl : w.Log (before ++ .asked task :: after) t.world) (ahead : List DeferredTask) :
    ∃ new, (ahead.foldl fire ⟨t.atPhase now, none⟩).tree.world.happenings
        = t.world.happenings ++ new ∧
      Turn (ahead.foldl fire ⟨t.atPhase now, none⟩) task
        (after.filterMap Item.happening? ++ new) := by
  have hahead : Follows .start ⟨t.atPhase now, none⟩ (ahead.foldl fire ⟨t.atPhase now, none⟩) :=
    foldl_follows fire_follows ahead (sound_atPhase ht hn)
  have ho := hahead.sound (sound_atPhase ht hn)
  obtain ⟨more, hm, -⟩ := hahead.lasts rfl
  generalize ahead.foldl fire ⟨t.atPhase now, none⟩ = o at ho hm
  refine ⟨more.filterMap Item.happening?, hm.happenings, turn_of_isCurrent_iff ho ?_⟩
  have hall : w.Log (before ++ .asked task :: (after ++ .taken now.moment :: more)) o.tree.world := by
    simpa using hl.trans ((log_atPhase t now).trans hm)
  have hlater : after.filterMap Item.happening? ++ more.filterMap Item.happening?
      = (after ++ .taken now.moment :: more).filterMap Item.happening? := by
    rw [List.filterMap_append, List.filterMap_cons_none rfl]
  rw [hall.isCurrent_iff, hlater]
  simp only [Item.mem_happenings]

theorem fires_of_log (ht : t.Sound) (hn : t.now? call = some now) {w : World σ} {past : List Item}
    (hw : w.schedule.pending = []) (hl : w.Log past t.world) : t.Fires call now past := by
  have hdue : t.due now = (outstanding past).filter (·.due.notAfter now.moment) := by
    have hp := hl.pending
    rw [hw, List.filter_nil, List.nil_append] at hp
    rw [← hp]
    exact Schedule.takeDue_fst ..
  refine ⟨hdue, by rw [perform_of_now hn, runPhase_eq], ?_, ?_⟩
  · intro before task after he hstop hearlier hd
    subst he
    obtain ⟨new, hnew, hturn⟩ := turn_of_log ht (number_le_of_now hn) hl
      (((outstanding before).filter (·.waits after)).filter (·.due.notAfter now.moment))
    refine ⟨_, (outstanding after).filter (·.due.notAfter now.moment), new, ?_, rfl, hnew, hturn⟩
    have hw : task.waits after := waits_iff.2 ⟨hstop, hearlier⟩
    have hmid : ∀ task' : DeferredTask,
        task'.waits (.asked task :: after) = task'.waits after := fun _ => Bool.true_and _
    rw [hdue, outstanding_append, outstanding, if_pos hw, List.filter_append,
      List.filter_cons, if_pos hd]
    simp only [hmid]
  · intro before task after _ hd more
    rw [waits_iff]
    exact fun h => h.2 now.moment (by simp) hd

/-- Whatever the host calls, in whatever order: the calls come to what their phases come to, and
the log of these tells when ends were asked for. Each end names the execution in which the node
asked for it, and falls due so many ticks after that in the same phase; what is in the schedule
is what is outstanding by the log. Every phase that is called takes out what is outstanding and
due by its moment, and nothing else does. An end that it takes out has its turn once, in the
order in which the ends were asked for: it is delivered if its node was not executed or stopped
since it was asked for, in this phase either, and a stack is suspended on the node; otherwise it
is dropped. -/
theorem deferred_exact {g : Graph σ} {root : NodeId} {b : Blackboard}
    (hm : make g root b = .ok t) (calls : List HostCall) :
    t.performAll (calls.flatMap HostCall.phases) = t.performAll calls ∧
    (∃ log, t.Chronicle (calls.flatMap HostCall.phases) log) ∧
    ∀ log, t.Chronicle (calls.flatMap HostCall.phases) log →
      (t.performAll calls).world.happenings = log.filterMap Item.happening? ∧
      (t.performAll calls).world.schedule.pending = outstanding log ∧
      (∀ before task after, log = before ++ .asked task :: after →
        t.world.Asked task (after.filterMap Item.happening?) (t.performAll calls).world) ∧
      ∀ earlier call later now, calls.flatMap HostCall.phases = earlier ++ call :: later →
        (t.performAll earlier).now? call = some now →
        ∃ past future, log = past ++ .taken now.moment :: future ∧ t.Chronicle earlier past ∧
          (t.performAll earlier).Fires call now past := by
  have hs := sound_make hm
  have hnil : t.world.schedule.pending = [] := by
    obtain ⟨-, rfl⟩ := make_ok hm
    rfl
  have hempty : t.world.happenings = [] := by
    obtain ⟨-, rfl⟩ := make_ok hm
    rfl
  refine ⟨performAll_phases t calls, exists_chronicle hs calls, fun log hc => ?_⟩
  have hl := hc.log
  rw [performAll_phases] at hl
  refine ⟨?_, ?_, fun before task after he => hl.asked he, ?_⟩
  · rw [hl.happenings, hempty, List.nil_append]
  · rw [hl.pending, hnil, List.filter_nil, List.nil_append]
  · intro earlier call later now he hn
    rw [he] at hc
    obtain ⟨past, future, hlog, hp⟩ := hc.split hn
    exact ⟨past, future, hlog, hp, fires_of_log (performAll_sound hs earlier) hn hnil hp.log⟩

omit [Node σ] in
/-- Where no service is registered, it is the main stack that is suspended. -/
theorem SuspendedOn.main {node : NodeId} {label : StackLabel} (h : t.SuspendedOn node label)
    (hs : t.services = []) : label = .main ∧ t.main.suspended? = some node := by
  obtain ⟨s, hl, hw⟩ := h
  cases label with
  | main =>
    cases hl
    exact ⟨rfl, hw⟩
  | service id => simp [stack?, service?, hs] at hl

/-- Asks for its end twice, and waits. -/
def dozing : Scripted where
  name := "dozer"
  execute := [{ instructions := [.endAfter 1 true, .endAfter 1 false], answer := some .wait }]

def dozer : Graph Scripted where
  slots := #[{ name := "dozer", node := dozing }]

/-- Both ends fall due in the next update: the first one is delivered, and the second one, whose
node is stopped by then, is dropped. -/
theorem deferred_exact_dozer :
    ∃ t, make dozer ⟨0⟩ {} = .ok t ∧
      let now : Tick := { number := 1, dt := 0, phase := .update }
      let begun : Outcome Scripted := ⟨(t.performAll [.start]).atPhase now, none⟩
      let first : DeferredTask := { progress := ⟨⟨0⟩, 1⟩, due := ⟨1, .update⟩, success := true }
      let second : DeferredTask := { progress := ⟨⟨0⟩, 1⟩, due := ⟨1, .update⟩, success := false }
      (t.performAll [.start]).due now = [first, second] ∧
      fire begun first = firedInto begun first .main ∧
      (fire (fire begun first) second).tree.world.happenings
        = (fire begun first).tree.world.happenings := by
  have hm : make dozer ⟨0⟩ {} = .ok { root := ⟨0⟩, world := { graph := dozer, blackboard := {} } } :=
    rfl
  refine ⟨_, hm, ?_⟩
  generalize ht : ({ root := ⟨0⟩, world := { graph := dozer, blackboard := {} } } : Tree Scripted) = t
    at hm
  intro now begun first second
  obtain ⟨-, ⟨log, hc⟩, hall⟩ := deferred_exact hm [.start, .update 0]
  obtain ⟨-, -, -, hphases⟩ := hall log hc
  have hnumber : (t.performAll [.start]).world.tick.number = 0 := by subst ht; decide +kernel
  obtain ⟨past, -, -, hp, hfires⟩ := hphases [.start] (.update 0) [] now rfl (by
    simp [now?, hnumber, now])
  have hdue : due (t.performAll [.start]) now = [first, second] := by subst ht; decide +kernel
  -- Each of the two was asked for in the log and waits, for it is taken out.
  have hasked : ∀ task ∈ [first, second], ∃ before after,
      past = before ++ .asked task :: after ∧ task.waits after ∧ task.due.notAfter now.moment := by
    intro task hm
    rw [← hdue, hfires.due] at hm
    obtain ⟨hm, hd⟩ := List.mem_filter.1 hm
    obtain ⟨before, after, he, hw⟩ := mem_outstanding.1 hm
    exact ⟨before, after, he, hw, hd⟩
  refine ⟨hdue, ?_, ?_⟩
  · obtain ⟨before, after, rfl, hw, hd⟩ := hasked first (by simp)
    obtain ⟨hstop, hearlier⟩ := waits_iff.1 hw
    obtain ⟨ahead, behind, new, he, -, hnew, hturn⟩ := hfires.turn before first after rfl hstop
      hearlier hd
    rw [hdue] at he
    obtain ⟨rfl, -⟩ | ⟨ahead, rfl, hrest⟩ := List.cons_eq_append_iff.1 he
    swap
    · have hmem : first ∈ [second] := by
        rw [hrest]
        simp
      exact absurd hmem (by decide)
    obtain rfl : new = [] := List.self_eq_append_right.1 hnew
    have hcurrent : (t.performAll [.start]).world.isCurrent first.progress := by
      subst ht
      decide +kernel
    have hquiet := hp.log.isCurrent_iff.1 hcurrent
    obtain ⟨label, hl, hf, -⟩ := hturn.delivered
      (by simpa only [List.append_nil, Item.mem_happenings] using hquiet)
      ⟨.main, suspendedOn_iff.2 (by subst ht; decide +kernel)⟩
    have hnone : begun.tree.services = [] :=
      List.length_eq_zero_iff.1 (by subst ht; decide +kernel)
    obtain ⟨rfl, -⟩ := hl.main hnone
    exact hf
  · obtain ⟨before, after, rfl, hw, hd⟩ := hasked second (by simp)
    obtain ⟨hstop, hearlier⟩ := waits_iff.1 hw
    obtain ⟨ahead, behind, new, he, -, -, hturn⟩ := hfires.turn before second after rfl hstop
      hearlier hd
    rw [hdue] at he
    obtain ⟨rfl, hrest⟩ | ⟨ahead, rfl, hrest⟩ := List.cons_eq_append_iff.1 he
    · exact absurd (List.cons.inj hrest).1 (by decide)
    obtain ⟨rfl, -⟩ | ⟨ahead, rfl, hnil⟩ := List.cons_eq_append_iff.1 hrest
    swap
    · simp at hnil
    rw [List.foldl_cons, List.foldl_nil] at hturn
    have hnone : (fire begun first).tree.services = [] :=
      List.length_eq_zero_iff.1 (by subst ht; decide +kernel)
    have hfree : (fire begun first).tree.main.suspended? = none := by
      subst ht
      decide +kernel
    have hf : fire (fire begun first) second = _ := hturn.dropped fun ⟨_, label, hl⟩ => by
      have hmain := (hl.main hnone).2
      exact absurd (hmain.symm.trans hfree) (by simp)
    rw [hf]
    exact World.happenings_trace _ (by decide) ..

end Tree

end BehaviorTree
