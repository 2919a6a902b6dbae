/-
No broken rule is swallowed.

In a phase every task that is due, the main stack and each service take their parts, one after
the other, each on the tree that the ones before left; what they found broken makes no
difference to that. A part reports the rule that it finds broken, once, and a call answers with
the first that was reported in its course, so it answers with an error of a stack exactly if a
broken rule was reported.
-/
import BehaviorTree.Proofs.Tree.Breaches
import BehaviorTree.Proofs.Tree.Deferred

namespace BehaviorTree

variable {σ : Type}

/-! ## What is reported -/

def Happening.violated? : Happening → Option Diagnostic
  | .violated d => some d
  | _ => none

/-- The broken rules that were reported, in the order of time. -/
def World.violations (w : World σ) : List Diagnostic :=
  (History.diagnostics w.history.reverse).filter (·.kind = .protocolViolation)

/-- The diagnostic of a breach, in a tree over the graph `g`. -/
def Breach.diagnostic (g : Graph σ) (b : Breach) : Diagnostic :=
  { Diagnostic.ofFault b.stack b.error with name := b.error.node?.bind g.name? }

theorem Record.violated?_happening? (r : Record) :
    r.happening?.bind Happening.violated? = r.reported?.filter (·.kind = .protocolViolation) := by
  cases r with
  | reported d =>
    by_cases hd : d.kind = .protocolViolation <;>
      simp [happening?, reported?, hd, Happening.violated?, Option.filter]
  | traced e =>
    simp only [happening?, TraceEvent.happening?, reported?, Option.filter_none]
    split
    · cases e.node <;> rfl
    split
    · cases e.node <;> rfl
    split <;> rfl
  | called | observed | said | broken | logged => rfl

theorem World.violations_eq (w : World σ) :
    w.violations = w.happenings.filterMap Happening.violated? := by
  rw [violations, History.diagnostics, List.filter_filterMap, happenings, ← List.filterMap_reverse,
    List.filterMap_filterMap]
  simp only [Record.violated?_happening?]

variable [Node σ]

namespace Tree

variable {g : Graph σ} {root : NodeId} {call : HostCall} {t t' : Tree σ} {o : Outcome σ}
  {found told : List Breach} {phase : Phase}

/-- A run reports what it tells, in that order, and nothing else. -/
theorem Runs.violations (h : Runs call t found told t') (hs : t.Sound) (ht : t.ReplaysStacks)
    (hg : Rooted g root t) :
    t'.world.violations = t.world.violations ++ told.map (Breach.diagnostic g) := by
  induction h with
  | refl => simp
  | step h hstep ih =>
    obtain ⟨new, hl, hnone⟩ := (hstep.stackChange (h.sound hs)).leads (h.sound hs)
      (h.replaysStacks hs ht)
    have hnew : new.filterMap Happening.violated? = [] := by
      refine List.filterMap_eq_nil_iff.2 fun x hx => ?_
      cases x with
      | violated d => exact absurd hx (hnone d)
      | _ => rfl
    rw [← ih, World.violations_eq, World.violations_eq, hl.happenings, List.filterMap_append, hnew,
      List.append_nil]
  | @report t' _ _ b h _ ih =>
    have hname : t'.world.graph.name? = g.name? := (h.rooted hg).name?
    rw [List.map_append, ← List.append_assoc, ← ih]
    simp [World.violations, World.report, World.record, History.diagnostics, Record.reported?,
      Diagnostic.ofFault, Breach.diagnostic, hname]

/-! ## The parts of a phase -/

/-- What plays a part in a phase. -/
inductive Part where
  | fire (task : DeferredTask)
  | main
  | advance (service : NodeId)
  | hook (service : NodeId)

namespace Part

/-- Play a part; the first broken rule of all is kept. -/
def play (phase : Phase) (o : Outcome σ) : Part → Outcome σ
  | fire task => Tree.fire o task
  | main =>
    let main := o.tree.driveMain phase
    main.tree.note .main main.fault o.fault
  | advance service => moveService service Service.advance o
  | hook service => moveService service (fun v w => v.keep (v.stack.forwardHook w phase)) o

/-- What the operation of a part finds broken. -/
def breach? (phase : Phase) (t : Tree σ) : Part → Option Breach
  | fire task =>
    (t.deliver task.progress task.success).bind fun (label, o) => o.fault.map (.mk label)
  | main => (t.driveMain phase).fault.map (.mk .main)
  | advance service =>
    (t.service? service).bind fun v => (v.advance t.world).fault.map (.mk v.label)
  | hook service =>
    (t.service? service).bind fun v => (v.stack.forwardHook t.world phase).fault.map (.mk v.label)

end Part

/-- Play parts one after the other: the tree that is left, and all that was found broken. -/
def playAll (phase : Phase) : List Part → Tree σ → Tree σ × List Breach
  | [], t => (t, [])
  | part :: rest, t =>
    let later := playAll phase rest (part.play phase ⟨t, none⟩).tree
    (later.1, (part.breach? phase t).toList ++ later.2)

/-- The parts of a phase, in their order: the ends that are due, the main stack, and the services
that are registered once it has moved. -/
def parts (t : Tree σ) (now : Tick) : List Part :=
  let first := (t.due now).map Part.fire ++ [.main]
  first ++ (playAll now.phase first (t.atPhase now)).1.services.flatMap fun v =>
    [.advance v.service, .hook v.service]

/-- A phase, part by part. -/
def playParts (t : Tree σ) (now : Tick) : Tree σ × List Breach :=
  playAll now.phase (t.parts now) (t.atPhase now)

omit [Node σ] in
theorem tree_note (t : Tree σ) (label : StackLabel) (fault first : Option StackError) :
    (t.note label fault first).tree = (t.note label fault none).tree := by
  cases fault <;> rfl

omit [Node σ] in
theorem fault_note (t : Tree σ) (label : StackLabel) (fault first : Option StackError) :
    (t.note label fault first).fault = first.or fault := by
  cases fault <;> simp [note]

/-- What is found so far makes no difference to a part. -/
theorem tree_play (o : Outcome σ) (part : Part) :
    (part.play phase o).tree = (part.play phase ⟨o.tree, none⟩).tree := by
  cases part with
  | fire task =>
    simp only [Part.play, fire]
    cases o.tree.deliver task.progress task.success with
    | none => rfl
    | some d => exact tree_note ..
  | main => exact tree_note ..
  | advance s | hook s =>
    simp only [Part.play, moveService]
    cases o.tree.service? s with
    | none => rfl
    | some v => exact tree_note ..

theorem note_guarded {label : StackLabel} {fault : Option StackError}
    (h : GuardedRuns call t (fault.toList.map (.mk label)) [] t') (first : Option StackError) :
    GuardedRuns call t (fault.toList.map (.mk label)) (fault.toList.map (.mk label))
      (t'.note label fault first).tree := by
  unfold note
  cases fault with
  | none => exact h
  | some e => exact h.report (b := ⟨label, e⟩) (List.mem_singleton.2 rfl)

omit [Node σ] in
theorem toList_breach (label : StackLabel) (fault : Option StackError) :
    fault.toList.map (Breach.mk label) = (fault.map (Breach.mk label)).toList := by
  cases fault <;> rfl

omit [Node σ] in
@[simp] theorem map_error_breach (label : StackLabel) (fault : Option StackError) :
    (fault.map (Breach.mk label)).map (·.error) = fault := by
  cases fault <;> rfl

/-- A move that a service makes by itself, wherever the service is registered. -/
theorem moveService_guarded (call : HostCall) (ho : o.tree.Sound)
    {move : Service → World σ → Pass σ Service}
    (h : ∀ (v : Service) (w : World σ), v.stack.Sound w →
      Service.GuardedRuns (fun _ => False) (v, w) ((move v w).breaches v.label)
        ((move v w).after, (move v w).world))
    (service : NodeId) :
    let breach? := (o.tree.service? service).bind fun v =>
      (move v o.tree.world).fault.map (Breach.mk v.label)
    GuardedRuns call o.tree breach?.toList breach?.toList (moveService service move o).tree ∧
      (moveService service move o).fault = o.fault.or (breach?.map (·.error)) := by
  unfold moveService
  cases hv : o.tree.service? service with
  | none => exact ⟨.refl _, by simp⟩
  | some v =>
    have hm := (service?_eq_some hv).1
    obtain ⟨hr, hf⟩ := guarded_moved call ho hm
      ((h v o.tree.world (ho.services v hm)).mono fun _ hn => hn.elim)
    rw [Pass.breaches, ← hf] at hr
    simp only [Option.bind_some, ← hf]
    exact ⟨toList_breach .. ▸ note_guarded hr o.fault, by rw [fault_note, map_error_breach]⟩

/-- A part reports what its operation finds broken, and keeps the first broken rule. -/
theorem play_guarded (call : HostCall) (phase : Phase) (ho : o.tree.Sound) (part : Part) :
    GuardedRuns call o.tree (part.breach? phase o.tree).toList (part.breach? phase o.tree).toList
        (part.play phase o).tree ∧
      (part.play phase o).fault = o.fault.or ((part.breach? phase o.tree).map (·.error)) := by
  cases part with
  | fire task =>
    simp only [Part.play, Part.breach?, fire]
    cases hd : o.tree.deliver task.progress task.success with
    | none => exact ⟨guarded_trace call o.tree (by decide) _ _ _, by simp⟩
    | some d =>
      obtain ⟨label, delivered⟩ := d
      have htrace : GuardedRuns call delivered.tree [] [] { delivered.tree with
          world := delivered.tree.world.trace "bt.deferred.fire" label task.progress.node 1 } :=
        guarded_trace call delivered.tree (by decide) _ _ _
      have hdone := note_guarded ((deliver_guarded call ho hd).then htrace) o.fault
      rw [toList_breach] at hdone
      refine ⟨hdone, ?_⟩
      rw [fault_note, Option.bind_some, map_error_breach]
  | main =>
    have hdone := note_guarded (driveMain_guarded call ho phase) o.fault
    rw [toList_breach] at hdone
    refine ⟨hdone, ?_⟩
    rw [Part.play, Part.breach?, fault_note, map_error_breach]
  | advance s =>
    exact moveService_guarded call ho (fun v w hs => Service.advance_guarded _ hs) s
  | hook s =>
    have hhook : ∀ (v : Service) (w : World σ), v.stack.Sound w →
        Service.GuardedRuns (fun _ => False) (v, w)
          ((v.keep (v.stack.forwardHook w phase)).breaches v.label)
          ((v.keep (v.stack.forwardHook w phase)).after,
            (v.keep (v.stack.forwardHook w phase)).world) := fun v w hs =>
      Service.operate_guarded _ hs (.forwardHook phase) fun _ => rfl
    exact moveService_guarded call ho hhook s

theorem playAll_guarded (call : HostCall) (parts : List Part) (ht : t.Sound) :
    GuardedRuns call t (playAll phase parts t).2 (playAll phase parts t).2
      (playAll phase parts t).1 := by
  induction parts generalizing t with
  | nil => exact .refl t
  | cons part rest ih =>
    obtain ⟨hh, -⟩ := play_guarded (o := ⟨t, none⟩) call phase ht part
    exact hh.trans (ih (hh.sound ht))

theorem foldl_play (phase : Phase) (parts : List Part) (ho : o.tree.Sound) :
    parts.foldl (Part.play phase) o
      = ⟨(playAll phase parts o.tree).1,
          o.fault.or ((playAll phase parts o.tree).2.head?.map (·.error))⟩ := by
  induction parts generalizing o with
  | nil => simp [playAll]
  | cons part rest ih =>
    obtain ⟨hh, hf⟩ := play_guarded (.update 0) phase ho part
    rw [List.foldl_cons, ih (hh.sound ho), tree_play, hf, playAll, Option.or_assoc]
    simp only [List.head?_append]
    cases part.breach? phase o.tree <;> simp

/-- A phase is its parts, and answers with the first rule that was found broken in them. -/
theorem runPhase_parts (ht : t.Sound) {now : Tick} (h : t.world.tick.number ≤ now.number) :
    t.runPhase now = ⟨(t.playParts now).1, (t.playParts now).2.head?.map (·.error)⟩ := by
  have hstart := sound_atPhase ht h
  -- The ends that are due and the main stack move first; then it is known which services there are.
  have hfirst := foldl_play (o := ⟨t.atPhase now, none⟩) now.phase
    ((t.due now).map Part.fire ++ [.main]) hstart
  have hall := foldl_play (o := ⟨t.atPhase now, none⟩) now.phase (t.parts now) hstart
  rw [Option.none_or] at hfirst hall
  have hmoved : ((t.due now).map Part.fire ++ [Part.main]).foldl (Part.play now.phase)
        ⟨t.atPhase now, none⟩
      = Part.main.play now.phase ((t.due now).foldl fire ⟨t.atPhase now, none⟩) := by
    rw [List.foldl_append, List.foldl_map]
    rfl
  have hservices := congrArg Outcome.tree (hfirst.symm.trans hmoved)
  simp only at hservices
  rw [playParts, ← hall, runPhase_eq, parts, List.foldl_append, hmoved, List.foldl_flatMap,
    hservices, driveAll, List.foldl_map]
  rfl

/-! ## What a call reports -/

/-- The call finds these rules broken, one after the other, reports each of them once and nothing
else, and answers with an error of a stack exactly if there is one: with the first. -/
structure Reports (g : Graph σ) (t : Tree σ) (call : HostCall) (found : List Breach) : Prop where
  runs : Runs call t found found (t.perform call)
  reported : (t.perform call).world.violations
    = t.world.violations ++ found.map (Breach.diagnostic g)
  answered : ∀ e, t.answer call = some (.stack e) ↔ found.head?.map (·.error) = some e

theorem Reports.of_runs (h : Runs call t found found (t.perform call)) (hs : t.Sound)
    (ht : t.ReplaysStacks) (hg : Rooted g root t)
    (ha : t.answer call = found.head?.map (.stack ·.error)) : Reports g t call found := by
  refine ⟨h, h.violations hs ht hg, fun e => ?_⟩
  rw [ha]
  cases found.head? <;> simp

/-- Only the call that ends a node answers with an error of a stack that is not reported: that
there is no such node. -/
theorem exists_reports (hs : t.Sound) (ht : t.ReplaysStacks) (hg : Rooted g root t)
    (hc : ∀ node ok, call ≠ .endNode node ok) : ∃ found, Reports g t call found := by
  rcases perform_walk hs call with ⟨found, hrun, ha⟩ | ⟨hsame, e, ha, hu⟩
  · exact ⟨found, .of_runs hrun hs ht hg ha⟩
  · refine ⟨[], by rw [hsame]; exact .refl t, by simp [hsame], fun e' => ?_⟩
    rw [ha]
    cases hu with
    | endNode ok => exact absurd rfl (hc _ ok)
    | breakService | pauseService | resumeService => simp

/-- A call that is one phase is the parts of the phase, also as one of the phases of a tick. -/
theorem perform_parts {now : Tick} (hs : t.Sound) (hn : t.now? call = some now) :
    t.perform call = (t.playParts now).1 ∧
      t.answer call = (t.playParts now).2.head?.map (.stack ·.error) ∧
      ∀ whole : HostCall, whole.isPhase →
        GuardedRuns whole t (t.playParts now).2 (t.playParts now).2 (t.perform call) := by
  have hnumber := number_le_of_now hn
  have hphase := runPhase_parts hs hnumber
  have hperform : t.perform call = (t.playParts now).1 := by rw [perform_of_now hn, hphase]
  have hanswer : t.answer call = (t.runPhase now).fault.map .stack := by
    cases call <;> cases hn <;> rfl
  refine ⟨hperform, ?_, fun whole hw => ?_⟩
  · rw [hanswer, hphase, Option.map_map]
    rfl
  · rw [hperform]
    exact (atPhase_guarded whole hw hnumber).trans
      (playAll_guarded whole _ (sound_atPhase hs hnumber))

theorem reports_phase (hs : t.Sound) (ht : t.ReplaysStacks) (hg : Rooted g root t) {now : Tick}
    (hn : t.now? call = some now) :
    t.perform call = (t.playParts now).1 ∧ Reports g t call (t.playParts now).2 := by
  obtain ⟨hperform, ha, hh⟩ := perform_parts hs hn
  have hisPhase : call.isPhase := by cases call <;> first | rfl | cases hn
  exact ⟨hperform, .of_runs (hh call hisPhase).runs hs ht hg ha⟩

/-- What is found broken in calls each of which is one phase. -/
def broken : List HostCall → Tree σ → List Breach
  | [], _ => []
  | call :: rest, t =>
    ((t.now? call).map fun now => (t.playParts now).2).getD [] ++ broken rest (t.perform call)

/-- The first error of calls that are made one after the other. -/
def firstAnswer : List HostCall → Tree σ → Option TreeError
  | [], _ => none
  | call :: rest, t => (t.answer call).or (firstAnswer rest (t.perform call))

theorem performAll_parts (whole : HostCall) (hw : whole.isPhase) {calls : List HostCall}
    (hc : ∀ call ∈ calls, ∀ u : Tree σ, ∃ now, u.now? call = some now) (hs : t.Sound) :
    GuardedRuns whole t (broken calls t) (broken calls t) (t.performAll calls) ∧
      firstAnswer calls t = (broken calls t).head?.map (.stack ·.error) := by
  induction calls generalizing t with
  | nil => exact ⟨.refl t, rfl⟩
  | cons call rest ih =>
    obtain ⟨now, hn⟩ := hc call List.mem_cons_self t
    obtain ⟨-, ha, hh⟩ := perform_parts hs hn
    have hfirst := hh whole hw
    obtain ⟨hrest, har⟩ := ih (fun c hm => hc c (List.mem_cons_of_mem _ hm)) (hfirst.sound hs)
    rw [broken, firstAnswer, hn, Option.map_some, Option.getD_some, ha, har, List.head?_append,
      Option.map_or]
    exact ⟨hfirst.trans hrest, rfl⟩

/-- A tick reports what its three phases find broken, and answers with the first of it all. -/
theorem reports_tick (hs : t.Sound) (ht : t.ReplaysStacks) (hg : Rooted g root t) (dt : Float32) :
    Reports g t (.tick dt) (broken (HostCall.tick dt).phases t) := by
  have hphases : ∀ call ∈ (HostCall.tick dt).phases, ∀ u : Tree σ,
      ∃ now, u.now? call = some now := by
    simp [HostCall.phases, now?]
  obtain ⟨hh, ha⟩ := performAll_parts (.tick dt) rfl hphases hs
  rw [perform_phases] at hh
  have hfirst : t.answer (.tick dt) = firstAnswer (HostCall.tick dt).phases t := by
    simp only [HostCall.phases, firstAnswer, answer, tick, perform, Option.map_or, Option.or_none]
  exact .of_runs hh.runs hs ht hg (hfirst.trans ha)

/-- Whatever the host has called, every call reports each rule that it finds broken once, in the
order of time and nothing else, and answers with the first; what a phase finds broken is what its
parts find, each of which is played, and a tick is three phases. -/
theorem faults_reported {b : Blackboard} (hm : make g root b = .ok t) (calls : List HostCall) :
    (∀ call : HostCall, (∀ node ok, call ≠ .endNode node ok) →
      ∃ found, Reports g (t.performAll calls) call found) ∧
    (∀ call now, (t.performAll calls).now? call = some now →
      (t.performAll calls).perform call = ((t.performAll calls).playParts now).1 ∧
        Reports g (t.performAll calls) call ((t.performAll calls).playParts now).2) ∧
    ∀ dt, (t.performAll calls).perform (.tick dt)
        = (t.performAll calls).performAll (HostCall.tick dt).phases ∧
      Reports g (t.performAll calls) (.tick dt)
        (broken (HostCall.tick dt).phases (t.performAll calls)) := by
  obtain ⟨hs, hreplays, hrooted⟩ := performAll_induction
    (P := fun t => t.ReplaysStacks ∧ Rooted g root t)
    (sound_make hm) ⟨replaysStacks_make hm, rooted_make hm⟩
    (fun call t t' found ht hr h => ⟨hr.replaysStacks ht h.1, hr.rooted h.2⟩) calls
  exact ⟨fun _ hc => exists_reports hs hreplays hrooted hc,
    fun _ _ hn => reports_phase hs hreplays hrooted hn,
    fun dt => ⟨(perform_phases _ _).symm, reports_tick hs hreplays hrooted dt⟩⟩

section BothForget

/-- Waits for a tick, and then forgets to answer. -/
def forgetfulScripted : Scripted where
  name := "Root"
  execute := [{ answer := some .waitUntilNextUpdate }, { answer := some .noReturn }]

/-- Is ready at once, and forgets to answer. -/
def forgetfulService : Scripted where
  name := "Service"
  execute := [{ answer := some .noReturn }]
  ready := some [true]

/-- The root and its service both forget to answer. -/
def bothForget : Graph Scripted where
  slots := #[{ name := "Service", node := forgetfulService, owner := some ⟨1⟩ },
    { name := "Root", node := forgetfulScripted, services := [⟨0⟩] }]

/-- One update finds a rule broken on the main stack and one on the service's stack. It reports
both, and answers with the first. -/
theorem reported_bothForget :
    ∃ t, make bothForget ⟨1⟩ {} = .ok t ∧
      Reports bothForget (t.performAll [.start]) (.update 0)
        [⟨.main, .recursiveExecution .main ⟨1⟩ .calling⟩,
          ⟨.service ⟨0⟩, .recursiveExecution (.service ⟨0⟩) ⟨0⟩ .calling⟩] ∧
      (t.performAll [.start]).answer (.update 0)
        = some (.stack (.recursiveExecution .main ⟨1⟩ .calling)) := by
  have hm : make bothForget ⟨1⟩ {}
      = .ok { root := ⟨1⟩, world := { graph := bothForget, blackboard := {} } } := rfl
  refine ⟨_, hm, ?_⟩
  obtain ⟨-, hphase, -⟩ := faults_reported hm [.start]
  obtain ⟨-, hreports⟩ := hphase (.update 0) _ rfl
  generalize hu : performAll { root := ⟨1⟩, world := { graph := bothForget, blackboard := {} } }
    [.start] = u at hreports ⊢
  have hfound : (u.playParts { number := u.world.tick.number + 1, dt := 0, phase := .update }).2
      = [⟨.main, .recursiveExecution .main ⟨1⟩ .calling⟩,
          ⟨.service ⟨0⟩, .recursiveExecution (.service ⟨0⟩) ⟨0⟩ .calling⟩] := by
    rw [← hu]
    decide +kernel
  rw [hfound] at hreports
  exact ⟨hreports, (hreports.answered _).2 rfl⟩

end BothForget

end Tree

end BehaviorTree
