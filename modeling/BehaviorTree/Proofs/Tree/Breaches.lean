/-
What comes of a broken rule.

A rule that a phase finds broken on a stack disables that stack, if the hooks of the nodes
keep to their rule: nothing more is dispatched from it until it is rolled back or torn down. So
where no node has its home on two stacks, none of its nodes is called for anything else. A hook
that calls a child, or answers as if it had, is reported like any other breach, but it leaves
its stack waiting as it was.
-/
import BehaviorTree.Proofs.Stack.Breaches
import BehaviorTree.Proofs.Tree.Homes

namespace BehaviorTree

/-- Whether the call rolls the stack back, or ends it. -/
def HostCall.rollsBack (label : StackLabel) : HostCall → Bool
  | .breakMain _ => label = .main
  | .breakService service _ => label = .service service
  | .terminate => true
  | _ => false

theorem HostCall.Orders.not_isPhase {root : NodeId} {call : HostCall} {label : StackLabel}
    {op : Stack.Operation} (h : call.Orders root label op) : call.isPhase = false := by
  cases h <;> rfl

theorem HostCall.Orders.rollsBack {root : NodeId} {call : HostCall} {label : StackLabel}
    {op : Stack.Operation} (h : call.Orders root label op) (hc : call.rollsBack label = false) :
    op.rollsBack = false := by
  cases h <;> first | rfl | simp [HostCall.rollsBack] at hc

theorem HostCall.rollsBack_of_isPhase {call : HostCall} (h : call.isPhase) (label : StackLabel) :
    call.rollsBack label = false := by
  cases call <;> first | rfl | cases h

variable {σ : Type} [Node σ]

/-! ## Tearing down -/

/-- Rolling back calls nodes to stop them, and for nothing else. -/
theorem Stack.unwind_stops (label : StackLabel) (stopAt : Option NodeId) (ns : List NodeId)
    (w : World σ) : ∃ new, (unwind label stopAt ns w).world.happenings = w.happenings ++ new ∧
      ∀ n c, .called n c ∈ new → c = .stop := by
  induction ns generalizing w with
  | nil => exact ⟨[], (List.append_nil _).symm, by simp⟩
  | cons top rest ih =>
    rw [unwind]
    split
    · exact ⟨[], (List.append_nil _).symm, by simp⟩
    split
    · exact ⟨[], (List.append_nil _).symm, by simp⟩
    · next w' hw =>
      obtain ⟨new, hh, hn⟩ := ih (w'.left label top rest.length)
      refine ⟨.called top .stop :: .left label top :: new, ?_, fun n c hm => ?_⟩
      · rw [hh, World.happenings_left, World.happenings_interrupt hw]
        simp
      · simp only [List.mem_cons, Happening.called.injEq, reduceCtorEq, false_or] at hm
        rcases hm with ⟨-, rfl⟩ | hm
        · rfl
        · exact hn n c hm

theorem Stack.terminate_stops {s : Stack} {w : World σ}
    (h : ∀ n ∈ s.nodes, w.graph.contains n) :
    ∃ new, (s.terminate w).world.happenings = w.happenings ++ new ∧
      ∀ n c, .called n c ∈ new → c = .stop := by
  obtain ⟨new, hh, hn⟩ := unwind_stops s.label none s.nodes w
  obtain ⟨w', hu⟩ := unwind_all s.label h
  rw [hu] at hh
  refine ⟨new, ?_, hn⟩
  simp only [terminate, breakTo, Option.filter_none, hu]
  split
  · exact (World.happenings_trace _ (by decide) ..).trans hh
  · exact (World.happenings_trace _ (by decide) ..).trans
      ((World.happenings_trace _ (by decide) ..).trans hh)

namespace Tree

variable {g : Graph σ} {root : NodeId} {call : HostCall} {t t' t'' : Tree σ}
  {found told : List Breach} {label : StackLabel} {ns : List NodeId}

/-! ## Nothing is dispatched from an invalid stack -/

/-- From the first tree to the second nothing is dispatched from the stack `label`, which
keeps its nodes and stays invalid, unless it is torn down on the way. -/
def Frozen (label : StackLabel) (ns : List NodeId) (t t' : Tree σ) : Prop :=
  ∃ new, Leads (fun before l => .tornDown label ∈ before ∨ l ≠ label) t t' new ∧
    (.tornDown label ∈ new ∨
      ∃ s, t'.stack? label = some s ∧ s.nodes = ns ∧ s.state = .invalid)

omit [Node σ] in
theorem Frozen.refl {s : Stack} (hs : t.stack? label = some s) (hst : s.state = .invalid) :
    Frozen label s.nodes t t :=
  ⟨[], leads_refl _ t, .inr ⟨s, hs, rfl, hst⟩⟩

omit [Node σ] in
/-- Once the stack is torn down anything may follow. -/
theorem Frozen.trans (h : Frozen label ns t t')
    (hfrozen : ∀ s, t'.stack? label = some s → s.nodes = ns → s.state = .invalid →
      Frozen label ns t' t'')
    (hany : ∃ new, Leads (fun _ _ => True) t' t'' new) : Frozen label ns t t'' := by
  obtain ⟨new, hl, hd | ⟨s, hs, hn, hst⟩⟩ := h
  · obtain ⟨new', hl'⟩ := hany
    exact ⟨new ++ new', hl.trans (hl'.mono fun _ _ _ => .inl (List.mem_append_left _ hd)),
      .inl (List.mem_append_left _ hd)⟩
  · obtain ⟨new', hl', hend⟩ := hfrozen s hs hn hst
    refine ⟨new ++ new', hl.trans (hl'.mono fun before l hb => ?_), ?_⟩
    · exact hb.imp (List.mem_append_right _) id
    · exact hend.imp (List.mem_append_right _) id

theorem StackChange.frozen {s : Stack} (h : StackChange call t found t') (hsound : t.Sound)
    (ht : t.ReplaysStacks)
    (hc : call.rollsBack label = false) (hs : t.stack? label = some s)
    (hst : s.state = .invalid) : Frozen label s.nodes t t' := by
  cases h with
  | @operated l s' op hs' hop _ hafter hw ho =>
    by_cases hl : l = label
    · subst hl
      cases hs.symm.trans hs'
      have hi : Stack.Inert s t.world (s.perform t.world op) := by
        rcases hop with hop | hop
        · exact Stack.inert_of_admits hop hst
        · exact Stack.inert_of_orders hop (hop.rollsBack hc) hst
      refine ⟨[], ⟨by rw [hw, hi.world, List.append_nil], .nil _ _⟩, .inr ⟨_, hafter, ?_, ?_⟩⟩
      · exact hi.nodes
      · exact hi.state
    · obtain ⟨new, hlead, -, -⟩ := leads_operated t' hsound ht hs' hw
      refine ⟨new, hlead.mono fun _ l' hl' => .inr ?_, .inr ⟨s, ?_, rfl, hst⟩⟩
      · rw [hl']
        exact hl
      · rw [ho label (Ne.symm hl), hs]
  | aside new _ hsame hh hn =>
    exact ⟨new, ⟨hh, led_of_quiet fun x hx => .inr (hn x hx)⟩,
      .inr ⟨s, by rw [hsame label, hs], rfl, hst⟩⟩
  | opened l s' new _ hnone _ _ _ ho hh hn =>
    have hl : label ≠ l := by
      rintro rfl
      rw [hs] at hnone
      cases hnone
    exact ⟨new, ⟨hh, led_of_quiet fun x hx => .inr (hn x hx)⟩,
      .inr ⟨s, by rw [ho label hl, hs], rfl, hst⟩⟩
  | @closed l s' new _ hs' _ ho hh hn hend =>
    obtain ⟨new', hh', hstop⟩ := Stack.terminate_stops (hsound.stack hs').1.known
    have hled : ∀ labels, Led labels t.world.happenings (new' ++ new) := fun labels =>
      .append
        (.of_quiet fun n c hm => by rw [hstop n c hm]; rfl)
        (led_of_quiet fun x hx => (hn x hx).imp (fun hx => ⟨l, hx⟩) id)
    refine ⟨new' ++ new, ⟨by rw [hh, hh', List.append_assoc], hled _⟩, ?_⟩
    by_cases hl : label = l
    · subst hl
      rcases hend with hend | rfl
      · exact .inl (List.mem_append_right _ hend)
      · cases hc
    · exact .inr ⟨s, by rw [ho label hl, hs], rfl, hst⟩
  | configured config _ hall hw =>
    exact ⟨[], ⟨by rw [hw, List.append_nil], .nil _ _⟩,
      .inr ⟨s.applyConfig config, by rw [hall label, hs]; rfl, rfl, hst⟩⟩

omit [Node σ] in
/-- Reporting a broken rule changes no stack. -/
theorem leads_report (labels : List Happening → StackLabel → Prop) (t : Tree σ) (b : Breach) :
    ∃ new, Leads labels t
      { t with world := t.world.report (.ofFault b.stack b.error) } new := by
  refine ⟨_, World.happenings_record _ _, .of_quiet fun n c hm => ?_⟩
  simp [Record.happening?, Diagnostic.ofFault] at hm

theorem Runs.leads (h : Runs call t found told t') (hs : t.Sound) (ht : t.ReplaysStacks) :
    ∃ new, Leads (fun _ _ => True) t t' new := by
  induction h with
  | refl => exact ⟨[], leads_refl _ _⟩
  | step h hstep ih =>
    obtain ⟨new, hl⟩ := ih
    obtain ⟨new', hl', -⟩ := (hstep.stackChange (h.sound hs)).leads (h.sound hs)
      (h.replaysStacks hs ht)
    exact ⟨_, hl.trans hl'⟩
  | report _ _ ih =>
    obtain ⟨new, hl⟩ := ih
    obtain ⟨new', hl'⟩ := leads_report (fun _ _ => True) _ _
    exact ⟨_, hl.trans hl'⟩

/-- One more step of a call that does not roll the stack back. -/
theorem Frozen.step (h : Frozen label ns t t') (hstep : Step call t' found t'') (hs : t'.Sound)
    (ht : t'.ReplaysStacks) (hc : call.rollsBack label = false) : Frozen label ns t t'' := by
  have hd := hstep.stackChange hs
  refine h.trans (fun s hs' hn hst => ?_) ?_
  · rw [← hn]
    exact hd.frozen hs ht hc hs' hst
  · obtain ⟨new, hl, -⟩ := hd.leads hs ht
    exact ⟨new, hl⟩

omit [Node σ] in
theorem Frozen.report (h : Frozen label ns t t') (b : Breach) :
    Frozen label ns t { t' with world := t'.world.report (.ofFault b.stack b.error) } := by
  refine h.trans (fun s hs hn hst => ?_) (leads_report _ _ _)
  obtain ⟨new, hl⟩ := leads_report (fun before l => .tornDown label ∈ before ∨ l ≠ label) t' b
  refine ⟨new, hl, .inr ⟨s, ?_, hn, hst⟩⟩
  rw [← hs]
  cases label <;> rfl

theorem Runs.frozen {s : Stack} (h : Runs call t found told t') (hsound : t.Sound)
    (ht : t.ReplaysStacks) (hc : call.rollsBack label = false) (hs : t.stack? label = some s)
    (hst : s.state = .invalid) : Frozen label s.nodes t t' := by
  induction h with
  | refl => exact .refl hs hst
  | step h hstep ih => exact ih.step hstep (h.sound hsound) (h.replaysStacks hsound ht) hc
  | report _ _ ih => exact ih.report _

theorem performAll_leads (hs : t.Sound) (ht : t.ReplaysStacks) (calls : List HostCall) :
    ∃ new, Leads (fun _ _ => True) t (t.performAll calls) new := by
  induction calls generalizing t with
  | nil => exact ⟨[], leads_refl _ _⟩
  | cons call rest ih =>
    obtain ⟨found, hrun⟩ := perform_runs hs call
    obtain ⟨new, hl⟩ := hrun.leads hs ht
    obtain ⟨new', hl'⟩ := ih (hrun.sound hs) (hrun.replaysStacks hs ht)
    exact ⟨_, hl.trans hl'⟩

/-- The same over any sequence of calls that do not roll the stack back. -/
theorem performAll_frozen {s : Stack} (hsound : t.Sound) (ht : t.ReplaysStacks)
    (hs : t.stack? label = some s) (hst : s.state = .invalid) (calls : List HostCall)
    (hc : ∀ call ∈ calls, call.rollsBack label = false) :
    Frozen label s.nodes t (t.performAll calls) := by
  induction calls generalizing t s with
  | nil => exact .refl hs hst
  | cons call rest ih =>
    obtain ⟨found, hrun⟩ := perform_runs hsound call
    have hfirst := hrun.frozen hsound ht (hc call List.mem_cons_self) hs hst
    refine hfirst.trans (fun s' hs' hn hst' => ?_)
      (performAll_leads (hrun.sound hsound) (hrun.replaysStacks hsound ht) rest)
    rw [← hn]
    exact ih (hrun.sound hsound) (hrun.replaysStacks hsound ht) hs' hst'
      fun c hm => hc c (List.mem_cons_of_mem _ hm)

/-! ## No node of an invalid stack is called -/

/-- From the first tree to the second no node of `ns` is executed, handed a result or forwarded a
hook before the stack `label` is torn down. -/
def Untouched (label : StackLabel) (ns : List NodeId) (t t' : Tree σ) : Prop :=
  ∃ new, t'.world.happenings = t.world.happenings ++ new ∧
    ∀ before n c after, new = before ++ .called n c :: after → n ∈ ns → c.isDispatch →
      .tornDown label ∈ before

/-- The stack `label` with the nodes `ns` dispatches nothing from the first tree to the second;
and where no node has its home on two stacks, no other stack does so to its nodes. -/
structure Disabled (g : Graph σ) (root : NodeId) (label : StackLabel) (ns : List NodeId)
    (t t' : Tree σ) : Prop where
  frozen : Frozen label ns t t'
  untouched : g.CallsChildren → g.Apart root → Untouched label ns t t'

/-- Whatever is dispatched goes to the top of another stack, which is no home of the nodes. -/
theorem Frozen.disabled {s : Stack} (h : Frozen label s.nodes t t') (hsound : t.Sound)
    (ht : t.ReplaysStacks) (hs : t.stack? label = some s)
    (hhomed : g.CallsChildren → Homed g root t') : Disabled g root label s.nodes t t' := by
  refine ⟨h, fun hc ha => ?_⟩
  obtain ⟨new, hl, -⟩ := h
  refine ⟨new, hl.happenings, fun before n c after he hn hcall => ?_⟩
  obtain ⟨l, hlabel, htop⟩ := hl.led before n c after he hcall
  refine hlabel.resolve_right fun hne => hne ?_
  rw [← ht.stackOf_eq hsound hs, (hsound.stack hs).2] at hn
  refine (hhomed hc).label_unique ha ?_ ?_ (List.mem_of_mem_head? htop) hn
  · rw [hl.happenings, he, ← List.append_assoc]
    exact List.prefix_append _ _
  · rw [hl.happenings]
    exact List.prefix_append _ _

/-! ## What a phase finds broken -/

/-- The diagnostic tells of the breach. -/
def TellsOf (d : Diagnostic) (b : Breach) : Prop :=
  { d with name := none } = Diagnostic.ofFault b.stack b.error

/-- In the course of the call there was a moment at which the stack was invalid, and from
then on it was disabled. -/
def Disables (g : Graph σ) (root : NodeId) (call : HostCall) (t t' : Tree σ) (label : StackLabel) :
    Prop :=
  ∃ u s, (∃ found told, Runs call t found told u) ∧ u.stack? label = some s ∧
    s.state = .invalid ∧ Disabled g root label s.nodes u t'

/-- What is reported in a run is what the run tells. -/
theorem Runs.reports (h : Runs call t found told t') (hs : t.Sound) (ht : t.ReplaysStacks) :
    ∃ new, t'.world.happenings = t.world.happenings ++ new ∧
      (∀ d, .violated d ∈ new → ∃ b ∈ told, TellsOf d b) ∧
      ∀ b ∈ told, ∃ d, .violated d ∈ new ∧ TellsOf d b := by
  induction h with
  | refl => exact ⟨[], (List.append_nil _).symm, by simp, by simp⟩
  | step h hstep ih =>
    obtain ⟨new, hh, hd, hb⟩ := ih
    obtain ⟨new', hl, hnone⟩ := (hstep.stackChange (h.sound hs)).leads (h.sound hs)
      (h.replaysStacks hs ht)
    refine ⟨new ++ new', by rw [hl.happenings, hh, List.append_assoc], fun d hm => ?_,
      fun b hm => ?_⟩
    · rcases List.mem_append.1 hm with hm | hm
      · exact hd d hm
      · exact absurd hm (hnone d)
    · obtain ⟨d, hm, ht⟩ := hb b hm
      exact ⟨d, List.mem_append_left _ hm, ht⟩
  | @report t' _ _ b h _ ih =>
    obtain ⟨new, hh, hd, hb⟩ := ih
    let d : Diagnostic := { Diagnostic.ofFault b.stack b.error with
      name := b.error.node?.bind t'.world.graph.name? }
    have hnew : (t'.world.report (.ofFault b.stack b.error)).happenings
        = t.world.happenings ++ (new ++ [.violated d]) := by
      rw [← List.append_assoc, ← hh]
      exact World.happenings_record _ _
    refine ⟨_, hnew, fun d' hm => ?_, fun b' hm => ?_⟩
    · rcases List.mem_append.1 hm with hm | hm
      · obtain ⟨b', hb', ht⟩ := hd d' hm
        exact ⟨b', List.mem_append_left _ hb', ht⟩
      · obtain rfl : d' = d := by simpa using hm
        exact ⟨b, by simp, rfl⟩
    · rcases List.mem_append.1 hm with hm | hm
      · obtain ⟨d', hm, ht⟩ := hb b' hm
        exact ⟨d', List.mem_append_left _ hm, ht⟩
      · obtain rfl := List.mem_singleton.1 hm
        exact ⟨d, by simp, rfl⟩

/-- A breach that a step of a phase finds has left its stack invalid. -/
theorem StackChange.invalid_of_found (h : StackChange call t found t') (hsound : t.Sound)
    (hr : Rooted g root t) (hb : g.Built) (hroot : g.contains root) (ho : g.HooksObey)
    (hc : call.isPhase) {b : Breach} (hm : b ∈ found) :
    ∃ s, t'.stack? b.stack = some s ∧ s.state = .invalid := by
  cases h with
  | @operated label s op hs hop hf hafter _ _ =>
    rw [hf] at hm
    obtain ⟨e, he, rfl⟩ := List.mem_map.1 hm
    have hfault : (s.perform t.world op).fault ≠ none := by
      rw [Option.mem_toList.1 he]
      exact Option.some_ne_none e
    rcases hop with hop | hop
    · exact ⟨_, hafter, Stack.perform_invalid (hsound.stack hs).1 (ho.grown hr.grown)
        (hr.contains_head hb hroot hs) hop hfault⟩
    · rw [hop.not_isPhase] at hc
      cases hc
  | aside _ hf | opened _ _ _ hf | closed _ _ hf | configured _ hf =>
    rw [hf] at hm
    cases hm

/-- All that is found broken in a phase freezes the stack that it is found on. -/
theorem Runs.freezes (h : Runs call t found told t') (hsound : t.Sound) (ht : t.ReplaysStacks)
    (hr : Rooted g root t) (hb : g.Built) (hroot : g.contains root) (ho : g.HooksObey)
    (hc : call.isPhase) : ∀ b ∈ found, ∃ u s, (∃ found told, Runs call t found told u) ∧
      u.stack? b.stack = some s ∧ s.state = .invalid ∧ Frozen b.stack s.nodes u t' := by
  induction h with
  | refl => simp
  | @step _ u found found' told h hstep ih =>
    intro b hm
    have hs₁ := h.sound hsound
    rcases List.mem_append.1 hm with hm | hm
    · obtain ⟨u, s, hu, hs, hst, hfrozen⟩ := ih b hm
      exact ⟨u, s, hu, hs, hst, hfrozen.step hstep hs₁ (h.replaysStacks hsound ht)
        (HostCall.rollsBack_of_isPhase hc b.stack)⟩
    · obtain ⟨s, hs, hst⟩ :=
        (hstep.stackChange hs₁).invalid_of_found hs₁ (h.rooted hr) hb hroot ho hc hm
      exact ⟨u, s, ⟨_, _, h.step hstep⟩, hs, hst, .refl hs hst⟩
  | report _ _ ih =>
    intro b hm
    obtain ⟨u, s, hu, hs, hst, hfrozen⟩ := ih b hm
    exact ⟨u, s, hu, hs, hst, hfrozen.report _⟩

/-- If the hooks of all nodes keep to their rule, a rule that a phase finds broken on a stack
makes the stack invalid, and is reported; and an invalid stack is disabled, whatever the host
calls, until the stack is rolled back, ended or torn down. -/
theorem disables_of_broken {b : Blackboard} (hb : g.Built) (hm : make g root b = .ok t)
    (ho : g.HooksObey) (calls : List HostCall) :
    (∀ call : HostCall, call.isPhase → ∃ found new,
      Runs call (t.performAll calls) found found ((t.performAll calls).perform call) ∧
      (t.performAll calls).answer call = found.head?.map (.stack ·.error) ∧
      ((t.performAll calls).perform call).world.happenings
        = (t.performAll calls).world.happenings ++ new ∧
      (∀ d, .violated d ∈ new → ∃ b ∈ found, TellsOf d b) ∧
      ∀ b ∈ found, (∃ d, .violated d ∈ new ∧ TellsOf d b) ∧
        Disables g root call (t.performAll calls) ((t.performAll calls).perform call) b.stack) ∧
    ∀ label s, (t.performAll calls).stack? label = some s → s.state = .invalid →
      ∀ later : List HostCall, (∀ call ∈ later, call.rollsBack label = false) →
        Disabled g root label s.nodes (t.performAll calls)
          ((t.performAll calls).performAll later) := by
  have hroot := (Graph.faults_of_validate (make_ok hm).1).1
  obtain ⟨hs, hreplays, hrooted⟩ := performAll_induction
    (P := fun t => t.ReplaysStacks ∧ Rooted g root t)
    (sound_make hm) ⟨replaysStacks_make hm, rooted_make hm⟩
    (fun call t t' found ht hr h => ⟨hr.replaysStacks ht h.1, hr.rooted h.2⟩) calls
  have hhomed : ∀ later, g.CallsChildren →
      Homed g root ((t.performAll calls).performAll later) := by
    intro later hcalls
    rw [← performAll_append]
    exact performAll_homed hm hcalls _
  refine ⟨fun call hc => ?_, fun label s hl hst later hl' =>
    (performAll_frozen hs hreplays hl hst later hl').disabled hs hreplays hl (hhomed later)⟩
  rcases perform_walk hs call with ⟨found, hrun, ha⟩ | ⟨-, e, -, hu⟩
  · obtain ⟨new, hh, hd, hb'⟩ := hrun.reports hs hreplays
    refine ⟨found, new, hrun, ha, hh, hd, fun b hm => ⟨hb' b hm, ?_⟩⟩
    obtain ⟨u, s, hu, hl, hst, hfrozen⟩ := hrun.freezes hs hreplays hrooted hb hroot ho hc b hm
    obtain ⟨found', told', hbefore⟩ := id hu
    exact ⟨u, s, hu, hl, hst,
      hfrozen.disabled (hbefore.sound hs) (hbefore.replaysStacks hs hreplays) hl
        (hhomed [call])⟩
  · cases hu <;> cases hc

section Forgetful

/-- Waits for a tick, and then forgets to answer. -/
def forgetfulPlays : Plays :=
  [{ answer := some .waitUntilNextUpdate }, { answer := some .noReturn }]

def forgetful : Graph (LeafNode Question Plays) where
  slots := #[{ name := "Root", node := .action forgetfulPlays }]

/-- Waits, and answers the hook of an update as if it had called a child. -/
def forgetfulScript : Scripted where
  name := "Root"
  execute := [{ answer := some .wait }]
  hooks := some fun phase => if phase = .update then [{ answer := some .noReturn }] else []

def forgetfulHook : Graph Scripted where
  slots := #[{ name := "Root", node := forgetfulScript }]

theorem built_forgetful : forgetful.Built :=
  .add .empty "Root" (LeafNode.action forgetfulPlays)

theorem built_forgetfulHook : forgetfulHook.Built := .add .empty "Root" forgetfulScript

theorem hooksObey_forgetful : forgetful.HooksObey :=
  fun _ slot _ => slot.node.hookObeys

theorem callsChildren_forgetful : forgetful.CallsChildren :=
  Graph.callsChildren_of_forall fun slot hs => by
    obtain rfl : slot = { name := "Root", node := .action forgetfulPlays } := by
      simpa [forgetful] using hs
    refine .of_invariant (I := fun n => n = .action forgetfulPlays ∨
      n = .action [{ answer := some .noReturn }]) (.inl rfl) (fun s s' hI hm => ?_)
      fun s hI ctx => ?_
    · rcases hI with rfl | rfl <;> cases hm <;> first | exact .inl rfl | exact .inr rfl
    · rcases hI with rfl | rfl <;> exact ⟨fun c hc => (by cases hc), fun _ c hc => (by cases hc)⟩

theorem apart_forgetful : forgetful.Apart ⟨0⟩ :=
  Graph.SinglyPlaced.apart (by decide) (built_forgetful.wired.parent_unique rfl)

/-- The update on which the root is executed again finds the rule broken and disables the
main stack, and no tick afterwards turns to the root. -/
theorem disables_forgetful :
    ∃ t, make forgetful ⟨0⟩ {} = .ok t ∧
      (t.performAll [.start]).answer (.update 0)
        = some (.stack (.recursiveExecution .main ⟨0⟩ .calling)) ∧
      Disables forgetful ⟨0⟩ (.update 0) (t.performAll [.start])
        (t.performAll [.start, .update 0]) .main ∧
      (t.performAll [.start, .update 0]).main.nodes = [⟨0⟩] ∧
      Untouched .main [⟨0⟩] (t.performAll [.start, .update 0])
        ((t.performAll [.start, .update 0]).performAll [.tick 0, .tick 0]) := by
  have hm : make forgetful ⟨0⟩ {}
      = .ok { root := ⟨0⟩, world := { graph := forgetful, blackboard := {} } } := rfl
  have hnodes : (performAll { root := ⟨0⟩, world := { graph := forgetful, blackboard := {} } }
      [.start, .update 0]).main.nodes = [⟨0⟩] := by
    decide +kernel
  refine ⟨_, hm, by decide +kernel, ?_, hnodes, ?_⟩
  · obtain ⟨found, new, -, ha, hh, -, hd⟩ :=
      (disables_of_broken built_forgetful hm hooksObey_forgetful [.start]).1 (.update 0) rfl
    obtain ⟨b, rest, rfl⟩ : ∃ b rest, found = b :: rest := by
      cases found with
      | nil => exact absurd ha (by decide +kernel)
      | cons b rest => exact ⟨b, rest, rfl⟩
    obtain ⟨⟨d, hm, htold⟩, hdis⟩ := hd b List.mem_cons_self
    -- All that is ever reported is reported of the main stack.
    have hmain : (performAll { root := ⟨0⟩, world := { graph := forgetful, blackboard := {} } }
        [.start, .update 0]).world.happenings.all
          (fun | .violated d => d.stack = .main | _ => true) := by
      decide +kernel
    have hstack := List.all_eq_true.1 hmain (.violated d)
      (hh ▸ List.mem_append_right _ hm)
    have hb : b.stack = .main := by
      rw [← show d.stack = b.stack from congrArg Diagnostic.stack htold]
      simpa using hstack
    rw [hb] at hdis
    exact hdis
  · have hdis := (disables_of_broken built_forgetful hm hooksObey_forgetful
      [.start, .update 0]).2 .main _ rfl (by decide +kernel) [.tick 0, .tick 0] (by decide)
    rw [hnodes] at hdis
    exact hdis.untouched callsChildren_forgetful apart_forgetful

/-- A hook that answers as if it had called a child is reported, but it leaves the stack
waiting, and is called again. -/
theorem waits_forgetfulHook :
    forgetfulHook.Built ∧ ∃ t, make forgetfulHook ⟨0⟩ {} = .ok t ∧
      (t.performAll [.start]).answer (.update 0)
        = some (.stack (.recursiveExecution .main ⟨0⟩ .waiting)) ∧
      (t.performAll [.start, .update 0]).main.state = .waiting ∧
      (t.performAll [.start, .update 0]).world.happenings.count (.called ⟨0⟩ (.hook .update)) = 1 ∧
      (t.performAll [.start, .update 0, .update 0]).world.happenings.count
        (.called ⟨0⟩ (.hook .update)) = 2 :=
  ⟨built_forgetfulHook, _, rfl, by decide +kernel, by decide +kernel, by decide +kernel,
    by decide +kernel⟩

end Forgetful

end Tree

end BehaviorTree
