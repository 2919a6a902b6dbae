/-
Every call of a host is a run that spares the paused stacks.

The parts of a call are taken one by one: what is settled, each stack's part of a phase, the
host's own operations. Each part reports the breach that it found before the next one
begins, so a call reports all that it finds, in the order in which it finds it, and answers
with the first. A part that finds its stack paused does nothing to it.
-/
import BehaviorTree.Proofs.Tree.GuardedRuns

namespace BehaviorTree

variable {σ : Type} [Node σ]

/-! ## Services -/

namespace Service

variable (allowed : Stack.Operation → Prop)

/-- One operation that the state of the stack calls for. -/
theorem operate_guarded {v : Service} {w : World σ} {op : Stack.Operation} (hs : v.stack.Sound w)
    (h : v.stack.Admits v.service op) (hop : v.stack.paused → op.reaches) :
    GuardedRuns allowed (v, w) ((v.stack.perform w op).breaches v.label)
      ({ v with stack := (v.stack.perform w op).after }, (v.stack.perform w op).world) :=
  (Step.operate v w (.inl h)).guarded fun hp => .inl (hs.abides_perform hp (hop hp))

/-- An operation that is allowed whatever the state of the stack. -/
theorem allowed_guarded {allowed : Stack.Operation → Prop} (v : Service) (w : World σ)
    {op : Stack.Operation} (h : allowed op) :
    GuardedRuns allowed (v, w) ((v.stack.perform w op).breaches v.label)
      ({ v with stack := (v.stack.perform w op).after }, (v.stack.perform w op).world) :=
  (Step.operate v w (.inr h)).guarded fun _ => .inr ⟨op, h, rfl, rfl⟩

/-- A service that may start afresh: its stack has ended, or it is ready and empty. -/
theorem tryStart_guarded {v : Service} {w : World σ} (hs : v.stack.Sound w)
    (h : v.stack.state = .ended ∨ v.stack.state = .ready ∧ v.stack.nodes = [])
    (hp : v.stack.paused = false) :
    GuardedRuns allowed (v, w) ((v.tryStart w).breaches v.label)
      ((v.tryStart w).after, (v.tryStart w).world) := by
  unfold tryStart
  split
  · exact .refl _
  have ha : GuardedRuns allowed (v, w) [] (v, (w.ready v.service).1) :=
    (Step.ask v w).guarded_of_same rfl
  split
  · next hw =>
    rw [hw] at ha
    exact ha
  · next w₁ hw =>
    rw [hw] at ha
    let v₁ : Service := { v with lastStarted := some w₁.tick.number, runs := v.runs + 1 }
    have hc : GuardedRuns allowed (v, w₁) [] (v₁, w₁) := (Step.count v w₁ _ _).guarded_of_same rfl
    have ht : GuardedRuns allowed (v₁, w₁) []
        (v₁, w₁.trace "bt.service.start" v₁.label v₁.service v₁.runs) :=
      (Step.trace v₁ w₁ (by decide) _ _).guarded_of_same rfl
    have hasked := ha.quiet (hc.quiet ht)
    exact hasked.quiet (operate_guarded allowed (hasked.sound hs) (.restart h) (by simp [v₁, hp]))

/-- A run that is cut short is rolled back as a whole, and the next one may start at once. -/
theorem preempt_guarded {v : Service} {w : World σ} (hs : v.stack.Sound w)
    (h : v.stack.state ≠ .invalid) (hp : v.stack.paused = false) :
    GuardedRuns allowed (v, w) ((v.preempt w).breaches v.label)
      ((v.preempt w).after, (v.preempt w).world) := by
  unfold preempt
  simp only
  generalize hw₁ : w.trace "bt.service.preempt" v.label v.service v.stack.depth = w₁
  have ht : GuardedRuns allowed (v, w) [] (v, w₁) := by
    rw [← hw₁]
    exact (Step.trace v w (by decide) _ _).guarded_of_same rfl
  have hs₁ : v.stack.Sound w₁ := ht.sound hs
  have hb := operate_guarded allowed hs₁ (.breakTo h) (by simp [hp])
  obtain ⟨hf, hn, hr⟩ := Stack.breakTo_all hs₁.known
  have hl : (v.stack.breakTo w₁ none).after.label = v.label :=
    (v.stack.perform_made w₁ (.breakTo none)).label
  have hsb : (v.stack.breakTo w₁ none).after.Sound (v.stack.breakTo w₁ none).world :=
    hs₁.breakTo none
  have hfree := Stack.breakTo_unpaused hs₁.known
  simp only [Stack.perform] at hb
  generalize v.stack.breakTo w₁ none = p at hb hf hn hr hl hsb hfree
  obtain ⟨after, w₂, fault⟩ := p
  cases hf
  simp only [keep, Pass.map]
  have hstart := tryStart_guarded allowed (v := { v with stack := after }) hsb (.inr ⟨hr, hn⟩) hfree
  rw [show Service.label { v with stack := after } = v.label from hl] at hstart
  exact ht.quiet (hb.quiet hstart)

theorem isPreempted_guarded (v : Service) (w : World σ) :
    GuardedRuns allowed (v, w) [] (v, (v.isPreempted w).1) := by
  unfold isPreempted
  split
  · exact (Step.ask v w).guarded_of_same rfl
  · exact .refl _

theorem state_of_isPreempted {v : Service} {w w' : World σ} (h : v.isPreempted w = (w', true)) :
    v.stack.state ≠ .invalid := by
  intro hs
  simp [isPreempted, hs] at h

theorem advance_guarded {v : Service} {w : World σ} (hs : v.stack.Sound w) :
    GuardedRuns allowed (v, w) ((v.advance w).breaches v.label)
      ((v.advance w).after, (v.advance w).world) := by
  have hp := isPreempted_guarded allowed v w
  unfold advance
  split
  · exact .refl _
  next hpaused =>
  have hfree : v.stack.paused = false := by simpa using hpaused
  split
  · next w₁ hi =>
    rw [hi] at hp
    exact hp.quiet (preempt_guarded allowed (hp.sound hs) (state_of_isPreempted hi) hfree)
  next w₁ hi =>
  rw [hi] at hp
  have hs₁ : v.stack.Sound w₁ := hp.sound hs
  have hrun : v.stack.Admits v.service .run →
      GuardedRuns allowed (v, w₁) ((v.keep (v.stack.run w₁)).breaches v.label)
        ((v.keep (v.stack.run w₁)).after, (v.keep (v.stack.run w₁)).world) :=
    fun h => operate_guarded allowed hs₁ h (by simp [hfree])
  split
  · exact hp
  · exact hp
  · next hst =>
    exact hp.quiet (operate_guarded allowed hs₁ (.resumeNextUpdate hst) (by simp [hfree]))
  · next hst => exact hp.quiet (tryStart_guarded allowed hs₁ (.inl hst) hfree)
  · next hst =>
    split
    · next he =>
      have hnil : v.stack.nodes = [] := by simpa [Stack.isEmpty] using he
      exact hp.quiet (tryStart_guarded allowed hs₁ (.inr ⟨hst, hnil⟩) hfree)
    · next he => exact hp.quiet (hrun (.run (.inl ⟨hst, by simpa [Stack.isEmpty] using he⟩)))
  · next hst => exact hp.quiet (hrun (.run (.inr (.inl hst))))
  · next hst => exact hp.quiet (hrun (.run (.inr (.inr hst))))

end Service

namespace Tree

variable {call : HostCall} {t t' t'' : Tree σ} {found found' told told' : List Breach}

/-! ## Settling -/

theorem registerServices_guarded (owner : NodeId) (services : List NodeId)
    (h : ∀ s ∈ services, s ∈ t.world.graph.servicesOf owner) :
    GuardedRuns call t [] [] (services.foldl (registerService owner) t) := by
  induction services generalizing t with
  | nil => exact .refl t
  | cons s rest ih =>
    have hr : GuardedRuns call t [] [] (registerService owner t s) :=
      guarded_register (h s List.mem_cons_self)
    refine hr.quiet (ih fun s' hs' => ?_)
    rw [(registerService_grown owner t s).servicesOf]
    exact h s' (List.mem_cons_of_mem _ hs')

/-- Tearing a service down finds nothing broken: the nodes of its stack are in the graph. -/
theorem fault_unregisterService (ht : t.Sound) (owner s : NodeId) :
    (unregisterService owner ⟨t, none⟩ s).fault = none := by
  unfold unregisterService
  split
  · rfl
  · next v hv =>
    have hf := (Stack.terminate_eq (ht.services v (service?_eq_some hv).1).known).1
    simp [hf]

theorem unregisterServices_guarded (ht : t.Sound) (owner : NodeId) (services : List NodeId) :
    GuardedRuns call t [] [] (services.foldl (unregisterService owner) ⟨t, none⟩).tree ∧
      (services.foldl (unregisterService owner) ⟨t, none⟩).fault = none := by
  induction services generalizing t with
  | nil => exact ⟨.refl t, rfl⟩
  | cons s rest ih =>
    have hr : GuardedRuns call t [] [] (unregisterService owner ⟨t, none⟩ s).tree :=
      guarded_unregister ht owner s
    have hf := fault_unregisterService ht owner s
    rw [List.foldl_cons]
    generalize unregisterService owner ⟨t, none⟩ s = o at hr hf ⊢
    obtain ⟨t', fault⟩ := o
    cases hf
    obtain ⟨hrest, hf⟩ := ih (hr.sound ht)
    exact ⟨hr.quiet hrest, hf⟩

theorem handle_guarded (call : HostCall) (ht : t.Sound) (e : StackEvent) :
    GuardedRuns call t [] [] (t.handle e).tree ∧ (t.handle e).fault = none := by
  match e with
  | .pushed n => exact ⟨registerServices_guarded n _ fun s hs => hs, rfl⟩
  | .popped n => exact unregisterServices_guarded ht n _
  | .ended .main result => exact ⟨guarded_fields call t _ _ _ _, rfl⟩
  | .ended (.service _) _ => exact ⟨.refl t, rfl⟩

theorem settleFrom_guarded (call : HostCall) (first : Option StackError) (ht : t.Sound) :
    GuardedRuns call t [] [] (t.settleFrom first).tree ∧ (t.settleFrom first).fault = first := by
  induction first, t using settleFrom.induct with
  | case1 first t hp =>
    rw [settleFrom_of_none hp]
    exact ⟨.refl t, rfl⟩
  | case2 first t e rest hp o ih =>
    have htake : GuardedRuns call t [] [] { t with world := { t.world with events := rest } } :=
      (Step.take t hp).guarded_of_same rfl rfl (World.Goes.events _ _).lasts rfl
    obtain ⟨hh, hf⟩ := handle_guarded call (htake.sound ht) e
    have hfirst : first.or o.fault = first := by
      rw [show o.fault = none from hf, Option.or_none]
    rw [hfirst] at ih
    obtain ⟨hr, hf'⟩ := ih ((htake.quiet hh).sound ht)
    rw [settleFrom_of_some hp]
    show GuardedRuns call t [] [] (o.tree.settleFrom (first.or o.fault)).tree ∧
      (o.tree.settleFrom (first.or o.fault)).fault = first
    rw [hfirst]
    exact ⟨htake.quiet (hh.quiet hr), hf'⟩

/-- Settling goes on with what was found so far. -/
theorem settle_guarded (call : HostCall) {o : Outcome σ} (ho : o.tree.Sound) :
    GuardedRuns call o.tree [] [] o.settle.tree ∧ o.settle.fault = o.fault := by
  obtain ⟨hr, hf⟩ := settleFrom_guarded call none ho
  refine ⟨hr, ?_⟩
  show o.fault.or o.tree.settle.fault = o.fault
  rw [show o.tree.settle.fault = none from hf, Option.or_none]

/-! ## Outcomes -/

/-- The second outcome is reached from the first by a run that reports all that it finds,
and the first breach of all is the fault. -/
def Follows (call : HostCall) (o o' : Outcome σ) : Prop :=
  ∃ found, GuardedRuns call o.tree found found o'.tree ∧
    o'.fault = o.fault.or (found.head?.map (·.error))

theorem Follows.refl (o : Outcome σ) : Follows call o o := ⟨[], .refl _, by simp⟩

theorem Follows.trans {o o' o'' : Outcome σ} (h : Follows call o o') (h' : Follows call o' o'') :
    Follows call o o'' := by
  obtain ⟨found, hr, hf⟩ := h
  obtain ⟨found', hr', hf'⟩ := h'
  refine ⟨found ++ found', hr.trans hr', ?_⟩
  rw [hf', hf, Option.or_assoc, List.head?_append]
  cases found.head? <;> rfl

theorem Follows.sound {o o' : Outcome σ} (h : Follows call o o') (ho : o.tree.Sound) :
    o'.tree.Sound := by
  obtain ⟨found, hr, -⟩ := h
  exact hr.sound ho

theorem foldl_follows {α : Type} {f : Outcome σ → α → Outcome σ}
    (h : ∀ (o : Outcome σ) (a : α), o.tree.Sound → Follows call o (f o a)) (l : List α)
    {o : Outcome σ} (ho : o.tree.Sound) : Follows call o (l.foldl f o) := by
  induction l generalizing o with
  | nil => exact .refl o
  | cons a l ih =>
    have hf := h o a ho
    exact hf.trans (ih (hf.sound ho))

/-- Once the one breach that was found is reported, all is. -/
theorem note_follows {o : Outcome σ} {label : StackLabel} {fault : Option StackError}
    (h : GuardedRuns call o.tree (fault.toList.map (.mk label)) [] t) :
    Follows call o (t.note label fault o.fault) := by
  unfold note
  cases fault with
  | none => exact ⟨[], h, by simp⟩
  | some e =>
    refine ⟨[⟨label, e⟩], ?_, by simp⟩
    exact h.report (b := ⟨label, e⟩) (List.mem_singleton.2 rfl)

/-! ## The parts of a phase -/

/-- An operation on the main stack. -/
theorem guarded_operateMain (call : HostCall) (ht : t.Sound) {op : Stack.Operation}
    (h : t.main.Admits t.root op ∧ (t.main.paused → op.reaches) ∨
      call.Orders t.root .main op) :
    GuardedRuns call t ((t.main.perform t.world op).breaches .main) []
      (t.keepMain (t.main.perform t.world op)).tree := by
  have hstep : Step call t ((t.main.perform t.world op).breaches t.main.label) _ :=
    .main t (h.imp_left And.left)
  rw [ht.main_label] at hstep
  exact hstep.guarded (spares_main ht (h.imp_left And.right)) (t.main.perform_lasts t.world op)
    (t.main.perform_frame t.world op).tick

/-- An operation on the main stack, settled. -/
theorem guarded_main (call : HostCall) (ht : t.Sound) {op : Stack.Operation}
    (h : t.main.Admits t.root op ∧ (t.main.paused → op.reaches) ∨
      call.Orders t.root .main op) :
    GuardedRuns call t ((t.main.perform t.world op).breaches .main) []
        (t.keepMain (t.main.perform t.world op)).settle.tree ∧
      (t.keepMain (t.main.perform t.world op)).settle.fault = (t.main.perform t.world op).fault := by
  have hstep := guarded_operateMain call ht h
  obtain ⟨hr, hf⟩ := settle_guarded call (hstep.sound ht)
  exact ⟨hstep.then hr, hf⟩

/-- A move of a service, settled. -/
theorem guarded_moved (call : HostCall) {v : Service} (ht : t.Sound) (hv : v ∈ t.services)
    {p : Pass σ Service}
    (h : Service.GuardedRuns (call.Orders t.root v.label) (v, t.world) (p.breaches v.label)
      (p.after, p.world)) :
    GuardedRuns call t (p.breaches v.label) [] (t.keepService p).settle.tree ∧
      (t.keepService p).settle.fault = p.fault := by
  have hrun := guarded_service ht hv h
  obtain ⟨hr, hf⟩ := settle_guarded call (o := t.keepService p) (hrun.sound ht)
  exact ⟨hrun.then hr, hf⟩

theorem deliver_guarded (call : HostCall) (ht : t.Sound) {p : Progress} {ok : Bool}
    {label : StackLabel}
    {o : Outcome σ} (h : t.deliver p ok = some (label, o)) :
    GuardedRuns call t (o.fault.toList.map (.mk label)) [] o.tree := by
  unfold deliver at h
  split at h
  · cases h
  split at h
  · next hw =>
    cases h
    have hw : t.main.isWaiting := by
      simp only [Stack.isWaitingOn, Bool.and_eq_true] at hw
      exact hw.1
    obtain ⟨hr, hf⟩ := guarded_main call ht (.inl ⟨.receiveReturn hw ok, fun _ => rfl⟩)
    simp only [Stack.perform] at hr hf
    rw [hf]
    exact hr
  split at h
  · cases h
  · next v hv =>
    cases h
    have hw : v.stack.isWaiting := by
      have hw := List.find?_some hv
      simp only [Stack.isWaitingOn, Bool.and_eq_true] at hw
      exact hw.1
    obtain ⟨hr, hf⟩ := guarded_moved call ht (List.mem_of_find?_eq_some hv)
      (p := v.keep (v.stack.receiveReturn t.world ok))
      (Service.operate_guarded _ (ht.services v (List.mem_of_find?_eq_some hv))
        (.receiveReturn hw ok) fun _ => rfl)
    rw [hf]
    exact hr

theorem fire_follows (o : Outcome σ) (task : DeferredTask) (ho : o.tree.Sound) :
    Follows call o (fire o task) := by
  unfold fire
  simp only
  split
  · exact ⟨[], guarded_trace call o.tree (by decide) _ _ _, by simp⟩
  · next label delivered hd =>
    have htrace : GuardedRuns call delivered.tree [] [] { delivered.tree with
        world := delivered.tree.world.trace "bt.deferred.fire" label task.progress.node 1 } :=
      guarded_trace call delivered.tree (by decide) _ _ _
    exact note_follows ((deliver_guarded call ho hd).then htrace)

theorem advanceMain_guarded (call : HostCall) (ht : t.Sound) (hp : t.main.paused = false)
    (phase : Phase) :
    GuardedRuns call t ((t.advanceMain phase).fault.toList.map (.mk .main)) []
      (t.advanceMain phase).tree := by
  have hmain : ∀ {op : Stack.Operation}, t.main.Admits t.root op →
      GuardedRuns call t ((t.main.perform t.world op).breaches .main) []
        (t.keepMain (t.main.perform t.world op)).tree :=
    fun h => guarded_operateMain call ht (.inl ⟨h, by simp [hp]⟩)
  unfold advanceMain
  split
  · exact .refl t
  · exact .refl t
  · next hst =>
    split
    · exact hmain (.restart (.inl hst))
    · exact .refl t
  · next hst =>
    split
    · next he => exact hmain (.run (.inl ⟨hst, by simpa [Stack.isEmpty] using he⟩))
    next he =>
    split
    · exact hmain (.start hst (by simpa [Stack.isEmpty] using he))
    · exact .refl t
  · next hst => exact hmain (.run (.inr (.inl hst)))
  · next hst => exact hmain (.run (.inr (.inr hst)))
  · next hst => exact hmain (.resumeNextUpdate hst)

theorem driveMain_guarded (call : HostCall) (ht : t.Sound) (phase : Phase) :
    GuardedRuns call t ((t.driveMain phase).fault.toList.map (.mk .main)) []
      (t.driveMain phase).tree := by
  unfold driveMain
  split
  · exact .refl t
  next hp =>
  have ha := advanceMain_guarded call ht (by simp_all) phase
  obtain ⟨hs, hf⟩ := settle_guarded call (ha.sound ht)
  rw [← hf] at ha
  have hadv := ha.then hs
  split
  · next hset =>
    rw [hset] at hadv
    exact hadv
  · next t' hset =>
    rw [hset] at hadv
    obtain ⟨hr, hf'⟩ := guarded_main call (hadv.sound ht) (.inl ⟨.forwardHook phase, fun _ => rfl⟩)
    simp only [Stack.perform] at hr hf'
    rw [hf']
    exact hadv.quiet hr

/-- A move that a service makes by itself, wherever the service is registered. -/
theorem moveService_follows {move : Service → World σ → Pass σ Service}
    (h : ∀ (v : Service) (w : World σ), v.stack.Sound w →
      Service.GuardedRuns (fun _ => False) (v, w) ((move v w).breaches v.label)
        ((move v w).after, (move v w).world))
    (service : NodeId) {o : Outcome σ} (ho : o.tree.Sound) :
    Follows call o (moveService service move o) := by
  unfold moveService
  split
  · exact .refl o
  · next v hv =>
    have hm := (service?_eq_some hv).1
    obtain ⟨hr, hf⟩ := guarded_moved call ho hm
      ((h v o.tree.world (ho.services v hm)).mono fun _ hn => hn.elim)
    rw [Pass.breaches, ← hf] at hr
    exact note_follows hr

theorem driveService_follows (phase : Phase) (o : Outcome σ) (service : NodeId)
    (ho : o.tree.Sound) : Follows call o (driveService phase o service) := by
  have ha : Follows call o (moveService service Service.advance o) :=
    moveService_follows (fun v w hs => Service.advance_guarded _ hs) service ho
  have hb : Follows call (moveService service Service.advance o)
      (moveService service (fun v w => v.keep (v.stack.forwardHook w phase))
        (moveService service Service.advance o)) :=
    moveService_follows
      (fun v w hs => Service.operate_guarded _ hs (.forwardHook phase) fun _ => rfl) service
      (ha.sound ho)
  exact ha.trans hb

/-- The tasks that are due in a phase. -/
def due (t : Tree σ) (now : Tick) : List DeferredTask :=
  ({ t.world with tick := now } : World σ).takeDue.1

/-- The beginning of a phase: the clock is set, and the tasks that are due are taken out. -/
def atPhase (t : Tree σ) (now : Tick) : Tree σ :=
  { t with world := ({ t.world with tick := now } : World σ).takeDue.2 }

/-- What a phase does once the tasks that are due are fired: every stack moves. -/
def driveAll (o : Outcome σ) (phase : Phase) : Outcome σ :=
  let main := o.tree.driveMain phase
  let noted := main.tree.note .main main.fault o.fault
  (noted.tree.services.map (·.service)).foldl (driveService phase) noted

theorem runPhase_eq (t : Tree σ) (now : Tick) :
    t.runPhase now = driveAll ((t.due now).foldl fire ⟨t.atPhase now, none⟩) now.phase :=
  rfl

theorem atPhase_guarded (call : HostCall) (hc : call.isPhase) {now : Tick}
    (h : t.world.tick.number ≤ now.number) : GuardedRuns call t [] [] (t.atPhase now) :=
  ((GuardedRuns.refl t).step (Step.clock t h) (spares_of_same rfl rfl)
    ⟨.inl (World.Goes.tick _ _).lasts, .inr hc⟩).step (Step.due _) (spares_of_same rfl rfl)
    ⟨.inr ⟨hc, rfl⟩, .inr hc⟩

theorem sound_atPhase (ht : t.Sound) {now : Tick} (h : t.world.tick.number ≤ now.number) :
    (t.atPhase now).Sound :=
  (atPhase_guarded (.update 0) rfl h).sound ht

theorem fired_follows (call : HostCall) (ht : t.Sound) {now : Tick}
    (h : t.world.tick.number ≤ now.number) :
    Follows call ⟨t.atPhase now, none⟩ ((t.due now).foldl fire ⟨t.atPhase now, none⟩) :=
  foldl_follows fire_follows _ (sound_atPhase ht h)

theorem driveAll_follows (call : HostCall) {o : Outcome σ} (ho : o.tree.Sound) (phase : Phase) :
    Follows call o (driveAll o phase) := by
  have hnoted : Follows call o ((o.tree.driveMain phase).tree.note .main
      (o.tree.driveMain phase).fault o.fault) :=
    note_follows (driveMain_guarded call ho phase)
  exact hnoted.trans (foldl_follows (driveService_follows phase) _ (hnoted.sound ho))

theorem runPhase_follows (hc : call.isPhase) (ht : t.Sound) (now : Tick)
    (h : t.world.tick.number ≤ now.number) : Follows call ⟨t, none⟩ (t.runPhase now) := by
  have hstart : Follows call ⟨t, none⟩ ⟨t.atPhase now, none⟩ := ⟨[], atPhase_guarded call hc h, rfl⟩
  have hfired := hstart.trans (fired_follows call ht h)
  rw [runPhase_eq]
  exact hfired.trans (driveAll_follows call (hfired.sound ht) now.phase)

theorem sound_runPhase (ht : t.Sound) (now : Tick) (h : t.world.tick.number ≤ now.number) :
    (t.runPhase now).tree.Sound :=
  (runPhase_follows (show (HostCall.update 0).isPhase from rfl) ht now h).sound ht

/-! ## The calls -/

theorem conclude_follows (ht : t.Sound) {label : StackLabel} {o : Outcome σ}
    (h : GuardedRuns call t (o.fault.toList.map (.mk label)) [] o.tree) :
    Follows call ⟨t, none⟩ (conclude label o) := by
  obtain ⟨hs, hf⟩ := settle_guarded call (h.sound ht)
  refine note_follows (o := ⟨t, none⟩) ?_
  rw [hf]
  exact h.then hs

/-- The error of an answer, if it is one. -/
def refusal? {ε α : Type} : Except ε α → Option ε
  | .error e => some e
  | .ok _ => none

/-- The error that a call answers with, if any. -/
def answer (t : Tree σ) : HostCall → Option TreeError
  | .start => t.start.fault.map .stack
  | .update dt => (t.update dt).fault.map .stack
  | .fixedUpdate dt => (t.fixedUpdate dt).fault.map .stack
  | .lateUpdate dt => (t.lateUpdate dt).fault.map .stack
  | .tick dt => (t.tick dt).fault.map .stack
  | .receiveReturn ok => (t.receiveReturn ok).fault.map .stack
  | .endAction p ok => refusal? (t.endAction p ok).2
  | .endNode node ok => refusal? (t.endNode node ok).2
  | .breakMain stopAt => (t.breakMain stopAt).fault.map .stack
  | .breakService service stopAt => refusal? (t.breakService service stopAt).2
  | .pauseService service => refusal? (t.pauseService service)
  | .resumeService service => refusal? (t.resumeService service)
  | .terminate => t.terminate.fault.map .stack
  | .pause | .resume | .withConfig _ | .setVariables _ => none

/-- The call names a node or a service that the tree does not have. -/
inductive Unknown (t : Tree σ) : HostCall → TreeError → Prop
  | endNode {node : NodeId} (ok : Bool) (h : t.world.progress? node = none) :
      Unknown t (.endNode node ok) (.stack (.unknownNode node))
  | breakService {service : NodeId} (stopAt : Option NodeId) (h : t.service? service = none) :
      Unknown t (.breakService service stopAt) (.serviceNotActive service)
  | pauseService {service : NodeId} (h : t.service? service = none) :
      Unknown t (.pauseService service) (.serviceNotActive service)
  | resumeService {service : NodeId} (h : t.service? service = none) :
      Unknown t (.resumeService service) (.serviceNotActive service)

/-- Nothing comes of such a call. -/
theorem Unknown.perform {e : TreeError} (h : t.Unknown call e) :
    t.perform call = t ∧ t.answer call = some e := by
  cases h with
  | endNode ok h => simp [Tree.perform, answer, Tree.endNode, h, refusal?]
  | breakService stopAt h => simp [Tree.perform, answer, Tree.breakService, h, refusal?]
  | pauseService h =>
    simp [Tree.perform, answer, Tree.pauseService, onService, h, Except.toOption, refusal?]
  | resumeService h =>
    simp [Tree.perform, answer, Tree.resumeService, onService, h, Except.toOption, refusal?]

/-- The call leads to the tree by a run that spares paused stacks and reports all that it finds,
and the error is the first of that. -/
def Walk (call : HostCall) (t t' : Tree σ) (e : Option TreeError) : Prop :=
  ∃ found, GuardedRuns call t found found t' ∧ e = found.head?.map (.stack ·.error)

theorem Follows.walk {o : Outcome σ} (h : Follows call ⟨t, none⟩ o) :
    Walk call t o.tree (o.fault.map .stack) := by
  obtain ⟨found, hr, hf⟩ := h
  refine ⟨found, hr, ?_⟩
  rw [hf]
  cases found.head? <;> rfl

theorem endAction_walk (ht : t.Sound) (p : Progress) (ok : Bool) :
    Walk call t (t.endAction p ok).1 (refusal? (t.endAction p ok).2) := by
  unfold endAction
  split
  · exact ⟨[], .refl t, rfl⟩
  next label o hd =>
  have hw := (conclude_follows ht (deliver_guarded call ht hd)).walk
  split
  · next hc => rw [hc] at hw; exact hw
  · next hc => rw [hc] at hw; exact hw

theorem breakService_walk (ht : t.Sound) {service : NodeId} {v : Service}
    (hv : t.service? service = some v) (stopAt : Option NodeId) :
    Walk (.breakService service stopAt) t (t.breakService service stopAt).1
      (refusal? (t.breakService service stopAt).2) := by
  obtain ⟨hm, rfl⟩ := service?_eq_some hv
  have hl := ht.labels v hm
  have hord : (HostCall.breakService v.service stopAt).Orders t.root v.label (.breakTo stopAt) := by
    rw [hl]
    exact .breakService v.service stopAt
  have hr := guarded_service ht hm (Service.allowed_guarded v t.world hord)
  have hw := (conclude_follows ht (o := t.keepService (v.keep (v.stack.breakTo t.world stopAt)))
    hr).walk
  unfold breakService
  rw [hv]
  simp only
  split
  · next hc => rw [hc] at hw; exact hw
  · next hc => rw [hc] at hw; exact hw

/-- A change of a service's stack in place. -/
theorem onService_walk (ht : t.Sound) {service : NodeId} {v : Service}
    (hv : t.service? service = some v) {f : Stack → Stack} {op : Stack.Operation}
    (hf : ∀ w : World σ, v.stack.perform w op = ⟨f v.stack, w, none⟩)
    (h : call.Orders t.root (.service service) op) :
    Walk call t (((t.onService service f).toOption).getD t) (refusal? (t.onService service f)) := by
  obtain ⟨hm, rfl⟩ := service?_eq_some hv
  have hord : call.Orders t.root v.label op := by
    rw [ht.labels v hm]
    exact h
  have hdone := Service.allowed_guarded v t.world hord
  rw [hf] at hdone
  unfold onService
  rw [hv]
  exact ⟨[], guarded_service ht hm hdone, rfl⟩

theorem tick_walk (hc : call.isPhase) (ht : t.Sound) (dt : Float32) :
    Walk call t (t.tick dt).tree ((t.tick dt).fault.map .stack) := by
  unfold tick update fixedUpdate lateUpdate
  simp only
  have h₁ := runPhase_follows hc ht
    { number := t.world.tick.number + 1, dt, phase := .update } (Nat.le_succ _)
  generalize t.runPhase { number := t.world.tick.number + 1, dt, phase := .update } = o₁ at h₁ ⊢
  have hs₁ := h₁.sound ht
  have h₂ := runPhase_follows hc hs₁
    { number := o₁.tree.world.tick.number, dt, phase := .fixedUpdate } (Nat.le_refl _)
  generalize o₁.tree.runPhase { number := o₁.tree.world.tick.number, dt, phase := .fixedUpdate }
    = o₂ at h₂ ⊢
  have hs₂ := h₂.sound hs₁
  have h₃ := runPhase_follows hc hs₂
    { number := o₂.tree.world.tick.number, dt, phase := .lateUpdate } (Nat.le_refl _)
  generalize o₂.tree.runPhase { number := o₂.tree.world.tick.number, dt, phase := .lateUpdate }
    = o₃ at h₃ ⊢
  obtain ⟨f₁, hr₁, hf₁⟩ := h₁
  obtain ⟨f₂, hr₂, hf₂⟩ := h₂
  obtain ⟨f₃, hr₃, hf₃⟩ := h₃
  refine ⟨f₁ ++ (f₂ ++ f₃), hr₁.trans (hr₂.trans hr₃), ?_⟩
  simp only [Option.none_or] at hf₁ hf₂ hf₃
  rw [hf₁, hf₂, hf₃, List.head?_append, List.head?_append]
  cases f₁.head? <;> cases f₂.head? <;> cases f₃.head? <;> rfl

/-- Services that are left when the main stack has ended are torn down one by one. -/
theorem tearDown_guarded {o : Outcome σ} (ho : o.tree.Sound) (service : NodeId) :
    GuardedRuns .terminate o.tree [] [] (tearDown o service).tree ∧
      (tearDown o service).fault = o.fault := by
  unfold tearDown
  split
  · exact ⟨.refl _, rfl⟩
  next v hv =>
  obtain ⟨hm, rfl⟩ := service?_eq_some hv
  have hf := (Stack.terminate_eq (ho.services v hm).known).1
  have hstep : GuardedRuns .terminate o.tree [] [] _ := guarded_tearDown ho hv
  simp only
  rw [hf, Option.or_none]
  obtain ⟨hs, hf'⟩ := settle_guarded .terminate (o := ⟨_, o.fault⟩) (hstep.sound ho)
  exact ⟨hstep.quiet hs, hf'⟩

theorem terminate_walk (ht : t.Sound) :
    Walk .terminate t t.terminate.tree (t.terminate.fault.map .stack) := by
  have hf : GuardedRuns .terminate t [] [] { t with running := false } :=
    guarded_fields _ t _ _ _ _
  obtain ⟨hr, hfault⟩ := guarded_main .terminate (hf.sound ht) (.inr .terminate)
  have hnone := (Stack.terminate_eq ht.main.known).1
  simp only [Stack.perform] at hr hfault
  rw [hnone] at hfault
  rw [Pass.breaches, hnone] at hr
  unfold terminate
  simp only
  generalize (({ t with running := false } : Tree σ).keepMain (t.main.terminate t.world)).settle
    = ended at hr hfault ⊢
  have hended := hf.quiet hr
  have hdown : ∀ (l : List NodeId) (o : Outcome σ), o.tree.Sound → o.fault = none →
      GuardedRuns .terminate o.tree [] [] (l.foldl tearDown o).tree ∧
        (l.foldl tearDown o).fault = none := by
    intro l
    induction l with
    | nil => exact fun o _ hf => ⟨.refl _, hf⟩
    | cons s l ih =>
      intro o ho hf
      obtain ⟨hs, hf'⟩ := tearDown_guarded ho s
      obtain ⟨hl, hf''⟩ := ih (tearDown o s) (hs.sound ho) (hf'.trans hf)
      exact ⟨hs.quiet hl, hf''⟩
  obtain ⟨hd, hdf⟩ := hdown _ ended (hended.sound ht) hfault
  refine (conclude_follows ht ?_).walk
  rw [hdf]
  exact hended.quiet hd

/-- Every call is a run that reports all that it finds, in order, and answers with the first
of it; only a call that names what the tree does not have answers with an error of its own,
and then nothing happens. -/
theorem exists_walk (ht : t.Sound) (call : HostCall) :
    Walk call t (t.perform call) (t.answer call) ∨
      t.perform call = t ∧ ∃ e, t.answer call = some e ∧ t.Unknown call e := by
  have hunknown {call : HostCall} {e : TreeError} (h : t.Unknown call e) :
      t.perform call = t ∧ ∃ e, t.answer call = some e ∧ t.Unknown call e :=
    ⟨h.perform.1, e, h.perform.2, h⟩
  cases call with
  | start =>
    refine .inl (Follows.walk ?_)
    have hfields : GuardedRuns .start t [] [] { t with running := true, endedAt := none } :=
      guarded_fields _ t _ _ _ _
    exact conclude_follows ht
      (hfields.quiet (guarded_operateMain .start (hfields.sound ht) (.inr .start)))
  | update dt => exact .inl (runPhase_follows rfl ht _ (Nat.le_succ _)).walk
  | fixedUpdate dt =>
    exact .inl (runPhase_follows rfl ht { number := t.world.tick.number, dt, phase := .fixedUpdate }
      (Nat.le_refl _)).walk
  | lateUpdate dt =>
    exact .inl (runPhase_follows rfl ht { number := t.world.tick.number, dt, phase := .lateUpdate }
      (Nat.le_refl _)).walk
  | tick dt => exact .inl (tick_walk rfl ht dt)
  | receiveReturn ok =>
    exact .inl (conclude_follows ht (guarded_operateMain _ ht (.inr (.receiveReturn ok)))).walk
  | endAction p ok => exact .inl (endAction_walk ht p ok)
  | endNode node ok =>
    cases hp : t.world.progress? node with
    | none => exact .inr (hunknown (.endNode ok hp))
    | some p =>
      have he : t.endNode node ok = t.endAction p ok := by simp [endNode, hp]
      simp only [perform, answer, he]
      exact .inl (endAction_walk ht p ok)
  | breakMain stopAt =>
    exact .inl (conclude_follows ht (guarded_operateMain _ ht (.inr (.breakMain stopAt)))).walk
  | breakService service stopAt =>
    cases hv : t.service? service with
    | none => exact .inr (hunknown (.breakService stopAt hv))
    | some v => exact .inl (breakService_walk ht hv stopAt)
  | pause => exact .inl ⟨[], guarded_operateMain .pause ht (.inr .pause), rfl⟩
  | resume => exact .inl ⟨[], guarded_operateMain .resume ht (.inr .resume), rfl⟩
  | pauseService service =>
    cases hv : t.service? service with
    | none => exact .inr (hunknown (.pauseService hv))
    | some v => exact .inl (onService_walk ht hv (fun _ => rfl) (.pauseService service))
  | resumeService service =>
    cases hv : t.service? service with
    | none => exact .inr (hunknown (.resumeService hv))
    | some v => exact .inl (onService_walk ht hv (fun _ => rfl) (.resumeService service))
  | terminate => exact .inl (terminate_walk ht)
  | withConfig config => exact .inl ⟨[], guarded_config t config, rfl⟩
  | setVariables b =>
    have hlasts := (World.Goes.blackboard t.world b).lasts
    exact .inl ⟨[], (Step.setVariables t rfl).guarded_of_same rfl rfl hlasts rfl, rfl⟩

/-- The same, without the pauses. -/
theorem perform_walk (ht : t.Sound) (call : HostCall) :
    (∃ found, Runs call t found found (t.perform call) ∧
        t.answer call = found.head?.map (.stack ·.error)) ∨
      t.perform call = t ∧ ∃ e, t.answer call = some e ∧ t.Unknown call e :=
  (exists_walk ht call).imp_left fun ⟨found, hr, he⟩ => ⟨found, hr.runs, he⟩

/-- Every call is a run that spares the paused stacks. -/
theorem perform_guarded (ht : t.Sound) (call : HostCall) :
    ∃ found, GuardedRuns call t found found (t.perform call) := by
  rcases exists_walk ht call with ⟨found, hr, -⟩ | ⟨he, -⟩
  · exact ⟨found, hr⟩
  · exact ⟨[], by rw [he]; exact .refl t⟩

theorem perform_runs (ht : t.Sound) (call : HostCall) :
    ∃ found, Runs call t found found (t.perform call) := by
  obtain ⟨found, hr⟩ := perform_guarded ht call
  exact ⟨found, hr.runs⟩

/-- What runs keep is kept by any sequence of calls. -/
theorem performAll_induction {P : Tree σ → Prop} (ht : t.Sound) (h : P t)
    (hr : ∀ (call : HostCall) (t t' : Tree σ) (found : List Breach), t.Sound →
      Runs call t found found t' → P t → P t') (calls : List HostCall) :
    (t.performAll calls).Sound ∧ P (t.performAll calls) := by
  induction calls generalizing t with
  | nil => exact ⟨ht, h⟩
  | cons call rest ih =>
    obtain ⟨found, hrun⟩ := perform_runs ht call
    exact ih (hrun.sound ht) (hr call t _ found ht hrun h)

theorem performAll_append (t : Tree σ) (calls later : List HostCall) :
    t.performAll (calls ++ later) = (t.performAll calls).performAll later :=
  List.foldl_append ..

theorem performAll_sound (ht : t.Sound) (calls : List HostCall) : (t.performAll calls).Sound := by
  induction calls generalizing t with
  | nil => exact ht
  | cons call rest ih =>
    obtain ⟨found, hrun⟩ := perform_runs ht call
    exact ih (hrun.sound ht)

end Tree

end BehaviorTree
