/-
A call, round by round.

A call goes in rounds, and between two rounds all events are settled. In a round something is
done to one stack and what follows of it is settled, or something is done that concerns no stack.
A round says under which conditions it is done: when a tree drives its main stack or starts it
over, when a service starts a run or cuts one short. What every round keeps holds after any
calls.
-/
import BehaviorTree.Proofs.Tree.Motions
import BehaviorTree.Proofs.Tree.Reports

namespace BehaviorTree

variable {σ : Type} [Node σ]

/-! ## Services -/

namespace Service

/-- Count a fresh run and start it. -/
def begin (v : Service) (w : World σ) : Pass σ Service :=
  let v := { v with lastStarted := some w.tick.number, runs := v.runs + 1 }
  v.keep (v.stack.restart (w.trace "bt.service.start" v.label v.service v.runs) v.service)

/-- Roll the unfinished run back. -/
def cut (v : Service) (w : World σ) : Pass σ Service :=
  v.keep (v.stack.breakTo (w.trace "bt.service.preempt" v.label v.service v.stack.depth) none)

/-- What a service does by itself in a phase, in the states in which it does it. -/
inductive Turn : Service × World σ → Service × World σ → Prop
  /-- The node is asked, and not ready. -/
  | declined (v : Service) {w w' : World σ} (hp : v.stack.paused = false)
      (hr : w.ready v.service = (w', false)) : Turn (v, w) (v, w')
  /-- The node is asked, is ready, and its next run starts at once. -/
  | started (v : Service) {w w' : World σ} (hp : v.stack.paused = false)
      (hn : v.stack.nodes = []) (hs : v.stack.state = .ready ∨ v.stack.state = .ended)
      (ht : v.lastStarted ≠ some w.tick.number) (hr : w.ready v.service = (w', true)) :
      Turn (v, w) ((v.begin w').after, (v.begin w').world)
  /-- The node preempts, is asked, is ready, and its unfinished run is rolled back at once. -/
  | cut (v : Service) {w w' : World σ} (hp : v.stack.paused = false)
      (hn : v.stack.nodes ≠ []) (hs : v.stack.state ≠ .invalid)
      (ht : v.lastStarted ≠ some w.tick.number) (hc : w.preempts v.service)
      (hr : w.ready v.service = (w', true)) : Turn (v, w) ((v.cut w').after, (v.cut w').world)
  /-- The unfinished run goes on. -/
  | driven (v : Service) (w : World σ) {op : Stack.Operation} (hp : v.stack.paused = false)
      (hn : v.stack.nodes ≠ []) (h : op = .run ∨ op = .resumeNextUpdate)
      (ha : v.stack.Admits v.service op) :
      Turn (v, w)
        ({ v with stack := (v.stack.perform w op).after }, (v.stack.perform w op).world)

/-- Any number of turns. -/
def Turns : Service × World σ → Service × World σ → Prop := Relation.ReflTransGen Turn

variable {x y : Service × World σ} {v : Service} {w w' : World σ}

theorem ask_motions (v : Service) {r : Bool} (hr : w.ready v.service = (w', r)) :
    Motions (v, w) (v, w') := by
  have ha : Motions (v, w) (v, (w.ready v.service).1) := .single (.ask v w)
  rwa [hr] at ha

theorem begin_motions (v : Service) (w : World σ) :
    Motions (v, w) ((v.begin w).after, (v.begin w).world) :=
  (Relation.ReflTransGen.single (.start v w)).trans (operate_motions _ _ (.restart v.service) rfl)

theorem cut_motions (v : Service) (w : World σ) :
    Motions (v, w) ((v.cut w).after, (v.cut w).world) :=
  (Relation.ReflTransGen.single (.preempt v w)).trans (operate_motions _ _ (.breakTo none) rfl)

theorem Turn.motions (h : Turn x y) : Motions x y := by
  cases h with
  | declined v hp hr => exact ask_motions v hr
  | started v hp hn hs ht hr => exact (ask_motions v hr).trans (begin_motions v _)
  | cut v hp hn hs ht hc hr => exact (ask_motions v hr).trans (cut_motions v _)
  | driven v w hp hn h ha =>
    rcases h with rfl | rfl
    · exact operate_motions v w .run rfl
    · exact operate_motions v w .resumeNextUpdate rfl

theorem Turns.motions (h : Turns x y) : Motions x y := by
  induction h with
  | refl => exact .refl
  | tail _ h ih => exact ih.trans h.motions

theorem Motions.sound (h : Motions x y) (hs : x.1.stack.Sound x.2) : y.1.stack.Sound y.2 := by
  induction h with
  | refl => exact hs
  | tail _ h ih => exact h.sound ih

theorem Motions.label (h : Motions x y) : y.1.label = x.1.label := by
  induction h with
  | refl => rfl
  | tail _ h ih => exact h.label.trans ih

theorem Motions.frame (h : Motions x y) : x.2.Frame y.2 := by
  induction h with
  | refl => exact .refl _
  | tail _ h ih => exact ih.trans h.frame

theorem ask_made (v : Service) {r : Bool} (hr : w.ready v.service = (w', r)) :
    v.Made w ⟨v, w', none⟩ := by
  have ha : v.Made w ⟨v, (w.ready v.service).1, none⟩ := ⟨rfl, rfl, .single rfl (.ask rfl)⟩
  rwa [hr] at ha

theorem begin_made (v : Service) (w : World σ) : v.Made w (v.begin w) := by
  have ht : Stack.Made (· = v.service) v.stack w ⟨v.stack,
      w.trace "bt.service.start" v.label v.service ((v.runs + 1 : Nat) : Int), none⟩ :=
    .single rfl (.trace (by decide) ..)
  exact ⟨rfl, rfl, ht.trans (Stack.restart_made ..)⟩

theorem cut_made (v : Service) (w : World σ) : v.Made w (v.cut w) := by
  have ht : Stack.Made (· = v.service) v.stack w ⟨v.stack,
      w.trace "bt.service.preempt" v.label v.service v.stack.depth, none⟩ :=
    .single rfl (.trace (by decide) ..)
  exact .keep (ht.trans (Stack.breakTo_made ..))

theorem Turn.made (h : Turn (v, w) y) : v.Made w ⟨y.1, y.2, none⟩ := by
  have hdone : ∀ {p : Pass σ Service}, v.Made w p → v.Made w ⟨p.after, p.world, none⟩ :=
    fun h => ⟨h.service, h.owner, h.stack.label, h.stack.acts⟩
  cases h with
  | declined _ hp hr => exact ask_made v hr
  | started _ hp hn hs ht hr => exact hdone ((ask_made v hr).trans (begin_made v _))
  | cut _ hp hn hs ht hc hr => exact hdone ((ask_made v hr).trans (cut_made v _))
  | driven _ _ hp hn h ha =>
    rcases h with rfl | rfl
    · exact hdone (.keep (Stack.run_made ..))
    · exact hdone (.keep (Stack.resumeNextUpdate_made ..))

theorem Turns.made (h : Turns (v, w) y) : v.Made w ⟨y.1, y.2, none⟩ := by
  induction h with
  | refl => exact .refl v w
  | tail _ h ih => exact ih.trans h.made

/-! ## A phase of a service -/

/-- A service whose stack is empty may start, if it did not in this tick. -/
theorem tryStart_turns (hp : v.stack.paused = false) (hn : v.stack.nodes = [])
    (hs : v.stack.state = .ready ∨ v.stack.state = .ended) :
    Turns (v, w) ((v.tryStart w).after, (v.tryStart w).world) := by
  unfold tryStart
  split
  · exact .refl
  next ht =>
  split
  · next hr => exact .single (.declined v hp hr)
  · next hr => exact .single (.started v hp hn hs ht hr)

theorem preempt_turns (hs : v.stack.Sound w) (hp : v.stack.paused = false)
    (hi : v.isPreempted w = (w', true)) :
    Turns (v, w) ((v.preempt w').after, (v.preempt w').world) := by
  unfold isPreempted at hi
  split at hi
  · next hc =>
    simp only [Bool.and_eq_true, Bool.not_eq_true', decide_eq_true_eq] at hc
    obtain ⟨⟨⟨⟨hn, hst⟩, -⟩, ht⟩, hpre⟩ := hc
    have hne : v.stack.nodes ≠ [] := by simpa [Stack.isEmpty] using hn
    have hcut : Turn (v, w) ((v.cut w').after, (v.cut w').world) := .cut v hp hne hst ht hpre hi
    have hsound : v.stack.Sound
        (w'.trace "bt.service.preempt" v.label v.service v.stack.depth) :=
      Motions.sound ((ask_motions v hi).tail (.preempt v w')) hs
    unfold preempt
    simp only
    unfold cut at hcut
    generalize w'.trace "bt.service.preempt" v.label v.service v.stack.depth = w₁ at hcut hsound ⊢
    obtain ⟨hf, hnil, hready⟩ := Stack.breakTo_all hsound.known
    have hfree := Stack.breakTo_unpaused hsound.known
    generalize v.stack.breakTo w₁ none = p at hf hnil hready hfree hcut ⊢
    obtain ⟨after, w₂, fault⟩ := p
    cases hf
    exact (Relation.ReflTransGen.single hcut).trans (tryStart_turns hfree hnil (.inl hready))
  · cases hi

/-- All that a service does by itself in a phase are turns. -/
theorem advance_turns (hs : v.stack.Sound w) :
    Turns (v, w) ((v.advance w).after, (v.advance w).world) := by
  unfold advance
  split
  · exact .refl
  next hpaused =>
  have hp : v.stack.paused = false := by simpa using hpaused
  split
  · next hi => exact preempt_turns hs hp hi
  next w' hi =>
  have hasked : Turns (v, w) (v, w') := by
    unfold isPreempted at hi
    split at hi
    · exact .single (.declined v hp hi)
    · cases hi
      exact .refl
  have hs' : v.stack.Sound w' := hasked.motions.sound hs
  have hdriven : ∀ {op : Stack.Operation}, v.stack.nodes ≠ [] →
      (op = .run ∨ op = .resumeNextUpdate) → v.stack.Admits v.service op →
      Turns (v, w) ((v.keep (v.stack.perform w' op)).after, (v.stack.perform w' op).world) :=
    fun hn h ha => hasked.tail (.driven v w' hp hn h ha)
  have hbusy : v.stack.state ≠ .ready → v.stack.state ≠ .ended → v.stack.nodes ≠ [] :=
    fun hr he hn => (hs.of_empty hn).elim hr he
  split
  · exact hasked
  · exact hasked
  · next hst =>
    exact hdriven (hbusy (by simp [hst]) (by simp [hst])) (.inr rfl) (.resumeNextUpdate hst)
  · next hst => exact hasked.trans (tryStart_turns hp (hs.of_ended hst) (.inr hst))
  · next hst =>
    split
    · next he =>
      exact hasked.trans (tryStart_turns hp (by simpa [Stack.isEmpty] using he) (.inl hst))
    · next he =>
      have hn : v.stack.nodes ≠ [] := by simpa [Stack.isEmpty] using he
      exact hdriven hn (.inl rfl) (.run (.inl ⟨hst, hn⟩))
  · next hst =>
    exact hdriven (hbusy (by simp [hst]) (by simp [hst])) (.inl rfl) (.run (.inr (.inl hst)))
  · next hst =>
    exact hdriven (hbusy (by simp [hst]) (by simp [hst])) (.inl rfl) (.run (.inr (.inr hst)))

end Service

/-! ## Rounds -/

/-- What is done to the stack `s` but for what its driver does: the hook of the phase, an end that
is delivered, an order of the host. -/
inductive HostCall.Hands (call : HostCall) (root : NodeId) (label : StackLabel) (phase : Phase)
    (s : Stack) : Stack.Operation → Prop
  | hook (hc : call.isPhase) : Hands call root label phase s (.forwardHook phase)
  | deliver (hs : s.isWaiting) (ok : Bool) : Hands call root label phase s (.receiveReturn ok)
  | order {op : Stack.Operation} (h : call.Orders root label op) (hs : call ≠ .start)
      (ht : call ≠ .terminate) : Hands call root label phase s op

namespace Tree

/-- Once all that is done is settled: the tree is in order, and no event is left. -/
structure Settled (t : Tree σ) : Prop where
  sound : t.Sound
  orderly : t.layout.Orderly
  settled : t.world.events.toList = []

/-- What the tree does to its main stack in a phase, if the stack is not paused. -/
inductive Drives (t : Tree σ) : Stack.Operation → Prop
  | restart (hs : t.main.state = .ended) (h : t.restartsAt t.world.tick.phase) :
      Drives t (.restart t.root)
  | start (hs : t.main.state = .ready) (hn : t.main.nodes = [])
      (hp : t.world.tick.phase = .update) : Drives t (.start t.root)
  | run (h : t.main.Admits t.root .run) : Drives t .run
  | resume (h : t.main.state = .waitUntilNextUpdate) : Drives t .resumeNextUpdate

/-- One round of a call, from a settled tree to a settled tree. -/
inductive Round (call : HostCall) : Tree σ → Tree σ → Prop
  | drive (t : Tree σ) {op : Stack.Operation} (hc : call.isPhase) (hr : t.running)
      (hp : t.main.paused = false) (h : t.Drives op) :
      Round call t (t.keepMain (t.main.perform t.world op)).settle.tree
  | hand (t : Tree σ) {op : Stack.Operation}
      (h : call.Hands t.root .main t.world.tick.phase t.main op) :
      Round call t (t.keepMain (t.main.perform t.world op)).settle.tree
  | serve (t : Tree σ) {v v' : Service} {w : World σ} (hc : call.isPhase) (hv : v ∈ t.services)
      (h : Service.Turns (v, t.world) (v', w)) :
      Round call t (t.keepService ⟨v', w, none⟩).settle.tree
  | handService (t : Tree σ) {v : Service} {op : Stack.Operation} (hv : v ∈ t.services)
      (h : call.Hands t.root (.service v.service) t.world.tick.phase v.stack op) :
      Round call t (t.keepService (v.keep (v.stack.perform t.world op))).settle.tree
  | start (t : Tree σ) (hc : call = .start) :
      Round call t (({ t with running := true, endedAt := none } : Tree σ).keepMain
        (t.main.restart t.world t.root)).settle.tree
  | terminate (t : Tree σ) (hc : call = .terminate) : Round call t t.ended.settle.tree
  | fire (t : Tree σ) (label : StackLabel) (node : NodeId) (value : Int) :
      Round call t { t with world := t.world.trace "bt.deferred.fire" label node value }
  | report (t : Tree σ) (label : StackLabel) (e : StackError) :
      Round call t { t with world := t.world.report (.ofFault label e) }
  | phase (t : Tree σ) {now : Tick} (hc : call.isPhase)
      (h : now.number = t.world.tick.number + if now.phase = .update then 1 else 0) :
      Round call t (t.atPhase now)
  | setVariables (t : Tree σ) {b : Blackboard} (hc : call = .setVariables b) :
      Round call t { t with world := { t.world with blackboard := b } }
  | config (t : Tree σ) {config : Config} (hc : call = .withConfig config) :
      Round call t (t.withConfig config)

/-- Any number of rounds. -/
def Rounds (call : HostCall) : Tree σ → Tree σ → Prop := Relation.ReflTransGen (Round call)

variable {call : HostCall} {t t' t'' : Tree σ} {o : Outcome σ} {phase : Phase} {now : Tick}

/-! ## What lies between two rounds -/

omit [Node σ] in
theorem Drives.heads {op : Stack.Operation} (h : t.Drives op) : ∀ id, op.Heads id → id = t.root := by
  cases h with
  | restart | start => exact fun _ h => h
  | run | resume => exact fun _ h => h.elim

theorem hands_heads {root : NodeId} {label : StackLabel} {s : Stack} {op : Stack.Operation}
    (h : call.Hands root label phase s op) : ∀ id, ¬op.Heads id := by
  cases h with
  | hook | deliver => exact fun _ h => h
  | order h hs ht =>
    cases h with
    | start => exact absurd rfl hs
    | terminate => exact absurd rfl ht
    | _ => exact fun _ h => h

/-- An operation on the main stack, settled. -/
theorem Settled.keepMain (ht : t.Settled) (op : Stack.Operation)
    (h : ∀ id, op.Heads id → id = t.root) :
    (t.keepMain (t.main.perform t.world op)).settle.tree.Settled := by
  have hm : t.layout.Moves (t.keepMain (t.main.perform t.world op)).tree.layout :=
    keepMain_moves ((t.main.perform_made t.world op).mono h)
  have ho := ht.orderly.moves hm
  obtain ⟨hms, hq, -⟩ := settle_moves ho
  exact ⟨(settle_guarded .start (ht.sound.keepMain op)).1.sound (ht.sound.keepMain op),
    ho.moves hms, hq⟩

/-- A move of a service, settled. -/
theorem Settled.keepService (ht : t.Settled) {v : Service} {p : Pass σ Service}
    (hv : v ∈ t.services) (hm : v.Made t.world p) (hs : p.after.stack.Sound p.world) :
    (t.keepService p).settle.tree.Settled := by
  have hmoves := keepService_moves ht.orderly hv hm
  have ho := ht.orderly.moves hmoves
  obtain ⟨hms, hq, -⟩ := settle_moves ho
  have hsound : (t.keepService p).tree.Sound :=
    ht.sound.putService hv hm.service (hm.stack.label) hm.stack.acts.frame hs
  exact ⟨(settle_guarded .start hsound).1.sound hsound, ho.moves hms, hq⟩

theorem Settled.world (ht : t.Settled) {w : World σ} (hk : t.world.Keeps w) :
    Settled { t with world := w } :=
  ⟨ht.sound.world hk.graph (Nat.le_of_eq (congrArg Tick.number hk.tick.symm)),
    ht.orderly.moves (.single (.world hk.graph hk.events hk.registrations)),
    (congrArg Queue.toList hk.events).trans ht.settled⟩

omit [Node σ] in
theorem Settled.fields (ht : t.Settled) (running : Bool) (endedAt : Option Nat) :
    Settled { t with running, endedAt } :=
  ⟨⟨ht.sound.main, ht.sound.main_label, ht.sound.services, ht.sound.labels, ht.sound.nodup⟩,
    ht.orderly, ht.settled⟩

theorem Settled.settle (ht : t.Settled) : t.settle = ⟨t, none⟩ := settle_of_settled ht.settled

theorem Settled.atPhase (ht : t.Settled) (h : t.world.tick.number ≤ now.number) :
    (t.atPhase now).Settled :=
  ⟨sound_atPhase ht.sound h,
    ht.orderly.moves (.single (.world (.refl _) rfl fun _ => rfl)), ht.settled⟩

theorem Round.settled (h : Round call t t') (ht : t.Settled) : t'.Settled := by
  cases h with
  | drive hc hr hp h => exact ht.keepMain _ h.heads
  | hand h => exact ht.keepMain _ fun id hid => absurd hid (hands_heads h id)
  | serve hc hv h => exact ht.keepService hv h.made (h.motions.sound (ht.sound.services _ hv))
  | @handService v op hv h =>
    refine ht.keepService hv (.keep ((v.stack.perform_made t.world op).mono fun id hid => ?_))
      ((ht.sound.services v hv).perform op)
    exact absurd hid (hands_heads h id)
  | start hc => exact (ht.fields true none).keepMain (.restart t.root) fun _ h => h
  | terminate hc => exact (ht.fields false t.endedAt).keepMain .terminate fun _ h => h.elim
  | fire => exact ht.world (.trace ..)
  | report => exact ht.world (.report ..)
  | phase hc h => exact ht.atPhase (by omega)
  | setVariables hc =>
    exact ⟨ht.sound.world (.refl _) (Nat.le_refl _),
      ht.orderly.moves (.single (.world (.refl _) rfl fun _ => rfl)), ht.settled⟩
  | @config c hc =>
    have hstep : Step (.withConfig c) t [] (t.withConfig c) := .config t rfl
    obtain ⟨hm, hq⟩ := (withConfig_evolves t c).step ht.orderly ht.settled
    exact ⟨hstep.sound ht.sound, ht.orderly.moves hm, hq⟩

theorem Rounds.settled (h : Rounds call t t') (ht : t.Settled) : t'.Settled := by
  induction h with
  | refl => exact ht
  | tail _ h ih => exact h.settled ih

/-! ## Rounds are motions -/

omit [Node σ] in
theorem Drives.isStatus {op : Stack.Operation} (h : t.Drives op) : op.isStatus = false := by
  cases h <;> rfl

theorem hands_isStatus {root : NodeId} {label : StackLabel} {s : Stack} {op : Stack.Operation}
    (h : call.Hands root label phase s op) : op.isStatus = false := by
  cases h with
  | hook | deliver => rfl
  | order h => cases h <;> rfl

theorem Round.motions (h : Round call t t') (ht : t.Settled) : t.Motions t' := by
  have hkeep : ∀ {u : Tree σ} (op : Stack.Operation), u.Sound → op.isStatus = false →
      u.Motions (u.keepMain (u.main.perform u.world op)).settle.tree :=
    fun _ hu ho => (settle_reaches (keepMain_reaches _ _ ho)).motions hu
  have hfields : ∀ running endedAt, Sound { t with running, endedAt } := fun running endedAt =>
    (ht.fields running endedAt).sound
  cases h with
  | drive hc hr hp h => exact hkeep _ ht.sound h.isStatus
  | hand h => exact hkeep _ ht.sound (hands_isStatus h)
  | serve hc hv h => exact (settle_reaches (keepService_reaches hv h.motions)).motions ht.sound
  | @handService v op hv h =>
    exact (settle_reaches (keepService_reaches hv
      (v.operate_motions t.world op (hands_isStatus h)))).motions ht.sound
  | start hc =>
    exact .head (.fields t ..) (hkeep (.restart t.root) (hfields true none) rfl)
  | terminate hc =>
    exact .head (.fields t ..) (hkeep .terminate (hfields false t.endedAt) rfl)
  | fire label node value => exact .single (.fire ..)
  | report label e => exact .single (.report ..)
  | phase hc h => exact (atPhase_reaches (by omega)).motions ht.sound
  | @setVariables b hc => exact .single (.setVariables t b)
  | @config c hc => exact .single (.config t c)

theorem Rounds.motions (h : Rounds call t t') (ht : t.Settled) : t.Motions t' := by
  induction h with
  | refl => exact .refl
  | tail hs h ih => exact ih.trans (h.motions (Rounds.settled hs ht))

/-! ## The parts of a phase -/

theorem note_rounds (t : Tree σ) (label : StackLabel) (fault first : Option StackError) :
    Rounds call t (t.note label fault first).tree := by
  unfold note
  split
  · exact .refl
  · exact .single (.report ..)

/-- An operation on the main stack, concluded. -/
theorem conclude_rounds {p : Pass σ Stack} (label : StackLabel)
    (h : Round call t (t'.keepMain p).settle.tree) :
    Rounds call t (conclude label (t'.keepMain p)).tree :=
  (Relation.ReflTransGen.single h).trans (note_rounds ..)

theorem deliver_round {p : Progress} {ok : Bool} {label : StackLabel}
    (h : t.deliver p ok = some (label, o)) : Round call t o.tree := by
  unfold deliver at h
  split at h
  · cases h
  split at h
  · next hw =>
    cases h
    simp only [Stack.isWaitingOn, Bool.and_eq_true] at hw
    exact .hand t (.deliver hw.1 ok)
  split at h
  · cases h
  · next v hv =>
    cases h
    have hw := List.find?_some hv
    simp only [Stack.isWaitingOn, Bool.and_eq_true] at hw
    exact .handService t (List.mem_of_find?_eq_some hv) (.deliver hw.1 ok)

theorem fire_rounds (o : Outcome σ) (task : DeferredTask) :
    Rounds call o.tree (fire o task).tree := by
  unfold fire
  simp only
  split
  · exact .single (.fire ..)
  · next hd =>
    have hr : Rounds call o.tree _ := .single (deliver_round hd)
    exact (hr.tail (.fire ..)).trans (note_rounds ..)

theorem advanceMain_rounds (ht : t.Settled) (hc : call.isPhase) (hr : t.running)
    (hp : t.main.paused = false) (hphase : t.world.tick.phase = phase) :
    Rounds call t (t.advanceMain phase).settle.tree := by
  have hrest : Rounds call t (Outcome.settle ⟨t, none⟩).tree := by
    simp only [Outcome.settle, ht.settle]
    exact .refl
  have hdrive : ∀ {op : Stack.Operation}, t.Drives op →
      Rounds call t (t.keepMain (t.main.perform t.world op)).settle.tree :=
    fun h => .single (.drive t hc hr hp h)
  unfold advanceMain
  split
  · exact hrest
  · exact hrest
  · next hs =>
    split
    · next h => exact hdrive (.restart hs (by rwa [hphase]))
    · exact hrest
  · next hs =>
    split
    · next hn => exact hdrive (.run (.run (.inl ⟨hs, by simpa [Stack.isEmpty] using hn⟩)))
    next hn =>
    split
    · next hu => exact hdrive (.start hs (by simpa [Stack.isEmpty] using hn) (hphase.trans hu))
    · exact hrest
  · next hs => exact hdrive (.run (.run (.inr (.inl hs))))
  · next hs => exact hdrive (.run (.run (.inr (.inr hs))))
  · next hs => exact hdrive (.resume hs)

theorem tick_settle (ht : o.tree.Sound) : o.settle.tree.world.tick = o.tree.world.tick :=
  (settle_guarded .start ht).1.tick rfl

theorem driveMain_rounds (ht : t.Settled) (hc : call.isPhase)
    (hphase : t.world.tick.phase = phase) : Rounds call t (t.driveMain phase).tree := by
  unfold driveMain
  split
  · exact .refl
  next hp =>
  have hp : t.running ∧ t.main.paused = false := by simpa using hp
  have ha := advanceMain_rounds ht hc hp.1 hp.2 hphase
  have hguarded := advanceMain_guarded .start ht.sound hp.2 phase
  have htick := (tick_settle (hguarded.sound ht.sound)).trans (hguarded.tick rfl)
  split
  · next h => rw [h] at ha; exact ha
  · next t' h =>
    rw [h] at ha htick
    rw [← hphase, ← show t'.world.tick = t.world.tick from htick]
    exact ha.tail (.hand t' (.hook hc))

/-- A move that a service makes. -/
theorem moveService_rounds {move : Service → World σ → Pass σ Service} {service : NodeId}
    (h : ∀ v ∈ o.tree.services, Round call o.tree
      (o.tree.keepService (move v o.tree.world)).settle.tree) :
    Rounds call o.tree (moveService service move o).tree := by
  unfold moveService
  split
  · exact .refl
  · next v hv =>
    exact (Relation.ReflTransGen.single (h v (service?_eq_some hv).1)).trans (note_rounds ..)

theorem play_rounds (ht : t.Settled) (hc : call.isPhase) (hphase : t.world.tick.phase = phase)
    (part : Part) : Rounds call t (part.play phase ⟨t, none⟩).tree := by
  cases part with
  | fire task => exact fire_rounds ⟨t, none⟩ task
  | main => exact (driveMain_rounds ht hc hphase).trans (note_rounds ..)
  | advance s =>
    refine moveService_rounds (o := ⟨t, none⟩) fun v hv => ?_
    exact .serve t hc hv (Service.advance_turns (ht.sound.services v hv))
  | hook s =>
    refine moveService_rounds (o := ⟨t, none⟩) fun v hv => ?_
    rw [← hphase]
    exact .handService t hv (.hook hc)

theorem playAll_rounds (ht : t.Settled) (hc : call.isPhase) (hphase : t.world.tick.phase = phase)
    (parts : List Part) : Rounds call t (playAll phase parts t).1 := by
  induction parts generalizing t with
  | nil => exact .refl
  | cons part rest ih =>
    have hr := play_rounds ht hc hphase part
    have htick := (play_guarded (o := ⟨t, none⟩) .start phase ht.sound part).1.tick rfl
    exact hr.trans (ih (hr.settled ht) ((congrArg Tick.phase htick).trans hphase))

theorem runPhase_rounds (ht : t.Settled) (hc : call.isPhase)
    (h : now.number = t.world.tick.number + if now.phase = .update then 1 else 0) :
    Rounds call t (t.runPhase now).tree := by
  have hle : t.world.tick.number ≤ now.number := by omega
  rw [runPhase_parts ht.sound hle]
  exact (Relation.ReflTransGen.single (.phase t hc h)).trans
    (playAll_rounds (ht.atPhase hle) hc rfl _)

/-! ## The calls -/

theorem endAction_rounds (ht : t.Settled) (p : Progress) (ok : Bool) :
    Rounds call t (t.endAction p ok).1 := by
  unfold endAction
  split
  · exact .refl
  next label o hd =>
  have hround : Round call t o.tree := deliver_round hd
  have hc : Rounds call t (conclude label o).tree := by
    rw [show conclude label o = o.tree.note label o.fault none from
      conclude_of_settled (hround.settled ht).settled label o.fault]
    exact (Relation.ReflTransGen.single hround).trans (note_rounds ..)
  split
  · next h => rw [h] at hc; exact hc
  · next h => rw [h] at hc; exact hc

theorem breakService_rounds (t : Tree σ) (service : NodeId) (stopAt : Option NodeId) :
    Rounds (.breakService service stopAt) t (t.breakService service stopAt).1 := by
  unfold breakService
  split
  · exact .refl
  next v hv =>
  obtain ⟨hm, rfl⟩ := service?_eq_some hv
  have hround : Round (.breakService v.service stopAt) t
      (t.keepService (v.keep (v.stack.perform t.world (.breakTo stopAt)))).settle.tree :=
    .handService t hm (.order (.breakService ..) nofun nofun)
  have hc : Rounds (.breakService v.service stopAt) t (conclude v.label
      (t.keepService (v.keep (v.stack.breakTo t.world stopAt)))).tree :=
    (Relation.ReflTransGen.single hround).trans (note_rounds ..)
  split
  · next h => rw [h] at hc; exact hc
  · next h => rw [h] at hc; exact hc

/-- A change of a stack in place, which leaves nothing to be settled. -/
theorem onService_rounds (ht : t.Settled) {service : NodeId} {f : Stack → Stack}
    {op : Stack.Operation} (hf : ∀ (s : Stack) (w : World σ), s.perform w op = ⟨f s, w, none⟩)
    (h : call.Orders t.root (.service service) op) (hs : call ≠ .start)
    (hend : call ≠ .terminate) :
    Rounds call t (((t.onService service f).toOption).getD t) := by
  unfold onService
  split
  · exact .refl
  next v hv =>
  obtain ⟨hm, rfl⟩ := service?_eq_some hv
  have hround : Round call t (t.keepService (v.keep (v.stack.perform t.world op))).settle.tree :=
    .handService t hm (.order h hs hend)
  rw [hf] at hround
  have hq : (t.putService { v with stack := f v.stack }).world.events.toList = [] := ht.settled
  have hsettle : (t.keepService (v.keep ⟨f v.stack, t.world, none⟩)).settle.tree
      = t.putService { v with stack := f v.stack } :=
    congrArg Outcome.tree (settle_of_settled hq)
  rw [hsettle] at hround
  exact .single hround

theorem tick_rounds (ht : t.Settled) (dt : Float32) : Rounds (.tick dt) t (t.tick dt).tree := by
  unfold tick update fixedUpdate lateUpdate
  simp only
  have h₁ : Rounds (.tick dt) t
      (t.runPhase { number := t.world.tick.number + 1, dt, phase := .update }).tree :=
    runPhase_rounds ht rfl rfl
  generalize t.runPhase { number := t.world.tick.number + 1, dt, phase := .update } = o₁ at h₁ ⊢
  have hs₁ := h₁.settled ht
  have h₂ : Rounds (.tick dt) o₁.tree
      (o₁.tree.runPhase { number := o₁.tree.world.tick.number, dt, phase := .fixedUpdate }).tree :=
    runPhase_rounds hs₁ rfl rfl
  generalize o₁.tree.runPhase { number := o₁.tree.world.tick.number, dt, phase := .fixedUpdate }
    = o₂ at h₂ ⊢
  exact h₁.trans (h₂.trans (runPhase_rounds (h₂.settled hs₁) rfl rfl))

/-- Every call goes in rounds. -/
theorem perform_rounds (ht : t.Settled) (call : HostCall) : Rounds call t (t.perform call) := by
  have horder : ∀ {call : HostCall} {op : Stack.Operation}, call.Orders t.root .main op →
      call ≠ .start → call ≠ .terminate →
      Round call t (t.keepMain (t.main.perform t.world op)).settle.tree :=
    fun h hs hend => .hand t (.order h hs hend)
  have hswitch : ∀ {call : HostCall} {main : Stack},
      Round call t (t.keepMain ⟨main, t.world, none⟩).settle.tree →
      Rounds call t { t with main } := by
    intro call main h
    have hsettle : (t.keepMain ⟨main, t.world, none⟩).settle.tree = { t with main } :=
      congrArg Outcome.tree (settle_of_settled (t := { t with main }) ht.settled)
    exact .single (hsettle ▸ h)
  cases call with
  | start => exact conclude_rounds .main (.start t rfl)
  | update dt => exact runPhase_rounds ht rfl rfl
  | fixedUpdate dt =>
    have h : Rounds (.fixedUpdate dt) t
        (t.runPhase { number := t.world.tick.number, dt, phase := .fixedUpdate }).tree :=
      runPhase_rounds ht rfl rfl
    exact h
  | lateUpdate dt =>
    have h : Rounds (.lateUpdate dt) t
        (t.runPhase { number := t.world.tick.number, dt, phase := .lateUpdate }).tree :=
      runPhase_rounds ht rfl rfl
    exact h
  | tick dt => exact tick_rounds ht dt
  | receiveReturn ok =>
    exact conclude_rounds .main (horder (.receiveReturn ok) nofun nofun)
  | endAction p ok => exact endAction_rounds ht p ok
  | endNode node ok =>
    show Rounds _ t (t.endNode node ok).1
    unfold endNode
    split
    · exact .refl
    · exact endAction_rounds ht _ ok
  | breakMain stopAt => exact conclude_rounds .main (horder (.breakMain stopAt) nofun nofun)
  | breakService service stopAt => exact breakService_rounds t service stopAt
  | pause => exact hswitch (horder .pause nofun nofun)
  | resume => exact hswitch (horder .resume nofun nofun)
  | pauseService service =>
    exact onService_rounds ht (fun _ _ => rfl) (.pauseService service) nofun nofun
  | resumeService service =>
    exact onService_rounds ht (fun _ _ => rfl) (.resumeService service) nofun nofun
  | terminate =>
    show Rounds _ t t.terminate.tree
    rw [terminate_eq_ended ht.sound ht.orderly]
    exact .single (.terminate t rfl)
  | withConfig config => exact .single (.config t rfl)
  | setVariables b => exact .single (.setVariables t rfl)

omit [Node σ] in
theorem settled_make {g : Graph σ} {root : NodeId} {b : Blackboard} (h : make g root b = .ok t) :
    t.Settled :=
  have ⟨ho, hq⟩ := orderly_make h
  ⟨sound_make h, ho, hq⟩

theorem performAll_settled (ht : t.Settled) (calls : List HostCall) :
    (t.performAll calls).Settled := by
  induction calls generalizing t with
  | nil => exact ht
  | cons call rest ih => exact ih ((perform_rounds ht call).settled ht)

/-- What every round keeps is kept by a call. -/
theorem Rounds.induction {P : Tree σ → Prop} (h : Rounds call t t') (ht : t.Settled) (hp : P t)
    (hstep : ∀ u u' : Tree σ, u.Settled → Round call u u' → P u → P u') : P t' := by
  induction h with
  | refl => exact hp
  | tail hr h ih => exact hstep _ _ (Rounds.settled hr ht) h ih

/-- What every round keeps, of whatever call, holds after any calls. -/
theorem rounds_induction {P : Tree σ → Prop} (ht : t.Settled) (hp : P t)
    (hstep : ∀ (call : HostCall) (u u' : Tree σ), u.Settled → Round call u u' → P u → P u')
    (calls : List HostCall) : P (t.performAll calls) := by
  induction calls generalizing t with
  | nil => exact hp
  | cons call rest ih =>
    have hr := perform_rounds ht call
    exact ih (hr.settled ht) (hr.induction ht hp (hstep call))

end Tree

end BehaviorTree
