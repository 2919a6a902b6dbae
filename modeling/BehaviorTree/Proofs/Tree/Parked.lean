/-
A stack that waits for the next update waits for one tick.

In each motion of a tree a stack is kept as it is, or one operation is performed on it, or it is
new. So a stack is parked by its own node, in the tick of then; for the rest of that tick each
phase leaves it alone but for the hook; and the first phase of a later tick that reaches it, not
paused, executes the node.
-/
import BehaviorTree.Proofs.Stack.Resume
import BehaviorTree.Proofs.Tree.StackChanges
import BehaviorTree.Proofs.Tree.Exclusive
import BehaviorTree.Proofs.Tree.Running
import BehaviorTree.Proofs.Tree.Written

namespace BehaviorTree

variable {σ : Type} [Node σ]

/-- A stack on which nothing has been started yet. -/
structure Stack.Blank (s : Stack) : Prop where
  nodes : s.nodes = []
  state : s.state = .ready

omit [Node σ] in
theorem Stack.Blank.not_parked {s : Stack} {n : NodeId} {tick : Nat} (h : s.Blank) :
    ¬s.Parked n tick :=
  fun hp => by simpa [hp.state] using h.state

theorem Service.Motion.binds {x y : Service × World σ} (h : Motion x y) :
    x.2.Binds y.2 := by
  cases h with
  | operate v w => exact (v.stack.perform_made w _).acts.binds
  | ask => exact .ready ..
  | start | preempt => exact .of_graph rfl

theorem Service.Motions.binds {x y : Service × World σ} (h : Motions x y) : x.2.Binds y.2 := by
  induction h with
  | refl => exact .refl _
  | tail _ h ih => exact ih.trans h.binds

namespace Tree

variable {call : HostCall} {t t' t'' : Tree σ} {label : StackLabel} {s s' : Stack} {n : NodeId}
  {tick : Nat} {now : Tick}

/-! ## What becomes of a stack -/

/-- The stack that a label names after something was done, told from the one that it named
before. -/
inductive Becomes (t t' : Tree σ) (label : StackLabel) (s' : Stack) : Prop
  | kept (h : t.stack? label = some s')
  | operated {s : Stack} {op : Stack.Operation} (h : t.stack? label = some s)
      (hop : op.isStatus = false) (hs : s' = (s.perform t.world op).after)
      (hw : t'.world = (s.perform t.world op).world)
  | opened (h : s'.Blank)

theorem stack?_registerService {owner service : NodeId}
    (h : (registerService owner t service).stack? label = some s') :
    t.stack? label = some s' ∨ s'.Blank := by
  unfold registerService at h
  split at h
  · exact .inl h
  cases label with
  | main => exact .inl h
  | service id =>
    obtain ⟨v, hv, rfl⟩ := Option.map_eq_some_iff.1 h
    rcases Option.or_eq_some_iff.1 (List.find?_append.symm.trans hv) with hv | ⟨-, hv⟩
    · exact .inl (Option.map_eq_some_iff.2 ⟨v, hv, rfl⟩)
    · obtain rfl := List.mem_singleton.1 (List.mem_of_find?_eq_some hv)
      exact .inr ⟨rfl, rfl⟩

theorem stack?_unregisterService (ht : t.Sound) (owner service : NodeId)
    (h : (unregisterService owner ⟨t, none⟩ service).tree.stack? label = some s') :
    t.stack? label = some s' := by
  unfold unregisterService at h
  split at h
  · exact h
  rw [stack?_eraseService ht] at h
  split at h
  · cases h
  · exact h

theorem Motion.becomes (h : Motion t t') (ht : t.Sound) (hs : t'.stack? label = some s') :
    Becomes t t' label s' := by
  cases h with
  | main hop =>
    cases label with
    | main => exact .operated rfl hop (Option.some.inj hs).symm rfl
    | service id => exact .kept hs
  | @service v v' w hv h =>
    rw [stack?_putService ht hv h.service] at hs
    split at hs
    · next hl =>
      obtain rfl := Option.some.inj hs
      have hstack : t.stack? label = some v.stack := by
        rw [hl, ← ht.labels v hv]
        exact stack?_of_mem ht hv
      cases h with
      | operate _ _ hop => exact .operated hstack hop rfl rfl
      | ask | start | preempt => exact .kept hstack
    · exact .kept hs
  | register => exact (stack?_registerService hs).elim .kept .opened
  | unregister owner service => exact .kept (stack?_unregisterService ht owner service hs)
  | config c =>
    rw [stack?_withConfig] at hs
    obtain ⟨s, h, rfl⟩ := Option.map_eq_some_iff.1 hs
    have hop : (Stack.Operation.applyConfig c).isStatus = false := rfl
    exact .operated h hop rfl rfl
  | take | fire | report | clock | due | setVariables | fields => cases label <;> exact .kept hs

/-! ## Who parks a stack -/

/-- The stack under the label is parked on the node, since the tick. -/
def Waits (t : Tree σ) (label : StackLabel) (n : NodeId) (tick : Nat) : Prop :=
  ∃ s, t.stack? label = some s ∧ s.Parked n tick

instance (t : Tree σ) (label : StackLabel) (n : NodeId) (tick : Nat) :
    Decidable (t.Waits label n tick) :=
  decidable_of_iff ((t.stack? label).any (·.Parked n tick)) (by simp [Waits, Option.any_eq_true])

/-- A motion leaves a stack parked that was so before, or it parks it now: its node was called for
it. -/
theorem Motion.waits (h : Motion t t') (ht : t.Sound) (hw : t'.Waits label n tick) :
    t.Waits label n tick ∨ (t.world.tick.number = tick ∧ t.world.Dispatched n t'.world) := by
  obtain ⟨s', hs', hp⟩ := hw
  cases h.becomes ht hs' with
  | kept h => exact .inl ⟨s', h, hp⟩
  | opened h => exact absurd hp h.not_parked
  | @operated s op h hop he hw =>
    subst he
    rcases Stack.perform_reparks (ht.stack h).1 hop with hnow | hstill
    · obtain ⟨n', htop, hd⟩ := hnow.top hp.state
      cases htop.symm.trans hp.top
      exact .inr ⟨Option.some.inj ((hnow.since hp.state).symm.trans hp.since), hw ▸ hd⟩
    · refine .inl ⟨s, h, hstill.before, ?_, hstill.since.symm.trans hp.since⟩
      rw [Stack.top?, ← hstill.nodes]
      exact hp.top

theorem Motions.waits (h : t.Motions t') (ht : t.Sound) (hw : t'.Waits label n tick) :
    t.Waits label n tick ∨ (t.world.tick.number ≤ tick ∧ tick ≤ t'.world.tick.number ∧
      t.world.Dispatched n t'.world) := by
  induction h with
  | refl => exact .inl hw
  | @tail u u' hr h ih =>
    rcases h.waits (Motions.sound hr ht) hw with hb | ⟨rfl, hd⟩
    · rcases ih hb with hb | ⟨hlow, hhigh, hd⟩
      · exact .inl hb
      · exact .inr ⟨hlow, Nat.le_trans hhigh h.tick_le, hd.later h.writes⟩
    · exact .inr ⟨Motions.tick_le hr, h.tick_le, hd.earlier (Motions.writes hr)⟩

/-! ## The nodes that are bound -/

/-- On every stack all nodes are bound, but for one that has yet to be executed. -/
structure Bounded (t : Tree σ) : Prop where
  each : ∀ label s, t.stack? label = some s → s.Bounded t.world

theorem Motion.binds (h : Motion t t') : t.world.Binds t'.world := by
  cases h with
  | main => exact (t.main.perform_made t.world _).acts.binds
  | service hv h => exact h.binds
  | register =>
    unfold registerService
    split
    · exact .refl _
    · exact (World.Binds.registered ..).trans (.of_graph rfl)
  | unregister =>
    unfold unregisterService
    split
    · exact .refl _
    next v hv =>
    exact ((v.stack.perform_made t.world .terminate).acts.binds.trans (.unregistered ..)).trans
      (.of_graph rfl)
  | take | fire | report | clock | due | setVariables | fields | config => exact .of_graph rfl

theorem Motion.bounded (h : Motion t t') (ht : t.Sound) (hb : t.Bounded) : t'.Bounded := by
  refine ⟨fun label s' hs' => ?_⟩
  cases h.becomes ht hs' with
  | kept hs => exact (hb.each label s' hs).elsewhere h.binds
  | opened h =>
    exact Stack.bounded_of_all (by simp [h.nodes])
  | @operated s op hs hop he hw =>
    rw [he, hw]
    exact Stack.perform_bounded (ht.stack hs).1 (hb.each label s hs) op

theorem Motions.bounded (h : t.Motions t') (ht : t.Sound) (hb : t.Bounded) : t'.Bounded :=
  h.induction ht hb fun _ _ hu h hb => h.bounded hu hb

omit [Node σ] in
theorem bounded_make {g : Graph σ} {root : NodeId} {b : Blackboard} (h : make g root b = .ok t) :
    t.Bounded := by
  obtain ⟨-, rfl⟩ := make_ok h
  refine ⟨fun label s hs => ?_⟩
  cases label with
  | main =>
    cases hs
    exact Stack.bounded_of_all (by simp)
  | service id => cases hs

/-! ## The phases -/

/-- In a phase, once some of its parts have been played. -/
def midway (t : Tree σ) (now : Tick) (before : List Part) : Tree σ :=
  (playAll now.phase before (t.atPhase now)).1

theorem playAll_append (phase : Phase) (parts parts' : List Part) (t : Tree σ) :
    (playAll phase (parts ++ parts') t).1 = (playAll phase parts' (playAll phase parts t).1).1 := by
  induction parts generalizing t with
  | nil => rfl
  | cons part rest ih => exact ih _

/-- The next part is played on the tree that the ones before left. -/
theorem midway_snoc (t : Tree σ) (now : Tick) (before : List Part) (part : Part) :
    t.midway now (before ++ [part])
      = (part.play now.phase ⟨t.midway now before, none⟩).tree :=
  playAll_append ..

theorem rounds_midway (ht : t.Settled) (hn : t.now? call = some now) (before : List Part) :
    Rounds call t (t.midway now before) := by
  have hphase := isPhase_of_now hn
  exact (Relation.ReflTransGen.single (.phase t hphase (number_of_now hn))).trans
    (playAll_rounds (ht.atPhase (number_le_of_now hn)) hphase rfl before)

theorem tick_midway (ht : t.Settled) (hn : t.now? call = some now) (before : List Part) :
    (t.midway now before).world.tick = now :=
  (playAll_guarded .start before (ht.atPhase (number_le_of_now hn)).sound).tick rfl

theorem motions_midway (ht : t.Settled) (hn : t.now? call = some now) (before : List Part) :
    (t.atPhase now).Motions (t.midway now before) := by
  have hstart := ht.atPhase (number_le_of_now hn)
  have hr : Rounds call (t.atPhase now) (t.midway now before) :=
    playAll_rounds hstart (isPhase_of_now hn) rfl before
  exact hr.induction (P := (t.atPhase now).Motions) hstart .refl fun _ _ hu hr h =>
    h.trans (hr.motions hu)

/-- A stack that is parked once a part has been played, and not since before, is so since the tick
of the phase. -/
theorem since_of_motions {label : StackLabel} (h : t.Motions t') (ht : t.Sound)
    (htick : t'.world.tick = t.world.tick)
    (hs : ∀ n tick, t.Waits label n tick → tick = t.world.tick.number)
    (hw : t'.Waits label n tick) : tick = t.world.tick.number := by
  rcases h.waits ht hw with hw | ⟨hlow, hhigh, -⟩
  · exact hs _ _ hw
  · rw [htick] at hhigh
    exact Nat.le_antisymm hhigh hlow

/-- What the main stack's part of a phase comes to, if the stack is parked and not paused. -/
structure MainWaits (t : Tree σ) (phase : Phase) (n : NodeId) (tick : Nat) : Prop where
  /-- For the rest of the tick the stack only hears the hook. -/
  early : tick = t.world.tick.number →
    t.driveMain phase = (t.keepMain (t.main.forwardHook t.world phase)).settle
  /-- In a later one the node is executed before anything else happens. -/
  due : tick < t.world.tick.number → 0 < t.main.stepBudget →
    ∃ more, (Part.main.play phase ⟨t, none⟩).tree.world.happenings
      = t.world.happenings ++ .called n .execute :: more
  /-- If the stack is parked after that, then since the tick of the phase. -/
  again : tick < t.world.tick.number → ∀ n' tick',
    (Part.main.play phase ⟨t, none⟩).tree.Waits .main n' tick' → tick' = t.world.tick.number

/-- What a service's part of a phase comes to, if its stack is parked and not paused, and if the
service, asked in the world of the tree, did not preempt its run and left the world `w`. -/
structure ServiceWaits (t : Tree σ) (v : Service) (w : World σ) (phase : Phase) (n : NodeId)
    (tick : Nat) : Prop where
  early : tick = t.world.tick.number → v.advance t.world = ⟨v, w, none⟩
  due : tick < t.world.tick.number → 0 < v.stack.stepBudget →
    ∃ more, ((Part.advance v.service).play phase ⟨t, none⟩).tree.world.happenings
      = w.happenings ++ .called n .execute :: more
  again : tick < t.world.tick.number → ∀ n' tick',
    ((Part.advance v.service).play phase ⟨t, none⟩).tree.Waits (.service v.service) n' tick' →
      tick' = t.world.tick.number

/-- What the main stack does before it hears the hook comes first. -/
theorem reaches_driveMain {phase : Phase} {o : Outcome σ} (hr : t.running)
    (hp : t.main.paused = false) (ha : t.advanceMain phase = o) :
    o.tree.Reaches (t.driveMain phase).tree := by
  have hsettle : o.tree.Reaches (t.advanceMain phase).settle.tree := by
    rw [ha]
    exact settle_reaches (.refl _)
  unfold driveMain
  rw [if_neg (by simp [hr, hp])]
  split
  · next h => rw [h] at hsettle; exact hsettle
  · next t' h =>
    rw [h] at hsettle
    exact hsettle.trans (settle_reaches (keepMain_reaches t' (.forwardHook phase) rfl))

theorem mainWaits (ht : t.Settled) (ha : t.Awake) (hb : t.Bounded) {phase : Phase}
    (hp : t.main.Parked n tick) (hu : t.main.paused = false) : t.MainWaits phase n tick := by
  have hrun : t.running := ha.running fun hn => by
    have htop := hp.top
    simp [Stack.top?, hn] at htop
  have hadvance : t.advanceMain phase = t.keepMain (t.main.resumeNextUpdate t.world).1 := by
    simp [advanceMain, hp.state]
  have hresumed : (t.keepMain (t.main.resumeNextUpdate t.world).1).tree.Sound :=
    ht.sound.keepMain .resumeNextUpdate
  have hdrive : (t.keepMain (t.main.resumeNextUpdate t.world).1).tree.Reaches
      (t.driveMain phase).tree :=
    reaches_driveMain hrun hu hadvance
  have hplay := (hdrive.trans (note_reaches _ .main (t.driveMain phase).fault none)).motions hresumed
  have htick : (Part.main.play phase ⟨t, none⟩).tree.world.tick = t.world.tick :=
    (play_guarded (o := ⟨t, none⟩) .start phase ht.sound .main).1.tick rfl
  have hframe := (t.main.perform_frame t.world .resumeNextUpdate).tick
  refine ⟨fun hnow => ?_, fun hlater hbudget => ?_, fun hlater n' tick' hw => ?_⟩
  · have hstays : (t.advanceMain phase).settle = ⟨t, none⟩ := by
      rw [hadvance, Stack.resumeNextUpdate_early hp hnow]
      exact settle_of_settled ht.settled
    simp [driveMain, hrun, hu, hstays]
  · obtain ⟨more, hmore⟩ := Stack.resumeNextUpdate_executes ht.sound.main (hb.each .main _ rfl)
      hp hlater hu hbudget
    obtain ⟨later, hl⟩ := (Motions.writes hplay).happenings
    refine ⟨more ++ later, hl.symm.trans ?_⟩
    rw [show (t.keepMain (t.main.resumeNextUpdate t.world).1).tree.world
      = (t.main.resumeNextUpdate t.world).1.world from rfl, hmore, List.append_assoc,
      List.cons_append]
  · have hparks := Stack.resumeNextUpdate_parks (w := t.world) hp hlater hu
    rw [← hframe]
    refine since_of_motions hplay hresumed (htick.trans hframe.symm) (fun n'' tick'' hw => ?_) hw
    obtain ⟨s, hs, hps⟩ := hw
    cases hs
    exact (Option.some.inj ((hparks.since hps.state).symm.trans hps.since)).symm.trans
      (congrArg Tick.number hframe.symm)

theorem serviceWaits (ht : t.Settled) (hb : t.Bounded) {phase : Phase} {v : Service} {w : World σ}
    (hv : t.service? v.service = some v) (hp : v.stack.Parked n tick)
    (hu : v.stack.paused = false) (hi : v.isPreempted t.world = (w, false)) :
    t.ServiceWaits v w phase n tick := by
  have hm := (service?_eq_some hv).1
  have hasked : Service.Motions (v, t.world) (v, w) := by
    have h := Service.isPreempted_motions v t.world
    rwa [hi] at h
  have htw : w.tick = t.world.tick := hasked.frame.tick
  have hs : v.stack.Sound w := hasked.sound (ht.sound.services v hm)
  have hbw : v.stack.Bounded w :=
    (hb.each v.label v.stack (stack?_of_mem ht.sound hm)).elsewhere hasked.binds
  have hadvance : v.advance t.world = v.keep (v.stack.resumeNextUpdate w).1 := by
    simp [Service.advance, hu, hi, hp.state]
  have hresumed := v.operate_motions w .resumeNextUpdate rfl
  have hmoved : t.Motions (t.keepService (v.advance t.world)).tree :=
    motions_service ht.sound hm (hadvance ▸ hasked.trans hresumed)
  have hsound := hmoved.sound ht.sound
  have hplay : (t.keepService (v.advance t.world)).tree.Motions
      ((Part.advance v.service).play phase ⟨t, none⟩).tree := by
    refine Reaches.motions ?_ hsound
    simp only [Part.play, moveService, hv]
    exact (settle_reaches (.refl _)).trans (note_reaches ..)
  have htick : ((Part.advance v.service).play phase ⟨t, none⟩).tree.world.tick = t.world.tick :=
    (play_guarded (o := ⟨t, none⟩) .start phase ht.sound (.advance v.service)).1.tick rfl
  have hframe : (v.stack.resumeNextUpdate w).1.world.tick = t.world.tick :=
    (v.stack.perform_frame w .resumeNextUpdate).tick.trans htw
  refine ⟨fun hnow => ?_, fun hlater hbudget => ?_, fun hlater n' tick' hw => ?_⟩
  · rw [hadvance, Stack.resumeNextUpdate_early hp (hnow.trans (congrArg Tick.number htw.symm))]
    rfl
  · obtain ⟨more, hmore⟩ := Stack.resumeNextUpdate_executes hs hbw hp (htw ▸ hlater) hu hbudget
    obtain ⟨later, hl⟩ := (Motions.writes hplay).happenings
    refine ⟨more ++ later, hl.symm.trans ?_⟩
    rw [hadvance, show (t.keepService (v.keep (v.stack.resumeNextUpdate w).1)).tree.world
      = (v.stack.resumeNextUpdate w).1.world from rfl, hmore, List.append_assoc, List.cons_append]
  · have hparks := Stack.resumeNextUpdate_parks (w := w) hp (htw ▸ hlater) hu
    have hworld : (t.keepService (v.advance t.world)).tree.world.tick = t.world.tick := by
      rw [hadvance]
      exact hframe
    rw [← hworld]
    refine since_of_motions hplay hsound (htick.trans hworld.symm) (fun n'' tick'' hw => ?_) hw
    obtain ⟨s, hs, hps⟩ := hw
    have hservice : (v.advance t.world).after.service = v.service := by
      rw [hadvance]
      rfl
    have hput : (t.keepService (v.advance t.world)).tree.stack? (.service v.service)
        = some (v.advance t.world).after.stack :=
      (stack?_putService ht.sound hm hservice _).trans (if_pos rfl)
    obtain rfl := Option.some.inj (hput.symm.trans hs)
    rw [hadvance] at hps
    rw [hworld, ← htw]
    exact (Option.some.inj ((hparks.since hps.state).symm.trans hps.since)).symm

/-! ## Any calls -/

/-- A stack that is parked now was so before, or its node was called for it since, in the tick of
now. -/
def ParkedBy (t t' : Tree σ) : Prop :=
  ∀ label n tick, t'.Waits label n tick → t.Waits label n tick ∨
    (tick = t'.world.tick.number ∧ t.world.Dispatched n t'.world)

/-- Whatever is done to a stack in the tick in which it was parked, its node is not executed before
it has left the stack. -/
def LeftAlone (t : Tree σ) : Prop :=
  ∀ label s n, t.stack? label = some s → s.Parked n t.world.tick.number → ∀ op,
    t.world.Unexecuted label n (s.perform t.world op).world

theorem Sound.leftAlone (ht : t.Sound) : t.LeftAlone := by
  intro label s n hs hp op
  obtain ⟨hsound, hl⟩ := ht.stack hs
  exact hl ▸ Stack.perform_unexecuted hsound hp rfl op

theorem Motions.parkedBy (h : t.Motions t') (ht : t.Sound) (htick : t'.world.tick = t.world.tick) :
    t.ParkedBy t' := by
  intro label n tick hw
  rcases h.waits ht hw with hw | ⟨hlow, hhigh, hd⟩
  · exact .inl hw
  · rw [htick] at hhigh
    exact .inr ⟨htick ▸ Nat.le_antisymm hhigh hlow, hd⟩

omit [Node σ] in
theorem ParkedBy.trans (h : t.ParkedBy t') (h' : t'.ParkedBy t'') (hw : t.world.Writes t'.world)
    (hw' : t'.world.Writes t''.world) (htick : t''.world.tick.number = t'.world.tick.number) :
    t.ParkedBy t'' := by
  intro label n tick hwaits
  rcases h' label n tick hwaits with hwaits | ⟨he, hd⟩
  · exact (h label n tick hwaits).imp_right fun ⟨he, hd⟩ => ⟨he.trans htick.symm, hd.later hw'⟩
  · exact .inr ⟨he, hd.earlier hw⟩

/-- The clock of a phase does nothing to the stacks. -/
theorem midway_parkedBy (ht : t.Settled) (hn : t.now? call = some now) (before : List Part) :
    t.ParkedBy (t.midway now before) := by
  have hstart := ht.atPhase (number_le_of_now hn)
  have hm := Motions.parkedBy (motions_midway ht hn before) hstart.sound (tick_midway ht hn before)
  intro label n tick hw
  have hsame : (t.atPhase now).Waits label n tick → t.Waits label n tick := by
    cases label <;> exact id
  have hwrites : t.world.Writes (t.atPhase now).world := (World.Writes.refl _).of_history rfl rfl
  exact (hm label n tick hw).imp hsame fun ⟨he, hd⟩ => ⟨he, hd.earlier hwrites⟩

theorem perform_midway (ht : t.Settled) (hn : t.now? call = some now) :
    t.perform call = t.midway now (t.parts now) :=
  (perform_parts ht.sound hn).1

theorem phase_parkedBy (ht : t.Settled) (call : HostCall) (hn : t.now? call = some now) :
    t.ParkedBy (t.perform call) := by
  rw [perform_midway ht hn]
  exact midway_parkedBy ht hn _

theorem tick_phase (ht : t.Settled) (call : HostCall) (hn : t.now? call = some now) :
    (t.perform call).world.tick = now := by
  rw [perform_midway ht hn]
  exact tick_midway ht hn _

theorem perform_writes (ht : t.Settled) (call : HostCall) :
    t.world.Writes (t.perform call).world :=
  Motions.writes ((perform_reaches ht.orderly call).motions ht.sound)

/-- The phases of a tick are all in the tick of the first. -/
theorem tick_parkedBy (ht : t.Settled) (dt : Float32) : t.ParkedBy (t.perform (.tick dt)) := by
  have hwhole : t.perform (.tick dt)
      = ((t.perform (.update dt)).perform (.fixedUpdate dt)).perform (.lateUpdate dt) :=
    (perform_phases t (.tick dt)).symm
  have h₁ := phase_parkedBy ht (.update dt) rfl
  have hw₁ := perform_writes ht (.update dt)
  have hs₁ := (perform_rounds ht (.update dt)).settled ht
  rw [hwhole]
  generalize t.perform (.update dt) = t₁ at h₁ hw₁ hs₁ ⊢
  have h₂ := phase_parkedBy hs₁ (.fixedUpdate dt) rfl
  have hw₂ := perform_writes hs₁ (.fixedUpdate dt)
  have hs₂ := (perform_rounds hs₁ (.fixedUpdate dt)).settled hs₁
  have ht₂ := congrArg Tick.number (tick_phase hs₁ (.fixedUpdate dt) rfl)
  generalize t₁.perform (.fixedUpdate dt) = t₂ at h₂ hw₂ hs₂ ht₂ ⊢
  have h₃ := phase_parkedBy hs₂ (.lateUpdate dt) rfl
  have hw₃ := perform_writes hs₂ (.lateUpdate dt)
  have ht₃ := congrArg Tick.number (tick_phase hs₂ (.lateUpdate dt) rfl)
  exact (h₁.trans h₂ hw₁ hw₂ ht₂).trans h₃ (hw₁.trans hw₂) hw₃ ht₃

theorem perform_parkedBy (ht : t.Settled) (call : HostCall) : t.ParkedBy (t.perform call) := by
  cases call with
  | tick dt => exact tick_parkedBy ht dt
  | update dt => exact phase_parkedBy ht (.update dt) rfl
  | fixedUpdate dt => exact phase_parkedBy ht (.fixedUpdate dt) rfl
  | lateUpdate dt => exact phase_parkedBy ht (.lateUpdate dt) rfl
  | _ =>
    obtain ⟨found, hh⟩ := perform_guarded ht.sound _
    exact Motions.parkedBy ((perform_reaches ht.orderly _).motions ht.sound) ht.sound (hh.tick rfl)

/-- Whatever the host has called: a stack is parked by its node, in the tick of then; in that tick
nothing executes the node before it has left the stack, and no phase resumes the stack; and the
part of a phase that reaches the stack in a later tick executes the node before anything else, if
the stack is not paused, a service does not preempt its run, and a pass may take a step at all. -/
theorem waits_one_tick {g : Graph σ} {root : NodeId} {b : Blackboard} (hm : make g root b = .ok t)
    (calls : List HostCall) :
    let u := t.performAll calls
    u.LeftAlone ∧ (∀ call, u.ParkedBy (u.perform call)) ∧
    ∀ call now, u.now? call = some now → u.perform call = u.midway now (u.parts now) ∧
      ∀ before part after, u.parts now = before ++ part :: after →
        let x := u.midway now before
        u.midway now (before ++ [part]) = (part.play now.phase ⟨x, none⟩).tree ∧
        x.world.tick = now ∧ x.LeftAlone ∧ u.ParkedBy x ∧
        (part = .main → ∀ n tick, x.main.Parked n tick → x.main.paused = false →
          tick ≤ now.number ∧ x.MainWaits now.phase n tick) ∧
        ∀ id, part = .advance id → ∀ v, x.service? id = some v → ∀ n tick,
          v.stack.Parked n tick → v.stack.paused = false →
          ∀ w, v.isPreempted x.world = (w, false) →
            tick ≤ now.number ∧ x.ServiceWaits v w now.phase n tick := by
  have hmade := settled_make hm
  have hu := performAll_settled hmade calls
  have hawake := performAll_awake hmade (awake_make hm) calls
  have hbounded := Motions.bounded (motions_of_make hm calls) hmade.sound (bounded_make hm)
  refine ⟨hu.sound.leftAlone, perform_parkedBy hu, fun call now hn => ⟨perform_midway hu hn, ?_⟩⟩
  intro before part after hparts
  have hrounds := rounds_midway hu hn before
  have hx := hrounds.settled hu
  have htick := tick_midway hu hn before
  have hxa : (Tree.midway _ now before).Awake :=
    hrounds.induction hu hawake fun _ _ hu hr h => hr.awake hu h
  have hxb : (Tree.midway _ now before).Bounded :=
    hrounds.induction hu hbounded fun _ _ hu hr h => Motions.bounded (hr.motions hu) hu.sound h
  refine ⟨?_, htick, hx.sound.leftAlone, midway_parkedBy hu hn before, fun _ n tick hp hpaused => ?_,
    fun id _ v hv n tick hp hpaused w hi => ?_⟩
  · exact midway_snoc ..
  · exact ⟨htick ▸ hx.sound.main.parked_le hp, mainWaits hx hxa hxb hp hpaused⟩
  · obtain ⟨hmem, rfl⟩ := service?_eq_some hv
    exact ⟨htick ▸ (hx.sound.services v hmem).parked_le hp, serviceWaits hx hxb hv hp hpaused hi⟩

/-- The parts of a phase in which no end is due. -/
theorem parts_of_none_due (h : t.due now = []) :
    t.parts now = .main :: ((t.midway now [.main]).services.map (·.service)).flatMap
      fun s => [.advance s, .hook s] := by
  simp [parts, h, midway, List.flatMap_map]

section Napping

/-- Waits for the next update, time and again. -/
def naps : Plays := [{ answer := some .waitUntilNextUpdate }]

/-- The root and its service both nap. -/
def napping : Graph Scripted where
  slots := #[
    { name := "Service", node := { name := "Service", execute := naps, ready := some [true] },
      owner := some ⟨1⟩ },
    { name := "Root", node := { name := "Root", execute := naps }, services := [⟨0⟩] }]

def nextUpdate : Tick := { number := 2, dt := 0, phase := .update }

/-- The root and its service nap since the first update. The second one executes the root, and
then the service. -/
theorem waits_one_tick_napping :
    ∃ t u, make napping ⟨1⟩ {} = .ok t ∧ t.performAll [.start, .update 0] = u ∧
      u.now? (.update 0) = some nextUpdate ∧
      u.Waits .main ⟨1⟩ 1 ∧ u.Waits (.service ⟨0⟩) ⟨0⟩ 1 ∧
      (∃ more, (u.midway nextUpdate [.main]).world.happenings
        = (u.midway nextUpdate []).world.happenings ++ .called ⟨1⟩ .execute :: more) ∧
      ∃ more, (u.midway nextUpdate [.main, .advance ⟨0⟩]).world.happenings
        = (u.midway nextUpdate [.main]).world.happenings ++ .called ⟨0⟩ .execute :: more := by
  obtain ⟨t, u, hm, hu, hnumber, hdue, hservices, hnaps, hnap, hservice?⟩ :
      ∃ t u, make napping ⟨1⟩ {} = .ok t ∧ t.performAll [.start, .update 0] = u ∧
        u.world.tick.number = 1 ∧ (u.due nextUpdate).length = 0 ∧
        (u.midway nextUpdate [.main]).services.map (·.service) = [⟨0⟩] ∧
        (u.Waits .main ⟨1⟩ 1 ∧ u.Waits (.service ⟨0⟩) ⟨0⟩ 1) ∧
        ((u.midway nextUpdate []).main.Parked ⟨1⟩ 1 ∧
          (u.midway nextUpdate []).main.paused = false ∧
          0 < (u.midway nextUpdate []).main.stepBudget) ∧
        ((u.midway nextUpdate [.main]).service? ⟨0⟩).any (fun v =>
          v.stack.Parked ⟨0⟩ 1 ∧ v.stack.paused = false ∧ 0 < v.stack.stepBudget ∧
          (u.midway nextUpdate [.main]).world.preempts v.service = false) = true :=
    ⟨_, _, rfl, rfl, by decide +kernel, by decide +kernel, by decide +kernel, by decide +kernel,
      by decide +kernel, by decide +kernel⟩
  obtain ⟨-, -, hphases⟩ := waits_one_tick hm [.start, .update 0]
  rw [hu] at hphases
  have hnow : u.now? (.update 0) = some nextUpdate := by simp [now?, hnumber, nextUpdate]
  obtain ⟨-, hparts⟩ := hphases (.update 0) nextUpdate hnow
  have hp : u.parts nextUpdate = [.main, .advance ⟨0⟩, .hook ⟨0⟩] := by
    rw [parts_of_none_due (List.eq_nil_of_length_eq_zero hdue), hservices]
    rfl
  obtain ⟨hplay, htick, -, -, hmain, -⟩ := hparts [] .main [.advance ⟨0⟩, .hook ⟨0⟩] hp
  obtain ⟨hplay', htick', -, -, -, hservice⟩ := hparts [.main] (.advance ⟨0⟩) [.hook ⟨0⟩] hp
  refine ⟨t, u, hm, hu, hnow, hnaps.1, hnaps.2, ?_, ?_⟩
  · obtain ⟨hparked, hunpaused, hbudget⟩ := hnap
    obtain ⟨-, hw⟩ := hmain rfl ⟨1⟩ 1 hparked hunpaused
    obtain ⟨more, hmore⟩ := hw.due (by rw [htick]; decide) hbudget
    exact ⟨more, (congrArg (·.world.happenings) hplay).trans hmore⟩
  · obtain ⟨v, hv, hparked, hunpaused, hbudget, hstays⟩ := by
      simpa only [Option.any_eq_true, decide_eq_true_eq] using hservice?
    have hasked : v.isPreempted (u.midway nextUpdate [.main]).world
        = ((u.midway nextUpdate [.main]).world, false) := by
      simp only [Service.isPreempted, hstays, Bool.and_false]
      rfl
    obtain ⟨-, hw⟩ := hservice ⟨0⟩ rfl v hv ⟨0⟩ 1 hparked hunpaused _ hasked
    obtain ⟨more, hmore⟩ := hw.due (by rw [htick']; decide) hbudget
    rw [(service?_eq_some hv).2] at hmore
    exact ⟨more, (congrArg (·.world.happenings) hplay').trans hmore⟩

/-- A stack may be resumed and yet not execute its node: if a pass may not take a single step. -/
theorem resume_needs_step :
    ∃ t, make napping ⟨1⟩ {} = .ok t ∧
      let u := t.performAll [.start, .withConfig { maxStepsPerPass := 0 }]
      u.Waits .main ⟨1⟩ 0 ∧ u.main.paused = false ∧
        (u.perform (.update 0)).world.tick.number = 1 ∧
        (u.perform (.update 0)).main.state = .calling ∧
        (u.perform (.update 0)).world.happenings.count (.called ⟨1⟩ .execute)
          = u.world.happenings.count (.called ⟨1⟩ .execute) :=
  ⟨_, rfl, by decide +kernel, by decide +kernel, by decide +kernel, by decide +kernel,
    by decide +kernel⟩

end Napping

end Tree

end BehaviorTree
