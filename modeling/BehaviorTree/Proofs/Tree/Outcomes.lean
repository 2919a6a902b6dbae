/-
Runs of the root are counted, and one that is over is followed by the next.

Between two rounds the tree has counted all the outcomes with which the root left the main stack
by itself, and knows the last of them. Once a run is over nothing is left on any stack, so until
the root is restarted no node is executed; and by itself the tree restarts it in the first update
of a later tick that is to do so.
-/
import BehaviorTree.Proofs.Stack.Outcomes
import BehaviorTree.Proofs.Tree.Breaches
import BehaviorTree.Proofs.Tree.Parked
import BehaviorTree.Proofs.Tree.Restart
import BehaviorTree.Proofs.Tree.SameFor

namespace BehaviorTree

variable {σ : Type} [Node σ] {root : NodeId}

namespace World

variable {w w' : World σ}

omit [Node σ] in
theorem Calm.traced {tag : String} (h : tag ≠ "bt.stack.receive") {stack : StackLabel}
    {node : Option NodeId} {value : Int}
    (hh : ∀ x, (Record.traced (w.event tag stack node value)).happening? = some x →
      x.IsCalm root) : Calm root w (w.trace tag stack node value) :=
  ⟨outcomes_trace w h .., rfl, _, happenings_record w _, by simpa [World.event] using hh⟩

theorem Calm.registered (w : World σ) (id : NodeId) : Calm root w (w.registered id) := by
  refine ⟨outcomes_of_traced (traced_registered ..),
    congrArg (·.toList.filterMap StackEvent.mainEnd?) (events_registered ..), ?_⟩
  rcases happenings_registered w id with h | h
  · exact ⟨[], by simp [h], by simp⟩
  · exact ⟨_, h, by simp [Happening.IsCalm]⟩

theorem Calm.unregistered (w : World σ) (id : NodeId) : Calm root w (w.unregistered id) := by
  refine ⟨outcomes_of_traced (traced_unregistered ..),
    congrArg (·.toList.filterMap StackEvent.mainEnd?) (events_unregistered ..), ?_⟩
  rcases happenings_unregistered w id with h | h
  · exact ⟨[], by simp [h], by simp⟩
  · exact ⟨_, h, by simp [Happening.IsCalm]⟩

end World

/-- Another stack that is ended is only rolled back. -/
theorem Stack.terminate_calm {s : Stack} {w : World σ} (hs : s.Sound w) (hl : s.label ≠ .main) :
    w.Calm root (s.terminate w).world := by
  have hrun : w.SameRun root (s.terminate w).world := s.perform_sameRun w .terminate hl
  obtain ⟨-, hr⟩ := Stack.terminate_rolledBack hs.known
  refine ⟨hrun.outcomes, hrun.ends, _, hr.happenings, fun x hx => ?_⟩
  obtain ⟨n, -, hx⟩ := List.mem_flatMap.1 hx
  simp only [List.mem_cons, List.not_mem_nil, or_false] at hx
  rcases hx with rfl | rfl
  · exact Call.noConfusion
  · exact fun h => absurd h hl

theorem Service.Motion.sameRun {x y : Service × World σ} (h : Motion x y)
    (hl : x.1.label ≠ .main) : x.2.SameRun root y.2 := by
  cases h with
  | operate v w => exact v.stack.perform_sameRun w _ hl
  | ask v w =>
    refine .of_calls v.service (World.traced_ready ..) (World.ready_keeps ..).events ?_
    rcases World.happenings_ready w v.service with h | ⟨answer, h⟩
    · exact ⟨[], by simp [h]⟩
    · exact ⟨[_], h⟩
  | start | preempt => exact .trace _ (by decide) (by decide) ..

theorem Service.Motions.sameRun {x y : Service × World σ} (h : Motions x y)
    (hl : x.1.label ≠ .main) : x.2.SameRun root y.2 := by
  induction h with
  | refl => exact .refl _
  | tail h hm ih => exact ih.trans (hm.sameRun (Motions.label h ▸ hl))

/-- The call is at most one phase, and leaves it to the tree when the root is started. -/
def HostCall.letsRest : HostCall → Bool
  | .start | .breakMain _ | .terminate | .tick _ => false
  | _ => true

namespace Tree

variable {call : HostCall} {t t' u : Tree σ} {now : Tick} {e : Nat}

/-! ## Settling -/

/-- Nothing is started, and nothing is counted. -/
structure Lull (root : NodeId) (t u : Tree σ) : Prop where
  world : t.world.Calm root u.world
  tick : u.world.tick = t.world.tick
  endedAt : u.endedAt = t.endedAt
  completedRuns : u.completedRuns = t.completedRuns
  lastResult : u.lastResult = t.lastResult

omit [Node σ] in
theorem Lull.refl (t : Tree σ) : Lull root t t := ⟨.refl _, rfl, rfl, rfl, rfl⟩

omit [Node σ] in
theorem Lull.trans (h : Lull root t t') (h' : Lull root t' u) : Lull root t u :=
  ⟨h.world.trans h'.world, h'.tick.trans h.tick, h'.endedAt.trans h.endedAt,
    h'.completedRuns.trans h.completedRuns, h'.lastResult.trans h.lastResult⟩

omit [Node σ] in
theorem Lull.completed (h : Lull root t u) (result : Option Bool) :
    Lull root (t.completed result) (u.completed result) :=
  ⟨h.world, h.tick, congrArg (fun tick : Tick => some tick.number) h.tick,
    congrArg (· + 1) h.completedRuns, rfl⟩

omit [Node σ] in
theorem Lull.foldl_completed (h : Lull root t u) (results : List (Option Bool)) :
    Lull root (results.foldl Tree.completed t) (results.foldl Tree.completed u) := by
  induction results generalizing t u with
  | nil => exact h
  | cons result rest ih => exact ih (h.completed result)

theorem registerService_lull (owner s : NodeId) (t : Tree σ) :
    Lull root t (registerService owner t s) := by
  unfold registerService
  split
  · exact .refl t
  · exact ⟨(World.Calm.registered ..).trans (.trace _ (by decide) (by decide) ..),
      World.tick_registered .., rfl, rfl, rfl⟩

theorem unregisterService_lull (ht : t.Sound) (owner s : NodeId) (fault : Option StackError) :
    Lull root t (unregisterService owner ⟨t, fault⟩ s).tree := by
  unfold unregisterService
  split
  · exact .refl t
  next v hv =>
  obtain ⟨hm, rfl⟩ : v ∈ t.services ∧ v.service = s := service?_eq_some hv
  have hl : v.stack.label ≠ .main := by
    rw [show v.stack.label = _ from ht.labels v hm]
    exact StackLabel.noConfusion
  have hended : t.world.Calm root (v.stack.terminate t.world).world :=
    Stack.terminate_calm (ht.services v hm) hl
  refine ⟨(hended.trans (.unregistered ..)).trans (.traced (by decide) fun x hx => ?_),
    (World.tick_unregistered ..).trans (v.stack.perform_frame t.world .terminate).tick,
    rfl, rfl, rfl⟩
  obtain rfl := Option.some.inj hx
  exact trivial

/-- What settling an event comes to, but for a run of the root that is counted. -/
theorem handle_lull (ht : t.Sound) (event : StackEvent) :
    Lull root (event.mainEnd?.toList.foldl completed t) (t.handle event).tree := by
  match event with
  | .pushed n =>
    show Lull root t ((t.world.graph.servicesOf n).foldl (registerService n) t)
    generalize t.world.graph.servicesOf n = services
    clear ht
    induction services generalizing t with
    | nil => exact .refl t
    | cons s rest ih => exact (registerService_lull n s t).trans ih
  | .popped n =>
    show Lull root t ((t.world.graph.servicesOf n).foldl (unregisterService n) ⟨t, none⟩).tree
    generalize t.world.graph.servicesOf n = services
    generalize (none : Option StackError) = fault
    induction services generalizing t fault with
    | nil => exact .refl t
    | cons s rest ih =>
      have hs : (unregisterService n ⟨t, fault⟩ s).tree.Sound := by
        rw [unregisterService_tree]
        exact (Motion.unregister t n s).sound ht
      exact (unregisterService_lull ht n s fault).trans (ih hs _)
  | .ended .main result => exact .refl _
  | .ended (.service _) _ => exact .refl t

/-- All events are taken, with nothing done for them. -/
def drained (t : Tree σ) : Tree σ := { t with world := { t.world with events := {} } }

omit [Node σ] in
theorem Lull.drained (h : Lull root t u) : Lull root t.drained u.drained :=
  ⟨⟨h.world.outcomes, rfl, h.world.happenings⟩, h.tick, h.endedAt, h.completedRuns, h.lastResult⟩

/-- Settling counts the runs that were completed, and starts nothing. -/
theorem settleFrom_lull (root : NodeId) (first : Option StackError) (t : Tree σ) (ht : t.Sound) :
    Lull root (t.world.mainEnds.foldl completed t.drained) (t.settleFrom first).tree := by
  induction first, t using settleFrom.induct with
  | case1 first t hp =>
    have hnone : t.world.mainEnds = [] :=
      World.mainEnds_of_settled (Queue.pop?_eq_none_iff.1 hp)
    rw [settleFrom_of_none hp, hnone]
    exact ⟨.of_history rfl hnone, rfl, rfl, rfl, rfl⟩
  | case2 first t event rest hp o ih =>
    rw [settleFrom_of_some hp]
    let taken : Tree σ := { t with world := { t.world with events := rest } }
    have htaken : taken.Sound := (Motion.take t hp).sound ht
    have hhandle : Lull root (event.mainEnd?.toList.foldl completed taken) o.tree :=
      handle_lull htaken event
    have hdrained : Lull root (event.mainEnd?.toList.foldl completed t.drained) o.tree.drained := by
      have h := hhandle.drained
      cases hm : event.mainEnd? <;> rw [hm] at h <;> exact h
    have hends : t.world.mainEnds = event.mainEnd?.toList ++ o.tree.world.mainEnds := by
      have hkept : (event.mainEnd?.toList.foldl completed taken).world = taken.world := by
        cases event.mainEnd? <;> rfl
      rw [hhandle.world.ends, hkept, World.mainEnds, Queue.toList_of_pop? hp, List.filterMap_cons]
      cases event.mainEnd? <;> rfl
    rw [hends, List.foldl_append]
    exact (hdrained.foldl_completed _).trans (ih ((handle_chores _ event).motions.sound htaken))

/-! ## A round -/

/-- Whatever was started has ended: the run of the root that was completed at the tick `e` was the
last one. -/
structure Resting (t : Tree σ) (e : Nat) : Prop where
  running : t.running
  state : t.main.state = .ended
  nodes : t.main.nodes = []
  services : t.services = []
  endedAt : t.endedAt = some e
  elapsed : e ≤ t.world.tick.number

/-- What comes of the runs of the root: either nothing, and the root does not leave the main stack;
or one run is over, the root leaves the main stack this once, and its outcome is counted. -/
inductive Scored (root : NodeId) (t t' : Tree σ) : Prop
  | on (h : t.world.SameRun root t'.world) (hr : t'.completedRuns = t.completedRuns)
      (hl : t'.lastResult = t.lastResult)
  | ended (ok : Bool) (h : t.world.EndsRun root ok t'.world)
      (hr : t'.completedRuns = t.completedRuns + 1) (hl : t'.lastResult = some ok)
      (hrest : t'.Resting t'.world.tick.number)

/-- No run is completed, whatever becomes of the root. -/
structure Unscored (root : NodeId) (t t' : Tree σ) : Prop where
  outcomes : t'.world.outcomes root = t.world.outcomes root
  completedRuns : t'.completedRuns = t.completedRuns
  lastResult : t'.lastResult = t.lastResult

omit [Node σ] in
theorem Settled.mainEnds (ht : t.Settled) : t.world.mainEnds = [] :=
  World.mainEnds_of_settled ht.settled

/-- An operation on the main stack, settled. -/
theorem scored_keepMain {p : Pass σ Stack} (hv : Stack.Verdict root t.world p) (ht : t.Settled)
    (hs : (t.keepMain p).tree.Sound) (hs' : (t.keepMain p).settle.tree.Settled)
    (hrun : p.world ≠ t.world → t.running) : Scored root t (t.keepMain p).settle.tree := by
  have hlull := settleFrom_lull root none (t.keepMain p).tree hs
  have hmain : (t.keepMain p).settle.tree.main = p.after := main_settle (t.keepMain p).tree
  have hrunning : (t.keepMain p).settle.tree.running = t.running := running_settle hs
  change Lull root (p.world.mainEnds.foldl completed (t.keepMain p).tree.drained)
    (t.keepMain p).settle.tree at hlull
  generalize (t.keepMain p).settle.tree = t' at *
  cases hv with
  | on h =>
    rw [h.ends, ht.mainEnds] at hlull
    have hdrained : t.world.SameRun root (t.keepMain p).tree.drained.world :=
      ⟨h.outcomes, ht.mainEnds.symm, h.happenings⟩
    exact .on (hdrained.trans hlull.world.sameRun) hlull.completedRuns hlull.lastResult
  | ended ok h he hn hst =>
    rw [he, ht.mainEnds] at hlull
    have hdrained : t.world.EndsRun root ok (t.keepMain p).tree.drained.world :=
      ⟨h.outcomes, h.happenings⟩
    have hmoved : p.world ≠ t.world := by
      intro hw
      have ho := h.outcomes
      rw [hw] at ho
      exact absurd ho (by simp)
    refine .ended ok (hdrained.calm hlull.world) hlull.completedRuns hlull.lastResult
      ⟨hrunning.trans (hrun hmoved), by rw [hmain, hst], by rw [hmain, hn], ?_, ?_, Nat.le_refl _⟩
    · exact services_nil_of_settled hs'.orderly (by rw [hmain, hn]) hs'.settled
    · exact hlull.endedAt.trans (congrArg (fun tick : Tick => some tick.number) hlull.tick.symm)

/-- The main stack is rolled back, and this is settled. -/
theorem unscored_keepMain (op : Stack.Operation) (ht : t.Settled) (h : op.rollsBack) :
    Unscored root t (t.keepMain (t.main.perform t.world op)).settle.tree := by
  obtain ⟨ho, he⟩ := t.main.perform_outcomes root t.world h
  have hlull := settleFrom_lull root none _ (ht.sound.keepMain op)
  rw [show (t.keepMain (t.main.perform t.world op)).tree.world.mainEnds = [] from
    he.trans ht.mainEnds] at hlull
  exact ⟨hlull.world.outcomes.trans ho, hlull.completedRuns, hlull.lastResult⟩

/-- A move of a service, settled. -/
theorem scored_keepService {v' : Service} {w : World σ} {fault : Option StackError}
    (h : t.world.SameRun root w) (ht : t.Settled)
    (hs : (t.keepService ⟨v', w, fault⟩).tree.Sound) :
    Scored root t (t.keepService ⟨v', w, fault⟩).settle.tree := by
  have hlull : Lull root
      (w.mainEnds.foldl completed (t.keepService ⟨v', w, fault⟩).tree.drained)
      (t.keepService ⟨v', w, fault⟩).settle.tree := settleFrom_lull root none _ hs
  rw [h.ends, ht.mainEnds] at hlull
  have hdrained : t.world.SameRun root (t.keepService ⟨v', w, fault⟩).tree.drained.world :=
    ⟨h.outcomes, ht.mainEnds.symm, h.happenings⟩
  exact .on (hdrained.trans hlull.world.sameRun) hlull.completedRuns hlull.lastResult

/-- What the tree has counted. -/
structure Accounted (root : NodeId) (t : Tree σ) : Prop where
  top : t.root = root
  based : Stack.Based root t.main.nodes
  completedRuns : t.completedRuns = (t.world.outcomes root).length
  lastResult : t.lastResult = (t.world.outcomes root).getLast?

/-- Nothing comes of what is handed to an empty stack. -/
theorem perform_of_empty {label : StackLabel} {phase : Phase} {s : Stack} {op : Stack.Operation}
    (h : call.Hands root label phase s op) (hr : op.rollsBack = false) (hn : s.nodes = [])
    (w : World σ) : (s.perform w op).world = w ∧ (s.perform w op).after.nodes = [] ∧
      (s.perform w op).after.state = s.state ∧ (call.isPhase → (s.perform w op).after = s) := by
  have hsus : s.suspended? = none := by simp [Stack.suspended?, Stack.top?, hn]
  have hreturn : ∀ ok, s.receiveReturn w ok = ⟨s, w, some (.notWaiting s.label s.state)⟩ :=
    fun ok => by simp [Stack.receiveReturn, hsus]
  cases h with
  | hook => simp [Stack.perform, Stack.forwardHook, hsus, hn]
  | deliver hs ok => simp [Stack.perform, hreturn, hn]
  | order h hs ht =>
    cases h with
    | start => exact absurd rfl hs
    | terminate => exact absurd rfl ht
    | breakMain | breakService => cases hr
    | receiveReturn ok => simp [Stack.perform, hreturn, hn]
    | pause | resume | pauseService | resumeService =>
      exact ⟨rfl, hn, rfl, fun hphase => by cases hphase⟩

/-- Only a call that rolls the main stack back does so. -/
theorem rollsBack_of_hands {phase : Phase} {s : Stack} {op : Stack.Operation}
    (h : call.Hands root .main phase s op) (hop : op.rollsBack) : call.rollsBack .main := by
  cases h with
  | hook | deliver => cases hop
  | order h hs ht =>
    cases h with
    | breakMain | terminate => rfl
    | start | receiveReturn | pause | resume => cases hop

theorem hands_not_driven {label : StackLabel} {phase : Phase} {s : Stack} {op : Stack.Operation}
    (h : call.Hands root label phase s op) : op ≠ .run ∧ op ≠ .resumeNextUpdate := by
  cases h with
  | hook | deliver => simp
  | order h => cases h <;> simp

/-- What one round comes to. -/
theorem Round.scored (hr : Round call t t') (ht : t.Settled) (ha : t.Awake)
    (hb : t.Accounted root) : Scored root t t' ∨ call.rollsBack .main ∧ Unscored root t t' := by
  have ht' := hr.settled ht
  have hlabels : ∀ v ∈ t.services, v.stack.label ≠ .main := fun v hv => by
    rw [show v.stack.label = _ from ht.sound.labels v hv]
    exact StackLabel.noConfusion
  have hsame : ∀ {w : World σ}, w.history = t.world.history → w.events = t.world.events →
      t.world.SameRun root w := fun hh he =>
    (World.Calm.of_history hh (by rw [World.mainEnds, World.mainEnds, he])).sameRun
  cases hr with
  | @drive op hphase hrun hp hd =>
    refine .inl (scored_keepMain ?_ ht (ht.sound.keepMain op) ht' fun _ => hrun)
    refine Stack.perform_verdict _ _ ht.sound.main_label hb.based (hb.top ▸ hd.heads) ?_ ?_
    · cases hd <;> rfl
    · have hbusy : t.main.state ≠ .ready → t.main.state ≠ .ended → t.main.nodes ≠ [] :=
        fun hr he hn => (ht.sound.main.of_empty hn).elim hr he
      cases hd with
      | restart | start => simp
      | run h =>
        cases h with
        | run h =>
          rcases h with ⟨-, hn⟩ | h | h
          · exact fun _ => hn
          · exact fun _ => hbusy (by simp [h]) (by simp [h])
          · exact fun _ => hbusy (by simp [h]) (by simp [h])
      | resume h => exact fun _ => hbusy (by simp [h]) (by simp [h])
  | @hand op h =>
    cases hop : op.rollsBack with
    | true => exact .inr ⟨rollsBack_of_hands h hop, unscored_keepMain op ht hop⟩
    | false =>
      have hnot := hands_not_driven h
      refine .inl (scored_keepMain ?_ ht (ht.sound.keepMain op) ht' fun hw =>
        ha.running fun hn => hw ?_)
      · exact Stack.perform_verdict _ _ ht.sound.main_label hb.based
          (fun id hid => absurd hid (hands_heads h id)) hop
          fun hop => hop.elim (absurd · hnot.1) (absurd · hnot.2)
      · exact (perform_of_empty h hop hn t.world).1
  | serve hphase hv h =>
    exact .inl (scored_keepService (h.motions.sameRun (hlabels _ hv)) ht
      ((motions_service ht.sound hv h.motions).sound ht.sound))
  | @handService v op hv h =>
    exact .inl (scored_keepService (v.stack.perform_sameRun t.world op (hlabels v hv)) ht
      ((motions_service ht.sound hv (v.operate_motions _ _ (hands_isStatus h))).sound ht.sound))
  | start =>
    have hstart : ({ t with running := true, endedAt := none } : Tree σ).Settled := ht.fields true none
    have hv : Stack.Verdict root t.world (t.main.restart t.world t.root) := by
      rw [hb.top]
      exact Stack.restart_verdict _ _ ht.sound.main_label
    cases scored_keepMain (t := { t with running := true, endedAt := none }) hv hstart
        (hstart.sound.keepMain (.restart t.root)) ht' fun _ => rfl with
    | on h hr hl => exact .inl (.on h hr hl)
    | ended ok h hr hl hrest => exact .inl (.ended ok h hr hl hrest)
  | terminate hcall =>
    have hended : ({ t with running := false } : Tree σ).Settled := ht.fields false t.endedAt
    have h : Unscored root _ t.ended.settle.tree := unscored_keepMain .terminate hended rfl
    exact .inr ⟨by rw [hcall]; rfl, h.outcomes, h.completedRuns, h.lastResult⟩
  | fire label node value => exact .inl (.on (.trace _ (by decide) (by decide) ..) rfl rfl)
  | report label e => exact .inl (.on (World.Calm.report ..).sameRun rfl rfl)
  | phase | setVariables | config => exact .inl (.on (hsame rfl rfl) rfl rfl)

omit [Node σ] in
theorem Accounted.scored (h : t.Accounted root) (hs : Scored root t t')
    (hroot : t'.root = t.root) (hb : Stack.Based root t'.main.nodes) : t'.Accounted root := by
  refine ⟨hroot.trans h.top, hb, ?_, ?_⟩
  · cases hs with
    | on hw hr hl => rw [hr, hw.outcomes, h.completedRuns]
    | ended ok hw hr hl hrest => rw [hr, hw.outcomes, h.completedRuns, List.length_append]; rfl
  · cases hs with
    | on hw hr hl => rw [hl, hw.outcomes, h.lastResult]
    | ended ok hw hr hl hrest => rw [hl, hw.outcomes, List.getLast?_concat]

theorem Round.based (hr : Round call t t') (ht : t.root = root)
    (hb : Stack.Based root t.main.nodes) : Stack.Based root t'.main.nodes := by
  have hkeep : ∀ {u : Tree σ} {p : Pass σ Stack}, Stack.Based root p.after.nodes →
      Stack.Based root (u.keepMain p).settle.tree.main.nodes := by
    intro u p h
    rw [show (u.keepMain p).settle.tree.main = p.after from main_settle (u.keepMain p).tree]
    exact h
  cases hr with
  | @drive op hc hrun hp hd =>
    exact hkeep ((t.main.perform_made t.world op).acts.based (ht ▸ hd.heads) hb)
  | @hand op h =>
    exact hkeep ((t.main.perform_made t.world op).acts.based
      (fun id hid => absurd hid (hands_heads h id)) hb)
  | start =>
    exact hkeep ((t.main.perform_made t.world (.restart t.root)).acts.based (fun _ h => h.trans ht) hb)
  | terminate =>
    exact hkeep ((t.main.perform_made t.world .terminate).acts.based (fun _ h => h.elim) hb)
  | serve | handService =>
    rw [Outcome.settle, main_settle]
    exact hb
  | fire | report | phase | setVariables | config => exact hb

theorem Round.accounted (hr : Round call t t') (ht : t.Settled) (ha : t.Awake)
    (hb : t.Accounted root) : t'.Accounted root := by
  have hroot := Motions.same_root (hr.motions ht)
  have hbased := hr.based hb.top hb.based
  rcases hr.scored ht ha hb with h | ⟨-, h⟩
  · exact hb.scored h hroot hbased
  · refine ⟨hroot.trans hb.top, hbased, ?_, ?_⟩
    · rw [h.completedRuns, h.outcomes, hb.completedRuns]
    · rw [h.lastResult, h.outcomes, hb.lastResult]

/-! ## A tree that rests -/

/-- The tree rests on, and nothing comes of what is done. -/
structure RestsOn (root : NodeId) (e : Nat) (t t' : Tree σ) : Prop where
  resting : t'.Resting e
  world : t.world.Calm root t'.world
  completedRuns : t'.completedRuns = t.completedRuns
  lastResult : t'.lastResult = t.lastResult

omit [Node σ] in
theorem RestsOn.refl (h : t.Resting e) : RestsOn root e t t := ⟨h, .refl _, rfl, rfl⟩

omit [Node σ] in
theorem RestsOn.trans (h : RestsOn root e t t') (h' : RestsOn root e t' u) :
    RestsOn root e t u :=
  ⟨h'.resting, h.world.trans h'.world, h'.completedRuns.trans h.completedRuns,
    h'.lastResult.trans h.lastResult⟩

omit [Node σ] in
/-- What is recorded does not matter, if it is calm, nor does the clock as it goes on. -/
theorem Resting.world (h : t.Resting e) {w : World σ} (hw : t.world.Calm root w)
    (ht : t.world.tick.number ≤ w.tick.number) : RestsOn root e t { t with world := w } :=
  ⟨⟨h.running, h.state, h.nodes, h.services, h.endedAt, Nat.le_trans h.elapsed ht⟩, hw, rfl, rfl⟩

/-- The settings by which a tree restarts the root, and the clock, which only a phase sets. -/
structure Steady (call : HostCall) (t t' : Tree σ) : Prop where
  settings : call.isPhase → t'.main = t.main ∧ t'.config = t.config
  clock : t'.world.tick = t.world.tick ∨ t'.world.tick.number
    = t.world.tick.number + if t'.world.tick.phase = .update then 1 else 0

/-- As long as the root is not restarted, a tree that rests does so after any round. -/
theorem Resting.round (root : NodeId) (h : t.Resting e) (hr : Round call t t') (ht : t.Settled)
    (hs : call ≠ .start) (hc : call.rollsBack .main = false)
    (hd : call.isPhase → t.restartsAt t.world.tick.phase → t.main.paused) :
    RestsOn root e t t' ∧ Steady call t t' := by
  have hmain : ∀ {v : Service}, v ∉ t.services := by simp [h.services]
  have hworld : ∀ {w : World σ}, t.world.Calm root w → w.tick = t.world.tick →
      RestsOn root e t { t with world := w } ∧ Steady call t { t with world := w } :=
    fun hw htick => ⟨h.world hw (Nat.le_of_eq (congrArg Tick.number htick.symm)),
      fun _ => ⟨rfl, rfl⟩, .inl htick⟩
  cases hr with
  | @drive op hphase hrun hp hdrive =>
    exfalso
    cases hdrive with
    | restart _ hrest => exact absurd (hd hphase hrest) (by simp [hp])
    | start hs => simp [h.state] at hs
    | run hrun =>
      cases hrun with
      | run hrun => simp [h.state] at hrun
    | resume hs => simp [h.state] at hs
  | @hand op hhand =>
    have hop : op.rollsBack = false := by
      cases hop : op.rollsBack with
      | false => rfl
      | true => simp [rollsBack_of_hands hhand hop] at hc
    obtain ⟨hw, hn, hst, hsame⟩ := perform_of_empty hhand hop h.nodes t.world
    generalize t.main.perform t.world op = p at hw hn hst hsame
    obtain ⟨main, w, fault⟩ := p
    cases hw
    have hsettle : (t.keepMain ⟨main, t.world, fault⟩).settle.tree = { t with main } :=
      congrArg Outcome.tree (settle_of_settled (t := { t with main }) ht.settled)
    rw [hsettle]
    exact ⟨⟨⟨h.running, hst.trans h.state, hn, h.services, h.endedAt, h.elapsed⟩, .refl _, rfl,
      rfl⟩, fun hphase => ⟨hsame hphase, rfl⟩, .inl rfl⟩
  | serve _ hv | handService hv => exact absurd hv hmain
  | start hcall => exact absurd hcall hs
  | terminate hcall =>
    rw [hcall] at hc
    cases hc
  | fire label node value => exact hworld (.trace _ (by decide) (by decide) ..) rfl
  | report label err => exact hworld (.report ..) rfl
  | phase _ hnow =>
    exact ⟨h.world (.of_history rfl rfl) (Nat.le_trans (Nat.le_add_right ..) (Nat.le_of_eq hnow.symm)),
      fun _ => ⟨rfl, rfl⟩, .inr hnow⟩
  | setVariables => exact hworld (.of_history rfl rfl) rfl
  | config hcall =>
    refine ⟨⟨⟨h.running, h.state, h.nodes, ?_, h.endedAt, h.elapsed⟩, .refl _, rfl, rfl⟩,
      fun hphase => ?_, .inl rfl⟩
    · simp [withConfig, h.services]
    · rw [hcall] at hphase
      cases hphase

/-! ## What comes of a call -/

/-- Rounds within one tick complete at most one run, and start nothing after that. -/
theorem Rounds.scored (hr : Rounds call t t') (hs : call ≠ .start)
    (hc : call.rollsBack .main = false) (ht : t.Settled) (ha : t.Awake) (hb : t.Accounted root)
    (htick : t'.world.tick.number ≤ t.world.tick.number) : Scored root t t' := by
  induction hr with
  | refl => exact .on (.refl _) rfl rfl
  | @tail u u' hr h ih =>
    have hu := Rounds.settled hr ht
    obtain ⟨hle, hua, hub⟩ : t.world.tick.number ≤ u.world.tick.number ∧ u.Awake ∧
        u.Accounted root := by
      refine Rounds.induction (P := fun u => t.world.tick.number ≤ u.world.tick.number ∧ u.Awake ∧
        u.Accounted root) hr ht ⟨Nat.le_refl _, ha, hb⟩ fun _ _ hu h ⟨hle, ha, hb⟩ => ?_
      exact ⟨Nat.le_trans hle (Motions.tick_le (h.motions hu)), h.awake hu ha, h.accounted hu ha hb⟩
    have hle' := Motions.tick_le (h.motions hu)
    cases ih (Nat.le_trans hle' htick) with
    | on hw hruns hlast =>
      rcases h.scored hu hua hub with hone | ⟨hroll, -⟩
      · cases hone with
        | on hw' hruns' hlast' =>
          exact .on (hw.trans hw') (hruns'.trans hruns) (hlast'.trans hlast)
        | ended ok hw' hruns' hlast' hrest =>
          exact .ended ok (hw.ends_run hw') (by rw [hruns', hruns]) hlast' hrest
      · simp [hc] at hroll
    | ended ok hw hruns hlast hrest =>
      have hd : u.restartsAt u.world.tick.phase → u.main.paused := by
        simp [restartsAt, hrest.endedAt]
      obtain ⟨hon, -⟩ := hrest.round root h hu hs hc fun _ => hd
      have hsame : u'.world.tick.number = u.world.tick.number := by omega
      exact .ended ok (hw.calm hon.world) (hon.completedRuns.trans hruns)
        (hon.lastResult.trans hlast) (hsame ▸ hon.resting)

omit [Node σ] in
theorem Scored.note (h : Scored root t t') (label : StackLabel) (fault first : Option StackError) :
    Scored root t (t'.note label fault first).tree := by
  unfold Tree.note
  split
  · exact h
  next err =>
  have hc : t'.world.Calm root (t'.world.report (.ofFault label err)) := .report ..
  cases h with
  | on h hr hl => exact .on (h.trans hc.sameRun) hr hl
  | ended ok h hr hl hrest =>
    exact .ended ok (h.calm hc) hr hl (hrest.world hc (Nat.le_refl _)).resting

/-- The host puts the root on the main stack itself. -/
theorem start_scored (ht : t.Settled) (ha : t.Awake) (hb : t.Accounted root) :
    Scored root t (t.perform .start) := by
  rcases Round.scored (Round.start t rfl) ht ha hb with h | ⟨h, -⟩
  · exact h.note .main _ none
  · cases h

/-- What a call comes to that is at most one phase and does not roll the main stack back. -/
theorem perform_scored (ht : t.Settled) (ha : t.Awake) (hb : t.Accounted root)
    (hc : call.rollsBack .main = false) (hone : ∀ dt, call ≠ .tick dt) :
    Scored root t (t.perform call) := by
  by_cases hs : call = .start
  · rw [hs]
    exact start_scored ht ha hb
  cases hn : t.now? call with
  | some now =>
    have hphase := isPhase_of_now hn
    have hat := ht.atPhase (number_le_of_now hn)
    have hr : Rounds call (t.atPhase now) (t.perform call) := by
      rw [perform_midway ht hn]
      exact playAll_rounds hat hphase rfl _
    have htick : (t.perform call).world.tick.number ≤ (t.atPhase now).world.tick.number := by
      rw [tick_phase ht call hn]
      exact Nat.le_refl _
    have hcounted : (t.atPhase now).Accounted root :=
      ⟨hb.top, hb.based, hb.completedRuns, hb.lastResult⟩
    -- The clock is not among what is told of the runs.
    cases hr.scored hs hc hat (ha.same rfl rfl) hcounted htick with
    | on h hr hl => exact .on ⟨h.outcomes, h.ends, h.happenings⟩ hr hl
    | ended ok h hr hl hrest => exact .ended ok ⟨h.outcomes, h.happenings⟩ hr hl hrest
  | none =>
    have hphase : call.isPhase = false := by
      cases call <;> first | rfl | (cases hn; done) | exact absurd rfl (hone _)
    obtain ⟨found, hh⟩ := perform_guarded ht.sound call
    exact (perform_rounds ht call).scored hs hc ht ha hb
      (Nat.le_of_eq (congrArg Tick.number (hh.tick hphase)))

omit [Node σ] in
theorem Unscored.note (h : Unscored root t t') (label : StackLabel)
    (fault first : Option StackError) : Unscored root t (t'.note label fault first).tree := by
  unfold Tree.note
  split
  · exact h
  · exact ⟨(World.outcomes_of_traced (World.traced_report ..)).trans h.outcomes, h.completedRuns,
      h.lastResult⟩

/-- A run that the host rolls back is not completed. -/
theorem perform_unscored (ht : t.Settled) (hc : call.rollsBack .main) :
    Unscored root t (t.perform call) := by
  cases call with
  | breakMain stopAt => exact (unscored_keepMain (.breakTo stopAt) ht rfl).note .main _ none
  | terminate =>
    have hended : ({ t with running := false } : Tree σ).Settled := ht.fields false t.endedAt
    have h : Unscored root _ t.ended.settle.tree := unscored_keepMain .terminate hended rfl
    rw [show t.perform .terminate = t.terminate.tree from rfl,
      terminate_eq_ended ht.sound ht.orderly]
    exact ⟨h.outcomes, h.completedRuns, h.lastResult⟩
  | _ => simp [HostCall.rollsBack] at hc

/-! ## Until the root is restarted -/

/-- The call is an update in which the tree is to restart a root that has ended. -/
def Restarts (t : Tree σ) (call : HostCall) : Prop :=
  ∃ now, t.now? call = some now ∧ now.phase = .update ∧ t.config.restartOnEnd ∧
    t.main.paused = false

/-- A tree rests on in every call but one in which it restarts the root. -/
theorem Resting.perform (h : t.Resting e) (ht : t.Settled) (hc : call.letsRest)
    (hn : ¬t.Restarts call) : RestsOn root e t (t.perform call) := by
  have hs : call ≠ .start := by rintro rfl; cases hc
  have hback : call.rollsBack .main = false := by
    cases call <;> first | rfl | cases hc
  cases hnow : t.now? call with
  | none =>
    have hphase : call.isPhase = false := by
      cases call <;> first | rfl | (cases hnow; done) | cases hc
    exact (perform_rounds ht call).induction ht (.refl h) fun u u' hu hr hon =>
      hon.trans (hon.resting.round root hr hu hs hback (by simp [hphase])).1
  | some now =>
    have hphase := isPhase_of_now hnow
    have hat := ht.atPhase (number_le_of_now hnow)
    have hr : Rounds call (t.atPhase now) (t.perform call) := by
      rw [perform_midway ht hnow]
      exact playAll_rounds hat hphase rfl _
    have hstart : RestsOn root e t (t.atPhase now) :=
      h.world (.of_history rfl rfl) (number_le_of_now hnow)
    -- In the tick of the phase the clock can only go on to phases that are no update.
    have hall : ∀ u, Rounds call (t.atPhase now) u → u.world.tick.number ≤ now.number →
        RestsOn root e t u ∧ u.main = t.main ∧ u.config = t.config ∧
          u.world.tick.number = now.number ∧ (u.world.tick.phase = .update → now.phase = .update) := by
      intro u hr
      induction hr with
      | refl => exact fun _ => ⟨hstart, rfl, rfl, rfl, id⟩
      | @tail u u' hr hround ih =>
        intro hle
        have hu := Rounds.settled hr hat
        have hle' := Motions.tick_le (hround.motions hu)
        obtain ⟨hon, hmain, hconfig, hnumber, hupdate⟩ := ih (Nat.le_trans hle' hle)
        have hd : u.restartsAt u.world.tick.phase → u.main.paused := by
          intro hrest
          simp only [restartsAt, Bool.and_eq_true, decide_eq_true_eq] at hrest
          by_contra hp
          exact hn ⟨now, hnow, hupdate hrest.1.1, hconfig ▸ hrest.1.2, by simpa [← hmain] using hp⟩
        obtain ⟨hon', hsteady⟩ := hon.resting.round root hround hu hs hback fun _ => hd
        obtain ⟨hmain', hconfig'⟩ := hsteady.settings hphase
        refine ⟨hon.trans hon', hmain'.trans hmain, hconfig'.trans hconfig, by omega, fun hup => ?_⟩
        rcases hsteady.clock with hclock | hclock
        · exact hupdate (hclock ▸ hup)
        · rw [if_pos hup] at hclock
          omega
    exact (hall _ hr (Nat.le_of_eq (congrArg Tick.number (tick_phase ht call hnow)))).1

/-- Until the first call in which the tree restarts the root it rests on. -/
theorem Resting.performAll (h : t.Resting e) (ht : t.Settled) (later : List HostCall)
    (hc : ∀ call ∈ later, call.letsRest)
    (hn : ∀ earlier call more, later = earlier ++ call :: more →
      ¬(t.performAll earlier).Restarts call) : RestsOn root e t (t.performAll later) := by
  induction later generalizing t with
  | nil => exact .refl h
  | cons call rest ih =>
    have hone : RestsOn root e t (t.perform call) :=
      h.perform ht (hc call List.mem_cons_self) (hn [] call rest rfl)
    exact hone.trans (ih hone.resting ((perform_rounds ht call).settled ht)
      (fun c hm => hc c (List.mem_cons_of_mem call hm))
      fun earlier c more he => hn (call :: earlier) c more (congrArg (call :: ·) he))

/-- No end that is due finds a stack that is suspended. -/
theorem Resting.fires (h : t.Resting e) (phase : Phase) (tasks : List DeferredTask) :
    ∃ w : World σ, (playAll phase (tasks.map .fire) t).1 = { t with world := w } ∧
      w.happenings = t.world.happenings ∧ w.graph = t.world.graph := by
  induction tasks generalizing t with
  | nil => exact ⟨t.world, rfl, rfl, rfl⟩
  | cons task rest ih =>
    have hidle : t.main.isWaitingOn task.progress.node = false := by
      simp [Stack.isWaitingOn, Stack.isWaiting, StackState.isWaiting, h.state]
    have hdeliver : t.deliver task.progress task.success = none := by
      simp [deliver, hidle, h.services]
    have hfire : ((Part.fire task).play phase ⟨t, none⟩).tree
        = { t with world := t.world.trace "bt.deferred.fire" .main task.progress.node 0 } := by
      simp [Part.play, fire, hdeliver]
    have hcalm : t.world.Calm task.progress.node
        (t.world.trace "bt.deferred.fire" .main task.progress.node 0) :=
      .trace _ (by decide) (by decide) ..
    obtain ⟨w, hw, hh, hg⟩ := ih (h.world hcalm (Nat.le_refl _)).resting
    refine ⟨w, ?_, hh.trans (World.happenings_trace _ (by decide) ..), hg⟩
    rw [List.map_cons, playAll, hfire]
    exact hw

/-- The restart is the first thing that happens in the update, and the tick is a later one. -/
theorem Resting.restarts (h : t.Resting e) (ht : t.Settled) (hg : t.world.graph.contains t.root)
    (hr : t.Restarts call) : ∃ now more, t.now? call = some now ∧ e < now.number ∧
      (t.perform call).world.happenings
        = t.world.happenings ++ .entered .main t.root :: more := by
  obtain ⟨now, hn, hupdate, hconfig, hpaused⟩ := hr
  have hlater : e < now.number := by
    cases call with
    | update dt =>
      cases hn
      exact Nat.lt_succ_of_le h.elapsed
    | _ => cases hn <;> cases hupdate
  have hat : RestsOn t.root e t (t.atPhase now) := h.world (.of_history rfl rfl) (number_le_of_now hn)
  obtain ⟨w, hfires, hh, hsame⟩ := hat.resting.fires now.phase (t.due now)
  let x := t.midway now ((t.due now).map .fire)
  obtain ⟨hmain, hrun, hset, hend, hroot, hw⟩ : x.main = t.main ∧ x.running = t.running ∧
      x.config = t.config ∧ x.endedAt = t.endedAt ∧ x.root = t.root ∧ x.world = w := by
    rw [show x = { t.atPhase now with world := w } from hfires]
    exact ⟨rfl, rfl, rfl, rfl, rfl, rfl⟩
  have hxs : x.Settled := (rounds_midway ht hn _).settled ht
  have htick : x.world.tick = now := tick_midway ht hn _
  obtain ⟨more, hmore⟩ : ∃ more, (x.main.restart x.world x.root).world.happenings
      = t.world.happenings ++ .entered .main t.root :: more := by
    obtain ⟨more, hmore⟩ := Stack.restart_enters (w := x.world) (hmain ▸ h.state) (hmain ▸ h.nodes)
      hxs.sound.main.current (show x.world.graph.contains x.root by rw [hw, hsame, hroot]; exact hg)
    refine ⟨more, hmore.trans ?_⟩
    rw [hxs.sound.main_label, hroot, hw, hh]
    rfl
  have hadvance : x.advanceMain now.phase = x.keepMain (x.main.restart x.world x.root) := by
    have hrestart : x.restartsAt now.phase := by
      simp [restartsAt, hupdate, htick, hset, hconfig, hend, h.endedAt, hlater]
    simp [advanceMain, hmain, h.state, hrestart]
  have hplay : (x.keepMain (x.main.restart x.world x.root)).tree.Reaches
      (t.midway now ((t.due now).map .fire ++ [.main])) := by
    rw [midway_snoc]
    exact (reaches_driveMain (hrun.trans h.running) (hmain ▸ hpaused) hadvance).trans
      (note_reaches ..)
  have hrest : Rounds call (t.midway now ((t.due now).map .fire ++ [.main])) (t.perform call) := by
    have hphase := isPhase_of_now hn
    have hall : t.perform call = (playAll now.phase _ (t.midway now _)).1 :=
      (perform_midway ht hn).trans (playAll_append ..)
    rw [hall]
    exact playAll_rounds ((rounds_midway ht hn _).settled ht) hphase
      (congrArg Tick.phase (tick_midway ht hn _)) _
  have hwrites : (x.main.restart x.world x.root).world.Writes (t.perform call).world := by
    refine (Motions.writes (hplay.motions (hxs.sound.keepMain (.restart x.root)))).trans ?_
    exact Motions.writes (Rounds.motions hrest ((rounds_midway ht hn _).settled ht))
  obtain ⟨later, hl⟩ := hwrites.happenings
  refine ⟨now, more ++ later, hn, hlater, ?_⟩
  rw [← hl, hmore, List.append_assoc, List.cons_append]

/-! ## Any calls -/

omit [Node σ] in
theorem accounted_make {g : Graph σ} {b : Blackboard} (h : make g root b = .ok t) :
    t.Accounted root := by
  obtain ⟨-, rfl⟩ := make_ok h
  exact ⟨rfl, ⟨List.nodup_nil, by simp⟩, rfl, rfl⟩

theorem performAll_accounted (ht : t.Settled) (ha : t.Awake) (hb : t.Accounted root)
    (calls : List HostCall) : (t.performAll calls).Accounted root :=
  (rounds_induction (P := fun t => t.Awake ∧ t.Accounted root) ht ⟨ha, hb⟩
    (fun _ _ _ hu hr h => ⟨hr.awake hu h.1, hr.accounted hu h.1 h.2⟩) calls).2

/-- Whatever the host has called: the tree has counted the runs of the root that were completed,
and has the outcome of the last one. A call that does not roll the main stack back counts one run
if the root leaves the main stack in it, and none if not; one that does so counts none. And from
the tick in which a run was completed the tree rests, with nothing executed, for as long as the
host leaves it to itself, until the first update that is to restart the root; that is an update of
a later tick, and it begins with the restart. -/
theorem runs_accounted {g : Graph σ} {b : Blackboard} (hm : make g root b = .ok t)
    (calls : List HostCall) :
    let u := t.performAll calls
    t.performAll (calls.flatMap HostCall.phases) = u ∧
    u.completedRuns = (u.world.outcomes root).length ∧
    u.lastResult = (u.world.outcomes root).getLast? ∧
    (∀ call, call.rollsBack .main → Unscored root u (u.perform call)) ∧
    (∀ call, call.rollsBack .main = false → (∀ dt, call ≠ .tick dt) →
      Scored root u (u.perform call)) ∧
    ∀ e, u.Resting e → ∀ later, (∀ call ∈ later, call.letsRest) →
      (∀ earlier call more, later = earlier ++ call :: more →
        ¬(u.performAll earlier).Restarts call) →
      RestsOn root e u (u.performAll later) ∧
      ∀ call, (u.performAll later).Restarts call → ∃ now more,
        (u.performAll later).now? call = some now ∧ e < now.number ∧
        ((u.performAll later).perform call).world.happenings
          = (u.performAll later).world.happenings ++ .entered .main root :: more := by
  have hmade := settled_make hm
  have hu := performAll_settled hmade calls
  have hawake := performAll_awake hmade (awake_make hm) calls
  have haccount := performAll_accounted hmade (awake_make hm) (accounted_make hm) calls
  refine ⟨performAll_phases t calls, haccount.completedRuns, haccount.lastResult,
    fun call hc => perform_unscored hu hc,
    fun call hc hone => perform_scored hu hawake haccount hc hone,
    fun e he later hc hn => ?_⟩
  have hon : RestsOn root e (t.performAll calls) ((t.performAll calls).performAll later) :=
    he.performAll hu later hc hn
  refine ⟨hon, fun call hr => ?_⟩
  have hrooted := performAll_rooted hm (calls ++ later)
  rw [performAll_append] at hrooted
  have hmem : ((t.performAll calls).performAll later).world.graph.contains
      ((t.performAll calls).performAll later).root := by
    rw [hrooted.grown.contains, hrooted.root]
    exact (Graph.faults_of_validate (make_ok hm).1).1
  have hre := hon.resting.restarts (performAll_settled hu later) hmem hr
  rwa [hrooted.root] at hre

section Sprinting

/-- Succeeds at once. -/
def sprinting : Graph Scripted where
  slots := #[
    { name := "Sprinter", node := { name := "Sprinter", execute := [{ answer := some .success }] } }]

/-- The run that the host starts is completed at once. The host pauses the stack for an update, and
the one after that starts the next run. -/
theorem runs_accounted_sprinting :
    ∃ t u, make sprinting ⟨0⟩ {} = .ok t ∧ t.performAll [.start] = u ∧
      u.completedRuns = (u.world.outcomes ⟨0⟩).length ∧ u.completedRuns = 1 ∧
      u.lastResult = some true ∧
      RestsOn ⟨0⟩ 0 u (u.performAll [.pause, .update 0, .resume]) ∧
      ∃ more, ((u.performAll [.pause, .update 0, .resume]).perform (.update 0)).world.happenings
        = (u.performAll [.pause, .update 0, .resume]).world.happenings
          ++ .entered .main ⟨0⟩ :: more := by
  obtain ⟨t, u, hm, hu, hruns, hlast, hrest, hfirst, hsecond⟩ :
      ∃ t u, make sprinting ⟨0⟩ {} = .ok t ∧ t.performAll [.start] = u ∧ u.completedRuns = 1 ∧
        u.lastResult = some true ∧ u.Resting 0 ∧ (u.performAll [.pause]).main.paused = true ∧
        ((u.performAll [.pause, .update 0, .resume]).config.restartOnEnd = true ∧
          (u.performAll [.pause, .update 0, .resume]).main.paused = false) :=
    ⟨_, _, rfl, rfl, by decide +kernel, by decide +kernel,
      ⟨by decide +kernel, by decide +kernel, by decide +kernel, by decide +kernel,
        by decide +kernel, by decide +kernel⟩,
      by decide +kernel, by decide +kernel⟩
  obtain ⟨-, hcount, -, -, -, hlater⟩ := runs_accounted hm [.start]
  rw [hu] at hcount hlater
  obtain ⟨hon, hnext⟩ := hlater 0 hrest [.pause, .update 0, .resume] (by decide) (by
    rintro (_ | ⟨_, _ | ⟨_, _ | ⟨_, earlier⟩⟩⟩) call more he ⟨now, hn, -, -, hp⟩
    all_goals simp only [List.nil_append, List.cons_append, List.cons.injEq] at he
    · obtain ⟨rfl, -⟩ := he
      cases hn
    · obtain ⟨rfl, -⟩ := he
      rw [hfirst] at hp
      cases hp
    · obtain ⟨-, -, rfl, -⟩ := he
      cases hn
    · simp at he)
  obtain ⟨now, more, -, -, hmore⟩ := hnext (.update 0) ⟨_, rfl, rfl, hsecond⟩
  exact ⟨t, u, hm, hu, hcount, hruns, hlast, hon, more, hmore⟩

end Sprinting

end Tree

end BehaviorTree
