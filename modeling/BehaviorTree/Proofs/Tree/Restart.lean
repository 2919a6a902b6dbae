/-
Starting over.

A tree that was ended is started again: it is as if the tree were made anew, with the
configuration and the variables that it has by then, and had seen the same phases pass. Nothing
that its nodes remember of earlier runs, however these came to an end, is ever noticed. What the
tree as a whole tells of its past goes on: tokens and completed runs are counted on, and the
outcome of the last completed run is that of an earlier one until another run is completed.
-/
import BehaviorTree.Proofs.Library.Forgetful
import BehaviorTree.Proofs.Stack.Settings
import BehaviorTree.Proofs.Tree.Afresh
import BehaviorTree.Proofs.Tree.Deferred
import BehaviorTree.Proofs.Tree.Lives
import BehaviorTree.Proofs.Tree.Shutdown

namespace BehaviorTree

variable {σ : Type}

/-- What is past once the tree goes on. -/
def Tree.past (t : Tree σ) : Past where
  count id := ((t.world.graph.slot? id).map (·.activation)).getD 0
  bound id := ((t.world.graph.slot? id).map (·.bound)).getD false
  history := t.world.history
  runs := t.completedRuns
  result := t.lastResult

variable [Node σ]

/-- What a call makes of the clock. -/
def HostCall.clock (now : Tick) : HostCall → Tick
  | .update dt => { number := now.number + 1, dt, phase := .update }
  | .fixedUpdate dt => { number := now.number, dt, phase := .fixedUpdate }
  | .lateUpdate dt => { number := now.number, dt, phase := .lateUpdate }
  | .tick dt => { number := now.number + 1, dt, phase := .lateUpdate }
  | _ => now

namespace Tree

variable {t u : Tree σ} {g : Graph σ} {root : NodeId} {b : Blackboard}

/-! ## The clock -/

theorem tick_runPhase (ht : t.Sound) {now : Tick} (h : t.world.tick.number ≤ now.number) :
    (t.runPhase now).tree.world.tick = now := by
  have hfired := fired_follows .start ht h
  obtain ⟨found, hr, -⟩ :=
    hfired.trans (driveAll_follows .start (hfired.sound (sound_atPhase ht h)) now.phase)
  rw [runPhase_eq]
  exact hr.tick rfl

omit [Node σ] in
/-- A call that is one phase sets the clock to the moment of that. -/
theorem clock_of_now {call : HostCall} {now : Tick} (h : t.now? call = some now) :
    call.clock t.world.tick = now := by
  cases call <;> cases h <;> rfl

/-- Only the phases set the clock. -/
theorem tick_perform (ht : t.Sound) {call : HostCall} (hc : ∀ dt, call ≠ .tick dt) :
    (t.perform call).world.tick = call.clock t.world.tick := by
  cases hn : t.now? call with
  | some now => rw [perform_of_now hn, tick_runPhase ht (number_le_of_now hn), clock_of_now hn]
  | none =>
    have hphase : call.isPhase = false ∧ call.clock t.world.tick = t.world.tick := by
      cases call <;> first | exact ⟨rfl, rfl⟩ | (cases hn; done) | exact absurd rfl (hc _)
    obtain ⟨found, hr⟩ := perform_guarded ht call
    exact (hr.tick hphase.1).trans hphase.2.symm

omit [Node σ] in
/-- A tick sets the clock as its phases do, one after the other. -/
theorem foldl_clock_phases (calls : List HostCall) (now : Tick) :
    (calls.flatMap HostCall.phases).foldl HostCall.clock now
      = calls.foldl HostCall.clock now := by
  induction calls generalizing now with
  | nil => rfl
  | cons call later ih =>
    rw [List.flatMap_cons, List.foldl_append, List.foldl_cons, ih]
    cases call <;> rfl

theorem tick_performAll (ht : t.Sound) (calls : List HostCall) :
    (t.performAll calls).world.tick = calls.foldl HostCall.clock t.world.tick := by
  have hone : ∀ call ∈ calls.flatMap HostCall.phases, ∀ dt, call ≠ .tick dt :=
    fun _ hm => ne_tick_of_mem_phases hm
  rw [← performAll_phases, ← foldl_clock_phases]
  generalize calls.flatMap HostCall.phases = calls at hone
  induction calls generalizing t with
  | nil => rfl
  | cons call later ih =>
    rw [List.foldl_cons, ← tick_perform ht (hone call List.mem_cons_self)]
    exact ih (performAll_sound ht [call]) fun c hm => hone c (List.mem_cons_of_mem _ hm)

omit [Node σ] in
theorem foldl_clock_isPhase (calls : List HostCall) (now : Tick) :
    (calls.filter HostCall.isPhase).foldl HostCall.clock now
      = calls.foldl HostCall.clock now := by
  induction calls generalizing now with
  | nil => rfl
  | cons call later ih => cases call <;> exact ih _

/-- An idle tree without any tasks does nothing in a phase but set the clock. -/
theorem Idle.performAll_clock (h : t.Idle) (hs : t.world.schedule = {}) (calls : List HostCall) :
    t.performAll (calls.filter HostCall.isPhase)
      = { t with world := { t.world with tick := calls.foldl HostCall.clock t.world.tick } } := by
  have hphase : ∀ call ∈ (calls.filter HostCall.isPhase).flatMap HostCall.phases, ∀ t : Tree σ,
      ∃ now, t.now? call = some now := by
    intro call hm t
    obtain ⟨whole, hw, hm⟩ := List.mem_flatMap.1 hm
    have hw := (List.mem_filter.1 hw).2
    cases whole <;> simp [HostCall.isPhase] at hw <;> simp [HostCall.phases] at hm
    · subst hm
      exact ⟨_, rfl⟩
    · subst hm
      exact ⟨_, rfl⟩
    · subst hm
      exact ⟨_, rfl⟩
    · rcases hm with rfl | rfl | rfl <;> exact ⟨_, rfl⟩
  rw [← performAll_phases, ← foldl_clock_isPhase, ← foldl_clock_phases]
  generalize (calls.filter HostCall.isPhase).flatMap HostCall.phases = calls at hphase
  induction calls generalizing t with
  | nil => rfl
  | cons call later ih =>
    obtain ⟨now, hn⟩ := hphase call List.mem_cons_self t
    have hstep : t.perform call = { t with world := { t.world with tick := now } } := by
      rw [perform_of_now hn, h.runPhase]
      simp [Tree.atPhase, World.takeDue, Schedule.takeDue, Schedule.pending, hs]
    have hcall : call ≠ .start := by
      rintro rfl
      cases hn
    have hidle := (h.perform hcall).idle
    show (t.perform call).performAll later = _
    rw [List.foldl_cons, clock_of_now hn, ih hidle (by rw [hstep]; exact hs) fun c hm =>
      hphase c (List.mem_cons_of_mem _ hm), hstep]

/-! ## The settings of the main stack -/

/-- The main stack goes by the configuration of the tree. -/
def Configured (t : Tree σ) : Prop :=
  t.main.settings = (t.config.pauseAfterSingleExecution, t.config.maxStepsPerPass)

theorem Step.configured {call : HostCall} {t' : Tree σ} {found : List Breach}
    (h : Step call t found t') (ht : t.Configured) : t'.Configured := by
  cases h with
  | @main op h =>
    have hop : ∀ config, op ≠ .applyConfig config := by
      rintro config rfl
      rcases h with h | h <;> cases h
    exact (t.main.perform_settings t.world hop).trans ht
  | @register owner s _ =>
    unfold registerService
    split
    · exact ht
    · exact ht
  | unregister owner s =>
    unfold unregisterService
    split
    · exact ht
    · exact ht
  | config => rfl
  | service | tearDown | take | trace | clock | due | setVariables | fields => exact ht

theorem Runs.configured {call : HostCall} {t' : Tree σ} {found told : List Breach}
    (h : Runs call t found told t') (ht : t.Configured) : t'.Configured := by
  induction h with
  | refl => exact ht
  | step _ hs ih => exact hs.configured ih
  | report _ _ ih => exact ih

theorem performAll_configured (ht : t.Sound) (hc : t.Configured) (calls : List HostCall) :
    (t.performAll calls).Configured :=
  (performAll_induction (P := Configured) ht hc (fun _ _ _ _ _ hr hc => hr.configured hc) calls).2

end Tree

/-- Of a stack that is ended only its settings are left. -/
theorem Stack.terminate_after {s : Stack} {w : World σ} (h : ∀ n ∈ s.nodes, w.graph.contains n) :
    (s.terminate w).after =
      { label := s.label
        state := .ended
        pauseAfterSingleExecution := s.settings.1
        stepBudget := s.settings.2 } := by
  obtain ⟨w', hu⟩ := unwind_all s.label h
  simp [Stack.terminate, Stack.breakTo, hu, Stack.settings]

/-! ## Ended trees and new ones -/

namespace Tree

/-- A tree over the graph `g` that is not started yet, at the same time as the tree `t`, with its
configuration and its variables. -/
def anew (t : Tree σ) (g : Graph σ) : Tree σ where
  root := t.root
  config := t.config
  world := { graph := g, blackboard := t.world.blackboard, tick := t.world.tick }
  main := Stack.applyConfig { label := .main } t.config

/-- The tree over the nodes of `g` was ended. Of its runs nothing is left but what the nodes
remember. -/
structure Over (g : Graph σ) (t : Tree σ) : Prop where
  grown : g.Grown t.world.graph
  main : t.main = { Stack.applyConfig { label := .main } t.config with state := .ended }
  services : t.services = []
  pending : t.world.schedule.pending = []
  observers : ∀ n, t.world.observers n = []
  settled : t.world.events = {}

variable {t u : Tree σ} {g : Graph σ} {root : NodeId} {b : Blackboard} {calls : List HostCall}

/-- The end of a tree leaves its main stack with the settings of the configuration alone. -/
theorem main_terminate (ht : t.Sound) (hd : t.ShutDown t.terminate) (hc : t.Configured) :
    t.terminate.tree.main =
      { Stack.applyConfig { label := .main } t.terminate.tree.config with state := .ended } := by
  have hmain : t.terminate.tree.main = (t.main.terminate t.world).after := by
    rw [hd.settled]
    exact main_settleFrom ..
  rw [Stack.terminate_after ht.main.known, ht.main_label] at hmain
  obtain ⟨found, hr⟩ := perform_runs ht .terminate
  have hset : t.terminate.tree.Configured := hr.configured hc
  rw [Configured, hmain] at hset
  rw [hmain, show t.main.settings = _ from hset]
  rfl

theorem performAll_rooted (hm : make g root b = .ok t) (calls : List HostCall) :
    Rooted g root (t.performAll calls) :=
  (performAll_induction (P := Rooted g root) (sound_make hm) (rooted_make hm)
    (fun _ _ _ _ _ hr ht => hr.rooted ht) calls).2

/-- To end the tree is one call more. -/
theorem terminate_performAll (t : Tree σ) (calls : List HostCall) :
    (t.performAll calls).terminate.tree = t.performAll (calls ++ [.terminate]) :=
  (performAll_append t calls [.terminate]).symm

theorem over_terminate (hb : g.Built) (hm : make g root b = .ok t) (calls : List HostCall) :
    (t.performAll calls).terminate.tree.Over g := by
  have hs := sound_make hm
  have ht := performAll_sound hs calls
  obtain ⟨ho, hq⟩ := performAll_orderly hm calls
  have hd := (performAll_engagedActive hs (engagedActive_make hb hm) calls).shutDown ht ho hq
  have hc : t.Configured := by
    obtain ⟨-, rfl⟩ := make_ok hm
    rfl
  have hmain := main_terminate ht hd (performAll_configured hs hc calls)
  have hr := performAll_rooted hm (calls ++ [.terminate])
  obtain ⟨-, hsettled⟩ := performAll_orderly hm (calls ++ [.terminate])
  rw [← terminate_performAll] at hr hsettled
  exact ⟨hr.grown, hmain, hd.services, hd.pending, hd.observers, Queue.eq_empty hsettled⟩

/-- To make the tree anew and let it see the same phases. -/
theorem exists_anew (hm : make g root b = .ok t) (calls : List HostCall) :
    let old := (t.performAll calls).terminate.tree
    ∃ new, make g root old.world.blackboard = .ok new ∧
      (new.withConfig old.config).performAll (calls.filter HostCall.isPhase) = old.anew g := by
  have hroot := (performAll_rooted hm (calls ++ [.terminate])).root
  have htick := tick_performAll (sound_make hm) (calls ++ [.terminate])
  rw [← terminate_performAll] at hroot htick
  rw [List.foldl_append] at htick
  obtain ⟨hv, rfl⟩ := make_ok hm
  intro old
  refine ⟨_, by unfold make; rw [hv], ?_⟩
  rw [Idle.performAll_clock ⟨rfl, rfl, rfl, rfl, rfl⟩ rfl]
  unfold anew
  rw [show old.root = root from hroot, show old.world.tick = _ from htick]
  rfl

/-- The world of a tree that is over is the new one, with a past. -/
theorem Over.afresh (h : t.Over g) (hb : g.Built) :
    t.world.Afresh t.past (t.anew g).world where
  slot id := by
    have hg := h.grown id
    have hp := hb.progress_eq id
    have ho := h.observers id
    rw [World.observers] at ho
    unfold past
    simp only
    generalize t.world.graph.slot? id = x at hg ho ⊢
    have he : (t.anew g).world.graph.slot? id = g.slot? id := rfl
    rw [he]
    generalize g.slot? id = y at hg hp ⊢
    cases hg with
    | none => exact .none
    | some hs =>
      obtain ⟨hbound, hcount, hobs⟩ : _ = false ∧ _ = 0 ∧ _ = [] := by
        simpa [Graph.progress] using hp
      exact .some ⟨hs.name, hs.services, by simp [hbound], by simp [hcount], ho.trans hobs.symm⟩
  blackboard := rfl
  tick := rfl
  pending := h.pending
  events := h.settled
  history := rfl

variable [Node.Forgetful σ]

/-- The nodes of a graph that was just built stem from themselves, whatever the variables. -/
theorem stems_of_built {w : World σ} (hb : w.graph.Built)
    (hf : ∀ id slot, w.graph.slot? id = some slot → Node.Forgetful.Fair slot.node) :
    w.Stems w.graph := by
  intro id slot hs
  have hbound : slot.bound = false := by simpa [hs] using hb.unbound id
  refine ⟨slot, hs, ?_⟩
  rw [World.life, hbound]
  exact .beginning (hf id slot hs) w.blackboard

/-- To start a tree that is over comes to the same as to start the new one. -/
theorem Over.start_renews (h : t.Over g) (hb : g.Built) (ht : t.world.Stems g)
    (hf : ∀ id slot, g.slot? id = some slot → Node.Forgetful.Fair slot.node) :
    t.start.Renews g t.past (t.anew g).start := by
  have hrestart : t.start
      = start { t with main := (t.anew g).main, running := false, endedAt := none } := by
    unfold start Stack.restart
    rw [h.main]
    rfl
  rw [hrestart]
  have hworld := h.afresh hb
  have hagrees : (t.anew g).main.Agrees t.world (t.anew g).world := by
    rintro n (hn | ⟨hn, -⟩) <;> cases hn
  exact Tree.start_renews
    { afresh := ⟨rfl, rfl, rfl, h.services, rfl, rfl, (Nat.zero_add _).symm, rfl, hworld⟩
      world := ⟨ht, stems_of_built hb hf, hworld⟩
      main := hagrees
      services := by simp [anew]
      serving := by simp [anew] }

/-! ## Starting over -/

/-- The tree `t` is the tree `u` with the past `p`, and each call answers the same in both. -/
structure Mirrors (p : Past) (t u : Tree σ) : Prop where
  afresh : t.Afresh p u
  answer : ∀ call : HostCall, t.answer (call.after p.count) = u.answer call
  /-- Whether a token was good is answered the same, where it is counted on. -/
  endAction : ∀ q ok, (t.endAction (q.after p.count) ok).2 = (u.endAction q ok).2
  endNode : ∀ node ok, (t.endNode node ok).2 = (u.endNode node ok).2

theorem Renews.mirrors {p : Past} (h : t.Renews g p u) : t.Mirrors p u :=
  ⟨h.afresh, answer_renews h, fun q ok => (endAction_renews h q ok).2,
    fun node ok => (endNode_renews h node ok).2⟩

theorem stems_terminate (hb : g.Built) (hm : make g root b = .ok t)
    (hf : ∀ id slot, g.slot? id = some slot → Node.Forgetful.Fair slot.node)
    (hc : t.EditsOnly calls) : (t.performAll calls).terminate.tree.world.Stems g := by
  have hs := sound_make hm
  have hlast := World.stems_lasting g
  have hstems : t.world.Stems g := by
    obtain ⟨-, rfl⟩ := make_ok hm
    exact stems_of_built hb hf
  have hlive := performAll_living hs hlast (by simp) hstems hc
  obtain ⟨found, hrun⟩ := perform_runs (performAll_sound hs calls) .terminate
  exact hrun.living hlast (by simp) nofun hlive

section Library

variable {π α : Type} [Predicate π] [Action α]

/-- Restarting leaves no residue. A tree of library nodes, whose predicates and actions are
stateless, is ended after any calls. A tree that is made anew over the same graph, gets the
configuration and the variables that the old one has by then, and sees the same phases, does as
the old one from the next start on, whatever the host calls. -/
theorem restart_mirrors {g : Graph (LibraryNode π α)} {t : Tree (LibraryNode π α)}
    {b : Blackboard} (hb : g.Built) (hm : make g root b = .ok t)
    (hf : ∀ id slot leaf, g.slot? id = some slot → slot.node = .leaf leaf → leaf.Stateless)
    {calls : List HostCall} (hc : t.EditsOnly calls) :
    let old := (t.performAll calls).terminate.tree
    ∃ new, make g root old.world.blackboard = .ok new ∧
      let fresh := (new.withConfig old.config).performAll (calls.filter HostCall.isPhase)
      old.answer .start = fresh.answer .start ∧
        ∀ later : List HostCall, fresh.EditsOnly (.start :: later) →
          (old.performAll (.start :: later.map (HostCall.after old.past.count))).Mirrors old.past
            (fresh.performAll (.start :: later)) := by
  intro old
  have hfair : ∀ id slot, g.slot? id = some slot → Node.Forgetful.Fair slot.node :=
    fun id slot hs => LibraryNode.fair fun leaf hl => hf id slot leaf hs hl
  obtain ⟨new, hnew, hfresh⟩ := exists_anew hm calls
  have hstart := (over_terminate hb hm calls).start_renews hb (stems_terminate hb hm hfair hc) hfair
  refine ⟨new, hnew, ?_⟩
  intro fresh
  rw [show fresh = old.anew g from hfresh]
  exact ⟨congrArg (Option.map TreeError.stack) hstart.fault,
    fun later hlater => (performAll_renews hstart.tree hlater.2).mirrors⟩

/-- A sequence with a beacon beside it. -/
def watch : Graph (LibraryNode Question Plays) where
  slots := #[
    { name := "light", node := .leaf .idle, parent := some ⟨1⟩ },
    { name := "beacon", node := .background (.parallel { subtree := ⟨0⟩ }), owner := some ⟨4⟩ },
    { name := "first", node := .leaf (.action waiting), parent := some ⟨4⟩ },
    { name := "second", node := .leaf (.action waiting), parent := some ⟨4⟩ },
    { name := "watch", node := .flow (.sequence { children := [⟨2⟩, ⟨3⟩] }), services := [⟨1⟩] }]

theorem built_watch : watch.Built :=
  .attach (.add (.add (.add (.add (.add .empty "light" (.leaf .idle))
    "beacon" (.background (.parallel { subtree := ⟨0⟩ })))
    "first" (.leaf (.action waiting)))
    "second" (.leaf (.action waiting)))
    "watch" (.flow (.sequence { children := [⟨2⟩, ⟨3⟩] }))) ⟨4⟩ ⟨1⟩ rfl

theorem stateless_waiting : Action.Stateless waiting :=
  ⟨fun _ => rfl, fun _ => .refl _, fun _ _ => rfl⟩

/-- The sequence is at its second child when it is ended, and at its first one again once it is
restarted. The first token that its first child can hand out then is the second one in all. -/
theorem restart_mirrors_watch :
    let calls : List HostCall := [.start, .update 0, .receiveReturn true]
    ∃ t new, make watch ⟨4⟩ {} = .ok t ∧ (t.performAll calls).main.nodes = [⟨3⟩, ⟨4⟩] ∧
      let old := (t.performAll calls).terminate.tree
      make watch ⟨4⟩ old.world.blackboard = .ok new ∧
        let fresh := (new.withConfig old.config).performAll [.update 0]
        (fresh.performAll [.start, .update 0]).main.nodes = [⟨2⟩, ⟨4⟩] ∧
          (old.performAll [.start, .endAction ⟨⟨2⟩, 3⟩ true]).Mirrors old.past
            (fresh.performAll [.start, .endAction ⟨⟨2⟩, 1⟩ true]) := by
  obtain ⟨t, ht⟩ : ∃ t : Tree (LibraryNode Question Plays),
      t = { root := ⟨4⟩, world := { graph := watch, blackboard := {} } } := ⟨_, rfl⟩
  have hm : make watch ⟨4⟩ {} = .ok t := by
    subst ht
    rfl
  have hc : t.EditsOnly [.start, .update 0, .receiveReturn true] := ⟨nofun, nofun, nofun, trivial⟩
  obtain ⟨new, hnew, -, hall⟩ := restart_mirrors built_watch hm (fun id slot leaf hs hl => by
    have hmem := Graph.mem_slots_of_slot? hs
    simp only [watch, List.mem_cons, List.not_mem_nil, or_false] at hmem
    rcases hmem with rfl | rfl | rfl | rfl | rfl <;> cases hl
    · exact trivial
    · exact stateless_waiting
    · exact stateless_waiting) hc
  have hmirrors := hall [.endAction ⟨⟨2⟩, 1⟩ true] ⟨nofun, nofun, trivial⟩
  refine ⟨t, new, hm, ?_, hnew, ?_, ?_⟩
  · subst ht
    decide +kernel
  · subst ht
    cases hnew
    decide +kernel
  · have hcount : (t.performAll [.start, .update 0, .receiveReturn true]).terminate.tree.past.count
        ⟨2⟩ = 2 := by
      subst ht
      decide +kernel
    simp only [List.map_cons, List.map_nil, HostCall.after, Progress.after, Progress.later,
      hcount] at hmirrors
    exact hmirrors

/-- A root that does nothing. -/
def idler : Graph (LibraryNode Question Plays) where
  slots := #[{ name := "idler", node := .leaf .idle }]

theorem built_idler : idler.Built := .add .empty "idler" (LibraryNode.leaf .idle)

/-- The outcome of the last completed run is remembered until another run is completed, although
the tree was ended in between. -/
theorem lastResult_restart :
    ∃ t new, idler.Built ∧ idler.SinglyPlaced ⟨0⟩ ∧ make idler ⟨0⟩ {} = .ok t ∧
      let old := (t.performAll [.start, .receiveReturn true]).terminate.tree
      make idler ⟨0⟩ old.world.blackboard = .ok new ∧
        (old.performAll [.start]).lastResult = some true ∧
          ((new.withConfig old.config).performAll [.start]).lastResult = none :=
  ⟨_, _, built_idler, by decide, rfl, rfl, by decide +kernel, by decide +kernel⟩

end Library

end Tree

end BehaviorTree
