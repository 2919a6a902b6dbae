/-
A world with a past, and one without.

A world that goes on from some point is compared to one that begins there. What is past counts
in three ways: a token names a number that was counted on from the past, a node that is bound is
not bound again, and the history has a beginning. All else is the same in both
(`World.Afresh`), but for the states of nodes. Those that were at work in the past may remember
it, until they are called upon again: a node that is executed and then calls a child, or that is
registered as a service, is from then on in the same state in both worlds.
-/
import BehaviorTree.Proofs.World.Forgetful
import BehaviorTree.Proofs.World.Same

namespace BehaviorTree

/-- What is past. -/
structure Past where
  /-- How many beginnings and ends of executions were counted, for each node. -/
  count : NodeId → Nat
  /-- Which nodes were bound. -/
  bound : NodeId → Bool
  /-- What was recorded, newest first. -/
  history : List Record
  /-- How many runs were completed. -/
  runs : Nat
  /-- The outcome of the last one. -/
  result : Option Bool

/-! ## Renumbering -/

/-- The token that stands for this one where so many executions were counted before. -/
def Progress.after (count : NodeId → Nat) (p : Progress) : Progress := p.later (count p.node)

def DeferredTask.after (count : NodeId → Nat) (t : DeferredTask) : DeferredTask :=
  { t with progress := t.progress.after count }

/-- The record with the tokens that are counted on. -/
def Record.after (count : NodeId → Nat) : Record → Record
  | .said id m => .said id (m.later (count id))
  | r => r

/-- Whether a node is bound that was bound before. -/
def Record.rebinds (bound : NodeId → Bool) : Record → Bool
  | .called id .bind => bound id
  | _ => false

/-- The children that are called. -/
def Dispatch.calls : Dispatch → List NodeId
  | .bindFailed _ => []
  | .answered _ calls => calls

/-- The slots of one node in both worlds, but for the state of the node. -/
structure Slot.Afresh {σ : Type} (count : Nat) (bound : Bool) (s s' : Slot σ) : Prop where
  name : s.name = s'.name
  services : s.services = s'.services
  bound : s.bound = (s'.bound || bound)
  activation : s.activation = s'.activation + count
  observers : s.observers = s'.observers

/-- Whether a node of the graph can run as a service. -/
def Graph.Serves {σ : Type} [Node σ] (g : Graph σ) (id : NodeId) : Prop :=
  ∃ slot, g.slot? id = some slot ∧ Node.isService slot.node

namespace World

variable {σ : Type} {p : Past} {w v w' v' : World σ} {id : NodeId}

/-- The world `w` is the world `v` with the past `p`. -/
structure Afresh (p : Past) (w v : World σ) : Prop where
  slot : ∀ id, Option.Rel (Slot.Afresh (p.count id) (p.bound id)) (w.graph.slot? id)
    (v.graph.slot? id)
  blackboard : w.blackboard = v.blackboard
  tick : w.tick = v.tick
  pending : w.schedule.pending = v.schedule.pending.map (DeferredTask.after p.count)
  events : w.events = v.events
  history : w.history
    = (v.history.filter (!·.rebinds p.bound)).map (Record.after p.count) ++ p.history

/-- A node is in the same state in both worlds. -/
def SameAt (w v : World σ) (id : NodeId) : Prop :=
  (w.graph.slot? id).map (·.node) = (v.graph.slot? id).map (·.node)

theorem SameAt.node {s s' : Slot σ} (h : SameAt w v id) (hs : w.graph.slot? id = some s)
    (hs' : v.graph.slot? id = some s') : s.node = s'.node := by
  simpa [SameAt, hs, hs'] using h

theorem sameAt_of_node {s s' : Slot σ} (hs : w.graph.slot? id = some s)
    (hs' : v.graph.slot? id = some s') (hn : s.node = s'.node) : SameAt w v id := by
  simp [SameAt, hs, hs', hn]

theorem sameAt_absorb {α : Type} {s s' : Slot σ} {step step' : Step σ α}
    (hs : w.graph.slot? id = some s) (hs' : v.graph.slot? id = some s')
    (hn : step.node = step'.node) (activation activation' : Nat) :
    SameAt (w.absorb id activation step) (v.absorb id activation' step') id :=
  sameAt_of_node (slot?_absorb hs activation step) (slot?_absorb hs' activation' step') hn

/-- What both worlds do to one node leaves the others alone. -/
theorem SameAt.of_local (h : Local id w w') (h' : Local id v v')
    (hself : SameAt w v id → SameAt w' v' id) (n : NodeId) (hn : SameAt w v n) :
    SameAt w' v' n := by
  by_cases hid : n = id
  · subst hid
    exact hself hn
  · unfold SameAt at hn ⊢
    rwa [h.slot? n hid, h'.slot? n hid]

/-- To change nothing. -/
theorem modify_self (w : World σ) (id : NodeId) : w.modify id (fun s => s) = w := by
  have hm : w.graph.slots.modify id.index (fun s => s) = w.graph.slots := by
    refine Array.ext (by simp) fun i _ _ => ?_
    simp [Array.getElem_modify]
  simp [World.modify, Graph.modify, hm]

namespace Afresh

/-- A node is in both worlds or in none. -/
theorem slots (h : Afresh p w v) (id : NodeId) :
    (w.graph.slot? id = none ∧ v.graph.slot? id = none) ∨
      ∃ s s', w.graph.slot? id = some s ∧ v.graph.slot? id = some s' ∧
        s.Afresh (p.count id) (p.bound id) s' := by
  have hr := h.slot id
  generalize w.graph.slot? id = x at hr ⊢
  generalize v.graph.slot? id = y at hr ⊢
  cases hr with
  | none => exact .inl ⟨rfl, rfl⟩
  | some hs => exact .inr ⟨_, _, rfl, rfl, hs⟩

theorem contains (h : Afresh p w v) (id : NodeId) : w.graph.contains id = v.graph.contains id := by
  rw [← Graph.isSome_slot?, ← Graph.isSome_slot?]
  rcases h.slots id with ⟨hw, hv⟩ | ⟨s, s', hw, hv, -⟩ <;> simp [hw, hv]

theorem servicesOf (h : Afresh p w v) (id : NodeId) :
    w.graph.servicesOf id = v.graph.servicesOf id := by
  unfold Graph.servicesOf
  rcases h.slots id with ⟨hw, hv⟩ | ⟨s, s', hw, hv, hs⟩
  · simp [hw, hv]
  · simp [hw, hv, hs.services]

theorem name? (h : Afresh p w v) (id : NodeId) : w.graph.name? id = v.graph.name? id := by
  unfold Graph.name?
  rcases h.slots id with ⟨hw, hv⟩ | ⟨s, s', hw, hv, hs⟩
  · simp [hw, hv]
  · simp [hw, hv, hs.name]

/-- The token for the present execution is counted on. -/
theorem progress? (h : Afresh p w v) (id : NodeId) :
    w.progress? id = (v.progress? id).map (Progress.after p.count) := by
  unfold World.progress?
  rcases h.slots id with ⟨hw, hv⟩ | ⟨s, s', hw, hv, hs⟩
  · simp [hw, hv]
  · simp [hw, hv, hs.activation, Progress.after, Progress.later]

theorem isCurrent (h : Afresh p w v) (q : Progress) :
    w.isCurrent (q.after p.count) = v.isCurrent q := by
  have hp := h.progress? q.node
  unfold World.isCurrent
  rw [show (q.after p.count).node = q.node from rfl, hp]
  cases hv : v.progress? q.node with
  | none => simp
  | some q' =>
    obtain ⟨s, -, rfl⟩ := Option.map_eq_some_iff.1 hv
    obtain ⟨n, a⟩ := q
    simp [Progress.after, Progress.later]

/-! ## Records and events -/

theorem record (h : Afresh p w v) {r r' : Record} (hr : r = r'.after p.count)
    (hb : r'.rebinds p.bound = false) : Afresh p (w.record r) (v.record r') :=
  ⟨h.slot, h.blackboard, h.tick, h.pending, h.events, by
    simp [World.record, hb, hr, h.history]⟩

/-- To bind a node that was bound before is not recorded twice. -/
theorem rebind (h : Afresh p w v) (hb : p.bound id) : Afresh p w (v.record (.called id .bind)) :=
  ⟨h.slot, h.blackboard, h.tick, h.pending, h.events, by
    simp [World.record, Record.rebinds, hb, h.history]⟩

theorem trace (h : Afresh p w v) (tag : String) (stack : StackLabel) (node : Option NodeId)
    (value : Int) : Afresh p (w.trace tag stack node value) (v.trace tag stack node value) := by
  unfold World.trace
  rw [h.tick]
  exact h.record rfl rfl

theorem warn (h : Afresh p w v) (message : String) (fields : List (String × String)) :
    Afresh p (w.warn message fields) (v.warn message fields) :=
  h.record rfl rfl

theorem report (h : Afresh p w v) (d : Diagnostic) : Afresh p (w.report d) (v.report d) := by
  have hn : d.node.bind w.graph.name? = d.node.bind v.graph.name? := by
    cases d.node with
    | none => rfl
    | some n => exact h.name? n
  unfold World.report
  rw [hn]
  exact h.record rfl rfl

theorem enqueue (h : Afresh p w v) (event : StackEvent) :
    Afresh p (w.enqueue event) (v.enqueue event) :=
  ⟨h.slot, h.blackboard, h.tick, h.pending, by simp [World.enqueue, h.events], h.history⟩

theorem entered (h : Afresh p w v) (label : StackLabel) (node : NodeId) (depth : Nat) :
    Afresh p (w.entered label node depth) (v.entered label node depth) :=
  (h.trace ..).enqueue _

theorem left (h : Afresh p w v) (label : StackLabel) (node : NodeId) (depth : Nat) :
    Afresh p (w.left label node depth) (v.left label node depth) :=
  (h.trace ..).enqueue _

theorem hear (h : Afresh p w v) (id : NodeId) (messages : List Message) :
    Afresh p (w.hear id (messages.map (Message.later (p.count id)))) (v.hear id messages) := by
  unfold World.hear
  induction messages generalizing w v with
  | nil => exact h
  | cons m ms ih => exact ih (h.record rfl rfl)

/-! ## Changes of a slot -/

theorem setBlackboard (h : Afresh p w v) (b : Blackboard) :
    Afresh p { w with blackboard := b } { v with blackboard := b } :=
  ⟨h.slot, rfl, h.tick, h.pending, h.events, h.history⟩

theorem setTick (h : Afresh p w v) (tick : Tick) :
    Afresh p { w with tick } { v with tick } :=
  ⟨h.slot, h.blackboard, rfl, h.pending, h.events, h.history⟩

theorem setSchedule (h : Afresh p w v) {s s' : Schedule}
    (hs : s.pending = s'.pending.map (DeferredTask.after p.count)) :
    Afresh p { w with schedule := s } { v with schedule := s' } :=
  ⟨h.slot, h.blackboard, h.tick, hs, h.events, h.history⟩

theorem setEvents (h : Afresh p w v) (events : Queue StackEvent) :
    Afresh p { w with events } { v with events } :=
  ⟨h.slot, h.blackboard, h.tick, h.pending, rfl, h.history⟩

theorem modify (h : Afresh p w v) (id : NodeId) {f k : Slot σ → Slot σ}
    (hf : ∀ s s', w.graph.slot? id = some s → v.graph.slot? id = some s' →
      s.Afresh (p.count id) (p.bound id) s' → (f s).Afresh (p.count id) (p.bound id) (k s')) :
    Afresh p (w.modify id f) (v.modify id k) := by
  refine ⟨fun n => ?_, h.blackboard, h.tick, h.pending, h.events, h.history⟩
  by_cases hn : n = id
  · subst hn
    simp only [World.modify, Graph.slot?_modify_self]
    rcases h.slots n with ⟨hw, hv⟩ | ⟨s, s', hw, hv, hs⟩
    · simp [hw, hv]
    · simpa [hw, hv] using Option.Rel.some (hf s s' hw hv hs)
  · simp only [World.modify, Graph.slot?_modify_of_ne _ hn]
    exact h.slot n

/-- The states of nodes do not count. -/
theorem setNode (h : Afresh p w v) (id : NodeId) (x y : σ) :
    Afresh p (w.modify id fun s => { s with node := x })
      (v.modify id fun s => { s with node := y }) :=
  h.modify id fun _ _ _ _ hs => ⟨hs.name, hs.services, hs.bound, hs.activation, hs.observers⟩

/-! ## Steps of nodes -/

/-- What a step leaves, where the same is asked for in an execution that is counted on. -/
theorem keep {α : Type} {step step' : Step σ α} (h : Afresh p w v) (id : NodeId)
    (he : step.effects = step'.effects.later (p.count id)) :
    Afresh p (w.keep id step) (v.keep id step') := by
  have hh := ((h.setNode id step.node step'.node).setBlackboard step'.effects.blackboard).hear id
    step'.effects.messages
  unfold World.keep
  simp only [he, Effects.later]
  split
  · exact hh
  · exact hh.record rfl rfl

theorem pending_addAll (count : NodeId → Nat) {s s' : Schedule}
    (hs : s.pending = s'.pending.map (DeferredTask.after count)) (deferred : List (Nat × Bool))
    (task task' : Nat × Bool → DeferredTask) (ht : ∀ d, task d = (task' d).after count) :
    (deferred.foldl (fun s d => s.add (task d)) s).pending
      = (deferred.foldl (fun s d => s.add (task' d)) s').pending.map
        (DeferredTask.after count) := by
  induction deferred generalizing s s' with
  | nil => exact hs
  | cons d ds ih =>
    refine ih ?_
    rw [Schedule.pending_add, Schedule.pending_add, List.map_append, hs, ht d]
    cases hc : (task' d).cancelled <;> simp [DeferredTask.after, hc]

theorem pending_cancel_after {count : NodeId → Nat} {s s' : Schedule} (id : NodeId)
    (hs : s.pending = s'.pending.map (DeferredTask.after count)) :
    (s.cancel id).pending = (s'.cancel id).pending.map (DeferredTask.after count) := by
  rw [Schedule.pending_cancel, Schedule.pending_cancel, hs, List.filter_map]
  rfl

theorem absorb {α : Type} {step step' : Step σ α} (h : Afresh p w v) (id : NodeId)
    (he : step.effects = step'.effects.later (p.count id)) (activation : Nat) :
    Afresh p (w.absorb id (activation + p.count id) step) (v.absorb id activation step') := by
  have hk := (h.keep id he).modify id (f := fun s =>
      { s with observers := s.observers ++ step.effects.observers }) (k := fun s =>
      { s with observers := s.observers ++ step'.effects.observers }) fun s s' _ _ hs =>
    ⟨hs.name, hs.services, hs.bound, hs.activation, by
      simp only [hs.observers, he, Effects.later]⟩
  refine hk.setSchedule ?_
  rw [show step.effects.deferred = step'.effects.deferred by rw [he]; rfl]
  refine pending_addAll p.count hk.pending _ _ _ fun d => ?_
  simp [DeferredTask.after, Progress.after, Progress.later, hk.tick]

theorem keepReply {α : Type} {reply reply' : Reply σ α} (h : Afresh p w v) (id : NodeId)
    {call : Call} (hc : Record.rebinds p.bound (.called id call) = false)
    (hm : reply.messages = []) (hm' : reply'.messages = []) :
    Afresh p (w.keepReply id call reply) (v.keepReply id call reply') := by
  unfold World.keepReply
  rw [hm, hm']
  exact (h.record rfl hc).setNode id _ _

/-- To bind a node in the second world alone, if it is bound in the first one. -/
theorem bindSecond {α : Type} {reply : Reply σ (Option α)} {s : Slot σ} (h : Afresh p w v)
    (hp : p.bound id) (hs : w.graph.slot? id = some s) (hb : s.bound = true)
    (hm : reply.messages = []) (ha : reply.answer = none) :
    Afresh p w ((v.keepReply id .bind reply).modify id
      fun s => { s with bound := reply.answer.isNone }) := by
  have hk : Afresh p w (v.keepReply id .bind reply) := by
    have hn := (h.rebind hp).modify id (f := fun s => s)
      (k := fun s => { s with node := reply.node }) fun _ _ _ _ hr =>
        ⟨hr.name, hr.services, hr.bound, hr.activation, hr.observers⟩
    rw [modify_self] at hn
    unfold World.keepReply
    rw [hm]
    exact hn
  have hn := hk.modify id (f := fun s => s)
    (k := fun s => { s with bound := reply.answer.isNone }) fun t t' ht _ hr => by
      cases hs.symm.trans ht
      exact ⟨hr.name, hr.services, by simp [hb, ha], hr.activation, hr.observers⟩
  rwa [modify_self] at hn

/-- What a node may look at, where its executions are counted on. -/
theorem context (h : Afresh p w v) (id : NodeId) (activation : Nat) :
    w.context id (activation + p.count id) = (v.context id activation).later (p.count id) := by
  simp [World.context, Context.later, h.blackboard, h.tick]

end Afresh

/-! ## The operations of the world -/

variable [Node σ]

theorem bindOnce_congr (w : World σ) (id : NodeId) {s t : Slot σ} (hn : s.node = t.node)
    (hb : s.bound = t.bound) : w.bindOnce id s = w.bindOnce id t := by
  unfold World.bindOnce
  rw [hn, hb]

variable [Node.Forgetful σ] {g : Graph σ}

/-- The world `w` is the world `v` with the past `p`, and the nodes of both stem from `g`. -/
structure Renews (g : Graph σ) (p : Past) (w v : World σ) : Prop where
  stems : w.Stems g
  stems' : v.Stems g
  afresh : w.Afresh p v

/-- From two such worlds to two such worlds; and a node that is in the same state in both stays
so. -/
structure Onward (g : Graph σ) (p : Past) (w v w' v' : World σ) : Prop where
  renews : w'.Renews g p v'
  same : ∀ n, SameAt w v n → SameAt w' v' n

theorem Onward.refl (h : w.Renews g p v) : Onward g p w v w v := ⟨h, fun _ hn => hn⟩

theorem Onward.trans {w'' v'' : World σ} (h : Onward g p w v w' v')
    (h' : Onward g p w' v' w'' v'') : Onward g p w v w'' v'' :=
  ⟨h'.renews, fun n hn => h'.same n (h.same n hn)⟩

namespace Renews

variable {s s' : Slot σ}

/-- The two lives of a node stem from the same. -/
theorem stemsFrom (h : w.Renews g p v) (hs : w.graph.slot? id = some s)
    (hs' : v.graph.slot? id = some s') :
    ∃ x₀, (w.life s).StemsFrom x₀ ∧ (v.life s').StemsFrom x₀ := by
  obtain ⟨slot, hg, hw⟩ := h.stems id s hs
  obtain ⟨slot', hg', hv⟩ := h.stems' id s' hs'
  cases hg.symm.trans hg'
  exact ⟨slot.node, hw, hv⟩

/-- A change of both worlds that concerns no node. -/
theorem aside (h : w.Renews g p v) (ha : w'.Afresh p v') (hw : w'.graph = w.graph)
    (hv : v'.graph = v.graph) (hb : w'.blackboard = w.blackboard)
    (hb' : v'.blackboard = v.blackboard) : Onward g p w v w' v' :=
  ⟨⟨h.stems.of_eq hw hb, h.stems'.of_eq hv hb', ha⟩, fun n hn => by
    unfold SameAt at hn ⊢
    rwa [hw, hv]⟩

/-- A node is bound in both worlds, or it is bound once more in the second one. -/
theorem bindOnce (h : w.Renews g p v) (hs : w.graph.slot? id = some s)
    (hs' : v.graph.slot? id = some s') :
    Onward g p w v (w.bindOnce id s).1 (v.bindOnce id s').1 ∧
      (w.bindOnce id s).2.2 = (v.bindOnce id s').2.2 := by
  obtain ⟨x₀, hx, hx'⟩ := h.stemsFrom hs hs'
  have hb : (w.life s).blackboard = (v.life s').blackboard := h.afresh.blackboard
  have hslot : s.Afresh (p.count id) (p.bound id) s' := by simpa [hs, hs'] using h.afresh.slot id
  have hstems := (h.stems.bindOnce (stems_lasting g) s hs rfl rfl).1
  have hstems' := (h.stems'.bindOnce (stems_lasting g) s' hs' rfl rfl).1
  have hlocal : Local id w (w.bindOnce id s).1 := .bindOnce w s
  have hlocal' : Local id v (v.bindOnce id s').1 := .bindOnce v s'
  obtain ⟨hanswer, -⟩ := hx.bind_alike hx' hb
  suffices hkey : (w.bindOnce id s).1.Afresh p (v.bindOnce id s').1 ∧
      (SameAt w v id → SameAt (w.bindOnce id s).1 (v.bindOnce id s').1 id) ∧
      (w.bindOnce id s).2.2 = (v.bindOnce id s').2.2 from
    ⟨⟨⟨hstems, hstems', hkey.1⟩, SameAt.of_local hlocal hlocal' hkey.2.1⟩, hkey.2.2⟩
  have hreply' := slot?_modify (slot?_keepReply hs' .bind (Node.bind s'.node v.blackboard))
    fun s => { s with bound := (Node.bind s'.node v.blackboard).answer.isNone }
  unfold World.bindOnce
  cases hbound' : s'.bound with
  | true =>
    have hbound : s.bound = true := by simp [hslot.bound, hbound']
    simp only [hbound, ↓reduceIte]
    exact ⟨h.afresh, fun hn => hn, trivial⟩
  | false =>
    cases hbound : s.bound with
    | true =>
      -- Only the second world binds it; the first one did so in the past.
      have hp : p.bound id = true := by simpa [hbound, hbound'] using hslot.bound.symm
      obtain ⟨ha, hsame⟩ := hx.bind_fresh hx' hb hbound
      simp only [↓reduceIte, Bool.false_eq_true]
      refine ⟨?_, fun hn => sameAt_of_node hs hreply' (hsame (hn.node hs hs')), ha.symm⟩
      exact h.afresh.bindSecond hp hs hbound (Node.Forgetful.bind_quiet ..) ha
    | false =>
      have hp : p.bound id = false := by simpa [hbound, hbound'] using hslot.bound.symm
      simp only [↓reduceIte, Bool.false_eq_true]
      refine ⟨?_, fun hn => ?_, hanswer⟩
      · have hrecord : Record.rebinds p.bound (.called id .bind) = false := hp
        refine (h.afresh.keepReply id hrecord (Node.Forgetful.bind_quiet ..)
          (Node.Forgetful.bind_quiet ..)).modify id fun t t' _ _ hr => ?_
        refine ⟨hr.name, hr.services, ?_, hr.activation, hr.observers⟩
        rw [hp, Bool.or_false]
        exact congrArg Option.isNone hanswer
      · refine sameAt_of_node (slot?_modify (slot?_keepReply hs ..) _) hreply' ?_
        simp only [hn.node hs hs', h.afresh.blackboard]

/-- A change of a slot that its node does not notice. -/
theorem modify (h : w.Renews g p v) (id : NodeId) {f k : Slot σ → Slot σ}
    (hn : ∀ s, (f s).node = s.node ∧ (f s).bound = s.bound)
    (hn' : ∀ s, (k s).node = s.node ∧ (k s).bound = s.bound)
    (hf : ∀ s s', w.graph.slot? id = some s → v.graph.slot? id = some s' →
      s.Afresh (p.count id) (p.bound id) s' → (f s).Afresh (p.count id) (p.bound id) (k s')) :
    Onward g p w v (w.modify id f) (v.modify id k) := by
  refine ⟨⟨h.stems.modify (stems_lasting g) id (fun s => (hn s).1) fun s => (hn s).2,
    h.stems'.modify (stems_lasting g) id (fun s => (hn' s).1) fun s => (hn' s).2,
    h.afresh.modify id hf⟩, SameAt.of_local (.modify w f) (.modify v k) fun hsame => ?_⟩
  rcases h.afresh.slots id with ⟨hs, hs'⟩ | ⟨s, s', hs, hs', -⟩
  · simp [SameAt, World.modify, Graph.slot?_modify_self, hs, hs']
  · refine sameAt_of_node (slot?_modify hs f) (slot?_modify hs' k) ?_
    rw [(hn s).1, (hn' s').1, hsame.node hs hs']

theorem keep {α : Type} {step step' : Step σ α} (h : w.Renews g p v)
    (hs : w.graph.slot? id = some s) (hs' : v.graph.slot? id = some s')
    (he : step.effects = step'.effects.later (p.count id))
    (hsame : s.node = s'.node → step.node = step'.node)
    (hn : Life.Next [id] (w.life s) ((w.life s).after step))
    (hn' : Life.Next [id] (v.life s') ((v.life s').after step')) :
    Onward g p w v (w.keep id step) (v.keep id step') where
  renews := ⟨h.stems.keep (stems_lasting g) hs hn, h.stems'.keep (stems_lasting g) hs' hn',
    h.afresh.keep id he⟩
  same := SameAt.of_local (.keep w step) (.keep v step') fun hw =>
    sameAt_of_node (slot?_keep hs step) (slot?_keep hs' step') (hsame (hw.node hs hs'))

/-- The node takes a step in both worlds that asks for the same. -/
theorem absorb {α : Type} {step step' : Step σ α} (h : w.Renews g p v)
    (hs : w.graph.slot? id = some s) (hs' : v.graph.slot? id = some s')
    (he : step.effects = step'.effects.later (p.count id))
    (hsame : s.node = s'.node → step.node = step'.node) (activation : Nat)
    (hn : Life.Next [id] (w.life s) ((w.life s).after step))
    (hn' : Life.Next [id] (v.life s') ((v.life s').after step')) :
    Onward g p w v (w.absorb id (activation + p.count id) step)
      (v.absorb id activation step') where
  renews := ⟨h.stems.absorb (stems_lasting g) hs _ hn, h.stems'.absorb (stems_lasting g) hs' _ hn',
    h.afresh.absorb id he activation⟩
  same := SameAt.of_local (.absorb w _ step) (.absorb v _ step') fun hw =>
    sameAt_absorb hs hs' (hsame (hw.node hs hs')) _ _

/-- The node answers a question in both worlds. -/
theorem keepReply {α : Type} {reply reply' : Reply σ α} (h : w.Renews g p v)
    (hs : w.graph.slot? id = some s) (hs' : v.graph.slot? id = some s') {call : Call}
    (hc : call ≠ .bind) (hr : reply.Retains Node.Forgetful.form s.node)
    (hr' : reply'.Retains Node.Forgetful.form s'.node)
    (hsame : s.node = s'.node → reply.node = reply'.node)
    (hn : Life.Next [id] (w.life s) ((w.life s).replied reply))
    (hn' : Life.Next [id] (v.life s') ((v.life s').replied reply')) :
    Onward g p w v (w.keepReply id call reply) (v.keepReply id call reply') where
  renews := by
    have hrecord : Record.rebinds p.bound (.called id call) = false := by
      cases call <;> first | rfl | exact absurd rfl hc
    exact ⟨h.stems.keepReply (stems_lasting g) hs call hn,
      h.stems'.keepReply (stems_lasting g) hs' call hn',
      h.afresh.keepReply id hrecord hr.quiet hr'.quiet⟩
  same := SameAt.of_local (.keepReply w call reply) (.keepReply v call reply') fun hw =>
    sameAt_of_node (slot?_keepReply hs call reply) (slot?_keepReply hs' call reply')
      (hsame (hw.node hs hs'))

/-- A record of a step of a node. -/
theorem record (h : w.Renews g p v) {r : Record} (hr : r = r.after p.count)
    (hb : r.rebinds p.bound = false) : Onward g p w v (w.record r) (v.record r) :=
  h.aside (h.afresh.record hr hb) rfl rfl rfl rfl

theorem trace (h : w.Renews g p v) (tag : String) (stack : StackLabel) (node : Option NodeId)
    (value : Int) : Onward g p w v (w.trace tag stack node value) (v.trace tag stack node value) :=
  h.aside (h.afresh.trace ..) rfl rfl rfl rfl

theorem report (h : w.Renews g p v) (d : Diagnostic) :
    Onward g p w v (w.report d) (v.report d) :=
  h.aside (h.afresh.report d) rfl rfl rfl rfl

theorem entered (h : w.Renews g p v) (label : StackLabel) (node : NodeId) (depth : Nat) :
    Onward g p w v (w.entered label node depth) (v.entered label node depth) :=
  h.aside (h.afresh.entered ..) rfl rfl rfl rfl

theorem left (h : w.Renews g p v) (label : StackLabel) (node : NodeId) (depth : Nat) :
    Onward g p w v (w.left label node depth) (v.left label node depth) :=
  h.aside (h.afresh.left ..) rfl rfl rfl rfl

/-- A node that is executed answers and asks for the same in both worlds. If it calls a child, it
is then in the same state in both. -/
theorem execute (h : w.Renews g p v) (id : NodeId) :
    Answers (fun x y => Onward g p w v x.1 y.1 ∧ x.2 = y.2 ∧
      (x.2.calls ≠ [] → SameAt x.1 y.1 id)) (w.execute id) (v.execute id) := by
  unfold World.execute
  rcases h.afresh.slots id with ⟨hs, hs'⟩ | ⟨s, s', hs, hs', hslot⟩
  · rw [hs, hs']
    exact .error _
  rw [hs, hs']
  simp only
  have hs₁ := slot?_modify hs fun t => { t with activation := s.activation + 1 }
  have hs₁' := slot?_modify hs' fun t => { t with activation := s'.activation + 1 }
  have hnumber : s.activation + 1 = s'.activation + 1 + p.count id := by
    rw [hslot.activation]
    omega
  have hbegun := h.modify id (f := fun t => { t with activation := s.activation + 1 })
    (k := fun t => { t with activation := s'.activation + 1 }) (fun _ => ⟨rfl, rfl⟩)
    (fun _ => ⟨rfl, rfl⟩) fun t t' _ _ hr =>
      ⟨hr.name, hr.services, hr.bound, hnumber, hr.observers⟩
  generalize (w.modify id fun t => { t with activation := s.activation + 1 }) = w₁ at hs₁ hbegun ⊢
  generalize (v.modify id fun t => { t with activation := s'.activation + 1 }) = v₁
    at hs₁' hbegun ⊢
  rw [bindOnce_congr w₁ id (s := s) (t := { s with activation := s.activation + 1 }) rfl rfl,
    bindOnce_congr v₁ id (s := s') (t := { s' with activation := s'.activation + 1 }) rfl rfl]
  obtain ⟨hbound, ha⟩ := hbegun.renews.bindOnce hs₁ hs₁'
  have hb := (hbegun.renews.stems.bindOnce (stems_lasting g) _ hs₁ rfl rfl).2
  have hb' := (hbegun.renews.stems'.bindOnce (stems_lasting g) _ hs₁' rfl rfl).2
  generalize w₁.bindOnce id { s with activation := s.activation + 1 } = x at hbound ha hb ⊢
  generalize v₁.bindOnce id { s' with activation := s'.activation + 1 } = y at hbound ha hb' ⊢
  obtain ⟨w₂, node, e⟩ := x
  obtain ⟨v₂, node', e'⟩ := y
  obtain rfl : e = e' := ha
  cases e with
  | some e => exact .ok ⟨hbegun.trans hbound, rfl, fun hn => absurd rfl hn⟩
  | none =>
    obtain ⟨t, ht, rfl, htb⟩ := hb rfl
    obtain ⟨t', ht', rfl, htb'⟩ := hb' rfl
    have hrecord := hbound.renews.record (r := .called id .execute) rfl rfl
    obtain ⟨x₀, hx, hx'⟩ := hrecord.renews.stemsFrom ht ht'
    have hctx := hrecord.renews.afresh.context id (s'.activation + 1)
    obtain ⟨hanswer, heffects, hnode⟩ := hx.execute_alike hx' hrecord.renews.afresh.blackboard htb
      htb' hctx rfl
    rw [hnumber]
    have hdone := hrecord.renews.absorb ht ht' heffects (fun hn => hnode (.inr hn))
      (s'.activation + 1) (.execute _ htb rfl) (.execute _ htb' rfl)
    refine .ok ⟨hbegun.trans (hbound.trans (hrecord.trans hdone)), ?_, fun hcalls => ?_⟩
    · exact congrArg₂ Dispatch.answered hanswer
        ((congrArg Effects.calls heffects).trans (Effects.calls_later ..))
    · exact sameAt_absorb (w := w₂.record _) (v := v₂.record _) ht ht' (hnode (.inl hcalls)) _ _

/-- A node that is in the same state in both worlds takes a result alike. -/
theorem receive (h : w.Renews g p v) (hn : SameAt w v id) (ok : Bool) :
    Answers (fun x y => Onward g p w v x.1 y.1 ∧ x.2 = y.2) (w.receive id ok)
      (v.receive id ok) := by
  unfold World.receive
  rcases h.afresh.slots id with ⟨hs, hs'⟩ | ⟨s, s', hs, hs', hslot⟩
  · rw [hs, hs']
    exact .error _
  rw [hs, hs']
  have hrecord := h.record (r := .called id (.receive ok)) rfl rfl
  have hlater : Node.receive s.node (w.context id s.activation) ok
      = (Node.receive s'.node (v.context id s'.activation) ok).later (p.count id) := by
    rw [hn.node hs hs', hslot.activation, h.afresh.context]
    exact (Node.Forgetful.receive_retains ..).later
  have hdone := hrecord.renews.absorb hs hs' (congrArg Step.effects hlater)
    (fun _ => (congrArg Step.node hlater :)) s'.activation (.receive _ (by simp) rfl ok)
    (.receive _ (by simp) rfl ok)
  rw [← hslot.activation] at hdone
  refine .ok ⟨hrecord.trans hdone, ?_⟩
  simp only [hlater]
  rfl

/-- A node that leaves its stack does nothing else in both worlds. -/
theorem stop (h : w.Renews g p v) (id : NodeId) :
    Answers (Onward g p w v) (w.stop id) (v.stop id) := by
  unfold World.stop
  rcases h.afresh.slots id with ⟨hs, hs'⟩ | ⟨s, s', hs, hs', hslot⟩
  · rw [hs, hs']
    exact .error _
  rw [hs, hs']
  have hrecord := h.record (r := .called id .stop) rfl rfl
  have heffects : (Node.stop s.node (w.context id s.activation)).effects
      = (Node.stop s'.node (v.context id s'.activation)).effects.later (p.count id) := by
    rw [Node.Forgetful.stop_effects, Node.Forgetful.stop_effects]
    exact congrArg (fun b => ({ blackboard := b } : Effects)) h.afresh.blackboard
  have hkeep := hrecord.renews.keep hs hs' heffects (fun hn => ?_) (.stop _ rfl) (.stop _ rfl)
  · have hleft := hkeep.renews.modify id
      (f := fun s => { s with observers := [], activation := s.activation + 1 })
      (k := fun s => { s with observers := [], activation := s.activation + 1 })
      (fun _ => ⟨rfl, rfl⟩) (fun _ => ⟨rfl, rfl⟩) fun t t' _ _ hr =>
        ⟨hr.name, hr.services, hr.bound, by simp only [hr.activation]; omega, rfl⟩
    have hcancel := hleft.renews.aside (hleft.renews.afresh.setSchedule
      (Afresh.pending_cancel_after id hleft.renews.afresh.pending)) rfl rfl rfl rfl
    exact .ok (hrecord.trans (hkeep.trans (hleft.trans hcancel)))
  · rw [hn, hslot.activation, h.afresh.context]
    exact (congrArg Step.node (Node.Forgetful.stop_retains s'.node _ _).later :)

theorem tell (h : w.Renews g p v) (id : NodeId) (observers : List Observer) :
    Onward g p w v (w.tell id observers) (v.tell id observers) := by
  unfold World.tell
  induction observers generalizing w v with
  | nil => exact .refl h
  | cons o os ih =>
    have hr := h.record (r := .observed id o) rfl rfl
    exact hr.trans (ih hr.renews)

theorem interrupt (h : w.Renews g p v) (id : NodeId) :
    Answers (Onward g p w v) (w.interrupt id) (v.interrupt id) := by
  unfold World.interrupt
  rcases h.afresh.slots id with ⟨hs, hs'⟩ | ⟨s, s', hs, hs', hslot⟩
  · rw [hs, hs']
    exact .error _
  rw [hs, hs']
  simp only [hslot.observers]
  have htell := h.tell id s'.observers
  have hvoid := htell.renews.modify id (f := fun s => { s with observers := [] })
    (k := fun s => { s with observers := [] }) (fun _ => ⟨rfl, rfl⟩) (fun _ => ⟨rfl, rfl⟩)
    fun t t' _ _ hr => ⟨hr.name, hr.services, hr.bound, hr.activation, rfl⟩
  exact (hvoid.renews.stop id).imp fun _ _ hstop => htell.trans (hvoid.trans hstop)

/-- The hook of a phase. A node that has hooks is in the same state in both worlds. -/
theorem hook (h : w.Renews g p v) (id : NodeId) (phase : Phase) :
    Onward g p w v (w.hook id phase).1 (v.hook id phase).1 ∧
      (w.hook id phase).2 = (v.hook id phase).2 := by
  unfold World.hook
  rcases h.afresh.slots id with ⟨hs, hs'⟩ | ⟨s, s', hs, hs', hslot⟩
  · rw [hs, hs']
    exact ⟨.refl h, rfl⟩
  rw [hs, hs']
  obtain ⟨x₀, hx, hx'⟩ := h.stemsFrom hs hs'
  have hhooks : Node.hasHooks s.node = Node.hasHooks s'.node :=
    congrArg Node.Traits.hasHooks (hx.traits_alike hx')
  simp only [hhooks]
  split
  · exact ⟨.refl h, rfl⟩
  next hh =>
  have hnode : s.node = s'.node :=
    hx.eq_of_hooks hx' h.afresh.blackboard (show Node.hasHooks s.node by simpa [hhooks] using hh)
  have hlater : Node.hook s.node (w.context id s.activation) phase
      = (Node.hook s'.node (v.context id s'.activation) phase).later (p.count id) := by
    rw [hnode, hslot.activation, h.afresh.context]
    exact (Node.Forgetful.hook_retains _ _ _ hx'.fair).later
  have hrecord := h.record (r := .called id (.hook phase)) rfl rfl
  have hdone := hrecord.renews.absorb hs hs' (congrArg Step.effects hlater)
    (fun _ => (congrArg Step.node hlater :)) s'.activation (.hook _ rfl phase) (.hook _ rfl phase)
  rw [← hslot.activation] at hdone
  rw [hlater] at hdone ⊢
  generalize Node.hook s'.node (v.context id s'.activation) phase = step at hdone ⊢
  simp only [Step.later, Effects.calls_later]
  split <;> exact ⟨hrecord.trans hdone, rfl⟩

/-- What a node of one of the worlds is for, it is for in the other one and in the graph. -/
theorem serves_iff (h : w.Renews g p v) (hs : w.graph.slot? id = some s)
    (hs' : v.graph.slot? id = some s') :
    Node.isService s.node = Node.isService s'.node ∧ (Node.isService s.node ↔ g.Serves id) := by
  obtain ⟨slot, hg, hx⟩ := h.stems id s hs
  obtain ⟨slot', hg', hx'⟩ := h.stems' id s' hs'
  cases hg.symm.trans hg'
  have ht : Node.isService s.node = Node.isService slot.node :=
    congrArg Node.Traits.isService hx.traits
  have ht' : Node.isService s'.node = Node.isService slot.node :=
    congrArg Node.Traits.isService hx'.traits
  exact ⟨ht.trans ht'.symm, by simp [Graph.Serves, hg, ht]⟩

/-- A service that is in the same state in both worlds answers alike whether it is ready. -/
theorem ready (h : w.Renews g p v) (hn : g.Serves id → SameAt w v id) :
    Onward g p w v (w.ready id).1 (v.ready id).1 ∧ (w.ready id).2 = (v.ready id).2 := by
  unfold World.ready
  rcases h.afresh.slots id with ⟨hs, hs'⟩ | ⟨s, s', hs, hs', -⟩
  · rw [hs, hs']
    exact ⟨.refl h, rfl⟩
  rw [hs, hs']
  obtain ⟨heq, hiff⟩ := h.serves_iff hs hs'
  simp only [heq]
  split
  · exact ⟨.refl h, rfl⟩
  next hservice =>
  have hnode : s.node = s'.node := (hn (hiff.1 (by simpa [heq] using hservice))).node hs hs'
  have hreply : Node.isReady s.node w.tick = Node.isReady s'.node v.tick := by
    rw [hnode, h.afresh.tick]
  rw [hreply]
  exact ⟨h.keepReply hs hs' nofun (hnode ▸ Node.Forgetful.ready_retains ..)
    (Node.Forgetful.ready_retains ..) (fun _ => rfl) (hreply ▸ .ready (w.life s) w.tick)
    (.ready (v.life s') v.tick), rfl⟩

theorem preempts (h : w.Renews g p v) (id : NodeId) : w.preempts id = v.preempts id := by
  unfold World.preempts
  rcases h.afresh.slots id with ⟨hs, hs'⟩ | ⟨s, s', hs, hs', -⟩
  · rw [hs, hs']
  rw [hs, hs']
  obtain ⟨x₀, hx, hx'⟩ := h.stemsFrom hs hs'
  have ht : Node.traits s.node = Node.traits s'.node := hx.traits_alike hx'
  have hs : Node.isService s.node = Node.isService s'.node := congrArg Node.Traits.isService ht
  have hp : Node.preempts s.node = Node.preempts s'.node := congrArg Node.Traits.preempts ht
  simp only [hs, hp]

/-- A service that is registered is from then on in the same state in both worlds. -/
theorem registered (h : w.Renews g p v) (id : NodeId) :
    Onward g p w v (w.registered id) (v.registered id) ∧
      (g.Serves id → SameAt (w.registered id) (v.registered id) id) := by
  unfold World.registered
  rcases h.afresh.slots id with ⟨hs, hs'⟩ | ⟨s, s', hs, hs', -⟩
  · rw [hs, hs']
    exact ⟨.refl h, fun _ => by simp [SameAt, hs, hs']⟩
  rw [hs, hs']
  obtain ⟨heq, hiff⟩ := h.serves_iff hs hs'
  simp only [heq]
  split
  · next hservice =>
    obtain ⟨x₀, hx, hx'⟩ := h.stemsFrom hs hs'
    have hservice : Node.isService s.node := heq ▸ hservice
    have hnode : (Node.registered s.node).node = (Node.registered s'.node).node :=
      Node.Forgetful.registered_alike hservice
        (hx.form_of_service hx' h.afresh.blackboard hservice)
    exact ⟨h.keepReply hs hs' nofun (Node.Forgetful.registered_retains _)
      (Node.Forgetful.registered_retains _) (fun _ => hnode) (.registered (w.life s))
      (.registered (v.life s')), fun _ => sameAt_of_node (slot?_keepReply hs ..)
        (slot?_keepReply hs' ..) hnode⟩
  · next hservice => exact ⟨.refl h, fun hg => absurd (heq ▸ hiff.2 hg) hservice⟩

theorem unregistered (h : w.Renews g p v) (id : NodeId) :
    Onward g p w v (w.unregistered id) (v.unregistered id) := by
  unfold World.unregistered
  rcases h.afresh.slots id with ⟨hs, hs'⟩ | ⟨s, s', hs, hs', -⟩
  · rw [hs, hs']
    exact .refl h
  rw [hs, hs']
  simp only [(h.serves_iff hs hs').1]
  split
  · exact h.keepReply hs hs' nofun (Node.Forgetful.unregistered_retains _)
      (Node.Forgetful.unregistered_retains _) (fun hn => by rw [hn]) (.unregistered (w.life s))
      (.unregistered (v.life s'))
  · exact .refl h

/-- The same tasks are due in both worlds. -/
theorem takeDue (h : w.Renews g p v) :
    Onward g p w v w.takeDue.2 v.takeDue.2 ∧
      w.takeDue.1 = v.takeDue.1.map (DeferredTask.after p.count) := by
  refine ⟨h.aside (h.afresh.setSchedule ?_) rfl rfl rfl rfl, ?_⟩
  · show (w.schedule.takeDue w.tick.moment).2.pending
      = (v.schedule.takeDue v.tick.moment).2.pending.map _
    rw [Schedule.pending_takeDue, Schedule.pending_takeDue, h.afresh.pending, h.afresh.tick,
      List.filter_map]
    rfl
  · show (w.schedule.takeDue w.tick.moment).1 = (v.schedule.takeDue v.tick.moment).1.map _
    rw [Schedule.takeDue_fst, Schedule.takeDue_fst, h.afresh.pending, h.afresh.tick,
      List.filter_map]
    rfl

end Renews

end World

end BehaviorTree
