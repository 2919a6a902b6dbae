/-
What stays as it is while nodes work.

A node changes by its own methods alone (`Node.Becomes`), and nothing that a stack does
changes the shape of the graph: names, parents, owners and attached services stay
(`Graph.Grown`). A step of a node moreover leaves the clock and the queue of events
alone, and it does not register a service (`World.Keeps`); there is one lemma for each
operation of the world.
-/
import BehaviorTree.World
import Mathlib.Logic.Relation

namespace BehaviorTree

/-! ## Nodes and graphs over time -/

namespace Node

variable {σ : Type} [Node σ]

/-- One method was called: the node before and after it. -/
inductive Moves : σ → σ → Prop
  | bind (s : σ) (b : Blackboard) : Moves s (Node.bind s b).node
  | execute (s : σ) (ctx : Context) : Moves s (Node.execute s ctx).node
  | receive (s : σ) (ctx : Context) (ok : Bool) : Moves s (Node.receive s ctx ok).node
  | stop (s : σ) (ctx : Context) : Moves s (Node.stop s ctx).node
  | hook (s : σ) (ctx : Context) (phase : Phase) : Moves s (Node.hook s ctx phase).node
  | ready (s : σ) (tick : Tick) : Moves s (Node.isReady s tick).node
  | registered (s : σ) : Moves s (Node.registered s).node
  | unregistered (s : σ) : Moves s (Node.unregistered s).node

/-- What a node may be after any calls of its methods. -/
def Becomes : σ → σ → Prop := Relation.ReflTransGen Moves

theorem Becomes.refl (s : σ) : Becomes s s := Relation.ReflTransGen.refl

theorem Becomes.trans {s t u : σ} (h : Becomes s t) (h' : Becomes t u) : Becomes s u :=
  Relation.ReflTransGen.trans h h'

theorem Moves.becomes {s t : σ} (h : Moves s t) : Becomes s t := Relation.ReflTransGen.single h

/-- What a node does as part of another is what it does by itself. -/
structure Embeds {σ τ : Type} [Node σ] [Node τ] (f : σ → τ) : Prop where
  bind : ∀ s b, Node.bind (f s) b = (Node.bind s b).map f
  execute : ∀ s ctx, Node.execute (f s) ctx = (Node.execute s ctx).map f
  receive : ∀ s ctx ok, Node.receive (f s) ctx ok = (Node.receive s ctx ok).map f
  stop : ∀ s ctx, Node.stop (f s) ctx = (Node.stop s ctx).map f
  hook : ∀ s ctx phase, Node.hook (f s) ctx phase = (Node.hook s ctx phase).map f
  isReady : ∀ s tick, Node.isReady (f s) tick = (Node.isReady s tick).map f
  registered : ∀ s, Node.registered (f s) = (Node.registered s).map f
  unregistered : ∀ s, Node.unregistered (f s) = (Node.unregistered s).map f

theorem embeds_inl {σ τ : Type} [Node σ] [Node τ] : Embeds (Sum.inl : σ → σ ⊕ τ) :=
  ⟨fun _ _ => rfl, fun _ _ => rfl, fun _ _ _ => rfl, fun _ _ => rfl, fun _ _ _ => rfl,
    fun _ _ => rfl, fun _ => rfl, fun _ => rfl⟩

theorem embeds_inr {σ τ : Type} [Node σ] [Node τ] : Embeds (Sum.inr : τ → σ ⊕ τ) :=
  ⟨fun _ _ => rfl, fun _ _ => rfl, fun _ _ _ => rfl, fun _ _ => rfl, fun _ _ _ => rfl,
    fun _ _ => rfl, fun _ => rfl, fun _ => rfl⟩

/-- A move of the whole is a move of the part. -/
theorem Embeds.moves {σ τ : Type} [Node σ] [Node τ] {f : σ → τ} (hf : Embeds f) {s : σ} {x : τ}
    (h : Moves (f s) x) : ∃ s', x = f s' ∧ Moves s s' := by
  cases h with
  | bind b => exact ⟨_, congrArg Reply.node (hf.bind s b), .bind s b⟩
  | execute ctx => exact ⟨_, congrArg Step.node (hf.execute s ctx), .execute s ctx⟩
  | receive ctx ok => exact ⟨_, congrArg Step.node (hf.receive s ctx ok), .receive s ctx ok⟩
  | stop ctx => exact ⟨_, congrArg Step.node (hf.stop s ctx), .stop s ctx⟩
  | hook ctx phase => exact ⟨_, congrArg Step.node (hf.hook s ctx phase), .hook s ctx phase⟩
  | ready tick => exact ⟨_, congrArg Reply.node (hf.isReady s tick), .ready s tick⟩
  | registered => exact ⟨_, congrArg Reply.node (hf.registered s), .registered s⟩
  | unregistered => exact ⟨_, congrArg Reply.node (hf.unregistered s), .unregistered s⟩

/-- The part goes on to be a part, of the same kind. -/
theorem Embeds.becomes {σ τ : Type} [Node σ] [Node τ] {f : σ → τ} (hf : Embeds f) {s : σ} {x : τ}
    (h : Becomes (f s) x) : ∃ s', x = f s' ∧ Becomes s s' := by
  induction h with
  | refl => exact ⟨s, rfl, .refl s⟩
  | tail _ h ih =>
    obtain ⟨s', rfl, hs⟩ := ih
    obtain ⟨s'', rfl, hm⟩ := hf.moves h
    exact ⟨s'', rfl, hs.tail hm⟩

end Node

/-- The same place in the graph at a later time. -/
structure Slot.Grown {σ : Type} [Node σ] (s s' : Slot σ) : Prop where
  name : s'.name = s.name
  parent : s'.parent = s.parent
  owner : s'.owner = s.owner
  services : s'.services = s.services
  node : Node.Becomes s.node s'.node

theorem Slot.Grown.refl {σ : Type} [Node σ] (s : Slot σ) : s.Grown s :=
  ⟨rfl, rfl, rfl, rfl, .refl _⟩

theorem Slot.Grown.trans {σ : Type} [Node σ] {s t u : Slot σ} (h : s.Grown t) (h' : t.Grown u) :
    s.Grown u :=
  ⟨h'.name.trans h.name, h'.parent.trans h.parent, h'.owner.trans h.owner,
    h'.services.trans h.services, h.node.trans h'.node⟩

namespace Graph

variable {σ : Type} [Node σ]

/-- The same graph at a later time. -/
def Grown (g g' : Graph σ) : Prop :=
  ∀ id, Option.Rel Slot.Grown (g.slot? id) (g'.slot? id)

theorem Grown.refl (g : Graph σ) : g.Grown g := by
  intro id
  cases g.slot? id with
  | none => exact .none
  | some s => exact .some (.refl s)

theorem Grown.trans {g₁ g₂ g₃ : Graph σ} (h : g₁.Grown g₂) (h' : g₂.Grown g₃) :
    g₁.Grown g₃ := by
  intro id
  have h₁ := h id
  have h₂ := h' id
  generalize g₁.slot? id = o₁ at h₁
  generalize g₂.slot? id = o₂ at h₁ h₂
  cases h₁ with
  | none => exact h₂
  | some hs =>
    generalize g₃.slot? id = o₃ at h₂
    cases h₂ with
    | some hs' => exact .some (hs.trans hs')

/-- Every slot of the later graph was there before. -/
theorem Grown.slot? {g g' : Graph σ} (h : g.Grown g') {id : NodeId} {s' : Slot σ}
    (hs : g'.slot? id = some s') : ∃ s, g.slot? id = some s ∧ s.Grown s' := by
  have h := h id
  rw [hs] at h
  generalize g.slot? id = o at h
  cases h with
  | some hs => exact ⟨_, rfl, hs⟩

/-- What is read off a slot's place in the graph is the same in both graphs. -/
theorem Grown.map_slot? {α : Type} {g g' : Graph σ} (h : g.Grown g') {f : Slot σ → α}
    (hf : ∀ s s' : Slot σ, s.Grown s' → f s' = f s) (id : NodeId) :
    (g'.slot? id).map f = (g.slot? id).map f := by
  have h := h id
  generalize g.slot? id = o, g'.slot? id = o' at h
  cases h with
  | none => rfl
  | some hs => simp [hf _ _ hs]

theorem Grown.contains {g g' : Graph σ} (h : g.Grown g') (id : NodeId) :
    g'.contains id = g.contains id := by
  have hm := h.map_slot? (f := fun _ => ()) (fun _ _ _ => rfl) id
  simpa [← isSome_slot?] using congrArg Option.isSome hm

theorem Grown.servicesOf {g g' : Graph σ} (h : g.Grown g') (id : NodeId) :
    g'.servicesOf id = g.servicesOf id := by
  have hm := h.map_slot? (fun _ _ hs => hs.services) id
  unfold Graph.servicesOf
  cases hg : g.slot? id <;> cases hg' : g'.slot? id <;> simp_all

/-- A change of one slot that leaves its place in the graph alone. -/
theorem grown_modify {g : Graph σ} {id : NodeId} {f : Slot σ → Slot σ}
    (h : ∀ s, g.slot? id = some s → s.Grown (f s)) : g.Grown (g.modify id f) := by
  intro other
  by_cases ho : other = id
  · subst ho
    rw [slot?_modify_self]
    cases hs : g.slot? other with
    | none => exact .none
    | some s => exact .some (h s hs)
  · rw [slot?_modify_of_ne g ho]
    exact Grown.refl g other

end Graph

/-! ## Registrations in the history -/

/-- Whether a record tells that the service came (`true`) or went (`false`). -/
def Record.registration? (service : NodeId) : Record → Option Bool
  | .called node .registered => if node = service then some true else none
  | .called node .unregistered => if node = service then some false else none
  | _ => none

namespace World

variable {σ : Type}

/-- The calls that told a service that it is registered, or that it no longer is, in the
order of time. -/
def registrations (w : World σ) (service : NodeId) : List Bool :=
  (w.history.filterMap (Record.registration? service)).reverse

theorem registrations_record (w : World σ) (r : Record) (service : NodeId) :
    (w.record r).registrations service
      = w.registrations service ++ (r.registration? service).toList := by
  cases h : r.registration? service <;> simp [registrations, record, h]

/-! ## Steps of nodes -/

theorem graph_hear (w : World σ) (id : NodeId) (messages : List Message) :
    (w.hear id messages).graph = w.graph := by
  unfold hear
  induction messages generalizing w with
  | nil => rfl
  | cons m ms ih => exact ih _

theorem graph_tell (w : World σ) (id : NodeId) (observers : List Observer) :
    (w.tell id observers).graph = w.graph := by
  unfold tell
  induction observers generalizing w with
  | nil => rfl
  | cons o os ih => exact ih _

variable [Node σ]

/-- What every act of a stack leaves alone. -/
structure Frame (w w' : World σ) : Prop where
  graph : w.graph.Grown w'.graph
  tick : w'.tick = w.tick
  registrations : ∀ service, w'.registrations service = w.registrations service

/-- What every step of a node leaves alone, and so does every record of the trace, of the
log or for the host. -/
structure Keeps (w w' : World σ) : Prop extends Frame w w' where
  events : w'.events = w.events

theorem Frame.refl (w : World σ) : Frame w w := ⟨.refl _, rfl, fun _ => rfl⟩

theorem Frame.trans {w₁ w₂ w₃ : World σ} (h : Frame w₁ w₂) (h' : Frame w₂ w₃) : Frame w₁ w₃ :=
  ⟨h.graph.trans h'.graph, h'.tick.trans h.tick,
    fun s => (h'.registrations s).trans (h.registrations s)⟩

theorem Frame.record (w : World σ) {r : Record}
    (hr : ∀ service, r.registration? service = none) : Frame w (w.record r) :=
  ⟨.refl _, rfl, fun s => by simp [registrations_record, hr]⟩

theorem Frame.enqueue (w : World σ) (event : StackEvent) : Frame w (w.enqueue event) :=
  ⟨.refl _, rfl, fun _ => rfl⟩

namespace Keeps

theorem refl (w : World σ) : Keeps w w := ⟨.refl w, rfl⟩

theorem trans {w₁ w₂ w₃ : World σ} (h : Keeps w₁ w₂) (h' : Keeps w₂ w₃) : Keeps w₁ w₃ :=
  ⟨h.toFrame.trans h'.toFrame, h'.events.trans h.events⟩

theorem record (w : World σ) {r : Record} (hr : ∀ service, r.registration? service = none) :
    Keeps w (w.record r) :=
  ⟨.record w hr, rfl⟩

theorem trace (w : World σ) (tag : String) (stack : StackLabel) (node : Option NodeId)
    (value : Int) : Keeps w (w.trace tag stack node value) :=
  record w fun _ => rfl

theorem report (w : World σ) (d : Diagnostic) : Keeps w (w.report d) :=
  record w fun _ => rfl

theorem modify {w : World σ} {id : NodeId} {f : Slot σ → Slot σ}
    (h : ∀ s, w.graph.slot? id = some s → s.Grown (f s)) : Keeps w (w.modify id f) :=
  ⟨⟨Graph.grown_modify h, rfl, fun _ => rfl⟩, rfl⟩

theorem blackboard (w : World σ) (b : Blackboard) : Keeps w { w with blackboard := b } :=
  ⟨⟨.refl _, rfl, fun _ => rfl⟩, rfl⟩

theorem schedule (w : World σ) (s : Schedule) : Keeps w { w with schedule := s } :=
  ⟨⟨.refl _, rfl, fun _ => rfl⟩, rfl⟩

theorem foldl {α : Type} {f : World σ → α → World σ} (h : ∀ w a, Keeps w (f w a)) :
    ∀ (l : List α) (w : World σ), Keeps w (l.foldl f w)
  | [], w => refl w
  | a :: l, w => (h w a).trans (foldl h l (f w a))

theorem hear (w : World σ) (id : NodeId) (messages : List Message) :
    Keeps w (w.hear id messages) :=
  foldl (fun w _ => record w fun _ => rfl) messages w

theorem tell (w : World σ) (id : NodeId) (observers : List Observer) :
    Keeps w (w.tell id observers) :=
  foldl (fun w _ => record w fun _ => rfl) observers w

/-- A step is kept whatever it asked for, once it is a step of the node that is there. -/
theorem keep {α : Type} {w : World σ} {id : NodeId} {s : Slot σ} {step : Step σ α}
    (hs : w.graph.slot? id = some s) (hm : Node.Moves s.node step.node) :
    Keeps w (w.keep id step) := by
  have hn : Keeps w (w.modify id fun s => { s with node := step.node }) :=
    modify fun s h => by
      rw [hs] at h
      cases h
      exact ⟨rfl, rfl, rfl, rfl, hm.becomes⟩
  have hh := hn.trans ((blackboard _ step.effects.blackboard).trans
    (hear _ id step.effects.messages))
  unfold World.keep
  split
  · exact hh
  · exact hh.trans (record _ fun _ => rfl)

theorem absorb {α : Type} {w : World σ} {id : NodeId} {s : Slot σ} {step : Step σ α}
    (activation : Nat) (hs : w.graph.slot? id = some s) (hm : Node.Moves s.node step.node) :
    Keeps w (w.absorb id activation step) := by
  refine (keep hs hm).trans (.trans (.modify fun s _ => ?_) (.schedule _ _))
  exact ⟨rfl, rfl, rfl, rfl, .refl _⟩

theorem keepReply {α : Type} {w : World σ} {id : NodeId} {s : Slot σ} {call : Call}
    {reply : Reply σ α} (hs : w.graph.slot? id = some s) (hm : Node.Moves s.node reply.node)
    (hc : ∀ service, (Record.called id call).registration? service = none) :
    Keeps w (w.keepReply id call reply) :=
  (record w hc).trans <| (modify fun s h => by
    cases hs.symm.trans h
    exact ⟨rfl, rfl, rfl, rfl, hm.becomes⟩).trans (hear _ id reply.messages)

end Keeps

/-- Binding keeps the world, and the node that it hands on is the one in the graph. -/
theorem bindOnce_keeps {w : World σ} {id : NodeId} {s slot : Slot σ}
    (hs : w.graph.slot? id = some s) (hn : s.node = slot.node) :
    Keeps w (w.bindOnce id slot).1 ∧
      ∃ s', (w.bindOnce id slot).1.graph.slot? id = some s' ∧
        s'.node = (w.bindOnce id slot).2.1 := by
  unfold bindOnce
  split
  · exact ⟨.refl w, s, hs, hn⟩
  · have hk : Keeps w (w.keepReply id .bind (Node.bind slot.node w.blackboard)) :=
      .keepReply hs (hn ▸ .bind _ _) fun _ => rfl
    refine ⟨hk.trans (.modify fun s _ => ⟨rfl, rfl, rfl, rfl, .refl _⟩), ?_⟩
    simp [keepReply, World.modify, graph_hear, record, Graph.slot?_modify_self, hs]

theorem becomes_bindOnce (w : World σ) (id : NodeId) (slot : Slot σ) :
    Node.Becomes slot.node (w.bindOnce id slot).2.1 := by
  unfold bindOnce
  split
  · exact .refl _
  · exact (Node.Moves.bind _ _).becomes

/-! ## The operations of the world -/

theorem execute_keeps {w w' : World σ} {id : NodeId} {d : Dispatch}
    (h : w.execute id = .ok (w', d)) : Keeps w w' := by
  unfold execute at h
  split at h
  · cases h
  next slot hs =>
  have ha : Keeps w (w.modify id fun s => { s with activation := slot.activation + 1 }) :=
    .modify fun s _ => ⟨rfl, rfl, rfl, rfl, .refl _⟩
  have hs' : (w.modify id fun s => { s with activation := slot.activation + 1 }).graph.slot? id
      = some { slot with activation := slot.activation + 1 } := by
    simp [World.modify, Graph.slot?_modify_self, hs]
  have hn : ({ slot with activation := slot.activation + 1 } : Slot σ).node = slot.node := rfl
  have hb := bindOnce_keeps hs' hn
  simp only at h
  split at h
  · next hw =>
    cases h
    rw [hw] at hb
    exact ha.trans hb.1
  · next hw =>
    cases h
    rw [hw] at hb
    obtain ⟨hk, s, hs', hn⟩ := hb
    refine (ha.trans hk).trans ((Keeps.record _ fun _ => rfl).trans (.absorb _ (s := s) hs' ?_))
    rw [hn]
    exact .execute _ _

theorem receive_keeps {w w' : World σ} {id : NodeId} {ok : Bool} {d : Dispatch}
    (h : w.receive id ok = .ok (w', d)) : Keeps w w' := by
  unfold receive at h
  split at h
  · cases h
  next slot hs =>
  cases h
  exact (Keeps.record _ fun _ => rfl).trans (.absorb _ hs (.receive _ _ _))

theorem stop_keeps {w w' : World σ} {id : NodeId} (h : w.stop id = .ok w') : Keeps w w' := by
  unfold stop at h
  split at h
  · cases h
  next slot hs =>
  cases h
  have hk := (Keeps.record w (r := .called id .stop) fun _ => rfl).trans
    (.keep (s := slot) hs (.stop _ (w.context id slot.activation)))
  refine hk.trans (.trans (.modify fun s _ => ?_) (.schedule _ _))
  exact ⟨rfl, rfl, rfl, rfl, .refl _⟩

theorem interrupt_keeps {w w' : World σ} {id : NodeId} (h : w.interrupt id = .ok w') :
    Keeps w w' := by
  unfold interrupt at h
  split at h
  · cases h
  next slot hs =>
  refine (Keeps.tell w id slot.observers).trans (.trans (.modify fun s _ => ?_) (stop_keeps h))
  exact ⟨rfl, rfl, rfl, rfl, .refl _⟩

theorem hook_keeps (w : World σ) (id : NodeId) (phase : Phase) : Keeps w (w.hook id phase).1 := by
  unfold hook
  split
  · exact .refl w
  next slot hs =>
  split
  · exact .refl w
  · have hk := (Keeps.record w (r := .called id (.hook phase)) fun _ => rfl).trans
      (.absorb slot.activation (s := slot) hs (.hook _ (w.context id slot.activation) phase))
    simp only
    split <;> exact hk

theorem ready_keeps (w : World σ) (id : NodeId) : Keeps w (w.ready id).1 := by
  unfold ready
  split
  · exact .refl w
  next slot hs =>
  split
  · exact .refl w
  · exact .keepReply hs (.ready _ _) fun _ => rfl

/-- Whether the node is a service at the moment. -/
def isService (w : World σ) (id : NodeId) : Bool :=
  (w.graph.slot? id).any fun slot => Node.isService slot.node

theorem isService_eq {w w' : World σ} {id : NodeId} (h : w'.graph.slot? id = w.graph.slot? id) :
    w'.isService id = w.isService id := by
  unfold isService
  rw [h]

/-- Whatever is no service is not asked whether it is ready. -/
theorem ready_of_not_isService {w : World σ} {id : NodeId} (h : w.isService id = false) :
    w.ready id = (w, false) := by
  unfold ready
  split
  · rfl
  · next slot hs =>
    have hi : Node.isService slot.node = false := by simpa [isService, hs] using h
    simp [hi]

/-- Telling a service that it is registered is a call of the service, if it is one. -/
theorem registered_cases (w : World σ) (id : NodeId) :
    w.registered id = w ∨ ∃ slot, w.graph.slot? id = some slot ∧ Node.isService slot.node ∧
      w.registered id = w.keepReply id .registered (Node.registered slot.node) := by
  unfold registered
  split
  · exact .inl rfl
  next slot hs =>
  split
  · next hi => exact .inr ⟨slot, hs, hi, rfl⟩
  · exact .inl rfl

theorem unregistered_cases (w : World σ) (id : NodeId) :
    w.unregistered id = w ∨ ∃ slot, w.graph.slot? id = some slot ∧ Node.isService slot.node ∧
      w.unregistered id = w.keepReply id .unregistered (Node.unregistered slot.node) := by
  unfold unregistered
  split
  · exact .inl rfl
  next slot hs =>
  split
  · next hi => exact .inr ⟨slot, hs, hi, rfl⟩
  · exact .inl rfl

theorem registered_of_not_isService {w : World σ} {id : NodeId} (h : w.isService id = false) :
    w.registered id = w := by
  rcases registered_cases w id with he | ⟨slot, hs, hi, -⟩
  · exact he
  · simp [isService, hs, hi] at h

theorem unregistered_of_not_isService {w : World σ} {id : NodeId} (h : w.isService id = false) :
    w.unregistered id = w := by
  rcases unregistered_cases w id with he | ⟨slot, hs, hi, -⟩
  · exact he
  · simp [isService, hs, hi] at h

theorem keepReply_grown {α : Type} {w : World σ} {id : NodeId} {s : Slot σ} {call : Call}
    {reply : Reply σ α} (hs : w.graph.slot? id = some s) (hm : Node.Moves s.node reply.node) :
    w.graph.Grown (w.keepReply id call reply).graph := by
  unfold keepReply
  rw [graph_hear]
  refine Graph.grown_modify fun t ht => ?_
  cases hs.symm.trans ht
  exact ⟨rfl, rfl, rfl, rfl, hm.becomes⟩

theorem registered_grown (w : World σ) (id : NodeId) :
    w.graph.Grown (w.registered id).graph := by
  rcases registered_cases w id with h | ⟨slot, hs, -, h⟩
  · rw [h]
    exact .refl _
  · rw [h]
    exact keepReply_grown hs (.registered _)

theorem unregistered_grown (w : World σ) (id : NodeId) :
    w.graph.Grown (w.unregistered id).graph := by
  rcases unregistered_cases w id with h | ⟨slot, hs, -, h⟩
  · rw [h]
    exact .refl _
  · rw [h]
    exact keepReply_grown hs (.unregistered _)

theorem tick_keepReply {α : Type} (w : World σ) (id : NodeId) (call : Call) (reply : Reply σ α) :
    (w.keepReply id call reply).tick = w.tick :=
  (Keeps.hear _ id reply.messages).tick

theorem tick_registered (w : World σ) (id : NodeId) : (w.registered id).tick = w.tick := by
  rcases registered_cases w id with h | ⟨slot, -, -, h⟩
  · rw [h]
  · rw [h, tick_keepReply]

theorem tick_unregistered (w : World σ) (id : NodeId) : (w.unregistered id).tick = w.tick := by
  rcases unregistered_cases w id with h | ⟨slot, -, -, h⟩
  · rw [h]
  · rw [h, tick_keepReply]

theorem registrations_hear (w : World σ) (id : NodeId) (messages : List Message) (s : NodeId) :
    (w.hear id messages).registrations s = w.registrations s :=
  (Keeps.hear w id messages).registrations s

/-- A call of a service is heard by that service alone. -/
theorem registrations_keepReply {α : Type} (w : World σ) (id s : NodeId) (call : Call)
    (reply : Reply σ α) : (w.keepReply id call reply).registrations s
      = w.registrations s ++ ((Record.called id call).registration? s).toList := by
  unfold keepReply
  rw [registrations_hear, ← registrations_record]
  rfl

theorem registrations_registered_of_ne (w : World σ) {id s : NodeId} (h : id ≠ s) :
    (w.registered id).registrations s = w.registrations s := by
  rcases registered_cases w id with he | ⟨slot, -, -, he⟩
  · rw [he]
  · rw [he, registrations_keepReply]
    simp [Record.registration?, h]

theorem registrations_registered_self (w : World σ) (id : NodeId) :
    (w.registered id).registrations id
      = w.registrations id ++ if w.isService id then [true] else [] := by
  unfold registered isService
  split
  · next hs => simp [hs]
  next slot hs =>
  split
  · next hi =>
    rw [registrations_keepReply]
    simp [hs, hi, Record.registration?]
  · next hi => simp [hs, hi]

theorem registrations_unregistered_of_ne (w : World σ) {id s : NodeId} (h : id ≠ s) :
    (w.unregistered id).registrations s = w.registrations s := by
  rcases unregistered_cases w id with he | ⟨slot, -, -, he⟩
  · rw [he]
  · rw [he, registrations_keepReply]
    simp [Record.registration?, h]

theorem registrations_unregistered_self (w : World σ) (id : NodeId) :
    (w.unregistered id).registrations id
      = w.registrations id ++ if w.isService id then [false] else [] := by
  unfold unregistered isService
  split
  · next hs => simp [hs]
  next slot hs =>
  split
  · next hi =>
    rw [registrations_keepReply]
    simp [hs, hi, Record.registration?]
  · next hi => simp [hs, hi]

/-- What is answered is the answer of the node that is there, or of what binding made of it. -/
theorem execute_answered {w w' : World σ} {id : NodeId} {status : Status} {calls : List NodeId}
    (h : w.execute id = .ok (w', .answered status calls)) :
    ∃ slot node ctx, w.graph.slot? id = some slot ∧ Node.Becomes slot.node node ∧
      (Node.execute node ctx).answer = status ∧ (Node.execute node ctx).effects.calls = calls := by
  unfold execute at h
  split at h
  · cases h
  next slot hs =>
  simp only at h
  split at h
  · cases h
  · next w₁ node hb =>
    cases h
    have hnode := becomes_bindOnce (w.modify id fun s =>
      { s with activation := slot.activation + 1 }) id slot
    rw [hb] at hnode
    exact ⟨slot, node, _, hs, hnode, rfl, rfl⟩

theorem receive_answered {w w' : World σ} {id : NodeId} {ok : Bool} {status : Status}
    {calls : List NodeId} (h : w.receive id ok = .ok (w', .answered status calls)) :
    ∃ slot ctx, w.graph.slot? id = some slot ∧ (Node.receive slot.node ctx ok).answer = status ∧
      (Node.receive slot.node ctx ok).effects.calls = calls := by
  unfold receive at h
  split at h
  · cases h
  next slot hs =>
  cases h
  exact ⟨slot, _, hs, rfl, rfl⟩

/-- What comes of a hook is what the node answered. -/
theorem hook_answered {w w' : World σ} {id : NodeId} {phase : Phase} {outcome : HookOutcome}
    (h : w.hook id phase = (w', .ok (some outcome))) :
    ∃ slot ctx, w.graph.slot? id = some slot ∧ Node.hasHooks slot.node ∧
      (Node.hook slot.node ctx phase).answer = outcome := by
  unfold hook at h
  split at h
  · cases h
  next slot hs =>
  split at h
  · cases h
  next hh =>
  simp only at h
  split at h
  · cases h
    exact ⟨slot, _, hs, by simpa using hh, rfl⟩
  · cases h

/-! ## Nodes that are in the graph -/

theorem exists_execute {w : World σ} {id : NodeId} (h : w.graph.contains id) :
    ∃ w' d, w.execute id = .ok (w', d) := by
  obtain ⟨slot, hs⟩ := Option.isSome_iff_exists.1 ((Graph.isSome_slot? w.graph id).trans h)
  unfold execute
  rw [hs]
  simp only
  split
  · exact ⟨_, _, rfl⟩
  · exact ⟨_, _, rfl⟩

theorem exists_receive {w : World σ} {id : NodeId} (h : w.graph.contains id) (ok : Bool) :
    ∃ w' d, w.receive id ok = .ok (w', d) := by
  obtain ⟨slot, hs⟩ := Option.isSome_iff_exists.1 ((Graph.isSome_slot? w.graph id).trans h)
  unfold receive
  rw [hs]
  exact ⟨_, _, rfl⟩

theorem exists_stop {w : World σ} {id : NodeId} (h : w.graph.contains id) :
    ∃ w', w.stop id = .ok w' := by
  obtain ⟨slot, hs⟩ := Option.isSome_iff_exists.1 ((Graph.isSome_slot? w.graph id).trans h)
  unfold stop
  rw [hs]
  exact ⟨_, rfl⟩

theorem exists_interrupt {w : World σ} {id : NodeId} (h : w.graph.contains id) :
    ∃ w', w.interrupt id = .ok w' := by
  obtain ⟨slot, hs⟩ := Option.isSome_iff_exists.1 ((Graph.isSome_slot? w.graph id).trans h)
  unfold interrupt
  rw [hs]
  exact exists_stop (by simpa [World.modify, graph_tell] using h)

end World

end BehaviorTree
