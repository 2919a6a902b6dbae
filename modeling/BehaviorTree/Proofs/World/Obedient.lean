/-
Nodes that keep to the rules, and the worlds that they live in.

A node has to keep to the rules only as long as it is used as stacks use it (`Life.Next`). It
is obedient if all of its steps are proper in every life that it can have, whatever stacks it
is on.

In the world of obedient nodes each operation finds them as it needs them and leaves them so,
and nothing that went wrong inside a node is ever recorded.
-/
import BehaviorTree.Proofs.World.Lives

namespace BehaviorTree

/-- The step goes through to its end, and leaves every variable its type. -/
structure Step.Whole {σ α : Type} (b : Blackboard) (step : Step σ α) : Prop where
  keeps : b.Keeps step.effects.blackboard
  unbroken : step.effects.broken = none

/-- What a node with children `cs` may answer: that it is suspended, its outcome, or that it
called one child. -/
inductive Status.Proper (cs : List NodeId) : Status → List NodeId → Prop
  | ended (ok : Bool) : Proper cs (.of ok) []
  | wait : Proper cs .wait []
  | waitUntilNextUpdate : Proper cs .waitUntilNextUpdate []
  | called {child : NodeId} (h : child ∈ cs) : Proper cs .noReturn [child]

/-- What may come of turning to a node with children `cs`. -/
inductive Dispatch.Proper (cs : List NodeId) : Dispatch → Prop
  | bindFailed (e : VariableError) : Proper cs (.bindFailed e)
  | answered {status : Status} {calls : List NodeId} (h : status.Proper cs calls) :
      Proper cs (.answered status calls)

/-- A step that a stack can go on from. -/
structure Step.Proper {σ : Type} (cs : List NodeId) (b : Blackboard) (step : Step σ Status) : Prop
    extends Step.Whole b step where
  answer : step.answer.Proper cs step.effects.calls

/-- What a hook may answer: that the node goes on waiting, or a status that is no error. -/
structure Step.ProperHook {σ : Type} (b : Blackboard) (step : Step σ HookOutcome) : Prop
    extends Step.Whole b step where
  calls : step.effects.calls = []
  answer : ∀ status, step.answer = .ended status → status.Proper [] []

theorem Step.Whole.map {σ τ α : Type} {b : Blackboard} {step : Step σ α} (h : step.Whole b)
    (f : σ → τ) : (step.map f).Whole b :=
  ⟨h.keeps, h.unbroken⟩

theorem Step.Proper.map {σ τ : Type} {cs : List NodeId} {b : Blackboard} {step : Step σ Status}
    (h : step.Proper cs b) (f : σ → τ) : (step.map f).Proper cs b :=
  ⟨h.toWhole.map f, h.answer⟩

theorem Step.ProperHook.map {σ τ : Type} {b : Blackboard} {step : Step σ HookOutcome}
    (h : step.ProperHook b) (f : σ → τ) : (step.map f).ProperHook b :=
  ⟨h.toWhole.map f, h.calls, h.answer⟩

/-! ## Obedient nodes -/

namespace Life

variable {σ τ : Type} [Node σ] [Node τ] {cs : List NodeId}

/-- The steps that a node may be asked for in this moment are proper. -/
structure Proper (cs : List NodeId) (l : Life σ) : Prop where
  execute : l.bound = true → ∀ ctx, ctx.blackboard = l.blackboard →
    (Node.execute l.node ctx).Proper cs l.blackboard
  receive : cs ≠ [] → ∀ ctx, ctx.blackboard = l.blackboard → ∀ ok,
    (Node.receive l.node ctx ok).Proper cs l.blackboard
  stop : ∀ ctx, ctx.blackboard = l.blackboard → (Node.stop l.node ctx).Whole l.blackboard
  hook : ∀ ctx, ctx.blackboard = l.blackboard → ∀ phase,
    (Node.hook l.node ctx phase).ProperHook l.blackboard

/-- Whatever becomes of the node, its steps are proper. -/
def Obedient (cs : List NodeId) (l : Life σ) : Prop :=
  ∀ l', Relation.ReflTransGen (Next cs) l l' → l'.Proper cs

theorem Obedient.proper {l : Life σ} (h : l.Obedient cs) : l.Proper cs := h l .refl

theorem Obedient.next {l l' : Life σ} (h : l.Obedient cs) (hn : Next cs l l') : l'.Obedient cs :=
  fun l'' h' => h l'' (.head hn h')

/-- It is enough that an invariant of the node makes its steps proper. -/
theorem Obedient.of_invariant {I : Life σ → Prop} {l : Life σ} (hl : I l)
    (hp : ∀ l, I l → l.Proper cs) (hn : ∀ l l', I l → Next cs l l' → I l') : l.Obedient cs := by
  intro l' h
  refine hp l' ?_
  induction h with
  | refl => exact hl
  | tail _ h ih => exact hn _ _ ih h

theorem Proper.embeds {f : σ → τ} (hf : Node.Embeds f) {l : Life σ} (h : l.Proper cs) :
    (l.map f).Proper cs := by
  refine ⟨fun hb ctx hc => ?_, fun hcs ctx hc ok => ?_, fun ctx hc => ?_, fun ctx hc phase => ?_⟩
  all_goals rw [show (l.map f).node = f l.node from rfl]
  · rw [hf.execute]
    exact (h.execute hb ctx hc).map f
  · rw [hf.receive]
    exact (h.receive hcs ctx hc ok).map f
  · rw [hf.stop]
    exact (h.stop ctx hc).map f
  · rw [hf.hook]
    exact (h.hook ctx hc phase).map f

/-- An obedient node is obedient as part of another. -/
theorem Obedient.embeds {f : σ → τ} (hf : Node.Embeds f) {l : Life σ} (h : l.Obedient cs) :
    (l.map f).Obedient cs := by
  refine .of_invariant (I := fun x => ∃ l', x = l'.map f ∧ l'.Obedient cs) ⟨l, rfl, h⟩ ?_ ?_
  · rintro x ⟨l, rfl, h⟩
    exact h.proper.embeds hf
  · rintro x y ⟨l, rfl, h⟩ hn
    obtain ⟨l', rfl, hn'⟩ := hn.embeds hf
    exact ⟨l', rfl, h.next hn'⟩

theorem Obedient.inl {l : Life σ} (h : l.Obedient cs) : (l.map .inl : Life (σ ⊕ τ)).Obedient cs :=
  h.embeds Node.embeds_inl

theorem Obedient.inr {l : Life τ} (h : l.Obedient cs) : (l.map .inr : Life (σ ⊕ τ)).Obedient cs :=
  h.embeds Node.embeds_inr

end Life

/-! ## Worlds of obedient nodes -/

/-- The record tells that something went wrong inside a node: it broke off over a reference,
or it answered with an error. -/
def Record.isFailure : Record → Bool
  | .broken .. => true
  | .reported d => d.kind = .errorResult
  | _ => false

/-- Every moment of an obedient life keeps it obedient, and leaves every variable its type. -/
theorem Life.obedient_lasting {σ : Type} [Node σ] (g : Graph σ) :
    Life.Lasting g.children fun id (l : Life σ) => l.Obedient (g.children id) where
  next h hn := h.next hn
  keeps := by
    intro id l l' h hn
    have hp := h.proper
    cases hn with
    | edited hb => exact hb
    | bind | ready | registered | unregistered => exact .refl _
    | execute hb hc => exact (hp.execute hb _ hc).keeps
    | receive hcs hc ok => exact (hp.receive hcs _ hc ok).keeps
    | stop hc => exact (hp.stop _ hc).keeps
    | hook hc phase => exact (hp.hook _ hc phase).keeps

namespace World

variable {σ : Type}

/-! ## Nothing that went wrong is recorded -/

/-- Nothing went wrong inside a node so far. -/
def Clean (w : World σ) : Prop := ∀ r ∈ w.history, r.isFailure = false

namespace Clean

variable {α : Type} {w w' : World σ}

theorem record (h : w.Clean) {r : Record} (hr : r.isFailure = false) : (w.record r).Clean :=
  List.forall_mem_cons.2 ⟨hr, h⟩

theorem hear (h : w.Clean) (id : NodeId) (messages : List Message) :
    (w.hear id messages).Clean := by
  unfold World.hear
  induction messages generalizing w with
  | nil => exact h
  | cons m ms ih => exact ih (h.record rfl)

theorem tell (h : w.Clean) (id : NodeId) (observers : List Observer) :
    (w.tell id observers).Clean := by
  unfold World.tell
  induction observers generalizing w with
  | nil => exact h
  | cons o os ih => exact ih (h.record rfl)

theorem keep {step : Step σ α} (h : w.Clean) (id : NodeId) (hs : step.effects.broken = none) :
    (w.keep id step).Clean := by
  have hc : Clean { w.modify id fun s => { s with node := step.node } with
    blackboard := step.effects.blackboard } := h
  unfold World.keep
  rw [hs]
  exact hc.hear id step.effects.messages

theorem absorb {step : Step σ α} (h : w.Clean) (id : NodeId) (activation : Nat)
    (hs : step.effects.broken = none) : (w.absorb id activation step).Clean :=
  h.keep id hs

theorem keepReply (h : w.Clean) (id : NodeId) (call : Call) (reply : Reply σ α) :
    (w.keepReply id call reply).Clean := by
  have hc : Clean ((w.record (.called id call)).modify id fun s => { s with node := reply.node }) :=
    h.record rfl
  exact hc.hear id reply.messages

theorem bindOnce [Node σ] (h : w.Clean) (id : NodeId) (slot : Slot σ) :
    (w.bindOnce id slot).1.Clean := by
  unfold World.bindOnce
  split
  · exact h
  · exact h.keepReply id .bind _

end Clean

variable [Node σ] {g : Graph σ} {w w' : World σ} {id : NodeId} {slot : Slot σ}

/-- The nodes of the graph `g` are at work, all of them obedient, and nothing went wrong
inside one so far. -/
structure Obedient (g : Graph σ) (w : World σ) : Prop where
  nodes : ∀ id slot, w.graph.slot? id = some slot → (w.life slot).Obedient (g.children id)
  clean : ∀ r ∈ w.history, r.isFailure = false

namespace Obedient

theorem living (h : w.Obedient g) : w.Living fun id l => l.Obedient (g.children id) := h.nodes

/-- The graph, the variables and the records are all that counts. -/
theorem of_eq (h : w.Obedient g) (hg : w'.graph = w.graph) (hb : w'.blackboard = w.blackboard)
    (hh : w'.history = w.history) : w'.Obedient g :=
  ⟨h.living.of_eq hg hb, fun r hr => h.clean r (hh ▸ hr)⟩

theorem record (h : w.Obedient g) {r : Record} (hr : r.isFailure = false) :
    (w.record r).Obedient g :=
  ⟨h.nodes, Clean.record h.clean hr⟩

theorem trace (h : w.Obedient g) (tag : String) (stack : StackLabel) (node : Option NodeId)
    (value : Int) : (w.trace tag stack node value).Obedient g :=
  h.record rfl

theorem warn (h : w.Obedient g) (message : String) (fields : List (String × String)) :
    (w.warn message fields).Obedient g :=
  h.record rfl

theorem report (h : w.Obedient g) {d : Diagnostic} (hd : d.kind ≠ .errorResult) :
    (w.report d).Obedient g :=
  h.record (by simp [Record.isFailure, hd])

/-- The variables change, and each keeps its type. -/
theorem edited (h : w.Obedient g) {b : Blackboard} (hb : w.blackboard.Keeps b) :
    ({ w with blackboard := b } : World σ).Obedient g :=
  ⟨h.living.edited (Life.obedient_lasting g) hb, h.clean⟩

/-! ## The operations of the world -/

theorem execute {d : Dispatch} (h : w.Obedient g) (he : w.execute id = .ok (w', d)) :
    w'.Obedient g ∧ d.Proper (g.children id) := by
  have hlasting := Life.obedient_lasting g
  have hnodes := h.living.execute hlasting he
  unfold World.execute at he
  split at he
  · cases he
  next slot hs =>
  have ha := h.living.modify hlasting id
    (f := fun s => { s with activation := slot.activation + 1 }) (fun _ => rfl) fun _ => rfl
  obtain ⟨hb, hbound⟩ := ha.bindOnce hlasting slot (slot?_modify hs _) rfl rfl
  have hc : Clean (w.modify id fun s => { s with activation := slot.activation + 1 }) := h.clean
  have hclean := hc.bindOnce id slot
  simp only at he
  split at he
  · next hw =>
    cases he
    rw [hw] at hclean
    exact ⟨⟨hnodes, hclean⟩, .bindFailed _⟩
  · next w₁ node hw =>
    cases he
    rw [hw] at hb hbound hclean
    obtain ⟨s, hs, rfl, hsb⟩ := hbound rfl
    have hstep := (hb id s hs).proper.execute hsb (w₁.context id (slot.activation + 1)) rfl
    have hr : (w₁.record (.called id .execute)).Clean := hclean.record rfl
    exact ⟨⟨hnodes, hr.absorb id _ hstep.unbroken⟩, .answered hstep.answer⟩

/-- Only a node with children is handed a result. -/
theorem receive {ok : Bool} {d : Dispatch} (h : w.Obedient g) (hcs : g.children id ≠ [])
    (he : w.receive id ok = .ok (w', d)) : w'.Obedient g ∧ d.Proper (g.children id) := by
  have hnodes := h.living.receive (Life.obedient_lasting g) hcs he
  unfold World.receive at he
  split at he
  · cases he
  next slot hs =>
  cases he
  have hstep := (h.nodes id slot hs).proper.receive hcs (w.context id slot.activation) rfl ok
  have hr : (w.record (.called id (.receive ok))).Clean := Clean.record h.clean rfl
  exact ⟨⟨hnodes, hr.absorb id _ hstep.unbroken⟩, .answered hstep.answer⟩

theorem stop (h : w.Obedient g) (he : w.stop id = .ok w') : w'.Obedient g := by
  have hnodes := h.living.stop (Life.obedient_lasting g) he
  unfold World.stop at he
  split at he
  · cases he
  next slot hs =>
  cases he
  have hstep := (h.nodes id slot hs).proper.stop (w.context id slot.activation) rfl
  have hr : (w.record (.called id .stop)).Clean := Clean.record h.clean rfl
  exact ⟨hnodes, hr.keep id hstep.unbroken⟩

theorem interrupt (h : w.Obedient g) (he : w.interrupt id = .ok w') : w'.Obedient g := by
  unfold World.interrupt at he
  split at he
  · cases he
  next slot hs =>
  have ht := (h.living.tell id slot.observers).modify (Life.obedient_lasting g) id
    (f := fun s => { s with observers := [] }) (fun _ => rfl) fun _ => rfl
  exact stop ⟨ht, Clean.tell h.clean id slot.observers⟩ he

/-- A hook is only forwarded, and what it answers is a proper status. -/
theorem hook (h : w.Obedient g) (id : NodeId) (hid : w.graph.contains id) (phase : Phase) :
    (w.hook id phase).1.Obedient g ∧ ∃ answer, (w.hook id phase).2 = .ok answer ∧
      ∀ status, answer = some (.ended status) → status.Proper [] [] := by
  have hnodes := h.living.hook (Life.obedient_lasting g) id phase
  obtain ⟨slot, hs⟩ := Option.isSome_iff_exists.1 ((Graph.isSome_slot? w.graph id).trans hid)
  unfold World.hook at hnodes ⊢
  rw [hs] at hnodes ⊢
  simp only at hnodes ⊢
  split
  · exact ⟨h, none, rfl, nofun⟩
  next hh =>
  have hstep : (Node.hook slot.node (w.context id slot.activation) phase).ProperHook w.blackboard :=
    (h.nodes id slot hs).proper.hook _ rfl phase
  have hr : (w.record (.called id (.hook phase))).Clean := Clean.record h.clean rfl
  rw [if_neg hh, hstep.calls] at hnodes
  rw [hstep.calls]
  exact ⟨⟨hnodes, hr.absorb id _ hstep.unbroken⟩, _, rfl,
    fun status ha => hstep.answer status (Option.some.inj ha)⟩

theorem ready (h : w.Obedient g) (id : NodeId) : (w.ready id).1.Obedient g := by
  refine ⟨h.living.ready (Life.obedient_lasting g) id, ?_⟩
  unfold World.ready
  split
  · exact h.clean
  split
  · exact h.clean
  · exact Clean.keepReply h.clean id _ _

theorem registered (h : w.Obedient g) (id : NodeId) : (w.registered id).Obedient g := by
  refine ⟨h.living.registered (Life.obedient_lasting g) id, ?_⟩
  rcases registered_cases w id with he | ⟨slot, -, -, he⟩
  · rw [he]
    exact h.clean
  · rw [he]
    exact Clean.keepReply h.clean id _ _

theorem unregistered (h : w.Obedient g) (id : NodeId) : (w.unregistered id).Obedient g := by
  refine ⟨h.living.unregistered (Life.obedient_lasting g) id, ?_⟩
  rcases unregistered_cases w id with he | ⟨slot, -, -, he⟩
  · rw [he]
    exact h.clean
  · rw [he]
    exact Clean.keepReply h.clean id _ _

end Obedient

end World

end BehaviorTree
