/-
The heads of the stacks of a tree are in its graph.

What a step does to the graph leaves its shape alone, the root stays the root, and a service
is registered only for a node that it is attached to. So every stack begins with a node that
was in the graph from the start.
-/
import BehaviorTree.Proofs.Tree.StackChanges

namespace BehaviorTree.Tree

variable {σ : Type} [Node σ] {g : Graph σ} {root : NodeId} {call : HostCall} {t t' : Tree σ}
  {found told : List Breach}

/-- The tree grew from the graph `g` under `root`, and its services are attached there. -/
structure Rooted (g : Graph σ) (root : NodeId) (t : Tree σ) : Prop where
  grown : g.Grown t.world.graph
  root : t.root = root
  attached : ∀ v ∈ t.services, ∃ owner, v.service ∈ g.servicesOf owner

/-- The nodes keep their names. -/
theorem Rooted.name? (h : Rooted g root t) : t.world.graph.name? = g.name? :=
  funext (h.grown.map_slot? fun _ _ hslot => hslot.name)

/-- Nothing but the world changes. -/
theorem Rooted.world (h : Rooted g root t) {w : World σ} (hg : t.world.graph.Grown w.graph) :
    Rooted g root { t with world := w } :=
  ⟨h.grown.trans hg, h.root, h.attached⟩

theorem Rooted.addService (h : Rooted g root t) {owner service : NodeId}
    (ho : service ∈ t.world.graph.servicesOf owner) {w : World σ}
    (hg : t.world.graph.Grown w.graph) :
    Rooted g root { t with
      world := w, services := t.services ++ [.make service owner t.config] } := by
  refine ⟨h.grown.trans hg, h.root, fun v hv => ?_⟩
  rcases List.mem_append.1 hv with hv | hv
  · exact h.attached v hv
  · obtain rfl := List.mem_singleton.1 hv
    exact ⟨owner, h.grown.servicesOf owner ▸ ho⟩

theorem Rooted.eraseService (h : Rooted g root t) (s : NodeId) {w : World σ}
    (hg : t.world.graph.Grown w.graph) :
    Rooted g root { t with world := w, services := t.services.eraseP (·.service = s) } :=
  ⟨h.grown.trans hg, h.root, fun v hv => h.attached v (List.mem_of_mem_eraseP hv)⟩

theorem Step.rooted (h : Step call t found t') (ht : Rooted g root t) : Rooted g root t' := by
  cases h with
  | @main op _ =>
    have hf := t.main.perform_frame t.world op
    exact ⟨ht.grown.trans hf.graph, ht.root, ht.attached⟩
  | service hv h =>
    refine ⟨ht.grown.trans h.frame.graph, ht.root, fun u hu => ?_⟩
    rcases mem_putService hu with ⟨rfl, -⟩ | ⟨hu, -⟩
    · rw [h.service]
      exact ht.attached _ hv
    · exact ht.attached u hu
  | @register owner s hs =>
    unfold registerService
    split
    · exact ht
    · exact ht.addService hs (World.registered_grown t.world s)
  | unregister owner s =>
    unfold unregisterService
    split
    · exact ht
    next v hv =>
    have hf := v.stack.perform_frame t.world .terminate
    exact ht.eraseService s (hf.graph.trans (World.unregistered_grown _ s))
  | @tearDown v _ hv =>
    have hf := v.stack.perform_frame t.world .terminate
    exact ht.eraseService v.service (hf.graph.trans (World.unregistered_grown _ _))
  | take | trace | clock | due | setVariables => exact ht.world (.refl _)
  | fields => exact ⟨ht.grown, ht.root, ht.attached⟩
  | config =>
    refine ⟨ht.grown, ht.root, fun v hv => ?_⟩
    obtain ⟨u, hu, rfl⟩ := List.mem_map.1 hv
    exact ht.attached u hu

theorem Runs.rooted (h : Runs call t found told t') (ht : Rooted g root t) :
    Rooted g root t' := by
  induction h with
  | refl => exact ht
  | step _ h ih => exact h.rooted ih
  | report _ _ ih => exact ih.world (.refl _)

theorem rooted_make {b : Blackboard} (h : make g root b = .ok t) : Rooted g root t := by
  obtain ⟨-, rfl⟩ := make_ok h
  exact ⟨.refl g, rfl, by simp⟩

/-- In a built graph the head of every stack is a node. -/
theorem Rooted.contains_head (h : Rooted g root t) (hb : g.Built) (hr : g.contains root)
    {label : StackLabel} {s : Stack} (hs : t.stack? label = some s) :
    t.world.graph.contains (t.head label) := by
  rw [h.grown.contains]
  cases label with
  | main =>
    rw [show t.head .main = root from h.root]
    exact hr
  | service id =>
    obtain ⟨v, hv, -⟩ := Option.map_eq_some_iff.1 hs
    obtain ⟨hm, rfl⟩ := service?_eq_some hv
    obtain ⟨owner, ho⟩ := h.attached v hm
    obtain ⟨slot, hslot, -⟩ := hb.wired.service owner v.service ho
    rw [← Graph.isSome_slot?, show t.head (.service v.service) = v.service from rfl, hslot]
    rfl

end BehaviorTree.Tree
