/-
Nodes of the library that leave the variables as they are.

A leaf that is not the host's own action and a service never write a variable, whatever has
become of them.
-/
import BehaviorTree.Library.Background
import BehaviorTree.Library.Leaf
import BehaviorTree.Proofs.Library.Children
import BehaviorTree.Proofs.World.SameFor

namespace BehaviorTree

namespace Node

variable {σ τ : Type} [Node σ] [Node τ]

/-- It is enough that an invariant of the node keeps its steps from changing variables. -/
theorem LeavesVariables.of_invariant {I : σ → Prop} {s : σ} (hs : I s)
    (hm : ∀ s s', I s → Moves s s' → I s') (hi : ∀ s, I s → Still s) : LeavesVariables s := by
  intro s' hb
  refine hi s' ?_
  induction hb with
  | refl => exact hs
  | tail _ h ih => exact hm _ _ ih h

theorem LeavesVariables.of_forall (h : ∀ s : σ, Still s) (s : σ) : LeavesVariables s :=
  fun s' _ => h s'

theorem LeavesVariables.embeds {f : σ → τ} (hf : Embeds f) {s : σ} (h : LeavesVariables s) :
    LeavesVariables (f s) := by
  intro x hx
  obtain ⟨s', rfl, hs⟩ := hf.becomes hx
  have hstill := h s' hs
  refine ⟨fun ctx => ?_, fun ctx ok => ?_, fun ctx => ?_, fun ctx phase => ?_⟩
  · rw [hf.execute]
    exact hstill.execute ctx
  · rw [hf.receive]
    exact hstill.receive ctx ok
  · rw [hf.stop]
    exact hstill.stop ctx
  · rw [hf.hook]
    exact hstill.hook ctx phase

theorem LeavesVariables.inl {s : σ} (h : LeavesVariables s) : LeavesVariables (.inl s : σ ⊕ τ) :=
  h.embeds embeds_inl

theorem LeavesVariables.inr {s : τ} (h : LeavesVariables s) : LeavesVariables (.inr s : σ ⊕ τ) :=
  h.embeds embeds_inr

end Node

/-! ## Leaves and services -/

namespace LeafNode

variable {π α : Type} [Predicate π] [Action α] {n : LeafNode π α}

theorem still (h : ∀ a, n ≠ .action a) : Node.Still n := by
  refine ⟨fun ctx => ?_, fun _ _ => rfl, fun _ => rfl, fun ctx phase => ?_⟩
  · cases n with
    | waitTicks ticks =>
      show (executeWaitTicks ticks ctx : Step (LeafNode π α) Status).effects.blackboard = _
      unfold executeWaitTicks
      split
      · rfl
      · rfl
      · split <;> rfl
    | log message result =>
      show (executeLog message result ctx : Step (LeafNode π α) Status).effects.blackboard = _
      unfold executeLog
      split <;> rfl
    | action a => exact absurd rfl (h a)
    | idle | waitUntil | check => rfl
  · cases n with
    | waitUntil p asked =>
      show (LeafNode.hook (.waitUntil p asked : LeafNode π α) ctx phase).effects.blackboard = _
      simp only [LeafNode.hook]
      split <;> rfl
    | idle | waitTicks | log | check | action => rfl

/-- A leaf does not come to be an action. -/
theorem ne_action_of_moves {n' : LeafNode π α} (h : ∀ a, n ≠ .action a) (hm : Node.Moves n n') :
    ∀ a, n' ≠ .action a := by
  cases hm with
  | bind b =>
    cases n with
    | waitTicks | log =>
      show ∀ a, (LeafNode.bind _ b).node ≠ .action a
      simp only [LeafNode.bind]
      split <;> rintro _ ⟨⟩
    | idle | waitUntil | check => rintro _ ⟨⟩
    | action a => exact absurd rfl (h a)
  | execute ctx =>
    cases n with
    | waitTicks ticks =>
      show ∀ a, (executeWaitTicks ticks ctx : Step (LeafNode π α) Status).node ≠ .action a
      unfold executeWaitTicks
      split
      · rintro _ ⟨⟩
      · rintro _ ⟨⟩
      · split <;> rintro _ ⟨⟩
    | log message result =>
      show ∀ a, (executeLog message result ctx : Step (LeafNode π α) Status).node ≠ .action a
      unfold executeLog
      split <;> rintro _ ⟨⟩
    | idle | waitUntil | check => rintro _ ⟨⟩
    | action a => exact absurd rfl (h a)
  | hook ctx phase =>
    cases n with
    | waitUntil p asked =>
      show ∀ a, (LeafNode.hook (.waitUntil p asked : LeafNode π α) ctx phase).node ≠ .action a
      simp only [LeafNode.hook]
      split <;> rintro _ ⟨⟩
    | idle | waitTicks | log | check => rintro _ ⟨⟩
    | action a => exact absurd rfl (h a)
  | receive | stop | ready | registered | unregistered => exact h

theorem leavesVariables (h : ∀ a, n ≠ .action a) : Node.LeavesVariables n :=
  .of_invariant (I := fun n => ∀ a, n ≠ .action a) h (fun _ _ => ne_action_of_moves) fun _ => still

end LeafNode

theorem BackgroundNode.leavesVariables (n : BackgroundNode) : Node.LeavesVariables n :=
  .of_forall (fun _ => ⟨fun _ => rfl, fun _ _ => rfl, fun _ => rfl, fun _ _ => rfl⟩) n

end BehaviorTree
