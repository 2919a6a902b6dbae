/-
Stacks only write to the history.
-/
import BehaviorTree.Proofs.Stack.Reachable
import BehaviorTree.Proofs.World.Written

namespace BehaviorTree

variable {σ : Type} [Node σ]

namespace Stack

theorem Act.writes {label : StackLabel} {heads : NodeId → Prop} {x y : List NodeId × World σ}
    (h : Act label heads x y) : x.2.Writes y.2 := by
  have hturn : ∀ {w w' : World σ} {node : NodeId} {d : Dispatch}, w.Turned node w' d →
      w.Writes w' := by
    rintro w w' node d (h | ⟨ok, h⟩)
    · exact .execute h
    · exact .receive h
  have hmarked : ∀ (w : World σ) (tag : String) (label : StackLabel) (node : NodeId) (depth : Nat)
      (event : StackEvent), w.Writes ((w.trace tag label node depth).enqueue event) :=
    fun w tag label node depth event => (World.Writes.record w _).of_history rfl rfl
  cases h with
  | note => exact .record ..
  | turn h => exact hturn h
  | hook phase => exact .hook ..
  | ask => exact .ready ..
  | head => exact hmarked ..
  | call h => exact (hturn h).trans (hmarked ..)
  | leave h => exact (World.Writes.stop h).trans (hmarked ..)
  | rollBack h => exact (World.Writes.interrupt h).trans (hmarked ..)
  | finish => exact (World.Writes.refl _).of_history rfl rfl

theorem Acts.writes {label : StackLabel} {heads : NodeId → Prop} {x y : List NodeId × World σ}
    (h : Acts label heads x y) : x.2.Writes y.2 := by
  induction h with
  | refl => exact .refl _
  | tail _ h ih => exact ih.trans h.writes

theorem perform_writes (s : Stack) (w : World σ) (op : Operation) :
    w.Writes (s.perform w op).world :=
  (s.perform_made w op).acts.writes

end Stack

end BehaviorTree
