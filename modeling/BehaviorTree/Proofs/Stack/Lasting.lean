/-
A stack that is at work lets the world go on, and takes nothing out of the schedule but what
the stops of its nodes take out.
-/
import BehaviorTree.Proofs.Stack.Reachable
import BehaviorTree.Proofs.World.Agenda

namespace BehaviorTree

variable {σ : Type} [Node σ]

theorem World.Turned.lasts {w w' : World σ} {node : NodeId} {d : Dispatch}
    (h : w.Turned node w' d) : w.Lasts w' := by
  rcases h with h | ⟨ok, h⟩
  · exact (World.Goes.execute h).lasts
  · exact (World.Goes.receive h).lasts

namespace Stack

theorem Act.lasts {label : StackLabel} {heads : NodeId → Prop} {x y : List NodeId × World σ}
    (h : Act label heads x y) : x.2.Lasts y.2 := by
  have hmark : ∀ {w w' : World σ} (tag : String) (n : NodeId) (depth : Nat) (e : StackEvent),
      w.Lasts w' → w.Lasts ((w'.trace tag label n depth).enqueue e) := fun tag n depth e h =>
    (h.trace tag label n depth).trans (World.Goes.events _ _).lasts
  cases h with
  | note hr => exact (World.Lasts.refl _).record hr
  | turn h => exact h.lasts
  | @hook top _ w phase => exact (World.Goes.hook w top phase).lasts
  | @ask _ w service => exact (World.Goes.ready w service).lasts
  | head => exact hmark _ _ _ _ (World.Lasts.refl _)
  | call h _ _ => exact hmark _ _ _ _ h.lasts
  | leave h => exact hmark _ _ _ _ (World.Goes.stop h).lasts
  | rollBack h => exact hmark _ _ _ _ (World.Goes.interrupt h).lasts
  | @finish w result => exact (World.Goes.events w _).lasts

theorem Acts.lasts {label : StackLabel} {heads : NodeId → Prop} {x y : List NodeId × World σ}
    (h : Acts label heads x y) : x.2.Lasts y.2 := by
  induction h with
  | refl => exact .refl _
  | tail _ ha ih => exact ih.trans ha.lasts

theorem perform_lasts (s : Stack) (w : World σ) (op : Operation) :
    w.Lasts (s.perform w op).world :=
  (s.perform_made w op).acts.lasts

theorem perform_since (s : Stack) (w : World σ) (op : Operation) :
    w.Since (s.perform w op).world :=
  (s.perform_lasts w op).since

end Stack

end BehaviorTree
