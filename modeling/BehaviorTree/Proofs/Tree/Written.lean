/-
The history of a tree is only written to, and its clock never goes back.

Whatever a tree does, what was recorded stays, so what happened between two moments can be told
from the later one; and no tick is before one that was.
-/
import BehaviorTree.Proofs.Stack.Written
import BehaviorTree.Proofs.Tree.Motions

namespace BehaviorTree

variable {σ : Type} [Node σ]

theorem Service.Motion.writes {x y : Service × World σ} (h : Motion x y) : x.2.Writes y.2 := by
  cases h with
  | operate v w => exact v.stack.perform_writes w _
  | ask => exact .ready ..
  | start | preempt => exact .record ..

namespace Tree

variable {t t' : Tree σ}

theorem Motion.writes (h : Motion t t') : t.world.Writes t'.world := by
  have hrest : ∀ {w : World σ}, w.history = t.world.history → t.world.Writes w := fun h =>
    (World.Writes.refl t.world).of_history rfl h
  cases h with
  | main => exact t.main.perform_writes t.world _
  | service hv h => exact h.writes
  | register =>
    unfold registerService
    split
    · exact .refl _
    · exact (World.Writes.registered ..).trans (.record ..)
  | unregister =>
    unfold unregisterService
    split
    · exact .refl _
    next v hv =>
    exact ((v.stack.perform_writes t.world .terminate).trans (.unregistered ..)).trans (.record ..)
  | fire | report => exact .record ..
  | take | clock | due | setVariables | fields | config => exact hrest rfl

theorem Motions.writes (h : t.Motions t') : t.world.Writes t'.world := by
  induction h with
  | refl => exact .refl _
  | tail _ h ih => exact ih.trans h.writes

theorem Motion.tick_le (h : Motion t t') : t.world.tick.number ≤ t'.world.tick.number := by
  have hsame : ∀ {w : World σ}, w.tick = t.world.tick →
      t.world.tick.number ≤ w.tick.number := fun h =>
    Nat.le_of_eq (congrArg Tick.number h.symm)
  cases h with
  | main => exact hsame (t.main.perform_frame t.world _).tick
  | service hv h => exact hsame h.frame.tick
  | register =>
    unfold registerService
    split
    · exact Nat.le_refl _
    · exact hsame (World.tick_registered ..)
  | unregister =>
    unfold unregisterService
    split
    · exact Nat.le_refl _
    next v hv =>
    exact hsame ((World.tick_unregistered ..).trans (v.stack.perform_frame t.world .terminate).tick)
  | clock h => exact h
  | take | fire | report | due | setVariables | fields | config => exact Nat.le_refl _

theorem Motions.tick_le (h : t.Motions t') : t.world.tick.number ≤ t'.world.tick.number := by
  induction h with
  | refl => exact Nat.le_refl _
  | tail _ h ih => exact Nat.le_trans ih h.tick_le

end Tree

end BehaviorTree
