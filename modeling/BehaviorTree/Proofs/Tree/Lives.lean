/-
What every moment of a life keeps, in a tree.

Whatever the host calls, a node of the tree lives from moment to moment: it is bound, executed,
handed results, stopped and asked, and the variables change under it. So a property of lives
that lasts holds of all the nodes after any calls, if the host changes no variable's type.
-/
import BehaviorTree.Proofs.Tree.Obedient
import BehaviorTree.Proofs.World.Lives

namespace BehaviorTree

variable {σ : Type} [Node σ] {cs : NodeId → List NodeId} {I : NodeId → Life σ → Prop}

namespace Stack

/-- An act of a stack is a moment in the life of its top, or none of any node. Here every node may
be handed a result. -/
theorem Act.living {label : StackLabel} {heads : NodeId → Prop} {x y : List NodeId × World σ}
    (h : Act label heads x y) (hI : Life.Lasting cs I) (hcs : ∀ id, cs id ≠ [])
    (hx : x.2.Living I) : y.2.Living I := by
  have hturn : ∀ {w w' : World σ} {top : NodeId} {d : Dispatch}, w.Living I →
      w.Turned top w' d → w'.Living I := by
    rintro w w' top d hw (he | ⟨ok, he⟩)
    · exact hw.execute hI he
    · exact hw.receive hI (hcs top) he
  cases h with
  | note => exact hx.of_eq rfl rfl
  | turn h => exact hturn hx h
  | hook phase => exact hx.hook hI _ phase
  | ask _ => exact hx.ready hI _
  | head => exact hx.of_eq rfl rfl
  | call h => exact (hturn hx h).of_eq rfl rfl
  | leave h => exact (hx.stop hI h).of_eq rfl rfl
  | rollBack h => exact (hx.interrupt hI h).of_eq rfl rfl
  | finish => exact hx.of_eq rfl rfl

theorem perform_living (s : Stack) {w : World σ} (op : Operation) (hI : Life.Lasting cs I)
    (hcs : ∀ id, cs id ≠ []) (hw : w.Living I) : (s.perform w op).world.Living I := by
  have hacts := (s.perform_made w op).acts
  generalize hx : (s.nodes, w) = x at hacts
  generalize hy : ((s.perform w op).after.nodes, (s.perform w op).world) = y at hacts
  have hl : y.2.Living I := by
    clear hy
    induction hacts with
    | refl => rw [← hx]; exact hw
    | tail _ h ih => exact h.living hI hcs ih
  rwa [← hy] at hl

end Stack

namespace Tree

variable {call : HostCall} {t t' : Tree σ} {found told : List Breach}

theorem Step.living (h : Step call t found t') (hI : Life.Lasting cs I) (hcs : ∀ id, cs id ≠ [])
    (hc : ∀ b, call ≠ .setVariables b) (ht : t.world.Living I) : t'.world.Living I := by
  cases h with
  | main => exact t.main.perform_living _ hI hcs ht
  | @service v v' w _ hv h =>
    cases h with
    | operate => exact v.stack.perform_living _ hI hcs ht
    | count => exact ht
    | ask => exact ht.ready hI v.service
    | trace => exact ht.of_eq rfl rfl
  | @register owner s _ =>
    unfold registerService
    split
    · exact ht
    · exact (ht.registered hI s).of_eq rfl rfl
  | unregister owner s =>
    unfold unregisterService
    split
    · exact ht
    next v hv =>
    have hs : ((v.stack.terminate t.world).world).Living I :=
      v.stack.perform_living .terminate hI hcs ht
    exact (hs.unregistered hI s).of_eq rfl rfl
  | @tearDown v _ _ =>
    have hs : ((v.stack.terminate t.world).world).Living I :=
      v.stack.perform_living .terminate hI hcs ht
    exact hs.unregistered hI v.service
  | take | trace | clock | due => exact ht.of_eq rfl rfl
  | setVariables h => exact absurd h (hc _)
  | fields | config => exact ht

theorem Runs.living (h : Runs call t found told t') (hI : Life.Lasting cs I)
    (hcs : ∀ id, cs id ≠ []) (hc : ∀ b, call ≠ .setVariables b) (ht : t.world.Living I) :
    t'.world.Living I := by
  induction h with
  | refl => exact ht
  | step _ hs ih => exact hs.living hI hcs hc ih
  | report _ _ ih => exact ih.of_eq rfl rfl

theorem performAll_living (hs : t.Sound) (hI : Life.Lasting cs I) (hcs : ∀ id, cs id ≠ [])
    (ht : t.world.Living I) {calls : List HostCall} (hc : t.EditsOnly calls) :
    (t.performAll calls).world.Living I := by
  induction calls generalizing t with
  | nil => exact ht
  | cons call later ih =>
    refine ih (performAll_sound hs [call]) ?_ hc.2
    by_cases hset : ∃ b, call = .setVariables b
    · obtain ⟨b, rfl⟩ := hset
      exact ht.edited hI (hc.1 b rfl).keeps
    · obtain ⟨found, hrun⟩ := perform_runs hs call
      exact hrun.living hI hcs (fun b hb => hset ⟨b, hb⟩) ht

end Tree

end BehaviorTree
