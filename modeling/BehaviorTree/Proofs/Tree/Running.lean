/-
A tree that does not run has an empty main stack.

The host starts the tree before anything comes onto its main stack, and when it ends the tree
the main stack is rolled back. In between only a tree that runs drives the stack.
-/
import BehaviorTree.Proofs.Tree.Rounds

namespace BehaviorTree

variable {σ : Type} [Node σ]

namespace Stack

/-- Without a head nothing comes onto an empty stack. -/
theorem Acts.of_empty {label : StackLabel} {heads : NodeId → Prop} {x y : List NodeId × World σ}
    (h : Acts label heads x y) (hh : ∀ id, ¬heads id) (hx : x.1 = []) : y.1 = [] := by
  induction h with
  | refl => exact hx
  | tail _ h ih =>
    cases h with
    | head h => exact absurd h (hh _)
    | note | ask | finish => exact ih
    | turn | hook | call | leave | rollBack => cases ih

end Stack

namespace Tree

variable {call : HostCall} {t t' : Tree σ}

/-- Settling does not start a tree, nor does it end one. -/
theorem running_settle (ht : t.Sound) : t.settle.tree.running = t.running := by
  refine settle_induction (P := fun u => u.running = t.running) ht rfl fun u u' _ h hu => ?_
  cases h with
  | take | count => exact hu
  | register =>
    refine Eq.trans ?_ hu
    unfold registerService
    split <;> rfl
  | unregister owner s =>
    refine Eq.trans ?_ hu
    unfold unregisterService
    split <;> rfl

theorem main_settle (t : Tree σ) : t.settle.tree.main = t.main := main_settleFrom none t

/-- Only a tree that runs has nodes on its main stack. -/
structure Awake (t : Tree σ) : Prop where
  running : t.main.nodes ≠ [] → t.running

theorem Awake.settle (h : t.Awake) (ht : t.Sound) : t.settle.tree.Awake :=
  ⟨by rw [running_settle ht, main_settle]; exact h.running⟩

omit [Node σ] in
theorem Awake.same (h : t.Awake) (hm : t'.main.nodes = t.main.nodes)
    (hr : t'.running = t.running) : t'.Awake :=
  ⟨by rw [hm, hr]; exact h.running⟩

/-- What becomes of a service does not matter. -/
theorem Awake.keepService (h : t.Awake) (ht : t.Settled) {v : Service} {p : Pass σ Service}
    (hv : v ∈ t.services) (hm : v.Made t.world p) (hs : p.after.stack.Sound p.world) :
    (t.keepService p).settle.tree.Awake := by
  have hkept : (t.keepService p).tree.Awake := h.same rfl rfl
  exact hkept.settle (ht.sound.putService hv hm.service hm.stack.label hm.stack.acts.frame hs)

theorem Round.awake (hr : Round call t t') (ht : t.Settled) (h : t.Awake) : t'.Awake := by
  cases hr with
  | drive hc hr hp hd =>
    exact Awake.settle (t := (t.keepMain _).tree) ⟨fun _ => hr⟩ (ht.sound.keepMain _)
  | @hand op ho =>
    have hm := (t.main.perform_made t.world op).acts
    refine Awake.settle (t := (t.keepMain _).tree) ⟨fun hn => h.running fun he => hn ?_⟩
      (ht.sound.keepMain op)
    exact hm.of_empty (hands_heads ho) he
  | @serve v v' w hc hv hs =>
    exact h.keepService ht hv hs.made (hs.motions.sound (ht.sound.services _ hv))
  | @handService v op hv ho =>
    have hm : v.Made t.world (v.keep (v.stack.perform t.world op)) :=
      .keep ((v.stack.perform_made t.world op).mono fun id hid => absurd hid (hands_heads ho id))
    exact h.keepService ht hv hm ((ht.sound.services v hv).perform op)
  | start hc =>
    have hs : ({ t with running := true, endedAt := none } : Tree σ).Sound :=
      (ht.fields true none).sound
    exact Awake.settle (t := (Tree.keepMain _ _).tree) ⟨fun _ => rfl⟩
      (hs.keepMain (.restart t.root))
  | terminate hc =>
    have hs : ({ t with running := false } : Tree σ).Sound := (ht.fields false t.endedAt).sound
    refine Awake.settle (t := t.ended.tree) ⟨fun hn => absurd ?_ hn⟩ (hs.keepMain .terminate)
    exact (Stack.terminate_eq ht.orderly.main.2).2
  | fire | report | phase | setVariables | config => exact h.same rfl rfl

omit [Node σ] in
theorem awake_make {g : Graph σ} {root : NodeId} {b : Blackboard} (h : make g root b = .ok t) :
    t.Awake := by
  obtain ⟨-, rfl⟩ := make_ok h
  exact ⟨fun hn => absurd rfl hn⟩

theorem performAll_awake (ht : t.Settled) (h : t.Awake) (calls : List HostCall) :
    (t.performAll calls).Awake :=
  rounds_induction ht h (fun _ _ _ hu hr => hr.awake hu) calls

end Tree

end BehaviorTree
