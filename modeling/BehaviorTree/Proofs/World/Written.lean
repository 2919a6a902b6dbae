/-
The history is only written to.

Whatever happens in a world, its records stay, and new ones go in front of them. So what is
counted in a history never falls.
-/
import BehaviorTree.World

namespace BehaviorTree.World

variable {σ : Type}

/-- All that was recorded is still recorded. -/
def Writes (w w' : World σ) : Prop := w.history <:+ w'.history

namespace Writes

variable {w w' w'' : World σ}

theorem refl (w : World σ) : Writes w w := List.suffix_refl _

theorem trans (h : Writes w w') (h' : Writes w' w'') : Writes w w'' := List.IsSuffix.trans h h'

/-- All that counts is the histories. -/
theorem of_history {v v' : World σ} (h : Writes w w') (hv : v.history = w.history)
    (hv' : v'.history = w'.history) : Writes v v' := by
  unfold Writes at h ⊢
  rwa [hv, hv']

theorem record (w : World σ) (r : Record) : Writes w (w.record r) := List.suffix_cons r w.history

theorem foldl {α : Type} {f : World σ → α → World σ} (h : ∀ w a, Writes w (f w a)) :
    ∀ (l : List α) (w : World σ), Writes w (l.foldl f w)
  | [], w => refl w
  | a :: l, w => (h w a).trans (foldl h l (f w a))

theorem hear (w : World σ) (id : NodeId) (messages : List Message) :
    Writes w (w.hear id messages) :=
  foldl (fun w _ => record w _) messages w

theorem keep {α : Type} (w : World σ) (id : NodeId) (step : Step σ α) :
    Writes w (w.keep id step) := by
  have hh := (hear { w.modify id fun s => { s with node := step.node } with
    blackboard := step.effects.blackboard } id step.effects.messages).of_history (v := w) rfl rfl
  unfold World.keep
  split
  · exact hh
  · exact hh.trans (record ..)

theorem absorb {α : Type} (w : World σ) (id : NodeId) (activation : Nat) (step : Step σ α) :
    Writes w (w.absorb id activation step) :=
  keep w id step

theorem keepReply {α : Type} (w : World σ) (id : NodeId) (call : Call) (reply : Reply σ α) :
    Writes w (w.keepReply id call reply) :=
  (record w (.called id call)).trans ((hear ((w.record (.called id call)).modify id fun s =>
    { s with node := reply.node }) id reply.messages).of_history rfl rfl)

variable [Node σ] {id : NodeId}

theorem bindOnce (w : World σ) (id : NodeId) (slot : Slot σ) : Writes w (w.bindOnce id slot).1 := by
  unfold World.bindOnce
  split
  · exact refl w
  · exact keepReply ..

theorem execute {d : Dispatch} (h : w.execute id = .ok (w', d)) : Writes w w' := by
  unfold World.execute at h
  split at h
  · cases h
  next slot _ =>
  have hb := (bindOnce (w.modify id fun s => { s with activation := slot.activation + 1 }) id
    slot).of_history (v := w) rfl rfl
  simp only at h
  split at h
  · next hw =>
    cases h
    rwa [hw] at hb
  · next hw =>
    cases h
    rw [hw] at hb
    exact hb.trans ((record ..).trans (absorb ..))

theorem receive {ok : Bool} {d : Dispatch} (h : w.receive id ok = .ok (w', d)) : Writes w w' := by
  unfold World.receive at h
  split at h
  · cases h
  · cases h
    exact (record ..).trans (absorb ..)

theorem stop (h : w.stop id = .ok w') : Writes w w' := by
  unfold World.stop at h
  split at h
  · cases h
  · cases h
    exact (record w (.called id .stop)).trans ((keep ..).of_history rfl rfl)

theorem interrupt (h : w.interrupt id = .ok w') : Writes w w' := by
  unfold World.interrupt at h
  split at h
  · cases h
  next slot _ =>
  have ht : Writes w (w.tell id slot.observers) := foldl (fun w _ => record w _) slot.observers w
  exact ht.trans ((stop h).of_history rfl rfl)

theorem hook (w : World σ) (id : NodeId) (phase : Phase) : Writes w (w.hook id phase).1 := by
  unfold World.hook
  split
  · exact refl w
  split
  · exact refl w
  · simp only
    split <;> exact (record w _).trans (absorb ..)

theorem ready (w : World σ) (id : NodeId) : Writes w (w.ready id).1 := by
  unfold World.ready
  split
  · exact refl w
  split
  · exact refl w
  · exact keepReply ..

theorem registered (w : World σ) (id : NodeId) : Writes w (w.registered id) := by
  unfold World.registered
  split
  · exact refl w
  split
  · exact keepReply ..
  · exact refl w

theorem unregistered (w : World σ) (id : NodeId) : Writes w (w.unregistered id) := by
  unfold World.unregistered
  split
  · exact refl w
  split
  · exact keepReply ..
  · exact refl w

end Writes

end BehaviorTree.World
