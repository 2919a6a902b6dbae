/-
What can be picked out of a history, in the order of time.

A node that takes a step leaves records of its own: that it was called, what it said, the
observers it had told, a reference that did not fit. Traces, diagnostics and the log are
written by the stacks and the tree alone. So whatever is picked out that is none of a node's
own records, a step of a node leaves it as it was.
-/
import BehaviorTree.Proofs.World.Frame

namespace BehaviorTree

/-- The records that the steps of nodes leave. -/
def Record.isOwn : Record → Bool
  | .called .. | .observed .. | .said .. | .broken .. => true
  | .traced _ | .reported _ | .logged _ => false

namespace World

variable {σ α β : Type}

def picked (f : Record → Option β) (w : World σ) : List β := w.history.reverse.filterMap f

theorem picked_record (f : Record → Option β) (w : World σ) (r : Record) :
    (w.record r).picked f = w.picked f ++ (f r).toList := by
  cases h : f r <;> simp [picked, record, h]

theorem picked_record_of_none {f : Record → Option β} (w : World σ) {r : Record}
    (h : f r = none) : (w.record r).picked f = w.picked f := by
  simp [picked_record, h]

/-- Nothing is picked out of what nodes leave. -/
def PicksNone (f : Record → Option β) : Prop := ∀ r, r.isOwn → f r = none

theorem picksNone_traced? : PicksNone Record.traced? := by
  rintro (_ | _ | _ | _ | _ | _ | _) h <;> first | rfl | cases h

theorem picksNone_reported? : PicksNone Record.reported? := by
  rintro (_ | _ | _ | _ | _ | _ | _) h <;> first | rfl | cases h

variable {f : Record → Option β}

theorem picked_foldl {γ : Type} {record : γ → Record} (hr : ∀ x, f (record x) = none) :
    ∀ (l : List γ) (w : World σ),
      (l.foldl (fun w x => w.record (record x)) w).picked f = w.picked f
  | [], _ => rfl
  | x :: l, w => (picked_foldl hr l _).trans (picked_record_of_none w (hr x))

theorem picked_hear (hf : PicksNone f) (w : World σ) (id : NodeId) (messages : List Message) :
    (w.hear id messages).picked f = w.picked f :=
  picked_foldl (fun _ => hf _ rfl) messages w

theorem picked_tell (hf : PicksNone f) (w : World σ) (id : NodeId) (observers : List Observer) :
    (w.tell id observers).picked f = w.picked f :=
  picked_foldl (fun _ => hf _ rfl) observers w

theorem picked_keep (hf : PicksNone f) (w : World σ) (id : NodeId) (step : Step σ α) :
    (w.keep id step).picked f = w.picked f := by
  have hh : ({ w.modify id fun s => { s with node := step.node } with
      blackboard := step.effects.blackboard }.hear id step.effects.messages).picked f
        = w.picked f := picked_hear hf ..
  unfold keep
  split
  · exact hh
  · exact (picked_record_of_none _ (hf _ rfl)).trans hh

theorem picked_absorb (hf : PicksNone f) (w : World σ) (id : NodeId) (activation : Nat)
    (step : Step σ α) : (w.absorb id activation step).picked f = w.picked f :=
  picked_keep hf w id step

theorem picked_keepReply (hf : PicksNone f) (w : World σ) (id : NodeId) (call : Call)
    (reply : Reply σ α) : (w.keepReply id call reply).picked f = w.picked f :=
  (picked_hear hf ..).trans (picked_record_of_none w (hf _ rfl))

variable [Node σ] {w w' : World σ} {id : NodeId}

theorem picked_bindOnce (hf : PicksNone f) (w : World σ) (id : NodeId) (slot : Slot σ) :
    (w.bindOnce id slot).1.picked f = w.picked f := by
  unfold bindOnce
  split
  · rfl
  · exact picked_keepReply hf w id .bind _

theorem picked_execute (hf : PicksNone f) {d : Dispatch} (h : w.execute id = .ok (w', d)) :
    w'.picked f = w.picked f := by
  unfold execute at h
  split at h
  · cases h
  next slot hs =>
  have hb := picked_bindOnce hf (w.modify id fun s => { s with activation := slot.activation + 1 })
    id slot
  simp only at h
  split at h
  · next hw =>
    cases h
    rw [hw] at hb
    exact hb
  · next hw =>
    cases h
    rw [hw] at hb
    exact (picked_absorb hf ..).trans ((picked_record_of_none _ (hf _ rfl)).trans hb)

theorem picked_receive (hf : PicksNone f) {ok : Bool} {d : Dispatch}
    (h : w.receive id ok = .ok (w', d)) : w'.picked f = w.picked f := by
  unfold receive at h
  split at h
  · cases h
  · cases h
    exact (picked_absorb hf ..).trans (picked_record_of_none w (hf _ rfl))

theorem picked_stop (hf : PicksNone f) (h : w.stop id = .ok w') : w'.picked f = w.picked f := by
  unfold stop at h
  split at h
  · cases h
  · cases h
    exact (picked_keep hf ..).trans (picked_record_of_none w (hf _ rfl))

theorem picked_interrupt (hf : PicksNone f) (h : w.interrupt id = .ok w') :
    w'.picked f = w.picked f := by
  unfold interrupt at h
  split at h
  · cases h
  · exact (picked_stop hf h).trans (picked_tell hf ..)

theorem picked_hook (hf : PicksNone f) (w : World σ) (id : NodeId) (phase : Phase) :
    (w.hook id phase).1.picked f = w.picked f := by
  unfold hook
  split
  · rfl
  split
  · rfl
  · simp only
    split <;> exact (picked_absorb hf ..).trans (picked_record_of_none w (hf _ rfl))

theorem picked_ready (hf : PicksNone f) (w : World σ) (id : NodeId) :
    (w.ready id).1.picked f = w.picked f := by
  unfold ready
  split
  · rfl
  split
  · rfl
  · exact picked_keepReply hf ..

theorem picked_registered (hf : PicksNone f) (w : World σ) (id : NodeId) :
    (w.registered id).picked f = w.picked f := by
  rcases registered_cases w id with h | ⟨slot, -, -, h⟩
  · rw [h]
  · exact h ▸ picked_keepReply hf ..

theorem picked_unregistered (hf : PicksNone f) (w : World σ) (id : NodeId) :
    (w.unregistered id).picked f = w.picked f := by
  rcases unregistered_cases w id with h | ⟨slot, -, -, h⟩
  · rw [h]
  · exact h ▸ picked_keepReply hf ..

end World

end BehaviorTree
