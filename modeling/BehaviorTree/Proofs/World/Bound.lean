/-
Nodes stay bound.

A node is bound before its first execution. Nothing takes that back, so a node that was
executed once is executed at once the next time.
-/
import BehaviorTree.Proofs.World.Local
import BehaviorTree.Proofs.World.Happening

namespace BehaviorTree.World

variable {σ : Type}

/-- The variables of the node are bound. -/
def Bound (w : World σ) (id : NodeId) : Prop :=
  ∃ slot, w.graph.slot? id = some slot ∧ slot.bound = true

/-- What is bound is bound still. -/
structure Binds (w w' : World σ) : Prop where
  bound : ∀ id, w.Bound id → w'.Bound id

namespace Binds

variable {w w' w'' : World σ} {id : NodeId}

theorem refl (w : World σ) : Binds w w := ⟨fun _ h => h⟩

theorem trans (h : Binds w w') (h' : Binds w' w'') : Binds w w'' :=
  ⟨fun id hb => h'.bound id (h.bound id hb)⟩

theorem of_graph (h : w'.graph = w.graph) : Binds w w' :=
  ⟨fun id hb => by unfold Bound; rwa [h]⟩

/-- Only the node itself has to be looked at. -/
theorem of_local (h : Local id w w')
    (hself : ∀ slot, w.graph.slot? id = some slot → slot.bound = true → w'.Bound id) :
    Binds w w' := by
  refine ⟨fun other hb => ?_⟩
  by_cases ho : other = id
  · subst ho
    obtain ⟨slot, hs, hb⟩ := hb
    exact hself slot hs hb
  · unfold Bound
    rw [h.slot? other ho]
    exact hb

theorem modify (w : World σ) {f : Slot σ → Slot σ} (hf : ∀ s, (f s).bound = s.bound) :
    Binds w (w.modify id f) :=
  .of_local (.modify w f) fun slot hs hb => ⟨_, slot?_modify hs f, (hf slot).trans hb⟩

theorem keep {α : Type} (w : World σ) (step : Step σ α) : Binds w (w.keep id step) :=
  .of_local (.keep w step) fun _ hs hb => ⟨_, slot?_keep hs step, hb⟩

theorem absorb {α : Type} (w : World σ) (activation : Nat) (step : Step σ α) :
    Binds w (w.absorb id activation step) :=
  .of_local (.absorb w activation step) fun _ hs hb => ⟨_, slot?_absorb hs activation step, hb⟩

theorem keepReply {α : Type} (w : World σ) (call : Call) (reply : Reply σ α) :
    Binds w (w.keepReply id call reply) :=
  .of_local (.keepReply w call reply) fun _ hs hb => ⟨_, slot?_keepReply hs call reply, hb⟩

variable [Node σ]

theorem receive {ok : Bool} {d : Dispatch} (h : w.receive id ok = .ok (w', d)) : Binds w w' := by
  unfold World.receive at h
  split at h
  · cases h
  · cases h
    exact (of_graph rfl : Binds w (w.record _)).trans (absorb ..)

theorem stop (h : w.stop id = .ok w') : Binds w w' := by
  unfold World.stop at h
  split at h
  · cases h
  · cases h
    have hm : ∀ v : World σ, Binds v (v.modify id fun s =>
        { s with observers := [], activation := s.activation + 1 }) :=
      fun v => modify v fun _ => rfl
    exact (of_graph rfl : Binds w (w.record _)).trans ((keep ..).trans
      ((hm _).trans (of_graph rfl)))

theorem interrupt (h : w.interrupt id = .ok w') : Binds w w' := by
  unfold World.interrupt at h
  split at h
  · cases h
  next slot _ =>
  have ht : Binds w (w.tell id slot.observers) := of_graph (graph_tell ..)
  have hm : ∀ v : World σ, Binds v (v.modify id fun s => { s with observers := [] }) :=
    fun v => modify v fun _ => rfl
  exact ht.trans ((hm _).trans (stop h))

theorem hook (w : World σ) (id : NodeId) (phase : Phase) : Binds w (w.hook id phase).1 := by
  unfold World.hook
  split
  · exact refl w
  split
  · exact refl w
  · simp only
    split <;> exact (of_graph rfl : Binds w (w.record _)).trans (absorb ..)

theorem ready (w : World σ) (id : NodeId) : Binds w (w.ready id).1 := by
  unfold World.ready
  split
  · exact refl w
  split
  · exact refl w
  · exact keepReply ..

theorem registered (w : World σ) (id : NodeId) : Binds w (w.registered id) := by
  unfold World.registered
  split
  · exact refl w
  split
  · exact keepReply ..
  · exact refl w

theorem unregistered (w : World σ) (id : NodeId) : Binds w (w.unregistered id) := by
  unfold World.unregistered
  split
  · exact refl w
  split
  · exact keepReply ..
  · exact refl w

/-- Binding a node that is not bound, and leaving one that is. -/
theorem bindOnce {slot : Slot σ} (hs : w.graph.slot? id = some slot) {s : Slot σ}
    (hb : s.bound = slot.bound) : Binds w (w.bindOnce id s).1 := by
  by_cases hbound : s.bound = true
  · simp only [World.bindOnce, if_pos hbound]
    exact refl w
  · refine of_local (.bindOnce w s) fun slot' hs' hb' => absurd ?_ hbound
    rw [hb, Option.some.inj (hs.symm.trans hs'), hb']

end Binds

variable [Node σ] {w w' : World σ} {id : NodeId}

/-- A node that was bound, unless that failed. -/
theorem bound_bindOnce {slot : Slot σ} (hs : w.graph.slot? id = some slot) {s : Slot σ}
    (hb : s.bound = slot.bound) {w' : World σ} {node : σ}
    (h : w.bindOnce id s = (w', node, none)) : w'.Bound id := by
  unfold bindOnce at h
  split at h
  · next hbound =>
    cases h
    exact ⟨slot, hs, hb ▸ hbound⟩
  · simp only [Prod.mk.injEq] at h
    obtain ⟨rfl, -, ha⟩ := h
    exact ⟨_, slot?_modify (slot?_keepReply hs ..) _, by simp [ha]⟩

/-- An execution binds its node, unless that fails, and takes back no other. -/
theorem execute_binds {d : Dispatch} (h : w.execute id = .ok (w', d)) :
    Binds w w' ∧ ((∃ e, d = .bindFailed e) ∨ w'.Bound id) := by
  unfold execute at h
  split at h
  · cases h
  next slot hs =>
  have hm := slot?_modify hs fun s => { s with activation := slot.activation + 1 }
  have hbegun : Binds w (w.modify id fun s => { s with activation := slot.activation + 1 }) :=
    .modify w fun _ => rfl
  have hb := Binds.bindOnce hm (s := slot) rfl
  have hbound : ∀ w' node, World.bindOnce _ id slot = (w', node, none) → w'.Bound id :=
    fun w' node h => bound_bindOnce hm (s := slot) rfl h
  simp only at h
  split at h
  · next hw =>
    cases h
    rw [hw] at hb
    exact ⟨hbegun.trans hb, .inl ⟨_, rfl⟩⟩
  · next hw =>
    cases h
    rw [hw] at hb
    have hlast : ∀ (v : World σ) (r : Record) (activation : Nat) (step : Step σ Status),
        Binds v ((v.record r).absorb id activation step) := fun v r activation step =>
      (Binds.of_graph rfl : Binds v (v.record r)).trans (.absorb ..)
    exact ⟨(hbegun.trans hb).trans (hlast ..), .inr ((hlast ..).bound id (hbound _ _ hw))⟩

/-! ## What an execution calls -/

theorem happenings_execute_answered {status : Status} {calls : List NodeId}
    (h : w.execute id = .ok (w', .answered status calls)) :
    ∃ slot, w.graph.slot? id = some slot ∧ w'.happenings
      = w.happenings ++ (if slot.bound then [] else [.called id .bind]) ++ [.called id .execute] := by
  unfold execute at h
  split at h
  · cases h
  next slot hs =>
  have hb := happenings_bindOnce (w.modify id fun s => { s with activation := slot.activation + 1 })
    id slot
  simp only at h
  split at h
  · cases h
  · next hw =>
    cases h
    rw [hw] at hb
    refine ⟨slot, hs, ?_⟩
    rw [happenings_absorb, happenings_record, hb]
    rfl

/-- A node that is bound is executed at once. -/
theorem happenings_execute_of_bound {d : Dispatch} (hb : w.Bound id)
    (h : w.execute id = .ok (w', d)) : w'.happenings = w.happenings ++ [.called id .execute] := by
  obtain ⟨slot, hs, hbound⟩ := hb
  have hanswered : ∃ status calls, d = .answered status calls := by
    unfold execute at h
    simp only [hs, bindOnce, if_pos hbound] at h
    cases h
    exact ⟨_, _, rfl⟩
  obtain ⟨status, calls, rfl⟩ := hanswered
  obtain ⟨slot', hs', hh⟩ := happenings_execute_answered h
  cases hs.symm.trans hs'
  rw [hh, if_pos hbound, List.append_nil]

/-- Whatever else it is that a node answers, it was called for it. -/
theorem happenings_hook_answered {phase : Phase} {outcome : HookOutcome}
    (h : w.hook id phase = (w', .ok (some outcome))) :
    w'.happenings = w.happenings ++ [.called id (.hook phase)] := by
  unfold hook at h
  split at h
  · cases h
  split at h
  · cases h
  simp only at h
  split at h
  · cases h
    simp [Record.happening?]
  · cases h

end BehaviorTree.World
