/-
What is left of a node that is on no stack: nothing.

A node that is on no stack has no observer and no deferred end, for only active nodes are
engaged. The host cannot end it either, since no stack is suspended on it. And of a node that
is on a stack no end is deferred that names an execution still to come.
-/
import BehaviorTree.Proofs.Tree.Deferred
import BehaviorTree.Proofs.Tree.EngagedActive

namespace BehaviorTree.Tree

variable {σ : Type} [Node σ] {t : Tree σ}

omit [Node σ] in
theorem SuspendedOn.active {n : NodeId} {label : StackLabel} (h : t.SuspendedOn n label) :
    t.Active n := by
  obtain ⟨s, hl, hw⟩ := h
  obtain ⟨-, below, hn⟩ := Stack.suspended?_eq_some hw
  have hmem : n ∈ s.nodes := by simp [hn]
  cases label with
  | main =>
    cases hl
    exact .inl hmem
  | service id =>
    obtain ⟨v, hv, rfl⟩ := Option.map_eq_some_iff.1 hl
    exact .inr ⟨v, (service?_eq_some hv).1, hmem⟩

/-- The host cannot end a node that is on no stack. -/
theorem endNode_of_not_active (ht : t.Sound) {n : NodeId} (hn : ¬t.Active n) {slot : Slot σ}
    (hs : t.world.graph.slot? n = some slot) (ok : Bool) : t.endNode n ok = (t, .ok false) := by
  have hp : t.world.progress? n = some ⟨n, slot.activation⟩ := by simp [World.progress?, hs]
  rw [endNode, hp]
  refine endAction_of_not ht ?_
  rintro ⟨-, _, hl⟩
  exact hn hl.active

/-- Every end that is still deferred was asked for in an execution that has begun. -/
theorem pending_activation_le (ht : t.Sound) (hp : t.world.schedule.pending = [])
    (calls : List HostCall) {task : DeferredTask}
    (h : task ∈ (t.performAll calls).world.schedule.pending) :
    ∃ a, (t.performAll calls).world.activation? task.progress.node = some a ∧
      task.progress.activation ≤ a := by
  obtain ⟨log, hc⟩ := exists_chronicle ht calls
  have hl := hc.log
  rw [performAll_phases] at hl
  rw [hl.pending, hp, List.filter_nil, List.nil_append] at h
  obtain ⟨before, after, rfl, -⟩ := mem_outstanding.1 h
  exact hl.activation_le

/-- After any calls, a node that is on no stack has no observer that is to be told of its
rollback and no deferred end, and the host is answered no if it ends the node; and every end
that is still deferred names an execution of its node that is not after the present one. -/
theorem departed_clean {g : Graph σ} {root : NodeId} {b : Blackboard} (hb : g.Built)
    (hm : make g root b = .ok t) (calls : List HostCall) :
    (∀ n, ¬(t.performAll calls).Active n →
      (t.performAll calls).world.observers n = [] ∧
      (∀ task ∈ (t.performAll calls).world.schedule.pending, task.progress.node ≠ n) ∧
      ∀ slot, (t.performAll calls).world.graph.slot? n = some slot → ∀ ok,
        (t.performAll calls).endNode n ok = (t.performAll calls, .ok false)) ∧
    ∀ task ∈ (t.performAll calls).world.schedule.pending,
      ∃ a, (t.performAll calls).world.activation? task.progress.node = some a ∧
        task.progress.activation ≤ a := by
  have hs := sound_make hm
  have hengaged := performAll_engagedActive hs (engagedActive_make hb hm) calls
  have hnil : t.world.schedule.pending = [] := by
    obtain ⟨-, rfl⟩ := make_ok hm
    rfl
  refine ⟨fun n hn => ⟨?_, fun task ht he => ?_, fun slot hslot ok => ?_⟩,
    fun task ht => pending_activation_le hs hnil calls ht⟩
  · exact Classical.not_not.1 fun ho => hn (hengaged n (.inl ho))
  · exact hn (hengaged n (.inr ⟨task, ht, he⟩))
  · exact endNode_of_not_active (performAll_sound hs calls) hn hslot ok

theorem built_dozer : dozer.Built := .add .empty "dozer" dozing

/-- While the root waits, the ends that it asked for are those of its present execution; once it
has left its stack they are gone, and it is no use to end it again. -/
theorem departed_clean_dozer :
    ∃ t, dozer.Built ∧ make dozer ⟨0⟩ {} = .ok t ∧
      ((t.performAll [.start]).world.schedule.pending.map (·.progress) = [⟨⟨0⟩, 1⟩, ⟨⟨0⟩, 1⟩] ∧
        ∃ a, (t.performAll [.start]).world.activation? ⟨0⟩ = some a ∧ 1 ≤ a) ∧
      ¬(t.performAll [.start, .receiveReturn true]).Active ⟨0⟩ ∧
      (t.performAll [.start, .receiveReturn true]).endNode ⟨0⟩ true
        = (t.performAll [.start, .receiveReturn true], .ok false) := by
  have hm : make dozer ⟨0⟩ {} = .ok { root := ⟨0⟩, world := { graph := dozer, blackboard := {} } } :=
    rfl
  refine ⟨_, built_dozer, hm, ?_⟩
  generalize ht : ({ root := ⟨0⟩, world := { graph := dozer, blackboard := {} } } : Tree Scripted) = t
    at hm
  have hpending : (t.performAll [.start]).world.schedule.pending.map (·.progress)
      = [⟨⟨0⟩, 1⟩, ⟨⟨0⟩, 1⟩] := by
    subst ht
    decide +kernel
  have hout : ¬(t.performAll [.start, .receiveReturn true]).Active ⟨0⟩ := by
    have hmain : (t.performAll [.start, .receiveReturn true]).main.nodes = [] := by
      subst ht
      decide +kernel
    have hservices : (t.performAll [.start, .receiveReturn true]).services.length = 0 := by
      subst ht
      decide +kernel
    rintro (h | ⟨v, hv, -⟩)
    · rw [hmain] at h
      cases h
    · rw [List.length_eq_zero_iff.1 hservices] at hv
      cases hv
  refine ⟨⟨hpending, ?_⟩, hout, ?_⟩
  · obtain ⟨task, hmem, hp⟩ := List.mem_map.1 (hpending ▸ List.mem_cons_self)
    obtain ⟨a, ha, hle⟩ := (departed_clean built_dozer hm [.start]).2 task hmem
    rw [hp] at ha hle
    exact ⟨a, ha, hle⟩
  · have hslot : ((t.performAll [.start, .receiveReturn true]).world.graph.slot? ⟨0⟩).isSome := by
      subst ht
      decide +kernel
    obtain ⟨slot, hs⟩ := Option.isSome_iff_exists.1 hslot
    exact ((departed_clean built_dozer hm [.start, .receiveReturn true]).1 _ hout).2.2 slot hs true

end BehaviorTree.Tree
