/-
A stack on which a rule was broken, and what can still be done to it.

If the hooks of the nodes keep to their rule, then whatever a tree does to a stack by itself
leaves the stack invalid whenever it finds a rule broken; and what is done to an invalid
stack, short of rolling it back, does nothing.
-/
import BehaviorTree.Proofs.Tree.Steps

namespace BehaviorTree

/-- Whatever becomes of the node, its hook neither calls a child nor answers that it did. -/
def Node.HookObeys {σ : Type} [Node σ] (s : σ) : Prop :=
  ∀ s', Node.Becomes s s' → ∀ ctx phase, (Node.hook s' ctx phase).effects.calls = [] ∧
    (Node.hook s' ctx phase).answer ≠ .ended .noReturn

/-- The hooks of all nodes keep to their rule. -/
def Graph.HooksObey {σ : Type} [Node σ] (g : Graph σ) : Prop :=
  ∀ id slot, g.slot? id = some slot → Node.HookObeys slot.node

/-- Leaves of the library ask their host's predicates in their hooks, and nothing else. -/
theorem LeafNode.hookObeys {π α : Type} [Predicate π] [Action α] (s : LeafNode π α) :
    Node.HookObeys s := by
  intro s' _ ctx phase
  cases s' with
  | waitUntil p asked =>
    simp only [Node.hook, hook, Step.plain, HookOutcome.finish, Status.of]
    split
    · exact ⟨rfl, by rintro ⟨⟩⟩
    · split <;> exact ⟨rfl, by rintro ⟨⟩⟩
  | _ => exact ⟨rfl, by rintro ⟨⟩⟩

variable {σ : Type} [Node σ]

theorem Graph.HooksObey.grown {g g' : Graph σ} (h : g.HooksObey) (hg : g.Grown g') :
    g'.HooksObey := by
  intro id slot' hs' s' hb
  obtain ⟨slot, hs, hgrown⟩ := hg.slot? hs'
  exact h id slot hs s' (hgrown.node.trans hb)

namespace Stack

variable {s : Stack} {w : World σ} {head : NodeId}

/-! ## What is found broken makes the stack invalid -/

/-- A pass that finds a rule broken leaves the stack invalid. -/
theorem run_invalid (s : Stack) (w : World σ) (h : (s.run w).fault ≠ none) :
    (s.run w).after.state = .invalid := by
  unfold run at h ⊢
  simp only at h ⊢
  split
  · rfl
  · next hf =>
    rw [hf] at h
    simp only at h
    split at h <;> exact absurd rfl h

theorem start_invalid (hs : s.Sound w) (hst : s.state = .ready) (hn : s.nodes = [])
    (hh : w.graph.contains head) (h : (s.start w head).fault ≠ none) :
    (s.start w head).after.state = .invalid := by
  have hgo : (s.state ≠ .ready || !s.isEmpty || s.current.isSome) = false := by
    simp [hst, hn, isEmpty, hs.current]
  unfold start at h ⊢
  simp only [hgo, hh, Bool.false_eq_true, if_false, Bool.not_true] at h ⊢
  exact run_invalid _ _ h

theorem receiveReturn_invalid (hs : s.Sound w) (hw : s.isWaiting) (ok : Bool)
    (h : (s.receiveReturn w ok).fault ≠ none) :
    (s.receiveReturn w ok).after.state = .invalid := by
  obtain ⟨node, hsus⟩ := hs.suspended hw
  obtain ⟨-, rest, hn⟩ := suspended?_eq_some hsus
  obtain ⟨w', hstop⟩ := World.exists_stop (hs.known node (by simp [hn]))
  unfold receiveReturn at h ⊢
  simp only [hsus, complete, hstop] at h ⊢
  exact run_invalid _ _ h

theorem receiveStatus_invalid (hs : s.Sound w) (hw : s.isWaiting) {status : Status}
    (hst : status ≠ .noReturn) (h : (s.receiveStatus w status).fault ≠ none) :
    (s.receiveStatus w status).after.state = .invalid := by
  cases status with
  | success => exact receiveReturn_invalid hs hw true h
  | failed => exact receiveReturn_invalid hs hw false h
  | noReturn => exact absurd rfl hst
  | wait | waitUntilNextUpdate | error =>
    obtain ⟨node, hsus⟩ := hs.suspended hw
    simp [receiveStatus, Status.outcome, hsus, errorResult] at h

theorem forwardHook_invalid (hs : s.Sound w) (ho : w.graph.HooksObey) (phase : Phase)
    (h : (s.forwardHook w phase).fault ≠ none) :
    (s.forwardHook w phase).after.state = .invalid := by
  unfold forwardHook at h ⊢
  split
  · next hsus =>
    simp [hsus] at h
  next top hsus =>
  obtain ⟨hw, rest, hn⟩ := suspended?_eq_some hsus
  simp only [hsus] at h
  split
  · next hp =>
    simp [hp] at h
  next hp =>
  rw [if_neg hp] at h
  have hk := World.hook_keeps w top phase
  have hsound : s.Sound (w.hook top phase).1 :=
    hs.elsewhere (fun n hn => by rwa [hk.graph.contains])
      (Nat.le_of_eq (congrArg Tick.number hk.tick.symm))
  have hknown := hs.known top (by simp [hn])
  obtain ⟨slot, hslot⟩ := Option.isSome_iff_exists.1 ((Graph.isSome_slot? w.graph top).trans hknown)
  obtain ⟨hcalls, hanswer⟩ := ho top slot hslot slot.node (.refl _)
    (w.context top slot.activation) phase
  -- The hook is only forwarded, since it calls nobody.
  have hok : (w.hook top phase).2 = .ok none ∨
      (w.hook top phase).2 = .ok (some (Node.hook slot.node (w.context top slot.activation) phase).answer) := by
    unfold World.hook
    rw [hslot]
    simp only
    split
    · exact .inl rfl
    · rw [hcalls]
      exact .inr rfl
  generalize w.hook top phase = r at hsound hok h ⊢
  obtain ⟨w', r⟩ := r
  rcases hok with rfl | rfl
  · exact absurd rfl h
  · cases ha : (Node.hook slot.node (w.context top slot.activation) phase).answer with
    | running =>
      rw [ha] at h
      exact absurd rfl h
    | ended status =>
      rw [ha] at h hanswer
      exact receiveStatus_invalid hsound hw (fun he => hanswer (by rw [he])) h

/-- Whatever a tree does to a stack by itself: if a rule is found broken, the stack is
invalid. -/
theorem perform_invalid {op : Operation} (hs : s.Sound w) (ho : w.graph.HooksObey)
    (hh : w.graph.contains head) (hop : s.Admits head op) (h : (s.perform w op).fault ≠ none) :
    (s.perform w op).after.state = .invalid := by
  cases hop with
  | start hst hn => exact start_invalid hs hst hn hh h
  | restart hst =>
    simp only [perform, restart] at h ⊢
    rcases hst with hst | ⟨hst, hn⟩
    · rw [if_pos hst] at h ⊢
      have hr : s.result = none := by simpa [hst] using hs.result_iff
      refine start_invalid ?_ rfl (hs.of_ended hst) hh h
      exact ⟨⟨by simp [hr], by simp, by simp⟩, hs.current, hs.nodup, hs.known, fun _ => .inl rfl⟩
    · rw [if_neg (by simp [hst])] at h ⊢
      exact start_invalid hs hst hn hh h
  | run => exact run_invalid s w h
  | receiveReturn hw ok => exact receiveReturn_invalid hs hw ok h
  | resumeNextUpdate hst =>
    simp only [perform, resumeNextUpdate] at h ⊢
    split
    · next hd =>
      rw [if_pos hd] at h
      exact run_invalid _ _ h
    · next hd =>
      rw [if_neg hd] at h
      exact absurd rfl h
  | breakTo => exact absurd (breakTo_all hs.known).1 h
  | forwardHook phase => exact forwardHook_invalid hs ho phase h

/-! ## What is done to an invalid stack -/

/-- The stack stays as it is, with nothing on the way, and so does the world. -/
structure Inert (s : Stack) (w : World σ) (p : Pass σ Stack) : Prop where
  nodes : p.after.nodes = s.nodes
  state : p.after.state = .invalid
  world : p.world = w

omit [Node σ] in
theorem suspended?_of_invalid (h : s.state = .invalid) : s.suspended? = none := by
  simp [suspended?, isWaiting, StackState.isWaiting, h]

omit [Node σ] in
theorem Admits.of_invalid {op : Operation} (h : s.Admits head op) (hs : s.state = .invalid) :
    ∃ phase, op = .forwardHook phase := by
  cases h with
  | start hst | resumeNextUpdate hst => rw [hs] at hst; cases hst
  | restart hst => rcases hst with hst | ⟨hst, -⟩ <;> rw [hs] at hst <;> cases hst
  | run hst => rcases hst with ⟨hst, -⟩ | hst | hst <;> rw [hs] at hst <;> cases hst
  | receiveReturn hst => simp [isWaiting, StackState.isWaiting, hs] at hst
  | breakTo hst => exact absurd hs hst
  | forwardHook phase => exact ⟨phase, rfl⟩

/-- Whatever a tree does to an invalid stack by itself does nothing. -/
theorem inert_of_admits {op : Operation} (hop : s.Admits head op) (hs : s.state = .invalid) :
    Inert s w (s.perform w op) := by
  obtain ⟨phase, rfl⟩ := hop.of_invalid hs
  simp only [perform, forwardHook, suspended?_of_invalid hs]
  exact ⟨rfl, hs, rfl⟩

/-- Neither does what a host orders, unless it rolls the stack back. -/
theorem inert_of_orders {call : HostCall} {root : NodeId} {label : StackLabel} {op : Operation}
    (hop : call.Orders root label op) (hr : op.rollsBack = false) (hs : s.state = .invalid) :
    Inert s w (s.perform w op) := by
  cases hop with
  | start =>
    have he : s.perform w (.restart root) = ⟨s, w, some (.notReady s.label s.state s.depth)⟩ := by
      simp [perform, restart, Stack.start, hs]
    rw [he]
    exact ⟨rfl, hs, rfl⟩
  | receiveReturn ok =>
    simp only [perform, receiveReturn, suspended?_of_invalid hs]
    exact ⟨rfl, hs, rfl⟩
  | breakMain | breakService | terminate => cases hr
  | pause | resume | pauseService | resumeService => exact ⟨rfl, hs, rfl⟩

end Stack

end BehaviorTree
