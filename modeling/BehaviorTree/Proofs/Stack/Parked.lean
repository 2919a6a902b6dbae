/-
Stacks that wait for the next update.

A stack is parked by its top node, when it answers so to an execution, to its child's result or
to its hook, and it keeps the tick of then. So a stack that is parked after an operation was
parked by it, in the tick of then, or was parked before and was left alone.
-/
import BehaviorTree.Proofs.Stack.Marks
import BehaviorTree.Proofs.Stack.Replay
import BehaviorTree.Proofs.Stack.Transparent
import BehaviorTree.Proofs.World.Bound

namespace BehaviorTree

variable {σ : Type}

namespace World

variable {w w' w'' : World σ}

/-- From the world `w` to the world `w'` the node was executed, was handed a result or heard its
hook. -/
def Dispatched (w : World σ) (n : NodeId) (w' : World σ) : Prop :=
  ∃ new c, w'.happenings = w.happenings ++ new ∧ .called n c ∈ new ∧ c.isDispatch

theorem Dispatched.later {n : NodeId} (h : w.Dispatched n w') (hw : w'.Writes w'') :
    w.Dispatched n w'' := by
  obtain ⟨new, c, hh, hm, hc⟩ := h
  obtain ⟨more, hmore⟩ := hw.happenings
  exact ⟨new ++ more, c, by rw [← hmore, hh, List.append_assoc], List.mem_append_left more hm, hc⟩

theorem Dispatched.earlier {n : NodeId} (hw : w.Writes w') (h : w'.Dispatched n w'') :
    w.Dispatched n w'' := by
  obtain ⟨new, c, hh, hm, hc⟩ := h
  obtain ⟨more, hmore⟩ := hw.happenings
  exact ⟨more ++ new, c, by rw [hh, ← hmore, List.append_assoc], List.mem_append_right more hm, hc⟩

end World

variable [Node σ]

namespace Stack

variable {s s' : Stack} {v w w' : World σ} {node top : NodeId} {rest : List NodeId} {n : NodeId}
  {tick : Nat}

/-- The stack waits for the next update, with the node on top, since the tick. -/
structure Parked (s : Stack) (n : NodeId) (tick : Nat) : Prop where
  state : s.state = .waitUntilNextUpdate
  top : s.top? = some n
  since : s.parkedAt = some tick

instance (s : Stack) (n : NodeId) (tick : Nat) : Decidable (s.Parked n tick) :=
  decidable_of_iff (s.state = .waitUntilNextUpdate ∧ s.top? = some n ∧ s.parkedAt = some tick)
    ⟨fun ⟨hs, ht, hp⟩ => ⟨hs, ht, hp⟩, fun h => ⟨h.state, h.top, h.since⟩⟩

/-- If the stack is parked, then it was parked after the moment `v`, in the tick of then, by the
node on its top. -/
structure Parks (v : World σ) (s : Stack) (w : World σ) : Prop where
  since : s.state = .waitUntilNextUpdate → s.parkedAt = some v.tick.number
  top : s.state = .waitUntilNextUpdate → ∃ n, s.top? = some n ∧ v.Dispatched n w

omit [Node σ] in
theorem parks_of_state (h : s.state ≠ .waitUntilNextUpdate := by rintro ⟨⟩) : Parks v s w :=
  ⟨fun hs => absurd hs h, fun hs => absurd hs h⟩

omit [Node σ] in
/-- A change of the other fields. -/
theorem Parks.fields (h : Parks v s w) (hn : s'.nodes = s.nodes) (hst : s'.state = s.state)
    (hp : s'.parkedAt = s.parkedAt) (hw : w.Writes w') : Parks v s' w' := by
  refine ⟨fun hs => hp.trans (h.since (hst.symm.trans hs)), fun hs => ?_⟩
  obtain ⟨n, ht, hd⟩ := h.top (hst.symm.trans hs)
  exact ⟨n, by rw [top?, hn]; exact ht, hd.later hw⟩

omit [Node σ] in
/-- An earlier moment of the same tick. -/
theorem Parks.earlier {v' : World σ} (h : Parks v s w) (hw : v'.Writes v)
    (ht : v.tick = v'.tick) : Parks v' s w := by
  refine ⟨fun hs => by rw [h.since hs, ht], fun hs => ?_⟩
  obtain ⟨n, htop, hd⟩ := h.top hs
  exact ⟨n, htop, hd.earlier hw⟩

/-! ## The parts of a pass -/

/-- A node that answers something was called for it. -/
theorem dispatched_of_turned {status : Status} {calls : List NodeId}
    (h : w.Turned node w' (.answered status calls)) : w.Dispatched node w' := by
  rcases h with h | ⟨ok, h⟩
  · obtain ⟨slot, -, hh⟩ := World.happenings_execute_answered h
    exact ⟨_, .execute, hh.trans (List.append_assoc ..), by simp, rfl⟩
  · exact ⟨_, .receive ok, World.happenings_receive h, by simp, rfl⟩

theorem apply_parks {d : Dispatch} (h : w.Turned node w' d) (hn : s.nodes = node :: rest)
    (hs : s.state ≠ .waitUntilNextUpdate) :
    Parks w (s.apply w' node d).after (s.apply w' node d).world := by
  have htick : w'.tick = w.tick := h.keeps.tick
  match d with
  | .bindFailed e => exact parks_of_state
  | .answered _ (_ :: _ :: _) => exact parks_of_state hs
  | .answered status [child] =>
    simp only [apply, call]
    split
    · exact parks_of_state hs
    split
    · exact parks_of_state hs
    split
    · exact parks_of_state hs
    next hr _ hchild =>
    simp only [ne_eq, Decidable.not_not] at hr
    subst hr
    rw [settleStatus_noReturn]
    · exact parks_of_state
    · rintro ⟨⟩
      exact hchild (by simp [Stack.contains, hn])
  | .answered status [] =>
    cases status with
    | noReturn =>
      simp only [apply, settleStatus]
      split <;> exact parks_of_state hs
    | success | failed =>
      refine parks_of_state ?_
      simp only [apply, settleStatus, complete]
      split
      · exact hs
      · rintro ⟨⟩
    | wait | error => exact parks_of_state
    | waitUntilNextUpdate =>
      have hd : w.Dispatched node (s.park w' node).world :=
        (dispatched_of_turned h).later (.record ..)
      refine ⟨fun _ => ?_, fun _ => ⟨node, by simp [apply, settleStatus, park, top?, hn], hd⟩⟩
      simp [apply, settleStatus, park, htick]

theorem step_parks (hn : s.nodes = top :: rest) (hs : s.state ≠ .waitUntilNextUpdate) :
    Parks w (s.step w top).after (s.step w top).world := by
  simp only [step]
  split
  · exact parks_of_state hs
  split
  · split
    · exact parks_of_state hs
    split
    · exact parks_of_state hs
    · next hw => exact apply_parks (.inr ⟨_, hw⟩) hn hs
  · split
    · exact parks_of_state
    · next hw => exact apply_parks (.inl hw) hn (by rintro ⟨⟩)

theorem drive_parks (budget : Nat) (hs : s.state ≠ .waitUntilNextUpdate) :
    Parks w (drive budget s w).after (drive budget s w).world := by
  induction budget generalizing s w with
  | zero =>
    rw [drive]
    split
    · exact parks_of_state hs
    split
    · exact parks_of_state hs
    split
    · exact parks_of_state hs
    · exact parks_of_state hs
  | succ budget ih =>
    rw [drive]
    split
    · exact parks_of_state hs
    next top rest hn =>
    split
    · exact parks_of_state hs
    split
    · exact parks_of_state hs
    simp only
    split
    · exact step_parks hn hs
    next hp =>
    have hm : Made (fun _ => False) s w (s.step w top) := step_made w hn
    have hstate : (s.step w top).after.moveOn.state ≠ .waitUntilNextUpdate := by
      intro he
      have hrests : (s.step w top).after.rests := by
        simp [rests, isWaiting, show (s.step w top).after.state = _ from he, StackState.isWaiting]
      exact hp (by simp [hrests])
    exact (ih hstate).earlier (s.step_proceeds w top).writes hm.acts.frame.tick

theorem run_parks (hs : s.state ≠ .waitUntilNextUpdate) :
    Parks w (s.run w).after (s.run w).world := by
  have hd : Parks w (drive s.stepBudget { s with last := none } w).after _ :=
    drive_parks s.stepBudget (s := { s with last := none }) hs
  simp only [run]
  split
  · exact parks_of_state
  split
  · exact parks_of_state
  · exact hd.fields rfl rfl rfl (.refl _)

/-! ## The operations -/

theorem start_parks (hs : s.state ≠ .waitUntilNextUpdate) (head : NodeId) :
    Parks w (s.start w head).after (s.start w head).world := by
  unfold start
  split
  · exact parks_of_state hs
  split
  · exact parks_of_state hs
  · exact (run_parks (s := { s with result := none, parkedAt := none, nodes := head :: s.nodes })
      hs).earlier (World.Writes.record ..) rfl

theorem receiveReturn_parks {ok : Bool} (hs : s.suspended? = some node)
    (hk : w.graph.contains node) :
    Parks w (s.receiveReturn w ok).after (s.receiveReturn w ok).world := by
  obtain ⟨-, rest, hn⟩ := suspended?_eq_some hs
  obtain ⟨w', hw⟩ := World.exists_stop hk
  have hm : Made (fun _ => False) s w (s.complete w node ok) := complete_made w ok hn
  have hwrites := (s.complete_proceeds w node ok).writes
  unfold receiveReturn
  simp only [hs]
  rw [complete_eq ok hn hw] at hm hwrites ⊢
  exact (run_parks (by simp)).earlier hwrites hm.acts.frame.tick

/-- The stack is parked as it was. -/
structure StillParked (s s' : Stack) : Prop where
  before : s.state = .waitUntilNextUpdate
  nodes : s'.nodes = s.nodes
  since : s'.parkedAt = s.parkedAt

/-- Whatever is done to a stack: if it is parked after that, then as it was before, or it was
parked now. -/
def Reparks (s : Stack) (w : World σ) (p : Pass σ Stack) : Prop :=
  Parks w p.after p.world ∨ StillParked s p.after

omit [Node σ] in
/-- The stack is as it was, but for fields that do not matter. -/
theorem reparks_of_same {p : Pass σ Stack} (hn : p.after.nodes = s.nodes)
    (hst : p.after.state = s.state) (hp : p.after.parkedAt = s.parkedAt) : Reparks s w p := by
  by_cases hs : s.state = .waitUntilNextUpdate
  · exact .inr ⟨hs, hn, hp⟩
  · exact .inl (parks_of_state (by rwa [hst]))

theorem run_reparks (hs : s.Sound w) : Reparks s w (s.run w) := by
  by_cases hst : s.state = .waitUntilNextUpdate
  · have hne : s.nodes ≠ [] := fun hn => by
      rcases hs.of_empty hn with h | h <;> simp [hst] at h
    have hrests : ({ s with last := none } : Stack).rests := by
      simp [rests, isWaiting, hst, StackState.isWaiting]
    rw [run_eq, drive_still _ w (.inr hrests), conclude_none,
      if_neg fun h => hne h.1]
    exact reparks_of_same rfl rfl rfl
  · exact .inl (run_parks hst)

theorem receiveReturn_reparks (hs : s.Sound w) (ok : Bool) :
    Reparks s w (s.receiveReturn w ok) := by
  cases hsus : s.suspended? with
  | none =>
    unfold receiveReturn
    rw [hsus]
    exact reparks_of_same rfl rfl rfl
  | some node =>
    obtain ⟨-, rest, hn⟩ := suspended?_eq_some hsus
    exact .inl (receiveReturn_parks hsus (hs.known node (by simp [hn])))

/-- A hook that was heard may park the stack as well. -/
theorem forwardHook_reparks (hs : s.Sound w) (phase : Phase) :
    Reparks s w (s.forwardHook w phase) := by
  unfold forwardHook
  split
  · exact reparks_of_same rfl rfl rfl
  next top hsus =>
  split
  · exact reparks_of_same rfl rfl rfl
  obtain ⟨-, rest, hn⟩ := suspended?_eq_some hsus
  have hkeeps := World.hook_keeps w top phase
  have hwrites := World.Writes.hook w top phase
  split
  · exact reparks_of_same rfl rfl rfl
  · next w' status hw =>
    have hheard := World.happenings_hook_answered hw
    rw [hw] at hkeeps hwrites
    have hk : w'.graph.contains top := by
      rw [hkeeps.graph.contains]
      exact hs.known top (by simp [hn])
    unfold receiveStatus
    split
    · exact .inl ((receiveReturn_parks hsus hk).earlier hwrites hkeeps.tick)
    simp only [hsus]
    split
    · exact .inl parks_of_state
    · refine .inl ⟨fun _ => ?_, fun _ => ⟨top, by simp [top?, hn], ?_⟩⟩
      · exact congrArg some (congrArg Tick.number hkeeps.tick)
      · exact ⟨_, .hook phase, hheard, by simp, rfl⟩
    · exact .inl parks_of_state
    · exact reparks_of_same rfl rfl rfl
  · exact reparks_of_same rfl rfl rfl

theorem perform_reparks (hs : s.Sound w) {op : Operation} (hop : op.isStatus = false) :
    Reparks s w (s.perform w op) := by
  have hstart : ∀ (s : Stack) (head : NodeId), Reparks s w (s.start w head) := by
    intro s head
    by_cases hst : s.state = .ready
    · exact .inl (start_parks (by simp [hst]) head)
    · rw [start, if_pos (by simp [hst])]
      exact reparks_of_same rfl rfl rfl
  cases op with
  | start head => exact hstart s head
  | restart head =>
    show Reparks s w (s.restart w head)
    unfold restart
    split
    · exact .inl (start_parks (by simp) head)
    · exact hstart s head
  | run => exact run_reparks hs
  | receiveReturn ok => exact receiveReturn_reparks hs ok
  | receiveStatus status => cases hop
  | resumeNextUpdate =>
    show Reparks s w (s.resumeNextUpdate w).1
    unfold resumeNextUpdate
    split
    · exact .inl (run_parks (by simp))
    · exact reparks_of_same rfl rfl rfl
  | breakTo stopAt =>
    have hf := unwind_known s.label stopAt hs.known
    show Reparks s w (s.breakTo w stopAt)
    unfold breakTo
    split
    · exact reparks_of_same rfl rfl rfl
    split
    · next hu => rw [hu] at hf; cases hf
    · exact .inl parks_of_state
  | terminate =>
    obtain ⟨w', hu⟩ := unwind_all s.label hs.known
    simp only [perform, terminate, breakTo, Option.filter_none, hu]
    exact .inl parks_of_state
  | forwardHook phase => exact forwardHook_reparks hs phase
  | pause | resume | applyConfig _ => exact reparks_of_same rfl rfl rfl

end Stack

end BehaviorTree
