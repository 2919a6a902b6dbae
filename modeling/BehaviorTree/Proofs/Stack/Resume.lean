/-
Stacks that are resumed.

In the tick in which it was parked a stack is left alone: whatever is done to it, its node is
not executed again before it has left. In a later tick the first thing that a pass does is to
execute the node; and if the stack is parked after that, then since that tick.
-/
import BehaviorTree.Proofs.Stack.Bound
import BehaviorTree.Proofs.Stack.Parked
import BehaviorTree.Proofs.Stack.Written

namespace BehaviorTree

variable {σ : Type}

/-- From the world `w` to the world `w'` the node is not executed before it has left the stack. -/
def World.Unexecuted (w : World σ) (label : StackLabel) (n : NodeId) (w' : World σ) : Prop :=
  ∀ before after, w'.happenings = w.happenings ++ (before ++ .called n .execute :: after) →
    .left label n ∈ before

namespace World

variable {w w' : World σ} {label : StackLabel} {n : NodeId}

theorem unexecuted_of_not_mem {new : List Happening} (hh : w'.happenings = w.happenings ++ new)
    (h : .called n .execute ∉ new) : w.Unexecuted label n w' := by
  intro before after he
  obtain rfl := List.append_cancel_left (hh.symm.trans he)
  simp at h

theorem unexecuted_of_same (h : w'.happenings = w.happenings) : w.Unexecuted label n w' :=
  unexecuted_of_not_mem (h.trans (List.append_nil _).symm) List.not_mem_nil

/-- What comes once the node has left does not count. -/
theorem unexecuted_of_left {first more : List Happening}
    (hh : w'.happenings = w.happenings ++ (first ++ .left label n :: more))
    (h : .called n .execute ∉ first) : w.Unexecuted label n w' := by
  intro before after he
  have heq := List.append_cancel_left (hh.symm.trans he)
  rcases List.append_eq_append_iff.1 heq with ⟨between, rfl, hb⟩ | ⟨between, rfl, hb⟩
  · cases between with
    | nil => simp at hb
    | cons x between =>
      obtain ⟨rfl, -⟩ : _ = x ∧ _ := by simpa using hb
      simp
  · cases between with
    | nil => simp at hb
    | cons x between =>
      obtain ⟨rfl, -⟩ : _ = x ∧ _ := by simpa using hb
      simp at h

/-- What happens from a moment on at which the node has not been executed. -/
theorem Unexecuted.after {w'' : World σ} (h : w'.Unexecuted label n w'') {new : List Happening}
    (hh : w'.happenings = w.happenings ++ new) (hnew : .called n .execute ∉ new)
    (hw : w'.Writes w'') : w.Unexecuted label n w'' := by
  obtain ⟨more, hmore⟩ := hw.happenings
  intro before after he
  have heq : new ++ more = before ++ .called n .execute :: after := by
    have hall : w.happenings ++ (new ++ more)
        = w.happenings ++ (before ++ .called n .execute :: after) := by
      rw [← he, ← hmore, hh, List.append_assoc]
    exact List.append_cancel_left hall
  rcases List.append_eq_append_iff.1 heq with ⟨between, rfl, hb⟩ | ⟨between, rfl, hb⟩
  · exact List.mem_append_right _ (h between after (hmore.symm.trans (congrArg _ hb)))
  · cases between with
    | nil => exact absurd (h [] after (by rw [← hmore]; exact congrArg _ hb.symm)) List.not_mem_nil
    | cons x between =>
      obtain ⟨rfl, -⟩ : _ = x ∧ _ := by simpa using hb
      simp at hnew

end World

variable [Node σ]

namespace Stack

variable {s s' : Stack} {w w' : World σ} {n : NodeId} {rest : List NodeId} {tick : Nat}

/-! ## In the tick in which it was parked -/

omit [Node σ] in
theorem Sound.parked_le (hs : s.Sound w) (hp : s.Parked n tick) : tick ≤ w.tick.number := by
  obtain ⟨tick', ht, hle⟩ := hs.parked hp.state
  cases hp.since.symm.trans ht
  exact hle

omit [Node σ] in
theorem Parked.suspended (hp : s.Parked n tick) : s.suspended? = some n := by
  have htop : s.nodes.head? = some n := hp.top
  simp [suspended?, isWaiting, hp.state, StackState.isWaiting, top?, htop]

/-- In the tick in which it was parked a stack is left alone. -/
theorem resumeNextUpdate_early (hp : s.Parked n tick) (ht : tick = w.tick.number) :
    s.resumeNextUpdate w = (⟨s, w, none⟩, false) := by
  rw [resumeNextUpdate, if_neg]
  simp [isDue, hp.since, ht]

/-- The end of a pass is only noted. -/
theorem happenings_run (s : Stack) (w : World σ) : (s.run w).world.happenings
    = (drive s.stepBudget { s with last := none } w).world.happenings := by
  have hquiet : ∀ (w : World σ) (tag : String) (label : StackLabel) (node : Option NodeId)
      (value : Int), IsQuiet tag → (w.trace tag label node value).happenings = w.happenings :=
    fun w tag label node value h => World.happenings_trace w h ..
  simp only [run]
  split
  · exact (hquiet _ _ _ _ _ (by decide)).trans (World.happenings_record_of_none _ rfl)
  split
  · exact hquiet _ _ _ _ _ (by decide)
  · rfl

/-- Rolling back executes no node. -/
theorem happenings_unwind (label : StackLabel) (stopAt : Option NodeId) (nodes : List NodeId)
    (w : World σ) : ∃ new, (unwind label stopAt nodes w).world.happenings = w.happenings ++ new ∧
      ∀ n, .called n .execute ∉ new := by
  induction nodes generalizing w with
  | nil => exact ⟨[], by simp [unwind], fun _ => List.not_mem_nil⟩
  | cons top rest ih =>
    rw [unwind]
    split
    · exact ⟨[], by simp, fun _ => List.not_mem_nil⟩
    split
    · exact ⟨[], by simp, fun _ => List.not_mem_nil⟩
    · next hw =>
      obtain ⟨new, hh, hnew⟩ := ih ((_ : World σ).left label top rest.length)
      refine ⟨[.called top .stop, .left label top] ++ new, ?_, fun n => ?_⟩
      · rw [hh, World.happenings_left, World.happenings_interrupt hw]
        simp
      · simp [hnew n]

theorem breakTo_unexecuted (s : Stack) (w : World σ) (stopAt : Option NodeId)
    (label : StackLabel) (n : NodeId) : w.Unexecuted label n (s.breakTo w stopAt).world := by
  obtain ⟨new, hh, hnew⟩ := happenings_unwind s.label stopAt s.nodes w
  unfold breakTo
  split
  · exact World.unexecuted_of_same rfl
  split
  · next hu =>
    rw [hu] at hh
    exact World.unexecuted_of_not_mem hh (hnew n)
  · next hu =>
    rw [hu] at hh
    exact World.unexecuted_of_not_mem
      ((World.happenings_trace _ (by decide) ..).trans hh) (hnew n)

theorem terminate_unexecuted (s : Stack) (w : World σ) (label : StackLabel) (n : NodeId) :
    w.Unexecuted label n (s.terminate w).world := by
  have hb := s.breakTo_unexecuted w none label n
  unfold terminate
  split
  · next h => rw [h] at hb; exact hb
  · next h =>
    rw [h] at hb
    simp only
    split
    · exact hb
    · unfold World.Unexecuted
      rw [World.happenings_trace _ (by decide)]
      exact hb

/-- A stack goes on from the end of its node only once the node has left. -/
theorem receiveReturn_unexecuted (hs : s.Sound w) (hsus : s.suspended? = some n) (ok : Bool) :
    w.Unexecuted s.label n (s.receiveReturn w ok).world := by
  obtain ⟨-, rest, hn⟩ := suspended?_eq_some hsus
  obtain ⟨w', hw⟩ := World.exists_stop (hs.known n (by simp [hn]))
  unfold receiveReturn
  simp only [hsus, complete_eq ok hn hw]
  generalize hleft : (w'.left s.label n rest.length).trace "bt.stack.receive" s.label n
    (if ok then 1 else 0) = w₁
  have hw₁ : w₁.happenings = w.happenings ++ [.called n .stop, .left s.label n] := by
    rw [← hleft, World.happenings_trace _ (by decide), World.happenings_left,
      World.happenings_stop hw, List.append_assoc]
    rfl
  have hrun : ∀ s' : Stack, w₁.Writes (s'.run w₁).world := fun s' => s'.perform_writes w₁ .run
  obtain ⟨more, hmore⟩ := (hrun _).happenings
  have hgone : .called n .execute ∉ [Happening.called n .stop] := by simp
  have hsplit : w₁.happenings ++ more
      = w.happenings ++ ([.called n .stop] ++ .left s.label n :: more) := by
    rw [hw₁, List.append_assoc]
    rfl
  exact World.unexecuted_of_left (hmore.symm.trans hsplit) hgone

theorem receiveStatus_unexecuted (hs : s.Sound w) (hsus : s.suspended? = some n)
    (status : Status) : w.Unexecuted s.label n (s.receiveStatus w status).world := by
  unfold receiveStatus
  split
  · exact receiveReturn_unexecuted hs hsus _
  simp only [hsus]
  split
  · exact World.unexecuted_of_same rfl
  · exact World.unexecuted_of_same rfl
  · exact World.unexecuted_of_same <| (World.happenings_trace _ (by decide) ..).trans
      ((World.happenings_record_of_none _ rfl).trans (World.happenings_record_of_none _ rfl))
  · exact World.unexecuted_of_same rfl

theorem forwardHook_unexecuted (hs : s.Sound w) (hsus : s.suspended? = some n) (phase : Phase) :
    w.Unexecuted s.label n (s.forwardHook w phase).world := by
  have hkeeps := World.hook_keeps w n phase
  have hquiet : w.Unexecuted s.label n (w.hook n phase).1 := by
    rcases World.happenings_hook w n phase with h | h
    · exact World.unexecuted_of_same h
    · exact World.unexecuted_of_not_mem h (by simp)
  unfold forwardHook
  simp only [hsus]
  split
  · exact World.unexecuted_of_same rfl
  split
  · next hw => rw [hw] at hquiet; exact hquiet
  · next w' status hw =>
    rw [hw] at hkeeps
    have hs' : s.Sound w' := hs.elsewhere (fun n hn => by rwa [hkeeps.graph.contains])
      (Nat.le_of_eq (congrArg Tick.number hkeeps.tick.symm))
    exact (receiveStatus_unexecuted hs' hsus status).after (World.happenings_hook_answered hw)
      (by simp) (perform_writes s w' (.receiveStatus status))
  · next hw => rw [hw] at hquiet; exact hquiet

/-- In the tick in which a stack was parked nothing executes its node before that has left. -/
theorem perform_unexecuted (hs : s.Sound w) (hp : s.Parked n tick) (ht : tick = w.tick.number)
    (op : Operation) : w.Unexecuted s.label n (s.perform w op).world := by
  have hstart : ∀ head, w.Unexecuted s.label n (s.start w head).world := fun head => by
    rw [start, if_pos (by simp [hp.state])]
    exact World.unexecuted_of_same rfl
  cases op with
  | start head => exact hstart head
  | restart head =>
    show w.Unexecuted s.label n (s.restart w head).world
    rw [restart, if_neg (by simp [hp.state])]
    exact hstart head
  | run =>
    have hrests : ({ s with last := none } : Stack).rests := by
      simp [rests, isWaiting, hp.state, StackState.isWaiting]
    refine World.unexecuted_of_same ?_
    show (s.run w).world.happenings = w.happenings
    rw [happenings_run, drive_still _ w (.inr hrests)]
  | receiveReturn ok => exact receiveReturn_unexecuted hs hp.suspended ok
  | receiveStatus status => exact receiveStatus_unexecuted hs hp.suspended status
  | resumeNextUpdate =>
    refine World.unexecuted_of_same ?_
    show (s.resumeNextUpdate w).1.world.happenings = w.happenings
    rw [resumeNextUpdate_early hp ht]
  | breakTo stopAt => exact s.breakTo_unexecuted w stopAt s.label n
  | terminate => exact s.terminate_unexecuted w s.label n
  | forwardHook phase => exact forwardHook_unexecuted hs hp.suspended phase
  | pause | resume | applyConfig _ => exact World.unexecuted_of_same rfl

/-! ## In a later tick -/

/-- The first thing that is done on a stack that calls its top is to execute that. -/
theorem drive_begins (budget : Nat) (hs : s.state = .ready ∨ s.state = .calling)
    (hn : s.nodes = n :: rest) (hp : s.paused = false) (hl : s.last = none)
    (hk : w.graph.contains n) :
    ∃ w' d, w.execute n = .ok (w', d) ∧ w'.Writes (drive (budget + 1) s w).world := by
  obtain ⟨w', d, hw⟩ := World.exists_execute hk
  have hstep : s.step w n
      = ({ s with current := some n, state := .calling } : Stack).apply w' n d := by
    rcases hs with hs | hs <;> simp [step, hs, hl, hw]
  have hgoes : s.Goes n rest := by
    refine ⟨hn, ?_, ?_⟩ <;> rcases hs with hs | hs <;>
      simp [rests, isWaiting, hs, StackState.isWaiting]
  have hwrites : w'.Writes (s.step w n).world := by
    rw [hstep]
    exact (apply_proceeds _ w' n d).writes
  refine ⟨w', d, hw, ?_⟩
  rw [hgoes.drive_succ (.inl hp)]
  split
  · exact hwrites
  · exact hwrites.trans (drive_writes ..)

/-- The end of a pass only writes to the history. -/
theorem drive_writes_run (s : Stack) (w : World σ) :
    (drive s.stepBudget { s with last := none } w).world.Writes (s.run w).world := by
  simp only [run]
  split
  · exact (World.Writes.record ..).trans (.record ..)
  split
  · exact World.Writes.record ..
  · exact .refl _

theorem run_begins (hs : s.state = .ready ∨ s.state = .calling) (hn : s.nodes = n :: rest)
    (hp : s.paused = false) (hbudget : 0 < s.stepBudget) (hk : w.graph.contains n) :
    ∃ w' d, w.execute n = .ok (w', d) ∧ w'.Writes (s.run w).world := by
  obtain ⟨w', d, hw, hwrites⟩ := drive_begins (s.stepBudget - 1) (s := { s with last := none })
    hs hn hp rfl hk
  rw [Nat.sub_add_cancel hbudget] at hwrites
  exact ⟨w', d, hw, hwrites.trans (drive_writes_run s w)⟩

theorem run_executes (hs : s.state = .calling) (hn : s.nodes = n :: rest) (hp : s.paused = false)
    (hbudget : 0 < s.stepBudget) (hk : w.graph.contains n) (hb : w.Bound n) :
    ∃ more, (s.run w).world.happenings = w.happenings ++ .called n .execute :: more := by
  obtain ⟨w', d, hw, hwrites⟩ := run_begins (.inr hs) hn hp hbudget hk
  obtain ⟨more, hmore⟩ := hwrites.happenings
  refine ⟨more, ?_⟩
  rw [← hmore, World.happenings_execute_of_bound hb hw, List.append_assoc]
  rfl

omit [Node σ] in
theorem Parked.isDue (hp : s.Parked n tick) (ht : tick < w.tick.number) (hu : s.paused = false) :
    s.isDue w.tick.number := by
  simp [Stack.isDue, hp.state, hp.since, hu, ht]

/-- In a later tick the node on top is executed. -/
theorem resumeNextUpdate_executes (hs : s.Sound w) (hb : s.Bounded w) (hp : s.Parked n tick)
    (ht : tick < w.tick.number) (hu : s.paused = false) (hbudget : 0 < s.stepBudget) :
    ∃ more, (s.resumeNextUpdate w).1.world.happenings
      = w.happenings ++ .called n .execute :: more := by
  obtain ⟨rest, hn⟩ := List.head?_eq_some_iff.1 hp.top
  have hwaits : s.isWaiting := by simp [isWaiting, hp.state, StackState.isWaiting]
  rw [resumeNextUpdate, if_pos (hp.isDue ht hu)]
  exact run_executes rfl hn hu hbudget (hs.known n (by simp [hn])) (hb.top (.inl hwaits) n hp.top)

/-- If a stack is parked once it was resumed, then since the tick of then. -/
theorem resumeNextUpdate_parks (hp : s.Parked n tick) (ht : tick < w.tick.number)
    (hu : s.paused = false) :
    Parks w (s.resumeNextUpdate w).1.after (s.resumeNextUpdate w).1.world := by
  rw [resumeNextUpdate, if_pos (hp.isDue ht hu)]
  exact run_parks (by simp)

end Stack

end BehaviorTree
