/-
Operations that are refused, and what they leave.

An operation looks at the stack and at its argument before it does anything: a start looks
whether there is room and whether the head exists, a return whether a node waits for it, a
roll-back whether its target is there. What it finds wrong is its `refusal?`, and nothing
comes of an operation that is refused: no field of the stack and nothing in the world
changes. There is one exception. A restart makes an ended stack ready before it looks at
the head, so that a stack that could not be restarted has not ended any more.
-/
import BehaviorTree.Proofs.Stack.Reachable

namespace BehaviorTree.Stack

variable {σ : Type}

/-- What an operation finds wrong before it begins, if anything. -/
def Operation.refusal? (s : Stack) (w : World σ) : Operation → Option StackError
  | .start head =>
    if s.nodes ≠ [] ∨ s.state ≠ .ready then some (.notReady s.label s.state s.nodes.length)
    else if w.graph.contains head then none
    else some (.unknownNode head)
  | .restart head =>
    if s.nodes ≠ [] then some (.notReady s.label s.state s.nodes.length)
    else if w.graph.contains head then none
    else some (.unknownNode head)
  | .receiveReturn _ | .receiveStatus _ =>
    if s.state = .waiting ∨ s.state = .waitUntilNextUpdate then none
    else some (.notWaiting s.label s.state)
  | .breakTo (some target) =>
    if target ∈ s.nodes then none else some (.breakTargetNotOnStack s.label target)
  | .breakTo none | .run | .resumeNextUpdate | .terminate | .forwardHook _ | .pause | .resume
  | .applyConfig _ => none

/-- What the refusal of an operation leaves of a stack. -/
def Operation.refused (s : Stack) : Operation → Stack
  | .restart _ => if s.state = .ended then { s with state := .ready } else s
  | _ => s

variable [Node σ] {s : Stack} {w : World σ} {op : Operation} {e : StackError}

/-! ## One operation after the other -/

omit [Node σ] in
theorem suspended?_eq_none (h : ¬ (s.state = .waiting ∨ s.state = .waitUntilNextUpdate)) :
    s.suspended? = none := by
  cases hs : s.state <;> simp_all [suspended?, isWaiting, StackState.isWaiting]

theorem start_refused (hs : Sound s w) {head : NodeId}
    (h : (Operation.start head).refusal? s w = some e) : s.start w head = ⟨s, w, some e⟩ := by
  simp only [Operation.refusal?] at h
  split at h
  · next hb =>
    obtain rfl : StackError.notReady s.label s.state s.depth = e := Option.some.inj h
    rw [start, if_pos (by simpa [isEmpty, hs.current, or_comm] using hb)]
  next hb =>
  simp only [not_or, ne_eq, Decidable.not_not] at hb
  split at h
  · cases h
  next hg =>
  obtain rfl : StackError.unknownNode head = e := Option.some.inj h
  rw [start, if_neg (by simp [isEmpty, hb, hs.current]), if_pos (by simpa using hg)]

/-- A restart of a stack that has ended is a start of one that is ready; of any other stack
it is a start of that stack. -/
theorem restart_refused (hs : Sound s w) {head : NodeId}
    (h : (Operation.restart head).refusal? s w = some e) :
    s.restart w head = ⟨Operation.refused s (.restart head), w, some e⟩ := by
  by_cases he : s.state = .ended
  · have hn : s.nodes = [] := hs.of_ended he
    have hr : s.result = none := by simpa [he] using hs.result_iff
    have hready : Sound { s with state := .ready } w :=
      ⟨⟨by simp [hr], by simp, by simp⟩, hs.current, hs.nodup, hs.known, fun _ => .inl rfl⟩
    rw [restart, if_pos he, Operation.refused, if_pos he]
    exact start_refused hready (by simpa [Operation.refusal?, hn] using h)
  · rw [restart, if_neg he, Operation.refused, if_neg he]
    refine start_refused hs ?_
    by_cases hn : s.nodes = []
    · have hst : s.state = .ready := (hs.of_empty hn).resolve_right he
      simpa [Operation.refusal?, hn, hst] using h
    · simpa [Operation.refusal?, hn] using h

omit [Node σ] in
theorem not_waiting (h : (if s.state = .waiting ∨ s.state = .waitUntilNextUpdate then none
      else some (StackError.notWaiting s.label s.state)) = some e) :
    s.suspended? = none ∧ e = .notWaiting s.label s.state := by
  split at h
  · cases h
  next hw => exact ⟨suspended?_eq_none hw, (Option.some.inj h).symm⟩

theorem receiveReturn_refused {ok : Bool}
    (h : (Operation.receiveReturn ok).refusal? s w = some e) :
    s.receiveReturn w ok = ⟨s, w, some e⟩ := by
  obtain ⟨hs, rfl⟩ := not_waiting h
  rw [receiveReturn, hs]

theorem receiveStatus_refused {status : Status}
    (h : (Operation.receiveStatus status).refusal? s w = some e) :
    s.receiveStatus w status = ⟨s, w, some e⟩ := by
  obtain ⟨hs, rfl⟩ := not_waiting h
  unfold receiveStatus receiveReturn
  rw [hs]
  cases status.outcome <;> rfl

theorem breakTo_refused {stopAt : Option NodeId}
    (h : (Operation.breakTo stopAt).refusal? s w = some e) :
    s.breakTo w stopAt = ⟨s, w, some e⟩ := by
  cases stopAt with
  | none => cases h
  | some target =>
    simp only [Operation.refusal?] at h
    split at h
    · cases h
    next hn =>
    obtain rfl : StackError.breakTargetNotOnStack s.label target = e := Option.some.inj h
    simp [Stack.breakTo, Option.filter, Stack.contains, hn]

/-! ## Every operation -/

/-- An operation that is refused returns its refusal and leaves the stack and the world as
they were, whatever the host did before; only a restart leaves a stack that had ended ready. -/
theorem refused_untouched (h : Reachable s w) (hr : op.refusal? s w = some e) :
    s.perform w op = ⟨op.refused s, w, some e⟩ := by
  have hs := h.sound
  cases op with
  | start head => exact start_refused hs hr
  | restart head => exact restart_refused hs hr
  | receiveReturn ok => exact receiveReturn_refused hr
  | receiveStatus status => exact receiveStatus_refused hr
  | breakTo stopAt => exact breakTo_refused hr
  | run | resumeNextUpdate | terminate | forwardHook _ | pause | resume | applyConfig _ => cases hr

/-- A leaf that waits is in the way of a start. -/
theorem refused_untouched_idle :
    let w : World (LeafNode Question Plays) :=
      { graph := ({} : Graph _).add "idle" .idle |>.1, blackboard := {} }
    let p := perform { label := .main } w (.start ⟨0⟩)
    (Operation.start ⟨0⟩).refusal? p.after p.world = some (.notReady .main .waiting 1) ∧
      p.after.perform p.world (.start ⟨0⟩) =
        ⟨p.after, p.world, some (.notReady .main .waiting 1)⟩ := by
  intro w p
  have hr : (Operation.start ⟨0⟩).refusal? p.after p.world = some (.notReady .main .waiting 1) := by
    decide +kernel
  exact ⟨hr, refused_untouched (.perform _ (.new _ w)) hr⟩

/-- A stack that has ended is asked to start again with a node that is not in the graph: the
restart is refused, and the stack has not ended any more. -/
theorem restart_unended :
    ¬ ∀ (s : Stack) (w : World (LeafNode Question Plays)) (head : NodeId), Reachable s w →
      ¬ w.graph.contains head →
        (s.restart w head).fault = some (.unknownNode head) → (s.restart w head).after = s := by
  intro h
  let w : World (LeafNode Question Plays) :=
    { graph := ({} : Graph _).add "idle" .idle |>.1, blackboard := {} }
  let p := perform { label := .main } w (.start ⟨0⟩)
  let q := p.after.perform p.world (.receiveReturn true)
  have hq : Reachable q.after q.world := .perform _ (.perform _ (.new _ w))
  have hf := h q.after q.world ⟨5⟩ hq (by decide +kernel) (by decide +kernel)
  exact absurd hf (by decide +kernel)

end BehaviorTree.Stack
