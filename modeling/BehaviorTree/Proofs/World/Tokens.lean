/-
Tokens of executions: when they are handed out, and when they are spent.

A token is spent once the activation of its node has gone beyond it. A spent token stays
spent, whatever happens; and the token of the present execution is spent by whatever renews
its node.
-/
import BehaviorTree.Proofs.World.Since

namespace BehaviorTree.World

variable {σ : Type} [Node σ] {w w' : World σ} {p : Progress}

/-- The moments at which a node finds its token in the context of a step: after its new
execution has begun, when it hears of its child or of a phase, and before its stop is done. -/
inductive Shown (p : Progress) : World σ → Prop
  | execute {w w' : World σ} {slot : Slot σ} {d : Dispatch}
      (hs : w.graph.slot? p.node = some slot) (h : w.execute p.node = .ok (w', d))
      (hp : p = (w.context p.node (slot.activation + 1)).progress) : Shown p w'
  | receive {w w' : World σ} {slot : Slot σ} {ok : Bool} {d : Dispatch}
      (hs : w.graph.slot? p.node = some slot) (h : w.receive p.node ok = .ok (w', d))
      (hp : p = (w.context p.node slot.activation).progress) : Shown p w'
  | hook {w : World σ} {slot : Slot σ} (phase : Phase) (hs : w.graph.slot? p.node = some slot)
      (hp : p = (w.context p.node slot.activation).progress) : Shown p (w.hook p.node phase).1
  | stop {w w' : World σ} {slot : Slot σ} (hs : w.graph.slot? p.node = some slot)
      (h : w.stop p.node = .ok w' ∨ w.interrupt p.node = .ok w')
      (hp : p = (w.context p.node slot.activation).progress) : Shown p w

/-- The moments at which a token is handed out: to its node, or to a host that asks for it. -/
inductive Issued (p : Progress) (w : World σ) : Prop
  | shown (h : Shown p w)
  | asked (h : w.progress? p.node = some p)

omit [Node σ] in
theorem activation?_of_context {slot : Slot σ} (hs : w.graph.slot? p.node = some slot)
    (hp : p = (w.context p.node slot.activation).progress) :
    w.activation? p.node = some p.activation := by
  have ha : p.activation = slot.activation := congrArg Progress.activation hp
  simp [activation?, hs, ha]

/-- A token is handed out only while it names the present execution of its node. -/
theorem Issued.progress? (h : Issued p w) : w.progress? p.node = some p := by
  rcases h with h | h
  · rw [progress?_eq_some_iff]
    cases h with
    | execute hs h hp =>
      have ha : p.activation = _ + 1 := congrArg Progress.activation hp
      rw [execute_renewed h p.node, if_pos rfl, activation?, hs, ha]
      rfl
    | receive hs h hp => rw [activation?_receive h, activation?_of_context hs hp]
    | hook phase hs hp => rw [activation?_hook, activation?_of_context hs hp]
    | stop hs _ hp => exact activation?_of_context hs hp
  · exact h

/-- The execution that the token names is over. -/
def Spent (w : World σ) (p : Progress) : Prop :=
  ∃ a, w.activation? p.node = some a ∧ p.activation < a

omit [Node σ] in
/-- A spent token is void. -/
theorem Spent.not_isCurrent (h : w.Spent p) : ¬w.isCurrent p := by
  obtain ⟨a, ha, hlt⟩ := h
  rw [World.isCurrent_iff, ha, Option.some.injEq]
  omega

/-- It never comes to life again. -/
theorem Spent.since (h : w.Spent p) (hw : w.Since w') : w'.Spent p := by
  obtain ⟨a, ha, hlt⟩ := h
  obtain ⟨new, hnew⟩ := hw.aged
  obtain ⟨a', ha', hle, -⟩ := hnew.activation p.node a ha
  exact ⟨a', ha', Nat.lt_of_lt_of_le hlt hle⟩

/-- What renews a node spends its present token. -/
theorem Since.spent {new : List Happening} {x : Happening} (hw : w.Since w')
    (hp : w.isCurrent p) (hh : w'.happenings = w.happenings ++ new) (hx : x ∈ new)
    (hr : x.renews p.node) : w'.Spent p := by
  obtain ⟨new', hnew⟩ := hw.aged
  obtain rfl : new' = new := List.append_cancel_left (hnew.happenings.symm.trans hh)
  obtain ⟨a, ha, hle, hiff⟩ := hnew.activation p.node p.activation (World.isCurrent_iff.1 hp)
  have hne : a ≠ p.activation := by
    intro he
    have hf := hiff.1 he x hx
    rw [hr] at hf
    cases hf
  exact ⟨a, ha, by omega⟩

end BehaviorTree.World
