/-
Driving a stack, hop by hop and without a budget.

A `Spot` is all that counts of a stack between two steps of a drive that goes well. From
one spot to the next leads a `Hop`: a child is called, a node ends, or a node suspends and
is ended by the host. A stack whose budget covers the hops of each pass gets where the hops
lead (`Leads.feed`).
-/
import BehaviorTree.Stack.Operations

namespace BehaviorTree

variable {σ : Type} [Node σ]

/-- Turn to a node: execute it, or hand it the result of its child. -/
def World.turn (w : World σ) (id : NodeId) :
    Option Bool → Except StackError (World σ × Dispatch)
  | none => w.execute id
  | some ok => w.receive id ok

/-- Where a drive is between two steps: the nodes on the stack, the result on its way up
if there is one, and the node that was turned to last in the same pass. -/
structure Spot (σ : Type) where
  nodes : List NodeId
  result : Option Bool
  last : Option NodeId
  world : World σ

/-- The stack at a spot. -/
def Spot.stack (p : Spot σ) (label : StackLabel) (budget : Nat) : Stack where
  label
  nodes := p.nodes
  state := if p.result.isSome then .receiving else .calling
  result := p.result
  last := p.last
  stepBudget := budget

namespace Stack

/-- The end of a pass. -/
def conclude (p : Pass σ Stack) : Pass σ Stack :=
  let s := { p.after with current := none }
  match p.fault with
  | some e => s.invalidate p.world e
  | none => if s.isEmpty && s.state ≠ .ended then s.finish p.world else ⟨s, p.world, none⟩

theorem run_eq (s : Stack) (w : World σ) :
    s.run w = conclude (drive s.stepBudget { s with last := none } w) := rfl

/-- End one suspended node after the other from outside, for as long as no rule is broken. -/
def feed (p : Pass σ Stack) : List Bool → Pass σ Stack
  | [] => p
  | ok :: rest => match p.fault with
    | some _ => p
    | none => feed (p.after.receiveReturn p.world ok) rest

/-! ## One step at a spot -/

section Steps

variable {label : StackLabel} {budget : Nat} {id : NodeId} {rest : List NodeId}
  {result : Option Bool} {last : Option NodeId} {w w₁ : World σ} {d : Dispatch}

/-- The stack that does what came of the turn. -/
def turned (label : StackLabel) (budget : Nat) (id : NodeId) (rest : List NodeId)
    (result : Option Bool) (last : Option NodeId) : Stack where
  label
  nodes := id :: rest
  state := if result.isSome then .receiving else .calling
  current := some id
  last
  stepBudget := budget

theorem step_spot (hl : last ≠ some id) (ht : w.turn id result = .ok (w₁, d)) :
    ((Spot.mk (id :: rest) result last w).stack label budget).step w id
      = (turned label budget id rest result last).apply w₁ id d := by
  cases result with
  | none =>
    have he : w.execute id = .ok (w₁, d) := ht
    simp [step, Spot.stack, turned, hl, he]
  | some ok =>
    have hr : w.receive id ok = .ok (w₁, d) := ht
    simp [step, Spot.stack, turned, hl, hr]

theorem drive_spot (b : Nat) (hl : last ≠ some id) (ht : w.turn id result = .ok (w₁, d)) :
    drive (b + 1) ((Spot.mk (id :: rest) result last w).stack label budget) w
      = let p := (turned label budget id rest result last).apply w₁ id d
        if p.fault.isSome || p.after.rests then p else drive b p.after.moveOn p.world := by
  rw [← step_spot hl ht]
  have hr : ((Spot.mk (id :: rest) result last w).stack label budget).rests = false := by
    cases result <;> rfl
  have hi : ((Spot.mk (id :: rest) result last w).stack label budget).state ≠ .invalid := by
    cases result <;> simp [Spot.stack]
  rw [drive]
  simp only [hr, hi]
  simp [Spot.stack]

end Steps

end Stack

/-! ## Hops -/

/-- From one spot to the next; where the host has to end a suspended node, the hop takes
the outcome that it gives. -/
inductive Hop (label : StackLabel) : Option Bool → Spot σ → Spot σ → Prop
  | call {id child : NodeId} {rest : List NodeId} {result : Option Bool} {last : Option NodeId}
      {w w₁ : World σ} (hl : last ≠ some id)
      (ht : w.turn id result = .ok (w₁, .answered .noReturn [child]))
      (hc : w₁.graph.contains child) (hn : child ∉ id :: rest) :
      Hop label none ⟨id :: rest, result, last, w⟩
        ⟨child :: id :: rest, none, some id, w₁.entered label child (rest.length + 2)⟩
  | leave {id : NodeId} {rest : List NodeId} {result : Option Bool} {last : Option NodeId}
      {w w₁ w₂ : World σ} {ok : Bool} (hl : last ≠ some id)
      (ht : w.turn id result = .ok (w₁, .answered (.of ok) [])) (hs : w₁.stop id = .ok w₂) :
      Hop label none ⟨id :: rest, result, last, w⟩
        ⟨rest, some ok, some id, (w₂.left label id rest.length).trace "bt.stack.receive" label id
          (if ok then 1 else 0)⟩
  | wait {id : NodeId} {rest : List NodeId} {result : Option Bool} {last : Option NodeId}
      {w w₁ w₂ : World σ} (ok : Bool) (hl : last ≠ some id)
      (ht : w.turn id result = .ok (w₁, .answered .wait []))
      (hs : (w₁.trace "bt.stack.wait" label id 0).stop id = .ok w₂) :
      Hop label (some ok) ⟨id :: rest, result, last, w⟩
        ⟨rest, some ok, none, (w₂.left label id rest.length).trace "bt.stack.receive" label id
          (if ok then 1 else 0)⟩

namespace Hop

variable {label : StackLabel} {p q : Spot σ}

/-- Within a pass, a hop takes one step of the budget. -/
theorem drive (h : Hop label none p q) (b budget : Nat) :
    Stack.drive (b + 1) (p.stack label budget) p.world
      = Stack.drive b (q.stack label budget) q.world := by
  cases h with
  | @call id child rest result last w w₁ hl ht hc hn =>
    obtain ⟨hne, hnr⟩ := not_or.1 (mt List.mem_cons.2 hn)
    rw [Stack.drive_spot b hl ht]
    simp [Stack.apply, Stack.call, Stack.turned, Stack.contains, Stack.push, Stack.settleStatus,
      Stack.top?, Stack.moveOn, Stack.rests, Stack.isWaiting, Stack.depth, StackState.isWaiting,
      Spot.stack, hc, hne, hnr]
  | @leave id rest result last w w₁ w₂ ok hl ht hs =>
    rw [Stack.drive_spot b hl ht]
    cases ok <;>
      simp [Stack.apply, Stack.settleStatus, Stack.complete, Stack.turned, Stack.pop, Stack.moveOn,
        Stack.rests, Stack.isWaiting, StackState.isWaiting, Spot.stack, Status.of, hs]

/-- Where a node suspends, the pass ends; with the node's outcome the host begins another. -/
theorem receiveReturn {ok : Bool} (h : Hop label (some ok) p q) (b budget : Nat) :
    let r := Stack.conclude (Stack.drive (b + 1) (p.stack label budget) p.world)
    r.fault = none ∧ r.after.receiveReturn r.world ok
      = Stack.conclude (Stack.drive budget (q.stack label budget) q.world) := by
  cases h with
  | @wait id rest result last w w₁ w₂ ok hl ht hs =>
    rw [Stack.drive_spot b hl ht]
    simp [Stack.apply, Stack.settleStatus, Stack.suspend, Stack.complete, Stack.turned, Stack.pop,
      Stack.rests, Stack.isWaiting, StackState.isWaiting, Stack.conclude, Stack.isEmpty,
      Stack.receiveReturn, Stack.suspended?, Stack.top?, Stack.run_eq, Spot.stack, hs]

end Hop

/-- A number of hops, with the outcomes that the host gives on the way. -/
inductive Leads (label : StackLabel) : Nat → List Bool → Spot σ → Spot σ → Prop
  | refl (p : Spot σ) : Leads label 0 [] p p
  | hop {n : Nat} {used : List Bool} {input : Option Bool} {p q r : Spot σ}
      (h : Hop label input p q) (hr : Leads label n used q r) :
      Leads label (n + 1) (input.toList ++ used) p r

namespace Leads

variable {label : StackLabel} {m n : Nat} {used more : List Bool} {p q r : Spot σ}

theorem trans (h : Leads label m used p q) (h' : Leads label n more q r) :
    Leads label (m + n) (used ++ more) p r := by
  induction h with
  | refl p => simpa using h'
  | hop h _ ih =>
    have hr := Leads.hop h (ih h')
    rwa [← List.append_assoc, Nat.add_right_comm] at hr

/-- If the budget covers all hops, then the stack gets where they lead. -/
theorem feed (h : Leads label n used p q) (hq : q.nodes = []) {b budget : Nat} (hb : n ≤ b)
    (hn : n ≤ budget) :
    Stack.feed (Stack.conclude (Stack.drive b (p.stack label budget) p.world)) used
      = Stack.conclude ⟨q.stack label budget, q.world, none⟩ := by
  induction h generalizing b with
  | refl p =>
    have hd : Stack.drive b (p.stack label budget) p.world
        = ⟨p.stack label budget, p.world, none⟩ := by
      cases b <;> simp [Stack.drive, Spot.stack, hq]
    rw [hd]
    rfl
  | @hop n used input p q r h _ ih =>
    obtain ⟨b, rfl⟩ : ∃ b', b = b' + 1 := ⟨b - 1, by omega⟩
    cases input with
    | none =>
      rw [h.drive b budget]
      exact ih hq (by omega) (by omega)
    | some ok =>
      obtain ⟨hf, hr⟩ := h.receiveReturn b budget
      have hi := ih hq (b := budget) (by omega) (by omega)
      rw [← hr] at hi
      simp only [Option.toList, List.singleton_append, Stack.feed, hf]
      exact hi

end Leads

end BehaviorTree
