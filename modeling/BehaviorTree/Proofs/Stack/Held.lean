/-
A stack that is held goes on only when it is released.

While stepping is on, a node that ends by its own answer holds its stack, and the ledger
says so until the stack is resumed or cleared. For as long nothing stirs on the stack: no node
is executed and none hears a hook. Only an operation that resumes or rolls back releases,
and every other one leaves a paused stack paused.
-/
import BehaviorTree.Proofs.Stack.Marks

namespace BehaviorTree

variable {m : Mark} {marks : List Mark}

/-- The stack may go on again, whatever held it. -/
def Mark.releases : Mark → Bool
  | cleared | resumed => true
  | _ => false

/-- A node is executed, or bound before it is, or hears a hook. A paused stack may still
deliver a result. -/
def Mark.stirs : Mark → Bool
  | called _ .bind | called _ .execute | called _ (.hook _) => true
  | _ => false

namespace Ledger

variable {l : Ledger}

theorem held_enter (hl : l.held) (hm : m.releases = false) : (l.enter m).held := by
  cases m with
  | called n call => cases call <;> exact hl
  | came | rolledBack => exact hl
  | ended e => simp [enter, hl]
  | cleared | resumed => cases hm

theorem held_balance (hl : l.held) (hm : ∀ m ∈ marks, m.releases = false) :
    (l.balance marks).held := by
  induction marks generalizing l with
  | nil => exact hl
  | cons m marks ih =>
    exact ih (held_enter hl (hm m List.mem_cons_self)) fun m' h => hm m' (List.mem_cons_of_mem m h)

/-- Nothing holds a stack but the end of a node. -/
theorem not_held_balance (hl : l.held = false) (hm : ∀ e, .ended e ∉ marks) :
    (l.balance marks).held = false := by
  induction marks generalizing l with
  | nil => exact hl
  | cons m marks ih =>
    refine ih ?_ fun e h => hm e (List.mem_cons_of_mem m h)
    cases m with
    | called n call => cases call <;> exact hl
    | came | rolledBack => exact hl
    | ended e => exact absurd List.mem_cons_self (hm e)
    | cleared | resumed => rfl

theorem Allows.still (h : l.Allows m) (hl : l.held) : m.stirs = false := by
  cases m with
  | called n call =>
    cases call with
    | bind | execute | hook => exact absurd hl (by simp [h.2])
    | receive | stop | ready | registered | unregistered => rfl
  | came | ended | rolledBack | cleared | resumed => rfl

end Ledger

namespace Stack

/-- The operation lets a paused stack go on. -/
def Operation.releases : Operation → Bool
  | .resume => true
  | op => op.rollsBack

variable {σ : Type} [Node σ] {s : Stack} {v w : World σ} {op : Operation}

theorem MarkedActs.releases {x y : List NodeId × World σ} (h : MarkedActs s v op x marks y)
    (hm : m ∈ marks)
    (hr : m.releases) : op.releases := by
  have hcalls : ∀ (n : NodeId) (calls : List Call), m ∉ calls.map (.called n) := by
    intro n calls hm
    obtain ⟨c, -, rfl⟩ := List.mem_map.1 hm
    cases hr
  have hrolls : op.rollsBack → op.releases := by cases op <;> simp [Operation.releases]
  induction h with
  | refl => cases hm
  | tail _ hb ih =>
    refine (List.mem_append.1 hm).elim ih fun hm => ?_
    cases hb with
    | quiet => cases hm
    | turned | hooked => exact absurd hm (hcalls _ _)
    | head | called | answered | ended => rw [List.mem_singleton.1 hm] at hr; cases hr
    | rolledBack h | cleared h => exact hrolls h
    | resumed h => rw [h]; rfl

omit [Node σ] in
/-- A sound stack fits any ledger that knows what is owed and calls only a paused stack held. -/
theorem Sound.fits {l : Ledger} (h : s.Sound w) (ho : l.owed = s.debt) (hh : l.held → s.paused) :
    Fits l s :=
  ⟨ho, hh, h.result_iff⟩

/-- A paused stack stays paused, unless the operation releases it. -/
theorem Sound.paused_perform (h : s.Sound w) (hp : s.paused) (hop : op.releases = false) :
    (s.perform w op).after.paused := by
  have hfits : Fits ⟨s.debt, true⟩ s := h.fits rfl fun _ => hp
  obtain ⟨marks, hmarks⟩ := perform_booked hfits h.placed op
  refine hmarks.fits.held (Ledger.held_balance rfl fun m hm => ?_)
  have hr := hmarks.acts.releases hm
  simpa [hop] using hr

omit [Node σ] in
/-- Nothing is left to be said of a stack that is empty and free to go on. -/
theorem Fits.empty {l : Ledger} (h : Fits l s) (hn : s.nodes = []) (hp : s.paused = false) :
    l = {} := by
  obtain ⟨owed, held⟩ := l
  have ho : owed = none := h.owed.trans (by simp [debt, top?, hn])
  have hh : held = false := h.not_held hp
  rw [ho, hh]

theorem breakTo_unpaused (h : ∀ n ∈ s.nodes, w.graph.contains n) :
    (s.breakTo w none).after.paused = false := by
  obtain ⟨w', hu⟩ := unwind_all s.label h
  simp [Stack.breakTo, hu]

theorem terminate_unpaused (h : ∀ n ∈ s.nodes, w.graph.contains n) :
    (s.terminate w).after.paused = false := by
  obtain ⟨w', hu⟩ := unwind_all s.label h
  simp [Stack.terminate, Stack.breakTo, hu]

end Stack

end BehaviorTree
