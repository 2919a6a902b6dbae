/-
The settings of a stack.

How far a stack goes in one pass, and whether it pauses after a node, is up to the host: no
operation changes it but the one that does so outright.
-/
import BehaviorTree.Proofs.Stack.Transparent

namespace BehaviorTree.Stack

variable {σ : Type}

/-- Whether the stack steps, and its budget. -/
def settings (s : Stack) : Bool × Nat := (s.pauseAfterSingleExecution, s.stepBudget)

theorem Proceeds.settings {s : Stack} {w : World σ} {p : Pass σ Stack} (h : Proceeds s w p) :
    p.after.settings = s.settings :=
  Prod.ext h.stepping h.budget

variable [Node σ]

theorem drive_settings (budget : Nat) (s : Stack) (w : World σ) :
    (drive budget s w).after.settings = s.settings := by
  induction budget generalizing s w with
  | zero =>
    rw [drive]
    split
    · rfl
    split
    · rfl
    split <;> rfl
  | succ budget ih =>
    rw [drive]
    split
    · rfl
    split
    · rfl
    split
    · rfl
    simp only
    split
    · exact (s.step_proceeds w _).settings
    · exact (ih _ _).trans (s.step_proceeds w _).settings

theorem run_settings (s : Stack) (w : World σ) : (s.run w).after.settings = s.settings := by
  have hd := drive_settings s.stepBudget { s with last := none } w
  unfold run
  simp only
  repeat' split
  all_goals exact hd

theorem start_settings (s : Stack) (w : World σ) (head : NodeId) :
    (s.start w head).after.settings = s.settings := by
  unfold start
  split
  · rfl
  split
  · rfl
  · exact run_settings _ _

theorem receiveReturn_settings (s : Stack) (w : World σ) (ok : Bool) :
    (s.receiveReturn w ok).after.settings = s.settings := by
  unfold receiveReturn
  split
  · rfl
  next node _ =>
  have hc := (s.complete_proceeds w node ok).settings
  split
  · next hp => rw [hp] at hc; exact hc
  · next hp => rw [hp] at hc; exact (run_settings _ _).trans hc

theorem receiveStatus_settings (s : Stack) (w : World σ) (status : Status) :
    (s.receiveStatus w status).after.settings = s.settings := by
  unfold receiveStatus
  split
  · exact receiveReturn_settings s w _
  split
  · rfl
  split <;> rfl

theorem breakTo_settings (s : Stack) (w : World σ) (stopAt : Option NodeId) :
    (s.breakTo w stopAt).after.settings = s.settings := by
  unfold breakTo
  repeat' split
  all_goals rfl

/-- Of all operations, only the one that is for that changes the settings. -/
theorem perform_settings (s : Stack) (w : World σ) {op : Operation}
    (hop : ∀ config, op ≠ .applyConfig config) :
    (s.perform w op).after.settings = s.settings := by
  cases op with
  | start head => exact start_settings s w head
  | restart head =>
    simp only [perform, restart]
    split <;> exact start_settings _ w head
  | run => exact run_settings s w
  | receiveReturn ok => exact receiveReturn_settings s w ok
  | receiveStatus status => exact receiveStatus_settings s w status
  | resumeNextUpdate =>
    simp only [perform, resumeNextUpdate]
    split
    · exact run_settings _ w
    · rfl
  | breakTo stopAt => exact breakTo_settings s w stopAt
  | terminate =>
    have hb := breakTo_settings s w none
    simp only [perform, terminate]
    split
    · next hp => rw [hp] at hb; exact hb
    · next hp => rw [hp] at hb; exact hb
  | forwardHook phase =>
    simp only [perform, forwardHook]
    split
    · rfl
    split
    · rfl
    split
    · rfl
    · exact receiveStatus_settings s _ _
    · rfl
  | pause | resume => rfl
  | applyConfig config => exact absurd rfl (hop config)

end BehaviorTree.Stack
