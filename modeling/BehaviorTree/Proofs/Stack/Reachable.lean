/-
What a stack can come to, and that the invariant holds there.

A host may do to a stack whatever it likes, in any order and with any arguments; an
operation that is refused or that meets a broken rule is a step like any other. Between two
operations other stacks may work in the same world: nodes change, and the clock may go on,
but no node is taken out of the graph and the clock never goes back.
-/
import BehaviorTree.Library.Scripted
import BehaviorTree.Proofs.Stack.Sound

namespace BehaviorTree.Stack

variable {σ : Type} [Node σ]

inductive Operation where
  | start (head : NodeId)
  | restart (head : NodeId)
  | run
  | receiveReturn (ok : Bool)
  | receiveStatus (status : Status)
  | resumeNextUpdate
  | breakTo (stopAt : Option NodeId)
  | terminate
  | forwardHook (phase : Phase)
  | pause
  | resume
  | applyConfig (config : Config)
deriving DecidableEq

/-- The head that an operation may put on an empty stack. -/
def Operation.Heads : Operation → NodeId → Prop
  | .start head | .restart head => (· = head)
  | _ => fun _ => False

/-- Rolling back is the only way out of an invalid stack. -/
def Operation.rollsBack : Operation → Bool
  | .breakTo _ | .terminate => true
  | _ => false

/-- In a tree a stack is handed a status only by a hook of its own. -/
def Operation.isStatus : Operation → Bool
  | .receiveStatus _ => true
  | _ => false

/-- Do an operation, and keep what it leaves. -/
def perform (s : Stack) (w : World σ) : Operation → Pass σ Stack
  | .start head => s.start w head
  | .restart head => s.restart w head
  | .run => s.run w
  | .receiveReturn ok => s.receiveReturn w ok
  | .receiveStatus status => s.receiveStatus w status
  | .resumeNextUpdate => (s.resumeNextUpdate w).1
  | .breakTo stopAt => s.breakTo w stopAt
  | .terminate => s.terminate w
  | .forwardHook phase => s.forwardHook w phase
  | .pause => ⟨s.pause, w, none⟩
  | .resume => ⟨s.resume, w, none⟩
  | .applyConfig config => ⟨s.applyConfig config, w, none⟩

theorem perform_made (s : Stack) (w : World σ) (op : Operation) :
    Made op.Heads s w (s.perform w op) := by
  cases op with
  | start head => exact start_made s w head
  | restart head => exact restart_made s w head
  | run => exact run_made s w
  | receiveReturn ok => exact receiveReturn_made s w ok
  | receiveStatus status => exact receiveStatus_made s w status
  | resumeNextUpdate => exact resumeNextUpdate_made s w
  | breakTo stopAt => exact breakTo_made s w stopAt
  | terminate => exact terminate_made s w
  | forwardHook phase => exact forwardHook_made s w phase
  | pause | resume | applyConfig _ => exact .refl rfl rfl

theorem perform_frame (s : Stack) (w : World σ) (op : Operation) :
    w.Frame (s.perform w op).world :=
  (s.perform_made w op).acts.frame

/-- The stacks that a host can come to from a new one, with their worlds. -/
inductive Reachable : Stack → World σ → Prop
  | new (label : StackLabel) (w : World σ) : Reachable { label } w
  | perform {s w} (op : Operation) (h : Reachable s w) :
      Reachable (s.perform w op).after (s.perform w op).world
  | elsewhere {s w w'} (h : Reachable s w)
      (hg : ∀ n, w.graph.contains n → w'.graph.contains n)
      (ht : w.tick.number ≤ w'.tick.number) : Reachable s w'

omit [Node σ] in
theorem sound_new (label : StackLabel) (w : World σ) : Sound { label } w :=
  ⟨⟨by simp, by simp, by simp⟩, rfl, List.nodup_nil, by simp, fun _ => .inl rfl⟩

omit [Node σ] in
/-- The invariant survives what happens elsewhere. -/
theorem Sound.elsewhere {s : Stack} {w w' : World σ} (h : Sound s w)
    (hg : ∀ n, w.graph.contains n → w'.graph.contains n) (ht : w.tick.number ≤ w'.tick.number) :
    Sound s w' := by
  refine ⟨⟨h.result_iff, h.of_ended, fun hs => ?_⟩, h.current, h.nodup,
    fun n hn => hg n (h.known n hn), h.of_empty⟩
  obtain ⟨tick, hp, hle⟩ := h.parked hs
  exact ⟨tick, hp, Nat.le_trans hle ht⟩

theorem Sound.perform {s : Stack} {w : World σ} (h : Sound s w) (op : Operation) :
    (s.perform w op).after.Sound (s.perform w op).world := by
  cases op with
  | start head => exact h.start head
  | restart head => exact h.restart head
  | run => exact run_sound h.placed h.toCoherent
  | receiveReturn ok => exact h.receiveReturn ok
  | receiveStatus status => exact h.receiveStatus status
  | resumeNextUpdate => exact h.resumeNextUpdate
  | breakTo stopAt => exact h.breakTo stopAt
  | terminate => exact h.terminate
  | forwardHook phase => exact h.forwardHook phase
  | pause | resume | applyConfig _ =>
    exact ⟨⟨h.result_iff, h.of_ended, h.parked⟩, h.current, h.nodup, h.known, h.of_empty⟩

theorem Reachable.sound {s : Stack} {w : World σ} (h : Reachable s w) : Sound s w := by
  induction h with
  | new label w => exact sound_new label w
  | perform op _ ih => exact ih.perform op
  | elsewhere _ hg ht ih => exact ih.elsewhere hg ht

/-- Every stack that a host can come to is sound: a result is pending exactly while the
stack is receiving, no node is being turned to, the nodes are distinct and in the graph, an
empty stack is ready or has ended, one that has ended is empty, and one that waits for the
next update was parked no later than now. -/
theorem sound_of_reachable {s : Stack} {w : World σ} (h : Reachable s w) : Sound s w :=
  h.sound

/-- A leaf that waits is started and ended, and the host then tries to end it again. -/
theorem sound_of_reachable_idle :
    let w : World (LeafNode Question Plays) :=
      { graph := ({} : Graph _).add "idle" .idle |>.1, blackboard := {} }
    let p := perform { label := .main } w (.start ⟨0⟩)
    let later := { p.world with tick := { number := 1 } }
    let q := p.after.perform later (.receiveReturn true)
    let r := q.after.perform q.world (.receiveReturn true)
    p.after.Sound p.world ∧ q.after.Sound q.world ∧ r.after.Sound r.world ∧
      p.after.state = .waiting ∧ q.after.state = .ended ∧ r.fault.isSome := by
  intro w p later q r
  have hp : Reachable p.after p.world := .perform _ (.new _ w)
  have hl : Reachable p.after later := .elsewhere hp (fun _ h => h) (Nat.zero_le _)
  have hq : Reachable q.after q.world := .perform _ hl
  exact ⟨sound_of_reachable hp, sound_of_reachable hq, sound_of_reachable (.perform _ hq),
    by decide +kernel, by decide +kernel, by decide +kernel⟩

end BehaviorTree.Stack
