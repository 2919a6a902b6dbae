/-
Deferred ends: "end this node after so many ticks".

A task names the execution it was asked for by a `Progress` token, so that it does
nothing once that execution is over. A cancelled task stays in the schedule, marked,
until due tasks are next taken; `pending` is the schedule without the marked ones.
-/
import BehaviorTree.Clock
import BehaviorTree.Node.Status

namespace BehaviorTree

/-- A token for one execution of a node. -/
structure Progress where
  node : NodeId
  activation : Nat
deriving DecidableEq, Repr, Inhabited

/-- The end of a node's execution, with its outcome, from a moment on. -/
structure DeferredTask where
  progress : Progress
  due : Moment
  success : Bool
  cancelled : Bool := false
deriving DecidableEq, Repr, Inhabited

/-- Tasks in the order in which they were scheduled. -/
structure Schedule where
  tasks : List DeferredTask := []
deriving DecidableEq, Repr, Inhabited

namespace Schedule

/-- How many tasks there are, the cancelled ones included. -/
def size (s : Schedule) : Nat := s.tasks.length

def isEmpty (s : Schedule) : Bool := s.tasks.isEmpty

def pending (s : Schedule) : List DeferredTask := s.tasks.filter (!·.cancelled)

def add (s : Schedule) (task : DeferredTask) : Schedule := ⟨s.tasks ++ [task]⟩

/-- Mark every task of `node`. -/
def cancel (s : Schedule) (node : NodeId) : Schedule :=
  ⟨s.tasks.map fun t => if t.progress.node = node then { t with cancelled := true } else t⟩

/-- How many tasks cancelling `node` marks. -/
def cancelCount (s : Schedule) (node : NodeId) : Nat :=
  s.pending.countP (·.progress.node = node)

/-- The tasks due by `now`, in order, and the schedule without them and without the
cancelled ones. -/
def takeDue (s : Schedule) (now : Moment) : List DeferredTask × Schedule :=
  let (due, later) := s.pending.partition (·.due.notAfter now)
  (due, ⟨later⟩)

theorem pending_add (s : Schedule) (task : DeferredTask) :
    (s.add task).pending = s.pending ++ if task.cancelled then [] else [task] := by
  cases h : task.cancelled <;> simp [pending, add, List.filter_append, h]

theorem pending_cancel (s : Schedule) (node : NodeId) :
    (s.cancel node).pending = s.pending.filter (·.progress.node ≠ node) := by
  simp only [pending, cancel, List.filter_filter]
  induction s.tasks with
  | nil => rfl
  | cons t ts ih =>
    by_cases hn : t.progress.node = node <;> by_cases hc : t.cancelled <;>
      simp_all

theorem takeDue_fst (s : Schedule) (now : Moment) :
    (s.takeDue now).1 = s.pending.filter (·.due.notAfter now) := by
  simp [takeDue, List.partition_eq_filter_filter]

theorem pending_takeDue (s : Schedule) (now : Moment) :
    (s.takeDue now).2.pending = s.pending.filter (!·.due.notAfter now) := by
  simp only [takeDue, List.partition_eq_filter_filter, pending, List.filter_filter]
  congr 1
  funext t
  cases t.cancelled <;> simp

end Schedule

end BehaviorTree
