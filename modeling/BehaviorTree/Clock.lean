/-
Time as the host tells it: a tick is made of three phases, always in the same
order, and moments are compared by tick first and by phase within a tick.
-/

namespace BehaviorTree

/-- The host's three calls of a tick: before the physics step, in it, and after it. -/
inductive Phase where
  | update
  | fixedUpdate
  | lateUpdate
deriving DecidableEq, Repr, Inhabited

namespace Phase

def all : List Phase := [update, fixedUpdate, lateUpdate]

def name : Phase → String
  | update => "Update"
  | fixedUpdate => "FixedUpdate"
  | lateUpdate => "LateUpdate"

/-- The place of the phase in its tick. -/
def rank : Phase → Nat
  | update => 0
  | fixedUpdate => 1
  | lateUpdate => 2

def compare (p q : Phase) : Ordering := Ord.compare p.rank q.rank

end Phase

/-- A point in time, up to the phase. -/
structure Moment where
  tick : Nat
  phase : Phase
deriving DecidableEq, Repr, Inhabited

/-- Whether `a` is not after `b`. -/
def Moment.notAfter (a b : Moment) : Bool :=
  a.tick < b.tick || (a.tick == b.tick && a.phase.rank ≤ b.phase.rank)

theorem Moment.notAfter_iff {a b : Moment} :
    a.notAfter b ↔ a.tick < b.tick ∨ a.tick = b.tick ∧ a.phase.rank ≤ b.phase.rank := by
  simp [Moment.notAfter]

/-- What a node is told about time: the tick's number, the seconds since the last call,
and the phase. -/
structure Tick where
  number : Nat := 0
  dt : Float32 := 0
  phase : Phase := .update
deriving Repr, Inhabited

def Tick.moment (t : Tick) : Moment := ⟨t.number, t.phase⟩

def Tick.inPhase (t : Tick) (phase : Phase) : Tick := { t with phase }

end BehaviorTree
