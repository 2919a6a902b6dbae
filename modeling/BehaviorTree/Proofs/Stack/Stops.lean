/-
A node that comes onto a stack is stopped once, and then it is off the stack.

Every act of a stack is accounted for: what comes onto the stack is entered, and what goes
is stopped and then leaves, so the entries of a node are balanced by its stops together
with its places on the stack. In the happenings no call, entry or exit stands between a
stop and the exit that follows it.
-/
import BehaviorTree.Proofs.Stack.Act

namespace BehaviorTree

namespace Happening

/-- The node comes onto a stack. -/
def isEntry (n : NodeId) : Happening → Bool
  | entered _ id => id = n
  | _ => false

/-- The node is stopped. -/
def isStop (n : NodeId) : Happening → Bool
  | called id .stop => id = n
  | _ => false

/-- A node leaves a stack, or is stopped. -/
def ends : Happening → Bool
  | called _ .stop | left .. => true
  | _ => false

theorem isStop_of_not_ends {x : Happening} (h : x.ends = false) (n : NodeId) :
    x.isStop n = false := by
  cases x with
  | called id call => cases call <;> first | rfl | cases h
  | _ => rfl

end Happening

/-- Stops and exits come in pairs: a stop of a node, and right after it the exit of the same
node. -/
inductive Paired : List Happening → Prop
  | nil : Paired []
  | other {x : Happening} {xs : List Happening} (hx : x.ends = false) (h : Paired xs) :
      Paired (x :: xs)
  | pair {n : NodeId} {label : StackLabel} {xs : List Happening} (h : Paired xs) :
      Paired (.called n .stop :: .left label n :: xs)

namespace Paired

variable {xs ys : List Happening}

theorem append (h : Paired xs) (h' : Paired ys) : Paired (xs ++ ys) := by
  induction h with
  | nil => exact h'
  | other hx _ ih => exact .other hx ih
  | pair _ ih => exact .pair ih

theorem of_not_ends (h : ∀ x ∈ xs, x.ends = false) : Paired xs := by
  induction xs with
  | nil => exact .nil
  | cons x xs ih =>
    exact .other (h x List.mem_cons_self) (ih fun y hy => h y (List.mem_cons_of_mem x hy))

/-- Nothing begins with an exit. -/
theorem head_ne_left (h : Paired xs) (label : StackLabel) (n : NodeId) :
    xs[0]? ≠ some (.left label n) := by
  cases h with
  | nil => simp
  | other hx _ =>
    rintro ⟨⟩
    cases hx
  | pair => simp

/-- A stop is followed by an exit of its node at once, and an exit follows a stop at once. -/
theorem stop_iff_left (h : Paired xs) (i : Nat) (n : NodeId) :
    xs[i]? = some (.called n .stop) ↔ ∃ label, xs[i + 1]? = some (.left label n) := by
  induction h generalizing i with
  | nil => simp
  | @other x xs hx h ih =>
    cases i with
    | zero =>
      constructor
      · rintro ⟨⟩
        cases hx
      · rintro ⟨label, hl⟩
        exact absurd hl (h.head_ne_left label n)
    | succ i => exact ih i
  | @pair m label xs h ih =>
    match i with
    | 0 => simp [eq_comm]
    | 1 =>
      constructor
      · rintro ⟨⟩
      · rintro ⟨label, hl⟩
        exact absurd hl (h.head_ne_left label n)
    | i + 2 => exact ih i

end Paired

/-- The happenings lead from so many places of each node on some stacks to so many. -/
structure Balanced (new : List Happening) (before after : NodeId → Nat) : Prop where
  paired : Paired new
  count : ∀ n, new.countP (·.isEntry n) + before n = new.countP (·.isStop n) + after n

namespace Balanced

variable {new new' : List Happening} {k k' k'' : NodeId → Nat}

theorem trans (h : Balanced new k k') (h' : Balanced new' k' k'') :
    Balanced (new ++ new') k k'' := by
  refine ⟨h.paired.append h'.paired, fun n => ?_⟩
  have h₁ := h.count n
  have h₂ := h'.count n
  rw [List.countP_append, List.countP_append]
  omega

/-- Happenings that no stack has a part in. -/
theorem of_quiet (he : ∀ x ∈ new, x.ends = false) (hn : ∀ x ∈ new, ∀ n, x.isEntry n = false)
    (k : NodeId → Nat) : Balanced new k k := by
  refine ⟨.of_not_ends he, fun n => ?_⟩
  have h₁ : new.countP (·.isEntry n) = 0 :=
    List.countP_eq_zero.2 fun x hx => by simp [hn x hx n]
  have h₂ : new.countP (·.isStop n) = 0 :=
    List.countP_eq_zero.2 fun x hx => by simp [Happening.isStop_of_not_ends (he x hx) n]
  rw [h₁, h₂]

theorem nil (k : NodeId → Nat) : Balanced [] k k := of_quiet (by simp) (by simp) k

/-- Calls of nodes other than stops. -/
theorem of_calls {id : NodeId} (calls : List Call) (h : ∀ c ∈ calls, c ≠ .stop)
    (k : NodeId → Nat) : Balanced (calls.map (.called id)) k k := by
  refine of_quiet (fun x hx => ?_) (fun x hx n => ?_) k
  · obtain ⟨c, hc, rfl⟩ := List.mem_map.1 hx
    have hne := h c hc
    cases c <;> first | rfl | exact absurd rfl hne
  · obtain ⟨c, -, rfl⟩ := List.mem_map.1 hx
    rfl

/-- The same changes next to places that do not change. -/
theorem beside (h : Balanced new k k') {l l' : NodeId → Nat} (hl : ∀ n, k n + l' n = k' n + l n) :
    Balanced new l l' := by
  refine ⟨h.paired, fun n => ?_⟩
  have h₁ := h.count n
  have h₂ := hl n
  omega

end Balanced

namespace Stack

variable {σ : Type} [Node σ] {label : StackLabel} {heads : NodeId → Prop}

/-- Turning to a node calls it, and does not stop it. -/
theorem happenings_turned {w w' : World σ} {node : NodeId} {d : Dispatch}
    (h : w.Turned node w' d) : ∃ calls : List Call,
      w'.happenings = w.happenings ++ calls.map (.called node) ∧ ∀ c ∈ calls, c ≠ .stop := by
  rcases h with h | ⟨ok, h⟩
  · obtain ⟨calls, hh, hc⟩ := World.happenings_execute h
    refine ⟨calls, hh, ?_⟩
    rcases hc with rfl | rfl | rfl <;> simp
  · exact ⟨[.receive ok], World.happenings_receive h, by simp⟩

theorem Act.balanced {x y : List NodeId × World σ} (h : Act label heads x y) :
    ∃ new, y.2.happenings = x.2.happenings ++ new ∧
      Balanced new (fun n => x.1.count n) (fun n => y.1.count n) := by
  cases h with
  | note hr => exact ⟨[], by simp [World.happenings_record_of_none _ hr], .nil _⟩
  | turn h =>
    obtain ⟨calls, hh, hc⟩ := happenings_turned h
    exact ⟨_, hh, .of_calls _ hc _⟩
  | @hook top rest w phase =>
    rcases World.happenings_hook w top phase with hh | hh
    · exact ⟨[], by simp [hh], .nil _⟩
    · exact ⟨_, hh, .of_calls [.hook phase] (by simp) _⟩
  | @ask ns w service =>
    rcases World.happenings_ready w service with hh | ⟨answer, hh⟩
    · exact ⟨[], by simp [hh], .nil _⟩
    · exact ⟨_, hh, .of_calls [.ready answer] (by simp) _⟩
  | @head w id _ _ =>
    refine ⟨[.entered label id], World.happenings_entered w label id 1,
      .other rfl .nil, fun n => ?_⟩
    by_cases hn : id = n <;> simp [Happening.isEntry, Happening.isStop, hn]
  | @call top rest w w' child h hc hn =>
    obtain ⟨calls, hh, hcalls⟩ := happenings_turned h
    refine ⟨calls.map (.called top) ++ [.entered label child], by simp [hh], ?_⟩
    refine (Balanced.of_calls _ hcalls _).trans ⟨.other rfl .nil, fun n => ?_⟩
    by_cases hn : child = n <;> simp [Happening.isEntry, Happening.isStop, hn]
    omega
  | @leave top rest w w' h =>
    refine ⟨[.called top .stop, .left label top], by simp [World.happenings_stop h],
      .pair .nil, fun n => ?_⟩
    by_cases hn : top = n <;> simp [Happening.isEntry, Happening.isStop, hn]
    omega
  | @rollBack top rest w w' h =>
    refine ⟨[.called top .stop, .left label top], by simp [World.happenings_interrupt h],
      .pair .nil, fun n => ?_⟩
    by_cases hn : top = n <;> simp [Happening.isEntry, Happening.isStop, hn]
    omega
  | finish => exact ⟨[], (List.append_nil _).symm, .nil _⟩

theorem Acts.balanced {x y : List NodeId × World σ} (h : Acts label heads x y) :
    ∃ new, y.2.happenings = x.2.happenings ++ new ∧
      Balanced new (fun n => x.1.count n) (fun n => y.1.count n) := by
  induction h with
  | refl => exact ⟨[], by simp, .nil _⟩
  | tail _ ha ih =>
    obtain ⟨new, hh, hb⟩ := ih
    obtain ⟨new', hh', hb'⟩ := ha.balanced
    exact ⟨new ++ new', by rw [hh', hh, List.append_assoc], hb.trans hb'⟩

end Stack

end BehaviorTree
