/-
What a tree of composites means, without a stack.

A plain evaluation goes down the tree by recursion. Composites only decide which child
comes next, from their own fields and from what the children before it came to; leaves
are executed in the world and leave it again. A leaf that suspends is ended by the next
of the outcomes that the host has in store. There is no value where the fuel runs out,
where a leaf answers with anything else or calls a child, and where a variable does not
bind.
-/
import BehaviorTree.Library.Flow
import BehaviorTree.World

namespace BehaviorTree

/-- The parameter's value, if it is bound on the spot. -/
def NumberField.value? (f : NumberField) (b : Blackboard) : Option Float32 :=
  match f with
  | const x => some x
  | unbound id => (b.get? id).bind Value.number?
  | bound ref => (b.get? ref.id).bind Value.number?

/-- Where a plain evaluation is: the world, and the outcomes that the host has in store. -/
structure Course (σ : Type) where
  world : World σ
  outcomes : List Bool

namespace Course

section Leaf

variable {σ : Type} [Node σ]

/-- What a leaf comes to: at once, or by the next outcome in store. -/
def settle? : Status → List Bool → Option (Bool × List Bool)
  | .success, outcomes => some (true, outcomes)
  | .failed, outcomes => some (false, outcomes)
  | .wait, ok :: outcomes => some (ok, outcomes)
  | _, _ => none

/-- Execute a leaf, and let it leave. -/
def leaf (id : NodeId) (c : Course σ) : Option (Bool × Course σ) :=
  match c.world.execute id with
  | .ok (w, .answered status []) =>
    (settle? status c.outcomes).bind fun (ok, outcomes) =>
      match w.stop id with
      | .ok w => some (ok, ⟨w, outcomes⟩)
      | .error _ => none
  | _ => none

end Leaf

/-! ## Composites, given what their children come to -/

section Composites

variable {σ : Type} (child : NodeId → Course σ → Option (Bool × Course σ))

/-- Every one in order; the last one's outcome counts. -/
def inOrder : Bool → List NodeId → Course σ → Option (Bool × Course σ)
  | last, [], c => some (last, c)
  | _, id :: ids, c => (child id c).bind fun (ok, c) => inOrder ok ids c

/-- One after the other until one succeeds. -/
def firstOf : List NodeId → Course σ → Option (Bool × Course σ)
  | [], c => some (false, c)
  | id :: ids, c => (child id c).bind fun (ok, c) =>
    if ok then some (true, c) else firstOf ids c

/-- The condition and its branch; where that is absent, the condition's own outcome counts. -/
def branch (k : Condition) (c : Course σ) : Option (Bool × Course σ) :=
  (child k.condition c).bind fun (ok, c) =>
    match if ok then k.onTrue else k.onFalse with
    | some branch => child branch c
    | none => some (ok, c)

/-- Every one in order, whatever they come to. -/
def pass : List NodeId → Course σ → Option (Course σ)
  | [], c => some c
  | id :: ids, c => (child id c).bind fun (_, c) => pass ids c

/-- A number of passes. -/
def times (body : List NodeId) : Nat → Course σ → Option (Course σ)
  | 0, c => some c
  | n + 1, c => (pass child body c).bind fun c => times body n c

/-- A pass for each time that the condition succeeds, which is asked before it. -/
def whileHolds (condition : NodeId) (body : List NodeId) : Nat → Course σ → Option (Course σ)
  | 0, _ => none
  | fuel + 1, c => (child condition c).bind fun (ok, c) =>
    if ok then (pass child body c).bind fun c => whileHolds condition body fuel c else some c

def loop (fuel : Nat) (l : Loop) (c : Course σ) : Option (Course σ) :=
  match l.kind with
  | .times count => (count.value? c.world.blackboard).bind fun x =>
    if l.body.isEmpty then some c else times child l.body (Single.of x).count c
  | .whileDo condition =>
    if l.body.isEmpty then some c else whileHolds child condition l.body fuel c
  | .doWhile condition =>
    if l.body.isEmpty then some c
    else (pass child l.body c).bind fun c => whileHolds child condition l.body fuel c

def composite (fuel : Nat) : FlowNode → Course σ → Option (Bool × Course σ)
  | .sequence s, c => inOrder child false s.children c
  | .selector s, c => firstOf child s.children c
  | .inverter id, c => (child id c).map fun (ok, c) => (!ok, c)
  | .condition k, c => branch child k c
  | .loop l, c => (loop child fuel l c).map fun c => (true, c)

end Composites

end Course

/-! ## Trees -/

def Graph.node? {σ : Type} (g : Graph σ) (id : NodeId) : Option σ := (g.slot? id).map (·.node)

variable {τ : Type} [Node τ]

/-- The plain evaluation of the tree under a node: its outcome, and where it leads. -/
def Graph.evaluate (g : Graph (FlowNode ⊕ τ)) :
    Nat → NodeId → Course (FlowNode ⊕ τ) → Option (Bool × Course (FlowNode ⊕ τ))
  | 0, _, _ => none
  | fuel + 1, id, c =>
    match g.node? id with
    | none => none
    | some (.inr _) => c.leaf id
    | some (.inl n) => Course.composite (g.evaluate fuel) fuel n c

/-! ## More fuel never changes a value -/

namespace Course

section Fuel

variable {σ : Type} {child child' : NodeId → Course σ → Option (Bool × Course σ)}
  (hext : ∀ id c r, child id c = some r → child' id c = some r)

include hext

theorem inOrder_mono {ids : List NodeId} {last : Bool} {c : Course σ} {r : Bool × Course σ}
    (h : inOrder child last ids c = some r) : inOrder child' last ids c = some r := by
  induction ids generalizing last c with
  | nil => exact h
  | cons id ids ih =>
    obtain ⟨⟨ok, c₁⟩, hx, h⟩ := Option.bind_eq_some_iff.1 h
    exact Option.bind_eq_some_iff.2 ⟨_, hext _ _ _ hx, ih h⟩

theorem firstOf_mono {ids : List NodeId} {c : Course σ} {r : Bool × Course σ}
    (h : firstOf child ids c = some r) : firstOf child' ids c = some r := by
  induction ids generalizing c with
  | nil => exact h
  | cons id ids ih =>
    obtain ⟨⟨ok, c₁⟩, hx, h⟩ := Option.bind_eq_some_iff.1 h
    refine Option.bind_eq_some_iff.2 ⟨_, hext _ _ _ hx, ?_⟩
    cases ok with
    | true => exact h
    | false => exact ih h

theorem branch_mono {k : Condition} {c : Course σ} {r : Bool × Course σ}
    (h : branch child k c = some r) : branch child' k c = some r := by
  obtain ⟨⟨ok, c₁⟩, hx, h⟩ := Option.bind_eq_some_iff.1 h
  refine Option.bind_eq_some_iff.2 ⟨_, hext _ _ _ hx, ?_⟩
  simp only at h ⊢
  split at h
  · exact hext _ _ _ h
  · exact h

theorem pass_mono {ids : List NodeId} {c c' : Course σ} (h : pass child ids c = some c') :
    pass child' ids c = some c' := by
  induction ids generalizing c with
  | nil => exact h
  | cons id ids ih =>
    obtain ⟨⟨ok, c₁⟩, hx, h⟩ := Option.bind_eq_some_iff.1 h
    exact Option.bind_eq_some_iff.2 ⟨_, hext _ _ _ hx, ih h⟩

theorem times_mono {body : List NodeId} {n : Nat} {c c' : Course σ}
    (h : times child body n c = some c') : times child' body n c = some c' := by
  induction n generalizing c with
  | zero => exact h
  | succ n ih =>
    obtain ⟨c₁, hp, h⟩ := Option.bind_eq_some_iff.1 h
    exact Option.bind_eq_some_iff.2 ⟨c₁, pass_mono hext hp, ih h⟩

theorem whileHolds_mono {condition : NodeId} {body : List NodeId} {fuel fuel' : Nat}
    (hf : fuel ≤ fuel') {c c' : Course σ} (h : whileHolds child condition body fuel c = some c') :
    whileHolds child' condition body fuel' c = some c' := by
  induction fuel generalizing fuel' c with
  | zero => cases h
  | succ fuel ih =>
    obtain ⟨fuel', rfl⟩ : ∃ m, fuel' = m + 1 := ⟨fuel' - 1, by omega⟩
    obtain ⟨⟨ok, c₁⟩, hx, h⟩ := Option.bind_eq_some_iff.1 h
    refine Option.bind_eq_some_iff.2 ⟨_, hext _ _ _ hx, ?_⟩
    cases ok with
    | true =>
      obtain ⟨c₂, hp, h⟩ := Option.bind_eq_some_iff.1 h
      exact Option.bind_eq_some_iff.2 ⟨c₂, pass_mono hext hp, ih (by omega) h⟩
    | false => exact h

theorem loop_mono {l : Loop} {fuel fuel' : Nat} (hf : fuel ≤ fuel') {c c' : Course σ}
    (h : loop child fuel l c = some c') : loop child' fuel' l c = some c' := by
  unfold loop at h ⊢
  split at h
  · obtain ⟨x, hx, h⟩ := Option.bind_eq_some_iff.1 h
    refine Option.bind_eq_some_iff.2 ⟨x, hx, ?_⟩
    split at h
    next hb => rwa [if_pos hb]
    next hb =>
      rw [if_neg hb]
      exact times_mono hext h
  · split at h
    next hb => rwa [if_pos hb]
    next hb =>
      rw [if_neg hb]
      exact whileHolds_mono hext hf h
  · split at h
    next hb => rwa [if_pos hb]
    next hb =>
      rw [if_neg hb]
      obtain ⟨c₁, hp, h⟩ := Option.bind_eq_some_iff.1 h
      exact Option.bind_eq_some_iff.2 ⟨c₁, pass_mono hext hp, whileHolds_mono hext hf h⟩

theorem composite_mono {n : FlowNode} {fuel fuel' : Nat} (hf : fuel ≤ fuel') {c : Course σ}
    {r : Bool × Course σ} (h : composite child fuel n c = some r) :
    composite child' fuel' n c = some r := by
  cases n with
  | sequence s => exact inOrder_mono hext h
  | selector s => exact firstOf_mono hext h
  | condition k => exact branch_mono hext h
  | inverter id =>
    obtain ⟨a, hx, ha⟩ := Option.map_eq_some_iff.1 h
    exact Option.map_eq_some_iff.2 ⟨a, hext _ _ _ hx, ha⟩
  | loop l =>
    obtain ⟨c₁, hx, hc⟩ := Option.map_eq_some_iff.1 h
    exact Option.map_eq_some_iff.2 ⟨c₁, loop_mono hext hf hx, hc⟩

end Fuel

end Course

theorem Graph.evaluate_mono {g : Graph (FlowNode ⊕ τ)} {n m : Nat} (hnm : n ≤ m) {id : NodeId}
    {c : Course (FlowNode ⊕ τ)} {r : Bool × Course (FlowNode ⊕ τ)}
    (h : g.evaluate n id c = some r) : g.evaluate m id c = some r := by
  induction n generalizing m id c r with
  | zero => cases h
  | succ n ih =>
    obtain ⟨m, rfl⟩ : ∃ k, m = k + 1 := ⟨m - 1, by omega⟩
    unfold Graph.evaluate at h ⊢
    split at h
    · cases h
    · exact h
    · exact Course.composite_mono (fun _ _ _ hx => ih (by omega) hx) (by omega) h

/-- A tree has one meaning. -/
theorem Graph.evaluate_unique {g : Graph (FlowNode ⊕ τ)} {n m : Nat} {id : NodeId}
    {c : Course (FlowNode ⊕ τ)} {r r' : Bool × Course (FlowNode ⊕ τ)}
    (h : g.evaluate n id c = some r) (h' : g.evaluate m id c = some r') : r = r' := by
  rcases Nat.le_total n m with hnm | hmn
  · exact Option.some.inj ((g.evaluate_mono hnm h).symm.trans h')
  · exact Option.some.inj (h.symm.trans (g.evaluate_mono hmn h'))

end BehaviorTree
