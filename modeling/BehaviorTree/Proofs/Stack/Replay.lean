/-
The nodes of a stack can be told from what happened.

Every node that comes onto a stack is entered and every node that goes leaves, under the
label of the stack, so the nodes on it are what is left when its happenings are played once
more. A node is executed, handed a result or forwarded a hook by a stack only while it is on
top of that stack.
-/
import BehaviorTree.Proofs.Stack.Act

namespace BehaviorTree

/-- Whether the call is one that a stack makes in its passes and its phases. -/
def Call.isDispatch : Call → Bool
  | execute | receive _ | hook _ => true
  | _ => false

namespace Happening

/-- What becomes of the nodes of the stack `label`, the top first. -/
def replay (label : StackLabel) (ns : List NodeId) : Happening → List NodeId
  | entered l n => if l = label then n :: ns else ns
  | left l _ => if l = label then ns.tail else ns
  | _ => ns

/-- Only the stack `label` has a part in it, and it is no report. -/
def IsOf (label : StackLabel) : Happening → Prop
  | called .. => True
  | entered l _ | left l _ => l = label
  | tornDown _ | violated _ => False

theorem replay_of_ne {label other : StackLabel} {x : Happening} (h : x.IsOf label)
    (ho : other ≠ label) (ns : List NodeId) : x.replay other ns = ns := by
  cases x with
  | entered l n | left l n =>
    cases h
    exact if_neg (Ne.symm ho)
  | _ => rfl

end Happening

/-- The nodes on the stack `label` after all that happened, the top first. -/
def stackOf (label : StackLabel) (hs : List Happening) : List NodeId :=
  hs.foldl (Happening.replay label) []

theorem stackOf_append (label : StackLabel) (hs new : List Happening) :
    stackOf label (hs ++ new) = new.foldl (Happening.replay label) (stackOf label hs) :=
  List.foldl_append ..

/-- What happens to one stack leaves the others as they were. -/
theorem stackOf_of_ne {label other : StackLabel} (hs : List Happening) {new : List Happening}
    (h : ∀ x ∈ new, x.IsOf label) (ho : other ≠ label) :
    stackOf other (hs ++ new) = stackOf other hs := by
  rw [stackOf_append]
  generalize stackOf other hs = ns
  induction new with
  | nil => rfl
  | cons x new ih =>
    rw [List.foldl_cons, Happening.replay_of_ne (h x List.mem_cons_self) ho]
    exact ih fun y hy => h y (List.mem_cons_of_mem x hy)

theorem stackOf_calls (label : StackLabel) (hs : List Happening) (node : NodeId)
    (calls : List Call) : stackOf label (hs ++ calls.map (.called node)) = stackOf label hs := by
  rw [stackOf_append]
  generalize stackOf label hs = ns
  induction calls with
  | nil => rfl
  | cons c calls ih => exact ih

/-- Whatever dispatch there is among the new happenings goes to the top of a stack that
`labels` allows, where `labels` may look at what happened before it. -/
def Led (labels : List Happening → StackLabel → Prop) (old new : List Happening) : Prop :=
  ∀ before n c after, new = before ++ .called n c :: after → c.isDispatch →
    ∃ label, labels before label ∧ (stackOf label (old ++ before)).head? = some n

namespace Led

variable {labels labels' : List Happening → StackLabel → Prop} {old new new' : List Happening}

theorem nil (labels : List Happening → StackLabel → Prop) (old : List Happening) :
    Led labels old [] := by
  intro before n c after h
  simp at h

theorem mono (h : Led labels old new) (hl : ∀ before label, labels before label →
    labels' before label) : Led labels' old new := by
  intro before n c after he hc
  obtain ⟨label, hlabel, htop⟩ := h before n c after he hc
  exact ⟨label, hl before label hlabel, htop⟩

theorem append (h : Led labels old new)
    (h' : Led (fun before => labels (new ++ before)) (old ++ new) new') :
    Led labels old (new ++ new') := by
  intro before n c after he hc
  rcases List.append_eq_append_iff.1 he with ⟨between, rfl, he'⟩ | ⟨between, he', hb⟩
  · obtain ⟨label, hlabel, htop⟩ := h' between n c after he' hc
    exact ⟨label, hlabel, by rwa [List.append_assoc] at htop⟩
  · cases between with
    | nil =>
      rw [List.append_nil] at he'
      subst he'
      obtain ⟨label, hlabel, htop⟩ := h' [] n c after (by simpa using hb.symm) hc
      exact ⟨label, by simpa using hlabel, by simpa using htop⟩
    | cons x between =>
      rw [List.cons_append] at hb
      injection hb with hx hb
      subst hx
      exact h before n c between he' hc

/-- There is no dispatch among the new happenings. -/
theorem of_quiet (h : ∀ n c, .called n c ∈ new → c.isDispatch = false) :
    Led labels old new := by
  intro before n c after he hc
  have hf := h n c (by simp [he])
  rw [hf] at hc
  cases hc

/-- All calls are calls of the node on top. -/
theorem of_calls {label : StackLabel} {node : NodeId} (calls : List Call)
    (hl : ∀ before, labels before label) (h : (stackOf label old).head? = some node) :
    Led labels old (calls.map (.called node)) := by
  intro before n c after he _
  obtain ⟨cs, rest, rfl, hb, hrest⟩ := List.map_eq_append_iff.1 he
  obtain ⟨c', -, -, hc', -⟩ := List.map_eq_cons_iff.1 hrest
  obtain ⟨rfl, -⟩ : node = n ∧ c' = c := by simpa using hc'
  refine ⟨label, hl before, ?_⟩
  rw [← hb, stackOf_calls]
  exact h

end Led

namespace Stack

variable {σ : Type} [Node σ] {label : StackLabel} {heads : NodeId → Prop}
  {x y : List NodeId × World σ}

/-- What the acts of a stack leave in the happenings, if these told the nodes of the stack
before. -/
structure Replayed (label : StackLabel) (x y : List NodeId × World σ) (new : List Happening) :
    Prop where
  happenings : y.2.happenings = x.2.happenings ++ new
  isOf : ∀ h ∈ new, h.IsOf label
  nodes : stackOf label x.2.happenings = x.1 → stackOf label y.2.happenings = y.1
  led : stackOf label x.2.happenings = x.1 →
    Led (fun _ l => l = label) x.2.happenings new

omit [Node σ] in
theorem Replayed.trans {z : List NodeId × World σ} {new new' : List Happening}
    (h : Replayed label x y new) (h' : Replayed label y z new') :
    Replayed label x z (new ++ new') where
  happenings := by rw [h'.happenings, h.happenings, List.append_assoc]
  isOf := List.forall_mem_append.2 ⟨h.isOf, h'.isOf⟩
  nodes hx := h'.nodes (h.nodes hx)
  led hx := (h.led hx).append (h.happenings ▸ h'.led (h.nodes hx))

omit [Node σ] in
/-- Calls of the top node, if any, that leave the nodes alone. -/
theorem replayed_calls {top : NodeId} {rest : List NodeId} {w w' : World σ} (calls : List Call)
    (h : w'.happenings = w.happenings ++ calls.map (.called top)) :
    Replayed label (top :: rest, w) (top :: rest, w') (calls.map (.called top)) where
  happenings := h
  isOf x hx := by
    obtain ⟨c, -, rfl⟩ := List.mem_map.1 hx
    exact trivial
  nodes hx := by rw [h, stackOf_calls]; exact hx
  led hx := .of_calls calls (fun _ => rfl) (by rw [hx]; rfl)

omit [Node σ] in
theorem replayed_nil {ns : List NodeId} {w w' : World σ} (h : w'.happenings = w.happenings) :
    Replayed label (ns, w) (ns, w') [] where
  happenings := by rw [h, List.append_nil]
  isOf := by simp
  nodes hx := by rw [h]; exact hx
  led _ := .nil _ _

theorem replayed_turned {top : NodeId} (rest : List NodeId) {w w' : World σ} {d : Dispatch}
    (h : w.Turned top w' d) :
    ∃ new, Replayed label (top :: rest, w) (top :: rest, w') new := by
  rcases h with h | ⟨ok, h⟩
  · obtain ⟨calls, hh, -⟩ := World.happenings_execute h
    exact ⟨_, replayed_calls _ hh⟩
  · exact ⟨_, replayed_calls [.receive ok] (World.happenings_receive h)⟩

omit [Node σ] in
/-- A node comes onto the stack. -/
theorem replayed_entered (ns : List NodeId) (w : World σ) (n : NodeId) (depth : Nat) :
    Replayed label (ns, w) (n :: ns, w.entered label n depth) [.entered label n] where
  happenings := World.happenings_entered ..
  isOf := by simp [Happening.IsOf]
  nodes hx := by simp [stackOf_append, Happening.replay, show stackOf label w.happenings = ns from hx]
  led _ := .of_quiet (by simp)

omit [Node σ] in
/-- The top node is stopped, and leaves. -/
theorem replayed_left {top : NodeId} {rest : List NodeId} {w w' : World σ} (depth : Nat)
    (h : w'.happenings = w.happenings ++ [.called top .stop]) :
    Replayed label (top :: rest, w) (rest, w'.left label top depth)
      [.called top .stop, .left label top] where
  happenings := by simp [h]
  isOf := by simp [Happening.IsOf]
  nodes hx := by
    simp [h, stackOf_append, Happening.replay, show stackOf label w.happenings = top :: rest from hx]
  led _ := .of_quiet fun n c hm => by
    simp only [List.mem_cons, Happening.called.injEq, reduceCtorEq, List.not_mem_nil, or_false]
      at hm
    rw [hm.2]
    rfl

theorem Act.replayed (h : Act label heads x y) : ∃ new, Replayed label x y new := by
  cases h with
  | note hr => exact ⟨[], replayed_nil (World.happenings_record_of_none _ hr)⟩
  | turn h => exact replayed_turned _ h
  | @hook top rest w phase =>
    rcases World.happenings_hook w top phase with hh | hh
    · exact ⟨[], replayed_nil hh⟩
    · exact ⟨_, replayed_calls [.hook phase] hh⟩
  | @ask ns w service =>
    rcases World.happenings_ready w service with hh | ⟨answer, hh⟩
    · exact ⟨[], replayed_nil hh⟩
    · refine ⟨[.called service (.ready answer)], hh, by simp [Happening.IsOf], fun hx => ?_,
        fun _ => .of_quiet fun n c hm => ?_⟩
      · rw [hh]
        exact (stackOf_calls label w.happenings service [.ready answer]).trans hx
      · obtain ⟨-, rfl⟩ : n = service ∧ c = .ready answer := by simpa using hm
        rfl
  | @head w id _ _ => exact ⟨_, replayed_entered [] w id 1⟩
  | @call top rest w w' child h _ _ =>
    obtain ⟨new, hnew⟩ : ∃ new, Replayed label (top :: rest, w) (top :: rest, w') new :=
      replayed_turned rest h
    exact ⟨_, hnew.trans (replayed_entered (top :: rest) w' child (rest.length + 2))⟩
  | @leave top rest w w' h => exact ⟨_, replayed_left rest.length (World.happenings_stop h)⟩
  | @rollBack top rest w w' h =>
    exact ⟨_, replayed_left rest.length (World.happenings_interrupt h)⟩
  | finish => exact ⟨[], replayed_nil rfl⟩

theorem Acts.replayed (h : Acts label heads x y) : ∃ new, Replayed label x y new := by
  induction h with
  | refl => exact ⟨[], replayed_nil rfl⟩
  | tail _ ha ih =>
    obtain ⟨new, hn⟩ := ih
    obtain ⟨new', hn'⟩ := ha.replayed
    exact ⟨new ++ new', hn.trans hn'⟩

end Stack

end BehaviorTree
