/-
The nodes of the library that have children call none but these, and what such a node may call
is part of its state that no step changes. What a script calls is written in its plays.
-/
import BehaviorTree.Library.Background
import BehaviorTree.Library.Flow
import BehaviorTree.Library.Leaf
import BehaviorTree.Library.Scripted
import BehaviorTree.Proofs.Graph.Placement

namespace BehaviorTree

namespace Node

variable {σ α β : Type} [Node σ] [Node α] [Node β]

/-- It is enough that an invariant of the node bounds what it calls. -/
theorem CallsOnly.of_invariant {I : σ → Prop} {cs : List NodeId} {s : σ} (hs : I s)
    (hm : ∀ s s', I s → Moves s s' → I s')
    (hc : ∀ s, I s → ∀ ctx, (∀ c ∈ (Node.execute s ctx).effects.calls, c ∈ cs) ∧
      ∀ ok, ∀ c ∈ (Node.receive s ctx ok).effects.calls, c ∈ cs) : CallsOnly cs s := by
  intro s' hb
  have hI : I s' := by
    induction hb with
    | refl => exact hs
    | tail _ h ih => exact hm _ _ ih h
  exact hc s' hI

theorem CallsOnly.embeds {f : α → β} (hf : Embeds f) {cs : List NodeId} {a : α}
    (h : CallsOnly cs a) : CallsOnly cs (f a) := by
  intro x hx
  obtain ⟨a', rfl, ha⟩ := hf.becomes hx
  intro ctx
  rw [hf.execute]
  refine ⟨(h a' ha ctx).1, fun ok => ?_⟩
  rw [hf.receive]
  exact (h a' ha ctx).2 ok

theorem CallsOnly.inl {cs : List NodeId} {a : α} (h : CallsOnly cs a) :
    CallsOnly cs (.inl a : α ⊕ β) :=
  h.embeds embeds_inl

theorem CallsOnly.inr {cs : List NodeId} {b : β} (h : CallsOnly cs b) :
    CallsOnly cs (.inr b : α ⊕ β) :=
  h.embeds embeds_inr

end Node

/-! ## Composites -/

/-- A step after which the children are `cs`, and which calls none but these. -/
structure Step.Within {τ α : Type} (children : τ → List NodeId) (cs : List NodeId)
    (s : Step τ α) : Prop where
  node : children s.node = cs
  calls : ∀ c ∈ s.effects.calls, c ∈ cs

section Steps

variable {τ α : Type} {children : τ → List NodeId} {cs : List NodeId} {n : τ} {ctx : Context}

theorem within_plain (h : children n = cs) (answer : α) :
    (Step.plain n ctx answer).Within children cs :=
  ⟨h, by simp [Step.plain]⟩

theorem within_call (h : children n = cs) {c : NodeId} (hc : c ∈ cs) :
    (Step.call n ctx c).Within children cs :=
  ⟨h, by simp [Step.call, hc]⟩

theorem within_giveUp (h : children n = cs) (e : AccessError) :
    (Step.giveUp n ctx e).Within children cs :=
  ⟨h, by simp [Step.giveUp]⟩

end Steps

namespace Sequence

theorem execute_within (s : Sequence) (ctx : Context) :
    (s.execute ctx).Within Sequence.children s.children := by
  unfold execute
  simp only
  split
  · exact within_plain (by rfl) _
  · next h => exact within_call (by rfl) (by simp [h])

theorem receive_within (s : Sequence) (ctx : Context) (ok : Bool) :
    (s.receive ctx ok).Within Sequence.children s.children := by
  unfold receive
  simp only
  split
  · next h => exact within_call (by rfl) (List.mem_of_getElem? h)
  · exact within_plain (by rfl) _

end Sequence

namespace Selector

theorem execute_within (s : Selector) (ctx : Context) :
    (s.execute ctx).Within Selector.children s.children := by
  unfold execute
  simp only
  split
  · exact within_plain (by rfl) _
  · next h => exact within_call (by rfl) (by simp [h])

theorem receive_within (s : Selector) (ctx : Context) (ok : Bool) :
    (s.receive ctx ok).Within Selector.children s.children := by
  unfold receive
  simp only
  split
  · exact within_plain (by rfl) _
  split
  · next h => exact within_call (by rfl) (List.mem_of_getElem? h)
  · exact within_plain (by rfl) _

end Selector

namespace Condition

theorem execute_within (c : Condition) (ctx : Context) :
    (c.execute ctx).Within Condition.children c.children :=
  within_call (by rfl) (by exact List.mem_cons_self)

theorem receive_within (c : Condition) (ctx : Context) (ok : Bool) :
    (c.receive ctx ok).Within Condition.children c.children := by
  unfold receive
  split
  · exact within_plain (by rfl) _
  split
  · next branch h =>
    have hc : branch ∈ c.onTrue.toList ++ c.onFalse.toList := by
      cases ok <;> simp_all
    exact within_call (by rfl) (by exact List.mem_cons_of_mem _ hc)
  · exact within_plain (by rfl) _

end Condition

namespace Loop

theorem mem_children_of_mem_body {l : Loop} {c : NodeId} (h : c ∈ l.body) : c ∈ l.children := by
  unfold children
  split
  · exact h
  · exact List.mem_cons_of_mem _ h
  · exact List.mem_cons_of_mem _ h

theorem children_congr {l l' : Loop} (hk : l'.kind = l.kind) (hb : l'.body = l.body) :
    l'.children = l.children := by
  unfold children
  rw [hk, hb]

theorem enterBody_within {l l' : Loop} (ctx : Context) (hk : l'.kind = l.kind)
    (hb : l'.body = l.body) : (l'.enterBody ctx).Within Loop.children l.children := by
  unfold enterBody
  simp only
  split
  · exact within_plain (by exact children_congr hk hb) _
  · next h =>
    refine within_call (by exact children_congr hk hb) (mem_children_of_mem_body ?_)
    rw [← hb, h]
    exact List.mem_cons_self

theorem check_within {l l' : Loop} (ctx : Context) {condition : NodeId} (hk : l'.kind = l.kind)
    (hb : l'.body = l.body) (hc : condition ∈ l.children) :
    (l'.check ctx condition).Within Loop.children l.children :=
  within_call (by exact children_congr hk hb) hc

theorem execute_within (l : Loop) (ctx : Context) :
    (l.execute ctx).Within Loop.children l.children := by
  unfold execute
  simp only
  split
  · exact within_plain (by rfl) _
  split
  · split
    · exact within_giveUp (by rfl) _
    · exact within_plain (by rfl) _
    split
    · exact within_plain (by rfl) _
    · exact enterBody_within ctx (by rfl) (by rfl)
  · next h => exact check_within ctx (by rfl) (by rfl) (by simp [children, h])
  · exact enterBody_within ctx (by rfl) (by rfl)

theorem nextIteration_within (l : Loop) (ctx : Context) :
    (l.nextIteration ctx).Within Loop.children l.children := by
  unfold nextIteration
  simp only
  split
  · split
    · exact enterBody_within ctx (by rfl) (by rfl)
    · exact within_plain (by rfl) _
  · next h => exact check_within ctx (by rfl) (by rfl) (by simp [children, h])
  · next h => exact check_within ctx (by rfl) (by rfl) (by simp [children, h])

theorem receive_within (l : Loop) (ctx : Context) (ok : Bool) :
    (l.receive ctx ok).Within Loop.children l.children := by
  unfold receive
  split
  · split
    · exact enterBody_within ctx (by rfl) (by rfl)
    · exact within_plain (by rfl) _
  split
  · next h => exact within_call (by rfl) (mem_children_of_mem_body (List.mem_of_getElem? h))
  · exact nextIteration_within l ctx

theorem children_bind (l : Loop) (b : Blackboard) : (l.bind b).node.children = l.children := by
  obtain ⟨kind, body, place, iteration, count⟩ := l
  cases kind with
  | times field =>
    simp only [bind]
    split <;> rfl
  | whileDo _ | doWhile _ => rfl

end Loop

namespace FlowNode

theorem execute_within (n : FlowNode) (ctx : Context) :
    (Node.execute n ctx).Within FlowNode.children n.children := by
  cases n with
  | sequence s => exact ⟨(s.execute_within ctx).node, (s.execute_within ctx).calls⟩
  | selector s => exact ⟨(s.execute_within ctx).node, (s.execute_within ctx).calls⟩
  | loop l => exact ⟨(l.execute_within ctx).node, (l.execute_within ctx).calls⟩
  | condition c => exact ⟨(c.execute_within ctx).node, (c.execute_within ctx).calls⟩
  | inverter child => exact within_call (by rfl) (by exact List.mem_singleton.2 rfl)

theorem receive_within (n : FlowNode) (ctx : Context) (ok : Bool) :
    (Node.receive n ctx ok).Within FlowNode.children n.children := by
  cases n with
  | sequence s => exact ⟨(s.receive_within ctx ok).node, (s.receive_within ctx ok).calls⟩
  | selector s => exact ⟨(s.receive_within ctx ok).node, (s.receive_within ctx ok).calls⟩
  | loop l => exact ⟨(l.receive_within ctx ok).node, (l.receive_within ctx ok).calls⟩
  | condition c => exact ⟨(c.receive_within ctx ok).node, (c.receive_within ctx ok).calls⟩
  | inverter child => exact within_plain (by rfl) _

theorem children_moves {n n' : FlowNode} (h : Node.Moves n n') : n'.children = n.children := by
  cases h with
  | bind b =>
    cases n with
    | loop l => exact l.children_bind b
    | sequence _ | selector _ | condition _ | inverter _ => rfl
  | execute ctx => exact (n.execute_within ctx).node
  | receive ctx ok => exact (n.receive_within ctx ok).node
  | stop ctx => cases n <;> rfl
  | hook | ready | registered | unregistered => rfl

/-- A composite calls its children only. -/
theorem callsOnly (n : FlowNode) : Node.CallsOnly (Node.children n) n := by
  refine .of_invariant (I := fun m => m.children = n.children) rfl
    (fun s s' hs hm => (children_moves hm).trans hs) fun s hs ctx => ⟨?_, fun ok => ?_⟩
  · have h := (s.execute_within ctx).calls
    rwa [hs] at h
  · have h := (s.receive_within ctx ok).calls
    rwa [hs] at h

end FlowNode

/-! ## Services and leaves -/

namespace BackgroundNode

theorem subtree_moves {n n' : BackgroundNode} (h : Node.Moves n n') : n'.subtree = n.subtree := by
  cases h <;> cases n <;> rfl

theorem callsOnly (n : BackgroundNode) : Node.CallsOnly (Node.children n) n := by
  refine .of_invariant (I := fun m => m.subtree = n.subtree) rfl
    (fun s s' hs hm => (subtree_moves hm).trans hs) fun s hs ctx =>
      ⟨fun c hc => ?_, fun _ c hc => ?_⟩
  · have hcs : c = s.subtree := List.mem_singleton.1 hc
    exact List.mem_singleton.2 (hcs.trans hs)
  · cases hc

end BackgroundNode

theorem LeafNode.callsOnly_idle {π α : Type} [Predicate π] [Action α] :
    Node.CallsOnly [] (LeafNode.idle : LeafNode π α) := by
  refine .of_invariant (I := fun n => n = .idle) rfl (fun s s' hs hm => ?_) fun s hs ctx => ?_
  · subst hs
    cases hm <;> rfl
  · subst hs
    exact ⟨fun c hc => (by cases hc), fun _ c hc => (by cases hc)⟩

/-! ## Scripts -/

/-- The node that the instruction calls. -/
def Instruction.callee? : Instruction → Option NodeId
  | .call child => some child
  | _ => none

/-- The nodes that the plays call, one after the other. -/
def Plays.callees (plays : Plays) : List NodeId :=
  plays.flatMap fun p => p.instructions.filterMap Instruction.callee?

theorem Effects.calls_perform (ctx : Context) (e : Effects) (i : Instruction) :
    (e.perform ctx i).calls = e.calls ++ i.callee?.toList := by
  cases i with
  | change f =>
    simp only [Effects.perform, Instruction.callee?]
    split <;> simp [Effects.note]
  | call | endAfter | observe | save | note =>
    simp [Effects.perform, Instruction.callee?, Effects.note]

theorem Effects.calls_foldl (ctx : Context) (e : Effects) (is : List Instruction) :
    (is.foldl (·.perform ctx) e).calls = e.calls ++ is.filterMap Instruction.callee? := by
  induction is generalizing e with
  | nil => simp
  | cons i is ih =>
    rw [List.foldl_cons, ih, calls_perform, List.append_assoc]
    cases h : i.callee? <;> simp [h]

/-- Whatever comes next was in the list, and so is what is left to come. -/
theorem mem_of_following {α : Type} {l l' : List α} {a : α} (h : following l = some (a, l')) :
    a ∈ l ∧ l' ⊆ l := by
  match l with
  | [b] =>
    cases h
    exact ⟨List.mem_cons_self, fun _ h => h⟩
  | b :: c :: rest =>
    cases h
    exact ⟨List.mem_cons_self, List.subset_cons_self ..⟩

namespace Plays

theorem callees_mono {plays plays' : Plays} (h : plays' ⊆ plays) :
    plays'.callees ⊆ plays.callees := by
  intro c hc
  obtain ⟨p, hp, hc⟩ := List.mem_flatMap.1 hc
  exact List.mem_flatMap.2 ⟨p, h hp, hc⟩

/-- When the plays are turned to, they call what they say, and there is no more of it later. -/
theorem turn_callees (plays : Plays) (ctx : Context) (e : Effects) :
    (∀ c ∈ (plays.turn ctx e).1.calls, c ∈ e.calls ∨ c ∈ plays.callees) ∧
      (plays.turn ctx e).2.2.callees ⊆ plays.callees := by
  unfold turn
  split
  · exact ⟨fun c hc => .inl hc, List.nil_subset _⟩
  · next p rest h =>
    obtain ⟨hp, hrest⟩ := mem_of_following h
    refine ⟨fun c hc => ?_, callees_mono hrest⟩
    rw [Effects.calls_foldl] at hc
    exact (List.mem_append.1 hc).imp_right fun hc => List.mem_flatMap.2 ⟨p, hp, hc⟩

end Plays

namespace Scripted

/-- Whatever the script calls when it is executed or handed a result is among `cs`. -/
structure Names (cs : List NodeId) (s : Scripted) : Prop where
  execute : s.execute.callees ⊆ cs
  receive : s.receive.callees ⊆ cs

theorem Names.moves {cs : List NodeId} {s s' : Scripted} (h : s.Names cs) (hm : Node.Moves s s') :
    s'.Names cs := by
  cases hm with
  | execute ctx => exact ⟨fun _ hc => h.execute ((s.execute.turn_callees ctx _).2 hc), h.receive⟩
  | receive ctx ok => exact ⟨h.execute, fun _ hc => h.receive ((s.receive.turn_callees ctx _).2 hc)⟩
  | bind | stop | hook | ready | registered | unregistered => exact ⟨h.execute, h.receive⟩

theorem Names.callsOnly {cs : List NodeId} {s : Scripted} (h : s.Names cs) :
    Node.CallsOnly cs s := by
  refine .of_invariant h (fun _ _ h hm => h.moves hm) fun s h ctx =>
    ⟨fun c hc => ?_, fun ok c hc => ?_⟩
  · exact h.execute (((s.execute.turn_callees ctx _).1 c hc).resolve_left List.not_mem_nil)
  · exact h.receive (((s.receive.turn_callees ctx _).1 c hc).resolve_left List.not_mem_nil)

end Scripted

end BehaviorTree
