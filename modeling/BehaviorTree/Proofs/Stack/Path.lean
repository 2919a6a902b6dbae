/-
The nodes of a stack lie on a path: from its head down, each one is a child of the node
beneath it, if no node calls another than its children. So a node that ever comes onto the
stack lies under its head.
-/
import BehaviorTree.Proofs.Graph.Placement
import BehaviorTree.Proofs.Stack.Act

namespace BehaviorTree.Stack

variable {σ : Type} [Node σ] {g : Graph σ} {head : NodeId}

/-- The nodes, the top first, lead down from `head`. -/
def Path (g : Graph σ) (head : NodeId) : List NodeId → Prop
  | [] => True
  | [n] => n = head
  | n :: m :: rest => n ∈ g.children m ∧ Path g head (m :: rest)

theorem Path.tail {n : NodeId} {ns : List NodeId} (h : Path g head (n :: ns)) :
    Path g head ns := by
  cases ns with
  | nil => exact trivial
  | cons m rest => exact h.2

theorem Path.under {ns : List NodeId} (h : Path g head ns) : ∀ n ∈ ns, g.Under head n := by
  induction ns with
  | nil => simp
  | cons n ns ih =>
    intro m hm
    rcases List.mem_cons.1 hm with rfl | hm
    · cases ns with
      | nil =>
        cases h
        exact .refl
      | cons k rest => exact (ih h.2 k List.mem_cons_self).tail h.1
    · exact ih h.tail m hm

/-- A node that was turned to called children only. -/
theorem mem_children_of_turned {w w' : World σ} {top child : NodeId} {status : Status}
    (hc : g.CallsChildren) (hg : g.Grown w.graph)
    (ht : w.Turned top w' (.answered status [child])) : child ∈ g.children top := by
  have hmem : ∀ slot, w.graph.slot? top = some slot →
      ∃ s, g.slot? top = some s ∧ Node.Becomes s.node slot.node ∧
        g.children top = Node.children s.node := by
    intro slot hs
    obtain ⟨s, hs', hgrown⟩ := hg.slot? hs
    exact ⟨s, hs', hgrown.node, by simp [Graph.children, hs']⟩
  rcases ht with ht | ⟨ok, ht⟩
  · obtain ⟨slot, node, ctx, hs, hb, -, hcalls⟩ := World.execute_answered ht
    obtain ⟨s, hs', hb', he⟩ := hmem slot hs
    rw [he]
    exact (hc top s hs' node (hb'.trans hb) ctx).1 child (by simp [hcalls])
  · obtain ⟨slot, ctx, hs, -, hcalls⟩ := World.receive_answered ht
    obtain ⟨s, hs', hb', he⟩ := hmem slot hs
    rw [he]
    exact (hc top s hs' slot.node hb' ctx).2 ok child (by simp [hcalls])

theorem Act.path {label : StackLabel} {x y : List NodeId × World σ}
    (h : Act label (· = head) x y) (hc : g.CallsChildren) (hg : g.Grown x.2.graph)
    (hp : Path g head x.1) : Path g head y.1 := by
  cases h with
  | note | turn | hook | ask | finish => exact hp
  | head he _ => exact he
  | call ht _ _ => exact ⟨mem_children_of_turned hc hg ht, hp⟩
  | leave | rollBack => exact hp.tail

/-- The nodes descend from `head`, among the nodes that grew from `g`. -/
structure Lined (g : Graph σ) (head : NodeId) (x : List NodeId × World σ) : Prop where
  path : Path g head x.1
  placed : Placed x
  grown : g.Grown x.2.graph

theorem Acts.lined {label : StackLabel} {x y : List NodeId × World σ} (hc : g.CallsChildren)
    (h : Acts label (· = head) x y) (hx : Lined g head x) : Lined g head y := by
  refine ⟨?_, h.placed hx.placed, hx.grown.trans h.frame.graph⟩
  induction h with
  | refl => exact hx.path
  | tail h ha ih => exact ha.path hc (hx.grown.trans (Acts.frame h).graph) ih

/-! ## Nodes that come -/

/-- Whoever comes onto the stack in an act is on it then. -/
theorem Act.mem_of_entered {label l : StackLabel} {heads : NodeId → Prop} {n : NodeId}
    {x y : List NodeId × World σ} (h : Act label heads x y) (hn : .entered l n ∈ y.2.happenings) :
    .entered l n ∈ x.2.happenings ∨ l = label ∧ n ∈ y.1 := by
  have hcalls : ∀ {w w' : World σ} {node : NodeId} (calls : List Call),
      w'.happenings = w.happenings ++ calls.map (.called node) →
      .entered l n ∈ w'.happenings → .entered l n ∈ w.happenings := by
    intro w w' node calls hh hm
    simpa [hh] using hm
  have hturned : ∀ {w w' : World σ} {node : NodeId} {d : Dispatch}, w.Turned node w' d →
      .entered l n ∈ w'.happenings → .entered l n ∈ w.happenings := by
    rintro w w' node d (ht | ⟨ok, ht⟩)
    · obtain ⟨calls, hh, -⟩ := World.happenings_execute ht
      exact hcalls calls hh
    · exact hcalls [.receive ok] (World.happenings_receive ht)
  cases h with
  | note hr => exact .inl (by rwa [World.happenings_record_of_none _ hr] at hn)
  | turn ht => exact .inl (hturned ht hn)
  | @hook top rest w phase =>
    rcases World.happenings_hook w top phase with hh | hh
    · exact .inl (hh ▸ hn)
    · exact .inl (hcalls [.hook phase] hh hn)
  | @ask ns w id =>
    rcases World.happenings_ready w id with hh | ⟨answer, hh⟩
    · exact .inl (hh ▸ hn)
    · exact .inl (hcalls [.ready answer] hh hn)
  | head => simpa using hn
  | call ht =>
    rw [World.happenings_entered, List.mem_append] at hn
    rcases hn with hn | hn
    · exact .inl (hturned ht hn)
    · obtain ⟨rfl, rfl⟩ : l = label ∧ n = _ := by simpa using hn
      exact .inr ⟨rfl, List.mem_cons_self⟩
  | leave hs => exact .inl (by simpa [World.happenings_stop hs] using hn)
  | rollBack hs => exact .inl (by simpa [World.happenings_interrupt hs] using hn)
  | finish => exact .inl hn

/-- Whoever comes onto a stack whose nodes descend from its head lies under that head. -/
theorem Acts.under_of_entered {label l : StackLabel} {n : NodeId} {x y : List NodeId × World σ}
    (hc : g.CallsChildren) (h : Acts label (· = head) x y) (hx : Lined g head x)
    (hn : .entered l n ∈ y.2.happenings) :
    .entered l n ∈ x.2.happenings ∨ l = label ∧ g.Under head n := by
  induction h with
  | refl => exact .inl hn
  | tail h ha ih =>
    rcases ha.mem_of_entered hn with hn | ⟨hl, hn⟩
    · exact ih hn
    · exact .inr ⟨hl, (Acts.lined hc (.tail h ha) hx).path.under n hn⟩

end BehaviorTree.Stack
