/-
The stack machine implements the recursive meaning of composites.

Where the plain evaluation of a tree comes to an end, a stack that is started on the root,
and then given the same outcomes for the leaves that suspend, ends with the same result,
having done the same to the leaves in the same order. The induction is on the fuel of the
plain evaluation, one level of the tree or one iteration at a time.
-/
import BehaviorTree.Library.Scripted
import BehaviorTree.Proofs.Flow.Loops
import BehaviorTree.Proofs.Graph.Placement

namespace BehaviorTree

variable {τ : Type} [Node τ] {g : Graph (FlowNode ⊕ τ)} {label : StackLabel} {root : NodeId}

/-! ## Trees -/

theorem Graph.children_of_node? {id : NodeId} {n : FlowNode} (h : g.node? id = some (.inl n)) :
    g.children id = n.children := by
  obtain ⟨s, hs, hn⟩ := Option.map_eq_some_iff.1 h
  simp only [Graph.children, hs, hn]
  rfl

theorem simulated_evaluate (label : StackLabel)
    (hlow : ∀ p c, c ∈ g.children p → c.index < p.index) (fuel : Nat) :
    Simulated g label (g.evaluate fuel) := by
  induction fuel with
  | zero =>
    intro id c ok c' he
    cases he
  | succ fuel ih =>
    intro id c ok c' he rest last w hrest hl ha
    unfold Graph.evaluate at he
    split at he
    · cases he
    next a hn => exact arrives_leaf (by simp [Graph.isLeaf, hn]) he hl ha
    next n hn =>
      have st : Site g id n rest := ⟨hn, hrest, fun c hc =>
        hlow id c (by rwa [Graph.children_of_node? hn])⟩
      cases n with
      | sequence s => exact arrives_sequence st ih he hl ha
      | selector s => exact arrives_selector st ih he hl ha
      | condition k => exact arrives_condition st ih he hl ha
      | inverter child =>
        obtain ⟨⟨b, c₁⟩, hx, he⟩ := Option.map_eq_some_iff.1 he
        cases he
        exact arrives_inverter st ih hx hl ha
      | loop l =>
        obtain ⟨c₁, hx, he⟩ := Option.map_eq_some_iff.1 he
        cases he
        exact arrives_loop st ih hx hl ha

/-! ## Stacks -/

theorem Agrees.of_built (hg : g.Built) {w : World (FlowNode ⊕ τ)} (hw : w.graph = g) :
    Agrees g w w where
  blackboard := rfl
  tick := rfl
  contains _ := by rw [hw]
  leaf _ _ := rfl
  flow id n hn := by
    obtain ⟨s, hs, hsn⟩ := Option.map_eq_some_iff.1 hn
    refine ⟨n, ⟨s, by rw [hw]; exact hs, hsn, fun hb => ?_⟩, .refl n⟩
    have hu := hg.unbound id
    simp [hs, hb] at hu
  records := rfl

/-- A pass that begins with a ready stack. -/
theorem Stack.drive_ready {σ : Type} [Node σ] {id : NodeId} {w : World σ} {b budget : Nat} :
    drive (b + 1) { label, nodes := [id], stepBudget := budget } w
      = drive (b + 1) ((Spot.mk [id] none none w).stack label budget) w := by
  rw [drive, drive]
  simp [Spot.stack, rests, isWaiting, StackState.isWaiting, step]

/-- The pass ended the stack `label`, and `ok` is its result. -/
structure Stack.EndedWith {σ : Type} (label : StackLabel) (ok : Bool) (p : Pass σ Stack) :
    Prop where
  fault : p.fault = none
  state : p.after.state = .ended
  nodes : p.after.nodes = []
  event : p.world.events.toList.getLast? = some (.ended label (some ok))

theorem Stack.start_eq {σ : Type} [Node σ] {w : World σ} (budget : Nat)
    (h : w.graph.contains root) :
    ({ label, stepBudget := budget + 1 : Stack }.start w root)
      = conclude (drive (budget + 1)
          ((Spot.mk [root] none none (w.entered label root 1)).stack label (budget + 1))
          (w.entered label root 1)) := by
  rw [← drive_ready]
  simp [start, isEmpty, h, push, run_eq, depth]

/-- Where the last node has left with its result, the stack ends with it. -/
theorem Stack.endedWith_conclude {σ : Type} {budget : Nat} {ok : Bool} {last : Option NodeId}
    {w : World σ} :
    EndedWith label ok
      (conclude ⟨(Spot.mk [] (some ok) last w).stack label budget, w, none⟩) where
  fault := rfl
  state := rfl
  nodes := rfl
  event := by
    have he : (conclude ⟨(Spot.mk [] (some ok) last w).stack label budget, w, none⟩).world.events
        = w.events.push (.ended label (some ok)) := rfl
    rw [he, Queue.toList_push]
    simp

/-- The composites may have run before, as long as the world agrees with that of the plain
evaluation. -/
theorem Stack.start_of_agrees (hlow : ∀ p c, c ∈ g.children p → c.index < p.index)
    (hroot : g.contains root) {w v : World (FlowNode ⊕ τ)} (ha : Agrees g w v)
    (label : StackLabel) {fuel : Nat} {outcomes : List Bool} {ok : Bool}
    {c : Course (FlowNode ⊕ τ)} (he : g.evaluate fuel root ⟨v, outcomes⟩ = some (ok, c)) :
    ∃ least used, outcomes = used ++ c.outcomes ∧ ∀ budget, least ≤ budget →
      let p := feed ({ label, stepBudget := budget : Stack }.start w root) used
      EndedWith label ok p ∧ Agrees g p.world c.world := by
  have hroot : w.graph.contains root := by rwa [ha.contains]
  have ha₀ := (ha.trace "bt.stack.push" label root (1 : Nat)).enqueue (.pushed root)
  have hrest : ∀ x ∈ ([] : List NodeId), root.index < x.index := by simp
  have hnone : (none : Option NodeId) ≠ some root := by simp
  obtain ⟨n, used, last, w', hu, hleads, -, ha', -⟩ :=
    simulated_evaluate label hlow fuel he hrest hnone ha₀
  refine ⟨n + 1, used, hu, fun budget hb => ?_⟩
  obtain ⟨b, rfl⟩ : ∃ b, budget = b + 1 := ⟨budget - 1, by omega⟩
  have hfeed := hleads.feed (b := b + 1) rfl (by omega) (by omega : n ≤ b + 1)
  rw [start_eq b hroot]
  simp only [World.entered] at hfeed ⊢
  rw [hfeed]
  refine ⟨endedWith_conclude, ?_⟩
  exact (ha'.trace "bt.stack.end" label none (if ok then 1 else 0)).enqueue (.ended label (some ok))

/-- A stack does what the tree on it means. Wherever the plain evaluation of the tree under
`root` has a value, a budget that is large enough lets the stack come to the same end: it
takes the same outcomes for the leaves that suspend, and its result, the variables and the
leaves, with all that these did in its order, are the same. -/
theorem Stack.start_of_evaluate (hg : g.Built) (hv : g.validate root = .ok ())
    {w : World (FlowNode ⊕ τ)} (hw : w.graph = g) (label : StackLabel) {fuel : Nat}
    {outcomes : List Bool} {ok : Bool} {c : Course (FlowNode ⊕ τ)}
    (he : g.evaluate fuel root ⟨w, outcomes⟩ = some (ok, c)) :
    ∃ least used, outcomes = used ++ c.outcomes ∧ ∀ budget, least ≤ budget →
      let p := feed ({ label, stepBudget := budget : Stack }.start w root) used
      EndedWith label ok p ∧ Agrees g p.world c.world := by
  obtain ⟨hroot, hf⟩ := Graph.faults_of_validate hv
  exact start_of_agrees (hg.wired.lower hf) hroot (.of_built hg hw) label he

/-! ## A loop between leaves that wait -/

/-- Works for as long as it is asked to, and then does the opposite of one thing more. -/
def rounds : Graph (FlowNode ⊕ LeafNode Question Plays) where
  slots := #[
    { name := "again", node := .inr .idle, parent := some ⟨2⟩ },
    { name := "work", node := .inr .idle, parent := some ⟨2⟩ },
    { name := "rounds", node := .inl (.loop { kind := .whileDo ⟨0⟩, body := [⟨1⟩] }),
      parent := some ⟨5⟩ },
    { name := "last", node := .inr .idle, parent := some ⟨4⟩ },
    { name := "not", node := .inl (.inverter ⟨3⟩), parent := some ⟨5⟩ },
    { name := "root", node := .inl (.sequence { children := [⟨2⟩, ⟨4⟩] }) }]

theorem built_rounds : rounds.Built := by
  have h := Graph.Built.empty (σ := FlowNode ⊕ LeafNode Question Plays)
    |>.add "again" (.inr .idle)
    |>.add "work" (.inr .idle)
    |>.add "rounds" (.inl (.loop { kind := .whileDo ⟨0⟩, body := [⟨1⟩] }))
    |>.add "last" (.inr .idle)
    |>.add "not" (.inl (.inverter ⟨3⟩))
    |>.add "root" (.inl (.sequence { children := [⟨2⟩, ⟨4⟩] }))
  exact h

/-- One round, although the work fails, and then the last leaf succeeds. -/
theorem start_of_evaluate_rounds :
    let w : World (FlowNode ⊕ LeafNode Question Plays) := { graph := rounds, blackboard := {} }
    rounds.validate ⟨5⟩ = .ok () ∧ ∃ c,
      rounds.evaluate 5 ⟨5⟩ ⟨w, [true, false, false, true, true]⟩ = some (false, c) ∧
        ∃ least, ∀ budget, least ≤ budget →
          Stack.EndedWith .main false (Stack.feed
            ({ label := .main, stepBudget := budget : Stack }.start w ⟨5⟩)
            [true, false, false, true]) := by
  intro w
  have hs : (rounds.evaluate 5 ⟨5⟩ ⟨w, [true, false, false, true, true]⟩).map
      (fun r => (r.1, r.2.outcomes)) = some (false, [true]) := by decide +kernel
  obtain ⟨⟨ok, c⟩, he, hr⟩ := Option.map_eq_some_iff.1 hs
  obtain ⟨rfl, ho⟩ := Prod.mk.inj hr
  obtain ⟨least, used, hu, hend⟩ := Stack.start_of_evaluate built_rounds rfl rfl .main he
  have hu' : used = [true, false, false, true] := by
    rw [show c.outcomes = [true] from ho] at hu
    exact (List.append_cancel_right (by exact hu) : [true, false, false, true] = used).symm
  subst hu'
  exact ⟨rfl, c, he, least, fun budget hb => (hend budget hb).1⟩

end BehaviorTree
