/-
A stack does what a plain evaluation does.

A composite at work on a stack sits above its ancestors and below whatever it has called.
Its children were added before it, so they and all that they call have smaller ids: while a
child runs, neither the composite nor its ancestors change. What is here is a leaf, and one
turn of a composite, whatever it is; how the composites put their turns together comes after.
-/
import BehaviorTree.Proofs.Stack.Leads
import BehaviorTree.Proofs.Flow.Agreement

namespace BehaviorTree

variable {τ : Type} [Node τ] {g : Graph (FlowNode ⊕ τ)} {label : StackLabel}

/-- From `p` on, the stack ends `id` with the outcome `ok` and where `c` is; it takes the
outcomes that `c` has no longer in store, and changes nothing above `id`. -/
def Arrives (g : Graph (FlowNode ⊕ τ)) (label : StackLabel) (id : NodeId) (rest : List NodeId)
    (p : Spot (FlowNode ⊕ τ)) (outcomes : List Bool) (ok : Bool)
    (c : Course (FlowNode ⊕ τ)) : Prop :=
  ∃ n used last w, outcomes = used ++ c.outcomes ∧ Leads label n used p ⟨rest, some ok, last, w⟩ ∧
    (last = none ∨ last = some id) ∧ Agrees g w c.world ∧
      ∀ other : NodeId, id.index < other.index → w.graph.slot? other = p.world.graph.slot? other

/-- Wherever `evaluate` has a value for a node, a stack with that node on top gets there. -/
def Simulated (g : Graph (FlowNode ⊕ τ)) (label : StackLabel)
    (evaluate : NodeId → Course (FlowNode ⊕ τ) → Option (Bool × Course (FlowNode ⊕ τ))) : Prop :=
  ∀ {id c ok c'}, evaluate id c = some (ok, c') →
    ∀ {rest : List NodeId} {last w}, (∀ x ∈ rest, id.index < x.index) → last ≠ some id →
      Agrees g w c.world → Arrives g label id rest ⟨id :: rest, none, last, w⟩ c.outcomes ok c'

/-! ## Leaves -/

theorem settle?_eq_some {status : Status} {outcomes outcomes' : List Bool} {ok : Bool}
    (h : Course.settle? status outcomes = some (ok, outcomes')) :
    (status = .of ok ∧ outcomes' = outcomes) ∨ (status = .wait ∧ outcomes = ok :: outcomes') := by
  unfold Course.settle? at h
  split at h
  · cases h
    exact .inl ⟨rfl, rfl⟩
  · cases h
    exact .inl ⟨rfl, rfl⟩
  · cases h
    exact .inr ⟨rfl, rfl⟩
  · cases h

theorem arrives_leaf {id : NodeId} {c c' : Course (FlowNode ⊕ τ)} {ok : Bool}
    (hid : g.isLeaf id) (h : c.leaf id = some (ok, c')) {rest : List NodeId}
    {last : Option NodeId} {w : World (FlowNode ⊕ τ)} (hl : last ≠ some id)
    (ha : Agrees g w c.world) :
    Arrives g label id rest ⟨id :: rest, none, last, w⟩ c.outcomes ok c' := by
  unfold Course.leaf at h
  split at h
  next v status he =>
    obtain ⟨⟨ok', outcomes⟩, hs, h⟩ := Option.bind_eq_some_iff.1 h
    simp only at h
    split at h
    next v' hv =>
      cases h
      obtain ⟨w₁, hw₁, ha₁, hloc₁⟩ := ha.execute_leaf hid he
      rcases settle?_eq_some hs with ⟨rfl, ho⟩ | ⟨rfl, ho⟩
      · obtain ⟨w₂, hw₂, ha₂, hloc₂⟩ := ha₁.stop_leaf hid hv
        have hop : Hop label none ⟨id :: rest, none, last, w⟩ _ := .leave hl hw₁ hw₂
        refine ⟨1, [], some id, _, by simpa using ho.symm, .hop hop (.refl _), .inr rfl,
          ((ha₂.trace _ _ _ _).enqueue _).trace _ _ _ _, fun other h => ?_⟩
        exact (hloc₁.trans hloc₂).above h
      · obtain ⟨w₂, hw₂, ha₂, hloc₂⟩ := (ha₁.trace "bt.stack.wait" label id 0).stop_leaf hid hv
        have hop : Hop label (some ok) ⟨id :: rest, none, last, w⟩ _ := .wait ok hl hw₁ hw₂
        refine ⟨1, [ok], none, _, ho, .hop hop (.refl _), .inl rfl,
          ((ha₂.trace _ _ _ _).enqueue _).trace _ _ _ _, fun other h => ?_⟩
        have hl₂ : World.Local id w₁ w₂ := hloc₂.of_graph (by rfl) (by rfl)
        exact (hloc₁.trans hl₂).above h
    · cases h
  · cases h

/-! ## Turns of a composite -/

/-- The composite at `id` was turned to, got to `m` by it, and answered. -/
structure World.Turns (w : World (FlowNode ⊕ τ)) (id : NodeId) (result : Option Bool)
    (w' : World (FlowNode ⊕ τ)) (m : FlowNode) (status : Status) (calls : List NodeId) : Prop where
  turn : w.turn id result = .ok (w', .answered status calls)
  only : World.Only id w w'
  holds : w'.Holds id m

/-- The composite `n` is at `id`, with its ancestors beneath it on the stack, and was added
after its children. -/
structure Site (g : Graph (FlowNode ⊕ τ)) (id : NodeId) (n : FlowNode) (rest : List NodeId) :
    Prop where
  node : g.node? id = some (.inl n)
  above : ∀ x ∈ rest, id.index < x.index
  below : ∀ c ∈ n.children, c.index < id.index

namespace Site

variable {id : NodeId} {n m : FlowNode} {rest : List NodeId} {result : Option Bool}
  {last : Option NodeId} {w w₁ : World (FlowNode ⊕ τ)} {c c₁ c' : Course (FlowNode ⊕ τ)}
  {ok ok₁ ok' : Bool}
  {child : NodeId}
  {evaluate : NodeId → Course (FlowNode ⊕ τ) → Option (Bool × Course (FlowNode ⊕ τ))}

omit [Node τ] in
theorem contains_child (st : Site g id n rest) (hc : child ∈ n.children) : g.contains child := by
  have hlt := st.below child hc
  obtain ⟨s, hs, -⟩ := Option.map_eq_some_iff.1 st.node
  have hg : g.contains id := by
    rw [← g.isSome_slot?, hs]
    rfl
  simp only [Graph.contains, decide_eq_true_eq] at hg ⊢
  omega

omit [Node τ] in
theorem child_not_mem (st : Site g id n rest) (hc : child ∈ n.children) : child ∉ id :: rest := by
  have hlt := st.below child hc
  intro hm
  rcases List.mem_cons.1 hm with rfl | hm
  · omega
  · have hx := st.above child hm
    omega

/-- The composite ends: this is where the stack arrives. -/
theorem finish (st : Site g id n rest) (hl : last ≠ some id)
    (ha : Agrees g w c.world) (ht : w.Turns id result w₁ m (.of ok) []) (hm : n.Like m) :
    Arrives g label id rest ⟨id :: rest, result, last, w⟩ c.outcomes ok c := by
  obtain ⟨w₂, hs, ho, hm₂⟩ := World.stop_flow ht.holds
  have hreset : n.Like m.reset := by
    cases hm with
    | sequence h => exact .sequence h
    | selector h => exact .selector h
    | loop hk hb => exact .loop hk hb
    | condition h₁ h₂ h₃ => exact .condition h₁ h₂ h₃
    | inverter child => exact .inverter child
  have ha₂ := (ha.of_only st.node ht.only ht.holds hm).of_only st.node ho hm₂ hreset
  have hop : Hop label none ⟨id :: rest, result, last, w⟩ _ := .leave hl ht.turn hs
  exact ⟨1, [], some id, _, rfl, .hop hop (.refl _), .inr rfl,
    ((ha₂.trace _ _ _ _).enqueue _).trace _ _ _ _,
    fun other h => (ht.only.toLocal.trans ho.toLocal).above h⟩

/-- The composite calls a child; when that is back, the composite is where it was. -/
theorem call (st : Site g id n rest) (hev : Simulated g label evaluate)
    (hl : last ≠ some id) (ha : Agrees g w c.world)
    (ht : w.Turns id result w₁ m .noReturn [child]) (hm : n.Like m) (hc : child ∈ n.children)
    (he : evaluate child c = some (ok, c₁))
    (hnext : ∀ {last w}, last ≠ some id → Agrees g w c₁.world → w.Holds id m →
      Arrives g label id rest ⟨id :: rest, some ok, last, w⟩ c₁.outcomes ok' c') :
    Arrives g label id rest ⟨id :: rest, result, last, w⟩ c.outcomes ok' c' := by
  have hlt := st.below child hc
  have ha₁ := ha.of_only st.node ht.only ht.holds hm
  have hcontains : w₁.graph.contains child := by
    rw [ha₁.contains]
    exact st.contains_child hc
  have hop : Hop label none _ _ := .call hl ht.turn hcontains (st.child_not_mem hc)
  have habove : ∀ x ∈ id :: rest, child.index < x.index := by
    intro x hx
    rcases List.mem_cons.1 hx with rfl | hx
    · exact hlt
    · have hx := st.above x hx
      omega
  have hne : some id ≠ some child := by
    intro h
    cases h
    omega
  obtain ⟨k, used, last₂, w₂, hu, hleads, hlast, ha₂, hup⟩ :=
    hev he habove hne ((ha₁.trace "bt.stack.push" label child (rest.length + 2 : Nat)).enqueue _)
  have hl₂ : last₂ ≠ some id := by
    rcases hlast with rfl | rfl
    · simp
    · exact hne.symm
  obtain ⟨k', used', last₃, w₃, hu', hleads', hlast', ha₃, hup'⟩ :=
    hnext hl₂ ha₂ (ht.holds.congr (hup id hlt))
  refine ⟨k + k' + 1, used ++ used', last₃, w₃, ?_, ?_, hlast', ha₃, fun other h => ?_⟩
  · rw [hu, hu', List.append_assoc]
  · exact .hop hop (hleads.trans hleads')
  · exact (hup' other h).trans ((hup other (by omega)).trans (ht.only.above h))

/-- A child is back, and the composite is handed its result. -/
theorem receive {m' : FlowNode} {status : Status} {calls : List NodeId}
    (ha : Agrees g w c.world) (hm : w.Holds id m) (hr : m.Ready → m'.Ready)
    (hd : FlowNode.Does (m.receive · ok) c.world.blackboard m' status calls) :
    ∃ w₁, w.Turns id (some ok) w₁ m' status calls := by
  rw [← ha.blackboard] at hd
  obtain ⟨w₁, ht, ho, hm'⟩ := World.receive_flow hm hr hd
  exact ⟨w₁, ht, ho, hm'⟩

theorem receive_call (ok : Bool) (m' : FlowNode) (child : NodeId) (ha : Agrees g w c.world)
    (hm : w.Holds id m) (hr : m.Ready → m'.Ready)
    (hd : ∀ ctx, m.receive ctx ok = .call m' ctx child) :
    ∃ w₁, w.Turns id (some ok) w₁ m' .noReturn [child] :=
  receive ha hm hr (FlowNode.does_call fun ctx _ => hd ctx)

/-- The composite is executed. -/
theorem execute {Q : FlowNode → Prop} (status : Status) (calls : List NodeId)
    (st : Site g id n rest) (ha : Agrees g w c.world) (hc : n.Counts c.world.blackboard)
    (hd : ∀ m, n.Like m → m.Ready → ∃ m', Q m' ∧ m'.Ready ∧
      FlowNode.Does m.execute c.world.blackboard m' status calls) :
    ∃ w₁ m', w.Turns id none w₁ m' status calls ∧ Q m' := by
  rw [← ha.blackboard] at hc hd
  obtain ⟨m, hm, hl⟩ := ha.flow id n st.node
  obtain ⟨w₁, m', ht, ho, hm', hq⟩ := World.execute_flow hm hl hc hd
  exact ⟨w₁, m', ⟨ht, ho, hm'⟩, hq⟩

/-- Executed, a composite that is no loop ends at once. -/
theorem endsAtOnce (m' : FlowNode) (st : Site g id n rest) (hn : ∀ l, n ≠ .loop l)
    (hl : last ≠ some id) (ha : Agrees g w c.world) (hlike : n.Like m')
    (hd : ∀ m, n.Like m → ∀ ctx, m.execute ctx = .plain m' ctx (.of ok)) :
    Arrives g label id rest ⟨id :: rest, none, last, w⟩ c.outcomes ok c := by
  obtain ⟨w₁, m, ht, rfl⟩ := st.execute (Q := (· = m')) (.of ok) [] ha (.of_ne_loop hn)
    fun m hm _ => ⟨m', rfl, .of_ne_loop (hlike.ne_loop hn),
      FlowNode.does_plain fun ctx _ => hd m hm ctx⟩
  exact st.finish hl ha ht hlike

/-- Executed, a composite that is no loop calls a child. -/
theorem begins (m' : FlowNode) (st : Site g id n rest) (hev : Simulated g label evaluate)
    (hn : ∀ l, n ≠ .loop l) (hl : last ≠ some id) (ha : Agrees g w c.world) (hlike : n.Like m')
    (hd : ∀ m, n.Like m → ∀ ctx, m.execute ctx = .call m' ctx child) (hc : child ∈ n.children)
    (he : evaluate child c = some (ok₁, c₁))
    (hnext : ∀ {last w}, last ≠ some id → Agrees g w c₁.world → w.Holds id m' →
      Arrives g label id rest ⟨id :: rest, some ok₁, last, w⟩ c₁.outcomes ok' c') :
    Arrives g label id rest ⟨id :: rest, none, last, w⟩ c.outcomes ok' c' := by
  obtain ⟨w₁, m, ht, rfl⟩ := st.execute (Q := (· = m')) .noReturn [child] ha (.of_ne_loop hn)
    fun m hm _ => ⟨m', rfl, .of_ne_loop (hlike.ne_loop hn),
      FlowNode.does_call fun ctx _ => hd m hm ctx⟩
  exact st.call hev hl ha ht hlike hc he hnext

/-- With the result of a child, the composite ends. -/
theorem ends (m' : FlowNode) (st : Site g id n rest) (hl : last ≠ some id)
    (ha : Agrees g w c.world) (hm : w.Holds id m) (hlike : n.Like m') (hr : m.Ready → m'.Ready)
    (hd : ∀ ctx, m.receive ctx ok = .plain m' ctx (.of ok')) :
    Arrives g label id rest ⟨id :: rest, some ok, last, w⟩ c.outcomes ok' c := by
  obtain ⟨w₁, ht⟩ := receive ha hm hr (FlowNode.does_plain fun ctx _ => hd ctx)
  exact st.finish hl ha ht hlike

/-- With the result of a child, the composite calls the next one. -/
theorem proceeds (m' : FlowNode) (st : Site g id n rest) (hev : Simulated g label evaluate)
    (hl : last ≠ some id) (ha : Agrees g w c.world) (hm : w.Holds id m) (hlike : n.Like m')
    (hr : m.Ready → m'.Ready) (hd : ∀ ctx, m.receive ctx ok = .call m' ctx child)
    (hc : child ∈ n.children) (he : evaluate child c = some (ok₁, c₁))
    (hnext : ∀ {last w}, last ≠ some id → Agrees g w c₁.world → w.Holds id m' →
      Arrives g label id rest ⟨id :: rest, some ok₁, last, w⟩ c₁.outcomes ok' c') :
    Arrives g label id rest ⟨id :: rest, some ok, last, w⟩ c.outcomes ok' c' := by
  obtain ⟨w₁, ht⟩ := receive_call ok m' child ha hm hr hd
  exact st.call hev hl ha ht hlike hc he hnext

end Site

end BehaviorTree
