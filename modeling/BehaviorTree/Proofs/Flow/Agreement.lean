/-
The world of a stack, compared with that of a plain evaluation.

In a plain evaluation composites are never touched, on a stack they change with every turn.
Two worlds agree if they are the same to the leaves: in the variables, the clock, the leaves
themselves and what these did (`Agrees`). A leaf that runs in both keeps them in agreement,
and so does a composite that runs in one of them.
-/
import BehaviorTree.Proofs.World.Local
import BehaviorTree.Proofs.Flow.Like

namespace BehaviorTree

variable {τ : Type} [Node τ] {g : Graph (FlowNode ⊕ τ)}

def Graph.isLeaf (g : Graph (FlowNode ⊕ τ)) (id : NodeId) : Bool :=
  match g.node? id with
  | some (.inr _) => true
  | _ => false

/-- The composite at `id` got this far; if it is bound, then properly. -/
def World.Holds (w : World (FlowNode ⊕ τ)) (id : NodeId) (m : FlowNode) : Prop :=
  ∃ s, w.graph.slot? id = some s ∧ s.node = .inl m ∧ (s.bound = true → m.Ready)

/-- The world `w` of a stack and the world `v` of a plain evaluation of `g` are the same to
the leaves, and the composites in `w` are those of `g`. -/
structure Agrees (g : Graph (FlowNode ⊕ τ)) (w v : World (FlowNode ⊕ τ)) : Prop where
  blackboard : w.blackboard = v.blackboard
  tick : w.tick = v.tick
  contains : ∀ id, w.graph.contains id = g.contains id
  leaf : ∀ id, g.isLeaf id → w.graph.slot? id = v.graph.slot? id
  flow : ∀ id n, g.node? id = some (.inl n) → ∃ m, w.Holds id m ∧ n.Like m
  records : w.recordsOf g.isLeaf = v.recordsOf g.isLeaf

omit [Node τ] in
theorem Graph.isLeaf_eq_false {id : NodeId} {n : FlowNode} (h : g.node? id = some (.inl n)) :
    g.isLeaf id = false := by
  simp [Graph.isLeaf, h]

omit [Node τ] in
theorem Graph.ne_of_isLeaf {id other : NodeId} {n : FlowNode} (h : g.node? id = some (.inl n))
    (ho : g.isLeaf other) : other ≠ id := by
  rintro rfl
  rw [g.isLeaf_eq_false h] at ho
  cases ho

omit [Node τ] in
theorem World.Holds.congr {w w' : World (FlowNode ⊕ τ)} {id : NodeId} {m : FlowNode}
    (h : w.Holds id m) (hs : w'.graph.slot? id = w.graph.slot? id) : w'.Holds id m := by
  obtain ⟨s, hw, hm⟩ := h
  exact ⟨s, hs.trans hw, hm⟩

/-! ## Leaves, in both worlds -/

namespace Agrees

variable {w w' v v' : World (FlowNode ⊕ τ)} {id : NodeId}

omit [Node τ] in
theorem alike (h : Agrees g w v) (hid : g.isLeaf id) : World.Alike g.isLeaf id w v :=
  ⟨h.leaf id hid, h.blackboard, h.tick, h.records⟩

omit [Node τ] in
theorem of_alike (h : Agrees g w v) (hid : g.isLeaf id) (ha : World.Alike g.isLeaf id w' v')
    (hw : World.Local id w w') (hv : World.Local id v v') : Agrees g w' v' where
  blackboard := ha.blackboard
  tick := ha.tick
  contains other := (hw.contains other).trans (h.contains other)
  leaf other ho := by
    by_cases hne : other = id
    · rw [hne, ha.slot]
    · rw [hw.slot? other hne, hv.slot? other hne, h.leaf other ho]
  flow other n hn := by
    obtain ⟨m, hm, hl⟩ := h.flow other n hn
    exact ⟨m, hm.congr (hw.slot? other (Graph.ne_of_isLeaf hn hid).symm), hl⟩
  records := ha.records

theorem execute_leaf (h : Agrees g w v) (hid : g.isLeaf id) {d : Dispatch}
    (he : v.execute id = .ok (v', d)) :
    ∃ w', w.execute id = .ok (w', d) ∧ Agrees g w' v' ∧ World.Local id w w' := by
  obtain ⟨w', hw, ha⟩ := (h.alike hid).execute he
  have hl := World.Local.execute hw
  exact ⟨w', hw, h.of_alike hid ha hl (.execute he), hl⟩

theorem stop_leaf (h : Agrees g w v) (hid : g.isLeaf id) (he : v.stop id = .ok v') :
    ∃ w', w.stop id = .ok w' ∧ Agrees g w' v' ∧ World.Local id w w' := by
  obtain ⟨w', hw, ha⟩ := (h.alike hid).stop he
  have hl := World.Local.stop hw
  exact ⟨w', hw, h.of_alike hid ha hl (.stop he), hl⟩

/-! ## What the stack adds -/

omit [Node τ] in
theorem record (h : Agrees g w v) {r : Record} (hr : r.about? = none) :
    Agrees g (w.record r) v where
  blackboard := h.blackboard
  tick := h.tick
  contains := h.contains
  leaf := h.leaf
  flow := h.flow
  records := by rw [World.recordsOf_record_of_not (by simp [hr]), h.records]

omit [Node τ] in
theorem trace (h : Agrees g w v) (tag : String) (stack : StackLabel) (node : Option NodeId)
    (value : Int) : Agrees g (w.trace tag stack node value) v :=
  h.record rfl

omit [Node τ] in
theorem enqueue (h : Agrees g w v) (event : StackEvent) : Agrees g (w.enqueue event) v :=
  ⟨h.blackboard, h.tick, h.contains, h.leaf, h.flow, h.records⟩

end Agrees

/-! ## Composites, on the stack only -/

namespace World

variable {σ : Type}

/-- A step of the node at `id` that changes nothing but the node. -/
structure Only (id : NodeId) (w w' : World σ) : Prop extends Local id w w' where
  blackboard : w'.blackboard = w.blackboard
  tick : w'.tick = w.tick
  records : ∀ p : NodeId → Bool, p id = false → w'.recordsOf p = w.recordsOf p

namespace Only

variable {id : NodeId} {w : World σ}

theorem refl (w : World σ) : Only id w w := ⟨.refl w, rfl, rfl, fun _ _ => rfl⟩

theorem trans {w₁ w₂ w₃ : World σ} (h : Only id w₁ w₂) (h' : Only id w₂ w₃) : Only id w₁ w₃ :=
  ⟨h.toLocal.trans h'.toLocal, h'.blackboard.trans h.blackboard, h'.tick.trans h.tick,
    fun p hp => (h'.records p hp).trans (h.records p hp)⟩

theorem modify (id : NodeId) (w : World σ) (f : Slot σ → Slot σ) : Only id w (w.modify id f) :=
  ⟨.modify w f, rfl, rfl, fun _ _ => rfl⟩

theorem record (w : World σ) {r : Record} (hr : r.about? = some id) : Only id w (w.record r) :=
  ⟨(Local.refl w).of_graph rfl rfl, rfl, rfl,
    fun p hp => recordsOf_record_of_not (by simp [hr, hp])⟩

theorem schedule (w : World σ) (s : Schedule) : Only id w { w with schedule := s } :=
  ⟨(Local.refl w).of_graph rfl rfl, rfl, rfl, fun _ _ => rfl⟩

theorem hear (w : World σ) (messages : List Message) : Only id w (w.hear id messages) := by
  unfold World.hear
  induction messages generalizing w with
  | nil => exact refl w
  | cons m ms ih => exact (record w rfl).trans (ih _)

theorem setBlackboard {b : Blackboard} (hb : b = w.blackboard) :
    Only id w { w with blackboard := b } :=
  ⟨(Local.refl w).of_graph rfl rfl, hb, rfl, fun _ _ => rfl⟩

theorem keep {α : Type} {step : Step σ α} (hb : step.effects.blackboard = w.blackboard) :
    Only id w (w.keep id step) := by
  have hm := modify id w fun s => { s with node := step.node }
  have hs : Only id _ _ := setBlackboard (hb.trans hm.blackboard.symm)
  have hh := hm.trans (hs.trans (hear _ step.effects.messages))
  unfold World.keep
  split
  · exact hh
  · exact hh.trans (record _ rfl)

theorem absorb {α : Type} {step : Step σ α} (activation : Nat)
    (hb : step.effects.blackboard = w.blackboard) :
    Only id w (w.absorb id activation step) :=
  (keep hb).trans ((modify _ _ _).trans (schedule _ _))

theorem keepReply {α : Type} (w : World σ) (call : Call) (reply : Reply σ α) :
    Only id w (w.keepReply id call reply) :=
  (record w rfl).trans ((modify _ _ _).trans (hear _ _))

end Only

end World

/-- A step that leaves the composite at `m`, answers `status` and calls `calls`, and that
asks for nothing else. -/
def FlowNode.Does (step : Context → Step FlowNode Status) (b : Blackboard) (m : FlowNode)
    (status : Status) (calls : List NodeId) : Prop :=
  ∀ ctx, ctx.blackboard = b → step ctx = ⟨m, status, { blackboard := b, calls }⟩

namespace FlowNode

theorem does_call {step : Context → Step FlowNode Status} {b : Blackboard} {m : FlowNode}
    {child : NodeId} (h : ∀ ctx, ctx.blackboard = b → step ctx = .call m ctx child) :
    Does step b m .noReturn [child] := by
  intro ctx hb
  rw [h ctx hb, ← hb]
  rfl

theorem does_plain {step : Context → Step FlowNode Status} {b : Blackboard} {m : FlowNode}
    {status : Status} (h : ∀ ctx, ctx.blackboard = b → step ctx = .plain m ctx status) :
    Does step b m status [] := by
  intro ctx hb
  rw [h ctx hb, ← hb]
  rfl

end FlowNode

namespace World

variable {w : World (FlowNode ⊕ τ)} {id : NodeId} {m m' : FlowNode} {status : Status}
  {calls : List NodeId}

/-- Binding a composite, unless it is bound already. -/
theorem bindOnce_flow {s : Slot (FlowNode ⊕ τ)} (slot : Slot (FlowNode ⊕ τ)) {n : FlowNode}
    (hs : w.graph.slot? id = some s) (hsn : s.node = .inl m)
    (hn : slot.node = .inl m) (hr : slot.bound = true → m.Ready) (hl : n.Like m)
    (hc : n.Counts w.blackboard) :
    ∃ w' m', w.bindOnce id slot = (w', .inl m', none) ∧ Only id w w' ∧ n.Like m' ∧ m'.Ready ∧
      ∃ s', w'.graph.slot? id = some s' ∧ s'.node = .inl m' := by
  unfold World.bindOnce
  split
  · next hb => exact ⟨w, m, by rw [hn], .refl w, hl, hr hb, s, hs, hsn⟩
  · obtain ⟨ha, hl', hr'⟩ := hl.bind hc
    have hbind : Node.bind slot.node w.blackboard
        = (⟨.inl (m.bind w.blackboard).node, none, (m.bind w.blackboard).messages⟩ :
            Reply (FlowNode ⊕ τ) (Option VariableError)) := by
      rw [hn, ← ha]
      rfl
    rw [hbind]
    exact ⟨_, _, rfl, (Only.keepReply w _ _).trans (.modify _ _ _), hl', hr', _,
      slot?_modify (slot?_keepReply hs _ _) _, rfl⟩

/-- A composite is executed: where its steps, once it is bound, all do the same, that is
what comes of it. -/
theorem execute_flow {n : FlowNode} {Q : FlowNode → Prop} (hm : w.Holds id m) (hl : n.Like m)
    (hc : n.Counts w.blackboard)
    (hd : ∀ m, n.Like m → m.Ready → ∃ m', Q m' ∧ m'.Ready ∧
      FlowNode.Does m.execute w.blackboard m' status calls) :
    ∃ w' m', w.execute id = .ok (w', .answered status calls) ∧ Only id w w' ∧
      w'.Holds id m' ∧ Q m' := by
  obtain ⟨s, hs, hsn, hb⟩ := hm
  have ho := Only.modify id w fun t => { t with activation := s.activation + 1 }
  have hs₁ := slot?_modify hs fun t => { t with activation := s.activation + 1 }
  obtain ⟨w₁, m₁, hbind, ho₁, hl₁, hr₁, s₁, hs₁, hsn₁⟩ :=
    bindOnce_flow s hs₁ hsn hsn hb hl (by rwa [ho.blackboard])
  obtain ⟨m', hq, hr', hdo⟩ := hd m₁ hl₁ hr₁
  have hbb : w₁.blackboard = w.blackboard := ho₁.blackboard.trans ho.blackboard
  have hstep : Node.execute (.inl m₁ : FlowNode ⊕ τ) (w₁.context id (s.activation + 1))
      = ⟨.inl m', status, { blackboard := w.blackboard, calls }⟩ :=
    congrArg (Step.map Sum.inl) (hdo _ hbb)
  refine ⟨_, m', by simp only [World.execute, hs, hbind, hstep]; rfl, ?_, ?_, hq⟩
  · exact (ho.trans ho₁).trans ((Only.record w₁ rfl).trans (Only.absorb _ hbb.symm))
  · exact ⟨_, slot?_absorb (w := w₁.record _) hs₁ _ _, rfl, fun _ => hr'⟩

/-- A composite is handed the result of its child. -/
theorem receive_flow {ok : Bool} (hm : w.Holds id m) (hr : m.Ready → m'.Ready)
    (hd : FlowNode.Does (m.receive · ok) w.blackboard m' status calls) :
    ∃ w', w.receive id ok = .ok (w', .answered status calls) ∧ Only id w w' ∧
      w'.Holds id m' := by
  obtain ⟨s, hs, hsn, hb⟩ := hm
  have hstep : Node.receive (.inl m : FlowNode ⊕ τ) (w.context id s.activation) ok
      = ⟨.inl m', status, { blackboard := w.blackboard, calls }⟩ :=
    congrArg (Step.map Sum.inl) (hd _ rfl)
  refine ⟨_, by simp only [World.receive, hs, hsn, hstep]; rfl, ?_, ?_⟩
  · exact (Only.record w rfl).trans (Only.absorb _ rfl)
  · exact ⟨_, slot?_absorb (w := w.record _) hs _ _, rfl, fun h => hr (hb h)⟩

/-- A composite leaves its stack. -/
theorem stop_flow (hm : w.Holds id m) :
    ∃ w', w.stop id = .ok w' ∧ Only id w w' ∧ w'.Holds id m.reset := by
  obtain ⟨s, hs, hsn, hb⟩ := hm
  have hstep : Node.stop (.inl m : FlowNode ⊕ τ) (w.context id s.activation)
      = ⟨.inl m.reset, (), { blackboard := w.blackboard }⟩ := rfl
  refine ⟨_, by simp only [World.stop, hs, hsn, hstep]; rfl, ?_, ?_⟩
  · exact (Only.record w rfl).trans ((Only.keep rfl).trans ((Only.modify _ _ _).trans
      (Only.schedule _ _)))
  · refine ⟨_, slot?_modify (slot?_keep (w := w.record _) hs _) _, rfl, fun h => ?_⟩
    intro l i he
    cases m with
    | loop _ =>
      cases he
      exact hb h l i rfl
    | sequence _ | selector _ | condition _ | inverter _ => cases he

end World

namespace Agrees

variable {w w' v : World (FlowNode ⊕ τ)} {id : NodeId} {n m : FlowNode}

omit [Node τ] in
/-- What a composite changes on the stack, leaves do not see. -/
theorem of_only (h : Agrees g w v) (hn : g.node? id = some (.inl n)) (ho : World.Only id w w')
    (hm : w'.Holds id m) (hl : n.Like m) : Agrees g w' v where
  blackboard := ho.blackboard.trans h.blackboard
  tick := ho.tick.trans h.tick
  contains other := (ho.contains other).trans (h.contains other)
  leaf other hother := by
    rw [ho.slot? other (Graph.ne_of_isLeaf hn hother), h.leaf other hother]
  flow other k hk := by
    by_cases hne : other = id
    · subst hne
      cases hn.symm.trans hk
      exact ⟨m, hm, hl⟩
    · obtain ⟨m', hm', hl'⟩ := h.flow other k hk
      exact ⟨m', hm'.congr (ho.slot? other hne), hl'⟩
  records := (ho.records _ (g.isLeaf_eq_false hn)).trans h.records

end Agrees

end BehaviorTree
