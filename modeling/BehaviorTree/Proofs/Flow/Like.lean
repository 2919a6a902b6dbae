/-
A composite at work, compared with the composite as it was made.

What a composite is to do stays the same while it works; only how far it got changes, and
binding turns the variable of a counted loop into a reference to it (`FlowNode.Like`). Once
it is bound, a count is read whenever its variable has a number (`FlowNode.Ready`).
-/
import BehaviorTree.Proofs.Flow.Meaning

namespace BehaviorTree

/-! ## Numbers as parameters -/

namespace NumberField

theorem bindNumber_of_isSome {b : Blackboard} {id : VariableId}
    (h : ((b.get? id).bind Value.number?).isSome) : b.bindNumber id = .ok ⟨id⟩ := by
  obtain ⟨x, hx⟩ := Option.isSome_iff_exists.1 h
  obtain ⟨v, hv, hn⟩ := Option.bind_eq_some_iff.1 hx
  have ht : v.type.isNumeric := Value.isSome_number?_iff.1 (by simp [hn])
  simp [Blackboard.bindNumber, Blackboard.typeOf?, hv, ht]

/-- A parameter that has a value binds, and has the same value then on every blackboard. -/
theorem bind_of_value? {f : NumberField} {b : Blackboard} (h : (f.value? b).isSome) :
    ∃ f', f.bind b = .ok f' ∧ (∀ b', f'.value? b' = f.value? b') ∧ ∀ id, f' ≠ .unbound id := by
  cases f with
  | const x => exact ⟨.const x, rfl, fun _ => rfl, fun _ h => by cases h⟩
  | unbound id =>
    refine ⟨.bound ⟨id⟩, ?_, fun _ => rfl, fun _ h => by cases h⟩
    have hb := bindNumber_of_isSome h
    simp only [bind, hb]
    rfl
  | bound ref => exact ⟨.bound ref, rfl, fun _ => rfl, fun _ h => by cases h⟩

theorem read_of_value? {f : NumberField} {b : Blackboard} {x : Float32}
    (h : f.value? b = some x) (hf : ∀ id, f ≠ .unbound id) : f.read b = .ok (some x) := by
  cases f with
  | const y =>
    have hy : y = x := Option.some.inj h
    rw [hy]
    rfl
  | unbound id => exact absurd rfl (hf id)
  | bound ref =>
    have hr : (b.get? ref.id).bind Value.number? = some x := h
    simp only [read, Blackboard.readNumber, hr]
    rfl

end NumberField

/-! ## Composites -/

/-- The same number of runs, or the same condition. -/
inductive LoopKind.Like : LoopKind → LoopKind → Prop
  | times {count count' : NumberField} (h : ∀ b, count'.value? b = count.value? b) :
      Like (.times count) (.times count')
  | whileDo (condition : NodeId) : Like (.whileDo condition) (.whileDo condition)
  | doWhile (condition : NodeId) : Like (.doWhile condition) (.doWhile condition)

theorem LoopKind.Like.refl (k : LoopKind) : k.Like k := by
  cases k with
  | times count => exact .times fun _ => rfl
  | whileDo condition => exact .whileDo condition
  | doWhile condition => exact .doWhile condition

theorem LoopKind.Like.of_times {field : NumberField} {k : LoopKind}
    (h : (LoopKind.times field).Like k) : ∃ f, k = .times f ∧ ∀ b, f.value? b = field.value? b := by
  cases h with
  | times hv => exact ⟨_, rfl, hv⟩

theorem LoopKind.Like.of_whileDo {condition : NodeId} {k : LoopKind}
    (h : (LoopKind.whileDo condition).Like k) : k = .whileDo condition := by
  cases h
  rfl

theorem LoopKind.Like.of_doWhile {condition : NodeId} {k : LoopKind}
    (h : (LoopKind.doWhile condition).Like k) : k = .doWhile condition := by
  cases h
  rfl

namespace FlowNode

/-- The same composite, however far each one got. -/
inductive Like : FlowNode → FlowNode → Prop
  | sequence {s s' : Sequence} (h : s'.children = s.children) : Like (.sequence s) (.sequence s')
  | selector {s s' : Selector} (h : s'.children = s.children) : Like (.selector s) (.selector s')
  | loop {l l' : Loop} (kind : l.kind.Like l'.kind) (body : l'.body = l.body) :
      Like (.loop l) (.loop l')
  | condition {c c' : Condition} (condition : c'.condition = c.condition)
      (onTrue : c'.onTrue = c.onTrue) (onFalse : c'.onFalse = c.onFalse) :
      Like (.condition c) (.condition c')
  | inverter (child : NodeId) : Like (.inverter child) (.inverter child)

theorem Like.refl (n : FlowNode) : n.Like n := by
  cases n with
  | sequence s => exact .sequence rfl
  | selector s => exact .selector rfl
  | loop l => exact .loop (.refl l.kind) rfl
  | condition c => exact .condition rfl rfl rfl
  | inverter child => exact .inverter child

/-- If it is a counted loop, its count is bound. -/
def Ready (n : FlowNode) : Prop := ∀ l id, n = .loop l → l.kind ≠ .times (.unbound id)

theorem Ready.of_ne_loop {n : FlowNode} (h : ∀ l, n ≠ .loop l) : n.Ready :=
  fun l _ he => absurd he (h l)

theorem Like.ne_loop {n m : FlowNode} (h : n.Like m) (hn : ∀ l, n ≠ .loop l) :
    ∀ l, m ≠ .loop l := by
  cases h with
  | loop => exact absurd rfl (hn _)
  | sequence | selector | condition | inverter => exact nofun

theorem Ready.loop {l l' : Loop} (h : (FlowNode.loop l).Ready) (hk : l'.kind = l.kind) :
    (FlowNode.loop l').Ready := by
  intro x id he
  cases he
  rw [hk]
  exact h l id rfl

/-- If it is a counted loop, its count has a value. -/
def Counts (n : FlowNode) (b : Blackboard) : Prop :=
  ∀ l count, n = .loop l → l.kind = .times count → (count.value? b).isSome

theorem Counts.of_ne_loop {n : FlowNode} {b : Blackboard} (h : ∀ l, n ≠ .loop l) : n.Counts b :=
  fun l _ he => absurd he (h l)

theorem counts_of_value? {l : Loop} {b : Blackboard} {field : NumberField} {x : Float32}
    (hkind : l.kind = .times field) (hx : field.value? b = some x) : (loop l).Counts b := by
  intro l₁ f h hk
  cases h
  cases hkind.symm.trans hk
  simp [hx]

theorem counts_of_condition {l : Loop} {b : Blackboard} {condition : NodeId}
    (hkind : l.kind = .whileDo condition ∨ l.kind = .doWhile condition) : (loop l).Counts b := by
  intro l₁ f h hk
  cases h
  rcases hkind with h | h <;> cases h.symm.trans hk

/-- Once it is bound, a counted loop reads the number that its parameter has. -/
theorem Ready.read {l l' : Loop} {field : NumberField} {b : Blackboard} {x : Float32}
    (hr : (FlowNode.loop l').Ready) (hl : l.kind.Like l'.kind) (hkind : l.kind = .times field)
    (hx : field.value? b = some x) : ∃ f, l'.kind = .times f ∧ f.read b = .ok (some x) := by
  rw [hkind] at hl
  obtain ⟨f, hf, hv⟩ := hl.of_times
  refine ⟨f, hf, NumberField.read_of_value? ((hv b).trans hx) fun i hi => ?_⟩
  exact hr l' i rfl (hf.trans (congrArg _ hi))

/-- Binding succeeds where the count has a value, and leaves the composite ready. -/
theorem Like.bind {n m : FlowNode} (h : n.Like m) {b : Blackboard} (hc : n.Counts b) :
    (m.bind b).answer = none ∧ n.Like (m.bind b).node ∧ (m.bind b).node.Ready := by
  cases h with
  | sequence h => exact ⟨rfl, .sequence h, .of_ne_loop nofun⟩
  | selector h => exact ⟨rfl, .selector h, .of_ne_loop nofun⟩
  | condition h₁ h₂ h₃ => exact ⟨rfl, .condition h₁ h₂ h₃, .of_ne_loop nofun⟩
  | inverter child => exact ⟨rfl, .inverter child, .of_ne_loop nofun⟩
  | @loop l l' hk hb =>
    obtain ⟨kind, body, place, iteration, count⟩ := l'
    obtain ⟨kind₀, body₀, place₀, iteration₀, count₀⟩ := l
    simp only at hk hb
    cases hk with
    | @times field field' hv =>
      have hs : (field'.value? b).isSome := by
        rw [hv]
        exact hc _ field rfl rfl
      obtain ⟨f, hf, hfv, hu⟩ := NumberField.bind_of_value? hs
      simp only [FlowNode.bind, Loop.bind, hf]
      refine ⟨rfl, .loop (.times fun b' => (hfv b').trans (hv b')) hb, fun l id he hk => ?_⟩
      cases he
      exact hu id (LoopKind.times.inj hk)
    | whileDo condition =>
      exact ⟨rfl, .loop (.whileDo condition) hb, fun _ _ he hk => by cases he; cases hk⟩
    | doWhile condition =>
      exact ⟨rfl, .loop (.doWhile condition) hb, fun _ _ he hk => by cases he; cases hk⟩

end FlowNode

end BehaviorTree
