/-
The nodes of the library are obedient.

A node of the library errs only over a parameter: one that was never bound, or one whose
reference does not fit the variables. Binding comes before the first execution and leaves
every reference fitting, and variables keep their types, so neither happens; whatever else a
composite, a leaf or a service remembers of its run makes no difference. The work of an
action is the host's own, and has to keep to the rules by itself (`Action.Obliging`).
-/
import BehaviorTree.Library.Node
import BehaviorTree.Proofs.Flow.Like
import BehaviorTree.Proofs.Library.Children
import BehaviorTree.Proofs.World.Obedient

namespace BehaviorTree

section Steps

variable {τ : Type} {cs : List NodeId} {n : τ} {ctx : Context}

theorem proper_plain (ok : Bool) : (Step.plain n ctx (.of ok)).Proper cs ctx.blackboard :=
  ⟨⟨.refl _, rfl⟩, .ended ok⟩

theorem proper_call {c : NodeId} (h : c ∈ cs) : (Step.call n ctx c).Proper cs ctx.blackboard :=
  ⟨⟨.refl _, rfl⟩, .called h⟩

theorem whole_plain {α : Type} (answer : α) : (Step.plain n ctx answer).Whole ctx.blackboard :=
  ⟨.refl _, rfl⟩

theorem properHook_running : (Step.plain n ctx HookOutcome.running).ProperHook ctx.blackboard :=
  ⟨whole_plain _, rfl, nofun⟩

end Steps

/-! ## Composites -/

namespace Sequence

theorem execute_proper (s : Sequence) (ctx : Context) :
    (s.execute ctx).Proper s.children ctx.blackboard := by
  unfold execute
  simp only
  split
  · exact proper_plain false
  · next h => exact proper_call (by simp [h])

theorem receive_proper (s : Sequence) (ctx : Context) (ok : Bool) :
    (s.receive ctx ok).Proper s.children ctx.blackboard := by
  unfold receive
  simp only
  split
  · next h => exact proper_call (List.mem_of_getElem? h)
  · exact proper_plain ok

end Sequence

namespace Selector

theorem execute_proper (s : Selector) (ctx : Context) :
    (s.execute ctx).Proper s.children ctx.blackboard := by
  unfold execute
  simp only
  split
  · exact proper_plain false
  · next h => exact proper_call (by simp [h])

theorem receive_proper (s : Selector) (ctx : Context) (ok : Bool) :
    (s.receive ctx ok).Proper s.children ctx.blackboard := by
  unfold receive
  simp only
  split
  · exact proper_plain true
  split
  · next h => exact proper_call (List.mem_of_getElem? h)
  · exact proper_plain false

end Selector

namespace Condition

theorem receive_proper (c : Condition) (ctx : Context) (ok : Bool) :
    (c.receive ctx ok).Proper c.children ctx.blackboard := by
  have hc := (c.receive_within ctx ok).calls
  unfold receive at hc ⊢
  split
  · exact proper_plain ok
  split
  · next h =>
    refine proper_call ?_
    simp_all [Step.call]
  · exact proper_plain ok

end Condition

namespace Loop

theorem enterBody_proper {l l' : Loop} (ctx : Context) (hb : l'.body = l.body) :
    (l'.enterBody ctx).Proper l.children ctx.blackboard := by
  unfold enterBody
  simp only
  split
  · exact proper_plain true
  · next h =>
    exact proper_call (mem_children_of_mem_body (by rw [← hb, h]; exact List.mem_cons_self))

/-- A loop reads its count when it is executed, and errs over nothing else. -/
theorem execute_proper {l : Loop} (ctx : Context)
    (hc : ∀ count, l.kind = .times count → ∃ x, count.read ctx.blackboard = .ok (some x)) :
    (l.execute ctx).Proper l.children ctx.blackboard := by
  unfold execute
  simp only
  split
  · exact proper_plain true
  split
  · next count hk =>
    obtain ⟨x, hx⟩ := hc count hk
    rw [hx]
    simp only
    split
    · exact proper_plain true
    · exact enterBody_proper ctx rfl
  · next hk => exact proper_call (by simp [children, hk])
  · exact enterBody_proper ctx rfl

theorem nextIteration_proper (l : Loop) (ctx : Context) :
    (l.nextIteration ctx).Proper l.children ctx.blackboard := by
  unfold nextIteration
  simp only
  split
  · split
    · exact enterBody_proper ctx rfl
    · exact proper_plain true
  · next hk => exact proper_call (by simp [children, hk])
  · next hk => exact proper_call (by simp [children, hk])

theorem receive_proper (l : Loop) (ctx : Context) (ok : Bool) :
    (l.receive ctx ok).Proper l.children ctx.blackboard := by
  unfold receive
  split
  · split
    · exact enterBody_proper ctx rfl
    · exact proper_plain true
  split
  · next h => exact proper_call (mem_children_of_mem_body (List.mem_of_getElem? h))
  · exact nextIteration_proper l ctx

@[simp] theorem kind_enterBody (l : Loop) (ctx : Context) :
    (l.enterBody ctx).node.kind = l.kind := by
  unfold enterBody
  simp only
  split <;> rfl

theorem kind_execute (l : Loop) (ctx : Context) : (l.execute ctx).node.kind = l.kind := by
  unfold execute
  simp only
  split
  · rfl
  split
  · split
    · rfl
    · rfl
    · split
      · rfl
      · exact kind_enterBody ..
  · rfl
  · exact kind_enterBody ..

theorem kind_receive (l : Loop) (ctx : Context) (ok : Bool) :
    (l.receive ctx ok).node.kind = l.kind := by
  unfold receive
  split
  · split
    · exact kind_enterBody ..
    · rfl
  split
  · rfl
  · unfold nextIteration
    simp only
    split
    · split
      · exact kind_enterBody ..
      · rfl
    · rfl
    · rfl

end Loop

namespace FlowNode

variable {n : FlowNode} {b b' : Blackboard}

/-- If it is a counted loop, the reference of its count fits. -/
def Fits (n : FlowNode) (b : Blackboard) : Prop :=
  ∀ l count, n = .loop l → l.kind = .times count → count.Fits b

theorem Fits.keeps (h : n.Fits b) (hk : b.Keeps b') : n.Fits b' :=
  fun l count hn hl => (h l count hn hl).keeps hk

/-- The composite is the same but for how far its run got. -/
def SameCount (n n' : FlowNode) : Prop :=
  ∀ l', n' = .loop l' → ∃ l, n = .loop l ∧ l'.kind = l.kind

theorem Fits.same {n' : FlowNode} (h : n.Fits b) (hs : n.SameCount n') : n'.Fits b := by
  intro l' count hn hl
  obtain ⟨l, hn', hk⟩ := hs l' hn
  exact h l count hn' (hk ▸ hl)

theorem Ready.same {n' : FlowNode} (h : n.Ready) (hs : n.SameCount n') : n'.Ready := by
  intro l' id hn hl
  obtain ⟨l, hn', hk⟩ := hs l' hn
  exact h l id hn' (hk ▸ hl)

theorem sameCount_execute (n : FlowNode) (ctx : Context) : n.SameCount (n.execute ctx).node := by
  intro l' he
  cases n with
  | loop l =>
    cases he
    exact ⟨l, rfl, l.kind_execute ctx⟩
  | sequence _ | selector _ | condition _ | inverter _ => cases he

theorem sameCount_receive (n : FlowNode) (ctx : Context) (ok : Bool) :
    n.SameCount (n.receive ctx ok).node := by
  intro l' he
  cases n with
  | loop l =>
    cases he
    exact ⟨l, rfl, l.kind_receive ctx ok⟩
  | sequence _ | selector _ | condition _ | inverter _ => cases he

theorem sameCount_reset (n : FlowNode) : n.SameCount n.reset := by
  intro l' he
  cases n with
  | loop l =>
    cases he
    exact ⟨l', rfl, rfl⟩
  | sequence _ | selector _ | condition _ | inverter _ => cases he

theorem Fits.bind (h : n.Fits b) : (n.bind b).node.Fits b ∧
    ((n.bind b).answer = none → (n.bind b).node.Ready) := by
  cases n with
  | sequence _ | selector _ | condition _ | inverter _ =>
    exact ⟨h, fun _ => .of_ne_loop (by rintro _ ⟨⟩)⟩
  | loop l =>
    obtain ⟨kind, body, place, iteration, counted⟩ := l
    cases kind with
    | whileDo _ | doWhile _ => exact ⟨h, fun _ l id he hk => by cases he; cases hk⟩
    | times count =>
      have hc : count.Fits b := h _ count rfl rfl
      simp only [FlowNode.bind, Loop.bind]
      split
      · next count' hb =>
        obtain ⟨hf, hr⟩ := hc.bind hb
        refine ⟨fun l c he hk => ?_, fun _ l id he hk => ?_⟩
        · cases he
          cases hk
          exact hf
        · cases he
          exact hr id (LoopKind.times.inj hk)
      · exact ⟨h, by rintro ⟨⟩⟩

theorem execute_proper {ctx : Context} (hf : n.Fits ctx.blackboard) (hr : n.Ready) :
    (n.execute ctx).Proper n.children ctx.blackboard := by
  cases n with
  | sequence s => exact (s.execute_proper ctx).map _
  | selector s => exact (s.execute_proper ctx).map _
  | condition c => exact proper_call List.mem_cons_self
  | inverter child => exact proper_call List.mem_cons_self
  | loop l =>
    refine (l.execute_proper ctx fun count hk => ?_).map _
    exact (hf l count rfl hk).read fun id hid => hr l id rfl (hid ▸ hk)

theorem receive_proper (n : FlowNode) (ctx : Context) (ok : Bool) :
    (n.receive ctx ok).Proper n.children ctx.blackboard := by
  cases n with
  | sequence s => exact (s.receive_proper ctx ok).map _
  | selector s => exact (s.receive_proper ctx ok).map _
  | condition c => exact (c.receive_proper ctx ok).map _
  | loop l => exact (l.receive_proper ctx ok).map _
  | inverter child => exact proper_plain (!ok)

/-- A composite is obedient: it calls its children one at a time, and reads its count once
that is bound. -/
theorem obedient {l : Life FlowNode} (hf : l.node.Fits l.blackboard)
    (hr : l.bound = true → l.node.Ready) : l.Obedient l.node.children := by
  refine .of_invariant (I := fun x => x.node.children = l.node.children ∧
    x.node.Fits x.blackboard ∧ (x.bound = true → x.node.Ready)) ⟨rfl, hf, hr⟩ ?_ ?_
  · rintro ⟨b, bound, n⟩ ⟨hcs, hf, hr⟩
    rw [← hcs]
    refine ⟨fun hb ctx hc => ?_, fun _ ctx hc ok => ?_, fun ctx hc => ?_, fun ctx hc phase => ?_⟩
    all_goals cases hc
    · exact execute_proper hf (hr hb)
    · exact receive_proper n ctx ok
    · exact whole_plain _
    · exact properHook_running
  · rintro ⟨b, bound, n⟩ y ⟨hcs, hf, hr⟩ hn
    cases hn with
    | edited h => exact ⟨hcs, hf.keeps h, hr⟩
    | bind =>
      obtain ⟨hf', hr'⟩ := hf.bind
      exact ⟨(children_moves (.bind n b)).trans hcs, hf',
        fun hb => hr' (Option.isNone_iff_eq_none.1 hb)⟩
    | @execute hb ctx hc =>
      cases hc
      have hk := (execute_proper hf (hr hb)).keeps
      have hs := n.sameCount_execute ctx
      exact ⟨(children_moves (.execute n ctx)).trans hcs, (hf.same hs).keeps hk,
        fun hb => (hr hb).same hs⟩
    | @receive _ ctx hc ok =>
      cases hc
      have hk := (receive_proper n ctx ok).keeps
      have hs := n.sameCount_receive ctx ok
      exact ⟨(children_moves (.receive n ctx ok)).trans hcs, (hf.same hs).keeps hk,
        fun hb => (hr hb).same hs⟩
    | @stop ctx hc =>
      cases hc
      exact ⟨(children_moves (.stop n ctx)).trans hcs, hf.same n.sameCount_reset,
        fun hb => (hr hb).same n.sameCount_reset⟩
    | hook hc =>
      cases hc
      exact ⟨hcs, hf, hr⟩
    | ready | registered | unregistered => exact ⟨hcs, hf, hr⟩

end FlowNode

/-! ## Leaves -/

/-- Whatever becomes of the action, it ends or suspends its node, and changes variables by
declaring and setting them alone. -/
def Action.Obliging {α : Type} [Action α] (a : α) : Prop :=
  ∀ a', Relation.ReflTransGen (fun a a' => ∃ ctx, a' = (Action.act a ctx).node) a a' → ∀ ctx,
    (Action.act a' ctx).answer ∈ [.success, .failed, .wait, .waitUntilNextUpdate] ∧
    (Action.act a' ctx).effects.calls = [] ∧ (Action.act a' ctx).effects.broken = none ∧
    ctx.blackboard.Edited (Action.act a' ctx).effects.blackboard

theorem Action.Obliging.next {α : Type} [Action α] {a : α} (h : Action.Obliging a)
    (ctx : Context) : Action.Obliging (Action.act a ctx).node :=
  fun a' ha' => h a' (.head ⟨ctx, rfl⟩ ha')

theorem Action.Obliging.proper {α : Type} [Action α] {a : α} (h : Action.Obliging a)
    (cs : List NodeId) (ctx : Context) : (Action.act a ctx).Proper cs ctx.blackboard := by
  obtain ⟨ha, hc, hb, he⟩ := h a .refl ctx
  refine ⟨⟨he.keeps, hb⟩, ?_⟩
  rw [hc]
  generalize (Action.act a ctx).answer = answer at ha ⊢
  simp only [List.mem_cons, List.not_mem_nil, or_false] at ha
  rcases ha with rfl | rfl | rfl | rfl
  · exact .ended true
  · exact .ended false
  · exact .wait
  · exact .waitUntilNextUpdate

namespace LeafNode

variable {π α : Type} {n : LeafNode π α} {b b' : Blackboard}

/-- The reference of its parameter fits, if it is bound. -/
def Fits : LeafNode π α → Blackboard → Prop
  | waitTicks ticks, b => ticks.Fits b
  | log message _, b => message.Fits b
  | idle, _ | waitUntil .., _ | check _, _ | action _, _ => True

def Ready : LeafNode π α → Prop
  | waitTicks ticks => ticks.Ready
  | log message _ => message.Ready
  | idle | waitUntil .. | check _ | action _ => True

/-- The host's work is done by the rules. -/
def Obliging [Action α] (n : LeafNode π α) : Prop := ∀ a, n = .action a → Action.Obliging a

theorem Fits.keeps (h : n.Fits b) (hk : b.Keeps b') : n.Fits b' := by
  cases n with
  | waitTicks ticks => exact NumberField.Fits.keeps h hk
  | log message _ => exact Field.Fits.keeps h hk
  | idle | waitUntil | check | action => exact trivial

theorem Fits.bind (h : n.Fits b) : (n.bind b).node.Fits b ∧
    ((n.bind b).answer = none → (n.bind b).node.Ready) := by
  cases n with
  | waitTicks ticks =>
    simp only [LeafNode.bind]
    split
    · next hb =>
      obtain ⟨hf, hr⟩ := NumberField.Fits.bind h hb
      exact ⟨hf, fun _ => hr⟩
    · exact ⟨h, nofun⟩
  | log message _ =>
    simp only [LeafNode.bind]
    split
    · next hb =>
      obtain ⟨hf, hr⟩ := Field.Fits.bind h hb
      exact ⟨hf, fun _ => hr⟩
    · exact ⟨h, nofun⟩
  | idle | waitUntil | check | action => exact ⟨trivial, fun _ => trivial⟩

variable [Action α]

theorem Obliging.bind (h : n.Obliging) (b : Blackboard) : (n.bind b).node.Obliging := by
  cases n with
  | waitTicks | log =>
    simp only [LeafNode.bind]
    split <;> exact nofun
  | idle | waitUntil | check | action => exact h

/-- What a leaf was made with is the same in both. -/
structure Alike (n n' : LeafNode π α) : Prop where
  fits : ∀ b, n.Fits b → n'.Fits b
  ready : n.Ready → n'.Ready
  obliging : n.Obliging → n'.Obliging

theorem Alike.refl (n : LeafNode π α) : n.Alike n := ⟨fun _ h => h, fun h => h, fun h => h⟩

/-- A leaf without parameters and without an action is like any other. -/
theorem Alike.of_trivial {n' : LeafNode π α} (hf : ∀ b, n'.Fits b) (hr : n'.Ready)
    (ho : ∀ a, n' ≠ .action a) : n.Alike n' :=
  ⟨fun b _ => hf b, fun _ => hr, fun _ a ha => absurd ha (ho a)⟩

variable [Predicate π]

theorem alike_execute (n : LeafNode π α) (ctx : Context) : n.Alike (n.execute ctx).node := by
  cases n with
  | idle => exact .refl _
  | waitTicks ticks =>
    have hn : (executeWaitTicks ticks ctx : Step (LeafNode π α) Status).node
        = .waitTicks ticks := by
      unfold executeWaitTicks
      split
      · rfl
      · rfl
      · split <;> rfl
    rw [show (LeafNode.execute (.waitTicks ticks : LeafNode π α) ctx).node = _ from hn]
    exact .refl _
  | log message result =>
    have hn : (executeLog message result ctx : Step (LeafNode π α) Status).node
        = .log message result := by
      unfold executeLog
      split <;> rfl
    rw [show (LeafNode.execute (.log message result : LeafNode π α) ctx).node = _ from hn]
    exact .refl _
  | waitUntil p phase => exact .of_trivial (fun _ => trivial) trivial nofun
  | check p => exact .of_trivial (fun _ => trivial) trivial nofun
  | action a =>
    refine ⟨fun _ _ => trivial, fun _ => trivial, fun h a' ha' => ?_⟩
    cases ha'
    exact (h a rfl).next ctx

omit [Action α] in
theorem properHook (n : LeafNode π α) (ctx : Context) (phase : Phase) :
    (n.hook ctx phase).ProperHook ctx.blackboard := by
  cases n with
  | waitUntil p asked =>
    simp only [LeafNode.hook]
    split
    · exact properHook_running
    split
    · refine ⟨whole_plain _, rfl, fun status hs => ?_⟩
      cases hs
      exact .ended true
    · exact properHook_running
  | idle | waitTicks | log | check | action => exact properHook_running

theorem alike_hook (n : LeafNode π α) (ctx : Context) (phase : Phase) :
    n.Alike (n.hook ctx phase).node := by
  cases n with
  | waitUntil p asked =>
    simp only [LeafNode.hook]
    split
    · exact .refl _
    · exact .of_trivial (fun _ => trivial) trivial nofun
  | idle | waitTicks | log | check | action => exact .refl _

theorem execute_proper {ctx : Context} (hf : n.Fits ctx.blackboard) (hr : n.Ready)
    (ho : n.Obliging) (cs : List NodeId) : (n.execute ctx).Proper cs ctx.blackboard := by
  cases n with
  | idle => exact ⟨whole_plain _, .wait⟩
  | waitTicks ticks =>
    obtain ⟨x, hx⟩ := NumberField.Fits.read hf hr
    simp only [LeafNode.execute, executeWaitTicks, hx]
    split
    · exact proper_plain true
    · exact ⟨⟨.refl _, rfl⟩, .wait⟩
  | log message result =>
    obtain ⟨x, hx⟩ := Field.Fits.read hf hr
    simp only [LeafNode.execute, executeLog, hx]
    exact ⟨⟨.refl _, rfl⟩, .ended result⟩
  | waitUntil p phase =>
    simp only [LeafNode.execute]
    split
    · exact proper_plain true
    · exact ⟨whole_plain _, .wait⟩
  | check p => exact proper_plain _
  | action a => exact ((ho a rfl).proper cs ctx).map _

/-- A leaf is obedient, if the host's own work is. -/
theorem obedient {l : Life (LeafNode π α)} (hf : l.node.Fits l.blackboard)
    (hr : l.bound = true → l.node.Ready) (ho : l.node.Obliging) : l.Obedient [] := by
  refine .of_invariant (I := fun x => x.node.Fits x.blackboard ∧
    (x.bound = true → x.node.Ready) ∧ x.node.Obliging) ⟨hf, hr, ho⟩ ?_ ?_
  · rintro ⟨b, bound, n⟩ ⟨hf, hr, ho⟩
    refine ⟨fun hb ctx hc => ?_, fun h => absurd rfl h, fun ctx hc => ?_, fun ctx hc phase => ?_⟩
    all_goals cases hc
    · exact execute_proper hf (hr hb) ho []
    · exact whole_plain _
    · exact properHook n ctx phase
  · rintro ⟨b, bound, n⟩ y ⟨hf, hr, ho⟩ hn
    cases hn with
    | edited h => exact ⟨hf.keeps h, hr, ho⟩
    | bind =>
      obtain ⟨hf', hr'⟩ := hf.bind
      exact ⟨hf', fun hb => hr' (Option.isNone_iff_eq_none.1 hb), ho.bind b⟩
    | @execute hb ctx hc =>
      cases hc
      have hk := (execute_proper hf (hr hb) ho []).keeps
      have hs := n.alike_execute ctx
      exact ⟨(hs.fits _ hf).keeps hk, fun hb => hs.ready (hr hb), hs.obliging ho⟩
    | receive h => exact absurd rfl h
    | @hook ctx hc phase =>
      cases hc
      have hk := (n.properHook ctx phase).keeps
      have hs := n.alike_hook ctx phase
      exact ⟨(hs.fits _ hf).keeps hk, fun hb => hs.ready (hr hb), hs.obliging ho⟩
    | stop hc =>
      cases hc
      exact ⟨hf, hr, ho⟩
    | ready | registered | unregistered => exact ⟨hf, hr, ho⟩

end LeafNode

/-! ## Computations -/

/-- The reference of the output fits, if it is bound. -/
def NumberOutput.Fits (o : NumberOutput) (b : Blackboard) : Prop := ∀ r, o.bound = some r → r.Fits b

def VectorOutput.Fits (o : VectorOutput) (b : Blackboard) : Prop := ∀ r, o.bound = some r → r.Fits b

namespace Computation

variable {n : Computation} {b b' : Blackboard}

/-- The references of its parameters and of its output fit, as far as they are bound. -/
def Fits : Computation → Blackboard → Prop
  | copy .., _ => True
  | cosine input output, b => input.Fits b ∧ output.Fits b
  | atan2 y x output, b => y.Fits b ∧ x.Fits b ∧ output.Fits b
  | makeVector2 x y output, b => x.Fits b ∧ y.Fits b ∧ output.Fits b
  | compare left _ right, b => left.Fits b ∧ right.Fits b

/-- Nothing is left to bind. -/
def Ready : Computation → Prop
  | copy .. => True
  | cosine input output => input.Ready ∧ output.bound.isSome
  | atan2 y x output => y.Ready ∧ x.Ready ∧ output.bound.isSome
  | makeVector2 x y output => x.Ready ∧ y.Ready ∧ output.bound.isSome
  | compare left _ right => left.Ready ∧ right.Ready

theorem Fits.keeps (h : n.Fits b) (hk : b.Keeps b') : n.Fits b' := by
  cases n with
  | copy => exact trivial
  | cosine => exact ⟨h.1.keeps hk, fun r hr => (h.2 r hr).keeps hk⟩
  | atan2 => exact ⟨h.1.keeps hk, h.2.1.keeps hk, fun r hr => (h.2.2 r hr).keeps hk⟩
  | makeVector2 => exact ⟨h.1.keeps hk, h.2.1.keeps hk, fun r hr => (h.2.2 r hr).keeps hk⟩
  | compare => exact ⟨h.1.keeps hk, h.2.keeps hk⟩

/-- Binding came out well: what is bound fits, and all is bound unless that failed. -/
structure WellBound (b : Blackboard) (r : Reply Computation (Option VariableError)) : Prop where
  fits : r.node.Fits b
  ready : r.answer = none → r.node.Ready

/-- One parameter after the other: each is bound on top of those before it. -/
theorem wellBound_binding {α : Type} {bound : Except VariableError α}
    {next : α → Reply Computation (Option VariableError)} (hn : n.Fits b)
    (h : ∀ a, bound = .ok a → WellBound b (next a)) : WellBound b (binding n bound next) := by
  unfold binding
  split
  · exact ⟨hn, nofun⟩
  · exact h _ rfl

theorem Fits.bind (h : n.Fits b) : WellBound b (n.bind b) := by
  cases n with
  | copy => exact ⟨trivial, fun _ => trivial⟩
  | cosine input output =>
    refine wellBound_binding h fun input' hi => ?_
    obtain ⟨hif, hir⟩ := h.1.bind hi
    refine wellBound_binding ⟨hif, h.2⟩ fun r hr => ?_
    exact ⟨⟨hif, fun r' hr' => Option.some.inj hr' ▸ NumberRef.fits_of_bindNumber hr⟩,
      fun _ => ⟨hir, rfl⟩⟩
  | atan2 y x output =>
    refine wellBound_binding h fun y' hy => ?_
    obtain ⟨hyf, hyr⟩ := h.1.bind hy
    refine wellBound_binding ⟨hyf, h.2⟩ fun x' hx => ?_
    obtain ⟨hxf, hxr⟩ := h.2.1.bind hx
    refine wellBound_binding ⟨hyf, hxf, h.2.2⟩ fun r hr => ?_
    exact ⟨⟨hyf, hxf, fun r' hr' => Option.some.inj hr' ▸ NumberRef.fits_of_bindNumber hr⟩,
      fun _ => ⟨hyr, hxr, rfl⟩⟩
  | makeVector2 x y output =>
    refine wellBound_binding h fun x' hx => ?_
    obtain ⟨hxf, hxr⟩ := h.1.bind hx
    refine wellBound_binding ⟨hxf, h.2⟩ fun y' hy => ?_
    obtain ⟨hyf, hyr⟩ := h.2.1.bind hy
    refine wellBound_binding ⟨hxf, hyf, h.2.2⟩ fun r hr => ?_
    exact ⟨⟨hxf, hyf, fun r' hr' => Option.some.inj hr' ▸ VarRef.fits_of_bind hr⟩,
      fun _ => ⟨hxr, hyr, rfl⟩⟩
  | compare left comparison right =>
    refine wellBound_binding h fun left' hl => ?_
    obtain ⟨hlf, hlr⟩ := h.1.bind hl
    refine wellBound_binding ⟨hlf, h.2⟩ fun right' hr => ?_
    obtain ⟨hrf, hrr⟩ := h.2.bind hr
    exact ⟨⟨hlf, hrf⟩, fun _ => ⟨hlr, hrr⟩⟩

/-! What a computation reads is there, and what it writes it may write. -/

/-- The step is proper, and leaves the node as it is. -/
structure Computes (n : Computation) (ctx : Context) (step : Step Computation Status) : Prop where
  node : step.node = n
  proper : step.Proper [] ctx.blackboard

variable {ctx : Context}

theorem computes_plain (ok : Bool) : Computes n ctx (.plain n ctx (.of ok)) :=
  ⟨rfl, proper_plain ok⟩

theorem computes_reading {α : Type} {read : Except AccessError (Option α)}
    {next : α → Step Computation Status} (hr : ∃ a, read = .ok (some a))
    (h : ∀ a, Computes n ctx (next a)) : Computes n ctx (reading n ctx read next) := by
  obtain ⟨a, rfl⟩ := hr
  exact h a

theorem computes_writing {written : Except AccessError Blackboard}
    (h : ∃ b', written = .ok b' ∧ ctx.blackboard.Keeps b') :
    Computes n ctx (writing n ctx written) := by
  obtain ⟨b', rfl, hk⟩ := h
  exact ⟨rfl, ⟨hk, rfl⟩, .ended true⟩

theorem computes_output {out : NumberOutput} (hf : out.Fits ctx.blackboard)
    (hr : out.bound.isSome) (x : Float32) : Computes n ctx (output n ctx out x) := by
  obtain ⟨r, hr⟩ := Option.isSome_iff_exists.1 hr
  unfold output
  rw [hr]
  exact computes_writing ((hf r hr).write x)

theorem exists_readBoth {first second : NumberField} (hf : first.Fits b) (hr : first.Ready)
    (hf' : second.Fits b) (hr' : second.Ready) : ∃ p, readBoth first second b = .ok (some p) := by
  obtain ⟨x, hx⟩ := hf.read hr
  obtain ⟨y, hy⟩ := hf'.read hr'
  exact ⟨(x, y), by simp [readBoth, hx, hy]⟩

theorem keeps_of_copied {source target : VariableId} (h : copied source target b = some b') :
    b.Keeps b' := by
  unfold copied at h
  split at h
  · obtain ⟨w, -, hs⟩ := Option.bind_eq_some_iff.1 h
    cases hset : b.set target w with
    | error e => simp [hset, Except.toOption] at hs
    | ok b₁ =>
      obtain rfl : b₁ = b' := by simpa [hset, Except.toOption] using hs
      exact Blackboard.keeps_of_set hset
  · cases h

theorem execute_computes (hf : n.Fits ctx.blackboard) (hr : n.Ready) :
    Computes n ctx (n.execute ctx) := by
  cases n with
  | copy source target =>
    simp only [execute]
    split
    · exact computes_plain false
    · next hc => exact ⟨rfl, ⟨keeps_of_copied hc, rfl⟩, .ended true⟩
  | cosine input out =>
    exact computes_reading (hf.1.read hr.1) fun x => computes_output hf.2 hr.2 _
  | atan2 y x out =>
    refine computes_reading (exists_readBoth hf.1 hr.1 hf.2.1 hr.2.1) fun ⟨y, x⟩ => ?_
    simp only
    split
    · exact computes_plain false
    · exact computes_output hf.2.2 hr.2.2 _
  | makeVector2 x y out =>
    refine computes_reading (exists_readBoth hf.1 hr.1 hf.2.1 hr.2.1) fun p => ?_
    obtain ⟨r, hout⟩ := Option.isSome_iff_exists.1 hr.2.2
    rw [hout]
    exact computes_writing ((hf.2.2 r hout).write _)
  | compare left comparison right =>
    exact computes_reading (exists_readBoth hf.1 hr.1 hf.2 hr.2) fun p => computes_plain _

/-- A computation is obedient: once it is bound it reads and writes what is there. -/
theorem obedient {l : Life Computation} (hf : l.node.Fits l.blackboard)
    (hr : l.bound = true → l.node.Ready) : l.Obedient [] := by
  refine .of_invariant (I := fun x => x.node.Fits x.blackboard ∧
    (x.bound = true → x.node.Ready)) ⟨hf, hr⟩ ?_ ?_
  · rintro ⟨b, bound, n⟩ ⟨hf, hr⟩
    refine ⟨fun hb ctx hc => ?_, fun h => absurd rfl h, fun ctx hc => ?_, fun ctx hc phase => ?_⟩
    all_goals cases hc
    · exact (execute_computes hf (hr hb)).proper
    · exact whole_plain _
    · exact properHook_running
  · rintro ⟨b, bound, n⟩ y ⟨hf, hr⟩ hn
    cases hn with
    | edited h => exact ⟨hf.keeps h, hr⟩
    | bind =>
      obtain ⟨hf', hr'⟩ := hf.bind
      exact ⟨hf', fun hb => hr' (Option.isNone_iff_eq_none.1 hb)⟩
    | @execute hb ctx hc =>
      cases hc
      have hs := execute_computes hf (hr hb)
      simp only [Life.after]
      rw [show (Node.execute n ctx).node = n from hs.node]
      exact ⟨hf.keeps hs.proper.keeps, hr⟩
    | receive h => exact absurd rfl h
    | stop hc | hook hc =>
      cases hc
      exact ⟨hf, hr⟩
    | ready | registered | unregistered => exact ⟨hf, hr⟩

end Computation

/-! ## Services -/

namespace BackgroundNode

/-- A service of the library is obedient: it calls its subtree and hands on what comes of it. -/
theorem obedient (l : Life BackgroundNode) : l.Obedient [l.node.subtree] := by
  refine .of_invariant (I := fun x => x.node.subtree = l.node.subtree) rfl ?_ ?_
  · rintro ⟨b, bound, n⟩ hs
    rw [← hs]
    refine ⟨fun _ ctx hc => ?_, fun _ ctx hc ok => ?_, fun ctx hc => ?_, fun ctx hc phase => ?_⟩
    all_goals cases hc
    · exact proper_call (List.mem_singleton.2 rfl)
    · exact proper_plain ok
    · exact whole_plain _
    · exact properHook_running
  · rintro ⟨b, bound, n⟩ y hs hn
    cases hn with
    | edited => exact hs
    | bind => exact hs
    | @execute _ ctx => exact (subtree_moves (.execute n ctx)).trans hs
    | @receive _ ctx _ ok => exact (subtree_moves (.receive n ctx ok)).trans hs
    | @stop ctx => exact (subtree_moves (.stop n ctx)).trans hs
    | hook => exact hs
    | ready => exact hs
    | registered => exact (subtree_moves (.registered n)).trans hs
    | unregistered => exact (subtree_moves (.unregistered n)).trans hs

end BackgroundNode

/-! ## The library -/

namespace LibraryNode

variable {π α : Type}

/-- The references that the node has got so far fit; as a rule it has none until it is bound. -/
def Fits : LibraryNode π α → Blackboard → Prop
  | .inl n, b => n.Fits b
  | .inr (.inl n), b => n.Fits b
  | .inr (.inr (.inl n)), b => n.Fits b
  | .inr (.inr (.inr _)), _ => True

variable [Predicate π] [Action α]

/-- A node of the library is obedient until it is bound and from then on, if it is an action
that obliges or no action. -/
theorem obedient {n : LibraryNode π α} {b : Blackboard} (hf : n.Fits b)
    (ho : ∀ a, n = .leaf (.action a) → Action.Obliging a) :
    (⟨b, false, n⟩ : Life (LibraryNode π α)).Obedient (Node.children n) := by
  match n with
  | .inl n => exact (FlowNode.obedient (l := ⟨b, false, n⟩) hf nofun).inl
  | .inr (.inl n) =>
    have hn : n.Obliging := fun a ha => ho a (by rw [ha]; rfl)
    exact (LeafNode.obedient (l := ⟨b, false, n⟩) hf nofun hn).inl.inr
  | .inr (.inr (.inl n)) => exact (Computation.obedient (l := ⟨b, false, n⟩) hf nofun).inl.inr.inr
  | .inr (.inr (.inr n)) => exact (BackgroundNode.obedient ⟨b, false, n⟩).inr.inr.inr

end LibraryNode

end BehaviorTree
