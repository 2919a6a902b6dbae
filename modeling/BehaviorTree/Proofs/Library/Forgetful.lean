/-
The nodes of the library forget their runs.

A composite is started afresh whenever it is executed, and what it has kept of an earlier run
is written anew before it calls a child; a service is started afresh when it is registered. A
leaf and a computation remember nothing but what they are bound to. A predicate or an action
of the host's own has to be stateless for that.
-/
import BehaviorTree.Proofs.Library.Obedient
import BehaviorTree.Proofs.World.Forgetful

namespace BehaviorTree

/-! ## Composites -/

namespace Loop

/-- A loop that is not counted never writes its count. -/
def form (l : Loop) : Loop :=
  { l with
    place := .body 0
    iteration := 0
    count := match l.kind with
      | .times _ => 0
      | _ => l.count }

theorem form_congr {l l' : Loop} (hk : l'.kind = l.kind) (hb : l'.body = l.body)
    (hc : (∀ count, l.kind ≠ .times count) → l'.count = l.count) : l'.form = l.form := by
  obtain ⟨kind, body, place, iteration, count⟩ := l
  obtain ⟨kind', body', place', iteration', count'⟩ := l'
  cases hk
  cases hb
  cases kind with
  | times _ => rfl
  | whileDo _ | doWhile _ =>
    obtain rfl : count' = count := hc fun _ => nofun
    rfl

theorem eq_of_form {l l' : Loop} (h : l.form = l'.form) :
    l'.kind = l.kind ∧ l'.body = l.body ∧
      ((∀ count, l.kind ≠ .times count) → l'.count = l.count) := by
  obtain ⟨kind, body, place, iteration, count⟩ := l
  obtain ⟨kind', body', place', iteration', count'⟩ := l'
  obtain rfl : kind = kind' := congrArg Loop.kind h
  obtain rfl : body = body' := congrArg Loop.body h
  refine ⟨rfl, rfl, fun hn => ?_⟩
  have hc := congrArg Loop.count h
  cases kind with
  | times count => exact absurd rfl (hn count)
  | whileDo _ | doWhile _ => exact hc.symm

section Retains

variable {l l' : Loop} (k : Nat) (ctx : Context)

theorem enterBody_retains (h : l'.form = l.form) : (l'.enterBody ctx).Retains form l
    ctx.blackboard k (l'.enterBody (ctx.later k)) := by
  unfold enterBody
  simp only
  split <;> exact Step.retains_of_form h rfl rfl

theorem execute_retains (l : Loop) : (l.execute ctx).Retains form l
    ctx.blackboard k (l.execute (ctx.later k)) := by
  unfold execute
  simp only [show (ctx.later k).blackboard = ctx.blackboard from rfl]
  split
  · exact Step.retains_of_form rfl rfl rfl
  split
  · next hk =>
    split
    · exact Step.retains_of_form rfl rfl rfl
    · exact Step.retains_of_form rfl rfl rfl
    have hcounted : ∀ c : Nat, form { l with iteration := 0, count := c } = l.form := fun c =>
      form_congr rfl rfl fun hn => absurd hk (hn _)
    split
    · exact Step.retains_of_form (hcounted _) rfl rfl
    · exact enterBody_retains k ctx (hcounted _)
  · exact Step.retains_of_form rfl rfl rfl
  · exact enterBody_retains k ctx rfl

theorem nextIteration_retains (l : Loop) : (l.nextIteration ctx).Retains form l
    ctx.blackboard k (l.nextIteration (ctx.later k)) := by
  unfold nextIteration
  simp only
  split
  · split
    · exact enterBody_retains k ctx rfl
    · exact Step.retains_of_form rfl rfl rfl
  · exact Step.retains_of_form rfl rfl rfl
  · exact Step.retains_of_form rfl rfl rfl

theorem receive_retains (l : Loop) (ok : Bool) : (l.receive ctx ok).Retains form l
    ctx.blackboard k (l.receive (ctx.later k) ok) := by
  unfold receive
  split
  · split
    · exact enterBody_retains k ctx rfl
    · exact Step.retains_of_form rfl rfl rfl
  split
  · exact Step.retains_of_form rfl rfl rfl
  · exact nextIteration_retains k ctx l

end Retains

/-- A loop that is executed begins with its place and its iterations anew, and with its count if
it goes by one. -/
theorem execute_alike {l l' : Loop} (ctx : Context) (h : l.form = l'.form) :
    (l.execute ctx).answer = (l'.execute ctx).answer ∧
    (l.execute ctx).effects = (l'.execute ctx).effects ∧
    ((l.execute ctx).effects.calls ≠ [] → (l.execute ctx).node = (l'.execute ctx).node) := by
  obtain ⟨hk, hb, hc⟩ := eq_of_form h
  obtain ⟨kind, body, place, iteration, count⟩ := l
  obtain ⟨kind', body', place', iteration', count'⟩ := l'
  cases hk
  cases hb
  cases body with
  | nil => exact ⟨rfl, rfl, fun hn => absurd rfl hn⟩
  | cons first rest =>
    cases kind with
    | times c =>
      simp only [execute, List.isEmpty_cons, Bool.false_eq_true, if_false]
      split
      · exact ⟨rfl, rfl, fun hn => absurd rfl hn⟩
      · exact ⟨rfl, rfl, fun hn => absurd rfl hn⟩
      split
      · exact ⟨rfl, rfl, fun hn => absurd rfl hn⟩
      · exact ⟨rfl, rfl, fun _ => rfl⟩
    | whileDo c | doWhile c =>
      obtain rfl : count' = count := hc fun _ => nofun
      exact ⟨rfl, rfl, fun _ => rfl⟩

/-- Binding a loop again comes to the same, and once its count is bound nothing is left. -/
theorem bind_again {l : Loop} {b b' : Blackboard} (hk : b.Keeps b') :
    (l.bind b).node.bind b' = l.bind b' ∧
      ((l.bind b).answer = none → l.bind b' = ⟨(l.bind b).node, none, []⟩) := by
  obtain ⟨kind, body, place, iteration, count⟩ := l
  cases kind with
  | whileDo _ | doWhile _ => exact ⟨rfl, fun _ => rfl⟩
  | times f =>
    cases hf : f.bind b with
    | error e => simp [bind, hf]
    | ok f' =>
      obtain ⟨hb, hb'⟩ := NumberField.bind_again hk hf
      simp [bind, hf, hb, hb']

end Loop

namespace FlowNode

def form : FlowNode → FlowNode
  | sequence s => sequence { s with cursor := 0 }
  | selector s => selector { s with cursor := 0 }
  | loop l => loop l.form
  | condition c => condition { c with branching := false }
  | inverter child => inverter child

theorem execute_retains (n : FlowNode) (k : Nat) (ctx : Context) :
    (n.execute ctx).Retains form n ctx.blackboard k (n.execute (ctx.later k)) := by
  cases n with
  | sequence s =>
    simp only [execute, Sequence.execute]
    split <;> exact Step.retains_of_form rfl rfl rfl
  | selector s =>
    simp only [execute, Selector.execute]
    split <;> exact Step.retains_of_form rfl rfl rfl
  | condition c => exact Step.retains_of_form rfl rfl rfl
  | loop l => exact (l.execute_retains k ctx).map fun _ => rfl
  | inverter child => exact Step.retains_of_form rfl rfl rfl

theorem receive_retains (n : FlowNode) (k : Nat) (ctx : Context) (ok : Bool) :
    (n.receive ctx ok).Retains form n ctx.blackboard k (n.receive (ctx.later k) ok) := by
  cases n with
  | sequence s =>
    simp only [receive, Sequence.receive]
    split <;> exact Step.retains_of_form rfl rfl rfl
  | selector s =>
    simp only [receive, Selector.receive]
    split
    · exact Step.retains_of_form rfl rfl rfl
    split <;> exact Step.retains_of_form rfl rfl rfl
  | condition c =>
    simp only [receive, Condition.receive]
    split
    · exact Step.retains_of_form rfl rfl rfl
    split <;> exact Step.retains_of_form rfl rfl rfl
  | loop l => exact (l.receive_retains k ctx ok).map fun _ => rfl
  | inverter child => exact Step.retains_of_form rfl rfl rfl

theorem form_reset (n : FlowNode) : n.reset.form = n.form := by
  cases n <;> rfl

/-- A composite that is executed begins anew. -/
theorem execute_alike {n n' : FlowNode} (ctx : Context) (h : n.form = n'.form) :
    (n.execute ctx).answer = (n'.execute ctx).answer ∧
    (n.execute ctx).effects = (n'.execute ctx).effects ∧
    ((n.execute ctx).effects.calls ≠ [] → (n.execute ctx).node = (n'.execute ctx).node) := by
  -- But for loops, the node that is executed is its form.
  have hform : ∀ {n : FlowNode}, (∀ l, n ≠ .loop l) → n.execute ctx = n.form.execute ctx := by
    intro n hn
    cases n with
    | loop l => exact absurd rfl (hn l)
    | sequence _ | selector _ | condition _ | inverter _ => rfl
  cases n with
  | loop l =>
    cases n' with
    | loop l' =>
      obtain ⟨ha, he, hn⟩ := Loop.execute_alike ctx (FlowNode.loop.inj h)
      exact ⟨ha, he, fun hc => congrArg loop (hn hc)⟩
    | sequence _ | selector _ | condition _ | inverter _ => cases h
  | sequence _ | selector _ | condition _ | inverter _ =>
    have hn' : ∀ l, n' ≠ .loop l := by
      rintro l rfl
      cases h
    rw [hform (by rintro _ ⟨⟩), hform hn', h]
    exact ⟨rfl, rfl, fun _ => rfl⟩

instance : Node.Forgetful FlowNode where
  form := form
  Fair _ := True
  fair_moves _ _ := trivial
  bind_form n b := by
    cases n with
    | loop l =>
      obtain ⟨kind, body, place, iteration, count⟩ := l
      cases kind with
      | times f =>
        simp only [Node.bind, bind, form, Loop.form, Loop.bind]
        cases f.bind b <;> rfl
      | whileDo _ | doWhile _ => rfl
    | sequence _ | selector _ | condition _ | inverter _ => rfl
  bind_still {n b} h := by
    cases n with
    | loop l =>
      obtain ⟨kind, body, place, iteration, count⟩ := l
      cases kind with
      | times f =>
        simp only [Node.bind, bind, Loop.bind] at h ⊢
        cases hf : f.bind b with
        | error e => rfl
        | ok f' =>
          rw [hf] at h
          obtain rfl : f' = f := LoopKind.times.inj (congrArg Loop.kind (FlowNode.loop.inj h))
          rfl
      | whileDo _ | doWhile _ => rfl
    | sequence _ | selector _ | condition _ | inverter _ => rfl
  bind_again {n b b'} hk := by
    cases n with
    | loop l => exact congrArg (Reply.map loop) (Loop.bind_again hk).1
    | sequence _ | selector _ | condition _ | inverter _ => rfl
  bind_done {n b b'} hk ha := by
    cases n with
    | loop l => exact congrArg (Reply.map loop) ((Loop.bind_again hk).2 ha)
    | sequence _ | selector _ | condition _ | inverter _ => rfl
  bind_quiet n b := by
    cases n with
    | loop l =>
      obtain ⟨kind, body, place, iteration, count⟩ := l
      cases kind with
      | times f =>
        simp only [Node.bind, bind, Loop.bind]
        cases f.bind b <;> rfl
      | whileDo _ | doWhile _ => rfl
    | sequence _ | selector _ | condition _ | inverter _ => rfl
  execute_retains {n} k ctx _ _ _ := n.execute_retains k ctx
  execute_alike ctx _ _ h := execute_alike ctx h
  receive_retains := receive_retains
  stop_retains n k ctx := Step.retains_of_form n.form_reset rfl rfl

end FlowNode

/-! ## Leaves -/

/-- Asking the predicate does not change it. -/
def Predicate.Stateless {π : Type} [Predicate π] (p : π) : Prop :=
  ∀ b, (Predicate.holds p b).2 = p

/-- Acting does not change the action, and changes variables by declaring and setting them alone.
The action does not look at the number of its execution. It may hand it on in a token. -/
structure Action.Stateless {α : Type} [Action α] (a : α) : Prop where
  same : ∀ ctx : Context, (Action.act a ctx).node = a
  edits : ∀ ctx : Context, ctx.blackboard.Edited (Action.act a ctx).effects.blackboard
  later : ∀ (k : Nat) (ctx : Context), Action.act a (ctx.later k) = (Action.act a ctx).later k

namespace LeafNode

variable {π α : Type} {n : LeafNode π α}

theorem bind_again {b b' : Blackboard} (hk : b.Keeps b') :
    (n.bind b).node.bind b' = n.bind b' ∧
      ((n.bind b).answer = none → n.bind b' = ⟨(n.bind b).node, none, []⟩) := by
  cases n with
  | waitTicks f =>
    cases hf : f.bind b with
    | error e => simp [bind, hf]
    | ok f' =>
      obtain ⟨hb, hb'⟩ := NumberField.bind_again hk hf
      simp [bind, hf, hb, hb']
  | log f result =>
    cases hf : f.bind b with
    | error e => simp [bind, hf]
    | ok f' =>
      obtain ⟨hb, hb'⟩ := Field.bind_again hk hf
      simp [bind, hf, hb, hb']
  | idle | waitUntil | check | action => exact ⟨rfl, fun _ => rfl⟩

theorem bind_traits [Predicate π] [Action α] (n : LeafNode π α) (b : Blackboard) :
    Node.traits (n.bind b).node = Node.traits n := by
  cases n with
  | waitTicks | log =>
    simp only [bind]
    split <;> rfl
  | idle | waitUntil | check | action => rfl

theorem bind_quiet (n : LeafNode π α) (b : Blackboard) : (n.bind b).messages = [] := by
  cases n with
  | waitTicks | log =>
    simp only [bind]
    split <;> rfl
  | idle | waitUntil | check | action => rfl

variable [Predicate π] [Action α]

/-- What the host put into the leaf is stateless. -/
def Stateless : LeafNode π α → Prop
  | waitUntil p _ | check p => Predicate.Stateless p
  | action a => Action.Stateless a
  | idle | waitTicks _ | log .. => True

theorem execute_retains (h : n.Stateless) (k : Nat) (ctx : Context) :
    (n.execute ctx).Retains id n ctx.blackboard k (n.execute (ctx.later k)) := by
  cases n with
  | idle => exact Step.retains_of_form rfl rfl rfl
  | waitTicks f =>
    simp only [execute, executeWaitTicks, show (ctx.later k).blackboard = ctx.blackboard from rfl]
    split
    · exact Step.retains_of_form rfl rfl rfl
    · exact Step.retains_of_form rfl rfl rfl
    · split <;> exact Step.retains_of_form rfl rfl rfl
  | waitUntil p phase =>
    exact Step.retains_of_form (congrArg (waitUntil · phase) (h _)) rfl rfl
  | log f result =>
    simp only [execute, executeLog, show (ctx.later k).blackboard = ctx.blackboard from rfl]
    split <;> exact Step.retains_of_form rfl rfl rfl
  | check p => exact Step.retains_of_form (congrArg check (h _)) rfl rfl
  | action a =>
    exact ⟨congrArg action (h.same ctx), (h.edits ctx).keeps,
      congrArg (Step.map action) (h.later k ctx)⟩

theorem hook_retains (h : n.Stateless) (k : Nat) (ctx : Context) (phase : Phase) :
    (n.hook ctx phase).Retains id n ctx.blackboard k (n.hook (ctx.later k) phase) := by
  cases n with
  | waitUntil p asked =>
    simp only [hook, show (ctx.later k).blackboard = ctx.blackboard from rfl]
    split
    · exact Step.retains_of_form rfl rfl rfl
    · exact Step.retains_of_form (congrArg (waitUntil · asked) (h _)) rfl rfl
  | idle | waitTicks | log | check | action => exact Step.retains_of_form rfl rfl rfl

theorem stateless_moves {m : LeafNode π α} (h : n.Stateless) (hm : Node.Moves n m) :
    m.Stateless := by
  -- But for its parameters, a stateless leaf stays as it is.
  have hsame : ∀ {m : LeafNode π α}, m = n → m.Stateless := by
    rintro m rfl
    exact h
  cases hm with
  | bind b =>
    cases n with
    | waitTicks | log =>
      simp only [Node.bind, bind]
      split <;> exact trivial
    | idle | waitUntil | check | action => exact h
  | execute ctx => exact hsame (execute_retains h 0 ctx).form
  | hook ctx phase => exact hsame (hook_retains h 0 ctx phase).form
  | receive | stop | ready | registered | unregistered => exact h

instance : Node.Forgetful (LeafNode π α) where
  form := id
  Fair := Stateless
  fair_moves := stateless_moves
  bind_still h := h
  bind_traits := bind_traits
  bind_again hk := (bind_again hk).1
  bind_done hk := (bind_again hk).2
  bind_quiet := bind_quiet
  execute_retains k ctx h _ _ := execute_retains h k ctx
  execute_alike {n n'} ctx _ _ h := by
    obtain rfl : n = n' := h
    exact ⟨rfl, rfl, fun _ => rfl⟩
  hooked {n} h := by
    cases n with
    | waitUntil => exact ⟨rfl, fun _ => rfl⟩
    | idle | waitTicks | log | check | action => cases h
  hook_retains k ctx phase h := hook_retains h k ctx phase

end LeafNode

/-! ## Computations -/

namespace Computation

theorem retains_reading {α : Type} {n : Computation} {ctx : Context} {k : Nat}
    (read : Except AccessError (Option α)) {next next' : α → Step Computation Status}
    (h : ∀ a, (next a).Retains id n ctx.blackboard k (next' a)) :
    (reading n ctx read next).Retains id n ctx.blackboard k
      (reading n (ctx.later k) read next') := by
  unfold reading
  split
  · exact Step.retains_of_form rfl rfl rfl
  · exact Step.retains_of_form rfl rfl rfl
  · exact h _

theorem retains_writing {n : Computation} {ctx : Context} {k : Nat}
    {written : Except AccessError Blackboard}
    (h : ∀ b, written = .ok b → ctx.blackboard.Keeps b) :
    (writing n ctx written).Retains id n ctx.blackboard k
      (writing n (ctx.later k) written) := by
  unfold writing
  split
  · exact Step.retains_of_form rfl rfl rfl
  · exact ⟨rfl, h _ rfl, rfl⟩

theorem retains_output {n : Computation} {ctx : Context} {k : Nat} {out : NumberOutput}
    (h : ∀ r, out.bound = some r → r.Fits ctx.blackboard) (x : Float32) :
    (output n ctx out x).Retains id n ctx.blackboard k (output n (ctx.later k) out x) := by
  unfold output
  split
  · exact Step.retains_of_form rfl rfl rfl
  · next r hr =>
    refine retains_writing fun b hb => ?_
    obtain ⟨b', hb', hk⟩ := (h r hr).write x
    cases hb'.symm.trans hb
    exact hk

theorem bind_again {n : Computation} {b b' : Blackboard} (hk : b.Keeps b') :
    (n.bind b).node.bind b' = n.bind b' ∧
      ((n.bind b).answer = none → n.bind b' = ⟨(n.bind b).node, none, []⟩) := by
  cases n with
  | copy source target =>
    refine ⟨rfl, fun ha => ?_⟩
    simp only [bind, Option.map_eq_none_iff, List.find?_eq_none, Bool.not_eq_eq_eq_not,
      Bool.not_true, Bool.not_eq_false, List.mem_cons, List.not_mem_nil, or_false,
      forall_eq_or_imp, forall_eq] at ha ⊢
    simp [hk.contains ha.1, hk.contains ha.2]
  | cosine input output =>
    cases hi : input.bind b with
    | error e => simp [bind, binding, hi]
    | ok input' =>
      obtain ⟨hi₁, hi₂⟩ := NumberField.bind_again hk hi
      cases ho : b.bindNumber output.id with
      | error e => simp [bind, binding, hi, hi₁, hi₂, ho]
      | ok r => simp [bind, binding, hi, hi₁, hi₂, ho, hk.bindNumber ho]
  | atan2 y x output =>
    cases hy : y.bind b with
    | error e => simp [bind, binding, hy]
    | ok y' =>
      obtain ⟨hy₁, hy₂⟩ := NumberField.bind_again hk hy
      cases hx : x.bind b with
      | error e => simp [bind, binding, hy, hy₁, hy₂, hx]
      | ok x' =>
        obtain ⟨hx₁, hx₂⟩ := NumberField.bind_again hk hx
        cases ho : b.bindNumber output.id with
        | error e => simp [bind, binding, hy, hy₁, hy₂, hx, hx₁, hx₂, ho]
        | ok r => simp [bind, binding, hy, hy₁, hy₂, hx, hx₁, hx₂, ho, hk.bindNumber ho]
  | makeVector2 x y output =>
    cases hx : x.bind b with
    | error e => simp [bind, binding, hx]
    | ok x' =>
      obtain ⟨hx₁, hx₂⟩ := NumberField.bind_again hk hx
      cases hy : y.bind b with
      | error e => simp [bind, binding, hx, hx₁, hx₂, hy]
      | ok y' =>
        obtain ⟨hy₁, hy₂⟩ := NumberField.bind_again hk hy
        cases ho : b.bind .vector2 output.id with
        | error e => simp [bind, binding, hx, hx₁, hx₂, hy, hy₁, hy₂, ho]
        | ok r => simp [bind, binding, hx, hx₁, hx₂, hy, hy₁, hy₂, ho, hk.bind ho]
  | compare left comparison right =>
    cases hl : left.bind b with
    | error e => simp [bind, binding, hl]
    | ok left' =>
      obtain ⟨hl₁, hl₂⟩ := NumberField.bind_again hk hl
      cases hr : right.bind b with
      | error e => simp [bind, binding, hl, hl₁, hl₂, hr]
      | ok right' =>
        obtain ⟨hr₁, hr₂⟩ := NumberField.bind_again hk hr
        simp [bind, binding, hl, hl₁, hl₂, hr, hr₁, hr₂]

theorem bind_quiet (n : Computation) (b : Blackboard) : (n.bind b).messages = [] := by
  cases n with
  | copy => rfl
  | cosine | atan2 | makeVector2 | compare =>
    simp only [bind, binding]
    repeat' split
    all_goals rfl

/-- If the node has an output, it fits, once it is bound. -/
def OutputFits : Computation → Blackboard → Prop
  | cosine _ output, b | atan2 _ _ output, b => output.Fits b
  | makeVector2 _ _ output, b => output.Fits b
  | copy .., _ | compare .., _ => True

theorem outputFits_binding {α : Type} {n : Computation} {b : Blackboard}
    {bound : Except VariableError α} {next : α → Reply Computation (Option VariableError)}
    (h : ∀ a, bound = .ok a → (next a).answer = none → (next a).node.OutputFits b)
    (ha : (binding n bound next).answer = none) : (binding n bound next).node.OutputFits b := by
  unfold binding at ha ⊢
  cases bound with
  | error e => cases ha
  | ok a => exact h a rfl ha

/-- Binding ends with the output. -/
theorem outputFits_bind {n : Computation} {b : Blackboard} (ha : (n.bind b).answer = none) :
    (n.bind b).node.OutputFits b := by
  cases n with
  | copy => exact trivial
  | cosine input output =>
    refine outputFits_binding (fun input' _ => outputFits_binding fun r hr _ => ?_) ha
    exact fun r' hr' => Option.some.inj hr' ▸ NumberRef.fits_of_bindNumber hr
  | atan2 y x output =>
    refine outputFits_binding (fun y' _ => outputFits_binding fun x' _ =>
      outputFits_binding fun r hr _ => ?_) ha
    exact fun r' hr' => Option.some.inj hr' ▸ NumberRef.fits_of_bindNumber hr
  | makeVector2 x y output =>
    refine outputFits_binding (fun x' _ => outputFits_binding fun y' _ =>
      outputFits_binding fun r hr _ => ?_) ha
    exact fun r' hr' => Option.some.inj hr' ▸ VarRef.fits_of_bind hr
  | compare left comparison right =>
    exact outputFits_binding (fun left' _ => outputFits_binding fun right' _ _ => trivial) ha

theorem execute_retains {n : Computation} (k : Nat) (ctx : Context)
    (hf : n.OutputFits ctx.blackboard) :
    (n.execute ctx).Retains id n ctx.blackboard k (n.execute (ctx.later k)) := by
  cases n with
  | copy source target =>
    simp only [execute, show (ctx.later k).blackboard = ctx.blackboard from rfl]
    split
    · exact Step.retains_of_form rfl rfl rfl
    · next hc => exact ⟨rfl, keeps_of_copied hc, rfl⟩
  | cosine input out => exact retains_reading _ fun x => retains_output hf _
  | atan2 y x out =>
    refine retains_reading _ ?_
    rintro ⟨y, x⟩
    simp only
    split
    · exact Step.retains_of_form rfl rfl rfl
    · exact retains_output hf _
  | makeVector2 x y out =>
    refine retains_reading _ fun p => ?_
    simp only
    split
    · exact Step.retains_of_form rfl rfl rfl
    · next r hr =>
      refine retains_writing fun b hb => ?_
      obtain ⟨b', hb', hk⟩ := (hf r hr).write ⟨p.1, p.2⟩
      cases hb'.symm.trans hb
      exact hk
  | compare left comparison right =>
    exact retains_reading _ fun p => Step.retains_of_form rfl rfl rfl

instance : Node.Forgetful Computation where
  form := id
  Fair _ := True
  fair_moves _ _ := trivial
  bind_still h := h
  bind_traits n b := rfl
  bind_again hk := (bind_again hk).1
  bind_done hk := (bind_again hk).2
  bind_quiet := bind_quiet
  execute_retains {n} k ctx _ hn ha := by
    refine n.execute_retains k ctx ?_
    have hf := outputFits_bind ha
    rwa [show (n.bind ctx.blackboard).node = n from hn] at hf
  execute_alike {n n'} ctx _ _ h := by
    obtain rfl : n = n' := h
    exact ⟨rfl, rfl, fun _ => rfl⟩

end Computation

/-! ## Services -/

namespace BackgroundNode

def form : BackgroundNode → BackgroundNode
  | parallel p => parallel { p with started := false }
  | repetition r => repetition { r with running := false, lastStarted := none }

theorem begun_alike {n n' : BackgroundNode} (now : Nat) (h : n.form = n'.form) :
    n.begun now = n'.begun now := by
  cases n with
  | parallel p =>
    cases n' with
    | parallel p' =>
      cases p
      cases p'
      cases h
      rfl
    | repetition => cases h
  | repetition r =>
    cases n' with
    | repetition r' =>
      cases r
      cases r'
      cases h
      rfl
    | parallel => cases h

theorem registered_eq_form (n : BackgroundNode) : n.registered = n.form := by
  cases n <;> rfl

theorem subtree_form (n : BackgroundNode) : n.form.subtree = n.subtree := by
  cases n <;> rfl

theorem form_begun (n : BackgroundNode) (now : Nat) : (n.begun now).form = n.form := by
  cases n <;> rfl

theorem form_ended (n : BackgroundNode) : n.ended.form = n.form := by
  cases n <;> rfl

instance : Node.Forgetful BackgroundNode where
  form := form
  Fair _ := True
  fair_moves _ _ := trivial
  traits_form n := by cases n <;> rfl
  execute_retains {n} k ctx _ _ _ := Step.retains_of_form (n.form_begun _) rfl rfl
  execute_alike {n n'} ctx _ _ h := by
    have hs : n.subtree = n'.subtree := by rw [← subtree_form n, h, subtree_form]
    have he : Node.execute n ctx = Node.execute n' ctx := by
      show Step.call (n.begun _) ctx n.subtree = Step.call (n'.begun _) ctx n'.subtree
      rw [begun_alike _ h, hs]
    rw [he]
    exact ⟨rfl, rfl, fun _ => rfl⟩
  receive_retains n k ctx ok := Step.retains_of_form n.form_ended rfl rfl
  stop_retains n k ctx := Step.retains_of_form n.form_ended rfl rfl
  hooked h := by cases h
  served _ _ := rfl
  registered_retains n := ⟨by cases n <;> rfl, rfl⟩
  registered_alike {n n'} _ h :=
    (registered_eq_form n).trans (h.trans (registered_eq_form n').symm)
  unregistered_retains n := ⟨by cases n <;> rfl, rfl⟩

end BackgroundNode

/-- All of the library is forgetful, but for what the host put into a leaf. -/
theorem LibraryNode.fair {π α : Type} [Predicate π] [Action α] {n : LibraryNode π α}
    (h : ∀ leaf, n = .leaf leaf → LeafNode.Stateless leaf) : Node.Forgetful.Fair n := by
  match n with
  | .inl _ => exact trivial
  | .inr (.inl leaf) => exact h leaf rfl
  | .inr (.inr (.inl _)) => exact trivial
  | .inr (.inr (.inr _)) => exact trivial

end BehaviorTree
