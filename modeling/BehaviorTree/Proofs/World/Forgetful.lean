/-
Nodes that forget their runs.

What a node remembers of a run it may keep when it leaves its stack, and it stays bound. Its
form is what is left of it without the memories. A forgetful node changes its form by being
bound alone, and binding it again, or for the first time at a later moment, comes to the same;
executing it goes by its form, and a node that then calls a child remembers nothing of earlier
runs. So two nodes that stem from the same one, and that are bound, start alike, whatever
became of them before.

No node looks at the number of its execution. It may hand it on, in a token; so in an
execution that is counted later it does the same, up to the tokens.
-/
import BehaviorTree.Proofs.World.Lives

namespace BehaviorTree

/-! ## Executions that are counted later -/

/-- The token of an execution that is counted `k` later. -/
def Progress.later (k : Nat) (p : Progress) : Progress := ⟨p.node, p.activation + k⟩

def Message.later (k : Nat) : Message → Message
  | .token name p => .token name (p.later k)
  | m => m

def Effects.later (k : Nat) (e : Effects) : Effects :=
  { e with messages := e.messages.map (Message.later k) }

@[simp] theorem Effects.calls_later (k : Nat) (e : Effects) : (e.later k).calls = e.calls := rfl

def Step.later {σ α : Type} (k : Nat) (step : Step σ α) : Step σ α :=
  { step with effects := step.effects.later k }

def Context.later (k : Nat) (ctx : Context) : Context :=
  { ctx with activation := ctx.activation + k }

/-! ## Forgetful nodes -/

/-- What a node is for, whatever state it is in. -/
structure Node.Traits where
  hasHooks : Bool
  isService : Bool
  preempts : Bool

def Node.traits {σ : Type} [Node σ] (x : σ) : Node.Traits :=
  ⟨Node.hasHooks x, Node.isService x, Node.preempts x⟩

/-- The step leaves the form of the node and the types of the variables, and in an execution that
is counted `k` later it is `step'`, the same up to the tokens. -/
structure Step.Retains {τ α : Type} (form : τ → τ) (n : τ) (b : Blackboard) (k : Nat)
    (step step' : Step τ α) : Prop where
  form : form step.node = form n
  keeps : b.Keeps step.effects.blackboard
  later : step' = step.later k

/-- The reply leaves the form of the node, and nothing is said. -/
structure Reply.Retains {τ α : Type} (form : τ → τ) (n : τ) (reply : Reply τ α) : Prop where
  form : form reply.node = form n
  quiet : reply.messages = []

section Retains

variable {τ υ α : Type} {form : τ → τ} {form' : υ → υ} {n : τ} {b : Blackboard} {k : Nat}

theorem Step.Retains.map {step step' : Step τ α} (h : step.Retains form n b k step') {f : τ → υ}
    (hf : ∀ n, form' (f n) = f (form n)) :
    (step.map f).Retains form' (f n) b k (step'.map f) :=
  ⟨(hf _).trans ((congrArg f h.form).trans (hf n).symm), h.keeps, congrArg (Step.map f) h.later⟩

theorem Reply.Retains.map {reply : Reply τ α} (h : reply.Retains form n) {f : τ → υ}
    (hf : ∀ n, form' (f n) = f (form n)) : (reply.map f).Retains form' (f n) :=
  ⟨(hf _).trans ((congrArg f h.form).trans (hf n).symm), h.quiet⟩

/-- A step that asks for nothing but that some child is called. -/
theorem Step.retains_of_form {step step' : Step τ α} (h : form step.node = form n)
    (hb : step.effects.blackboard = b) (hl : step' = step.later k) :
    step.Retains form n b k step' :=
  ⟨h, hb ▸ .refl _, hl⟩

end Retains

open Node (bind execute receive stop hook hasHooks isService isReady registered unregistered
  traits) in
/-- A kind of node that forgets its runs. -/
class Node.Forgetful (σ : Type) [Node σ] where
  /-- The node without what it remembers of a run. -/
  form : σ → σ
  /-- Whether what the host put into the node keeps to what is said here. -/
  Fair : σ → Prop
  fair_moves {x y : σ} : Fair x → Node.Moves x y → Fair y
  traits_form (x : σ) : traits (form x) = traits x := by intros; rfl
  /-- Memories do not count for binding, and are left alone. -/
  bind_form (x : σ) (b : Blackboard) : bind (form x) b = (bind x b).map form := by intros; rfl
  bind_still {x : σ} {b : Blackboard} : form (bind x b).node = form x → (bind x b).node = x := by
    intros; rfl
  bind_traits (x : σ) (b : Blackboard) : traits (bind x b).node = traits x := by intros; rfl
  /-- What was bound so far is bound alike later. -/
  bind_again {x : σ} {b b' : Blackboard} :
    b.Keeps b' → bind (bind x b).node b' = bind x b' := by intros; rfl
  /-- Once all is bound, nothing is left to do. -/
  bind_done {x : σ} {b b' : Blackboard} :
    b.Keeps b' → (bind x b).answer = none → bind x b' = ⟨(bind x b).node, none, []⟩ := by
    intros; rfl
  bind_quiet (x : σ) (b : Blackboard) : (bind x b).messages = [] := by intros; rfl
  /-- Only a node in which nothing is left to bind is executed. -/
  execute_retains {x : σ} (k : Nat) (ctx : Context) : Fair x →
    (bind x ctx.blackboard).node = x → (bind x ctx.blackboard).answer = none →
    (execute x ctx).Retains form x ctx.blackboard k (execute x (ctx.later k))
  /-- Memories do not count for executing the node, and those that count afterwards are new. -/
  execute_alike {x y : σ} (ctx : Context) : Fair x → Fair y → form x = form y →
    (execute x ctx).answer = (execute y ctx).answer ∧
    (execute x ctx).effects = (execute y ctx).effects ∧
    ((execute x ctx).effects.calls ≠ [] → (execute x ctx).node = (execute y ctx).node)
  receive_retains (x : σ) (k : Nat) (ctx : Context) (ok : Bool) :
    (receive x ctx ok).Retains form x ctx.blackboard k (receive x (ctx.later k) ok) := by
    intros; exact Step.retains_of_form rfl rfl rfl
  stop_retains (x : σ) (k : Nat) (ctx : Context) :
    (stop x ctx).Retains form x ctx.blackboard k (stop x (ctx.later k)) := by
    intros; exact Step.retains_of_form rfl rfl rfl
  stop_effects (x : σ) (ctx : Context) :
    (stop x ctx).effects = { blackboard := ctx.blackboard } := by intros; rfl
  /-- A node with hooks remembers nothing, and has nothing to bind. -/
  hooked {x : σ} : hasHooks x → form x = x ∧ ∀ b, (bind x b).node = x := by
    intro x h; cases h
  hook_retains {x : σ} (k : Nat) (ctx : Context) (phase : Phase) : Fair x →
    (hook x ctx phase).Retains form x ctx.blackboard k (hook x (ctx.later k) phase) := by
    intros; exact Step.retains_of_form rfl rfl rfl
  /-- A service has nothing to bind. -/
  served {x : σ} : isService x → ∀ b, (bind x b).node = x := by intro x h; cases h
  ready_retains (x : σ) (tick : Tick) : (isReady x tick).Retains form x := by
    intros; exact ⟨rfl, rfl⟩
  registered_retains (x : σ) : (registered x).Retains form x := by intros; exact ⟨rfl, rfl⟩
  /-- A service that is registered starts afresh. -/
  registered_alike {x y : σ} : isService x → form x = form y →
    (registered x).node = (registered y).node := by intro x y h; cases h
  unregistered_retains (x : σ) : (unregistered x).Retains form x := by intros; exact ⟨rfl, rfl⟩

namespace Node.Forgetful

variable {α β : Type} [Node α] [Node β] [Forgetful α] [Forgetful β]

/-- A node of either of two kinds. -/
instance : Forgetful (α ⊕ β) where
  form := Sum.map form form
  Fair := Sum.elim Fair Fair
  fair_moves {x y} hx hm := by
    cases x with
    | inl x =>
      obtain ⟨y, rfl, h⟩ := embeds_inl.moves hm
      exact fair_moves (σ := α) hx h
    | inr x =>
      obtain ⟨y, rfl, h⟩ := embeds_inr.moves hm
      exact fair_moves (σ := β) hx h
  traits_form
    | .inl x => traits_form x
    | .inr x => traits_form x
  bind_form
    | .inl x, b => congrArg (Reply.map Sum.inl) (bind_form x b)
    | .inr x, b => congrArg (Reply.map Sum.inr) (bind_form x b)
  bind_still {x b} h := by
    cases x with
    | inl x => exact congrArg Sum.inl (bind_still (σ := α) (Sum.inl.inj h))
    | inr x => exact congrArg Sum.inr (bind_still (σ := β) (Sum.inr.inj h))
  bind_traits
    | .inl x, b => bind_traits x b
    | .inr x, b => bind_traits x b
  bind_again {x b b'} h := by
    cases x with
    | inl x => exact congrArg (Reply.map Sum.inl) (bind_again h)
    | inr x => exact congrArg (Reply.map Sum.inr) (bind_again h)
  bind_done {x b b'} h ha := by
    cases x with
    | inl x => exact congrArg (Reply.map Sum.inl) (bind_done (σ := α) h ha)
    | inr x => exact congrArg (Reply.map Sum.inr) (bind_done (σ := β) h ha)
  bind_quiet
    | .inl x, b => bind_quiet x b
    | .inr x, b => bind_quiet x b
  execute_retains {x} k ctx hx hn ha := by
    cases x with
    | inl x => exact (execute_retains (σ := α) k ctx hx (Sum.inl.inj hn) ha).map fun _ => rfl
    | inr x => exact (execute_retains (σ := β) k ctx hx (Sum.inr.inj hn) ha).map fun _ => rfl
  execute_alike {x y} ctx hx hy h := by
    match x, y, h with
    | .inl x, .inl y, h =>
      obtain ⟨ha, he, hc⟩ := execute_alike (σ := α) ctx hx hy (Sum.inl.inj h)
      exact ⟨ha, he, fun hn => congrArg Sum.inl (hc hn)⟩
    | .inr x, .inr y, h =>
      obtain ⟨ha, he, hc⟩ := execute_alike (σ := β) ctx hx hy (Sum.inr.inj h)
      exact ⟨ha, he, fun hn => congrArg Sum.inr (hc hn)⟩
  receive_retains
    | .inl x, k, ctx, ok => (receive_retains x k ctx ok).map fun _ => rfl
    | .inr x, k, ctx, ok => (receive_retains x k ctx ok).map fun _ => rfl
  stop_retains
    | .inl x, k, ctx => (stop_retains x k ctx).map fun _ => rfl
    | .inr x, k, ctx => (stop_retains x k ctx).map fun _ => rfl
  stop_effects
    | .inl x, ctx => stop_effects x ctx
    | .inr x, ctx => stop_effects x ctx
  hooked {x} h := by
    cases x with
    | inl x =>
      obtain ⟨hf, hb⟩ := hooked (σ := α) h
      exact ⟨congrArg Sum.inl hf, fun b => congrArg Sum.inl (hb b)⟩
    | inr x =>
      obtain ⟨hf, hb⟩ := hooked (σ := β) h
      exact ⟨congrArg Sum.inr hf, fun b => congrArg Sum.inr (hb b)⟩
  hook_retains {x} k ctx phase hx := by
    cases x with
    | inl x => exact (hook_retains (σ := α) k ctx phase hx).map fun _ => rfl
    | inr x => exact (hook_retains (σ := β) k ctx phase hx).map fun _ => rfl
  served {x} h b := by
    cases x with
    | inl x => exact congrArg Sum.inl (served (σ := α) h b)
    | inr x => exact congrArg Sum.inr (served (σ := β) h b)
  ready_retains
    | .inl x, tick => (ready_retains x tick).map fun _ => rfl
    | .inr x, tick => (ready_retains x tick).map fun _ => rfl
  registered_retains
    | .inl x => (registered_retains x).map fun _ => rfl
    | .inr x => (registered_retains x).map fun _ => rfl
  registered_alike {x y} hs h := by
    match x, y, h with
    | .inl x, .inl y, h => exact congrArg Sum.inl (registered_alike (σ := α) hs (Sum.inl.inj h))
    | .inr x, .inr y, h => exact congrArg Sum.inr (registered_alike (σ := β) hs (Sum.inr.inj h))
  unregistered_retains
    | .inl x => (unregistered_retains x).map fun _ => rfl
    | .inr x => (unregistered_retains x).map fun _ => rfl

end Node.Forgetful

/-! ## Where a node stems from -/

open Node.Forgetful

variable {σ : Type} [Node σ] [Node.Forgetful σ] {x₀ x y : σ} {b b' : Blackboard} {l l' : Life σ}

theorem Node.traits_of_form (h : form x = form y) : Node.traits x = Node.traits y := by
  rw [← traits_form x, h, traits_form]

theorem Node.form_bind (x : σ) (b : Blackboard) :
    form (Node.bind x b).node = (Node.bind (form x) b).node := by
  rw [bind_form]
  rfl

theorem Node.answer_bind (x : σ) (b : Blackboard) :
    (Node.bind x b).answer = (Node.bind (form x) b).answer := by
  rw [bind_form]
  rfl

/-- The life of a node that was `x₀` in the beginning, and not bound. Put back to its form, it is
bound as `x₀` would be, at any time; and if it is bound already, that is how. -/
structure Life.StemsFrom (x₀ : σ) (l : Life σ) : Prop where
  fair : Fair l.node
  traits : Node.traits l.node = Node.traits x₀
  binds : ∀ b, l.blackboard.Keeps b → Node.bind (form l.node) b = Node.bind (form x₀) b
  settled : l.bound = true → ∀ b, l.blackboard.Keeps b →
    Node.bind (form l.node) b = ⟨form l.node, none, []⟩

namespace Life.StemsFrom

theorem beginning (h : Fair x) (b : Blackboard) : StemsFrom x ⟨b, false, x⟩ :=
  ⟨h, rfl, fun _ _ => rfl, nofun⟩

/-- The node goes on, with its form as it was. -/
theorem forward (h : l.StemsFrom x₀) (hx : Fair x) (hf : form x = form l.node)
    (hb : l.blackboard.Keeps b) : StemsFrom x₀ ⟨b, l.bound, x⟩ where
  fair := hx
  traits := (Node.traits_of_form hf).trans h.traits
  binds b' hb' := (congrArg (Node.bind · b') hf).trans (h.binds b' (hb.trans hb'))
  settled hbound b' hb' := by
    rw [show form x = form l.node from hf]
    exact h.settled hbound b' (hb.trans hb')

/-- Nothing is left to bind in a node that is bound. -/
theorem bind_bound (h : l.StemsFrom x₀) (hb : l.bound = true) :
    (Node.bind l.node l.blackboard).node = l.node ∧
      (Node.bind l.node l.blackboard).answer = none := by
  have hs := h.settled hb l.blackboard (.refl _)
  refine ⟨bind_still ?_, ?_⟩
  · rw [Node.form_bind, hs]
  · rw [Node.answer_bind, hs]

/-- The node is bound, or a part of it is. -/
theorem bind (h : l.StemsFrom x₀) :
    StemsFrom x₀ ⟨l.blackboard, (Node.bind l.node l.blackboard).answer.isNone,
      (Node.bind l.node l.blackboard).node⟩ where
  fair := fair_moves h.fair (.bind ..)
  traits := (bind_traits ..).trans h.traits
  binds b hb := by
    rw [Node.form_bind, bind_again hb]
    exact h.binds b hb
  settled ha b hb := by
    have ha : (Node.bind (form l.node) l.blackboard).answer = none := by
      rw [← Node.answer_bind]
      simpa using ha
    rw [Node.form_bind, bind_again hb]
    exact bind_done hb ha

/-- Whatever becomes of a node, it goes on to stem from where it does, and leaves every variable
its type. -/
theorem next {cs : List NodeId} (h : l.StemsFrom x₀) (hn : Next cs l l') :
    l'.StemsFrom x₀ ∧ l.blackboard.Keeps l'.blackboard := by
  -- All but binding leaves the form.
  have hstep : ∀ {α : Type} {step step' : Step σ α} {b : Blackboard}, Node.Moves l.node step.node →
      b = l.blackboard → step.Retains form l.node b 0 step' →
      (l.after step).StemsFrom x₀ ∧ l.blackboard.Keeps (l.after step).blackboard := by
    rintro α step step' b hm rfl hr
    exact ⟨h.forward (fair_moves h.fair hm) hr.form hr.keeps, hr.keeps⟩
  have hreply : ∀ {α : Type} {reply : Reply σ α}, Node.Moves l.node reply.node →
      reply.Retains form l.node →
      (l.replied reply).StemsFrom x₀ ∧ l.blackboard.Keeps (l.replied reply).blackboard :=
    fun hm hr => ⟨h.forward (fair_moves h.fair hm) hr.form (.refl _), .refl _⟩
  cases hn with
  | edited hb => exact ⟨h.forward h.fair rfl hb, hb⟩
  | bind _ => exact ⟨h.bind, .refl _⟩
  | @execute hbound ctx hc =>
    obtain ⟨hn, ha⟩ := h.bind_bound hbound
    rw [← hc] at hn ha
    exact hstep (.execute ..) hc (execute_retains 0 ctx h.fair hn ha)
  | receive _ hc ok => exact hstep (.receive ..) hc (receive_retains ..)
  | stop hc => exact hstep (.stop ..) hc (stop_retains ..)
  | @hook ctx hc phase => exact hstep (.hook ..) hc (hook_retains 0 ctx phase h.fair)
  | ready tick => exact hreply (.ready ..) (ready_retains ..)
  | registered => exact hreply (.registered ..) (registered_retains _)
  | unregistered => exact hreply (.unregistered ..) (unregistered_retains _)

/-! ## Two nodes that stem from the same -/

variable (h : l.StemsFrom x₀) (h' : l'.StemsFrom x₀) (hb : l.blackboard = l'.blackboard)

include h h' hb

/-- To bind both comes to the same. -/
theorem bind_alike : (Node.bind l.node l.blackboard).answer
      = (Node.bind l'.node l'.blackboard).answer ∧
    form (Node.bind l.node l.blackboard).node = form (Node.bind l'.node l'.blackboard).node := by
  have he : Node.bind (form l.node) l.blackboard = Node.bind (form l'.node) l'.blackboard := by
    rw [h.binds _ (.refl _), hb, h'.binds _ (.refl _)]
  simp only [Node.answer_bind l.node, Node.answer_bind l'.node, Node.form_bind, he, and_self]

theorem form_of_bound (hl : l.bound = true) (hl' : l'.bound = true) :
    form l.node = form l'.node := by
  obtain ⟨hn, -⟩ := h.bind_bound hl
  obtain ⟨hn', -⟩ := h'.bind_bound hl'
  have hf := (h.bind_alike h' hb).2
  rwa [hn, hn'] at hf

/-- If one is bound already, binding the other one makes up for it. -/
theorem bind_fresh (hl : l.bound = true) :
    (Node.bind l'.node l'.blackboard).answer = none ∧
      (l.node = l'.node → l.node = (Node.bind l'.node l'.blackboard).node) := by
  obtain ⟨hn, ha⟩ := h.bind_bound hl
  refine ⟨((h.bind_alike h' hb).1).symm.trans ha, fun he => ?_⟩
  rw [← he, ← hb, hn]

omit hb in
theorem traits_alike : Node.traits l.node = Node.traits l'.node := h.traits.trans h'.traits.symm

/-- A node with hooks is the same in both. -/
theorem eq_of_hooks (hh : Node.hasHooks l.node) : l.node = l'.node := by
  have hh' : Node.hasHooks l'.node :=
    (congrArg Node.Traits.hasHooks (h.traits_alike h')).symm.trans hh
  obtain ⟨hf, hn⟩ := hooked hh
  obtain ⟨hf', hn'⟩ := hooked hh'
  have he := (h.bind_alike h' hb).2
  rwa [hn, hn', hf, hf'] at he

/-- A service has the same form in both. -/
theorem form_of_service (hs : Node.isService l.node) : form l.node = form l'.node := by
  have hs' : Node.isService l'.node :=
    (congrArg Node.Traits.isService (h.traits_alike h')).symm.trans hs
  have he := (h.bind_alike h' hb).2
  rwa [served hs, served hs'] at he

/-- To execute both comes to the same, if the one is counted later. If a child is called then, the
nodes are in the same state. -/
theorem execute_alike {k : Nat} {ctx ctx' : Context} (hl : l.bound = true) (hl' : l'.bound = true)
    (hc : ctx = ctx'.later k) (hc' : ctx'.blackboard = l'.blackboard) :
    (Node.execute l.node ctx).answer = (Node.execute l'.node ctx').answer ∧
      (Node.execute l.node ctx).effects = (Node.execute l'.node ctx').effects.later k ∧
      ((Node.execute l.node ctx).effects.calls ≠ [] ∨ l.node = l'.node →
        (Node.execute l.node ctx).node = (Node.execute l'.node ctx').node) := by
  obtain ⟨ha, he, hn⟩ :=
    Node.Forgetful.execute_alike ctx h.fair h'.fair (h.form_of_bound h' hb hl hl')
  obtain ⟨hb₁, hb₂⟩ := h'.bind_bound hl'
  rw [← hc'] at hb₁ hb₂
  have hlater := (execute_retains k ctx' h'.fair hb₁ hb₂).later
  rw [← hc] at hlater
  rw [hlater] at ha he hn
  refine ⟨ha, he, ?_⟩
  rintro (hcalls | hsame)
  · exact hn hcalls
  · rw [hsame, hlater]
    rfl

end Life.StemsFrom

/-- Every node of the world stems from the one in its place in the graph `g`. -/
def World.Stems (g : Graph σ) : World σ → Prop :=
  World.Living fun id l => ∃ slot, g.slot? id = some slot ∧ l.StemsFrom slot.node

/-- Whatever becomes of a node of a world, it stems from where it does. -/
theorem World.stems_lasting (g : Graph σ) : Life.Lasting (fun id => [id])
    fun id (l : Life σ) => ∃ slot, g.slot? id = some slot ∧ l.StemsFrom slot.node where
  next := by
    rintro id l l' ⟨slot, hs, h⟩ hn
    exact ⟨slot, hs, (h.next hn).1⟩
  keeps := by
    rintro id l l' ⟨slot, -, h⟩ hn
    exact (h.next hn).2

end BehaviorTree
