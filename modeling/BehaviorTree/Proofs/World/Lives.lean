/-
The lives of nodes, and what every moment of a life keeps.

A node is used as stacks use it: it is bound before it is executed, it hears of a result only
if it has children, and between its steps others may change variables, but never the type of
one (`Life.Next`). A property of lives that each of these moments keeps, if none of them
changes the type of a variable, holds of the nodes of a world after any operation of the world.
-/
import BehaviorTree.Proofs.Blackboard.Types
import BehaviorTree.Proofs.World.Local

namespace BehaviorTree

/-- A node in use: the variables, whether it is bound to them, and its state. -/
structure Life (σ : Type) where
  blackboard : Blackboard
  bound : Bool
  node : σ

/-- The same life of a node that is part of another. -/
def Life.map {σ τ : Type} (f : σ → τ) (l : Life σ) : Life τ := ⟨l.blackboard, l.bound, f l.node⟩

/-- What a step leaves of a life. -/
def Life.after {σ α : Type} (l : Life σ) (step : Step σ α) : Life σ :=
  ⟨step.effects.blackboard, l.bound, step.node⟩

/-- What a reply leaves of a life. -/
def Life.replied {σ α : Type} (l : Life σ) (reply : Reply σ α) : Life σ :=
  ⟨l.blackboard, l.bound, reply.node⟩

namespace Life

variable {σ τ : Type} [Node σ] [Node τ] {cs : List NodeId}

/-- One moment in the life of a node with children `cs`. -/
inductive Next (cs : List NodeId) : Life σ → Life σ → Prop
  | edited (l : Life σ) {b : Blackboard} (h : l.blackboard.Keeps b) :
      Next cs l ⟨b, l.bound, l.node⟩
  | bind (l : Life σ) (h : l.bound = false) :
      Next cs l ⟨l.blackboard, (Node.bind l.node l.blackboard).answer.isNone,
        (Node.bind l.node l.blackboard).node⟩
  | execute (l : Life σ) (h : l.bound = true) {ctx : Context} (hc : ctx.blackboard = l.blackboard) :
      Next cs l (l.after (Node.execute l.node ctx))
  | receive (l : Life σ) (h : cs ≠ []) {ctx : Context} (hc : ctx.blackboard = l.blackboard)
      (ok : Bool) : Next cs l (l.after (Node.receive l.node ctx ok))
  | stop (l : Life σ) {ctx : Context} (hc : ctx.blackboard = l.blackboard) :
      Next cs l (l.after (Node.stop l.node ctx))
  | hook (l : Life σ) {ctx : Context} (hc : ctx.blackboard = l.blackboard) (phase : Phase) :
      Next cs l (l.after (Node.hook l.node ctx phase))
  | ready (l : Life σ) (tick : Tick) : Next cs l (l.replied (Node.isReady l.node tick))
  | registered (l : Life σ) : Next cs l (l.replied (Node.registered l.node))
  | unregistered (l : Life σ) : Next cs l (l.replied (Node.unregistered l.node))

theorem Next.embeds {f : σ → τ} (hf : Node.Embeds f) {l : Life σ} {x : Life τ}
    (h : Next cs (l.map f) x) : ∃ l', x = l'.map f ∧ Next cs l l' := by
  cases h with
  | edited h => exact ⟨_, rfl, .edited l h⟩
  | bind h =>
    refine ⟨_, ?_, .bind l h⟩
    rw [show (l.map f).node = f l.node from rfl, hf.bind]
    rfl
  | execute h hc => exact ⟨_, congrArg (l.map f).after (hf.execute ..), .execute l h hc⟩
  | receive h hc ok => exact ⟨_, congrArg (l.map f).after (hf.receive ..), .receive l h hc ok⟩
  | stop hc => exact ⟨_, congrArg (l.map f).after (hf.stop ..), .stop l hc⟩
  | hook hc phase => exact ⟨_, congrArg (l.map f).after (hf.hook ..), .hook l hc phase⟩
  | ready tick => exact ⟨_, congrArg (l.map f).replied (hf.isReady ..), .ready l tick⟩
  | registered =>
    exact ⟨l.replied (Node.registered l.node), congrArg (l.map f).replied (hf.registered l.node),
      .registered l⟩
  | unregistered =>
    exact ⟨l.replied (Node.unregistered l.node),
      congrArg (l.map f).replied (hf.unregistered l.node), .unregistered l⟩

end Life

variable {σ : Type}

/-- The life of the node in a slot. -/
def World.life (w : World σ) (slot : Slot σ) : Life σ := ⟨w.blackboard, slot.bound, slot.node⟩

variable [Node σ]

/-- Every moment keeps the property, and leaves every variable its type. -/
structure Life.Lasting (cs : NodeId → List NodeId) (I : NodeId → Life σ → Prop) : Prop where
  next : ∀ {id l l'}, I id l → Life.Next (cs id) l l' → I id l'
  keeps : ∀ {id l l'}, I id l → Life.Next (cs id) l l' → l.blackboard.Keeps l'.blackboard

namespace World

omit [Node σ] in
theorem blackboard_hear (w : World σ) (id : NodeId) (messages : List Message) :
    (w.hear id messages).blackboard = w.blackboard := by
  unfold World.hear
  induction messages generalizing w with
  | nil => rfl
  | cons m ms ih => exact ih _

omit [Node σ] in
theorem blackboard_keep {α : Type} (w : World σ) (id : NodeId) (step : Step σ α) :
    (w.keep id step).blackboard = step.effects.blackboard := by
  unfold World.keep
  split <;> exact blackboard_hear ..

/-- Every node has a life of this kind. -/
def Living (I : NodeId → Life σ → Prop) (w : World σ) : Prop :=
  ∀ id slot, w.graph.slot? id = some slot → I id (w.life slot)

namespace Living

variable {cs : NodeId → List NodeId} {I : NodeId → Life σ → Prop} {w w' : World σ} {id : NodeId}
  {slot : Slot σ}

omit [Node σ] in
/-- The graph and the variables are all that counts. -/
theorem of_eq (h : w.Living I) (hg : w'.graph = w.graph) (hb : w'.blackboard = w.blackboard) :
    w'.Living I := by
  intro id slot hs
  rw [hg] at hs
  have hn := h id slot hs
  unfold life at hn ⊢
  rwa [hb]

omit [Node σ] in
theorem tell (h : w.Living I) (id : NodeId) (observers : List Observer) :
    (w.tell id observers).Living I := by
  unfold World.tell
  induction observers generalizing w with
  | nil => exact h
  | cons o os ih => exact ih (h.of_eq rfl rfl)

/-- The variables change, and each keeps its type. -/
theorem edited (hI : Life.Lasting cs I) (h : w.Living I) {b : Blackboard}
    (hb : w.blackboard.Keeps b) : ({ w with blackboard := b } : World σ).Living I :=
  fun id slot hs => hI.next (h id slot hs) (.edited _ hb)

/-- One slot changes. -/
theorem replace (hI : Life.Lasting cs I) (h : w.Living I) (hl : Local id w w')
    (hb : w.blackboard.Keeps w'.blackboard)
    (hn : ∀ slot, w'.graph.slot? id = some slot → I id (w'.life slot)) : w'.Living I := by
  intro other slot hs
  by_cases hne : other = id
  · subst hne
    exact hn slot hs
  · rw [hl.slot? other hne] at hs
    exact hI.next (h other slot hs) (.edited _ hb)

/-- A change of a slot that its node does not notice. -/
theorem modify (hI : Life.Lasting cs I) (h : w.Living I) (id : NodeId) {f : Slot σ → Slot σ}
    (hn : ∀ s, (f s).node = s.node) (hb : ∀ s, (f s).bound = s.bound) :
    (w.modify id f).Living I := by
  refine h.replace hI (.modify w f) (.refl _) fun slot' hs => ?_
  obtain ⟨slot, hs₀, rfl⟩ := Option.map_eq_some_iff.1
    ((Graph.slot?_modify_self w.graph id f).symm.trans hs)
  have ho := h id slot hs₀
  unfold life at ho ⊢
  rwa [hn, hb]

/-- A step of a node is kept, if it is a moment of the node's life. -/
theorem keep {α : Type} {step : Step σ α} (hI : Life.Lasting cs I) (h : w.Living I)
    (hs : w.graph.slot? id = some slot)
    (hn : Life.Next (cs id) (w.life slot) ((w.life slot).after step)) :
    (w.keep id step).Living I := by
  have hb : (w.keep id step).blackboard = step.effects.blackboard := blackboard_keep ..
  refine h.replace hI (.keep w step) ?_ fun slot' hs' => ?_
  · rw [hb]
    exact hI.keeps (h id slot hs) hn
  · cases (slot?_keep hs step).symm.trans hs'
    unfold life
    rw [hb]
    exact hI.next (h id slot hs) hn

theorem absorb {α : Type} {step : Step σ α} (hI : Life.Lasting cs I) (h : w.Living I)
    (hs : w.graph.slot? id = some slot) (activation : Nat)
    (hn : Life.Next (cs id) (w.life slot) ((w.life slot).after step)) :
    (w.absorb id activation step).Living I := by
  have hk := (h.keep hI hs hn).modify hI id
    (f := fun s => { s with observers := s.observers ++ step.effects.observers })
    (fun _ => rfl) fun _ => rfl
  exact hk.of_eq rfl rfl

theorem keepReply {α : Type} {reply : Reply σ α} (hI : Life.Lasting cs I) (h : w.Living I)
    (hs : w.graph.slot? id = some slot) (call : Call)
    (hn : Life.Next (cs id) (w.life slot) ((w.life slot).replied reply)) :
    (w.keepReply id call reply).Living I := by
  have hb : (w.keepReply id call reply).blackboard = w.blackboard := blackboard_hear ..
  refine h.replace hI (.keepReply w call reply) (by rw [hb]; exact .refl _) fun slot' hs' => ?_
  cases (slot?_keepReply hs call reply).symm.trans hs'
  unfold life
  rw [hb]
  exact hI.next (h id slot hs) hn

/-- A node that was not bound yet is, unless that fails. -/
theorem bindOnce {s : Slot σ} (hI : Life.Lasting cs I) (h : w.Living I) (slot : Slot σ)
    (hs : w.graph.slot? id = some s) (hn : s.node = slot.node) (hb : s.bound = slot.bound) :
    (w.bindOnce id slot).1.Living I ∧ ((w.bindOnce id slot).2.2 = none →
      ∃ s', (w.bindOnce id slot).1.graph.slot? id = some s' ∧
        s'.node = (w.bindOnce id slot).2.1 ∧ s'.bound = true) := by
  unfold World.bindOnce
  split
  · next hbound => exact ⟨h, fun _ => ⟨s, hs, hn, hb.trans hbound⟩⟩
  next hbound =>
  have hs' := slot?_modify (slot?_keepReply hs .bind (Node.bind slot.node w.blackboard))
    fun s => { s with bound := (Node.bind slot.node w.blackboard).answer.isNone }
  refine ⟨?_, fun ha => ⟨_, hs', rfl, by simpa using ha⟩⟩
  have hbb : (w.keepReply id .bind (Node.bind slot.node w.blackboard)).blackboard = w.blackboard :=
    blackboard_hear ..
  have hnext : Life.Next (cs id) (w.life s) _ :=
    .bind (w.life s) (by simpa [life, hb] using hbound)
  refine h.replace hI ((Local.keepReply w ..).trans (.modify _ _)) ?_ fun slot' hslot => ?_
  · rw [show (World.modify _ id _).blackboard = w.blackboard from hbb]
    exact .refl _
  · cases hs'.symm.trans hslot
    unfold life
    rw [show (World.modify _ id _).blackboard = w.blackboard from hbb, ← hn]
    exact hI.next (h id s hs) hnext

/-! ## The operations of the world -/

theorem execute {d : Dispatch} (hI : Life.Lasting cs I) (h : w.Living I)
    (he : w.execute id = .ok (w', d)) : w'.Living I := by
  unfold World.execute at he
  split at he
  · cases he
  next slot hs =>
  have ha := h.modify hI id (f := fun s => { s with activation := slot.activation + 1 })
    (fun _ => rfl) fun _ => rfl
  obtain ⟨hb, hbound⟩ := ha.bindOnce hI slot (slot?_modify hs _) rfl rfl
  simp only at he
  split at he
  · next hw =>
    cases he
    rw [hw] at hb
    exact hb
  · next w₁ node hw =>
    cases he
    rw [hw] at hb hbound
    obtain ⟨s, hs, rfl, hsb⟩ := hbound rfl
    have hr : (w₁.record (.called id .execute)).Living I := hb.of_eq rfl rfl
    exact hr.absorb hI hs _ (.execute _ hsb rfl)

/-- Only a node with children is handed a result. -/
theorem receive {ok : Bool} {d : Dispatch} (hI : Life.Lasting cs I) (h : w.Living I)
    (hcs : cs id ≠ []) (he : w.receive id ok = .ok (w', d)) : w'.Living I := by
  unfold World.receive at he
  split at he
  · cases he
  next slot hs =>
  cases he
  have hr : (w.record (.called id (.receive ok))).Living I := h.of_eq rfl rfl
  exact hr.absorb hI hs _ (.receive _ hcs rfl ok)

theorem stop (hI : Life.Lasting cs I) (h : w.Living I) (he : w.stop id = .ok w') :
    w'.Living I := by
  unfold World.stop at he
  split at he
  · cases he
  next slot hs =>
  cases he
  have hr : (w.record (.called id .stop)).Living I := h.of_eq rfl rfl
  have hn : Life.Next (cs id) (w.life slot)
      ((w.life slot).after (Node.stop slot.node (w.context id slot.activation))) := .stop _ rfl
  have hk := (hr.keep hI hs hn).modify hI id
    (f := fun s => { s with observers := [], activation := s.activation + 1 })
    (fun _ => rfl) fun _ => rfl
  exact hk.of_eq rfl rfl

theorem interrupt (hI : Life.Lasting cs I) (h : w.Living I) (he : w.interrupt id = .ok w') :
    w'.Living I := by
  unfold World.interrupt at he
  split at he
  · cases he
  next slot hs =>
  have ht := (h.tell id slot.observers).modify hI id (f := fun s => { s with observers := [] })
    (fun _ => rfl) fun _ => rfl
  exact ht.stop hI he

theorem hook (hI : Life.Lasting cs I) (h : w.Living I) (id : NodeId) (phase : Phase) :
    (w.hook id phase).1.Living I := by
  unfold World.hook
  split
  · exact h
  next slot hs =>
  split
  · exact h
  have hr : (w.record (.called id (.hook phase))).Living I := h.of_eq rfl rfl
  have hn : Life.Next (cs id) (w.life slot)
      ((w.life slot).after (Node.hook slot.node (w.context id slot.activation) phase)) :=
    .hook _ rfl phase
  have ha := hr.absorb hI hs slot.activation hn
  simp only
  split <;> exact ha

theorem ready (hI : Life.Lasting cs I) (h : w.Living I) (id : NodeId) :
    (w.ready id).1.Living I := by
  unfold World.ready
  split
  · exact h
  next slot hs =>
  split
  · exact h
  · exact h.keepReply hI hs _ (.ready (w.life slot) w.tick)

theorem registered (hI : Life.Lasting cs I) (h : w.Living I) (id : NodeId) :
    (w.registered id).Living I := by
  rcases registered_cases w id with he | ⟨slot, hs, -, he⟩
  · rwa [he]
  · rw [he]
    exact h.keepReply hI hs _ (.registered (w.life slot))

theorem unregistered (hI : Life.Lasting cs I) (h : w.Living I) (id : NodeId) :
    (w.unregistered id).Living I := by
  rcases unregistered_cases w id with he | ⟨slot, hs, -, he⟩
  · rwa [he]
  · rw [he]
    exact h.keepReply hI hs _ (.unregistered (w.life slot))

end Living

end World

end BehaviorTree
