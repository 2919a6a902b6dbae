/-
Moments of a world, and which executions are still the present ones later.

A world goes from moment to moment by the operations on its nodes and by what is written
into its records, its queue, its clock, its schedule and its variables. The activation of a
node is a counter that only ever goes up, and it goes up exactly when an execution of the
node begins or a stop of it is done; so a token of an earlier moment names the present
execution for as long as neither has happened.
-/
import BehaviorTree.Proofs.World.Happening

namespace BehaviorTree

/-- An execution of the node begins, with or without its variables being bound first, or a
stop of it is done. -/
def Happening.renews (node : NodeId) : Happening → Bool
  | .called id .bind | .called id .execute | .called id .stop => id = node
  | _ => false

namespace World

variable {σ : Type}

def activation? (w : World σ) (id : NodeId) : Option Nat :=
  (w.graph.slot? id).map (·.activation)

/-- A token is the one of its node's present execution. -/
theorem progress?_eq_some_iff {w : World σ} {p : Progress} :
    w.progress? p.node = some p ↔ w.activation? p.node = some p.activation := by
  unfold progress? activation?
  cases w.graph.slot? p.node with
  | none => simp
  | some slot =>
    constructor
    · intro h
      exact congrArg (Option.map Progress.activation) h
    · intro h
      simp only [Option.map_some, Option.some.injEq] at h ⊢
      rw [h]

theorem isCurrent_iff {w : World σ} {p : Progress} :
    w.isCurrent p ↔ w.activation? p.node = some p.activation := by
  rw [← progress?_eq_some_iff]
  simp [isCurrent]

/-! ## Changes that no token notices -/

theorem activation?_modify (w : World σ) (id other : NodeId) {f : Slot σ → Slot σ}
    (hf : ∀ s, (f s).activation = s.activation) :
    (w.modify id f).activation? other = w.activation? other := by
  unfold activation? modify
  by_cases ho : other = id
  · subst ho
    rw [Graph.slot?_modify_self, Option.map_map]
    congr 1
    funext s
    exact hf s
  · rw [Graph.slot?_modify_of_ne w.graph ho]

theorem activation?_of_graph {w w' : World σ} (h : w'.graph = w.graph) (id : NodeId) :
    w'.activation? id = w.activation? id := by
  unfold activation?
  rw [h]

@[simp] theorem activation?_keep {α : Type} (w : World σ) (id other : NodeId) (step : Step σ α) :
    (w.keep id step).activation? other = w.activation? other := by
  have hm : (w.modify id fun s => { s with node := step.node }).activation? other
      = w.activation? other := activation?_modify w id other fun _ => rfl
  refine (activation?_of_graph ?_ other).trans hm
  unfold keep
  split <;> simp [graph_hear, record]

@[simp] theorem activation?_absorb {α : Type} (w : World σ) (id other : NodeId)
    (activation : Nat) (step : Step σ α) :
    (w.absorb id activation step).activation? other = w.activation? other := by
  have hm : ((w.keep id step).modify id fun s =>
      { s with observers := s.observers ++ step.effects.observers }).activation? other
        = (w.keep id step).activation? other :=
    activation?_modify _ id other fun _ => rfl
  exact hm.trans (activation?_keep w id other step)

@[simp] theorem activation?_keepReply {α : Type} (w : World σ) (id other : NodeId) (call : Call)
    (reply : Reply σ α) :
    (w.keepReply id call reply).activation? other = w.activation? other := by
  have hm : ((w.record (.called id call)).modify id fun s =>
      { s with node := reply.node }).activation? other = w.activation? other :=
    activation?_modify (w.record (.called id call)) id other fun _ => rfl
  exact (activation?_of_graph (graph_hear ..) other).trans hm

variable [Node σ] {w w' w'' : World σ} {id : NodeId}

theorem activation?_bindOnce (w : World σ) (id other : NodeId) (slot : Slot σ) :
    (w.bindOnce id slot).1.activation? other = w.activation? other := by
  unfold bindOnce
  split
  · rfl
  · refine Eq.trans (activation?_modify _ id other fun _ => ?_) (activation?_keepReply ..)
    rfl

/-! ## What each operation does to the tokens -/

/-- The activation of one node goes up by one. -/
def Renewed (id : NodeId) (w w' : World σ) : Prop :=
  ∀ other, w'.activation? other
    = if other = id then (w.activation? other).map (· + 1) else w.activation? other

omit [Node σ] in
theorem renewed_modify {slot : Slot σ} (hs : w.graph.slot? id = some slot)
    {f : Slot σ → Slot σ} (hf : (f slot).activation = slot.activation + 1) :
    w.Renewed id (w.modify id f) := by
  intro other
  unfold activation? modify
  split
  · next ho =>
    subst ho
    simp [Graph.slot?_modify_self, hs, hf]
  · next ho => rw [Graph.slot?_modify_of_ne w.graph ho]

theorem execute_renewed {d : Dispatch} (h : w.execute id = .ok (w', d)) : w.Renewed id w' := by
  unfold execute at h
  split at h
  · cases h
  next slot hs =>
  simp only at h
  have hr : w.Renewed id (w.modify id fun s => { s with activation := slot.activation + 1 }) :=
    renewed_modify hs rfl
  have hb := activation?_bindOnce
    (w.modify id fun s => { s with activation := slot.activation + 1 }) id
  intro other
  split at h
  · next hw =>
    cases h
    have hb := hb other slot
    rw [hw] at hb
    exact hb.trans (hr other)
  · next hw =>
    cases h
    have hb := hb other slot
    rw [hw] at hb
    exact (activation?_absorb ..).trans ((activation?_of_graph rfl other).trans (hb.trans (hr other)))

theorem stop_renewed (h : w.stop id = .ok w') : w.Renewed id w' := by
  unfold stop at h
  split at h
  · cases h
  next slot hs =>
  cases h
  intro other
  let wk := (w.record (.called id .stop)).keep id (Node.stop slot.node (w.context id slot.activation))
  have hk : ∀ other, wk.activation? other = w.activation? other := fun other =>
    (activation?_keep ..).trans (activation?_of_graph rfl other)
  have hw : wk.activation? id = some slot.activation := by
    rw [hk, activation?, hs]
    rfl
  obtain ⟨slot', hs', ha⟩ := Option.map_eq_some_iff.1 hw
  have hr : wk.Renewed id (wk.modify id fun s =>
      { s with observers := [], activation := s.activation + 1 }) := renewed_modify hs' rfl
  have hr := hr other
  rw [hk] at hr
  exact hr

theorem interrupt_renewed (h : w.interrupt id = .ok w') : w.Renewed id w' := by
  unfold interrupt at h
  split at h
  · cases h
  next slot hs =>
  intro other
  have ht : ((w.tell id slot.observers).modify id fun s => { s with observers := [] }).activation?
      other = w.activation? other :=
    (activation?_modify _ id other fun _ => by rfl).trans (activation?_of_graph (graph_tell ..) other)
  rw [stop_renewed h other, ht]

theorem activation?_receive {ok : Bool} {d : Dispatch} (h : w.receive id ok = .ok (w', d))
    (other : NodeId) : w'.activation? other = w.activation? other := by
  unfold receive at h
  split at h
  · cases h
  · cases h
    exact (activation?_absorb ..).trans (activation?_of_graph rfl other)

theorem activation?_hook (w : World σ) (id other : NodeId) (phase : Phase) :
    (w.hook id phase).1.activation? other = w.activation? other := by
  unfold hook
  split
  · rfl
  split
  · rfl
  · simp only
    split <;> exact (activation?_absorb ..).trans (activation?_of_graph rfl other)

theorem activation?_ready (w : World σ) (id other : NodeId) :
    (w.ready id).1.activation? other = w.activation? other := by
  unfold ready
  split
  · rfl
  split
  · rfl
  · exact activation?_keepReply ..

theorem activation?_registered (w : World σ) (id other : NodeId) :
    (w.registered id).activation? other = w.activation? other := by
  rcases registered_cases w id with h | ⟨slot, -, -, h⟩
  · rw [h]
  · rw [h, activation?_keepReply]

theorem activation?_unregistered (w : World σ) (id other : NodeId) :
    (w.unregistered id).activation? other = w.activation? other := by
  rcases unregistered_cases w id with h | ⟨slot, -, -, h⟩
  · rw [h]
  · rw [h, activation?_keepReply]

/-! ## Moments -/

/-- The next moment of a world. -/
inductive Next : World σ → World σ → Prop
  | execute {u u' : World σ} {n : NodeId} {d : Dispatch} (h : u.execute n = .ok (u', d)) : Next u u'
  | receive {u u' : World σ} {n : NodeId} {ok : Bool} {d : Dispatch}
      (h : u.receive n ok = .ok (u', d)) : Next u u'
  | stop {u u' : World σ} {n : NodeId} (h : u.stop n = .ok u') : Next u u'
  | interrupt {u u' : World σ} {n : NodeId} (h : u.interrupt n = .ok u') : Next u u'
  | hook (u : World σ) (n : NodeId) (phase : Phase) : Next u (u.hook n phase).1
  | ready (u : World σ) (n : NodeId) : Next u (u.ready n).1
  | registered (u : World σ) (n : NodeId) : Next u (u.registered n)
  | unregistered (u : World σ) (n : NodeId) : Next u (u.unregistered n)
  | record (u : World σ) {r : Record} (h : ∀ node call, r ≠ .called node call) :
      Next u (u.record r)
  | events (u : World σ) (events : Queue StackEvent) : Next u { u with events }
  | tick (u : World σ) (tick : Tick) : Next u { u with tick }
  | schedule (u : World σ) (schedule : Schedule) : Next u { u with schedule }
  | blackboard (u : World σ) (blackboard : Blackboard) : Next u { u with blackboard }

/-- A later moment of the same world, or the same moment. -/
def Since : World σ → World σ → Prop := Relation.ReflTransGen Next

theorem Since.refl (w : World σ) : w.Since w := Relation.ReflTransGen.refl

theorem Since.trans (h : w.Since w') (h' : w'.Since w'') : w.Since w'' :=
  Relation.ReflTransGen.trans h h'

theorem Next.since (h : w.Next w') : w.Since w' := Relation.ReflTransGen.single h

/-- What happened between two moments, and what it did to the tokens. -/
structure Aged (new : List Happening) (w w' : World σ) : Prop where
  happenings : w'.happenings = w.happenings ++ new
  activation : ∀ id a, w.activation? id = some a → ∃ a', w'.activation? id = some a' ∧ a ≤ a' ∧
    (a' = a ↔ ∀ h ∈ new, h.renews id = false)

namespace Aged

variable {new new' : List Happening}

omit [Node σ] in
theorem trans (h : Aged new w w') (h' : Aged new' w' w'') : Aged (new ++ new') w w'' := by
  refine ⟨by rw [h'.happenings, h.happenings, List.append_assoc], fun id a ha => ?_⟩
  obtain ⟨a₁, ha₁, hle₁, hiff₁⟩ := h.activation id a ha
  obtain ⟨a₂, ha₂, hle₂, hiff₂⟩ := h'.activation id a₁ ha₁
  refine ⟨a₂, ha₂, by omega, ?_⟩
  rw [List.forall_mem_append, ← hiff₁, ← hiff₂]
  omega

omit [Node σ] in
/-- Nothing that happened renews a node, and no token changed. -/
theorem of_quiet (hh : w'.happenings = w.happenings ++ new)
    (hn : ∀ h ∈ new, ∀ id, h.renews id = false)
    (ha : ∀ id, w'.activation? id = w.activation? id) : Aged new w w' := by
  refine ⟨hh, fun id a hs => ⟨a, (ha id).trans hs, Nat.le_refl a, ?_⟩⟩
  simp only [true_iff]
  exact fun h hm => hn h hm id

omit [Node σ] in
/-- One node is renewed, and nothing happened to others. -/
theorem of_renewed (calls : List Call) (hr : w.Renewed id w')
    (hh : w'.happenings = w.happenings ++ calls.map (.called id))
    (hc : ∃ c ∈ calls, (Happening.called id c).renews id) :
    Aged (calls.map (.called id)) w w' := by
  refine ⟨hh, fun other a ha => ?_⟩
  rw [hr other, ha]
  by_cases ho : other = id
  · subst ho
    obtain ⟨c, hm, hc⟩ := hc
    refine ⟨a + 1, by simp, by omega, by simp, fun h => ?_⟩
    have hf := h _ (List.mem_map_of_mem hm)
    rw [hc] at hf
    cases hf
  · refine ⟨a, by simp [ho], Nat.le_refl a, fun _ h hm => ?_, fun _ => rfl⟩
    obtain ⟨c, -, rfl⟩ := List.mem_map.1 hm
    cases c <;> simp [Happening.renews, Ne.symm ho]

end Aged

theorem Next.aged (h : w.Next w') : ∃ new, Aged new w w' := by
  cases h with
  | execute h =>
    obtain ⟨calls, hh, hc⟩ := happenings_execute h
    refine ⟨_, .of_renewed _ (execute_renewed h) hh ?_⟩
    rcases hc with rfl | rfl | rfl <;> simp [Happening.renews]
  | receive h =>
    exact ⟨_, .of_quiet (happenings_receive h) (by simp [Happening.renews])
      (activation?_receive h)⟩
  | stop h =>
    exact ⟨_, .of_renewed [.stop] (stop_renewed h) (happenings_stop h)
      (by simp [Happening.renews])⟩
  | interrupt h =>
    exact ⟨_, .of_renewed [.stop] (interrupt_renewed h) (happenings_interrupt h)
      (by simp [Happening.renews])⟩
  | hook id phase =>
    rcases happenings_hook w id phase with hh | hh
    · exact ⟨[], .of_quiet (by rw [hh, List.append_nil]) (by simp)
        fun other => activation?_hook w id other phase⟩
    · exact ⟨_, .of_quiet hh (by simp [Happening.renews])
        fun other => activation?_hook w id other phase⟩
  | ready id =>
    rcases happenings_ready w id with hh | ⟨answer, hh⟩
    · exact ⟨[], .of_quiet (by rw [hh, List.append_nil]) (by simp) (activation?_ready w id)⟩
    · exact ⟨_, .of_quiet hh (by simp [Happening.renews]) (activation?_ready w id)⟩
  | registered id =>
    rcases happenings_registered w id with hh | hh
    · exact ⟨[], .of_quiet (by rw [hh, List.append_nil]) (by simp) (activation?_registered w id)⟩
    · exact ⟨_, .of_quiet hh (by simp [Happening.renews]) (activation?_registered w id)⟩
  | unregistered id =>
    rcases happenings_unregistered w id with hh | hh
    · exact ⟨[], .of_quiet (by rw [hh, List.append_nil]) (by simp) (activation?_unregistered w id)⟩
    · exact ⟨_, .of_quiet hh (by simp [Happening.renews]) (activation?_unregistered w id)⟩
  | @record r h =>
    refine ⟨_, .of_quiet (happenings_record w r) (fun x hx id => ?_) fun _ => rfl⟩
    cases x with
    | called node call => exact absurd (Record.eq_called_of_happening? (by simpa using hx)) (h node call)
    | _ => rfl
  | events | tick | schedule | blackboard =>
    exact ⟨[], .of_quiet (List.append_nil _).symm (by simp) fun _ => rfl⟩

theorem Since.aged (h : w.Since w') : ∃ new, Aged new w w' := by
  induction h with
  | refl => exact ⟨[], .of_quiet (List.append_nil _).symm (by simp) fun _ => rfl⟩
  | tail _ h ih =>
    obtain ⟨new, hn⟩ := ih
    obtain ⟨new', hn'⟩ := h.aged
    exact ⟨_, hn.trans hn'⟩

/-- A token names the present execution for as long as no execution of its node began and no
stop of it was done since. -/
theorem Since.isCurrent_iff {p : Progress} (h : w.Since w') (hp : w.progress? p.node = some p) :
    ∃ new, w'.happenings = w.happenings ++ new ∧
      (w'.isCurrent p ↔ ∀ x ∈ new, x.renews p.node = false) := by
  obtain ⟨new, ha⟩ := h.aged
  refine ⟨new, ha.happenings, ?_⟩
  obtain ⟨a, hw, -, hiff⟩ := ha.activation p.node p.activation (progress?_eq_some_iff.1 hp)
  rw [World.isCurrent_iff, hw, ← hiff, Option.some.injEq]

end World

end BehaviorTree
