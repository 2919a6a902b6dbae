/-
Single-stepping.

While stepping is on, a node that ends by its own answer holds its stack: the stack executes no
node and forwards no hook until the host resumes the stack or rolls it back, or the stack goes
with its service. Whoever is executed meanwhile is on top of another stack, so where no node has
its home on two stacks no node of the stack is executed at all. A node that is ended from
outside, by a task that it deferred or by its hook does not hold the stack, whatever the
settings: the next node is executed in the very same pass.
-/
import BehaviorTree.Library.Flow
import BehaviorTree.Proofs.Library.Children
import BehaviorTree.Proofs.Tree.Events

namespace BehaviorTree

/-! ## Stillness -/

/-- A node is bound or executed, or hears a hook. -/
def Call.stirs : Call → Bool
  | bind | execute | hook _ => true
  | _ => false

theorem Call.not_stirs_of_isNotice {c : Call} (h : c.isNotice) : c.stirs = false := by
  cases c <;> first | rfl | cases h

theorem Mark.eq_called_of_stirs {label : StackLabel} {m : Mark} {n : NodeId} {c : Call}
    (h : .called n c ∈ m.happenings label) (hc : c.stirs) : m = .called n c ∧ m.stirs := by
  cases m with
  | called n' c' =>
    obtain ⟨rfl, rfl⟩ : n = n' ∧ c = c' := by simpa [Mark.happenings] using h
    cases c <;> first | exact ⟨rfl, rfl⟩ | cases hc
  | ended | rolledBack =>
    obtain ⟨-, rfl⟩ : _ = _ ∧ c = .stop := by simpa [Mark.happenings] using h
    cases hc
  | came | cleared | resumed => simp [Mark.happenings] at h

variable {σ : Type} [Node σ] {g : Graph σ} {root : NodeId}

/-- No node of the stack `label` stirs in the event, before which `old` happened. -/
def Event.Spares (label : StackLabel) (old : List Happening) (x : Event) : Prop :=
  ∀ n ∈ stackOf label old, ∀ c, .called n c ∈ x.happenings → c.stirs = false

/-- The event, before which `old` happened, leaves the stack `label` still. -/
structure Event.IsStill (g : Graph σ) (root : NodeId) (label : StackLabel) (old : List Happening)
    (x : Event) : Prop where
  /-- Whoever stirs is on top of another stack, which turns to it. -/
  elsewhere : ∀ n c, .called n c ∈ x.happenings → c.stirs →
    ∃ other cause, other ≠ label ∧ x = .on other cause (.called n c) ∧
      (stackOf other old).head? = some n
  /-- Where no node has its home on two stacks, no node of the stack stirs. -/
  spared : g.CallsChildren → g.Apart root → x.Spares label old

namespace Tree

variable {events : List Event} {t t' : Tree σ}

/-- An event that finds a stack held leaves it still. -/
theorem Tells.isStill {ledgers : StackLabel → Ledger} {calls : List HostCall}
    (h : Tells ledgers t t' events) (ha : Attributed calls t.world.happenings events)
    (hhomed : g.CallsChildren → Homed g root t') {label : StackLabel} {before after : List Event}
    {x : Event} (he : events = before ++ x :: after)
    (hheld : (Event.balance label (ledgers label) before).held) :
    x.IsStill g root label (t.world.happenings ++ before.flatMap Event.happenings) := by
  have hold : t.world.happenings ++ before.flatMap Event.happenings <+: t'.world.happenings := by
    rw [h.happenings, he, List.flatMap_append, ← List.append_assoc]
    exact List.prefix_append _ _
  have helsewhere : ∀ n c, .called n c ∈ x.happenings → c.stirs →
      ∃ other cause, other ≠ label ∧ x = .on other cause (.called n c) ∧
        (stackOf other (t.world.happenings ++ before.flatMap Event.happenings)).head?
          = some n := by
    intro n c hm hc
    cases x with
    | aside y =>
      obtain rfl : .called n c = y := by simpa [Event.happenings] using hm
      rw [Call.not_stirs_of_isNotice (ha.aside n c (by simp [he]))] at hc
      cases hc
    | on other cause m =>
      obtain ⟨rfl, hm⟩ := Mark.eq_called_of_stirs hm hc
      obtain ⟨-, htop, -⟩ := Event.onTop_append.1 (he ▸ ha.onTop)
      refine ⟨other, cause, ?_, rfl, htop other cause n c rfl⟩
      rintro rfl
      obtain ⟨-, hallowed, -⟩ := Event.permits_append.1 (he ▸ h.permits other)
      rw [(hallowed rfl).1.still hheld] at hm
      cases hm
  refine ⟨helsewhere, fun hc hap n hn c hm => Bool.eq_false_iff.2 fun hstirs => ?_⟩
  obtain ⟨other, -, hne, -, htop⟩ := helsewhere n c hm hstirs
  exact hne ((hhomed hc).label_unique hap hold hold (List.mem_of_mem_head? htop) hn)

/-! ## Held stacks -/

/-- Once a node ends by its own answer while stepping is on, its stack is held. The events come
after `old`. -/
structure Stepped (g : Graph σ) (root : NodeId) (old : List Happening) (events : List Event)
    (t : Tree σ) : Prop where
  /-- The stack is still until it is released. -/
  still : ∀ before label cause e between x after,
    events = before ++ .on label cause (.ended e) :: (between ++ x :: after) →
    e.answered → e.stepping → (∀ y ∈ between, y.releases label = false) →
    x.IsStill g root label
      (old ++ (before ++ .on label cause (.ended e) :: between).flatMap Event.happenings)
  /-- Unless it was released, it is there and paused. -/
  paused : ∀ before label cause e after, events = before ++ .on label cause (.ended e) :: after →
    e.answered → e.stepping → (∀ x ∈ after, x.releases label = false) →
    ∃ s, t.stack? label = some s ∧ s.paused

/-- The tree keeps a stack held until it is released. -/
theorem held_balance {label : StackLabel} {l : Ledger} (h : Event.Permits label l events)
    (hl : l.held) (hr : ∀ x ∈ events, x.releases label = false) :
    (Event.balance label l events).held := by
  induction events generalizing l with
  | nil => exact hl
  | cons x events ih =>
    refine ih h.2 ?_ fun y hy => hr y (List.mem_cons_of_mem x hy)
    cases x with
    | aside => exact hl
    | on label' cause m =>
      rw [Event.enter]
      split
      · next he =>
        refine Ledger.held_enter hl (Bool.eq_false_iff.2 fun hm => ?_)
        have hcause : cause ≠ .tree := fun hc => by
          rw [(h.1 he).2 hm hc] at hl
          cases hl
        have hx := hr _ List.mem_cons_self
        simp [Event.releases, he, hm, hcause] at hx
      · exact hl

/-- Whatever happens next finds a stack held if a node of it ended by its own answer and it
was not released since. -/
theorem held_of_ended {label : StackLabel} {cause : Cause} {e : Ending}
    {before between : List Event}
    (h : Event.Permits label {} (before ++ .on label cause (.ended e) :: between))
    (ha : e.answered) (hs : e.stepping) (hr : ∀ x ∈ between, x.releases label = false) :
    (Event.balance label {} (before ++ .on label cause (.ended e) :: between)).held := by
  have hbetween := (Event.permits_append.1 h).2.2
  have hheld := held_balance hbetween (by simp [Event.enter, Ledger.enter, ha, hs]) hr
  rw [Event.balance_append]
  exact hheld

theorem Tells.stepped {calls : List HostCall} (h : Tells (fun _ => {}) t t' events)
    (ha : Attributed calls t.world.happenings events)
    (hhomed : g.CallsChildren → Homed g root t') :
    Stepped g root t.world.happenings events t' := by
  refine ⟨fun before label cause e between x after he hans hs hr => ?_,
    fun before label cause e after he hans hs hr => ?_⟩
  · have hsplit : events = (before ++ .on label cause (.ended e) :: between) ++ x :: after := by
      simpa using he
    have hbefore := (Event.permits_append.1 (hsplit ▸ h.permits label)).1
    exact h.isStill ha hhomed hsplit (held_of_ended hbefore hans hs hr)
  · have hheld := held_of_ended (he ▸ h.permits label) hans hs hr
    rw [← he] at hheld
    cases hl : t'.stack? label with
    | none =>
      rw [h.kept.empty label hl] at hheld
      cases hheld
    | some s => exact ⟨s, rfl, (h.kept.fits label s hl).held hheld⟩

/-- Whatever the host calls, a node that ends by its own answer while stepping is on holds its
stack until the host lets the stack go on. -/
theorem stepped_performAll {b : Blackboard} (hm : make g root b = .ok t) (calls : List HostCall) :
    ∃ events, Played t calls events ∧
      (t.performAll calls).world.happenings
        = t.world.happenings ++ events.flatMap Event.happenings ∧
      Stepped g root t.world.happenings events (t.performAll calls) := by
  obtain ⟨events, hplayed, htells, hattr⟩ :=
    exists_played (sound_make hm) (replaysStacks_make hm) (kept_make hm) calls
  exact ⟨events, hplayed, htells.happenings,
    htells.stepped hattr fun hc => performAll_homed hm hc calls⟩

section TwoSteps

/-- One node after the other; the second one waits. -/
def twoSteps (first : Scripted) : Graph (FlowNode ⊕ Scripted) where
  slots := #[
    { name := "first", node := .inr first, parent := some ⟨2⟩ },
    { name := "second", node := .inr { name := "second", execute := [{ answer := some .wait }] },
      parent := some ⟨2⟩ },
    { name := "both", node := .inl (.sequence { children := [⟨0⟩, ⟨1⟩] }) }]

/-- Succeeds as soon as it is executed. -/
def quick : Scripted := { name := "first", execute := [{ answer := some .success }] }

theorem built_twoSteps : (twoSteps quick).Built :=
  .add (.add (.add .empty "first" (Sum.inr quick)) "second"
    (Sum.inr { name := "second", execute := [{ answer := some .wait }] })) "both"
    (Sum.inl (FlowNode.sequence { children := [⟨0⟩, ⟨1⟩] }))

theorem callsChildren_twoSteps : (twoSteps quick).CallsChildren :=
  Graph.callsChildren_of_forall fun slot hs => by
    simp only [twoSteps, List.mem_cons, List.not_mem_nil, or_false] at hs
    rcases hs with rfl | rfl | rfl
    · exact (Scripted.Names.callsOnly ⟨List.nil_subset _, List.nil_subset _⟩).inr
    · exact (Scripted.Names.callsOnly ⟨List.nil_subset _, List.nil_subset _⟩).inr
    · exact (FlowNode.callsOnly _).inl

theorem apart_twoSteps : (twoSteps quick).Apart ⟨2⟩ :=
  Graph.SinglyPlaced.apart (by decide) (built_twoSteps.wired.parent_unique rfl)

/-- Stepping is turned on, and the tree is started. -/
def startStepping : List HostCall := [.withConfig { pauseAfterSingleExecution := true }, .start]

/-- The first node succeeds at once, and the second one is called, but is not executed before
the host resumes the stack. -/
theorem stepped_twoSteps :
    (twoSteps quick).CallsChildren ∧ (twoSteps quick).Apart ⟨2⟩ ∧
    ∃ t, make (twoSteps quick) ⟨2⟩ {} = .ok t ∧
      (∃ events, Played t (startStepping ++ [.update 0]) events ∧
        Stepped (twoSteps quick) ⟨2⟩ [] events
          (t.performAll (startStepping ++ [.update 0]))) ∧
      (t.performAll (startStepping ++ [.update 0])).main.nodes = [⟨1⟩, ⟨2⟩] ∧
      (t.performAll (startStepping ++ [.update 0])).main.paused ∧
      .called ⟨1⟩ .execute ∉ (t.performAll (startStepping ++ [.update 0])).world.happenings ∧
      .called ⟨1⟩ .execute
        ∈ (t.performAll (startStepping ++ [.update 0, .resume, .update 0])).world.happenings := by
  have hm : make (twoSteps quick) ⟨2⟩ {} = .ok _ := rfl
  obtain ⟨events, hplayed, -, hstepped⟩ := stepped_performAll hm (startStepping ++ [.update 0])
  exact ⟨callsChildren_twoSteps, apart_twoSteps, _, hm, ⟨events, hplayed, hstepped⟩,
    by decide +kernel, by decide +kernel, by decide +kernel, by decide +kernel⟩

/-- Stepping is on and the first node waits; the call ends it, and the second node is executed
in the same pass, although nobody resumed the stack or rolled it back. -/
def HurriesOn (first : Scripted) (call : HostCall) : Prop :=
  ∃ t, make (twoSteps first) ⟨2⟩ default = .ok t ∧
    (t.performAll startStepping).main.nodes = [⟨0⟩, ⟨2⟩] ∧
    [.called ⟨0⟩ .stop, .left .main ⟨0⟩, .called ⟨2⟩ (.receive true), .entered .main ⟨1⟩,
      .called ⟨1⟩ .bind, .called ⟨1⟩ .execute]
        <:+ (t.performAll (startStepping ++ [call])).world.happenings ∧
    (t.performAll (startStepping ++ [call])).main.paused = false

/-- A node does not hold its stack when the host ends it, when a task ends it that it deferred,
or when its hook ends it. -/
theorem hurriesOn_of_ended_outside :
    HurriesOn { name := "first", execute := [{ answer := some .wait }] } (.receiveReturn true) ∧
      HurriesOn { name := "first", execute := [{ answer := some .wait }] }
        (.endAction ⟨⟨0⟩, 1⟩ true) ∧
      HurriesOn
        { name := "first"
          execute := [{ instructions := [.endAfter 1 true], answer := some .wait }] }
        (.update 0) ∧
      HurriesOn
        { name := "first"
          execute := [{ answer := some .wait }]
          hooks := some fun phase => if phase = .update then [{ answer := some .success }] else [] }
        (.update 0) := by
  refine ⟨⟨_, rfl, ?_, ?_, ?_⟩, ⟨_, rfl, ?_, ?_, ?_⟩, ⟨_, rfl, ?_, ?_, ?_⟩, ⟨_, rfl, ?_, ?_, ?_⟩⟩
  all_goals decide +kernel

end TwoSteps

end Tree

end BehaviorTree
