/-
The stacks of a tree can be told from what happened.

At every moment between two steps, also in the middle of a call, the nodes of each stack are
those that its happenings leave when they are played once more; a stack that is not there is
told as empty. Whatever is executed, handed a result or forwarded a hook was on top of the
stack that did it.
-/
import BehaviorTree.Proofs.Tree.StackChanges

namespace BehaviorTree.Tree

variable {σ : Type}

/-- The nodes of each stack are told by the happenings. -/
def ReplaysStacks (t : Tree σ) : Prop :=
  ∀ label, stackOf label t.world.happenings = ((t.stack? label).map (·.nodes)).getD []

/-- Calls of nodes and stacks that are torn down change no stack that is told. -/
theorem stackOf_append_quiet {hs new : List Happening} (label : StackLabel)
    (h : ∀ x ∈ new, ∀ ns, x.replay label ns = ns) : stackOf label (hs ++ new) = stackOf label hs := by
  rw [stackOf_append]
  generalize stackOf label hs = ns
  induction new with
  | nil => rfl
  | cons x new ih =>
    rw [List.foldl_cons, h x List.mem_cons_self]
    exact ih fun y hy => h y (List.mem_cons_of_mem x hy)

variable [Node σ] {call : HostCall} {t t' t'' : Tree σ} {found found' told told' : List Breach}

/-- What a change leaves in the happenings: its dispatches go to the tops of stacks that
`labels` allows. -/
structure Leads (labels : List Happening → StackLabel → Prop) (t t' : Tree σ)
    (new : List Happening) : Prop where
  happenings : t'.world.happenings = t.world.happenings ++ new
  led : Led labels t.world.happenings new

omit [Node σ] in
theorem leads_refl (labels : List Happening → StackLabel → Prop) (t : Tree σ) :
    Leads labels t t [] :=
  ⟨(List.append_nil _).symm, .nil _ _⟩

omit [Node σ] in
theorem Leads.trans {labels : List Happening → StackLabel → Prop} {new new' : List Happening}
    (h : Leads labels t t' new) (h' : Leads (fun before => labels (new ++ before)) t' t'' new') :
    Leads labels t t'' (new ++ new') :=
  ⟨by rw [h'.happenings, h.happenings, List.append_assoc],
    h.led.append (h.happenings ▸ h'.led)⟩

omit [Node σ] in
theorem Leads.mono {labels labels' : List Happening → StackLabel → Prop} {new : List Happening}
    (h : Leads labels t t' new) (hl : ∀ before label, labels before label → labels' before label) :
    Leads labels' t t' new :=
  ⟨h.happenings, h.led.mono hl⟩

/-- A call that is no dispatch, or a stack that is torn down, leads nobody anywhere. -/
theorem led_of_quiet {labels : List Happening → StackLabel → Prop} {old new : List Happening}
    (h : ∀ x ∈ new, (∃ label, x = .tornDown label) ∨
      ∃ node c, x = .called node c ∧ c.isNotice) : Led labels old new := by
  refine .of_quiet fun n c hm => ?_
  rcases h _ hm with ⟨label, hx⟩ | ⟨node, c', hx, hc⟩
  · cases hx
  · cases hx
    exact Call.isDispatch_of_isNotice hc

theorem not_violated_of_quiet {new : List Happening}
    (h : ∀ x ∈ new, (∃ label, x = .tornDown label) ∨
      ∃ node c, x = .called node c ∧ c.isNotice) (d : Diagnostic) :
    .violated d ∉ new := by
  intro hd
  rcases h _ hd with ⟨label, hx⟩ | ⟨node, c, hx, -⟩ <;> cases hx

theorem replay_of_quiet {x : Happening} (h : (∃ label, x = .tornDown label) ∨
    ∃ node c, x = .called node c ∧ c.isNotice) (label : StackLabel)
    (ns : List NodeId) : x.replay label ns = ns := by
  rcases h with ⟨l, rfl⟩ | ⟨node, c, rfl, -⟩ <;> rfl

omit [Node σ] in
theorem ReplaysStacks.stackOf_eq (ht : t.ReplaysStacks) (hsound : t.Sound) {label : StackLabel}
    {s : Stack} (hs : t.stack? label = some s) : stackOf s.label t.world.happenings = s.nodes := by
  rw [(hsound.stack hs).2, ht label, hs]
  rfl

/-- An operation on one stack dispatches to the top of that stack only. -/
theorem leads_operated (t' : Tree σ) {label : StackLabel} {s : Stack} {op : Stack.Operation}
    (hsound : t.Sound)
    (ht : t.ReplaysStacks) (hs : t.stack? label = some s)
    (hw : t'.world = (s.perform t.world op).world) :
    ∃ new, Leads (fun _ l => l = label) t t' new ∧ (∀ x ∈ new, x.IsOf label) ∧
      stackOf label t'.world.happenings = (s.perform t.world op).after.nodes := by
  have hl := (hsound.stack hs).2
  have hnodes := ht.stackOf_eq hsound hs
  obtain ⟨new, hr⟩ := (s.perform_made t.world op).acts.replayed
  refine ⟨new, ⟨by rw [hw]; exact hr.happenings, ?_⟩, ?_, ?_⟩
  · rw [← hl]
    exact hr.led hnodes
  · rw [← hl]
    exact hr.isOf
  · rw [hw, ← hl]
    exact hr.nodes hnodes

/-- Every change keeps the stacks told. -/
theorem StackChange.replaysStacks (h : StackChange call t found t') (hsound : t.Sound)
    (ht : t.ReplaysStacks) : t'.ReplaysStacks := by
  intro label
  cases h with
  | operated l hs _ _ hs' hw ho =>
    obtain ⟨new, hlead, hof, hnodes⟩ := leads_operated t' hsound ht hs hw
    by_cases he : label = l
    · subst he
      rw [hnodes, hs']
      rfl
    · rw [hlead.happenings, stackOf_of_ne _ hof he, ht label, ho label he]
  | aside new _ hs hh hn =>
    rw [hh, stackOf_append_quiet label fun x hx => replay_of_quiet (.inr (hn x hx)) label, ht label,
      hs label]
  | opened l s new _ hs hs' hnil _ ho hh hn =>
    rw [hh, stackOf_append_quiet label fun x hx => replay_of_quiet (.inr (hn x hx)) label, ht label]
    by_cases he : label = l
    · subst he
      rw [hs, hs', Option.map_some, hnil]
      rfl
    · rw [ho label he]
  | @closed l s new _ hs hs' ho hh hn _ =>
    have hknown := (hsound.stack hs).1.known
    obtain ⟨new', hlead, hof, hnodes⟩ := leads_operated
      { t with world := (s.perform t.world .terminate).world } hsound ht hs rfl
    have hq : ∀ x ∈ new, ∀ ns, x.replay label ns = ns := fun x hx =>
      replay_of_quiet ((hn x hx).imp (fun hx => ⟨l, hx⟩) id) label
    rw [hh, stackOf_append_quiet label hq]
    by_cases he : label = l
    · subst he
      rw [hs']
      exact hnodes.trans (Stack.terminate_eq hknown).2
    · rw [ho label he, ← ht label]
      have hsame := stackOf_of_ne t.world.happenings hof he
      rw [← hlead.happenings] at hsame
      exact hsame
  | configured config _ hs hw =>
    rw [hw, ht label, hs label, Option.map_map]
    rfl

/-- Every change leads its dispatches to the tops of stacks, and reports nothing. -/
theorem StackChange.leads (h : StackChange call t found t') (hsound : t.Sound)
    (ht : t.ReplaysStacks) :
    ∃ new, Leads (fun _ _ => True) t t' new ∧ ∀ d, .violated d ∉ new := by
  cases h with
  | operated l hs _ _ _ hw _ =>
    obtain ⟨new, hlead, hof, -⟩ := leads_operated t' hsound ht hs hw
    exact ⟨new, hlead.mono fun _ _ _ => trivial, fun d hd => hof _ hd⟩
  | aside new _ _ hh hn =>
    exact ⟨new, ⟨hh, led_of_quiet fun x hx => .inr (hn x hx)⟩,
      not_violated_of_quiet fun x hx => .inr (hn x hx)⟩
  | opened l s new _ _ _ _ _ _ hh hn =>
    exact ⟨new, ⟨hh, led_of_quiet fun x hx => .inr (hn x hx)⟩,
      not_violated_of_quiet fun x hx => .inr (hn x hx)⟩
  | @closed l s new _ hs _ _ hh hn _ =>
    obtain ⟨new', hlead, hof, -⟩ := leads_operated
      { t with world := (s.perform t.world .terminate).world } hsound ht hs rfl
    have hq : ∀ x ∈ new, (∃ label, x = .tornDown label) ∨
        ∃ node c, x = .called node c ∧ c.isNotice :=
      fun x hx => (hn x hx).imp (fun hx => ⟨l, hx⟩) id
    refine ⟨new' ++ new, ⟨?_, (hlead.led.mono fun _ _ _ => trivial).append (led_of_quiet hq)⟩,
      fun d hd => ?_⟩
    · rw [hh, ← List.append_assoc, ← hlead.happenings]
      rfl
    · rcases List.mem_append.1 hd with hd | hd
      · exact hof _ hd
      · exact not_violated_of_quiet hq d hd
  | configured config _ _ hw =>
    exact ⟨[], ⟨by rw [hw, List.append_nil], .nil _ _⟩, by simp⟩

theorem Runs.replaysStacks (h : Runs call t found told t') (hs : t.Sound) (ht : t.ReplaysStacks) :
    t'.ReplaysStacks := by
  induction h with
  | refl => exact ht
  | step h hstep ih => exact (hstep.stackChange (h.sound hs)).replaysStacks (h.sound hs) ih
  | @report t' _ _ b _ _ ih =>
    intro label
    have hstack : ({ t' with world := t'.world.report (.ofFault b.stack b.error) } : Tree σ).stack?
        label = t'.stack? label := by
      cases label <;> rfl
    rw [hstack, ← ih label]
    refine (congrArg (stackOf label) (World.happenings_record _ _)).trans ?_
    refine stackOf_append_quiet label fun x hx ns => ?_
    simp only [Record.happening?, Diagnostic.ofFault, if_true, Option.toList_some,
      List.mem_singleton] at hx
    rw [hx]
    rfl

omit [Node σ] in
theorem replaysStacks_make {g : Graph σ} {root : NodeId} {b : Blackboard}
    (h : make g root b = .ok t) :
    t.ReplaysStacks := by
  obtain ⟨-, rfl⟩ := make_ok h
  intro label
  cases label <;> rfl

end BehaviorTree.Tree
