/-
Which stack a node can come onto.

In a graph whose nodes call only their children each stack leads down from its head, so a node
comes onto a stack only if it lies under the head of it. Where no node lies under two heads
(`Graph.Apart`), that is one and the same stack at all times: no node ever comes onto two, also
not one after the other.
-/
import BehaviorTree.Proofs.Stack.Path
import BehaviorTree.Proofs.Tree.Replay
import BehaviorTree.Proofs.Tree.Rooted
import BehaviorTree.Proofs.Tree.Walk

namespace BehaviorTree

theorem Happening.mem_of_mem_replay {label : StackLabel} {ns : List NodeId} {n : NodeId}
    {x : Happening} (h : n ∈ x.replay label ns) : n ∈ ns ∨ x = .entered label n := by
  cases x with
  | entered l m =>
    simp only [replay] at h
    split at h
    · next hl =>
      rcases List.mem_cons.1 h with rfl | h
      · exact .inr (hl ▸ rfl)
      · exact .inl h
    · exact .inl h
  | left l m =>
    simp only [replay] at h
    split at h
    · exact .inl (List.mem_of_mem_tail h)
    · exact .inl h
  | called | tornDown | violated => exact .inl h

/-- What is on a stack once came onto it. -/
theorem entered_of_mem_stackOf {label : StackLabel} {hs : List Happening} {n : NodeId}
    (h : n ∈ stackOf label hs) : .entered label n ∈ hs := by
  suffices hfold : ∀ ns, n ∈ hs.foldl (Happening.replay label) ns →
      n ∈ ns ∨ .entered label n ∈ hs from (hfold [] h).resolve_left (List.not_mem_nil)
  clear h
  induction hs with
  | nil => exact fun _ h => .inl h
  | cons x hs ih =>
    intro ns h
    rcases ih _ h with h | h
    · rcases Happening.mem_of_mem_replay h with h | rfl
      · exact .inl h
      · exact .inr List.mem_cons_self
    · exact .inr (List.mem_cons_of_mem x h)

variable {σ : Type} [Node σ] {g : Graph σ} {root head : NodeId}

/-! ## Homes -/

/-- The node lies under the head of the stack `label`: the root, or a service that is attached. -/
inductive Graph.Home (g : Graph σ) (root : NodeId) : StackLabel → NodeId → Prop
  | main {n : NodeId} (h : g.Under root n) : Home g root .main n
  | service {owner s n : NodeId} (hs : s ∈ g.servicesOf owner) (h : g.Under s n) :
      Home g root (.service s) n

/-- Where no node lies under two heads, each has its home on one stack only. -/
theorem Graph.Apart.home_unique (h : g.Apart root) {l l' : StackLabel} {n : NodeId}
    (hl : g.Home root l n) (hl' : g.Home root l' n) : l = l' := by
  have hmain : ∀ {owner s}, s ∈ g.servicesOf owner → g.Under root n → ¬g.Under s n := by
    intro owner s hs hr hn
    have he := h.head_unique root s n (.inl rfl) (.inr ⟨owner, hs⟩) hr hn
    exact h.root_free owner (he ▸ hs)
  cases hl with
  | main hn =>
    cases hl' with
    | main => rfl
    | service hs hn' => exact absurd hn' (hmain hs hn)
  | service hs hn =>
    cases hl' with
    | main hn' => exact absurd hn (hmain hs hn')
    | service hs' hn' =>
      exact congrArg StackLabel.service
        (h.head_unique _ _ n (.inr ⟨_, hs⟩) (.inr ⟨_, hs'⟩) hn hn')

/-- By itself a tree begins a stack with its head only. -/
theorem Stack.Admits.heads {s : Stack} {op : Stack.Operation} (h : s.Admits head op) :
    (∀ id, op.Heads id → id = head) ∧ op.isStatus = false := by
  cases h with
  | start | restart => exact ⟨fun _ h => h, rfl⟩
  | _ => exact ⟨fun _ h => h.elim, rfl⟩

namespace Tree

variable {call : HostCall} {t t' : Tree σ} {found told : List Breach} {label : StackLabel}

omit [Node σ] in
/-- The root is the only node that a host has a stack begin with. -/
theorem heads_of_orders {op : Stack.Operation} (h : call.Orders t.root label op) :
    (∀ id, op.Heads id → id = t.head label) ∧ op.isStatus = false := by
  cases h with
  | start => exact ⟨fun _ h => h, rfl⟩
  | _ => exact ⟨fun _ h => h.elim, rfl⟩

/-- The tree grew from `g` under `root`, and each stack leads down from its head. -/
structure Descends (g : Graph σ) (root : NodeId) (t : Tree σ) : Prop where
  sound : t.Sound
  rooted : Rooted g root t
  path : ∀ label s, t.stack? label = some s → Stack.Path g (t.head label) s.nodes

/-- The heads stay the same. -/
theorem Rooted.head_eq (h : Rooted g root t) (h' : Rooted g root t') (label : StackLabel) :
    t'.head label = t.head label := by
  cases label with
  | main => exact h'.root.trans h.root.symm
  | service => rfl

theorem Descends.lined (h : Descends g root t) {s : Stack} (hs : t.stack? label = some s) :
    Stack.Lined g (t.head label) (s.nodes, t.world) :=
  ⟨h.path label s hs, (h.sound.stack hs).1.placed, h.rooted.grown⟩

/-- Whatever lies under the head of a stack that is there has its home on it. -/
theorem Rooted.home (h : Rooted g root t) {s : Stack} (hs : t.stack? label = some s) {n : NodeId}
    (hn : g.Under (t.head label) n) : g.Home root label n := by
  cases label with
  | main => exact .main (h.root ▸ hn)
  | service id =>
    obtain ⟨v, hv, -⟩ := Option.map_eq_some_iff.1 hs
    obtain ⟨hm, rfl⟩ := service?_eq_some hv
    obtain ⟨owner, ho⟩ := h.attached v hm
    exact .service ho hn

theorem StackChange.path (h : StackChange call t found t') (hc : g.CallsChildren)
    (ht : Descends g root t) :
    ∀ label s, t'.stack? label = some s → Stack.Path g (t.head label) s.nodes := by
  intro l s' hs'
  cases h with
  | @operated label s op hs hop _ hafter _ ho =>
    by_cases hl : l = label
    · subst hl
      cases hs'.symm.trans hafter
      have hheads := (hop.elim (·.heads) heads_of_orders).1
      exact (((s.perform_made t.world op).mono hheads).acts.lined hc (ht.lined hs)).path
    · exact ht.path l s' ((ho l hl).symm.trans hs')
  | aside _ _ hsame => exact ht.path l s' ((hsame l).symm.trans hs')
  | opened label s _ _ _ hopen hn _ ho =>
    by_cases hl : l = label
    · subst hl
      cases hs'.symm.trans hopen
      rw [hn]
      exact trivial
    · exact ht.path l s' ((ho l hl).symm.trans hs')
  | closed label _ _ _ hclosed ho =>
    by_cases hl : l = label
    · subst hl
      cases hs'.symm.trans hclosed
    · exact ht.path l s' ((ho l hl).symm.trans hs')
  | configured config _ hall =>
    obtain ⟨s, hs, rfl⟩ := Option.map_eq_some_iff.1 ((hall l).symm.trans hs')
    exact ht.path l s hs

theorem Step.descends (h : Step call t found t') (hc : g.CallsChildren)
    (ht : Descends g root t) : Descends g root t' := by
  have hr := h.rooted ht.rooted
  refine ⟨h.sound ht.sound, hr, fun l s hs => ?_⟩
  rw [ht.rooted.head_eq hr]
  exact (h.stackChange ht.sound).path hc ht l s hs

theorem Runs.descends (h : Runs call t found told t') (hc : g.CallsChildren)
    (ht : Descends g root t) : Descends g root t' := by
  induction h with
  | refl => exact ht
  | step _ h ih => exact h.descends hc ih
  | report _ _ ih =>
    refine ⟨ih.sound.world (.refl _) (Nat.le_refl _), ih.rooted.world (.refl _), fun l s hs => ?_⟩
    refine ih.path l s ?_
    rw [← hs]
    cases l <;> rfl

theorem descends_make {b : Blackboard} (h : make g root b = .ok t) : Descends g root t := by
  refine ⟨sound_make h, rooted_make h, fun l s hs => ?_⟩
  obtain ⟨-, rfl⟩ := make_ok h
  cases l with
  | main =>
    cases hs
    exact trivial
  | service => cases hs

/-! ## Where nodes came -/

/-- Whatever ever came onto a stack has its home there. -/
def Homed (g : Graph σ) (root : NodeId) (t : Tree σ) : Prop :=
  ∀ label n, .entered label n ∈ t.world.happenings → g.Home root label n

theorem Homed.append {new : List Happening} (h : Homed g root t)
    (hh : t'.world.happenings = t.world.happenings ++ new)
    (hnew : ∀ label n, .entered label n ∈ new → g.Home root label n) : Homed g root t' := by
  intro label n hn
  rw [hh] at hn
  exact (List.mem_append.1 hn).elim (h label n) (hnew label n)

/-- An operation brings nodes onto its stack that lie under the head. -/
theorem Homed.operated (h : Homed g root t) (hc : g.CallsChildren) (ht : Descends g root t)
    {s : Stack} {op : Stack.Operation} (hs : t.stack? label = some s)
    (hheads : ∀ id, op.Heads id → id = t.head label)
    (hw : t'.world = (s.perform t.world op).world) : Homed g root t' := by
  intro l n hn
  rw [hw] at hn
  have hacts := ((s.perform_made t.world op).mono hheads).acts
  rcases hacts.under_of_entered hc (ht.lined hs) hn with hn | ⟨hl, hn⟩
  · exact h l n hn
  · rw [hl, (ht.sound.stack hs).2]
    exact ht.rooted.home hs hn

theorem StackChange.homed (h : StackChange call t found t') (hc : g.CallsChildren)
    (ht : Descends g root t)
    (hh : Homed g root t) : Homed g root t' := by
  have hquiet : ∀ {new : List Happening},
      (∀ x ∈ new, (∃ label, x = .tornDown label) ∨ ∃ node c, x = .called node c ∧ c.isNotice) →
      ∀ label n, .entered label n ∈ new → g.Home root label n := by
    intro new hn label n hm
    rcases hn _ hm with ⟨_, hx⟩ | ⟨_, _, hx, -⟩ <;> cases hx
  cases h with
  | operated label hs hop _ _ hw =>
    exact hh.operated hc ht hs (hop.elim (·.heads) heads_of_orders).1 hw
  | aside new _ _ hnew hn => exact hh.append hnew (hquiet fun x hx => .inr (hn x hx))
  | opened label s new _ _ _ _ _ _ hnew hn =>
    exact hh.append hnew (hquiet fun x hx => .inr (hn x hx))
  | @closed label s new _ hs _ _ hnew hn =>
    have hheads : ∀ id, Stack.Operation.terminate.Heads id → id = t.head label :=
      fun _ h => h.elim
    have hend : Homed g root { t with world := (s.perform t.world .terminate).world } :=
      hh.operated hc ht hs hheads rfl
    exact hend.append hnew (hquiet fun x hx => (hn x hx).imp_left fun hx => ⟨label, hx⟩)
  | configured config _ _ hw =>
    intro label n hn
    exact hh label n (hw ▸ hn)

theorem Runs.homed (h : Runs call t found told t') (hc : g.CallsChildren)
    (ht : Descends g root t) (hh : Homed g root t) : Homed g root t' := by
  induction h with
  | refl => exact hh
  | step h hstep ih =>
    have hu := h.descends hc ht
    exact (hstep.stackChange hu.sound).homed hc hu ih
  | report _ _ ih => exact ih.append (World.happenings_record _ _) (by simp [Diagnostic.ofFault,
      Record.happening?])

theorem homed_make {b : Blackboard} (h : make g root b = .ok t) : Homed g root t := by
  obtain ⟨-, rfl⟩ := make_ok h
  intro label n hn
  cases hn

theorem performAll_homed {b : Blackboard} (hm : make g root b = .ok t) (hc : g.CallsChildren)
    (calls : List HostCall) : Homed g root (t.performAll calls) :=
  (performAll_induction (P := fun t => Descends g root t ∧ Homed g root t) (sound_make hm)
    ⟨descends_make hm, homed_make hm⟩
    (fun _ _ _ _ _ hr h => ⟨hr.descends hc h.1, hr.homed hc h.1 h.2⟩) calls).2.2

/-- No node is ever on two stacks, be it at two moments of the history. -/
theorem Homed.label_unique (h : Homed g root t) (ha : g.Apart root) {old old' : List Happening}
    (ho : old <+: t.world.happenings) (ho' : old' <+: t.world.happenings) {l l' : StackLabel}
    {n : NodeId} (hn : n ∈ stackOf l old) (hn' : n ∈ stackOf l' old') : l = l' :=
  ha.home_unique (h l n (ho.subset (entered_of_mem_stackOf hn)))
    (h l' n (ho'.subset (entered_of_mem_stackOf hn')))

end Tree

end BehaviorTree
