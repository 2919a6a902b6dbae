/-
Tokens of executions, over the whole life of a tree.

Whatever a tree does takes its world from moment to moment, so what is known of tokens at a
moment holds at every later one. To deliver an end stops its node first, which spends the
token; so no token is good for a second delivery, by whatever way it comes.
-/
import BehaviorTree.Proofs.World.Tokens
import BehaviorTree.Proofs.Tree.Walk

namespace BehaviorTree

variable {σ : Type} [Node σ]

/-! ## From moment to moment -/

namespace World

theorem Since.trace {w w' : World σ} (h : w.Since w') {tag : String} (stack : StackLabel)
    (node : Option NodeId) (value : Int) : w.Since (w'.trace tag stack node value) :=
  h.trans (Next.since (.record w' fun _ _ he => by cases he))

theorem Since.report {w w' : World σ} (h : w.Since w') (d : Diagnostic) :
    w.Since (w'.report d) :=
  h.trans (Next.since (.record w' fun _ _ he => by cases he))

/-- Where a step finds its node, it finds the slot of the node. -/
theorem exists_slot {w : World σ} {id : NodeId} (h : (∃ x, w.execute id = .ok x) ∨
    (∃ ok x, w.receive id ok = .ok x) ∨ (∃ w', w.stop id = .ok w') ∨ ∃ w', w.interrupt id = .ok w') :
    ∃ slot, w.graph.slot? id = some slot := by
  cases hs : w.graph.slot? id with
  | some slot => exact ⟨slot, rfl⟩
  | none =>
    simp [execute, receive, stop, interrupt, hs] at h

/-- Whoever is dispatched or stopped is shown its token at that moment. -/
theorem Next.exists_shown {w w' : World σ} (h : w.Next w') {new : List Happening} {n : NodeId}
    {c : Call} (hh : w'.happenings = w.happenings ++ new) (hm : .called n c ∈ new)
    (hc : c.isDispatch ∨ c = .stop) :
    ∃ u p, p.node = n ∧ Shown p u ∧ w.Since u ∧ u.Since w' := by
  have hnext := h.since
  -- What a step adds to the happenings tells which step it was.
  have hnew : ∀ {new' : List Happening}, w'.happenings = w.happenings ++ new' →
      .called n c ∈ new' := fun hh' => by
    rw [List.append_cancel_left (hh'.symm.trans hh)]
    exact hm
  have hquiet : ∀ {id : NodeId} {c' : Call}, (c'.isDispatch = false ∧ c' ≠ .stop) →
      w'.happenings ≠ w.happenings ++ [.called id c'] := by
    rintro id c' ⟨hd, hs⟩ hh'
    obtain ⟨-, rfl⟩ : n = id ∧ c = c' := by simpa using hnew hh'
    rcases hc with hc | rfl
    · rw [hd] at hc
      cases hc
    · exact hs rfl
  have hsame : w'.happenings ≠ w.happenings := fun hh' => by
    have hnil : w'.happenings = w.happenings ++ [] := by rw [hh', List.append_nil]
    simpa using hnew hnil
  cases h with
  | @execute _ id d h =>
    obtain ⟨slot, hs⟩ := exists_slot (.inl ⟨_, h⟩)
    obtain ⟨calls, hh', -⟩ := happenings_execute h
    obtain ⟨c', -, he⟩ := List.mem_map.1 (hnew hh')
    obtain ⟨rfl, -⟩ : id = n ∧ c' = c := by simpa using he
    exact ⟨w', _, rfl, .execute (p := ⟨id, slot.activation + 1⟩) hs h rfl, hnext, .refl w'⟩
  | @receive _ id ok d h =>
    obtain ⟨slot, hs⟩ := exists_slot (.inr (.inl ⟨_, _, h⟩))
    obtain ⟨rfl, -⟩ : n = id ∧ c = .receive ok := by simpa using hnew (happenings_receive h)
    exact ⟨w', _, rfl, .receive (p := ⟨n, slot.activation⟩) hs h rfl, hnext, .refl w'⟩
  | @stop _ id h =>
    obtain ⟨slot, hs⟩ := exists_slot (.inr (.inr (.inl ⟨_, h⟩)))
    obtain ⟨rfl, -⟩ : n = id ∧ c = .stop := by simpa using hnew (happenings_stop h)
    exact ⟨w, _, rfl, .stop (p := ⟨n, slot.activation⟩) hs (.inl h) rfl, .refl w, hnext⟩
  | @interrupt _ id h =>
    obtain ⟨slot, hs⟩ := exists_slot (.inr (.inr (.inr ⟨_, h⟩)))
    obtain ⟨rfl, -⟩ : n = id ∧ c = .stop := by simpa using hnew (happenings_interrupt h)
    exact ⟨w, _, rfl, .stop (p := ⟨n, slot.activation⟩) hs (.inr h) rfl, .refl w, hnext⟩
  | hook id phase =>
    rcases happenings_hook w id phase with hh' | hh'
    · exact absurd hh' hsame
    obtain ⟨rfl, -⟩ : n = id ∧ c = .hook phase := by simpa using hnew hh'
    cases hs : w.graph.slot? n with
    | none => exact absurd (by simp [World.hook, hs]) hsame
    | some slot =>
      exact ⟨_, _, rfl, .hook (p := ⟨n, slot.activation⟩) phase hs rfl, hnext, .refl _⟩
  | ready id =>
    rcases happenings_ready w id with hh' | ⟨answer, hh'⟩
    · exact absurd hh' hsame
    · exact absurd hh' (hquiet ⟨rfl, nofun⟩)
  | registered id =>
    rcases happenings_registered w id with hh' | hh'
    · exact absurd hh' hsame
    · exact absurd hh' (hquiet ⟨rfl, nofun⟩)
  | unregistered id =>
    rcases happenings_unregistered w id with hh' | hh'
    · exact absurd hh' hsame
    · exact absurd hh' (hquiet ⟨rfl, nofun⟩)
  | @record r h =>
    have hr := hnew (happenings_record w r)
    exact absurd (Record.eq_called_of_happening? (by simpa using hr)) (h n c)
  | events | tick | schedule | blackboard => exact absurd rfl hsame

/-- Every dispatch and every stop between two moments has its own moment, at which the node is
shown its token. -/
theorem Since.exists_shown {w w' : World σ} (h : w.Since w') {new : List Happening} {n : NodeId}
    {c : Call} (hh : w'.happenings = w.happenings ++ new) (hm : .called n c ∈ new)
    (hc : c.isDispatch ∨ c = .stop) :
    ∃ u p, p.node = n ∧ Shown p u ∧ w.Since u ∧ u.Since w' := by
  induction h generalizing new with
  | refl =>
    rw [List.self_eq_append_right.1 hh] at hm
    cases hm
  | tail h hnext ih =>
    obtain ⟨new₁, ha₁⟩ := Since.aged h
    obtain ⟨new₂, ha₂⟩ := hnext.aged
    have hnew : new = new₁ ++ new₂ := by
      rw [ha₂.happenings, ha₁.happenings, List.append_assoc] at hh
      exact (List.append_cancel_left hh).symm
    rcases List.mem_append.1 (hnew ▸ hm) with hm | hm
    · obtain ⟨u, p, hp, hu, hs, hs'⟩ := ih ha₁.happenings hm
      exact ⟨u, p, hp, hu, hs, hs'.trans hnext.since⟩
    · obtain ⟨u, p, hp, hu, hs, hs'⟩ := hnext.exists_shown ha₂.happenings hm hc
      exact ⟨u, p, hp, hu, Since.trans h hs, hs'⟩

end World

namespace Stack

omit [Node σ] in
theorem suspended?_eq_some_iff {s : Stack} {node : NodeId} :
    s.suspended? = some node ↔ s.isWaitingOn node := by
  by_cases hw : s.isWaiting <;> simp [suspended?, isWaitingOn, hw]

/-- To end a suspended node from outside begins with its stop. -/
theorem receiveReturn_stops {s : Stack} {w : World σ} {node : NodeId} (hs : s.Sound w)
    (h : s.suspended? = some node) (ok : Bool) :
    ∃ rest, (s.receiveReturn w ok).world.happenings
      = w.happenings ++ .called node .stop :: .left s.label node :: rest := by
  obtain ⟨-, below, hn⟩ := suspended?_eq_some h
  obtain ⟨w', hstop⟩ := World.exists_stop (hs.known node (by simp [hn]))
  have hleft : (w'.left s.label node below.length).happenings
      = w.happenings ++ [.called node .stop, .left s.label node] := by
    rw [World.happenings_left, World.happenings_stop hstop]
    simp
  have hrun := perform_since
    { s with nodes := below, state := .receiving, result := some ok, parkedAt := none }
    ((w'.left s.label node below.length).trace "bt.stack.receive" s.label node
      (if ok then 1 else 0)) .run
  obtain ⟨rest, hr⟩ := hrun.aged
  have hh := hr.happenings
  rw [World.happenings_trace _ (by decide), hleft, List.append_assoc] at hh
  refine ⟨rest, ?_⟩
  simp only [receiveReturn, h, complete, hstop, pop, hn]
  exact hh

end Stack

namespace Tree

variable {call : HostCall} {t t' t'' : Tree σ} {found told : List Breach} {p : Progress}

theorem Step.since (h : Step call t found t') : t.world.Since t'.world := by
  cases h with
  | main => exact t.main.perform_since t.world _
  | service _ h =>
    cases h with
    | operate => exact Stack.perform_since ..
    | count => exact .refl _
    | ask => exact (World.Next.ready ..).since
    | trace => exact (World.Since.refl _).trace ..
  | @register owner service _ =>
    unfold registerService
    split
    · exact .refl _
    · exact (World.Next.registered t.world service).since.trace _ _ _
  | unregister owner service =>
    unfold unregisterService
    split
    · exact .refl _
    · next v _ =>
      exact ((v.stack.perform_since t.world .terminate).trans
        (World.Next.unregistered _ service).since).trace _ _ _
  | @tearDown v _ _ =>
    exact (v.stack.perform_since t.world .terminate).trans (World.Next.unregistered _ _).since
  | take => exact (World.Next.events _ _).since
  | trace _ label node value => exact (World.Since.refl _).trace label node value
  | clock => exact (World.Next.tick _ _).since
  | due => exact (World.Next.schedule _ _).since
  | setVariables => exact (World.Next.blackboard _ _).since
  | fields | config => exact .refl _

theorem Runs.since (h : Runs call t found told t') : t.world.Since t'.world := by
  induction h with
  | refl => exact .refl _
  | step _ h ih => exact ih.trans h.since
  | report _ _ ih => exact ih.report _

/-- Later calls lead to later moments. -/
theorem performAll_since (ht : t.Sound) (calls : List HostCall) :
    t.world.Since (t.performAll calls).world :=
  (performAll_induction (P := fun t' => t.world.Since t'.world) ht (.refl _)
    (fun _ _ _ _ _ hr h => h.trans hr.since) calls).2

/-! ## Deliveries -/

/-- Do an operation on the stack that the label names, if there is one. -/
def operate (t : Tree σ) (op : Stack.Operation) : StackLabel → Outcome σ
  | .main => t.keepMain (t.main.perform t.world op)
  | .service s => match t.service? s with
    | none => ⟨t, none⟩
    | some v => t.keepService (v.keep (v.stack.perform t.world op))

/-- The node is the suspended top of that stack. -/
def SuspendedOn (t : Tree σ) (node : NodeId) (label : StackLabel) : Prop :=
  ∃ s, t.stack? label = some s ∧ s.suspended? = some node

omit [Node σ] in
theorem suspendedOn_iff {node : NodeId} {label : StackLabel} :
    t.SuspendedOn node label ↔ (t.stack? label).bind (·.suspended?) = some node :=
  Option.bind_eq_some_iff.symm

theorem operate_world {label : StackLabel} {s : Stack} (hs : t.stack? label = some s)
    (op : Stack.Operation) :
    (t.operate op label).tree.world = (s.perform t.world op).world := by
  cases label with
  | main =>
    cases hs
    rfl
  | service id =>
    obtain ⟨v, hv, rfl⟩ := Option.map_eq_some_iff.1 hs
    simp only [operate, hv]
    rfl

theorem Sound.operate (ht : t.Sound) (op : Stack.Operation) (label : StackLabel) :
    (t.operate op label).tree.Sound := by
  cases label with
  | main => exact ht.keepMain op
  | service id =>
    unfold Tree.operate
    simp only
    split
    · exact ht
    · next v hv =>
      have hm := (service?_eq_some hv).1
      exact ht.putService hm rfl (v.stack.perform_made t.world op).label
        (v.stack.perform_frame t.world op) ((ht.services v hm).perform op)

/-- An end is delivered as an operation on the stack that is suspended on the node. -/
theorem deliver_eq_some {ok : Bool} {label : StackLabel} {o : Outcome σ} (ht : t.Sound)
    (h : t.deliver p ok = some (label, o)) :
    t.world.isCurrent p ∧ t.SuspendedOn p.node label ∧
      o = (t.operate (.receiveReturn ok) label).settle := by
  unfold deliver at h
  split at h
  · cases h
  next hc =>
  have hc : t.world.isCurrent p := by simpa using hc
  split at h
  · next hw =>
    cases h
    exact ⟨hc, ⟨t.main, rfl, Stack.suspended?_eq_some_iff.2 hw⟩, rfl⟩
  split at h
  · cases h
  · next v hv =>
    cases h
    have hm := List.mem_of_find?_eq_some hv
    have hw : v.stack.isWaitingOn p.node := by simpa using List.find?_some hv
    refine ⟨hc, ⟨v.stack, stack?_of_mem ht hm, Stack.suspended?_eq_some_iff.2 hw⟩, ?_⟩
    rw [ht.labels v hm]
    simp only [operate, service?_of_mem ht.nodup hm]
    rfl

/-- An end is delivered if and only if the token is good and a stack is suspended on its
node. -/
theorem deliver_isSome_iff (ht : t.Sound) (ok : Bool) :
    (t.deliver p ok).isSome ↔ t.world.isCurrent p ∧ ∃ label, t.SuspendedOn p.node label := by
  constructor
  · intro h
    obtain ⟨⟨label, o⟩, hd⟩ := Option.isSome_iff_exists.1 h
    obtain ⟨hc, hs, -⟩ := deliver_eq_some ht hd
    exact ⟨hc, label, hs⟩
  · rintro ⟨hc, label, s, hs, hw⟩
    rw [Stack.suspended?_eq_some_iff] at hw
    unfold deliver
    rw [if_neg (by simpa using hc)]
    split
    · rfl
    next hmain =>
    cases label with
    | main =>
      cases hs
      exact absurd hw hmain
    | service id =>
      obtain ⟨v, hv, rfl⟩ := Option.map_eq_some_iff.1 hs
      have hfound : (t.services.find? (·.stack.isWaitingOn p.node)).isSome :=
        List.find?_isSome.2 ⟨v, (service?_eq_some hv).1, hw⟩
      obtain ⟨u, hu⟩ := Option.isSome_iff_exists.1 hfound
      simp only [hu]
      rfl

/-- What follows the delivery of an end: its node is stopped first, and leaves its stack. -/
theorem deliver_stops {ok : Bool} {label : StackLabel} {o : Outcome σ} (ht : t.Sound)
    (h : t.deliver p ok = some (label, o)) :
    t.world.Since o.tree.world ∧ ∃ rest, o.tree.world.happenings
      = t.world.happenings ++ .called p.node .stop :: .left label p.node :: rest := by
  obtain ⟨-, ⟨s, hs, hw⟩, rfl⟩ := deliver_eq_some ht h
  obtain ⟨hsound, rfl⟩ := ht.stack hs
  have hop : t.world.Since (t.operate (.receiveReturn ok) s.label).tree.world := by
    rw [operate_world hs]
    exact s.perform_since t.world _
  have hsettle :=
    (settle_guarded (.endAction p ok) (ht.operate (.receiveReturn ok) s.label)).1.runs.since
  obtain ⟨new, hnew⟩ := hsettle.aged
  obtain ⟨rest, hrest⟩ := Stack.receiveReturn_stops hsound hw ok
  refine ⟨hop.trans hsettle, rest ++ new, ?_⟩
  have hh := hnew.happenings
  rw [operate_world hs] at hh
  rw [hh]
  simp only [Stack.perform, hrest, List.append_assoc, List.cons_append]

/-- A delivered token is spent. -/
theorem deliver_spent {ok : Bool} {label : StackLabel} {o : Outcome σ} (ht : t.Sound)
    (h : t.deliver p ok = some (label, o)) : o.tree.world.Spent p := by
  obtain ⟨hsince, rest, hh⟩ := deliver_stops ht h
  exact hsince.spent (deliver_eq_some ht h).1 hh List.mem_cons_self (by simp [Happening.renews])

/-! ## All deliveries of a life -/

/-- The tokens with which ends are delivered when these tasks are fired. -/
def firings : Outcome σ → List DeferredTask → List Progress
  | _, [] => []
  | o, task :: rest =>
    (if (o.tree.deliver task.progress task.success).isSome then [task.progress] else [])
      ++ firings (fire o task) rest

/-- The tokens with which ends are delivered in a phase. -/
def phaseDeliveries (t : Tree σ) (now : Tick) : List Progress :=
  firings ⟨t.atPhase now, none⟩ (t.due now)

/-- The tokens with which ends are delivered in a call. -/
def deliveries (t : Tree σ) : HostCall → List Progress
  | .update dt => t.phaseDeliveries { number := t.world.tick.number + 1, dt, phase := .update }
  | .fixedUpdate dt => t.phaseDeliveries { number := t.world.tick.number, dt, phase := .fixedUpdate }
  | .lateUpdate dt => t.phaseDeliveries { number := t.world.tick.number, dt, phase := .lateUpdate }
  | .tick dt =>
    let first := (t.update dt).tree
    let second := (first.fixedUpdate dt).tree
    t.phaseDeliveries { number := t.world.tick.number + 1, dt, phase := .update }
      ++ first.phaseDeliveries { number := first.world.tick.number, dt, phase := .fixedUpdate }
      ++ second.phaseDeliveries { number := second.world.tick.number, dt, phase := .lateUpdate }
  | .endAction p ok => if (t.deliver p ok).isSome then [p] else []
  | .endNode node ok => match t.world.progress? node with
    | none => []
    | some p => if (t.deliver p ok).isSome then [p] else []
  | _ => []

/-- The tokens with which ends are delivered in one call after the other. -/
def allDeliveries : Tree σ → List HostCall → List Progress
  | _, [] => []
  | t, call :: rest => t.deliveries call ++ (t.perform call).allDeliveries rest

/-- The second tree is later than the first, and between them ends were delivered with these
tokens: each was good before, is spent after, and there is none twice. -/
structure Spends (t : Tree σ) (ps : List Progress) (t' : Tree σ) : Prop where
  since : t.world.Since t'.world
  unspent : ∀ p ∈ ps, ¬t.world.Spent p
  spent : ∀ p ∈ ps, t'.world.Spent p
  nodup : ps.Nodup

theorem Spends.of_since (h : t.world.Since t'.world) : Spends t [] t' :=
  ⟨h, by simp, by simp, List.nodup_nil⟩

theorem Spends.trans {ps ps' : List Progress} (h : Spends t ps t') (h' : Spends t' ps' t'') :
    Spends t (ps ++ ps') t'' where
  since := h.since.trans h'.since
  unspent p hp := by
    rcases List.mem_append.1 hp with hp | hp
    · exact h.unspent p hp
    · exact fun hs => h'.unspent p hp (hs.since h.since)
  spent p hp := by
    rcases List.mem_append.1 hp with hp | hp
    · exact (h.spent p hp).since h'.since
    · exact h'.spent p hp
  nodup := List.nodup_append.2 ⟨h.nodup, h'.nodup, fun p hp q hq he => by
    subst he
    exact h'.unspent p hq (h.spent p hp)⟩

theorem Spends.later {ps : List Progress} (h : Spends t ps t') (hs : t'.world.Since t''.world) :
    Spends t ps t'' :=
  ⟨h.since.trans hs, h.unspent, fun p hp => (h.spent p hp).since hs, h.nodup⟩

/-- One delivery, or none, and what comes after it. -/
theorem spends_deliver (ht : t.Sound) {ok : Bool} (hnone : t.deliver p ok = none →
      t.world.Since t'.world)
    (hsome : ∀ label o, t.deliver p ok = some (label, o) → o.tree.world.Since t'.world) :
    Spends t (if (t.deliver p ok).isSome then [p] else []) t' := by
  cases hd : t.deliver p ok with
  | none => exact .of_since (hnone hd)
  | some x =>
    obtain ⟨label, o⟩ := x
    have hrest := hsome label o hd
    refine ⟨(deliver_stops ht hd).1.trans hrest, ?_, ?_, List.nodup_singleton p⟩
    · intro q hq hs
      obtain rfl := List.mem_singleton.1 hq
      exact hs.not_isCurrent (deliver_eq_some ht hd).1
    · intro q hq
      obtain rfl := List.mem_singleton.1 hq
      exact (deliver_spent ht hd).since hrest

theorem note_since (t : Tree σ) (label : StackLabel) (fault first : Option StackError) :
    t.world.Since (t.note label fault first).tree.world := by
  unfold note
  split
  · exact .refl _
  · exact (World.Since.refl _).report _

theorem spends_fire (o : Outcome σ) (task : DeferredTask) (ho : o.tree.Sound) :
    Spends o.tree
      (if (o.tree.deliver task.progress task.success).isSome then [task.progress] else [])
      (fire o task).tree := by
  refine spends_deliver ho (fun hd => ?_) fun label delivered hd => ?_
  · simp only [fire, hd]
    exact (World.Since.refl _).trace _ _ _
  · simp only [fire, hd]
    refine World.Since.trans ?_ (note_since _ _ _ _)
    exact (World.Since.refl _).trace _ _ _

theorem spends_firings (tasks : List DeferredTask) (o : Outcome σ) (ho : o.tree.Sound) :
    Spends o.tree (firings o tasks) (tasks.foldl fire o).tree := by
  induction tasks generalizing o with
  | nil => exact .of_since (.refl _)
  | cons task rest ih =>
    have hfire : Follows .start o (fire o task) := fire_follows o task ho
    exact (spends_fire o task ho).trans
      (ih (fire o task) (hfire.sound ho))

theorem Follows.since {o o' : Outcome σ} (h : Follows call o o') :
    o.tree.world.Since o'.tree.world := by
  obtain ⟨found, hr, -⟩ := h
  exact hr.runs.since

theorem spends_phase (ht : t.Sound) (now : Tick) (h : t.world.tick.number ≤ now.number) :
    Spends t (t.phaseDeliveries now) (t.runPhase now).tree := by
  have hstart := atPhase_guarded (.update 0) rfl h
  have hs := hstart.sound ht
  have hfired := spends_firings (t.due now) ⟨t.atPhase now, none⟩ hs
  have hdriven := driveAll_follows .start ((fired_follows .start ht h).sound hs) now.phase
  rw [runPhase_eq]
  exact (Spends.of_since hstart.runs.since).trans (hfired.later hdriven.since)

theorem spends_endAction (ht : t.Sound) (p : Progress) (ok : Bool) :
    Spends t (if (t.deliver p ok).isSome then [p] else []) (t.endAction p ok).1 := by
  refine spends_deliver ht (fun hd => ?_) fun label o hd => ?_
  · simp only [endAction, hd]
    exact .refl _
  · have hs := (deliver_guarded (.endAction p ok) ht hd).sound ht
    have hc : o.tree.world.Since (conclude label o).tree.world :=
      (settle_guarded (.endAction p ok) hs).1.runs.since.trans (note_since _ _ _ _)
    simp only [endAction, hd]
    split
    · next hcon => rw [hcon] at hc; exact hc
    · next hcon => rw [hcon] at hc; exact hc

theorem spends_tick (ht : t.Sound) (dt : Float32) :
    Spends t (t.deliveries (.tick dt)) (t.tick dt).tree := by
  simp only [deliveries, tick]
  let now₁ : Tick := { number := t.world.tick.number + 1, dt, phase := .update }
  have hs₁ : (t.update dt).tree.Sound := sound_runPhase ht now₁ (Nat.le_succ _)
  let now₂ : Tick := { number := (t.update dt).tree.world.tick.number, dt, phase := .fixedUpdate }
  have hs₂ : ((t.update dt).tree.fixedUpdate dt).tree.Sound :=
    sound_runPhase hs₁ now₂ (Nat.le_refl _)
  have h₁ : Spends t (t.phaseDeliveries now₁) (t.update dt).tree :=
    spends_phase ht now₁ (Nat.le_succ _)
  have h₂ : Spends (t.update dt).tree ((t.update dt).tree.phaseDeliveries now₂)
      ((t.update dt).tree.fixedUpdate dt).tree := spends_phase hs₁ now₂ (Nat.le_refl _)
  let now₃ : Tick :=
    { number := ((t.update dt).tree.fixedUpdate dt).tree.world.tick.number, dt, phase := .lateUpdate }
  have h₃ : Spends ((t.update dt).tree.fixedUpdate dt).tree
      (((t.update dt).tree.fixedUpdate dt).tree.phaseDeliveries now₃)
      (((t.update dt).tree.fixedUpdate dt).tree.lateUpdate dt).tree :=
    spends_phase hs₂ now₃ (Nat.le_refl _)
  exact (h₁.trans h₂).trans h₃

theorem spends_perform (ht : t.Sound) (call : HostCall) :
    Spends t (t.deliveries call) (t.perform call) := by
  have hplain : t.deliveries call = [] → Spends t (t.deliveries call) (t.perform call) := by
    intro he
    obtain ⟨found, hr⟩ := perform_runs ht call
    rw [he]
    exact .of_since hr.since
  cases call with
  | update dt =>
    exact spends_phase ht { number := t.world.tick.number + 1, dt, phase := .update }
      (Nat.le_succ _)
  | fixedUpdate dt =>
    exact spends_phase ht { number := t.world.tick.number, dt, phase := .fixedUpdate }
      (Nat.le_refl _)
  | lateUpdate dt =>
    exact spends_phase ht { number := t.world.tick.number, dt, phase := .lateUpdate }
      (Nat.le_refl _)
  | tick dt => exact spends_tick ht dt
  | endAction p ok => exact spends_endAction ht p ok
  | endNode node ok =>
    cases hp : t.world.progress? node with
    | none => exact hplain (by simp [deliveries, hp])
    | some p =>
      simp only [deliveries, perform, endNode, hp]
      exact spends_endAction ht p ok
  | _ => exact hplain rfl

theorem spends_performAll (ht : t.Sound) (calls : List HostCall) :
    Spends t (t.allDeliveries calls) (t.performAll calls) := by
  induction calls generalizing t with
  | nil => exact .of_since (.refl _)
  | cons call rest ih =>
    obtain ⟨found, hr⟩ := perform_runs ht call
    exact (spends_perform ht call).trans (ih (hr.sound ht))

/-! ## What a token is good for -/

/-- The end that the token names is delivered: the stack that is suspended on the node goes on
with the outcome, which begins with the stop of the node, and the call answers so. -/
def Delivers (t : Tree σ) (p : Progress) (ok : Bool) : Prop :=
  ∃ label, t.SuspendedOn p.node label ∧
    let o := conclude label (t.operate (.receiveReturn ok) label).settle
    t.endAction p ok = (o.tree, match o.fault with
      | none => .ok true
      | some e => .error (.stack e)) ∧
    ∃ rest, o.tree.world.happenings
      = t.world.happenings ++ .called p.node .stop :: .left label p.node :: rest

theorem delivers_of_deliver (ht : t.Sound) {ok : Bool} {label : StackLabel} {o : Outcome σ}
    (h : t.deliver p ok = some (label, o)) : t.Delivers p ok := by
  obtain ⟨-, hs, he⟩ := deliver_eq_some ht h
  obtain ⟨-, rest, hrest⟩ := deliver_stops ht h
  have hsound := (deliver_guarded (.endAction p ok) ht h).sound ht
  have hc : o.tree.world.Since (conclude label o).tree.world :=
    (settle_guarded (.endAction p ok) hsound).1.runs.since.trans (note_since _ _ _ _)
  obtain ⟨new, hnew⟩ := hc.aged
  refine ⟨label, hs, ?_, rest ++ new, ?_⟩
  · rw [← he]
    simp only [endAction, h]
    split <;> next hcon => rw [hcon]
  · rw [← he, hnew.happenings, hrest, List.append_assoc]
    rfl

theorem endAction_of_not (ht : t.Sound) {ok : Bool}
    (h : ¬(t.world.isCurrent p ∧ ∃ label, t.SuspendedOn p.node label)) :
    t.endAction p ok = (t, .ok false) := by
  rw [← deliver_isSome_iff ht ok, Option.not_isSome_iff_eq_none] at h
  simp [endAction, h]

/-- Whatever the host calls: every dispatch and every stop has its moment, also within a call,
at which the node is shown its token. A token that was handed out at an earlier moment is good
for one thing: if no execution of its node has begun since and no stop of it was done, and the
node is the suspended top of a stack, then to end it delivers the end to that stack; otherwise
nothing happens, and the answer is no. Over the whole life of the tree, counting the ends that
the host asks for by token or by node and those that nodes deferred, no token is used for two
deliveries. -/
theorem token_exact {g : Graph σ} {root : NodeId} {b : Blackboard}
    (hm : make g root b = .ok t) (calls : List HostCall) :
    (∀ n c, .called n c ∈ (t.performAll calls).world.happenings → (c.isDispatch ∨ c = .stop) →
      ∃ w p, p.node = n ∧ World.Shown p w ∧ t.world.Since w ∧
        w.Since (t.performAll calls).world) ∧
    (∀ (w : World σ) (p : Progress), World.Issued p w → w.Since (t.performAll calls).world →
      ∀ ok, ∃ new, (t.performAll calls).world.happenings = w.happenings ++ new ∧
        ((∀ x ∈ new, x.renews p.node = false) →
          (∃ label, (t.performAll calls).SuspendedOn p.node label) →
          (t.performAll calls).Delivers p ok) ∧
        (¬((∀ x ∈ new, x.renews p.node = false) ∧
            ∃ label, (t.performAll calls).SuspendedOn p.node label) →
          (t.performAll calls).endAction p ok = (t.performAll calls, .ok false))) ∧
    (t.allDeliveries calls).Nodup := by
  have hs := sound_make hm
  have hsound := performAll_sound hs calls
  refine ⟨fun n c hn hc => ?_, fun w p hp hw ok => ?_, (spends_performAll hs calls).nodup⟩
  · have hnil : t.world.happenings = [] := by
      obtain ⟨-, rfl⟩ := make_ok hm
      rfl
    exact (performAll_since hs calls).exists_shown (by rw [hnil]; rfl) hn hc
  · obtain ⟨new, hh, hiff⟩ := hw.isCurrent_iff hp.progress?
    refine ⟨new, hh, fun hn hl => ?_, fun hnot => ?_⟩
    · obtain ⟨⟨label, o⟩, hd⟩ :=
        Option.isSome_iff_exists.1 ((deliver_isSome_iff hsound ok).2 ⟨hiff.2 hn, hl⟩)
      exact delivers_of_deliver hsound hd
    · exact endAction_of_not hsound fun h => hnot ⟨hiff.1 h.1, h.2⟩

/-- The token of a node that waits on the stack of a service is good for one delivery. -/
theorem token_exact_beaconBeside :
    ∃ t, make beaconBeside ⟨2⟩ {} = .ok t ∧
      World.Issued ⟨⟨0⟩, 1⟩ (t.performAll [.start, .update 0]).world ∧
      (t.performAll [.start, .update 0]).Delivers ⟨⟨0⟩, 1⟩ true ∧
      (t.performAll ([.start, .update 0] ++ [.endAction ⟨⟨0⟩, 1⟩ true])).endAction ⟨⟨0⟩, 1⟩ true
        = (t.performAll ([.start, .update 0] ++ [.endAction ⟨⟨0⟩, 1⟩ true]), .ok false) ∧
      t.allDeliveries [.start, .update 0, .endAction ⟨⟨0⟩, 1⟩ true, .endAction ⟨⟨0⟩, 1⟩ true]
        = [⟨⟨0⟩, 1⟩] := by
  have hm : make beaconBeside ⟨2⟩ {}
      = .ok { root := ⟨2⟩, world := { graph := beaconBeside, blackboard := {} } } := rfl
  have hp : World.Issued ⟨⟨0⟩, 1⟩ (performAll
      { root := ⟨2⟩, world := { graph := beaconBeside, blackboard := {} } }
      [.start, .update 0]).world := .asked (by decide +kernel)
  refine ⟨_, hm, hp, ?_, ?_, by decide +kernel⟩
  · obtain ⟨new, hh, hd, -⟩ := (token_exact hm [.start, .update 0]).2.1 _ _ hp (.refl _) true
    obtain rfl := List.self_eq_append_right.1 hh
    exact hd (by simp) ⟨.service ⟨1⟩, suspendedOn_iff.2 (by decide +kernel)⟩
  · have hlater := performAll_since (performAll_sound (sound_make hm) [.start, .update 0])
      [.endAction ⟨⟨0⟩, 1⟩ true]
    rw [← performAll_append] at hlater
    obtain ⟨new, hh, -, hf⟩ :=
      (token_exact hm ([.start, .update 0] ++ [.endAction ⟨⟨0⟩, 1⟩ true])).2.1 _ _ hp hlater true
    refine hf fun h => ?_
    have hstop : .called ⟨0⟩ .stop ∈ new := by
      have hdrop := congrArg (List.drop (performAll
        { root := ⟨2⟩, world := { graph := beaconBeside, blackboard := {} } }
        [.start, .update 0]).world.happenings.length) hh
      rw [List.drop_left] at hdrop
      rw [← hdrop]
      decide +kernel
    have hq := h.1 _ hstop
    simp [Happening.renews] at hq

end Tree

end BehaviorTree
