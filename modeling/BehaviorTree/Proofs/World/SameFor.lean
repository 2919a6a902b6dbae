/-
Two worlds, seen from some of the nodes.

Worlds are the same for some nodes if these cannot tell them apart: the nodes are in the same
states, with the same variables, the same clock and the same ends before them, and the same has
been done to them so far. What is attached to whom, what other nodes do and how far the events are
settled does not count. Then the same comes of it if one of these nodes is turned to in both
worlds; and a step of any other node, if it leaves the variables as they are, leads to a world
that is the same for them.
-/
import BehaviorTree.Proofs.Graph.Alone
import BehaviorTree.Proofs.World.Engaged
import BehaviorTree.Proofs.World.Local
import BehaviorTree.Proofs.World.Same
import Mathlib.Data.List.Basic

namespace BehaviorTree

/-- No step of the node changes a variable. -/
structure Node.Still {σ : Type} [Node σ] (s : σ) : Prop where
  execute : ∀ ctx, (Node.execute s ctx).effects.blackboard = ctx.blackboard
  receive : ∀ ctx ok, (Node.receive s ctx ok).effects.blackboard = ctx.blackboard
  stop : ∀ ctx, (Node.stop s ctx).effects.blackboard = ctx.blackboard
  hook : ∀ ctx phase, (Node.hook s ctx phase).effects.blackboard = ctx.blackboard

/-- Whatever becomes of the node, its steps leave the variables as they are. -/
def Node.LeavesVariables {σ : Type} [Node σ] (s : σ) : Prop :=
  ∀ s', Node.Becomes s s' → Node.Still s'

theorem Node.LeavesVariables.becomes {σ : Type} [Node σ] {s t : σ} (h : Node.LeavesVariables s)
    (hb : Node.Becomes s t) : Node.LeavesVariables t :=
  fun s' hs => h s' (hb.trans hs)

theorem Node.LeavesVariables.still {σ : Type} [Node σ] {s : σ} (h : Node.LeavesVariables s) :
    Node.Still s :=
  h s (.refl s)

variable {σ : Type}

namespace World

/-- The ends that some nodes have before them. -/
def pendingOf (w : World σ) (p : NodeId → Bool) : List DeferredTask :=
  w.schedule.pending.filter (p ·.progress.node)

/-- The nodes cannot tell the worlds apart. -/
structure SameFor (p : NodeId → Bool) (w v : World σ) : Prop where
  slot : ∀ id, p id → (w.graph.slot? id).map Slot.alone = (v.graph.slot? id).map Slot.alone
  blackboard : w.blackboard = v.blackboard
  tick : w.tick = v.tick
  pending : w.pendingOf p = v.pendingOf p
  records : w.recordsOf p = v.recordsOf p

namespace SameFor

variable {p : NodeId → Bool} {w v u w' v' : World σ} {id : NodeId}

theorem refl (w : World σ) : SameFor p w w := ⟨fun _ _ => rfl, rfl, rfl, rfl, rfl⟩

theorem symm (h : SameFor p w v) : SameFor p v w :=
  ⟨fun id hid => (h.slot id hid).symm, h.blackboard.symm, h.tick.symm, h.pending.symm,
    h.records.symm⟩

theorem trans (h : SameFor p w v) (h' : SameFor p v u) : SameFor p w u :=
  ⟨fun id hid => (h.slot id hid).trans (h'.slot id hid), h.blackboard.trans h'.blackboard,
    h.tick.trans h'.tick, h.pending.trans h'.pending, h.records.trans h'.records⟩

/-- What fewer nodes see is part of what more nodes see. -/
theorem mono {q : NodeId → Bool} (h : SameFor p w v) (hq : ∀ n, q n → p n) : SameFor q w v := by
  have hpending : ∀ w : World σ, (w.pendingOf p).filter (q ·.progress.node) = w.pendingOf q := by
    intro w
    rw [pendingOf, List.filter_filter]
    exact List.filter_congr fun task _ => Bool.and_eq_left_iff_imp.2 (hq task.progress.node)
  have hrecords : ∀ w : World σ,
      (w.recordsOf p).filter (fun r => r.about?.any q) = w.recordsOf q := by
    intro w
    rw [recordsOf, List.filter_filter]
    refine List.filter_congr fun r _ => Bool.and_eq_left_iff_imp.2 fun hr => ?_
    cases ha : r.about? with
    | none => simp [ha] at hr
    | some n => simpa using hq n (by simpa [ha] using hr)
  refine ⟨fun id hid => h.slot id (hq id hid), h.blackboard, h.tick, ?_, ?_⟩
  · rw [← hpending, ← hpending, h.pending]
  · rw [← hrecords, ← hrecords, h.records]

/-- One of the nodes is in both worlds, in the same state, or in none. -/
theorem slots (h : SameFor p w v) (hid : p id) :
    (w.graph.slot? id = none ∧ v.graph.slot? id = none) ∨
      ∃ s s', w.graph.slot? id = some s ∧ v.graph.slot? id = some s' ∧ s.node = s'.node ∧
        s.bound = s'.bound ∧ s.activation = s'.activation ∧ s.observers = s'.observers := by
  have hs := h.slot id hid
  cases hw : w.graph.slot? id with
  | none =>
    rw [hw] at hs
    exact .inl ⟨rfl, Option.map_eq_none_iff.1 hs.symm⟩
  | some s =>
    rw [hw] at hs
    obtain ⟨s', hv, hs⟩ := Option.map_eq_some_iff.1 hs.symm
    exact .inr ⟨s, s', rfl, hv, (congrArg Slot.node hs.symm :), (congrArg Slot.bound hs.symm :),
      (congrArg Slot.activation hs.symm :), (congrArg Slot.observers hs.symm :)⟩

theorem contains (h : SameFor p w v) (hid : p id) :
    w.graph.contains id = v.graph.contains id := by
  rw [← Graph.isSome_slot?, ← Graph.isSome_slot?]
  rcases h.slots hid with ⟨hw, hv⟩ | ⟨s, s', hw, hv, -⟩ <;> simp [hw, hv]

theorem progress? (h : SameFor p w v) (hid : p id) : w.progress? id = v.progress? id := by
  unfold World.progress?
  rcases h.slots hid with ⟨hw, hv⟩ | ⟨s, s', hw, hv, -, -, ha, -⟩
  · rw [hw, hv]
  · rw [hw, hv, Option.map_some, Option.map_some, ha]

theorem context (h : SameFor p w v) (id : NodeId) (activation : Nat) :
    w.context id activation = v.context id activation := by
  simp [World.context, h.blackboard, h.tick]

/-! ## The same is done in both worlds -/

theorem record (h : SameFor p w v) (r : Record) : SameFor p (w.record r) (v.record r) :=
  ⟨h.slot, h.blackboard, h.tick, h.pending, by
    rw [recordsOf_record, recordsOf_record, h.records]⟩

theorem setBlackboard (h : SameFor p w v) (b : Blackboard) :
    SameFor p { w with blackboard := b } { v with blackboard := b } :=
  ⟨h.slot, rfl, h.tick, h.pending, h.records⟩

theorem setTick (h : SameFor p w v) (tick : Tick) :
    SameFor p { w with tick } { v with tick } :=
  ⟨h.slot, h.blackboard, rfl, h.pending, h.records⟩

theorem setSchedule (h : SameFor p w v) {s t : Schedule}
    (hs : s.pending.filter (p ·.progress.node) = t.pending.filter (p ·.progress.node)) :
    SameFor p { w with schedule := s } { v with schedule := t } :=
  ⟨h.slot, h.blackboard, h.tick, hs, h.records⟩

/-- A change of the slot that has nothing to do with what is attached. -/
theorem modify (h : SameFor p w v) (id : NodeId) {f : Slot σ → Slot σ}
    (hf : ∀ s, (f s).alone = f s.alone) : SameFor p (w.modify id f) (v.modify id f) := by
  refine ⟨fun n hn => ?_, h.blackboard, h.tick, h.pending, h.records⟩
  by_cases he : n = id
  · subst he
    have hs := congrArg (Option.map f) (h.slot n hn)
    simp only [World.modify, Graph.slot?_modify_self, Option.map_map] at hs ⊢
    rwa [show Slot.alone ∘ f = f ∘ Slot.alone from funext hf]
  · simp only [World.modify, Graph.slot?_modify_of_ne _ he]
    exact h.slot n hn

theorem hear (h : SameFor p w v) (id : NodeId) (messages : List Message) :
    SameFor p (w.hear id messages) (v.hear id messages) := by
  unfold World.hear
  induction messages generalizing w v with
  | nil => exact h
  | cons m ms ih => exact ih (h.record _)

theorem tell (h : SameFor p w v) (id : NodeId) (observers : List Observer) :
    SameFor p (w.tell id observers) (v.tell id observers) := by
  unfold World.tell
  induction observers generalizing w v with
  | nil => exact h
  | cons o os ih => exact ih (h.record _)

theorem keep {α : Type} (h : SameFor p w v) (id : NodeId) (step : Step σ α) :
    SameFor p (w.keep id step) (v.keep id step) := by
  have hh := ((h.modify id (f := fun s => { s with node := step.node }) fun _ => rfl).setBlackboard
    step.effects.blackboard).hear id step.effects.messages
  unfold World.keep
  split
  · exact hh
  · exact hh.record _

theorem absorb {α : Type} (h : SameFor p w v) (id : NodeId) (activation : Nat) (step : Step σ α) :
    SameFor p (w.absorb id activation step) (v.absorb id activation step) := by
  have hk := (h.keep id step).modify id (f := fun s =>
    { s with observers := s.observers ++ step.effects.observers }) fun _ => rfl
  refine hk.setSchedule (s := (w.absorb id activation step).schedule)
    (t := (v.absorb id activation step).schedule) ?_
  rw [pending_absorb_eq, pending_absorb_eq, List.filter_append, List.filter_append, h.context]
  exact congrArg (· ++ _) h.pending

theorem keepReply {α : Type} (h : SameFor p w v) (id : NodeId) (call : Call) (reply : Reply σ α) :
    SameFor p (w.keepReply id call reply) (v.keepReply id call reply) :=
  ((h.record _).modify id (f := fun s => { s with node := reply.node }) fun _ => rfl).hear id _

variable [Node σ]

theorem bindOnce (h : SameFor p w v) (id : NodeId) {s s' : Slot σ} (hn : s.node = s'.node)
    (hb : s.bound = s'.bound) :
    SameFor p (w.bindOnce id s).1 (v.bindOnce id s').1 ∧
      (w.bindOnce id s).2 = (v.bindOnce id s').2 := by
  unfold World.bindOnce
  rw [h.blackboard, hn, hb]
  split
  · exact ⟨h, rfl⟩
  · exact ⟨(h.keepReply id _ _).modify id fun _ => rfl, rfl⟩

/-- One of the nodes is executed. -/
theorem execute (h : SameFor p w v) (hid : p id) :
    Answers (fun x y => x.1.SameFor p y.1 ∧ x.2 = y.2) (w.execute id) (v.execute id) := by
  unfold World.execute
  rcases h.slots hid with ⟨hw, hv⟩ | ⟨s, s', hw, hv, hn, hb, ha, -⟩
  · rw [hw, hv]
    exact .error _
  rw [hw, hv]
  simp only [ha]
  have hbegun := h.modify id (f := fun s => { s with activation := s'.activation + 1 }) fun _ => rfl
  obtain ⟨hb, hr⟩ := hbegun.bindOnce id hn hb
  generalize (w.modify id fun s => { s with activation := s'.activation + 1 }).bindOnce id s
    = x at hb hr ⊢
  generalize (v.modify id fun s => { s with activation := s'.activation + 1 }).bindOnce id s'
    = y at hb hr ⊢
  obtain ⟨w₁, node, e⟩ := x
  obtain ⟨v₁, _, _⟩ := y
  cases hr
  cases e with
  | some e => exact .ok ⟨hb, rfl⟩
  | none =>
    simp only [show w₁.context id (s'.activation + 1) = v₁.context id (s'.activation + 1) from
      hb.context id _]
    exact .ok ⟨(hb.record _).absorb id _ _, rfl⟩

theorem receive (h : SameFor p w v) (hid : p id) (ok : Bool) :
    Answers (fun x y => x.1.SameFor p y.1 ∧ x.2 = y.2) (w.receive id ok) (v.receive id ok) := by
  unfold World.receive
  rcases h.slots hid with ⟨hw, hv⟩ | ⟨s, s', hw, hv, hn, -, ha, -⟩
  · rw [hw, hv]
    exact .error _
  rw [hw, hv]
  simp only [h.context id, hn, ha]
  exact .ok ⟨(h.record _).absorb id _ _, rfl⟩

omit [Node σ] in
theorem cancel (h : SameFor p w v) (id : NodeId) :
    (w.schedule.cancel id).pending.filter (p ·.progress.node)
      = (v.schedule.cancel id).pending.filter (p ·.progress.node) := by
  have hp := congrArg (List.filter (·.progress.node ≠ id)) h.pending
  rw [Schedule.pending_cancel, Schedule.pending_cancel, List.filter_comm,
    List.filter_comm _ _ v.schedule.pending]
  exact hp

theorem stop (h : SameFor p w v) (hid : p id) :
    Answers (SameFor p) (w.stop id) (v.stop id) := by
  unfold World.stop
  rcases h.slots hid with ⟨hw, hv⟩ | ⟨s, s', hw, hv, hn, -, ha, -⟩
  · rw [hw, hv]
    exact .error _
  rw [hw, hv]
  simp only [h.context id, hn, ha]
  have hk := ((h.record (.called id .stop)).keep id
    (Node.stop s'.node (v.context id s'.activation))).modify id (f := fun s =>
      { s with observers := [], activation := s.activation + 1 }) fun _ => rfl
  exact .ok (hk.setSchedule (hk.cancel id))

theorem interrupt (h : SameFor p w v) (hid : p id) :
    Answers (SameFor p) (w.interrupt id) (v.interrupt id) := by
  unfold World.interrupt
  rcases h.slots hid with ⟨hw, hv⟩ | ⟨s, s', hw, hv, -, -, -, ho⟩
  · rw [hw, hv]
    exact .error _
  rw [hw, hv]
  simp only [ho]
  have hvoid := (h.tell id s'.observers).modify id (f := fun s => { s with observers := [] })
    fun _ => rfl
  exact hvoid.stop hid

/-- One of the nodes hears of a phase. -/
theorem hook (h : SameFor p w v) (hid : p id) (phase : Phase) :
    (w.hook id phase).1.SameFor p (v.hook id phase).1 ∧
      (w.hook id phase).2 = (v.hook id phase).2 := by
  unfold World.hook
  rcases h.slots hid with ⟨hw, hv⟩ | ⟨s, s', hw, hv, hn, -, ha, -⟩
  · rw [hw, hv]
    exact ⟨h, rfl⟩
  rw [hw, hv]
  simp only [h.context id, hn, ha]
  split
  · exact ⟨h, rfl⟩
  have ha := (h.record (.called id (.hook phase))).absorb id s'.activation
    (Node.hook s'.node (v.context id s'.activation) phase)
  split <;> exact ⟨ha, rfl⟩

omit [Node σ] in
/-- Of the nodes, the same ends are due. -/
theorem takeDue (h : SameFor p w v) :
    w.takeDue.1.filter (p ·.progress.node) = v.takeDue.1.filter (p ·.progress.node) ∧
      SameFor p w.takeDue.2 v.takeDue.2 := by
  have hm : w.tick.moment = v.tick.moment := congrArg Tick.moment h.tick
  have hdue := congrArg (List.filter (·.due.notAfter v.tick.moment)) h.pending
  have hlater := congrArg (List.filter (!·.due.notAfter v.tick.moment)) h.pending
  refine ⟨?_, h.setSchedule (s := (w.schedule.takeDue w.tick.moment).2)
    (t := (v.schedule.takeDue v.tick.moment).2) ?_⟩
  · show (w.schedule.takeDue w.tick.moment).1.filter _
      = (v.schedule.takeDue v.tick.moment).1.filter _
    rw [Schedule.takeDue_fst, Schedule.takeDue_fst, hm, List.filter_comm,
      List.filter_comm _ _ v.schedule.pending]
    exact hdue
  · rw [Schedule.pending_takeDue, Schedule.pending_takeDue, hm, List.filter_comm,
      List.filter_comm _ _ v.schedule.pending]
    exact hlater

/-! ## Other nodes -/

omit [Node σ]

/-- What is recorded is about none of the nodes. -/
theorem of_record (w : World σ) {r : Record} (hr : r.about?.any p = false) :
    SameFor p w (w.record r) :=
  ⟨fun _ _ => rfl, rfl, rfl, rfl, (recordsOf_record_of_not hr).symm⟩

theorem of_trace (w : World σ) (tag : String) (stack : StackLabel) (node : Option NodeId)
    (value : Int) : SameFor p w (w.trace tag stack node value) :=
  of_record w rfl

theorem of_report (w : World σ) (d : Diagnostic) : SameFor p w (w.report d) := of_record w rfl

theorem of_enqueue (w : World σ) (event : StackEvent) : SameFor p w (w.enqueue event) :=
  ⟨fun _ _ => rfl, rfl, rfl, rfl, rfl⟩

theorem of_entered (w : World σ) (label : StackLabel) (node : NodeId) (depth : Nat) :
    SameFor p w (w.entered label node depth) :=
  (of_trace ..).trans (of_enqueue ..)

theorem of_left (w : World σ) (label : StackLabel) (node : NodeId) (depth : Nat) :
    SameFor p w (w.left label node depth) :=
  (of_trace ..).trans (of_enqueue ..)

/-- The node is none of them. -/
theorem of_modify (w : World σ) (hid : p id = false) (f : Slot σ → Slot σ) :
    SameFor p w (w.modify id f) := by
  refine ⟨fun n hn => ?_, rfl, rfl, rfl, rfl⟩
  have hne : n ≠ id := by
    rintro rfl
    simp [hid] at hn
  simp only [World.modify, Graph.slot?_modify_of_ne _ hne]

theorem of_hear (w : World σ) (hid : p id = false) (messages : List Message) :
    SameFor p w (w.hear id messages) := by
  unfold World.hear
  induction messages generalizing w with
  | nil => exact refl w
  | cons m ms ih => exact (of_record w (by simpa [Record.about?])).trans (ih _)

theorem of_tell (w : World σ) (hid : p id = false) (observers : List Observer) :
    SameFor p w (w.tell id observers) := by
  unfold World.tell
  induction observers generalizing w with
  | nil => exact refl w
  | cons o os ih => exact (of_record w (by simpa [Record.about?])).trans (ih _)

theorem of_schedule (w : World σ) {s : Schedule}
    (hs : w.pendingOf p = s.pending.filter (p ·.progress.node)) :
    SameFor p w { w with schedule := s } :=
  ⟨fun _ _ => rfl, rfl, rfl, hs, rfl⟩

theorem of_keep {α : Type} (w : World σ) (hid : p id = false) {step : Step σ α}
    (hb : step.effects.blackboard = w.blackboard) : SameFor p w (w.keep id step) := by
  have hh : SameFor p w (({ w.modify id fun s => { s with node := step.node } with
      blackboard := step.effects.blackboard } : World σ).hear id step.effects.messages) := by
    rw [hb]
    exact (of_modify w hid _).trans (of_hear _ hid _)
  unfold World.keep
  split
  · exact hh
  · exact hh.trans (of_record _ (by simpa [Record.about?]))

theorem of_absorb {α : Type} (w : World σ) (hid : p id = false) (activation : Nat)
    {step : Step σ α} (hb : step.effects.blackboard = w.blackboard) :
    SameFor p w (w.absorb id activation step) := by
  have hk := (of_keep w hid hb).trans (of_modify _ hid fun s =>
    { s with observers := s.observers ++ step.effects.observers })
  refine hk.trans (of_schedule _ (s := (w.absorb id activation step).schedule) ?_)
  have hasks : (step.asks (w.context id activation)).filter (p ·.progress.node) = [] := by
    refine List.filter_eq_nil_iff.2 fun task ht => ?_
    obtain ⟨d, -, rfl⟩ := List.mem_map.1 ht
    simpa [World.context, Context.progress] using hid
  rw [← hk.pending, pending_absorb_eq, List.filter_append, hasks, List.append_nil]
  rfl

theorem of_keepReply {α : Type} (w : World σ) (hid : p id = false) (call : Call)
    (reply : Reply σ α) : SameFor p w (w.keepReply id call reply) :=
  ((of_record w (by simpa [Record.about?])).trans (of_modify _ hid _)).trans (of_hear _ hid _)

variable [Node σ]

theorem of_bindOnce (w : World σ) (hid : p id = false) (slot : Slot σ) :
    SameFor p w (w.bindOnce id slot).1 := by
  unfold World.bindOnce
  split
  · exact refl w
  · exact (of_keepReply w hid _ _).trans (of_modify _ hid _)

/-- A node that is none of them is executed. -/
theorem of_execute (hid : p id = false)
    (hq : ∀ slot, w.graph.slot? id = some slot → Node.LeavesVariables slot.node) {d : Dispatch}
    (he : w.execute id = .ok (w', d)) : SameFor p w w' := by
  unfold World.execute at he
  split at he
  · cases he
  next slot hs =>
  have hbegun : SameFor p w (w.modify id fun s => { s with activation := slot.activation + 1 }) :=
    of_modify w hid _
  have hbound := hbegun.trans (of_bindOnce _ hid slot)
  simp only at he
  split at he
  · next hw =>
    cases he
    rwa [hw] at hbound
  · next w₁ node hw =>
    cases he
    have hnode := becomes_bindOnce (w.modify id fun s =>
      { s with activation := slot.activation + 1 }) id slot
    rw [hw] at hbound hnode
    refine hbound.trans ((of_record w₁ (by simpa [Record.about?])).trans (of_absorb _ hid _ ?_))
    exact ((hq slot hs).becomes hnode).still.execute _

theorem of_receive (hid : p id = false)
    (hq : ∀ slot, w.graph.slot? id = some slot → Node.LeavesVariables slot.node) {ok : Bool}
    {d : Dispatch} (he : w.receive id ok = .ok (w', d)) : SameFor p w w' := by
  unfold World.receive at he
  split at he
  · cases he
  next slot hs =>
  cases he
  exact (of_record w (by simpa [Record.about?])).trans
    (of_absorb _ hid _ ((hq slot hs).still.receive _ ok))

theorem of_stop (hid : p id = false)
    (hq : ∀ slot, w.graph.slot? id = some slot → Node.LeavesVariables slot.node)
    (he : w.stop id = .ok w') : SameFor p w w' := by
  unfold World.stop at he
  split at he
  · cases he
  next slot hs =>
  cases he
  have hk := ((of_record w (r := .called id .stop) (by simpa [Record.about?])).trans
    (of_keep _ hid ((hq slot hs).still.stop (w.context id slot.activation)))).trans
      (of_modify _ hid fun s => { s with observers := [], activation := s.activation + 1 })
  refine hk.trans (of_schedule _ ?_)
  rw [Schedule.pending_cancel, List.filter_filter]
  refine List.filter_congr fun task _ => ?_
  by_cases hn : task.progress.node = id <;> simp [hn, hid]

theorem of_interrupt (hid : p id = false)
    (hq : ∀ slot, w.graph.slot? id = some slot → Node.LeavesVariables slot.node)
    (he : w.interrupt id = .ok w') : SameFor p w w' := by
  unfold World.interrupt at he
  split at he
  · cases he
  next slot hs =>
  have hvoid := (of_tell w hid slot.observers).trans (of_modify _ hid fun s =>
    { s with observers := [] })
  refine hvoid.trans (of_stop hid (fun s hs' => ?_) he)
  rw [slot?_modify (s := slot) (by rw [graph_tell, hs])] at hs'
  cases hs'
  exact hq slot hs

theorem of_hook (w : World σ) (hid : p id = false)
    (hq : ∀ slot, w.graph.slot? id = some slot → Node.LeavesVariables slot.node) (phase : Phase) :
    SameFor p w (w.hook id phase).1 := by
  unfold World.hook
  split
  · exact refl w
  next slot hs =>
  split
  · exact refl w
  · have ha := (of_record w (r := .called id (.hook phase)) (by simpa [Record.about?])).trans
      (of_absorb _ hid slot.activation
        ((hq slot hs).still.hook (w.context id slot.activation) phase))
    simp only
    split <;> exact ha

theorem of_ready (w : World σ) (hid : p id = false) : SameFor p w (w.ready id).1 := by
  unfold World.ready
  split
  · exact refl w
  split
  · exact refl w
  · exact of_keepReply w hid _ _

theorem of_registered (w : World σ) (hid : p id = false) : SameFor p w (w.registered id) := by
  rcases registered_cases w id with h | ⟨slot, -, -, h⟩
  · rw [h]
    exact refl w
  · rw [h]
    exact of_keepReply w hid _ _

theorem of_unregistered (w : World σ) (hid : p id = false) :
    SameFor p w (w.unregistered id) := by
  rcases unregistered_cases w id with h | ⟨slot, -, -, h⟩
  · rw [h]
    exact refl w
  · rw [h]
    exact of_keepReply w hid _ _

end SameFor

end World

end BehaviorTree
