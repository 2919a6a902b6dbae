/-
What becomes of the ends that nodes defer.

A node asks for its own end when it is executed, when it is handed the result of its child, or
in a hook. The end is outstanding until the node is stopped, or until a phase by which it is
due takes it out. A log lists in the order of time what counts for that; the schedule holds
just what is outstanding by the log, in the order in which it was asked for.
-/
import BehaviorTree.Proofs.World.Engaged
import BehaviorTree.Proofs.World.Tokens

namespace BehaviorTree

inductive Item where
  | happened (x : Happening)
  | asked (task : DeferredTask)
  /-- A phase takes out what is due. -/
  | taken (now : Moment)
deriving DecidableEq, Repr

namespace Item

def happening? : Item → Option Happening
  | happened x => some x
  | _ => none

/-- The end stays outstanding. -/
def leaves (task : DeferredTask) : Item → Bool
  | happened (.called node .stop) => node ≠ task.progress.node
  | taken now => !task.due.notAfter now
  | _ => true

theorem mem_happenings {log : List Item} {x : Happening} :
    x ∈ log.filterMap happening? ↔ happened x ∈ log := by
  rw [List.mem_filterMap]
  constructor
  · rintro ⟨i, hi, hx⟩
    cases i with
    | happened y =>
      obtain rfl := Option.some.inj hx
      exact hi
    | asked | taken => cases hx
  · exact fun h => ⟨_, h, rfl⟩

/-- What happens in one step, and then what is asked for in it. -/
def ofStep (new : List Happening) (asks : List DeferredTask) : List Item :=
  new.map .happened ++ asks.map .asked

end Item

/-- The node is not stopped in the meantime, and no phase takes the end out. -/
def DeferredTask.waits (task : DeferredTask) (later : List Item) : Bool :=
  later.all (Item.leaves task)

/-- The ends that were asked for and still wait, in the order in which they were asked for. -/
def outstanding : List Item → List DeferredTask
  | [] => []
  | .asked task :: later => if task.waits later then task :: outstanding later else outstanding later
  | _ :: later => outstanding later

section Outstanding

variable {task : DeferredTask} {log more : List Item} {new : List Happening}
  {asks : List DeferredTask}

theorem waits_append : task.waits (log ++ more) = (task.waits log && task.waits more) :=
  List.all_append

theorem outstanding_append :
    outstanding (log ++ more) = (outstanding log).filter (·.waits more) ++ outstanding more := by
  induction log with
  | nil => rfl
  | cons x log ih =>
    cases x with
    | happened | taken => exact ih
    | asked task =>
      rw [List.cons_append, outstanding, outstanding, waits_append]
      cases hl : task.waits log <;> cases hm : task.waits more <;> simp [ih, hm]

theorem outstanding_happened : outstanding (new.map .happened) = [] := by
  induction new with
  | nil => rfl
  | cons x new ih => exact ih

theorem outstanding_asked : outstanding (asks.map .asked) = asks := by
  induction asks with
  | nil => rfl
  | cons a asks ih =>
    have hw : a.waits (asks.map .asked) := by simp [DeferredTask.waits, Item.leaves]
    simp [outstanding, hw, ih]

theorem outstanding_ofStep : outstanding (Item.ofStep new asks) = asks := by
  have hw : ∀ task : DeferredTask, task.waits (asks.map .asked) := fun task => by
    simp [DeferredTask.waits, Item.leaves]
  simp [Item.ofStep, outstanding_append, outstanding_happened, outstanding_asked]

theorem waits_ofStep : task.waits (Item.ofStep new asks) ↔ .called task.progress.node .stop ∉ new := by
  have hasks : task.waits (asks.map .asked) := by simp [DeferredTask.waits, Item.leaves]
  have hleaves : ∀ x : Happening,
      Item.leaves task (.happened x) ↔ x ≠ .called task.progress.node .stop := by
    rintro (⟨n, c⟩ | _ | _ | _ | _)
    · cases c <;> simp [Item.leaves]
    all_goals simp [Item.leaves]
  rw [Item.ofStep, waits_append, hasks, Bool.and_true, DeferredTask.waits, List.all_map,
    List.all_eq_true]
  constructor
  · exact fun h hm => (hleaves _).1 (h _ hm) rfl
  · exact fun h x hx => (hleaves x).2 fun he => h (he ▸ hx)

theorem waits_iff : task.waits log ↔ .happened (.called task.progress.node .stop) ∉ log ∧
    ∀ now, .taken now ∈ log → ¬task.due.notAfter now := by
  have hleaves : ∀ x : Item, Item.leaves task x ↔
      x ≠ .happened (.called task.progress.node .stop) ∧
        ∀ now, x = .taken now → ¬task.due.notAfter now := by
    rintro ((⟨n, c⟩ | _ | _ | _ | _) | _ | _)
    · cases c <;> simp [Item.leaves]
    all_goals simp [Item.leaves]
  simp only [DeferredTask.waits, List.all_eq_true, hleaves]
  constructor
  · exact fun h => ⟨fun hm => (h _ hm).1 rfl, fun now hm => (h _ hm).2 now rfl⟩
  · exact fun h x hx => ⟨fun he => h.1 (he ▸ hx), fun now he => h.2 now (he ▸ hx)⟩

/-- Only a stop takes something out in a step. -/
theorem filter_waits_of_running (l : List DeferredTask) (h : ∀ n, .called n .stop ∉ new) :
    l.filter (·.waits (Item.ofStep new asks)) = l :=
  List.filter_eq_self.2 fun _ _ => waits_ofStep.2 (h _)

theorem filter_waits_of_stop (l : List DeferredTask) (id : NodeId) :
    l.filter (·.waits (Item.ofStep [.called id .stop] asks))
      = l.filter (·.progress.node ≠ id) := by
  refine List.filter_congr fun task _ => ?_
  rw [Bool.eq_iff_iff, waits_ofStep]
  simp

/-- What is outstanding was asked for, and waits since. -/
theorem mem_outstanding : task ∈ outstanding log ↔
    ∃ before after, log = before ++ .asked task :: after ∧ task.waits after := by
  induction log with
  | nil => simp [outstanding]
  | cons x log ih =>
    constructor
    · intro h
      have hcons : task ∈ outstanding log → ∃ before after,
          x :: log = before ++ .asked task :: after ∧ task.waits after := fun h => by
        obtain ⟨before, after, rfl, hw⟩ := ih.1 h
        exact ⟨x :: before, after, rfl, hw⟩
      cases x with
      | happened | taken => exact hcons h
      | asked first =>
        rw [outstanding] at h
        split at h
        · next hw =>
          rcases List.mem_cons.1 h with rfl | h
          · exact ⟨[], log, rfl, hw⟩
          · exact hcons h
        · exact hcons h
    · rintro ⟨before, after, he, hw⟩
      cases before with
      | nil =>
        obtain ⟨rfl, rfl⟩ : x = .asked task ∧ log = after := by simpa using he
        simp [outstanding, hw]
      | cons y before =>
        obtain ⟨rfl, rfl⟩ : x = y ∧ log = before ++ .asked task :: after := by simpa using he
        have hm := ih.2 ⟨before, after, rfl, hw⟩
        cases x with
        | happened | taken => exact hm
        | asked first =>
          rw [outstanding]
          split
          · exact List.mem_cons_of_mem _ hm
          · exact hm

end Outstanding

variable {σ : Type}

namespace World

variable [Node σ] {w w' u u' : World σ}

/-- What a node asks for when it is executed. -/
def executing (w : World σ) (id : NodeId) : List DeferredTask :=
  match w.graph.slot? id with
  | none => []
  | some slot =>
    let activation := slot.activation + 1
    match (w.modify id fun s => { s with activation }).bindOnce id slot with
    | (_, _, some _) => []
    | (w, node, none) =>
      (Node.execute node (w.context id activation)).asks (w.context id activation)

/-- What a node asks for when it is handed the result of its child. -/
def receiving (w : World σ) (id : NodeId) (ok : Bool) : List DeferredTask :=
  match w.graph.slot? id with
  | none => []
  | some slot =>
    (Node.receive slot.node (w.context id slot.activation) ok).asks (w.context id slot.activation)

/-- What a node asks for in its hook. -/
def hooking (w : World σ) (id : NodeId) (phase : Phase) : List DeferredTask :=
  match w.graph.slot? id with
  | none => []
  | some slot =>
    if !Node.hasHooks slot.node then []
    else
      (Node.hook slot.node (w.context id slot.activation) phase).asks (w.context id slot.activation)

/-- One thing that a world does, with the ends that are asked for in it. Nothing is taken out
of the schedule but by a stop. -/
inductive Goes : World σ → List DeferredTask → World σ → Prop
  | execute {u u' : World σ} {n : NodeId} {d : Dispatch} (h : u.execute n = .ok (u', d)) :
      Goes u (u.executing n) u'
  | receive {u u' : World σ} {n : NodeId} {ok : Bool} {d : Dispatch}
      (h : u.receive n ok = .ok (u', d)) : Goes u (u.receiving n ok) u'
  | hook (u : World σ) (n : NodeId) (phase : Phase) :
      Goes u (u.hooking n phase) (u.hook n phase).1
  | stop {u u' : World σ} {n : NodeId} (h : u.stop n = .ok u') : Goes u [] u'
  | interrupt {u u' : World σ} {n : NodeId} (h : u.interrupt n = .ok u') : Goes u [] u'
  | ready (u : World σ) (n : NodeId) : Goes u [] (u.ready n).1
  | registered (u : World σ) (n : NodeId) : Goes u [] (u.registered n)
  | unregistered (u : World σ) (n : NodeId) : Goes u [] (u.unregistered n)
  | record (u : World σ) {r : Record} (h : ∀ node call, r ≠ .called node call) :
      Goes u [] (u.record r)
  | events (u : World σ) (events : Queue StackEvent) : Goes u [] { u with events }
  | tick (u : World σ) (tick : Tick) : Goes u [] { u with tick }
  | blackboard (u : World σ) (blackboard : Blackboard) : Goes u [] { u with blackboard }

/-- What happens from the one world to the other, item by item. -/
inductive Log : World σ → List Item → World σ → Prop
  | refl (w : World σ) : Log w [] w
  | step {w u u' : World σ} {log : List Item} {new : List Happening} {asks : List DeferredTask}
      (h : Log w log u) (h' : Goes u asks u') (hh : u'.happenings = u.happenings ++ new) :
      Log w (log ++ Item.ofStep new asks) u'
  | take {w u : World σ} {log : List Item} (h : Log w log u) :
      Log w (log ++ [.taken u.tick.moment]) u.takeDue.2

/-- A world that goes on, and no phase takes anything out. -/
def Lasts (w w' : World σ) : Prop := ∃ log, w.Log log w' ∧ ∀ now, .taken now ∉ log

/-! ## The schedule -/

/-- A node whose variables cannot be bound asks for nothing. -/
theorem executing_of_failed {id : NodeId} {slot : Slot σ} {w₁ : World σ} {node : σ}
    {e : VariableError} (hs : w.graph.slot? id = some slot)
    (h : (w.modify id fun s => { s with activation := slot.activation + 1 }).bindOnce id slot
      = (w₁, node, some e)) : w.executing id = [] := by
  simp only [executing, hs]
  rw [h]

theorem executing_of_bound {id : NodeId} {slot : Slot σ} {w₁ : World σ} {node : σ}
    (hs : w.graph.slot? id = some slot)
    (h : (w.modify id fun s => { s with activation := slot.activation + 1 }).bindOnce id slot
      = (w₁, node, none)) :
    w.executing id = (Node.execute node (w₁.context id (slot.activation + 1))).asks
      (w₁.context id (slot.activation + 1)) := by
  simp only [executing, hs]
  rw [h]

theorem pending_execute {id : NodeId} {d : Dispatch} (h : w.execute id = .ok (w', d)) :
    w'.schedule.pending = w.schedule.pending ++ w.executing id := by
  unfold execute at h
  split at h
  · cases h
  next slot hs =>
  have hb := bindOnce_schedule (w.modify id fun s => { s with activation := slot.activation + 1 })
    id slot
  simp only at h
  split at h
  · next hw =>
    cases h
    rw [hw] at hb
    rw [executing_of_failed hs hw, List.append_nil]
    exact congrArg Schedule.pending hb
  · next w₁ node hw =>
    cases h
    rw [hw] at hb
    rw [executing_of_bound hs hw, pending_absorb_eq,
      show (w₁.record (.called id .execute)).schedule = _ from hb]
    rfl

theorem pending_receive {id : NodeId} {ok : Bool} {d : Dispatch}
    (h : w.receive id ok = .ok (w', d)) :
    w'.schedule.pending = w.schedule.pending ++ w.receiving id ok := by
  unfold receive at h
  split at h
  · cases h
  next slot hs =>
  cases h
  rw [pending_absorb_eq]
  simp only [receiving, hs]
  rfl

theorem pending_hook (w : World σ) (id : NodeId) (phase : Phase) :
    (w.hook id phase).1.schedule.pending = w.schedule.pending ++ w.hooking id phase := by
  unfold hook hooking
  cases w.graph.slot? id with
  | none => exact (List.append_nil _).symm
  | some slot =>
    simp only
    split
    · exact (List.append_nil _).symm
    · split <;> exact pending_absorb_eq (w.record _) id _ _

theorem pending_stop {id : NodeId} (h : w.stop id = .ok w') :
    w'.schedule.pending = w.schedule.pending.filter (·.progress.node ≠ id) := by
  unfold stop at h
  split at h
  · cases h
  cases h
  rw [← Schedule.pending_cancel]
  simp only [World.modify, schedule_keep]
  rfl

theorem pending_interrupt {id : NodeId} (h : w.interrupt id = .ok w') :
    w'.schedule.pending = w.schedule.pending.filter (·.progress.node ≠ id) := by
  unfold interrupt at h
  split at h
  · cases h
  · rw [pending_stop h]
    simp [World.modify]

theorem registered_schedule (w : World σ) (id : NodeId) :
    (w.registered id).schedule = w.schedule := by
  rcases registered_cases w id with h | ⟨slot, -, -, h⟩
  · rw [h]
  · rw [h, schedule_keepReply]

theorem unregistered_schedule (w : World σ) (id : NodeId) :
    (w.unregistered id).schedule = w.schedule := by
  rcases unregistered_cases w id with h | ⟨slot, -, -, h⟩
  · rw [h]
  · rw [h, schedule_keepReply]

theorem Goes.next {asks : List DeferredTask} (h : Goes u asks u') : u.Next u' := by
  cases h with
  | execute h => exact .execute h
  | receive h => exact .receive h
  | hook n phase => exact .hook u n phase
  | stop h => exact .stop h
  | interrupt h => exact .interrupt h
  | ready n => exact .ready u n
  | registered n => exact .registered u n
  | unregistered n => exact .unregistered u n
  | record h => exact .record u h
  | events e => exact .events u e
  | tick t => exact .tick u t
  | blackboard b => exact .blackboard u b

/-- What is in the schedule after a step: what was in it and was not stopped, and what was asked
for. -/
theorem Goes.pending {asks : List DeferredTask} {new : List Happening} (h : Goes u asks u')
    (hh : u'.happenings = u.happenings ++ new) :
    u'.schedule.pending = u.schedule.pending.filter (·.waits (Item.ofStep new asks)) ++ asks := by
  have hnew : ∀ {new' : List Happening}, u'.happenings = u.happenings ++ new' → new = new' :=
    fun hh' => List.append_cancel_left (hh.symm.trans hh')
  have hquiet : u'.happenings = u.happenings → ∀ n, .called n .stop ∉ new := fun hh' n hm => by
    rw [hnew (hh'.trans (List.append_nil _).symm)] at hm
    cases hm
  have hcall : ∀ {id : NodeId} {c : Call}, c ≠ .stop →
      u'.happenings = u.happenings ++ [.called id c] → ∀ n, .called n .stop ∉ new := by
    intro id c hc hh' n hm
    rw [hnew hh', List.mem_singleton] at hm
    cases hm
    exact hc rfl
  cases h with
  | execute h =>
    obtain ⟨calls, hh', hc⟩ := happenings_execute h
    rw [pending_execute h, filter_waits_of_running]
    intro n hm
    rw [hnew hh'] at hm
    rcases hc with rfl | rfl | rfl <;> simp at hm
  | receive h =>
    rw [pending_receive h, filter_waits_of_running _ (hcall (by simp) (happenings_receive h))]
  | hook id phase =>
    rw [pending_hook, filter_waits_of_running _ ((happenings_hook u id phase).elim hquiet (hcall (by simp)))]
  | stop h =>
    rw [pending_stop h, hnew (happenings_stop h), filter_waits_of_stop, List.append_nil]
  | interrupt h =>
    rw [pending_interrupt h, hnew (happenings_interrupt h), filter_waits_of_stop, List.append_nil]
  | ready id =>
    rw [ready_schedule, filter_waits_of_running, List.append_nil]
    rcases happenings_ready u id with hh' | ⟨answer, hh'⟩
    · exact hquiet hh'
    · exact hcall (by simp) hh'
  | registered id =>
    rw [registered_schedule, List.append_nil,
      filter_waits_of_running _ ((happenings_registered u id).elim hquiet (hcall (by simp)))]
  | unregistered id =>
    rw [unregistered_schedule, List.append_nil,
      filter_waits_of_running _ ((happenings_unregistered u id).elim hquiet (hcall (by simp)))]
  | @record r h =>
    rw [filter_waits_of_running, List.append_nil]
    · rfl
    · intro n hm
      rw [hnew (happenings_record u r)] at hm
      exact absurd (Record.eq_called_of_happening? (by simpa using hm)) (h n .stop)
  | events | tick | blackboard =>
    rw [filter_waits_of_running _ (hquiet rfl),
      List.append_nil]

/-- The schedule holds what was in it and waits, and what is outstanding by the log, in the
order in which it was asked for. -/
theorem Log.pending {log : List Item} (h : Log w log u) :
    u.schedule.pending = w.schedule.pending.filter (·.waits log) ++ outstanding log := by
  induction h with
  | refl => exact ((List.append_nil _).trans (List.filter_eq_self.2 fun _ _ => rfl)).symm
  | step h h' hh ih =>
    rw [h'.pending hh, ih, List.filter_append, List.filter_filter, outstanding_append,
      outstanding_ofStep, List.append_assoc]
    simp only [waits_append, Bool.and_comm]
  | @take u log h ih =>
    have hp : u.takeDue.2.schedule.pending
        = u.schedule.pending.filter (·.waits [.taken u.tick.moment]) :=
      (Schedule.pending_takeDue ..).trans
        (List.filter_congr fun task _ => by simp [DeferredTask.waits, Item.leaves])
    rw [hp, ih, List.filter_append, List.filter_filter, outstanding_append]
    simp [waits_append, Bool.and_comm, outstanding]

/-! ## Who asked -/

omit [Node σ] in
theorem happening?_ofStep {new : List Happening} {asks : List DeferredTask} :
    (Item.ofStep new asks).filterMap Item.happening? = new := by
  simp [Item.ofStep, List.filterMap_map, Function.comp_def, Item.happening?]

theorem Log.since {log : List Item} (h : Log w log u) : w.Since u := by
  induction h with
  | refl => exact .refl _
  | step _ h' _ ih => exact ih.trans h'.next.since
  | take _ ih => exact ih.trans (Next.schedule _ _).since

theorem Log.happenings {log : List Item} (h : Log w log u) :
    u.happenings = w.happenings ++ log.filterMap Item.happening? := by
  induction h with
  | refl => exact (List.append_nil _).symm
  | @step _ _ _ new asks _ _ hh ih =>
    rw [hh, ih, List.filterMap_append, happening?_ofStep, List.append_assoc]
  | take _ ih => exact ih.trans (by simp [Item.happening?])

theorem Log.trans {v : World σ} {log more : List Item} (h : Log w log u) (h' : Log u more v) :
    Log w (log ++ more) v := by
  induction h' with
  | refl => simpa using h
  | step _ hg hh ih =>
    rw [← List.append_assoc]
    exact ih.step hg hh
  | take _ ih =>
    rw [← List.append_assoc]
    exact ih.take

/-- What is asked for is an end of the execution that the node is in, and so many ticks from
now. -/
theorem Goes.asked {asks : List DeferredTask} (h : Goes u asks u') {task : DeferredTask}
    (ht : task ∈ asks) : u'.isCurrent task.progress ∧
      ∃ ticks, task.due = ⟨u.tick.number + ticks, u.tick.phase⟩ := by
  rw [World.isCurrent_iff]
  have hof : ∀ {α : Type} {step : Step σ α} {ctx : Context}, task ∈ step.asks ctx →
      task.progress = ctx.progress ∧
        ∃ ticks, task.due = ⟨ctx.tick.number + ticks, ctx.tick.phase⟩ := by
    intro α step ctx hm
    obtain ⟨d, -, rfl⟩ := List.mem_map.1 hm
    exact ⟨rfl, d.1, rfl⟩
  cases h with
  | @execute _ n _ h =>
    rw [execute_renewed h]
    obtain ⟨slot, hs⟩ : ∃ slot, u.graph.slot? n = some slot := by
      cases hs : u.graph.slot? n with
      | none => simp [executing, hs] at ht
      | some slot => exact ⟨slot, rfl⟩
    have htick := bindOnce_tick (u.modify n fun s => { s with activation := slot.activation + 1 })
      n slot
    generalize hw : (u.modify n fun s => { s with activation := slot.activation + 1 }).bindOnce n slot
      = bound at htick
    obtain ⟨w₁, node, failed⟩ := bound
    cases failed with
    | some e =>
      rw [executing_of_failed hs hw] at ht
      cases ht
    | none =>
      rw [executing_of_bound hs hw] at ht
      obtain ⟨hp, ticks, hdue⟩ := hof ht
      refine ⟨by rw [hp]; simp [activation?, context, Context.progress, hs], ticks, ?_⟩
      rw [hdue, show (w₁.context n (slot.activation + 1)).tick = u.tick from htick]
  | receive h =>
    rw [activation?_receive h]
    unfold receiving at ht
    split at ht
    · cases ht
    next slot hs =>
    obtain ⟨hp, hdue⟩ := hof ht
    exact ⟨by rw [hp]; simp [activation?, context, Context.progress, hs], hdue⟩
  | hook n phase =>
    rw [activation?_hook]
    unfold hooking at ht
    split at ht
    · cases ht
    next slot hs =>
    split at ht
    · cases ht
    obtain ⟨hp, hdue⟩ := hof ht
    exact ⟨by rw [hp]; simp [activation?, context, Context.progress, hs], hdue⟩
  | stop | interrupt | ready | registered | unregistered | record | events | tick | blackboard =>
    cases ht

/-- Somewhere on the way from the one world to the other, the node of the end is executed, or
handed the result of its child, or in its hook, and asks for the end then; these are the
happenings from then on. -/
structure Asked (w : World σ) (task : DeferredTask) (later : List Happening) (u : World σ) :
    Prop where
  moment : ∃ (v v' : World σ) (asks : List DeferredTask), w.Since v ∧ v.Goes asks v' ∧
    task ∈ asks ∧ (∃ ticks, task.due = ⟨v.tick.number + ticks, v.tick.phase⟩) ∧
    v'.isCurrent task.progress ∧ v'.Since u ∧ u.happenings = v'.happenings ++ later

theorem Asked.then {v : World σ} {task : DeferredTask} {later new : List Happening}
    (h : w.Asked task later u) (h' : u.Since v) (hh : v.happenings = u.happenings ++ new) :
    w.Asked task (later ++ new) v := by
  obtain ⟨w₁, w₂, asks, hs, hg, hm, hdue, hc, hs', hl⟩ := h
  exact ⟨w₁, w₂, asks, hs, hg, hm, hdue, hc, hs'.trans h', by rw [hh, hl, List.append_assoc]⟩

omit [Node σ] in
/-- Nothing happens in a step after something was asked for in it. -/
theorem ofStep_eq_append {new : List Happening} {asks : List DeferredTask} {task : DeferredTask}
    {before after : List Item} (h : Item.ofStep new asks = before ++ .asked task :: after) :
    task ∈ asks ∧ after.filterMap Item.happening? = [] := by
  induction new generalizing before with
  | nil =>
    obtain ⟨l, r, rfl, -, hr⟩ := List.map_eq_append_iff.1 h
    obtain ⟨a, r, rfl, ha, rfl⟩ := List.map_eq_cons_iff.1 hr
    obtain rfl := Item.asked.inj ha
    exact ⟨by simp, by simp [List.filterMap_map, Function.comp_def, Item.happening?]⟩
  | cons x new ih =>
    cases before with
    | nil => cases h
    | cons y before => exact ih (List.cons.inj h).2

/-- Every end was asked for at a moment of its own, in the execution that it names. -/
theorem Log.asked {log before after : List Item} {task : DeferredTask} (h : Log w log u)
    (he : log = before ++ .asked task :: after) :
    w.Asked task (after.filterMap Item.happening?) u := by
  induction h generalizing after with
  | refl => simp at he
  | @step u u' log new asks h h' hh ih =>
    have hlast : ∀ before', Item.ofStep new asks = before' ++ .asked task :: after →
        w.Asked task (after.filterMap Item.happening?) u' := fun before' hs => by
      obtain ⟨hm, hnil⟩ := ofStep_eq_append hs
      obtain ⟨hc, hdue⟩ := h'.asked hm
      exact ⟨u, u', asks, h.since, h', hm, hdue, hc, .refl u', by rw [hnil, List.append_nil]⟩
    rcases List.append_eq_append_iff.1 he with ⟨before', rfl, hs⟩ | ⟨rest, rfl, hs⟩
    · exact hlast before' hs
    cases rest with
    | nil => exact hlast [] hs.symm
    | cons x rest =>
      rw [List.cons_append] at hs
      obtain ⟨rfl, rfl⟩ := List.cons.inj hs
      rw [List.filterMap_append, happening?_ofStep]
      exact (ih rfl).then h'.next.since hh
  | @take u log h ih =>
    rcases List.append_eq_append_iff.1 he with ⟨before', rfl, hs⟩ | ⟨rest, rfl, hs⟩
    · cases before' <;> simp at hs
    cases rest with
    | nil => simp at hs
    | cons x rest =>
      rw [List.cons_append] at hs
      obtain ⟨rfl, rfl⟩ := List.cons.inj hs
      rw [List.filterMap_append]
      exact (ih rfl).then (Next.schedule _ _).since (List.append_nil _).symm

/-- The execution that an end was asked for in is the present one if and only if none of its
node began since and no stop of it was done. -/
theorem Log.isCurrent_iff {before after : List Item} {task : DeferredTask}
    (h : Log w (before ++ .asked task :: after) u) :
    u.isCurrent task.progress ↔ ∀ x, .happened x ∈ after → x.renews task.progress.node = false := by
  obtain ⟨-, v, -, -, -, -, -, hv, hsince, hh⟩ := h.asked rfl
  obtain ⟨new, hnew, hiff⟩ := hsince.isCurrent_iff
    (progress?_eq_some_iff.2 (World.isCurrent_iff.1 hv))
  obtain rfl := List.append_cancel_left (hh.symm.trans hnew)
  rw [hiff]
  simp only [Item.mem_happenings]

/-- No end that was asked for names an execution that is still to come. -/
theorem Log.activation_le {before after : List Item} {task : DeferredTask}
    (h : Log w (before ++ .asked task :: after) u) :
    ∃ a, u.activation? task.progress.node = some a ∧ task.progress.activation ≤ a := by
  obtain ⟨-, v, -, -, -, -, -, hv, hsince, -⟩ := h.asked rfl
  obtain ⟨new, hnew⟩ := hsince.aged
  obtain ⟨a, ha, hle, -⟩ := hnew.activation _ _ (World.isCurrent_iff.1 hv)
  exact ⟨a, ha, hle⟩

/-! ## Worlds that go on without a phase -/

theorem Lasts.refl (w : World σ) : w.Lasts w := ⟨[], .refl w, by simp⟩

theorem Lasts.trans {v : World σ} (h : w.Lasts u) (h' : u.Lasts v) : w.Lasts v := by
  obtain ⟨log, hl, hn⟩ := h
  obtain ⟨more, hm, hn'⟩ := h'
  exact ⟨log ++ more, hl.trans hm, fun now hx =>
    (List.mem_append.1 hx).elim (hn now) (hn' now)⟩

theorem Goes.lasts {asks : List DeferredTask} (h : Goes u asks u') : u.Lasts u' := by
  obtain ⟨new, hnew⟩ := h.next.aged
  exact ⟨_, .step (.refl u) h hnew.happenings, by simp [Item.ofStep]⟩

theorem Lasts.since (h : w.Lasts u) : w.Since u := by
  obtain ⟨log, hl, -⟩ := h
  exact hl.since

theorem Lasts.record (h : w.Lasts u) {r : Record} (hr : r.happening? = none) :
    w.Lasts (u.record r) := by
  refine h.trans (Goes.lasts (.record u fun node call he => ?_))
  rw [he] at hr
  cases hr

theorem Lasts.trace (h : w.Lasts u) (tag : String) (stack : StackLabel) (node : Option NodeId)
    (value : Int) : w.Lasts (u.trace tag stack node value) :=
  h.trans (Goes.lasts (.record u fun _ _ he => by cases he))

theorem Lasts.report (h : w.Lasts u) (d : Diagnostic) : w.Lasts (u.report d) :=
  h.trans (Goes.lasts (.record u fun _ _ he => by cases he))

end World

end BehaviorTree
