/-
What nodes have asked for and not yet had.

In its steps a node may ask for its own end after some ticks, and for observers to be told
if it is rolled back. No step asks on behalf of another node, and a node that leaves its
stack loses both, so it takes a step to become engaged and leaving ends it
(`World.Engages`, `World.Releases`). When a node is rolled back, its observers go over from
those to be told to those that were told, and none is told a second time
(`World.interrupt_summoned`).
-/
import BehaviorTree.Proofs.World.Local

namespace BehaviorTree

/-- The observer of the node that a record tells of a rollback. -/
def Record.told? (n : NodeId) : Record → Option Observer
  | .observed node observer => if node = n then some observer else none
  | _ => none

variable {σ : Type}

/-- The ends that a step asks for. -/
def Step.asks {α : Type} (step : Step σ α) (ctx : Context) : List DeferredTask :=
  step.effects.deferred.map fun (ticks, success) =>
    { progress := ctx.progress, due := ⟨ctx.tick.number + ticks, ctx.tick.phase⟩, success }

namespace World

/-- The observers that are to be told if the node is rolled back. -/
def observers (w : World σ) (n : NodeId) : List Observer :=
  ((w.graph.slot? n).map (·.observers)).getD []

/-- The observers of the node that were told of a rollback, in the order of time. -/
def told (w : World σ) (n : NodeId) : List Observer :=
  (w.history.filterMap (Record.told? n)).reverse

/-- The observers that were told of a rollback of the node, and those that still will be. -/
def summoned (w : World σ) (n : NodeId) : List Observer := w.told n ++ w.observers n

/-- Someone is to be told of a rollback of the node, or an end of the node is deferred. -/
def Engaged (w : World σ) (n : NodeId) : Prop :=
  w.observers n ≠ [] ∨ ∃ task ∈ w.schedule.pending, task.progress.node = n

/-! ## Records -/

theorem told_record (w : World σ) (r : Record) (n : NodeId) :
    (w.record r).told n = w.told n ++ (r.told? n).toList := by
  cases h : r.told? n <;> simp [told, record, h]

theorem told_record_of_none (w : World σ) {r : Record} {n : NodeId} (h : r.told? n = none) :
    (w.record r).told n = w.told n := by
  simp [told_record, h]

@[simp] theorem told_hear (w : World σ) (id : NodeId) (messages : List Message) (n : NodeId) :
    (w.hear id messages).told n = w.told n := by
  unfold hear
  induction messages generalizing w with
  | nil => rfl
  | cons m ms ih => exact (ih _).trans (told_record_of_none w rfl)

/-- Telling the observers of a node tells them all, and no others. -/
theorem told_tell (w : World σ) (id : NodeId) (observers : List Observer) (n : NodeId) :
    (w.tell id observers).told n = w.told n ++ if id = n then observers else [] := by
  unfold tell
  induction observers generalizing w with
  | nil => simp
  | cons o os ih =>
    rw [List.foldl_cons, ih, told_record]
    by_cases hn : id = n <;> simp [Record.told?, hn]

@[simp] theorem told_keep {α : Type} (w : World σ) (id : NodeId) (step : Step σ α) (n : NodeId) :
    (w.keep id step).told n = w.told n := by
  have hh : ({ w.modify id fun s => { s with node := step.node } with
      blackboard := step.effects.blackboard }.hear id step.effects.messages).told n = w.told n :=
    told_hear ..
  unfold keep
  split
  · exact hh
  · exact (told_record_of_none _ rfl).trans hh

@[simp] theorem told_keepReply {α : Type} (w : World σ) (id : NodeId) (call : Call)
    (reply : Reply σ α) (n : NodeId) : (w.keepReply id call reply).told n = w.told n :=
  (told_hear ..).trans (told_record_of_none w rfl)

/-! ## Schedules -/

@[simp] theorem schedule_hear (w : World σ) (id : NodeId) (messages : List Message) :
    (w.hear id messages).schedule = w.schedule := by
  unfold hear
  induction messages generalizing w with
  | nil => rfl
  | cons m ms ih => exact ih _

@[simp] theorem schedule_tell (w : World σ) (id : NodeId) (observers : List Observer) :
    (w.tell id observers).schedule = w.schedule := by
  unfold tell
  induction observers generalizing w with
  | nil => rfl
  | cons o os ih => exact ih _

@[simp] theorem schedule_keep {α : Type} (w : World σ) (id : NodeId) (step : Step σ α) :
    (w.keep id step).schedule = w.schedule := by
  have hh : ({ w.modify id fun s => { s with node := step.node } with
      blackboard := step.effects.blackboard }.hear id step.effects.messages).schedule
        = w.schedule := schedule_hear ..
  unfold keep
  split <;> exact hh

@[simp] theorem schedule_keepReply {α : Type} (w : World σ) (id : NodeId) (call : Call)
    (reply : Reply σ α) : (w.keepReply id call reply).schedule = w.schedule :=
  schedule_hear ..

@[simp] theorem tick_hear (w : World σ) (id : NodeId) (messages : List Message) :
    (w.hear id messages).tick = w.tick := by
  unfold hear
  induction messages generalizing w with
  | nil => rfl
  | cons m ms ih => exact ih _

@[simp] theorem tick_keep {α : Type} (w : World σ) (id : NodeId) (step : Step σ α) :
    (w.keep id step).tick = w.tick := by
  unfold keep
  split <;> exact tick_hear ..

/-- A step adds what it asks for to the schedule. -/
theorem pending_absorb_eq {α : Type} (w : World σ) (id : NodeId) (activation : Nat)
    (step : Step σ α) : (w.absorb id activation step).schedule.pending
      = w.schedule.pending ++ step.asks (w.context id activation) := by
  have hadd : ∀ (now : Tick) (ends : List (Nat × Bool)) (s : Schedule),
      (ends.foldl (fun s d => s.add
        { progress := ⟨id, activation⟩, due := ⟨now.number + d.1, now.phase⟩, success := d.2 })
          s).pending = s.pending ++ ends.map fun d =>
            { progress := ⟨id, activation⟩, due := ⟨now.number + d.1, now.phase⟩, success := d.2 } := by
    intro now ends
    induction ends with
    | nil => simp
    | cons d ends ih =>
      intro s
      rw [List.foldl_cons, ih, Schedule.pending_add]
      simp
  unfold absorb
  simp only [World.modify, schedule_keep, hadd, tick_keep]
  rfl

/-- What a step defers are ends of its own node. -/
theorem pending_absorb {α : Type} (w : World σ) (id : NodeId) (activation : Nat)
    (step : Step σ α) {task : DeferredTask}
    (h : task ∈ (w.absorb id activation step).schedule.pending) :
    task ∈ w.schedule.pending ∨ task.progress.node = id := by
  rw [pending_absorb_eq, List.mem_append] at h
  refine h.imp_right fun h => ?_
  obtain ⟨d, -, rfl⟩ := List.mem_map.1 h
  rfl

/-! ## Observers -/

theorem observers_of_slot? {w w' : World σ} {n : NodeId}
    (h : w'.graph.slot? n = w.graph.slot? n) : w'.observers n = w.observers n := by
  unfold observers
  rw [h]

theorem observers_of_graph {w w' : World σ} (h : w'.graph = w.graph) (n : NodeId) :
    w'.observers n = w.observers n :=
  observers_of_slot? (by rw [h])

/-- A change of a slot that leaves its observers alone. -/
theorem observers_modify (w : World σ) (id : NodeId) {f : Slot σ → Slot σ}
    (hf : ∀ s, (f s).observers = s.observers) (n : NodeId) :
    (w.modify id f).observers n = w.observers n := by
  by_cases hn : n = id
  · subst hn
    unfold observers World.modify
    rw [Graph.slot?_modify_self, Option.map_map]
    congr 2
    funext s
    exact hf s
  · exact observers_of_slot? (Graph.slot?_modify_of_ne w.graph hn f)

theorem observers_modify_nil (w : World σ) (id : NodeId) {f : Slot σ → Slot σ}
    (hf : ∀ s, (f s).observers = []) : (w.modify id f).observers id = [] := by
  unfold observers World.modify
  rw [Graph.slot?_modify_self]
  cases w.graph.slot? id with
  | none => rfl
  | some s => simp [hf]

@[simp] theorem observers_keepReply {α : Type} (w : World σ) (id : NodeId) (call : Call)
    (reply : Reply σ α) (n : NodeId) : (w.keepReply id call reply).observers n = w.observers n :=
  (observers_of_graph (graph_hear ..) n).trans (observers_modify _ id (fun _ => by rfl) n)

/-! ## Steps -/

/-- Nobody else becomes engaged. -/
def Engages (id : NodeId) (w w' : World σ) : Prop := ∀ n, w'.Engaged n → n = id ∨ w.Engaged n

/-- The node is not engaged any more, and nobody becomes engaged. -/
def Releases (id : NodeId) (w w' : World σ) : Prop := ∀ n, w'.Engaged n → n ≠ id ∧ w.Engaged n

/-- Nothing that was asked for changes but by what is taken away. -/
theorem Engaged.of {w w' : World σ} {n : NodeId} (h : w'.Engaged n)
    (ho : w'.observers n = w.observers n)
    (hs : ∀ task ∈ w'.schedule.pending, task.progress.node = n → task ∈ w.schedule.pending) :
    w.Engaged n := by
  rcases h with h | ⟨task, ht, hn⟩
  · exact .inl (by rwa [← ho])
  · exact .inr ⟨task, hs task ht hn, hn⟩

theorem engaged_absorb {α : Type} {w v : World σ} {id : NodeId} {activation : Nat}
    {step : Step σ α} (hl : Local id w v) (hs : v.schedule = w.schedule) :
    w.Engages id (v.absorb id activation step) := by
  intro n h
  by_cases hn : n = id
  · exact .inl hn
  have hl' := hl.trans (.absorb v activation step)
  refine .inr (h.of (observers_of_slot? (hl'.slot? n hn)) fun task ht he => ?_)
  rcases pending_absorb v id activation step ht with hp | hp
  · rwa [hs] at hp
  · exact absurd (he.symm.trans hp) hn

variable [Node σ] {w w' : World σ} {id : NodeId}

theorem bindOnce_schedule (w : World σ) (id : NodeId) (slot : Slot σ) :
    (w.bindOnce id slot).1.schedule = w.schedule := by
  unfold bindOnce
  split
  · rfl
  · exact schedule_keepReply ..

theorem bindOnce_tick (w : World σ) (id : NodeId) (slot : Slot σ) :
    (w.bindOnce id slot).1.tick = w.tick := by
  unfold bindOnce
  split
  · rfl
  · exact tick_hear ..

theorem execute_engages {d : Dispatch} (h : w.execute id = .ok (w', d)) : w.Engages id w' := by
  unfold execute at h
  split at h
  · cases h
  next slot hs =>
  have hl : Local id w _ := (Local.modify w fun s => { s with activation := slot.activation + 1 }).trans
    (.bindOnce _ slot)
  have hsch : (((w.modify id fun s => { s with activation := slot.activation + 1 })).bindOnce id
      slot).1.schedule = w.schedule := bindOnce_schedule ..
  simp only at h
  split at h
  · next hw =>
    cases h
    rw [hw] at hl hsch
    intro n hn
    by_cases he : n = id
    · exact .inl he
    · exact .inr (hn.of (observers_of_slot? (hl.slot? n he)) fun _ ht _ => by rwa [hsch] at ht)
  · next hw =>
    cases h
    rw [hw] at hl hsch
    exact engaged_absorb (hl.of_graph rfl rfl) hsch

theorem receive_engages {ok : Bool} {d : Dispatch} (h : w.receive id ok = .ok (w', d)) :
    w.Engages id w' := by
  unfold receive at h
  split at h
  · cases h
  · cases h
    exact engaged_absorb ((Local.refl w).of_graph rfl rfl) rfl

theorem hook_engages (w : World σ) (id : NodeId) (phase : Phase) :
    w.Engages id (w.hook id phase).1 := by
  have hrefl : w.Engages id w := fun _ h => .inr h
  unfold hook
  split
  · exact hrefl
  split
  · exact hrefl
  · simp only
    split <;> exact engaged_absorb ((Local.refl w).of_graph rfl rfl) rfl

/-- Leaving a stack ends all that the node asked for. -/
theorem stop_releases (h : w.stop id = .ok w') : w.Releases id w' := by
  have hl := Local.stop h
  unfold stop at h
  split at h
  · cases h
  cases h
  have hp : ∀ task ∈ (w.schedule.cancel id).pending,
      task ∈ w.schedule.pending ∧ task.progress.node ≠ id := by
    intro task ht
    rw [Schedule.pending_cancel, List.mem_filter] at ht
    exact ⟨ht.1, by simpa using ht.2⟩
  intro n hn
  have hne : n ≠ id := by
    rintro rfl
    rcases hn with hn | ⟨task, ht, he⟩
    · exact hn (observers_modify_nil _ n fun _ => rfl)
    · simp only [World.modify, schedule_keep] at ht
      exact (hp task ht).2 he
  refine ⟨hne, hn.of (observers_of_slot? (hl.slot? n hne)) fun task ht _ => ?_⟩
  simp only [World.modify, schedule_keep] at ht
  exact (hp task ht).1

theorem interrupt_releases (h : w.interrupt id = .ok w') : w.Releases id w' := by
  unfold interrupt at h
  split at h
  · cases h
  next slot hs =>
  intro n hn
  obtain ⟨hne, he⟩ := stop_releases h n hn
  have hl : Local id w ((w.tell id slot.observers).modify id fun s => { s with observers := [] }) :=
    (Local.modify (w.tell id slot.observers) _).of_graph (graph_tell ..) rfl
  refine ⟨hne, he.of (observers_of_slot? (hl.slot? n hne)) fun task ht _ => ?_⟩
  simpa [World.modify] using ht

theorem stop_told (h : w.stop id = .ok w') (n : NodeId) : w'.told n = w.told n := by
  unfold stop at h
  split at h
  · cases h
  · cases h
    exact (told_keep ..).trans (told_record_of_none w rfl)

theorem stop_observers (h : w.stop id = .ok w') : w'.observers id = [] := by
  unfold stop at h
  split at h
  · cases h
  · cases h
    exact observers_modify_nil _ id fun _ => rfl

/-- Rolling a node back tells all of its observers, and no others. -/
theorem interrupt_summoned (h : w.interrupt id = .ok w') (n : NodeId) :
    w'.summoned n = w.summoned n := by
  unfold interrupt at h
  split at h
  · cases h
  next slot hs =>
  have ht := (stop_told h n).trans (told_tell w id slot.observers n)
  by_cases hn : id = n
  · subst hn
    have ho : w.observers id = slot.observers := by simp [observers, hs]
    simp [summoned, ht, stop_observers h, ho]
  · have hl : Local id w ((w.tell id slot.observers).modify id fun s => { s with observers := [] }) :=
      (Local.modify (w.tell id slot.observers) _).of_graph (graph_tell ..) rfl
    have ho := observers_of_slot? ((hl.trans (Local.stop h)).slot? n (Ne.symm hn))
    simp [summoned, ht, ho, hn]

theorem ready_observers (w : World σ) (id n : NodeId) :
    (w.ready id).1.observers n = w.observers n := by
  unfold ready
  split
  · rfl
  split
  · rfl
  · exact observers_keepReply ..

theorem ready_schedule (w : World σ) (id : NodeId) : (w.ready id).1.schedule = w.schedule := by
  unfold ready
  split
  · rfl
  split
  · rfl
  · exact schedule_keepReply ..

end World

end BehaviorTree
