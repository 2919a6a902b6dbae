/-
What rolling nodes back does to the world, to the last detail.

A node that is rolled back has its observers told and is stopped, and both of these are
addressed to somebody: `addressed` lists such records. Beyond them the node loses its
observers, its tokens and its deferred ends; the variables are what its stop leaves; and
nothing else changes. Nodes that are rolled back one after the other do not see each other
but in the variables, so each step can be told from the world before all of them
(`World.Unwound`).
-/
import Mathlib.Data.List.Basic
import BehaviorTree.Proofs.World.Agenda
import BehaviorTree.Proofs.World.Lives

namespace BehaviorTree

/-- A node is called, or one of its observers. -/
def Record.isAddressed : Record → Bool
  | called .. | observed .. => true
  | _ => false

variable {σ : Type}

namespace World

/-- The calls of nodes and of their observers, in the order of time. -/
def addressed (w : World σ) : List Record := (w.history.filter Record.isAddressed).reverse

theorem addressed_record (w : World σ) {r : Record} (h : r.isAddressed) :
    (w.record r).addressed = w.addressed ++ [r] := by
  simp [addressed, record, h]

theorem addressed_record_of_not (w : World σ) {r : Record} (h : r.isAddressed = false) :
    (w.record r).addressed = w.addressed := by
  simp [addressed, record, h]

@[simp] theorem addressed_hear (w : World σ) (id : NodeId) (messages : List Message) :
    (w.hear id messages).addressed = w.addressed := by
  unfold hear
  induction messages generalizing w with
  | nil => rfl
  | cons m ms ih => exact (ih _).trans (addressed_record_of_not w rfl)

/-- Telling observers is nothing but recording it. -/
theorem tell_eq (w : World σ) (id : NodeId) (observers : List Observer) :
    w.tell id observers
      = { w with history := (observers.map (.observed id)).reverse ++ w.history } := by
  unfold tell
  induction observers generalizing w with
  | nil => rfl
  | cons o os ih =>
    rw [List.foldl_cons, ih]
    simp [record]

theorem addressed_tell (w : World σ) (id : NodeId) (observers : List Observer) :
    (w.tell id observers).addressed = w.addressed ++ observers.map (.observed id) := by
  have hf : (observers.map (.observed id)).filter Record.isAddressed
      = observers.map (.observed id) := List.filter_eq_self.2 fun r hr => by
    obtain ⟨o, -, rfl⟩ := List.mem_map.1 hr
    rfl
  simp [addressed, tell_eq, List.filter_reverse, hf]

@[simp] theorem addressed_keep {α : Type} (w : World σ) (id : NodeId) (step : Step σ α) :
    (w.keep id step).addressed = w.addressed := by
  have hh : ({ w.modify id fun s => { s with node := step.node } with
      blackboard := step.effects.blackboard }.hear id step.effects.messages).addressed
        = w.addressed := addressed_hear ..
  unfold keep
  split
  · exact hh
  · exact (addressed_record_of_not _ rfl).trans hh

variable [Node σ] {w w' w'' : World σ} {id : NodeId} {nodes more : List NodeId}

/-- The variables after a stop of the node that finds them as `b`. -/
def leaving (w : World σ) (n : NodeId) (b : Blackboard) : Blackboard :=
  match w.graph.slot? n with
  | none => b
  | some slot =>
    (Node.stop slot.node { w.context n slot.activation with blackboard := b }).effects.blackboard

/-- What is addressed to a node that is rolled back: its observers are told, in the order in
which it asked for them, and then it is stopped. -/
def farewell (w : World σ) (n : NodeId) : List Record :=
  (w.observers n).map (.observed n) ++ [.called n .stop]

/-- The nodes were rolled back, in this order, and nothing else was done. -/
structure Unwound (nodes : List NodeId) (w w' : World σ) : Prop where
  addressed : w'.addressed = w.addressed ++ nodes.flatMap w.farewell
  observers : ∀ n ∈ nodes, w'.observers n = []
  activation : ∀ n ∈ nodes, w'.activation? n = (w.activation? n).map (· + 1)
  slot : ∀ n ∉ nodes, w'.graph.slot? n = w.graph.slot? n
  pending : w'.schedule.pending = w.schedule.pending.filter (·.progress.node ∉ nodes)
  blackboard : w'.blackboard = nodes.foldl (fun b n => w.leaving n b) w.blackboard
  tick : w'.tick = w.tick

theorem addressed_stop (h : w.stop id = .ok w') :
    w'.addressed = w.addressed ++ [.called id .stop] := by
  unfold stop at h
  split at h
  · cases h
  · cases h
    exact (addressed_keep ..).trans (addressed_record w rfl)

theorem blackboard_stop (h : w.stop id = .ok w') : w'.blackboard = w.leaving id w.blackboard := by
  cases hs : w.graph.slot? id with
  | none => simp [stop, hs] at h
  | some slot =>
    simp only [stop, hs, Except.ok.injEq] at h
    subst h
    simp only [leaving, hs]
    exact blackboard_keep ..

theorem leaving_congr {n : NodeId} (hs : w'.graph.slot? n = w.graph.slot? n)
    (ht : w'.tick = w.tick) (b : Blackboard) : w'.leaving n b = w.leaving n b := by
  simp only [leaving, hs, context, ht]

omit [Node σ] in
theorem addressed_trace (w : World σ) (tag : String) (stack : StackLabel) (node : Option NodeId)
    (value : Int) : (w.trace tag stack node value).addressed = w.addressed :=
  addressed_record_of_not w rfl

theorem Local.interrupt (h : w.interrupt id = .ok w') : Local id w w' := by
  unfold World.interrupt at h
  split at h
  · cases h
  next slot hs =>
    have hl : Local id w ((w.tell id slot.observers).modify id fun s => { s with observers := [] }) :=
      (Local.modify (w.tell id slot.observers) _).of_graph (graph_tell ..) rfl
    exact hl.trans (Local.stop h)

/-- A node is rolled back. -/
theorem interrupt_unwound (h : w.interrupt id = .ok w') : Unwound [id] w w' := by
  refine ⟨?_, ?_, ?_, ?_, ?_, ?_, (interrupt_keeps h).tick⟩
  · unfold interrupt at h
    split at h
    · cases h
    next slot hs =>
      have ho : w.observers id = slot.observers := by simp [World.observers, hs]
      rw [addressed_stop h, show (World.modify _ id _).addressed = _ from
        addressed_tell w id slot.observers]
      simp [farewell, ho]
  · intro n hn
    obtain rfl := List.mem_singleton.1 hn
    unfold interrupt at h
    split at h
    · cases h
    · exact stop_observers h
  · intro n hn
    obtain rfl := List.mem_singleton.1 hn
    rw [interrupt_renewed h, if_pos rfl]
  · exact fun n hn => (Local.interrupt h).slot? n (by simpa using hn)
  · rw [pending_interrupt h]
    simp
  · unfold interrupt at h
    split at h
    · cases h
    next slot hs =>
      have hs' := slot?_modify (w := w.tell id slot.observers) (by rwa [graph_tell])
        fun s => { s with observers := [] }
      have hb : ((w.tell id slot.observers).modify id fun s => { s with observers := [] }).blackboard
          = w.blackboard := by simp [tell_eq, World.modify]
      have ht : ((w.tell id slot.observers).modify id fun s => { s with observers := [] }).tick
          = w.tick := by simp [tell_eq, World.modify]
      rw [blackboard_stop h]
      simp only [leaving, hs, hs', context, hb, ht, List.foldl_cons, List.foldl_nil]

theorem Unwound.refl (w : World σ) : Unwound [] w w :=
  ⟨by simp, by simp, by simp, fun _ _ => rfl, by simp, rfl, rfl⟩

/-- What is traced and queued does not count. -/
theorem Unwound.note (h : Unwound nodes w w') (ha : w''.addressed = w'.addressed)
    (hg : w''.graph = w'.graph) (hb : w''.blackboard = w'.blackboard)
    (hs : w''.schedule = w'.schedule) (ht : w''.tick = w'.tick) : Unwound nodes w w'' where
  addressed := ha.trans h.addressed
  observers n hn := (observers_of_graph hg n).trans (h.observers n hn)
  activation n hn := (activation?_of_graph hg n).trans (h.activation n hn)
  slot n hn := by rw [hg, h.slot n hn]
  pending := by rw [hs, h.pending]
  blackboard := hb.trans h.blackboard
  tick := ht.trans h.tick

/-- One after the other. -/
theorem Unwound.trans (h : Unwound nodes w w') (h' : Unwound more w' w'')
    (hd : ∀ n ∈ nodes, n ∉ more) : Unwound (nodes ++ more) w w'' := by
  -- The nodes that are still to go are as they were before any of them went.
  have hslot : ∀ n ∈ more, w'.graph.slot? n = w.graph.slot? n := fun n hn =>
    h.slot n fun hm => hd n hm hn
  refine ⟨?_, ?_, ?_, ?_, ?_, ?_, h'.tick.trans h.tick⟩
  · rw [h'.addressed, h.addressed, List.flatMap_append, List.append_assoc]
    congr 2
    refine List.flatMap_congr fun n hn => ?_
    simp only [farewell, observers_of_slot? (hslot n hn)]
  · intro n hn
    rcases List.mem_append.1 hn with hn | hn
    · rw [observers_of_slot? (h'.slot n (hd n hn)), h.observers n hn]
    · exact h'.observers n hn
  · intro n hn
    rcases List.mem_append.1 hn with hn | hn
    · rw [activation?, h'.slot n (hd n hn)]
      exact h.activation n hn
    · rw [h'.activation n hn, activation?, hslot n hn]
      rfl
  · intro n hn
    rw [List.mem_append, not_or] at hn
    exact (h'.slot n hn.2).trans (h.slot n hn.1)
  · rw [h'.pending, h.pending, List.filter_filter]
    refine List.filter_congr fun task _ => ?_
    simp [Bool.and_comm]
  · rw [h'.blackboard, h.blackboard, List.foldl_append]
    exact List.foldl_ext _ _ _ fun b n hn => leaving_congr (hslot n hn) h.tick b

end World

end BehaviorTree
