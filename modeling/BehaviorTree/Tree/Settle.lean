/-
Settling: registering and unregistering services by what happened to the stacks.

A service is registered when its owner comes onto a stack, and torn down when the
owner leaves it. Tearing down rolls the service's own stack back, and each node that
leaves it is one more event to settle; but every such event is paid for by a node
that was on a service's stack, so `backlog`, the events together with those nodes,
falls with each event and settling ends.
-/
import BehaviorTree.Tree.Basic

namespace BehaviorTree

namespace World

variable {σ : Type}

@[simp] theorem events_record (w : World σ) (r : Record) : (w.record r).events = w.events := rfl

@[simp] theorem events_trace (w : World σ) (tag : String) (stack : StackLabel)
    (node : Option NodeId) (value : Int) :
    (w.trace tag stack node value).events = w.events := rfl

@[simp] theorem events_modify (w : World σ) (id : NodeId) (f : Slot σ → Slot σ) :
    (w.modify id f).events = w.events := rfl

@[simp] theorem events_hear (w : World σ) (id : NodeId) (messages : List Message) :
    (w.hear id messages).events = w.events := by
  unfold hear
  induction messages generalizing w with
  | nil => rfl
  | cons m ms ih => rw [List.foldl_cons, ih, events_record]

@[simp] theorem events_tell (w : World σ) (id : NodeId) (observers : List Observer) :
    (w.tell id observers).events = w.events := by
  unfold tell
  induction observers generalizing w with
  | nil => rfl
  | cons o os ih => rw [List.foldl_cons, ih, events_record]

@[simp] theorem events_keep {α : Type} (w : World σ) (id : NodeId) (step : Step σ α) :
    (w.keep id step).events = w.events := by
  unfold keep
  split <;> simp

@[simp] theorem events_keepReply {α : Type} (w : World σ) (id : NodeId) (call : Call)
    (reply : Reply σ α) : (w.keepReply id call reply).events = w.events := by
  simp [keepReply]

theorem size_events_left (w : World σ) (label : StackLabel) (node : NodeId) (depth : Nat) :
    (w.left label node depth).events.size = w.events.size + 1 := by
  simp [left, enqueue]

variable [Node σ]

theorem events_stop {w w' : World σ} {id : NodeId} (h : w.stop id = .ok w') :
    w'.events = w.events := by
  unfold stop at h
  split at h
  · cases h
  · cases h
    simp

theorem events_interrupt {w w' : World σ} {id : NodeId} (h : w.interrupt id = .ok w') :
    w'.events = w.events := by
  unfold interrupt at h
  split at h
  · cases h
  · rw [events_stop h]
    simp

@[simp] theorem events_registered (w : World σ) (id : NodeId) :
    (w.registered id).events = w.events := by
  unfold registered
  split
  · rfl
  · split <;> simp

@[simp] theorem events_unregistered (w : World σ) (id : NodeId) :
    (w.unregistered id).events = w.events := by
  unfold unregistered
  split
  · rfl
  · split <;> simp

end World

namespace Stack

variable {σ : Type} [Node σ]

/-- Each node that is rolled back becomes one event. -/
theorem size_events_unwind (label : StackLabel) (stopAt : Option NodeId) (nodes : List NodeId)
    (w : World σ) :
    (unwind label stopAt nodes w).world.events.size + (unwind label stopAt nodes w).after.length
      = w.events.size + nodes.length := by
  induction nodes generalizing w with
  | nil => rfl
  | cons top rest ih =>
    rw [unwind]
    split
    · rfl
    · split
      · rfl
      · rename_i w' hw
        rw [ih, World.size_events_left, World.events_interrupt hw, List.length_cons]
        omega

theorem size_events_terminate (s : Stack) (w : World σ) :
    (s.terminate w).world.events.size ≤ w.events.size + s.depth := by
  have h := size_events_unwind s.label none s.nodes w
  have hb : (s.breakTo w none).world.events.size ≤ w.events.size + s.depth := by
    unfold breakTo depth
    simp only [Option.filter_none]
    split
    all_goals
      rename_i hu
      rw [hu] at h
      simp at h ⊢
      omega
  unfold terminate
  split
  · rename_i hs
    rw [hs] at hb
    exact hb
  · rename_i hs
    rw [hs] at hb
    simp only
    split <;> simpa using hb

end Stack

namespace Service

/-- What `f` comes to over all of the services. -/
def total (f : Service → Nat) : List Service → Nat
  | [] => 0
  | v :: rest => f v + total f rest

@[simp]
theorem total_append (f : Service → Nat) (services more : List Service) :
    total f (services ++ more) = total f services + total f more := by
  induction services with
  | nil => simp [total]
  | cons v rest ih => simp [total, ih, Nat.add_assoc]

theorem total_eraseP (f : Service → Nat) {services : List Service} {p : Service → Bool}
    {v : Service} (h : services.find? p = some v) :
    total f (services.eraseP p) + f v = total f services := by
  induction services with
  | nil => cases h
  | cons a rest ih =>
    by_cases ha : p a
    · rw [List.find?_cons_of_pos ha] at h
      cases h
      rw [List.eraseP_cons_of_pos ha]
      exact Nat.add_comm ..
    · rw [List.find?_cons_of_neg ha] at h
      have hs := ih h
      rw [List.eraseP_cons_of_neg ha]
      simp only [total]
      omega

end Service

namespace Tree

variable {σ : Type}

/-- What settling may have to do: the events, and the nodes on the stacks of services. -/
def backlog (t : Tree σ) : Nat := t.world.events.size + Service.total (·.stack.depth) t.services

variable [Node σ]

/-- Register one service of a node that came onto a stack. -/
def registerService (owner : NodeId) (t : Tree σ) (service : NodeId) : Tree σ :=
  if t.isRegistered service then t
  else
    let w := (t.world.registered service).trace "bt.service.register" (.service service) owner 0
    { t with world := w, services := t.services ++ [.make service owner t.config] }

def registerServices (t : Tree σ) (owner : NodeId) : Tree σ :=
  (t.world.graph.servicesOf owner).foldl (registerService owner) t

/-- Tear one service of a node that left its stack down. -/
def unregisterService (owner : NodeId) (o : Outcome σ) (service : NodeId) : Outcome σ :=
  match o.tree.service? service with
  | none => o
  | some v =>
    let p := v.stack.terminate o.tree.world
    let w := (p.world.unregistered service).trace "bt.service.unregister" (.service service)
      owner v.runs
    ⟨{ o.tree with world := w, services := o.tree.services.eraseP (·.service = service) },
      o.fault.or p.fault⟩

def unregisterServices (t : Tree σ) (owner : NodeId) : Outcome σ :=
  (t.world.graph.servicesOf owner).foldl (unregisterService owner) ⟨t, none⟩

/-- Do what one event asks for. -/
def handle (t : Tree σ) : StackEvent → Outcome σ
  | .pushed node => ⟨t.registerServices node, none⟩
  | .popped node => t.unregisterServices node
  | .ended .main result =>
    ⟨{ t with
        endedAt := some t.world.tick.number
        completedRuns := t.completedRuns + 1
        lastResult := result }, none⟩
  | .ended (.service _) _ => ⟨t, none⟩

theorem backlog_registerService (owner : NodeId) (t : Tree σ) (service : NodeId) :
    (registerService owner t service).backlog = t.backlog := by
  unfold registerService
  split
  · rfl
  · simp [backlog, Service.total, Service.make, Stack.depth, Stack.applyConfig]

theorem backlog_registerServices (t : Tree σ) (owner : NodeId) :
    (t.registerServices owner).backlog = t.backlog := by
  unfold registerServices
  generalize t.world.graph.servicesOf owner = services
  induction services generalizing t with
  | nil => rfl
  | cons service rest ih => rw [List.foldl_cons, ih, backlog_registerService]

theorem backlog_unregisterService (owner : NodeId) (o : Outcome σ) (service : NodeId) :
    (unregisterService owner o service).tree.backlog ≤ o.tree.backlog := by
  unfold unregisterService
  split
  · exact Nat.le_refl _
  · rename_i v hv
    have hn := Service.total_eraseP (·.stack.depth) hv
    have ht := Stack.size_events_terminate v.stack o.tree.world
    simp only [backlog, World.events_trace, World.events_unregistered]
    omega

theorem backlog_unregisterServices (t : Tree σ) (owner : NodeId) :
    (t.unregisterServices owner).tree.backlog ≤ t.backlog := by
  unfold unregisterServices
  suffices h : ∀ (services : List NodeId) (o : Outcome σ),
      (services.foldl (unregisterService owner) o).tree.backlog ≤ o.tree.backlog from h _ ⟨t, none⟩
  intro services
  induction services with
  | nil => exact fun o => Nat.le_refl _
  | cons service rest ih =>
    intro o
    exact Nat.le_trans (ih _) (backlog_unregisterService owner o service)

theorem backlog_handle (t : Tree σ) (event : StackEvent) :
    (t.handle event).tree.backlog ≤ t.backlog := by
  match event with
  | .pushed node => exact Nat.le_of_eq (backlog_registerServices t node)
  | .popped node => exact backlog_unregisterServices t node
  | .ended .main _ => exact Nat.le_refl _
  | .ended (.service _) _ => exact Nat.le_refl _

/-- Settle event by event; `first` is the first rule found broken so far. -/
def settleFrom (first : Option StackError) (t : Tree σ) : Outcome σ :=
  match _h : t.world.events.pop? with
  | none => ⟨t, first⟩
  | some (event, rest) =>
    let o := { t with world := { t.world with events := rest } }.handle event
    settleFrom (first.or o.fault) o.tree
termination_by t.backlog
decreasing_by
  refine Nat.lt_of_le_of_lt (backlog_handle _ event) ?_
  simp only [backlog, Queue.size_of_pop? _h]
  omega

/-- Settle all that happened to the stacks. -/
def settle (t : Tree σ) : Outcome σ := t.settleFrom none

end Tree

end BehaviorTree
