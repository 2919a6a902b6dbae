/-
Every activation of a node ends with one stop.

Over all the stacks of a tree the entries of a node are balanced by its stops together with
the stacks that it is on. Nothing that a tree does is an exception: a service that is torn
down has its stack emptied first, node by node.
-/
import BehaviorTree.Proofs.Stack.Stops
import BehaviorTree.Proofs.Tree.Replay
import BehaviorTree.Proofs.Tree.Walk

namespace BehaviorTree

variable {σ : Type}

namespace Service

theorem total_map (f : Service → Nat) (change : Service → Service) (services : List Service) :
    total f (services.map change) = total (fun v => f (change v)) services := by
  induction services with
  | nil => rfl
  | cons v rest ih => simp [total, ih]

/-- To put one service in the place of another changes a total by what these two add to it. -/
theorem total_put {services : List Service} (f : Service → Nat) {v v' : Service}
    (hn : (services.map (·.service)).Nodup) (hv : v ∈ services) (h : v'.service = v.service) :
    total f (services.map fun old => if old.service = v'.service then v' else old) + f v
      = total f services + f v' := by
  induction services with
  | nil => cases hv
  | cons a rest ih =>
    obtain ⟨ha, hn⟩ := List.nodup_cons.1 hn
    rcases List.mem_cons.1 hv with rfl | hv
    · have hrest : rest.map (fun old => if old.service = v'.service then v' else old) = rest := by
        refine (List.map_congr_left fun old ho => ?_).trans (List.map_id _)
        have hne : old.service ≠ v'.service := fun he =>
          ha (List.mem_map.2 ⟨old, ho, he.trans h⟩)
        rw [if_neg hne]
        rfl
      rw [List.map_cons, hrest, if_pos h.symm]
      simp only [total]
      omega
    · have hne : a.service ≠ v'.service := fun he =>
        ha (List.mem_map.2 ⟨v, hv, h.symm.trans he.symm⟩)
      have hs := ih hn hv
      rw [List.map_cons, if_neg hne]
      simp only [total]
      omega

variable [Node σ] {allowed : Stack.Operation → Prop} {x y : Service × World σ}
  {found : List Breach}

theorem Step.balanced (h : Step allowed x found y) :
    ∃ new, y.2.happenings = x.2.happenings ++ new ∧
      Balanced new (fun n => x.1.stack.nodes.count n) (fun n => y.1.stack.nodes.count n) := by
  cases h with
  | operate v w _ => exact (v.stack.perform_made w _).acts.balanced
  | count => exact ⟨[], (List.append_nil _).symm, .nil _⟩
  | ask v w =>
    rcases World.happenings_ready w v.service with hh | ⟨answer, hh⟩
    · exact ⟨[], by simp [hh], .nil _⟩
    · exact ⟨_, hh, .of_calls [.ready answer] (by simp) _⟩
  | trace v w h => exact ⟨[], by rw [World.happenings_trace w h, List.append_nil], .nil _⟩

end Service

namespace Tree

/-- The main stack and those of the registered services. -/
def activeStacks (t : Tree σ) : List Stack := t.main :: t.services.map (·.stack)

/-- How many places the node has on the stacks. -/
def places (t : Tree σ) (n : NodeId) : Nat :=
  t.main.nodes.count n + Service.total (·.stack.nodes.count n) t.services

variable [Node σ] {call : HostCall} {t t' : Tree σ} {found told : List Breach}

omit [Node σ] in
/-- On a sound stack a node has at most one place. -/
theorem Sound.places_eq (h : t.Sound) (n : NodeId) :
    t.places n = t.activeStacks.countP (·.contains n) := by
  have hone : ∀ s : Stack, s.nodes.Nodup → s.nodes.count n = if s.contains n then 1 else 0 := by
    intro s hs
    rw [hs.count]
    simp [Stack.contains]
  have hsum : ∀ services : List Service, (∀ v ∈ services, v.stack.nodes.Nodup) →
      Service.total (·.stack.nodes.count n) services
        = (services.map (·.stack)).countP (·.contains n) := by
    intro services hs
    induction services with
    | nil => rfl
    | cons v rest ih =>
      have hr := ih fun u hu => hs u (List.mem_cons_of_mem v hu)
      rw [Service.total, hr, hone v.stack (hs v List.mem_cons_self), List.map_cons,
        List.countP_cons]
      omega
  unfold places activeStacks
  rw [hone t.main h.main.nodup, hsum t.services fun v hv => (h.services v hv).nodup,
    List.countP_cons]
  omega

/-- A service that goes is told so, and the trace tells of the stack, if it does. -/
theorem balanced_unregistered (w : World σ) (s : NodeId) (k : NodeId → Nat) :
    ∃ new, (w.unregistered s).happenings = w.happenings ++ new ∧ Balanced new k k := by
  rcases World.happenings_unregistered w s with hh | hh
  · exact ⟨[], by simp [hh], .nil k⟩
  · exact ⟨_, hh, .of_calls [.unregistered] (by simp) k⟩

/-- When a stack is ended and its service taken out, the nodes of the stack are stopped. -/
theorem balanced_eraseService (ht : t.Sound) {s : NodeId} {v : Service}
    (hv : t.service? s = some v) :
    ∃ new, ((v.stack.terminate t.world).world.unregistered s).happenings
        = t.world.happenings ++ new ∧
      Balanced new t.places
        fun n => t.main.nodes.count n
          + Service.total (·.stack.nodes.count n) (t.services.eraseP (·.service = s)) := by
  have hm := (service?_eq_some hv).1
  have hnil := (Stack.terminate_eq (ht.services v hm).known).2
  obtain ⟨new, hh, hb⟩ := (v.stack.perform_made t.world .terminate).acts.balanced
  simp only [Stack.perform] at hh hb
  obtain ⟨new', hh', hb'⟩ := balanced_unregistered (v.stack.terminate t.world).world s
    fun n => (v.stack.terminate t.world).after.nodes.count n
  refine ⟨new ++ new', by rw [hh', hh, List.append_assoc], (hb.trans hb').beside fun n => ?_⟩
  have hsum := Service.total_eraseP (fun u => u.stack.nodes.count n)
    (show t.services.find? (·.service = s) = some v from hv)
  simp only [places, hnil, List.count_nil]
  omega

theorem Step.balanced (h : Step call t found t') (ht : t.Sound) :
    ∃ new, t'.world.happenings = t.world.happenings ++ new ∧ Balanced new t.places t'.places := by
  cases h with
  | main =>
    obtain ⟨new, hh, hb⟩ := (t.main.perform_made t.world _).acts.balanced
    refine ⟨new, hh, hb.beside fun n => ?_⟩
    simp only [places, keepMain]
    omega
  | @service v v' w _ hv h =>
    obtain ⟨new, hh, hb⟩ := h.balanced
    refine ⟨new, hh, hb.beside fun n => ?_⟩
    have hsum := Service.total_put (fun u => u.stack.nodes.count n) ht.nodup hv h.service
    simp only [places, putService] at hsum ⊢
    omega
  | @register owner s _ =>
    unfold registerService
    split
    · exact ⟨[], by simp, .nil _⟩
    have hplaces : ∀ (w : World σ), places { t with
        world := w, services := t.services ++ [Service.make s owner t.config] } = t.places := by
      intro w
      funext n
      simp [places, Service.total, Service.make, Stack.applyConfig]
    simp only [hplaces]
    rw [World.happenings_trace _ (by decide)]
    rcases World.happenings_registered t.world s with hh | hh
    · exact ⟨[], by simp [hh], .nil _⟩
    · exact ⟨_, hh, .of_calls [.registered] (by simp) _⟩
  | unregister owner s =>
    unfold unregisterService
    split
    · exact ⟨[], by simp, .nil _⟩
    next v hv =>
    obtain ⟨new, hh, hb⟩ := balanced_eraseService ht hv
    refine ⟨new ++ [.tornDown (.service s)], ?_, hb.trans (.of_quiet (by simp [Happening.ends])
      (by simp [Happening.isEntry]) _)⟩
    rw [← List.append_assoc, ← hh]
    exact World.happenings_record _ _
  | @tearDown v _ hv => exact balanced_eraseService ht hv
  | trace h => exact ⟨[], by rw [World.happenings_trace _ h, List.append_nil], .nil _⟩
  | take | clock | due | setVariables | fields =>
    exact ⟨[], (List.append_nil _).symm, .nil _⟩
  | @config c =>
    refine ⟨[], (List.append_nil _).symm, ?_⟩
    have hplaces : (t.withConfig c).places = t.places := by
      funext n
      simp [places, withConfig, Stack.applyConfig, Service.total_map]
    rw [hplaces]
    exact .nil _

theorem Runs.balanced (h : Runs call t found told t') (ht : t.Sound) :
    ∃ new, t'.world.happenings = t.world.happenings ++ new ∧ Balanced new t.places t'.places := by
  induction h with
  | refl => exact ⟨[], by simp, .nil _⟩
  | step h hs ih =>
    obtain ⟨new, hh, hb⟩ := ih
    obtain ⟨new', hh', hb'⟩ := hs.balanced (h.sound ht)
    exact ⟨new ++ new', by rw [hh', hh, List.append_assoc], hb.trans hb'⟩
  | report _ _ ih =>
    obtain ⟨new, hh, hb⟩ := ih
    refine ⟨_, (World.happenings_record _ _).trans (by rw [hh, List.append_assoc]),
      hb.trans (.of_quiet (fun x hx => ?_) (fun x hx n => ?_) _)⟩
    all_goals
      simp [Record.happening?, Diagnostic.ofFault] at hx
      subst hx
      rfl

/-- How often the node came onto a stack. -/
def entries (t : Tree σ) (n : NodeId) : Nat := t.world.happenings.countP (·.isEntry n)

/-- How often the node was stopped. -/
def stops (t : Tree σ) (n : NodeId) : Nat := t.world.happenings.countP (·.isStop n)

/-- Whatever the host calls, each node came onto a stack as often as it was stopped, not
counting the stacks that it is on now; and a node leaves a stack exactly when it was
stopped, right after that. What comes and leaves by the happenings is what comes and leaves:
the nodes of every stack are the ones that these leave. -/
theorem stop_once_per_entry {g : Graph σ} {root : NodeId} {b : Blackboard}
    (hm : make g root b = .ok t) (calls : List HostCall) :
    (t.performAll calls).ReplaysStacks ∧
    (∀ n, (t.performAll calls).entries n
      = (t.performAll calls).stops n + (t.performAll calls).activeStacks.countP (·.contains n)) ∧
    (∀ i n, (t.performAll calls).world.happenings[i]? = some (.called n .stop) ↔
      ∃ label, (t.performAll calls).world.happenings[i + 1]? = some (.left label n)) ∧
    ∀ label n, (t.performAll calls).world.happenings[0]? ≠ some (.left label n) := by
  have hstart : Balanced t.world.happenings (fun _ => 0) t.places := by
    obtain ⟨-, rfl⟩ := make_ok hm
    exact .nil _
  obtain ⟨hs, hreplays, hb⟩ := performAll_induction
    (P := fun t => t.ReplaysStacks ∧ Balanced t.world.happenings (fun _ => 0) t.places)
    (sound_make hm)
    ⟨replaysStacks_make hm, hstart⟩
    (fun call t t' found ht hr hb => by
      obtain ⟨new, hh, hnew⟩ := hr.balanced ht
      refine ⟨hr.replaysStacks ht hb.1, ?_⟩
      rw [hh]
      exact hb.2.trans hnew) calls
  refine ⟨hreplays, fun n => ?_, hb.paired.stop_iff_left, hb.paired.head_ne_left⟩
  have hc := hb.count n
  rw [← hs.places_eq n]
  exact hc

/-- A service and its owner come and go. -/
theorem stop_once_per_entry_beaconBeside :
    ∃ t, make beaconBeside ⟨2⟩ {} = .ok t ∧
      (t.performAll [.start, .update 0]).entries ⟨1⟩ = 1 ∧
      (t.performAll [.start, .update 0]).stops ⟨1⟩ = 0 ∧
      (t.performAll [.start, .update 0, .terminate]).entries ⟨1⟩ = 1 ∧
      (t.performAll [.start, .update 0, .terminate]).stops ⟨1⟩ = 1 ∧
      ∀ n, (t.performAll [.start, .update 0, .terminate]).entries n
        = (t.performAll [.start, .update 0, .terminate]).stops n
          + (t.performAll [.start, .update 0, .terminate]).activeStacks.countP (·.contains n) :=
  ⟨_, rfl, by decide +kernel, by decide +kernel, by decide +kernel, by decide +kernel,
    (stop_once_per_entry (rfl : make beaconBeside ⟨2⟩ {} = .ok _) _).2.1⟩

end Tree

end BehaviorTree
