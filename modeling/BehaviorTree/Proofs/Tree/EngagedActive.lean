/-
Only active nodes have asked for anything.

An observer and a deferred end belong to a node that is on a stack. Whatever a stack does,
a node that is engaged afterwards is on it, or it was not on it and was engaged before; so
nothing is left behind by a node that goes, and least of all by a stack that is torn down.
-/
import BehaviorTree.Proofs.World.Engaged
import BehaviorTree.Proofs.Tree.Walk

namespace BehaviorTree

variable {σ : Type} [Node σ]

/-! ## Stacks -/

theorem World.Turned.engages {w w' : World σ} {node : NodeId} {d : Dispatch}
    (h : w.Turned node w' d) : w.Engages node w' := by
  rcases h with h | ⟨_, h⟩
  · exact execute_engages h
  · exact receive_engages h

namespace Stack

variable {label : StackLabel} {heads : NodeId → Prop} {x y : List NodeId × World σ} {n : NodeId}

theorem Act.engaged (h : Act label heads x y) (hn : y.2.Engaged n) :
    n ∈ y.1 ∨ n ∉ x.1 ∧ x.2.Engaged n := by
  -- Where no node goes, it is enough to know who else was engaged before.
  have hstays : ∀ {ns ns' : List NodeId} {w : World σ}, (∀ m ∈ ns, m ∈ ns') →
      n ∈ ns' ∨ w.Engaged n → n ∈ ns' ∨ n ∉ ns ∧ w.Engaged n := by
    intro ns ns' w hsub h
    by_cases hm : n ∈ ns
    · exact .inl (hsub n hm)
    · exact h.imp id fun he => ⟨hm, he⟩
  cases h with
  | note => exact hstays (fun _ => id) (.inr hn)
  | turn h =>
    refine hstays (fun _ => id) ((h.engages n hn).imp ?_ id)
    rintro rfl
    exact List.mem_cons_self
  | hook phase =>
    refine hstays (fun _ => id) ((World.hook_engages _ _ phase n hn).imp ?_ id)
    rintro rfl
    exact List.mem_cons_self
  | @ask ns w service =>
    exact hstays (fun _ => id) (.inr (hn.of (World.ready_observers w service n)
      fun _ ht _ => by rwa [World.ready_schedule] at ht))
  | head => exact hstays (by simp) (.inr hn)
  | call h _ _ =>
    have hn : World.Engaged _ n := hn
    refine hstays (fun _ => List.mem_cons_of_mem _) ((h.engages n hn).imp ?_ id)
    rintro rfl
    exact List.mem_cons_of_mem _ List.mem_cons_self
  | @leave top rest w w' h =>
    obtain ⟨hne, he⟩ := World.stop_releases h n hn
    by_cases hm : n ∈ rest
    · exact .inl hm
    · exact .inr ⟨by simp [hne, hm], he⟩
  | @rollBack top rest w w' h =>
    obtain ⟨hne, he⟩ := World.interrupt_releases h n hn
    by_cases hm : n ∈ rest
    · exact .inl hm
    · exact .inr ⟨by simp [hne, hm], he⟩
  | finish => exact .inr ⟨by simp, hn⟩

/-- A node that is engaged after some acts of a stack is on it, or it was not and was engaged
before. -/
theorem Acts.engaged (h : Acts label heads x y) (hn : y.2.Engaged n) :
    n ∈ y.1 ∨ n ∉ x.1 ∧ x.2.Engaged n := by
  induction h with
  | refl =>
    by_cases hm : n ∈ x.1
    · exact .inl hm
    · exact .inr ⟨hm, hn⟩
  | tail _ ha ih =>
    rcases ha.engaged hn with hm | ⟨hm, he⟩
    · exact .inl hm
    · rcases ih he with hm' | h
      · exact absurd hm' hm
      · exact .inr h

theorem perform_engaged (s : Stack) (w : World σ) (op : Operation)
    (hn : (s.perform w op).world.Engaged n) :
    n ∈ (s.perform w op).after.nodes ∨ n ∉ s.nodes ∧ w.Engaged n :=
  (s.perform_made w op).acts.engaged hn

end Stack

theorem Service.Step.engaged {allowed : Stack.Operation → Prop} {x y : Service × World σ}
    {found : List Breach} {n : NodeId} (h : Service.Step allowed x found y)
    (hn : y.2.Engaged n) : n ∈ y.1.stack.nodes ∨ n ∉ x.1.stack.nodes ∧ x.2.Engaged n := by
  cases h with
  | operate v w _ => exact v.stack.perform_engaged w _ hn
  | ask v w =>
    have hask : Stack.Act v.label (· = v.service) (v.stack.nodes, w)
        (v.stack.nodes, (w.ready v.service).1) := .ask rfl
    exact hask.engaged hn
  | count v w =>
    by_cases hm : n ∈ v.stack.nodes
    · exact .inl hm
    · exact .inr ⟨hm, hn⟩
  | trace v w =>
    by_cases hm : n ∈ v.stack.nodes
    · exact .inl hm
    · exact .inr ⟨hm, hn⟩

/-! ## Trees -/

namespace Tree

variable {call : HostCall} {t t' : Tree σ} {found told : List Breach}

/-- The node is on one of the stacks. -/
def Active (t : Tree σ) (n : NodeId) : Prop :=
  n ∈ t.main.nodes ∨ ∃ v ∈ t.services, n ∈ v.stack.nodes

/-- No observer and no deferred end is left of a node that is on no stack. -/
def EngagedActive (t : Tree σ) : Prop := ∀ n, t.world.Engaged n → t.Active n

/-- Ending the stack of a service that is taken out leaves nothing of its nodes. -/
theorem EngagedActive.eraseService (ht : t.Sound) (h : t.EngagedActive) {s : NodeId} {v : Service}
    (hv : t.service? s = some v) {w : World σ}
    (hw : ∀ n, w.Engaged n → (v.stack.terminate t.world).world.Engaged n) :
    EngagedActive { t with world := w, services := t.services.eraseP (·.service = s) } := by
  obtain ⟨hm, rfl⟩ := service?_eq_some hv
  intro n hn
  have hnil := (Stack.terminate_eq (ht.services v hm).known).2
  rcases v.stack.perform_engaged t.world .terminate (hw n hn) with hm' | ⟨hout, he⟩
  · rw [show (v.stack.perform t.world .terminate).after.nodes = [] from hnil] at hm'
    cases hm'
  · rcases h n he with hmain | ⟨u, hu, hn'⟩
    · exact .inl hmain
    · have hne : u.service ≠ v.service := fun he => by
        cases service_unique ht.nodup hu hm he
        exact hout hn'
      exact .inr ⟨u, (List.mem_eraseP_of_neg (by simpa using hne)).2 hu, hn'⟩

theorem engaged_unregistered (w : World σ) (s : NodeId) {n : NodeId}
    (h : (w.unregistered s).Engaged n) : w.Engaged n := by
  rcases World.unregistered_cases w s with he | ⟨slot, -, -, he⟩
  · rwa [he] at h
  · rw [he] at h
    exact h.of (World.observers_keepReply ..) fun _ ht _ => by rwa [World.schedule_keepReply] at ht

theorem engaged_registered (w : World σ) (s : NodeId) {n : NodeId}
    (h : (w.registered s).Engaged n) : w.Engaged n := by
  rcases World.registered_cases w s with he | ⟨slot, -, -, he⟩
  · rwa [he] at h
  · rw [he] at h
    exact h.of (World.observers_keepReply ..) fun _ ht _ => by rwa [World.schedule_keepReply] at ht

theorem Step.engagedActive (h : Step call t found t') (ht : t.Sound) (hd : t.EngagedActive) :
    t'.EngagedActive := by
  cases h with
  | main =>
    intro n hn
    rcases t.main.perform_engaged t.world _ hn with hm | ⟨hout, he⟩
    · exact .inl hm
    · exact (hd n he).imp (fun hm => absurd hm hout) id
  | @service v v' w _ hv h =>
    intro n hn
    have hs := h.service
    rcases h.engaged hn with hm | ⟨hout, he⟩
    · refine .inr ⟨v', putService_mem ?_, hm⟩
      rw [show v'.service = v.service from hs]
      exact List.mem_map_of_mem hv
    · rcases hd n he with hmain | ⟨u, hu, hn'⟩
      · exact .inl hmain
      · have hne : u.service ≠ v'.service := fun he => by
          cases service_unique ht.nodup hu hv (he.trans hs)
          exact hout hn'
        exact .inr ⟨u, List.mem_map.2 ⟨u, hu, if_neg hne⟩, hn'⟩
  | @register owner s _ =>
    unfold registerService
    split
    · exact hd
    · intro n hn
      refine (hd n (engaged_registered t.world s hn)).imp id ?_
      rintro ⟨v, hv, hn'⟩
      exact ⟨v, List.mem_append_left _ hv, hn'⟩
  | unregister owner s =>
    unfold unregisterService
    split
    · exact hd
    · next v hv => exact hd.eraseService ht hv fun n hn => engaged_unregistered _ s hn
  | tearDown _ hv => exact hd.eraseService ht hv fun n hn => engaged_unregistered _ _ hn
  | take | trace | clock | setVariables | fields => exact hd
  | due =>
    intro n hn
    refine hd n (hn.of rfl fun task h _ => ?_)
    have hp : task ∈ (t.world.schedule.takeDue t.world.tick.moment).2.pending := h
    rw [Schedule.pending_takeDue] at hp
    exact (List.mem_filter.1 hp).1
  | @config c =>
    intro n hn
    refine (hd n hn).imp id ?_
    rintro ⟨v, hv, hn'⟩
    exact ⟨_, List.mem_map_of_mem hv, hn'⟩

theorem Runs.engagedActive (h : Runs call t found told t') (ht : t.Sound) (hd : t.EngagedActive) :
    t'.EngagedActive := by
  induction h with
  | refl => exact hd
  | step h hs ih => exact hs.engagedActive (h.sound ht) ih
  | report _ _ ih => exact ih

theorem performAll_engagedActive (ht : t.Sound) (hd : t.EngagedActive) (calls : List HostCall) :
    (t.performAll calls).EngagedActive :=
  (performAll_induction ht hd (fun _ _ _ _ hs hr hd => hr.engagedActive hs hd) calls).2

theorem engagedActive_make {g : Graph σ} {root : NodeId} {b : Blackboard} (hb : g.Built)
    (h : make g root b = .ok t) : t.EngagedActive := by
  obtain ⟨-, rfl⟩ := make_ok h
  rintro n (hn | ⟨task, ht, -⟩)
  · refine absurd ?_ hn
    cases hs : g.slot? n with
    | none => simp [World.observers, hs]
    | some s => simp [World.observers, hs, hb.observers_eq hs]
  · cases ht

end Tree

end BehaviorTree
