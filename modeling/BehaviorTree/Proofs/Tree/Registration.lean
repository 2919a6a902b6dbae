/-
A service is registered exactly while its owner is active.

Services are not registered when a node comes onto a stack but later, when the event of it
is settled, and by then the node may have gone and come again. What holds at every moment is
that the events still waiting, played on from what is registered, end at what is active:
each `pushed` of an owner finds its services gone and each `popped` finds them there
(`Replay`). An act of a stack adds the event that keeps this up, because a node that comes
was on no stack and one that goes is on none; settling takes the first event off.
-/
import BehaviorTree.Proofs.Tree.Exclusive

namespace BehaviorTree

variable {σ : Type} [Node σ] {g : Graph σ}

/-! ## Playing events on -/

/-- From `before` on, the events of `n` alternate and end at `after`. -/
def Replay (n : NodeId) : Prop → List StackEvent → Prop → Prop
  | before, [], after => before ↔ after
  | before, .pushed m :: q, after =>
    if m = n then ¬before ∧ Replay n True q after else Replay n before q after
  | before, .popped m :: q, after =>
    if m = n then before ∧ Replay n False q after else Replay n before q after
  | before, .ended .. :: q, after => Replay n before q after

theorem Replay.append {n : NodeId} {before between after : Prop} {q es : List StackEvent}
    (h : Replay n before q between) (h' : Replay n between es after) :
    Replay n before (q ++ es) after := by
  induction q generalizing before with
  | nil =>
    have he : before = between := propext h
    rwa [he]
  | cons e q ih =>
    cases e with
    | pushed m | popped m =>
      simp only [List.cons_append, Replay] at h ⊢
      by_cases hm : m = n
      · rw [if_pos hm] at h ⊢
        exact ⟨h.1, ih h.2⟩
      · rw [if_neg hm] at h ⊢
        exact ih h
    | ended => exact ih h

theorem Replay.congr {n : NodeId} {before before' after after' : Prop} {q : List StackEvent}
    (h : Replay n before q after) (hb : before' ↔ before) (ha : after' ↔ after) :
    Replay n before' q after' := by
  rwa [propext hb, propext ha]

namespace Layout

variable {l l' : Layout σ}

/-- What will be registered once all that is due is done. -/
def Expected (l : Layout σ) (s : NodeId) : Prop :=
  (∃ d ∈ l.due, d.service = s ∧ d.comes) ∨
    l.Registered s ∧ ∀ d ∈ l.due, d.service = s → d.comes

/-- The events still waiting lead from what is registered to what is active. -/
structure Balanced (g : Graph σ) (l : Layout σ) : Prop where
  uniform : ∀ d ∈ l.due, ∀ d' ∈ l.due, d.comes = d'.comes
  replay : ∀ n s, s ∈ g.servicesOf n → Replay n (l.Expected s) l.queue (l.Active n)

omit [Node σ] in
/-- The events of an act lead from what was active to what is: a node that comes was on no
stack, and one that goes is on none. -/
theorem replay_change {label : StackLabel} {w : World σ} {ns ns' : List NodeId}
    {es : List StackEvent} (hc : Stack.Change label w ns ns' es) (other : NodeId → Prop)
    (hd : ns.Nodup) (hns : ∀ n ∈ ns, ¬other n) (hns' : ∀ n ∈ ns', ¬other n) (n : NodeId) :
    Replay n (n ∈ ns ∨ other n) es (n ∈ ns' ∨ other n) := by
  cases hc with
  | none | ended => exact Iff.rfl
  | @came m _ hm _ =>
    have ho := hns' m List.mem_cons_self
    by_cases hmn : m = n
    · subst hmn
      simp [Replay, hm, ho]
    · simp [Replay, hmn, Ne.symm hmn]
  | @went m _ =>
    obtain ⟨hm, -⟩ := List.nodup_cons.1 hd
    have ho := hns m List.mem_cons_self
    by_cases hmn : m = n
    · subst hmn
      simp [Replay, hm, ho]
    · simp [Replay, hmn, Ne.symm hmn]

omit [Node σ] in
/-- The nodes of the other stacks, seen from a service. -/
theorem active_iff_run (hn : (l.runs.map (·.service)).Nodup) {run : Run} (hr : run ∈ l.runs)
    (n : NodeId) : l.Active n ↔
      n ∈ run.nodes ∨ (n ∈ l.main ∨ ∃ r ∈ l.runs, r.service ≠ run.service ∧ n ∈ r.nodes) := by
  constructor
  · rintro (hm | ⟨r, hr', hn'⟩)
    · exact .inr (.inl hm)
    · by_cases hs : r.service = run.service
      · cases run_unique hn hr' hr hs
        exact .inl hn'
      · exact .inr (.inr ⟨r, hr', hs, hn'⟩)
  · rintro (hn' | hm | ⟨r, hr', -, hn'⟩)
    · exact .inr ⟨run, hr, hn'⟩
    · exact .inl hm
    · exact .inr ⟨r, hr', hn'⟩

omit [Node σ] in
theorem active_iff_putNodes {run : Run} (hr : run ∈ l.runs) (ns : List NodeId) (w : World σ)
    (n : NodeId) :
    ({ l with runs := putNodes run.service ns l.runs, world := w } : Layout σ).Active n ↔
      n ∈ ns ∨ (n ∈ l.main ∨ ∃ r ∈ l.runs, r.service ≠ run.service ∧ n ∈ r.nodes) := by
  constructor
  · rintro (hm | ⟨r, hr', hn'⟩)
    · exact .inr (.inl hm)
    · obtain ⟨old, ho, -, -, ⟨-, he⟩ | ⟨hs, rfl⟩⟩ := mem_putNodes hr'
      · exact .inl (he ▸ hn')
      · exact .inr (.inr ⟨r, ho, hs, hn'⟩)
  · rintro (hn' | hm | ⟨r, hr', hs, hn'⟩)
    · have hput := mem_putNodes_of_mem run.service ns hr
      rw [if_pos rfl] at hput
      exact .inr ⟨_, hput, hn'⟩
    · exact .inl hm
    · have hput := mem_putNodes_of_mem run.service ns hr'
      rw [if_neg hs] at hput
      exact .inr ⟨r, hput, hn'⟩

omit [Node σ] in
theorem registered_putNodes (service : NodeId) (ns : List NodeId) (w : World σ) (s : NodeId) :
    ({ l with runs := putNodes service ns l.runs, world := w } : Layout σ).Registered s
      ↔ l.Registered s := by
  have hm : ∀ runs : List Run, (∃ run ∈ runs, run.service = s) ↔ s ∈ runs.map (·.service) :=
    fun runs => List.mem_map.symm
  unfold Registered
  rw [hm, hm, map_service_putNodes]

/-! ## Every move keeps the balance -/

theorem Balanced.mainAct {label : StackLabel} {heads : NodeId → Prop} {ns : List NodeId}
    {w : World σ} (h : Balanced g l) (ho : Orderly l) (hg : Guided g l) (hap : g.Apart l.root)
    (ho' : Orderly { l with main := ns, world := w })
    (hg' : Guided g { l with main := ns, world := w })
    (ha : Stack.Act label heads (l.main, l.world) (ns, w)) :
    Balanced g { l with main := ns, world := w } := by
  obtain ⟨es, hc, hq⟩ := ha.change
  refine ⟨h.uniform, fun n s hs => ?_⟩
  have hr := replay_change hc (fun n => ∃ run ∈ l.runs, n ∈ run.nodes) ho.main.1
    (fun n hn ⟨run, hrun, hn'⟩ => hg.not_mem_run ho hap hn hrun hn')
    (fun n hn ⟨run, hrun, hn'⟩ => hg'.not_mem_run ho' hap hn hrun hn') n
  have happ := (h.replay n s hs).append hr
  rw [show l.queue ++ es = w.events.toList from hq.symm] at happ
  exact happ

theorem Balanced.serviceAct {label : StackLabel} {heads : NodeId → Prop} {run : Run}
    {ns : List NodeId} {w : World σ} (h : Balanced g l) (ho : Orderly l) (hg : Guided g l)
    (hap : g.Apart l.root)
    (ho' : Orderly { l with runs := putNodes run.service ns l.runs, world := w })
    (hg' : Guided g { l with runs := putNodes run.service ns l.runs, world := w })
    (hrun : run ∈ l.runs) (ha : Stack.Act label heads (run.nodes, l.world) (ns, w)) :
    Balanced g { l with runs := putNodes run.service ns l.runs, world := w } := by
  obtain ⟨es, hc, hq⟩ := ha.change
  have hput : { run with nodes := ns } ∈ putNodes run.service ns l.runs := by
    have hm := mem_putNodes_of_mem run.service ns hrun
    rwa [if_pos rfl] at hm
  have hbefore : ∀ n ∈ run.nodes,
      ¬(n ∈ l.main ∨ ∃ r ∈ l.runs, r.service ≠ run.service ∧ n ∈ r.nodes) := by
    rintro n hn (hm | ⟨r, hr, hs, hn'⟩)
    · exact hg.not_mem_run ho hap hm hrun hn
    · exact hs (congrArg Run.service (hg.run_unique_of_mem ho hap hr hrun hn' hn))
  have hafter : ∀ n ∈ ns,
      ¬(n ∈ l.main ∨ ∃ r ∈ l.runs, r.service ≠ run.service ∧ n ∈ r.nodes) := by
    rintro n hn (hm | ⟨r, hr, hs, hn'⟩)
    · exact hg'.not_mem_run ho' hap hm hput hn
    · have hr' := mem_putNodes_of_mem run.service ns hr
      rw [if_neg hs] at hr'
      have he := congrArg Run.service (hg'.run_unique_of_mem ho' hap hr' hput hn' hn)
      exact hs he
  refine ⟨h.uniform, fun n s hs => ?_⟩
  have hr := replay_change hc _ (ho.runs run hrun).1 hbefore hafter n
  have happ := ((h.replay n s hs).congr Iff.rfl (active_iff_run ho.nodup hrun n).symm).append hr
  rw [show l.queue ++ es = w.events.toList from hq.symm] at happ
  refine happ.congr ?_ (active_iff_putNodes hrun ns w n)
  unfold Expected
  rw [registered_putNodes]

omit [Node σ] in
theorem expected_iff_of_nil (hd : l.due = []) (s : NodeId) : l.Expected s ↔ l.Registered s := by
  simp [Expected, hd]

omit [Node σ] in
theorem expected_pushed {g' : Graph σ} {n : NodeId} (hd : l.due = (StackEvent.pushed n).due g')
    (s : NodeId) : l.Expected s ↔ s ∈ g'.servicesOf n ∨ l.Registered s := by
  simp [Expected, hd, StackEvent.due]

omit [Node σ] in
theorem expected_popped {g' : Graph σ} {n : NodeId} (hd : l.due = (StackEvent.popped n).due g')
    (s : NodeId) : l.Expected s ↔ s ∉ g'.servicesOf n ∧ l.Registered s := by
  constructor
  · rintro (⟨d, hm, -, hc⟩ | ⟨hr, hall⟩)
    · rw [hd] at hm
      obtain ⟨_, -, rfl⟩ := List.mem_map.1 hm
      cases hc
    · refine ⟨fun hs => ?_, hr⟩
      have hm : ⟨n, s, false⟩ ∈ l.due := hd ▸ List.mem_map.2 ⟨s, hs, rfl⟩
      exact absurd (hall _ hm rfl) Bool.false_ne_true
  · rintro ⟨hs, hr⟩
    refine .inr ⟨hr, fun d hm he => ?_⟩
    rw [hd] at hm
    obtain ⟨x, hx, rfl⟩ := List.mem_map.1 hm
    exact absurd (he ▸ hx) hs

omit [Node σ] in
/-- Taking an event up makes due what it asks for, and this only for its own node. -/
theorem Balanced.take {e : StackEvent} {events : Queue StackEvent} (h : Balanced g l)
    (hw : ∀ o s, s ∈ g.servicesOf o ↔ g.owner? s = some o)
    (hserv : ∀ n, l.world.graph.servicesOf n = g.servicesOf n)
    (hd : l.due = []) (he : l.world.events.pop? = some (e, events)) :
    Balanced g { l with world := { l.world with events }, due := e.due l.world.graph } := by
  have hq : l.queue = e :: events.toList := Queue.toList_of_pop? he
  have hother : ∀ {n m s}, s ∈ g.servicesOf n → m ≠ n → s ∉ g.servicesOf m := by
    intro n m s hn hne hm
    have ho := (hw n s).1 hn
    rw [(hw m s).1 hm] at ho
    exact hne (Option.some.inj ho)
  refine ⟨fun d hd d' hd' => ?_, fun n s hs => ?_⟩
  · cases e with
    | pushed m | popped m =>
      obtain ⟨_, -, rfl⟩ := List.mem_map.1 hd
      obtain ⟨_, -, rfl⟩ := List.mem_map.1 hd'
      rfl
    | ended => cases hd
  have hr := (h.replay n s hs).congr (expected_iff_of_nil hd s).symm Iff.rfl
  rw [hq] at hr
  cases e with
  | pushed m =>
    have hr : if m = n then ¬l.Registered s ∧ Replay n True events.toList (l.Active n)
      else Replay n (l.Registered s) events.toList (l.Active n) := hr
    by_cases hm : m = n
    · rw [if_pos hm] at hr
      refine hr.2.congr (iff_true_intro ((expected_pushed rfl s).2 (.inl ?_))) Iff.rfl
      rwa [hserv, hm]
    · rw [if_neg hm] at hr
      refine hr.congr ((expected_pushed rfl s).trans (or_iff_right ?_)) Iff.rfl
      rw [hserv]
      exact hother hs hm
  | popped m =>
    have hr : if m = n then l.Registered s ∧ Replay n False events.toList (l.Active n)
      else Replay n (l.Registered s) events.toList (l.Active n) := hr
    by_cases hm : m = n
    · rw [if_pos hm] at hr
      refine hr.2.congr (iff_false_intro fun hx => ((expected_popped rfl s).1 hx).1 ?_) Iff.rfl
      rwa [hserv, hm]
    · rw [if_neg hm] at hr
      refine hr.congr ((expected_popped rfl s).trans (and_iff_right ?_)) Iff.rfl
      rw [hserv]
      exact hother hs hm
  | ended label result =>
    exact Replay.congr (q := events.toList) hr (expected_iff_of_nil rfl s) Iff.rfl

omit [Node σ] in
/-- A step of settling leaves what is expected and what is active as they are. -/
theorem Balanced.settle (h : Balanced g l) (hq : l'.queue = l.queue)
    (hdue : ∀ d ∈ l'.due, d ∈ l.due) (hactive : ∀ n, l'.Active n ↔ l.Active n)
    (hexpected : ∀ s, l'.Expected s ↔ l.Expected s) : Balanced g l' := by
  refine ⟨fun d hd d' hd' => h.uniform d (hdue d hd) d' (hdue d' hd'), fun n s hs => ?_⟩
  rw [hq]
  exact (h.replay n s hs).congr (hexpected s) (hactive n)

omit [Node σ] in
/-- Once one service that was due is as it should be, the rest is as it was to be. -/
theorem expected_of_cons {d : Due} {due : List Due} (hd : l.due = d :: due) (hd' : l'.due = due)
    (hu : ∀ x ∈ due, x.comes = d.comes) (hself : l'.Registered d.service ↔ d.comes)
    (hother : ∀ s, s ≠ d.service → (l'.Registered s ↔ l.Registered s)) (s : NodeId) :
    l'.Expected s ↔ l.Expected s := by
  unfold Expected
  rw [hd, hd']
  by_cases hs : s = d.service
  · subst hs
    rw [hself]
    cases hc : d.comes with
    | true =>
      refine iff_of_true (.inr ⟨rfl, fun x hx _ => (hu x hx).trans hc⟩) (.inl ?_)
      exact ⟨d, List.mem_cons_self, rfl, hc⟩
    | false =>
      refine iff_of_false ?_ ?_
      · rintro (⟨x, hx, -, hxc⟩ | ⟨hf, -⟩)
        · rw [hu x hx, hc] at hxc
          cases hxc
        · cases hf
      · rintro (⟨x, hx, -, hxc⟩ | ⟨-, hall⟩)
        · rcases List.mem_cons.1 hx with rfl | hx
          · rw [hc] at hxc
            cases hxc
          · rw [hu x hx, hc] at hxc
            cases hxc
        · have hxc := hall d List.mem_cons_self rfl
          rw [hc] at hxc
          cases hxc
  · rw [hother s hs]
    simp [Ne.symm hs]

omit [Node σ] in
theorem registered_append (d : Due) (w : World σ) (due : List Due) (s : NodeId) :
    ({ l with
      runs := l.runs ++ [{ service := d.service, owner := d.owner }]
      world := w
      due } : Layout σ).Registered s ↔ l.Registered s ∨ s = d.service := by
  simp [Registered, or_and_right, exists_or, eq_comm]

omit [Node σ] in
theorem registered_filter (d : Due) (w : World σ) (due : List Due) (s : NodeId) :
    ({ l with
      runs := l.runs.filter (·.service ≠ d.service)
      world := w
      due } : Layout σ).Registered s ↔ l.Registered s ∧ s ≠ d.service := by
  constructor
  · rintro ⟨run, hr, rfl⟩
    obtain ⟨hr, hs⟩ := List.mem_filter.1 hr
    exact ⟨⟨run, hr, rfl⟩, by simpa using hs⟩
  · rintro ⟨⟨run, hr, rfl⟩, hs⟩
    exact ⟨run, List.mem_filter.2 ⟨hr, by simpa using hs⟩, rfl⟩

theorem Balanced.move (h : Balanced g l) (ho : Orderly l) (hg : Guided g l)
    (hc : g.CallsChildren) (hap : g.Apart l.root)
    (hw : ∀ o s, s ∈ g.servicesOf o ↔ g.owner? s = some o) (hm : Move l l') : Balanced g l' := by
  have ho' := ho.move hm
  have hg' := hg.move hc hm
  have huniform : ∀ {d due}, l.due = d :: due → ∀ x ∈ due, x.comes = d.comes := by
    intro d due hd x hx
    exact h.uniform x (hd ▸ List.mem_cons_of_mem _ hx) d (hd ▸ List.mem_cons_self)
  have hdue : ∀ {d due}, l.due = d :: due → ∀ x ∈ due, x ∈ l.due := by
    intro d due hd x hx
    exact hd ▸ List.mem_cons_of_mem _ hx
  cases hm with
  | world _ he _ =>
    refine h.settle (congrArg Queue.toList he) (fun _ hd => hd) (fun _ => Iff.rfl) fun _ => Iff.rfl
  | main ha => exact h.mainAct ho hg hap ho' hg' ha
  | service hr ha => exact h.serviceAct ho hg hap ho' hg' hr ha
  | take hd he => exact h.take hw (fun n => hg.grown.servicesOf n) hd he
  | @register d due hd hcm hr =>
    refine h.settle (congrArg Queue.toList (World.events_registered ..)) (hdue hd) (fun n => ?_)
      (expected_of_cons hd rfl (huniform hd) ?_ fun s hs => ?_)
    · simp [Active]
    · rw [registered_append]
      exact iff_of_true (.inr rfl) hcm
    · rw [registered_append]
      exact or_iff_left hs
  | @unregister d due run hd hcm hr hs hn =>
    refine h.settle (congrArg Queue.toList (World.events_unregistered ..)) (hdue hd) (fun n => ?_)
      (expected_of_cons hd rfl (huniform hd) ?_ fun s hs => ?_)
    · refine or_congr_right ⟨?_, ?_⟩
      · rintro ⟨r, hr', hn'⟩
        exact ⟨r, (List.mem_filter.1 hr').1, hn'⟩
      · rintro ⟨r, hr', hn'⟩
        refine ⟨r, List.mem_filter.2 ⟨hr', ?_⟩, hn'⟩
        by_cases he : r.service = d.service
        · cases run_unique ho.nodup hr' hr (he.trans hs.symm)
          simp [hn] at hn'
        · simpa using he
    · rw [registered_filter, hcm]
      simp
    · rw [registered_filter]
      exact and_iff_left hs
  | @skip d due hd hr =>
    exact h.settle rfl (hdue hd) (fun _ => Iff.rfl)
      (expected_of_cons hd rfl (huniform hd) hr.symm fun _ _ => Iff.rfl)

theorem Balanced.moves (h : Balanced g l) (ho : Orderly l) (hg : Guided g l)
    (hc : g.CallsChildren) (hap : g.Apart l.root)
    (hw : ∀ o s, s ∈ g.servicesOf o ↔ g.owner? s = some o) (hm : Moves l l') : Balanced g l' := by
  induction hm with
  | refl => exact h
  | tail hm hstep ih =>
    exact ih.move (ho.moves hm) (hg.moves hc hm) hc (by rw [Moves.root hm]; exact hap) hw hstep

omit [Node σ] in
/-- When all is settled, the services of the active nodes are registered and no others. -/
theorem Balanced.registered_iff (h : Balanced g l) (hq : l.queue = []) (hd : l.due = [])
    {n s : NodeId} (hs : s ∈ g.servicesOf n) : l.Registered s ↔ l.Active n := by
  have hr := h.replay n s hs
  rw [hq] at hr
  exact (expected_iff_of_nil hd s).symm.trans hr

end Layout

/-! ## Services that are attached nowhere -/

namespace Layout

variable {l l' : Layout σ} {s : NodeId}

theorem Move.registrations_of_unattached (hm : Move l l') (ho : Orderly l)
    (hs : ∀ owner, s ∉ l.world.graph.servicesOf owner) :
    l'.world.registrations s = l.world.registrations s := by
  cases hm with
  | world _ _ hr => exact hr s
  | main ha => exact ha.frame.registrations s
  | service _ ha => exact ha.frame.registrations s
  | take | skip => rfl
  | @register d due hd _ _ =>
    have hattached := ho.due d (hd ▸ List.mem_cons_self)
    exact World.registrations_registered_of_ne _ fun he => hs d.owner (he ▸ hattached)
  | @unregister d due run hd _ _ _ _ =>
    have hattached := ho.due d (hd ▸ List.mem_cons_self)
    exact World.registrations_unregistered_of_ne _ fun he => hs d.owner (he ▸ hattached)

theorem Moves.registrations_of_unattached (hm : Moves l l') (ho : Orderly l)
    (hs : ∀ owner, s ∉ l.world.graph.servicesOf owner) :
    l'.world.registrations s = l.world.registrations s := by
  induction hm with
  | refl => rfl
  | @tail l₁ l₂ hm hstep ih =>
    refine (hstep.registrations_of_unattached (ho.moves hm) fun owner => ?_).trans ih
    rw [(Moves.graph hm).servicesOf]
    exact hs owner

end Layout

namespace Tree

omit [Node σ] in
theorem balanced_make {root : NodeId} {b : Blackboard} {t : Tree σ} (h : make g root b = .ok t) :
    t.layout.Balanced g := by
  obtain ⟨-, rfl⟩ := make_ok h
  refine ⟨by simp [layout], fun n s _ => ?_⟩
  show _ ↔ _
  simp [Layout.Expected, Layout.Registered, Layout.Active, layout]

/-- What is attached nowhere is never told that it is registered. -/
theorem registrations_of_unattached {root s : NodeId} {b : Blackboard} {t : Tree σ}
    (hm : make g root b = .ok t) (hs : ∀ owner, s ∉ g.servicesOf owner) (calls : List HostCall) :
    (t.performAll calls).world.registrations s = [] := by
  obtain ⟨ho, hq⟩ := orderly_make hm
  obtain ⟨hmoves, -⟩ := (performAll_evolves t calls).step ho hq
  obtain ⟨-, rfl⟩ := make_ok hm
  exact hmoves.registrations_of_unattached ho hs

/-- In a tree where every node has one place, whatever a host calls: each service is listed
once, and listed exactly if the node that it is attached to is on the main stack or on the
stack of a listed service. -/
theorem listed_once_iff {root : NodeId} {b : Blackboard} {t : Tree σ} (hb : g.Built)
    (hm : make g root b = .ok t) (hp : g.SinglyPlaced root) (hc : g.CallsChildren)
    (calls : List HostCall) :
    ((t.performAll calls).services.map (·.service)).Nodup ∧
    ∀ s, (t.performAll calls).isRegistered s ↔ ∃ owner, g.owner? s = some owner ∧
      (owner ∈ (t.performAll calls).main.nodes ∨
        ∃ v ∈ (t.performAll calls).services, owner ∈ v.stack.nodes) := by
  have hwired := hb.wired
  obtain ⟨ho₀, hq₀⟩ := orderly_make hm
  obtain ⟨hg₀, hr₀⟩ := guided_make hm
  have hap : g.Apart t.layout.root := by
    rw [hr₀]
    exact hp.apart (hwired.parent_unique (Graph.faults_of_validate (make_ok hm).1).2)
  obtain ⟨hmoves, -⟩ := (performAll_evolves t calls).step ho₀ hq₀
  obtain ⟨ho, hq, hg, -⟩ := performAll_guided hm hc calls
  have hbal := (balanced_make hm).moves ho₀ hg₀ hc hap hwired.owner hmoves
  refine ⟨?_, fun s => ?_⟩
  · have hn := ho.nodup
    simpa [layout, Function.comp_def, Service.run] using hn
  · rw [isRegistered_iff]
    constructor
    · intro hr
      obtain ⟨run, hrun, rfl⟩ := id hr
      have hs := ho.attached run hrun
      rw [hg.grown.servicesOf] at hs
      refine ⟨run.owner, (hwired.owner _ _).1 hs, (active_layout_iff _).1 ?_⟩
      exact (hbal.registered_iff hq rfl hs).1 hr
    · rintro ⟨owner, hown, ha⟩
      have hs := (hwired.owner owner s).2 hown
      exact (hbal.registered_iff hq rfl hs).2 ((active_layout_iff owner).2 ha)

end Tree

end BehaviorTree
