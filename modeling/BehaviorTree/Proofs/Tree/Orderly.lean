/-
What holds of every tree, however its nodes are placed and whatever they do.

The nodes on each stack are distinct, each service is registered once and for its owner, and
each registered service hangs, through the stacks that its owners lie on, from the main
stack. In the middle of settling that is so up to what is still to be done: an owner that
left is named by an event that is not settled yet, or its service is due to be torn down.
So once the main stack is empty and all is settled, no service is left.
-/
import BehaviorTree.Proofs.Tree.Layout
import Mathlib.Data.List.Nodup

namespace BehaviorTree

variable {σ : Type} [Node σ]

/-! ## Events that are waited for -/

/-- Each node that came is active, unless it went later on. -/
def Fulfilled (active : NodeId → Prop) : List StackEvent → Prop
  | [] => True
  | .pushed n :: q => (.popped n ∈ q ∨ active n) ∧ Fulfilled active q
  | _ :: q => Fulfilled active q

theorem Fulfilled.append {active active' : NodeId → Prop} {q es : List StackEvent}
    (h : Fulfilled active q) (hk : ∀ n, active n → active' n ∨ .popped n ∈ es)
    (he : Fulfilled active' es) : Fulfilled active' (q ++ es) := by
  induction q with
  | nil => exact he
  | cons e q ih =>
    cases e with
    | pushed n =>
      refine ⟨?_, ih h.2⟩
      rcases h.1 with hq | ha
      · exact .inl (List.mem_append_left es hq)
      · rcases hk n ha with ha | hp
        · exact .inr ha
        · exact .inl (List.mem_append_right q hp)
    | popped n => exact ih h
    | ended _ _ => exact ih h

theorem Fulfilled.mono {active active' : NodeId → Prop} {q : List StackEvent}
    (h : Fulfilled active q) (hk : ∀ n, active n → active' n) : Fulfilled active' q := by
  have happend : Fulfilled active' (q ++ []) := h.append (fun n ha => .inl (hk n ha)) trivial
  rwa [List.append_nil] at happend

namespace Stack.Change

variable {label : StackLabel} {w : World σ} {ns ns' : List NodeId} {es : List StackEvent}

omit [Node σ] in
theorem stays (h : Change label w ns ns' es) {n : NodeId} (hn : n ∈ ns) :
    n ∈ ns' ∨ .popped n ∈ es := by
  cases h with
  | none | ended => exact .inl hn
  | came => exact .inl (List.mem_cons_of_mem _ hn)
  | went =>
    rcases List.mem_cons.1 hn with rfl | hn
    · exact .inr List.mem_cons_self
    · exact .inl hn

omit [Node σ] in
theorem fulfilled (h : Change label w ns ns' es) {active : NodeId → Prop}
    (ha : ∀ n ∈ ns', active n) : Fulfilled active es := by
  cases h with
  | none | went | ended => trivial
  | came => exact ⟨.inr (ha _ List.mem_cons_self), trivial⟩

end Stack.Change

namespace Layout

variable {l l' : Layout σ}

/-! ## Hanging from the main stack -/

/-- The service hangs from the main stack, or will be gone once all is settled. -/
inductive Anchored (l : Layout σ) : Run → Prop
  | leaving {run} (h : .popped run.owner ∈ l.queue) : Anchored l run
  | due {run} (h : ⟨run.owner, run.service, false⟩ ∈ l.due) : Anchored l run
  | main {run} (h : run.owner ∈ l.main) : Anchored l run
  | service {run below} (hb : below ∈ l.runs) (h : run.owner ∈ below.nodes)
      (ha : Anchored l below) : Anchored l run

omit [Node σ] in
theorem Anchored.congr {run run' : Run} (h : l.Anchored run) (ho : run'.owner = run.owner)
    (hs : run'.service = run.service) : l.Anchored run' := by
  cases h with
  | leaving h => exact .leaving (ho ▸ h)
  | due h => exact .due (ho ▸ hs ▸ h)
  | main h => exact .main (ho ▸ h)
  | service hb h ha => exact .service hb (ho ▸ h) ha

omit [Node σ] in
/-- What is anchored stays so while nothing it hangs from goes unnoticed. -/
theorem Anchored.mono {run : Run} (h : l.Anchored run) (keep : Run → Prop)
    (hl : ∀ run, keep run → .popped run.owner ∈ l.queue → l'.Anchored run)
    (hd : ∀ run, keep run → ⟨run.owner, run.service, false⟩ ∈ l.due → l'.Anchored run)
    (hm : ∀ n ∈ l.main, n ∈ l'.main ∨ .popped n ∈ l'.queue)
    (hr : ∀ below ∈ l.runs, ∀ n ∈ below.nodes, .popped n ∈ l'.queue ∨ keep below ∧
      ∃ below' ∈ l'.runs, below'.owner = below.owner ∧ below'.service = below.service ∧
        n ∈ below'.nodes)
    (hrun : keep run) : l'.Anchored run := by
  induction h with
  | leaving h => exact hl _ hrun h
  | due h => exact hd _ hrun h
  | main h =>
    rcases hm _ h with h | h
    · exact .main h
    · exact .leaving h
  | service hb h _ ih =>
    rcases hr _ hb _ h with h | ⟨hk, below', hb', ho, hs, h⟩
    · exact .leaving h
    · exact .service hb' h ((ih hk).congr ho hs)

omit [Node σ] in
/-- Once the main stack is empty and all is settled, there is nothing to hang from. -/
theorem not_anchored (hm : l.main = []) (hq : l.queue = []) (hd : l.due = []) (run : Run) :
    ¬l.Anchored run := by
  intro h
  induction h with
  | leaving h => simp [hq] at h
  | due h => simp [hd] at h
  | main h => simp [hm] at h
  | service _ _ _ ih => exact ih

/-! ## The invariant -/

structure Orderly (l : Layout σ) : Prop where
  main : Stack.Placed (l.main, l.world)
  runs : ∀ run ∈ l.runs, Stack.Placed (run.nodes, l.world)
  nodup : (l.runs.map (·.service)).Nodup
  attached : ∀ run ∈ l.runs, run.service ∈ l.world.graph.servicesOf run.owner
  due : ∀ d ∈ l.due, d.service ∈ l.world.graph.servicesOf d.owner
  coming : ∀ d ∈ l.due, d.comes → l.Active d.owner ∨ .popped d.owner ∈ l.queue
  fulfilled : Fulfilled l.Active l.queue
  anchored : ∀ run ∈ l.runs, l.Anchored run

omit [Node σ] in
/-- A service is registered by one run only. -/
theorem run_unique (hn : (l.runs.map (·.service)).Nodup) {run run' : Run} (hr : run ∈ l.runs)
    (hr' : run' ∈ l.runs) (hs : run.service = run'.service) : run = run' :=
  List.inj_on_of_nodup_map hn hr hr' hs

theorem placed_of_grown {ns : List NodeId} {w w' : World σ} (h : Stack.Placed (ns, w))
    (hg : w.graph.Grown w'.graph) : Stack.Placed (ns, w') :=
  ⟨h.1, fun n hn => by rw [hg.contains]; exact h.2 n hn⟩

/-- No move but one of a stack or of settling concerns the invariant. -/
theorem Orderly.world {w : World σ} (h : Orderly l) (hg : l.world.graph.Grown w.graph)
    (he : w.events = l.world.events) : Orderly { l with world := w } := by
  have hq : ({ l with world := w } : Layout σ).queue = l.queue := congrArg Queue.toList he
  refine ⟨placed_of_grown h.main hg, fun run hr => placed_of_grown (h.runs run hr) hg, h.nodup,
    fun run hr => ?_, fun d hd => ?_, fun d hd hc => ?_, ?_, fun run hr => ?_⟩
  · rw [hg.servicesOf]
    exact h.attached run hr
  · rw [hg.servicesOf]
    exact h.due d hd
  · rw [hq]
    exact h.coming d hd hc
  · rw [hq]
    exact h.fulfilled
  · refine (h.anchored run hr).mono (· ∈ l.runs) (fun r _ hp => .leaving (hq ▸ hp))
      (fun r _ hd => .due hd) (fun n hn => .inl hn)
      (fun below hb n hn => .inr ⟨hb, below, hb, rfl, rfl, hn⟩) hr

/-- An act of one stack: some nodes stay, those that do not are named by an event, and so
are those that came. -/
theorem Orderly.act {main : List NodeId} {runs : List Run} {w : World σ} {es : List StackEvent}
    (h : Orderly l) (hg : l.world.graph.Grown w.graph)
    (hq : w.events.toList = l.queue ++ es)
    (hmp : Stack.Placed (main, w)) (hrp : ∀ run ∈ runs, Stack.Placed (run.nodes, w))
    (hserv : runs.map (·.service) = l.runs.map (·.service))
    (hfrom : ∀ run ∈ runs, ∃ old ∈ l.runs, run.service = old.service ∧ run.owner = old.owner)
    (hmain : ∀ n ∈ l.main, n ∈ main ∨ .popped n ∈ es)
    (hruns : ∀ old ∈ l.runs, ∀ n ∈ old.nodes, .popped n ∈ es ∨
      ∃ run ∈ runs, run.owner = old.owner ∧ run.service = old.service ∧ n ∈ run.nodes)
    (hes : Fulfilled ({ l with main, runs, world := w } : Layout σ).Active es) :
    Orderly { l with main, runs, world := w } := by
  have hq' : ({ l with main, runs, world := w } : Layout σ).queue = l.queue ++ es := hq
  have hstay : ∀ n, l.Active n →
      ({ l with main, runs, world := w } : Layout σ).Active n ∨ .popped n ∈ es := by
    rintro n (hn | ⟨old, ho, hn⟩)
    · rcases hmain n hn with hn | hn
      · exact .inl (.inl hn)
      · exact .inr hn
    · rcases hruns old ho n hn with hn | ⟨run, hr, -, -, hn⟩
      · exact .inr hn
      · exact .inl (.inr ⟨run, hr, hn⟩)
  refine ⟨hmp, hrp, hserv ▸ h.nodup, fun run hr => ?_, fun d hd => ?_, fun d hd hc => ?_, ?_,
    fun run hr => ?_⟩
  · obtain ⟨old, ho, hs, hown⟩ := hfrom run hr
    rw [hg.servicesOf, hs, hown]
    exact h.attached old ho
  · rw [hg.servicesOf]
    exact h.due d hd
  · rw [hq']
    rcases h.coming d hd hc with ha | hp
    · rcases hstay _ ha with ha | hp
      · exact .inl ha
      · exact .inr (List.mem_append_right _ hp)
    · exact .inr (List.mem_append_left _ hp)
  · rw [hq']
    exact h.fulfilled.append hstay hes
  · obtain ⟨old, ho, hs, hown⟩ := hfrom run hr
    suffices ha : ({ l with main, runs, world := w } : Layout σ).Anchored old from ha.congr hown hs
    refine (h.anchored old ho).mono (· ∈ l.runs) (fun r _ hp => .leaving ?_)
      (fun r _ hd => .due hd) (fun n hn => ?_) (fun below hb n hn => ?_) ho
    · rw [hq']
      exact List.mem_append_left _ hp
    · rw [hq']
      exact (hmain n hn).imp id (List.mem_append_right _)
    · rw [hq']
      exact (hruns below hb n hn).imp (List.mem_append_right _) fun h => ⟨hb, h⟩

theorem Orderly.mainAct {label : StackLabel} {heads : NodeId → Prop} {ns : List NodeId}
    {w : World σ} (h : Orderly l) (ha : Stack.Act label heads (l.main, l.world) (ns, w)) :
    Orderly { l with main := ns, world := w } := by
  obtain ⟨es, hc, hq⟩ := ha.change
  have hg := ha.frame.graph
  refine h.act hg hq (ha.placed h.main) (fun run hr => placed_of_grown (h.runs run hr) hg) rfl
    (fun run hr => ⟨run, hr, rfl, rfl⟩) (fun n hn => hc.stays hn)
    (fun old ho n hn => .inr ⟨old, ho, rfl, rfl, hn⟩) ?_
  exact hc.fulfilled fun n hn => .inl hn

theorem Orderly.serviceAct {label : StackLabel} {heads : NodeId → Prop} {run : Run}
    {ns : List NodeId} {w : World σ} (h : Orderly l) (hr : run ∈ l.runs)
    (ha : Stack.Act label heads (run.nodes, l.world) (ns, w)) :
    Orderly { l with runs := putNodes run.service ns l.runs, world := w } := by
  obtain ⟨es, hc, hq⟩ := ha.change
  have hg := ha.frame.graph
  have hput := mem_putNodes_of_mem run.service ns hr
  rw [if_pos rfl] at hput
  refine h.act hg hq (placed_of_grown h.main hg) (fun r hr' => ?_) (map_service_putNodes ..)
    (fun r hr' => ?_) (fun n hn => .inl hn) (fun old ho n hn => ?_) ?_
  · obtain ⟨old, ho, -, -, ⟨-, hn⟩ | ⟨-, rfl⟩⟩ := mem_putNodes hr'
    · rw [hn]
      exact ha.placed (h.runs run hr)
    · exact placed_of_grown (h.runs r ho) hg
  · obtain ⟨old, ho, hs, hown, -⟩ := mem_putNodes hr'
    exact ⟨old, ho, hs, hown⟩
  · by_cases hs : old.service = run.service
    · cases run_unique h.nodup ho hr hs
      rcases hc.stays hn with hn | hn
      · exact .inr ⟨_, hput, rfl, rfl, hn⟩
      · exact .inl hn
    · refine .inr ⟨old, ?_, rfl, rfl, hn⟩
      have hold := mem_putNodes_of_mem run.service ns ho
      rwa [if_neg hs] at hold
  · exact hc.fulfilled fun n hn => .inr ⟨_, hput, hn⟩

omit [Node σ] in
/-- Once an event is taken up, what it calls for is due. -/
theorem Orderly.take {e : StackEvent} {events : Queue StackEvent} (h : Orderly l)
    (hd : l.due = []) (he : l.world.events.pop? = some (e, events)) :
    Orderly { l with world := { l.world with events }, due := e.due l.world.graph } := by
  have hq : l.queue = e :: events.toList := Queue.toList_of_pop? he
  have hf : Fulfilled l.Active (e :: events.toList) := hq ▸ h.fulfilled
  refine ⟨h.main, h.runs, h.nodup, h.attached, fun d hd => StackEvent.due_attached hd,
    fun d hd hc => ?_, ?_, fun run hr => ?_⟩
  · cases e with
    | pushed n =>
      obtain ⟨s, -, rfl⟩ := List.mem_map.1 hd
      exact hf.1.symm
    | popped n =>
      obtain ⟨s, -, rfl⟩ := List.mem_map.1 hd
      cases hc
    | ended => cases hd
  · cases e with
    | pushed n => exact hf.2
    | popped n => exact hf
    | ended => exact hf
  · refine (h.anchored run hr).mono (· ∈ l.runs) (fun r hr' hp => ?_) (fun r _ hdue => ?_)
      (fun n hn => .inl hn) (fun below hb n hn => .inr ⟨hb, below, hb, rfl, rfl, hn⟩) hr
    · rw [hq] at hp
      rcases List.mem_cons.1 hp with rfl | hp
      · exact .due (List.mem_map.2 ⟨r.service, h.attached r hr', rfl⟩)
      · exact .leaving hp
    · rw [hd] at hdue
      cases hdue

/-- A step of settling: a service without nodes comes or goes, and less is due. -/
theorem Orderly.settle (h : Orderly l) (hmain : l'.main = l.main)
    (hg : l.world.graph.Grown l'.world.graph) (hq : l'.queue = l.queue)
    (hdue : ∀ d ∈ l'.due, d ∈ l.due) (hactive : ∀ n, l.Active n → l'.Active n)
    (hnodup : (l'.runs.map (·.service)).Nodup)
    (hnew : ∀ run ∈ l'.runs, run ∈ l.runs ∨
      run.nodes = [] ∧ run.service ∈ l.world.graph.servicesOf run.owner)
    (hanchored : ∀ run ∈ l'.runs, l'.Anchored run) : Orderly l' := by
  refine ⟨?_, fun run hr => ?_, hnodup, fun run hr => ?_, fun d hd => ?_, fun d hd hc => ?_, ?_,
    hanchored⟩
  · rw [hmain]
    exact placed_of_grown h.main hg
  · rcases hnew run hr with hr | ⟨hn, -⟩
    · exact placed_of_grown (h.runs run hr) hg
    · rw [hn]
      exact ⟨List.nodup_nil, by simp⟩
  · rw [hg.servicesOf]
    rcases hnew run hr with hr | ⟨-, hs⟩
    · exact h.attached run hr
    · exact hs
  · rw [hg.servicesOf]
    exact h.due d (hdue d hd)
  · rw [hq]
    exact (h.coming d (hdue d hd) hc).imp (hactive _) id
  · rw [hq]
    exact h.fulfilled.mono hactive

theorem Orderly.register {d : Due} {due : List Due} (h : Orderly l) (hd : l.due = d :: due)
    (hc : d.comes) (hr : ¬l.Registered d.service) :
    Orderly { l with
      runs := l.runs ++ [{ service := d.service, owner := d.owner }]
      world := l.world.registered d.service
      due } := by
  generalize hl : ({ l with
    runs := l.runs ++ [{ service := d.service, owner := d.owner }]
    world := l.world.registered d.service
    due } : Layout σ) = l'
  have hruns : l'.runs = l.runs ++ [{ service := d.service, owner := d.owner }] := by rw [← hl]
  have hmain : l'.main = l.main := by rw [← hl]
  have hdue : l.due = d :: l'.due := by rw [← hl, hd]
  have hq : l'.queue = l.queue := by
    rw [← hl]
    exact congrArg Queue.toList (World.events_registered l.world d.service)
  have hmem : d ∈ l.due := hd ▸ List.mem_cons_self
  have hold : ∀ run ∈ l.runs, run ∈ l'.runs := fun run hrun =>
    hruns ▸ List.mem_append_left _ hrun
  have hanchored : ∀ run ∈ l.runs, l'.Anchored run := by
    intro run hrun
    refine (h.anchored run hrun).mono (fun _ => True) (fun r _ hp => .leaving (hq ▸ hp))
      (fun r _ hx => ?_) (fun n hn => .inl (hmain ▸ hn))
      (fun below hb n hn => .inr ⟨trivial, below, hold below hb, rfl, rfl, hn⟩) trivial
    rw [hdue] at hx
    rcases List.mem_cons.1 hx with rfl | hx
    · cases hc
    · exact .due hx
  refine h.settle hmain ?_ hq (fun x hx => hdue ▸ List.mem_cons_of_mem _ hx) ?_ ?_ ?_ ?_
  · rw [← hl]
    exact World.registered_grown l.world d.service
  · exact fun n hn => hn.imp (hmain ▸ ·) fun ⟨run, hrun, hn⟩ => ⟨run, hold run hrun, hn⟩
  · rw [hruns, List.map_append, List.nodup_append]
    refine ⟨h.nodup, by simp, fun a ha b hb => ?_⟩
    obtain ⟨run, hrun, rfl⟩ := List.mem_map.1 ha
    simp only [List.map_cons, List.map_nil, List.mem_singleton] at hb
    rw [hb]
    exact fun hs => hr ⟨run, hrun, hs⟩
  · intro run hrun
    rw [hruns] at hrun
    rcases List.mem_append.1 hrun with hrun | hrun
    · exact .inl hrun
    · rw [List.mem_singleton.1 hrun]
      exact .inr ⟨rfl, h.due d hmem⟩
  · intro run hrun
    rw [hruns] at hrun
    rcases List.mem_append.1 hrun with hrun | hrun
    · exact hanchored run hrun
    · rw [List.mem_singleton.1 hrun]
      rcases h.coming d hmem hc with (hm | ⟨below, hb, hn⟩) | hp
      · exact .main (hmain ▸ hm)
      · exact .service (hold below hb) hn (hanchored below hb)
      · exact .leaving (hq ▸ hp)

theorem Orderly.unregister {d : Due} {due : List Due} {run : Run} (h : Orderly l)
    (hd : l.due = d :: due) (hr : run ∈ l.runs) (hs : run.service = d.service)
    (hn : run.nodes = []) :
    Orderly { l with
      runs := l.runs.filter (·.service ≠ d.service)
      world := l.world.unregistered d.service
      due } := by
  generalize hl : ({ l with
    runs := l.runs.filter (·.service ≠ d.service)
    world := l.world.unregistered d.service
    due } : Layout σ) = l'
  have hmem : ∀ r, r ∈ l'.runs ↔ r ∈ l.runs ∧ r.service ≠ d.service := fun r => by
    rw [← hl]
    simp
  have hmain : l'.main = l.main := by rw [← hl]
  have hdue : l.due = d :: l'.due := by rw [← hl, hd]
  have hq : l'.queue = l.queue := by
    rw [← hl]
    exact congrArg Queue.toList (World.events_unregistered l.world d.service)
  -- The run that goes has no nodes, so nothing hangs from it.
  have hkeep : ∀ r ∈ l.runs, ∀ n ∈ r.nodes, r ∈ l'.runs := by
    intro r hrun n hn'
    refine (hmem r).2 ⟨hrun, fun hrs => ?_⟩
    cases run_unique h.nodup hrun hr (hrs.trans hs.symm)
    simp [hn] at hn'
  refine h.settle hmain ?_ hq (fun x hx => hdue ▸ List.mem_cons_of_mem _ hx) ?_ ?_ ?_ ?_
  · rw [← hl]
    exact World.unregistered_grown l.world d.service
  · exact fun n hn => hn.imp (hmain ▸ ·) fun ⟨r, hrun, hn⟩ => ⟨r, hkeep r hrun n hn, hn⟩
  · rw [← hl]
    exact h.nodup.sublist (List.filter_sublist.map _)
  · exact fun r hrun => .inl ((hmem r).1 hrun).1
  · intro r hrun
    refine (h.anchored r ((hmem r).1 hrun).1).mono (· ∈ l'.runs)
      (fun r _ hp => .leaving (hq ▸ hp)) (fun r hr' hx => ?_) (fun n hn => .inl (hmain ▸ hn))
      (fun below hb n hn => ?_) hrun
    · rw [hdue] at hx
      rcases List.mem_cons.1 hx with hx | hx
      · exact absurd (congrArg Due.service hx) ((hmem r).1 hr').2
      · exact .due hx
    · have hb' := hkeep below hb n hn
      exact .inr ⟨hb', below, hb', rfl, rfl, hn⟩

theorem Orderly.skip {d : Due} {due : List Due} (h : Orderly l) (hd : l.due = d :: due)
    (hr : d.comes ↔ l.Registered d.service) : Orderly { l with due } := by
  refine h.settle rfl (.refl _) rfl (fun x hx => hd ▸ List.mem_cons_of_mem _ hx) (fun _ hn => hn)
    h.nodup (fun run hrun => .inl hrun) fun run hrun => ?_
  refine (h.anchored run hrun).mono (· ∈ l.runs) (fun r _ hp => .leaving hp) (fun r hr' hx => ?_)
    (fun n hn => .inl hn) (fun below hb n hn => .inr ⟨hb, below, hb, rfl, rfl, hn⟩) hrun
  rw [hd] at hx
  rcases List.mem_cons.1 hx with rfl | hx
  · exact absurd (hr.2 ⟨r, hr', rfl⟩) (by simp)
  · exact .due hx

theorem Orderly.move (h : Orderly l) (hm : Move l l') : Orderly l' := by
  cases hm with
  | world hg he _ => exact h.world hg he
  | main ha => exact h.mainAct ha
  | service hr ha => exact h.serviceAct hr ha
  | take hd he => exact h.take hd he
  | register hd hc hr => exact h.register hd hc hr
  | unregister hd _ hr hs hn => exact h.unregister hd hr hs hn
  | skip hd hr => exact h.skip hd hr

theorem Orderly.moves (h : Orderly l) (hm : Moves l l') : Orderly l' := by
  induction hm with
  | refl => exact h
  | tail _ hm ih => exact ih.move hm

omit [Node σ] in
/-- Once the main stack is empty and all is settled, no service is left. -/
theorem Orderly.runs_nil (h : Orderly l) (hm : l.main = []) (hq : l.queue = [])
    (hd : l.due = []) : l.runs = [] := by
  rcases hr : l.runs with _ | ⟨run, rest⟩
  · rfl
  · have ha := h.anchored run (hr ▸ List.mem_cons_self)
    exact absurd ha (not_anchored hm hq hd run)

end Layout

end BehaviorTree
