/-
When a service starts a run, and how its runs are counted.

The trace tells of each start, and with each registration of a service the count begins anew.
The starts of a registration come at strictly increasing ticks, and the service that is
registered now has as many runs as starts were traced, the last of them at the tick that it
keeps. At every start the service was asked immediately before, and its stack was empty. What a
service does by itself is told round by round, with the guards under which it is done.
-/
import BehaviorTree.Proofs.Tree.Rounds
import BehaviorTree.Proofs.Tree.Stops
import BehaviorTree.Proofs.Tree.Traced
import BehaviorTree.Proofs.Tree.Written

namespace BehaviorTree

/-! ## The starts in a trace -/

namespace TraceEvent

/-- The service `s` starts a fresh run. -/
def Starts (s : NodeId) (e : TraceEvent) : Prop :=
  e.tag = "bt.service.start" ∧ e.stack = some s.index

instance (s : NodeId) (e : TraceEvent) : Decidable (e.Starts s) :=
  inferInstanceAs (Decidable (_ ∧ _))

/-- Count an event: a registration of the service `s` opens a new list, and a start adds its tick
to the list that was opened last, which stands first. A start before any registration would open
a list itself, so that none is lost. -/
def recount (s : NodeId) (runs : List (List Nat)) (e : TraceEvent) : List (List Nat) :=
  if e.tag = "bt.service.register" ∧ e.stack = some s.index then [] :: runs
  else if e.Starts s then
    match runs with
    | [] => [[e.tick]]
    | ticks :: earlier => (ticks ++ [e.tick]) :: earlier
  else runs

/-- Tags of events that do not count. -/
def Uncounted (tag : String) : Prop := tag ≠ "bt.service.register" ∧ tag ≠ "bt.service.start"

instance (tag : String) : Decidable (Uncounted tag) := inferInstanceAs (Decidable (_ ∧ _))

theorem uncounted_of_not_mem {tag : String} (h : tag ∉ registryTags) : Uncounted tag := by
  simp only [registryTags, List.mem_cons, not_or] at h
  exact ⟨h.1, h.2.1⟩

theorem Uncounted.not_starts {e : TraceEvent} (h : Uncounted e.tag) (s : NodeId) : ¬e.Starts s :=
  fun hs => h.2 hs.1

theorem recount_of_uncounted {e : TraceEvent} (h : Uncounted e.tag) (s : NodeId)
    (runs : List (List Nat)) : e.recount s runs = runs := by
  simp [recount, Starts, h.1, h.2]

theorem recount_of_ne {e : TraceEvent} {s : NodeId} (h : e.stack ≠ some s.index)
    (runs : List (List Nat)) : e.recount s runs = runs := by
  simp [recount, Starts, h]

end TraceEvent

/-- The ticks of the starts of the service `s`, for each of its registrations the ticks in the
order of time; the last registration stands first. -/
def startTicks (s : NodeId) (events : List TraceEvent) : List (List Nat) :=
  events.foldl (TraceEvent.recount s) []

theorem startTicks_snoc (s : NodeId) (events : List TraceEvent) (e : TraceEvent) :
    startTicks s (events ++ [e]) = e.recount s (startTicks s events) := by
  simp [startTicks]

theorem startTicks_of_uncounted (s : NodeId) (events : List TraceEvent) {new : List TraceEvent}
    (h : ∀ e ∈ new, TraceEvent.Uncounted e.tag) :
    startTicks s (events ++ new) = startTicks s events := by
  induction new generalizing events with
  | nil => rw [List.append_nil]
  | cons e new ih =>
    rw [List.append_cons, ih _ fun e' he' => h e' (List.mem_cons_of_mem e he'), startTicks_snoc,
      TraceEvent.recount_of_uncounted (h e List.mem_cons_self)]

/-! ## The starts in a history -/

/-- What stands before a start, the newest record first: the service was asked immediately before
and was ready, and all that had come onto its stack had left it. -/
structure Opens (s : NodeId) (before : List Record) : Prop where
  ready : ∃ said earlier, before = said ++ .called s (.ready true) :: earlier ∧
    ∀ r ∈ said, ∃ m, r = .said s m
  empty : replayStack (.service s) (History.trace before.reverse).events = some []

/-- Every start in a history stands where a start may stand. -/
def Opened (history : List Record) : Prop :=
  ∀ e before s, .traced e :: before <:+ history → e.Starts s → Opens s before

theorem opened_cons {r : Record} {history : List Record} (h : Opened history)
    (hr : ∀ e s, r = .traced e → e.Starts s → Opens s history) : Opened (r :: history) := by
  intro e before s hsuffix hs
  rcases List.suffix_cons_iff.1 hsuffix with heq | hsuffix
  · obtain ⟨he, rfl⟩ := List.cons_eq_cons.1 heq
    exact hr e s he.symm hs
  · exact h e before s hsuffix hs

theorem opened_append {new history : List Record} (h : Opened history)
    (hn : ∀ e s, .traced e ∈ new → ¬e.Starts s) : Opened (new ++ history) := by
  induction new with
  | nil => exact h
  | cons r new ih =>
    refine opened_cons (ih fun e s he => hn e s (List.mem_cons_of_mem r he)) ?_
    rintro e s rfl hs
    exact absurd hs (hn e s List.mem_cons_self)

/-- A later start comes after all the others, if the last of them was not now. -/
theorem forall_lt_of_getLast? {ticks : List Nat} {now : Nat} (hp : ticks.Pairwise (· < ·))
    (hle : ∀ tick ∈ ticks, tick ≤ now) (hl : ticks.getLast? ≠ some now) :
    ∀ tick ∈ ticks, tick < now := by
  rcases List.eq_nil_or_concat ticks with rfl | ⟨init, last, rfl⟩
  · simp
  have hlast : last < now := by
    refine Nat.lt_of_le_of_ne (hle last (by simp)) fun he => hl ?_
    simp [he]
  intro tick ht
  rcases List.mem_append.1 (List.concat_eq_append ▸ ht) with ht | ht
  · rw [List.concat_eq_append] at hp
    exact Nat.lt_trans ((List.pairwise_append.1 hp).2.2 tick ht last (by simp)) hlast
  · rw [List.mem_singleton.1 ht]
    exact hlast

variable {σ : Type}

/-- What was recorded since tells of no start. -/
theorem Opened.writes {w w' : World σ} (h : Opened w.history) (hw : w.Writes w')
    {new : List TraceEvent} (ht : w'.traced = w.traced ++ new)
    (hn : ∀ e ∈ new, TraceEvent.Uncounted e.tag) : Opened w'.history := by
  obtain ⟨records, hr⟩ := hw
  have hnew : new = records.reverse.filterMap Record.traced? := by
    have htrace : w'.traced = w.traced ++ records.reverse.filterMap Record.traced? := by
      simp [World.traced, History.trace, ← hr]
    exact List.append_cancel_left (ht.symm.trans htrace)
  rw [← hr]
  refine opened_append h fun e s he => (hn e ?_).not_starts s
  rw [hnew]
  exact List.mem_filterMap.2 ⟨_, List.mem_reverse.2 he, rfl⟩

variable [Node σ]

/-- A service that says it is ready leaves that, and what it says about it, in the records. -/
theorem World.history_ready {w w' : World σ} {id : NodeId} (h : w.ready id = (w', true)) :
    ∃ said, w'.history = said ++ .called id (.ready true) :: w.history ∧
      ∀ r ∈ said, ∃ m, r = .said id m := by
  unfold ready at h
  split at h
  · cases h
  next slot _ =>
  split at h
  · cases h
  simp only [Prod.mk.injEq] at h
  obtain ⟨rfl, ha⟩ := h
  rw [ha]
  have hhear : ∀ (messages : List Message) (w : World σ), ∃ said,
      (w.hear id messages).history = said ++ w.history ∧ ∀ r ∈ said, ∃ m, r = .said id m := by
    intro messages
    induction messages with
    | nil => exact fun w => ⟨[], rfl, by simp⟩
    | cons m messages ih =>
      intro w
      obtain ⟨said, hs, hm⟩ := ih (w.record (.said id m))
      refine ⟨said ++ [.said id m], ?_, fun r hr => ?_⟩
      · rw [List.append_assoc]
        exact hs
      rcases List.mem_append.1 hr with hr | hr
      · exact hm r hr
      · exact ⟨m, List.mem_singleton.1 hr⟩
  exact hhear _ _

namespace Tree

/-! ## Counts -/

/-- The trace and the service agree on the runs since the service was registered, none of which
is yet to come. -/
structure Tallies (w : World σ) (v : Service) (ticks : List Nat) : Prop where
  present : (startTicks v.service w.traced).head? = some ticks
  runs : v.runs = ticks.length
  last : v.lastStarted = ticks.getLast?
  past : ∀ tick ∈ ticks, tick ≤ w.tick.number

/-- The trace tells when services started. -/
structure Counted (t : Tree σ) : Prop where
  increasing : ∀ s, ∀ ticks ∈ startTicks s t.world.traced, ticks.Pairwise (· < ·)
  tallies : ∀ v ∈ t.services, ∃ ticks, Tallies t.world v ticks
  opened : Opened t.world.history

variable {t t' : Tree σ} {call : HostCall}

omit [Node σ] in
/-- Nothing that counts was traced, and no service counts another run. -/
theorem Counted.quiet (h : t.Counted) (new : List TraceEvent) (hw : t.world.Writes t'.world)
    (ht : t'.world.traced = t.world.traced ++ new) (hn : ∀ e ∈ new, TraceEvent.Uncounted e.tag)
    (hnow : t.world.tick.number ≤ t'.world.tick.number)
    (hs : ∀ v' ∈ t'.services, ∃ v ∈ t.services, v'.service = v.service ∧ v'.runs = v.runs ∧
      v'.lastStarted = v.lastStarted) : t'.Counted := by
  have hsame : ∀ s, startTicks s t'.world.traced = startTicks s t.world.traced := fun s => by
    rw [ht, startTicks_of_uncounted s _ hn]
  refine ⟨fun s => by rw [hsame]; exact h.increasing s, fun v' hv' => ?_, h.opened.writes hw ht hn⟩
  obtain ⟨v, hv, hservice, hruns, hlast⟩ := hs v' hv'
  obtain ⟨ticks, hp, hr, hl, hpast⟩ := h.tallies v hv
  exact ⟨ticks, by rw [hservice, hsame, hp], hruns.trans hr, hlast.trans hl,
    fun tick htick => Nat.le_trans (hpast tick htick) hnow⟩

omit [Node σ] in
/-- The same, with the services as they were. -/
theorem Counted.world (h : t.Counted) {w : World σ} (new : List TraceEvent)
    (hw : t.world.Writes w) (ht : w.traced = t.world.traced ++ new)
    (hn : ∀ e ∈ new, TraceEvent.Uncounted e.tag)
    (hnow : t.world.tick.number ≤ w.tick.number) : Counted { t with world := w } :=
  h.quiet new hw ht hn hnow fun v hv => ⟨v, hv, rfl, rfl, rfl⟩

omit [Node σ] in
/-- The stack of the service changed, and nothing that counts was traced. -/
theorem Counted.putService (h : t.Counted) {v v' : Service} {w : World σ} {new : List TraceEvent}
    (hv : v ∈ t.services) (hs : v'.service = v.service) (hruns : v'.runs = v.runs)
    (hlast : v'.lastStarted = v.lastStarted) (hw : t.world.Writes w)
    (ht : w.traced = t.world.traced ++ new) (hn : ∀ e ∈ new, TraceEvent.Uncounted e.tag)
    (hnow : w.tick = t.world.tick) : Counted { t.putService v' with world := w } := by
  refine h.quiet new hw ht hn (Nat.le_of_eq (congrArg Tick.number hnow.symm)) fun u hu => ?_
  rcases mem_putService hu with ⟨rfl, -⟩ | ⟨hu, -⟩
  · exact ⟨v, hv, hs, hruns, hlast⟩
  · exact ⟨u, hu, rfl, rfl, rfl⟩

/-- An operation on a stack. -/
theorem performed (s : Stack) (w : World σ) (op : Stack.Operation) :
    w.Writes (s.perform w op).world ∧ (s.perform w op).world.tick = w.tick ∧
      ∃ new, (s.perform w op).world.traced = w.traced ++ new ∧
        ∀ e ∈ new, TraceEvent.Uncounted e.tag := by
  obtain ⟨new, ht, hof, -⟩ := (s.perform_logs w op).log
  exact ⟨s.perform_writes w op, (s.perform_frame w op).tick, new, ht, fun e he =>
    TraceEvent.uncounted_of_not_mem (hof e he).tag⟩

theorem Counted.keepMain (h : t.Counted) (op : Stack.Operation) :
    (t.keepMain (t.main.perform t.world op)).tree.Counted := by
  obtain ⟨hw, htick, new, ht, hn⟩ := performed t.main t.world op
  exact h.quiet new hw ht hn (Nat.le_of_eq (congrArg Tick.number htick.symm))
    fun v hv => ⟨v, hv, rfl, rfl, rfl⟩

theorem Counted.operate (h : t.Counted) {v : Service} (hv : v ∈ t.services)
    (op : Stack.Operation) :
    Counted { t.putService { v with stack := (v.stack.perform t.world op).after } with
      world := (v.stack.perform t.world op).world } := by
  obtain ⟨hw, htick, new, ht, hn⟩ := performed v.stack t.world op
  exact h.putService hv rfl rfl rfl hw ht hn htick

omit [Node σ] in
/-- A start is traced and counted. -/
theorem Counted.start (h : t.Counted) (ht : t.Sound) {v : Service} (hv : v ∈ t.services)
    (hl : v.lastStarted ≠ some t.world.tick.number) (ho : Opens v.service t.world.history)
    (value : Int) :
    Counted { t.putService { v with lastStarted := some t.world.tick.number, runs := v.runs + 1 }
      with world := t.world.trace "bt.service.start" v.label v.service value } := by
  generalize he : t.world.event "bt.service.start" v.label v.service value = e
  have htag : e.tag = "bt.service.start" := by rw [← he]; rfl
  have hnow : e.tick = t.world.tick.number := by rw [← he]; rfl
  have hstack : e.stack = some v.service.index := by
    rw [← he, World.event_stack, ht.labels v hv]
    rfl
  have hstarts : ∀ s, e.Starts s → s = v.service := by
    intro s hs
    have hi : some v.service.index = some s.index := hstack.symm.trans hs.2
    simpa [NodeId.ext_iff, eq_comm] using hi
  have htraced : (t.world.trace "bt.service.start" v.label v.service value).traced
      = t.world.traced ++ [e] := by rw [World.traced_trace, he]
  obtain ⟨ticks, hp, hr, hlast, hpast⟩ := h.tallies v hv
  have hlt := forall_lt_of_getLast? (h.increasing v.service ticks (List.mem_of_mem_head? hp)) hpast
    (hlast ▸ hl)
  -- Only the list of the present registration of this service gets longer.
  obtain ⟨earlier, hticks⟩ : ∃ earlier, startTicks v.service t.world.traced = ticks :: earlier :=
    List.head?_eq_some_iff.1 hp
  have hself : startTicks v.service (t.world.traced ++ [e])
      = (ticks ++ [t.world.tick.number]) :: earlier := by
    simp [startTicks_snoc, hticks, TraceEvent.recount, TraceEvent.Starts, htag, hstack, hnow]
  have hother : ∀ s, s ≠ v.service →
      startTicks s (t.world.traced ++ [e]) = startTicks s t.world.traced := fun s hs => by
    rw [startTicks_snoc, TraceEvent.recount_of_ne]
    rw [hstack]
    simpa [NodeId.ext_iff, eq_comm] using hs
  refine ⟨fun s l hm => ?_, fun u hu => ?_, ?_⟩
  · rw [htraced] at hm
    by_cases hs : s = v.service
    · subst hs
      rw [hself] at hm
      have hall := h.increasing v.service
      rw [hticks] at hall
      rcases List.mem_cons.1 hm with rfl | hm
      · refine List.pairwise_append.2 ⟨hall ticks List.mem_cons_self, by simp, ?_⟩
        simpa using hlt
      · exact hall l (List.mem_cons_of_mem ticks hm)
    · rw [hother s hs] at hm
      exact h.increasing s l hm
  · rcases mem_putService hu with ⟨rfl, -⟩ | ⟨hu, hne⟩
    · refine ⟨ticks ++ [t.world.tick.number], ?_, ?_, ?_, ?_⟩
      · rw [htraced]
        simp [hself]
      · simp [hr]
      · simp
      · intro tick hm
        rcases List.mem_append.1 hm with hm | hm
        · exact hpast tick hm
        · exact Nat.le_of_eq (List.mem_singleton.1 hm)
    · obtain ⟨ticks', hp', hr', hl', hpast'⟩ := h.tallies u hu
      refine ⟨ticks', ?_, hr', hl', hpast'⟩
      rw [htraced, hother u.service hne]
      exact hp'
  · refine opened_cons h.opened fun e' s he' hs => ?_
    have heq : e' = e := by
      rw [← he]
      exact (Record.traced.inj he').symm
    rw [hstarts s (heq ▸ hs)]
    exact ho

/-! ## What a turn of a service keeps -/

/-- A service is asked whether it is ready. -/
theorem asked {w w' : World σ} {id : NodeId} {answer : Bool} (h : w.ready id = (w', answer)) :
    w.Writes w' ∧ w'.traced = w.traced ∧ w.Keeps w' := by
  have hw := World.Writes.ready w id
  have ht := World.traced_ready w id
  have hk := World.ready_keeps w id
  rw [h] at hw ht hk
  exact ⟨hw, ht, hk⟩

theorem Counted.ask (h : t.Counted) {id : NodeId} {w : World σ} {answer : Bool}
    (hr : t.world.ready id = (w, answer)) : Counted { t with world := w } := by
  obtain ⟨hw, ht, hk⟩ := asked hr
  exact h.world [] hw (ht.trans (List.append_nil _).symm) (by simp)
    (Nat.le_of_eq (congrArg Tick.number hk.tick.symm))

theorem Counted.turn (h : t.Counted) (ht : t.Sound) (htraced : t.Traced) {v v' : Service}
    {w : World σ} (hv : v ∈ t.services) (hturn : Service.Turn (v, t.world) (v', w)) :
    Counted { t.putService v' with world := w } := by
  -- What the service says of itself changes nothing but the world.
  have hask : ∀ {w' : World σ} {answer : Bool}, t.world.ready v.service = (w', answer) →
      Counted { t with world := w' } ∧ Sound { t with world := w' } := fun hr =>
    ⟨h.ask hr, ht.world (asked hr).2.2.graph
      (Nat.le_of_eq (congrArg Tick.number (asked hr).2.2.tick.symm))⟩
  cases hturn with
  | declined _ hp hr =>
    obtain ⟨hc, -⟩ := hask hr
    rw [putService_self ht.nodup hv]
    exact hc
  | @started _ _ w' hp hn hs hl hr =>
    obtain ⟨hc, hsound⟩ := hask hr
    obtain ⟨-, htr, hk⟩ := asked hr
    have hopens : Opens v.service w'.history := by
      refine ⟨?_, ?_⟩
      · obtain ⟨said, hh, hm⟩ := World.history_ready hr
        exact ⟨said, t.world.history, hh, hm⟩
      · have hnodes : t.nodesOf (.service v.service) = [] := (ht.nodesOf_service hv).trans hn
        exact (congrArg _ htr).trans ((htraced.nodes _).trans (congrArg some hnodes))
    have hstart := Counted.start hc hsound hv (by rwa [hk.tick]) hopens
      ((v.runs + 1 : Nat) : Int)
    generalize hcounted : ({ v with lastStarted := some w'.tick.number, runs := v.runs + 1 } :
      Service) = counted at hstart
    have hmem : counted ∈ (t.putService counted).services :=
      putService_mem (List.mem_map.2 ⟨v, hv, by rw [← hcounted]⟩)
    have hdone := hstart.operate hmem (.restart v.service)
    have hput : (t.putService counted).putService (v.begin w').after
        = t.putService (v.begin w').after :=
      putService_putService t (by rw [← hcounted]; rfl)
    rw [← hput]
    subst hcounted
    exact hdone
  | @cut _ _ w' hp hn hs hl hpre hr =>
    obtain ⟨hc, -⟩ := hask hr
    have hpreempt := hc.world _ (.record ..)
      (World.traced_trace w' "bt.service.preempt" v.label v.service v.stack.depth)
      (by simp; decide) (Nat.le_refl _)
    exact hpreempt.operate hv (.breakTo none)
  | driven _ _ hp hn hop ha => exact h.operate hv _

theorem traced_motions (h : t.Motions t') (ht : t.Sound) (htraced : t.Traced) : t'.Traced :=
  h.induction ht htraced fun _ _ hs hm hp => hm.traced hs hp

theorem Counted.turns (h : t.Counted) (ht : t.Sound) (htraced : t.Traced) {v v' : Service}
    {w : World σ} (hv : v ∈ t.services) (hturns : Service.Turns (v, t.world) (v', w)) :
    Counted { t.putService v' with world := w } := by
  generalize hx : (v, t.world) = x at hturns
  generalize hy : (v', w) = y at hturns
  induction hturns generalizing v' w with
  | refl =>
    subst hx
    cases hy
    rw [putService_self ht.nodup hv]
    exact h
  | @tail y z hs hturn ih =>
    subst hx
    subst hy
    obtain ⟨u, wu⟩ := y
    have hm := motions_service ht hv (Service.Turns.motions hs)
    have hservice : u.service = v.service := (Service.Turns.motions hs).service
    have hu : u ∈ (t.putService u).services :=
      putService_mem (List.mem_map.2 ⟨v, hv, hservice.symm⟩)
    have hdone := (ih rfl).turn (hm.sound ht) (traced_motions hm ht htraced) hu hturn
    have hput : (t.putService u).putService v' = t.putService v' :=
      putService_putService t hturn.motions.service
    rw [← hput]
    exact hdone

/-! ## What settling keeps -/

theorem Counted.register (h : t.Counted) (owner s : NodeId) :
    (registerService owner t s).Counted := by
  unfold registerService
  split
  · exact h
  next hr =>
  have hnone : ∀ v ∈ t.services, v.service ≠ s := by
    simpa [isRegistered, service?] using hr
  generalize he : (t.world.registered s).event "bt.service.register" (.service s) owner 0 = e
  have htag : e.tag = "bt.service.register" := by rw [← he]; rfl
  have hstack : e.stack = some s.index := by rw [← he]; rfl
  have htraced : ((t.world.registered s).trace "bt.service.register" (.service s) owner 0).traced
      = t.world.traced ++ [e] := by
    rw [World.traced_trace, World.traced_registered, he]
  have hself : startTicks s (t.world.traced ++ [e]) = [] :: startTicks s t.world.traced := by
    simp [startTicks_snoc, TraceEvent.recount, htag, hstack]
  have hother : ∀ s', s' ≠ s →
      startTicks s' (t.world.traced ++ [e]) = startTicks s' t.world.traced := fun s' hs' => by
    rw [startTicks_snoc, TraceEvent.recount_of_ne]
    rw [hstack]
    simpa [NodeId.ext_iff, eq_comm] using hs'
  have htick := World.tick_registered t.world s
  refine ⟨fun s' ticks hm => ?_, fun v hv => ?_, ?_⟩
  · rw [htraced] at hm
    by_cases hs : s' = s
    · subst hs
      rw [hself] at hm
      rcases List.mem_cons.1 hm with rfl | hm
      · exact .nil
      · exact h.increasing s' ticks hm
    · rw [hother s' hs] at hm
      exact h.increasing s' ticks hm
  · rcases List.mem_append.1 hv with hv | hv
    · obtain ⟨ticks, hp, hruns, hl, hpast⟩ := h.tallies v hv
      refine ⟨ticks, ?_, hruns, hl, fun tick ht => ?_⟩
      · rw [htraced, hother v.service (hnone v hv)]
        exact hp
      · show tick ≤ (t.world.registered s).tick.number
        rw [htick]
        exact hpast tick ht
    · obtain rfl := List.mem_singleton.1 hv
      refine ⟨[], ?_, rfl, rfl, by simp⟩
      rw [htraced]
      exact congrArg List.head? hself
  · refine opened_cons (h.opened.writes (.registered ..)
      (by rw [World.traced_registered, List.append_nil]) (by simp)) fun e' s' he' hs => ?_
    have heq : e' = e := by
      rw [← he]
      exact (Record.traced.inj he').symm
    rw [heq] at hs
    exact absurd (hs.1.symm.trans htag) (by decide)

theorem Counted.unregister (h : t.Counted) (owner s : NodeId) :
    (unregisterService owner ⟨t, none⟩ s).tree.Counted := by
  unfold unregisterService
  split
  · exact h
  next v hv =>
  obtain ⟨hw, htick, new, ht, hn⟩ := performed v.stack t.world .terminate
  refine h.quiet (new ++
      [((v.stack.terminate t.world).world.unregistered s).event "bt.service.unregister"
        (.service s) owner v.runs])
    ((hw.trans (.unregistered ..)).trans (.record ..)) ?_ ?_ ?_ fun u hu =>
      ⟨u, List.mem_of_mem_eraseP hu, rfl, rfl, rfl⟩
  · rw [World.traced_trace, World.traced_unregistered, ← List.append_assoc, ← ht]
    rfl
  · intro e he
    rcases List.mem_append.1 he with he | he
    · exact hn e he
    · rw [List.mem_singleton.1 he]
      exact (by decide : TraceEvent.Uncounted "bt.service.unregister")
  · show _ ≤ ((v.stack.terminate t.world).world.unregistered s).tick.number
    rw [World.tick_unregistered]
    exact Nat.le_of_eq (congrArg Tick.number htick.symm)

theorem Chore.counted (hc : Chore t t') (h : t.Counted) : t'.Counted := by
  cases hc with
  | take => exact h.world [] (.refl _) (List.append_nil _).symm (by simp) (Nat.le_refl _)
  | register => exact h.register _ _
  | unregister owner s => exact h.unregister owner s
  | count =>
    exact h.quiet [] (.refl _) (List.append_nil _).symm (by simp) (Nat.le_refl _)
      fun v hv => ⟨v, hv, rfl, rfl, rfl⟩

theorem Counted.settle (h : t.Counted) (ht : t.Sound) : t.settle.tree.Counted :=
  settle_induction ht h fun _ _ _ hc hp => hc.counted hp

/-! ## Every call -/

theorem Round.counted (hr : Round call t t') (ht : t.Settled) (htraced : t.Traced)
    (h : t.Counted) : t'.Counted := by
  have hkeep : ∀ {u : Tree σ} (op : Stack.Operation), u.Sound → u.Counted →
      (u.keepMain (u.main.perform u.world op)).settle.tree.Counted := fun op hu hc =>
    (hc.keepMain op).settle (hu.keepMain op)
  have hfields : ∀ running endedAt, Counted { t with running, endedAt } := fun running endedAt =>
    ⟨h.increasing, h.tallies, h.opened⟩
  have hquiet : ∀ {w : World σ}, t.world.Writes w → w.traced = t.world.traced →
      t.world.tick.number ≤ w.tick.number → Counted { t with world := w } := fun hw ht hnow =>
    h.world [] hw (ht.trans (List.append_nil _).symm) (by simp) hnow
  cases hr with
  | drive hc hrun hp hd => exact hkeep _ ht.sound h
  | hand hd => exact hkeep _ ht.sound h
  | serve hc hv hturns =>
    have hsound := motions_service ht.sound hv hturns.motions
    exact (h.turns ht.sound htraced hv hturns).settle (hsound.sound ht.sound)
  | @handService v op hv hd =>
    have hsound := (keepService_reaches hv
      (v.operate_motions t.world op (hands_isStatus hd))).motions ht.sound
    exact (h.operate hv op).settle (hsound.sound ht.sound)
  | start hc => exact hkeep (.restart t.root) (ht.fields true none).sound (hfields true none)
  | terminate hc =>
    exact hkeep .terminate (ht.fields false t.endedAt).sound (hfields false t.endedAt)
  | fire label node value =>
    exact h.world _ (.record ..) (World.traced_trace ..) (by simp; decide) (Nat.le_refl _)
  | report => exact hquiet (.record ..) (World.traced_report ..) (Nat.le_refl _)
  | @phase now hc hnow =>
    have hle : t.world.tick.number ≤ now.number := by omega
    exact hquiet (.of_history (.refl t.world) rfl rfl) rfl hle
  | setVariables => exact hquiet (.of_history (.refl t.world) rfl rfl) rfl (Nat.le_refl _)
  | config =>
    refine h.quiet [] (.refl _) (List.append_nil _).symm (by simp) (Nat.le_refl _) ?_
    intro v' hv'
    obtain ⟨v, hv, rfl⟩ := List.mem_map.1 hv'
    exact ⟨v, hv, rfl, rfl, rfl⟩

omit [Node σ] in
theorem counted_make {g : Graph σ} {root : NodeId} {b : Blackboard} (h : make g root b = .ok t) :
    t.Counted := by
  obtain ⟨-, rfl⟩ := make_ok h
  refine ⟨by simp [startTicks, World.traced, History.trace], by simp, fun e before s hsuffix => ?_⟩
  simp at hsuffix

/-- In every registration of a service its runs start at strictly increasing ticks. The service
that is registered has as many runs as starts were traced in its registration, and keeps the
tick of the last one. Immediately before each start the service was asked and was ready, and
all that had come onto its stack had left it, each node right after it was stopped. And whatever
is called goes in rounds: a service starts on an empty stack that is neither paused nor invalid,
at most once in a tick, and cuts a run short only if it preempts and is ready. -/
theorem runs_gated {g : Graph σ} {root : NodeId} {b : Blackboard} (hm : make g root b = .ok t)
    (calls : List HostCall) :
    (∀ s, ∀ ticks ∈ startTicks s (t.performAll calls).world.traced, ticks.Pairwise (· < ·)) ∧
    (∀ v ∈ (t.performAll calls).services, ∃ ticks,
      (startTicks v.service (t.performAll calls).world.traced).head? = some ticks ∧
      v.runs = ticks.length ∧ v.lastStarted = ticks.getLast?) ∧
    Opened (t.performAll calls).world.history ∧
    Paired (t.performAll calls).world.happenings ∧
    ∀ call, Rounds call (t.performAll calls) ((t.performAll calls).perform call) := by
  have hsettled := settled_make hm
  obtain ⟨-, hcounted⟩ := rounds_induction (P := fun t => t.Traced ∧ t.Counted) hsettled
    ⟨traced_make hm, counted_make hm⟩
    (fun _ _ _ hu hr hp =>
      ⟨traced_motions (hr.motions hu) hu.sound hp.1, hr.counted hu hp.1 hp.2⟩) calls
  have hpaired : Paired (t.performAll calls).world.happenings := by
    refine (performAll_induction (P := fun t => Paired t.world.happenings) (sound_make hm) ?_
      (fun call u u' found hu hr hp => ?_) calls).2
    · obtain ⟨-, rfl⟩ := make_ok hm
      exact .nil
    · obtain ⟨new, hh, hb⟩ := hr.balanced hu
      rw [hh]
      exact hp.append hb.paired
  refine ⟨hcounted.increasing, fun v hv => ?_, hcounted.opened, hpaired, fun call => ?_⟩
  · obtain ⟨ticks, hp, hr, hl, -⟩ := hcounted.tallies v hv
    exact ⟨ticks, hp, hr, hl⟩
  · exact perform_rounds (performAll_settled hsettled calls) call

/-- A service cuts its unfinished run short in every other tick. -/
def beaconForced : Graph BeaconNode where
  slots := #[
    { name := "body", node := .inr .idle, parent := some ⟨1⟩ },
    { name := "beacon", node := .inl (.repetition { subtree := ⟨0⟩, interval := 2, force := true }),
      owner := some ⟨2⟩ },
    { name := "root", node := .inr .idle, services := [⟨1⟩] }]

/-- The service starts, is preempted and goes with its owner; then it is registered again. -/
def forcedTwice : List HostCall :=
  [.start, .tick 0, .tick 0, .tick 0, .terminate, .start, .update 0]

/-- The second registration has a count of its own. -/
theorem runs_gated_beaconForced :
    ∃ t, make beaconForced ⟨2⟩ {} = .ok t ∧
      startTicks ⟨1⟩ (t.performAll forcedTwice).world.traced = [[4], [1, 3]] ∧
      ((t.performAll forcedTwice).world.traced.map (·.tag)).count "bt.service.preempt" = 1 ∧
      (∀ s, ∀ ticks ∈ startTicks s (t.performAll forcedTwice).world.traced,
        ticks.Pairwise (· < ·)) ∧
      (∀ v ∈ (t.performAll forcedTwice).services, ∃ ticks,
        (startTicks v.service (t.performAll forcedTwice).world.traced).head? = some ticks ∧
        v.runs = ticks.length ∧ v.lastStarted = ticks.getLast?) ∧
      Opened (t.performAll forcedTwice).world.history :=
  have h := runs_gated (rfl : make beaconForced ⟨2⟩ {} = .ok _) forcedTwice
  ⟨_, rfl, by decide +kernel, by decide +kernel, h.1, h.2.1, h.2.2.1⟩

end Tree

end BehaviorTree
