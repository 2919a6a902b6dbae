/-
The schedules of the services of the library.

What a service of the library remembers of its last execution is right for as long as its node is
on its own stack alone, whatever the host calls. So a service that runs once is started once in a
registration, and one that repeats its subtree is started again when its interval has passed since
it was last executed, and at no other time. What carries this is one invariant, told with the tick
of the last execution (`Tree.OnSchedule`).
-/
import BehaviorTree.Proofs.Stack.Background
import BehaviorTree.Proofs.Stack.Settings
import BehaviorTree.Proofs.Tree.Parked

namespace BehaviorTree

/-! ## Starts that are spaced -/

namespace BackgroundNode

/-- What the starts in one registration come to: one that runs its subtree once has at most one,
and one that repeats it has them at least an interval apart, and never two in a tick. -/
def Spaces : BackgroundNode → List Nat → Prop
  | parallel _, ticks => ticks.length ≤ 1
  | repetition r, ticks => ticks.Pairwise fun a b => a + max 1 r.interval ≤ b

variable {b b' : BackgroundNode} {last : Option Nat} {ticks : List Nat} {tick : Tick}

theorem Spaces.nil (b : BackgroundNode) : b.Spaces [] := by
  cases b with
  | parallel => exact Nat.zero_le 1
  | repetition => exact List.Pairwise.nil

/-- A service that wants to start keeps the distance. -/
theorem Spaces.snoc (h : b.Spaces ticks) (hb : b'.registered = b.registered) (ha : b'.Agrees last)
    (hw : b'.wants tick) (hlast : ∀ n ∈ ticks, ∃ m, last = some m ∧ n ≤ m)
    (hlt : ∀ n ∈ ticks, n < tick.number) : b.Spaces (ticks ++ [tick.number]) := by
  cases b' with
  | parallel p =>
    obtain ⟨p₀, rfl⟩ : ∃ p₀, b = parallel p₀ := by
      cases b with
      | parallel p₀ => exact ⟨p₀, rfl⟩
      | repetition => cases hb
    have hnone : last = none := by
      have hstarted : p.started = false := by simpa [wants] using hw
      simpa [Agrees, hstarted] using ha.symm
    obtain rfl : ticks = [] := List.eq_nil_iff_forall_not_mem.2 fun n hn => by
      obtain ⟨m, hm, -⟩ := hlast n hn
      rw [hnone] at hm
      cases hm
    exact Nat.le_refl 1
  | repetition r =>
    obtain ⟨r₀, rfl, hi, -⟩ := eq_repetition_of_registered hb.symm
    refine List.pairwise_append.2 ⟨h, List.pairwise_singleton .., fun n hn now hnow => ?_⟩
    obtain rfl := List.mem_singleton.1 hnow
    obtain ⟨m, rfl, hle⟩ := hlast n hn
    have hready : m + r.interval ≤ tick.number := by
      have hw : r.isReady tick := hw
      rw [Repetition.isReady, show r.lastStarted = some m from ha] at hw
      exact (by simpa using hw : m + r.interval ≤ tick.number ∧ _).1
    have hstrict := hlt n hn
    rw [hi]
    omega

end BackgroundNode

/-- A stack that is given no head stays empty. -/
theorem Stack.Acts.nil {σ : Type} [Node σ] {label : StackLabel} {heads : NodeId → Prop}
    {x y : List NodeId × World σ} (h : Acts label heads x y) (hh : ∀ id, ¬heads id)
    (hx : x.1 = []) : y.1 = [] := by
  induction h with
  | refl => exact hx
  | tail _ h ih =>
    cases h with
    | head h => exact absurd h (hh _)
    | note | ask | finish => exact ih
    | turn | hook | call | leave | rollBack => cases ih

/-- A run of a service of the library begins with its execution. -/
theorem Service.begin_executes {σ : Type} [Node σ] {f : BackgroundNode → σ} (hf : Node.Hosts f)
    {v : Service} {w : World σ} {b : BackgroundNode} (hs : v.stack.Sound w)
    (hp : v.stack.paused = false) (hn : v.stack.nodes = []) (hbudget : 0 < v.stack.settings.2)
    (hb : w.Serves f v.service b) :
    ∃ bound more, (v.begin w).world.happenings = w.happenings
      ++ .entered v.label v.service :: bound ++ .called v.service .execute :: more ∧
        (bound = [] ∨ bound = [.called v.service .bind]) := by
  have hquiet := World.happenings_trace w (by decide : IsQuiet "bt.service.start") v.label
    v.service ((v.runs + 1 : Nat) : Int)
  obtain ⟨bound, more, hh, hbound⟩ := Stack.restart_executes
    (w := w.trace "bt.service.start" v.label v.service ((v.runs + 1 : Nat) : Int)) hf
    (hs.of_empty hn) hn hs.current hp hbudget ((World.Minds.trace ..).serves b hb)
  refine ⟨bound, more, hh.trans ?_, hbound⟩
  rw [hquiet]
  simp [label]

namespace Tree

variable {σ : Type} {f : BackgroundNode → σ} {s : NodeId} {b₀ : BackgroundNode}
  {t t' t'' : Tree σ} {last : Option Nat} {calls : List Call} {new : List TraceEvent}

/-! ## The invariant -/

/-- A registered service knows what it has done, if it was last executed at `last` in this
registration. -/
structure Knows (v : Service) (b : BackgroundNode) (last : Option Nat) : Prop where
  agrees : b.Agrees last
  /-- A run goes on only while the node is on the stack. -/
  running : b.isRunning → v.service ∈ v.stack.nodes
  /-- Whatever is on the stack, the service was executed first. -/
  executed : v.stack.nodes ≠ [] → last.isSome
  /-- Each start executes the service. -/
  started : ∀ n, v.lastStarted = some n → ∃ m, last = some m ∧ n ≤ m

/-- The service `s`, made as `b₀`, goes by its schedule: while its node is on its own stack alone
it knows what it has done, and in each registration in which that was so its starts are spaced. -/
structure OnSchedule (f : BackgroundNode → σ) (s : NodeId) (b₀ : BackgroundNode) (t : Tree σ)
    (last : Option Nat) : Prop where
  registered : (account s t.world.traced).registered = t.isRegistered s
  serves : ∃ b, t.world.Serves f s b ∧ b.registered = b₀.registered ∧
    ((account s t.world.traced).isAlone → ∀ v, t.service? s = some v → Knows v b last)
  past : ∀ n, last = some n → n ≤ t.world.tick.number
  spaced : ∀ x ∈ (account s t.world.traced).tenures, x.alone → b₀.Spaces x.ticks

/-- From one tree to another, in one tick, a service that goes by its schedule still does. -/
def Timed (f : BackgroundNode → σ) (s : NodeId) (b₀ : BackgroundNode) (t : Tree σ)
    (last : Option Nat) (t' : Tree σ) : Prop :=
  ∃ calls : List Call, t.world.Minds f s t'.world calls ∧
    OnSchedule f s b₀ t' (calls.foldl (Call.redate t.world.tick.number) last)

theorem OnSchedule.timed (h : OnSchedule f s b₀ t last) : Timed f s b₀ t last t :=
  ⟨[], .refl .., h⟩

theorem Timed.trans (h : Timed f s b₀ t last t')
    (h' : ∀ last', OnSchedule f s b₀ t' last' → Timed f s b₀ t' last' t'') :
    Timed f s b₀ t last t'' := by
  obtain ⟨calls, hm, ho⟩ := h
  obtain ⟨more, hm', ho'⟩ := h' _ ho
  refine ⟨calls ++ more, hm.trans hm', ?_⟩
  rw [List.foldl_append, ← hm.now]
  exact hm.now ▸ ho'

theorem past_foldl {w w' : World σ} (hp : ∀ n, last = some n → n ≤ w.tick.number)
    (hm : w.Minds f s w' calls) (hc : ∀ c ∈ calls, c.isRegistry = false) :
    ∀ n, calls.foldl (Call.redate w.tick.number) last = some n → n ≤ w'.tick.number := by
  intro n hn
  rw [Call.foldl_redate _ last hc] at hn
  rw [hm.now]
  split at hn
  · cases hn
    exact Nat.le_refl _
  · exact hp n hn

/-- What is done elsewhere leaves the service as it is, if it is only asked meanwhile. -/
theorem OnSchedule.elsewhere (h : OnSchedule f s b₀ t last)
    (hm : t.world.Minds f s t'.world calls) (hc : ∀ c ∈ calls, c.isRegistry = false)
    (hr : t'.isRegistered s = t.isRegistered s)
    (hv : ∀ v', t'.service? s = some v' → ∃ v, t.service? s = some v ∧
      v'.stack.nodes = v.stack.nodes ∧ v'.lastStarted = v.lastStarted)
    (ht : t'.world.traced = t.world.traced ++ new) (hn : ∀ e ∈ new, ¬e.Registers s)
    (hidle : (account s t'.world.traced).isAlone → ∀ c ∈ calls, c.isIdle) :
    Timed f s b₀ t last t' := by
  have hfades : (account s t.world.traced).Fades (account s t'.world.traced) :=
    ht ▸ fades_account _ hn
  obtain ⟨b, hb, hreg, hknows⟩ := h.serves
  refine ⟨calls, hm, hfades.registered.trans (h.registered.trans hr.symm), ?_, ?_, ?_⟩
  · refine ⟨_, hm.serves b hb, (BackgroundNode.registered_foldl ..).trans hreg, fun ha v' hv' => ?_⟩
    obtain ⟨v, hvs, hnodes, hlast⟩ := hv v' hv'
    have hk := hknows (hfades.isAlone ha) v hvs
    have hservice : v'.service = v.service :=
      (by simpa using List.find?_some hv' : v'.service = s).trans
        (by simpa using List.find?_some hvs : v.service = s).symm
    rw [BackgroundNode.foldl_idle _ b (hidle ha), Call.foldl_redate_idle _ last (hidle ha)]
    refine ⟨hk.agrees, ?_, ?_, ?_⟩
    · rw [hservice, hnodes]
      exact hk.running
    · rw [hnodes]
      exact hk.executed
    · rw [hlast]
      exact hk.started
  · exact past_foldl h.past hm hc
  · intro x' hx' ha
    obtain ⟨x, hx, hticks, himp⟩ := hfades.all x' hx'
    rw [hticks]
    exact h.spaced x hx (himp ha)

/-- A change of nothing that concerns the service. -/
theorem OnSchedule.quiet (h : OnSchedule f s b₀ t last) (hg : t'.world.graph = t.world.graph)
    (hnow : t'.world.tick.number = t.world.tick.number)
    (hh : t'.world.happenings = t.world.happenings) (hs : t'.services = t.services)
    (ht : t'.world.traced = t.world.traced ++ new) (hn : ∀ e ∈ new, ¬e.Registers s) :
    Timed f s b₀ t last t' := by
  have hm : t.world.Minds f s t'.world [] := .of_eq hg hnow (by rw [World.callsOf, hh]; rfl)
  refine h.elsewhere hm (by simp) ?_ ?_ ht hn (by simp)
  · simp [isRegistered, service?, hs]
  · intro v hv
    exact ⟨v, by rw [← hv, service?, service?, hs], rfl, rfl⟩

variable [Node σ]

/-- What another stack does leaves the service as it is, if that stack never has its node. -/
theorem OnSchedule.foreign (hf : Node.Hosts f) (h : OnSchedule f s b₀ t last)
    (htraced : t.Traced) {label : StackLabel} (hl : label ≠ .service s) {heads : NodeId → Prop}
    {ns : List NodeId} (ha : Stack.Acts label heads (t.nodesOf label, t.world) (ns, t'.world))
    (ht : t'.world.traced = t.world.traced ++ new) (hn : ∀ e ∈ new, ¬e.Registers s)
    (hs : t'.service? s = t.service? s) : Timed f s b₀ t last t' := by
  obtain ⟨calls, hm, hc, -⟩ := ha.minds (s := s) hf
  refine h.elsewhere hm hc (by rw [isRegistered, isRegistered, hs])
    (fun v hv => ⟨v, hs ▸ hv, rfl, rfl⟩) ht hn fun halone => ?_
  rw [ht] at halone
  have hbefore := (fades_account _ hn).isAlone halone
  obtain ⟨-, calls', hm', hidle⟩ := ha.apart hf hl (htraced.apart hbefore hl) fun new' hnew' => by
    obtain rfl : new' = new := List.append_cancel_left (hnew'.symm.trans ht)
    exact not_strays hn halone
  obtain rfl : calls = calls' := List.append_cancel_left (hm.called.symm.trans hm'.called)
  exact hidle

/-- The same for the stack of another service. -/
theorem OnSchedule.beside (hf : Node.Hosts f) (h : OnSchedule f s b₀ t last) (ht : t.Sound)
    (htraced : t.Traced) {v : Service} (hv : v ∈ t.services) (hs : v.service ≠ s)
    {heads : NodeId → Prop} {ns : List NodeId}
    (ha : Stack.Acts v.label heads (v.stack.nodes, t.world) (ns, t'.world))
    (hw : t'.world.traced = t.world.traced ++ new) (hn : ∀ e ∈ new, ¬e.Registers s)
    (hlook : t'.service? s = t.service? s) : Timed f s b₀ t last t' := by
  rw [ht.labels v hv, ← ht.nodesOf_service hv] at ha
  exact h.foreign hf htraced (by simpa using hs) ha hw hn hlook

/-- What its own stack does, if nothing is started. -/
theorem OnSchedule.own (hf : Node.Hosts f) (h : OnSchedule f s b₀ t last) {v v' : Service}
    {w : World σ} (hv : t.service? s = some v) (hs : v'.service = v.service)
    (hlast : v'.lastStarted = v.lastStarted) {label : StackLabel} {heads : NodeId → Prop}
    (hh : ∀ id, ¬heads id)
    (ha : Stack.Acts label heads (v.stack.nodes, t.world) (v'.stack.nodes, w))
    (ht : w.traced = t.world.traced ++ new) (hn : ∀ e ∈ new, ¬e.Registers s) :
    Timed f s b₀ t last { t.putService v' with world := w } := by
  have hself : v.service = s := (service?_eq_some hv).2
  have hput : ({ t.putService v' with world := w } : Tree σ).service? s = some v' := by
    rw [← hself, ← hs]
    exact service?_putService_self (by rw [hs, hself, hv]; simp)
  obtain ⟨calls, hm, hc, hr⟩ := ha.minds (s := s) hf
  have hfades : (account s t.world.traced).Fades (account s w.traced) := ht ▸ fades_account _ hn
  obtain ⟨b, hb, hreg, hknows⟩ := h.serves
  refine ⟨calls, hm, ?_, ?_, past_foldl h.past hm hc, fun x' hx' halone => ?_⟩
  · rw [isRegistered, hput]
    exact hfades.registered.trans (h.registered.trans (by rw [isRegistered, hv]; rfl))
  · refine ⟨_, hm.serves b hb, (BackgroundNode.registered_foldl ..).trans hreg,
      fun halone u hu => ?_⟩
    obtain rfl := Option.some.inj (hput.symm.trans hu)
    have hk := hknows (hfades.isAlone halone) v hv
    refine ⟨hk.agrees.foldl hc, ?_, fun hne => ?_, fun n hstart => ?_⟩
    · rw [hs, hself]
      exact hr b (hself ▸ hk.running)
    · have hsome := hk.executed fun hnil => hne (ha.nil hh hnil)
      rw [Call.foldl_redate _ last hc]
      split
      · rfl
      · exact hsome
    · obtain ⟨m, rfl, hle⟩ := hk.started n (hlast ▸ hstart)
      rw [Call.foldl_redate _ _ hc]
      split
      · exact ⟨_, rfl, Nat.le_trans hle (h.past m rfl)⟩
      · exact ⟨m, rfl, hle⟩
  · obtain ⟨x, hx, hticks, himp⟩ := hfades.all x' hx'
    rw [hticks]
    exact h.spaced x hx (himp halone)

/-! ## A fresh run -/

omit [Node σ] in
/-- The starts of a service that is registered are those of its last registration. -/
theorem Counted.tenure (h : t.Counted) {v : Service} (hv : v ∈ t.services) :
    ∃ x rest, (account v.service t.world.traced).tenures = x :: rest ∧
      Tallies t.world v x.ticks ∧ x.ticks.Pairwise (· < ·) := by
  obtain ⟨ticks, htallies⟩ := h.tallies v hv
  have hp := htallies.present
  have hincreasing := h.increasing v.service ticks (List.mem_of_mem_head? hp)
  rw [← ticks_account] at hp
  cases htenures : (account v.service t.world.traced).tenures with
  | nil => simp [htenures] at hp
  | cons x rest =>
    obtain rfl : x.ticks = ticks := by simpa [htenures] using hp
    exact ⟨x, rest, rfl, htallies, hincreasing⟩

/-- The last of some ticks that increase is the greatest. -/
theorem le_of_getLast? {ticks : List Nat} (hp : ticks.Pairwise (· < ·)) {last : Nat}
    (hl : ticks.getLast? = some last) : ∀ tick ∈ ticks, tick ≤ last := by
  rcases List.eq_nil_or_concat ticks with rfl | ⟨init, n, rfl⟩
  · simp
  rw [List.concat_eq_append] at hp hl ⊢
  obtain rfl : n = last := by simpa using hl
  intro tick ht
  rcases List.mem_append.1 ht with ht | ht
  · exact Nat.le_of_lt ((List.pairwise_append.1 hp).2.2 tick ht n (by simp))
  · exact Nat.le_of_eq (List.mem_singleton.1 ht)

omit [Node σ] in
/-- A service that knows what it has done and wants to start keeps the distance. -/
theorem Knows.spaces {v : Service} {b : BackgroundNode} {w : World σ} {ticks : List Nat}
    (h : Knows v b last) (hs : b₀.Spaces ticks) (hreg : b.registered = b₀.registered)
    (hticks : Tallies w v ticks) (hp : ticks.Pairwise (· < ·)) (hw : b.wants w.tick)
    (hl : v.lastStarted ≠ some w.tick.number) : b₀.Spaces (ticks ++ [w.tick.number]) := by
  refine hs.snoc hreg h.agrees hw (fun n hn => ?_) ?_
  · -- No start comes after the one that the service keeps, which executed it.
    obtain ⟨m, hm⟩ := Option.isSome_iff_exists.1 (List.getLast?_isSome.2 (List.ne_nil_of_mem hn))
    obtain ⟨k, hk, hmk⟩ := h.started m (hticks.last.trans hm)
    exact ⟨k, hk, Nat.le_trans (le_of_getLast? hp hm n hn) hmk⟩
  · exact forall_lt_of_getLast? hp hticks.past (hticks.last ▸ hl)

/-- A fresh run, told from the calls of the service and from the trace. -/
structure Begun (f : BackgroundNode → σ) (v : Service) (w : World σ) (p : Pass σ Service)
    (calls : List Call) : Prop where
  service : p.after.service = v.service
  lastStarted : p.after.lastStarted = some w.tick.number
  minds : w.Minds f v.service p.world calls
  registry : ∀ c ∈ calls, c.isRegistry = false
  executed : .execute ∈ calls
  running : ∀ b : BackgroundNode, (b.isRunning → v.service ∈ v.stack.nodes) →
    (calls.foldl (BackgroundNode.after w.tick.number) b).isRunning →
      v.service ∈ p.after.stack.nodes
  traced : ∃ e new, p.world.traced = w.traced ++ [e] ++ new ∧ e.Starts v.service ∧
    e.tick = w.tick.number ∧ ∀ e ∈ new, ¬e.Registers v.service

omit [Node σ] in
theorem Begun.redated {v : Service} {w : World σ} {p : Pass σ Service}
    (h : Begun f v w p calls) (last : Option Nat) :
    calls.foldl (Call.redate w.tick.number) last = some w.tick.number := by
  rw [Call.foldl_redate _ _ h.registry, if_pos h.executed]

omit [Node σ] in
/-- Once a run has begun the service knows of it. -/
theorem Begun.knows {v : Service} {w : World σ} {p : Pass σ Service} {b : BackgroundNode}
    (h : Begun f v w p calls) (hk : Knows v b last) :
    Knows p.after (calls.foldl (BackgroundNode.after w.tick.number) b)
      (some w.tick.number) where
  agrees := h.redated last ▸ hk.agrees.foldl h.registry
  running hr := h.service ▸ h.running b hk.running hr
  executed _ := rfl
  started _ hn := ⟨_, rfl, Nat.le_of_eq (Option.some.inj (hn.symm.trans h.lastStarted))⟩

theorem begin_begun (hf : Node.Hosts f) {v : Service} {w : World σ} {b : BackgroundNode}
    (hlabel : v.label = .service v.service) (hs : v.stack.Sound w) (hp : v.stack.paused = false)
    (hn : v.stack.nodes = []) (hbudget : 0 < v.stack.settings.2) (hb : w.Serves f v.service b) :
    ∃ calls, Begun f v w (v.begin w) calls := by
  have hminds := World.Minds.trace (f := f) (s := v.service) w "bt.service.start" v.label v.service
    ((v.runs + 1 : Nat) : Int)
  have htraced := World.traced_trace w "bt.service.start" v.label v.service
    ((v.runs + 1 : Nat) : Int)
  have hstarts : (w.event "bt.service.start" v.label v.service ((v.runs + 1 : Nat) : Int)).Starts
      v.service := ⟨rfl, by rw [World.event_stack, hlabel]; rfl⟩
  obtain ⟨bound, more, hh, -⟩ := Service.begin_executes hf hs hp hn hbudget hb
  have hbegin : v.begin w
      = ({ v with lastStarted := some w.tick.number, runs := v.runs + 1 } : Service).keep
        (v.stack.restart (w.trace "bt.service.start" v.label v.service ((v.runs + 1 : Nat) : Int))
          v.service) := rfl
  rw [hbegin] at hh ⊢
  -- The start is traced, and then the run goes through the stack, with the service first.
  generalize w.trace "bt.service.start" v.label v.service ((v.runs + 1 : Nat) : Int) = w'
    at hminds htraced hh ⊢
  obtain ⟨calls, hm, hc, hr⟩ := (v.stack.restart_made w' v.service).acts.minds (s := v.service) hf
  obtain ⟨-, new, hnew, hof, -⟩ := v.stack.restart_logs w' v.service
  have hall := hminds.trans hm
  exact ⟨calls, rfl, rfl, hall, hc, hall.mem_calls (hh.trans (List.append_assoc ..)) (by simp),
    hminds.now ▸ hr, ⟨_, new, hnew.trans (by rw [htraced]), hstarts, rfl,
      fun e he => (hof e he).not_registers v.service⟩⟩

/-- The service is asked, is ready, and its next run starts. -/
theorem OnSchedule.started (hf : Node.Hosts f) (h : OnSchedule f s b₀ t last) (hsound : t.Sound)
    (hcounted : t.Counted) {v : Service} {w : World σ} (hv : t.service? s = some v)
    (hp : v.stack.paused = false) (hn : v.stack.nodes = [])
    (hbudget : 0 < v.stack.settings.2) (hl : v.lastStarted ≠ some t.world.tick.number)
    (hr : t.world.ready s = (w, true)) :
    Timed f s b₀ t last
      { t.putService (v.begin w).after with world := (v.begin w).world } := by
  obtain ⟨hmem, rfl⟩ := service?_eq_some hv
  obtain ⟨b, hb, hreg, hknows⟩ := h.serves
  obtain ⟨w', hw', hb', -⟩ := World.ready_serves hf hb
  obtain ⟨rfl, hwants⟩ := Prod.mk.inj (hr.symm.trans hw')
  obtain ⟨asks, hidle, hasks⟩ := World.minds_ready (s := v.service) hf t.world v.service
  rw [if_pos rfl, hr] at hasks
  obtain ⟨-, htr, hk⟩ := asked hr
  have hnow : w.tick.number = t.world.tick.number := hasks.now
  have hs : v.stack.Sound w := (Service.ask_motions v hr).sound (hsound.services v hmem)
  obtain ⟨calls, hbegun⟩ := begin_begun hf (hsound.labels v hmem) hs hp hn hbudget hb'
  generalize v.begin w = p at hbegun ⊢
  have hput : ({ t.putService p.after with world := p.world } : Tree σ).service? v.service
      = some p.after := by
    rw [← hbegun.service]
    exact service?_putService_self (by rw [hbegun.service, hv]; simp)
  -- The present registration has one start more.
  obtain ⟨x, rest, htenures, htallies, hincreasing⟩ := hcounted.tenure hmem
  obtain ⟨e, new, htraced, he, htick, hquiet⟩ := hbegun.traced
  have hfades := fades_started htenures he hquiet
  rw [← htr, ← htraced, htr, htick, hnow] at hfades
  have hregistered : (account v.service t.world.traced).registered :=
    h.registered.trans (by rw [isRegistered, hv]; rfl)
  have hknown : x.alone → Knows v b last := fun ha =>
    hknows (by simp [Account.isAlone, hregistered, htenures, ha]) v hv
  have hminds := hasks.trans hbegun.minds
  have hlast := hbegun.redated last
  have hknows' := fun ha => hbegun.knows (hknown ha)
  rw [hnow] at hlast hknows'
  refine ⟨asks ++ calls, hminds, ?_⟩
  rw [List.foldl_append, Call.foldl_redate_idle _ last hidle, hlast]
  refine ⟨?_, ⟨_, hminds.serves b hb, ?_, fun ha u hu => ?_⟩, ?_, fun x' hx' ha => ?_⟩
  · rw [isRegistered, hput]
    exact hfades.registered.trans hregistered
  · exact (BackgroundNode.registered_foldl ..).trans hreg
  · obtain rfl := Option.some.inj (hput.symm.trans hu)
    rw [List.foldl_append, BackgroundNode.foldl_idle _ b hidle]
    refine hknows' ?_
    have hbefore := hfades.isAlone ha
    simp only [Account.isAlone, Bool.and_eq_true, List.head?_cons, Option.any_some] at hbefore
    exact hbefore.2
  · rintro n ⟨⟩
    exact Nat.le_of_eq hminds.now.symm
  · obtain ⟨y, hy, hticks, himp⟩ := hfades.all x' hx'
    rw [hticks]
    rcases List.mem_cons.1 hy with rfl | hy
    · exact (hknown (himp ha)).spaces (h.spaced x (htenures ▸ List.mem_cons_self) (himp ha)) hreg
        htallies hincreasing hwants.symm hl
    · exact h.spaced y (htenures ▸ List.mem_cons_of_mem x hy) (himp ha)

/-! ## What a service does by itself -/

/-- A service is asked whether it is ready. -/
theorem OnSchedule.asked (hf : Node.Hosts f) (h : OnSchedule f s b₀ t last) {id : NodeId}
    {w : World σ} {answer : Bool} (hr : t.world.ready id = (w, answer)) :
    Timed f s b₀ t last { t with world := w } := by
  obtain ⟨calls, hidle, hm⟩ := World.minds_ready (s := s) hf t.world id
  obtain ⟨-, htr, -⟩ := Tree.asked hr
  rw [hr] at hm
  have hall : ∀ c ∈ if id = s then calls else [], c.isIdle := by
    split
    · exact hidle
    · simp
  exact h.elsewhere hm (fun c hc => Call.isRegistry_of_isIdle (hall c hc)) rfl
    (fun v hv => ⟨v, hv, rfl, rfl⟩) (htr.trans (List.append_nil _).symm) (by simp) fun _ => hall

/-- All that a service traces in a turn is of its own stack. -/
theorem turn_stacks {v v' : Service} {w w' : World σ} (h : Service.Turn (v, w) (v', w')) :
    ∃ new, w'.traced = w.traced ++ new ∧ ∀ e ∈ new, e.stack = v.label.traceId := by
  have htail : ∀ {w₁ w₂ : World σ} {r : Bool} {tag : String} {value : Int} {p : Pass σ Stack},
      w.ready v.service = (w₁, r) → v.stack.Logs (w₁.trace tag v.label v.service value) p →
      p.world = w₂ →
      ∃ new, w₂.traced = w.traced ++ new ∧ ∀ e ∈ new, e.stack = v.label.traceId := by
    rintro w₁ w₂ r tag value p hr ⟨-, new, hnew, hof, -⟩ rfl
    refine ⟨w₁.event tag v.label v.service value :: new, ?_, ?_⟩
    · rw [hnew, World.traced_trace, (Tree.asked hr).2.1, List.append_assoc]
      rfl
    · rintro e (_ | ⟨_, he⟩)
      · exact World.event_stack ..
      · exact (hof e he).stack
  cases h with
  | declined _ hp hr => exact ⟨[], (Tree.asked hr).2.1.trans (List.append_nil _).symm, by simp⟩
  | started _ hp hn hst hl hr => exact htail hr (v.stack.restart_logs _ _) rfl
  | cut _ hp hn hst hl hc hr => exact htail hr (v.stack.perform_logs _ (.breakTo none)) rfl
  | driven _ _ hp hn hop ha =>
    obtain ⟨-, new, hnew, hof, -⟩ := v.stack.perform_logs w _
    exact ⟨new, hnew, fun e he => (hof e he).stack⟩

theorem OnSchedule.turn (hf : Node.Hosts f) (h : OnSchedule f s b₀ t last) (ht : t.Sound)
    (htraced : t.Traced) (hcounted : t.Counted) {v v' : Service} {w : World σ}
    (hv : v ∈ t.services) (hbudget : 0 < v.stack.settings.2)
    (hturn : Service.Turn (v, t.world) (v', w)) :
    Timed f s b₀ t last { t.putService v' with world := w } := by
  by_cases hs : v.service = s
  · subst hs
    have hlook := service?_of_mem ht.nodup hv
    cases hturn with
    | declined _ hp hr =>
      rw [putService_self ht.nodup hv]
      exact h.asked hf hr
    | started _ hp hn hst hl hr => exact h.started hf ht hcounted hlook hp hn hbudget hl hr
    | @cut _ _ w' hp hn hst hl hc hr =>
      refine (h.asked hf hr).trans fun last' h' => ?_
      have hacts : Stack.Acts v.label (fun _ => False) (v.stack.nodes, w')
          ((v.cut w').after.stack.nodes, (v.cut w').world) :=
        .head (.trace (by decide) ..) (Stack.breakTo_made v.stack _ none).acts
      obtain ⟨-, new, hnew, hof, -⟩ := v.stack.perform_logs
        (w'.trace "bt.service.preempt" v.label v.service v.stack.depth) (.breakTo none)
      refine h'.own (t := { t with world := w' }) hf hlook rfl rfl (fun _ => id) hacts
        (hnew.trans ((congrArg (· ++ new) (World.traced_trace ..)).trans
          (List.append_assoc ..))) ?_
      rintro e (_ | ⟨_, he⟩)
      · exact fun hr => absurd hr.1 (by decide : "bt.service.preempt" ∉ registryTags)
      · exact (hof e he).not_registers v.service
    | driven _ _ hp hn hop ha =>
      obtain ⟨-, new, hnew, hof, -⟩ := v.stack.perform_logs t.world _
      refine h.own hf hlook rfl rfl ?_ (v.stack.perform_made t.world _).acts hnew
        fun e he => (hof e he).not_registers v.service
      rcases hop with rfl | rfl <;> exact fun _ => id
  · obtain ⟨new, hnew, hstack⟩ := turn_stacks hturn
    refine h.beside hf ht htraced hv hs hturn.made.stack.acts hnew (fun e he hr => ?_) ?_
    · have hid : v.label.traceId = some s.index := (hstack e he).symm.trans hr.2
      rw [ht.labels v hv] at hid
      exact hs (StackLabel.service.inj (StackLabel.traceId_injective hid))
    · exact service?_putService_of_ne (by rw [hturn.motions.service]; exact Ne.symm hs)

theorem turn_settings {x y : Service × World σ} (h : Service.Turn x y) :
    y.1.stack.settings = x.1.stack.settings := by
  cases h with
  | declined => rfl
  | started v =>
    exact v.stack.perform_settings _
      (by simp : ∀ config, Stack.Operation.restart v.service ≠ .applyConfig config)
  | cut v => exact v.stack.breakTo_settings _ none
  | driven _ _ _ _ hop =>
    refine Stack.perform_settings _ _ ?_
    rcases hop with rfl | rfl <;> simp

theorem turns_settings {x y : Service × World σ} (h : Service.Turns x y) :
    y.1.stack.settings = x.1.stack.settings := by
  induction h with
  | refl => rfl
  | tail _ h ih => exact (turn_settings h).trans ih

theorem OnSchedule.turns (hf : Node.Hosts f) (h : OnSchedule f s b₀ t last) (ht : t.Sound)
    (htraced : t.Traced) (hcounted : t.Counted) {v v' : Service} {w : World σ}
    (hv : v ∈ t.services) (hbudget : 0 < v.stack.settings.2)
    (hturns : Service.Turns (v, t.world) (v', w)) :
    Timed f s b₀ t last { t.putService v' with world := w } := by
  generalize hx : (v, t.world) = x at hturns
  generalize hy : (v', w) = y at hturns
  induction hturns generalizing v' w with
  | refl =>
    subst hx
    cases hy
    rw [putService_self ht.nodup hv]
    exact h.timed
  | @tail y z hs hturn ih =>
    subst hx
    subst hy
    obtain ⟨u, wu⟩ := y
    refine (ih rfl).trans fun last' h' => ?_
    have hm := motions_service ht hv (Service.Turns.motions hs)
    have hservice : u.service = v.service := (Service.Turns.motions hs).service
    have hmem : u ∈ (t.putService u).services :=
      putService_mem (List.mem_map.2 ⟨v, hv, hservice.symm⟩)
    have hdone := h'.turn hf (hm.sound ht) (traced_motions hm ht htraced)
      (hcounted.turns ht htraced hv hs) hmem
      ((turns_settings hs).symm ▸ hbudget : 0 < (u, wu).1.stack.settings.2) hturn
    have hput : (t.putService u).putService v' = t.putService v' :=
      putService_putService t hturn.motions.service
    rw [← hput]
    exact hdone

/-! ## What settling does -/

omit [Node σ] in
theorem not_registers_of_ne {id : NodeId} (h : id ≠ s) {w : World σ} {tag : String}
    {node : Option NodeId} {value : Int} :
    ¬(w.event tag (.service id) node value).Registers s := by
  rintro ⟨-, hs⟩
  exact h (NodeId.ext (Option.some.inj hs))

theorem OnSchedule.register (hf : Node.Hosts f) (h : OnSchedule f s b₀ t last) (owner id : NodeId) :
    Timed f s b₀ t last (registerService owner t id) := by
  unfold registerService
  split
  · exact h.timed
  next hr =>
  have hnone : t.service? id = none := by simpa [isRegistered] using hr
  have htraced : ((t.world.registered id).trace "bt.service.register" (.service id) owner 0).traced
      = t.world.traced
        ++ [(t.world.registered id).event "bt.service.register" (.service id) owner 0] := by
    rw [World.traced_trace, World.traced_registered]
  by_cases hs : id = s
  · subst hs
    obtain ⟨b, hb, hreg, -⟩ := h.serves
    have hm := (World.minds_registered hf hb).trans
      (.trace (t.world.registered id) "bt.service.register" (.service id) owner 0)
    have haccount := Account.add_of_register (s := id)
      (e := (t.world.registered id).event "bt.service.register" (.service id) owner 0)
      (account id t.world.traced) rfl rfl
    rw [← account_snoc, ← htraced] at haccount
    have hlook : (t.services ++ [Service.make id owner t.config]).find? (·.service = id)
        = some (.make id owner t.config) := by
      rw [List.find?_append, show t.services.find? (·.service = id) = none from hnone]
      simp [Service.make]
    refine ⟨_, hm, ?_, ⟨_, hm.serves b hb, ?_, fun ha v hv => ?_⟩, by simp [Call.redate],
      fun x hx ha => ?_⟩
    · rw [haccount]
      exact (congrArg Option.isSome hlook).symm
    · exact (BackgroundNode.registered_foldl ..).trans hreg
    · obtain rfl := Option.some.inj (hlook.symm.trans hv)
      refine ⟨by cases b <;> rfl, fun hrun => ?_, fun hn => absurd rfl hn, by simp [Service.make]⟩
      cases b <;> cases hrun
    · rw [haccount] at hx
      rcases List.mem_cons.1 hx with rfl | hx
      · exact .nil b₀
      · exact h.spaced x hx ha
  · have hm := (World.minds_registered_of_ne (f := f) t.world hs).trans
      (.trace (t.world.registered id) "bt.service.register" (.service id) owner 0)
    have hlook : (t.services ++ [Service.make id owner t.config]).find? (·.service = s)
        = t.service? s := by
      have hne : ¬decide ((Service.make id owner t.config).service = s) :=
        fun he => hs (of_decide_eq_true he)
      rw [List.find?_append, List.find?_singleton, if_neg hne, Option.or_none]
      rfl
    refine h.elsewhere hm (by simp) ?_ ?_ htraced ?_ (by simp)
    · exact congrArg Option.isSome hlook
    · intro v hv
      exact ⟨v, hlook.symm.trans hv, rfl, rfl⟩
    · simpa using not_registers_of_ne hs

theorem OnSchedule.unregister (hf : Node.Hosts f) (h : OnSchedule f s b₀ t last) (ht : t.Sound)
    (htraced : t.Traced) (owner id : NodeId) :
    Timed f s b₀ t last (unregisterService owner ⟨t, none⟩ id).tree := by
  unfold unregisterService
  split
  · exact h.timed
  next v hv =>
  obtain ⟨hmem, rfl⟩ := service?_eq_some hv
  obtain ⟨-, new, hlog, hof, -⟩ := v.stack.perform_logs t.world .terminate
  have hnew : (v.stack.terminate t.world).world.traced = t.world.traced ++ new := hlog
  have hacts : Stack.Acts v.label (fun _ => False) _ _ := (v.stack.terminate_made t.world).acts
  simp only
  generalize v.stack.terminate t.world = p at hacts hnew
  have htrace : ((p.world.unregistered v.service).trace "bt.service.unregister"
      (.service v.service) owner v.runs).traced = p.world.traced
        ++ [(p.world.unregistered v.service).event "bt.service.unregister" (.service v.service)
          owner v.runs] := by
    rw [World.traced_trace, World.traced_unregistered]
  by_cases hs : v.service = s
  · subst hs
    obtain ⟨b, hb, hreg, -⟩ := h.serves
    obtain ⟨calls, hends, hc, -⟩ := hacts.minds (s := v.service) hf
    have hm := (hends.trans (World.minds_unregistered hf (hends.serves b hb))).trans
      (.trace (p.world.unregistered v.service) "bt.service.unregister" (.service v.service) owner
        v.runs)
    have hfades : (account v.service t.world.traced).Fades (account v.service p.world.traced) :=
      hnew ▸ fades_account _ fun e he => (hof e he).not_registers v.service
    have haccount := Account.add_of_unregister (s := v.service)
      (e := (p.world.unregistered v.service).event "bt.service.unregister" (.service v.service)
        owner v.runs) (account v.service p.world.traced) rfl rfl
    rw [← account_snoc, ← htrace] at haccount
    have hlook : (t.services.eraseP (·.service = v.service)).find? (·.service = v.service) = none :=
      find?_eraseP_self ht.nodup
    have hlast : (calls ++ [Call.unregistered] ++ []).foldl (Call.redate t.world.tick.number) last
        = calls.foldl (Call.redate t.world.tick.number) last := by
      simp [Call.redate]
    refine ⟨_, hm, ?_, ⟨_, hm.serves b hb, ?_, fun ha u hu => ?_⟩, ?_, fun x' hx' ha => ?_⟩
    · rw [haccount]
      exact (congrArg Option.isSome hlook).symm
    · exact (BackgroundNode.registered_foldl ..).trans hreg
    · cases hlook.symm.trans hu
    · rw [hlast]
      intro n hn
      refine Nat.le_trans (past_foldl h.past hends hc n hn) ?_
      exact Nat.le_of_eq (congrArg Tick.number (World.tick_unregistered ..)).symm
    · rw [haccount] at hx'
      obtain ⟨x, hx, hticks, himp⟩ := hfades.all x' hx'
      rw [hticks]
      exact h.spaced x hx (himp ha)
  · have hfirst : Timed f s b₀ t last { t with world := p.world } :=
      h.beside hf ht htraced hmem hs hacts hnew (fun e he => (hof e he).not_registers s) rfl
    refine hfirst.trans fun last' h' => ?_
    have hm := (World.minds_unregistered_of_ne (f := f) p.world hs).trans
      (.trace (p.world.unregistered v.service) "bt.service.unregister" (.service v.service) owner
        v.runs)
    have hlook : (t.services.eraseP (·.service = v.service)).find? (·.service = s) = t.service? s :=
      find?_eraseP_of_ne (Ne.symm hs)
    refine h'.elsewhere hm (by simp) ?_ ?_ htrace ?_ (by simp)
    · exact congrArg Option.isSome hlook
    · intro v hv
      exact ⟨v, hlook.symm.trans hv, rfl, rfl⟩
    · simpa using not_registers_of_ne hs

theorem OnSchedule.chore (hf : Node.Hosts f) (h : OnSchedule f s b₀ t last) (ht : t.Sound)
    (htraced : t.Traced) (hc : Chore t t') : Timed f s b₀ t last t' := by
  cases hc with
  | take => exact h.quiet rfl rfl rfl rfl (List.append_nil _).symm (by simp)
  | count => exact h.quiet rfl rfl rfl rfl (List.append_nil _).symm (by simp)
  | register => exact h.register hf _ _
  | unregister owner id => exact h.unregister hf ht htraced owner id

theorem Timed.settle (hf : Node.Hosts f) (h : Timed f s b₀ t last t') (ht : t'.Sound)
    (htraced : t'.Traced) : Timed f s b₀ t last t'.settle.tree :=
  (settle_induction (P := fun u => u.Traced ∧ Timed f s b₀ t last u) ht ⟨htraced, h⟩
    fun _ _ hu hc hp => ⟨hc.motion.traced hu hp.1,
      hp.2.trans fun _ h' => h'.chore hf hu hp.1 hc⟩).2

/-! ## Budgets -/

omit [Node σ] in
/-- Each pass of a service may take a step. -/
structure Budgeted (t : Tree σ) : Prop where
  config : 0 < t.config.maxStepsPerPass
  services : ∀ v ∈ t.services, 0 < v.stack.settings.2

omit [Node σ] in
theorem Budgeted.put (h : t.Budgeted) {v v' : Service} {w : World σ} (hv : v ∈ t.services)
    (hs : v'.stack.settings = v.stack.settings) :
    Budgeted { t.putService v' with world := w } := by
  refine ⟨h.config, fun u hu => ?_⟩
  rcases mem_putService hu with ⟨rfl, -⟩ | ⟨hu, -⟩
  · exact hs ▸ h.services v hv
  · exact h.services u hu

theorem Budgeted.settle (h : t.Budgeted) (ht : t.Sound) : t.settle.tree.Budgeted := by
  refine settle_induction ht h fun u u' _ hc hu => ?_
  cases hc with
  | take => exact ⟨hu.config, hu.services⟩
  | count => exact ⟨hu.config, hu.services⟩
  | register =>
    unfold registerService
    split
    · exact hu
    refine ⟨hu.config, fun v hv => ?_⟩
    rcases List.mem_append.1 hv with hv | hv
    · exact hu.services v hv
    · obtain rfl := List.mem_singleton.1 hv
      exact hu.config
  | unregister =>
    unfold unregisterService
    split
    · exact hu
    · exact ⟨hu.config, fun v hv => hu.services v (List.mem_of_mem_eraseP hv)⟩

theorem Round.budgeted {call : HostCall} (hr : Round call t t') (ht : t.Settled)
    (hc : ∀ c, call = .withConfig c → 1 ≤ c.maxStepsPerPass) (h : t.Budgeted) : t'.Budgeted := by
  have hkeep : ∀ {u : Tree σ} (op : Stack.Operation), u.Sound → u.Budgeted →
      (u.keepMain (u.main.perform u.world op)).settle.tree.Budgeted := fun op hu hb =>
    Budgeted.settle (t := (Tree.keepMain _ _).tree) ⟨hb.config, hb.services⟩ (hu.keepMain op)
  cases hr with
  | drive => exact hkeep _ ht.sound h
  | hand => exact hkeep _ ht.sound h
  | serve hp hv hturns =>
    exact (h.put hv (turns_settings hturns)).settle
      ((motions_service ht.sound hv hturns.motions).sound ht.sound)
  | @handService v op hv hd =>
    have hop : ∀ config, op ≠ .applyConfig config := by
      rintro config rfl
      cases hd with
      | order h => cases h
    exact (h.put hv (v.stack.perform_settings t.world hop)).settle
      ((Motion.service t hv (.operate v t.world (hands_isStatus hd))).sound ht.sound)
  | start => exact hkeep (.restart t.root) (ht.fields true none).sound ⟨h.config, h.services⟩
  | terminate => exact hkeep .terminate (ht.fields false t.endedAt).sound ⟨h.config, h.services⟩
  | fire | report | phase | setVariables => exact ⟨h.config, h.services⟩
  | @config c hconfig =>
    refine ⟨hc c hconfig, fun v hv => ?_⟩
    obtain ⟨u, -, rfl⟩ := List.mem_map.1 hv
    exact hc c hconfig

/-! ## Every call -/

/-- What is done to the main stack, settled. -/
theorem OnSchedule.keepMain (hf : Node.Hosts f) (h : OnSchedule f s b₀ t last) (ht : t.Sound)
    (htraced : t.Traced) (op : Stack.Operation) (hop : op.isStatus = false) :
    Timed f s b₀ t last (t.keepMain (t.main.perform t.world op)).settle.tree := by
  obtain ⟨-, new, hnew, hof, -⟩ := t.main.perform_logs t.world op
  have hacts := (t.main.perform_made t.world op).acts
  rw [ht.main_label] at hacts
  have hfirst : Timed f s b₀ t last (t.keepMain (t.main.perform t.world op)).tree :=
    h.foreign hf htraced (by simp : StackLabel.main ≠ .service s) hacts hnew
      (fun e he => (hof e he).not_registers s) rfl
  exact hfirst.settle hf (ht.keepMain op) ((Motion.main t hop).traced ht htraced)

theorem OnSchedule.keepService (hf : Node.Hosts f) (h : OnSchedule f s b₀ t last) (ht : t.Sound)
    (htraced : t.Traced) {v : Service} (hv : v ∈ t.services) {op : Stack.Operation}
    (hop : op.isStatus = false) (hh : ∀ id, ¬op.Heads id) :
    Timed f s b₀ t last (t.keepService (v.keep (v.stack.perform t.world op))).settle.tree := by
  have hmotion : t.Motion (t.keepService (v.keep (v.stack.perform t.world op))).tree :=
    .service t hv (.operate v t.world hop)
  refine Timed.settle hf ?_ (hmotion.sound ht) (hmotion.traced ht htraced)
  obtain ⟨-, new, hnew, hof, -⟩ := v.stack.perform_logs t.world op
  have hacts := (v.stack.perform_made t.world op).acts
  by_cases hs : v.service = s
  · subst hs
    exact h.own hf (service?_of_mem ht.nodup hv) rfl rfl hh hacts hnew
      fun e he => (hof e he).not_registers v.service
  · exact h.beside hf ht htraced hv hs hacts hnew (fun e he => (hof e he).not_registers s)
      (service?_putService_of_ne (Ne.symm hs))

theorem Round.timed {call : HostCall} (hf : Node.Hosts f) (hr : Round call t t') (ht : t.Settled)
    (htraced : t.Traced) (hcounted : t.Counted) (hbudgeted : t.Budgeted)
    (h : OnSchedule f s b₀ t last) (hnow : t'.world.tick.number = t.world.tick.number) :
    Timed f s b₀ t last t' := by
  have hfields : ∀ running endedAt, OnSchedule f s b₀ { t with running, endedAt } last :=
    fun running endedAt => ⟨h.registered, h.serves, h.past, h.spaced⟩
  have htr : ∀ running endedAt, Traced { t with running, endedAt } := fun running endedAt =>
    ⟨fun label => (htraced.nodes label).trans (by cases label <;> rfl), htraced.services⟩
  cases hr with
  | drive hc hrun hp hd => exact h.keepMain hf ht.sound htraced _ hd.isStatus
  | hand hd => exact h.keepMain hf ht.sound htraced _ (hands_isStatus hd)
  | @serve v v' w hc hv hturns =>
    have hm := motions_service ht.sound hv hturns.motions
    exact (h.turns hf ht.sound htraced hcounted hv (hbudgeted.services v hv) hturns).settle hf
      (hm.sound ht.sound) (traced_motions hm ht.sound htraced)
  | @handService v op hv hd =>
    exact h.keepService hf ht.sound htraced hv (hands_isStatus hd) (hands_heads hd)
  | start hc =>
    exact (hfields true none).keepMain hf (ht.fields true none).sound (htr true none)
      (.restart t.root) rfl
  | terminate hc =>
    exact (hfields false t.endedAt).keepMain hf (ht.fields false t.endedAt).sound
      (htr false t.endedAt) .terminate rfl
  | fire label node value =>
    refine h.elsewhere (.trace ..) (by simp) rfl (fun v hv => ⟨v, hv, rfl, rfl⟩)
      (World.traced_trace ..) ?_ (by simp)
    rintro e he hr
    rw [List.mem_singleton.1 he] at hr
    exact absurd hr.1 (by decide : "bt.deferred.fire" ∉ registryTags)
  | report label e =>
    exact h.elsewhere (.record _ rfl) (by simp) rfl (fun v hv => ⟨v, hv, rfl, rfl⟩)
      ((World.traced_report ..).trans (List.append_nil _).symm) (by simp) (by simp)
  | @phase now hc hn => exact h.quiet rfl hnow rfl rfl (List.append_nil _).symm (by simp)
  | setVariables => exact h.quiet rfl rfl rfl rfl (List.append_nil _).symm (by simp)
  | @config c hc =>
    have hlook : (t.withConfig c).service? s
        = (t.service? s).map fun v => { v with stack := v.stack.applyConfig c } := by
      unfold service? withConfig
      rw [List.find?_map]
      rfl
    refine h.elsewhere (.of_eq rfl rfl rfl) (by simp) ?_ (fun v' hv' => ?_)
      (List.append_nil _).symm (by simp) (by simp)
    · rw [isRegistered, hlook, Option.isSome_map]
      rfl
    · obtain ⟨v, hv, rfl⟩ := Option.map_eq_some_iff.1 (hlook.symm.trans hv')
      exact ⟨v, hv, rfl, rfl⟩

end Tree

end BehaviorTree
