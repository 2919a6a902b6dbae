/-
When a service of the library starts its next run.

The tick of the last execution is told from what the host called (`Tree.lastExecuted`), and the
invariant of the schedules goes with it. So at each step that a phase gives a service the guards
of the driver and what the service says of itself come to one condition: a fresh run starts if
none was started in this registration, or if the interval has passed and none was started in this
tick. A run that is cut short for it is rolled back as a whole before; and what may not be cut
short goes on.
-/
import BehaviorTree.Proofs.Tree.Schedules
import BehaviorTree.Proofs.Tree.Shutdown

namespace BehaviorTree

/-! ## One step of a service -/

namespace Service

variable {σ : Type} [Node σ]

/-- The unfinished run is not cut short: it goes on, or it waits. -/
inductive GoesOn (v : Service) (w : World σ) : Pass σ Service → Prop
  | waits : GoesOn v w ⟨v, w, none⟩
  | runs (hn : v.stack.nodes ≠ []) : GoesOn v w (v.keep (v.stack.run w))
  | resumes (hn : v.stack.nodes ≠ []) : GoesOn v w (v.keep (v.stack.resumeNextUpdate w).1)

/-- What comes before a fresh run, if an unfinished one is on the stack: the service says that it
is ready, and its run is rolled back, the top first. -/
def overture (v : Service) : List Happening :=
  if v.stack.nodes = [] then []
  else .called v.service (.ready true) :: rolledBack v.label v.stack.nodes

/-- A fresh run starts. It is counted, and after the overture the service says that it is ready,
comes onto its stack and is executed. -/
structure Renews (v : Service) (w : World σ) (p : Pass σ Service) : Prop where
  runs : p.after.runs = v.runs + 1
  lastStarted : p.after.lastStarted = some w.tick.number
  happened : ∃ bound more, p.world.happenings = w.happenings ++ v.overture
      ++ .called v.service (.ready true) :: .entered v.label v.service :: bound
      ++ .called v.service .execute :: more ∧ (bound = [] ∨ bound = [.called v.service .bind])

variable {f : BackgroundNode → σ} {v : Service} {w w' : World σ} {b : BackgroundNode}

theorem GoesOn.runs_eq {p : Pass σ Service} (h : v.GoesOn w p) : p.after.runs = v.runs := by
  cases h <;> rfl

/-- A service with an empty stack tries to start. -/
theorem advance_of_empty (hs : v.stack.Sound w) (hp : v.stack.paused = false)
    (hn : v.stack.nodes = []) : v.advance w = v.tryStart w := by
  have hi : v.isPreempted w = (w, false) := by simp [isPreempted, Stack.isEmpty, hn]
  rcases hs.of_empty hn with hst | hst <;> simp [advance, hp, hi, hst, Stack.isEmpty, hn]

/-- A service that is not preempted goes on with its run. -/
theorem advance_goesOn (hs : v.stack.Sound w) (hn : v.stack.nodes ≠ [])
    (hi : v.isPreempted w = (w', false)) (hp : v.stack.paused = false) :
    v.GoesOn w' (v.advance w) := by
  have hne : v.stack.state ≠ .ended := fun he => hn (hs.of_ended he)
  have hempty : v.stack.isEmpty = false := by simpa [Stack.isEmpty] using hn
  unfold advance
  rw [if_neg (by simp [hp]), hi]
  simp only
  split
  · exact .waits
  · exact .waits
  · exact .resumes hn
  · next he => exact absurd he hne
  · rw [if_neg (by simp [hempty])]
    exact .runs hn
  · exact .runs hn
  · exact .runs hn

/-- A run that may not be cut short goes on, whatever the service would say. -/
theorem advance_of_not_preempts (hs : v.stack.Sound w) (hn : v.stack.nodes ≠ [])
    (hpre : w.preempts v.service = false) : v.GoesOn w (v.advance w) := by
  cases hp : v.stack.paused with
  | true =>
    unfold advance
    rw [if_pos hp]
    exact .waits
  | false => exact advance_goesOn hs hn (by simp [isPreempted, hpre]) hp

/-- A service that may cut its run short is asked for it, once in a tick. -/
theorem isPreempted_of_preempts (hs : v.stack.Sound w) (hn : v.stack.nodes ≠ [])
    (hst : v.stack.state ≠ .invalid) (hpre : w.preempts v.service) :
    v.isPreempted w
      = if v.lastStarted = some w.tick.number then (w, false) else w.ready v.service := by
  have hne : v.stack.state ≠ .ended := fun he => hn (hs.of_ended he)
  have hempty : v.stack.isEmpty = false := by simpa [Stack.isEmpty] using hn
  by_cases hl : v.lastStarted = some w.tick.number <;>
    simp [isPreempted, hempty, hst, hne, hl, hpre]

/-- A service that is asked and wants to starts at once, if its stack is empty. -/
theorem tryStart_renews (hf : Node.Hosts f) (hs : v.stack.Sound w) (hp : v.stack.paused = false)
    (hn : v.stack.nodes = []) (hbudget : 0 < v.stack.settings.2) (hb : w.Serves f v.service b)
    (hl : v.lastStarted ≠ some w.tick.number) (hwants : b.wants w.tick) :
    v.Renews w (v.tryStart w) := by
  obtain ⟨w', hr, hb', hh⟩ := World.ready_serves hf hb
  rw [hwants] at hr hh
  have htick : w'.tick = w.tick := (Tree.asked hr).2.2.tick
  obtain ⟨bound, more, hbegin, hbound⟩ :=
    begin_executes hf ((ask_motions v hr).sound hs) hp hn hbudget hb'
  have hstart : v.tryStart w = v.begin w' := by
    unfold tryStart
    rw [if_neg hl, hr]
    rfl
  rw [hstart]
  refine ⟨rfl, congrArg some (congrArg Tick.number htick), bound, more, ?_, hbound⟩
  rw [hbegin, hh]
  simp [overture, hn]

omit [Node σ] in
theorem eq_stop_of_rolledBack {label : StackLabel} {nodes : List NodeId} {s : NodeId} {c : Call}
    (hc : c ∈ (rolledBack label nodes).filterMap (Happening.callOf? s)) : c = .stop := by
  obtain ⟨x, hx, he⟩ := List.mem_filterMap.1 hc
  obtain ⟨n, -, hx⟩ := List.mem_flatMap.1 hx
  simp only [List.mem_cons, List.not_mem_nil, or_false] at hx
  rcases hx with rfl | rfl
  · simp only [Happening.callOf?, Option.ite_none_right_eq_some, Option.some.injEq] at he
    exact he.2.symm
  · cases he

/-- A service that cuts its run short rolls it back and starts at once. -/
theorem preempt_renews (hf : Node.Hosts f) (hs : v.stack.Sound w) (hn : v.stack.nodes ≠ [])
    (hbudget : 0 < v.stack.settings.2) (hb : w.Serves f v.service b) (hforces : b.forces)
    (hl : v.lastStarted ≠ some w.tick.number) (hwants : b.wants w.tick)
    (hr : w.ready v.service = (w', true)) : v.Renews w (v.preempt w') := by
  obtain ⟨w₁, hr₁, hb₁, hh⟩ := World.ready_serves hf hb
  obtain rfl : w₁ = w' := congrArg Prod.fst (hr₁.symm.trans hr)
  rw [hwants] at hh
  have htick : w₁.tick = w.tick := (Tree.asked hr).2.2.tick
  have hs₁ := (ask_motions v hr).sound hs
  -- The run is rolled back: the service is stopped at most, and the stack is empty then.
  have hquiet := World.happenings_trace w₁ (by decide : IsQuiet "bt.service.preempt") v.label
    v.service v.stack.depth
  have hsound : v.stack.Sound (w₁.trace "bt.service.preempt" v.label v.service v.stack.depth) :=
    Motions.sound (.single (.preempt v w₁)) hs₁
  have hb₂ := (World.Minds.trace w₁ "bt.service.preempt" v.label v.service v.stack.depth).serves
    b hb₁
  have htick₂ : (w₁.trace "bt.service.preempt" v.label v.service v.stack.depth).tick = w.tick :=
    htick
  unfold preempt
  simp only
  generalize w₁.trace "bt.service.preempt" v.label v.service v.stack.depth = w₂
    at hquiet hsound hb₂ htick₂ ⊢
  obtain ⟨hfault, hnil, -⟩ := Stack.breakTo_all hsound.known
  have hfree := Stack.breakTo_unpaused hsound.known
  have hrolled := (Stack.breakTo_rolledBack hsound.known).happenings
  have hbroken := hsound.breakTo none
  have hsettings := v.stack.breakTo_settings w₂ none
  have hmade : Stack.Made (fun _ => False) v.stack w₂ _ := Stack.breakTo_made v.stack w₂ none
  have hlabel := hmade.label
  have htick₃ : (v.stack.breakTo w₂ none).world.tick = w.tick :=
    (v.stack.perform_frame w₂ (.breakTo none)).tick.trans htick₂
  obtain ⟨calls, hm, -, -⟩ := hmade.acts.minds (s := v.service) hf
  have hstops : ∀ c ∈ calls, c = .stop := by
    intro c hc
    rw [hm.calls_eq hrolled] at hc
    exact eq_stop_of_rolledBack hc
  generalize v.stack.breakTo w₂ none = p
    at hfault hnil hfree hrolled hbroken hsettings hlabel htick₃ hm ⊢
  obtain ⟨after, w₃, fault⟩ := p
  cases hfault
  obtain ⟨hruns, hlast, bound, more, hstart, hbound⟩ :=
    tryStart_renews (v := { v with stack := after }) (w := w₃) hf hbroken hfree hnil
      (hsettings.symm ▸ hbudget : 0 < after.settings.2) (hm.serves b hb₂) (by rwa [htick₃])
      (by rw [htick₃, BackgroundNode.wants_stopped hforces hstops, hwants])
  refine ⟨hruns, hlast.trans (congrArg some (congrArg Tick.number htick₃)), bound, more, ?_, hbound⟩
  rw [show ({ v with stack := after } : Service).label = v.label from hlabel] at hstart
  refine hstart.trans ?_
  rw [show w₃.happenings = _ from hrolled, hquiet, hh]
  simp [overture, show after.nodes = [] from hnil, hn, label]

end Service

/-! ## When the last execution was -/

/-- A fresh run is due at `now`, if the service was last executed at `last` and has started at the
ticks: it is the first, or the interval has passed and none was started now. -/
def Repetition.Due (r : Repetition) (last : Option Nat) (ticks : List Nat) (now : Nat) : Prop :=
  last = none ∨ ∃ n, last = some n ∧ n + r.interval ≤ now ∧ now ∉ ticks

instance (r : Repetition) (last : Option Nat) (ticks : List Nat) (now : Nat) :
    Decidable (r.Due last ticks now) :=
  match last with
  | none => .isTrue (.inl rfl)
  | some n => decidable_of_iff (n + r.interval ≤ now ∧ now ∉ ticks) (by simp [Repetition.Due])

namespace World

variable {σ : Type} {s : NodeId} {w w₁ w₂ : World σ} {last : Option Nat}

/-- The tick at which the node was last executed since it was registered, if it was `last` in the
world `w`, and all calls from `w` to `w'` were made in the tick of `w'`. -/
def dated (s : NodeId) (w w' : World σ) (last : Option Nat) : Option Nat :=
  ((w'.callsOf s).drop (w.callsOf s).length).foldl (Call.redate w'.tick.number) last

theorem callsOf_writes (h : w.Writes w₁) (s : NodeId) : w.callsOf s <+: w₁.callsOf s := by
  obtain ⟨new, hnew⟩ := h.happenings
  exact ⟨new.filterMap (Happening.callOf? s), by simp [callsOf, ← hnew]⟩

theorem dated_trans (h : w.Writes w₁) (h' : w₁.Writes w₂)
    (hnow : w₂.tick.number = w₁.tick.number) :
    w₁.dated s w₂ (w.dated s w₁ last) = w.dated s w₂ last := by
  obtain ⟨first, hfirst⟩ := callsOf_writes h s
  obtain ⟨more, hmore⟩ := callsOf_writes h' s
  unfold dated
  rw [← hmore, ← hfirst, List.drop_left, List.append_assoc, List.drop_left, ← List.append_assoc,
    List.drop_left, hnow, List.foldl_append]

end World

/-- The call leaves each pass a step. -/
def HostCall.Affords (call : HostCall) : Prop :=
  ∀ c, call = .withConfig c → 1 ≤ c.maxStepsPerPass

namespace Tree

variable {σ : Type} [Node σ] {f : BackgroundNode → σ} {s : NodeId} {b₀ : BackgroundNode}
  {t t' : Tree σ} {last : Option Nat} {call : HostCall} {now : Tick}

/-- The tick at which the node was last executed since it was registered, once the host has made
the calls. Whatever a call does is done in the tick that it leaves, so what a service keeps of the
tick of its execution agrees with this (`Knows`). -/
def lastExecuted (s : NodeId) (last : Option Nat) (t : Tree σ) : List HostCall → Option Nat
  | [] => last
  | call :: rest =>
    lastExecuted s (t.world.dated s (t.perform call).world last) (t.perform call) rest

/-! ## The invariant from call to call -/

/-- What every call keeps: the tree is settled, the trace tells of its stacks and of the starts,
and each pass of a service may take a step. -/
structure Regular (t : Tree σ) : Prop where
  settled : t.Settled
  traced : t.Traced
  counted : t.Counted
  budgeted : t.Budgeted

theorem Round.regular (hr : Round call t t') (ha : call.Affords) (h : t.Regular) : t'.Regular :=
  ⟨hr.settled h.settled, traced_motions (hr.motions h.settled) h.settled.sound h.traced,
    hr.counted h.settled h.traced h.counted, hr.budgeted h.settled ha h.budgeted⟩

theorem Rounds.regular (hr : Rounds call t t') (ha : call.Affords) (h : t.Regular) :
    t'.Regular := by
  induction hr with
  | refl => exact h
  | tail _ hr ih => exact hr.regular ha ih

/-- Rounds that begin and end in one tick are all in that tick. -/
theorem Rounds.timed (hf : Node.Hosts f) (hr : Rounds call t t') (ha : call.Affords)
    (h : t.Regular) (ho : OnSchedule f s b₀ t last)
    (hnow : t'.world.tick.number = t.world.tick.number) : Timed f s b₀ t last t' := by
  induction hr with
  | refl => exact ho.timed
  | @tail u u' hs hr ih =>
    have hu := Rounds.regular hs ha h
    have hfirst := Motions.tick_le (Rounds.motions hs h.settled)
    have hlast := Motions.tick_le (hr.motions hu.settled)
    have hsame : u.world.tick.number = t.world.tick.number := by omega
    exact (ih hsame).trans fun last' ho' => hr.timed hf hu.settled hu.traced hu.counted hu.budgeted
      ho' (hnow.trans hsame.symm)

omit [Node σ] in
theorem Timed.dated (h : Timed f s b₀ t last t') :
    OnSchedule f s b₀ t' (t.world.dated s t'.world last) := by
  obtain ⟨calls, hm, ho⟩ := h
  unfold World.dated
  rwa [hm.called, List.drop_left, hm.now]

theorem midway_onSchedule (hf : Node.Hosts f) (h : t.Regular) (ho : OnSchedule f s b₀ t last)
    (hn : t.now? call = some now) (before : List Part) :
    (t.midway now before).Regular ∧ OnSchedule f s b₀ (t.midway now before)
      (t.world.dated s (t.midway now before).world last) := by
  have hphase := isPhase_of_now hn
  have ha : call.Affords := by
    cases call <;> cases hn <;> exact fun _ hc => nomatch hc
  have hstart : (t.atPhase now).Regular := Round.regular (.phase t hphase (number_of_now hn)) ha h
  have hostart : OnSchedule f s b₀ (t.atPhase now) last :=
    ⟨ho.registered, ho.serves, fun n hn' => Nat.le_trans (ho.past n hn') (number_le_of_now hn),
      ho.spaced⟩
  have hr : Rounds call (t.atPhase now) (t.midway now before) :=
    playAll_rounds hstart.settled hphase rfl before
  exact ⟨hr.regular ha hstart, (hr.timed hf ha hstart hostart
    (congrArg Tick.number (tick_midway h.settled hn before))).dated⟩

theorem phase_onSchedule (hf : Node.Hosts f) (h : t.Regular) (ho : OnSchedule f s b₀ t last)
    (hn : t.now? call = some now) :
    (t.perform call).Regular ∧ OnSchedule f s b₀ (t.perform call)
      (t.world.dated s (t.perform call).world last) := by
  rw [perform_midway h.settled hn]
  exact midway_onSchedule hf h ho hn _

theorem perform_onSchedule (hf : Node.Hosts f) (h : t.Regular) (ho : OnSchedule f s b₀ t last)
    (ha : call.Affords) : (t.perform call).Regular ∧ OnSchedule f s b₀ (t.perform call)
      (t.world.dated s (t.perform call).world last) := by
  have hrest (hnow : (t.perform call).world.tick.number = t.world.tick.number) :
      (t.perform call).Regular ∧ OnSchedule f s b₀ (t.perform call)
        (t.world.dated s (t.perform call).world last) := by
    have hr := perform_rounds h.settled call
    exact ⟨hr.regular ha h, (hr.timed hf ha h ho hnow).dated⟩
  cases call with
  | tick dt =>
    have hwhole : t.perform (.tick dt)
        = ((t.perform (.update dt)).perform (.fixedUpdate dt)).perform (.lateUpdate dt) :=
      (perform_phases t (.tick dt)).symm
    obtain ⟨h₁, ho₁⟩ := phase_onSchedule hf h ho (rfl : t.now? (.update dt) = _)
    have hw₁ := perform_writes h.settled (.update dt)
    rw [hwhole]
    generalize t.perform (.update dt) = t₁ at h₁ ho₁ hw₁ ⊢
    obtain ⟨h₂, ho₂⟩ := phase_onSchedule hf h₁ ho₁ (rfl : t₁.now? (.fixedUpdate dt) = _)
    have hw₂ := perform_writes h₁.settled (.fixedUpdate dt)
    have ht₂ := congrArg Tick.number (tick_phase h₁.settled (.fixedUpdate dt) rfl)
    generalize t₁.perform (.fixedUpdate dt) = t₂ at h₂ ho₂ hw₂ ht₂ ⊢
    obtain ⟨h₃, ho₃⟩ := phase_onSchedule hf h₂ ho₂ (rfl : t₂.now? (.lateUpdate dt) = _)
    have hw₃ := perform_writes h₂.settled (.lateUpdate dt)
    have ht₃ := congrArg Tick.number (tick_phase h₂.settled (.lateUpdate dt) rfl)
    rw [World.dated_trans hw₁ hw₂ ht₂, World.dated_trans (hw₁.trans hw₂) hw₃ ht₃] at ho₃
    exact ⟨h₃, ho₃⟩
  | update dt => exact phase_onSchedule hf h ho rfl
  | fixedUpdate dt => exact phase_onSchedule hf h ho rfl
  | lateUpdate dt => exact phase_onSchedule hf h ho rfl
  | _ =>
    obtain ⟨found, hh⟩ := perform_guarded h.settled.sound _
    exact hrest (congrArg Tick.number (hh.tick rfl))

theorem performAll_onSchedule (hf : Node.Hosts f) (h : t.Regular) (ho : OnSchedule f s b₀ t last)
    (calls : List HostCall) (hc : ∀ call ∈ calls, call.Affords) :
    (t.performAll calls).Regular ∧
      OnSchedule f s b₀ (t.performAll calls) (t.lastExecuted s last calls) := by
  induction calls generalizing t last with
  | nil => exact ⟨h, ho⟩
  | cons call rest ih =>
    obtain ⟨h', ho'⟩ := perform_onSchedule hf h ho (hc call List.mem_cons_self)
    exact ih h' ho' fun call' hm => hc call' (List.mem_cons_of_mem call hm)

omit [Node σ] in
theorem regular_make {g : Graph σ} {root : NodeId} {b : Blackboard} (h : make g root b = .ok t) :
    t.Regular := by
  refine ⟨settled_make h, traced_make h, counted_make h, ?_⟩
  obtain ⟨-, rfl⟩ := make_ok h
  exact ⟨(by decide : 0 < ({} : Config).maxStepsPerPass), by simp⟩

omit [Node σ] in
theorem onSchedule_make {g : Graph σ} {root : NodeId} {b : Blackboard} {slot : Slot σ}
    (h : make g root b = .ok t) (hs : g.slot? s = some slot) (hn : slot.node = f b₀) :
    OnSchedule f s b₀ t none := by
  obtain ⟨-, rfl⟩ := make_ok h
  have haccount : account s ({ graph := g, blackboard := b } : World σ).traced = {} := rfl
  refine ⟨by rw [haccount]; rfl, ⟨b₀, ⟨slot, hs, hn⟩, rfl, fun ha => ?_⟩, by simp, ?_⟩
  · rw [haccount] at ha
    cases ha
  · rw [haccount]
    simp

/-! ## The steps that a phase gives a service -/

theorem OnSchedule.goesOn (hf : Node.Hosts f) (ht : t.Sound) (ho : OnSchedule f s b₀ t last)
    {v : Service} (hv : t.service? s = some v) (hforces : b₀.forces = false)
    (hn : v.stack.nodes ≠ []) : v.GoesOn t.world (v.advance t.world) := by
  obtain ⟨hmem, rfl⟩ := service?_eq_some hv
  obtain ⟨b, hb, hreg, -⟩ := ho.serves
  refine Service.advance_of_not_preempts (ht.services v hmem) hn ?_
  rw [World.preempts_serves hf hb, ← hforces]
  exact BackgroundNode.forces_eq_of_registered hreg

omit [Node σ] in
/-- Of a service that knows what it has done, what it says of itself and the guard of the driver
come to one condition. -/
theorem Knows.due_iff {v : Service} {r : Repetition} {w : World σ} {ticks : List Nat}
    (h : Knows v (.repetition r) last) (hn : v.stack.nodes = [] ∨ r.force)
    (hticks : Tallies w v ticks) (hp : ticks.Pairwise (· < ·)) :
    r.Due last ticks w.tick.number ↔
      v.lastStarted ≠ some w.tick.number ∧ (BackgroundNode.repetition r).wants w.tick := by
  have hidle : (r.force || !r.running) = true := by
    rcases hn with hn | hforce
    · cases hrun : r.running with
      | false => simp
      | true =>
        have hmem : v.service ∈ v.stack.nodes := h.running hrun
        simp [hn] at hmem
    · simp [hforce]
  have hlast : r.lastStarted = last := h.agrees
  -- The service keeps the last of its starts, and none is yet to come.
  have hmem : w.tick.number ∈ ticks ↔ v.lastStarted = some w.tick.number := by
    rw [hticks.last]
    refine ⟨fun hm => ?_, List.mem_of_getLast?⟩
    obtain ⟨m, hm'⟩ := Option.isSome_iff_exists.1 (List.getLast?_isSome.2 (List.ne_nil_of_mem hm))
    rw [hm']
    exact congrArg some (Nat.le_antisymm (hticks.past m (List.mem_of_getLast? hm'))
      (le_of_getLast? hp hm' _ hm))
  rw [Repetition.Due, hmem]
  simp only [BackgroundNode.wants, Repetition.isReady, hidle, hlast, Bool.and_true]
  cases last with
  | none =>
    have hnone : v.lastStarted ≠ some w.tick.number := fun hs => by
      obtain ⟨m, hm, -⟩ := h.started _ hs
      cases hm
    simp [hnone]
  | some n => simp [and_comm]

theorem OnSchedule.renews (hf : Node.Hosts f) (h : t.Regular) {r : Repetition}
    (ho : OnSchedule f s (.repetition r) t last) {v : Service} (hv : t.service? s = some v)
    {tenure : Tenure} (hhead : (account s t.world.traced).tenures.head? = some tenure)
    (halone : tenure.alone) (hp : v.stack.paused = false) (hst : v.stack.state ≠ .invalid)
    (hn : v.stack.nodes = [] ∨ r.force) :
    (r.Due last tenure.ticks t.world.tick.number → v.Renews t.world (v.advance t.world)) ∧
    (¬r.Due last tenure.ticks t.world.tick.number →
      ∃ w, (w = t.world ∨ t.world.ready s = (w, false)) ∧ v.GoesOn w (v.advance t.world)) := by
  obtain ⟨hmem, rfl⟩ := service?_eq_some hv
  obtain ⟨b, hb, hreg, hknows⟩ := ho.serves
  obtain ⟨r', rfl, hi, hforce⟩ := BackgroundNode.eq_repetition_of_registered hreg
  have hs := h.settled.sound.services v hmem
  obtain ⟨x, rest, htenures, htallies, hincreasing⟩ := h.counted.tenure hmem
  obtain rfl : x = tenure := by simpa [htenures] using hhead
  have hknown : Knows v (.repetition r') last := by
    refine hknows ?_ v hv
    have hregistered : (account v.service t.world.traced).registered :=
      ho.registered.trans (by rw [isRegistered, hv]; rfl)
    simp [Account.isAlone, hregistered, htenures, halone]
  have hdue : r.Due last x.ticks t.world.tick.number ↔ v.lastStarted ≠ some t.world.tick.number ∧
      (BackgroundNode.repetition r').wants t.world.tick := by
    rw [← hknown.due_iff (hforce ▸ hn) htallies hincreasing, Repetition.Due, ← hi]
    rfl
  have hbudget := h.budgeted.services v hmem
  obtain ⟨w, hr, hb', -⟩ := World.ready_serves hf hb
  rw [hdue]
  by_cases hempty : v.stack.nodes = []
  · rw [Service.advance_of_empty hs hp hempty]
    refine ⟨fun hd => Service.tryStart_renews hf hs hp hempty hbudget hb hd.1 hd.2, fun hd => ?_⟩
    unfold Service.tryStart
    split
    · exact ⟨t.world, .inl rfl, .waits⟩
    next hl =>
    have hw : (BackgroundNode.repetition r').wants t.world.tick = false := by simpa [hl] using hd
    rw [hw] at hr
    rw [hr]
    exact ⟨w, .inr rfl, .waits⟩
  · have hpre : t.world.preempts v.service := by
      rw [World.preempts_serves hf hb]
      exact hforce.trans (hn.resolve_left hempty)
    have hasked := Service.isPreempted_of_preempts hs hempty hst hpre
    refine ⟨fun hd => ?_, fun hd => ?_⟩
    · obtain ⟨hl, hw⟩ := hd
      rw [if_neg hl, hr, hw] at hasked
      have hadvance : v.advance t.world = v.preempt w := by simp [Service.advance, hp, hasked]
      rw [hadvance]
      exact Service.preempt_renews hf hs hempty hbudget hb (hforce.trans (hn.resolve_left hempty))
        hl hw (hw ▸ hr)
    · split at hasked
      · exact ⟨t.world, .inl rfl, Service.advance_goesOn hs hempty hasked hp⟩
      next hl =>
      have hw : (BackgroundNode.repetition r').wants t.world.tick = false := by simpa [hl] using hd
      rw [hr, hw] at hasked
      exact ⟨w, .inr (hw ▸ hr), Service.advance_goesOn hs hempty hasked hp⟩

/-- Whatever the host has called, as long as each pass may take a step. In each registration of a
service of the library in which no other stack has its node, a service that runs once has started
at most once, and the starts of one that repeats its subtree are at least its interval, and at
least one tick, apart. And in each step that a phase gives the service: an unfinished run goes on
if the service may not cut it short; and one that repeats its subtree, if its stack is neither
paused nor invalid and has no run that it may not cut short, starts a fresh run if that is due,
and what is on its stack is rolled back before, and otherwise starts none. -/
theorem starts_on_schedule (hf : Node.Hosts f) {g : Graph σ} {root : NodeId} {b : Blackboard}
    {slot : Slot σ} (hm : make g root b = .ok t) (hs : g.slot? s = some slot)
    (hn : slot.node = f b₀) (calls : List HostCall) (hc : ∀ call ∈ calls, call.Affords) :
    let u := t.performAll calls
    (∀ tenure ∈ (account s u.world.traced).tenures, tenure.alone → b₀.Spaces tenure.ticks) ∧
    ∀ call now, u.now? call = some now →
      ∀ before after, u.parts now = before ++ .advance s :: after →
        let x := u.midway now before
        let last := u.world.dated s x.world (t.lastExecuted s none calls)
        x.world.tick = now ∧ ∀ v, x.service? s = some v →
          u.midway now (before ++ [.advance s])
            = (conclude v.label (x.keepService (v.advance x.world))).tree ∧
          (b₀.forces = false → v.stack.nodes ≠ [] → v.GoesOn x.world (v.advance x.world)) ∧
          ∀ r tenure, b₀ = .repetition r →
            (account s x.world.traced).tenures.head? = some tenure → tenure.alone →
            v.stack.paused = false → v.stack.state ≠ .invalid → (v.stack.nodes = [] ∨ r.force) →
            (r.Due last tenure.ticks now.number → v.Renews x.world (v.advance x.world)) ∧
            (¬r.Due last tenure.ticks now.number →
              (v.advance x.world).after.runs = v.runs ∧
              ∃ w, (w = x.world ∨ x.world.ready s = (w, false)) ∧
                v.GoesOn w (v.advance x.world)) := by
  obtain ⟨hu, ho⟩ :=
    performAll_onSchedule hf (regular_make hm) (onSchedule_make hm hs hn) calls hc
  refine ⟨ho.spaced, fun call now hnow before after _ => ?_⟩
  obtain ⟨hx, hox⟩ := midway_onSchedule hf hu ho hnow before
  have htick := tick_midway hu.settled hnow before
  refine ⟨htick, fun v hv => ⟨?_, hox.goesOn hf hx.settled.sound hv, ?_⟩⟩
  · rw [midway_snoc]
    simp only [Part.play, moveService, hv]
    rfl
  · rintro r tenure rfl hhead halone hp hst hempty
    have hrenews := hox.renews hf hx hv hhead halone hp hst hempty
    rw [htick] at hrenews
    refine ⟨hrenews.1, fun hd => ?_⟩
    obtain ⟨w, hw, hgoes⟩ := hrenews.2 hd
    exact ⟨hgoes.runs_eq, w, hw, hgoes⟩

/-- The service that is started in every other tick. -/
def forcing : Repetition := { subtree := ⟨0⟩, interval := 2, force := true }

/-- The calls after which the next update is the second one since the last start. -/
def thenOnce : List HostCall := forcedTwice ++ [.update 0]

def sixthUpdate : Tick := { number := 6, dt := 0, phase := .update }

/-- In both registrations the starts are two ticks apart; and at the next update the unfinished
run is rolled back, and a fresh one starts. -/
theorem starts_on_schedule_beaconForced :
    ∃ t u, make beaconForced ⟨2⟩ {} = .ok t ∧ t.performAll thenOnce = u ∧
      (account ⟨1⟩ u.world.traced).tenures = [⟨true, [4]⟩, ⟨true, [1, 3]⟩] ∧
      (∀ tenure ∈ (account ⟨1⟩ u.world.traced).tenures, tenure.alone →
        (BackgroundNode.repetition forcing).Spaces tenure.ticks) ∧
      u.now? (.update 0) = some sixthUpdate ∧
      let x := u.midway sixthUpdate [.main]
      ∃ v, x.service? ⟨1⟩ = some v ∧ v.stack.nodes = [⟨0⟩, ⟨1⟩] ∧
        v.Renews x.world (v.advance x.world) := by
  obtain ⟨t, u, hm, hu, htenures, hnumber, hdue, hservices, hlast, hhead, hservice?⟩ :
      ∃ t u, make beaconForced ⟨2⟩ {} = .ok t ∧ t.performAll thenOnce = u ∧
        (account ⟨1⟩ u.world.traced).tenures = [⟨true, [4]⟩, ⟨true, [1, 3]⟩] ∧
        u.world.tick.number = 5 ∧ (u.due sixthUpdate).length = 0 ∧
        (u.midway sixthUpdate [.main]).services.map (·.service) = [⟨1⟩] ∧
        u.world.dated ⟨1⟩ (u.midway sixthUpdate [.main]).world
          (t.lastExecuted ⟨1⟩ none thenOnce) = some 4 ∧
        (account ⟨1⟩ (u.midway sixthUpdate [.main]).world.traced).tenures.head?
          = some ⟨true, [4]⟩ ∧
        ((u.midway sixthUpdate [.main]).service? ⟨1⟩).any (fun v =>
          v.stack.paused = false ∧ v.stack.state ≠ .invalid ∧ v.stack.nodes = [⟨0⟩, ⟨1⟩]) = true :=
    ⟨_, _, rfl, rfl, by decide +kernel, by decide +kernel, by decide +kernel, by decide +kernel,
      by decide +kernel, by decide +kernel, by decide +kernel⟩
  have hafford : ∀ call ∈ thenOnce, call.Affords := by
    simp [thenOnce, forcedTwice, HostCall.Affords]
  have hslot : beaconForced.slot? ⟨1⟩ = some
      { name := "beacon", node := .inl (.repetition forcing), owner := some ⟨2⟩ } := rfl
  have hscheduled := starts_on_schedule Node.hosts_inl hm hslot rfl thenOnce hafford
  rw [hu] at hscheduled
  obtain ⟨hspaced, hsteps⟩ := hscheduled
  have hnow : u.now? (.update 0) = some sixthUpdate := by simp [now?, hnumber, sixthUpdate]
  have hp : u.parts sixthUpdate = [.main, .advance ⟨1⟩, .hook ⟨1⟩] := by
    rw [parts_of_none_due (List.eq_nil_of_length_eq_zero hdue), hservices]
    rfl
  obtain ⟨-, hstep⟩ := hsteps (.update 0) sixthUpdate hnow [.main] [.hook ⟨1⟩] hp
  obtain ⟨v, hv, hpaused, hvalid, hnodes⟩ := by
    simpa only [Option.any_eq_true, decide_eq_true_eq] using hservice?
  obtain ⟨-, -, hrenews⟩ := hstep v hv
  refine ⟨t, u, hm, hu, htenures, hspaced, hnow, v, hv, hnodes, ?_⟩
  refine (hrenews forcing ⟨true, [4]⟩ rfl hhead rfl hpaused hvalid (.inr rfl)).1 ?_
  rw [hlast]
  decide

end Tree

end BehaviorTree
