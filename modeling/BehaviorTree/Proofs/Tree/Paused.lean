/-
A paused stack does not run.

The ledger of a paused stack may call it held, and then the stack stirs no node until the host
lets it go on or it goes with its service. The tree leaves a paused stack that is not suspended
just as it is, and so do the deliveries of ends and the calls that are for other stacks: a
result that is on its way is still there when the stack is resumed. That does not keep another
stack from executing a node that lies on both.
-/
import BehaviorTree.Proofs.Tree.Stepping
import BehaviorTree.Proofs.Tree.Tokens

namespace BehaviorTree

variable {σ : Type} [Node σ]

namespace Tree

variable {call : HostCall} {calls : List HostCall} {t t' t'' : Tree σ} {found told : List Breach}
  {label : StackLabel} {events : List Event}

/-! ## Nothing stirs -/

omit [Node σ] in
/-- Nobody releases a stack but the calls that let it go on, as long as it is not torn down. -/
theorem Attributed.not_releases {old : List Happening} (h : Attributed calls old events)
    (hc : ∀ call ∈ calls, call.letsGo label = false)
    (ht : .tornDown label ∉ events.flatMap Event.happenings) {x : Event} (hx : x ∈ events) :
    x.releases label = false := by
  cases x with
  | aside => rfl
  | on other cause m =>
    refine Bool.eq_false_iff.2 fun hr => ?_
    obtain ⟨⟨rfl, hcause⟩, hm⟩ : (other = label ∧ cause ≠ .tree) ∧ m.releases := by
      simpa [Event.releases] using hr
    cases cause with
    | tree => exact hcause rfl
    | host =>
      obtain ⟨call, hcall, hl⟩ := h.host other m hx hm
      rw [hc call hcall] at hl
      cases hl
    | teardown =>
      rcases h.teardown other m hx with haside | hend
      · exact ht (List.mem_flatMap.2 ⟨_, haside, by simp [Event.happenings]⟩)
      · have hl := hc _ hend
        cases hl

omit [Node σ] in
/-- A stack that is held when the events begin, and is not released, is held when they end. -/
theorem Tells.paused {ledgers : StackLabel → Ledger} (h : Tells ledgers t t' events)
    (hh : (ledgers label).held) (hr : ∀ x ∈ events, x.releases label = false) :
    ∃ s, t'.stack? label = some s ∧ s.paused := by
  have hheld := held_balance (h.permits label) hh hr
  cases hl : t'.stack? label with
  | none =>
    rw [h.kept.empty label hl] at hheld
    cases hheld
  | some s => exact ⟨s, rfl, (h.kept.fits label s hl).held hheld⟩

omit [Node σ] in
/-- The ledgers that call a stack held whenever it is paused. -/
theorem Sound.kept (ht : t.Sound) : Kept
    (fun label => ((t.stack? label).map fun s => ⟨s.debt, s.paused⟩).getD {}) t where
  fits label s hs := by
    rw [hs]
    exact (ht.stack hs).1.fits rfl id
  empty label hs := by rw [hs]; rfl

/-! ## Nothing moves -/

/-- A call that neither lets the stack go on nor starts the tree leaves a paused stack alone
that is not suspended, even if it is for that stack. -/
theorem abides_of_orders {root : NodeId} {s : Stack} {w : World σ} {op : Stack.Operation}
    (h : call.Orders root label op) (hs : s.Sound w) (hp : s.paused)
    (hc : call.letsGo label = false) (hstart : ¬(call = .start ∧ label = .main)) :
    s.Abides (s.perform w op).after := by
  cases h with
  | start => exact absurd ⟨rfl, rfl⟩ hstart
  | receiveReturn ok => exact hs.abides_perform hp rfl
  | pause | pauseService => exact ⟨rfl, fun _ => rfl, fun _ => rfl, fun _ => rfl⟩
  | breakMain | breakService | resume | resumeService | terminate => simp [HostCall.letsGo] at hc

/-- Between the two trees the service of the stack was torn down. -/
def Torn (label : StackLabel) (t t' : Tree σ) : Prop :=
  ∃ new, t'.world.happenings = t.world.happenings ++ new ∧ .tornDown label ∈ new

theorem Torn.later (h : Torn label t t') (hs : t'.world.Since t''.world) : Torn label t t'' := by
  obtain ⟨new, hh, hm⟩ := h
  obtain ⟨more, hmore⟩ := hs.aged
  exact ⟨new ++ more, by rw [hmore.happenings, hh, List.append_assoc], List.mem_append_left _ hm⟩

theorem Torn.earlier (hs : t.world.Since t'.world) (h : Torn label t' t'') : Torn label t t'' := by
  obtain ⟨new, hh, hm⟩ := h
  obtain ⟨before, hbefore⟩ := hs.aged
  exact ⟨before ++ new, by rw [hh, hbefore.happenings, List.append_assoc],
    List.mem_append_right _ hm⟩

/-- In a step a stack stays there, unless it is torn down. -/
theorem StackChange.stack_of_some (h : StackChange call t found t')
    (hc : call.letsGo label = false) {s : Stack} (hs : t.stack? label = some s) :
    (∃ s', t'.stack? label = some s') ∨ Torn label t t' := by
  have hother : ∀ l, (∀ other, other ≠ l → t'.stack? other = t.stack? other) → label ≠ l →
      ∃ s', t'.stack? label = some s' := fun l ho hl => ⟨s, by rw [ho label hl, hs]⟩
  cases h with
  | operated l _ _ _ hs' _ ho =>
    by_cases hl : label = l
    · subst hl
      exact .inl ⟨_, hs'⟩
    · exact .inl (hother l ho hl)
  | aside _ _ hsame => exact .inl ⟨s, by rw [hsame, hs]⟩
  | opened l _ _ _ hnone _ _ _ ho =>
    by_cases hl : label = l
    · subst hl
      rw [hs] at hnone
      cases hnone
    · exact .inl (hother l ho hl)
  | @closed l u new _ hu _ ho hh _ htorn =>
    by_cases hl : label = l
    · subst hl
      rcases htorn with htorn | rfl
      · obtain ⟨before, hb⟩ := (u.perform_since t.world .terminate).aged
        refine .inr ⟨before ++ new, ?_, List.mem_append_right _ htorn⟩
        rw [hh, ← List.append_assoc, ← hb.happenings]
        rfl
      · cases hc
    · exact .inl (hother l ho hl)
  | configured config _ hset => exact .inl ⟨s.applyConfig config, by rw [hset, hs]; rfl⟩

/-- The stack `label` is there and paused, and otherwise as the stack `s`. -/
def Stays (label : StackLabel) (s : Stack) (t : Tree σ) : Prop :=
  ∃ s', t.stack? label = some s' ∧ s'.paused ∧ s'.nodes = s.nodes ∧ s'.state = s.state ∧
    s'.result = s.result

theorem GuardedRuns.stays (h : GuardedRuns call t found told t') (ht : t.Sound) {s : Stack}
    (hs : t.Stays label s) (hw : s.isWaiting = false) (hc : call.letsGo label = false)
    (hstart : ¬(call = .start ∧ label = .main)) : t'.Stays label s ∨ Torn label t t' := by
  induction h with
  | refl => exact .inl hs
  | step h hstep hp _ ih =>
    have hu := h.sound ht
    rcases ih with ⟨v, hv, hpaused, hnodes, hstate, hresult⟩ | htorn
    · rcases (hstep.stackChange hu).stack_of_some hc hv with ⟨v', hv'⟩ | htorn
      · have hvw : v.isWaiting = false := by
          rw [Stack.isWaiting, hstate]
          exact hw
        have habides : v.Abides v' := by
          rcases hp label v hv hpaused v' hv' with h | ⟨op, ho, rfl, -⟩
          · exact h
          · exact abides_of_orders ho (hu.stack hv).1 hpaused hc hstart
        exact .inl ⟨v', hv', habides.paused, (habides.nodes hvw).trans hnodes,
          (habides.state hvw).trans hstate, (habides.result hvw).trans hresult⟩
      · exact .inr (htorn.earlier h.runs.since)
    · exact .inr (htorn.later hstep.since)
  | @report u _ _ b _ _ ih =>
    rcases ih with ⟨v, hv, hrest⟩ | htorn
    · refine .inl ⟨v, ?_, hrest⟩
      rw [← hv]
      cases label <;> rfl
    · exact .inr (htorn.later ((World.Since.refl u.world).report _))

theorem stays_performAll (ht : t.Sound) {s : Stack} (hs : t.Stays label s)
    (hw : s.isWaiting = false) (hc : ∀ call ∈ calls, call.letsGo label = false)
    (hstart : ∀ call ∈ calls, ¬(call = .start ∧ label = .main)) :
    (t.performAll calls).Stays label s ∨ Torn label t (t.performAll calls) := by
  induction calls generalizing t with
  | nil => exact .inl hs
  | cons call calls ih =>
    obtain ⟨found, hr⟩ := perform_guarded ht call
    have hsound := hr.sound ht
    rcases hr.stays ht hs hw (hc call List.mem_cons_self) (hstart call List.mem_cons_self) with
      h | htorn
    · exact (ih hsound h (fun c hm => hc c (List.mem_cons_of_mem _ hm))
        fun c hm => hstart c (List.mem_cons_of_mem _ hm)).imp id (·.earlier hr.runs.since)
    · exact .inr (htorn.later (performAll_since hsound calls))

/-- Whatever the host calls but to let a paused stack go on or to end it, and for as long as the
stack is not torn down: whoever is bound, executed or forwarded a hook is on top of another
stack, and on the paused one no node is where none has its home on two stacks; and the stack
stays paused. If it is not suspended, and the tree is not started anew, its nodes, its state and
a result that is on its way stay as they are. -/
theorem still_of_paused {g : Graph σ} {root : NodeId} {b : Blackboard} (hm : make g root b = .ok t)
    (earlier calls : List HostCall) {s : Stack}
    (hs : (t.performAll earlier).stack? label = some s) (hp : s.paused)
    (hc : ∀ call ∈ calls, call.letsGo label = false) :
    ∃ events, Played (t.performAll earlier) calls events ∧
      (t.performAll (earlier ++ calls)).world.happenings
        = (t.performAll earlier).world.happenings ++ events.flatMap Event.happenings ∧
      (.tornDown label ∉ events.flatMap Event.happenings →
        (∀ before x after, events = before ++ x :: after → x.IsStill g root label
          ((t.performAll earlier).world.happenings ++ before.flatMap Event.happenings)) ∧
        (∃ s', (t.performAll (earlier ++ calls)).stack? label = some s' ∧ s'.paused) ∧
        (s.isWaiting = false → (∀ call ∈ calls, ¬(call = .start ∧ label = .main)) →
          (t.performAll (earlier ++ calls)).Stays label s)) := by
  have hhomed := fun hcalls => performAll_homed hm hcalls (earlier ++ calls)
  obtain ⟨hsound, hreplays⟩ := performAll_induction (P := ReplaysStacks) (sound_make hm)
    (replaysStacks_make hm)
    (fun _ _ _ _ ht hr h => hr.replaysStacks ht h) earlier
  rw [performAll_append] at hhomed ⊢
  generalize t.performAll earlier = u at hs hsound hreplays hhomed
  obtain ⟨events, hplayed, htells, hattr⟩ := exists_played hsound hreplays hsound.kept calls
  refine ⟨events, hplayed, htells.happenings, fun htorn => ?_⟩
  have hreleases : ∀ x ∈ events, x.releases label = false :=
    fun x hx => hattr.not_releases hc htorn hx
  have hheld : (((u.stack? label).map fun s => ⟨s.debt, s.paused⟩).getD {} : Ledger).held := by
    simp [hs, hp]
  refine ⟨fun before x after he => ?_, htells.paused hheld hreleases, fun hw hstart => ?_⟩
  · refine htells.isStill hattr hhomed he
      (held_balance (Event.permits_append.1 (he ▸ htells.permits label)).1 hheld fun y hy => ?_)
    exact hreleases y (he ▸ List.mem_append_left _ hy)
  · refine (stays_performAll hsound ⟨s, hs, hp, rfl, rfl, rfl⟩ hw hc hstart).resolve_right ?_
    rintro ⟨new, hh, hnew⟩
    rw [List.append_cancel_left (hh.symm.trans htells.happenings)] at hnew
    exact htorn hnew

/-- The budget of the pass is used up just when the first node has ended, so the stack is paused
with the outcome on its way; after an update and an end from outside it still is, and no node
of it stirs. -/
theorem still_of_paused_twoSteps :
    ∃ t, make (twoSteps quick) ⟨2⟩ {} = .ok t ∧
      let begun : List HostCall := [.withConfig { maxStepsPerPass := 2 }, .start]
      let later : List HostCall := [.update 0, .receiveReturn false]
      (t.performAll begun).main.paused ∧ (t.performAll begun).main.result = some true ∧
      (∃ events, Played (t.performAll begun) later events ∧
        ∀ before x after, events = before ++ x :: after →
          x.Spares .main ((t.performAll begun).world.happenings
            ++ before.flatMap Event.happenings)) ∧
      (t.performAll (begun ++ later)).main.paused ∧
      (t.performAll (begun ++ later)).main.result = some true := by
  have hm : make (twoSteps quick) ⟨2⟩ {}
      = .ok { root := ⟨2⟩, world := { graph := twoSteps quick, blackboard := {} } } := rfl
  refine ⟨_, hm, ?_⟩
  generalize ht : ({ root := ⟨2⟩, world := { graph := twoSteps quick, blackboard := {} } } :
    Tree (FlowNode ⊕ Scripted)) = t at hm
  intro begun later
  have hp : (t.performAll begun).main.paused := by subst ht; decide +kernel
  have hw : (t.performAll begun).main.isWaiting = false := by subst ht; decide +kernel
  have hr : (t.performAll begun).main.result = some true := by subst ht; decide +kernel
  have hnever : .tornDown .main ∉ (t.performAll (begun ++ later)).world.happenings := by
    subst ht
    decide +kernel
  have hs : (t.performAll begun).stack? .main = some (t.performAll begun).main := rfl
  obtain ⟨events, hplayed, hh, hstill⟩ := still_of_paused hm begun later hs hp
    (by simp [later, HostCall.letsGo])
  obtain ⟨hstill, -, hstays⟩ := hstill fun htorn =>
    hnever (by rw [hh]; exact List.mem_append_right _ htorn)
  obtain ⟨s, hs', hpaused, -, -, hresult⟩ := hstays hw (by simp [later])
  obtain rfl : Tree.main _ = s := Option.some.inj hs'
  refine ⟨hp, hr, ⟨events, hplayed, fun before x after he => ?_⟩, hpaused, hresult.trans hr⟩
  exact (hstill before x after he).spared callsChildren_twoSteps apart_twoSteps

/-- The main stack is paused, but the service whose node lies on it starts a run, and executes
that node and the one above it. -/
theorem stirred_by_service :
    beaconBelow.Built ∧ ∃ t, make beaconBelow ⟨2⟩ {} = .ok t ∧
      (t.performAll [.start, .pause]).main.paused ∧
      (t.performAll [.start, .pause]).main.nodes = [⟨0⟩, ⟨1⟩, ⟨2⟩] ∧
      (t.performAll [.start, .pause, .update 0]).main.paused ∧
      (t.performAll [.start, .pause, .update 0]).main.nodes = [⟨0⟩, ⟨1⟩, ⟨2⟩] ∧
      (t.performAll [.start, .pause, .update 0]).world.happenings
        = (t.performAll [.start, .pause]).world.happenings ++
          [.called ⟨1⟩ (.ready true), .entered (.service ⟨1⟩) ⟨1⟩, .called ⟨1⟩ .execute,
            .entered (.service ⟨1⟩) ⟨0⟩, .called ⟨0⟩ .execute] :=
  ⟨built_beaconBelow, _, rfl, by decide +kernel, by decide +kernel, by decide +kernel,
    by decide +kernel, by decide +kernel⟩

end Tree

end BehaviorTree
