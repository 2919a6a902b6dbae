/-
What the calls of a host do to the stacks of a tree, event by event.

An event is a mark on one of the stacks, and says whose doing it is; or it is a happening that
no stack makes. The events of a call tell all that happens in it, and each stack fits the
ledger that is kept over the marks on it, from the moment when the stack is opened: a ledger
is empty as long as its stack is not there. Two things a ledger alone does not say: that the
tree never releases a stack that is held, which comes of heeding the pauses, and that a stack
turns to the node that it has on top, which is told from the happenings.
-/
import BehaviorTree.Proofs.Tree.Homes

namespace BehaviorTree

/-- Whose doing it is. -/
inductive Cause where
  /-- The tree goes on by itself. -/
  | tree
  /-- The call orders it. -/
  | host
  /-- The service of the stack is torn down. -/
  | teardown
deriving DecidableEq, Repr

inductive Event where
  | on (label : StackLabel) (cause : Cause) (mark : Mark)
  | aside (x : Happening)
deriving DecidableEq, Repr

/-- No stack makes it happen. -/
def Happening.isAside : Happening → Bool
  | called _ c => !c.isDispatch
  | tornDown _ | violated _ => true
  | entered _ _ | left _ _ => false

namespace Event

def happenings : Event → List Happening
  | on label _ mark => mark.happenings label
  | aside x => [x]

/-- The stack is released, and not by the tree. -/
def releases (label : StackLabel) : Event → Bool
  | on l cause mark => l = label && cause ≠ .tree && mark.releases
  | aside _ => false

/-- The ledger of the stack `label`. -/
def enter (label : StackLabel) (l : Ledger) : Event → Ledger
  | on l' _ mark => if l' = label then l.enter mark else l
  | aside _ => l

/-- The ledger allows it, and the tree releases no stack that is held. -/
def Allowed (label : StackLabel) (l : Ledger) : Event → Prop
  | on l' cause mark =>
    l' = label → l.Allows mark ∧ (mark.releases → cause = .tree → l.held = false)
  | aside _ => True

def balance (label : StackLabel) (l : Ledger) (events : List Event) : Ledger :=
  events.foldl (enter label) l

/-- Every event is allowed where it stands. -/
def Permits (label : StackLabel) : Ledger → List Event → Prop
  | _, [] => True
  | l, e :: events => e.Allowed label l ∧ Permits label (e.enter label l) events

/-- Every call of an event goes to the node that its stack has on top, if `old` happened
before. -/
def OnTop : List Happening → List Event → Prop
  | _, [] => True
  | old, e :: events =>
    (∀ label cause n c, e = .on label cause (.called n c) → (stackOf label old).head? = some n) ∧
      OnTop (old ++ e.happenings) events

variable {label l' : StackLabel} {l : Ledger} {events more : List Event} {marks : List Mark}
  {cause : Cause} {old : List Happening}

theorem balance_append :
    balance label l (events ++ more) = balance label (balance label l events) more :=
  List.foldl_append ..

theorem permits_append : Permits label l (events ++ more) ↔
    Permits label l events ∧ Permits label (balance label l events) more := by
  induction events generalizing l with
  | nil => simp [Permits, balance]
  | cons e events ih => simp [Permits, ih, balance, and_assoc]

theorem balance_on : balance label l (marks.map (.on label cause)) = l.balance marks := by
  induction marks generalizing l with
  | nil => rfl
  | cons m marks ih =>
    show balance label (enter label l (.on label cause m)) _ = (l.enter m).balance marks
    rw [ih, enter, if_pos rfl]

theorem balance_on_of_ne (h : l' ≠ label) :
    balance label l (marks.map (.on l' cause)) = l := by
  induction marks with
  | nil => rfl
  | cons m marks ih =>
    show balance label (enter label l (.on l' cause m)) _ = l
    rw [enter, if_neg h, ih]

theorem balance_aside (new : List Happening) : balance label l (new.map .aside) = l := by
  induction new with
  | nil => rfl
  | cons x new ih => exact ih

/-- What the tree does by itself holds a stack, or releases it, but not both. -/
theorem permits_on (h : l.Permits marks)
    (hr : cause ≠ .tree ∨ (∀ m ∈ marks, m.releases = false) ∨
      l.held = false ∧ ∀ e, .ended e ∉ marks) :
    Permits label l (marks.map (.on label cause)) := by
  induction marks generalizing l with
  | nil => trivial
  | cons m marks ih =>
    refine ⟨fun _ => ⟨h.1, fun hm hc => ?_⟩, ?_⟩
    · rcases hr with hr | hr | hr
      · exact absurd hc hr
      · rw [hr m List.mem_cons_self] at hm
        cases hm
      · exact hr.1
    · rw [enter, if_pos rfl]
      refine ih h.2 (hr.imp_right (Or.imp (fun hr m' hm => ?_) fun hr => ⟨?_, fun e he => ?_⟩))
      · exact hr m' (List.mem_cons_of_mem m hm)
      · have hm : ∀ e, .ended e ∉ [m] := fun e he => hr.2 e (by simp_all)
        exact Ledger.not_held_balance hr.1 hm
      · exact hr.2 e (List.mem_cons_of_mem m he)

theorem permits_on_of_ne (h : l' ≠ label) : Permits label l (marks.map (.on l' cause)) := by
  induction marks with
  | nil => trivial
  | cons m marks ih =>
    refine ⟨fun he => absurd he h, ?_⟩
    rw [enter, if_neg h]
    exact ih

theorem permits_aside (new : List Happening) : Permits label l (new.map .aside) := by
  induction new with
  | nil => trivial
  | cons x new ih => exact ⟨trivial, ih⟩

theorem onTop_append : OnTop old (events ++ more) ↔
    OnTop old events ∧ OnTop (old ++ events.flatMap happenings) more := by
  induction events generalizing old with
  | nil => simp [OnTop]
  | cons e events ih => simp [OnTop, ih, and_assoc]

/-- No event calls a node of its stack. -/
theorem onTop_of_not_called (h : ∀ l cause n c, .on l cause (.called n c) ∉ events) :
    OnTop old events := by
  induction events generalizing old with
  | nil => trivial
  | cons e events ih =>
    refine ⟨fun l cause n c he => ?_, ih fun l cause n c hm => ?_⟩
    · exact absurd (he ▸ List.mem_cons_self) (h l cause n c)
    · exact h l cause n c (List.mem_cons_of_mem e hm)

/-- All the calls go to the node on top, and leave it there. -/
theorem onTop_calls {n : NodeId} (calls : List Call) (h : (stackOf label old).head? = some n) :
    OnTop old ((calls.map (.called n)).map (.on label cause)) := by
  induction calls generalizing old with
  | nil => trivial
  | cons c calls ih =>
    refine ⟨fun l cause' m c' he => ?_, ih ?_⟩
    · cases he
      exact h
    · rwa [show (Event.on label cause (.called n c)).happenings = [c].map (.called n) from rfl,
        stackOf_calls]

theorem happenings_on (marks : List Mark) :
    (marks.map (.on label cause)).flatMap happenings = marks.flatMap (Mark.happenings label) := by
  rw [List.flatMap_map]
  rfl

theorem happenings_aside (new : List Happening) : (new.map .aside).flatMap happenings = new := by
  induction new with
  | nil => rfl
  | cons x new ih => exact congrArg (x :: ·) ih

end Event

variable {σ : Type} [Node σ]

/-- An act calls none but the top node, and its marks tell what becomes of the nodes. -/
theorem Stack.MarkedAct.onTop {s : Stack} {v : World σ} {op : Stack.Operation}
    {x y : List NodeId × World σ} {marks : List Mark} {cause : Cause}
    (h : Stack.MarkedAct s v op x marks y) (hx : stackOf s.label x.2.happenings = x.1) :
    Event.OnTop x.2.happenings (marks.map (.on s.label cause)) ∧
      stackOf s.label y.2.happenings = y.1 := by
  have hh := h.happenings
  have hcalls : ∀ {top : NodeId} {rest : List NodeId} (calls : List Call), x.1 = top :: rest →
      Event.OnTop x.2.happenings ((calls.map (.called top)).map (.on s.label cause)) :=
    fun calls hn => Event.onTop_calls calls (by rw [hx, hn]; rfl)
  have hother : (∀ n c, .called n c ∉ marks) →
      Event.OnTop x.2.happenings (marks.map (.on s.label cause)) :=
    fun hm => Event.onTop_of_not_called fun l cause' n c he => by
      obtain ⟨m, hmem, he⟩ := List.mem_map.1 he
      cases he
      exact hm n c hmem
  cases h with
  | quiet => exact ⟨trivial, by rw [hh, List.flatMap_nil, List.append_nil, hx]⟩
  | turned _ _ hcalled | hooked _ hcalled =>
    exact ⟨hcalls _ rfl, by rw [hcalled, stackOf_calls, hx]⟩
  | head | called | answered | ended | rolledBack | cleared | resumed =>
    refine ⟨hother (by simp), ?_⟩
    rw [hh, stackOf_append, hx]
    simp [Mark.happenings, Happening.replay]

theorem Stack.MarkedActs.onTop {s : Stack} {v : World σ} {op : Stack.Operation}
    {x y : List NodeId × World σ} {marks : List Mark} (h : Stack.MarkedActs s v op x marks y)
    (hx : stackOf s.label x.2.happenings = x.1) (cause : Cause) :
    Event.OnTop x.2.happenings (marks.map (.on s.label cause)) ∧
      stackOf s.label y.2.happenings = y.1 := by
  induction h with
  | refl => exact ⟨trivial, hx⟩
  | tail h hb ih =>
    obtain ⟨hbefore, hy⟩ := ih
    obtain ⟨hnew, hz⟩ := hb.onTop hy
    refine ⟨?_, hz⟩
    rw [List.map_append, Event.onTop_append, Event.happenings_on, ← h.happenings]
    exact ⟨hbefore, hnew⟩

/-- Of what a tree does by itself only rolling a stack back as a whole releases it. -/
theorem Stack.Admits.of_releases {s : Stack} {head : NodeId} {op : Stack.Operation}
    (h : s.Admits head op) (hr : op.releases) : op = .breakTo none := by
  cases h with
  | breakTo => rfl
  | start | restart | run | receiveReturn | resumeNextUpdate | forwardHook => cases hr

/-- The call lets a paused stack go on, or ends it. -/
def HostCall.letsGo (label : StackLabel) : HostCall → Bool
  | .resume | .breakMain _ => label = .main
  | .resumeService service | .breakService service _ => label = .service service
  | .terminate => true
  | _ => false

omit [Node σ] in
theorem HostCall.Orders.letsGo {root : NodeId} {call : HostCall} {label : StackLabel}
    {op : Stack.Operation} (h : call.Orders root label op) (hr : op.releases) :
    call.letsGo label := by
  cases h with
  | resume | breakMain | resumeService | breakService | terminate => simp [HostCall.letsGo]
  | start | receiveReturn | pause | pauseService => cases hr

namespace Tree

/-! ## Scenes -/

/-- What one step does, event by event. -/
inductive Scene (call : HostCall) (t : Tree σ) : List Event → Tree σ → Prop
  | operated {t' : Tree σ} (label : StackLabel) {s : Stack} {op : Stack.Operation}
      {marks : List Mark} {cause : Cause} (hs : t.stack? label = some s)
      (hc : cause = .tree ∧ s.Admits (t.head label) op ∨
        cause = .host ∧ call.Orders t.root label op)
      (hb : Stack.MarkedActs s t.world op (s.nodes, t.world) marks
        ((s.perform t.world op).after.nodes, (s.perform t.world op).world))
      (hs' : t'.stack? label = some (s.perform t.world op).after)
      (hw : t'.world = (s.perform t.world op).world)
      (ho : ∀ other, other ≠ label → t'.stack? other = t.stack? other) :
      Scene call t (marks.map (.on label cause)) t'
  | aside {t' : Tree σ} {new : List Happening} (hs : ∀ label, t'.stack? label = t.stack? label)
      (hh : t'.world.happenings = t.world.happenings ++ new) (hn : ∀ x ∈ new, x.isAside) :
      Scene call t (new.map .aside) t'
  | opened {t' : Tree σ} (label : StackLabel) {s : Stack} {new : List Happening}
      (hs : t.stack? label = none) (hs' : t'.stack? label = some s) (hnil : s.nodes = [])
      (hst : s.state = .ready) (ho : ∀ other, other ≠ label → t'.stack? other = t.stack? other)
      (hh : t'.world.happenings = t.world.happenings ++ new) (hn : ∀ x ∈ new, x.isAside) :
      Scene call t (new.map .aside) t'
  | closed {t' : Tree σ} (label : StackLabel) {s : Stack} {marks : List Mark}
      {new : List Happening} (hs : t.stack? label = some s)
      (hb : Stack.MarkedActs s t.world .terminate (s.nodes, t.world) marks
        ((s.perform t.world .terminate).after.nodes, (s.perform t.world .terminate).world))
      (hs' : t'.stack? label = none)
      (ho : ∀ other, other ≠ label → t'.stack? other = t.stack? other)
      (hh : t'.world.happenings = (s.perform t.world .terminate).world.happenings ++ new)
      (hn : ∀ x ∈ new, x.isAside) :
      Scene call t (marks.map (.on label .teardown) ++ new.map .aside) t'
  | configured {t' : Tree σ} (config : Config)
      (hs : ∀ label, t'.stack? label = (t.stack? label).map (·.applyConfig config))
      (hw : t'.world = t.world) : Scene call t [] t'

/-- Any number of steps of one call. -/
inductive Scenes (call : HostCall) : Tree σ → List Event → Tree σ → Prop
  | refl (t : Tree σ) : Scenes call t [] t
  | tail {t t' t'' : Tree σ} {events new : List Event} (h : Scenes call t events t')
      (h' : Scene call t' new t'') : Scenes call t (events ++ new) t''

/-- Calls of the host, one after the other. -/
inductive Played : Tree σ → List HostCall → List Event → Prop
  | nil (t : Tree σ) : Played t [] []
  | cons {t : Tree σ} {call : HostCall} {calls : List HostCall} {events more : List Event}
      (h : Scenes call t events (t.perform call)) (h' : Played (t.perform call) calls more) :
      Played t (call :: calls) (events ++ more)

/-! ## Ledgers -/

/-- Every stack is as its ledger says, and a stack that is not there has an empty one. -/
structure Kept (ledgers : StackLabel → Ledger) (t : Tree σ) : Prop where
  fits : ∀ label s, t.stack? label = some s → Stack.Fits (ledgers label) s
  empty : ∀ label, t.stack? label = none → ledgers label = {}

/-- The events tell what happens between the two trees, and the ledgers allow them. -/
structure Tells (ledgers : StackLabel → Ledger) (t t' : Tree σ) (events : List Event) : Prop where
  happenings : t'.world.happenings = t.world.happenings ++ events.flatMap Event.happenings
  permits : ∀ label, Event.Permits label (ledgers label) events
  kept : Kept (fun label => Event.balance label (ledgers label) events) t'

/-- What is known of the events of these calls besides, if `old` happened before: a stack turns
to the node that it has on top, what is aside is a notice to a service or a report, a call
releases only the stacks that it names, and a stack that is torn down is told of. -/
structure Attributed (calls : List HostCall) (old : List Happening) (events : List Event) :
    Prop where
  onTop : Event.OnTop old events
  aside : ∀ n c, .aside (.called n c) ∈ events → c.isNotice
  host : ∀ label m, .on label .host m ∈ events → m.releases → ∃ call ∈ calls, call.letsGo label
  teardown : ∀ label m, .on label .teardown m ∈ events →
    .aside (.tornDown label) ∈ events ∨ .terminate ∈ calls

variable {call : HostCall} {calls : List HostCall} {t t' t'' : Tree σ} {found told : List Breach}
  {ledgers : StackLabel → Ledger} {events more : List Event} {old : List Happening}

theorem attributed_nil (calls : List HostCall) (old : List Happening) : Attributed calls old [] :=
  ⟨trivial, by simp, by simp, by simp⟩

theorem Attributed.append {later : List HostCall} (h : Attributed calls old events)
    (h' : Attributed later (old ++ events.flatMap Event.happenings) more) :
    Attributed (calls ++ later) old (events ++ more) where
  onTop := Event.onTop_append.2 ⟨h.onTop, h'.onTop⟩
  aside n c hm := (List.mem_append.1 hm).elim (h.aside n c) (h'.aside n c)
  host label m hm hr := by
    rcases List.mem_append.1 hm with hm | hm
    · obtain ⟨call, hc, hl⟩ := h.host label m hm hr
      exact ⟨call, List.mem_append_left _ hc, hl⟩
    · obtain ⟨call, hc, hl⟩ := h'.host label m hm hr
      exact ⟨call, List.mem_append_right _ hc, hl⟩
  teardown label m hm := by
    rcases List.mem_append.1 hm with hm | hm
    · exact (h.teardown label m hm).imp (List.mem_append_left _) (List.mem_append_left _)
    · exact (h'.teardown label m hm).imp (List.mem_append_right _) (List.mem_append_right _)

theorem Attributed.then (h : Attributed [call] old events)
    (h' : Attributed [call] (old ++ events.flatMap Event.happenings) more) :
    Attributed [call] old (events ++ more) := by
  have hboth := h.append h'
  exact ⟨hboth.onTop, hboth.aside, fun label m hm hr => by simpa using hboth.host label m hm hr,
    fun label m hm => by simpa using hboth.teardown label m hm⟩

/-- What happens aside is told as it is. -/
theorem attributed_aside {new : List Happening} (hn : ∀ n c, .called n c ∈ new → c.isNotice) :
    Attributed calls old (new.map .aside) where
  onTop := Event.onTop_of_not_called (by simp)
  aside n c hm := by
    obtain ⟨x, hx, he⟩ := List.mem_map.1 hm
    cases he
    exact hn n c hx
  host label m hm := by simp at hm
  teardown label m hm := by simp at hm

theorem notice_of_call {new : List Happening}
    (hn : ∀ x ∈ new, ∃ node c, x = .called node c ∧ c.isNotice) :
    ∀ n c, .called n c ∈ new → c.isNotice := by
  intro n c hm
  obtain ⟨node, c', he, hc⟩ := hn _ hm
  cases he
  exact hc

omit [Node σ] in
theorem Kept.congr (h : Kept ledgers t) (hs : ∀ label, t'.stack? label = t.stack? label) :
    Kept ledgers t' :=
  ⟨fun label s h' => h.fits label s (hs label ▸ h'), fun label h' => h.empty label (hs label ▸ h')⟩

omit [Node σ] in
/-- Only the stack `label` is another one, with another ledger. -/
theorem Kept.update (h : Kept ledgers t) {label : StackLabel} {l : Ledger}
    (ho : ∀ other, other ≠ label → t'.stack? other = t.stack? other)
    (hf : ∀ s, t'.stack? label = some s → Stack.Fits l s) (he : t'.stack? label = none → l = {}) :
    Kept (fun other => if other = label then l else ledgers other) t' := by
  refine ⟨fun other s hs => ?_, fun other hs => ?_⟩
  · by_cases hl : other = label
    · subst hl
      rw [if_pos rfl]
      exact hf s hs
    · rw [if_neg hl]
      exact h.fits other s (ho other hl ▸ hs)
  · by_cases hl : other = label
    · subst hl
      rw [if_pos rfl]
      exact he hs
    · rw [if_neg hl]
      exact h.empty other (ho other hl ▸ hs)

omit [Node σ] in
theorem tells_refl (h : Kept ledgers t) : Tells ledgers t t [] :=
  ⟨(List.append_nil _).symm, fun _ => trivial, h⟩

omit [Node σ] in
theorem Tells.trans (h : Tells ledgers t t' events)
    (h' : Tells (fun label => Event.balance label (ledgers label) events) t' t'' more) :
    Tells ledgers t t'' (events ++ more) := by
  refine ⟨?_, fun label => Event.permits_append.2 ⟨h.permits label, h'.permits label⟩, ?_⟩
  · rw [h'.happenings, h.happenings, List.flatMap_append, List.append_assoc]
  · simpa only [Event.balance_append] using h'.kept

omit [Node σ] in
/-- Nothing happens on any stack. -/
theorem tells_aside {new : List Happening} (h : Kept ledgers t')
    (hh : t'.world.happenings = t.world.happenings ++ new) :
    Tells ledgers t t' (new.map .aside) := by
  refine ⟨by rw [hh, Event.happenings_aside], fun label => Event.permits_aside new, ?_⟩
  simpa only [Event.balance_aside] using h

/-- The marks of an operation on the stack `label`. -/
theorem tells_on {label : StackLabel} {s : Stack} {op : Stack.Operation} {marks : List Mark}
    {cause : Cause} (hb : Stack.Booked (ledgers label) s t.world op marks) (hl : s.label = label)
    (hr : cause ≠ .tree ∨ (∀ m ∈ marks, m.releases = false) ∨
      (ledgers label).held = false ∧ ∀ e, .ended e ∉ marks)
    (hw : t'.world.happenings = (s.perform t.world op).world.happenings)
    (hk : Kept (fun other => if other = label then (ledgers label).balance marks
      else ledgers other) t') :
    Tells ledgers t t' (marks.map (.on label cause)) := by
  refine ⟨?_, fun other => ?_, ?_⟩
  · rw [hw, hb.acts.happenings, hl, Event.happenings_on]
  · by_cases he : label = other
    · subst he
      exact Event.permits_on hb.permits hr
    · exact Event.permits_on_of_ne he
  · have hledgers : (fun other => Event.balance other (ledgers other) (marks.map (.on label cause)))
        = fun other => if other = label then (ledgers label).balance marks else ledgers other := by
      funext other
      by_cases he : other = label
      · subst he
        rw [if_pos rfl, Event.balance_on]
      · rw [if_neg he, Event.balance_on_of_ne (Ne.symm he)]
    rw [hledgers]
    exact hk

/-! ## Calls -/

/-- A tree lets no paused stack go on; where it seems to, the call orders the same. -/
theorem exists_cause (hp : Spares call t t') (ht : t.Sound) {label : StackLabel} {s : Stack}
    {op : Stack.Operation} (hs : t.stack? label = some s)
    (hop : s.Admits (t.head label) op ∨ call.Orders t.root label op)
    (hs' : t'.stack? label = some (s.perform t.world op).after)
    (hw : t'.world = (s.perform t.world op).world) :
    ∃ (cause : Cause) (op' : Stack.Operation),
      t'.stack? label = some (s.perform t.world op').after ∧
      t'.world = (s.perform t.world op').world ∧
      (cause = .tree ∧ s.Admits (t.head label) op' ∨
        cause = .host ∧ call.Orders t.root label op') ∧
      (cause ≠ .tree ∨ op'.releases = false ∨ op'.rollsBack ∧ s.paused = false) := by
  rcases hop with hop | hop
  · by_cases hr : op.releases = false
    · exact ⟨.tree, op, hs', hw, .inl ⟨rfl, hop⟩, .inr (.inl hr)⟩
    obtain rfl := hop.of_releases (by simpa using hr)
    cases hpaused : s.paused with
    | false => exact ⟨.tree, _, hs', hw, .inl ⟨rfl, hop⟩, .inr (.inr ⟨rfl, rfl⟩)⟩
    | true =>
      rcases hp label s hs hpaused _ hs' with h | ⟨op', ho, ha, hw'⟩
      · exact absurd h.paused
          (by simp [Stack.perform, Stack.breakTo_unpaused (ht.stack hs).1.known])
      · exact ⟨.host, op', by rw [hs', ha], hw', .inr ⟨rfl, ho⟩, .inl (by simp)⟩
  · exact ⟨.host, op, hs', hw, .inr ⟨rfl, hop⟩, .inl (by simp)⟩

omit [Node σ] in
theorem isAside_of_call {x : Happening} (h : ∃ node c, x = .called node c ∧ c.isNotice) :
    x.isAside := by
  obtain ⟨node, c, rfl, hc⟩ := h
  simp [Happening.isAside, Call.isDispatch_of_isNotice hc]

/-- An operation that spares the paused stacks is a scene, and the ledgers allow it. -/
theorem exists_operated (hp : Spares call t t') (ht : t.Sound) (hr : t.ReplaysStacks)
    (hk : Kept ledgers t)
    {label : StackLabel} {s : Stack} {op : Stack.Operation} (hs : t.stack? label = some s)
    (hop : s.Admits (t.head label) op ∨ call.Orders t.root label op)
    (hs' : t'.stack? label = some (s.perform t.world op).after)
    (hw : t'.world = (s.perform t.world op).world)
    (ho : ∀ other, other ≠ label → t'.stack? other = t.stack? other) :
    ∃ events, Scene call t events t' ∧ Tells ledgers t t' events ∧
      Attributed [call] t.world.happenings events := by
  obtain ⟨hsound, hl⟩ := ht.stack hs
  have hfits := hk.fits label s hs
  obtain ⟨cause, op, hs', hw, hc, hcause⟩ := exists_cause hp ht hs hop hs' hw
  obtain ⟨marks, hb⟩ := Stack.perform_booked hfits hsound.placed op
  have hrelease : cause ≠ .tree ∨ (∀ m ∈ marks, m.releases = false) ∨
      (ledgers label).held = false ∧ ∀ e, .ended e ∉ marks := by
    refine hcause.imp_right (Or.imp (fun hop m hm => ?_) fun hop =>
      ⟨hfits.not_held hop.2, hb.rolled hop.1⟩)
    simpa [hop] using hb.acts.releases hm
  have hkept : Kept (fun other => if other = label then (ledgers label).balance marks
      else ledgers other) t' := by
    refine hk.update ho (fun s' h' => ?_) fun h' => ?_
    · rw [hs'] at h'
      cases h'
      exact hb.fits
    · rw [hs'] at h'
      cases h'
  refine ⟨_, .operated label hs hc hb.acts hs' hw ho,
    tells_on hb hl hrelease (by rw [hw]) hkept, ?_, by simp, ?_, ?_⟩
  · rw [← hl]
    exact (hb.acts.onTop (hr.stackOf_eq ht hs) cause).1
  · intro label' m hm hrel
    obtain ⟨m', hm', he⟩ := List.mem_map.1 hm
    cases he
    obtain ⟨hcause, -⟩ | ⟨-, hord⟩ := hc
    · cases hcause
    · exact ⟨call, List.mem_singleton_self call, hord.letsGo (hb.acts.releases hm' hrel)⟩
  · intro label' m hm
    obtain ⟨m', -, he⟩ := List.mem_map.1 hm
    cases he
    obtain ⟨hcause, -⟩ | ⟨hcause, -⟩ := hc <;> cases hcause

omit [Node σ] in
/-- A stack that is opened fits the empty ledger. -/
theorem Kept.opened (hk : Kept ledgers t) (ht' : t'.Sound) {label : StackLabel} {s : Stack}
    (hs : t.stack? label = none) (hs' : t'.stack? label = some s) (hst : s.state = .ready)
    (ho : ∀ other, other ≠ label → t'.stack? other = t.stack? other) : Kept ledgers t' := by
  have hne : s.state ≠ .receiving := by simp [hst]
  have hfits : Stack.Fits {} s := by
    have hres := (ht'.stack hs').1.result_iff
    exact .of_none rfl (by simp) (by simpa [hne] using hres) hne
  have hkept := hk.update (l := {}) ho (fun s' h' => Option.some.inj (hs'.symm.trans h') ▸ hfits)
    fun _ => rfl
  convert hkept using 2 with other
  split
  · next he => rw [he, hk.empty label hs]
  · rfl

/-- The stack of a service that goes is ended, and then the service is torn down. -/
theorem exists_closed (ht : t.Sound) (hr : t.ReplaysStacks) (hk : Kept ledgers t)
    {label : StackLabel} {s : Stack} {new : List Happening}
    (hs : t.stack? label = some s) (hs' : t'.stack? label = none)
    (ho : ∀ other, other ≠ label → t'.stack? other = t.stack? other)
    (hh : t'.world.happenings = (s.perform t.world .terminate).world.happenings ++ new)
    (hn : ∀ x ∈ new, x.isAside) (hnotice : ∀ n c, .called n c ∈ new → c.isNotice)
    (htorn : .tornDown label ∈ new ∨ call = .terminate) :
    ∃ events, Scene call t events t' ∧ Tells ledgers t t' events ∧
      Attributed [call] t.world.happenings events := by
  obtain ⟨hsound, hl⟩ := ht.stack hs
  obtain ⟨marks, hb⟩ := Stack.perform_booked (hk.fits label s hs) hsound.placed .terminate
  have hgone : (ledgers label).balance marks = {} :=
    hb.fits.empty (Stack.terminate_eq hsound.known).2 (Stack.terminate_unpaused hsound.known)
  let mid : Tree σ := { t' with world := (s.perform t.world .terminate).world }
  have hmid : ∀ label, mid.stack? label = t'.stack? label := fun label => by cases label <;> rfl
  have hkept : Kept (fun other => if other = label then (ledgers label).balance marks
      else ledgers other) mid := by
    refine hk.update (fun other he => (hmid other).trans (ho other he)) (fun s' h' => ?_)
      fun _ => hgone
    rw [hmid, hs'] at h'
    cases h'
  have hends : Tells ledgers t mid (marks.map (.on label .teardown)) :=
    tells_on hb hl (.inl (by simp)) rfl hkept
  have haside : ∀ old, Attributed [call] old (new.map .aside) := fun _ => attributed_aside hnotice
  have htop := (hb.acts.onTop (hr.stackOf_eq ht hs) .teardown).1
  rw [hl] at htop
  refine ⟨_, .closed label hs hb.acts hs' ho hh hn,
    hends.trans (tells_aside (hends.kept.congr fun label => (hmid label).symm) hh),
    Event.onTop_append.2 ⟨htop, (haside _).onTop⟩, ?_, ?_, ?_⟩
  · exact fun n c hm => (haside []).aside n c (by simpa using hm)
  · exact fun label' m hm => by simp at hm
  · intro label' m hm
    obtain rfl : label = label' := by
      have hmem : ∃ a ∈ marks, label = label' ∧ a = m := by simpa using hm
      obtain ⟨_, -, he, -⟩ := hmem
      exact he
    refine htorn.imp (fun hx => ?_) fun hx => by simp [hx]
    exact List.mem_append_right _ (List.mem_map_of_mem hx)

omit [Node σ] in
/-- No ledger says anything of the config. -/
theorem Kept.configured (hk : Kept ledgers t) {config : Config}
    (hs : ∀ label, t'.stack? label = (t.stack? label).map (·.applyConfig config)) :
    Kept ledgers t' := by
  refine ⟨fun label s' h' => ?_, fun label h' => ?_⟩
  · rw [hs label] at h'
    obtain ⟨s, hs, rfl⟩ := Option.map_eq_some_iff.1 h'
    exact (hk.fits label s hs).congr rfl rfl rfl .rfl
  · rw [hs label] at h'
    exact hk.empty label (Option.map_eq_none_iff.1 h')

/-- Every change that spares the paused stacks is a scene, and the ledgers allow it. -/
theorem StackChange.scene (h : StackChange call t found t') (hp : Spares call t t') (ht : t.Sound)
    (ht' : t'.Sound) (hr : t.ReplaysStacks) (hk : Kept ledgers t) :
    ∃ events, Scene call t events t' ∧ Tells ledgers t t' events ∧
      Attributed [call] t.world.happenings events := by
  cases h with
  | operated label hs hop _ hs' hw ho => exact exists_operated hp ht hr hk hs hop hs' hw ho
  | aside new _ hs hh hn =>
    exact ⟨_, .aside hs hh fun x hx => isAside_of_call (hn x hx), tells_aside (hk.congr hs) hh,
      attributed_aside (notice_of_call hn)⟩
  | opened label s new _ hs hs' hnil hst ho hh hn =>
    exact ⟨_, .opened label hs hs' hnil hst ho hh fun x hx => isAside_of_call (hn x hx),
      tells_aside (hk.opened ht' hs hs' hst ho) hh, attributed_aside (notice_of_call hn)⟩
  | closed label new _ hs hs' ho hh hn htorn =>
    refine exists_closed ht hr hk hs hs' ho hh (fun x hx => ?_) (fun n c hx => ?_) htorn
    · rcases hn x hx with rfl | hx
      · rfl
      · exact isAside_of_call hx
    · rcases hn _ hx with he | ⟨node, c', he, hc⟩
      · cases he
      · cases he
        exact hc
  | configured config _ hs hw =>
    exact ⟨[], .configured config hs hw, ⟨by rw [hw]; simp, fun _ => trivial, hk.configured hs⟩,
      attributed_nil ..⟩

/-- A run that spares the paused stacks is told by scenes. -/
theorem GuardedRuns.scenes (h : GuardedRuns call t found told t') (ht : t.Sound)
    (hr : t.ReplaysStacks) (hk : Kept ledgers t) :
    ∃ events, Scenes call t events t' ∧ Tells ledgers t t' events ∧
      Attributed [call] t.world.happenings events := by
  induction h with
  | refl => exact ⟨[], .refl t, tells_refl hk, attributed_nil ..⟩
  | step h hstep hp _ ih =>
    obtain ⟨events, hscenes, htells, hattr⟩ := ih
    have ht₁ := h.sound ht
    obtain ⟨new, hscene, hnew, hattr'⟩ := (hstep.stackChange ht₁).scene hp ht₁ (hstep.sound ht₁)
      (h.runs.replaysStacks ht hr) htells.kept
    rw [htells.happenings] at hattr'
    exact ⟨_, .tail hscenes hscene, htells.trans hnew, hattr.then hattr'⟩
  | @report t' _ _ b _ _ ih =>
    obtain ⟨events, hscenes, htells, hattr⟩ := ih
    have hs : ∀ label, ({ t' with
        world := t'.world.report (.ofFault b.stack b.error) } : Tree σ).stack? label
          = t'.stack? label := fun label => by cases label <;> rfl
    have hh : ∃ d, (t'.world.report (.ofFault b.stack b.error)).happenings
        = t'.world.happenings ++ [.violated d] := ⟨_, World.happenings_record _ _⟩
    obtain ⟨d, hh⟩ := hh
    exact ⟨_, .tail hscenes (.aside hs hh (by simp [Happening.isAside])),
      htells.trans (tells_aside (htells.kept.congr hs) hh),
      hattr.then (attributed_aside (by simp))⟩

/-- Whatever the host calls is told event by event, and it is known whose doing each is. -/
theorem exists_played (ht : t.Sound) (hr : t.ReplaysStacks) (hk : Kept ledgers t)
    (calls : List HostCall) :
    ∃ events, Played t calls events ∧ Tells ledgers t (t.performAll calls) events ∧
      Attributed calls t.world.happenings events := by
  induction calls generalizing t ledgers with
  | nil => exact ⟨[], .nil t, tells_refl hk, attributed_nil ..⟩
  | cons call calls ih =>
    obtain ⟨found, hrun⟩ := perform_guarded ht call
    obtain ⟨events, hscenes, htells, hattr⟩ := hrun.scenes ht hr hk
    obtain ⟨more, hplayed, hmore, hattr'⟩ :=
      ih (hrun.sound ht) (hrun.runs.replaysStacks ht hr) htells.kept
    rw [htells.happenings] at hattr'
    exact ⟨_, .cons hscenes hplayed, htells.trans hmore, hattr.append hattr'⟩

omit [Node σ] in
theorem kept_make {g : Graph σ} {root : NodeId} {b : Blackboard} (h : make g root b = .ok t) :
    Kept (fun _ => {}) t := by
  obtain ⟨-, rfl⟩ := make_ok h
  refine ⟨fun label s hs => ?_, fun _ _ => rfl⟩
  cases label with
  | main =>
    cases hs
    exact ⟨rfl, by simp, by simp⟩
  | service => cases hs

end Tree

end BehaviorTree
