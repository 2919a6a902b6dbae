/-
What an operation does to a stack, mark by mark.

Marks say more than the happenings of the world: who called a node that came, and whether a
node that left had ended, and how, or was rolled back. A ledger is kept over them. It knows
who is owed the result of a child, and whether the stack is held: a node ended by its own
answer while stepping was on, and nobody has let the stack go on since. Every operation
makes marks that the ledger allows, and leaves a stack that fits it.
-/
import BehaviorTree.Proofs.Stack.Leads
import BehaviorTree.Proofs.Stack.Reachable

namespace BehaviorTree

/-- How a node ended that was on a stack. -/
structure Ending where
  node : NodeId
  ok : Bool
  /-- The node directly beneath. -/
  beneath : Option NodeId
  /-- The node itself answered so when it was turned to; otherwise it was ended from outside,
  or by its hook. -/
  answered : Bool
  /-- Stepping was on. -/
  stepping : Bool
deriving DecidableEq, Repr

inductive Mark where
  | called (node : NodeId) (call : Call)
  /-- The node came onto the stack, because `caller` called it or else as the head. -/
  | came (node : NodeId) (caller : Option NodeId)
  | ended (e : Ending)
  | rolledBack (node : NodeId)
  /-- The rollback is done, and what was on its way is dropped. -/
  | cleared
  | resumed
deriving DecidableEq, Repr

/-- What the world tells of a mark of the stack `label`. -/
def Mark.happenings (label : StackLabel) : Mark → List Happening
  | called node call => [.called node call]
  | came node _ => [.entered label node]
  | ended e => [.called e.node .stop, .left label e.node]
  | rolledBack node => [.called node .stop, .left label node]
  | cleared | resumed => []

/-! ## Ledgers -/

structure Ledger where
  /-- The node that is to be handed the result of its child, and the result. -/
  owed : Option (NodeId × Bool) := none
  held : Bool := false
deriving DecidableEq, Repr

namespace Ledger

def enter (l : Ledger) : Mark → Ledger
  | .called _ .execute | .called _ (.receive _) => { l with owed := none }
  | .ended e =>
    { owed := e.beneath.map (·, e.ok), held := l.held || (e.answered && e.stepping) }
  | .cleared => {}
  | .resumed => { l with held := false }
  | _ => l

def Allows (l : Ledger) : Mark → Prop
  | .called _ .bind | .called _ .execute | .called _ (.hook _) => l.owed = none ∧ l.held = false
  | .called node (.receive ok) => l.owed = some (node, ok)
  | .ended _ => l.owed = none
  | _ => True

def balance (l : Ledger) (marks : List Mark) : Ledger := marks.foldl enter l

/-- Every mark is allowed where it stands. -/
def Permits : Ledger → List Mark → Prop
  | _, [] => True
  | l, m :: marks => l.Allows m ∧ (l.enter m).Permits marks

variable {l : Ledger} {marks more : List Mark}

theorem balance_append : l.balance (marks ++ more) = (l.balance marks).balance more :=
  List.foldl_append ..

theorem permits_append : l.Permits (marks ++ more) ↔
    l.Permits marks ∧ (l.balance marks).Permits more := by
  induction marks generalizing l with
  | nil => simp [Permits, balance]
  | cons m marks ih => simp [Permits, ih, balance, and_assoc]

/-- The calls of a node that is executed. -/
theorem permits_execute {calls : List Call} (node : NodeId) (ho : l.owed = none)
    (hh : l.held = false)
    (hc : calls = [.bind] ∨ calls = [.bind, .execute] ∨ calls = [.execute]) :
    l.Permits (calls.map (.called node)) ∧ l.balance (calls.map (.called node)) = l := by
  obtain ⟨owed, held⟩ := l
  cases ho
  cases hh
  rcases hc with rfl | rfl | rfl <;> simp [Permits, Allows, balance, enter]

end Ledger

namespace Stack

/-! ## Marks -/

section MarkedActs

variable {σ : Type} [Node σ]

/-- The operation, begun in the world `v`, ends the top node with the outcome `ok`; in the
world `w` nothing has happened yet, but for the hook of the node. -/
def Operation.Ends (v : World σ) (top : NodeId) (w : World σ) (ok : Bool) : Operation → Prop
  | .receiveReturn ok' => ok' = ok ∧ w = v
  | .receiveStatus status => status.outcome = some ok ∧ w = v
  | .forwardHook phase =>
    ∃ status : Status, v.hook top phase = (w, .ok (some (.ended status))) ∧
      status.outcome = some ok
  | _ => False

/-- One thing that the operation `op`, begun on the stack `s` in the world `v`, does to the
nodes of the stack, the top first, and to the world. A node that was just turned to may call
a child or end; what it answered is what took the world to where it is. -/
inductive MarkedAct (s : Stack) (v : World σ) (op : Operation) :
    List NodeId × World σ → List Mark → List NodeId × World σ → Prop
  | quiet {ns w w'} (hf : w.Frame w') (hh : w'.happenings = w.happenings) :
      MarkedAct s v op (ns, w) [] (ns, w')
  | turned {top rest w w' d} (result : Option Bool) {calls : List Call}
      (h : w.turn top result = .ok (w', d))
      (hh : w'.happenings = w.happenings ++ calls.map (.called top)) :
      MarkedAct s v op (top :: rest, w) (calls.map (.called top)) (top :: rest, w')
  | hooked {top rest} {phase : Phase} {calls : List Call} (h : op = .forwardHook phase)
      (hh : (v.hook top phase).1.happenings = v.happenings ++ calls.map (.called top)) :
      MarkedAct s v op (top :: rest, v) (calls.map (.called top))
        (top :: rest, (v.hook top phase).1)
  | head {w id} (h : op.Heads id) (hc : w.graph.contains id) :
      MarkedAct s v op ([], w) [.came id none] ([id], w.entered s.label id 1)
  | called {caller rest w child}
      (h : ∃ (w₀ : World σ) (result : Option Bool),
        w₀.turn caller result = .ok (w, .answered .noReturn [child]))
      (hc : w.graph.contains child) (hn : child ∉ caller :: rest) :
      MarkedAct s v op (caller :: rest, w) [.came child (some caller)]
        (child :: caller :: rest, w.entered s.label child (rest.length + 2))
  | answered {top rest w w' ok}
      (h : ∃ (w₀ : World σ) (result : Option Bool) (status : Status),
        w₀.turn top result = .ok (w, .answered status []) ∧ status.outcome = some ok)
      (hs : w.stop top = .ok w') :
      MarkedAct s v op (top :: rest, w)
        [.ended ⟨top, ok, rest.head?, true, s.pauseAfterSingleExecution⟩]
        (rest, w'.left s.label top rest.length)
  | ended {top rest w w' ok} (h : op.Ends v top w ok) (hs : w.stop top = .ok w') :
      MarkedAct s v op (top :: rest, w)
        [.ended ⟨top, ok, rest.head?, false, s.pauseAfterSingleExecution⟩]
        (rest, w'.left s.label top rest.length)
  | rolledBack {top rest w w'} (h : op.rollsBack) (hw : w.interrupt top = .ok w') :
      MarkedAct s v op (top :: rest, w) [.rolledBack top] (rest, w'.left s.label top rest.length)
  | cleared {x} (h : op.rollsBack) : MarkedAct s v op x [.cleared] x
  | resumed {x} (h : op = .resume) : MarkedAct s v op x [.resumed] x

/-- Any number of such acts. -/
inductive MarkedActs (s : Stack) (v : World σ) (op : Operation) :
    List NodeId × World σ → List Mark → List NodeId × World σ → Prop
  | refl (x : List NodeId × World σ) : MarkedActs s v op x [] x
  | tail {x y z : List NodeId × World σ} {marks new : List Mark} (h : MarkedActs s v op x marks y)
      (hb : MarkedAct s v op y new z) : MarkedActs s v op x (marks ++ new) z

variable {s : Stack} {v : World σ} {op : Operation} {x y z : List NodeId × World σ}
  {marks new : List Mark}

theorem MarkedAct.acts (h : MarkedAct s v op x marks y) : MarkedActs s v op x marks y :=
  .tail (.refl x) h

theorem MarkedActs.trans (h : MarkedActs s v op x marks y) (h' : MarkedActs s v op y new z) :
    MarkedActs s v op x (marks ++ new) z := by
  induction h' with
  | refl => simpa using h
  | tail _ hb ih =>
    rw [← List.append_assoc]
    exact ih.tail hb

theorem MarkedActs.quiet {ns : List NodeId} {w w' : World σ} (hf : w.Frame w')
    (hh : w'.happenings = w.happenings) : MarkedActs s v op (ns, w) [] (ns, w') :=
  (MarkedAct.quiet hf hh).acts

/-- What is only traced is no mark. -/
theorem MarkedActs.trace {ns : List NodeId} (w : World σ) {tag : String} (h : IsQuiet tag)
    (label : StackLabel) (node : Option NodeId) (value : Int) :
    MarkedActs s v op (ns, w) [] (ns, w.trace tag label node value) :=
  .quiet (World.Keeps.trace ..).toFrame (World.happenings_trace w h ..)

/-- The happenings are those that the marks tell of. -/
theorem MarkedAct.happenings (h : MarkedAct s v op x marks y) :
    y.2.happenings = x.2.happenings ++ marks.flatMap (Mark.happenings s.label) := by
  have hcalls : ∀ (n : NodeId) (calls : List Call),
      (calls.map (Mark.called n)).flatMap (Mark.happenings s.label)
        = calls.map (Happening.called n) := by
    intro n calls
    induction calls with
    | nil => rfl
    | cons c calls ih => simp [Mark.happenings, ih]
  cases h with
  | quiet _ hh => simpa using hh
  | turned _ _ hh | hooked _ hh => rw [hcalls]; exact hh
  | head | called => simp [Mark.happenings]
  | answered _ hs | ended _ hs => simp [Mark.happenings, World.happenings_stop hs]
  | rolledBack _ hw => simp [Mark.happenings, World.happenings_interrupt hw]
  | cleared | resumed => simp [Mark.happenings]

theorem MarkedActs.happenings (h : MarkedActs s v op x marks y) :
    y.2.happenings = x.2.happenings ++ marks.flatMap (Mark.happenings s.label) := by
  induction h with
  | refl => simp
  | tail _ hb ih => rw [hb.happenings, ih, List.flatMap_append, List.append_assoc]

end MarkedActs

/-! ## Stacks and their ledgers -/

/-- The top node is to be handed the result that is on its way. -/
def debt (s : Stack) : Option (NodeId × Bool) := s.top?.bind fun top => s.result.map (top, ·)

theorem debt_of_none {s : Stack} (h : s.result = none) : s.debt = none := by
  cases ht : s.top? <;> simp [debt, h, ht]

/-- The stack is as the ledger says. -/
structure Fits (l : Ledger) (s : Stack) : Prop where
  owed : l.owed = s.debt
  held : l.held → s.paused
  pending : s.result.isSome ↔ s.state = .receiving

/-- The node that was turned to last is not turned to again: if it is still on top, then the
stack is paused. -/
def Turns (s : Stack) : Prop :=
  ∀ n, s.last = some n → s.top? = some n → s.paused ∧ s.state ≠ .receiving

variable {l : Ledger} {s s' : Stack}

theorem Fits.result (h : Fits l s) (hs : s.state ≠ .receiving) : s.result = none := by
  have hp := h.pending
  cases hr : s.result with
  | none => rfl
  | some ok => exact absurd (hp.1 (by simp [hr])) hs

theorem Fits.of_none (ho : l.owed = none) (hh : l.held → s.paused) (hr : s.result = none)
    (hs : s.state ≠ .receiving) : Fits l s :=
  ⟨by rw [ho, debt_of_none hr], hh, by simp [hr, hs]⟩

/-- Whatever the ledger says, nothing is owed to a stack that does not receive. -/
theorem Fits.owed_none (h : Fits l s) (hs : s.state ≠ .receiving) : l.owed = none := by
  rw [h.owed, debt_of_none (h.result hs)]

theorem Fits.not_held (h : Fits l s) (hp : s.paused = false) : l.held = false := by
  simpa [hp] using h.held

theorem ne_receiving_of_isWaiting (h : s.isWaiting) : s.state ≠ .receiving := by
  intro hs
  simp [isWaiting, StackState.isWaiting, hs] at h

theorem Fits.congr (h : Fits l s) (hn : s'.nodes = s.nodes) (hr : s'.result = s.result)
    (hp : s'.paused = s.paused) (hs : s'.state = .receiving ↔ s.state = .receiving) :
    Fits l s' := by
  refine ⟨?_, by rw [hp]; exact h.held, by rw [hr, hs]; exact h.pending⟩
  rw [h.owed, debt, debt, top?, top?, hn, hr]

variable {σ : Type} [Node σ] {w w' : World σ} {top : NodeId} {rest : List NodeId} {s₀ : Stack}
  {v₀ : World σ} {op : Operation} {marks : List Mark}

/-- What is left of a stack on which a rule was found broken. -/
def broken (s : Stack) : Stack := { s with state := .invalid, result := none }

/-- A part of the operation `op` on the stack `s₀` is told by the marks, and the ledger
allows them. -/
structure MarkedPass (s₀ : Stack) (v₀ : World σ) (op : Operation) (l : Ledger) (s : Stack)
    (w : World σ) (p : Pass σ Stack) (marks : List Mark) : Prop where
  acts : MarkedActs s₀ v₀ op (s.nodes, w) marks (p.after.nodes, p.world)
  permits : l.Permits marks
  label : p.after.label = s.label
  stepping : p.after.pauseAfterSingleExecution = s.pauseAfterSingleExecution

theorem MarkedPass.trans {p q : Pass σ Stack} {new : List Mark}
    (h : MarkedPass s₀ v₀ op l s w p marks)
    (h' : MarkedPass s₀ v₀ op (l.balance marks) p.after p.world q new) :
    MarkedPass s₀ v₀ op l s w q (marks ++ new) :=
  ⟨h.acts.trans h'.acts, Ledger.permits_append.2 ⟨h.permits, h'.permits⟩,
    h'.label.trans h.label, h'.stepping.trans h.stepping⟩

/-- The marks do not tell of the rest of the stack. -/
theorem MarkedPass.of_stack {p : Pass σ Stack} (h : MarkedPass s₀ v₀ op l s' w p marks)
    (hn : s'.nodes = s.nodes) (hl : s'.label = s.label)
    (hs : s'.pauseAfterSingleExecution = s.pauseAfterSingleExecution) :
    MarkedPass s₀ v₀ op l s w p marks :=
  ⟨hn ▸ h.acts, h.permits, h.label.trans hl, h.stepping.trans hs⟩

/-- Nothing is told. -/
theorem marked_quiet {fault : Option StackError} (hn : s'.nodes = s.nodes)
    (hl : s'.label = s.label)
    (hs : s'.pauseAfterSingleExecution = s.pauseAfterSingleExecution) (hf : w.Frame w')
    (hh : w'.happenings = w.happenings) : MarkedPass s₀ v₀ op l s w ⟨s', w', fault⟩ [] :=
  ⟨by rw [hn]; exact .quiet hf hh, trivial, hl, hs⟩

theorem marked_refl {fault : Option StackError} (hn : s'.nodes = s.nodes) (hl : s'.label = s.label)
    (hs : s'.pauseAfterSingleExecution = s.pauseAfterSingleExecution) :
    MarkedPass s₀ v₀ op l s w ⟨s', w, fault⟩ [] :=
  marked_quiet hn hl hs (.refl w) rfl

theorem marked_trace {fault : Option StackError} {tag : String} (h : IsQuiet tag)
    (label : StackLabel) (node : Option NodeId) (value : Int) (hn : s'.nodes = s.nodes)
    (hl : s'.label = s.label)
    (hs : s'.pauseAfterSingleExecution = s.pauseAfterSingleExecution) :
    MarkedPass s₀ v₀ op l s w ⟨s', w.trace tag label node value, fault⟩ [] :=
  marked_quiet hn hl hs (World.Keeps.trace ..).toFrame (World.happenings_trace w h ..)

theorem errorResult_marked (s : Stack) (w : World σ) (node : NodeId) (message : String) :
    MarkedPass s₀ v₀ op l s w (s.errorResult w node message) [] := by
  have hm : Made (fun _ => False) s w (s.errorResult w node message) := errorResult_made ..
  refine marked_quiet rfl rfl rfl hm.acts.frame ?_
  rw [World.happenings_trace _ (by decide)]
  simp [World.report, World.warn, Record.happening?]

theorem bindFailed_marked (s : Stack) (w : World σ) (node : NodeId) (e : VariableError) :
    MarkedPass s₀ v₀ op l s w (s.bindFailed w node e) [] := by
  have hm : Made (fun _ => False) s w (s.bindFailed w node e) := bindFailed_made ..
  refine marked_quiet rfl rfl rfl hm.acts.frame ?_
  rw [World.happenings_trace _ (by decide)]
  simp [World.report, World.warn, Record.happening?]

theorem exhausted_marked (s : Stack) (w : World σ) (node : NodeId) :
    MarkedPass s₀ v₀ op l s w (s.exhausted w node) [] := by
  have hm : Made (fun _ => False) s w (s.exhausted w node) := exhausted_made ..
  refine marked_quiet rfl rfl rfl hm.acts.frame ?_
  simp [World.report, World.warn, Record.happening?]

theorem invalidate_marked (s : Stack) (w : World σ) (e : StackError) :
    MarkedPass s₀ v₀ op l s w (s.invalidate w e) [] := by
  have hm : Made (fun _ => False) s w (s.invalidate w e) := invalidate_made ..
  refine marked_quiet rfl rfl rfl hm.acts.frame ?_
  rw [World.happenings_trace _ (by decide)]
  simp [World.warn, Record.happening?]

theorem finish_marked (w : World σ) (hn : s.nodes = []) :
    MarkedPass s₀ v₀ op l s w (s.finish w) [] := by
  have hm : Made (fun _ => False) s w (s.finish w) := finish_made w hn
  refine marked_quiet rfl rfl rfl hm.acts.frame ?_
  exact World.happenings_trace w (by decide) ..

/-! ## A turn, and what comes of it -/

theorem complete_eq (ok : Bool) (hn : s.nodes = top :: rest) (hw : w.stop top = .ok w') :
    s.complete w top ok
      = ⟨{ s with nodes := rest, state := .receiving, result := some ok },
        (w'.left s.label top rest.length).trace "bt.stack.receive" s.label top
          (if ok then 1 else 0), none⟩ := by
  simp [complete, hw, pop, hn]

/-- The top node leaves, ended in one way or the other. -/
theorem complete_marked {ok answered : Bool} (hn : s.nodes = top :: rest)
    (hw : w.stop top = .ok w')
    (hb : MarkedAct s₀ v₀ op (top :: rest, w)
      [.ended ⟨top, ok, rest.head?, answered, s₀.pauseAfterSingleExecution⟩]
      (rest, w'.left s₀.label top rest.length))
    (hlabel : s.label = s₀.label) (ho : l.owed = none) :
    MarkedPass s₀ v₀ op l s w (s.complete w top ok)
      [.ended ⟨top, ok, rest.head?, answered, s₀.pauseAfterSingleExecution⟩] := by
  rw [complete_eq ok hn hw]
  refine ⟨?_, ⟨ho, trivial⟩, rfl, rfl⟩
  rw [hn, hlabel]
  exact hb.acts.trans (.trace _ (by decide) ..)

/-- What a step leaves for the rest of the pass. -/
structure Onward (l : Ledger) (p : Pass σ Stack) : Prop where
  fits : p.fault = none → Fits l p.after.moveOn
  turns : p.fault = none → p.after.rests = false → p.after.moveOn.Turns
  broken : p.fault ≠ none → Fits l p.after.broken

omit [Node σ] in
/-- A rule was found broken, with nothing on its way. -/
theorem onward_of_fault {e : StackError} (ho : l.owed = none) (hh : l.held → s.paused) :
    Onward l (⟨s, w, some e⟩ : Pass σ Stack) :=
  ⟨by simp, by simp, fun _ => .of_none ho hh rfl (by simp [Stack.broken])⟩

omit [Node σ] in
/-- The top node rests, or the stack is halted. -/
theorem onward_of_none (ho : l.owed = none) (hh : l.held → s.paused) (hr : s.result = none)
    (hs : s.state ≠ .receiving) (hp : s.rests ∨ s.paused) :
    Onward l (⟨s, w, none⟩ : Pass σ Stack) := by
  refine ⟨fun _ => .of_none ho (fun h => ?_) hr hs, fun _ hrests n _ _ => ⟨?_, hs⟩, by simp⟩
  · simp [moveOn, hh h]
  · rcases hp with hp | hp
    · rw [hp] at hrests
      cases hrests
    · simp [moveOn, hp]

variable {d : Dispatch} {result : Option Bool} {w₀ : World σ} (s₀ v₀ op)

theorem settleStatus_marked {status : Status}
    (hturn : w₀.turn top result = .ok (w, .answered status [])) (hn : s.nodes = top :: rest)
    (hcur : s.current = some top) (hlabel : s.label = s₀.label)
    (hstep : s.pauseAfterSingleExecution = s₀.pauseAfterSingleExecution)
    (hp : Placed (s.nodes, w)) (ho : l.owed = none) (hh : l.held → s.paused) :
    ∃ marks, MarkedPass s₀ v₀ op l s w (s.settleStatus w top status) marks ∧
      Onward (l.balance marks) (s.settleStatus w top status) := by
  have hended : ∀ ok, status.outcome = some ok → ∃ marks,
      MarkedPass s₀ v₀ op l s w (s.complete w top ok) marks ∧
        Onward (l.balance marks) (s.complete w top ok) := by
    intro ok hok
    rw [hn] at hp
    obtain ⟨w', hw⟩ := World.exists_stop (hp.2 top List.mem_cons_self)
    refine ⟨_, complete_marked hn hw (.answered ⟨w₀, result, status, hturn, hok⟩ hw) hlabel ho, ?_⟩
    rw [complete_eq ok hn hw]
    refine ⟨fun _ => ⟨?_, ?_, ?_⟩, fun _ _ n hlast htop => ?_, fun h => absurd rfl h⟩
    · cases rest <;> rfl
    · intro h
      simp only [Ledger.balance, List.foldl_cons, List.foldl_nil, Ledger.enter, Bool.true_and,
        Bool.or_eq_true] at h
      simp only [moveOn, hstep, decide_true, Bool.true_and, Bool.or_eq_true]
      exact h.imp_left hh
    · simp [moveOn]
    · -- The node beneath is another one.
      obtain rfl : top = n := by simpa [moveOn, hcur] using hlast
      have hmem : top ∈ rest := List.mem_of_mem_head? htop
      exact absurd hmem (List.nodup_cons.1 hp.1).1
  cases status with
  | noReturn =>
    refine ⟨[], ?_, ?_⟩
    all_goals
      simp only [settleStatus, top?, hn, List.head?_cons, if_true]
    · exact marked_refl rfl rfl rfl
    · exact onward_of_fault ho hh
  | success => exact hended true rfl
  | failed => exact hended false rfl
  | wait =>
    exact ⟨[], marked_trace (by decide) _ _ _ rfl rfl rfl,
      onward_of_none ho hh rfl (by simp) (.inl rfl)⟩
  | waitUntilNextUpdate =>
    exact ⟨[], marked_trace (by decide) _ _ _ rfl rfl rfl,
      onward_of_none ho hh rfl (by simp) (.inl rfl)⟩
  | error =>
    exact ⟨[], errorResult_marked ..,
      onward_of_none ho (fun _ => rfl) rfl (by simp [halt]) (.inr rfl)⟩

theorem apply_marked (hturn : w₀.turn top result = .ok (w, d)) (hn : s.nodes = top :: rest)
    (hcur : s.current = some top) (hres : s.result = none) (hlabel : s.label = s₀.label)
    (hstep : s.pauseAfterSingleExecution = s₀.pauseAfterSingleExecution)
    (hp : Placed (s.nodes, w)) (ho : l.owed = none) (hh : l.held → s.paused) :
    ∃ marks, MarkedPass s₀ v₀ op l s w (s.apply w top d) marks ∧
      Onward (l.balance marks) (s.apply w top d) := by
  have hrefused : ∀ e : StackError, ∃ marks,
      MarkedPass s₀ v₀ op l s w ⟨s, w, some e⟩ marks ∧ Onward (l.balance marks) ⟨s, w, some e⟩ :=
    fun e => ⟨[], marked_refl rfl rfl rfl, onward_of_fault ho hh⟩
  match d with
  | .bindFailed e =>
    exact ⟨[], bindFailed_marked ..,
      onward_of_none ho (fun _ => rfl) rfl (by simp [halt]) (.inr rfl)⟩
  | .answered status [] =>
    exact settleStatus_marked s₀ v₀ op hturn hn hcur hlabel hstep hp ho hh
  | .answered _ (_ :: _ :: _) => exact hrefused _
  | .answered status [child] =>
    simp only [apply, call]
    split
    · exact hrefused _
    split
    · exact hrefused _
    split
    · exact hrefused _
    next hst hknown hfree =>
    simp only [ne_eq, Decidable.not_not] at hst
    subst hst
    have hmem : child ∉ top :: rest := by simpa [Stack.contains, hn] using hfree
    have hcalled : MarkedAct s₀ v₀ op (top :: rest, w) [.came child (some top)]
        (child :: top :: rest, w.entered s₀.label child (rest.length + 2)) :=
      .called ⟨w₀, result, hturn⟩ (by simpa using hknown) hmem
    have htop : child ≠ top := fun he => hmem (by simp [he])
    rw [settleStatus_noReturn (by simpa [push, top?] using htop)]
    refine ⟨[.came child (some top)], ⟨?_, ⟨trivial, trivial⟩, rfl, rfl⟩, fun _ => ?_,
      fun _ _ n hlast hnext => ?_, fun h => absurd rfl h⟩
    · simp only [push, depth, hn, hlabel]
      exact hcalled.acts
    · refine .of_none ho (fun h => ?_) hres (by simp [moveOn])
      simp [moveOn, push, hh h]
    · obtain rfl : top = n := by simpa [moveOn, push, hcur] using hlast
      exact absurd (by simpa [moveOn, push, top?] using hnext) htop

/-- The top node is turned to, and then comes what comes of it. -/
theorem turn_marked (s₁ : Stack) {w₁ : World σ} (result : Option Bool) (calls : List Call)
    (hturn : w.turn top result = .ok (w₁, d)) (hk : w.Keeps w₁)
    (hh : w₁.happenings = w.happenings ++ calls.map (.called top))
    (hpermits : l.Permits (calls.map (.called top)))
    (ho : (l.balance (calls.map (.called top))).owed = none)
    (hheld : (l.balance (calls.map (.called top))).held → s₁.paused)
    (hn : s₁.nodes = top :: rest) (hcur : s₁.current = some top) (hres : s₁.result = none)
    (hlabel : s₁.label = s₀.label)
    (hstep : s₁.pauseAfterSingleExecution = s₀.pauseAfterSingleExecution)
    (hp : Placed (s₁.nodes, w)) :
    ∃ marks, MarkedPass s₀ v₀ op l s₁ w (s₁.apply w₁ top d) marks ∧
      Onward (l.balance marks) (s₁.apply w₁ top d) := by
  have hp₁ : Placed (s₁.nodes, w₁) :=
    ⟨hp.1, fun n hm => by rw [hk.graph.contains]; exact hp.2 n hm⟩
  obtain ⟨marks, hmarked, hon⟩ := apply_marked s₀ v₀ op hturn hn hcur hres hlabel hstep hp₁ ho hheld
  have hturned : MarkedPass s₀ v₀ op l s₁ w ⟨s₁, w₁, none⟩ (calls.map (.called top)) := by
    refine ⟨?_, hpermits, rfl, rfl⟩
    rw [hn]
    exact (MarkedAct.turned result hturn hh).acts
  exact ⟨_, hturned.trans hmarked, by rwa [Ledger.balance_append]⟩

/-- A step that a pass takes. -/
theorem step_marked (hfits : Fits l s) (hturns : s.Turns)
    (hgo : s.paused = false ∨ s.state = .receiving)
    (hn : s.nodes = top :: rest) (hlabel : s.label = s₀.label)
    (hstep : s.pauseAfterSingleExecution = s₀.pauseAfterSingleExecution)
    (hp : Placed (s.nodes, w)) :
    ∃ marks, MarkedPass s₀ v₀ op l s w (s.step w top) marks ∧
      Onward (l.balance marks) (s.step w top) := by
  have hknown : w.graph.contains top := hp.2 top (by simp [hn])
  have hlast : s.last ≠ some top := by
    intro hl
    obtain ⟨hpaused, hst⟩ := hturns top hl (by simp [top?, hn])
    rcases hgo with hgo | hgo
    · rw [hpaused] at hgo
      cases hgo
    · exact hst hgo
  unfold step
  simp only [if_neg hlast]
  split
  · next hst =>
    obtain ⟨ok, hok⟩ := Option.isSome_iff_exists.1 (hfits.pending.2 hst)
    obtain ⟨w₁, d, hw⟩ := World.exists_receive hknown ok
    simp only [hok, hw]
    have howed : l.owed = some (top, ok) := by
      rw [hfits.owed]
      simp [debt, top?, hn, hok]
    obtain ⟨marks, hmarked, hon⟩ := turn_marked s₀ v₀ op
      { s with current := some top, result := none } (some ok) [.receive ok] hw
      (World.receive_keeps hw) (World.happenings_receive hw) ⟨howed, trivial⟩ rfl hfits.held hn rfl
      rfl hlabel hstep hp
    exact ⟨marks, hmarked.of_stack rfl rfl rfl, hon⟩
  · next hst =>
    have hpaused : s.paused = false := hgo.resolve_right hst
    have hheld : l.held = false := hfits.not_held hpaused
    obtain ⟨w₁, d, hw⟩ := World.exists_execute hknown
    obtain ⟨calls, hcalls, hkind⟩ := World.happenings_execute hw
    obtain ⟨hpermits, hbal⟩ := Ledger.permits_execute top (hfits.owed_none hst) hheld hkind
    simp only [hw]
    obtain ⟨marks, hmarked, hon⟩ := turn_marked s₀ v₀ op
      { s with current := some top, state := .calling } none calls hw (World.execute_keeps hw)
      hcalls hpermits (by rw [hbal]; exact hfits.owed_none hst) (by rw [hbal]; exact hfits.held) hn
      rfl (hfits.result hst) hlabel hstep hp
    exact ⟨marks, hmarked.of_stack rfl rfl rfl, hon⟩

/-! ## Passes -/

omit [Node σ] in
/-- A stack that rests has nothing more coming. -/
theorem Fits.of_moveOn (h : Fits l s.moveOn) (hr : s.rests) : Fits l s := by
  have hst : s.state ≠ .receiving := by
    intro hs
    simp [rests, isWaiting, StackState.isWaiting, hs] at hr
  exact h.congr rfl rfl (by simp [moveOn, hst]) .rfl

/-- What a pass leaves. -/
structure Passed (l : Ledger) (p : Pass σ Stack) : Prop where
  fits : p.fault = none → Fits l p.after
  broken : p.fault ≠ none → Fits l p.after.broken

omit [Node σ] in
theorem passed_of_fits (h : Fits l s) : Passed l (⟨s, w, none⟩ : Pass σ Stack) :=
  ⟨fun _ => h, fun hf => absurd rfl hf⟩

omit [Node σ] in
theorem passed_of_fault {e : StackError} (h : Fits l s) (hs : s.state ≠ .receiving) :
    Passed l (⟨s, w, some e⟩ : Pass σ Stack) :=
  ⟨by simp, fun _ => .of_none (h.owed_none hs) h.held rfl (by simp [Stack.broken])⟩

theorem drive_marked (budget : Nat) (hfits : Fits l s) (hturns : s.Turns)
    (hlabel : s.label = s₀.label)
    (hstep : s.pauseAfterSingleExecution = s₀.pauseAfterSingleExecution)
    (hp : Placed (s.nodes, w)) :
    ∃ marks, MarkedPass s₀ v₀ op l s w (drive budget s w) marks ∧
      Passed (l.balance marks) (drive budget s w) := by
  induction budget generalizing l s w with
  | zero =>
    rw [drive]
    split
    · exact ⟨[], marked_refl rfl rfl rfl, passed_of_fits hfits⟩
    split
    · exact ⟨[], marked_refl rfl rfl rfl, passed_of_fits hfits⟩
    split
    · next hst =>
      exact ⟨[], marked_refl rfl rfl rfl, passed_of_fault hfits (by simp [hst])⟩
    · exact ⟨[], exhausted_marked .., passed_of_fits ⟨hfits.owed, fun _ => rfl, hfits.pending⟩⟩
  | succ budget ih =>
    rw [drive]
    split
    · exact ⟨[], marked_refl rfl rfl rfl, passed_of_fits hfits⟩
    next top rest hn =>
    split
    · exact ⟨[], marked_refl rfl rfl rfl, passed_of_fits hfits⟩
    next hgo =>
    split
    · next hst =>
      exact ⟨[], marked_refl rfl rfl rfl, passed_of_fault hfits (by simp [hst])⟩
    have hgo : s.paused = false ∨ s.state = .receiving := by
      by_cases hst : s.state = .receiving
      · exact .inr hst
      · exact .inl (by simp_all)
    obtain ⟨marks, hmarked, hon⟩ := step_marked s₀ v₀ op hfits hturns hgo hn hlabel hstep hp
    have hplaced : Placed ((s.step w top).after.nodes, (s.step w top).world) := by
      have hm : Made (fun _ => False) s w (s.step w top) := step_made w hn
      exact hm.acts.placed hp
    simp only
    generalize s.step w top = p at hmarked hon hplaced ⊢
    split
    · next hend =>
      refine ⟨marks, hmarked, fun hf => (hon.fits hf).of_moveOn ?_, hon.broken⟩
      simpa [hf] using hend
    · next hend =>
      simp only [Bool.or_eq_true, not_or, Bool.not_eq_true, Option.isSome_eq_false_iff,
        Option.isNone_iff_eq_none] at hend
      obtain ⟨more, hmore, hpassed⟩ := ih (hon.fits hend.1) (hon.turns hend.1 hend.2)
        (hmarked.label.trans hlabel) (hmarked.stepping.trans hstep) hplaced
      exact ⟨_, hmarked.trans (hmore.of_stack rfl rfl rfl), by rwa [Ledger.balance_append]⟩

/-- A pass, from any stack that fits its ledger. -/
theorem run_marked (hfits : Fits l s) (hlabel : s.label = s₀.label)
    (hstep : s.pauseAfterSingleExecution = s₀.pauseAfterSingleExecution)
    (hp : Placed (s.nodes, w)) :
    ∃ marks, MarkedPass s₀ v₀ op l s w (s.run w) marks ∧
      Fits (l.balance marks) (s.run w).after := by
  have hlast : Fits l { s with last := none } := hfits.congr rfl rfl rfl .rfl
  obtain ⟨marks, hmarked, hpassed⟩ := drive_marked s₀ v₀ op s.stepBudget hlast
    (fun n hl => by cases hl) hlabel hstep hp
  rw [run_eq]
  generalize drive s.stepBudget { s with last := none } w = p at hmarked hpassed ⊢
  obtain ⟨after, world, fault⟩ := p
  have hdone : MarkedPass s₀ v₀ op l s w ⟨{ after with current := none }, world, none⟩ marks :=
    ⟨hmarked.acts, hmarked.permits, hmarked.label, hmarked.stepping⟩
  have hend : ∀ q : Pass σ Stack,
      MarkedPass s₀ v₀ op (l.balance marks) { after with current := none } world q [] →
      MarkedPass s₀ v₀ op l s w q marks := by
    intro q hq
    simpa using hdone.trans hq
  cases fault with
  | some e =>
    exact ⟨marks, hend _ (invalidate_marked ..),
      (hpassed.broken (by simp)).congr rfl rfl rfl .rfl⟩
  | none =>
    have hfits := hpassed.fits rfl
    simp only [conclude]
    split
    · next hempty =>
      have hnil : after.nodes = [] := by
        simp only [isEmpty, Bool.and_eq_true, List.isEmpty_iff] at hempty
        exact hempty.1
      have howed : (l.balance marks).owed = none := by
        rw [hfits.owed]
        simp [debt, top?, hnil]
      exact ⟨marks, hend _ (finish_marked world hnil),
        .of_none howed hfits.held rfl (by simp [finish])⟩
    · exact ⟨marks, hdone, hfits.congr rfl rfl rfl .rfl⟩

/-! ## Operations -/

/-- A stack that nothing was done to. -/
theorem exists_marked_refl {fault : Option StackError} (h : Fits l s) :
    ∃ marks, MarkedPass s₀ v₀ op l s w ⟨s, w, fault⟩ marks ∧ Fits (l.balance marks) s :=
  ⟨[], marked_refl rfl rfl rfl, h⟩

theorem start_marked {head : NodeId} (hop : op.Heads head) (hfits : Fits l s)
    (hlabel : s.label = s₀.label)
    (hstep : s.pauseAfterSingleExecution = s₀.pauseAfterSingleExecution) :
    ∃ marks, MarkedPass s₀ v₀ op l s w (s.start w head) marks ∧
      Fits (l.balance marks) (s.start w head).after := by
  unfold start
  split
  · exact exists_marked_refl _ _ _ hfits
  next hready =>
  split
  · exact exists_marked_refl _ _ _ hfits
  next hknown =>
  simp only [isEmpty, Bool.or_eq_true, Bool.not_eq_true', not_or, List.isEmpty_eq_false_iff,
    ne_eq, Decidable.not_not, decide_not, decide_eq_false_iff_not] at hready
  obtain ⟨⟨hst, hnil⟩, -⟩ := hready
  have hne : s.state ≠ .receiving := by simp [hst]
  have hknown : w.graph.contains head := by simpa using hknown
  let s₁ : Stack := { s with result := none, parkedAt := none, nodes := [head] }
  have hpush : ({ s with result := none, parkedAt := none } : Stack).push w head
      = ⟨s₁, w.entered s₀.label head 1, none⟩ := by
    simp [push, depth, hnil, hlabel, s₁]
  have hfits₁ : Fits l s₁ := .of_none (hfits.owed_none hne) hfits.held rfl hne
  obtain ⟨marks, hmarked, hend⟩ := run_marked s₀ v₀ op (w := w.entered s₀.label head 1)
    hfits₁ hlabel hstep ⟨by simp [s₁], fun n hm => by rwa [List.mem_singleton.1 hm]⟩
  have hcame : MarkedPass s₀ v₀ op l s w ⟨s₁, w.entered s₀.label head 1, none⟩
      [.came head none] := by
    refine ⟨?_, ⟨trivial, trivial⟩, rfl, rfl⟩
    rw [hnil]
    exact (MarkedAct.head hop hknown).acts
  rw [hpush]
  exact ⟨_, hcame.trans hmarked, hend⟩

theorem restart_marked {head : NodeId} (hop : op.Heads head) (hfits : Fits l s)
    (hlabel : s.label = s₀.label)
    (hstep : s.pauseAfterSingleExecution = s₀.pauseAfterSingleExecution) :
    ∃ marks, MarkedPass s₀ v₀ op l s w (s.restart w head) marks ∧
      Fits (l.balance marks) (s.restart w head).after := by
  unfold restart
  split
  · next hst =>
    have hready : Fits l { s with state := .ready } := hfits.congr rfl rfl rfl (by simp [hst])
    obtain ⟨marks, hmarked, hend⟩ := start_marked s₀ v₀ op (w := w) hop hready hlabel hstep
    exact ⟨marks, hmarked.of_stack rfl rfl rfl, hend⟩
  · exact start_marked s₀ v₀ op hop hfits hlabel hstep

/-- A stack whose update has come is driven on. -/
theorem resumeNextUpdate_marked (hfits : Fits l s) (hlabel : s.label = s₀.label)
    (hstep : s.pauseAfterSingleExecution = s₀.pauseAfterSingleExecution)
    (hp : Placed (s.nodes, w)) :
    ∃ marks, MarkedPass s₀ v₀ op l s w (s.resumeNextUpdate w).1 marks ∧
      Fits (l.balance marks) (s.resumeNextUpdate w).1.after := by
  unfold resumeNextUpdate
  split
  · next hdue =>
    have hst : s.state = .waitUntilNextUpdate := by
      simp only [isDue, Bool.and_eq_true, decide_eq_true_eq] at hdue
      exact hdue.1.1
    have hcalling : Fits l { s with parkedAt := none, state := .calling } :=
      hfits.congr rfl rfl rfl (by simp [hst])
    obtain ⟨marks, hmarked, hend⟩ := run_marked s₀ v₀ op hcalling hlabel hstep hp
    exact ⟨marks, hmarked.of_stack rfl rfl rfl, hend⟩
  · exact exists_marked_refl _ _ _ hfits

/-- The suspended node is ended from outside, and the stack is driven on. -/
theorem receiveReturn_marked {ok : Bool}
    (hop : ∀ top, s.suspended? = some top → op.Ends v₀ top w ok) (hfits : Fits l s)
    (hlabel : s.label = s₀.label)
    (hstep : s.pauseAfterSingleExecution = s₀.pauseAfterSingleExecution)
    (hp : Placed (s.nodes, w)) :
    ∃ marks, MarkedPass s₀ v₀ op l s w (s.receiveReturn w ok) marks ∧
      Fits (l.balance marks) (s.receiveReturn w ok).after := by
  unfold receiveReturn
  split
  · exact exists_marked_refl _ _ _ hfits
  next top hsus =>
  obtain ⟨hwait, rest, hn⟩ := suspended?_eq_some hsus
  have hne : s.state ≠ .receiving := ne_receiving_of_isWaiting hwait
  obtain ⟨w', hw⟩ := World.exists_stop (hp.2 top (by simp [hn]))
  have hmarkedAct : MarkedAct s₀ v₀ op (top :: rest, w)
      [.ended ⟨top, ok, rest.head?, false, s₀.pauseAfterSingleExecution⟩]
      (rest, w'.left s₀.label top rest.length) := .ended (hop top hsus) hw
  have hended := complete_marked hn hw hmarkedAct hlabel (hfits.owed_none hne)
  have hmade : Made (fun _ => False) s w (s.complete w top ok) := complete_made w ok hn
  have hplaced := hmade.acts.placed hp
  rw [complete_eq ok hn hw] at hended hplaced ⊢
  have hfits₁ : Fits (l.balance [.ended ⟨top, ok, rest.head?, false, s₀.pauseAfterSingleExecution⟩])
      { s with nodes := rest, state := .receiving, result := some ok, parkedAt := none } := by
    refine ⟨?_, fun h => hfits.held (by simpa [Ledger.balance, Ledger.enter] using h), by simp⟩
    cases rest <;> rfl
  obtain ⟨marks, hmarked, hend⟩ := run_marked s₀ v₀ op hfits₁ hlabel hstep hplaced
  exact ⟨_, hended.trans (hmarked.of_stack rfl rfl rfl), by rwa [Ledger.balance_append]⟩

theorem receiveStatus_marked {status : Status}
    (hop : ∀ top ok, s.suspended? = some top → status.outcome = some ok → op.Ends v₀ top w ok)
    (hfits : Fits l s) (hlabel : s.label = s₀.label)
    (hstep : s.pauseAfterSingleExecution = s₀.pauseAfterSingleExecution)
    (hp : Placed (s.nodes, w)) :
    ∃ marks, MarkedPass s₀ v₀ op l s w (s.receiveStatus w status) marks ∧
      Fits (l.balance marks) (s.receiveStatus w status).after := by
  unfold receiveStatus
  split
  · next ok hok =>
    exact receiveReturn_marked s₀ v₀ op (fun top hsus => hop top ok hsus hok) hfits hlabel hstep hp
  split
  · exact exists_marked_refl _ _ _ hfits
  next top hsus =>
  have hne : s.state ≠ .receiving := ne_receiving_of_isWaiting (suspended?_eq_some hsus).1
  have hfield : ∀ s' : Stack, s'.nodes = s.nodes → s'.label = s.label →
      s'.pauseAfterSingleExecution = s.pauseAfterSingleExecution → s'.result = s.result →
      s'.paused = s.paused → s'.state ≠ .receiving →
      ∃ marks, MarkedPass s₀ v₀ op l s w ⟨s', w, none⟩ marks ∧ Fits (l.balance marks) s' :=
    fun s' hn hl hs hr hpa hst => ⟨[], marked_refl hn hl hs,
      hfits.congr hn hr hpa ⟨fun h => absurd h hst, fun h => absurd h hne⟩⟩
  split
  · exact hfield _ rfl rfl rfl rfl rfl (by simp)
  · exact hfield _ rfl rfl rfl rfl rfl (by simp)
  · exact ⟨[], errorResult_marked ..,
      .of_none (hfits.owed_none hne) (fun _ => rfl) rfl (by simp [errorResult, halt])⟩
  · exact exists_marked_refl _ _ _ hfits

/-- Rolling back makes no mark but of the nodes that go, and it goes through. -/
theorem unwind_marked (hop : op.rollsBack) (stopAt : Option NodeId) {ns : List NodeId}
    (h : ∀ n ∈ ns, w.graph.contains n) :
    (unwind s₀.label stopAt ns w).fault = none ∧
      ∃ gone : List NodeId, MarkedActs s₀ v₀ op (ns, w) (gone.map .rolledBack)
        ((unwind s₀.label stopAt ns w).after, (unwind s₀.label stopAt ns w).world) := by
  induction ns generalizing w with
  | nil => exact ⟨rfl, [], .refl _⟩
  | cons top rest ih =>
    rw [unwind]
    split
    · exact ⟨rfl, [], .refl _⟩
    obtain ⟨w', hw⟩ := World.exists_interrupt (h top List.mem_cons_self)
    simp only [hw]
    have hg : w.graph.Grown (w'.left s₀.label top rest.length).graph :=
      (World.interrupt_keeps hw).graph
    obtain ⟨hf, gone, hgone⟩ := ih (w := w'.left s₀.label top rest.length) fun n hn => by
      rw [hg.contains]
      exact h n (List.mem_cons_of_mem _ hn)
    exact ⟨hf, top :: gone, (MarkedAct.rolledBack hop hw).acts.trans hgone⟩

theorem permits_rolledBack (l : Ledger) (gone : List NodeId) :
    l.Permits (gone.map .rolledBack) ∧ l.balance (gone.map .rolledBack) = l := by
  induction gone with
  | nil => exact ⟨trivial, rfl⟩
  | cons n gone ih => exact ⟨⟨trivial, ih.1⟩, ih.2⟩

theorem breakTo_marked (hop : op.rollsBack) (hfits : Fits l s) (hlabel : s.label = s₀.label)
    (hp : Placed (s.nodes, w)) (stopAt : Option NodeId) :
    ∃ marks, MarkedPass s₀ v₀ op l s w (s.breakTo w stopAt) marks ∧
      Fits (l.balance marks) (s.breakTo w stopAt).after ∧ ∀ e, .ended e ∉ marks := by
  unfold breakTo
  split
  · exact ⟨[], marked_refl rfl rfl rfl, hfits, by simp⟩
  obtain ⟨hf, gone, hgone⟩ := unwind_marked s₀ v₀ op hop stopAt hp.2
  obtain ⟨hpermits, -⟩ := permits_rolledBack l gone
  rw [hlabel]
  generalize unwind s₀.label stopAt s.nodes w = p at hf hgone ⊢
  obtain ⟨nodes, w', fault⟩ := p
  cases hf
  have hcleared : MarkedActs s₀ v₀ op (nodes, w') [.cleared]
      (nodes, w'.trace "bt.stack.break" s₀.label
      stopAt (s.depth - nodes.length : Nat)) :=
    (MarkedAct.cleared hop).acts.trans (.trace w' (by decide) ..)
  refine ⟨gone.map .rolledBack ++ [.cleared], ⟨hgone.trans hcleared, ?_, hlabel.symm, rfl⟩, ?_,
    by simp⟩
  · exact Ledger.permits_append.2 ⟨hpermits, trivial, trivial⟩
  · rw [Ledger.balance_append]
    exact .of_none rfl (by simp [Ledger.balance, Ledger.enter]) rfl (by simp)

theorem terminate_marked (hop : op.rollsBack) (hfits : Fits l s) (hlabel : s.label = s₀.label)
    (hp : Placed (s.nodes, w)) :
    ∃ marks, MarkedPass s₀ v₀ op l s w (s.terminate w) marks ∧
      Fits (l.balance marks) (s.terminate w).after ∧ ∀ e, .ended e ∉ marks := by
  obtain ⟨marks, hmarked, hend, hnone⟩ := breakTo_marked s₀ v₀ op hop hfits hlabel hp none
  obtain ⟨hf, -, hst⟩ := breakTo_all (s := s) hp.2
  unfold terminate
  generalize s.breakTo w none = p at hmarked hend hf hst ⊢
  obtain ⟨after, w', fault⟩ := p
  cases hf
  have hne : after.state ≠ .receiving := by simp [show after.state = .ready from hst]
  refine ⟨marks, ?_, hend.congr rfl rfl rfl ⟨by simp, fun h => absurd h hne⟩, hnone⟩
  have hquiet : MarkedPass s₀ v₀ op (l.balance marks) after w' ⟨{ after with state := .ended },
      if s.state = .ended then w' else w'.trace "bt.stack.end" s.label none (-1), none⟩ [] := by
    split
    · exact marked_refl rfl rfl rfl
    · exact marked_trace (by decide) _ _ _ rfl rfl rfl
  simpa using hmarked.trans hquiet

theorem forwardHook_marked {phase : Phase} (hop : op = .forwardHook phase) (hfits : Fits l s)
    (hlabel : s.label = s₀.label)
    (hstep : s.pauseAfterSingleExecution = s₀.pauseAfterSingleExecution)
    (hp : Placed (s.nodes, w)) :
    ∃ marks, MarkedPass s₀ w op l s w (s.forwardHook w phase) marks ∧
      Fits (l.balance marks) (s.forwardHook w phase).after := by
  unfold forwardHook
  split
  · exact exists_marked_refl _ _ _ hfits
  next top hsus =>
  split
  · exact exists_marked_refl _ _ _ hfits
  next hpaused =>
  obtain ⟨hwait, rest, hn⟩ := suspended?_eq_some hsus
  have hne : s.state ≠ .receiving := ne_receiving_of_isWaiting hwait
  have hheld : l.held = false := hfits.not_held (by simpa using hpaused)
  have hcalls : ∃ calls : List Call, (w.hook top phase).1.happenings
      = w.happenings ++ calls.map (.called top) ∧ l.Permits (calls.map (.called top)) ∧
        l.balance (calls.map (.called top)) = l := by
    rcases World.happenings_hook w top phase with hh | hh
    · exact ⟨[], by simpa using hh, trivial, rfl⟩
    · exact ⟨[.hook phase], hh, ⟨⟨hfits.owed_none hne, hheld⟩, trivial⟩, rfl⟩
  obtain ⟨calls, hh, hpermits, hbal⟩ := hcalls
  have hhooked : MarkedPass s₀ w op l s w ⟨s, (w.hook top phase).1, none⟩
      (calls.map (.called top)) := by
    refine ⟨?_, hpermits, rfl, rfl⟩
    rw [hn]
    exact (MarkedAct.hooked hop hh).acts
  have hk := World.hook_keeps w top phase
  have hplaced : Placed (s.nodes, (w.hook top phase).1) :=
    ⟨hp.1, fun n hm => by rw [hk.graph.contains]; exact hp.2 n hm⟩
  have hstays : ∀ fault : Option StackError, ∃ marks,
      MarkedPass s₀ w op l s w ⟨s, (w.hook top phase).1, fault⟩ marks ∧ Fits (l.balance marks) s :=
    fun fault => ⟨_, ⟨hhooked.acts, hhooked.permits, rfl, rfl⟩, by rwa [hbal]⟩
  split
  · next hw => simpa [hw] using hstays _
  · next w' status hw =>
    rw [hw] at hhooked hplaced
    have hends : ∀ top' ok, s.suspended? = some top' → status.outcome = some ok →
        op.Ends w top' w' ok := by
      intro top' ok hsus' hok
      obtain rfl : top = top' := by simpa [hsus] using hsus'
      rw [hop]
      exact ⟨status, hw, hok⟩
    obtain ⟨marks, hmarked, hend⟩ := receiveStatus_marked s₀ w op hends hfits hlabel hstep hplaced
    refine ⟨_, hhooked.trans (by rwa [hbal]), ?_⟩
    rwa [Ledger.balance_append, hbal]
  · next hw => simpa [hw] using hstays none

/-- The marks of a whole operation on the stack `s`. -/
structure Booked (l : Ledger) (s : Stack) (w : World σ) (op : Operation) (marks : List Mark) :
    Prop where
  acts : MarkedActs s w op (s.nodes, w) marks ((s.perform w op).after.nodes, (s.perform w op).world)
  permits : l.Permits marks
  fits : Fits (l.balance marks) (s.perform w op).after
  /-- Rolling back ends nothing. -/
  rolled : op.rollsBack → ∀ e, .ended e ∉ marks

/-- Every operation makes marks that the ledger allows, whether it succeeds or not, and leaves
a stack that fits the ledger. -/
theorem perform_booked (hfits : Fits l s) (hp : Placed (s.nodes, w)) (op : Operation) :
    ∃ marks, Booked l s w op marks := by
  have hbook : op.rollsBack = false → (∃ marks, MarkedPass s w op l s w (s.perform w op) marks ∧
      Fits (l.balance marks) (s.perform w op).after) → ∃ marks, Booked l s w op marks :=
    fun hop ⟨marks, hmarked, hend⟩ => ⟨marks, hmarked.acts, hmarked.permits, hend, by simp [hop]⟩
  have hroll : (∃ marks, MarkedPass s w op l s w (s.perform w op) marks ∧
      Fits (l.balance marks) (s.perform w op).after ∧ ∀ e, .ended e ∉ marks) →
        ∃ marks, Booked l s w op marks :=
    fun ⟨marks, hmarked, hend, hnone⟩ =>
      ⟨marks, hmarked.acts, hmarked.permits, hend, fun _ => hnone⟩
  cases op with
  | start head => exact hbook rfl (start_marked s w _ rfl hfits rfl rfl)
  | restart head => exact hbook rfl (restart_marked s w _ rfl hfits rfl rfl)
  | run => exact hbook rfl (run_marked s w _ hfits rfl rfl hp)
  | receiveReturn ok =>
    exact hbook rfl (receiveReturn_marked s w _ (fun _ _ => ⟨rfl, rfl⟩) hfits rfl rfl hp)
  | receiveStatus status =>
    exact hbook rfl (receiveStatus_marked s w _ (fun _ _ _ hok => ⟨hok, rfl⟩) hfits rfl rfl hp)
  | resumeNextUpdate => exact hbook rfl (resumeNextUpdate_marked s w _ hfits rfl rfl hp)
  | breakTo stopAt => exact hroll (breakTo_marked s w _ rfl hfits rfl hp stopAt)
  | terminate => exact hroll (terminate_marked s w _ rfl hfits rfl hp)
  | forwardHook phase => exact hbook rfl (forwardHook_marked s _ rfl hfits rfl rfl hp)
  | pause =>
    exact hbook rfl ⟨[], marked_refl rfl rfl rfl, hfits.owed, fun _ => rfl, hfits.pending⟩
  | resume =>
    exact ⟨[.resumed], (MarkedAct.resumed rfl).acts, ⟨trivial, trivial⟩,
      ⟨hfits.owed, (fun h => by cases h), hfits.pending⟩, by simp [Operation.rollsBack]⟩
  | applyConfig config =>
    exact ⟨[], .refl _, trivial, ⟨hfits.owed, hfits.held, hfits.pending⟩, by simp⟩

end Stack

end BehaviorTree
