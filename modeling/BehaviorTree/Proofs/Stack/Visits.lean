/-
The visits of a pass.

A pass visits the node on top each time that it comes to turn to it: it first makes sure that
this is not the node it turned to last, and then executes it or hands it the result of its
child. What a pass does is what it does at its visits (`drive_eq_cut`), and what a stack keeps
from one visit to the next (`Poised`) is enough for each of them to go as it is meant to: the
node is another one than the last, a result that is to be delivered is there, and the world
knows the node. An operation comes to at most one pass (`Operation.pass?`), which begins
without a last node, so all of this holds of the visits of an operation.
-/
import Mathlib.Data.List.Chain
import BehaviorTree.Proofs.Stack.Marks
import BehaviorTree.Proofs.Stack.Obedient
import BehaviorTree.Proofs.Stack.Refusals
import BehaviorTree.Proofs.Stack.Transparent

namespace BehaviorTree

variable {σ : Type} [Node σ]

/-- A pass comes to turn to the node on top of its stack. -/
structure Visit (σ : Type) where
  stack : Stack
  world : World σ
  node : NodeId

namespace Visit

/-- What the visit leaves. -/
def outcome (v : Visit σ) : Pass σ Stack := v.stack.step v.world v.node

/-- The node that is visited gives the answer `d`, and leaves the world `w`. -/
def Answers (v : Visit σ) (w : World σ) (d : Dispatch) : Prop :=
  v.world.turn v.node v.stack.result = .ok (w, d)

/-- The pass is to turn to a node again: nothing was found broken, and the stack neither rests
nor is paused, unless it has a result to deliver. -/
structure GoesOn (v : Visit σ) : Prop where
  fault : v.outcome.fault = none
  rests : v.outcome.after.rests = false
  free : v.outcome.after.paused = false ∨ v.outcome.after.state = .receiving

/-- What a pass comes to that has no step left after the visit. -/
def cut (v : Visit σ) : Pass σ Stack :=
  if v.outcome.fault.isSome || v.outcome.after.rests then v.outcome
  else Stack.drive 0 v.outcome.after.moveOn v.outcome.world

/-- The second visit goes on from what the first one left. The stack knows the node of the first
one, and turns to another. -/
structure Follows (v v' : Visit σ) : Prop where
  stack : v'.stack = v.outcome.after.moveOn
  world : v'.world = v.outcome.world
  last : v'.stack.last = some v.node
  node_ne : v'.node ≠ v.node

end Visit

theorem World.turned_of_turn {w w' : World σ} {n : NodeId} {result : Option Bool} {d : Dispatch}
    (h : w.turn n result = .ok (w', d)) : w.Turned n w' d := by
  cases result with
  | none => exact .inl h
  | some ok => exact .inr ⟨ok, h⟩

theorem World.exists_turn {w : World σ} {n : NodeId} (h : w.graph.contains n)
    (result : Option Bool) : ∃ w' d, w.turn n result = .ok (w', d) := by
  cases result with
  | none => exact exists_execute h
  | some ok => exact exists_receive h ok

namespace Stack

variable {s s' : Stack} {w w' : World σ} {op : Operation} {e : StackError} {n top : NodeId}
  {rest : List NodeId} {status : Status} {budget : Nat}

/-- The visits of a pass with so many steps, in the order of time. -/
def visits : Nat → Stack → World σ → List (Visit σ)
  | 0, _, _ => []
  | budget + 1, s, w =>
    match s.nodes with
    | [] => []
    | top :: _ =>
      if s.paused && s.state ≠ .receiving || s.rests || s.state = .invalid then []
      else
        let p := s.step w top
        ⟨s, w, top⟩ ::
          if p.fault.isSome || p.after.rests then [] else visits budget p.after.moveOn p.world

/-- A pass that has a step left visits the node on top. -/
structure Visits (s : Stack) (top : NodeId) (rest : List NodeId) : Prop extends
    Goes s top rest where
  free : s.paused = false ∨ s.state = .receiving

theorem Visits.visits_succ (h : s.Visits top rest) (budget : Nat) (w : World σ) :
    visits (budget + 1) s w = ⟨s, w, top⟩ ::
      if (s.step w top).fault.isSome || (s.step w top).after.rests then []
      else visits budget (s.step w top).after.moveOn (s.step w top).world := by
  rw [visits, h.nodes]
  simp only
  rw [if_neg (by rcases h.free with hp | hp <;> simp [hp, h.rests, h.valid])]

/-- Without a node to visit a pass ends at once, with nothing broken, unless the stack was. -/
theorem drive_cases (s : Stack) (w : World σ) :
    (∃ fault, (∀ e, fault = some e → e = .invalid s.label) ∧
      ∀ budget, drive budget s w = ⟨s, w, fault⟩ ∧ visits budget s w = []) ∨
    ∃ top rest, s.Visits top rest := by
  by_cases hstill : s.nodes = [] ∨ s.rests
  · refine .inl ⟨none, nofun, fun budget => ⟨drive_still budget w hstill, ?_⟩⟩
    cases budget with
    | zero => rfl
    | succ budget =>
      rw [visits]
      split
      · rfl
      · next hn => rw [if_pos (by simp_all)]
  obtain ⟨hn, hr⟩ := not_or.1 hstill
  obtain ⟨top, rest, hn⟩ := List.exists_cons_of_ne_nil hn
  by_cases hpaused : s.paused ∧ s.state ≠ .receiving
  · refine .inl ⟨none, nofun, fun budget => ⟨drive_paused budget w hpaused.1 hpaused.2, ?_⟩⟩
    cases budget with
    | zero => rfl
    | succ budget => simp [visits, hn, hpaused]
  have hfree : s.paused = false ∨ s.state = .receiving := by
    by_cases hp : s.paused <;> simp_all
  by_cases hv : s.state = .invalid
  · refine .inl ⟨some (.invalid s.label), fun e he => (Option.some.inj he).symm,
      fun budget => ⟨?_, ?_⟩⟩
    · have hp : s.paused = false := hfree.resolve_right (by simp [hv])
      rw [drive.eq_def]
      simp [hn, hp, hr, hv]
    · cases budget <;> simp [visits, hn, hv]
  · exact .inr ⟨top, rest, ⟨hn, by simpa using hr, hv⟩, hfree⟩

/-- A pass comes to what its last visit comes to. -/
theorem drive_eq_cut (budget : Nat) (s : Stack) (w : World σ) :
    drive budget s w = ((visits budget s w).getLast?.map Visit.cut).getD (drive 0 s w) := by
  induction budget generalizing s w with
  | zero => rfl
  | succ budget ih =>
    rcases drive_cases s w with ⟨fault, -, hend⟩ | ⟨top, rest, hvisits⟩
    · rw [(hend _).1, (hend _).1, (hend _).2]
      rfl
    rw [hvisits.drive_succ hvisits.free, hvisits.visits_succ]
    split
    · next hover => exact (if_pos hover).symm
    · next hon =>
      rw [ih, List.getLast?_cons]
      cases (visits budget (s.step w top).after.moveOn (s.step w top).world).getLast? with
      | none => exact (if_neg hon).symm
      | some v => rfl

/-- What a pass finds broken, it finds broken at its last visit. -/
theorem drive_fault (budget : Nat) (he : (drive budget s w).fault = some e) :
    e = .invalid s.label ∨
      ∃ v, (visits budget s w).getLast? = some v ∧ v.outcome.fault = some e := by
  induction budget generalizing s w with
  | zero =>
    rcases drive_cases s w with ⟨fault, hfault, hend⟩ | ⟨top, rest, hvisits⟩
    · rw [(hend 0).1] at he
      exact .inl (hfault e he)
    · rw [hvisits.drive_zero hvisits.free] at he
      cases he
  | succ budget ih =>
    rcases drive_cases s w with ⟨fault, hfault, hend⟩ | ⟨top, rest, hvisits⟩
    · rw [(hend _).1] at he
      exact .inl (hfault e he)
    rw [hvisits.drive_succ hvisits.free] at he
    rw [hvisits.visits_succ]
    split at he
    · next hover => exact .inr ⟨⟨s, w, top⟩, by rw [if_pos hover]; rfl, he⟩
    next hon =>
    rw [if_neg hon]
    have hm : Made (fun _ => False) s w (s.step w top) := step_made w hvisits.nodes
    rcases ih he with hinvalid | ⟨v, hv, hf⟩
    · exact .inl (hinvalid.trans (congrArg StackError.invalid hm.label))
    · exact .inr ⟨v, by rw [List.getLast?_cons, hv]; rfl, hf⟩

/-! ## What a stack keeps from visit to visit -/

/-- A stack that a pass may be driving on: the node that was visited last is not visited again. -/
structure Poised (s : Stack) (w : World σ) : Prop where
  placed : Placed (s.nodes, w)
  coherent : s.Coherent w.tick.number
  turns : s.Turns

omit [Node σ] in
/-- A pass begins without a last node. -/
theorem poised_of_coherent (hp : Placed (s.nodes, w)) (hc : s.Coherent w.tick.number) :
    Poised { s with last := none } w :=
  ⟨hp, ⟨hc.result_iff, hc.of_ended, hc.parked⟩, fun _ hl => by cases hl⟩

namespace Poised

theorem step (h : s.Poised w) (hn : s.nodes = top :: rest) (hf : (s.step w top).fault = none)
    (hr : (s.step w top).after.rests = false) :
    (s.step w top).after.moveOn.Poised (s.step w top).world := by
  have hm : Made (fun _ => False) s w (s.step w top) := step_made w hn
  have hc : (s.step w top).after.Coherent w.tick.number :=
    (step_passable rfl hn h.coherent).coherent hf
  obtain ⟨hcur, hdone⟩ := step_turned h.placed hn hf
  refine ⟨hm.acts.placed h.placed, ?_, fun n hlast htop => ?_⟩
  · rw [hm.acts.frame.tick]
    exact hc.moveOn
  · -- The node that was turned to is still on top only if the stack is paused over it.
    obtain rfl : top = n := Option.some.inj (hcur.symm.trans hlast)
    rcases hdone htop with hrests | ⟨hp, hs⟩
    · rw [hr] at hrests
      cases hrests
    · exact ⟨by simp [moveOn, hp], hs⟩

omit [Node σ] in
theorem known (h : s.Poised w) (hn : s.nodes = top :: rest) : w.graph.contains top :=
  h.placed.2 top (by simp [hn])

omit [Node σ] in
/-- A stack is not to visit the node that it visited last. -/
theorem last_ne (h : s.Poised w) (hv : s.Visits top rest) : s.last ≠ some top := by
  intro hlast
  obtain ⟨hp, hs⟩ := h.turns top hlast (by simp [top?, hv.nodes])
  rcases hv.free with hfree | hfree
  · rw [hp] at hfree
    cases hfree
  · exact hs hfree

end Poised

/-- At each of its visits the stack is as a pass needs it. -/
theorem poised_of_mem_visits (h : s.Poised w) {v : Visit σ} (hv : v ∈ visits budget s w) :
    v.stack.Poised v.world ∧ ∃ rest, v.stack.Visits v.node rest := by
  -- Over the steps that are left, each of which leaves a stack that is poised again.
  induction budget generalizing s w with
  | zero => cases hv
  | succ budget ih =>
    rcases drive_cases s w with ⟨_, _, hend⟩ | ⟨top, rest, hvisits⟩
    · rw [(hend _).2] at hv
      cases hv
    rw [hvisits.visits_succ] at hv
    rcases List.mem_cons.1 hv with rfl | hv
    · exact ⟨h, rest, hvisits⟩
    split at hv
    · cases hv
    next hon =>
    have ⟨hf, hr⟩ : (s.step w top).fault = none ∧ (s.step w top).after.rests = false := by
      simpa using hon
    exact ih (h.step hvisits.nodes hf hr) hv

/-- A pass that visits anything begins with a visit of the node on top. -/
theorem head?_visits {v : Visit σ} (hv : (visits budget s w).head? = some v) :
    v.stack = s ∧ v.world = w := by
  cases budget with
  | zero => cases hv
  | succ budget =>
    rcases drive_cases s w with ⟨_, _, hend⟩ | ⟨top, rest, hvisits⟩
    · rw [(hend _).2] at hv
      cases hv
    · rw [hvisits.visits_succ] at hv
      cases hv
      exact ⟨rfl, rfl⟩

theorem visits_follow (h : s.Poised w) : (visits budget s w).IsChain Visit.Follows := by
  induction budget generalizing s w with
  | zero => exact .nil
  | succ budget ih =>
    rcases drive_cases s w with ⟨_, _, hend⟩ | ⟨top, rest, hvisits⟩
    · rw [(hend _).2]
      exact .nil
    rw [hvisits.visits_succ]
    split
    · exact .singleton _
    next hon =>
    have ⟨hf, hr⟩ : (s.step w top).fault = none ∧ (s.step w top).after.rests = false := by
      simpa using hon
    have hnext := h.step hvisits.nodes hf hr
    refine (ih hnext).cons fun v hv => ?_
    obtain ⟨hpoised, rest', hagain⟩ := poised_of_mem_visits hnext (List.mem_of_mem_head? hv)
    have hlast : v.stack.last = some top := by
      rw [(head?_visits hv).1]
      exact (step_turned h.placed hvisits.nodes hf).current
    obtain ⟨hstack, hworld⟩ := head?_visits hv
    exact ⟨hstack, hworld, hlast, fun he => hpoised.last_ne hagain (he ▸ hlast)⟩

/-! ## One visit -/

/-- The stack while the node on top is turned to: the result it had to deliver is handed over. -/
def facing (s : Stack) (top : NodeId) : Stack :=
  { s with
    current := some top
    result := none
    state := if s.state = .receiving then .receiving else .calling }

/-- Nothing comes between a visit and the node: it is turned to, and its answer is acted on. -/
theorem Poised.step_eq (h : s.Poised w) (hv : s.Visits top rest) :
    ∃ w' d, w.turn top s.result = .ok (w', d) ∧ s.step w top = (s.facing top).apply w' top d := by
  obtain ⟨w', d, hturn⟩ := World.exists_turn (h.known hv.nodes) s.result
  refine ⟨w', d, hturn, ?_⟩
  have hresult := h.coherent.result_iff
  unfold Stack.step facing
  simp only [if_neg (h.last_ne hv)]
  by_cases hst : s.state = .receiving
  · obtain ⟨ok, hok⟩ := Option.isSome_iff_exists.1 (hresult.2 hst)
    rw [hok] at hturn
    have hrec : w.receive top ok = .ok (w', d) := hturn
    simp [hst, hok, hrec]
  · have hnone : s.result = none := by simpa [hst] using hresult
    rw [hnone] at hturn
    have hex : w.execute top = .ok (w', d) := hturn
    simp [hst, hnone, hex]

/-! ## The pass of an operation -/

/-- The pass that follows once the node that waits has ended. -/
def passAfter? (s : Stack) (w : World σ) (ok : Bool) : Option (Stack × World σ) :=
  s.suspended?.bind fun node =>
    match s.complete w node ok with
    | ⟨s, w, none⟩ => some ({ s with parkedAt := none }, w)
    | ⟨_, _, some _⟩ => none

/-- The pass that an operation comes to, if it does: the stack and the world it begins with. -/
def Operation.pass? (s : Stack) (w : World σ) (op : Operation) : Option (Stack × World σ) :=
  match op with
  | .start head | .restart head =>
    if (op.refusal? s w).isSome then none
    else
      let p := { s with state := .ready, result := none, parkedAt := none }.push w head
      some (p.after, p.world)
  | .run => some (s, w)
  | .receiveReturn ok => s.passAfter? w ok
  | .receiveStatus status => status.outcome.bind (s.passAfter? w)
  | .resumeNextUpdate =>
    if s.isDue w.tick.number then some ({ s with parkedAt := none, state := .calling }, w) else none
  | .forwardHook phase =>
    if s.paused then none
    else s.suspended?.bind fun top =>
      match w.hook top phase with
      | (w, .ok (some (.ended status))) => status.outcome.bind (s.passAfter? w)
      | _ => none
  | .breakTo _ | .terminate | .pause | .resume | .applyConfig _ => none

/-- The visits that an operation comes to, in the order of time. -/
def Operation.visits (s : Stack) (w : World σ) (op : Operation) : List (Visit σ) :=
  match op.pass? s w with
  | none => []
  | some (s, w) => Stack.visits s.stepBudget { s with last := none } w

/-- The operation that leaves `p` is done on `s` by a pass over `s'`, from the world `w'`. -/
structure Comes (s : Stack) (p : Pass σ Stack) (s' : Stack) (w' : World σ) : Prop where
  run : p = s'.run w'
  label : s'.label = s.label
  placed : Placed (s'.nodes, w')
  coherent : s'.Coherent w'.tick.number

theorem passAfter_eq (hs : Sound s w) (hn : s.suspended? = some n) (ok : Bool) :
    ∃ s' w', s.passAfter? w ok = some (s', w') ∧ Comes s (s.receiveReturn w ok) s' w' := by
  obtain ⟨-, rest, hnodes⟩ := suspended?_eq_some hn
  obtain ⟨w', hw⟩ := World.exists_stop (hs.known n (by simp [hnodes]))
  have hm : Made (fun _ => False) s w (s.complete w n ok) := complete_made w ok hnodes
  have hp := hm.acts.placed hs.placed
  simp only [passAfter?, receiveReturn, hn, Option.bind_some, complete_eq ok hnodes hw] at hp ⊢
  exact ⟨_, _, rfl, rfl, rfl, hp, ⟨by simp, by simp, by simp⟩⟩

theorem comes_passAfter (hs : Sound s w) {ok : Bool} (h : s.passAfter? w ok = some (s', w')) :
    Comes s (s.receiveReturn w ok) s' w' := by
  obtain ⟨n, hn, -⟩ := Option.bind_eq_some_iff.1 h
  obtain ⟨s₁, w₁, h₁, hcomes⟩ := passAfter_eq hs hn ok
  cases h.symm.trans h₁
  exact hcomes

/-- A start that is not refused puts its head on the stack and drives it. -/
theorem start_comes (hs : Sound s w) {head : NodeId}
    (h : (Operation.start head).refusal? s w = none) :
    Comes s (s.start w head)
      ({ s with state := .ready, result := none, parkedAt := none }.push w head).after
      ({ s with state := .ready, result := none, parkedAt := none }.push w head).world := by
  simp only [Operation.refusal?] at h
  split at h
  · cases h
  next hb =>
  simp only [not_or, ne_eq, Decidable.not_not] at hb
  split at h
  · next hc =>
    have hplaced : Placed ([head], w) := ⟨by simp, by simpa using hc⟩
    refine ⟨?_, rfl, ?_, ?_⟩
    · rw [start, if_neg (by simp [isEmpty, hb, hs.current]), if_neg (by simpa using hc), ← hb.2]
    · simp only [push, hb.1]
      exact ⟨hplaced.1, hplaced.2⟩
    · exact ⟨by simp [push], by simp [push], by simp [push]⟩
  · cases h

/-- A restart that is not refused is a start of a stack that is ready. -/
theorem restart_comes (hs : Sound s w) {head : NodeId}
    (h : (Operation.restart head).refusal? s w = none) :
    Comes s (s.restart w head)
      ({ s with state := .ready, result := none, parkedAt := none }.push w head).after
      ({ s with state := .ready, result := none, parkedAt := none }.push w head).world := by
  have hn : s.nodes = [] := by
    by_contra hn
    simp [Operation.refusal?, hn] at h
  by_cases he : s.state = .ended
  · have hr : s.result = none := by simpa [he] using hs.result_iff
    have hready : Sound { s with state := .ready } w :=
      ⟨⟨by simp [hr], by simp, by simp⟩, hs.current, hs.nodup, hs.known, fun _ => .inl rfl⟩
    have hroom : (Operation.start head).refusal? { s with state := .ready } w = none := by
      simpa [Operation.refusal?, hn] using h
    have hcomes := start_comes hready hroom
    rw [restart, if_pos he]
    exact ⟨hcomes.run, rfl, hcomes.placed, hcomes.coherent⟩
  · have hst : s.state = .ready := (hs.of_empty hn).resolve_right he
    rw [restart, if_neg he]
    exact start_comes hs (by simpa [Operation.refusal?, hn, hst] using h)

/-- What a hook makes of the world, the stack is sound in it. -/
theorem Sound.hooked (hs : Sound s w) (n : NodeId) (phase : Phase) :
    Sound s (w.hook n phase).1 :=
  have hk := World.hook_keeps w n phase
  hs.elsewhere (fun n hn => by rwa [hk.graph.contains])
    (Nat.le_of_eq (congrArg Tick.number hk.tick.symm))

theorem receiveStatus_of_outcome {ok : Bool} (h : status.outcome = some ok) :
    s.receiveStatus w status = s.receiveReturn w ok := by
  simp only [receiveStatus, h]

/-- What `pass?` tells of an operation is what the operation does. -/
theorem comes_of_pass? (hs : Sound s w) (h : op.pass? s w = some (s', w')) :
    Comes s (s.perform w op) s' w' := by
  cases op with
  | start head | restart head =>
    simp only [Operation.pass?] at h
    split at h
    · cases h
    next hr =>
    simp only [Option.isSome_iff_ne_none, ne_eq, Decidable.not_not] at hr
    cases h
    first
      | exact start_comes hs hr
      | exact restart_comes hs hr
  | run =>
    cases h
    exact ⟨rfl, rfl, hs.placed, hs.toCoherent⟩
  | receiveReturn ok => exact comes_passAfter hs h
  | receiveStatus status =>
    obtain ⟨ok, hok, h⟩ := Option.bind_eq_some_iff.1 h
    rw [perform, receiveStatus_of_outcome hok]
    exact comes_passAfter hs h
  | resumeNextUpdate =>
    simp only [Operation.pass?] at h
    split at h
    · next hdue =>
      cases h
      have hst : s.state = .waitUntilNextUpdate := by
        simp only [isDue, Bool.and_eq_true, decide_eq_true_eq] at hdue
        exact hdue.1.1
      have hr : s.result = none := by simpa [hst] using hs.result_iff
      refine ⟨?_, rfl, hs.placed, ⟨by simp [hr], by simp, by simp⟩⟩
      rw [perform, resumeNextUpdate, if_pos hdue]
    · cases h
  | forwardHook phase =>
    simp only [Operation.pass?] at h
    split at h
    · cases h
    next hp =>
    obtain ⟨n, hn, h⟩ := Option.bind_eq_some_iff.1 h
    have hhook := hs.hooked n phase
    rw [perform, forwardHook, hn]
    simp only [if_neg hp]
    generalize w.hook n phase = r at h hhook ⊢
    split at h
    · obtain ⟨ok, hok, h⟩ := Option.bind_eq_some_iff.1 h
      simp only [receiveStatus_of_outcome hok]
      exact comes_passAfter hhook h
    · cases h
  | breakTo _ | terminate | pause | resume | applyConfig _ => cases h

/-- Every visit of an operation finds the stack as a pass needs it. -/
theorem visits_poised (hs : Sound s w) {v : Visit σ} (hv : v ∈ op.visits s w) :
    v.stack.Poised v.world ∧ ∃ rest, v.stack.Visits v.node rest := by
  unfold Operation.visits at hv
  split at hv
  · cases hv
  · next hpass =>
    have hcomes := comes_of_pass? hs hpass
    exact poised_of_mem_visits (poised_of_coherent hcomes.placed hcomes.coherent) hv

/-- In the pass of an operation no node is visited twice in a row. -/
theorem follow_of_visits (hs : Sound s w) (op : Operation) :
    (op.visits s w).IsChain Visit.Follows := by
  unfold Operation.visits
  split
  · exact .nil
  · next hpass =>
    have hcomes := comes_of_pass? hs hpass
    exact visits_follow (poised_of_coherent hcomes.placed hcomes.coherent)

end Stack

end BehaviorTree
