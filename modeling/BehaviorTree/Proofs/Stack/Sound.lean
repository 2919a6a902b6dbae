/-
The representation invariant of a stack: what holds of it between two operations.

The nodes of a stack come and go by acts alone, which keep them distinct and in the graph;
the rest of the invariant is about the fields of the stack, and `Coherent` is the part of
it that holds in the middle of a pass, where a result is on its way and an empty stack has
not ended yet. Every way out of a pass has to restore the whole: a broken rule is met only
while there is a node to be turned to, and a pass that leaves nothing ends the stack.
-/
import BehaviorTree.Proofs.Stack.Act

namespace BehaviorTree.Stack

variable {σ : Type} [Node σ] {s s' : Stack} {w w' : World σ}

/-- What the fields of a stack say of each other, also in the middle of a pass. -/
structure Coherent (s : Stack) (now : Nat) : Prop where
  result_iff : s.result.isSome ↔ s.state = .receiving
  of_ended : s.state = .ended → s.nodes = []
  parked : s.state = .waitUntilNextUpdate → ∃ tick, s.parkedAt = some tick ∧ tick ≤ now

/-- What holds of a stack whenever no operation works on it. -/
structure Sound (s : Stack) (w : World σ) : Prop extends Coherent s w.tick.number where
  current : s.current = none
  nodup : s.nodes.Nodup
  known : ∀ n ∈ s.nodes, w.graph.contains n
  of_empty : s.nodes = [] → s.state = .ready ∨ s.state = .ended

omit [Node σ] in
theorem Sound.placed (h : Sound s w) : Placed (s.nodes, w) := ⟨h.nodup, h.known⟩

/-- Only what is said of the fields has to be shown of what is made by acts. -/
theorem Made.sound {heads : NodeId → Prop} {p : Pass σ Stack} (hm : Made heads s w p)
    (hp : Placed (s.nodes, w)) (hc : p.after.Coherent w.tick.number)
    (hcur : p.after.current = none)
    (he : p.after.nodes = [] → p.after.state = .ready ∨ p.after.state = .ended) :
    p.after.Sound p.world := by
  obtain ⟨hd, hk⟩ := hm.acts.placed hp
  have ht : p.world.tick = w.tick := hm.acts.frame.tick
  exact ⟨ht ▸ hc, hcur, hd, hk, he⟩

/-! ## In the middle of a pass -/

/-- What a pass may be left with: a broken rule is met only at a node. -/
structure Passable (p : Pass σ Stack) (now : Nat) : Prop where
  coherent : p.fault = none → p.after.Coherent now
  of_fault : p.fault ≠ none → p.after.nodes ≠ []

omit [Node σ] in
theorem passable_of_coherent {now : Nat} (h : s.Coherent now) : Passable ⟨s, w, none⟩ now :=
  ⟨fun _ => h, fun hf => absurd rfl hf⟩

omit [Node σ] in
theorem passable_of_fault {now : Nat} {e : StackError} (h : s.nodes ≠ []) :
    Passable ⟨s, w, some e⟩ now :=
  ⟨fun hf => absurd hf (Option.some_ne_none e), fun _ => h⟩

theorem coherent_halt (s : Stack) (now : Nat) : s.halt.Coherent now :=
  ⟨by simp [halt], by simp [halt], by simp [halt]⟩

theorem complete_passable (w : World σ) {node : NodeId} {rest : List NodeId} (ok : Bool)
    (now : Nat) (hs : s.nodes = node :: rest) : Passable (s.complete w node ok) now := by
  unfold complete
  split
  · exact passable_of_fault (by simp [hs])
  · exact passable_of_coherent ⟨by simp, by simp, by simp⟩

theorem settleStatus_passable {w : World σ} {node : NodeId} {rest : List NodeId}
    (status : Status) {now : Nat} (ht : w.tick.number = now) (hs : s.nodes = node :: rest) :
    Passable (s.settleStatus w node status) now := by
  have hne : s.nodes ≠ [] := by simp [hs]
  have htop : s.top? = some node := by simp [top?, hs]
  cases status with
  | noReturn =>
    simp only [settleStatus, htop, if_true]
    exact passable_of_fault hne
  | success | failed => exact complete_passable w _ now hs
  | wait => exact passable_of_coherent ⟨by simp, by simp, by simp⟩
  | waitUntilNextUpdate =>
    exact passable_of_coherent ⟨by simp, by simp, fun _ => ⟨_, rfl, Nat.le_of_eq ht⟩⟩
  | error =>
    have hc := coherent_halt s now
    exact passable_of_coherent ⟨hc.result_iff, hc.of_ended, by simp [halt]⟩

theorem apply_passable {w : World σ} {node : NodeId} {rest : List NodeId} (d : Dispatch)
    {now : Nat} (ht : w.tick.number = now) (hs : s.nodes = node :: rest)
    (hr : s.result = none) : Passable (s.apply w node d) now := by
  have hne : s.nodes ≠ [] := by simp [hs]
  match d with
  | .bindFailed e => exact passable_of_coherent (coherent_halt s now)
  | .answered status [] => exact settleStatus_passable status ht hs
  | .answered _ (_ :: _ :: _) => exact passable_of_fault hne
  | .answered status [child] =>
    simp only [apply, call]
    split
    · exact passable_of_fault hne
    split
    · exact passable_of_fault hne
    split
    · exact passable_of_fault hne
    next hst _ hn =>
    simp only [ne_eq, Decidable.not_not] at hst
    subst hst
    -- The child lies on top by now, so nothing is left to do for its caller.
    rw [settleStatus_noReturn]
    · exact passable_of_coherent ⟨by simp [push, hr], by simp, by simp⟩
    · rintro ⟨⟩
      exact hn (by simp [Stack.contains, hs])

theorem step_passable {w : World σ} {top : NodeId} {rest : List NodeId} {now : Nat}
    (ht : w.tick.number = now) (hs : s.nodes = top :: rest) (hc : s.Coherent now) :
    Passable (s.step w top) now := by
  have hne : s.nodes ≠ [] := by simp [hs]
  simp only [step]
  split
  · exact passable_of_fault hne
  split
  · split
    · exact passable_of_fault hne
    split
    · exact passable_of_fault hne
    · next hw =>
      have ht' := (World.receive_keeps hw).tick
      exact apply_passable _ (by rw [ht', ht]) hs rfl
  · next hst =>
    have hr : s.result = none := by simpa [hst] using hc.result_iff
    split
    · exact passable_of_fault hne
    · next hw =>
      have ht' := (World.execute_keeps hw).tick
      exact apply_passable _ (by rw [ht', ht]) hs hr

theorem Coherent.moveOn {now : Nat} (h : s.Coherent now) : s.moveOn.Coherent now :=
  ⟨h.result_iff, h.of_ended, h.parked⟩

theorem drive_passable {now : Nat} (budget : Nat) (ht : w.tick.number = now)
    (hc : s.Coherent now) : Passable (drive budget s w) now := by
  induction budget generalizing s w with
  | zero =>
    rw [drive]
    split
    · exact passable_of_coherent hc
    next hs =>
    split
    · exact passable_of_coherent hc
    split
    · exact passable_of_fault (by simp [hs])
    · exact passable_of_coherent ⟨hc.result_iff, hc.of_ended, hc.parked⟩
  | succ budget ih =>
    rw [drive]
    split
    · exact passable_of_coherent hc
    next hs =>
    split
    · exact passable_of_coherent hc
    split
    · exact passable_of_fault (by simp [hs])
    have hp := step_passable ht hs hc
    have hm : Made (fun _ => False) s w (s.step w _) := step_made w hs
    simp only
    split
    · exact hp
    next hf =>
    simp only [Bool.or_eq_true, not_or, Bool.not_eq_true, Option.isSome_eq_false_iff,
      Option.isNone_iff_eq_none] at hf
    exact ih (by rw [hm.acts.frame.tick, ht]) (hp.coherent hf.1).moveOn

/-! ## Every operation -/

/-- A pass restores the invariant, from any coherent fields. -/
theorem run_sound (hp : Placed (s.nodes, w)) (hc : s.Coherent w.tick.number) :
    (s.run w).after.Sound (s.run w).world := by
  have hm : Made (fun _ => False) s w (s.run w) := run_made s w
  have hd : Passable (drive s.stepBudget { s with last := none } w) w.tick.number :=
    drive_passable _ rfl ⟨hc.result_iff, hc.of_ended, hc.parked⟩
  refine hm.sound hp ?_ ?_ ?_
  all_goals
    simp only [run]
    split
  · exact ⟨by simp [invalidate], by simp [invalidate], by simp [invalidate]⟩
  · next hf =>
    obtain ⟨hr, he, hk⟩ := hd.coherent hf
    split
    · next hn =>
      simp only [isEmpty, Bool.and_eq_true, List.isEmpty_iff] at hn
      exact ⟨by simp [finish], fun _ => hn.1, by simp [finish]⟩
    · exact ⟨hr, he, hk⟩
  · rfl
  · split <;> rfl
  · next hf =>
    intro hn
    exact absurd hn (hd.of_fault (by simp [hf]))
  · split
    · exact fun _ => .inr rfl
    · next he =>
      intro hn
      simp only [isEmpty, ne_eq, Bool.and_eq_true, List.isEmpty_iff, decide_eq_true_eq, not_and,
        Decidable.not_not] at he
      exact .inr (he hn)

omit [Node σ] in
/-- A stack that waits has a node that it waits for. -/
theorem Sound.suspended (h : Sound s w) (hw : s.isWaiting) : ∃ node, s.suspended? = some node := by
  have hne : s.nodes ≠ [] := by
    intro hn
    rcases h.of_empty hn with hst | hst <;> simp [isWaiting, StackState.isWaiting, hst] at hw
  obtain ⟨node, rest, hn⟩ := List.exists_cons_of_ne_nil hne
  exact ⟨node, by simp [suspended?, hw, top?, hn]⟩

omit [Node σ] in
/-- A change of the fields of a stack that has nodes. -/
theorem Sound.fields {s' : Stack} (h : Sound s w) (hn : s'.nodes = s.nodes)
    (hcur : s'.current = s.current) (hne : s.nodes ≠ []) (hc : s'.Coherent w.tick.number) :
    Sound s' w :=
  ⟨hc, hcur.trans h.current, by rw [hn]; exact h.nodup, by rw [hn]; exact h.known,
    fun he => absurd (hn ▸ he) hne⟩

theorem Sound.start (h : Sound s w) (head : NodeId) :
    (s.start w head).after.Sound (s.start w head).world := by
  unfold Stack.start
  split
  · exact h
  next hs =>
  split
  · exact h
  next hc =>
  simp only [isEmpty, Bool.or_eq_true, Bool.not_eq_true', not_or, List.isEmpty_eq_false_iff,
    ne_eq, Decidable.not_not, decide_not, decide_eq_false_iff_not] at hs
  have hp : Placed ([head], w) := ⟨by simp, by simpa using hc⟩
  refine run_sound ?_ ⟨?_, ?_, ?_⟩
  · simp only [push, hs.1.2]
    exact ⟨hp.1, hp.2⟩
  all_goals simp [push, hs.1.1]

theorem Sound.restart (h : Sound s w) (head : NodeId) :
    (s.restart w head).after.Sound (s.restart w head).world := by
  unfold Stack.restart
  split
  · next he =>
    have hr : s.result = none := by simpa [he] using h.result_iff
    refine Sound.start ?_ head
    exact ⟨⟨by simp [hr], by simp, by simp⟩, h.current, h.nodup, h.known, fun _ => .inl rfl⟩
  · exact h.start head

theorem Sound.receiveReturn (h : Sound s w) (ok : Bool) :
    (s.receiveReturn w ok).after.Sound (s.receiveReturn w ok).world := by
  unfold Stack.receiveReturn
  split
  · exact h
  next node hs =>
  obtain ⟨-, rest, hn⟩ := suspended?_eq_some hs
  have hne : s.nodes ≠ [] := by simp [hn]
  obtain ⟨w', hw⟩ := World.exists_stop (h.known node (by simp [hn]))
  have hm : Made (fun _ => False) s w (s.complete w node ok) := complete_made w ok hn
  have hp : Placed ((s.complete w node ok).after.nodes, (s.complete w node ok).world) :=
    hm.acts.placed h.placed
  simp only [complete, hw] at hp ⊢
  exact run_sound hp ⟨by simp, by simp, by simp⟩

theorem Sound.receiveStatus (h : Sound s w) (status : Status) :
    (s.receiveStatus w status).after.Sound (s.receiveStatus w status).world := by
  unfold Stack.receiveStatus
  split
  · exact h.receiveReturn _
  split
  · exact h
  next node hs =>
  obtain ⟨hw, rest, hn⟩ := suspended?_eq_some hs
  have hne : s.nodes ≠ [] := by simp [hn]
  have hr : s.result = none := by
    have hi := h.result_iff
    cases hst : s.state <;> simp_all [isWaiting, StackState.isWaiting]
  split
  · exact h.fields rfl rfl hne ⟨by simp [hr], by simp, by simp⟩
  · exact h.fields rfl rfl hne ⟨by simp [hr], by simp, fun _ => ⟨_, rfl, Nat.le_refl _⟩⟩
  · have hm : Made (fun _ => False) s w
        (s.errorResult w node "node ended with an error result") := errorResult_made ..
    refine hm.sound h.placed ?_ h.current ?_
    · exact ⟨by simp [errorResult, halt], by simp [errorResult, halt], by simp [errorResult, halt]⟩
    · exact fun he => absurd he hne
  · exact h

theorem Sound.resumeNextUpdate (h : Sound s w) :
    (s.resumeNextUpdate w).1.after.Sound (s.resumeNextUpdate w).1.world := by
  unfold Stack.resumeNextUpdate
  split
  · next hd =>
    have hst : s.state = .waitUntilNextUpdate := by
      simp only [isDue, Bool.and_eq_true, decide_eq_true_eq] at hd
      exact hd.1.1
    have hr : s.result = none := by simpa [hst] using h.result_iff
    exact run_sound h.placed ⟨by simp [hr], by simp, by simp⟩
  · exact h

/-- Rolling back is cut short only at a node. -/
theorem unwind_fault (label : StackLabel) (stopAt : Option NodeId) {ns : List NodeId}
    (w : World σ) (h : (unwind label stopAt ns w).fault ≠ none) :
    ns ≠ [] ∧ (unwind label stopAt ns w).after ≠ [] := by
  induction ns generalizing w with
  | nil => exact absurd rfl h
  | cons top rest ih =>
    refine ⟨by simp, ?_⟩
    rw [unwind] at h ⊢
    split
    · simp
    split
    · simp
    · next hs _ _ hw =>
      rw [if_neg hs, hw] at h
      exact (ih _ h).2

theorem Sound.breakTo (h : Sound s w) (stopAt : Option NodeId) :
    (s.breakTo w stopAt).after.Sound (s.breakTo w stopAt).world := by
  have hm : Made (fun _ => False) s w (s.breakTo w stopAt) := breakTo_made ..
  unfold Stack.breakTo at hm ⊢
  split
  · exact h
  next hf =>
  rw [hf] at hm
  split
  · next hu =>
    rw [hu] at hm
    have hf : (unwind s.label stopAt s.nodes w).fault ≠ none := by simp [hu]
    obtain ⟨hne, hne'⟩ := unwind_fault s.label stopAt w hf
    rw [hu] at hne'
    refine hm.sound h.placed ⟨h.result_iff, fun he => ?_, h.parked⟩ h.current fun he => ?_
    · exact absurd (h.of_ended he) hne
    · exact absurd he hne'
  · next hu =>
    rw [hu] at hm
    exact hm.sound h.placed ⟨by simp, by simp, by simp⟩ rfl fun _ => .inl rfl

/-- Rolling back is not cut short where all the nodes are in the graph. -/
theorem unwind_known (label : StackLabel) (stopAt : Option NodeId) {ns : List NodeId}
    (h : ∀ n ∈ ns, w.graph.contains n) : (unwind label stopAt ns w).fault = none := by
  induction ns generalizing w with
  | nil => rfl
  | cons top rest ih =>
    obtain ⟨w', hw⟩ := World.exists_interrupt (h top List.mem_cons_self)
    have hg : w.graph.Grown (w'.left label top rest.length).graph :=
      (World.interrupt_keeps hw).graph
    rw [unwind, hw]
    split
    · rfl
    · exact ih fun n hn => by
        rw [hg.contains]
        exact h n (List.mem_cons_of_mem _ hn)

/-- Nothing stops a stack from being rolled back as a whole: its nodes are in the graph. -/
theorem unwind_all (label : StackLabel) {ns : List NodeId}
    (h : ∀ n ∈ ns, w.graph.contains n) :
    ∃ w', unwind label none ns w = ⟨[], w', none⟩ := by
  induction ns generalizing w with
  | nil => exact ⟨w, rfl⟩
  | cons top rest ih =>
    obtain ⟨w', hw⟩ := World.exists_interrupt (h top List.mem_cons_self)
    have hg : w.graph.Grown (w'.left label top rest.length).graph :=
      (World.interrupt_keeps hw).graph
    obtain ⟨w'', hu⟩ := ih (w := w'.left label top rest.length) fun n hn => by
      rw [hg.contains]
      exact h n (List.mem_cons_of_mem _ hn)
    exact ⟨w'', by rw [unwind, if_neg (by simp), hw]; exact hu⟩

/-- Rolling a stack back as a whole leaves it empty and ready. -/
theorem breakTo_all (h : ∀ n ∈ s.nodes, w.graph.contains n) :
    (s.breakTo w none).fault = none ∧ (s.breakTo w none).after.nodes = [] ∧
      (s.breakTo w none).after.state = .ready := by
  obtain ⟨w', hu⟩ := unwind_all s.label h
  simp [Stack.breakTo, hu]

/-- Ending a stack leaves nothing on it, and finds no rule broken. -/
theorem terminate_eq (h : ∀ n ∈ s.nodes, w.graph.contains n) :
    (s.terminate w).fault = none ∧ (s.terminate w).after.nodes = [] := by
  obtain ⟨w', hu⟩ := unwind_all s.label h
  simp [terminate, Stack.breakTo, hu]

theorem Sound.terminate (h : Sound s w) :
    (s.terminate w).after.Sound (s.terminate w).world := by
  have hm : Made (fun _ => False) s w (s.terminate w) := terminate_made ..
  obtain ⟨w', hu⟩ := unwind_all s.label h.known
  simp only [Stack.terminate, Stack.breakTo, Option.filter_none, hu] at hm ⊢
  exact hm.sound h.placed ⟨by simp, fun _ => rfl, by simp⟩ rfl fun _ => .inr rfl

theorem Sound.forwardHook (h : Sound s w) (phase : Phase) :
    (s.forwardHook w phase).after.Sound (s.forwardHook w phase).world := by
  unfold Stack.forwardHook
  split
  · exact h
  next top hs =>
  split
  · exact h
  have hk := World.hook_keeps w top phase
  have hh : Sound s (w.hook top phase).1 :=
    ⟨by rw [hk.tick]; exact h.toCoherent, h.current, h.nodup,
      fun n hn => by rw [hk.graph.contains]; exact h.known n hn, h.of_empty⟩
  split
  · next hw => rw [hw] at hh; exact hh
  · next hw => rw [hw] at hh; exact hh.receiveStatus _
  · next hw => rw [hw] at hh; exact hh

end BehaviorTree.Stack
