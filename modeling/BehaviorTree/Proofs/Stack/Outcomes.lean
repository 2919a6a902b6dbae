/-
How a run of the root ends.

A stack traces with which outcome a node leaves it by itself: with the one that it answered, or
with the return that it was handed while it was suspended. For the root on the main stack this is
the outcome of its run, and the stack ends with it in the same operation. Nothing else that is
done to a stack ends a run; in particular a node that is rolled back leaves without an outcome.
-/
import BehaviorTree.Proofs.Stack.Replay
import BehaviorTree.Proofs.Stack.SameFor
import BehaviorTree.Proofs.Stack.Traced
import BehaviorTree.Proofs.Stack.Transparent
import BehaviorTree.Proofs.Stack.Written

namespace BehaviorTree

variable {σ : Type} {root : NodeId}

/-- The outcome with which the root left the main stack by itself, if the event tells of it. -/
def TraceEvent.outcome? (root : NodeId) (e : TraceEvent) : Option Bool :=
  if e.tag = "bt.stack.receive" ∧ e.stack = none ∧ e.node = some root.index then
    some (e.value = 1)
  else none

/-- No node comes onto a stack, none is executed, and the root does not leave the main stack. -/
def Happening.IsCalm (root : NodeId) : Happening → Prop
  | .called _ call => call ≠ .execute
  | .entered .. => False
  | .left stack n => stack = .main → n ≠ root
  | .tornDown _ | .violated _ => True

namespace World

variable {w w' w'' : World σ}

/-- The outcomes of the runs of the root that were completed, in the order of time. -/
def outcomes (root : NodeId) (w : World σ) : List Bool :=
  w.traced.filterMap (TraceEvent.outcome? root)

theorem outcomes_of_traced (h : w'.traced = w.traced) : w'.outcomes root = w.outcomes root :=
  congrArg (List.filterMap (TraceEvent.outcome? root)) h

theorem outcomes_trace (w : World σ) {tag : String} (h : tag ≠ "bt.stack.receive")
    (stack : StackLabel) (node : Option NodeId) (value : Int) :
    (w.trace tag stack node value).outcomes root = w.outcomes root := by
  simp [outcomes, TraceEvent.outcome?, h]

theorem outcomes_trace_of_ne (w : World σ) (tag : String) {stack : StackLabel}
    {node : Option NodeId} (h : stack ≠ .main ∨ node ≠ some root) (value : Int) :
    (w.trace tag stack node value).outcomes root = w.outcomes root := by
  suffices he : (w.event tag stack node value).outcome? root = none by simp [outcomes, he]
  refine if_neg fun ⟨_, hstack, hnode⟩ => h.elim (fun h => h ?_) (fun h => h ?_)
  · exact StackLabel.traceId_injective (b := .main) hstack
  · obtain ⟨n, rfl, hn⟩ := Option.map_eq_some_iff.1 hnode
    exact congrArg some (NodeId.ext hn)

theorem outcomes_receive (w : World σ) (root : NodeId) (ok : Bool) :
    (w.trace "bt.stack.receive" .main root (if ok then 1 else 0)).outcomes root
      = w.outcomes root ++ [ok] := by
  have he : (w.event "bt.stack.receive" .main root (if ok then 1 else 0)).outcome? root
      = some ok := by
    cases ok <;> simp [TraceEvent.outcome?, event, StackLabel.traceId]
  simp [outcomes, he]

/-- No run of the root ends: it leaves the main stack neither by itself nor rolled back. -/
structure SameRun (root : NodeId) (w w' : World σ) : Prop where
  outcomes : w'.outcomes root = w.outcomes root
  ends : w'.mainEnds = w.mainEnds
  happenings : ∃ new, w'.happenings = w.happenings ++ new ∧ .left .main root ∉ new

/-- Nothing is started, and no run of the root ends. -/
structure Calm (root : NodeId) (w w' : World σ) : Prop where
  outcomes : w'.outcomes root = w.outcomes root
  ends : w'.mainEnds = w.mainEnds
  happenings : ∃ new, w'.happenings = w.happenings ++ new ∧ ∀ x ∈ new, x.IsCalm root

/-- A run of the root ends with the outcome, and nothing is started after that. -/
structure EndsRun (root : NodeId) (ok : Bool) (w w' : World σ) : Prop where
  outcomes : w'.outcomes root = w.outcomes root ++ [ok]
  happenings : ∃ new after, w'.happenings = w.happenings ++ new ++ .left .main root :: after ∧
    .left .main root ∉ new ∧ ∀ x ∈ after, x.IsCalm root

namespace Calm

theorem refl (w : World σ) : Calm root w w := ⟨rfl, rfl, [], by simp, by simp⟩

theorem trans (h : Calm root w w') (h' : Calm root w' w'') : Calm root w w'' := by
  obtain ⟨new, hh, hn⟩ := h.happenings
  obtain ⟨new', hh', hn'⟩ := h'.happenings
  exact ⟨h'.outcomes.trans h.outcomes, h'.ends.trans h.ends, new ++ new',
    by rw [hh', hh, List.append_assoc], List.forall_mem_append.2 ⟨hn, hn'⟩⟩

theorem sameRun (h : Calm root w w') : SameRun root w w' := by
  obtain ⟨new, hh, hn⟩ := h.happenings
  exact ⟨h.outcomes, h.ends, new, hh, fun hm => hn _ hm rfl rfl⟩

/-- All that counts is the history and the events. -/
theorem of_history (hh : w'.history = w.history) (he : w'.mainEnds = w.mainEnds) :
    Calm root w w' := by
  refine ⟨?_, he, [], ?_, by simp⟩
  · rw [World.outcomes, World.outcomes, traced, traced, hh]
  · rw [World.happenings, World.happenings, hh, List.append_nil]

theorem trace (w : World σ) {tag : String} (h : tag ≠ "bt.stack.receive") (hq : IsQuiet tag)
    (stack : StackLabel) (node : Option NodeId) (value : Int) :
    Calm root w (w.trace tag stack node value) :=
  ⟨outcomes_trace w h .., rfl, [], by simp [happenings_trace w hq], by simp⟩

theorem report (w : World σ) (d : Diagnostic) : Calm root w (w.report d) := by
  refine ⟨outcomes_of_traced (traced_report w d), rfl, _, happenings_record w _, fun x hx => ?_⟩
  obtain ⟨d', rfl⟩ : ∃ d', x = .violated d' := by
    simp only [Record.happening?, Option.mem_toList] at hx
    split at hx
    · exact ⟨_, (Option.some.inj hx).symm⟩
    · cases hx
  exact trivial

end Calm

namespace SameRun

theorem refl (w : World σ) : SameRun root w w := ⟨rfl, rfl, [], by simp, by simp⟩

theorem trans (h : SameRun root w w') (h' : SameRun root w' w'') : SameRun root w w'' := by
  obtain ⟨new, hh, hn⟩ := h.happenings
  obtain ⟨new', hh', hn'⟩ := h'.happenings
  refine ⟨h'.outcomes.trans h.outcomes, h'.ends.trans h.ends, new ++ new', ?_, ?_⟩
  · rw [hh', hh, List.append_assoc]
  · simp [hn, hn']

/-- Until the run ends it goes on. -/
theorem ends_run {ok : Bool} (h : SameRun root w w') (h' : EndsRun root ok w' w'') :
    EndsRun root ok w w'' := by
  obtain ⟨new, hh, hn⟩ := h.happenings
  obtain ⟨new', after, hh', hn', ha⟩ := h'.happenings
  refine ⟨h'.outcomes.trans (by rw [h.outcomes]), new ++ new', after, ?_, by simp [hn, hn'], ha⟩
  rw [hh', hh, List.append_assoc w.happenings]

/-- All that happened are calls of a node. -/
theorem of_calls (id : NodeId) (ht : w'.traced = w.traced) (he : w'.events = w.events)
    (hh : ∃ calls : List Call, w'.happenings = w.happenings ++ calls.map (.called id)) :
    SameRun root w w' := by
  obtain ⟨calls, hh⟩ := hh
  exact ⟨outcomes_of_traced ht, congrArg (·.toList.filterMap StackEvent.mainEnd?) he, _, hh,
    by simp⟩

theorem record (w : World σ) {r : Record} (ht : r.traced? = none) (hh : r.happening? = none) :
    SameRun root w (w.record r) :=
  ⟨outcomes_of_traced (traced_record_of_none w ht), rfl, [], by simp [hh], by simp⟩

theorem trace (w : World σ) {tag : String} (h : tag ≠ "bt.stack.receive") (hq : IsQuiet tag)
    (stack : StackLabel) (node : Option NodeId) (value : Int) :
    SameRun root w (w.trace tag stack node value) :=
  (Calm.trace w h hq ..).sameRun

theorem entered (w : World σ) (label : StackLabel) (n : NodeId) (depth : Nat) :
    SameRun root w (w.entered label n depth) :=
  ⟨outcomes_trace w (by decide) .., by rw [mainEnds, Stack.toList_entered]; simp [mainEnds,
    StackEvent.mainEnd?], _, happenings_entered .., by simp⟩

theorem mainEnds_left (w : World σ) (label : StackLabel) (n : NodeId) (depth : Nat) :
    (w.left label n depth).mainEnds = w.mainEnds := by
  rw [mainEnds, Stack.toList_left]
  simp [mainEnds, StackEvent.mainEnd?]

theorem left (w : World σ) {label : StackLabel} {n : NodeId} (h : n ≠ root) (depth : Nat) :
    SameRun root w (w.left label n depth) :=
  ⟨outcomes_trace w (by decide) .., mainEnds_left .., _, happenings_left .., by simp [h.symm]⟩

end SameRun

/-- Once the run has ended, calm does not change that. -/
theorem EndsRun.calm {ok : Bool} (h : EndsRun root ok w w') (h' : Calm root w' w'') :
    EndsRun root ok w w'' := by
  obtain ⟨new, after, hh, hn, ha⟩ := h.happenings
  obtain ⟨new', hh', hn'⟩ := h'.happenings
  refine ⟨h'.outcomes.trans h.outcomes, new, after ++ new', ?_, hn,
    List.forall_mem_append.2 ⟨ha, hn'⟩⟩
  rw [hh', hh, List.append_assoc, List.cons_append]

namespace SameRun

variable [Node σ] {n : NodeId}

theorem turned {d : Dispatch} (h : w.Turned n w' d) : SameRun root w w' := by
  rcases h with h | ⟨ok, h⟩
  · have ⟨calls, hh, _⟩ := happenings_execute h
    exact of_calls n (traced_execute h) (execute_keeps h).events ⟨calls, hh⟩
  · exact of_calls n (traced_receive h) (receive_keeps h).events ⟨[_], happenings_receive h⟩

theorem hook (w : World σ) (n : NodeId) (phase : Phase) : SameRun root w (w.hook n phase).1 := by
  refine of_calls n (traced_hook ..) (hook_keeps ..).events ?_
  rcases happenings_hook w n phase with h | h
  · exact ⟨[], by simp [h]⟩
  · exact ⟨[_], h⟩

theorem stop (h : w.stop n = .ok w') : SameRun root w w' :=
  of_calls n (traced_stop h) (stop_keeps h).events ⟨[_], happenings_stop h⟩

end SameRun

end World

namespace Stack

variable [Node σ] {s s' : Stack} {w w' : World σ} {p q : Pass σ Stack} {node : NodeId}
  {rest : List NodeId}

/-! ## The root lies at the bottom -/

/-- The nodes lie on the root, each of them once. -/
structure Based (root : NodeId) (ns : List NodeId) : Prop where
  nodup : ns.Nodup
  bottom : ∀ n ∈ ns.getLast?, n = root

omit [Node σ] in
theorem Based.tail (h : Based root (node :: rest)) : Based root rest := by
  refine ⟨h.nodup.of_cons, fun n hn => h.bottom n ?_⟩
  cases rest with
  | nil => cases hn
  | cons b rest => exact hn

omit [Node σ] in
theorem Based.push {child : NodeId} (h : Based root (node :: rest)) (hn : child ∉ node :: rest) :
    Based root (child :: node :: rest) :=
  ⟨List.nodup_cons.2 ⟨hn, h.nodup⟩, h.bottom⟩

omit [Node σ] in
/-- Only the root can lie alone. -/
theorem Based.eq_root_iff (h : Based root (node :: rest)) : node = root ↔ rest = [] := by
  cases rest with
  | nil => simp [h.bottom node rfl]
  | cons b rest =>
    have hmem := List.getLast_mem (List.cons_ne_nil b rest)
    rw [h.bottom _ (List.getLast?_eq_some_getLast (List.cons_ne_nil b rest))] at hmem
    simp only [reduceCtorEq, iff_false]
    rintro rfl
    exact (List.nodup_cons.1 h.nodup).1 hmem

theorem Act.based {label : StackLabel} {heads : NodeId → Prop} {x y : List NodeId × World σ}
    (h : Act label heads x y) (hh : ∀ id, heads id → id = root) (hx : Based root x.1) :
    Based root y.1 := by
  cases h with
  | note | turn | hook | ask | finish => exact hx
  | head h => exact ⟨by simp, by simpa using hh _ h⟩
  | call _ _ hn => exact hx.push hn
  | leave | rollBack => exact hx.tail

theorem Acts.based {label : StackLabel} {heads : NodeId → Prop} {x y : List NodeId × World σ}
    (h : Acts label heads x y) (hh : ∀ id, heads id → id = root) (hx : Based root x.1) :
    Based root y.1 := by
  induction h with
  | refl => exact hx
  | tail _ h ih => exact h.based hh ih

/-! ## The parts of a pass -/

/-- What a part of a pass comes to on a stack that had a node: the run of the root goes on, or it
is over and its outcome is all that is left of the stack. -/
inductive Tally (root : NodeId) (w : World σ) (p : Pass σ Stack) : Prop
  | on (h : w.SameRun root p.world) (hn : p.after.nodes ≠ [])
  | done (ok : Bool) (h : w.EndsRun root ok p.world) (he : p.world.mainEnds = w.mainEnds)
      (hn : p.after.nodes = []) (hs : p.after.state = .receiving)
      (hr : p.after.result = some ok) (hf : p.fault = none)

omit [Node σ] in
theorem Tally.after (h : w.SameRun root w') (ht : Tally root w' p) : Tally root w p := by
  cases ht with
  | on h' hn => exact .on (h.trans h') hn
  | done ok h' he hn hs hr hf => exact .done ok (h.ends_run h') (he.trans h.ends) hn hs hr hf

omit [Node σ] in
theorem Tally.refl {fault : Option StackError} (hn : s.nodes ≠ []) :
    Tally root w ⟨s, w, fault⟩ :=
  .on (.refl w) hn

omit [Node σ] in
theorem sameRun_warn (w : World σ) (message : String) (fields : List (String × String)) :
    w.SameRun root (w.warn message fields) :=
  .record w rfl rfl

omit [Node σ] in
theorem sameRun_report (w : World σ) {d : Diagnostic} (h : d.kind ≠ .protocolViolation) :
    w.SameRun root (w.report d) :=
  .record w rfl (by simp [Record.happening?, h])

omit [Node σ] in
theorem errorResult_sameRun (s : Stack) (w : World σ) (node : NodeId) (message : String) :
    w.SameRun root (s.errorResult w node message).world :=
  ((sameRun_warn ..).trans (sameRun_report _ (by simp))).trans (.trace _ (by decide) (by decide) ..)

omit [Node σ] in
theorem bindFailed_sameRun (s : Stack) (w : World σ) (node : NodeId) (e : VariableError) :
    w.SameRun root (s.bindFailed w node e).world :=
  ((sameRun_warn ..).trans (sameRun_report _ (by simp))).trans (.trace _ (by decide) (by decide) ..)

omit [Node σ] in
theorem exhausted_sameRun (s : Stack) (w : World σ) (node : NodeId) :
    w.SameRun root (s.exhausted w node).world :=
  (sameRun_warn ..).trans (sameRun_report _ (by simp))

omit [Node σ] in
theorem invalidate_sameRun (s : Stack) (w : World σ) (e : StackError) :
    w.SameRun root (s.invalidate w e).world :=
  (sameRun_warn ..).trans (.trace _ (by decide) (by decide) ..)

theorem complete_tally (ok : Bool) (hl : s.label = .main) (hn : s.nodes = node :: rest)
    (hb : Based root s.nodes) : Tally root w (s.complete w node ok) := by
  unfold complete
  split
  · exact .refl (by simp [hn])
  next w' hw =>
  have hstop : w.SameRun root w' := .stop hw
  rw [hn] at hb
  simp only [pop, hn, hl]
  cases hr : rest with
  | nil =>
    obtain rfl := hb.eq_root_iff.2 hr
    refine .after hstop (.done ok ⟨?_, [], [], ?_, by simp⟩ ?_ rfl rfl rfl rfl)
    · rw [World.outcomes_receive]
      exact congrArg (· ++ [ok]) (World.outcomes_trace w' (by decide) ..)
    · rw [World.happenings_trace _ (by decide), World.happenings_left, List.append_nil]
    · exact World.SameRun.mainEnds_left ..
  | cons b rest' =>
    have hne : node ≠ root := fun h => by simpa [hr] using hb.eq_root_iff.1 h
    have hleft : w'.SameRun root (w'.left .main node (b :: rest').length) := .left w' hne _
    refine .on (hstop.trans (hleft.trans ?_)) (by simp)
    exact ⟨World.outcomes_trace_of_ne _ _ (.inr (by simpa using hne)) _, rfl, [],
      by simp [World.happenings_trace _ (by decide : IsQuiet "bt.stack.receive")], by simp⟩

theorem settleStatus_tally (status : Status) (hl : s.label = .main) (hn : s.nodes = node :: rest)
    (hb : Based root s.nodes) : Tally root w (s.settleStatus w node status) := by
  have hne : s.nodes ≠ [] := by simp [hn]
  cases status with
  | noReturn =>
    simp only [settleStatus]
    split <;> exact .refl hne
  | success | failed => exact complete_tally _ hl hn hb
  | wait | waitUntilNextUpdate => exact .on (.trace _ (by decide) (by decide) ..) hne
  | error => exact .on (errorResult_sameRun ..) hne

theorem call_tally (child : NodeId) (status : Status) (hn : s.nodes = node :: rest) :
    Tally root w (s.call w node child status) := by
  have hne : s.nodes ≠ [] := by simp [hn]
  unfold call
  split
  · exact .refl hne
  split
  · exact .refl hne
  split
  · exact .refl hne
  next hr _ hc =>
  simp only [ne_eq, Decidable.not_not] at hr
  subst hr
  rw [settleStatus_noReturn]
  · exact .on (.entered ..) (by simp [push])
  · rintro ⟨⟩
    exact hc (by simp [Stack.contains, hn])

theorem apply_tally (d : Dispatch) (hl : s.label = .main) (hn : s.nodes = node :: rest)
    (hb : Based root s.nodes) : Tally root w (s.apply w node d) :=
  have hne : s.nodes ≠ [] := by simp [hn]
  match d with
  | .bindFailed e => .on (bindFailed_sameRun s w node e) hne
  | .answered status [] => settleStatus_tally status hl hn hb
  | .answered status [child] => call_tally child status hn
  | .answered _ (_ :: _ :: _) => .refl hne

theorem step_tally (hl : s.label = .main) (hn : s.nodes = node :: rest)
    (hb : Based root s.nodes) : Tally root w (s.step w node) := by
  have hne : s.nodes ≠ [] := by simp [hn]
  simp only [step]
  split
  · exact .refl hne
  split
  · split
    · exact .refl hne
    split
    · exact .refl hne
    · next ok _ _ _ _ hw => exact .after (.turned (.inr ⟨ok, hw⟩)) (apply_tally _ hl hn hb)
  · split
    · exact .refl hne
    · next hw => exact .after (.turned (.inl hw)) (apply_tally _ hl hn hb)

theorem drive_tally (budget : Nat) (s : Stack) (w : World σ) (hl : s.label = .main)
    (hne : s.nodes ≠ []) (hb : Based root s.nodes) : Tally root w (drive budget s w) := by
  induction budget generalizing s w with
  | zero =>
    rw [drive]
    split
    · exact .refl hne
    split
    · exact .refl hne
    split
    · exact .refl hne
    · exact .on (exhausted_sameRun ..) hne
  | succ budget ih =>
    rw [drive]
    split
    · exact .refl hne
    next top rest hn =>
    split
    · exact .refl hne
    split
    · exact .refl hne
    have hm : Made (fun _ => False) s w (s.step w top) := step_made w hn
    have ht : Tally root w (s.step w top) := step_tally hl hn hb
    simp only
    split
    · exact ht
    cases ht with
    | on h hne' =>
      have hb' := hm.acts.based (fun _ h => h.elim) hb
      exact .after h (ih _ _ (hm.label.trans hl) hne' hb')
    | done ok h he hn' hs hr hf =>
      -- The root has left, and the empty stack is not driven any further.
      rw [drive_still budget _ (s := (s.step w top).after.moveOn) (.inl hn')]
      exact .done ok h he hn' hs hr rfl

/-! ## The operations -/

/-- What an operation comes to: the run of the root goes on, or it is over, and the stack has ended
with its outcome. -/
inductive Verdict (root : NodeId) (w : World σ) (p : Pass σ Stack) : Prop
  | on (h : w.SameRun root p.world)
  | ended (ok : Bool) (h : w.EndsRun root ok p.world)
      (he : p.world.mainEnds = w.mainEnds ++ [some ok]) (hn : p.after.nodes = [])
      (hs : p.after.state = .ended)

omit [Node σ] in
theorem Verdict.after (h : w.SameRun root w') (hv : Verdict root w' p) : Verdict root w p := by
  cases hv with
  | on h' => exact .on (h.trans h')
  | ended ok h' he hn hs => exact .ended ok (h.ends_run h') (by rw [he, h.ends]) hn hs

omit [Node σ] in
theorem Verdict.refl {fault : Option StackError} : Verdict root w ⟨s, w, fault⟩ := .on (.refl w)

omit [Node σ] in
theorem mainEnds_finish (w : World σ) (hl : s.label = .main) :
    (s.finish w).world.mainEnds = w.mainEnds ++ [s.result] := by
  have hevents : (s.finish w).world.events = w.events.push (.ended s.label s.result) := rfl
  rw [World.mainEnds, hevents, Queue.toList_push, List.filterMap_append, hl]
  rfl

omit [Node σ] in
/-- The outcome that is left of a run is what the stack ends with. -/
theorem finish_verdict {ok : Bool} (h : w.EndsRun root ok w') (he : w'.mainEnds = w.mainEnds)
    (hl : s.label = .main) (hn : s.nodes = []) (hr : s.result = some ok) :
    Verdict root w (s.finish w') := by
  have hends : (s.finish w').world.mainEnds = w'.mainEnds ++ [some ok] := by
    rw [mainEnds_finish w' hl, hr]
  obtain ⟨new, after, hh, hnew⟩ := h.happenings
  refine .ended ok ⟨(World.outcomes_trace w' (by decide) ..).trans h.outcomes, new, after, ?_, hnew⟩
    (hends.trans (by rw [he])) hn rfl
  exact (World.happenings_trace w' (by decide) ..).trans hh

theorem run_verdict (s : Stack) (w : World σ) (hl : s.label = .main) (hne : s.nodes ≠ [])
    (hb : Based root s.nodes) : Verdict root w (s.run w) := by
  have ht : Tally root w (drive s.stepBudget { s with last := none } w) :=
    drive_tally _ _ w hl hne hb
  have hm : Made (fun _ => False) s w (drive s.stepBudget { s with last := none } w) :=
    .of (drive_made ..) rfl rfl
  simp only [run]
  generalize drive s.stepBudget { s with last := none } w = p at ht hm
  cases ht with
  | on h hn =>
    split
    · exact .on (h.trans (invalidate_sameRun ..))
    · rw [if_neg (by simp [isEmpty, hn])]
      exact .on h
  | done ok h he hn hs hr hf =>
    rw [hf]
    simp only [isEmpty, hn, hs]
    exact finish_verdict h he (hm.label.trans hl) rfl hr

/-- A pass over an empty stack ends it. -/
theorem run_empty (w : World σ) (hn : s.nodes = []) (hs : s.state ≠ .ended) :
    s.run w = ({ s with last := none, current := none } : Stack).finish w := by
  have hrest : drive s.stepBudget { s with last := none } w = ⟨{ s with last := none }, w, none⟩ :=
    drive_still _ w (.inl hn)
  simp only [Stack.run]
  rw [hrest]
  exact if_pos (by simp [isEmpty, hn, hs])

/-- After the top node ended, the stack drives on with what is left of it. -/
theorem Tally.run (h : Tally root w p) (hl : p.after.label = .main)
    (hb : Based root p.after.nodes) :
    Verdict root w (({ p.after with parkedAt := none } : Stack).run p.world) := by
  cases h with
  | on h hn => exact .after h (run_verdict _ _ hl hn hb)
  | done ok h he hn hs hr hf =>
    have hne : p.after.state ≠ .ended := by simp [hs]
    rw [run_empty (s := { p.after with parkedAt := none }) _ hn hne]
    exact finish_verdict h he hl hn hr

theorem start_verdict (s : Stack) (w : World σ) (hl : s.label = .main) :
    Verdict root w (s.start w root) := by
  unfold start
  split
  · exact .refl
  next hs =>
  split
  · exact .refl
  have he : s.nodes = [] := by
    simp only [isEmpty, Bool.or_eq_true, Bool.not_eq_true', not_or, List.isEmpty_eq_false_iff,
      ne_eq, Decidable.not_not] at hs
    exact hs.1.2
  refine .after (.entered w s.label root _) (run_verdict _ _ hl (by simp [push]) ?_)
  simp only [push, he]
  exact ⟨by simp, by simp⟩

theorem restart_verdict (s : Stack) (w : World σ) (hl : s.label = .main) :
    Verdict root w (s.restart w root) := by
  unfold restart
  split <;> exact start_verdict _ w hl

/-- A stack that has ended is started over with the head. -/
theorem restart_enters {head : NodeId} (hs : s.state = .ended) (hn : s.nodes = [])
    (hc : s.current = none) (hg : w.graph.contains head) :
    ∃ more, (s.restart w head).world.happenings = w.happenings ++ .entered s.label head :: more := by
  let s' : Stack := { s with state := .ready, result := none, parkedAt := none, nodes := [head] }
  have hrun : (s.restart w head).world = (s'.run (w.entered s.label head 1)).world := by
    simp [s', restart, start, push, isEmpty, depth, hs, hn, hc, hg]
  obtain ⟨more, hmore⟩ := (s'.perform_writes (w.entered s.label head 1) .run).happenings
  rw [World.happenings_entered, List.append_assoc] at hmore
  exact ⟨more, (congrArg World.happenings hrun).trans hmore.symm⟩

theorem receiveReturn_verdict (s : Stack) (w : World σ) (ok : Bool) (hl : s.label = .main)
    (hb : Based root s.nodes) : Verdict root w (s.receiveReturn w ok) := by
  unfold receiveReturn
  split
  · exact .refl
  next node hs =>
  obtain ⟨-, rest, hn⟩ := suspended?_eq_some hs
  have ht : Tally root w (s.complete w node ok) := complete_tally ok hl hn hb
  have hm : Made (fun _ => False) s w (s.complete w node ok) := complete_made w ok hn
  have hb' := hm.acts.based (fun _ h => h.elim) hb
  have hl' := hm.label.trans hl
  split
  · next hp =>
    rw [hp] at ht
    cases ht with
    | on h hn => exact .on h
    | done _ _ _ _ _ _ hf => cases hf
  · next hp =>
    rw [hp] at ht hb' hl'
    exact ht.run hl' hb'

theorem receiveStatus_verdict (s : Stack) (w : World σ) (status : Status) (hl : s.label = .main)
    (hb : Based root s.nodes) : Verdict root w (s.receiveStatus w status) := by
  unfold receiveStatus
  split
  · exact receiveReturn_verdict s w _ hl hb
  split
  · exact .refl
  split
  · exact .refl
  · exact .refl
  · exact .on (errorResult_sameRun ..)
  · exact .refl

theorem resumeNextUpdate_verdict (s : Stack) (w : World σ) (hl : s.label = .main)
    (hne : s.nodes ≠ []) (hb : Based root s.nodes) :
    Verdict root w (s.resumeNextUpdate w).1 := by
  unfold resumeNextUpdate
  split
  · exact run_verdict _ w hl hne hb
  · exact .refl

theorem forwardHook_verdict (s : Stack) (w : World σ) (phase : Phase) (hl : s.label = .main)
    (hb : Based root s.nodes) : Verdict root w (s.forwardHook w phase) := by
  unfold forwardHook
  split
  · exact .refl
  next top _ =>
  split
  · exact .refl
  have hh : w.SameRun root (w.hook top phase).1 := .hook ..
  split
  · next hw => rw [hw] at hh; exact .on hh
  · next hw => rw [hw] at hh; exact .after hh (receiveStatus_verdict s _ _ hl hb)
  · next hw => rw [hw] at hh; exact .on hh

/-- What an operation of a tree on its main stack comes to, unless it rolls the stack back. -/
theorem perform_verdict (s : Stack) (w : World σ) {op : Operation} (hl : s.label = .main)
    (hb : Based root s.nodes) (hh : ∀ id, op.Heads id → id = root) (hroll : op.rollsBack = false)
    (hne : op = .run ∨ op = .resumeNextUpdate → s.nodes ≠ []) :
    Verdict root w (s.perform w op) := by
  cases op with
  | start head =>
    obtain rfl := hh head rfl
    exact start_verdict s w hl
  | restart head =>
    obtain rfl := hh head rfl
    exact restart_verdict s w hl
  | run => exact run_verdict s w hl (hne (.inl rfl)) hb
  | receiveReturn ok => exact receiveReturn_verdict s w ok hl hb
  | receiveStatus status => exact receiveStatus_verdict s w status hl hb
  | resumeNextUpdate => exact resumeNextUpdate_verdict s w hl (hne (.inr rfl)) hb
  | breakTo | terminate => cases hroll
  | forwardHook phase => exact forwardHook_verdict s w phase hl hb
  | pause | resume | applyConfig => exact .refl

/-! ## Other stacks -/

theorem outcome?_of_isOf {e : TraceEvent} {label : StackLabel} (h : e.IsOf label)
    (hl : label ≠ .main) : e.outcome? root = none := by
  refine if_neg fun ⟨_, hs, _⟩ => hl ?_
  exact StackLabel.traceId_injective (b := .main) (h.stack.symm.trans hs)

/-- No other stack has a part in the runs of the root. -/
theorem perform_sameRun (s : Stack) (w : World σ) (op : Operation) (hl : s.label ≠ .main) :
    w.SameRun root (s.perform w op).world := by
  have hm := s.perform_made w op
  obtain ⟨traced, ht, hof, -⟩ := (s.perform_logs w op).log
  obtain ⟨new, hr⟩ := hm.acts.replayed
  refine ⟨?_, hm.acts.mainEnds hl, new, hr.happenings, fun hmem => hl (hr.isOf _ hmem).symm⟩
  have hnone : traced.filterMap (TraceEvent.outcome? root) = [] :=
    List.filterMap_eq_nil_iff.2 fun e he => outcome?_of_isOf (hof e he) hl
  rw [World.outcomes, show (s.perform w op).world.traced = w.traced ++ traced from ht,
    List.filterMap_append, hnone, List.append_nil]
  rfl

/-! ## Rolling back -/

section

variable (root)

theorem unwind_outcomes (label : StackLabel) (stopAt : Option NodeId) (ns : List NodeId)
    (w : World σ) : (unwind label stopAt ns w).world.outcomes root = w.outcomes root ∧
      (unwind label stopAt ns w).world.mainEnds = w.mainEnds := by
  induction ns generalizing w with
  | nil => exact ⟨rfl, rfl⟩
  | cons top rest ih =>
    rw [unwind]
    split
    · exact ⟨rfl, rfl⟩
    split
    · exact ⟨rfl, rfl⟩
    next w' hw =>
    obtain ⟨ho, he⟩ := ih (w'.left label top rest.length)
    have hevents : w'.mainEnds = w.mainEnds :=
      congrArg (·.toList.filterMap StackEvent.mainEnd?) (World.interrupt_keeps hw).events
    refine ⟨ho.trans ?_, he.trans ((World.SameRun.mainEnds_left ..).trans hevents)⟩
    exact (World.outcomes_trace w' (by decide) ..).trans
      (World.outcomes_of_traced (World.traced_interrupt hw))

/-- A stack that is rolled back has no outcome. -/
theorem breakTo_outcomes (s : Stack) (w : World σ) (stopAt : Option NodeId) :
    (s.breakTo w stopAt).world.outcomes root = w.outcomes root ∧
      (s.breakTo w stopAt).world.mainEnds = w.mainEnds := by
  unfold breakTo
  split
  · exact ⟨rfl, rfl⟩
  have hu := unwind_outcomes root s.label stopAt s.nodes w
  split
  · next he => rw [he] at hu; exact hu
  · next he =>
    rw [he] at hu
    exact ⟨(World.outcomes_trace _ (by decide) ..).trans hu.1, hu.2⟩

theorem terminate_outcomes (s : Stack) (w : World σ) :
    (s.terminate w).world.outcomes root = w.outcomes root ∧
      (s.terminate w).world.mainEnds = w.mainEnds := by
  have hb := breakTo_outcomes root s w none
  unfold terminate
  split
  · next he => rw [he] at hb; exact hb
  · next he =>
    rw [he] at hb
    simp only
    split
    · exact hb
    · exact ⟨(World.outcomes_trace _ (by decide) ..).trans hb.1, hb.2⟩

theorem perform_outcomes (s : Stack) (w : World σ) {op : Operation} (h : op.rollsBack) :
    (s.perform w op).world.outcomes root = w.outcomes root ∧
      (s.perform w op).world.mainEnds = w.mainEnds := by
  cases op with
  | breakTo stopAt => exact breakTo_outcomes root s w stopAt
  | terminate => exact terminate_outcomes root s w
  | _ => cases h

end

/-! ## Ending -/

theorem complete_unended (ok : Bool) (hs : s.state ≠ .ended) :
    (s.complete w node ok).after.state ≠ .ended := by
  unfold complete
  split
  · exact hs
  · simp

theorem settleStatus_unended (status : Status) (hs : s.state ≠ .ended) :
    (s.settleStatus w node status).after.state ≠ .ended := by
  cases status with
  | noReturn =>
    simp only [settleStatus]
    split <;> exact hs
  | success | failed => exact complete_unended _ hs
  | wait | waitUntilNextUpdate => simp [settleStatus, suspend, park]
  | error => simp [settleStatus, errorResult, halt]

theorem apply_unended (d : Dispatch) (hs : s.state ≠ .ended) :
    (s.apply w node d).after.state ≠ .ended := by
  match d with
  | .bindFailed e => simp [apply, bindFailed, halt]
  | .answered status [] => exact settleStatus_unended status hs
  | .answered _ (_ :: _ :: _) => exact hs
  | .answered status [child] =>
    simp only [apply, call]
    split
    · exact hs
    split
    · exact hs
    split
    · exact hs
    · exact settleStatus_unended status (by simp)

theorem step_unended (top : NodeId) (hs : s.state ≠ .ended) :
    (s.step w top).after.state ≠ .ended := by
  simp only [step]
  split
  · exact hs
  split
  · split
    · exact hs
    split
    · exact hs
    · exact apply_unended _ hs
  · split
    · simp
    · exact apply_unended _ (by simp)

theorem drive_unended (budget : Nat) (hs : s.state ≠ .ended) :
    (drive budget s w).after.state ≠ .ended := by
  induction budget generalizing s w with
  | zero =>
    rw [drive]
    split
    · exact hs
    split
    · exact hs
    split
    · exact hs
    · exact hs
  | succ budget ih =>
    rw [drive]
    split
    · exact hs
    split
    · exact hs
    split
    · exact hs
    simp only
    split
    · exact step_unended _ hs
    · exact ih (step_unended _ hs)

/-- A pass that ends the main stack queues its end. -/
theorem run_tells (hl : s.label = .main) (hs : s.state ≠ .ended)
    (he : (s.run w).after.state = .ended) : (s.run w).world.mainEnds ≠ [] := by
  have hd : (drive s.stepBudget { s with last := none } w).after.state ≠ .ended :=
    drive_unended _ hs
  have hm : Made (fun _ => False) s w (drive s.stepBudget { s with last := none } w) :=
    .of (drive_made ..) rfl rfl
  simp only [run] at he ⊢
  generalize drive s.stepBudget { s with last := none } w = p at hd hm he ⊢
  split at he
  · cases he
  split at he
  · next hended =>
    rw [if_pos hended, mainEnds_finish (s := { p.after with current := none }) p.world
      (hm.label.trans hl)]
    simp
  · exact absurd he hd

theorem start_tells (head : NodeId) (hl : s.label = .main) (hs : s.state ≠ .ended)
    (he : (s.start w head).after.state = .ended) : (s.start w head).world.mainEnds ≠ [] := by
  unfold start at he ⊢
  split at he
  · exact absurd he hs
  next hready =>
  rw [if_neg hready]
  split at he
  · exact absurd he hs
  next hknown =>
  rw [if_neg hknown]
  exact run_tells hl hs he

theorem receiveReturn_tells (ok : Bool) (hl : s.label = .main) (hs : s.state ≠ .ended)
    (he : (s.receiveReturn w ok).after.state = .ended) :
    (s.receiveReturn w ok).world.mainEnds ≠ [] := by
  unfold receiveReturn at he ⊢
  split at he
  · exact absurd he hs
  next node hsusp =>
  obtain ⟨-, rest, hn⟩ := suspended?_eq_some hsusp
  have hu : (s.complete w node ok).after.state ≠ .ended := complete_unended ok hs
  have hm : Made (fun _ => False) s w (s.complete w node ok) := complete_made w ok hn
  generalize s.complete w node ok = p at hu hm he ⊢
  obtain ⟨s', w', fault⟩ := p
  cases fault with
  | some e => exact absurd he hu
  | none => exact run_tells (s := { s' with parkedAt := none }) (hm.label.trans hl) hu he

theorem receiveStatus_tells (status : Status) (hl : s.label = .main) (hs : s.state ≠ .ended)
    (he : (s.receiveStatus w status).after.state = .ended) :
    (s.receiveStatus w status).world.mainEnds ≠ [] := by
  unfold receiveStatus at he ⊢
  split at he
  · exact receiveReturn_tells _ hl hs he
  split at he
  · exact absurd he hs
  split at he <;> first | exact absurd he hs | cases he

theorem forwardHook_tells (phase : Phase) (hl : s.label = .main) (hs : s.state ≠ .ended)
    (he : (s.forwardHook w phase).after.state = .ended) :
    (s.forwardHook w phase).world.mainEnds ≠ [] := by
  unfold forwardHook at he ⊢
  split at he
  · exact absurd he hs
  split at he
  · exact absurd he hs
  next hp =>
  rw [if_neg hp]
  split at he
  · exact absurd he hs
  · exact receiveStatus_tells _ hl hs he
  · exact absurd he hs

theorem breakTo_unended (stopAt : Option NodeId) (hs : s.state ≠ .ended) :
    (s.breakTo w stopAt).after.state ≠ .ended := by
  unfold breakTo
  split
  · exact hs
  split
  · exact hs
  · simp

/-- Only the end of a pass ends the main stack, unless the host ends it, and the end is queued. -/
theorem perform_tells {op : Operation} (hop : op ≠ .terminate) (hl : s.label = .main)
    (hs : s.state ≠ .ended) (he : (s.perform w op).after.state = .ended) :
    (s.perform w op).world.mainEnds ≠ [] := by
  cases op with
  | start head => exact start_tells head hl hs he
  | restart head =>
    simp only [perform, restart, if_neg hs] at he ⊢
    exact start_tells head hl hs he
  | run => exact run_tells hl hs he
  | receiveReturn ok => exact receiveReturn_tells ok hl hs he
  | receiveStatus status => exact receiveStatus_tells status hl hs he
  | resumeNextUpdate =>
    simp only [perform, resumeNextUpdate] at he ⊢
    split at he
    · next hd =>
      rw [if_pos hd]
      exact run_tells (s := { s with parkedAt := none, state := .calling }) hl (by simp) he
    · exact absurd he hs
  | breakTo stopAt => exact absurd he (breakTo_unended stopAt hs)
  | terminate => exact absurd rfl hop
  | forwardHook phase => exact forwardHook_tells phase hl hs he
  | pause | resume | applyConfig => exact absurd he hs

end Stack

end BehaviorTree
