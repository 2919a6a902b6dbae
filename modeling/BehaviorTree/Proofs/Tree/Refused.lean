/-
Calls that are refused.

A call that asks of a stack what it is not fit for is answered with an error and reported, one that
names what the tree does not have is answered with an error, and an end that nobody waits for is
answered with false. Nothing else comes of such a call: after it, all calls do and answer what they
would have without it.
-/
import BehaviorTree.Proofs.Tree.Reports
import BehaviorTree.Proofs.Tree.Restart
import BehaviorTree.Proofs.Tree.Running
import BehaviorTree.Proofs.Tree.Unread

namespace BehaviorTree

variable {σ : Type} [Node σ]

namespace Tree

variable {g : Graph σ} {root : NodeId} {t u : Tree σ} {call : HostCall} {b : Breach}
  {e : Option TreeError} {found : List Breach}

/-- The call asks of a stack what it is not fit for. -/
inductive Offends (t : Tree σ) : HostCall → Breach → Prop
  | start (h : t.main.nodes ≠ []) :
      Offends t .start ⟨.main, .notReady .main t.main.state t.main.depth⟩
  | receiveReturn (ok : Bool) (h : t.main.isWaiting = false) :
      Offends t (.receiveReturn ok) ⟨.main, .notWaiting .main t.main.state⟩
  | breakMain {target : NodeId} (h : target ∉ t.main.nodes) :
      Offends t (.breakMain (some target)) ⟨.main, .breakTargetNotOnStack .main target⟩
  | breakService {service target : NodeId} {v : Service} (hv : t.service? service = some v)
      (h : target ∉ v.stack.nodes) :
      Offends t (.breakService service (some target))
        ⟨.service service, .breakTargetNotOnStack (.service service) target⟩

/-- The call is refused: the error that it is answered with, if it is an error, and what is
reported of it. -/
inductive Refuses (t : Tree σ) : HostCall → Option TreeError → List Breach → Prop
  | offends {call : HostCall} {b : Breach} (h : t.Offends call b) :
      Refuses t call (some (.stack b.error)) [b]
  | unknown {call : HostCall} {e : TreeError} (h : t.Unknown call e) : Refuses t call (some e) []
  | endAction {p : Progress} {ok : Bool} (h : (t.endAction p ok).2 = .ok false) :
      Refuses t (.endAction p ok) none []
  | endNode {node : NodeId} {ok : Bool} (h : (t.endNode node ok).2 = .ok false) :
      Refuses t (.endNode node ok) none []

/-- The second tree is the first one but for a notice in its history, before what is new in both,
and for the tick at which the main stack last ended, which no host sees. It answers every call
alike. -/
structure Unheard (notice past : List Record) (t u : Tree σ) : Prop where
  same : ∃ new endedAt, t.world.history = new ++ past ∧
    u = { t with endedAt, world := { t.world with history := new ++ notice ++ past } }
  answers : ∀ call, u.answer call = t.answer call ∧ u.ended? call = t.ended? call

/-! ## What is refused -/

/-- A rule that is found broken with nothing done is reported. -/
theorem conclude_refused (h : t.world.events.toList = []) (label : StackLabel) (e : StackError) :
    conclude label ⟨t, some e⟩ = ⟨{ t with world := t.world.report (.ofFault label e) }, some e⟩ := by
  have hs : t.settle = ⟨t, none⟩ := settleFrom_of_none (Queue.pop?_eq_none_iff.2 h) none
  simp [conclude, Outcome.settle, hs, note]

theorem endAction_refused {p : Progress} {ok : Bool} (h : (t.endAction p ok).2 = .ok false) :
    (t.endAction p ok).1 = t := by
  unfold endAction at h ⊢
  split
  · rfl
  · next hd =>
    rw [hd] at h
    simp only at h
    split at h <;> cases h

/-- A call that offends a stack is reported, and answered with the error. Nothing else comes of it,
but that a tree that is started forgets when it ended. -/
theorem Offends.perform (h : t.Offends call b) (ht : t.Settled) (ha : t.Awake) :
    t.answer call = some (.stack b.error) ∧ ∃ e, t.Heedless e ∧ t.perform call
      = { t with endedAt := e, world := t.world.report (.ofFault b.stack b.error) } := by
  have hl : t.main.label = .main := ht.sound.main_label
  cases h with
  | start h =>
    have hrun : t.running = true := ha.running h
    have hstate : t.main.state ≠ .ended := fun hs => h (ht.sound.main.of_ended hs)
    have hs : t.start = conclude .main
        ⟨{ t with endedAt := none }, some (.notReady .main t.main.state t.main.depth)⟩ := by
      simp [Tree.start, Stack.restart, Stack.start, Stack.isEmpty, keepMain, hstate, h, hl, hrun]
    rw [conclude_refused (t := { t with endedAt := none }) ht.settled] at hs
    exact ⟨by simp [answer, hs], none, .inr fun _ he => absurd he hstate,
      by simp only [Tree.perform, hs]⟩
  | receiveReturn ok h =>
    have hr : t.receiveReturn ok
        = conclude .main ⟨t, some (.notWaiting .main t.main.state)⟩ := by
      simp [Tree.receiveReturn, Stack.receiveReturn, Stack.suspended?, keepMain, h, hl]
    rw [conclude_refused ht.settled] at hr
    exact ⟨by simp [answer, hr], t.endedAt, .inl rfl, by simp only [Tree.perform, hr]⟩
  | @breakMain target h =>
    have hb : t.breakMain (some target)
        = conclude .main ⟨t, some (.breakTargetNotOnStack .main target)⟩ := by
      simp [Tree.breakMain, Stack.breakTo, Stack.contains, keepMain, Option.filter, h, hl]
    rw [conclude_refused ht.settled] at hb
    exact ⟨by simp [answer, hb], t.endedAt, .inl rfl, by simp only [Tree.perform, hb]⟩
  | @breakService service target v hv h =>
    obtain ⟨hm, rfl⟩ : v ∈ t.services ∧ v.service = service := service?_eq_some hv
    have hvl : v.stack.label = .service v.service := ht.sound.labels v hm
    have hkept : t.keepService (v.keep (v.stack.breakTo t.world (some target)))
        = ⟨t, some (.breakTargetNotOnStack (.service v.service) target)⟩ := by
      simp [Stack.breakTo, Stack.contains, Option.filter, h, hvl, Service.keep, Pass.map,
        keepService, putService_self ht.sound.nodup hm]
    have hb := conclude_refused ht.settled (.service v.service)
      (.breakTargetNotOnStack (.service v.service) target)
    rw [← hkept] at hb
    simp only [answer, Tree.perform, Tree.breakService, hv, Service.label, hvl, hb]
    exact ⟨rfl, t.endedAt, .inl rfl, rfl⟩

/-- An error is told of, or it is answered that nobody waited; and but for what is reported nothing
comes of the call. -/
theorem Refuses.perform (h : t.Refuses call e found) (ht : t.Settled) (ha : t.Awake)
    (hg : Rooted g root t) :
    t.answer call = e ∧ ∃ endedAt, t.Heedless endedAt ∧ t.perform call
      = { t with endedAt, world := { t.world with
            history := found.map (fun b => .reported (b.diagnostic g)) ++ t.world.history } } := by
  cases h with
  | @offends _ b h =>
    obtain ⟨hanswer, e, he, hperform⟩ := h.perform ht ha
    refine ⟨hanswer, e, he, hperform.trans ?_⟩
    simp [World.report, World.record, Breach.diagnostic, Diagnostic.ofFault, hg.name?]
  | unknown h =>
    obtain ⟨hsame, hanswer⟩ := h.perform
    exact ⟨hanswer, t.endedAt, .inl rfl, hsame⟩
  | @endAction p ok h =>
    refine ⟨congrArg refusal? h, t.endedAt, .inl rfl, endAction_refused h⟩
  | @endNode node ok h =>
    refine ⟨congrArg refusal? h, t.endedAt, .inl rfl, ?_⟩
    unfold Tree.endNode at h
    cases hp : t.world.progress? node with
    | none => rw [hp] at h; cases h
    | some p =>
      rw [hp] at h
      simp only [Tree.perform, Tree.endNode, hp]
      exact endAction_refused h

/-- One tree after two pasts, the second of which has the notice on top of the first. -/
theorem unheard_of_echo {x : Tree σ} {notice past : List Record} (ht : Echo past x t)
    (hu : Echo (notice ++ past) x u) (hends : x.world.mainEnds = []) : Unheard notice past t u := by
  refine ⟨⟨x.world.history, u.endedAt, congrArg World.history ht.world, ?_⟩, fun call => ⟨?_, ?_⟩⟩
  · rw [hu.eq, ht.eq]
    simp [recast, World.onto]
  · rw [(hu.perform hends call).answer, (ht.perform hends call).answer]
  · rw [(hu.perform hends call).ended, (ht.perform hends call).ended]

/-- Whatever the host has called, a call that is refused is answered as it should be, what offends a
stack is reported once, and all later calls do and answer what they would have without it. -/
theorem refused_unheard {blackboard : Blackboard} (hm : make g root blackboard = .ok t)
    (calls : List HostCall) (h : (t.performAll calls).Refuses call e found)
    (later : List HostCall) :
    (t.performAll calls).answer call = e ∧
      Unheard (found.map fun b => .reported (b.diagnostic g)) (t.performAll calls).world.history
        ((t.performAll calls).performAll later)
        (((t.performAll calls).perform call).performAll later) := by
  have hmade := settled_make hm
  have ht := performAll_settled hmade calls
  have hawake := performAll_awake hmade (awake_make hm) calls
  have hrooted := performAll_rooted hm calls
  obtain ⟨hanswer, endedAt, hheed, hperform⟩ := h.perform ht hawake hrooted
  generalize t.performAll calls = t at *
  rw [hperform]
  refine ⟨hanswer, ?_⟩
  generalize found.map (fun b => Record.reported (b.diagnostic g)) = notice
  -- Both trees are the one without a past, each with its own.
  let blank : Tree σ := { t with world := { t.world with history := [] } }
  have hends : blank.world.mainEnds = [] := World.mainEnds_of_settled ht.settled
  have hbefore : Echo t.world.history blank t :=
    .of_eq (t := blank) t.endedAt rfl ht.sound.main_label (.inl rfl)
  have hafter : Echo (notice ++ t.world.history) blank
      { t with endedAt, world := { t.world with history := notice ++ t.world.history } } :=
    .of_eq (t := blank) endedAt rfl ht.sound.main_label hheed
  obtain ⟨hplain, hnone⟩ := hbefore.performAll hends later
  obtain ⟨hnoted, -⟩ := hafter.performAll hends later
  exact unheard_of_echo hplain hnoted hnone

section Lingering

/-- Waits to be ended. -/
def lingering : Graph Scripted where
  slots := #[{ name := "Root", node := { name := "Root", execute := [{ answer := some .wait }] } }]

/-- The host starts the tree a second time. That is refused, and when the root is ended after it,
all is as it would have been without it. -/
theorem refused_unheard_lingering :
    ∃ t u, make lingering ⟨0⟩ {} = .ok t ∧ t.performAll [.start] = u ∧
      u.answer .start = some (.stack (.notReady .main .waiting 1)) ∧
      Unheard [.reported (Breach.diagnostic lingering ⟨.main, .notReady .main .waiting 1⟩)]
        u.world.history (u.performAll [.endNode ⟨0⟩ true])
        ((u.perform .start).performAll [.endNode ⟨0⟩ true]) := by
  obtain ⟨t, u, hm, hu, hnodes, hstate, hdepth⟩ :
      ∃ t u, make lingering ⟨0⟩ {} = .ok t ∧ t.performAll [.start] = u ∧ u.main.nodes ≠ [] ∧
        u.main.state = .waiting ∧ u.main.depth = 1 :=
    ⟨_, _, rfl, rfl, by decide +kernel, by decide +kernel, by decide +kernel⟩
  have hrefused : (t.performAll [.start]).Refuses .start _ _ :=
    .offends (.start (by rw [hu]; exact hnodes))
  obtain ⟨hanswer, hsame⟩ := refused_unheard hm [.start] hrefused [.endNode ⟨0⟩ true]
  rw [hu, hstate, hdepth] at hanswer hsame
  exact ⟨t, u, hm, hu, hanswer, hsame⟩

end Lingering

end Tree

end BehaviorTree
