/-
Runs that spare paused stacks and keep to the time.

A step says in which states of a stack a tree does what to it by itself, but not whether the
stack is paused then. A run spares paused stacks if each of its steps leaves a stack that was
paused paused, and as it was unless it is suspended, but for what the call orders. A stack that
goes with its service is not there any more to be paused. And only a phase takes ends out of
the schedule that are due.
-/
import BehaviorTree.Proofs.Stack.Held
import BehaviorTree.Proofs.Stack.Lasting
import BehaviorTree.Proofs.Tree.StackChanges

namespace BehaviorTree

/-- The calls that are phases of a tick. -/
def HostCall.isPhase : HostCall → Bool
  | .update _ | .fixedUpdate _ | .lateUpdate _ | .tick _ => true
  | _ => false

variable {σ : Type} [Node σ]

/-! ## Stacks -/

namespace Stack

/-- The stack was paused and is left to itself: it stays paused, and goes on from where it was
unless it was suspended. -/
structure Abides (s s' : Stack) : Prop where
  paused : s'.paused
  nodes : s.isWaiting = false → s'.nodes = s.nodes
  state : s.isWaiting = false → s'.state = s.state
  result : s.isWaiting = false → s'.result = s.result

theorem Abides.refl {s : Stack} (h : s.paused) : s.Abides s :=
  ⟨h, fun _ => rfl, fun _ => rfl, fun _ => rfl⟩

/-- What a tree does by itself even to a paused stack. -/
def Operation.reaches : Operation → Bool
  | .receiveReturn _ | .forwardHook _ => true
  | _ => false

/-- An end from outside finds only a suspended stack, and a hook finds no paused one. -/
theorem Sound.abides_perform {s : Stack} {w : World σ} {op : Operation} (h : s.Sound w)
    (hp : s.paused) (hop : op.reaches) : s.Abides (s.perform w op).after := by
  have hreleases : op.releases = false := by
    cases op <;> first | rfl | cases hop
  have hsame : s.isWaiting = false → (s.perform w op).after = s := by
    intro hw
    have hnone : s.suspended? = none := if_neg (by simp [hw])
    cases op with
    | receiveReturn ok => simp [Stack.perform, Stack.receiveReturn, hnone]
    | forwardHook phase => simp [Stack.perform, Stack.forwardHook, hnone]
    | _ => cases hop
  exact ⟨h.paused_perform hp hreleases, fun hw => by rw [hsame hw], fun hw => by rw [hsame hw],
    fun hw => by rw [hsame hw]⟩

end Stack

/-! ## Services -/

namespace Service

/-- A paused stack is left to itself, but for an operation that is allowed in any state. -/
def Spares (allowed : Stack.Operation → Prop) (x y : Service × World σ) : Prop :=
  x.1.stack.paused → x.1.stack.Abides y.1.stack ∨ ∃ op, allowed op ∧
    y.1.stack = (x.1.stack.perform x.2 op).after ∧ y.2 = (x.1.stack.perform x.2 op).world

/-- Any number of steps that spare a paused stack. -/
inductive GuardedRuns (allowed : Stack.Operation → Prop) :
    Service × World σ → List Breach → Service × World σ → Prop
  | refl (x : Service × World σ) : GuardedRuns allowed x [] x
  | step {x y z : Service × World σ} {found found' : List Breach}
      (h : GuardedRuns allowed x found y)
      (h' : Step allowed y found' z) (hs : Spares allowed y z) :
      GuardedRuns allowed x (found ++ found') z

variable {allowed : Stack.Operation → Prop} {x y z : Service × World σ}
  {found found' : List Breach}

theorem Step.guarded (h : Step allowed x found y) (hs : Spares allowed x y) :
    GuardedRuns allowed x found y :=
  .step (.refl x) h hs

/-- The step leaves the stack as it is. -/
theorem Step.guarded_of_same (h : Step allowed x found y) (hs : y.1.stack = x.1.stack) :
    GuardedRuns allowed x found y :=
  h.guarded fun hp => .inl (by rw [hs]; exact .refl hp)

theorem GuardedRuns.trans (h : GuardedRuns allowed x found y)
    (h' : GuardedRuns allowed y found' z) :
    GuardedRuns allowed x (found ++ found') z := by
  induction h' with
  | refl => simpa using h
  | step _ hs hp ih =>
    rw [← List.append_assoc]
    exact ih.step hs hp

/-- Nothing was found in the first part. -/
theorem GuardedRuns.quiet (h : GuardedRuns allowed x [] y) (h' : GuardedRuns allowed y found z) :
    GuardedRuns allowed x found z := by
  simpa using h.trans h'

theorem GuardedRuns.service (h : GuardedRuns allowed x found y) : y.1.service = x.1.service := by
  induction h with
  | refl => rfl
  | step _ h _ ih => exact h.service.trans ih

theorem GuardedRuns.label (h : GuardedRuns allowed x found y) : y.1.label = x.1.label := by
  induction h with
  | refl => rfl
  | step _ h _ ih => exact h.label.trans ih

theorem GuardedRuns.sound (h : GuardedRuns allowed x found y) (hs : x.1.stack.Sound x.2) :
    y.1.stack.Sound y.2 := by
  induction h with
  | refl => exact hs
  | step _ h _ ih => exact h.sound ih

theorem Step.lasts (h : Step allowed x found y) : x.2.Lasts y.2 := by
  cases h with
  | operate => exact Stack.perform_lasts ..
  | count => exact .refl _
  | ask v w => exact (World.Goes.ready ..).lasts
  | trace => exact (World.Lasts.refl _).trace ..

theorem GuardedRuns.mono {allowed' : Stack.Operation → Prop} (h : GuardedRuns allowed x found y)
    (ha : ∀ op, allowed op → allowed' op) : GuardedRuns allowed' x found y := by
  induction h with
  | refl => exact .refl _
  | step _ h hs ih =>
    refine ih.step ?_ fun hp => (hs hp).imp_right fun ⟨op, hop, he⟩ => ⟨op, ha op hop, he⟩
    cases h with
    | operate v w h => exact .operate v w (h.imp id (ha _))
    | count v w lastStarted runs => exact .count v w lastStarted runs
    | ask v w => exact .ask v w
    | trace v w h node value => exact .trace v w h node value

end Service

/-! ## Trees -/

namespace Tree

/-- A stack that was paused and is still there is left to itself, but for what the call orders. -/
def Spares (call : HostCall) (t t' : Tree σ) : Prop :=
  ∀ label s, t.stack? label = some s → s.paused → ∀ s', t'.stack? label = some s' →
    s.Abides s' ∨ ∃ op, call.Orders t.root label op ∧ s' = (s.perform t.world op).after ∧
      t'.world = (s.perform t.world op).world

/-- What is due is taken out of the schedule in a phase only, and there the clock is set. -/
structure Punctual (call : HostCall) (t t' : Tree σ) : Prop where
  lasts : t.world.Lasts t'.world ∨ call.isPhase ∧ t'.world = t.world.takeDue.2
  tick : t'.world.tick = t.world.tick ∨ call.isPhase

/-- Any number of steps that spare the paused stacks and are punctual, with the breaches found
and those reported. -/
inductive GuardedRuns (call : HostCall) : Tree σ → List Breach → List Breach → Tree σ → Prop
  | refl (t : Tree σ) : GuardedRuns call t [] [] t
  | step {t t' t'' : Tree σ} {found found' told : List Breach}
      (h : GuardedRuns call t found told t')
      (h' : Step call t' found' t'') (hs : Spares call t' t'') (hp : Punctual call t' t'') :
      GuardedRuns call t (found ++ found') told t''
  | report {t t' : Tree σ} {found told : List Breach} {b : Breach}
      (h : GuardedRuns call t found told t')
      (hb : b ∈ found) :
      GuardedRuns call t found (told ++ [b])
        { t' with world := t'.world.report (.ofFault b.stack b.error) }

variable {call : HostCall} {t t' t'' : Tree σ} {found found' told told' : List Breach}

theorem Step.guarded (h : Step call t found t') (hs : Spares call t t')
    (hl : t.world.Lasts t'.world) (hk : t'.world.tick = t.world.tick) :
    GuardedRuns call t found [] t' :=
  .step (.refl t) h hs ⟨.inl hl, .inl hk⟩

/-- Only in a phase is the clock set. -/
theorem GuardedRuns.tick (h : GuardedRuns call t found told t') (hc : call.isPhase = false) :
    t'.world.tick = t.world.tick := by
  induction h with
  | refl => rfl
  | step _ _ _ hp ih =>
    rcases hp.tick with hk | hc'
    · exact hk.trans ih
    · simp [hc] at hc'
  | report _ _ ih => exact ih

theorem GuardedRuns.runs (h : GuardedRuns call t found told t') : Runs call t found told t' := by
  induction h with
  | refl => exact .refl _
  | step _ h _ _ ih => exact ih.step h
  | report _ hb ih => exact ih.report hb

theorem GuardedRuns.sound (h : GuardedRuns call t found told t') (ht : t.Sound) : t'.Sound :=
  h.runs.sound ht

theorem GuardedRuns.trans (h : GuardedRuns call t found told t')
    (h' : GuardedRuns call t' found' told' t'') :
    GuardedRuns call t (found ++ found') (told ++ told') t'' := by
  induction h' with
  | refl => simpa using h
  | step _ hs hp hl ih =>
    rw [← List.append_assoc]
    exact ih.step hs hp hl
  | report _ hb ih =>
    rw [← List.append_assoc]
    exact ih.report (List.mem_append_right _ hb)

/-- Nothing was found in the first part. -/
theorem GuardedRuns.quiet (h : GuardedRuns call t [] [] t')
    (h' : GuardedRuns call t' found told t'') :
    GuardedRuns call t found told t'' := by
  simpa using h.trans h'

/-- Nothing is found in the second part. -/
theorem GuardedRuns.then (h : GuardedRuns call t found told t')
    (h' : GuardedRuns call t' [] [] t'') :
    GuardedRuns call t found told t'' := by
  simpa using h.trans h'

theorem spares_of_same (hm : t'.main = t.main) (hs : t'.services = t.services) :
    Spares call t t' := by
  intro label s h hp s' h'
  have hsame : t'.stack? label = t.stack? label := by
    cases label with
    | main => exact congrArg some hm
    | service id => simp only [stack?, service?, hs]
  rw [hsame, h] at h'
  cases h'
  exact .inl (.refl hp)

/-- The step leaves all the stacks as they are. -/
theorem Step.guarded_of_same (h : Step call t found t') (hm : t'.main = t.main)
    (hs : t'.services = t.services) (hl : t.world.Lasts t'.world)
    (hk : t'.world.tick = t.world.tick) : GuardedRuns call t found [] t' :=
  h.guarded (spares_of_same hm hs) hl hk

/-- Fields of the tree that are no stacks. -/
theorem guarded_fields (call : HostCall) (t : Tree σ) (running : Bool) (endedAt : Option Nat)
    (completedRuns : Nat) (lastResult : Option Bool) :
    GuardedRuns call t [] [] { t with running, endedAt, completedRuns, lastResult } :=
  (Step.fields t running endedAt completedRuns lastResult).guarded_of_same rfl rfl (.refl _) rfl

theorem guarded_trace (call : HostCall) (t : Tree σ) {tag : String} (h : IsQuiet tag)
    (label : StackLabel) (node : Option NodeId) (value : Int) :
    GuardedRuns call t [] [] { t with world := t.world.trace tag label node value } :=
  (Step.trace t h label node value).guarded_of_same rfl rfl ((World.Lasts.refl _).trace ..) rfl

theorem spares_main (ht : t.Sound) {op : Stack.Operation}
    (h : (t.main.paused → op.reaches) ∨ call.Orders t.root .main op) :
    Spares call t (t.keepMain (t.main.perform t.world op)).tree := by
  intro label s hs hp s' hs'
  cases label with
  | main =>
    cases hs
    cases hs'
    rcases h with h | h
    · exact .inl (ht.main.abides_perform hp (h hp))
    · exact .inr ⟨op, h, rfl, rfl⟩
  | service id =>
    rw [show (t.keepMain (t.main.perform t.world op)).tree.stack? (.service id)
      = t.stack? (.service id) from rfl, hs] at hs'
    cases hs'
    exact .inl (.refl hp)

theorem spares_service {v v' : Service} {w : World σ} (ht : t.Sound) (hv : v ∈ t.services)
    (h : v'.service = v.service)
    (hs : Service.Spares (call.Orders t.root v.label) (v, t.world) (v', w)) :
    Spares call t { t.putService v' with world := w } := by
  intro label s hl hp s' hl'
  rw [stack?_putService ht hv h] at hl'
  split at hl'
  · next he =>
    rw [← ht.labels v hv] at he
    subst he
    rw [stack?_of_mem ht hv] at hl
    cases hl
    cases hl'
    exact hs hp
  · rw [hl] at hl'
    cases hl'
    exact .inl (.refl hp)

theorem spares_eraseService (ht : t.Sound) (service : NodeId) (w : World σ) :
    Spares call t { t with world := w, services := t.services.eraseP (·.service = service) } := by
  intro label s hl hp s' hl'
  rw [stack?_eraseService ht] at hl'
  split at hl'
  · cases hl'
  · rw [hl] at hl'
    cases hl'
    exact .inl (.refl hp)

/-- A service that is registered anew has a stack of its own. -/
theorem guarded_register {owner service : NodeId} (h : service ∈ t.world.graph.servicesOf owner) :
    GuardedRuns call t [] [] (registerService owner t service) := by
  refine (Step.register t h).guarded (fun label s hl hp s' hl' => .inl ?_) ?_ ?_
  rotate_left
  · unfold registerService
    split
    · exact .refl _
    · exact (World.Goes.registered t.world service).lasts.trace _ _ _ _
  · unfold registerService
    split
    · rfl
    · exact World.tick_registered t.world service
  have hsame : (registerService owner t service).stack? label = some s := by
    unfold registerService
    split
    · exact hl
    cases label with
    | main => exact hl
    | service id =>
      obtain ⟨v, hv, rfl⟩ := Option.map_eq_some_iff.1 hl
      show Option.map _ (List.find? _ (t.services ++ _)) = _
      rw [List.find?_append, show t.services.find? (·.service = id) = some v from hv]
      rfl
  rw [hsame] at hl'
  cases hl'
  exact .refl hp

theorem lasts_tornDown (s : Stack) (w : World σ) (service : NodeId) :
    w.Lasts ((s.terminate w).world.unregistered service) :=
  (s.perform_lasts w .terminate).trans (World.Goes.unregistered _ service).lasts

theorem tick_tornDown (s : Stack) (w : World σ) (service : NodeId) :
    ((s.terminate w).world.unregistered service).tick = w.tick :=
  (World.tick_unregistered _ service).trans (s.perform_frame w .terminate).tick

theorem guarded_unregister (ht : t.Sound) (owner service : NodeId) :
    GuardedRuns call t [] [] (unregisterService owner ⟨t, none⟩ service).tree := by
  refine (Step.unregister t owner service).guarded ?_ ?_ ?_
  all_goals
    unfold unregisterService
    split
  · exact spares_of_same rfl rfl
  · exact spares_eraseService ht service _
  · exact .refl _
  · exact (lasts_tornDown ..).trace _ _ _ _
  · rfl
  · exact tick_tornDown ..

theorem guarded_tearDown (ht : t.Sound) {v : Service} (hv : t.service? v.service = some v) :
    GuardedRuns .terminate t [] []
      { t with
        world := (v.stack.terminate t.world).world.unregistered v.service
        services := t.services.eraseP (·.service = v.service) } :=
  (Step.tearDown t rfl hv).guarded (spares_eraseService ht v.service _) (lasts_tornDown ..)
    (tick_tornDown ..)

theorem guarded_config (t : Tree σ) (config : Config) :
    GuardedRuns (.withConfig config) t [] [] (t.withConfig config) := by
  refine (Step.config t rfl).guarded (fun label s hl hp s' hl' => .inl ?_) (.refl _) rfl
  rw [stack?_withConfig, hl] at hl'
  cases hl'
  exact ⟨hp, fun _ => rfl, fun _ => rfl, fun _ => rfl⟩

/-- What a service does in its own steps is done in the tree. -/
theorem guarded_service {v v' : Service} {w : World σ} (ht : t.Sound) (hv : v ∈ t.services)
    (h : Service.GuardedRuns (call.Orders t.root v.label) (v, t.world) found (v', w)) :
    GuardedRuns call t found [] { t.putService v' with world := w } := by
  generalize hx : (v, t.world) = x at h
  generalize hy : (v', w) = y at h
  induction h generalizing v' w with
  | refl =>
    subst hx
    cases hy
    rw [putService_self ht.nodup hv]
    exact .refl t
  | @step y z found found' h hs hp ih =>
    subst hx
    subst hy
    obtain ⟨u, wu⟩ := y
    have hu : u.service = v.service := h.service
    have hl : u.label = v.label := h.label
    have hrun := ih rfl
    have hm : u ∈ ({ t.putService u with world := wu } : Tree σ).services :=
      putService_mem (hu ▸ List.mem_map_of_mem hv)
    have hstep : Step call { t.putService u with world := wu } found' _ :=
      .service _ hm (by rw [hl]; exact hs)
    have hspares : Spares call { t.putService u with world := wu } _ :=
      spares_service (hrun.sound ht) hm hs.service (by rw [hl]; exact hp)
    have he : (t.putService u).putService v' = t.putService v' :=
      putService_putService t hs.service
    have hrun := hrun.step hstep hspares ⟨.inl hs.lasts, .inl hs.frame.tick⟩
    rw [show ({ ({ t.putService u with world := wu } : Tree σ).putService v' with
        world := w } : Tree σ)
      = { (t.putService u).putService v' with world := w } from rfl, he] at hrun
    exact hrun

end Tree

end BehaviorTree
