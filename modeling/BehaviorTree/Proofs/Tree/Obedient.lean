/-
Trees of obedient nodes never break.

Whatever a host calls, the stacks of such a tree stay intact and its world one of obedient
nodes: by itself a tree does to a stack only what the stack's state calls for, which finds no
rule broken, and an order of the host is either carried out or refused. All of this holds
of the trees that are built from the library, with whatever services are attached, if
the host and its actions change variables by declaring and setting them alone.
-/
import BehaviorTree.Proofs.Library.Obedient
import BehaviorTree.Proofs.Stack.Obedient
import BehaviorTree.Proofs.Tree.Breaches

namespace BehaviorTree

variable {σ : Type} [Node σ] {g : Graph σ} {root : NodeId}

/-- One step of a service, wherever it is taken. -/
theorem Service.Step.intact {v v' : Service} {w w' : World σ} {call : HostCall}
    {found : List Breach} (hd : g.Downward)
    (h : Service.Step (call.Orders root v.label) (v, w) found (v', w')) (hs : v.stack.Sound w)
    (hv : v.stack.Works g v.service w) (hc : w.graph.contains v.service)
    (hl : v.label = .service v.service) :
    v'.stack.Intact g v'.service ∧ w'.Obedient g ∧ ∀ b ∈ found, call.Misused g b.error := by
  cases h with
  | @operate _ _ op h =>
    have ha : Stack.Answered g v.service call (v.stack.perform w op) := by
      rcases h with h | h
      · exact (Stack.perform_smooth hd hs hv hc h).answered call
      · rw [hl] at h
        have hm : StackLabel.service v.service = .main → v.service = root := by simp
        exact Stack.perform_answered hd hs hv hc hm h
    refine ⟨ha.stack, ha.world, fun b hb => ?_⟩
    obtain ⟨e, he, rfl⟩ := List.mem_map.1 hb
    exact ha.fault e (Option.mem_toList.1 he)
  | count => exact ⟨hv.intact, hv.world, by simp⟩
  | ask => exact ⟨hv.intact, hv.world.ready _, by simp⟩
  | trace => exact ⟨hv.intact, hv.world.trace .., by simp⟩

namespace Tree

variable {call : HostCall} {t t' : Tree σ} {found told : List Breach}

/-- Every stack is intact, and all nodes are obedient. -/
structure Intact (g : Graph σ) (t : Tree σ) : Prop where
  main : t.main.Intact g t.root
  services : ∀ v ∈ t.services, v.stack.Intact g v.service
  world : t.world.Obedient g

theorem Intact.stack? (h : t.Intact g) {label : StackLabel} {s : Stack}
    (hs : t.stack? label = some s) : s.Intact g (t.head label) := by
  cases label with
  | main =>
    cases hs
    exact h.main
  | service id =>
    obtain ⟨v, hv, rfl⟩ := Option.map_eq_some_iff.1 hs
    obtain ⟨hm, rfl⟩ := service?_eq_some hv
    exact h.services v hm

/-- Nothing but the world changes. -/
theorem Intact.inWorld (h : t.Intact g) {w : World σ} (hw : w.Obedient g) :
    Intact g { t with world := w } :=
  ⟨h.main, h.services, hw⟩

theorem Intact.eraseService (h : t.Intact g) (s : NodeId) {w : World σ} (hw : w.Obedient g) :
    Intact g { t with world := w, services := t.services.eraseP (·.service = s) } :=
  ⟨h.main, fun v hv => h.services v (List.mem_of_mem_eraseP hv), hw⟩

/-- Where the tree came from, and that it is in order. -/
structure Ordered (g : Graph σ) (root : NodeId) (t : Tree σ) : Prop where
  sound : t.Sound
  rooted : Rooted g root t
  intact : t.Intact g

theorem Ordered.works (h : Ordered g root t) {v : Service} (hv : v ∈ t.services) :
    v.stack.Works g v.service t.world :=
  (h.sound.services v hv).works (h.intact.services v hv) h.intact.world h.rooted.grown

/-- What a step finds broken is an order of the host that came at a wrong time. -/
theorem Step.intact (hb : g.Built) (hd : g.Downward) (hroot : g.contains root)
    (h : Step call t found t') (hc : ∀ b, call ≠ .setVariables b) (ht : Ordered g root t) :
    t'.Intact g ∧ ∀ b ∈ found, call.Misused g b.error := by
  have hi := ht.intact
  cases h with
  | @main op h =>
    have hworks := ht.sound.main.works hi.main hi.world ht.rooted.grown
    have hhead : t.world.graph.contains t.root :=
      ht.rooted.contains_head hb hroot (show t.stack? .main = some t.main from rfl)
    have ha : Stack.Answered g t.root call (t.main.perform t.world op) := by
      rcases h with h | h
      · exact (Stack.perform_smooth hd ht.sound.main hworks hhead h).answered call
      · exact Stack.perform_answered hd ht.sound.main hworks hhead (fun _ => rfl) h
    refine ⟨⟨ha.stack, hi.services, ha.world⟩, fun b hb => ?_⟩
    obtain ⟨e, he, rfl⟩ := List.mem_map.1 hb
    exact ha.fault e (Option.mem_toList.1 he)
  | @service v v' w _ hv h =>
    have hhead := ht.rooted.contains_head hb hroot (stack?_of_mem ht.sound hv)
    rw [ht.sound.labels v hv] at hhead
    obtain ⟨hv', hw, hf⟩ := h.intact hd (ht.sound.services v hv) (ht.works hv) hhead
      (ht.sound.labels v hv)
    refine ⟨⟨hi.main, fun u hu => ?_, hw⟩, hf⟩
    rcases mem_putService hu with ⟨rfl, -⟩ | ⟨hu, -⟩
    · exact hv'
    · exact hi.services u hu
  | @register owner s _ =>
    refine ⟨?_, by simp⟩
    unfold registerService
    split
    · exact hi
    refine ⟨hi.main, fun v hv => ?_, (hi.world.registered s).trace ..⟩
    rcases List.mem_append.1 hv with hv | hv
    · exact hi.services v hv
    · rw [List.mem_singleton.1 hv]
      exact ⟨by rintro ⟨⟩, trivial, by rintro ⟨⟩⟩
  | unregister owner s =>
    refine ⟨?_, by simp⟩
    unfold unregisterService
    split
    · exact hi
    next v hv =>
    have hs := Stack.terminate_smooth (ht.works (service?_eq_some hv).1)
    exact hi.eraseService s ((hs.world.unregistered s).trace ..)
  | @tearDown v _ hv =>
    have hs := Stack.terminate_smooth (ht.works (service?_eq_some hv).1)
    exact ⟨hi.eraseService v.service (hs.world.unregistered v.service), by simp⟩
  | take | clock | due => exact ⟨hi.inWorld (hi.world.of_eq rfl rfl rfl), by simp⟩
  | trace => exact ⟨hi.inWorld (hi.world.trace ..), by simp⟩
  | setVariables h => exact absurd h (hc _)
  | fields => exact ⟨⟨hi.main, hi.services, hi.world⟩, by simp⟩
  | config =>
    refine ⟨⟨⟨hi.main.valid, hi.main.path, hi.main.heard⟩, fun v hv => ?_, hi.world⟩, by simp⟩
    obtain ⟨u, hu, rfl⟩ := List.mem_map.1 hv
    have hu := hi.services u hu
    exact ⟨hu.valid, hu.path, hu.heard⟩

theorem Runs.ordered (hb : g.Built) (hd : g.Downward) (hroot : g.contains root)
    (h : Runs call t found told t') (hc : ∀ b, call ≠ .setVariables b) (ht : Ordered g root t) :
    Ordered g root t' ∧ ∀ b ∈ found, call.Misused g b.error := by
  induction h with
  | refl => exact ⟨ht, by simp⟩
  | step _ hs ih =>
    obtain ⟨ho, hf⟩ := ih
    obtain ⟨hi, hf'⟩ := hs.intact hb hd hroot hc ho
    exact ⟨⟨hs.sound ho.sound, hs.rooted ho.rooted, hi⟩,
      List.forall_mem_append.2 ⟨hf, hf'⟩⟩
  | report _ _ ih =>
    obtain ⟨ho, hf⟩ := ih
    exact ⟨⟨ho.sound.world (.refl _) (Nat.le_refl _), ho.rooted.world (.refl _),
      ho.intact.inWorld (ho.intact.world.report (by simp [Diagnostic.ofFault]))⟩, hf⟩

/-! ## The calls -/

theorem Ordered.perform (hb : g.Built) (hd : g.Downward) (hroot : g.contains root)
    (ht : Ordered g root t) (hc : ∀ b, call = .setVariables b → t.world.blackboard.Keeps b) :
    Ordered g root (t.perform call) := by
  by_cases hset : ∃ b, call = .setVariables b
  · obtain ⟨b, rfl⟩ := hset
    exact ⟨ht.sound.world (.refl _) (Nat.le_refl _), ht.rooted.world (.refl _),
      ht.intact.inWorld (ht.intact.world.edited (hc b rfl))⟩
  · obtain ⟨found, hrun⟩ := perform_runs ht.sound call
    exact (hrun.ordered hb hd hroot (fun b hb => hset ⟨b, hb⟩) ht).1

/-- A call that is answered with a broken rule came at a wrong time, or named a node that is
not there. -/
theorem Ordered.misused (hb : g.Built) (hd : g.Downward) (hroot : g.contains root)
    (ht : Ordered g root t) {e : StackError} (ha : t.answer call = some (.stack e)) :
    call.Misused g e := by
  rcases perform_walk ht.sound call with ⟨found, hrun, he⟩ | ⟨-, e', he, hu⟩
  · have hset : ∀ b, call ≠ .setVariables b := by
      rintro b rfl
      cases ha
    rw [he] at ha
    cases found with
    | nil => cases ha
    | cons b rest =>
      cases ha
      exact (hrun.ordered hb hd hroot hset ht).2 b List.mem_cons_self
  · rw [he] at ha
    cases ha
    cases hu with
    | endNode ok hp =>
      refine .endNode ok ?_
      rw [← ht.rooted.grown.contains, ← Graph.isSome_slot?]
      simpa [World.progress?] using hp

/-- The host changes variables by declaring and setting them alone. -/
def EditsOnly (t : Tree σ) : List HostCall → Prop
  | [] => True
  | call :: later =>
    (∀ b, call = .setVariables b → t.world.blackboard.Edited b) ∧ (t.perform call).EditsOnly later

theorem Ordered.performAll (hb : g.Built) (hd : g.Downward) (hroot : g.contains root)
    (ht : Ordered g root t) {calls : List HostCall} (hc : t.EditsOnly calls) :
    Ordered g root (t.performAll calls) := by
  induction calls generalizing t with
  | nil => exact ht
  | cons call later ih =>
    exact ih (ht.perform hb hd hroot fun b h => (hc.1 b h).keeps) hc.2

/-- No stack of the tree is broken, and none can be by what a host may call next. -/
structure Unbroken (g : Graph σ) (t : Tree σ) : Prop where
  /-- Neither is any stack invalid nor does any become so in the course of a call. -/
  valid : ∀ call found told u, (∀ b, call ≠ .setVariables b) → Runs call t found told u →
    ∀ label s, u.stack? label = some s → s.state ≠ .invalid
  /-- No node ever answered with an error or broke off over a reference. -/
  records : ∀ r ∈ t.world.history, r.isFailure = false
  /-- No phase of a tick is answered with an error. -/
  phases : ∀ call : HostCall, call.isPhase → t.answer call = none
  /-- A call that is answered with a broken rule came at a wrong time, or named a node that is
  not there. -/
  answers : ∀ call e, t.answer call = some (.stack e) → call.Misused g e

theorem Ordered.unbroken (hb : g.Built) (hd : g.Downward) (hroot : g.contains root)
    (ht : Ordered g root t) : t.Unbroken g := by
  refine ⟨fun call found told u hc hrun label s hs => ?_, ht.intact.world.clean, fun call hp => ?_,
    fun call e ha => ht.misused hb hd hroot ha⟩
  · exact ((hrun.ordered hb hd hroot hc ht).1.intact.stack? hs).valid
  · -- What a phase answers with is a broken rule, and phases have no wrong time.
    cases ha : t.answer call with
    | none => rfl
    | some e =>
      obtain ⟨e, rfl⟩ : ∃ e', e = .stack e' := by
        cases call with
        | update | fixedUpdate | lateUpdate | tick =>
          obtain ⟨e', -, rfl⟩ := Option.map_eq_some_iff.1 ha
          exact ⟨e', rfl⟩
        | _ => cases hp
      cases ht.misused hb hd hroot ha <;> cases hp

/-- A tree whose nodes are obedient from the start never breaks. -/
theorem unbroken_of_obedient {b : Blackboard} (hb : g.Built) (hm : make g root b = .ok t)
    (ho : ∀ id slot, g.slot? id = some slot →
      (⟨b, false, slot.node⟩ : Life σ).Obedient (Node.children slot.node))
    {calls : List HostCall} (hc : t.EditsOnly calls) : (t.performAll calls).Unbroken g := by
  obtain ⟨hv, rfl⟩ := make_ok hm
  obtain ⟨hroot, hfaults⟩ := Graph.faults_of_validate hv
  have hd : g.Downward := hb.wired.lower hfaults
  have hworld : (({ graph := g, blackboard := b } : World σ)).Obedient g := by
    refine ⟨fun id slot hs => ?_, by simp⟩
    have hbound : slot.bound = false := by simpa [hs] using hb.unbound id
    rw [show g.children id = Node.children slot.node by simp [Graph.children, hs]]
    unfold World.life
    rw [hbound]
    exact ho id slot hs
  have hordered : Ordered g root { root, world := { graph := g, blackboard := b } } :=
    ⟨sound_make hm, rooted_make hm, ⟨by simp, trivial, by simp⟩, by simp, hworld⟩
  exact (hordered.performAll hb hd hroot hc).unbroken hb hd hroot

/-! ## The library -/

section Library

variable {π α : Type} [Predicate π] [Action α]

/-- A tree that is built from the nodes of the library never breaks, with whatever services,
configurations and calls, if its actions oblige and the host changes variables by declaring
and setting them alone. A reference that a node was made with has to be one to the variables
of this tree; a node whose parameters are constants or numbers of variables fits at once. -/
theorem unbroken_of_library {g : Graph (LibraryNode π α)} {t : Tree (LibraryNode π α)}
    {b : Blackboard} (hb : g.Built) (hm : make g root b = .ok t)
    (hf : ∀ id slot, g.slot? id = some slot → LibraryNode.Fits slot.node b)
    (ho : ∀ id slot a, g.slot? id = some slot → slot.node = .leaf (.action a) →
      Action.Obliging a)
    {calls : List HostCall} (hc : t.EditsOnly calls) : (t.performAll calls).Unbroken g :=
  unbroken_of_obedient hb hm
    (fun id slot hs => LibraryNode.obedient (hf id slot hs) fun a ha => ho id slot a hs ha) hc

/-- The plays of an action that waits whenever it is executed. -/
def waiting : Plays := [{ answer := some .wait }]

theorem obliging_waiting : Action.Obliging waiting := by
  intro plays hp ctx
  have hplays : plays = waiting := by
    induction hp with
    | refl => rfl
    | tail _ h ih =>
      obtain ⟨ctx', rfl⟩ := h
      rw [ih]
      rfl
  subst hplays
  exact ⟨by simp [waiting, Action.act, Plays.turn, following], rfl, rfl, .refl _⟩

/-- A service that is a child of its owner as well: it runs on two stacks at once. -/
def sharedBeacon : Graph (LibraryNode Question Plays) where
  slots := #[
    { name := "body", node := .leaf (.action waiting), parent := some ⟨1⟩ },
    { name := "beacon", node := .background (.parallel { subtree := ⟨0⟩ }), parent := some ⟨3⟩,
      owner := some ⟨3⟩ },
    { name := "copy", node := .computation (.copy ⟨0⟩ ⟨1⟩), parent := some ⟨3⟩ },
    { name := "root", node := .flow (.sequence { children := [⟨2⟩, ⟨1⟩] }), services := [⟨1⟩] }]

theorem built_sharedBeacon : sharedBeacon.Built :=
  .attach (.add (.add (.add (.add .empty "body" (.leaf (.action waiting)))
    "beacon" (.background (.parallel { subtree := ⟨0⟩ })))
    "copy" (.computation (.copy ⟨0⟩ ⟨1⟩)))
    "root" (.flow (.sequence { children := [⟨2⟩, ⟨1⟩] }))) ⟨3⟩ ⟨1⟩ rfl

/-- Two variables of one type. -/
def twoNumbers : Blackboard := ((default : Blackboard).put ⟨0⟩ (.int 5)).put ⟨1⟩ (.int 0)

/-- The beacon is at work on both stacks, once the host has changed what is copied, and all is
well; only to start the tree again is refused. -/
theorem unbroken_sharedBeacon :
    let calls : List HostCall :=
      [.setVariables (twoNumbers.put ⟨0⟩ (.int 7)), .start, .update 0]
    ∃ t, make sharedBeacon ⟨3⟩ twoNumbers = .ok t ∧
      (t.performAll calls).main.nodes = [⟨0⟩, ⟨1⟩, ⟨3⟩] ∧
      (t.performAll calls).services.map (·.stack.nodes) = [[⟨0⟩, ⟨1⟩]] ∧
      (((t.performAll calls).world.blackboard.get? ⟨1⟩).bind (Value.as? .int)) = some 7 ∧
      (t.performAll calls).answer .start = some (.stack (.notReady .main .waiting 3)) ∧
      (t.performAll calls).Unbroken sharedBeacon := by
  have hm : make sharedBeacon ⟨3⟩ twoNumbers
      = .ok { root := ⟨3⟩, world := { graph := sharedBeacon, blackboard := twoNumbers } } := rfl
  refine ⟨_, hm, by decide +kernel, by decide +kernel, by decide +kernel, by decide +kernel, ?_⟩
  refine unbroken_of_library built_sharedBeacon hm (fun id slot hs => ?_)
    (fun id slot a hs ha => ?_) ⟨fun b hb => ?_, nofun, nofun, trivial⟩
  · have hmem := Graph.mem_slots_of_slot? hs
    simp only [sharedBeacon, List.mem_cons, List.not_mem_nil, or_false] at hmem
    rcases hmem with rfl | rfl | rfl | rfl
    · exact trivial
    · exact trivial
    · exact trivial
    · exact nofun
  · have hmem := Graph.mem_slots_of_slot? hs
    simp only [sharedBeacon, List.mem_cons, List.not_mem_nil, or_false] at hmem
    rcases hmem with rfl | rfl | rfl | rfl <;> cases ha
    exact obliging_waiting
  · cases hb
    have hs : twoNumbers.set ⟨0⟩ (.int 7) = .ok (twoNumbers.put ⟨0⟩ (.int 7)) := rfl
    exact .set (.refl _) hs

end Library

end Tree

end BehaviorTree
