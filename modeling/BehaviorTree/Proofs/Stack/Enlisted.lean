/-
Who is told when a stack is rolled back.

A node asks in its steps for observers to be told if it is rolled back. What it has asked for
is kept with the node, and dropped when the node leaves a stack. So on a stack that has the
node to itself these are the observers that were asked for since the node came onto it. Where
stacks share a world and a node is on two of them at a time, a rollback of either tells what
was asked for on both, and the other is left with nothing to tell.

`Passage` lists, newest first, what counts for that, and `Alone` says of such a log that no
other stack had the node since it came. What carries the argument is that the log agrees with
the stacks, and that the observers of a node are dropped only when it leaves one of them
(`Enlisted`).
-/
import Mathlib.Logic.Function.Basic
import BehaviorTree.Proofs.Stack.Rollback

namespace BehaviorTree

/-- A node came onto a stack or left it, or asked for observers. Stacks go by numbers. -/
inductive Passage where
  | came (i : Nat) (n : NodeId)
  | left (i : Nat) (n : NodeId)
  | asked (n : NodeId) (observers : List Observer)
deriving DecidableEq, Repr

namespace Passage

variable {i j : Nat} {m n : NodeId} {log : List Passage}

/-- By the log the node is on the stack. -/
def On (i : Nat) (n : NodeId) : List Passage → Prop
  | [] => False
  | came j m :: log => (j = i ∧ m = n) ∨ On i n log
  | left j m :: log => ¬(j = i ∧ m = n) ∧ On i n log
  | asked _ _ :: log => On i n log

/-- What the node asked for since it came onto the stack. -/
def since (i : Nat) (n : NodeId) : List Passage → List Observer
  | [] => []
  | came j m :: log => if j = i ∧ m = n then [] else since i n log
  | left _ _ :: log => since i n log
  | asked m observers :: log => if m = n then since i n log ++ observers else since i n log

/-- No other stack had the node when it came onto this one, and none took it since. -/
def Alone (i : Nat) (n : NodeId) : List Passage → Prop
  | [] => True
  | came j m :: log => if m = n then j = i ∧ ∀ k ≠ i, ¬On k n log else Alone i n log
  | left _ _ :: log => Alone i n log
  | asked _ _ :: log => Alone i n log

theorem Alone.not_on (h : Alone i n log) (hj : j ≠ i) : ¬On j n log := by
  induction log with
  | nil => exact id
  | cons x log ih =>
    cases x with
    | came k m =>
      rw [Alone] at h
      rw [On, not_or]
      split at h
      next hm => exact ⟨fun hk => hj (hk.1.symm.trans h.1), h.2 j hj⟩
      next hm => exact ⟨fun hk => hm hk.2, ih h⟩
    | left k m => exact fun ho => ih h ho.2
    | asked m os => exact ih h

end Passage

variable {σ : Type} [Node σ]

namespace World

variable {w w' : World σ} {id : NodeId}

/-- The steps in which a node may ask for something, by their calls. -/
inductive Steps (w : World σ) (id : NodeId) : Call → World σ → Prop
  | execute {w' : World σ} {d : Dispatch} (h : w.execute id = .ok (w', d)) :
      Steps w id .execute w'
  | receive {w' : World σ} {ok : Bool} {d : Dispatch} (h : w.receive id ok = .ok (w', d)) :
      Steps w id (.receive ok) w'
  | hook (phase : Phase) : Steps w id (.hook phase) (w.hook id phase).1

/-- The observers that the node asks for in such a step. -/
def enlisting (w : World σ) (id : NodeId) (call : Call) : List Observer :=
  match w.graph.slot? id with
  | none => []
  | some slot =>
    match call with
    | .execute =>
      let activation := slot.activation + 1
      match (w.modify id fun s => { s with activation }).bindOnce id slot with
      | (_, _, some _) => []
      | (w, node, none) => (Node.execute node (w.context id activation)).effects.observers
    | .receive ok =>
      (Node.receive slot.node (w.context id slot.activation) ok).effects.observers
    | .hook phase =>
      if Node.hasHooks slot.node then
        (Node.hook slot.node (w.context id slot.activation) phase).effects.observers
      else []
    | _ => []

omit [Node σ] in
theorem observers_absorb {α : Type} {slot : Slot σ} (hs : w.graph.slot? id = some slot)
    (activation : Nat) (step : Step σ α) :
    (w.absorb id activation step).observers id = w.observers id ++ step.effects.observers := by
  simp [observers, hs, slot?_absorb hs]

theorem observers_bindOnce (w : World σ) (id : NodeId) (slot : Slot σ) (n : NodeId) :
    (w.bindOnce id slot).1.observers n = w.observers n := by
  unfold bindOnce
  split
  · rfl
  · exact (observers_modify _ id (fun _ => by rfl) n).trans (observers_keepReply ..)

theorem observers_execute {d : Dispatch} (h : w.execute id = .ok (w', d)) :
    w'.observers id = w.observers id ++ w.enlisting id .execute := by
  unfold execute at h
  split at h
  · cases h
  next slot hs =>
  have hb := observers_bindOnce (w.modify id fun s => { s with activation := slot.activation + 1 })
    id slot id
  have hc : ((w.modify id fun s => { s with activation := slot.activation + 1 }).bindOnce id
      slot).1.graph.contains id := by
    rw [((Local.modify w _).trans (Local.bindOnce _ slot)).contains id, ← Graph.isSome_slot?, hs]
    rfl
  rw [observers_modify _ id fun _ => by rfl] at hb
  simp only at h
  split at h
  · next hw =>
    cases h
    rw [hw] at hb
    simp [enlisting, hs, hw, hb]
  · next w₁ node hw =>
    cases h
    rw [hw] at hb hc
    obtain ⟨slot₁, hs₁⟩ := Option.isSome_iff_exists.1 ((Graph.isSome_slot? _ id).trans hc)
    have ha := observers_absorb (w := w₁.record (.called id .execute)) hs₁ (slot.activation + 1)
      (Node.execute node (w₁.context id (slot.activation + 1)))
    simp only [enlisting, hs, hw, ← hb]
    exact ha

theorem observers_receive {ok : Bool} {d : Dispatch} (h : w.receive id ok = .ok (w', d)) :
    w'.observers id = w.observers id ++ w.enlisting id (.receive ok) := by
  unfold receive at h
  split at h
  · cases h
  next slot hs =>
    cases h
    simp only [enlisting, hs]
    exact observers_absorb (w := w.record (.called id (.receive ok))) hs _ _

theorem observers_hook (w : World σ) (id : NodeId) (phase : Phase) :
    (w.hook id phase).1.observers id = w.observers id ++ w.enlisting id (.hook phase) := by
  unfold hook enlisting
  cases hs : w.graph.slot? id with
  | none => simp
  | some slot =>
    cases hh : Node.hasHooks slot.node with
    | false => simp [hh]
    | true =>
      have ha := observers_absorb (w := w.record (.called id (.hook phase))) hs slot.activation
        (Node.hook slot.node (w.context id slot.activation) phase)
      simp only [hh, Bool.not_true, Bool.false_eq_true, if_false, if_true]
      split <;> exact ha

theorem Steps.observers {call : Call} (h : w.Steps id call w') :
    w'.observers id = w.observers id ++ w.enlisting id call := by
  cases h with
  | execute h => exact observers_execute h
  | receive h => exact observers_receive h
  | hook phase => exact observers_hook w id phase

theorem Steps.local {call : Call} (h : w.Steps id call w') : Local id w w' := by
  cases h with
  | execute h => exact .execute h
  | receive h => exact .receive h
  | hook phase => exact .hook w id phase

end World

namespace Stack

open Passage (On Alone)

/-- A small part of what is done to the nodes of a stack and the world, with what counts of
it. -/
inductive Lists (i : Nat) :
    List NodeId × World σ → List Passage → List NodeId × World σ → Prop
  | note {ns w} (r : Record) : Lists i (ns, w) [] (ns, w.record r)
  | queue {ns w} (event : StackEvent) : Lists i (ns, w) [] (ns, w.enqueue event)
  | ask {ns w} (id : NodeId) : Lists i (ns, w) [] (ns, (w.ready id).1)
  | step {top rest w w'} {call : Call} (h : w.Steps top call w') :
      Lists i (top :: rest, w) [.asked top (w.enlisting top call)] (top :: rest, w')
  | come {ns w n} (hn : n ∉ ns) : Lists i (ns, w) [.came i n] (n :: ns, w)
  | go {top rest w w'} (h : w.stop top = .ok w' ∨ w.interrupt top = .ok w') :
      Lists i (top :: rest, w) [.left i top] (rest, w')

/-- Any number of such parts; the log is kept newest first. -/
inductive Listed (i : Nat) :
    List NodeId × World σ → List Passage → List NodeId × World σ → Prop
  | refl (x : List NodeId × World σ) : Listed i x [] x
  | tail {x y z : List NodeId × World σ} {log new : List Passage} (h : Listed i x log y)
      (h' : Lists i y new z) : Listed i x (new ++ log) z

/-- Stacks that share a world, the log of what was done to them, newest first, and the world.
They begin as new stacks in a world in which nobody asked for anything. Whoever else uses the
world takes out no node, sets back no clock, and does not ask on behalf of a node. -/
inductive Shared : List Passage → List Stack → World σ → Prop
  | new {ss : List Stack} {w : World σ} (hs : ∀ s ∈ ss, s = { label := s.label })
      (hw : ∀ n, w.observers n = []) : Shared [] ss w
  | perform {log new : List Passage} {ss : List Stack} {w : World σ} {i : Nat} {s : Stack}
      {op : Operation} (h : Shared log ss w) (hs : ss[i]? = some s)
      (hp : Listed i (s.nodes, w) new ((s.perform w op).after.nodes, (s.perform w op).world)) :
      Shared (new ++ log) (ss.set i (s.perform w op).after) (s.perform w op).world
  | elsewhere {log : List Passage} {ss : List Stack} {w w' : World σ} (h : Shared log ss w)
      (hg : ∀ n, w.graph.contains n → w'.graph.contains n)
      (ht : w.tick.number ≤ w'.tick.number) (ho : ∀ n, w'.observers n = w.observers n) :
      Shared log ss w'

/-! ## Every operation has a log -/

variable {i : Nat} {x y z : List NodeId × World σ} {new log : List Passage}

theorem Listed.trans (h : Listed i x log y) (h' : Listed i y new z) :
    Listed i x (new ++ log) z := by
  induction h' with
  | refl => exact h
  | tail _ hp ih =>
    rw [List.append_assoc]
    exact ih.tail hp

theorem Lists.listed (h : Lists i x new y) : Listed i x new y := by
  simpa using (Listed.refl x).tail h

theorem listed_entered (ns : List NodeId) (w : World σ) (label : StackLabel) (n : NodeId)
    (depth : Nat) : Listed i (ns, w) [] (ns, w.entered label n depth) :=
  (Lists.note _).listed.tail (.queue _)

theorem listed_left (ns : List NodeId) (w : World σ) (label : StackLabel) (n : NodeId)
    (depth : Nat) : Listed i (ns, w) [] (ns, w.left label n depth) :=
  (Lists.note _).listed.tail (.queue _)

theorem exists_steps {w w' : World σ} {id : NodeId} {d : Dispatch} (h : w.Turned id w' d) :
    ∃ call, w.Steps id call w' := by
  rcases h with h | ⟨ok, h⟩
  · exact ⟨_, .execute h⟩
  · exact ⟨_, .receive h⟩

theorem exists_listed_of_act {label : StackLabel} {heads : NodeId → Prop}
    (h : Act label heads x y) : ∃ new, Listed i x new y := by
  cases h with
  | note => exact ⟨_, (Lists.note _).listed⟩
  | turn h =>
    obtain ⟨call, h⟩ := exists_steps h
    exact ⟨_, (Lists.step h).listed⟩
  | hook phase => exact ⟨_, (Lists.step (.hook phase)).listed⟩
  | ask => exact ⟨_, (Lists.ask _).listed⟩
  | head => exact ⟨_, (Lists.come (by simp)).listed.trans (listed_entered ..)⟩
  | call h hc hn =>
    obtain ⟨call, h⟩ := exists_steps h
    exact ⟨_, ((Lists.step h).listed.tail (.come hn)).trans (listed_entered ..)⟩
  | leave h => exact ⟨_, (Lists.go (.inl h)).listed.trans (listed_left ..)⟩
  | rollBack h => exact ⟨_, (Lists.go (.inr h)).listed.trans (listed_left ..)⟩
  | finish => exact ⟨_, (Lists.queue _).listed⟩

theorem exists_listed_of_acts {label : StackLabel} {heads : NodeId → Prop}
    (h : Acts label heads x y) : ∃ new, Listed i x new y := by
  induction h with
  | refl => exact ⟨[], .refl x⟩
  | tail _ h ih =>
    obtain ⟨log, hlog⟩ := ih
    obtain ⟨new, hnew⟩ := exists_listed_of_act h
    exact ⟨new ++ log, hlog.trans hnew⟩

/-- Whatever is done to one of the stacks, there is a log of it. -/
theorem Shared.exists_perform {ss : List Stack} {w : World σ} {s : Stack} (h : Shared log ss w)
    (hs : ss[i]? = some s) (op : Operation) : ∃ new,
      Shared (new ++ log) (ss.set i (s.perform w op).after) (s.perform w op).world := by
  obtain ⟨new, hnew⟩ := exists_listed_of_acts (s.perform_made w op).acts
  exact ⟨new, h.perform hs hnew⟩

/-! ## The log and the stacks agree -/

/-- The log tells where the nodes are, and what a node that is alone on a stack has asked
for. -/
structure Enlisted (log : List Passage) (place : Nat → List NodeId) (w : World σ) : Prop where
  on : ∀ i n, n ∈ place i ↔ On i n log
  off : ∀ n, (∀ i, ¬On i n log) → w.observers n = []
  since : ∀ i n, On i n log → Alone i n log → w.observers n = Passage.since i n log

namespace Enlisted

variable {place : Nat → List NodeId} {w w' : World σ}

omit [Node σ] in
/-- Nobody asks, and nobody leaves. -/
theorem quiet (h : Enlisted log place w) (ho : ∀ n, w'.observers n = w.observers n) :
    Enlisted log place w' :=
  ⟨h.on, fun n hn => (ho n).trans (h.off n hn), fun i n hi ha => (ho n).trans (h.since i n hi ha)⟩

theorem step {top : NodeId} {rest : List NodeId} {call : Call} (h : Enlisted log place w)
    (hp : place i = top :: rest) (hs : w.Steps top call w') :
    Enlisted (.asked top (w.enlisting top call) :: log) place w' := by
  have htop : On i top log := (h.on i top).1 (by simp [hp])
  refine ⟨h.on, fun n hn => ?_, fun j n hj ha => ?_⟩
  · have hne : n ≠ top := fun he => hn i (he ▸ htop)
    rw [World.observers_of_slot? (hs.local.slot? n hne), h.off n hn]
  · rw [Passage.since]
    split
    next he =>
      subst he
      rw [hs.observers, h.since j top hj ha]
    next he =>
      rw [World.observers_of_slot? (hs.local.slot? n (Ne.symm he)), h.since j n hj ha]

omit [Node σ] in
theorem come {n : NodeId} (h : Enlisted log place w) (hn : n ∉ place i) :
    Enlisted (.came i n :: log) (Function.update place i (n :: place i)) w := by
  refine ⟨fun j m => ?_, fun m hm => h.off m fun j hj => hm j (.inr hj), fun j m hj ha => ?_⟩
  · rw [On, ← h.on j m]
    by_cases hi : j = i
    · subst hi
      simp [eq_comm]
    · simp [Function.update_of_ne hi, Ne.symm hi]
  · rw [Alone] at ha
    rw [Passage.since]
    split at ha
    next he =>
      subst he
      obtain ⟨rfl, hother⟩ := ha
      -- The node was on no stack at all, so nothing was asked for.
      rw [if_pos ⟨rfl, rfl⟩]
      refine h.off n fun k hk => ?_
      by_cases hki : k = i
      · subst hki
        exact hn ((h.on k n).2 hk)
      · exact hother k hki hk
    next he =>
      rw [if_neg fun hc => he hc.2]
      exact h.since j m (hj.resolve_left fun hc => he hc.2) ha

theorem go {top : NodeId} {rest : List NodeId} (h : Enlisted log place w)
    (hp : place i = top :: rest) (hd : (top :: rest).Nodup)
    (hs : w.stop top = .ok w' ∨ w.interrupt top = .ok w') :
    Enlisted (.left i top :: log) (Function.update place i rest) w' := by
  have htop : On i top log := (h.on i top).1 (by simp [hp])
  have hlocal : World.Local top w w' := hs.elim .stop .interrupt
  have hnil : w'.observers top = [] := by
    rcases hs with hs | hs
    · exact World.stop_observers hs
    · exact (World.interrupt_unwound hs).observers top (List.mem_singleton_self top)
  refine ⟨fun j m => ?_, fun m hm => ?_, fun j m hj ha => ?_⟩
  · rw [On, ← h.on j m]
    by_cases hi : j = i
    · subst hi
      have hnot := (List.nodup_cons.1 hd).1
      by_cases hm : m = top
      · subst hm
        simpa using hnot
      · simp [hp, hm, Ne.symm hm]
    · simp [Function.update_of_ne hi, Ne.symm hi]
  · by_cases he : m = top
    · rw [he, hnil]
    · rw [World.observers_of_slot? (hlocal.slot? m he)]
      exact h.off m fun j hj => hm j ⟨fun hc => he hc.2.symm, hj⟩
  · obtain ⟨hne, hj⟩ := hj
    have he : m ≠ top := by
      rintro rfl
      exact Alone.not_on (show Alone j m log from ha) (fun hi : i = j => hne ⟨hi, rfl⟩) htop
    rw [World.observers_of_slot? (hlocal.slot? m he)]
    exact h.since j m hj ha

end Enlisted

theorem Lists.enlisted {place : Nat → List NodeId} (h : Lists i x new y)
    (he : Enlisted log place x.2) (hp : place i = x.1) (hd : x.1.Nodup) :
    Enlisted (new ++ log) (Function.update place i y.1) y.2 ∧ y.1.Nodup := by
  have hsame : Function.update place i x.1 = place := by rw [← hp, Function.update_eq_self]
  cases h with
  | note | queue => exact ⟨by rw [hsame]; exact he.quiet fun _ => rfl, hd⟩
  | ask id => exact ⟨by rw [hsame]; exact he.quiet (World.ready_observers _ id), hd⟩
  | step h => exact ⟨by rw [hsame]; exact he.step hp h, hd⟩
  | @come ns w n hn =>
    replace hp : place i = ns := hp
    subst hp
    exact ⟨he.come hn, List.nodup_cons.2 ⟨hn, hd⟩⟩
  | go h => exact ⟨he.go hp hd h, (List.nodup_cons.1 hd).2⟩

theorem Listed.enlisted {place : Nat → List NodeId} (h : Listed i x new y)
    (he : Enlisted log place x.2) (hp : place i = x.1) (hd : x.1.Nodup) :
    Enlisted (new ++ log) (Function.update place i y.1) y.2 ∧ y.1.Nodup := by
  induction h with
  | refl => exact ⟨by rw [← hp, Function.update_eq_self]; exact he, hd⟩
  | tail _ h' ih =>
    obtain ⟨he', hd'⟩ := ih
    have hmore := h'.enlisted he' (Function.update_self ..) hd'
    rwa [Function.update_idem, ← List.append_assoc] at hmore

/-- The nodes of each stack. -/
def places (ss : List Stack) (i : Nat) : List NodeId := (ss[i]?.map (·.nodes)).getD []

theorem places_set {ss : List Stack} {s : Stack} (hi : i < ss.length) :
    places (ss.set i s) = Function.update (places ss) i s.nodes := by
  funext j
  by_cases hj : j = i
  · subst hj
    simp [places, List.getElem?_set_self hi]
  · simp [places, List.getElem?_set_ne (Ne.symm hj), Function.update_of_ne hj]

theorem Shared.sound {ss : List Stack} {w : World σ} (h : Shared log ss w) :
    ∀ s ∈ ss, Sound s w := by
  induction h with
  | new hs _ =>
    intro s hm
    rw [hs s hm]
    exact sound_new ..
  | @perform _ _ _ w i s op _ hs _ ih =>
    intro s' hm
    have hk : w.Frame (s.perform w op).world := s.perform_frame w op
    rcases List.mem_or_eq_of_mem_set hm with hm | rfl
    · exact (ih s' hm).elsewhere (fun n hn => by rwa [hk.graph.contains])
        (Nat.le_of_eq (by rw [hk.tick]))
    · exact (ih s (List.mem_of_getElem? hs)).perform op
  | elsewhere _ hg ht _ ih => exact fun s hm => (ih s hm).elsewhere hg ht

theorem Shared.enlisted {ss : List Stack} {w : World σ} (h : Shared log ss w) :
    Enlisted log (places ss) w := by
  induction h with
  | @new ss w hs hw =>
    refine ⟨fun i n => ?_, fun n _ => hw n, fun _ _ hi => hi.elim⟩
    suffices hnil : places ss i = [] by simp [hnil, On]
    unfold places
    cases hi : ss[i]? with
    | none => rfl
    | some s =>
      have hs' := hs s (List.mem_of_getElem? hi)
      rw [hs']
      rfl
  | @perform log new ss w i s op h hs hp ih =>
    have hi : i < ss.length := (List.getElem?_eq_some_iff.1 hs).1
    rw [places_set hi]
    exact (hp.enlisted ih (by simp [places, hs]) (h.sound s (List.mem_of_getElem? hs)).nodup).1
  | elsewhere _ _ _ ho ih => exact ih.quiet ho

/-! ## Rolling back -/

/-- On every stack, whatever was done before to it and to the others, a target that is not on
it is refused, and nothing changes. For any other target, and for none, the nodes above it are
rolled back, the top first, and nothing else happens: their tokens are spent, what remains of
the stack is ready, and to do the same again addresses nobody. A node's observers are those
that it asked for since it came onto the stack, if no other stack had it since. Whatever is done
to the stack next, there is a log of that as well, so all of this holds again. -/
theorem rollback_of_shared {ss : List Stack} {w : World σ} {s : Stack} (h : Shared log ss w)
    (hs : ss[i]? = some s) :
    (∀ n ∈ s.nodes, On i n log ∧ (Alone i n log → w.observers n = Passage.since i n log)) ∧
      (∀ t ∉ s.nodes,
        s.breakTo w (some t) = ⟨s, w, some (.breakTargetNotOnStack s.label t)⟩) ∧
      (∀ stopAt : Option NodeId, (∀ t, stopAt = some t → t ∈ s.nodes) →
        BrokenTo s w stopAt (s.breakTo w stopAt) ∧
        (∀ (u : World σ) (t : Progress), World.Issued t u → u.Since w →
          t.node ∈ s.above stopAt → (s.breakTo w stopAt).world.Spent t) ∧
        (let p := s.breakTo w stopAt
        let q := p.after.breakTo p.world stopAt
        q.fault = none ∧ q.after = p.after ∧ World.Unwound [] p.world q.world)) ∧
      ∀ op : Operation, ∃ new,
        Shared (new ++ log) (ss.set i (s.perform w op).after) (s.perform w op).world := by
  have hsound : Sound s w := h.sound s (List.mem_of_getElem? hs)
  have he := h.enlisted
  refine ⟨fun n hn => ?_, fun t ht => breakTo_missing s w ht, fun stopAt ht => ?_,
    h.exists_perform hs⟩
  · have hon : On i n log := (he.on i n).1 (by simpa [places, hs] using hn)
    exact ⟨hon, he.since i n hon⟩
  · have hb := hsound.brokenTo ht
    exact ⟨hb, fun u t => hb.spent, hb.again (hsound.perform (.breakTo stopAt))⟩

/-- The last node of a stack is reached by calls, and each node asks for observers. -/
def patrol : World Scripted where
  graph := {
    slots := #[
      { name := "scout"
        node := {
          name := "scout"
          execute := [{ instructions := [.observe "near", .observe "far"], answer := some .wait }] }
        parent := some ⟨1⟩ },
      { name := "squad"
        node := {
          name := "squad"
          execute := [{ instructions := [.observe "squad", .call ⟨0⟩], answer := some .noReturn }]
          children := [⟨0⟩] }
        parent := some ⟨2⟩ },
      { name := "base"
        node := {
          name := "base"
          execute := [{ instructions := [.observe "base", .call ⟨1⟩], answer := some .noReturn }]
          children := [⟨1⟩] } }] }
  blackboard := default

/-- What is traced when a node suspends its stack. -/
def waited (label : StackLabel) : Record :=
  .traced { tick := 0, tag := "bt.stack.wait", stack := label.traceId, node := some 0 }

def patrolled : Pass Scripted Stack := perform { label := .main } patrol (.start ⟨2⟩)

def patrolLog : List Passage :=
  [.asked ⟨0⟩ [⟨"near"⟩, ⟨"far"⟩], .came 0 ⟨0⟩, .asked ⟨1⟩ [⟨"squad"⟩], .came 0 ⟨1⟩,
    .asked ⟨2⟩ [⟨"base"⟩], .came 0 ⟨2⟩]

theorem shared_patrolled : Shared patrolLog [patrolled.after] patrolled.world := by
  have hp : Listed 0 (([] : List NodeId), patrol) patrolLog
      (patrolled.after.nodes, patrolled.world) :=
    (((((((Lists.come (n := ⟨2⟩) (by simp)).listed.trans
      (listed_entered [⟨2⟩] patrol .main ⟨2⟩ 1)).tail
        (.step (.execute (d := .answered .noReturn [⟨1⟩]) rfl))).tail (.come (n := ⟨1⟩)
          (by decide))).trans (listed_entered _ _ .main ⟨1⟩ 2)).tail
        (.step (.execute (d := .answered .noReturn [⟨0⟩]) rfl))).tail (.come (n := ⟨0⟩)
          (by decide))).trans (listed_entered _ _ .main ⟨0⟩ 3) |>.tail
        (.step (.execute (d := .answered .wait []) rfl)) |>.tail (.note (waited .main))
  have hn : ∀ n, patrol.observers n = [] := by
    rintro ⟨_ | _ | _ | n⟩ <;> rfl
  have hnew : Shared [] [{ label := .main }] patrol := .new (by simp) hn
  exact hnew.perform (i := 0) rfl hp

/-- The two nodes above the target tell what they asked for, and the target does not. -/
theorem rollback_of_shared_patrolled :
    patrolled.after.nodes = [⟨0⟩, ⟨1⟩, ⟨2⟩] ∧
    Alone 0 ⟨0⟩ patrolLog ∧ Passage.since 0 ⟨0⟩ patrolLog = [⟨"near"⟩, ⟨"far"⟩] ∧
    Alone 0 ⟨1⟩ patrolLog ∧ Passage.since 0 ⟨1⟩ patrolLog = [⟨"squad"⟩] ∧
    (patrolled.after.breakTo patrolled.world (some ⟨2⟩)).after.nodes = [⟨2⟩] ∧
    (patrolled.after.breakTo patrolled.world (some ⟨2⟩)).world.addressed
      = patrolled.world.addressed
        ++ [.observed ⟨0⟩ ⟨"near"⟩, .observed ⟨0⟩ ⟨"far"⟩, .called ⟨0⟩ .stop,
          .observed ⟨1⟩ ⟨"squad"⟩, .called ⟨1⟩ .stop] := by
  obtain ⟨ho, -, hb, -⟩ := rollback_of_shared shared_patrolled (i := 0) rfl
  have hnodes : patrolled.after.nodes = [⟨0⟩, ⟨1⟩, ⟨2⟩] := by decide +kernel
  have ha₀ : Alone 0 ⟨0⟩ patrolLog := by simp [patrolLog, Alone, On]
  have ha₁ : Alone 0 ⟨1⟩ patrolLog := by simp [patrolLog, Alone, On]
  have hs₀ : patrolled.world.observers ⟨0⟩ = [⟨"near"⟩, ⟨"far"⟩] :=
    (ho ⟨0⟩ (by simp [hnodes])).2 ha₀
  have hs₁ : patrolled.world.observers ⟨1⟩ = [⟨"squad"⟩] := (ho ⟨1⟩ (by simp [hnodes])).2 ha₁
  obtain ⟨hbroken, -⟩ := hb (some ⟨2⟩) fun t ht => by simp [hnodes, ← Option.some.inj ht]
  have hup : patrolled.after.above (some ⟨2⟩) = [⟨0⟩, ⟨1⟩] := by simp [above, hnodes]
  refine ⟨hnodes, ha₀, rfl, ha₁, rfl, ?_, ?_⟩
  · rw [hbroken.after]
    simp [remaining, hnodes]
  · rw [hbroken.world.addressed, hup]
    simp [World.farewell, hs₀, hs₁]

/-! ### A node on two stacks -/

/-- A node that asks for an observer when it is executed for the first time. -/
def lookout : World Scripted where
  graph := {
    slots := #[{
      name := "lookout"
      node := {
        name := "lookout"
        execute := [
          { instructions := [.observe "first"], answer := some .wait },
          { answer := some .wait }] } }] }
  blackboard := default

/-- It comes onto the main stack, -/
def once : Pass Scripted Stack := perform { label := .main } lookout (.start ⟨0⟩)

/-- and then onto the stack of a service as well. -/
def twice : Pass Scripted Stack := perform { label := .service ⟨1⟩ } once.world (.start ⟨0⟩)

/-- Then the second stack is rolled back. -/
def twiceBroken : Pass Scripted Stack := twice.after.breakTo twice.world none

def onceLog : List Passage := [.asked ⟨0⟩ [⟨"first"⟩], .came 0 ⟨0⟩]

def twiceLog : List Passage := [.asked ⟨0⟩ [], .came 1 ⟨0⟩] ++ onceLog

theorem shared_once : Shared onceLog [once.after, { label := .service ⟨1⟩ }] once.world := by
  have hp : Listed 0 (([] : List NodeId), lookout) onceLog (once.after.nodes, once.world) :=
    (((Lists.come (n := ⟨0⟩) (by simp)).listed.trans
      (listed_entered [⟨0⟩] lookout .main ⟨0⟩ 1)).tail
        (.step (.execute (d := .answered .wait []) rfl))).tail (.note (waited .main))
  have hn : ∀ n, lookout.observers n = [] := by
    rintro ⟨_ | n⟩ <;> rfl
  have hnew : Shared [] [{ label := .main }, { label := .service ⟨1⟩ }] lookout := .new (by simp) hn
  exact hnew.perform (i := 0) rfl hp

theorem shared_twice : Shared twiceLog [once.after, twice.after] twice.world := by
  have hp : Listed 1 (([] : List NodeId), once.world) [.asked ⟨0⟩ [], .came 1 ⟨0⟩]
      (twice.after.nodes, twice.world) :=
    (((Lists.come (n := ⟨0⟩) (by simp)).listed.trans
      (listed_entered [⟨0⟩] once.world (.service ⟨1⟩) ⟨0⟩ 1)).tail
        (.step (.execute (d := .answered .wait []) rfl))).tail
          (.note (waited (.service ⟨1⟩)))
  exact shared_once.perform (i := 1) rfl hp

/-- On both stacks, a rollback of the second tells what was asked for before the node came
onto it, and a rollback of the first then tells nothing of what was asked for on it. -/
theorem told_elsewhere :
    Shared twiceLog [once.after, twice.after] twice.world ∧
      Passage.since 1 ⟨0⟩ twiceLog = [] ∧
      twiceBroken.world.addressed
        = twice.world.addressed ++ [.observed ⟨0⟩ ⟨"first"⟩, .called ⟨0⟩ .stop] ∧
      Passage.since 0 ⟨0⟩ (.left 1 ⟨0⟩ :: twiceLog) = [⟨"first"⟩] ∧
      (once.after.breakTo twiceBroken.world none).world.addressed
        = twiceBroken.world.addressed ++ [.called ⟨0⟩ .stop] :=
  ⟨shared_twice, by decide, by decide +kernel, by decide, by decide +kernel⟩

end Stack

end BehaviorTree
