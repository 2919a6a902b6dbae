/-
Every stack of a tree is a line of descent.

In a built graph whose nodes call only their children, the main stack leads down from the root
and each service's stack from its service, child by child, whatever the host calls and also in
the middle of a call. So no child that is called is ever refused, and what a call finds broken
is never that.
-/
import BehaviorTree.Proofs.Stack.Lineage
import BehaviorTree.Proofs.Tree.Reports

namespace BehaviorTree

variable {σ : Type} [Node σ] {g : Graph σ} {root head : NodeId}

namespace Tree

variable {call : HostCall} {t t' : Tree σ} {found told : List Breach} {label : StackLabel}

/-! ## In the middle of a call -/

/-- In the course of the call there may be a moment at which the nodes of the stack are these, in
that world: the tree came to its steps so far, and the stack to its acts since. -/
def Moment (t : Tree σ) (call : HostCall) (label : StackLabel) (ns : List NodeId) (w : World σ) :
    Prop :=
  ∃ found told u s, Runs call t found told u ∧ u.stack? label = some s ∧
    Stack.Acts label (· = u.head label) (s.nodes, u.world) (ns, w)

theorem Moment.lined {ns : List NodeId} {w : World σ} (h : t.Moment call label ns w)
    (hc : g.CallsChildren) (ht : Descends g root t) : Stack.Lined g (t.head label) (ns, w) := by
  obtain ⟨found, told, u, s, hrun, hs, ha⟩ := h
  have hu := hrun.descends hc ht
  rw [← ht.rooted.head_eq hu.rooted]
  exact ha.lined hc (hu.lined hs)

theorem Moment.lineage {ns : List NodeId} {w : World σ} (h : t.Moment call label ns w)
    (hb : g.Built) (hf : g.faults = []) (hc : g.CallsChildren) (hroot : g.contains root)
    (ht : Descends g root t) : Stack.Lineage g (t.head label) ns := by
  have hpath := (h.lined hc ht).path
  obtain ⟨found, told, u, s, hrun, hs, -⟩ := h
  have hu := (hrun.descends hc ht).rooted
  have hhead := hu.contains_head hb hroot hs
  rw [hu.grown.contains, ht.rooted.head_eq hu] at hhead
  exact hpath.lineage (hb.wired.parent hf) (hb.wired.lower hf) hhead

/-- Before the call begins. -/
theorem moment_of_stack? {s : Stack} (call : HostCall) (h : t.stack? label = some s) :
    t.Moment call label s.nodes t.world :=
  ⟨[], [], t, s, .refl t, h, .refl⟩

/-- What a step finds broken comes of the stack that it operates on. -/
theorem StackChange.blames (h : StackChange call t found t') (hb : g.Built) (hd : g.Downward)
    (hc : g.CallsChildren) (hroot : g.contains root) (ht : Descends g root t) :
    ∀ b ∈ found, ∃ s, t.stack? b.stack = some s ∧
      Stack.Blames b.stack (· = t.head b.stack) (s.nodes, t.world) b.error := by
  intro b hm
  cases h with
  | @operated label s op hs hop hf _ _ _ =>
    rw [hf] at hm
    obtain ⟨e, he, rfl⟩ := List.mem_map.1 hm
    obtain ⟨hheads, hstatus⟩ := hop.elim (·.heads) heads_of_orders
    have hhead : g.contains (t.head label) := by
      rw [← ht.rooted.grown.contains]
      exact ht.rooted.contains_head hb hroot hs
    have hblames := Stack.perform_blames hc hd hhead (ht.lined hs) hheads hstatus
      (Option.mem_toList.1 he)
    rw [(ht.sound.stack hs).2] at hblames
    exact ⟨s, hs, hblames⟩
  | aside _ hf | opened _ _ _ hf | closed _ _ hf | configured _ hf =>
    rw [hf] at hm
    cases hm

/-- What a run finds broken: no call of a child. -/
theorem Runs.blames (h : Runs call t found told t') (hb : g.Built) (hd : g.Downward)
    (hc : g.CallsChildren) (hroot : g.contains root) (ht : Descends g root t) :
    ∀ b ∈ found, (∀ n, b.error ≠ .unknownNode n) ∧
      ∀ l n state, b.error = .recursiveExecution l n state →
        ∃ rest w, t.Moment call b.stack (n :: rest) w ∧ w.CallsNobody n := by
  induction h with
  | refl => simp
  | @step u _ found found' told h hstep ih =>
    refine List.forall_mem_append.2 ⟨ih, fun b hm => ?_⟩
    have hu := h.descends hc ht
    obtain ⟨s, hs, hblames⟩ := (hstep.stackChange hu.sound).blames hb hd hc hroot hu b hm
    refine ⟨fun n he => ?_, fun l n state he => ?_⟩
    · rw [he] at hblames
      exact hblames
    · rw [he] at hblames
      obtain ⟨rest, w, ha, hn⟩ := hblames
      exact ⟨rest, w, ⟨found, told, u, s, h, hs, ha⟩, hn⟩
  | report _ _ ih => exact ih

/-! ## Whatever the host calls -/

/-- The stacks of the tree descend from their heads, and so they do at every moment of the next
call; no child is refused in it, and nothing of the kind is found broken. -/
structure InLine (g : Graph σ) (root : NodeId) (t : Tree σ) : Prop where
  main : Stack.Lineage g root t.main.nodes
  services : ∀ v ∈ t.services, Stack.Lineage g v.service v.stack.nodes
  moments : ∀ call label ns w, t.Moment call label ns w →
    Stack.Lineage g (t.head label) ns ∧ Stack.Accepts ns w
  /-- No node is unknown, and one that is said to be executed once more is on top and called
  nobody. All that is found broken is reported, and a call answers with nothing else, unless it
  names an unknown node itself. -/
  faults : ∀ call, ∃ found, Runs call t found found (t.perform call) ∧
    (t.perform call).world.violations
      = t.world.violations ++ found.map (Breach.diagnostic g) ∧
    (∀ e, t.answer call = some (.stack e) →
      e ∈ found.map (·.error) ∨ ∃ node ok, call = .endNode node ok ∧ e = .unknownNode node) ∧
    ∀ b ∈ found, (∀ n, b.error ≠ .unknownNode n) ∧
      ∀ l n state, b.error = .recursiveExecution l n state →
        ∃ rest w, t.Moment call b.stack (n :: rest) w ∧ w.CallsNobody n

theorem Descends.inLine (h : Descends g root t) (hb : g.Built) (hf : g.faults = [])
    (hroot : g.contains root) (hc : g.CallsChildren) (hreplays : t.ReplaysStacks) :
    t.InLine g root := by
  have hd : g.Downward := hb.wired.lower hf
  refine ⟨?_, fun v hv => ?_, fun call label ns w hm => ?_, fun call => ?_⟩
  · have hmain := moment_of_stack? .pause (show t.stack? .main = some t.main from rfl)
    have hlineage := hmain.lineage hb hf hc hroot h
    rwa [show t.head .main = root from h.rooted.root] at hlineage
  · have hservice := moment_of_stack? .pause (stack?_of_mem h.sound hv)
    rw [h.sound.labels v hv] at hservice
    exact hservice.lineage hb hf hc hroot h
  · exact ⟨hm.lineage hb hf hc hroot h, (hm.lined hc h).accepts hc hd⟩
  · rcases perform_walk h.sound call with ⟨found, hrun, ha⟩ | ⟨hsame, e', ha, hu⟩
    · refine ⟨found, hrun, hrun.violations h.sound hreplays h.rooted, fun e he => .inl ?_,
        hrun.blames hb hd hc hroot h⟩
      rw [ha] at he
      cases found with
      | nil => cases he
      | cons b rest =>
        cases he
        exact List.mem_cons_self
    · refine ⟨[], by rw [hsame]; exact .refl t, by simp [hsame], fun e he => .inr ?_, by simp⟩
      rw [ha] at he
      cases he
      cases hu with
      | endNode ok => exact ⟨_, ok, rfl, rfl⟩

/-- In a built graph whose nodes call only their children, whatever the host calls: the main
stack descends from the root and each service's stack from its service, also at every moment of
the next call; and no call of a child is ever refused. -/
theorem inLine_of_callsChildren {b : Blackboard} (hb : g.Built) (hm : make g root b = .ok t)
    (hc : g.CallsChildren) (calls : List HostCall) : (t.performAll calls).InLine g root := by
  obtain ⟨hroot, hf⟩ := Graph.faults_of_validate (make_ok hm).1
  obtain ⟨-, hreplays, hdescends⟩ := performAll_induction
    (P := fun t => t.ReplaysStacks ∧ Descends g root t) (sound_make hm)
    ⟨replaysStacks_make hm, descends_make hm⟩
    (fun call t t' found hs hr h => ⟨hr.replaysStacks hs h.1, hr.descends hc h.2⟩) calls
  exact hdescends.inLine hb hf hroot hc hreplays

/-- A service's stack is two nodes deep while the root waits. -/
theorem inLine_beaconBeside :
    ∃ t, make beaconBeside ⟨2⟩ {} = .ok t ∧
      (t.performAll [.start, .update 0]).main.nodes = [⟨2⟩] ∧
      (t.performAll [.start, .update 0]).services.map (·.stack.nodes) = [[⟨0⟩, ⟨1⟩]] ∧
      (t.performAll [.start, .update 0]).InLine beaconBeside ⟨2⟩ :=
  ⟨_, rfl, by decide +kernel, by decide +kernel,
    inLine_of_callsChildren (b := {}) built_beaconBeside rfl callsChildren_beaconBeside _⟩

end Tree

end BehaviorTree
