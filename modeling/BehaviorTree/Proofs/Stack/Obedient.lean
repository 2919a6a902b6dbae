/-
A stack of obedient nodes finds no rule broken.

What a stack can find broken comes down to its nodes, to the order in which they lie on it,
and to its own fields. Obedient nodes answer by the rules; a node on the stack is a child of
the one beneath it, and children come before their parents in the graph, so a child that is
called is not on the stack yet; and a stack that receives has a node on top that can be
handed a result. All this is kept from one step to the next (`Stack.Intact`), so a pass ends
without a fault, and so does every operation that the state of the stack calls for.
-/
import BehaviorTree.Proofs.Stack.Path
import BehaviorTree.Proofs.Tree.Steps
import BehaviorTree.Proofs.World.Obedient

namespace BehaviorTree

variable {σ : Type} [Node σ] {g : Graph σ} {head : NodeId}

/-- Every child comes before its parent. -/
def Graph.Downward (g : Graph σ) : Prop := ∀ p c, c ∈ g.children p → c.index < p.index

theorem Graph.Downward.contains (h : g.Downward) {p c : NodeId} (hc : c ∈ g.children p) :
    g.contains c := by
  have hp : g.contains p := by
    cases hs : g.slot? p with
    | none => simp [children, hs] at hc
    | some slot => simp [← isSome_slot?, hs]
  simp only [Graph.contains, decide_eq_true_eq] at hp ⊢
  exact Nat.lt_trans (h p c hc) hp

theorem World.Obedient.entered {w : World σ} (h : w.Obedient g) (label : StackLabel)
    (node : NodeId) (depth : Nat) : (w.entered label node depth).Obedient g :=
  (h.trace "bt.stack.push" label node depth).of_eq rfl rfl rfl

theorem World.Obedient.left {w : World σ} (h : w.Obedient g) (label : StackLabel)
    (node : NodeId) (depth : Nat) : (w.left label node depth).Obedient g :=
  (h.trace "bt.stack.pop" label node depth).of_eq rfl rfl rfl

namespace Stack

variable {s : Stack} {w w' : World σ} {node : NodeId} {rest : List NodeId}

/-- On a path that leads down the top comes before all others. -/
theorem Path.index_lt (hd : g.Downward) {top : NodeId} {ns : List NodeId}
    (h : Path g head (top :: ns)) : ∀ n ∈ ns, top.index < n.index := by
  induction ns generalizing top with
  | nil => simp
  | cons m rest ih =>
    have htop := hd m top h.1
    intro n hn
    rcases List.mem_cons.1 hn with rfl | hn
    · exact htop
    · exact Nat.lt_trans htop (ih h.2 n hn)

/-- A child of the top is not on the path yet. -/
theorem Path.not_mem_of_child (hd : g.Downward) {top child : NodeId} {ns : List NodeId}
    (h : Path g head (top :: ns)) (hc : child ∈ g.children top) : child ∉ top :: ns := by
  have hlow := hd top child hc
  intro hm
  rcases List.mem_cons.1 hm with rfl | hm
  · exact Nat.lt_irrefl _ hlow
  · exact Nat.lt_asymm hlow (h.index_lt hd child hm)

/-- Nothing on the stack is out of place. -/
structure Intact (g : Graph σ) (head : NodeId) (s : Stack) : Prop where
  valid : s.state ≠ .invalid
  path : Path g head s.nodes
  /-- What a node hands on goes to a node that has children. -/
  heard : s.state = .receiving → ∀ top rest, s.nodes = top :: rest → g.children top ≠ []

/-- What a pass leaves if it finds nothing broken: an intact stack among obedient nodes. -/
structure Smooth (g : Graph σ) (head : NodeId) (p : Pass σ Stack) : Prop where
  fault : p.fault = none
  stack : p.after.Intact g head
  world : p.world.Obedient g

/-- An intact stack at work among the nodes of `g`. -/
structure Works (g : Graph σ) (head : NodeId) (s : Stack) (w : World σ) : Prop where
  intact : s.Intact g head
  world : w.Obedient g
  grown : g.Grown w.graph
  placed : Placed (s.nodes, w)
  coherent : s.Coherent w.tick.number

/-- A new state in which nothing is received. -/
theorem Intact.fields {s' : Stack} (h : s.Intact g head) (hn : s'.nodes = s.nodes)
    (hv : s'.state ≠ .invalid := by rintro ⟨⟩) (hr : s'.state ≠ .receiving := by rintro ⟨⟩) :
    s'.Intact g head :=
  ⟨hv, hn ▸ h.path, fun hs => absurd hs hr⟩

theorem Works.contains (h : Works g head s w) {n : NodeId} (hn : n ∈ s.nodes) :
    w.graph.contains n :=
  h.placed.2 n hn

/-! ## In the middle of a pass -/

/-- The node was turned to, and the pass is not going to turn to it at once again. -/
structure Turned (node : NodeId) (s : Stack) : Prop where
  current : s.current = some node
  done : s.top? = some node → s.rests ∨ s.paused ∧ s.state ≠ .receiving

theorem call_eq {child : NodeId} (hc : w.graph.contains child) (hn : child ∉ s.nodes)
    (ht : s.top? = some node) : s.call w node child .noReturn
      = ⟨{ s with nodes := child :: s.nodes, state := .calling },
        w.entered s.label child (s.depth + 1), none⟩ := by
  have hne : child ≠ node := by
    rintro rfl
    exact hn (List.mem_of_mem_head? ht)
  simp [call, hc, Stack.contains, hn, push, settleStatus, top?, hne]

/-- What it takes to put a child on the stack. -/
theorem of_call {child : NodeId} {status : Status} (h : (s.call w node child status).fault = none) :
    status = .noReturn ∧ w.graph.contains child ∧ child ∉ s.nodes := by
  unfold call at h
  split at h
  · cases h
  next hst =>
  split at h
  · cases h
  next hknown =>
  split at h
  · cases h
  next hon =>
  exact ⟨by simpa using hst, by simpa using hknown, by simpa [Stack.contains] using hon⟩

theorem complete_turned (hn : s.nodes = node :: rest) (hnot : node ∉ rest)
    (hcur : s.current = some node) {ok : Bool} (hf : (s.complete w node ok).fault = none) :
    Turned node (s.complete w node ok).after := by
  unfold complete at hf ⊢
  cases hstop : w.stop node with
  | error => simp [hstop] at hf
  | ok w' =>
    simp only [pop, hn]
    exact ⟨hcur, fun htop => absurd (List.mem_of_mem_head? htop) hnot⟩

/-- A node that was turned to is still on top only if the stack rests or is paused over it. -/
theorem apply_turned {d : Dispatch} (hn : s.nodes = node :: rest) (hnot : node ∉ rest)
    (hcur : s.current = some node) (hf : (s.apply w node d).fault = none) :
    Turned node (s.apply w node d).after := by
  match d with
  | .bindFailed _ => exact ⟨hcur, fun _ => .inr ⟨rfl, by rintro ⟨⟩⟩⟩
  | .answered _ (_ :: _ :: _) => cases hf
  | .answered status [child] =>
    obtain ⟨rfl, hknown, hon⟩ := of_call hf
    rw [apply, call_eq hknown hon (by simp [top?, hn])]
    refine ⟨hcur, fun htop => absurd ?_ hon⟩
    rw [Option.some.inj htop, hn]
    exact List.mem_cons_self
  | .answered status [] =>
    cases status with
    | noReturn =>
      simp only [apply, settleStatus, top?, hn, List.head?_cons, if_true] at hf
      cases hf
    | success | failed => exact complete_turned hn hnot hcur hf
    | wait | waitUntilNextUpdate => exact ⟨hcur, fun _ => .inl rfl⟩
    | error => exact ⟨hcur, fun _ => .inr ⟨rfl, by rintro ⟨⟩⟩⟩

theorem step_turned (hx : Placed (s.nodes, w)) (hn : s.nodes = node :: rest)
    (hf : (s.step w node).fault = none) : Turned node (s.step w node).after := by
  have hnot : node ∉ rest := by
    have hnodup := hx.1
    simp only [hn] at hnodup
    exact (List.nodup_cons.1 hnodup).1
  simp only [step] at hf ⊢
  split at hf
  · cases hf
  next hl =>
  rw [if_neg hl]
  split at hf
  · next hst =>
    rw [if_pos hst]
    split at hf
    · cases hf
    split at hf
    · cases hf
    exact apply_turned hn hnot rfl hf
  · next hst =>
    rw [if_neg hst]
    split at hf
    · cases hf
    exact apply_turned hn hnot rfl hf

/-- The node that completes is a child of the one beneath it, which is to hear of it. -/
theorem complete_smooth (hi : s.Intact g head) (hw : w.Obedient g) (hn : s.nodes = node :: rest)
    (hc : w.graph.contains node) (ok : Bool) : Smooth g head (s.complete w node ok) := by
  obtain ⟨w', hstop⟩ := World.exists_stop hc
  have hp : Path g head (node :: rest) := hn ▸ hi.path
  simp only [complete, hstop, pop, hn]
  refine ⟨rfl, ⟨by simp, hp.tail, fun _ top rest' htop => ?_⟩, ?_⟩
  · simp only at htop
    subst htop
    exact List.ne_nil_of_mem hp.1
  · exact ((hw.stop hstop).left ..).trace ..

/-- A node that ended or suspended itself. -/
theorem settleStatus_smooth (hi : s.Intact g head) (hw : w.Obedient g) (hn : s.nodes = node :: rest)
    (hc : w.graph.contains node) {status : Status} (hst : status.Proper [] []) :
    Smooth g head (s.settleStatus w node status) := by
  cases hst with
  | ended ok =>
    cases ok with
    | true => exact complete_smooth hi hw hn hc true
    | false => exact complete_smooth hi hw hn hc false
  | wait => exact ⟨rfl, hi.fields rfl, hw.trace ..⟩
  | waitUntilNextUpdate => exact ⟨rfl, hi.fields rfl, hw.trace ..⟩

/-- Whatever came of turning to the top node can be acted on. -/
theorem apply_smooth (hd : g.Downward) (hi : s.Intact g head) (hw : w.Obedient g)
    (hg : g.Grown w.graph) (hc : w.graph.contains node) (hn : s.nodes = node :: rest)
    {d : Dispatch} (hpr : d.Proper (g.children node)) : Smooth g head (s.apply w node d) := by
  have hpath : Path g head (node :: rest) := hn ▸ hi.path
  cases hpr with
  | bindFailed e => exact ⟨rfl, hi.fields rfl, ((hw.warn ..).report (by simp)).trace ..⟩
  | answered h =>
    cases h with
    | ended ok => exact settleStatus_smooth hi hw hn hc (.ended ok)
    | wait => exact settleStatus_smooth hi hw hn hc .wait
    | waitUntilNextUpdate => exact settleStatus_smooth hi hw hn hc .waitUntilNextUpdate
    | @called child hchild =>
      have hknown : w.graph.contains child := by
        rw [hg.contains]
        exact hd.contains hchild
      have habove : child ∉ s.nodes := hn ▸ hpath.not_mem_of_child hd hchild
      simp only [apply]
      rw [call_eq hknown habove (by simp [top?, hn])]
      refine ⟨rfl, ⟨by simp, ?_, by simp⟩, hw.entered ..⟩
      simp only [hn]
      exact ⟨hchild, hpath⟩

theorem step_smooth (hd : g.Downward) (h : Works g head s w) (hn : s.nodes = node :: rest)
    (hl : s.last ≠ some node) : Smooth g head (s.step w node) := by
  have hc : w.graph.contains node := h.contains (by simp [hn])
  have happly : ∀ {s' : Stack} {w' : World σ} {d : Dispatch}, s'.nodes = s.nodes →
      s'.Intact g head → w.Keeps w' → w'.Obedient g → d.Proper (g.children node) →
      Smooth g head (s'.apply w' node d) := by
    intro s' w' d hn' hi hk hw hpr
    exact apply_smooth hd hi hw (h.grown.trans hk.graph) (by rwa [hk.graph.contains])
      (hn'.trans hn) hpr
  simp only [step]
  rw [if_neg hl]
  split
  · next hst =>
    obtain ⟨ok, hr⟩ := Option.isSome_iff_exists.1 (h.coherent.result_iff.2 hst)
    obtain ⟨w', d, hrec⟩ := World.exists_receive hc ok
    obtain ⟨hw, hpr⟩ := h.world.receive (h.intact.heard hst node rest hn) hrec
    simp only [hr, hrec]
    exact happly rfl ⟨h.intact.valid, h.intact.path, h.intact.heard⟩
      (World.receive_keeps hrec) hw hpr
  · obtain ⟨w', d, hex⟩ := World.exists_execute hc
    obtain ⟨hw, hpr⟩ := h.world.execute hex
    simp only [hex]
    exact happly rfl (h.intact.fields rfl) (World.execute_keeps hex) hw hpr

/-- A pass on an intact stack. -/
theorem drive_smooth (hd : g.Downward) (budget : Nat) (h : Works g head s w)
    (hl : ∀ top, s.top? = some top → s.last = some top → s.paused ∧ s.state ≠ .receiving) :
    Smooth g head (drive budget s w) := by
  induction budget generalizing s w with
  | zero =>
    rw [drive]
    split
    · exact ⟨rfl, h.intact, h.world⟩
    split
    · exact ⟨rfl, h.intact, h.world⟩
    split
    · next hst => exact absurd hst h.intact.valid
    · refine ⟨rfl, ⟨h.intact.valid, h.intact.path, h.intact.heard⟩, ?_⟩
      exact (h.world.warn ..).report (by simp)
  | succ budget ih =>
    rw [drive]
    split
    · exact ⟨rfl, h.intact, h.world⟩
    next top rest hn =>
    split
    · exact ⟨rfl, h.intact, h.world⟩
    next hgo =>
    split
    · next hst => exact absurd hst h.intact.valid
    simp only [Bool.or_eq_true, Bool.and_eq_true, decide_eq_true_eq, not_or, not_and] at hgo
    have hlast : s.last ≠ some top := fun he => by
      obtain ⟨hp, hr⟩ := hl top (by simp [top?, hn]) he
      exact hgo.1 hp hr
    have hs := step_smooth hd h hn hlast
    obtain ⟨hcur, hdone⟩ := step_turned h.placed hn hs.fault
    simp only
    split
    · exact hs
    next hrest =>
    simp only [hs.fault, Option.isSome_none, Bool.false_or, Bool.not_eq_true] at hrest
    have hm : Made (fun _ => False) s w (s.step w top) := step_made w hn
    have hc : (s.step w top).after.Coherent w.tick.number :=
      (step_passable rfl hn h.coherent).coherent hs.fault
    refine ih ⟨⟨hs.stack.valid, hs.stack.path, hs.stack.heard⟩, hs.world,
      h.grown.trans hm.acts.frame.graph, hm.acts.placed h.placed, ?_⟩ fun t ht hlt => ?_
    · rw [hm.acts.frame.tick]
      exact hc.moveOn
    · -- The node that was turned to is still on top only if the stack is paused over it.
      obtain rfl : top = t := Option.some.inj (hcur.symm.trans hlt)
      rcases hdone ht with hr | ⟨hp, hr⟩
      · rw [hrest] at hr
        cases hr
      · exact ⟨by simp [moveOn, hp], hr⟩

theorem run_smooth (hd : g.Downward) (h : Works g head s w) : Smooth g head (s.run w) := by
  have hdrive : Smooth g head (drive s.stepBudget { s with last := none } w) :=
    drive_smooth hd _ ⟨⟨h.intact.valid, h.intact.path, h.intact.heard⟩, h.world, h.grown, h.placed,
      ⟨h.coherent.result_iff, h.coherent.of_ended, h.coherent.parked⟩⟩ (by simp)
  obtain ⟨hf, hi, hw⟩ := hdrive
  simp only [run, hf]
  split
  · refine ⟨rfl, hi.fields rfl, ?_⟩
    exact (hw.trace ..).of_eq rfl rfl rfl
  · exact ⟨rfl, ⟨hi.valid, hi.path, hi.heard⟩, hw⟩

/-! ## Every operation -/

/-- A new state in which nothing is on its way. -/
theorem Works.fields {s' : Stack} (h : Works g head s w) (hn : s'.nodes = s.nodes)
    (hc : s'.Coherent w.tick.number) (hv : s'.state ≠ .invalid := by rintro ⟨⟩)
    (hr : s'.state ≠ .receiving := by rintro ⟨⟩) : Works g head s' w :=
  ⟨h.intact.fields hn hv hr, h.world, h.grown, hn ▸ h.placed, hc⟩

theorem start_smooth (hd : g.Downward) (h : Works g head s w) (hst : s.state = .ready)
    (hn : s.nodes = []) (hcur : s.current = none) (hc : w.graph.contains head) :
    Smooth g head (s.start w head) := by
  have hgo : (s.state ≠ .ready || !s.isEmpty || s.current.isSome) = false := by
    simp [hst, hn, isEmpty, hcur]
  unfold Stack.start
  simp only [hgo, hc, Bool.false_eq_true, if_false, Bool.not_true, push, hn]
  refine run_smooth hd ⟨⟨by simp [hst], rfl, by simp [hst]⟩, h.world.entered .., h.grown, ?_, ?_⟩
  · exact ⟨by simp, fun n hm => by rw [List.mem_singleton.1 hm]; exact hc⟩
  · exact ⟨by simp [hst], by simp [hst], by simp [hst]⟩

theorem restart_smooth (hd : g.Downward) (h : Works g head s w)
    (hst : s.state = .ended ∨ s.state = .ready ∧ s.nodes = []) (hcur : s.current = none)
    (hc : w.graph.contains head) : Smooth g head (s.restart w head) := by
  unfold restart
  rcases hst with hst | ⟨hst, hn⟩
  · rw [if_pos hst]
    have hr : s.result = none := by simpa [hst] using h.coherent.result_iff
    exact start_smooth hd (h.fields rfl ⟨by simp [hr], by simp, by simp⟩) rfl
      (h.coherent.of_ended hst) hcur hc
  · rw [if_neg (by simp [hst])]
    exact start_smooth hd h hst hn hcur hc

theorem receiveReturn_smooth (hd : g.Downward) (h : Works g head s w)
    (hs : s.suspended? = some node) (ok : Bool) : Smooth g head (s.receiveReturn w ok) := by
  obtain ⟨-, rest, hn⟩ := suspended?_eq_some hs
  have hk : w.graph.contains node := h.contains (by simp [hn])
  obtain ⟨w', hstop⟩ := World.exists_stop hk
  have hc := complete_smooth h.intact h.world hn hk ok
  have hm : Made (fun _ => False) s w (s.complete w node ok) := complete_made w ok hn
  simp only [receiveReturn, hs, complete, hstop, pop, hn] at hc hm ⊢
  refine run_smooth hd ⟨⟨hc.stack.valid, hc.stack.path, hc.stack.heard⟩, hc.world,
    h.grown.trans hm.acts.frame.graph, ?_, ⟨by simp, by simp, by simp⟩⟩
  have hp := hm.acts.placed (x := (s.nodes, w)) h.placed
  exact hp

theorem receiveStatus_smooth (hd : g.Downward) (h : Works g head s w)
    (hs : s.suspended? = some node) {status : Status} (hst : status.Proper [] []) :
    Smooth g head (s.receiveStatus w status) := by
  cases hst with
  | ended ok =>
    simp only [receiveStatus, Status.outcome_of]
    exact receiveReturn_smooth hd h hs ok
  | wait =>
    simp only [receiveStatus, Status.outcome, hs]
    exact ⟨rfl, h.intact.fields rfl, h.world⟩
  | waitUntilNextUpdate =>
    simp only [receiveStatus, Status.outcome, hs]
    exact ⟨rfl, h.intact.fields rfl, h.world⟩

theorem resumeNextUpdate_smooth (hd : g.Downward) (h : Works g head s w) :
    Smooth g head (s.resumeNextUpdate w).1 := by
  unfold resumeNextUpdate
  split
  · next hdue =>
    have hst : s.state = .waitUntilNextUpdate := by
      simp only [isDue, Bool.and_eq_true, decide_eq_true_eq] at hdue
      exact hdue.1.1
    have hr : s.result = none := by simpa [hst] using h.coherent.result_iff
    exact run_smooth hd (h.fields rfl ⟨by simp [hr], by simp, by simp⟩)
  · exact ⟨rfl, h.intact, h.world⟩

/-- Rolling back goes all the way, over nodes that are in the graph. -/
theorem unwind_smooth (label : StackLabel) (stopAt : Option NodeId) {ns : List NodeId}
    (hp : Path g head ns) (hw : w.Obedient g) (hk : ∀ n ∈ ns, w.graph.contains n) :
    ∃ ns' w', unwind label stopAt ns w = ⟨ns', w', none⟩ ∧ Path g head ns' ∧ w'.Obedient g := by
  induction ns generalizing w with
  | nil => exact ⟨[], w, rfl, trivial, hw⟩
  | cons top rest ih =>
    rw [unwind]
    split
    · exact ⟨_, w, rfl, hp, hw⟩
    obtain ⟨w', hi⟩ := World.exists_interrupt (hk top List.mem_cons_self)
    rw [hi]
    refine ih hp.tail ((hw.interrupt hi).left ..) fun n hn => ?_
    have hg : w.graph.Grown (w'.left label top rest.length).graph :=
      (World.interrupt_keeps hi).graph
    rw [hg.contains]
    exact hk n (List.mem_cons_of_mem _ hn)

/-- A stack is rolled back to a node on it, or as a whole. -/
theorem breakTo_smooth (h : Works g head s w) (stopAt : Option NodeId)
    (hs : ∀ n, stopAt = some n → n ∈ s.nodes) : Smooth g head (s.breakTo w stopAt) := by
  obtain ⟨ns, w', hu, hp, hw⟩ := unwind_smooth s.label stopAt h.intact.path h.world h.placed.2
  have hf : stopAt.filter (!s.contains ·) = none := by
    cases stopAt with
    | none => rfl
    | some n => simp [Stack.contains, hs n rfl]
  simp only [breakTo, hf, hu]
  exact ⟨rfl, ⟨by simp, hp, by simp⟩, hw.trace ..⟩

theorem terminate_smooth (h : Works g head s w) : Smooth g head (s.terminate w) := by
  obtain ⟨hf, hi, hw⟩ := breakTo_smooth h none (by simp)
  unfold Stack.terminate
  generalize s.breakTo w none = p at hf hi hw ⊢
  obtain ⟨after, w', fault⟩ := p
  cases hf
  refine ⟨rfl, hi.fields rfl, ?_⟩
  simp only
  split
  · exact hw
  · exact hw.trace ..

theorem forwardHook_smooth (hd : g.Downward) (h : Works g head s w) (phase : Phase) :
    Smooth g head (s.forwardHook w phase) := by
  unfold forwardHook
  split
  · exact ⟨rfl, h.intact, h.world⟩
  next top hs =>
  split
  · exact ⟨rfl, h.intact, h.world⟩
  obtain ⟨-, rest, hn⟩ := suspended?_eq_some hs
  have hk := World.hook_keeps w top phase
  obtain ⟨hw, answer, ha, hproper⟩ := h.world.hook top (h.contains (by simp [hn])) phase
  have hworks : Works g head s (w.hook top phase).1 := by
    refine ⟨h.intact, hw, h.grown.trans hk.graph, ⟨h.placed.1, fun n hm => ?_⟩, ?_⟩
    · rw [hk.graph.contains]
      exact h.placed.2 n hm
    · rw [hk.tick]
      exact h.coherent
  generalize w.hook top phase = r at ha hw hworks ⊢
  obtain ⟨w', r⟩ := r
  cases ha
  rcases answer with _ | _ | status
  · exact ⟨rfl, h.intact, hw⟩
  · exact ⟨rfl, h.intact, hw⟩
  · exact receiveStatus_smooth hd hworks hs (hproper status rfl)

theorem Sound.works (hs : s.Sound w) (hi : s.Intact g head) (hw : w.Obedient g)
    (hg : g.Grown w.graph) : Works g head s w :=
  ⟨hi, hw, hg, hs.placed, hs.toCoherent⟩

/-- Whatever a tree does to the stack by itself finds no rule broken. -/
theorem perform_smooth {op : Operation} (hd : g.Downward) (hs : s.Sound w)
    (h : Works g head s w) (hc : w.graph.contains head) (hop : s.Admits head op) :
    Smooth g head (s.perform w op) := by
  cases hop with
  | start hst hn => exact start_smooth hd h hst hn hs.current hc
  | restart hst => exact restart_smooth hd h hst hs.current hc
  | run => exact run_smooth hd h
  | receiveReturn hw ok =>
    obtain ⟨node, hsus⟩ := hs.suspended hw
    exact receiveReturn_smooth hd h hsus ok
  | resumeNextUpdate => exact resumeNextUpdate_smooth hd h
  | breakTo => exact breakTo_smooth h none (by simp)
  | forwardHook phase => exact forwardHook_smooth hd h phase

end Stack

/-- A call at a wrong time or with a node that is not there, and what it is answered. -/
inductive HostCall.Misused (g : Graph σ) : HostCall → StackError → Prop
  | start (stack : StackLabel) (state : StackState) (size : Nat) :
      Misused g .start (.notReady stack state size)
  | receiveReturn (ok : Bool) (stack : StackLabel) (state : StackState) :
      Misused g (.receiveReturn ok) (.notWaiting stack state)
  | breakMain (stopAt : Option NodeId) (stack : StackLabel) (node : NodeId) :
      Misused g (.breakMain stopAt) (.breakTargetNotOnStack stack node)
  | breakService (service : NodeId) (stopAt : Option NodeId) (stack : StackLabel) (node : NodeId) :
      Misused g (.breakService service stopAt) (.breakTargetNotOnStack stack node)
  | endNode {node : NodeId} (ok : Bool) (h : g.contains node = false) :
      Misused g (.endNode node ok) (.unknownNode node)

namespace Stack

variable {s : Stack} {w : World σ} {root : NodeId} {call : HostCall} {label : StackLabel}

/-- What a call may leave of a stack, whether it is refused or not. -/
structure Answered (g : Graph σ) (head : NodeId) (call : HostCall) (p : Pass σ Stack) : Prop where
  stack : p.after.Intact g head
  world : p.world.Obedient g
  fault : ∀ e, p.fault = some e → call.Misused g e

theorem Smooth.answered {p : Pass σ Stack} (h : Smooth g head p) (call : HostCall) :
    Answered g head call p :=
  ⟨h.stack, h.world, fun e he => by rw [h.fault] at he; cases he⟩

theorem breakTo_answered (h : Works g head s w) (stopAt : Option NodeId)
    (hm : ∀ n, call.Misused g (.breakTargetNotOnStack s.label n)) :
    Answered g head call (s.breakTo w stopAt) := by
  cases hf : stopAt.filter (!s.contains ·) with
  | some missing =>
    simp only [breakTo, hf]
    exact ⟨h.intact, h.world, fun e he => Option.some.inj he ▸ hm missing⟩
  | none =>
    refine (breakTo_smooth h stopAt fun n hn => ?_).answered call
    subst hn
    simpa [Stack.contains] using hf

/-- What a host orders is done, unless the host asked at a wrong time or for a node that is
not on the stack. -/
theorem perform_answered {op : Operation} (hd : g.Downward) (hs : s.Sound w)
    (h : Works g head s w) (hc : w.graph.contains head) (hroot : label = .main → head = root)
    (hop : call.Orders root label op) : Answered g head call (s.perform w op) := by
  cases hop with
  | start =>
    cases hroot rfl
    by_cases hst : s.state = .ended ∨ s.state = .ready ∧ s.nodes = []
    · exact (restart_smooth hd h hst hs.current hc).answered .start
    · have hno : (s.state ≠ .ready || !s.isEmpty || s.current.isSome) = true := by
        simp only [not_or, not_and] at hst
        by_cases hr : s.state = .ready
        · simp [isEmpty, hst.2 hr]
        · simp [hr]
      simp only [not_or] at hst
      simp only [perform, restart, if_neg hst.1, Stack.start, hno, if_true]
      exact ⟨h.intact, h.world, fun e he => Option.some.inj he ▸ .start ..⟩
  | receiveReturn ok =>
    cases hsus : s.suspended? with
    | none =>
      simp only [perform, receiveReturn, hsus]
      exact ⟨h.intact, h.world, fun e he => Option.some.inj he ▸ .receiveReturn ..⟩
    | some node => exact (receiveReturn_smooth hd h hsus ok).answered _
  | breakMain stopAt => exact breakTo_answered h stopAt fun n => .breakMain ..
  | breakService service stopAt => exact breakTo_answered h stopAt fun n => .breakService ..
  | terminate => exact (terminate_smooth h).answered _
  | pause | resume | pauseService | resumeService =>
    exact ⟨⟨h.intact.valid, h.intact.path, h.intact.heard⟩, h.world, fun e he => by cases he⟩

end Stack

end BehaviorTree
