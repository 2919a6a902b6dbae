/-
A stack is a line of descent.

If the nodes of a graph call only their children, each node on a stack is a child of the one
beneath it. Children come before their parents, so a child that is called is in the graph and
not on the stack yet: the call is refused at no moment of an operation. The same error is also
found when a node answers that it called a child and called nobody. The node is on top then, so
what is found broken tells the two apart (`Blames`).
-/
import BehaviorTree.Proofs.Stack.Obedient

namespace BehaviorTree

variable {σ : Type} [Node σ]

/-- When it is turned to, the node answers that it called a child, but it called nobody; or its
hook answers so, which must not call. -/
def World.CallsNobody (w : World σ) (n : NodeId) : Prop :=
  (∃ w', w.Turned n w' (.answered .noReturn [])) ∨
    ∃ phase, (w.hook n phase).2 = .ok (some (.ended .noReturn))

/-- A hook that finds its node breaks no rule but by calling a child. -/
theorem World.hook_error {w : World σ} {n : NodeId} (hn : w.graph.contains n) {phase : Phase}
    {e : StackError} (h : (w.hook n phase).2 = .error e) :
    ∃ child status, e = .callWithoutNoReturn n child status := by
  obtain ⟨slot, hs⟩ := Option.isSome_iff_exists.1 ((Graph.isSome_slot? w.graph n).trans hn)
  simp only [World.hook, hs] at h
  split at h
  · cases h
  split at h
  · cases h
  · cases h
    exact ⟨_, _, rfl⟩

namespace Stack

variable {g : Graph σ} {head top child : NodeId} {label : StackLabel} {heads : NodeId → Prop}
  {ns rest : List NodeId} {x y : List NodeId × World σ} {s : Stack} {w w' : World σ}
  {e : StackError} {d : Dispatch}

/-! ## Lines of descent -/

/-- The nodes, the top first, descend from `head`. -/
structure Lineage (g : Graph σ) (head : NodeId) (ns : List NodeId) : Prop where
  bottom : ∀ n, ns.getLast? = some n → n = head
  descends : ns.IsChain fun n beneath => n ∈ g.children beneath ∧ g.parent? n = some beneath
  rising : ns.Pairwise fun n beneath => n.index < beneath.index
  depth : ns.length ≤ g.size

theorem Path.bottom (h : Path g head ns) {n : NodeId} (hn : ns.getLast? = some n) : n = head := by
  induction ns with
  | nil => cases hn
  | cons m rest ih =>
    cases rest with
    | nil =>
      cases hn
      exact h
    | cons k rest => exact ih h.2 (by rwa [List.getLast?_cons_cons] at hn)

theorem Path.descends (hparent : ∀ p c, c ∈ g.children p → g.parent? c = some p)
    (h : Path g head ns) :
    ns.IsChain fun n beneath => n ∈ g.children beneath ∧ g.parent? n = some beneath := by
  induction ns with
  | nil => exact .nil
  | cons m rest ih =>
    cases rest with
    | nil => exact .singleton m
    | cons k rest => exact .cons_cons ⟨h.1, hparent k m h.1⟩ (ih h.2)

theorem Path.rising (hd : g.Downward) (h : Path g head ns) :
    ns.Pairwise fun n beneath => n.index < beneath.index := by
  induction ns with
  | nil => exact .nil
  | cons m rest ih => exact .cons (h.index_lt hd) (ih h.tail)

/-- There are no more nodes above the head than there are before it in the graph. -/
theorem Path.length_lt (hd : g.Downward) (hh : g.contains head) (h : Path g head (top :: rest)) :
    rest.length + top.index < g.size := by
  induction rest generalizing top with
  | nil =>
    cases h
    simpa [Graph.contains] using hh
  | cons m rest ih =>
    have htop := hd m top h.1
    have hrest := ih h.2
    simp only [List.length_cons]
    omega

theorem Path.lineage (hparent : ∀ p c, c ∈ g.children p → g.parent? c = some p)
    (hd : g.Downward) (hh : g.contains head) (h : Path g head ns) : Lineage g head ns := by
  refine ⟨fun _ hn => h.bottom hn, h.descends hparent, h.rising hd, ?_⟩
  cases ns with
  | nil => exact Nat.zero_le _
  | cons top rest =>
    have hlt := h.length_lt hd hh
    simp only [List.length_cons]
    omega

/-! ## Calls of children -/

/-- Whoever is on top and calls a child has it put on the stack. -/
def Accepts (ns : List NodeId) (w : World σ) : Prop :=
  ∀ top child w', ns.head? = some top → w.Turned top w' (.answered .noReturn [child]) →
    ∀ s : Stack, s.nodes = ns → s.apply w' top (.answered .noReturn [child])
      = ⟨{ s with nodes := child :: ns, state := .calling },
        w'.entered s.label child (ns.length + 1), none⟩

/-- A child is in the graph, and lower than all that is on the stack. -/
theorem Lined.callable (hc : g.CallsChildren) (hd : g.Downward) (hx : Lined g head (top :: rest, w))
    {status : Status} (ht : w.Turned top w' (.answered status [child])) :
    w'.graph.contains child ∧ child ∉ top :: rest := by
  have hchild := mem_children_of_turned hc hx.grown ht
  refine ⟨?_, hx.path.not_mem_of_child hd hchild⟩
  rw [(hx.grown.trans ht.keeps.graph).contains]
  exact hd.contains hchild

theorem Lined.accepts (hc : g.CallsChildren) (hd : g.Downward) (hx : Lined g head (ns, w)) :
    Accepts ns w := by
  intro top child w' htop ht s hs
  obtain ⟨rest, rfl⟩ := List.head?_eq_some_iff.1 htop
  obtain ⟨hcontains, hnot⟩ := hx.callable hc hd ht
  have he := call_eq hcontains (hs ▸ hnot) (by rw [top?, hs]; rfl)
  rw [hs, Stack.depth, hs] at he
  exact he

/-! ## What is found broken -/

/-- What a broken rule comes of, on a stack that set out from `x`: never of a node that is not
there, and a node is said to be executed once more only if it is on top and called nobody. -/
def Blames (label : StackLabel) (heads : NodeId → Prop) (x : List NodeId × World σ) :
    StackError → Prop
  | .unknownNode _ => False
  | .recursiveExecution _ n _ =>
    ∃ rest w, Acts label heads x (n :: rest, w) ∧ w.CallsNobody n
  | _ => True

/-- It makes no difference what was done before. -/
theorem Blames.of_acts (hb : Blames label heads y e) (h : Acts label heads x y) :
    Blames label heads x e := by
  cases e with
  | recursiveExecution l n state =>
    obtain ⟨rest, w, ha, hn⟩ := hb
    exact ⟨rest, w, h.trans ha, hn⟩
  | _ => exact hb

theorem Lined.contains (hx : Lined g head (top :: rest, w)) : w.graph.contains top :=
  hx.placed.2 top List.mem_cons_self

theorem complete_fault (h : w.graph.contains top) (ok : Bool) :
    (s.complete w top ok).fault = none := by
  obtain ⟨w', hstop⟩ := World.exists_stop h
  simp only [complete, hstop]

/-- Whatever the node on top answers, no child that it calls is refused. -/
theorem apply_blames (hc : g.CallsChildren) (hd : g.Downward) (hx : Lined g head (top :: rest, w))
    (hn : s.nodes = top :: rest) (ht : w.Turned top w' d)
    (he : (s.apply w' top d).fault = some e) : Blames label heads (top :: rest, w) e := by
  have hknown : w'.graph.contains top := by
    rw [ht.keeps.graph.contains]
    exact hx.contains
  match d with
  | .bindFailed _ => cases he
  | .answered _ (_ :: _ :: _) =>
    cases he
    trivial
  | .answered status [child] =>
    by_cases hst : status = .noReturn
    · subst hst
      rw [hx.accepts hc hd top child w' rfl ht s hn] at he
      cases he
    · simp only [apply, call, if_pos hst] at he
      cases he
      trivial
  | .answered status [] =>
    cases status with
    | noReturn =>
      simp only [apply, settleStatus, top?, hn, List.head?_cons, if_true] at he
      cases he
      exact ⟨rest, w, .refl, .inl ⟨w', ht⟩⟩
    | success | failed =>
      rw [apply, settleStatus, complete_fault hknown] at he
      cases he
    | wait | waitUntilNextUpdate | error => cases he

theorem step_blames (hc : g.CallsChildren) (hd : g.Downward) (hx : Lined g head (top :: rest, w))
    (hn : s.nodes = top :: rest) (hl : s.last ≠ some top) (he : (s.step w top).fault = some e) :
    Blames label heads (top :: rest, w) e := by
  simp only [step] at he
  rw [if_neg hl] at he
  split at he
  · split at he
    · cases he
      trivial
    next ok _ =>
    obtain ⟨w', d, hrec⟩ := World.exists_receive hx.contains ok
    simp only [hrec] at he
    refine apply_blames hc hd hx ?_ (.inr ⟨ok, hrec⟩) he
    exact hn
  · obtain ⟨w', d, hex⟩ := World.exists_execute hx.contains
    simp only [hex] at he
    refine apply_blames hc hd hx ?_ (.inl hex) he
    exact hn

/-- A pass, from anywhere in it on. -/
theorem drive_blames (hc : g.CallsChildren) (hd : g.Downward) (budget : Nat)
    (hx : Lined g head (s.nodes, w))
    (hl : ∀ top, s.top? = some top → s.last = some top → s.paused ∧ s.state ≠ .receiving)
    (he : (drive budget s w).fault = some e) : Blames s.label (· = head) (s.nodes, w) e := by
  -- Over the steps that are left: the nodes go on descending, and no node is turned to twice.
  induction budget generalizing s w with
  | zero =>
    rw [drive] at he
    split at he
    · cases he
    split at he
    · cases he
    split at he <;> cases he
    trivial
  | succ budget ih =>
    rw [drive] at he
    split at he
    · cases he
    next top rest hn =>
    split at he
    · cases he
    next hgo =>
    split at he
    · cases he
      trivial
    simp only [Bool.or_eq_true, Bool.and_eq_true, decide_eq_true_eq, not_or, not_and] at hgo
    have hlast : s.last ≠ some top := fun hlt => by
      obtain ⟨hp, hr⟩ := hl top (by simp [top?, hn]) hlt
      exact hgo.1 hp hr
    simp only at he
    split at he
    · rw [hn] at hx ⊢
      exact step_blames hc hd hx hn hlast he
    next hon =>
    simp only [Bool.or_eq_true, not_or, Bool.not_eq_true, Option.isSome_eq_false_iff,
      Option.isNone_iff_eq_none] at hon
    obtain ⟨hf, hrests⟩ := hon
    have hm : Made (· = head) s w (s.step w top) := step_made w hn
    obtain ⟨hcur, hdone⟩ := step_turned hx.placed hn hf
    have hlater := ih (s := (s.step w top).after.moveOn) (hm.acts.lined hc hx) (fun t ht hlt => ?_) he
    · rw [show (s.step w top).after.moveOn.label = s.label from hm.label] at hlater
      exact hlater.of_acts hm.acts
    -- The node that was turned to is still on top only if the stack is paused over it.
    obtain rfl : top = t := Option.some.inj (hcur.symm.trans hlt)
    rcases hdone ht with hr | ⟨hp, hr⟩
    · rw [hrests] at hr
      cases hr
    · exact ⟨by simp [moveOn, hp], hr⟩

theorem run_blames (hc : g.CallsChildren) (hd : g.Downward) (hx : Lined g head (s.nodes, w))
    (he : (s.run w).fault = some e) : Blames s.label (· = head) (s.nodes, w) e := by
  have hdrive : (drive s.stepBudget { s with last := none } w).fault = some e := by
    simp only [run] at he
    split at he
    · next hf => rw [hf]; exact he
    · split at he <;> cases he
  exact drive_blames (s := { s with last := none }) hc hd _ hx (by simp) hdrive

/-! ## Every operation -/

theorem start_blames (hc : g.CallsChildren) (hd : g.Downward) (hg : g.Grown w.graph)
    (hh : g.contains head) (he : (s.start w head).fault = some e) :
    Blames s.label (· = head) (s.nodes, w) e := by
  have hknown : w.graph.contains head := by rwa [hg.contains]
  unfold Stack.start at he
  split at he
  · cases he
    trivial
  next hst =>
  split at he
  · next hno => simp [hknown] at hno
  simp only [isEmpty, Bool.or_eq_true, Bool.not_eq_true', not_or, List.isEmpty_eq_false_iff,
    ne_eq, Decidable.not_not, decide_not, decide_eq_false_iff_not] at hst
  have hn : s.nodes = [] := hst.1.2
  have hcame : Act s.label (· = head) (s.nodes, w) ([head], w.entered s.label head 1) := by
    rw [hn]
    exact .head rfl hknown
  have hlined : Lined g head ([head], w.entered s.label head 1) :=
    ⟨rfl, ⟨by simp, fun n hm => by rw [List.mem_singleton.1 hm]; exact hknown⟩, hg⟩
  simp only [push, hn, Stack.depth, List.length_nil, Nat.zero_add] at he
  have hrun := run_blames (s := { s with nodes := [head], result := none, parkedAt := none }) hc hd
    hlined he
  exact hrun.of_acts (.single hcame)

theorem restart_blames (hc : g.CallsChildren) (hd : g.Downward) (hg : g.Grown w.graph)
    (hh : g.contains head) (he : (s.restart w head).fault = some e) :
    Blames s.label (· = head) (s.nodes, w) e := by
  unfold restart at he
  split at he
  · exact start_blames (s := { s with state := .ready }) hc hd hg hh he
  · exact start_blames hc hd hg hh he

theorem receiveReturn_blames (hc : g.CallsChildren) (hd : g.Downward)
    (hx : Lined g head (s.nodes, w)) (ok : Bool) (he : (s.receiveReturn w ok).fault = some e) :
    Blames s.label (· = head) (s.nodes, w) e := by
  unfold receiveReturn at he
  split at he
  · cases he
    trivial
  next node hsus =>
  obtain ⟨-, rest, hn⟩ := suspended?_eq_some hsus
  have hknown : w.graph.contains node := hx.placed.2 node (by simp [hn])
  have hm : Made (· = head) s w (s.complete w node ok) := complete_made w ok hn
  have hf : (s.complete w node ok).fault = none := complete_fault hknown ok
  have hlined := hm.acts.lined hc hx
  generalize s.complete w node ok = p at he hm hf hlined
  obtain ⟨after, w', fault⟩ := p
  cases hf
  have hrun := run_blames (s := { after with parkedAt := none }) hc hd hlined he
  rw [show after.label = s.label from hm.label] at hrun
  exact hrun.of_acts hm.acts

/-- A hook that answers that the node called a child has called nobody, since it must not. -/
theorem forwardHook_blames (hc : g.CallsChildren) (hd : g.Downward)
    (hx : Lined g head (s.nodes, w)) (phase : Phase)
    (he : (s.forwardHook w phase).fault = some e) :
    Blames s.label (· = head) (s.nodes, w) e := by
  unfold forwardHook at he
  split at he
  · cases he
  next top hsus =>
  split at he
  · cases he
  obtain ⟨-, rest, hn⟩ := suspended?_eq_some hsus
  have hacts : Acts s.label (· = head) (s.nodes, w) (s.nodes, (w.hook top phase).1) := by
    rw [hn]
    exact .single (.hook phase)
  have hlined := hacts.lined hc hx
  have hknown : w.graph.contains top := hx.placed.2 top (by simp [hn])
  cases hhook : w.hook top phase with
  | mk w' r =>
    have hr : (w.hook top phase).2 = r := by rw [hhook]
    rw [hhook] at hacts hlined he
    match r with
    | .error _ =>
      cases he
      obtain ⟨child, status, rfl⟩ := World.hook_error hknown hr
      trivial
    | .ok none | .ok (some .running) => cases he
    | .ok (some (.ended status)) =>
      simp only [receiveStatus] at he
      cases status with
      | success | failed => exact (receiveReturn_blames hc hd hlined _ he).of_acts hacts
      | wait | waitUntilNextUpdate | error =>
        simp only [Status.outcome, hsus] at he
        cases he
      | noReturn =>
        simp only [Status.outcome, hsus] at he
        cases he
        exact ⟨rest, w, by rw [hn]; exact .refl, .inr ⟨phase, hr⟩⟩

/-- Whatever is done to a stack whose nodes descend from its head, no child is refused in its
course. -/
theorem perform_blames (hc : g.CallsChildren) (hd : g.Downward) (hh : g.contains head)
    (hx : Lined g head (s.nodes, w)) {op : Operation} (hop : ∀ id, op.Heads id → id = head)
    (hs : op.isStatus = false) (he : (s.perform w op).fault = some e) :
    Blames s.label (· = head) (s.nodes, w) e := by
  cases op with
  | start id =>
    cases hop id rfl
    exact start_blames hc hd hx.grown hh he
  | restart id =>
    cases hop id rfl
    exact restart_blames hc hd hx.grown hh he
  | run => exact run_blames hc hd hx he
  | receiveReturn ok => exact receiveReturn_blames hc hd hx ok he
  | receiveStatus => cases hs
  | resumeNextUpdate =>
    simp only [perform, resumeNextUpdate] at he
    split at he
    · exact run_blames (s := { s with parkedAt := none, state := .calling }) hc hd hx he
    · cases he
  | breakTo stopAt =>
    simp only [perform, Stack.breakTo] at he
    split at he
    · cases he
      trivial
    have hu := unwind_known s.label stopAt hx.placed.2
    split at he
    · next hf => simp [hf] at hu
    · cases he
  | terminate =>
    rw [perform, (terminate_eq hx.placed.2).1] at he
    cases he
  | forwardHook phase => exact forwardHook_blames hc hd hx phase he
  | pause | resume | applyConfig => cases he

end Stack

end BehaviorTree
